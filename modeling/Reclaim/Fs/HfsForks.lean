import Reclaim.Fs.Hfs

/-!
# Extents of HFS+ forks

A fork is its extents' blocks, one extent after the other.  `read_fork` stitches a read from them,
wherever the extents part.

`fork_extents` counts down the bytes of the file that are left, and takes an extent in full where
none are: an extent that begins behind the end of the file is taken for one of a file of unknown
size.  So the extents are the file exactly if there is no such extent.
-/

namespace Reclaim
namespace Hfs

open FileBytes

variable {fs : Hfs} {e : ExtentDescriptor} {es : List ExtentDescriptor}

/-! ## Sizes -/

lemma bs_eq (fs : Hfs) : fs.bs = fs.vh.blockSize := max_eq_left <| by
  have := fs.vh.blockSize_mem.1
  omega

lemma bs_pos (fs : Hfs) : 0 < fs.bs := lt_max_of_lt_right Nat.one_pos

lemma mul_bs_lt (fs : Hfs) {n : ℕ} (h : n < 2 ^ 32) : n * fs.bs < 2 ^ 53 := by
  have hbs : fs.bs ≤ 2 ^ 20 := fs.bs_eq ▸ fs.vh.blockSize_mem.2
  calc
    n * fs.bs < 2 ^ 32 * fs.bs := Nat.mul_lt_mul_of_pos_right h fs.bs_pos
    _ ≤ 2 ^ 32 * 2 ^ 20 := Nat.mul_le_mul_left _ hbs
    _ < 2 ^ 53 := by omega

/-- Block counts and places in bytes fit 64 bits. -/
lemma saturatingMul_bs (fs : Hfs) {n : ℕ} (h : n < 2 ^ 32) :
    saturatingMul n fs.bs = n * fs.bs := by
  have hlt := fs.mul_bs_lt h
  have hmax : u64Max = 2 ^ 64 - 1 := rfl
  exact min_eq_left (by omega)

/-- The blocks of a fork, extent by extent. -/
def blocksOf (fs : Hfs) (es : List ExtentDescriptor) : List Extent :=
  es.map fun e => ⟨e.startBlock * fs.bs, e.blockCount * fs.bs⟩

@[simp] lemma blocksOf_nil (fs : Hfs) : fs.blocksOf [] = [] := rfl

@[simp] lemma blocksOf_cons (fs : Hfs) (e : ExtentDescriptor) (es : List ExtentDescriptor) :
    fs.blocksOf (e :: es) = ⟨e.startBlock * fs.bs, e.blockCount * fs.bs⟩ :: fs.blocksOf es := rfl

/-- The bytes that are allocated. -/
def allocated (fs : Hfs) (es : List ExtentDescriptor) : ℕ :=
  (es.map fun e => e.blockCount * fs.bs).sum

lemma length_extentAddresses_blocksOf (fs : Hfs) (es : List ExtentDescriptor) :
    (extentAddresses (fs.blocksOf es)).length = fs.allocated es := by
  induction es with
  | nil => rfl
  | cons e es ih =>
    rw [blocksOf_cons, extentAddresses_cons, List.length_append, List.length_range', ih, allocated,
      allocated, List.map_cons, List.sum_cons]

/-! ## Reading a fork -/

section Read

variable {x c dev left byteOff len : ℕ} {out : Bytes}

lemma allocated_cons (fs : Hfs) (e : ExtentDescriptor) (es : List ExtentDescriptor) :
    fs.allocated (e :: es) = e.blockCount * fs.bs + fs.allocated es := by
  rw [allocated, List.map_cons, List.sum_cons]
  rfl

lemma allocated_le (fs : Hfs) (es : List ExtentDescriptor) :
    fs.allocated es ≤ es.length * 2 ^ 53 := by
  induction es with
  | nil => exact Nat.zero_le _
  | cons e es ih =>
    have hlt := fs.mul_bs_lt e.blockCount_lt
    rw [allocated_cons, List.length_cons, Nat.succ_mul, Nat.add_comm]
    exact Nat.add_le_add ih hlt.le

/-- The byte at `x` of a fork. -/
def forkByte (fs : Hfs) (es : List ExtentDescriptor) (x : ℕ) : UInt8 :=
  fs.src.byte ((extentAddresses (fs.blocksOf es)).getD x 0)

/-- Where a byte of the fork is, so are those behind it in its extent. -/
lemma forkDeviceOffset_eq (fs : Hfs) (hc : c ≤ x) (hlen : c + fs.allocated es ≤ u64Max) :
    (fs.forkDeviceOffset es c x = none ∧ c + fs.allocated es ≤ x) ∨
      ∃ dev left, fs.forkDeviceOffset es c x = some (dev, left) ∧ 0 < left ∧
        ∀ j < left, (extentAddresses (fs.blocksOf es))[x - c + j]? = some (dev + j) := by
  induction es generalizing c with
  | nil => exact .inl ⟨rfl, hc⟩
  | cons e es ih =>
    have hblocks := fs.saturatingMul_bs e.blockCount_lt
    have hstart := fs.saturatingMul_bs e.startBlock_lt
    have hplace := fs.mul_bs_lt e.startBlock_lt
    have hbytes := fs.mul_bs_lt e.blockCount_lt
    have hmax : u64Max = 2 ^ 64 - 1 := rfl
    rw [allocated_cons] at hlen ⊢
    have hend : saturatingAdd c (e.blockCount * fs.bs) = c + e.blockCount * fs.bs :=
      min_eq_left (by omega)
    rw [forkDeviceOffset, hblocks, hend, hstart, blocksOf_cons, extentAddresses_cons]
    dsimp only
    split
    · rename_i hin
      refine .inr ⟨_, _, rfl, by omega, fun j hj => ?_⟩
      have hdev : saturatingAdd (e.startBlock * fs.bs) (x - c) = e.startBlock * fs.bs + (x - c) :=
        min_eq_left (by omega)
      rw [hdev, List.getElem?_append_left (by rw [List.length_range']; omega),
        List.getElem?_range' (by omega), Nat.one_mul, Nat.add_assoc]
    · rename_i hout
      rcases ih (c := c + e.blockCount * fs.bs) (by omega) (by omega) with
        ⟨hnone, hle⟩ | ⟨dev, left, hsome, hpos, haddr⟩
      · exact .inl ⟨hnone, by omega⟩
      · refine .inr ⟨dev, left, hsome, hpos, fun j hj => ?_⟩
        rw [List.getElem?_append_right (by rw [List.length_range']; omega), List.length_range',
          ← haddr j hj]
        congr 1
        omega

/-- **The loop of `read_fork`** comes to what it is to read, if the fork has it. -/
lemma readForkFrom_eq (fs : Hfs) (hes : es.length ≤ 8) (hin : byteOff + len ≤ fs.allocated es)
    (fuel : ℕ) (hout : out = (List.range out.length).map fun k => fs.forkByte es (byteOff + k))
    (hle : out.length ≤ len) (hfuel : len - out.length ≤ fuel) :
    fs.readForkFrom es byteOff len fuel out =
      (List.range len).map fun k => fs.forkByte es (byteOff + k) := by
  induction fuel generalizing out with
  | zero =>
    have hfull : out.length = len := by omega
    rw [readForkFrom, ← hfull]
    exact hout
  | succ fuel ih =>
    rw [readForkFrom]
    split
    · rename_i hlt
      have hmax : u64Max = 2 ^ 64 - 1 := rfl
      have hall := (fs.allocated_le es).trans (Nat.mul_le_mul_right _ hes)
      have hfrom : 0 + fs.allocated es ≤ u64Max := by omega
      rcases fs.forkDeviceOffset_eq (Nat.zero_le (byteOff + out.length)) hfrom with
        ⟨-, hbehind⟩ | ⟨dev, left, hsome, hpos, haddr⟩
      · omega
      · rw [hsome]
        dsimp only
        rw [if_neg (by omega)]
        have hchunk : min (len - out.length) (min left (2 ^ 20)) ≤ left := by omega
        generalize hn : min (len - out.length) (min left (2 ^ 20)) = n at hchunk
        -- the chunk lies in one extent
        have hread : fs.src.read dev n =
            (List.range n).map fun k => fs.forkByte es (byteOff + (out.length + k)) := by
          unfold Volume.read
          refine List.map_congr_left fun k hk => ?_
          rw [List.mem_range] at hk
          have hat := haddr k (by omega)
          rw [Nat.sub_zero, Nat.add_assoc] at hat
          rw [forkByte, List.getD_eq_getElem?_getD, hat, Option.getD_some]
        have hlen : (out ++ fs.src.read dev n).length = out.length + n := by
          rw [List.length_append, Volume.length_read]
        refine ih ?_ (by omega) (by omega)
        rw [hlen, List.range_add, List.map_append, ← hout, List.map_map, hread]
        rfl
    · have hfull : out.length = len := by omega
      rw [← hfull]
      exact hout

/-- **A read of a fork**, of bytes that it has. -/
lemma readFork_eq (fs : Hfs) (hes : es.length ≤ 8) (hin : byteOff + len ≤ fs.allocated es) :
    fs.readFork es byteOff len = (List.range len).map fun k => fs.forkByte es (byteOff + k) := by
  unfold readFork
  rw [fs.readForkFrom_eq hes hin len rfl (Nat.zero_le _) (by omega)]
  simp

end Read

/-! ## Extents behind the end of the file -/

/-- No extent that has blocks begins at the end of the file or behind it. -/
def NoneBehind (fs : Hfs) (size : ℕ) (es : List ExtentDescriptor) : Prop :=
  ∀ before e after, es = before ++ e :: after → e.blockCount ≠ 0 → fs.allocated before < size

lemma noneBehind_nil (size : ℕ) : fs.NoneBehind size [] := by
  intro before e after h
  exact absurd h (by simp)

/-- The first extent begins at 0, and the others behind its bytes. -/
lemma noneBehind_cons {size : ℕ} : fs.NoneBehind size (e :: es) ↔
    (e.blockCount ≠ 0 → 0 < size) ∧ fs.NoneBehind (size - e.blockCount * fs.bs) es := by
  constructor
  · intro h
    refine ⟨h [] e es rfl, fun before d after hes hd => ?_⟩
    have hlt := h (e :: before) d after (by rw [hes, List.cons_append]) hd
    rw [allocated, List.map_cons, List.sum_cons] at hlt
    unfold allocated
    omega
  · rintro ⟨hfirst, hrest⟩ before d after hes hd
    cases before with
    | nil =>
      obtain ⟨rfl, -⟩ := List.cons.inj hes
      exact hfirst hd
    | cons c before =>
      obtain ⟨rfl, htail⟩ := List.cons.inj hes
      have hlt := hrest before d after htail hd
      rw [allocated, List.map_cons, List.sum_cons]
      unfold allocated at hlt
      omega

/-! ## What the extents are -/

/-- What is left of the file is its first bytes, if no extent begins behind them. -/
lemma forkExtentsFrom_iff (fs : Hfs) (es : List ExtentDescriptor) (remaining : ℕ) :
    extentAddresses (fs.forkExtentsFrom remaining es) =
        (extentAddresses (fs.blocksOf es)).take remaining ↔ fs.NoneBehind remaining es := by
  induction es generalizing remaining with
  | nil => exact iff_of_true (List.take_nil).symm (noneBehind_nil remaining)
  | cons e es ih =>
    have hlen := fs.saturatingMul_bs e.blockCount_lt
    have hstart := fs.saturatingMul_bs e.startBlock_lt
    rw [noneBehind_cons, forkExtentsFrom, blocksOf_cons, extentAddresses_cons]
    split
    · rename_i hzero
      rw [hzero, Nat.zero_mul, List.range'_zero, List.nil_append, Nat.sub_zero, ih]
      exact (and_iff_right fun h => absurd rfl h).symm
    · rename_i hne
      have hpos : 0 < e.blockCount * fs.bs :=
        Nat.mul_pos (Nat.pos_of_ne_zero hne) fs.bs_pos
      rw [extentAddresses_cons, hlen, hstart]
      by_cases hzero : remaining = 0
      · -- the extent is taken in full, though none of it is the file's
        have hfirst : List.range' (e.startBlock * fs.bs) (e.blockCount * fs.bs) ≠ [] :=
          mt List.range'_eq_nil_iff.1 hpos.ne'
        rw [if_pos hzero, hzero, List.take_zero]
        refine iff_of_false (fun h => hfirst (List.append_eq_nil_iff.1 h).1) fun h => ?_
        exact absurd (h.1 hne) (lt_irrefl 0)
      · rw [if_neg hzero, ← ih, List.take_append, List.length_range']
        have hcut : List.range' (e.startBlock * fs.bs) (min (e.blockCount * fs.bs) remaining) =
            (List.range' (e.startBlock * fs.bs) (e.blockCount * fs.bs)).take remaining := by
          obtain hle | hlt := le_or_gt (e.blockCount * fs.bs) remaining
          · rw [min_eq_left hle, List.take_range'_of_length_le hle]
          · rw [min_eq_right hlt.le, List.take_range'_of_length_ge hlt.le]
        rw [hcut, List.append_right_inj]
        exact (and_iff_right fun _ => Nat.pos_of_ne_zero hzero).symm

/-- **The extents of a fork** are its first blocks, cut to the size of the file, exactly if no
extent that has blocks begins at the end of the file or behind it. -/
theorem forkExtents_iff (fs : Hfs) (fork : ForkData) :
    extentAddresses (fs.forkExtents fork) =
        (extentAddresses (fs.blocksOf fork.extents)).take
          (min fork.logicalSize (fs.allocated fork.extents)) ↔
      fs.NoneBehind fork.logicalSize fork.extents := by
  rw [← forkExtentsFrom_iff, ← length_extentAddresses_blocksOf, ← List.take_take,
    List.take_length]
  rfl

/-- A volume of `n` blocks of 4 KiB, the catalog in block 2. -/
def fourKiB (n : ℕ) : Hfs where
  src := ⟨n * 4096, fun _ => 0⟩
  vh :=
    { caseSensitive := false
      blockSize := 4096
      totalBlocks := n
      catalog := ⟨4096, 1, [⟨2, 1, by omega, by omega⟩]⟩
      allocation := ⟨0, 0, []⟩
      blockSize_mem := by omega
      catalog_le := by decide }

/-- An empty file that has a block. -/
def emptyFork : ForkData := ⟨0, 1, [⟨5, 1, by omega, by omega⟩]⟩

/-- The block of an empty file is taken for its content. -/
theorem forkExtents_counterexample : ¬ extentAddresses ((fourKiB 256).forkExtents emptyFork) =
    (extentAddresses ((fourKiB 256).blocksOf emptyFork.extents)).take
      (min emptyFork.logicalSize ((fourKiB 256).allocated emptyFork.extents)) := by
  intro h
  have hzero : min emptyFork.logicalSize ((fourKiB 256).allocated emptyFork.extents) = 0 :=
    Nat.zero_min _
  rw [hzero] at h
  have hnone := ((fourKiB 256).forkExtentsFrom_iff emptyFork.extents 0).1 h
  exact absurd (hnone [] _ [] rfl (by decide)) (lt_irrefl 0)

end Hfs
end Reclaim

/-!
## The sweep for stale HFS+ records

The sweep goes through the volume chunk by chunk, and in each through the even offsets.  The loop
over a chunk stops eight bytes before its end, and the next chunk begins at its end, so three
offsets before each end are not tried; the chunk at the end of the volume has no such gap.  A parent
and name that was found is not reported again.
-/

namespace Reclaim
namespace Hfs

open FileBytes

variable (fs : Hfs)

/-! ## Which offsets are tried -/

/-- The chunk and the offset in it of each try, in order. -/
def staleTries : List (ℕ × ℕ) :=
  fs.staleChunks.flatMap fun pos => (fs.staleOffsets pos).map fun i => (pos, i)

/-- The offsets that are tried. -/
def staleTried : List ℕ := fs.staleTries.map fun t => t.1 + t.2

section Tried

variable {fs} {o pos i : ℕ}

lemma mem_staleOffsets : i ∈ fs.staleOffsets pos ↔ 2 ∣ i ∧ i + 8 ≤ fs.staleScanTo pos := by
  unfold staleOffsets
  rw [List.mem_map]
  constructor
  · rintro ⟨k, hk, rfl⟩
    rw [List.mem_range] at hk
    exact ⟨Dvd.intro k rfl, by omega⟩
  · rintro ⟨⟨k, rfl⟩, hle⟩
    exact ⟨k, List.mem_range.2 (by omega), rfl⟩

lemma mem_staleChunks : pos ∈ fs.staleChunks ↔ staleChunk ∣ pos ∧ pos < fs.staleTotal := by
  have hchunk : 0 < staleChunk := by decide
  unfold staleChunks divCeil
  rw [List.mem_map]
  constructor
  · rintro ⟨k, hk, rfl⟩
    rw [List.mem_range, Nat.lt_div_iff_mul_lt hchunk] at hk
    exact ⟨Dvd.intro_left k rfl, by omega⟩
  · rintro ⟨⟨k, rfl⟩, hlt⟩
    refine ⟨k, ?_, Nat.mul_comm ..⟩
    rw [List.mem_range, Nat.lt_div_iff_mul_lt hchunk, Nat.mul_comm]
    omega

lemma mem_staleTried : o ∈ fs.staleTried ↔
    ∃ pos i, pos + i = o ∧ (staleChunk ∣ pos ∧ pos < fs.staleTotal) ∧
      2 ∣ i ∧ i + 8 ≤ fs.staleScanTo pos := by
  unfold staleTried staleTries
  simp only [List.mem_map, List.mem_flatMap, Prod.exists, mem_staleChunks, mem_staleOffsets,
    Prod.mk.injEq]
  constructor
  · rintro ⟨_, _, ⟨pos, hpos, i, hi, rfl, rfl⟩, rfl⟩
    exact ⟨pos, i, rfl, hpos, hi⟩
  · rintro ⟨pos, i, rfl, hpos, hi⟩
    exact ⟨pos, i, ⟨pos, hpos, i, hi, rfl, rfl⟩, rfl⟩

/-- The loop over the first chunk ends before the offsets at which the next chunk's end would cut a
header. -/
lemma notMem_staleTried (hlong : staleChunk + staleOverlap < fs.staleTotal)
    (hlow : staleChunk < o + 8) (hhigh : o < staleChunk) : o ∉ fs.staleTried := by
  intro h
  obtain ⟨pos, i, hsum, ⟨⟨k, rfl⟩, -⟩, -, hi⟩ := mem_staleTried.1 h
  obtain rfl : k = 0 := by
    by_contra hk
    have hle : staleChunk * 1 ≤ staleChunk * k := Nat.mul_le_mul_left _ (Nat.pos_of_ne_zero hk)
    omega
  have hoverlap : staleOverlap = 1024 := rfl
  unfold staleScanTo staleWant at hi
  rw [if_neg (by omega)] at hi
  omega

/-- Every even offset is tried exactly if the first chunk is the last. -/
lemma staleTried_iff : (∀ o, 2 ∣ o → o + 8 ≤ fs.staleTotal → o ∈ fs.staleTried) ↔
    fs.staleTotal ≤ staleChunk + staleOverlap := by
  have hchunk : staleChunk = 2 ^ 20 := rfl
  have hoverlap : staleOverlap = 1024 := rfl
  constructor
  · intro h
    by_contra hlong
    exact notMem_staleTried (not_le.1 hlong) (by omega) (by omega)
      (h (staleChunk - 6) ⟨2 ^ 19 - 3, by omega⟩ (by omega))
  · intro hle o heven ho
    refine mem_staleTried.2 ⟨0, o, Nat.zero_add o, ⟨dvd_zero _, by omega⟩, heven, ?_⟩
    unfold staleScanTo staleWant
    rw [if_pos (by omega)]
    omega

end Tried

/-! ## What is reported -/

section Reported

variable (alphanumeric : Char → Bool) (opts : WalkOpts) (live : List (ℕ × String)) (map : CnidMap)

/-- One try. -/
def staleTry (s : Stale) (t : ℕ × ℕ) : Stale :=
  fs.staleStep alphanumeric opts live map (fs.src.read t.1 (fs.staleWant t.1)) s t.2

/-- The sweep is its tries, one after the other. -/
lemma staleScan_eq (w : Walked) : fs.staleScan alphanumeric opts live map w =
    fs.staleTries.foldl (fs.staleTry alphanumeric opts live map) ⟨w, []⟩ := by
  unfold staleTries staleScan
  rw [List.foldl_flatMap]
  refine congrArg (List.foldl · _ _) ?_
  funext s pos
  rw [List.foldl_map]
  rfl

variable {fs alphanumeric opts live map} {s : Stale} {e : CatEntry} {buf : Bytes} {off : ℕ}

/-- What is found at an offset was not found before. -/
lemma key_notMem_of_tryStaleAt {emitted : List (ℕ × String)}
    (h : fs.tryStaleAt alphanumeric buf off live emitted = some e) : e.key ∉ emitted := by
  unfold tryStaleAt at h
  simp only [bind, Option.bind_eq_some_iff, Option.guard_eq_some'] at h
  obtain ⟨key, -, _, -, _, -, _, -, _, ⟨-, hnew⟩, r, -, h⟩ := h
  cases r with
  | file cnid dataFork resourceFork createDate modDate =>
    simp only [Option.bind_eq_some_iff, Option.guard_eq_some'] at h
    obtain ⟨_, -, _, -, first, -, _, -, he⟩ := h
    rw [← Option.some.inj he]
    exact hnew
  | folder => cases h
  | thread => cases h

variable (fs map opts) in
/-- What the sweep keeps: no parent and name twice, and the sink has an entry of each. -/
structure Reports (w : Walked) (s : Stale) : Prop where
  nodup : s.emitted.Nodup
  sink : s.walked.sink = w.sink ++
    if opts.includeDeleted then s.found.map fun e => fs.toEntry e map .orphaned else []

/-- One try keeps it. -/
lemma Reports.step {w : Walked} (h : fs.Reports opts map w s) :
    fs.Reports opts map w (fs.staleStep alphanumeric opts live map buf s off) := by
  unfold staleStep
  split
  · exact h
  · rename_i e he
    have hnew := key_notMem_of_tryStaleAt he
    refine ⟨?_, ?_⟩
    · show (List.map CatEntry.key (s.found ++ [e])).Nodup
      rw [List.map_append, List.map_singleton, List.nodup_append]
      refine ⟨h.nodup, List.nodup_singleton _, fun k hk k' hk' hkk => ?_⟩
      obtain rfl := List.mem_singleton.1 hk'
      exact hnew (hkk ▸ hk)
    · have hsink := h.sink
      dsimp only
      split
      · rename_i hdel
        rw [if_pos hdel] at hsink
        rw [Walked.emit_sink, hsink, List.map_append, List.map_singleton, List.append_assoc]
      · rename_i hdel
        rw [if_neg hdel] at hsink
        exact hsink

/-- A whole sweep keeps it. -/
lemma Reports.foldl {w : Walked} (tries : List (ℕ × ℕ)) (h : fs.Reports opts map w s) :
    fs.Reports opts map w (tries.foldl (fs.staleTry alphanumeric opts live map) s) := by
  induction tries generalizing s with
  | nil => exact h
  | cons t tries ih => exact ih h.step

lemma reports_start (w : Walked) : fs.Reports opts map w ⟨w, []⟩ := by
  refine ⟨List.nodup_nil, ?_⟩
  split
  · exact (List.append_nil _).symm
  · exact (List.append_nil _).symm

end Reported

/-- **The sweep tries every even offset** of the bytes it goes through exactly if these are no more
than a chunk and what is read beyond it.  Always, it is its tries one after the other, and reports
no parent and name twice. -/
theorem staleTried_exact (fs : Hfs) :
    ((∀ o, 2 ∣ o → o + 8 ≤ fs.staleTotal → o ∈ fs.staleTried) ↔
      fs.staleTotal ≤ staleChunk + staleOverlap) ∧
    ∀ (alphanumeric : Char → Bool) (opts : WalkOpts) (live : List (ℕ × String)) (map : CnidMap)
      (w : Walked),
      let s := fs.staleScan alphanumeric opts live map w
      s = fs.staleTries.foldl (fs.staleTry alphanumeric opts live map) ⟨w, []⟩ ∧
        (s.found.map CatEntry.key).Nodup ∧
          s.walked.sink = w.sink ++
            if opts.includeDeleted then s.found.map fun e => fs.toEntry e map .orphaned
            else [] := by
  refine ⟨staleTried_iff, fun alphanumeric opts live map w => ?_⟩
  have heq := fs.staleScan_eq alphanumeric opts live map w
  have hreports : fs.Reports opts map w (fs.staleScan alphanumeric opts live map w) := by
    rw [heq]
    exact (reports_start w).foldl _
  exact ⟨heq, hreports.nodup, hreports.sink⟩

/-- Of a volume of two chunks, the three offsets before the end of the first are not tried. -/
theorem staleTried_counterexample :
    2 ^ 20 - 6 + 8 ≤ (fourKiB 512).staleTotal ∧ 2 ^ 20 - 6 ∉ (fourKiB 512).staleTried ∧
      2 ^ 20 - 4 ∉ (fourKiB 512).staleTried ∧ 2 ^ 20 - 2 ∉ (fourKiB 512).staleTried := by
  have htotal : (fourKiB 512).staleTotal = 2 ^ 21 := by decide
  have hchunk : staleChunk = 2 ^ 20 := rfl
  have hlong : staleChunk + staleOverlap < (fourKiB 512).staleTotal := by
    rw [htotal]
    decide
  exact ⟨by omega, notMem_staleTried hlong (by omega) (by omega),
    notMem_staleTried hlong (by omega) (by omega), notMem_staleTried hlong (by omega) (by omega)⟩

end Hfs
end Reclaim
