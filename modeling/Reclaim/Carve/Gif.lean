import Reclaim.Carve.FileView

/-!
# GIF files

A GIF file is a header with a colour table, a list of blocks and a trailer.  A block is an extension
or an image, and its data are a chain of sub-blocks, each with its length before it, up to one of
length zero.  The validator passes the blocks and ends the file behind the first trailer.
-/

namespace Reclaim

open FileBytes

namespace Gif

/-- `MAX`. -/
def maxSize : ℕ := 64 * 1024 * 1024

/-- `MAX_BLOCKS`. -/
def maxBlocks : ℕ := 1000000

/-- The most sub-blocks of a chain, with the one that ends it. -/
def maxSubBlocks : ℕ := 1000000

/-- `GIF87a` and `GIF89a`. -/
def signatures : List Bytes :=
  [[0x47, 0x49, 0x46, 0x38, 0x37, 0x61], [0x47, 0x49, 0x46, 0x38, 0x39, 0x61]]

/-- `truncated`. -/
def truncated (pos : ℕ) : Verdict :=
  if pos < 35 then .rejected else .accepted pos .truncated 45

/-- How many bytes a colour table takes, by the flags before it. -/
def tableSize (packed : UInt8) : ℕ :=
  if packed &&& 0x80 ≠ 0 then 3 * 2 ^ ((packed &&& 0x07).toNat + 1) else 0

/-- `skip_subblocks`: where the chain from `pos` on ends. -/
def skipSubblocks (ctx : Ctx) (cap : ℕ) : (fuel pos : ℕ) → ReadProg (Option ℕ)
  | 0, _ => pure none
  | fuel + 1, pos =>
    if cap ≤ pos then pure none
    else do
      let b ← ctx.read pos 1
      let n := (byteAt b 0).toNat
      if n = 0 then pure (some (pos + 1)) else skipSubblocks ctx cap fuel (pos + 1 + n)

/-- Where the block ends that begins at `pos`, or where the walk stops in it. -/
def skipBlock (ctx : Ctx) (cap pos : ℕ) (intro' : UInt8) : ReadProg (Option ℕ × ℕ) :=
  if intro' = 0x21 then do
    let next ← skipSubblocks ctx cap maxSubBlocks (pos + 2)
    pure (next, pos + 2)
  else do
    let desc ← ctx.read pos 10
    let next ← skipSubblocks ctx cap maxSubBlocks (pos + 10 + tableSize (byteAt desc 9) + 1)
    pure (next, pos)

/-- The blocks from `pos` on, `fuel` at most. -/
def walk (ctx : Ctx) (cap : ℕ) : (fuel pos : ℕ) → ReadProg Verdict
  | 0, pos => pure (truncated pos)
  | fuel + 1, pos => do
    let intro' ← ctx.read pos 1
    if byteAt intro' 0 = 0x3B then pure (.accepted (pos + 1) .full 90)
    else if byteAt intro' 0 ≠ 0x21 ∧ byteAt intro' 0 ≠ 0x2C then pure (truncated pos)
    else do
      let r ← skipBlock ctx cap pos (byteAt intro' 0)
      match r.1 with
      | none => pure (truncated r.2)
      | some next => if cap ≤ next then pure (truncated cap) else walk ctx cap fuel next

/-- `validate`. -/
def validate (ctx : Ctx) : ReadProg Verdict := do
  let head ← ctx.read 0 13
  if head.take 6 ∉ signatures then pure .rejected
  else walk ctx (min ctx.available maxSize) maxBlocks (13 + tableSize (byteAt head 10))

/-! ## The format -/

/-- A sub-block. -/
structure SubBlock where
  data : Bytes
  data_pos : 0 < data.length
  data_lt : data.length < 256

/-- The bytes of a sub-block. -/
def SubBlock.bytes (s : SubBlock) : Bytes := UInt8.ofNat s.data.length :: s.data

/-- The bytes of a chain. -/
def chainBytes (subs : List SubBlock) : Bytes := subs.flatMap SubBlock.bytes ++ [0]

/-- A block, with its chain of sub-blocks. -/
inductive Block where
  | extension (label : UInt8) (subs : List SubBlock)
  /-- Place and size, flags, the local colour table, and how the chain is compressed. -/
  | image (frame : Bytes) (packed : UInt8) (table : Bytes) (minCode : UInt8) (subs : List SubBlock)
    (frame_length : frame.length = 8) (table_length : table.length = tableSize packed)

namespace Block

/-- The chain of a block. -/
def subs : Block → List SubBlock
  | extension _ subs => subs
  | image _ _ _ _ subs _ _ => subs

/-- What a block has before its chain. -/
def header : Block → Bytes
  | extension label _ => [0x21, label]
  | image frame packed table minCode _ _ _ => [[0x2C], frame, [packed], table, [minCode]].flatten

/-- The bytes of a block. -/
def bytes (b : Block) : Bytes := b.header ++ chainBytes b.subs

end Block

/-- The bytes of a list of blocks, with the trailer behind them. -/
def body (blocks : List Block) : Bytes := blocks.flatMap Block.bytes ++ [0x3B]

/-- A file. -/
structure GifFile where
  signature : Bytes
  /-- Width and height. -/
  screen : Bytes
  packed : UInt8
  /-- Background and aspect. -/
  look : Bytes
  /-- The global colour table. -/
  table : Bytes
  blocks : List Block
  signature_mem : signature ∈ signatures
  screen_length : screen.length = 4
  look_length : look.length = 2
  table_length : table.length = tableSize packed

namespace GifFile

/-- What a file has before its blocks. -/
def header (f : GifFile) : Bytes := [f.signature, f.screen, [f.packed], f.look, f.table].flatten

/-- The bytes of a file. -/
def bytes (f : GifFile) : Bytes := f.header ++ body f.blocks

/-- The file is not beyond what the walk goes through. -/
structure Within (f : GifFile) (cap : ℕ) : Prop where
  length_le : f.bytes.length ≤ cap
  blocks_lt : f.blocks.length < maxBlocks
  subs_lt : ∀ b ∈ f.blocks, b.subs.length < maxSubBlocks

end GifFile

/-! ## Chains -/

section Chains

variable {R : Reader} {ctx : Ctx} {g : Bytes} {cap fuel pos p : ℕ} {subs : List SubBlock}

lemma chainBytes_cons (s : SubBlock) (subs : List SubBlock) :
    chainBytes (s :: subs) = UInt8.ofNat s.data.length :: (s.data ++ chainBytes subs) := by
  rw [chainBytes, List.flatMap_cons, List.append_assoc]
  rfl

lemma length_chainBytes_cons (s : SubBlock) (subs : List SubBlock) :
    (chainBytes (s :: subs)).length = 1 + s.data.length + (chainBytes subs).length := by
  rw [chainBytes_cons, List.length_cons, List.length_append]
  omega

/-- **A chain is passed.** -/
lemma run_skipSubblocks (h : ctx.Sees R g)
    (hg : slice g pos (chainBytes subs).length = chainBytes subs)
    (hle : pos + (chainBytes subs).length ≤ cap) (hcount : subs.length < fuel) :
    (skipSubblocks ctx cap fuel pos).run R = some (pos + (chainBytes subs).length) := by
  induction subs generalizing fuel pos with
  | nil =>
    obtain ⟨fuel, rfl⟩ := Nat.exists_eq_add_of_lt hcount
    have hzero : byteAt g pos = 0 := (slice_eq_cons_iff.1 hg).1
    have hone : (chainBytes []).length = 1 := rfl
    have hfuel : ([] : List SubBlock).length + fuel + 1 = fuel + 1 := by
      rw [List.length_nil, Nat.zero_add]
    rw [hfuel, skipSubblocks, if_neg (by omega)]
    simp only [ReadProg.run_bind, ReadProg.run_ite, h.read]
    rw [byteAt_slice, if_pos Nat.one_pos, Nat.add_zero, hzero,
      if_pos UInt8.toNat_zero]
    rfl
  | cons s rest ih =>
    obtain ⟨fuel, rfl⟩ := Nat.exists_eq_add_of_lt hcount
    rw [length_chainBytes_cons] at hle ⊢
    rw [chainBytes_cons] at hg
    obtain ⟨hfirst, htail⟩ := slice_eq_cons_iff.1 hg
    obtain ⟨-, hchain⟩ := slice_eq_append_iff.1 htail
    have hlen : (byteAt g pos).toNat = s.data.length := by
      rw [hfirst]
      exact UInt8.toNat_ofNat_of_lt s.data_lt
    have hpos := s.data_pos
    have hmore : rest.length < fuel + rest.length + 1 := by omega
    have hrest := ih hchain (by omega) hmore
    have hfuel : (s :: rest).length + fuel + 1 = fuel + rest.length + 1 + 1 := by
      rw [List.length_cons]
      omega
    rw [hfuel, skipSubblocks, if_neg (by omega)]
    simp only [ReadProg.run_bind, ReadProg.run_ite, h.read]
    rw [byteAt_slice, if_pos Nat.one_pos, Nat.add_zero, hlen, if_neg (by omega), hrest]
    congr 1
    omega

/-- **What is passed is a chain.** -/
lemma exists_chain (h : ctx.Sees R g) (hrun : (skipSubblocks ctx cap fuel pos).run R = some p) :
    ∃ subs, slice g pos (p - pos) = chainBytes subs ∧ pos < p ∧ p ≤ cap := by
  induction fuel generalizing pos with
  | zero => cases hrun
  | succ fuel ih =>
    rw [skipSubblocks, ReadProg.run_ite] at hrun
    split at hrun
    · cases hrun
    · rename_i hlt
      simp only [ReadProg.run_bind, ReadProg.run_ite, h.read, ReadProg.run_pure] at hrun
      rw [byteAt_slice, if_pos Nat.one_pos, Nat.add_zero] at hrun
      split at hrun
      · rename_i hzero
        obtain rfl := Option.some.inj hrun
        refine ⟨[], ?_, Nat.lt_succ_self pos, by omega⟩
        rw [Nat.add_sub_cancel_left]
        exact (slice_eq_cons_iff (a := [])).2 ⟨UInt8.toNat_inj.1 hzero, rfl⟩
      · rename_i hne
        obtain ⟨subs, hslice, hlt', hle⟩ := ih hrun
        have hsmall := (byteAt g pos).toNat_lt
        let s : SubBlock := ⟨slice g (pos + 1) (byteAt g pos).toNat,
          by rw [length_slice]; omega, by rw [length_slice]; omega⟩
        have hdata : s.data.length = (byteAt g pos).toNat := length_slice ..
        have hsubs : (chainBytes subs).length = p - (pos + 1 + (byteAt g pos).toNat) := by
          rw [← hslice, length_slice]
        have hchain : (chainBytes (s :: subs)).length = p - pos := by
          rw [length_chainBytes_cons, hdata, hsubs]
          omega
        refine ⟨s :: subs, ?_, by omega, hle⟩
        rw [← hchain, chainBytes_cons]
        refine slice_eq_cons_iff.2 ⟨?_, slice_eq_append_iff.2 ⟨?_, ?_⟩⟩
        · rw [hdata, UInt8.ofNat_toNat]
        · rw [hdata]
        · rw [hdata, hsubs, hslice]

end Chains

/-! ## Blocks -/

section Blocks

variable {R : Reader} {ctx : Ctx} {g : Bytes} {cap fuel pos p n : ℕ} {b : Block}
  {blocks : List Block}

lemma Block.bytes_image (frame : Bytes) (packed : UInt8) (table : Bytes) (minCode : UInt8)
    (subs : List SubBlock) (hframe : frame.length = 8) (htable : table.length = tableSize packed) :
    (Block.image frame packed table minCode subs hframe htable).bytes =
      0x2C :: (frame ++ (packed :: (table ++ (minCode :: chainBytes subs)))) := by
  simp [bytes, header, Block.subs]

lemma Block.length_bytes_image (frame : Bytes) (packed : UInt8) (table : Bytes) (minCode : UInt8)
    (subs : List SubBlock) (hframe : frame.length = 8) (htable : table.length = tableSize packed) :
    (Block.image frame packed table minCode subs hframe htable).bytes.length =
      10 + tableSize packed + 1 + (chainBytes subs).length := by
  rw [bytes_image]
  simp only [List.length_cons, List.length_append, hframe, htable]
  omega

lemma Block.length_pos : 0 < b.bytes.length := by
  cases b with
  | extension => exact Nat.succ_pos _
  | image => exact Nat.succ_pos _

/-- **A block is passed.** -/
lemma run_skipBlock (h : ctx.Sees R g) (hg : slice g pos b.bytes.length = b.bytes)
    (hle : pos + b.bytes.length ≤ cap) (hcount : b.subs.length < maxSubBlocks) :
    (byteAt g pos = 0x21 ∨ byteAt g pos = 0x2C) ∧
      ((skipBlock ctx cap pos (byteAt g pos)).run R).1 = some (pos + b.bytes.length) := by
  cases b with
  | extension label subs =>
    have hlen : (Block.extension label subs).bytes.length = 2 + (chainBytes subs).length := by
      change (chainBytes subs).length + 1 + 1 = _
      omega
    obtain ⟨hfirst, htail⟩ := (slice_eq_cons_iff (a := label :: chainBytes subs)).1 hg
    obtain ⟨-, hchain⟩ := slice_eq_cons_iff.1 htail
    refine ⟨.inl hfirst, ?_⟩
    rw [hlen] at hle ⊢
    rw [hfirst, skipBlock, if_pos rfl, ReadProg.run_bind, ReadProg.run_pure,
      run_skipSubblocks h hchain (by omega) hcount, Nat.add_assoc pos 2]
  | image frame packed table minCode subs hframe htable =>
    rw [Block.length_bytes_image] at hle ⊢
    rw [Block.bytes_image] at hg
    obtain ⟨hfirst, hafter⟩ := slice_eq_cons_iff.1 hg
    obtain ⟨-, hafter⟩ := slice_eq_append_iff.1 hafter
    obtain ⟨hpacked, hafter⟩ := slice_eq_cons_iff.1 hafter
    obtain ⟨-, hafter⟩ := slice_eq_append_iff.1 hafter
    obtain ⟨-, hchain⟩ := slice_eq_cons_iff.1 hafter
    rw [hframe, Nat.add_assoc pos 1 8] at hpacked
    rw [hframe, htable, Nat.add_assoc pos 1 8, Nat.add_assoc pos 9 1,
      Nat.add_right_comm _ (tableSize packed), Nat.add_right_comm] at hchain
    refine ⟨.inr hfirst, ?_⟩
    rw [hfirst, skipBlock, if_neg (by decide)]
    simp only [ReadProg.run_bind, h.read, ReadProg.run_pure]
    rw [byteAt_slice, if_pos (by omega), hpacked]
    rw [run_skipSubblocks h hchain (by omega) hcount]
    congr 1
    omega

/-- **What is passed is a block.** -/
lemma exists_block (h : ctx.Sees R g) (hfirst : byteAt g pos = 0x21 ∨ byteAt g pos = 0x2C)
    (hrun : ((skipBlock ctx cap pos (byteAt g pos)).run R).1 = some p) :
    ∃ b : Block, slice g pos b.bytes.length = b.bytes ∧ p = pos + b.bytes.length := by
  obtain hfirst | hfirst := hfirst
  · rw [hfirst, skipBlock, if_pos rfl, ReadProg.run_bind, ReadProg.run_pure] at hrun
    obtain ⟨subs, hchain, hlt, -⟩ := exists_chain h hrun
    have hlen : (chainBytes subs).length = p - (pos + 2) := by rw [← hchain, length_slice]
    refine ⟨.extension (byteAt g (pos + 1)) subs, ?_, ?_⟩
    · refine (slice_eq_cons_iff (a := byteAt g (pos + 1) :: chainBytes subs)).2 ⟨hfirst, ?_⟩
      exact slice_eq_cons_iff.2 ⟨rfl, by rw [hlen]; exact hchain⟩
    · change p = pos + ((chainBytes subs).length + 1 + 1)
      omega
  · rw [hfirst, skipBlock, if_neg (by decide)] at hrun
    simp only [ReadProg.run_bind, h.read, ReadProg.run_pure] at hrun
    rw [byteAt_slice, if_pos (by omega)] at hrun
    obtain ⟨subs, hchain, hlt, -⟩ := exists_chain h hrun
    set packed := byteAt g (pos + 9) with hpacked
    have hlen : (chainBytes subs).length = p - (pos + 10 + tableSize packed + 1) := by
      rw [← hchain, length_slice]
    refine ⟨.image (slice g (pos + 1) 8) packed (slice g (pos + 10) (tableSize packed))
      (byteAt g (pos + 10 + tableSize packed)) subs (length_slice ..) (length_slice ..), ?_, ?_⟩
    · rw [Block.bytes_image]
      refine slice_eq_cons_iff.2 ⟨hfirst, slice_eq_append_iff.2 ⟨by rw [length_slice], ?_⟩⟩
      rw [length_slice]
      refine slice_eq_cons_iff.2 ⟨hpacked.symm, slice_eq_append_iff.2 ⟨by rw [length_slice], ?_⟩⟩
      rw [length_slice]
      refine slice_eq_cons_iff.2 ⟨rfl, ?_⟩
      rw [hlen]
      exact hchain
    · rw [Block.length_bytes_image]
      omega

end Blocks

/-! ## The walk -/

section Walk

variable {R : Reader} {ctx : Ctx} {g : Bytes} {cap fuel pos n : ℕ} {blocks : List Block}

lemma body_cons (b : Block) (blocks : List Block) :
    body (b :: blocks) = b.bytes ++ body blocks := by
  rw [body, List.flatMap_cons, List.append_assoc]
  rfl

lemma length_body_cons (b : Block) (blocks : List Block) :
    (body (b :: blocks)).length = b.bytes.length + (body blocks).length := by
  rw [body_cons, List.length_append]

lemma length_body_pos : 0 < (body blocks).length := by
  rw [body, List.length_append]
  exact Nat.succ_pos _

/-- **The walk passes the blocks and ends the file behind the trailer.** -/
lemma run_walk (h : ctx.Sees R g) (hg : slice g pos (body blocks).length = body blocks)
    (hle : pos + (body blocks).length ≤ cap) (hcount : blocks.length < fuel)
    (hsubs : ∀ b ∈ blocks, b.subs.length < maxSubBlocks) :
    (walk ctx cap fuel pos).run R = .accepted (pos + (body blocks).length) .full 90 := by
  induction blocks generalizing fuel pos with
  | nil =>
    obtain ⟨fuel, rfl⟩ := Nat.exists_eq_add_of_lt hcount
    have hfuel : ([] : List Block).length + fuel + 1 = fuel + 1 := by
      rw [List.length_nil, Nat.zero_add]
    have htrailer : byteAt g pos = 0x3B := ((slice_eq_cons_iff (a := [])).1 hg).1
    rw [hfuel, walk]
    simp only [ReadProg.run_bind, ReadProg.run_ite, h.read]
    rw [byteAt_slice, if_pos Nat.one_pos, Nat.add_zero, if_pos htrailer]
    rfl
  | cons b rest ih =>
    obtain ⟨fuel, rfl⟩ := Nat.exists_eq_add_of_lt hcount
    have hfuel : (b :: rest).length + fuel + 1 = fuel + rest.length + 1 + 1 := by
      rw [List.length_cons]
      omega
    rw [length_body_cons] at hle ⊢
    rw [body_cons] at hg
    obtain ⟨hblock, hrest⟩ := slice_eq_append_iff.1 hg
    have hbehind : 0 < (body rest).length := length_body_pos
    have hinside : pos + b.bytes.length ≤ cap := by omega
    obtain ⟨hfirst, hskip⟩ := run_skipBlock h hblock hinside (hsubs b List.mem_cons_self)
    have hmore : rest.length < fuel + rest.length + 1 := by omega
    have htail := ih hrest (by omega) hmore fun b hb => hsubs b (List.mem_cons_of_mem _ hb)
    rw [hfuel, walk]
    simp only [ReadProg.run_bind, ReadProg.run_ite, h.read]
    rw [byteAt_slice, if_pos Nat.one_pos, Nat.add_zero]
    rw [if_neg (by rcases hfirst with h | h <;> rw [h] <;> decide), if_neg (by tauto), hskip]
    simp only [ReadProg.run_ite]
    rw [if_neg (by omega), htail, Nat.add_assoc]

/-- **A file that the walk finds complete is blocks and a trailer.** -/
lemma exists_blocks (h : ctx.Sees R g) (hfull : ((walk ctx cap fuel pos).run R).IsFull n) :
    ∃ blocks, slice g pos (body blocks).length = body blocks ∧ n = pos + (body blocks).length := by
  have hcut : ∀ {m}, ¬ (truncated m).IsFull n := fun {m} hm => by
    rw [truncated] at hm
    split at hm
    · exact Verdict.not_isFull_rejected hm
    · cases (Verdict.isFull_accepted.1 hm).1
  induction fuel generalizing pos with
  | zero => exact (hcut hfull).elim
  | succ fuel ih =>
    rw [walk] at hfull
    simp only [ReadProg.run_bind, ReadProg.run_ite, h.read] at hfull
    rw [byteAt_slice, if_pos Nat.one_pos, Nat.add_zero] at hfull
    split at hfull
    · rename_i htrailer
      obtain ⟨-, rfl⟩ := Verdict.isFull_accepted.1 hfull
      exact ⟨[], (slice_eq_cons_iff (a := [])).2 ⟨htrailer, rfl⟩, rfl⟩
    · split at hfull
      · exact (hcut hfull).elim
      · rename_i hfirst
        split at hfull
        · exact (hcut hfull).elim
        · rename_i next hskip
          rw [ReadProg.run_ite] at hfull
          split at hfull
          · exact (hcut hfull).elim
          · obtain ⟨b, hblock, rfl⟩ := exists_block h (by tauto) hskip
            obtain ⟨blocks, hrest, rfl⟩ := ih hfull
            refine ⟨b :: blocks, ?_, by rw [length_body_cons, Nat.add_assoc]⟩
            rw [body_cons]
            exact slice_eq_append_iff.2 ⟨hblock, hrest⟩

end Walk

/-! ## Files -/

section Files

variable {R : Reader} {ctx : Ctx} {g : Bytes} {f : GifFile}

namespace GifFile

lemma signature_length (f : GifFile) : f.signature.length = 6 := by
  rcases List.mem_pair.1 f.signature_mem with h | h
  all_goals rw [h]; rfl

lemma length_header (f : GifFile) : f.header.length = 13 + tableSize f.packed := by
  simp only [header, List.flatten_cons, List.flatten_nil, List.length_append, List.length_singleton,
    List.length_nil, f.signature_length, f.screen_length, f.look_length, f.table_length]
  omega

/-- Where the parts of a file stand. -/
lemma placed_iff : slice g 0 f.bytes.length = f.bytes ↔
    slice g 0 6 = f.signature ∧ slice g 6 4 = f.screen ∧ byteAt g 10 = f.packed ∧
      slice g 11 2 = f.look ∧ slice g 13 (tableSize f.packed) = f.table ∧
      slice g (13 + tableSize f.packed) (body f.blocks).length = body f.blocks := by
  have hbytes : f.bytes = f.signature ++ (f.screen ++ (f.packed :: (f.look ++
      (f.table ++ body f.blocks)))) := by
    simp [bytes, header]
  rw [hbytes, slice_eq_append_iff, slice_eq_append_iff, slice_eq_cons_iff, slice_eq_append_iff,
    slice_eq_append_iff, f.signature_length, f.screen_length, f.look_length, f.table_length]

end GifFile

/-- A complete file is not empty where it ends, so it ends in the source. -/
lemma length_le_of_placed (hf : slice g 0 f.bytes.length = f.bytes) :
    f.bytes.length ≤ g.length := by
  by_contra hlt
  have hlen : f.bytes.length = f.header.length + (f.blocks.flatMap Block.bytes).length + 1 := by
    rw [GifFile.bytes, body, List.length_append, List.length_append, Nat.add_assoc]
    rfl
  have hlast : byteAt f.bytes (f.bytes.length - 1) = 0x3B := by
    rw [hlen, Nat.add_sub_cancel, GifFile.bytes, body, ← List.append_assoc, ← List.length_append,
      byteAt_append, if_neg (Nat.lt_irrefl _), Nat.sub_self]
    rfl
  rw [← hf, length_slice, byteAt_slice, if_pos (by omega), byteAt_of_length_le (by omega)] at hlast
  exact absurd hlast (by decide)

/-- **The validator finds a file exactly where one is.**  A file within the caps is found complete,
whatever follows it, and what is found complete is a file. -/
theorem gif_exact (h : ctx.Sees R g) :
    (∀ (f : GifFile) (T : Bytes), g = f.bytes ++ T → f.Within (min ctx.available maxSize) →
      ((validate ctx).run R).IsFull f.bytes.length) ∧
    ∀ n, ((validate ctx).run R).IsFull n → ∃ f : GifFile, f.bytes = g.take n ∧ n ≤ g.length := by
  have hsix : (slice g 0 13).take 6 = slice g 0 6 := rfl
  have hpacked : byteAt (slice g 0 13) 10 = byteAt g 10 := rfl
  constructor
  · rintro f T rfl hf
    obtain ⟨hsig, -, hflags, -, -, hbody⟩ := GifFile.placed_iff.1 (slice_append_length f.bytes T)
    have hlen : f.bytes.length = 13 + tableSize f.packed + (body f.blocks).length := by
      rw [GifFile.bytes, List.length_append, f.length_header]
    rw [validate]
    simp only [ReadProg.run_bind, ReadProg.run_ite, h.read]
    rw [hsix, hsig, if_neg (not_not_intro f.signature_mem), hpacked, hflags,
      run_walk h hbody (hlen ▸ hf.length_le) hf.blocks_lt hf.subs_lt, ← hlen]
    exact Verdict.isFull_accepted.2 ⟨rfl, rfl⟩
  · intro n hn
    rw [validate] at hn
    simp only [ReadProg.run_bind, ReadProg.run_ite, h.read] at hn
    rw [hsix, hpacked] at hn
    split at hn
    · exact (Verdict.not_isFull_rejected hn).elim
    · rename_i hmem
      obtain ⟨blocks, hbody, rfl⟩ := exists_blocks h hn
      let f : GifFile :=
        { signature := slice g 0 6
          screen := slice g 6 4
          packed := byteAt g 10
          look := slice g 11 2
          table := slice g 13 (tableSize (byteAt g 10))
          blocks := blocks
          signature_mem := not_not.1 hmem
          screen_length := length_slice ..
          look_length := length_slice ..
          table_length := length_slice .. }
      have hf : slice g 0 f.bytes.length = f.bytes :=
        GifFile.placed_iff.2 ⟨rfl, rfl, rfl, rfl, rfl, hbody⟩
      have hlen : f.bytes.length = 13 + tableSize (byteAt g 10) + (body blocks).length := by
        rw [GifFile.bytes, List.length_append, f.length_header]
      have hle := length_le_of_placed hf
      have htake : slice g 0 (g.take f.bytes.length).length = g.take f.bytes.length :=
        (congrArg (slice · 0 _) (List.take_append_drop ..).symm).trans (slice_append_length ..)
      rw [List.length_take, min_eq_left hle, hf] at htake
      exact ⟨f, by rw [← hlen, ← htake], hlen ▸ hle⟩

/-- `image.gif` of the catalog. -/
def sig : SigDef where
  id := "image.gif"
  family := "image"
  extensions := ["gif"]
  headers := signatures.map (.exact 0)
  footer := some ⟨[0x3B], maxSize⟩
  minSize := 35
  strategy := .structural
  validator := some "gif"
  blockAligned := true
  footerAnchored := false

/-- A file with a colour table, an extension and an image. -/
def smallFile : GifFile where
  signature := [0x47, 0x49, 0x46, 0x38, 0x39, 0x61]
  screen := [1, 0, 1, 0]
  packed := 0x80
  look := [0, 0]
  table := [0, 0, 0, 0xFF, 0xFF, 0xFF]
  blocks :=
    [.extension 0xF9 [⟨[0, 0, 0, 0], by decide, by decide⟩],
      .image [0, 0, 0, 0, 1, 0, 1, 0] 0 [] 2 [⟨[0x44, 0x01], by decide, by decide⟩] rfl rfl]
  signature_mem := .tail _ (.head _)
  screen_length := rfl
  look_length := rfl
  table_length := rfl

/-- Before other bytes the file is found, and what is found is one. -/
theorem gif_exact_small :
    ((validate ⟨45, 0, 1000, sig⟩).run (memReader (smallFile.bytes ++ [0x3B, 0]))).IsFull 43 ∧
      ∃ f : GifFile, f.bytes = (smallFile.bytes ++ [0x3B, 0]).take 43 := by
  have hsees : Ctx.Sees ⟨45, 0, 1000, sig⟩ (memReader (smallFile.bytes ++ [0x3B, 0]))
      (smallFile.bytes ++ [0x3B, 0]) :=
    Ctx.sees (memReader_reads _) rfl (by decide)
  have hwithin : smallFile.Within 45 :=
    ⟨by decide, by decide, by decide⟩
  obtain ⟨hcomplete, hsound⟩ := gif_exact hsees
  have hfull := hcomplete smallFile _ rfl hwithin
  exact ⟨hfull, (hsound 43 hfull).imp fun _ h => h.1⟩

end Files

end Gif
end Reclaim
