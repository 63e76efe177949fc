import Reclaim.Foundation.CrashLogic
import Reclaim.Foundation.FileBytes
import Reclaim.Foundation.KeyedTable
import Reclaim.Foundation.Text
import Reclaim.Block.ReadResult
import Reclaim.Block.LbaRange
import Reclaim.Block.Source
import Reclaim.Block.SectorTable
import Reclaim.Imaging.ReadChunk
import Reclaim.Imaging.Map
import Reclaim.Imaging.Dest
import Reclaim.Imaging.Mapped
import Reclaim.Imaging.Imager
import Reclaim.Imaging.Stored
import Reclaim.Imaging.Run
import Reclaim.Imaging.ImageRule
import Reclaim.Imaging.History
import Reclaim.Imaging.MissingOutput
import Reclaim.Imaging.Fidelity
import Reclaim.Imaging.Provenance
import Reclaim.Imaging.Unplug
import Reclaim.Imaging.Verify
import Reclaim.Sigs.Catalog
import Reclaim.Session.Entries
import Reclaim.Session.RecoverSize
import Reclaim.Ffi.ScanControl
import Reclaim.Ffi.DestCheck
import Reclaim.Imaging.Durable
import Reclaim.Session.FrontEnds
import Reclaim.Session.FrontEndsAgree
import Reclaim.Block.Container
import Reclaim.Ffi.Reopen
import Reclaim.Foundation.FileMap
import Reclaim.Fs.Extents
import Reclaim.Fs.Ntfs
import Reclaim.Fs.Apfs
import Reclaim.Foundation.LittleEndian
import Reclaim.Fs.ExtInode
import Reclaim.Fs.ExtMap
import Reclaim.Fs.ExtClassic
import Reclaim.Fs.ExtContent
import Reclaim.Fs.Holes
import Reclaim.Carve.Matcher
import Reclaim.Carve.ScanExact
import Reclaim.Carve.Engine
import Reclaim.Session.CarveRows
import Reclaim.Session.Labels
import Reclaim.Session.Merge
import Reclaim.Session.Pages
import Reclaim.Block.Contract
import Reclaim.Block.RawDevice
import Reclaim.Imaging.Leaf
import Reclaim.Imaging.TwoOutputs
import Reclaim.Part.Gpt
import Reclaim.Part.GptCopies
import Reclaim.Part.Mbr
import Reclaim.Part.Scan
import Reclaim.Block.ReadAhead
import Reclaim.Block.Transparent
import Reclaim.Block.SegmentMap
import Reclaim.Foundation.Selection
import Reclaim.Block.MappedSource
import Reclaim.Block.MappedRead
import Reclaim.Block.MappedRight
import Reclaim.Foundation.Unicode
import Reclaim.Fs.Dates
import Reclaim.Fs.Walk
import Reclaim.Fs.Iso
import Reclaim.Fs.NtfsRecord
import Reclaim.Fs.ExFatDirs
import Reclaim.Fs.NtfsResident
import Reclaim.Block.RawKernel
import Reclaim.Block.Concat
import Reclaim.Block.MappedSplit
import Reclaim.Block.SplitImage
import Reclaim.Block.BlockTable
import Reclaim.Block.Vhd
import Reclaim.Block.Vdi
import Reclaim.Block.Vhdx
import Reclaim.Block.Qcow2
import Reclaim.Block.Dmg
import Reclaim.Block.Ewf
import Reclaim.Foundation.NodeWalk
import Reclaim.Foundation.Versions
import Reclaim.Fs.ApfsObjects
import Reclaim.Fs.ApfsViews
import Reclaim.Fs.ApfsWalk
import Reclaim.Block.BadBlockMap
import Reclaim.Foundation.PathText
import Reclaim.Part.Window
import Reclaim.Session.RecoveryPath
import Reclaim.Part.Logicals
import Reclaim.Fs.FreeSpace
import Reclaim.Fs.FatOpen
import Reclaim.Fs.FatBitmap
import Reclaim.Fs.Coalesce
import Reclaim.Fs.ExFat
import Reclaim.Fs.FatExtents
import Reclaim.Fs.LongName
import Reclaim.Fs.ExFatSets
import Reclaim.Fs.NtfsRuns
import Reclaim.Fs.NtfsPaths
import Reclaim.Fs.NtfsFixup
import Reclaim.Session.Quick
import Reclaim.Session.Skipped
import Reclaim.Block.Vmdk
import Reclaim.Block.JoinedImages
import Reclaim.Block.VmdkDescriptor
import Reclaim.Block.VmdkExtents
import Reclaim.Carve.Png
import Reclaim.Carve.Jpeg
import Reclaim.Carve.BlockSize
import Reclaim.Carve.ReadFlags
import Reclaim.Carve.Claims
import Reclaim.Carve.Text
import Reclaim.Carve.TextPass
import Reclaim.Carve.TextRegions
import Reclaim.Session.Dropped
import Reclaim.Session.Identity
import Reclaim.Foundation.DirTree
import Reclaim.Session.Mounted
import Reclaim.Session.MountedPaths
import Reclaim.Carve.Local
import Reclaim.Carve.Range
import Reclaim.Foundation.Windows
import Reclaim.Carve.FileView
import Reclaim.Carve.TextLength
import Reclaim.Carve.Pdf
import Reclaim.Carve.Xz
import Reclaim.Carve.Wasm
import Reclaim.Carve.Mkv
import Reclaim.Foundation.Links
import Reclaim.Carve.Zip
import Reclaim.Carve.Ogg
import Reclaim.Carve.Tar
import Reclaim.Carve.Isobmff
import Reclaim.Carve.Tiff
import Reclaim.Carve.Gif
import Reclaim.Foundation.Fields
import Reclaim.Fs.UsnStream
import Reclaim.Fs.ExtHoles
import Reclaim.Fs.ExtGeometry
import Reclaim.Fs.ExtJournal
import Reclaim.Fs.ExtTree
import Reclaim.Fs.ExtDir
import Reclaim.Fs.ApfsNodes
import Reclaim.Fs.ApfsOmap
import Reclaim.Fs.ApfsLinks
import Reclaim.Fs.ApfsSpaceman
import Reclaim.Foundation.Checksums
import Reclaim.Foundation.Calendar
import Reclaim.Fs.ApfsChecksum
import Reclaim.Fs.CivilDates
import Reclaim.Fs.Hfs
import Reclaim.Fs.HfsForks
import Reclaim.Fs.HfsCatalog
import Reclaim.Foundation.Glob
import Reclaim.Session.Globs
import Reclaim.Session.Proposals
import Reclaim.Foundation.Csv
import Reclaim.Session.Report
import Reclaim.Foundation.CappedLoop
import Reclaim.Structs.Anchors
import Reclaim.Structs.Scan
import Reclaim.Fs.IsoTree
import Reclaim.Fs.IsoScan
import Reclaim.Fs.IsoExact
import Reclaim.Foundation.MarkedQueue
import Reclaim.Foundation.Transition
import Reclaim.Session.CarveRun
import Reclaim.Session.CarveReturns
import Reclaim.Session.CarveResume
import Reclaim.Foundation.ReadProgram
import Reclaim.Carve.Sized
import Reclaim.Carve.Extents
import Reclaim.Carve.Bounded
import Reclaim.Carve.Frames
import Reclaim.Carve.Confined
import Reclaim.Carve.Registry
import Reclaim.Foundation.Traversal
import Reclaim.Fs.ExtBitmap
import Reclaim.Fs.ExtRecover
import Reclaim.Fs.ExtWalk
import Reclaim.Fs.ExtScans
