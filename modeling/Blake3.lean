import Blake3.Ata.Core
import Blake3.Ata.CoreRun
import Blake3.Ata.Decoder
import Blake3.Ata.Format
import Blake3.Ata.Loader
import Blake3.Ata.RoundTrip
import Blake3.Ata.Streams
import Blake3.Ata.Sync
import Blake3.Ata.SyncReport
import Blake3.Ata.SyncTells
import Blake3.B3sum.Check
import Blake3.B3sum.CheckLine
import Blake3.B3sum.Panics
import Blake3.B3sum.RoundTrip
import Blake3.B3sum.Sum
import Blake3.B3sum.SumCheck
import Blake3.B3sum.SumRun
import Blake3.C.Hasher
import Blake3.C.HasherTree
import Blake3.C.Layout
import Blake3.C.Runs
import Blake3.C.Subtree
import Blake3.Cf140.Guard
import Blake3.Cf140.Sha256
import Blake3.ChunkState
import Blake3.Collision
import Blake3.Compress
import Blake3.Crc32c
import Blake3.Custody.Digest
import Blake3.Custody.Stream
import Blake3.Fault
import Blake3.Fc16.Adapter
import Blake3.Fc16.Core
import Blake3.Fc16.Delta
import Blake3.Fc16.Directory
import Blake3.Fc16.Entry
import Blake3.Fc16.EntryFiles
import Blake3.Fc16.EntryRun
import Blake3.Fc16.Fips180
import Blake3.Fc16.Lanes
import Blake3.Fc16.Lockstep
import Blake3.Fc16.Log
import Blake3.Fc16.Runs
import Blake3.Fc16.Scan
import Blake3.Fc16.Seal
import Blake3.Fc16.Session
import Blake3.Fc16.Sha256
import Blake3.Fc16.Snapshot
import Blake3.Fc16.Transcript
import Blake3.Fc16.Tree
import Blake3.Fc16.Zip
import Blake3.Hwif.Bootstrap
import Blake3.Hwif.Once
import Blake3.Hwif.Progress
import Blake3.Lib.Batched
import Blake3.Lib.Bitmap
import Blake3.Lib.Buffer
import Blake3.Lib.ByteMemory
import Blake3.Lib.CInt
import Blake3.Lib.CarryStack
import Blake3.Lib.Checked
import Blake3.Lib.Codec
import Blake3.Lib.Crc
import Blake3.Lib.CrcDetect
import Blake3.Lib.Cyclic
import Blake3.Lib.FixedPoint
import Blake3.Lib.InPlaceSort
import Blake3.Lib.Keyed
import Blake3.Lib.LeftTree
import Blake3.Lib.Levels
import Blake3.Lib.LittleEndian
import Blake3.Lib.NamedTree
import Blake3.Lib.Numeral
import Blake3.Lib.Process
import Blake3.Lib.QuarterRound
import Blake3.Lib.Ranking
import Blake3.Lib.Regions
import Blake3.Lib.Registers
import Blake3.Lib.ReleaseAcquire
import Blake3.Lib.Sha256
import Blake3.Lib.ShortReads
import Blake3.Lib.ShortWrites
import Blake3.Lib.Slots
import Blake3.Lib.Text
import Blake3.Lib.Trace
import Blake3.Lib.Utf8
import Blake3.Lib.WordArith
import Blake3.Lib.Xorshift
import Blake3.Lowlevel.Arena
import Blake3.Lowlevel.Copy
import Blake3.Memory
import Blake3.Pai.Base
import Blake3.Pai.BasePrime
import Blake3.Pai.Coverage
import Blake3.Pai.Digest
import Blake3.Pai.ExcludeList
import Blake3.Pai.Exclusion
import Blake3.Pai.Manifest
import Blake3.Pai.Order
import Blake3.Pai.Paths
import Blake3.Pai.Places
import Blake3.Pai.Scan
import Blake3.Pai.Sha256
import Blake3.Pai.TrailingSlash
import Blake3.Pai.ValidateCore
import Blake3.Pai42.Bridge
import Blake3.Pai42.Kernel
import Blake3.Parallel
import Blake3.Portable
import Blake3.Reference
import Blake3.ReferenceTree
import Blake3.ReleaseEvidence
import Blake3.Rust.CopyWide
import Blake3.Rust.Hasher
import Blake3.Rust.HasherTree
import Blake3.Rust.LeftSubtree
import Blake3.Rust.Modes
import Blake3.Rust.OutputReader
import Blake3.Rust.Partition
import Blake3.Rust.Reset
import Blake3.Rust.Subtree
import Blake3.Simd.Avx512
import Blake3.Simd.CpuFeatures
import Blake3.Simd.HashMany
import Blake3.Simd.Intrinsics
import Blake3.Simd.Lanes
import Blake3.Simd.Portable
import Blake3.Simd.Rows
import Blake3.Simd.RustHashMany
import Blake3.Simd.RustRows
import Blake3.Simd.Transpose
import Blake3.Stability.Descriptor
import Blake3.Stability.Otsu
import Blake3.Stability.Trace
import Blake3.Stack
import Blake3.SubtreeLen
import Blake3.Tree
import Blake3.Visual.Bounds
import Blake3.Visual.Capsule
import Blake3.Visual.Classify
import Blake3.Visual.Exemplar
import Blake3.Visual.Prototype
import Blake3.Visual.RoundTrip
import Blake3.Visual.Store
import Blake3.Words
import Blake3.Zrf1.Codec
import Blake3.Zrf1.Container
import Blake3.Zrf1.RoundTrip
import Blake3.Zrf1.Tokens
