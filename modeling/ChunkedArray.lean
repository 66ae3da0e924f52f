import ChunkedArray.Array.Error
import ChunkedArray.Array.Handle
import ChunkedArray.Array.Read
import ChunkedArray.Array.Write
import ChunkedArray.Assoc
import ChunkedArray.Bytes
import ChunkedArray.Checksum
import ChunkedArray.ChunkKey
import ChunkedArray.Codec.ByteCodec
import ChunkedArray.Codec.Chain
import ChunkedArray.Codec.Custom
import ChunkedArray.Codec.ElementBytes
import ChunkedArray.Codec.Error
import ChunkedArray.Codec.Registry
import ChunkedArray.Codec.Spec
import ChunkedArray.Codec.Transpose
import ChunkedArray.DataType.Basic
import ChunkedArray.DataType.Element
import ChunkedArray.DataType.FillValue
import ChunkedArray.Failure
import ChunkedArray.Float.Format
import ChunkedArray.Float.Shortest
import ChunkedArray.Float.Text
import ChunkedArray.Grid
import ChunkedArray.Grid.Slices
import ChunkedArray.Grid.Words
import ChunkedArray.Gzip.BitStream
import ChunkedArray.Gzip.Container
import ChunkedArray.Gzip.Huffman
import ChunkedArray.Gzip.Inflate
import ChunkedArray.Json.Basic
import ChunkedArray.Json.Reader
import ChunkedArray.Json.Record
import ChunkedArray.Json.Token
import ChunkedArray.Json.Writer
import ChunkedArray.Key
import ChunkedArray.LockTable
import ChunkedArray.Metadata
import ChunkedArray.Metadata.Builder
import ChunkedArray.NdArray.Basic
import ChunkedArray.NdArray.Index
import ChunkedArray.NdArray.View
import ChunkedArray.Rank
import ChunkedArray.Region
import ChunkedArray.Selection
import ChunkedArray.Store.Basic
import ChunkedArray.Store.Directory
import ChunkedArray.Store.Faulty
import ChunkedArray.Store.FileTree
import ChunkedArray.Store.Host
import ChunkedArray.Store.Memory
import ChunkedArray.Store.Pathname
import ChunkedArray.Store.Registry
import ChunkedArray.Text
import ChunkedArray.Word
import ChunkedArray.Proofs.Array.AnyOrder
import ChunkedArray.Proofs.Array.BuiltArrays
import ChunkedArray.Proofs.Array.Chunks
import ChunkedArray.Proofs.Array.Concurrent
import ChunkedArray.Proofs.Array.EmptyChunks
import ChunkedArray.Proofs.Array.Failures
import ChunkedArray.Proofs.Array.FreshArrays
import ChunkedArray.Proofs.Array.Handles
import ChunkedArray.Proofs.Array.ListedChunks
import ChunkedArray.Proofs.Array.MemoryCalls
import ChunkedArray.Proofs.Array.OwnKeys
import ChunkedArray.Proofs.Array.Plain
import ChunkedArray.Proofs.Array.Reads
import ChunkedArray.Proofs.Array.Refinement
import ChunkedArray.Proofs.Array.Regions
import ChunkedArray.Proofs.Array.Reopen
import ChunkedArray.Proofs.Array.Repeats
import ChunkedArray.Proofs.Array.Represents
import ChunkedArray.Proofs.Array.Safety
import ChunkedArray.Proofs.Array.SelectionAccess
import ChunkedArray.Proofs.Array.StepRuns
import ChunkedArray.Proofs.Array.Steps
import ChunkedArray.Proofs.Array.StoredChunks
import ChunkedArray.Proofs.Array.Tasks
import ChunkedArray.Proofs.Array.WholeChunks
import ChunkedArray.Proofs.Array.Workers
import ChunkedArray.Proofs.Assoc
import ChunkedArray.Proofs.ChunkKeys
import ChunkedArray.Proofs.Codec.Assembly
import ChunkedArray.Proofs.Codec.Bursts
import ChunkedArray.Proofs.Codec.Endings
import ChunkedArray.Proofs.Codec.Permutations
import ChunkedArray.Proofs.Codec.RoundTrip
import ChunkedArray.Proofs.Codec.Specs
import ChunkedArray.Proofs.Codec.Strict
import ChunkedArray.Proofs.Codec.Unchecked
import ChunkedArray.Proofs.Codec.Validity
import ChunkedArray.Proofs.DataType.FillValues
import ChunkedArray.Proofs.DataType.Names
import ChunkedArray.Proofs.Endings
import ChunkedArray.Proofs.Float.Conversions
import ChunkedArray.Proofs.Grid.AxisParts
import ChunkedArray.Proofs.Grid.Bounds
import ChunkedArray.Proofs.Grid.BoundsErrors
import ChunkedArray.Proofs.Grid.Partition
import ChunkedArray.Proofs.Grid.Tiling
import ChunkedArray.Proofs.Grid.Voxel
import ChunkedArray.Proofs.Grid.Words
import ChunkedArray.Proofs.Gzip.Stored
import ChunkedArray.Proofs.Json.Text
import ChunkedArray.Proofs.Json.Values
import ChunkedArray.Proofs.LockRuns
import ChunkedArray.Proofs.LockTable
import ChunkedArray.Proofs.Metadata.BuilderCalls
import ChunkedArray.Proofs.Metadata.Documents
import ChunkedArray.Proofs.NdArray.Axes
import ChunkedArray.Proofs.NdArray.AxisOrder
import ChunkedArray.Proofs.NdArray.Cells
import ChunkedArray.Proofs.NdArray.Parts
import ChunkedArray.Proofs.NdArray.Slices
import ChunkedArray.Proofs.Outcome
import ChunkedArray.Proofs.Selections
import ChunkedArray.Proofs.Store.Agreement
import ChunkedArray.Proofs.Store.Answers
import ChunkedArray.Proofs.Store.ApartKeys
import ChunkedArray.Proofs.Store.AtomicSet
import ChunkedArray.Proofs.Store.DirectoryCalls
import ChunkedArray.Proofs.Store.DirectoryChanges
import ChunkedArray.Proofs.Store.DirectoryReads
import ChunkedArray.Proofs.Store.Entries
import ChunkedArray.Proofs.Store.FilePrograms
import ChunkedArray.Proofs.Store.Growth
import ChunkedArray.Proofs.Store.Histories
import ChunkedArray.Proofs.Store.KeyOrder
import ChunkedArray.Proofs.Store.KeyText
import ChunkedArray.Proofs.Store.Lawful
import ChunkedArray.Proofs.Store.Laws
import ChunkedArray.Proofs.Store.Mirror
import ChunkedArray.Proofs.Store.OpenStores
import ChunkedArray.Proofs.Store.PathText
import ChunkedArray.Proofs.Store.Pathnames
import ChunkedArray.Proofs.Store.RootCalls
import ChunkedArray.Proofs.Store.SafeKeys
import ChunkedArray.Proofs.Store.Successes
import ChunkedArray.Proofs.Store.TidyTrees
import ChunkedArray.Proofs.Store.TreeChanges
import ChunkedArray.Proofs.Store.TreeListing
import ChunkedArray.Proofs.Store.TreeView
import ChunkedArray.Proofs.Store.Walks
import ChunkedArray.Proofs.Store.WriteProgram
import ChunkedArray.Proofs.LockRuns
import ChunkedArray.Proofs.Words
