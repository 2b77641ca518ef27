import HashLink.DynObj.VirtualValue
import HashLink.Gc.AllocationSizes
import HashLink.Gc.BlackAllocation
import HashLink.Gc.FreeSpace
import HashLink.Gc.OwnerRuns
import HashLink.Gc.Roots
import HashLink.Code.DebugInfos
import HashLink.Objects.Arrays
import HashLink.Objects.ClassTables
import HashLink.Patch.AppendedTypes
import HashLink.HotReload.TypeRelations
import HashLink.Patch.Guards
import HashLink.Patch.LoadedGlobals
import HashLink.Patch.ReadSafety
import HashLink.Patch.RuntimeIdentities
import HashLink.HotReload.Globals
import HashLink.Registry.Retirement
import HashLink.Diag.Authentication
import HashLink.Prof.Chunks
import HashLink.Prof.NativeDelivery
import HashLink.Jit.DivConst
import HashLink.Jit.EmitTraps
import HashLink.Jit.LoadImmediate
import HashLink.Jit.Marshalling
import HashLink.Jit.Operands
import HashLink.Jit.SortedArrays
import HashLink.Jit.ParallelMoves
import HashLink.Stdlib.CallBuffers
import HashLink.Stdlib.DynEquivalence
import HashLink.Stdlib.FloatText
import HashLink.Stdlib.MemFind
import HashLink.Stdlib.MergeSort
import HashLink.Objects.FieldNames
import HashLink.Stdlib.UrlCoding
import HashLink.Objects.ValueMarks
import HashLink.Objects.LayoutCorrect
import HashLink.Stdlib.Threads
import HashLink.Patch.StringIndex
import HashLink.Patch.History
import HashLink.Code.IdentitySet
import HashLink.Gc.Census
import HashLink.Gc.InteriorPointers
import HashLink.Gc.PageMap
import HashLink.Gc.StopWorldSafety
import HashLink.Export.StackTrack
import HashLink.Export.ClosedSlices
import HashLink.Export.FrameTotals
import HashLink.Export.TraceBytes
import HashLink.Jit.FoldImmediates
