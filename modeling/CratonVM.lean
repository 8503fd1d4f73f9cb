import CratonVM.ClassLoading.ConstraintRuns
import CratonVM.Gc.Zgc.SingleWinner
import CratonVM.Reader.FastPathSafety
import CratonVM.Verifier.InferenceRuns
import CratonVM.Jit.Ir.UseListQueries
import CratonVM.Jit.Scev.TripCounts
import CratonVM.Jit.MemoryModel.Reordering
import CratonVM.ClassLoading.OverrideRule
import CratonVM.Runtime.DispatchDoors
import CratonVM.Jit.Liveness.Exactness
import CratonVM.ClassLoading.Hierarchy.Subtypes
import CratonVM.Runtime.SelectionJvms
import CratonVM.ClassLoading.CompactLayouts
import CratonVM.Jit.Scev.NestedLoops
import CratonVM.Jit.Bce.RangeSoundness
import CratonVM.Jit.LoopAnalysis.Obligations
import CratonVM.Verifier.Pairing
import CratonVM.Reader.Quickened
import CratonVM.Reader.VerifiedCode
import CratonVM.Verifier.TypeMapRows
import CratonVM.Gc.OldGen.AllocCompleteness
import CratonVM.Gc.OldGen.GapSentinels
import CratonVM.Gc.OldGen.GroupWalks
import CratonVM.Reader.DescriptorWords
import CratonVM.Reader.InstructionCodec
import CratonVM.Reader.Jimage
import CratonVM.Reader.NestedTypes
import CratonVM.Reader.PoolUtf8
import CratonVM.Reader.SignatureCache
import CratonVM.Gc.HeapBitmap.Runs
import CratonVM.Gc.MarkBitmap
import CratonVM.Gc.Zgc.RelocationSelection
import CratonVM.Jit.Schedule.LoopNest
import CratonVM.Jit.Schedule.SinkBlock
import CratonVM.Gc.OldGen.LiveSetExact
import CratonVM.Gc.OldGen.SlideWindow
import CratonVM.Types.PointerMap.Refinement
import CratonVM.Jit.RegAlloc.ParallelCopy
import CratonVM.Jit.RegAlloc.SlotColouring
import CratonVM.Jit.LocalHomes.ColoringProofs
import CratonVM.Jit.Liveness.Drivers
import CratonVM.Jit.LocalHomes.ParamsOnlyFrames
import CratonVM.Types.CompactValue
import CratonVM.NativeBuiltins.BigDecimal.ExactDivision
import CratonVM.NativeBuiltins.BigDecimal.Addition
import CratonVM.Gc.OldGen.ForwardIndex
import CratonVM.Reader.DescriptorText
