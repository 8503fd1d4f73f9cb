import CratonVM.Lib.Searching
import CratonVM.Lib.Dataflow
import CratonVM.Verifier.VType

/-!
What verification retains of a method (`classloading/src/type_maps.rs`): for every instruction start
the locals and operand-stack slots that hold a reference, packed into one buffer, and whether the
method is safe for the interpreter's fast path. The head of a recorded `stack` is its bottom.
Multi-byte entries are written and read in one byte order, here the least significant byte first.
Capacities and the reuse of emptied vectors are left out.
-/
namespace CratonVM.Verifier
open PackedRows BinarySearch Reader List

def maxMethodRowBytes : Nat := 256*1024

/-- Bytes for one row of so many slots. -/
def strideFor (bits : Nat) : Nat := (bits+7)/8

/-- Why a method was denied the fast path. -/
inductive FastPathVeto where
  | incompleteWalk
  | subroutine
  | localIndexOutOfRange
  | localsWiderThanMaxLocals
  | stackDepthExceedsMaxStack
  | malformedCategory2
  | strayWidePrefix
  | unsortedPcs
  | mapBudgetExceeded
  deriving DecidableEq, Repr

/-- One row of a bitmap, and how many slots it describes. -/
structure OopBits where
  bytes : List Byte
  bits : Nat
  deriving DecidableEq, Repr

namespace OopBits
/-- Never more slots than there are bits. -/
def new (bytes : List Byte) (bits : Nat) : OopBits :=
  { bytes, bits := min bits (min (bytes.length*8) 65535) }

def get (o : OopBits) (index : Nat) : Bool :=
  if index ≥ o.bits then false
  else ((o.bytes.getD (index/8) 0) >>> (index%8)) &&& 1#8 ≠ 0#8

end OopBits

/-- Where the four tables stand in the buffer. -/
structure RowLayout where
  rows : Nat
  pcWidth : Nat
  localStride : Nat
  stackStride : Nat
  depthWidth : Nat

namespace RowLayout
def localsAt (l : RowLayout) : Nat := l.rows*l.pcWidth
def stackAt (l : RowLayout) : Nat := l.localsAt+l.rows*l.localStride
def depthsAt (l : RowLayout) : Nat := l.stackAt+l.rows*l.stackStride

end RowLayout

/-- The pc table, the locals rows, the stack rows and the depth table in one buffer. The three flags
are the bits of the source's `flags`. -/
structure MethodTypeMaps where
  data : List Byte
  rows : Nat
  maxLocals : Nat
  maxStack : Nat
  pcWide : Bool
  depthWide : Bool
  localsComplete : Bool
  veto : Option FastPathVeto
  deriving DecidableEq, Repr

namespace MethodTypeMaps
def layout (m : MethodTypeMaps) : RowLayout :=
  { rows := m.rows
    pcWidth := if m.pcWide then 4 else 2
    localStride := if m.rows = 0 then 0 else strideFor m.maxLocals
    stackStride := if m.rows = 0 then 0 else strideFor m.maxStack
    depthWidth := if m.depthWide then 2 else 1 }

def pcUnchecked (m : MethodTypeMaps) (index : Nat) : Nat :=
  if m.pcWide then Limbs.value (slice m.data (index*4) 4) else Limbs.value (slice m.data (index*2) 2)

def searchPc (m : MethodTypeMaps) (pc : Nat) : Option Nat :=
  if !m.pcWide ∧ pc > 65535 then none
  else binarySearch ((List.range m.rows).map m.pcUnchecked) pc

def bitRow (m : MethodTypeMaps) (start stride bits index : Nat) : OopBits :=
  if stride = 0 ∨ index ≥ m.rows then { bytes := [], bits := 0 }
  else .new (slice m.data (start+index*stride) stride) bits

def localRow (m : MethodTypeMaps) (index : Nat) : OopBits :=
  m.bitRow m.layout.localsAt m.layout.localStride m.maxLocals index

def stackRow (m : MethodTypeMaps) (index : Nat) : OopBits :=
  m.bitRow m.layout.stackAt m.layout.stackStride m.maxStack index

def depth (m : MethodTypeMaps) (index : Nat) : Option Nat :=
  if index ≥ m.rows then none
  else
    let start := m.layout.depthsAt+index*m.layout.depthWidth
    if m.layout.depthWidth = 2 then some (Limbs.value (slice m.data start 2))
    else some (Limbs.value (slice m.data start 1))

/-- The reference bits of the locals and of the operand stack at a pc. -/
def oopMapAt (m : MethodTypeMaps) (pc : Nat) : Option (OopBits × OopBits) := do
  let idx ← m.searchPc pc
  some (m.localRow idx,m.stackRow idx)

def stackDepthAt (m : MethodTypeMaps) (pc : Nat) : Option Nat := do
  let idx ← m.searchPc pc
  m.depth idx

def safeForFastPath (m : MethodTypeMaps) : Bool := m.veto.isNone

/-- Drop the rows and keep the verdicts. -/
def stripRows (m : MethodTypeMaps) : MethodTypeMaps :=
  { m with data := [], rows := 0, pcWide := false, depthWide := false }

end MethodTypeMaps

structure MethodTypeMapsBuilder where
  maxLocals : Nat
  maxStack : Nat
  localStride : Nat
  stackStride : Nat
  pcs : List Nat
  localBytes : List Byte
  stackBytes : List Byte
  depths : List Nat
  maxDepthSeen : Nat
  localsComplete : Bool
  veto : Option FastPathVeto
  sorted : Bool
  lastRowEpoch : Option Nat
  lastRowLen : Nat
  verdictOnly : Bool
  lastPc : Option Nat
  rowBytes : Nat
  deriving DecidableEq, Repr

/-- The first veto wins. -/
def vetoed (veto : Option FastPathVeto) (reason : FastPathVeto) : Option FastPathVeto :=
  veto.or (some reason)

def vetoedIf (condition : Bool) (veto : Option FastPathVeto) (reason : FastPathVeto) :
    Option FastPathVeto :=
  if condition then vetoed veto reason else veto

/-- What the walk over an operand stack leaves behind. -/
structure StackScan where
  acc : BitVec 64
  row : List Byte
  rt : Nat
  veto : Option FastPathVeto

def StackScan.enter (maxStack : Nat) (narrow : Bool) (ty : VType) (s : StackScan) : StackScan :=
  if s.rt < maxStack then
    if ty.isReference then
      if narrow then { s with acc := s.acc ||| (1#64 <<< s.rt) }
      else { s with row := setBit s.row s.rt }
    else s
  else { s with veto := vetoed s.veto .stackDepthExceedsMaxStack }

/-- The walk over the stack: a category-2 value with its upper half is one slot. -/
def scanStack (maxStack : Nat) (narrow : Bool) : List VType → StackScan → StackScan
  | [], s => s
  | ty :: rest, s =>
    let s := s.enter maxStack narrow ty
    if ty.isCategory2 then
      match rest with
      | .top :: rest => scanStack maxStack narrow rest { s with rt := s.rt+1 }
      | rest =>
        scanStack maxStack narrow rest
          { s with veto := vetoed s.veto .malformedCategory2, rt := s.rt+1 }
    else scanStack maxStack narrow rest { s with rt := s.rt+1 }

/-- The same walk without the row. -/
def scanDepth (maxStack : Nat) : List VType → Nat × Option FastPathVeto → Nat × Option FastPathVeto
  | [], s => s
  | ty :: rest, (rt,veto) =>
    let veto := vetoedIf (rt ≥ maxStack) veto .stackDepthExceedsMaxStack
    if ty.isCategory2 then
      match rest with
      | .top :: rest => scanDepth maxStack rest (rt+1,veto)
      | rest => scanDepth maxStack rest (rt+1,vetoed veto .malformedCategory2)
    else scanDepth maxStack rest (rt+1,veto)

/-- One byte of a locals row. -/
def chunkByte (chunk : List VType) : Byte :=
  chunk.zipIdx.foldl (fun bits (ty,j) => bits ||| ((if ty.isReference then 1#8 else 0#8) <<< j)) 0#8

/-- A locals row, eight slots to a byte. -/
def packLocals (stride : Nat) (locals : List VType) : List Byte :=
  (List.range stride).map fun k => chunkByte ((locals.drop (8*k)).take 8)

namespace MethodTypeMapsBuilder
def new (maxLocals maxStack : Nat) : MethodTypeMapsBuilder :=
  { maxLocals
    maxStack
    localStride := strideFor maxLocals
    stackStride := strideFor maxStack
    pcs := []
    localBytes := []
    stackBytes := []
    depths := []
    maxDepthSeen := 0
    localsComplete := true
    veto := none
    sorted := true
    lastRowEpoch := none
    lastRowLen := 0
    verdictOnly := false
    lastPc := none
    rowBytes := 0 }

def setVerdictOnly (b : MethodTypeMapsBuilder) : MethodTypeMapsBuilder :=
  { b with verdictOnly := true }

def markUnsafeForFastPath (b : MethodTypeMapsBuilder) (reason : FastPathVeto) :
    MethodTypeMapsBuilder :=
  { b with veto := vetoed b.veto reason }

def overBudget (b : MethodTypeMapsBuilder) : Bool :=
  b.localBytes.length+b.stackBytes.length+b.localStride+b.stackStride > maxMethodRowBytes

def recordVerdict (b : MethodTypeMapsBuilder) (pc localsLen : Nat) (stack : List VType) :
    MethodTypeMapsBuilder :=
  if b.lastPc = some pc then b
  else if b.lastPc.any (pc < ·) then { b with sorted := false, veto := vetoed b.veto .unsortedPcs }
  else if b.rowBytes+b.localStride+b.stackStride > maxMethodRowBytes then
    b.markUnsafeForFastPath .mapBudgetExceeded
  else
    let veto := vetoedIf (localsLen > b.maxLocals) b.veto .localsWiderThanMaxLocals
    let (rt,veto) := scanDepth b.maxStack stack (0,veto)
    let depth := min rt 65535
    { b with
      localsComplete := if localsLen < b.maxLocals then false else b.localsComplete
      veto := vetoedIf (depth > b.maxStack) veto .stackDepthExceedsMaxStack
      maxDepthSeen := if depth > b.maxDepthSeen then depth else b.maxDepthSeen
      rowBytes := b.rowBytes+(b.localStride+b.stackStride)
      lastPc := some pc }

/-- The row of the locals: the row just written again when the epoch says they did not change. -/
def localsRow (b : MethodTypeMapsBuilder) (locals : List VType) (localsEpoch : Option Nat) :
    List Byte :=
  let base := b.localBytes.length
  if base ≥ b.localStride ∧ b.pcs ≠ [] ∧ localsEpoch.isSome ∧ localsEpoch = b.lastRowEpoch ∧
      locals.length = b.lastRowLen then
    b.localBytes.drop (base-b.localStride)
  else packLocals b.localStride (locals.take b.maxLocals)

def recordInner (b : MethodTypeMapsBuilder) (pc : Nat) (locals : List VType)
    (localsEpoch : Option Nat) (stack : List VType) : MethodTypeMapsBuilder :=
  if b.verdictOnly then b.recordVerdict pc locals.length stack
  else if b.pcs.getLast? = some pc then b
  else if b.pcs.getLast?.any (pc < ·) then
    { b with sorted := false, veto := vetoed b.veto .unsortedPcs }
  else if b.overBudget then b.markUnsafeForFastPath .mapBudgetExceeded
  else
    let veto := vetoedIf (locals.length > b.maxLocals) b.veto .localsWiderThanMaxLocals
    let narrow := decide (b.maxStack ≤ 64)
    let scan := scanStack b.maxStack narrow stack ⟨0#64,List.replicate b.stackStride 0#8,0,veto⟩
    let row :=
      if narrow then (List.range b.stackStride).map fun k => (scan.acc >>> (8*k)).setWidth 8
      else scan.row
    let depth := min scan.rt 65535
    { b with
      localsComplete := if locals.length < b.maxLocals then false else b.localsComplete
      localBytes := b.localBytes ++ b.localsRow locals localsEpoch
      lastRowEpoch := localsEpoch
      lastRowLen := locals.length
      stackBytes := b.stackBytes ++ row
      veto := vetoedIf (depth > b.maxStack) scan.veto .stackDepthExceedsMaxStack
      maxDepthSeen := if depth > b.maxDepthSeen then depth else b.maxDepthSeen
      pcs := b.pcs ++ [pc]
      depths := b.depths ++ [depth] }

def checkLocalSlot (b : MethodTypeMapsBuilder) (index : Nat) (category2 : Bool) :
    MethodTypeMapsBuilder :=
  if category2 then
    if index+1 > 65535 then b.markUnsafeForFastPath .localIndexOutOfRange
    else if index+1 ≥ b.maxLocals then b.markUnsafeForFastPath .localIndexOutOfRange
    else b
  else if index ≥ b.maxLocals then b.markUnsafeForFastPath .localIndexOutOfRange
  else b

def observeInstruction (b : MethodTypeMapsBuilder) : Instruction → MethodTypeMapsBuilder
  | .iload i | .fload i | .aload i | .istore i | .fstore i | .astore i => b.checkLocalSlot i false
  | .lload i | .dload i | .lstore i | .dstore i => b.checkLocalSlot i true
  | .iinc index _ => b.checkLocalSlot index false
  | .ret i => (b.checkLocalSlot i false).markUnsafeForFastPath .subroutine
  | .jsr _ | .jsrW _ => b.markUnsafeForFastPath .subroutine
  | .wide => b.markUnsafeForFastPath .strayWidePrefix
  | _ => b

/-- Freeze the rows into one buffer. -/
def finish (b : MethodTypeMapsBuilder) (walkComplete : Bool) : MethodTypeMaps :=
  let veto := vetoedIf (!walkComplete) b.veto .incompleteWalk
  if !b.sorted then
    { data := []
      rows := 0
      maxLocals := b.maxLocals
      maxStack := b.maxStack
      pcWide := false
      depthWide := false
      localsComplete := false
      veto := some .unsortedPcs }
  else if b.verdictOnly then
    { data := []
      rows := 0
      maxLocals := b.maxLocals
      maxStack := b.maxStack
      pcWide := false
      depthWide := false
      localsComplete := b.localsComplete
      veto }
  else
    let rows := b.pcs.length
    let pcWide := decide (b.pcs.getLast?.getD 0 > 65535)
    let depthWide := decide (b.maxDepthSeen > 255)
    let localStride := if rows = 0 then 0 else b.localStride
    let stackStride := if rows = 0 then 0 else b.stackStride
    { data :=
        b.pcs.flatMap (bytesOf (if pcWide then 4 else 2)) ++
        (if localStride ≠ 0 then b.localBytes else []) ++
        (if stackStride ≠ 0 then b.stackBytes else []) ++
        b.depths.flatMap (bytesOf (if depthWide then 2 else 1))
      rows := rows%2^32
      maxLocals := b.maxLocals
      maxStack := b.maxStack
      pcWide
      depthWide
      localsComplete := b.localsComplete
      veto }

/-- A call of the verifier's walk. -/
inductive Call where
  | record (pc : Nat) (locals : List VType) (localsEpoch : Option Nat) (stack : List VType)
  | observeInstruction (insn : Instruction)
  | markUnsafeForFastPath (reason : FastPathVeto)
  deriving DecidableEq, Repr

def call (b : MethodTypeMapsBuilder) : Call → MethodTypeMapsBuilder
  | .record pc locals localsEpoch stack => b.recordInner pc locals localsEpoch stack
  | .observeInstruction insn => b.observeInstruction insn
  | .markUnsafeForFastPath reason => b.markUnsafeForFastPath reason

def run (b : MethodTypeMapsBuilder) (calls : List Call) : MethodTypeMapsBuilder := calls.foldl call b

end MethodTypeMapsBuilder
namespace StackScan
variable (maxStack : Nat) (narrow : Bool) (ty : VType) (s : StackScan)

@[simp] theorem enter_rt : (s.enter maxStack narrow ty).rt = s.rt := by
  unfold enter
  split_ifs <;> rfl

@[simp] theorem enter_veto : (s.enter maxStack narrow ty).veto =
    vetoedIf (s.rt ≥ maxStack) s.veto .stackDepthExceedsMaxStack := by
  by_cases h : s.rt < maxStack
  · have hge : ¬s.rt ≥ maxStack := by omega
    unfold enter
    split_ifs <;> simp [vetoedIf,hge]
  have hge : s.rt ≥ maxStack := by omega
  simp [enter,vetoedIf,h,hge]

@[simp] theorem length_enter_row : (s.enter maxStack narrow ty).row.length = s.row.length := by
  unfold enter
  split_ifs <;> simp

end StackScan

theorem scanStack_verdict (maxStack : Nat) (narrow : Bool) (stack : List VType) (s : StackScan) :
    ((scanStack maxStack narrow stack s).rt,(scanStack maxStack narrow stack s).veto) =
      scanDepth maxStack stack (s.rt,s.veto) := by
  fun_induction scanStack maxStack narrow stack s with
  | case1 s => rfl
  | case2 ty s s' h rest ih =>
    rw [ih,scanDepth,if_pos h]
    simp [s']
  | case3 ty s s' h rest hrest ih =>
    rw [ih,scanDepth,if_pos h]
    · simp [s']
    · exact hrest
  | case4 ty rest s s' h ih =>
    rw [ih,scanDepth.eq_def maxStack (ty :: rest)]
    simp [s',h]

theorem length_scanStack_row (maxStack : Nat) (narrow : Bool) (stack : List VType) (s : StackScan) :
    (scanStack maxStack narrow stack s).row.length = s.row.length := by
  fun_induction scanStack maxStack narrow stack s with
  | case1 s => rfl
  | case2 ty s s' h rest ih => simpa [s'] using ih
  | case3 ty s s' h rest hrest ih => simpa [s'] using ih
  | case4 ty rest s s' h ih => simpa [s'] using ih

namespace MethodTypeMapsBuilder
theorem length_localsRow (b : MethodTypeMapsBuilder) (locals : List VType) (epoch : Option Nat) :
    (b.localsRow locals epoch).length = b.localStride := by
  unfold localsRow
  dsimp only
  split
  · rw [length_drop]
    omega
  · simp [packLocals]

/-- A verdict-only builder beside the ordinary one that was given the same calls. -/
structure Mirrors (v b : MethodTypeMapsBuilder) : Prop where
  verdict : v.verdictOnly = true
  ordinary : b.verdictOnly = false
  maxLocals : v.maxLocals = b.maxLocals
  maxStack : v.maxStack = b.maxStack
  localStride : v.localStride = b.localStride
  stackStride : v.stackStride = b.stackStride
  localsComplete : v.localsComplete = b.localsComplete
  veto : v.veto = b.veto
  sorted : v.sorted = b.sorted
  lastPc : v.lastPc = b.pcs.getLast?
  rowBytes : v.rowBytes = b.localBytes.length+b.stackBytes.length

namespace Mirrors
variable {v b : MethodTypeMapsBuilder}

theorem markUnsafe (h : Mirrors v b) (reason : FastPathVeto) :
    Mirrors (v.markUnsafeForFastPath reason) (b.markUnsafeForFastPath reason) :=
  { h with veto := congrArg (vetoed · reason) h.veto }

theorem checkLocalSlot (h : Mirrors v b) (index : Nat) (category2 : Bool) :
    Mirrors (v.checkLocalSlot index category2) (b.checkLocalSlot index category2) := by
  unfold MethodTypeMapsBuilder.checkLocalSlot
  rw [h.maxLocals]
  split_ifs
  all_goals first | exact h | exact h.markUnsafe _

theorem observeInstruction (h : Mirrors v b) (insn : Instruction) :
    Mirrors (v.observeInstruction insn) (b.observeInstruction insn) := by
  cases insn
  all_goals first
    | exact h
    | exact h.checkLocalSlot _ _
    | exact h.markUnsafe _
    | exact (h.checkLocalSlot _ _).markUnsafe _

theorem record (h : Mirrors v b) (pc : Nat) (locals : List VType) (epoch : Option Nat)
    (stack : List VType) :
    Mirrors (v.recordInner pc locals epoch stack) (b.recordInner pc locals epoch stack) := by
  have hbudget : (v.rowBytes+v.localStride+v.stackStride > maxMethodRowBytes) ↔
      b.overBudget = true := by
    simp [overBudget,h.rowBytes,h.localStride,h.stackStride,decide_eq_true_eq]
  rw [recordInner,if_pos h.verdict,recordInner,if_neg (by simp [h.ordinary]),recordVerdict,h.lastPc]
  split
  · exact h
  split
  · exact { h with sorted := rfl, veto := congrArg (vetoed · _) h.veto, lastPc := rfl }
  split
  · rw [if_pos (hbudget.mp ‹_›)]
    exact h.markUnsafe _
  rw [if_neg (mt hbudget.mpr ‹_›)]
  have hscan := scanStack_verdict b.maxStack (decide (b.maxStack ≤ 64)) stack
    ⟨0#64,replicate b.stackStride 0#8,0,
      vetoedIf (locals.length > b.maxLocals) b.veto .localsWiderThanMaxLocals⟩
  have hrow := length_scanStack_row b.maxStack (decide (b.maxStack ≤ 64)) stack
    ⟨0#64,replicate b.stackStride 0#8,0,
      vetoedIf (locals.length > b.maxLocals) b.veto .localsWiderThanMaxLocals⟩
  dsimp only at hscan hrow ⊢
  rw [h.maxLocals,h.maxStack,h.veto,← hscan]
  refine { h with
    maxLocals := rfl
    maxStack := rfl
    localsComplete := ?_
    veto := rfl
    lastPc := ?_
    rowBytes := ?_ }
  · rw [h.localsComplete]
  · simp
  dsimp only
  rw [length_append,length_append,length_localsRow,h.rowBytes,h.localStride,h.stackStride]
  split
  · simp only [length_map,length_range]
    omega
  rw [hrow,length_replicate]
  omega

theorem run (h : Mirrors v b) (calls : List Call) : Mirrors (v.run calls) (b.run calls) := by
  induction calls generalizing v b with
  | nil => exact h
  | cons c calls ih => ?_
  refine ih ?_
  cases c with
  | record pc locals epoch stack => exact h.record pc locals epoch stack
  | observeInstruction insn => exact h.observeInstruction insn
  | markUnsafeForFastPath reason => exact h.markUnsafe reason

theorem finish (h : Mirrors v b) (walkComplete : Bool) :
    v.finish walkComplete = (b.finish walkComplete).stripRows := by
  unfold MethodTypeMapsBuilder.finish
  rw [h.sorted,h.verdict,h.ordinary,h.maxLocals,h.maxStack,h.localsComplete,h.veto]
  cases b.sorted <;> rfl

end Mirrors

theorem mirrors_new (maxLocals maxStack : Nat) :
    Mirrors (new maxLocals maxStack).setVerdictOnly (new maxLocals maxStack) :=
  ⟨rfl,rfl,rfl,rfl,rfl,rfl,rfl,rfl,rfl,rfl,rfl⟩

/-- A verdict-only builder ends with the ordinary builder's maps without their rows. -/
theorem finish_verdictOnly (maxLocals maxStack : Nat) (calls : List Call) (walkComplete : Bool) :
    ((new maxLocals maxStack).setVerdictOnly.run calls).finish walkComplete =
      (((new maxLocals maxStack).run calls).finish walkComplete).stripRows :=
  ((mirrors_new maxLocals maxStack).run calls).finish walkComplete

end MethodTypeMapsBuilder
end CratonVM.Verifier
