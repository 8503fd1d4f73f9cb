import CratonVM.Verifier.Assignability
import CratonVM.Verifier.Insn
import CratonVM.Lib.Dataflow

/-!
Assignability of frames slot by slot, and the merge of two frames as an upper bound.
-/
namespace CratonVM.Verifier
open List Bool

def slotAt (locals : List VType) (i : Nat) : VType := locals[i]?.getD .top

theorem slotAt_tail (l : List VType) (i : Nat) : slotAt l.tail i = slotAt l (i+1) := by
  cases l with
  | nil => rfl
  | cons t rest => rfl

theorem slotAt_zero (l : List VType) : slotAt l 0 = l.head?.getD .top := by
  cases l with
  | nil => rfl
  | cons t rest => rfl

namespace VerificationFrame
variable {h : ClassHierarchy}

theorem localsAssignable_iff {source target : List VType} :
    localsAssignable h source target = true ↔
      ∀ i, (slotAt source i).isAssignableTo h (slotAt target i) = true := by
  induction target generalizing source with
  | nil => exact ⟨fun _ i => VType.isAssignableTo_top h _,fun _ => rfl⟩
  | cons t target ih => ?_
  rw [localsAssignable,and_eq_true,ih,← slotAt_zero]
  constructor
  · intro ⟨hhead,htail⟩ i
    cases i with
    | zero => exact hhead
    | succ i =>
      have hi := htail i
      rwa [slotAt_tail] at hi
  intro hall
  refine ⟨hall 0,fun i => ?_⟩
  rw [slotAt_tail]
  exact hall (i+1)

theorem stackAssignable_iff {source target : List VType} :
    stackAssignable h source target = true ↔
      List.Forall₂ (fun s t => s.isAssignableTo h t = true) source target := by
  induction source generalizing target with
  | nil => cases target <;> simp [stackAssignable]
  | cons s source ih =>
    cases target with
    | nil => simp [stackAssignable]
    | cons t target => simp [stackAssignable,ih]

theorem isAssignableTo_iff {source target : VerificationFrame} :
    source.isAssignableTo h target = true ↔
      List.Forall₂ (fun s t => s.isAssignableTo h t = true) source.stack target.stack ∧
      ∀ i, (slotAt source.locals i).isAssignableTo h (slotAt target.locals i) = true := by
  rw [isAssignableTo,and_eq_true,stackAssignable_iff,localsAssignable_iff]

theorem isAssignableTo_refl (frame : VerificationFrame) : frame.isAssignableTo h frame = true := by
  rw [isAssignableTo_iff]
  refine ⟨?_,fun i => VType.isAssignableTo_refl h _⟩
  induction frame.stack with
  | nil => exact .nil
  | cons t rest ih => exact .cons (VType.isAssignableTo_refl h t) ih

theorem slotAt_mergeLocals (a b : List VType) (i : Nat) :
    slotAt (mergeLocals h a b) i = (slotAt a i).merge h (slotAt b i) := by
  fun_induction mergeLocals h a b generalizing i with
  | case1 => rfl
  | case2 a as ih =>
    cases i with
    | zero => rfl
    | succ i => exact ih i
  | case3 b bs ih =>
    cases i with
    | zero => rfl
    | succ i => exact ih i
  | case4 a as b bs ih =>
    cases i with
    | zero => rfl
    | succ i => exact ih i

/-- Somewhere `null` meets an object whose constructor has not run. -/
def MixesNull (a b : VerificationFrame) : Prop :=
  (∃ p ∈ a.stack.zip b.stack, p.1.mixesNull p.2 = true) ∨
    ∃ i, (slotAt a.locals i).mixesNull (slotAt b.locals i) = true

section
variable (hl : h.Lawful) (hr : VType.MergesWiden h)
include hl hr

theorem stack_merge_widens {a b : List VType} (hlen : a.length = b.length)
    (hm : ∀ p ∈ a.zip b, p.1.mixesNull p.2 = false) :
    List.Forall₂ (VType.Widens h) a (zipWith (VType.merge h) a b) ∧
      List.Forall₂ (VType.Widens h) b (zipWith (VType.merge h) a b) := by
  induction a generalizing b with
  | nil =>
    cases b with
    | nil => exact ⟨.nil,.nil⟩
    | cons => cases hlen
  | cons x a ih => ?_
  cases b with
  | nil => cases hlen
  | cons y b =>
    have hxy := VType.merge_widens hl hr (hm (x,y) (by simp))
    have hrest := ih (Nat.succ.inj hlen) fun p hp => hm p (mem_cons_of_mem _ hp)
    exact ⟨.cons hxy.1 hrest.1,.cons hxy.2 hrest.2⟩

omit hr in
theorem stack_absorb {s t m : List VType}
    (hs : List.Forall₂ (fun s t => s.isAssignableTo h t = true) s t)
    (hw : List.Forall₂ (VType.Widens h) t m) :
    List.Forall₂ (fun s t => s.isAssignableTo h t = true) s m := by
  induction hs generalizing m with
  | nil =>
    cases hw
    exact .nil
  | cons ha _ ih =>
    cases hw with
    | cons hw hws => exact .cons (hw.absorb hl.shaped ha) (ih hws)

theorem merge_absorbs {a b m : VerificationFrame} (hm : merge h a b = .ok m)
    (hmix : ¬ MixesNull a b) {f : VerificationFrame} :
    (f.isAssignableTo h a = true → f.isAssignableTo h m = true) ∧
      (f.isAssignableTo h b = true → f.isAssignableTo h m = true) := by
  unfold merge at hm
  split at hm
  · cases hm
  rename_i hlen
  cases hm
  have hslots := fun i => VType.merge_widens hl hr
    (eq_false_iff.mpr fun hi => hmix (.inr ⟨i,hi⟩))
  have hstack := stack_merge_widens hl hr (not_not.mp hlen)
    fun p hp => eq_false_iff.mpr fun hi => hmix (.inl ⟨p,hp,hi⟩)
  simp only [isAssignableTo_iff,slotAt_mergeLocals]
  constructor
  · intro ⟨hst,hlo⟩
    exact ⟨stack_absorb hl hst hstack.1,fun i => (hslots i).1.absorb hl.shaped (hlo i)⟩
  intro ⟨hst,hlo⟩
  exact ⟨stack_absorb hl hst hstack.2,fun i => (hslots i).2.absorb hl.shaped (hlo i)⟩

end
end VerificationFrame

open Reader (ConstantPool)

structure ExceptionTableEntry where
  startPc : Nat
  endPc : Nat
  handlerPc : Nat
  catchType : Nat
  deriving DecidableEq, Repr

def ExceptionTableEntry.covers (entry : ExceptionTableEntry) (pc : Nat) : Bool :=
  entry.startPc ≤ pc && pc < entry.endPc

/-- The switches of `loader_flags` that a walk reads. -/
structure LoaderFlags where
  verifyControlRules : Bool := true
  verifyHandlerFrames : Bool := true
  verifyThisUninitFlags : Bool := true
  deriving DecidableEq, Repr

structure MethodCode where
  className : List Char
  name : List Char
  descriptor : List Char
  isStatic : Bool
  maxLocals : Nat
  maxStack : Nat
  code : List UInt8
  exceptionTable : List ExceptionTableEntry
  cp : ConstantPool
  hierarchy : ClassHierarchy
  scratch : VerifyScratch
  flags : LoaderFlags

namespace MethodCode
def initialFrame (m : MethodCode) : VerificationFrame :=
  .initialFrame m.className m.name m.descriptor m.isStatic m.maxLocals m.maxStack

/-- What the rules of an instruction read, with the hierarchy the walk asks. -/
def context (m : MethodCode) (hierarchy : ClassHierarchy) (newSites : Nat → Option Nat)
    (isFallbackMerge : List Char → Bool) : InsnContext where
  cp := m.cp
  className := m.className
  methodName := m.name
  methodDescriptor := m.descriptor
  hierarchy := hierarchy
  scratch := m.scratch
  verifyControlRules := m.flags.verifyControlRules
  newSites := newSites
  isFallbackMerge := isFallbackMerge

def catchTypeOf (m : MethodCode) (entry : ExceptionTableEntry) : Except Refusal VType :=
  if entry.catchType = 0 then .ok (.objectRef throwableName)
  else
    match m.cp.getClassName entry.catchType with
    | some name => .ok (.objectRef name)
    | none => .error .badConstant

/-- The frame a handler is entered with: the locals, and the catch type on the stack. -/
def handlerFrame (m : MethodCode) (entry : ExceptionTableEntry) (current : VerificationFrame) :
    Except Refusal VerificationFrame := do
  let catchType ← m.catchTypeOf entry
  let (_,frame) ← FrameM.push catchType current.clearStack
  pure frame

end MethodCode

def mergeReason (h : ClassHierarchy) (existing incoming : VerificationFrame) : Bool :=
  existing.stack.length ≠ incoming.stack.length ||
    (existing.stack.zip incoming.stack).any fun (old,new) =>
      !(old = .top || new = .top || new.isAssignableTo h old) && old.merge h new = .top

open Reader (Instruction)
open Dataflow (update)

/-- The variables of the loop. -/
structure Inference where
  frameAt : Nat → Option VerificationFrame
  worklist : List Nat
  enqueued : List Nat
  sweepFrom : Nat
  newSites : Nat → Option Nat

namespace Inference
/-- The next offset to visit: in code order, sweep after sweep, or the last one pushed. -/
def next (oldTexts : Bool) (s : Inference) : Option Nat :=
  if oldTexts then ((s.enqueued.filter (s.sweepFrom ≤ ·)).min?).or s.enqueued.min?
  else s.worklist.head?

def take (oldTexts : Bool) (s : Inference) (pc : Nat) : Inference :=
  { s with
    worklist := if oldTexts then s.worklist.filter (· ≠ pc) else s.worklist.tail
    enqueued := s.enqueued.filter (· ≠ pc)
    sweepFrom := if oldTexts then pc+1 else s.sweepFrom }

def enqueue (s : Inference) (pc : Nat) : Inference :=
  if pc ∈ s.enqueued then s
  else { s with enqueued := pc :: s.enqueued, worklist := pc :: s.worklist }

end Inference

def mergeInferenceFrame (h : ClassHierarchy) (frameAt : Nat → Option VerificationFrame)
    (target : Nat) (incoming : VerificationFrame) :
    Except Refusal ((Nat → Option VerificationFrame) × Bool) :=
  match frameAt target with
  | none => .ok (update frameAt target incoming,true)
  | some existing =>
    if incoming.isAssignableTo h existing then .ok (frameAt,false)
    else do
      let merged ← existing.merge h incoming
      pure (update frameAt target merged,
        !merged.isAssignableTo h existing || !existing.isAssignableTo h merged)

def propagate (h : ClassHierarchy) (oldMerges : Bool) (s : Inference)
    (edge : Nat × VerificationFrame) : Except Refusal Inference :=
  if oldMerges && (s.frameAt edge.1).any fun existing => mergeReason h existing edge.2 then
    .error .mergeReason
  else do
    let (frameAt,changed) ← mergeInferenceFrame h s.frameAt edge.1 edge.2
    if changed then pure ({ s with frameAt := frameAt }.enqueue edge.1)
    else pure { s with frameAt := frameAt }

namespace MethodCode
variable (m : MethodCode)

/-- The successors of an instruction in the order the walk merges them. -/
def inferenceEdges (pc next : Nat) (result : InsnVerifyResult) (current : VerificationFrame) :
    List (Except Refusal (Nat × VerificationFrame)) :=
  (if result.fallsThrough ∧ next < m.code.length then [.ok (next,current)] else [])
  ++ result.branchTargets.map (fun target =>
      if target < m.code.length then .ok (target,current) else .error (.branchRange target))
  ++ (m.exceptionTable.filter (·.covers pc)).map fun entry => do
      let frame ← m.handlerFrame entry current
      pure (entry.handlerPc,frame)

def inferenceVisit (oldTexts : Bool) (fallback : List Char → Bool) (s : Inference) (pc : Nat) :
    Except Refusal Inference :=
  if pc ≥ m.code.length then .ok s
  else
    match s.frameAt pc with
    | none => .ok s
    | some frame => do
      let (insn,next) ← (Instruction.decode m.code pc).mapError Refusal.decode
      let (result,current) ←
        verifyInstruction (m.context m.hierarchy.watch s.newSites fallback) insn pc frame
      if result.fallsThrough && next ≥ m.code.length && m.flags.verifyControlRules then
        .error .fallsOffEnd
      else
        (m.inferenceEdges pc next result current).foldlM (fun s edge => do
          propagate m.hierarchy.watch (oldTexts && m.flags.verifyControlRules) s (← edge))
          { s with newSites := noteNewSite insn pc s.newSites }

end MethodCode
end CratonVM.Verifier
