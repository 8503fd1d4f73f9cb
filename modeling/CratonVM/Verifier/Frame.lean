import CratonVM.Verifier.VType

/-!
The type state of one program point (`classloading/src/verify_frame.rs`): the types of the locals
and of the operand stack. The head of the list `stack` is the top of the stack.
-/
namespace CratonVM.Verifier
/-- The rule an instruction or a walk was refused by; the texts are left out. -/
inductive Refusal where
  | stackOverflow
  | stackUnderflow
  | badStackType
  | badLocalIndex
  | badLocalType
  | splitCategory2
  | badConstant
  | badCode
  | badReturn
  | badReceiver
  | badInit
  | badArray
  | internalMethod
  | stackSizes
  | decode (e : Reader.ClassReaderError)
  | chop
  | missingFrame (pc : Nat)
  | frameMismatch (pc : Nat)
  | flagsMismatch (pc : Nat)
  | fallsOffEnd
  | branchRange (target : Nat)
  | mergeReason
  | iterationLimit
  deriving DecidableEq, Repr

structure VerificationFrame where
  locals : List VType
  stack : List VType
  maxStack : Nat
  maxLocals : Nat
  deriving DecidableEq, Repr

namespace VerificationFrame
/-- A type with the second slot of a `long` or `double` above it. -/
def slotsOf (t : VType) : List VType := if t.isCategory2 then [t,.top] else [t]

def parameterLocals (className methodName descriptor : List Char) (isStatic : Bool) : List VType :=
  (if isStatic then []
    else if methodName = "<init>".toList then [.uninitializedThis]
    else [.objectRef className])
  ++ (paramTypesFromDescriptor descriptor).flatMap slotsOf

def padded (locals : List VType) (maxLocals : Nat) : List VType :=
  locals ++ List.replicate (maxLocals-locals.length) .top

def initialFrame (className methodName descriptor : List Char) (isStatic : Bool)
    (maxLocals maxStack : Nat) : VerificationFrame where
  locals := padded (parameterLocals className methodName descriptor isStatic) maxLocals
  stack := []
  maxStack := maxStack
  maxLocals := maxLocals

def compactInitialFrame (className methodName descriptor : List Char) (isStatic : Bool)
    (maxStack : Nat) : VerificationFrame where
  locals := parameterLocals className methodName descriptor isStatic
  stack := []
  maxStack := maxStack
  maxLocals := 2^16-1

def localsAssignable (h : ClassHierarchy) (source : List VType) : (target : List VType) → Bool
  | [] => true
  | t :: target =>
    (source.head?.getD .top).isAssignableTo h t && localsAssignable h source.tail target

def stackAssignable (h : ClassHierarchy) : (source target : List VType) → Bool
  | [],[] => true
  | s :: source,t :: target => s.isAssignableTo h t && stackAssignable h source target
  | _,_ => false

def isAssignableTo (h : ClassHierarchy) (source target : VerificationFrame) : Bool :=
  stackAssignable h source.stack target.stack && localsAssignable h source.locals target.locals

/-- Slot by slot up to the longer of the two; a missing slot is `Top`. -/
def mergeLocals (h : ClassHierarchy) : List VType → List VType → List VType
  | [],[] => []
  | a :: as,[] => a.merge h .top :: mergeLocals h as []
  | [],b :: bs => VType.top.merge h b :: mergeLocals h [] bs
  | a :: as,b :: bs => a.merge h b :: mergeLocals h as bs

def merge (h : ClassHierarchy) (a b : VerificationFrame) : Except Refusal VerificationFrame :=
  if a.stack.length ≠ b.stack.length then .error .stackSizes
  else
    .ok { locals := mergeLocals h a.locals b.locals
          stack := List.zipWith (VType.merge h) a.stack b.stack
          maxStack := a.maxStack
          maxLocals := min a.maxLocals b.maxLocals }

def clearStack (frame : VerificationFrame) : VerificationFrame := { frame with stack := [] }

def adoptDeclared (declared : VerificationFrame) (maxLocals : Nat) : VerificationFrame :=
  { declared with locals := padded declared.locals maxLocals, maxLocals := maxLocals }

def hasUninitializedThis (frame : VerificationFrame) : Bool :=
  frame.locals.any (· = .uninitializedThis) || frame.stack.any (· = .uninitializedThis)

/-- The number of locals the frame may address. -/
def localLimit (frame : VerificationFrame) : Nat := min frame.maxLocals frame.locals.length

def typeAt (frame : VerificationFrame) (index : Nat) : VType := frame.locals[index]?.getD .top

/-- A write to `index` is a write to the upper half of a pair based below it. -/
def invalidateCat2BaseBelow (locals : List VType) (index : Nat) : List VType :=
  if 0 < index ∧ (locals[index-1]?.getD .top).isCategory2 then locals.set (index-1) .top else locals

end VerificationFrame

/-- A part of an instruction's effect, which changes the frame or refuses the instruction. -/
abbrev FrameM := StateT VerificationFrame (Except Refusal)

namespace FrameM
def refuse {α : Type} (r : Refusal) : FrameM α := fun _ => .error r

def require (ok : Bool) (r : Refusal) : FrameM Unit := if ok then pure () else refuse r

def push (t : VType) : FrameM Unit := fun frame =>
  if frame.stack.length ≥ frame.maxStack then .error .stackOverflow
  else .ok ((),{ frame with stack := t :: frame.stack })

def pop : FrameM VType := fun frame =>
  match frame.stack with
  | [] => .error .stackUnderflow
  | t :: rest => .ok (t,{ frame with stack := rest })

def popExpect (h : ClassHierarchy) (expected : VType) : FrameM VType := do
  let actual ← pop
  if actual.isAssignableTo h expected then pure actual else refuse .badStackType

/-- A pair, its upper half first. -/
def popExpectCat2 (h : ClassHierarchy) (base : VType) : FrameM Unit := fun frame =>
  match frame.stack with
  | upper :: lower :: _ =>
    if upper = .top ∧ lower = base then (do let _ ← pop; let _ ← popExpect h base) frame
    else .error .badStackType
  | [_] => .error .badStackType
  | [] => .error .stackUnderflow

def localLoad (index : Nat) : FrameM VType := fun frame =>
  if index ≥ frame.localLimit then .error .badLocalIndex else .ok (frame.typeAt index,frame)

def localLoadWide (index : Nat) (expected : VType) : FrameM Unit := do
  require (index+1 < 2^16) .badLocalIndex
  let base ← localLoad index
  require (base = expected) .badLocalType
  let upper ← localLoad (index+1)
  require (upper = .top) .splitCategory2

def localStore (index : Nat) (t : VType) : FrameM Unit := fun frame =>
  if index ≥ frame.localLimit then .error .badLocalIndex
  else
    .ok ((),{ frame with
      locals := (VerificationFrame.invalidateCat2BaseBelow frame.locals index).set index t })

def localStoreWide (index : Nat) (t : VType) : FrameM Unit := fun frame =>
  if index+1 ≥ 2^16 ∨ index+1 ≥ frame.localLimit then .error .badLocalIndex
  else
    .ok ((),{ frame with
      locals := ((VerificationFrame.invalidateCat2BaseBelow frame.locals index).set index t).set
        (index+1) .top })

/-- Push a type, with its second slot when it has one. -/
def pushTyped (t : VType) : FrameM Unit := do
  push t
  if t.isCategory2 then push .top else pure ()

def popTyped (h : ClassHierarchy) (t : VType) : FrameM Unit :=
  if t.isCategory2 then popExpectCat2 h t
  else do
    let _ ← popExpect h t

def popReference : FrameM VType := do
  let t ← pop
  if t.isReference then pure t else refuse .badStackType

/-- What the array operand of an instruction has to be. -/
inductive ArrayKind where
  | of (element : Char)
  | byteOrBool
  | references
  | any
  deriving DecidableEq, Repr

/-- With the control rules off an array of primitives only has to be an array. -/
def ArrayKind.accepts (elementRules : Bool) : ArrayKind → VType → Bool
  | _,.null => true
  | .of want,.arrayRef element => !elementRules || element = [want]
  | .byteOrBool,.arrayRef element => !elementRules || element = ['B'] || element = ['Z']
  | .references,.arrayRef element => element.head? = some 'L' || element.head? = some '['
  | .any,.arrayRef _ => true
  | _,_ => false

def popArrayOf (elementRules : Bool) (kind : ArrayKind) : FrameM VType := do
  let t ← popReference
  if kind.accepts elementRules t then pure t else refuse .badArray

def isCat2UpperHalf (popped : VType) : FrameM Bool := fun frame =>
  .ok (decide (popped = .top) && (frame.stack.head?.getD .top).isCategory2,frame)

/-- The top `n` slots, the deepest first. -/
def popNSlots : (n : Nat) → FrameM (List VType)
  | 0 => pure []
  | n+1 => do
    let t ← pop
    let below ← popNSlots n
    pure (below ++ [t])

/-- No pair reaches over an end of these slots. -/
def checkNoSplit (slots : List VType) : FrameM Unit :=
  require (slots.head? ≠ some .top && !(slots.getLast?.getD .top).isCategory2) .splitCategory2

def pushAll : List VType → FrameM Unit
  | [] => pure ()
  | t :: rest => do
    push t
    pushAll rest

def popAllTyped (h : ClassHierarchy) : List VType → FrameM Unit
  | [] => pure ()
  | t :: rest => do
    popTyped h t
    popAllTyped h rest

/-- Replace an uninitialized type in all locals and on the whole stack. -/
def replaceVtype (old new : VType) : FrameM Unit := fun frame =>
  if old.isUninitialized then
    .ok ((),{ frame with
      locals := frame.locals.map fun t => if t = old then new else t
      stack := frame.stack.map fun t => if t = old then new else t })
  else .ok ((),frame)

end FrameM
end CratonVM.Verifier
