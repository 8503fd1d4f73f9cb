import CratonVM.Jit.MemoryModel.Effects
import CratonVM.Lib.ObjectHeap

/-!
Activations of a graph: the heap and the values its nodes take, step by step. Loops, calls and other
threads may do anything a heap allows in between. Objects are named by identity, so a moved object
keeps its name and the name of a collected one is not used again.
-/
namespace CratonVM.Jit
open ObjectHeap

inductive Header where
  | object (classId : Nat)
  | array (kind : MemKind) (length : Int)
  deriving DecidableEq, Repr

inductive Slot where
  | field (index : Int)
  | elem (index : Int)
  deriving DecidableEq, Repr

/-- Words are integers, null is the word zero; the global cells are the static fields. -/
abbrev JavaVal := Val Int
abbrev JavaCell := Cell Slot (Nat × Nat)
abbrev JavaHeap := Heap Int Header Slot (Nat × Nat)
abbrev JavaAct := Act Int Header Slot (Nat × Nat)

/-- What is outside the graph: the class that owns each slot of the objects of a class, and the slot
an access without an offset edge addresses. -/
structure Layout where
  owner : Nat → Int → Nat
  unindexed : Nat → Int

/-- What a cell of the kind keeps of a word. -/
def MemKind.narrow (kind : MemKind) : JavaVal → JavaVal
  | .ref o => .ref o
  | .word w =>
    match kind with
    | .byte => .word (w.bmod (2^8))
    | .char => .word (w % 2^16)
    | .short => .word (w.bmod (2^16))
    | .int => .word (w.bmod (2^32))
    | _ => .word w

/-- The element kind of a `newarray` type code; zero stands for a reference array. -/
def elementKind (elementType : Nat) : Option MemKind :=
  match elementType with
  | 0 => some .ref
  | 4 | 8 => some .byte
  | 5 => some .char
  | 6 => some .float
  | 7 => some .double
  | 9 => some .short
  | 10 => some .int
  | 11 => some .long
  | _ => none

/-- The base and the offset edge of a `Load` (`load_base`). -/
def loadOperands (node : Node) : Option (Nat × Option Nat) :=
  match node.inputs with
  | [base] => some (base,none)
  | [base,index] => some (base,some index)
  | [_,_,base] => some (base,none)
  | _ :: _ :: base :: index :: _ => some (base,some index)
  | [] => none

/-- The base, the offset edge and the value of a `Store` (`store_operands`). -/
def storeOperands (node : Node) : Option (Nat × Option Nat × Nat) :=
  match node.inputs with
  | [base,value] => some (base,none,value)
  | [_,_,base,value] => some (base,none,value)
  | _ :: _ :: base :: index :: value :: _ => some (base,some index,value)
  | _ => none

def lengthOperand (node : Node) : Option Nat :=
  match node.inputs with
  | [array] | [array,_] => some array
  | _ :: _ :: array :: _ => some array
  | [] => none

def valueOperands (node : Node) : List Nat :=
  match node.op with
  | .load _ => ((loadOperands node).map fun p => p.1 :: p.2.toList).getD []
  | .store _ => ((storeOperands node).map fun p => p.1 :: p.2.2 :: p.2.1.toList).getD []
  | .arrayLength => (lengthOperand node).toList
  | _ => node.inputs.drop 2

abbrev Values := Nat → Option JavaVal

def objectOf (env : Values) (id : Nat) : Option Nat :=
  match env id with
  | some (.ref o) => some o
  | _ => none

def wordOf (env : Values) (id : Nat) : Option Int :=
  match env id with
  | some (.word w) => some w
  | _ => none

/-- An edge that names no node is no offset. -/
def slotOf (layout : Layout) (n : Nat) (env : Values) : Option Nat → Option Int
  | some id => if id = noNode then some (layout.unindexed n) else wordOf env id
  | none => some (layout.unindexed n)

namespace MemGraph
def rowNames (g : MemGraph) (layout : Layout) (n classId : Nat) (slot : Int) : Bool :=
  (g.fieldDeclClass.lookup n).all fun decl => layout.owner classId slot = decl

/-- The field a well-typed access addresses: the base is an object, not null and not an array. -/
def fieldCell (g : MemGraph) (layout : Layout) (n : Nat) (env : Values) (header : Nat → Option Header)
    (base : Nat) (offset : Option Nat) : Option JavaCell :=
  (objectOf env base).bind fun o =>
    (slotOf layout n env offset).bind fun slot =>
      match header o with
      | some (.object classId) =>
        if g.rowNames layout n classId slot then some (.slot o (.field slot)) else none
      | _ => none

end MemGraph

/-- The element a well-typed access addresses: an array of the kind, and an index within it. -/
def elemCell (kind : MemKind) (env : Values) (header : Nat → Option Header) (array index : Nat) :
    Option JavaCell :=
  (objectOf env array).bind fun o =>
    (wordOf env index).bind fun i =>
      match header o with
      | some (.array k length) =>
        if k = kind ∧ 0 ≤ i ∧ i < length then some (.slot o (.elem i)) else none
      | _ => none

def arrayLengthOf (env : Values) (header : Nat → Option Header) (array : Nat) : Option Int :=
  (objectOf env array).bind fun o =>
    match header o with
    | some (.array _ length) => some length
    | _ => none

def newLength (env : Values) (id : Nat) : Option Int :=
  (wordOf env id).bind fun length => if 0 ≤ length then some length else none

namespace MemGraph
/-- What a memory node does to the heap, given the values of its operands and the headers: nothing
when it raises or is not well typed. -/
def act (g : MemGraph) (layout : Layout) (n : Nat) (env : Values) (header : Nat → Option Header) :
    Option JavaAct :=
  (g.nodeOpt n).bind fun node =>
    match node.op with
    | .load _ =>
      (loadOperands node).bind fun p =>
        (g.fieldCell layout n env header p.1 p.2).map .read
    | .store kind =>
      (storeOperands node).bind fun p =>
        (g.fieldCell layout n env header p.1 p.2.1).bind fun cell =>
          (env p.2.2).map fun v => .write cell (kind.narrow v)
    | .arrayLoad kind =>
      node.inputs[2]?.bind fun array =>
        node.inputs[3]?.bind fun index =>
          (elemCell kind env header array index).map .read
    | .arrayStore kind =>
      node.inputs[2]?.bind fun array =>
        node.inputs[3]?.bind fun index =>
          node.inputs[4]?.bind fun value =>
            (elemCell kind env header array index).bind fun cell =>
              (env value).map fun v => .write cell (kind.narrow v)
    | .arrayLength =>
      (lengthOperand node).bind fun array => (arrayLengthOf env header array).map .yield
    | .new classId _ => some (.alloc (.object classId))
    | .newArray elementType _ =>
      node.inputs[2]?.bind fun length =>
        (elementKind elementType).bind fun kind =>
          (newLength env length).map fun l => .alloc (.array kind l)
    | .loadStatic classId fieldIndex _ _ => some (.read (.global (classId,fieldIndex)))
    | .storeStatic classId fieldIndex _ _ =>
      node.inputs[2]?.bind fun value =>
        (env value).map fun v => .write (.global (classId,fieldIndex)) v
    | _ => none

/-- A memory node runs to its end without raising. -/
def Exec (g : MemGraph) (layout : Layout) (n : Nat) (env : Values) (h : JavaHeap) (v : JavaVal)
    (h' : JavaHeap) : Prop :=
  ∃ a, g.act layout n env h.header = some a ∧ a.Runs h v h'

def SameOperands (g : MemGraph) (n : Nat) (env env' : Values) : Prop :=
  ∀ node, g.nodeOpt n = some node → ∀ m ∈ valueOperands node, env' m = env m

def IsValueInput (g : MemGraph) (node : Node) (inp : Nat) : Prop :=
  inp ∈ node.inputs ∧ ∃ pred, g.nodeOpt inp = some pred ∧ pred.op.isControl = false

end MemGraph

/-- The ops whose value the run fixes; any other takes a value of its own. -/
def Op.isFixed : Op → Bool
  | .load _ | .store _ | .arrayLoad _ | .arrayStore _ | .arrayLength | .new _ _ | .newArray _ _
  | .param _ | .phi | .const _ => true
  | _ => false

/-- One node of an activation that began on `initial` takes a value, after the nodes and values in
`past`. A parameter was there before; a φ takes a value that one of its value inputs took. -/
inductive Step (g : MemGraph) (layout : Layout) (initial : JavaHeap) (past : List (Nat × JavaVal))
    (env : Values) (h : JavaHeap) (n : Nat) : JavaVal → JavaHeap → Prop where
  | access {v : JavaVal} {h' : JavaHeap} (he : g.Exec layout n env h v h') :
    Step g layout initial past env h n v h'
  | param {v : JavaVal} {node : Node} {i : Nat} (hn : g.nodeOpt n = some node)
    (hop : node.op = .param i) (hv : initial.Knows v) : Step g layout initial past env h n v h
  | phi {v : JavaVal} {node : Node} {inp : Nat} (hn : g.nodeOpt n = some node) (hop : node.op = .phi)
    (hi : g.IsValueInput node inp) (hp : (inp,v) ∈ past) : Step g layout initial past env h n v h
  | const {c : Int} {node : Node} (hn : g.nodeOpt n = some node) (hop : node.op = .const c) :
    Step g layout initial past env h n (.word c) h
  | other {v : JavaVal} {h' : JavaHeap} {node : Node} (hn : g.nodeOpt n = some node)
    (hc : node.op.isControl = false) (hop : node.op.isFixed = false) (he : h.Extends h')
    (hv : h'.Knows v) : Step g layout initial past env h n v h'

/-- An activation up to some point: what each node took, latest first, the current values and the
heap. -/
inductive Activation (g : MemGraph) (layout : Layout) (initial : JavaHeap) :
    List (Nat × JavaVal) → Values → JavaHeap → Prop where
  | start : Activation g layout initial [] (fun _ => none) initial
  | step {past : List (Nat × JavaVal)} {env : Values} {h h' : JavaHeap} {n : Nat} {v : JavaVal}
    (hr : Activation g layout initial past env h) (hs : Step g layout initial past env h n v h') :
    Activation g layout initial ((n,v) :: past) (Function.update env n (some v)) h'
  | outside {past : List (Nat × JavaVal)} {env : Values} {h h' : JavaHeap}
    (hr : Activation g layout initial past env h) (he : h.Extends h') :
    Activation g layout initial past env h'

end CratonVM.Jit
