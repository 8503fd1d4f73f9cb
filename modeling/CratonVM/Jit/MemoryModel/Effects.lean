import CratonVM.Jit.Ir.Graph

/-!
The memory model of the IR (`jit/src/ir.rs`): what each node reads and writes, where a reference comes
from, and which two nodes may be swapped.
-/
namespace CratonVM.Jit
inductive AccessOffset where
  | const (value : Int)
  | dynamic (id : Nat)
  | absent
  deriving DecidableEq, Repr

def AccessOffset.provablyDistinct : AccessOffset → AccessOffset → Bool
  | .const a,.const b => a ≠ b
  | _,_ => false

inductive AliasClass where
  | none
  | field (base : Nat) (offset : AccessOffset) (decl : Option Nat)
  | arrayElem (array : Nat) (index : AccessOffset) (elem : MemKind)
  | arrayLength (array : Nat)
  | static (classId field : Nat)
  | monitor (obj : Nat)
  | raw
  | any
  deriving DecidableEq, Repr

inductive MemOrder where
  | plain
  | acquire
  | release
  | seqCst
  deriving DecidableEq, Repr

namespace MemOrder
def hasAcquire : MemOrder → Bool
  | .acquire | .seqCst => true
  | _ => false

def hasRelease : MemOrder → Bool
  | .release | .seqCst => true
  | _ => false

def isFence : MemOrder → Bool
  | .seqCst => true
  | _ => false

def isPlain : MemOrder → Bool
  | .plain => true
  | _ => false

end MemOrder

structure MemEffect where
  reads : AliasClass
  writes : AliasClass
  order : MemOrder
  safepoint : Bool
  allocates : Bool
  deriving DecidableEq, Repr

namespace MemEffect
def none : MemEffect := ⟨.none,.none,.plain,false,false⟩

/-- A call whose callee is unknown, or a node whose layout could not be read. -/
def opaque_ : MemEffect := ⟨.any,.any,.plain,true,true⟩

def read (cls : AliasClass) : MemEffect := { none with reads := cls }

def write (cls : AliasClass) : MemEffect := { none with writes := cls }

def allocation : MemEffect := { none with safepoint := true, allocates := true }

def monitorEnterOf (cls : AliasClass) : MemEffect := ⟨cls,cls,.acquire,true,false⟩

def monitorExitOf (cls : AliasClass) : MemEffect := ⟨cls,cls,.release,true,false⟩

def volatileRead (cls : AliasClass) : MemEffect := ⟨cls,.none,.acquire,false,false⟩

def volatileWrite (cls : AliasClass) : MemEffect := ⟨.none,cls,.seqCst,false,false⟩

def touchesMemory (e : MemEffect) : Bool := e.reads ≠ .none || e.writes ≠ .none

def isWrite (e : MemEffect) : Bool := e.writes ≠ .none

def isInert (e : MemEffect) : Bool :=
  !e.touchesMemory && e.order.isPlain && !e.safepoint && !e.allocates

end MemEffect

inductive MemAccess where
  | fieldRead
  | fieldWrite
  | arrayRead
  | arrayWrite
  | lengthRead
  | allocate
  | monitorEnter
  | monitorExit
  | opaque_
  | headerRead
  deriving DecidableEq, Repr

/-- The slot of the incoming memory token in the full form, the arity of that form, and the access. -/
structure OpMemoryShape where
  tokenSlot : Nat
  minFullArity : Nat
  access : MemAccess
  deriving DecidableEq, Repr

namespace Op
def isControl : Op → Bool
  | .start | .return_ | .throw_ | .if_ | .switch _ _ | .merge | .region | .proj _ => true
  | _ => false

@[grind =]
def memoryShape : Op → Option OpMemoryShape
  | .load _ => some ⟨1,3,.fieldRead⟩
  | .store _ => some ⟨1,4,.fieldWrite⟩
  | .arrayLoad _ => some ⟨1,4,.arrayRead⟩
  | .arrayStore _ => some ⟨1,5,.arrayWrite⟩
  | .arrayLength => some ⟨1,3,.lengthRead⟩
  | .new _ _ => some ⟨1,2,.allocate⟩
  | .newArray _ _ => some ⟨1,3,.allocate⟩
  | .call _ => some ⟨1,2,.opaque_⟩
  | .constString _ _ _ | .constClass _ _ _ => some ⟨1,2,.opaque_⟩
  | .loadStatic _ _ _ _ => some ⟨1,2,.opaque_⟩
  | .storeStatic _ _ _ _ => some ⟨1,3,.opaque_⟩
  | .instanceOf _ _ _ headerOnly => some ⟨1,3,if headerOnly then .headerRead else .opaque_⟩
  | .checkCast _ _ => some ⟨1,3,.opaque_⟩
  | .throw_ => some ⟨1,3,.opaque_⟩
  | .lambdaIntToDouble => some ⟨1,4,.opaque_⟩
  | .indyBridge _ => some ⟨1,2,.opaque_⟩
  | .multiNewArray _ => some ⟨1,2,.opaque_⟩
  | .newCp _ _ => some ⟨1,2,.opaque_⟩
  | .monitorEnter => some ⟨1,3,.monitorEnter⟩
  | .unbox _ _ => some ⟨1,3,.opaque_⟩
  | .monitorExit => some ⟨1,3,.monitorExit⟩
  | .strCharDecode => some ⟨1,5,.arrayRead⟩
  | _ => none

def arrayElemKind : Op → Option MemKind
  | .arrayLoad kind | .arrayStore kind => some kind
  | _ => none

end Op

def memoryTokenSlot (node : Node) : Option Nat :=
  node.op.memoryShape.bind fun shape =>
    if node.inputs.length ≥ shape.minFullArity then some shape.tokenSlot else none

def isMemoryTokenSlot (node : Node) (idx : Nat) : Bool :=
  if node.op = .phi then node.ty = .memory && idx ≥ 1 else memoryTokenSlot node = some idx

def dynAt (inputs : List Nat) (i : Nat) : AccessOffset :=
  match inputs[i]? with
  | some id => if id = noNode then .absent else .dynamic id
  | none => .absent

def accessLocation (node : Node) (access : MemAccess) : AliasClass :=
  match access with
  | .fieldRead =>
    match node.inputs with
    | [base] | [base,_] => .field base (dynAt node.inputs 1) none
    | _ :: _ :: base :: _ => .field base (dynAt node.inputs 3) none
    | _ => .any
  | .fieldWrite =>
    match node.inputs with
    | [base,_] => .field base .absent none
    -- slot 3 of the form without an offset is the value
    | [_,_,base,_] => .field base .absent none
    | _ :: _ :: base :: _ :: _ :: _ => .field base (dynAt node.inputs 3) none
    | _ => .any
  | .arrayRead | .arrayWrite =>
    if access = .arrayRead ∧ node.op = .strCharDecode then
      match node.inputs with
      | _ :: _ :: array :: _ :: _ :: _ => .arrayElem array .absent .byte
      | _ => .any
    else
      match node.inputs,node.op.arrayElemKind with
      | _ :: _ :: array :: _ :: _,some elem => .arrayElem array (dynAt node.inputs 3) elem
      | _,_ => .any
  | .lengthRead =>
    match node.inputs with
    | [array] | [array,_] => .arrayLength array
    | _ :: _ :: array :: _ => .arrayLength array
    | _ => .any
  | .allocate => .none
  | .monitorEnter | .monitorExit =>
    match node.inputs with
    | _ :: _ :: obj :: _ => .monitor obj
    | _ => .any
  | .opaque_ => .any
  | .headerRead => .none

/-- The effect of an op with a memory shape. -/
def effectOfAccess (node : Node) (access : MemAccess) : MemEffect :=
  let cls := accessLocation node access
  match access with
  | .fieldRead => if node.volatileAccess then .volatileRead cls else .read cls
  | .fieldWrite => if node.volatileAccess then .volatileWrite cls else .write cls
  | .arrayRead | .lengthRead => .read cls
  | .arrayWrite => .write cls
  | .allocate => .allocation
  | .monitorEnter => .monitorEnterOf cls
  | .monitorExit => .monitorExitOf cls
  | .opaque_ => .opaque_
  | .headerRead => { MemEffect.none with safepoint := true }

def effectOfNode (node : Node) : MemEffect :=
  match node.op with
  | .phi => if node.ty = .memory then .opaque_ else .none
  | .return_ | .dead | .osrMemory => .opaque_
  | .guard _ => { MemEffect.none with safepoint := true }
  | op =>
    match op.memoryShape with
    | none => .none
    | some shape => effectOfAccess node shape.access

def withFieldDecl (cls : AliasClass) (decl : Nat) : AliasClass :=
  match cls with
  | .field base offset _ => .field base offset (some decl)
  | other => other

def plainStaticReadEffect (node : Node) (plain : Bool) : Option MemEffect :=
  match node.op with
  | .loadStatic classId fieldIndex _ false =>
    if !plain || node.volatileAccess then none else some (.read (.static classId fieldIndex))
  | _ => none

namespace UnboxOp
def isScoped : UnboxOp → Bool
  | .scopedGet _ _ _ | .scopedPut _ _ => true
  | _ => false

def arity : UnboxOp → Nat
  | .atomicLongGetAndAdd => 1
  | .scopedGet _ _ ordered => 3+ordered.toNat
  | .scopedPut _ ordered => 4+ordered.toNat
  | .arenaCacheEntry => 2
  | .arenaCacheBase => 1
  | _ => 0

def isPut : UnboxOp → Bool
  | .scopedPut _ _ => true
  | _ => false

end UnboxOp

def scopedRawEffect (node : Node) : Option MemEffect :=
  match node.op with
  | .unbox op _ =>
    if !op.isScoped || node.inputs.length < 3+op.arity then none
    else
      some { MemEffect.none with
        reads := if op.isPut then .none else .raw
        writes := if op.isPut then .raw else .none
        safepoint := true }
  | _ => none

def maxAliasAllocSet : Nat := 8

def refOriginMaxDepth : Nat := 32

/-- What a reference may point to: these allocations of the method, or an object that was there
before it ran. -/
structure RefOrigin where
  allocs : Option (List Nat)
  preExisting : Bool
  deriving DecidableEq, Repr

namespace RefOrigin
def unknown : RefOrigin := ⟨none,false⟩

def alloc (id : Nat) : RefOrigin := ⟨some [id],false⟩

def preExistingOnly : RefOrigin := ⟨some [],true⟩

def identity : RefOrigin := ⟨some [],false⟩

def absorbAlloc (mine : List Nat) (id : Nat) : List Nat :=
  if mine.contains id then mine else mine ++ [id]

def absorb (self other : RefOrigin) : RefOrigin where
  allocs :=
    match self.allocs,other.allocs with
    | some mine,some theirs =>
      if (theirs.foldl absorbAlloc mine).length > maxAliasAllocSet then none
      else some (theirs.foldl absorbAlloc mine)
    | _,_ => none
  preExisting := self.preExisting || other.preExisting

def provablyDistinct (self other : RefOrigin) : Bool :=
  match self.allocs,other.allocs with
  | some mine,some theirs =>
    if self.preExisting && other.preExisting then false
    else !mine.any fun id => theirs.contains id
  | _,_ => false

end RefOrigin
namespace Graph
def nodeOpt (g : Graph) (id : Nat) : Option Node := if id = noNode then none else g.nodes[id]?

/-- One input of a φ: what it adds to the join, whether a value was seen, what has been visited. -/
def joinInput (g : Graph) (visit : Nat → List Nat → RefOrigin × List Nat)
    (acc : RefOrigin × Bool × List Nat) (inp : Nat) : RefOrigin × Bool × List Nat :=
  match g.nodeOpt inp with
  | none => acc
  | some pred =>
    if pred.op.isControl then acc
    else ((acc.1.absorb (visit inp acc.2.2).1),true,(visit inp acc.2.2).2)

/-- `ref_origin_at` with `room` levels left before the depth bound, and the φs visited so far. -/
def refOriginAt (g : Graph) : Nat → Nat → List Nat → RefOrigin × List Nat
  | 0,_,visited => (.unknown,visited)
  | room+1,id,visited =>
    match g.nodeOpt id with
    | none => (.unknown,visited)
    | some node =>
      match node.op with
      | .new _ _ | .newArray _ _ => (.alloc id,visited)
      | .param _ => (.preExistingOnly,visited)
      | .phi =>
        if visited.contains id then (.identity,visited)
        else
          let joined := node.inputs.foldl (g.joinInput (g.refOriginAt room)) (.identity,false,id :: visited)
          (if joined.2.1 then joined.1 else .unknown,joined.2.2)
      | _ => (.unknown,visited)

def refOrigin (g : Graph) (id : Nat) : RefOrigin := (g.refOriginAt (refOriginMaxDepth+1) id []).1

def refsMayAlias (g : Graph) (a b : Nat) : Bool :=
  a = b || !(g.refOrigin a).provablyDistinct (g.refOrigin b)

def mayAlias (g : Graph) (a b : AliasClass) : Bool :=
  match a,b with
  | .none,_ | _,.none => false
  | .any,_ | _,.any => true
  | .field x i d,.field y j e =>
    let declsDisjoint := x ≠ y && d.isSome && e.isSome && d ≠ e
    !declsDisjoint && !i.provablyDistinct j && g.refsMayAlias x y
  | .arrayElem x i ke,.arrayElem y j kf =>
    let kindsDisjoint := x ≠ y && ke ≠ kf
    !kindsDisjoint && !i.provablyDistinct j && g.refsMayAlias x y
  | .arrayLength x,.arrayLength y => g.refsMayAlias x y
  | .static c i,.static d j => c = d && i = j
  | .monitor x,.monitor y => g.refsMayAlias x y
  | .raw,.raw => true
  | .raw,.arrayElem _ _ elem | .arrayElem _ _ elem,.raw => elem ≠ .ref
  | _,_ => false

/-- An offset that is an integer constant. -/
def foldOffset (g : Graph) : AccessOffset → AccessOffset
  | .dynamic id =>
    match (g.nodeOpt id).map Node.op with
    | some (.const v) => .const v
    | _ => .dynamic id
  | other => other

def foldOffsets (g : Graph) : AliasClass → AliasClass
  | .field base offset decl => .field base (g.foldOffset offset) decl
  | .arrayElem array index elem => .arrayElem array (g.foldOffset index) elem
  | other => other

end Graph

inductive ReorderProof where
  | effectFree
  | readOnly
  | disjointLocations
  deriving DecidableEq, Repr

inductive ReorderBlock where
  | unknownNode
  | control
  | dataDependence
  | fence
  | acquire
  | release
  | allocation
  | safepoint
  | mayAlias
  deriving DecidableEq, Repr

inductive Reorder where
  | allowed (proof : ReorderProof)
  | blocked (block : ReorderBlock)
  deriving DecidableEq, Repr

def Reorder.isAllowed : Reorder → Bool
  | .allowed _ => true
  | .blocked _ => false

/-- The graph with the facts of the compile its memory model reads, and the two flags of the inline
static routes. -/
structure MemGraph extends Graph where
  staticAliasClass : Bool
  directStaticFields : List (Nat × Nat)
  staticRefStoreEffect : Bool
  scopedRawAlias : Bool
  plainStaticReads : List (Nat × Nat)
  fieldIdentityAlias : Bool
  fieldDeclClass : List (Nat × Nat)
  inlineGetstatic : Bool
  inlinePutstatic : Bool
  deriving DecidableEq, Repr

/-- The type tags of a static field, as the bytes of its descriptor. -/
def isPrimitiveTag (tag : Nat) : Bool := [73,90,66,67,83,74,70,68].contains tag

def isReferenceTag (tag : Nat) : Bool := [76,91].contains tag

namespace MemGraph
def directStaticAccess (g : MemGraph) (node : Node) : Option (AliasClass × Bool) :=
  match node.op with
  | .loadStatic classId fieldIndex _ false =>
    if node.inputs.length ≥ 2 && g.directStaticFields.contains (classId,fieldIndex)
      && g.inlineGetstatic then some (.static classId fieldIndex,false) else none
  | .storeStatic classId fieldIndex typeTag false =>
    if isPrimitiveTag typeTag && node.inputs.length ≥ 3
      && g.directStaticFields.contains (classId,fieldIndex) && g.inlineGetstatic && g.inlinePutstatic
    then some (.static classId fieldIndex,true) else none
  | _ => none

def directStaticRefStore (g : MemGraph) (node : Node) : Option AliasClass :=
  match node.op with
  | .storeStatic classId fieldIndex typeTag false =>
    if g.staticRefStoreEffect && isReferenceTag typeTag && node.inputs.length ≥ 3
      && g.directStaticFields.contains (classId,fieldIndex)
    then some (.static classId fieldIndex) else none
  | _ => none

def directStaticEffect (g : MemGraph) (node : Node) : Option MemEffect :=
  if g.staticAliasClass then
    match g.directStaticAccess node with
    | some (cell,isWrite) => some (if isWrite then .write cell else .read cell)
    | none => (g.directStaticRefStore node).map fun cell => ⟨cell,cell,.plain,true,false⟩
  else none

def plainStaticEffect (g : MemGraph) (node : Node) : Option MemEffect :=
  match node.op with
  | .loadStatic classId fieldIndex _ _ =>
    plainStaticReadEffect node (g.plainStaticReads.contains (classId,fieldIndex))
  | _ => none

def fieldIdentityOf (g : MemGraph) (id : Nat) : Option Nat :=
  if !g.fieldIdentityAlias then none
  else
    match (g.nodeOpt id).map Node.op with
    | some (.load _) | some (.store _) => g.fieldDeclClass.lookup id
    | _ => none

/-- The effect out of the shape table, with constant offsets folded and the declaring class named. -/
def tableEffect (g : MemGraph) (id : Nat) (node : Node) : MemEffect :=
  let eff := effectOfNode node
  let eff := { eff with reads := g.foldOffsets eff.reads, writes := g.foldOffsets eff.writes }
  match g.fieldIdentityOf id with
  | some decl => { eff with
      reads := withFieldDecl eff.reads decl, writes := withFieldDecl eff.writes decl }
  | none => eff

def memoryEffect (g : MemGraph) (id : Nat) : MemEffect :=
  match g.nodeOpt id with
  | none => .opaque_
  | some node =>
    match g.directStaticEffect node with
    | some eff => eff
    | none =>
      match if g.scopedRawAlias then scopedRawEffect node else none with
      | some eff => eff
      | none => (g.plainStaticEffect node).getD (g.tableEffect id node)

def mayReorderEffects (g : MemGraph) (earlier later : MemEffect) : Reorder :=
  if earlier.isInert || later.isInert then .allowed .effectFree
  else if earlier.order.isFence || later.order.isFence then .blocked .fence
  else if earlier.order.hasAcquire then .blocked .acquire
  else if later.order.hasRelease then .blocked .release
  else if earlier.allocates && later.allocates then .blocked .allocation
  else if g.mayAlias earlier.writes later.reads || g.mayAlias earlier.reads later.writes
    || g.mayAlias earlier.writes later.writes then .blocked .mayAlias
  else if earlier.safepoint && later.isWrite || later.safepoint && earlier.isWrite then
    .blocked .safepoint
  else if !earlier.isWrite && !later.isWrite then .allowed .readOnly
  else .allowed .disjointLocations

def consumes (node : Node) (id : Nat) : Bool :=
  node.inputs.zipIdx.any fun (inp,i) => inp = id && !isMemoryTokenSlot node i

def mayReorder (g : MemGraph) (earlier later : Nat) : Reorder :=
  match g.nodeOpt earlier,g.nodeOpt later with
  | some a,some b =>
    if a.op.isControl || b.op.isControl then .blocked .control
    else if consumes b earlier then .blocked .dataDependence
    else g.mayReorderEffects (g.memoryEffect earlier) (g.memoryEffect later)
  | _,_ => .blocked .unknownNode

end MemGraph
end CratonVM.Jit
