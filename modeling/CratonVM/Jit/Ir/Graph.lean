import CratonVM.Lib.KeyedLists

/-!
The operations and types of the IR (`jit/src/ir.rs`). Addresses and indices are natural numbers,
constants are integers.
-/
namespace CratonVM.Jit
inductive IrType where
  | void
  | int
  | long
  | float
  | double
  | ref
  | control
  | memory
  deriving DecidableEq, Repr

inductive MemKind where
  | int
  | long
  | float
  | double
  | ref
  | byte
  | char
  | short
  deriving DecidableEq, Repr

inductive CmpOp where
  | eq
  | ne
  | lt
  | le
  | gt
  | ge
  deriving DecidableEq, Repr

inductive ScalarOp where
  | minI | maxI | minL | maxL | absI | absL | compareI | compareL
  | nlzI | nlzL | ntzI | ntzL | reverseBytesI | reverseBytesL
  | lowestOneBitI | lowestOneBitL | highestOneBitI | highestOneBitL
  | rotateLeftI | rotateLeftL | rotateRightI | rotateRightL
  | absF | absD
  | doubleToRawLongBits | longBitsToDouble | floatToRawIntBits | intBitsToFloat
  | sqrtD | minF | maxF | minD | maxD | multiplyHighL | unsignedMultiplyHighL
  | floorD | ceilD | rintD | fmaD | fmaF | bitCountI | bitCountL
  | isHighSurrogate | isLowSurrogate | charCount | isBmpCodePoint | isValidCodePoint
  | roundD | roundF | compressI | compressL | expandI | expandL
  deriving DecidableEq, Repr

inductive UnboxOp where
  | longValue
  | intValue
  | atomicLongGet
  | atomicIntGet
  | atomicIntGetAndIncrement
  | atomicIntIncrementAndGet
  | atomicIntDecrementAndGet
  | atomicLongGetAndAdd
  | fieldInt (slot : Nat)
  | fieldLong (slot : Nat)
  | fieldBool (slot : Nat)
  | fieldRef (slot : Nat)
  | scopedGet (width : Nat) (signed ordered : Bool)
  | scopedPut (width : Nat) (ordered : Bool)
  | sessionPrecheck
  | arenaCacheEntry
  | arenaCacheBase
  deriving DecidableEq, Repr

inductive Op where
  | start
  | return_
  | if_
  | switch (low high : Int)
  | merge
  | region
  | proj (index : Nat)
  | const (value : Int)
  | constF (bits : Nat)
  | constString (holderClassId cpIdx slotAddr : Nat)
  | constClass (holderClassId cpIdx slotAddr : Nat)
  | loadStatic (classId fieldIndex typeTag : Nat) (isVolatile : Bool)
  | storeStatic (classId fieldIndex typeTag : Nat) (isVolatile : Bool)
  | instanceOf (namePtr nameLen seenCell : Nat) (headerOnly : Bool)
  | checkCast (namePtr nameLen : Nat)
  | throw_
  | param (index : Nat)
  | phi
  | add | sub | mul | div | rem | neg
  | and | or | xor | shl | shr | ushr
  | cmp (op : CmpOp)
  | lCmp
  | fCmp (double nanGreater : Bool)
  | i2l | l2i | i2f | i2d | l2f | l2d | f2i | f2l | f2d | d2i | d2l | d2f | i2b | i2c | i2s
  | load (kind : MemKind)
  | store (kind : MemKind)
  | arrayLength
  | arrayLoad (kind : MemKind)
  | arrayStore (kind : MemKind)
  | strCharDecode
  | new (classId numFields : Nat)
  | newArray (elementType componentClassId : Nat)
  | call (infoPtr : Nat)
  | lambdaIntToDouble
  | indyBridge (site : Nat)
  | multiNewArray (site : Int)
  | newCp (holderClassId cpIdx : Nat)
  | monitorEnter
  | monitorExit
  | guard (bci : Nat)
  | scalarIntrinsic (op : ScalarOp)
  | unbox (op : UnboxOp) (classId : Nat)
  | exactClassIs (classId : Nat)
  | classWordOf
  | classInitTest (stateAddr initialized : Nat)
  | currentThreadMirror (offset : Nat)
  | indyRootRef (slotAddr : Nat)
  | osrEntryFlag (headerBci : Nat)
  | osrLocal (index : Nat)
  | osrMemory
  | catchEntryFlag (callBci site : Nat)
  | caughtException
  | keepAlive
  | callThrew (site index : Nat)
  | dead
  deriving DecidableEq, Repr

open Multimap

/-- `NO_NODE`, the largest 32-bit id. -/
def noNode : Nat := 2^32-1

structure Node where
  op : Op
  ty : IrType
  inputs : List Nat
  bytecodePc : Option Nat
  frameSnapshot : Option Nat
  volatileAccess : Bool
  deriving DecidableEq, Repr

/-- A deopt frame; only the fields the graph's own operations read. -/
structure SafepointSnapshot where
  bci : Nat
  locals : List Nat
  stack : List Nat
  monitors : List Nat
  deriving DecidableEq, Repr

inductive SafepointSlotKind where
  | locals
  | stack
  | monitors
  deriving DecidableEq, Repr

structure SafepointSlot where
  snapshot : Nat
  kind : SafepointSlotKind
  slot : Nat
  deriving DecidableEq, Repr

namespace SafepointSnapshot
def half (sp : SafepointSnapshot) : SafepointSlotKind → List Nat
  | .locals => sp.locals
  | .stack => sp.stack
  | .monitors => sp.monitors

def modifyHalf (sp : SafepointSnapshot) (kind : SafepointSlotKind)
    (f : List Nat → List Nat) : SafepointSnapshot :=
  match kind with
  | .locals => { sp with locals := f sp.locals }
  | .stack => { sp with stack := f sp.stack }
  | .monitors => { sp with monitors := f sp.monitors }

def slots (sp : SafepointSnapshot) (index : Nat) : List (SafepointSlot × Nat) :=
  sp.locals.zipIdx.map (fun (v,k) => (⟨index,.locals,k⟩,v))
  ++ sp.stack.zipIdx.map (fun (v,k) => (⟨index,.stack,k⟩,v))
  ++ sp.monitors.zipIdx.map (fun (v,k) => (⟨index,.monitors,k⟩,v))

end SafepointSnapshot

/-- The thread an operation runs on: its token and its edge epoch. -/
structure Thread where
  token : Nat
  epoch : Nat
  deriving DecidableEq, Repr

def Thread.bump (t : Thread) : Thread := { t with epoch := t.epoch+1 }

structure UseLists where
  users : List (List Nat)
  spUsers : List (List SafepointSlot)
  tracking : Bool
  valid : Bool
  epoch : Nat
  owner : Nat
  spLen : Nat
  dangling : Bool
  deriving DecidableEq, Repr

namespace UseLists
def new : UseLists where
  users := []
  spUsers := []
  tracking := true
  valid := false
  epoch := 0
  owner := 0
  spLen := 0
  dangling := false

def stamp (uses : UseLists) (t : Thread) : UseLists :=
  { uses with epoch := t.epoch, owner := t.token }

def stamped (uses : UseLists) (t : Thread) : Bool := uses.owner = t.token && uses.epoch = t.epoch

def discard (uses : UseLists) : UseLists :=
  { uses with users := [], spUsers := [], valid := false, dangling := false }

def recordInput (uses : UseLists) (definition user : Nat) (numNodes : Nat) : UseLists :=
  if definition = noNode then uses
  else if definition < numNodes then { uses with users := pushAt uses.users definition user }
  else { uses with dangling := true }

def recordSlot (uses : UseLists) (definition : Nat) (slot : SafepointSlot) (numNodes : Nat) :
    UseLists :=
  if definition = noNode then uses
  else if definition < numNodes then { uses with spUsers := pushAt uses.spUsers definition slot }
  else { uses with dangling := true }

def recordInputs (uses : UseLists) (inputs : List Nat) (user : Nat) (numNodes : Nat) :
    UseLists :=
  inputs.foldl (fun uses inp => uses.recordInput inp user numNodes) uses

def recordSlots (uses : UseLists) (slots : List (SafepointSlot × Nat)) (numNodes : Nat) :
    UseLists :=
  slots.foldl (fun uses (slot,v) => uses.recordSlot v slot numNodes) uses

/-- Empty lists for one more node. -/
def grow (uses : UseLists) : UseLists :=
  { uses with users := uses.users ++ [[]], spUsers := uses.spUsers ++ [[]] }

def forgetInputs (uses : UseLists) (inputs : List Nat) (user : Nat) (numNodes : Nat) :
    UseLists :=
  inputs.foldl (fun uses inp =>
    if inp ≠ noNode ∧ inp < numNodes then
      { uses with users := uses.users.modify inp (swapRemoveFirst · user) }
    else uses) uses

end UseLists

structure Graph where
  nodes : List Node
  safepoints : List SafepointSnapshot
  uses : UseLists
  deriving DecidableEq, Repr

namespace Graph
def isValidId (g : Graph) (id : Nat) : Bool := id ≠ noNode && id < g.nodes.length

/-- The edges of a node; an id past the end has none. -/
def inputsOf (g : Graph) (id : Nat) : List Nat := (g.nodes[id]?.map (·.inputs)).getD []

def modifyInputs (g : Graph) (id : Nat) (f : List Nat → List Nat) : Graph :=
  { g with nodes := g.nodes.modify id fun node => { node with inputs := f node.inputs } }

def slotValue (safepoints : List SafepointSnapshot) (r : SafepointSlot) : Option Nat :=
  safepoints[r.snapshot]?.bind fun sp => (sp.half r.kind)[r.slot]?

def setSlot (safepoints : List SafepointSnapshot) (r : SafepointSlot) (v : Nat) :
    List SafepointSnapshot :=
  safepoints.modify r.snapshot fun sp => sp.modifyHalf r.kind (·.set r.slot v)

def slots (safepoints : List SafepointSnapshot) : List (SafepointSlot × Nat) :=
  safepoints.zipIdx.flatMap fun (sp,si) => sp.slots si

def useListsCurrent (t : Thread) (g : Graph) : Bool :=
  g.uses.tracking && g.uses.valid && g.uses.stamped t && g.uses.users.length = g.nodes.length
    && g.uses.spLen = g.safepoints.length

def deriveUseLists (t : Thread) (g : Graph) : Graph :=
  let n := g.nodes.length
  let uses := { g.uses with
    users := List.replicate n [], spUsers := List.replicate n [], dangling := false }
  let uses := g.nodes.zipIdx.foldl (fun uses (node,uid) => uses.recordInputs node.inputs uid n) uses
  let uses := uses.recordSlots (slots g.safepoints) n
  { g with uses := ({ uses with spLen := g.safepoints.length, valid := true }).stamp t }

def rebuildUseLists (t : Thread) (g : Graph) : Graph :=
  deriveUseLists t { g with uses := { g.uses with tracking := true } }

def ensureUseLists (t : Thread) (g : Graph) : Graph :=
  if g.uses.tracking && !g.useListsCurrent t then g.rebuildUseLists t else g

def setUseTracking (g : Graph) (on : Bool) : Graph :=
  let uses := { g.uses with tracking := on }
  { g with uses := if on then uses else uses.discard }

/-- An `int` constant is kept sign-extended. -/
def storedOp (op : Op) (ty : IrType) : Op :=
  match op,ty with
  | .const c,.int => .const (c.bmod (2^32))
  | op,_ => op

/-- `Graph::add`; a graph that is full panics before it writes. -/
def add (t : Thread) (g : Graph) (op : Op) (ty : IrType) (inputs : List Nat) (pc : Option Nat) :
    Graph :=
  let id := g.nodes.length
  if id = noNode then g
  else
    let nodes := g.nodes ++ [⟨storedOp op ty,ty,inputs,pc,none,false⟩]
    if g.useListsCurrent t then
      if g.uses.dangling then { g with nodes := nodes, uses := { g.uses with valid := false } }
      else
        { g with
          nodes := nodes
          uses := (g.uses.grow.recordInputs inputs id nodes.length).stamp t }
    else { g with nodes := nodes }

def rewriteSlots (old new : Nat) (values : List Nat) : List Nat :=
  values.map fun v => if v = old then new else v

def rewriteNode (old new : Nat) (node : Node) : Node :=
  { node with inputs := rewriteSlots old new node.inputs }

def rewriteSnapshot (old new : Nat) (sp : SafepointSnapshot) : SafepointSnapshot :=
  { sp with
    locals := rewriteSlots old new sp.locals
    stack := rewriteSlots old new sp.stack
    monitors := rewriteSlots old new sp.monitors }

/-- One user of `old` in the walk over its use list. -/
def rewriteUser (old new : Nat) (newIsNode : Bool) (g : Graph) (user : Nat) : Graph :=
  if user ≥ g.nodes.length then g
  else
    let hits := (g.inputsOf user).count old
    let g := g.modifyInputs user (rewriteSlots old new)
    if newIsNode then
      { g with uses := { g.uses with
        users := g.uses.users.modify new (· ++ List.replicate hits user) } }
    else g

/-- One snapshot slot of the walk; the list is a superset, so the slot is read again. -/
def rewriteSlot (old new : Nat) (newIsNode : Bool) (g : Graph) (r : SafepointSlot) : Graph :=
  if slotValue g.safepoints r = some old then
    let g := { g with safepoints := setSlot g.safepoints r new }
    if newIsNode then { g with uses := { g.uses with spUsers := pushAt g.uses.spUsers new r } } else g
  else g

/-- The walk over the users of `old`, whose list is taken. -/
def rewriteUsers (g : Graph) (old new : Nat) (newIsNode : Bool) : Graph :=
  (bucket g.uses.users old).foldl (rewriteUser old new newIsNode)
    { g with uses := { g.uses with users := g.uses.users.set old [] } }

/-- The walk over the snapshot slots listed at `old`. -/
def rewriteSpUsers (g : Graph) (old new : Nat) (newIsNode : Bool) : Graph :=
  (bucket g.uses.spUsers old).foldl (rewriteSlot old new newIsNode)
    { g with uses := { g.uses with spUsers := g.uses.spUsers.set old [] } }

def replaceAllUsesTracked (t : Thread) (g : Graph) (old new : Nat) : Graph :=
  let newIsNode := g.isValidId new
  let newIsDangling := new ≠ noNode && !newIsNode
  let g := g.rewriteUsers old new newIsNode
  let g := { g with uses := { g.uses with dangling := g.uses.dangling || newIsDangling } }
  let g := g.rewriteSpUsers old new newIsNode
  { g with uses := g.uses.stamp t }

/-- Every input slot and every snapshot slot is rewritten. -/
def rewriteAll (g : Graph) (old new : Nat) : Graph :=
  { g with
    nodes := g.nodes.map (rewriteNode old new)
    safepoints := g.safepoints.map (rewriteSnapshot old new) }

/-- The full scan, which derives the lists of the rewritten graph in the same pass. -/
def replaceAllUsesScanning (t : Thread) (g : Graph) (old new : Nat) : Graph :=
  let g := g.rewriteAll old new
  if g.uses.tracking then g.deriveUseLists t else g

def replaceAllUses (t : Thread) (g : Graph) (old new : Nat) : Graph :=
  if old = new then g
  else if g.useListsCurrent t && g.isValidId old then g.replaceAllUsesTracked t old new
  else g.replaceAllUsesScanning t old new

/-- `kill`; an id past the end panics before it writes. -/
def kill (t : Thread) (g : Graph) (id : Nat) : Graph × Thread :=
  if id ≥ g.nodes.length then (g,t)
  else
    let nodes := g.nodes.modify id fun node => { node with op := .dead, inputs := [], ty := .void }
    if g.useListsCurrent t then
      let uses := g.uses.forgetInputs (g.inputsOf id) id g.nodes.length
      ({ g with nodes := nodes, uses := uses.stamp t },t)
    else ({ g with nodes := nodes },t.bump)

def setInput (t : Thread) (g : Graph) (node : Nat) (idx : Nat) (new : Nat) : Graph × Thread :=
  if !g.isValidId node || idx ≥ (g.inputsOf node).length then (g,t)
  else
    let old := (g.inputsOf node)[idx]?.getD noNode
    let written := g.modifyInputs node (·.set idx new)
    if g.useListsCurrent t then
      let uses := (g.uses.forgetInputs [old] node g.nodes.length).recordInput new node g.nodes.length
      ({ written with uses := uses.stamp t },t)
    else (written,t.bump)

def pushInput (t : Thread) (g : Graph) (node new : Nat) : Graph × Thread :=
  if !g.isValidId node then (g,t)
  else
    let written := g.modifyInputs node (· ++ [new])
    if g.useListsCurrent t then
      ({ written with uses := (g.uses.recordInput new node g.nodes.length).stamp t },t)
    else (written,t.bump)

def setInputs (t : Thread) (g : Graph) (node : Nat) (inputs : List Nat) : Graph × Thread :=
  if !g.isValidId node then (g,t)
  else
    let written := g.modifyInputs node fun _ => inputs
    if g.useListsCurrent t then
      let uses := (g.uses.forgetInputs (g.inputsOf node) node g.nodes.length).recordInputs inputs node
        g.nodes.length
      ({ written with uses := uses.stamp t },t)
    else (written,t.bump)

def clearInputs (t : Thread) (g : Graph) (node : Nat) : Graph × Thread := g.setInputs t node []

def pushSafepoint (t : Thread) (g : Graph) (sp : SafepointSnapshot) : Graph :=
  let safepoints := g.safepoints ++ [sp]
  if g.useListsCurrent t then
    let uses := g.uses.recordSlots (sp.slots g.safepoints.length) g.nodes.length
    { g with
      safepoints := safepoints
      uses := ({ uses with spLen := safepoints.length }).stamp t }
  else { g with safepoints := safepoints }

/-- The new index of each kept snapshot. -/
def remapSnapshots : (next : Nat) → List Bool → List (Option Nat)
  | _,[] => []
  | next,true :: keep => some next :: remapSnapshots (next+1) keep
  | next,false :: keep => none :: remapSnapshots next keep

def retainSafepoints (t : Thread) (g : Graph) (keep : List Bool) : Graph :=
  if keep.length ≠ g.safepoints.length ∨ keep.all id then g
  else
    let remap := remapSnapshots 0 keep
    let g : Graph := { g with
      safepoints := (g.safepoints.zip keep).filterMap fun (sp,k) => if k then some sp else none
      nodes := g.nodes.map fun node =>
        { node with frameSnapshot := node.frameSnapshot.bind fun si => (remap[si]?).getD none } }
    if g.uses.tracking then g.rebuildUseLists t else g

def setSafepointSlot (t : Thread) (g : Graph) (r : SafepointSlot) (new : Nat) : Graph × Thread :=
  if (slotValue g.safepoints r).isNone then (g,t)
  else
    let written := { g with safepoints := setSlot g.safepoints r new }
    if g.useListsCurrent t then
      ({ written with uses := (g.uses.recordSlot new r g.nodes.length).stamp t },t)
    else (written,t.bump)

/-- The values of one half of a snapshot after the closure was asked about each defined slot. -/
def clearHalf (clear : SafepointSlot → Nat → Nat → Bool) (si : Nat) (kind : SafepointSlotKind)
    (bci : Nat) (values : List Nat) : List Nat :=
  values.zipIdx.map fun (v,k) =>
    if v = noNode then v else if clear ⟨si,kind,k⟩ bci v then noNode else v

def clearSafepointSlotsWhere (g : Graph) (clear : SafepointSlot → Nat → Nat → Bool) : Graph :=
  { g with safepoints := g.safepoints.zipIdx.map fun (sp,si) => { sp with
      locals := clearHalf clear si .locals sp.bci sp.locals
      stack := clearHalf clear si .stack sp.bci sp.stack
      monitors := clearHalf clear si .monitors sp.bci sp.monitors } }

/-- A write through a mutable view of one node's `Inputs`: any other edges, and the epoch moves. -/
def writeInputs (t : Thread) (g : Graph) (id : Nat) (inputs : List Nat) : Graph × Thread :=
  (g.modifyInputs id fun _ => inputs,t.bump)

/-- A write through a mutable view of `Safepoints`. -/
def writeSafepoints (t : Thread) (g : Graph) (safepoints : List SafepointSnapshot) : Graph × Thread :=
  ({ g with safepoints := safepoints },t.bump)

def scanUseCounts (g : Graph) : List Nat :=
  (List.range g.nodes.length).map fun id => (g.nodes.map fun node => node.inputs.count id).sum

def useCounts (t : Thread) (g : Graph) : List Nat :=
  if g.useListsCurrent t then g.uses.users.map (·.length) else g.scanUseCounts

def scanUseCount (g : Graph) (id : Nat) : Nat :=
  if id = noNode then 0 else (g.nodes.map fun node => node.inputs.count id).sum

def useCount (t : Thread) (g : Graph) (id : Nat) : Nat :=
  if g.useListsCurrent t then (bucket g.uses.users id).length else g.scanUseCount id

/-- The values in order of their first occurrence, each once. -/
def firsts {α : Type} [DecidableEq α] (values : List α) : List α :=
  values.foldl (fun out v => if v ∈ out then out else out ++ [v]) []

def scanUsersOf (g : Graph) (id : Nat) : List Nat :=
  if id = noNode then []
  else (g.nodes.zipIdx.filter fun (node,_) => node.inputs.contains id).map Prod.snd

def usersOf (t : Thread) (g : Graph) (id : Nat) : List Nat :=
  if g.useListsCurrent t then firsts (bucket g.uses.users id) else g.scanUsersOf id

def scanSafepointUsersOf (g : Graph) (id : Nat) : List SafepointSlot :=
  if id = noNode then [] else ((slots g.safepoints).filter fun (_,v) => v = id).map Prod.fst

def safepointUsersOf (t : Thread) (g : Graph) (id : Nat) : List SafepointSlot :=
  if id = noNode then []
  else if g.useListsCurrent t then
    firsts ((bucket g.uses.spUsers id).filter fun r => slotValue g.safepoints r = some id)
  else g.scanSafepointUsersOf id

def expectUsers (g : Graph) : List (List Nat) :=
  g.nodes.zipIdx.foldl (fun expect (node,uid) => node.inputs.foldl (fun expect inp =>
    if inp ≠ noNode ∧ inp < g.nodes.length then pushAt expect inp uid else expect) expect)
    (List.replicate g.nodes.length [])

/-- `verify_use_lists`: both lists sorted are equal, and every slot that names a node is listed. -/
def verifyUseLists (t : Thread) (g : Graph) : Bool :=
  if !g.useListsCurrent t then true
  else
    let n := g.nodes.length
    g.uses.users.length = n && g.uses.spUsers.length = n
    && (List.range n).all (fun id =>
      (bucket g.uses.users id).isPerm (bucket g.expectUsers id))
    && (slots g.safepoints).all fun (slot,v) =>
      v = noNode || v ≥ n || (bucket g.uses.spUsers v).contains slot

end Graph
end CratonVM.Jit
