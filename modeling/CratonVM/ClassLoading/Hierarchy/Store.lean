import CratonVM.Lib.Searching
import CratonVM.ClassLoading.ClassModel
import CratonVM.Lib.GraphSearch

/-!
The secondary-supers closures a store has published (`PublishedSupers` in `class.rs`): a slot of
each class id that names a run of words in an append-only arena.
-/
namespace CratonVM.ClassLoading
open BinarySearch

/-- Ids below this many can be published. -/
def supersSlots : Nat := 2^12*2^10

def supersArenaChunk : Nat := 2^16

def supersArenaChunks : Nat := 64

def supersEmpty : Nat := 0

def supersTooLarge : Nat := 2^64-1

/-- The slots of chunks that are not allocated yet hold `supersEmpty`. The words are addressed
through the whole arena; a chunk is allocated at its first use. -/
structure PublishedSupers where
  slots : Nat → Nat := fun _ => supersEmpty
  words : Nat → Nat := fun _ => 0
  allocated : Nat → Bool := fun _ => false
  cursor : Nat := 0
  filled : Nat := 0
  exhausted : Bool := false

namespace PublishedSupers
variable (p : PublishedSupers)

def canPublish (id : Nat) : Bool := id < supersSlots && !p.exhausted

def slotValue (id : Nat) : Nat := p.slots id

/-- The closure a slot value names. -/
def closureAt (enc : Nat) : Option (List Nat) :=
  if enc = supersEmpty ∨ enc = supersTooLarge then none
  else
    let len := enc &&& 0xFFFF
    let off := enc >>> 16
    let start := off%supersArenaChunk
    if off/supersArenaChunk < supersArenaChunks ∧ p.allocated (off/supersArenaChunk) ∧
        start+len ≤ supersArenaChunk then
      some ((List.range len).map fun i => p.words (off+i))
    else none

def answer (enc sup : Nat) : Option Bool :=
  (p.closureAt enc).map fun words => (binarySearch words sup).isSome

def verdict (sub sup : Nat) : Option Bool := p.answer (p.slotValue sub) sup

/-- Where the next run goes: a closure never straddles two chunks. -/
def nextOffset (len : Nat) : Nat :=
  if p.cursor%supersArenaChunk+len > supersArenaChunk then
    (p.cursor/supersArenaChunk+1)*supersArenaChunk
  else p.cursor

def storeWords (words : List Nat) : Option Nat × PublishedSupers :=
  let off := p.nextOffset words.length
  if off/supersArenaChunk < supersArenaChunks then
    (some ((off <<< 16) ||| words.length),
      { p with
        words := fun i => if off ≤ i ∧ i < off+words.length then words.getD (i-off) 0 else p.words i
        allocated := fun c => c = off/supersArenaChunk || p.allocated c
        cursor := off+words.length })
  else (none,{ p with exhausted := true })

/-- The compare-exchange of the slot: a value that is there stays. -/
def fillSlot (id enc : Nat) : Nat × PublishedSupers :=
  if p.slots id = supersEmpty then
    (enc,{ p with slots := fun i => if i = id then enc else p.slots i, filled := p.filled+1 })
  else (p.slots id,p)

/-- An empty closure stands for one that is too large. -/
def publish (id : Nat) (closure : List Nat) : Option Nat × PublishedSupers :=
  if id < supersSlots then
    if closure = [] then
      let (enc,p) := p.fillSlot id supersTooLarge
      (some enc,p)
    else
      match p.storeWords closure with
      | (none,p) => (none,p)
      | (some enc,p) =>
        let (enc,p) := p.fillSlot id enc
        (some enc,p)
  else (none,p)

def forget (id : Nat) : PublishedSupers :=
  if p.slots id = supersEmpty then p
  else { p with slots := fun i => if i = id then supersEmpty else p.slots i, filled := p.filled-1 }

end PublishedSupers

open BinarySearch GraphSearch

def maxHierarchyDepth : Nat := 1024

def primaryDisplayLen : Nat := 8

/-- A valid display: the depth of the class and its ancestors at the first depths. An invalid one
is `none`. -/
structure PrimaryDisplay where
  depth : Nat
  supers : List Nat
  deriving DecidableEq, Repr

structure Hierarchy where
  classes : List (Option Class) := []
  subclasses : Nat → Option (List Nat) := fun _ => none
  implementors : Nat → Option (List Nat) := fun _ => none
  displays : List (Option PrimaryDisplay) := []
  deepInterfaceKeys : Finset Nat := ∅
  secondaries : PublishedSupers := {}
  displayEnabled : Bool
  sortedUnlink : Bool

/-- The list behind a key of one of the indices. -/
def kidsOf (map : Nat → Option (List Nat)) (parent : Nat) : List Nat := (map parent).getD []

def setKey (map : Nat → Option (List Nat)) (key : Nat) (kids : Option (List Nat)) :
    Nat → Option (List Nat) :=
  fun k => if k = key then kids else map k

/-- The insertion behind a `binary_search` in an ascending list. -/
def insertSorted (kids : List Nat) (child : Nat) : List Nat :=
  if child ∈ kids then kids else kids.orderedInsert (· ≤ ·) child

def linkSubtypeEdge (map : Nat → Option (List Nat)) (parent child : Nat) :
    Nat → Option (List Nat) :=
  setKey map parent (some (insertSorted (kidsOf map parent) child))

def removeSortedId (ids : List Nat) (id : Nat) : List Nat :=
  match binarySearch ids id with
  | some pos => (ids.take pos).rdropWhile (· = id)++(ids.drop pos).dropWhile (· = id)
  | none => ids.filter (· ≠ id)

def removeId (sorted : Bool) (ids : List Nat) (id : Nat) : List Nat :=
  if sorted then removeSortedId ids id else ids.filter (· ≠ id)

def unlinkSubtypeEdgeWith (map : Nat → Option (List Nat)) (parent child : Nat) (sorted : Bool) :
    Nat → Option (List Nat) :=
  match map parent with
  | none => map
  | some kids =>
    let kids := removeId sorted kids child
    setKey map parent (if kids = [] then none else some kids)

/-- The superclass edge that goes; its key keeps an entry, also an empty one. -/
def unlinkSuper (map : Nat → Option (List Nat)) (old : Option Nat) (id : Nat) (sorted : Bool) :
    Nat → Option (List Nat) :=
  match old with
  | none => map
  | some old =>
    match map old with
    | none => map
    | some kids => setKey map old (some (removeId sorted kids id))

def linkSuper (map : Nat → Option (List Nat)) (new : Option Nat) (id : Nat) :
    Nat → Option (List Nat) :=
  match new with
  | none => map
  | some new => linkSubtypeEdge map new id

/-- The superclass edge of a class with the greatest id so far. -/
def pushSuper (map : Nat → Option (List Nat)) (superclass : Option Nat) (id : Nat) :
    Nat → Option (List Nat) :=
  match superclass with
  | none => map
  | some sid => setKey map sid (some (kidsOf map sid++[id]))

namespace Hierarchy
variable (h : Hierarchy)

def get (id : Nat) : Option Class := h.classes[id]?.join

def superclassOf (id : Nat) : Option Nat := (h.get id).bind Class.superclass

def edgesOf (c : Class) : List Nat := c.superclass.toList++c.interfaces

section
def displayAt (id : Nat) : Option PrimaryDisplay := h.displays[id]?.join

def computeDisplay (id : Nat) : Option PrimaryDisplay :=
  match h.get id with
  | none => none
  | some c =>
    match c.superclass with
    | none => some ⟨0,[id]⟩
    | some superId =>
      if superId = id ∨ h.get superId = none then none
      else
        match h.displayAt superId with
        | none => none
        | some parent =>
          let depth := parent.depth+1
          if depth > maxHierarchyDepth then none
          else if id ∈ parent.supers then none
          else some ⟨depth,if depth < primaryDisplayLen then parent.supers++[id] else parent.supers⟩

/-- The steps left before a chain counts as too deep. -/
def superclassChainReaches (target : Nat) : (left : Nat) → Option Nat → Bool
  | _, none => false
  | left, some c =>
    if c = target then true
    else
      match left with
      | 0 => true
      | left+1 => superclassChainReaches target left (h.superclassOf c)

/-- The class is named as an interface and is not known to have a depth below two. -/
def isDeepInterfaceKey (key : Nat) : Bool :=
  (h.implementors key).isSome &&
    (match h.displayAt key with
    | none => true
    | some d => d.depth ≥ 2)

def refreshDeepInterfaceKey (key : Nat) : Hierarchy :=
  { h with
    deepInterfaceKeys :=
      if h.isDeepInterfaceKey key then insert key h.deepInterfaceKeys
      else h.deepInterfaceKeys.erase key }

def setDisplay (id : Nat) (d : Option PrimaryDisplay) : Hierarchy :=
  { h with displays := h.displays.set id d }

def recomputeDisplayAt (id : Nat) : Hierarchy :=
  let cycle :=
    match h.superclassOf id with
    | none => false
    | some s => h.superclassChainReaches id (maxHierarchyDepth+1) (some s)
  let display := if cycle then none else h.computeDisplay id
  (h.setDisplay id display).refreshDeepInterfaceKey id

def visitLevel : (frontier out seen next : List Nat) → List Nat × List Nat × List Nat
  | [], out, seen, next => (out,seen,next)
  | cid::frontier, out, seen, next =>
    if cid ∈ seen then visitLevel frontier out seen next
    else visitLevel frontier (out++[cid]) (cid::seen) (next++kidsOf h.subclasses cid)

def descendLoop : (levels : Nat) → (frontier out seen : List Nat) → List Nat
  | 0, _, out, _ => out
  | levels+1, frontier, out, seen =>
    if frontier = [] then out
    else
      let (out,seen,next) := h.visitLevel frontier out seen []
      descendLoop levels next out seen

def descendantsOf (id : Nat) : List Nat :=
  h.descendLoop maxHierarchyDepth (kidsOf h.subclasses id) [] [id]

def recomputeDisplaysBelow (id : Nat) : Hierarchy :=
  (h.descendantsOf id).foldl recomputeDisplayAt h

end

section
/-- The classes that name a class as superclass or interface. -/
def childrenOf (id : Nat) : List Nat := kidsOf h.subclasses id++kidsOf h.implementors id

/-- The turns the walk over the reverse indices can need. -/
def reverseTurns (id : Nat) : Nat :=
  1+((id::List.range h.classes.length).map fun n => (h.childrenOf n).length).sum

/-- The classes whose closures an edge change at `id` can alter. -/
def reaching (id : Nat) : List Nat := (searchLoop h.childrenOf (h.reverseTurns id) [id] []).getD []

def forgetSecondarySupersReaching (id : Nat) : Hierarchy :=
  if h.secondaries.filled = 0 then h
  else { h with secondaries := (h.reaching id).foldl PublishedSupers.forget h.secondaries }

/-- The edges of one class in `compute_secondary_supers`; `none` when the closure is too large. -/
def growClosure : (edges out stack : List Nat) → Option (List Nat × List Nat)
  | [], out, stack => some (out,stack)
  | v::edges, out, stack =>
    if v ∈ out then growClosure edges out stack
    else if out.length ≥ maxHierarchyDepth then none
    else growClosure edges (out++[v]) (v::stack)

/-- The loop over the stack; at most `maxHierarchyDepth` ids are pushed. -/
def closureLoop : (turns : Nat) → (out stack : List Nat) → Option (List Nat)
  | _, out, [] => some out
  | 0, _, _::_ => none
  | turns+1, out, n::stack =>
    match h.get n with
    | none => closureLoop turns out stack
    | some c =>
      match growClosure (edgesOf c) out stack with
      | none => none
      | some (out,stack) => closureLoop turns out stack

/-- The ids that can be reached, ascending; empty when they are too many. -/
def computeSecondarySupers (id : Nat) : List Nat :=
  match h.closureLoop maxHierarchyDepth [id] [id] with
  | none => []
  | some out => out.insertionSort (· ≤ ·)

def publishClosure (id : Nat) : Option Nat × Hierarchy :=
  let (enc,p) := h.secondaries.publish id (h.computeSecondarySupers id)
  (enc,{ h with secondaries := p })

def ensureSecondarySupersPublished (id : Nat) : Hierarchy :=
  if h.displayEnabled && h.secondaries.slotValue id = supersEmpty &&
      h.secondaries.canPublish id && (h.get id).isSome then
    (h.publishClosure id).2
  else h

end

section
def primaryDisplayVerdict (sub sup : Nat) : Option Bool :=
  if !h.displayEnabled then none
  else
    match h.displayAt sup, h.displayAt sub with
    | some t, some s =>
      if t.depth = 0 ∨ t.depth ≥ primaryDisplayLen then none
      else if s.depth ≥ t.depth ∧ s.supers[t.depth]? = some sup then some true
      else if h.deepInterfaceKeys ≠ ∅ ∨ (h.implementors sup).isSome then none
      else some false
    | _, _ => none

def secondarySupersVerdict (sub sup : Nat) : Option Bool × Hierarchy :=
  if !h.displayEnabled then (none,h)
  else
    let published := h.secondaries.slotValue sub
    if published ≠ supersEmpty then (h.secondaries.answer published sup,h)
    else if !h.secondaries.canPublish sub || (h.get sub).isNone then (none,h)
    else
      match h.publishClosure sub with
      | (none,h) => (none,h)
      | (some enc,h) => (h.secondaries.answer enc sup,h)

/-- The edges of one class in the walk: an edge to the target is matched before it is looked up. -/
def walkEdges (other : Nat) (walk : Nat → List Nat → Bool × List Nat) :
    (edges visited : List Nat) → Bool × List Nat
  | [], visited => (false,visited)
  | e::edges, visited =>
    if e = other then (true,visited)
    else if (h.get e).isSome then
      match walk e visited with
      | (true,visited) => (true,visited)
      | (false,visited) => walkEdges other walk edges visited
    else walkEdges other walk edges visited

/-- `is_subclass_of_inner`; the levels left before `MAX_HIERARCHY_DEPTH` is passed. -/
def isSubclassOfInner (other : Nat) : (levels : Nat) → (id : Nat) → (visited : List Nat) →
    Bool × List Nat
  | 0, _, visited => (false,visited)
  | levels+1, id, visited =>
    if id = other then (true,visited)
    else if id ∈ visited then (false,visited)
    else
      match h.get id with
      | none => (false,visited)
      | some c => h.walkEdges other (isSubclassOfInner other levels) (edgesOf c) (visited++[id])

def isSubclassOfWalk (id other : Nat) : Bool :=
  (h.isSubclassOfInner other (maxHierarchyDepth+1) id []).1

/-- The question about a class that is stored. -/
def isSubclassOf (id other : Nat) : Bool × Hierarchy :=
  if id = other then (true,h)
  else
    match h.primaryDisplayVerdict id other with
    | some verdict => (verdict,h.ensureSecondarySupersPublished id)
    | none =>
      match h.secondarySupersVerdict id other with
      | (some verdict,h) => (verdict,h)
      | (none,h) => (h.isSubclassOfWalk id other,h)

end

section
def nextId : Nat := h.classes.length

def setClass (id : Nat) (c : Option Class) : Hierarchy := { h with classes := h.classes.set id c }

def add (c : Class) : Hierarchy :=
  let id := h.nextId
  let h := { h with classes := h.classes++[some c] }
  let h := { h with subclasses := pushSuper h.subclasses c.superclass id }
  let h := { h with implementors := c.interfaces.foldl (linkSubtypeEdge · · id) h.implementors }
  let h := { h with displays := h.displays++[h.computeDisplay id] }
  let h := if (h.subclasses id).isSome then h.recomputeDisplaysBelow id else h
  let h :=
    if (h.subclasses id).isSome || (h.implementors id).isSome then
      h.forgetSecondarySupersReaching id
    else h
  (id::c.interfaces).foldl refreshDeepInterfaceKey h

def setSuperclass (id : Nat) (newSuper : Option Nat) : Hierarchy :=
  match h.get id with
  | none => h
  | some c =>
    if c.superclass = newSuper then h
    else
      let h := h.setClass id (some { c with superclass := newSuper })
      let h := h.forgetSecondarySupersReaching id
      let h := { h with subclasses := unlinkSuper h.subclasses c.superclass id h.sortedUnlink }
      let h := { h with subclasses := linkSuper h.subclasses newSuper id }
      (h.recomputeDisplayAt id).recomputeDisplaysBelow id

def setInterfaces (id : Nat) (newInterfaces : List Nat) : Hierarchy :=
  match h.get id with
  | none => h
  | some c =>
    if c.interfaces = newInterfaces then h
    else
      let old := c.interfaces
      let h := h.setClass id (some { c with interfaces := newInterfaces })
      let h := h.forgetSecondarySupersReaching id
      let implementors := (old.filter (· ∉ newInterfaces)).foldl
        (unlinkSubtypeEdgeWith · · id false) h.implementors
      let implementors := newInterfaces.foldl (linkSubtypeEdge · · id) implementors
      (old++newInterfaces).foldl refreshDeepInterfaceKey { h with implementors := implementors }

/-- The displays of a class that goes, and of the classes below it. -/
def dropDisplays (id : Nat) : Hierarchy :=
  (h.descendantsOf id).foldl (fun h d => (h.setDisplay d none).refreshDeepInterfaceKey d)
    (h.setDisplay id none)

def remove (id : Nat) : Hierarchy :=
  match h.get id with
  | none => h
  | some c =>
    let h := h.setClass id none
    let h := h.forgetSecondarySupersReaching id
    let h := h.dropDisplays id
    let h := { h with subclasses := unlinkSuper h.subclasses c.superclass id h.sortedUnlink }
    let h := { h with subclasses := setKey h.subclasses id none }
    let implementors := c.interfaces.foldl
      (unlinkSubtypeEdgeWith · · id h.sortedUnlink) h.implementors
    let h := { h with implementors := setKey implementors id none }
    (id::c.interfaces).foldl refreshDeepInterfaceKey h

end
end Hierarchy
end CratonVM.ClassLoading
