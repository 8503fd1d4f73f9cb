import CratonVM.ClassLoading.ClassModel

/-!
Method selection (`vm/src/runtime/resolve/selection.rs`): resolution to a declaring class, JVMS
5.4.6 as `select_uncached` walks it, and the doors that refine the lenient lookup with it. `select`
and `hierarchy_is_real` answer from memos of the functions here.
-/
namespace CratonVM.Runtime
open ClassLoading

def maxSelectionNodes : Nat := 512

inductive Selection where
  | selected (id : ClassId)
  | abstractMethod (id : Option ClassId)
  | conflictingDefaults (first second : ClassId)
  | notPublic (id : ClassId)
  | lenient
  deriving DecidableEq, Repr

inductive ResolvedRef where
  | declared (id : ClassId)
  | interface (id : Option ClassId)
  deriving DecidableEq, Repr

variable (store : ClassStore)

section
/-- The loop of `hierarchy_is_real_walk`; what is left of the nodes it may see. Ids already seen
are popped without a turn. -/
def realLoop : (left : Nat) → (stack seen : List ClassId) → Bool
  | left, stack, seen =>
    match stack.dropWhile (· ∈ seen) with
    | [] => true
    | id::stack =>
      match left with
      | 0 => false
      | left+1 =>
        match store.get id with
        | none => false
        | some c =>
          if c.origin.hasRealBytes then
            realLoop left (c.interfaces.reverse++c.superclass.toList++stack) (id::seen)
          else false

def hierarchyIsReal (start : ClassId) : Bool := realLoop store maxSelectionNodes [start] []

/-- Depth first, a class's superclass before its interfaces, these in their order. -/
def closureLoop (start : ClassId) : (left : Nat) → (stack visited out : List ClassId) →
    Option (List ClassId)
  | left, stack, visited, out =>
    match stack.dropWhile (· ∈ visited) with
    | [] => some out
    | id::stack =>
      match left with
      | 0 => none
      | left+1 =>
        match store.get id with
        | none => none
        | some c =>
          let out := if id ≠ start ∧ c.isInterface then out++[id] else out
          let stack := c.interfaces++stack
          let stack := if c.isInterface then stack else c.superclass.toList++stack
          closureLoop start left stack (id::visited) out

def superinterfaceClosure (start : ClassId) : Option (List ClassId) :=
  closureLoop store start maxSelectionNodes [start] [] []

/-- Once the nodes are used up nothing more is expanded, but what is on the stack is compared. -/
def superinterfaceLoop (sup : ClassId) : (left : Nat) → (stack seen : List ClassId) → Bool
  | left, stack, seen =>
    match stack.dropWhile fun id => id ≠ sup ∧ id ∈ seen with
    | [] => false
    | id::stack =>
      if id = sup then true
      else
        match left with
        | 0 => stack.contains sup
        | left+1 =>
          match store.get id with
          | none => superinterfaceLoop sup left stack (id::seen)
          | some c => superinterfaceLoop sup left (c.interfaces.reverse++stack) (id::seen)

def isSuperinterfaceOf (sup sub : ClassId) : Bool :=
  match store.get sub with
  | none => false
  | some c => superinterfaceLoop store sup maxSelectionNodes c.interfaces.reverse []

end

section
variable (name descriptor : String)

def candidateAt (id : ClassId) : Option (ClassId × Bool) :=
  match store.get id with
  | none => none
  | some c =>
    match c.findMethod name descriptor with
    | none => none
    | some m => if m.isPrivate || m.isStatic then none else some (id,m.isAbstract)

def maximallySpecific (start : ClassId) : Option (List (ClassId × Bool)) :=
  match superinterfaceClosure store start with
  | none => none
  | some closure =>
    let candidates := closure.filterMap (candidateAt store name descriptor)
    some (candidates.filter fun (id,_) =>
      !candidates.any fun (other,_) => other ≠ id ∧ isSuperinterfaceOf store id other)

def resolveOnChain : (left : Nat) → Option ClassId → Option (Option ClassId)
  | _, none => some none
  | 0, some _ => none
  | left+1, some id =>
    match store.get id with
    | none => none
    | some c =>
      match c.findMethod name descriptor with
      | some _ => some (some id)
      | none => resolveOnChain left c.superclass

def resolveMaximal (owner : ClassId) : Option ClassId :=
  match maximallySpecific store name descriptor owner with
  | none => none
  | some maximal => ((maximal.find? fun (_,isAbstract) => !isAbstract).or maximal.head?).map Prod.fst

def resolveDeclaring (owner : ClassId) : Option ClassId :=
  match store.get owner with
  | none => none
  | some c =>
    if c.isInterface then
      if (c.findMethod name descriptor).isSome then some owner
      else
        -- a public instance method of the root class
        match c.superclass with
        | none => resolveMaximal store name descriptor owner
        | some objectId =>
          match (store.get objectId).bind (Class.findMethod · name descriptor) with
          | none => resolveMaximal store name descriptor owner
          | some m =>
            if m.isPublic && !m.isStatic then some objectId
            else resolveMaximal store name descriptor owner
    else
      match resolveOnChain store name descriptor maxSelectionNodes (some owner) with
      | none => none
      | some (some id) => some id
      | some none => resolveMaximal store name descriptor owner

def resolvedRefForOwner (owner : ClassId) : Option ResolvedRef :=
  match store.get owner with
  | none => none
  | some c =>
    if c.isInterface then some (.interface (some owner))
    else (resolveDeclaring store name descriptor owner).map .declared

end

section
variable (name descriptor : String)

/-- Does a method of the chain override the resolved one? With an interface reference every
instance method that is not private does. -/
def overridesResolved (resolved : Option Declared) (m : ClassFileMethod) (id : ClassId) : Bool :=
  !m.isStatic && !m.isPrivate &&
    match resolved with
    | some (ma,aId) => (canOverride store m id ma aId maxSelectionNodes).any Prod.fst
    | none => true

inductive ChainSelection where
  | taken (m : ClassFileMethod) (id : ClassId)
  | passed
  | undecided
  deriving DecidableEq, Repr

/-- The receiver's class and then its superclasses. -/
def selectOnChain (resolved : Option Declared) : (left : Nat) → Option ClassId → ChainSelection
  | _, none => .passed
  | 0, some _ => .undecided
  | left+1, some id =>
    match store.get id with
    | none => .undecided
    | some c =>
      match c.findMethod name descriptor with
      | none => selectOnChain resolved left c.superclass
      | some m =>
        if overridesResolved store resolved m id then .taken m id
        else selectOnChain resolved left c.superclass

def selectMaximal (maximal : List (ClassId × Bool)) : Selection :=
  match maximal.filter fun (_,isAbstract) => !isAbstract with
  | [] => .abstractMethod none
  | [(only,_)] => .selected only
  | (first,_)::(second,_)::_ => .conflictingDefaults first second

/-- The second and third step, for a resolved method that is not private. -/
def selectFrom (receiver : ClassId) (resolved : Option Declared) : Selection :=
  if hierarchyIsReal store receiver then
    match selectOnChain store name descriptor resolved maxSelectionNodes (some receiver) with
    | .undecided => .lenient
    | .taken m id =>
      if resolved = none ∧ ¬m.isPublic then .notPublic id
      else if m.isAbstract then .abstractMethod (some id)
      else .selected id
    | .passed =>
      match maximallySpecific store name descriptor receiver with
      | none => .lenient
      | some maximal => selectMaximal maximal
  else .lenient

def selectUncached (receiver : ClassId) (resolved : ResolvedRef) : Selection :=
  match store.get receiver with
  | none => .lenient
  | some c =>
    if c.isInterface || c.isAbstract then .lenient
    else
      match resolved with
      | .interface _ => selectFrom store name descriptor receiver none
      | .declared declaring =>
        match store.get declaring with
        | none => .lenient
        | some d =>
          if !d.origin.hasRealBytes then .lenient
          else
            match d.findMethod name descriptor with
            | none => .lenient
            | some m =>
              if m.isStatic then .lenient
              else if m.isPrivate then .selected declaring
              else selectFrom store name descriptor receiver (some (m,declaring))

end

section
variable (name descriptor : String) (receiver owner : ClassId)

def isInterfaceClass (id : ClassId) : Bool := (store.get id).any Class.isInterface

def isPlainClass (id : ClassId) : Bool := (store.get id).any fun c => !c.isInterface

def lenientIsTheSelection (lenient : Option Declared) : Bool :=
  match lenient with
  | none => false
  | some (m,declaring) =>
    isInterfaceClass store owner && isPlainClass store declaring && m.isPublic && !m.isStatic &&
      !m.isAbstract

/-- The fast accepts of `refine_lenient_selection_for`. -/
def agrees (resolved : ResolvedRef) (lenient : Option Declared) : Bool :=
  match resolved, lenient with
  | .declared declared, some (_,found) => declared = found
  | .interface _, some (m,found) =>
    isPlainClass store found && m.isPublic && !m.isStatic && !m.isAbstract
  | _, none => false

def methodAt (id : ClassId) : Option Declared :=
  ((store.get id).bind (Class.findMethod · name descriptor)).map fun m => (m,id)

def refineLenientSelectionFor (resolved : ResolvedRef) (lenient : Option Declared) :
    Option Declared :=
  if agrees store resolved lenient then lenient
  else
    match selectUncached store name descriptor receiver resolved with
    | .selected declaring => (methodAt store name descriptor declaring).or lenient
    | _ => lenient

def refineLenientSelection (lenient : Option Declared) : Option Declared :=
  if lenientIsTheSelection store owner lenient then lenient
  else
    match resolvedRefForOwner store name descriptor owner with
    | none => lenient
    | some resolved => refineLenientSelectionFor store name descriptor receiver resolved lenient

/-- The last fast accept of `walk_selection_moves_to`: the resolved method is public or protected
and the walk's hit an instance method of a class. -/
def visibleAccept (declared : ClassId) (m : ClassFileMethod) (found : ClassId) : Bool :=
  (((store.get declared).bind (Class.findMethod · name descriptor)).any fun ma =>
      !ma.isStatic && (ma.isPublic || ma.isProtected)) &&
    isPlainClass store found && !m.isPrivate && !m.isStatic && !m.isAbstract

def walkSelectionMovesTo (lenient : Option Declared) : Option ClassId :=
  match lenient with
  | none => none
  | some (m,found) =>
    if lenientIsTheSelection store owner lenient then none
    else
      match resolvedRefForOwner store name descriptor owner with
      | none => none
      | some resolved =>
        let accepted :=
          match resolved with
          | .declared declared =>
            declared = found || visibleAccept store name descriptor declared m found
          | .interface _ => false
        if accepted then none
        else
          match refineLenientSelectionFor store name descriptor receiver resolved lenient with
          | none => none
          | some (_,selected) => if selected ≠ found then some selected else none

end
end CratonVM.Runtime
