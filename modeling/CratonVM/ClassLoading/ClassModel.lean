import Mathlib


/-!
Classes as the hierarchy walks read them (`classloading/src/class.rs`): the store of classes by
id, their declared methods and where they come from.
-/
namespace CratonVM.ClassLoading
abbrev ClassId := Nat

inductive ClassLoaderId where
  | bootstrap
  | extension_
  | application
  | userDefined (id : Nat)
  deriving DecidableEq, Repr

/-- Where a class comes from. The payloads, which only reports read, are left out. -/
inductive ClassOrigin where
  | bootImage
  | applicationClassPath
  | userDefined
  | vmArray
  | hiddenClass
  | generatedLambda
  | generatedProxy
  | reflectionAccessor
  | vmInternal
  | compatibilityStub
  deriving DecidableEq, Repr

def ClassOrigin.hasRealBytes : ClassOrigin → Bool
  | .bootImage | .applicationClassPath | .userDefined | .hiddenClass => true
  | _ => false

/-- The access flags the walks look at. They are bits of one word in a class file, so that no
combination is excluded. -/
structure MethodAccessFlags where
  isPublic : Bool := false
  isPrivate : Bool := false
  isProtected : Bool := false
  isStatic : Bool := false
  isAbstract : Bool := false
  deriving DecidableEq, Repr

structure ClassFileMethod where
  name : String
  descriptor : String
  accessFlags : MethodAccessFlags
  deriving DecidableEq, Repr

namespace ClassFileMethod
variable (m : ClassFileMethod)

def isPublic : Bool := m.accessFlags.isPublic

def isPrivate : Bool := m.accessFlags.isPrivate

def isProtected : Bool := m.accessFlags.isProtected

def isStatic : Bool := m.accessFlags.isStatic

def isAbstract : Bool := m.accessFlags.isAbstract

end ClassFileMethod

structure Class where
  name : List Char
  loaderId : ClassLoaderId := .application
  superclass : Option ClassId := none
  interfaces : List ClassId := []
  methods : List ClassFileMethod := []
  isInterface : Bool := false
  isAbstract : Bool := false
  isHidden : Bool := false
  origin : ClassOrigin := .applicationClassPath
  deriving DecidableEq, Repr

def Class.findMethod (c : Class) (name descriptor : String) : Option ClassFileMethod :=
  c.methods.find? fun m => m.name = name ∧ m.descriptor = descriptor

theorem Class.findMethod_sig {c : Class} {name descriptor : String} {m : ClassFileMethod}
    (h : c.findMethod name descriptor = some m) : m.name = name ∧ m.descriptor = descriptor := by
  simpa using List.find?_some h

structure ClassStore where
  classes : List (Option Class) := []
  overridePackagesByLoader : Bool := false
  splitBootPackages : List (List Char) := []
  deriving DecidableEq, Repr

namespace ClassStore
variable (store : ClassStore)

def get (id : ClassId) : Option Class := store.classes[id]?.join

def isSplitBootPackage (package : List Char) : Bool := store.splitBootPackages.contains package

end ClassStore

abbrev Declared := ClassFileMethod × ClassId

section
variable (store : ClassStore) (sup : ClassId)

/-- The top of the stack is its head; ids already seen are popped without a turn. -/
def subinterfaceLoop : (fuel : Nat) → (stack seen : List ClassId) → Option Bool
  | fuel, stack, seen =>
    match stack.dropWhile fun id => id ≠ sup ∧ id ∈ seen with
    | [] => some false
    | id::stack =>
      if id = sup then some true
      else
        match fuel with
        | 0 => none
        | fuel+1 =>
          match store.get id with
          | none => subinterfaceLoop fuel stack (id::seen)
          | some c => subinterfaceLoop fuel (c.interfaces.reverse++stack) (id::seen)

def isStrictSubinterface (fuel : Nat) (sub : ClassId) : Option Bool :=
  if sub = sup then some false
  else
    match store.get sub with
    | none => some false
    | some c => subinterfaceLoop store sup fuel c.interfaces.reverse []

end

section
variable (store : ClassStore) (name descriptor : String)

/-- What the walk of the chain ends with: a method that is not abstract, or the first abstract one
there was. -/
inductive ChainHit where
  | concrete (hit : Declared)
  | fallback (first : Option Declared)
  deriving DecidableEq, Repr

def findOnChain : (fuel : Nat) → (id : ClassId) → (fallback : Option Declared) → Option ChainHit
  | 0, _, _ => none
  | fuel+1, id, fallback =>
    match store.get id with
    | none => some (.fallback fallback)
    | some c =>
      let next (fallback : Option Declared) :=
        match c.superclass with
        | some sc => findOnChain fuel sc fallback
        | none => some (.fallback fallback)
      match c.findMethod name descriptor with
      | some m => if m.isAbstract then next (fallback.or (some (m,id))) else some (.concrete (m,id))
      | none => next fallback

def interfaceQueue : (fuel : Nat) → (id : ClassId) → (queue : List ClassId) → Option (List ClassId)
  | 0, _, _ => none
  | fuel+1, id, queue =>
    match store.get id with
    | none => some queue
    | some c =>
      let queue := queue++(if c.isInterface then [id] else [])++c.interfaces
      match c.superclass with
      | some sc => interfaceQueue fuel sc queue
      | none => some queue

/-- The breadth first search: the default methods in order, and the abstract fallback. -/
def collectDefaults : (fuel : Nat) → (queue visited : List ClassId) → (defaults : List Declared) →
    (fallback : Option Declared) → Option (List Declared × Option Declared)
  | fuel, queue, visited, defaults, fallback =>
    match queue.dropWhile (· ∈ visited) with
    | [] => some (defaults,fallback)
    | iface::queue =>
      match fuel with
      | 0 => none
      | fuel+1 =>
        match store.get iface with
        | none => collectDefaults fuel queue (iface::visited) defaults fallback
        | some c =>
          let queue := queue++c.interfaces
          match c.findMethod name descriptor with
          | none => collectDefaults fuel queue (iface::visited) defaults fallback
          | some m =>
            if m.isStatic then collectDefaults fuel queue (iface::visited) defaults fallback
            else if m.isAbstract then
              collectDefaults fuel queue (iface::visited) defaults (fallback.or (some (m,iface)))
            else collectDefaults fuel queue (iface::visited) (defaults++[(m,iface)]) fallback

/-- Is one of the candidates declared in a strict subinterface? -/
def superseded (fuel : Nat) (id : ClassId) : List Declared → Option Bool
  | [] => some false
  | (_,other)::rest =>
    if other ≠ id then
      match isStrictSubinterface store id fuel other with
      | none => none
      | some true => some true
      | some false => superseded fuel id rest
    else superseded fuel id rest

/-- The first candidate that is not superseded, else the first one. -/
def firstMaximal (fuel : Nat) (all : List Declared) : List Declared → Option (Option Declared)
  | [] => some all.head?
  | candidate::rest =>
    match superseded store fuel candidate.2 all with
    | none => none
    | some false => some (some candidate)
    | some true => firstMaximal fuel all rest

def findMethodRecursive (fuel : Nat) (classId : ClassId) : Option (Option Declared) :=
  match findOnChain store name descriptor fuel classId none with
  | none => none
  | some (.concrete hit) => some (some hit)
  | some (.fallback fallback) =>
    match interfaceQueue store fuel classId [] with
    | none => none
    | some queue =>
      match collectDefaults store name descriptor fuel queue [] [] fallback with
      | none => none
      | some ([],fallback) => some fallback
      | some ([candidate],_) => some (some candidate)
      | some (candidates,_) => firstMaximal store fuel candidates candidates

end

def overrideWalkBudget : Nat := 512

def beforeLastSlash (name : List Char) : Option (List Char) :=
  if '/' ∈ name then some ((name.reverse.dropWhile (· ≠ '/')).drop 1).reverse else none

def packageOf (name : List Char) : List Char := (beforeLastSlash name).getD []

/-- A hidden class is named `<binary name>/<suffix>`; the suffix is cut first. -/
def classPackage (c : Class) : List Char :=
  if c.isHidden then
    match beforeLastSlash c.name with
    | some host => packageOf host
    | none => packageOf c.name
  else packageOf c.name

def sameRuntimePackage (a b : Class) : Bool := classPackage a = classPackage b

/-- The three built-in loaders are not told apart. -/
def sameLoaderForOverride : ClassLoaderId → ClassLoaderId → Bool
  | .userDefined x, .userDefined y => x = y
  | .userDefined _, _ => false
  | _, .userDefined _ => false
  | _, _ => true

def sameDefiningLoaderIn (store : ClassStore) (a b : ClassLoaderId) (package : List Char) : Bool :=
  match a, b with
  | .bootstrap, .application => !store.isSplitBootPackage package
  | .bootstrap, .extension_ => !store.isSplitBootPackage package
  | .application, .bootstrap => !store.isSplitBootPackage package
  | .extension_, .bootstrap => !store.isSplitBootPackage package
  | x, y => sameLoaderForOverride x y

def sameLoaderForOverrideIn (store : ClassStore) (a b : Class) : Bool :=
  sameDefiningLoaderIn store a.loaderId b.loaderId (classPackage a)

def sameRuntimePackageForOverride (store : ClassStore) (a b : Class) : Bool :=
  sameRuntimePackage a b && (!store.overridePackagesByLoader || sameLoaderForOverrideIn store a b)

theorem sameRuntimePackageForOverride_self (store : ClassStore) (c : Class) :
    sameRuntimePackageForOverride store c c = true := by
  have hloader : sameLoaderForOverrideIn store c c = true := by
    unfold sameLoaderForOverrideIn
    cases c.loaderId <;> simp [sameDefiningLoaderIn,sameLoaderForOverride]
  simp [sameRuntimePackageForOverride,sameRuntimePackage,hloader]

/-- An answer and the budget that is left, or `none` where the recursion is cut off. -/
abbrev Answer := Option (Bool × Nat)

mutual

/-- `can_override`, with a bound on the depth of the recursion. -/
def canOverrideWith (store : ClassStore) : (fuel : Nat) → (mc : ClassFileMethod) →
    (cId : ClassId) → (ma : ClassFileMethod) → (aId : ClassId) → (budget : Nat) → Answer
  | 0, _, _, _, _, _ => none
  | fuel+1, mc, cId, ma, aId, budget =>
    if mc.isPrivate || mc.isStatic || ma.isPrivate then some (false,budget)
    else if ma.isPublic || ma.isProtected then some (true,budget)
    else
      match store.get cId, store.get aId with
      | some c, some a =>
        if sameRuntimePackageForOverride store c a then some (true,budget)
        else betweenWith store fuel mc cId ma aId c.superclass budget
      | _, _ => some (true,budget)
termination_by structural fuel => fuel

/-- The loop over the classes strictly between. -/
def betweenWith (store : ClassStore) : (fuel : Nat) → (mc : ClassFileMethod) → (cId : ClassId) →
    (ma : ClassFileMethod) → (aId : ClassId) → (cur : Option ClassId) → (budget : Nat) → Answer
  | 0, _, _, _, _, _, _ => none
  | _+1, _, _, _, _, none, budget => some (false,budget)
  | fuel+1, mc, cId, ma, aId, some bId, budget =>
    if bId = aId then some (false,budget)
    else
      match budget with
      | 0 => some (true,0)
      | budget+1 =>
        match store.get bId with
        | none => some (true,budget)
        | some b =>
          match b.findMethod ma.name ma.descriptor with
          | none => betweenWith store fuel mc cId ma aId b.superclass budget
          | some mb =>
            match canOverrideWith store fuel mb bId ma aId budget with
            | none => none
            | some (false,budget) => betweenWith store fuel mc cId ma aId b.superclass budget
            | some (true,budget) =>
              match canOverrideWith store fuel mc cId mb bId budget with
              | none => none
              | some (true,budget) => some (true,budget)
              | some (false,budget) => betweenWith store fuel mc cId ma aId b.superclass budget
termination_by structural fuel => fuel

end

/-- A step of the budget allows one more level, each made of a question and a loop. -/
def canOverride (store : ClassStore) (mc : ClassFileMethod) (cId : ClassId) (ma : ClassFileMethod)
    (aId : ClassId) (budget : Nat) : Answer :=
  canOverrideWith store (2*budget+2) mc cId ma aId budget

theorem canOverride_self {store : ClassStore} {m : ClassFileMethod} {id : ClassId} {c : Class}
    (hc : store.get id = some c) (hpriv : m.isPrivate = false) (hstatic : m.isStatic = false)
    (budget : Nat) : canOverride store m id m id budget = some (true,budget) := by
  rw [canOverride,canOverrideWith]
  simp only [hpriv,hstatic,hc,sameRuntimePackageForOverride_self,Bool.or_self,Bool.false_eq_true,
    if_false,if_true]
  split <;> rfl

theorem canOverride_visible {store : ClassStore} {m ma : ClassFileMethod} {id aId : ClassId}
    (hpriv : m.isPrivate = false) (hstatic : m.isStatic = false) (hma : ma.isPrivate = false)
    (hvis : (ma.isPublic || ma.isProtected) = true) (budget : Nat) :
    canOverride store m id ma aId budget = some (true,budget) := by
  rw [canOverride,canOverrideWith]
  simp only [hpriv,hstatic,hma,hvis,Bool.or_self,Bool.false_eq_true,if_false,if_true]

end CratonVM.ClassLoading
