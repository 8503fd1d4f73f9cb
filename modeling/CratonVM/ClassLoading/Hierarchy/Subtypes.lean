import CratonVM.ClassLoading.Hierarchy.Histories

/-!
The two walks down the reverse indices, `descendants_of` and `subtypes_of`, after every history of a
store.
-/
namespace CratonVM.ClassLoading
open LevelSearch List Option

namespace Hierarchy
variable (h : Hierarchy)

/-- One level of `subtypes_of`; `none` when there are more classes than the limit. -/
def visitSubtypes (limit : Nat) : (frontier out seen next : List Nat) →
    Option (List Nat × List Nat × List Nat)
  | [], out, seen, next => some (out,seen,next)
  | cid::frontier, out, seen, next =>
    if cid ∈ seen then visitSubtypes limit frontier out seen next
    else if out.length ≥ limit then none
    else visitSubtypes limit frontier (out++[cid]) (cid::seen) (next++h.childrenOf cid)

def subtypesLoop (limit : Nat) : (levels : Nat) → (frontier out seen : List Nat) → Option (List Nat)
  | levels, frontier, out, seen =>
    if frontier = [] then some out
    else
      match levels with
      | 0 => none
      | levels+1 =>
        match h.visitSubtypes limit frontier out seen [] with
        | none => none
        | some (out,seen,next) => subtypesLoop limit levels next out seen

def subtypesOf (id limit : Nat) : Option (List Nat) :=
  if (kidsOf h.subclasses id).length+(kidsOf h.implementors id).length > limit then none
  else h.subtypesLoop limit maxHierarchyDepth (h.childrenOf id) [] [id]

end Hierarchy

open Hierarchy

/-- The second class is so many edges, to superclasses or interfaces, below the first. -/
inductive Under (g : Stored) (top : Nat) : Nat → Nat → Prop where
  | self : Under g top 0 top
  | down {k x y : Nat} (h : Under g top k y) (hxy : Edge g x y) : Under g top (k+1) x

section
variable (h : Hierarchy) (id limit : Nat)

/-- The classes below an id. -/
def subtypes : Set Nat := {x | x ≠ id ∧ (h.get x).isSome = true ∧ Reaches h.get x id}

def namedTwice : Set Nat := {x | SuperEdge h.get x id ∧ InterfaceEdge h.get x id}

def namesItself : Set Nat := {x | x = id ∧ Edge h.get x id}

structure SubtypesAnswer : Prop where
  listed : ∀ v, h.subtypesOf id limit = some v → v.Nodup ∧ ∀ x, x ∈ v ↔ x ∈ subtypes h id
  refused : h.subtypesOf id limit = none →
    limit < (subtypes h id).encard+(namedTwice h id).encard+(namesItself h id).encard ∨
      ∃ x k, x ∈ subtypes h id ∧ maxHierarchyDepth < k ∧ Under h.get id k x

structure DescendantsAnswer : Prop where
  once : (h.descendantsOf id).Nodup
  listed : ∀ x, x ∈ h.descendantsOf id ↔
    x ≠ id ∧ ∃ k, k ≤ maxHierarchyDepth ∧ Below h.get id k x
  order : ∀ (i x p : Nat), (h.descendantsOf id)[i]? = some x → SuperEdge h.get x p →
    p ∈ h.descendantsOf id → ∃ j, j < i ∧ (h.descendantsOf id)[j]? = some p

end

variable {g : Stored} {h : Hierarchy} {id : Nat}

section
theorem under_of_deep (he : EdgesExact g h) {k x : Nat} (hd : Deep h.childrenOf id k x) :
    Under g id k x := by
  induction hd with
  | self => exact .self
  | down _ hy ih => exact .down ih ((children_of_edge he).mp hy)

theorem Under.reaches {k x : Nat} (hu : Under g id k x) : Reaches g x id := by
  induction hu with
  | self => exact .refl
  | down _ hxy ih => exact .head hxy ih

theorem deep_of_reaches (he : EdgesExact g h) {x : Nat} (hr : Reaches g x id) :
    ∃ k, Deep h.childrenOf id k x := by
  induction hr using Relation.ReflTransGen.head_induction_on with
  | refl => exact ⟨0,.self⟩
  | head hxy _ ih =>
    obtain ⟨k,hk⟩ := ih
    exact ⟨k+1,.down hk ((children_of_edge he).mpr hxy)⟩

theorem below_of_deep (hidx : Indexed (SuperEdge g) h.subclasses) {k x : Nat}
    (hd : Deep (kidsOf h.subclasses) id k x) : Below g id k x := by
  induction hd with
  | self => exact .self
  | down _ hy ih => exact .down ih (((hidx _).2 _).mp hy)

end

section
theorem visitLevel_levels {frontier out seen next : List Nat} {d : Nat}
    (hl : Levels (kidsOf h.subclasses) id d frontier next out seen) :
    Levels (kidsOf h.subclasses) id d [] (h.visitLevel frontier out seen next).2.2
      (h.visitLevel frontier out seen next).1 (h.visitLevel frontier out seen next).2.1 := by
  induction frontier generalizing out seen next with
  | nil => exact hl
  | cons cid frontier ih => ?_
  rw [visitLevel]
  split
  · rename_i hseen
    exact ih (hl.skip hseen)
  rename_i hnew
  exact ih (hl.visit hnew)

theorem descendLoop_found {levels d : Nat} {frontier out seen : List Nat}
    (hl : Levels (kidsOf h.subclasses) id d frontier [] out seen)
    (hdepth : ∀ x ∈ out, ∃ k, k ≤ d ∧ Deep (kidsOf h.subclasses) id k x) :
    (h.descendLoop levels frontier out seen).Nodup ∧ id ∉ h.descendLoop levels frontier out seen ∧
      ∀ x ∈ h.descendLoop levels frontier out seen,
        ∃ k, k ≤ d+levels ∧ Deep (kidsOf h.subclasses) id k x := by
  induction levels generalizing d frontier out seen with
  | zero => exact ⟨hl.nodup,hl.top_out,hdepth⟩
  | succ levels ih => ?_
  rw [descendLoop]
  split
  · refine ⟨hl.nodup,hl.top_out,fun x hx => ?_⟩
    obtain ⟨k,hk,hd⟩ := hdepth x hx
    exact ⟨k,by omega,hd⟩
  have hvisited := visitLevel_levels hl
  obtain ⟨h1,h2,h3⟩ := ih hvisited.turn hvisited.depth
  refine ⟨h1,h2,fun x hx => ?_⟩
  obtain ⟨k,hk,hd⟩ := h3 x hx
  exact ⟨k,by omega,hd⟩

theorem superEdge_unique {x p q : Nat} (hp : SuperEdge g x p) (hq : SuperEdge g x q) : p = q := by
  obtain ⟨c,hc,hs⟩ := hp
  obtain ⟨c',hc',hs'⟩ := hq
  obtain rfl := some.inj (hc.symm.trans hc')
  exact some.inj (hs.symm.trans hs')

theorem ParentFirst.parent {top : Nat} {out : List Nat} (hp : ParentFirst g top out) {i x p : Nat}
    (hx : out[i]? = some x) (hxp : SuperEdge g x p) : p = top ∨ ∃ j, j < i ∧ out[j]? = some p := by
  induction hp generalizing i with
  | nil => simp at hx
  | @snoc out y q hp hyq hq ih => ?_
  rcases Nat.lt_trichotomy i out.length with hi | rfl | hi
  · rw [getElem?_append_left hi] at hx
    refine (ih hx).imp_right ?_
    rintro ⟨j,hj,hjp⟩
    exact ⟨j,hj,by rw [getElem?_append_left (by omega)]; exact hjp⟩
  · obtain rfl : y = x := by simpa using hx
    obtain rfl := superEdge_unique hyq hxp
    refine hq.imp_right fun hq => ?_
    obtain ⟨j,hj⟩ := getElem?_of_mem hq
    have hlt := (List.getElem?_eq_some_iff.mp hj).1
    exact ⟨j,hlt,by rw [getElem?_append_left hlt]; exact hj⟩
  rw [getElem?_eq_none (by simp; omega)] at hx
  cases hx

theorem descendants_answer (he : EdgesExact h.get h) (id : Nat) : DescendantsAnswer h id := by
  obtain ⟨hnd,htop,hdepth⟩ := @descendLoop_found h id maxHierarchyDepth 0 _ [] [id]
    (levels_start (kidsOf h.subclasses) id) (by simp)
  refine ⟨hnd,fun x => ⟨fun hx => ?_,?_⟩,fun i x p hx hxp hmem => ?_⟩
  · obtain ⟨k,hk,hd⟩ := hdepth x hx
    exact ⟨fun heq => htop (heq ▸ hx),k,by omega,below_of_deep he.supers hd⟩
  · rintro ⟨hne,k,hk,hbelow⟩
    exact (mem_descendantsOf he.supers hk hbelow).resolve_left hne
  refine ((descendantsOf_parentFirst he.supers).parent hx hxp).resolve_left ?_
  rintro rfl
  exact htop hmem

end

section
/-- More classes than the limit are below. -/
def TooMany (h : Hierarchy) (id limit : Nat) : Prop :=
  ∃ l : List Nat, l.Nodup ∧ limit < l.length ∧ ∀ x ∈ l, x ≠ id ∧ ∃ k, Deep h.childrenOf id k x

theorem visitSubtypes_levels {limit d : Nat} {frontier out seen next : List Nat}
    (hl : Levels h.childrenOf id d frontier next out seen) :
    match h.visitSubtypes limit frontier out seen next with
    | none => TooMany h id limit
    | some (out,seen,next) => Levels h.childrenOf id d [] next out seen := by
  induction frontier generalizing out seen next with
  | nil => exact hl
  | cons cid frontier ih => ?_
  rw [visitSubtypes]
  by_cases hseen : cid ∈ seen
  · rw [if_pos hseen]
    exact ih (hl.skip hseen)
  rw [if_neg hseen]
  have hvisit := hl.visit hseen
  by_cases hlimit : out.length ≥ limit
  · rw [if_pos hlimit]
    refine ⟨out++[cid],hvisit.nodup,by simp; omega,fun x hx => ⟨?_,?_⟩⟩
    · rintro rfl
      exact hvisit.top_out hx
    obtain ⟨k,-,hd⟩ := hvisit.depth x hx
    exact ⟨k,hd⟩
  rw [if_neg hlimit]
  exact ih hvisit

theorem levels_found {d : Nat} {out seen : List Nat}
    (hl : Levels h.childrenOf id d [] [] out seen) :
    out.Nodup ∧ ∀ x, x ∈ out ↔ x ≠ id ∧ ∃ k, Deep h.childrenOf id k x := by
  refine ⟨hl.nodup,fun x => ⟨fun hx => ⟨?_,?_⟩,?_⟩⟩
  · rintro rfl
    exact hl.top_out hx
  · obtain ⟨k,-,hd⟩ := hl.depth x hx
    exact ⟨k,hd⟩
  rintro ⟨hne,k,hd⟩
  exact (hl.complete hd).resolve_left hne

theorem subtypesLoop_answer {limit levels d : Nat} {frontier out seen : List Nat}
    (hlevels : d+levels = maxHierarchyDepth)
    (hl : Levels h.childrenOf id d frontier [] out seen) :
    match h.subtypesLoop limit levels frontier out seen with
    | none => TooMany h id limit ∨
        ∃ x k, x ≠ id ∧ maxHierarchyDepth < k ∧ Deep h.childrenOf id k x
    | some v => v.Nodup ∧ ∀ x, x ∈ v ↔ x ≠ id ∧ ∃ k, Deep h.childrenOf id k x := by
  induction levels generalizing d frontier out seen with
  | zero =>
    rw [subtypesLoop]
    by_cases hnil : frontier = []
    · subst hnil
      exact levels_found hl
    rw [if_neg hnil]
    obtain ⟨d,rfl⟩ : ∃ e, d = e+1 := ⟨d-1,by simp [maxHierarchyDepth] at hlevels; omega⟩
    rw [← hlevels]
    exact .inr (hl.deeper hnil)
  | succ levels ih => ?_
  rw [subtypesLoop]
  by_cases hnil : frontier = []
  · subst hnil
    exact levels_found hl
  rw [if_neg hnil]
  have hvisit := @visitSubtypes_levels h id limit d frontier out seen [] hl
  cases hv : h.visitSubtypes limit frontier out seen [] with
  | none =>
    rw [hv] at hvisit
    exact .inl hvisit
  | some r =>
    rw [hv] at hvisit
    exact ih (by omega) hvisit.turn

theorem mem_subtypes (he : EdgesExact h.get h) {x : Nat} :
    x ∈ subtypes h id ↔ x ≠ id ∧ ∃ k, Deep h.childrenOf id k x := by
  constructor
  · rintro ⟨hne,-,hr⟩
    exact ⟨hne,deep_of_reaches he hr⟩
  rintro ⟨hne,k,hd⟩
  have hr := (under_of_deep he hd).reaches
  refine ⟨hne,?_,hr⟩
  rcases Relation.ReflTransGen.cases_head hr with heq | ⟨y,⟨c,hc,-⟩,-⟩
  · exact absurd heq hne
  · simp [hc]

theorem direct_count (he : EdgesExact h.get h) (id : Nat) :
    (((kidsOf h.subclasses id).length+(kidsOf h.implementors id).length : Nat) : ℕ∞) ≤
      (subtypes h id).encard+(namedTwice h id).encard+(namesItself h id).encard := by
  have hnd : ∀ {l : List Nat}, l.Pairwise (· < ·) → l.toFinset.card = l.length := fun hl =>
    toFinset_card_of_nodup (hl.imp fun hlt => Nat.ne_of_lt hlt)
  have hs := he.supers id
  have hi := he.interfaces id
  have hunion : (((kidsOf h.subclasses id).toFinset ∪ (kidsOf h.implementors id).toFinset : Finset Nat)
      : Set Nat) ⊆ subtypes h id ∪ namesItself h id := by
    intro x hx
    have hedge : Edge h.get x id := by
      rw [edge_iff,← hs.2 x,← hi.2 x]
      simpa using hx
    by_cases hxid : x = id
    · exact .inr ⟨hxid,hedge⟩
    refine .inl ⟨hxid,?_,.single hedge⟩
    obtain ⟨c,hc,-⟩ := hedge
    simp [hc]
  have hinter : (((kidsOf h.subclasses id).toFinset ∩ (kidsOf h.implementors id).toFinset : Finset Nat)
      : Set Nat) ⊆ namedTwice h id := by
    intro x hx
    have hx : x ∈ kidsOf h.subclasses id ∧ x ∈ kidsOf h.implementors id := by simpa using hx
    exact ⟨(hs.2 x).mp hx.1,(hi.2 x).mp hx.2⟩
  have hcard := Finset.card_union_add_card_inter (kidsOf h.subclasses id).toFinset
    (kidsOf h.implementors id).toFinset
  rw [hnd hs.1,hnd hi.1] at hcard
  rw [← hcard,Nat.cast_add,← Set.encard_coe_eq_coe_finsetCard,← Set.encard_coe_eq_coe_finsetCard]
  calc _ ≤ (subtypes h id ∪ namesItself h id).encard+(namedTwice h id).encard :=
        add_le_add (Set.encard_le_encard hunion) (Set.encard_le_encard hinter)
    _ ≤ (subtypes h id).encard+(namesItself h id).encard+(namedTwice h id).encard := by
        gcongr
        exact Set.encard_union_le _ _
    _ = _ := add_right_comm _ _ _

theorem subtypes_answer (he : EdgesExact h.get h) (id limit : Nat) : SubtypesAnswer h id limit := by
  have hanswer := @subtypesLoop_answer h id limit maxHierarchyDepth 0 _ [] [id] (Nat.zero_add _)
    (levels_start h.childrenOf id)
  refine ⟨fun v hv => ?_,fun hnone => ?_⟩
  · rw [subtypesOf] at hv
    split at hv
    · cases hv
    rw [hv] at hanswer
    exact ⟨hanswer.1,fun x => (hanswer.2 x).trans (mem_subtypes he).symm⟩
  rw [subtypesOf] at hnone
  split at hnone
  · rename_i hdirect
    exact .inl (lt_of_lt_of_le (Nat.cast_lt.mpr hdirect) (direct_count he id))
  rw [hnone] at hanswer
  rcases hanswer with ⟨l,hnd,hlen,hl⟩ | ⟨x,k,hne,hk,hd⟩
  · left
    have hsub : (l.toFinset : Set Nat) ⊆ subtypes h id := fun x hx =>
      (mem_subtypes he).mpr (hl x (by simpa using hx))
    have hle := Set.encard_le_encard hsub
    rw [Set.encard_coe_eq_coe_finsetCard,toFinset_card_of_nodup hnd] at hle
    rw [add_assoc]
    exact lt_of_lt_of_le (Nat.cast_lt.mpr hlen) (hle.trans le_self_add)
  · exact .inr ⟨x,k,(mem_subtypes he).mpr ⟨hne,k,hd⟩,hk,under_of_deep he hd⟩

end

section
structure SameIndices (h h' : Hierarchy) : Prop where
  classes : h'.classes = h.classes
  subclasses : h'.subclasses = h.subclasses
  implementors : h'.implementors = h.implementors

variable {h' h'' : Hierarchy}

theorem SameIndices.symm (a : SameIndices h h') : SameIndices h' h :=
  ⟨a.classes.symm,a.subclasses.symm,a.implementors.symm⟩

theorem SameIndices.trans (a : SameIndices h h') (b : SameIndices h' h'') : SameIndices h h'' :=
  ⟨b.classes.trans a.classes,b.subclasses.trans a.subclasses,b.implementors.trans a.implementors⟩

theorem SameIndices.get (a : SameIndices h h') : h'.get = h.get := by
  funext x
  rw [Hierarchy.get,Hierarchy.get,a.classes]

theorem sameIndices_of_sameEdges (a : SameEdges h h') : SameIndices h h' :=
  ⟨a.classes,a.subclasses,a.implementors⟩

theorem sameIndices_forget : SameIndices h (h.forgetSecondarySupersReaching id) := by
  unfold forgetSecondarySupersReaching
  split <;> exact ⟨rfl,rfl,rfl⟩

theorem sameIndices_refreshAll (keys : List Nat) :
    SameIndices h (keys.foldl refreshDeepInterfaceKey h) :=
  sameIndices_of_sameEdges (sameEdges_foldl (fun _ x => sameEdges_refresh x) _ _)

theorem SameIndices.refl : SameIndices h h := ⟨rfl,rfl,rfl⟩

theorem SameIndices.ite {p : Prop} [Decidable p] (a : SameIndices h h') (b : SameIndices h h'') :
    SameIndices h (if p then h' else h'') := by
  split
  · exact a
  · exact b

theorem add_indices (h : Hierarchy) (c : Class) : SameIndices (addEdges h c) (h.add c) := by
  have hbelow : SameIndices (addEdges h c)
      (if ((addDisplay h c).subclasses h.nextId).isSome then
        (addDisplay h c).recomputeDisplaysBelow h.nextId else addDisplay h c) := by
    have hdisplay : SameIndices (addEdges h c) (addDisplay h c) := ⟨rfl,rfl,rfl⟩
    exact .ite (hdisplay.trans (sameIndices_of_sameEdges (sameEdges_recomputeDisplaysBelow _))) hdisplay
  exact hbelow.trans ((SameIndices.ite sameIndices_forget .refl).trans (sameIndices_refreshAll _))

theorem setSuperclass_indices {c : Class} {newSuper : Option Nat} (hc : h.get id = some c)
    (hnew : c.superclass ≠ newSuper) :
    SameIndices
      { h.setClass id (some { c with superclass := newSuper }) with
        subclasses := linkSuper (unlinkSuper h.subclasses c.superclass id h.sortedUnlink) newSuper id }
      (h.setSuperclass id newSuper) := by
  unfold setSuperclass
  simp only [hc,hnew,if_false]
  have hforget := @sameIndices_forget (h.setClass id (some { c with superclass := newSuper })) id
  have hsorted : ((h.setClass id (some { c with superclass := newSuper })).forgetSecondarySupersReaching
      id).sortedUnlink = h.sortedUnlink := by
    unfold forgetSecondarySupersReaching
    split <;> rfl
  refine .trans ?_ ((sameIndices_of_sameEdges (sameEdges_recomputeDisplayAt id)).trans
    (sameIndices_of_sameEdges (sameEdges_recomputeDisplaysBelow id)))
  refine ⟨hforget.classes,?_,hforget.implementors⟩
  rw [hforget.subclasses,hsorted]
  rfl

theorem setInterfaces_indices {c : Class} {new : List Nat} (hc : h.get id = some c)
    (hnew : c.interfaces ≠ new) :
    SameIndices
      { h.setClass id (some { c with interfaces := new }) with
        implementors := new.foldl (linkSubtypeEdge · · id)
          ((c.interfaces.filter (· ∉ new)).foldl (unlinkSubtypeEdgeWith · · id false) h.implementors) }
      (h.setInterfaces id new) := by
  unfold setInterfaces
  simp only [hc,hnew,if_false]
  have hforget := @sameIndices_forget (h.setClass id (some { c with interfaces := new })) id
  refine .trans ?_ (sameIndices_refreshAll _)
  refine ⟨hforget.classes,hforget.subclasses,?_⟩
  rw [hforget.implementors]
  rfl

theorem remove_indices {c : Class} (hc : h.get id = some c) :
    SameIndices
      { h.setClass id none with
        subclasses := setKey (unlinkSuper h.subclasses c.superclass id h.sortedUnlink) id none
        implementors := setKey
          (c.interfaces.foldl (unlinkSubtypeEdgeWith · · id h.sortedUnlink) h.implementors) id none }
      (h.remove id) := by
  unfold remove
  simp only [hc]
  have hforget := (@sameIndices_forget (h.setClass id none) id).trans
    (sameIndices_of_sameEdges (sameEdges_dropDisplays id))
  have hsorted : (((h.setClass id none).forgetSecondarySupersReaching id).dropDisplays id).sortedUnlink =
      h.sortedUnlink := by
    rw [(sameEdges_dropDisplays id).sorted]
    unfold forgetSecondarySupersReaching
    split <;> rfl
  refine .trans ?_ (sameIndices_refreshAll _)
  refine ⟨hforget.classes,?_,?_⟩
  · rw [hforget.subclasses,hsorted]
    rfl
  rw [hforget.implementors,hsorted]
  rfl

theorem ask_indices (sub sup : Nat) : SameIndices h (h.isSubclassOf sub sup).2 := by
  have hpublish : SameIndices h (h.publishClosure sub).2 := ⟨rfl,rfl,rfl⟩
  have hensure : SameIndices h (h.ensureSecondarySupersPublished sub) := .ite hpublish .refl
  have hverdict : SameIndices h (h.secondarySupersVerdict sub sup).2 := by
    unfold secondarySupersVerdict
    dsimp only
    split
    · exact .refl
    split
    · exact .refl
    split
    · exact .refl
    rcases hp : h.publishClosure sub with ⟨enc,h2⟩
    rw [hp] at hpublish
    cases enc <;> exact hpublish
  unfold isSubclassOf
  split
  · exact .refl
  split
  · exact hensure
  rcases hv : h.secondarySupersVerdict sub sup with ⟨verdict,h2⟩
  rw [hv] at hverdict
  cases verdict <;> exact hverdict

theorem unlinkSuper_sorted {names : Nat → Nat → Prop} {map : Nat → Option (List Nat)}
    (hidx : Indexed names map) (old : Option Nat) (id : Nat) (sorted sorted' : Bool) :
    unlinkSuper map old id sorted = unlinkSuper map old id sorted' := by
  unfold unlinkSuper
  cases old with
  | none => rfl
  | some old => ?_
  cases hmap : map old with
  | none => simp [hmap]
  | some kids =>
    have hasc : kids.Pairwise (· < ·) := by simpa [kidsOf,hmap] using (hidx old).1
    simp only [hmap,removeId_eq hasc]

theorem unlinkAll_sorted {names : Nat → Nat → Prop} {map : Nat → Option (List Nat)}
    (hidx : Indexed names map) (parents : List Nat) (child : Nat) (sorted sorted' : Bool) :
    parents.foldl (unlinkSubtypeEdgeWith · · child sorted) map =
      parents.foldl (unlinkSubtypeEdgeWith · · child sorted') map := by
  induction parents generalizing names map with
  | nil => rfl
  | cons parent parents ih => ?_
  have hone : unlinkSubtypeEdgeWith map parent child sorted =
      unlinkSubtypeEdgeWith map parent child sorted' := by
    unfold unlinkSubtypeEdgeWith
    cases hmap : map parent with
    | none => rfl
    | some kids =>
      have hasc : kids.Pairwise (· < ·) := by simpa [kidsOf,hmap] using (hidx parent).1
      simp only [removeId_eq hasc]
  rw [foldl_cons,foldl_cons,hone]
  exact ih (hidx.unlink parent child sorted')

theorem SameIndices.apply (a : SameIndices h h') (hi : Consistent h) (op : StoreOp) :
    SameIndices (op.apply h) (op.apply h') := by
  have hget := a.get
  have hnext : h'.nextId = h.nextId := by rw [nextId,nextId,a.classes]
  cases op with
  | add c =>
    refine (add_indices h c).symm.trans (.trans ?_ (add_indices h' c))
    refine ⟨?_,?_,?_⟩
    · simp [addEdges,a.classes]
    · simp [addEdges,a.subclasses,hnext]
    · simp [addEdges,a.implementors,hnext]
  | setSuperclass id newSuper => ?_
  | setInterfaces id new =>
    show SameIndices (h.setInterfaces id new) (h'.setInterfaces id new)
    cases hc : h.get id with
    | none =>
      simp only [setInterfaces,hget,hc]
      exact a
    | some c => ?_
    by_cases hnew : c.interfaces = new
    · simp only [setInterfaces,hget,hc,hnew,if_true]
      exact a
    refine (setInterfaces_indices hc hnew).symm.trans
      (.trans ?_ (setInterfaces_indices (hget ▸ hc) hnew))
    refine ⟨by simp [setClass,a.classes],a.subclasses,?_⟩
    rw [a.implementors]
  | remove id =>
    show SameIndices (h.remove id) (h'.remove id)
    cases hc : h.get id with
    | none =>
      simp only [remove,hget,hc]
      exact a
    | some c => ?_
    refine (remove_indices hc).symm.trans (.trans ?_ (remove_indices (hget ▸ hc)))
    refine ⟨by simp [setClass,a.classes],?_,?_⟩
    · rw [a.subclasses,unlinkSuper_sorted hi.edges.supers c.superclass id h'.sortedUnlink h.sortedUnlink]
    rw [a.implementors,
      unlinkAll_sorted hi.edges.interfaces c.interfaces id h'.sortedUnlink h.sortedUnlink]
  | ask sub sup => exact ((ask_indices sub sup).symm.trans a).trans (ask_indices sub sup)
  show SameIndices (h.setSuperclass id newSuper) (h'.setSuperclass id newSuper)
  cases hc : h.get id with
  | none =>
    simp only [setSuperclass,hget,hc]
    exact a
  | some c => ?_
  by_cases hnew : c.superclass = newSuper
  · simp only [setSuperclass,hget,hc,hnew,if_true]
    exact a
  refine (setSuperclass_indices hc hnew).symm.trans
    (.trans ?_ (setSuperclass_indices (hget ▸ hc) hnew))
  refine ⟨by simp [setClass,a.classes],?_,a.implementors⟩
  rw [a.subclasses,unlinkSuper_sorted hi.edges.supers c.superclass id h'.sortedUnlink h.sortedUnlink]

end

section
/-- A sequence of operations, from an empty store. -/
def runOps (displayEnabled sortedUnlink : Bool) (ops : List StoreOp) : Hierarchy :=
  ops.foldl StoreOp.apply { displayEnabled := displayEnabled, sortedUnlink := sortedUnlink }

/-- Every removal in the sequence is of a class that no other stored class names. -/
def LegalOps (h : Hierarchy) : List StoreOp → Prop
  | [] => True
  | op::ops => op.Legal h ∧ LegalOps (op.apply h) ops

theorem legalOps_consistent {ops : List StoreOp} (hi : Consistent h) (hl : LegalOps h ops) :
    Consistent (ops.foldl StoreOp.apply h) := by
  induction ops generalizing h with
  | nil => exact hi
  | cons op ops ih => exact ih (op.apply_consistent hi hl.1) hl.2

theorem legalOps_sameIndices {h' : Hierarchy} {ops : List StoreOp} (a : SameIndices h h')
    (hi : Consistent h) (hl : LegalOps h ops) :
    SameIndices (ops.foldl StoreOp.apply h) (ops.foldl StoreOp.apply h') := by
  induction ops generalizing h h' with
  | nil => exact a
  | cons op ops ih => exact ih (a.apply hi op) (op.apply_consistent hi hl.1) hl.2

/-- The walks over the indices are exact after every sequence of operations, and the way ids are
unlinked leaves no trace. -/
theorem hierarchy_walks_exact (displayEnabled sortedUnlink : Bool) (ops : List StoreOp)
    (hl : LegalOps { displayEnabled := displayEnabled, sortedUnlink := sortedUnlink } ops) :
    (∀ id limit, SubtypesAnswer (runOps displayEnabled sortedUnlink ops) id limit) ∧
      (∀ id, DescendantsAnswer (runOps displayEnabled sortedUnlink ops) id) ∧
      ∀ displayEnabled' sortedUnlink', SameIndices (runOps displayEnabled sortedUnlink ops)
        (runOps displayEnabled' sortedUnlink' ops) := by
  have hstart := start_consistent displayEnabled sortedUnlink
  have hi := legalOps_consistent hstart hl
  refine ⟨fun id limit => subtypes_answer hi.edges id limit,fun id => descendants_answer hi.edges id,?_⟩
  intro displayEnabled' sortedUnlink'
  exact legalOps_sameIndices ⟨rfl,rfl,rfl⟩ hstart hl

/-- A root, an interface, a class below both, and the class moved away from the root again. -/
def movedClass : List StoreOp :=
  [.add { name := ['R'] },.add { name := ['I'], isInterface := true },
    .add { name := ['C'], superclass := some 0, interfaces := [1] },.setSuperclass 2 none]

theorem movedClass_subtypes :
    (runOps true true movedClass).subtypesOf 0 5 = some [] ∧
      (runOps true true movedClass).subtypesOf 1 5 = some [2] ∧
      ∀ x, x ∈ [2] ↔ x ∈ subtypes (runOps true true movedClass) 1 := by
  have hsub : (runOps true true movedClass).subtypesOf 1 5 = some [2] := by decide
  have hlegal : LegalOps { displayEnabled := true, sortedUnlink := true } movedClass :=
    ⟨trivial,trivial,trivial,trivial,trivial⟩
  exact ⟨by decide,hsub,
    (((hierarchy_walks_exact true true movedClass hlegal).1 1 5).listed [2] hsub).2⟩

/-- A class that names itself is counted although nothing is below it. -/
theorem selfNamed_counted :
    LegalOps { displayEnabled := true, sortedUnlink := true } [.add { name := ['R'], superclass := some 0 }] ∧
      (runOps true true [.add { name := ['R'], superclass := some 0 }]).subtypesOf 0 0 = none ∧
      subtypes (runOps true true [.add { name := ['R'], superclass := some 0 }]) 0 = ∅ := by
  refine ⟨⟨trivial,trivial⟩,by decide,?_⟩
  ext x
  simp only [Set.mem_empty_iff_false,iff_false]
  rintro ⟨hne,hsome,-⟩
  have hget : (runOps true true [.add { name := ['R'], superclass := some 0 }]).classes.length = 1 := by
    decide
  obtain ⟨c,hc⟩ := isSome_iff_exists.mp hsome
  have := lt_of_get hc
  omega

end
end CratonVM.ClassLoading
