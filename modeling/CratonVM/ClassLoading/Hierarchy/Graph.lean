import CratonVM.ClassLoading.Hierarchy.Store

/-!
The hierarchy as a graph over what is stored under each id: reachability over superclass and
interface edges, the superclass chains, and what a change of one class leaves alone.
-/
namespace CratonVM.ClassLoading
open Hierarchy List Option

/-- What is stored under each id. -/
abbrev Stored := Nat → Option Class

/-- Only a stored class has edges; they may lead to an id without a class. -/
def Edge (g : Stored) (a b : Nat) : Prop := ∃ c, g a = some c ∧ b ∈ edgesOf c

def Reaches (g : Stored) : Nat → Nat → Prop := Relation.ReflTransGen (Edge g)

theorem mem_edgesOf {c : Class} {b : Nat} :
    b ∈ edgesOf c ↔ c.superclass = some b ∨ b ∈ c.interfaces := by
  simp [edgesOf]

section
variable {g g' : Stored} {id : Nat}

/-- Two hierarchies that differ in what is stored under one id. -/
def SameBut (g g' : Stored) (id : Nat) : Prop := ∀ x, x ≠ id → g x = g' x

theorem SameBut.symm (h : SameBut g g' id) : SameBut g' g id := fun x hx => (h x hx).symm

theorem SameBut.reaches (h : SameBut g g' id) {a b : Nat} (hno : ¬Reaches g a id)
    (hab : Reaches g a b) : Reaches g' a b := by
  induction hab with
  | refl => exact .refl
  | @tail x y hax hxy ih => ?_
  refine ih.tail ?_
  have hx : x ≠ id := by
    rintro rfl
    exact hno hax
  obtain ⟨c,hc,hy⟩ := hxy
  exact ⟨c,(h x hx).symm.trans hc,hy⟩

theorem SameBut.reaches_id (h : SameBut g g' id) {a : Nat} (hab : Reaches g a id) :
    Reaches g' a id := by
  induction hab using Relation.ReflTransGen.head_induction_on with
  | refl => exact .refl
  | @head x y hxy _ ih => ?_
  by_cases hx : x = id
  · subst hx
    exact .refl
  obtain ⟨c,hc,hy⟩ := hxy
  exact .head ⟨c,(h x hx).symm.trans hc,hy⟩ ih

theorem SameBut.reaches_iff (h : SameBut g g' id) {a b : Nat} (hno : ¬Reaches g a id) :
    Reaches g a b ↔ Reaches g' a b :=
  ⟨h.reaches hno,h.symm.reaches fun hr => hno (h.symm.reaches_id hr)⟩

end

section
variable {g g' : Stored} {id : Nat}

inductive SuperChain (g : Stored) : Nat → List Nat → Prop where
  | root {id : Nat} {c : Class} (h : g id = some c) (hs : c.superclass = none) :
      SuperChain g id [id]
  | step {id p : Nat} {c : Class} {l : List Nat} (h : g id = some c) (hs : c.superclass = some p)
      (hl : SuperChain g p l) : SuperChain g id (l++[id])

variable {l : List Nat}

theorem SuperChain.unique {l' : List Nat} (h : SuperChain g id l) (h' : SuperChain g id l') :
    l = l' := by
  induction h generalizing l' with
  | root hc hs =>
    cases h' with
    | root => rfl
    | step hc' hs' =>
      obtain rfl := some.inj (hc.symm.trans hc')
      rw [hs] at hs'
      cases hs'
  | step hc hs _ ih => ?_
  cases h' with
  | root hc' hs' =>
    obtain rfl := some.inj (hc.symm.trans hc')
    rw [hs] at hs'
    cases hs'
  | step hc' hs' hl' =>
    obtain rfl := some.inj (hc.symm.trans hc')
    obtain rfl := some.inj (hs.symm.trans hs')
    rw [ih hl']

variable {x : Nat}

theorem SuperChain.stored (h : SuperChain g id l) (hx : x ∈ l) :
    ∃ c, g x = some c := by
  induction h with
  | root hc _ =>
    obtain rfl := mem_singleton.mp hx
    exact ⟨_,hc⟩
  | step hc _ _ ih =>
    rcases mem_append.mp hx with hx | hx
    · exact ih hx
    obtain rfl := mem_singleton.mp hx
    exact ⟨_,hc⟩

theorem SuperChain.getLast (h : SuperChain g id l) : l.getLast? = some id := by
  cases h <;> simp

theorem SuperChain.self_mem (h : SuperChain g id l) : id ∈ l :=
  mem_of_getLast? h.getLast

theorem SuperChain.take (h : SuperChain g id l) {i : Nat} (hx : l[i]? = some x) :
    SuperChain g x (l.take (i+1)) := by
  induction h with
  | root hc hs =>
    obtain ⟨hi,rfl⟩ := List.getElem?_eq_some_iff.mp hx
    obtain rfl : i = 0 := by simpa using hi
    exact .root hc hs
  | @step id p c l hc hs hl ih => ?_
  rcases Nat.lt_or_ge i l.length with hi | hi
  · rw [getElem?_append_left hi] at hx
    rw [take_append_of_le_length hi]
    exact ih hx
  have hi' : i = l.length := by
    have := (List.getElem?_eq_some_iff.mp hx).1
    simp at this
    omega
  subst hi'
  obtain rfl : id = x := by simpa using hx
  rw [take_of_length_le (by simp)]
  exact .step hc hs hl

theorem SuperChain.index_eq {l' : List Nat} {i : Nat} (h : SuperChain g id l)
    (hx : l[i]? = some x) (h' : SuperChain g x l') : i+1 = l'.length := by
  have hlt := (List.getElem?_eq_some_iff.mp hx).1
  rw [← (h.take hx).unique h',length_take]
  omega

theorem SuperChain.reaches (h : SuperChain g id l) (hx : x ∈ l) :
    Reaches g id x := by
  induction h with
  | root =>
    obtain rfl := mem_singleton.mp hx
    exact .refl
  | step hc hs _ ih =>
    rcases mem_append.mp hx with hx | hx
    · exact .head ⟨_,hc,mem_edgesOf.mpr (.inl hs)⟩ (ih hx)
    obtain rfl := mem_singleton.mp hx
    exact .refl

/-- What can be reached over superclass edges alone. -/
def SuperEdge (g : Stored) (a b : Nat) : Prop := ∃ c, g a = some c ∧ c.superclass = some b

theorem SuperChain.mem_of_superEdge (h : SuperChain g id l) {y : Nat} (hx : x ∈ l)
    (hxy : SuperEdge g x y) : y ∈ l := by
  induction h with
  | root hc hs =>
    obtain rfl := mem_singleton.mp hx
    obtain ⟨c,hc',hs'⟩ := hxy
    obtain rfl := some.inj (hc.symm.trans hc')
    rw [hs] at hs'
    cases hs'
  | step hc hs hl ih => ?_
  rcases mem_append.mp hx with hx | hx
  · exact mem_append_left _ (ih hx)
  obtain rfl := mem_singleton.mp hx
  obtain ⟨c,hc',hs'⟩ := hxy
  obtain rfl := some.inj (hc.symm.trans hc')
  obtain rfl := some.inj (hs.symm.trans hs')
  exact mem_append_left _ hl.self_mem

theorem SuperChain.mem_of_superReaches (h : SuperChain g id l)
    (hx : Relation.ReflTransGen (SuperEdge g) id x) : x ∈ l := by
  induction hx with
  | refl => exact h.self_mem
  | tail _ hstep ih => exact h.mem_of_superEdge ih hstep

theorem SameBut.superChain (hsame : SameBut g g' id)
    (h : SuperChain g x l) (hno : id ∉ l) : SuperChain g' x l := by
  induction h with
  | root hc hs => exact .root ((hsame _ (by rintro rfl; simp at hno)).symm.trans hc) hs
  | step hc hs _ ih =>
    refine .step ((hsame _ (by rintro rfl; simp at hno)).symm.trans hc) hs (ih ?_)
    exact fun hmem => hno (mem_append_left _ hmem)

/-- The second class is so many subclass edges below the first. -/
inductive Below (g : Stored) (top : Nat) : Nat → Nat → Prop where
  | self : Below g top 0 top
  | down {k x y : Nat} (h : Below g top k y) (hxy : SuperEdge g x y) : Below g top (k+1) x

theorem Below.child {top k : Nat} (h : Below g top (k+1) x) :
    ∃ y, SuperEdge g y top ∧ Below g y k x := by
  induction k generalizing x with
  | zero =>
    cases h with
    | down h hxy =>
      cases h
      exact ⟨x,hxy,.self⟩
  | succ k ih =>
    cases h with
    | down h hxy =>
      obtain ⟨y,hy,hbelow⟩ := ih h
      exact ⟨y,hy,.down hbelow hxy⟩

theorem SameBut.below (hsame : SameBut g g' id) (h : SuperChain g x l)
    (hid : id ∈ l) : ∃ k, k < l.length ∧ Below g' id k x := by
  induction h with
  | root =>
    obtain rfl := mem_singleton.mp hid
    exact ⟨0,by simp,.self⟩
  | @step x p c l hc hs _ ih => ?_
  by_cases hx : x = id
  · subst hx
    exact ⟨0,by simp,.self⟩
  have hmem : id ∈ l := by
    rcases mem_append.mp hid with hid | hid
    · exact hid
    · exact absurd (mem_singleton.mp hid).symm hx
  obtain ⟨k,hk,hbelow⟩ := ih hmem
  exact ⟨k+1,by simp; omega,.down hbelow ⟨c,(hsame x hx).symm.trans hc,hs⟩⟩

def DisplayOf (g : Stored) (id : Nat) (d : PrimaryDisplay) : Prop :=
  ∃ l, SuperChain g id l ∧ l.length = d.depth+1 ∧ d.supers = l.take primaryDisplayLen ∧
    d.depth ≤ maxHierarchyDepth

end

open BinarySearch

/-- The index lists exactly the pairs of a relation from a class to what it names. -/
def Indexed (names : Nat → Nat → Prop) (map : Nat → Option (List Nat)) : Prop :=
  ∀ p, (kidsOf map p).Pairwise (· < ·) ∧ ∀ x, x ∈ kidsOf map p ↔ names x p

/-- An entry without a class is dropped. -/
def NoEmptyKey (map : Nat → Option (List Nat)) : Prop := ∀ p, map p ≠ some []

@[simp] theorem kidsOf_setKey (map : Nat → Option (List Nat)) (key p : Nat)
    (kids : Option (List Nat)) :
    kidsOf (setKey map key kids) p = if p = key then kids.getD [] else kidsOf map p := by
  unfold kidsOf setKey
  split <;> rfl

theorem Indexed.congr {names names' : Nat → Nat → Prop} {map : Nat → Option (List Nat)}
    (h : Indexed names map) (hsame : ∀ x p, names x p ↔ names' x p) : Indexed names' map :=
  fun p => ⟨(h p).1,fun x => ((h p).2 x).trans (hsame x p)⟩

theorem Indexed.setKey {names names' : Nat → Nat → Prop} {map : Nat → Option (List Nat)}
    (h : Indexed names map) {key : Nat} {kids : Option (List Nat)}
    (hs : (kids.getD []).Pairwise (· < ·)) (hkey : ∀ x, x ∈ kids.getD [] ↔ names' x key)
    (hrest : ∀ x p, p ≠ key → (names x p ↔ names' x p)) : Indexed names' (setKey map key kids) := by
  intro p
  rw [kidsOf_setKey]
  by_cases hp : p = key
  · subst hp
    rw [if_pos rfl]
    exact ⟨hs,hkey⟩
  rw [if_neg hp]
  exact ⟨(h p).1,fun x => ((h p).2 x).trans (hrest x p hp)⟩

section
theorem mem_insertSorted (kids : List Nat) (child x : Nat) :
    x ∈ insertSorted kids child ↔ x ∈ kids ∨ x = child := by
  unfold insertSorted
  split
  · rename_i hmem
    exact ⟨.inl,fun h => h.elim id fun h => h ▸ hmem⟩
  rw [List.mem_orderedInsert]
  exact or_comm

theorem insertSorted_ne_nil (kids : List Nat) (child : Nat) : insertSorted kids child ≠ [] :=
  List.ne_nil_of_mem ((mem_insertSorted kids child child).mpr (.inr rfl))

theorem pairwise_insertSorted {kids : List Nat} (h : kids.Pairwise (· < ·)) (child : Nat) :
    (insertSorted kids child).Pairwise (· < ·) := by
  unfold insertSorted
  split
  · exact h
  rename_i hmem
  have hle : (kids.orderedInsert (· ≤ ·) child).Pairwise (· ≤ ·) :=
    (h.imp fun hlt => Nat.le_of_lt hlt).orderedInsert child kids
  have hnd : (kids.orderedInsert (· ≤ ·) child).Nodup := by
    rw [(List.perm_orderedInsert _ child kids).nodup_iff]
    exact List.nodup_cons.mpr ⟨hmem,h.imp fun hlt => Nat.ne_of_lt hlt⟩
  exact (hle.and hnd).imp fun hab => Nat.lt_of_le_of_ne hab.1 hab.2

theorem removeId_eq {ids : List Nat} (h : ids.Pairwise (· < ·)) (sorted : Bool) (id : Nat) :
    removeId sorted ids id = ids.filter (· ≠ id) := by
  cases sorted with
  | false => rfl
  | true => ?_
  show removeSortedId ids id = _
  unfold removeSortedId
  cases hfind : binarySearch ids id with
  | none => rfl
  | some pos => ?_
  have hpos := searchBetween_some le_rfl hfind
  obtain ⟨hlt,hget⟩ := List.getElem?_eq_some_iff.mp hpos
  -- the list is what is smaller, the id, and what is greater
  have hsplit : ids = ids.take pos++id::ids.drop (pos+1) := by
    rw [← hget,List.getElem_cons_drop,List.take_append_drop]
  have hdrop : ids.drop pos = id::ids.drop (pos+1) := by
    rw [← hget,List.getElem_cons_drop]
  rw [hsplit] at h
  obtain ⟨-,hright,hcross⟩ := List.pairwise_append.mp h
  have hbefore : ∀ x ∈ ids.take pos, x ≠ id := fun x hx =>
    Nat.ne_of_lt (hcross x hx id (by simp))
  have hafter : ∀ x ∈ ids.drop (pos+1), x ≠ id := fun x hx =>
    Nat.ne_of_gt ((List.pairwise_cons.mp hright).1 x hx)
  have hleft : (ids.take pos).rdropWhile (· = id) = ids.take pos := by
    rw [List.rdropWhile_eq_self_iff]
    intro hne
    simpa using hbefore _ (List.getLast_mem hne)
  have hright' : (ids.drop (pos+1)).dropWhile (· = id) = ids.drop (pos+1) := by
    rw [List.dropWhile_eq_self_iff]
    intro hlen
    simpa using hafter _ (List.getElem_mem hlen)
  simp only
  rw [hleft,hdrop,List.dropWhile_cons_of_pos (by simp),hright']
  conv_rhs => rw [hsplit]
  rw [List.filter_append,List.filter_cons_of_neg (by simp),
    List.filter_eq_self.mpr fun x hx => by simpa using hbefore x hx,
    List.filter_eq_self.mpr fun x hx => by simpa using hafter x hx]

end

section
variable {names : Nat → Nat → Prop} {map : Nat → Option (List Nat)}

section
variable (h : Indexed names map)
include h

theorem Indexed.link (parent child : Nat) :
    Indexed (fun x p => names x p ∨ x = child ∧ p = parent) (linkSubtypeEdge map parent child) := by
  refine h.setKey (pairwise_insertSorted (h parent).1 child) ?_ ?_
  · simp [mem_insertSorted,(h parent).2]
  intro x p hp
  simp [hp]

theorem Indexed.linkAll (parents : List Nat) (child : Nat) :
    Indexed (fun x p => names x p ∨ x = child ∧ p ∈ parents)
      (parents.foldl (linkSubtypeEdge · · child) map) := by
  induction parents generalizing names map with
  | nil => exact h.congr (by simp)
  | cons parent parents ih =>
    refine (ih (h.link parent child)).congr fun x p => ?_
    simp only [List.mem_cons]
    tauto

theorem Indexed.filterKey (parent child : Nat) (sorted : Bool)
    {kids : Option (List Nat)} (hkids : kids.getD [] = removeId sorted (kidsOf map parent) child) :
    Indexed (fun x p => names x p ∧ ¬(x = child ∧ p = parent))
      (ClassLoading.setKey map parent kids) := by
  rw [removeId_eq (h parent).1] at hkids
  refine h.setKey ?_ ?_ ?_
  · rw [hkids]
    exact (h parent).1.filter _
  · simp [hkids,(h parent).2]
  intro x p hp
  simp [hp]

theorem Indexed.not_names {p : Nat} (hp : map p = none) (x : Nat) :
    ¬names x p := by
  rw [← (h p).2 x,kidsOf,hp]
  simp

theorem Indexed.unlink (parent child : Nat) (sorted : Bool) :
    Indexed (fun x p => names x p ∧ ¬(x = child ∧ p = parent))
      (unlinkSubtypeEdgeWith map parent child sorted) := by
  unfold unlinkSubtypeEdgeWith
  cases hmap : map parent with
  | none =>
    refine h.congr fun x p => ⟨fun hx => ⟨hx,?_⟩,And.left⟩
    rintro ⟨rfl,rfl⟩
    exact h.not_names hmap _ hx
  | some kids =>
    refine h.filterKey parent child sorted ?_
    have hkids : kidsOf map parent = kids := by rw [kidsOf,hmap]; rfl
    split <;> simp_all

theorem Indexed.unlinkAll (parents : List Nat) (child : Nat)
    (sorted : Bool) :
    Indexed (fun x p => names x p ∧ ¬(x = child ∧ p ∈ parents))
      (parents.foldl (unlinkSubtypeEdgeWith · · child sorted) map) := by
  induction parents generalizing names map with
  | nil => exact h.congr (by simp)
  | cons parent parents ih =>
    refine (ih (h.unlink parent child sorted)).congr fun x p => ?_
    simp only [List.mem_cons]
    tauto

end

theorem Indexed.unlinkSuper (h : Indexed names map) (old : Option Nat) (id : Nat) (sorted : Bool) :
    Indexed (fun x p => names x p ∧ ¬(x = id ∧ old = some p))
      (ClassLoading.unlinkSuper map old id sorted) := by
  unfold ClassLoading.unlinkSuper
  cases old with
  | none => exact h.congr (by simp)
  | some old => ?_
  dsimp only
  cases hmap : map old with
  | none =>
    refine h.congr fun x p => ⟨fun hx => ⟨hx,?_⟩,And.left⟩
    rintro ⟨rfl,hp⟩
    obtain rfl := Option.some.inj hp
    exact h.not_names hmap _ hx
  | some kids =>
    refine (h.filterKey old id sorted ?_).congr fun x p => ?_
    · rw [kidsOf,hmap]
      rfl
    · simp only [Option.some.injEq,eq_comm]

theorem Indexed.linkSuper (h : Indexed names map) (new : Option Nat) (id : Nat) :
    Indexed (fun x p => names x p ∨ x = id ∧ new = some p) (ClassLoading.linkSuper map new id) := by
  cases new with
  | none => exact h.congr (by simp)
  | some new => exact (h.link new id).congr fun x p => by simp only [Option.some.injEq,eq_comm]

theorem Indexed.pushSuper (h : Indexed names map) (superclass : Option Nat) {id : Nat}
    (hlt : ∀ x p, names x p → x < id) :
    Indexed (fun x p => names x p ∨ x = id ∧ superclass = some p)
      (ClassLoading.pushSuper map superclass id) := by
  cases superclass with
  | none => exact h.congr (by simp)
  | some sid => ?_
  refine h.setKey ?_ ?_ ?_
  · rw [Option.getD_some,List.pairwise_append]
    refine ⟨(h sid).1,by simp,fun a ha b hb => ?_⟩
    rw [List.mem_singleton.mp hb]
    exact hlt a sid (((h sid).2 a).mp ha)
  · simp [(h sid).2]
  intro x p hp
  simp [Ne.symm hp]

theorem NoEmptyKey.setKey (h : NoEmptyKey map) {key : Nat} {kids : Option (List Nat)}
    (hkids : kids ≠ some []) : NoEmptyKey (setKey map key kids) := by
  intro p
  unfold ClassLoading.setKey
  split
  · exact hkids
  · exact h p

theorem NoEmptyKey.linkAll (h : NoEmptyKey map) (parents : List Nat) (child : Nat) :
    NoEmptyKey (parents.foldl (linkSubtypeEdge · · child) map) := by
  induction parents generalizing map with
  | nil => exact h
  | cons parent parents ih =>
    refine ih (h.setKey fun hnil => ?_)
    exact insertSorted_ne_nil _ _ (Option.some.inj hnil)

theorem NoEmptyKey.unlinkAll (h : NoEmptyKey map) (parents : List Nat) (child : Nat)
    (sorted : Bool) : NoEmptyKey (parents.foldl (unlinkSubtypeEdgeWith · · child sorted) map) := by
  induction parents generalizing map with
  | nil => exact h
  | cons parent parents ih => ?_
  refine ih ?_
  show NoEmptyKey (unlinkSubtypeEdgeWith map parent child sorted)
  unfold unlinkSubtypeEdgeWith
  split
  · exact h
  refine h.setKey ?_
  split <;> simp_all

theorem Indexed.isSome_iff (h : Indexed names map) (hne : NoEmptyKey map) (p : Nat) :
    (map p).isSome = true ↔ ∃ x, names x p := by
  cases hmap : map p with
  | none => simpa using fun x => h.not_names hmap x
  | some kids =>
    simp only [Option.isSome_some,true_iff]
    obtain ⟨x,hx⟩ := List.exists_mem_of_ne_nil kids fun hnil => hne p (hnil ▸ hmap)
    exact ⟨x,((h p).2 x).mp (by rw [kidsOf,hmap]; exact hx)⟩

end
end CratonVM.ClassLoading
