import CratonVM.ClassLoading.Hierarchy.Mutators

/-!
The three ways a subtype question is answered, each against reachability.
-/
namespace CratonVM.ClassLoading
open Hierarchy PublishedSupers List Option Prod

/-- A class reaches at most so many ids. -/
def ReachesAtMost (g : Stored) (id n : Nat) : Prop := {x | Reaches g id x}.encard ≤ n

theorem ReachesAtMost.length_le {g : Stored} {id n : Nat} (hbound : ReachesAtMost g id n)
    {l : List Nat} (hnd : l.Nodup) (hl : ∀ x ∈ l, Reaches g id x) : l.length ≤ n := by
  have hsub : (l.toFinset : Set Nat) ⊆ {x | Reaches g id x} := by
    intro x hx
    exact hl x (by simpa using hx)
  have hle := (Set.encard_le_encard hsub).trans hbound
  rw [Set.encard_coe_eq_coe_finsetCard,toFinset_card_of_nodup hnd] at hle
  exact_mod_cast hle

section
variable {h : Hierarchy} {other : Nat}

theorem walkEdges_sound {walk : Nat → List Nat → Bool × List Nat} {edges visited : List Nat}
    (hwalk : ∀ e ∈ edges, ∀ v, (walk e v).1 = true → Reaches h.get e other)
    (htrue : (h.walkEdges other walk edges visited).1 = true) :
    ∃ e ∈ edges, Reaches h.get e other := by
  induction edges generalizing visited with
  | nil => cases htrue
  | cons e edges ih => ?_
  have hrest : ∀ x ∈ edges, ∀ v, (walk x v).1 = true → Reaches h.get x other :=
    fun x hx => hwalk x (by simp [hx])
  have hskip : ∀ {v}, (h.walkEdges other walk edges v).1 = true →
      ∃ x ∈ e::edges, Reaches h.get x other := by
    intro v hv
    obtain ⟨x,hx,hreach⟩ := ih hrest hv
    exact ⟨x,by simp [hx],hreach⟩
  rw [walkEdges] at htrue
  split at htrue
  · rename_i he
    exact ⟨e,by simp,he ▸ .refl⟩
  split at htrue
  · cases hw : walk e visited with
    | mk found v =>
      rw [hw] at htrue
      cases found with
      | true => exact ⟨e,by simp,hwalk e (by simp) visited (by rw [hw])⟩
      | false => exact hskip htrue
  · exact hskip htrue

theorem isSubclassOfInner_sound {levels id : Nat} {visited : List Nat}
    (htrue : (h.isSubclassOfInner other levels id visited).1 = true) : Reaches h.get id other := by
  induction levels generalizing id visited with
  | zero => cases htrue
  | succ levels ih => ?_
  rw [isSubclassOfInner] at htrue
  split at htrue
  · rename_i hid
    exact hid ▸ .refl
  split at htrue
  · cases htrue
  cases hc : h.get id with
  | none => simp [hc] at htrue
  | some c =>
    simp only [hc] at htrue
    obtain ⟨e,he,hreach⟩ := walkEdges_sound (fun e _ v hv => ih hv) htrue
    exact .head ⟨c,hc,he⟩ hreach

/-- What was visited and is not on the path any more does not lead to the target. -/
def Searched (h : Hierarchy) (other : Nat) (visited path : List Nat) : Prop :=
  ∀ v ∈ visited, v ∉ path → v ≠ other ∧
    ∀ e, Edge h.get v e → e ≠ other ∧ (e ∈ visited ∨ h.get e = none)

/-- What a walk that answers no leaves. -/
def Missed (h : Hierarchy) (other : Nat) (path : List Nat) (id : Nat) (visited visited' : List Nat) :
    Prop :=
  (∀ v ∈ visited, v ∈ visited') ∧ Searched h other visited' path ∧ id ≠ other ∧
    (id ∈ visited' ∨ h.get id = none)

theorem walkEdges_missed {walk : Nat → List Nat → Bool × List Nat} {path edges : List Nat}
    (hwalk : ∀ e ∈ edges, ∀ v v', Searched h other v path → (∀ x ∈ path, x ∈ v) →
      walk e v = (false,v') → Missed h other path e v v')
    {visited visited' : List Nat} (hs : Searched h other visited path)
    (hpath : ∀ x ∈ path, x ∈ visited)
    (hfalse : h.walkEdges other walk edges visited = (false,visited')) :
    (∀ v ∈ visited, v ∈ visited') ∧ Searched h other visited' path ∧
      ∀ e ∈ edges, e ≠ other ∧ (e ∈ visited' ∨ h.get e = none) := by
  induction edges generalizing visited with
  | nil =>
    obtain rfl := (mk.inj hfalse).2
    exact ⟨fun _ hv => hv,hs,by simp⟩
  | cons e edges ih => ?_
  have hrest : ∀ x ∈ edges, ∀ v v', Searched h other v path → (∀ x ∈ path, x ∈ v) →
      walk x v = (false,v') → Missed h other path x v v' :=
    fun x hx => hwalk x (by simp [hx])
  rw [walkEdges] at hfalse
  split at hfalse
  · cases (mk.inj hfalse).1
  rename_i hne
  split at hfalse
  · cases hw : walk e visited with
    | mk found v => ?_
    rw [hw] at hfalse
    cases found with
    | true => cases (mk.inj hfalse).1
    | false => ?_
    obtain ⟨hmono,hs',-,he⟩ := hwalk e (by simp) visited v hs hpath hw
    obtain ⟨hmono',hs'',hall⟩ := ih hrest hs' (fun x hx => hmono x (hpath x hx)) hfalse
    refine ⟨fun x hx => hmono' x (hmono x hx),hs'',fun x hx => ?_⟩
    rcases mem_cons.mp hx with rfl | hx
    · exact ⟨hne,he.imp (hmono' _) fun h => h⟩
    · exact hall x hx
  rename_i hnone
  obtain ⟨hmono,hs',hall⟩ := ih hrest hs hpath hfalse
  refine ⟨hmono,hs',fun x hx => ?_⟩
  rcases mem_cons.mp hx with rfl | hx
  · exact ⟨hne,.inr (by simpa using hnone)⟩
  · exact hall x hx

/-- A walk that answers no has searched everything below. The path is free of repetitions, so the
levels do not run out in a hierarchy within the bound. -/
theorem isSubclassOfInner_missed {sub : Nat} (hbound : ReachesAtMost h.get sub maxHierarchyDepth)
    {levels id : Nat} {path visited visited' : List Nat} (hid : Reaches h.get sub id)
    (hlevels : path.length+levels = maxHierarchyDepth+1) (hnd : path.Nodup)
    (hreach : ∀ x ∈ path, Reaches h.get sub x) (hpath : ∀ x ∈ path, x ∈ visited)
    (hs : Searched h other visited path)
    (hfalse : h.isSubclassOfInner other levels id visited = (false,visited')) :
    Missed h other path id visited visited' := by
  induction levels generalizing id path visited visited' with
  | zero =>
    have := hbound.length_le hnd hreach
    omega
  | succ levels ih => ?_
  rw [isSubclassOfInner] at hfalse
  split at hfalse
  · cases (mk.inj hfalse).1
  rename_i hne
  split at hfalse
  · rename_i hseen
    obtain rfl := (mk.inj hfalse).2
    exact ⟨fun _ hv => hv,hs,hne,.inl hseen⟩
  rename_i hnew
  cases hc : h.get id with
  | none =>
    rw [hc] at hfalse
    obtain rfl := (mk.inj hfalse).2
    exact ⟨fun _ hv => hv,hs,hne,.inr hc⟩
  | some c => ?_
  simp only [hc] at hfalse
  have hreach' : ∀ x ∈ id::path, Reaches h.get sub x := by
    intro x hx
    rcases mem_cons.mp hx with rfl | hx
    · exact hid
    · exact hreach x hx
  have hnd' : (id::path).Nodup :=
    nodup_cons.mpr ⟨fun hmem => hnew (hpath id hmem),hnd⟩
  have hpath' : ∀ x ∈ id::path, x ∈ visited++[id] := by
    intro x hx
    rcases mem_cons.mp hx with rfl | hx
    · simp
    · simp [hpath x hx]
  have hs' : Searched h other (visited++[id]) (id::path) := by
    intro v hv hvp
    rw [mem_cons,not_or] at hvp
    have hv' : v ∈ visited := by simpa [hvp.1] using hv
    obtain ⟨hvo,hedges⟩ := hs v hv' hvp.2
    exact ⟨hvo,fun e he => ⟨(hedges e he).1,(hedges e he).2.imp (fun h => by simp [h]) fun h => h⟩⟩
  obtain ⟨hmono,hsearched,hall⟩ := walkEdges_missed
    (fun e he v v' hv hpv hrun => ih (hid.tail ⟨c,hc,he⟩) (by simp; omega) hnd' hreach' hpv hv hrun)
    hs' hpath' hfalse
  refine ⟨fun v hv => hmono v (by simp [hv]),fun v hv hvp => ?_,hne,.inl (hmono id (by simp))⟩
  by_cases hvid : v = id
  · subst hvid
    refine ⟨hne,fun e ⟨k,hk,he⟩ => ?_⟩
    obtain rfl := some.inj (hc.symm.trans hk)
    exact hall e he
  · exact hsearched v hv (by simp [hvid,hvp])

theorem isSubclassOfWalk_exact {sub : Nat}
    (hbound : ReachesAtMost h.get sub maxHierarchyDepth) :
    h.isSubclassOfWalk sub other = true ↔ Reaches h.get sub other := by
  refine ⟨isSubclassOfInner_sound,fun hreach => ?_⟩
  unfold isSubclassOfWalk
  cases hrun : h.isSubclassOfInner other (maxHierarchyDepth+1) sub [] with
  | mk found visited => ?_
  cases found with
  | true => rfl
  | false => ?_
  obtain ⟨-,hs,hne,hsub⟩ := isSubclassOfInner_missed hbound .refl
    (by simp) nodup_nil (by simp) (by simp) (by simp [Searched]) hrun
  have hall : ∀ x, Reaches h.get sub x → x ≠ other ∧ (x ∈ visited ∨ h.get x = none) := by
    intro x hx
    induction hx with
    | refl => exact ⟨hne,hsub⟩
    | tail _ hxy ih => ?_
    rcases ih.2 with hmem | hnone
    · exact (hs _ hmem (by simp)).2 _ hxy
    obtain ⟨k,hk,-⟩ := hxy
    rw [hnone] at hk
    cases hk
  exact absurd rfl (hall other hreach).1

end

section
variable {h : Hierarchy} {sub sup : Nat}

/-- Every path ends with superclass edges, from its start or from the last interface it goes
through. -/
theorem last_interface {g : Stored} {a b : Nat} (hr : Reaches g a b) :
    Relation.ReflTransGen (SuperEdge g) a b ∨
      ∃ x key, InterfaceEdge g x key ∧ Relation.ReflTransGen (SuperEdge g) key b := by
  induction hr with
  | refl => exact .inl .refl
  | @tail y z _ hyz ih => ?_
  rcases edge_iff.mp hyz with hyz | hyz
  · rcases ih with ih | ⟨x,key,hx,hkey⟩
    · exact .inl (ih.tail hyz)
    · exact .inr ⟨x,key,hx,hkey.tail hyz⟩
  · exact .inr ⟨y,z,hyz,.refl⟩

theorem display_index {g : Stored} {x y : Nat} {s t : PrimaryDisplay} (hs : DisplayOf g x s)
    (ht : DisplayOf g y t) (hreach : Relation.ReflTransGen (SuperEdge g) x y) :
    t.depth ≤ s.depth ∧ (t.depth < primaryDisplayLen → s.supers[t.depth]? = some y) := by
  obtain ⟨l,hl,hlen,hsupers,-⟩ := hs
  obtain ⟨m,hm,hmlen,-,-⟩ := ht
  obtain ⟨i,hi,hget⟩ := getElem_of_mem (hl.mem_of_superReaches hreach)
  have hidx := hl.index_eq (List.getElem?_eq_some_iff.mpr ⟨hi,hget⟩) hm
  obtain rfl : i = t.depth := by omega
  refine ⟨by omega,fun hlt => ?_⟩
  rw [hsupers,getElem?_take_of_lt hlt]
  exact List.getElem?_eq_some_iff.mpr ⟨hi,hget⟩

/-- A valid answer of the displays. The negative one is about the whole store: a path to the class
through an interface would need that interface to be the class or two levels deep. -/
theorem primaryDisplayVerdict_exact (hi : Consistent h) {b : Bool}
    (hb : h.primaryDisplayVerdict sub sup = some b) : b = true ↔ Reaches h.get sub sup := by
  unfold primaryDisplayVerdict at hb
  split at hb
  · cases hb
  cases ht : h.displayAt sup with
  | none => simp [ht] at hb
  | some t => ?_
  cases hs : h.displayAt sub with
  | none => simp [ht,hs] at hb
  | some s => ?_
  have hsub := hi.displays sub not_false s hs
  have hsup := hi.displays sup not_false t ht
  simp only [ht,hs] at hb
  split at hb
  · cases hb
  rename_i hdepth
  rw [not_or,Nat.not_le] at hdepth
  split at hb
  · rename_i hfound
    obtain rfl := some.inj hb
    obtain ⟨l,hl,-,hsupers,-⟩ := hsub
    simp only [true_iff]
    rw [hsupers] at hfound
    exact hl.reaches (mem_of_mem_take (mem_of_getElem? hfound.2))
  rename_i hnot
  split at hb
  · cases hb
  rename_i hdeep
  obtain rfl := some.inj hb
  simp only [Bool.false_eq_true,false_iff]
  intro hreach
  rw [not_or,not_not,Bool.not_eq_true] at hdeep
  rcases last_interface hreach with hchain | ⟨x,key,hx,hchain⟩
  · obtain ⟨hle,hget⟩ := display_index hsub hsup hchain
    exact hnot ⟨hle,hget hdepth.2⟩
  have hnamed : (h.implementors key).isSome = true :=
    (hi.edges.interfaces.isSome_iff hi.edges.noEmpty key).mpr ⟨x,hx⟩
  have hshallow : h.isDeepInterfaceKey key = false := by
    rw [← Bool.not_eq_true,← hi.deep key not_false,hdeep.1]
    simp
  rw [isDeepInterfaceKey,hnamed,Bool.true_and] at hshallow
  cases hk : h.displayAt key with
  | none => simp [hk] at hshallow
  | some k => ?_
  simp only [hk,decide_eq_false_iff_not,Nat.not_le] at hshallow
  have hkey := hi.displays key not_false k hk
  obtain ⟨hle,hget⟩ := display_index hkey hsup hchain
  -- the key has depth at most one, so it would be the class itself
  obtain ⟨l,hl,hlen,hsupers,-⟩ := hkey
  have hself : k.depth = t.depth := by omega
  have hlast := hl.getLast
  rw [getLast?_eq_getElem?,hlen] at hlast
  have hsame := hget hdepth.2
  rw [hsupers,getElem?_take_of_lt hdepth.2,← hself] at hsame
  obtain rfl : key = sup := some.inj (hlast.symm.trans hsame)
  rw [hdeep.2] at hnamed
  cases hnamed

end

section
variable {h : Hierarchy} {sub sup : Nat}

theorem growClosure_some {g : Stored} {id : Nat} (hbound : ReachesAtMost g id maxHierarchyDepth)
    {edges out : List Nat} (stack : List Nat) (hnd : out.Nodup) (hout : ∀ x ∈ out, Reaches g id x)
    (hedges : ∀ x ∈ edges, Reaches g id x) : ∃ r, growClosure edges out stack = some r := by
  induction edges generalizing out stack with
  | nil => exact ⟨_,rfl⟩
  | cons v edges ih => ?_
  have hrest : ∀ x ∈ edges, Reaches g id x := fun x hx => hedges x (by simp [hx])
  rw [growClosure]
  split
  · exact ih stack hnd hout hrest
  rename_i hv
  have hnd' : (out++[v]).Nodup := by
    refine nodup_append.mpr ⟨hnd,by simp,fun a ha b hb => ?_⟩
    rintro rfl
    exact hv (mem_singleton.mp hb ▸ ha)
  have hout' : ∀ x ∈ out++[v], Reaches g id x := by
    intro x hx
    rcases mem_append.mp hx with hx | hx
    · exact hout x hx
    · exact hedges x (by simp [mem_singleton.mp hx])
  have hle := hbound.length_le hnd' hout'
  rw [length_append,length_singleton] at hle
  rw [if_neg (by omega)]
  exact ih _ hnd' hout' hrest

theorem closureLoop_some {id : Nat} (hbound : ReachesAtMost h.get id maxHierarchyDepth) {turns : Nat}
    {out stack : List Nat} (hg : Growing h id out stack)
    (hturns : turns+out.length = maxHierarchyDepth+stack.length) :
    ∃ out', h.closureLoop turns out stack = some out' := by
  induction turns generalizing out stack with
  | zero =>
    cases stack with
    | nil => exact ⟨out,rfl⟩
    | cons n stack =>
      have := hg.short
      rw [length_cons] at hturns
      omega
  | succ turns ih => ?_
  cases stack with
  | nil => exact ⟨out,rfl⟩
  | cons n stack => ?_
  rw [length_cons] at hturns
  rw [closureLoop]
  cases hn : h.get n with
  | none => exact ih (hg.pop hn) (by omega)
  | some c => ?_
  have hreach := hg.reached n (hg.found n (by simp))
  obtain ⟨⟨out',stack'⟩,hgrow⟩ := growClosure_some hbound stack hg.nodup hg.reached
    fun x hx => hreach.tail ⟨c,hn,hx⟩
  have hlen := (growClosure_spec hgrow hg.nodup hg.short).2.2.1
  simp only [hgrow]
  exact ih (hg.grow hn hgrow) (by omega)

section
variable (hi : Consistent h)
include hi

theorem publishClosure_consistent {id : Nat} (hid : (h.get id).isSome = true) :
    Consistent (h.publishClosure id).2 ∧ (h.publishClosure id).2.get = h.get ∧
      ∀ enc, (h.publishClosure id).1 = some enc →
        enc = (h.publishClosure id).2.secondaries.slots id := by
  obtain ⟨hcount,hslots,henc⟩ := publish_exact hi.count hi.slots hid
    (fun hne => computeSecondarySupers_exact hne)
  exact ⟨⟨hi.lengths,⟨hi.edges.supers,hi.edges.interfaces,hi.edges.noEmpty⟩,hi.displays,hi.deep,
    hcount,hslots⟩,rfl,henc⟩

theorem ensureSecondarySupersPublished_consistent {id : Nat} :
    Consistent (h.ensureSecondarySupersPublished id) := by
  unfold ensureSecondarySupersPublished
  split
  · rename_i hcond
    simp only [Bool.and_eq_true] at hcond
    exact (publishClosure_consistent hi hcond.2).1
  · exact hi

theorem secondarySupersVerdict_exact :
    Consistent (h.secondarySupersVerdict sub sup).2 ∧
      (h.secondarySupersVerdict sub sup).2.get = h.get ∧
      ∀ b, (h.secondarySupersVerdict sub sup).1 = some b → (b = true ↔ Reaches h.get sub sup) := by
  unfold secondarySupersVerdict
  split
  · exact ⟨hi,rfl,fun b hb => by cases hb⟩
  dsimp only
  split
  · exact ⟨hi,rfl,fun b hb => (hi.slots sub).answer hb⟩
  split
  · exact ⟨hi,rfl,fun b hb => by cases hb⟩
  rename_i hcan
  have hstored : (h.get sub).isSome = true := by
    cases hg : h.get sub <;> simp [hg] at hcan ⊢
  obtain ⟨hi',hget,henc⟩ := publishClosure_consistent hi hstored
  generalize h.publishClosure sub = published at *
  obtain ⟨enc?,h'⟩ := published
  cases enc? with
  | none => exact ⟨hi',hget,fun b hb => by cases hb⟩
  | some enc => ?_
  refine ⟨hi',hget,fun b hb => ?_⟩
  have hval := henc enc rfl
  rw [hval] at hb
  rw [← hget]
  exact (hi'.slots sub).answer hb

theorem isSubclassOf_consistent : Consistent (h.isSubclassOf sub sup).2 := by
  unfold isSubclassOf
  split
  · exact hi
  split
  · exact ensureSecondarySupersPublished_consistent hi
  have hsec := (@secondarySupersVerdict_exact h sub sup hi).1
  generalize h.secondarySupersVerdict sub sup = r at *
  obtain ⟨v,h'⟩ := r
  cases v with
  | none => exact hsec
  | some b => exact hsec

theorem isSubclassOf_exact
    (hbound : ReachesAtMost h.get sub maxHierarchyDepth) :
    (h.isSubclassOf sub sup).1 = true ↔ Reaches h.get sub sup := by
  unfold isSubclassOf
  split
  · rename_i heq
    exact ⟨fun _ => heq ▸ .refl,fun _ => rfl⟩
  split
  · rename_i b hb
    exact primaryDisplayVerdict_exact hi hb
  obtain ⟨hi',hget,hans⟩ := @secondarySupersVerdict_exact h sub sup hi
  generalize h.secondarySupersVerdict sub sup = r at *
  obtain ⟨v,h'⟩ := r
  cases v with
  | none =>
    dsimp only at hget ⊢
    rw [← hget] at hbound ⊢
    exact isSubclassOfWalk_exact hbound
  | some b => exact hans b rfl

end
end

open Hierarchy PublishedSupers

/-- What is done to a store. A question is an operation too: it may publish a closure. -/
inductive StoreOp where
  | add (c : Class)
  | setSuperclass (id : Nat) (newSuper : Option Nat)
  | setInterfaces (id : Nat) (newInterfaces : List Nat)
  | remove (id : Nat)
  | ask (sub sup : Nat)

def StoreOp.apply (h : Hierarchy) : StoreOp → Hierarchy
  | .add c => h.add c
  | .setSuperclass id newSuper => h.setSuperclass id newSuper
  | .setInterfaces id newInterfaces => h.setInterfaces id newInterfaces
  | .remove id => h.remove id
  | .ask sub sup => (h.isSubclassOf sub sup).2

/-- Only a class that no other stored class names is removed. -/
def StoreOp.Legal (h : Hierarchy) : StoreOp → Prop
  | .remove id => Unnamed h id
  | _ => True

/-- The stores that legal operations lead to, from an empty one with any switches. -/
inductive StoreHistory : Hierarchy → Prop where
  | start (displayEnabled sortedUnlink : Bool) :
      StoreHistory { displayEnabled := displayEnabled, sortedUnlink := sortedUnlink }
  | step {h : Hierarchy} (op : StoreOp) (hh : StoreHistory h) (hl : op.Legal h) :
      StoreHistory (op.apply h)

theorem start_consistent (displayEnabled sortedUnlink : Bool) :
    Consistent { displayEnabled := displayEnabled, sortedUnlink := sortedUnlink } := by
  have hget : ∀ x, Hierarchy.get
      { displayEnabled := displayEnabled, sortedUnlink := sortedUnlink } x = none := fun x => rfl
  refine ⟨rfl,⟨?_,?_,?_⟩,?_,?_,⟨∅,by simp [supersEmpty],rfl⟩,?_⟩
  · intro p
    simp [kidsOf,SuperEdge,hget]
  · intro p
    simp [kidsOf,InterfaceEdge,hget]
  · intro p
    simp
  · intro x _ d hd
    simp [displayAt] at hd
  · intro key _
    simp [isDeepInterfaceKey]
  intro x hx
  exact absurd rfl hx

theorem StoreOp.apply_consistent {h : Hierarchy} (hi : Consistent h) {op : StoreOp}
    (hl : op.Legal h) : Consistent (op.apply h) := by
  cases op with
  | add c => exact add_consistent hi
  | setSuperclass id newSuper => exact setSuperclass_consistent hi newSuper
  | setInterfaces id newInterfaces => exact setInterfaces_consistent hi newInterfaces
  | remove id => exact remove_consistent hi hl
  | ask sub sup => exact isSubclassOf_consistent hi

theorem StoreHistory.consistent {h : Hierarchy} (hh : StoreHistory h) : Consistent h := by
  induction hh with
  | start displayEnabled sortedUnlink => exact start_consistent displayEnabled sortedUnlink
  | step op _ hl ih => exact op.apply_consistent ih hl

/-- Subtype questions are reachability: the answer, whichever of the displays, the closures or the
walk gives it, and what a published closure says when it is read between mutations. -/
theorem StoreHistory.subtype_exact {h : Hierarchy} (hh : StoreHistory h) (sub sup : Nat)
    (hbound : ReachesAtMost h.get sub maxHierarchyDepth) :
    ((h.isSubclassOf sub sup).1 = true ↔ Reaches h.get sub sup) ∧
      (∀ b, h.primaryDisplayVerdict sub sup = some b → (b = true ↔ Reaches h.get sub sup)) ∧
      (∀ b, (h.secondarySupersVerdict sub sup).1 = some b → (b = true ↔ Reaches h.get sub sup)) ∧
      (h.isSubclassOfWalk sub sup = true ↔ Reaches h.get sub sup) ∧
      ∀ b, h.secondaries.verdict sub sup = some b → (b = true ↔ Reaches h.get sub sup) := by
  have hi := hh.consistent
  refine ⟨isSubclassOf_exact hi hbound,?_,?_,isSubclassOfWalk_exact hbound,?_⟩
  · exact fun b hb => primaryDisplayVerdict_exact hi hb
  · exact (secondarySupersVerdict_exact hi).2.2
  · exact fun b hb => (hi.slots sub).answer hb

/-- A root, a class below it with an interface that is not stored yet, and a question. -/
def forwardEdgeStore : Hierarchy :=
  let h : Hierarchy := { displayEnabled := true, sortedUnlink := true }
  let h := StoreOp.apply h (.add { name := ['R'] })
  let h := StoreOp.apply h (.add { name := ['C'], superclass := some 0, interfaces := [2] })
  StoreOp.apply h (.ask 1 2)

theorem forwardEdgeStore_history : StoreHistory forwardEdgeStore :=
  .step (.ask 1 2) (.step (.add { name := ['C'], superclass := some 0, interfaces := [2] })
    (.step (.add { name := ['R'] }) (.start true true) trivial) trivial) trivial

theorem forwardEdgeStore_bound : ReachesAtMost forwardEdgeStore.get 1 maxHierarchyDepth := by
  have h0 : forwardEdgeStore.get 0 = some { name := ['R'] } := by decide
  have h1 : forwardEdgeStore.get 1 =
      some { name := ['C'], superclass := some 0, interfaces := [2] } := by decide
  have h2 : forwardEdgeStore.get 2 = none := by decide
  have hsub : {x | Reaches forwardEdgeStore.get 1 x} ⊆ (({0,1,2} : Finset Nat) : Set Nat) := by
    intro x hx
    induction hx with
    | refl => simp
    | @tail y z _ hyz ih => ?_
    obtain ⟨c,hc,hz⟩ := hyz
    simp only [Finset.coe_insert,Finset.coe_singleton,Set.mem_insert_iff,
      Set.mem_singleton_iff] at ih
    rcases ih with rfl | rfl | rfl
    · obtain rfl := Option.some.inj (h0.symm.trans hc)
      simp [edgesOf] at hz
    · obtain rfl := Option.some.inj (h1.symm.trans hc)
      simp [edgesOf] at hz
      rcases hz with rfl | rfl <;> simp
    rw [h2] at hc
    cases hc
  refine (Set.encard_le_encard hsub).trans ?_
  exact_mod_cast (by decide : ({0,1,2} : Finset Nat).card ≤ maxHierarchyDepth)

theorem forwardEdgeStore_subtype :
    (forwardEdgeStore.isSubclassOf 1 2).1 = true ↔ Reaches forwardEdgeStore.get 1 2 :=
  (forwardEdgeStore_history.subtype_exact 1 2 forwardEdgeStore_bound).1

theorem isSubclassOf_get {h : Hierarchy} (hi : Consistent h) (sub sup : Nat) :
    (h.isSubclassOf sub sup).2.get = h.get := by
  unfold isSubclassOf
  split
  · rfl
  split
  · unfold ensureSecondarySupersPublished
    split
    · rename_i hcond
      simp only [Bool.and_eq_true] at hcond
      exact (publishClosure_consistent hi hcond.2).2.1
    · rfl
  have hsec := (@secondarySupersVerdict_exact h sub sup hi).2.1
  generalize h.secondarySupersVerdict sub sup = r at *
  obtain ⟨v,h'⟩ := r
  cases v <;> exact hsec

def Hierarchy.askAll (h : Hierarchy) (asked : List (Nat × Nat)) : Hierarchy :=
  asked.foldl (fun h q => (h.isSubclassOf q.1 q.2).2) h

/-- The questions asked before, and what they publish, leave every answer. -/
theorem StoreHistory.answers_stable {h : Hierarchy} (hh : StoreHistory h) (asked : List (Nat × Nat))
    {sub : Nat} (hbound : ReachesAtMost h.get sub maxHierarchyDepth) (sup : Nat) :
    ((h.askAll asked).isSubclassOf sub sup).1 = (h.isSubclassOf sub sup).1 := by
  have hkeep : ∀ {h : Hierarchy}, Consistent h → Consistent (h.askAll asked) ∧ (h.askAll asked).get = h.get := by
    induction asked with
    | nil => exact fun hi => ⟨hi,rfl⟩
    | cons q asked ih => ?_
    intro h hi
    obtain ⟨hi',hget⟩ := ih (isSubclassOf_consistent hi)
    exact ⟨hi',hget.trans (isSubclassOf_get hi _ _)⟩
  obtain ⟨hi,hget⟩ := hkeep hh.consistent
  have hafter := @isSubclassOf_exact (h.askAll asked) sub sup hi (hget.symm ▸ hbound)
  rw [hget] at hafter
  exact Bool.eq_iff_iff.mpr (hafter.trans (isSubclassOf_exact hh.consistent hbound).symm)

theorem answers_stable_forwardEdge :
    ((forwardEdgeStore.askAll [(1,2),(1,0)]).isSubclassOf 1 2).1 = (forwardEdgeStore.isSubclassOf 1 2).1 :=
  forwardEdgeStore_history.answers_stable [(1,2),(1,0)] forwardEdgeStore_bound 2

/-- The closure lists every supertype unless they are too many; then it is empty. -/
theorem computeSecondarySupers_closure_iff (h : Hierarchy) (id : Nat) :
    ClosureOf h.get id (h.computeSecondarySupers id) ↔ ReachesAtMost h.get id maxHierarchyDepth := by
  refine ⟨fun hc => ?_,fun hbound => ?_⟩
  · have hlen := (computeSecondarySupers_exact (List.ne_nil_of_mem ((hc.2 id).mpr .refl))).2
    have hset : {x | Reaches h.get id x} = ((h.computeSecondarySupers id).toFinset : Set Nat) := by
      ext x
      simp [hc.2]
    rw [ReachesAtMost,hset,Set.encard_coe_eq_coe_finsetCard]
    exact_mod_cast (List.toFinset_card_le _).trans hlen
  refine (computeSecondarySupers_exact ?_).1
  obtain ⟨out,hout⟩ := closureLoop_some hbound (growing_start h id) rfl
  rw [computeSecondarySupers,hout]
  exact List.ne_nil_of_mem ((List.mem_insertionSort (· ≤ ·)).mpr (closureLoop_exact (growing_start h id) hout).self)

end CratonVM.ClassLoading
