import CratonVM.ClassLoading.Hierarchy.Closures

/-!
What every mutator of the store keeps: exact reverse indices, displays that are the superclass
chains, exact deep interface keys and exact closures.
-/
namespace CratonVM.ClassLoading
open Hierarchy PublishedSupers List Option

def InterfaceEdge (g : Stored) (a b : Nat) : Prop := ∃ c, g a = some c ∧ b ∈ c.interfaces

theorem edge_iff {g : Stored} {a b : Nat} : Edge g a b ↔ SuperEdge g a b ∨ InterfaceEdge g a b := by
  constructor
  · rintro ⟨c,hc,hb⟩
    exact (mem_edgesOf.mp hb).imp (fun hb => ⟨c,hc,hb⟩) fun hb => ⟨c,hc,hb⟩
  rintro (⟨c,hc,hb⟩ | ⟨c,hc,hb⟩)
  · exact ⟨c,hc,mem_edgesOf.mpr (.inl hb)⟩
  · exact ⟨c,hc,mem_edgesOf.mpr (.inr hb)⟩

structure EdgesExact (g : Stored) (h : Hierarchy) : Prop where
  supers : Indexed (SuperEdge g) h.subclasses
  interfaces : Indexed (InterfaceEdge g) h.implementors
  noEmpty : NoEmptyKey h.implementors

/-- What holds of a store between two operations. -/
structure Consistent (h : Hierarchy) : Prop where
  lengths : h.displays.length = h.classes.length
  edges : EdgesExact h.get h
  displays : DisplaysExact h.get (fun _ => False) h
  deep : DeepExact (fun _ => False) h
  count : FilledCount h.secondaries
  slots : ∀ x, SlotExact h.get h.secondaries x

section
variable {h : Hierarchy} {id : Nat}

theorem lt_of_get {x : Nat} {c : Class} (hc : h.get x = some c) : x < h.classes.length := by
  by_contra hge
  rw [Hierarchy.get,getElem?_eq_none (by omega)] at hc
  cases hc

theorem get_setClass (hid : id < h.classes.length) (c : Option Class) (x : Nat) :
    (h.setClass id c).get x = if x = id then c else h.get x := by
  unfold Hierarchy.get setClass
  by_cases hx : x = id
  · subst hx
    simp [hid]
  · rw [getElem?_set_ne (Ne.symm hx),if_neg hx]

theorem sameBut_setClass (hid : id < h.classes.length) (c : Option Class) :
    SameBut h.get (h.setClass id c).get id := by
  intro x hx
  rw [get_setClass hid,if_neg hx]

theorem children_of_edge {g : Stored} (he : EdgesExact g h) {x y : Nat} :
    x ∈ h.childrenOf y ↔ Edge g x y := by
  rw [childrenOf,mem_append,(he.supers y).2,(he.interfaces y).2,edge_iff]

theorem mem_reaching_of_reaches {g : Stored} (he : EdgesExact g h)
    (hbound : ∀ x c, g x = some c → x < h.classes.length) {x : Nat} (hr : Reaches g x id) :
    x ∈ h.reaching id := by
  refine reaching_mem ?_ ?_
  · intro n x hx
    obtain ⟨c,hc,-⟩ := (children_of_edge he).mp hx
    exact hbound x c hc
  have hswap : Relation.ReflTransGen (Function.swap (Edge g)) id x :=
    Relation.reflTransGen_swap.mpr hr
  exact Relation.ReflTransGen.mono (fun a b hab => (children_of_edge he).mpr hab) _ _ hswap

end

section
variable {h h' : Hierarchy} {g : Stored}

theorem Hierarchy.SameEdges.edgesExact (a : SameEdges h h') (he : EdgesExact g h) : EdgesExact g h' :=
  ⟨a.subclasses ▸ he.supers,a.implementors ▸ he.interfaces,a.implementors ▸ he.noEmpty⟩

theorem displaysExact_congr {except : Nat → Prop} (hd : h'.displays = h.displays)
    (hex : DisplaysExact g except h) : DisplaysExact g except h' := by
  intro x hx d hxd
  rw [displayAt,hd] at hxd
  exact hex x hx d hxd

theorem deepExact_congr {except except' : Nat → Prop} (hex : DeepExact except h)
    (hkeys : h'.deepInterfaceKeys = h.deepInterfaceKeys)
    (hsame : ∀ x, ¬except' x → ¬except x ∧ h'.displayAt x = h.displayAt x ∧
      (h'.implementors x).isSome = (h.implementors x).isSome) :
    DeepExact except' h' := by
  intro x hx
  obtain ⟨hno,hdisplay,himpl⟩ := hsame x hx
  rw [hkeys,isDeepInterfaceKey,hdisplay,himpl]
  exact hex x hno

theorem displays_refreshAll (keys : List Nat) (h : Hierarchy) :
    (keys.foldl refreshDeepInterfaceKey h).displays = h.displays := by
  induction keys generalizing h with
  | nil => rfl
  | cons key keys ih => exact ih (h.refreshDeepInterfaceKey key)

theorem implementors_isSome_congr {g' : Stored} (he : EdgesExact g h) (he' : EdgesExact g' h')
    {x : Nat} (hsame : ∀ y, InterfaceEdge g' y x ↔ InterfaceEdge g y x) :
    (h'.implementors x).isSome = (h.implementors x).isSome := by
  rw [Bool.eq_iff_iff,he.interfaces.isSome_iff he.noEmpty,he'.interfaces.isSome_iff he'.noEmpty]
  exact exists_congr hsame

theorem refreshed_consistent {keys : List Nat} (hlen : h.displays.length = h.classes.length)
    (hedges : EdgesExact h.get h) (hdisp : DisplaysExact h.get (fun _ => False) h)
    (hdeep : DeepExact (fun x => x ∈ keys) h) (hcount : FilledCount h.secondaries)
    (hslots : ∀ x, SlotExact h.get h.secondaries x) :
    Consistent (keys.foldl refreshDeepInterfaceKey h) := by
  have hkept : SameEdges h (keys.foldl refreshDeepInterfaceKey h) :=
    sameEdges_foldl (fun _ x => sameEdges_refresh x) _ _
  refine ⟨?_,?_,?_,?_,?_,?_⟩
  · rw [hkept.length,hkept.classes]
    exact hlen
  · rw [hkept.get]
    exact hkept.edgesExact hedges
  · rw [hkept.get]
    exact displaysExact_congr (displays_refreshAll _ _) hdisp
  · exact fun x _ => hdeep.refreshAll _ x fun hbad => hbad.2 hbad.1
  · rw [hkept.secondaries]
    exact hcount
  rw [hkept.get,hkept.secondaries]
  exact hslots

end

section
variable {h : Hierarchy} {id : Nat} {c : Class}

/-- A store where one stored class was replaced, or taken out, and the closures that reach it were
forgotten; the indices still list the old edges. -/
structure Replaced (h h' : Hierarchy) (id : Nat) (new : Option Class) : Prop where
  get : ∀ x, h'.get x = if x = id then new else h.get x
  lengths : h'.displays.length = h'.classes.length
  subclasses : h'.subclasses = h.subclasses
  implementors : h'.implementors = h.implementors
  displays : h'.displays = h.displays
  deepKeys : h'.deepInterfaceKeys = h.deepInterfaceKeys
  count : FilledCount h'.secondaries
  slots : ∀ x, SlotExact h'.get h'.secondaries x

theorem Replaced.sameBut {h' : Hierarchy} {new : Option Class} (hr : Replaced h h' id new) :
    SameBut h.get h'.get id := by
  intro x hx
  rw [hr.get,if_neg hx]

theorem Replaced.get_self {h' : Hierarchy} {new : Option Class} (hr : Replaced h h' id new) :
    h'.get id = new := by
  rw [hr.get,if_pos rfl]

theorem replaced (hi : Consistent h) (hc : h.get id = some c) (new : Option Class) :
    Replaced h ((h.setClass id new).forgetSecondarySupersReaching id) id new := by
  have hid := lt_of_get hc
  have hedges : EdgesExact h.get (h.setClass id new) :=
    ⟨hi.edges.supers,hi.edges.interfaces,hi.edges.noEmpty⟩
  obtain ⟨hf,hlost⟩ := @forgetSecondarySupersReaching_spec (h.setClass id new) id hi.count
  have hslots := hf.exact hi.slots (sameBut_setClass hid new) fun x hx _ =>
    hlost x (mem_reaching_of_reaches hedges (fun x c hx => by simpa [setClass] using lt_of_get hx) hx)
  generalize (h.setClass id new).forgetSecondarySupersReaching id = h' at hf hslots
  have hget : h'.get = (h.setClass id new).get := by
    rw [hf.same]
    rfl
  refine ⟨fun x => ?_,?_,?_,?_,?_,?_,hf.count,hget ▸ hslots⟩
  · rw [hget,get_setClass hid]
  · rw [hf.same]
    simpa [setClass] using hi.lengths
  all_goals
    rw [hf.same]
    rfl

end

section
variable {h : Hierarchy} {id : Nat} {c : Class}

theorem superEdge_changed {g g' : Stored} {newSuper : Option Nat} (hc : g id = some c)
    (hc' : g' id = some { c with superclass := newSuper }) (hsame : SameBut g g' id) (x p : Nat) :
    SuperEdge g' x p ↔
      (SuperEdge g x p ∧ ¬(x = id ∧ c.superclass = some p)) ∨ x = id ∧ newSuper = some p := by
  by_cases hx : x = id
  · subst hx
    simp [SuperEdge,hc,hc']
  · simp [SuperEdge,hx,hsame x hx]

theorem interfaceEdge_same_interfaces {g g' : Stored} {c' : Class} (hc : g id = some c)
    (hc' : g' id = some c') (hint : c'.interfaces = c.interfaces) (hsame : SameBut g g' id)
    (x p : Nat) : InterfaceEdge g x p ↔ InterfaceEdge g' x p := by
  by_cases hx : x = id
  · subst hx
    simp [InterfaceEdge,hc,hc',hint]
  · simp [InterfaceEdge,hsame x hx]

theorem setSuperclass_consistent (hi : Consistent h) (newSuper : Option Nat) :
    Consistent (h.setSuperclass id newSuper) := by
  unfold setSuperclass
  cases hc : h.get id with
  | none => exact hi
  | some c => ?_
  dsimp only
  split
  · exact hi
  have hr := replaced hi hc (some { c with superclass := newSuper })
  generalize (h.setClass id (some { c with superclass := newSuper })).forgetSecondarySupersReaching
    id = h2 at hr
  generalize hh3 : { h2 with
    subclasses := linkSuper (unlinkSuper h2.subclasses c.superclass id h2.sortedUnlink) newSuper id } = h3
  have hget : h3.get = h2.get := by
    rw [← hh3]
    rfl
  have hsame : SameBut h.get h3.get id := hget ▸ hr.sameBut
  have hedges : EdgesExact h3.get h3 := by
    refine ⟨?_,?_,?_⟩
    · rw [← hh3]
      rw [hr.subclasses]
      refine ((hi.edges.supers.unlinkSuper c.superclass id _).linkSuper newSuper id).congr ?_
      exact fun x p => (superEdge_changed hc hr.get_self hr.sameBut x p).symm
    · rw [← hh3]
      rw [hr.implementors]
      exact hi.edges.interfaces.congr (interfaceEdge_same_interfaces hc hr.get_self rfl hr.sameBut)
    rw [← hh3]
    rw [hr.implementors]
    exact hi.edges.noEmpty
  have hdisplays : h3.displays = h.displays := by
    rw [← hh3]
    exact hr.displays
  have hdeep : DeepExact (fun _ => False) h3 := by
    refine deepExact_congr hi.deep (hh3 ▸ hr.deepKeys) fun x hx => ⟨hx,?_,?_⟩
    · rw [displayAt,hdisplays]
      rfl
    rw [← hh3]
    rw [hr.implementors]
  have hkept : SameEdges h3 ((h3.recomputeDisplayAt id).recomputeDisplaysBelow id) :=
    (sameEdges_recomputeDisplayAt id).trans (sameEdges_recomputeDisplaysBelow id)
  have hsec : h3.secondaries = h2.secondaries := by rw [← hh3]
  refine ⟨?_,?_,?_,?_,?_,?_⟩
  · rw [hkept.length,hkept.classes,← hh3]
    exact hr.lengths
  · rw [hkept.get]
    exact hkept.edgesExact hedges
  · rw [hkept.get]
    exact recompute_exact (displaysExact_congr hdisplays hi.displays) hsame hedges.supers
  · exact hdeep.recomputeDisplayAt.recomputeDisplaysBelow
  · rw [hkept.secondaries,hsec]
    exact hr.count
  rw [hkept.get,hkept.secondaries,hsec,hget]
  exact hr.slots

end

section
variable {h : Hierarchy} {id : Nat} {c : Class}

theorem superEdge_same_superclass {g g' : Stored} {c' : Class} (hc : g id = some c)
    (hc' : g' id = some c') (hsuper : c'.superclass = c.superclass) (hsame : SameBut g g' id)
    (x p : Nat) : SuperEdge g x p ↔ SuperEdge g' x p := by
  by_cases hx : x = id
  · subst hx
    simp [SuperEdge,hc,hc',hsuper]
  · simp [SuperEdge,hsame x hx]

theorem superChain_same_superclass {g g' : Stored} {c' : Class} (hc : g id = some c)
    (hc' : g' id = some c') (hsuper : c'.superclass = c.superclass) (hsame : SameBut g g' id)
    {x : Nat} {l : List Nat} (hl : SuperChain g x l) : SuperChain g' x l := by
  have hmatch : ∀ {x : Nat} {k : Class}, g x = some k → ∃ k', g' x = some k' ∧
      k'.superclass = k.superclass := by
    intro x k hk
    by_cases hx : x = id
    · subst hx
      obtain rfl := some.inj (hc.symm.trans hk)
      exact ⟨c',hc',hsuper⟩
    · exact ⟨k,(hsame x hx).symm.trans hk,rfl⟩
  induction hl with
  | root hk hs =>
    obtain ⟨k',hk',hs'⟩ := hmatch hk
    exact .root hk' (hs'.trans hs)
  | step hk hs _ ih =>
    obtain ⟨k',hk',hs'⟩ := hmatch hk
    exact .step hk' (hs'.trans hs) ih

theorem interfaceEdge_changed {g g' : Stored} {new : List Nat} (hc : g id = some c)
    (hc' : g' id = some { c with interfaces := new }) (hsame : SameBut g g' id) (x p : Nat) :
    InterfaceEdge g' x p ↔
      (InterfaceEdge g x p ∧ ¬(x = id ∧ p ∈ c.interfaces.filter (· ∉ new))) ∨ x = id ∧ p ∈ new := by
  by_cases hx : x = id
  · subst hx
    simp [InterfaceEdge,hc,hc']
    tauto
  · simp [InterfaceEdge,hx,hsame x hx]

theorem setInterfaces_consistent (hi : Consistent h) (new : List Nat) :
    Consistent (h.setInterfaces id new) := by
  unfold setInterfaces
  cases hc : h.get id with
  | none => exact hi
  | some c => ?_
  dsimp only
  split
  · exact hi
  have hr := replaced hi hc (some { c with interfaces := new })
  generalize (h.setClass id (some { c with interfaces := new })).forgetSecondarySupersReaching
    id = h2 at hr
  generalize hh3 : { h2 with
    implementors := new.foldl (linkSubtypeEdge · · id) ((c.interfaces.filter (· ∉ new)).foldl
      (unlinkSubtypeEdgeWith · · id false) h2.implementors) } = h3
  have hget : h3.get = h2.get := by
    rw [← hh3]
    rfl
  have hedges : EdgesExact h3.get h3 := by
    refine ⟨?_,?_,?_⟩
    · rw [← hh3]
      rw [hr.subclasses]
      exact hi.edges.supers.congr (superEdge_same_superclass hc hr.get_self rfl hr.sameBut)
    · rw [← hh3]
      rw [hr.implementors]
      refine ((hi.edges.interfaces.unlinkAll _ id false).linkAll new id).congr ?_
      exact fun x p => (interfaceEdge_changed hc hr.get_self hr.sameBut x p).symm
    rw [← hh3]
    rw [hr.implementors]
    exact (hi.edges.noEmpty.unlinkAll _ id false).linkAll new id
  have hdisplays : h3.displays = h.displays := by
    rw [← hh3]
    exact hr.displays
  have hdeep : DeepExact (fun x => x ∈ c.interfaces++new) h3 := by
    refine deepExact_congr hi.deep (hh3 ▸ hr.deepKeys) fun x hx => ⟨not_false,?_,?_⟩
    · rw [displayAt,hdisplays]
      rfl
    refine implementors_isSome_congr hi.edges hedges fun y => ?_
    rw [hget,interfaceEdge_changed hc hr.get_self hr.sameBut]
    simp only [mem_append,not_or] at hx
    simp [hx]
  have hsec : h3.secondaries = h2.secondaries := by rw [← hh3]
  refine refreshed_consistent ?_ hedges ?_ hdeep (hsec ▸ hr.count) ?_
  · rw [← hh3]
    exact hr.lengths
  · intro x _ d hd
    rw [displayAt,hdisplays] at hd
    obtain ⟨l,hl,hrest⟩ := hi.displays x not_false d hd
    rw [hget]
    exact ⟨l,superChain_same_superclass hc hr.get_self rfl hr.sameBut hl,hrest⟩
  rw [hsec,hget]
  exact hr.slots

end

section
variable {h : Hierarchy} {id : Nat} {c : Class}

/-- No other stored class names it. -/
def Unnamed (h : Hierarchy) (id : Nat) : Prop :=
  ∀ x, x ≠ id → ¬Edge h.get x id

theorem superEdge_removed {g g' : Stored} (hc : g id = some c) (hc' : g' id = none)
    (hsame : SameBut g g' id) (x p : Nat) :
    SuperEdge g' x p ↔ SuperEdge g x p ∧ ¬(x = id ∧ c.superclass = some p) := by
  by_cases hx : x = id
  · subst hx
    simp [SuperEdge,hc,hc']
  · simp [SuperEdge,hx,hsame x hx]

theorem interfaceEdge_removed {g g' : Stored} (hc : g id = some c) (hc' : g' id = none)
    (hsame : SameBut g g' id) (x p : Nat) :
    InterfaceEdge g' x p ↔ InterfaceEdge g x p ∧ ¬(x = id ∧ p ∈ c.interfaces) := by
  by_cases hx : x = id
  · subst hx
    simp [InterfaceEdge,hc,hc']
  · simp [InterfaceEdge,hx,hsame x hx]

theorem Indexed.dropKey {names : Nat → Nat → Prop} {map : Nat → Option (List Nat)}
    (hidx : Indexed names map) {key : Nat} (hno : ∀ x, ¬names x key) :
    Indexed names (ClassLoading.setKey map key none) :=
  hidx.setKey (by simp) (by simpa using hno) fun _ _ _ => .rfl

theorem remove_consistent (hi : Consistent h) (hfree : Unnamed h id) :
    Consistent (h.remove id) := by
  unfold remove
  cases hc : h.get id with
  | none => exact hi
  | some c => ?_
  dsimp only
  have hr := replaced hi hc none
  generalize (h.setClass id none).forgetSecondarySupersReaching id = h2 at hr
  have hdrop : SameEdges h2 (h2.dropDisplays id) := sameEdges_dropDisplays id
  have hgone : ∀ x, ¬Edge h2.get x id := by
    rintro x ⟨k,hk,hx⟩
    by_cases hxid : x = id
    · rw [hxid,hr.get_self] at hk
      cases hk
    · exact hfree x hxid ⟨k,(hr.sameBut x hxid).trans hk,hx⟩
  generalize hh3 : h2.dropDisplays id = h3 at hdrop
  generalize hh4 : { h3 with
    subclasses := setKey (unlinkSuper h3.subclasses c.superclass id h3.sortedUnlink) id none
    implementors := setKey (c.interfaces.foldl (unlinkSubtypeEdgeWith · · id h3.sortedUnlink)
      h3.implementors) id none } = h4
  have hget : h4.get = h2.get := by
    rw [← hh4]
    exact hdrop.get
  have hedges : EdgesExact h4.get h4 := by
    rw [hget]
    refine ⟨?_,?_,?_⟩
    · rw [← hh4]
      dsimp only
      rw [hdrop.subclasses,hr.subclasses]
      refine Indexed.dropKey ((hi.edges.supers.unlinkSuper c.superclass id _).congr ?_) ?_
      · exact fun x p => (superEdge_removed hc hr.get_self hr.sameBut x p).symm
      · exact fun x hx => hgone x (edge_iff.mpr (.inl hx))
    · rw [← hh4]
      rw [hdrop.implementors,hr.implementors]
      refine Indexed.dropKey ((hi.edges.interfaces.unlinkAll c.interfaces id _).congr ?_) ?_
      · exact fun x p => (interfaceEdge_removed hc hr.get_self hr.sameBut x p).symm
      · exact fun x hx => hgone x (edge_iff.mpr (.inr hx))
    rw [← hh4]
    rw [hdrop.implementors,hr.implementors]
    exact (hi.edges.noEmpty.unlinkAll _ id _).setKey (by simp)
  have hdeep3 : DeepExact (fun x => x = id) h3 := by
    rw [← hh3]
    refine DeepExact.foldl (fun _ _ hex => hex.set_refresh _) ?_ _
    refine deepExact_congr hi.deep hr.deepKeys fun x hx => ⟨not_false,?_,?_⟩
    · rw [displayAt_setDisplay_ne _ _ _ hx,displayAt,hr.displays]
      rfl
    show (h2.implementors x).isSome = _
    rw [hr.implementors]
  have hdeep4 : DeepExact (fun x => x ∈ id::c.interfaces) h4 := by
    have hedges3 : EdgesExact h.get h3 :=
      hdrop.edgesExact ⟨hr.subclasses ▸ hi.edges.supers,hr.implementors ▸ hi.edges.interfaces,
        hr.implementors ▸ hi.edges.noEmpty⟩
    refine deepExact_congr hdeep3 (by rw [← hh4]) fun x hx => ?_
    rw [mem_cons,not_or] at hx
    refine ⟨hx.1,?_,implementors_isSome_congr hedges3 hedges fun y => ?_⟩
    · rw [← hh4]
      rfl
    rw [hget,interfaceEdge_removed hc hr.get_self hr.sameBut]
    simp [hx.2]
  have hsec : h4.secondaries = h2.secondaries := by
    rw [← hh4]
    exact hdrop.secondaries
  refine refreshed_consistent ?_ hedges ?_ hdeep4 (hsec ▸ hr.count) ?_
  · rw [← hh4]
    rw [hdrop.length,hdrop.classes]
    exact hr.lengths
  · intro x _ d hd
    rw [← hh4] at hd
    change h3.displayAt x = some d at hd
    rw [← hh3] at hd
    obtain ⟨hd,hxid,hdesc⟩ := dropDisplays_displayAt hd
    rw [displayAt,hr.displays] at hd
    obtain ⟨l,hl,hno,hrest⟩ := chain_avoids (hr.subclasses ▸ hi.edges.supers) (fun _ _ => rfl)
      (hi.displays x not_false d hd) hxid hdesc
    rw [hget]
    exact ⟨l,hr.sameBut.superChain hl hno,hrest⟩
  rw [hsec,hget]
  exact hr.slots

end

section
variable {h : Hierarchy} {c : Class}

theorem get_append (h : Hierarchy) (c : Class) (x : Nat) :
    (h.classes++[some c])[x]?.join = if x = h.nextId then some c else h.get x := by
  rw [nextId]
  rcases Nat.lt_trichotomy x h.classes.length with hx | hx | hx
  · rw [getElem?_append_left hx,if_neg (Nat.ne_of_lt hx)]
    rfl
  · subst hx
    simp
  rw [getElem?_eq_none (by simp; omega),if_neg (Nat.ne_of_gt hx),Hierarchy.get,
    getElem?_eq_none (by omega)]

theorem get_nextId : h.get h.nextId = none := by
  rw [Hierarchy.get,nextId,getElem?_eq_none le_rfl]
  rfl

theorem superEdge_added {g g' : Stored} {id : Nat} (hc : g id = none) (hc' : g' id = some c)
    (hsame : SameBut g g' id) (x p : Nat) :
    SuperEdge g' x p ↔ SuperEdge g x p ∨ x = id ∧ c.superclass = some p := by
  by_cases hx : x = id
  · subst hx
    simp [SuperEdge,hc,hc']
  · simp [SuperEdge,hx,hsame x hx]

theorem interfaceEdge_added {g g' : Stored} {id : Nat} (hc : g id = none) (hc' : g' id = some c)
    (hsame : SameBut g g' id) (x p : Nat) :
    InterfaceEdge g' x p ↔ InterfaceEdge g x p ∨ x = id ∧ p ∈ c.interfaces := by
  by_cases hx : x = id
  · subst hx
    simp [InterfaceEdge,hc,hc']
  · simp [InterfaceEdge,hx,hsame x hx]

/-- The store with the new class and its edges, before displays and closures follow. -/
def addEdges (h : Hierarchy) (c : Class) : Hierarchy :=
  { h with
    classes := h.classes++[some c]
    subclasses := pushSuper h.subclasses c.superclass h.nextId
    implementors := c.interfaces.foldl (linkSubtypeEdge · · h.nextId) h.implementors }

theorem addEdges_get (x : Nat) :
    (addEdges h c).get x = if x = h.nextId then some c else h.get x := get_append h c x

theorem addEdges_sameBut : SameBut h.get (addEdges h c).get h.nextId := by
  intro x hx
  rw [addEdges_get,if_neg hx]

theorem addEdges_get_self : (addEdges h c).get h.nextId = some c := by
  rw [addEdges_get,if_pos rfl]

theorem addEdges_edgesExact (hi : Consistent h) : EdgesExact (addEdges h c).get (addEdges h c) := by
  have hlt : ∀ x p, SuperEdge h.get x p → x < h.nextId := fun x p ⟨k,hk,_⟩ => lt_of_get hk
  refine ⟨?_,?_,hi.edges.noEmpty.linkAll _ _⟩
  · refine (hi.edges.supers.pushSuper c.superclass hlt).congr ?_
    exact fun x p => (superEdge_added get_nextId addEdges_get_self addEdges_sameBut x p).symm
  refine (hi.edges.interfaces.linkAll c.interfaces h.nextId).congr ?_
  exact fun x p => (interfaceEdge_added get_nextId addEdges_get_self addEdges_sameBut x p).symm

theorem addEdges_displayOf {x : Nat} {d : PrimaryDisplay} (hd : DisplayOf h.get x d) :
    DisplayOf (addEdges h c).get x d := by
  obtain ⟨l,hl,hrest⟩ := hd
  refine ⟨l,addEdges_sameBut.superChain hl fun hid => ?_,hrest⟩
  obtain ⟨k,hk⟩ := hl.stored hid
  rw [get_nextId] at hk
  cases hk

def addDisplay (h : Hierarchy) (c : Class) : Hierarchy :=
  { addEdges h c with displays := h.displays++[(addEdges h c).computeDisplay h.nextId] }

section
variable (hi : Consistent h)
include hi

theorem addDisplay_displayAt (x : Nat) :
    (addDisplay h c).displayAt x =
      if x = h.nextId then (addEdges h c).computeDisplay h.nextId else h.displayAt x := by
  have hlen : h.displays.length = h.nextId := hi.lengths
  show (h.displays++[_])[x]?.join = _
  rcases Nat.lt_trichotomy x h.displays.length with hx | hx | hx
  · rw [getElem?_append_left hx,if_neg (by omega)]
    rfl
  · rw [if_pos (by omega),hx]
    simp
  rw [getElem?_eq_none (by simp; omega),if_neg (by omega),displayAt,
    getElem?_eq_none (by omega)]

theorem addDisplay_exact :
    DisplaysExact (addDisplay h c).get (fun _ => False) (addDisplay h c) := by
  intro x _ d hd
  rw [addDisplay_displayAt hi] at hd
  split at hd
  · rename_i hx
    subst hx
    exact computeDisplay_exact (fun p _ d hd => addEdges_displayOf (hi.displays p not_false d hd)) hd
  · exact addEdges_displayOf (hi.displays x not_false d hd)

theorem addDisplay_deep :
    DeepExact (fun x => x ∈ h.nextId::c.interfaces) (addDisplay h c) := by
  refine deepExact_congr hi.deep rfl fun x hx => ?_
  rw [mem_cons,not_or] at hx
  refine ⟨not_false,?_,implementors_isSome_congr hi.edges (addEdges_edgesExact hi) fun y => ?_⟩
  · rw [addDisplay_displayAt hi,if_neg hx.1]
  rw [interfaceEdge_added get_nextId addEdges_get_self addEdges_sameBut]
  simp [hx.2]

theorem added_closures {h3 : Hierarchy} (hedges : EdgesExact (addEdges h c).get h3)
    (hclasses : h3.classes = (addEdges h c).classes) (hsec : h3.secondaries = h.secondaries) :
    ∃ h4, h4 = (if (h3.subclasses h.nextId).isSome || (h3.implementors h.nextId).isSome then
        h3.forgetSecondarySupersReaching h.nextId else h3) ∧ Forgotten h3 h4 ∧
      ∀ x, SlotExact (addEdges h c).get h4.secondaries x := by
  refine ⟨_,rfl,?_⟩
  have hsame := @addEdges_sameBut h c
  split
  · obtain ⟨hf,hlost⟩ := @forgetSecondarySupersReaching_spec h3 h.nextId (hsec ▸ hi.count)
    refine ⟨hf,hf.exact (hsec ▸ hi.slots) hsame fun x hx _ => hlost x ?_⟩
    refine mem_reaching_of_reaches hedges (fun x k hk => ?_) (hsame.reaches_id hx)
    rw [hclasses]
    exact lt_of_get hk
  rename_i hno
  simp only [Bool.or_eq_true,not_or,Bool.not_eq_true,isSome_eq_false_iff,
    isNone_iff_eq_none] at hno
  have hnone : ∀ x, ¬Edge (addEdges h c).get x h.nextId := by
    intro x hx
    rcases edge_iff.mp hx with hx | hx
    · exact hedges.supers.not_names hno.1 x hx
    · exact hedges.interfaces.not_names hno.2 x hx
  have hf : Forgotten h3 h3 := forgotten_refl (hsec ▸ hi.count)
  refine ⟨hf,hf.exact (hsec ▸ hi.slots) hsame fun x hx hstored => ?_⟩
  rcases Relation.ReflTransGen.cases_tail (hsame.reaches_id hx) with heq | ⟨y,-,hy⟩
  · rw [heq.symm,get_nextId] at hstored
    cases hstored
  · exact absurd hy (hnone y)

theorem add_consistent : Consistent (h.add c) := by
  have hedges : EdgesExact (addDisplay h c).get (addDisplay h c) := by
    obtain ⟨a,b,d⟩ := addEdges_edgesExact (c := c) hi
    exact ⟨a,b,d⟩
  -- the displays below the new class
  obtain ⟨h3,hh3,hkept,hdisp,hdeep⟩ : ∃ h3, h3 = (if ((addDisplay h c).subclasses h.nextId).isSome then
        (addDisplay h c).recomputeDisplaysBelow h.nextId else addDisplay h c) ∧
      SameEdges (addDisplay h c) h3 ∧ DisplaysExact (addDisplay h c).get (fun _ => False) h3 ∧
      DeepExact (fun x => x ∈ h.nextId::c.interfaces) h3 := by
    refine ⟨_,rfl,?_⟩
    split
    · exact ⟨sameEdges_recomputeDisplaysBelow _,
        recomputeDisplaysBelow_exact (addDisplay_exact hi) hedges.supers,
        (addDisplay_deep hi).recomputeDisplaysBelow⟩
    · exact ⟨.refl,addDisplay_exact hi,addDisplay_deep hi⟩
  have hedges3 := hkept.edgesExact hedges
  obtain ⟨h4,hh4,hf,hslots⟩ := added_closures hi hedges3 hkept.classes hkept.secondaries
  have hadd : h.add c = (h.nextId::c.interfaces).foldl refreshDeepInterfaceKey h4 := by
    rw [hh4,hh3]
    rfl
  have hget : h4.get = (addEdges h c).get := by
    rw [hf.same]
    exact hkept.get
  rw [hadd]
  refine refreshed_consistent ?_ ?_ ?_ ?_ hf.count (hget ▸ hslots)
  · rw [hf.same]
    rw [hkept.length,hkept.classes]
    show (h.displays++[_]).length = (h.classes++[_]).length
    simp [hi.lengths]
  · rw [hget,hf.same]
    exact ⟨hedges3.supers,hedges3.interfaces,hedges3.noEmpty⟩
  · rw [hget]
    refine displaysExact_congr ?_ hdisp
    rw [hf.same]
  rw [hf.same]
  exact deepExact_congr hdeep rfl fun x hx => ⟨hx,rfl,rfl⟩

end
end
end CratonVM.ClassLoading
