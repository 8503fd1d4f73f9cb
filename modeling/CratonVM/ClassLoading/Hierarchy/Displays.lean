import CratonVM.ClassLoading.Hierarchy.Graph

/-!
The levels of `descendants_of`: a class comes out after the class it extends, and every class at
most `MAX_HIERARCHY_DEPTH` edges below comes out.
-/
namespace CratonVM.ClassLoading
open Hierarchy List Option

/-- Each class comes after the one it extends, which may also be the top. -/
inductive ParentFirst (g : Stored) (top : Nat) : List Nat → Prop where
  | nil : ParentFirst g top []
  | snoc {out : List Nat} {x p : Nat} (h : ParentFirst g top out) (hxp : SuperEdge g x p)
      (hp : p = top ∨ p ∈ out) : ParentFirst g top (out++[x])

variable {g : Stored} {top : Nat} {h : Hierarchy}

def Extends (g : Stored) (top : Nat) (out : List Nat) (x : Nat) : Prop :=
  ∃ p, SuperEdge g x p ∧ (p = top ∨ p ∈ out)

theorem Extends.mono {out out' : List Nat} (hsub : ∀ x ∈ out, x ∈ out') {x : Nat}
    (hx : Extends g top out x) : Extends g top out' x := by
  obtain ⟨p,hxp,hp⟩ := hx
  exact ⟨p,hxp,hp.imp id (hsub p)⟩

section
variable (hidx : Indexed (SuperEdge g) h.subclasses)
include hidx

theorem visitLevel_parentFirst
    {frontier out next : List Nat} (seen : List Nat) (hout : ParentFirst g top out)
    (hfront : ∀ x ∈ frontier, Extends g top out x) (hnext : ∀ x ∈ next, Extends g top out x) :
    ParentFirst g top (h.visitLevel frontier out seen next).1 ∧
      ∀ x ∈ (h.visitLevel frontier out seen next).2.2,
        Extends g top (h.visitLevel frontier out seen next).1 x := by
  induction frontier generalizing out seen next with
  | nil => exact ⟨hout,hnext⟩
  | cons cid frontier ih => ?_
  rw [visitLevel]
  split
  · exact ih seen hout (fun x hx => hfront x (by simp [hx])) hnext
  have hsub : ∀ x ∈ out, x ∈ out++[cid] := fun x hx => by simp [hx]
  obtain ⟨p,hxp,hp⟩ := hfront cid (by simp)
  refine ih (cid::seen) (hout.snoc hxp hp) (fun x hx => (hfront x (by simp [hx])).mono hsub) ?_
  intro x hx
  rcases mem_append.mp hx with hx | hx
  · exact (hnext x hx).mono hsub
  · exact ⟨cid,((hidx cid).2 x).mp hx,.inr (by simp)⟩

theorem descendLoop_parentFirst {levels : Nat}
    {frontier out seen : List Nat} (hout : ParentFirst g top out)
    (hfront : ∀ x ∈ frontier, Extends g top out x) :
    ParentFirst g top (h.descendLoop levels frontier out seen) := by
  induction levels generalizing frontier out seen with
  | zero => exact hout
  | succ levels ih => ?_
  rw [descendLoop]
  split
  · exact hout
  obtain ⟨hout',hnext⟩ := visitLevel_parentFirst hidx seen hout hfront
    (forall_mem_nil _)
  exact ih hout' hnext

theorem descendantsOf_parentFirst :
    ParentFirst g top (h.descendantsOf top) := by
  refine descendLoop_parentFirst hidx .nil fun x hx => ?_
  exact ⟨top,((hidx top).2 x).mp hx,.inl rfl⟩

end

def Waiting (h : Hierarchy) (top : Nat) (out seen wait : List Nat) : Prop :=
  (∀ x ∈ seen, x = top ∨ x ∈ out) ∧
    ∀ x ∈ seen, ∀ y ∈ kidsOf h.subclasses x, y ∈ seen ∨ y ∈ wait

theorem visitLevel_waiting {frontier out seen : List Nat} (next : List Nat)
    (hw : Waiting h top out seen (frontier++next)) :
    Waiting h top (h.visitLevel frontier out seen next).1 (h.visitLevel frontier out seen next).2.1
        (h.visitLevel frontier out seen next).2.2 ∧
      (∀ x ∈ out, x ∈ (h.visitLevel frontier out seen next).1) ∧
      (∀ x ∈ seen, x ∈ (h.visitLevel frontier out seen next).2.1) ∧
      ∀ x ∈ frontier, x ∈ (h.visitLevel frontier out seen next).2.1 := by
  induction frontier generalizing out seen next with
  | nil => exact ⟨hw,fun _ hx => hx,fun _ hx => hx,by simp⟩
  | cons cid frontier ih => ?_
  rw [visitLevel]
  split
  · rename_i hseen
    have hw' : Waiting h top out seen (frontier++next) := by
      refine ⟨hw.1,fun x hx y hy => ?_⟩
      rcases hw.2 x hx y hy with hy | hy
      · exact .inl hy
      rcases mem_cons.mp hy with rfl | hy
      · exact .inl hseen
      · exact .inr hy
    obtain ⟨hout,hsub,hmono,hfront⟩ := ih next hw'
    refine ⟨hout,hsub,hmono,fun x hx => ?_⟩
    rcases mem_cons.mp hx with rfl | hx
    · exact hmono _ hseen
    · exact hfront x hx
  have hw' : Waiting h top (out++[cid]) (cid::seen)
      (frontier++(next++kidsOf h.subclasses cid)) := by
    refine ⟨fun x hx => ?_,fun x hx y hy => ?_⟩
    · rcases mem_cons.mp hx with rfl | hx
      · exact .inr (by simp)
      · exact (hw.1 x hx).imp id fun hx => by simp [hx]
    rcases mem_cons.mp hx with rfl | hx
    · exact .inr (by simp [hy])
    rcases hw.2 x hx y hy with hy | hy
    · exact .inl (by simp [hy])
    rcases mem_cons.mp hy with rfl | hy
    · exact .inl (by simp)
    rcases mem_append.mp hy with hy | hy
    · exact .inr (by simp [hy])
    · exact .inr (by simp [hy])
  obtain ⟨hout,hsub,hmono,hfront⟩ := ih _ hw'
  refine ⟨hout,fun x hx => hsub x (by simp [hx]),fun x hx => hmono x (by simp [hx]),?_⟩
  intro x hx
  rcases mem_cons.mp hx with rfl | hx
  · exact hmono _ (by simp)
  · exact hfront x hx

theorem mem_descendLoop (hidx : Indexed (SuperEdge g) h.subclasses) {levels : Nat}
    {frontier out seen : List Nat} (hw : Waiting h top out seen frontier) :
    (∀ x ∈ out, x ∈ h.descendLoop levels frontier out seen) ∧
      ∀ k y x, y ∈ seen → k ≤ levels → Below g y k x →
        x = top ∨ x ∈ h.descendLoop levels frontier out seen := by
  induction levels generalizing frontier out seen with
  | zero =>
    refine ⟨fun x hx => hx,fun k y x hy hk hbelow => ?_⟩
    obtain rfl : k = 0 := by omega
    cases hbelow
    exact hw.1 _ hy
  | succ levels ih => ?_
  rw [descendLoop]
  split
  · rename_i hnil
    subst hnil
    refine ⟨fun x hx => hx,fun k y x hy _ hbelow => ?_⟩
    have hall : x ∈ seen := by
      induction hbelow with
      | self => exact hy
      | down _ hxy ih =>
        exact (hw.2 _ (ih (by omega)) _ (((hidx _).2 _).mpr hxy)).resolve_right (by simp)
    exact hw.1 x hall
  obtain ⟨hw',hsub,hmono,hfront⟩ := visitLevel_waiting [] (by simpa using hw)
  obtain ⟨hout,hbelow'⟩ := ih hw'
  refine ⟨fun x hx => hout x (hsub x hx),fun k y x hy hk hbelow => ?_⟩
  cases k with
  | zero =>
    exact hbelow' 0 y x (hmono y hy) (Nat.zero_le _) hbelow
  | succ k => ?_
  obtain ⟨z,hzy,hz⟩ := hbelow.child
  have hmem : z ∈ (h.visitLevel frontier out seen []).2.1 := by
    rcases hw.2 y hy z (((hidx y).2 z).mpr hzy) with hz | hz
    · exact hmono z hz
    · exact hfront z hz
  exact hbelow' k z x hmem (by omega) hz

theorem mem_descendantsOf (hidx : Indexed (SuperEdge g) h.subclasses) {k x : Nat}
    (hk : k ≤ maxHierarchyDepth) (hbelow : Below g top k x) :
    x = top ∨ x ∈ h.descendantsOf top := by
  have hw : Waiting h top [] [top] (kidsOf h.subclasses top) := by
    refine ⟨by simp,fun x hx y hy => ?_⟩
    obtain rfl := mem_singleton.mp hx
    exact .inr hy
  exact (mem_descendLoop hidx hw).2 k top x (by simp) hk hbelow

end CratonVM.ClassLoading
namespace CratonVM.ClassLoading
namespace Hierarchy
variable (h : Hierarchy) (id : Nat)

section
@[simp] theorem displayAt_refresh : (h.refreshDeepInterfaceKey id).displayAt = h.displayAt := rfl

theorem displayAt_setDisplay_ne (d : Option PrimaryDisplay) {x : Nat} (hx : x ≠ id) :
    (h.setDisplay id d).displayAt x = h.displayAt x := by
  simp [displayAt,setDisplay,List.getElem?_set_ne hx.symm]

theorem displayAt_setDisplay_self {d : Option PrimaryDisplay} {d' : PrimaryDisplay}
    (hd : (h.setDisplay id d).displayAt id = some d') : d = some d' := by
  unfold displayAt setDisplay at hd
  rw [List.getElem?_set] at hd
  split at hd
  · split at hd
    · exact hd
    · cases hd
  · contradiction

/-- Two stores that differ in displays and deep keys only. -/
structure SameEdges (h h' : Hierarchy) : Prop where
  classes : h'.classes = h.classes
  subclasses : h'.subclasses = h.subclasses
  implementors : h'.implementors = h.implementors
  secondaries : h'.secondaries = h.secondaries
  length : h'.displays.length = h.displays.length
  enabled : h'.displayEnabled = h.displayEnabled
  sorted : h'.sortedUnlink = h.sortedUnlink

variable {h}

theorem SameEdges.refl : SameEdges h h := ⟨rfl,rfl,rfl,rfl,rfl,rfl,rfl⟩

theorem SameEdges.trans {h' h'' : Hierarchy} (a : SameEdges h h') (b : SameEdges h' h'') :
    SameEdges h h'' :=
  ⟨b.classes.trans a.classes,b.subclasses.trans a.subclasses,b.implementors.trans a.implementors,
    b.secondaries.trans a.secondaries,b.length.trans a.length,b.enabled.trans a.enabled,
    b.sorted.trans a.sorted⟩

theorem SameEdges.get {h' : Hierarchy} (a : SameEdges h h') : h'.get = h.get := by
  funext x
  rw [Hierarchy.get,Hierarchy.get,a.classes]

theorem SameEdges.visitLevel {h' : Hierarchy} (a : SameEdges h h') : h'.visitLevel = h.visitLevel := by
  funext frontier
  induction frontier with
  | nil => rfl
  | cons cid frontier ih =>
    funext out seen next
    simp [Hierarchy.visitLevel,ih,a.subclasses]

theorem SameEdges.descendantsOf {h' : Hierarchy} (a : SameEdges h h') :
    h'.descendantsOf id = h.descendantsOf id := by
  have hloop : h'.descendLoop = h.descendLoop := by
    funext levels
    induction levels with
    | zero => rfl
    | succ levels ih =>
      funext frontier out seen
      simp [descendLoop,ih,a.visitLevel]
  rw [Hierarchy.descendantsOf,hloop,a.subclasses]
  rfl

theorem sameEdges_refresh : SameEdges h (h.refreshDeepInterfaceKey id) :=
  ⟨rfl,rfl,rfl,rfl,rfl,rfl,rfl⟩

theorem sameEdges_set_refresh (d : Option PrimaryDisplay) :
    SameEdges h ((h.setDisplay id d).refreshDeepInterfaceKey id) :=
  ⟨rfl,rfl,rfl,rfl,by simp [setDisplay,refreshDeepInterfaceKey],rfl,rfl⟩

theorem sameEdges_foldl {step : Hierarchy → Nat → Hierarchy}
    (hstep : ∀ h x, SameEdges h (step h x)) (ids : List Nat) (h : Hierarchy) :
    SameEdges h (ids.foldl step h) := by
  induction ids generalizing h with
  | nil => exact .refl
  | cons x ids ih => exact (hstep h x).trans (ih (step h x))

theorem sameEdges_recomputeDisplayAt : SameEdges h (h.recomputeDisplayAt id) :=
  sameEdges_set_refresh id _

theorem sameEdges_recomputeDisplaysBelow : SameEdges h (h.recomputeDisplaysBelow id) :=
  sameEdges_foldl (fun _ x => sameEdges_recomputeDisplayAt x) _ _

theorem sameEdges_dropDisplays : SameEdges h (h.dropDisplays id) := by
  have hfirst : SameEdges h (h.setDisplay id none) :=
    ⟨rfl,rfl,rfl,rfl,by simp [setDisplay],rfl,rfl⟩
  exact hfirst.trans (sameEdges_foldl (fun _ x => sameEdges_set_refresh x none) _ _)

end
end Hierarchy

open Hierarchy
section
variable {g : Stored} {h : Hierarchy} {id : Nat}

/-- The valid displays outside a set of classes are the chains of a hierarchy. -/
def DisplaysExact (g : Stored) (except : Nat → Prop) (h : Hierarchy) : Prop :=
  ∀ x, ¬except x → ∀ d, h.displayAt x = some d → DisplayOf g x d

theorem computeDisplay_exact
    (hparent : ∀ p, h.superclassOf id = some p → ∀ d, h.displayAt p = some d → DisplayOf h.get p d)
    {d : PrimaryDisplay} (hd : h.computeDisplay id = some d) : DisplayOf h.get id d := by
  unfold computeDisplay at hd
  cases hc : h.get id with
  | none => simp [hc] at hd
  | some c => ?_
  simp only [hc] at hd
  cases hs : c.superclass with
  | none =>
    simp only [hs,Option.some.injEq] at hd
    subst hd
    exact ⟨[id],.root hc hs,rfl,rfl,Nat.zero_le _⟩
  | some p => ?_
  simp only [hs] at hd
  split at hd
  · cases hd
  cases hp : h.displayAt p with
  | none => simp [hp] at hd
  | some parent => ?_
  obtain ⟨l,hl,hlen,hsupers,-⟩ := hparent p (by simp [superclassOf,hc,hs]) parent hp
  simp only [hp] at hd
  split at hd
  · cases hd
  split at hd
  · cases hd
  rename_i hdepth _
  obtain rfl := Option.some.inj hd
  refine ⟨l++[id],.step hc hs hl,by simp [hlen],?_,Nat.not_lt.mp hdepth⟩
  rw [hsupers]
  split
  · rw [List.take_of_length_le (by omega),List.take_of_length_le (by simp; omega)]
  · rw [List.take_append_of_le_length (by omega)]

theorem superclassChainReaches_of_mem (hsame : SameBut g h.get id) {x : Nat} {l : List Nat}
    (hl : SuperChain g x l) (hid : id ∈ l) (left : Nat) (hlen : l.length ≤ left+1) :
    h.superclassChainReaches id left (some x) = true := by
  induction hl generalizing left with
  | root =>
    obtain rfl := List.mem_singleton.mp hid
    cases left <;> simp [superclassChainReaches]
  | @step x p c l hc hs hl ih => ?_
  by_cases hx : x = id
  · subst hx
    cases left <;> simp [superclassChainReaches]
  have hmem : id ∈ l := by
    rcases List.mem_append.mp hid with hid | hid
    · exact hid
    · exact absurd (List.mem_singleton.mp hid).symm hx
  cases left with
  | zero => simp [superclassChainReaches]
  | succ left =>
    have hsuper : h.superclassOf x = some p := by
      simp [superclassOf,← hsame x hx,hc,hs]
    rw [superclassChainReaches,if_neg hx,hsuper]
    exact ih hmem left (by simp at hlen; omega)

theorem recomputed_display {d : PrimaryDisplay}
    (hd : (h.recomputeDisplayAt id).displayAt id = some d) :
    h.computeDisplay id = some d ∧ ∀ s, h.superclassOf id = some s →
      h.superclassChainReaches id (maxHierarchyDepth+1) (some s) = false := by
  rw [recomputeDisplayAt,displayAt_refresh] at hd
  have hd' := displayAt_setDisplay_self _ _ hd
  cases hs : h.superclassOf id with
  | none =>
    simp only [hs,Bool.false_eq_true,if_false] at hd'
    exact ⟨hd',by simp⟩
  | some s => ?_
  simp only [hs] at hd'
  cases hreach : h.superclassChainReaches id (maxHierarchyDepth+1) (some s) with
  | true => simp [hreach] at hd'
  | false =>
    rw [hreach,if_neg (by simp)] at hd'
    exact ⟨hd',fun t ht => Option.some.inj ht ▸ hreach⟩

theorem recomputeDisplayAt_exact {except : Nat → Prop} (hex : DisplaysExact h.get except h)
    (hparent : ∀ p, h.superclassOf id = some p → ¬except p) :
    DisplaysExact h.get (fun x => except x ∧ x ≠ id) (h.recomputeDisplayAt id) := by
  intro x hx d hd
  by_cases hxid : x = id
  · subst hxid
    exact computeDisplay_exact (fun p hp => hex p (hparent p hp)) (recomputed_display hd).1
  rw [recomputeDisplayAt,displayAt_refresh,displayAt_setDisplay_ne _ _ _ hxid] at hd
  exact hex x (fun he => hx ⟨he,hxid⟩) d hd

theorem foldl_recompute_exact {except : Nat → Prop} {top : Nat} (htop : ¬except top)
    (hex : DisplaysExact h.get except h) {ids : List Nat} (hids : ParentFirst h.get top ids) :
    DisplaysExact h.get (fun x => except x ∧ x ∉ ids) (ids.foldl recomputeDisplayAt h) := by
  induction hids with
  | nil => exact fun x hx => hex x fun he => hx ⟨he,by simp⟩
  | @snoc out x p _ hxp hp ih => ?_
  have hget : (out.foldl recomputeDisplayAt h).get = h.get :=
    (sameEdges_foldl (fun _ x => sameEdges_recomputeDisplayAt x) out h).get
  rw [List.foldl_append,List.foldl_cons,List.foldl_nil]
  have hstep := @recomputeDisplayAt_exact (out.foldl recomputeDisplayAt h) x
    (fun x => except x ∧ x ∉ out) (by rw [hget]; exact ih) ?_
  · rw [hget] at hstep
    intro y hy
    refine hstep y fun hbad => hy ⟨hbad.1.1,fun hmem => ?_⟩
    rcases List.mem_append.mp hmem with hmem | hmem
    · exact hbad.1.2 hmem
    · exact hbad.2 (List.mem_singleton.mp hmem)
  intro q hq hbad
  obtain ⟨c,hc,hs⟩ := hxp
  obtain rfl : p = q := by
    rw [superclassOf,hget,hc] at hq
    exact Option.some.inj (hs.symm.trans hq)
  rcases hp with rfl | hp
  · exact htop hbad.1
  · exact hbad.2 hp

theorem chain_avoids {gi : Stored} (hidx : Indexed (SuperEdge gi) h.subclasses)
    (hsame : SameBut g gi id) {x : Nat} {d : PrimaryDisplay} (hd : DisplayOf g x d) (hx : x ≠ id)
    (hdesc : x ∉ h.descendantsOf id) :
    ∃ l, SuperChain g x l ∧ id ∉ l ∧ l.length = d.depth+1 ∧
      d.supers = l.take primaryDisplayLen ∧ d.depth ≤ maxHierarchyDepth := by
  obtain ⟨l,hl,hlen,hsupers,hdepth⟩ := hd
  refine ⟨l,hl,fun hid => ?_,hlen,hsupers,hdepth⟩
  obtain ⟨k,hk,hbelow⟩ := hsame.below hl hid
  rcases mem_descendantsOf hidx (by omega) hbelow with hmem | hmem
  · exact hx hmem
  · exact hdesc hmem

section
variable (hex : DisplaysExact g (fun _ => False) h)
include hex

theorem DisplaysExact.frame {gi : Stored}
    (hidx : Indexed (SuperEdge gi) h.subclasses) (hsame : SameBut g gi id) {g' : Stored}
    (hsame' : SameBut g g' id) :
    DisplaysExact g' (fun x => x = id ∨ x ∈ h.descendantsOf id) h := by
  intro x hx d hd
  obtain ⟨l,hl,hno,hrest⟩ := chain_avoids hidx hsame (hex x not_false d hd)
    (fun he => hx (.inl he)) (fun hmem => hx (.inr hmem))
  exact ⟨l,hsame'.superChain hl hno,hrest⟩

/-- The new display of a class whose superclass has changed: the cycle check keeps it from being
made from a display of the old hierarchy that runs through the class. -/
theorem changed_display_exact
    (hsame : SameBut g h.get id) {d : PrimaryDisplay}
    (hd : (h.recomputeDisplayAt id).displayAt id = some d) : DisplayOf h.get id d := by
  obtain ⟨hcompute,hcycle⟩ := recomputed_display hd
  refine computeDisplay_exact ?_ hcompute
  intro p hp parent hparent
  obtain ⟨l,hl,hlen,hsupers,hdepth⟩ := hex p not_false parent hparent
  refine ⟨l,hsame.superChain hl fun hid => ?_,hlen,hsupers,hdepth⟩
  have hreach := superclassChainReaches_of_mem hsame hl hid (maxHierarchyDepth+1) (by omega)
  rw [hcycle p hp] at hreach
  cases hreach

theorem recompute_exact
    (hsame : SameBut g h.get id) (hidx : Indexed (SuperEdge h.get) h.subclasses) :
    DisplaysExact h.get (fun _ => False) ((h.recomputeDisplayAt id).recomputeDisplaysBelow id) := by
  have hedges : SameEdges h (h.recomputeDisplayAt id) := sameEdges_recomputeDisplayAt id
  have hdesc := hedges.descendantsOf id
  have hframe := hex.frame hidx hsame hsame
  have hstart : DisplaysExact (h.recomputeDisplayAt id).get
      (fun x => x ≠ id ∧ x ∈ h.descendantsOf id) (h.recomputeDisplayAt id) := by
    rw [hedges.get]
    intro x hx d hd
    by_cases hxid : x = id
    · subst hxid
      exact changed_display_exact hex hsame hd
    rw [recomputeDisplayAt,displayAt_refresh,displayAt_setDisplay_ne _ _ _ hxid] at hd
    exact hframe x (fun hbad => hbad.elim hxid fun hmem => hx ⟨hxid,hmem⟩) d hd
  have hfirst : ParentFirst (h.recomputeDisplayAt id).get id
      ((h.recomputeDisplayAt id).descendantsOf id) := by
    refine descendantsOf_parentFirst ?_
    rw [hedges.get,hedges.subclasses]
    exact hidx
  have hrun := foldl_recompute_exact (by simp) hstart hfirst
  rw [hedges.get,hdesc] at hrun
  intro x _ d hd
  refine hrun x (fun hbad => hbad.2 hbad.1.2) d ?_
  rw [recomputeDisplaysBelow,hdesc] at hd
  exact hd

end

theorem recomputeDisplaysBelow_exact (hex : DisplaysExact h.get (fun _ => False) h)
    (hidx : Indexed (SuperEdge h.get) h.subclasses) :
    DisplaysExact h.get (fun _ => False) (h.recomputeDisplaysBelow id) := by
  have hrun := foldl_recompute_exact not_false hex
    (@descendantsOf_parentFirst h.get id h hidx)
  exact fun x _ => hrun x fun hbad => hbad.1

theorem dropDisplays_displayAt {x : Nat} {d : PrimaryDisplay}
    (hd : (h.dropDisplays id).displayAt x = some d) :
    h.displayAt x = some d ∧ x ≠ id ∧ x ∉ h.descendantsOf id := by
  have hfold : ∀ (ids : List Nat) (h : Hierarchy),
      (ids.foldl (fun h d => (h.setDisplay d none).refreshDeepInterfaceKey d) h).displayAt x =
        some d → h.displayAt x = some d ∧ x ∉ ids := by
    intro ids
    induction ids with
    | nil => exact fun h hd => ⟨hd,by simp⟩
    | cons y ids ih => ?_
    intro h hd
    obtain ⟨hd,hmem⟩ := ih _ hd
    rw [displayAt_refresh] at hd
    by_cases hxy : x = y
    · subst hxy
      cases displayAt_setDisplay_self _ _ hd
    rw [displayAt_setDisplay_ne _ _ _ hxy] at hd
    exact ⟨hd,by simp [hxy,hmem]⟩
  obtain ⟨hd,hmem⟩ := hfold _ _ hd
  by_cases hxid : x = id
  · subst hxid
    cases displayAt_setDisplay_self _ _ hd
  rw [displayAt_setDisplay_ne _ _ _ hxid] at hd
  exact ⟨hd,hxid,hmem⟩

end

section
variable {h : Hierarchy} {id : Nat} {except : Nat → Prop}

/-- Outside a set of classes, the deep keys are the named interfaces not known to be shallow. -/
def DeepExact (except : Nat → Prop) (h : Hierarchy) : Prop :=
  ∀ key, ¬except key → (key ∈ h.deepInterfaceKeys ↔ h.isDeepInterfaceKey key = true)

theorem DeepExact.refresh (hex : DeepExact except h) (key : Nat) :
    DeepExact (fun x => except x ∧ x ≠ key) (h.refreshDeepInterfaceKey key) := by
  intro x hx
  show x ∈ (if h.isDeepInterfaceKey key then insert key h.deepInterfaceKeys
    else h.deepInterfaceKeys.erase key) ↔ h.isDeepInterfaceKey x = true
  by_cases hxk : x = key
  · subst hxk
    split <;> simp_all
  have hrest := hex x fun he => hx ⟨he,hxk⟩
  split <;> simp [hxk,hrest]

theorem DeepExact.refreshAll (hex : DeepExact except h) (keys : List Nat) :
    DeepExact (fun x => except x ∧ x ∉ keys) (keys.foldl refreshDeepInterfaceKey h) := by
  induction keys generalizing h except with
  | nil => exact fun x hx => hex x fun he => hx ⟨he,by simp⟩
  | cons key keys ih =>
    intro x hx
    refine ih (hex.refresh key) x fun hbad => hx ⟨hbad.1.1,?_⟩
    simp [hbad.1.2,hbad.2]

theorem DeepExact.set_refresh (hex : DeepExact except h) (d : Option PrimaryDisplay) :
    DeepExact except ((h.setDisplay id d).refreshDeepInterfaceKey id) := by
  have hset : DeepExact (fun x => except x ∨ x = id) (h.setDisplay id d) := by
    intro x hx
    have hxid : x ≠ id := fun he => hx (.inr he)
    have hdeep : (h.setDisplay id d).isDeepInterfaceKey x = h.isDeepInterfaceKey x := by
      rw [isDeepInterfaceKey,displayAt_setDisplay_ne _ _ _ hxid]
      rfl
    rw [hdeep]
    exact hex x fun he => hx (.inl he)
  exact fun x hx => hset.refresh id x fun hbad => hbad.1.elim hx hbad.2

theorem DeepExact.foldl {step : Hierarchy → Nat → Hierarchy}
    (hstep : ∀ h x, DeepExact except h → DeepExact except (step h x)) (hex : DeepExact except h)
    (ids : List Nat) : DeepExact except (ids.foldl step h) := by
  induction ids generalizing h with
  | nil => exact hex
  | cons x ids ih => exact ih (hstep h x hex)

theorem DeepExact.recomputeDisplayAt (hex : DeepExact except h) :
    DeepExact except (h.recomputeDisplayAt id) := hex.set_refresh _

theorem DeepExact.recomputeDisplaysBelow (hex : DeepExact except h) :
    DeepExact except (h.recomputeDisplaysBelow id) :=
  hex.foldl (fun _ _ hex => hex.recomputeDisplayAt) _

end
end CratonVM.ClassLoading
