import CratonVM.Lib.GraphSearch
import CratonVM.Gc.OldGen.LiveSet

/-!
The closure of the live set is the least one: what a visit, the linear pass and the drain of the worklist do to the
marks, and that the check on several workers answers only where there is nothing to promote.
-/
namespace CratonVM.Gc
open OldGen Worklist List Function Finset

namespace CloseArgs
variable {a : CloseArgs}

def markedSet (headers : Nat → Header) : Set Nat := { p | (headers p).isMarked = true }

def refs (a : CloseArgs) (headers : Nat → Header) (o : WalkedObject) : List Nat :=
  a.slots.oldGenRefs (headers o.ptr) o a.data

def IsStart (a : CloseArgs) (r : Nat) : Prop := ∃ o ∈ a.objects, o.ptr = r

/-- Nothing in the set refers to a walked start outside it. -/
def ClosedUnderRefs (a : CloseArgs) (headers : Nat → Header) (S : Set Nat) : Prop :=
  ∀ o ∈ a.objects, o.ptr ∈ S → ∀ r ∈ a.refs headers o, a.IsStart r → r ∈ S

def liveSet (a : CloseArgs) (headers : Nat → Header) : Set Nat :=
  { p | ∀ S : Set Nat, markedSet headers ⊆ S → a.ClosedUnderRefs headers S → p ∈ S }

section
variable {headers : Nat → Header} {p r : Nat}

theorem live_of_marked (h : (headers p).isMarked = true) : p ∈ a.liveSet headers := fun _ hS _ => hS h

theorem live_of_ref {o : WalkedObject} (ho : o ∈ a.objects) (hlive : o.ptr ∈ a.liveSet headers)
    (hr : r ∈ a.refs headers o) (hs : a.IsStart r) : r ∈ a.liveSet headers := by
  intro S hS hclosed
  exact hclosed o ho (hlive S hS hclosed) r hr hs

end

theorem WalkOk.eq_of_ptr (h : a.WalkOk) {o o' : WalkedObject} (ho : o ∈ a.objects) (ho' : o' ∈ a.objects)
    (hptr : o.ptr = o'.ptr) : o = o' := by
  obtain ⟨i,hi,rfl⟩ := getElem_of_mem ho
  obtain ⟨j,hj,rfl⟩ := getElem_of_mem ho'
  rcases Nat.lt_trichotomy i j with hlt | rfl | hlt
  · have := pairwise_iff_getElem.mp h.ascending i j hi hj hlt
    omega
  · rfl
  have := pairwise_iff_getElem.mp h.ascending j i hj hi hlt
  omega

def turns (a : CloseArgs) (s : Closing) : Nat :=
  ((a.objects.map WalkedObject.ptr).toFinset.filter fun p => (s.headers p).isMarked = false).card+s.worklist.length

/-- What the visits of some references do. -/
structure Visited (a : CloseArgs) (queued : Nat → Bool) (l : List Nat) (s t : Closing) : Prop where
  marks : ∀ p, (t.headers p).isMarked = true ↔ (s.headers p).isMarked = true ∨ p ∈ l ∧ a.isWalked p = true
  frame : ∀ p, t.headers p = s.headers p ∨ t.headers p = (s.headers p).addGcFlags gcFlagMarked
  escape : t.escaped = true ↔ s.escaped = true ∨ ∃ r ∈ l, a.isWalked r = false ∧ a.inGap r = false
  kept : ∀ j ∈ s.worklist, j ∈ t.worklist
  queue : ∀ r ∈ l, a.isWalked r = true → (s.headers r).isMarked = false → queued r = true →
    ∃ j ∈ t.worklist, ∃ o, a.objects[j]? = some o ∧ o.ptr = r
  fresh : ∀ j ∈ t.worklist, j ∈ s.worklist ∨ ∃ o, a.objects[j]? = some o ∧ (t.headers o.ptr).isMarked = true
  turns : a.turns t ≤ a.turns s

section
variable {queued : Nat → Bool} {l m : List Nat} {s t u : Closing}

theorem visited_nil : Visited a queued [] s s where
  marks := by simp
  frame := fun _ => .inl rfl
  escape := by simp
  kept := fun _ hj => hj
  queue := by simp
  fresh := fun _ hj => .inl hj
  turns := le_rfl

theorem addMark_addMark (h : Header) :
    (h.addGcFlags gcFlagMarked).addGcFlags gcFlagMarked = h.addGcFlags gcFlagMarked := by
  simp [Header.addMark_eq]

theorem Visited.trans (h : Visited a queued l s t) (h' : Visited a queued m t u) :
    Visited a queued (l++m) s u where
  marks := by
    intro p
    rw [h'.marks,h.marks,mem_append]
    tauto
  frame := by
    intro p
    rcases h.frame p with h1 | h1
    · rw [← h1]
      exact h'.frame p
    rcases h'.frame p with h2 | h2
    · exact .inr (h2.trans h1)
    · exact .inr (by rw [h2,h1,addMark_addMark])
  escape := by
    rw [h'.escape,h.escape]
    simp only [mem_append,or_and_right,exists_or]
    exact or_assoc
  kept := fun j hj => h'.kept j (h.kept j hj)
  queue := by
    intro r hr hw hm hq
    rcases mem_append.mp hr with hr | hr
    · obtain ⟨j,hj,ho⟩ := h.queue r hr hw hm hq
      exact ⟨j,h'.kept j hj,ho⟩
    cases hm' : (t.headers r).isMarked with
    | false => exact h'.queue r hr hw hm' hq
    | true => ?_
    -- An earlier visit has promoted it.
    rcases (h.marks r).mp hm' with hm' | ⟨hr,-⟩
    · simp [hm] at hm'
    obtain ⟨j,hj,ho⟩ := h.queue r hr hw hm hq
    exact ⟨j,h'.kept j hj,ho⟩
  fresh := by
    intro j hj
    rcases h'.fresh j hj with hj | hj
    · rcases h.fresh j hj with hj | ⟨o,ho,hm⟩
      · exact .inl hj
      · exact .inr ⟨o,ho,(h'.marks _).mpr (.inl hm)⟩
    · exact .inr hj
  turns := Nat.le_trans h'.turns h.turns

theorem visited_escape {r : Nat} (hw : a.isWalked r = false) :
    Visited a queued [r] s { s with escaped := s.escaped || !a.inGap r } where
  marks := by
    intro p
    simp only [List.mem_singleton]
    constructor
    · exact .inl
    rintro (h | ⟨rfl,h⟩)
    · exact h
    · simp [hw] at h
  frame := fun _ => .inl rfl
  escape := by simp [hw]
  kept := fun _ hj => hj
  queue := by simp [hw]
  fresh := fun _ hj => .inl hj
  turns := le_rfl

theorem visited_marked {r : Nat} (hw : a.isWalked r = true) (hm : (s.headers r).isMarked = true) :
    Visited a queued [r] s s where
  marks := by
    intro p
    simp only [List.mem_singleton]
    constructor
    · exact .inl
    rintro (h | ⟨rfl,-⟩)
    · exact h
    · exact hm
  frame := fun _ => .inl rfl
  escape := by simp [hw]
  kept := fun _ hj => hj
  queue := by simp [hm]
  fresh := fun _ hj => .inl hj
  turns := le_rfl

theorem visited_promoted (queued : Nat → Bool) (promoted : Nat) (rescued : Option (List Nat)) {r j : Nat}
    {o : WalkedObject} (hw : a.isWalked r = true) (hm : (s.headers r).isMarked = false)
    (hj : a.objects[j]? = some o) (hptr : o.ptr = r) :
    Visited a queued [r] s
      { s with
        headers := update s.headers r ((s.headers r).addGcFlags gcFlagMarked)
        promoted
        rescued
        worklist := if queued r then j::s.worklist else s.worklist } where
  marks := by
    intro p
    by_cases hp : p = r
    · subst hp
      simp [hw]
    · simp [hp]
  frame := by
    intro p
    by_cases hp : p = r
    · subst hp
      exact .inr (update_self ..)
    · exact .inl (update_of_ne hp ..)
  escape := by simp [hw]
  kept := by
    intro k hk
    dsimp only
    split
    · exact mem_cons_of_mem _ hk
    · exact hk
  queue := by
    intro r' hr' _ _ hq
    obtain rfl := List.mem_singleton.mp hr'
    refine ⟨j,?_,o,hj,hptr⟩
    dsimp only
    rw [if_pos hq]
    exact mem_cons_self
  fresh := by
    intro k hk
    dsimp only at hk
    split at hk
    · rcases mem_cons.mp hk with rfl | hk
      · refine .inr ⟨o,hj,?_⟩
        rw [hptr]
        simp
      · exact .inl hk
    · exact .inl hk
  turns := by
    have hmem : r ∈ (a.objects.map WalkedObject.ptr).toFinset.filter fun p => (s.headers p).isMarked = false := by
      rw [Finset.mem_filter,mem_toFinset,List.mem_map]
      exact ⟨⟨o,mem_of_getElem? hj,hptr⟩,hm⟩
    have herase : ((a.objects.map WalkedObject.ptr).toFinset.filter fun p =>
        (update s.headers r ((s.headers r).addGcFlags gcFlagMarked) p).isMarked = false) =
        ((a.objects.map WalkedObject.ptr).toFinset.filter fun p => (s.headers p).isMarked = false).erase r := by
      ext p
      rw [mem_erase,Finset.mem_filter,Finset.mem_filter]
      by_cases hp : p = r
      · subst hp
        simp
      · simp [hp]
    have hcard := card_erase_add_one hmem
    unfold CloseArgs.turns
    rw [herase]
    dsimp only
    split
    · rw [length_cons]
      omega
    · omega

theorem visit_visited (h : a.WalkOk) (queued : Nat → Bool) (s : Closing) (r : Nat) :
    Visited a queued [r] s (a.visit queued s r) := by
  unfold visit
  cases hw : a.isWalked r with
  | false =>
    exact visited_escape hw
  | true => ?_
  cases hm : (s.headers r).isMarked with
  | true =>
    exact visited_marked hw hm
  | false => ?_
  obtain ⟨o,ho,hptr⟩ := (isWalked_iff h r).mp hw
  obtain ⟨j,hj,hget⟩ := getElem_of_mem ho
  have hindex : a.walkedIndex r = some j :=
    (walkedIndex_eq_some h).mpr ⟨o,by rw [getElem?_eq_getElem hj,hget],hptr⟩
  have hat : a.objects[j]? = some o := by rw [getElem?_eq_getElem hj,hget]
  rw [if_neg (by simp),hindex]
  cases hq : queued r with
  | true =>
    have hv := visited_promoted queued (s.promoted+1) (s.rescued.map (·++[r])) hw hm hat hptr
    rw [hq] at hv
    exact hv
  | false =>
    have hv := visited_promoted queued (s.promoted+1) (s.rescued.map (·++[r])) hw hm hat hptr
    rw [hq] at hv
    exact hv

theorem visits_visited (h : a.WalkOk) (queued : Nat → Bool) (l : List Nat) (s : Closing) :
    Visited a queued l s (l.foldl (a.visit queued) s) := by
  induction l generalizing s with
  | nil => exact visited_nil
  | cons r l ih =>
    exact (visit_visited h queued s r).trans (ih _)

end

/-- Between two scans: the marks so far are live, every escape is one of a live object, and the worklist has marked
objects only. -/
structure Tracing (a : CloseArgs) (headers : Nat → Header) (s : Closing) : Prop where
  marks : markedSet headers ⊆ markedSet s.headers
  frame : ∀ p, s.headers p = headers p ∨ s.headers p = (headers p).addGcFlags gcFlagMarked
  live : markedSet s.headers ⊆ a.liveSet headers
  escape : s.escaped = true → ∃ o ∈ a.objects, o.ptr ∈ a.liveSet headers ∧
    ∃ r ∈ a.refs headers o, a.isWalked r = false ∧ a.inGap r = false
  queue : ∀ j ∈ s.worklist, ∃ o, a.objects[j]? = some o ∧ (s.headers o.ptr).isMarked = true

def Known (a : CloseArgs) (s : Closing) (o : WalkedObject) : Prop :=
  o ∈ a.objects ∧ (s.headers o.ptr).isMarked = true

/-- The references of the object have been visited. -/
def Settled (a : CloseArgs) (headers : Nat → Header) (s : Closing) (o : WalkedObject) : Prop :=
  ∀ r ∈ a.refs headers o,
    (a.isWalked r = true → (s.headers r).isMarked = true) ∧
      (a.isWalked r = false → a.inGap r = false → s.escaped = true)

def Listed (a : CloseArgs) (s : Closing) (o : WalkedObject) : Prop := ∃ j ∈ s.worklist, a.objects[j]? = some o

section
variable {headers : Nat → Header} {queued : Nat → Bool} {s t : Closing} {o : WalkedObject}

theorem Tracing.refs_eq (h : Tracing a headers s) (o : WalkedObject) : a.refs s.headers o = a.refs headers o := by
  unfold refs
  rcases h.frame o.ptr with h | h
  · rw [h]
  · rw [h,oldGenRefs_addMark]

theorem scan_visited (h : a.WalkOk) (ht : Tracing a headers s) (queued : Nat → Bool) (o : WalkedObject) :
    Visited a queued (a.refs headers o) s (a.scan queued s o) := by
  rw [← ht.refs_eq o]
  exact visits_visited h queued _ s

theorem Tracing.visited (h : a.WalkOk) (ht : Tracing a headers s) (ho : o ∈ a.objects)
    (hm : (s.headers o.ptr).isMarked = true) (hv : Visited a queued (a.refs headers o) s t) : Tracing a headers t where
  marks := fun p hp => (hv.marks p).mpr (.inl (ht.marks hp))
  frame := by
    intro p
    rcases ht.frame p with h1 | h1
    · rw [← h1]
      exact hv.frame p
    rcases hv.frame p with h2 | h2
    · exact .inr (h2.trans h1)
    · exact .inr (by rw [h2,h1,addMark_addMark])
  live := by
    intro p hp
    rcases (hv.marks p).mp hp with hp | ⟨hp,hw⟩
    · exact ht.live hp
    · exact live_of_ref ho (ht.live hm) hp ((isWalked_iff h p).mp hw)
  escape := by
    intro he
    rcases hv.escape.mp he with he | ⟨r,hr,he⟩
    · exact ht.escape he
    · exact ⟨o,ho,ht.live hm,r,hr,he⟩
  queue := by
    intro j hj
    rcases hv.fresh j hj with hj | hj
    · obtain ⟨o',ho',hm'⟩ := ht.queue j hj
      exact ⟨o',ho',(hv.marks _).mpr (.inl hm')⟩
    · exact hj

theorem settled_of_visited (hv : Visited a queued (a.refs headers o) s t) : Settled a headers t o :=
  fun r hr => ⟨fun hw => (hv.marks r).mpr (.inr ⟨hr,hw⟩),fun hw hg => hv.escape.mpr (.inr ⟨r,hr,hw,hg⟩)⟩

theorem Settled.visited {l : List Nat} (h : Settled a headers s o) (hv : Visited a queued l s t) :
    Settled a headers t o :=
  fun r hr => ⟨fun hw => (hv.marks r).mpr (.inl ((h r hr).1 hw)),fun hw hg => hv.escape.mpr (.inl ((h r hr).2 hw hg))⟩

theorem Listed.visited {l : List Nat} (h : Listed a s o) (hv : Visited a queued l s t) : Listed a t o := by
  obtain ⟨j,hj,ho⟩ := h
  exact ⟨j,hv.kept j hj,ho⟩

theorem known_visited (h : a.WalkOk) {l : List Nat} (hv : Visited a queued l s t) (hk : Known a t o) :
    Known a s o ∨ (s.headers o.ptr).isMarked = false ∧ (queued o.ptr = true → Listed a t o) := by
  cases hm : (s.headers o.ptr).isMarked with
  | true => exact .inl ⟨hk.1,hm⟩
  | false => ?_
  refine .inr ⟨rfl,fun hq => ?_⟩
  rcases (hv.marks o.ptr).mp hk.2 with hm' | ⟨hl,hw⟩
  · simp [hm] at hm'
  obtain ⟨j,hj,o',ho',hptr⟩ := hv.queue o.ptr hl hw hm hq
  obtain rfl := h.eq_of_ptr (mem_of_getElem? ho') hk.1 hptr
  exact ⟨j,hj,ho'⟩

theorem passStep_covered (h : a.WalkOk) {before rest : List WalkedObject} (hsplit : a.objects = before++o::rest)
    (ht : Tracing a headers s)
    (hc : Covered (Known a) (Settled a headers) s fun o' => Listed a s o' ∨ o' ∈ o::rest) :
    Tracing a headers (a.passStep s o) ∧
      (Covered (Known a) (Settled a headers) (a.passStep s o) fun o' => Listed a (a.passStep s o) o' ∨ o' ∈ rest) ∧
      a.turns (a.passStep s o) ≤ a.turns s := by
  have ho : o ∈ a.objects := by
    rw [hsplit]
    simp
  unfold passStep
  cases hm : (s.headers o.ptr).isMarked with
  | false =>
    rw [if_pos (by simp)]
    refine ⟨ht,?_,le_rfl⟩
    intro o' hk
    rcases hc o' hk with (hl | hr) | hs
    · exact .inl (.inl hl)
    · rcases mem_cons.mp hr with rfl | hr
      · have := hk.2
        simp [hm] at this
      · exact .inl (.inr hr)
    · exact .inr hs
  | true => ?_
  rw [if_neg (by simp)]
  have hv := scan_visited h ht (fun r => decide (r < o.ptr)) o
  refine ⟨ht.visited h ho hm hv,?_,hv.turns⟩
  refine hc.round (.inl (settled_of_visited hv)) ?_ ?_ fun o' hs => .inl (hs.visited hv)
  · rintro o' (hl | hr) hne
    · exact .inl (hl.visited hv)
    · exact .inr ((mem_cons.mp hr).resolve_left hne)
  intro o' hk
  rcases known_visited h hv hk with hk' | ⟨hnew,hqueued⟩
  · exact .inl hk'
  rcases Nat.lt_trichotomy o'.ptr o.ptr with hlt | heq | hgt
  · exact .inr (.inl (hqueued (decide_eq_true hlt)))
  · rw [heq,hm] at hnew
    cases hnew
  -- Ahead of the cursor.
  have hmem := hk.1
  have hasc := h.ascending
  rw [hsplit] at hmem hasc
  obtain ⟨-,-,hcross⟩ := pairwise_append.mp hasc
  rcases mem_append.mp hmem with hb | hr
  · have := hcross o' hb o mem_cons_self
    omega
  rcases mem_cons.mp hr with rfl | hr
  · omega
  · exact .inr (.inr hr)

theorem pass_covered (h : a.WalkOk) (rest : List WalkedObject) {before : List WalkedObject}
    (hsplit : a.objects = before++rest) (ht : Tracing a headers s)
    (hc : Covered (Known a) (Settled a headers) s fun o' => Listed a s o' ∨ o' ∈ rest) :
    Tracing a headers (rest.foldl a.passStep s) ∧
      Covered (Known a) (Settled a headers) (rest.foldl a.passStep s) (Listed a (rest.foldl a.passStep s)) ∧
      a.turns (rest.foldl a.passStep s) ≤ a.turns s := by
  induction rest generalizing before s with
  | nil => ?_
  | cons o rest ih =>
    obtain ⟨ht',hc',hturns⟩ := passStep_covered h hsplit ht hc
    obtain ⟨h1,h2,h3⟩ := ih (show a.objects = (before++[o])++rest by rw [hsplit]; simp) ht' hc'
    exact ⟨h1,h2,Nat.le_trans h3 hturns⟩
  refine ⟨ht,?_,le_rfl⟩
  intro o hk
  rcases hc o hk with (hl | hr) | hs
  · exact .inl hl
  · cases hr
  · exact .inr hs

theorem drain_covered (h : a.WalkOk) (fuel : Nat) (ht : Tracing a headers s)
    (hc : Covered (Known a) (Settled a headers) s (Listed a s)) (hturns : a.turns s ≤ fuel) :
    ∃ out, a.drain fuel s = some out ∧ Tracing a headers out ∧ ∀ o, Known a out o → Settled a headers out o := by
  induction fuel generalizing s with
  | zero =>
    have hnil : s.worklist = [] := length_eq_zero_iff.mp (by unfold turns at hturns; omega)
    refine ⟨s,by rw [drain,hnil]; rfl,ht,fun o hk => hc.done ?_ hk⟩
    rintro o ⟨j,hj,-⟩
    simp [hnil] at hj
  | succ fuel ih => ?_
  cases hw : s.worklist with
  | nil =>
    refine ⟨s,by rw [drain,hw],ht,fun o hk => hc.done ?_ hk⟩
    rintro o ⟨j,hj,-⟩
    simp [hw] at hj
  | cons j rest => ?_
  obtain ⟨o,ho,hm⟩ := ht.queue j (by rw [hw]; exact mem_cons_self)
  have hget : a.objects.getD j ⟨0,0⟩ = o := by simp [getD,ho]
  have ht' : Tracing a headers { s with worklist := rest } :=
    ⟨ht.marks,ht.frame,ht.live,ht.escape,fun k hk => ht.queue k (by rw [hw]; exact mem_cons_of_mem _ hk)⟩
  have hv := scan_visited h ht' (fun _ => true) o
  have hmem := mem_of_getElem? ho
  have hc' : Covered (Known a) (Settled a headers) (a.scan (fun _ => true) { s with worklist := rest } o)
      (Listed a (a.scan (fun _ => true) { s with worklist := rest } o)) := by
    refine hc.round (.inl (settled_of_visited hv)) ?_ ?_ ?_
    · rintro o' ⟨k,hk,ho'⟩ hne
      rw [hw] at hk
      rcases mem_cons.mp hk with rfl | hk
      · exact absurd (Option.some.inj (ho'.symm.trans ho)) hne
      · exact Listed.visited ⟨k,hk,ho'⟩ hv
    · intro o' hk
      rcases known_visited h hv hk with hk' | ⟨-,hqueued⟩
      · exact .inl hk'
      · exact .inr (hqueued rfl)
    intro o' hs
    have hs' : Settled a headers { s with worklist := rest } o' := hs
    exact .inl (hs'.visited hv)
  have hless : a.turns { s with worklist := rest }+1 = a.turns s := by
    unfold turns
    rw [hw]
    rfl
  have hle := hv.turns
  obtain ⟨out,hout,h1,h2⟩ := ih (ht'.visited h hmem hm hv) hc' (by omega)
  refine ⟨out,?_,h1,h2⟩
  rw [drain,hw]
  dsimp only
  rw [hget]
  exact hout

end
end CloseArgs
end CratonVM.Gc
