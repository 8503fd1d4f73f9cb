import CratonVM.Gc.OldGen.LiveSetClosure

/-!
The answers of the closure: the least closed set of marks and its escapes, whichever test for a walked start is used
and whether the check on several workers answers first.
-/
namespace CratonVM.Gc
open OldGen Worklist List Option
open Bool hiding true_and

theorem Slots.oldGenRefAt_inExtent {slots : Slots} {data : Nat × Nat} {slot r : Nat}
    (h : slots.oldGenRefAt data slot = some r) : inExtent data r = true := by
  unfold Slots.oldGenRefAt at h
  dsimp only at h
  split at h
  · rename_i hin
    obtain rfl := some.inj h
    exact hin.2
  · cases h

theorem Slots.oldGenRefs_inExtent {slots : Slots} {h : Header} {o : WalkedObject} {data : Nat × Nat} {r : Nat}
    (hr : r ∈ slots.oldGenRefs h o data) : inExtent data r = true := by
  unfold Slots.oldGenRefs at hr
  dsimp only at hr
  split at hr
  · split at hr
    · obtain ⟨i,-,hi⟩ := mem_filterMap.mp hr
      exact oldGenRefAt_inExtent hi
    · cases hr
  split at hr
  · split at hr
    · cases hr
    obtain ⟨off,-,hoff⟩ := mem_filterMap.mp hr
    exact oldGenRefAt_inExtent hoff
  obtain ⟨i,-,hi⟩ := mem_filterMap.mp hr
  exact (filter_eq_some_iff.mp hi).2

namespace CloseArgs
variable {a : CloseArgs} {headers : Nat → Header}

section
theorem verifyRefs_due (l : List Nat) (e : Bool) : l.foldl (a.verifyRef headers) (true,e) = (true,e) := by
  induction l with
  | nil => rfl
  | cons r l ih => exact ih

theorem verifyRefs_spec (l : List Nat) (e : Bool) (hdue : (l.foldl (a.verifyRef headers) (false,e)).1 = false) :
    (∀ r ∈ l, a.isWalked r = true → (headers r).isMarked = true) ∧
      ((l.foldl (a.verifyRef headers) (false,e)).2 = true ↔
        e = true ∨ ∃ r ∈ l, a.isWalked r = false ∧ a.inGap r = false) := by
  induction l generalizing e with
  | nil => simp
  | cons r l ih => ?_
  rw [foldl_cons] at hdue ⊢
  cases hw : a.isWalked r with
  | false =>
    have hstep : a.verifyRef headers (false,e) r = (false,e || !a.inGap r) := by simp [verifyRef,hw]
    rw [hstep] at hdue ⊢
    obtain ⟨h1,h2⟩ := ih _ hdue
    refine ⟨forall_mem_cons.mpr ⟨fun hw' => by simp [hw] at hw',h1⟩,h2.trans ?_⟩
    simp only [or_eq_true,not_eq_true',exists_mem_cons_iff,hw,true_and]
    exact or_assoc
  | true => ?_
  cases hm : (headers r).isMarked with
  | false =>
    have hstep : a.verifyRef headers (false,e) r = (true,e) := by simp [verifyRef,hw,hm]
    rw [hstep,verifyRefs_due] at hdue
    cases hdue
  | true => ?_
  have hstep : a.verifyRef headers (false,e) r = (false,e) := by simp [verifyRef,hw,hm]
  rw [hstep] at hdue ⊢
  obtain ⟨h1,h2⟩ := ih _ hdue
  refine ⟨forall_mem_cons.mpr ⟨fun _ => hm,h1⟩,h2.trans ?_⟩
  simp [hw]

def Escape (a : CloseArgs) (headers : Nat → Header) (l : List WalkedObject) : Prop :=
  ∃ o ∈ l, (headers o.ptr).isMarked = true ∧ ∃ r ∈ a.refs headers o, a.isWalked r = false ∧ a.inGap r = false

def Complete (a : CloseArgs) (headers : Nat → Header) (l : List WalkedObject) : Prop :=
  ∀ o ∈ l, (headers o.ptr).isMarked = true → ∀ r ∈ a.refs headers o, a.isWalked r = true →
    (headers r).isMarked = true

variable {o : WalkedObject}

theorem escape_cons {l : List WalkedObject} :
    a.Escape headers (o::l) ↔
      ((headers o.ptr).isMarked = true ∧ ∃ r ∈ a.refs headers o, a.isWalked r = false ∧ a.inGap r = false) ∨
        a.Escape headers l := exists_mem_cons_iff ..

theorem verifyJob_spec {load : Nat → Bool} (hload : ∀ k, load k = false) (l : List WalkedObject) (k : Nat) (e : Bool)
    (hdue : (a.verifyJob headers load k e l).promoteDue = false) :
    a.Complete headers l ∧ ((a.verifyJob headers load k e l).escaped = true ↔ e = true ∨ a.Escape headers l) := by
  induction l generalizing k e with
  | nil => exact ⟨by simp [Complete],by simp [verifyJob,Escape]⟩
  | cons o l ih => ?_
  have hgo : ¬(k%1024 = 0 ∧ load k = true) := by simp [hload]
  unfold verifyJob at hdue ⊢
  rw [if_neg hgo] at hdue ⊢
  rw [escape_cons]
  cases hm : (headers o.ptr).isMarked with
  | false =>
    simp only [hm,Bool.not_false,if_true] at hdue ⊢
    obtain ⟨h1,h2⟩ := ih (k+1) e hdue
    refine ⟨forall_mem_cons.mpr ⟨fun hm' => by simp [hm] at hm',h1⟩,h2.trans ?_⟩
    simp
  | true => ?_
  simp only [hm,Bool.not_true,false_eq_true,if_false] at hdue ⊢
  have hrefs : ((a.refs headers o).foldl (a.verifyRef headers) (false,e)).1 = false → _ ∧ _ :=
    verifyRefs_spec (a.refs headers o) e
  unfold refs at hrefs
  generalize (a.slots.oldGenRefs (headers o.ptr) o a.data).foldl (a.verifyRef headers) (false,e) = out
    at hdue hrefs ⊢
  obtain ⟨due,e'⟩ := out
  cases due with
  | true => cases hdue
  | false => ?_
  obtain ⟨h1,h2⟩ := ih (k+1) e' hdue
  obtain ⟨h3,h4⟩ := hrefs rfl
  refine ⟨forall_mem_cons.mpr ⟨fun _ => h3,h1⟩,h2.trans ?_⟩
  rw [h4,true_and]
  exact or_assoc

variable {workers : Nat}

theorem mem_chunk (hpos : 0 < workers) (ho : o ∈ a.objects) :
    ∃ w < workers, o ∈ a.chunk workers w := by
  obtain ⟨i,hi,rfl⟩ := getElem_of_mem ho
  have hmul : a.objects.length ≤ workers*((a.objects.length+workers-1)/workers) := by
    have h1 := Nat.div_add_mod (a.objects.length+workers-1) workers
    have h2 := Nat.mod_lt (a.objects.length+workers-1) hpos
    omega
  unfold chunk
  dsimp only
  generalize (a.objects.length+workers-1)/workers = per at hmul
  have hper : 0 < per := by
    rcases Nat.eq_zero_or_pos per with rfl | h
    · omega
    · exact h
  have hlow := Nat.div_mul_le_self i per
  have hhigh : i < (i/per+1)*per := by
    have h1 := Nat.div_add_mod i per
    have h2 := Nat.mod_lt i hper
    rw [Nat.add_mul,Nat.mul_comm,Nat.one_mul]
    omega
  refine ⟨i/per,(Nat.div_lt_iff_lt_mul hper).mpr (by omega),?_⟩
  refine mem_iff_getElem?.mpr ⟨i-min (i/per*per) a.objects.length,?_⟩
  rw [getElem?_drop,getElem?_take,if_pos (by omega),Nat.add_sub_cancel' (by omega)]
  exact getElem?_eq_getElem hi

theorem chunk_subset {w : Nat} (ho : o ∈ a.chunk workers w) : o ∈ a.objects :=
  mem_of_mem_take (mem_of_mem_drop ho)

theorem closeLiveSetParVerify_some (hpos : 0 < workers) {loads : Nat → Nat → Bool}
    (hloads : a.LoadsOk headers workers loads) {e : Bool}
    (h : a.closeLiveSetParVerify headers workers loads = some e) :
    a.Complete headers a.objects ∧ (e = true ↔ a.Escape headers a.objects) := by
  unfold closeLiveSetParVerify at h
  dsimp only at h
  split at h
  · rename_i hnil
    obtain rfl := some.inj h
    have hobjects := length_eq_zero_iff.mp hnil
    rw [hobjects]
    exact ⟨by simp [Complete],by simp [Escape]⟩
  rename_i hlen
  split at h
  · cases h
  rename_i hany
  obtain rfl := some.inj h
  have hworkers : 0 < min workers a.objects.length := by omega
  unfold LoadsOk at hloads
  generalize min workers a.objects.length = n at hworkers hany hloads ⊢
  have hdue : ∀ w < n, (a.workerOut headers n loads w).promoteDue = false := by
    intro w hw
    by_contra hd
    exact hany (any_eq_true.mpr ⟨_,mem_map_of_mem (mem_range.mpr hw),by simpa using hd⟩)
  -- So no worker can have read that one is due.
  have hload : ∀ w k, loads w k = false := by
    intro w k
    by_contra hl
    obtain ⟨w',hw',hd⟩ := hloads w k (by simpa using hl)
    simp [hdue w' hw'] at hd
  have hjobs : ∀ w < n, a.Complete headers (a.chunk n w) ∧
      ((a.workerOut headers n loads w).escaped = true ↔ a.Escape headers (a.chunk n w)) := by
    intro w hw
    have hjob := verifyJob_spec (hload w) (a.chunk n w) 0 false (hdue w hw)
    exact ⟨hjob.1,hjob.2.trans (by simp)⟩
  refine ⟨?_,?_⟩
  · intro o ho
    obtain ⟨w,hw,hmem⟩ := mem_chunk hworkers ho
    exact (hjobs w hw).1 o hmem
  rw [List.any_map,List.any_eq_true]
  constructor
  · rintro ⟨w,hw,he⟩
    obtain ⟨o,ho,hesc⟩ := (hjobs w (mem_range.mp hw)).2.mp he
    exact ⟨o,chunk_subset ho,hesc⟩
  rintro ⟨o,ho,hesc⟩
  obtain ⟨w,hw,hmem⟩ := mem_chunk hworkers ho
  exact ⟨w,mem_range.mpr hw,(hjobs w hw).2.mpr ⟨o,hmem,hesc⟩⟩

end

/-- The marks are the least closed set with the initial ones, the escapes are those of its objects, and nothing else
of a header has changed. -/
structure IsClosure (a : CloseArgs) (headers : Nat → Header) (out : Closing) : Prop where
  least : IsLeast { S : Set Nat | markedSet headers ⊆ S ∧ a.ClosedUnderRefs headers S } (markedSet out.headers)
  escape : out.escaped = true ↔ ∃ o ∈ a.objects, o.ptr ∈ markedSet out.headers ∧ ∃ r ∈ a.refs headers o,
    inExtent a.data r = true ∧ ¬a.IsStart r ∧ ¬∃ g ∈ a.gaps, g.1 ≤ r ∧ r < g.2
  frame : ∀ p, out.headers p = headers p ∨ out.headers p = (headers p).addGcFlags gcFlagMarked

section
variable {out : Closing} {r : Nat}

section
variable (h : a.WalkOk) (hg : GapsOk a.gaps)
include h hg

theorem escaping_iff {o : WalkedObject} :
    (∃ r ∈ a.refs headers o, a.isWalked r = false ∧ a.inGap r = false) ↔
      ∃ r ∈ a.refs headers o, inExtent a.data r = true ∧ ¬a.IsStart r ∧ ¬∃ g ∈ a.gaps, g.1 ≤ r ∧ r < g.2 := by
  refine exists_congr fun r => and_congr_right fun hr => ?_
  have hin := Slots.oldGenRefs_inExtent hr
  unfold IsStart
  rw [← isWalked_iff h r,← inGap_iff hg r,not_eq_true,not_eq_true]
  exact ⟨fun he => ⟨hin,he⟩,fun he => he.2⟩

theorem isClosure_of_settled (ht : Tracing a headers out)
    (hs : ∀ o, Known a out o → Settled a headers out o) : a.IsClosure headers out := by
  have hclosed : a.ClosedUnderRefs headers (markedSet out.headers) := by
    intro o ho hm r hr hstart
    exact (hs o ⟨ho,hm⟩ r hr).1 ((isWalked_iff h r).mpr hstart)
  refine ⟨⟨⟨ht.marks,hclosed⟩,?_⟩,?_,ht.frame⟩
  · rintro S ⟨hS,hSclosed⟩ p hp
    exact ht.live hp S hS hSclosed
  constructor
  · intro he
    obtain ⟨o,ho,hlive,hesc⟩ := ht.escape he
    exact ⟨o,ho,hlive _ ht.marks hclosed,(escaping_iff h hg).mp hesc⟩
  rintro ⟨o,ho,hm,hesc⟩
  obtain ⟨r,hr,hw,hgap⟩ := (escaping_iff h hg).mpr hesc
  exact (hs o ⟨ho,hm⟩ r hr).2 hw hgap

theorem serial_isClosure (rescued : Option (List Nat)) {fuel : Nat}
    (hfuel : a.objects.length ≤ fuel) :
    ∃ out, a.drain fuel (a.objects.foldl a.passStep { headers,rescued }) = some out ∧ a.IsClosure headers out := by
  have hstart : Tracing a headers { headers,rescued } :=
    ⟨fun _ hp => hp,fun _ => .inl rfl,fun _ hp => live_of_marked hp,fun he => (by cases he),fun _ hj => (by cases hj)⟩
  have hcovered : Covered (Known a) (Settled a headers) { headers,rescued }
      fun o' => Listed a { headers,rescued } o' ∨ o' ∈ a.objects := fun o hk => .inl (.inr hk.1)
  have hturns : a.turns { headers,rescued } ≤ a.objects.length := by
    have h1 := Finset.card_filter_le (a.objects.map WalkedObject.ptr).toFinset
      fun p => (headers p).isMarked = false
    have h2 := toFinset_card_le (a.objects.map WalkedObject.ptr)
    rw [length_map] at h2
    exact Nat.le_trans h1 h2
  obtain ⟨ht,hc,hless⟩ := pass_covered h a.objects (show a.objects = []++a.objects from rfl) hstart hcovered
  obtain ⟨out,hout,ht',hs⟩ := drain_covered h fuel ht hc (by omega)
  exact ⟨out,hout,isClosure_of_settled h hg ht' hs⟩

theorem verified_isClosure (rescued : Option (List Nat)) {e : Bool}
    (hcomplete : a.Complete headers a.objects) (he : e = true ↔ a.Escape headers a.objects) :
    a.IsClosure headers { headers,escaped := e,rescued } := by
  refine ⟨⟨⟨fun _ hp => hp,?_⟩,fun S hS => hS.1⟩,?_,fun _ => .inl rfl⟩
  · intro o ho hm r hr hstart
    exact hcomplete o ho hm r hr ((isWalked_iff h r).mpr hstart)
  refine he.trans ?_
  refine exists_congr fun o => and_congr_right fun _ => and_congr_right fun _ => ?_
  exact escaping_iff h hg

theorem closeLiveSetStarts_isClosure (rescued : Option (List Nat)) (par : Nat)
    {loads : Nat → Nat → Bool} (hloads : a.LoadsOk headers par loads) {fuel : Nat}
    (hfuel : a.objects.length ≤ fuel) :
    ∃ out, a.closeLiveSetStarts headers rescued par loads fuel = some out ∧ a.IsClosure headers out := by
  unfold closeLiveSetStarts
  split
  · cases hv : a.closeLiveSetParVerify headers par loads with
    | some e =>
      obtain ⟨hcomplete,he⟩ := closeLiveSetParVerify_some (by omega) hloads hv
      exact ⟨_,rfl,verified_isClosure h hg rescued hcomplete he⟩
    | none => exact serial_isClosure h hg rescued hfuel
  · exact serial_isClosure h hg rescued hfuel

end
end

section
variable {starts : Option WalkStartBits}

/-- The closure with another way to know the walked starts. -/
def withStarts (a : CloseArgs) (starts : Option WalkStartBits) : CloseArgs := { a with starts }

variable (hw : (a.withStarts starts).isWalked = a.isWalked)
include hw

theorem verifyJob_withStarts (load : Nat → Bool) (k : Nat) (e : Bool) (l : List WalkedObject) :
    (a.withStarts starts).verifyJob headers load k e l = a.verifyJob headers load k e l := by
  have hverify : (a.withStarts starts).verifyRef headers = a.verifyRef headers := by
    unfold verifyRef
    rw [hw]
    rfl
  induction l generalizing k e with
  | nil => rfl
  | cons o l ih =>
    simp only [verifyJob,ih,hverify]
    rfl

theorem scan_withStarts (queued : Nat → Bool) (s : Closing) (o : WalkedObject) :
    (a.withStarts starts).scan queued s o = a.scan queued s o := by
  have hvisit : (a.withStarts starts).visit queued = a.visit queued := by
    unfold visit
    rw [hw]
    rfl
  unfold scan
  rw [hvisit]
  rfl

theorem drain_withStarts (fuel : Nat) (s : Closing) : (a.withStarts starts).drain fuel s = a.drain fuel s := by
  induction fuel generalizing s with
  | zero => rfl
  | succ fuel ih => ?_
  unfold drain
  cases hl : s.worklist with
  | nil => rfl
  | cons j rest =>
    dsimp only
    rw [scan_withStarts hw,ih]
    rfl

theorem closeLiveSetStarts_withStarts (rescued : Option (List Nat)) (par : Nat) (loads : Nat → Nat → Bool)
    (fuel : Nat) :
    (a.withStarts starts).closeLiveSetStarts headers rescued par loads fuel =
      a.closeLiveSetStarts headers rescued par loads fuel := by
  have hpass : (a.withStarts starts).passStep = a.passStep := by
    funext s o
    unfold passStep
    rw [scan_withStarts hw]
  have hworker : ∀ workers, (a.withStarts starts).workerOut headers workers loads = a.workerOut headers workers loads := by
    intro workers
    funext w
    exact verifyJob_withStarts hw _ _ _ _
  have hverify : (a.withStarts starts).closeLiveSetParVerify headers par loads =
      a.closeLiveSetParVerify headers par loads := by
    unfold closeLiveSetParVerify
    simp only [hworker]
    rfl
  unfold closeLiveSetStarts
  rw [hverify,hpass,drain_withStarts hw]
  rfl

end

/-- For every heap, walk in address order and initial marks the closure ends with the least closed set of marks and
reports exactly its escapes, on one worker or several; with the bitmap of the walk's starts it ends the same. -/
theorem close_live_set_exact (slots : Slots) {objects : List WalkedObject} (data : Nat × Nat) {gaps : List (Nat × Nat)}
    (headers : Nat → Header) (rescued : Option (List Nat)) (par : Nat) {loads : Nat → Nat → Bool} {fuel : Nat}
    (hasc : objects.Pairwise fun o o' => o.ptr < o'.ptr) (hgaps : GapsOk gaps)
    (hloads : LoadsOk ⟨slots,objects,data,gaps,none⟩ headers par loads) (hfuel : objects.length ≤ fuel) :
    ∃ out, closeLiveSetStarts ⟨slots,objects,data,gaps,none⟩ headers rescued par loads fuel = some out ∧
      closeLiveSetStarts ⟨slots,objects,data,gaps,WalkStartBits.build objects⟩ headers rescued par loads fuel =
        some out ∧
      IsClosure ⟨slots,objects,data,gaps,none⟩ headers out := by
  have h : WalkOk ⟨slots,objects,data,gaps,none⟩ := ⟨hasc,fun _ hb => by cases hb⟩
  have h' : WalkOk ⟨slots,objects,data,gaps,WalkStartBits.build objects⟩ := ⟨hasc,fun _ hb => hb⟩
  obtain ⟨out,hout,hclosure⟩ := closeLiveSetStarts_isClosure h hgaps rescued par hloads hfuel
  refine ⟨out,hout,?_,hclosure⟩
  have hw : (withStarts ⟨slots,objects,data,gaps,none⟩ (WalkStartBits.build objects)).isWalked =
      isWalked ⟨slots,objects,data,gaps,none⟩ := by
    funext r
    rw [Bool.eq_iff_iff,isWalked_iff h]
    exact isWalked_iff h' r
  exact (closeLiveSetStarts_withStarts hw rescued par loads fuel).trans hout

/-- Three legacy objects with one slot each: the first is marked and refers to the last, the last to the middle one,
and the middle one into itself. -/
def chainSlots : Slots where
  refSize := 8
  readRefSlot := fun _ => 0
  readValue := fun slot => if slot = 4112 then some 4160 else if slot = 4176 then some 4128 else some 4136
  compactFieldCount := fun _ => none
  classLayout := fun _ _ => none

def chainObjects : List WalkedObject := [⟨4096,32⟩,⟨4128,32⟩,⟨4160,32⟩]

def chainHeaders : Nat → Header := fun p => ⟨1,if p = 4096 then 0x2000000 else 0,1⟩

theorem close_live_set_exact_chain :
    (closeLiveSetStarts ⟨chainSlots,chainObjects,(4096,8192),[],none⟩ chainHeaders (some []) 2 (fun _ _ => false) 3).map
        (fun s => (s.escaped,s.promoted,s.rescued)) = some (true,2,some [4160,4128]) ∧
      ∃ out, closeLiveSetStarts ⟨chainSlots,chainObjects,(4096,8192),[],WalkStartBits.build chainObjects⟩ chainHeaders
          (some []) 2 (fun _ _ => false) 3 = some out ∧
        IsClosure ⟨chainSlots,chainObjects,(4096,8192),[],none⟩ chainHeaders out := by
  refine ⟨by decide,?_⟩
  obtain ⟨out,-,hout,hclosure⟩ := close_live_set_exact chainSlots (4096,8192) chainHeaders (some []) 2
    (show chainObjects.Pairwise fun o o' => o.ptr < o'.ptr by decide) (show GapsOk [] from .nil)
    (show LoadsOk _ chainHeaders 2 (fun _ _ => false) from fun _ _ hl => by cases hl) (Nat.le_refl 3)
  exact ⟨out,hout,hclosure⟩

end CloseArgs
end CratonVM.Gc
