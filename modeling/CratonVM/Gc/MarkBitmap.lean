import CratonVM.Gc.HeapBitmap.Queries

/-!
The mark bitmap of `gc/src/mark_bitmap.rs`: marks over one region, with the window of words that a
mark was aimed at since the last clear. The clears touch only that window. The clear census is left
out.
-/
namespace CratonVM.Gc
open BitRows HeapBitmap Bool
open List hiding contains get

structure MarkBitmap where
  bits : HeapBitmap
  anyMarked : Bool
  markLoWord : Nat
  markHiWord : Nat
  deriving DecidableEq, Repr

namespace MarkBitmap
def new (base regionSize : Nat) : MarkBitmap := ⟨labelled base regionSize,false,usizeMax,0⟩

section
variable (m : MarkBitmap)

def widenClearWindow (w : Nat) : MarkBitmap :=
  { m with
    markLoWord := if w < m.markLoWord then min m.markLoWord w else m.markLoWord
    markHiWord := if m.markHiWord < w+1 then max m.markHiWord (w+1) else m.markHiWord }

def tryMark (addr : Nat) : MarkBitmap × Bool :=
  match m.bits.locate addr with
  | none => (m,false)
  | some (w,_) =>
    let m := m.widenClearWindow w
    let m := if m.anyMarked then m else { m with anyMarked := true }
    let (bits,claimed) := m.bits.claim addr
    ({ m with bits },claimed)

def isMarked (addr : Nat) : Bool :=
  match m.bits.locate addr with
  | some (w,mask) => m.bits.wordAt w &&& mask ≠ 0
  | none => false

def clear : MarkBitmap :=
  if m.anyMarked then
    let lo := m.markLoWord
    let hi := m.markHiWord
    let bits := if lo = 0 ∧ m.bits.nwords ≤ hi then m.bits.clearAll
      else if lo < hi then m.bits.clearWithin [(m.bits.wordBase lo,m.bits.wordBase hi)]
      else m.bits.clearAll
    ⟨bits,false,usizeMax,0⟩
  else m

def clearExclusive : MarkBitmap :=
  if m.anyMarked then
    let lo := m.markLoWord
    let hi := m.markHiWord
    let bits := if lo < hi ∧ ¬ (lo = 0 ∧ m.bits.nwords ≤ hi) then
        m.bits.clearWithinExclusive [(m.bits.wordBase lo,m.bits.wordBase hi)]
      else m.bits.clearAllExclusive
    ⟨bits,false,usizeMax,0⟩
  else m

end

inductive Op where
  | tryMark (addr : Nat)
  | clear
  | clearExclusive
  deriving DecidableEq, Repr

def Op.apply (m : MarkBitmap) : Op → MarkBitmap
  | .tryMark addr => (m.tryMark addr).1
  | .clear => m.clear
  | .clearExclusive => m.clearExclusive

def run (m : MarkBitmap) (ops : List Op) : MarkBitmap := ops.foldl Op.apply m

/-- The addresses passed to `try_mark` since the last clear, the last one first. -/
def sinceClear (ops : List Op) : List Nat :=
  ops.foldl (fun marks op => match op with
    | .tryMark addr => addr::marks
    | .clear => []
    | .clearExclusive => []) []

/-- The addresses of the region that have a mark bit. -/
def InRegion (base regionSize addr : Nat) : Prop := base ≤ addr ∧ addr < base+regionSize ∧ (addr-base)%8 = 0

/-- Every bit ever set since the last clear is inside the window, and nothing is recorded off the grid. -/
structure Tracked (base regionSize : Nat) (m : MarkBitmap) : Prop where
  shape : SameShape (labelled base regionSize) m.bits
  sound : Sound m.bits
  no_spill : m.bits.overflow = []
  window : ∀ i, get m.bits.words i = true → m.markLoWord ≤ i/64 ∧ i/64 < m.markHiWord
  hi_le : m.markHiWord ≤ m.bits.nwords
  armed : ∀ i, get m.bits.words i = true → m.anyMarked = true

section
variable {base regionSize : Nat} {m : MarkBitmap}

section
variable (h : Tracked base regionSize m)
include h

theorem Tracked.base_eq : m.bits.base = base := h.shape.base

theorem onGrid_iff (a : Nat) :
    m.bits.OnGrid a ↔ InRegion base regionSize a := by
  have hspan : (labelled base regionSize).span = regionSize := by
    simp only [labelled]
    split
    · next hz =>
      rw [divCeil,divCeil] at hz
      omega
    · rfl
  rw [h.shape.onGrid,OnGrid,InRegion,hspan]
  constructor
  · have hbase : (labelled base regionSize).base = base := rfl
    omega
  rintro ⟨h1,h2,h3⟩
  exact ⟨(a-base)/8,by rw [show (labelled base regionSize).base = base from rfl]; omega,by omega⟩

theorem isMarked_eq (a : Nat) : m.isMarked a = m.bits.contains a := by
  by_cases ha : m.bits.OnGrid a
  · obtain ⟨i,rfl,hi⟩ := ha
    have hw : ¬ m.bits.nwords ≤ i/64 := not_le.mpr (h.sound.words_length ▸ slot_lt h.sound hi)
    rw [isMarked,contains,locate_slot hi]
    dsimp only
    rw [wordAt,if_neg hw]
  rw [isMarked,contains,locate_off_grid ha,h.no_spill]
  simp

end

theorem tracked_new (base regionSize : Nat) : Tracked base regionSize (new base regionSize) := by
  have hzero : ∀ i, get (new base regionSize).bits.words i = false := fun i => get_empty i _
  refine ⟨.refl _,sound_labelled base regionSize,rfl,fun i hi => ?_,Nat.zero_le _,fun i hi => ?_⟩
  · simp [hzero] at hi
  · simp [hzero] at hi

theorem tracked_cleared (h : Tracked base regionSize m) {bits : HeapBitmap}
    (hclear : Effect m.bits bits fun _ => False) : Tracked base regionSize ⟨bits,false,usizeMax,0⟩ := by
  have hzero : ∀ i, get bits.words i = true → False := by
    intro i hi
    rw [← contains_slot (hclear.sound.in_span i hi),hclear.records] at hi
    exact hi
  refine ⟨h.shape.trans hclear.shape,hclear.sound,?_,fun i hi => (hzero i hi).elim,Nat.zero_le _,
    fun i hi => (hzero i hi).elim⟩
  refine eq_nil_iff_forall_not_mem.mpr fun a ha => ?_
  exact (hclear.records a).mp ((contains_iff hclear.sound a).mpr (.inr ha))

theorem widenClearWindow_lo (w : Nat) : (m.widenClearWindow w).markLoWord = min m.markLoWord w := by
  simp only [widenClearWindow]
  split <;> omega

theorem widenClearWindow_hi (w : Nat) : (m.widenClearWindow w).markHiWord = max m.markHiWord (w+1) := by
  simp only [widenClearWindow]
  split <;> omega

theorem tryMark_slot {i : Nat} (hi : 8*i < m.bits.span) :
    m.tryMark (m.bits.base+8*i) =
      (⟨(m.bits.claim (m.bits.base+8*i)).1,true,min m.markLoWord (i/64),max m.markHiWord (i/64+1)⟩,
        (m.bits.claim (m.bits.base+8*i)).2) := by
  rw [tryMark,locate_slot hi]
  simp only [← widenClearWindow_lo,← widenClearWindow_hi]
  have hwindow : (m.widenClearWindow (i/64)).anyMarked = m.anyMarked := rfl
  cases hany : m.anyMarked <;> simp [hany,widenClearWindow]

theorem tracked_tryMark (h : Tracked base regionSize m) (a : Nat) :
    Tracked base regionSize (m.tryMark a).1 := by
  by_cases ha : m.bits.OnGrid a
  · obtain ⟨i,rfl,hi⟩ := ha
    obtain ⟨heff,-⟩ := effect_claim h.sound (m.bits.base+8*i)
    have hslot : i/64 < m.bits.nwords := h.sound.words_length ▸ slot_lt h.sound hi
    have hbits : ∀ j, get (m.bits.claim (m.bits.base+8*i)).1.words j = true →
        j = i ∨ get m.bits.words j = true := by
      intro j hj
      have hspan := heff.sound.in_span j hj
      rw [← contains_slot hspan,heff.shape.base,heff.records] at hj
      rcases hj with hj|hj
      · exact .inl (by omega)
      · exact .inr (by rwa [contains_slot (heff.shape.span ▸ hspan)] at hj)
    rw [tryMark_slot hi]
    refine ⟨h.shape.trans heff.shape,heff.sound,?_,fun j hj => ?_,?_,fun _ _ => rfl⟩
    · refine eq_nil_iff_forall_not_mem.mpr fun a ha => ?_
      have hgrid : ¬ m.bits.OnGrid a := fun hg => heff.sound.off_grid a ha ((heff.shape.onGrid a).mpr hg)
      rcases (heff.records a).mp ((contains_iff heff.sound a).mpr (.inr ha)) with rfl|hmem
      · exact hgrid ⟨i,rfl,hi⟩
      rw [contains_off_grid h.sound hgrid,h.no_spill] at hmem
      cases hmem
    · show min m.markLoWord (i/64) ≤ j/64 ∧ j/64 < max m.markHiWord (i/64+1)
      rcases hbits j hj with rfl|hj
      · omega
      have := h.window j hj
      omega
    have hle := h.hi_le
    have hnw := heff.shape.nwords
    show max m.markHiWord (i/64+1) ≤ (m.bits.claim (m.bits.base+8*i)).1.nwords
    omega
  · rw [tryMark,locate_off_grid ha]
    exact h

theorem clearWindow_effect (hfits : base+regionSize+511 ≤ usizeMax) (h : Tracked base regionSize m) :
    Effect m.bits (m.bits.clearWithinExclusive [(m.bits.wordBase m.markLoWord,m.bits.wordBase m.markHiWord)])
      fun _ => False := by
  refine (effect_clear_loop h.sound masks_zero _).congr fun a => ⟨?_,False.elim⟩
  rintro ⟨hmem,⟨i,rfl,hi⟩,hout⟩
  rw [contains_slot hi] at hmem
  obtain ⟨hlo,hhi⟩ := h.window i hmem
  have hslot : m.bits.slotOf (m.bits.base+8*i) = i := by
    rw [slotOf]
    omega
  have hnw : m.bits.nwords = divCeil (divCeil regionSize 8) 64 := h.shape.nwords
  have hle : m.markHiWord*512 ≤ regionSize+511 := by
    have hle := h.hi_le
    rw [hnw,divCeil,divCeil] at hle
    omega
  have hhi : m.bits.wordBase m.markHiWord ≤ usizeMax := by
    rw [wordBase,Nat.shiftLeft_eq,h.base_eq]
    omega
  have hlo : m.bits.wordBase m.markLoWord ≤ m.bits.base+8*i := by
    rw [wordBase,Nat.shiftLeft_eq]
    omega
  have hcovers := wordRange_covers h.sound hhi hmem hlo (by rw [wordBase,Nat.shiftLeft_eq]; omega)
  rw [hslot,covers] at hout
  simp [hcovers.1,hcovers.2] at hout

theorem clear_eq (h : Tracked base regionSize m) : m.clear = m.clearExclusive := by
  rw [clear,clearExclusive]
  dsimp only
  rw [clearAll_eq h.sound,clearWithin_eq h.sound]
  split
  · by_cases hwhole : m.markLoWord = 0 ∧ m.bits.nwords ≤ m.markHiWord
    · rw [if_pos hwhole,if_neg (fun hn => hn.2 hwhole)]
    rw [if_neg hwhole]
    by_cases hlt : m.markLoWord < m.markHiWord
    · rw [if_pos hlt,if_pos ⟨hlt,hwhole⟩]
    · rw [if_neg hlt,if_neg (fun hn => hlt hn.1)]
  · rfl

theorem clearExclusive_effect (hfits : base+regionSize+511 ≤ usizeMax) (h : Tracked base regionSize m) :
    Tracked base regionSize m.clearExclusive ∧ ∀ i, get m.clearExclusive.bits.words i = false := by
  have hcleared : Effect m.bits m.clearExclusive.bits fun _ => False := by
    rw [clearExclusive]
    split
    · dsimp only
      split
      · exact clearWindow_effect hfits h
      · exact effect_clearAllExclusive h.sound
    next hany =>
    refine (Effect.refl h.sound).congr fun a => ⟨fun hmem => ?_,False.elim⟩
    rcases (contains_iff h.sound a).mp hmem with ⟨i,-,hi⟩|hspill
    · exact hany (h.armed i hi)
    rw [h.no_spill] at hspill
    cases hspill
  refine ⟨?_,fun i => eq_false_iff.mpr fun hi => ?_⟩
  · cases hany : m.anyMarked with
    | false =>
      rw [clearExclusive,hany]
      exact h
    | true => ?_
    have hform : m.clearExclusive = ⟨m.clearExclusive.bits,false,usizeMax,0⟩ := by
      rw [clearExclusive,hany]
      rfl
    rw [hform]
    exact tracked_cleared h hcleared
  rw [← contains_slot (hcleared.sound.in_span i hi),hcleared.records] at hi
  exact hi

end

section
variable {base regionSize : Nat}

/-- What a run has recorded: the marks since the last clear that the region holds. -/
structure History (base regionSize : Nat) (m : MarkBitmap) (marks : List Nat) : Prop where
  tracked : Tracked base regionSize m
  marked : ∀ a, m.isMarked a = true ↔ InRegion base regionSize a ∧ a ∈ marks

theorem history_tryMark {m : MarkBitmap} {marks : List Nat} (h : History base regionSize m marks) (a : Nat) :
    History base regionSize (m.tryMark a).1 (a::marks) ∧
      ((m.tryMark a).2 = true ↔ InRegion base regionSize a ∧ a ∉ marks) := by
  have htracked := tracked_tryMark h.tracked a
  by_cases ha : m.bits.OnGrid a
  · have hin := (onGrid_iff h.tracked a).mp ha
    obtain ⟨heff,hnew⟩ := effect_claim h.tracked.sound a
    have hclaim : (m.tryMark a).1.bits = (m.bits.claim a).1 ∧ (m.tryMark a).2 = (m.bits.claim a).2 := by
      obtain ⟨i,rfl,hi⟩ := ha
      rw [tryMark_slot hi]
      exact ⟨rfl,rfl⟩
    refine ⟨⟨htracked,fun x => ?_⟩,?_⟩
    · rw [isMarked_eq htracked,hclaim.1,heff.records,← isMarked_eq h.tracked,h.marked,mem_cons]
      constructor
      · rintro (rfl|⟨hx,hmem⟩)
        · exact ⟨hin,.inl rfl⟩
        · exact ⟨hx,.inr hmem⟩
      rintro ⟨hx,rfl|hmem⟩
      · exact .inl rfl
      · exact .inr ⟨hx,hmem⟩
    rw [hclaim.2,hnew,← isMarked_eq h.tracked,not_eq_true',← not_eq_true,h.marked]
    exact ⟨fun hn => ⟨hin,fun hmem => hn ⟨hin,hmem⟩⟩,fun hn hmem => hn.2 hmem.2⟩
  have hout : ¬ InRegion base regionSize a := fun hin => ha ((onGrid_iff h.tracked a).mpr hin)
  have hsame : m.tryMark a = (m,false) := by rw [tryMark,locate_off_grid ha]
  rw [hsame]
  refine ⟨⟨h.tracked,fun x => ?_⟩,by simp [hout]⟩
  rw [h.marked,mem_cons]
  refine ⟨fun hx => ⟨hx.1,.inr hx.2⟩,?_⟩
  rintro ⟨hx,rfl|hmem⟩
  · exact absurd hx hout
  · exact ⟨hx,hmem⟩

theorem history_clear (hfits : base+regionSize+511 ≤ usizeMax) {m : MarkBitmap} {marks : List Nat}
    (h : History base regionSize m marks) :
    m.clear = m.clearExclusive ∧ History base regionSize m.clearExclusive [] := by
  obtain ⟨htracked,hzero⟩ := clearExclusive_effect hfits h.tracked
  refine ⟨clear_eq h.tracked,htracked,fun a => ⟨fun hmem => ?_,fun hn => absurd hn.2 not_mem_nil⟩⟩
  rw [isMarked_eq htracked,contains_iff htracked.sound,htracked.no_spill] at hmem
  rcases hmem with ⟨i,-,hi⟩|hmem
  · rw [hzero] at hi
    cases hi
  · exact absurd hmem not_mem_nil

theorem history_run (hfits : base+regionSize+511 ≤ usizeMax) (ops : List Op) :
    History base regionSize (run (new base regionSize) ops) (sinceClear ops) := by
  induction ops using reverseRecOn with
  | nil =>
    refine ⟨tracked_new base regionSize,fun a => ⟨fun hmem => ?_,fun hn => absurd hn.2 not_mem_nil⟩⟩
    have hnew : (new base regionSize).isMarked a = false :=
      (isMarked_eq (tracked_new base regionSize) a).trans (contains_labelled base regionSize a)
    exact absurd (hmem.symm.trans hnew) (by decide)
  | append_singleton ops op ih => ?_
  rw [run,sinceClear,foldl_append,foldl_append]
  change History base regionSize (Op.apply (run (new base regionSize) ops) op) _
  cases op with
  | tryMark a => exact (history_tryMark ih a).1
  | clear =>
    obtain ⟨heq,hcleared⟩ := history_clear hfits ih
    rw [Op.apply,heq]
    exact hcleared
  | clearExclusive => exact (history_clear hfits ih).2

end

/-- In every run: what is marked, what `try_mark` answers, and that a clear leaves no bit. The region and
the tail of its last word lie in the address space. -/
theorem mark_histories (base regionSize : Nat) (hfits : base+regionSize+511 ≤ usizeMax) (ops : List Op) :
    let m := run (new base regionSize) ops
    (∀ a, m.isMarked a = true ↔ InRegion base regionSize a ∧ a ∈ sinceClear ops) ∧
    (∀ a, (m.tryMark a).2 = true ↔ InRegion base regionSize a ∧ a ∉ sinceClear ops) ∧
    (∀ a, ¬ InRegion base regionSize a → m.bits.contains a = false) ∧
    (∀ i, get m.clear.bits.words i = false ∧ get m.clearExclusive.bits.words i = false) ∧
    ∀ a, m.clear.isMarked a = false ∧ m.clearExclusive.isMarked a = false := by
  have h := history_run hfits ops
  obtain ⟨hsame,hcleared⟩ := history_clear hfits h
  have hnone : ∀ a, (run (new base regionSize) ops).clearExclusive.isMarked a = false := by
    intro a
    rw [eq_false_iff]
    exact fun hmem => absurd ((hcleared.marked a).mp hmem).2 not_mem_nil
  refine ⟨h.marked,fun a => (history_tryMark h a).2,fun a ha => ?_,fun i => ?_,fun a => ?_⟩
  · rw [← isMarked_eq h.tracked,eq_false_iff]
    exact fun hmem => ha ((h.marked a).mp hmem).1
  · rw [hsame]
    exact ⟨(clearExclusive_effect hfits h.tracked).2 i,(clearExclusive_effect hfits h.tracked).2 i⟩
  rw [hsame]
  exact ⟨hnone a,hnone a⟩

theorem mark_histories_page :
    4096+4096+511 ≤ usizeMax ∧
      ((run (new 4096 4096) [.tryMark 4104,.clear,.tryMark 4112]).isMarked 4112 = true ↔
        InRegion 4096 4096 4112 ∧ 4112 ∈ sinceClear [.tryMark 4104,.clear,.tryMark 4112]) :=
  ⟨by decide,(mark_histories 4096 4096 (by decide) [.tryMark 4104,.clear,.tryMark 4112]).1 4112⟩

end MarkBitmap
end CratonVM.Gc
