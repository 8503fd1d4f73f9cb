import CratonVM.Gc.HeapBitmap.Basic

/-!
The invariant of the heap bitmap: no bit past the span, every set bit inside a noted block, and
only addresses off the grid in the side set. Every operation keeps it; each has one lemma about the
slots it leaves set.
-/
namespace CratonVM.Gc.HeapBitmap
open BitRows Bool

/-- The addresses that have a slot. -/
def OnGrid (bm : HeapBitmap) (a : Nat) : Prop := ∃ i, a = bm.base+8*i ∧ 8*i < bm.span

structure Sound (bm : HeapBitmap) : Prop where
  nwords_eq : bm.nwords = divCeil (divCeil bm.span 8) 64
  words_length : bm.words.length = bm.nwords
  blocks_length : bm.blocks.length = divCeil (divCeil bm.nwords blockWords) 64
  in_span : ∀ i, get bm.words i = true → 8*i < bm.span
  summarised : ∀ i, get bm.words i = true → get bm.blocks (i/64/64) = true
  off_grid : ∀ a ∈ bm.overflow, ¬ bm.OnGrid a
  nodup : bm.overflow.Nodup
  overflow_len : bm.overflowLen = bm.overflow.length

/-- The two cover the same span. -/
structure SameShape (bm bm' : HeapBitmap) : Prop where
  base : bm'.base = bm.base
  span : bm'.span = bm.span
  nwords : bm'.nwords = bm.nwords

namespace SameShape
variable {bm bm' bm'' : HeapBitmap}

theorem refl (bm : HeapBitmap) : SameShape bm bm := ⟨rfl,rfl,rfl⟩

theorem trans (h : SameShape bm bm') (h' : SameShape bm' bm'') : SameShape bm bm'' :=
  ⟨h'.base.trans h.base,h'.span.trans h.span,h'.nwords.trans h.nwords⟩

theorem onGrid (h : SameShape bm bm') (a : Nat) : bm'.OnGrid a ↔ bm.OnGrid a := by
  rw [OnGrid,OnGrid,h.base,h.span]

theorem wordRange (h : SameShape bm bm') (lo hi : Nat) : bm'.wordRange lo hi = bm.wordRange lo hi := by
  rw [HeapBitmap.wordRange,HeapBitmap.wordRange,h.base,h.span,h.nwords]

end SameShape

section
variable {bm : HeapBitmap}

theorem locate_slot {i : Nat} (hi : 8*i < bm.span) :
    bm.locate (bm.base+8*i) = some (i/64,1#64 <<< (i%64)) := by
  have hoff : bm.base+8*i-bm.base = 8*i := by omega
  have hcond : ¬ (bm.span ≤ 8*i ∨ 8*i%8 ≠ 0) := by omega
  have hbit : (8*i) >>> 3 = i := by
    omega
  rw [locate,if_neg (by omega),hoff]
  simp only [if_neg hcond,hbit,Nat.shiftRight_eq_div_pow]

theorem locate_off_grid {a : Nat} (h : ¬ bm.OnGrid a) : bm.locate a = none := by
  rw [locate]
  split
  · rfl
  next hbase =>
  by_cases hcond : bm.span ≤ a-bm.base ∨ (a-bm.base)%8 ≠ 0
  · simp only [if_pos hcond]
  · exact absurd ⟨(a-bm.base)/8,by omega,by omega⟩ h

theorem slot_lt (hs : Sound bm) {i : Nat} (hi : 8*i < bm.span) : i/64 < bm.words.length := by
  rw [hs.words_length,hs.nwords_eq,divCeil,divCeil]
  omega

theorem block_lt (hs : Sound bm) {w : Nat} (hw : w < bm.nwords) : w/64/64 < bm.blocks.length := by
  rw [hs.blocks_length,divCeil,divCeil,blockWords]
  omega

theorem contains_slot {i : Nat} (hi : 8*i < bm.span) : bm.contains (bm.base+8*i) = get bm.words i := by
  have hbit := and_bit_eq_zero (word bm.words (i/64)) (Nat.mod_lt i (by decide : 0 < 64))
  rw [contains,locate_slot hi,get_eq_word]
  cases h : (word bm.words (i/64)).getLsbD (i%64) with
  | false => simpa using hbit.mpr h
  | true =>
    have hne : ¬ word bm.words (i/64) &&& (1#64 <<< (i%64)) = 0#64 := fun hz => by simp [hbit.mp hz] at h
    simpa using hne

theorem contains_off_grid (hs : Sound bm) {a : Nat} (ha : ¬ bm.OnGrid a) :
    bm.contains a = true ↔ a ∈ bm.overflow := by
  rw [contains,locate_off_grid ha]
  constructor
  · intro h
    simp only [and_eq_true,decide_eq_true_eq] at h
    exact h.2
  intro h
  have hlen : bm.overflowLen ≠ 0 := by
    rw [hs.overflow_len]
    exact (List.length_pos_of_mem h).ne'
  simp [hlen,h]

theorem contains_on_grid {a : Nat} (ha : bm.OnGrid a) :
    bm.contains a = true ↔ ∃ i, a = bm.base+8*i ∧ get bm.words i = true := by
  obtain ⟨i,rfl,hi⟩ := ha
  rw [contains_slot hi]
  refine ⟨fun h => ⟨i,rfl,h⟩,fun ⟨j,hj,h⟩ => ?_⟩
  obtain rfl : i = j := by omega
  exact h

theorem contains_iff (hs : Sound bm) (a : Nat) :
    bm.contains a = true ↔ (∃ i, a = bm.base+8*i ∧ get bm.words i = true) ∨ a ∈ bm.overflow := by
  by_cases ha : bm.OnGrid a
  · rw [contains_on_grid ha]
    exact ⟨.inl,fun h => h.elim id fun hmem => absurd ha (hs.off_grid a hmem)⟩
  rw [contains_off_grid hs ha]
  exact ⟨.inr,fun h => h.elim (fun ⟨i,hi,hget⟩ => absurd ⟨i,hi,hs.in_span i hget⟩ ha) id⟩

end

section
variable {bm : HeapBitmap}

theorem Sound.with_words (hs : Sound bm) {ws : Row} (hlen : ws.length = bm.words.length)
    (hbits : ∀ i, get ws i = true →
      get bm.words i = true ∨ (8*i < bm.span ∧ get bm.blocks (i/64/64) = true)) :
    Sound { bm with words := ws } where
  nwords_eq := hs.nwords_eq
  words_length := hlen.trans hs.words_length
  blocks_length := hs.blocks_length
  in_span i h := (hbits i h).elim (hs.in_span i) And.left
  summarised i h := (hbits i h).elim (hs.summarised i) And.right
  off_grid := hs.off_grid
  nodup := hs.nodup
  overflow_len := hs.overflow_len

theorem Sound.with_blocks (hs : Sound bm) {bs : Row} (hlen : bs.length = bm.blocks.length)
    (hbits : ∀ i, get bm.words i = true → get bs (i/64/64) = true) : Sound { bm with blocks := bs } where
  nwords_eq := hs.nwords_eq
  words_length := hs.words_length
  blocks_length := hlen.trans hs.blocks_length
  in_span := hs.in_span
  summarised := hbits
  off_grid := hs.off_grid
  nodup := hs.nodup
  overflow_len := hs.overflow_len

theorem Sound.with_overflow (hs : Sound bm) {l : List Nat} (hgrid : ∀ a ∈ l, ¬ bm.OnGrid a) (hnd : l.Nodup) :
    Sound { bm with overflow := l,overflowLen := l.length } where
  nwords_eq := hs.nwords_eq
  words_length := hs.words_length
  blocks_length := hs.blocks_length
  in_span := hs.in_span
  summarised := hs.summarised
  off_grid := hgrid
  nodup := hnd
  overflow_len := rfl

theorem sound_labelled (base span : Nat) : Sound (labelled base span) := by
  have hzero : ∀ i, get (labelled base span).words i = false := fun i => get_empty i _
  refine ⟨?_,by simp [labelled],by simp [labelled],fun i h => ?_,fun i h => ?_,by simp [labelled],by simp [labelled],
    by simp [labelled]⟩
  · simp only [labelled]
    split
    · next h => rw [h,show divCeil (divCeil 0 8) 64 = 0 from rfl]
    · rfl
  · simp [hzero] at h
  · simp [hzero] at h

theorem contains_labelled (base span a : Nat) : (labelled base span).contains a = false := by
  rw [← not_eq_true,contains_iff (sound_labelled base span)]
  rintro (⟨i,-,h⟩|h)
  · rw [show (labelled base span).words = empty _ from rfl,get_empty] at h
    cases h
  · simp [labelled] at h

end

section
variable (bm : HeapBitmap)

theorem get_modify_or (row : Row) (k j : Nat) :
    get (row.modify (k/64) (· ||| (1#64 <<< (k%64)))) j =
      (get row j || (decide (k = j) && decide (k/64 < row.length))) := get_set row k j

theorem noteWord_eq (w : Nat) :
    bm.noteWord w = { bm with blocks := (bm.noteWord w).blocks } := by
  rw [noteWord]
  split <;> rfl

theorem length_noteWord_blocks (w : Nat) : (bm.noteWord w).blocks.length = bm.blocks.length := by
  rw [noteWord]
  split <;> simp

theorem get_noteWord (w k : Nat) : get (bm.noteWord w).blocks k =
    (get bm.blocks k || (decide (w/64 = k) && decide (w/64/64 < bm.blocks.length))) := by
  have hslot : (w/blockWords) >>> 6 = w/64/64 := Nat.shiftRight_eq_div_pow _ _
  rw [noteWord]
  simp only [hslot]
  split
  · exact get_modify_or bm.blocks (w/64) k
  next h =>
  -- the block is already noted
  rw [show (0 : BitVec 64) = 0#64 from rfl,and_bit_eq_zero _ (Nat.mod_lt _ (by decide : 0 < 64)),not_eq_false] at h
  by_cases hk : w/64 = k
  · subst hk
    have : get bm.blocks (w/64) = true := by rw [get_eq_word]; exact h
    simp [this]
  · simp [hk]

variable {bm}

theorem sameShape_noteWord (w : Nat) : SameShape bm (bm.noteWord w) := by
  rw [noteWord_eq]
  exact ⟨rfl,rfl,rfl⟩

@[simp] theorem noteWord_words (w : Nat) : (bm.noteWord w).words = bm.words := by rw [noteWord_eq]

@[simp] theorem noteWord_overflow (w : Nat) : (bm.noteWord w).overflow = bm.overflow := by rw [noteWord_eq]

theorem Sound.noteWord (hs : Sound bm) (w : Nat) : Sound (bm.noteWord w) := by
  rw [noteWord_eq]
  refine hs.with_blocks (length_noteWord_blocks bm w) fun i hi => ?_
  rw [get_noteWord,hs.summarised i hi,Bool.true_or]

theorem noteWord_noted (hs : Sound bm) {w : Nat} (hw : w < bm.nwords) : get (bm.noteWord w).blocks (w/64) = true := by
  rw [get_noteWord]
  simp [block_lt hs hw]

end

/-- An operation keeps the span and the invariant, and records `P` afterwards. -/
structure Effect (bm bm' : HeapBitmap) (P : Nat → Prop) : Prop where
  shape : SameShape bm bm'
  sound : Sound bm'
  records : ∀ a, bm'.contains a = true ↔ P a

section
variable {bm bm' : HeapBitmap} {P Q : Nat → Prop}

theorem Effect.of (hshape : SameShape bm bm') (hsound : Sound bm')
    (hgrid : ∀ i, 8*i < bm.span → (get bm'.words i = true ↔ P (bm.base+8*i)))
    (hoff : ∀ a, ¬ bm.OnGrid a → (a ∈ bm'.overflow ↔ P a)) : Effect bm bm' P := by
  refine ⟨hshape,hsound,fun a => ?_⟩
  by_cases ha : bm.OnGrid a
  · obtain ⟨i,rfl,hi⟩ := ha
    rw [← hgrid i hi,← hshape.base,contains_slot (hshape.span ▸ hi)]
  · rw [contains_off_grid hsound (fun h => ha ((hshape.onGrid a).mp h)),hoff a ha]

theorem Effect.congr (h : Effect bm bm' P) (hPQ : ∀ a, P a ↔ Q a) : Effect bm bm' Q :=
  ⟨h.shape,h.sound,fun a => (h.records a).trans (hPQ a)⟩

theorem Effect.refl (hs : Sound bm) : Effect bm bm fun x => bm.contains x = true :=
  ⟨.refl bm,hs,fun _ => Iff.rfl⟩

section
variable (hs : Sound bm)
include hs

theorem effect_set {i : Nat} (hi : 8*i < bm.span) :
    Effect bm ((bm.noteWord (i/64)).orWord (i/64) (1#64 <<< (i%64)))
      fun x => x = bm.base+8*i ∨ bm.contains x = true := by
  have hw : i/64 < bm.nwords := hs.words_length ▸ slot_lt hs hi
  have hshape : SameShape bm (bm.noteWord (i/64)) := sameShape_noteWord (i/64)
  have hget : ∀ j, get ((bm.noteWord (i/64)).orWord (i/64) (1#64 <<< (i%64))).words j =
      (get bm.words j || decide (i = j)) := by
    intro j
    rw [orWord,noteWord_words]
    simp only [get_modify_or,slot_lt hs hi,decide_true,Bool.and_true]
  refine Effect.of ⟨hshape.base,hshape.span,hshape.nwords⟩ ?_ (fun j hj => ?_) (fun a ha => ?_)
  · refine (hs.noteWord (i/64)).with_words (by simp) fun j hj => ?_
    have hj' := hget j
    rw [orWord] at hj'
    rw [hj',or_eq_true,decide_eq_true_eq] at hj
    rcases hj with hj|rfl
    · exact .inl (by rwa [noteWord_words])
    · exact .inr ⟨by rwa [hshape.span],noteWord_noted hs hw⟩
  · rw [hget,contains_slot hj,or_eq_true,decide_eq_true_eq]
    constructor
    · rintro (h|rfl)
      · exact .inr h
      · exact .inl rfl
    rintro (h|h)
    · exact .inr (by omega)
    · exact .inl h
  rw [contains_off_grid hs ha]
  have hne : a ≠ bm.base+8*i := fun h => ha ⟨i,h,hi⟩
  simp [orWord,hne]

theorem effect_spill {a : Nat} (ha : ¬ bm.OnGrid a) :
    Effect bm (bm.spill a) fun x => x = a ∨ bm.contains x = true := by
  rw [spill]
  split
  · next hmem =>
    refine (Effect.refl hs).congr fun x => ⟨.inr,?_⟩
    rintro (rfl|h)
    · exact (contains_off_grid hs ha).mpr hmem
    · exact h
  next hmem =>
  refine Effect.of ⟨rfl,rfl,rfl⟩ ?_ (fun i hi => ?_) (fun x hx => ?_)
  · refine hs.with_overflow (fun x hx => ?_) (List.nodup_cons.mpr ⟨hmem,hs.nodup⟩)
    rcases List.mem_cons.mp hx with rfl|hx
    · exact ha
    · exact hs.off_grid x hx
  · have hne : bm.base+8*i ≠ a := fun h => ha ⟨i,h.symm,hi⟩
    simp [contains_slot hi,hne]
  · rw [List.mem_cons,contains_off_grid hs hx]

theorem effect_insert (a : Nat) :
    Effect bm (bm.insert a) fun x => x = a ∨ bm.contains x = true := by
  by_cases ha : bm.OnGrid a
  · obtain ⟨i,rfl,hi⟩ := ha
    rw [insert,locate_slot hi]
    exact effect_set hs hi
  rw [insert,locate_off_grid ha]
  exact effect_spill hs ha

theorem effect_claim (a : Nat) :
    Effect bm (bm.claim a).1 (fun x => x = a ∨ bm.contains x = true) ∧
      (bm.claim a).2 = !bm.contains a := by
  by_cases ha : bm.OnGrid a
  · obtain ⟨i,rfl,hi⟩ := ha
    have hbit : word bm.words (i/64) &&& (1#64 <<< (i%64)) = 0 ↔ bm.contains (bm.base+8*i) = false := by
      rw [contains_slot hi,get_eq_word]
      exact and_bit_eq_zero _ (Nat.mod_lt _ (by decide))
    rw [claim,locate_slot hi]
    dsimp only
    by_cases hz : word bm.words (i/64) &&& (1#64 <<< (i%64)) = 0
    · rw [if_neg (not_not_intro hz),hbit.mp hz]
      exact ⟨effect_set hs hi,by simpa using hz⟩
    have hmem : bm.contains (bm.base+8*i) = true := not_eq_false _ ▸ fun h => hz (hbit.mpr h)
    rw [if_pos hz,hmem]
    refine ⟨(Effect.refl hs).congr fun x => ⟨.inr,?_⟩,rfl⟩
    rintro (rfl|h)
    · exact hmem
    · exact h
  rw [claim,locate_off_grid ha]
  refine ⟨effect_spill hs ha,?_⟩
  have := contains_off_grid hs ha
  by_cases hmem : a ∈ bm.overflow
  · simp [hmem,this.mpr hmem]
  have hnot : bm.contains a = false := not_eq_true _ ▸ fun h => hmem (this.mp h)
  simp [hmem,hnot]

theorem effect_removeSpilled (a : Nat) (ha : ¬ bm.OnGrid a) :
    Effect bm (bm.removeSpilled a) fun x => x ≠ a ∧ bm.contains x = true := by
  rw [removeSpilled]
  split
  · refine Effect.of ⟨rfl,rfl,rfl⟩ ?_ (fun i hi => ?_) (fun x hx => ?_)
    · exact hs.with_overflow (fun x hx => hs.off_grid x (List.mem_of_mem_erase hx)) (hs.nodup.erase a)
    · have hne : bm.base+8*i ≠ a := fun h => ha ⟨i,h.symm,hi⟩
      simp [contains_slot hi,hne]
    · rw [hs.nodup.mem_erase_iff,contains_off_grid hs hx]
  next h =>
  refine (Effect.refl hs).congr fun x => ⟨fun hx => ⟨?_,hx⟩,And.right⟩
  rintro rfl
  have hmem := (contains_off_grid hs ha).mp hx
  refine h ⟨?_,hmem⟩
  rw [hs.overflow_len]
  exact (List.length_pos_of_mem hmem).ne'

theorem effect_remove (a : Nat) :
    Effect bm (bm.remove a) fun x => x ≠ a ∧ bm.contains x = true := by
  by_cases ha : bm.OnGrid a
  · obtain ⟨i,rfl,hi⟩ := ha
    have hget : ∀ j, get (bm.words.modify (i/64) (· &&& ~~~(1#64 <<< (i%64)))) j =
        (get bm.words j && !decide (i = j)) := get_clear bm.words i
    have hsound : Sound { bm with words := bm.words.modify (i/64) (· &&& ~~~(1#64 <<< (i%64))) } := by
      refine hs.with_words (by simp) fun j hj => .inl ?_
      rw [hget,and_eq_true] at hj
      exact hj.1
    have heff : Effect bm { bm with words := bm.words.modify (i/64) (· &&& ~~~(1#64 <<< (i%64))) }
        fun x => x ≠ bm.base+8*i ∧ bm.contains x = true := by
      refine Effect.of ⟨rfl,rfl,rfl⟩ hsound (fun j hj => ?_) (fun x hx => ?_)
      · rw [hget,contains_slot hj]
        by_cases hij : i = j
        · simp [hij]
        · simp [hij,Ne.symm hij]
      have hne : x ≠ bm.base+8*i := fun h => hx ⟨i,h,hi⟩
      simp [contains_off_grid hs hx,hne]
    rw [remove,locate_slot hi]
    dsimp only
    split
    · exact heff
    -- the side set holds no address of the grid
    rw [removeSpilled,if_neg (fun h => hs.off_grid _ h.2 ⟨i,rfl,hi⟩)]
    exact heff
  · rw [remove,locate_off_grid ha]
    exact effect_removeSpilled hs a ha

end
end
end CratonVM.Gc.HeapBitmap
