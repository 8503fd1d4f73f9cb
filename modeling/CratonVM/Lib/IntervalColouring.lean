import Mathlib

/-!
Items with closed intervals of positions, of several kinds, that share words: items in one word are of one
kind and have disjoint intervals.
-/
namespace CratonVM.IntervalColouring
open Finset
variable {α β : Type} [DecidableEq β] {lo hi : α → Nat} {kind : α → β} {past : Finset α}
  {word word' : α → Nat} {z : α} {k : β} {p : Nat}

/-- Two items share a word only if they are of one kind and one ends before the other starts. -/
def Proper (lo hi : α → Nat) (kind : α → β) (past : Finset α) (word : α → Nat) : Prop :=
  ∀ x ∈ past, ∀ y ∈ past, x ≠ y → word x = word y → kind x = kind y ∧ (hi x < lo y ∨ hi y < lo x)

def covering (lo hi : α → Nat) (kind : α → β) (past : Finset α) (k : β) (p : Nat) : Finset α :=
  past.filter fun x => kind x = k ∧ lo x ≤ p ∧ p ≤ hi x

def words (kind : α → β) (past : Finset α) (word : α → Nat) (k : β) : Finset Nat :=
  (past.filter fun x => kind x = k).image word

omit [DecidableEq β] in
theorem Proper.insert [DecidableEq α] (h : Proper lo hi kind past word) (hword : ∀ x ∈ past, word' x = word x)
    (hz : ∀ x ∈ past, word x = word' z → kind x = kind z ∧ hi x < lo z) :
    Proper lo hi kind (insert z past) word' := by
  intro x hx y hy hne heq
  rcases Finset.mem_insert.mp hx with rfl|hx' <;> rcases Finset.mem_insert.mp hy with rfl|hy'
  · exact absurd rfl hne
  · obtain ⟨hk,hlt⟩ := hz y hy' ((hword y hy').symm.trans heq.symm)
    exact ⟨hk.symm,.inr hlt⟩
  · obtain ⟨hk,hlt⟩ := hz x hx' ((hword x hx').symm.trans heq)
    exact ⟨hk,.inl hlt⟩
  rw [hword x hx',hword y hy'] at heq
  exact h x hx' y hy' hne heq

theorem mem_words {w : Nat} : w ∈ words kind past word k ↔ ∃ x ∈ past, kind x = k ∧ word x = w := by
  simp only [words,mem_image,mem_filter,and_assoc]

theorem Proper.covering_le (h : Proper lo hi kind past word) (k : β) (p : Nat) :
    (covering lo hi kind past k p).card ≤ (words kind past word k).card := by
  refine card_le_card_of_injOn word (fun x hx => ?_) fun x hx y hy heq => ?_
  · obtain ⟨hx,hk,-⟩ := mem_filter.mp hx
    exact mem_coe.mpr ((mem_words).mpr ⟨x,hx,hk,rfl⟩)
  obtain ⟨hx,-,hx1,hx2⟩ := mem_filter.mp hx
  obtain ⟨hy,-,hy1,hy2⟩ := mem_filter.mp hy
  by_contra hne
  have := (h x hx y hy hne heq).2
  omega

theorem words_le_covering (h : ∀ w ∈ words kind past word k, ∃ x ∈ covering lo hi kind past k p, word x = w) :
    (words kind past word k).card ≤ (covering lo hi kind past k p).card := by
  refine le_trans (card_le_card fun w hw => ?_) (card_image_le (f := word))
  obtain ⟨x,hx,heq⟩ := h w hw
  exact mem_image.mpr ⟨x,hx,heq⟩

/-- Some position is covered by as many items of a kind as there are words of it. -/
def Frugal (lo hi : α → Nat) (kind : α → β) (past : Finset α) (word : α → Nat) (k : β) : Prop :=
  ∃ p, (words kind past word k).card ≤ (covering lo hi kind past k p).card

theorem Frugal.insert [DecidableEq α] (h : Frugal lo hi kind past word k)
    (hword : ∀ x ∈ past, word' x = word x) (hz : kind z = k → word' z ∈ words kind past word k) :
    Frugal lo hi kind (insert z past) word' k := by
  obtain ⟨p,hp⟩ := h
  refine ⟨p,le_trans (card_le_card fun w hw => ?_) (hp.trans (card_le_card ?_))⟩
  · obtain ⟨x,hx,hk,rfl⟩ := (mem_words).mp hw
    rcases mem_insert.mp hx with rfl|hx
    · exact hz hk
    · exact (mem_words).mpr ⟨x,hx,hk,(hword x hx).symm⟩
  · exact filter_subset_filter _ (subset_insert _ _)

theorem isGreatest_words (h : Proper lo hi kind past word) (hf : Frugal lo hi kind past word k) :
    IsGreatest {n | ∃ p, n = (covering lo hi kind past k p).card} (words kind past word k).card := by
  obtain ⟨p,hp⟩ := hf
  refine ⟨⟨p,le_antisymm hp (h.covering_le k p)⟩,?_⟩
  rintro n ⟨q,rfl⟩
  exact h.covering_le k q

end CratonVM.IntervalColouring
