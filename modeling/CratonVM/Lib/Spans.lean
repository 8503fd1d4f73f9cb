import Mathlib

/-!
Spans of a linear store: disjointness, what a set of disjoint spans can add up to, and the
merge of touching neighbours in a sorted list.
-/
namespace CratonVM.Spans
open List Finset

structure Span where
  offset : Nat
  size : Nat
  deriving DecidableEq, Repr

namespace Span
/-- The first byte after the span. -/
def stop (s : Span) : Nat := s.offset+s.size

def Apart (a b : Span) : Prop := a.stop ≤ b.offset ∨ b.stop ≤ a.offset

def Touching (a b : Span) : Prop := a.stop = b.offset ∨ b.stop = a.offset

instance (a b : Span) : Decidable (Apart a b) := inferInstanceAs (Decidable (_ ∨ _))

theorem Apart.symm {a b : Span} (h : Apart a b) : Apart b a := Or.symm h

theorem Touching.symm {a b : Span} (h : Touching a b) : Touching b a := Or.symm h

instance : Std.Symm Apart := ⟨fun _ _ h => h.symm⟩

/-- `a` lies inside `b`. -/
def Within (a b : Span) : Prop := b.offset ≤ a.offset ∧ a.stop ≤ b.stop

theorem Apart.of_within {a b c : Span} (h : Apart b c) (hab : Within a b) : Apart a c := by
  obtain ⟨h1,h2⟩ := hab
  rcases h with h | h
  · exact .inl (Nat.le_trans h2 h)
  · exact .inr (Nat.le_trans h h1)

end Span

open Span

theorem not_touching_of_within {a b c : Span} (hab : Within a b) (ha : 0 < a.size)
    (hbc : Apart b c) (hn : ¬ Touching b c) : ¬ Touching a c := by
  unfold Within Apart Touching Span.stop at *
  omega

theorem pairwise_replace {α : Type} {R : α → α → Prop} {x : α} {parts rest : List α}
    (h : (x :: rest).Pairwise R) (hparts : parts.Pairwise R)
    (hx : ∀ p ∈ parts, ∀ c ∈ rest, R x c → R p c) : (parts ++ rest).Pairwise R := by
  obtain ⟨h1,h2⟩ := pairwise_cons.mp h
  refine pairwise_append.mpr ⟨hparts,h2,?_⟩
  intro p hp c hc
  exact hx p hp c hc (h1 c hc)

/-- The bytes that a list of spans adds up to. -/
def total (l : List Span) : Nat := (l.map Span.size).sum

@[simp] theorem total_nil : total [] = 0 := rfl

@[simp] theorem total_cons (s : Span) (l : List Span) : total (s :: l) = s.size+total l := by
  simp [total]

@[simp] theorem total_append (l m : List Span) : total (l ++ m) = total l+total m := by
  simp [total]

theorem total_perm {l m : List Span} (h : l.Perm m) : total l = total m :=
  (h.map Span.size).sum_eq

def covered : List Span → Finset Nat
  | [] => ∅
  | s :: l => Finset.Ico s.offset s.stop ∪ covered l

theorem mem_covered {l : List Span} {x : Nat} :
    x ∈ covered l ↔ ∃ s ∈ l, s.offset ≤ x ∧ x < s.stop := by
  induction l with
  | nil => simp [covered]
  | cons s l ih => simp [covered,ih]

theorem covered_perm {l m : List Span} (h : l.Perm m) : covered l = covered m := by
  ext x
  simp only [mem_covered]
  constructor
  · rintro ⟨s,hs,hx⟩
    exact ⟨s,h.mem_iff.mp hs,hx⟩
  rintro ⟨s,hs,hx⟩
  exact ⟨s,h.mem_iff.mpr hs,hx⟩

theorem card_covered {l : List Span} (h : l.Pairwise Apart) : (covered l).card = total l := by
  induction l with
  | nil => rfl
  | cons s l ih => ?_
  obtain ⟨hs,hl⟩ := pairwise_cons.mp h
  have hdisj : Disjoint (Finset.Ico s.offset s.stop) (covered l) := by
    rw [Finset.disjoint_left]
    intro x hx hy
    obtain ⟨t,ht,h1,h2⟩ := mem_covered.mp hy
    have hx' := mem_Ico.mp hx
    rcases hs t ht with h3 | h3
    · omega
    · omega
  rw [covered,card_union_of_disjoint hdisj,ih hl,Nat.card_Ico,total_cons,Span.stop]
  omega

theorem total_le {l : List Span} {cap : Nat} (h : l.Pairwise Apart)
    (hin : ∀ s ∈ l, s.stop ≤ cap) : total l ≤ cap := by
  rw [← card_covered h]
  have hsub : covered l ⊆ range cap := by
    intro x hx
    obtain ⟨s,hs,_,h2⟩ := mem_covered.mp hx
    have := hin s hs
    rw [Finset.mem_range]; omega
  simpa using card_le_card hsub

/-- Disjoint nonempty spans in a store of `cap` bytes. An empty store may hold empty spans. -/
structure Packed (cap : Nat) (l : List Span) : Prop where
  inside : ∀ s ∈ l, s.stop ≤ cap
  apart : l.Pairwise Apart
  nonempty : (∀ s ∈ l, 0 < s.size) ∨ cap = 0

namespace Packed
variable {cap : Nat} {l m : List Span}

theorem perm (h : Packed cap l) (hp : l.Perm m) : Packed cap m := by
  refine ⟨?_,(hp.pairwise_iff fun h => h.symm).mp h.apart,h.nonempty.imp_left ?_⟩
  · intro s hs
    exact h.inside s (hp.mem_iff.mpr hs)
  intro hpos s hs
  exact hpos s (hp.mem_iff.mpr hs)

theorem replace {x : Span} {parts rest : List Span} (h : Packed cap (x :: rest))
    (hw : ∀ p ∈ parts, Within p x) (ha : parts.Pairwise Apart) (hpos : ∀ p ∈ parts, 0 < p.size) :
    Packed cap (parts ++ rest) := by
  refine ⟨?_,pairwise_replace h.apart ha fun p hp c _ hc => hc.of_within (hw p hp),
    h.nonempty.imp_left ?_⟩
  · intro s hs
    rcases mem_append.mp hs with hs | hs
    · exact Nat.le_trans (hw s hs).2 (h.inside x (by simp))
    · exact h.inside s (mem_cons_of_mem _ hs)
  intro hall s hs
  rcases mem_append.mp hs with hs | hs
  · exact hpos s hs
  · exact hall s (mem_cons_of_mem _ hs)

theorem join {x y : Span} {rest : List Span} (h : Packed cap (x :: y :: rest))
    (hxy : x.stop = y.offset) : Packed cap (⟨x.offset,x.size+y.size⟩ :: rest) := by
  obtain ⟨hx,hyr⟩ := pairwise_cons.mp h.apart
  obtain ⟨hy,hr⟩ := pairwise_cons.mp hyr
  have hin := h.inside y (by simp)
  refine ⟨?_,pairwise_cons.mpr ⟨?_,hr⟩,h.nonempty.imp_left ?_⟩
  · intro s hs
    rcases mem_cons.mp hs with rfl | hs
    · unfold Span.stop at *; simp only at *; omega
    · exact h.inside s (by simp [hs])
  · intro c hc
    have h1 := hx c (by simp [hc])
    have h2 := hy c hc
    have h3 := h.inside c (by simp [hc])
    have h4 : 0 < c.size ∨ cap = 0 := h.nonempty.imp_left fun hpos => hpos c (by simp [hc])
    unfold Apart Span.stop at *
    simp only at *
    omega
  intro hpos s hs
  have h1 := hpos x (by simp)
  rcases mem_cons.mp hs with rfl | hs
  · simp only; omega
  · exact hpos s (by simp [hs])

theorem total_le (h : Packed cap l) : total l ≤ cap := Spans.total_le h.apart h.inside

theorem cover (h : Packed cap l) (hfull : total l = cap) {x : Nat} (hx : x < cap) :
    ∃ s ∈ l, s.offset ≤ x ∧ x < s.stop := by
  have hsub : covered l ⊆ Finset.range cap := by
    intro y hy
    obtain ⟨s,hs,_,h2⟩ := mem_covered.mp hy
    have := h.inside s hs
    rw [Finset.mem_range]; omega
  have hcard : (Finset.range cap).card ≤ (covered l).card := by
    rw [card_range,card_covered h.apart,hfull]
  have heq := eq_of_subset_of_card_le hsub hcard
  have hmem : x ∈ covered l := by rw [heq,Finset.mem_range]; exact hx
  exact mem_covered.mp hmem

theorem next (h : Packed cap l) (hfull : total l = cap) {s : Span} (hs : s ∈ l)
    (hlt : s.stop < cap) : ∃ t ∈ l, t.offset = s.stop := by
  obtain ⟨t,ht,h1,h2⟩ := h.cover hfull hlt
  have hne : s ≠ t := by
    rintro rfl
    omega
  have hapart := h.apart.forall hs ht hne
  refine ⟨t,ht,?_⟩
  unfold Apart Span.stop at *
  omega

end Packed

/-- Each span ends before the next one starts. -/
def Ascending (l : List Span) : Prop := l.Pairwise fun a b => a.stop ≤ b.offset

theorem pairwise_sortByOffset (l : List Span) :
    (l.mergeSort fun a b => a.offset ≤ b.offset).Pairwise fun a b => a.offset ≤ b.offset := by
  have h : (l.mergeSort fun a b => decide (a.offset ≤ b.offset)).Pairwise
      fun a b => decide (a.offset ≤ b.offset) = true := by
    apply pairwise_mergeSort
    · intro a b c hab hbc
      simp only [decide_eq_true_eq] at *
      omega
    intro a b
    simp only [Bool.or_eq_true,decide_eq_true_eq]
    omega
  exact h.imp fun hab => of_decide_eq_true hab

theorem ascending_of_sorted {l : List Span} (hs : l.Pairwise fun a b => a.offset ≤ b.offset)
    (ha : l.Pairwise Apart) (hpos : (∀ s ∈ l, 0 < s.size) ∨ ∀ s ∈ l, s.stop = 0) :
    Ascending l := by
  induction l with
  | nil => exact .nil
  | cons s l ih => ?_
  obtain ⟨hs1,hs2⟩ := pairwise_cons.mp hs
  obtain ⟨ha1,ha2⟩ := pairwise_cons.mp ha
  refine pairwise_cons.mpr ⟨?_,ih hs2 ha2 ?_⟩
  · intro t ht
    have h1 := hs1 t ht
    have h2 := ha1 t ht
    rcases hpos with hp | hp
    · have h3 := hp t (mem_cons_of_mem _ ht)
      unfold Apart Span.stop at h2
      unfold Span.stop
      omega
    have h3 := hp s mem_cons_self
    omega
  exact hpos.imp (fun hp t ht => hp t (mem_cons_of_mem _ ht))
    (fun hp t ht => hp t (mem_cons_of_mem _ ht))

/-- Extend `last` over the spans that touch it, and go on with the first that does not. -/
def mergeFrom (last : Span) : List Span → List Span
  | [] => [last]
  | s :: l =>
    if last.stop = s.offset then mergeFrom ⟨last.offset,last.size+s.size⟩ l
    else last :: mergeFrom s l

/-- One pass over a sorted list that joins every span to the one it touches. -/
def mergeTouching : List Span → List Span
  | [] => []
  | s :: l => mergeFrom s l

theorem total_mergeFrom (last : Span) (l : List Span) :
    total (mergeFrom last l) = total (last :: l) := by
  induction l generalizing last with
  | nil => rfl
  | cons s l ih =>
    simp only [mergeFrom]
    split
    · rw [ih]; simp; omega
    · rw [total_cons,ih]; simp

theorem length_mergeFrom_le (last : Span) (l : List Span) :
    (mergeFrom last l).length ≤ l.length+1 := by
  induction l generalizing last with
  | nil => simp [mergeFrom]
  | cons s l ih => ?_
  simp only [mergeFrom]
  split
  · have := ih ⟨last.offset,last.size+s.size⟩
    simp only [length_cons]; omega
  have := ih s
  simp only [length_cons]; omega

theorem mergeFrom_eq_of_length (last : Span) (l : List Span)
    (h : (mergeFrom last l).length = l.length+1) : mergeFrom last l = last :: l := by
  induction l generalizing last with
  | nil => rfl
  | cons s l ih => ?_
  simp only [mergeFrom] at h ⊢
  split at h
  · have := length_mergeFrom_le ⟨last.offset,last.size+s.size⟩ l
    simp only [length_cons] at h; omega
  rename_i hne
  rw [if_neg hne,ih s (by simpa using h)]

variable {last : Span}

theorem apart_mergeFrom {l : List Span} {x : Span} (hx : 0 < x.size)
    (h : ∀ s ∈ last :: l, Apart s x) : ∀ s ∈ mergeFrom last l, Apart s x := by
  induction l generalizing last with
  | nil => exact h
  | cons s l ih => ?_
  simp only [mergeFrom]
  have h1 := h last (by simp)
  have h2 := h s (by simp)
  split
  · rename_i htouch
    apply ih
    intro t ht
    rcases mem_cons.mp ht with rfl | ht
    · unfold Apart Span.stop at *
      simp only at *
      omega
    · exact h t (by simp [ht])
  intro t ht
  rcases mem_cons.mp ht with rfl | ht
  · exact h1
  · exact ih (fun t ht => h t (mem_cons_of_mem _ ht)) t ht

theorem mem_mergeFrom_bounds {l : List Span} (ha : Ascending (last :: l)) :
    ∀ s ∈ mergeFrom last l, last.offset ≤ s.offset ∧
      ∃ t ∈ last :: l, s.stop = t.stop := by
  induction l generalizing last with
  | nil =>
    intro s hs
    simp only [mergeFrom,List.mem_singleton] at hs
    subst hs
    exact ⟨le_rfl,s,by simp,rfl⟩
  | cons s l ih => ?_
  obtain ⟨h1,h2⟩ := pairwise_cons.mp ha
  obtain ⟨h3,h4⟩ := pairwise_cons.mp h2
  have hs := h1 s (by simp)
  simp only [mergeFrom]
  split
  · rename_i htouch
    have hstop : (⟨last.offset,last.size+s.size⟩ : Span).stop = s.stop := by
      unfold Span.stop at *; simp only at *; omega
    have hasc : Ascending (⟨last.offset,last.size+s.size⟩ :: l) := by
      refine pairwise_cons.mpr ⟨?_,h4⟩
      intro t ht
      rw [hstop]; exact h3 t ht
    intro u hu
    obtain ⟨h5,t,ht,h6⟩ := ih hasc u hu
    refine ⟨h5,?_⟩
    rcases mem_cons.mp ht with rfl | ht
    · exact ⟨s,by simp,by rw [h6,hstop]⟩
    · exact ⟨t,by simp [ht],h6⟩
  intro u hu
  rcases mem_cons.mp hu with rfl | hu
  · exact ⟨le_rfl,u,by simp,rfl⟩
  obtain ⟨h5,t,ht,h6⟩ := ih h2 u hu
  refine ⟨?_,t,mem_cons_of_mem _ ht,h6⟩
  unfold Span.stop at hs
  omega

theorem gaps_mergeFrom {l : List Span} (ha : Ascending (last :: l)) :
    (mergeFrom last l).Pairwise fun a b => a.stop < b.offset := by
  induction l generalizing last with
  | nil => simp [mergeFrom]
  | cons s l ih => ?_
  obtain ⟨h1,h2⟩ := pairwise_cons.mp ha
  obtain ⟨h3,h4⟩ := pairwise_cons.mp h2
  have hs := h1 s (by simp)
  simp only [mergeFrom]
  split
  · apply ih
    refine pairwise_cons.mpr ⟨?_,h4⟩
    intro t ht
    have := h3 t ht
    unfold Span.stop at *; simp only at *; omega
  refine pairwise_cons.mpr ⟨?_,ih h2⟩
  intro t ht
  have := (mem_mergeFrom_bounds h2 t ht).1
  omega

theorem pos_mergeFrom {l : List Span} (h : ∀ s ∈ last :: l, 0 < s.size) :
    ∀ s ∈ mergeFrom last l, 0 < s.size := by
  induction l generalizing last with
  | nil => exact h
  | cons s l ih => ?_
  have h1 := h last (by simp)
  have h2 := h s (by simp)
  simp only [mergeFrom]
  split
  · apply ih
    intro t ht
    rcases mem_cons.mp ht with rfl | ht
    · simp only; omega
    · exact h t (by simp [ht])
  intro t ht
  rcases mem_cons.mp ht with rfl | ht
  · exact h1
  · exact ih (fun t ht => h t (mem_cons_of_mem _ ht)) t ht

theorem total_mergeTouching (l : List Span) : total (mergeTouching l) = total l := by
  cases l with
  | nil => rfl
  | cons s l => exact total_mergeFrom s l

theorem covered_mergeFrom (last : Span) (l : List Span) :
    covered (mergeFrom last l) = covered (last :: l) := by
  induction l generalizing last with
  | nil => rfl
  | cons s l ih => ?_
  simp only [mergeFrom]
  split
  · rename_i htouch
    have hunion : Finset.Ico last.offset last.stop ∪ Finset.Ico s.offset s.stop =
        Finset.Ico last.offset (last.offset+(last.size+s.size)) := by
      rw [← htouch,Finset.Ico_union_Ico_eq_Ico (by unfold Span.stop; omega)
        (by unfold Span.stop at *; omega)]
      congr 1
      unfold Span.stop at *
      omega
    rw [ih,covered,covered,covered,← union_assoc,hunion]
    rfl
  rw [covered,ih]
  rfl

theorem covered_mergeTouching (l : List Span) : covered (mergeTouching l) = covered l := by
  cases l with
  | nil => rfl
  | cons s l => exact covered_mergeFrom s l

/-- The merge of a sorted packed list is packed with any spans it was packed with, and no two
of its spans touch. -/
theorem Packed.mergeTouching {cap : Nat} {l rest : List Span} (h : Packed cap (l ++ rest))
    (hs : l.Pairwise fun a b => a.offset ≤ b.offset) :
    Packed cap (mergeTouching l ++ rest) ∧
      (Spans.mergeTouching l).Pairwise fun a b => a.stop < b.offset := by
  cases l with
  | nil => exact ⟨h,.nil⟩
  | cons x l => ?_
  obtain ⟨h1,h2,h3⟩ := pairwise_append.mp h.apart
  have hpos : (∀ s ∈ x :: l, 0 < s.size) ∨ ∀ s ∈ x :: l, s.stop = 0 := by
    refine h.nonempty.imp (fun hp s hs => hp s (mem_append_left _ hs)) ?_
    intro hcap s hs
    have := h.inside s (mem_append_left _ hs)
    omega
  have hasc := ascending_of_sorted hs h1 hpos
  have hgaps := gaps_mergeFrom hasc
  refine ⟨⟨?_,?_,?_⟩,hgaps⟩
  · intro s hs
    rcases mem_append.mp hs with hs | hs
    · obtain ⟨_,t,ht,heq⟩ := mem_mergeFrom_bounds hasc s hs
      rw [heq]
      exact h.inside t (mem_append_left _ ht)
    · exact h.inside s (mem_append_right _ hs)
  · refine pairwise_append.mpr ⟨?_,h2,?_⟩
    · exact hgaps.imp fun hlt => .inl (Nat.le_of_lt hlt)
    intro a ha b hb
    rcases h.nonempty with hp | hcap
    · exact apart_mergeFrom (hp b (mem_append_right _ hb))
        (fun s hs => h3 s hs b hb) a ha
    have := h.inside b (mem_append_right _ hb)
    exact .inr (by omega)
  refine h.nonempty.imp_left ?_
  intro hp s hs
  rcases mem_append.mp hs with hs | hs
  · exact pos_mergeFrom (fun t ht => hp t (mem_append_left _ ht)) s hs
  · exact hp s (mem_append_right _ hs)

theorem mergeTouching_eq_of_length {l : List Span}
    (h : (mergeTouching l).length = l.length) : mergeTouching l = l := by
  cases l with
  | nil => rfl
  | cons s l => exact mergeFrom_eq_of_length s l h

theorem not_touching_of_gap {a b : Span} (h : a.stop < b.offset) : ¬ Touching a b := by
  unfold Touching Span.stop at *
  omega

end CratonVM.Spans
