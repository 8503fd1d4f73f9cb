import Mathlib

/-!
Parent-pointer forests given by one function, and the equivalence closure of a
relation that grows by one pair at a time.
-/
namespace CratonVM.UnionFind
open Function

/-- `r` is the root that the parent pointers lead to from `i`. -/
def Climbs {α : Type} (p : α → α) (i r : α) : Prop := p r = r ∧ ∃ k, p^[k] i = r

variable {α : Type} {p : α → α} {r : α}

theorem climbs_of_root (h : p r = r) : Climbs p r r :=
  ⟨h,0,rfl⟩

theorem climbs_of_parent {i : α} (h : Climbs p (p i) r) :
    Climbs p i r := by
  obtain ⟨hr,k,hk⟩ := h
  exact ⟨hr,k+1,by exact hk⟩

theorem iterate_root {i : α} {k m : Nat}
    (hr : p r = r) (hk : p^[k] i = r) (hm : k ≤ m) : p^[m] i = r := by
  obtain ⟨d,rfl⟩ := Nat.exists_eq_add_of_le hm
  rw [Nat.add_comm,iterate_add_apply,hk]
  exact iterate_fixed hr d

theorem climbs_unique {i s : α}
    (hr : Climbs p i r) (hs : Climbs p i s) : r = s := by
  obtain ⟨hr,k,hk⟩ := hr
  obtain ⟨hs,m,hm⟩ := hs
  rw [← iterate_root hr hk (Nat.le_max_left k m),← iterate_root hs hm (Nat.le_max_right k m)]

theorem climbs_within {p : Nat → Nat} {n i r : Nat} (hp : ∀ j, j < n → p j < n)
    (hi : i < n) (h : Climbs p i r) : p^[n] i = r := by
  classical
  obtain ⟨hr,k,hk⟩ := h
  have hex : ∃ k, p^[k] i = r := ⟨k,hk⟩
  have hmin := Nat.find_spec hex
  have hlt : ∀ m, p^[m] i < n := by
    intro m
    induction m with
    | zero => exact hi
    | succ m ih => rw [iterate_succ_apply']; exact hp _ ih
  -- A repeated node before the first visit of the root would shorten the path.
  have hinj : Function.Injective
      (fun m : Fin (Nat.find hex+1) => (⟨p^[m.val] i,hlt m.val⟩ : Fin n)) := by
    have key : ∀ a b, a < b → b ≤ Nat.find hex → p^[a] i ≠ p^[b] i := by
      intro a b hab hb heq
      have hshort : p^[Nat.find hex-(b-a)] i = r := by
        have h1 : Nat.find hex-(b-a) = (Nat.find hex-b)+a := by omega
        have h2 : Nat.find hex = (Nat.find hex-b)+b := by omega
        rw [h1,iterate_add_apply,heq,← iterate_add_apply,← h2]
        exact hmin
      exact Nat.find_min hex (by omega : Nat.find hex-(b-a) < Nat.find hex) hshort
    intro a b hab
    have hval : p^[a.val] i = p^[b.val] i := congrArg Fin.val hab
    apply Fin.ext
    rcases Nat.lt_trichotomy a.val b.val with h | h | h
    · exact absurd hval (key _ _ h (Nat.lt_succ_iff.mp b.isLt))
    · exact h
    · exact absurd hval.symm (key _ _ h (Nat.lt_succ_iff.mp a.isLt))
  have hcard := Fintype.card_le_of_injective _ hinj
  simp only [Fintype.card_fin] at hcard
  exact iterate_root hr hmin (by omega)

/-- The pointers after `i` was redirected to its grandparent. -/
def halve {α : Type} [DecidableEq α] (p : α → α) (i : α) : α → α :=
  Function.update p i (p (p i))

theorem halve_iterate [DecidableEq α] (i j : α) {m : Nat}
    (hr : p r = r) (h : p^[m] j = r) : (halve p i)^[m] j = r := by
  induction m generalizing j with
  | zero => exact h
  | succ m ih => ?_
  rw [iterate_succ_apply] at h
  rw [iterate_succ_apply]
  by_cases hj : j = i
  · subst hj
    apply ih
    simp only [halve,update_self]
    rw [← iterate_succ_apply,iterate_succ_apply',h,hr]
  simp only [halve,update_of_ne hj]
  exact ih _ h

theorem climbs_halve [DecidableEq α] {j : α} (i : α)
    (h : Climbs p j r) : Climbs (halve p i) j r := by
  obtain ⟨hr,k,hk⟩ := h
  exact ⟨halve_iterate i r (m := 1) hr hr,k,halve_iterate i j hr hk⟩

theorem climbs_link [DecidableEq α] {a b j : α}
    (ha : p a = a) (hb : p b = b) (hab : a ≠ b) (h : Climbs p j r) :
    Climbs (update p b a) j (if r = b then a else r) := by
  have hroot : update p b a a = a := by rw [update_of_ne hab,ha]
  have hmoved : Climbs (update p b a) b a :=
    climbs_of_parent (by simpa using climbs_of_root hroot)
  obtain ⟨hr,k,hk⟩ := h
  induction k generalizing j with
  | zero => ?_
  | succ k ih =>
    rw [iterate_succ_apply] at hk
    by_cases hj : j = b
    · subst hj
      rw [hb,iterate_fixed hb] at hk
      subst hk
      simpa using hmoved
    · exact climbs_of_parent (by rw [update_of_ne hj]; exact ih hk)
  simp only [iterate_zero,id_eq] at hk
  subst hk
  by_cases hj : j = b
  · subst hj
    simpa using hmoved
  rw [if_neg hj]
  exact climbs_of_root (by rw [update_of_ne hj,hr])

def WithPair {α : Type} (R : α → α → Prop) (a b x y : α) : Prop := R x y ∨ (x = a ∧ y = b)

theorem eqvGen_insert (R : α → α → Prop) (a b x y : α) :
    Relation.EqvGen (WithPair R a b) x y ↔
      Relation.EqvGen R x y ∨ (Relation.EqvGen R x a ∧ Relation.EqvGen R b y) ∨
        (Relation.EqvGen R x b ∧ Relation.EqvGen R a y) := by
  constructor
  · intro h
    induction h with
    | rel x y h =>
      rcases h with h | ⟨rfl,rfl⟩
      · exact .inl (.rel _ _ h)
      · exact .inr (.inl ⟨.refl _,.refl _⟩)
    | refl x => exact .inl (.refl x)
    | symm x y h ih =>
      rcases ih with h | ⟨h1,h2⟩ | ⟨h1,h2⟩
      · exact .inl (.symm _ _ h)
      · exact .inr (.inr ⟨.symm _ _ h2,.symm _ _ h1⟩)
      · exact .inr (.inl ⟨.symm _ _ h2,.symm _ _ h1⟩)
    | trans x y z h1 h2 ih1 ih2 => ?_
    rcases ih1 with p | ⟨p,q⟩ | ⟨p,q⟩ <;> rcases ih2 with p' | ⟨p',q'⟩ | ⟨p',q'⟩
    · exact .inl (.trans _ _ _ p p')
    · exact .inr (.inl ⟨.trans _ _ _ p p',q'⟩)
    · exact .inr (.inr ⟨.trans _ _ _ p p',q'⟩)
    · exact .inr (.inl ⟨p,.trans _ _ _ q p'⟩)
    · exact .inr (.inl ⟨p,q'⟩)
    · exact .inl (.trans _ _ _ p q')
    · exact .inr (.inr ⟨p,.trans _ _ _ q p'⟩)
    · exact .inl (.trans _ _ _ p q')
    · exact .inr (.inr ⟨p,q'⟩)
  · have mono : ∀ {x y}, Relation.EqvGen R x y → Relation.EqvGen (WithPair R a b) x y :=
      fun h => Relation.EqvGen.mono (fun _ _ h => Or.inl h) _ _ h
    have edge : Relation.EqvGen (WithPair R a b) a b := .rel _ _ (.inr ⟨rfl,rfl⟩)
    rintro (h | ⟨h1,h2⟩ | ⟨h1,h2⟩)
    · exact mono h
    · exact .trans _ _ _ (mono h1) (.trans _ _ _ edge (mono h2))
    · exact .trans _ _ _ (mono h1) (.trans _ _ _ (.symm _ _ edge) (mono h2))

theorem eqvGen_respects {R : α → α → Prop} {P : α → Prop}
    (hR : ∀ x y, R x y → (P x ↔ P y)) {x y : α} (h : Relation.EqvGen R x y) : P x ↔ P y := by
  induction h with
  | rel x y h => exact hR x y h
  | refl x => exact Iff.rfl
  | symm x y h ih => exact ih.symm
  | trans x y z h1 h2 ih1 ih2 => exact ih1.trans ih2

end CratonVM.UnionFind
