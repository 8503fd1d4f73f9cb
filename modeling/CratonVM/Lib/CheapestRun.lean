import Mathlib

/-!
Runs of consecutive positions with a gain between neighbours and a cost at each position: which start is the
cheapest for an end, and how far a start has to be looked at once more when the end advances.
-/
namespace CratonVM.CheapestRun
open Finset
variable {gain cost : Nat → Nat} {blocked : Nat → Bool} {target i i' j j' n : Nat}

structure Run (blocked : Nat → Bool) (i j : Nat) : Prop where
  le : i ≤ j
  free : ∀ k, i ≤ k → k ≤ j → blocked k = false

/-- The gains in front of the positions of a run and the one behind it. -/
def gained (gain : Nat → Nat) (i j : Nat) : Nat := ∑ k ∈ Finset.Ico i (j+2), gain k

def spent (cost : Nat → Nat) (i j : Nat) : Nat := ∑ k ∈ Finset.Ico i (j+1), cost k

theorem gained_self (j : Nat) : gained gain j j = gain j+gain (j+1) := by
  simp [gained,sum_Ico_succ_top]

theorem spent_self (j : Nat) : spent cost j j = cost j := by simp [spent]

theorem gained_succ (h : i ≤ j+1) : gained gain i (j+1) = gained gain i j+gain (j+2) :=
  sum_Ico_succ_top (by omega) _

theorem spent_succ (h : i ≤ j+1) : spent cost i (j+1) = spent cost i j+cost (j+1) :=
  sum_Ico_succ_top h _

theorem gained_drop (h : i ≤ j) : gained gain i j = gain i+gained gain (i+1) j :=
  sum_eq_sum_Ico_succ_bot (by omega) _

theorem spent_drop (h : i ≤ j) : spent cost i j = cost i+spent cost (i+1) j :=
  sum_eq_sum_Ico_succ_bot (by omega) _

theorem gained_le (hi : i ≤ i') (hj : j' ≤ j) : gained gain i' j' ≤ gained gain i j :=
  sum_le_sum_of_subset (Finset.Ico_subset_Ico hi (by omega))

theorem spent_le (hi : i ≤ i') : spent cost i' j ≤ spent cost i j :=
  sum_le_sum_of_subset (Finset.Ico_subset_Ico hi le_rfl)

/-- The cheapest run that gains enough among those that end before `n`. -/
structure Cheapest (gain cost : Nat → Nat) (blocked : Nat → Bool) (target n i j : Nat) : Prop where
  run : Run blocked i j
  lt : j < n
  enough : target ≤ gained gain i j
  least : ∀ i' j', j' < n → Run blocked i' j' → target ≤ gained gain i' j' → spent cost i j ≤ spent cost i' j'

/-- No run that ends before `n` gains enough. -/
def Fruitless (gain : Nat → Nat) (blocked : Nat → Bool) (target n : Nat) : Prop :=
  ∀ i j, j < n → Run blocked i j → gained gain i j < target

/-- Runs that end at `n` or later need not start before `i`. -/
structure Front (gain : Nat → Nat) (blocked : Nat → Bool) (target n i : Nat) : Prop where
  le : i ≤ n
  free : ∀ k, i ≤ k → k < n → blocked k = false
  settled : ∀ i' j, i' < i → n ≤ j → Run blocked i' j → target ≤ gained gain i j

/-- The start is moved up from `i` to `i'` for the end `j` as long as the run still gains enough. -/
structure Advanced (gain : Nat → Nat) (target i j i' : Nat) : Prop where
  le : i ≤ i'
  stop : i' ≤ j
  kept : i' = i ∨ target ≤ gained gain i' j
  last : i' = j ∨ gained gain (i'+1) j < target

theorem front_zero : Front gain blocked target 0 0 :=
  ⟨le_rfl,fun _ _ h => absurd h (Nat.not_lt_zero _),fun _ _ h => absurd h (Nat.not_lt_zero _)⟩

theorem front_blocked (h : blocked n = true) : Front gain blocked target (n+1) (n+1) := by
  refine ⟨le_rfl,fun k h1 h2 => absurd h1 (by omega),?_⟩
  intro i' j hi hj hr
  have := hr.free n (by omega) (by omega)
  simp [h] at this

section
variable (h : Front gain blocked target n i)
include h

theorem Front.run (hn : blocked n = false) (hi : i ≤ i') (hle : i' ≤ n) :
    Run blocked i' n := by
  refine ⟨hle,?_⟩
  intro k h1 h2
  rcases Nat.lt_or_eq_of_le h2 with h2 | rfl
  · exact h.free k (by omega) h2
  · exact hn

theorem Front.advance (hn : blocked n = false)
    (ha : Advanced gain target i n i') : Front gain blocked target (n+1) i' := by
  have hle := ha.stop
  refine ⟨by omega,?_,?_⟩
  · intro k h1 h2
    exact (h.run hn ha.le ha.stop).free k h1 (by omega)
  intro i'' j hi hj hr
  rcases ha.kept with rfl | hkept
  · exact h.settled i'' j hi (by omega) hr
  · exact Nat.le_trans hkept (gained_le le_rfl (by omega))

theorem Front.cheapest (ha : Advanced gain target i n i') {i'' : Nat}
    (hr : Run blocked i'' n) (ht : target ≤ gained gain i'' n) :
    target ≤ gained gain i' n ∧ spent cost i' n ≤ spent cost i'' n := by
  have hstart : i'' ≤ i' := by
    by_contra hlt
    have hle := hr.le
    rcases ha.last with rfl | hlast
    · omega
    have : gained gain i'' n ≤ gained gain (i'+1) n := gained_le (by omega) le_rfl
    omega
  refine ⟨?_,spent_le hstart⟩
  rcases ha.kept with rfl | hkept
  · rcases Nat.lt_or_eq_of_le hstart with hlt | rfl
    · exact h.settled i'' n hlt le_rfl hr
    · exact ht
  · exact hkept

end

theorem not_run_blocked (h : blocked n = true) : ¬Run blocked i n := by
  intro hr
  have := hr.free n hr.le le_rfl
  simp [h] at this

section
variable {a b : Nat}

theorem Cheapest.extend (h : Cheapest gain cost blocked target n a b)
    (hn : ∀ i', Run blocked i' n → target ≤ gained gain i' n → spent cost a b ≤ spent cost i' n) :
    Cheapest gain cost blocked target (n+1) a b := by
  refine ⟨h.run,Nat.lt_succ_of_lt h.lt,h.enough,?_⟩
  intro i' j' hj hr ht
  rcases Nat.lt_or_eq_of_le (Nat.le_of_lt_succ hj) with hj | rfl
  · exact h.least i' j' hj hr ht
  · exact hn i' hr ht

theorem Fruitless.extend (h : Fruitless gain blocked target n)
    (hn : ∀ i', Run blocked i' n → gained gain i' n < target) : Fruitless gain blocked target (n+1) := by
  intro i' j' hj hr
  rcases Nat.lt_or_eq_of_le (Nat.le_of_lt_succ hj) with hj | rfl
  · exact h i' j' hj hr
  · exact hn i' hr

theorem cheapest_last (hr : Run blocked a n) (ht : target ≤ gained gain a n)
    (hn : ∀ i', Run blocked i' n → target ≤ gained gain i' n → spent cost a n ≤ spent cost i' n)
    (hbefore : ∀ i' j', j' < n → Run blocked i' j' → target ≤ gained gain i' j' → spent cost a n ≤ spent cost i' j') :
    Cheapest gain cost blocked target (n+1) a n := by
  refine ⟨hr,Nat.lt_succ_self _,ht,?_⟩
  intro i' j' hj hr' ht'
  rcases Nat.lt_or_eq_of_le (Nat.le_of_lt_succ hj) with hj | rfl
  · exact hbefore i' j' hj hr' ht'
  · exact hn i' hr' ht'

end
end CratonVM.CheapestRun
