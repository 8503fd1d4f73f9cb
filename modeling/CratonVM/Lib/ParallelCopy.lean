import Mathlib

/-!
Copies that read all their sources before any destination is written, done one at a time. A copy reads a
location, or a scratch word where the value it is owed has been put aside.
-/
namespace CratonVM.ParallelCopy
open Function Finset
section
variable {ι Loc V : Type}

/-- The memory on the way to `want`: the copies in `live` still wait, and what each is owed can be read. -/
structure Owed (want : Loc → V) (dst : ι → Loc) (live : Finset ι) (src : ι → Option Loc) (mem : Loc → V)
    (scratch : V) : Prop where
  settled : ∀ l, (∀ i ∈ live, dst i ≠ l) → mem l = want l
  fetched : ∀ i ∈ live, ∀ s, src i = some s → mem s = want (dst i)
  parked : ∀ i ∈ live, src i = none → scratch = want (dst i)

variable {want mem : Loc → V} {dst : ι → Loc} {live : Finset ι} {src src' : ι → Option Loc} {scratch v : V}
  {i : ι} {c : Loc}

theorem Owed.write [DecidableEq ι] [DecidableEq Loc] (h : Owed want dst live src mem scratch)
    (hread : ∀ j ∈ live, src j ≠ some (dst i)) (hv : v = want (dst i)) :
    Owed want dst (live.erase i) src (update mem (dst i) v) scratch := by
  refine ⟨fun l hl => ?_,fun j hj s hs => ?_,fun j hj hs => h.parked j (mem_of_mem_erase hj) hs⟩
  · by_cases heq : l = dst i
    · rw [heq,update_self,hv]
    rw [update_of_ne heq]
    refine h.settled l fun j hj => ?_
    by_cases hji : j = i
    · exact hji ▸ fun hc => heq hc.symm
    · exact hl j (mem_erase.mpr ⟨hji,hj⟩)
  have hj' := mem_of_mem_erase hj
  have hne : s ≠ dst i := fun heq => hread j hj' (heq ▸ hs)
  rw [update_of_ne hne]
  exact h.fetched j hj' s hs

theorem Owed.save [DecidableEq Loc] (h : Owed want dst live src mem scratch) (hfree : ∀ j ∈ live, src j ≠ none)
    (hsrc : ∀ j ∈ live, src' j = if src j = some c then none else src j) :
    Owed want dst live src' mem (mem c) := by
  refine ⟨h.settled,fun j hj s hs => ?_,fun j hj hs => ?_⟩
  · rw [hsrc j hj] at hs
    split at hs
    · cases hs
    · exact h.fetched j hj s hs
  rw [hsrc j hj] at hs
  split at hs
  · rename_i hc
    exact h.fetched j hj c hc
  · exact absurd hs (hfree j hj)

theorem Owed.finish (h : Owed want dst ∅ src mem scratch) : mem = want :=
  funext fun l => h.settled l fun _ hi => absurd hi (notMem_empty _)

end
end CratonVM.ParallelCopy
