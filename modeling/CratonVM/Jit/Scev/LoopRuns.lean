import CratonVM.Jit.Scev.CountedLoop

/-!
Executions of a counted loop over wrapping `int` arithmetic, with what the producer of a
`CountedLoop` promises about the bytecode. `state k` is the state at the start of iteration `k`.
-/
namespace CratonVM.Jit.Scev
open Wrapping Bool

/-- The locals, the lengths of the arrays that locals hold, and the fields a limit may read. -/
structure LoopState where
  locals : Nat → { v : Int // IsInt v }
  lengths : Nat → { v : Int // 0 ≤ v ∧ v ≤ maxInt }
  fields : Nat → Option Nat → { v : Int // IsInt v }

def BoundSource.eval (s : LoopState) : BoundSource → Int
  | .const v => v
  | .local_ l => s.locals l
  | .arrayLength l => s.lengths l
  | .field cpIndex receiver => s.fields cpIndex receiver
  | .min a b => Min.min (a.eval s) (b.eval s)
  | .max a b => Max.max (a.eval s) (b.eval s)

def BoundTerm.eval (s : LoopState) : BoundTerm → Int
  | .const v => v
  | .bound b => b.eval s
  | .ivEntry l => s.locals l

/-- The value of an endpoint, exactly. -/
def SymBound.eval (s : LoopState) (t : SymBound) : Int := t.base.eval s+t.addend

def PreheaderGuard.Holds (s : LoopState) (length : Int) : PreheaderGuard → Prop
  | .nonNegative t => 0 ≤ t.eval s
  | .lengthAtLeast t => t.eval s ≤ length
  | .atMost t limit => t.eval s ≤ limit
  | .atLeast t limit => limit ≤ t.eval s
  | .strideInRange l headroom => 0 ≤ (s.locals l : Int) ∧ (s.locals l : Int) ≤ maxInt-headroom.eval s
  | .tripCountAtLeast t minimum => (minimum : Int) ≤ t.eval s

structure RangeEnv.Holds (env : RangeEnv) (s : LoopState) : Prop where
  locals : ∀ p ∈ env.locals, p.2.contains (s.locals p.1) = true
  lengths : ∀ p ∈ env.lengths, p.2.contains (s.lengths p.1) = true

/-- The comparison leaves the loop. -/
def ExitCmp.exits (iv bound : Int) : ExitCmp → Bool
  | .ge => iv ≥ bound
  | .gt => iv > bound
  | .le => iv ≤ bound
  | .lt => iv < bound

def Stride.eval (s : LoopState) : Stride → Int
  | .const step => step
  | .variable_ l => s.locals l

/-- A run of the loop that meets the producer's obligations. -/
structure LoopRun (L : CountedLoop) where
  state : Nat → LoopState
  executed : Nat → Prop
  /-- Iterations are executed in order. -/
  prior : ∀ {k}, executed (k+1) → executed k
  /-- The test of a pre-tested loop is in front of every iteration, that of a post-tested loop in
  front of every one but the first. -/
  tested : ∀ {k}, executed k → L.form = .preTested ∨ 0 < k →
    L.cmp.exits ((state k).locals L.iv.local_) (L.bound.eval (state k)) = false
  /-- Without another exit the test alone ends the loop. -/
  starts : L.hasOtherExit = false →
    L.form = .postTested ∨ L.cmp.exits ((state 0).locals L.iv.local_) (L.bound.eval (state 0)) = false →
    executed 0
  goesOn : L.hasOtherExit = false → ∀ {k}, executed k →
    L.cmp.exits ((state (k+1)).locals L.iv.local_) (L.bound.eval (state (k+1))) = false →
    executed (k+1)
  /-- The induction variable advances by the stride, once. -/
  advances : ∀ {k}, executed k → ((state (k+1)).locals L.iv.local_ : Int) =
    wrap 32 (((state k).locals L.iv.local_ : Int)+L.iv.stride.eval (state k))
  /-- Only modified locals are written. -/
  keepsLocals : ∀ {k}, executed k → ∀ {l}, unmodified L.modifiedLocals l = true →
    (state (k+1)).locals l = (state k).locals l
  keepsLengths : ∀ {k}, executed k → ∀ {l}, unmodified L.modifiedLocals l = true →
    (state (k+1)).lengths l = (state k).lengths l
  keepsFields : L.heapStable = true → ∀ {k}, executed k → ∀ {cpIndex receiver},
    receiver.all (unmodified L.modifiedLocals) = true →
    (state (k+1)).fields cpIndex receiver = (state k).fields cpIndex receiver
  keepsStride : ∀ {k}, executed k → L.iv.stride.eval (state (k+1)) = L.iv.stride.eval (state k)
  /-- What the loop's record says about the entry value and the limit. -/
  entryInInit : L.iv.init.contains ((state 0).locals L.iv.local_) = true
  limitInRange : L.boundRange.contains (L.bound.eval (state 0)) = true

namespace BoundSource
theorem isInt_eval (s : LoopState) (b : BoundSource) : IsInt (b.eval s) := by
  induction b with
  | const v => exact v.property
  | local_ l => exact (s.locals l).property
  | arrayLength l =>
    have h := (s.lengths l).property
    rw [isInt_iff]
    simp only [eval,minInt]
    omega
  | field cpIndex receiver => exact (s.fields cpIndex receiver).property
  | min a b iha ihb =>
    simp only [eval]
    rcases Int.le_total (a.eval s) (b.eval s) with h | h
    · rwa [Int.min_eq_left h]
    · rwa [Int.min_eq_right h]
  | max a b iha ihb =>
    simp only [eval]
    rcases Int.le_total (a.eval s) (b.eval s) with h | h
    · rwa [Int.max_eq_right h]
    · rwa [Int.max_eq_left h]

variable {env : RangeEnv} {s : LoopState}

theorem contains_local (h : env.Holds s) (l : Nat) :
    (env.local_ l).contains (s.locals l) = true := by
  unfold RangeEnv.local_
  cases hf : env.locals.find? fun p => p.1 = l with
  | none => exact IntRange.contains_unknown.mpr (s.locals l).property
  | some p => ?_
  have hp := List.find?_some hf
  have hmem := h.locals p (List.mem_of_find?_eq_some hf)
  simp only [decide_eq_true_eq] at hp
  rw [← hp]
  exact hmem

theorem contains_arrayLength (h : env.Holds s) (l : Nat) :
    (env.arrayLength l).contains (s.lengths l) = true := by
  unfold RangeEnv.arrayLength
  cases hf : env.lengths.find? fun p => p.1 = l with
  | none => exact IntRange.contains_range.mpr (s.lengths l).property
  | some p => ?_
  have hp := List.find?_some hf
  have hmem := h.lengths p (List.mem_of_find?_eq_some hf)
  simp only [decide_eq_true_eq] at hp
  rw [← hp]
  exact hmem

theorem contains_rangeIn (h : env.Holds s) (b : BoundSource) :
    (b.rangeIn env).contains (b.eval s) = true := by
  induction b with
  | const v => simp [rangeIn,eval,IntRange.constant]
  | local_ l => exact contains_local h l
  | arrayLength l =>
    refine IntRange.contains_meet.mpr ⟨contains_arrayLength h l,?_⟩
    exact IntRange.contains_range.mpr (s.lengths l).property
  | field cpIndex receiver => exact IntRange.contains_unknown.mpr (s.fields cpIndex receiver).property
  | min a b iha ihb => exact IntRange.contains_minWith iha ihb
  | max a b iha ihb => exact IntRange.contains_maxWith iha ihb

end BoundSource
namespace LoopRun
variable {L : CountedLoop} (R : LoopRun L)

/-- The induction variable at the start of iteration `k`. -/
def iv (k : Nat) : Int := (R.state k).locals L.iv.local_

def limit : Int := L.bound.eval (R.state 0)

/-- The extreme value of an executed iteration. -/
def extreme : Int := R.limit+L.boundAddend

theorem isInt_iv (k : Nat) : IsInt (R.iv k) := ((R.state k).locals L.iv.local_).property

variable {k : Nat}

theorem executed_of_le {j : Nat} (hk : R.executed k) (hj : j ≤ k) : R.executed j := by
  induction hj with
  | refl => exact hk
  | step _ ih => exact ih (R.prior hk)

variable {R}

theorem eval_step (hk : R.executed k) {b : BoundSource}
    (hinv : b.isInvariant L.modifiedLocals L.heapStable = true) :
    b.eval (R.state (k+1)) = b.eval (R.state k) := by
  induction b with
  | const v => rfl
  | local_ l => exact congrArg Subtype.val (R.keepsLocals hk hinv)
  | arrayLength l => exact congrArg Subtype.val (R.keepsLengths hk hinv)
  | field cpIndex receiver =>
    simp only [BoundSource.isInvariant,and_eq_true] at hinv
    exact congrArg Subtype.val (R.keepsFields hinv.1 hk hinv.2)
  | min a b iha ihb =>
    simp only [BoundSource.isInvariant,and_eq_true] at hinv
    simp only [BoundSource.eval,iha hinv.1,ihb hinv.2]
  | max a b iha ihb =>
    simp only [BoundSource.isInvariant,and_eq_true] at hinv
    simp only [BoundSource.eval,iha hinv.1,ihb hinv.2]

theorem limit_eq (hinv : L.bound.isInvariant L.modifiedLocals L.heapStable = true)
    (hk : ∀ j, j < k → R.executed j) : L.bound.eval (R.state k) = R.limit := by
  induction k with
  | zero => rfl
  | succ k ih =>
    rw [eval_step (hk k (Nat.lt_succ_self k)) hinv]
    exact ih fun j hj => hk j (Nat.lt_succ_of_lt hj)

theorem stride_eq (hk : ∀ j, j < k → R.executed j) :
    L.iv.stride.eval (R.state k) = L.iv.stride.eval (R.state 0) := by
  induction k with
  | zero => rfl
  | succ k ih =>
    rw [R.keepsStride (hk k (Nat.lt_succ_self k))]
    exact ih fun j hj => hk j (Nat.lt_succ_of_lt hj)

theorem exits_eq_false (iv limit : Int) : L.cmp.exits iv limit = false ↔
    if L.cmp.isIncreasing then iv ≤ limit+L.boundAddend else limit+L.boundAddend ≤ iv := by
  unfold CountedLoop.boundAddend
  cases L.cmp <;> simp [ExitCmp.exits,ExitCmp.isIncreasing,ExitCmp.isInclusive] <;> omega

theorem iv_affine {n : Nat} (hexec : ∀ k, k < n → R.executed k)
    (hfits : ∀ k, k < n → IsInt (R.iv k+L.iv.stride.eval (R.state 0))) :
    ∀ k, k ≤ n → R.iv k = R.iv 0+k*L.iv.stride.eval (R.state 0) := by
  refine affine_of_fits (by decide) (fun k hk => ?_) hfits
  have hstep := R.advances (hexec k hk)
  rw [stride_eq fun j hj => hexec j (Nat.lt_trans hj hk)] at hstep
  exact hstep

end LoopRun
end CratonVM.Jit.Scev
