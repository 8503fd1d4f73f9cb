import CratonVM.Jit.Scev.SpanProofs

/-!
How often the body of a counted loop runs.
-/
namespace CratonVM.Jit.Scev
open Wrapping Outcome Option Finset

namespace LoopRun
variable {L : CountedLoop} {R : LoopRun L}

noncomputable def iterations (R : LoopRun L) : ℕ∞ := Set.encard { k | R.executed k }

variable {n : Nat}

theorem le_iterations (h : ∀ k, k < n → R.executed k) : n ≤ R.iterations := by
  have hsub : (range n : Set Nat) ⊆ { k | R.executed k } :=
    fun k hk => h k (mem_range.mp hk)
  have hcard := Set.encard_le_encard hsub
  rwa [Set.encard_coe_eq_coe_finsetCard,card_range] at hcard

theorem iterations_le (h : ∀ k, R.executed k → k < n) : R.iterations ≤ n := by
  have hsub : { k | R.executed k } ⊆ (range n : Set Nat) :=
    fun k hk => mem_range.mpr (h k hk)
  have hcard := Set.encard_le_encard hsub
  rwa [Set.encard_coe_eq_coe_finsetCard,card_range] at hcard

variable (hinv : L.bound.isInvariant L.modifiedLocals L.heapStable = true)
include hinv

theorem executed_of_passes (honly : L.hasOtherExit = false)
    (hpass : ∀ k, k ≤ n → IsInt (R.iv 0+k*L.iv.stride.eval (R.state 0)) ∧
      L.cmp.exits (R.iv 0+k*L.iv.stride.eval (R.state 0)) R.limit = false) :
    ∀ k, k ≤ n → R.executed k ∧ R.iv k = R.iv 0+k*L.iv.stride.eval (R.state 0) := by
  intro k hk
  induction k with
  | zero =>
    have hfirst := (hpass 0 hk).2
    simp only [Nat.cast_zero,Int.zero_mul,Int.add_zero] at hfirst
    exact ⟨R.starts honly (.inr hfirst),by simp⟩
  | succ k ih => ?_
  obtain ⟨hexec,hiv⟩ := ih (Nat.le_of_succ_le hk)
  have hall : ∀ j, j < k+1 → R.executed j :=
    fun j hj => R.executed_of_le hexec (Nat.le_of_lt_succ hj)
  have hnext : R.iv (k+1) = R.iv 0+(k+1 : Nat)*L.iv.stride.eval (R.state 0) := by
    have hstep : R.iv (k+1) = wrap 32 (R.iv k+L.iv.stride.eval (R.state k)) := R.advances hexec
    have hsum : R.iv k+L.iv.stride.eval (R.state 0) =
        R.iv 0+(k+1 : Nat)*L.iv.stride.eval (R.state 0) := by
      rw [hiv]
      push_cast
      ring
    rw [stride_eq fun j hj => hall j (Nat.lt_succ_of_lt hj),hsum,
      wrap_of_fits (by decide) (hpass (k+1) hk).1] at hstep
    exact hstep
  refine ⟨R.goesOn honly hexec ?_,hnext⟩
  have hlim := limit_eq hinv hall
  have htest := (hpass (k+1) hk).2
  rw [← hnext,← hlim] at htest
  exact htest

theorem executed_up (honly : L.hasOtherExit = false) (hup : L.cmp.isIncreasing = true)
    (hs : 0 < L.iv.stride.eval (R.state 0))
    (hn : R.iv 0+n*L.iv.stride.eval (R.state 0) ≤ R.extreme) : R.executed n := by
  refine (executed_of_passes hinv honly (fun k hk => ?_) n (Nat.le_refl n)).1
  have hstep : (k : Int)*L.iv.stride.eval (R.state 0) ≤ n*L.iv.stride.eval (R.state 0) :=
    Int.mul_le_mul_of_nonneg_right (Int.ofNat_le.mpr hk) (Int.le_of_lt hs)
  have hpos := Int.mul_nonneg (Int.natCast_nonneg k) (Int.le_of_lt hs)
  have hword := isInt_iff.mp (R.isInt_iv 0)
  have hlim := isInt_iff.mp (L.bound.isInt_eval (R.state 0))
  have hadd : L.boundAddend ≤ 0 := by
    unfold CountedLoop.boundAddend
    split <;> omega
  have hle : R.iv 0+k*L.iv.stride.eval (R.state 0) ≤ R.limit+L.boundAddend := by
    have hext : R.extreme = R.limit+L.boundAddend := rfl
    omega
  have hlimit : R.limit ≤ maxInt := hlim.2
  refine ⟨isInt_iff.mpr ⟨by omega,by omega⟩,?_⟩
  rw [exits_eq_false,if_pos hup]
  exact hle

theorem executed_down (honly : L.hasOtherExit = false) (hdown : L.cmp.isIncreasing = false)
    (hs : L.iv.stride.eval (R.state 0) < 0)
    (hn : R.extreme ≤ R.iv 0+n*L.iv.stride.eval (R.state 0)) : R.executed n := by
  refine (executed_of_passes hinv honly (fun k hk => ?_) n (Nat.le_refl n)).1
  have hstep : (n : Int)*L.iv.stride.eval (R.state 0) ≤ k*L.iv.stride.eval (R.state 0) :=
    Int.mul_le_mul_of_nonpos_right (Int.ofNat_le.mpr hk) (Int.le_of_lt hs)
  have hneg := Int.mul_nonpos_of_nonneg_of_nonpos (Int.natCast_nonneg k) (Int.le_of_lt hs)
  have hword := isInt_iff.mp (R.isInt_iv 0)
  have hlim := isInt_iff.mp (L.bound.isInt_eval (R.state 0))
  have hadd : 0 ≤ L.boundAddend := by
    unfold CountedLoop.boundAddend
    rw [hdown]
    split <;> simp
  have hle : R.limit+L.boundAddend ≤ R.iv 0+k*L.iv.stride.eval (R.state 0) := by
    have hext : R.extreme = R.limit+L.boundAddend := rfl
    omega
  have hlimit : minInt ≤ R.limit := hlim.1
  refine ⟨isInt_iff.mpr ⟨by omega,by omega⟩,?_⟩
  rw [exits_eq_false,if_neg (by simp [hdown])]
  exact hle

end LoopRun
namespace CountedLoop
variable {L : CountedLoop} {R : LoopRun L}
variable {k : Nat}

theorem lt_count_up {mag first last : Int} (hmag : 0 < mag) :
    k < count true mag first last ↔ first+k*mag ≤ last := by
  have hk := Int.mul_nonneg (Int.natCast_nonneg k) (Int.le_of_lt hmag)
  unfold count
  rw [if_pos rfl]
  split
  · omega
  have hdiv := Int.le_ediv_iff_mul_le (a := (k : Int)) (b := last-first) hmag
  omega

theorem lt_count_down {mag first last : Int} (hmag : 0 < mag) :
    k < count false mag first last ↔ last ≤ first-k*mag := by
  have hk := Int.mul_nonneg (Int.natCast_nonneg k) (Int.le_of_lt hmag)
  unfold count
  rw [if_neg (by simp)]
  split
  · omega
  have hdiv := Int.le_ediv_iff_mul_le (a := (k : Int)) (b := first-last) hmag
  omega

/-- The least number of iterations the ranges allow. -/
def leastTrips (L : CountedLoop) (mag ilo ihi govLo govHi : Int) : Nat :=
  if L.cmp.isIncreasing then count true mag ihi govLo else count false mag ilo govHi

def mostTrips (L : CountedLoop) (mag ilo ihi govLo govHi : Int) : Nat :=
  if L.cmp.isIncreasing then count true mag ilo govHi else count false mag ihi govLo

/-- The step after the extreme value can leave the word. -/
def mayWrap (L : CountedLoop) (mag govLo govHi : Int) : Prop :=
  if L.cmp.isIncreasing then govHi+mag > maxInt else govLo-mag < minInt

theorem capped_cases (p : Prop) [Decidable p] (most cap : Nat) :
    (if p ∧ most > 0 then cap else most) = most ∧ (p → (if p ∧ most > 0 then cap else most) = 0) ∨
      (if p ∧ most > 0 then cap else most) = cap := by
  split
  · exact .inr rfl
  rename_i h
  exact .inl ⟨rfl,fun hp => Nat.eq_zero_of_not_pos (not_and.mp h hp)⟩

theorem tripCount_eq_some {env : RangeEnv} (henv : env.Holds (R.state 0)) {t : TripCount}
    (h : L.tripCount env = some t) :
    ∃ s ilo ihi govLo govHi, L.form = .preTested ∧
      L.bound.isInvariant L.modifiedLocals L.heapStable = true ∧
      L.iv.stride = .const s ∧ s ≠ 0 ∧ (s > 0 ↔ L.cmp.isIncreasing = true) ∧
      (ilo ≤ R.iv 0 ∧ R.iv 0 ≤ ihi) ∧ (govLo ≤ R.extreme ∧ R.extreme ≤ govHi) ∧
      (L.hasOtherExit = false → t.min ≤ L.leastTrips s.natAbs ilo ihi govLo govHi) ∧
      (L.hasOtherExit = true → t.min = 0) ∧
      (t.max = L.mostTrips s.natAbs ilo ihi govLo govHi ∧
          (L.mayWrap s.natAbs govLo govHi → t.max = 0) ∨ t.max = maxU64) := by
  unfold tripCount at h
  split at h
  · cases h
  rename_i hform
  split at h
  · cases h
  rename_i hinv
  obtain ⟨s,hs,h⟩ := bind_eq_some_iff.mp h
  dsimp only at h
  split at h
  · cases h
  rename_i hdir
  obtain ⟨hne,hdir⟩ := not_or.mp hdir
  obtain ⟨⟨ilo,ihi⟩,hi,h⟩ := bind_eq_some_iff.mp h
  obtain ⟨⟨blo,bhi⟩,hb,h⟩ := bind_eq_some_iff.mp h
  have hstride : L.iv.stride = .const s := by
    cases hst : L.iv.stride with
    | const c =>
      rw [hst] at hs
      cases hs
      rfl
    | variable_ l =>
      rw [hst] at hs
      cases hs
  have hinit : ilo ≤ R.iv 0 ∧ R.iv 0 ≤ ihi := by
    obtain ⟨lo,hi',hr,hlo,hhi⟩ := IntRange.contains_cases R.entryInInit
    rw [hr] at hi
    cases hi
    exact ⟨hlo,hhi⟩
  obtain ⟨hblo,hbhi⟩ := boundRange_bounds henv hb
  have hext : R.extreme = R.limit+L.boundAddend := rfl
  refine ⟨s,ilo,ihi,blo+L.boundAddend,bhi+L.boundAddend,not_not.mp hform,by simpa using hinv,hstride,
    hne,?_,hinit,⟨by omega,by omega⟩,?_⟩
  · rw [← not_not.mp hdir,decide_eq_true_eq]
  cases h
  refine ⟨fun honly => ?_,fun hother => ?_,?_⟩
  · rw [honly]
    exact Nat.min_le_left _ _
  · rw [hother]
    rfl
  dsimp only [mostTrips,mayWrap]
  split
  · exact capped_cases _ _ _
  · exact capped_cases _ _ _

section
variable {env : RangeEnv} (henv : env.Holds (R.state 0)) {t : TripCount}
  (h : L.tripCount env = some t)
include henv h

theorem executed_of_lt_min {k : Nat} (hk : k < t.min) : R.executed k := by
  obtain ⟨s,ilo,ihi,govLo,govHi,_,hinv,hs,hne,hdir,hinit,hgov,hmin,hother,_⟩ :=
    tripCount_eq_some henv h
  have honly : L.hasOtherExit = false := by
    cases ho : L.hasOtherExit with
    | false => rfl
    | true =>
      rw [hother ho] at hk
      omega
  have hk := Nat.lt_of_lt_of_le hk (hmin honly)
  unfold leastTrips at hk
  have heval : L.iv.stride.eval (R.state 0) = s := by rw [hs]; rfl
  cases hc : L.cmp.isIncreasing with
  | true =>
    have hpos := hdir.mpr hc
    rw [if_pos hc,lt_count_up (by omega),Int.natAbs_of_nonneg (Int.le_of_lt hpos)] at hk
    refine LoopRun.executed_up hinv honly hc ?_ ?_
    · omega
    rw [heval]
    omega
  | false => ?_
  have hneg : s < 0 := by
    have := hdir.not.mpr (by simp [hc])
    omega
  rw [if_neg (by simp [hc]),lt_count_down (by omega),Int.ofNat_natAbs_of_nonpos (by omega),
    Int.mul_neg] at hk
  refine LoopRun.executed_down hinv honly hc ?_ ?_
  · omega
  rw [heval]
  omega

theorem lt_max_of_executed (hmax : t.max ≠ maxU64) {k : Nat} (hk : R.executed k) : k < t.max := by
  obtain ⟨s,ilo,ihi,govLo,govHi,hform,hinv,hs,hne,hdir,hinit,hgov,_,_,hmost⟩ :=
    tripCount_eq_some henv h
  obtain ⟨heq,hwrap⟩ | hcap := hmost
  swap
  · exact absurd hcap hmax
  have heval : L.iv.stride.eval (R.state 0) = s := by rw [hs]; rfl
  have hle := LoopRun.iv_le_extreme hinv hk (.inl hform)
  have hfirst := LoopRun.iv_le_extreme hinv (R.executed_of_le hk (Nat.zero_le k)) (.inl hform)
  have hall : ∀ j, j < k → R.executed j := fun j hj => R.executed_of_le hk (Nat.le_of_lt hj)
  unfold mostTrips at heq
  unfold mayWrap at hwrap
  cases hc : L.cmp.isIncreasing with
  | true =>
    have hpos := hdir.mpr hc
    rw [if_pos hc,Int.natAbs_of_nonneg (Int.le_of_lt hpos)] at *
    -- the first iteration runs, so the count is not zero
    have hrun : 0 < t.max := by
      rw [heq,lt_count_up hpos]
      omega
    have hup : LoopRun.NoWrapUp R := by
      refine ⟨by omega,by omega,fun hpost => ?_⟩
      rw [hform] at hpost
      cases hpost
    have haff := hup.affine hinv hc hall k (Nat.le_refl k)
    rw [heq,lt_count_up hpos]
    rw [heval] at haff
    omega
  | false => ?_
  have hneg : s < 0 := by
    have := hdir.not.mpr (by simp [hc])
    omega
  have hmag : (0 : Int) < s.natAbs := by omega
  rw [if_neg (by simp [hc])] at *
  have hrun : 0 < t.max := by
    rw [heq,lt_count_down hmag]
    omega
  have hdown : LoopRun.NoWrapDown R := by
    refine ⟨by omega,by omega,fun hpost => ?_⟩
    rw [hform] at hpost
    cases hpost
  have haff := hdown.affine hinv hc hall k (Nat.le_refl k)
  rw [heq,lt_count_down hmag,Int.ofNat_natAbs_of_nonpos (by omega),Int.mul_neg]
  rw [heval] at haff
  omega

theorem tripCount_spec : t.min ≤ R.iterations ∧ (t.max ≠ maxU64 → R.iterations ≤ t.max) :=
  ⟨LoopRun.le_iterations fun _ hk => executed_of_lt_min henv h hk,
    fun hmax => LoopRun.iterations_le fun _ hk => lt_max_of_executed henv h hmax hk⟩

end

theorem executed_of_tripCountGuard {env : RangeEnv} {minimum : Nat} {len : Int}
    (hinv : L.bound.isInvariant L.modifiedLocals L.heapStable = true)
    (honly : L.hasOtherExit = false) (hup : L.cmp.isIncreasing = true)
    (hs : L.iv.stride = .const 1)
    (h : (L.tripCountGuard minimum env).GuardsHold (R.state 0) len) (hk : k < minimum) :
    R.executed k := by
  have heval : L.iv.stride.eval (R.state 0) = 1 := by rw [hs]; rfl
  unfold tripCountGuard at h
  split at h
  · rename_i entryHi boundHi hhi hbound
    dsimp only at h
    split at h
    · cases h
    split at h
    · cases h
    have hguard := h _ (List.mem_singleton.mpr rfl)
    simp only [PreheaderGuard.Holds,SymBound.eval,BoundTerm.eval] at hguard
    have hentry : R.iv 0 ≤ entryHi := by
      have := (init_bounds (R := R)).2
      rwa [hhi] at this
    refine LoopRun.executed_up hinv honly hup ?_ ?_
    · omega
    have hext : R.extreme = L.bound.eval (R.state 0)+L.boundAddend := rfl
    rw [heval]
    omega
  · cases h
  · cases h

theorem executed_of_proveTripCountAtLeast {env : RangeEnv} (henv : env.Holds (R.state 0))
    {minimum : Nat} {len : Int}
    (h : (L.proveTripCountAtLeast minimum env).GuardsHold (R.state 0) len)
    (hk : k < minimum) : R.executed k := by
  unfold proveTripCountAtLeast at h
  rw [if_neg (show minimum ≠ 0 by omega)] at h
  obtain ⟨-,h⟩ := h.passed
  obtain ⟨hinv,h⟩ := h.passed
  obtain ⟨-,h⟩ := h.passed
  cases hs : L.iv.stride with
  | variable_ n =>
    rw [hs] at h
    cases h
  | const stride => ?_
  rw [hs] at h
  obtain ⟨-,h⟩ := h.passed
  obtain ⟨hdir,h⟩ := h.passed
  obtain ⟨-,h⟩ := h.passed
  by_cases hstatic : (L.tripCount env).any (·.min ≥ minimum) = true
  · obtain ⟨t,ht,hmin⟩ := (any_eq_true _ _).mp hstatic
    exact executed_of_lt_min henv ht (Nat.lt_of_lt_of_le hk (of_decide_eq_true hmin))
  rw [if_neg hstatic] at h
  obtain ⟨hother,h⟩ := h.passed
  obtain ⟨hone,h⟩ := h.passed
  obtain ⟨-,hguard⟩ := h.passed
  obtain rfl := not_not.mp hone
  have hup : L.cmp.isIncreasing = true := by
    rw [← not_not.mp hdir]
    rfl
  exact executed_of_tripCountGuard (by simpa using hinv) (by simpa using hother) hup hs hguard hk

theorem ivLocal_of_indexSpan {env : RangeEnv} {idx : IndexExpr} {proven : ProvenSpan}
    (h : L.indexSpan idx env = .ok proven) : idx.ivLocal = L.iv.local_ := by
  unfold indexSpan at h
  split at h
  · cases h
  rename_i hlocal
  exact not_not.mp hlocal

/-- What the proofs about a counted loop say holds in every run that meets the producer's
obligations, from an entry state the environment describes. -/
theorem countedLoop_sound (R : LoopRun L) (env : RangeEnv) (henv : env.Holds (R.state 0)) :
    (∀ idx arrayLength length len, length.contains len = true →
      (∀ b, arrayLength = some b → b.eval (R.state 0) = len) →
      (L.proveIndexInBoundsOfArray idx arrayLength length env).GuardsHold (R.state 0) len →
      ∀ k, R.executed k → 0 ≤ wrappedIndex idx ((R.state k).locals idx.ivLocal) ∧
        wrappedIndex idx ((R.state k).locals idx.ivLocal) < len) ∧
    (∀ proven len, L.ivSpan env = .ok proven → (∀ g ∈ proven.guards, g.Holds (R.state 0) len) →
      ∀ k, R.executed k → InSpan (R.state 0) proven.span (R.iv k)) ∧
    (∀ t, L.tripCount env = some t →
      t.min ≤ R.iterations ∧ (t.max ≠ maxU64 → R.iterations ≤ t.max)) ∧
    (∀ minimum len, (L.proveTripCountAtLeast minimum env).GuardsHold (R.state 0) len →
      minimum ≤ R.iterations) := by
  refine ⟨fun idx arrayLength length len hlen hdenotes h k hk => ?_,
    fun proven len hspan hholds k hk => ivSpan_spec henv hspan hholds hk,
    fun t ht => tripCount_spec henv ht,
    fun minimum len h =>
      LoopRun.le_iterations fun k hk => executed_of_proveTripCountAtLeast henv h hk⟩
  obtain ⟨proven,hproven,_⟩ := proveIndexInBoundsOfArray_eq h
  rw [ivLocal_of_indexSpan hproven]
  exact index_in_bounds henv hlen hdenotes h hk

def countToThree : CountedLoop :=
  ⟨⟨0,.constant 0,.const 1⟩,.ge,.const ⟨3,by decide⟩,.unknown,.preTested,1,true,false⟩

theorem isInt_countToThree (k : Nat) : IsInt (min k 3 : Nat) := by
  rw [isInt_iff,minInt,maxInt]
  omega

theorem countToThree_next {k : Nat} (hk : k < 3) : ((min k 3 : Nat)+1 : Int) = (min (k+1) 3 : Nat) := by
  omega

def countToThreeState (k : Nat) : LoopState where
  locals l := if l = 0 then ⟨(min k 3 : Nat),isInt_countToThree k⟩ else ⟨0,isInt_zero⟩
  lengths _ := ⟨3,by decide⟩
  fields _ _ := ⟨0,isInt_zero⟩

def countToThreeRun : LoopRun countToThree where
  state := countToThreeState
  executed k := k < 3
  prior h := Nat.lt_of_succ_lt h
  tested := by
    intro k hk _
    simp [countToThree,countToThreeState,ExitCmp.exits,BoundSource.eval,hk]
  starts _ _ := by decide
  goesOn := by
    intro _ k hk htest
    simp [countToThree,countToThreeState,ExitCmp.exits,BoundSource.eval] at htest
    exact_mod_cast htest
  advances := by
    intro k hk
    simp only [countToThree,countToThreeState,Stride.eval,if_pos]
    rw [countToThree_next hk,wrap_of_fits (by decide) (isInt_countToThree (k+1))]
  keepsLocals := by
    intro k hk l hl
    have hl : l ≠ 0 := by
      rintro rfl
      revert hl
      decide
    simp [countToThreeState,hl]
  keepsLengths _ _ _ := rfl
  keepsFields _ _ _ _ _ _ := rfl
  keepsStride _ := rfl
  entryInInit := by decide
  limitInRange := by decide

/-- The loop runs three times, its indices into an array of three are in bounds, and a fourth
iteration is not promised. -/
theorem countedLoop_sound_countToThree :
    (∀ k, countToThreeRun.executed k → 0 ≤ wrappedIndex ⟨0,1,0⟩ ((countToThreeState k).locals 0) ∧
      wrappedIndex ⟨0,1,0⟩ ((countToThreeState k).locals 0) < 3) ∧
    ((3 : Nat) ≤ countToThreeRun.iterations ∧ countToThreeRun.iterations ≤ (3 : Nat)) ∧
    countToThree.proveTripCountAtLeast 4 ⟨[],[]⟩ = .refused .unusableBound := by
  have henv : RangeEnv.Holds ⟨[],[]⟩ (countToThreeRun.state 0) := ⟨by simp,by simp⟩
  obtain ⟨hindex,_,htrip,_⟩ := countedLoop_sound countToThreeRun ⟨[],[]⟩ henv
  have hcount := htrip ⟨3,3⟩ (by decide)
  refine ⟨hindex ⟨0,1,0⟩ (some (.const ⟨3,by decide⟩)) .arrayLength 3 (by decide) ?_ ?_,
    ⟨hcount.1,hcount.2 (by decide)⟩,by decide⟩
  · intro b hb
    cases hb
    rfl
  have hstatic : countToThree.proveIndexInBoundsOfArray ⟨0,1,0⟩ (some (.const ⟨3,by decide⟩))
      .arrayLength ⟨[],[]⟩ = .static := by decide
  rw [hstatic]
  trivial

end CountedLoop
end CratonVM.Jit.Scev
