import CratonVM.Jit.Scev.LoopRuns
import CratonVM.Lib.ByteReader

/-!
The span of the induction variable covers every executed iteration.
-/
namespace CratonVM.Jit.Scev
open Wrapping Outcome List Option

namespace LoopRun
variable {L : CountedLoop} {R : LoopRun L}

theorem iv_le_extreme (hinv : L.bound.isInvariant L.modifiedLocals L.heapStable = true) {k : Nat}
    (hk : R.executed k) (ht : L.form = .preTested ∨ 0 < k) :
    if L.cmp.isIncreasing then R.iv k ≤ R.extreme else R.extreme ≤ R.iv k := by
  have hlim := limit_eq hinv fun j hj => R.executed_of_le hk (Nat.le_of_lt hj)
  have hpass := R.tested hk ht
  rw [hlim,exits_eq_false] at hpass
  exact hpass

/-- What keeps the advances of an increasing loop inside the word. -/
structure NoWrapUp (R : LoopRun L) : Prop where
  step_nonneg : 0 ≤ L.iv.stride.eval (R.state 0)
  tested : R.extreme+L.iv.stride.eval (R.state 0) ≤ maxInt
  first : L.form = .postTested → R.iv 0+L.iv.stride.eval (R.state 0) ≤ maxInt

structure NoWrapDown (R : LoopRun L) : Prop where
  step_neg : L.iv.stride.eval (R.state 0) ≤ 0
  tested : minInt ≤ R.extreme+L.iv.stride.eval (R.state 0)
  first : L.form = .postTested → minInt ≤ R.iv 0+L.iv.stride.eval (R.state 0)

variable (hinv : L.bound.isInvariant L.modifiedLocals L.heapStable = true)
include hinv

theorem NoWrapUp.affine (hup : L.cmp.isIncreasing = true) (h : NoWrapUp R) {n : Nat}
    (hexec : ∀ k, k < n → R.executed k) :
    ∀ k, k ≤ n → R.iv k = R.iv 0+k*L.iv.stride.eval (R.state 0) := by
  refine iv_affine hexec fun k hk => ?_
  have hword := isInt_iff.mp (R.isInt_iv k)
  have hs := h.step_nonneg
  rw [isInt_iff]
  refine ⟨by omega,?_⟩
  by_cases ht : L.form = .preTested ∨ 0 < k
  · have hle := iv_le_extreme hinv (hexec k hk) ht
    rw [if_pos hup] at hle
    have := h.tested
    omega
  have hk0 : k = 0 := by omega
  subst hk0
  refine h.first ?_
  cases hf : L.form with
  | preTested => exact absurd (.inl hf) ht
  | postTested => rfl

theorem NoWrapDown.affine (hdown : L.cmp.isIncreasing = false) (h : NoWrapDown R) {n : Nat}
    (hexec : ∀ k, k < n → R.executed k) :
    ∀ k, k ≤ n → R.iv k = R.iv 0+k*L.iv.stride.eval (R.state 0) := by
  refine iv_affine hexec fun k hk => ?_
  have hword := isInt_iff.mp (R.isInt_iv k)
  have hs := h.step_neg
  rw [isInt_iff]
  refine ⟨?_,by omega⟩
  by_cases ht : L.form = .preTested ∨ 0 < k
  · have hle := iv_le_extreme hinv (hexec k hk) ht
    rw [if_neg (by simp [hdown])] at hle
    have := h.tested
    omega
  have hk0 : k = 0 := by omega
  subst hk0
  refine h.first ?_
  cases hf : L.form with
  | preTested => exact absurd (.inl hf) ht
  | postTested => rfl

theorem NoWrapUp.entry_le (hup : L.cmp.isIncreasing = true) (h : NoWrapUp R) {k : Nat}
    (hk : R.executed k) : R.iv 0 ≤ R.iv k := by
  rw [h.affine hinv hup (fun j hj => R.executed_of_le hk (Nat.le_of_lt hj)) k (Nat.le_refl k)]
  have := Int.mul_nonneg (Int.natCast_nonneg k) h.step_nonneg
  omega

theorem NoWrapDown.le_entry (hdown : L.cmp.isIncreasing = false) (h : NoWrapDown R) {k : Nat}
    (hk : R.executed k) : R.iv k ≤ R.iv 0 := by
  rw [h.affine hinv hdown (fun j hj => R.executed_of_le hk (Nat.le_of_lt hj)) k (Nat.le_refl k)]
  have := Int.mul_nonneg (Int.natCast_nonneg k) (Int.neg_nonneg_of_nonpos h.step_neg)
  rw [Int.mul_neg] at this
  omega

end LoopRun
namespace CountedLoop
variable {L : CountedLoop} {R : LoopRun L}

theorem eval_gov : L.gov.eval (R.state 0) = R.extreme := rfl

theorem eval_entry : L.entry.eval (R.state 0) = R.iv 0 := by
  unfold entry
  cases hc : L.iv.init.asConstant with
  | none => simp [SymBound.eval,BoundTerm.eval,LoopRun.iv]
  | some c => ?_
  obtain ⟨lo,hi,hinit,hlo,hhi⟩ := IntRange.contains_cases R.entryInInit
  rw [hinit] at hc
  simp only [IntRange.asConstant] at hc
  split at hc
  · cases hc
    simp only [SymBound.constant,SymBound.eval,BoundTerm.eval,LoopRun.iv]
    omega
  · cases hc

variable {env : RangeEnv}

theorem boundRange_bounds (henv : env.Holds (R.state 0)) {blo bhi : Int}
    (hb : (L.boundRangeIn env).i64Bounds = some (blo,bhi)) : blo ≤ R.limit ∧ R.limit ≤ bhi := by
  have hmem : (L.boundRangeIn env).contains R.limit = true :=
    IntRange.contains_meet.mpr ⟨BoundSource.contains_rangeIn henv L.bound,R.limitInRange⟩
  obtain ⟨lo,hi,hr,hlo,hhi⟩ := IntRange.contains_cases hmem
  rw [hr] at hb
  cases hb
  exact ⟨hlo,hhi⟩

theorem init_bounds : L.iv.init.lo.getD minInt ≤ R.iv 0 ∧ R.iv 0 ≤ L.iv.init.hi.getD maxInt := by
  obtain ⟨lo,hi,hr,hlo,hhi⟩ := IntRange.contains_cases R.entryInInit
  rw [hr]
  exact ⟨hlo,hhi⟩

theorem checkDirection_const {s : Int} (hs : L.iv.stride = .const s)
    (hdir : L.checkDirection = .ok ()) : s ≠ 0 ∧ (s > 0 ↔ L.cmp.isIncreasing = true) := by
  unfold checkDirection at hdir
  rw [hs] at hdir
  simp only at hdir
  split at hdir
  · cases hdir
  rename_i hne
  split at hdir
  · cases hdir
  rename_i hsame
  refine ⟨hne,?_⟩
  rw [← not_not.mp hsame,decide_eq_true_eq]

theorem checkDirection_variable {l : Nat} (hs : L.iv.stride = .variable_ l)
    (hdir : L.checkDirection = .ok ()) : L.cmp.isIncreasing = true ∧ L.form ≠ .postTested := by
  unfold checkDirection at hdir
  rw [hs] at hdir
  simp only at hdir
  split at hdir
  · cases hdir
  rename_i hup
  split at hdir
  · cases hdir
  rename_i hform
  exact ⟨by simpa using hup,hform⟩

theorem noWrapUp {govLo govHi : Int} {guards : List PreheaderGuard} {length : Int}
    (hup : L.cmp.isIncreasing = true) (hdir : L.checkDirection = .ok ())
    (hg : L.overflowGuards govLo govHi = .ok guards) (hhi : R.extreme ≤ govHi)
    (hholds : ∀ g ∈ guards, g.Holds (R.state 0) length) : LoopRun.NoWrapUp R := by
  have hinit := (init_bounds (R := R)).2
  unfold overflowGuards at hg
  cases hs : L.iv.stride with
  | const s => ?_
  | variable_ l =>
    rw [hs] at hg
    cases hg
    obtain ⟨hnonneg,hroom⟩ := hholds _ (mem_singleton.mpr rfl)
    have hform := (checkDirection_variable hs hdir).2
    refine ⟨by rw [hs]; exact hnonneg,?_,fun h => absurd h hform⟩
    rw [hs]
    rw [eval_gov] at hroom
    simp only [Stride.eval]
    omega
  have hpos := (checkDirection_const hs hdir).2.mpr hup
  rw [hs] at hg
  simp only [if_pos hpos] at hg
  obtain ⟨limits,hlimits,hg⟩ := bind_eq_ok.mp hg
  split at hg
  · cases hg
  rename_i hfirst
  cases hg
  refine ⟨by rw [hs]; exact Int.le_of_lt hpos,?_,fun hform => ?_⟩
  · rw [hs]
    simp only [Stride.eval]
    unfold limitGuardUp at hlimits
    split at hlimits
    · split at hlimits
      · cases hlimits
      split at hlimits
      · cases hlimits
      cases hlimits
      -- the limit itself is tested in front of the loop
      have hlim := hholds _ (mem_singleton.mpr rfl)
      simp only [PreheaderGuard.Holds,SymBound.eval,BoundTerm.eval,Int.add_zero] at hlim
      unfold LoopRun.extreme LoopRun.limit
      omega
    · omega
  rw [hs]
  simp only [Stride.eval]
  have hle := not_and.mp hfirst hform
  omega

theorem noWrapDown {govLo govHi : Int} {guards : List PreheaderGuard} {length : Int}
    (hdown : L.cmp.isIncreasing = false) (hdir : L.checkDirection = .ok ())
    (hg : L.overflowGuards govLo govHi = .ok guards) (hlo : govLo ≤ R.extreme)
    (hholds : ∀ g ∈ guards, g.Holds (R.state 0) length) : LoopRun.NoWrapDown R := by
  have hinit := (init_bounds (R := R)).1
  unfold overflowGuards at hg
  cases hs : L.iv.stride with
  | const s => ?_
  | variable_ l =>
    have hup := (checkDirection_variable hs hdir).1
    rw [hdown] at hup
    cases hup
  have hneg : ¬ s > 0 := by
    rw [(checkDirection_const hs hdir).2,hdown]
    exact Bool.false_ne_true
  rw [hs] at hg
  simp only [if_neg hneg] at hg
  obtain ⟨limits,hlimits,hg⟩ := bind_eq_ok.mp hg
  split at hg
  · cases hg
  rename_i hfirst
  cases hg
  refine ⟨by rw [hs]; exact Int.not_lt.mp hneg,?_,fun hform => ?_⟩
  · rw [hs]
    simp only [Stride.eval]
    unfold limitGuardDown at hlimits
    split at hlimits
    · split at hlimits
      · cases hlimits
      split at hlimits
      · cases hlimits
      cases hlimits
      have hlim := hholds _ (mem_singleton.mpr rfl)
      simp only [PreheaderGuard.Holds,SymBound.eval,BoundTerm.eval,Int.add_zero] at hlim
      unfold LoopRun.extreme LoopRun.limit
      omega
    · omega
  rw [hs]
  simp only [Stride.eval]
  have hle := not_and.mp hfirst hform
  omega

theorem contains_testedRange {govLo govHi v : Int} (hv : IsInt v)
    (hup : L.cmp.isIncreasing = true → v ≤ govHi ∧ L.iv.init.lo.getD minInt ≤ v)
    (hdown : L.cmp.isIncreasing = false → govLo ≤ v ∧ v ≤ L.iv.init.hi.getD maxInt) :
    (L.testedRange govLo govHi).contains v = true := by
  have hword := isInt_iff.mp hv
  unfold testedRange
  cases hc : L.cmp.isIncreasing with
  | true => ?_
  | false =>
    obtain ⟨hge,hle⟩ := hdown hc
    rw [if_neg (by simp),IntRange.contains_meet,IntRange.contains_new]
    refine ⟨?_,hword.1,by omega⟩
    cases hr : IntRange.fromI64 (max govLo minInt) maxInt with
    | none => exact IntRange.contains_unknown.mpr hv
    | some r => exact (IntRange.contains_fromI64 hr).mpr ⟨by omega,hword.2⟩
  obtain ⟨hle,hge⟩ := hup hc
  rw [if_pos rfl,IntRange.contains_meet,IntRange.contains_new]
  refine ⟨?_,by omega,hword.2⟩
  cases hr : IntRange.fromI64 minInt (min govHi maxInt) with
  | none => exact IntRange.contains_unknown.mpr hv
  | some r => exact (IntRange.contains_fromI64 hr).mpr ⟨hword.1,by omega⟩

/-- A value lies in the hull and between witnesses of the span. -/
structure InSpan (s : LoopState) (span : IvSpan) (v : Int) : Prop where
  numeric : span.numeric.contains v = true
  below : ∃ t ∈ span.maxTerms, v ≤ t.eval s
  above : ∃ t ∈ span.minTerms, t.eval s ≤ v

section
variable {govLo govHi : Int} (hinv : L.bound.isInvariant L.modifiedLocals L.heapStable = true)
  (hlo : govLo ≤ R.extreme) (hhi : R.extreme ≤ govHi)
  (hup : L.cmp.isIncreasing = true → LoopRun.NoWrapUp R)
  (hdown : L.cmp.isIncreasing = false → LoopRun.NoWrapDown R)
include hinv hlo hhi hup hdown

theorem inSpan_tested {k : Nat} (hk : R.executed k) (ht : L.form = .preTested ∨ 0 < k) :
    (L.testedRange govLo govHi).contains (R.iv k) = true ∧
      (if L.cmp.isIncreasing then R.iv k ≤ R.extreme ∧ R.iv 0 ≤ R.iv k
        else R.iv k ≤ R.iv 0 ∧ R.extreme ≤ R.iv k) := by
  have hle := LoopRun.iv_le_extreme hinv hk ht
  have hinit := init_bounds (R := R)
  cases hc : L.cmp.isIncreasing with
  | true => ?_
  | false =>
    rw [if_neg (by simp [hc])] at hle
    have hge := (hdown hc).le_entry hinv hc hk
    refine ⟨contains_testedRange (R.isInt_iv k) (fun h => ?_) fun _ => ⟨by omega,by omega⟩,hge,hle⟩
    rw [hc] at h
    cases h
  rw [if_pos hc] at hle
  have hge := (hup hc).entry_le hinv hc hk
  refine ⟨contains_testedRange (R.isInt_iv k) (fun _ => ⟨by omega,by omega⟩) fun h => ?_,hle,hge⟩
  rw [hc] at h
  cases h

theorem inSpan_spanOf {span : IvSpan} (hspan : L.spanOf govLo govHi = .ok span) {k : Nat}
    (hk : R.executed k) : InSpan (R.state 0) span (R.iv k) := by
  have htested := inSpan_tested hinv hlo hhi hup hdown hk
  unfold spanOf at hspan
  cases hform : L.form with
  | preTested =>
    obtain ⟨hnum,hends⟩ := htested (.inl hform)
    simp only [hform] at hspan
    cases hspan
    split
    · rename_i hc
      rw [if_pos hc] at hends
      exact ⟨hnum,⟨L.gov,by simp,hends.1⟩,⟨L.entry,by simp,by rw [eval_entry]; exact hends.2⟩⟩
    rename_i hc
    rw [if_neg hc] at hends
    exact ⟨hnum,⟨L.entry,by simp,by rw [eval_entry]; exact hends.1⟩,⟨L.gov,by simp,hends.2⟩⟩
  | postTested => ?_
  simp only [hform] at hspan
  split at hspan
  · cases hspan
  cases hspan
  have hentry : L.entry.eval (R.state 0) = R.iv 0 := eval_entry
  by_cases hk0 : 0 < k
  · obtain ⟨hnum,hends⟩ := htested (.inr hk0)
    split
    · rename_i hc
      rw [if_pos hc] at hends
      exact ⟨IntRange.contains_join (.inl hnum),⟨L.gov,by simp,hends.1⟩,
        ⟨L.entry,by simp,by rw [hentry]; exact hends.2⟩⟩
    rename_i hc
    rw [if_neg hc] at hends
    exact ⟨IntRange.contains_join (.inl hnum),⟨L.entry,by simp,by rw [hentry]; exact hends.1⟩,
      ⟨L.gov,by simp,hends.2⟩⟩
  -- the first iteration runs with the entry value
  have hzero := Nat.eq_zero_of_not_pos hk0
  subst hzero
  have hle : L.entry.eval (R.state 0) ≤ R.iv 0 ∧ R.iv 0 ≤ L.entry.eval (R.state 0) := by omega
  split
  · exact ⟨IntRange.contains_join (.inr R.entryInInit),⟨L.entry,by simp,hle.2⟩,
      ⟨L.entry,by simp,hle.1⟩⟩
  exact ⟨IntRange.contains_join (.inr R.entryInInit),⟨L.entry,by simp,hle.2⟩,
    ⟨L.entry,by simp,hle.1⟩⟩

end

theorem numeric_spanOf {govLo govHi : Int} {span : IvSpan} (hspan : L.spanOf govLo govHi = .ok span)
    (hinv : L.bound.isInvariant L.modifiedLocals L.heapStable = true)
    (hlo : govLo ≤ R.extreme) (hhi : R.extreme ≤ govHi) (h0 : R.executed 0) :
    span.numeric.contains (R.iv 0) = true := by
  unfold spanOf at hspan
  cases hform : L.form with
  | preTested => ?_
  | postTested =>
    simp only [hform] at hspan
    split at hspan
    · cases hspan
    cases hspan
    split
    · exact IntRange.contains_join (.inr R.entryInInit)
    · exact IntRange.contains_join (.inr R.entryInInit)
  have hle := LoopRun.iv_le_extreme hinv h0 (.inl hform)
  have hnum : (L.testedRange govLo govHi).contains (R.iv 0) = true := by
    have hinit := init_bounds (R := R)
    refine contains_testedRange (R.isInt_iv 0) (fun hc => ?_) fun hc => ?_
    · rw [if_pos hc] at hle
      omega
    rw [if_neg (by simp [hc])] at hle
    omega
  simp only [hform] at hspan
  cases hspan
  split
  · exact hnum
  · exact hnum

variable {proven : ProvenSpan}

theorem ivSpan_eq_ok (henv : env.Holds (R.state 0))
    (hspan : L.ivSpan env = .ok proven) :
    ∃ govLo govHi, L.bound.isInvariant L.modifiedLocals L.heapStable = true ∧
      L.checkDirection = .ok () ∧ govLo ≤ R.extreme ∧ R.extreme ≤ govHi ∧
      L.spanOf govLo govHi = .ok proven.span ∧ L.overflowGuards govLo govHi = .ok proven.guards := by
  unfold ivSpan at hspan
  split at hspan
  · cases hspan
  rename_i hinv
  split at hspan
  · cases hspan
  rename_i blo bhi hb
  split at hspan
  · cases hspan
  obtain ⟨_,hdir,hspan⟩ := bind_eq_ok.mp hspan
  obtain ⟨span,hs,hspan⟩ := bind_eq_ok.mp hspan
  obtain ⟨guards,hg,hspan⟩ := bind_eq_ok.mp hspan
  cases hspan
  obtain ⟨hblo,hbhi⟩ := boundRange_bounds henv hb
  refine ⟨blo+L.boundAddend,bhi+L.boundAddend,by simpa using hinv,hdir,?_,?_,hs,hg⟩
  · unfold LoopRun.extreme
    omega
  unfold LoopRun.extreme
  omega

theorem ivSpan_spec (henv : env.Holds (R.state 0))
    (hspan : L.ivSpan env = .ok proven) {length : Int}
    (hholds : ∀ g ∈ proven.guards, g.Holds (R.state 0) length) {k : Nat} (hk : R.executed k) :
    InSpan (R.state 0) proven.span (R.iv k) := by
  obtain ⟨govLo,govHi,hinv,hdir,hlo,hhi,hs,hg⟩ := ivSpan_eq_ok henv hspan
  exact inSpan_spanOf hinv hlo hhi (fun hc => noWrapUp hc hdir hg hhi hholds)
    (fun hc => noWrapDown hc hdir hg hlo hholds) hs hk

def wrappedIndex (idx : IndexExpr) (iv : Int) : Int :=
  wrap 32 (wrap 32 (iv*idx.scale)+idx.offset)

theorem eval_offset {t t' : SymBound} {k : Int} (s : LoopState) (h : t.offset k = some t') :
    t'.eval s = t.eval s+k := by
  unfold SymBound.offset at h
  split at h
  · cases h
    simp only [SymBound.eval]
    omega
  · cases h

theorem mem_mapM_offset {terms shifted : List SymBound} {k : Int}
    (h : terms.mapM (·.offset k) = some shifted) {t : SymBound} (ht : t ∈ terms) :
    ∃ t' ∈ shifted, t.offset k = some t' := by
  induction terms generalizing shifted with
  | nil => cases ht
  | cons a terms ih => ?_
  rw [mapM_cons] at h
  obtain ⟨a',ha',h⟩ := bind_eq_some_iff.mp h
  obtain ⟨rest,hrest,h⟩ := bind_eq_some_iff.mp h
  cases h
  rcases mem_cons.mp ht with rfl | ht
  · exact ⟨a',by simp,ha'⟩
  obtain ⟨t',hmem,ht'⟩ := ih hrest ht
  exact ⟨t',mem_cons_of_mem _ hmem,ht'⟩

theorem inSpan_numeric {numeric : IntRange} {v : Int} (s : LoopState)
    (h : numeric.contains v = true) :
    InSpan s ⟨numeric,numeric.hi.toList.map .constant,numeric.lo.toList.map .constant⟩ v := by
  obtain ⟨lo,hi,rfl,hlo,hhi⟩ := IntRange.contains_cases h
  refine ⟨h,⟨.constant hi,by simp [IntRange.hi],?_⟩,⟨.constant lo,by simp [IntRange.lo],?_⟩⟩
  · simp only [SymBound.constant,SymBound.eval,BoundTerm.eval]
    omega
  simp only [SymBound.constant,SymBound.eval,BoundTerm.eval]
  omega

variable {idx : IndexExpr}

theorem indexSpan_eq_ok
    (hspan : L.indexSpan idx env = .ok proven) :
    ∃ base, L.ivSpan env = .ok base ∧ proven.guards = base.guards ∧
      ∀ s v, IsInt v → base.span.numeric.contains v = true →
        proven.span.numeric.contains (wrappedIndex idx v) = true ∧
        (InSpan s base.span v → InSpan s proven.span (wrappedIndex idx v)) := by
  unfold indexSpan at hspan
  split at hspan
  · cases hspan
  obtain ⟨base,hbase,hspan⟩ := bind_eq_ok.mp hspan
  refine ⟨base,hbase,?_⟩
  split at hspan
  · rename_i hid
    cases hspan
    refine ⟨rfl,fun s v hv hmem => ?_⟩
    have hindex : wrappedIndex idx v = v := by
      unfold wrappedIndex
      rw [hid.1,hid.2,Int.mul_one,Int.add_zero,wrap_of_fits (by decide) hv,wrap_of_fits (by decide) hv]
    rw [hindex]
    exact ⟨hmem,fun h => h⟩
  split at hspan
  · cases hspan
  rename_i numeric hnumeric
  obtain ⟨scaled,hscaled,hoffset⟩ := bind_eq_some_iff.mp hnumeric
  have hmoved : ∀ v, base.span.numeric.contains v = true →
      wrappedIndex idx v = v*idx.scale+idx.offset ∧
      numeric.contains (v*idx.scale+idx.offset) = true := by
    intro v hmem
    obtain ⟨hin,hint⟩ := IntRange.contains_scaleNoWrap hscaled hmem
    obtain ⟨hin',hint'⟩ := IntRange.contains_offsetNoWrap hoffset hin
    refine ⟨?_,hin'⟩
    unfold wrappedIndex
    rw [wrap_of_fits (by decide) hint,wrap_of_fits (by decide) hint']
  split at hspan
  · rename_i hscale
    split at hspan
    · rename_i maxTerms minTerms hmax hmin
      cases hspan
      refine ⟨rfl,fun s v hv hmem => ?_⟩
      obtain ⟨hindex,hin⟩ := hmoved v hmem
      rw [hindex,hscale,Int.mul_one] at *
      refine ⟨hin,fun hs => ⟨hin,?_,?_⟩⟩
      · obtain ⟨t,ht,hle⟩ := hs.below
        obtain ⟨t',ht',hoff⟩ := mem_mapM_offset hmax ht
        exact ⟨t',ht',by rw [eval_offset s hoff]; omega⟩
      obtain ⟨t,ht,hle⟩ := hs.above
      obtain ⟨t',ht',hoff⟩ := mem_mapM_offset hmin ht
      exact ⟨t',ht',by rw [eval_offset s hoff]; omega⟩
    · cases hspan
  cases hspan
  refine ⟨rfl,fun s v hv hmem => ?_⟩
  obtain ⟨hindex,hin⟩ := hmoved v hmem
  rw [hindex]
  exact ⟨hin,fun _ => inSpan_numeric s hin⟩

theorem indexSpan_spec (henv : env.Holds (R.state 0)) (hspan : L.indexSpan idx env = .ok proven) {length : Int}
    (hholds : ∀ g ∈ proven.guards, g.Holds (R.state 0) length) {k : Nat} (hk : R.executed k) :
    InSpan (R.state 0) proven.span (wrappedIndex idx (R.iv k)) := by
  obtain ⟨base,hbase,hguards,hindex⟩ := indexSpan_eq_ok hspan
  have hin := ivSpan_spec henv hbase (hguards ▸ hholds) hk
  exact (hindex (R.state 0) (R.iv k) (R.isInt_iv k) hin.numeric).2 hin

theorem indexSpan_empty (henv : env.Holds (R.state 0)) (hspan : L.indexSpan idx env = .ok proven)
    (hempty : proven.span.numeric = .empty) (k : Nat) : ¬ R.executed k := by
  intro hk
  obtain ⟨base,hbase,hguards,hindex⟩ := indexSpan_eq_ok hspan
  obtain ⟨govLo,govHi,hinv,hdir,hlo,hhi,hs,hg⟩ := ivSpan_eq_ok henv hbase
  have hnum := numeric_spanOf hs hinv hlo hhi (R.executed_of_le hk (Nat.zero_le k))
  have hin := (hindex (R.state 0) (R.iv 0) (R.isInt_iv 0) hnum).1
  rw [hempty] at hin
  cases hin

end CountedLoop

open Wrapping Outcome

/-- The proof is given, and what the code in front of the loop has to test is true. -/
def Verdict.GuardsHold (s : LoopState) (length : Int) : Verdict → Prop
  | .static => True
  | .guarded guards => ∀ g ∈ guards, g.Holds s length
  | .refused _ => False

theorem Verdict.GuardsHold.passed {c : Prop} [Decidable c] {s : LoopState} {length : Int} {reason : RefusalReason}
    {v : Verdict} (h : (if c then .refused reason else v).GuardsHold s length) : ¬c ∧ v.GuardsHold s length := by
  by_cases hc : c
  · rw [if_pos hc] at h
    cases h
  rw [if_neg hc] at h
  exact ⟨hc,h⟩

namespace CountedLoop
theorem mem_dedup {g : PreheaderGuard} {guards : List PreheaderGuard} (h : g ∈ guards) :
    g ∈ dedup guards := by
  induction guards with
  | nil => cases h
  | cons guard rest ih => ?_
  unfold dedup
  split
  · rename_i hrest
    rcases List.mem_cons.mp h with rfl | h
    · simp
    have hg := ih h
    rw [hrest] at hg
    cases hg
  rename_i next later hrest
  rw [hrest] at ih
  split
  · rename_i heq
    rcases List.mem_cons.mp h with rfl | h
    · simp [heq]
    · exact ih h
  rcases List.mem_cons.mp h with rfl | h
  · simp
  · exact List.mem_cons_of_mem _ (ih h)

theorem collectGuards_eq_ok {guardsOf : SymBound → Except RefusalReason (List PreheaderGuard)}
    {terms : List SymBound} {guards : List PreheaderGuard}
    (h : collectGuards guardsOf terms = .ok guards) {t : SymBound} (ht : t ∈ terms) :
    ∃ here, guardsOf t = .ok here ∧ ∀ g ∈ here, g ∈ guards := by
  induction terms generalizing guards with
  | nil => cases ht
  | cons a terms ih => ?_
  obtain ⟨here,hhere,h⟩ := bind_eq_ok.mp h
  obtain ⟨later,hlater,h⟩ := bind_eq_ok.mp h
  cases h
  rcases List.mem_cons.mp ht with rfl | ht
  · exact ⟨here,hhere,fun g hg => List.mem_append_left _ hg⟩
  obtain ⟨own,hown,hsub⟩ := ih hlater ht
  exact ⟨own,hown,fun g hg => List.mem_append_right _ (hsub g hg)⟩

theorem eval_asConst {t : SymBound} {c : Int} (s : LoopState) (h : t.asConst = some c) :
    t.eval s = c := by
  obtain ⟨⟨⟩,addend⟩ := t
  case const v =>
    simp only [SymBound.asConst,Option.bind_eq_bind,Option.bind_some] at h
    split at h
    · exact Option.some.inj h
    · cases h
  case bound b =>
    cases b with
    | const v =>
      simp only [SymBound.asConst,Option.bind_eq_bind,Option.bind_some] at h
      split at h
      · exact Option.some.inj h
      · cases h
    | _ => cases h
  case ivEntry l => cases h

section
variable {s : LoopState} {span : IvSpan} {v len : Int} {guards : List PreheaderGuard}

theorem nonneg_of_lowerGuards (hv : InSpan s span v) (h : lowerGuards span = .ok guards)
    (hholds : ∀ g ∈ guards, g.Holds s len) : 0 ≤ v := by
  unfold lowerGuards at h
  split at h
  · rename_i hnonneg
    obtain ⟨lo,hi,hr,hlo,_⟩ := IntRange.contains_cases hv.numeric
    rw [hr] at hnonneg
    have hnonneg := of_decide_eq_true hnonneg
    omega
  split at h
  · cases h
  obtain ⟨t,ht,hle⟩ := hv.above
  obtain ⟨here,hhere,hsub⟩ := collectGuards_eq_ok h ht
  have hterm : 0 ≤ t.eval s := by
    unfold lowerGuard at hhere
    split at hhere
    · rename_i c hc
      split at hhere
      · rw [eval_asConst s hc]
        assumption
      · cases hhere
    cases hhere
    exact hholds _ (hsub _ (List.mem_singleton.mpr rfl))
  omega

variable {arrayLength : Option BoundSource} {length : IntRange}
  (hlen : length.contains len = true) (hdenotes : ∀ b, arrayLength = some b → b.eval s = len)
include hlen hdenotes

theorem lt_of_upperGuard {t : SymBound} (h : upperGuard arrayLength length t = .ok guards)
    (hholds : ∀ g ∈ guards, g.Holds s len) : t.eval s < len := by
  obtain ⟨llo,lhi,rfl,hllo,hlhi⟩ := IntRange.contains_cases hlen
  unfold upperGuard at h
  dsimp only [IntRange.lo,IntRange.hi,Option.getD_some] at h
  split at h
  · rename_i hshort
    obtain ⟨c,hc,hlt⟩ := (Option.any_eq_true _ _).mp hshort
    rw [eval_asConst s hc]
    have hlt := of_decide_eq_true hlt
    omega
  split at h
  · cases h
  rename_i needed hneeded
  have heval := eval_offset s hneeded
  split at h
  · rename_i hown
    obtain ⟨b,hb,hown⟩ := (Option.any_eq_true _ _).mp hown
    simp only [Bool.and_eq_true,decide_eq_true_eq] at hown
    have hbase : needed.eval s = len+needed.addend := by
      rw [SymBound.eval,hown.2,BoundTerm.eval,hdenotes b hb]
    omega
  split at h
  · rename_i c hc
    have hneed := eval_asConst s hc
    simp only [Option.any_some,decide_eq_true_eq] at h
    split at h
    · cases h
    split at h
    · omega
    cases h
    have hguard := hholds _ (List.mem_singleton.mpr rfl)
    simp only [PreheaderGuard.Holds,SymBound.constant,SymBound.eval,BoundTerm.eval] at hguard
    omega
  cases h
  have hguard : needed.eval s ≤ len := hholds _ (List.mem_singleton.mpr rfl)
  omega

theorem lt_of_upperGuards (hv : InSpan s span v)
    (h : upperGuards arrayLength length span = .ok guards)
    (hholds : ∀ g ∈ guards, g.Holds s len) : v < len := by
  unfold upperGuards at h
  split at h
  · rename_i hfits
    obtain ⟨lo,hi,hr,_,hhi⟩ := IntRange.contains_cases hv.numeric
    obtain ⟨llo,lhi,rfl,hllo,_⟩ := IntRange.contains_cases hlen
    rw [hr] at hfits
    have hfits : hi < llo := of_decide_eq_true hfits
    omega
  split at h
  · cases h
  obtain ⟨t,ht,hle⟩ := hv.below
  obtain ⟨here,hhere,hsub⟩ := collectGuards_eq_ok h ht
  have hterm := lt_of_upperGuard hlen hdenotes hhere fun g hg => hholds g (hsub g hg)
  omega

end

variable {L : CountedLoop} {R : LoopRun L}

theorem proveIndexInBoundsOfArray_eq {idx : IndexExpr} {arrayLength : Option BoundSource}
    {length : IntRange} {env : RangeEnv} {s : LoopState} {len : Int}
    (h : (L.proveIndexInBoundsOfArray idx arrayLength length env).GuardsHold s len) :
    ∃ proven, L.indexSpan idx env = .ok proven ∧ (proven.span.numeric = .empty ∨
      ∃ lower upper, lowerGuards proven.span = .ok lower ∧
        upperGuards arrayLength length proven.span = .ok upper ∧
        ∀ g ∈ proven.guards ++ lower ++ upper, g.Holds s len) := by
  unfold proveIndexInBoundsOfArray at h
  split at h
  · cases h
  rename_i proven hproven
  refine ⟨proven,hproven,?_⟩
  split at h
  · rename_i hempty
    left
    cases hn : proven.span.numeric with
    | empty => rfl
    | range lo hi =>
      rw [hn] at hempty
      cases hempty
  right
  split at h
  · cases h
  rename_i guards hguards
  obtain ⟨lower,hlower,hguards⟩ := bind_eq_ok.mp hguards
  obtain ⟨upper,hupper,hguards⟩ := bind_eq_ok.mp hguards
  cases hguards
  refine ⟨lower,upper,hlower,hupper,fun g hg => ?_⟩
  have hg := mem_dedup hg
  split at h
  · rename_i hnone
    rw [List.isEmpty_iff.mp hnone] at hg
    cases hg
  · exact h g hg

theorem index_in_bounds {env : RangeEnv} (henv : env.Holds (R.state 0)) {idx : IndexExpr}
    {arrayLength : Option BoundSource} {length : IntRange} {len : Int}
    (hlen : length.contains len = true)
    (hdenotes : ∀ b, arrayLength = some b → b.eval (R.state 0) = len)
    (h : (L.proveIndexInBoundsOfArray idx arrayLength length env).GuardsHold (R.state 0) len)
    {k : Nat} (hk : R.executed k) :
    0 ≤ wrappedIndex idx (R.iv k) ∧ wrappedIndex idx (R.iv k) < len := by
  obtain ⟨proven,hproven,hempty | ⟨lower,upper,hlower,hupper,hholds⟩⟩ :=
    proveIndexInBoundsOfArray_eq h
  · exact absurd hk (indexSpan_empty henv hproven hempty k)
  have hin := indexSpan_spec henv hproven
    (fun g hg => hholds g (List.mem_append_left _ (List.mem_append_left _ hg))) hk
  have hlow : ∀ g ∈ lower, g.Holds (R.state 0) len :=
    fun g hg => hholds g (List.mem_append_left _ (List.mem_append_right _ hg))
  have hupp : ∀ g ∈ upper, g.Holds (R.state 0) len :=
    fun g hg => hholds g (List.mem_append_right _ hg)
  exact ⟨nonneg_of_lowerGuards hin hlower hlow,lt_of_upperGuards hlen hdenotes hin hupper hupp⟩

end CountedLoop
end CratonVM.Jit.Scev
