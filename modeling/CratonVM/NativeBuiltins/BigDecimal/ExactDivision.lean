import CratonVM.NativeBuiltins.BigDecimal.Quotient

/-!
Exact division of `BigDecimal` (`native-builtins/src/math_bignum.rs`): the factors two and five of the divisor
decide whether the quotient terminates, and where.
-/
namespace CratonVM.BigDecimal
open Outcome

/-- The loop that divides a factor out of the divisor, with the exponent that it counts. -/
def divideOut (step width : Nat) : (fuel m count : Nat) → Nat × Nat
  | 0, m, count => (m,count)
  | fuel+1, m, count => if m%step ≠ 0 then (m,count) else divideOut step width fuel (m/step) (count+width)

/-- The number of zero bits below the lowest set one; an `int` for the magnitude of a `BigInteger`. -/
def lowestSetBit (n : Nat) : Nat := (divideOut 2 1 n n 0).2

/-- The exponents of two and five in the divisor, and what is left of it. -/
def factors (ubAbs : Nat) : Nat × Nat × Nat :=
  let twos := lowestSetBit ubAbs
  let m := ubAbs >>> twos
  let (m,fives) := divideOut (5^13) 13 m m 0
  let (m,fives) := divideOut 5 1 m m fives
  (twos,fives,m)

def underflow : Failure := .arithmetic "Underflow"

def nonTerminating : Failure :=
  .arithmetic "Non-terminating decimal expansion; no exact representable decimal result."

def exactDivideCoreFactored (ua sa ub sb : Int) : Except Failure (Int × Int) := do
  divideZeroCheck ua ub
  let preferredScale := saturateI64ToI32 (sa-sb)
  if ua = 0 then return (0,preferredScale)
  else if ua.tmod ub = 0 then return (ua.tdiv ub,preferredScale)
  else
    let (twos,fives,m) := factors ub.natAbs
    let maxExtra := ub.natAbs.size+1
    if ¬(m = 1 ∨ ua.natAbs%m = 0) then
      if preferredScale+maxExtra-1 ≥ 2^31-1 then throw underflow else throw nonTerminating
    else
      let k := max twos fives
      if k ≤ 2^31-1 ∧ (powTenCheck k).isOk then
        -- relative to the preferred scale, so that the sum is checked before it is an `int`
        let (q,kMin) := stripZerosToScale ((ua*10^k).tdiv ub) k 0
        let scale := preferredScale+kMin
        if scale > 2^31-1 then throw underflow else return (q,scale)
      else exactDivideCore ua sa ub sb

theorem divideOut_spec {step width : Nat} (hs : 1 < step) : ∀ {fuel m count : Nat}, 0 < m → m ≤ fuel →
    ∃ k, (divideOut step width fuel m count).2 = count+width*k ∧
      m = step^k*(divideOut step width fuel m count).1 ∧ ¬step ∣ (divideOut step width fuel m count).1
  | 0, m, count, hm, hf => by omega
  | fuel+1, m, count, hm, hf => by
    rw [divideOut]
    split
    · rename_i hr
      exact ⟨0,by simp,by simp,mt Nat.mod_eq_zero_of_dvd hr⟩
    rename_i hr
    have hdvd := Nat.dvd_of_mod_eq_zero (not_not.mp hr)
    have hlt := Nat.div_lt_self hm hs
    obtain ⟨k,hcount,hval,hend⟩ := @divideOut_spec step width hs fuel (m/step) (count+width)
      (Nat.div_pos (Nat.le_of_dvd hm hdvd) (by omega)) (by omega)
    refine ⟨k+1,by rw [hcount]; ring,?_,hend⟩
    rw [pow_succ',mul_assoc,← hval,Nat.mul_div_cancel' hdvd]

theorem factors_spec {n : Nat} (hn : n ≠ 0) :
    n = 2^(factors n).1*5^(factors n).2.1*(factors n).2.2 ∧ Nat.Coprime (factors n).2.2 10 := by
  obtain ⟨a,ha,hval,hodd⟩ := @divideOut_spec 2 1 (by omega) n n 0 (by omega) (by omega)
  have hbit : lowestSetBit n = a := by rw [lowestSetBit,ha,zero_add,one_mul]
  have hshift : n >>> a = (divideOut 2 1 n n 0).1 := by
    rw [Nat.shiftRight_eq_div_pow]
    conv_lhs => rw [hval]
    exact Nat.mul_div_cancel_left _ (Nat.pow_pos (by omega))
  simp only [factors,hbit,hshift]
  generalize (divideOut 2 1 n n 0).1 = m at hval hodd ⊢
  have hm : m ≠ 0 := fun h => hodd (h ▸ Nat.dvd_zero 2)
  obtain ⟨i,hi,hvali,-⟩ := @divideOut_spec (5^13) 13 (by omega) m m 0 (by omega) (by omega)
  generalize divideOut (5^13) 13 m m 0 = s at hi hvali ⊢
  have hs : s.1 ≠ 0 := fun h => hm (by rw [hvali,h,mul_zero])
  obtain ⟨j,hj,hvalj,hfive⟩ := @divideOut_spec 5 1 (by omega) s.1 s.1 s.2 (by omega) (by omega)
  generalize divideOut 5 1 s.1 s.1 s.2 = e at hj hvalj hfive ⊢
  have hme : m = 5^e.2*e.1 := by
    rw [hj,hi,zero_add,one_mul,pow_add,pow_mul,mul_assoc,← hvalj]
    exact hvali
  refine ⟨by rw [mul_assoc,← hme]; exact hval,Nat.Coprime.mul_right (m := 2) (n := 5) ?_ ?_⟩
  · refine ((Nat.Prime.coprime_iff_not_dvd Nat.prime_two).mpr fun h => hodd ?_).symm
    rw [hme]
    exact Dvd.dvd.mul_left h _
  · exact ((Nat.Prime.coprime_iff_not_dvd Nat.prime_five).mpr hfive).symm

section
variable {ua ub : Int} (hub : ub ≠ 0)
include hub

/-- A power of ten clears the divisor if what is left of it divides the dividend. -/
theorem dvd_mul_pow_of_factors (h : (factors ub.natAbs).2.2 ∣ ua.natAbs) :
    ub ∣ ua*10^max (factors ub.natAbs).1 (factors ub.natAbs).2.1 := by
  have hval := (factors_spec (Int.natAbs_ne_zero.mpr hub)).1
  refine Int.natAbs_dvd_natAbs.mp ?_
  generalize factors ub.natAbs = F at h hval ⊢
  rw [Int.natAbs_mul,Int.natAbs_pow,hval,mul_comm]
  refine Nat.mul_dvd_mul h ?_
  rw [show Int.natAbs 10 = 2*5 from rfl,mul_pow]
  exact Nat.mul_dvd_mul (pow_dvd_pow _ (le_max_left _ _)) (pow_dvd_pow _ (le_max_right _ _))

theorem dvd_of_dvd_mul_pow {k : Nat} (h : ub ∣ ua*10^k) : (factors ub.natAbs).2.2 ∣ ua.natAbs := by
  obtain ⟨hval,hcop⟩ := factors_spec (Int.natAbs_ne_zero.mpr hub)
  have h := Int.natAbs_dvd_natAbs.mpr h
  rw [Int.natAbs_mul,Int.natAbs_pow] at h
  exact (Nat.Coprime.pow_right k hcop).dvd_of_dvd_mul_right ((Dvd.intro_left _ hval.symm).trans h)

theorem exponents_lt_size : max (factors ub.natAbs).1 (factors ub.natAbs).2.1 < ub.natAbs.size := by
  have hval := (factors_spec (Int.natAbs_ne_zero.mpr hub)).1
  have hpos := Int.natAbs_pos.mpr hub
  generalize factors ub.natAbs = F at hval ⊢
  refine max_lt (Nat.lt_size.mpr (Nat.le_of_dvd hpos ⟨5^F.2.1*F.2.2,by rw [hval,mul_assoc]⟩)) (Nat.lt_size.mpr ?_)
  refine (Nat.pow_le_pow_left (show 2 ≤ 5 by omega) _).trans (Nat.le_of_dvd hpos ⟨2^F.1*F.2.2,?_⟩)
  rw [hval,mul_comm (2^F.1),mul_assoc]

/-- Bringing down a zero: the quotient and the remainder of the tenfold. -/
theorem tdiv_tmod_ten (x : Int) : (x*10).tdiv ub = x.tdiv ub*10+(x.tmod ub*10).tdiv ub ∧
    (x*10).tmod ub = (x.tmod ub*10).tmod ub := by
  have hnonneg : ∀ x : Int, 0 ≤ x → (x*10).tdiv ub = x.tdiv ub*10+(x.tmod ub*10).tdiv ub ∧
      (x*10).tmod ub = (x.tmod ub*10).tmod ub := by
    intro x hx
    have hr : 0 ≤ x.tmod ub*10 := by have := Int.tmod_nonneg ub hx; omega
    refine (Int.tdiv_tmod_unique (by omega) hub).mpr ⟨?_,Int.tmod_nonneg _ hr,?_⟩
    · calc (x.tmod ub*10).tmod ub+ub*(x.tdiv ub*10+(x.tmod ub*10).tdiv ub)
          = ((x.tmod ub*10).tmod ub+ub*(x.tmod ub*10).tdiv ub)+(ub*x.tdiv ub)*10 := by ring
        _ = (x.tmod ub+ub*x.tdiv ub)*10 := by rw [Int.tmod_add_mul_tdiv]; ring
        _ = x*10 := by rw [Int.tmod_add_mul_tdiv]
    have hlt := Nat.mod_lt (x.tmod ub*10).natAbs (Int.natAbs_pos.mpr hub)
    rw [← Int.natAbs_tmod] at hlt
    omega
  rcases le_total 0 x with hx | hx
  · exact hnonneg x hx
  have := hnonneg (-x) (by omega)
  simp only [neg_mul,Int.neg_tdiv,Int.neg_tmod] at this
  omega

variable {pref : Int}

/-- The loop ends with the first digit that leaves no remainder, if the scale has room for it. -/
theorem exactDigits_hit {k : Nat} (hk : ub ∣ ua*10^k) : ∀ {left i : Nat}, i < k → k ≤ i+left →
    (∀ j, i < j → j < k → ¬ub ∣ ua*10^j) → pref+i ≤ 2^31-1 →
    exactDigits ub left ((ua*10^i).tdiv ub) ((ua*10^i).tmod ub) (pref+i) =
      if pref+k > 2^31-1 then .error underflow else .ok ((ua*10^k).tdiv ub,pref+k)
  | 0, i, hik, hle, _, _ => by omega
  | left+1, i, hik, hle, hfirst, hroom => by
    obtain ⟨hq,hr⟩ := tdiv_tmod_ten hub (ua*10^i)
    rw [mul_assoc,← pow_succ] at hq hr
    rw [exactDigits]
    split
    · rw [if_pos (by omega)]
      rfl
    dsimp only
    rw [← hq,← hr]
    by_cases hlast : i+1 = k
    · subst hlast
      rw [if_pos (Int.tmod_eq_zero_of_dvd hk),if_neg (by omega)]
      push_cast
      rw [add_assoc]
    rw [if_neg fun h => hfirst (i+1) (by omega) (by omega) (Int.dvd_of_tmod_eq_zero h),
      show pref+i+1 = pref+(i+1 : Nat) by push_cast; ring]
    exact exactDigits_hit hk (by omega) (by omega) (fun j hj => hfirst j (by omega)) (by push_cast; omega)

theorem exactDigits_miss (hnone : ∀ k : Nat, ¬ub ∣ ua*10^k) : ∀ {left i : Nat}, pref+i ≤ 2^31-1 →
    exactDigits ub left ((ua*10^i).tdiv ub) ((ua*10^i).tmod ub) (pref+i) =
      if pref+i+left > 2^31-1 then .error underflow else .error nonTerminating
  | 0, i, hroom => by
    rw [if_neg (by push_cast; omega)]
    rfl
  | left+1, i, hroom => by
    obtain ⟨hq,hr⟩ := tdiv_tmod_ten hub (ua*10^i)
    rw [mul_assoc,← pow_succ] at hq hr
    rw [exactDigits]
    split
    · rw [if_pos (by push_cast; omega)]
      rfl
    dsimp only
    rw [← hq,← hr,if_neg fun h => hnone (i+1) (Int.dvd_of_tmod_eq_zero h),
      show pref+i+1 = pref+(i+1 : Nat) by push_cast; ring,exactDigits_miss hnone (by push_cast; omega)]
    push_cast
    rw [show pref+(i+1 : Int)+left = pref+i+(left+1) by ring]

end

theorem saturateI64ToI32_le (v : Int) : saturateI64ToI32 v ≤ 2^31-1 := by
  rw [saturateI64ToI32]
  split_ifs <;> omega

theorem terminates_iff (m n : Nat) : (m = 1 ∨ n%m = 0) ↔ m ∣ n := by
  rw [← Nat.dvd_iff_mod_eq_zero]
  exact ⟨fun h => h.elim (fun h => h ▸ Nat.one_dvd n) id,.inr⟩

/-- What both roads answer when `k` more digits are the fewest that end the quotient. -/
def ending (ua ub preferred : Int) (k : Nat) : Except Failure (Int × Int) :=
  if preferred+k > 2^31-1 then .error underflow else .ok ((ua*10^k).tdiv ub,preferred+k)

/-- What both roads answer when no number of digits ends the quotient. -/
def endless (ub preferred : Int) : Except Failure (Int × Int) :=
  if preferred+ub.natAbs.size ≥ 2^31-1 then .error underflow else .error nonTerminating

section
variable {ua ub sa sb : Int}

theorem pos_of_least {k : Nat} (hk : IsLeast {k : Nat | ub ∣ ua*10^k} k) : 0 < k ↔ ua.tmod ub ≠ 0 := by
  constructor
  · intro hpos hr
    have := hk.2 (show ub ∣ ua*10^0 by simpa using Int.dvd_of_tmod_eq_zero hr)
    omega
  rintro hr
  rcases Nat.eq_zero_or_pos k with rfl | h0
  · exact absurd (Int.tmod_eq_zero_of_dvd (by simpa using hk.1)) hr
  · exact h0

theorem ending_zero {k : Nat} (hk : IsLeast {k : Nat | ub ∣ ua*10^k} k) (hr : ua.tmod ub = 0) :
    ending ua ub (saturateI64ToI32 (sa-sb)) k = .ok (ua.tdiv ub,saturateI64ToI32 (sa-sb)) := by
  obtain rfl : k = 0 := by
    by_contra hne
    exact (pos_of_least hk).mp (by omega) hr
  have hle := saturateI64ToI32_le (sa-sb)
  simp [ending]
  omega

variable (hua : ua ≠ 0) (hub : ub ≠ 0)
include hua hub

theorem exactDivideCore_ending {k : Nat} (hk : IsLeast {k : Nat | ub ∣ ua*10^k} k) :
    exactDivideCore ua sa ub sb = ending ua ub (saturateI64ToI32 (sa-sb)) k := by
  rw [exactDivideCore,divideZeroCheck,if_pos hub,ok_bind,if_neg hua]
  split
  · rename_i hr
    exact (ending_zero hk hr).symm
  rename_i hr
  have hsize : k < ub.natAbs.size := lt_of_le_of_lt
    (hk.2 (dvd_mul_pow_of_factors hub (dvd_of_dvd_mul_pow hub hk.1))) (exponents_lt_size hub)
  have := @exactDigits_hit ua ub hub (saturateI64ToI32 (sa-sb)) k hk.1 (ub.natAbs.size+1) 0
    ((pos_of_least hk).mpr hr) (by omega) (fun j _ hj h => absurd (hk.2 h) (by omega))
    (by simpa using saturateI64ToI32_le (sa-sb))
  simpa [ending] using this

theorem exactDivideCore_endless (hnone : ∀ k : Nat, ¬ub ∣ ua*10^k) :
    exactDivideCore ua sa ub sb = endless ub (saturateI64ToI32 (sa-sb)) := by
  have hr : ua.tmod ub ≠ 0 := fun h => hnone 0 (by simpa using Int.dvd_of_tmod_eq_zero h)
  have hmiss := @exactDigits_miss ua ub hub (saturateI64ToI32 (sa-sb)) hnone (ub.natAbs.size+1) 0
    (by simpa using saturateI64ToI32_le (sa-sb))
  rw [exactDivideCore,divideZeroCheck,if_pos hub,ok_bind,if_neg hua,if_neg hr,endless]
  simp only [pow_zero,mul_one,Nat.cast_zero,add_zero] at hmiss
  rw [hmiss]
  refine if_congr ?_ rfl rfl
  push_cast
  omega

/-- The zeros that are stripped are the digits beyond the fewest. -/
theorem stripped_least {k K : Nat} (hk : IsLeast {k : Nat | ub ∣ ua*10^k} k) (hK : ub ∣ ua*10^K) :
    stripZerosToScale ((ua*10^K).tdiv ub) K 0 = ((ua*10^k).tdiv ub,(k : Int)) := by
  have hmul : ∀ {i : Nat}, ub ∣ ua*10^i → (ua*10^i).tdiv ub*ub = ua*10^i := fun h => Int.tdiv_mul_cancel h
  have hne : (ua*10^K).tdiv ub ≠ 0 := by
    intro h0
    have := hmul hK
    rw [h0,zero_mul] at this
    exact mul_ne_zero hua (by positivity) this.symm
  obtain ⟨⟨j,hs,hq,hj⟩,hends⟩ := @stripZerosToScale_spec _ K 0 hne
  generalize stripZerosToScale ((ua*10^K).tdiv ub) K 0 = res at hs hq hj hends
  obtain ⟨r,s⟩ := res
  obtain ⟨t,rfl⟩ : ∃ t : Nat, s = t := ⟨s.toNat,by dsimp only at *; omega⟩
  dsimp only at hs hq hj hends
  have hrt : r*ub = ua*10^t := by
    have h := hmul hK
    rw [hq,show K = t+j by omega,pow_add,← mul_assoc] at h
    refine mul_right_cancel₀ (show (10 : Int)^j ≠ 0 by positivity) ?_
    linarith
  have hle := hk.2 (show ub ∣ ua*10^t from Dvd.intro_left r hrt)
  have heq : t = k := by
    by_contra hne'
    refine hends.elim (by omega) fun hnd => hnd ⟨(ua*10^k).tdiv ub*10^(t-k-1),?_⟩
    refine mul_right_cancel₀ hub ?_
    calc r*ub = ua*10^k*10^(t-k) := by rw [hrt,mul_assoc,← pow_add]; congr 2; omega
      _ = (ua*10^k).tdiv ub*ub*(10^(t-k-1)*10) := by rw [hmul hk.1,← pow_succ]; congr 2; omega
      _ = 10^1*((ua*10^k).tdiv ub*10^(t-k-1))*ub := by ring
  subst heq
  rw [← hrt,Int.mul_tdiv_cancel _ hub]

theorem exactDivideCoreFactored_ending {k : Nat} (hk : IsLeast {k : Nat | ub ∣ ua*10^k} k) :
    exactDivideCoreFactored ua sa ub sb = ending ua ub (saturateI64ToI32 (sa-sb)) k := by
  have hm := dvd_of_dvd_mul_pow hub hk.1
  have hK := dvd_mul_pow_of_factors hub hm
  rw [exactDivideCoreFactored,divideZeroCheck,if_pos hub,ok_bind,if_neg hua]
  dsimp only
  split
  · rename_i hr
    exact (ending_zero hk hr).symm
  rw [if_neg (not_not.mpr ((terminates_iff _ _).mpr hm))]
  split
  · rw [stripped_least hua hub hk hK,ending]
    rfl
  · exact exactDivideCore_ending hua hub hk

theorem exactDivideCoreFactored_endless (hnone : ∀ k : Nat, ¬ub ∣ ua*10^k) :
    exactDivideCoreFactored ua sa ub sb = endless ub (saturateI64ToI32 (sa-sb)) := by
  have hr : ua.tmod ub ≠ 0 := fun h => hnone 0 (by simpa using Int.dvd_of_tmod_eq_zero h)
  rw [exactDivideCoreFactored,divideZeroCheck,if_pos hub,ok_bind,if_neg hua]
  dsimp only
  rw [if_neg hr,if_pos fun h => hnone _ (dvd_mul_pow_of_factors hub ((terminates_iff _ _).mp h)),endless]
  refine if_congr ?_ rfl rfl
  push_cast
  omega

end

theorem exactDivideCoreFactored_eq (ua sa ub sb : Int) :
    exactDivideCoreFactored ua sa ub sb = exactDivideCore ua sa ub sb := by
  by_cases hub : ub = 0
  · rw [exactDivideCoreFactored,exactDivideCore,divideZeroCheck,if_neg (not_not.mpr hub)]
    rfl
  by_cases hua : ua = 0
  · rw [exactDivideCoreFactored,exactDivideCore,if_pos hua,if_pos hua]
  by_cases hex : ∃ k : Nat, ub ∣ ua*10^k
  · rw [exactDivideCoreFactored_ending hua hub (Nat.isLeast_find hex),
      exactDivideCore_ending hua hub (Nat.isLeast_find hex)]
  rw [exactDivideCoreFactored_endless hua hub (not_exists.mp hex),
    exactDivideCore_endless hua hub (not_exists.mp hex)]

section
variable {ua sa ub sb q s : Int}

/-- A decimal `k` places behind the preferred scale is the quotient when it is in integers. -/
theorem quotient_value_iff {k : Nat} (hs : s = sa-sb+k) :
    (q*10^(-s)*(ub*10^(-sb)) : ℚ) = ua*10^(-sa) ↔ q*ub = ua*10^k := by
  have hten : (10 : ℚ) ≠ 0 := by norm_num
  have hne : (10 : ℚ)^(-s)*10^(-sb) ≠ 0 := mul_ne_zero (zpow_ne_zero _ hten) (zpow_ne_zero _ hten)
  have hpow : (10 : ℚ)^(-sa) = 10^k*(10^(-s)*10^(-sb)) := by
    rw [← zpow_natCast,← zpow_add₀ hten,← zpow_add₀ hten]
    congr 1
    omega
  have hl : (q*10^(-s)*(ub*10^(-sb)) : ℚ) = (q*ub : Int)*(10^(-s)*10^(-sb)) := by
    push_cast
    ring
  have hr : (ua*10^(-sa) : ℚ) = (ua*10^k : Int)*(10^(-s)*10^(-sb)) := by
    rw [hpow]
    push_cast
    ring
  rw [hl,hr,mul_left_inj' hne]
  exact Int.cast_inj

/-- A quotient with a finite decimal expansion ends after some number of digits. -/
theorem dvd_of_quotient_value (h : (q*10^(-s)*(ub*10^(-sb)) : ℚ) = ua*10^(-sa)) : ∃ k : Nat, ub ∣ ua*10^k := by
  rcases le_total (sa-sb) s with hle | hle
  · exact ⟨_,Dvd.intro_left q ((quotient_value_iff (show s = sa-sb+(s-(sa-sb)).toNat by omega)).mp h)⟩
  obtain ⟨n,hn⟩ : ∃ n : Nat, sa-sb-s = n := ⟨(sa-sb-s).toNat,by omega⟩
  refine ⟨0,Dvd.intro_left (q*10^n) ((@quotient_value_iff ua sa ub sb (q*10^n) (sa-sb) 0 (by simp)).mp
    (Eq.trans ?_ h))⟩
  rw [show -s = n+-(sa-sb) by omega,zpow_add₀ (by norm_num),zpow_natCast]
  push_cast
  ring

/-- The decimal that is given back has the value of the quotient, at the least scale from the preferred one on. -/
theorem exactDivideCoreFactored_ok (h : exactDivideCoreFactored ua sa ub sb = .ok (q,s)) (hub : ub ≠ 0)
    (hsat : saturateI64ToI32 (sa-sb) = sa-sb) : (q*10^(-s)*(ub*10^(-sb)) : ℚ) = ua*10^(-sa) ∧ sa-sb ≤ s ∧
      ∀ c t : Int, sa-sb ≤ t → (c*10^(-t)*(ub*10^(-sb)) : ℚ) = ua*10^(-sa) → s ≤ t := by
  by_cases hua : ua = 0
  · rw [exactDivideCoreFactored,divideZeroCheck,if_pos hub,ok_bind,if_pos hua,hsat] at h
    cases h
    exact ⟨by rw [hua]; simp,le_refl _,fun c t ht _ => ht⟩
  by_cases hex : ∃ k : Nat, ub ∣ ua*10^k
  · have hk := Nat.isLeast_find hex
    rw [exactDivideCoreFactored_ending hua hub hk,ending,hsat] at h
    split at h
    · cases h
    cases h
    refine ⟨(quotient_value_iff rfl).mpr (Int.tdiv_mul_cancel hk.1),by omega,fun c t ht hc => ?_⟩
    have := hk.2 (Dvd.intro_left c ((quotient_value_iff (show t = sa-sb+(t-(sa-sb)).toNat by omega)).mp hc))
    omega
  rw [exactDivideCoreFactored_endless hua hub (not_exists.mp hex),endless] at h
  split at h <;> cases h

theorem exactDivideCoreFactored_nonTerminating (h : exactDivideCoreFactored ua sa ub sb = .error nonTerminating) :
    (q*10^(-s)*(ub*10^(-sb)) : ℚ) ≠ ua*10^(-sa) := by
  intro hv
  have hne : nonTerminating ≠ underflow := by decide
  by_cases hub : ub = 0
  · rw [exactDivideCoreFactored,divideZeroCheck,if_neg (not_not.mpr hub)] at h
    split at h <;> exact absurd (Except.error.inj h) (by decide)
  by_cases hua : ua = 0
  · rw [exactDivideCoreFactored,divideZeroCheck,if_pos hub,ok_bind,if_pos hua] at h
    cases h
  rw [exactDivideCoreFactored_ending hua hub (Nat.isLeast_find (dvd_of_quotient_value hv)),ending] at h
  split at h
  · exact hne (Except.error.inj h).symm
  · cases h

end

/-- Division by the factors of the divisor answers as the digit loop does; a quotient given back is exact, at the
least scale from the preferred one on, and one said not to terminate has no finite expansion. -/
theorem exact_division_by_factors (ua sa ub sb : Int) :
    exactDivideCoreFactored ua sa ub sb = exactDivideCore ua sa ub sb ∧
    (∀ q s, exactDivideCoreFactored ua sa ub sb = .ok (q,s) → ub ≠ 0 → -2^31 ≤ sa-sb → sa-sb ≤ 2^31-1 →
      (q*10^(-s)*(ub*10^(-sb)) : ℚ) = ua*10^(-sa) ∧ sa-sb ≤ s ∧
        ∀ c t : Int, sa-sb ≤ t → (c*10^(-t)*(ub*10^(-sb)) : ℚ) = ua*10^(-sa) → s ≤ t) ∧
    (exactDivideCoreFactored ua sa ub sb = .error nonTerminating →
      ∀ c t : Int, (c*10^(-t)*(ub*10^(-sb)) : ℚ) ≠ ua*10^(-sa)) := by
  refine ⟨exactDivideCoreFactored_eq ua sa ub sb,fun q s h hub hlo hhi => ?_,fun h c t =>
    exactDivideCoreFactored_nonTerminating h⟩
  refine exactDivideCoreFactored_ok h hub ?_
  rw [saturateI64ToI32,if_neg (by omega),if_neg (by omega)]

end CratonVM.BigDecimal
