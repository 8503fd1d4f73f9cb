import CratonVM.Lib.DecimalRounding
import CratonVM.NativeBuiltins.BigInt.Arithmetic

/-!
Rounding of `BigDecimal` to a precision (`native-builtins/src/math_bignum.rs`). An unscaled value is the integer
it denotes; its division is the truncating one. Digit counts are exact, and the bound that the source takes from
the bit length is a parameter.
-/
namespace CratonVM.BigDecimal
open DecimalRounding

/-- An `ArithmeticException` with its message, or a loop of the model that is cut off. -/
inductive Failure where
  | arithmetic (message : String)
  | outOfFuel
  deriving DecidableEq

def digitCount (u : Int) : Int := Nat.log 10 u.natAbs+1

def checkScaleNonZero (v : Int) : Except Failure Int :=
  let asInt := v.bmod (2^32)
  if asInt = v then .ok asInt
  else .error (.arithmetic (if asInt > 0 then "Underflow" else "Overflow"))

def powOverflow : Failure := .arithmetic "BigInteger would overflow supported range"

/-- `bi_pow_check_range` for a base with the given lowest set bit and magnitude bits. -/
def powCheckRange (powersOfTwo magnitudeBits exp : Int) : Except Failure Unit :=
  let bitsToShift := powersOfTwo*exp
  let remainingBits := magnitudeBits-powersOfTwo
  if bitsToShift > 2^31-1 then .error powOverflow
  else if remainingBits = 1 then
    if 1+bitsToShift > 2^31-1 then .error powOverflow else .ok ()
  else if remainingBits*exp > 64 ∧ remainingBits*exp+bitsToShift-exp ≥ 2^31-1 then .error powOverflow
  else .ok ()

def powTenCheck (n : Int) : Except Failure Unit :=
  if n < 2 then .ok () else powCheckRange 1 4 n

/-- `none` for a rounding that the mode forbids. -/
def roundNeedsIncrement (remainder divisor quotient : Int) (dividendNeg : Bool) (mode : Mode) : Option Bool :=
  if remainder = 0 then some false
  else match mode with
    | .down => some false
    | .up => some true
    | .ceiling => some !dividendNeg
    | .floor => some dividendNeg
    | .halfUp | .halfDown | .halfEven =>
      match compare (2*|remainder|) divisor with
      | .gt => some true
      | .lt => some false
      | .eq => match mode with
        | .halfUp => some true
        | .halfDown => some false
        | _ => some (quotient%2 = 1)
    | .unnecessary => none

/-- The increment, or the error of a forbidden rounding. -/
def increment (remainder divisor quotient : Int) (dividendNeg : Bool) (mode : Mode) : Except Failure Int :=
  match roundNeedsIncrement remainder divisor quotient dividendNeg mode with
  | none => .error (.arithmetic "Rounding necessary")
  | some inc => .ok (if inc then if dividendNeg then -1 else 1 else 0)

def divideAndRoundTenPow (v n : Int) (mode : Mode) : Except Failure Int := do
  powTenCheck n
  let divisor := 10^n.toNat
  let q := v.tdiv divisor
  let inc ← increment (v.tmod divisor) divisor q (v < 0) mode
  return q+inc

def roundToPrecision (upper : Int → Int) (unscaled scale targetPrecision : Int) (mode : Mode) :
    Except Failure (Int × Int) :=
  if targetPrecision ≤ 0 ∨ unscaled = 0 then .ok (unscaled,scale)
  else if upper unscaled ≤ targetPrecision then .ok (unscaled,scale)
  else
    let curPrecision := digitCount unscaled
    if curPrecision ≤ targetPrecision then .ok (unscaled,scale)
    else do
      let drop := curPrecision-targetPrecision
      let newScale ← checkScaleNonZero (scale-drop)
      powTenCheck drop
      let divisor := 10^drop.toNat
      let q := unscaled.tdiv divisor
      let inc ← increment (unscaled.tmod divisor) divisor q (unscaled < 0) mode
      let rounded := q+inc
      if digitCount rounded > targetPrecision then
        let newScale ← checkScaleNonZero (newScale-1)
        return (rounded.tdiv 10,newScale)
      else return (rounded,newScale)

/-- `bd_compact_of` answers for magnitudes of a positive `long`. -/
def isCompact (q : Int) : Bool := q.natAbs < 2^63

inductive DoRound where
  | receiver
  | fresh (unscaled scale precision : Int) (keepsIntVal : Bool)
  deriving DecidableEq

/-- The variables of `bd_do_round_plan`; `cur` is `none` while nothing was divided. -/
structure Plan where
  scale : Int
  prec : Int
  cur : Option Int
  keepsIntVal : Bool
  compact : Bool

/-- The two loops of `bd_do_round_plan`; the one for inflated values stops at a compact quotient. -/
def passes (v mcp : Int) (mode : Mode) (inflated : Bool) : (fuel : Nat) → Plan → Except Failure Plan
  | 0, _ => .error .outOfFuel
  | fuel+1, plan =>
    let drop := plan.prec-mcp
    if drop > 0 then do
      let scale ← checkScaleNonZero (plan.scale-drop)
      let q ← divideAndRoundTenPow (plan.cur.getD v) drop mode
      if inflated && isCompact q then return ⟨scale,digitCount q,some q,inflated,true⟩
      else passes v mcp mode inflated fuel ⟨scale,digitCount q,some q,inflated,plan.compact⟩
    else .ok plan

def Plan.finish (plan : Plan) : DoRound :=
  match plan.cur with
  | none => .receiver
  | some unscaled => .fresh unscaled plan.scale plan.prec plan.keepsIntVal

def doRoundPlan (fuel : Nat) (v scale : Int) (inflated : Bool) (mcp : Int) (mode : Mode) : Except Failure DoRound :=
  if mcp ≤ 0 then .ok .receiver
  else do
    let plan : Plan := ⟨scale,digitCount v,none,false,!inflated⟩
    let plan ← (if inflated then passes v mcp mode true fuel plan else .ok plan)
    let plan ← (if plan.compact then passes v mcp mode false fuel plan else .ok plan)
    return plan.finish

theorem digitCount_le {u : Int} {p : Nat} (hp : 0 < p) : digitCount u ≤ p ↔ u.natAbs < 10^p := by
  rw [digitCount]
  rcases Nat.eq_zero_or_pos u.natAbs with h0 | h0
  · rw [h0,Nat.log_zero_right]
    have := Nat.pow_pos (n := p) (show 0 < 10 by omega)
    omega
  have := Nat.log_lt_iff_lt_pow (b := 10) (x := p) (by omega) (Nat.ne_of_gt h0)
  omega

theorem digitCount_eq {u : Int} {p : Nat} (hlo : 10^p ≤ u.natAbs) (hhi : u.natAbs < 10^(p+1)) :
    digitCount u = p+1 := by
  rw [digitCount,Nat.log_eq_of_pow_le_of_lt_pow hlo hhi]

section
open BigInt (signed signed_tdiv signed_tmod)
variable {num den inc : Int} {mode : Mode}

theorem eq_signed (v : Int) : v = signed (v < 0) v.natAbs := by
  rw [signed]
  split <;> rename_i h <;> simp at h <;> omega

theorem increments_of_needs {rem quo : Int} {Q R D : Nat} {neg b : Bool} (hlt : R < D) (habs : |rem| = R)
    (hzero : rem = 0 ↔ R = 0) (hodd : quo%2 = 1 ↔ Q%2 = 1) (h : roundNeedsIncrement rem D quo neg mode = some b) :
    Increments mode neg Q (R/D : ℚ) b := by
  have hD : (0 : ℚ) < D := by exact_mod_cast (show 0 < D by omega)
  have hf : (R/D : ℚ) = 0 ↔ rem = 0 := by
    rw [hzero,div_eq_zero_iff]
    simp [hD.ne']
  have hless : (R/D : ℚ) < 1/2 ↔ (2*R : Int) < D := by
    rw [div_lt_div_iff₀ hD (by norm_num),one_mul,mul_comm]
    exact_mod_cast Iff.rfl
  have heq : (R/D : ℚ) = 1/2 ↔ (2*R : Int) = D := by
    rw [div_eq_div_iff hD.ne' (by norm_num),one_mul,mul_comm]
    exact_mod_cast Iff.rfl
  unfold roundNeedsIncrement at h
  rw [habs] at h
  split at h
  · rename_i h0
    cases h
    exact ⟨fun _ => rfl,fun hne => absurd (hf.mpr h0) hne⟩
  rename_i h0
  refine ⟨fun hz => absurd (hf.mp hz) h0,fun _ => ?_⟩
  have hhalf : ∀ {up : Bool}, (match compare (2*(R : Int)) D with
      | .gt => some true
      | .lt => some false
      | .eq => some up) = some b → (b = true ↔ 1/2 < (R/D : ℚ) ∨ (R/D : ℚ) = 1/2 ∧ up = true) := by
    intro up h
    rcases lt_trichotomy (2*R : Int) D with hc | hc | hc
    · rw [compare_lt_iff_lt.mpr hc] at h
      have := hless.mpr hc
      cases h
      grind
    · rw [compare_eq_iff_eq.mpr hc] at h
      have := heq.mpr hc
      cases h
      simp [this]
    rw [compare_gt_iff_gt.mpr hc] at h
    have h1 : ¬(R/D : ℚ) < 1/2 := fun hl => absurd (hless.mp hl) (by omega)
    have h2 : ¬(R/D : ℚ) = 1/2 := fun hl => absurd (heq.mp hl) (by omega)
    cases h
    grind
  cases mode with
  | up | down | ceiling | floor => exact (Option.some.inj h).symm
  | halfUp =>
    refine (hhalf h).trans ?_
    grind
  | halfDown =>
    refine (hhalf h).trans ?_
    simp
  | halfEven =>
    refine (hhalf h).trans ?_
    rw [decide_eq_true_eq,hodd]
  | unnecessary => cases h

/-- The truncated quotient with its increment is the exact one rounded to an integer. -/
theorem increment_roundsTo (hden : den ≠ 0)
    (h : increment (num.tmod den) |den| (num.tdiv den) (decide (num < 0) != decide (den < 0)) mode = .ok inc) :
    RoundsTo mode ((num : ℚ)/den) (num.tdiv den+inc) ∧
      ((num.tdiv den+inc).natAbs = num.natAbs/den.natAbs ∨ (num.tdiv den+inc).natAbs = num.natAbs/den.natAbs+1) := by
  have hD := Int.natAbs_pos.mpr hden
  have hdiv : num.tdiv den = signed (decide (num < 0) != decide (den < 0)) (num.natAbs/den.natAbs) := by
    conv_lhs => rw [eq_signed num,eq_signed den,signed_tdiv]
  have hmod : num.tmod den = signed (num < 0) (num.natAbs%den.natAbs) := by
    conv_lhs => rw [eq_signed num,eq_signed den,signed_tmod]
  have hN := Nat.div_add_mod num.natAbs den.natAbs
  have hlt := Nat.mod_lt num.natAbs hD
  generalize num.natAbs/den.natAbs = Q at hdiv hN ⊢
  generalize num.natAbs%den.natAbs = R at hmod hN hlt
  have hD' : (0 : ℚ) < den.natAbs := by exact_mod_cast hD
  have habs : |num.tmod den| = R := by
    rw [hmod,signed]
    split <;> simp
  have hx : (num : ℚ)/den = if (decide (num < 0) != decide (den < 0)) then -(Q+R/den.natAbs : ℚ)
      else Q+R/den.natAbs := by
    have hsplit : (Q+R/den.natAbs : ℚ) = num.natAbs/den.natAbs := by
      rw [eq_div_iff hD'.ne',add_mul,div_mul_cancel₀ _ hD'.ne',← hN]
      push_cast
      ring
    have hcast : ∀ v : Int, (v : ℚ) = if v < 0 then -(v.natAbs : ℚ) else v.natAbs := by
      intro v
      conv_lhs => rw [eq_signed v,signed]
      split <;> simp_all
    rw [hsplit,hcast num,hcast den]
    by_cases h1 : num < 0 <;> by_cases h2 : den < 0 <;> simp [h1,h2,neg_div,div_neg]
  generalize (decide (num < 0) != decide (den < 0)) = neg at h hdiv hx
  rw [increment] at h
  split at h
  · cases h
  rename_i b hb
  cases h
  have hzero : num.tmod den = 0 ↔ R = 0 := by
    rw [hmod,signed]
    split <;> omega
  have hodd : num.tdiv den%2 = 1 ↔ Q%2 = 1 := by
    rw [hdiv,signed]
    split <;> omega
  rw [Int.abs_eq_natAbs den] at hb
  have hinc := increments_of_needs hlt (by simpa using habs) hzero hodd hb
  have hsum : num.tdiv den+(if b then if neg then -1 else 1 else 0) = if neg then
      -(Q+if b then 1 else 0 : ℤ) else (Q+if b then 1 else 0 : ℤ) := by
    rw [hdiv,signed]
    cases neg <;> cases b <;> simp
    ring
  refine ⟨hinc.roundsTo (by positivity) ?_ hx hsum,?_⟩
  · rw [div_lt_one hD']
    exact_mod_cast hlt
  rw [hsum]
  cases neg <;> cases b <;> simp only [if_true,if_false,Bool.false_eq_true] <;> omega

end

section
variable {v : Int} {mode : Mode} {p : Nat}

/-- Dropping all digits of a value but `p` leaves `p` of them, or the power of ten after a carry. -/
theorem divideAndRoundTenPow_spec {drop : Nat} (hp : 0 < p) (hdrop : 0 < drop) (hv : digitCount v = p+drop) {q : Int}
    (h : divideAndRoundTenPow v drop mode = .ok q) :
    RoundsTo mode ((v : ℚ)/10^drop) q ∧ 10^(p-1) ≤ q.natAbs ∧ q.natAbs ≤ 10^p := by
  have hpow : (0 : Int) < 10^drop := by positivity
  have hlo : 10^(p+drop-1) ≤ v.natAbs := by
    by_contra hlt
    have := (digitCount_le (show 0 < p+drop-1 by omega)).mpr (Nat.lt_of_not_le hlt)
    omega
  have hhi : v.natAbs < 10^(p+drop) := (digitCount_le (by omega)).mp (by omega)
  rw [show p+drop-1 = p-1+drop by omega,pow_add] at hlo
  rw [pow_add] at hhi
  rw [divideAndRoundTenPow] at h
  cases hpc : powTenCheck drop with
  | error e =>
    rw [hpc] at h
    cases h
  | ok u => ?_
  rw [hpc,Int.toNat_natCast] at h
  dsimp only [bind,Except.bind] at h
  split at h
  · cases h
  rename_i inc hinc
  cases h
  have hsign : decide (v < 0) = (decide (v < 0) != decide ((10 : Int)^drop < 0)) := by
    simp [Int.not_lt.mpr hpow.le]
  rw [hsign] at hinc
  nth_rewrite 2 [← abs_of_pos hpow] at hinc
  obtain ⟨hr,hq⟩ := increment_roundsTo hpow.ne' hinc
  have hten : ((10 : Int)^drop).natAbs = 10^drop := by rw [Int.natAbs_pow]; rfl
  have h1 := (Nat.le_div_iff_mul_le (Nat.pow_pos (show 0 < 10 by omega))).mpr hlo
  have h2 := (Nat.div_lt_iff_lt_mul (Nat.pow_pos (show 0 < 10 by omega))).mpr hhi
  rw [hten] at hq
  refine ⟨by exact_mod_cast hr,?_,?_⟩ <;> rcases hq with hq | hq <;> omega

/-- The end of `bd_round_to_precision`: a carry out of all nines costs one digit more. -/
def afterCarry (p : Nat) (q scale : Int) : Except Failure (Int × Int) :=
  if digitCount q > p then do
    let scale ← checkScaleNonZero (scale-1)
    return (q.tdiv 10,scale)
  else return (q,scale)

theorem roundToPrecision_eq {upper : Int → Int} (hupper : ∀ u, digitCount u ≤ upper u) (hp : 0 < p) (scale : Int) :
    roundToPrecision upper v scale p mode = if digitCount v ≤ p then .ok (v,scale) else
      checkScaleNonZero (scale-(digitCount v-p)) >>= fun newScale =>
        divideAndRoundTenPow v (digitCount v-p) mode >>= fun q => afterCarry p q newScale := by
  have hle := hupper v
  have hzero : v = 0 → digitCount v ≤ p := by
    rintro rfl
    exact (digitCount_le hp).mpr (by simp)
  rw [roundToPrecision]
  by_cases hfit : digitCount v ≤ p
  · rw [if_pos hfit,if_pos hfit]
    split_ifs <;> rfl
  rw [if_neg (by omega),if_neg (by omega),if_neg hfit,if_neg hfit]
  dsimp only
  congr 1
  funext newScale
  rw [divideAndRoundTenPow]
  cases powTenCheck (digitCount v-p) with
  | error e => rfl
  | ok u =>
    dsimp only [bind,Except.bind]
    split <;> rfl

theorem eq_of_checkScaleNonZero {v s : Int} (h : checkScaleNonZero v = .ok s) : s = v := by
  rw [checkScaleNonZero] at h
  split at h
  · rename_i heq
    cases h
    exact heq
  · cases h

/-- Only the power of ten after a carry has a digit too many. -/
theorem carry_spec (hp : 0 < p) {q : Int} (hhi : q.natAbs ≤ 10^p) (h : digitCount q > p) :
    q.natAbs = 10^p ∧ digitCount q-p = 1 ∧ 10 ∣ q := by
  have hq : q.natAbs = 10^p := by
    by_contra hne
    have := (digitCount_le hp).mpr (show q.natAbs < 10^p by omega)
    omega
  have hcount := digitCount_eq (u := q) (p := p) (by omega) (by rw [hq]; exact Nat.pow_lt_pow_right (by omega) (by omega))
  refine ⟨hq,by omega,Int.natAbs_dvd_natAbs.mp ?_⟩
  rw [hq]
  exact dvd_pow_self 10 (by omega)

theorem divideAndRoundTenPow_one {q : Int} (h : 10 ∣ q) : divideAndRoundTenPow q 1 mode = .ok (q.tdiv 10) := by
  have hinc : ∀ neg, increment 0 10 (q.tdiv 10) neg mode = .ok 0 := fun neg => rfl
  change (increment (q.tmod 10) 10 (q.tdiv 10) _ mode >>= fun inc => .ok (q.tdiv 10+inc)) = _
  rw [Int.tmod_eq_zero_of_dvd h,hinc]
  simp [bind,Except.bind]

theorem digitCount_tdiv (hp : 0 < p) {q : Int} (hq : q.natAbs = 10^p) : digitCount (q.tdiv 10) ≤ p := by
  rw [digitCount_le hp,Int.natAbs_tdiv,hq]
  exact Nat.div_lt_self (Nat.pow_pos (by omega)) (by decide)

theorem afterCarry_spec (hp : 0 < p) {q scale r s : Int} (hhi : q.natAbs ≤ 10^p)
    (h : afterCarry p q scale = .ok (r,s)) :
    digitCount r ≤ p ∧ (r : ℚ)*10^(-s) = q*10^(-scale) := by
  rw [afterCarry] at h
  split at h
  · rename_i hcarry
    obtain ⟨hq,-,hdvd⟩ := carry_spec hp hhi hcarry
    cases hs : checkScaleNonZero (scale-1) with
    | error e =>
      rw [hs] at h
      cases h
    | ok s' => ?_
    rw [hs] at h
    have hs' := eq_of_checkScaleNonZero hs
    cases h
    refine ⟨digitCount_tdiv hp hq,?_⟩
    rw [hs']
    conv_rhs => rw [← Int.mul_tdiv_cancel' hdvd]
    rw [show -(scale-1) = 1+-scale by ring,zpow_add₀ (by norm_num),zpow_one]
    push_cast
    ring
  cases h
  exact ⟨by omega,rfl⟩

/-- The plan with a result, or the error. -/
def settled (keeps compact : Bool) : Except Failure (Int × Int) → Except Failure Plan
  | .error e => .error e
  | .ok (r,s) => .ok ⟨s,digitCount r,some r,keeps,compact⟩

theorem passes_done {mcp : Int} {inflated : Bool} {fuel : Nat} {plan : Plan} (h : plan.prec ≤ mcp) :
    passes v mcp mode inflated (fuel+1) plan = .ok plan := by
  rw [passes,if_neg (by omega)]

/-- After the first division a loop ends, or it drops the digit of a carry and then ends. -/
theorem passes_settled (hp : 0 < p) {q scale : Int} (hhi : q.natAbs ≤ 10^p) (inflated keeps compact : Bool) (fuel : Nat) :
    ∃ keeps' compact', passes v p mode inflated (fuel+2) ⟨scale,digitCount q,some q,keeps,compact⟩ =
      settled keeps' compact' (afterCarry p q scale) := by
  rw [afterCarry]
  by_cases hcarry : digitCount q > p
  · obtain ⟨hq,hone,hdvd⟩ := carry_spec hp hhi hcarry
    rw [if_pos hcarry,passes,if_pos (by dsimp only; omega)]
    dsimp only
    rw [hone,Option.getD_some,divideAndRoundTenPow_one hdvd]
    cases checkScaleNonZero (scale-1) with
    | error e => exact ⟨keeps,compact,rfl⟩
    | ok s => ?_
    dsimp only [bind,Except.bind]
    split
    · exact ⟨_,_,rfl⟩
    rw [passes_done (digitCount_tdiv hp hq)]
    exact ⟨_,_,rfl⟩
  rw [if_neg hcarry,passes_done (by dsimp only; omega)]
  exact ⟨keeps,compact,rfl⟩

/-- The answer of a plan that has ended. -/
def answer (keeps : Bool) : Except Failure (Int × Int) → Except Failure DoRound
  | .error e => .error e
  | .ok (r,s) => .ok (.fresh r s (digitCount r) keeps)

theorem doRoundPlan_eq {upper : Int → Int} (hupper : ∀ u, digitCount u ≤ upper u) (hp : 0 < p) (scale : Int)
    (inflated : Bool) {fuel : Nat} (hfuel : 3 ≤ fuel) :
    if digitCount v ≤ p then doRoundPlan fuel v scale inflated p mode = .ok .receiver
    else ∃ keeps, doRoundPlan fuel v scale inflated p mode = answer keeps (roundToPrecision upper v scale p mode) := by
  obtain ⟨fuel,rfl⟩ : ∃ k, fuel = k+3 := ⟨fuel-3,by omega⟩
  have hplan : doRoundPlan (fuel+3) v scale inflated p mode = if inflated then
      passes v p mode true (fuel+3) ⟨scale,digitCount v,none,false,false⟩ >>= fun plan =>
        (if plan.compact then passes v p mode false (fuel+3) plan else .ok plan) >>= fun plan => .ok plan.finish
      else passes v p mode false (fuel+3) ⟨scale,digitCount v,none,false,true⟩ >>= fun plan => .ok plan.finish := by
    rw [doRoundPlan,if_neg (by omega)]
    cases inflated <;> rfl
  by_cases hfit : digitCount v ≤ p
  · rw [if_pos hfit,hplan,passes_done hfit,passes_done hfit]
    cases inflated <;> rfl
  rw [if_neg hfit,roundToPrecision_eq hupper hp,if_neg hfit]
  obtain ⟨drop,hdrop⟩ : ∃ k : Nat, digitCount v-p = k := ⟨(digitCount v-p).toNat,by omega⟩
  have hpass : ∀ inflated compact, passes v p mode inflated (fuel+3) ⟨scale,digitCount v,none,false,compact⟩ =
      (checkScaleNonZero (scale-drop) >>= fun s => divideAndRoundTenPow v drop mode >>= fun q =>
        if inflated && isCompact q then .ok ⟨s,digitCount q,some q,inflated,true⟩
        else passes v p mode inflated (fuel+2) ⟨s,digitCount q,some q,inflated,compact⟩) := by
    intro inflated compact
    rw [passes,if_pos (by dsimp only; omega)]
    dsimp only
    rw [hdrop]
    rfl
  rw [hdrop,hplan,hpass,hpass]
  cases checkScaleNonZero (scale-drop) with
  | error e => exact ⟨false,by cases inflated <;> rfl⟩
  | ok s => ?_
  cases hq : divideAndRoundTenPow v drop mode with
  | error e => exact ⟨false,by cases inflated <;> rfl⟩
  | ok q => ?_
  have hhi := (divideAndRoundTenPow_spec hp (by omega) (by omega) hq).2.2
  change ∃ keeps, _ = answer keeps (afterCarry p q s)
  dsimp only [bind,Except.bind]
  cases inflated with
  | false =>
    obtain ⟨keeps,compact,hrest⟩ := @passes_settled v mode p hp q s hhi false false true fuel
    refine ⟨keeps,?_⟩
    rw [if_neg (by simp),if_neg (by simp),hrest]
    cases afterCarry p q s <;> rfl
  | true => ?_
  rw [if_pos rfl]
  by_cases hc : isCompact q = true
  · -- the loop for inflated values is left early, and the other one drops a carry
    obtain ⟨keeps,compact,hrest⟩ := @passes_settled v mode p hp q s hhi false true true (fuel+1)
    refine ⟨keeps,?_⟩
    rw [if_pos (by simpa using hc)]
    dsimp only
    rw [if_pos rfl,hrest]
    cases afterCarry p q s <;> rfl
  obtain ⟨keeps,compact,hrest⟩ := @passes_settled v mode p hp q s hhi true true false fuel
  refine ⟨keeps,?_⟩
  rw [if_neg (by simpa using hc),hrest]
  cases hr : afterCarry p q s with
  | error e => rfl
  | ok rs =>
    dsimp only [settled]
    rw [passes_done (afterCarry_spec hp hhi hr).1,ite_self]
    rfl

theorem digitCount_bounds (v : Int) : (|v| : ℚ) < 10^digitCount v ∧ (v ≠ 0 → 10^(digitCount v-1) ≤ (|v| : ℚ)) := by
  have habs : (|v| : ℚ) = v.natAbs := by rw [Nat.cast_natAbs,Int.cast_abs]
  rw [digitCount,habs,add_sub_cancel_right,zpow_add_one₀ (by norm_num),zpow_natCast]
  refine ⟨?_,fun h => ?_⟩
  · exact_mod_cast (pow_succ 10 (Nat.log 10 v.natAbs)) ▸ Nat.lt_pow_succ_log_self (by omega) v.natAbs
  · exact_mod_cast Nat.pow_log_le_self 10 (Int.natAbs_ne_zero.mpr h)

/-- Rounding at the place of digit `p` is rounding to `p` significant digits. -/
theorem roundsToPrecision_of {n : Int} (scale : Int) (hn : RoundsTo mode (v*10^(p-digitCount v)) n) :
    RoundsToPrecision p mode (v*10^(-scale)) (n*10^(digitCount v-p-scale)) := by
  obtain ⟨hhi,hlo⟩ := digitCount_bounds v
  have hten : (10 : ℚ) ≠ 0 := by norm_num
  have hpos : (0 : ℚ) < 10^(-scale) := zpow_pos (by norm_num) _
  have habs : |(v : ℚ)*10^(-scale)| = |(v : ℚ)| * 10^(-scale) := by rw [abs_mul,abs_of_pos hpos]
  refine ⟨digitCount v-p-scale,n,?_,?_,?_,rfl⟩
  · rw [habs,← zpow_add₀ hten,show (p : ℤ)+(digitCount v-p-scale) = digitCount v+-scale by ring,zpow_add₀ hten]
    exact mul_lt_mul_of_pos_right hhi hpos
  · rcases eq_or_ne v 0 with rfl | hv
    · exact .inl (by simp)
    refine .inr ?_
    rw [habs,← zpow_add₀ hten,show (p : ℤ)-1+(digitCount v-p-scale) = digitCount v-1+-scale by ring,zpow_add₀ hten]
    exact mul_le_mul_of_nonneg_right (hlo hv) hpos.le
  rw [mul_div_assoc,← zpow_sub₀ hten,show -scale-(digitCount v-p-scale) = p-digitCount v by ring]
  exact hn

theorem roundsToPrecision_self (hfit : digitCount v ≤ p) (scale : Int) :
    RoundsToPrecision p mode (v*10^(-scale)) (v*10^(-scale)) := by
  obtain ⟨k,hk⟩ : ∃ k : Nat, p-digitCount v = k := ⟨(p-digitCount v).toNat,by omega⟩
  have hself := @roundsToPrecision_of v mode p (v*10^k) scale (by
    rw [hk,zpow_natCast]
    exact_mod_cast roundsTo_self mode (v*10^k))
  rwa [show digitCount v-p-scale = -scale-k by omega,zpow_sub₀ (by norm_num),Int.cast_mul,Int.cast_pow,zpow_natCast,
    mul_assoc,Int.cast_ofNat,mul_div_cancel₀ _ (by positivity)] at hself

/-- `bd_round_to_precision` rounds to `p` significant digits and its result stays as it is; `bd_do_round_plan` answers
the receiver when no digit is dropped, and what `bd_round_to_precision` answers otherwise. -/
theorem rounding_correct {upper : Int → Int} (hupper : ∀ u, digitCount u ≤ upper u) (hp : 0 < p) (scale : Int) :
    (∀ r s, roundToPrecision upper v scale p mode = .ok (r,s) → digitCount r ≤ p ∧
      (digitCount v ≤ p → r = v ∧ s = scale) ∧ RoundsToPrecision p mode (v*10^(-scale)) (r*10^(-s)) ∧
      ∀ mode', roundToPrecision upper r s p mode' = .ok (r,s)) ∧
    ∀ inflated fuel, 3 ≤ fuel → if digitCount v ≤ p then doRoundPlan fuel v scale inflated p mode = .ok .receiver
      else ∃ keeps, doRoundPlan fuel v scale inflated p mode =
        answer keeps (roundToPrecision upper v scale p mode) := by
  refine ⟨fun r s h => ?_,fun inflated fuel hfuel => doRoundPlan_eq hupper hp scale inflated hfuel⟩
  have hagain : digitCount r ≤ p → ∀ mode', roundToPrecision upper r s p mode' = .ok (r,s) := by
    intro hr mode'
    rw [roundToPrecision_eq hupper hp,if_pos hr]
  rw [roundToPrecision_eq hupper hp] at h
  split at h
  · rename_i hfit
    cases h
    exact ⟨hfit,fun _ => ⟨rfl,rfl⟩,roundsToPrecision_self hfit scale,hagain hfit⟩
  rename_i hfit
  obtain ⟨drop,hdrop⟩ : ∃ k : Nat, digitCount v-p = k := ⟨(digitCount v-p).toNat,by omega⟩
  rw [hdrop] at h
  cases hs : checkScaleNonZero (scale-drop) with
  | error e =>
    rw [hs] at h
    cases h
  | ok s1 => ?_
  cases hq : divideAndRoundTenPow v drop mode with
  | error e =>
    rw [hs,hq] at h
    cases h
  | ok q => ?_
  rw [hs,hq] at h
  obtain ⟨hround,-,hhi⟩ := divideAndRoundTenPow_spec hp (by omega) (by omega) hq
  obtain ⟨hr,hval⟩ := afterCarry_spec hp hhi h
  refine ⟨hr,fun hle => absurd hle hfit,?_,hagain hr⟩
  rw [hval,eq_of_checkScaleNonZero hs,show -(scale-drop) = digitCount v-p-scale by omega]
  refine roundsToPrecision_of scale ?_
  rwa [show p-digitCount v = -(drop : ℤ) by omega,zpow_neg,zpow_natCast,← div_eq_mul_inv]

theorem rounding_correct_carry : (∀ mode', roundToPrecision digitCount 100 0 3 mode' = .ok (100,0)) ∧
    RoundsToPrecision 3 .halfUp ((99951 : Int)*10^(-(2 : Int))) ((100 : Int)*10^(-(-1 : Int))) := by
  obtain ⟨-,-,hround,-⟩ := (@rounding_correct 99951 .halfUp 3 digitCount (fun u => Int.le_refl _) (by decide) 2).1 100 (-1)
    (by decide)
  obtain ⟨-,-,-,hagain⟩ := (@rounding_correct 100 .halfUp 3 digitCount (fun u => Int.le_refl _) (by decide) 0).1 100 0
    (by decide)
  exact ⟨hagain,hround⟩

end
end CratonVM.BigDecimal
