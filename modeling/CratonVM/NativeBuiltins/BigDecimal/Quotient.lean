import CratonVM.Lib.ByteReader
import CratonVM.NativeBuiltins.BigDecimal.Rounding

/-!
Division of `BigDecimal` with a `MathContext` (`native-builtins/src/math_bignum.rs`): one integer division whose
quotient has as many digits as the precision asks for.
-/
namespace CratonVM.BigDecimal
open DecimalRounding Outcome

def divideZeroCheck (ua ub : Int) : Except Failure Unit :=
  if ub ≠ 0 then .ok ()
  else .error (.arithmetic (if ua = 0 then "Division undefined" else "Division by zero"))

def saturateI64ToI32 (v : Int) : Int :=
  if v > 2^31-1 then 2^31-1 else if v < -2^31 then -2^31 else v

/-- The loop of `bd_exact_divide_core`: one digit more of the remainder at a time. -/
def exactDigits (ub : Int) : (left : Nat) → (q r scale : Int) → Except Failure (Int × Int)
  | 0, _, _, _ =>
    .error (.arithmetic "Non-terminating decimal expansion; no exact representable decimal result.")
  | left+1, q, r, scale =>
    if scale = 2^31-1 then .error (.arithmetic "Underflow")
    else
      let q := q*10+(r*10).tdiv ub
      let r := (r*10).tmod ub
      if r = 0 then .ok (q,scale+1) else exactDigits ub left q r (scale+1)

def exactDivideCore (ua sa ub sb : Int) : Except Failure (Int × Int) := do
  divideZeroCheck ua ub
  let preferredScale := saturateI64ToI32 (sa-sb)
  if ua = 0 then return (0,preferredScale)
  else if ua.tmod ub = 0 then return (ua.tdiv ub,preferredScale)
  else exactDigits ub (ub.natAbs.size+1) (ua.tdiv ub) (ua.tmod ub) preferredScale

/-- A loop of `bd_strip_zeros_to_scale`, which drops `k` zeros in each of its turns. -/
def stripBy (k : Nat) (preferred : Int) : (turns : Nat) → (q scale : Int) → Int × Int
  | 0, q, scale => (q,scale)
  | turns+1, q, scale =>
    if scale-preferred ≥ k ∧ q.tmod (10^k) = 0 then stripBy k preferred turns (q.tdiv (10^k)) (scale-k)
    else (q,scale)

def stripZerosToScale (q scale preferred : Int) : Int × Int :=
  if q = 0 then (q,scale)
  else
    let (q,scale) := stripBy 9 preferred (scale-preferred).toNat q scale
    stripBy 1 preferred (scale-preferred).toNat q scale

/-- Is the dividend above the divisor when both are read as fractions below one? -/
def xAboveY (ua ub xprec yprec : Int) : Bool :=
  if xprec ≥ yprec then |ua| > |ub| * 10^(xprec-yprec).toNat
  else |ua| * 10^(yprec-xprec).toNat > |ub|

/-- The operands of the one division, the scale of its quotient and the scale that is preferred. -/
structure Operands where
  num : Int
  den : Int
  scl : Int
  preferred : Int

def operands (ua sa ub sb mcp : Int) : Except Failure Operands := do
  let xprec := digitCount ua
  let yprec := if xAboveY ua ub xprec (digitCount ub) then digitCount ub-1 else digitCount ub
  let scl ← checkScaleNonZero (sa-sb+yprec-xprec+mcp)
  let raise ← checkScaleNonZero (mcp+yprec-xprec)
  let (num,den) ← (if raise > 0 then do
      powTenCheck raise
      return (ua*10^raise.toNat,ub)
    else do
      let newScale ← checkScaleNonZero (xprec-mcp)
      let raiseY ← checkScaleNonZero (newScale-yprec)
      powTenCheck raiseY
      return (ua,ub*10^raiseY.toNat))
  let preferred ← checkScaleNonZero (sa-sb)
  return ⟨num,den,scl,preferred⟩

def divideRoundCoreOneshot (upper : Int → Int) (ua sa ub sb targetPrecision : Int) (mode : Mode) :
    Except Failure (Int × Int) := do
  divideZeroCheck ua ub
  if ua = 0 then return (0,saturateI64ToI32 (sa-sb))
  else if targetPrecision ≤ 0 then exactDivideCore ua sa ub sb
  else
    let o ← operands ua sa ub sb targetPrecision
    let q := o.num.tdiv o.den
    let r := o.num.tmod o.den
    if r = 0 then
      let (q,s) := stripZerosToScale q o.scl o.preferred
      roundToPrecision upper q s targetPrecision mode
    else
      let inc ← increment r |o.den| q (decide (ua < 0) != decide (ub < 0)) mode
      roundToPrecision upper (q+inc) o.scl targetPrecision mode

/-- Does a decimal of at most `p` digits have the value `x`? -/
def Representable (p : Nat) (x : ℚ) : Prop := ∃ r s : Int, digitCount r ≤ p ∧ x = r*10^(-s)

/-- What stripping leaves: the same value, at the preferred scale or without a zero at its end. -/
structure Stripped (k : Nat) (preferred q scale r s : Int) : Prop where
  dropped : ∃ j : Nat, s = scale-j ∧ q = r*10^j ∧ (j = 0 ∨ preferred ≤ s)
  ends : s-preferred < k ∨ ¬(10^k : Int) ∣ r

theorem stripBy_spec {k : Nat} (hk : 0 < k) (preferred : Int) :
    ∀ {turns : Nat} {q scale : Int}, scale-preferred ≤ turns →
      Stripped k preferred q scale (stripBy k preferred turns q scale).1 (stripBy k preferred turns q scale).2
  | 0, q, scale, h => ⟨⟨0,by simp [stripBy]⟩,.inl (by simp only [stripBy]; omega)⟩
  | turns+1, q, scale, h => by
    rw [stripBy]
    split
    · rename_i hgo
      obtain ⟨⟨j,hs,hq,hj⟩,hends⟩ := @stripBy_spec k hk preferred turns (q.tdiv (10^k)) (scale-k) (by omega)
      refine ⟨⟨j+k,by omega,?_,.inr (by omega)⟩,hends⟩
      rw [pow_add,← mul_assoc,← hq]
      exact (Int.tdiv_mul_cancel (Int.dvd_of_tmod_eq_zero hgo.2)).symm
    rename_i hstop
    refine ⟨⟨0,by simp⟩,?_⟩
    by_contra hgo
    rw [not_or,not_lt,not_not] at hgo
    exact hstop ⟨hgo.1,Int.tmod_eq_zero_of_dvd hgo.2⟩

theorem stripZerosToScale_spec {q scale preferred : Int} (hq : q ≠ 0) :
    Stripped 1 preferred q scale (stripZerosToScale q scale preferred).1 (stripZerosToScale q scale preferred).2 := by
  rw [stripZerosToScale,if_neg hq]
  obtain ⟨⟨j,hs,hv,hj⟩,-⟩ := @stripBy_spec 9 (by omega) preferred (scale-preferred).toNat q scale (by omega)
  dsimp only
  generalize stripBy 9 preferred (scale-preferred).toNat q scale = mid at hs hv hj ⊢
  obtain ⟨⟨i,hs',hv',hi⟩,hends⟩ :=
    @stripBy_spec 1 (by omega) preferred (mid.2-preferred).toNat mid.1 mid.2 (by omega)
  refine ⟨⟨i+j,by omega,?_,by omega⟩,hends⟩
  rw [pow_add,← mul_assoc,← hv',hv]

section
variable {ua ub sa sb : Int} {p : Nat} {mode : Mode}

theorem xAboveY_iff {xprec yprec : Int} :
    xAboveY ua ub xprec yprec = true ↔ |(ub : ℚ)| < |(ua : ℚ)| * 10^(yprec-xprec) := by
  rw [xAboveY]
  split
  · obtain ⟨k,hk⟩ : ∃ k : Nat, xprec-yprec = k := ⟨(xprec-yprec).toNat,by omega⟩
    rw [show yprec-xprec = -(k : ℤ) by omega,hk,Int.toNat_natCast,decide_eq_true_eq,zpow_neg,zpow_natCast,
      ← div_eq_mul_inv,lt_div_iff₀ (by positivity)]
    exact_mod_cast Iff.rfl
  obtain ⟨k,hk⟩ : ∃ k : Nat, yprec-xprec = k := ⟨(yprec-xprec).toNat,by omega⟩
  rw [hk,Int.toNat_natCast,decide_eq_true_eq,zpow_natCast]
  exact_mod_cast Iff.rfl

/-- The quotient of the operands is `x` at its scale, above `10^(p-1)` and up to `10^p`. -/
structure Normal (p : Nat) (x : ℚ) (o : Operands) : Prop where
  den : o.den ≠ 0
  value : (o.num : ℚ)/o.den = x*10^o.scl
  above : 10^(p-1)*o.den.natAbs < o.num.natAbs
  below : o.num.natAbs ≤ 10^p*o.den.natAbs

theorem normal_of {a b : Nat} {yprec : Int} (hub : ub ≠ 0) (hp : 0 < p)
    (hlo : |(ub : ℚ)| < |(ua : ℚ)| * 10^(1+yprec-digitCount ua)) (hhi : |(ua : ℚ)| * 10^(yprec-digitCount ua) ≤ |(ub : ℚ)|)
    (hab : (a : Int)-b = p+yprec-digitCount ua) (preferred : Int) :
    Normal p ((ua/ub : ℚ)*10^(sb-sa)) ⟨ua*10^a,ub*10^b,sa-sb+yprec-digitCount ua+p,preferred⟩ := by
  have hten : (10 : ℚ) ≠ 0 := by norm_num
  have habs : ∀ v : Int, (v.natAbs : ℚ) = |(v : ℚ)| := fun v => by rw [Nat.cast_natAbs,Int.cast_abs]
  have hmag : ∀ (v : Int) (k : Nat), (v*10^k).natAbs = v.natAbs*10^k := fun v k => by
    rw [Int.natAbs_mul,Int.natAbs_pow]
    rfl
  refine ⟨mul_ne_zero hub (by positivity),?_,?_,?_⟩
  · rw [mul_assoc,← zpow_add₀ hten,show sb-sa+(sa-sb+yprec-digitCount ua+p) = a-b by omega,zpow_sub₀ hten,
      zpow_natCast,zpow_natCast]
    push_cast
    rw [mul_div_mul_comm]
  · rw [hmag,hmag,← @Nat.cast_lt ℚ]
    push_cast
    rw [habs,habs]
    calc (10^(p-1)*(|(ub : ℚ)| * 10^b) : ℚ) = |(ub : ℚ)| * 10^(p-1+b) := by rw [pow_add]; ring
      _ < |(ua : ℚ)| * 10^(1+yprec-digitCount ua)*10^(p-1+b) := mul_lt_mul_of_pos_right hlo (by positivity)
      _ = |(ua : ℚ)| * 10^a := by
        rw [mul_assoc,← zpow_natCast 10 (p-1+b),← zpow_add₀ hten,← zpow_natCast 10 a]
        congr 2
        omega
  rw [hmag,hmag,← @Nat.cast_le ℚ]
  push_cast
  rw [habs,habs]
  calc |(ua : ℚ)| * 10^a = |(ua : ℚ)| * 10^(yprec-digitCount ua)*10^(p+b) := by
        rw [mul_assoc,← zpow_natCast 10 (p+b),← zpow_add₀ hten,← zpow_natCast 10 a]
        congr 2
        omega
    _ ≤ |(ub : ℚ)| * 10^(p+b) := mul_le_mul_of_nonneg_right hhi (by positivity)
    _ = 10^p*(|(ub : ℚ)| * 10^b) := by rw [pow_add]; ring

/-- The scale of the divisor goes down by one when the dividend is above it, so that the quotient of the two
fractions is above one tenth and at most one. -/
theorem normalized (hua : ua ≠ 0) (hub : ub ≠ 0) {yprec : Int} (hy : yprec =
    if xAboveY ua ub (digitCount ua) (digitCount ub) then digitCount ub-1 else digitCount ub) :
    |(ub : ℚ)| < |(ua : ℚ)| * 10^(1+yprec-digitCount ua) ∧ |(ua : ℚ)| * 10^(yprec-digitCount ua) ≤ |(ub : ℚ)| := by
  have hten : (10 : ℚ) ≠ 0 := by norm_num
  obtain ⟨hx1,hx0⟩ := digitCount_bounds ua
  obtain ⟨hy1,hy0⟩ := digitCount_bounds ub
  have hpos : ∀ e : Int, (0 : ℚ) < 10^e := fun e => zpow_pos (by norm_num) e
  split at hy
  · rename_i habove
    rw [hy]
    refine ⟨by rw [show 1+(digitCount ub-1)-digitCount ua = digitCount ub-digitCount ua by ring]; exact
      xAboveY_iff.mp habove,le_trans ?_ (hy0 hub)⟩
    rw [zpow_sub₀ hten,mul_div_assoc',div_le_iff₀ (hpos _),mul_comm]
    exact mul_le_mul_of_nonneg_left hx1.le (hpos _).le
  rename_i hnot
  rw [hy]
  refine ⟨lt_of_lt_of_le hy1 ?_,not_lt.mp (mt xAboveY_iff.mpr hnot)⟩
  calc (10 : ℚ)^digitCount ub = 10^(digitCount ua-1)*10^(1+digitCount ub-digitCount ua) := by
        rw [← zpow_add₀ hten]
        congr 1
        ring
    _ ≤ |(ua : ℚ)| * 10^(1+digitCount ub-digitCount ua) := mul_le_mul_of_nonneg_right (hx0 hua) (hpos _).le

theorem operands_spec {o : Operands} (hua : ua ≠ 0) (hub : ub ≠ 0) (hp : 0 < p)
    (h : operands ua sa ub sb p = .ok o) : Normal p ((ua/ub : ℚ)*10^(sb-sa)) o ∧ o.preferred = sa-sb ∧
      decide (o.num < 0) = decide (ua < 0) ∧ decide (o.den < 0) = decide (ub < 0) := by
  have hsign : ∀ (v : Int) (k : Nat), decide (v*10^k < 0) = decide (v < 0) := fun v k => by
    rw [decide_eq_decide]
    exact lt_iff_lt_of_le_iff_le (mul_nonneg_iff_of_pos_right (by positivity))
  rw [operands] at h
  dsimp only at h
  obtain ⟨yprec,hy⟩ : ∃ y, y = if xAboveY ua ub (digitCount ua) (digitCount ub) then digitCount ub-1
    else digitCount ub := ⟨_,rfl⟩
  obtain ⟨hlo,hhi⟩ := normalized hua hub hy
  rw [← hy] at h
  obtain ⟨scl,hs,h⟩ := bind_eq_ok.mp h
  obtain ⟨raise,hr,h⟩ := bind_eq_ok.mp h
  obtain ⟨⟨num,den⟩,hnd,h⟩ := bind_eq_ok.mp h
  obtain ⟨preferred,hpref,h⟩ := bind_eq_ok.mp h
  have hr := eq_of_checkScaleNonZero hr
  obtain rfl := eq_of_checkScaleNonZero hs
  obtain rfl := eq_of_checkScaleNonZero hpref
  cases h
  split at hnd
  · obtain ⟨-,-,hnd⟩ := bind_eq_ok.mp hnd
    cases hnd
    have hnormal := @normal_of ua ub sa sb p raise.toNat 0 yprec hub hp hlo hhi (by omega) (sa-sb)
    rw [pow_zero,mul_one] at hnormal
    exact ⟨hnormal,rfl,hsign _ _,rfl⟩
  obtain ⟨newScale,hn,hnd⟩ := bind_eq_ok.mp hnd
  obtain ⟨raiseY,hry,hnd⟩ := bind_eq_ok.mp hnd
  obtain ⟨-,-,hnd⟩ := bind_eq_ok.mp hnd
  have hn := eq_of_checkScaleNonZero hn
  have hry := eq_of_checkScaleNonZero hry
  cases hnd
  have hnormal := @normal_of ua ub sa sb p 0 raiseY.toNat yprec hub hp hlo hhi (by omega) (sa-sb)
  rw [pow_zero,mul_one] at hnormal
  exact ⟨hnormal,rfl,rfl,hsign _ _⟩

theorem roundToPrecision_of_le {upper : Int → Int} (hupper : ∀ u, digitCount u ≤ upper u) (hp : 0 < p) {q : Int}
    (hhi : q.natAbs ≤ 10^p) (scale : Int) : roundToPrecision upper q scale p mode = afterCarry p q scale := by
  rw [roundToPrecision_eq hupper hp,afterCarry]
  split
  · rw [if_neg (by omega)]
    rfl
  obtain ⟨hq,hone,hdvd⟩ := carry_spec hp hhi (by omega)
  have hfit := digitCount_tdiv hp hq
  rw [if_pos (by omega),hone]
  simp only [divideAndRoundTenPow_one hdvd,ok_bind,afterCarry,if_neg (not_lt.mpr hfit)]

/-- A representation at a lower scale is one with zeros dropped. -/
theorem eq_mul_pow_of_le {q r s t : Int} (hts : t ≤ s) (h : (q : ℚ)*10^(-s) = r*10^(-t)) :
    q = r*10^(s-t).toNat := by
  obtain ⟨k,hk⟩ : ∃ k : Nat, s-t = k := ⟨(s-t).toNat,by omega⟩
  have hten : (10 : ℚ) ≠ 0 := by norm_num
  rw [show -t = k+-s by omega,zpow_add₀ hten,← mul_assoc,zpow_natCast] at h
  rw [hk,Int.toNat_natCast]
  exact_mod_cast mul_right_cancel₀ (zpow_ne_zero _ hten) h

section
variable {x : ℚ} {o : Operands} (hn : Normal p x o)
include hn

theorem Normal.quotient_bounds : 10^(p-1) ≤ (o.num.tdiv o.den).natAbs ∧ (o.num.tdiv o.den).natAbs ≤ 10^p := by
  have hD := Int.natAbs_pos.mpr hn.den
  rw [Int.natAbs_tdiv]
  exact ⟨(Nat.le_div_iff_mul_le hD).mpr hn.above.le,Nat.div_le_of_le_mul (by rw [mul_comm]; exact hn.below)⟩

theorem Normal.quotient_ne_zero : o.num.tdiv o.den ≠ 0 := by
  have := hn.quotient_bounds.1
  have := Nat.pow_pos (n := p-1) (show 0 < 10 by omega)
  omega

theorem Normal.quotient_lt (hr : o.num.tmod o.den ≠ 0) : o.num.natAbs < 10^p*o.den.natAbs := by
  refine lt_of_le_of_ne hn.below fun heq => hr (Int.tmod_eq_zero_of_dvd (Int.natAbs_dvd_natAbs.mp ?_))
  rw [heq]
  exact Nat.dvd_mul_left _ _

/-- The magnitude of `x` at its scale is that of the operands. -/
theorem Normal.abs_value : |x| * 10^o.scl = o.num.natAbs/o.den.natAbs := by
  have hpos : (0 : ℚ) < 10^o.scl := zpow_pos (by norm_num) _
  have h := congrArg abs hn.value
  rw [abs_div,abs_mul,abs_of_pos hpos] at h
  rw [← h,Nat.cast_natAbs,Nat.cast_natAbs,Int.cast_abs,Int.cast_abs]

/-- No representation has a scale above that of the quotient, nor that scale when the quotient is `10^p`. -/
theorem Normal.scale_lt {r t : Int} (hfit : digitCount r ≤ p) (hx : x = r*10^(-t)) {k : Int}
    (hk : (10 : ℚ)^k*o.den.natAbs ≤ o.num.natAbs) : t+k < p+o.scl := by
  have hten : (10 : ℚ) ≠ 0 := by norm_num
  have hD : (0 : ℚ) < o.den.natAbs := by exact_mod_cast Int.natAbs_pos.mpr hn.den
  have hlo : (10 : ℚ)^k ≤ |x| * 10^o.scl := by
    rw [hn.abs_value]
    exact (le_div_iff₀ hD).mpr hk
  have hhi : |(r : ℚ)| < 10^(p : Int) := by
    refine lt_of_lt_of_le (digitCount_bounds r).1 ?_
    exact zpow_le_zpow_right₀ (by norm_num) hfit
  have hpos : (0 : ℚ) < 10^(-t) := zpow_pos (by norm_num) _
  rw [hx,abs_mul,abs_of_pos hpos,mul_assoc,← zpow_add₀ hten] at hlo
  have hlt : (10 : ℚ)^k < 10^(p+(-t+o.scl)) := by
    refine lt_of_le_of_lt hlo ?_
    rw [zpow_add₀ hten (p : Int)]
    exact mul_lt_mul_of_pos_right hhi (zpow_pos (by norm_num) _)
  have := (zpow_lt_zpow_iff_right₀ (by norm_num)).mp hlt
  omega

theorem Normal.scale_le (hp : 0 < p) {r t : Int} (hfit : digitCount r ≤ p) (hx : x = r*10^(-t)) : t ≤ o.scl := by
  have := @Normal.scale_lt p x o hn r t hfit hx ((p-1 : Nat) : Int) (by
    rw [zpow_natCast]
    exact_mod_cast hn.above.le)
  omega

theorem Normal.exact (hr : o.num.tmod o.den = 0) : x = (o.num.tdiv o.den : Int)*10^(-o.scl) := by
  have hden : (o.den : ℚ) ≠ 0 := by exact_mod_cast hn.den
  have hv := hn.value
  rw [← Int.tdiv_mul_cancel (Int.dvd_of_tmod_eq_zero hr),Int.cast_mul,mul_div_cancel_right₀ _ hden] at hv
  rw [hv,zpow_neg,mul_assoc,mul_inv_cancel₀ (zpow_ne_zero _ (by norm_num)),mul_one]

/-- An exact quotient is given back at the nearest scale to the preferred one. -/
theorem Normal.nearest (hp : 0 < p) (hr : o.num.tmod o.den = 0) {preferred r s q t : Int}
    (hstrip : Stripped 1 preferred (o.num.tdiv o.den) o.scl r s) (h : afterCarry p r s = .ok (q,t)) :
    digitCount q ≤ p ∧ x = q*10^(-t) ∧ ∀ r' t', digitCount r' ≤ p → x = r'*10^(-t') →
      (t-preferred).natAbs ≤ (t'-preferred).natAbs := by
  obtain ⟨⟨j,hs,hq,hj⟩,hends⟩ := hstrip
  have hhi := hn.quotient_bounds.2
  have hten : ((10 : Int)^j).natAbs = 10^j := by rw [Int.natAbs_pow]; rfl
  have hj0 := Nat.pow_pos (n := j) (show 0 < 10 by omega)
  have hx := hn.exact hr
  have hquo : (o.num.tdiv o.den).natAbs = r.natAbs*10^j := by rw [hq,Int.natAbs_mul,hten]
  have hle : r.natAbs ≤ 10^p := (Nat.le_mul_of_pos_right _ hj0).trans (hquo ▸ hhi)
  rw [hq,show -o.scl = -s-j by omega,zpow_sub₀ (by norm_num),Int.cast_mul,Int.cast_pow,zpow_natCast,mul_assoc,
    Int.cast_ofNat,mul_div_cancel₀ _ (by positivity)] at hx
  obtain ⟨hfit,hval⟩ := afterCarry_spec hp hle h
  refine ⟨hfit,hx.trans hval.symm,fun r' t' hfit' hx' => ?_⟩
  have ht := hn.scale_le hp hfit' hx'
  have hlow : preferred < s → s ≤ t' := by
    intro hlt
    by_contra hgt
    refine hends.elim (by omega) fun hnd => hnd ?_
    rw [eq_mul_pow_of_le (show t' ≤ s by omega) (hx.symm.trans hx')]
    exact Dvd.dvd.mul_left (pow_dvd_pow _ (by omega)) r'
  rw [afterCarry] at h
  split at h
  · rename_i hcarry
    obtain ⟨hr10,-,hdvd⟩ := carry_spec hp hle hcarry
    obtain ⟨s',hs',h⟩ := bind_eq_ok.mp h
    obtain rfl := eq_of_checkScaleNonZero hs'
    cases h
    have hj1 : j = 0 := by
      by_contra hne
      have := Nat.mul_le_mul_left r.natAbs (Nat.le_self_pow hne 10)
      have := Nat.pow_pos (n := p) (show 0 < 10 by omega)
      omega
    have hpref : s ≤ preferred := hends.elim (fun h => by omega) fun hnd => absurd (by simpa using hdvd) hnd
    subst hj1
    have hdiv : o.num.natAbs/o.den.natAbs = 10^p := by rw [← hr10,← mul_one r.natAbs,← pow_zero 10,← hquo,Int.natAbs_tdiv]; rfl
    have := @Normal.scale_lt p x o hn r' t' hfit' hx' p (by
      rw [zpow_natCast]
      exact_mod_cast hdiv ▸ Nat.div_mul_le_self o.num.natAbs o.den.natAbs)
    omega
  cases h
  omega

theorem Normal.not_representable (hp : 0 < p) (hr : o.num.tmod o.den ≠ 0) : ¬Representable p x := by
  rintro ⟨r,t,hfit,hx⟩
  have hden : (o.den : ℚ) ≠ 0 := by exact_mod_cast hn.den
  obtain ⟨k,hk⟩ : ∃ k : Nat, o.scl-t = k := ⟨(o.scl-t).toNat,by have := hn.scale_le hp hfit hx; omega⟩
  have hv := hn.value
  rw [hx,mul_assoc,← zpow_add₀ (by norm_num),show -t+o.scl = k by omega,zpow_natCast,div_eq_iff hden] at hv
  refine hr (Int.tmod_eq_zero_of_dvd ⟨r*10^k,?_⟩)
  rw [mul_comm]
  exact_mod_cast hv

theorem Normal.rounds (hp : 0 < p) (hr : o.num.tmod o.den ≠ 0) {inc : Int} (hinc : increment (o.num.tmod o.den) |o.den|
    (o.num.tdiv o.den) (decide (o.num < 0) != decide (o.den < 0)) mode = .ok inc) :
    (o.num.tdiv o.den+inc).natAbs ≤ 10^p ∧
      RoundsToPrecision p mode x ((o.num.tdiv o.den+inc : Int)*10^(-o.scl)) := by
  have hD := Int.natAbs_pos.mpr hn.den
  have hD' : (0 : ℚ) < o.den.natAbs := by exact_mod_cast hD
  have hpos : (0 : ℚ) < 10^o.scl := zpow_pos (by norm_num) _
  obtain ⟨hround,hmag⟩ := increment_roundsTo hn.den hinc
  refine ⟨?_,-o.scl,_,?_,.inr ?_,?_,rfl⟩
  · have := (Nat.div_lt_iff_lt_mul hD).mpr (hn.quotient_lt hr)
    omega
  · rw [zpow_neg,← div_eq_mul_inv,lt_div_iff₀ hpos,hn.abs_value,div_lt_iff₀ hD',zpow_natCast]
    exact_mod_cast hn.quotient_lt hr
  · rw [zpow_neg,← div_eq_mul_inv,div_le_iff₀ hpos,hn.abs_value,le_div_iff₀ hD',show (p : ℤ)-1 = (p-1 : Nat) by omega,
      zpow_natCast]
    exact_mod_cast hn.above.le
  · rwa [zpow_neg,div_inv_eq_mul,← hn.value]

theorem Normal.representable (hp : 0 < p) (hr : o.num.tmod o.den = 0) : Representable p x := by
  have hx := hn.exact hr
  by_cases hfit : digitCount (o.num.tdiv o.den) ≤ p
  · exact ⟨_,_,hfit,hx⟩
  obtain ⟨hq,-,hdvd⟩ := carry_spec hp hn.quotient_bounds.2 (by omega)
  refine ⟨(o.num.tdiv o.den).tdiv 10,o.scl-1,digitCount_tdiv hp hq,hx.trans ?_⟩
  conv_lhs => rw [← Int.mul_tdiv_cancel' hdvd]
  rw [show -(o.scl-1) = 1+-o.scl by ring,zpow_add₀ (by norm_num),zpow_one]
  push_cast
  ring

end

/-- A computation that does not fail because a rounding is forbidden. -/
def NoRounding {α : Type} (x : Except Failure α) : Prop := x ≠ .error (.arithmetic "Rounding necessary")

theorem NoRounding.bind {α β : Type} {x : Except Failure α} {f : α → Except Failure β} (hx : NoRounding x)
    (hf : ∀ a, NoRounding (f a)) : NoRounding (x >>= f) := by
  cases x with
  | error e => exact fun h => hx (congrArg Except.error (Except.error.inj h))
  | ok a => exact hf a

theorem checkScaleNonZero_noRounding (v : Int) : NoRounding (checkScaleNonZero v) := by
  rw [NoRounding,checkScaleNonZero]
  split
  · simp
  · split <;> simp

theorem powTenCheck_noRounding (n : Int) : NoRounding (powTenCheck n) := by
  rw [NoRounding,powTenCheck,powCheckRange]
  split_ifs <;> simp [powOverflow]

theorem operands_noRounding (ua sa ub sb mcp : Int) : NoRounding (operands ua sa ub sb mcp) := by
  have hok : ∀ {α : Type} (a : α), NoRounding (Except.ok a) := fun a h => nomatch h
  refine (checkScaleNonZero_noRounding _).bind fun scl => (checkScaleNonZero_noRounding _).bind fun raise =>
    NoRounding.bind ?_ fun _ => (checkScaleNonZero_noRounding _).bind fun _ => hok _
  split
  · exact (powTenCheck_noRounding _).bind fun _ => hok _
  exact (checkScaleNonZero_noRounding _).bind fun _ => (checkScaleNonZero_noRounding _).bind fun _ =>
    (powTenCheck_noRounding _).bind fun _ => hok _

theorem afterCarry_noRounding (q scale : Int) : NoRounding (afterCarry p q scale) := by
  rw [afterCarry]
  split
  · refine (checkScaleNonZero_noRounding _).bind fun _ h => ?_
    cases h
  · intro h
    cases h

theorem increment_error {rem den quo : Int} {neg : Bool} (hr : rem ≠ 0) (e : Failure) :
    increment rem den quo neg mode = .error e ↔ mode = .unnecessary ∧ e = .arithmetic "Rounding necessary" := by
  unfold increment roundNeedsIncrement
  rw [if_neg hr]
  cases mode <;> dsimp only <;> try (cases compare (2*|rem|) den <;> simp)
  all_goals simp [eq_comm]

theorem divideRoundCoreOneshot_eq {upper : Int → Int} (hupper : ∀ u, digitCount u ≤ upper u) (hua : ua ≠ 0)
    (hub : ub ≠ 0) (hp : 0 < p) {o : Operands} (h : operands ua sa ub sb p = .ok o) :
    divideRoundCoreOneshot upper ua sa ub sb p mode = if o.num.tmod o.den = 0 then
        afterCarry p (stripZerosToScale (o.num.tdiv o.den) o.scl o.preferred).1
          (stripZerosToScale (o.num.tdiv o.den) o.scl o.preferred).2
      else increment (o.num.tmod o.den) |o.den| (o.num.tdiv o.den) (decide (o.num < 0) != decide (o.den < 0)) mode >>=
        fun inc => afterCarry p (o.num.tdiv o.den+inc) o.scl := by
  obtain ⟨hn,-,hnum,hden⟩ := operands_spec hua hub hp h
  rw [divideRoundCoreOneshot,divideZeroCheck,if_pos hub,ok_bind,if_neg hua,if_neg (by omega),h,ok_bind,hnum,hden]
  dsimp only
  split
  · obtain ⟨⟨j,-,hj,-⟩,-⟩ := @stripZerosToScale_spec (o.num.tdiv o.den) o.scl o.preferred hn.quotient_ne_zero
    refine roundToPrecision_of_le hupper hp ?_ _
    have hten : ((10 : Int)^j).natAbs = 10^j := by rw [Int.natAbs_pow]; rfl
    have hle := hn.quotient_bounds.2
    rw [hj,Int.natAbs_mul,hten] at hle
    exact (Nat.le_mul_of_pos_right _ (Nat.pow_pos (by omega))).trans hle
  rename_i hr
  rw [← hnum,← hden]
  cases hinc : increment (o.num.tmod o.den) |o.den| (o.num.tdiv o.den) (decide (o.num < 0) != decide (o.den < 0)) mode with
  | error e => rfl
  | ok inc => exact roundToPrecision_of_le hupper hp (hn.rounds hp hr hinc).1 _

/-- A quotient is rounded to `p` digits; one that has so few is given back exactly, at the scale nearest to the
preferred one, and only for others a rounding is refused, unless a scale or a power of ten is out of range. -/
theorem divide_rounds {upper : Int → Int} (hupper : ∀ u, digitCount u ≤ upper u) (hua : ua ≠ 0) (hub : ub ≠ 0)
    (hp : 0 < p) :
    (∀ q s, divideRoundCoreOneshot upper ua sa ub sb p mode = .ok (q,s) → digitCount q ≤ p ∧
      RoundsToPrecision p mode ((ua/ub : ℚ)*10^(sb-sa)) (q*10^(-s)) ∧
      (Representable p ((ua/ub : ℚ)*10^(sb-sa)) → (ua/ub : ℚ)*10^(sb-sa) = q*10^(-s) ∧
        ∀ r t, digitCount r ≤ p → (ua/ub : ℚ)*10^(sb-sa) = r*10^(-t) →
          (s-(sa-sb)).natAbs ≤ (t-(sa-sb)).natAbs)) ∧
    (∀ o, operands ua sa ub sb p = .ok o →
      (divideRoundCoreOneshot upper ua sa ub sb p mode = .error (.arithmetic "Rounding necessary") ↔
        mode = .unnecessary ∧ ¬Representable p ((ua/ub : ℚ)*10^(sb-sa)))) ∧
    ∀ e, operands ua sa ub sb p = .error e → divideRoundCoreOneshot upper ua sa ub sb p mode = .error e ∧
      e ≠ .arithmetic "Rounding necessary" := by
  have herror : ∀ e, operands ua sa ub sb p = .error e → divideRoundCoreOneshot upper ua sa ub sb p mode = .error e := by
    intro e he
    rw [divideRoundCoreOneshot,divideZeroCheck,if_pos hub,ok_bind,if_neg hua,if_neg (by omega),he]
    rfl
  refine ⟨fun q s h => ?_,fun o ho => ?_,fun e he => ⟨herror e he,fun hne => ?_⟩⟩
  · cases ho : operands ua sa ub sb p with
    | error e =>
      rw [herror e ho] at h
      cases h
    | ok o => ?_
    obtain ⟨hn,hpref,-⟩ := operands_spec hua hub hp ho
    rw [divideRoundCoreOneshot_eq hupper hua hub hp ho] at h
    split at h
    · rename_i hr
      obtain ⟨hfit,hx,hnear⟩ := hn.nearest hp hr (stripZerosToScale_spec hn.quotient_ne_zero) h
      rw [hpref] at hnear
      refine ⟨hfit,?_,fun _ => ⟨hx,hnear⟩⟩
      rw [hx]
      exact roundsToPrecision_self hfit s
    rename_i hr
    obtain ⟨inc,hinc,h⟩ := bind_eq_ok.mp h
    obtain ⟨hhi,hround⟩ := hn.rounds hp hr hinc
    obtain ⟨hfit,hval⟩ := afterCarry_spec hp hhi h
    exact ⟨hfit,hval ▸ hround,fun hrep => absurd hrep (hn.not_representable hp hr)⟩
  · obtain ⟨hn,-⟩ := operands_spec hua hub hp ho
    rw [divideRoundCoreOneshot_eq hupper hua hub hp ho]
    split
    · rename_i hr
      exact iff_of_false (afterCarry_noRounding _ _) fun h => h.2 (hn.representable hp hr)
    rename_i hr
    have hnot := hn.not_representable hp hr
    cases hinc : increment (o.num.tmod o.den) |o.den| (o.num.tdiv o.den)
        (decide (o.num < 0) != decide (o.den < 0)) mode with
    | error e =>
      obtain ⟨rfl,rfl⟩ := (increment_error hr e).mp hinc
      exact iff_of_true rfl ⟨rfl,hnot⟩
    | ok inc =>
      refine iff_of_false (afterCarry_noRounding _ _) fun h => ?_
      rw [(increment_error hr _).mpr ⟨h.1,rfl⟩] at hinc
      cases hinc
  rw [hne] at he
  exact operands_noRounding ua sa ub sb p he

theorem divide_rounds_overlong : digitCount 18 ≤ (2 : Nat) ∧
    RoundsToPrecision 2 .halfUp (((12345 : Int)/(7 : Int) : ℚ)*10^((0 : Int)-0)) ((18 : Int)*10^(-(-2 : Int))) := by
  obtain ⟨hfit,hround,-⟩ := (@divide_rounds 12345 7 0 0 2 .halfUp digitCount (fun u => Int.le_refl _) (by decide)
    (by decide) (by decide)).1 18 (-2) (by decide)
  exact ⟨hfit,hround⟩

end
end CratonVM.BigDecimal
