import CratonVM.NativeBuiltins.BigDecimal.Quotient

/-!
Addition of `BigDecimal` with a `MathContext` (`native-builtins/src/math_bignum.rs`). An operand far below the
last digit of the sum is replaced by one unit near it before the scales are matched.
-/
namespace CratonVM.BigDecimal
open DecimalRounding Outcome

def checkScaleNonzeroReceiver (v : Int) : Except Failure Int :=
  if -2^31 ≤ v ∧ v ≤ 2^31-1 then .ok v
  else .error (.arithmetic (if v > 0 then "Underflow" else "Overflow"))

def rescaleOperand (u raise : Int) : Except Failure Int :=
  if raise ≤ 0 then .ok u
  else if u = 0 then .ok 0
  else if raise > 2^31-1 then .error (.arithmetic "Underflow")
  else do
    powTenCheck raise
    return u*10^raise.toNat

/-- Both operands at the larger scale, and their sum there. -/
def matchScale (ua sa ub sb : Int) : Except Failure (Int × Int) := do
  let s := max sa sb
  let x ← rescaleOperand ua (s-sa)
  let y ← rescaleOperand ub (s-sb)
  return (x+y,s)

/-- The exact sum, rounded. -/
def addRounded (upper : Int → Int) (ua sa ub sb precision : Int) (mode : Mode) : Except Failure (Int × Int) := do
  let (sum,s) ← matchScale ua sa ub sb
  roundToPrecision upper sum s precision mode

/-- `small` as the operand that is added to `big`: the scale of the unit that replaces it, if one does. -/
def tinyScale (big bigs small smalls precision : Int) : Except Failure (Option Int) :=
  let estUlpScale := bigs-digitCount big+precision
  let smallHigh := smalls-digitCount small+1
  if smallHigh > bigs+2 ∧ smallHigh > estUlpScale+2 then some <$> checkScaleNonzeroReceiver (max bigs estUlpScale+3)
  else .ok none

/-- The operand and its scale, or the unit that replaces it. -/
def orTiny (small smalls : Int) : Option Int → Int × Int
  | none => (small,smalls)
  | some tiny => (if small < 0 then -1 else 1,tiny)

/-- `preAlign`: the operand with the larger scale is the small one. -/
def preAlign (ua sa ub sb precision : Int) : Except Failure ((Int × Int) × Int × Int) :=
  if sa-sb < 0 then do
    let tiny ← tinyScale ua sa ub sb precision
    return ((ua,sa),orTiny ub sb tiny)
  else if sa-sb = 0 then .ok ((ua,sa),ub,sb)
  else do
    let tiny ← tinyScale ub sb ua sa precision
    return (orTiny ua sa tiny,ub,sb)

/-- A zero operand: the other one is rounded and moves towards the preferred scale. -/
def addZero (upper : Int → Int) (x xs preferred precision : Int) (mode : Mode) : Except Failure (Int × Int) := do
  let (r,rs) ← roundToPrecision upper x xs precision mode
  if rs = preferred then return (r,rs)
  else if rs > preferred then return stripZerosToScale r rs preferred
  else
    let raise := max (min (precision-digitCount r) (preferred-rs)) 0
    powTenCheck raise
    return (r*10^raise.toNat,rs+raise)

def addMcCore (upper : Int → Int) (ua sa ub sb precision : Int) (mode : Mode) : Except Failure (Int × Int) :=
  if precision ≤ 0 then matchScale ua sa ub sb
  else if ua = 0 ∧ ub = 0 then .ok (0,max sa sb)
  else if ua = 0 then addZero upper ub sb (max sa sb) precision mode
  else if ub = 0 then addZero upper ua sa (max sa sb) precision mode
  else do
    let ((xa,xsa),xb,xsb) ← preAlign ua sa ub sb precision
    addRounded upper xa xsa xb xsb precision mode

theorem powTenCheck_mono {a b : Int} (hab : a ≤ b) (h : powTenCheck b = .ok ()) : powTenCheck a = .ok () := by
  simp only [powTenCheck,powCheckRange] at h ⊢
  split_ifs at h ⊢ <;> first | rfl | omega

section
variable {H f j c : Nat} (hj : 0 < f ∧ f < 10^j) (hc : 0 < c)
include hj

/-- A part below the last digit of `H` leaves the quotient of `H`. -/
theorem div_sticky : (10^j*H+f)/10^(c+j) = H/10^c := by
  rw [pow_add,mul_comm (10^c),← Nat.div_div_eq_div_mul,Nat.mul_add_div (Nat.pow_pos (by omega)),
    Nat.div_eq_of_lt hj.2,add_zero]

theorem mod_sticky : (10^j*H+f)%10^(c+j) = 10^j*(H%10^c)+f := by
  have hq := Nat.div_add_mod (10^j*H+f) (10^(c+j))
  rw [div_sticky hj] at hq
  have hH := Nat.div_add_mod H (10^c)
  have : 10^j*H = 10^(c+j)*(H/10^c)+10^j*(H%10^c) := by
    conv_lhs => rw [← hH]
    rw [pow_add]
    ring
  omega

include hc

/-- The remainder is never half of the divisor, and `H` tells on which side it is. -/
theorem compare_sticky : compare (2*((10^j*H+f)%10^(c+j) : Nat) : Int) (10^(c+j) : Nat) =
    if 2*(H%10^c) < 10^c then .lt else .gt := by
  have heven : 10^c = 2*(5*10^(c-1)) := by
    conv_lhs => rw [show c = c-1+1 by omega,pow_succ]
    ring
  have hpow : 10^(c+j) = 10^j*10^c := by rw [pow_add,mul_comm]
  rw [mod_sticky hj,hpow]
  split
  · rename_i hlt
    have := Nat.mul_le_mul_left (10^j) (show 2*(H%10^c)+2 ≤ 10^c by omega)
    rw [mul_add] at this
    refine compare_lt_iff_lt.mpr ?_
    have : 10^j*(2*(H%10^c)) = 2*(10^j*(H%10^c)) := by ring
    omega
  rename_i hge
  have := Nat.mul_le_mul_left (10^j) (show 10^c ≤ 2*(H%10^c) by omega)
  refine compare_gt_iff_gt.mpr ?_
  have : 10^j*(2*(H%10^c)) = 2*(10^j*(H%10^c)) := by ring
  omega

end

theorem increment_congr {r d r' d' q : Int} {neg : Bool} {mode : Mode} (hr : r ≠ 0) (hr' : r' ≠ 0)
    (h : compare (2*|r|) d = compare (2*|r'|) d') : increment r d q neg mode = increment r' d' q neg mode := by
  unfold increment roundNeedsIncrement
  rw [if_neg hr,if_neg hr',h]

section
open BigInt (signed signed_tdiv signed_tmod)
variable {mode : Mode} {neg : Bool} {H f j c p : Nat}

theorem signed_lt {n : Nat} (hn : 0 < n) : decide (signed neg n < 0) = neg := by
  cases neg <;> simp [signed,hn]

theorem natAbs_signed (n : Nat) : (signed neg n).natAbs = n := by
  cases neg <;> simp [signed]

/-- Dropping the digits below the `c`-th of `H` depends on `H` alone. -/
theorem divideAndRoundTenPow_sticky (hf : 0 < f ∧ f < 10^j) (hc : 0 < c) :
    divideAndRoundTenPow (signed neg (10^j*H+f)) (c+j : Nat) mode = powTenCheck (c+j : Nat) >>= fun _ =>
      increment (if 2*(H%10^c) < 10^c then 1 else 3) 4 (signed neg (H/10^c)) neg mode >>= fun inc =>
        .ok (signed neg (H/10^c)+inc) := by
  have hden : (10 : Int)^(c+j) = signed false (10^(c+j)) := by simp [signed]
  have hmod : (signed neg (10^j*H+f)).tmod (10^(c+j)) = signed neg ((10^j*H+f)%10^(c+j)) := by rw [hden,signed_tmod]
  have hdiv : (signed neg (10^j*H+f)).tdiv (10^(c+j)) = signed neg (H/10^c) := by
    rw [hden,signed_tdiv,div_sticky hf]
    simp
  have hne : (10^j*H+f)%10^(c+j) ≠ 0 := by
    rw [mod_sticky hf]
    omega
  have hcmp := compare_sticky hf hc (H := H)
  rw [divideAndRoundTenPow,Int.toNat_natCast]
  dsimp only
  rw [hdiv,hmod,signed_lt (by omega)]
  generalize (10^j*H+f)%10^(c+j) = R at hne hcmp
  have habs := @natAbs_signed neg R
  rw [@increment_congr _ _ (if 2*(H%10^c) < 10^c then 1 else 3) 4 _ neg mode (by omega) (by split <;> omega)]
  · rfl
  rw [Int.abs_eq_natAbs,habs]
  push_cast at hcmp
  rw [hcmp]
  split <;> rfl

variable {upper : Int → Int}

/-- So does rounding to a precision, but for the power of ten. -/
theorem roundToPrecision_sticky (hupper : ∀ u, digitCount u ≤ upper u) (hp : 0 < p) (hc : 0 < c)
    (hlo : 10^(p+c-1) ≤ H) (hhi : H < 10^(p+c)) (hf : 0 < f ∧ f < 10^j) (M : Int) :
    roundToPrecision upper (signed neg (10^j*H+f)) (M+j) p mode = checkScaleNonZero (M-c) >>= fun newScale =>
      (powTenCheck (c+j : Nat) >>= fun _ =>
        increment (if 2*(H%10^c) < 10^c then 1 else 3) 4 (signed neg (H/10^c)) neg mode >>= fun inc =>
          .ok (signed neg (H/10^c)+inc)) >>= fun q => afterCarry p q newScale := by
  have hcount : digitCount (signed neg (10^j*H+f)) = (p+c+j-1 : Nat)+1 := by
    refine digitCount_eq ?_ ?_
    · rw [natAbs_signed,show p+c+j-1 = j+(p+c-1) by omega,pow_add]
      have := Nat.mul_le_mul_left (10^j) hlo
      omega
    rw [natAbs_signed,show p+c+j-1+1 = j+(p+c) by omega,pow_add]
    have := Nat.mul_le_mul_left (10^j) hhi
    rw [Nat.mul_succ] at this
    omega
  rw [roundToPrecision_eq hupper hp,hcount,if_neg (by omega),
    show ((p+c+j-1 : Nat) : Int)+1-p = (c+j : Nat) by omega,divideAndRoundTenPow_sticky hf hc,
    show M+j-((c+j : Nat) : Int) = M-c by push_cast; ring]

/-- Less than a unit added to `n+1` units: a part of a unit more than these, or than one of them less. -/
theorem add_sticky (neg s : Bool) (n : Nat) {a : Nat} (ha : 0 < a ∧ a < 10^j) : ∃ f, (0 < f ∧ f < 10^j) ∧
    signed neg (n+1)*10^j+signed s a = signed neg (10^j*(if s = neg then n+1 else n)+f) := by
  by_cases hs : s = neg
  · subst hs
    refine ⟨a,ha,?_⟩
    rw [if_pos rfl]
    cases s <;> simp only [signed,if_true,if_false,Bool.false_eq_true] <;> push_cast <;> ring
  obtain rfl : s = !neg := by cases s <;> cases neg <;> simp_all
  refine ⟨10^j-a,by omega,?_⟩
  rw [if_neg hs,BigInt.signed_not]
  cases neg <;> simp only [signed,if_true,if_false,Bool.false_eq_true] <;> push_cast [Nat.cast_sub ha.2.le] <;> ring

end

theorem rescaleOperand_zero (u : Int) : rescaleOperand u 0 = .ok u := rfl

section
variable {big bigs small smalls x : Int} {e : Failure}

theorem matchScale_of_lt (h : bigs < smalls) : matchScale big bigs small smalls =
    rescaleOperand big (smalls-bigs) >>= fun x => .ok (x+small,smalls) := by
  rw [matchScale,max_eq_right h.le,sub_self,rescaleOperand_zero]
  rfl

theorem matchScale_comm (ua sa ub sb : Int) : matchScale ua sa ub sb = matchScale ub sb ua sa := by
  have hlt : ∀ {ua sa ub sb : Int}, sa < sb → matchScale ua sa ub sb = matchScale ub sb ua sa := by
    intro ua sa ub sb h
    rw [matchScale_of_lt h,matchScale,max_eq_left h.le,sub_self,rescaleOperand_zero]
    simp only [ok_bind,add_comm]
    rfl
  rcases lt_trichotomy sa sb with h | rfl | h
  · exact hlt h
  · simp only [matchScale,max_self,sub_self,rescaleOperand_zero,ok_bind,add_comm]
  · exact (hlt h).symm

theorem rescaleOperand_of_ok {k : Nat} (hk : 0 < k) (hbig : big ≠ 0) (h : rescaleOperand big k = .ok x) :
    powTenCheck k = .ok () ∧ (k : Int) ≤ 2^31-1 := by
  rw [rescaleOperand,if_neg (by omega),if_neg hbig] at h
  split at h
  · cases h
  obtain ⟨u,hu,-⟩ := bind_eq_ok.mp h
  exact ⟨hu,by omega⟩

theorem rescaleOperand_eq {k : Nat} (hk : 0 < k) (hbig : big ≠ 0) (hpow : powTenCheck k = .ok ())
    (hle : (k : Int) ≤ 2^31-1) : rescaleOperand big k = .ok (big*10^k) := by
  rw [rescaleOperand,if_neg (by omega),if_neg hbig,if_neg (by omega),hpow]
  rfl

theorem rescaleOperand_noRounding (u raise : Int) : NoRounding (rescaleOperand u raise) := by
  rw [rescaleOperand]
  split_ifs
  · exact fun h => nomatch h
  · exact fun h => nomatch h
  · exact fun h => absurd (Except.error.inj h) (by decide)
  · exact (powTenCheck_noRounding _).bind fun _ h => nomatch h

theorem digitCount_pos (u : Int) : 0 < digitCount u := by
  rw [digitCount]
  omega

theorem tinyScale_ok (p : Nat) (hsmalls : smalls ≤ 2^31-1) (hbigs : -2^31 ≤ bigs) :
    ∃ T, tinyScale big bigs small smalls p = .ok T := by
  rw [tinyScale]
  split
  · rename_i h
    have := digitCount_pos small
    rw [checkScaleNonzeroReceiver,if_pos (by omega)]
    exact ⟨_,rfl⟩
  · exact ⟨none,rfl⟩

variable {p : Nat} {T : Int}

/-- What the test in front of the replacement says, with the scale `T-1` as the unit: the large operand has `p+2`
digits there, and the small one is below the unit. -/
theorem tinyScale_spec (hbig : big ≠ 0) (hsmall : small ≠ 0) (h : tinyScale big bigs small smalls p = .ok (some T)) :
    ∃ m j : Nat, T = bigs+m+1 ∧ smalls = bigs+m+j ∧ 0 < j ∧ 10^(p+1) ≤ big.natAbs*10^m ∧
      0 < small.natAbs ∧ small.natAbs < 10^j := by
  rw [tinyScale] at h
  split at h
  swap
  · cases h
  rename_i hcond
  rw [checkScaleNonzeroReceiver] at h
  split at h
  swap
  · cases h
  cases h
  have := digitCount_pos small
  obtain ⟨m,hm⟩ := Int.eq_ofNat_of_zero_le (show 0 ≤ max bigs (bigs-digitCount big+p)+2-bigs by omega)
  obtain ⟨j,hj⟩ := Int.eq_ofNat_of_zero_le (show 0 ≤ smalls-bigs-m by omega)
  have hj0 : 0 < j := by omega
  refine ⟨m,j,by omega,by omega,hj0,?_,Int.natAbs_pos.mpr hsmall,(digitCount_le hj0).mp (by omega)⟩
  have hN := Nat.pow_log_le_self 10 (Int.natAbs_ne_zero.mpr hbig)
  rw [digitCount] at hm
  calc 10^(p+1) ≤ 10^(Nat.log 10 big.natAbs+m) := Nat.pow_le_pow_right (by omega) (by omega)
    _ = 10^Nat.log 10 big.natAbs*10^m := pow_add _ _ _
    _ ≤ big.natAbs*10^m := Nat.mul_le_mul_right _ hN

variable {upper : Int → Int} {mode : Mode} {res : Except Failure (Int × Int)} (hupper : ∀ u, digitCount u ≤ upper u)
  (hp : 0 < p) (hbig : big ≠ 0)
include hupper hp hbig

/-- Of an operand below the unit only its sign matters, and how far below its scale is to the powers of ten. -/
theorem addRounded_sticky {m : Nat} (hlarge : 10^(p+1) ≤ big.natAbs*10^m) (neg : Bool) :
    ∃ (c : Nat) (q : Except Failure Int), ∀ {i : Nat} {e : Int}, 0 < i → 0 < e.natAbs ∧ e.natAbs < 10^i →
      decide (e < 0) = neg → addRounded upper big bigs e (bigs+m+i) p mode =
        rescaleOperand big (m+i : Nat) >>= fun _ => checkScaleNonZero (bigs+m-c) >>= fun newScale =>
          (powTenCheck (c+i : Nat) >>= fun _ => q) >>= fun q => afterCarry p q newScale := by
  have hpow := Nat.pow_pos (n := p) (show 0 < 10 by omega)
  obtain ⟨n,hn⟩ : ∃ n, big.natAbs*10^m = n+1 := ⟨big.natAbs*10^m-1,by omega⟩
  have hbign : big*10^m = BigInt.signed (big < 0) (n+1) := by
    rw [← hn]
    conv_lhs => rw [eq_signed big]
    cases decide (big < 0) <;> simp [BigInt.signed]
  obtain ⟨H,hH⟩ : ∃ H, H = if neg = decide (big < 0) then n+1 else n := ⟨_,rfl⟩
  have hHp : 10^p ≤ H := by
    rw [pow_succ] at hlarge
    split at hH <;> omega
  have hlog := (Nat.le_log_iff_pow_le (by omega) (by omega)).mpr hHp
  obtain ⟨c,hc⟩ : ∃ c, Nat.log 10 H+1 = p+c := ⟨Nat.log 10 H+1-p,by omega⟩
  refine ⟨c,increment (if 2*(H%10^c) < 10^c then 1 else 3) 4 (BigInt.signed (big < 0) (H/10^c)) (big < 0) mode >>=
    fun inc => .ok (BigInt.signed (big < 0) (H/10^c)+inc),fun {i e} hi he hneg => ?_⟩
  rw [addRounded,matchScale_of_lt (by omega),show bigs+m+i-bigs = (m+i : Nat) by push_cast; ring]
  cases hx : rescaleOperand big (m+i : Nat) with
  | error e => rfl
  | ok x => ?_
  obtain ⟨hpow,hle⟩ := rescaleOperand_of_ok (by omega) hbig hx
  rw [rescaleOperand_eq (by omega) hbig hpow hle] at hx
  cases hx
  obtain ⟨f,hf,hsum⟩ := add_sticky (decide (big < 0)) neg n he
  rw [← hbign,← hneg,← eq_signed,mul_assoc,← pow_add,hneg,← hH] at hsum
  dsimp only [ok_bind]
  rw [hsum]
  refine roundToPrecision_sticky hupper hp (by omega) ?_ ?_ hf _
  · rw [show p+c-1 = Nat.log 10 H by omega]
    exact Nat.pow_log_le_self 10 (by omega)
  rw [← hc]
  exact Nat.lt_pow_succ_log_self (by omega) H

variable (hsmall : small ≠ 0)
include hsmall

/-- The unit in place of the small operand rounds to the same, if the exact sum can be rounded at all. -/
theorem addRounded_tiny (h : tinyScale big bigs small smalls p = .ok (some T))
    (hres : addRounded upper big bigs small smalls p mode = res)
    (hok : ∀ e, res = .error e → e = .arithmetic "Rounding necessary") :
    addRounded upper big bigs (if small < 0 then -1 else 1) T p mode = res := by
  obtain ⟨m,j,rfl,rfl,hj,hlarge,ha⟩ := tinyScale_spec hbig hsmall h
  obtain ⟨c,q,hq⟩ := @addRounded_sticky big bigs p upper mode hupper hp hbig m hlarge (small < 0)
  have hunit := @hq 1 (if small < 0 then -1 else 1) (by omega) (by split <;> decide) (by split <;> simp_all)
  push_cast at hunit
  rw [hq hj ha rfl] at hres
  rw [hunit]
  have hno : ∀ {α : Type} {x : Except Failure α} {e : Failure}, x = .error e → NoRounding x → res ≠ .error e :=
    fun hx hn he => hn (hok _ he ▸ hx)
  cases hx : rescaleOperand big (m+j : Nat) with
  | error e =>
    rw [hx] at hres
    exact absurd hres.symm (hno hx (rescaleOperand_noRounding _ _))
  | ok x => ?_
  obtain ⟨hpow,hle⟩ := rescaleOperand_of_ok (by omega) hbig hx
  rw [hx,ok_bind] at hres
  have hraise := @rescaleOperand_eq big (m+1) (by omega) hbig (powTenCheck_mono (by omega) hpow) (by omega)
  push_cast at hraise
  rw [hraise,ok_bind]
  cases hs : checkScaleNonZero (bigs+m-c) with
  | error e =>
    rw [hs] at hres
    exact absurd hres.symm (hno hs (checkScaleNonZero_noRounding _))
  | ok s => ?_
  rw [hs,ok_bind] at hres
  cases hc : powTenCheck (c+j : Nat) with
  | error e =>
    rw [hc] at hres
    exact absurd hres.symm (hno hc (powTenCheck_noRounding _))
  | ok u => ?_
  have hone := @powTenCheck_mono (c+1 : Nat) (c+j : Nat) (by omega) hc
  push_cast at hone
  rw [hc] at hres
  rw [ok_bind,hone]
  exact hres

end

section
variable {upper : Int → Int} (hupper : ∀ u, digitCount u ≤ upper u) {ua sa ub sb : Int} {p : Nat} {mode : Mode}
  (hua : ua ≠ 0) (hub : ub ≠ 0) (hsa : -2^31 ≤ sa ∧ sa ≤ 2^31-1) (hsb : -2^31 ≤ sb ∧ sb ≤ 2^31-1) (hp : 0 < p)
include hupper hua hub hsa hsb hp

/-- Aligning succeeds, and the operands it gives back have the same rounded sum. -/
theorem preAlign_spec : ∃ xs, preAlign ua sa ub sb p = .ok xs ∧
    ∀ {res}, addRounded upper ua sa ub sb p mode = res → (∀ e, res = .error e → e = .arithmetic "Rounding necessary") →
      addRounded upper xs.1.1 xs.1.2 xs.2.1 xs.2.2 p mode = res := by
  rw [preAlign]
  split
  · obtain ⟨T,hT⟩ := @tinyScale_ok ua sa ub sb p hsb.2 hsa.1
    rw [hT]
    refine ⟨_,rfl,fun hres hok => ?_⟩
    cases T with
    | none => exact hres
    | some T => exact addRounded_tiny hupper hp hua hub hT hres hok
  split
  · exact ⟨_,rfl,fun hres _ => hres⟩
  obtain ⟨T,hT⟩ := @tinyScale_ok ub sb ua sa p hsa.2 hsb.1
  rw [hT]
  refine ⟨_,rfl,fun hres hok => ?_⟩
  cases T with
  | none => exact hres
  | some T =>
    rw [addRounded,matchScale_comm] at hres ⊢
    exact addRounded_tiny hupper hp hub hua hT hres hok

/-- With a precision the sum is the exact one rounded, whenever that can be had, and so is the refusal to round; the
scale of the unit that replaces a small operand is always an `int`. -/
theorem add_exact_then_round : (∃ xs, preAlign ua sa ub sb p = .ok xs) ∧
    (∀ r, addRounded upper ua sa ub sb p mode = .ok r → addMcCore upper ua sa ub sb p mode = .ok r) ∧
    (addRounded upper ua sa ub sb p mode = .error (.arithmetic "Rounding necessary") →
      addMcCore upper ua sa ub sb p mode = .error (.arithmetic "Rounding necessary")) := by
  obtain ⟨xs,hxs,hsame⟩ := @preAlign_spec upper hupper ua sa ub sb p mode hua hub hsa hsb hp
  have hcore : addMcCore upper ua sa ub sb p mode = addRounded upper xs.1.1 xs.1.2 xs.2.1 xs.2.2 p mode := by
    rw [addMcCore,if_neg (by omega),if_neg (fun h => hua h.1),if_neg hua,if_neg hub,hxs]
    rfl
  rw [hcore]
  refine ⟨⟨xs,hxs⟩,fun r hr => hsame hr ?_,fun hr => hsame hr ?_⟩
  · intro e he
    cases he
  intro e he
  exact (Except.error.inj he).symm

end

theorem add_exact_then_round_leading_digit : addMcCore digitCount 1 0 (-1) 10 (2 : Nat) .halfUp = .ok (10,1) :=
  (@add_exact_then_round digitCount (fun u => Int.le_refl _) 1 0 (-1) 10 2 .halfUp (by decide) (by decide) (by decide)
    (by decide) (by decide)).2.1 (10,1) (by decide)

/-- The operands may be swapped, also where the addition fails. -/
theorem addMcCore_comm (upper : Int → Int) (ua sa ub sb precision : Int) (mode : Mode) :
    addMcCore upper ua sa ub sb precision mode = addMcCore upper ub sb ua sa precision mode := by
  have hround : ∀ ua sa ub sb, addRounded upper ua sa ub sb precision mode =
      addRounded upper ub sb ua sa precision mode := by
    intro ua sa ub sb
    rw [addRounded,matchScale_comm,addRounded]
  have hswap : preAlign ub sb ua sa precision = Prod.swap <$> preAlign ua sa ub sb precision := by
    rcases lt_trichotomy sa sb with h | rfl | h
    · rw [preAlign,if_neg (by omega),if_neg (by omega),preAlign,if_pos (by omega)]
      cases tinyScale ua sa ub sb precision <;> rfl
    · simp only [preAlign,sub_self,lt_irrefl,if_false,if_true]
      rfl
    rw [preAlign,if_pos (by omega),preAlign,if_neg (by omega),if_neg (by omega)]
    cases tinyScale ub sb ua sa precision <;> rfl
  unfold addMcCore
  rw [matchScale_comm ub,max_comm sb,hswap]
  by_cases ha : ua = 0
  · by_cases hb : ub = 0
    · simp [ha,hb]
    · simp [ha,hb]
  by_cases hb : ub = 0
  · simp [ha,hb]
  simp only [ha,hb,false_and,if_false]
  cases preAlign ua sa ub sb precision with
  | error e => rfl
  | ok xs =>
    split
    · rfl
    · exact hround xs.1.1 xs.1.2 xs.2.1 xs.2.2

end CratonVM.BigDecimal
