import Mathlib

/-!
Rounding a rational number to an integer in the eight decimal modes, and to a number of significant
decimal digits.
-/
namespace CratonVM.DecimalRounding
inductive Mode where
  | up | down | ceiling | floor | halfUp | halfDown | halfEven | unnecessary
  deriving DecidableEq

/-- `n` is `x` rounded to an integer. -/
def RoundsTo : Mode → (x : ℚ) → (n : ℤ) → Prop
  | .up, x, n => |x-n| < 1 ∧ |x| ≤ |(n : ℚ)|
  | .down, x, n => |x-n| < 1 ∧ |(n : ℚ)| ≤ |x|
  | .ceiling, x, n => x ≤ n ∧ n < x+1
  | .floor, x, n => n ≤ x ∧ x < n+1
  | .halfUp, x, n => |x-n| ≤ 1/2 ∧ (|x-n| = 1/2 → |x| ≤ |(n : ℚ)|)
  | .halfDown, x, n => |x-n| ≤ 1/2 ∧ (|x-n| = 1/2 → |(n : ℚ)| ≤ |x|)
  | .halfEven, x, n => |x-n| ≤ 1/2 ∧ (|x-n| = 1/2 → n%2 = 0)
  | .unnecessary, x, n => x = n

/-- `y` is `x` rounded to `p` significant digits: `10^e` is the place of the last of them. -/
def RoundsToPrecision (p : ℕ) (mode : Mode) (x y : ℚ) : Prop :=
  ∃ e n : ℤ, |x| < 10^(p : ℤ)*10^e ∧ (x = 0 ∨ 10^((p : ℤ)-1)*10^e ≤ |x|) ∧ RoundsTo mode (x/10^e) n ∧
    y = n*10^e

theorem roundsTo_self (mode : Mode) (n : ℤ) : RoundsTo mode n n := by
  cases mode <;> simp [RoundsTo]

/-- Does the magnitude `q` with the part `f` of a unit dropped go up by one? -/
def Increments (mode : Mode) (neg : Bool) (q : ℕ) (f : ℚ) (inc : Bool) : Prop :=
  (f = 0 → inc = false) ∧ (f ≠ 0 → match mode with
    | .up => inc = true
    | .down => inc = false
    | .ceiling => inc = !neg
    | .floor => inc = neg
    | .halfUp => (inc = true ↔ 1/2 ≤ f)
    | .halfDown => (inc = true ↔ 1/2 < f)
    | .halfEven => (inc = true ↔ 1/2 < f ∨ f = 1/2 ∧ q%2 = 1)
    | .unnecessary => False)

section
variable {mode : Mode} {neg inc : Bool} {q : ℕ} {f x : ℚ} {n : ℤ}

theorem Increments.roundsTo (h : Increments mode neg q f inc) (h0 : 0 ≤ f) (h1 : f < 1)
    (hx : x = if neg then -(q+f) else q+f)
    (hn : n = if neg then -(q+if inc then 1 else 0 : ℤ) else (q+if inc then 1 else 0 : ℤ)) :
    RoundsTo mode x n := by
  rcases eq_or_ne f 0 with rfl | hf
  · obtain rfl := h.1 rfl
    have : x = n := by
      rw [hx,hn]
      cases neg <;> simp
    rw [this]
    exact roundsTo_self mode n
  have hpos := lt_of_le_of_ne h0 hf.symm
  have hq : (0 : ℚ) ≤ q := by positivity
  have hax : |x| = q+f := by
    rw [hx]
    cases neg
    · exact abs_of_nonneg (add_nonneg hq h0)
    · exact (abs_neg _).trans (abs_of_nonneg (add_nonneg hq h0))
  have han : |(n : ℚ)| = q+if inc then 1 else 0 := by
    rw [hn]
    cases neg <;> cases inc <;> simp [abs_of_nonneg,add_nonneg,hq,-neg_add_rev]
  have hd : |x-n| = if inc then 1-f else f := by
    rw [hx,hn]
    cases neg <;> cases inc <;> simp only [if_true,if_false,Bool.false_eq_true] <;> push_cast
    · rw [show (q+f-(q+0) : ℚ) = f by ring,abs_of_nonneg h0]
    · rw [show (q+f-(q+1) : ℚ) = -(1-f) by ring,abs_neg,abs_of_nonneg (by linarith)]
    · rw [show (-(q+f)-(-(q+0)) : ℚ) = -f by ring,abs_neg,abs_of_nonneg h0]
    · rw [show (-(q+f)-(-(q+1)) : ℚ) = 1-f by ring,abs_of_nonneg (by linarith)]
  have hinc := h.2 hf
  cases mode with
  | up =>
    obtain rfl : inc = true := hinc
    exact ⟨by rw [hd,if_pos rfl]; linarith,by rw [hax,han,if_pos rfl]; linarith⟩
  | down =>
    obtain rfl : inc = false := hinc
    exact ⟨by rw [hd,if_neg (by simp)]; linarith,by rw [hax,han,if_neg (by simp)]; linarith⟩
  | ceiling =>
    obtain rfl : inc = !neg := hinc
    constructor <;> rw [hx,hn] <;> cases neg <;> simp only [if_true,if_false,Bool.false_eq_true,Bool.not_true,
      Bool.not_false] <;> push_cast <;> linarith
  | floor =>
    obtain rfl : inc = neg := hinc
    constructor <;> rw [hx,hn] <;> cases inc <;> simp only [if_true,if_false,Bool.false_eq_true] <;> push_cast <;>
      linarith
  | halfUp =>
    have hinc : inc = true ↔ 1/2 ≤ f := hinc
    refine ⟨?_,fun ht => ?_⟩
    · rw [hd]
      split <;> grind
    rw [hax,han]
    rw [hd] at ht
    split <;> grind
  | halfDown =>
    have hinc : inc = true ↔ 1/2 < f := hinc
    refine ⟨?_,fun ht => ?_⟩
    · rw [hd]
      split <;> grind
    rw [hax,han]
    rw [hd] at ht
    split <;> grind
  | halfEven => ?_
  | unnecessary => exact hinc.elim
  have hinc : inc = true ↔ 1/2 < f ∨ f = 1/2 ∧ q%2 = 1 := hinc
  refine ⟨?_,fun ht => ?_⟩
  · rw [hd]
    split <;> grind
  have hhalf : f = 1/2 := by
    rw [hd] at ht
    split at ht <;> linarith
  have hodd : inc = true ↔ q%2 = 1 := by
    rw [hinc]
    constructor
    · rintro (hlt | hq)
      · linarith
      · exact hq.2
    · exact fun hq => .inr ⟨hhalf,hq⟩
  rw [hn]
  cases neg <;> cases inc <;> simp at hodd ⊢ <;> omega

end
end CratonVM.DecimalRounding
