import Mathlib

/-!
Integers read as two's complement words of `w` bits, and sequences that step by a constant while
they stay on one side of a limit.
-/
namespace CratonVM.Wrapping
open List BitVec

/-- The value is one of a signed word of `w` bits. -/
def Fits (w : Nat) (v : Int) : Prop := -2^(w-1) ≤ v ∧ v < 2^(w-1)

instance (w : Nat) (v : Int) : Decidable (Fits w v) := inferInstanceAs (Decidable (_ ∧ _))

/-- What is left of an exact result in a word of `w` bits. -/
def wrap (w : Nat) (v : Int) : Int := v.bmod (2^w)

theorem wrap_of_fits {w : Nat} (hw : 0 < w) {v : Int} (h : Fits w v) : wrap w v = v := by
  have hpow : (2^w : Int) = 2*2^(w-1) := by
    rw [← Int.pow_succ']
    congr 1
    omega
  refine Int.bmod_eq_of_le_mul_two ?_ ?_
  · push_cast
    rw [hpow]
    have := h.1
    omega
  push_cast
  rw [hpow]
  have := h.2
  omega

theorem fits_wrap {w : Nat} (hw : 0 < w) (v : Int) : Fits w (wrap w v) := by
  have hpow : (2^w : Int) = 2*2^(w-1) := by
    rw [← Int.pow_succ']
    congr 1
    omega
  have hlo := Int.le_bmod (x := v) (m := 2^w) (Nat.two_pow_pos w)
  have hhi := Int.bmod_lt (x := v) (m := 2^w) (Nat.two_pow_pos w)
  push_cast at hlo hhi
  rw [hpow] at hlo hhi
  unfold Fits wrap
  omega

theorem affine_of_fits {w n : Nat} (hw : 0 < w) {v : Nat → Int} {s : Int}
    (hstep : ∀ k, k < n → v (k+1) = wrap w (v k+s)) (hfits : ∀ k, k < n → Fits w (v k+s)) :
    ∀ k, k ≤ n → v k = v 0+k*s := by
  intro k hk
  induction k with
  | zero => simp
  | succ k ih =>
    rw [hstep k hk,wrap_of_fits hw (hfits k hk),ih (Nat.le_of_lt hk)]
    push_cast
    ring

end CratonVM.Wrapping
namespace CratonVM.Limbs
variable {w : Nat}

/-- The number a sequence of words stands for. -/
def value : List (BitVec w) → Nat
  | [] => 0
  | x::xs => x.toNat+2^w*value xs

@[simp] theorem value_nil : value ([] : List (BitVec w)) = 0 := rfl

@[simp] theorem value_cons (x : BitVec w) (xs : List (BitVec w)) :
    value (x::xs) = x.toNat+2^w*value xs := rfl

theorem value_head_tail (xs : List (BitVec w)) :
    value xs = (xs.headD 0).toNat+2^w*value xs.tail := by cases xs <;> simp

theorem value_append (xs ys : List (BitVec w)) :
    value (xs++ys) = value xs+2^(w*xs.length)*value ys := by
  induction xs with
  | nil => simp
  | cons x xs ih =>
    simp only [List.cons_append,value_cons,ih,List.length_cons,Nat.mul_add,Nat.mul_one,Nat.pow_add]
    ring

theorem value_lt (xs : List (BitVec w)) : value xs < 2^(w*xs.length) := by
  induction xs with
  | nil => simp
  | cons x xs ih =>
    simp only [value_cons,List.length_cons,Nat.mul_add,Nat.mul_one,Nat.pow_add]
    have hmul : 2^w*(value xs+1) ≤ 2^w*2^(w*xs.length) := Nat.mul_le_mul_left _ ih
    rw [Nat.mul_add,Nat.mul_one,Nat.mul_comm (2^w) (2^(w*xs.length))] at hmul
    omega

@[simp] theorem value_replicate_zero (n : Nat) : value (List.replicate n 0#w) = 0 := by
  induction n with
  | zero => rfl
  | succ n ih => simp [List.replicate_succ,ih]

theorem value_take_add_drop (xs : List (BitVec w)) {n : Nat} (h : n ≤ xs.length) :
    value xs = value (xs.take n)+2^(w*n)*value (xs.drop n) := by
  have := value_append (xs.take n) (xs.drop n)
  rwa [List.take_append_drop,List.length_take,Nat.min_eq_left h] at this

theorem eq_of_value_eq {xs ys : List (BitVec w)} (hlen : xs.length = ys.length)
    (h : value xs = value ys) : xs = ys := by
  induction xs generalizing ys with
  | nil => exact (List.length_eq_zero_iff.mp hlen.symm).symm
  | cons x xs ih => ?_
  cases ys with
  | nil => simp at hlen
  | cons y ys => ?_
  have hxy : x = y := by
    apply BitVec.eq_of_toNat_eq
    have hmod := congrArg (· % 2^w) h
    simpa using hmod
  subst hxy
  have hv : value xs = value ys :=
    Nat.eq_of_mul_eq_mul_left (Nat.two_pow_pos w) (Nat.add_left_cancel h)
  rw [ih (by simpa using hlen) hv]

theorem low_add_carry (s : Nat) : (BitVec.ofNat w s).toNat+2^w*(s >>> w) = s := by
  rw [BitVec.toNat_ofNat,Nat.shiftRight_eq_div_pow]
  exact Nat.mod_add_div s (2^w)

section
/-- The sequence has no zero word at its top. -/
def Trimmed (xs : List (BitVec w)) : Prop := xs.getLast? ≠ some 0

instance (xs : List (BitVec w)) : Decidable (Trimmed xs) :=
  inferInstanceAs (Decidable (xs.getLast? ≠ some 0))

/-- Drops the zero words at the top. -/
def trim (xs : List (BitVec w)) : List (BitVec w) := xs.rdropWhile (· = 0)

theorem value_concat (xs : List (BitVec w)) (x : BitVec w) :
    value (xs++[x]) = value xs+2^(w*xs.length)*x.toNat := by simp [value_append]

@[simp] theorem value_trim (xs : List (BitVec w)) : value (trim xs) = value xs := by
  induction xs using List.reverseRecOn with
  | nil => rfl
  | append_singleton xs x ih =>
    by_cases hx : x = 0
    · rw [trim,List.rdropWhile_concat_pos _ _ _ (by simpa using hx),value_concat,hx]
      simpa [trim] using ih
    · rw [trim,List.rdropWhile_concat_neg _ _ _ (by simpa using hx)]

theorem trimmed_trim (xs : List (BitVec w)) : Trimmed (trim xs) := by
  intro hx
  have hne : trim xs ≠ [] := by
    intro h
    simp [h] at hx
  have hlast := List.rdropWhile_last_not (fun x : BitVec w => decide (x = 0)) xs hne
  rw [List.getLast?_eq_getLast_of_ne_nil hne] at hx
  exact hlast (decide_eq_true (Option.some.inj hx))

variable {xs : List (BitVec w)}

theorem Trimmed.le_value (h : Trimmed xs) (hne : xs ≠ []) :
    2^(w*(xs.length-1)) ≤ value xs := by
  induction xs using List.reverseRecOn with
  | nil => exact absurd rfl hne
  | append_singleton xs x ih => ?_
  have hx : x ≠ 0 := by
    rintro rfl
    exact h (by simp)
  have hpos : 1 ≤ x.toNat := by
    have : x.toNat ≠ 0 := fun h0 => hx (BitVec.eq_of_toNat_eq (by simpa using h0))
    omega
  rw [value_concat]
  have hmul := Nat.mul_le_mul_left (2^(w*xs.length)) hpos
  simp only [List.length_append,List.length_singleton,Nat.add_sub_cancel]
  omega

theorem Trimmed.length_le (h : Trimmed xs) {n : Nat}
    (hv : value xs < 2^(w*n)) : xs.length ≤ n := by
  by_contra hlt
  have hne : xs ≠ [] := by
    rintro rfl
    simp at hlt
  have hle := h.le_value hne
  have hpow : 2^(w*n) ≤ 2^(w*(xs.length-1)) :=
    Nat.pow_le_pow_right (by omega) (Nat.mul_le_mul_left w (by omega))
  omega

theorem Trimmed.length_le_of_value_le {ys : List (BitVec w)} (h : Trimmed xs)
    (hv : value xs ≤ value ys) : xs.length ≤ ys.length :=
  h.length_le (Nat.lt_of_le_of_lt hv (value_lt ys))

end
end CratonVM.Limbs
namespace CratonVM.Alignment
/-- The next multiple, without overflow. -/
def roundUp (n a : Nat) : Nat := (n+a-1)/a*a

section
variable {n m a b q : Nat}

theorem dvd_roundUp : a ∣ roundUp n a := Nat.dvd_mul_left a _

theorem le_roundUp (ha : 0 < a) : n ≤ roundUp n a := by
  have h := Nat.div_add_mod (n+a-1) a
  have hlt := Nat.mod_lt (n+a-1) ha
  rw [roundUp,Nat.mul_comm]
  omega

theorem roundUp_le (ha : 0 < a) (hn : n ≤ q) (hq : a ∣ q) : roundUp n a ≤ q := by
  obtain ⟨c,rfl⟩ := hq
  have hlt : (n+a-1)/a < c+1 := by
    rw [Nat.div_lt_iff_lt_mul ha,Nat.add_mul,Nat.mul_comm c a]
    omega
  rw [roundUp,Nat.mul_comm a c]
  exact Nat.mul_le_mul_right a (by omega)

theorem roundUp_mono (ha : 0 < a) (h : n ≤ m) : roundUp n a ≤ roundUp m a :=
  roundUp_le ha (h.trans (le_roundUp ha)) dvd_roundUp

theorem roundUp_add_le (ha : 0 < a) (hab : a ∣ b) (hb : 0 < b) :
    roundUp (roundUp n a+a) b ≤ roundUp n b+b := by
  have hle : roundUp n a ≤ roundUp n b := roundUp_le ha (le_roundUp hb) (hab.trans dvd_roundUp)
  refine roundUp_le hb ?_ (Nat.dvd_add dvd_roundUp (Nat.dvd_refl b))
  exact Nat.add_le_add hle (Nat.le_of_dvd hb hab)

end

section
variable {w : Nat}

def alignUp (off alignment : BitVec w) : BitVec w := (off+alignment-1) &&& ~~~(alignment-1)

theorem and_not_mask (x : BitVec w) (k : Nat) :
    x &&& ~~~(BitVec.ofNat w (2^k-1)) = (x >>> k) <<< k := by
  apply BitVec.eq_of_getLsbD_eq
  intro i hi
  rw [BitVec.getLsbD_and,BitVec.getLsbD_not,BitVec.getLsbD_shiftLeft,BitVec.getLsbD_ofNat,
    Nat.testBit_two_pow_sub_one,BitVec.getLsbD_ushiftRight]
  by_cases hik : i < k
  · simp [hik]
  have hsub : k+(i-k) = i := by omega
  simp [hik,hi,hsub]

theorem toNat_alignUp {off : BitVec w} {k : Nat} (hk : k < w) (h : off.toNat+2^k ≤ 2^w) :
    (alignUp off (BitVec.ofNat w (2^k))).toNat = roundUp off.toNat (2^k) := by
  have hpos := Nat.two_pow_pos k
  have hlt : 2^k < 2^w := Nat.pow_lt_pow_right (by omega) hk
  have hone : (1 : BitVec w).toNat = 1 := by
    have : 1 < 2^w := Nat.one_lt_two_pow (by omega)
    simpa using Nat.mod_eq_of_lt this
  have hmask : (BitVec.ofNat w (2^k)-1) = BitVec.ofNat w (2^k-1) := by
    apply BitVec.eq_of_toNat_eq
    rw [BitVec.toNat_sub,hone,BitVec.toNat_ofNat,BitVec.toNat_ofNat,
      Nat.mod_eq_of_lt hlt,Nat.mod_eq_of_lt (show 2^k-1 < 2^w by omega)]
    rw [show 2^w-1+2^k = 2^k-1+2^w by omega,Nat.add_mod_right]
    exact Nat.mod_eq_of_lt (by omega)
  have hsum : (off+BitVec.ofNat w (2^k)-1).toNat = off.toNat+2^k-1 := by
    rw [BitVec.toNat_sub,hone,BitVec.toNat_add,BitVec.toNat_ofNat,Nat.mod_eq_of_lt hlt]
    rcases Nat.lt_or_ge (off.toNat+2^k) (2^w) with hs | hs
    · rw [Nat.mod_eq_of_lt hs,show 2^w-1+(off.toNat+2^k) = off.toNat+2^k-1+2^w by omega,
        Nat.add_mod_right]
      exact Nat.mod_eq_of_lt (by omega)
    have heq : off.toNat+2^k = 2^w := by omega
    rw [heq,Nat.mod_self,Nat.add_zero]
    exact Nat.mod_eq_of_lt (by omega)
  rw [alignUp,hmask,and_not_mask,BitVec.toNat_shiftLeft,BitVec.toNat_ushiftRight,hsum,
    Nat.shiftRight_eq_div_pow,Nat.shiftLeft_eq,roundUp]
  refine Nat.mod_eq_of_lt ?_
  have := Nat.div_mul_le_self (off.toNat+2^k-1) (2^k)
  omega

end

section
/-- Items of the given sizes, each aligned to its size, one after the other: each with the place
it gets. -/
def placed {ι : Type} (size : ι → Nat) : List ι → Nat → List (ι × Nat)
  | [], _ => []
  | i::is, off => (i,roundUp off (size i))::placed size is (roundUp off (size i)+size i)

/-- Where the next item can go. -/
def placedEnd {ι : Type} (size : ι → Nat) : List ι → Nat → Nat
  | [], off => off
  | i::is, off => placedEnd size is (roundUp off (size i)+size i)

variable {ι : Type} {size : ι → Nat} {is : List ι} {off off' : Nat}

section
variable (hsize : ∀ i, 0 < size i)
include hsize

theorem le_placedEnd : off ≤ placedEnd size is off := by
  induction is generalizing off with
  | nil => exact le_rfl
  | cons i is ih => exact ((le_roundUp (hsize i)).trans (Nat.le_add_right _ _)).trans ih

theorem placedEnd_mono (h : off ≤ off') :
    placedEnd size is off ≤ placedEnd size is off' := by
  induction is generalizing off off' with
  | nil => exact h
  | cons i is ih => exact ih (Nat.add_le_add_right (roundUp_mono (hsize i) h) _)

theorem placed_mem {p : ι × Nat} (hp : p ∈ placed size is off) :
    size p.1 ∣ p.2 ∧ off ≤ p.2 ∧ p.2+size p.1 ≤ placedEnd size is off := by
  induction is generalizing off with
  | nil => cases hp
  | cons i is ih => ?_
  have hup := @le_roundUp off (size i) (hsize i)
  rcases List.mem_cons.mp hp with rfl | hp
  · exact ⟨dvd_roundUp,hup,le_placedEnd hsize⟩
  obtain ⟨h1,h2,h3⟩ := ih hp
  exact ⟨h1,by omega,h3⟩

theorem placed_apart :
    (placed size is off).Pairwise fun p q => p.2+size p.1 ≤ q.2 := by
  induction is generalizing off with
  | nil => exact .nil
  | cons i is ih => exact .cons (fun q hq => (placed_mem hsize hq).2.1) ih

theorem placedEnd_le {b : Nat} (hb : 0 < b) (hdvd : ∀ i, size i ∣ b) :
    roundUp (placedEnd size is off) b ≤ roundUp off b+b*is.length := by
  induction is generalizing off with
  | nil => simp [placedEnd]
  | cons i is ih => ?_
  calc roundUp (placedEnd size (i::is) off) b
      ≤ roundUp (roundUp off (size i)+size i) b+b*is.length := ih
    _ ≤ roundUp off b+b+b*is.length :=
      Nat.add_le_add_right (roundUp_add_le (hsize i) (hdvd i) hb) _
    _ = roundUp off b+b*(i::is).length := by rw [List.length_cons,Nat.mul_succ]; omega

end
end
end CratonVM.Alignment
