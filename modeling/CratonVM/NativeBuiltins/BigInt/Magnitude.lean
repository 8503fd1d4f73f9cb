import CratonVM.Lib.MachineArithmetic

/-!
The magnitude primitives of `native-builtins/src/bigint.rs`: sequences of 32-bit limbs, least
significant first. A sum or product that leaves its 64-bit type and an index outside its slice
are `none`, so that a result says that neither happens.
-/
namespace CratonVM.BigInt
open Limbs List Option

abbrev Limb := BitVec 32

def karatsubaThreshold : Nat := 80

def u64 (n : Nat) : Option Nat := if n < 2^64 then some n else none

def i64 (v : Int) : Option Int := if -2^63 ≤ v ∧ v < 2^63 then some v else none

def asU32 (n : Nat) : Limb := .ofNat 32 n

/-- `split_at`, and the two sides of a slice `[mid..]`. -/
def splitAt {α : Type} (xs : List α) (mid : Nat) : Option (List α × List α) :=
  if mid ≤ xs.length then some (xs.take mid,xs.drop mid) else none

/-- The loop of `cmp_mag` over the limbs below index `i`, downwards. -/
def cmpBelow (a b : List Limb) : (i : Nat) → Ordering
  | 0 => .eq
  | i+1 =>
    if a.getD i 0 ≠ b.getD i 0 then compare (a.getD i 0).toNat (b.getD i 0).toNat
    else cmpBelow a b i

def cmpMag (a b : List Limb) : Ordering :=
  if a.length ≠ b.length then compare a.length b.length
  else cmpBelow a b a.length

def addLoop : (n : Nat) → (a b : List Limb) → (carry : Nat) → Option (List Limb)
  | 0, _, _, carry => some (if carry > 0 then [asU32 carry] else [])
  | n+1, a, b, carry => do
    let s ← u64 ((a.headD 0).toNat+(b.headD 0).toNat+carry)
    let out ← addLoop n a.tail b.tail (s >>> 32)
    return asU32 s::out

def addMag (a b : List Limb) : Option (List Limb) :=
  addLoop (max a.length b.length) a b 0

/-- One turn of a subtracting loop: the limb and the borrow for the next. -/
def subStep (av bv borrow : Int) : Option (Limb × Int) := do
  let d ← i64 (av-bv-borrow)
  if d < 0 then
    let d ← i64 (d+2^32)
    return (asU32 d.toNat,1)
  else return (asU32 d.toNat,0)

def subLoop : (a b : List Limb) → (borrow : Int) → Option (List Limb)
  | [], _, _ => some []
  | x::a, b, borrow => do
    let (d,borrow) ← subStep x.toNat (b.headD 0).toNat borrow
    let out ← subLoop a b.tail borrow
    return d::out

def subMag (a b : List Limb) : Option (List Limb) := subLoop a b 0

def carryLoop : (out : List Limb) → (carry : Nat) → Option (List Limb)
  | [], carry => if carry > 0 then none else some []
  | o::out, carry =>
    if carry > 0 then do
      let v ← u64 (o.toNat+carry)
      let out ← carryLoop out (v >>> 32)
      return asU32 v::out
    else some (o::out)

def mulRow (ai : Limb) : (b out : List Limb) → (carry : Nat) → Option (List Limb)
  | [], out, carry => carryLoop out carry
  | _::_, [], _ => none
  | bj::b, o::out, carry => do
    let v ← u64 (ai.toNat*bj.toNat+o.toNat+carry)
    let out ← mulRow ai b out (v >>> 32)
    return asU32 v::out

def mulRows (b : List Limb) : (a : List Limb) → (i : Nat) → (out : List Limb) → Option (List Limb)
  | [], _, out => some out
  | ai::a, i, out =>
    if ai = 0 then mulRows b a (i+1) out
    else do
      let (done,rest) ← splitAt out i
      let rest ← mulRow ai b rest 0
      mulRows b a (i+1) (done++rest)

def mulMag (a b : List Limb) : Option (List Limb) :=
  if a = [] ∨ b = [] then some []
  else mulRows b a 0 (List.replicate (a.length+b.length) 0)

/-- The loop `while carry != 0 && i < dst.len()` of `add_into`. -/
def addCarry : (dst : List Limb) → (carry : Nat) → Option (List Limb)
  | [], _ => some []
  | d::dst, carry =>
    if carry ≠ 0 then do
      let s ← u64 (d.toNat+carry)
      let dst ← addCarry dst (s >>> 32)
      return asU32 s::dst
    else some (d::dst)

/-- The loop over the limbs of both sides of `add_into`. -/
def addIntoLoop : (dst src : List Limb) → (carry : Nat) → Option (List Limb)
  | dst, [], carry => addCarry dst carry
  | [], _::_, _ => some []
  | d::dst, x::src, carry => do
    let s ← u64 (d.toNat+x.toNat+carry)
    let dst ← addIntoLoop dst src (s >>> 32)
    return asU32 s::dst

def addInto (dst src : List Limb) : Option (List Limb) := addIntoLoop dst (trim src) 0

def addIntoFrom (out : List Limb) (off : Nat) (src : List Limb) : Option (List Limb) := do
  let (low,dst) ← splitAt out off
  let dst ← addInto dst src
  return low++dst

def subInPlaceLoop : (a b : List Limb) → (borrow : Int) → Option (List Limb)
  | [], _, _ => some []
  | x::a, b, borrow =>
    if b ≠ [] ∨ borrow ≠ 0 then do
      let (d,borrow) ← subStep x.toNat (b.headD 0).toNat borrow
      let a ← subInPlaceLoop a b.tail borrow
      return d::a
    else some (x::a)

def subInPlace (a b : List Limb) : Option (List Limb) := subInPlaceLoop a b 0

/-- The slabs of an unbalanced product: `a[off..]` is cut into pieces of the width of `b`. The
turns left bound the loop. -/
def slabLoop (product : List Limb → Option (List Limb)) (width : Nat) :
    (turns : Nat) → (a : List Limb) → (off : Nat) → (out : List Limb) → Option (List Limb)
  | 0, a, off, out => if off < a.length then none else some out
  | turns+1, a, off, out =>
    if off < a.length then do
      let stop := min (off+width) a.length
      let part ← product ((a.take stop).drop off)
      let out ← addIntoFrom out off part
      slabLoop product width turns a stop out
    else some out

def mulMagKaratsuba : (fuel : Nat) → (a b : List Limb) → Option (List Limb)
  | 0, _, _ => none
  | fuel+1, a, b =>
    let (a,b) := if a.length ≥ b.length then (a,b) else (b,a)
    if b.length < karatsubaThreshold then mulMag a b
    else
      let out := List.replicate (a.length+b.length) 0
      if a.length ≥ 2*b.length then
        slabLoop (fun part => mulMagKaratsuba fuel part b) b.length a.length a 0 out
      else do
        let h := (a.length+1)/2
        let (a0,a1) ← splitAt a h
        let (b0,b1) ← splitAt b (min h b.length)
        let z0 ← mulMagKaratsuba fuel a0 b0
        let z2 ← mulMagKaratsuba fuel a1 b1
        let sa ← addMag a0 a1
        let sb ← addMag b0 b1
        let z1 ← mulMagKaratsuba fuel sa sb
        let z1 ← subInPlace z1 z0
        let z1 ← subInPlace z1 z2
        let out ← addInto out z0
        let out ← addIntoFrom out h z1
        addIntoFrom out (2*h) z2

def shlLoop (bitShift : Nat) : (mag : List Limb) → (carry : Nat) → List Limb
  | [], carry => if carry > 0 then [asU32 carry] else []
  | x::mag, carry =>
    let v := (x.toNat <<< bitShift) % 2^64 ||| carry
    asU32 v::shlLoop bitShift mag (v >>> 32)

def shlMag (mag : List Limb) (n : Nat) : List Limb :=
  if mag = [] then []
  else
    let wordShift := n/32
    let bitShift := n%32
    List.replicate wordShift 0++(if bitShift = 0 then mag else shlLoop bitShift mag 0)

def shrLoop (bitShift : Nat) : (hi : List Limb) → List Limb
  | [] => []
  | x::hi => ((x >>> bitShift) ||| (hi.headD 0 <<< (32-bitShift)))::shrLoop bitShift hi

/-- The shifted magnitude, and whether a set bit was shifted out. -/
def shrMag (mag : List Limb) (n : Nat) : List Limb × Bool :=
  let wordShift := n/32
  let bitShift := n%32
  if wordShift ≥ mag.length then ([],mag.any (· ≠ 0))
  else
    let lost := (mag.take wordShift).any (· ≠ 0)
    let lost := lost ∨ bitShift ≠ 0 ∧ mag.getD wordShift 0 &&& (1#32 <<< bitShift-1) ≠ 0
    let hi := mag.drop wordShift
    (if bitShift = 0 then hi else shrLoop bitShift hi,lost)

open Limbs

theorem u64_of_lt {n : Nat} (h : n < 2^64) : u64 n = some n := if_pos h

theorem limb_lt (x : Limb) : x.toNat < 2^32 := x.isLt

theorem asU32_add_carry (s : Nat) : (asU32 s).toNat+2^32*(s >>> 32) = s := low_add_carry s

theorem shiftRight_32_lt {s m : Nat} (h : s < 2^32*m) : s >>> 32 < m := by
  omega

theorem toNat_asU32_of_lt {s : Nat} (h : s < 2^32) : (asU32 s).toNat = s := by
  simp only [asU32,BitVec.toNat_ofNat]
  omega

theorem splitAt_of_le {α : Type} {xs : List α} {mid : Nat} (h : mid ≤ xs.length) :
    splitAt xs mid = some (xs.take mid,xs.drop mid) := if_pos h

section
theorem getD_eq {a : List Limb} {i : Nat} (h : i < a.length) : a.getD i 0 = a[i] := by
  simp [List.getD,h]

theorem value_take_succ {a : List Limb} {i : Nat} (h : i < a.length) :
    value (a.take (i+1)) = value (a.take i)+2^(32*i)*(a.getD i 0).toNat := by
  rw [List.take_succ_eq_append_getElem h,value_concat,getD_eq h,List.length_take,
    Nat.min_eq_left h.le]

theorem compare_add_mul_of_ne {m n x y p : Nat} (hm : m < p) (hn : n < p) (hxy : x ≠ y) :
    compare (m+p*x) (n+p*y) = compare x y := by
  rcases Nat.lt_or_gt_of_ne hxy with h | h
  · have hle : p*(x+1) ≤ p*y := Nat.mul_le_mul_left p h
    rw [Nat.mul_add,Nat.mul_one] at hle
    rw [Nat.compare_eq_lt.mpr h,Nat.compare_eq_lt.mpr (by omega)]
  have hle : p*(y+1) ≤ p*x := Nat.mul_le_mul_left p h
  rw [Nat.mul_add,Nat.mul_one] at hle
  rw [Nat.compare_eq_gt.mpr h,Nat.compare_eq_gt.mpr (by omega)]

theorem cmpBelow_eq {a b : List Limb} {i : Nat} (ha : i ≤ a.length) (hb : i ≤ b.length) :
    cmpBelow a b i = compare (value (a.take i)) (value (b.take i)) := by
  induction i with
  | zero => simp [cmpBelow]
  | succ i ih => ?_
  have hva := value_lt (a.take i)
  have hvb := value_lt (b.take i)
  rw [List.length_take,Nat.min_eq_left (by omega)] at hva hvb
  rw [cmpBelow,value_take_succ ha,value_take_succ hb]
  split
  · rename_i hne
    have hne : (a.getD i 0).toNat ≠ (b.getD i 0).toNat :=
      fun h => hne (BitVec.eq_of_toNat_eq h)
    rw [compare_add_mul_of_ne hva hvb hne]
  rename_i heq
  rw [ih (by omega) (by omega),Decidable.not_not.mp heq]
  simp only [Nat.compare_eq_ite_lt,Nat.add_lt_add_iff_right]

theorem cmpMag_eq {a b : List Limb} (ha : Trimmed a) (hb : Trimmed b) :
    cmpMag a b = compare (value a) (value b) := by
  unfold cmpMag
  split
  · rename_i hne
    rcases Nat.lt_or_gt_of_ne hne with h | h
    · have hlt : value a < value b := by
        by_contra hge
        have := hb.length_le_of_value_le (Nat.le_of_not_lt hge)
        omega
      rw [Nat.compare_eq_lt.mpr h,Nat.compare_eq_lt.mpr hlt]
    have hlt : value b < value a := by
      by_contra hge
      have := ha.length_le_of_value_le (Nat.le_of_not_lt hge)
      omega
    rw [Nat.compare_eq_gt.mpr h,Nat.compare_eq_gt.mpr hlt]
  rename_i heq
  have hlen := Decidable.not_not.mp heq
  rw [cmpBelow_eq le_rfl hlen.le,List.take_length,hlen,List.take_length]

end

theorem value_step {s rest : Nat} {out : List Limb} (h : value out = rest+s >>> 32) :
    value (asU32 s::out) = s+2^32*rest := by
  have hs := asU32_add_carry s
  rw [value_cons,h,Nat.mul_add]
  omega

section
theorem addLoop_spec {n carry : Nat} {a b : List Limb} (ha : a.length ≤ n) (hb : b.length ≤ n)
    (hc : carry ≤ 1) : ∃ out, addLoop n a b carry = some out ∧
      value out = value a+value b+carry ∧ out.length ≤ n+1 := by
  induction n generalizing a b carry with
  | zero =>
    obtain rfl := List.length_eq_zero_iff.mp (Nat.le_zero.mp ha)
    obtain rfl := List.length_eq_zero_iff.mp (Nat.le_zero.mp hb)
    refine ⟨_,rfl,?_⟩
    have hv := @toNat_asU32_of_lt carry (by omega)
    split
    · simp [hv]
    simp
    omega
  | succ n ih => ?_
  generalize hs : (a.headD 0).toNat+(b.headD 0).toNat+carry = s
  obtain ⟨out,hout,hval,hlen⟩ := @ih (s >>> 32) a.tail b.tail
    (by rw [List.length_tail]; omega) (by rw [List.length_tail]; omega)
    (Nat.le_of_lt_succ (shiftRight_32_lt (m := 2) (by omega)))
  refine ⟨asU32 s::out,?_,?_,by simpa using hlen⟩
  · have hu : u64 s = some s := u64_of_lt (by omega)
    simp only [addLoop,hs,hu,hout,Option.bind_eq_bind,Option.bind_some,Option.pure_def]
  rw [value_step hval,value_head_tail a,value_head_tail b]
  omega

theorem addMag_spec (a b : List Limb) : ∃ out, addMag a b = some out ∧
    value out = value a+value b ∧ out.length ≤ max a.length b.length+1 :=
  addLoop_spec (Nat.le_max_left _ _) (Nat.le_max_right _ _) (Nat.zero_le _)

end

section
theorem i64_of_bounds {v : Int} (h : -2^63 ≤ v ∧ v < 2^63) : i64 v = some v := if_pos h

theorem subStep_spec (x y : Limb) {borrow : Int} (hb : borrow = 0 ∨ borrow = 1) :
    ∃ d next, subStep x.toNat y.toNat borrow = some (d,next) ∧ (next = 0 ∨ next = 1) ∧
      (d.toNat : Int)-2^32*next = x.toNat-y.toNat-borrow := by
  unfold subStep
  rw [i64_of_bounds (by omega)]
  simp only [Option.bind_eq_bind,Option.bind_some]
  split
  · rw [i64_of_bounds (by omega)]
    refine ⟨_,1,rfl,Or.inr rfl,?_⟩
    rw [toNat_asU32_of_lt (by omega)]
    omega
  refine ⟨_,0,rfl,Or.inl rfl,?_⟩
  rw [toNat_asU32_of_lt (by omega)]
  omega

theorem subLoop_spec {a b : List Limb} {borrow : Int} (hb : borrow = 0 ∨ borrow = 1)
    (h : (value b : Int)+borrow ≤ value a) : ∃ out, subLoop a b borrow = some out ∧
      (value out : Int) = value a-value b-borrow := by
  induction a generalizing b borrow with
  | nil =>
    refine ⟨[],rfl,?_⟩
    simp only [value_nil] at h ⊢
    omega
  | cons x a ih => ?_
  obtain ⟨d,next,hstep,hnext,hd⟩ := subStep_spec x (b.headD 0) hb
  have hvb := value_head_tail b
  rw [value_cons] at h ⊢
  obtain ⟨out,hout,hval⟩ := @ih b.tail next hnext (by omega)
  refine ⟨d::out,?_,?_⟩
  · simp only [subLoop,hstep,hout,Option.bind_eq_bind,Option.bind_some,Option.pure_def]
  rw [value_cons]
  omega

theorem subMag_spec {a b : List Limb} (h : value b ≤ value a) : ∃ out, subMag a b = some out ∧
    value out = value a-value b := by
  obtain ⟨out,hout,hval⟩ := @subLoop_spec a b 0 (Or.inl rfl) (by omega)
  exact ⟨out,hout,by omega⟩

theorem subInPlaceLoop_spec {a b : List Limb} {borrow : Int} (hb : borrow = 0 ∨ borrow = 1)
    (h : (value b : Int)+borrow ≤ value a) : ∃ out, subInPlaceLoop a b borrow = some out ∧
      (value out : Int) = value a-value b-borrow ∧ out.length = a.length := by
  induction a generalizing b borrow with
  | nil =>
    refine ⟨[],rfl,?_,rfl⟩
    simp only [value_nil] at h ⊢
    omega
  | cons x a ih => ?_
  rw [subInPlaceLoop]
  split
  · obtain ⟨d,next,hstep,hnext,hd⟩ := subStep_spec x (b.headD 0) hb
    have hvb := value_head_tail b
    rw [value_cons] at h ⊢
    obtain ⟨out,hout,hval,hlen⟩ := @ih b.tail next hnext (by omega)
    refine ⟨d::out,?_,?_,by simp [hlen]⟩
    · simp only [hstep,hout,Option.bind_eq_bind,Option.bind_some,Option.pure_def]
    rw [value_cons]
    omega
  rename_i hdone
  push Not at hdone
  obtain ⟨rfl,rfl⟩ := hdone
  exact ⟨_,rfl,by simp,rfl⟩

theorem subInPlace_spec {a b : List Limb} (h : value b ≤ value a) :
    ∃ out, subInPlace a b = some out ∧ value out = value a-value b ∧ out.length = a.length := by
  obtain ⟨out,hout,hval,hlen⟩ := @subInPlaceLoop_spec a b 0 (Or.inl rfl) (by omega)
  exact ⟨out,hout,by omega,hlen⟩

end

section
theorem tail_bound {s rest len : Nat} (h : s+2^32*rest < 2^(32*(len+1))) :
    rest+s >>> 32 < 2^(32*len) := by
  rw [Nat.mul_add,Nat.pow_add,Nat.mul_one] at h
  have hdiv : (s+2^32*rest)/2^32 < 2^(32*len) :=
    Nat.div_lt_of_lt_mul (by rw [Nat.mul_comm (2^32) (2^(32*len))]; exact h)
  rw [Nat.add_mul_div_left _ _ (Nat.two_pow_pos 32)] at hdiv
  omega

theorem addCarry_spec {dst : List Limb} {carry : Nat} (hc : carry < 2^32)
    (h : value dst+carry < 2^(32*dst.length)) : ∃ out, addCarry dst carry = some out ∧
      value out = value dst+carry ∧ out.length = dst.length := by
  induction dst generalizing carry with
  | nil =>
    refine ⟨[],rfl,?_,rfl⟩
    simp at h
    simp [h]
  | cons d dst ih => ?_
  rw [addCarry]
  split
  · rw [value_cons] at h ⊢
    obtain ⟨out,hout,hval,hlen⟩ := @ih ((d.toNat+carry) >>> 32) (shiftRight_32_lt (by omega))
      (tail_bound (by simpa [Nat.add_right_comm] using h))
    refine ⟨asU32 (d.toNat+carry)::out,?_,?_,by simp [hlen]⟩
    · have hu : u64 (d.toNat+carry) = some (d.toNat+carry) := u64_of_lt (by omega)
      simp [hu,hout,Option.bind_eq_bind,Option.bind_some,Option.pure_def]
    rw [value_step hval]
    omega
  rename_i hz
  refine ⟨_,rfl,?_,rfl⟩
  rw [Decidable.not_not.mp hz]
  rfl

theorem addIntoLoop_spec {dst src : List Limb} {carry : Nat} (hc : carry ≤ 1)
    (hlen : src.length ≤ dst.length) (h : value dst+value src+carry < 2^(32*dst.length)) :
    ∃ out, addIntoLoop dst src carry = some out ∧
      value out = value dst+value src+carry ∧ out.length = dst.length := by
  induction src generalizing dst carry with
  | nil =>
    unfold addIntoLoop
    exact addCarry_spec (by omega) h
  | cons x src ih => ?_
  cases dst with
  | nil => simp at hlen
  | cons d dst => ?_
  rw [value_cons,value_cons] at h ⊢
  generalize hs : d.toNat+x.toNat+carry = s
  have hbound : s+2^32*(value dst+value src) < 2^(32*(dst.length+1)) := by
    rw [List.length_cons] at h
    omega
  obtain ⟨out,hout,hval,hlen'⟩ := @ih dst (s >>> 32)
    (Nat.le_of_lt_succ (shiftRight_32_lt (m := 2) (by omega))) (by simpa using hlen)
    (tail_bound hbound)
  refine ⟨asU32 s::out,?_,?_,by simp [hlen']⟩
  · have hu : u64 s = some s := u64_of_lt (by omega)
    simp [addIntoLoop,hs,hu,hout,Option.bind_eq_bind,Option.bind_some,Option.pure_def]
  rw [value_step hval]
  omega

theorem addInto_spec {dst src : List Limb} (h : value dst+value src < 2^(32*dst.length)) :
    ∃ out, addInto dst src = some out ∧ value out = value dst+value src ∧
      out.length = dst.length := by
  have hlen : (trim src).length ≤ dst.length := (trimmed_trim src).length_le (by simp; omega)
  unfold addInto
  simpa using addIntoLoop_spec (Nat.zero_le 1) hlen (by simpa using h)

theorem addIntoFrom_spec {out src : List Limb} {off : Nat} (hoff : off ≤ out.length)
    (h : value out+2^(32*off)*value src < 2^(32*out.length)) :
    ∃ out', addIntoFrom out off src = some out' ∧ value out' = value out+2^(32*off)*value src ∧
      out'.length = out.length := by
  have hsplit := value_take_add_drop out hoff
  have hpow : 2^(32*out.length) = 2^(32*off)*2^(32*(out.drop off).length) := by
    rw [← Nat.pow_add,← Nat.mul_add,List.length_drop,Nat.add_sub_cancel' hoff]
  have hfits : value (out.drop off)+value src < 2^(32*(out.drop off).length) := by
    apply Nat.lt_of_mul_lt_mul_left (a := 2^(32*off))
    rw [← hpow,Nat.mul_add]
    omega
  obtain ⟨dst,hdst,hval,hlen⟩ := addInto_spec hfits
  refine ⟨out.take off++dst,?_,?_,?_⟩
  · simp [addIntoFrom,splitAt_of_le hoff,hdst]
  · rw [value_append,hval,List.length_take,Nat.min_eq_left hoff,Nat.mul_add]
    omega
  simp [hlen]
  omega

end

section
theorem carryLoop_spec {out : List Limb} {carry : Nat} (hc : carry < 2^32)
    (h : value out+carry < 2^(32*out.length)) : ∃ out', carryLoop out carry = some out' ∧
      value out' = value out+carry ∧ out'.length = out.length := by
  induction out generalizing carry with
  | nil =>
    simp at h
    exact ⟨[],by simp [carryLoop,h],by simp [h],rfl⟩
  | cons o out ih => ?_
  rw [carryLoop]
  split
  · rw [value_cons] at h ⊢
    obtain ⟨out',hout,hval,hlen⟩ := @ih ((o.toNat+carry) >>> 32) (shiftRight_32_lt (by omega))
      (tail_bound (by simpa [Nat.add_right_comm] using h))
    refine ⟨asU32 (o.toNat+carry)::out',?_,?_,by simp [hlen]⟩
    · have hu : u64 (o.toNat+carry) = some (o.toNat+carry) := u64_of_lt (by omega)
      simp [hu,hout,Option.bind_eq_bind,Option.bind_some,Option.pure_def]
    rw [value_step hval]
    omega
  · exact ⟨_,rfl,by omega,rfl⟩

theorem row_intermediate_lt (ai bj o : Limb) {carry : Nat} (hc : carry < 2^32) :
    ai.toNat*bj.toNat+o.toNat+carry < 2^32*2^32 := by
  have hmul : ai.toNat*bj.toNat ≤ (2^32-1)*(2^32-1) := Nat.mul_le_mul (by omega) (by omega)
  omega

theorem mulRow_spec {ai : Limb} {b out : List Limb} {carry : Nat} (hc : carry < 2^32)
    (hlen : b.length ≤ out.length)
    (h : value out+ai.toNat*value b+carry < 2^(32*out.length)) :
    ∃ out', mulRow ai b out carry = some out' ∧
      value out' = value out+ai.toNat*value b+carry ∧ out'.length = out.length := by
  induction b generalizing out carry with
  | nil =>
    exact carryLoop_spec hc h
  | cons bj b ih => ?_
  cases out with
  | nil => simp at hlen
  | cons o out => ?_
  have hlt := row_intermediate_lt ai bj o hc
  rw [value_cons,value_cons] at h ⊢
  generalize hs : ai.toNat*bj.toNat+o.toNat+carry = s at hlt
  have hsum : o.toNat+2^32*value out+ai.toNat*(bj.toNat+2^32*value b)+carry =
      s+2^32*(value out+ai.toNat*value b) := by
    rw [← hs]
    ring
  rw [hsum] at h ⊢
  obtain ⟨out',hout,hval,hlen'⟩ := @ih out (s >>> 32) (shiftRight_32_lt hlt)
    (by simpa using hlen) (tail_bound h)
  refine ⟨asU32 s::out',?_,value_step hval,by simp [hlen']⟩
  have hu : u64 s = some s := u64_of_lt (by omega)
  simp [mulRow,hs,hu,hout,Option.bind_eq_bind,Option.bind_some,Option.pure_def]

theorem mulRows_spec {a b out : List Limb} {i : Nat} (hlen : i+a.length+b.length ≤ out.length)
    (h : value out+2^(32*i)*(value a*value b) < 2^(32*out.length)) :
    ∃ out', mulRows b a i out = some out' ∧
      value out' = value out+2^(32*i)*(value a*value b) ∧ out'.length = out.length := by
  induction a generalizing i out with
  | nil => exact ⟨out,rfl,by simp,rfl⟩
  | cons ai a ih => ?_
  have hpow : 2^(32*(i+1)) = 2^(32*i)*2^32 := by rw [Nat.mul_add,Nat.pow_add]
  have hprod : 2^(32*i)*(value (ai::a)*value b) =
      2^(32*i)*(ai.toNat*value b)+2^(32*(i+1))*(value a*value b) := by
    rw [hpow,value_cons]
    ring
  rw [List.length_cons] at hlen
  rw [hprod] at h ⊢
  rw [mulRows]
  split
  · rename_i hz
    have hz : ai.toNat = 0 := by simp [hz]
    simp only [hz,Nat.zero_mul,Nat.mul_zero,Nat.zero_add] at h ⊢
    exact ih (by omega) h
  have hi : i ≤ out.length := by omega
  have hsplit := value_take_add_drop out hi
  have hpow' : 2^(32*out.length) = 2^(32*i)*2^(32*(out.drop i).length) := by
    rw [← Nat.pow_add,← Nat.mul_add,List.length_drop,Nat.add_sub_cancel' hi]
  have hfits : value (out.drop i)+ai.toNat*value b+0 < 2^(32*(out.drop i).length) := by
    apply Nat.lt_of_mul_lt_mul_left (a := 2^(32*i))
    rw [← hpow',Nat.add_zero,Nat.mul_add]
    omega
  obtain ⟨rest,hrest,hval,hlen'⟩ := mulRow_spec (by omega) (by simp; omega) hfits
  have hval' : value (out.take i++rest) = value out+2^(32*i)*(ai.toNat*value b) := by
    rw [value_append,hval,List.length_take,Nat.min_eq_left hi,Nat.add_zero,Nat.mul_add]
    omega
  have hlen'' : (out.take i++rest).length = out.length := by
    simp [hlen']
    omega
  obtain ⟨out',hout,hv,hl⟩ := @ih (out.take i++rest) (i+1) (by omega)
    (by rw [hval',hlen'']; omega)
  refine ⟨out',?_,by rw [hv,hval']; omega,hl.trans hlen''⟩
  simp [splitAt_of_le hi,hrest,hout,Option.bind_eq_bind,Option.bind_some]

theorem product_lt (a b : List Limb) : value a*value b < 2^(32*(a.length+b.length)) := by
  rw [Nat.mul_add,Nat.pow_add]
  exact Nat.mul_lt_mul'' (value_lt a) (value_lt b)

/-- The length of a product: none for an empty operand, else the two lengths together. -/
def productLength (a b : List Limb) : Nat := if a = [] ∨ b = [] then 0 else a.length+b.length

theorem mulMag_spec (a b : List Limb) : ∃ out, mulMag a b = some out ∧
    value out = value a*value b ∧ out.length = productLength a b := by
  unfold mulMag productLength
  split
  · rename_i h
    refine ⟨[],rfl,?_,rfl⟩
    rcases h with rfl | rfl <;> simp
  have h := product_lt a b
  obtain ⟨out,hout,hval,hlen⟩ := @mulRows_spec a b (List.replicate (a.length+b.length) 0) 0
    (by simp) (by simpa using h)
  exact ⟨out,hout,by simpa using hval,by simpa using hlen⟩

end
end CratonVM.BigInt
