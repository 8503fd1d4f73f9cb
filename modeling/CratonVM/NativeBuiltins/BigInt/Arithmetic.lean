import CratonVM.NativeBuiltins.BigInt.Magnitude

/-!
The Karatsuba product is the schoolbook product, limb for limb, and its recursion ends.
-/
namespace CratonVM.BigInt
open Limbs List Option
open BitVec hiding or_comm

theorem slabLoop_spec {product : List Limb → Option (List Limb)} {a b : List Limb}
    (hb : 0 < b.length)
    (hproduct : ∀ part, part.length ≤ b.length → ∃ p, product part = some p ∧
      value p = value part*value b)
    {turns off : Nat} {out : List Limb} (hturns : a.length ≤ off+turns) (hoff : off ≤ a.length)
    (hlen : out.length = a.length+b.length) (hout : value out = value (a.take off)*value b) :
    ∃ out', slabLoop product b.length turns a off out = some out' ∧
      value out' = value a*value b ∧ out'.length = a.length+b.length := by
  have hdone : off = a.length → value out = value a*value b := by
    rintro rfl
    rw [hout,take_length]
  induction turns generalizing off out with
  | zero =>
    refine ⟨out,if_neg (by omega),hdone (by omega),hlen⟩
  | succ turns ih => ?_
  rw [slabLoop]
  split
  · generalize hstop : min (off+b.length) a.length = stop
    have hle : off ≤ stop := by omega
    have hsa : stop ≤ a.length := by omega
    have hlentake : (a.take stop).length = stop := by rw [length_take]; omega
    have hpart := value_take_add_drop (a.take stop) (n := off) (by omega)
    rw [take_take,Nat.min_eq_left hle] at hpart
    obtain ⟨p,hp,hpv⟩ := hproduct ((a.take stop).drop off) (by
      rw [length_drop]
      omega)
    have hvalue : value out+2^(32*off)*value p = value (a.take stop)*value b := by
      rw [hout,hpv,hpart]
      ring
    have hfits : value out+2^(32*off)*value p < 2^(32*out.length) := by
      rw [hvalue,hlen]
      refine Nat.lt_of_lt_of_le (product_lt (a.take stop) b) (Nat.pow_le_pow_right (by omega) ?_)
      omega
    obtain ⟨out',hadd,hv,hl⟩ := addIntoFrom_spec (by omega) hfits
    obtain ⟨last,hlast,hlv,hll⟩ := @ih stop out' (by omega) hsa (by omega) (by rw [hv,hvalue])
      (by rintro rfl; rw [hv,hvalue,take_length])
    refine ⟨last,?_,hlv,hll⟩
    simp [hp,hadd,hlast,bind_eq_bind,bind_some]
  · exact ⟨out,rfl,hdone (by omega),hlen⟩

theorem karatsuba_identity (a0 a1 b0 b1 p : Nat) :
    (a0+p*a1)*(b0+p*b1) = a0*b0+p*((a0+a1)*(b0+b1)-a0*b0-a1*b1)+p*p*(a1*b1) := by
  have hmid : (a0+a1)*(b0+b1)-a0*b0-a1*b1 = a0*b1+a1*b0 := by
    have : (a0+a1)*(b0+b1) = a0*b0+a1*b1+(a0*b1+a1*b0) := by ring
    omega
  rw [hmid]
  ring

/-- What the recursion gives for operands of a smaller total length. -/
def ProductUpTo (fuel : Nat) : Prop :=
  ∀ a b : List Limb, a.length+b.length < fuel → ∃ out, mulMagKaratsuba fuel a b = some out ∧
    value out = value a*value b ∧ out.length = productLength a b

/-- The split at half the longer operand. -/
def splitProduct (fuel : Nat) (a b : List Limb) : Option (List Limb) := do
  let h := (a.length+1)/2
  let (a0,a1) ← splitAt a h
  let (b0,b1) ← splitAt b (min h b.length)
  let z0 ← mulMagKaratsuba fuel a0 b0
  let z2 ← mulMagKaratsuba fuel a1 b1
  let sa ← addMag a0 a1
  let sb ← addMag b0 b1
  let z1 ← mulMagKaratsuba fuel sa sb
  let z1 ← subInPlace z1 z0
  let z1 ← subInPlace z1 z2
  let out ← addInto (List.replicate (a.length+b.length) 0) z0
  let out ← addIntoFrom out h z1
  addIntoFrom out (2*h) z2

variable {fuel : Nat}

theorem splitProduct_spec (ih : ProductUpTo fuel) {a b : List Limb}
    (hfuel : a.length+b.length ≤ fuel) (hle : b.length ≤ a.length) (hb : 4 ≤ b.length)
    (hbalanced : a.length < 2*b.length) : ∃ out, splitProduct fuel a b = some out ∧
      value out = value a*value b ∧ out.length = a.length+b.length := by
  generalize hh : (a.length+1)/2 = h
  have hha : h ≤ a.length := by omega
  have hhb : h ≤ b.length := by omega
  have hva := value_take_add_drop a hha
  have hvb := value_take_add_drop b hhb
  have hla : (a.take h).length = h := by rw [length_take]; omega
  have hlb : (b.take h).length = h := by rw [length_take]; omega
  have hla' : (a.drop h).length = a.length-h := length_drop
  have hlb' : (b.drop h).length = b.length-h := length_drop
  obtain ⟨z0,hz0,hv0,-⟩ := ih (a.take h) (b.take h) (by omega)
  obtain ⟨z2,hz2,hv2,-⟩ := ih (a.drop h) (b.drop h) (by omega)
  obtain ⟨sa,hsa,hvsa,hlsa⟩ := addMag_spec (a.take h) (a.drop h)
  obtain ⟨sb,hsb,hvsb,hlsb⟩ := addMag_spec (b.take h) (b.drop h)
  obtain ⟨z1,hz1,hv1,-⟩ := ih sa sb (by omega)
  have hcross : value sa*value sb = value z0+value z2+
      (value (a.take h)*value (b.drop h)+value (a.drop h)*value (b.take h)) := by
    rw [hvsa,hvsb,hv0,hv2]
    ring
  obtain ⟨y1,hy1,hvy1,-⟩ := @subInPlace_spec z1 z0 (by omega)
  obtain ⟨x1,hx1,hvx1,-⟩ := @subInPlace_spec y1 z2 (by omega)
  -- The sums so far stay below the product, which fits in the two lengths.
  have htotal : value a*value b = value z0+2^(32*h)*value x1+2^(32*(2*h))*value z2 := by
    rw [hva,hvb,karatsuba_identity,hvx1,hvy1,hv1,hv0,hv2,hvsa,hvsb,Nat.mul_left_comm 32 2 h,
      Nat.two_mul,Nat.pow_add]
  have hlt := product_lt a b
  rw [htotal] at hlt
  have hzero : value (replicate (a.length+b.length) (0 : Limb)) = 0 := by simp
  obtain ⟨o0,ho0,hvo0,hlo0⟩ := @addInto_spec (replicate (a.length+b.length) 0) z0
    (by rw [hzero,length_replicate]; omega)
  rw [hzero,Nat.zero_add] at hvo0
  rw [length_replicate] at hlo0
  obtain ⟨o1,ho1,hvo1,hlo1⟩ := @addIntoFrom_spec o0 x1 h (by omega) (by rw [hvo0,hlo0]; omega)
  obtain ⟨o2,ho2,hvo2,hlo2⟩ := @addIntoFrom_spec o1 z2 (2*h) (by omega)
    (by rw [hvo1,hvo0,hlo1,hlo0]; omega)
  refine ⟨o2,?_,by rw [hvo2,hvo1,hvo0,htotal],by omega⟩
  simp only [splitProduct,hh,splitAt_of_le hha,Nat.min_eq_left hhb,splitAt_of_le hhb,hz0,hz2,hsa,
    hsb,hz1,hy1,hx1,ho0,ho1,ho2,bind_eq_bind,bind_some]

/-- The body of `mul_mag_karatsuba` once the longer operand is in front. -/
def orderedProduct (fuel : Nat) (a b : List Limb) : Option (List Limb) :=
  if b.length < karatsubaThreshold then mulMag a b
  else if a.length ≥ 2*b.length then
    slabLoop (fun part => mulMagKaratsuba fuel part b) b.length a.length a 0
      (List.replicate (a.length+b.length) 0)
  else splitProduct fuel a b

theorem mulMagKaratsuba_succ (fuel : Nat) (a b : List Limb) :
    mulMagKaratsuba (fuel+1) a b =
      if a.length ≥ b.length then orderedProduct fuel a b else orderedProduct fuel b a := by
  rw [mulMagKaratsuba]
  by_cases h : a.length ≥ b.length
  · rw [if_pos h,if_pos h]
    rfl
  rw [if_neg h,if_neg h]
  rfl

theorem productLength_comm (a b : List Limb) : productLength a b = productLength b a := by
  simp [productLength,or_comm,Nat.add_comm]

theorem orderedProduct_spec (ih : ProductUpTo fuel) {a b : List Limb}
    (hfuel : a.length+b.length ≤ fuel) (hle : b.length ≤ a.length) :
    ∃ out, orderedProduct fuel a b = some out ∧ value out = value a*value b ∧
      out.length = productLength a b := by
  unfold orderedProduct
  split
  · exact mulMag_spec a b
  rename_i hwide
  have hb : 80 ≤ b.length := Nat.le_of_not_lt hwide
  have hlen : productLength a b = a.length+b.length := by
    unfold productLength
    rw [if_neg]
    rintro (rfl | rfl)
    · rw [length_nil] at hle
      omega
    rw [length_nil] at hb
    omega
  rw [hlen]
  split
  · refine slabLoop_spec (by omega) ?_ (by omega) (Nat.zero_le _) (by simp) (by simp)
    intro part hpart
    obtain ⟨p,hp,hpv,-⟩ := ih part b (by omega)
    exact ⟨p,hp,hpv⟩
  · exact splitProduct_spec ih hfuel hle (by omega) (by omega)

theorem mulMagKaratsuba_spec (fuel : Nat) : ProductUpTo fuel := by
  induction fuel with
  | zero =>
    intro a b h
    omega
  | succ fuel ih => ?_
  intro a b h
  rw [mulMagKaratsuba_succ]
  split
  · rename_i hle
    exact orderedProduct_spec ih (by omega) hle
  obtain ⟨out,hout,hv,hl⟩ := @orderedProduct_spec fuel ih b a (by omega) (by omega)
  exact ⟨out,hout,by rw [hv,Nat.mul_comm],by rw [hl,productLength_comm]⟩

theorem mulMagKaratsuba_eq_mulMag {a b : List Limb} (h : a.length+b.length < fuel) :
    mulMagKaratsuba fuel a b = mulMag a b := by
  obtain ⟨x,hx,hvx,hlx⟩ := mulMagKaratsuba_spec fuel a b h
  obtain ⟨y,hy,hvy,hly⟩ := mulMag_spec a b
  rw [hx,hy,eq_of_value_eq (hlx.trans hly.symm) (hvx.trans hvy.symm)]

theorem pow_split (n : Nat) : 2^n = 2^(32*(n/32))*2^(n%32) := by
  rw [← Nat.pow_add,Nat.div_add_mod]

variable {bitShift : Nat}

theorem shl_or_eq {x : Limb} {carry : Nat} (hb : bitShift < 32) (hc : carry < 2^bitShift) :
    ((x.toNat <<< bitShift) % 2^64 ||| carry) = x.toNat*2^bitShift+carry := by
  have hpow : 2^bitShift ≤ 2^31 := Nat.pow_le_pow_right (by omega) (by omega)
  have hlt : x.toNat*2^bitShift < 2^64 :=
    Nat.lt_of_le_of_lt (Nat.mul_le_mul_left _ hpow) (by omega)
  rw [Nat.shiftLeft_eq,Nat.mod_eq_of_lt hlt,← Nat.shiftLeft_eq,
    ← Nat.shiftLeft_add_eq_or_of_lt hc]

theorem value_shlLoop {carry : Nat} {mag : List Limb} (hb : bitShift < 32)
    (hc : carry < 2^bitShift) :
    value (shlLoop bitShift mag carry) = value mag*2^bitShift+carry := by
  have hpow : 2^bitShift ≤ 2^31 := Nat.pow_le_pow_right (by omega) (by omega)
  induction mag generalizing carry with
  | nil => ?_
  | cons x mag ih =>
    have hmul : x.toNat*2^bitShift ≤ (2^32-1)*2^bitShift := Nat.mul_le_mul_right _ (by omega)
    rw [shlLoop]
    simp only [shl_or_eq hb hc]
    rw [value_step (ih (shiftRight_32_lt (by omega))),value_cons]
    ring
  rw [shlLoop]
  split
  · simp [toNat_asU32_of_lt (s := carry) (by omega)]
  simp
  omega

theorem value_shlMag (mag : List Limb) (n : Nat) : value (shlMag mag n) = value mag*2^n := by
  unfold shlMag
  split
  · rename_i h
    simp [h]
  have hzero : value (List.replicate (n/32) (0 : Limb)) = 0 := by simp
  rw [value_append,hzero,Nat.zero_add,List.length_replicate,pow_split n]
  split
  · rename_i h
    rw [h,Nat.pow_zero,Nat.mul_one,Nat.mul_comm]
  rw [value_shlLoop (Nat.mod_lt _ (by omega)) (Nat.two_pow_pos _),Nat.add_zero]
  ring

theorem toNat_shr_or (x y : Limb) (h0 : 0 < bitShift) (hb : bitShift < 32) :
    (x >>> bitShift ||| y <<< (32-bitShift)).toNat =
      x.toNat/2^bitShift+2^(32-bitShift)*(y.toNat%2^bitShift) := by
  have hx := limb_lt x
  have hp : 2^32 = 2^bitShift*2^(32-bitShift) := by rw [← Nat.pow_add]; congr 1; omega
  have hlow : x.toNat/2^bitShift < 2^(32-bitShift) := Nat.div_lt_of_lt_mul (by rwa [← hp])
  have hhigh : (y <<< (32-bitShift)).toNat = 2^(32-bitShift)*(y.toNat%2^bitShift) := by
    rw [BitVec.toNat_shiftLeft,Nat.shiftLeft_eq,hp,Nat.mul_mod_mul_right,Nat.mul_comm]
  rw [BitVec.toNat_or,BitVec.toNat_ushiftRight,Nat.shiftRight_eq_div_pow,hhigh,Nat.or_comm,
    ← Nat.two_pow_add_eq_or_of_lt hlow,Nat.add_comm]

theorem value_mod_pow (hb : bitShift < 32) (mag : List Limb) :
    value mag % 2^bitShift = (mag.headD 0).toNat % 2^bitShift := by
  have hp : 2^32 = 2^bitShift*2^(32-bitShift) := by rw [← Nat.pow_add]; congr 1; omega
  rw [value_head_tail mag,hp,Nat.mul_assoc,Nat.add_mul_mod_self_left]

theorem value_shrLoop (h0 : 0 < bitShift) (hb : bitShift < 32) (hi : List Limb) :
    value (shrLoop bitShift hi) = value hi/2^bitShift := by
  have hp : 2^32 = 2^bitShift*2^(32-bitShift) := by rw [← Nat.pow_add]; congr 1; omega
  induction hi with
  | nil => simp [shrLoop]
  | cons x hi ih => ?_
  rw [shrLoop,value_cons,value_cons,ih,toNat_shr_or _ _ h0 hb,← value_mod_pow hb,hp,
    Nat.mul_assoc,Nat.mul_assoc,Nat.add_mul_div_left _ _ (Nat.two_pow_pos bitShift)]
  have hdiv := Nat.mod_add_div (value hi) (2^bitShift)
  calc x.toNat/2^bitShift+2^(32-bitShift)*(value hi%2^bitShift)+
        2^bitShift*(2^(32-bitShift)*(value hi/2^bitShift))
      = x.toNat/2^bitShift+2^(32-bitShift)*(value hi%2^bitShift+2^bitShift*(value hi/2^bitShift)) := by
        ring
    _ = x.toNat/2^bitShift+2^(32-bitShift)*value hi := by rw [hdiv]

theorem any_ne_zero {mag : List Limb} : mag.any (· ≠ 0) = true ↔ value mag ≠ 0 := by
  induction mag with
  | nil => simp
  | cons x mag ih =>
    have hx : x ≠ 0 ↔ x.toNat ≠ 0 :=
      not_congr ⟨fun h => by simp [h],fun h => BitVec.eq_of_toNat_eq (by simpa using h)⟩
    rw [List.any_cons,Bool.or_eq_true,ih,value_cons,decide_eq_true_eq,hx]
    omega

theorem toNat_and_mask (x : Limb) (hb : bitShift < 32) :
    (x &&& (1#32 <<< bitShift-1)).toNat = x.toNat % 2^bitShift := by
  have hpow : 2^bitShift ≤ 2^31 := Nat.pow_le_pow_right (by omega) (by omega)
  have hpos := Nat.two_pow_pos bitShift
  have hmask : (1#32 <<< bitShift-1#32).toNat = 2^bitShift-1 := by
    rw [BitVec.toNat_sub,BitVec.toNat_shiftLeft,Nat.shiftLeft_eq]
    simp only [BitVec.toNat_ofNat]
    omega
  show x.toNat &&& (1#32 <<< bitShift-1#32).toNat = _
  rw [hmask,Nat.and_two_pow_sub_one_eq_mod]

theorem shrMag_spec (mag : List Limb) (n : Nat) :
    value (shrMag mag n).1 = value mag/2^n ∧ ((shrMag mag n).2 = true ↔ value mag%2^n ≠ 0) := by
  have hb : n%32 < 32 := Nat.mod_lt _ (by omega)
  unfold shrMag
  dsimp only
  split
  · have hlt : value mag < 2^n := Nat.lt_of_lt_of_le (value_lt mag)
      (Nat.pow_le_pow_right (by omega) (by omega))
    rw [Nat.div_eq_of_lt hlt,Nat.mod_eq_of_lt hlt]
    exact ⟨rfl,any_ne_zero⟩
  have hle : n/32 ≤ mag.length := by omega
  have hsplit := value_take_add_drop mag hle
  have htake := value_lt (mag.take (n/32))
  rw [List.length_take,Nat.min_eq_left hle] at htake
  have hdiv : value mag/2^(32*(n/32)) = value (mag.drop (n/32)) := by
    rw [hsplit,Nat.add_mul_div_left _ _ (Nat.two_pow_pos _),Nat.div_eq_of_lt htake,Nat.zero_add]
  have hmod : value mag%2^n = value (mag.take (n/32))+
      2^(32*(n/32))*(value (mag.drop (n/32))%2^(n%32)) := by
    rw [pow_split n,Nat.mod_mul,hdiv,hsplit,Nat.add_mul_mod_self_left,Nat.mod_eq_of_lt htake]
  constructor
  · rw [pow_split n,← Nat.div_div_eq_div_mul,hdiv]
    split
    · rename_i h
      rw [h,Nat.pow_zero,Nat.div_one]
    · rw [value_shrLoop (by omega) hb]
  have hhead : mag.getD (n/32) 0 = (mag.drop (n/32)).headD 0 := by
    simp [List.getD,List.headD_eq_head?_getD]
  have hlow : (n%32 ≠ 0 ∧ mag.getD (n/32) 0 &&& (1#32 <<< (n%32)-1) ≠ 0) ↔
      value (mag.drop (n/32))%2^(n%32) ≠ 0 := by
    rw [value_mod_pow hb,← hhead,← toNat_and_mask _ hb]
    constructor
    · rintro ⟨-,hne⟩ h0
      exact hne (BitVec.eq_of_toNat_eq (by simpa using h0))
    intro h
    refine ⟨?_,?_⟩
    · intro h0
      rw [toNat_and_mask _ hb,h0,Nat.pow_zero,Nat.mod_one] at h
      exact h rfl
    intro h0
    rw [h0] at h
    exact h rfl
  have hpos := Nat.two_pow_pos (32*(n/32))
  rw [decide_eq_true_eq,hlow,any_ne_zero,hmod]
  constructor
  · rintro (h | h)
    · omega
    have := Nat.mul_pos hpos (Nat.pos_of_ne_zero h)
    omega
  intro h
  by_contra hno
  push Not at hno
  rw [hno.1,hno.2] at h
  exact h rfl

end CratonVM.BigInt
namespace CratonVM
open Limbs BigInt

structure BigInt where
  neg : Bool
  mag : List Limb
  deriving DecidableEq, Repr

namespace BigInt
def zero : BigInt := ⟨false,[]⟩

def isZero (b : BigInt) : Bool := b.mag.isEmpty

def normalize (mag : List Limb) (neg : Bool) : BigInt :=
  let mag := trim mag
  if mag = [] then ⟨false,mag⟩ else ⟨neg,mag⟩

def cmp (a b : BigInt) : Ordering :=
  match a.neg, b.neg with
  | false, true => .gt
  | true, false => .lt
  | false, false => cmpMag a.mag b.mag
  | true, true => cmpMag b.mag a.mag

def absValue (b : BigInt) : BigInt := ⟨false,b.mag⟩

def negValue (b : BigInt) : BigInt := if b.isZero then zero else ⟨!b.neg,b.mag⟩

def add (a b : BigInt) : Option BigInt :=
  if a.neg = b.neg then (addMag a.mag b.mag).map (normalize · a.neg)
  else
    match cmpMag a.mag b.mag with
    | .eq => some zero
    | .gt => (subMag a.mag b.mag).map (normalize · a.neg)
    | .lt => (subMag b.mag a.mag).map (normalize · b.neg)

def sub (a b : BigInt) : Option BigInt := add a b.negValue

def mul (fastMul : Bool) (a b : BigInt) : Option BigInt :=
  if a.isZero ∨ b.isZero then some zero
  else
    let wide := min a.mag.length b.mag.length ≥ karatsubaThreshold
    let mag :=
      if wide ∧ fastMul then mulMagKaratsuba (a.mag.length+b.mag.length+1) a.mag b.mag
      else mulMag a.mag b.mag
    mag.map (normalize · (a.neg != b.neg))

def shl (b : BigInt) (n : UInt32) : BigInt :=
  if b.isZero ∨ n = 0 then b else normalize (shlMag b.mag n.toNat) b.neg

def shr (b : BigInt) (n : UInt32) : Option BigInt :=
  if b.isZero ∨ n = 0 then some b
  else
    let (q,lost) := shrMag b.mag n.toNat
    if b.neg then
      if lost then (addMag q [1]).map (normalize · true) else some (normalize q true)
    else some (normalize q false)

/-- No zero limb at the top, and zero is not negative. -/
def Canonical (b : BigInt) : Prop := Trimmed b.mag ∧ (b.mag = [] → b.neg = false)

instance (b : BigInt) : Decidable b.Canonical := inferInstanceAs (Decidable (_ ∧ _))

/-- The integer with this sign and magnitude. -/
def signed (neg : Bool) (n : Nat) : Int := if neg then -n else n

def toInt (b : BigInt) : Int := signed b.neg (value b.mag)

end BigInt
end CratonVM
namespace CratonVM.BigInt
open Limbs

/-- The result is the canonical value of an integer. -/
def Denotes (r : BigInt) (v : Int) : Prop := r.Canonical ∧ r.toInt = v

/-- The operation returns, and returns the canonical value of an integer. -/
def Returns (r : Option BigInt) (v : Int) : Prop := ∃ b, r = some b ∧ b.Denotes v

section
@[simp] theorem signed_zero (neg : Bool) : signed neg 0 = 0 := by cases neg <;> rfl

theorem signed_not (neg : Bool) (n : Nat) : signed (!neg) n = -signed neg n := by
  cases neg <;> simp [signed]

theorem signed_mul (s t : Bool) (m n : Nat) :
    signed (s != t) (m*n) = signed s m*signed t n := by
  cases s <;> cases t <;> simp [signed]

theorem signed_mul_pow (s : Bool) (m n : Nat) : signed s (m*2^n) = signed s m*2^n := by
  cases s <;> simp [signed]

theorem signed_tdiv (s t : Bool) (m n : Nat) : (signed s m).tdiv (signed t n) = signed (s != t) (m/n) := by
  cases s <;> cases t <;> simp [signed]

theorem signed_tmod (s t : Bool) (m n : Nat) : (signed s m).tmod (signed t n) = signed s (m%n) := by
  cases s <;> cases t <;> simp [signed,Int.tmod_eq_emod_of_nonneg]

theorem value_eq_zero {mag : List Limb} (h : Trimmed mag) : value mag = 0 ↔ mag = [] := by
  constructor
  · intro h0
    by_contra hne
    have := h.le_value hne
    have := Nat.two_pow_pos (32*(mag.length-1))
    omega
  rintro rfl
  rfl

theorem isZero_iff {b : BigInt} : b.isZero = true ↔ b.mag = [] := List.isEmpty_iff

theorem denotes_zero : zero.Denotes 0 := ⟨by decide,rfl⟩

theorem normalize_denotes (mag : List Limb) (neg : Bool) :
    (normalize mag neg).Denotes (signed neg (value mag)) := by
  unfold normalize
  dsimp only
  split
  · rename_i h
    have hv : value mag = 0 := by rw [← value_trim,h,value_nil]
    rw [h,hv,signed_zero]
    exact denotes_zero
  rename_i h
  exact ⟨⟨trimmed_trim mag,fun h' => absurd h' h⟩,by simp [toInt]⟩

theorem Canonical.value_pos {r : BigInt} (h : r.Canonical) (hn : r.neg = true) :
    0 < value r.mag := by
  rcases Nat.eq_zero_or_pos (value r.mag) with h0 | hpos
  · rw [h.2 ((value_eq_zero h.1).mp h0)] at hn
    cases hn
  · exact hpos

theorem compare_natCast (m n : Nat) : compare (m : Int) n = compare m n := by
  rcases Nat.lt_trichotomy m n with h | h | h
  · rw [compare_lt_iff_lt.mpr h,compare_lt_iff_lt.mpr (by omega)]
  · rw [compare_eq_iff_eq.mpr h,compare_eq_iff_eq.mpr (by omega)]
  · rw [compare_gt_iff_gt.mpr h,compare_gt_iff_gt.mpr (by omega)]

theorem compare_neg_natCast (m n : Nat) : compare (-m : Int) (-n) = compare n m := by
  rcases Nat.lt_trichotomy n m with h | h | h
  · rw [compare_lt_iff_lt.mpr h,compare_lt_iff_lt.mpr (by omega)]
  · rw [compare_eq_iff_eq.mpr h,compare_eq_iff_eq.mpr (by omega)]
  · rw [compare_gt_iff_gt.mpr h,compare_gt_iff_gt.mpr (by omega)]

end

section
variable {a b : BigInt}

section
variable (ha : a.Canonical)
include ha

theorem negValue_denotes : a.negValue.Denotes (-a.toInt) := by
  unfold negValue
  split
  · rename_i h
    have hv : a.toInt = 0 := by simp [toInt,(isZero_iff).mp h]
    rw [hv]
    exact denotes_zero
  rename_i h
  exact ⟨⟨ha.1,fun h' => absurd ((isZero_iff).mpr h') h⟩,by simp [toInt,signed_not]⟩

theorem absValue_denotes : a.absValue.Denotes |a.toInt| := by
  refine ⟨⟨ha.1,fun _ => rfl⟩,?_⟩
  obtain ⟨neg,mag⟩ := a
  cases neg <;> simp [absValue,toInt,signed]

theorem cmp_eq (hb : b.Canonical) : a.cmp b = compare a.toInt b.toInt := by
  have hapos := ha.value_pos
  have hbpos := hb.value_pos
  unfold cmp toInt
  cases hna : a.neg <;> cases hnb : b.neg
  · simp only [signed,Bool.false_eq_true,if_false]
    rw [cmpMag_eq ha.1 hb.1,compare_natCast]
  · have := hbpos hnb
    refine (compare_gt_iff_gt.mpr ?_).symm
    simp only [signed,Bool.false_eq_true,if_false,if_true]
    omega
  · have := hapos hna
    refine (compare_lt_iff_lt.mpr ?_).symm
    simp only [signed,Bool.false_eq_true,if_false,if_true]
    omega
  simp only [signed,if_true]
  rw [cmpMag_eq hb.1 ha.1,compare_neg_natCast]

theorem add_returns (hb : b.Canonical) :
    Returns (add a b) (a.toInt+b.toInt) := by
  unfold add
  split
  · rename_i hsign
    obtain ⟨out,hout,hval,-⟩ := addMag_spec a.mag b.mag
    refine ⟨normalize out a.neg,by rw [hout]; rfl,?_⟩
    have h := normalize_denotes out a.neg
    rwa [hval,show signed a.neg (value a.mag+value b.mag) = a.toInt+b.toInt by
      unfold toInt
      rw [← hsign]
      cases a.neg <;> simp [signed]
      omega] at h
  rename_i hsign
  rw [cmpMag_eq ha.1 hb.1]
  split
  · rename_i hcmp
    have heq := Nat.compare_eq_eq.mp hcmp
    refine ⟨zero,rfl,?_⟩
    have hz : a.toInt+b.toInt = 0 := by
      unfold toInt
      rw [heq]
      revert hsign
      cases a.neg <;> cases b.neg <;> simp [signed]
    rw [hz]
    exact denotes_zero
  · rename_i hcmp
    have hgt := Nat.compare_eq_gt.mp hcmp
    obtain ⟨out,hout,hval⟩ := subMag_spec hgt.le
    refine ⟨normalize out a.neg,by rw [hout]; rfl,?_⟩
    have h := normalize_denotes out a.neg
    rwa [hval,show signed a.neg (value a.mag-value b.mag) = a.toInt+b.toInt by
      unfold toInt
      revert hsign
      cases a.neg <;> cases b.neg <;> simp [signed] <;> omega] at h
  rename_i hcmp
  have hlt := Nat.compare_eq_lt.mp hcmp
  obtain ⟨out,hout,hval⟩ := subMag_spec hlt.le
  refine ⟨normalize out b.neg,by rw [hout]; rfl,?_⟩
  have h := normalize_denotes out b.neg
  rwa [hval,show signed b.neg (value b.mag-value a.mag) = a.toInt+b.toInt by
    unfold toInt
    revert hsign
    cases a.neg <;> cases b.neg <;> simp [signed] <;> omega] at h

theorem sub_returns (hb : b.Canonical) :
    Returns (sub a b) (a.toInt-b.toInt) := by
  have hn := negValue_denotes hb
  have h := add_returns ha hn.1
  rwa [hn.2,← sub_eq_add_neg] at h

end

theorem mul_returns (fastMul : Bool) : Returns (mul fastMul a b) (a.toInt*b.toInt) := by
  unfold mul
  split
  · rename_i hz
    refine ⟨zero,rfl,?_⟩
    have hv : a.toInt*b.toInt = 0 := by
      rcases hz with h | h <;> simp [toInt,(isZero_iff).mp h]
    rw [hv]
    exact denotes_zero
  have hroute : (if min a.mag.length b.mag.length ≥ karatsubaThreshold ∧ fastMul then
      mulMagKaratsuba (a.mag.length+b.mag.length+1) a.mag b.mag
      else mulMag a.mag b.mag) = mulMag a.mag b.mag := by
    split
    · exact mulMagKaratsuba_eq_mulMag (Nat.lt_succ_self _)
    · rfl
  dsimp only
  rw [hroute]
  obtain ⟨out,hout,hval,-⟩ := mulMag_spec a.mag b.mag
  refine ⟨normalize out (a.neg != b.neg),by rw [hout]; rfl,?_⟩
  have h := normalize_denotes out (a.neg != b.neg)
  rwa [hval,signed_mul] at h

theorem shl_denotes (ha : a.Canonical) (n : UInt32) :
    (shl a n).Denotes (a.toInt*2^n.toNat) := by
  unfold shl
  split
  · rename_i h
    refine ⟨ha,?_⟩
    rcases h with h | rfl
    · simp [toInt,(isZero_iff).mp h]
    · simp
  have h := normalize_denotes (shlMag a.mag n.toNat) a.neg
  rwa [value_shlMag,signed_mul_pow] at h

theorem neg_fdiv (v n : Nat) :
    Int.fdiv (signed true v) (2^n) = signed true (v/2^n+if v%2^n ≠ 0 then 1 else 0) := by
  have hpos := Nat.two_pow_pos n
  have hdm := Nat.div_add_mod v (2^n)
  have hlt : v%2^n < 2^n := Nat.mod_lt _ hpos
  rw [show (2^n : Int) = ((2^n : Nat) : Int) by rfl,
    Int.fdiv_eq_ediv_of_nonneg _ (by omega)]
  generalize 2^n = p at *
  generalize v/p = q at *
  generalize v%p = r at *
  rw [← hdm]
  simp only [signed,if_true]
  split
  · have h : -((p*q+r : Nat) : Int) = (p-r : Int)+p*(-(q+1)) := by push_cast; ring
    rw [h,Int.add_mul_ediv_left _ _ (by omega),Int.ediv_eq_zero_of_lt (by omega) (by omega)]
    omega
  rename_i h0
  have h : -((p*q+r : Nat) : Int) = p*(-q) := by
    rw [Decidable.not_not.mp h0]
    push_cast
    ring
  rw [h,Int.mul_ediv_cancel_left _ (by omega)]
  simp

theorem shr_returns (ha : a.Canonical) (n : UInt32) :
    Returns (shr a n) (Int.fdiv a.toInt (2^n.toNat)) := by
  unfold shr
  split
  · rename_i h
    refine ⟨a,rfl,ha,?_⟩
    rcases h with h | rfl
    · simp [toInt,(isZero_iff).mp h]
    · simp
  obtain ⟨hq,hlost⟩ := shrMag_spec a.mag n.toNat
  dsimp only
  cases hneg : a.neg
  · refine ⟨_,rfl,?_⟩
    have h := normalize_denotes (shrMag a.mag n.toNat).1 false
    rw [hq] at h
    have hv : Int.fdiv a.toInt (2^n.toNat) = signed false (value a.mag/2^n.toNat) := by
      simp only [toInt,hneg,signed]
      rw [Int.fdiv_eq_ediv_of_nonneg _ (by positivity)]
      simp
    rwa [hv]
  rw [show a.toInt = signed true (value a.mag) by rw [toInt,hneg],neg_fdiv]
  cases hl : (shrMag a.mag n.toNat).2
  · have h0 : ¬value a.mag%2^n.toNat ≠ 0 := by
      intro h
      rw [hlost.mpr h] at hl
      cases hl
    refine ⟨normalize (shrMag a.mag n.toNat).1 true,rfl,?_⟩
    have h := normalize_denotes (shrMag a.mag n.toNat).1 true
    rw [if_neg h0]
    rwa [hq] at h
  obtain ⟨out,hout,hval,-⟩ := addMag_spec (shrMag a.mag n.toNat).1 [1]
  refine ⟨normalize out true,by rw [hout]; rfl,?_⟩
  have h := normalize_denotes out true
  rw [if_pos (hlost.mp hl)]
  rwa [hval,hq] at h

/-- The arithmetic is exact and canonical. Both products go by one value whichever way they are
computed: on any two magnitudes the Karatsuba recursion ends, with the limbs of the schoolbook
product. No operation indexes outside its operands or leaves a 64-bit intermediate, as all of
them return. -/
theorem bigInt_exact (ha : a.Canonical) (hb : b.Canonical) (fastMul : Bool) (n : UInt32) :
    Returns (add a b) (a.toInt+b.toInt) ∧ Returns (sub a b) (a.toInt-b.toInt) ∧
      Returns (mul fastMul a b) (a.toInt*b.toInt) ∧ a.negValue.Denotes (-a.toInt) ∧
      a.absValue.Denotes |a.toInt| ∧ (shl a n).Denotes (a.toInt*2^n.toNat) ∧
      Returns (shr a n) (Int.fdiv a.toInt (2^n.toNat)) ∧ a.cmp b = compare a.toInt b.toInt ∧
      ∀ x y : List Limb, ∀ fuel > x.length+y.length, ∃ out, mulMagKaratsuba fuel x y = some out ∧
        mulMag x y = some out ∧ value out = value x*value y := by
  refine ⟨add_returns ha hb,sub_returns ha hb,mul_returns fastMul,negValue_denotes ha,
    absValue_denotes ha,shl_denotes ha n,shr_returns ha n,cmp_eq ha hb,?_⟩
  intro x y fuel hfuel
  obtain ⟨out,hout,hval,-⟩ := mulMag_spec x y
  exact ⟨out,(mulMagKaratsuba_eq_mulMag hfuel).trans hout,hout,hval⟩

theorem bigInt_exact_minusOne :
    Returns (shr ⟨true,[1]⟩ 40) (-1) ∧ Returns (mul true ⟨true,[1]⟩ ⟨false,[0,1]⟩) (-2^32) :=
  ⟨(@bigInt_exact ⟨true,[1]⟩ ⟨false,[0,1]⟩ (by decide) (by decide) true 40).2.2.2.2.2.2.1,
    (@bigInt_exact ⟨true,[1]⟩ ⟨false,[0,1]⟩ (by decide) (by decide) true 40).2.2.1⟩

end

theorem Denotes.unique {r s : BigInt} {v : Int} (hr : r.Denotes v) (hs : s.Denotes v) : r = s := by
  have hsame : r.neg = s.neg ∧ value r.mag = value s.mag := by
    have h := hr.2.trans hs.2.symm
    have hrpos := hr.1.value_pos
    have hspos := hs.1.value_pos
    rw [toInt,toInt,signed,signed] at h
    cases hrn : r.neg <;> cases hsn : s.neg <;> simp [hrn,hsn] at * <;> omega
  obtain ⟨hneg,hval⟩ := hsame
  have hmag : r.mag = s.mag := eq_of_value_eq (le_antisymm (hr.1.1.length_le_of_value_le hval.le)
    (hs.1.1.length_le_of_value_le hval.ge)) hval
  cases r
  cases s
  rw [mk.injEq]
  exact ⟨hneg,hmag⟩

theorem Returns.unique {r s : Option BigInt} {v w : Int} (hr : Returns r v) (hs : Returns s w) (h : v = w) : r = s := by
  obtain ⟨x,rfl,hx⟩ := hr
  obtain ⟨y,rfl,hy⟩ := hs
  rw [hx.unique (h ▸ hy)]

theorem Returns.bind {r : Option BigInt} {f : BigInt → Option BigInt} {v w : Int} (hr : Returns r v)
    (hf : ∀ x, x.Canonical → x.toInt = v → Returns (f x) w) : Returns (r.bind f) w := by
  obtain ⟨x,rfl,hx⟩ := hr
  exact hf x hx.1 hx.2

end CratonVM.BigInt
