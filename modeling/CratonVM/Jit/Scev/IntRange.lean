import CratonVM.Lib.MachineArithmetic

/-!
The range lattice of `jit/src/scev.rs` over the JVM `int`. Endpoints are exact integers; the sums and
products of endpoints are evaluated in 64 bits there and cannot leave them.
-/
namespace CratonVM.Jit.Scev
open Wrapping

def minInt : Int := -2^31
def maxInt : Int := 2^31-1

abbrev IsInt (v : Int) : Prop := Fits 32 v

theorem isInt_zero : IsInt 0 := by
  decide

theorem isInt_iff {v : Int} : IsInt v ↔ minInt ≤ v ∧ v ≤ maxInt := by
  unfold IsInt Fits minInt maxInt
  omega

inductive IntRange where
  | empty
  | range (lo hi : Int)
  deriving DecidableEq, Repr

namespace IntRange
def unknown : IntRange := .range minInt maxInt

def new (lo hi : Int) : IntRange := if lo > hi then .empty else .range lo hi

def constant (v : Int) : IntRange := .range v v

def arrayLength : IntRange := .range 0 maxInt

def i64Bounds : IntRange → Option (Int × Int)
  | .empty => none
  | .range lo hi => some (lo,hi)

/-- An exact interval back in the lattice; `none` when the computation that made it can wrap. -/
def fromI64 (lo hi : Int) : Option IntRange :=
  if lo > hi then some .empty
  else if lo < minInt ∨ hi > maxInt then none
  else some (.range lo hi)

def isEmpty : IntRange → Bool
  | .empty => true
  | .range _ _ => false

def isUnknown (r : IntRange) : Bool := r = unknown

def lo : IntRange → Option Int
  | .empty => none
  | .range lo _ => some lo

def hi : IntRange → Option Int
  | .empty => none
  | .range _ hi => some hi

def asConstant : IntRange → Option Int
  | .empty => none
  | .range lo hi => if lo = hi then some lo else none

def contains : IntRange → Int → Bool
  | .empty,_ => false
  | .range lo hi,v => lo ≤ v && v ≤ hi

/-- The hull of two ranges. -/
def join : IntRange → IntRange → IntRange
  | .empty,r => r
  | r,.empty => r
  | .range al ah,.range bl bh => .range (min al bl) (max ah bh)

def meet : IntRange → IntRange → IntRange
  | .range al ah,.range bl bh => new (max al bl) (min ah bh)
  | _,_ => .empty

def addNoWrap (a b : IntRange) : Option IntRange :=
  match a.i64Bounds,b.i64Bounds with
  | some (alo,ahi),some (blo,bhi) => fromI64 (alo+blo) (ahi+bhi)
  | _,_ => some .empty

def offsetNoWrap (r : IntRange) (k : Int) : Option IntRange := r.addNoWrap (constant k)

/-- A negative factor swaps the endpoints. -/
def scaleNoWrap (r : IntRange) (k : Int) : Option IntRange :=
  match r.i64Bounds with
  | none => some .empty
  | some (lo,hi) => fromI64 (min (lo*k) (hi*k)) (max (lo*k) (hi*k))

def minWith : IntRange → IntRange → IntRange
  | .range al ah,.range bl bh => .range (min al bl) (min ah bh)
  | _,_ => .empty

def maxWith : IntRange → IntRange → IntRange
  | .range al ah,.range bl bh => .range (max al bl) (max ah bh)
  | _,_ => .empty

def definitelyNonNegative : IntRange → Bool
  | .empty => false
  | .range lo _ => lo ≥ 0

@[simp] theorem contains_range {lo hi v : Int} :
    (range lo hi).contains v = true ↔ lo ≤ v ∧ v ≤ hi := by
  simp [contains]

@[simp] theorem contains_empty (v : Int) : empty.contains v = false := rfl

variable {v : Int} {r : IntRange}

theorem contains_cases (h : r.contains v = true) :
    ∃ lo hi, r = .range lo hi ∧ lo ≤ v ∧ v ≤ hi := by
  cases r with
  | empty => cases h
  | range lo hi => exact ⟨lo,hi,rfl,contains_range.mp h⟩

@[simp] theorem contains_unknown {v : Int} : unknown.contains v = true ↔ IsInt v := by
  rw [unknown,contains_range,isInt_iff]

@[simp] theorem contains_new {lo hi v : Int} :
    (new lo hi).contains v = true ↔ lo ≤ v ∧ v ≤ hi := by
  unfold new
  split
  · simp
    omega
  · exact contains_range

@[simp] theorem contains_meet {a b : IntRange} {v : Int} :
    (a.meet b).contains v = true ↔ a.contains v = true ∧ b.contains v = true := by
  cases a <;> cases b <;> simp [meet]
  omega

variable {a b : IntRange}

theorem contains_join (h : a.contains v = true ∨ b.contains v = true) :
    (a.join b).contains v = true := by
  cases a <;> cases b <;> simp_all [join]
  omega

theorem contains_fromI64 {lo hi : Int} (h : fromI64 lo hi = some r) :
    r.contains v = true ↔ lo ≤ v ∧ v ≤ hi := by
  unfold fromI64 at h
  split at h
  · cases h
    simp
    omega
  split at h
  · cases h
  cases h
  exact contains_range

theorem isInt_of_fromI64 {lo hi : Int} (h : fromI64 lo hi = some r)
    (hlo : lo ≤ v) (hhi : v ≤ hi) : IsInt v := by
  unfold fromI64 at h
  rw [isInt_iff]
  split at h
  · omega
  split at h
  · cases h
  · omega

theorem contains_minWith {x y : Int} (ha : a.contains x = true)
    (hb : b.contains y = true) : (a.minWith b).contains (min x y) = true := by
  obtain ⟨al,ah,rfl,ha⟩ := contains_cases ha
  obtain ⟨bl,bh,rfl,hb⟩ := contains_cases hb
  simp only [minWith,contains_range]
  omega

theorem contains_maxWith {x y : Int} (ha : a.contains x = true)
    (hb : b.contains y = true) : (a.maxWith b).contains (max x y) = true := by
  obtain ⟨al,ah,rfl,ha⟩ := contains_cases ha
  obtain ⟨bl,bh,rfl,hb⟩ := contains_cases hb
  simp only [maxWith,contains_range]
  omega

theorem contains_offsetNoWrap {k : Int} (h : a.offsetNoWrap k = some r)
    (hv : a.contains v = true) : r.contains (v+k) = true ∧ IsInt (v+k) := by
  obtain ⟨lo,hi,rfl,hlo,hhi⟩ := contains_cases hv
  have h : fromI64 (lo+k) (hi+k) = some r := h
  exact ⟨(contains_fromI64 h).mpr ⟨by omega,by omega⟩,isInt_of_fromI64 h (by omega) (by omega)⟩

theorem contains_scaleNoWrap {k : Int} (h : a.scaleNoWrap k = some r)
    (hv : a.contains v = true) : r.contains (v*k) = true ∧ IsInt (v*k) := by
  obtain ⟨lo,hi,rfl,hlo,hhi⟩ := contains_cases hv
  have hbetween : min (lo*k) (hi*k) ≤ v*k ∧ v*k ≤ max (lo*k) (hi*k) := by
    rcases Int.le_total 0 k with hk | hk
    · have h1 := Int.mul_le_mul_of_nonneg_right hlo hk
      have h2 := Int.mul_le_mul_of_nonneg_right hhi hk
      omega
    have h1 := Int.mul_le_mul_of_nonpos_right hlo hk
    have h2 := Int.mul_le_mul_of_nonpos_right hhi hk
    omega
  exact ⟨(contains_fromI64 h).mpr hbetween,isInt_of_fromI64 h hbetween.1 hbetween.2⟩

end IntRange
end CratonVM.Jit.Scev
