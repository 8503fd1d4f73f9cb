import Mathlib

/-!
The value ranges of `jit/src/range_analysis.rs`: closed intervals over a machine integer of a known
width, or bottom. Endpoints are exact integers; sums of endpoints are taken in 128 bits there.
-/
namespace CratonVM.Jit.RangeAnalysis
inductive IntWidth where
  | w32
  | w64
  deriving DecidableEq, Repr

namespace IntWidth
def min : IntWidth → Int
  | .w32 => -2^31
  | .w64 => -2^63

def max : IntWidth → Int
  | .w32 => 2^31-1
  | .w64 => 2^63-1

end IntWidth

/-- `none` is bottom. -/
structure Range where
  width : IntWidth
  iv : Option (Int × Int)
  deriving DecidableEq, Repr

namespace Range
def top (width : IntWidth) : Range := ⟨width,some (width.min,width.max)⟩

def empty (width : IntWidth) : Range := ⟨width,none⟩

/-- The interval, clamped into the width. -/
def exact (width : IntWidth) (lo hi : Int) : Range :=
  let lo := Max.max lo width.min
  let hi := Min.min hi width.max
  if lo > hi then ⟨width,none⟩ else ⟨width,some (lo,hi)⟩

def constant (width : IntWidth) (v : Int) : Range := exact width v v

def definitelyNonNegative (r : Range) : Bool :=
  match r.iv with
  | none => false
  | some (lo,_) => lo ≥ 0

def join (a b : Range) : Range :=
  if a.width ≠ b.width then top a.width
  else
    match a.iv,b.iv with
    | none,_ => b
    | _,none => a
    | some (al,ah),some (bl,bh) => exact a.width (Min.min al bl) (Max.max ah bh)

def meet (a b : Range) : Range :=
  if a.width ≠ b.width then a
  else
    match a.iv,b.iv with
    | some (al,ah),some (bl,bh) => exact a.width (Max.max al bl) (Min.min ah bh)
    | _,_ => empty a.width

/-- An endpoint that moved outwards goes to the extreme of the width. -/
def widen (a next : Range) : Range :=
  if a.width ≠ next.width then top a.width
  else
    match a.iv,next.iv with
    | none,_ => next
    | _,none => a
    | some (al,ah),some (bl,bh) =>
      exact a.width (if bl < al then a.width.min else Min.min al bl)
        (if bh > ah then a.width.max else Max.max ah bh)

/-- The exact interval, when the width can represent it. -/
def narrowExact (width : IntWidth) (lo hi : Int) : Option Range :=
  if lo > hi then some (empty width)
  else if lo < width.min ∨ hi > width.max then none
  else some ⟨width,some (lo,hi)⟩

def addNoWrap (a b : Range) : Option Range :=
  if a.width ≠ b.width then none
  else
    match a.iv,b.iv with
    | some (al,ah),some (bl,bh) => narrowExact a.width (al+bl) (ah+bh)
    | _,_ => some (empty a.width)

/-- The range admits the value. -/
def Has (r : Range) (v : Int) : Prop := ∃ lo hi, r.iv = some (lo,hi) ∧ lo ≤ v ∧ v ≤ hi

def Holds (width : IntWidth) (v : Int) : Prop := width.min ≤ v ∧ v ≤ width.max

variable {r a b : Range} {w : IntWidth} {v lo hi : Int}

theorem has_top (hv : Holds w v) : (top w).Has v := ⟨_,_,rfl,hv.1,hv.2⟩

theorem has_exact (hv : Holds w v) : (exact w lo hi).Has v ↔ lo ≤ v ∧ v ≤ hi := by
  obtain ⟨hmin,hmax⟩ := hv
  unfold exact
  dsimp only
  split
  · constructor
    · rintro ⟨_,_,h,_⟩
      cases h
    · omega
  constructor
  · rintro ⟨lo',hi',h,h1,h2⟩
    cases h
    omega
  intro h
  exact ⟨_,_,rfl,by omega,by omega⟩

theorem has_constant (hv : Holds w v) : (constant w v).Has v :=
  (has_exact hv).mpr ⟨Int.le_refl v,Int.le_refl v⟩

theorem nonneg_of_definitelyNonNegative (h : r.definitelyNonNegative = true) (hv : r.Has v) : 0 ≤ v := by
  obtain ⟨lo,hi,hr,h1,h2⟩ := hv
  unfold definitelyNonNegative at h
  rw [hr] at h
  have hlo := of_decide_eq_true h
  omega

theorem holds_any (hv : Holds .w32 v) (w : IntWidth) : Holds w v := by
  cases w with
  | w32 => exact hv
  | w64 =>
    simp only [Holds,IntWidth.min,IntWidth.max] at hv ⊢
    omega

section
variable (hv : Holds .w32 v)
include hv

theorem has_join (h : a.Has v ∨ b.Has v) : (a.join b).Has v := by
  unfold join
  split
  · exact has_top (holds_any hv _)
  cases hai : a.iv with
  | none =>
    rcases h with ⟨_,_,h,_⟩ | h
    · rw [hai] at h
      cases h
    · exact h
  | some p => ?_
  cases hbi : b.iv with
  | none =>
    rcases h with h | ⟨_,_,h,_⟩
    · exact h
    rw [hbi] at h
    cases h
  | some q => ?_
  rw [has_exact (holds_any hv _)]
  rcases h with ⟨_,_,h,h1,h2⟩ | ⟨_,_,h,h1,h2⟩
  · rw [hai] at h
    cases h
    omega
  rw [hbi] at h
  cases h
  omega

theorem has_meet (h : a.Has v) (h' : b.Has v) : (a.meet b).Has v := by
  unfold meet
  split
  · exact h
  obtain ⟨al,ah,hai,h1,h2⟩ := h
  obtain ⟨bl,bh,hbi,h3,h4⟩ := h'
  rw [hai,hbi]
  rw [has_exact (holds_any hv _)]
  omega

theorem has_widen (h : b.Has v) : (a.widen b).Has v := by
  unfold widen
  split
  · exact has_top (holds_any hv _)
  obtain ⟨bl,bh,hbi,h3,h4⟩ := h
  rw [hbi]
  cases hai : a.iv with
  | none => exact ⟨bl,bh,hbi,h3,h4⟩
  | some p => ?_
  obtain ⟨h5,h6⟩ := holds_any hv a.width
  rw [has_exact ⟨h5,h6⟩]
  constructor
  · split
    · exact h5
    · omega
  split
  · exact h6
  · omega

end

theorem has_addNoWrap {d : Int} (hd : Holds w d) {s : Range} (h : a.addNoWrap (constant w d) = some s)
    (hv : a.Has v) : s.Has (v+d) ∧ Holds w (v+d) := by
  obtain ⟨al,ah,hai,h1,h2⟩ := hv
  obtain ⟨cl,ch,hci,h3,h4⟩ := has_constant hd
  have hw : (constant w d).width = w := by
    unfold constant exact
    dsimp only
    split <;> rfl
  unfold addNoWrap at h
  split at h
  · cases h
  rename_i hsame
  rw [ne_eq,not_not,hw] at hsame
  rw [hai,hci] at h
  dsimp only at h
  unfold narrowExact at h
  split at h
  · omega
  split at h
  · cases h
  rename_i hfit
  cases h
  rw [not_or,hsame] at hfit
  exact ⟨⟨_,_,rfl,by omega,by omega⟩,by omega,by omega⟩

end Range
end CratonVM.Jit.RangeAnalysis
