import CratonVM.Gc.OldGen.BlockOffsets

/-!
A generation whose allocated bytes are objects end to end, the hits that a set of dirty ranges
has in it, and the two linear walks: each returns exactly these hits and no gap.
-/
namespace CratonVM.Gc
open Spans Spans.Span OldGen List Option

/-- Sorted, disjoint, nonempty ranges. -/
structure RangesOk (ranges : List CardRange) : Prop where
  ascending : ranges.Pairwise fun a b => a.2 ≤ b.1
  nonempty : ∀ r ∈ ranges, r.1 < r.2

/-- The free blocks and the cells between them fill the store. Both lists are in address order. -/
structure Laid (st : Store) (sorted cells : List Span) : Prop where
  packed : Packed st.len (sorted ++ cells)
  full : total (sorted ++ cells) = st.len
  nonempty : 0 < st.len
  free : sorted.Pairwise fun a b => a.offset ≤ b.offset
  order : cells.Pairwise fun a b => a.offset ≤ b.offset

/-- The walks size the header of the cell to its extent. -/
def Sized (st : Store) (c : Span) : Prop := ∃ isRef, st.botObjectExtent c.offset = some (c.size,isRef)

/-- The cells are objects, each with a header that the walks can size. -/
structure Tiled (st : Store) (sorted objects : List Span) : Prop extends Laid st sorted objects where
  sized : ∀ o ∈ objects, ∃ isRef, st.botObjectExtent o.offset = some (o.size,isRef)
  filler : ∀ o ∈ objects, (st.headerAt o.offset).classId ≠ gapFillerClassId

/-- The cells are objects, and the sentinels on tails too small for a header. -/
structure GapTiled (st : Store) (sorted cells : List Span) : Prop extends Laid st sorted cells where
  sized : ∀ c ∈ cells, (st.headerAt c.offset).classId ≠ gapFillerClassId →
    ∃ isRef, st.botObjectExtent c.offset = some (c.size,isRef)
  sentinel : ∀ c ∈ cells, (st.headerAt c.offset).classId = gapFillerClassId →
    c.size = 8 ∧ (st.headerAt c.offset).mark = 8

def validObjects (st : Store) (cells : List Span) : List Span :=
  cells.filter fun c => (st.headerAt c.offset).classId ≠ gapFillerClassId

theorem validObjects_sublist (st : Store) (cells : List Span) : (validObjects st cells).Sublist cells :=
  filter_sublist

theorem mem_validObjects {st : Store} {cells : List Span} {c : Span} :
    c ∈ validObjects st cells ↔ c ∈ cells ∧ (st.headerAt c.offset).classId ≠ gapFillerClassId := by
  rw [validObjects,mem_filter,decide_eq_true_iff]

theorem Tiled.gapTiled {st : Store} {sorted objects : List Span} (h : Tiled st sorted objects) :
    GapTiled st sorted objects ∧ validObjects st objects = objects := by
  refine ⟨⟨h.toLaid,fun c hc _ => h.sized c hc,fun c hc hx => absurd hx (h.filler c hc)⟩,?_⟩
  refine filter_eq_self.mpr ?_
  intro c hc
  exact decide_eq_true (h.filler c hc)

def Boundary (st : Store) (sorted objects : List Span) (x : Nat) : Prop :=
  x = st.len ∨ ∃ s ∈ sorted ++ objects, s.offset = x

namespace Laid
variable {st : Store} {sorted objects : List Span}

theorem pos (h : Laid st sorted objects) {s : Span} (hs : s ∈ sorted ++ objects) : 0 < s.size := by
  rcases h.packed.nonempty with hp | h0
  · exact hp s hs
  have := h.nonempty
  omega

theorem ascending_free (h : Laid st sorted objects) : Ascending sorted :=
  ascending_of_sorted h.free (pairwise_append.mp h.packed.apart).1
    (.inl fun _ hs => h.pos (mem_append_left _ hs))

theorem ascending_objects (h : Laid st sorted objects) : Ascending objects :=
  ascending_of_sorted h.order (pairwise_append.mp h.packed.apart).2.1
    (.inl fun _ hs => h.pos (mem_append_right _ hs))

theorem apart (h : Laid st sorted objects) {b o : Span} (hb : b ∈ sorted) (ho : o ∈ objects) :
    Apart b o := (pairwise_append.mp h.packed.apart).2.2 b hb o ho

section
variable (h : Laid st sorted objects)
include h

theorem boundary_zero : Boundary st sorted objects 0 := by
  obtain ⟨s,hs,h1,_⟩ := h.packed.cover h.full h.nonempty
  exact .inr ⟨s,hs,by omega⟩

theorem boundary_stop {s : Span} (hs : s ∈ sorted ++ objects) :
    Boundary st sorted objects s.stop := by
  have hin := h.packed.inside s hs
  rcases Nat.lt_or_ge s.stop st.len with hlt | hge
  · exact .inr (h.packed.next h.full hs hlt)
  · exact .inl (by omega)

theorem not_straddled {x : Nat}
    (hx : Boundary st sorted objects x) {s : Span} (hs : s ∈ sorted ++ objects) :
    s.stop ≤ x ∨ x ≤ s.offset := by
  rcases hx with rfl | ⟨t,ht,rfl⟩
  · exact .inl (h.packed.inside s hs)
  rcases eq_or_ne s t with rfl | hne
  · exact .inr le_rfl
  have hap := h.packed.apart.forall hs ht hne
  unfold Apart Span.stop at *
  omega

theorem object_at {x stop : Nat}
    (hx : Boundary st sorted objects x) (hlt : x < stop) (hstop : Boundary st sorted objects stop)
    (hle : stop ≤ st.len) (hfree : ∀ b ∈ sorted, ¬ (b.offset ≤ x ∧ x < b.stop)) :
    ∃ o ∈ objects, o.offset = x ∧ o.stop ≤ stop := by
  rcases hx with rfl | ⟨o,ho,rfl⟩
  · omega
  have hpos := h.pos ho
  rcases mem_append.mp ho with hb | ho'
  · exact absurd ⟨le_rfl,by unfold Span.stop; omega⟩ (hfree o hb)
  refine ⟨o,ho',rfl,?_⟩
  rcases h.not_straddled hstop ho with hs | hs
  · exact hs
  · omega

end
end Laid

section
variable (st : Store) (objects : List Span) (ranges : List CardRange) (overlaps : Bool)

def isRefAt (o : Span) : Bool := ((st.botObjectExtent o.offset).map Prod.snd).getD false

def hitsOf (o : Span) : List CardRangeHit :=
  visitRanges st.base o.offset o.size (isRefAt st o) overlaps
    (ranges.dropWhile fun r => r.2 ≤ o.offset)

def hitsFrom (x : Nat) : List CardRangeHit :=
  (objects.filter fun o => x ≤ o.offset).flatMap (hitsOf st ranges overlaps)

end

section
variable {st : Store} {objects : List Span} {ranges : List CardRange} {overlaps : Bool}

theorem visitRanges_eq_nil {base o size : Nat} {isRef : Bool}
    (h : ∀ r ∈ ranges.head?, o+size ≤ r.1) :
    visitRanges base o size isRef overlaps ranges = [] := by
  cases ranges with
  | nil => rfl
  | cons r rest =>
    obtain ⟨lo,hi⟩ := r
    have hr := h (lo,hi) (by simp)
    simp only [visitRanges]
    rw [if_neg (by omega)]

theorem hitsOf_eq_nil {o : Span} (h : ∀ r ∈ ranges, r.2 ≤ o.offset ∨ o.stop ≤ r.1) :
    hitsOf st ranges overlaps o = [] := by
  refine visitRanges_eq_nil ?_
  intro r hr
  have hmem : r ∈ ranges := (dropWhile_sublist _).subset (mem_of_head? hr)
  have hnot := head?_dropWhile_not (fun r : CardRange => decide (r.2 ≤ o.offset)) ranges
  rw [mem_def.mp hr] at hnot
  have hlt : ¬ r.2 ≤ o.offset := by simpa using hnot
  exact (h r hmem).resolve_left hlt

variable {x : Nat}

theorem hitsFrom_eq_nil
    (h : ∀ o ∈ objects, x ≤ o.offset → ∀ r ∈ ranges, r.2 ≤ o.offset ∨ o.stop ≤ r.1) :
    hitsFrom st objects ranges overlaps x = [] := by
  unfold hitsFrom
  rw [flatMap_eq_nil_iff]
  intro o ho
  obtain ⟨hmem,hx⟩ := mem_filter.mp ho
  exact hitsOf_eq_nil (h o hmem (of_decide_eq_true hx))

variable {y : Nat}

theorem flatMap_from_skip (f : Span → List CardRangeHit) (hxy : x ≤ y)
    (h : ∀ o ∈ objects, x ≤ o.offset → o.offset < y → f o = []) :
    (objects.filter fun o => x ≤ o.offset).flatMap f = (objects.filter fun o => y ≤ o.offset).flatMap f := by
  induction objects with
  | nil => rfl
  | cons o rest ih => ?_
  have hrec := ih fun p hp => h p (mem_cons_of_mem _ hp)
  by_cases hy : y ≤ o.offset
  · rw [filter_cons_of_pos (by simp; omega),filter_cons_of_pos (by simpa using hy),
      flatMap_cons,flatMap_cons,hrec]
  rw [filter_cons_of_neg (a := o) (p := fun o => decide (y ≤ o.offset)) (by simpa using hy)]
  by_cases hx : x ≤ o.offset
  · rw [filter_cons_of_pos (by simpa using hx),flatMap_cons,hrec,h o (by simp) hx (by omega),
      nil_append]
  · rw [filter_cons_of_neg (by simpa using hx),hrec]

theorem hitsFrom_skip (hxy : x ≤ y)
    (h : ∀ o ∈ objects, x ≤ o.offset → o.offset < y →
      ∀ r ∈ ranges, r.2 ≤ o.offset ∨ o.stop ≤ r.1) :
    hitsFrom st objects ranges overlaps x = hitsFrom st objects ranges overlaps y :=
  flatMap_from_skip (hitsOf st ranges overlaps) hxy fun o ho hx hy => hitsOf_eq_nil (h o ho hx hy)

theorem filter_from_object (hasc : Ascending objects) (hpos : ∀ o ∈ objects, 0 < o.size) {o : Span}
    (ho : o ∈ objects) :
    (objects.filter fun p => o.offset ≤ p.offset) = o :: objects.filter fun p => o.stop ≤ p.offset := by
  induction objects with
  | nil => cases ho
  | cons p rest ih => ?_
  obtain ⟨h1,h2⟩ := pairwise_cons.mp hasc
  have hp := hpos p (by simp)
  rcases mem_cons.mp ho with rfl | ho
  · have hall : ∀ x ≤ o.stop, (rest.filter fun q => decide (x ≤ q.offset)) = rest := by
      intro x hx
      refine filter_eq_self.mpr ?_
      intro q hq
      have := h1 q hq
      exact decide_eq_true (by omega)
    rw [filter_cons_of_pos (by simp),filter_cons_of_neg (by unfold Span.stop; simp; omega),
      hall _ (by unfold Span.stop; omega),hall _ le_rfl]
  have hlt := h1 o ho
  unfold Span.stop at hlt
  rw [filter_cons_of_neg (by simp; omega),
    filter_cons_of_neg (by unfold Span.stop; simp; omega)]
  exact ih h2 (fun q hq => hpos q (mem_cons_of_mem _ hq)) ho

/-- A position from which a walk still sees every range that can matter from offset `x` on. -/
def RestOk (ranges rest : List CardRange) (x : Nat) : Prop :=
  ∀ o, x ≤ o → (rest.dropWhile fun r => r.2 ≤ o) = ranges.dropWhile fun r => r.2 ≤ o

theorem restOk_self (x : Nat) : RestOk ranges ranges x := fun _ _ => rfl

variable {rest : List CardRange}

theorem RestOk.mono (h : RestOk ranges rest x) (hxy : x ≤ y) :
    RestOk ranges rest y := fun o ho => h o (Nat.le_trans hxy ho)

theorem dropWhile_dropWhile_le (l : List CardRange) {o : Nat} (h : x ≤ o) :
    ((l.dropWhile fun r => r.2 ≤ x).dropWhile fun r => r.2 ≤ o) = l.dropWhile fun r => r.2 ≤ o := by
  induction l with
  | nil => rfl
  | cons r l ih =>
    by_cases hr : r.2 ≤ x
    · rw [dropWhile_cons_of_pos (by simpa using hr),ih,
        dropWhile_cons_of_pos (by simp; omega)]
    · rw [dropWhile_cons_of_neg (by simpa using hr)]

theorem RestOk.dropWhile (h : RestOk ranges rest x)
    (hxy : x ≤ y) : RestOk ranges (rest.dropWhile fun r => r.2 ≤ y) y := by
  intro o ho
  rw [dropWhile_dropWhile_le rest ho]
  exact h o (Nat.le_trans hxy ho)

theorem visit_spec {o : Span} (h : RestOk ranges rest o.offset)
    (out : List CardRangeHit) :
    visit st.base o.offset o.size (isRefAt st o) rest overlaps out =
      (ranges.dropWhile fun r => r.2 ≤ o.offset,out ++ hitsOf st ranges overlaps o) := by
  unfold visit hitsOf
  simp only [h o.offset le_rfl]

end

section
variable {st : Store} {sorted objects cells : List Span} {ranges : List CardRange}
variable {o : Span}

theorem Laid.filter_from_object {cells : List Span} (h : Laid st sorted cells) (hsub : objects.Sublist cells) (ho : o ∈ objects) :
    (objects.filter fun p => o.offset ≤ p.offset) = o :: objects.filter fun p => o.stop ≤ p.offset :=
  Gc.filter_from_object (h.ascending_objects.sublist hsub)
    (fun _ hq => h.pos (mem_append_right _ (hsub.subset hq))) ho

theorem Laid.hitsFrom_object {cells : List Span} (h : Laid st sorted cells) (hsub : objects.Sublist cells)
    (ranges : List CardRange) (overlaps : Bool) (ho : o ∈ objects) :
    hitsFrom st objects ranges overlaps o.offset =
      hitsOf st ranges overlaps o ++ hitsFrom st objects ranges overlaps o.stop := by
  unfold hitsFrom
  rw [h.filter_from_object hsub ho,flatMap_cons]

variable {x : Nat}

theorem hitsFrom_past {overlaps : Bool} (h : ∀ r ∈ ranges, r.2 ≤ x) :
    hitsFrom st objects ranges overlaps x = [] := by
  refine hitsFrom_eq_nil ?_
  intro o _ hx r hr
  exact .inl (Nat.le_trans (h r hr) hx)

theorem le_lastHi (hr : RangesOk ranges) : ∀ r ∈ ranges, r.2 ≤ Store.lastHi ranges := by
  intro r hmem
  rcases eq_nil_or_concat ranges with rfl | ⟨init,last,rfl⟩
  · cases hmem
  rw [concat_eq_append] at *
  have hlast : Store.lastHi (init ++ [last]) = last.2 := by simp [Store.lastHi]
  rw [hlast]
  rcases mem_append.mp hmem with hm | hm
  · have h1 := (pairwise_append.mp hr.ascending).2.2 r hm last (by simp)
    have h2 := hr.nonempty last (by simp)
    omega
  · rw [mem_singleton.mp hm]

/-- A region between two free blocks: no free byte from `start` to `stop`. -/
structure Region (st : Store) (sorted objects : List Span) (start stop : Nat) : Prop where
  bounded : Boundary st sorted objects stop
  inside : stop ≤ st.len
  allocated : ∀ b ∈ sorted, b.stop ≤ start ∨ stop ≤ b.offset

variable {stop start : Nat}

theorem Region.object_at (h : Laid st sorted objects)
    (hreg : Region st sorted objects start stop) (hx : Boundary st sorted objects x)
    (hsx : start ≤ x) (hlt : x < stop) :
    ∃ o ∈ objects, o.offset = x ∧ o.stop ≤ stop := by
  refine h.object_at hx hlt hreg.bounded hreg.inside ?_
  intro b hb hin
  rcases hreg.allocated b hb with h1 | h1
  · omega
  · omega

variable {size : Nat} {isRef : Bool}

theorem isRefAt_of_extent
    (h : st.botObjectExtent o.offset = some (size,isRef)) : isRefAt st o = isRef := by
  unfold isRefAt
  rw [h]
  rfl

theorem extentIn_sized (ho : Sized st o) (hstop : o.stop ≤ stop) :
    st.extentIn o.offset stop = some (o.size,isRefAt st o) := by
  obtain ⟨isRef,hext⟩ := ho
  unfold Store.extentIn
  rw [isRefAt_of_extent hext,hext,filter_some,if_pos]
  exact decide_eq_true hstop

theorem touchRegion_spec (h : Tiled st sorted objects) {lastHi : Nat}
    (hlast : ∀ r ∈ ranges, r.2 ≤ lastHi) (hreg : Region st sorted objects start stop)
    (fuel o : Nat) (l : Store.TouchLocals) (ho : Boundary st sorted objects o) (hso : start ≤ o)
    (hos : o ≤ stop) (hfuel : stop-o ≤ fuel) (hrest : RestOk ranges l.ranges o) :
    (st.touchRegion ranges lastHi stop fuel o l).2.gaps = l.gaps ∧
      ((st.touchRegion ranges lastHi stop fuel o l).1 = true →
        (st.touchRegion ranges lastHi stop fuel o l).2.out ++ hitsFrom st objects ranges true stop =
          l.out ++ hitsFrom st objects ranges true o ∧
        RestOk ranges (st.touchRegion ranges lastHi stop fuel o l).2.ranges stop) ∧
      ((st.touchRegion ranges lastHi stop fuel o l).1 = false →
        (st.touchRegion ranges lastHi stop fuel o l).2.out =
          l.out ++ hitsFrom st objects ranges true o) := by
  induction fuel generalizing o l with
  | zero =>
    have heq : o = stop := by omega
    subst heq
    exact ⟨rfl,fun _ => ⟨rfl,hrest⟩,(fun hf => nomatch hf)⟩
  | succ fuel ih => ?_
  simp only [Store.touchRegion]
  by_cases hlt : o < stop
  · rw [if_pos hlt]
    by_cases hpast : o ≥ lastHi
    · rw [if_pos hpast]
      refine ⟨rfl,(fun hf => nomatch hf),fun _ => ?_⟩
      rw [hitsFrom_past fun r hr => Nat.le_trans (hlast r hr) hpast,append_nil]
    rw [if_neg hpast]
    obtain ⟨p,hp,rfl,hpstop⟩ := hreg.object_at h.toLaid ho hso hlt
    have hin := extentIn_sized (h.sized p hp) hpstop
    have hobj := h.hitsFrom_object (.refl _) ranges true hp
    rw [hin]
    simp only [visit_spec hrest]
    split
    · rename_i hempty
      refine ⟨rfl,(fun hf => nomatch hf),fun _ => ?_⟩
      have hall : ∀ r ∈ ranges, r.2 ≤ p.offset := by
        have := dropWhile_eq_nil_iff.mp (isEmpty_iff.mp hempty)
        simpa using this
      rw [hobj,hitsFrom_past (x := p.stop)]
      · rw [append_nil]
      intro r hr
      have := hall r hr
      unfold Span.stop
      omega
    have hrest' : RestOk ranges (ranges.dropWhile fun r => r.2 ≤ p.offset) p.stop :=
      ((restOk_self 0).dropWhile (Nat.zero_le p.offset)).mono (by unfold Span.stop; omega)
    have hb := h.boundary_stop (mem_append_right sorted hp)
    have hpos := h.pos (mem_append_right sorted hp)
    have hrec := ih p.stop
      { l with
        ranges := ranges.dropWhile fun r => r.2 ≤ p.offset
        out := l.out ++ hitsOf st ranges true p } hb
      (by unfold Span.stop; omega) hpstop (by unfold Span.stop; omega) hrest'
    rw [hobj]
    simp only [append_assoc] at hrec ⊢
    exact hrec
  · have heq : o = stop := by omega
    subst heq
    rw [if_neg hlt]
    exact ⟨rfl,fun _ => ⟨rfl,hrest⟩,(fun hf => nomatch hf)⟩

/-- The cursor of a linear walk: behind the free blocks passed, before those to come. -/
structure Passing (st : Store) (sorted objects : List Span) (todo : List FreeBlock)
    (cursor : Nat) : Prop where
  boundary : Boundary st sorted objects cursor
  inside : cursor ≤ st.len
  known : ∀ b ∈ todo, b ∈ sorted
  order : Ascending todo
  before : ∀ b ∈ todo, cursor ≤ b.offset
  passed : ∀ b ∈ sorted, b ∈ todo ∨ b.stop ≤ cursor

namespace Passing
variable {todo : List FreeBlock} {block : FreeBlock} {cursor : Nat}

theorem init (h : Laid st sorted objects) : Passing st sorted objects sorted 0 :=
  ⟨h.boundary_zero,Nat.zero_le _,fun _ hb => hb,h.ascending_free,fun _ _ => Nat.zero_le _,
    fun _ hb => .inl hb⟩

theorem region (h : Laid st sorted objects)
    (hp : Passing st sorted objects (block :: todo) cursor) :
    Region st sorted objects cursor block.offset := by
  have hb := hp.known block (by simp)
  have hin := h.packed.inside block (mem_append_left _ hb)
  refine ⟨.inr ⟨block,mem_append_left _ hb,rfl⟩,by unfold Span.stop at hin; omega,?_⟩
  intro b hmem
  rcases hp.passed b hmem with hb' | hb'
  · rcases mem_cons.mp hb' with rfl | hb'
    · exact .inr le_rfl
    have := (pairwise_cons.mp hp.order).1 b hb'
    unfold Span.stop at this
    exact .inr (by omega)
  · exact .inl hb'

theorem region_last (hp : Passing st sorted objects [] cursor) :
    Region st sorted objects cursor st.len := by
  refine ⟨.inl rfl,le_rfl,?_⟩
  intro b hmem
  exact .inl ((hp.passed b hmem).resolve_left (by simp))

theorem next (h : Laid st sorted objects)
    (hp : Passing st sorted objects (block :: todo) cursor) :
    max cursor block.stop = block.stop ∧ Passing st sorted objects todo block.stop := by
  have hb := hp.known block (by simp)
  have hbefore := hp.before block (by simp)
  have hle : cursor ≤ block.stop := by unfold Span.stop; omega
  obtain ⟨h1,h2⟩ := pairwise_cons.mp hp.order
  refine ⟨Nat.max_eq_right hle,h.boundary_stop (mem_append_left _ hb),
    h.packed.inside block (mem_append_left _ hb),
    fun b hb => hp.known b (mem_cons_of_mem _ hb),h2,h1,?_⟩
  intro b hmem
  rcases hp.passed b hmem with hb' | hb'
  · rcases mem_cons.mp hb' with rfl | hb'
    · exact .inr le_rfl
    · exact .inl hb'
  · exact .inr (by omega)

end Passing

theorem hitsFrom_free {cells : List Span} (h : Laid st sorted cells) (hsub : objects.Sublist cells)
    {overlaps : Bool} {b : FreeBlock} (hb : b ∈ sorted) (h1 : b.offset ≤ x) (h2 : x ≤ b.stop) :
    hitsFrom st objects ranges overlaps x = hitsFrom st objects ranges overlaps b.stop := by
  refine hitsFrom_skip h2 ?_
  intro o ho hx hlt r hr
  have hap := h.apart hb (hsub.subset ho)
  have hpos := h.pos (mem_append_right sorted (hsub.subset ho))
  unfold Apart Span.stop at *
  omega

theorem hitsFrom_len {cells : List Span} (h : Laid st sorted cells) (hsub : objects.Sublist cells)
    {overlaps : Bool} : hitsFrom st objects ranges overlaps st.len = [] := by
  refine hitsFrom_eq_nil ?_
  intro o ho hx
  have hin := h.packed.inside o (mem_append_right _ (hsub.subset ho))
  have hpos := h.pos (mem_append_right sorted (hsub.subset ho))
  unfold Span.stop at hin
  omega

theorem linearTouchFrom_spec (h : Tiled st sorted objects) {lastHi : Nat}
    (hlast : ∀ r ∈ ranges, r.2 ≤ lastHi) (todo : List FreeBlock) (cursor : Nat)
    (l : Store.TouchLocals) (hp : Passing st sorted objects todo cursor)
    (hrest : RestOk ranges l.ranges cursor) :
    (st.linearTouchFrom ranges lastHi todo cursor l).out =
        l.out ++ hitsFrom st objects ranges true cursor ∧
      (st.linearTouchFrom ranges lastHi todo cursor l).gaps = l.gaps := by
  induction todo generalizing cursor l with
  | nil =>
    simp only [Store.linearTouchFrom]
    have hend : hitsFrom st objects ranges true st.len = [] := hitsFrom_len h.toLaid (.refl _)
    split
    · obtain ⟨hg,ht,hf⟩ := touchRegion_spec h hlast hp.region_last (st.len-cursor) cursor l
        hp.boundary le_rfl hp.inside le_rfl hrest
      refine ⟨?_,hg⟩
      cases hr : (st.touchRegion ranges lastHi st.len (st.len-cursor) cursor l).1 with
      | true =>
        have := (ht hr).1
        rw [hend,append_nil] at this
        exact this
      | false => exact hf hr
    have heq : cursor = st.len := by
      have := hp.inside
      omega
    subst heq
    rw [hend,append_nil]
    exact ⟨rfl,rfl⟩
  | cons block todo ih => ?_
  have hb := hp.known block (by simp)
  obtain ⟨hmax,hnext⟩ := hp.next h.toLaid
  have hbefore := hp.before block (by simp)
  have hfree : hitsFrom st objects ranges true block.offset =
      hitsFrom st objects ranges true block.stop :=
    hitsFrom_free h.toLaid (.refl _) hb le_rfl (by unfold Span.stop; omega)
  -- What the region before the block adds, whether or not it is empty.
  generalize hout : (if block.offset > cursor then
      st.touchRegion ranges lastHi block.offset (block.offset-cursor) cursor l
    else (true,l)) = out
  have hspec : out.2.gaps = l.gaps ∧
      (out.1 = true → out.2.out ++ hitsFrom st objects ranges true block.offset =
        l.out ++ hitsFrom st objects ranges true cursor ∧
        RestOk ranges out.2.ranges block.offset) ∧
      (out.1 = false → out.2.out = l.out ++ hitsFrom st objects ranges true cursor) := by
    rw [← hout]
    split
    · exact touchRegion_spec h hlast (hp.region h.toLaid) _ _ _ hp.boundary le_rfl hbefore
        le_rfl hrest
    have heq : cursor = block.offset := by omega
    subst heq
    exact ⟨rfl,fun _ => ⟨rfl,hrest⟩,(fun hf => nomatch hf)⟩
  obtain ⟨more,l'⟩ := out
  obtain ⟨hg,ht,hf⟩ := hspec
  simp only [Store.linearTouchFrom,hout,hmax]
  cases more with
  | false => exact ⟨hf rfl,hg⟩
  | true => ?_
  obtain ⟨h1,h2⟩ := ht rfl
  rw [hfree] at h1
  simp only [if_true]
  split
  · rename_i hpast
    rw [hitsFrom_past fun r hr => Nat.le_trans (hlast r hr) hpast,append_nil] at h1
    exact ⟨h1,hg⟩
  obtain ⟨h3,h4⟩ := ih block.stop l' hnext (h2.mono (by unfold Span.stop; omega))
  exact ⟨h3.trans h1,h4.trans hg⟩

theorem linearTouchWalk_spec (h : Tiled st sorted objects) (hr : RangesOk ranges) :
    st.linearTouchWalk sorted ranges = (hitsFrom st objects ranges true 0,[]) := by
  obtain ⟨h1,h2⟩ := linearTouchFrom_spec h (le_lastHi hr) sorted 0 { ranges } (Passing.init h.toLaid)
    (restOk_self 0)
  unfold Store.linearTouchWalk
  simp [h1,h2,nil_append]

variable {ls : Layouts} {hd : Header}

theorem objectExtent_cases
    (hext : ls.objectExtent hd = some (size,isRef)) :
    headerSize ≤ size ∧ ∃ kind, validateHeaderTagsOrDesync hd = some kind ∧
      kind ≠ .humongousFiller ∧
      (Layouts.checkedAdd (ls.scanRawSize hd kind) 7).map (alignDown · 8) = some size := by
  unfold Layouts.objectExtent at hext
  cases hkind : validateHeaderTagsOrDesync hd with
  | none => simp [hkind] at hext
  | some kind => ?_
  simp only [hkind,bind_eq_bind,bind_some] at hext
  split at hext
  · cases hext
  rename_i hfil
  -- Both branches end in the same rounding and the same lower bound.
  have hround : ∀ raw ref, (((Layouts.checkedAdd raw 7).map (alignDown · 8)).bind fun total =>
      if total ≥ headerSize then some (total,ref) else none) = some (size,isRef) →
      headerSize ≤ size ∧ (Layouts.checkedAdd raw 7).map (alignDown · 8) = some size := by
    intro raw ref hr
    obtain ⟨total,htotal,hr⟩ := bind_eq_some_iff.mp hr
    split at hr
    · rename_i hge
      obtain ⟨rfl,_⟩ := Prod.mk.inj (some.inj hr)
      exact ⟨hge,htotal⟩
    · cases hr
  split at hext
  · rename_i harr
    obtain ⟨data,hdata,hext⟩ := bind_eq_some_iff.mp hext
    obtain ⟨raw,hraw,hext⟩ := bind_eq_some_iff.mp hext
    obtain ⟨h16,htotal⟩ := hround _ _ hext
    refine ⟨h16,kind,rfl,hfil,?_⟩
    have hscan : ls.scanRawSize hd kind = raw := by
      unfold Layouts.scanRawSize
      rw [if_pos harr,hdata]
      unfold Layouts.checkedAdd at hraw
      split at hraw
      · have := some.inj hraw
        simp only
        omega
      · cases hraw
    rw [hscan]
    exact htotal
  rename_i harr
  obtain ⟨h16,htotal⟩ := hround _ _ hext
  refine ⟨h16,kind,rfl,hfil,?_⟩
  unfold Layouts.scanRawSize
  rw [if_neg harr]
  exact htotal

theorem scanStep_object {remaining : Nat}
    (hext : ls.objectExtent hd = some (size,isRef)) (hfill : hd.classId ≠ gapFillerClassId)
    (hrem : size ≤ remaining) : ls.scanStep hd remaining = .object size := by
  obtain ⟨h16,kind,hkind,hfil,htotal⟩ := objectExtent_cases hext
  have hgap : Layouts.gapFillerSize hd remaining = .ok none := by
    unfold Layouts.gapFillerSize
    simp only [headerSize] at h16
    rw [if_neg (by omega),if_pos hfill]
  unfold Layouts.scanStep
  rw [hgap]
  simp only [hkind,htotal,getD_some]
  rw [if_neg (by omega)]

theorem hitsOf_whole (st : Store) (ranges : List CardRange) (hpos : 0 < o.size) :
    hitsOf st ranges false o =
      match ranges.dropWhile fun r => r.2 ≤ o.offset with
      | [] => []
      | (lo,_) :: _ => if lo ≤ o.offset then [⟨st.base+o.offset,o.size,none⟩] else [] := by
  unfold hitsOf
  cases ranges.dropWhile fun r => r.2 ≤ o.offset with
  | nil => rfl
  | cons r rest => ?_
  obtain ⟨lo,hi⟩ := r
  simp only [visitRanges]
  by_cases hlo : lo ≤ o.offset
  · rw [if_pos (by omega),if_pos hlo,if_pos hlo]
  · simp [hlo]

/-- The hit that the fallback makes of an object it found. -/
def wholeHit (o : Nat × Nat) : CardRangeHit := ⟨o.1,o.2,none⟩

theorem scanStep_sentinel {remaining : Nat} (hfill : hd.classId = gapFillerClassId)
    (hmark : hd.mark = 8) (hrem : 8 ≤ remaining) : ls.scanStep hd remaining = .filler 8 := by
  have hgap : Layouts.gapFillerSize hd remaining = .ok (some 8) := by
    unfold Layouts.gapFillerSize
    rw [if_neg (by omega),if_neg (not_not_intro hfill),hmark,if_neg (by omega)]
  unfold Layouts.scanStep
  rw [hgap]

theorem GapTiled.step (h : GapTiled st sorted cells) (hreg : Region st sorted cells start stop)
    (hx : Boundary st sorted cells x) (hsx : start ≤ x) (hlt : x < stop) :
    ∃ c ∈ cells, c.offset = x ∧ c.stop ≤ stop ∧ Boundary st sorted cells c.stop ∧
      (c ∉ validObjects st cells ∧ c.size = 8 ∧ st.layouts.scanStep (st.headerAt x) (stop-x) = .filler 8 ∨
        c ∈ validObjects st cells ∧ st.layouts.scanStep (st.headerAt x) (stop-x) = .object c.size) := by
  obtain ⟨c,hc,rfl,hstop⟩ := hreg.object_at h.toLaid hx hsx hlt
  refine ⟨c,hc,rfl,hstop,h.boundary_stop (mem_append_right _ hc),?_⟩
  have hrem : c.size ≤ stop-c.offset := by
    unfold Span.stop at hstop
    omega
  by_cases hfill : (st.headerAt c.offset).classId = gapFillerClassId
  · obtain ⟨h8,hmark⟩ := h.sentinel c hc hfill
    exact .inl ⟨fun hmem => (mem_validObjects.mp hmem).2 hfill,h8,scanStep_sentinel hfill hmark (by omega)⟩
  obtain ⟨isRef,hext⟩ := h.sized c hc hfill
  exact .inr ⟨mem_validObjects.mpr ⟨hc,hfill⟩,scanStep_object hext hfill hrem⟩

theorem Laid.no_object_in {cells : List Span} (h : Laid st sorted cells) (hsub : objects.Sublist cells) {c : Span}
    (hc : c ∈ cells) (hnot : c ∉ objects) (ho : o ∈ objects) (hle : c.offset ≤ o.offset) :
    c.stop ≤ o.offset := by
  have hpos := h.pos (mem_append_right sorted (hsub.subset ho))
  have hne : c ≠ o := fun heq => hnot (heq ▸ ho)
  have hap := (pairwise_append.mp h.packed.apart).2.1.forall hc (hsub.subset ho) hne
  unfold Apart Span.stop at *
  omega

theorem scanRegionFiltered_spec (h : GapTiled st sorted cells)
    (hreg : Region st sorted cells start stop) (fuel o : Nat) (rest : List CardRange)
    (found : List (Nat × Nat)) (ho : Boundary st sorted cells o) (hso : start ≤ o)
    (hos : o ≤ stop) (hfuel : stop-o ≤ fuel) (hrest : RestOk ranges rest o) :
    (st.scanRegionFiltered stop fuel o rest found).1 = none ∧
      (st.scanRegionFiltered stop fuel o rest found).2.map wholeHit ++
          hitsFrom st (validObjects st cells) ranges false stop =
        found.map wholeHit ++ hitsFrom st (validObjects st cells) ranges false o := by
  induction fuel generalizing o rest found with
  | zero =>
    have heq : o = stop := by omega
    subst heq
    exact ⟨rfl,rfl⟩
  | succ fuel ih => ?_
  simp only [Store.scanRegionFiltered]
  by_cases hlt : o < stop
  · rw [if_pos hlt]
    obtain ⟨p,hp,rfl,hpstop,hb,⟨hnot,h8,hstep⟩ | ⟨hvalid,hstep⟩⟩ := h.step hreg ho hso hlt
    · -- No hit begins in the sentinel.
      have hskip : hitsFrom st (validObjects st cells) ranges false p.offset =
          hitsFrom st (validObjects st cells) ranges false p.stop := by
        refine hitsFrom_skip (by unfold Span.stop; omega) ?_
        intro o ho hle hlt
        have := h.no_object_in (validObjects_sublist st cells) hp hnot ho hle
        omega
      rw [hstep,← h8,hskip]
      exact ih p.stop rest found hb (by unfold Span.stop; omega) hpstop (by unfold Span.stop; omega)
        (hrest.mono (by unfold Span.stop; omega))
    have hpos := h.pos (mem_append_right sorted hp)
    have hobj := h.hitsFrom_object (validObjects_sublist st cells) ranges false hvalid
    have hwhole := hitsOf_whole st ranges hpos
    rw [hstep]
    simp only [hrest p.offset le_rfl]
    have hrest' : RestOk ranges (ranges.dropWhile fun r => r.2 ≤ p.offset) p.stop :=
      ((restOk_self 0).dropWhile (Nat.zero_le p.offset)).mono (by unfold Span.stop; omega)
    cases hdrop : ranges.dropWhile fun r => r.2 ≤ p.offset with
    | nil =>
      have hall : ∀ r ∈ ranges, r.2 ≤ p.offset := by
        have := dropWhile_eq_nil_iff.mp hdrop
        simpa using this
      refine ⟨rfl,?_⟩
      rw [hitsFrom_past fun r hr => Nat.le_trans (hall r hr) (Nat.le_of_lt hlt),
        hitsFrom_past hall]
    | cons r tail => ?_
    obtain ⟨lo,hi⟩ := r
    rw [hdrop] at hrest' hwhole
    obtain ⟨h1,h2⟩ := ih p.stop ((lo,hi) :: tail)
      (if p.offset ≥ lo then found ++ [(st.base+p.offset,p.size)] else found) hb
      (by unfold Span.stop; omega) hpstop (by unfold Span.stop; omega) hrest'
    refine ⟨h1,h2.trans ?_⟩
    rw [hobj,hwhole]
    by_cases hlo : lo ≤ p.offset
    · simp [hlo,wholeHit]
    · simp [hlo]
  · have heq : o = stop := by omega
    subst heq
    rw [if_neg hlt]
    exact ⟨rfl,rfl⟩

theorem walkObjectsFrom_spec (h : GapTiled st sorted cells) {lastEnd : Nat}
    (hlast : ∀ r ∈ ranges, r.2 ≤ lastEnd) (todo : List FreeBlock) (cursor : Nat)
    (found gaps : List (Nat × Nat)) (hp : Passing st sorted cells todo cursor) :
    (st.walkObjectsFrom ranges lastEnd todo cursor found gaps).1.map wholeHit =
        found.map wholeHit ++ hitsFrom st (validObjects st cells) ranges false cursor ∧
      (st.walkObjectsFrom ranges lastEnd todo cursor found gaps).2 = gaps := by
  induction todo generalizing cursor found gaps with
  | nil =>
    simp only [Store.walkObjectsFrom]
    split
    · obtain ⟨h1,h2⟩ := scanRegionFiltered_spec h hp.region_last (st.len-cursor) cursor _ found
        hp.boundary le_rfl hp.inside le_rfl
        ((restOk_self 0).dropWhile (Nat.zero_le cursor))
      rw [hitsFrom_len h.toLaid (validObjects_sublist st cells),append_nil] at h2
      exact ⟨h2,by rw [h1]; rfl⟩
    have heq : cursor = st.len := by
      have := hp.inside
      omega
    subst heq
    rw [hitsFrom_len h.toLaid (validObjects_sublist st cells),append_nil]
    exact ⟨rfl,rfl⟩
  | cons block todo ih => ?_
  have hb := hp.known block (by simp)
  obtain ⟨hmax,hnext⟩ := hp.next h.toLaid
  have hbefore := hp.before block (by simp)
  have hfree : hitsFrom st (validObjects st cells) ranges false block.offset =
      hitsFrom st (validObjects st cells) ranges false block.stop :=
    hitsFrom_free h.toLaid (validObjects_sublist st cells) hb le_rfl (by unfold Span.stop; omega)
  generalize hout : (if block.offset > cursor then
      st.scanRegionFiltered block.offset (block.offset-cursor) cursor
        (ranges.dropWhile fun r => r.2 ≤ cursor) found
    else (none,found)) = out
  have hspec : out.1 = none ∧
      out.2.map wholeHit ++ hitsFrom st (validObjects st cells) ranges false block.offset =
        found.map wholeHit ++ hitsFrom st (validObjects st cells) ranges false cursor := by
    rw [← hout]
    split
    · exact scanRegionFiltered_spec h (hp.region h.toLaid) _ _ _ _ hp.boundary le_rfl hbefore
        le_rfl ((restOk_self 0).dropWhile (Nat.zero_le cursor))
    have heq : cursor = block.offset := by omega
    subst heq
    exact ⟨rfl,rfl⟩
  obtain ⟨broke,found'⟩ := out
  obtain ⟨h1,h2⟩ := hspec
  subst h1
  rw [hfree] at h2
  simp only [Store.walkObjectsFrom,hout,hmax,bind_none,pushGapWindow]
  split
  · rename_i hpast
    rw [hitsFrom_past fun r hr => Nat.le_trans (hlast r hr) hpast,append_nil] at h2
    exact ⟨h2,rfl⟩
  obtain ⟨h3,h4⟩ := ih block.stop found' gaps hnext
  exact ⟨h3.trans h2,h4⟩

theorem linearScan_spec (h : GapTiled st sorted cells) (hr : RangesOk ranges) :
    st.linearWalk sorted ranges false = (hitsFrom st (validObjects st cells) ranges false 0,[]) := by
  simp only [Store.linearWalk,Bool.not_false,if_true,Store.walkObjectsInCardRangesWithGaps]
  split
  · rename_i hempty
    rw [isEmpty_iff.mp hempty,hitsFrom_past (by simp)]
    rfl
  obtain ⟨h1,h2⟩ := walkObjectsFrom_spec h (le_lastHi hr) sorted 0 [] [] (Passing.init h.toLaid)
  exact Prod.ext h1 h2

theorem linearWalk_spec (h : Tiled st sorted objects) (hr : RangesOk ranges) (overlaps : Bool) :
    st.linearWalk sorted ranges overlaps = (hitsFrom st objects ranges overlaps 0,[]) := by
  cases overlaps with
  | true => exact linearTouchWalk_spec h hr
  | false =>
    obtain ⟨hgap,hvalid⟩ := h.gapTiled
    rw [linearScan_spec hgap hr,hvalid]

section
variable (hlen : st.len = 0) (hs : ∀ b ∈ sorted, b.stop = 0)
include hlen hs

theorem linearTouchFrom_empty (last : Nat)
    (l : Store.TouchLocals) : st.linearTouchFrom ranges last sorted 0 l = l := by
  induction sorted with
  | nil => simp [Store.linearTouchFrom,hlen]
  | cons b rest ih => ?_
  have hb := hs b (by simp)
  have hoff : ¬ b.offset > 0 := by unfold Span.stop at hb; omega
  simp only [Store.linearTouchFrom,hb,if_neg hoff,if_true,Nat.max_self]
  split
  · rfl
  · exact ih fun c hc => hs c (mem_cons_of_mem _ hc)

theorem walkObjectsFrom_empty (last : Nat) :
    st.walkObjectsFrom ranges last sorted 0 [] [] = ([],[]) := by
  induction sorted with
  | nil => simp [Store.walkObjectsFrom,hlen]
  | cons b rest ih => ?_
  have hb := hs b (by simp)
  have hoff : ¬ b.offset > 0 := by unfold Span.stop at hb; omega
  simp only [Store.walkObjectsFrom,hb,if_neg hoff,Nat.max_self,bind_none,pushGapWindow]
  split
  · rfl
  · exact ih fun c hc => hs c (mem_cons_of_mem _ hc)

theorem linearWalk_empty
    (ranges : List CardRange) (overlaps : Bool) : st.linearWalk sorted ranges overlaps = ([],[]) := by
  unfold Store.linearWalk
  cases overlaps with
  | true => simp [Store.linearTouchWalk,linearTouchFrom_empty hlen hs]
  | false => ?_
  simp only [Store.walkObjectsInCardRangesWithGaps,walkObjectsFrom_empty hlen hs]
  split
  · split
    · rfl
    · rfl
  · contradiction

end
end
end CratonVM.Gc
