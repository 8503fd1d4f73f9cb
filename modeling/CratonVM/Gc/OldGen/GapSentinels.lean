import CratonVM.Gc.OldGen.AnchoredWalks
import CratonVM.Gc.OldGen.Relayout

/-!
The sentinels that `release_unused_tail` stamps on tails too small for a header. The walk over all objects and
the linear card scan step over them; the anchored walk sizes them as headers, and the bytes that they keep charged
make a compaction give up.
-/
namespace CratonVM.Gc
open Spans Spans.Span OldGen BlockOffsetTable List Bool

namespace Store
def scanRegion (st : Store) (stop : Nat) : (fuel : Nat) → (offset : Nat) → List Span → Option Nat × List Span
  | 0, _, objects => (none,objects)
  | fuel+1, offset, objects =>
    if offset < stop then
      match st.layouts.scanStep (st.headerAt offset) (stop-offset) with
      | .filler size => scanRegion st stop fuel (offset+size) objects
      | .stop => (some offset,objects)
      | .object size => scanRegion st stop fuel (offset+size) (objects++[⟨offset,size⟩])
    else (none,objects)

def breakGap (stop : Nat) : Option Nat → List (Nat × Nat)
  | none => []
  | some at' => [(at',stop)]

def walkAllFrom (st : Store) : List FreeBlock → (cursor : Nat) → List Span → List (Nat × Nat) →
    List Span × List (Nat × Nat)
  | [], cursor, objects, gaps =>
    if cursor < st.len then
      let (broke,objects) := st.scanRegion st.len (st.len-cursor) cursor objects
      (objects,gaps++breakGap st.len broke)
    else (objects,gaps)
  | block::rest, cursor, objects, gaps =>
    let (broke,objects) := if block.offset > cursor then
        st.scanRegion block.offset (block.offset-cursor) cursor objects
      else (none,objects)
    walkAllFrom st rest (max cursor block.stop) objects (gaps++breakGap block.offset broke)

def walkObjectsWithGaps (st : Store) (sorted : List FreeBlock) : List Span × List (Nat × Nat) :=
  st.walkAllFrom sorted 0 [] []

end Store

section
variable {st : Store} {sorted cells : List Span}

def validFrom (st : Store) (cells : List Span) (x : Nat) : List Span :=
  (validObjects st cells).filter fun o => x ≤ o.offset

theorem validFrom_skip {x y : Nat} (hxy : x ≤ y) (h : ∀ o ∈ validObjects st cells, x ≤ o.offset → y ≤ o.offset) :
    validFrom st cells x = validFrom st cells y := by
  refine filter_congr ?_
  intro o ho
  rw [decide_eq_decide]
  exact ⟨h o ho,fun hy => Nat.le_trans hxy hy⟩

theorem scanRegion_spec (h : GapTiled st sorted cells) {start stop : Nat} (hreg : Region st sorted cells start stop)
    (fuel x : Nat) (found : List Span) (hx : Boundary st sorted cells x) (hsx : start ≤ x) (hxs : x ≤ stop)
    (hfuel : stop-x ≤ fuel) :
    (st.scanRegion stop fuel x found).1 = none ∧
      (st.scanRegion stop fuel x found).2++validFrom st cells stop = found++validFrom st cells x := by
  induction fuel generalizing x found with
  | zero =>
    have heq : x = stop := by omega
    subst heq
    exact ⟨rfl,rfl⟩
  | succ fuel ih => ?_
  simp only [Store.scanRegion]
  by_cases hlt : x < stop
  · rw [if_pos hlt]
    obtain ⟨c,hc,rfl,hstop,hb,⟨hnot,h8,hstep⟩ | ⟨hvalid,hstep⟩⟩ := h.step hreg hx hsx hlt
    · have hskip : validFrom st cells c.offset = validFrom st cells c.stop := by
        refine validFrom_skip (by unfold Span.stop; omega) ?_
        intro o ho hle
        exact h.no_object_in (validObjects_sublist st cells) hc hnot ho hle
      rw [hstep,← h8,hskip]
      exact ih c.stop found hb (by unfold Span.stop; omega) hstop (by unfold Span.stop; omega)
    have hpos := h.pos (mem_append_right sorted hc)
    obtain ⟨h1,h2⟩ := ih c.stop (found++[c]) hb (by unfold Span.stop; omega) hstop (by unfold Span.stop; omega)
    rw [hstep]
    refine ⟨h1,h2.trans ?_⟩
    rw [validFrom,validFrom,h.filter_from_object (validObjects_sublist st cells) hvalid,append_assoc]
    rfl
  have heq : x = stop := by omega
  subst heq
  rw [if_neg hlt]
  exact ⟨rfl,rfl⟩

theorem walkAllFrom_spec (h : GapTiled st sorted cells) (todo : List FreeBlock) (cursor : Nat) (found : List Span)
    (gaps : List (Nat × Nat)) (hp : Passing st sorted cells todo cursor) :
    st.walkAllFrom todo cursor found gaps = (found++validFrom st cells cursor,gaps) := by
  induction todo generalizing cursor found gaps with
  | nil =>
    have hend : validFrom st cells st.len = [] := by
      refine filter_eq_nil_iff.mpr ?_
      intro o ho hle
      have hmem := (validObjects_sublist st cells).subset ho
      have hin := h.packed.inside o (mem_append_right _ hmem)
      have hpos := h.pos (mem_append_right sorted hmem)
      have := of_decide_eq_true hle
      unfold Span.stop at hin
      omega
    simp only [Store.walkAllFrom]
    split
    · obtain ⟨h1,h2⟩ := scanRegion_spec h hp.region_last (st.len-cursor) cursor found hp.boundary le_rfl
        hp.inside le_rfl
      rw [hend,append_nil] at h2
      rw [h1,h2]
      simp [Store.breakGap]
    have heq : cursor = st.len := by
      have := hp.inside
      omega
    rw [heq,hend,append_nil]
  | cons block todo ih => ?_
  have hb := hp.known block (by simp)
  obtain ⟨hmax,hnext⟩ := hp.next h.toLaid
  have hbefore := hp.before block (by simp)
  -- No object begins in a free block.
  have hfree : validFrom st cells block.offset = validFrom st cells block.stop := by
    refine validFrom_skip (by unfold Span.stop; omega) ?_
    intro o ho hle
    have hmem := (validObjects_sublist st cells).subset ho
    have hap := h.apart hb hmem
    have hpos := h.pos (mem_append_right sorted hmem)
    unfold Apart Span.stop at *
    omega
  have hspec : (if block.offset > cursor then st.scanRegion block.offset (block.offset-cursor) cursor found
        else (none,found)).1 = none ∧
      (if block.offset > cursor then st.scanRegion block.offset (block.offset-cursor) cursor found
        else (none,found)).2++validFrom st cells block.offset = found++validFrom st cells cursor := by
    split
    · exact scanRegion_spec h (hp.region h.toLaid) _ _ _ hp.boundary le_rfl hbefore le_rfl
    have heq : cursor = block.offset := by omega
    rw [heq]
    exact ⟨rfl,rfl⟩
  simp only [Store.walkAllFrom,hmax]
  generalize (if block.offset > cursor then st.scanRegion block.offset (block.offset-cursor) cursor found
    else (none,found)) = out at hspec ⊢
  obtain ⟨broke,found'⟩ := out
  obtain ⟨h1,h2⟩ := hspec
  rw [ih block.stop found' _ hnext,← hfree,h2,h1]
  simp [Store.breakGap]

theorem walkObjectsWithGaps_spec (h : GapTiled st sorted cells) :
    st.walkObjectsWithGaps sorted = (validObjects st cells,[]) := by
  rw [Store.walkObjectsWithGaps,walkAllFrom_spec h sorted 0 [] [] (Passing.init h.toLaid)]
  simp [validFrom]

end

section
variable {st : Store} {g : OldGen} {sorted cells objects : List Span}

theorem total_cells (st : Store) (cells : List Span) :
    total (validObjects st cells)+
      total (cells.filter fun c => (st.headerAt c.offset).classId = gapFillerClassId) = total cells := by
  have hperm := filter_append_perm (fun c : Span => decide ((st.headerAt c.offset).classId ≠ gapFillerClassId)) cells
  have hnot : (cells.filter fun c => !decide ((st.headerAt c.offset).classId ≠ gapFillerClassId)) =
      cells.filter fun c => decide ((st.headerAt c.offset).classId = gapFillerClassId) := by
    refine filter_congr ?_
    intro c _
    simp
  rw [hnot] at hperm
  rw [validObjects,← total_append]
  exact total_perm hperm

theorem objectExtent_granular {ls : Layouts} {hd : Header} {size : Nat} {isRef : Bool}
    (h : ls.objectExtent hd = some (size,isRef)) : size%8 = 0 := by
  obtain ⟨_,_,_,_,hround⟩ := objectExtent_cases h
  obtain ⟨raw,_,rfl⟩ := Option.map_eq_some_iff.mp hround
  unfold alignDown
  omega

theorem slide_stop (h8 : ∀ o ∈ objects, o.size%8 = 0) {cursor : Nat} (hcursor : cursor%8 = 0) :
    (slide cursor objects).2 = cursor+total objects ∧ (cursor+total objects)%8 = 0 := by
  induction objects generalizing cursor with
  | nil => exact ⟨rfl,hcursor⟩
  | cons o rest ih => ?_
  have ho := h8 o (by simp)
  have hdest : alignDown (cursor+7) 8 = cursor := by
    unfold alignDown
    omega
  obtain ⟨h1,h2⟩ := ih (fun p hp => h8 p (mem_cons_of_mem _ hp)) (show (cursor+o.size)%8 = 0 by omega)
  simp only [slide,hdest,total_cons]
  exact ⟨by rw [h1]; omega,by omega⟩

theorem slideAround_sizes (stays : Nat → Bool) (cursor : Nat) (objects : List Span) :
    ((slideAround stays cursor objects).1.map Move.size).sum = total objects := by
  induction objects generalizing cursor with
  | nil => rfl
  | cons o rest ih =>
    simp only [slideAround,map_cons,sum_cons,total_cons]
    rw [ih]

/-- The survivors of a compaction. -/
def marks (objects : List Span) (marked : Nat → Bool) : List Span := objects.filter fun o => marked o.offset

theorem compactWalkedStarts_used (h8 : ∀ o ∈ objects, o.size%8 = 0)
    (hused : (objects.map Span.size).sum = g.usedBytes) (marked : Nat → Bool) :
    (g.compactWalkedStarts objects marked true false).1.isSome = true ∧
      (g.compactWalkedStarts objects marked true false).2.usedBytes = total (marks objects marked) := by
  have h8' : ∀ o ∈ marks objects marked, o.size%8 = 0 := fun o ho => h8 o (mem_of_mem_filter ho)
  obtain ⟨hstop,hgran⟩ := slide_stop h8' (show 0%8 = 0 from rfl)
  rw [Nat.zero_add] at hstop hgran
  have hend : alignDown (total (marks objects marked)+7) 8 = total (marks objects marked) := by
    unfold alignDown
    omega
  unfold compactWalkedStarts
  rw [if_neg (not_not_intro hused)]
  refine ⟨rfl,?_⟩
  show alignDown ((slide 0 (marks objects marked)).2+7) 8 = _
  rw [hstop,hend]

theorem compactAroundPins_used (hused : (objects.map Span.size).sum = g.usedBytes) (marked stays : Nat → Bool) :
    (g.compactAroundPins objects marked stays false).1.isSome = true ∧
      (g.compactAroundPins objects marked stays false).2.usedBytes = total (marks objects marked) := by
  unfold compactAroundPins
  rw [if_neg (not_not_intro hused)]
  exact ⟨rfl,slideAround_sizes stays 0 (marks objects marked)⟩

theorem compactWalkedStarts_abandoned (hused : total objects ≠ g.usedBytes) (marked : Nat → Bool)
    (recommitted escaped : Bool) : g.compactWalkedStarts objects marked recommitted escaped = (none,g) := by
  unfold compactWalkedStarts
  exact if_pos hused

end

section
variable {st : Store} {g : OldGen} {bot : BlockOffsetTable} {sorted cells : List Span}

/-- No walk sees a sentinel, and a compaction that nothing else stops discards them all. -/
structure Transparent (g : OldGen) (st : Store) (bot : BlockOffsetTable) (sorted cells : List Span) : Prop where
  walk : st.walkObjectsWithGaps sorted = (validObjects st cells,[])
  linear : ∀ ranges overlaps, RangesOk ranges →
    st.linearWalk sorted ranges overlaps = (hitsFrom st (validObjects st cells) ranges overlaps 0,[])
  anchored : ∀ seq ranges overlaps, RangesOk ranges →
    (st.walkCardRangesWithGaps bot sorted seq ranges overlaps).1 =
      (hitsFrom st (validObjects st cells) ranges overlaps 0,[])
  compacts : ∀ marked, (g.compactWalkedStarts (st.walkObjectsWithGaps sorted).1 marked true false).1.isSome = true ∧
    (g.compactWalkedStarts (st.walkObjectsWithGaps sorted).1 marked true false).2.usedBytes =
      total (marks (validObjects st cells) marked)
  compactsAround : ∀ marked stays,
    (g.compactAroundPins (st.walkObjectsWithGaps sorted).1 marked stays false).1.isSome = true ∧
    (g.compactAroundPins (st.walkObjectsWithGaps sorted).1 marked stays false).2.usedBytes =
      total (marks (validObjects st cells) marked)

theorem GapTiled.tiled (h : GapTiled st sorted cells)
    (hnone : ∀ c ∈ cells, (st.headerAt c.offset).classId ≠ gapFillerClassId) : Tiled st sorted cells :=
  ⟨h.toLaid,fun c hc => h.sized c hc (hnone c hc),hnone⟩

theorem GapTiled.total_cells (h : GapTiled st sorted cells) (hlen : g.capacity = st.len)
    (hfree : sorted.Perm g.blocks) (haccount : g.usedBytes+total g.blocks = g.capacity) :
    total cells = g.usedBytes := by
  have hfull := h.full
  rw [total_append,total_perm hfree] at hfull
  omega

/-- The walks and the compactions are blind to the sentinels just when there is none. -/
theorem transparent_iff (h : GapTiled st sorted cells) (haligned : ∀ c ∈ cells, c.offset%8 = 0)
    (hbot : BotOk bot (covered sorted) cells st.len) (hlen : g.capacity = st.len) (hfree : sorted.Perm g.blocks)
    (haccount : g.usedBytes+total g.blocks = g.capacity) :
    Transparent g st bot sorted cells ↔ ∀ c ∈ cells, (st.headerAt c.offset).classId ≠ gapFillerClassId := by
  have hused := h.total_cells hlen hfree haccount
  have hwalk := walkObjectsWithGaps_spec h
  constructor
  · intro ht c hc hfill
    -- A sentinel is charged and not walked.
    have hsplit := total_cells st cells
    have hmem : c ∈ cells.filter fun c => (st.headerAt c.offset).classId = gapFillerClassId :=
      mem_filter.mpr ⟨hc,decide_eq_true hfill⟩
    have hsize := total_perm (perm_cons_erase hmem)
    rw [total_cons] at hsize
    have h8 := (h.sentinel c hc hfill).1
    have hne : total (validObjects st cells) ≠ g.usedBytes := by omega
    have hout := (ht.compacts fun _ => true).1
    rw [hwalk,compactWalkedStarts_abandoned hne] at hout
    cases hout
  intro hnone
  have htiled := h.tiled hnone
  obtain ⟨-,hvalid⟩ := htiled.gapTiled
  have hgran : ∀ c ∈ cells, c.size%8 = 0 := by
    intro c hc
    obtain ⟨isRef,hext⟩ := htiled.sized c hc
    exact objectExtent_granular hext
  refine ⟨hwalk,?_,?_,?_,?_⟩
  · intro ranges overlaps hr
    rw [hvalid]
    exact linearWalk_spec htiled hr overlaps
  · intro seq ranges overlaps hr
    rw [hvalid]
    exact (walkCardRangesWithGaps_spec htiled haligned hr hbot seq overlaps).1
  · intro marked
    rw [hwalk,hvalid]
    exact compactWalkedStarts_used hgran hused marked
  intro marked stays
  rw [hwalk,hvalid]
  exact compactAroundPins_used hused marked stays

/-- A generation of 64 bytes that hands out a buffer for objects of two words, without fields. -/
def bufferGen (size : Nat) : OldGen :=
  ((newOldGen 4096 64 false true false).allocUnzeroedBuffer size 8 fun _ _ _ => true).2

def bufferStore (headerAt : Nat → Header) : Store := ⟨4096,64,⟨fun _ => none,8⟩,headerAt⟩

def bufferTable (size : Nat) : BlockOffsetTable := (BlockOffsetTable.new 64 true).noteAlloc 0 size

theorem bufferTable_ok {free : Finset Nat} {cells : List Span} {size : Nat}
    (hentry : bufferTable size = { BlockOffsetTable.new 64 true with entries := [0] }) (hfree : 0 ∉ free)
    (hcell : ∃ c ∈ cells, c.offset = 0) : BotOk (bufferTable size) free cells 64 := by
  rw [hentry]
  refine ⟨fun _ => ⟨?_,?_⟩,fun _ => by decide,fun hseen => absurd rfl hseen⟩
  · intro c hc
    have hzero := Nat.lt_one_iff.mp hc
    subst hzero
    decide
  intro c hc _
  have hzero := Nat.lt_one_iff.mp hc
  subst hzero
  refine ⟨0,rfl,le_rfl,hcell,?_⟩
  intro x _ hx
  have hx0 : x = 0 := by omega
  rw [hx0]
  exact hfree

/-- Two objects fill the buffer. -/
theorem transparent_iff_filled :
    Transparent (bufferGen 32) (bufferStore fun _ => ⟨1,0,0⟩) (bufferTable 32) [⟨32,32⟩] [⟨0,16⟩,⟨16,16⟩] := by
  have hne : ¬1 = gapFillerClassId := by decide
  refine (transparent_iff ⟨⟨⟨by decide,by decide,.inl (by decide)⟩,by decide,by decide,by decide,by decide⟩,
    ?_,fun _ _ hfill => absurd hfill hne⟩ (by decide) (bufferTable_ok (by decide) (by decide) (by decide)) (by decide)
    (by decide) (by decide)).mpr fun _ _ => hne
  intro c hc _
  revert c
  decide

/-- Two objects and a released tail of eight bytes behind them: the walk finds the objects and no gap, but the
compaction of both is abandoned, and the anchored walk reports the sentinel as a gap. -/
theorem sentinel_seen :
    let st := bufferStore fun offset => if offset = 32 then ⟨gapFillerClassId,8,0⟩ else ⟨1,0,0⟩
    let g := (bufferGen 40).releaseUnusedTail (4096+32) 8
    let bot := bufferTable 40
    let cells : List Span := [⟨0,16⟩,⟨16,16⟩,⟨32,8⟩]
    GapTiled st [⟨40,24⟩] cells ∧ (∀ c ∈ cells, c.offset%8 = 0) ∧ BotOk bot (covered [⟨40,24⟩]) cells st.len ∧
      g.capacity = st.len ∧ g.blocks = [⟨40,24⟩] ∧ g.usedBytes+total g.blocks = g.capacity ∧
      st.walkObjectsWithGaps [⟨40,24⟩] = ([⟨0,16⟩,⟨16,16⟩],[]) ∧
      (st.walkCardRangesWithGaps bot [⟨40,24⟩] 1 [(0,64)] false).1.2 = [(32,40)] ∧
      g.compactWalkedStarts [⟨0,16⟩,⟨16,16⟩] (fun _ => true) true false = (none,g) ∧ g.usedBytes = 40 ∧
      ¬Transparent g st bot [⟨40,24⟩] cells := by
  have hout : ((bufferGen 40).releaseUnusedTail (4096+32) 8).compactWalkedStarts [⟨0,16⟩,⟨16,16⟩] (fun _ => true)
      true false = (none,(bufferGen 40).releaseUnusedTail (4096+32) 8) := by decide
  have hwalk : (bufferStore fun offset => if offset = 32 then ⟨gapFillerClassId,8,0⟩ else ⟨1,0,0⟩).walkObjectsWithGaps
      [⟨40,24⟩] = ([⟨0,16⟩,⟨16,16⟩],[]) := by decide
  refine ⟨⟨⟨⟨by decide,by decide,.inl (by decide)⟩,by decide,by decide,by decide,by decide⟩,?_,by decide⟩,
    by decide,bufferTable_ok (by decide) (by decide) (by decide),by decide,by decide,by decide,hwalk,by decide,hout,
    by decide,?_⟩
  · intro c hc hne
    revert c
    decide
  intro ht
  have hsome := (ht.compacts fun _ => true).1
  cases hsome

end
end CratonVM.Gc
