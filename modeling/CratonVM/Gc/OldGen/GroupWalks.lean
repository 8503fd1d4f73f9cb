import CratonVM.Gc.OldGen.CardWalk

/-!
The dirty-card walk split over threads: each group of ranges is walked from its own anchor, and the hits of the
groups in their order are those of the serial walk.
-/
namespace CratonVM.Gc
open Spans Spans.Span OldGen BlockOffsetTable List Option Prod

namespace Store
def withCardWalkView (st : Store) (bot : BlockOffsetTable) (sorted : List FreeBlock) (seq : Nat)
    (ranges : List CardRange) : Option BlockOffsetTable × BlockOffsetTable :=
  if ranges.isEmpty || st.len = 0 then (none,bot)
  else if !bot.enabled then (none,bot)
  else
    let bot := if bot.freeSeqSeen ≠ some seq then
        { bot with freeDisjoint := freeListIsDisjoint sorted st.len, freeSeqSeen := some seq }
      else bot
    if !bot.freeDisjoint then (none,bot)
    else
      let lastLo := min ((ranges.getLast?.map Prod.fst).getD 0) (st.len-1)
      match st.botExtend bot sorted (lastLo/botCard+1) with
      | (false,bot) => (none,bot)
      | (true,bot) => (some bot,bot)

/-- `walk_start`: `none` for an implausible anchor. -/
def walkStart (st : Store) (bot : BlockOffsetTable) (sorted : List FreeBlock) (p : Nat) : Option Nat :=
  match locate sorted p st.len with
  | .free stop => some stop
  | .allocated start _ =>
    let card := p/botCard
    let cs := card*botCard
    if card ≥ bot.validCards ∨ cs < start then some start
    else
      match bot.anchor card with
      | some a => if a ≥ start ∧ a ≤ cs then some a else none
      | none => none

def headerEarlier (before group : List CardRange) (cursor : Nat) : Bool :=
  decide (cursor < (group.head?.map Prod.fst).getD 0) &&
    match before.dropWhile fun r => r.2 ≤ cursor with
    | [] => false
    | (lo,_) :: _ => decide (lo ≤ cursor)

/-- The inner loop of `walk_group`; `none` for a header that cannot be sized. -/
def groupTo (st : Store) (sorted : List FreeBlock) (before group : List CardRange) (overlaps : Bool) (hi : Nat) :
    (fuel : Nat) → WalkLocals → Option WalkLocals
  | 0, l => some l
  | fuel+1, l =>
    if l.cursor < hi ∧ l.cursor < st.len then
      match st.locateCursor sorted l.region l.cursor with
      | .free stop => groupTo st sorted before group overlaps hi fuel { l with cursor := stop, region := none }
      | .allocated _ regionEnd =>
        match st.extentIn l.cursor regionEnd with
        | some (size,isRef) =>
          let (rest,out) := if headerEarlier before group l.cursor then (l.ranges,l.out)
            else visit st.base l.cursor size isRef l.ranges overlaps l.out
          groupTo st sorted before group overlaps hi fuel
            { l with cursor := l.cursor+size, ranges := rest, region := some regionEnd, out }
        | none => none
    else some l

def groupEnter (st : Store) (bot : BlockOffsetTable) (sorted : List FreeBlock) (lo : Nat) (l : WalkLocals) :
    Option WalkLocals :=
  if lo > l.cursor then
    (st.walkStart bot sorted lo).map fun w => if w > l.cursor then { l with cursor := w, region := none } else l
  else some l

def groupRanges (st : Store) (bot : BlockOffsetTable) (sorted : List FreeBlock) (before group : List CardRange)
    (overlaps : Bool) : List CardRange → WalkLocals → Option WalkLocals
  | [], l => some l
  | (lo,hi) :: todo, l =>
    if hi ≤ l.cursor then groupRanges st bot sorted before group overlaps todo l
    else do
      let l ← st.groupEnter bot sorted lo l
      let l ← st.groupTo sorted before group overlaps hi (st.len-l.cursor) l
      groupRanges st bot sorted before group overlaps todo l

def walkGroup (st : Store) (bot : BlockOffsetTable) (sorted : List FreeBlock) (ranges : List CardRange) (g0 g1 : Nat)
    (overlaps : Bool) : Option (List CardRangeHit) :=
  let group := (ranges.take g1).drop g0
  (st.groupRanges bot sorted (ranges.take g0) group overlaps group { ranges := group }).map WalkLocals.out

def walkGroups (st : Store) (bot : BlockOffsetTable) (sorted : List FreeBlock) (ranges : List CardRange)
    (overlaps : Bool) : (g0 : Nat) → (sizes : List Nat) → Option (List CardRangeHit)
  | _, [] => some []
  | g0, n :: sizes => do
    let hits ← st.walkGroup bot sorted ranges g0 (g0+n) overlaps
    let rest ← walkGroups st bot sorted ranges overlaps (g0+n) sizes
    some (hits++rest)

end Store

section
variable {st : Store} {overlaps : Bool}

def HeaderIn (ranges : List CardRange) (o : Nat) : Prop := ∃ r ∈ ranges, r.1 ≤ o ∧ o < r.2

instance (ranges : List CardRange) (o : Nat) : Decidable (HeaderIn ranges o) :=
  inferInstanceAs (Decidable (∃ r ∈ ranges, r.1 ≤ o ∧ o < r.2))

def groupHitsOf (st : Store) (before group : List CardRange) (overlaps : Bool) (o : Span) : List CardRangeHit :=
  if HeaderIn before o.offset then [] else hitsOf st group overlaps o

theorem visitRanges_above {base o size : Nat} {isRef : Bool} {ranges : List CardRange}
    (habove : ∀ r ∈ ranges, o < r.1) (hnot : (overlaps && isRef) = false) :
    visitRanges base o size isRef overlaps ranges = [] := by
  cases ranges with
  | nil => rfl
  | cons r rest => ?_
  obtain ⟨lo,hi⟩ := r
  have hlo : o < lo := habove (lo,hi) (by simp)
  simp only [visitRanges,hnot,Bool.not_false,if_true]
  rw [if_neg (show ¬lo ≤ o by omega)]
  split
  · rfl
  · rfl

variable {xs ys : List CardRange}

theorem visitRanges_append {base o size : Nat} {isRef : Bool}
    (hr : RangesOk (xs++ys)) (habove : ∀ r ∈ xs++ys, o < r.1) :
    visitRanges base o size isRef overlaps (xs++ys) =
      visitRanges base o size isRef overlaps xs++visitRanges base o size isRef overlaps ys := by
  cases hwin : overlaps && isRef with
  | false =>
    rw [visitRanges_above habove hwin,visitRanges_above (fun r h => habove r (mem_append_left _ h)) hwin,
      visitRanges_above (fun r h => habove r (mem_append_right _ h)) hwin]
    rfl
  | true => ?_
  induction xs with
  | nil => rfl
  | cons r xs ih => ?_
  obtain ⟨lo,hi⟩ := r
  have hlo : o < lo := habove (lo,hi) (by simp)
  obtain ⟨hfirst,hrest⟩ := pairwise_cons.mp hr.ascending
  simp only [cons_append,visitRanges,hwin,Bool.not_true,Bool.false_eq_true,if_false,Nat.not_le.mpr hlo]
  by_cases hin : lo < o+size
  · rw [if_pos hin,if_pos hin,ih ⟨hrest,fun r h => hr.nonempty r (mem_cons_of_mem _ h)⟩
      (fun r h => habove r (mem_cons_of_mem _ h))]
    rfl
  -- The object ends before this range, and so before all later ones.
  rw [if_neg hin,if_neg hin,nil_append]
  refine (visitRanges_eq_nil ?_).symm
  intro r hr'
  have h1 := hfirst r (mem_append_right _ (mem_of_head? hr'))
  have h2 := hr.nonempty (lo,hi) (by simp)
  omega

theorem RangesOk.left (hr : RangesOk (xs++ys)) : RangesOk xs :=
  ⟨(pairwise_append.mp hr.ascending).1,fun r h => hr.nonempty r (mem_append_left _ h)⟩

theorem RangesOk.right (hr : RangesOk (xs++ys)) : RangesOk ys :=
  ⟨(pairwise_append.mp hr.ascending).2.1,fun r h => hr.nonempty r (mem_append_right _ h)⟩

theorem dropWhile_above {o : Nat} {ranges : List CardRange} (h : ∀ r ∈ ranges, o < r.2) :
    (ranges.dropWhile fun r => r.2 ≤ o) = ranges := by
  cases ranges with
  | nil => rfl
  | cons r rest =>
    have := h r (by simp)
    exact dropWhile_cons_of_neg (by simp; omega)

theorem headerIn_iff {ranges : List CardRange} (hr : RangesOk ranges) (o : Nat) :
    HeaderIn ranges o ↔ ∃ r ∈ (ranges.dropWhile fun r => r.2 ≤ o).head?, r.1 ≤ o := by
  induction ranges with
  | nil => simp [HeaderIn]
  | cons r rest ih => ?_
  obtain ⟨hfirst,hasc⟩ := pairwise_cons.mp hr.ascending
  by_cases hend : r.2 ≤ o
  · rw [dropWhile_cons_of_pos (by simpa using hend),
      ← ih ⟨hasc,fun q hq => hr.nonempty q (mem_cons_of_mem _ hq)⟩]
    constructor
    · rintro ⟨q,hq,h1,h2⟩
      rcases mem_cons.mp hq with rfl | hq
      · omega
      · exact ⟨q,hq,h1,h2⟩
    rintro ⟨q,hq,h1⟩
    exact ⟨q,mem_cons_of_mem _ hq,h1⟩
  rw [dropWhile_cons_of_neg (by simpa using hend)]
  constructor
  · rintro ⟨q,hq,h1,_⟩
    rcases mem_cons.mp hq with rfl | hq
    · exact ⟨q,by simp,h1⟩
    have := hfirst q hq
    omega
  rintro ⟨q,hq,h1⟩
  obtain rfl := some.inj hq
  exact ⟨r,by simp,h1,by omega⟩

theorem hitsOf_append (hr : RangesOk (xs++ys)) (o : Span) :
    hitsOf st (xs++ys) overlaps o = hitsOf st xs overlaps o++groupHitsOf st xs ys overlaps o := by
  have hheader := headerIn_iff hr.left o.offset
  unfold hitsOf groupHitsOf hitsOf
  rw [dropWhile_append]
  cases hdrop : xs.dropWhile fun r => r.2 ≤ o.offset with
  | nil =>
    rw [hdrop] at hheader
    have hout : ¬HeaderIn xs o.offset := by
      rw [hheader]
      simp
    rw [if_neg hout]
    rfl
  | cons r rest => ?_
  obtain ⟨lo,hi⟩ := r
  rw [hdrop] at hheader
  have hsplit : (xs.takeWhile fun r => r.2 ≤ o.offset)++((lo,hi) :: rest++ys) = xs++ys := by
    rw [← hdrop,← append_assoc,takeWhile_append_dropWhile]
  rw [← hsplit] at hr
  have hr' := hr.right
  simp only [isEmpty_cons,Bool.false_eq_true,if_false]
  by_cases hin : lo ≤ o.offset
  · -- The header lies in the first part.
    rw [if_pos (hheader.mpr ⟨_,rfl,hin⟩)]
    simp [cons_append,visitRanges,hin,append_nil]
  have hlo := hr'.nonempty (lo,hi) (by simp)
  have habove : ∀ r ∈ (lo,hi) :: rest++ys, o.offset < r.1 := by
    intro r hr
    rcases mem_cons.mp hr with rfl | hr
    · exact Nat.lt_of_not_le hin
    have := (pairwise_cons.mp hr'.ascending).1 r hr
    omega
  have hout : ¬HeaderIn xs o.offset := by
    rw [hheader]
    rintro ⟨r,hr,hle⟩
    obtain rfl := some.inj hr
    exact hin hle
  have hys : ∀ r ∈ ys, o.offset < r.2 := by
    intro r hmem
    have h1 := habove r (mem_append_right _ hmem)
    have h2 := hr'.nonempty r (mem_append_right _ hmem)
    omega
  rw [if_neg hout,dropWhile_above hys]
  exact visitRanges_append hr' habove

theorem groupHitsOf_append {before : List CardRange} (hr : RangesOk (before++xs++ys)) (o : Span) :
    groupHitsOf st before (xs++ys) overlaps o =
      groupHitsOf st before xs overlaps o++groupHitsOf st (before++xs) ys overlaps o := by
  have hxy : RangesOk (xs++ys) := by
    rw [append_assoc] at hr
    exact hr.right
  have hin : HeaderIn (before++xs) o.offset ↔ HeaderIn before o.offset ∨ HeaderIn xs o.offset := by
    simp only [HeaderIn,mem_append,or_and_right,exists_or]
  unfold groupHitsOf
  by_cases hb : HeaderIn before o.offset
  · rw [if_pos hb,if_pos hb,if_pos (hin.mpr (.inl hb))]
    rfl
  have hiff : HeaderIn (before++xs) o.offset ↔ HeaderIn xs o.offset := by simp [hin,hb]
  rw [if_neg hb,if_neg hb,hitsOf_append hxy]
  simp only [groupHitsOf,hiff]

/-- Two contributions to a list may be collected one behind the other when no element of the list contributes to
the second one before another contributes to the first one. -/
theorem flatMap_append_of_ordered {α β : Type} {f g : α → List β} {l : List α}
    (h : l.Pairwise fun a b => g a = [] ∨ f b = []) :
    l.flatMap (fun a => f a++g a) = l.flatMap f++l.flatMap g := by
  induction l with
  | nil => rfl
  | cons a l ih => ?_
  obtain ⟨hfirst,hrest⟩ := pairwise_cons.mp h
  simp only [flatMap_cons,ih hrest,append_assoc]
  by_cases hg : g a = []
  · rw [hg]
    rfl
  have hf : l.flatMap f = [] := flatMap_eq_nil_iff.mpr fun b hb => (hfirst b hb).resolve_left hg
  rw [hf]
  rfl

theorem meets_of_hits {ranges : List CardRange} {o : Span} (h : hitsOf st ranges overlaps o ≠ []) :
    ∃ r ∈ ranges, o.offset < r.2 ∧ r.1 < o.stop := by
  by_contra hnone
  refine h (hitsOf_eq_nil ?_)
  intro r hr
  by_contra hnot
  exact hnone ⟨r,hr,by omega,by omega⟩

theorem meets_of_groupHits {before group : List CardRange} {o : Span}
    (h : groupHitsOf st before group overlaps o ≠ []) : ∃ r ∈ group, o.offset < r.2 ∧ r.1 < o.stop := by
  unfold groupHitsOf at h
  split at h
  · exact absurd rfl h
  · exact meets_of_hits h

theorem flatMap_groupHits_append {before : List CardRange} (hr : RangesOk (before++xs++ys)) {cells : List Span}
    (hasc : Ascending cells) :
    cells.flatMap (groupHitsOf st before (xs++ys) overlaps) =
      cells.flatMap (groupHitsOf st before xs overlaps)++
        cells.flatMap (groupHitsOf st (before++xs) ys overlaps) := by
  obtain ⟨_,_,hcross⟩ := pairwise_append.mp hr.ascending
  rw [funext (groupHitsOf_append hr)]
  refine flatMap_append_of_ordered (hasc.imp ?_)
  intro a b hab
  by_contra hboth
  obtain ⟨ha,hb⟩ := not_or.mp hboth
  obtain ⟨q,hq,_,hqa⟩ := meets_of_groupHits ha
  obtain ⟨p,hp,hbp,_⟩ := meets_of_groupHits hb
  have := hcross p (mem_append_right _ hp) q hq
  omega

end

section
variable {st : Store} {sorted cells : List Span} {before group ranges : List CardRange} {overlaps : Bool}
  {bot : BlockOffsetTable}

theorem headerEarlier_iff (hr : RangesOk (before++group)) (hne : group ≠ []) (o : Nat) :
    Store.headerEarlier before group o = true ↔ HeaderIn before o := by
  obtain ⟨_,_,hcross⟩ := pairwise_append.mp hr.ascending
  have hin := headerIn_iff hr.left o
  cases group with
  | nil => exact absurd rfl hne
  | cons first rest => ?_
  unfold Store.headerEarlier
  simp only [head?_cons,map_some,getD_some,Bool.and_eq_true]
  constructor
  · rintro ⟨_,hmatch⟩
    rw [hin]
    cases hdrop : before.dropWhile fun r => r.2 ≤ o with
    | nil =>
      rw [hdrop] at hmatch
      cases hmatch
    | cons r tail =>
      rw [hdrop] at hmatch
      exact ⟨r,rfl,of_decide_eq_true hmatch⟩
  intro hheader
  obtain ⟨q,hq,_,hlt⟩ := id hheader
  have hbefore := hcross q hq first (by simp)
  refine ⟨decide_eq_true (by omega),?_⟩
  obtain ⟨r,hr,hle⟩ := hin.mp hheader
  cases hdrop : before.dropWhile fun r => r.2 ≤ o with
  | nil =>
    rw [hdrop] at hr
    cases hr
  | cons r' tail =>
    rw [hdrop] at hr
    obtain rfl := some.inj hr
    exact decide_eq_true hle

/-- What is known between two rounds of a group: its hits so far and those from the cursor on are all its hits. -/
structure GroupOk (st : Store) (sorted cells : List Span) (before group : List CardRange) (overlaps : Bool)
    (l : Store.WalkLocals) : Prop where
  cursor : CursorOk st sorted cells l.cursor l.region
  rest : RestOk group l.ranges l.cursor
  out : l.out++(cells.filter fun c => l.cursor ≤ c.offset).flatMap (groupHitsOf st before group overlaps) =
    cells.flatMap (groupHitsOf st before group overlaps)

/-- How far the inner loop goes when it answers: to the first boundary at or behind `hi`, over sized cells only. -/
structure Reaches (st : Store) (sorted cells : List Span) (hi x y : Nat) : Prop where
  le : x ≤ y
  passed : hi ≤ y ∨ y = st.len
  first : ∀ b, Boundary st sorted cells b → x ≤ b → hi ≤ b ∨ b = st.len → y ≤ b
  sized : ∀ c ∈ cells, x ≤ c.offset → c.offset < hi → Sized st c

variable {x : Nat}

theorem reaches_refl (h : Laid st sorted cells) {hi : Nat} (hin : x ≤ st.len) (hend : ¬(x < hi ∧ x < st.len)) :
    Reaches st sorted cells hi x x := by
  refine ⟨le_rfl,by omega,fun _ _ hle _ => hle,?_⟩
  intro c hc hle hlt
  have hcin := h.packed.inside c (mem_append_right _ hc)
  have hpos := h.pos (mem_append_right sorted hc)
  unfold Span.stop at hcin
  omega

variable {y : Nat}

theorem Reaches.step (h : Laid st sorted cells) {hi : Nat} {s : Span} (hs : s ∈ sorted++cells)
    (hoff : s.offset = x) (hx : x < hi ∧ x < st.len) (hsized : s ∈ cells → Sized st s)
    (hr : Reaches st sorted cells hi s.stop y) : Reaches st sorted cells hi x y := by
  refine ⟨?_,hr.passed,?_,?_⟩
  · have := hr.le
    unfold Span.stop at this
    omega
  · intro b hb hxb hend
    refine hr.first b hb ?_ hend
    rcases h.not_straddled hb hs with hle | hle
    · exact hle
    · omega
  intro c hc hxc hchi
  by_cases heq : c = s
  · exact heq ▸ hsized (heq ▸ hc)
  refine hr.sized c hc ?_ hchi
  have hap := h.packed.apart.forall (mem_append_right _ hc) hs heq
  have hcpos := h.pos (mem_append_right sorted hc)
  unfold Apart Span.stop at *
  omega

variable {l l' : Store.WalkLocals}

theorem groupTo_spec (h : Walkable st sorted cells) (hr : RangesOk (before++group)) (hne : group ≠ [])
    (hi fuel : Nat) (hl : GroupOk st sorted cells before group overlaps l)
    (hfuel : st.len-l.cursor ≤ fuel) (hans : st.groupTo sorted before group overlaps hi fuel l = some l') :
    GroupOk st sorted cells before group overlaps l' ∧ Reaches st sorted cells hi l.cursor l'.cursor := by
  induction fuel generalizing l with
  | zero =>
    obtain rfl := some.inj hans
    exact ⟨hl,reaches_refl h.toLaid hl.cursor.inside (by omega)⟩
  | succ fuel ih => ?_
  simp only [Store.groupTo] at hans
  by_cases hlt : l.cursor < hi ∧ l.cursor < st.len
  · rw [if_pos hlt] at hans
    cases hl.cursor.found h hlt.2 with
    | free b hb hoff hloc hnext =>
      have hmem := mem_append_left cells hb
      have hpos := h.pos hmem
      have hle : l.cursor ≤ b.stop := by unfold Span.stop; omega
      rw [hloc] at hans
      have hskip : (cells.filter fun c => l.cursor ≤ c.offset).flatMap (groupHitsOf st before group overlaps) =
          (cells.filter fun c => b.stop ≤ c.offset).flatMap (groupHitsOf st before group overlaps) := by
        refine flatMap_from_skip _ hle ?_
        intro c hc h1 h2
        have hap := h.apart hb hc
        have hcpos := h.pos (mem_append_right sorted hc)
        unfold Apart Span.stop at *
        omega
      obtain ⟨h1,h2⟩ := ih (l := { l with cursor := b.stop, region := none })
        ⟨hnext,hl.rest.mono hle,by rw [← hl.out,hskip]⟩ (by simp only [Span.stop]; omega) hans
      exact ⟨h1,Reaches.step h.toLaid hmem hoff hlt (fun hc => absurd (h.apart hb hc) (by
        unfold Apart Span.stop
        omega)) h2⟩
    | object o ho hoff start r hloc hext hsized hnext => ?_
    | broken c hc hoff start r hloc hext hreg hr =>
      rw [hloc] at hans
      simp only [hext] at hans
      cases hans
    have hmem := mem_append_right sorted ho
    have hpos := h.pos hmem
    have hle : o.offset ≤ o.stop := by unfold Span.stop; omega
    have hrest := hl.rest
    have hout := hl.out
    rw [← hoff,h.filter_from_object (.refl _) ho,flatMap_cons] at hout
    rw [hloc] at hans
    simp only [hext] at hans
    rw [← hoff] at hrest hans
    rw [visit_spec hrest] at hans
    have hstop : o.offset+o.size = o.stop := rfl
    rw [hstop] at hans
    -- The object's hits are those of the group, whether or not an earlier range holds its header.
    have hnext' : ∀ rest out, (if Store.headerEarlier before group o.offset then (l.ranges,l.out)
        else (group.dropWhile fun r => r.2 ≤ o.offset,l.out++hitsOf st group overlaps o)) = (rest,out) →
        GroupOk st sorted cells before group overlaps
          { l with cursor := o.stop, ranges := rest, region := some r, out } := by
      intro rest out heq
      have hiff := headerEarlier_iff hr hne o.offset
      split at heq
      · rename_i hearly
        obtain ⟨rfl,rfl⟩ := mk.inj heq
        refine ⟨hnext,hrest.mono hle,?_⟩
        rw [groupHitsOf,if_pos (hiff.mp hearly),nil_append] at hout
        exact hout
      rename_i hlate
      obtain ⟨rfl,rfl⟩ := mk.inj heq
      refine ⟨hnext,((restOk_self 0).dropWhile (Nat.zero_le o.offset)).mono hle,?_⟩
      rw [groupHitsOf,if_neg (fun hin => hlate (hiff.mpr hin)),← append_assoc] at hout
      exact hout
    generalize (if Store.headerEarlier before group o.offset then (l.ranges,l.out)
      else (group.dropWhile fun r => r.2 ≤ o.offset,l.out++hitsOf st group overlaps o)) = seen at hans hnext'
    obtain ⟨rest,out⟩ := seen
    obtain ⟨h1,h2⟩ := ih (hnext' rest out rfl) (by simp only [Span.stop]; omega) hans
    exact ⟨h1,Reaches.step h.toLaid hmem hoff hlt (fun _ => hsized) h2⟩
  · rw [if_neg hlt] at hans
    obtain rfl := some.inj hans
    exact ⟨hl,reaches_refl h.toLaid hl.cursor.inside hlt⟩

theorem walkStart_some {p w : Nat} (hw : st.walkStart bot sorted p = some w) : w = st.botWalkStart bot sorted p := by
  unfold Store.walkStart at hw
  unfold Store.botWalkStart
  cases hloc : locate sorted p st.len with
  | free stop =>
    rw [hloc] at hw
    exact (some.inj hw).symm
  | allocated start stop => ?_
  rw [hloc] at hw
  simp only at hw ⊢
  split at hw
  · rename_i hout
    rw [if_pos hout]
    exact (some.inj hw).symm
  rename_i hcard
  rw [if_neg hcard]
  cases ha : bot.anchor (p/botCard) with
  | none =>
    rw [ha] at hw
    cases hw
  | some a => ?_
  rw [ha] at hw
  simp only at hw ⊢
  split at hw
  · rename_i hok
    rw [if_pos hok]
    exact (some.inj hw).symm
  · cases hw

theorem groupEnter_some {lo : Nat} (h : st.groupEnter bot sorted lo l = some l') :
    l' = enterRange st bot sorted lo l := by
  unfold Store.groupEnter at h
  unfold enterRange
  split at h
  · rename_i hgt
    obtain ⟨w,hw,rfl⟩ := map_eq_some_iff.mp h
    rw [walkStart_some hw]
    simp only [hgt,true_and]
  rename_i hle
  rw [if_neg fun hboth => hle hboth.1]
  exact (some.inj h).symm

theorem groupRanges_cons {range : CardRange} {todo : List CardRange}
    (h : st.groupRanges bot sorted before group overlaps (range :: todo) l = some l') :
    ∃ l1, st.groupRanges bot sorted before group overlaps todo l1 = some l' ∧
      (range.2 ≤ l.cursor ∧ l1 = l ∨ st.groupTo sorted before group overlaps range.2
        (st.len-(enterRange st bot sorted range.1 l).cursor) (enterRange st bot sorted range.1 l) = some l1) := by
  simp only [Store.groupRanges] at h
  split at h
  · rename_i hskip
    exact ⟨l,h,.inl ⟨hskip,rfl⟩⟩
  obtain ⟨l0,h0,h⟩ := bind_eq_some_iff.mp h
  obtain ⟨l1,h1,h⟩ := bind_eq_some_iff.mp h
  rw [groupEnter_some h0] at h1
  exact ⟨l1,h,.inr h1⟩

theorem GroupOk.enter (h : Walkable st sorted cells) (hbot : Anchored bot (covered sorted) cells st.len) {lo : Nat} (hl : GroupOk st sorted cells before group overlaps l)
    (hdone : ∀ r ∈ group, lo ≤ r.1 ∨ Passed st l r) :
    GroupOk st sorted cells before group overlaps (enterRange st bot sorted lo l) := by
  unfold enterRange
  split
  · obtain ⟨h1,h2,_,_⟩ := botWalkStart_spec h.toLaid hbot lo
    have hle : l.cursor ≤ st.botWalkStart bot sorted lo := by omega
    refine ⟨⟨h1,h2,by simp⟩,hl.rest.mono hle,?_⟩
    rw [← hl.out]
    refine congrArg _ (flatMap_from_skip _ hle ?_).symm
    intro o ho hco how
    unfold groupHitsOf
    rw [hitsOf_eq_nil (no_hit_before h.toLaid hbot hdone ho hco how)]
    exact ite_self _
  · exact hl

/-- From `y` on there is no cell before `x`. -/
def Ahead (cells : List Span) (x y : Nat) : Prop := ∀ c ∈ cells, y ≤ c.offset → x ≤ c.offset

theorem Ahead.mono {z : Nat} (h : Ahead cells x y) (hyz : y ≤ z) : Ahead cells x z :=
  fun c hc hz => h c hc (Nat.le_trans hyz hz)

theorem StartOk.ahead (h : Laid st sorted cells) {p w : Nat} (hw : StartOk st sorted cells p w) : Ahead cells w p := by
  intro c hc hle
  rcases hw.behind with hwp | ⟨b,hb,h1,h2,rfl⟩
  · exact Nat.le_trans hwp hle
  have hap := h.apart hb hc
  have hpos := h.pos (mem_append_right sorted hc)
  unfold Apart Span.stop at *
  omega

variable {ls lg : Store.WalkLocals}

theorem Ahead.enter (h : Laid st sorted cells) (hbot : Anchored bot (covered sorted) cells st.len) {lo : Nat} (ha : Ahead cells lg.cursor ls.cursor) (hy : ls.cursor ≤ y)
    (hstart : lo ≤ y ∨ (enterRange st bot sorted lo ls).cursor ≤ y) :
    Ahead cells (enterRange st bot sorted lo lg).cursor y := by
  have hw := (botWalkStart_spec h hbot lo).ahead h
  have hstart' : lo ≤ y ∨ st.botWalkStart bot sorted lo ≤ y := by
    rcases hstart with hlo | hge
    · exact .inl hlo
    unfold enterRange at hge
    split at hge
    · exact .inr hge
    · omega
  unfold enterRange
  split
  · rcases hstart' with hlo | hge
    · exact hw.mono hlo
    intro c _ hc
    exact Nat.le_trans hge hc
  · exact ha.mono hy

theorem Reaches.ahead (h : Laid st sorted cells) {hi z : Nat} (hr : Reaches st sorted cells hi x y)
    (ha : Ahead cells x z) (hz : hi ≤ z ∨ z = st.len) : Ahead cells y z := by
  intro c hc hle
  have hmem := mem_append_right sorted hc
  have hin := h.packed.inside c hmem
  have hpos := h.pos hmem
  refine hr.first c.offset (.inr ⟨c,hmem,rfl⟩) (ha c hc hle) (.inl ?_)
  unfold Span.stop at hin
  omega

theorem group_step (h : Walkable st sorted cells) (hbot : Anchored bot (covered sorted) cells st.len)
    (hr : RangesOk (before++group)) (hne : group ≠ []) {range : CardRange} {l1 : Store.WalkLocals}
    (hlg : GroupOk st sorted cells before group overlaps lg) (hahead : Ahead cells lg.cursor ls.cursor)
    (hgroup : ∀ r ∈ group, range.1 ≤ r.1 ∨ Passed st lg r)
    (hstep : range.2 ≤ lg.cursor ∧ l1 = lg ∨ st.groupTo sorted before group overlaps range.2
        (st.len-(enterRange st bot sorted range.1 lg).cursor) (enterRange st bot sorted range.1 lg) = some l1) :
    (GroupOk st sorted cells before group overlaps l1 ∧ lg.cursor ≤ l1.cursor ∧ Passed st l1 range) ∧
      ∀ y, ls.cursor ≤ y → range.1 ≤ y ∨ (enterRange st bot sorted range.1 ls).cursor ≤ y →
        (∀ c ∈ cells, y ≤ c.offset → c.offset < range.2 → Sized st c) ∧
        (range.2 ≤ y ∨ y = st.len → Ahead cells l1.cursor y) := by
  rcases hstep with ⟨hskip,rfl⟩ | hwalk
  · refine ⟨⟨hlg,le_rfl,.inl hskip⟩,fun y hy _ => ⟨?_,fun _ => hahead.mono hy⟩⟩
    intro c hc hyc hlt
    have := hahead c hc (Nat.le_trans hy hyc)
    omega
  obtain ⟨hok,hreach⟩ := groupTo_spec h hr hne range.2 _ (hlg.enter h hbot hgroup) le_rfl hwalk
  refine ⟨⟨hok,Nat.le_trans (le_enterRange _ _ _ _ _) hreach.le,hreach.passed⟩,fun y hy hstart => ?_⟩
  have hfrom := hahead.enter h.toLaid hbot hy hstart
  exact ⟨fun c hc hyc hlt => hreach.sized c hc (hfrom c hc hyc) hlt,hreach.ahead h.toLaid hfrom⟩

theorem walkRanges_group (h : Walkable st sorted cells) (hbot : Anchored bot (covered sorted) cells st.len)
    (hr : RangesOk (before++group)) (hne : group ≠ []) {later : List CardRange} (todo : List CardRange)
    {lg' : Store.WalkLocals} (hlg : GroupOk st sorted cells before group overlaps lg)
    (hls : WalkOk st sorted cells ranges overlaps ls) (hahead : Ahead cells lg.cursor ls.cursor)
    (hasc : (todo++later).Pairwise fun a b => a.1 ≤ b.1) (hnonempty : ∀ r ∈ todo, r.1 < r.2)
    (hgroup : ∀ r ∈ group, r ∈ todo ∨ Passed st lg r)
    (hdone : ∀ r ∈ ranges, r ∈ todo++later ∨ Passed st ls r)
    (hans : st.groupRanges bot sorted before group overlaps todo lg = some lg') :
    (GroupOk st sorted cells before group overlaps lg' ∧ ∀ r ∈ group, Passed st lg' r) ∧
      WalkOk st sorted cells ranges overlaps (st.walkRanges bot sorted ranges overlaps todo ls) ∧
      ∀ r ∈ ranges, r ∈ later ∨ Passed st (st.walkRanges bot sorted ranges overlaps todo ls) r := by
  induction todo generalizing lg ls with
  | nil =>
    obtain rfl := some.inj hans
    exact ⟨⟨hlg,fun r hr => (hgroup r hr).resolve_left (by simp)⟩,hls,hdone⟩
  | cons range todo ih => ?_
  obtain ⟨hasc1,hasc2⟩ := pairwise_cons.mp hasc
  have hrange := hnonempty range (by simp)
  obtain ⟨l1,hrest,hstep⟩ := groupRanges_cons hans
  obtain ⟨⟨hl1,hle1,hpass1⟩,hpos⟩ := group_step h hbot hr hne hlg hahead
    (starts_behind (fun r hr => hasc1 r (mem_append_left _ hr)) hgroup) hstep
  have hgroup' := passed_next hpass1 hle1 hl1.cursor.inside hgroup
  have hnonempty' : ∀ r ∈ todo, r.1 < r.2 := fun r hr => hnonempty r (mem_cons_of_mem _ hr)
  rw [walkRanges_cons]
  split
  · -- The serial walk is past this range already.
    rename_i hskip
    have hnext := (hpos ls.cursor le_rfl (.inl (by omega))).2 (.inl hskip)
    exact ih hl1 hls hnext hasc2 hnonempty' hgroup'
      (passed_next (.inl hskip) le_rfl hls.cursor.inside hdone) hrest
  have hsized := (hpos _ (le_enterRange st bot sorted range.1 ls) (.inr le_rfl)).1
  obtain ⟨h1,h2,h3⟩ := walkRange_spec h hbot hls (starts_behind hasc1 hdone) hsized
  have hle := Nat.le_trans (le_enterRange st bot sorted range.1 ls) h2
  have hnext := (hpos _ hle (.inr h2)).2 h3
  exact ih hl1 h1 hnext hasc2 hnonempty' hgroup' (passed_next h3 hle h1.cursor.inside hdone) hrest

theorem walkRanges_append (st : Store) (bot : BlockOffsetTable) (sorted : List FreeBlock) (ranges : List CardRange)
    (overlaps : Bool) (xs ys : List CardRange) (l : Store.WalkLocals) :
    st.walkRanges bot sorted ranges overlaps (xs++ys) l =
      st.walkRanges bot sorted ranges overlaps ys (st.walkRanges bot sorted ranges overlaps xs l) := by
  induction xs generalizing l with
  | nil => rfl
  | cons range xs ih => rw [cons_append,walkRanges_cons,walkRanges_cons,ih]

theorem GroupOk.finished (h : Laid st sorted cells)
    (hl : GroupOk st sorted cells before group overlaps l) (hdone : ∀ r ∈ group, Passed st l r) :
    l.out = cells.flatMap (groupHitsOf st before group overlaps) := by
  have hnone : (cells.filter fun c => l.cursor ≤ c.offset).flatMap (groupHitsOf st before group overlaps) = [] := by
    refine flatMap_eq_nil_iff.mpr ?_
    intro c hc
    obtain ⟨hmem,hle⟩ := mem_filter.mp hc
    have hle' := of_decide_eq_true hle
    by_contra hhits
    obtain ⟨r,hr,h1,_⟩ := meets_of_groupHits hhits
    have hin := h.packed.inside c (mem_append_right _ hmem)
    have hpos := h.pos (mem_append_right sorted hmem)
    unfold Span.stop at hin
    rcases hdone r hr with hd | hd
    · omega
    · omega
  have hout := hl.out
  rwa [hnone,append_nil] at hout

theorem groupOk_init (h : Laid st sorted cells) (before group : List CardRange) (overlaps : Bool) :
    GroupOk st sorted cells before group overlaps { ranges := group } := by
  refine ⟨⟨h.boundary_zero,Nat.zero_le _,by simp⟩,restOk_self _,?_⟩
  rw [filter_eq_self.mpr (by simp)]
  rfl

theorem flatMap_groupHits_nil (st : Store) (before : List CardRange) (overlaps : Bool) (cells : List Span) :
    cells.flatMap (groupHitsOf st before [] overlaps) = [] := by
  refine flatMap_eq_nil_iff.mpr ?_
  intro c _
  exact ite_self _

theorem walkGroup_spec (h : Walkable st sorted cells) (hbot : Anchored bot (covered sorted) cells st.len)
    (hr : RangesOk ranges) {g0 n : Nat} (hls : WalkOk st sorted cells ranges overlaps ls)
    (hdone : ∀ r ∈ ranges, r ∈ ranges.drop g0 ∨ Passed st ls r) {hits : List CardRangeHit}
    (hans : st.walkGroup bot sorted ranges g0 (g0+n) overlaps = some hits) :
    hits = cells.flatMap (groupHitsOf st (ranges.take g0) ((ranges.drop g0).take n) overlaps) ∧
      WalkOk st sorted cells ranges overlaps (st.walkRanges bot sorted ranges overlaps ((ranges.drop g0).take n) ls) ∧
      ∀ r ∈ ranges, r ∈ ranges.drop (g0+n) ∨
        Passed st (st.walkRanges bot sorted ranges overlaps ((ranges.drop g0).take n) ls) r := by
  have hgroup : (ranges.take (g0+n)).drop g0 = (ranges.drop g0).take n := by
    rw [drop_take,Nat.add_sub_cancel_left]
  have hlater : ranges.drop g0 = (ranges.drop g0).take n++ranges.drop (g0+n) := by
    rw [← drop_drop,take_append_drop]
  have hall : ranges.take g0++(ranges.drop g0).take n++ranges.drop (g0+n) = ranges := by
    rw [append_assoc,← hlater,take_append_drop]
  unfold Store.walkGroup at hans
  rw [hgroup] at hans
  obtain ⟨lg,hlg,rfl⟩ := map_eq_some_iff.mp hans
  have hinit := groupOk_init h.toLaid (ranges.take g0) ((ranges.drop g0).take n) overlaps
  rw [hlater] at hdone
  clear hans
  generalize (ranges.drop g0).take n = group at *
  by_cases hne : group = []
  · subst hne
    obtain rfl := some.inj hlg
    rw [flatMap_groupHits_nil]
    exact ⟨rfl,hls,hdone⟩
  have hr' := hr
  rw [← hall] at hr'
  have hasc := hr'.starts
  rw [append_assoc] at hasc
  obtain ⟨⟨hok,hend⟩,hw,hleft⟩ := walkRanges_group h hbot hr'.left hne group hinit hls (fun _ _ _ => Nat.zero_le _)
    (pairwise_append.mp hasc).2.1 (fun r hmem => hr'.left.right.nonempty r hmem) (fun r hmem => .inl hmem)
    hdone hlg
  exact ⟨hok.finished h.toLaid hend,hw,hleft⟩

theorem walkRanges_groups (h : Walkable st sorted cells) (hbot : Anchored bot (covered sorted) cells st.len)
    (hr : RangesOk ranges) (sizes : List Nat) (g0 : Nat) (hsum : g0+sizes.sum = ranges.length) (hls : WalkOk st sorted cells ranges overlaps ls)
    (hdone : ∀ r ∈ ranges, r ∈ ranges.drop g0 ∨ Passed st ls r) {hits : List CardRangeHit}
    (hans : st.walkGroups bot sorted ranges overlaps g0 sizes = some hits) :
    hits = cells.flatMap (groupHitsOf st (ranges.take g0) (ranges.drop g0) overlaps) ∧
      WalkOk st sorted cells ranges overlaps (st.walkRanges bot sorted ranges overlaps (ranges.drop g0) ls) ∧
      ∀ r ∈ ranges, Passed st (st.walkRanges bot sorted ranges overlaps (ranges.drop g0) ls) r := by
  induction sizes generalizing g0 ls hits with
  | nil =>
    have hnil : ranges.drop g0 = [] := drop_eq_nil_of_le (by simp at hsum; omega)
    obtain rfl := some.inj hans
    rw [hnil] at hdone ⊢
    rw [flatMap_groupHits_nil]
    exact ⟨rfl,hls,fun r hmem => (hdone r hmem).resolve_left (by simp)⟩
  | cons n sizes ih => ?_
  obtain ⟨first,hfirst,hans⟩ := bind_eq_some_iff.mp hans
  obtain ⟨rest,hrest,heq⟩ := bind_eq_some_iff.mp hans
  obtain rfl := some.inj heq
  obtain ⟨h1,h2,h3⟩ := walkGroup_spec h hbot hr hls hdone hfirst
  rw [sum_cons] at hsum
  obtain ⟨h4,h5,h6⟩ := ih (g0+n) (by omega) h2 h3 hrest
  have hlater : ranges.drop g0 = (ranges.drop g0).take n++ranges.drop (g0+n) := by
    rw [← drop_drop,take_append_drop]
  have hbefore : ranges.take (g0+n) = ranges.take g0++(ranges.drop g0).take n := take_add
  have hr' : RangesOk (ranges.take g0++(ranges.drop g0).take n++ranges.drop (g0+n)) := by
    rw [← hbefore,take_append_drop]
    exact hr
  rw [hlater,walkRanges_append]
  refine ⟨?_,h5,h6⟩
  rw [h1,h4,hbefore,flatMap_groupHits_append hr' h.ascending_objects]

section
variable (h : Laid st sorted cells)
include h

theorem walkStart_anchored (hbot : Anchored bot (covered sorted) cells st.len) (p : Nat) :
    (st.walkStart bot sorted p).isSome = true := by
  have hloc := locate_spec h p
  unfold Store.walkStart
  cases hl : locate sorted p st.len with
  | free stop => rfl
  | allocated start stop => ?_
  rw [hl] at hloc
  simp only
  split
  · rfl
  rename_i hcard
  obtain ⟨a,ha,hstart⟩ := anchor_in_region h hbot hloc hcard
  have hbelow := ha.below
  rw [ha.anchor]
  simp only
  rw [if_pos ⟨hstart,hbelow⟩]
  rfl

theorem groupTo_answers (hsized : ∀ c ∈ cells, Sized st c)
    (before group : List CardRange) (overlaps : Bool) (hi fuel : Nat) (hl : CursorOk st sorted cells l.cursor l.region) :
    ∃ l', st.groupTo sorted before group overlaps hi fuel l = some l' ∧ CursorOk st sorted cells l'.cursor l'.region := by
  induction fuel generalizing l with
  | zero => exact ⟨l,rfl,hl⟩
  | succ fuel ih => ?_
  simp only [Store.groupTo]
  by_cases hlt : l.cursor < hi ∧ l.cursor < st.len
  · rw [if_pos hlt]
    cases hl.found (h.walkable hsized) hlt.2 with
    | free b hb hoff hloc hnext =>
      rw [hloc]
      exact ih hnext
    | object o ho hoff start r hloc hext _ hnext => ?_
    | broken c hc hoff start r hloc hext hreg hr =>
      obtain ⟨o,ho,hoff',hstop⟩ := hreg.object_at h hl.boundary le_rfl hr
      have hin := extentIn_sized (hsized o ho) hstop
      rw [hoff',hext] at hin
      cases hin
    rw [hloc]
    simp only [hext]
    refine ih ?_
    rw [← hoff]
    exact hnext
  rw [if_neg hlt]
  exact ⟨l,rfl,hl⟩

theorem groupEnter_answers (hbot : Anchored bot (covered sorted) cells st.len) (lo : Nat) (hl : CursorOk st sorted cells l.cursor l.region) :
    ∃ l', st.groupEnter bot sorted lo l = some l' ∧ CursorOk st sorted cells l'.cursor l'.region := by
  obtain ⟨w,hw⟩ := isSome_iff_exists.mp (walkStart_anchored h hbot lo)
  unfold Store.groupEnter
  split
  · rw [hw,map_some]
    refine ⟨_,rfl,?_⟩
    split
    · obtain ⟨h1,h2,_,_⟩ := botWalkStart_spec h hbot lo
      rw [walkStart_some hw]
      exact ⟨h1,h2,by simp⟩
    · exact hl
  · exact ⟨l,rfl,hl⟩

theorem groupRanges_answers (hsized : ∀ c ∈ cells, Sized st c)
    (hbot : Anchored bot (covered sorted) cells st.len) (before group : List CardRange) (overlaps : Bool)
    (todo : List CardRange) (hl : CursorOk st sorted cells l.cursor l.region) :
    ∃ l', st.groupRanges bot sorted before group overlaps todo l = some l' := by
  induction todo generalizing l with
  | nil => exact ⟨l,rfl⟩
  | cons range todo ih => ?_
  obtain ⟨lo,hi⟩ := range
  simp only [Store.groupRanges]
  split
  · exact ih hl
  obtain ⟨l1,h1,hl1⟩ := groupEnter_answers h hbot lo hl
  obtain ⟨l2,h2,hl2⟩ := groupTo_answers h hsized before group overlaps hi (st.len-l1.cursor) hl1
  obtain ⟨l3,h3⟩ := ih hl2
  exact ⟨l3,bind_eq_some_iff.mpr ⟨l1,h1,bind_eq_some_iff.mpr ⟨l2,h2,h3⟩⟩⟩

theorem walkGroups_answers (hsized : ∀ c ∈ cells, Sized st c)
    (hbot : Anchored bot (covered sorted) cells st.len) (ranges : List CardRange) (overlaps : Bool) (sizes : List Nat) (g0 : Nat) :
    ∃ hits, st.walkGroups bot sorted ranges overlaps g0 sizes = some hits := by
  induction sizes generalizing g0 with
  | nil => exact ⟨[],rfl⟩
  | cons n sizes ih => ?_
  obtain ⟨rest,hrest⟩ := ih (g0+n)
  obtain ⟨l,hl⟩ := groupRanges_answers h hsized hbot (ranges.take g0) ((ranges.take (g0+n)).drop g0) overlaps
    ((ranges.take (g0+n)).drop g0) (l := { ranges := (ranges.take (g0+n)).drop g0 })
    ⟨h.boundary_zero,Nat.zero_le _,by simp⟩
  refine ⟨l.out++rest,?_⟩
  simp only [Store.walkGroups,Store.walkGroup,hl,map_some,hrest]
  rfl

end

theorem withCardWalkView_eq (hne : ranges ≠ []) (hlen : st.len ≠ 0) (hon : bot.enabled = true) {seq : Nat}
    {answer : List CardRangeHit × List (Nat × Nat)} {table : BlockOffsetTable}
    (hwalk : st.botWalk bot sorted seq ranges overlaps = (some answer,table)) :
    st.withCardWalkView bot sorted seq ranges = (some table,table) := by
  have hempty : ranges.isEmpty = false := by simpa using hne
  unfold Store.botWalk at hwalk
  unfold Store.withCardWalkView
  simp only [hempty,hlen,decide_false,Bool.or_false,Bool.false_eq_true,if_false] at hwalk ⊢
  rw [if_neg (by simp [hon])]
  generalize (if bot.freeSeqSeen ≠ some seq then
    { bot with freeDisjoint := freeListIsDisjoint sorted st.len, freeSeqSeen := some seq }
    else bot) = bot1 at hwalk ⊢
  split at hwalk
  · cases hwalk
  rename_i hfree
  rw [if_neg hfree]
  generalize st.botExtend bot1 sorted _ = extended at hwalk ⊢
  obtain ⟨ok,bot2⟩ := extended
  cases ok with
  | false => cases hwalk
  | true =>
    obtain ⟨_,rfl⟩ := mk.inj hwalk
    rfl

/-- Whenever the groups of a partition of the ranges all answer, their hits one behind the other are what the serial
walk reports, without a gap; and where every header can be sized they all answer. -/
theorem walkGroups_serial (h : Walkable st sorted cells) (haligned : ∀ c ∈ cells, c.offset%8 = 0)
    (hbot : BotOk bot (covered sorted) cells st.len) (hon : bot.enabled = true) (hr : RangesOk ranges)
    (hne : ranges ≠ []) (sizes : List Nat) (hsum : sizes.sum = ranges.length) (seq : Nat) (overlaps : Bool) :
    ∃ table, (st.withCardWalkView bot sorted seq ranges).1 = some table ∧
      (∀ hits, st.walkGroups table sorted ranges overlaps 0 sizes = some hits →
        (st.botWalk bot sorted seq ranges overlaps).1 = some (hits,[])) ∧
      ((∀ c ∈ cells, Sized st c) → ∃ hits, st.walkGroups table sorted ranges overlaps 0 sizes = some hits) := by
  have hlen : st.len ≠ 0 := by
    have := h.nonempty
    omega
  obtain ⟨table,hanch,_,heq⟩ := botWalk_prepared h haligned hbot hon seq ranges
  refine ⟨table,?_,?_,fun hsized => walkGroups_answers h.toLaid hsized hanch ranges overlaps sizes 0⟩
  · rw [withCardWalkView_eq hne hlen hon (heq overlaps)]
  intro hits hans
  obtain ⟨hhits,hw,hdone⟩ := walkRanges_groups h hanch hr sizes 0 (by omega) (walkOk_init h.toLaid ranges overlaps)
    (fun r hmem => .inl hmem) hans
  have hserial := hw.finished h.toLaid hdone
  have hall : hits = hitsFrom st cells ranges overlaps 0 := by
    rw [hhits]
    unfold hitsFrom
    rw [filter_eq_self.mpr (by simp)]
    rfl
  rw [heq overlaps,hall]
  exact congrArg some hserial

/-- A reference array over two ranges of different groups: each group reports its own window. -/
theorem walkGroups_serial_array :
    let st : Store := ⟨4096,1536,⟨fun _ => none,8⟩,fun offset => if offset = 16 then ⟨2,0x10000,188⟩ else ⟨1,0,0⟩⟩
    let bot := ((BlockOffsetTable.new 1536 true).noteAlloc 0 16).noteAlloc 16 1520
    (st.botWalk bot [] 1 [(512,1024),(1024,1536)] true).1 =
      some ([⟨4112,1520,some (496,1008)⟩,⟨4112,1520,some (1008,1520)⟩],[]) := by
  intro st bot
  have hsized : ∀ c ∈ [⟨0,16⟩,⟨16,1520⟩], Sized st c := by
    intro c hc
    rcases mem_pair.mp hc with rfl | rfl
    · exact ⟨false,by decide⟩
    · exact ⟨true,by decide⟩
  have hlaid : Laid st [] [⟨0,16⟩,⟨16,1520⟩] :=
    ⟨⟨by decide,by decide,.inl (by decide)⟩,by decide,by decide,by decide,by decide⟩
  have hbot : BotOk bot (covered []) [⟨0,16⟩,⟨16,1520⟩] st.len := by
    refine ⟨fun _ => ⟨by decide,?_⟩,fun _ => by decide,fun hseen => absurd rfl hseen⟩
    intro c hc _
    have hcard : c = 0 ∨ c = 1 ∨ c = 2 := by
      have : c < 3 := hc
      omega
    rcases hcard with rfl | rfl | rfl
    · exact ⟨0,by decide,by decide,by decide,by simp [covered]⟩
    · exact ⟨16,by decide,by decide,by decide,by simp [covered]⟩
    · exact ⟨16,by decide,by decide,by decide,by simp [covered]⟩
  have hr : RangesOk [(512,1024),(1024,1536)] := ⟨by decide,by decide⟩
  obtain ⟨table,hview,hserial,_⟩ := walkGroups_serial (hlaid.walkable hsized) (by decide) hbot rfl hr (by simp) [1,1] rfl
    1 true
  have htable : (st.withCardWalkView bot [] 1 [(512,1024),(1024,1536)]).1 =
      some { bot with freeDisjoint := true, freeSeqSeen := some 1 } := by decide
  obtain rfl := some.inj (htable.symm.trans hview)
  exact hserial _ (by decide)

end
end CratonVM.Gc
