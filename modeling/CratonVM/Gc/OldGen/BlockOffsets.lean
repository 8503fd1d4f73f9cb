import CratonVM.Gc.OldGen.AllocatorRuns

/-!
The block-offset table of `gc/src/old_gen/bot.rs` and the dirty-card object walks: the anchored
walk with its lazily re-derived prefix, and the two linear walks it must agree with. A position
in the list of dirty ranges is the rest of the list from there on. The counters are left out.
-/
namespace CratonVM.Gc
open Spans OldGen

def botCard : Nat := 512

/-- What the walks read of an object header; `shape` is the array length or the slot count. -/
structure Header where
  classId : Nat
  mark : Nat
  shape : Nat
  deriving DecidableEq, Repr

inductive ObjectKind where
  | object
  | array
  | humongousFiller
  deriving DecidableEq, Repr

inductive ArrayElementType where
  | reference
  | boolean
  | char
  | float
  | double
  | byte
  | short
  | int
  | long
  deriving DecidableEq, Repr

/-- What sizing reads outside the header: the registered compact layouts and the width of a
reference. -/
structure Layouts where
  compactTotalSize : Nat → Option Nat
  refElementSize : Nat

def gapFillerClassId : Nat := 0xF111E701
def arrayDataOffset : Nat := headerSize
def slotSize : Nat := 16
def maxPlausibleLegacySlots : Nat := 1 <<< 24
def implausibleBodySize : Nat := 1 <<< 40

namespace Header
def kindTag (h : Header) : Nat := (h.mark >>> 16) &&& 0x3
def elementTypeTag (h : Header) : Nat := (h.mark >>> 18) &&& 0xF
def isCompact (h : Header) : Bool := (h.mark >>> 24) &&& 0x04 ≠ 0

end Header

def objectKindFromTag : Nat → Option ObjectKind
  | 0 => some .object
  | 1 => some .array
  | 2 => some .humongousFiller
  | _ => none

def arrayElementTypeFromTag : Nat → Option ArrayElementType
  | 0 => some .reference
  | 4 => some .boolean
  | 5 => some .char
  | 6 => some .float
  | 7 => some .double
  | 8 => some .byte
  | 9 => some .short
  | 10 => some .int
  | 11 => some .long
  | _ => none

def elementTagOk (kindTag elemTag : Nat) : Bool :=
  kindTag ≠ 1 || (arrayElementTypeFromTag elemTag).isSome

def validateHeaderTagsOrDesync (h : Header) : Option ObjectKind :=
  match objectKindFromTag h.kindTag with
  | some kind => if elementTagOk h.kindTag h.elementTypeTag then some kind else none
  | none => none

namespace Layouts
def elementByteSize (ls : Layouts) : ArrayElementType → Nat
  | .boolean | .byte => 1
  | .char | .short => 2
  | .int | .float => 4
  | .long | .double => 8
  | .reference => ls.refElementSize

def checkedAdd (a b : Nat) : Option Nat := if a+b < 2^64 then some (a+b) else none

def arrayDataSize (ls : Layouts) (length : Nat) (et : ArrayElementType) : Option Nat :=
  if length*ls.elementByteSize et < 2^64 then
    (checkedAdd (length*ls.elementByteSize et) 7).map (alignDown · 8)
  else none

def objectInstanceSize (ls : Layouts) (h : Header) : Nat :=
  if h.isCompact then (ls.compactTotalSize h.classId).getD implausibleBodySize
  else if h.shape > maxPlausibleLegacySlots then implausibleBodySize
  else headerSize+h.shape*slotSize

/-- `object_extent_at`: the size of the object with this header and whether it is a reference
array. -/
def objectExtent (ls : Layouts) (h : Header) : Option (Nat × Bool) := do
  let kind ← validateHeaderTagsOrDesync h
  if kind = .humongousFiller then none
  else
    let (raw,isRefArray) ← if kind = .array then do
        let et := (arrayElementTypeFromTag h.elementTypeTag).getD .reference
        let data ← ls.arrayDataSize h.shape et
        let raw ← checkedAdd arrayDataOffset data
        pure (raw,decide (et = .reference))
      else pure (ls.objectInstanceSize h,false)
    let total ← (checkedAdd raw 7).map (alignDown · 8)
    if total ≥ headerSize then some (total,isRefArray) else none

/-- What the linear walk of `scan_region_filtered` makes of a header, `remaining` bytes before
the end of its region: an object or a filler of some size, or nothing it can size. -/
inductive ScanStep where
  | filler (size : Nat)
  | object (size : Nat)
  | stop
  deriving DecidableEq, Repr

def gapFillerSize (h : Header) (remaining : Nat) : Except Unit (Option Nat) :=
  if remaining < 8 then .error ()
  else if h.classId ≠ gapFillerClassId then .ok none
  else if h.mark ≠ 8 ∨ h.mark > remaining then .error ()
  else .ok (some h.mark)

/-- The size before rounding; an overflowing array length counts as nothing. -/
def scanRawSize (ls : Layouts) (h : Header) (kind : ObjectKind) : Nat :=
  if kind = .array then
    match ls.arrayDataSize h.shape ((arrayElementTypeFromTag h.elementTypeTag).getD .reference) with
    | some data => min (arrayDataOffset+data) (2^64-1)
    | none => 0
  else ls.objectInstanceSize h

def scanStep (ls : Layouts) (h : Header) (remaining : Nat) : ScanStep :=
  match gapFillerSize h remaining with
  | .ok (some size) => .filler size
  | .error () => .stop
  | .ok none =>
    match validateHeaderTagsOrDesync h with
    | none => .stop
    | some .humongousFiller => .stop
    | some kind =>
      let totalSize := ((checkedAdd (ls.scanRawSize h kind) 7).map (alignDown · 8)).getD 0
      if totalSize < headerSize ∨ totalSize > remaining then .stop else .object totalSize

end Layouts

/-- A dirty range `[lo, hi)` of byte offsets. -/
abbrev CardRange := Nat × Nat

structure CardRangeHit where
  ptr : Nat
  size : Nat
  window : Option (Nat × Nat)
  deriving DecidableEq, Repr

def gapWindow (ranges : List CardRange) (g0 g1 : Nat) : Option (Nat × Nat) :=
  if g0 ≥ g1 then none
  else
    match ranges.dropWhile fun r => r.2 ≤ g0 with
    | [] => none
    | (lo,_) :: _ => if lo < g1 then some (max lo g0,g1) else none

def pushGap (gaps : List (Nat × Nat)) (w : Nat × Nat) : List (Nat × Nat) :=
  match gaps.getLast? with
  | some last => if w.1 ≤ last.2 then gaps.dropLast ++ [(last.1,max last.2 w.2)] else gaps ++ [w]
  | none => gaps ++ [w]

def pushGapWindow (gaps : List (Nat × Nat)) : Option (Nat × Nat) → List (Nat × Nat)
  | none => gaps
  | some w => pushGap gaps w

/-- The second loop of `visit`, over the ranges that end above `o`. -/
def visitRanges (base o size : Nat) (isRefArray overlaps : Bool) : List CardRange → List CardRangeHit
  | [] => []
  | (lo,hi) :: rest =>
    if lo < o+size then
      if lo ≤ o then [⟨base+o,size,none⟩]
      else if !(overlaps && isRefArray) then []
      else ⟨base+o,size,some (lo-o,min hi (o+size)-o)⟩ ::
        visitRanges base o size isRefArray overlaps rest
    else []

/-- `visit`: the ranges from the new position on, and the hits with those of this object. -/
def visit (base o size : Nat) (isRefArray : Bool) (ranges : List CardRange) (overlaps : Bool)
    (out : List CardRangeHit) : List CardRange × List CardRangeHit :=
  let ranges := ranges.dropWhile fun r => r.2 ≤ o
  (ranges,out ++ visitRanges base o size isRefArray overlaps ranges)

structure BlockOffsetTable where
  enabled : Bool
  entries : List Nat
  validCards : Nat
  freeSeqSeen : Option Nat
  freeDisjoint : Bool
  deriving DecidableEq, Repr

def divCeil (a b : Nat) : Nat := (a+b-1)/b

namespace BlockOffsetTable
def encodable (capacity : Nat) : Bool := capacity/8 ≤ 2^32-1

def new (capacity : Nat) (requested : Bool) : BlockOffsetTable :=
  { enabled := requested && encodable capacity
    entries := []
    validCards := divCeil capacity botCard
    freeSeqSeen := none
    freeDisjoint := false }

def latchOff (bot : BlockOffsetTable) : BlockOffsetTable :=
  { bot with enabled := false, validCards := 0, entries := [] }

/-- `resize(n, 0)` of a shorter vector. -/
def grow (entries : List Nat) (n : Nat) : List Nat :=
  entries ++ List.replicate (n-entries.length) 0

/-- An anchor as it is stored, in units of eight bytes. -/
def encode (offset : Nat) : Nat := offset/8%2^32

def noteAlloc (bot : BlockOffsetTable) (offset size : Nat) : BlockOffsetTable :=
  if !bot.enabled || size = 0 then bot
  else if offset%8 ≠ 0 then bot.latchOff
  else
    let first := divCeil offset botCard
    let last := divCeil (offset+size) botCard
    if first ≥ last then bot
    else
      { bot with entries := (grow bot.entries last).mapIdx fun c e =>
          if first ≤ c ∧ c < last then encode offset else e }

def noteFree (bot : BlockOffsetTable) (offset : Nat) : BlockOffsetTable :=
  if !bot.enabled then bot
  else
    let keep := offset/botCard+1
    if keep < bot.validCards then { bot with validCards := keep } else bot

def noteRelayout (bot : BlockOffsetTable) : BlockOffsetTable :=
  if !bot.enabled then bot else { bot with validCards := 0 }

def anchor (bot : BlockOffsetTable) (card : Nat) : Option Nat := bot.entries[card]?.map (·*8)

end BlockOffsetTable

inductive Loc where
  | free (stop : Nat)
  | allocated (start stop : Nat)
  deriving DecidableEq, Repr

/-- Where `p` falls relative to the sorted free list; the blocks that start at or below `p` come
first in it. -/
def locate (sorted : List FreeBlock) (p len : Nat) : Loc :=
  let below := sorted.takeWhile fun b => b.offset ≤ p
  let stop := ((sorted.dropWhile fun b => b.offset ≤ p).head?.map Span.offset).getD len
  match below.getLast? with
  | none => .allocated 0 stop
  | some b => if p < b.stop then .free b.stop else .allocated b.stop stop

/-- Each block of the list ends at or before the start of the next one. -/
def neighboursDisjoint : List FreeBlock → Bool
  | a :: b :: rest => decide (a.stop ≤ b.offset) && neighboursDisjoint (b :: rest)
  | _ => true

def freeListIsDisjoint (sorted : List FreeBlock) (len : Nat) : Bool :=
  sorted.all (fun b => b.stop ≤ len) && neighboursDisjoint sorted

/-- The store the walks read: its address and size, and the header at each offset. -/
structure Store where
  base : Nat
  len : Nat
  layouts : Layouts
  headerAt : Nat → Header

namespace Store
def botObjectExtent (st : Store) (offset : Nat) : Option (Nat × Bool) :=
  st.layouts.objectExtent (st.headerAt offset)

def extentIn (st : Store) (offset regionEnd : Nat) : Option (Nat × Bool) :=
  (st.botObjectExtent offset).filter fun x => offset+x.1 ≤ regionEnd

def botWalkStart (st : Store) (bot : BlockOffsetTable) (sorted : List FreeBlock) (p : Nat) : Nat :=
  match locate sorted p st.len with
  | .free stop => stop
  | .allocated start _ =>
    let card := p/botCard
    let cs := card*botCard
    if card ≥ bot.validCards ∨ cs < start then start
    else
      match bot.anchor card with
      | some a => if a ≥ start ∧ a ≤ cs then a else start
      | none => start

/-- The locals of `bot_extend`: `last` is the last object passed, `gap` the last stretch that
could not be parsed, `region` the end of the region the cursor is in. -/
structure ExtendLocals where
  cursor : Nat
  last : Option (Nat × Nat) := none
  region : Option Nat := none
  gap : Option (Nat × Nat) := none
  deriving DecidableEq, Repr

def locateCursor (st : Store) (sorted : List FreeBlock) (region : Option Nat) (cursor : Nat) : Loc :=
  match region.filter fun r => cursor < r with
  | some r => .allocated cursor r
  | none => locate sorted cursor st.len

/-- The inner loop of `bot_extend`: move the cursor past `cs`. `none` when it runs past the
generation. Every round moves the cursor, so `fuel` is what is left up to `cs`. -/
def extendTo (st : Store) (sorted : List FreeBlock) (cs : Nat) :
    (fuel : Nat) → ExtendLocals → Option ExtendLocals
  | 0, l => some l
  | fuel+1, l =>
    if l.cursor ≤ cs then
      if l.cursor ≥ st.len then none
      else
        match st.locateCursor sorted l.region l.cursor with
        | .free stop =>
          extendTo st sorted cs fuel { l with cursor := stop, last := none, region := none }
        | .allocated _ regionEnd =>
          match st.extentIn l.cursor regionEnd with
          | some (size,_) =>
            extendTo st sorted cs fuel
              { l with
                cursor := l.cursor+size
                last := some (l.cursor,l.cursor+size)
                region := some regionEnd }
          | none =>
            extendTo st sorted cs fuel
              { cursor := regionEnd
                last := none
                region := none
                gap := some (l.cursor,regionEnd) }
    else some l

def extendAnchor (l : ExtendLocals) (cs : Nat) : Nat :=
  let fromLast := match l.last with
    | some (s,e) => if s ≤ cs ∧ cs < e then s else cs
    | none => cs
  match l.gap with
  | some (g0,g1) => if g0 ≤ cs ∧ cs < g1 then g0 else fromLast
  | none => fromLast

def extendCards (st : Store) (sorted : List FreeBlock) :
    (n card : Nat) → ExtendLocals → List Nat → Option (List Nat)
  | 0, _, _, entries => some entries
  | n+1, card, l, entries =>
    let cs := card*botCard
    match extendTo st sorted cs (cs+1-l.cursor) l with
    | none => none
    | some l => extendCards st sorted n (card+1) l
        (entries.set card (BlockOffsetTable.encode (extendAnchor l cs)))

def botExtend (st : Store) (bot : BlockOffsetTable) (sorted : List FreeBlock) (need : Nat) :
    Bool × BlockOffsetTable :=
  let v := bot.validCards
  if v ≥ need then (true,bot)
  else
    let bot := { bot with entries := BlockOffsetTable.grow bot.entries need }
    let cursor := if v = 0 then 0 else st.botWalkStart bot sorted (v*botCard-1)
    match st.extendCards sorted (need-v) v { cursor } bot.entries with
    | none => (false,bot.latchOff)
    | some entries => (true,{ bot with entries, validCards := need })

def botResumeAfterBreak (bot : BlockOffsetTable) (o regionEnd : Nat) : Nat :=
  let first := o/botCard+1
  let last := min (divCeil regionEnd botCard) bot.validCards
  let found := (List.range' first (last-first)).findSome? fun card =>
    let cs := card*botCard
    if cs ≥ regionEnd then some regionEnd
    else
      match bot.anchor card with
      | some a => if a > o ∧ a ≤ cs then some a else none
      | none => none
  found.getD regionEnd

structure WalkLocals where
  cursor : Nat := 0
  ranges : List CardRange
  region : Option Nat := none
  out : List CardRangeHit := []
  gaps : List (Nat × Nat) := []
  deriving DecidableEq, Repr

/-- The inner loop of `bot_walk`: visit what starts below `hi`. Every round moves the cursor, so
`fuel` is what is left of the generation. -/
def walkTo (st : Store) (bot : BlockOffsetTable) (sorted : List FreeBlock)
    (ranges : List CardRange) (overlaps : Bool) (hi : Nat) :
    (fuel : Nat) → WalkLocals → WalkLocals
  | 0, l => l
  | fuel+1, l =>
    if l.cursor < hi ∧ l.cursor < st.len then
      match st.locateCursor sorted l.region l.cursor with
      | .free stop =>
        walkTo st bot sorted ranges overlaps hi fuel { l with cursor := stop, region := none }
      | .allocated _ regionEnd =>
        match st.extentIn l.cursor regionEnd with
        | some (size,isRef) =>
          let (rest,out) := visit st.base l.cursor size isRef l.ranges overlaps l.out
          walkTo st bot sorted ranges overlaps hi fuel
            { l with cursor := l.cursor+size, ranges := rest, region := some regionEnd, out }
        | none =>
          let resume := botResumeAfterBreak bot l.cursor regionEnd
          walkTo st bot sorted ranges overlaps hi fuel
            { l with
              cursor := resume
              region := if resume ≥ regionEnd then none else some regionEnd
              gaps := pushGapWindow l.gaps (gapWindow ranges l.cursor resume) }
    else l

/-- The outer loop of `bot_walk`, over the ranges still to start. -/
def walkRanges (st : Store) (bot : BlockOffsetTable) (sorted : List FreeBlock)
    (ranges : List CardRange) (overlaps : Bool) : List CardRange → WalkLocals → WalkLocals
  | [], l => l
  | (lo,hi) :: todo, l =>
    if hi ≤ l.cursor then walkRanges st bot sorted ranges overlaps todo l
    else
      let w := st.botWalkStart bot sorted lo
      let l := if lo > l.cursor ∧ w > l.cursor then { l with cursor := w, region := none } else l
      walkRanges st bot sorted ranges overlaps todo
        (walkTo st bot sorted ranges overlaps hi (st.len-l.cursor) l)

/-- `bot_walk` at the free-list stamp `seq`: hits and gap windows, or `none` for the linear walk,
and the table afterwards. -/
def botWalk (st : Store) (bot : BlockOffsetTable) (sorted : List FreeBlock) (seq : Nat)
    (ranges : List CardRange) (overlaps : Bool) :
    Option (List CardRangeHit × List (Nat × Nat)) × BlockOffsetTable :=
  let bot := if bot.freeSeqSeen ≠ some seq then
      { bot with freeDisjoint := freeListIsDisjoint sorted st.len, freeSeqSeen := some seq }
    else bot
  if !bot.freeDisjoint || st.len = 0 then (none,bot)
  else
    let lastLo := min ((ranges.getLast?.map Prod.fst).getD 0) (st.len-1)
    match st.botExtend bot sorted (lastLo/botCard+1) with
    | (false,bot) => (none,bot)
    | (true,bot) =>
      let l := st.walkRanges bot sorted ranges overlaps ranges { ranges }
      (some (l.out,l.gaps),bot)

structure TouchLocals where
  ranges : List CardRange
  out : List CardRangeHit := []
  gaps : List (Nat × Nat) := []
  deriving DecidableEq, Repr

def touchRegion (st : Store) (ranges : List CardRange) (lastHi stop : Nat) :
    (fuel : Nat) → (o : Nat) → TouchLocals → Bool × TouchLocals
  | 0, _, l => (true,l)
  | fuel+1, o, l =>
    if o < stop then
      if o ≥ lastHi then (false,l)
      else
        match st.extentIn o stop with
        | none => (true,{ l with gaps := pushGapWindow l.gaps (gapWindow ranges o stop) })
        | some (size,isRef) =>
          let (rest,out) := visit st.base o size isRef l.ranges true l.out
          let l := { l with ranges := rest, out }
          if rest.isEmpty then (false,l) else touchRegion st ranges lastHi stop fuel (o+size) l
    else (true,l)

def linearTouchFrom (st : Store) (ranges : List CardRange) (lastHi : Nat) :
    List FreeBlock → (cursor : Nat) → TouchLocals → TouchLocals
  | [], cursor, l =>
    if cursor < st.len then (st.touchRegion ranges lastHi st.len (st.len-cursor) cursor l).2 else l
  | block :: rest, cursor, l =>
    let (more,l) := if block.offset > cursor then
        st.touchRegion ranges lastHi block.offset (block.offset-cursor) cursor l
      else (true,l)
    if more then
      let cursor := max cursor block.stop
      if cursor ≥ lastHi then l else linearTouchFrom st ranges lastHi rest cursor l
    else l

def lastHi (ranges : List CardRange) : Nat := (ranges.getLast?.map Prod.snd).getD 0

def linearTouchWalk (st : Store) (sorted : List FreeBlock) (ranges : List CardRange) :
    List CardRangeHit × List (Nat × Nat) :=
  let l := st.linearTouchFrom ranges (lastHi ranges) sorted 0 { ranges }
  (l.out,l.gaps)

def scanRegionFiltered (st : Store) (stop : Nat) :
    (fuel : Nat) → (offset : Nat) → List CardRange → List (Nat × Nat) →
      Option Nat × List (Nat × Nat)
  | 0, _, _, objects => (none,objects)
  | fuel+1, offset, ranges, objects =>
    if offset < stop then
      match st.layouts.scanStep (st.headerAt offset) (stop-offset) with
      | .filler size => scanRegionFiltered st stop fuel (offset+size) ranges objects
      | .stop => (some offset,objects)
      | .object size =>
        match ranges.dropWhile fun r => r.2 ≤ offset with
        | [] => (none,objects)
        | (start,hi) :: rest =>
          let objects := if offset ≥ start then objects ++ [(st.base+offset,size)] else objects
          scanRegionFiltered st stop fuel (offset+size) ((start,hi) :: rest) objects
    else (none,objects)

def walkObjectsFrom (st : Store) (ranges : List CardRange) (lastDirtyEnd : Nat) :
    List FreeBlock → (cursor : Nat) → List (Nat × Nat) → List (Nat × Nat) →
      List (Nat × Nat) × List (Nat × Nat)
  | [], cursor, objects, gaps =>
    if cursor < st.len then
      let (broke,objects) := st.scanRegionFiltered st.len (st.len-cursor) cursor
        (ranges.dropWhile fun r => r.2 ≤ cursor) objects
      (objects,pushGapWindow gaps (broke.bind fun o => gapWindow ranges o st.len))
    else (objects,gaps)
  | block :: rest, cursor, objects, gaps =>
    let (broke,objects) := if block.offset > cursor then
        st.scanRegionFiltered block.offset (block.offset-cursor) cursor
          (ranges.dropWhile fun r => r.2 ≤ cursor) objects
      else (none,objects)
    let gaps := pushGapWindow gaps (broke.bind fun o => gapWindow ranges o block.offset)
    let cursor := max cursor block.stop
    if cursor ≥ lastDirtyEnd then (objects,gaps)
    else walkObjectsFrom st ranges lastDirtyEnd rest cursor objects gaps

def walkObjectsInCardRangesWithGaps (st : Store) (sorted : List FreeBlock)
    (ranges : List CardRange) : List (Nat × Nat) × List (Nat × Nat) :=
  if ranges.isEmpty then ([],[])
  else st.walkObjectsFrom ranges (lastHi ranges) sorted 0 [] []

def linearWalk (st : Store) (sorted : List FreeBlock) (ranges : List CardRange) (overlaps : Bool) :
    List CardRangeHit × List (Nat × Nat) :=
  if !overlaps then
    let (objects,gaps) := st.walkObjectsInCardRangesWithGaps sorted ranges
    (objects.map fun o => ⟨o.1,o.2,none⟩,gaps)
  else st.linearTouchWalk sorted ranges

def walkCardRangesWithGaps (st : Store) (bot : BlockOffsetTable) (sorted : List FreeBlock)
    (seq : Nat) (ranges : List CardRange) (overlaps : Bool) :
    (List CardRangeHit × List (Nat × Nat)) × BlockOffsetTable :=
  if ranges.isEmpty then (([],[]),bot)
  else if bot.enabled then
    match st.botWalk bot sorted seq ranges overlaps with
    | (some answer,bot) => (answer,bot)
    | (none,bot) => (st.linearWalk sorted ranges overlaps,bot)
  else (st.linearWalk sorted ranges overlaps,bot)

end Store
end CratonVM.Gc
