import CratonVM.Lib.BitRows

/-!
The heap bitmap of `gc/src/heap_bitmap.rs`: one bit for each 8 bytes of the covered span, a summary
with one bit for each block of 64 words, and a side set for the addresses that the grid cannot
encode. A counter that only sizes a buffer and the checks of debug builds are left out.
-/
namespace CratonVM.Gc
open BitRows

structure HeapBitmap where
  base : Nat
  span : Nat
  nwords : Nat
  words : Row
  blocks : Row
  /-- The members of the hash set, each once. -/
  overflow : List Nat
  overflowLen : Nat
  deriving DecidableEq, Repr

namespace HeapBitmap
def usizeMax : Nat := 2^64-1

def saturatingAdd (a b : Nat) : Nat := min (a+b) usizeMax

def divCeil (a b : Nat) : Nat := (a+b-1)/b

def clamp (x lo hi : Nat) : Nat := if x < lo then lo else if hi < x then hi else x

def blockWords : Nat := 64

def labelled (base span : Nat) : HeapBitmap :=
  let nwords := divCeil (divCeil span 8) 64
  let nblocks := divCeil nwords blockWords
  { base,span := if nwords = 0 then 0 else span,nwords,words := empty nwords
    blocks := empty (divCeil nblocks 64),overflow := [],overflowLen := 0 }

section
variable (bm : HeapBitmap)

def wordAt (w : Nat) : BitVec 64 := if bm.nwords ≤ w then 0 else word bm.words w

def wordBase (w : Nat) : Nat := bm.base+(w <<< 9)

def noteWord (w : Nat) : HeapBitmap :=
  let blk := w/blockWords
  let slot := blk >>> 6
  let mask := 1#64 <<< (blk%64)
  if word bm.blocks slot &&& mask = 0 then { bm with blocks := bm.blocks.modify slot (· ||| mask) } else bm

def noteBlocks (lo hi : Nat) : HeapBitmap :=
  (List.range' lo (hi+1-lo)).foldl (fun bm blk => bm.noteWord (blk*blockWords)) bm

def blockMayHoldBits (blk : Nat) : Bool :=
  match bm.blocks[blk >>> 6]? with
  | none => false
  | some s => s &&& (1#64 <<< (blk%64)) ≠ 0

/-- The blocks of summary word `s` whose words are all zero, among those it notes. -/
def emptyBlocks (s : Nat) (slot : BitVec 64) : BitVec 64 :=
  (drain 64 slot).foldl (fun clear b =>
    let w0 := (s*64+b)*blockWords
    if bm.nwords ≤ w0 then clear
    else
      let w1 := min (w0+blockWords) bm.nwords
      if (List.range' w0 (w1-w0)).all fun w => word bm.words w = 0#64 then clear ||| (1#64 <<< b)
      else clear) 0

def forgetEmptyBlocks : HeapBitmap × Nat :=
  ({ bm with blocks := bm.blocks.mapIdx fun s slot => slot &&& ~~~bm.emptyBlocks s slot },
    (bm.blocks.mapIdx fun s slot => ones (bm.emptyBlocks s slot)).sum)

def runMask (n lowBit : Nat) : BitVec 64 :=
  if n = 64 then BitVec.allOnes 64 else ((1#64 <<< n)-1#64) <<< lowBit

def clearBlocks (blkHi : Nat) : (turns : Nat) → (blk : Nat) → Row × Nat → Row × Nat
  | 0,_,out => out
  | turns+1,blk,(blocks,forgotten) =>
    if blk < blkHi then
      let s := blk >>> 6
      let lowBit := blk%64
      let n := min (64-lowBit) (blkHi-blk)
      let mask := runMask n lowBit
      let prev := word blocks s
      let out := if prev &&& mask = 0 then (blocks,forgotten)
        else (blocks.modify s (· &&& ~~~mask),forgotten+ones (prev &&& mask))
      clearBlocks blkHi turns (blk+n) out
    else (blocks,forgotten)

def wordRange (lo hi : Nat) : Nat × Nat :=
  let stop := saturatingAdd bm.base bm.span
  let lo := clamp lo bm.base stop
  let hi := clamp hi lo stop
  let first := (lo-bm.base) >>> 9
  let last := ((hi-bm.base)+511) >>> 9
  (min first bm.nwords,min last bm.nwords)

/-- The blocks that lie wholly inside a word range. -/
def coveredBlocks (r : Nat × Nat) : Nat × Nat :=
  (divCeil r.1 blockWords,if r.2 = bm.nwords then divCeil r.2 blockWords else r.2/blockWords)

def forgetBlocksWithin : Option (List (Nat × Nat)) → HeapBitmap × Nat
  | none =>
    let n := divCeil bm.nwords blockWords
    let (blocks,forgotten) := clearBlocks n n 0 (bm.blocks,0)
    ({ bm with blocks },forgotten)
  | some ranges =>
    let (blocks,forgotten) := ranges.foldl (fun out r =>
      let (blkLo,blkHi) := bm.coveredBlocks (bm.wordRange r.1 r.2)
      clearBlocks blkHi (blkHi-blkLo) blkLo out) (bm.blocks,0)
    ({ bm with blocks },forgotten)

def highestNotedLoop (blocks : Row) : (s : Nat) → BitVec 64 → Option Nat
  | s,bits =>
    if bits ≠ 0#64 then some (s*64+highest bits)
    else match s with
      | 0 => none
      | s+1 => highestNotedLoop blocks s (word blocks s)

def highestNotedBlockAtOrBelow (blk : Nat) : Option Nat :=
  let s := blk >>> 6
  match bm.blocks[s]? with
  | none => none
  | some slot => highestNotedLoop bm.blocks s (slot &&& (BitVec.allOnes 64 >>> (63-blk%64)))

def locate (addr : Nat) : Option (Nat × BitVec 64) :=
  if addr < bm.base then none
  else
    let off := addr-bm.base
    if bm.span ≤ off ∨ off%8 ≠ 0 then none
    else
      let bit := off >>> 3
      some (bit >>> 6,1#64 <<< (bit%64))

def orWord (w : Nat) (mask : BitVec 64) : HeapBitmap :=
  { bm with words := bm.words.modify w (· ||| mask) }

def spill (addr : Nat) : HeapBitmap :=
  if addr ∈ bm.overflow then bm
  else { bm with overflow := addr::bm.overflow,overflowLen := bm.overflow.length+1 }

def insert (addr : Nat) : HeapBitmap :=
  match bm.locate addr with
  | some (w,mask) => (bm.noteWord w).orWord w mask
  | none => bm.spill addr

def contains (addr : Nat) : Bool :=
  match bm.locate addr with
  | some (w,mask) => word bm.words w &&& mask ≠ 0
  | none => bm.overflowLen ≠ 0 && decide (addr ∈ bm.overflow)

def claim (addr : Nat) : HeapBitmap × Bool :=
  match bm.locate addr with
  | some (w,mask) =>
    if word bm.words w &&& mask ≠ 0 then (bm,false)
    else ((bm.noteWord w).orWord w mask,word bm.words w &&& mask = 0)
  | none => (bm.spill addr,decide (addr ∉ bm.overflow))

def removeSpilled (addr : Nat) : HeapBitmap :=
  if bm.overflowLen ≠ 0 ∧ addr ∈ bm.overflow then
    { bm with overflow := bm.overflow.erase addr,overflowLen := (bm.overflow.erase addr).length }
  else bm

def remove (addr : Nat) : HeapBitmap :=
  match bm.locate addr with
  | some (w,mask) =>
    let prev := word bm.words w
    let bm := { bm with words := bm.words.modify w (· &&& ~~~mask) }
    if prev &&& mask ≠ 0 then bm else bm.removeSpilled addr
  | none => bm.removeSpilled addr

/-- The slots that both range setters write, from the first to one past the last. -/
def slotBounds (lo hi : Nat) : Option (Nat × Nat) :=
  if bm.nwords = 0 ∨ hi ≤ lo then none
  else if lo < bm.base ∨ bm.span ≤ lo-bm.base then none
  else
    let loOff := lo-bm.base
    let hiOff := min (hi-bm.base) bm.span
    if hiOff ≤ loOff then none
    else
      let first := divCeil loOff 8
      let last := divCeil hiOff 8
      if last ≤ first then none else some (first,last)

def noteSlots (first last : Nat) : HeapBitmap :=
  let w1 := last >>> 6
  let wLast := min (if last%64 ≠ 0 then w1 else w1-1) (bm.nwords-1)
  bm.noteBlocks ((first >>> 6)/blockWords) (wLast/blockWords)

def setRange (lo hi : Nat) : HeapBitmap :=
  match bm.slotBounds lo hi with
  | none => bm
  | some (first,last) =>
    let (w0,b0) := (first >>> 6,first%64)
    let (w1,b1) := (last >>> 6,last%64)
    let bm := bm.noteSlots first last
    if w0 = w1 then bm.orWord w0 ((BitVec.allOnes 64 <<< b0) &&& ((1#64 <<< b1)-1#64))
    else
      let bm := bm.orWord w0 (BitVec.allOnes 64 <<< b0)
      let bm := { bm with words := overWords (fun _ v => v ||| BitVec.allOnes 64) (w0+1) (min w1 bm.nwords) bm.words }
      if b1 ≠ 0 ∧ w1 < bm.nwords then bm.orWord w1 ((1#64 <<< b1)-1#64) else bm

def storeWordSingleWriter (w : Nat) (value : BitVec 64) : HeapBitmap :=
  if bm.nwords ≤ w then bm else { bm with words := bm.words.modify w fun _ => value }

/-- The load-or-store at an edge word. -/
def orWordPlain (w : Nat) (mask : BitVec 64) : HeapBitmap :=
  let v := bm.wordAt w
  if v ||| mask ≠ v then bm.storeWordSingleWriter w (v ||| mask) else bm

def setRangeSingleWriter (lo hi : Nat) : HeapBitmap :=
  match bm.slotBounds lo hi with
  | none => bm
  | some (first,last) =>
    let (w0,b0) := (first >>> 6,first%64)
    let (w1,b1) := (last >>> 6,last%64)
    let bm := bm.noteSlots first last
    if w0 = w1 then bm.orWordPlain w0 ((BitVec.allOnes 64 <<< b0) &&& ((1#64 <<< b1)-1#64))
    else
      let bm := bm.orWordPlain w0 (BitVec.allOnes 64 <<< b0)
      let bm := (List.range' (w0+1) (min w1 bm.nwords-(w0+1))).foldl
        (fun bm w => bm.storeWordSingleWriter w (BitVec.allOnes 64)) bm
      if b1 ≠ 0 ∧ w1 < bm.nwords then bm.orWordPlain w1 ((1#64 <<< b1)-1#64) else bm

def retainMarked (marks : HeapBitmap) : HeapBitmap :=
  { bm with words := overWords (fun w v =>
      let keep := marks.wordAt w
      if v &&& ~~~keep = 0 then v else v &&& keep) 0 bm.nwords bm.words }

/-- Run a word loop over each of the ranges. -/
def overRanges (f : Nat → BitVec 64 → BitVec 64) (ranges : List (Nat × Nat)) : HeapBitmap :=
  ranges.foldl (fun bm r =>
    let (first,last) := bm.wordRange r.1 r.2
    { bm with words := overWords f first last bm.words }) bm

def retainMarkedWithin (marks : HeapBitmap) (ranges : List (Nat × Nat)) : HeapBitmap :=
  bm.overRanges (fun w v =>
    let keep := marks.wordAt w
    if v &&& ~~~keep = 0 then v else v &&& keep) ranges

def retainMarkedWithinPlain (marks : HeapBitmap) (ranges : List (Nat × Nat)) : HeapBitmap :=
  bm.overRanges (fun w v =>
    if v = 0 then v
    else
      let keep := marks.wordAt w
      if v &&& ~~~keep ≠ 0 then v &&& keep else v) ranges

def clearSpilled : HeapBitmap :=
  if bm.overflowLen ≠ 0 then { bm with overflow := [],overflowLen := 0 } else bm

def clearSpilledExclusive : HeapBitmap := { bm with overflow := [],overflowLen := 0 }

def clearWithin (ranges : List (Nat × Nat)) : HeapBitmap := (bm.overRanges (fun _ _ => 0) ranges).clearSpilled

/-- The words that were already zero are left alone; the second part counts them. -/
def clearWithinSparse (ranges : List (Nat × Nat)) : HeapBitmap × Nat :=
  let (bm,skipped) := ranges.foldl (fun (out : HeapBitmap × Nat) r =>
    let (first,last) := out.1.wordRange r.1 r.2
    ({ out.1 with words := overWords (fun _ v => if v = 0 then v else 0) first last out.1.words },
      out.2+(List.range' first (last-first)).countP fun w => word out.1.words w = 0#64)) (bm,0)
  (bm.clearSpilled,skipped)

def clearWithinExclusive (ranges : List (Nat × Nat)) : HeapBitmap :=
  (bm.overRanges (fun _ _ => 0) ranges).clearSpilledExclusive

def clearAll : HeapBitmap := { bm with words := overWords (fun _ _ => 0) 0 bm.nwords bm.words }.clearSpilled

def clearAllExclusive : HeapBitmap :=
  { bm with words := overWords (fun _ _ => 0) 0 bm.nwords bm.words }.clearSpilledExclusive

def hasSpill : Bool := bm.overflowLen ≠ 0

/-- The addresses of the set bits of word `w`, ascending. -/
def basesOfWord (w : Nat) (v : BitVec 64) : List Nat := (drain 64 v).map fun b => bm.base+((w*64+b) <<< 3)

def leSpan (a b : Nat × Nat) : Bool := a.1 < b.1 || (a.1 = b.1 && a.2 ≤ b.2)

def mergeSpans : List (Nat × Nat) → List (Nat × Nat) → List (Nat × Nat)
  | merged,[] => merged.reverse
  | [],(a,b)::rest => mergeSpans [(a,b)] rest
  | last::merged,(a,b)::rest =>
    if a ≤ last.2 then mergeSpans ((last.1,max last.2 b)::merged) rest else mergeSpans ((a,b)::last::merged) rest

def mergedWordSpans (ranges : List (Nat × Nat)) : List (Nat × Nat) :=
  mergeSpans [] (((ranges.map fun r => bm.wordRange r.1 r.2).filter fun r => r.1 < r.2).insertionSort
    fun a b => leSpan a b)

def withSpill (out : List Nat) : List Nat :=
  let spill := if bm.hasSpill then bm.overflow else []
  if spill.isEmpty then out else (out++spill).insertionSort (· ≤ ·)

def basesWithin (ranges : List (Nat × Nat)) : List Nat :=
  bm.withSpill ((bm.mergedWordSpans ranges).flatMap fun r =>
    (List.range' r.1 (r.2-r.1)).flatMap fun w => bm.basesOfWord w (word bm.words w))

/-- The walk of `bases_within_summarised` over one span: its nonzero words, block by block. -/
def walkSummarised (last : Nat) : (turns : Nat) → (w : Nat) → List (Nat × BitVec 64)
  | 0,_ => []
  | turns+1,w =>
    if w < last then
      let blk := w/blockWords
      let stop := min ((blk+1)*blockWords) last
      if bm.blockMayHoldBits blk then
        (((List.range' w (stop-w)).map fun w => (w,word bm.words w)).filter fun p => p.2 ≠ 0#64)++
          walkSummarised last turns stop
      else walkSummarised last turns stop
    else []

def basesWithinSummarised (ranges : List (Nat × Nat)) : List Nat :=
  bm.withSpill ((bm.mergedWordSpans ranges).flatMap fun r =>
    (bm.walkSummarised r.2 (r.2-r.1) r.1).flatMap fun p => bm.basesOfWord p.1 p.2)

def basesInSpan (lo hi : Nat) : List Nat :=
  if hi ≤ lo then []
  else
    let (first,last) := bm.wordRange lo hi
    let out := (List.range' first (last-first)).flatMap fun w =>
      (bm.basesOfWord w (word bm.words w)).filter fun a => lo ≤ a ∧ a < hi
    let spill := if bm.hasSpill then bm.overflow.filter fun a => lo ≤ a ∧ a < hi else []
    if spill.isEmpty then out else (out++spill).insertionSort (· ≤ ·)

/-- Four empty words at a time, inside one block. -/
def skipFour (words : Row) (floorWord : Nat) : (turns : Nat) → (w : Nat) → Nat
  | 0,w => w
  | turns+1,w =>
    if floorWord+4 ≤ w ∧ 4 ≤ w%blockWords then
      if word words (w-1) ||| word words (w-2) ||| word words (w-3) ||| word words (w-4) ≠ 0#64 then w
      else skipFour words floorWord turns (w-4)
    else w

def nearestLoop (floor floorWord : Nat) : (turns : Nat) → (w : Nat) → (bits : BitVec 64) → Option Nat
  | 0,_,_ => none
  | turns+1,w,bits =>
    if bits ≠ 0#64 then
      let found := bm.base+((w*64+highest bits) <<< 3)
      if floor ≤ found then some found else none
    else if w ≤ floorWord then none
    else
      let w := skipFour bm.words floorWord w w
      if w ≤ floorWord then none
      else
        let w := w-1
        if w%blockWords = blockWords-1 then
          let blk := w/blockWords
          match bm.highestNotedBlockAtOrBelow blk with
          | none => none
          | some lower =>
            if lower < blk then
              let w := lower*blockWords+(blockWords-1)
              if w < floorWord then none else nearestLoop floor floorWord turns w (word bm.words w)
            else nearestLoop floor floorWord turns w (word bm.words w)
        else nearestLoop floor floorWord turns w (word bm.words w)

def nearestBaseIn (addr floor : Nat) : Option Nat :=
  if bm.span = 0 ∨ bm.nwords = 0 then none
  else if addr < bm.base then none
  else
    let off := min (addr-bm.base) (bm.span-1)
    let bit := off >>> 3
    let w := bit >>> 6
    let floorWord := min (min (floor-bm.base) (bm.span-1) >>> 3 >>> 6) w
    let k := 63-bit%64
    bm.nearestLoop floor floorWord (w+1) w (word bm.words w &&& (BitVec.allOnes 64 >>> k))

def nearestBaseAtOrBelow (addr : Nat) : Option Nat := bm.nearestBaseIn addr 0

end
end HeapBitmap
end CratonVM.Gc
