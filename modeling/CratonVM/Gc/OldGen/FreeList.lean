import CratonVM.Lib.Spans

/-!
The segregated free list of `gc/src/old_gen.rs`: hand-out, free, tail return and deferred
coalescing, with the caches each of them keeps. Offsets are relative to the store's base
address; the bytes of the store play no part here.
-/
namespace CratonVM.Gc
open Spans

/-- A contiguous free block of the old generation. -/
abbrev FreeBlock := Span

def headerSize : Nat := 16
def subClassBits : Nat := 2
def subClasses : Nat := 1 <<< subClassBits
def numBuckets : Nat := 28*subClasses
def minBucketShift : Nat := 3
def nonfitProbeLimit : Nat := 64
def bestFitProbeLimit : Nat := 64

/-- One size class: its blocks and an upper bound on their sizes. -/
structure Bucket where
  blocks : List FreeBlock := []
  sizeBound : Nat := 0
  deriving DecidableEq, Repr

def Bucket.push (bucket : Bucket) (block : FreeBlock) : Bucket :=
  ⟨bucket.blocks ++ [block],max bucket.sizeBound block.size⟩

def swapRemove (blocks : List FreeBlock) (i : Nat) : List FreeBlock :=
  match blocks.getLast? with
  | none => []
  | some last => (blocks.set i last).dropLast

def Bucket.swapRemove (bucket : Bucket) (i : Nat) : Bucket :=
  { bucket with blocks := Gc.swapRemove bucket.blocks i }

def Bucket.tighten (bucket : Bucket) (exactMax : Nat) : Bucket :=
  { bucket with sizeBound := exactMax }

def bucketFor (size : Nat) : Nat :=
  if size ≤ 1 <<< minBucketShift then 0
  else
    let lg := size.log2
    let sub := (size >>> (lg-subClassBits)) &&& (subClasses-1)
    min ((lg-minBucketShift)*subClasses+sub) (numBuckets-1)

def minSatisfyingBucket (size : Nat) : Nat := bucketFor size

def allocStartBucket (size align : Nat) (exact : Bool) : Nat :=
  if exact then minSatisfyingBucket size else minSatisfyingBucket (size+(align-1))

/-- The fields of the generation that the allocator reads and writes. `base` is the address of
the store, `reserved` says that it is a reserving store, `noCoalesce` is the flag that turns
merging off. -/
structure OldGen where
  base : Nat
  capacity : Nat
  reserved : Bool
  exactStartClass : Bool
  noCoalesce : Bool
  buckets : List Bucket
  usedBytes : Nat
  sortedFreeCache : List FreeBlock
  sortedFreeDirty : Bool
  freeListMaximal : Bool
  deriving DecidableEq, Repr

def alignDown (v align : Nat) : Nat := v/align*align

/-- The extent a request reserves, or `none` when the rounding overflows a `usize`. -/
def reservedSize (size align : Nat) : Option Nat :=
  let size := max size (max headerSize 8)
  if size+(align-1) < 2^64 then some (alignDown (size+(align-1)) align) else none

/-- Bytes from the start of a block to the first aligned address in it. -/
def padding (base align : Nat) (block : FreeBlock) : Nat :=
  alignDown (base+block.offset+(align-1)) align-(base+block.offset)

inductive BucketScan where
  | fit (i : Nat)
  | noFit (largest : Nat)
  | deferred (resume largest : Nat)
  deriving DecidableEq, Repr

structure ScanLocals where
  best : Option (Nat × Nat) := none
  fitsSeen : Nat := 0
  nonfitHere : Nat := 0
  largestSeen : Nat

def ScanLocals.result (l : ScanLocals) : BucketScan :=
  match l.best with
  | some (i,_) => .fit i
  | none => .noFit l.largestSeen

def bestFitLoop (base size align : Nat) (mayDefer : Bool) :
    List FreeBlock → Nat → ScanLocals → BucketScan
  | [], _, l => l.result
  | block :: rest, i, l =>
    let l := { l with largestSeen := max l.largestSeen block.size }
    let totalNeeded := padding base align block+size
    if totalNeeded ≤ block.size then
      let waste := block.size-totalNeeded
      let better := match l.best with
        | none => true
        | some (_,bestWaste) => waste < bestWaste
      let l := if better then { l with best := some (i,waste) } else l
      if better && waste == 0 then l.result
      else
        let l := { l with fitsSeen := l.fitsSeen+1 }
        if l.fitsSeen ≥ bestFitProbeLimit then l.result
        else bestFitLoop base size align mayDefer rest (i+1) l
    else
      let l := { l with nonfitHere := l.nonfitHere+1 }
      if mayDefer && l.best.isNone && l.nonfitHere ≥ nonfitProbeLimit && !rest.isEmpty then
        .deferred (i+1) l.largestSeen
      else bestFitLoop base size align mayDefer rest (i+1) l

def bestFitInBucket (base : Nat) (bucket : Bucket) (start largestBefore size align : Nat)
    (mayDefer : Bool) : BucketScan :=
  bestFitLoop base size align mayDefer (bucket.blocks.drop start) start
    { largestSeen := largestBefore }

def bucketAt (buckets : List Bucket) (idx : Nat) : Bucket := buckets.getD idx {}

/-- The bucket walk of `alloc_from_buckets_scan`, from bucket `idx` with `n` buckets to go, and
then the one class whose scan was deferred. Only bounds of buckets change. -/
def searchBuckets (base size align : Nat) :
    (n idx : Nat) → Option (Nat × Nat × Nat) → (deferralUsed : Bool) → List Bucket →
      Option (Nat × Nat) × List Bucket
  | 0, _, none, _, buckets => (none,buckets)
  | 0, _, some (idx,resume,largest), _, buckets =>
    match bestFitInBucket base (bucketAt buckets idx) resume largest size align false with
    | .fit i => (some (idx,i),buckets)
    | .noFit largest => (none,buckets.modify idx fun b => b.tighten largest)
    | .deferred _ _ => (none,buckets)
  | n+1, idx, deferred, deferralUsed, buckets =>
    if (bucketAt buckets idx).sizeBound < size then
      searchBuckets base size align n (idx+1) deferred deferralUsed buckets
    else
      match bestFitInBucket base (bucketAt buckets idx) 0 0 size align (!deferralUsed) with
      | .fit i => (some (idx,i),buckets)
      | .noFit largest =>
        searchBuckets base size align n (idx+1) deferred deferralUsed
          (buckets.modify idx fun b => b.tighten largest)
      | .deferred resume largest =>
        searchBuckets base size align n (idx+1) (some (idx,resume,largest)) true buckets

/-- The answers of the operating system to the commits of one call: attempt, block offset and
end of the extent that must be readable. -/
abbrev Commit := Nat → Nat → Nat → Bool

namespace OldGen
def blocks (g : OldGen) : List FreeBlock := g.buckets.flatMap Bucket.blocks

def invalidateSortedFree (g : OldGen) : OldGen := { g with sortedFreeDirty := true }

def pushBlock (g : OldGen) (block : FreeBlock) : OldGen :=
  { g with buckets := g.buckets.modify (bucketFor block.size) fun b => b.push block }

def sortedBlocks (g : OldGen) : List FreeBlock :=
  g.blocks.mergeSort fun a b => a.offset ≤ b.offset

/-- Rebuild the cached view when a mutation made it stale. -/
def withSortedFreeBlocks (g : OldGen) : OldGen :=
  if g.sortedFreeDirty then { g with sortedFreeCache := g.sortedBlocks, sortedFreeDirty := false }
  else g

/-- Carve `[offset, offset + size)` out of block `i` of bucket `idx` and push back what is left
of the block on either side. -/
def handOut (g : OldGen) (idx i offset size : Nat) : OldGen :=
  let block := (bucketAt g.buckets idx).blocks.getD i ⟨0,0⟩
  let g := { g with buckets := g.buckets.modify idx fun b => b.swapRemove i }
  let g := g.invalidateSortedFree
  let g := if block.offset < offset then g.pushBlock ⟨block.offset,offset-block.offset⟩ else g
  let g := if offset+size < block.stop then g.pushBlock ⟨offset+size,block.stop-(offset+size)⟩ else g
  { g with usedBytes := g.usedBytes+size }

/-- `alloc_from_buckets`: the offset of the extent and the generation afterwards. -/
def allocFromBuckets (g : OldGen) (size align : Nat) (commit : Nat → Nat → Bool) :
    Option Nat × OldGen :=
  match reservedSize size align with
  | none => (none,g)
  | some size =>
    let start := allocStartBucket size align g.exactStartClass
    let (found,buckets) := searchBuckets g.base size align (numBuckets-start) start none false
      g.buckets
    let g := { g with buckets := buckets }
    match found with
    | none => (none,g)
    | some (idx,i) =>
      let block := (bucketAt g.buckets idx).blocks.getD i ⟨0,0⟩
      let offset := block.offset+padding g.base align block
      if commit block.offset (offset+size) then (some offset,g.handOut idx i offset size)
      else (none,g)

def overlaps : List FreeBlock → Nat
  | a :: b :: rest => (if a.stop > b.offset then 1 else 0)+overlaps (b :: rest)
  | _ => 0

def coalesceFreeBlocks (g : OldGen) : Nat × OldGen :=
  if g.freeListMaximal then (0,g)
  else if g.noCoalesce then (0,g)
  else
    let before := g.blocks.length
    if before < 2 then (0,{ g with freeListMaximal := true })
    else
      let sorted := g.sortedBlocks
      let merged := mergeTouching sorted
      let g := { g with freeListMaximal := true }
      if merged.length = before then (0,g)
      else
        let g := { g with buckets := g.buckets.map fun _ => {} }
        let g := merged.foldl pushBlock g
        let g := g.invalidateSortedFree
        let g := if overlaps sorted = 0 then
          { g with sortedFreeCache := merged, sortedFreeDirty := false } else g
        (before-merged.length,g)

def allocImpl (g : OldGen) (size align : Nat) (commit : Commit) : Option Nat × OldGen :=
  match g.allocFromBuckets size align (commit 0) with
  | (some offset,g) => (some offset,g)
  | (none,g) =>
    let (eliminated,g) := g.coalesceFreeBlocks
    if eliminated > 0 then g.allocFromBuckets size align (commit 1) else (none,g)

def alloc (g : OldGen) (size align : Nat) (commit : Commit) : Option Nat × OldGen :=
  g.allocImpl size align commit

/-- As `alloc`, without the zeroing pass. -/
def allocUnzeroed (g : OldGen) (size align : Nat) (commit : Commit) : Option Nat × OldGen :=
  g.allocImpl size align commit

/-- As `allocUnzeroed`; the trigger statistics it restores are not modelled. -/
def allocUnzeroedBuffer (g : OldGen) (size align : Nat) (commit : Commit) : Option Nat × OldGen :=
  g.allocImpl size align commit

/-- The candidate that `b`, block `i` of bucket `idx`, offers: the carve at its end. -/
def topCarve (base size align : Nat) (b : FreeBlock) : Option Nat :=
  if b.size < size then none
  else
    let blockAddr := base+b.offset
    let carveAddr := alignDown (blockAddr+b.size-size) align
    if carveAddr < blockAddr then none else some (carveAddr-base)

/-- The inner loop of `alloc_from_top_scan` over the blocks of one bucket. -/
def topInBucket (base size align idx : Nat) :
    List FreeBlock → Nat → Option (Nat × Nat × Nat) → Option (Nat × Nat × Nat)
  | [], _, best => best
  | b :: rest, i, best =>
    match topCarve base size align b with
    | none => topInBucket base size align idx rest (i+1) best
    | some off =>
      let higher := match best with
        | none => true
        | some (_,_,o) => off > o
      topInBucket base size align idx rest (i+1) (if higher then some (idx,i,off) else best)

def topSearch (base size align : Nat) (buckets : List Bucket) :
    (n idx : Nat) → Option (Nat × Nat × Nat) → Option (Nat × Nat × Nat)
  | 0, _, best => best
  | n+1, idx, best =>
    let bucket := bucketAt buckets idx
    if bucket.sizeBound < size then topSearch base size align buckets n (idx+1) best
    else topSearch base size align buckets n (idx+1)
      (topInBucket base size align idx bucket.blocks 0 best)

def allocFromTopScan (g : OldGen) (size align : Nat) (commit : Nat → Nat → Bool) :
    Option Nat × OldGen :=
  match reservedSize size align with
  | none => (none,g)
  | some size =>
    let start := minSatisfyingBucket size
    match topSearch g.base size align g.buckets (numBuckets-start) start none with
    | none => (none,g)
    | some (idx,i,off) =>
      if commit off (off+size) then (some off,g.handOut idx i off size) else (none,g)

/-- `commit 2` answers the commit of the top carve, `commit 0` and `commit 1` those of the
ordinary allocation it falls back to. -/
def allocFromTop (g : OldGen) (size align : Nat) (commit : Commit) : Option Nat × OldGen :=
  if g.reserved then
    match g.allocFromTopScan size align (commit 2) with
    | (some off,g) => (some off,g)
    | (none,g) => g.allocImpl size align commit
  else g.allocImpl size align commit

/-- The rounding that `free` applies to the size it is given. -/
def freedSize (size : Nat) : Nat := alignDown (max size (max headerSize 8)+7) 8

def free (g : OldGen) (addr size : Nat) : OldGen :=
  let size := freedSize size
  if addr%8 ≠ 0 then g
  else if addr < g.base ∨ addr+size > g.base+g.capacity then g
  else
    let offset := addr-g.base
    let g := { g with usedBytes := g.usedBytes-size }
    let g := g.pushBlock ⟨offset,size⟩
    { g with freeListMaximal := false }.invalidateSortedFree

/-- A tail of eight bytes is stamped in the store and stays charged. -/
def releaseUnusedTail (g : OldGen) (addr size : Nat) : OldGen :=
  if addr%8 ≠ 0 ∨ size%8 ≠ 0 then g
  else if size = 0 ∨ addr < g.base ∨ addr+size > g.base+g.capacity then g
  else if size < headerSize then g
  else
    let offset := addr-g.base
    let g := { g with usedBytes := g.usedBytes-size }
    let g := g.pushBlock ⟨offset,size⟩
    { g with freeListMaximal := false }.invalidateSortedFree

def mergeRuns : List FreeBlock → List FreeBlock → List FreeBlock
  | old, [] => old
  | old, run :: runs =>
    (old.takeWhile fun b => b.offset ≤ run.offset) ++
      run :: mergeRuns (old.dropWhile fun b => b.offset ≤ run.offset) runs

def freeRunsAscending (g : OldGen) (runs : List (Nat × Nat)) : OldGen :=
  if runs.isEmpty then g
  else
    let g := g.withSortedFreeBlocks
    let previous := g.sortedFreeCache
    let g := { g with sortedFreeCache := [] }
    let g := runs.foldl (fun g run => g.free run.1 run.2) g
    let merged := mergeRuns previous (runs.map fun run => ⟨run.1-g.base,run.2⟩)
    { g with sortedFreeCache := merged, sortedFreeDirty := false }

end OldGen

/-- A new generation: the whole store is one free block. -/
def newOldGen (base capacity : Nat) (reserved exactStartClass noCoalesce : Bool) : OldGen :=
  let empty : OldGen :=
    { base, capacity, reserved, exactStartClass, noCoalesce
      buckets := List.replicate numBuckets {}
      usedBytes := 0
      sortedFreeCache := []
      sortedFreeDirty := true
      freeListMaximal := true }
  empty.pushBlock ⟨0,capacity⟩

end CratonVM.Gc
