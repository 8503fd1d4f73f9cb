import CratonVM.Lib.Searching
import CratonVM.Lib.KeyedLists

/-!
The pointer map of `types/src/pointer_map.rs`: sixteen hash tables, and a sorted form of unique pairs
with a bucket index, beside which the tables hold an overlay. A table is an `AList`; its order stands for
the unspecified order of a hash map. Of the hit hook it is kept whether there is one; buffer pools and
capacities are left out.
-/
namespace CratonVM.Types
open BinarySearch List Option Prod

abbrev Shard := AList fun _ : Nat => Nat

abbrev Pairs := List (Nat × Nat)

def SHARDS : Nat := 16

def PAR_INDEX_MIN : Nat := 1 <<< 16

def u32Max : Nat := 2^32-1

def shardOf (key : Nat) : Nat := (key >>> 3) &&& (SHARDS-1)

/-- A runner of jobs: it calls each of them once, in an order of its own. -/
structure Runner where
  order : Nat → List Nat
  once : ∀ jobs, (order jobs).Perm (List.range jobs)

def runJobs {α : Type} (order : List Nat) (job : Nat → List α → List α) (slices : List (List α)) : List (List α) :=
  order.foldl (fun slices j => slices.modify j (job j)) slices

def divCeil (n d : Nat) : Nat := (n+d-1)/d

structure SortedIndex where
  starts : List Nat
  base : Nat
  shift : Nat
  deriving DecidableEq, Repr

namespace SortedIndex
def empty : SortedIndex := ⟨[],0,0⟩

/-- The loop that widens the buckets. -/
def widen (lo hi len : Nat) : (fuel : Nat) → (shift : Nat) → Nat
  | 0,shift => shift
  | fuel+1,shift =>
    if shift < 63 ∧ (hi >>> shift)-(lo >>> shift) ≥ len then widen lo hi len fuel (shift+1) else shift

def bucketOf (base shift key : Nat) : Nat := (key >>> shift)-base

/-- One bucket of the fill: the position moves past the pairs of the buckets before it. -/
def fillBucket (sorted : Pairs) (base shift : Nat) (st : Nat × List Nat) (b : Nat) : Nat × List Nat :=
  let pos := st.1+((sorted.drop st.1).takeWhile fun e => bucketOf base shift e.1 < b).length
  (pos,st.2++[pos % 2^32])

def build (sorted : Pairs) : SortedIndex :=
  match sorted.head?,sorted.getLast? with
  | some (lo,_),some (hi,_) =>
    if sorted.length ≥ u32Max then empty
    else
      let shift := widen lo hi sorted.length 60 3
      let base := lo >>> shift
      let buckets := (hi >>> shift)-base+1
      let starts := ((List.range buckets).foldl (fillBucket sorted base shift) (0,[])).2
      ⟨starts++[sorted.length % 2^32],base,shift⟩
  | _,_ => empty

/-- The loop `while next <= upto` of a job, which writes one value. -/
def fillUpto (first value : Nat) (st : List Nat × Nat) (upto : Nat) : List Nat × Nat :=
  ((List.range' st.2 (upto+1-st.2)).foldl (fun own t => own.set (t-first) (value % 2^32)) st.1,
    max st.2 (upto+1))

def fillJob (sorted : Pairs) (base shift buckets first p0 p1 : Nat) (own : List Nat) : List Nat :=
  let st := (List.range' p0 (p1-p0)).foldl
    (fun st i => fillUpto first i st (bucketOf base shift ((sorted.map Prod.fst).getD i 0))) (own,first)
  if p1 = sorted.length then (fillUpto first sorted.length st buckets).1 else st.1

def buildPar (sorted : Pairs) (jobs : Nat) (run : Runner) : SortedIndex :=
  match sorted.head?,sorted.getLast? with
  | some (lo,_),some (hi,_) =>
    if sorted.length ≥ u32Max then empty
    else
      let n := sorted.length
      let shift := widen lo hi n 60 3
      let base := lo >>> shift
      let buckets := (hi >>> shift)-base+1
      let per := divCeil n (max jobs 1)
      let jobs := divCeil n per
      let first := fun j =>
        if j = 0 then 0
        else if j = jobs then buckets+1
        else bucketOf base shift ((sorted.map Prod.fst).getD (j*per-1) 0)+1
      let slices := (List.range jobs).map fun j => List.replicate (first (j+1)-first j) 0
      let slices := runJobs (run.order jobs)
        (fun j => fillJob sorted base shift buckets (first j) (j*per) (min ((j+1)*per) n)) slices
      ⟨slices.flatten,base,shift⟩
  | _,_ => empty

/-- The positions that can hold `key`. -/
def range (index : SortedIndex) (key len : Nat) : Option (Nat × Nat) :=
  if index.starts.isEmpty then some (0,len)
  else if key >>> index.shift < index.base then none
  else
    let b := (key >>> index.shift)-index.base
    if b+1 ≥ index.starts.length then none
    else some (index.starts.getD b 0,index.starts.getD (b+1) 0)

end SortedIndex

structure PointerMap where
  shards : List Shard
  sorted : Pairs
  index : SortedIndex
  hooked : Bool

namespace PointerMap
def new : PointerMap := ⟨List.replicate SHARDS ∅,[],.empty,false⟩

def fromSortedUnique (pairs : Pairs) : PointerMap := { new with index := .build pairs, sorted := pairs }

def fromSortedUniquePar (pairs : Pairs) (jobs : Nat) (run : Runner) : PointerMap :=
  if pairs.length < PAR_INDEX_MIN ∨ jobs ≤ 1 then fromSortedUnique pairs
  else { new with index := .buildPar pairs jobs run, sorted := pairs }

def sortByKey (pairs : Pairs) : Pairs := pairs.insertionSort fun a b => a.1 ≤ b.1

/-- The pairs after `kept`; each later value of its key is carried into it. -/
def dedupFrom (kept : Nat × Nat) : Pairs → Pairs
  | [] => [kept]
  | later::rest => if later.1 = kept.1 then dedupFrom (kept.1,later.2) rest else kept::dedupFrom later rest

/-- `dedup_by`, which keeps the last value of each key. -/
def dedupLast : Pairs → Pairs
  | [] => []
  | kept::rest => dedupFrom kept rest

def fromPairsSorted (pairs : Pairs) : PointerMap := fromSortedUnique (dedupLast (sortByKey pairs))

section
variable (m : PointerMap)

def shard (key : Nat) : Shard := m.shards.getD (shardOf key) ∅

def isSortedForm : Bool := !m.sorted.isEmpty && m.shards.all fun s => s.entries.isEmpty

def shardInsert (shards : List Shard) (e : Nat × Nat) : List Shard :=
  shards.modify (shardOf e.1) fun s => s.insert e.1 e.2

def thaw : PointerMap :=
  if m.sorted.isEmpty then m
  else { m with shards := m.sorted.foldl shardInsert m.shards, sorted := [], index := .empty }

def sortedPos (key : Nat) : Option Nat :=
  if m.sorted.isEmpty then none
  else do
    let (lo,hi) ← m.index.range key m.sorted.length
    let i ← binarySearch (((m.sorted.drop lo).take (hi-lo)).map Prod.fst) key
    some (lo+i)

def sortedGet (key : Nat) : Option Nat := do
  let i ← m.sortedPos key
  (m.sorted[i]?).map Prod.snd

def get (key : Nat) : Option Nat :=
  match m.sortedGet key with
  | some v => some v
  | none => (m.shard key).lookup key

def getMut (key : Nat) (write : Nat → Nat) : PointerMap :=
  match m.sortedPos key with
  | some i => { m with sorted := m.sorted.modify i fun e => (e.1,write e.2) }
  | none =>
    match (m.shard key).lookup key with
    | some v => { m with shards := shardInsert m.shards (key,write v) }
    | none => m

def insert (key value : Nat) : PointerMap × Option Nat :=
  match m.sortedPos key with
  | some i => ({ m with sorted := m.sorted.modify i fun e => (e.1,value) },(m.sorted[i]?).map Prod.snd)
  | none => ({ m with shards := shardInsert m.shards (key,value) },(m.shard key).lookup key)

/-- `entry` with what the caller makes of the slot. -/
def entry (key : Nat) (alter : Option Nat → Option Nat) : PointerMap :=
  let m := if (m.sortedPos key).isSome then m.thaw else m
  match alter ((m.shard key).lookup key) with
  | some v => { m with shards := shardInsert m.shards (key,v) }
  | none => { m with shards := m.shards.modify (shardOf key) fun s => s.erase key }

def remove (key : Nat) : PointerMap × Option Nat :=
  let m := m.thaw
  ({ m with shards := m.shards.modify (shardOf key) fun s => s.erase key },(m.shard key).lookup key)

def len : Nat := m.sorted.length+(m.shards.map fun s => s.entries.length).sum

def isEmpty : Bool := m.sorted.isEmpty && m.shards.all fun s => s.entries.isEmpty

def clear : PointerMap := { m with sorted := [], index := .empty, shards := m.shards.map fun _ => ∅ }

/-- A pair that `retain` sees; what the closure writes is kept with it. -/
def retainEntry (keep : Nat → Nat → Option Nat) (out : Shard) (e : Sigma fun _ : Nat => Nat) : Shard :=
  match keep e.1 e.2 with
  | some v => out.insert e.1 v
  | none => out

def retainShard (keep : Nat → Nat → Option Nat) (s : Shard) : Shard := s.entries.foldl (retainEntry keep) ∅

def retain (keep : Nat → Nat → Option Nat) : PointerMap :=
  let m := m.thaw
  { m with shards := m.shards.map (retainShard keep) }

def shardPairs (shards : List Shard) : Pairs := shards.flatMap fun s => s.entries.map fun e => (e.1,e.2)

def iter : Pairs := m.sorted++shardPairs m.shards

def keysBelow (sorted : Pairs) (bound : Nat) : Nat := (sorted.takeWhile fun e => e.1 < bound).length

def range (lo hi : Nat) : Pairs :=
  let first := keysBelow m.sorted lo
  let stop := max (keysBelow m.sorted hi) first
  (((m.sorted.drop first).take (stop-first))++shardPairs m.shards).filter fun e => lo ≤ e.1 ∧ e.1 < hi

def setHitHook (hooked : Bool) : PointerMap := { m with hooked := hooked }

end

/-- The loop over both lists, and the rests behind it. -/
def mergeLoop : (turns : Nat) → (first second : Pairs) → Pairs
  | turns+1,a::first,b::second =>
    if a.1 < b.1 then a::mergeLoop turns first (b::second)
    else if b.1 < a.1 then b::mergeLoop turns (a::first) second
    else a::mergeLoop turns first second
  | _,first,second => first++second

def mergePreferringFirst (first second : Pairs) : Pairs := mergeLoop (first.length+second.length) first second

section
variable (m : PointerMap)

def composeAfter (next : PointerMap) : PointerMap :=
  if next.isEmpty then m
  else
    let first := m.iter.map fun e => (e.1,(next.get e.2).getD e.2)
    let first := if m.isSortedForm then first else sortByKey first
    let second := if next.isSortedForm then next.iter else sortByKey next.iter
    (fromSortedUnique (mergePreferringFirst first second)).setHitHook m.hooked

def parComposeFits (next : PointerMap) (jobs : Nat) : Bool :=
  jobs > 1 && m.sorted.length ≥ PAR_INDEX_MIN && m.isSortedForm && next.isSortedForm && !m.hooked && !next.hooked

def chunks {α : Type} (per : Nat) (l : List α) : List (List α) :=
  (List.range (divCeil l.length per)).map fun j => (l.drop (j*per)).take per

def chaseJob (next : PointerMap) (src : Pairs) (lo : Nat) (own : Pairs) : Pairs :=
  ((src.drop lo).take own.length).map fun e => (e.1,(next.sortedGet e.2).getD e.2)

def composeAfterPar (next : PointerMap) (jobs : Nat) (run : Runner) : PointerMap :=
  if next.isEmpty then m
  else if !m.parComposeFits next jobs then m.composeAfter next
  else
    let n := m.sorted.length
    let per := divCeil n jobs
    let jobs := divCeil n per
    let slices := runJobs (run.order jobs) (fun j => chaseJob next m.sorted (j*per))
      (chunks per (List.replicate n (0,0)))
    fromSortedUniquePar (mergePreferringFirst slices.flatten next.sorted) jobs run

def foldSlice (sources : List Pairs) (first : Nat) (slice : List Shard) : List Shard :=
  sources.foldl (fun slice src => src.foldl (fun slice e =>
    let s := shardOf e.1
    if s ≥ first ∧ s < first+slice.length then slice.modify (s-first) fun t => t.insert e.1 e.2 else slice) slice) slice

def extendShards (shards : List Shard) (sources : List Pairs) : List Shard :=
  sources.foldl (fun shards src => src.foldl shardInsert shards) shards

def parExtendPairs (sources : List Pairs) (threads : Nat) (run : Runner) : PointerMap :=
  if (sources.map List.length).sum = 0 then m
  else
    let threads := min (max threads 1) SHARDS
    let m := m.thaw
    if threads ≤ 1 then { m with shards := extendShards m.shards sources }
    else
      let per := divCeil SHARDS threads
      let slices := chunks per m.shards
      { m with shards := (runJobs (run.order slices.length) (fun i => foldSlice sources (i*per)) slices).flatten }

/-- A job that runs at most once: the slices with the mark that they were folded. -/
def foldOnce (sources : List Pairs) (per : Nat) (slices : List (List Shard × Bool)) (i : Nat) :
    List (List Shard × Bool) :=
  slices.modify i fun s => if s.2 then s else (foldSlice sources (i*per) s.1,true)

/-- `par_extend_pairs_with`, whose runner may skip jobs and repeat them. -/
def parExtendPairsWith (sources : List Pairs) (threads : Nat) (calls : Nat → List Nat) : PointerMap :=
  if (sources.map List.length).sum = 0 then m
  else
    let m := m.thaw
    let threads := min (max threads 1) SHARDS
    if threads ≤ 1 then { m with shards := extendShards m.shards sources }
    else
      let per := divCeil SHARDS threads
      let slices := (chunks per m.shards).map fun c => (c,false)
      let slices := (calls slices.length).foldl (foldOnce sources per) slices
      let slices := (List.range slices.length).foldl (foldOnce sources per) slices
      { m with shards := (slices.map Prod.fst).flatten }

end
end PointerMap
end CratonVM.Types
namespace CratonVM.Types.SortedIndex
open SortedPairs
variable {sorted : Pairs} {base shift : Nat}

def before (sorted : Pairs) (base shift b : Nat) : Nat := sorted.countP fun e => bucketOf base shift e.1 < b

theorem before_le_length (b : Nat) : before sorted base shift b ≤ sorted.length := List.countP_le_length

theorem bucketOf_mono {a b : Nat} (h : a ≤ b) : bucketOf base shift a ≤ bucketOf base shift b := by
  unfold bucketOf
  rw [Nat.shiftRight_eq_div_pow,Nat.shiftRight_eq_div_pow]
  exact Nat.sub_le_sub_right (Nat.div_le_div_right h) _

theorem before_mono {b c : Nat} (h : b ≤ c) : before sorted base shift b ≤ before sorted base shift c := by
  refine List.countP_mono_left fun e _ hlt => ?_
  simp only [decide_eq_true_eq] at hlt ⊢
  omega

section
variable (hasc : Ascending sorted)

include hasc

theorem lt_before_iff {b i : Nat} (hi : i < sorted.length) :
    i < before sorted base shift b ↔ bucketOf base shift sorted[i].1 < b := by
  induction sorted generalizing i with
  | nil => cases hi
  | cons e l ih => ?_
  have hl : Ascending l := (List.pairwise_cons.mp hasc).2
  have hhead := (List.pairwise_cons.mp hasc).1
  unfold before
  rw [List.countP_cons]
  by_cases he : bucketOf base shift e.1 < b
  · rw [if_pos (decide_eq_true he)]
    cases i with
    | zero => simp [he]
    | succ i =>
      have := @ih hl i (by simpa using hi)
      unfold before at this
      rw [List.getElem_cons_succ,← this]
      omega
  -- the first pair is in a later bucket, and so are all
  have hzero : l.countP (fun e => decide (bucketOf base shift e.1 < b)) = 0 := by
    rw [List.countP_eq_zero]
    intro a ha hlt
    have hle : bucketOf base shift e.1 ≤ bucketOf base shift a.1 := bucketOf_mono (Nat.le_of_lt (hhead a ha))
    simp only [decide_eq_true_eq] at hlt
    omega
  rw [hzero,if_neg (by simpa using he)]
  have hle : bucketOf base shift e.1 ≤ bucketOf base shift (e::l)[i].1 := by
    cases i with
    | zero => exact le_rfl
    | succ i => exact bucketOf_mono (Nat.le_of_lt (hhead _ (List.getElem_mem _)))
  omega

theorem advance {pos b : Nat} (hpos : pos ≤ before sorted base shift b) :
    pos+((sorted.drop pos).takeWhile fun e => bucketOf base shift e.1 < b).length = before sorted base shift b := by
  induction hk : before sorted base shift b-pos generalizing pos with
  | zero => ?_
  | succ k ih =>
    have hle := @before_le_length sorted base shift b
    have hlt : pos < sorted.length := by omega
    have hin := (lt_before_iff hasc hlt).mp (show pos < before sorted base shift b by omega)
    have hnext := @ih (pos+1) (by omega) (by omega)
    rw [List.drop_eq_getElem_cons hlt,List.takeWhile_cons,if_pos (by simpa using hin),List.length_cons]
    omega
  have heq : pos = before sorted base shift b := by omega
  rcases Nat.lt_or_ge pos sorted.length with hlt|hge
  · have hnot : ¬ bucketOf base shift sorted[pos].1 < b := fun h => by
      have := (lt_before_iff hasc hlt).mpr h
      omega
    rw [List.drop_eq_getElem_cons hlt,List.takeWhile_cons,if_neg (by simpa using hnot),List.length_nil]
    omega
  rw [List.drop_eq_nil_of_le hge]
  exact heq

theorem foldl_fillBucket (buckets : Nat) (hlen : sorted.length < u32Max) :
    (List.range buckets).foldl (fillBucket sorted base shift) (0,[]) =
      (before sorted base shift (buckets-1),(List.range buckets).map (before sorted base shift)) := by
  have hzero : before sorted base shift 0 = 0 := by
    rw [before,List.countP_eq_zero]
    simp
  induction buckets with
  | zero => exact Prod.ext hzero.symm rfl
  | succ b ih => ?_
  rw [List.range_succ,List.foldl_append,ih,List.foldl_cons,List.foldl_nil,fillBucket]
  rw [advance hasc (before_mono (by omega)),List.map_append,List.map_singleton]
  have hle := @before_le_length sorted base shift b
  rw [Nat.mod_eq_of_lt (show before sorted base shift b < 2^32 by rw [u32Max] at hlen; omega)]
  rfl

end

structure Counts (sorted : Pairs) (index : SortedIndex) : Prop where
  starts : ∃ buckets, index.starts = (List.range (buckets+1)).map (before sorted index.base index.shift) ∧
    ∀ e ∈ sorted, index.base ≤ e.1 >>> index.shift ∧ bucketOf index.base index.shift e.1 < buckets

structure Brackets (sorted : Pairs) (index : SortedIndex) : Prop where
  inside : ∀ key lo hi, index.range key sorted.length = some (lo,hi) → lo ≤ hi ∧ hi ≤ sorted.length
  finds : ∀ i (hi : i < sorted.length), ∃ lo hi, index.range sorted[i].1 sorted.length = some (lo,hi) ∧ lo ≤ i ∧ i < hi

theorem brackets_empty : Brackets sorted empty := by
  refine ⟨fun key lo hi h => ?_,fun i hi => ⟨0,sorted.length,rfl,Nat.zero_le i,hi⟩⟩
  obtain ⟨rfl,rfl⟩ := Prod.mk.inj (Option.some.inj h)
  exact ⟨Nat.zero_le _,le_rfl⟩

theorem Counts.brackets {index : SortedIndex} (hasc : Ascending sorted) (h : Counts sorted index) : Brackets sorted index := by
  obtain ⟨buckets,hstarts,hin⟩ := h.starts
  have hlen : index.starts.length = buckets+1 := by
    rw [hstarts,List.length_map,List.length_range]
  have hne : index.starts.isEmpty = false := by
    rw [hstarts,List.range_succ_eq_map]
    rfl
  have hget : ∀ b ≤ buckets, index.starts.getD b 0 = before sorted index.base index.shift b := by
    intro b hb
    rw [hstarts,List.getD_eq_getElem?_getD,List.getElem?_map,List.getElem?_range (by omega)]
    rfl
  refine ⟨fun key lo hi hr => ?_,fun i hi => ?_⟩
  · unfold SortedIndex.range at hr
    rw [hne,if_neg Bool.false_ne_true] at hr
    split at hr
    · cases hr
    dsimp only at hr
    split at hr
    · cases hr
    obtain ⟨rfl,rfl⟩ := Prod.mk.inj (Option.some.inj hr)
    rw [hget _ (by omega),hget _ (by omega)]
    exact ⟨before_mono (by omega),before_le_length _⟩
  obtain ⟨hbase,hbucket⟩ := hin sorted[i] (List.getElem_mem hi)
  unfold bucketOf at hbucket
  refine ⟨before sorted index.base index.shift ((sorted[i].1 >>> index.shift)-index.base),
    before sorted index.base index.shift ((sorted[i].1 >>> index.shift)-index.base+1),?_,?_,?_⟩
  · unfold SortedIndex.range
    rw [hne,if_neg Bool.false_ne_true,if_neg (by omega)]
    rw [if_neg (by omega),hget _ (by omega),hget _ (by omega)]
  · by_contra hlt
    have := (lt_before_iff hasc hi).mp (Nat.lt_of_not_le hlt)
    unfold bucketOf at this
    omega
  refine (lt_before_iff hasc hi).mpr ?_
  unfold bucketOf
  omega

section
variable (hasc : Ascending sorted)
variable {lo hi : Nat × Nat}

theorem bucket_bounds (hasc : Ascending sorted) (hlo : sorted.head? = some lo)
    (hhi : sorted.getLast? = some hi) {e : Nat × Nat} (he : e ∈ sorted) :
    lo.1 >>> shift ≤ e.1 >>> shift ∧
      bucketOf (lo.1 >>> shift) shift e.1 < (hi.1 >>> shift)-(lo.1 >>> shift)+1 := by
  have hlole : lo.1 ≤ e.1 := by
    cases sorted with
    | nil => cases he
    | cons a l =>
      obtain rfl := Option.some.inj hlo
      rcases List.mem_cons.mp he with rfl|he
      · exact le_rfl
      · exact Nat.le_of_lt ((List.pairwise_cons.mp hasc).1 e he)
  have hlehi : e.1 ≤ hi.1 := by
    obtain ⟨l,rfl⟩ := List.getLast?_eq_some_iff.mp hhi
    rcases List.mem_append.mp he with he|he
    · exact Nat.le_of_lt ((List.pairwise_append.mp hasc).2.2 e he hi List.mem_cons_self)
    · rw [List.mem_singleton.mp he]
  have h1 : lo.1 >>> shift ≤ e.1 >>> shift := by
    rw [Nat.shiftRight_eq_div_pow,Nat.shiftRight_eq_div_pow]
    exact Nat.div_le_div_right hlole
  have h2 : e.1 >>> shift ≤ hi.1 >>> shift := by
    rw [Nat.shiftRight_eq_div_pow,Nat.shiftRight_eq_div_pow]
    exact Nat.div_le_div_right hlehi
  unfold bucketOf
  exact ⟨h1,by omega⟩

include hasc

theorem before_last (hlo : sorted.head? = some lo) (hhi : sorted.getLast? = some hi) :
    before sorted (lo.1 >>> shift) shift ((hi.1 >>> shift)-(lo.1 >>> shift)+1) = sorted.length := by
  unfold before
  rw [List.countP_eq_length]
  intro e he
  exact decide_eq_true (bucket_bounds hasc hlo hhi he).2

theorem build_starts (hlo : sorted.head? = some lo) (hhi : sorted.getLast? = some hi)
    (hlen : sorted.length < u32Max) :
    build sorted =
      ⟨(List.range ((hi.1 >>> widen lo.1 hi.1 sorted.length 60 3)-(lo.1 >>> widen lo.1 hi.1 sorted.length 60 3)+1+1)).map
        (before sorted (lo.1 >>> widen lo.1 hi.1 sorted.length 60 3) (widen lo.1 hi.1 sorted.length 60 3)),
        lo.1 >>> widen lo.1 hi.1 sorted.length 60 3,widen lo.1 hi.1 sorted.length 60 3⟩ := by
  unfold build
  rw [hlo,hhi]
  dsimp only
  generalize hshift : widen lo.1 hi.1 sorted.length 60 3 = shift
  have hlast := @before_last sorted shift hasc lo hi hlo hhi
  generalize (hi.1 >>> shift)-(lo.1 >>> shift)+1 = buckets at hlast
  rw [if_neg (by omega),foldl_fillBucket hasc buckets hlen,@List.range_succ buckets,List.map_append,
    List.map_singleton,hlast,Nat.mod_eq_of_lt (show sorted.length < 2^32 by rw [u32Max] at hlen; omega)]

theorem brackets_build : Brackets sorted (build sorted) := by
  cases hlo : sorted.head? with
  | none =>
    have : build sorted = empty := by
      unfold build
      rw [hlo]
    rw [this]
    exact brackets_empty
  | some lo => ?_
  cases hhi : sorted.getLast? with
  | none =>
    have : build sorted = empty := by
      unfold build
      rw [hlo,hhi]
    rw [this]
    exact brackets_empty
  | some hi => ?_
  by_cases hlen : sorted.length ≥ u32Max
  · have : build sorted = empty := by
      unfold build
      rw [hlo,hhi]
      exact if_pos hlen
    rw [this]
    exact brackets_empty
  rw [build_starts hasc hlo hhi (by omega)]
  exact Counts.brackets hasc ⟨_,rfl,fun e he => bucket_bounds hasc hlo hhi he⟩

end
end CratonVM.Types.SortedIndex
