import CratonVM.Types.PointerMap.Basic

/-!
The index that jobs fill is the index of the serial loop: each job fills the buckets from just past
those of the pair before its own pairs.
-/
namespace CratonVM.Types
open SortedPairs List Option Function Prod
section
variable {α : Type} {job : Nat → List α → List α}

theorem getElem?_runJobs {order : List Nat} {slices : List (List α)} (hnodup : order.Nodup) (i : Nat) :
    (runJobs order job slices)[i]? = if i ∈ order then slices[i]?.map (job i) else slices[i]? := by
  induction order generalizing slices with
  | nil => rfl
  | cons j order ih => ?_
  rw [nodup_cons] at hnodup
  change (runJobs order job (slices.modify j (job j)))[i]? = _
  rw [ih hnodup.2,getElem?_modify]
  by_cases hij : j = i
  · subst hij
    simp [hnodup.1]
  have := Ne.symm hij
  simp [hij,this]

theorem runJobs_eq (run : Runner) (slices : List (List α)) :
    runJobs (run.order slices.length) job slices = slices.mapIdx job := by
  have hperm := run.once slices.length
  refine ext_getElem? fun i => ?_
  have hmem : i ∈ run.order slices.length ↔ i < slices.length := hperm.mem_iff.trans mem_range
  rw [getElem?_runJobs (hperm.nodup_iff.mpr nodup_range),getElem?_mapIdx]
  by_cases hi : i < slices.length
  · rw [if_pos (hmem.mpr hi)]
  rw [if_neg (fun h => hi (hmem.mp h)),getElem?_eq_none (by omega)]
  rfl

end

namespace SortedIndex
variable {own : List Nat} {first : Nat}

theorem length_foldl_set {v : Nat} {ts : List Nat} :
    (ts.foldl (fun own t => own.set (t-first) v) own).length = own.length := by
  induction ts generalizing own with
  | nil => rfl
  | cons t ts ih => rw [foldl_cons,ih,length_set]

theorem getD_foldl_set {v x : Nat} {ts : List Nat} (hts : ∀ t ∈ ts, first ≤ t)
    (hx : x < own.length) :
    (ts.foldl (fun own t => own.set (t-first) v) own).getD x 0 = if first+x ∈ ts then v else own.getD x 0 := by
  induction ts generalizing own with
  | nil => rfl
  | cons t ts ih => ?_
  rw [foldl_cons]
  have ht := hts t mem_cons_self
  rw [ih (fun u hu => hts u (mem_cons_of_mem _ hu)) (by rw [length_set]; exact hx)]
  by_cases hmem : first+x ∈ ts
  · rw [if_pos hmem,if_pos (mem_cons_of_mem _ hmem)]
  rw [if_neg hmem,getD_eq_getElem?_getD,getElem?_set]
  by_cases heq : t-first = x
  · have hin : first+x ∈ t::ts := by
      rw [show first+x = t by omega]
      exact mem_cons_self
    rw [if_pos heq,if_pos hin]
    simp [heq,hx]
  have hout : first+x ∉ t::ts := by
    rw [mem_cons,not_or]
    exact ⟨by omega,hmem⟩
  rw [if_neg heq,if_neg hout,getD_eq_getElem?_getD]

theorem length_fillUpto {value next upto : Nat} :
    (fillUpto first value (own,next) upto).1.length = own.length := length_foldl_set

theorem getD_fillUpto {value next upto x : Nat} (hnext : first ≤ next) (hx : x < own.length) :
    (fillUpto first value (own,next) upto).1.getD x 0 =
      if next ≤ first+x ∧ first+x ≤ upto then value % 2^32 else own.getD x 0 := by
  have hmem : first+x ∈ range' next (upto+1-next) ↔ next ≤ first+x ∧ first+x ≤ upto := by
    rw [mem_range'_1]
    omega
  unfold fillUpto
  rw [getD_foldl_set (fun t ht => Nat.le_trans hnext (mem_range'_1.mp ht).1) hx]
  by_cases h : next ≤ first+x ∧ first+x ≤ upto
  · rw [if_pos (hmem.mpr h),if_pos h]
  · rw [if_neg (fun hm => h (hmem.mp hm)),if_neg h]

section
variable {sorted : Pairs} {base shift : Nat} (hasc : Ascending sorted) (hlen : sorted.length < u32Max)

/-- The first bucket past those of the pairs before position `i`. -/
def nextBucket (sorted : Pairs) (base shift i : Nat) : Nat :=
  if i = 0 then 0 else bucketOf base shift ((sorted.map Prod.fst).getD (i-1) 0)+1

theorem key_getD {i : Nat} (hi : i < sorted.length) : (sorted.map fst).getD i 0 = sorted[i].1 := by
  rw [getD_eq_getElem?_getD,getElem?_map,getElem?_eq_getElem hi]
  rfl

include hasc

theorem bucket_le {i j : Nat} (hij : i ≤ j) (hj : j < sorted.length) :
    bucketOf base shift sorted[i].1 ≤ bucketOf base shift sorted[j].1 := by
  rcases Nat.eq_or_lt_of_le hij with rfl|hlt
  · exact le_rfl
  · exact bucketOf_mono (Nat.le_of_lt (pairwise_iff_getElem.mp hasc i j _ hj hlt))

theorem nextBucket_le {i : Nat} (hi : i < sorted.length) :
    nextBucket sorted base shift i ≤ bucketOf base shift sorted[i].1+1 := by
  unfold nextBucket
  split
  · exact Nat.zero_le _
  rw [key_getD (show i-1 < sorted.length by omega)]
  exact Nat.succ_le_succ (bucket_le hasc (Nat.sub_le i 1) hi)

theorem nextBucket_mono {i j : Nat} (hij : i ≤ j) (hj : j ≤ sorted.length) :
    nextBucket sorted base shift i ≤ nextBucket sorted base shift j := by
  unfold nextBucket
  by_cases hi : i = 0
  · rw [if_pos hi]
    exact Nat.zero_le _
  rw [if_neg hi,if_neg (by omega),key_getD (show i-1 < sorted.length by omega),
    key_getD (show j-1 < sorted.length by omega)]
  exact Nat.succ_le_succ (bucket_le hasc (by omega) (by omega))

theorem before_eq {i t : Nat} (hi : i ≤ sorted.length) (hlow : nextBucket sorted base shift i ≤ t)
    (hhigh : ∀ h : i < sorted.length, t ≤ bucketOf base shift sorted[i].1) : before sorted base shift t = i := by
  refine Nat.le_antisymm ?_ ?_
  · rcases Nat.lt_or_ge i sorted.length with hlt|hge
    · by_contra hgt
      have := (lt_before_iff hasc hlt).mp (Nat.lt_of_not_le hgt)
      have := hhigh hlt
      omega
    · exact Nat.le_trans (before_le_length t) hge
  cases i with
  | zero => exact Nat.zero_le _
  | succ i =>
    refine (lt_before_iff hasc (show i < sorted.length by omega)).mpr ?_
    unfold nextBucket at hlow
    rw [if_neg (Nat.succ_ne_zero i),Nat.add_sub_cancel,key_getD (show i < sorted.length by omega)] at hlow
    omega

include hlen

theorem foldl_fillUpto {own : List Nat} {p0 k : Nat} (hk : p0+k ≤ sorted.length) :
    ((range' p0 k).foldl
      (fun st i => fillUpto (nextBucket sorted base shift p0) i st (bucketOf base shift ((sorted.map fst).getD i 0)))
      (own,nextBucket sorted base shift p0)).2 = nextBucket sorted base shift (p0+k) ∧
    nextBucket sorted base shift p0 ≤ nextBucket sorted base shift (p0+k) ∧
    ((range' p0 k).foldl
      (fun st i => fillUpto (nextBucket sorted base shift p0) i st (bucketOf base shift ((sorted.map fst).getD i 0)))
      (own,nextBucket sorted base shift p0)).1.length = own.length ∧
    ∀ x < own.length, nextBucket sorted base shift p0+x < nextBucket sorted base shift (p0+k) →
      ((range' p0 k).foldl
        (fun st i => fillUpto (nextBucket sorted base shift p0) i st (bucketOf base shift ((sorted.map fst).getD i 0)))
        (own,nextBucket sorted base shift p0)).1.getD x 0 =
        before sorted base shift (nextBucket sorted base shift p0+x) := by
  induction k with
  | zero => exact ⟨rfl,le_rfl,rfl,fun x _ h => by rw [Nat.add_zero] at h; omega⟩
  | succ k ih => ?_
  obtain ⟨hnext,hle,hl,hget⟩ := ih (by omega)
  have hi : p0+k < sorted.length := by omega
  have hrange : range' p0 (k+1) = range' p0 k++[p0+k] := by
    rw [range'_concat,Nat.one_mul]
  rw [hrange,foldl_append,foldl_cons,foldl_nil]
  generalize hst : (range' p0 k).foldl
    (fun st i => fillUpto (nextBucket sorted base shift p0) i st (bucketOf base shift ((sorted.map fst).getD i 0)))
    (own,nextBucket sorted base shift p0) = st at hnext hl hget
  obtain ⟨own',next⟩ := st
  subst hnext
  rw [key_getD hi]
  have hmono := @nextBucket_le sorted base shift hasc _ hi
  have hafter : nextBucket sorted base shift (p0+(k+1)) = bucketOf base shift sorted[p0+k].1+1 := by
    unfold nextBucket
    rw [if_neg (by omega),show p0+(k+1)-1 = p0+k by omega,key_getD hi]
  rw [hafter]
  refine ⟨Nat.max_eq_right hmono,by omega,?_,fun x hx hlt => ?_⟩
  · exact length_fillUpto.trans hl
  rw [getD_fillUpto hle (hl ▸ hx)]
  split
  · rename_i hin
    rw [Nat.mod_eq_of_lt (show p0+k < 2^32 by rw [u32Max] at hlen; omega)]
    exact (before_eq hasc (by omega) hin.1 fun _ => hin.2).symm
  · exact hget x hx (by omega)

theorem fillJob_eq {own : List Nat} {buckets p0 p1 stop : Nat} (hp : p0 ≤ p1) (hp1 : p1 ≤ sorted.length)
    (hbuckets : ∀ i (h : i < sorted.length), bucketOf base shift sorted[i].1 < buckets)
    (hown : own.length = stop-nextBucket sorted base shift p0)
    (hstop : stop = if p1 = sorted.length then buckets+1 else nextBucket sorted base shift p1) :
    fillJob sorted base shift buckets (nextBucket sorted base shift p0) p0 p1 own =
      (range' (nextBucket sorted base shift p0) (stop-nextBucket sorted base shift p0)).map
        (before sorted base shift) := by
  have hkk : p0+(p1-p0) = p1 := by omega
  obtain ⟨hnext,hle,hl,hget⟩ := @foldl_fillUpto sorted base shift hasc hlen own p0 (p1-p0) (by omega)
  rw [hkk] at hnext hle hget
  unfold fillJob
  generalize (range' p0 (p1-p0)).foldl
    (fun st i => fillUpto (nextBucket sorted base shift p0) i st (bucketOf base shift ((sorted.map fst).getD i 0)))
    (own,nextBucket sorted base shift p0) = st at hnext hl hget
  obtain ⟨own',next⟩ := st
  subst hnext
  have hentry : ∀ x < own.length,
      (if p1 = sorted.length then
          (fillUpto (nextBucket sorted base shift p0) sorted.length (own',nextBucket sorted base shift p1) buckets).1
        else own').getD x 0 = before sorted base shift (nextBucket sorted base shift p0+x) := by
    intro x hx
    split
    · rename_i hend
      rw [if_pos hend] at hstop
      rw [getD_fillUpto hle (hl ▸ hx)]
      split
      · rename_i hin
        rw [Nat.mod_eq_of_lt (show sorted.length < 2^32 by rw [u32Max] at hlen; omega)]
        exact (before_eq hasc le_rfl (hend ▸ hin.1) fun h => absurd h (Nat.lt_irrefl _)).symm
      · exact hget x hx (by omega)
    rename_i hend
    rw [if_neg hend] at hstop
    exact hget x hx (by omega)
  have hlength : (if p1 = sorted.length then
      (fillUpto (nextBucket sorted base shift p0) sorted.length (own',nextBucket sorted base shift p1) buckets).1
        else own').length = own.length := by
    split
    · exact length_fillUpto.trans hl
    · exact hl
  refine ext_getElem (by rw [hlength,hown,length_map,length_range']) fun x h1 h2 => ?_
  have hx : x < own.length := hlength ▸ h1
  have hval := hentry x hx
  rw [getD_eq_getElem?_getD,getElem?_eq_getElem h1] at hval
  rw [getElem_map,getElem_range',Nat.one_mul]
  exact hval

end

theorem flatten_ranges {first : Nat → Nat} {f : Nat → Nat} {m : Nat} (hzero : first 0 = 0)
    (hmono : ∀ j < m, first j ≤ first (j+1)) :
    ((List.range m).map fun j => (range' (first j) (first (j+1)-first j)).map f).flatten = (List.range (first m)).map f := by
  induction m with
  | zero => rw [hzero]; rfl
  | succ m ih => ?_
  rw [range_succ,map_append,flatten_append,ih fun j hj => hmono j (by omega)]
  have hsplit : List.range (first (m+1)) = List.range (first m)++range' (first m) (first (m+1)-first m) := by
    have hle := hmono m (Nat.lt_succ_self m)
    have hjoin := @range'_append_1 0 (first m) (first (m+1)-first m)
    rw [Nat.zero_add,show first m+(first (m+1)-first m) = first (m+1) by omega] at hjoin
    rw [range_eq_range',range_eq_range',hjoin]
  rw [hsplit,map_append]
  simp

theorem mapIdx_map_range {α β : Type} {f : Nat → α → β} {g : Nat → α} {m : Nat} :
    ((List.range m).map g).mapIdx f = (List.range m).map fun j => f j (g j) := by
  refine ext_getElem? fun i => ?_
  rw [getElem?_mapIdx,getElem?_map,getElem?_map]
  rcases Nat.lt_or_ge i m with hi|hi
  · rw [getElem?_range hi]
    rfl
  rw [getElem?_eq_none (by rw [length_range]; exact hi)]
  rfl

theorem divCeil_bounds {n d : Nat} (hd : 0 < d) (hn : 0 < n) :
    0 < divCeil n d ∧ n ≤ divCeil n d*d ∧ (divCeil n d-1)*d < n := by
  unfold divCeil
  have hdiv := Nat.div_add_mod (n+d-1) d
  have hmod := Nat.mod_lt (n+d-1) hd
  have hpos : 0 < (n+d-1)/d := Nat.div_pos (by omega) hd
  rw [Nat.mul_comm] at hdiv
  rw [Nat.sub_mul,Nat.one_mul]
  omega

theorem buildPar_eq {sorted : Pairs} (hasc : Ascending sorted) (jobs : Nat) (run : Runner) :
    buildPar sorted jobs run = build sorted := by
  cases hlo : sorted.head? with
  | none => rw [buildPar,build,hlo]
  | some lo => ?_
  cases hhi : sorted.getLast? with
  | none => rw [buildPar,build,hlo,hhi]
  | some hi => ?_
  by_cases hlen : sorted.length ≥ u32Max
  · rw [buildPar,build,hlo,hhi]
    dsimp only
    rw [if_pos hlen,if_pos hlen]
  rw [build_starts hasc hlo hhi (by omega),buildPar,hlo,hhi]
  dsimp only
  rw [if_neg hlen]
  generalize widen lo.1 hi.1 sorted.length 60 3 = shift
  have hin : ∀ i (h : i < sorted.length), bucketOf (lo.1 >>> shift) shift sorted[i].1 <
      (hi.1 >>> shift)-(lo.1 >>> shift)+1 := fun i h => (bucket_bounds hasc hlo hhi (getElem_mem h)).2
  generalize lo.1 >>> shift = base at hin ⊢
  generalize (hi.1 >>> shift)-base+1 = buckets at hin ⊢
  have hpos : 0 < sorted.length := by
    cases sorted with
    | nil => cases hlo
    | cons e l => exact Nat.succ_pos _
  obtain ⟨hper,-,-⟩ := divCeil_bounds (show 0 < max jobs 1 by omega) hpos
  generalize divCeil sorted.length (max jobs 1) = per at hper ⊢
  obtain ⟨hjobs,hcover,hlast⟩ := divCeil_bounds hper hpos
  generalize divCeil sorted.length per = jobs' at hjobs hcover hlast ⊢
  obtain ⟨first,hfirst⟩ : ∃ first, (fun j => if j = 0 then 0 else if j = jobs' then buckets+1
    else bucketOf base shift ((sorted.map fst).getD (j*per-1) 0)+1) = first := ⟨_,rfl⟩
  have hnext : ∀ j < jobs', first j = nextBucket sorted base shift (j*per) := by
    intro j hj
    rw [← hfirst]
    unfold nextBucket
    by_cases hj0 : j = 0
    · simp [hj0]
    have hne : j*per ≠ 0 := Nat.mul_ne_zero hj0 (by omega)
    simp [hj0,hne,Nat.ne_of_lt hj]
  have hend : first jobs' = buckets+1 := by
    rw [← hfirst]
    simp [Nat.ne_of_gt hjobs]
  -- where the pairs of a job end, and the buckets of the next one start
  have hcut : ∀ j < jobs', min ((j+1)*per) sorted.length = sorted.length ∧ first (j+1) = buckets+1 ∨
      (j+1)*per < sorted.length ∧ first (j+1) = nextBucket sorted base shift ((j+1)*per) := by
    intro j hj
    by_cases hlastj : j+1 = jobs'
    · rw [hlastj]
      exact .inl ⟨Nat.min_eq_right hcover,hend⟩
    have hle : (j+1)*per ≤ (jobs'-1)*per := Nat.mul_le_mul_right per (by omega)
    exact .inr ⟨by omega,hnext (j+1) (by omega)⟩
  have hp0 : ∀ j < jobs', j*per < sorted.length := by
    intro j hj
    have : j*per ≤ (jobs'-1)*per := Nat.mul_le_mul_right per (by omega)
    omega
  have hmono : ∀ j < jobs', first j ≤ first (j+1) := by
    intro j hj
    rw [hnext j hj]
    rcases hcut j hj with ⟨-,h⟩|⟨hlt,h⟩
    · have h1 := @nextBucket_le sorted base shift hasc _ (hp0 j hj)
      have h2 := hin _ (hp0 j hj)
      omega
    rw [h]
    exact nextBucket_mono hasc (Nat.mul_le_mul_right per (Nat.le_succ j)) (by omega)
  have hjob : ∀ j < jobs', fillJob sorted base shift buckets (first j) (j*per) (min ((j+1)*per) sorted.length)
      (replicate (first (j+1)-first j) 0) =
        (range' (first j) (first (j+1)-first j)).map (before sorted base shift) := by
    intro j hj
    have hp := hp0 j hj
    have hle : j*per ≤ (j+1)*per := Nat.mul_le_mul_right per (Nat.le_succ j)
    rw [hnext j hj]
    refine fillJob_eq hasc (Nat.lt_of_not_le hlen) (by omega) (by omega) hin (length_replicate ..) ?_
    rcases hcut j hj with ⟨h1,h2⟩|⟨h1,h2⟩
    · rw [if_pos h1,h2]
    · rw [if_neg (by omega),Nat.min_eq_left (by omega),h2]
  have hrun := @runJobs_eq Nat
    (fun j => fillJob sorted base shift buckets (first j) (j*per) (min ((j+1)*per) sorted.length)) run
    ((List.range jobs').map fun j => replicate (first (j+1)-first j) 0)
  rw [length_map,length_range] at hrun
  rw [mapIdx_map_range,map_congr_left fun j hj => hjob j (mem_range.mp hj)] at hrun
  have hflat := @flatten_ranges first (before sorted base shift) jobs' (by rw [← hfirst]; rfl) hmono
  rw [← hrun,hend,← hfirst] at hflat
  exact congrArg (SortedIndex.mk · base shift) hflat

end SortedIndex
end CratonVM.Types
namespace CratonVM.Types.PointerMap
open SortedPairs BinarySearch ShardedMap

/-- The map behind the representation. -/
def content (m : PointerMap) (k : Nat) : Option Nat := (valueAt m.sorted k).or (look shardOf m.shards k)

structure Sound (m : PointerMap) : Prop where
  shards : Ok shardOf SHARDS m.shards
  ascending : Ascending m.sorted
  apart : ∀ k ∈ m.sorted.map Prod.fst, look shardOf m.shards k = none
  index : m.index.Brackets m.sorted

structure Refines (m : PointerMap) (s : Nat → Option Nat) : Prop where
  sound : Sound m
  content : ∀ k, m.content k = s k

variable {m : PointerMap} {s : Nat → Option Nat} {k v i : Nat}

theorem shardOf_lt (k : Nat) : shardOf k < SHARDS := by
  exact Nat.lt_of_le_of_lt Nat.and_le_right (by decide)

variable {l : Pairs}

theorem Ascending.valueAt_eq (h : Ascending l) (hi : l[i]? = some (k,v)) : valueAt l k = some v :=
  (mem_iff_valueAt h.nodup).mp (List.mem_of_getElem? hi)

theorem sortedPos_eq_some (h : Sound m) : m.sortedPos k = some i ↔ ∃ v, m.sorted[i]? = some (k,v) := by
  have hkeys : ∀ lo hi, (((m.sorted.drop lo).take (hi-lo)).map Prod.fst).Pairwise (· < ·) := by
    intro lo hi
    rw [List.pairwise_map]
    exact h.ascending.sublist ((List.take_sublist _ _).trans (List.drop_sublist _ _))
  have hget : ∀ lo hi j, (((m.sorted.drop lo).take (hi-lo)).map Prod.fst)[j]? = some k →
      j < hi-lo ∧ ∃ v, m.sorted[lo+j]? = some (k,v) := by
    intro lo hi j hj
    rw [List.getElem?_map,List.getElem?_take,List.getElem?_drop] at hj
    split at hj
    · rename_i hlt
      obtain ⟨e,he,rfl⟩ := Option.map_eq_some_iff.mp hj
      exact ⟨hlt,e.2,he⟩
    · cases hj
  unfold sortedPos
  by_cases hempty : m.sorted.isEmpty = true
  · rw [if_pos hempty]
    have hnil := List.isEmpty_iff.mp hempty
    refine iff_of_false (by simp) ?_
    rintro ⟨v,hv⟩
    rw [hnil] at hv
    cases hv
  rw [if_neg hempty]
  constructor
  · intro hpos
    obtain ⟨⟨lo,hi⟩,-,hpos⟩ := Option.bind_eq_some_iff.mp hpos
    obtain ⟨j,hj,hlast⟩ := Option.bind_eq_some_iff.mp hpos
    obtain ⟨-,v,hv⟩ := hget lo hi j ((binarySearch_eq_some (hkeys lo hi)).mp hj)
    rw [← Option.some.inj hlast]
    exact ⟨v,hv⟩
  rintro ⟨v,hv⟩
  obtain ⟨hlt,heq⟩ := getElem?_eq_some_iff.mp hv
  obtain ⟨lo,hi,hrange,hlo,hhi⟩ := h.index.finds i hlt
  rw [heq] at hrange
  have hslice : (((m.sorted.drop lo).take (hi-lo)).map Prod.fst)[i-lo]? = some k := by
    rw [List.getElem?_map,List.getElem?_take,if_pos (by omega),List.getElem?_drop,
      show lo+(i-lo) = i by omega,hv]
    rfl
  refine Option.bind_eq_some_iff.mpr ⟨(lo,hi),hrange,Option.bind_eq_some_iff.mpr ⟨i-lo,?_,?_⟩⟩
  · exact (binarySearch_eq_some (hkeys lo hi)).mpr hslice
  · rw [show lo+(i-lo) = i by omega]

theorem sortedPos_eq_none (h : Sound m) : m.sortedPos k = none ↔ valueAt m.sorted k = none := by
  rw [valueAt_eq_none]
  constructor
  · intro hnone hmem
    obtain ⟨e,he,rfl⟩ := List.mem_map.mp hmem
    obtain ⟨i,hi⟩ := List.mem_iff_getElem?.mp he
    have := (sortedPos_eq_some h).mpr ⟨e.2,hi⟩
    rw [hnone] at this
    cases this
  intro hmem
  cases hpos : m.sortedPos k with
  | none => rfl
  | some i =>
    obtain ⟨v,hv⟩ := (sortedPos_eq_some h).mp hpos
    exact absurd (List.mem_map_of_mem (List.mem_of_getElem? hv)) hmem

theorem sortedGet_eq (h : Sound m) : m.sortedGet k = valueAt m.sorted k := by
  unfold sortedGet
  cases hpos : m.sortedPos k with
  | none => exact ((sortedPos_eq_none h).mp hpos).symm
  | some i => ?_
  obtain ⟨v,hv⟩ := (sortedPos_eq_some h).mp hpos
  rw [Ascending.valueAt_eq h.ascending hv]
  change (m.sorted[i]?).map Prod.snd = some v
  rw [hv]
  rfl

theorem get_eq (h : Refines m s) : m.get k = s k := by
  rw [← h.content,content,get,sortedGet_eq h.sound]
  cases valueAt m.sorted k <;> rfl

variable {f : Nat → Nat}

theorem keys_modify : (l.modify i fun e => (e.1,f e.2)).map Prod.fst = l.map Prod.fst := by
  refine List.ext_getElem? fun j => ?_
  rw [List.getElem?_map,List.getElem?_map,List.getElem?_modify]
  split
  · cases l[j]? <;> rfl
  · cases l[j]? <;> rfl

theorem ascending_modify (h : Ascending l) : Ascending (l.modify i fun e => (e.1,f e.2)) := by
  have hkeys := List.pairwise_map.mpr h
  rw [← @keys_modify i l f] at hkeys
  exact List.pairwise_map.mp hkeys

theorem valueAt_modify (h : Ascending l) (hi : l[i]? = some (k,v)) :
    valueAt (l.modify i fun e => (e.1,f e.2)) = Function.update (valueAt l) k (some (f v)) := by
  funext j
  by_cases hjk : j = k
  · subst hjk
    rw [Function.update_self]
    refine Ascending.valueAt_eq (i := i) (ascending_modify h) ?_
    rw [List.getElem?_modify,hi]
    simp
  rw [Function.update_of_ne hjk]
  refine Option.ext fun w => ?_
  rw [← mem_iff_valueAt (ascending_modify h).nodup,← mem_iff_valueAt h.nodup,List.mem_iff_getElem?,
    List.mem_iff_getElem?]
  refine exists_congr fun x => ?_
  rw [List.getElem?_modify]
  by_cases hxi : i = x
  · subst hxi
    rw [hi]
    simp [Ne.symm hjk]
  · simp [hxi]

theorem Brackets.of_keys {l' : Pairs} {index : SortedIndex} (hkeys : l'.map Prod.fst = l.map Prod.fst)
    (h : index.Brackets l) : index.Brackets l' := by
  have hlen : l'.length = l.length := by
    rw [← List.length_map Prod.fst,hkeys,List.length_map]
  refine ⟨by rw [hlen]; exact h.inside,fun i hi => ?_⟩
  have hi' : i < l.length := hlen ▸ hi
  have hkey : l'[i].1 = l[i].1 := by
    have h1 : (l'.map Prod.fst)[i]? = (l.map Prod.fst)[i]? := by rw [hkeys]
    rw [List.getElem?_map,List.getElem?_map,List.getElem?_eq_getElem hi,List.getElem?_eq_getElem hi'] at h1
    exact Option.some.inj h1
  rw [hkey,hlen]
  exact h.finds i hi'

theorem Refines.writeSorted (h : Refines m s) (hi : m.sorted[i]? = some (k,v)) :
    Refines { m with sorted := m.sorted.modify i fun e => (e.1,f e.2) } (Function.update s k (some (f v))) := by
  have hasc := h.sound.ascending
  refine ⟨⟨h.sound.shards,ascending_modify hasc,?_,Brackets.of_keys keys_modify h.sound.index⟩,fun j => ?_⟩
  · rw [keys_modify]
    exact h.sound.apart
  have hj := h.content j
  unfold PointerMap.content at hj ⊢
  rw [valueAt_modify hasc hi]
  by_cases hjk : j = k
  · subst hjk
    rw [Function.update_self,Function.update_self]
    rfl
  rw [Function.update_of_ne hjk,Function.update_of_ne hjk]
  exact hj

theorem Refines.writeShard (h : Refines m s) {shards : List Shard} {w : Option Nat} (hk : valueAt m.sorted k = none)
    (hok : Ok shardOf SHARDS shards) (hlook : look shardOf shards = Function.update (look shardOf m.shards) k w) :
    Refines { m with shards := shards } (Function.update s k w) := by
  refine ⟨⟨hok,h.sound.ascending,fun j hj => ?_,h.sound.index⟩,fun j => ?_⟩
  · have hjk : j ≠ k := by
      rintro rfl
      exact valueAt_eq_none.mp hk hj
    rw [hlook,Function.update_of_ne hjk]
    exact h.sound.apart j hj
  have hj := h.content j
  unfold PointerMap.content at hj ⊢
  rw [hlook]
  by_cases hjk : j = k
  · subst hjk
    rw [Function.update_self,Function.update_self,hk]
    rfl
  rw [Function.update_of_ne hjk,Function.update_of_ne hjk]
  exact hj

theorem Refines.shardInsert (h : Refines m s) (hk : valueAt m.sorted k = none) :
    Refines { m with shards := shardInsert m.shards (k,v) } (Function.update s k (some v)) :=
  h.writeShard hk (h.sound.shards.insert (shardOf_lt k)) (look_insert h.sound.shards (shardOf_lt k))

section
variable (h : Refines m s)
include h

theorem Refines.shardErase (hk : valueAt m.sorted k = none) :
    Refines { m with shards := m.shards.modify (shardOf k) fun t => t.erase k } (Function.update s k none) :=
  h.writeShard hk (h.sound.shards.erase (shardOf_lt k)) (look_erase h.sound.shards (shardOf_lt k))

theorem lookup_shard (hk : valueAt m.sorted k = none) : (m.shard k).lookup k = s k := by
  rw [← h.content,PointerMap.content,hk]
  rfl

theorem insert_refines (k v : Nat) :
    Refines (m.insert k v).1 (Function.update s k (some v)) ∧ (m.insert k v).2 = s k := by
  unfold PointerMap.insert
  cases hpos : m.sortedPos k with
  | none =>
    have hk := (sortedPos_eq_none h.sound).mp hpos
    exact ⟨h.shardInsert hk,lookup_shard h hk⟩
  | some i => ?_
  obtain ⟨w,hw⟩ := (sortedPos_eq_some h.sound).mp hpos
  refine ⟨h.writeSorted (f := fun _ => v) hw,?_⟩
  dsimp only
  rw [hw,← h.content,PointerMap.content,Ascending.valueAt_eq h.sound.ascending hw]
  rfl

theorem getMut_refines (k : Nat) (write : Nat → Nat) :
    Refines (m.getMut k write) (Function.update s k ((s k).map write)) := by
  unfold PointerMap.getMut
  cases hpos : m.sortedPos k with
  | none => ?_
  | some i =>
    obtain ⟨w,hw⟩ := (sortedPos_eq_some h.sound).mp hpos
    have hs : s k = some w := by
      rw [← h.content,PointerMap.content,Ascending.valueAt_eq h.sound.ascending hw]
      rfl
    rw [hs]
    exact h.writeSorted hw
  have hk := (sortedPos_eq_none h.sound).mp hpos
  have hlook := lookup_shard h hk
  cases hv : (m.shard k).lookup k with
  | none =>
    have hsame : Function.update s k ((s k).map write) = s := by
      rw [← hlook,hv,Option.map_none,← hv,hlook,Function.update_eq_self]
    rw [hsame]
    exact h
  | some v =>
    rw [← hlook,hv]
    exact h.shardInsert hk

theorem thaw_refines : Refines m.thaw s ∧ m.thaw.sorted = [] := by
  unfold PointerMap.thaw
  by_cases hempty : m.sorted.isEmpty = true
  · rw [if_pos hempty]
    exact ⟨h,List.isEmpty_iff.mp hempty⟩
  rw [if_neg hempty]
  obtain ⟨hok,hlook⟩ := insertAll h.sound.shards shardOf_lt m.sorted
  refine ⟨⟨⟨hok,.nil,fun k hk => absurd hk List.not_mem_nil,SortedIndex.brackets_empty⟩,fun k => ?_⟩,rfl⟩
  rw [← h.content,PointerMap.content,PointerMap.content]
  refine (Option.none_or).trans ((congrFun hlook k).trans ?_)
  exact writeAll_of_nodup h.sound.ascending.nodup

end

theorem valueAt_of_sorted_nil (h : m.sorted = []) : valueAt m.sorted k = none := by
  rw [h]
  rfl

theorem entry_refines (h : Refines m s) (k : Nat) (alter : Option Nat → Option Nat) :
    Refines (m.entry k alter) (Function.update s k (alter (s k))) := by
  have hready : ∃ m', (if (m.sortedPos k).isSome then m.thaw else m) = m' ∧ Refines m' s ∧
      valueAt m'.sorted k = none := by
    cases hpos : m.sortedPos k with
    | none => exact ⟨m,rfl,h,(sortedPos_eq_none h.sound).mp hpos⟩
    | some i => exact ⟨m.thaw,rfl,(thaw_refines h).1,valueAt_of_sorted_nil (thaw_refines h).2⟩
  obtain ⟨m',hm,hr,hk⟩ := hready
  unfold PointerMap.entry
  dsimp only
  rw [hm,lookup_shard hr hk]
  cases alter (s k) with
  | some v => exact hr.shardInsert hk
  | none => exact hr.shardErase hk

theorem remove_refines (h : Refines m s) (k : Nat) :
    Refines (m.remove k).1 (Function.update s k none) ∧ (m.remove k).2 = s k := by
  obtain ⟨hr,hnil⟩ := thaw_refines h
  exact ⟨hr.shardErase (valueAt_of_sorted_nil hnil),lookup_shard hr (valueAt_of_sorted_nil hnil)⟩

theorem clear_refines (h : Refines m s) : Refines m.clear fun _ => none := by
  obtain ⟨hok,hlook⟩ := h.sound.shards.map (f := fun _ => ∅)
    (fun _ k hk => absurd hk (AList.notMem_empty k)) rfl
  refine ⟨⟨hok,.nil,fun k hk => absurd hk List.not_mem_nil,SortedIndex.brackets_empty⟩,fun k => ?_⟩
  exact (Option.none_or).trans ((hlook k).trans (AList.lookup_empty k))

theorem lookup_retainEntry {keep : Nat → Nat → Option Nat} {out : Shard} {e : Sigma fun _ : Nat => Nat} :
    (retainEntry keep out e).lookup k = if e.1 = k then (keep e.1 e.2).or (out.lookup k) else out.lookup k := by
  unfold retainEntry
  cases keep e.1 e.2 with
  | none => simp
  | some v => ?_
  dsimp only
  split
  · rename_i hk
    rw [← hk,AList.lookup_insert]
    rfl
  rename_i hk
  exact AList.lookup_insert_ne (Ne.symm hk)

theorem lookup_foldl_retainEntry {keep : Nat → Nat → Option Nat} {entries : List (Sigma fun _ : Nat => Nat)}
    {out : Shard} (hnodup : entries.NodupKeys) :
    (entries.foldl (retainEntry keep) out).lookup k = ((List.dlookup k entries).bind (keep k)).or (out.lookup k) := by
  induction entries generalizing out with
  | nil => rfl
  | cons e entries ih => ?_
  obtain ⟨a,b⟩ := e
  obtain ⟨hnew,hrest⟩ := List.nodupKeys_cons.mp hnodup
  rw [List.foldl_cons,ih hrest,lookup_retainEntry]
  by_cases hk : a = k
  · subst hk
    have hnone := List.dlookup_eq_none.mpr hnew
    rw [hnone,List.dlookup_cons_eq,if_pos rfl]
    rfl
  · rw [List.dlookup_cons_ne _ _ (Ne.symm hk),if_neg hk]

theorem lookup_retainShard (keep : Nat → Nat → Option Nat) (t : Shard) :
    (retainShard keep t).lookup k = (t.lookup k).bind (keep k) :=
  (lookup_foldl_retainEntry t.nodupKeys).trans Option.or_none

theorem retain_refines (h : Refines m s) (keep : Nat → Nat → Option Nat) :
    Refines (m.retain keep) fun k => (s k).bind (keep k) := by
  obtain ⟨hr,hnil⟩ := thaw_refines h
  obtain ⟨hok,hlook⟩ := hr.sound.shards.map (f := retainShard keep) (fun t k hk => by
    rw [← AList.lookup_isSome,lookup_retainShard] at hk
    rw [← AList.lookup_isSome]
    cases hl : t.lookup k with
    | none =>
      rw [hl] at hk
      cases hk
    | some v => rfl) rfl
  refine ⟨⟨hok,hr.sound.ascending,fun k hk => ?_,hr.sound.index⟩,fun k => ?_⟩
  · change k ∈ m.thaw.sorted.map Prod.fst at hk
    rw [hnil] at hk
    cases hk
  change (valueAt m.thaw.sorted k).or (look shardOf (m.thaw.shards.map (retainShard keep)) k) = _
  rw [valueAt_of_sorted_nil hnil,Option.none_or,hlook,lookup_retainShard]
  change ((m.thaw.shard k).lookup k).bind (keep k) = _
  rw [lookup_shard hr (valueAt_of_sorted_nil hnil)]

end CratonVM.Types.PointerMap
