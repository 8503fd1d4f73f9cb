import CratonVM.Types.PointerMap.Invariant

/-!
The operations on whole maps: building from pairs, composing with the map of a later pass, and folding in
lists of pairs, each serially and by jobs; and what iteration shows.
-/
namespace CratonVM.Types.PointerMap
open SortedPairs ShardedMap List Option Bool Function Prod
variable {m next : PointerMap} {s t : Nat → Option Nat} {k v : Nat}

theorem new_refines : Refines new fun _ => none := by
  obtain ⟨hok,hlook⟩ := @ok_replicate Nat Nat _ shardOf SHARDS
  exact ⟨⟨hok,.nil,fun k hk => absurd hk not_mem_nil,SortedIndex.brackets_empty⟩,hlook⟩

theorem fromSortedUnique_refines {l : Pairs} (h : Ascending l) : Refines (fromSortedUnique l) (valueAt l) := by
  have hnew := new_refines.sound.shards
  have hlook : ∀ k, look shardOf new.shards k = none := (ok_replicate SHARDS).2
  exact ⟨⟨hnew,h,fun k _ => hlook k,SortedIndex.brackets_build h⟩,fun k => by
    change (valueAt l k).or (look shardOf new.shards k) = _
    rw [hlook,or_none]⟩

theorem fromSortedUniquePar_eq {l : Pairs} (h : Ascending l) (jobs : Nat) (run : Runner) :
    fromSortedUniquePar l jobs run = fromSortedUnique l := by
  unfold fromSortedUniquePar fromSortedUnique
  split
  · rfl
  · rw [SortedIndex.buildPar_eq h]

theorem writeAll_dedupFrom {kept : Nat × Nat} {rest : Pairs} : writeAll (dedupFrom kept rest) s = writeAll (kept::rest) s := by
  induction rest generalizing kept s with
  | nil => rfl
  | cons later rest ih => ?_
  rw [dedupFrom]
  split
  · rename_i heq
    rw [ih]
    change writeAll rest (update s kept.1 (some later.2)) =
      writeAll rest (update (update s kept.1 (some kept.2)) later.1 (some later.2))
    rw [heq,update_idem]
  · exact ih

theorem dedupFrom_above {kept e : Nat × Nat} {rest : Pairs} (h : (kept::rest).Pairwise fun a b => a.1 ≤ b.1)
    (he : e ∈ dedupFrom kept rest) : kept.1 ≤ e.1 := by
  induction rest generalizing kept with
  | nil => exact Nat.le_of_eq (congrArg fst (mem_singleton.mp he).symm)
  | cons later rest ih => ?_
  obtain ⟨hhead,htail⟩ := pairwise_cons.mp h
  rw [dedupFrom] at he
  split at he
  · exact @ih (kept.1,later.2) (pairwise_cons.mpr ⟨fun a ha => hhead a (mem_cons_of_mem _ ha),
      (pairwise_cons.mp htail).2⟩) he
  rcases mem_cons.mp he with rfl|he
  · exact le_rfl
  · exact Nat.le_trans (hhead later mem_cons_self) (ih htail he)

theorem ascending_dedupFrom {kept : Nat × Nat} {rest : Pairs} (h : (kept::rest).Pairwise fun a b => a.1 ≤ b.1) :
    Ascending (dedupFrom kept rest) := by
  induction rest generalizing kept with
  | nil => exact pairwise_singleton _ _
  | cons later rest ih => ?_
  obtain ⟨hhead,htail⟩ := pairwise_cons.mp h
  rw [dedupFrom]
  split
  · exact ih (pairwise_cons.mpr ⟨fun a ha => hhead a (mem_cons_of_mem _ ha),(pairwise_cons.mp htail).2⟩)
  refine pairwise_cons.mpr ⟨fun e he => ?_,ih htail⟩
  have h1 := hhead later mem_cons_self
  have h2 := dedupFrom_above htail he
  omega

theorem fromPairsSorted_refines (pairs : Pairs) : Refines (fromPairsSorted pairs) (writeAll pairs fun _ => none) := by
  have hsorted : (sortByKey pairs).Pairwise fun a b => a.1 ≤ b.1 := sorted_insertionSort
  have hasc : Ascending (dedupLast (sortByKey pairs)) := by
    cases hl : sortByKey pairs with
    | nil => exact .nil
    | cons kept rest => exact ascending_dedupFrom (hl ▸ hsorted)
  have hwrites : writeAll (dedupLast (sortByKey pairs)) (fun _ => none) = writeAll (sortByKey pairs) fun _ => none := by
    cases sortByKey pairs with
    | nil => rfl
    | cons kept rest => exact writeAll_dedupFrom
  have hstable : writeAll (sortByKey pairs) (fun _ => none) = writeAll pairs fun _ => none :=
    writeAll_congr fun k => filter_insertionSort
  obtain ⟨hsound,hcontent⟩ := fromSortedUnique_refines hasc
  refine ⟨hsound,fun k => (hcontent k).trans ?_⟩
  rw [← hstable,← hwrites,writeAll_of_nodup hasc.nodup,or_none]

theorem nodup_iter (h : Sound m) : (m.iter.map fst).Nodup := by
  unfold iter
  rw [map_append]
  refine nodup_append.mpr ⟨h.ascending.nodup,nodup_pairs h.shards,fun a ha b hb hab => ?_⟩
  obtain ⟨e,he,rfl⟩ := mem_map.mp hb
  have hlook := (mem_pairs (v := e.2) h.shards shardOf_lt).mp he
  rw [← hab,h.apart a ha] at hlook
  cases hlook

theorem mem_iter (h : Refines m s) : (k,v) ∈ m.iter ↔ s k = some v := by
  have hsound := h.sound
  rw [← h.content,PointerMap.content,iter,mem_append,mem_iff_valueAt hsound.ascending.nodup]
  refine (or_congr_right (mem_pairs hsound.shards shardOf_lt)).trans ?_
  cases hv : valueAt m.sorted k with
  | none => simp
  | some w =>
    have hnone : look shardOf m.shards k = none :=
      hsound.apart k (mem_map_of_mem (mem_of_valueAt hv))
    simp [hnone]

theorem length_iter : m.iter.length = m.len := by
  unfold iter len
  rw [length_append]
  exact congrArg (m.sorted.length+·) length_pairs

theorem valueAt_iter (h : Refines m s) : valueAt m.iter k = s k := by
  refine ext fun v => ?_
  rw [← mem_iff_valueAt (nodup_iter h.sound),mem_iter h]

theorem mem_range (h : Refines m s) {lo hi : Nat} :
    (k,v) ∈ m.range lo hi ↔ s k = some v ∧ lo ≤ k ∧ k < hi := by
  have hasc := h.sound.ascending
  have hcut : ∀ bound i (hi : i < m.sorted.length), i < keysBelow m.sorted bound ↔ m.sorted[i].1 < bound := by
    intro bound
    unfold keysBelow
    generalize m.sorted = l at hasc
    induction l with
    | nil => exact fun i hi => absurd hi (Nat.not_lt_zero i)
    | cons e l ih => ?_
    obtain ⟨hhead,htail⟩ := pairwise_cons.mp hasc
    intro i hi
    rw [takeWhile_cons]
    by_cases he : e.1 < bound
    · rw [if_pos (decide_eq_true he),length_cons]
      cases i with
      | zero => simpa using he
      | succ i =>
        rw [getElem_cons_succ,← ih htail i (Nat.lt_of_succ_lt_succ hi)]
        omega
    rw [if_neg (by simpa using he)]
    refine iff_of_false (Nat.not_lt_zero i) fun hlt => ?_
    cases i with
    | zero => exact he hlt
    | succ i =>
      have := hhead _ (getElem_mem (Nat.lt_of_succ_lt_succ hi))
      rw [getElem_cons_succ] at hlt
      omega
  have hslice : lo ≤ k ∧ k < hi → ((k,v) ∈ (m.sorted.drop (keysBelow m.sorted lo)).take
      (max (keysBelow m.sorted hi) (keysBelow m.sorted lo)-keysBelow m.sorted lo) ↔ (k,v) ∈ m.sorted) := by
    rintro ⟨hlo,hhi⟩
    refine ⟨fun hmem => mem_of_mem_drop (mem_of_mem_take hmem),fun hmem => ?_⟩
    obtain ⟨i,hi',heq⟩ := getElem_of_mem hmem
    have h1 := hcut lo i hi'
    have h2 := hcut hi i hi'
    rw [heq] at h1 h2
    refine mem_of_getElem? (i := i-keysBelow m.sorted lo) ?_
    rw [getElem?_take,if_pos (by omega),getElem?_drop,
      show keysBelow m.sorted lo+(i-keysBelow m.sorted lo) = i by omega,getElem?_eq_getElem hi',heq]
  rw [← mem_iter h]
  unfold PointerMap.range iter
  rw [mem_filter,decide_eq_true_eq]
  refine ⟨fun hr => ⟨?_,hr.2⟩,fun hr => ⟨?_,hr.2⟩⟩
  · exact mem_append.mpr ((mem_append.mp hr.1).imp_left (hslice hr.2).mp)
  · exact mem_append.mpr ((mem_append.mp hr.1).imp_left (hslice hr.2).mpr)

theorem nodup_range (h : Sound m) (lo hi : Nat) : ((m.range lo hi).map fst).Nodup := by
  refine List.Nodup.sublist ?_ (nodup_iter h)
  refine List.Sublist.map _ (filter_sublist.trans ?_)
  exact ((take_sublist _ _).trans (drop_sublist _ _)).append_right _

section
variable {first second : Pairs} {turns : Nat}

theorem mem_mergeLoop {e : Nat × Nat} (h : e ∈ mergeLoop turns first second) : e ∈ first ∨ e ∈ second := by
  induction turns generalizing first second with
  | zero => exact List.mem_append.mp (by simpa [mergeLoop] using h)
  | succ turns ih => ?_
  cases first with
  | nil => exact .inr (by simpa [mergeLoop] using h)
  | cons a first => ?_
  cases second with
  | nil => exact .inl (by simpa [mergeLoop] using h)
  | cons b second => ?_
  rw [mergeLoop] at h
  split at h
  · rcases List.mem_cons.mp h with rfl|h
    · exact .inl List.mem_cons_self
    · exact (ih h).imp_left (List.mem_cons_of_mem _)
  split at h
  · rcases List.mem_cons.mp h with rfl|h
    · exact .inr List.mem_cons_self
    · exact (ih h).imp_right (List.mem_cons_of_mem _)
  rcases List.mem_cons.mp h with rfl|h
  · exact .inl List.mem_cons_self
  · exact (ih h).imp (List.mem_cons_of_mem _) (List.mem_cons_of_mem _)

theorem above_head {a e : Nat × Nat} {l : Pairs} (h : Ascending (a::l)) (he : e ∈ a::l) : a.1 ≤ e.1 := by
  rcases List.mem_cons.mp he with rfl|he
  · exact le_rfl
  · exact Nat.le_of_lt ((List.pairwise_cons.mp h).1 e he)

theorem ascending_mergeLoop (h1 : Ascending first) (h2 : Ascending second)
    (hturns : first.length+second.length ≤ turns) : Ascending (mergeLoop turns first second) := by
  induction turns generalizing first second with
  | zero =>
    obtain rfl : first = [] := List.length_eq_zero_iff.mp (by omega)
    exact h2
  | succ turns ih => ?_
  cases first with
  | nil => simpa [mergeLoop] using h2
  | cons a first => ?_
  cases second with
  | nil => simpa [mergeLoop] using h1
  | cons b second => ?_
  obtain ⟨ha,h1'⟩ := List.pairwise_cons.mp h1
  obtain ⟨hb,h2'⟩ := List.pairwise_cons.mp h2
  rw [List.length_cons,List.length_cons] at hturns
  rw [mergeLoop]
  split
  · refine List.pairwise_cons.mpr ⟨fun e he => ?_,ih h1' h2 (by rw [List.length_cons]; omega)⟩
    rcases mem_mergeLoop he with he|he
    · exact ha e he
    have := above_head h2 he
    omega
  split
  · refine List.pairwise_cons.mpr ⟨fun e he => ?_,ih h1 h2' (by rw [List.length_cons]; omega)⟩
    rcases mem_mergeLoop he with he|he
    · have := above_head h1 he
      omega
    · exact hb e he
  refine List.pairwise_cons.mpr ⟨fun e he => ?_,ih h1' h2' (by omega)⟩
  rcases mem_mergeLoop he with he|he
  · exact ha e he
  have := hb e he
  omega

theorem valueAt_mergeLoop (h1 : Ascending first) (h2 : Ascending second)
    (hturns : first.length+second.length ≤ turns) :
    valueAt (mergeLoop turns first second) k = (valueAt first k).or (valueAt second k) := by
  induction turns generalizing first second with
  | zero =>
    obtain rfl : first = [] := List.length_eq_zero_iff.mp (by omega)
    rfl
  | succ turns ih => ?_
  cases first with
  | nil =>
    rw [mergeLoop]
    · rfl
    · simp
  | cons a first => ?_
  cases second with
  | nil =>
    rw [mergeLoop]
    · exact valueAt_append
    · simp
  | cons b second => ?_
  obtain ⟨ha,h1'⟩ := List.pairwise_cons.mp h1
  obtain ⟨hb,h2'⟩ := List.pairwise_cons.mp h2
  rw [List.length_cons,List.length_cons] at hturns
  rw [mergeLoop]
  split
  · rw [valueAt_cons,ih h1' h2 (by rw [List.length_cons]; omega),@valueAt_cons _ _ _ first]
    split <;> rfl
  split
  · rw [valueAt_cons,ih h1 h2' (by rw [List.length_cons]; omega),@valueAt_cons _ _ _ second]
    by_cases hk : b.1 = k
    · -- the key is below the first list
      have hnone : valueAt (a::first) k = none := by
        rw [valueAt_eq_none]
        intro hm
        obtain ⟨e,he,rfl⟩ := List.mem_map.mp hm
        have := above_head h1 he
        omega
      rw [if_pos hk,if_pos hk,hnone]
      rfl
    · rw [if_neg hk,if_neg hk]
  have heq : a.1 = b.1 := by omega
  rw [valueAt_cons,ih h1' h2' (by omega),@valueAt_cons _ _ _ first,@valueAt_cons _ _ _ second,← heq]
  split <;> rfl

end

/-- The map of two passes, `s` first: each value goes one step through `t`, and the keys that `s` lacks are those
of `t`. -/
def composed (s t : Nat → Option Nat) (k : Nat) : Option Nat :=
  match s k with
  | some v => some ((t v).getD v)
  | none => t k

theorem content_of_isEmpty (h : Refines next t) (hempty : next.isEmpty = true) (k : Nat) : t k = none := by
  unfold PointerMap.isEmpty at hempty
  rw [Bool.and_eq_true,List.isEmpty_iff,List.all_eq_true] at hempty
  have hiter : next.iter = [] := by
    unfold iter shardPairs
    rw [hempty.1,List.nil_append,List.flatMap_eq_nil_iff]
    intro shard hshard
    rw [List.isEmpty_iff.mp (hempty.2 shard hshard)]
    rfl
  rw [← valueAt_iter h,hiter]
  rfl

theorem iter_of_isSortedForm (h : m.isSortedForm = true) : m.iter = m.sorted := by
  unfold PointerMap.isSortedForm at h
  rw [Bool.and_eq_true,List.all_eq_true] at h
  have hpairs : shardPairs m.shards = [] := by
    unfold shardPairs
    rw [List.flatMap_eq_nil_iff]
    intro shard hshard
    rw [List.isEmpty_iff.mp (h.2 shard hshard)]
    rfl
  rw [iter,hpairs,List.append_nil]

theorem ordered_iter (h : Refines m s) (f : Nat → Nat) :
    Ascending (if m.isSortedForm then m.iter.map (fun e => (e.1,f e.2)) else sortByKey (m.iter.map fun e => (e.1,f e.2))) ∧
      ∀ k, valueAt (if m.isSortedForm then m.iter.map (fun e => (e.1,f e.2))
        else sortByKey (m.iter.map fun e => (e.1,f e.2))) k = (s k).map f := by
  have hkeys : (m.iter.map fun e => (e.1,f e.2)).map Prod.fst = m.iter.map Prod.fst := by
    rw [List.map_map]
    rfl
  have hnodup : ((m.iter.map fun e => (e.1,f e.2)).map Prod.fst).Nodup := hkeys ▸ nodup_iter h.sound
  have hvalue : ∀ k, valueAt (m.iter.map fun e => (e.1,f e.2)) k = (s k).map f := by
    intro k
    rw [valueAt_map,valueAt_iter h]
  split
  · rename_i hform
    refine ⟨?_,hvalue⟩
    have hasc : (m.iter.map Prod.fst).Pairwise (· < ·) := by
      rw [iter_of_isSortedForm hform]
      exact List.pairwise_map.mpr h.sound.ascending
    rw [← hkeys] at hasc
    exact List.pairwise_map.mp hasc
  refine ⟨ascending_insertionSort hnodup,fun k => ?_⟩
  rw [← hvalue k]
  exact valueAt_perm hnodup (List.perm_insertionSort _ _).symm

theorem setHitHook_refines (h : Refines m s) (hooked : Bool) : Refines (m.setHitHook hooked) s :=
  ⟨⟨h.sound.shards,h.sound.ascending,h.sound.apart,h.sound.index⟩,h.content⟩

theorem composeAfter_refines (h : Refines m s) (hnext : Refines next t) : Refines (m.composeAfter next) (composed s t) := by
  unfold composeAfter
  split
  · rename_i hempty
    have hsame : composed s t = s := by
      funext k
      unfold composed
      cases hk : s k with
      | none => exact content_of_isEmpty hnext hempty k
      | some v =>
        dsimp only
        rw [content_of_isEmpty hnext hempty v]
        rfl
    rw [hsame]
    exact h
  obtain ⟨hasc1,hval1⟩ := ordered_iter h fun v => (next.get v).getD v
  obtain ⟨hasc2,hval2⟩ := ordered_iter hnext id
  have hid : next.iter.map (fun e => (e.1,id e.2)) = next.iter := List.map_id _
  rw [hid] at hasc2 hval2
  obtain ⟨hsound,hcontent⟩ := setHitHook_refines
    (fromSortedUnique_refines (ascending_mergeLoop hasc1 hasc2 le_rfl)) m.hooked
  refine ⟨hsound,fun k => (hcontent k).trans ?_⟩
  rw [valueAt_mergeLoop hasc1 hasc2 le_rfl,hval1,hval2]
  unfold composed
  cases s k with
  | none => simp
  | some v =>
    rw [Option.map_some,get_eq hnext]
    rfl

theorem flatten_chunks {α : Type} {per n : Nat} {l : List α} :
    ((List.range n).map fun j => (l.drop (j*per)).take per).flatten = l.take (n*per) := by
  induction n with
  | zero => simp
  | succ n ih =>
    rw [List.range_succ,List.map_append,List.flatten_append,ih,Nat.succ_mul,List.take_add]
    simp

theorem composeAfterPar_eq (h : Refines m s) (hnext : Refines next t) (jobs : Nat) (run : Runner) :
    m.composeAfterPar next jobs run = m.composeAfter next := by
  unfold composeAfterPar
  by_cases hempty : next.isEmpty = true
  · rw [if_pos hempty,composeAfter,if_pos hempty]
  rw [if_neg hempty]
  split
  · rfl
  rename_i hfits
  rw [Bool.not_eq_true',Bool.not_eq_false] at hfits
  unfold parComposeFits at hfits
  simp only [Bool.and_eq_true,decide_eq_true_eq,Bool.not_eq_true'] at hfits
  obtain ⟨⟨⟨⟨⟨hjobs,hlen⟩,hform⟩,hform'⟩,hhook⟩,-⟩ := hfits
  have hpos : 0 < m.sorted.length := Nat.lt_of_lt_of_le (by decide) hlen
  obtain ⟨hper,-,-⟩ := SortedIndex.divCeil_bounds (show 0 < jobs by omega) hpos
  obtain ⟨hjobs',hcover,-⟩ := SortedIndex.divCeil_bounds hper hpos
  have hget : ∀ v, next.sortedGet v = next.get v := by
    intro v
    rw [sortedGet_eq hnext.sound,get_eq hnext,← valueAt_iter hnext,iter_of_isSortedForm hform']
  have hchase : (runJobs (run.order (divCeil m.sorted.length (divCeil m.sorted.length jobs)))
      (fun j => chaseJob next m.sorted (j*divCeil m.sorted.length jobs))
      (chunks (divCeil m.sorted.length jobs) (List.replicate m.sorted.length (0,0)))).flatten =
        m.sorted.map fun e => (e.1,(next.get e.2).getD e.2) := by
    generalize divCeil m.sorted.length jobs = per at hper hcover
    have hchunks : (chunks per (List.replicate m.sorted.length (0,0))).length = divCeil m.sorted.length per := by
      unfold chunks
      rw [List.length_map,List.length_range,List.length_replicate]
    rw [← hchunks,runJobs_eq,chunks,SortedIndex.mapIdx_map_range,List.length_replicate]
    have hjob : ∀ j ∈ List.range (divCeil m.sorted.length per),
        chaseJob next m.sorted (j*per) (((List.replicate m.sorted.length (0,0)).drop (j*per)).take per) =
          (((m.sorted.map fun e => (e.1,(next.get e.2).getD e.2)).drop (j*per)).take per) := by
      intro j _
      unfold chaseJob
      rw [List.length_take,List.length_drop,List.length_replicate,← List.map_drop,← List.map_take]
      have htake : (m.sorted.drop (j*per)).take (min per (m.sorted.length-j*per)) = (m.sorted.drop (j*per)).take per := by
        rw [← List.length_drop,List.take_eq_take_min.symm]
      rw [htake]
      refine List.map_congr_left fun e _ => ?_
      rw [hget]
    rw [List.map_congr_left hjob,flatten_chunks,List.take_of_length_le]
    rw [List.length_map]
    exact hcover
  have hiter := iter_of_isSortedForm hform
  have hiter' := iter_of_isSortedForm hform'
  obtain ⟨hasc1,-⟩ := ordered_iter h fun v => (next.get v).getD v
  rw [if_pos hform,hiter] at hasc1
  have hasc : Ascending (mergePreferringFirst (m.sorted.map fun e => (e.1,(next.get e.2).getD e.2)) next.sorted) :=
    ascending_mergeLoop hasc1 hnext.sound.ascending le_rfl
  dsimp only
  rw [hchase,fromSortedUniquePar_eq hasc,composeAfter,if_neg hempty]
  dsimp only
  rw [if_pos hform,if_pos hform',hiter,hiter',hhook]
  rfl

/-- What one table gets of a list of pairs. -/
def insertHome (l : Pairs) (i : Nat) (shard : Shard) : Shard :=
  (l.filter fun e => shardOf e.1 = i).foldl (fun shard e => shard.insert e.1 e.2) shard

theorem getElem?_extendShards {shards : List Shard} {l : Pairs} (i : Nat) :
    (l.foldl shardInsert shards)[i]? = shards[i]?.map (insertHome l i) := by
  induction l generalizing shards with
  | nil => exact Option.map_id'.symm
  | cons e l ih => ?_
  rw [List.foldl_cons,ih,shardInsert,List.getElem?_modify]
  unfold insertHome
  by_cases hi : shardOf e.1 = i
  · simp [hi,Function.comp_def]
  · simp [hi]

theorem extendShards_eq {shards : List Shard} {sources : List Pairs} :
    extendShards shards sources = sources.flatten.foldl shardInsert shards := by
  unfold extendShards
  rw [List.foldl_flatten]

theorem getElem?_foldSlice {sources : List Pairs} {first : Nat} {slice : List Shard} (t : Nat) :
    (foldSlice sources first slice)[t]? = slice[t]?.map (insertHome sources.flatten (first+t)) := by
  unfold foldSlice
  rw [← List.foldl_flatten]
  generalize sources.flatten = l
  induction l generalizing slice with
  | nil => exact Option.map_id'.symm
  | cons e l ih => ?_
  rw [List.foldl_cons,ih]
  dsimp only
  rcases Nat.lt_or_ge t slice.length with ht|ht
  · unfold insertHome
    by_cases hin : shardOf e.1 ≥ first ∧ shardOf e.1 < first+slice.length
    · rw [if_pos hin,List.getElem?_modify]
      by_cases hi : shardOf e.1-first = t
      · have hhome : shardOf e.1 = first+t := by omega
        simp [hhome,Function.comp_def]
      have hhome : ¬ shardOf e.1 = first+t := by omega
      simp [hi,hhome]
    have hhome : ¬ shardOf e.1 = first+t := by omega
    rw [if_neg hin]
    simp [hhome]
  have hlen : (if shardOf e.1 ≥ first ∧ shardOf e.1 < first+slice.length then
      slice.modify (shardOf e.1-first) (fun s => s.insert e.1 e.2) else slice).length = slice.length := by
    split
    · exact List.length_modify ..
    · rfl
  rw [List.getElem?_eq_none (by omega),List.getElem?_eq_none (by omega)]
  rfl

theorem flatten_foldSlice {shards : List Shard} {sources : List Pairs} {per : Nat} (hper : 0 < per)
    (hpos : 0 < shards.length) :
    ((chunks per shards).mapIdx fun i => foldSlice sources (i*per)).flatten = extendShards shards sources := by
  obtain ⟨-,hcover,-⟩ := SortedIndex.divCeil_bounds hper hpos
  have hlen : (extendShards shards sources).length = shards.length := by
    rw [extendShards_eq]
    generalize sources.flatten = l
    induction l generalizing shards with
    | nil => rfl
    | cons e l ih =>
      have hmod : (shardInsert shards e).length = shards.length := List.length_modify ..
      rw [List.foldl_cons,ih (by omega) (by rw [hmod]; exact hcover),hmod]
  have hchunk : ∀ j ∈ List.range (divCeil shards.length per),
      foldSlice sources (j*per) ((shards.drop (j*per)).take per) =
        ((extendShards shards sources).drop (j*per)).take per := by
    intro j _
    refine List.ext_getElem? fun i => ?_
    rw [getElem?_foldSlice,List.getElem?_take,List.getElem?_take,List.getElem?_drop,List.getElem?_drop,
      extendShards_eq,getElem?_extendShards]
    split <;> rfl
  rw [chunks,SortedIndex.mapIdx_map_range,List.map_congr_left hchunk,flatten_chunks,List.take_of_length_le]
  rw [hlen]
  exact hcover

theorem extend_refines (h : Refines m s) (sources : List Pairs) :
    Refines { m.thaw with shards := extendShards m.thaw.shards sources } (writeAll sources.flatten s) := by
  obtain ⟨hr,hnil⟩ := thaw_refines h
  obtain ⟨hok,hlook⟩ := insertAll hr.sound.shards shardOf_lt sources.flatten
  rw [extendShards_eq]
  refine ⟨⟨hok,hr.sound.ascending,fun k hk => ?_,hr.sound.index⟩,fun k => ?_⟩
  · rw [hnil] at hk
    cases hk
  have hshards : look shardOf m.thaw.shards = s := by
    funext j
    have := hr.content j
    rwa [PointerMap.content,valueAt_of_sorted_nil hnil,Option.none_or] at this
  change (valueAt m.thaw.sorted k).or (look shardOf (sources.flatten.foldl shardInsert m.thaw.shards) k) = _
  rw [valueAt_of_sorted_nil hnil,Option.none_or,← hshards]
  exact congrFun hlook k

theorem writeAll_of_no_pairs {sources : List Pairs} (h : (sources.map List.length).sum = 0) :
    writeAll sources.flatten s = s := by
  rw [← List.length_flatten] at h
  rw [List.length_eq_zero_iff.mp h]
  rfl

theorem length_thaw_shards (h : Refines m s) : 0 < m.thaw.shards.length := by
  rw [(thaw_refines h).1.sound.shards.count]
  decide

theorem per_pos {threads : Nat} : 0 < divCeil SHARDS (min (max threads 1) SHARDS) :=
  (SortedIndex.divCeil_bounds (by rw [SHARDS]; omega) (by decide)).1

theorem parExtendPairs_refines (h : Refines m s) (sources : List Pairs) (threads : Nat) (run : Runner) :
    Refines (m.parExtendPairs sources threads run) (writeAll sources.flatten s) := by
  unfold parExtendPairs
  split
  · rename_i hnone
    rw [writeAll_of_no_pairs hnone]
    exact h
  dsimp only
  split
  · exact extend_refines h sources
  rw [runJobs_eq,flatten_foldSlice per_pos (length_thaw_shards h)]
  exact extend_refines h sources

theorem getElem?_foldOnce {sources : List Pairs} {per : Nat} {calls : List Nat} {slices : List (List Shard × Bool)}
    (i : Nat) : (calls.foldl (foldOnce sources per) slices)[i]? = if i ∈ calls then
      slices[i]?.map fun c => if c.2 then c else (foldSlice sources (i*per) c.1,true) else slices[i]? := by
  induction calls generalizing slices with
  | nil => rfl
  | cons j calls ih => ?_
  rw [List.foldl_cons,ih,foldOnce,List.getElem?_modify]
  by_cases hji : j = i
  · subst hji
    cases hc : slices[j]? with
    | none => simp
    | some c => by_cases hdone : c.2 = true <;> by_cases hmem : j ∈ calls <;> simp [hdone,hmem]
  have hij := Ne.symm hji
  simp [hji,hij]

theorem parExtendPairsWith_refines (h : Refines m s) (sources : List Pairs) (threads : Nat) (calls : Nat → List Nat) :
    Refines (m.parExtendPairsWith sources threads calls) (writeAll sources.flatten s) := by
  unfold parExtendPairsWith
  split
  · rename_i hnone
    rw [writeAll_of_no_pairs hnone]
    exact h
  dsimp only
  split
  · exact extend_refines h sources
  generalize hper : divCeil SHARDS (min (max threads 1) SHARDS) = per
  generalize hcalls : calls ((chunks per m.thaw.shards).map fun c => (c,false)).length = order
  have hslices : ((List.range (order.foldl (foldOnce sources per)
      ((chunks per m.thaw.shards).map fun c => (c,false))).length).foldl (foldOnce sources per)
        (order.foldl (foldOnce sources per) ((chunks per m.thaw.shards).map fun c => (c,false)))).map Prod.fst =
      (chunks per m.thaw.shards).mapIdx fun i => foldSlice sources (i*per) := by
    refine List.ext_getElem? fun i => ?_
    have horder := @getElem?_foldOnce sources per order ((chunks per m.thaw.shards).map fun c => (c,false)) i
    rw [List.getElem?_map,getElem?_foldOnce,List.getElem?_mapIdx]
    rw [List.getElem?_map] at horder
    cases hc : (chunks per m.thaw.shards)[i]? with
    | none =>
      rw [hc] at horder
      simp [horder]
    | some c => ?_
    rw [hc] at horder
    have hlt : i < (order.foldl (foldOnce sources per) ((chunks per m.thaw.shards).map fun c => (c,false))).length := by
      rw [← Nat.not_le,← List.getElem?_eq_none_iff,horder]
      split <;> simp
    rw [if_pos (List.mem_range.mpr hlt),horder]
    by_cases hmem : i ∈ order <;> simp [hmem]
  rw [hslices,flatten_foldSlice (hper ▸ per_pos) (length_thaw_shards h)]
  exact extend_refines h sources

end CratonVM.Types.PointerMap
namespace CratonVM.Types
open SortedPairs ShardedMap

/-- A history of calls; the maps that are composed have histories of their own. A caller's closure stands with the
call that takes it. -/
inductive Calls where
  | new
  | fromPairsSorted (pairs : Pairs)
  | insert (calls : Calls) (k v : Nat)
  | entry (calls : Calls) (k : Nat) (alter : Option Nat → Option Nat)
  | remove (calls : Calls) (k : Nat)
  | getMut (calls : Calls) (k : Nat) (write : Nat → Nat)
  | retain (calls : Calls) (keep : Nat → Nat → Option Nat)
  | clear (calls : Calls)
  | setHitHook (calls : Calls) (hooked : Bool)
  | parExtendPairs (calls : Calls) (sources : List Pairs) (threads : Nat) (run : Runner)
  | parExtendPairsWith (calls : Calls) (sources : List Pairs) (threads : Nat) (order : Nat → List Nat)
  | composeAfter (calls next : Calls)
  | composeAfterPar (calls next : Calls) (jobs : Nat) (run : Runner)

namespace Calls
def run : Calls → PointerMap
  | new => .new
  | fromPairsSorted pairs => .fromPairsSorted pairs
  | insert c k v => (c.run.insert k v).1
  | entry c k alter => c.run.entry k alter
  | remove c k => (c.run.remove k).1
  | getMut c k write => c.run.getMut k write
  | retain c keep => c.run.retain keep
  | clear c => c.run.clear
  | setHitHook c hooked => c.run.setHitHook hooked
  | parExtendPairs c sources threads run => c.run.parExtendPairs sources threads run
  | parExtendPairsWith c sources threads order => c.run.parExtendPairsWith sources threads order
  | composeAfter c next => c.run.composeAfter next.run
  | composeAfterPar c next jobs run => c.run.composeAfterPar next.run jobs run

def map : Calls → Nat → Option Nat
  | new => fun _ => none
  | fromPairsSorted pairs => writeAll pairs fun _ => none
  | insert c k v => Function.update c.map k (some v)
  | entry c k alter => Function.update c.map k (alter (c.map k))
  | remove c k => Function.update c.map k none
  | getMut c k write => Function.update c.map k ((c.map k).map write)
  | retain c keep => fun k => (c.map k).bind (keep k)
  | clear _ => fun _ => none
  | setHitHook c _ => c.map
  | parExtendPairs c sources _ _ => writeAll sources.flatten c.map
  | parExtendPairsWith c sources _ _ => writeAll sources.flatten c.map
  | composeAfter c next => PointerMap.composed c.map next.map
  | composeAfterPar c next _ _ => PointerMap.composed c.map next.map

theorem refines (c : Calls) : c.run.Refines c.map := by
  induction c with
  | new => exact PointerMap.new_refines
  | fromPairsSorted pairs => exact PointerMap.fromPairsSorted_refines pairs
  | insert c k v ih => exact (PointerMap.insert_refines ih k v).1
  | entry c k alter ih => exact PointerMap.entry_refines ih k alter
  | remove c k ih => exact (PointerMap.remove_refines ih k).1
  | getMut c k write ih => exact PointerMap.getMut_refines ih k write
  | retain c keep ih => exact PointerMap.retain_refines ih keep
  | clear c ih => exact PointerMap.clear_refines ih
  | setHitHook c hooked ih => exact PointerMap.setHitHook_refines ih hooked
  | parExtendPairs c sources threads run ih => exact PointerMap.parExtendPairs_refines ih sources threads run
  | parExtendPairsWith c sources threads order ih => exact PointerMap.parExtendPairsWith_refines ih sources threads order
  | composeAfter c next ih ihn => exact PointerMap.composeAfter_refines ih ihn
  | composeAfterPar c next jobs run ih ihn =>
    rw [Calls.run,PointerMap.composeAfterPar_eq ih ihn]
    exact PointerMap.composeAfter_refines ih ihn

end Calls

structure Observed (m : PointerMap) (s : Nat → Option Nat) : Prop where
  get : ∀ k, m.get k = s k
  len : ∃ keys : Finset Nat, (∀ k, k ∈ keys ↔ (s k).isSome = true) ∧ m.len = keys.card
  iter : (m.iter.map Prod.fst).Nodup ∧ ∀ k v, (k,v) ∈ m.iter ↔ s k = some v
  range : ∀ lo hi, ((m.range lo hi).map Prod.fst).Nodup ∧
    ∀ k v, (k,v) ∈ m.range lo hi ↔ s k = some v ∧ lo ≤ k ∧ k < hi

theorem PointerMap.Refines.observed {m : PointerMap} {s : Nat → Option Nat} (h : m.Refines s) : Observed m s := by
  refine ⟨fun k => PointerMap.get_eq h,⟨(m.iter.map Prod.fst).toFinset,fun k => ?_,?_⟩,
    ⟨PointerMap.nodup_iter h.sound,fun k v => PointerMap.mem_iter h⟩,
    fun lo hi => ⟨PointerMap.nodup_range h.sound lo hi,fun k v => PointerMap.mem_range h⟩⟩
  · rw [List.mem_toFinset,List.mem_map,Option.isSome_iff_exists]
    constructor
    · rintro ⟨e,he,rfl⟩
      exact ⟨e.2,(PointerMap.mem_iter h).mp he⟩
    rintro ⟨v,hv⟩
    exact ⟨(k,v),(PointerMap.mem_iter h).mpr hv,rfl⟩
  · rw [List.toFinset_card_of_nodup (PointerMap.nodup_iter h.sound),List.length_map,PointerMap.length_iter]

/-- After any calls the map is seen as the finite map of the same calls; the overlay has no key of the sorted pairs;
the index finds each of these; and composing sends each key of the receiver one step through the other map and
adds the keys that the receiver lacks, serially and by jobs. -/
theorem pointer_map_form_blind (c : Calls) :
    Observed c.run c.map ∧
    (∀ k v, (c.run.insert k v).2 = c.map k ∧ (c.run.remove k).2 = c.map k) ∧
    (∀ i k v, c.run.sorted[i]? = some (k,v) → (c.run.shard k).lookup k = none ∧ c.run.sortedPos k = some i) ∧
    ∀ (next : Calls) (jobs : Nat) (run : Runner) (k : Nat),
      (c.run.composeAfter next.run).get k = (match c.map k with
        | some v => some ((next.map v).getD v)
        | none => next.map k) ∧
      (c.run.composeAfterPar next.run jobs run).get k = (c.run.composeAfter next.run).get k := by
  have h := c.refines
  refine ⟨h.observed,fun k v => ⟨(PointerMap.insert_refines h k v).2,(PointerMap.remove_refines h k).2⟩,
    fun i k v hi => ⟨?_,(PointerMap.sortedPos_eq_some h.sound).mpr ⟨v,hi⟩⟩,fun next jobs run k => ⟨?_,?_⟩⟩
  · exact h.sound.apart k (List.mem_map_of_mem (List.mem_of_getElem? hi))
  · exact PointerMap.get_eq (PointerMap.composeAfter_refines h next.refines)
  · rw [PointerMap.composeAfterPar_eq h next.refines]

/-- The key of the receiver is the one whose value is chased, not that of the argument. -/
theorem compose_after_chases_receiver : ¬ ∀ (a b : Calls) (k : Nat),
    (a.run.composeAfter b.run).get k = (match b.map k with
      | some v => some ((a.map v).getD v)
      | none => a.map k) := by
  intro h
  have hkey := h (.insert .new 0x100 0x5000) (.insert .new 0x5000 0x4000) 0x100
  have hcode : ((Calls.insert .new 0x100 0x5000).run.composeAfter (Calls.insert .new 0x5000 0x4000).run).get 0x100 =
      some 0x4000 := by decide +kernel
  rw [hcode] at hkey
  revert hkey
  decide

end CratonVM.Types
