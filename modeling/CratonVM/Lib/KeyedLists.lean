import Mathlib

/-!
Sorting a list of numbers and keeping equal neighbours once: the set of its members, ascending.
-/
namespace CratonVM.SortDedup
open List Option Function Prod

/-- Equal neighbours are kept once. -/
def dedup : List Nat → List Nat
  | [] => []
  | [x] => [x]
  | x :: y :: rest => if x = y then dedup (y :: rest) else x :: dedup (y :: rest)

def sortDedup (l : List Nat) : List Nat := dedup (l.insertionSort (· ≤ ·))

theorem mem_dedup {l : List Nat} {n : Nat} : n ∈ dedup l ↔ n ∈ l := by
  induction l using dedup.induct with
  | case1 => simp [dedup]
  | case2 x => simp [dedup]
  | case3 x rest ih =>
    rw [dedup,if_pos rfl,ih]
    simp
  | case4 x y rest hne ih =>
    rw [dedup,if_neg hne,mem_cons,ih,← mem_cons]

theorem dedup_ascending {l : List Nat} (h : l.Pairwise (· ≤ ·)) : (dedup l).Pairwise (· < ·) := by
  induction l using dedup.induct with
  | case1 => exact .nil
  | case2 x => simp [dedup]
  | case3 x rest ih =>
    rw [dedup,if_pos rfl]
    exact ih (pairwise_cons.mp h).2
  | case4 x y rest hne ih => ?_
  obtain ⟨hx,hrest⟩ := pairwise_cons.mp h
  rw [dedup,if_neg hne]
  refine pairwise_cons.mpr ⟨fun z hz => ?_,ih hrest⟩
  have hxy := Nat.lt_of_le_of_ne (hx y mem_cons_self) hne
  rcases mem_cons.mp ((mem_dedup).mp hz) with rfl | hz
  · exact hxy
  · exact Nat.lt_of_lt_of_le hxy ((pairwise_cons.mp hrest).1 z hz)

theorem mem_sortDedup {l : List Nat} {n : Nat} : n ∈ sortDedup l ↔ n ∈ l := by
  rw [sortDedup,mem_dedup,(perm_insertionSort (· ≤ ·) l).mem_iff]

theorem sortDedup_ascending (l : List Nat) : (sortDedup l).Pairwise (· < ·) :=
  dedup_ascending (pairwise_insertionSort (· ≤ ·) l)

end CratonVM.SortDedup
namespace CratonVM.SortedPairs
variable {κ ν : Type} [DecidableEq κ]

def valueAt (l : List (κ × ν)) (k : κ) : Option ν := (l.find? fun e => e.1 = k).map Prod.snd

/-- The map after the writes of a list, of which the last for a key wins. -/
def writeAll (l : List (κ × ν)) (s : κ → Option ν) : κ → Option ν :=
  l.foldl (fun s e => Function.update s e.1 (some e.2)) s

section
variable {l l' : List (κ × ν)} {k : κ} {v : ν} {e : κ × ν}

theorem valueAt_cons : valueAt (e::l) k = if e.1 = k then some e.2 else valueAt l k := by
  unfold valueAt
  by_cases h : e.1 = k <;> simp [h]

theorem valueAt_append : valueAt (l++l') k = (valueAt l k).or (valueAt l' k) := by
  induction l with
  | nil => simp [valueAt]
  | cons e l ih =>
    rw [List.cons_append,valueAt_cons,valueAt_cons,ih]
    by_cases h : e.1 = k <;> simp [h]

theorem valueAt_eq_none : valueAt l k = none ↔ k ∉ l.map Prod.fst := by
  induction l with
  | nil => simp [valueAt]
  | cons e l ih => ?_
  rw [valueAt_cons,List.map_cons,List.mem_cons]
  by_cases h : e.1 = k
  · simp [h]
  rw [if_neg h,ih]
  tauto

theorem mem_of_valueAt (h : valueAt l k = some v) : (k,v) ∈ l := by
  induction l with
  | nil => cases h
  | cons e l ih => ?_
  rw [valueAt_cons] at h
  split at h
  · rename_i hk
    rw [← hk,← Option.some.inj h]
    exact List.mem_cons_self
  · exact List.mem_cons_of_mem _ (ih h)

theorem mem_iff_valueAt (hnodup : (l.map Prod.fst).Nodup) : (k,v) ∈ l ↔ valueAt l k = some v := by
  refine ⟨fun h => ?_,mem_of_valueAt⟩
  induction l with
  | nil => cases h
  | cons e l ih => ?_
  rw [List.map_cons,List.nodup_cons] at hnodup
  rw [valueAt_cons]
  rcases List.mem_cons.mp h with rfl|h
  · exact if_pos rfl
  rw [if_neg (fun he => hnodup.1 (List.mem_map.mpr ⟨(k,v),h,he.symm⟩))]
  exact ih hnodup.2 h

theorem valueAt_perm (hnodup : (l.map Prod.fst).Nodup) (h : l.Perm l') : valueAt l' k = valueAt l k := by
  have hnodup' := (h.map Prod.fst).nodup_iff.mp hnodup
  refine Option.ext fun v => ?_
  rw [← mem_iff_valueAt hnodup,← mem_iff_valueAt hnodup']
  exact h.mem_iff.symm

theorem valueAt_map (f : ν → ν) : valueAt (l.map fun e => (e.1,f e.2)) k = (valueAt l k).map f := by
  induction l with
  | nil => rfl
  | cons e l ih =>
    rw [List.map_cons,valueAt_cons,valueAt_cons,ih]
    split <;> rfl

end

section
variable {l l' : List (κ × ν)} {s : κ → Option ν} {k : κ}

/-- The last value that a list gives a key. -/
def lastAt (l : List (κ × ν)) (k : κ) : Option ν := ((l.filter fun e => e.1 = k).getLast?).map Prod.snd

theorem writeAll_eq : writeAll l s k = (lastAt l k).or (s k) := by
  induction l using List.reverseRecOn generalizing k with
  | nil => rfl
  | append_singleton l e ih => ?_
  rw [writeAll,List.foldl_append,List.foldl_cons,List.foldl_nil,lastAt,List.filter_append]
  by_cases h : e.1 = k
  · subst h
    simp
  rw [Function.update_of_ne (Ne.symm h)]
  change writeAll l s k = _
  rw [ih,lastAt]
  simp [h]

theorem writeAll_congr (h : ∀ k, l.filter (fun e => e.1 = k) = l'.filter fun e => e.1 = k) :
    writeAll l s = writeAll l' s := by
  funext k
  rw [writeAll_eq,writeAll_eq,lastAt,lastAt,h k]

theorem writeAll_of_nodup (hnodup : (l.map Prod.fst).Nodup) : writeAll l s k = (valueAt l k).or (s k) := by
  induction l generalizing s with
  | nil => rfl
  | cons e l ih => ?_
  rw [List.map_cons,List.nodup_cons] at hnodup
  change writeAll l (Function.update s e.1 (some e.2)) k = _
  rw [ih hnodup.2,valueAt_cons]
  by_cases h : e.1 = k
  · subst h
    rw [(valueAt_eq_none).mpr hnodup.1]
    simp
  · rw [Function.update_of_ne (Ne.symm h),if_neg h]

end

section
variable {l : List (κ × ν)} [LinearOrder κ]

def Ascending (l : List (κ × ν)) : Prop := l.Pairwise fun a b => a.1 < b.1

omit [DecidableEq κ] in
theorem Ascending.nodup (h : Ascending l) : (l.map Prod.fst).Nodup :=
  List.pairwise_map.mpr (h.imp fun hab => ne_of_lt hab)

end

section
variable {l : List (Nat × ν)} {e : Nat × ν} {k : Nat}

theorem filter_orderedInsert : (l.orderedInsert (fun a b => a.1 ≤ b.1) e).filter (fun e => e.1 = k) =
    (e::l).filter fun e => e.1 = k := by
  induction l with
  | nil => rfl
  | cons b l ih => ?_
  rw [List.orderedInsert]
  split
  · rfl
  rw [List.filter_cons,ih,List.filter_cons,List.filter_cons,List.filter_cons]
  by_cases hk : e.1 = k
  · -- what is passed over has a smaller key
    have hb : b.1 ≠ k := by omega
    simp [hb,hk]
  · simp [hk]

theorem filter_insertionSort :
    (l.insertionSort fun a b => a.1 ≤ b.1).filter (fun e => e.1 = k) = l.filter fun e => e.1 = k := by
  induction l with
  | nil => rfl
  | cons e l ih => rw [List.insertionSort_cons,filter_orderedInsert,List.filter_cons,ih,List.filter_cons]

theorem sorted_insertionSort : (l.insertionSort fun a b => a.1 ≤ b.1).Pairwise fun a b => a.1 ≤ b.1 := by
  have : Std.Total fun a b : Nat × ν => a.1 ≤ b.1 := ⟨fun a b => Nat.le_total a.1 b.1⟩
  have : IsTrans (Nat × ν) fun a b => a.1 ≤ b.1 := ⟨fun _ _ _ => Nat.le_trans⟩
  exact List.pairwise_insertionSort _ l

theorem ascending_insertionSort (hnodup : (l.map Prod.fst).Nodup) :
    Ascending (l.insertionSort fun a b => a.1 ≤ b.1) := by
  have hperm := List.perm_insertionSort (fun a b : Nat × ν => a.1 ≤ b.1) l
  have hnodup' := (hperm.map Prod.fst).nodup_iff.mpr hnodup
  exact (sorted_insertionSort).imp₂ (fun _ _ hle hne => Nat.lt_of_le_of_ne hle hne) (List.pairwise_map.mp hnodup')

end
end CratonVM.SortedPairs
namespace CratonVM.Multimap
variable {α : Type}

def bucket (table : List (List α)) (key : Nat) : List α := table[key]?.getD []

def pushAt (table : List (List α)) (key : Nat) (value : α) : List (List α) :=
  table.modify key (· ++ [value])

@[simp] theorem length_pushAt (table : List (List α)) (key : Nat) (value : α) :
    (pushAt table key value).length = table.length := by
  simp [pushAt]

theorem bucket_modify {table : List (List α)} {f : List α → List α} {key other : Nat}
    (hkey : key < table.length) :
    bucket (table.modify key f) other = if other = key then f (bucket table key) else bucket table other := by
  unfold bucket
  by_cases ho : other = key
  · subst ho
    rw [if_pos rfl,List.getElem?_modify_eq,List.getElem?_eq_getElem hkey]
    rfl
  rw [if_neg ho,List.getElem?_modify]
  simp [Ne.symm ho]

theorem bucket_pushAt {table : List (List α)} {key other : Nat} (value : α)
    (hkey : key < table.length) :
    bucket (pushAt table key value) other =
      if other = key then bucket table key ++ [value] else bucket table other :=
  bucket_modify hkey

theorem bucket_append_nil (table : List (List α)) (key : Nat) :
    bucket (table ++ [[]]) key = bucket table key := by
  unfold bucket
  rcases Nat.lt_trichotomy key table.length with hk | hk | hk
  · rw [List.getElem?_append_left hk]
  · subst hk
    simp
  · rw [List.getElem?_eq_none (by simp; omega),List.getElem?_eq_none (by omega)]

theorem bucket_replicate_nil (n key : Nat) : bucket (List.replicate n ([] : List α)) key = [] := by
  unfold bucket
  rw [List.getElem?_replicate]
  split <;> rfl

variable [DecidableEq α]

/-- Take out the first occurrence; the last value fills the hole. -/
def swapRemoveFirst (values : List α) (value : α) : List α :=
  if value ∈ values then (values.set (values.idxOf value) (values.getLast?.getD value)).dropLast
  else values

theorem swapRemoveFirst_perm (values : List α) (value : α) :
    (swapRemoveFirst values value).Perm (values.erase value) := by
  unfold swapRemoveFirst
  split
  · rename_i hmem
    obtain ⟨before,after,rfl,hb⟩ := List.eq_append_cons_of_mem hmem
    have hidx : (before ++ value :: after).idxOf value = before.length := by
      rw [List.idxOf_append,if_neg hb,List.idxOf_cons_self,Nat.zero_add]
    rw [hidx,List.set_append_right _ _ le_rfl,Nat.sub_self,List.set_cons_zero,
      List.erase_append_right _ hb,List.erase_cons_head]
    rcases List.eq_nil_or_concat after with rfl | ⟨middle,last,rfl⟩
    · simp
    have hlast : (before ++ value :: middle.concat last).getLast?.getD value = last := by
      rw [List.concat_eq_append,← List.cons_append,← List.append_assoc,List.getLast?_concat]
      rfl
    rw [hlast,List.concat_eq_append,← List.cons_append,← List.append_assoc,List.dropLast_concat]
    refine (List.Perm.append_left before ?_)
    exact (List.perm_append_singleton last middle).symm
  rename_i hmem
  rw [List.erase_of_not_mem hmem]

theorem count_swapRemoveFirst (values : List α) (value other : α) :
    (swapRemoveFirst values value).count other =
      values.count other - if other = value then 1 else 0 := by
  rw [(swapRemoveFirst_perm values value).count_eq]
  by_cases ho : other = value
  · subst ho
    rw [List.count_erase_self,if_pos rfl]
  · rw [List.count_erase_of_ne ho,if_neg ho,Nat.sub_zero]

end CratonVM.Multimap
namespace CratonVM.ShardedMap
open SortedPairs
variable {κ ν : Type} [DecidableEq κ] {home : κ → Nat}

abbrev Table (κ ν : Type) := AList fun _ : κ => ν

/-- What the tables say of a key. -/
def look (home : κ → Nat) (shards : List (Table κ ν)) (k : κ) : Option ν := (shards.getD (home k) ∅).lookup k

structure Ok (home : κ → Nat) (n : Nat) (shards : List (Table κ ν)) : Prop where
  count : shards.length = n
  homes : ∀ i k, k ∈ shards.getD i ∅ → home k = i

def pairs (shards : List (Table κ ν)) : List (κ × ν) := shards.flatMap fun s => s.entries.map fun e => (e.1,e.2)

theorem getD_modify {shards : List (Table κ ν)} {f : Table κ ν → Table κ ν} {i j : Nat} (hi : i < shards.length) :
    (shards.modify i f).getD j ∅ = if i = j then f (shards.getD j ∅) else shards.getD j ∅ := by
  rw [List.getD_eq_getElem?_getD,List.getD_eq_getElem?_getD,List.getElem?_modify]
  by_cases hij : i = j
  · subst hij
    simp [hi]
  · simp [hij]

section
variable {n : Nat} {shards : List (Table κ ν)} {k : κ} {v : ν} (h : Ok home n shards) (hk : home k < n)

include h hk

theorem Ok.modify {f : Table κ ν → Table κ ν} (hf : ∀ s j, j ∈ f s → j = k ∨ j ∈ s) :
    Ok home n (shards.modify (home k) f) := by
  refine ⟨by rw [List.length_modify,h.count],fun i j hj => ?_⟩
  rw [getD_modify (h.count ▸ hk)] at hj
  split at hj
  · rename_i hi
    rcases hf _ j hj with rfl|hj
    · exact hi
    · exact h.homes i j hj
  · exact h.homes i j hj

theorem Ok.insert : Ok home n (shards.modify (home k) fun s => s.insert k v) :=
  h.modify hk fun _ _ hj => (AList.mem_insert _).mp hj

theorem Ok.erase : Ok home n (shards.modify (home k) fun s => s.erase k) :=
  h.modify hk fun _ _ hj => .inr (AList.mem_erase.mp hj).2

theorem look_insert : look home (shards.modify (home k) fun s => s.insert k v) =
    Function.update (look home shards) k (some v) := by
  funext j
  unfold look
  rw [getD_modify (h.count ▸ hk)]
  by_cases hjk : j = k
  · subst hjk
    rw [if_pos rfl,Function.update_self,AList.lookup_insert]
  rw [Function.update_of_ne hjk]
  split
  · rw [AList.lookup_insert_ne hjk]
  · rfl

theorem look_erase : look home (shards.modify (home k) fun s => s.erase k) =
    Function.update (look home shards) k none := by
  funext j
  unfold look
  rw [getD_modify (h.count ▸ hk)]
  by_cases hjk : j = k
  · subst hjk
    rw [if_pos rfl,Function.update_self,AList.lookup_erase]
  rw [Function.update_of_ne hjk]
  split
  · rw [AList.lookup_erase_ne hjk]
  · rfl

end

section
variable {n : Nat} {shards : List (Table κ ν)} (h : Ok home n shards) (hhome : ∀ k, home k < n)

theorem ok_replicate (n : Nat) : Ok home n (List.replicate n (∅ : Table κ ν)) ∧
    ∀ k, look home (List.replicate n (∅ : Table κ ν)) k = none := by
  have hget : ∀ i, (List.replicate n (∅ : Table κ ν)).getD i ∅ = ∅ := by
    intro i
    rw [List.getD_eq_getElem?_getD,List.getElem?_replicate]
    split <;> rfl
  refine ⟨⟨List.length_replicate ..,fun i k hk => ?_⟩,fun k => ?_⟩
  · rw [hget] at hk
    exact absurd hk (AList.notMem_empty k)
  rw [look,hget]
  exact AList.lookup_empty k

include h hhome

theorem insertAll (l : List (κ × ν)) :
    Ok home n (l.foldl (fun shards e => shards.modify (home e.1) fun s => s.insert e.1 e.2) shards) ∧
      look home (l.foldl (fun shards e => shards.modify (home e.1) fun s => s.insert e.1 e.2) shards) =
        writeAll l (look home shards) := by
  induction l generalizing shards with
  | nil => exact ⟨h,rfl⟩
  | cons e l ih =>
    obtain ⟨hok,hlook⟩ := ih (h.insert (hhome e.1) (v := e.2))
    refine ⟨hok,hlook.trans ?_⟩
    rw [look_insert h (hhome e.1)]
    rfl

omit hhome in
theorem Ok.map {f : Table κ ν → Table κ ν} (hf : ∀ s k, k ∈ f s → k ∈ s) (hempty : f ∅ = ∅) :
    Ok home n (shards.map f) ∧ ∀ k, look home (shards.map f) k = (f (shards.getD (home k) ∅)).lookup k := by
  have hget : ∀ i, (shards.map f).getD i ∅ = f (shards.getD i ∅) := by
    intro i
    rw [List.getD_eq_getElem?_getD,List.getD_eq_getElem?_getD,List.getElem?_map]
    cases shards[i]? with
    | none => exact hempty.symm
    | some s => rfl
  refine ⟨⟨by rw [List.length_map,h.count],fun i k hk => ?_⟩,fun k => ?_⟩
  · rw [hget] at hk
    exact h.homes i k (hf _ _ hk)
  · rw [look,hget]

theorem mem_pairs {k : κ} {v : ν} : (k,v) ∈ pairs shards ↔ look home shards k = some v := by
  unfold pairs look
  rw [List.mem_flatMap]
  constructor
  · rintro ⟨s,hs,hmem⟩
    obtain ⟨e,he,heq⟩ := List.mem_map.mp hmem
    obtain ⟨rfl,rfl⟩ := Prod.mk.inj heq
    obtain ⟨i,hi,rfl⟩ := List.getElem_of_mem hs
    have hget : shards.getD i ∅ = shards[i] := by
      rw [List.getD_eq_getElem?_getD,List.getElem?_eq_getElem hi]
      rfl
    have hkey : e.1 ∈ shards.getD i ∅ := by
      rw [hget,AList.mem_keys]
      exact List.mem_map_of_mem he
    rw [h.homes i e.1 hkey,hget]
    exact AList.mem_lookup_iff.mpr he
  intro hlook
  have hlt : home k < shards.length := h.count ▸ hhome k
  have hget : shards.getD (home k) ∅ = shards[home k] := by
    rw [List.getD_eq_getElem?_getD,List.getElem?_eq_getElem hlt]
    rfl
  rw [hget] at hlook
  refine ⟨shards[home k],List.getElem_mem hlt,List.mem_map.mpr ⟨⟨k,v⟩,?_,rfl⟩⟩
  exact AList.mem_lookup_iff.mp hlook

omit hhome in
theorem nodup_pairs : ((pairs shards).map Prod.fst).Nodup := by
  have hkeys : (pairs shards).map Prod.fst = shards.flatMap fun s => s.keys := by
    unfold pairs
    rw [List.map_flatMap]
    refine congrArg (shards.flatMap ·) (funext fun s => ?_)
    rw [List.map_map]
    rfl
  rw [hkeys,List.nodup_flatMap]
  refine ⟨fun s _ => s.keys_nodup,List.pairwise_iff_getElem.mpr fun i j hi hj hij => ?_⟩
  have hget : ∀ i (hi : i < shards.length), shards.getD i ∅ = shards[i] := by
    intro i hi
    rw [List.getD_eq_getElem?_getD,List.getElem?_eq_getElem hi]
    rfl
  intro k hki hkj
  have h1 := h.homes i k (by rw [hget i hi]; exact hki)
  have h2 := h.homes j k (by rw [hget j hj]; exact hkj)
  omega

omit [DecidableEq κ] h hhome in
theorem length_pairs : (pairs shards).length = (shards.map fun s => s.entries.length).sum := by
  unfold pairs
  rw [List.length_flatMap]
  simp

end
end CratonVM.ShardedMap
namespace CratonVM
structure FifoMap (κ ν : Type) where
  map : AList fun _ : κ => ν
  order : List κ

namespace FifoMap
variable {κ ν : Type} [DecidableEq κ] {c : FifoMap κ ν} {capacity : Nat} {key other : κ} {value : ν}

def empty : FifoMap κ ν := ⟨∅,[]⟩

def get (c : FifoMap κ ν) (key : κ) : Option ν := c.map.lookup key

def size (c : FifoMap κ ν) : Nat := c.map.keys.length

/-- Drop the key at the front of the queue. -/
def evict (c : FifoMap κ ν) : FifoMap κ ν :=
  match c.order with
  | [] => c
  | victim::order => ⟨c.map.erase victim,order⟩

def push (c : FifoMap κ ν) (key : κ) (value : ν) : FifoMap κ ν :=
  ⟨c.map.insert key value,c.order++[key]⟩

def put (capacity : Nat) (c : FifoMap κ ν) (key : κ) (value : ν) : FifoMap κ ν :=
  if key ∈ c.map then push ⟨c.map,c.order.erase key⟩ key value
  else if capacity ≤ c.size then push c.evict key value
  else push c key value

/-- The queue holds each key of the map once, and there are not too many. -/
structure Valid (capacity : Nat) (c : FifoMap κ ν) : Prop where
  perm : c.order.Perm c.map.keys
  bounded : c.size ≤ capacity

theorem valid_empty : Valid capacity (empty : FifoMap κ ν) := ⟨List.Perm.refl _,Nat.zero_le _⟩

theorem get_push : (c.push key value).get other = if other = key then some value else c.get other := by
  split
  · rename_i h
    rw [h]
    exact AList.lookup_insert c.map
  rename_i h
  exact AList.lookup_insert_ne h

theorem get_of_get_evict (h : c.evict.get other = some value) : c.get other = some value := by
  unfold evict at h
  split at h
  · exact h
  rename_i victim order _
  by_cases heq : other = victim
  · subst heq
    rw [get,AList.lookup_erase] at h
    cases h
  rw [get,AList.lookup_erase_ne heq] at h
  exact h

theorem get_put {found : ν} (h : (put capacity c key value).get other = some found) :
    other = key ∧ found = value ∨ c.get other = some found := by
  have hpush : ∀ d : FifoMap κ ν, (d.push key value).get other = some found →
      other = key ∧ found = value ∨ d.get other = some found := by
    intro d hd
    rw [get_push] at hd
    split at hd
    · rename_i heq
      exact .inl ⟨heq,(Option.some.inj hd).symm⟩
    · exact .inr hd
  unfold put at h
  split at h
  · exact hpush _ h
  split at h
  · exact (hpush _ h).imp_right get_of_get_evict
  · exact hpush _ h

theorem perm_push (hkey : key ∉ c.map) (h : c.order.Perm c.map.keys) :
    (c.push key value).order.Perm (c.push key value).map.keys := by
  have hkeys : (c.push key value).map.keys = key::c.map.keys := by
    rw [push,AList.keys_insert,List.erase_of_not_mem (mt AList.mem_keys.mpr hkey)]
  rw [hkeys]
  exact (List.perm_append_singleton key c.order).trans (h.cons key)

theorem valid_put (h : Valid capacity c) (hcapacity : 0 < capacity) :
    Valid capacity (put capacity c key value) := by
  unfold put
  split
  · rename_i hmem
    have hkeys : (c.map.insert key value).keys = key::c.map.keys.erase key := AList.keys_insert c.map
    have hin : key ∈ c.map.keys := AList.mem_keys.mp hmem
    constructor
    · show (c.order.erase key++[key]).Perm (c.map.insert key value).keys
      rw [hkeys]
      exact (List.perm_append_singleton key _).trans ((h.perm.erase key).cons key)
    show (c.map.insert key value).keys.length ≤ capacity
    rw [hkeys,List.length_cons,List.length_erase_of_mem hin]
    have := h.bounded
    unfold size at this
    omega
  rename_i hkey
  have hsize : ∀ d : FifoMap κ ν, key ∉ d.map → (d.push key value).size = d.size+1 := by
    intro d hd
    show (d.map.insert key value).keys.length = _
    rw [AList.keys_insert,List.erase_of_not_mem (mt AList.mem_keys.mpr hd)]
    rfl
  split
  · rename_i hfull
    -- the map is not empty, so there is a key at the front of the queue
    have hne : c.order ≠ [] := by
      intro hnil
      have := h.perm.length_eq
      rw [hnil] at this
      unfold size at hfull
      simp only [List.length_nil] at this
      omega
    obtain ⟨victim,order,horder⟩ := List.exists_cons_of_ne_nil hne
    have hevict : c.evict = ⟨c.map.erase victim,order⟩ := by rw [evict,horder]
    have hperm : order.Perm (c.map.erase victim).keys := by
      have := h.perm.erase victim
      rw [horder,List.erase_cons_head] at this
      rwa [AList.keys_erase]
    have hgone : key ∉ c.map.erase victim := fun hin => hkey (AList.mem_erase.mp hin).2
    have hvictim : victim ∈ c.map.keys := h.perm.subset (by rw [horder]; exact List.mem_cons_self)
    rw [hevict]
    refine ⟨perm_push hgone hperm,?_⟩
    rw [hsize _ hgone]
    show (c.map.erase victim).keys.length+1 ≤ capacity
    rw [AList.keys_erase,List.length_erase_of_mem hvictim]
    have := h.bounded
    unfold size at this
    omega
  · refine ⟨perm_push hkey h.perm,?_⟩
    rw [hsize c hkey]
    omega

end FifoMap
end CratonVM
