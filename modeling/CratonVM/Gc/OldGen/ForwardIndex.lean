import CratonVM.Lib.Searching

/-!
The forwarding table of the sliding compactions (`gc/src/old_gen/forward_index.rs`): entries in ascending order with
a directory of blocks, and the hash map that stands in when the directory would be too large.
-/
namespace CratonVM.Gc.OldGen
open List Option BinarySearch

def u32Max : Nat := 2^32-1

def usizeMax : Nat := 2^64-1

def blockShift : Nat := 9

def sparseBlocksPerEntry : Nat := 16

def sparseBlockAllowance : Nat := 2^12

/-- `first[b]` is the first entry at or above block `b`; the last element is a sentinel. -/
structure ForwardIndex where
  base : Nat
  first : List Nat
  entries : List (Nat × Nat)

namespace ForwardIndex
def block (base : Nat) (entry : Nat × Nat) : Nat := (entry.1-base) >>> blockShift

/-- `while first.len() <= b { first.push(i) }` -/
def pushUpTo (first : List Nat) (b i : Nat) : List Nat := first ++ replicate (b+1-first.length) i

/-- The directory before its sentinel, from entry `i` on. -/
def directory (base : Nat) : (entries : List (Nat × Nat)) → (i : Nat) → (first : List Nat) → List Nat
  | [], _, first => first
  | entry :: entries, i, first => directory base entries (i+1) (pushUpTo first (block base entry) i)

def saturating (n : Nat) : Nat := min n usizeMax

def blockCount (base : Nat) (entries : List (Nat × Nat)) : Nat :=
  match entries.getLast? with
  | some entry => block base entry+1
  | none => 0

/-- `none` when the entries are handed back. -/
def build (base : Nat) (entries : List (Nat × Nat)) : Option ForwardIndex :=
  if entries.length ≥ u32Max then none
  else if entries.head?.any (·.1 < base) then none
  else if ¬entries.IsChain (·.1 < ·.1) then none
  else
    let blocks := blockCount base entries
    if blocks > saturating (saturating (entries.length*sparseBlocksPerEntry)+sparseBlockAllowance) then none
    else some ⟨base,pushUpTo (directory base entries 0 []) blocks entries.length,entries⟩

def get (index : ForwardIndex) (addr : Nat) : Option Nat :=
  if addr < index.base then none
  else
    let b := (addr-index.base) >>> blockShift
    if b+1 ≥ index.first.length then none
    else
      let run := (index.entries.take (index.first.getD (b+1) 0)).drop (index.first.getD b 0)
      match searchByKey (run.map (·.1)) addr with
      | .ok i => run[i]?.map (·.2)
      | .error _ => none

end ForwardIndex

/-- The hash map is given by the entries that it is made of, the last of a key first. -/
inductive CompactDestinations where
  | hash (entries : List (Nat × Nat))
  | index (index : ForwardIndex)

namespace CompactDestinations
def fromAscending (base : Nat) (entries : List (Nat × Nat)) (useIndex : Bool) : CompactDestinations :=
  match if useIndex then ForwardIndex.build base entries else none with
  | some ix => .index ix
  | none => .hash entries.reverse

def get (d : CompactDestinations) (addr : Nat) : Option Nat :=
  match d with
  | .hash entries => (entries.find? (·.1 = addr)).map (·.2)
  | .index ix => ix.get addr

end CompactDestinations
namespace ForwardIndex
variable {base : Nat} {entries : List (Nat × Nat)} {first : List Nat}

/-- Every element of the directory parts the entries: those of lower blocks stand before it. -/
def Parts (base : Nat) (entries : List (Nat × Nat)) (first : List Nat) : Prop :=
  ∀ b f, first[b]? = some f → ∀ j e, entries[j]? = some e → (j < f ↔ block base e < b)

theorem Parts.pushUpTo (h : Parts base entries first) {b i : Nat}
    (hi : ∀ c, first.length ≤ c → c ≤ b → ∀ j e, entries[j]? = some e → (j < i ↔ block base e < c)) :
    Parts base entries (pushUpTo first b i) := by
  intro c f hf
  rw [ForwardIndex.pushUpTo] at hf
  rcases Nat.lt_or_ge c first.length with hc | hc
  · rw [getElem?_append_left hc] at hf
    exact h c f hf
  rw [getElem?_append_right hc] at hf
  obtain ⟨hlt,rfl⟩ := List.getElem?_eq_some_iff.mp hf
  rw [length_replicate] at hlt
  rw [getElem_replicate]
  exact hi c hc (by omega)

theorem length_pushUpTo (first : List Nat) (b i : Nat) : (pushUpTo first b i).length = max first.length (b+1) := by
  rw [pushUpTo,length_append,length_replicate]
  omega

section
variable (hs : entries.Pairwise (·.1 < ·.1))
include hs

theorem block_mono {i j : Nat} {e e' : Nat × Nat} (hij : i ≤ j) (he : entries[i]? = some e) (he' : entries[j]? = some e') :
    block base e ≤ block base e' := by
  rcases Nat.eq_or_lt_of_le hij with rfl | hlt
  · rw [he] at he'
    cases he'
    exact le_rfl
  obtain ⟨hi,rfl⟩ := List.getElem?_eq_some_iff.mp he
  obtain ⟨hj,rfl⟩ := List.getElem?_eq_some_iff.mp he'
  have := pairwise_iff_getElem.mp hs i j hi hj hlt
  simp only [block,Nat.shiftRight_eq_div_pow]
  exact Nat.div_le_div_right (by omega)

/-- The loop keeps the directory in order; behind it the blocks of all entries have their element. -/
theorem directory_spec {done rest : List (Nat × Nat)} (hsplit : done ++ rest = entries) (hparts : Parts base entries first)
    (hdone : ∀ e ∈ done, block base e < first.length) :
    Parts base entries (directory base rest done.length first) ∧
      ∀ e ∈ entries, block base e < (directory base rest done.length first).length := by
  induction rest generalizing done first with
  | nil =>
    rw [append_nil] at hsplit
    subst hsplit
    exact ⟨hparts,hdone⟩
  | cons entry rest ih => ?_
  have hat : entries[done.length]? = some entry := by simp [← hsplit]
  have hone : (done ++ [entry]).length = done.length+1 := by simp
  rw [directory,← hone]
  refine ih (by simp [← hsplit]) (hparts.pushUpTo fun c hc hcb j e he => ?_) fun e he => ?_
  · constructor
    · intro hj
      rw [← hsplit,getElem?_append_left hj] at he
      have := hdone e (mem_of_getElem? he)
      omega
    intro hlt
    by_contra hge
    have := @block_mono base _ hs _ _ _ _ (Nat.le_of_not_lt hge) hat he
    omega
  rw [length_pushUpTo]
  rcases mem_append.mp he with he | he
  · have := hdone e he
    omega
  obtain rfl := mem_singleton.mp he
  omega

theorem eq_of_fst_eq {e e' : Nat × Nat} (he : e ∈ entries) (he' : e' ∈ entries) (h : e.1 = e'.1) : e = e' := by
  obtain ⟨i,hi,rfl⟩ := getElem_of_mem he
  obtain ⟨j,hj,rfl⟩ := getElem_of_mem he'
  rcases Nat.lt_trichotomy i j with hij | rfl | hij
  · have := pairwise_iff_getElem.mp hs i j hi hj hij
    omega
  · rfl
  have := pairwise_iff_getElem.mp hs j i hj hi hij
  omega

/-- The part of the entries that a lookup searches has every entry of the address's block. -/
theorem get_eq_some {index : ForwardIndex} (hbase : ∀ e ∈ entries, index.base ≤ e.1) (hentries : index.entries = entries)
    (hparts : Parts index.base entries index.first) (hlen : ∀ e ∈ entries, block index.base e+1 < index.first.length)
    (addr dest : Nat) : index.get addr = some dest ↔ (addr,dest) ∈ entries := by
  constructor
  · intro h
    rw [get] at h
    split at h
    · cases h
    dsimp only at h
    split at h
    · cases h
    split at h
    · rename_i i hi
      have hkey := searches_searchByKey.hit hi
      obtain ⟨e,he,hto⟩ := map_eq_some_iff.mp h
      rw [getElem?_map,he] at hkey
      have hmem := mem_of_mem_take (mem_of_mem_drop (mem_of_getElem? he))
      rw [hentries] at hmem
      obtain rfl := some.inj hkey
      rwa [← hto]
    · cases h
  intro h
  have hle := hbase _ h
  have hblock := hlen _ h
  rw [block] at hblock
  dsimp only at hle hblock
  rw [get,if_neg (by omega)]
  dsimp only
  rw [if_neg (by omega),hentries]
  obtain ⟨lo,hlo⟩ : ∃ lo, index.first[(addr-index.base) >>> blockShift]? = some lo :=
    ⟨_,getElem?_eq_getElem (by omega)⟩
  obtain ⟨hi,hhi⟩ : ∃ hi, index.first[(addr-index.base) >>> blockShift+1]? = some hi :=
    ⟨_,getElem?_eq_getElem hblock⟩
  rw [getD_eq_getElem?_getD,getD_eq_getElem?_getD,hlo,hhi,getD_some,getD_some]
  generalize hrun : (entries.take hi).drop lo = run
  have hsub : ∀ e ∈ run, e ∈ entries := fun e he => mem_of_mem_take (mem_of_mem_drop (hrun ▸ he))
  obtain ⟨j,hj,hje⟩ := getElem_of_mem h
  have hat : entries[j]? = some (addr,dest) := by rw [getElem?_eq_getElem hj,hje]
  have hlow := hparts _ lo hlo j _ hat
  have hhigh := hparts _ hi hhi j _ hat
  dsimp only [block] at hlow hhigh
  have hmem : (addr,dest) ∈ run := by
    rw [← hrun]
    refine mem_of_getElem? (i := j-lo) ?_
    rw [getElem?_drop,show lo+(j-lo) = j by omega,getElem?_take_of_lt (by omega),hat]
  have hkeys : (run.map (·.1)).Pairwise (· ≤ ·) := by
    rw [← hrun,pairwise_map]
    exact ((hs.sublist (take_sublist _ _)).sublist (drop_sublist _ _)).imp fun h => Nat.le_of_lt h
  obtain ⟨i,hi⟩ := searches_searchByKey.found hkeys (mem_map_of_mem hmem)
  have hkey := searches_searchByKey.hit hi
  rw [hi]
  dsimp only at hkey ⊢
  rw [getElem?_map,map_eq_some_iff] at hkey
  obtain ⟨e,he,heq⟩ := hkey
  rw [he,eq_of_fst_eq hs (hsub e (mem_of_getElem? he)) h heq]
  rfl

end

theorem build_get {index : ForwardIndex} (h : build base entries = some index) (addr dest : Nat) :
    index.get addr = some dest ↔ (addr,dest) ∈ entries := by
  rw [build] at h
  split at h
  · cases h
  split at h
  · cases h
  rename_i hhead
  split at h
  · cases h
  rename_i hchain
  dsimp only at h
  split at h
  · cases h
  have hs : entries.Pairwise (·.1 < ·.1) := by
    have : Trans (fun a b : Nat × Nat => a.1 < b.1) (fun a b : Nat × Nat => a.1 < b.1) fun a b => a.1 < b.1 :=
      ⟨fun h1 h2 => Nat.lt_trans h1 h2⟩
    exact isChain_iff_pairwise.mp (not_not.mp hchain)
  obtain ⟨hparts,hblocks⟩ := @directory_spec base entries [] hs [] entries (nil_append entries)
    (fun b f hf => by simp at hf) fun e he => by simp at he
  rw [length_nil] at hparts hblocks
  obtain ⟨hb,hf,hentries⟩ : index.base = base ∧
      index.first = pushUpTo (directory base entries 0 []) (blockCount base entries) entries.length ∧
      index.entries = entries := by
    obtain rfl := some.inj h
    exact ⟨rfl,rfl,rfl⟩
  refine get_eq_some hs ?_ hentries ?_ ?_ addr dest <;> rw [hb]
  · intro e he
    cases entries with
    | nil => cases he
    | cons entry rest =>
      have hlo : base ≤ entry.1 := by simpa using hhead
      rcases mem_cons.mp he with rfl | he
      · exact hlo
      · exact Nat.le_trans hlo (Nat.le_of_lt (rel_of_pairwise_cons hs he))
  · rw [hf]
    refine hparts.pushUpTo fun c hc _ j e he => ?_
    have := hblocks e (mem_of_getElem? he)
    obtain ⟨hj,-⟩ := List.getElem?_eq_some_iff.mp he
    exact iff_of_true hj (Nat.lt_of_lt_of_le this hc)
  intro e he
  obtain ⟨j,hj,rfl⟩ := getElem_of_mem he
  have hlast : entries.getLast? = some (entries[entries.length-1]) := by
    rw [getLast?_eq_getElem?,getElem?_eq_getElem]
  have := @block_mono base _ hs _ _ _ _ (Nat.le_sub_one_of_lt hj) (getElem?_eq_getElem hj)
    (getElem?_eq_getElem (show entries.length-1 < entries.length by omega))
  rw [hf,length_pushUpTo,blockCount,hlast]
  dsimp only
  omega

end ForwardIndex

/-- A lookup finds the target of an entry and nothing else, through the index and through the map that replaces it. -/
theorem forward_index_exact (base : Nat) {entries : List (Nat × Nat)} (hs : entries.Pairwise (·.1 < ·.1)) :
    (∀ index, ForwardIndex.build base entries = some index → ∀ addr dest, index.get addr = some dest ↔ (addr,dest) ∈ entries) ∧
    ∀ useIndex addr dest, (CompactDestinations.fromAscending base entries useIndex).get addr = some dest ↔
      (addr,dest) ∈ entries := by
  refine ⟨fun index h addr dest => ForwardIndex.build_get h addr dest,fun useIndex addr dest => ?_⟩
  rw [CompactDestinations.fromAscending]
  split
  · rename_i index h
    split at h
    · exact ForwardIndex.build_get h addr dest
    · cases h
  change ((entries.reverse.find? (·.1 = addr)).map (·.2)) = some dest ↔ _
  constructor
  · intro h
    obtain ⟨e,he,rfl⟩ := map_eq_some_iff.mp h
    have hkey : e.1 = addr := by simpa using find?_some he
    rw [← hkey]
    exact mem_reverse.mp (mem_of_find?_eq_some he)
  intro h
  have hsome : (entries.reverse.find? (·.1 = addr)).isSome = true :=
    find?_isSome.mpr ⟨(addr,dest),mem_reverse.mpr h,by simp⟩
  obtain ⟨e,he⟩ := isSome_iff_exists.mp hsome
  have hkey : e.1 = addr := by simpa using find?_some he
  rw [he,ForwardIndex.eq_of_fst_eq hs (mem_reverse.mp (mem_of_find?_eq_some he)) h hkey]
  rfl

theorem forward_index_exact_pair :
    (CompactDestinations.fromAscending 4096 [(4096,4096),(8192,4160)] true).get 8192 = some 4160 :=
  ((forward_index_exact 4096 (by decide)).2 true 8192 4160).mpr (by decide)

end CratonVM.Gc.OldGen
