import Mathlib

/-!
Binary search in an ascending list of numbers, and in a list of keys that need not be ascending and may
hold a key more than once.
-/
namespace CratonVM.BinarySearch
open List Option Function

def searchBetween (words : List Nat) (x : Nat) : (turns lo hi : Nat) → Option Nat
  | 0, _, _ => none
  | turns+1, lo, hi =>
    if lo < hi then
      let mid := lo+(hi-lo)/2
      match compare (words.getD mid 0) x with
      | .lt => searchBetween words x turns (mid+1) hi
      | .gt => searchBetween words x turns lo mid
      | .eq => some mid
    else none

def binarySearch (words : List Nat) (x : Nat) : Option Nat :=
  searchBetween words x words.length 0 words.length

variable {words : List Nat}

theorem searchBetween_some {x turns lo hi i : Nat} (hhi : hi ≤ words.length)
    (h : searchBetween words x turns lo hi = some i) : words[i]? = some x := by
  induction turns generalizing lo hi with
  | zero => cases h
  | succ turns ih => ?_
  rw [searchBetween] at h
  split at h
  · dsimp only at h
    split at h
    · exact ih hhi h
    · exact ih (by omega) h
    rename_i hcmp
    obtain rfl := some.inj h
    have hlt : lo+(hi-lo)/2 < words.length := by omega
    rw [← compare_eq_iff_eq.mp hcmp]
    simp [List.getD,hlt]
  · cases h

section
variable (hs : words.Pairwise (· < ·))
include hs

theorem searchBetween_none {x turns lo hi : Nat}
    (hturns : hi ≤ lo+turns) (hhi : hi ≤ words.length)
    (h : searchBetween words x turns lo hi = none) :
    ∀ i, lo ≤ i → i < hi → words[i]? ≠ some x := by
  have hmono : ∀ i j, i < j → ∀ (hj : j < words.length), words.getD i 0 < words.getD j 0 := by
    intro i j hij hj
    have := pairwise_iff_getElem.mp hs i j (by omega) hj hij
    simpa [hj,show i < words.length by omega] using this
  have hget : ∀ i, i < words.length → words[i]? = some (words.getD i 0) := by
    intro i hi
    simp [List.getD,hi]
  induction turns generalizing lo hi with
  | zero =>
    omega
  | succ turns ih => ?_
  intro i h1 h2 hix
  rw [searchBetween,if_pos (by omega)] at h
  dsimp only at h
  rw [hget i (by omega)] at hix
  have hx := some.inj hix
  split at h
  · rename_i hcmp
    have hlt := compare_lt_iff_lt.mp hcmp
    rcases Nat.lt_or_ge i (lo+(hi-lo)/2+1) with hi' | hi'
    · rcases Nat.lt_or_ge i (lo+(hi-lo)/2) with hi'' | hi''
      · have := hmono i _ hi'' (by omega)
        omega
      obtain rfl : i = lo+(hi-lo)/2 := by omega
      omega
    · exact ih (by omega) hhi h i hi' h2 (by rw [hget i (by omega),hx])
  · rename_i hcmp
    have hgt := compare_gt_iff_gt.mp hcmp
    rcases Nat.lt_or_ge i (lo+(hi-lo)/2) with hi' | hi'
    · exact ih (by omega) (by omega) h i h1 hi' (by rw [hget i (by omega),hx])
    rcases Nat.eq_or_lt_of_le hi' with rfl | hi''
    · omega
    have := hmono _ i hi'' (by omega)
    omega
  · cases h

theorem binarySearch_isSome (x : Nat) :
    (binarySearch words x).isSome = true ↔ x ∈ words := by
  cases h : binarySearch words x with
  | none => ?_
  | some i =>
    simp only [isSome_some,true_iff]
    exact mem_of_getElem? (searchBetween_some le_rfl h)
  have hnone := searchBetween_none hs (by omega) le_rfl h
  simp only [isSome_none,Bool.false_eq_true,false_iff]
  intro hmem
  obtain ⟨i,hi,rfl⟩ := getElem_of_mem hmem
  exact hnone i (Nat.zero_le _) hi (by simp [hi])

theorem binarySearch_eq_some {x i : Nat} :
    binarySearch words x = some i ↔ words[i]? = some x := by
  refine ⟨searchBetween_some le_rfl,fun h => ?_⟩
  obtain ⟨j,hj⟩ := isSome_iff_exists.mp
    ((binarySearch_isSome hs x).mpr (mem_of_getElem? h))
  have hget := searchBetween_some le_rfl hj
  obtain ⟨hi,hix⟩ := List.getElem?_eq_some_iff.mp h
  obtain ⟨hj',hjx⟩ := List.getElem?_eq_some_iff.mp hget
  have hnodup : words.Nodup := hs.imp fun hlt => Nat.ne_of_lt hlt
  rw [hj,(hnodup.getElem_inj_iff).mp (hjx.trans hix.symm)]

end

section
variable {α : Type} [LinearOrder α]

/-- Where halving the `size` keys from `base` on ends. Equal keys do not end it early. -/
def settle (keys : List α) (x : α) : (turns base size : Nat) → Nat
  | 0, base, _ => base
  | turns+1, base, size =>
    if 1 < size then
      let mid := base+size/2
      settle keys x turns (if keys[mid]?.any (x < ·) then base else mid) (size-size/2)
    else base

/-- The place of an equal key, or the place where the key belongs. -/
def searchByKey (keys : List α) (x : α) : Except Nat Nat :=
  let base := settle keys x keys.length 0 keys.length
  match keys[base]? with
  | none => .error 0
  | some k => if k = x then .ok base else .error (if k < x then base+1 else base)

/-- What a search by key promises: a hit is an equal key, and among ascending keys an equal one is hit.
Which of several equal keys that is stays open. -/
structure Searches (search : List α → α → Except Nat Nat) : Prop where
  hit : ∀ {keys x i}, search keys x = .ok i → keys[i]? = some x
  found : ∀ {keys x}, keys.Pairwise (· ≤ ·) → x ∈ keys → ∃ i, search keys x = .ok i

theorem settle_found {keys : List α} (hs : keys.Pairwise (· ≤ ·)) {x : α} {turns base size : Nat}
    (hturns : size ≤ turns+1) (hin : base+size ≤ keys.length)
    (h : ∃ j, base ≤ j ∧ j < base+size ∧ keys[j]? = some x) :
    keys[settle keys x turns base size]? = some x := by
  induction turns generalizing base size with
  | zero =>
    obtain ⟨j,hlo,hhi,hj⟩ := h
    rw [settle,show base = j by omega]
    exact hj
  | succ turns ih => ?_
  obtain ⟨j,hlo,hhi,hj⟩ := h
  rw [settle]
  split
  · dsimp only
    have hmid : base+size/2 < keys.length := by omega
    obtain ⟨hjlt,hjx⟩ := List.getElem?_eq_some_iff.mp hj
    rw [getElem?_eq_getElem hmid,any_some]
    by_cases hgt : x < keys[base+size/2]
    · -- the equal key is in front of a greater one
      rw [if_pos (decide_eq_true hgt)]
      refine ih (by omega) (by omega) ⟨j,hlo,?_,hj⟩
      by_contra hge
      rcases Nat.eq_or_lt_of_le (show base+size/2 ≤ j by omega) with heq | hlt
      · subst heq
        exact hgt.ne hjx.symm
      have hle := pairwise_iff_getElem.mp hs _ j hmid hjlt hlt
      exact absurd (hle.trans hjx.le) (not_le.mpr hgt)
    rw [if_neg (by simpa using hgt)]
    refine ih (by omega) (by omega) ?_
    by_cases hjm : base+size/2 ≤ j
    · exact ⟨j,hjm,by omega,hj⟩
    -- the middle key is between two equal ones
    have hle := pairwise_iff_getElem.mp hs j _ hjlt hmid (by omega)
    have heq := le_antisymm (not_lt.mp hgt) (hjx.symm.le.trans hle)
    exact ⟨base+size/2,le_rfl,by omega,by rw [getElem?_eq_getElem hmid,heq]⟩
  · rw [show base = j by omega]
    exact hj

theorem searches_searchByKey : Searches (searchByKey (α := α)) where
  hit := by
    intro keys x i h
    unfold searchByKey at h
    dsimp only at h
    split at h
    · cases h
    rename_i k hk
    split at h
    · rename_i heq
      cases h
      rw [hk,heq]
    · cases h
  found := by
    intro keys x hs hx
    obtain ⟨j,hj,hjx⟩ := getElem_of_mem hx
    have hget := settle_found hs (Nat.le_succ keys.length) (Nat.zero_add _).le
      ⟨j,Nat.zero_le _,by omega,List.getElem?_eq_some_iff.mpr ⟨hj,hjx⟩⟩
    refine ⟨settle keys x keys.length 0 keys.length,?_⟩
    simp only [searchByKey,hget,if_true]

end
end CratonVM.BinarySearch
namespace CratonVM.LevelSearch
variable {α : Type}

/-- So many steps lead from the top to a node. -/
inductive Deep (kids : α → List α) (top : α) : Nat → α → Prop where
  | self : Deep kids top 0 top
  | down {k : Nat} {x y : α} (h : Deep kids top k x) (hy : y ∈ kids x) : Deep kids top (k+1) y

theorem Deep.trans {kids : α → List α} {a b : α} {k l : Nat} {x : α} (h : Deep kids a k b)
    (h' : Deep kids b l x) : Deep kids a (k+l) x := by
  induction h' with
  | self => exact h
  | down _ hy ih => exact .down ih hy

/-- A level in the middle of its visit: nodes found before, `frontier` still to be visited at depth
`d+1`, `next` collected for the level after it. -/
structure Levels (kids : α → List α) (top : α) (d : Nat) (frontier next out seen : List α) :
    Prop where
  nodup : out.Nodup
  top_out : top ∉ out
  seen_iff : ∀ x, x ∈ seen ↔ x = top ∨ x ∈ out
  depth : ∀ x ∈ out, ∃ k, k ≤ d+1 ∧ Deep kids top k x
  front : ∀ y ∈ frontier, ∃ x, (x = top ∧ d = 0 ∨ x ∈ out) ∧ Deep kids top d x ∧ y ∈ kids x
  collected : ∀ y ∈ next, ∃ x ∈ out, Deep kids top (d+1) x ∧ y ∈ kids x
  waiting : ∀ x ∈ seen, ∀ y ∈ kids x, y ∈ seen ∨ y ∈ frontier ∨ y ∈ next

variable {kids : α → List α} {top : α} {d : Nat} {frontier next out seen : List α} {cid : α}

theorem levels_start (kids : α → List α) (top : α) :
    Levels kids top 0 (kids top) [] [] [top] := by
  refine ⟨by simp,by simp,by simp,by simp,fun y hy => ⟨top,.inl ⟨rfl,rfl⟩,.self,hy⟩,by simp,?_⟩
  intro x hx y hy
  obtain rfl := List.mem_singleton.mp hx
  exact .inr (.inl hy)

theorem Levels.skip (h : Levels kids top d (cid::frontier) next out seen) (hseen : cid ∈ seen) :
    Levels kids top d frontier next out seen := by
  refine ⟨h.nodup,h.top_out,h.seen_iff,h.depth,fun y hy => h.front y (by simp [hy]),h.collected,?_⟩
  intro x hx y hy
  rcases h.waiting x hx y hy with hy | hy | hy
  · exact .inl hy
  · rcases List.mem_cons.mp hy with rfl | hy
    · exact .inl hseen
    · exact .inr (.inl hy)
  · exact .inr (.inr hy)

theorem Levels.visit (h : Levels kids top d (cid::frontier) next out seen) (hnew : cid ∉ seen) :
    Levels kids top d frontier (next++kids cid) (out++[cid]) (cid::seen) := by
  have hdeep : Deep kids top (d+1) cid := by
    obtain ⟨x,-,hx,hcid⟩ := h.front cid (by simp)
    exact .down hx hcid
  have hne : cid ≠ top ∧ cid ∉ out := by
    rw [h.seen_iff,not_or] at hnew
    exact hnew
  refine ⟨?_,?_,fun x => ?_,fun x hx => ?_,fun y hy => ?_,fun y hy => ?_,fun x hx y hy => ?_⟩
  · rw [List.nodup_append]
    refine ⟨h.nodup,by simp,fun x hx y hy heq => hne.2 ?_⟩
    rwa [← List.mem_singleton.mp hy,← heq]
  · rw [List.mem_append,List.mem_singleton,not_or]
    exact ⟨h.top_out,Ne.symm hne.1⟩
  · rw [List.mem_cons,h.seen_iff,List.mem_append,List.mem_singleton]
    constructor
    · rintro (rfl | rfl | hx)
      · exact .inr (.inr rfl)
      · exact .inl rfl
      · exact .inr (.inl hx)
    rintro (rfl | hx | rfl)
    · exact .inr (.inl rfl)
    · exact .inr (.inr hx)
    · exact .inl rfl
  · rcases List.mem_append.mp hx with hx | hx
    · exact h.depth x hx
    obtain rfl := List.mem_singleton.mp hx
    exact ⟨d+1,le_rfl,hdeep⟩
  · obtain ⟨x,hx,hrest⟩ := h.front y (by simp [hy])
    exact ⟨x,hx.imp_right fun hx => by simp [hx],hrest⟩
  · rcases List.mem_append.mp hy with hy | hy
    · obtain ⟨x,hx,hrest⟩ := h.collected y hy
      exact ⟨x,by simp [hx],hrest⟩
    · exact ⟨cid,by simp,hdeep,hy⟩
  rcases List.mem_cons.mp hx with rfl | hx
  · exact .inr (.inr (by simp [hy]))
  rcases h.waiting x hx y hy with hy | hy | hy
  · exact .inl (by simp [hy])
  · rcases List.mem_cons.mp hy with rfl | hy
    · exact .inl (by simp)
    · exact .inr (.inl hy)
  · exact .inr (.inr (by simp [hy]))

theorem Levels.turn (h : Levels kids top d [] next out seen) :
    Levels kids top (d+1) next [] out seen := by
  refine ⟨h.nodup,h.top_out,h.seen_iff,fun x hx => ?_,fun y hy => ?_,by simp,fun x hx y hy => ?_⟩
  · obtain ⟨k,hk,hdeep⟩ := h.depth x hx
    exact ⟨k,by omega,hdeep⟩
  · obtain ⟨x,hx,hrest⟩ := h.collected y hy
    exact ⟨x,.inr hx,hrest⟩
  rcases h.waiting x hx y hy with hy | hy | hy
  · exact .inl hy
  · cases hy
  · exact .inr (.inl hy)

theorem Levels.complete (h : Levels kids top d [] [] out seen) {k : Nat} {x : α}
    (hx : Deep kids top k x) : x = top ∨ x ∈ out := by
  rw [← h.seen_iff]
  induction hx with
  | self => exact (h.seen_iff top).mpr (.inl rfl)
  | @down _ y z _ hy ih =>
    rcases h.waiting y ih z hy with hz | hz | hz
    · exact hz
    · cases hz
    · cases hz

/-- What waits after the first level lies on a longer way down than any node found so far; a way
back to the top makes a longer one to the node it comes from. -/
theorem Levels.deeper (h : Levels kids top (d+1) frontier [] out seen) (hne : frontier ≠ []) :
    ∃ x k, x ≠ top ∧ d+1 < k ∧ Deep kids top k x := by
  obtain ⟨y,hy⟩ := List.exists_mem_of_ne_nil frontier hne
  obtain ⟨x,hx,hdeep,hyx⟩ := h.front y hy
  by_cases hytop : y = top
  · subst hytop
    have hxout : x ∈ out := hx.resolve_left fun hbad => Nat.succ_ne_zero d hbad.2
    have hback : Deep kids x 1 y := .down .self hyx
    refine ⟨x,d+1+(1+(d+1)),fun heq => h.top_out (heq ▸ hxout),by omega,?_⟩
    exact hdeep.trans (hback.trans hdeep)
  · exact ⟨y,d+1+1,hytop,by omega,.down hdeep hyx⟩

end CratonVM.LevelSearch
namespace CratonVM.Probing
def slotAt (cap home j : Nat) : Nat := (home+j)%cap

variable {cap : Nat}

theorem slotAt_lt (hc : 0 < cap) (home j : Nat) : slotAt cap home j < cap :=
  Nat.mod_lt _ hc

theorem slotAt_succ (cap home j : Nat) :
    slotAt cap home (j+1) = (slotAt cap home j+1)%cap := by
  simp [slotAt,Nat.add_mod,← Nat.add_assoc]

theorem exists_slotAt (home : Nat) {i : Nat} (hi : i < cap) :
    ∃ j, j < cap ∧ slotAt cap home j = i := by
  have hc : 0 < cap := by omega
  have hm := Nat.mod_lt home hc
  refine ⟨(i+(cap-home%cap))%cap,Nat.mod_lt _ hc,?_⟩
  unfold slotAt
  rw [Nat.add_mod_mod]
  have hsplit := (Nat.div_add_mod home cap).symm
  have hsum : home+(i+(cap-home%cap)) = i+cap*(home/cap+1) := by
    have : cap*(home/cap+1) = cap*(home/cap)+cap := by ring
    omega
  rw [hsum,Nat.add_mul_mod_self_left,Nat.mod_eq_of_lt hi]

theorem slotAt_injective {home j k : Nat} (hj : j < cap) (hk : k < cap)
    (h : slotAt cap home j = slotAt cap home k) : j = k := by
  have hmod := Nat.ModEq.add_left_cancel' home h
  have h2 := hmod
  unfold Nat.ModEq at h2
  rwa [Nat.mod_eq_of_lt hj,Nat.mod_eq_of_lt hk] at h2

variable {κ : Type}

/-- The first `n` probes for `k` all met slots that other keys hold. -/
def Passed (cap : Nat) (home : κ → Nat) (held : Nat → Option κ) (k : κ) (n : Nat) : Prop :=
  ∀ j, j < n → ∃ k', held (slotAt cap (home k) j) = some k' ∧ k' ≠ k

/-- Every key sits in one slot, and the probes before that slot met no empty one. -/
structure Chained (cap : Nat) (home : κ → Nat) (held : Nat → Option κ) : Prop where
  before : ∀ k j, j < cap → held (slotAt cap (home k) j) = some k →
    ∀ i, i < j → (held (slotAt cap (home k) i)).isSome
  once : ∀ k i j, i < cap → j < cap → held i = some k → held j = some k → i = j

theorem passed_zero (cap : Nat) (home : κ → Nat) (held : Nat → Option κ) (k : κ) :
    Passed cap home held k 0 := by
  intro j hj; omega

variable {home : κ → Nat} {held : Nat → Option κ} {k : κ} {n : Nat}

theorem Passed.succ {k' : κ}
    (h : Passed cap home held k n) (hk : held (slotAt cap (home k) n) = some k')
    (hne : k' ≠ k) : Passed cap home held k (n+1) := by
  intro j hj
  rcases Nat.lt_succ_iff_lt_or_eq.mp hj with hj | rfl
  · exact h j hj
  · exact ⟨k',hk,hne⟩

theorem Passed.mono {held' : Nat → Option κ}
    (h : Passed cap home held k n) (hkeep : ∀ i k', held i = some k' → held' i = some k') :
    Passed cap home held' k n := by
  intro j hj
  obtain ⟨k',hk,hne⟩ := h j hj
  exact ⟨k',hkeep _ _ hk,hne⟩

theorem Chained.absent
    (h : Chained cap home held) (hp : Passed cap home held k n)
    (hempty : held (slotAt cap (home k) n) = none) {i : Nat} (hi : i < cap) :
    held i ≠ some k := by
  intro hk
  obtain ⟨j,hj,rfl⟩ := exists_slotAt (home k) hi
  rcases Nat.lt_trichotomy j n with hlt | rfl | hgt
  · obtain ⟨k',hk',hne⟩ := hp j hlt
    rw [hk] at hk'
    exact hne (Option.some.inj hk').symm
  · rw [hempty] at hk; cases hk
  have hsome := h.before k j hj hk n hgt
  rw [hempty] at hsome; cases hsome

theorem Passed.all
    (hp : Passed cap home held k cap) {i : Nat} (hi : i < cap) :
    ∃ k', held i = some k' ∧ k' ≠ k := by
  obtain ⟨j,hj,rfl⟩ := exists_slotAt (home k) hi
  exact hp j hj

theorem Chained.claim [DecidableEq κ] (h : Chained cap home held) (hn : n < cap)
    (hp : Passed cap home held k n) (hempty : held (slotAt cap (home k) n) = none) :
    Chained cap home (Function.update held (slotAt cap (home k) n) (some k)) := by
  refine ⟨?_,?_⟩
  · intro k' j hj hk' i hi
    by_cases hslot : slotAt cap (home k') i = slotAt cap (home k) n
    · rw [hslot,Function.update_self]; rfl
    rw [Function.update_of_ne hslot]
    by_cases hj' : slotAt cap (home k') j = slotAt cap (home k) n
    · rw [hj',Function.update_self] at hk'
      obtain rfl := Option.some.inj hk'
      obtain rfl := slotAt_injective hj hn hj'
      obtain ⟨k₂,hk₂,_⟩ := hp i hi
      rw [hk₂]; rfl
    rw [Function.update_of_ne hj'] at hk'
    exact h.before k' j hj hk' i hi
  intro k' i j hi hj hki hkj
  by_cases hin : i = slotAt cap (home k) n <;> by_cases hjn : j = slotAt cap (home k) n
  · rw [hin,hjn]
  · rw [hin,Function.update_self] at hki
    obtain rfl := Option.some.inj hki
    rw [Function.update_of_ne hjn] at hkj
    exact absurd hkj (h.absent hp hempty hj)
  · rw [hjn,Function.update_self] at hkj
    obtain rfl := Option.some.inj hkj
    rw [Function.update_of_ne hin] at hki
    exact absurd hki (h.absent hp hempty hi)
  rw [Function.update_of_ne hin] at hki
  rw [Function.update_of_ne hjn] at hkj
  exact h.once k' i j hi hj hki hkj

end CratonVM.Probing
