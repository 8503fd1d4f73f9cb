import CratonVM.Jit.LocalHomes.KeepAssigned
import CratonVM.Jit.LocalHomes.HomesProofs

/-!
The colouring of a graph of locals is proper, and a local stays without a register only if too many of its
neighbours were left when it was taken out. The graphs of the allocation are symmetric.
-/
namespace CratonVM.Jit.LocalHomes
open Bytecode List Option Finset
open Bool hiding not_and not_or true_and
open BitVec hiding not_and not_or

/-- The graph has every edge between the first `n` locals in both directions. -/
def SymmetricBelow (n : Nat) (interference : List Mask) : Prop :=
  ∀ i < n, ∀ j < n, Edge interference i j → Edge interference j i

section
variable {interference : List Mask} {n : Nat} {available : List Nat} {assignments : List (Option Nat)}
  {node reg i j : Nat} {stack : List Nat}

theorem edge_iff : Edge interference i j ↔ (interference.getD i 0).getLsbD j = true := by
  unfold Edge
  rw [getD_eq_getElem?_getD]
  cases interference[i]? <;> simp

theorem colorFor_ne (hregs : available.Nodup) (h : colorFor interference n available assignments node = some reg)
    (hj : j < n) (he : Edge interference node j) : assignments.getD j none ≠ some reg := by
  intro hassigned
  obtain ⟨⟨reg',ci⟩,hfind,rfl⟩ := map_eq_some_iff.mp h
  have hfree := find?_some hfind
  have hmem := mem_of_find?_eq_some hfind
  obtain ⟨-,hlt,heq⟩ := mem_zipIdx hmem
  rw [Nat.zero_add] at hlt
  simp only [not_eq_true',contains_eq_mem,decide_eq_false_iff_not,List.mem_filterMap,List.mem_range,not_exists,
    not_and] at hfree
  refine hfree j hj ?_
  rw [edge_iff] at he
  rw [if_pos he,hassigned,bind_some]
  simp only [Nat.sub_zero] at heq
  refine idxOf?_eq_some_iff.mpr ⟨hlt,heq.symm,fun l hl heq' => ?_⟩
  have := (List.Nodup.getElem_inj_iff hregs).mp (heq'.trans heq)
  omega

theorem colorFor_isSome {coloured : List Nat}
    (hcoloured : ∀ j reg, assignments.getD j none = some reg → j ∈ coloured)
    (hfew : (coloured.filter fun j => (interference.getD node 0).getLsbD j).length < available.length) :
    (colorFor interference n available assignments node).isSome := by
  unfold colorFor
  rw [isSome_map,find?_isSome]
  generalize hused : (List.range n).filterMap (fun j =>
    if (interference.getD node 0).getLsbD j then (assignments.getD j none).bind available.idxOf? else none) = used
  have hlen : used.length ≤ (coloured.filter fun j => (interference.getD node 0).getLsbD j).length := by
    rw [← hused,length_filterMap_eq_countP,countP_eq_length_filter]
    refine List.Subperm.length_le (List.Nodup.subperm (nodup_range.filter _) fun j hj => ?_)
    obtain ⟨-,hsome⟩ := mem_filter.mp hj
    split at hsome
    · rename_i he
      obtain ⟨ci,hci⟩ := isSome_iff_exists.mp hsome
      obtain ⟨reg,hreg,-⟩ := bind_eq_some_iff.mp hci
      exact mem_filter.mpr ⟨hcoloured j reg hreg,he⟩
    · cases hsome
  obtain ⟨ci,hlt,hnew⟩ : ∃ ci < available.length, ci ∉ used := by
    by_contra hall
    push Not at hall
    have hsub : List.range available.length ⊆ used := fun ci hci => hall ci (List.mem_range.mp hci)
    have := (nodup_range.subperm hsub).length_le
    rw [length_range] at this
    omega
  refine ⟨(available[ci],ci),?_,by simpa using hnew⟩
  exact mk_mem_zipIdx_iff_getElem?.mpr (getElem?_eq_getElem hlt)

theorem getD_set_self {l : List (Option Nat)} {a : Option Nat} (h : i < l.length) : (l.set i a).getD i none = a := by
  simp [getD_eq_getElem?_getD,h]

theorem getD_set_ne {l : List (Option Nat)} {a : Option Nat} (h : i ≠ j) : (l.set i a).getD j none = l.getD j none := by
  simp [getD_eq_getElem?_getD,getElem?_set_ne h]

theorem select_of_notMem (h : i ∉ stack) :
    (select interference n available stack assignments).getD i none = assignments.getD i none := by
  induction stack generalizing assignments with
  | nil => rfl
  | cons node stack ih => ?_
  rw [List.mem_cons,not_or] at h
  obtain ⟨hne,h⟩ := h
  rw [select]
  split
  · rw [ih h,getD_set_ne (Ne.symm hne)]
  · exact ih h

theorem select_append (later earlier : List Nat) :
    select interference n available (later++earlier) assignments =
      select interference n available earlier (select interference n available later assignments) := by
  induction later generalizing assignments with
  | nil => rfl
  | cons node later ih =>
    rw [List.cons_append,select,select]
    split
    · exact ih
    · exact ih

theorem select_length : (select interference n available stack assignments).length = assignments.length := by
  induction stack generalizing assignments with
  | nil => rfl
  | cons node stack ih =>
    rw [select]
    split
    · rw [ih,length_set]
    · exact ih

/-- No two interfering locals have one register. -/
def Apart (n : Nat) (interference : List Mask) (assignments : List (Option Nat)) : Prop :=
  ∀ i < n, ∀ j < n, ∀ reg, i ≠ j → Edge interference i j → assignments.getD i none = some reg →
    assignments.getD j none ≠ some reg

theorem select_apart (hregs : available.Nodup) (hsym : SymmetricBelow n interference) (hnodup : stack.Nodup)
    (hnew : ∀ i ∈ stack, assignments.getD i none = none) (h : Apart n interference assignments) :
    Apart n interference (select interference n available stack assignments) := by
  induction stack generalizing assignments with
  | nil => exact h
  | cons node stack ih => ?_
  obtain ⟨hnode,hnodup⟩ := nodup_cons.mp hnodup
  rw [select]
  split
  · rename_i reg hreg
    have hstay : ∀ {i}, i ≠ node → (assignments.set node (some reg)).getD i none = assignments.getD i none :=
      fun hne => getD_set_ne (Ne.symm hne)
    have hnode' : ∀ {r}, (assignments.set node (some reg)).getD node none = some r → r = reg := by
      intro r hr
      rw [getD_eq_getElem?_getD,getElem?_set_self'] at hr
      cases hget : assignments[node]? with
      | none =>
        rw [hget] at hr
        cases hr
      | some a =>
        rw [hget] at hr
        cases hr
        rfl
    refine ih hnodup (fun i hi => ?_) fun i hi j hj r hne he hir hjr => ?_
    · rw [hstay fun heq => hnode (heq ▸ hi)]
      exact hnew i (mem_cons_of_mem _ hi)
    by_cases hin : i = node
    · subst hin
      rw [hstay (Ne.symm hne)] at hjr
      cases hnode' hir
      exact colorFor_ne hregs hreg hj he hjr
    rw [hstay hin] at hir
    by_cases hjn : j = node
    · subst hjn
      cases hnode' hjr
      exact colorFor_ne hregs hreg hi (hsym i hi j hj he) hir
    rw [hstay hjn] at hjr
    exact h i hi j hj r hne he hir hjr
  · exact ih hnodup (fun i hi => hnew i (mem_cons_of_mem _ hi)) h

theorem select_isSome {later earlier : List Nat} (hnodup : (later++node::earlier).Nodup)
    (hlen : node < assignments.length) (hnew : ∀ i, assignments.getD i none = none)
    (hfew : (later.filter fun j => (interference.getD node 0).getLsbD j).length < available.length) :
    ((select interference n available (later++node::earlier) assignments).getD node none).isSome := by
  have hrest := (nodup_append.mp hnodup).2.1
  rw [select_append]
  generalize hmid : select interference n available later assignments = mid
  have hcoloured : ∀ j reg, mid.getD j none = some reg → j ∈ later := by
    intro j reg hj
    by_contra hout
    rw [← hmid,select_of_notMem hout,hnew j] at hj
    cases hj
  obtain ⟨reg,hreg⟩ := isSome_iff_exists.mp (colorFor_isSome (n := n) hcoloured hfew)
  have hmlen : node < mid.length := by rw [← hmid,select_length]; exact hlen
  rw [select,hreg]
  rw [select_of_notMem (nodup_cons.mp hrest).1,getD_set_self hmlen]
  rfl

end

section
variable {interference : List Mask} {n k node : Nat} {useCounts : List Nat} {s : Simplifying} {i j : Nat}

/-- The neighbours of a local that have not been taken out. -/
def neighboursLeft (interference : List Mask) (n : Nat) (taken : List Nat) (i : Nat) : Finset Nat :=
  (Finset.range n).filter fun j => j ∉ taken ∧ (interference.getD i 0).getLsbD j = true

theorem mem_neighboursLeft {taken : List Nat} :
    j ∈ neighboursLeft interference n taken i ↔ j < n ∧ j ∉ taken ∧ Edge interference i j := by
  rw [neighboursLeft,Finset.mem_filter,Finset.mem_range,edge_iff]

theorem foldl_cheaper_spec {is : List Nat} (best : Option Nat) (hbest : ∀ b ∈ best, s.removed.getLsbD b = false) :
    (∀ b ∈ is.foldl (cheaper useCounts s) best, s.removed.getLsbD b = false) ∧
    (is.foldl (cheaper useCounts s) best = none → ∀ i ∈ is, s.removed.getLsbD i = true) ∧
    (is.foldl (cheaper useCounts s) best = none → best = none) := by
  induction is generalizing best with
  | nil => exact ⟨hbest,fun _ => nofun,fun h => h⟩
  | cons a is ih => ?_
  have hstep : ∀ b ∈ cheaper useCounts s best a, s.removed.getLsbD b = false := by
    unfold cheaper
    cases ha : s.removed.getLsbD a with
    | true => exact hbest
    | false => ?_
    rw [if_neg Bool.false_ne_true]
    cases best with
    | none =>
      rintro b ⟨⟩
      exact ha
    | some c => ?_
    dsimp only
    split
    · rintro b ⟨⟩
      exact ha
    · exact hbest
  obtain ⟨h1,h2,h3⟩ := ih _ hstep
  have hnone : is.foldl (cheaper useCounts s) (cheaper useCounts s best a) = none →
      s.removed.getLsbD a = true ∧ best = none := by
    intro hnone
    have hc := h3 hnone
    unfold cheaper at hc
    split at hc
    · exact ⟨‹_›,hc⟩
    cases best with
    | none => cases hc
    | some c =>
      dsimp only at hc
      split at hc <;> cases hc
  refine ⟨h1,fun h i hi => ?_,fun h => (hnone h).2⟩
  rcases mem_cons.mp hi with rfl|hi
  · exact (hnone h).1
  · exact h2 h i hi

theorem nextNode_some (h : nextNode k useCounts n s = some node) : s.removed.getLsbD node = false ∧
    (∀ i < n, s.removed.getLsbD i = false → s.degrees.getD i 0 < k → s.degrees.getD node 0 < k) := by
  unfold nextNode at h
  split at h
  · rename_i found hfind
    cases h
    have hp := find?_some hfind
    rw [and_eq_true,not_eq_true',decide_eq_true_eq] at hp
    exact ⟨hp.1,fun _ _ _ _ => hp.2⟩
  rename_i hfind
  refine ⟨(foldl_cheaper_spec none nofun).1 node h,fun i hi hr hd => ?_⟩
  have := find?_eq_none.mp hfind i (List.mem_range.mpr hi)
  refine absurd ?_ this
  rw [hr,decide_eq_true hd]
  rfl

theorem nextNode_none (h : nextNode k useCounts n s = none) (hi : i < n) : s.removed.getLsbD i = true := by
  unfold nextNode at h
  split at h
  · cases h
  · exact (foldl_cheaper_spec none nofun).2.1 h i (List.mem_range.mpr hi)

/-- The stack has the nodes that have been taken out, each once. -/
structure Taken (n : Nat) (s : Simplifying) : Prop where
  nodup : s.stack.Nodup
  below : ∀ i ∈ s.stack, i < n
  removed : ∀ i < n, s.removed.getLsbD i = true ↔ i ∈ s.stack

theorem Taken.notMem_next (h : Taken n s) (hnext : nextNode k useCounts n s = some node) : node ∉ s.stack := by
  intro hin
  have hleft := (nextNode_some hnext).1
  rw [(h.removed node (nextNode_lt hnext)).mpr hin] at hleft
  cases hleft

theorem getLsbD_remove (h : node < 64) (removed : Mask) (i : Nat) :
    (removed ||| bit node).getLsbD i = true ↔ removed.getLsbD i = true ∨ i = node := by
  simp [getLsbD_bit,h]

theorem Taken.removeNode (h : Taken n s) (hn : n ≤ 64) (hnext : nextNode k useCounts n s = some node) :
    Taken n (removeNode interference s node) := by
  have hlt := nextNode_lt hnext
  refine ⟨nodup_cons.mpr ⟨h.notMem_next hnext,h.nodup⟩,fun i hi => ?_,fun i hi => ?_⟩
  · rcases mem_cons.mp hi with rfl|hi
    · exact hlt
    · exact h.below i hi
  refine (getLsbD_remove (by omega) s.removed i).trans ?_
  rw [h.removed i hi]
  exact or_comm.trans mem_cons.symm

theorem Taken.simplify {rounds : Nat} (h : Taken n s) (hn : n ≤ 64) (hrounds : n ≤ s.stack.length+rounds) :
    (simplify interference k useCounts n rounds s).stack.Perm (range n) := by
  have hall : ∀ s : Simplifying, Taken n s → (∀ i < n, i ∈ s.stack) → s.stack.Perm (range n) := fun s hs hin =>
    (perm_ext_iff_of_nodup hs.nodup nodup_range).mpr fun i =>
      ⟨fun hi => List.mem_range.mpr (hs.below i hi),fun hi => hin i (List.mem_range.mp hi)⟩
  induction rounds generalizing s with
  | zero =>
    have hsub : s.stack ⊆ range n := fun j hj => List.mem_range.mpr (h.below j hj)
    exact (h.nodup.subperm hsub).perm_of_length_le (by rw [length_range]; exact hrounds)
  | succ rounds ih => ?_
  rw [LocalHomes.simplify]
  split
  · rename_i node hnext
    refine ih (h.removeNode hn hnext) ?_
    rw [LocalHomes.removeNode,length_cons]
    omega
  rename_i hnext
  exact hall s h fun i hi => (h.removed i hi).mp (nextNode_none hnext hi)

/-- The degrees are true to what is left, and a node is taken out with `k` or more neighbours left only if all
that are left have so many. -/
structure Thinned (interference : List Mask) (n k : Nat) (s : Simplifying) : Prop extends Taken n s where
  length : s.degrees.length = n
  degrees : ∀ i < n, i ∉ s.stack → s.degrees.getD i 0 = (neighboursLeft interference n s.stack i).card
  easy : ∀ later node earlier, s.stack = later++node::earlier → ∀ i < n, i ∉ earlier →
    (neighboursLeft interference n earlier i).card < k → (neighboursLeft interference n earlier node).card < k

theorem neighboursLeft_cons {taken : List Nat} (hnode : node < n) (hnew : node ∉ taken) :
    (neighboursLeft interference n (node::taken) i).card =
      (neighboursLeft interference n taken i).card-if (interference.getD i 0).getLsbD node then 1 else 0 := by
  have heq : neighboursLeft interference n (node::taken) i = (neighboursLeft interference n taken i).erase node := by
    ext j
    simp only [mem_neighboursLeft,mem_erase,List.mem_cons,not_or]
    tauto
  rw [heq]
  split
  · rename_i he
    exact card_erase_of_mem (mem_neighboursLeft.mpr ⟨hnode,hnew,edge_iff.mpr he⟩)
  rename_i he
  rw [erase_eq_of_notMem fun hin => he (edge_iff.mp (mem_neighboursLeft.mp hin).2.2)]
  rfl

theorem Thinned.removeNode (h : Thinned interference n k s) (hn : n ≤ 64) (hsym : SymmetricBelow n interference)
    (hnext : nextNode k useCounts n s = some node) : Thinned interference n k (removeNode interference s node) := by
  have hlt := nextNode_lt hnext
  have heasy := (nextNode_some hnext).2
  have hnew := h.notMem_next hnext
  have hremoved := getLsbD_remove (show node < 64 by omega) s.removed
  refine ⟨h.toTaken.removeNode hn hnext,?_,fun i hi hout => ?_,fun later node' earlier hsplit i hi hout hlow => ?_⟩
  · exact (length_mapIdx).trans h.length
  · replace hout : i ≠ node ∧ i ∉ s.stack := by simpa [LocalHomes.removeNode] using hout
    have hget : s.degrees[i]? = some (s.degrees.getD i 0) := by
      rw [getD_eq_getElem?_getD,List.getElem?_eq_getElem (h.length.symm ▸ hi)]
      rfl
    have hlast : (interference.getD node 0 &&& ~~~(s.removed ||| bit node)).getLsbD i =
        (interference.getD i 0).getLsbD node := by
      have hkept : (s.removed ||| bit node).getLsbD i = false := by
        rw [eq_false_iff]
        intro hr
        rcases (hremoved i).mp hr with hr|hr
        · exact hout.2 ((h.removed i hi).mp hr)
        · exact hout.1 hr
      have h64 : i < 64 := by omega
      rw [getLsbD_and,getLsbD_not,hkept,Bool.eq_iff_iff]
      simp only [h64,decide_true,Bool.not_false,Bool.and_true]
      rw [← edge_iff,← edge_iff]
      exact ⟨hsym node hlt i hi,hsym i hi node hlt⟩
    have hdeg : (LocalHomes.removeNode interference s node).degrees.getD i 0 =
        s.degrees.getD i 0-if (interference.getD i 0).getLsbD node then 1 else 0 := by
      rw [LocalHomes.removeNode,getD_eq_getElem?_getD,getElem?_mapIdx,hget,map_some,getD_some,hlast]
      split <;> rfl
    rw [hdeg,h.degrees i hi hout.2]
    exact (neighboursLeft_cons hlt hnew).symm
  · cases later with
    | nil => ?_
    | cons a later => exact h.easy later node' earlier (cons.inj hsplit).2 i hi hout hlow
    obtain ⟨rfl,rfl⟩ := cons.inj hsplit
    have hleft : ∀ j < n, j ∉ s.stack → s.removed.getLsbD j = false := fun j hj hjout =>
      eq_false_iff.mpr fun hr => hjout ((h.removed j hj).mp hr)
    rw [← h.degrees i hi hout] at hlow
    rw [← h.degrees node hlt hnew]
    exact heasy i hi (hleft i hi hout) hlow

theorem Thinned.simplify {rounds : Nat} (h : Thinned interference n k s) (hn : n ≤ 64)
    (hsym : SymmetricBelow n interference) : Thinned interference n k (simplify interference k useCounts n rounds s) := by
  induction rounds generalizing s with
  | zero => exact h
  | succ rounds ih => ?_
  rw [LocalHomes.simplify]
  split
  · rename_i node hnext
    exact ih (h.removeNode hn hsym hnext)
  · exact h

theorem countOnes_eq {i : Nat} (hn : n ≤ 64) (hrow : ∀ j, Edge interference i j → j < n) :
    countOnes (interference.getD i 0) = (neighboursLeft interference n [] i).card := by
  have heq : neighboursLeft interference n [] i = ((List.range 64).filter (interference.getD i 0).getLsbD).toFinset := by
    ext j
    rw [mem_neighboursLeft,List.mem_toFinset,mem_filter,List.mem_range,edge_iff]
    refine ⟨fun ⟨hj,_,he⟩ => ⟨by omega,he⟩,fun ⟨_,he⟩ => ⟨hrow j (edge_iff.mpr he),not_mem_nil,he⟩⟩
  rw [heq,countOnes,toFinset_card_of_nodup (nodup_range.filter _)]

/-- The locals in the order in which they are taken out, the last one in front. -/
def removalStack (interference : List Mask) (numLocals k : Nat) (useCounts : List Nat) : List Nat :=
  let n := min numLocals 64
  (simplify interference k useCounts n n ⟨0,(List.range n).map fun i => countOnes (interference.getD i 0),[]⟩).stack

theorem taken_start {degrees : List Nat} : Taken n ⟨0,degrees,[]⟩ := ⟨nodup_nil,nofun,fun i _ => by simp⟩

theorem thinned_start (hn : n ≤ 64) (hrow : ∀ i < n, ∀ j, Edge interference i j → j < n) :
    Thinned interference n k ⟨0,(List.range n).map fun i => countOnes (interference.getD i 0),[]⟩ := by
  refine ⟨taken_start,by simp,fun i hi _ => ?_,fun later node earlier h => ?_⟩
  · rw [getD_eq_getElem?_getD,getElem?_map,getElem?_range hi,map_some,getD_some,
      countOnes_eq hn (hrow i hi)]
  · cases later <;> cases h

end

section
variable {interference : List Mask} {numLocals k : Nat} {available useCounts : List Nat}

theorem removalStack_perm (interference : List Mask) (numLocals k : Nat) (useCounts : List Nat) :
    (removalStack interference numLocals k useCounts).Perm (range (min numLocals 64)) :=
  (taken_start).simplify (Nat.min_le_right _ _) (Nat.le_add_left _ _)

theorem getD_replicate_none (n i : Nat) : (replicate n (none : Option Nat)).getD i none = none := by
  rw [getD_eq_getElem?_getD,getElem?_replicate]
  split <;> rfl

theorem colorGraph_eq (hk : available.length ≠ 0) : colorGraph interference numLocals available useCounts =
    select interference (min numLocals 64) available
      (removalStack interference numLocals available.length useCounts) (replicate numLocals none) := by
  unfold colorGraph removalStack
  by_cases hzero : numLocals = 0
  · subst hzero
    rfl
  dsimp only
  rw [if_neg fun h => h.elim hzero hk]

theorem colorGraph_apart (hregs : available.Nodup) (hsym : SymmetricBelow (min numLocals 64) interference) :
    Apart (min numLocals 64) interference (colorGraph interference numLocals available useCounts) := by
  have hnone : Apart (min numLocals 64) interference (replicate numLocals none) := by
    intro i _ j _ reg _ _ h
    rw [getD_replicate_none] at h
    cases h
  by_cases hk : available.length = 0
  · unfold colorGraph
    dsimp only
    rw [if_pos (.inr hk)]
    exact hnone
  rw [colorGraph_eq hk]
  exact select_apart hregs hsym ((removalStack_perm _ _ _ _).nodup_iff.mpr nodup_range)
    (fun i _ => getD_replicate_none _ _) hnone

theorem colorGraph_isSome {later earlier : List Nat} {node : Nat}
    (hsplit : removalStack interference numLocals available.length useCounts = later++node::earlier)
    (hfew : (later.filter fun j => (interference.getD node 0).getLsbD j).length < available.length) :
    ((colorGraph interference numLocals available useCounts).getD node none).isSome := by
  have hperm : (later++node::earlier).Perm (range (min numLocals 64)) := hsplit ▸ removalStack_perm _ _ _ _
  have hlt := List.mem_range.mp (hperm.mem_iff.mp (mem_append_right _ mem_cons_self))
  rw [colorGraph_eq (by omega),hsplit]
  refine select_isSome (hperm.nodup_iff.mpr nodup_range) ?_ (getD_replicate_none _) hfew
  rw [length_replicate]
  omega

theorem colorGraph_complete (hsym : SymmetricBelow (min numLocals 64) interference)
    (hrow : ∀ i < min numLocals 64, ∀ j, Edge interference i j → j < min numLocals 64)
    (hthin : ∀ part ⊆ Finset.range (min numLocals 64), part.Nonempty →
      ∃ i ∈ part, (part.filter fun j => (interference.getD i 0).getLsbD j = true).card < available.length)
    {node : Nat} (hnode : node < min numLocals 64) :
    ((colorGraph interference numLocals available useCounts).getD node none).isSome := by
  have hn : min numLocals 64 ≤ 64 := Nat.min_le_right _ _
  have hin := (removalStack_perm interference numLocals available.length useCounts).mem_iff.mpr (List.mem_range.mpr hnode)
  obtain ⟨later,earlier,hsplit⟩ := append_of_mem hin
  have hnodup : (later++node::earlier).Nodup := hsplit ▸ (removalStack_perm _ _ _ _).nodup_iff.mpr nodup_range
  obtain ⟨hlater,hrest,hdisj⟩ := nodup_append.mp hnodup
  -- what was left when the local was taken out
  let part := (Finset.range (min numLocals 64)).filter (· ∉ earlier)
  have hpart : node ∈ part := mem_filter.mpr ⟨Finset.mem_range.mpr hnode,(nodup_cons.mp hrest).1⟩
  obtain ⟨i,hi,hlow⟩ := hthin part (filter_subset _ _) ⟨node,hpart⟩
  obtain ⟨hilt,hiout⟩ := Finset.mem_filter.mp hi
  have heq : ∀ i, part.filter (fun j => (interference.getD i 0).getLsbD j = true) =
      neighboursLeft interference (min numLocals 64) earlier i := by
    intro i
    rw [neighboursLeft,Finset.filter_filter]
  rw [heq] at hlow
  have heasy := ((thinned_start hn hrow).simplify hn hsym).easy later node earlier hsplit i (Finset.mem_range.mp hilt) hiout hlow
  refine colorGraph_isSome hsplit (Nat.lt_of_le_of_lt ?_ heasy)
  rw [← toFinset_card_of_nodup (hlater.filter _)]
  refine card_le_card fun j hj => ?_
  obtain ⟨hjl,hje⟩ := mem_filter.mp (List.mem_toFinset.mp hj)
  have hjlt := (removalStack_perm _ _ _ _).mem_iff.mp (hsplit ▸ mem_append_left (node::earlier) hjl)
  exact mem_neighboursLeft.mpr ⟨List.mem_range.mp hjlt,
    fun hje => hdisj j hjl j (mem_cons_of_mem _ hje) rfl,edge_iff.mpr hje⟩

end

section
variable {n : Nat} {g : List Mask} {code : Code} {ranges : List LiveRange} {i j : Nat}

/-- A graph with a row for each of the first `n` locals and its edges in both directions. -/
def Mutual (n : Nat) (g : List Mask) : Prop := n ≤ g.length ∧ SymmetricBelow n g

theorem edge_mapIdx {f : Nat → Mask → Mask} :
    Edge (g.mapIdx f) i j ↔ ∃ row, g[i]? = some row ∧ (f i row).getLsbD j = true := by
  unfold Edge
  rw [getElem?_mapIdx]
  cases g[i]? <;> simp

theorem Mutual.addEdges {idx : Nat} {others : Mask} (h : Mutual n g) (hn : n ≤ 64) (hidx : idx < n)
    (hself : others.getLsbD idx = false) : Mutual n (addEdges n g idx others) := by
  refine ⟨(extends_addEdges g idx others).1.symm ▸ h.1,fun i hi j hj he => ?_⟩
  obtain ⟨row,hrow,hbit⟩ := (edge_mapIdx).mp he
  have hold : row.getLsbD j = true → Edge (LocalHomes.addEdges n g idx others) j i := fun hb =>
    (extends_addEdges g idx others).2 (h.2 i hi j hj ⟨row,hrow,hb⟩)
  split at hbit
  · rename_i hii
    subst hii
    rw [getLsbD_or,or_eq_true] at hbit
    rcases hbit with hb|hb
    · exact hold hb
    have hne : j ≠ i := fun heq => by
      rw [heq,hself] at hb
      cases hb
    exact (edge_addEdges h.1 hn hidx hj hne hb).2
  split at hbit
  · rename_i hne hin
    rw [getLsbD_or,or_eq_true,getLsbD_bit,and_eq_true,decide_eq_true_eq,decide_eq_true_eq] at hbit
    rcases hbit with hb|⟨-,rfl⟩
    · exact hold hb
    · exact (edge_addEdges h.1 hn hidx hi hne hin.2).1
  · exact hold hbit

theorem Mutual.addClique (h : Mutual n g) (members : Mask) (hn : n ≤ 64) : Mutual n (addClique n g members) := by
  refine ⟨(extends_addClique g members).1.symm ▸ h.1,fun i hi j hj he => ?_⟩
  obtain ⟨row,hrow,hbit⟩ := (edge_mapIdx).mp he
  have hold : row.getLsbD j = true → Edge (LocalHomes.addClique n g members) j i := fun hb =>
    (extends_addClique g members).2 (h.2 i hi j hj ⟨row,hrow,hb⟩)
  split at hbit
  · rename_i hin
    rw [getLsbD_or,or_eq_true,getLsbD_and,and_eq_true] at hbit
    rcases hbit with hb|⟨hb,hself⟩
    · exact hold hb
    have hne : j ≠ i := fun heq => by
      rw [heq,getLsbD_not,getLsbD_bit,decide_eq_true (show i < 64 by omega)] at hself
      simp at hself
    exact edge_addClique h.1 hj hne hb hin.2
  · exact hold hbit

theorem getLsbD_without (others : Mask) {idx : Nat} (h : idx < 64) : (others &&& ~~~bit idx).getLsbD idx = false := by
  simp [getLsbD_bit,h]

theorem Mutual.interferenceStep {live : Mask} (h : Mutual n g) (hn : n ≤ 64) (pc : Nat) :
    Mutual n (interferenceStep code n ranges (g,live) pc).1 := by
  unfold LocalHomes.interferenceStep defEdges
  split
  · split
    · rename_i hin
      exact h.addEdges hn hin.1 (getLsbD_without _ (by omega))
    · exact h
  · exact h

theorem Mutual.buildInterference (code : Code) (blocks : List BasicBlock) (numLocals : Nat) (ranges : List LiveRange) :
    Mutual (min numLocals 64) (buildInterference code blocks numLocals ranges) := by
  have hn : min numLocals 64 ≤ 64 := Nat.min_le_right _ _
  have hwalk : ∀ (pcs : List Nat) (s : List Mask × Mask), Mutual (min numLocals 64) s.1 →
      Mutual (min numLocals 64) (pcs.foldl (LocalHomes.interferenceStep code (min numLocals 64) ranges) s).1 := by
    intro pcs
    induction pcs with
    | nil => exact fun s h => h
    | cons pc pcs ih => exact fun s h => ih _ (h.interferenceStep hn pc)
  have hblocks : ∀ (bs : List BasicBlock) (g : List Mask), Mutual (min numLocals 64) g →
      Mutual (min numLocals 64) (bs.foldl (blockInterference code (min numLocals 64) ranges) g) := by
    intro bs
    induction bs with
    | nil => exact fun g h => h
    | cons b bs ih => exact fun g h => ih _ ((hwalk _ (g,b.liveOut) h).addClique _ hn)
  refine hblocks blocks _ ⟨by rw [length_replicate]; exact Nat.min_le_left _ _,fun i _ j _ he => ?_⟩
  obtain ⟨row,hrow,hb⟩ := he
  rw [eq_of_mem_replicate (mem_of_getElem? hrow)] at hb
  simp at hb

theorem Mutual.keepAssigned {codeLen numLocals words : Nat} {assigned : List Mask} (h : Mutual (min numLocals 64) g) :
    Mutual (min numLocals 64) (keepAssignedInterference code codeLen numLocals assigned words g) := by
  have hn : min numLocals 64 ≤ 64 := Nat.min_le_right _ _
  unfold keepAssignedInterference
  rw [Nat.min_eq_left h.1]
  generalize pcsIn code 0 codeLen = pcs
  induction pcs generalizing g with
  | nil => exact h
  | cons pc pcs ih => ?_
  refine ih ?_
  unfold keepAssignedStep
  split
  · split
    · rename_i hin
      exact (h.addClique _ hn).addEdges hn hin.1 (getLsbD_without _ (by omega))
    · exact h.addClique _ hn
  · exact h.addClique _ hn

theorem Mutual.fullInterference (code : Code) (codeLen numLocals : Nat) (params : Mask) (blocks : List BasicBlock)
    (handlers : List HandlerRange) (keepAssigned : Option (List Mask × Nat)) :
    Mutual (min numLocals 64) (fullInterference code codeLen numLocals params blocks handlers keepAssigned) := by
  have h := (Mutual.buildInterference code blocks numLocals (handlerLiveInRanges blocks handlers)).addClique
    (params &&& validMask (min numLocals 64)) (Nat.min_le_right _ _)
  cases keepAssigned with
  | none => exact h
  | some keep => exact h.keepAssigned

/-- The graph without the `float` locals. -/
def gprFiltered (n : Nat) (floatMask : Mask) (interference : List Mask) : List Mask :=
  interference.mapIdx fun i row =>
    if (i < n && floatMask.getLsbD i) = true then 0 else row &&& ~~~(floatMask &&& validMask n)

/-- The graph of the `float` locals. -/
def xmmFiltered (n : Nat) (floatMask : Mask) (interference : List Mask) : List Mask :=
  interference.mapIdx fun i row => if (i < n && floatMask.getLsbD i) = true then row &&& floatMask else 0

variable {floatMask : Mask}

theorem edge_gprFiltered (hn : n ≤ 64) (hi : i < n) (hj : j < n) :
    Edge (gprFiltered n floatMask g) i j ↔ floatMask.getLsbD i = false ∧ floatMask.getLsbD j = false ∧ Edge g i j := by
  have h64 : j < 64 := by omega
  have hvalid := getLsbD_validMask hn hj
  rw [gprFiltered,edge_mapIdx,Edge]
  cases hf : floatMask.getLsbD i with
  | true => simp [hi]
  | false =>
    simp only [hi,decide_true,Bool.and_false,if_neg Bool.false_ne_true,getLsbD_and,getLsbD_not,hvalid,h64,
      Bool.and_true,Bool.true_and,and_eq_true,not_eq_true']
    exact ⟨fun ⟨row,h1,h2,h3⟩ => ⟨trivial,h3,row,h1,h2⟩,fun ⟨_,h3,row,h1,h2⟩ => ⟨row,h1,h2,h3⟩⟩

theorem edge_xmmFiltered (hi : i < n) :
    Edge (xmmFiltered n floatMask g) i j ↔ floatMask.getLsbD i = true ∧ floatMask.getLsbD j = true ∧ Edge g i j := by
  rw [xmmFiltered,edge_mapIdx,Edge]
  cases hf : floatMask.getLsbD i with
  | false => simp
  | true =>
    simp only [hi,decide_true,Bool.and_true,if_true,getLsbD_and,and_eq_true,true_and]
    exact ⟨fun ⟨row,h1,h2,h3⟩ => ⟨h3,row,h1,h2⟩,fun ⟨h3,row,h1,h2⟩ => ⟨row,h1,h2,h3⟩⟩

theorem symmetric_gprFiltered (h : SymmetricBelow n g) (hn : n ≤ 64) :
    SymmetricBelow n (gprFiltered n floatMask g) := by
  intro i hi j hj he
  obtain ⟨h1,h2,he⟩ := (edge_gprFiltered hn hi hj).mp he
  exact (edge_gprFiltered hn hj hi).mpr ⟨h2,h1,h i hi j hj he⟩

theorem symmetric_xmmFiltered (h : SymmetricBelow n g) :
    SymmetricBelow n (xmmFiltered n floatMask g) := by
  intro i hi j hj he
  obtain ⟨h1,h2,he⟩ := (edge_xmmFiltered hi).mp he
  exact (edge_xmmFiltered hj).mpr ⟨h2,h1,h i hi j hj he⟩

end

section
variable {code : Code} {codeLen numLocals : Nat} {loops : List (Nat × Nat)} {gprRegs fpRegs : List Nat}
  {interference : List Mask} {i reg : Nat}

theorem colorLocals_eq : colorLocals code codeLen numLocals loops gprRegs fpRegs interference =
    ((colorGraph (gprFiltered (min numLocals 64) (findFloatLocals code codeLen) interference) numLocals gprRegs
        ((countUses code codeLen numLocals loops).mapIdx fun i c =>
          if (i < min numLocals 64 && (findFloatLocals code codeLen).getLsbD i) = true then 0 else c)).mapIdx fun i a =>
      if (i < min numLocals 64 && (findFloatLocals code codeLen).getLsbD i) = true then none else a,
    (colorGraph (xmmFiltered (min numLocals 64) (findFloatLocals code codeLen) interference) numLocals fpRegs
        (countUses code codeLen numLocals loops)).mapIdx fun i a =>
      if (i < min numLocals 64 && (findFloatLocals code codeLen).getLsbD i &&
        !(findFloatLocals code codeLen &&& findNonFloatLocals code codeLen).getLsbD i) = true then a else none) := rfl

theorem getD_mapIdx_ite {l : List (Option Nat)} (keep : Nat → Bool) {f : Nat → Option Nat → Option Nat}
    (hf : ∀ i a, f i a = if keep i then a else none) (h : (l.mapIdx f).getD i none = some reg) :
    keep i = true ∧ l.getD i none = some reg := by
  rw [getD_eq_getElem?_getD,getElem?_mapIdx] at h
  rw [getD_eq_getElem?_getD]
  cases hl : l[i]? with
  | none =>
    rw [hl] at h
    cases h
  | some a =>
    rw [hl,map_some,getD_some,hf] at h
    split at h
    · exact ⟨‹_›,h⟩
    · cases h

theorem colorLocals_gpr
    (h : (colorLocals code codeLen numLocals loops gprRegs fpRegs interference).1.getD i none = some reg) :
    (findFloatLocals code codeLen).getLsbD i = false ∧
      (colorGraph (gprFiltered (min numLocals 64) (findFloatLocals code codeLen) interference) numLocals gprRegs
        ((countUses code codeLen numLocals loops).mapIdx fun i c =>
          if (i < min numLocals 64 && (findFloatLocals code codeLen).getLsbD i) = true then 0 else c)).getD i none =
        some reg := by
  have hlt := colorLocals_lt (.inl h)
  rw [colorLocals_eq] at h
  obtain ⟨hkeep,h⟩ := getD_mapIdx_ite
    (fun i => !(i < min numLocals 64 && (findFloatLocals code codeLen).getLsbD i)) (fun i a => by
      cases (decide (i < min numLocals 64) && (findFloatLocals code codeLen).getLsbD i) <;> rfl) h
  rw [decide_eq_true hlt,Bool.true_and,not_eq_true'] at hkeep
  exact ⟨hkeep,h⟩

theorem colorLocals_xmm
    (h : (colorLocals code codeLen numLocals loops gprRegs fpRegs interference).2.getD i none = some reg) :
    (findFloatLocals code codeLen).getLsbD i = true ∧
      (colorGraph (xmmFiltered (min numLocals 64) (findFloatLocals code codeLen) interference) numLocals fpRegs
        (countUses code codeLen numLocals loops)).getD i none = some reg := by
  obtain ⟨hkeep,h⟩ := getD_mapIdx_ite _ (fun i a => rfl) h
  rw [and_eq_true,and_eq_true] at hkeep
  exact ⟨hkeep.1.2,h⟩

theorem respectsInterference_of_apart {assignments : List (Option Nat)} {n : Nat}
    (h : ∀ i j reg, i < j → j < n → Edge interference i j → assignments.getD i none = some reg →
      assignments.getD j none ≠ some reg) : respectsInterference assignments interference n = true := by
  unfold respectsInterference
  rw [List.all_eq_true]
  intro i _
  split
  · rfl
  rename_i reg hi
  rw [List.all_eq_true]
  intro j hj
  rw [not_eq_true',eq_false_iff]
  intro hbad
  rw [and_eq_true,and_eq_true,decide_eq_true_eq,beq_iff_eq] at hbad
  exact h i j reg hbad.1.1 (List.mem_range.mp hj) (edge_iff.mpr hbad.1.2) hi hbad.2

theorem regallocInvariantsHold_colorLocals (hg : gprRegs.Nodup) (hf : fpRegs.Nodup)
    (hsym : SymmetricBelow (min numLocals 64) interference) :
    regallocInvariantsHold (colorLocals code codeLen numLocals loops gprRegs fpRegs interference).1
      (colorLocals code codeLen numLocals loops gprRegs fpRegs interference).2 interference
      (findFloatLocals code codeLen) numLocals = true := by
  have hn : min numLocals 64 ≤ 64 := Nat.min_le_right _ _
  unfold regallocInvariantsHold
  dsimp only
  rw [and_eq_true,and_eq_true,and_eq_true,List.all_eq_true,List.all_eq_true]
  refine ⟨⟨⟨fun i _ => ?_,fun i _ => ?_⟩,?_⟩,?_⟩
  · rw [not_eq_true',eq_false_iff]
    intro hboth
    rw [and_eq_true,isSome_iff_exists,isSome_iff_exists] at hboth
    obtain ⟨⟨r,hr⟩,r',hr'⟩ := hboth
    exact absurd ((colorLocals_gpr hr).1.symm.trans (colorLocals_xmm hr').1) false_ne_true
  · rw [and_eq_true,not_eq_true',not_eq_true',eq_false_iff,eq_false_iff]
    refine ⟨fun hbad => ?_,fun hbad => ?_⟩
    · rw [and_eq_true,isSome_iff_exists] at hbad
      obtain ⟨hfl,r,hr⟩ := hbad
      rw [(colorLocals_gpr hr).1] at hfl
      cases hfl
    rw [and_eq_true,isSome_iff_exists] at hbad
    obtain ⟨hfl,r,hr⟩ := hbad
    rw [(colorLocals_xmm hr).1] at hfl
    cases hfl
  · refine respectsInterference_of_apart fun i j reg hij hj he hi hjr => ?_
    have hlt : i < min numLocals 64 := by omega
    obtain ⟨hfi,hi⟩ := colorLocals_gpr hi
    obtain ⟨hfj,hjr⟩ := colorLocals_gpr hjr
    exact colorGraph_apart hg (symmetric_gprFiltered hsym hn) i hlt j hj reg (Nat.ne_of_lt hij)
      ((edge_gprFiltered hn hlt hj).mpr ⟨hfi,hfj,he⟩) hi hjr
  refine respectsInterference_of_apart fun i j reg hij hj he hi hjr => ?_
  have hlt : i < min numLocals 64 := by omega
  obtain ⟨hfi,hi⟩ := colorLocals_xmm hi
  obtain ⟨hfj,hjr⟩ := colorLocals_xmm hjr
  exact colorGraph_apart hf (symmetric_xmmFiltered hsym) i hlt j hj reg (Nat.ne_of_lt hij)
    ((edge_xmmFiltered hlt).mpr ⟨hfi,hfj,he⟩) hi hjr

end

/-- A symmetric relation on locals without loops. -/
structure InterferenceOn (numLocals : Nat) (interference : List Mask) : Prop where
  symmetric : SymmetricBelow numLocals interference
  irreflexive : ∀ i < numLocals, ¬Edge interference i i
  below : ∀ i < numLocals, ∀ j, Edge interference i j → j < numLocals

/-- The colouring is proper and spills only for cause, and the allocation never rejects its own colouring. -/
theorem color_graph_proper_and_complete :
    (∀ (interference : List Mask) (numLocals : Nat) (available useCounts : List Nat), numLocals ≤ 64 → available.Nodup →
      InterferenceOn numLocals interference →
      (∀ i < numLocals, ∀ j < numLocals, ∀ reg, Edge interference i j →
        (colorGraph interference numLocals available useCounts).getD i none = some reg →
        (colorGraph interference numLocals available useCounts).getD j none ≠ some reg) ∧
      (removalStack interference numLocals available.length useCounts).Perm (range numLocals) ∧
      (∀ later node earlier, removalStack interference numLocals available.length useCounts = later++node::earlier →
        (later.filter fun j => (interference.getD node 0).getLsbD j).length < available.length →
        ((colorGraph interference numLocals available useCounts).getD node none).isSome) ∧
      ((∀ part ⊆ Finset.range numLocals, part.Nonempty →
        ∃ i ∈ part, (part.filter fun j => (interference.getD i 0).getLsbD j = true).card < available.length) →
        ∀ i < numLocals, ((colorGraph interference numLocals available useCounts).getD i none).isSome)) ∧
    ∀ (code : Code) (codeLen numLocals numParams : Nat) (paramSlots : List Nat) (loops : List (Nat × Nat))
      (gprRegs fpRegs : List Nat) (handlers : List HandlerRange) (keepAssigned : Option (List Mask × Nat)),
      gprRegs.Nodup → fpRegs.Nodup →
      let params := paramLiveInMask numParams paramSlots
      let blocks := (solveLiveness ((buildCfgWithHandlers code codeLen handlers).map (computeGenKill code)) params).1
      let interference := fullInterference code codeLen numLocals params blocks handlers keepAssigned
      let n := min numLocals 64
      SymmetricBelow n interference ∧
      SymmetricBelow n (gprFiltered n (findFloatLocals code codeLen) interference) ∧
      SymmetricBelow n (xmmFiltered n (findFloatLocals code codeLen) interference) ∧
      regallocInvariantsHold (colorLocals code codeLen numLocals loops gprRegs fpRegs interference).1
        (colorLocals code codeLen numLocals loops gprRegs fpRegs interference).2 interference
        (findFloatLocals code codeLen) numLocals = true := by
  refine ⟨fun interference numLocals available useCounts hle hregs hon => ?_,
    fun code codeLen numLocals numParams paramSlots loops gprRegs fpRegs handlers keepAssigned hg hf => ?_⟩
  · have hmin := Nat.min_eq_left hle
    have hsym : SymmetricBelow (min numLocals 64) interference := hmin.symm ▸ hon.symmetric
    refine ⟨fun i hi j hj reg he => ?_,?_,fun later node earlier => colorGraph_isSome,
      fun hthin i hi => colorGraph_complete hsym ?_ ?_ (hmin.symm ▸ hi)⟩
    · have hne : i ≠ j := fun heq => hon.irreflexive i hi (heq ▸ he)
      exact colorGraph_apart hregs hsym i (hmin.symm ▸ hi) j (hmin.symm ▸ hj) reg hne he
    · have hperm := removalStack_perm interference numLocals available.length useCounts
      rwa [hmin] at hperm
    · rw [hmin]
      exact hon.below
    rw [hmin]
    exact hthin
  have hsym := (Mutual.fullInterference code codeLen numLocals (paramLiveInMask numParams paramSlots)
    (solveLiveness ((buildCfgWithHandlers code codeLen handlers).map (computeGenKill code))
      (paramLiveInMask numParams paramSlots)).1 handlers keepAssigned).2
  exact ⟨hsym,symmetric_gprFiltered hsym (Nat.min_le_right _ _),symmetric_xmmFiltered hsym,
    regallocInvariantsHold_colorLocals hg hf hsym⟩

/-- Two registers are enough for a path of three locals. -/
theorem color_graph_path : InterferenceOn 3 [2,5,2] ∧ ∀ i < 3, ((colorGraph [2,5,2] 3 [3,12] [1,1,1]).getD i none).isSome := by
  have hedge : ∀ i < 3, ∀ j, Edge [2,5,2] i j → j < 3 := by
    intro i hi j he
    rw [edge_iff] at he
    have hj := lt_of_getLsbD he
    revert he
    revert i j
    decide
  have hon : InterferenceOn 3 [2,5,2] := by
    refine ⟨fun i hi j hj => ?_,fun i hi => ?_,hedge⟩
    · rw [edge_iff,edge_iff]
      revert i j
      decide
    rw [edge_iff]
    revert i
    decide
  refine ⟨hon,(color_graph_proper_and_complete.1 [2,5,2] 3 [3,12] [1,1,1] (by decide) (by decide) hon).2.2.2 fun part hpart => ?_⟩
  revert part
  decide

end CratonVM.Jit.LocalHomes
