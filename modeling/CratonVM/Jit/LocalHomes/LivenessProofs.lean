import CratonVM.Jit.LocalHomes.CfgProofs

/-!
A converged liveness solution covers every path, and the interference graph has an edge between a
definition and every local that is live behind it.
-/
namespace CratonVM.Jit.LocalHomes
open Bytecode List
open BitVec hiding or_assoc or_comm

theorem getLsbD_bit (i j : Nat) : (bit i).getLsbD j = (decide (i < 64) && decide (j = i)) := by
  unfold bit
  rw [getLsbD_twoPow]
  by_cases h : i = j
  · subst h
    simp
  have h' : j ≠ i := fun e => h e.symm
  simp [h,h']

variable {y : Nat} {blocks : List BasicBlock}

theorem getLsbD_unionLiveIn {idxs : List Nat} :
    (unionLiveIn blocks idxs).getLsbD y = true ↔
      ∃ i ∈ idxs, ∃ b, blocks[i]? = some b ∧ b.liveIn.getLsbD y = true := by
  have hacc : ∀ acc : Mask, (idxs.foldl (fun live i =>
      live ||| ((blocks[i]?).map BasicBlock.liveIn).getD 0) acc).getLsbD y = true ↔
      acc.getLsbD y = true ∨ ∃ i ∈ idxs, ∃ b, blocks[i]? = some b ∧ b.liveIn.getLsbD y = true := by
    induction idxs with
    | nil => simp
    | cons i idxs ih => ?_
    intro acc
    rw [foldl_cons,ih,getLsbD_or,Bool.or_eq_true,or_assoc]
    refine or_congr_right ?_
    cases hb : blocks[i]? with
    | none => simp [hb]
    | some b => simp [hb]
  rw [unionLiveIn,hacc]
  simp

/-- The block without its solution. -/
def BasicBlock.shape (b : BasicBlock) : BasicBlock := { b with liveIn := 0, liveOut := 0 }

/-- The equations of liveness hold of a block. -/
def Balanced (blocks : List BasicBlock) (b : BasicBlock) : Prop :=
  b.liveOut = unionLiveIn blocks b.successors ∧
    b.liveIn = b.gen ||| (b.liveOut &&& ~~~b.kill) ||| unionLiveIn blocks b.handlerSuccessors

theorem visitBlock_shape (s : List BasicBlock × Bool) (i : Nat) :
    (visitBlock s i).1.map BasicBlock.shape = s.1.map BasicBlock.shape := by
  unfold visitBlock
  cases hb : s.1[i]? with
  | none => rfl
  | some b => ?_
  dsimp only
  split
  · rw [map_set]
    refine ext_getElem? fun j => ?_
    rw [getElem?_set]
    split
    · rename_i hij
      subst hij
      obtain ⟨hlt,hget⟩ := List.getElem?_eq_some_iff.mp hb
      simp [hlt,hget,BasicBlock.shape]
    · rfl
  · rfl

theorem visitBlock_false {s : List BasicBlock × Bool} {i : Nat} (h : (visitBlock s i).2 = false) :
    visitBlock s i = s ∧ ∀ b, s.1[i]? = some b → Balanced s.1 b := by
  unfold visitBlock at h ⊢
  cases hb : s.1[i]? with
  | none => exact ⟨rfl,fun _ hb => by cases hb⟩
  | some b => ?_
  simp only [hb] at h
  dsimp only
  split at h
  · cases h
  rename_i heq
  obtain ⟨hin,hout⟩ := not_or.mp heq
  rw [if_neg heq]
  refine ⟨rfl,fun b' hb' => ?_⟩
  cases hb'
  have hout := not_not.mp hout
  refine ⟨hout.symm,?_⟩
  rw [← hout]
  exact (not_not.mp hin).symm

theorem foldl_visitBlock_false {is : List Nat} {s : List BasicBlock × Bool}
    (h : (is.foldl visitBlock s).2 = false) :
    is.foldl visitBlock s = s ∧ ∀ i ∈ is, ∀ b, s.1[i]? = some b → Balanced s.1 b := by
  induction is generalizing s with
  | nil => exact ⟨rfl,by simp⟩
  | cons i is ih => ?_
  rw [foldl_cons] at h ⊢
  obtain ⟨hrest,hall⟩ := ih h
  rw [hrest] at h
  obtain ⟨hsame,hbal⟩ := visitBlock_false h
  rw [hsame] at hrest hall ⊢
  refine ⟨hrest,fun j hj => ?_⟩
  rcases mem_cons.mp hj with rfl | hj
  · exact hbal
  · exact hall j hj

theorem sweep_shape (blocks : List BasicBlock) :
    (sweep blocks).1.map BasicBlock.shape = blocks.map BasicBlock.shape := by
  have hall : ∀ (is : List Nat) (s : List BasicBlock × Bool),
      (is.foldl visitBlock s).1.map BasicBlock.shape = s.1.map BasicBlock.shape := by
    intro is
    induction is with
    | nil => exact fun _ => rfl
    | cons i is ih =>
      intro s
      rw [foldl_cons,ih,visitBlock_shape]
  exact hall _ (blocks,false)

theorem sweep_false (h : (sweep blocks).2 = false) :
    (sweep blocks).1 = blocks ∧ ∀ b ∈ blocks, Balanced blocks b := by
  unfold sweep at h ⊢
  obtain ⟨hsame,hall⟩ := foldl_visitBlock_false h
  rw [hsame]
  refine ⟨rfl,fun b hb => ?_⟩
  obtain ⟨i,hi,hget⟩ := mem_iff_getElem.mp hb
  exact hall i (by simp [hi]) b (List.getElem?_eq_some_iff.mpr ⟨hi,hget⟩)

theorem sweeps_spec {fuel : Nat} {solved : List BasicBlock}
    (h : sweeps fuel blocks = (solved,true)) :
    solved.map BasicBlock.shape = blocks.map BasicBlock.shape ∧ ∀ b ∈ solved, Balanced solved b := by
  induction fuel generalizing blocks with
  | zero => cases h
  | succ fuel ih => ?_
  unfold sweeps at h
  have hshape := sweep_shape blocks
  split at h
  · rename_i blocks' hsweep
    rw [hsweep] at hshape
    obtain ⟨hsame,hbal⟩ := ih h
    exact ⟨hsame.trans hshape,hbal⟩
  rename_i blocks' hsweep
  cases h
  have hflag : (sweep blocks).2 = false := by rw [hsweep]
  obtain ⟨hsame,hbal⟩ := sweep_false hflag
  rw [hsweep] at hsame
  subst hsame
  exact ⟨rfl,hbal⟩

variable {code : Code} {n : Nat} {ranges : List LiveRange}

def liveFrom (code : Code) (n : Nat) (ranges : List LiveRange) (b : BasicBlock) (pc : Nat) : Mask :=
  (pcsIn code pc b.endPc).foldr (liveBefore code n ranges) b.liveOut

variable {pc : Nat} {b : BasicBlock}

theorem liveFrom_of_lt (h : pc < b.endPc) :
    liveFrom code n ranges b pc =
      liveBefore code n ranges pc (liveFrom code n ranges b (pc+step code pc)) := by
  unfold liveFrom
  rw [pcsIn_eq_cons h,foldr_cons]

theorem liveFrom_of_le (h : b.endPc ≤ pc) :
    liveFrom code n ranges b pc = b.liveOut := by
  unfold liveFrom
  rw [pcsIn_eq_nil h,foldr_nil]

theorem getLsbD_handlerLiveMask : (handlerLiveMask pc ranges).getLsbD y = true ↔
    ∃ r ∈ ranges, (r.startPc ≤ pc ∧ pc < r.endPc) ∧ r.liveIn.getLsbD y = true := by
  have hacc : ∀ acc : Mask, (ranges.foldl (fun mask r =>
      if pc ≥ r.startPc ∧ pc < r.endPc then mask ||| r.liveIn else mask) acc).getLsbD y = true ↔
      acc.getLsbD y = true ∨
        ∃ r ∈ ranges, (r.startPc ≤ pc ∧ pc < r.endPc) ∧ r.liveIn.getLsbD y = true := by
    induction ranges with
    | nil => simp
    | cons r ranges ih => ?_
    intro acc
    rw [foldl_cons,ih]
    split
    · rename_i hin
      rw [getLsbD_or,Bool.or_eq_true,or_assoc]
      refine or_congr_right ?_
      simp [hin.1,hin.2]
    rename_i hout
    refine or_congr_right ?_
    simp only [mem_cons,exists_eq_or_imp]
    constructor
    · exact .inr
    rintro (⟨hin,_⟩ | h)
    · exact absurd hin hout
    · exact h
  rw [handlerLiveMask,hacc]
  simp

/-- What is live before an instruction: what it reads, what handlers read, and what is live behind it
and it does not define. -/
theorem getLsbD_liveBefore {live : Mask} (hn : n ≤ 64) :
    (liveBefore code n ranges pc live).getLsbD y = true ↔
      (handlerLiveMask pc ranges).getLsbD y = true ∨
      (∃ a, localAccess code pc = some a ∧ a.idx < n ∧ a.isUse = true ∧ y = a.idx) ∨
      live.getLsbD y = true ∧
        ¬ ∃ a, localAccess code pc = some a ∧ a.idx < n ∧ a.isUse = false ∧ a.isDef = true ∧ y = a.idx := by
  unfold liveBefore
  cases ha : localAccess code pc with
  | none => simp [or_comm]
  | some a => ?_
  obtain ⟨idx,isUse,isDef⟩ := a
  by_cases hidx : idx < n
  · have h64 : idx < 64 := by omega
    have hbit := getLsbD_bit idx y
    cases isUse <;> cases isDef <;> simp [hidx,h64,hbit,or_comm]
    refine or_congr_left (and_congr_right fun hlive => ?_)
    simp [lt_of_getLsbD hlive]
  · simp [hidx,or_comm]

variable {sets : Mask × Mask}

theorem genKillStep_gen (h : sets.1.getLsbD y = true) :
    (genKillStep code sets pc).1.getLsbD y = true := by
  unfold genKillStep
  split
  · split
    · dsimp only
      split
      · simp [h]
      · exact h
    · exact h
  · exact h

variable {a : LocalAccess}

theorem genKillStep_use
    (ha : localAccess code pc = some a) (hidx : a.idx < 64) (huse : a.isUse = true)
    (hkill : sets.2.getLsbD a.idx = false) : (genKillStep code sets pc).1.getLsbD a.idx = true := by
  have hnone : sets.2 &&& bit a.idx = 0 := by
    refine eq_of_getLsbD_eq fun j _ => ?_
    rw [getLsbD_and,getLsbD_bit]
    by_cases hj : j = a.idx
    · simp [hj,hkill]
    · simp [hj]
  unfold genKillStep
  simp [ha,hidx,huse,hnone,getLsbD_bit]

theorem genKillStep_kill
    (h : (genKillStep code sets pc).2.getLsbD y = true) : sets.2.getLsbD y = true ∨
      ∃ a, localAccess code pc = some a ∧ a.isDef = true ∧ y = a.idx := by
  unfold genKillStep at h
  split at h
  · rename_i a ha
    split at h
    · dsimp only at h
      split at h
      · rename_i hdef
        rw [getLsbD_or,getLsbD_bit,Bool.or_eq_true,Bool.and_eq_true,decide_eq_true_eq,
          decide_eq_true_eq] at h
        rcases h with h | ⟨_,rfl⟩
        · exact .inl h
        · exact .inr ⟨a,ha,hdef,rfl⟩
      · exact .inl h
    · exact .inl h
  · exact .inl h

theorem foldl_genKillStep_gen {pcs : List Nat}
    (h : sets.1.getLsbD y = true) : (pcs.foldl (genKillStep code) sets).1.getLsbD y = true := by
  induction pcs generalizing sets with
  | nil => exact h
  | cons pc pcs ih => exact ih (genKillStep_gen h)

/-- What the backward walk finds live is upward exposed, or live behind the walk and not defined in
it, or read by a handler. -/
theorem walk_le_genKill (hn : n ≤ 64) {pcs : List Nat} (sets : Mask × Mask) {out : Mask}
    (hy : y < n) (h : (pcs.foldr (liveBefore code n ranges) out).getLsbD y = true) :
    (pcs.foldl (genKillStep code) sets).1.getLsbD y = true ∨ sets.2.getLsbD y = true ∨
      (out.getLsbD y = true ∧ (pcs.foldl (genKillStep code) sets).2.getLsbD y = false) ∨
      ∃ pc ∈ pcs, (handlerLiveMask pc ranges).getLsbD y = true := by
  induction pcs generalizing sets with
  | nil =>
    cases hk : sets.2.getLsbD y with
    | true => exact .inr (.inl rfl)
    | false => exact .inr (.inr (.inl ⟨h,hk⟩))
  | cons pc pcs ih => ?_
  rw [foldr_cons,getLsbD_liveBefore hn] at h
  have huse : ∀ a, localAccess code pc = some a → a.isUse = true → y = a.idx →
      ((pc :: pcs).foldl (genKillStep code) sets).1.getLsbD y = true ∨ sets.2.getLsbD y = true := by
    rintro a ha hu rfl
    cases hk : sets.2.getLsbD a.idx with
    | true => exact .inr rfl
    | false =>
      rw [foldl_cons]
      exact .inl (foldl_genKillStep_gen (genKillStep_use ha (by omega) hu hk))
  rcases h with hmask | ⟨a,ha,_,hu,rfl⟩ | ⟨hlive,hdef⟩
  · exact .inr (.inr (.inr ⟨pc,by simp,hmask⟩))
  · rcases huse a ha hu rfl with hgen | hkill
    · exact .inl hgen
    · exact .inr (.inl hkill)
  rcases ih (genKillStep code sets pc) hlive with hgen | hkill | hout | ⟨q,hq,hmask⟩
  · exact .inl hgen
  · rcases genKillStep_kill hkill with hkill | ⟨a,ha,hd,rfl⟩
    · exact .inr (.inl hkill)
    -- an `iinc` reads before it defines
    have hu : a.isUse = true := by
      by_contra hu
      exact hdef ⟨a,ha,hy,by simpa using hu,hd,rfl⟩
    rcases huse a ha hu rfl with hgen | hkill
    · exact .inl hgen
    · exact .inr (.inl hkill)
  · exact .inr (.inr (.inl hout))
  · exact .inr (.inr (.inr ⟨q,by simp [hq],hmask⟩))

def Edge (interference : List Mask) (i j : Nat) : Prop :=
  ∃ row, interference[i]? = some row ∧ row.getLsbD j = true

def Extends (before after : List Mask) : Prop :=
  after.length = before.length ∧ ∀ {i j}, Edge before i j → Edge after i j

theorem Extends.refl (g : List Mask) : Extends g g := ⟨rfl,fun h => h⟩

variable {g : List Mask}

theorem Extends.trans {g' g'' : List Mask} (h : Extends g g') (h' : Extends g' g'') :
    Extends g g'' := ⟨h'.1.trans h.1,fun e => h'.2 (h.2 e)⟩

theorem extends_mapIdx {f : Nat → Mask → Mask}
    (hf : ∀ i row j, row.getLsbD j = true → (f i row).getLsbD j = true) :
    Extends g (g.mapIdx f) := by
  refine ⟨by simp,fun {i j} ⟨row,hrow,hj⟩ => ⟨f i row,by simp [hrow],hf i row j hj⟩⟩

theorem extends_addEdges (g : List Mask) (idx : Nat) (others : Mask) :
    Extends g (addEdges n g idx others) := by
  refine extends_mapIdx fun i row j hj => ?_
  split
  · simp [hj]
  split
  · simp [hj]
  · exact hj

theorem extends_addClique (g : List Mask) (members : Mask) : Extends g (addClique n g members) := by
  refine extends_mapIdx fun i row j hj => ?_
  split
  · simp [hj]
  · exact hj

theorem edge_addEdges {idx j : Nat} {others : Mask} (hlen : n ≤ g.length) (hn : n ≤ 64)
    (hidx : idx < n) (hj : j < n) (hne : j ≠ idx) (h : others.getLsbD j = true) :
    Edge (addEdges n g idx others) idx j ∧ Edge (addEdges n g idx others) j idx := by
  have hi : idx < g.length := by omega
  have hj' : j < g.length := by omega
  have hb : idx < 64 := by omega
  refine ⟨⟨g[idx] ||| others,by simp [addEdges,hi],by simp [h]⟩,⟨g[j] ||| bit idx,?_,?_⟩⟩
  · simp [addEdges,hj',hne,hj,h]
  · simp [getLsbD_bit,hb]

theorem edge_addClique {i j : Nat} {members : Mask} (hlen : n ≤ g.length)
    (hi : i < n) (hne : i ≠ j) (hmi : members.getLsbD i = true) (hmj : members.getLsbD j = true) :
    Edge (addClique n g members) i j := by
  have hi' : i < g.length := by omega
  have hj := lt_of_getLsbD hmj
  have hbit : (bit i).getLsbD j = false := by simp [getLsbD_bit,Ne.symm hne]
  refine ⟨g[i] ||| (members &&& ~~~bit i),by simp [addClique,hi',hi,hmi],?_⟩
  rw [getLsbD_or,getLsbD_and,getLsbD_not,hmj,hbit]
  simp [hj]

theorem extends_defEdges (g : List Mask) (pc : Nat) (live : Mask) :
    Extends g (defEdges code n ranges pc live g) := by
  unfold defEdges
  split
  · split
    · exact extends_addEdges _ _ _
    · exact .refl g
  · exact .refl g

theorem edge_defEdges (hn : n ≤ 64) (hlen : n ≤ g.length) {p : Nat}
    (ha : localAccess code p = some a) (hdef : a.isDef = true) (hidx : a.idx < n) (hy : y < n)
    (hne : y ≠ a.idx) {live : Mask} (hlive : live.getLsbD y = true) :
    Edge (defEdges code n ranges p live g) a.idx y ∧
      Edge (defEdges code n ranges p live g) y a.idx := by
  have hbit : (bit a.idx).getLsbD y = false := by simp [getLsbD_bit,hne]
  unfold defEdges
  rw [ha]
  dsimp only
  rw [if_pos ⟨hidx,hdef⟩]
  refine edge_addEdges hlen hn hidx hy hne ?_
  rw [getLsbD_and,getLsbD_or,hlive,getLsbD_not,hbit]
  simp
  omega

theorem walk_snd (pcs : List Nat) (s : List Mask × Mask) :
    (pcs.foldr (fun pc s => interferenceStep code n ranges s pc) s).2 =
      pcs.foldr (liveBefore code n ranges) s.2 := by
  induction pcs with
  | nil => rfl
  | cons pc pcs ih => rw [foldr_cons,foldr_cons,← ih]; rfl

theorem extends_walk (pcs : List Nat) (s : List Mask × Mask) :
    Extends s.1 (pcs.foldr (fun pc s => interferenceStep code n ranges s pc) s).1 := by
  induction pcs with
  | nil => exact .refl _
  | cons pc pcs ih =>
    exact ih.trans (extends_defEdges _ _ _)

theorem extends_blockInterference (g : List Mask) (b : BasicBlock) :
    Extends g (blockInterference code n ranges g b) := by
  unfold blockInterference
  rw [foldl_reverse]
  exact (extends_walk _ _).trans (extends_addClique _ _)

theorem edge_blockInterference (hn : n ≤ 64) (hlen : n ≤ g.length)
    {p : Nat} (hp : b.Holds code p) (ha : localAccess code p = some a)
    (hdef : a.isDef = true) (hidx : a.idx < n) (hy : y < n) (hne : y ≠ a.idx)
    (hlive : (liveFrom code n ranges b (p+step code p)).getLsbD y = true) :
    Edge (blockInterference code n ranges g b) a.idx y ∧
      Edge (blockInterference code n ranges g b) y a.idx := by
  have hwalk : ∀ start, Reaches code start p →
      Edge ((pcsIn code start b.endPc).foldr (fun pc s => interferenceStep code n ranges s pc)
        (g,b.liveOut)).1 a.idx y ∧
      Edge ((pcsIn code start b.endPc).foldr (fun pc s => interferenceStep code n ranges s pc)
        (g,b.liveOut)).1 y a.idx := by
    intro start hr
    induction hk : p-start using Nat.strongRecOn generalizing start with
    | ind k ih => ?_
    subst hk
    have hpos := step_pos code start
    have hle := hr.le
    have hlt := hp.2
    rw [pcsIn_eq_cons (by omega),foldr_cons]
    rcases hr.eq_or_next with rfl | hr'
    · refine edge_defEdges hn ?_ ha hdef hidx hy hne ?_
      · rw [(extends_walk _ _).1]
        exact hlen
      rw [walk_snd]
      exact hlive
    have hle' := hr'.le
    obtain ⟨h1,h2⟩ := ih (p-(start+step code start)) (by omega) _ hr' rfl
    exact ⟨(extends_defEdges _ _ _).2 h1,(extends_defEdges _ _ _).2 h2⟩
  obtain ⟨h1,h2⟩ := hwalk b.startPc hp.1
  unfold blockInterference
  rw [foldl_reverse]
  exact ⟨(extends_addClique _ _).2 h1,(extends_addClique _ _).2 h2⟩

theorem extends_blocks (blocks : List BasicBlock) (g : List Mask) :
    Extends g (blocks.foldl (blockInterference code n ranges) g) := by
  induction blocks generalizing g with
  | nil => exact .refl g
  | cons b blocks ih => exact (extends_blockInterference g b).trans (ih _)

theorem edge_buildInterference {numLocals : Nat}
    (hb : b ∈ blocks) {p : Nat} (hp : b.Holds code p)
    (ha : localAccess code p = some a) (hdef : a.isDef = true) (hidx : a.idx < min numLocals 64) (hy : y < min numLocals 64) (hne : y ≠ a.idx)
    (hlive : (liveFrom code (min numLocals 64) ranges b (p+step code p)).getLsbD y = true) :
    Edge (buildInterference code blocks numLocals ranges) a.idx y ∧
      Edge (buildInterference code blocks numLocals ranges) y a.idx := by
  obtain ⟨before,after,rfl⟩ := append_of_mem hb
  unfold buildInterference
  rw [foldl_append,foldl_cons]
  have hlen : min numLocals 64 ≤
      (before.foldl (blockInterference code (min numLocals 64) ranges)
        (replicate numLocals 0)).length := by
    rw [(extends_blocks before _).1,length_replicate]
    exact Nat.min_le_left _ _
  obtain ⟨h1,h2⟩ := edge_blockInterference (Nat.min_le_right _ _) hlen hp ha hdef hidx hy hne hlive
  exact ⟨(extends_blocks after _).2 h1,(extends_blocks after _).2 h2⟩

theorem length_buildInterference (blocks : List BasicBlock) (numLocals : Nat) :
    (buildInterference code blocks numLocals ranges).length = numLocals := by
  unfold buildInterference
  rw [(extends_blocks blocks _).1,length_replicate]

end CratonVM.Jit.LocalHomes
