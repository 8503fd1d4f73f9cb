import CratonVM.Jit.LocalHomes.Coloring
import CratonVM.Jit.Bytecode.Agreement

/-!
Every instruction lies in exactly one block, and control leaves a block only behind its last
instruction.
-/
namespace CratonVM.Jit.LocalHomes
open Bytecode List
variable {code : Code}
variable {pc p stop : Nat}

theorem mem_pcsFrom {fuel : Nat} (hfuel : stop-pc ≤ fuel) :
    p ∈ pcsFrom code stop fuel pc ↔ Reaches code pc p ∧ p < stop := by
  induction fuel generalizing pc with
  | zero =>
    simp only [pcsFrom,not_mem_nil,false_iff]
    rintro ⟨hr,hlt⟩
    have := hr.le
    omega
  | succ fuel ih => ?_
  have hpos := step_pos code pc
  unfold pcsFrom
  split
  · have hfuel' : stop-(pc+step code pc) ≤ fuel := by omega
    rw [mem_cons,ih hfuel']
    constructor
    · rintro (rfl | ⟨hr,hlt⟩)
      · exact ⟨.refl,‹_›⟩
      · exact ⟨Reaches.trans (Reaches.next .refl) hr,hlt⟩
    rintro ⟨hr,hlt⟩
    rcases hr.eq_or_next with rfl | hr
    · exact .inl rfl
    · exact .inr ⟨hr,hlt⟩
  simp only [not_mem_nil,false_iff]
  rintro ⟨hr,hlt⟩
  have := hr.le
  omega

variable {start : Nat}

theorem mem_pcsIn :
    p ∈ pcsIn code start stop ↔ Reaches code start p ∧ p < stop := mem_pcsFrom le_rfl

theorem pcsFrom_fuel {fuel fuel' : Nat} (h : stop-pc ≤ fuel) (h' : stop-pc ≤ fuel') :
    pcsFrom code stop fuel pc = pcsFrom code stop fuel' pc := by
  have hpos := step_pos code pc
  induction fuel generalizing pc fuel' with
  | zero =>
    cases fuel' with
    | zero => rfl
    | succ fuel' =>
      unfold pcsFrom
      rw [if_neg (by omega)]
  | succ fuel ih => ?_
  cases fuel' with
  | zero =>
    unfold pcsFrom
    rw [if_neg (by omega)]
  | succ fuel' =>
    unfold pcsFrom
    split
    · rw [ih (by omega) (show stop-(pc+step code pc) ≤ fuel' by omega) (step_pos code _)]
    · rfl

theorem pcsIn_eq_cons (h : start < stop) :
    pcsIn code start stop = start :: pcsIn code (start+step code start) stop := by
  have hpos := step_pos code start
  obtain ⟨fuel,hfuel⟩ : ∃ fuel, stop-start = fuel+1 := ⟨stop-start-1,by omega⟩
  unfold pcsIn
  rw [hfuel,pcsFrom,if_pos h,pcsFrom_fuel (show stop-(start+step code start) ≤ fuel by omega)
    (Nat.le_refl (stop-(start+step code start)))]

theorem pcsIn_eq_nil (h : stop ≤ start) : pcsIn code start stop = [] := by
  unfold pcsIn
  rw [Nat.sub_eq_zero_of_le h]
  rfl

variable {codeLen : Nat}

theorem mem_blockStarts_of_marks {leaders : List Nat} {target : Nat} (hpc : InCode code codeLen pc)
    (h : target ∈ marks code codeLen pc) : target ∈ blockStarts code codeLen leaders :=
  mem_append_right _ (mem_flatMap.mpr ⟨pc,mem_pcsIn.mpr hpc,h⟩)

theorem mem_blockStarts_of_leader {leaders : List Nat} (h : pc ∈ leaders)
    (hlt : pc < codeLen) : pc ∈ blockStarts code codeLen leaders := by
  simp [blockStarts,h,hlt]

/-- The instruction ends its block by itself. -/
def transfers (code : Code) (pc : Nat) : Bool :=
  (offsetBranchTarget code pc).isSome || isUnconditional (opAt code pc)

theorem next_mem_marks (h : transfers code pc = true) (hlt : pc+step code pc < codeLen) :
    pc+step code pc ∈ marks code codeLen pc := by
  refine mem_filter.mpr ⟨?_,decide_eq_true hlt⟩
  rcases Bool.or_eq_true _ _ ▸ h with h | h
  · obtain ⟨target,htarget⟩ := Option.isSome_iff_exists.mp h
    simp [htarget]
  · simp [h]

/-- What is true of one block; `starts` are the marked positions. -/
structure BlockOk (code : Code) (codeLen : Nat) (starts : List Nat) (b : BasicBlock) : Prop where
  start : InCode code codeLen b.startPc
  stop : Reaches code b.startPc b.endPc
  pos : b.startPc < b.endPc
  stop_marked : b.endPc < codeLen → b.endPc ∈ starts
  inner : ∀ {p}, Reaches code b.startPc p → p+step code p < b.endPc →
    transfers code p = false ∧ p+step code p < codeLen ∧ p+step code p ∉ starts

def BasicBlock.Holds (code : Code) (b : BasicBlock) (pc : Nat) : Prop :=
  Reaches code b.startPc pc ∧ pc < b.endPc

variable {b : BasicBlock}

theorem BlockOk.inCode {starts : List Nat} (hb : BlockOk code codeLen starts b) (hp : b.Holds code p) : InCode code codeLen p := by
  refine ⟨hb.start.1.trans hp.1,?_⟩
  obtain ⟨hr,hlt⟩ := hp
  cases hr with
  | refl => exact hb.start.2
  | next hr => exact (hb.inner hr hlt).2.1

section
variable {starts : List Nat}
  (hmarked : ∀ {p}, InCode code codeLen p → transfers code p = true → p+step code p < codeLen →
    p+step code p ∈ starts)
include hmarked

theorem blockEnd_spec {fuel pc : Nat} (hpc : InCode code codeLen pc) (hfuel : codeLen-pc ≤ fuel) :
    Reaches code pc (blockEnd code codeLen starts fuel pc) ∧
      pc < blockEnd code codeLen starts fuel pc ∧
      (blockEnd code codeLen starts fuel pc < codeLen →
        blockEnd code codeLen starts fuel pc ∈ starts) ∧
      ∀ {p}, Reaches code pc p → p+step code p < blockEnd code codeLen starts fuel pc →
        transfers code p = false ∧ p+step code p < codeLen ∧ p+step code p ∉ starts := by
  have hpos := step_pos code pc
  induction fuel generalizing pc with
  | zero =>
    have := hpc.2
    omega
  | succ fuel ih => ?_
  unfold blockEnd
  split
  · rename_i hends
    refine ⟨Reaches.next .refl,by omega,fun hlt => ?_,fun hr hlt => ?_⟩
    · unfold endsBlock at hends
      simp only [Bool.or_eq_true,decide_eq_true_eq,contains_iff_mem] at hends
      rcases hends with (htransfers | hge) | hmem
      · exact hmarked hpc (by simpa [transfers] using htransfers) hlt
      · omega
      · exact hmem
    rcases hr.eq_or_next with rfl | hr
    · omega
    have := hr.le
    omega
  rename_i hends
  unfold endsBlock at hends
  simp only [Bool.or_eq_true,decide_eq_true_eq,contains_iff_mem,not_or] at hends
  obtain ⟨⟨htransfers,hlt⟩,hmem⟩ := hends
  have hnext : InCode code codeLen (pc+step code pc) := ⟨hpc.1.next,by omega⟩
  obtain ⟨hreach,hafter,hstop,hinner⟩ := ih hnext (by omega) (step_pos code _)
  refine ⟨Reaches.trans (Reaches.next .refl) hreach,by omega,hstop,fun hr hle => ?_⟩
  rcases hr.eq_or_next with rfl | hr
  · refine ⟨?_,by omega,hmem⟩
    simpa [transfers] using htransfers
  · exact hinner hr hle

/-- Blocks built so far: they lie in order and cover what is behind `pc`. -/
structure Built (code : Code) (codeLen : Nat) (starts : List Nat) (pc : Nat)
    (blocks : List BasicBlock) : Prop where
  reached : Reaches code 0 pc
  marked : pc < codeLen → pc ∈ starts
  ok : ∀ b ∈ blocks, BlockOk code codeLen starts b ∧ b.endPc ≤ pc
  sorted : blocks.Pairwise fun a b => a.endPc ≤ b.startPc
  covers : ∀ {p}, InCode code codeLen p → p < pc → ∃ b ∈ blocks, b.Holds code p
  starts_blocks : ∀ {p}, InCode code codeLen p → p < pc → p ∈ starts →
    ∃ b ∈ blocks, b.startPc = p

omit hmarked in
theorem Built.push {pc stop : Nat} {blocks : List BasicBlock} (h : Built code codeLen starts pc blocks)
    {b : BasicBlock} (hstart : b.startPc = pc) (hstop : b.endPc = stop)
    (hb : BlockOk code codeLen starts b) : Built code codeLen starts stop (blocks ++ [b]) := by
  subst hstart hstop
  have hpos := hb.pos
  refine ⟨hb.start.1.trans hb.stop,hb.stop_marked,fun a ha => ?_,?_,fun hp hlt => ?_,
    fun hp hlt hmem => ?_⟩
  · rcases List.mem_append.mp ha with ha | ha
    · obtain ⟨hok,hle⟩ := h.ok a ha
      exact ⟨hok,by omega⟩
    rw [List.mem_singleton.mp ha]
    exact ⟨hb,le_rfl⟩
  · refine List.pairwise_append.mpr ⟨h.sorted,List.pairwise_singleton _ _,fun a ha c hc => ?_⟩
    rw [List.mem_singleton.mp hc]
    exact (h.ok a ha).2
  · rename_i p
    by_cases hbefore : p < b.startPc
    · obtain ⟨c,hc,hholds⟩ := h.covers hp hbefore
      exact ⟨c,List.mem_append_left _ hc,hholds⟩
    · exact ⟨b,by simp,hb.start.1.of_le hp.1 (by omega),hlt⟩
  rename_i p
  by_cases hbefore : p < b.startPc
  · obtain ⟨c,hc,hstart⟩ := h.starts_blocks hp hbefore hmem
    exact ⟨c,List.mem_append_left _ hc,hstart⟩
  refine ⟨b,by simp,?_⟩
  have hreach := hb.start.1.of_le hp.1 (Nat.le_of_not_lt hbefore)
  cases hreach with
  | refl => rfl
  | next hr => exact absurd hmem (hb.inner hr hlt).2.2

theorem blocksFrom_spec {fuel pc : Nat} {blocks : List BasicBlock} (hfuel : codeLen-pc ≤ fuel)
    (h : Built code codeLen starts pc blocks) :
    ∃ stop, codeLen ≤ stop ∧
      Built code codeLen starts stop (blocksFrom code codeLen starts fuel pc blocks) := by
  induction fuel generalizing pc blocks with
  | zero => exact ⟨pc,by omega,h⟩
  | succ fuel ih => ?_
  unfold blocksFrom
  split
  · rename_i hlt
    have hin : InCode code codeLen pc := ⟨h.reached,hlt⟩
    have hstart := h.marked hlt
    rw [if_neg (by simp [hstart])]
    obtain ⟨hreach,hafter,hstop,hinner⟩ := blockEnd_spec hmarked hin (Nat.sub_le codeLen pc)
    exact ih (by omega) (h.push rfl rfl ⟨hin,hreach,hafter,hstop,hinner⟩)
  · exact ⟨pc,by omega,h⟩

end

theorem getLastD_pcsIn (hr : Reaches code start p) (hlt : p < stop)
    (hstop : stop ≤ p+step code p) (d : Nat) : (pcsIn code start stop).getLastD d = p := by
  induction hn : p-start using Nat.strongRecOn generalizing start d with
  | ind n ih => ?_
  subst hn
  have hpos := step_pos code start
  have hle := hr.le
  rw [pcsIn_eq_cons (by omega),getLastD_cons]
  rcases hr.eq_or_next with rfl | hr'
  · rw [pcsIn_eq_nil hstop]
    rfl
  have hle' := hr'.le
  exact ih (p-(start+step code start)) (by omega) hr' start rfl

def StartsAt (blocks : List BasicBlock) (i pc : Nat) : Prop :=
  ∃ b, blocks[i]? = some b ∧ b.startPc = pc

variable {blocks : List BasicBlock}

theorem blockIdxAt_of_mem (hb : b ∈ blocks) :
    ∃ i, blockIdxAt blocks b.startPc = some i ∧ StartsAt blocks i b.startPc := by
  cases hi : blockIdxAt blocks b.startPc with
  | none =>
    have hnone := findIdx?_eq_none_iff.mp hi b hb
    simp at hnone
  | some i =>
    obtain ⟨hlt,hstart,_⟩ := findIdx?_eq_some_iff_getElem.mp hi
    exact ⟨i,rfl,blocks[i],getElem?_eq_getElem hlt,of_decide_eq_true hstart⟩

variable {i : Nat}

theorem startsAt_map {f : BasicBlock → BasicBlock}
    (hf : ∀ b, (f b).startPc = b.startPc) (h : StartsAt blocks i pc) :
    StartsAt (blocks.map f) i pc := by
  obtain ⟨b,hb,hstart⟩ := h
  exact ⟨f b,by simp [hb],by rw [hf,hstart]⟩

theorem mem_pushNew {l : List Nat} {j : Nat} : i ∈ pushNew l j ↔ i ∈ l ∨ i = j := by
  unfold pushNew
  split
  · rename_i h
    have hj := contains_iff_mem.mp h
    constructor
    · exact .inl
    rintro (h | rfl)
    · exact h
    · exact hj
  · simp

theorem mem_foldl_pushNew {l l' : List Nat} : i ∈ l'.foldl pushNew l ↔ i ∈ l ∨ i ∈ l' := by
  induction l' generalizing l with
  | nil => simp
  | cons a l' ih => rw [foldl_cons,ih,mem_pushNew,mem_cons,or_assoc]

/-- What liveness needs of the graph. -/
structure CfgOk (code : Code) (codeLen : Nat) (handlers : List HandlerRange)
    (blocks : List BasicBlock) : Prop where
  start : ∀ b ∈ blocks, InCode code codeLen b.startPc
  stop : ∀ b ∈ blocks, Reaches code b.startPc b.endPc
  pos : ∀ b ∈ blocks, b.startPc < b.endPc
  sorted : blocks.Pairwise fun a b => a.endPc ≤ b.startPc
  covers : ∀ {p}, InCode code codeLen p → ∃ b ∈ blocks, b.Holds code p
  inner : ∀ b ∈ blocks, ∀ {p}, b.Holds code p → p+step code p < b.endPc → transfers code p = false
  target : ∀ b ∈ blocks, ∀ {p t}, b.Holds code p → b.endPc ≤ p+step code p →
    offsetBranchTarget code p = some t ∨ isSwitch code p = true ∧ t ∈ switchTargetsLenient code codeLen p →
    InCode code codeLen t → ∃ i ∈ b.successors, StartsAt blocks i t
  falls : ∀ b ∈ blocks, ∀ {p}, b.Holds code p → b.endPc ≤ p+step code p →
    isUnconditional (opAt code p) = false → p+step code p < codeLen →
    ∃ i ∈ b.successors, StartsAt blocks i (p+step code p)
  throws : ∀ b ∈ blocks, ∀ {p}, b.Holds code p → ∀ h ∈ handlers, h.startPc ≤ p → p < h.endPc →
    InCode code codeLen h.handlerPc → ∃ i ∈ b.handlerSuccessors, StartsAt blocks i h.handlerPc

theorem built_blocks (code : Code) (codeLen : Nat) (leaders : List Nat) :
    ∃ stop, codeLen ≤ stop ∧ Built code codeLen (blockStarts code codeLen leaders) stop
      (blocksFrom code codeLen (blockStarts code codeLen leaders) codeLen 0 []) := by
  refine blocksFrom_spec (fun hp ht hlt => ?_) (Nat.sub_le codeLen 0) ?_
  · exact mem_blockStarts_of_marks hp (next_mem_marks ht hlt)
  refine ⟨.refl,fun _ => by simp [blockStarts],by simp,.nil,fun _ hlt => ?_,fun _ hlt => ?_⟩
  all_goals omega

theorem last_eq (hstop : Reaches code b.startPc b.endPc)
    (hp : b.Holds code p) (hlast : b.endPc ≤ p+step code p) :
    lastPc code b = p ∧ b.endPc = p+step code p :=
  ⟨getLastD_pcsIn hp.1 hp.2 hlast _,Nat.le_antisymm hlast (hp.1.next_le hstop hp.2)⟩

theorem mem_marks_of_target {t : Nat} (ht : t < codeLen)
    (h : offsetBranchTarget code p = some t ∨
      isSwitch code p = true ∧ t ∈ switchTargetsLenient code codeLen p) : t ∈ marks code codeLen p := by
  refine mem_filter.mpr ⟨?_,decide_eq_true ht⟩
  rcases h with h | ⟨hs,h⟩
  · simp [h]
  · simp [hs,h]

theorem mem_successorsOf_target {t : Nat}
    (ht : t < codeLen) (hi : blockIdxAt blocks t = some i)
    (h : offsetBranchTarget code (lastPc code b) = some t ∨ isSwitch code (lastPc code b) = true ∧
      t ∈ switchTargetsLenient code codeLen (lastPc code b)) :
    i ∈ successorsOf code codeLen blocks b := by
  have hmem : i ∈ (if isSwitch code (lastPc code b) then
      ((switchTargetsLenient code codeLen (lastPc code b)).filterMap fun target =>
        if target < codeLen then blockIdxAt blocks target else none).foldl pushNew
          ((offsetBranchTarget code (lastPc code b)).bind fun target =>
            if target < codeLen then blockIdxAt blocks target else none).toList
      else ((offsetBranchTarget code (lastPc code b)).bind fun target =>
        if target < codeLen then blockIdxAt blocks target else none).toList) := by
    rcases h with h | ⟨hs,h⟩
    · split
      · rw [mem_foldl_pushNew]
        left
        simp [h,ht,hi]
      · simp [h,ht,hi]
    rw [if_pos hs,mem_foldl_pushNew]
    right
    exact mem_filterMap.mpr ⟨t,h,by simp [ht,hi]⟩
  unfold successorsOf
  dsimp only
  split
  · exact hmem
  · exact mem_append_left _ hmem

theorem mem_successorsOf_falls
    (hend : b.endPc < codeLen) (hi : blockIdxAt blocks b.endPc = some i)
    (h : isUnconditional (opAt code (lastPc code b)) = false) :
    i ∈ successorsOf code codeLen blocks b := by
  unfold successorsOf
  dsimp only
  rw [h,if_neg Bool.false_ne_true]
  exact mem_append_right _ (by simp [hend,hi])

theorem blockIdxAt_map {f : BasicBlock → BasicBlock}
    (hf : ∀ b, (f b).startPc = b.startPc) (pc : Nat) :
    blockIdxAt (blocks.map f) pc = blockIdxAt blocks pc := by
  unfold blockIdxAt
  rw [findIdx?_map]
  congr 1
  funext b
  simp [hf]

/-- The edges a block gets, over the blocks as they were cut. -/
def withEdges (code : Code) (codeLen : Nat) (handlers : List HandlerRange) (blocks : List BasicBlock)
    (b : BasicBlock) : BasicBlock :=
  { b with
    successors := (handlerEdges blocks handlers b).foldl pushNew (successorsOf code codeLen blocks b)
    handlerSuccessors := (handlerEdges blocks handlers b).foldl pushNew b.handlerSuccessors }

theorem buildCfgWithHandlers_eq (code : Code) (codeLen : Nat) (handlers : List HandlerRange) :
    ∃ leaders, (∀ h ∈ handlers, h.handlerPc ∈ leaders) ∧
      buildCfgWithHandlers code codeLen handlers =
        (blocksFrom code codeLen (blockStarts code codeLen leaders) codeLen 0 []).map
          (withEdges code codeLen handlers
            (blocksFrom code codeLen (blockStarts code codeLen leaders) codeLen 0 [])) := by
  refine ⟨handlers.flatMap fun h => [h.handlerPc,h.startPc,h.endPc],
    fun h hh => mem_flatMap.mpr ⟨h,hh,by simp⟩,?_⟩
  unfold buildCfgWithHandlers buildCfgWithLeaders
  rw [map_map]
  refine map_congr_left fun b _ => ?_
  simp only [Function.comp_apply,withEdges,handlerEdges]
  congr 2
  all_goals
    refine congrArg (fun f => filterMap f handlers) (funext fun h => ?_)
    rw [blockIdxAt_map]
    exact fun _ => rfl

theorem cfgOk_buildCfgWithHandlers (code : Code) (codeLen : Nat) (handlers : List HandlerRange) :
    CfgOk code codeLen handlers (buildCfgWithHandlers code codeLen handlers) := by
  obtain ⟨leaders,hleaders,heq⟩ := buildCfgWithHandlers_eq code codeLen handlers
  obtain ⟨stop,hstop,hbuilt⟩ := built_blocks code codeLen leaders
  rw [heq]
  generalize blocksFrom code codeLen (blockStarts code codeLen leaders) codeLen 0 [] = blocks at hbuilt
  have hat : ∀ {p}, InCode code codeLen p → p ∈ blockStarts code codeLen leaders →
      ∃ i, blockIdxAt blocks p = some i ∧
        StartsAt (blocks.map (withEdges code codeLen handlers blocks)) i p := by
    intro p hp hmem
    obtain ⟨b,hb,rfl⟩ := hbuilt.starts_blocks hp (Nat.lt_of_lt_of_le hp.2 hstop) hmem
    obtain ⟨i,hi,hstart⟩ := blockIdxAt_of_mem hb
    refine ⟨i,hi,startsAt_map ?_ hstart⟩
    exact fun _ => rfl
  have hok : ∀ b ∈ blocks, BlockOk code codeLen (blockStarts code codeLen leaders) b :=
    fun b hb => (hbuilt.ok b hb).1
  constructor
  case start =>
    intro b hb
    obtain ⟨a,ha,rfl⟩ := mem_map.mp hb
    exact (hok a ha).start
  case stop =>
    intro b hb
    obtain ⟨a,ha,rfl⟩ := mem_map.mp hb
    exact (hok a ha).stop
  case pos =>
    intro b hb
    obtain ⟨a,ha,rfl⟩ := mem_map.mp hb
    exact (hok a ha).pos
  case sorted => exact pairwise_map.mpr hbuilt.sorted
  case covers =>
    intro p hp
    obtain ⟨b,hb,hholds⟩ := hbuilt.covers hp (Nat.lt_of_lt_of_le hp.2 hstop)
    exact ⟨_,mem_map_of_mem hb,hholds⟩
  case inner =>
    intro b hb p hp hlt
    obtain ⟨a,ha,rfl⟩ := mem_map.mp hb
    exact ((hok a ha).inner hp.1 hlt).1
  case target =>
    intro b hb p t hp hlast htarget ht
    obtain ⟨a,ha,rfl⟩ := mem_map.mp hb
    have hpin := (hok a ha).inCode hp
    obtain ⟨hlastPc,_⟩ := last_eq (hok a ha).stop hp hlast
    obtain ⟨i,hi,hstart⟩ := hat ht (mem_blockStarts_of_marks hpin (mem_marks_of_target ht.2 htarget))
    refine ⟨i,?_,hstart⟩
    refine mem_foldl_pushNew.mpr (.inl (mem_successorsOf_target ht.2 hi ?_))
    rw [hlastPc]
    exact htarget
  case falls =>
    intro b hb p hp hlast hcond hlt
    obtain ⟨a,ha,rfl⟩ := mem_map.mp hb
    obtain ⟨hlastPc,hend⟩ := last_eq (hok a ha).stop hp hlast
    have hnext : InCode code codeLen a.endPc :=
      ⟨(hok a ha).start.1.trans (hok a ha).stop,by omega⟩
    obtain ⟨i,hi,hstart⟩ := hat hnext ((hok a ha).stop_marked hnext.2)
    rw [← hend]
    refine ⟨i,mem_foldl_pushNew.mpr (.inl (mem_successorsOf_falls hnext.2 hi ?_)),hstart⟩
    rw [hlastPc]
    exact hcond
  case throws =>
    intro b hb p hp h hh hle hlt hhandler
    obtain ⟨a,ha,rfl⟩ := mem_map.mp hb
    obtain ⟨i,hi,hstart⟩ := hat hhandler (mem_blockStarts_of_leader (hleaders h hh) hhandler.2)
    refine ⟨i,mem_foldl_pushNew.mpr (.inr (mem_filterMap.mpr ⟨h,hh,?_⟩)),hstart⟩
    have hle' := hp.1.le
    have hlt' := hp.2
    rw [if_pos ⟨Nat.lt_of_le_of_lt hle' hlt,Nat.lt_of_le_of_lt hle hlt'⟩]
    exact hi

theorem CfgOk.unique {handlers : List HandlerRange}
    (h : CfgOk code codeLen handlers blocks) {a : BasicBlock} (ha : a ∈ blocks) (hb : b ∈ blocks) (hpa : a.Holds code p) (hpb : b.Holds code p) : a = b := by
  by_contra hne
  have hsorted : blocks.Pairwise fun a b => a.endPc ≤ b.startPc ∨ b.endPc ≤ a.startPc :=
    h.sorted.imp fun hle => .inl hle
  have hsymm : Std.Symm fun a b : BasicBlock => a.endPc ≤ b.startPc ∨ b.endPc ≤ a.startPc :=
    ⟨fun _ _ => Or.symm⟩
  have hpair := hsorted.forall ha hb hne
  have := hpa.1.le
  have := hpa.2
  have := hpb.1.le
  have := hpb.2
  omega

/-- What the graph is made of, without the sets of liveness. -/
def BasicBlock.frame (b : BasicBlock) : Nat × Nat × List Nat × List Nat :=
  (b.startPc,b.endPc,b.successors,b.handlerSuccessors)

variable {blocks' : List BasicBlock}

theorem mem_of_map_frame
    (h : blocks'.map BasicBlock.frame = blocks.map BasicBlock.frame)
    (hb : b ∈ blocks') : ∃ a ∈ blocks, a.startPc = b.startPc ∧ a.endPc = b.endPc ∧
      a.successors = b.successors ∧ a.handlerSuccessors = b.handlerSuccessors := by
  have hmem : b.frame ∈ blocks.map BasicBlock.frame := h ▸ mem_map_of_mem hb
  obtain ⟨a,ha,heq⟩ := mem_map.mp hmem
  simp only [BasicBlock.frame,Prod.mk.injEq] at heq
  exact ⟨a,ha,heq⟩

theorem startsAt_of_map_frame
    (h : blocks'.map BasicBlock.frame = blocks.map BasicBlock.frame)
    (hs : StartsAt blocks i pc) : StartsAt blocks' i pc := by
  obtain ⟨b,hb,hstart⟩ := hs
  have hget := congrArg (·[i]?) h
  simp only [getElem?_map,hb,Option.map_some] at hget
  obtain ⟨b',hb',heq⟩ := Option.map_eq_some_iff.mp hget
  refine ⟨b',hb',?_⟩
  rw [← hstart]
  exact congrArg Prod.fst heq

theorem CfgOk.of_frame {handlers : List HandlerRange}
    (h : CfgOk code codeLen handlers blocks)
    (hframe : blocks'.map BasicBlock.frame = blocks.map BasicBlock.frame) :
    CfgOk code codeLen handlers blocks' := by
  have hback := fun {b : BasicBlock} (hb : b ∈ blocks') => mem_of_map_frame hframe hb
  constructor
  case start =>
    intro b hb
    obtain ⟨a,ha,hstart,_⟩ := hback hb
    exact hstart ▸ h.start a ha
  case stop =>
    intro b hb
    obtain ⟨a,ha,hstart,hend,_⟩ := hback hb
    exact hstart ▸ hend ▸ h.stop a ha
  case pos =>
    intro b hb
    obtain ⟨a,ha,hstart,hend,_⟩ := hback hb
    exact hstart ▸ hend ▸ h.pos a ha
  case sorted =>
    have hmap : (blocks'.map BasicBlock.frame).Pairwise fun a b => a.2.1 ≤ b.1 := by
      rw [hframe]
      exact pairwise_map.mpr h.sorted
    exact pairwise_map.mp hmap
  case covers =>
    intro p hp
    obtain ⟨a,ha,hr,hlt⟩ := h.covers hp
    obtain ⟨b,hb,hstart,hend,_⟩ := mem_of_map_frame hframe.symm ha
    refine ⟨b,hb,?_,?_⟩
    · rw [hstart]
      exact hr
    rw [hend]
    exact hlt
  case inner =>
    intro b hb p hp hlt
    obtain ⟨a,ha,hstart,hend,_⟩ := hback hb
    rw [← hend] at hlt
    unfold BasicBlock.Holds at hp
    rw [← hstart,← hend] at hp
    exact h.inner a ha hp hlt
  case target =>
    intro b hb p t hp hlast htarget ht
    obtain ⟨a,ha,hstart,hend,hsucc,_⟩ := hback hb
    rw [← hend] at hlast
    unfold BasicBlock.Holds at hp
    rw [← hstart,← hend] at hp
    obtain ⟨i,hi,hs⟩ := h.target a ha hp hlast htarget ht
    exact ⟨i,hsucc ▸ hi,startsAt_of_map_frame hframe hs⟩
  case falls =>
    intro b hb p hp hlast hcond hlt
    obtain ⟨a,ha,hstart,hend,hsucc,_⟩ := hback hb
    rw [← hend] at hlast
    unfold BasicBlock.Holds at hp
    rw [← hstart,← hend] at hp
    obtain ⟨i,hi,hs⟩ := h.falls a ha hp hlast hcond hlt
    exact ⟨i,hsucc ▸ hi,startsAt_of_map_frame hframe hs⟩
  case throws =>
    intro b hb p hp r hr hle hlt hhandler
    obtain ⟨a,ha,hstart,hend,_,hsucc⟩ := hback hb
    unfold BasicBlock.Holds at hp
    rw [← hstart,← hend] at hp
    obtain ⟨i,hi,hs⟩ := h.throws a ha hp r hr hle hlt hhandler
    exact ⟨i,hsucc ▸ hi,startsAt_of_map_frame hframe hs⟩

theorem sets_buildCfgWithHandlers (code : Code) (codeLen : Nat) (handlers : List HandlerRange) :
    ∀ b ∈ buildCfgWithHandlers code codeLen handlers, b.gen = 0 ∧ b.kill = 0 := by
  have hraw : ∀ (starts : List Nat) (fuel pc : Nat) (blocks : List BasicBlock),
      (∀ b ∈ blocks, b.gen = 0 ∧ b.kill = 0) →
      ∀ b ∈ blocksFrom code codeLen starts fuel pc blocks, b.gen = 0 ∧ b.kill = 0 := by
    intro starts fuel
    induction fuel with
    | zero => exact fun _ _ h => h
    | succ fuel ih => ?_
    intro pc blocks h
    unfold blocksFrom
    split
    · split
      · exact ih _ _ h
      refine ih _ _ fun b hb => ?_
      rcases mem_append.mp hb with hb | hb
      · exact h b hb
      rw [mem_singleton.mp hb]
      exact ⟨rfl,rfl⟩
    · exact h
  obtain ⟨leaders,_,heq⟩ := buildCfgWithHandlers_eq code codeLen handlers
  rw [heq]
  intro b hb
  obtain ⟨a,ha,rfl⟩ := mem_map.mp hb
  exact hraw _ _ _ _ (by simp) a ha

end CratonVM.Jit.LocalHomes
