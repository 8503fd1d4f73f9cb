import CratonVM.Jit.LocalHomes.LivenessProofs
import CratonVM.Lib.Homes

/-!
A method that keeps its locals where the allocation says reads what it wrote: a verified method, run
with its locals in registers and frame slots, never finds another local's value in a home.
-/
namespace CratonVM.Jit.LocalHomes
open Bytecode List Option Bool BitVec

/-- Where a local is kept. -/
inductive Home where
  | gpr (reg : Nat)
  | xmm (reg : Nat)
  | frame (slot : Nat)
  deriving DecidableEq, Repr

def RegAllocResult.home (r : RegAllocResult) (slot : Nat) : Home :=
  match r.assignments.getD slot none,r.xmmAssignments.getD slot none with
  | some reg,_ => .gpr reg
  | none,some reg => .xmm reg
  | none,none => .frame slot

/-- The execution of a method: control follows the instructions, or leaves a covered one for its
handler before it has an effect. -/
def program (code : Code) (handlers : List HandlerRange) : Homes.Program Nat Nat where
  reads pc slot := ∃ insn, Jvms.decode code pc = some insn ∧ insn.reads = some slot
  writes pc := (Jvms.decode code pc).bind Jvms.Insn.writes
  next pc q := ∃ insn, Jvms.decode code pc = some insn ∧
    (insn.falls = true ∧ q = pc+insn.length ∨ (q : Int) ∈ insn.targets)
  leaves pc q := ∃ h ∈ handlers, h.startPc ≤ pc ∧ pc < h.endPc ∧ q = h.handlerPc

variable {code : Code} {codeLen numLocals : Nat} {handlers : List HandlerRange}

/-- The sets of a block are those of its instructions. -/
def Analysed (code : Code) (b : BasicBlock) : Prop :=
  (∀ y, ((pcsIn code b.startPc b.endPc).foldl (genKillStep code) (0,0)).1.getLsbD y = true →
    b.gen.getLsbD y = true) ∧
  b.kill = ((pcsIn code b.startPc b.endPc).foldl (genKillStep code) (0,0)).2

structure Solved (code : Code) (codeLen : Nat) (handlers : List HandlerRange)
    (blocks : List BasicBlock) : Prop where
  cfg : CfgOk code codeLen handlers blocks
  balanced : ∀ b ∈ blocks, Balanced blocks b
  analysed : ∀ b ∈ blocks, Analysed code b

theorem frame_seedParams (mask : Mask) (blocks : List BasicBlock) :
    (seedParams mask blocks).map BasicBlock.frame = blocks.map BasicBlock.frame := by
  cases blocks with
  | nil => rfl
  | cons b blocks => rfl

theorem analysed_seedParams {mask : Mask} {blocks : List BasicBlock}
    (h : ∀ b ∈ blocks, Analysed code b) : ∀ b ∈ seedParams mask blocks, Analysed code b := by
  cases blocks with
  | nil => exact h
  | cons entry rest => ?_
  intro b hb
  rcases mem_cons.mp hb with rfl | hb
  · obtain ⟨hgen,hkill⟩ := h entry (by simp)
    refine ⟨fun y hy => ?_,hkill⟩
    have := hgen y hy
    simp [this]
  · exact h b (mem_cons_of_mem _ hb)

theorem solved_of_solveLiveness {mask : Mask} {blocks : List BasicBlock}
    (h : solveLiveness ((buildCfgWithHandlers code codeLen handlers).map (computeGenKill code)) mask =
      (blocks,true)) : Solved code codeLen handlers blocks := by
  obtain ⟨hshape,hbal⟩ := sweeps_spec h
  have hcfg := cfgOk_buildCfgWithHandlers code codeLen handlers
  have hframe : blocks.map BasicBlock.frame =
      (buildCfgWithHandlers code codeLen handlers).map BasicBlock.frame := by
    have hmap := congrArg (map BasicBlock.frame) hshape
    simp only [List.map_map] at hmap
    have hsame : ∀ l : List BasicBlock,
        l.map (BasicBlock.frame ∘ BasicBlock.shape) = l.map BasicBlock.frame :=
      fun l => map_congr_left fun _ _ => rfl
    rw [hsame,hsame,frame_seedParams,List.map_map] at hmap
    rw [hmap]
    exact map_congr_left fun _ _ => rfl
  refine ⟨hcfg.of_frame hframe,hbal,fun b hb => ?_⟩
  have hgen : ∀ c ∈ (buildCfgWithHandlers code codeLen handlers).map (computeGenKill code),
      Analysed code c := by
    intro c hc
    obtain ⟨a,ha,rfl⟩ := mem_map.mp hc
    obtain ⟨hg,hk⟩ := sets_buildCfgWithHandlers code codeLen handlers a ha
    unfold Analysed computeGenKill
    dsimp only
    rw [hg,hk]
    exact ⟨fun _ h => h,rfl⟩
  have hmem : b.shape ∈ (seedParams mask
      ((buildCfgWithHandlers code codeLen handlers).map (computeGenKill code))).map BasicBlock.shape :=
    hshape ▸ mem_map_of_mem hb
  obtain ⟨c,hc,heq⟩ := mem_map.mp hmem
  have hc := analysed_seedParams hgen c hc
  have heq : ∀ {α : Type} (f : BasicBlock → α), f c.shape = f b.shape := fun f => congrArg f heq
  have hstart : c.startPc = b.startPc := heq BasicBlock.startPc
  have hend : c.endPc = b.endPc := heq BasicBlock.endPc
  have hg : c.gen = b.gen := heq BasicBlock.gen
  have hk : c.kill = b.kill := heq BasicBlock.kill
  unfold Analysed at hc ⊢
  rw [← hstart,← hend,← hg,← hk]
  exact hc

theorem startPc_of_find {blocks : List BasicBlock} {pc : Nat} {b : BasicBlock}
    (h : blocks.find? (·.startPc = pc) = some b) : b.startPc = pc := by
  have hfound := find?_some h
  exact of_decide_eq_true hfound

section
variable {blocks : List BasicBlock} (hs : Solved code codeLen handlers blocks)
include hs

variable {b : BasicBlock}

theorem block_of_startsAt {i pc : Nat} (hi : StartsAt blocks i pc) (hb : b ∈ blocks)
    (hp : b.Holds code pc) : blocks[i]? = some b ∧ b.startPc = pc := by
  obtain ⟨c,hc,rfl⟩ := hi
  have hmem := mem_of_getElem? hc
  have heq := hs.cfg.unique hmem hb ⟨.refl,hs.cfg.pos c hmem⟩ hp
  rw [← heq]
  exact ⟨hc,rfl⟩

variable {y p : Nat}

/-- What a handler of a covered instruction needs is in the mask of the instruction, and live on entry
to its block. -/
theorem handler_needs {c : BasicBlock} (hb : b ∈ blocks) (hp : b.Holds code p)
    {h : HandlerRange} (hh : h ∈ handlers) (hle : h.startPc ≤ p) (hlt : p < h.endPc) (hc : c ∈ blocks)
    (hstart : c.startPc = h.handlerPc) (hy : c.liveIn.getLsbD y = true) :
    (handlerLiveMask p (handlerLiveInRanges blocks handlers)).getLsbD y = true ∧
      (unionLiveIn blocks b.handlerSuccessors).getLsbD y = true := by
  have hcin := hs.cfg.start c hc
  have hcholds : c.Holds code h.handlerPc := by
    rw [← hstart]
    exact ⟨.refl,hs.cfg.pos c hc⟩
  rw [hstart] at hcin
  obtain ⟨i,hi,hat⟩ := hs.cfg.throws b hb hp h hh hle hlt hcin
  obtain ⟨hget,_⟩ := block_of_startsAt hs hat hc hcholds
  refine ⟨getLsbD_handlerLiveMask.mpr ⟨⟨h.startPc,h.endPc,c.liveIn⟩,?_,⟨hle,hlt⟩,hy⟩,
    getLsbD_unionLiveIn.mpr ⟨i,hi,c,hget,hy⟩⟩
  have hfind : blocks.find? (·.startPc = h.handlerPc) = some c := by
    cases hf : blocks.find? (·.startPc = h.handlerPc) with
    | none =>
      have hnone := find?_eq_none.mp hf c hc
      simp [hstart] at hnone
    | some d => ?_
    have hd := mem_of_find?_eq_some hf
    have hdstart := startPc_of_find hf
    have hdholds : d.Holds code h.handlerPc := by
      rw [← hdstart]
      exact ⟨.refl,hs.cfg.pos d hd⟩
    rw [hs.cfg.unique hd hc hdholds hcholds]
  refine mem_filter.mpr ⟨mem_filterMap.mpr ⟨h,hh,by simp [hfind]⟩,?_⟩
  have hne : c.liveIn ≠ 0 := by
    intro hzero
    rw [hzero] at hy
    simp at hy
  simpa using hne

theorem liveIn_of_walk {n : Nat} (hn : n ≤ 64) (hb : b ∈ blocks) (hy : y < n)
    (h : (liveFrom code n (handlerLiveInRanges blocks handlers) b b.startPc).getLsbD y = true) :
    b.liveIn.getLsbD y = true := by
  obtain ⟨hgen,hkill⟩ := hs.analysed b hb
  obtain ⟨_,hin⟩ := hs.balanced b hb
  rw [hin,getLsbD_or,getLsbD_or,getLsbD_and,getLsbD_not,hkill]
  have h64 : y < 64 := by omega
  rcases walk_le_genKill hn (0,0) hy h with hg | hk | ⟨hout,hnot⟩ | ⟨p,hp,hmask⟩
  · simp [hgen y hg]
  · simp at hk
  · rw [hout,hnot]
    simp [h64]
  have hp := mem_pcsIn.mp hp
  obtain ⟨r,hr,⟨hle,hlt⟩,hy⟩ := getLsbD_handlerLiveMask.mp hmask
  obtain ⟨h,hh,hr⟩ := mem_filterMap.mp (mem_filter.mp hr).1
  obtain ⟨c,hc,rfl⟩ := map_eq_some_iff.mp hr
  have hneeds := (handler_needs hs hb hp hh hle hlt (mem_of_find?_eq_some hc)
    (startPc_of_find hc) hy).2
  simp [hneeds]

/-- The local is wanted at the instruction. -/
def LiveAt (code : Code) (handlers : List HandlerRange) (blocks : List BasicBlock) (n pc y : Nat) :
    Prop :=
  y < n ∧ ∃ b ∈ blocks, b.Holds code pc ∧
    (liveFrom code n (handlerLiveInRanges blocks handlers) b pc).getLsbD y = true

/-- The local is wanted behind the instruction. -/
def LiveBehind (code : Code) (handlers : List HandlerRange) (blocks : List BasicBlock)
    (n pc y : Nat) : Prop :=
  y < n ∧ ∃ b ∈ blocks, b.Holds code pc ∧
    (liveFrom code n (handlerLiveInRanges blocks handlers) b (pc+step code pc)).getLsbD y = true

theorem liveOut_of_successor {n : Nat} (hn : n ≤ 64) (hb : b ∈ blocks) {i q : Nat}
    (hi : i ∈ b.successors) (hat : StartsAt blocks i q) (hy : LiveAt code handlers blocks n q y) :
    b.liveOut.getLsbD y = true := by
  obtain ⟨hlt,c,hc,hholds,hlive⟩ := hy
  obtain ⟨hget,rfl⟩ := block_of_startsAt hs hat hc hholds
  rw [(hs.balanced b hb).1]
  exact getLsbD_unionLiveIn.mpr ⟨i,hi,c,hget,liveIn_of_walk hs hn hc hlt hlive⟩

theorem liveBehind_inner {n : Nat} (hb : b ∈ blocks)
    (hp : b.Holds code p) (hlt : p+step code p < b.endPc)
    (hy : LiveAt code handlers blocks n (p+step code p) y) : LiveBehind code handlers blocks n p y := by
  obtain ⟨hyn,c,hc,hholds,hlive⟩ := hy
  have heq := hs.cfg.unique hb hc ⟨hp.1.next,hlt⟩ hholds
  subst heq
  exact ⟨hyn,b,hb,hp,hlive⟩

theorem liveBehind_last {n : Nat} (hn : n ≤ 64) (hb : b ∈ blocks) {i q : Nat}
    (hp : b.Holds code p) (hlast : b.endPc ≤ p+step code p) (hi : i ∈ b.successors)
    (hat : StartsAt blocks i q) (hy : LiveAt code handlers blocks n q y) :
    LiveBehind code handlers blocks n p y := by
  refine ⟨hy.1,b,hb,hp,?_⟩
  rw [liveFrom_of_le hlast]
  exact liveOut_of_successor hs hn hb hi hat hy

omit hs in
theorem liveAt_of_behind {n : Nat} (hn : n ≤ 64) (hy : LiveBehind code handlers blocks n p y) :
    LiveAt code handlers blocks n p y ∨
      ∃ a, localAccess code p = some a ∧ a.isDef = true ∧ y = a.idx := by
  obtain ⟨hyn,b,hb,hp,hlive⟩ := hy
  by_cases hdef : ∃ a, localAccess code p = some a ∧ a.idx < n ∧ a.isUse = false ∧ a.isDef = true ∧
      y = a.idx
  · obtain ⟨a,ha,_,_,hd,hya⟩ := hdef
    exact .inr ⟨a,ha,hd,hya⟩
  refine .inl ⟨hyn,b,hb,hp,?_⟩
  rw [liveFrom_of_lt hp.2,getLsbD_liveBefore hn]
  exact .inr (.inr ⟨hlive,hdef⟩)

end

section
variable (hv : Verified code codeLen handlers)
include hv

variable {blocks : List BasicBlock} (hs : Solved code codeLen handlers blocks)
include hs

theorem liveBehind_of_next {n : Nat} (hn : n ≤ 64) {p q y : Nat} (hp : Jvms.Starts code p)
    (hlt : p < codeLen) (hnext : (program code handlers).next p q)
    (hy : LiveAt code handlers blocks n q y) : LiveBehind code handlers blocks n p y := by
  obtain ⟨hq,hqlt⟩ := next_starts hv hp hlt hnext
  have hqin := inCode_of_starts hv hq hqlt
  obtain ⟨insn,hdec,hnext⟩ := hnext
  obtain ⟨hstep,hfit,hfalls,htargets⟩ := verified_insn hv hp hlt hdec
  have huncond := isUnconditional_eq hdec
  obtain ⟨b,hb,hholds⟩ := hs.cfg.covers (inCode_of_starts hv hp hlt)
  have hfound := fun ht => target_found hv.within_code hv.short hfit hdec (q := q) ht hqlt
  by_cases hinner : p+step code p < b.endPc
  · have htransfers := hs.cfg.inner b hb hholds hinner
    simp only [transfers,or_eq_false_iff,isSome_eq_false_iff,isNone_iff_eq_none]
      at htransfers
    rcases hnext with ⟨_,rfl⟩ | ht
    · rw [← hstep] at hy
      exact liveBehind_inner hs hb hholds hinner hy
    rcases hfound ht with hbranch | ⟨hop,_⟩
    · rw [htransfers.1] at hbranch
      cases hbranch
    rcases hop with hop | hop
    all_goals
      rw [hop] at htransfers
      cases htransfers.2
  have hlast : b.endPc ≤ p+step code p := by omega
  rcases hnext with ⟨hf,rfl⟩ | ht
  · rw [hf,Bool.not_true] at huncond
    rw [← hstep] at hy hqlt
    obtain ⟨i,hi,hat⟩ := hs.cfg.falls b hb hholds hlast huncond hqlt
    exact liveBehind_last hs hn hb hholds hlast hi hat hy
  have htarget : offsetBranchTarget code p = some q ∨
      isSwitch code p = true ∧ q ∈ switchTargetsLenient code codeLen p := by
    rcases hfound ht with hbranch | ⟨hop,hmem⟩
    · exact .inl hbranch
    refine .inr ⟨?_,hmem⟩
    simpa [isSwitch] using hop
  obtain ⟨i,hi,hat⟩ := hs.cfg.target b hb hholds hlast htarget hqin
  exact liveBehind_last hs hn hb hholds hlast hi hat hy

theorem liveAt_of_leaves {n : Nat} (hn : n ≤ 64) {p q y : Nat} (hp : Jvms.Starts code p)
    (hlt : p < codeLen) (hleaves : (program code handlers).leaves p q)
    (hy : LiveAt code handlers blocks n q y) : LiveAt code handlers blocks n p y := by
  obtain ⟨h,hh,hle,hin,rfl⟩ := hleaves
  obtain ⟨hyn,c,hc,hholds,hlive⟩ := hy
  obtain ⟨b,hb,hpb⟩ := hs.cfg.covers (inCode_of_starts hv hp hlt)
  obtain ⟨hhandler,hhlt⟩ := hv.handler h hh
  obtain ⟨i,hi,hat⟩ := hs.cfg.throws b hb hpb h hh hle hin (inCode_of_starts hv hhandler hhlt)
  obtain ⟨_,hstart⟩ := block_of_startsAt hs hat hc hholds
  rw [← hstart] at hlive
  have hmask := (handler_needs hs hb hpb hh hle hin hc hstart (liveIn_of_walk hs hn hc hyn hlive)).1
  refine ⟨hyn,b,hb,hpb,?_⟩
  rw [liveFrom_of_lt hpb.2,getLsbD_liveBefore hn]
  exact .inl hmask

theorem liveAt_of_read {n : Nat} (hn : n ≤ 64) {p y : Nat} (hp : Jvms.Starts code p) (hlt : p < codeLen)
    (hy : y < n) (hread : (program code handlers).reads p y) : LiveAt code handlers blocks n p y := by
  obtain ⟨insn,hdec,hreads⟩ := hread
  have haccess := (localAccess_eq hdec).1
  rw [hreads] at haccess
  obtain ⟨a,ha,hread⟩ := bind_eq_some_iff.mp haccess
  obtain ⟨b,hb,hpb⟩ := hs.cfg.covers (inCode_of_starts hv hp hlt)
  refine ⟨hy,b,hb,hpb,?_⟩
  rw [liveFrom_of_lt hpb.2,getLsbD_liveBefore hn]
  unfold LocalAccess.read at hread
  split at hread
  · rename_i huse
    cases hread
    exact .inr (.inl ⟨a,ha,hy,huse,rfl⟩)
  · cases hread

end

theorem cheaper_cases (useCounts : List Nat) (s : Simplifying) (best : Option Nat) (i : Nat) :
    cheaper useCounts s best i = best ∨ cheaper useCounts s best i = some i := by
  unfold cheaper
  split
  · exact .inl rfl
  cases best with
  | none => exact .inr rfl
  | some j =>
    dsimp only
    split
    · exact .inr rfl
    · exact .inl rfl

variable {useCounts : List Nat} {s : Simplifying}

theorem foldl_cheaper_mem {is : List Nat} {best : Option Nat}
    {node : Nat} (h : is.foldl (cheaper useCounts s) best = some node) : best = some node ∨ node ∈ is := by
  induction is generalizing best with
  | nil => exact .inl h
  | cons i is ih => ?_
  rcases ih h with hbest | hmem
  · rcases cheaper_cases useCounts s best i with heq | heq
    · exact .inl (heq ▸ hbest)
    rw [heq] at hbest
    cases hbest
    exact .inr (by simp)
  · exact .inr (mem_cons_of_mem _ hmem)

theorem nextNode_lt {k n node : Nat}
    (h : nextNode k useCounts n s = some node) : node < n := by
  unfold nextNode at h
  split at h
  · rename_i node' hfind
    cases h
    exact mem_range.mp (mem_of_find?_eq_some hfind)
  rcases foldl_cheaper_mem h with hnone | hmem
  · cases hnone
  · exact mem_range.mp hmem

theorem simplify_stack {interference : List Mask} {k n : Nat} {rounds : Nat} (h : ∀ i ∈ s.stack, i < n) :
    ∀ i ∈ (simplify interference k useCounts n rounds s).stack, i < n := by
  induction rounds generalizing s with
  | zero => exact h
  | succ rounds ih => ?_
  unfold simplify
  split
  · rename_i node hnode
    refine ih fun i hi => ?_
    rcases mem_cons.mp hi with rfl | hi
    · exact nextNode_lt hnode
    · exact h i hi
  · exact h

theorem select_lt {interference : List Mask} {n : Nat} {available stack : List Nat}
    {assignments : List (Option Nat)} (hstack : ∀ i ∈ stack, i < n)
    (h : ∀ i reg, assignments.getD i none = some reg → i < n) :
    ∀ i reg, (select interference n available stack assignments).getD i none = some reg → i < n := by
  induction stack generalizing assignments with
  | nil => exact h
  | cons node stack ih => ?_
  have hrest : ∀ i ∈ stack, i < n := fun i hi => hstack i (mem_cons_of_mem _ hi)
  unfold select
  split
  · refine ih hrest fun i r hi => ?_
    by_cases hnode : node = i
    · rw [← hnode]
      exact hstack node (by simp)
    refine h i r ?_
    rw [← hi,getD_eq_getElem?_getD,getD_eq_getElem?_getD,getElem?_set_ne hnode]
  · exact ih hrest h

variable {i reg : Nat}

theorem colorGraph_lt {interference : List Mask} {available : List Nat}
    (h : (colorGraph interference numLocals available useCounts).getD i none = some reg) :
    i < min numLocals 64 := by
  have hnone : ∀ i reg, (replicate numLocals (none : Option Nat)).getD i none = some reg →
      i < min numLocals 64 := by
    intro i reg hi
    rw [getD_eq_getElem?_getD,getElem?_replicate] at hi
    split at hi
    · cases hi
    · cases hi
  unfold colorGraph at h
  dsimp only at h
  split at h
  · exact hnone i reg h
  · exact select_lt (simplify_stack (by simp)) hnone i reg h

theorem getD_mapIdx_some {α : Type} {l : List (Option α)} {f : Nat → Option α → Option α}
    (hf : ∀ i a r, f i a = some r → a = some r) {r : α}
    (h : (l.mapIdx f).getD i none = some r) : l.getD i none = some r := by
  rw [getD_eq_getElem?_getD,getElem?_mapIdx] at h
  rw [getD_eq_getElem?_getD]
  cases hl : l[i]? with
  | none =>
    rw [hl] at h
    cases h
  | some a =>
    rw [hl] at h
    exact hf i a r h

theorem colorLocals_lt {loops : List (Nat × Nat)} {gprRegs fpRegs : List Nat} {interference : List Mask}
    (h : (colorLocals code codeLen numLocals loops gprRegs fpRegs interference).1.getD i none = some reg ∨
      (colorLocals code codeLen numLocals loops gprRegs fpRegs interference).2.getD i none = some reg) :
    i < min numLocals 64 := by
  rcases h with h | h
  · refine colorGraph_lt (getD_mapIdx_some (fun i a r hr => ?_) h)
    split at hr
    · cases hr
    · exact hr
  refine colorGraph_lt (getD_mapIdx_some (fun i a r hr => ?_) h)
  split at hr
  · exact hr
  · cases hr

theorem respects_apart {assignments : List (Option Nat)} {interference : List Mask} {n : Nat}
    (h : respectsInterference assignments interference n = true) {j : Nat} (hij : i < j)
    (hj : j < n) (he : Edge interference i j) (hi : assignments.getD i none = some reg) :
    assignments.getD j none ≠ some reg := by
  intro hsame
  obtain ⟨row,hrow,hbit⟩ := he
  have hall := all_eq_true.mp h i (mem_range.mpr (by omega))
  rw [hi] at hall
  have hpair := all_eq_true.mp hall j (mem_range.mpr hj)
  have hget : interference.getD i 0 = row := by rw [getD_eq_getElem?_getD,hrow]; rfl
  rw [hget,hbit,hsame] at hpair
  simp [hij] at hpair

theorem home_cases (r : RegAllocResult) (y : Nat) :
    (∃ reg, r.home y = .gpr reg ∧ r.assignments.getD y none = some reg) ∨
      (∃ reg, r.home y = .xmm reg ∧ r.xmmAssignments.getD y none = some reg) ∨ r.home y = .frame y := by
  unfold RegAllocResult.home
  cases hg : r.assignments.getD y none with
  | some reg => exact .inl ⟨reg,rfl,rfl⟩
  | none =>
    cases hx : r.xmmAssignments.getD y none with
    | some reg => exact .inr (.inl ⟨reg,rfl,rfl⟩)
    | none => exact .inr (.inr rfl)

theorem frame_home {r : RegAllocResult} {y z : Nat} (h : r.home y = .frame z) : z = y := by
  rcases home_cases r y with ⟨reg,hr,_⟩ | ⟨reg,hr,_⟩ | hr
  · rw [hr] at h
    cases h
  · rw [hr] at h
    cases h
  rw [hr] at h
  cases h
  rfl

theorem home_noHomes (n y : Nat) : (RegAllocResult.noHomes n).home y = .frame y := by
  have hnone : (replicate n (none : Option Nat)).getD y none = none := by
    rw [getD_eq_getElem?_getD,getElem?_replicate]
    split
    · rfl
    · rfl
  unfold RegAllocResult.home RegAllocResult.noHomes
  rw [hnone]

/-- What makes an allocation sound. -/
structure Allocated (code : Code) (codeLen : Nat) (handlers : List HandlerRange) (n : Nat) (params : Mask)
    (r : RegAllocResult) (blocks : List BasicBlock) (interference : List Mask) : Prop where
  solved : Solved code codeLen handlers blocks
  homed : ∀ y, r.home y ≠ .frame y → y < n
  defs : ∀ {p a y}, localAccess code p = some a → a.isDef = true → a.idx < n → y < n → y ≠ a.idx →
    LiveBehind code handlers blocks n p y → Edge interference a.idx y ∧ Edge interference y a.idx
  params : ∀ {i j}, i < n → j < n → i ≠ j → params.getLsbD i = true → params.getLsbD j = true →
    Edge interference i j
  apart : ∀ {i j}, i < j → j < n → Edge interference i j → r.home i ≠ .frame i → r.home i ≠ r.home j

theorem getLsbD_validMask {n : Nat} (hn : n ≤ 64) (hi : i < n) : (validMask n).getLsbD i = true := by
  have h64 : i < 64 := by omega
  unfold validMask
  split
  · rw [getLsbD_allOnes]
    exact decide_eq_true h64
  · simp [getLsbD_ofNat,Nat.testBit_two_pow_sub_one,h64,hi]

theorem apart_of_respects {r : RegAllocResult} {interference : List Mask} {n : Nat}
    (hg : respectsInterference r.assignments interference n = true)
    (hx : respectsInterference r.xmmAssignments interference n = true) {j : Nat} (hij : i < j)
    (hj : j < n) (he : Edge interference i j) (hi : r.home i ≠ .frame i) : r.home i ≠ r.home j := by
  intro heq
  rcases home_cases r i with ⟨reg,hri,hai⟩ | ⟨reg,hri,hai⟩ | hri
  · rcases home_cases r j with ⟨reg',hrj,haj⟩ | ⟨reg',hrj,haj⟩ | hrj
    · rw [hri,hrj] at heq
      cases heq
      exact respects_apart hg hij hj he hai haj
    · rw [hri,hrj] at heq
      cases heq
    rw [hri,hrj] at heq
    cases heq
  · rcases home_cases r j with ⟨reg',hrj,haj⟩ | ⟨reg',hrj,haj⟩ | hrj
    · rw [hri,hrj] at heq
      cases heq
    · rw [hri,hrj] at heq
      cases heq
      exact respects_apart hx hij hj he hai haj
    rw [hri,hrj] at heq
    cases heq
  · exact hi hri

theorem allocated_of_invariants {blocks : List BasicBlock} (hs : Solved code codeLen handlers blocks)
    {params : Mask} {interference : List Mask}
    (hint : interference = addClique (min numLocals 64) (buildInterference code blocks numLocals
      (handlerLiveInRanges blocks handlers)) (params &&& validMask (min numLocals 64)))
    {loops : List (Nat × Nat)} {gprRegs fpRegs : List Nat} {r : RegAllocResult}
    (hgpr : r.assignments =
      (colorLocals code codeLen numLocals loops gprRegs fpRegs interference).1)
    (hxmm : r.xmmAssignments =
      (colorLocals code codeLen numLocals loops gprRegs fpRegs interference).2)
    {floatMask : Mask} (hinv : regallocInvariantsHold r.assignments r.xmmAssignments interference
      floatMask numLocals = true) :
    Allocated code codeLen handlers (min numLocals 64) params r blocks interference := by
  have hn : min numLocals 64 ≤ 64 := Nat.min_le_right _ _
  simp only [regallocInvariantsHold,and_eq_true] at hinv
  refine ⟨hs,fun y hy => ?_,fun ha hdef hidx hyn hne hlive => ?_,fun hi hj hne hpi hpj => ?_,
    fun hij hj he hi => apart_of_respects hinv.1.2 hinv.2 hij hj he hi⟩
  · rcases home_cases r y with ⟨reg,_,ha⟩ | ⟨reg,_,ha⟩ | hframe
    · exact colorLocals_lt (.inl (hgpr ▸ ha))
    · exact colorLocals_lt (.inr (hxmm ▸ ha))
    · exact absurd hframe hy
  · obtain ⟨_,b,hb,hp,hlive⟩ := hlive
    obtain ⟨h1,h2⟩ := edge_buildInterference hb hp ha hdef hidx hyn hne hlive
    rw [hint]
    exact ⟨(extends_addClique _ _).2 h1,(extends_addClique _ _).2 h2⟩
  rw [hint]
  refine edge_addClique ?_ hi hne ?_ ?_
  · rw [length_buildInterference]
    exact Nat.min_le_left _ _
  · rw [getLsbD_and,hpi,getLsbD_validMask hn hi]
    rfl
  rw [getLsbD_and,hpj,getLsbD_validMask hn hj]
  rfl

theorem allocateRegistersInner_cases (code : Code) (codeLen numLocals numParams : Nat)
    (paramSlots : List Nat) (loops : List (Nat × Nat)) (gprRegs fpRegs : List Nat)
    (handlers : List HandlerRange) :
    (∀ y, (allocateRegistersInner code codeLen numLocals numParams paramSlots loops gprRegs fpRegs
        handlers).home y = .frame y) ∨
      ∃ blocks interference, Allocated code codeLen handlers (min numLocals 64)
        (paramLiveInMask numParams paramSlots) (allocateRegistersInner code codeLen numLocals numParams
          paramSlots loops gprRegs fpRegs handlers) blocks interference := by
  unfold allocateRegistersInner
  split
  · exact .inl (home_noHomes 0)
  dsimp only
  split
  · exact .inl (home_noHomes numLocals)
  rename_i blocks hsolve
  split
  · rename_i hinv
    exact .inr ⟨blocks,_,allocated_of_invariants (solved_of_solveLiveness hsolve) rfl rfl rfl hinv⟩
  · exact .inl (home_noHomes numLocals)

def paramOrder (numParams : Nat) (paramSlots : List Nat) : List Nat :=
  if paramSlots.isEmpty then List.range numParams else paramSlots

theorem getLsbD_paramLiveInMask {numParams : Nat} {paramSlots : List Nat} {slot : Nat}
    (h : slot ∈ paramOrder numParams paramSlots) (h64 : slot < 64) :
    (paramLiveInMask numParams paramSlots).getLsbD slot = true := by
  unfold paramOrder at h
  unfold paramLiveInMask
  split at h
  · rename_i hempty
    have hlt := mem_range.mp h
    rw [if_pos hempty]
    split
    · rw [getLsbD_allOnes]
      exact decide_eq_true h64
    · simp [getLsbD_ofNat,Nat.testBit_two_pow_sub_one,h64,hlt]
  rename_i hempty
  rw [if_neg hempty]
  have hfold : ∀ (slots : List Nat) (mask : Mask), mask.getLsbD slot = true ∨ slot ∈ slots →
      (slots.foldl (fun mask slot => mask ||| bit slot) mask).getLsbD slot = true := by
    intro slots
    induction slots with
    | nil => simpa using h
    | cons s slots ih => ?_
    intro mask h
    refine ih _ ?_
    rcases h with h | h
    · exact .inl (by simp [h])
    rcases mem_cons.mp h with rfl | h
    · exact .inl (by simp [getLsbD_bit,h64])
    · exact .inr h
  exact hfold _ 0 (.inr (mem_filter.mpr ⟨h,decide_eq_true h64⟩))

section
variable {n : Nat} {params : Mask} {r : RegAllocResult} {blocks : List BasicBlock}
  {interference : List Mask} (hn : n ≤ 64)
  (ha : Allocated code codeLen handlers n params r blocks interference)
include ha

theorem Allocated.home_ne {i j : Nat} (hne : i ≠ j)
    (he : i < n → j < n → Edge interference i j ∧ Edge interference j i) : r.home i ≠ r.home j := by
  intro heq
  by_cases hi : r.home i = .frame i
  · rw [hi] at heq
    exact hne (frame_home heq.symm)
  by_cases hj : r.home j = .frame j
  · rw [hj] at heq
    exact hne (frame_home heq).symm
  have hin := ha.homed i hi
  have hjn := ha.homed j hj
  rcases Nat.lt_or_gt_of_ne hne with hlt | hgt
  · exact ha.apart hlt hjn (he hin hjn).1 hi heq
  · exact ha.apart hgt hin (he hin hjn).2 hj heq.symm

include hn

theorem Allocated.kept (hv : Verified code codeLen handlers) :
    Homes.Kept (program code handlers) r.home (fun p => Jvms.Starts code p ∧ p < codeLen)
      fun p y => r.home y = .frame y ∨ LiveAt code handlers blocks n p y := by
  have hs := ha.solved
  have hdefs : ∀ {p x}, (program code handlers).writes p = some x →
      ∃ a, localAccess code p = some a ∧ a.isDef = true ∧ a.idx = x := by
    intro p x hw
    obtain ⟨insn,hdec,hwrites⟩ := bind_eq_some_iff.mp hw
    have haccess := (localAccess_eq hdec).2
    rw [hwrites] at haccess
    obtain ⟨a,hacc,hwritten⟩ := bind_eq_some_iff.mp haccess
    unfold LocalAccess.written at hwritten
    split at hwritten
    · exact ⟨a,hacc,‹_›,some.inj hwritten⟩
    · cases hwritten
  have hwrites : ∀ {p a}, Jvms.Starts code p ∧ p < codeLen → localAccess code p = some a →
      a.isDef = true → (program code handlers).writes p = some a.idx := by
    intro p a hp hacc hdef
    obtain ⟨insn,hdec,_⟩ := hv.decodes hp.1 hp.2
    have haccess := (localAccess_eq hdec).2
    rw [hacc,bind_some,LocalAccess.written,if_pos hdef] at haccess
    exact bind_eq_some_iff.mpr ⟨insn,hdec,haccess.symm⟩
  constructor
  case next_ok => exact fun hp hnext => next_starts hv hp.1 hp.2 hnext
  case leave_ok =>
    rintro p q _ ⟨h,hh,_,_,rfl⟩
    exact hv.handler h hh
  case read =>
    intro p y hp hread
    by_cases hy : r.home y = .frame y
    · exact .inl hy
    · exact .inr (liveAt_of_read hv hs hn hp.1 hp.2 (ha.homed y hy) hread)
  case next =>
    rintro p q y hp hnext (hy | hy)
    · exact .inl (.inl hy)
    have hbehind := liveBehind_of_next hv hs hn hp.1 hp.2 hnext hy
    rcases liveAt_of_behind hn hbehind with hlive | ⟨a,hacc,hdef,rfl⟩
    · exact .inl (.inr hlive)
    · exact .inr (hwrites hp hacc hdef)
  case leave =>
    rintro p q y hp hleave (hy | hy)
    · exact .inl hy
    · exact .inr (liveAt_of_leaves hv hs hn hp.1 hp.2 hleave hy)
  case apart =>
    intro p q x y hp hnext hw hy hne
    obtain ⟨a,hacc,hdef,rfl⟩ := hdefs hw
    rcases hy with hy | hy
    · rw [hy]
      intro heq
      exact hne (frame_home heq.symm)
    have hbehind := liveBehind_of_next hv hs hn hp.1 hp.2 hnext hy
    exact ha.home_ne hne fun hyn hidx => (ha.defs hacc hdef hidx hyn hne hbehind).symm

end

theorem kept_of_frames {home : Nat → Home} (hframe : ∀ y, home y = .frame y)
    (hv : Verified code codeLen handlers) :
    Homes.Kept (program code handlers) home (fun p => Jvms.Starts code p ∧ p < codeLen)
      fun _ _ => True := by
  constructor
  case next_ok => exact fun hp hnext => next_starts hv hp.1 hp.2 hnext
  case leave_ok =>
    rintro p q _ ⟨h,hh,_,_,rfl⟩
    exact hv.handler h hh
  case read => exact fun _ _ => trivial
  case next => exact fun _ _ _ => .inl trivial
  case leave => exact fun _ _ _ => trivial
  case apart =>
    intro p q x y _ _ _ _ hne heq
    rw [hframe,hframe] at heq
    cases heq
    exact hne rfl

/-- Every load and `iinc` of a method that runs with its locals in their homes reads what was last
written to its local. -/
theorem homes_preserve_locals {V : Type} (hv : Verified code codeLen handlers)
    (numLocals numParams : Nat) (paramSlots : List Nat) (loops : List (Nat × Nat))
    (gprRegs fpRegs : List Nat) {home : Nat → Home}
    (hhome : home = (allocateRegistersInner code codeLen numLocals numParams paramSlots loops gprRegs
      fpRegs handlers).home)
    {args : List (Nat × V)} (hargs : args.map Prod.fst = paramOrder numParams paramSlots)
    {store : Home → V} {t : Homes.State Nat Nat Home V}
    (hrun : Homes.Runs home (program code handlers)
      (Homes.State.writeAll home ⟨0,store,fun _ => none⟩ args) t)
    {slot : Nat} (hread : (program code handlers).reads t.point slot) {v : V}
    (hlast : t.last slot = some v) : t.store (home slot) = v := by
  have hentry : Jvms.Starts code 0 ∧ 0 < codeLen := ⟨.zero,hv.nonempty⟩
  subst hhome
  rcases allocateRegistersInner_cases code codeLen numLocals numParams paramSlots loops gprRegs fpRegs
    handlers with hframe | ⟨blocks,interference,ha⟩
  · refine Homes.read_eq_last (kept_of_frames hframe hv) (fun a _ b _ hne heq => ?_) hentry hrun hread
      hlast
    rw [hframe,hframe] at heq
    exact hne (Home.frame.inj heq)
  refine Homes.read_eq_last (ha.kept (Nat.min_le_right _ _) hv) (fun a harg b hbrg hne => ?_) hentry
    hrun hread hlast
  refine ha.home_ne hne fun hi hj => ?_
  have hpa := getLsbD_paramLiveInMask (hargs ▸ mem_map_of_mem harg) (by omega)
  have hpb := getLsbD_paramLiveInMask (hargs ▸ mem_map_of_mem hbrg) (by omega)
  exact ⟨ha.params hi hj hne hpa hpb,ha.params hj hi (Ne.symm hne) hpb hpa⟩

/-- `iload_0; istore_1; iload_1; ireturn`, and a handler `pop; iload_0; ireturn` for the first two. -/
def copyOrKeep : Code := [0x1a,0x3c,0x1b,0xac,0x57,0x1a,0xac]

def copyOrKeepHandlers : List HandlerRange := [⟨0,2,4⟩]

theorem copyOrKeep_verified : Verified copyOrKeep 7 copyOrKeepHandlers := by
  have hinsn : ∀ p, p < 7 → ∃ insn, Jvms.decode copyOrKeep p = some insn ∧ insn.length = 1 ∧
      insn.targets = [] ∧ (insn.falls = true → p+1 < 7) := by decide
  have hstarts : ∀ p, p < 8 → Jvms.Starts copyOrKeep p := by
    intro p
    induction p with
    | zero => exact fun _ => .zero
    | succ p ih =>
      intro hp
      obtain ⟨insn,hdec,hlen,_⟩ := hinsn p (by omega)
      rw [← hlen]
      exact .next (ih (by omega)) hdec
  refine ⟨by decide,by decide,by decide,fun hp hlt => ?_,fun h hh => ?_⟩
  · obtain ⟨insn,hdec,hlen,htargets,hfalls⟩ := hinsn _ hlt
    refine ⟨insn,hdec,by omega,by rw [hlen]; exact hfalls,fun t ht => ?_⟩
    rw [htargets] at ht
    cases ht
  cases mem_singleton.mp hh
  exact ⟨hstarts 4 (by decide),by decide⟩

def copyOrKeepHome : Nat → Home :=
  (allocateRegistersInner copyOrKeep 7 2 1 [] [] [12,13] [0] copyOrKeepHandlers).home

/-- Both locals have registers, and the handler finds the argument in its own. -/
theorem homes_preserve_locals_copyOrKeep :
    copyOrKeepHome 0 = .gpr 13 ∧ copyOrKeepHome 1 = .gpr 12 ∧
    ∃ t : Homes.State Nat Nat Home Nat,
      Homes.Runs copyOrKeepHome (program copyOrKeep copyOrKeepHandlers)
        (Homes.State.writeAll copyOrKeepHome ⟨0,fun _ => 0,fun _ => none⟩ [(0,7)]) t ∧
      t.point = 5 ∧ t.store (copyOrKeepHome 0) = 7 := by
  refine ⟨by decide,by decide,?_⟩
  let start : Homes.State Nat Nat Home Nat :=
    Homes.State.writeAll copyOrKeepHome ⟨0,fun _ => 0,fun _ => none⟩ [(0,7)]
  have hload : Homes.Step copyOrKeepHome (program copyOrKeep copyOrKeepHandlers) start
      { start with point := 1 } := .pass rfl ⟨_,rfl,.inl ⟨rfl,rfl⟩⟩
  have hthrow : Homes.Step copyOrKeepHome (program copyOrKeep copyOrKeepHandlers)
      { start with point := 1 } { start with point := 4 } :=
    .leave ⟨⟨0,2,4⟩,by decide,by decide,by decide,rfl⟩
  have hpop : Homes.Step copyOrKeepHome (program copyOrKeep copyOrKeepHandlers)
      { start with point := 4 } { start with point := 5 } := .pass rfl ⟨_,rfl,.inl ⟨rfl,rfl⟩⟩
  have hrun := ((Relation.ReflTransGen.single hload).tail hthrow).tail hpop
  refine ⟨{ start with point := 5 },hrun,rfl,?_⟩
  exact homes_preserve_locals copyOrKeep_verified 2 1 [] [] [12,13] [0] rfl rfl hrun
    ⟨_,rfl,rfl⟩ rfl

end CratonVM.Jit.LocalHomes
