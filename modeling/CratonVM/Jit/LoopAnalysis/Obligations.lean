import CratonVM.Jit.LoopAnalysis.EntryValue
import CratonVM.Jit.LoopAnalysis.ExitTest

/-!
What a recognised loop promises to the passes behind: every iteration advances the induction local once
by the stride and runs the test, what it writes is in the mask, and the local enters with its constant.
-/
namespace CratonVM.Jit.LoopAnalysis
open Bytecode Jvms Scev List Option
open Bce (Frame Value JInt Effect InRegion isPush)
open LocalHomes (pcsIn mem_pcsIn)

structure Obligations (resolve : Nat → Option MinMax) (code : Code) (handlers : List HandlerRange)
    (header stop : Nat) (step : Frame → Frame → Prop) (l : CountedLoop) (t : Nat) : Prop where
  advances : ∀ {f₀ visited f}, Iteration resolve code handlers header stop l.iv.local_ f₀ visited f →
    visited ≠ [] → f.pc = header → AdvancesOnce l.iv.local_ l.iv.stride visited f
  tests : ∀ {f₀ visited f}, Iteration resolve code handlers header stop l.iv.local_ f₀ visited f →
    visited ≠ [] → f.pc = header → ∃ k ∈ visited, k.pc = t
  modified : ∀ {f₀ visited f}, Iteration resolve code handlers header stop l.iv.local_ f₀ visited f →
    ∀ k ∈ visited, ∀ slot, Overwrites code k.pc slot → slot < 64 ∧ l.modifiedLocals.testBit slot = true
  enters : ∀ c, l.iv.init = .constant c → EntersWith step header stop l.iv.local_ c

variable {resolve : Nat → Option MinMax} {code : Code} {codeLen : Nat} {handlers : List HandlerRange}
variable {header stop backEdgePc pc t : Nat} {form : LoopForm} {l : CountedLoop} {f₀ f : Frame}
variable {visited : List Frame}

theorem Iteration.region {iv : Nat} (hit : Iteration resolve code handlers header stop iv f₀ visited f)
    (hv : Verified code codeLen handlers) (hstop : header < stop) (hin : stop ≤ codeLen) :
    Region code codeLen handlers header stop := by
  induction hit with
  | start hs => exact ⟨hv,hs,hstop,hin⟩
  | step _ _ _ _ ih => exact ih

theorem findIvStride_spec {iv : Nat} {stride : Stride} {entries : List HandlerRange}
    (h : findIvStride code header stop iv entries = some stride) : ∃ advances,
      advancesFrom code header stop iv (stop-header) header [] = some advances ∧
      (∀ p s, (p,s) ∈ advances → s = stride) ∧
      ((∃ inc, advances = [(inc,stride)] ∧ advanceRunsOncePerIteration code header stop inc entries = true) ∨
        everyIterationRunsOneAdvance code header stop (advances.map Prod.fst) entries = true) := by
  unfold findIvStride at h
  split at h
  · cases h
  · cases h
  · rename_i inc s hfound
    split at h
    · rename_i honce
      cases h
      refine ⟨_,hfound,fun p s hp => ?_,.inl ⟨inc,rfl,honce⟩⟩
      cases mem_singleton.mp hp
      rfl
    · cases h
  rename_i p s rest _ hfound
  split at h
  · cases h
  rename_i hsame
  split at h
  · rename_i hevery
    cases h
    rw [Bool.not_eq_true,List.any_eq_false] at hsame
    refine ⟨_,hfound,fun p' s' hp => ?_,.inr hevery⟩
    rcases mem_cons.mp hp with hp | hp
    · cases hp
      rfl
    · simpa using hsame _ hp
  · cases h

theorem Region.advances_once {iv : Nat} (r : Region code codeLen handlers header stop) {stride : Stride}
    (h : findIvStride code header stop iv (handlerEntries codeLen handlers) = some stride)
    (hit : Iteration resolve code handlers header stop iv f₀ visited f) (hne : visited ≠ [])
    (hback : f.pc = header) : AdvancesOnce iv stride visited f := by
  obtain ⟨advances,hfound,hsame,hkind⟩ := findIvStride_spec h
  have hlabels : ∃ ran, Labels code handlers header stop (fun p => Overwrites code p iv) ran := by
    rcases hkind with ⟨inc,rfl,honce⟩ | hevery
    · obtain ⟨hreach,hlt,-⟩ := (advancesFrom_spec le_rfl .refl
        (show Trails code header [] header from trivial) hfound).1 inc stride (mem_singleton.mpr rfl)
      refine ⟨_,r.labels_single honce (r.starts hreach hlt).1 ⟨hreach.le,hlt⟩ fun p hp hin => ?_⟩
      rw [r.overwrites_iff_advance hfound hp hin]
      simp
    refine r.labels_several hevery fun p hp hin => ?_
    rw [r.overwrites_iff_advance hfound hp hin]
    simp
  obtain ⟨ran,hlabels⟩ := hlabels
  have honce := hit.advancesOnce hlabels (r.advanceSteps hfound hsame f₀) r.verified r.nonempty r.lt
  rwa [if_pos ⟨hback,hne⟩] at honce

theorem loopTestedAt_spec {entries : List HandlerRange} {modifiedLocals : Nat}
    (h : loopTestedAt code codeLen entries header backEdgePc stop form resolve modifiedLocals pc =
      some (l,t)) : t = pc ∧ l.modifiedLocals = modifiedLocals ∧
      iloadLocal code pc stop = some l.iv.local_ ∧ (∃ bound q cmp,
        decodeBoundExpr resolve code (pc+iloadLen code pc) stop = some (bound,q) ∧
        branchLandsIn code header stop pc q = false ∧ exitCmpOf (opAt code q) = some cmp ∧
        exitTestOnEveryIteration code header stop q entries = true) ∧
      findIvStride code header stop l.iv.local_ entries = some l.iv.stride ∧
      l.iv.init = ((constantIvInit code codeLen entries header stop l.iv.local_).map
        IntRange.constant).getD .unknown := by
  obtain ⟨candidate,hload,h⟩ := bind_eq_some_iff.mp h
  obtain ⟨⟨bound,q⟩,hlimit,h⟩ := bind_eq_some_iff.mp h
  dsimp only at h
  split at h
  · cases h
  split at h
  · cases h
  rename_i hland
  split at h
  · cases h
  obtain ⟨cmp,hcmp,h⟩ := bind_eq_some_iff.mp h
  obtain ⟨c,hc,-⟩ := map_eq_some_iff.mp hcmp
  split at h
  · cases h
  rename_i hevery
  obtain ⟨stride,hstride,h⟩ := bind_eq_some_iff.mp h
  cases h
  exact ⟨rfl,rfl,hload,⟨bound,q,c,hlimit,by simpa using hland,hc,by simpa using hevery⟩,hstride,rfl⟩

theorem analyzeCountedLoopAtWithHandlers_spec (hlen : codeLen ≤ code.length)
    (h : analyzeCountedLoopAtWithHandlers code codeLen header backEdgePc form resolve handlers =
      some (l,t)) :
    header < loopEnd code codeLen backEdgePc ∧
    handlerEntersFromOutside (handlerEntries codeLen handlers) header (loopEnd code codeLen backEdgePc) =
      false ∧
    ∃ modifiedLocals,
      modifiedLocalsStrict code header (loopEnd code codeLen backEdgePc) = some modifiedLocals ∧
      ∃ pc ∈ pcsIn code header (loopEnd code codeLen backEdgePc),
        loopTestedAt code codeLen (handlerEntries codeLen handlers) header backEdgePc
          (loopEnd code codeLen backEdgePc) form resolve modifiedLocals pc = some (l,t) := by
  unfold analyzeCountedLoopAtWithHandlers at h
  rw [Nat.min_eq_left hlen] at h
  dsimp only at h
  split at h
  · cases h
  split at h
  · cases h
  split at h
  · cases h
  rename_i hout
  obtain ⟨modifiedLocals,hmodified,h⟩ := bind_eq_some_iff.mp h
  obtain ⟨pc,hpc,h⟩ := exists_of_findSome?_eq_some h
  exact ⟨by omega,by simpa using hout,modifiedLocals,hmodified,pc,hpc,h⟩

theorem constant_of_init {c : Int} {found : Option Int}
    (h : (found.map IntRange.constant).getD .unknown = .constant c) : found = some c := by
  cases found with
  | none =>
    injection h with h1 h2
    simp [minInt,maxInt] at h1 h2
    omega
  | some n =>
    injection h with h1
    rw [h1]

/-- Every recognised loop meets its obligations, with the entries of the runs in which no exception of
the loop is caught between the store in front of it and its header. -/
theorem analyzeCountedLoopAtWithHandlers_obligations (hv : Verified code codeLen handlers)
    (h : analyzeCountedLoopAtWithHandlers code codeLen header backEdgePc form resolve handlers =
      some (l,t)) :
    Obligations resolve code handlers header (loopEnd code codeLen backEdgePc)
      (KeptStep code handlers header (loopEnd code codeLen backEdgePc) l.iv.local_) l t := by
  obtain ⟨hstop,hout,modifiedLocals,hmodified,pc,hpc,htested⟩ :=
    analyzeCountedLoopAtWithHandlers_spec hv.within_code h
  obtain ⟨rfl,hmask,hload,⟨bound,q,cmp,hlimit,hland,hcmp,hevery⟩,hstride,hinit⟩ := loopTestedAt_spec htested
  have hin : loopEnd code codeLen backEdgePc ≤ codeLen := Nat.min_le_right _ _
  obtain ⟨hreach,-⟩ := mem_pcsIn.mp hpc
  refine ⟨fun hit hne hback => ?_,fun hit hne hback => ?_,fun hit k hk slot hw => ?_,fun c hc => ?_⟩
  · exact (hit.region hv hstop hin).advances_once hstride hit hne hback
  · exact (hit.region hv hstop hin).visits_test hreach hload hlimit hland hcmp hevery hit hne hback
  · have r := hit.region hv hstop hin
    obtain ⟨hks,-⟩ := (hit.starts hv r.lt).2 k hk
    have hkin := (hit.inRegion hstop).2 k hk
    rw [hmask]
    exact modifiedLocalsStrict_covers r.within_code hmodified (r.reaches hks hkin) hkin.2 hw
  · exact constantIvInit_enters hv hstop hin hout (constant_of_init (hinit.symm.trans hc))

/-- `aconst_null; i = 0; pop; while (i < n) { i++; n / 0; }`, where the `pop` catches the exception of
the division and goes on into the loop. -/
def caughtCode : Code :=
  [0x01,0x03,0x3c,0x57,0x1b,0x1a,0xa2,0x00,0x0d,0x84,0x01,0x01,0x1a,0x03,0x6c,0x57,0xa7,0xff,0xf4,0xb1]

def caughtHandlers : List HandlerRange := [⟨12,15,3⟩]

def caughtLoop : CountedLoop :=
  ⟨⟨1,.constant 0,.const 1⟩,.ge,.local_ 0,.unknown,.preTested,2,true,false⟩

theorem caughtCode_verified : Verified caughtCode 20 caughtHandlers := verified_of_verifies (by decide)

theorem caughtCode_recognised : analyzeCountedLoopAtWithHandlers caughtCode 20 4 16 .preTested
    (fun _ => none) caughtHandlers = some (caughtLoop,4) := by decide

theorem caughtCode_obligations : Verified caughtCode 20 caughtHandlers ∧
    Obligations (fun _ => none) caughtCode caughtHandlers 4 19
      (KeptStep caughtCode caughtHandlers 4 19 1) caughtLoop 4 := by
  have hend : loopEnd caughtCode 20 16 = 19 := by decide
  have hmeets := analyzeCountedLoopAtWithHandlers_obligations caughtCode_verified caughtCode_recognised
  rw [hend] at hmeets
  exact ⟨caughtCode_verified,hmeets⟩

def zero : JInt := ⟨0,by unfold RangeAnalysis.Range.Holds; decide⟩
theorem holds_small (n : Fin 4) : RangeAnalysis.Range.Holds .w32 (n : Nat) := by
  unfold RangeAnalysis.Range.Holds
  revert n
  decide

def one : JInt := ⟨1,holds_small 1⟩
def three : JInt := ⟨3,holds_small 3⟩

def caughtFrame (pc : Nat) (i : Value) (stack : List Value) : Frame :=
  ⟨pc,stack,fun slot => if slot = 1 then i else .int three,fun _ => some .object⟩

theorem caught_iload (slot : Nat) {pc : Nat} {i : Value} {n : JInt} {stack : List Value}
    (hdec : decode caughtCode pc = some ⟨1,[],true,some slot,none⟩)
    (hop : opAt caughtCode pc = 0x1a ∨ opAt caughtCode pc = 0x1b)
    (hn : (caughtFrame pc i stack).locals slot = .int n) :
    Bce.Step caughtCode caughtHandlers (caughtFrame pc i stack) (caughtFrame (pc+1) i (.int n::stack)) := by
  have hpush : isPush (opAt caughtCode pc) = true := by
    rcases hop with hop | hop <;> rw [hop] <;> rfl
  refine .normal (@Effect.push caughtCode (caughtFrame pc i stack) _ _ hdec hpush
    ⟨fun c hc => ?_,fun _ => ⟨slot,n,rfl,hn,rfl⟩,fun h => ?_⟩) fun _ _ hr => hr
  · rcases hop with hop | hop <;> simp [Bce.constantAt,caughtFrame,hop,within] at hc
  · rcases hop with hop | hop <;> simp [caughtFrame,hop,Bce.isAload,within] at h

theorem caught_iconst {pc : Nat} {i : Value} {stack : List Value}
    (hdec : decode caughtCode pc = some ⟨1,[],true,none,none⟩) (hop : opAt caughtCode pc = 0x03) :
    Bce.Step caughtCode caughtHandlers (caughtFrame pc i stack) (caughtFrame (pc+1) i (.int zero::stack)) := by
  have hpush : isPush (opAt caughtCode pc) = true := by
    rw [hop]
    rfl
  refine .normal (@Effect.push caughtCode (caughtFrame pc i stack) _ _ hdec hpush
    ⟨fun c hc => ⟨zero,rfl,?_⟩,fun h => ?_,fun h => ?_⟩) fun _ _ hr => hr
  · simp [Bce.constantAt,caughtFrame,hop,within] at hc
    rw [← hc]
    rfl
  · simp [caughtFrame,hop,Bce.isIload,within] at h
  · simp [caughtFrame,hop,Bce.isAload,within] at h

theorem caughtCode_run : Relation.ReflTransGen (Bce.Step caughtCode caughtHandlers)
    (caughtFrame 0 .other []) (caughtFrame 3 (.int one) [.ref (some 0)]) := by
  have hkeep : Bce.Extends (caughtFrame 0 .other []).heap (caughtFrame 0 .other []).heap := fun _ _ hr => hr
  have hnull : Bce.Step caughtCode caughtHandlers (caughtFrame 0 .other [])
      (caughtFrame 1 .other [.ref none]) := by
    refine .normal (@Effect.push caughtCode (caughtFrame 0 .other []) ⟨1,[],true,none,none⟩ _
      (by decide) (by decide) ⟨fun c hc => ?_,fun h => ?_,fun h => ?_⟩) hkeep
    · exact absurd hc (by simp [Bce.constantAt,caughtFrame,show opAt caughtCode 0 = 0x01 from rfl,within])
    · exact absurd h (by decide)
    · exact absurd h (by decide)
  have hstore : Bce.Step caughtCode caughtHandlers (caughtFrame 2 .other [.int zero,.ref none])
      (caughtFrame 3 (.int zero) [.ref none]) := by
    refine .normal (@Effect.store caughtCode _ ⟨1,[],true,none,some 1⟩ 1 (.int zero) [.ref none] _
      (by decide) (by decide) rfl rfl (fun _ => ⟨zero,rfl⟩) (fun _ => rfl) fun slot hslot => ?_) hkeep
    have hne : slot ≠ 1 := fun heq => hslot ⟨⟨1,[],true,none,some 1⟩,1,by decide,rfl,.inl heq⟩
    simp [caughtFrame,hne]
  have hpop : Bce.Step caughtCode caughtHandlers (caughtFrame 3 (.int zero) [.ref none])
      (caughtFrame 4 (.int zero) []) :=
    .normal (.any (by decide) ⟨⟨1,[],true,none,none⟩,by decide,.inl ⟨rfl,rfl⟩⟩) hkeep
  have htest : Bce.Step caughtCode caughtHandlers
      (caughtFrame 6 (.int zero) [.int three,.int zero]) (caughtFrame 9 (.int zero) []) :=
    .normal (@Effect.compare _ _ ⟨3,[19],true,none,none⟩ .ge zero three [] 9 (by decide +kernel)
      (by decide) (by decide) rfl (.inr ⟨by unfold Bce.Rel.Holds; decide,rfl⟩)) hkeep
  have hinc : Bce.Step caughtCode caughtHandlers (caughtFrame 9 (.int zero) [])
      (caughtFrame 12 (.int one) []) := by
    refine .normal (@Effect.iinc _ _ ⟨3,[],true,some 1,some 1⟩ 1 1 zero one _ (by decide)
      (by decide) rfl (by decide) rfl (by decide) rfl fun slot hne => ?_) hkeep
    simp [caughtFrame,hne]
  have hthrow : Bce.Step caughtCode caughtHandlers
      (caughtFrame 14 (.int one) [.int zero,.int three]) (caughtFrame 3 (.int one) [.ref (some 0)]) :=
    .throws ⟨⟨12,15,3⟩,by decide,by decide,by decide,rfl⟩ hkeep rfl
  refine .head hnull (.head (caught_iconst (by decide) (by decide)) (.head hstore (.head hpop ?_)))
  refine .head (caught_iload 1 (by decide) (.inr (by decide)) rfl) ?_
  refine .head (caught_iload 0 (by decide) (.inl (by decide)) rfl) (.head htest (.head hinc ?_))
  refine .head (caught_iload 0 (by decide) (.inl (by decide)) rfl) ?_
  exact .head (caught_iconst (by decide) (by decide)) (.single hthrow)

/-- The loop is recognised with the entry value 0, and entered with 1. -/
theorem caughtCode_enters_with_one : Verified caughtCode 20 caughtHandlers ∧
    analyzeCountedLoopAtWithHandlers caughtCode 20 4 16 .preTested (fun _ => none) caughtHandlers =
      some (caughtLoop,4) ∧ loopEnd caughtCode 20 16 = 19 ∧
    ¬ Obligations (fun _ => none) caughtCode caughtHandlers 4 19 (Bce.Step caughtCode caughtHandlers)
      caughtLoop 4 := by
  refine ⟨caughtCode_verified,caughtCode_recognised,by decide,fun hmeets => ?_⟩
  have hpop : Bce.Step caughtCode caughtHandlers (caughtFrame 3 (.int one) [.ref (some 0)])
      (caughtFrame 4 (.int one) []) :=
    .normal (.any (by decide) ⟨⟨1,[],true,none,none⟩,by decide,.inl ⟨rfl,rfl⟩⟩) fun _ _ hr => hr
  obtain ⟨n,hn,hzero⟩ := hmeets.enters 0 rfl _ _ _ _ caughtCode_run hpop
    (by unfold InRegion; decide) (by unfold InRegion; decide)
  cases hn
  cases hzero

end CratonVM.Jit.LoopAnalysis
