import CratonVM.Jit.Bce.RangeTransfer

/-!
Guard-dominated bounds-check elimination is sound: the states over-approximate every frame of every
execution, and the accesses that are discharged are in bounds.
-/
namespace CratonVM.Jit.Bce
open Bytecode Jvms RangeAnalysis Dataflow Worklist List Option Bool
variable {code : Code} {codeLen : Nat} {handlers : List HandlerRange} {targets : List Nat} {f : Frame}

theorem rangeStates_spec {t : StartTables} {state : Nat → Option RangeState}
    (h : rangeStates code codeLen handlers = some (t,targets,state)) :
    t = rangeStartTables code codeLen ∧ collectI16BranchTargets code codeLen = some targets ∧
      (∃ n, ∀ e ∈ rangeSeeds n handlers, t.Lands e.1 → Arrived Weaker state e) ∧
      ∀ pc here, state pc = some here → byteAt code pc ≠ none →
        ∀ e ∈ rangeEdges code t targets pc here, t.Lands e.1 → Arrived Weaker state e := by
  unfold rangeStates at h
  split at h
  · cases h
  obtain ⟨targets',htargets,h⟩ := bind_eq_some_iff.mp h
  obtain ⟨n,-,h⟩ := bind_eq_some_iff.mp h
  split at h
  · obtain ⟨solver,hsolve,h⟩ := bind_eq_some_iff.mp h
    obtain ⟨rfl,rfl,rfl⟩ : rangeStartTables code codeLen = t ∧ targets' = targets ∧ solver.state = state := by
      simpa using h
    obtain ⟨hsends,harrived⟩ := @foldl_rangePushTo_sends (rangeStartTables code codeLen)
      (rangeSeeds n handlers) ⟨fun _ => none,fun _ => 0,[]⟩
    obtain ⟨hsettled,hkeeps⟩ := rangeSolve_settled hsolve fun pc hpc => by
      obtain ⟨here,hhere⟩ := hpc
      rcases hsends.grows.known hhere with ⟨s,hs⟩ | hp
      · cases hs
      · exact .inl hp
    exact ⟨rfl,htargets,⟨n,fun e he hlands => hkeeps e (harrived e he hlands)⟩,
      fun pc here hhere => hsettled pc ⟨here,hhere⟩ here hhere⟩
  · cases h

section
variable (hv : Verified code codeLen handlers)
include hv

theorem Reachable.described {t : StartTables} {state : Nat → Option RangeState}
    (h : rangeStates code codeLen handlers = some (t,targets,state)) (hf : Reachable code handlers f) :
    ∃ st, state f.pc = some st ∧ Describes st f := by
  obtain ⟨rfl,htargets,⟨n,hseeds⟩,hedges⟩ := rangeStates_spec h
  have hlands : ∀ {pc}, Starts code pc ∧ pc < codeLen → (rangeStartTables code codeLen).Lands pc :=
    fun hpc => ⟨hpc.2,(mem_starts hv).mpr hpc⟩
  have harrives : ∀ {g : Frame} {s : RangeState}, Arrived Weaker state (g.pc,s) → Describes s g →
      ∃ st, state g.pc = some st ∧ Describes st g := by
    rintro g s ⟨st,hst,hweaker⟩ hd
    exact ⟨st,hst,hweaker g hd⟩
  obtain ⟨locals,heap,hrun⟩ := hf
  induction hrun with
  | refl =>
    exact harrives (hseeds (0,.top n) mem_cons_self (hlands ⟨.zero,hv.nonempty⟩)) (describes_top n _)
  | @tail g _ hrun hstep ih => ?_
  have hg : Reachable code handlers g := ⟨locals,heap,hrun⟩
  obtain ⟨hgs,hglt⟩ := hg.starts hv
  obtain ⟨st,hst,hd⟩ := ih
  cases hstep with
  | normal heff hheap => ?_
  | @throws q e heap' hleaves =>
    obtain ⟨r,hr,-,-,rfl⟩ := id hleaves
    exact harrives (hseeds (r.handlerPc,.top n)
      (mem_cons_of_mem _ (mem_map.mpr ⟨r,hr,rfl⟩)) (hlands (leaves_starts hv hleaves)))
      (describes_top n _)
  have hbyte : byteAt code g.pc ≠ none := by
    have := hv.within_code
    rw [LoopAnalysis.byteAt_of_lt (by omega)]
    exact some_ne_none _
  obtain ⟨s,hs,hds⟩ := hg.sent_effect hv htargets hd heff hheap
  exact harrives (hedges g.pc st hst hbyte _ hs (hlands (next_starts hv hgs hglt heff.next))) hds

/-- Behind the loads of the array and of the index both are on the stack, unless an exception came
in between. -/
theorem Reachable.indexed (htargets : collectI16BranchTargets code codeLen = some targets)
    (hf : Reachable code handlers f) {idxPc arrPc i a : Nat}
    (hidx : (rangeStartTables code codeLen).prev f.pc = some idxPc)
    (hi : extractIloadLocal code idxPc = some i)
    (harr : (rangeStartTables code codeLen).prev idxPc = some arrPc)
    (ha : extractAloadLocal code arrPc = some a)
    (hnot : ∀ pc, Starts code pc → arrPc < pc → pc ≤ f.pc → pc ∉ targets) :
    f.IsEntry ∨ (∃ v e, f.stack = [.int v,.ref (some e)] ∧ f.heap e = some .object) ∨
      ∃ v r rest, f.stack = .int v::.ref r::rest ∧ f.locals i = .int v ∧ f.locals a = .ref r := by
  obtain ⟨hip,-,hfp,-,hilt,-⟩ := prev_spec hv hidx
  obtain ⟨-,-,-,-,halt,-⟩ := prev_spec hv harr
  rcases hf.arrives_iload hv htargets hidx (hnot _ hfp (by omega) le_rfl) hi with
    hentry | ⟨g,v,hg,rfl,hv',hstack,hlocals,hheap⟩
  · exact .inl hentry
  rcases hg.arrives_aload hv htargets harr (hnot _ hip halt hilt.le) ha with
    ⟨e,he,hobject⟩ | ⟨g',r,-,-,hr,hgstack,-⟩
  · refine .inr (.inl ⟨v,e,?_,hheap e _ hobject⟩)
    rw [hstack,he]
  refine .inr (.inr ⟨v,r,g'.stack,?_,hv',?_⟩)
  · rw [hstack,hgstack]
  rw [hlocals]
  exact hr

theorem Reachable.access_locals (htargets : collectI16BranchTargets code codeLen = some targets)
    (hf : Reachable code handlers f) {a i r : Nat} {idx : Value} {n : JInt}
    (h : decodeArrayAccess code (rangeStartTables code codeLen) targets f.pc = some (a,i))
    (hops : accessOperands (opAt code f.pc) f.stack = some (.ref (some r),idx))
    (hn : f.heap r = some (.array n)) :
    ∃ v, idx = .int v ∧ f.locals i = .int v ∧ f.locals a = .ref (some r) := by
  obtain ⟨op,hop,h⟩ := bind_eq_some_iff.mp h
  obtain ⟨idxPc,hidx,h⟩ := bind_eq_some_iff.mp h
  obtain ⟨i',hi,h⟩ := bind_eq_some_iff.mp h
  obtain ⟨arrPc,harr,h⟩ := bind_eq_some_iff.mp h
  obtain ⟨a',ha,h⟩ := bind_eq_some_iff.mp h
  split at h
  · rename_i hatomic
    cases h
    rw [opAt_of_byteAt hop] at hops
    obtain ⟨hap,haplt,-,-,halt,-⟩ := prev_spec hv harr
    have hflt := (hf.starts hv).2
    have hnot : ∀ pc, Starts code pc → arrPc < pc → pc ≤ f.pc → pc ∉ targets := fun pc hpc h1 h2 =>
      spanIsAtomicFrom_spec hv hap haplt hatomic hpc (by omega) h1 h2
    unfold indexPush at hidx
    split at hidx
    · -- a load: the index is on top
      rename_i hload
      unfold accessOperands at hops
      rw [if_pos hload] at hops
      rcases hf.indexed hv htargets hidx hi harr ha hnot with
        ⟨e,hstack,-⟩ | ⟨v,e,hstack,hobject⟩ | ⟨v,r',rest,hstack,hv',hr'⟩
      · simp [hstack] at hops
      · rw [hstack] at hops
        cases hops
        rw [hobject] at hn
        cases hn
      rw [hstack] at hops
      cases hops
      exact ⟨v,rfl,hv',hr'⟩
    rename_i hload
    split at hidx
    · -- a store: the value is on top of them
      obtain ⟨valuePc,hvalue,hidx⟩ := bind_eq_some_iff.mp hidx
      obtain ⟨op',hop',hidx⟩ := bind_eq_some_iff.mp hidx
      unfold accessOperands at hops
      rw [if_neg hload] at hops
      split at hidx
      · rename_i hpush
        obtain ⟨-,-,hfp,-,hvlt,-⟩ := prev_spec hv hvalue
        obtain ⟨-,-,-,-,hilt,-⟩ := prev_spec hv hidx
        have hpush : isPush (opAt code valuePc) = true := by
          rw [opAt_of_byteAt hop']
          simp only [isSinglePush,isPush,within,or_eq_true,and_eq_true,decide_eq_true_eq]
            at hpush ⊢
          omega
        rcases hf.arrives_push hv htargets hvalue (hnot _ hfp (by omega) le_rfl) hpush with
          ⟨e,hstack,-⟩ | ⟨g,insn,x,hg,rfl,-,-,hstack,hlocals,hheap⟩
        · simp [hstack] at hops
        rcases hg.indexed hv htargets hidx hi harr ha (fun pc hpc h1 h2 => hnot pc hpc h1 (by omega))
          with ⟨e,hgstack,-⟩ | ⟨v,e,hgstack,hobject⟩ | ⟨v,r',rest,hgstack,hv',hr'⟩
        · simp [hstack,hgstack] at hops
        · rw [hstack,hgstack] at hops
          cases hops
          rw [hheap _ _ hobject] at hn
          cases hn
        rw [hstack,hgstack] at hops
        cases hops
        rw [hlocals]
        exact ⟨v,rfl,hv',hr'⟩
      · cases hidx
    · cases hidx
  · cases h

omit hv in
theorem isArrayAccess_of_decode {t : StartTables} {pc : Nat} {p : Nat × Nat}
    (h : decodeArrayAccess code t targets pc = some p) : isArrayAccess (opAt code pc) = true := by
  unfold decodeArrayAccess at h
  obtain ⟨op,hop,h⟩ := Option.bind_eq_some_iff.mp h
  obtain ⟨idxPc,hidx,-⟩ := Option.bind_eq_some_iff.mp h
  rw [opAt_of_byteAt hop,isArrayAccess]
  unfold indexPush at hidx
  split at hidx
  · rename_i hload
    rw [hload,Bool.true_or]
  split at hidx
  · rename_i hstore
    rw [hstore,Bool.or_true]
  · cases hidx

/-- Every state of the analysis describes every frame that any execution has there, and an access
that is discharged has its index in bounds. -/
theorem rangeSafePcs_inBounds :
    (∀ t targets state, rangeStates code codeLen handlers = some (t,targets,state) →
      ∀ f, Reachable code handlers f → ∃ st, state f.pc = some st ∧ Describes st f) ∧
    ∀ pc ∈ rangeSafePcs code codeLen handlers, isArrayAccess (opAt code pc) = true ∧
      ∀ f, Reachable code handlers f → f.pc = pc → ∀ r idx n,
        accessOperands (opAt code pc) f.stack = some (.ref (some r),idx) → f.heap r = some (.array n) →
        ∃ v : JInt, idx = .int v ∧ 0 ≤ (v : Int) ∧ (v : Int) < n := by
  refine ⟨fun t targets state h f hf => hf.described hv h,fun pc hpc => ?_⟩
  unfold rangeSafePcs at hpc
  cases hstates : rangeStates code codeLen handlers with
  | none => simp [hstates] at hpc
  | some result => ?_
  obtain ⟨t,targets,state⟩ := result
  rw [hstates] at hpc
  obtain ⟨rfl,htargets,-⟩ := rangeStates_spec hstates
  obtain ⟨-,hsafe⟩ := mem_filter.mp hpc
  unfold isSafe at hsafe
  split at hsafe
  · rename_i a i st hdecode hst
    obtain ⟨hnonneg,hproves⟩ := and_eq_true_iff.mp hsafe
    refine ⟨isArrayAccess_of_decode hdecode,?_⟩
    rintro f hf rfl r idx n hops hn
    obtain ⟨v,rfl,hi,ha⟩ := hf.access_locals hv htargets hdecode hops hn
    obtain ⟨st',hst',hd⟩ := hf.described hv hstates
    obtain rfl := some.inj (hst.symm.trans hst')
    refine ⟨v,rfl,?_,?_⟩
    · refine Range.nonneg_of_definitelyNonNegative hnonneg ?_
      rw [getD_eq_getElem?_getD]
      cases hr : st.locals[i]? with
      | none => exact Range.has_top v.property
      | some range => exact hd.ranges i range v hr hi
    unfold RangeState.provesLtLen at hproves
    split at hproves
    · cases hproves
    obtain ⟨u,m,r',hu,hr',hm,hlt⟩ := hd.pairs _ (contains_iff_mem.mp hproves)
    cases hi.symm.trans hu
    cases ha.symm.trans hr'
    cases hn.symm.trans hm
    exact hlt
  · cases hsafe

end

/-- `if (i >= 0 && i < a.length) return a[i]; return 0;` -/
def guardCode : Code :=
  [0x1b,0x9b,0x00,0x0d,0x1b,0x2a,0xbe,0xa2,0x00,0x07,0x2a,0x1b,0x2e,0xac,0x03,0xac]

theorem guardCode_verified : Verified guardCode 16 [] := verified_of_verifies (by decide)

def one : JInt := ⟨1,by unfold Range.Holds; decide⟩
def three : JInt := ⟨3,by unfold Range.Holds; decide⟩

def guardFrame (pc : Nat) (stack : List Value) : Frame :=
  ⟨pc,stack,fun l => if l = 0 then .ref (some 0) else .int one,fun _ => some (.array three)⟩

theorem guard_iload {pc : Nat} (stack : List Value)
    (hdec : decode guardCode pc = some ⟨1,[],true,some 1,none⟩) (hop : opAt guardCode pc = 0x1b) :
    Step guardCode [] (guardFrame pc stack) (guardFrame (pc+1) (.int one::stack)) := by
  have hpush : isPush (opAt guardCode pc) = true := by
    rw [hop]
    rfl
  refine .normal (@Effect.push guardCode (guardFrame pc stack) _ _ hdec hpush
    ⟨fun c hc => ?_,fun _ => ⟨1,one,rfl,rfl,rfl⟩,fun h => ?_⟩) fun _ _ hr => hr
  · simp [constantAt,guardFrame,hop,within] at hc
  · simp [guardFrame,hop,isAload,within] at h

theorem guard_aload {pc : Nat} (stack : List Value)
    (hdec : decode guardCode pc = some ⟨1,[],true,some 0,none⟩) (hop : opAt guardCode pc = 0x2a) :
    Step guardCode [] (guardFrame pc stack) (guardFrame (pc+1) (.ref (some 0)::stack)) := by
  have hpush : isPush (opAt guardCode pc) = true := by
    rw [hop]
    rfl
  refine .normal (@Effect.push guardCode (guardFrame pc stack) _ _ hdec hpush
    ⟨fun c hc => ?_,fun h => ?_,fun _ => ⟨0,some 0,rfl,rfl,rfl⟩⟩) fun _ _ hr => hr
  · simp [constantAt,guardFrame,hop,within] at hc
  · simp [guardFrame,hop,isIload,within] at h

theorem guardCode_reaches : Reachable guardCode [] (guardFrame 12 [.int one,.ref (some 0)]) := by
  have hkeep : Extends (guardFrame 0 []).heap (guardFrame 0 []).heap := fun _ _ hr => hr
  have hsign : Step guardCode [] (guardFrame 1 [.int one]) (guardFrame 4 []) :=
    .normal (@Effect.test _ _ ⟨3,[14],true,none,none⟩ .lt one [] 4 (by decide +kernel) (by decide)
      (by decide) rfl (.inr ⟨by unfold Rel.Holds; decide,rfl⟩)) hkeep
  have hlength : Step guardCode [] (guardFrame 6 [.ref (some 0),.int one])
      (guardFrame 7 [.int three,.int one]) :=
    .normal (@Effect.arraylength _ _ ⟨1,[],true,none,none⟩ 0 three [.int one] (by decide)
      (by decide) rfl rfl) hkeep
  have hbelow : Step guardCode [] (guardFrame 7 [.int three,.int one]) (guardFrame 10 []) :=
    .normal (@Effect.compare _ _ ⟨3,[14],true,none,none⟩ .ge one three [] 10 (by decide +kernel)
      (by decide) (by decide) rfl (.inr ⟨by unfold Rel.Holds; decide,rfl⟩)) hkeep
  refine ⟨(guardFrame 0 []).locals,(guardFrame 0 []).heap,?_⟩
  refine .head (guard_iload [] (by decide) (by decide)) (.head hsign ?_)
  refine .head (guard_iload [] (by decide) (by decide)) ?_
  refine .head (guard_aload _ (by decide) (by decide)) (.head hlength (.head hbelow ?_))
  refine .head (guard_aload [] (by decide) (by decide)) ?_
  exact .single (guard_iload _ (by decide) (by decide))

/-- The guarded access is discharged, and the index one of the array of three is in bounds. -/
theorem guardCode_inBounds :
    Verified guardCode 16 [] ∧ Reachable guardCode [] (guardFrame 12 [.int one,.ref (some 0)]) ∧
      12 ∈ rangeSafePcs guardCode 16 [] ∧
      ∃ v : JInt, Value.int one = .int v ∧ 0 ≤ (v : Int) ∧ (v : Int) < three := by
  have hsafe : 12 ∈ rangeSafePcs guardCode 16 [] := by decide +kernel
  have hinBounds := ((rangeSafePcs_inBounds guardCode_verified).2 12 hsafe).2 _ guardCode_reaches rfl
  exact ⟨guardCode_verified,guardCode_reaches,hsafe,hinBounds 0 _ three rfl rfl⟩

end CratonVM.Jit.Bce
