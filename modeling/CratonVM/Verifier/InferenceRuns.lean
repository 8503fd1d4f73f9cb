import CratonVM.Lib.ByteReader
import CratonVM.Lib.GraphSearch
import CratonVM.Verifier.AssignabilityLaws
import CratonVM.Verifier.Inference

/-!
The table `verify_by_inference` settles on is closed under the edges of the method in every run in
which no covered instruction changes the locals and no merge takes a changed frame for unchanged.
-/
namespace CratonVM.Verifier
open List

open Reader (Instruction)
open Dataflow Outcome

def FrameLe (h : ClassHierarchy) (f g : VerificationFrame) : Prop := f.isAssignableTo h g = true

/-- A merge that is an upper bound, and that is seen when it changes the frame. -/
def SoundMerge (h : ClassHierarchy) (existing incoming : VerificationFrame) : Prop :=
  ¬ VerificationFrame.MixesNull existing incoming ∧
    ∀ merged, existing.merge h incoming = .ok merged → merged.isAssignableTo h existing = true →
      existing.isAssignableTo h merged = true → merged = existing

/-- The merges that a list of edges makes, one after another. -/
def SoundMerges (h : ClassHierarchy) :
    (Nat → Option VerificationFrame) → List (Except Refusal (Nat × VerificationFrame)) → Prop
  | _,[] => True
  | frameAt,edge :: rest => ∀ target incoming, edge = .ok (target,incoming) →
    (∀ existing, frameAt target = some existing → incoming.isAssignableTo h existing = false →
      SoundMerge h existing incoming) ∧
    ∀ frameAt' changed, mergeInferenceFrame h frameAt target incoming = .ok (frameAt',changed) →
      SoundMerges h frameAt' rest

section
variable {h : ClassHierarchy} (hl : h.Lawful) (hr : VType.MergesWiden h)

/-- The same offsets are on the worklist, each once, and in the set. -/
structure Inference.Synced (s : Inference) : Prop where
  nodup : s.worklist.Nodup
  same : ∀ pc, pc ∈ s.worklist ↔ pc ∈ s.enqueued

variable {s : Inference}

theorem Inference.Synced.enqueue (hs : s.Synced)
    (frameAt : Nat → Option VerificationFrame) (pc : Nat) :
    ({ s with frameAt := frameAt }.enqueue pc).Synced := by
  unfold Inference.enqueue
  split
  · exact ⟨hs.nodup,hs.same⟩
  rename_i hpc
  refine ⟨nodup_cons.mpr ⟨fun hw => hpc ((hs.same pc).mp hw),hs.nodup⟩,fun k => ?_⟩
  simp [hs.same k]

theorem Inference.mem_enqueue {pc k : Nat} :
    k ∈ (s.enqueue pc).enqueued ↔ k = pc ∨ k ∈ s.enqueued := by
  unfold Inference.enqueue
  split
  · rename_i hpc
    constructor
    · exact .inr
    intro hk
    rcases hk with rfl | hk
    · exact hpc
    · exact hk
  · simp

@[simp] theorem Inference.enqueue_frameAt (s : Inference) (pc : Nat) :
    (s.enqueue pc).frameAt = s.frameAt := by
  unfold Inference.enqueue
  split <;> rfl

/-- What one or several merges do to the loop's variables. -/
structure Propagated (h : ClassHierarchy) (s s' : Inference) : Prop where
  grows : Grows (FrameLe h) (· ∈ s'.enqueued) s.frameAt s'.frameAt
  keeps : ∀ k ∈ s.enqueued, k ∈ s'.enqueued
  synced : s.Synced → s'.Synced
  known : (∀ k ∈ s.enqueued, ∃ frame, s.frameAt k = some frame) →
    ∀ k ∈ s'.enqueued, ∃ frame, s'.frameAt k = some frame

theorem Propagated.refl (s : Inference) : Propagated h s s :=
  ⟨.refl _ _,fun _ hk => hk,fun hs => hs,fun hk => hk⟩

theorem Propagated.trans {t u : Inference} (h₁ : Propagated h s t) (h₂ : Propagated h t u) :
    Propagated h s u :=
  ⟨h₁.grows.trans h₂.grows h₂.keeps,fun k hk => h₂.keeps k (h₁.keeps k hk),
    fun hs => h₂.synced (h₁.synced hs),fun hk => h₂.known (h₁.known hk)⟩

theorem Propagated.target {target : Nat} {frame : VerificationFrame}
    (hg : Grows (FrameLe h) (fun k => k = target ∨ k ∈ s.enqueued) s.frameAt
      (update s.frameAt target frame)) :
    Propagated h s ({ s with frameAt := update s.frameAt target frame }.enqueue target) where
  grows := by
    rw [Inference.enqueue_frameAt]
    exact ⟨fun hs => by simpa only [Inference.mem_enqueue] using hg.absorbs hs,
      fun ht => by simpa only [Inference.mem_enqueue] using hg.known ht⟩
  keeps := fun k hk => Inference.mem_enqueue.mpr (.inr hk)
  synced := fun hs => hs.enqueue _ _
  known := by
    intro hknown k hk
    rw [Inference.enqueue_frameAt]
    show ∃ f, update s.frameAt target frame k = some f
    by_cases hkt : k = target
    · subst hkt
      exact ⟨frame,update_same _ _ _⟩
    rw [update_other _ _ hkt]
    exact hknown k ((Inference.mem_enqueue.mp hk).resolve_left hkt)

include hl hr

theorem absorbs_merge {existing incoming merged : VerificationFrame}
    (hm : existing.merge h incoming = .ok merged)
    (hmix : ¬ VerificationFrame.MixesNull existing incoming) :
    Absorbs (FrameLe h) existing merged ∧ FrameLe h incoming merged :=
  ⟨fun _ hx => (VerificationFrame.merge_absorbs hl hr hm hmix).1 hx,
    (VerificationFrame.merge_absorbs hl hr hm hmix).2 (VerificationFrame.isAssignableTo_refl _)⟩

theorem propagate_spec {oldMerges : Bool} {s' : Inference} {target : Nat}
    {incoming : VerificationFrame}
    (hsound : ∀ existing, s.frameAt target = some existing →
      incoming.isAssignableTo h existing = false → SoundMerge h existing incoming)
    (hp : propagate h oldMerges s (target,incoming) = .ok s') :
    Propagated h s s' ∧ Arrived (FrameLe h) s'.frameAt (target,incoming) ∧
      ∃ changed, mergeInferenceFrame h s.frameAt target incoming = .ok (s'.frameAt,changed) := by
  unfold propagate at hp
  split at hp
  · cases hp
  obtain ⟨⟨frameAt,changed⟩,hm,hs'⟩ := bind_eq_ok.mp hp
  have hmerge := hm
  unfold mergeInferenceFrame at hm
  split at hm
  · rename_i hnone
    cases hm
    cases hs'
    refine ⟨.target (.insert hnone (.inl rfl)),?_,true,by simpa using hmerge⟩
    rw [Inference.enqueue_frameAt]
    exact ⟨incoming,update_same _ _ _,VerificationFrame.isAssignableTo_refl _⟩
  rename_i existing hexisting
  split at hm
  · rename_i hle
    cases hm
    cases hs'
    exact ⟨.refl _,⟨existing,hexisting,hle⟩,false,hmerge⟩
  rename_i hle
  obtain ⟨merged,hmerged,hpair⟩ := bind_eq_ok.mp hm
  obtain ⟨hmix,hsame⟩ := hsound existing hexisting (Bool.eq_false_iff.mpr hle)
  obtain ⟨habs,hin⟩ := absorbs_merge hl hr hmerged hmix
  cases hpair
  simp only at hs'
  split at hs'
  · cases hs'
    refine ⟨.target (.replace hexisting habs (.inr (.inl rfl))),?_,_,by simpa using hmerge⟩
    rw [Inference.enqueue_frameAt]
    exact ⟨merged,update_same _ _ _,hin⟩
  rename_i hch
  cases hs'
  simp only [Bool.or_eq_true,Bool.not_eq_true',not_or,Bool.not_eq_false] at hch
  have hg : Grows (FrameLe h) (· ∈ s.enqueued) s.frameAt (update s.frameAt target merged) :=
    .replace hexisting habs (.inl (hsame merged hmerged hch.1 hch.2))
  refine ⟨⟨hg,fun _ hk => hk,fun hs => ⟨hs.nodup,hs.same⟩,fun hknown k hk => ?_⟩,
    ⟨merged,update_same _ _ _,hin⟩,_,hmerge⟩
  obtain ⟨frame,hframe⟩ := hknown k hk
  obtain ⟨frame',hframe',_⟩ := hg.absorbs hframe
  exact ⟨frame',hframe'⟩

theorem foldlM_propagate_spec {oldMerges : Bool}
    {edges : List (Except Refusal (Nat × VerificationFrame))} {s' : Inference}
    (hsound : SoundMerges h s.frameAt edges)
    (hf : edges.foldlM (fun s edge => do propagate h oldMerges s (← edge)) s = .ok s') :
    Propagated h s s' ∧ ∀ edge ∈ edges, ∃ e, edge = .ok e ∧ Arrived (FrameLe h) s'.frameAt e := by
  induction edges generalizing s with
  | nil =>
    cases hf
    exact ⟨.refl _,by simp⟩
  | cons edge rest ih => ?_
  rw [foldlM_cons,bind_eq_ok] at hf
  obtain ⟨t,hstep,hrest⟩ := hf
  obtain ⟨⟨target,incoming⟩,hedge,hp⟩ := bind_eq_ok.mp hstep
  obtain ⟨hhere,hlater⟩ := hsound target incoming hedge
  obtain ⟨hpt,harr,changed,hm⟩ := propagate_spec hl hr hhere hp
  obtain ⟨hrest',hall⟩ := ih (hlater _ _ hm) hrest
  refine ⟨hpt.trans hrest',?_⟩
  intro e he
  rcases mem_cons.mp he with rfl | he
  · exact ⟨(target,incoming),hedge,harr.grows hrest'.grows⟩
  · exact hall e he

end

variable {s : Inference} {oldTexts : Bool}

theorem Inference.Synced.take (hs : s.Synced) {pc : Nat}
    (hn : s.next oldTexts = some pc) : (s.take oldTexts pc).Synced := by
  cases oldTexts with
  | true =>
    refine ⟨hs.nodup.filter _,fun k => ?_⟩
    simp [Inference.take,hs.same k]
  | false => ?_
  obtain ⟨rest,hrest⟩ : ∃ rest, s.worklist = pc :: rest := by
    cases hw : s.worklist with
    | nil => simp [Inference.next,hw] at hn
    | cons a rest =>
      simp only [Inference.next,hw] at hn
      cases hn
      exact ⟨rest,rfl⟩
  have hnodup := hs.nodup
  rw [hrest,nodup_cons] at hnodup
  refine ⟨?_,fun k => ?_⟩
  · simp only [Inference.take,hrest]
    exact hnodup.2
  have hk := hs.same k
  rw [hrest,mem_cons] at hk
  simp only [Inference.take,hrest,mem_filter,decide_eq_true_eq]
  constructor
  · intro hmem
    refine ⟨hk.mp (.inr hmem),?_⟩
    intro hkpc
    exact hnodup.1 (hkpc ▸ hmem)
  intro ⟨hmem,hne⟩
  exact (hk.mpr hmem).resolve_left hne

theorem Inference.mem_of_next (hs : s.Synced) {pc : Nat}
    (hn : s.next oldTexts = some pc) : pc ∈ s.enqueued := by
  cases oldTexts with
  | true =>
    simp only [Inference.next,if_true,Option.or_eq_some_iff] at hn
    rcases hn with hn | ⟨-,hn⟩
    · exact (mem_filter.mp (min?_mem hn)).1
    · exact min?_mem hn
  | false => exact (hs.same pc).mp (mem_of_mem_head? hn)

theorem Inference.Synced.done (hs : s.Synced)
    (hn : s.next oldTexts = none) (pc : Nat) : pc ∉ s.enqueued := by
  cases oldTexts with
  | true =>
    simp only [Inference.next,if_true,Option.or_eq_none_iff,min?_eq_none_iff] at hn
    simp [hn.2]
  | false => ?_
  simp only [Inference.next,Bool.false_eq_true,if_false,head?_eq_none_iff] at hn
  intro hpc
  have hw := (hs.same pc).mpr hpc
  rw [hn] at hw
  cases hw

namespace MethodCode
variable (m : MethodCode)

/-- What a round has to meet: a covered instruction leaves the locals as they are, and every merge
is an upper bound that is seen. -/
def SoundRound (s : Inference) (pc : Nat) : Prop :=
  ∀ {frame insn next fallback result current}, s.frameAt pc = some frame → pc < m.code.length →
    Instruction.decode m.code pc = .ok (insn,next) →
    verifyInstruction (m.context m.hierarchy.watch s.newSites fallback) insn pc frame
      = .ok (result,current) →
    (∀ entry ∈ m.exceptionTable, entry.covers pc = true → current.locals = frame.locals) ∧
      SoundMerges m.hierarchy.watch s.frameAt (m.inferenceEdges pc next result current)

/-- The instruction at `pc` has been visited with the frame the table holds for it. -/
def Settled (s : Inference) (pc : Nat) : Prop :=
  pc < m.code.length → ∃ frame insn next result current newSites fallback,
    s.frameAt pc = some frame ∧
    Instruction.decode m.code pc = .ok (insn,next) ∧
    verifyInstruction (m.context m.hierarchy.watch newSites fallback) insn pc frame
      = .ok (result,current) ∧
    (∀ entry ∈ m.exceptionTable, entry.covers pc = true → current.locals = frame.locals) ∧
    ∀ edge ∈ m.inferenceEdges pc next result current,
      ∃ e, edge = .ok e ∧ Arrived (FrameLe m.hierarchy.watch) s.frameAt e

structure LoopOk (s : Inference) : Prop where
  synced : s.Synced
  known : ∀ pc ∈ s.enqueued, ∃ frame, s.frameAt pc = some frame
  start : Arrived (FrameLe m.hierarchy.watch) s.frameAt (0,m.initialFrame)
  covered : Worklist.Covered (fun s pc => ∃ frame, s.frameAt pc = some frame) m.Settled s
    (· ∈ s.enqueued)

variable {m}

theorem Settled.grows {s s' : Inference} {pc : Nat} (hs : m.Settled s pc)
    (hp : Propagated m.hierarchy.watch s s') : m.Settled s' pc ∨ pc ∈ s'.enqueued := by
  by_cases hpc : pc < m.code.length
  · obtain ⟨frame,insn,next,result,current,newSites,fallback,hframe,hd,hv,hloc,hedges⟩ := hs hpc
    obtain ⟨frame',hframe',-,hsame⟩ := hp.grows.absorbs hframe
    rcases hsame with rfl | hpend
    · refine .inl fun _ => ⟨frame',insn,next,result,current,newSites,fallback,hframe',hd,hv,hloc,?_⟩
      intro edge hedge
      obtain ⟨e,he,harr⟩ := hedges edge hedge
      exact ⟨e,he,harr.grows hp.grows⟩
    · exact .inr hpend
  · exact .inl fun hlt => absurd hlt hpc

section
variable (hl : m.hierarchy.Lawful)
include hl

variable {oldTexts : Bool} {s s' : Inference}

theorem inferenceVisit_spec {fallback : List Char → Bool}
    {pc : Nat} (hsound : m.SoundRound s pc)
    (hv : m.inferenceVisit oldTexts fallback s pc = .ok s')
    (hknown : ∃ frame, s.frameAt pc = some frame) :
    Propagated m.hierarchy.watch s s' ∧ (m.Settled s' pc ∨ pc ∈ s'.enqueued) := by
  obtain ⟨frame,hframe⟩ := hknown
  unfold inferenceVisit at hv
  split at hv
  · rename_i hpc
    cases hv
    exact ⟨.refl _,.inl fun hlt => absurd hlt (Nat.not_lt.mpr hpc)⟩
  rename_i hpc
  rw [hframe] at hv
  obtain ⟨⟨insn,next⟩,hd,hv⟩ := bind_eq_ok.mp hv
  obtain ⟨⟨result,current⟩,hvi,hv⟩ := bind_eq_ok.mp hv
  rw [mapError_eq_ok] at hd
  simp only at hvi hv
  split at hv
  · cases hv
  obtain ⟨hloc,hmerges⟩ := hsound hframe (Nat.not_le.mp hpc) hd hvi
  obtain ⟨hp,hedges⟩ := foldlM_propagate_spec hl.watch (VType.mergesWiden_watch hl)
    (s := { s with newSites := noteNewSite insn pc s.newSites }) hmerges hv
  have hp' : Propagated m.hierarchy.watch s s' :=
    ⟨hp.grows,hp.keeps,fun hs => hp.synced ⟨hs.nodup,hs.same⟩,hp.known⟩
  refine ⟨hp',?_⟩
  obtain ⟨frame',hframe',-,hsame⟩ := hp'.grows.absorbs hframe
  rcases hsame with rfl | hpend
  · exact .inl fun _ => ⟨frame',insn,next,result,current,_,fallback,hframe',hd,hvi,hloc,hedges⟩
  · exact .inr hpend

/-- The invariant passes from one round to the next. -/
theorem LoopOk.round {fallback : List Char → Bool} {pc : Nat}
    (hok : m.LoopOk s) (hsound : m.SoundRound s pc) (hn : s.next oldTexts = some pc)
    (hv : m.inferenceVisit oldTexts fallback (s.take oldTexts pc) pc = .ok s') : m.LoopOk s' := by
  obtain ⟨hp,hset⟩ := inferenceVisit_spec hl (s := s.take oldTexts pc) hsound hv
    (hok.known pc (Inference.mem_of_next hok.synced hn))
  have hkeep : ∀ k ∈ s.enqueued, k ≠ pc → k ∈ s'.enqueued := by
    intro k hk hne
    exact hp.keeps k (mem_filter.mpr ⟨hk,by simpa using hne⟩)
  refine ⟨hp.synced (hok.synced.take hn),hp.known fun k hk => ?_,hok.start.grows hp.grows,?_⟩
  · exact hok.known k (mem_filter.mp hk).1
  exact hok.covered.round hset hkeep (fun k ⟨frame,hf⟩ => hp.grows.known hf)
    fun k hk => Settled.grows (s := s.take oldTexts pc) hk hp

end

end MethodCode

end CratonVM.Verifier
