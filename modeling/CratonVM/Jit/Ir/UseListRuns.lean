import CratonVM.Jit.Ir.ReplaceAllUses

/-!
Any number of graphs and threads. A run is a list of operations, each on one graph and one thread;
a graph may be moved to another thread between any two of them. Threads are named by their tokens.
-/
namespace CratonVM.Jit
open Multimap List Prod

inductive GraphOp where
  | add (op : Op) (ty : IrType) (inputs : List Nat) (pc : Option Nat)
  | replaceAllUses (old new : Nat)
  | kill (id : Nat)
  | setInput (node idx new : Nat)
  | pushInput (node new : Nat)
  | setInputs (node : Nat) (inputs : List Nat)
  | clearInputs (node : Nat)
  | pushSafepoint (sp : SafepointSnapshot)
  | setSafepointSlot (r : SafepointSlot) (new : Nat)
  | clearSafepointSlotsWhere (clear : SafepointSlot → Nat → Nat → Bool)
  | retainSafepoints (keep : List Bool)
  | rebuildUseLists
  | ensureUseLists
  | setUseTracking (on : Bool)
  | writeInputs (id : Nat) (inputs : List Nat)
  | writeSafepoints (safepoints : List SafepointSnapshot)

namespace GraphOp
def apply (t : Thread) (g : Graph) : GraphOp → Graph × Thread
  | .add op ty inputs pc => (g.add t op ty inputs pc,t)
  | .replaceAllUses old new => (g.replaceAllUses t old new,t)
  | .kill id => g.kill t id
  | .setInput node idx new => g.setInput t node idx new
  | .pushInput node new => g.pushInput t node new
  | .setInputs node inputs => g.setInputs t node inputs
  | .clearInputs node => g.clearInputs t node
  | .pushSafepoint sp => (g.pushSafepoint t sp,t)
  | .setSafepointSlot r new => g.setSafepointSlot t r new
  | .clearSafepointSlotsWhere clear => (g.clearSafepointSlotsWhere clear,t)
  | .retainSafepoints keep => (g.retainSafepoints t keep,t)
  | .rebuildUseLists => (g.rebuildUseLists t,t)
  | .ensureUseLists => (g.ensureUseLists t,t)
  | .setUseTracking on => (g.setUseTracking on,t)
  | .writeInputs id inputs => g.writeInputs t id inputs
  | .writeSafepoints safepoints => g.writeSafepoints t safepoints

/-- The operations that write edges or slots and, where the lists are not current, only move the
epoch of the thread they run on. -/
def writes : GraphOp → Bool
  | .kill _ | .setInput _ _ _ | .pushInput _ _ | .setInputs _ _ | .clearInputs _
  | .setSafepointSlot _ _ | .writeInputs _ _ | .writeSafepoints _ => true
  | _ => false

end GraphOp

/-- What recording and forgetting leave alone. -/
def UseLists.switches (uses : UseLists) : Bool × Nat := (uses.tracking,uses.spLen)

namespace UseLists
section
variable (uses : UseLists)
include uses

@[simp] theorem switches_recordInput (d u n : Nat) :
    (uses.recordInput d u n).switches = uses.switches := by
  unfold recordInput
  split
  · rfl
  · split <;> rfl

@[simp] theorem switches_recordInputs (inputs : List Nat) (u n : Nat) :
    (uses.recordInputs inputs u n).switches = uses.switches := by
  induction inputs generalizing uses with
  | nil => rfl
  | cons d inputs ih => exact (ih _).trans (switches_recordInput uses d u n)

@[simp] theorem switches_forgetInputs (inputs : List Nat) (u n : Nat) :
    (uses.forgetInputs inputs u n).switches = uses.switches := by
  induction inputs generalizing uses with
  | nil => rfl
  | cons d inputs ih => ?_
  unfold forgetInputs
  rw [foldl_cons]
  split
  · exact ih _
  · exact ih _

@[simp] theorem switches_recordSlot (d : Nat) (slot : SafepointSlot) (n : Nat) :
    (uses.recordSlot d slot n).switches = uses.switches := by
  unfold recordSlot
  split
  · rfl
  · split <;> rfl

@[simp] theorem switches_recordSlots (slots : List (SafepointSlot × Nat)) (n : Nat) :
    (uses.recordSlots slots n).switches = uses.switches := by
  induction slots generalizing uses with
  | nil => rfl
  | cons slot slots ih => exact (ih _).trans (switches_recordSlot uses slot.2 slot.1 n)

@[simp] theorem switches_stamp (t : Thread) :
    (uses.stamp t).switches = uses.switches := rfl

@[simp] theorem switches_grow : uses.grow.switches = uses.switches := rfl

end
end UseLists

/-- What one operation does to the lists. -/
inductive ListOutcome (t : Thread) (g : Graph) (writes : Bool) : Graph × Thread → Prop
  /-- The lists were made or kept current on this thread. -/
  | stamped {g' : Graph} (hn : g'.nodes.length ≤ noNode) (hex : g'.Exact)
      (hsw : g'.uses.switches = (true,g'.safepoints.length))
      (howner : g'.uses.owner = t.token) (hepoch : g'.uses.epoch = t.epoch) :
      ListOutcome t g writes (g',t)
  /-- There are no lists. -/
  | dropped {g' : Graph} (hn : g'.nodes.length ≤ noNode) (hv : g'.uses.valid = false) :
      ListOutcome t g writes (g',t)
  /-- Edges were written and the epoch has moved. -/
  | bumped {g' : Graph} (hw : writes = true) (hn : g'.nodes.length ≤ noNode)
      (huses : g'.uses = g.uses) : ListOutcome t g writes (g',t.bump)
  /-- A node or a snapshot was added that the lists do not know of. -/
  | grown {g' : Graph} (hn : g'.nodes.length ≤ noNode) (huses : g'.uses = g.uses)
      (hnodes : g.nodes.length ≤ g'.nodes.length) (hsafe : g.safepoints.length ≤ g'.safepoints.length)
      (hgrown : g.nodes.length < g'.nodes.length ∨ g.safepoints.length < g'.safepoints.length) :
      ListOutcome t g writes (g',t)
  /-- Nothing was written that the lists have to hear of. -/
  | same {g' : Graph} (hn : g'.nodes.length ≤ noNode) (huses : g'.uses = g.uses)
      (hnodes : g'.nodes.length = g.nodes.length) (hsafe : g'.safepoints.length = g.safepoints.length)
      (hex : g.Exact → g'.Exact) : ListOutcome t g writes (g',t)

namespace Graph
variable {t : Thread} {g : Graph}

theorem useListsCurrent_iff : g.useListsCurrent t = true ↔
    g.uses.tracking = true ∧ g.uses.valid = true ∧ g.uses.owner = t.token ∧ g.uses.epoch = t.epoch ∧
      g.uses.users.length = g.nodes.length ∧ g.uses.spLen = g.safepoints.length := by
  simp only [useListsCurrent,UseLists.stamped,Bool.and_eq_true,decide_eq_true_eq,and_assoc]

theorem switches_of_current (hcur : g.useListsCurrent t = true) :
    g.uses.switches = (true,g.safepoints.length) := by
  obtain ⟨htr,-,-,-,-,hsp⟩ := useListsCurrent_iff.mp hcur
  simp [UseLists.switches,htr,hsp]

theorem tracking_recordNodes (uses : UseLists) (nodes : List (Node × Nat)) (n : Nat) :
    (nodes.foldl (fun uses (node,uid) => uses.recordInputs node.inputs uid n) uses).tracking
      = uses.tracking := by
  induction nodes generalizing uses with
  | nil => rfl
  | cons node nodes ih =>
    rw [foldl_cons,ih]
    exact congrArg fst (uses.switches_recordInputs node.1.inputs node.2 n)

theorem switches_deriveUseLists (t : Thread) (htr : g.uses.tracking = true) :
    (g.deriveUseLists t).uses.switches = (true,g.safepoints.length) := by
  unfold deriveUseLists UseLists.switches
  simp only [UseLists.stamp,Prod.mk.injEq,and_true]
  have hslots := congrArg fst (UseLists.switches_recordSlots
    (g.nodes.zipIdx.foldl (fun uses (node,uid) => uses.recordInputs node.inputs uid g.nodes.length)
      { g.uses with
        users := replicate g.nodes.length [], spUsers := replicate g.nodes.length [],
        dangling := false }) (slots g.safepoints) g.nodes.length)
  exact hslots.trans ((tracking_recordNodes _ _ _).trans htr)

variable {writes : Bool}

section
variable (hn : g.nodes.length ≤ noNode)
include hn

theorem outcome_derive (htr : g.uses.tracking = true) {g₀ : Graph} : ListOutcome t g₀ writes (g.deriveUseLists t,t) :=
  .stamped hn (exact_deriveUseLists t g hn) (switches_deriveUseLists t htr) rfl rfl

theorem outcome_rebuild {g₀ : Graph} :
    ListOutcome t g₀ writes (g.rebuildUseLists t,t) :=
  outcome_derive (g := { g with uses := { g.uses with tracking := true } }) hn rfl

theorem outcome_same : ListOutcome t g writes (g,t) :=
  .same hn rfl rfl rfl (fun h => h)

end

section
variable (hn : g.nodes.length ≤ noNode) (hvt : g.uses.valid = true → g.uses.tracking = true)
  (hexact : g.useListsCurrent t = true → g.Exact)
include hn hvt hexact

omit hvt in
theorem outcome_add (op : Op) (ty : IrType) (inputs : List Nat) (pc : Option Nat) :
    ListOutcome t g false (g.add t op ty inputs pc,t) := by
  by_cases hfull : g.nodes.length = noNode
  · unfold add
    simp only [hfull,if_true]
    exact outcome_same hn
  have hn' : ∀ node : Node, (g.nodes ++ [node]).length ≤ noNode := by
    intro node
    rw [List.length_append,List.length_singleton]
    omega
  by_cases hcur : g.useListsCurrent t = true
  · by_cases hd : g.uses.dangling = true
    · unfold add
      simp only [hfull,if_false,hcur,if_true,hd]
      exact .dropped (hn' _) rfl
    have hadd := (hexact hcur).add hn hcur op ty inputs pc (Bool.eq_false_iff.mpr hd)
    unfold add at hadd ⊢
    simp only [hfull,if_false,hcur,if_true,hd] at hadd ⊢
    exact .stamped (hn' _) hadd (by simpa using switches_of_current hcur) rfl rfl
  unfold add
  simp only [hfull,if_false,hcur]
  exact .grown (hn' _) rfl (by simp) le_rfl (.inl (by simp))

theorem outcome_replaceAllUses (old new : Nat) :
    ListOutcome t g false (g.replaceAllUses t old new,t) := by
  unfold replaceAllUses
  split
  · exact outcome_same hn
  rename_i hne
  split
  · rename_i hcur
    obtain ⟨hcur,hold⟩ := Bool.and_eq_true_iff.mp hcur
    obtain ⟨hnodes,hsafe,hex,users,spUsers,dangling,huses⟩ :=
      replaceAllUsesTracked_spec (t := t) hn (hexact hcur) hne (isValidId_lt hold)
    have hsw := switches_of_current hcur
    refine .stamped ?_ hex ?_ ?_ ?_
    · rw [hnodes]
      simpa [rewriteAll] using hn
    · rw [huses,hsafe]
      simpa [rewriteAll,UseLists.switches,UseLists.stamp] using hsw
    · rfl
    · rfl
  unfold replaceAllUsesScanning
  have hn' : (g.rewriteAll old new).nodes.length ≤ noNode := by simpa [rewriteAll] using hn
  simp only
  split
  · rename_i htr
    exact outcome_derive hn' htr
  rename_i htr
  refine .dropped hn' (Bool.eq_false_iff.mpr fun hv => htr ?_)
  exact hvt hv

omit hvt hexact in
theorem outcome_write {refused : Prop} [Decidable refused] {tracked untracked : Graph}
    (hlen : tracked.nodes.length = g.nodes.length) (hlen' : untracked.nodes.length = g.nodes.length)
    (huses : untracked.uses = g.uses) (hsw : tracked.uses.switches = g.uses.switches)
    (hsafe : tracked.safepoints.length = g.safepoints.length)
    (howner : tracked.uses.owner = t.token) (hepoch : tracked.uses.epoch = t.epoch)
    (hex : g.useListsCurrent t = true → ¬ refused → tracked.Exact) :
    ListOutcome t g true
      (if refused then (g,t) else if g.useListsCurrent t then (tracked,t) else (untracked,t.bump)) := by
  split
  · exact outcome_same hn
  rename_i hrefused
  split
  · rename_i hcur
    exact .stamped (hlen ▸ hn) (hex hcur hrefused)
      (hsw.trans (hsafe ▸ switches_of_current hcur)) howner hepoch
  · exact .bumped rfl (hlen' ▸ hn) huses

omit hvt

theorem outcome_kill (id : Nat) : ListOutcome t g true (g.kill t id) := by
  refine outcome_write hn (by simp) (by simp) rfl (by simp) rfl rfl rfl ?_
  intro hcur hid
  simpa only [kill,if_neg hid,if_pos hcur] using (hexact hcur).kill hn hcur id

theorem outcome_setInput (node idx new : Nat) : ListOutcome t g true (g.setInput t node idx new) := by
  refine outcome_write hn (by simp) (by simp) rfl (by simp) rfl rfl rfl ?_
  intro hcur hguard
  simpa only [setInput,if_neg hguard,if_pos hcur] using (hexact hcur).setInput hn hcur node idx new

theorem outcome_pushInput (node new : Nat) : ListOutcome t g true (g.pushInput t node new) := by
  refine outcome_write hn (by simp) (by simp) rfl (by simp) rfl rfl rfl ?_
  intro hcur hguard
  simpa only [pushInput,if_neg hguard,if_pos hcur] using (hexact hcur).pushInput hn hcur node new

theorem outcome_setInputs (node : Nat) (inputs : List Nat) :
    ListOutcome t g true (g.setInputs t node inputs) := by
  refine outcome_write hn (by simp) (by simp) rfl (by simp) rfl rfl rfl ?_
  intro hcur hguard
  simpa only [setInputs,if_neg hguard,if_pos hcur] using (hexact hcur).setInputs hn hcur node inputs

theorem outcome_setSafepointSlot (r : SafepointSlot) (new : Nat) :
    ListOutcome t g true (g.setSafepointSlot t r new) := by
  refine outcome_write hn rfl rfl rfl (by simp) (by simp [setSlot]) rfl rfl ?_
  intro hcur hguard
  simpa only [setSafepointSlot,if_neg hguard,if_pos hcur] using
    (hexact hcur).setSafepointSlot hn hcur r new

theorem outcome_pushSafepoint (sp : SafepointSnapshot) :
    ListOutcome t g false (g.pushSafepoint t sp,t) := by
  by_cases hcur : g.useListsCurrent t = true
  · have hex := (hexact hcur).pushSafepoint hn hcur sp
    unfold pushSafepoint at hex ⊢
    simp only [hcur,if_true] at hex ⊢
    refine .stamped hn hex ?_ rfl rfl
    have htr := congrArg fst (g.uses.switches_recordSlots (sp.slots g.safepoints.length)
      g.nodes.length)
    have hcur' := congrArg fst (switches_of_current hcur)
    exact Prod.ext (htr.trans hcur') rfl
  unfold pushSafepoint
  simp only [hcur]
  exact .grown hn rfl le_rfl (by simp) (.inr (by simp))

end

theorem outcome_retainSafepoints (hn : g.nodes.length ≤ noNode)
    (hvt : g.uses.valid = true → g.uses.tracking = true) (keep : List Bool) :
    ListOutcome t g false (g.retainSafepoints t keep,t) := by
  unfold retainSafepoints
  split
  · exact outcome_same hn
  simp only
  split
  · exact outcome_rebuild (by simpa using hn)
  rename_i htr
  exact .dropped (by simpa using hn) (Bool.eq_false_iff.mpr fun hv => htr (hvt hv))

theorem outcome_setUseTracking (hn : g.nodes.length ≤ noNode)
    (hvt : g.uses.valid = true → g.uses.tracking = true) (on : Bool) :
    ListOutcome t g false (g.setUseTracking on,t) := by
  cases on with
  | false => exact .dropped hn rfl
  | true => ?_
  by_cases hv : g.uses.valid = true
  · have huses : (g.setUseTracking true).uses = g.uses := by
      simp only [setUseTracking,if_true]
      rw [← hvt hv]
    exact .same hn huses rfl rfl fun hex =>
      ⟨hex.users.frame rfl (fun h => h),hex.slots.frame rfl (fun h => h)⟩
  · exact .dropped hn (Bool.eq_false_iff.mpr hv)

end Graph

theorem GraphOp.outcome {t : Thread} {g : Graph} (hn : g.nodes.length ≤ noNode)
    (hvt : g.uses.valid = true → g.uses.tracking = true)
    (hexact : g.useListsCurrent t = true → g.Exact) (op : GraphOp) :
    ListOutcome t g op.writes (op.apply t g) := by
  cases op with
  | add op ty inputs pc => exact Graph.outcome_add hn hexact op ty inputs pc
  | replaceAllUses old new => exact Graph.outcome_replaceAllUses hn hvt hexact old new
  | kill id => exact Graph.outcome_kill hn hexact id
  | setInput node idx new => exact Graph.outcome_setInput hn hexact node idx new
  | pushInput node new => exact Graph.outcome_pushInput hn hexact node new
  | setInputs node inputs => exact Graph.outcome_setInputs hn hexact node inputs
  | clearInputs node => exact Graph.outcome_setInputs hn hexact node []
  | pushSafepoint sp => exact Graph.outcome_pushSafepoint hn hexact sp
  | setSafepointSlot r new => exact Graph.outcome_setSafepointSlot hn hexact r new
  | clearSafepointSlotsWhere clear =>
    exact .same hn rfl rfl (by simp [Graph.clearSafepointSlotsWhere]) fun hex =>
      hex.clearSafepointSlotsWhere hn clear
  | retainSafepoints keep => exact Graph.outcome_retainSafepoints hn hvt keep
  | rebuildUseLists => exact Graph.outcome_rebuild hn
  | ensureUseLists =>
    simp only [apply,Graph.ensureUseLists]
    split
    · exact Graph.outcome_rebuild hn
    · exact Graph.outcome_same hn
  | setUseTracking on => exact Graph.outcome_setUseTracking hn hvt on
  | writeInputs id inputs => exact .bumped rfl (by simpa using hn) rfl
  | writeSafepoints safepoints => exact .bumped rfl hn rfl

structure World where
  epoch : Nat → Nat
  graph : Nat → Graph

structure Event where
  thread : Nat
  graph : Nat
  op : GraphOp

namespace World
def thread (w : World) (token : Nat) : Thread := ⟨token,w.epoch token⟩

def step (w : World) (e : Event) : World :=
  let done := e.op.apply (w.thread e.thread) (w.graph e.graph)
  { epoch := fun token => if token = e.thread then done.2.epoch else w.epoch token
    graph := fun i => if i = e.graph then done.1 else w.graph i }

def run : World → List Event → World
  | w,[] => w
  | w,e :: events => (w.step e).run events

/-- Graphs whose lists were never derived. -/
def Fresh (w : World) : Prop :=
  ∀ i, (w.graph i).uses = UseLists.new ∧ (w.graph i).nodes.length ≤ noNode

/-- The operation writes a graph whose lists another thread made, and that thread's epoch has not
moved since. -/
def foreignWrite (w : World) (e : Event) : Bool :=
  let uses := (w.graph e.graph).uses
  e.op.writes && uses.valid && uses.owner ≠ e.thread && uses.epoch = w.epoch uses.owner

/-- No step of the run is such a write. -/
def NoForeignWrite : World → List Event → Prop
  | _,[] => True
  | w,e :: events => w.foreignWrite e = false ∧ NoForeignWrite (w.step e) events

end World

/-- What the lists of a graph claim to the threads. -/
structure Graph.Sound (epoch : Nat → Nat) (g : Graph) : Prop where
  size : g.nodes.length ≤ noNode
  tracked : g.uses.valid = true → g.uses.tracking = true
  past : g.uses.valid = true → g.uses.epoch ≤ epoch g.uses.owner
  users_le : g.uses.valid = true → g.uses.epoch = epoch g.uses.owner →
    g.uses.users.length ≤ g.nodes.length
  slots_le : g.uses.valid = true → g.uses.epoch = epoch g.uses.owner →
    g.uses.spLen ≤ g.safepoints.length
  exact : g.uses.valid = true → g.uses.epoch = epoch g.uses.owner →
    g.uses.users.length = g.nodes.length → g.uses.spLen = g.safepoints.length → g.Exact

namespace Graph.Sound
variable {epoch epoch' : Nat → Nat} {g : Graph}

theorem of_current (h : g.Sound epoch) {token : Nat}
    (hcur : g.useListsCurrent ⟨token,epoch token⟩ = true) : g.Exact := by
  obtain ⟨-,hv,howner,hepoch,hlen,hsp⟩ := useListsCurrent_iff.mp hcur
  exact h.exact hv (by rw [howner,hepoch]) hlen hsp

theorem mono (h : g.Sound epoch) (hle : ∀ token, epoch token ≤ epoch' token) : g.Sound epoch' := by
  have heq : g.uses.valid = true → g.uses.epoch = epoch' g.uses.owner →
      g.uses.epoch = epoch g.uses.owner := by
    intro hv he
    exact Nat.le_antisymm (h.past hv) (he ▸ hle _)
  exact ⟨h.size,h.tracked,fun hv => Nat.le_trans (h.past hv) (hle _),
    fun hv he => h.users_le hv (heq hv he),fun hv he => h.slots_le hv (heq hv he),
    fun hv he => h.exact hv (heq hv he)⟩

theorem of_invalid (hn : g.nodes.length ≤ noNode) (hv : g.uses.valid = false) : g.Sound epoch := by
  refine ⟨hn,?_,?_,?_,?_,?_⟩ <;> (intro hv'; rw [hv] at hv'; cases hv')

theorem epoch_unmoved {t : Thread} (ht : t.epoch = epoch t.token) :
    (fun token => if token = t.token then t.epoch else epoch token) = epoch := by
  funext token
  split
  · rename_i htoken
    rw [htoken,ht]
  · rfl

theorem outcome {t : Thread} {writes : Bool} {done : Graph × Thread} (h : g.Sound epoch)
    (ht : t.epoch = epoch t.token) (ho : ListOutcome t g writes done)
    (hforeign : writes = true → g.uses.valid = true → g.uses.owner ≠ t.token →
      g.uses.epoch ≠ epoch g.uses.owner) :
    done.1.Sound (fun token => if token = t.token then done.2.epoch else epoch token) ∧
      t.epoch ≤ done.2.epoch := by
  cases ho with
  | stamped hn hex hsw howner hepoch =>
    refine ⟨⟨hn,fun _ => congrArg fst hsw,fun _ => ?_,fun _ _ => Nat.le_of_eq hex.users.length,
      fun _ _ => Nat.le_of_eq (congrArg snd hsw),fun _ _ _ _ => hex⟩,le_rfl⟩
    exact Nat.le_of_eq (by rw [howner,if_pos rfl,hepoch])
  | dropped hn hv => exact ⟨.of_invalid hn hv,le_rfl⟩
  | @bumped g' hw hn huses => ?_
  | @grown g' hn huses hnodes hsafe hgrown =>
    refine ⟨?_,le_rfl⟩
    have hepoch := epoch_unmoved ht
    simp only [hepoch]
    refine ⟨hn,fun hv => huses ▸ h.tracked (huses ▸ hv),fun hv => huses ▸ h.past (huses ▸ hv),?_,?_,?_⟩
    · intro hv he
      rw [huses] at hv he ⊢
      exact Nat.le_trans (h.users_le hv he) hnodes
    · intro hv he
      rw [huses] at hv he ⊢
      exact Nat.le_trans (h.slots_le hv he) hsafe
    intro hv he hlen hsp
    rw [huses] at hv he hlen hsp
    have hu := h.users_le hv he
    have hs := h.slots_le hv he
    omega
  | @same g' hn huses hnodes hsafe hex =>
    refine ⟨?_,le_rfl⟩
    have hepoch := epoch_unmoved ht
    simp only [hepoch]
    refine ⟨hn,fun hv => huses ▸ h.tracked (huses ▸ hv),fun hv => huses ▸ h.past (huses ▸ hv),?_,?_,?_⟩
    · intro hv he
      rw [huses] at hv he ⊢
      exact hnodes ▸ h.users_le hv he
    · intro hv he
      rw [huses] at hv he ⊢
      exact hsafe ▸ h.slots_le hv he
    intro hv he hlen hsp
    rw [huses] at hv he hlen hsp
    exact hex (h.exact hv he (hnodes ▸ hlen) (hsafe ▸ hsp))
  refine ⟨?_,Nat.le_succ _⟩
  -- the lists are stale on the owner's thread from now on
  have hstale : g'.uses.valid = true → g'.uses.epoch ≤ (if g'.uses.owner = t.token
      then t.bump.epoch else epoch g'.uses.owner) ∧ g'.uses.epoch ≠ (if g'.uses.owner = t.token
      then t.bump.epoch else epoch g'.uses.owner) := by
    rw [huses]
    intro hv
    have hpast := h.past hv
    by_cases howner : g.uses.owner = t.token
    · rw [if_pos howner]
      rw [howner,← ht] at hpast
      simp only [Thread.bump]
      omega
    rw [if_neg howner]
    exact ⟨hpast,hforeign hw hv howner⟩
  exact ⟨hn,fun hv => huses ▸ h.tracked (huses ▸ hv),fun hv => (hstale hv).1,
    fun hv he => absurd he (hstale hv).2,fun hv he => absurd he (hstale hv).2,
    fun hv he => absurd he (hstale hv).2⟩

end Graph.Sound
namespace World
variable {w : World}

/-- Every graph keeps the invariant, whatever graph a step works on. -/
theorem sound_step {e : Event} (h : ∀ i, (w.graph i).Sound w.epoch)
    (hforeign : w.foreignWrite e = false) (i : Nat) : ((w.step e).graph i).Sound (w.step e).epoch := by
  have hg := h e.graph
  have ho := e.op.outcome (t := w.thread e.thread) hg.size hg.tracked fun hcur => hg.of_current hcur
  obtain ⟨hdone,hle⟩ := hg.outcome rfl ho (by
    intro hw hv howner hepoch
    simp only [thread] at howner
    simp [foreignWrite,hw,hv,howner,hepoch] at hforeign)
  simp only [step]
  by_cases hi : i = e.graph
  · rw [if_pos hi]
    exact hdone
  rw [if_neg hi]
  refine (h i).mono fun token => ?_
  split
  · rename_i htoken
    rw [htoken]
    exact hle
  · exact le_rfl

theorem sound_run {events : List Event} (h : ∀ i, (w.graph i).Sound w.epoch)
    (hrun : w.NoForeignWrite events) (i : Nat) : ((w.run events).graph i).Sound (w.run events).epoch := by
  induction events generalizing w with
  | nil => exact h i
  | cons e events ih => exact ih (sound_step h hrun.1) hrun.2

theorem Fresh.sound (h : w.Fresh) (i : Nat) : (w.graph i).Sound w.epoch :=
  .of_invalid (h i).2 (by rw [(h i).1]; rfl)

end World
end CratonVM.Jit
