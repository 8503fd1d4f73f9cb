import CratonVM.Jit.Bce.LoopForm
import CratonVM.Jit.Bce.RangeState
import CratonVM.Lib.Dataflow
import CratonVM.Lib.GraphSearch

/-!
Guard-dominated bounds-check elimination (`range_safe_pcs` in `jit/src/x64/bce.rs`). The vector of
states is a table that is updated, the marks of the instruction starts are the list of marked
positions, and the vector that serves as a stack has its top first.
-/
namespace CratonVM.Jit.Bce
open Bytecode RangeAnalysis List Option
open LocalHomes (pcsIn)

/-- The targets of the branches, `none` with control flow that is not modelled. -/
def collectI16BranchTargets (code : Code) (codeLen : Nat) : Option (List Nat) :=
  (branchEdges code codeLen).map fun edges => edges.map Prod.snd

def extractIloadLocal (code : Code) (pc : Nat) : Option Nat :=
  (byteAt code pc).bind fun op =>
    if within 0x1a 0x1d op then some (op-0x1a)
    else if op = 0x15 then byteAt code (pc+1) else none

def extractAloadLocal (code : Code) (pc : Nat) : Option Nat :=
  (byteAt code pc).bind fun op =>
    if within 0x2a 0x2d op then some (op-0x2a)
    else if op = 0x19 then byteAt code (pc+1) else none

def rangeConstPush (code : Code) (pc : Nat) : Option Int :=
  (byteAt code pc).bind fun op =>
    if op = 0x02 then some (-1)
    else if within 0x03 0x08 op then some ((op-0x03 : Nat) : Int)
    else if op = 0x10 then (byteAt code (pc+1)).map fun b : Nat => (b : Int).bmod (2^8)
    else if op = 0x11 then readI16 code (pc+1)
    else none

def isSinglePush (op : Nat) : Bool := within 0x01 0x14 op || within 0x15 0x19 op || within 0x1a 0x2d op

inductive RangeWrite where
  | store (slot : Nat) (wide : Bool)
  | iinc (slot : Nat) (delta : Int)
  deriving DecidableEq, Repr

/-- The stores whose opcode names the local. -/
def implicitWrite (op : Nat) : Option RangeWrite :=
  if within 0x3b 0x3e op then some (.store (op-0x3b) false)
  else if within 0x3f 0x42 op then some (.store (op-0x3f) true)
  else if within 0x43 0x46 op then some (.store (op-0x43) false)
  else if within 0x47 0x4a op then some (.store (op-0x47) true)
  else if within 0x4b 0x4e op then some (.store (op-0x4b) false)
  else none

def rangeLocalWrite (code : Code) (codeLen pc : Nat) : Option RangeWrite :=
  if pc ≥ codeLen then none
  else
    (byteAt code pc).bind fun op =>
      if op = 0x36 || op = 0x38 || op = 0x3a then (byteAt code (pc+1)).map (.store · false)
      else if op = 0x37 || op = 0x39 then (byteAt code (pc+1)).map (.store · true)
      else if op = 0x84 then
        match byteAt code (pc+1),byteAt code (pc+2) with
        | some slot,some b => some (.iinc slot ((b : Int).bmod (2^8)))
        | _,_ => none
      else if op = 0xc4 then
        match byteAt code (pc+1),readU16 code (pc+2) with
        | some real,some idx =>
          if real = 0x36 || real = 0x38 || real = 0x3a then some (.store idx false)
          else if real = 0x37 || real = 0x39 then some (.store idx true)
          else if real = 0x84 then (readI16 code (pc+4)).map (.iinc idx)
          else none
        | _,_ => none
      else implicitWrite op

/-- The instruction in front, and the one behind. -/
structure StartTables where
  codeLen : Nat
  starts : List Nat
  deriving DecidableEq, Repr

def rangeStartTables (code : Code) (codeLen : Nat) : StartTables := ⟨codeLen,pcsIn code 0 codeLen⟩

def StartTables.prev (t : StartTables) (pc : Nat) : Option Nat :=
  if t.starts.contains pc then (List.range pc).reverse.find? t.starts.contains else none

def StartTables.next (t : StartTables) (code : Code) (pc : Nat) : Option Nat :=
  if t.starts.contains pc && pc+step code pc < t.codeLen then some (pc+step code pc) else none

section
variable (code : Code) (t : StartTables) (targets : List Nat)

/-- No instruction behind `start` up to `stop` is a branch target. -/
def spanIsAtomicFrom (stop : Nat) : (left : Nat) → (start : Nat) → Bool
  | 0, start => start = stop
  | left+1, start =>
    if start < stop then
      match t.next code start with
      | none => false
      | some nxt => if nxt > stop || targets.contains nxt then false else spanIsAtomicFrom stop left nxt
    else start = stop

def rangeSpanIsAtomic (start stop : Nat) : Bool := spanIsAtomicFrom code t targets stop (stop-start) start

/-- The operand whose producer ends at `p`, and where the producer starts. -/
def decodeOperandEndingAt (p : Nat) : Option (Operand × Nat) :=
  if byteAt code p = some 0xbe then do
    let q ← t.prev p
    let a ← extractAloadLocal code q
    pure (.len a,q)
  else
    match extractIloadLocal code p,rangeConstPush code p with
    | some l,_ => some (.slot l,p)
    | none,some c => some (.const c,p)
    | none,none => none

/-- The comparison of a conditional branch: its arity and the relation when it is taken. -/
def branchRelation (op : Nat) : Option (Nat × Rel) :=
  if op = 0x99 then some (1,.eq)
  else if op = 0x9a then some (1,.ne)
  else if op = 0x9b then some (1,.lt)
  else if op = 0x9c then some (1,.ge)
  else if op = 0x9d then some (1,.gt)
  else if op = 0x9e then some (1,.le)
  else if op = 0x9f then some (2,.eq)
  else if op = 0xa0 then some (2,.ne)
  else if op = 0xa1 then some (2,.lt)
  else if op = 0xa2 then some (2,.ge)
  else if op = 0xa3 then some (2,.gt)
  else if op = 0xa4 then some (2,.le)
  else none

def decodeCompare (pc : Nat) : Option (Operand × Operand × Rel) := do
  let op ← byteAt code pc
  let (arity,rel) ← branchRelation op
  let p1 ← t.prev pc
  if arity = 1 then do
    let (lhs,start) ← decodeOperandEndingAt code t p1
    if rangeSpanIsAtomic code t targets start pc then some (lhs,.const 0,rel) else none
  else do
    let (rhs,rhsStart) ← decodeOperandEndingAt code t p1
    let p2 ← t.prev rhsStart
    let (lhs,lhsStart) ← decodeOperandEndingAt code t p2
    if rangeSpanIsAtomic code t targets lhsStart pc then some (lhs,rhs,rel) else none

/-- Where the index of an array access is pushed; the value of a store is one more push. -/
def indexPush (pc op : Nat) : Option Nat :=
  if within 0x2e 0x35 op then t.prev pc
  else if within 0x4f 0x56 op then do
    let valuePc ← t.prev pc
    let value ← byteAt code valuePc
    if isSinglePush value then t.prev valuePc else none
  else none

def decodeArrayAccess (pc : Nat) : Option (Nat × Nat) := do
  let op ← byteAt code pc
  let idxPc ← indexPush code t pc op
  let indexLocal ← extractIloadLocal code idxPc
  let arrPc ← t.prev idxPc
  let arrayLocal ← extractAloadLocal code arrPc
  if rangeSpanIsAtomic code t targets arrPc pc then some (arrayLocal,indexLocal) else none

end

/-- The local that an instruction names. -/
def localAccessAt (code : Code) (codeLen pc : Nat) : Option Nat :=
  let op := opAt code pc
  if within 0x15 0x19 op || within 0x36 0x3a op || op = 0x84 then
    if pc+1 < codeLen then byteAt code (pc+1) else none
  else if op = 0xc4 then
    if pc+3 < codeLen then
      let real := opAt code (pc+1)
      if within 0x15 0x19 real || within 0x36 0x3a real || real = 0x84 then readU16 code (pc+2) else none
    else none
  else (implicitAccess op).map LocalAccess.idx

def rangeNumLocals (code : Code) (t : StartTables) : Option Nat :=
  let slots := t.starts.filterMap (localAccessAt code t.codeLen)
  if slots.any (· ≥ rangeMaxLocals) then none
  else some (min (slots.foldl max 0+2) rangeMaxLocals)

/-- The target of a branch with two bytes of offset. -/
def branchTarget (code : Code) (codeLen pc : Nat) : Option Nat :=
  if isShortBranch (opAt code pc) then
    if pc+2 ≥ codeLen then none
    else (readI16 code (pc+1)).bind fun off => addSigned pc off
  else none

/-- Every branch leads to an instruction of the method. -/
def branchesLand (code : Code) (t : StartTables) : Bool :=
  t.starts.all fun pc => !isShortBranch (opAt code pc) ||
    (branchTarget code t.codeLen pc).any fun target => target < t.codeLen && t.starts.contains target

structure RangeSolver where
  state : Nat → Option RangeState
  visits : Nat → Nat
  work : List Nat

def rangePushTo (t : StartTables) (succ : Nat) (s : RangeState) (solver : RangeSolver) : RangeSolver :=
  if succ ≥ t.codeLen ∨ succ ∉ t.starts then solver
  else
    let visits := Function.update solver.visits succ (solver.visits succ+1)
    let widen := decide (visits succ > rangeWidenAfter)
    match solver.state succ with
    | none => ⟨Dataflow.update solver.state succ s,visits,succ::solver.work⟩
    | some cur =>
      let (merged,changed) := cur.merge s widen
      ⟨Dataflow.update solver.state succ merged,visits,if changed then succ::solver.work else solver.work⟩

section
variable (code : Code) (t : StartTables) (targets : List Nat)

/-- `<const>; istore l` is the one store whose value is read. -/
def storedConstant (pc : Nat) : Option Int :=
  match t.prev pc with
  | none => none
  | some src =>
    let op := opAt code pc
    if !targets.contains pc && (op = 0x36 || within 0x3b 0x3e op) then rangeConstPush code src else none

/-- The effect of the instruction on the state. -/
def applyWrite (pc : Nat) (st : RangeState) : RangeState :=
  match rangeLocalWrite code t.codeLen pc with
  | none => st
  | some (.store slot wide) =>
    let out := if wide then (st.kill slot).kill (slot+1) else st.kill slot
    match storedConstant code t targets pc with
    | none => out
    | some c => out.setLocal slot (.constant .w32 c)
  | some (.iinc slot delta) =>
    match st.locals[slot]?.bind fun r => r.addNoWrap (.constant .w32 delta) with
    | none => st.kill slot
    | some next =>
      if delta > 0 then (st.setLocal slot next).killIndexFacts slot else st.setLocal slot next

/-- The states for the two edges of a conditional branch. -/
def refine (pc : Nat) (out : RangeState) : RangeState × RangeState :=
  match decodeCompare code t targets pc with
  | none => (out,out)
  | some (lhs,rhs,rel) => (applyRel out lhs rhs rel,applyRel out lhs rhs (negateRel rel))

/-- The states that the instruction sends to its successors, in order. -/
def rangeEdges (pc : Nat) (here : RangeState) : List (Nat × RangeState) :=
  let out := applyWrite code t targets pc here
  let op := opAt code pc
  let fall := (t.next code pc).toList
  let target := (branchTarget code t.codeLen pc).toList
  if op = 0xa7 then target.map (·,out)
  else if within 0xac 0xb1 op || op = 0xbf then []
  else if within 0x99 0xa6 op || op = 0xc6 || op = 0xc7 then
    target.map (·,(refine code t targets pc out).1) ++ fall.map (·,(refine code t targets pc out).2)
  else fall.map (·,out)

/-- One turn of the loop, behind the check of the budget. -/
def rangeTurn (pc : Nat) (solver : RangeSolver) : RangeSolver :=
  match solver.state pc,byteAt code pc with
  | some here,some _ => (rangeEdges code t targets pc here).foldl (fun s e => rangePushTo t e.1 e.2 s) solver
  | _,_ => solver

/-- The loop; `none` when the budget is used up. -/
def rangeSolve : (budget : Nat) → RangeSolver → Option RangeSolver
  | 0, solver => if solver.work.isEmpty then some solver else none
  | budget+1, solver =>
    match solver.work with
    | [] => some solver
    | pc::work =>
      if budget = 0 then none
      else rangeSolve budget (rangeTurn code t targets pc { solver with work := work })

end

/-- The method entry and every handler start from the state that proves nothing. -/
def rangeSeeds (nLocals : Nat) (handlers : List HandlerRange) : List (Nat × RangeState) :=
  (0,.top nLocals)::handlers.map fun h => (h.handlerPc,.top nLocals)

/-- The states that the analysis ends with; `none` when it refuses the method. -/
def rangeStates (code : Code) (codeLen : Nat) (handlers : List HandlerRange) :
    Option (StartTables × List Nat × (Nat → Option RangeState)) :=
  if codeLen = 0 ∨ codeLen > rangeMaxCodeLen ∨ codeLen > code.length then none
  else do
    let targets ← collectI16BranchTargets code codeLen
    let t := rangeStartTables code codeLen
    let nLocals ← rangeNumLocals code t
    if branchesLand code t then
      let start := (rangeSeeds nLocals handlers).foldl (fun s e => rangePushTo t e.1 e.2 s)
        ⟨fun _ => none,fun _ => 0,[]⟩
      let solver ← rangeSolve code t targets (codeLen*64+64) start
      pure (t,targets,solver.state)
    else none

/-- The access is discharged when the index is not negative and below this array's length. -/
def isSafe (code : Code) (t : StartTables) (targets : List Nat) (state : Nat → Option RangeState)
    (pc : Nat) : Bool :=
  match decodeArrayAccess code t targets pc,state pc with
  | some (arrayLocal,indexLocal),some st =>
    (st.locals.getD indexLocal (.top .w32)).definitelyNonNegative && st.provesLtLen indexLocal arrayLocal
  | _,_ => false

def rangeSafePcs (code : Code) (codeLen : Nat) (handlers : List HandlerRange) : List Nat :=
  match rangeStates code codeLen handlers with
  | none => []
  | some (t,targets,state) => t.starts.filter (isSafe code t targets state)

open Bytecode RangeAnalysis Dataflow Worklist
variable {code : Code} {t : StartTables} {targets : List Nat} {solver out : RangeSolver}

theorem absorbs_of_weaker {st st' : RangeState} (h : Weaker st st') : Absorbs Weaker st st' :=
  fun _ hx f hf => h f (hx f hf)

/-- The instruction is one of the method. -/
def StartTables.Lands (t : StartTables) (pc : Nat) : Prop := pc < t.codeLen ∧ pc ∈ t.starts

structure Sends (solver out : RangeSolver) : Prop where
  grows : Grows Weaker (· ∈ out.work) solver.state out.state
  work : ∀ p ∈ solver.work, p ∈ out.work

theorem Sends.refl (solver : RangeSolver) : Sends solver solver := ⟨.refl _ _,fun _ hp => hp⟩

theorem Sends.trans {last : RangeSolver} (h : Sends solver out) (h' : Sends out last) : Sends solver last :=
  ⟨h.grows.trans h'.grows h'.work,fun p hp => h'.work p (h.work p hp)⟩

theorem rangePushTo_sends (t : StartTables) (succ : Nat) (s : RangeState) (solver : RangeSolver) :
    Sends solver (rangePushTo t succ s solver) ∧
      (t.Lands succ → Arrived Weaker (rangePushTo t succ s solver).state (succ,s)) := by
  unfold rangePushTo
  split
  · rename_i hout
    refine ⟨.refl solver,fun hlands => ?_⟩
    obtain ⟨hlt,hmem⟩ := hlands
    rcases hout with hge | hnot
    · omega
    · exact absurd hmem hnot
  cases hcur : solver.state succ with
  | none =>
    refine ⟨⟨.insert hcur List.mem_cons_self,fun p hp => List.mem_cons_of_mem _ hp⟩,fun _ => ?_⟩
    exact ⟨s,update_same _ _ _,fun _ hf => hf⟩
  | some cur => ?_
  dsimp only
  generalize decide (Function.update solver.visits succ (solver.visits succ+1) succ > rangeWidenAfter) =
    widen
  obtain ⟨hself,hother,hsame⟩ := merge_weaker cur s widen
  rcases hm : cur.merge s widen with ⟨merged,changed⟩
  rw [hm] at hself hother hsame
  refine ⟨⟨.replace hcur (absorbs_of_weaker hself) ?_,fun p hp => ?_⟩,fun _ => ?_⟩
  · cases changed with
    | false => exact .inl (hsame rfl)
    | true => exact .inr List.mem_cons_self
  · cases changed with
    | false => exact hp
    | true => exact List.mem_cons_of_mem _ hp
  · exact ⟨merged,update_same _ _ _,hother⟩

theorem foldl_rangePushTo_sends (edges : List (Nat × RangeState)) (solver : RangeSolver) :
    Sends solver (edges.foldl (fun s e => rangePushTo t e.1 e.2 s) solver) ∧ ∀ e ∈ edges, t.Lands e.1 →
      Arrived Weaker (edges.foldl (fun s e => rangePushTo t e.1 e.2 s) solver).state e := by
  induction edges generalizing solver with
  | nil =>
    refine ⟨.refl solver,fun e he => ?_⟩
    cases he
  | cons e edges ih => ?_
  obtain ⟨hfirst,harrived⟩ := rangePushTo_sends t e.1 e.2 solver
  obtain ⟨hrest,hall⟩ := ih (rangePushTo t e.1 e.2 solver)
  refine ⟨hfirst.trans hrest,fun e' he' hlands => ?_⟩
  rcases List.mem_cons.mp he' with rfl | he'
  · exact (harrived hlands).grows hrest.grows
  · exact hall e' he' hlands

def HasState (solver : RangeSolver) (pc : Nat) : Prop := ∃ here, solver.state pc = some here

/-- What the instruction sends from its state has arrived. -/
def Settled (code : Code) (t : StartTables) (targets : List Nat) (solver : RangeSolver) (pc : Nat) : Prop :=
  ∀ here, solver.state pc = some here → byteAt code pc ≠ none →
    ∀ e ∈ rangeEdges code t targets pc here, t.Lands e.1 → Arrived Weaker solver.state e

theorem Settled.sends {pc : Nat} (h : Settled code t targets solver pc) (hs : Sends solver out) :
    Settled code t targets out pc ∨ pc ∈ out.work := by
  by_cases hin : pc ∈ out.work
  · exact .inr hin
  refine .inl fun here hhere hbyte e he hlands => ?_
  rcases hs.grows.known hhere with ⟨s,hs'⟩ | hp
  · obtain ⟨s',hs'',-,rfl | hp⟩ := hs.grows.absorbs hs'
    · cases hhere.symm.trans hs''
      exact (h _ hs' hbyte e he hlands).grows hs.grows
    · exact absurd hp hin
  · exact absurd hp hin

theorem rangeTurn_sends (pc : Nat) (solver : RangeSolver) :
    Sends solver (rangeTurn code t targets pc solver) ∧
      (Settled code t targets (rangeTurn code t targets pc solver) pc ∨
        pc ∈ (rangeTurn code t targets pc solver).work) := by
  unfold rangeTurn
  split
  · rename_i here op hhere hbyte
    obtain ⟨hsends,harrived⟩ :=
      @foldl_rangePushTo_sends t (rangeEdges code t targets pc here) solver
    refine ⟨hsends,?_⟩
    by_cases hin : pc ∈ ((rangeEdges code t targets pc here).foldl
        (fun s e => rangePushTo t e.1 e.2 s) solver).work
    · exact .inr hin
    refine .inl fun here' hhere' _ e he hlands => ?_
    obtain ⟨s,hs,-,rfl | hp⟩ := hsends.grows.absorbs hhere
    · cases hhere'.symm.trans hs
      exact harrived e he hlands
    · exact absurd hp hin
  rename_i hnone
  refine ⟨.refl solver,.inl fun here hhere hbyte => ?_⟩
  obtain ⟨op,hop⟩ := Option.ne_none_iff_exists'.mp hbyte
  exact absurd hop (hnone here op hhere)

theorem settled_of_empty (hempty : solver.work = [])
    (hcov : Covered HasState (Settled code t targets) solver (· ∈ solver.work)) {pc : Nat}
    (hpc : HasState solver pc) : Settled code t targets solver pc := by
  refine hcov.done (fun i hi => ?_) hpc
  rw [hempty] at hi
  cases hi

theorem rangeSolve_settled {budget : Nat} (h : rangeSolve code t targets budget solver = some out)
    (hcov : Covered HasState (Settled code t targets) solver (· ∈ solver.work)) :
    (∀ pc, HasState out pc → Settled code t targets out pc) ∧
      ∀ e, Arrived Weaker solver.state e → Arrived Weaker out.state e := by
  induction budget generalizing solver with
  | zero =>
    rw [rangeSolve] at h
    split at h
    · rename_i hempty
      obtain rfl := Option.some.inj h
      exact ⟨fun _ => settled_of_empty (List.isEmpty_iff.mp hempty) hcov,fun _ he => he⟩
    · cases h
  | succ budget ih => ?_
  rw [rangeSolve] at h
  cases hwork : solver.work with
  | nil =>
    rw [hwork] at h
    obtain rfl := Option.some.inj h
    exact ⟨fun _ => settled_of_empty hwork hcov,fun _ he => he⟩
  | cons pc work => ?_
  rw [hwork] at h
  dsimp only at h
  split at h
  · cases h
  obtain ⟨hsends,hpc⟩ := @rangeTurn_sends code t targets pc { solver with work := work }
  generalize rangeTurn code t targets pc { solver with work := work } = turned at h hsends hpc
  have hnext : Covered HasState (Settled code t targets) turned (· ∈ turned.work) := by
    refine hcov.round hpc (fun j hj hne => ?_) (fun j hj => ?_) fun j hj => ?_
    · rw [hwork] at hj
      exact hsends.work j ((List.mem_cons.mp hj).resolve_left hne)
    · obtain ⟨here,hhere⟩ := hj
      exact hsends.grows.known hhere
    have hj : Settled code t targets { solver with work := work } j := hj
    exact hj.sends hsends
  obtain ⟨hsettled,hall⟩ := ih h hnext
  exact ⟨hsettled,fun e he => hall e (Arrived.grows he hsends.grows)⟩

end CratonVM.Jit.Bce
