import CratonVM.Jit.LocalHomes.Coloring

/-!
Register allocation for a compile whose frames a debugger reads (`jit/src/regalloc.rs`): a table says which
locals hold a value at each pc, and the graph is widened so that none of them loses its home.
-/
namespace CratonVM.Jit.LocalHomes
open Bytecode

/-- The word of the first window at a pc; nothing past the end of the table. -/
def assignedWordAt (assigned : List Mask) (words pc : Nat) : Mask :=
  if words = 0 then 0 else (assigned[pc*words]?).getD 0

def keepAssignedStep (code : Code) (n : Nat) (assigned : List Mask) (words : Nat) (interference : List Mask) (pc : Nat) :
    List Mask :=
  let held := assignedWordAt assigned words pc &&& validMask n
  let interference := addClique n interference held
  match localAccess code pc with
  | some access =>
    if access.idx < n ∧ access.isDef = true then addEdges n interference access.idx (held &&& ~~~bit access.idx)
    else interference
  | none => interference

def keepAssignedInterference (code : Code) (codeLen numLocals : Nat) (assigned : List Mask) (words : Nat)
    (interference : List Mask) : List Mask :=
  let n := min (min numLocals 64) interference.length
  (pcsIn code 0 codeLen).foldl (keepAssignedStep code n assigned words) interference

/-- The whole graph: liveness, the parameters among each other, and what a debugger keeps. -/
def fullInterference (code : Code) (codeLen numLocals : Nat) (params : Mask) (blocks : List BasicBlock)
    (handlers : List HandlerRange) (keepAssigned : Option (List Mask × Nat)) : List Mask :=
  let n := min numLocals 64
  let interference := addClique n
    (buildInterference code blocks numLocals (handlerLiveInRanges blocks handlers)) (params &&& validMask n)
  match keepAssigned with
  | some (assigned,words) => keepAssignedInterference code codeLen numLocals assigned words interference
  | none => interference

/-- `allocate_registers_inner` with the table of a debugger's compile, if there is one. -/
def allocateRegistersKeeping (code : Code) (codeLen numLocals numParams : Nat) (paramSlots : List Nat)
    (loops : List (Nat × Nat)) (gprRegs fpRegs : List Nat) (handlers : List HandlerRange)
    (keepAssigned : Option (List Mask × Nat)) : RegAllocResult :=
  if numLocals = 0 then .noHomes 0
  else
    let params := paramLiveInMask numParams paramSlots
    match solveLiveness ((buildCfgWithHandlers code codeLen handlers).map (computeGenKill code)) params with
    | (_,false) => .noHomes numLocals
    | (blocks,true) =>
      let interference := fullInterference code codeLen numLocals params blocks handlers keepAssigned
      let (gpr,xmm) := colorLocals code codeLen numLocals loops gprRegs fpRegs interference
      if regallocInvariantsHold gpr xmm interference (findFloatLocals code codeLen) numLocals then
        let kept := fun pc => match keepAssigned with
          | some (assigned,words) => assignedWordAt assigned words pc
          | none => 0
        ⟨gpr,xmm,usedRegs gprRegs gpr,usedRegs fpRegs xmm,blocks.map fun b => (b.startPc,b.liveIn ||| kept b.startPc)⟩
      else .noHomes numLocals

theorem allocateRegistersKeeping_none (code : Code) (codeLen numLocals numParams : Nat) (paramSlots : List Nat)
    (loops : List (Nat × Nat)) (gprRegs fpRegs : List Nat) (handlers : List HandlerRange) :
    allocateRegistersKeeping code codeLen numLocals numParams paramSlots loops gprRegs fpRegs handlers none =
      allocateRegistersInner code codeLen numLocals numParams paramSlots loops gprRegs fpRegs handlers := by
  unfold allocateRegistersKeeping allocateRegistersInner
  split
  · rfl
  dsimp only
  generalize solveLiveness ((buildCfgWithHandlers code codeLen handlers).map (computeGenKill code))
    (paramLiveInMask numParams paramSlots) = r
  obtain ⟨blocks,converged⟩ := r
  cases converged with
  | false => rfl
  | true => simp [fullInterference]

end CratonVM.Jit.LocalHomes
