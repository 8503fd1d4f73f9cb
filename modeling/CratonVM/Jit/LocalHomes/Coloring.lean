import CratonVM.Jit.Bytecode.Decode

/-!
The control flow graph that `jit/src/regalloc.rs` builds over bytecode. The marks of an array of
flags are kept as the list of marked positions; the index of a block is looked up by its start.
-/
namespace CratonVM.Jit.LocalHomes
open Bytecode

/-- A set of the locals below 64. -/
abbrev Mask := BitVec 64

def bit (slot : Nat) : Mask := BitVec.twoPow 64 slot

structure BasicBlock where
  startPc : Nat
  endPc : Nat
  successors : List Nat
  handlerSuccessors : List Nat
  gen : Mask
  kill : Mask
  liveIn : Mask
  liveOut : Mask
  deriving DecidableEq, Repr

/-- The instructions from `pc` up to `stop`. -/
def pcsFrom (code : Code) (stop : Nat) : Nat → Nat → List Nat
  | 0,_ => []
  | fuel+1,pc => if pc < stop then pc :: pcsFrom code stop fuel (pc+step code pc) else []

def pcsIn (code : Code) (start stop : Nat) : List Nat := pcsFrom code stop (stop-start) start

def isSwitch (code : Code) (pc : Nat) : Bool := opAt code pc = 0xaa || opAt code pc = 0xab

/-- The block starts that one instruction marks. -/
def marks (code : Code) (codeLen pc : Nat) : List Nat :=
  let next := pc+step code pc
  let branch := match offsetBranchTarget code pc with
    | some target => [target,next]
    | none => []
  let switch := if isSwitch code pc then switchTargetsLenient code codeLen pc ++ [next] else []
  let after := if isUnconditional (opAt code pc) then [next] else []
  (branch ++ switch ++ after).filter (· < codeLen)

def blockStarts (code : Code) (codeLen : Nat) (extraLeaders : List Nat) : List Nat :=
  0 :: extraLeaders.filter (· < codeLen) ++ (pcsIn code 0 codeLen).flatMap (marks code codeLen)

/-- A block ends behind a branch, behind an instruction without a fall-through edge, in front of a
block start and at the end of the code. -/
def endsBlock (code : Code) (codeLen : Nat) (starts : List Nat) (pc : Nat) : Bool :=
  let next := pc+step code pc
  (offsetBranchTarget code pc).isSome || isUnconditional (opAt code pc) || next ≥ codeLen ||
    starts.contains next

def blockEnd (code : Code) (codeLen : Nat) (starts : List Nat) : Nat → Nat → Nat
  | 0,pc => pc
  | fuel+1,pc =>
    if endsBlock code codeLen starts pc then pc+step code pc
    else blockEnd code codeLen starts fuel (pc+step code pc)

def blocksFrom (code : Code) (codeLen : Nat) (starts : List Nat) :
    Nat → Nat → List BasicBlock → List BasicBlock
  | 0,_,blocks => blocks
  | fuel+1,pc,blocks =>
    if pc < codeLen then
      if !starts.contains pc && !blocks.isEmpty then
        blocksFrom code codeLen starts fuel (pc+step code pc) blocks
      else
        let stop := blockEnd code codeLen starts codeLen pc
        blocksFrom code codeLen starts fuel stop (blocks ++ [⟨pc,stop,[],[],0,0,0,0⟩])
    else blocks

def blockIdxAt (blocks : List BasicBlock) (pc : Nat) : Option Nat :=
  blocks.findIdx? (·.startPc = pc)

def pushNew (successors : List Nat) (idx : Nat) : List Nat :=
  if successors.contains idx then successors else successors ++ [idx]

def lastPc (code : Code) (block : BasicBlock) : Nat :=
  (pcsIn code block.startPc block.endPc).getLastD block.startPc

def successorsOf (code : Code) (codeLen : Nat) (blocks : List BasicBlock) (block : BasicBlock) :
    List Nat :=
  let last := lastPc code block
  let idxOf := fun target => if target < codeLen then blockIdxAt blocks target else none
  let branch := ((offsetBranchTarget code last).bind idxOf).toList
  let switch :=
    if isSwitch code last then ((switchTargetsLenient code codeLen last).filterMap idxOf).foldl pushNew branch
    else branch
  if isUnconditional (opAt code last) then switch else switch ++ (idxOf block.endPc).toList

def buildCfgWithLeaders (code : Code) (codeLen : Nat) (extraLeaders : List Nat) : List BasicBlock :=
  let starts := blockStarts code codeLen extraLeaders
  let blocks := blocksFrom code codeLen starts codeLen 0 []
  blocks.map fun block => { block with successors := successorsOf code codeLen blocks block }

/-- The handler blocks an instruction of the block can throw to, in the order of the table. -/
def handlerEdges (blocks : List BasicBlock) (handlers : List HandlerRange) (block : BasicBlock) :
    List Nat :=
  handlers.filterMap fun h =>
    if block.startPc < h.endPc ∧ block.endPc > h.startPc then blockIdxAt blocks h.handlerPc else none

def buildCfgWithHandlers (code : Code) (codeLen : Nat) (handlers : List HandlerRange) :
    List BasicBlock :=
  let leaders := handlers.flatMap fun h => [h.handlerPc,h.startPc,h.endPc]
  let blocks := buildCfgWithLeaders code codeLen leaders
  blocks.map fun block =>
    let edges := handlerEdges blocks handlers block
    { block with
      successors := edges.foldl pushNew block.successors
      handlerSuccessors := edges.foldl pushNew block.handlerSuccessors }

/-- The use of an `iinc` comes before its definition. -/
def genKillStep (code : Code) (sets : Mask × Mask) (pc : Nat) : Mask × Mask :=
  match localAccess code pc with
  | some access =>
    if access.idx < 64 then
      let (gen,kill) := sets
      (if access.isUse && (kill &&& bit access.idx) == 0 then gen ||| bit access.idx else gen,
        if access.isDef then kill ||| bit access.idx else kill)
    else sets
  | none => sets

def computeGenKill (code : Code) (block : BasicBlock) : BasicBlock :=
  let (gen,kill) :=
    (pcsIn code block.startPc block.endPc).foldl (genKillStep code) (block.gen,block.kill)
  { block with gen := gen, kill := kill }

def maxLivenessIterations : Nat := 1000

/-- The slots that hold an incoming parameter; without a list the parameters are the first slots. -/
def paramLiveInMask (numParams : Nat) (paramSlots : List Nat) : Mask :=
  if paramSlots.isEmpty then
    if numParams ≥ 64 then BitVec.allOnes 64 else BitVec.ofNat 64 (2^numParams-1)
  else (paramSlots.filter (· < 64)).foldl (fun mask slot => mask ||| bit slot) 0

def unionLiveIn (blocks : List BasicBlock) (idxs : List Nat) : Mask :=
  idxs.foldl (fun live i => live ||| ((blocks[i]?).map BasicBlock.liveIn).getD 0) 0

/-- One block of a sweep. What a handler reads is live on entry, whatever the block defines. -/
def visitBlock (s : List BasicBlock × Bool) (i : Nat) : List BasicBlock × Bool :=
  match s.1[i]? with
  | none => s
  | some block =>
    let newOut := unionLiveIn s.1 block.successors
    let excIn := unionLiveIn s.1 block.handlerSuccessors
    let newIn := block.gen ||| (newOut &&& ~~~block.kill) ||| excIn
    if newIn ≠ block.liveIn ∨ newOut ≠ block.liveOut then
      (s.1.set i { block with liveIn := newIn, liveOut := newOut },true)
    else s

def sweep (blocks : List BasicBlock) : List BasicBlock × Bool :=
  (List.range blocks.length).reverse.foldl visitBlock (blocks,false)

/-- Sweeps until one changes nothing; the flag says whether there was such a one. -/
def sweeps : Nat → List BasicBlock → List BasicBlock × Bool
  | 0,blocks => (blocks,false)
  | fuel+1,blocks =>
    match sweep blocks with
    | (blocks,true) => sweeps fuel blocks
    | (blocks,false) => (blocks,true)

def seedParams (paramLiveMask : Mask) : List BasicBlock → List BasicBlock
  | [] => []
  | entry :: rest => { entry with gen := entry.gen ||| (paramLiveMask &&& ~~~entry.kill) } :: rest

def solveLiveness (blocks : List BasicBlock) (paramLiveMask : Mask) : List BasicBlock × Bool :=
  sweeps maxLivenessIterations (seedParams paramLiveMask blocks)

/-- A protected range with what its handler reads. -/
structure LiveRange where
  startPc : Nat
  endPc : Nat
  liveIn : Mask
  deriving DecidableEq, Repr

def handlerLiveInRanges (blocks : List BasicBlock) (handlers : List HandlerRange) : List LiveRange :=
  (handlers.filterMap fun h =>
    (blocks.find? (·.startPc = h.handlerPc)).map fun b => ⟨h.startPc,h.endPc,b.liveIn⟩).filter
      fun r => r.liveIn ≠ 0

def handlerLiveMask (pc : Nat) (ranges : List LiveRange) : Mask :=
  ranges.foldl (fun mask r => if pc ≥ r.startPc ∧ pc < r.endPc then mask ||| r.liveIn else mask) 0

/-- Both directions of the edges between a local and others. -/
def addEdges (n : Nat) (interference : List Mask) (idx : Nat) (others : Mask) : List Mask :=
  interference.mapIdx fun j row =>
    if j = idx then row ||| others
    else if j < n ∧ others.getLsbD j = true then row ||| bit idx
    else row

def addClique (n : Nat) (interference : List Mask) (members : Mask) : List Mask :=
  interference.mapIdx fun i row =>
    if i < n ∧ members.getLsbD i = true then row ||| (members &&& ~~~bit i) else row

/-- The locals live before an instruction, from those live behind it. -/
def liveBefore (code : Code) (n : Nat) (ranges : List LiveRange) (pc : Nat) (live : Mask) : Mask :=
  let hmask := handlerLiveMask pc ranges
  match localAccess code pc with
  | some access =>
    if access.idx < n then
      let live := if access.isDef && !access.isUse then live &&& ~~~bit access.idx else live
      let live := if access.isUse then live ||| bit access.idx else live
      live ||| hmask
    else live ||| hmask
  | none => live ||| hmask

/-- The edges an instruction adds: its definition against everything live behind it or read by a
handler. -/
def defEdges (code : Code) (n : Nat) (ranges : List LiveRange) (pc : Nat) (live : Mask)
    (interference : List Mask) : List Mask :=
  match localAccess code pc with
  | some access =>
    if access.idx < n ∧ access.isDef = true then
      addEdges n interference access.idx ((live ||| handlerLiveMask pc ranges) &&& ~~~bit access.idx)
    else interference
  | none => interference

def interferenceStep (code : Code) (n : Nat) (ranges : List LiveRange) (s : List Mask × Mask)
    (pc : Nat) : List Mask × Mask :=
  (defEdges code n ranges pc s.2 s.1,liveBefore code n ranges pc s.2)

def blockInterference (code : Code) (n : Nat) (ranges : List LiveRange) (interference : List Mask)
    (block : BasicBlock) : List Mask :=
  let walked := (pcsIn code block.startPc block.endPc).reverse.foldl (interferenceStep code n ranges)
    (interference,block.liveOut)
  addClique n walked.1 block.liveIn

def buildInterference (code : Code) (blocks : List BasicBlock) (numLocals : Nat)
    (ranges : List LiveRange) : List Mask :=
  blocks.foldl (blockInterference code (min numLocals 64) ranges) (List.replicate numLocals 0)

def loopWeightPerDepth : Nat := 10
def maxLoopDepthWeight : Nat := 1000000

def loopDepth (codeLen : Nat) (loops : List (Nat × Nat)) (pc : Nat) : Nat :=
  (loops.filter fun (header,backEdge) =>
    header ≤ backEdge && backEdge < codeLen && pc ≥ header && pc ≤ backEdge).length

def useWeight (depth : Nat) : Nat := min (loopWeightPerDepth^depth) maxLoopDepthWeight

def countUses (code : Code) (codeLen numLocals : Nat) (loops : List (Nat × Nat)) : List Nat :=
  (pcsIn code 0 codeLen).foldl (fun counts pc =>
    match localAccess code pc with
    | some access =>
      if access.idx < numLocals then
        counts.modify access.idx fun c => min (c+useWeight (loopDepth codeLen loops pc)) (2^32-1)
      else counts
    | none => counts) (List.replicate numLocals 0)

def countOnes (mask : Mask) : Nat := ((List.range 64).filter mask.getLsbD).length

/-- The graph while nodes are taken out of it; the stack has its top in front. -/
structure Simplifying where
  removed : Mask
  degrees : List Nat
  stack : List Nat
  deriving DecidableEq, Repr

/-- Uses over degree, as a quotient. -/
def spillScore (useCounts : List Nat) (s : Simplifying) (i : Nat) : Nat × Nat :=
  if s.degrees.getD i 0 = 0 then (0,1) else (useCounts.getD i 0,s.degrees.getD i 0)

def scoreBelow (a b : Nat × Nat) : Bool := a.1*b.2 < b.1*a.2

/-- The better of the best candidate so far and a node. -/
def cheaper (useCounts : List Nat) (s : Simplifying) (best : Option Nat) (i : Nat) : Option Nat :=
  if s.removed.getLsbD i then best
  else
    match best with
    | none => some i
    | some j =>
      if scoreBelow (spillScore useCounts s i) (spillScore useCounts s j) then some i else some j

def spillCandidate (useCounts : List Nat) (s : Simplifying) (n : Nat) : Option Nat :=
  (List.range n).foldl (cheaper useCounts s) none

/-- A node that is sure to get a colour, else the cheapest one to spill. -/
def nextNode (k : Nat) (useCounts : List Nat) (n : Nat) (s : Simplifying) : Option Nat :=
  match (List.range n).find? fun i => !s.removed.getLsbD i && s.degrees.getD i 0 < k with
  | some node => some node
  | none => spillCandidate useCounts s n

def removeNode (interference : List Mask) (s : Simplifying) (node : Nat) : Simplifying :=
  let removed := s.removed ||| bit node
  let neighbors := interference.getD node 0 &&& ~~~removed
  ⟨removed,s.degrees.mapIdx fun j d => if neighbors.getLsbD j then d-1 else d,node :: s.stack⟩

def simplify (interference : List Mask) (k : Nat) (useCounts : List Nat) (n : Nat) :
    Nat → Simplifying → Simplifying
  | 0,s => s
  | rounds+1,s =>
    match nextNode k useCounts n s with
    | some node => simplify interference k useCounts n rounds (removeNode interference s node)
    | none => s

/-- The lowest register that no coloured neighbour has. -/
def colorFor (interference : List Mask) (n : Nat) (available : List Nat)
    (assignments : List (Option Nat)) (node : Nat) : Option Nat :=
  let neighbors := interference.getD node 0
  let used := (List.range n).filterMap fun j =>
    if neighbors.getLsbD j then (assignments.getD j none).bind available.idxOf? else none
  (available.zipIdx.find? fun (_,ci) => !used.contains ci).map Prod.fst

def select (interference : List Mask) (n : Nat) (available : List Nat) :
    List Nat → List (Option Nat) → List (Option Nat)
  | [],assignments => assignments
  | node :: stack,assignments =>
    match colorFor interference n available assignments node with
    | some reg => select interference n available stack (assignments.set node (some reg))
    | none => select interference n available stack assignments

def colorGraph (interference : List Mask) (numLocals : Nat) (available : List Nat)
    (useCounts : List Nat) : List (Option Nat) :=
  let k := available.length
  let none_ := List.replicate numLocals none
  if numLocals = 0 ∨ k = 0 then none_
  else
    let n := min numLocals 64
    let s := simplify interference k useCounts n n
      ⟨0,(List.range n).map fun i => countOnes (interference.getD i 0),[]⟩
    select interference n available s.stack none_

/-- The local that an instruction uses as a `float` or `double`. -/
def floatIdx (code : Code) (pc : Nat) : Option Nat :=
  let op := opAt code pc
  if within 0x22 0x25 op then some (op-0x22)
  else if within 0x26 0x29 op then some (op-0x26)
  else if within 0x43 0x46 op then some (op-0x43)
  else if within 0x47 0x4a op then some (op-0x47)
  else if op = 0x17 || op = 0x18 || op = 0x38 || op = 0x39 then byteAt code (pc+1)
  else if op = 0xc4 then do
    let modified ← byteAt code (pc+1)
    if modified = 0x17 || modified = 0x18 || modified = 0x38 || modified = 0x39 then readU16 code (pc+2)
    else none
  else none

/-- The local that an instruction uses as an `int`, a `long` or a reference. -/
def nonFloatIdx (code : Code) (pc : Nat) : Option Nat :=
  let op := opAt code pc
  let operand := fun op => op = 0x15 || op = 0x16 || op = 0x19 || op = 0x36 || op = 0x37 || op = 0x3a ||
    op = 0x84 || op = 0xa9
  if within 0x1a 0x1d op then some (op-0x1a)
  else if within 0x1e 0x21 op then some (op-0x1e)
  else if within 0x2a 0x2d op then some (op-0x2a)
  else if within 0x3b 0x3e op then some (op-0x3b)
  else if within 0x3f 0x42 op then some (op-0x3f)
  else if within 0x4b 0x4e op then some (op-0x4b)
  else if operand op then byteAt code (pc+1)
  else if op = 0xc4 then do
    let modified ← byteAt code (pc+1)
    if operand modified then readU16 code (pc+2) else none
  else none

def localsWhere (idxOf : Nat → Option Nat) (code : Code) (codeLen : Nat) : Mask :=
  ((pcsIn code 0 codeLen).filterMap idxOf).foldl
    (fun mask idx => if idx < 64 then mask ||| bit idx else mask) 0

def findFloatLocals (code : Code) (codeLen : Nat) : Mask := localsWhere (floatIdx code) code codeLen
def findNonFloatLocals (code : Code) (codeLen : Nat) : Mask :=
  localsWhere (nonFloatIdx code) code codeLen

/-- No two interfering locals below `n` have one register. -/
def respectsInterference (assignments : List (Option Nat)) (interference : List Mask) (n : Nat) : Bool :=
  (List.range n).all fun i =>
    match assignments.getD i none with
    | none => true
    | some reg => (List.range n).all fun j =>
      !(i < j && (interference.getD i 0).getLsbD j && assignments.getD j none == some reg)

def regallocInvariantsHold (gpr xmm : List (Option Nat)) (interference : List Mask) (floatMask : Mask)
    (numLocals : Nat) : Bool :=
  let n := min numLocals 64
  (List.range numLocals).all (fun i => !((gpr.getD i none).isSome && (xmm.getD i none).isSome)) &&
  (List.range n).all (fun i => !(floatMask.getLsbD i && (gpr.getD i none).isSome) &&
    !(!floatMask.getLsbD i && (xmm.getD i none).isSome)) &&
  respectsInterference gpr interference n && respectsInterference xmm interference n

structure RegAllocResult where
  assignments : List (Option Nat)
  xmmAssignments : List (Option Nat)
  usedCalleeSaved : List Nat
  usedXmmRegs : List Nat
  blockLiveIn : List (Nat × Mask)
  deriving DecidableEq, Repr

/-- Every local stays in its frame slot. -/
def RegAllocResult.noHomes (numLocals : Nat) : RegAllocResult :=
  ⟨List.replicate numLocals none,List.replicate numLocals none,[],[],[]⟩

def usedRegs (available : List Nat) (assignments : List (Option Nat)) : List Nat :=
  (available.zipIdx.filter fun (_,i) =>
    assignments.any fun a => a.bind available.idxOf? == some i).map Prod.fst

def validMask (n : Nat) : Mask := if n ≥ 64 then BitVec.allOnes 64 else BitVec.ofNat 64 (2^n-1)

/-- The two colourings; a slot that both categories use gets no home. -/
def colorLocals (code : Code) (codeLen numLocals : Nat) (loops : List (Nat × Nat))
    (gprRegs fpRegs : List Nat) (interference : List Mask) :
    List (Option Nat) × List (Option Nat) :=
  let n := min numLocals 64
  let floatMask := findFloatLocals code codeLen
  let dualCategoryMask := floatMask &&& findNonFloatLocals code codeLen
  let useCounts := countUses code codeLen numLocals loops
  let isFloat := fun i => i < n && floatMask.getLsbD i
  let gprInterference := interference.mapIdx fun i row =>
    if isFloat i then 0 else row &&& ~~~(floatMask &&& validMask n)
  let gprUseCounts := useCounts.mapIdx fun i c => if isFloat i then 0 else c
  let gpr := (colorGraph gprInterference numLocals gprRegs gprUseCounts).mapIdx fun i a =>
    if isFloat i then none else a
  let xmmInterference := interference.mapIdx fun i row => if isFloat i then row &&& floatMask else 0
  let xmm := (colorGraph xmmInterference numLocals fpRegs useCounts).mapIdx fun i a =>
    if isFloat i && !dualCategoryMask.getLsbD i then a else none
  (gpr,xmm)

/-- The allocation without a keep-assigned table. -/
def allocateRegistersInner (code : Code) (codeLen numLocals numParams : Nat) (paramSlots : List Nat)
    (loops : List (Nat × Nat)) (gprRegs fpRegs : List Nat) (handlers : List HandlerRange) :
    RegAllocResult :=
  if numLocals = 0 then .noHomes 0
  else
    let n := min numLocals 64
    let params := paramLiveInMask numParams paramSlots
    match solveLiveness ((buildCfgWithHandlers code codeLen handlers).map (computeGenKill code)) params with
    | (_,false) => .noHomes numLocals
    | (blocks,true) =>
      let ranges := handlerLiveInRanges blocks handlers
      let interference :=
        addClique n (buildInterference code blocks numLocals ranges) (params &&& validMask n)
      let (gpr,xmm) := colorLocals code codeLen numLocals loops gprRegs fpRegs interference
      if regallocInvariantsHold gpr xmm interference (findFloatLocals code codeLen) numLocals then
        ⟨gpr,xmm,usedRegs gprRegs gpr,usedRegs fpRegs xmm,blocks.map fun b => (b.startPc,b.liveIn)⟩
      else .noHomes numLocals

end CratonVM.Jit.LocalHomes
