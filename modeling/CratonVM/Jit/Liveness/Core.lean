import CratonVM.Jit.MemoryModel.Effects
import CratonVM.Lib.BitRows

/-!
The liveness core of the register allocator (`jit/src/regalloc.rs`): positions, block sets, the
backward fixed point with its drivers, and the intervals. The sets of all blocks, one flat vector in
the source, are a list with one row per block. A `lo` that nothing has set is `none` (`usize::MAX` in
the source). The counter of block visits and the parts of a block or schedule that the analysis does
not read are left out.
-/
namespace CratonVM.Jit.Liveness
open BitRows

structure Block where
  ctrl : Nat
  nodes : List Nat
  terminator : Option Nat
  successors : List Nat
  predecessors : List Nat
  deriving DecidableEq, Repr

structure Schedule where
  blocks : List Block
  nodeToBlock : List Nat
  deriving DecidableEq, Repr

/-- `usize::MAX`: the block of a node that is in none, the bit of a value that is not wanted. -/
def noBlock : Nat := 2^64-1

structure LivenessRules where
  tokenEdgesNotUses : Bool
  phiEdgeInterfere : Bool
  collectReads : Bool
  deriving DecidableEq, Repr

inductive LivenessFixedPoint where
  | roundRobin
  | worklist
  | worklistSchedulePreds
  | worklistPostorder (schedulePreds : Bool)
  | roundRobinDriver
  deriving DecidableEq, Repr

structure LivenessCore where
  posOf : List (Option Nat)
  span : List (Nat × Nat)
  totalPositions : Nat
  lo : List (Option Nat)
  hi : List Nat
  setOnlyByPhiRule : List Bool
  converged : Bool
  words : Nat
  liveIn : List Row
  liveOut : List Row
  reads : List (Nat × Nat)
  deriving DecidableEq, Repr

/-- The sets of one block. -/
def rowOf (rows : List Row) (b : Nat) : Row := rows.getD b []

/-- The block that produces a control token, at most so many inputs up. -/
def ctrlBlockOf (graph : Graph) (schedule : Schedule) : Nat → Nat → Option Nat
  | 0,_ => none
  | n+1,ctrl =>
    if ctrl = noNode then none
    else match schedule.nodeToBlock[ctrl]? with
      | none => none
      | some blk =>
        if blk ≠ noBlock ∧ (schedule.blocks[blk]?).map Block.ctrl = some ctrl then some blk
        else match (graph.nodes[ctrl]?).bind (·.inputs.head?) with
          | some next => if next ≠ ctrl then ctrlBlockOf graph schedule n next else none
          | none => none

structure FixedPointSets where
  nb : Nat
  words : Nat
  phiOut : List Row
  uses : List Row
  defs : List Row
  deriving DecidableEq, Repr

structure LiveSets where
  li : List Row
  lout : List Row
  deriving DecidableEq, Repr

section
variable (succ : Nat → List Nat) (sets : FixedPointSets)

/-- One block's transfer: the sets, whether `lout` and whether `li` changed. -/
def fixedPointVisit (b : Nat) (st : LiveSets) : LiveSets × Bool × Bool :=
  let scratch := (succ b).foldl
    (fun scratch s => if s ≥ sets.nb then scratch else union scratch (rowOf st.li s))
    (rowOf sets.phiOut b)
  let mergedOut := union (rowOf st.lout b) scratch
  let entering := union (rowOf sets.uses b) (diff mergedOut (rowOf sets.defs b))
  let mergedIn := union (rowOf st.li b) entering
  ({ li := st.li.set b mergedIn, lout := st.lout.set b mergedOut },
    mergedOut ≠ rowOf st.lout b,mergedIn ≠ rowOf st.li b)

/-- One pass over the given blocks. -/
def visitAll : List Nat → LiveSets → LiveSets × Bool
  | [],st => (st,false)
  | b::bs,st =>
    let r := fixedPointVisit succ sets b st
    let rest := visitAll bs r.1
    (rest.1,r.2.1 || r.2.2 || rest.2)

def fixedPointRoundRobin : Nat → LiveSets → LiveSets × Bool
  | 0,st => (st,false)
  | n+1,st =>
    let r := visitAll succ sets (List.range sets.nb).reverse st
    if !r.2 then (r.1,true) else fixedPointRoundRobin n r.1

def highestSetBelow (bits : Row) (limit : Nat) : Option Nat :=
  (List.range limit).reverse.find? (get bits)

structure WorklistState where
  dirty : Row
  sets : LiveSets
  changed : Bool

/-- One pass over the dirty blocks, by decreasing rank. -/
def worklistPass (preds : Nat → List Nat) (order rank : Nat → Nat) (nb : Nat) :
    Nat → Nat → WorklistState → WorklistState
  | 0,_,w => w
  | n+1,limit,w =>
    match highestSetBelow w.dirty limit with
    | none => w
    | some k =>
      let dirty := clear w.dirty k
      let b := order k
      if b ≥ nb then worklistPass preds order rank nb n k { w with dirty }
      else
        let r := fixedPointVisit succ sets b w.sets
        let dirty := if r.2.2 then
            (preds b).foldl (fun d p => if p < nb then set d (rank p) else d) dirty
          else dirty
        worklistPass preds order rank nb n k
          { dirty, sets := r.1, changed := w.changed || r.2.1 || r.2.2 }

def worklistPasses (preds : Nat → List Nat) (order rank : Nat → Nat) (nb : Nat) :
    Nat → Row → LiveSets → LiveSets × Bool
  | 0,_,st => (st,false)
  | n+1,dirty,st =>
    let w := worklistPass succ sets preds order rank nb nb nb { dirty, sets := st, changed := false }
    if !w.changed then (w.sets,true)
    else worklistPasses preds order rank nb n w.dirty w.sets

def allDirty (nb : Nat) : Row :=
  (List.range nb).foldl set (empty (if nb ≤ 64 then 1 else (nb+63)/64))

def fixedPointWorklistPreds (preds : Nat → List Nat) (maxIterations : Nat) (st : LiveSets) :
    LiveSets × Bool :=
  worklistPasses succ sets preds id id sets.nb maxIterations (allDirty sets.nb) st

def fixedPointWorklistOrdered (preds : Nat → List Nat) (order rank : List Nat) (maxIterations : Nat)
    (st : LiveSets) : LiveSets × Bool :=
  let nb := min (min sets.nb order.length) rank.length
  worklistPasses succ sets preds (order.getD · 0) (rank.getD · 0) nb maxIterations (allDirty nb) st

/-- The predecessors of a block, read off the successor lists. -/
def predIndex (nb : Nat) (s : Nat) : List Nat :=
  (List.range nb).flatMap fun b => ((succ b).filter fun t => t = s && t < nb).map fun _ => b

end

section
variable (succ : Nat → List Nat) (nb : Nat)

/-- The depth-first walk; the top of the stack comes first. -/
structure Walk where
  seen : List Bool
  post : List Nat
  stack : List (Nat × Nat)

def walkLoop : Nat → Walk → Walk
  | 0,w => w
  | n+1,w =>
    match w.stack with
    | [] => w
    | (b,next)::rest =>
      match (succ b)[next]? with
      | some s =>
        if s < nb && !(w.seen.getD s false) then
          walkLoop n { w with seen := w.seen.set s true, stack := (s,0)::(b,next+1)::rest }
        else walkLoop n { w with stack := (b,next+1)::rest }
      | none => walkLoop n { w with post := w.post ++ [b], stack := rest }

/-- Steps that suffice for every walk: each block is finished once, after each of its edges. -/
def walkTurns : Nat := ((List.range nb).map fun b => (succ b).length+1).sum

def walkFrom (w : Walk) (root : Nat) : Walk :=
  if w.seen.getD root false then w
  else walkLoop succ nb (walkTurns succ nb)
    { w with seen := w.seen.set root true, stack := [(root,0)] }

def postorderBlocks : List Nat :=
  ((List.range nb).foldl (walkFrom succ nb)
    { seen := List.replicate nb false, post := [], stack := [] }).post

/-- The order of a pass and the rank of each block in it. -/
def postorder : List Nat × List Nat :=
  (postorderBlocks succ nb).zipIdx.foldl
    (fun (order,rank) (b,i) => (order.set (nb-1-i) b,rank.set b (nb-1-i)))
    (List.replicate nb 0,List.replicate nb 0)

end

def successorsOf (blocks : List Block) (b : Nat) : List Nat := ((blocks[b]?).map Block.successors).getD []

def predecessorsOf (blocks : List Block) (b : Nat) : List Nat :=
  ((blocks[b]?).map Block.predecessors).getD []

def fixedPointOnSchedule (blocks : List Block) (fixedPoint : LivenessFixedPoint)
    (sets : FixedPointSets) (maxIterations : Nat) (st : LiveSets) : LiveSets × Bool :=
  let succ := successorsOf blocks
  match fixedPoint with
  | .roundRobin | .roundRobinDriver => fixedPointRoundRobin succ sets maxIterations st
  | .worklist => fixedPointWorklistPreds succ sets (predIndex succ sets.nb) maxIterations st
  | .worklistSchedulePreds =>
    fixedPointWorklistPreds succ sets (predecessorsOf blocks) maxIterations st
  | .worklistPostorder schedulePreds =>
    let r := postorder succ sets.nb
    if schedulePreds then
      fixedPointWorklistOrdered succ sets (predecessorsOf blocks) r.1 r.2 maxIterations st
    else
      fixedPointWorklistOrdered succ sets (predIndex succ sets.nb) r.1 r.2 maxIterations st

structure Ranges where
  lo : List (Option Nat)
  hi : List Nat

def lower : Option Nat → Nat → Option Nat
  | none,p => some p
  | some q,p => some (min q p)

namespace Ranges
def noteLo (r : Ranges) (v pos : Nat) : Ranges := { r with lo := r.lo.modify v (lower · pos) }

def noteHi (r : Ranges) (v pos : Nat) : Ranges := { r with hi := r.hi.modify v (max · pos) }

def note (r : Ranges) (v pos : Nat) : Ranges := (r.noteLo v pos).noteHi v pos

end Ranges

section
variable (graph : Graph) (schedule : Schedule) (wants : List Bool) (rules : LivenessRules)

def wanted (i : Nat) : Bool := decide (i < graph.nodes.length) && wants.getD i false

/-- `dense_of` and `sparse_of`. -/
def numbering : List Nat × List Nat :=
  (List.range graph.nodes.length).foldl
    (fun (denseOf,sparseOf) i =>
      if wanted graph wants i then (denseOf ++ [sparseOf.length],sparseOf ++ [i])
      else (denseOf ++ [noBlock],sparseOf))
    ([],[])

def bitOf (dense : Bool) (i : Nat) : Nat :=
  if dense then (numbering graph wants).1.getD i noBlock else i

def nodeOfBit (dense : Bool) (k : Nat) : Nat :=
  if dense then (numbering graph wants).2.getD k noBlock else k

/-- What a block emits, in order. -/
def Block.emitted (block : Block) : List Nat := block.nodes ++ block.terminator.toList

structure Placing where
  posOf : List (Option Nat)
  span : List (Nat × Nat)
  seq : Nat

def placeNode (st : List (Option Nat) × Nat) (nid : Nat) : List (Option Nat) × Nat :=
  (st.1.set nid (some st.2),st.2+1)

def placeBlock (st : Placing) (block : Block) : Placing :=
  let r := block.emitted.foldl placeNode (st.posOf,st.seq)
  { posOf := r.1, span := st.span ++ [(st.seq,r.2)], seq := r.2+1 }

def placing : Placing :=
  schedule.blocks.foldl placeBlock
    { posOf := List.replicate graph.nodes.length none, span := [], seq := 0 }

/-- The first position of a block. -/
def startOf (b : Nat) : Nat := ((placing graph schedule).span.getD b (0,0)).1

/-- The position of a block's outgoing edge. -/
def edgeOf (b : Nat) : Nat := ((placing graph schedule).span.getD b (0,0)).2

/-- A wanted value is read, or defined, at a position. -/
inductive Event where
  | read (v pos : Nat)
  | define (v pos : Nat)
  deriving DecidableEq, Repr

def counted (node : Node) (input : Nat × Nat) : Bool :=
  input.1 ≠ noNode && wanted graph wants input.1 &&
    !(rules.tokenEdgesNotUses && isMemoryTokenSlot node input.2)

def nodeEvents (start u : Nat) : List Event :=
  match graph.nodes[u]? with
  | none => []
  | some node =>
    let pos := ((placing graph schedule).posOf.getD u none).getD start
    (if node.op = .phi then []
      else (node.inputs.zipIdx.filter (counted graph wants rules node)).map fun i => .read i.1 pos)
    ++ if wanted graph wants u then [.define u pos] else []

def blockEvents (b : Nat) : List Event :=
  (((schedule.blocks[b]?).map Block.emitted).getD []).flatMap
    (nodeEvents graph schedule wants rules (startOf graph schedule b))

structure Scan where
  ranges : Ranges
  reads : List (Nat × Nat)
  localDef : Row
  uses : Row
  defs : Row

def scanEvent (bit : Nat → Nat) (st : Scan) : Event → Scan
  | .read v pos =>
    { st with
      ranges := st.ranges.note v pos
      reads := if rules.collectReads then st.reads ++ [(v,pos)] else st.reads
      uses := if get st.localDef (bit v) then st.uses else set st.uses (bit v) }
  | .define v pos =>
    { st with
      localDef := set st.localDef (bit v)
      defs := set st.defs (bit v)
      ranges := st.ranges.note v pos }

/-- The sets of all blocks, after the direct uses and definitions. -/
structure DirectSets where
  ranges : Ranges
  reads : List (Nat × Nat)
  uses : List Row
  defs : List Row

def scanBlock (bit : Nat → Nat) (words : Nat) (st : DirectSets) (b : Nat) : DirectSets :=
  let r := (blockEvents graph schedule wants rules b).foldl (scanEvent rules bit)
    { ranges := st.ranges, reads := st.reads, localDef := empty words, uses := empty words
      defs := empty words }
  { ranges := r.ranges, reads := r.reads, uses := st.uses ++ [r.uses], defs := st.defs ++ [r.defs] }

def phisOf (merge : Nat) : List Nat :=
  (List.range graph.nodes.length).filter fun id =>
    (graph.nodes[id]?).any fun node =>
      decide (node.op = .phi) && decide (node.inputs.head? = some merge) && decide (merge ≠ noNode)

/-- A phi's operand that is read on the edge out of a block. -/
structure EdgeOperand where
  pred : Nat
  phi : Nat
  value : Nat
  deriving DecidableEq, Repr

def phiOperand (pred k pid : Nat) : Option EdgeOperand :=
  match (graph.nodes[pid]?).bind (·.inputs[k+1]?) with
  | some v => if v ≠ noNode && wanted graph wants v then some ⟨pred,pid,v⟩ else none
  | none => none

def operandsInto (succ : Nat) : List EdgeOperand :=
  match schedule.blocks[succ]? with
  | none => []
  | some block =>
    match graph.nodes[block.ctrl]? with
    | none => []
    | some merge =>
      if merge.op = .merge ∨ merge.op = .region then
        merge.inputs.zipIdx.flatMap fun (ctrlIn,k) =>
          match ctrlBlockOf graph schedule graph.nodes.length ctrlIn with
          | some pred =>
            if pred < schedule.blocks.length then
              (phisOf graph block.ctrl).filterMap (phiOperand graph wants pred k)
            else []
          | none => []
      else []

def edgeOperands : List EdgeOperand :=
  (List.range schedule.blocks.length).flatMap (operandsInto graph schedule wants)

/-- A memory phi gets no edge copy. -/
def sourceUnread (phi : Nat) : Bool :=
  rules.tokenEdgesNotUses && (graph.nodes[phi]?).any fun p => decide (p.ty = .memory)

structure EdgeScan where
  ranges : Ranges
  reads : List (Nat × Nat)
  phiOut : List Row
  phiEdges : List (Nat × Nat)

def scanOperand (bit : Nat → Nat) (st : EdgeScan) (e : EdgeOperand) : EdgeScan :=
  let pos := edgeOf graph schedule e.pred
  let st := if sourceUnread graph rules e.phi then st
    else { st with
      ranges := st.ranges.note e.value pos
      reads := if rules.collectReads then st.reads ++ [(e.value,pos)] else st.reads
      phiOut := st.phiOut.modify e.pred (set · (bit e.value)) }
  if rules.phiEdgeInterfere && wanted graph wants e.phi then
    { st with phiEdges := st.phiEdges ++ [(e.phi,pos)] }
  else st

def widenBlock (node : Nat → Nat) (live : LiveSets) (r : Ranges) (b : Nat) : Ranges :=
  let r := (bits (rowOf live.li b)).foldl (fun r k =>
    if wanted graph wants (node k) then r.noteLo (node k) (startOf graph schedule b) else r) r
  (bits (rowOf live.lout b)).foldl (fun r k =>
    if wanted graph wants (node k) then r.noteHi (node k) (edgeOf graph schedule b) else r) r

/-- The bit of a value, moved to the bit of its node. -/
def publishBit (sparseOf : List Nat) (out : Row) (k : Nat) : Row :=
  match sparseOf[k]? with
  | some id => set out id
  | none => out

def denseBitsToNodeBits (dense : List Row) (words nb : Nat) (sparseOf : List Nat) : List Row :=
  (List.range nb).map fun b => (bits (rowOf dense b)).foldl (publishBit sparseOf) (empty words)

def livenessCoreBody (dense : Bool) (workBudget maxIterations : Nat) (budgetByValues : Bool)
    (fixedPoint : LivenessFixedPoint) : LivenessCore :=
  let n := graph.nodes.length
  let nb := schedule.blocks.length
  let values := if dense then (numbering graph wants).2.length else n
  let placed := placing graph schedule
  let words := max ((n+63)/64) 1
  let ranges : Ranges := { lo := List.replicate n none, hi := List.replicate n 0 }
  let bitWords := max ((values+63)/64) 1
  if min ((if budgetByValues then values else n)*nb) noBlock ≤ workBudget then
    let bit := bitOf graph wants dense
    let direct := (List.range nb).foldl (scanBlock graph schedule wants rules bit bitWords)
      { ranges, reads := [], uses := [], defs := [] }
    let edges := (edgeOperands graph schedule wants).foldl
      (scanOperand graph schedule wants rules bit)
      { ranges := direct.ranges, reads := direct.reads
        phiOut := List.replicate nb (empty bitWords), phiEdges := [] }
    let sets : FixedPointSets :=
      { nb, words := bitWords, phiOut := edges.phiOut, uses := direct.uses, defs := direct.defs }
    let zero : LiveSets :=
      { li := List.replicate nb (empty bitWords), lout := List.replicate nb (empty bitWords) }
    let live := fixedPointOnSchedule schedule.blocks fixedPoint sets maxIterations zero
    let ranges := if live.2 then
        (List.range nb).foldl (widenBlock graph schedule wants (nodeOfBit graph wants dense) live.1)
          edges.ranges
      else edges.ranges
    let setOnly := edges.phiEdges.foldl (fun flags e =>
      if ranges.lo.getD e.1 none = none then flags.set e.1 true else flags) (List.replicate n false)
    let ranges := edges.phiEdges.foldl (fun r e => r.note e.1 e.2) ranges
    { posOf := placed.posOf, span := placed.span, totalPositions := placed.seq
      lo := ranges.lo, hi := ranges.hi, setOnlyByPhiRule := setOnly, converged := live.2, words
      liveIn := if dense then
          denseBitsToNodeBits live.1.li words nb (numbering graph wants).2
        else live.1.li
      liveOut := if dense then
          denseBitsToNodeBits live.1.lout words nb (numbering graph wants).2
        else live.1.lout
      reads := edges.reads }
  else
    { posOf := placed.posOf, span := placed.span, totalPositions := placed.seq
      lo := ranges.lo, hi := ranges.hi, setOnlyByPhiRule := List.replicate n false
      converged := false, words, liveIn := [], liveOut := [], reads := [] }

/-- The range a live model publishes for a value. -/
def finishRange (core : LivenessCore) (id : Nat) : Nat × Nat :=
  match core.lo.getD id none with
  | some lo =>
    if core.converged then (lo,max (core.hi.getD id 0) lo) else (0,core.totalPositions-1)
  | none => (0,core.totalPositions-1)

end
end CratonVM.Jit.Liveness
