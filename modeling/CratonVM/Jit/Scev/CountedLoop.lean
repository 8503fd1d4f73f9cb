import CratonVM.Jit.Scev.IntRange

/-!
Counted loops and what `jit/src/scev.rs` proves about them. The code positions of the header and the
back edge, and the name of the overflow model of a span, are left out: nothing below reads them.
-/
namespace CratonVM.Jit.Scev
/-- The comparison of an `if_icmp` that leaves the loop when it holds. -/
inductive ExitCmp where
  | ge
  | gt
  | le
  | lt
  deriving DecidableEq, Repr

namespace ExitCmp
def isIncreasing : ExitCmp → Bool
  | .ge | .gt => true
  | .le | .lt => false

def isInclusive : ExitCmp → Bool
  | .gt | .lt => true
  | .ge | .le => false

end ExitCmp

inductive Stride where
  | const (step : Int)
  | variable_ (slot : Nat)
  deriving DecidableEq, Repr

def Stride.asConst : Stride → Option Int
  | .const s => some s
  | .variable_ _ => none

structure AffineIv where
  local_ : Nat
  init : IntRange
  stride : Stride
  deriving DecidableEq, Repr

inductive LoopForm where
  | preTested
  | postTested
  deriving DecidableEq, Repr

/-- Where the limit of a loop comes from; a literal is an `int`. -/
inductive BoundSource where
  | const (value : { v : Int // IsInt v })
  | local_ (slot : Nat)
  | arrayLength (slot : Nat)
  | field (cpIndex : Nat) (receiverLocal : Option Nat)
  | min (a b : BoundSource)
  | max (a b : BoundSource)
  deriving DecidableEq, Repr

/-- What is known about locals and array lengths on entry to a loop. -/
structure RangeEnv where
  locals : List (Nat × IntRange)
  lengths : List (Nat × IntRange)
  deriving DecidableEq, Repr

namespace RangeEnv
def local_ (env : RangeEnv) (slot : Nat) : IntRange :=
  ((env.locals.find? fun (l,_) => l = slot).map Prod.snd).getD .unknown

def arrayLength (env : RangeEnv) (slot : Nat) : IntRange :=
  ((env.lengths.find? fun (l,_) => l = slot).map Prod.snd).getD .arrayLength

end RangeEnv

def unmodified (modifiedLocals slot : Nat) : Bool := slot < 64 && !modifiedLocals.testBit slot

namespace BoundSource
def rangeIn (env : RangeEnv) : BoundSource → IntRange
  | .const v => .constant v
  | .local_ l => env.local_ l
  | .arrayLength l => (env.arrayLength l).meet .arrayLength
  | .field _ _ => .unknown
  | .min a b => (a.rangeIn env).minWith (b.rangeIn env)
  | .max a b => (a.rangeIn env).maxWith (b.rangeIn env)

def isInvariant (modifiedLocals : Nat) (heapStable : Bool) : BoundSource → Bool
  | .const _ => true
  | .local_ l | .arrayLength l => unmodified modifiedLocals l
  | .field _ receiverLocal => heapStable && receiverLocal.all (unmodified modifiedLocals)
  | .min a b | .max a b =>
    a.isInvariant modifiedLocals heapStable && b.isInvariant modifiedLocals heapStable

end BoundSource

inductive BoundTerm where
  | const (value : Int)
  | bound (source : BoundSource)
  | ivEntry (slot : Nat)
  deriving DecidableEq, Repr

/-- A symbolic endpoint `base + addend`. -/
structure SymBound where
  base : BoundTerm
  addend : Int
  deriving DecidableEq, Repr

namespace SymBound
def constant (v : Int) : SymBound := ⟨.const v,0⟩

def asConst (t : SymBound) : Option Int := do
  let base ← match t.base with
    | .const v => some v
    | .bound (.const v) => some v.val
    | _ => none
  if IsInt (base+t.addend) then some (base+t.addend) else none

def offset (t : SymBound) (k : Int) : Option SymBound :=
  if IsInt (t.addend+k) then some { t with addend := t.addend+k } else none

end SymBound

inductive RefusalReason where
  | zeroStride
  | unknownStride
  | directionMismatch
  | ivMayWrap
  | indexMayWrap
  | unboundedEntry
  | boundNotInvariant
  | unusableBound
  | notTheInductionVariable
  | indexMayBeNegative
  | unboundedIndex
  | unsupportedLoopForm
  deriving DecidableEq, Repr

/-- What the code in front of the loop has to test. -/
inductive PreheaderGuard where
  | nonNegative (term : SymBound)
  | lengthAtLeast (term : SymBound)
  | atMost (term : SymBound) (limit : Int)
  | atLeast (term : SymBound) (limit : Int)
  | strideInRange (slot : Nat) (headroom : SymBound)
  | tripCountAtLeast (term : SymBound) (minimum : Nat)
  deriving DecidableEq, Repr

structure IvSpan where
  numeric : IntRange
  maxTerms : List SymBound
  minTerms : List SymBound
  deriving DecidableEq, Repr

structure ProvenSpan where
  span : IvSpan
  guards : List PreheaderGuard
  deriving DecidableEq, Repr

structure IndexExpr where
  ivLocal : Nat
  scale : Int
  offset : Int
  deriving DecidableEq, Repr

/-- The verdict of a proof: nothing to test, tests to make, or no proof. -/
inductive Verdict where
  | static
  | guarded (guards : List PreheaderGuard)
  | refused (reason : RefusalReason)
  deriving DecidableEq, Repr

structure TripCount where
  min : Nat
  max : Nat
  deriving DecidableEq, Repr

def maxU64 : Nat := 2^64-1

structure CountedLoop where
  iv : AffineIv
  cmp : ExitCmp
  bound : BoundSource
  boundRange : IntRange
  form : LoopForm
  modifiedLocals : Nat
  heapStable : Bool
  hasOtherExit : Bool
  deriving DecidableEq, Repr

namespace CountedLoop
variable (L : CountedLoop)

def boundRangeIn (env : RangeEnv) : IntRange := (L.bound.rangeIn env).meet L.boundRange

/-- What turns the limit into the extreme value of an executed iteration. -/
def boundAddend : Int :=
  if L.cmp.isInclusive then 0 else if L.cmp.isIncreasing then -1 else 1

/-- The extreme value of an executed iteration. -/
def gov : SymBound := ⟨.bound L.bound,L.boundAddend⟩

def entry : SymBound :=
  match L.iv.init.asConstant with
  | some c => .constant c
  | none => ⟨.ivEntry L.iv.local_,0⟩

/-- The stride goes the way the test implies. -/
def checkDirection : Except RefusalReason Unit :=
  match L.iv.stride with
  | .const s =>
    if s = 0 then .error .zeroStride
    else if decide (s > 0) ≠ L.cmp.isIncreasing then .error .directionMismatch
    else .ok ()
  | .variable_ _ =>
    if !L.cmp.isIncreasing then .error .unknownStride
    else if L.form = .postTested then .error .unsupportedLoopForm
    else .ok ()

/-- The values the exit test lets pass, on the entry's side. -/
def testedRange (govLo govHi : Int) : IntRange :=
  if L.cmp.isIncreasing then
    ((IntRange.fromI64 minInt (min govHi maxInt)).getD .unknown).meet
      (.new (L.iv.init.lo.getD minInt) maxInt)
  else
    ((IntRange.fromI64 (max govLo minInt) maxInt).getD .unknown).meet
      (.new minInt (L.iv.init.hi.getD maxInt))

/-- The span; the first iteration of a post-tested loop runs with the untested entry value. -/
def spanOf (govLo govHi : Int) : Except RefusalReason IvSpan :=
  let tested := L.testedRange govLo govHi
  match L.form with
  | .preTested =>
    .ok (if L.cmp.isIncreasing then ⟨tested,[L.gov],[L.entry]⟩ else ⟨tested,[L.entry],[L.gov]⟩)
  | .postTested =>
    if L.iv.init.isUnknown then .error .unboundedEntry
    else
      .ok (if L.cmp.isIncreasing then ⟨tested.join L.iv.init,[L.gov,L.entry],[L.entry]⟩
        else ⟨tested.join L.iv.init,[L.entry],[L.gov,L.entry]⟩)

/-- The last executed value of an increasing loop plus the stride stays an `int`. -/
def limitGuardUp (s govLo govHi : Int) : Except RefusalReason (List PreheaderGuard) :=
  if govHi+s > maxInt then
    if govLo+s > maxInt then .error .ivMayWrap
    else if maxInt-s-L.boundAddend < minInt then .error .ivMayWrap
    else .ok [.atMost ⟨.bound L.bound,0⟩ (maxInt-s-L.boundAddend)]
  else .ok []

def limitGuardDown (s govLo govHi : Int) : Except RefusalReason (List PreheaderGuard) :=
  if govLo+s < minInt then
    if govHi+s < minInt then .error .ivMayWrap
    else if minInt-s-L.boundAddend > maxInt then .error .ivMayWrap
    else .ok [.atLeast ⟨.bound L.bound,0⟩ (minInt-s-L.boundAddend)]
  else .ok []

/-- The overflow obligation; a post-tested loop also advances once from its entry value. -/
def overflowGuards (govLo govHi : Int) : Except RefusalReason (List PreheaderGuard) :=
  match L.iv.stride with
  | .const s =>
    if s > 0 then do
      let guards ← L.limitGuardUp s govLo govHi
      if L.form = .postTested ∧ L.iv.init.hi.getD maxInt+s > maxInt then .error .ivMayWrap
      else .ok guards
    else do
      let guards ← L.limitGuardDown s govLo govHi
      if L.form = .postTested ∧ L.iv.init.lo.getD minInt+s < minInt then .error .ivMayWrap
      else .ok guards
  | .variable_ l => .ok [.strideInRange l L.gov]

def ivSpan (env : RangeEnv) : Except RefusalReason ProvenSpan :=
  if !L.bound.isInvariant L.modifiedLocals L.heapStable then .error .boundNotInvariant
  else
    match (L.boundRangeIn env).i64Bounds with
    | none => .error .unusableBound
    | some (blo,bhi) =>
      if L.iv.init.isEmpty then .error .unusableBound
      else do
        L.checkDirection
        let span ← L.spanOf (blo+L.boundAddend) (bhi+L.boundAddend)
        let guards ← L.overflowGuards (blo+L.boundAddend) (bhi+L.boundAddend)
        pure ⟨span,guards⟩

def indexSpan (idx : IndexExpr) (env : RangeEnv) : Except RefusalReason ProvenSpan :=
  if idx.ivLocal ≠ L.iv.local_ then .error .notTheInductionVariable
  else do
    let base ← L.ivSpan env
    if idx.scale = 1 ∧ idx.offset = 0 then pure base
    else
      match (base.span.numeric.scaleNoWrap idx.scale).bind (·.offsetNoWrap idx.offset) with
      | none => .error .indexMayWrap
      | some numeric =>
        if idx.scale = 1 then
          match base.span.maxTerms.mapM (·.offset idx.offset),
            base.span.minTerms.mapM (·.offset idx.offset) with
          | some maxTerms,some minTerms => .ok ⟨⟨numeric,maxTerms,minTerms⟩,base.guards⟩
          | _,_ => .error .indexMayWrap
        else
          -- there is no symbolic multiply: only the numeric hull is kept
          .ok ⟨⟨numeric,numeric.hi.toList.map .constant,numeric.lo.toList.map .constant⟩,base.guards⟩

/-- The tests for every witness, in order; the first refusal stands. -/
def collectGuards (guardsOf : SymBound → Except RefusalReason (List PreheaderGuard)) :
    List SymBound → Except RefusalReason (List PreheaderGuard)
  | [] => .ok []
  | t :: rest => do
    let here ← guardsOf t
    let later ← collectGuards guardsOf rest
    pure (here ++ later)

/-- The test for `index >= 0` against one lower witness. -/
def lowerGuard (t : SymBound) : Except RefusalReason (List PreheaderGuard) :=
  match t.asConst with
  | some c => if c ≥ 0 then .ok [] else .error .indexMayBeNegative
  | none => .ok [.nonNegative t]

def lowerGuards (span : IvSpan) : Except RefusalReason (List PreheaderGuard) :=
  if span.numeric.definitelyNonNegative then .ok []
  else if span.minTerms.isEmpty then .error .unboundedIndex
  else collectGuards lowerGuard span.minTerms

/-- The test for `index < length` against one upper witness. -/
def upperGuard (arrayLength : Option BoundSource) (length : IntRange) (t : SymBound) :
    Except RefusalReason (List PreheaderGuard) :=
  let knownLenLo := length.lo.getD 0
  if t.asConst.any (· < knownLenLo) then .ok []
  else
    match t.offset 1 with
    | none => .error .indexMayWrap
    | some needed =>
      -- the limit is the length of the array itself
      if arrayLength.any (fun denoted => needed.addend ≤ 0 && needed.base = .bound denoted) then .ok []
      else
        match needed.asConst with
        | some c =>
          if length.hi.any (c > ·) then .error .unboundedIndex
          else if length.lo.any (c ≤ ·) then .ok []
          else .ok [.lengthAtLeast (.constant c)]
        | none => .ok [.lengthAtLeast needed]

def upperGuards (arrayLength : Option BoundSource) (length : IntRange) (span : IvSpan) :
    Except RefusalReason (List PreheaderGuard) :=
  if (span.numeric.hi.map fun h => decide (h < length.lo.getD 0)).getD true then .ok []
  else if span.maxTerms.isEmpty then .error .unboundedIndex
  else collectGuards (upperGuard arrayLength length) span.maxTerms

/-- Equal neighbours are kept once. -/
def dedup : List PreheaderGuard → List PreheaderGuard
  | [] => []
  | guard :: rest =>
    match dedup rest with
    | [] => [guard]
    | next :: rest => if guard = next then next :: rest else guard :: next :: rest

def proveIndexInBoundsOfArray (idx : IndexExpr) (arrayLength : Option BoundSource) (length : IntRange)
    (env : RangeEnv) : Verdict :=
  match L.indexSpan idx env with
  | .error r => .refused r
  | .ok proven =>
    if proven.span.numeric.isEmpty then
      if env.locals.isEmpty then .static else .refused .unusableBound
    else
      match (do
        let lower ← lowerGuards proven.span
        let upper ← upperGuards arrayLength length proven.span
        pure (dedup (proven.guards ++ lower ++ upper))) with
      | .error r => .refused r
      | .ok guards => if guards.isEmpty then .static else .guarded guards

/-- The executions of `from, from±mag, ..` up to `to`. -/
def count (increasing : Bool) (mag first last : Int) : Nat :=
  if increasing then if last < first then 0 else ((last-first)/mag+1).toNat
  else if first < last then 0 else ((first-last)/mag+1).toNat

def tripCount (env : RangeEnv) : Option TripCount :=
  if L.form ≠ .preTested then none
  else if !L.bound.isInvariant L.modifiedLocals L.heapStable then none
  else do
    let stride ← L.iv.stride.asConst
    let increasing := L.cmp.isIncreasing
    if stride = 0 ∨ decide (stride > 0) ≠ increasing then none
    else do
      let (ilo,ihi) ← L.iv.init.i64Bounds
      let (blo,bhi) ← (L.boundRangeIn env).i64Bounds
      let govLo := blo+L.boundAddend
      let govHi := bhi+L.boundAddend
      let mag : Int := stride.natAbs
      let least := if increasing then count true mag ihi govLo else count false mag ilo govHi
      let most := if increasing then count true mag ilo govHi else count false mag ihi govLo
      let mayWrap := if increasing then govHi+mag > maxInt else govLo-mag < minInt
      let most := if mayWrap ∧ most > 0 then maxU64 else most
      pure ⟨if L.hasOtherExit then 0 else Min.min least most,most⟩

/-- The test of a unit stride: the count from the highest entry value. -/
def tripCountGuard (minimum : Nat) (env : RangeEnv) : Verdict :=
  match L.iv.init.hi,(L.boundRangeIn env).hi with
  | some entryHi,some boundHi =>
    let witnessAddend := L.boundAddend-entryHi+1
    if ¬ IsInt witnessAddend then .refused .unboundedEntry
    else if boundHi+witnessAddend < minimum then .refused .unusableBound
    else .guarded [.tripCountAtLeast ⟨.bound L.bound,witnessAddend⟩ minimum]
  | none,_ => .refused .unboundedEntry
  | _,none => .refused .unusableBound

def proveTripCountAtLeast (minimum : Nat) (env : RangeEnv) : Verdict :=
  if minimum = 0 then .static
  else if minimum > 2^32-1 then .refused .unusableBound
  else if !L.bound.isInvariant L.modifiedLocals L.heapStable then .refused .boundNotInvariant
  else if L.form ≠ .preTested then .refused .unsupportedLoopForm
  else
    match L.iv.stride with
    | .variable_ _ => .refused .unknownStride
    | .const stride =>
      if stride = 0 then .refused .zeroStride
      else if decide (stride > 0) ≠ L.cmp.isIncreasing then .refused .directionMismatch
      else if (L.boundRangeIn env).isEmpty || L.iv.init.isEmpty then .refused .unusableBound
      else if (L.tripCount env).any (·.min ≥ minimum) then .static
      else if L.hasOtherExit then .refused .unsupportedLoopForm
      else if stride ≠ 1 then .refused .unsupportedLoopForm
      else if L.iv.init.isUnknown then .refused .unboundedEntry
      else L.tripCountGuard minimum env

end CountedLoop
end CratonVM.Jit.Scev
