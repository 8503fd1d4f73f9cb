import CratonVM.Jit.Bytecode.Agreement
import CratonVM.Jit.LocalHomes.Coloring
import CratonVM.Jit.Scev.CountedLoop
import CratonVM.Lib.Dataflow

/-!
The locals a stretch of bytecode writes (`modified_locals_strict` in `jit/src/loop_analysis.rs`). The
`u64` is the number of its bits; a slot it has no bit for ends the scan.
-/
namespace CratonVM.Jit.LoopAnalysis
open Bytecode Jvms Option

/-- The stores whose opcode names the local, and whether they take two. -/
def implicitStore (op : Nat) : Option (Nat × Bool) :=
  if within 0x3b 0x3e op then some (op-0x3b,false)
  else if within 0x3f 0x42 op then some (op-0x3f,true)
  else if within 0x43 0x46 op then some (op-0x43,false)
  else if within 0x47 0x4a op then some (op-0x47,true)
  else if within 0x4b 0x4e op then some (op-0x4b,false)
  else none

/-- The store at `pc`, if it is one; `none` when its operands are not all in front of `stop`. -/
def storeAt (code : Code) (stop pc : Nat) : Option (Option (Nat × Bool)) :=
  let op := opAt code pc
  if within 0x36 0x3a op then
    if pc+1 ≥ stop then none else some (some (opAt code (pc+1),op = 0x37 || op = 0x39))
  else if (implicitStore op).isSome then some (implicitStore op)
  else if op = 0x84 then
    if pc+2 ≥ stop then none else some (some (opAt code (pc+1),false))
  else if op = 0xc4 then
    if pc+3 ≥ stop then none
    else
      let real := opAt code (pc+1)
      let idx := opAt code (pc+2)*2^8+opAt code (pc+3)
      if within 0x36 0x3a real || real = 0x84 then some (some (idx,real = 0x37 || real = 0x39))
      else some none
  else some none

def mark (slot : Nat) (wide : Bool) (m : Nat) : Option Nat :=
  if slot ≥ 64 ∨ (wide ∧ slot+1 ≥ 64) then none
  else
    let m := m ||| 2^slot
    some (if wide then m ||| 2^(slot+1) else m)

def modifiedFrom (code : Code) (stop : Nat) : (left : Nat) → (pc : Nat) → (m : Nat) → Option Nat
  | 0, _, m => some m
  | left+1, pc, m =>
    if pc < stop then
      match storeAt code stop pc with
      | none => none
      | some none => modifiedFrom code stop left (pc+step code pc) m
      | some (some (slot,wide)) =>
        match mark slot wide m with
        | none => none
        | some m => modifiedFrom code stop left (pc+step code pc) m
    else some m

def modifiedLocalsStrict (code : Code) (start stop : Nat) : Option Nat :=
  modifiedFrom code stop (stop-start) start 0

variable {code : Code} {stop pc m m' : Nat}

theorem byteAt_of_lt (h : pc < code.length) : byteAt code pc = some (opAt code pc) := by
  simp [opAt,byteAt,h]

theorem step_of_op {n : Nat} (hlt : pc < code.length)
    (h : opAt code pc ≠ 0xc4 ∧ opAt code pc ≠ 0xaa ∧ opAt code pc ≠ 0xab ∧ fixedLen (opAt code pc) = n) :
    step code pc = n := by
  obtain ⟨h1,h2,h3,hlen⟩ := h
  simp [step,insnLen,byteAt_of_lt hlt,h1,h2,h3,hlen]

theorem implicitStore_eq {op : Nat} (hop : op < 256) : implicitStore op =
    if within 0x3b 0x4e op then some ((op-0x3b)%4,isPairStore op) else none := by
  have hall : ∀ op < 256, implicitStore op =
      if within 0x3b 0x4e op then some ((op-0x3b)%4,isPairStore op) else none := by decide +kernel
  exact hall op hop

theorem isPairStore_operand {op : Nat} (hop : op < 256) (h : within 0x36 0x3a op = true ∨ op = 0x84) :
    isPairStore op = (op = 0x37 || op = 0x39 : Bool) ∧ within 0x3b 0x4e op = false := by
  have hall : ∀ op < 256, within 0x36 0x3a op = true ∨ op = 0x84 →
      isPairStore op = (op = 0x37 || op = 0x39 : Bool) ∧ within 0x3b 0x4e op = false := by
    decide +kernel
  exact hall op hop h

theorem storeAt_eq (hstop : stop ≤ code.length) {insn : Insn} {hit : Option (Nat × Bool)}
    (h : storeAt code stop pc = some hit) (hdec : decode code pc = some insn) :
    insn.writes = hit.map Prod.fst ∧ ∀ p ∈ hit, storesPair code pc = p.2 := by
  obtain ⟨op,hop,hat,hlt,hcases⟩ := decode_cases hdec
  rcases hcases with ⟨rfl,hw⟩ | ⟨rfl,hw⟩ | ⟨rfl,hw⟩ | ⟨⟨h1,h2,h3⟩,hw⟩
  · obtain ⟨real,idx,hreal,hidx,hform⟩ := wide_eq_some hw
    have hreal' : opAt code (pc+1) = real := by simp [opAt,hreal]
    have hnone : implicitStore 0xc4 = none := by decide
    simp only [storeAt,hat,hreal',hnone,within] at h
    obtain ⟨b0,hb0,hidx⟩ := bind_eq_some_iff.mp hidx
    obtain ⟨b1,hb1,hidx⟩ := bind_eq_some_iff.mp hidx
    have hvalue : opAt code (pc+2)*2^8+opAt code (pc+3) = idx := by
      simp only [opAt,hb0,hb1,getD_some]
      exact some.inj hidx
    have hlt' := byteAt_lt hreal
    rw [hvalue] at h
    simp only [storesPair,hat,hreal']
    rcases hform with ⟨hk,rfl⟩ | ⟨hk,rfl⟩ | ⟨rfl,rfl⟩
    · have hother : (within 0x36 0x3a real || decide (real = 0x84)) = false := by
        simp only [within,Bool.and_eq_true,decide_eq_true_eq] at hk
        simp [within]
        omega
      simp only [within] at hother
      simp [hother] at h
      obtain rfl := h.2
      simp
    · have hstore : (within 0x36 0x3a real || decide (real = 0x84)) = true := by simp [hk]
      simp only [within] at hstore
      simp [hstore] at h
      obtain rfl := h.2
      have hop : isPairStore 0xc4 = false := by decide
      simp [hop,(isPairStore_operand hlt' (.inl hk)).1]
    simp at h
    obtain rfl := h.2
    simp [isPairStore,within]
  · obtain ⟨_,_,_,_,_,_,_,_,_,rfl⟩ := tableswitch_eq_some hw
    have hnone : implicitStore 0xaa = none := by decide
    simp [storeAt,hat,hnone,within] at h
    subst h
    simp
  · obtain ⟨_,_,_,_,_,_,_,rfl⟩ := lookupswitch_eq_some hw
    have hnone : implicitStore 0xab = none := by decide
    simp [storeAt,hat,hnone,within] at h
    subst h
    simp
  · obtain ⟨len,targets,_,_,rfl⟩ := plain_eq_some hw
    simp only [stores,storesPair,hat,decide_eq_false h1,Bool.false_and,Bool.or_false]
    simp only [storeAt,hat,implicitStore_eq hlt,if_neg h1] at h
    by_cases hoperand : within 0x36 0x3a op = true
    · rw [if_pos hoperand] at h
      split at h
      · cases h
      obtain rfl := some.inj h
      simp [hoperand,byteAt_of_lt (show pc+1 < code.length by omega),
        (isPairStore_operand hlt (.inl hoperand)).1]
    rw [if_neg hoperand] at h
    by_cases himplicit : within 0x3b 0x4e op = true
    · have hne : op ≠ 0x84 := by
        rintro rfl
        cases himplicit
      simp only [himplicit,if_true,isSome_some] at h
      obtain rfl := some.inj h
      simp [hoperand,hne,himplicit]
    simp only [himplicit,Bool.false_eq_true,if_false,isSome_none] at h
    by_cases hinc : op = 0x84
    · subst hinc
      simp only [if_true] at h
      split at h
      · cases h
      obtain rfl := some.inj h
      simp [byteAt_of_lt (show pc+1 < code.length by omega),isPairStore,within]
    rw [if_neg hinc] at h
    obtain rfl := some.inj h
    simp [hoperand,himplicit,hinc]

theorem mark_eq_some {slot : Nat} {wide : Bool} (h : mark slot wide m = some m') :
    (∀ i, m.testBit i = true → m'.testBit i = true) ∧ (slot < 64 ∧ m'.testBit slot = true) ∧
      (wide = true → slot+1 < 64 ∧ m'.testBit (slot+1) = true) := by
  unfold mark at h
  split at h
  · cases h
  rename_i hsmall
  obtain rfl := some.inj h
  rw [not_or] at hsmall
  have hnext : wide = true → slot+1 < 64 := fun hw => by
    by_contra hge
    exact hsmall.2 ⟨hw,by omega⟩
  all_goals
    cases wide <;> simp_all [Nat.testBit_or,Nat.testBit_two_pow]

theorem modifiedFrom_covers (hstop : stop ≤ code.length) {left : Nat} (hleft : stop-pc ≤ left)
    (h : modifiedFrom code stop left pc m = some m') :
    (∀ i, m.testBit i = true → m'.testBit i = true) ∧
      ∀ {p slot}, Reaches code pc p → p < stop → Overwrites code p slot →
        slot < 64 ∧ m'.testBit slot = true := by
  induction left generalizing pc m with
  | zero =>
    obtain rfl := some.inj h
    refine ⟨fun _ hi => hi,fun {p slot} hr hlt => ?_⟩
    have := hr.le
    omega
  | succ left ih => ?_
  have hpos := step_pos code pc
  rw [modifiedFrom] at h
  split at h
  · cases hstore : storeAt code stop pc with
    | none => simp [hstore] at h
    | some hit => ?_
    rw [hstore] at h
    -- one instruction, and then the rest of the stretch
    obtain ⟨m1,hgrows,hhere,hrest⟩ : ∃ m1, (∀ i, m.testBit i = true → m1.testBit i = true) ∧
        (∀ slot, Overwrites code pc slot → slot < 64 ∧ m1.testBit slot = true) ∧
        modifiedFrom code stop left (pc+step code pc) m1 = some m' := by
      cases hit with
      | none =>
        refine ⟨m,fun _ hi => hi,fun slot hw => ?_,h⟩
        obtain ⟨insn,w,hdec,hwrites,-⟩ := hw
        rw [(storeAt_eq hstop hstore hdec).1] at hwrites
        cases hwrites
      | some hit => ?_
      dsimp only at h
      cases hmark : mark hit.1 hit.2 m with
      | none => simp [hmark] at h
      | some m1 => ?_
      rw [hmark] at h
      obtain ⟨hkeep,hslot,hwide⟩ := mark_eq_some hmark
      refine ⟨m1,hkeep,fun slot hw => ?_,h⟩
      obtain ⟨insn,w,hdec,hwrites,heq⟩ := hw
      obtain ⟨hw,hpair⟩ := storeAt_eq hstop hstore hdec
      obtain rfl := some.inj (hw.symm.trans hwrites)
      rcases heq with rfl | ⟨hp,rfl⟩
      · exact hslot
      · exact hwide ((hpair hit rfl).symm.trans hp)
    obtain ⟨hkeep,hlater⟩ := ih (by omega) hrest
    refine ⟨fun i hi => hkeep i (hgrows i hi),fun {p slot} hr hlt hw => ?_⟩
    rcases hr.eq_or_next with rfl | hr
    · exact (hhere slot hw).imp_right (hkeep slot)
    · exact hlater hr hlt hw
  · obtain rfl := some.inj h
    refine ⟨fun _ hi => hi,fun {p slot} hr hlt => ?_⟩
    have := hr.le
    omega

theorem modifiedLocalsStrict_covers {start : Nat} (hstop : stop ≤ code.length)
    (h : modifiedLocalsStrict code start stop = some m) {p slot : Nat} (hr : Reaches code start p)
    (hlt : p < stop) (hw : Overwrites code p slot) : slot < 64 ∧ m.testBit slot = true :=
  (modifiedFrom_covers hstop le_rfl h).2 hr hlt hw

end CratonVM.Jit.LoopAnalysis
namespace CratonVM.Jit.LoopAnalysis
open Bytecode Scev
open LocalHomes (pcsIn)

/-- Which reduction of `Math` an `invokestatic` is. -/
inductive MinMax where
  | min
  | max
  deriving DecidableEq, Repr

def iloadLocal (code : Code) (pc stop : Nat) : Option Nat :=
  (byteAt code pc).bind fun op =>
    if within 0x1a 0x1d op then some (op-0x1a)
    else if op = 0x15 && pc+1 < stop then some (opAt code (pc+1))
    else none

def iloadLen (code : Code) (pc : Nat) : Nat := if byteAt code pc = some 0x15 then 2 else 1

def byteValue (code : Code) (pc : Nat) : Int := (opAt code pc : Int).bmod (2^8)

def u16Value (code : Code) (pc : Nat) : Nat := opAt code pc*2^8+opAt code (pc+1)

def shortValue (code : Code) (pc : Nat) : Int := (u16Value code pc : Int).bmod (2^16)

def constPushValue (code : Code) (pc stop : Nat) : Option Int :=
  (byteAt code pc).bind fun op =>
    if within 0x02 0x08 op then some ((op : Int)-3)
    else if op = 0x10 && pc+1 < stop then some (byteValue code (pc+1))
    else if op = 0x11 && pc+2 < stop then some (shortValue code (pc+1))
    else none

def literal (v : Int) (next : Nat) : Option (BoundSource × Nat) :=
  if h : IsInt v then some (.const ⟨v,h⟩,next) else none

/-- The limit behind the load of a reference: a length or a field. -/
def decodeReceiver (code : Code) (recv after stop : Nat) : Option (BoundSource × Nat) :=
  if after < stop ∧ opAt code after = 0xbe then some (.arrayLength recv,after+1)
  else if after+2 < stop ∧ opAt code after = 0xb4 then
    some (.field (u16Value code (after+1)) (some recv),after+3)
  else none

def decodeAtom (code : Code) (pc stop : Nat) : Option (BoundSource × Nat) :=
  if pc ≥ stop ∨ pc ≥ code.length then none
  else
    let op := opAt code pc
    if within 0x02 0x08 op then literal ((op : Int)-3) (pc+1)
    else if op = 0x10 ∧ pc+1 < stop then literal (byteValue code (pc+1)) (pc+2)
    else if op = 0x11 ∧ pc+2 < stop then literal (shortValue code (pc+1)) (pc+3)
    else if within 0x1a 0x1d op then some (.local_ (op-0x1a),pc+1)
    else if op = 0x15 ∧ pc+1 < stop then some (.local_ (opAt code (pc+1)),pc+2)
    else if op = 0xb2 ∧ pc+2 < stop then some (.field (u16Value code (pc+1)) none,pc+3)
    else if op = 0x19 then
      if pc+1 ≥ stop then none else decodeReceiver code (opAt code (pc+1)) (pc+2) stop
    else if within 0x2a 0x2d op then decodeReceiver code (op-0x2a) (pc+1) stop
    else none

def combine (kind : MinMax) (a b : BoundSource) : BoundSource :=
  match kind with
  | .min => .min a b
  | .max => .max a b

def boundExprMaxDepth : Nat := 4

/-- An atom, or two expressions and the call that combines them. -/
def decodeExpr (resolve : Nat → Option MinMax) (code : Code) (stop : Nat) :
    (left : Nat) → (pc : Nat) → Option (BoundSource × Nat)
  | 0, _ => none
  | left+1, pc =>
    match decodeAtom code pc stop with
    | none => none
    | some (a,p) =>
      match decodeExpr resolve code stop left p with
      | none => some (a,p)
      | some (b,q) =>
        if q+2 < stop ∧ opAt code q = 0xb8 then
          match resolve (u16Value code (q+1)) with
          | some kind => some (combine kind a b,q+3)
          | none => some (a,p)
        else some (a,p)

def decodeBoundExpr (resolve : Nat → Option MinMax) (code : Code) (pc stop : Nat) :
    Option (BoundSource × Nat) :=
  decodeExpr resolve code stop (boundExprMaxDepth+1) pc

/-- Whether a branch of the region leads behind `lo` and not behind `hi`. -/
def branchLandsIn (code : Code) (start stop lo hi : Nat) : Bool :=
  (pcsIn code start (min stop code.length)).any fun pc =>
    let inside := fun t => decide (lo < t) && decide (t ≤ hi)
    if isOffsetBranch (opAt code pc) then (offsetBranchTarget code pc).all inside
    else if opAt code pc = 0xaa || opAt code pc = 0xab then
      (switchTable code code.length pc).all fun targets => targets.any inside
    else false

/-- The explicit targets as the scan for the advance reads them. -/
def scanTargets (code : Code) (pc : Nat) : Option (List Nat) :=
  let op := opAt code pc
  if within 0x99 0xa7 op || op = 0xc6 || op = 0xc7 || op = 0xc8 then (offsetBranchTarget code pc).map ([·])
  else if op = 0xaa || op = 0xab then switchTable code code.length pc
  else if isSubroutineOp op then none
  else some []

/-- The branch neither skips the advance nor goes around it again. -/
def edgeKeepsAdvance (start stop inc pc t : Nat) : Bool :=
  decide (t < start) || decide (t ≥ stop) ||
    if pc < inc then !(decide (t = start) || decide (t > inc))
    else !(decide (pc > inc) && decide (t > start) && decide (t ≤ inc))

def handlerKeepsAdvance (start stop inc : Nat) (h : HandlerRange) : Bool :=
  decide (h.startPc ≥ h.endPc) || decide (h.handlerPc < start) || decide (h.handlerPc ≥ stop) ||
    (!(decide (h.startPc < start) || decide (h.endPc > stop)) &&
      !(decide (h.startPc < inc) && (decide (h.handlerPc = start) || decide (h.handlerPc > inc))) &&
      !(decide (h.endPc > inc+1) && decide (h.handlerPc > start) && decide (h.handlerPc ≤ inc)))

def advanceRunsOncePerIteration (code : Code) (start stop inc : Nat) (entries : List HandlerRange) : Bool :=
  entries.all (handlerKeepsAdvance start stop inc) &&
    (pcsIn code start stop).all fun pc =>
      (scanTargets code pc).any fun targets => targets.all (edgeKeepsAdvance start stop inc pc)

/-- The handlers of the region; `none` when an exception from outside enters it. -/
def regionHandlers (starts : List Nat) (start stop : Nat) (entries : List HandlerRange) :
    Option (List HandlerRange) :=
  let landing := entries.filter fun h =>
    !(decide (h.startPc ≥ h.endPc) || decide (h.handlerPc < start) || decide (h.handlerPc ≥ stop))
  if landing.any fun h => decide (h.startPc < start) || decide (h.endPc > stop) ||
      !starts.contains h.handlerPc then none
  else some landing

/-- The edges of an instruction with whether an advance has run; `none` when a path has two advances,
or comes back to the header without one. -/
def advanceEdges (code : Code) (starts : List Nat) (start stop : Nat) (advances : List Nat)
    (handlers : List HandlerRange) (pc : Nat) (before : Bool) : Option (List (Nat × Bool)) :=
  if advances.contains pc && before then none
  else
    (normalSuccessors code code.length pc).bind fun succs =>
      let after := before || advances.contains pc
      let edges := succs.map (·,after) ++
        (handlers.filter fun h => decide (h.startPc ≤ pc) && decide (pc < h.endPc)).map (·.handlerPc,before)
      let inside := edges.filter fun e => decide (start ≤ e.1) && decide (e.1 < stop)
      if inside.any fun e => (e.1 = start && !e.2) || (e.1 ≠ start && !starts.contains e.1) then none
      else some (inside.filter (·.1 ≠ start))

def everyIterationRunsOneAdvance (code : Code) (start stop : Nat) (advances : List Nat)
    (entries : List HandlerRange) : Bool :=
  let stop := min stop code.length
  if start ≥ stop then false
  else
    let starts := pcsIn code start stop
    ((regionHandlers starts start stop entries).bind fun handlers =>
      LabelWalk.walk (advanceEdges code starts start stop advances handlers) (stop-start)
        ⟨Dataflow.update (fun _ => none) start false,[start]⟩).isSome

/-- The edges of an instruction in front of the test; `none` when one comes back to the header. -/
def testEdges (code : Code) (start stop testPc : Nat) (entries : List HandlerRange) (pc : Nat) (_ : Unit) :
    Option (List (Nat × Unit)) :=
  if pc = testPc then some []
  else
    (normalSuccessors code code.length pc).bind fun succs =>
      let edges := succs ++ (entries.filter fun h => decide (h.startPc < h.endPc) &&
        decide (h.startPc ≤ pc) && decide (pc < h.endPc)).map (·.handlerPc)
      let inside := edges.filter fun t => decide (start ≤ t) && decide (t < stop)
      if inside.contains start then none else some (inside.map (·,()))

def exitTestOnEveryIteration (code : Code) (start stop testPc : Nat) (entries : List HandlerRange) : Bool :=
  let stop := min stop code.length
  if start ≥ stop then false
  else
    (LabelWalk.walk (testEdges code start stop testPc entries) (stop-start)
      ⟨Dataflow.update (fun _ => none) start (),[start]⟩).isSome

/-- A store that is not of an `int` to the local, or the second half of one. -/
def clobbers (code : Code) (iv pc : Nat) : Bool :=
  let op := opAt code pc
  if within 0x37 0x3a op then
    opAt code (pc+1) = iv || ((op = 0x37 || op = 0x39) && opAt code (pc+1)+1 = iv)
  else if within 0x3f 0x42 op then op-0x3f = iv || op-0x3f+1 = iv
  else if within 0x43 0x46 op then op-0x43 = iv
  else if within 0x47 0x4a op then op-0x47 = iv || op-0x47+1 = iv
  else if within 0x4b 0x4e op then op-0x4b = iv
  else false

def wideAliases (code : Code) (iv pc : Nat) : Bool :=
  let real := opAt code (pc+1)
  let idx := u16Value code (pc+2)
  (within 0x36 0x3a real || real = 0x84) && (idx = iv || ((real = 0x37 || real = 0x39) && idx+1 = iv))

def istoreTarget (code : Code) (pc : Nat) : Option Nat :=
  let op := opAt code pc
  if op = 0x36 then some (opAt code (pc+1)) else if within 0x3b 0x3e op then some (op-0x3b) else none

/-- The stride of `iload iv; <step>; iadd; istore iv`, with the instructions in front, last first. -/
def compoundStride (code : Code) (start stop iv pc : Nat) (prev : List Nat) : Option Stride :=
  match prev with
  | p1::p2::p3::_ =>
    if iloadLocal code p3 stop ≠ some iv then none
    else if branchLandsIn code start stop p3 pc then none
    else
      match constPushValue code p2 stop with
      | some c =>
        if opAt code p1 = 0x60 then some (.const c)
        else if opAt code p1 = 0x64 then if c = minInt then none else some (.const (-c))
        else none
      | none =>
        if opAt code p1 = 0x60 then
          (iloadLocal code p2 stop).bind fun s => if s ≠ iv then some (.variable_ s) else none
        else none
  | _ => none

/-- The advance at `pc`, if it is one; `none` refuses the loop. -/
def advanceAt (code : Code) (start stop iv pc : Nat) (prev : List Nat) : Option (Option Stride) :=
  let op := opAt code pc
  if op = 0x84 then
    if pc+2 ≥ stop then none
    else some (if opAt code (pc+1) = iv then some (.const (byteValue code (pc+2))) else none)
  else if op = 0xc4 then
    if pc+3 ≥ stop then none else if wideAliases code iv pc then none else some none
  else if within 0x36 0x3a op && pc+1 ≥ stop then none
  else if clobbers code iv pc then none
  else if istoreTarget code pc = some iv then (compoundStride code start stop iv pc prev).map some
  else some none

def advancesFrom (code : Code) (start stop iv : Nat) : (left : Nat) → (pc : Nat) → (prev : List Nat) →
    Option (List (Nat × Stride))
  | 0, _, _ => some []
  | left+1, pc, prev =>
    if pc < stop then
      match advanceAt code start stop iv pc prev with
      | none => none
      | some hit =>
        (advancesFrom code start stop iv left (pc+step code pc) ((pc::prev).take 3)).map fun rest =>
          (hit.toList.map (pc,·)) ++ rest
    else some []

def findIvStride (code : Code) (start stop iv : Nat) (entries : List HandlerRange) : Option Stride :=
  match advancesFrom code start stop iv (stop-start) start [] with
  | none | some [] => none
  | some [(inc,stride)] => if advanceRunsOncePerIteration code start stop inc entries then some stride else none
  | some ((p,stride)::rest) =>
    if rest.any (·.2 ≠ stride) then none
    else if everyIterationRunsOneAdvance code start stop (p::rest.map Prod.fst) entries then some stride
    else none

/-- Every branch of the method with its target; `none` with a branch that cannot be placed. -/
def loopBranchEdges (code : Code) (codeLen : Nat) : Option (List (Nat × Nat)) :=
  let pcs := pcsIn code 0 codeLen
  if pcs.any fun pc => opAt code pc = 0xaa || opAt code pc = 0xab || isSubroutineOp (opAt code pc) ||
      opAt code pc = 0xc8 then none
  else
    (pcs.filter fun pc => within 0x99 0xa7 (opAt code pc) || opAt code pc = 0xc6 || opAt code pc = 0xc7).mapM
      fun pc => ((offsetBranchTarget (code.take codeLen) pc).filter (· < codeLen)).map (pc,·)

/-- An `istore` with the instruction in front of it. -/
structure IntStore where
  pc : Nat
  slot : Nat
  prev : Option Nat
  deriving DecidableEq, Repr

def storesAlong (code : Code) (codeLen : Nat) : (prev : Option Nat) → (pcs : List Nat) → List IntStore
  | _, [] => []
  | prev, pc::pcs =>
    let hit := if opAt code pc = 0x36 && !decide (pc+1 < codeLen) then none else istoreTarget code pc
    hit.toList.map (⟨pc,·,prev⟩) ++ storesAlong code codeLen (some pc) pcs

def intStores (code : Code) (codeLen : Nat) : List IntStore :=
  storesAlong code codeLen none (pcsIn code 0 codeLen)

/-- The locals that an `istore` or `iinc` with a wide index writes. -/
def wideIntWrites (code : Code) (codeLen : Nat) : List Nat :=
  (pcsIn code 0 codeLen).filterMap fun pc =>
    if opAt code pc = 0xc4 && decide (pc+3 < codeLen) &&
        (opAt code (pc+1) = 0x36 || opAt code (pc+1) = 0x84) then some (u16Value code (pc+2))
    else none

/-- The `goto` that ends the stretch in front of the header, if one does; `none` when the stretch is
not straight. -/
def segmentGoto (code : Code) (codeLen header stop : Nat) : (left : Nat) → (p : Nat) → Option (Option Nat)
  | 0, p => if p = header then some none else none
  | left+1, p =>
    if p < header then
      let op := opAt code p
      if op = 0xa7 then
        (offsetBranchTarget (code.take codeLen) p).bind fun t =>
          if p+3 ≠ header ∨ t < header ∨ t ≥ stop then none else some (some p)
      else if !fallsThrough op || isOffsetBranch op || isSubroutineOp op then none
      else segmentGoto code codeLen header stop left (p+step code p)
    else if p = header then some none
    else none

/-- Whether the store runs on every way into the loop, with nothing behind it that writes the local. -/
def storeReachesEveryEntry (code : Code) (codeLen : Nat) (entries : List HandlerRange)
    (header stop iv storePc pushPc : Nat) (cat2 : Bool) : Bool :=
  ((loopBranchEdges code codeLen).bind fun edges =>
    if storePc ≥ header then none
    else if edges.any fun e => e.2 = storePc then none
    else
      let segStart := storePc+step code storePc
      (segmentGoto code codeLen header stop (header-segStart+1) segStart).bind fun entryGoto =>
        (modifiedLocalsStrict code segStart (entryGoto.getD header)).bind fun segWrites =>
          if iv ≥ 64 || segWrites.testBit iv then none
          else if cat2 && (iv+1 ≥ 64 || segWrites.testBit (iv+1)) then none
          else if edges.any fun (src,t) => entryGoto ≠ some src &&
              ((decide (t > storePc) && decide (t < header)) ||
                (!(decide (src ≥ header) && decide (src < stop)) && decide (t ≥ header) && decide (t < stop)))
            then none
          else if entries.any fun h => !(decide (h.startPc ≥ h.endPc) || decide (h.handlerPc < pushPc) ||
              decide (h.handlerPc ≥ stop)) && (decide (h.startPc ≤ storePc) || decide (h.endPc > stop))
            then none
          else some ()).isSome

def constantIvInit (code : Code) (codeLen : Nat) (entries : List HandlerRange) (header stop iv : Nat) :
    Option Int :=
  if (wideIntWrites code codeLen).contains iv then none
  else
    match (intStores code codeLen).reverse.find? fun s => s.slot = iv && decide (s.pc < header) with
    | some ⟨storePc,_,some pushPc⟩ =>
      if storeReachesEveryEntry code codeLen entries header stop iv storePc pushPc false then
        constPushValue code pushPc codeLen
      else none
    | _ => none

def handlerEntries (codeLen : Nat) (handlers : List HandlerRange) : List HandlerRange :=
  handlers.map fun h => { h with endPc := min h.endPc codeLen }

def handlerEntersFromOutside (entries : List HandlerRange) (lo hi : Nat) : Bool :=
  entries.any fun h => decide (h.startPc < h.endPc) && decide (h.handlerPc ≥ lo) &&
    decide (h.handlerPc < hi) && (decide (h.startPc < lo) || decide (h.endPc > hi))

def bodyIsHeapStable (code : Code) (start stop : Nat) : Bool :=
  (pcsIn code start stop).all fun pc =>
    let op := opAt code pc
    !(op = 0xb3 || op = 0xb5 || within 0xb6 0xba op || within 0xbb 0xbd op || op = 0xc5 || op = 0xc2 ||
      op = 0xc3)

def loopHasOtherExit (code : Code) (header stop exitPc backEdgePc : Nat) : Bool :=
  let inside := fun t => decide (t ≥ header) && decide (t < stop)
  (pcsIn code header stop).any fun pc =>
    let op := opAt code pc
    if pc = exitPc ∨ pc = backEdgePc then false
    else if within 0x99 0xa7 op || op = 0xc6 || op = 0xc7 || op = 0xc8 then
      !(offsetBranchTarget code pc).any inside
    else if op = 0xaa || op = 0xab then !(switchTable code code.length pc).any fun targets => targets.all inside
    else isSubroutineOp op || within 0xac 0xb1 op || op = 0xbf

def exitCmpOf (op : Nat) : Option ExitCmp :=
  if op = 0xa1 then some .lt
  else if op = 0xa2 then some .ge
  else if op = 0xa3 then some .gt
  else if op = 0xa4 then some .le
  else none

def negateCmp : ExitCmp → ExitCmp
  | .lt => .ge
  | .ge => .lt
  | .gt => .le
  | .le => .gt

/-- Which edges of the test leave the loop: one of them, and the taken one. -/
def testLeaves (code : Code) (header stop q : Nat) : Bool × Bool :=
  if q+2 < code.length then
    let taken := (q : Int)+shortValue code (q+1)
    let outside := fun t : Int => decide (t < header) || decide (t ≥ stop)
    (outside taken || outside (q+3 : Nat),outside taken)
  else (false,false)

/-- The loop whose exit test starts at `pc`. -/
def loopTestedAt (code : Code) (codeLen : Nat) (entries : List HandlerRange) (header backEdgePc stop : Nat)
    (form : LoopForm) (resolve : Nat → Option MinMax) (modifiedLocals : Nat) (pc : Nat) :
    Option (CountedLoop × Nat) :=
  (iloadLocal code pc stop).bind fun candidate =>
    (decodeBoundExpr resolve code (pc+iloadLen code pc) stop).bind fun (bound,q) =>
      if q ≥ stop then none
      else if branchLandsIn code header stop pc q then none
      else if !(testLeaves code header stop q).1 then none
      else
        ((exitCmpOf (opAt code q)).map fun c =>
            if (testLeaves code header stop q).2 then c else negateCmp c).bind fun cmp =>
          if !exitTestOnEveryIteration code header stop q entries then none
          else
            (findIvStride code header stop candidate entries).bind fun stride =>
              let init := ((constantIvInit code codeLen entries header stop candidate).map
                IntRange.constant).getD .unknown
              some (⟨⟨candidate,init,stride⟩,cmp,bound,.unknown,form,modifiedLocals,
                bodyIsHeapStable code header stop,loopHasOtherExit code header stop q backEdgePc⟩,pc)

def loopEnd (code : Code) (codeLen backEdgePc : Nat) : Nat := min (backEdgePc+step code backEdgePc) codeLen

def analyzeCountedLoopAtWithHandlers (code : Code) (codeLen header backEdgePc : Nat) (form : LoopForm)
    (resolve : Nat → Option MinMax) (handlers : List HandlerRange) : Option (CountedLoop × Nat) :=
  let codeLen := min codeLen code.length
  let entries := handlerEntries codeLen handlers
  let stop := loopEnd code codeLen backEdgePc
  if header ≥ codeLen ∨ backEdgePc ≥ codeLen then none
  else if header ≥ stop then none
  else if handlerEntersFromOutside entries header stop then none
  else
    (modifiedLocalsStrict code header stop).bind fun modifiedLocals =>
      (pcsIn code header stop).findSome?
        (loopTestedAt code codeLen entries header backEdgePc stop form resolve modifiedLocals)

end CratonVM.Jit.LoopAnalysis
