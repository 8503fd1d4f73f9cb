import CratonVM.Jit.Bytecode.Agreement
import CratonVM.Jit.RangeAnalysis.Range
import CratonVM.Lib.MachineArithmetic

/-!
Executions of a method, as far as array indices and induction variables need them: constants, loads,
stores, `arraylength`, the reads of fields, the sums and differences of ints, `iinc` and the tests of
ints are exact, every other instruction may leave any operand stack behind. Objects keep what they are,
whoever else runs.
-/
namespace CratonVM.Jit.Bce
open Bytecode Jvms RangeAnalysis List Bool

abbrev JInt := { v : Int // Range.Holds .w32 v }

/-- An operand or a local: an `int`, a reference, or a value of another type. -/
inductive Value where
  | int (v : JInt)
  | ref (r : Option Nat)
  | other

inductive HeapObject where
  | object
  | array (length : JInt)

structure Frame where
  pc : Nat
  stack : List Value
  locals : Nat → Value
  heap : Nat → Option HeapObject

/-- The comparisons of the conditional branches. -/
inductive Rel where
  | eq
  | ne
  | lt
  | le
  | gt
  | ge
  deriving DecidableEq, Repr

def Rel.Holds (a b : Int) : Rel → Prop
  | .eq => a = b
  | .ne => a ≠ b
  | .lt => a < b
  | .le => a ≤ b
  | .gt => a > b
  | .ge => a ≥ b

/-- The conditions in the order of the opcodes. -/
def conditions : List Rel := [.eq,.ne,.lt,.ge,.gt,.le]

def constantAt (code : Code) (pc : Nat) : Option Int :=
  let op := opAt code pc
  if within 0x02 0x08 op then some ((op : Int)-3)
  else if op = 0x10 then (byteAt code (pc+1)).map fun b : Nat => (b : Int).bmod (2^8)
  else if op = 0x11 then readI16 code (pc+1)
  else none

/-- The amount of an `iinc`. -/
def incrementAt (code : Code) (pc : Nat) : Option Int :=
  if opAt code pc = 0x84 then (byteAt code (pc+2)).map fun b : Nat => (b : Int).bmod (2^8)
  else readI16 code (pc+4)

/-- The constants and the loads without the prefix for wide indices. -/
def isPush (op : Nat) : Bool := within 0x01 0x2d op

def isIload (op : Nat) : Bool := op = 0x15 || within 0x1a 0x1d op

def isAload (op : Nat) : Bool := op = 0x19 || within 0x2a 0x2d op

/-- The opcode that takes effect. -/
def effective (code : Code) (pc : Nat) : Nat := if opAt code pc = 0xc4 then opAt code (pc+1) else opAt code pc

def isStore (op : Nat) : Bool := within 0x36 0x4e op

def isIstore (op : Nat) : Bool := op = 0x36 || within 0x3b 0x3e op

/-- The value that a push leaves on the stack. -/
def Pushes (code : Code) (f : Frame) (insn : Insn) (v : Value) : Prop :=
  (∀ c, constantAt code f.pc = some c → ∃ n : JInt, v = .int n ∧ (n : Int) = c) ∧
  (isIload (opAt code f.pc) = true → ∃ l n, insn.reads = some l ∧ f.locals l = .int n ∧ v = .int n) ∧
  (isAload (opAt code f.pc) = true → ∃ l r, insn.reads = some l ∧ f.locals l = .ref r ∧ v = .ref r)

/-- The instructions with an effect of their own below. -/
def isExact (code : Code) (pc : Nat) : Bool :=
  isPush (opAt code pc) || opAt code pc = 0xbe || isStore (effective code pc) ||
    effective code pc = 0x84 || within 0x99 0xa4 (opAt code pc) || opAt code pc = 0x60 ||
    opAt code pc = 0x64 || opAt code pc = 0xb2 || opAt code pc = 0xb4

/-- What one instruction does: where control goes, the operand stack and the locals. -/
inductive Effect (code : Code) (f : Frame) : Nat → List Value → (Nat → Value) → Prop where
  | push {insn : Insn} {v : Value} : decode code f.pc = some insn → isPush (opAt code f.pc) = true →
    Pushes code f insn v → Effect code f (f.pc+insn.length) (v::f.stack) f.locals
  | arraylength {insn : Insn} {r : Nat} {n : JInt} {rest : List Value} : decode code f.pc = some insn →
    opAt code f.pc = 0xbe → f.stack = .ref (some r)::rest → f.heap r = some (.array n) →
    Effect code f (f.pc+insn.length) (.int n::rest) f.locals
  | getstatic {insn : Insn} {v : Value} : decode code f.pc = some insn → opAt code f.pc = 0xb2 →
    Effect code f (f.pc+insn.length) (v::f.stack) f.locals
  | getfield {insn : Insn} {r : Option Nat} {v : Value} {rest : List Value} : decode code f.pc = some insn →
    opAt code f.pc = 0xb4 → f.stack = .ref r::rest → Effect code f (f.pc+insn.length) (v::rest) f.locals
  | arith {insn : Insn} {a b c : JInt} {rest : List Value} : decode code f.pc = some insn →
    f.stack = .int b::.int a::rest →
    opAt code f.pc = 0x60 ∧ (c : Int) = Wrapping.wrap 32 (a+b) ∨
      opAt code f.pc = 0x64 ∧ (c : Int) = Wrapping.wrap 32 (a-b) →
    Effect code f (f.pc+insn.length) (.int c::rest) f.locals
  | store {insn : Insn} {w : Nat} {v : Value} {rest : List Value} {locals : Nat → Value} :
    decode code f.pc = some insn → isStore (effective code f.pc) = true → insn.writes = some w →
    f.stack = v::rest → (isIstore (effective code f.pc) = true → ∃ n, v = .int n) →
    (storesPair code f.pc = false → locals w = v) →
    (∀ slot, ¬ Overwrites code f.pc slot → locals slot = f.locals slot) →
    Effect code f (f.pc+insn.length) rest locals
  | iinc {insn : Insn} {w : Nat} {d : Int} {v v' : JInt} {locals : Nat → Value} :
    decode code f.pc = some insn → effective code f.pc = 0x84 → insn.writes = some w →
    incrementAt code f.pc = some d → f.locals w = .int v → (v' : Int) = Wrapping.wrap 32 (v+d) →
    locals w = .int v' → (∀ slot, slot ≠ w → locals slot = f.locals slot) →
    Effect code f (f.pc+insn.length) f.stack locals
  | test {insn : Insn} {rel : Rel} {v : JInt} {rest : List Value} {q : Nat} :
    decode code f.pc = some insn → 0x99 ≤ opAt code f.pc → conditions[opAt code f.pc-0x99]? = some rel →
    f.stack = .int v::rest →
    rel.Holds v 0 ∧ (q : Int) ∈ insn.targets ∨ ¬ rel.Holds v 0 ∧ q = f.pc+insn.length →
    Effect code f q rest f.locals
  | compare {insn : Insn} {rel : Rel} {a b : JInt} {rest : List Value} {q : Nat} :
    decode code f.pc = some insn → 0x9f ≤ opAt code f.pc → conditions[opAt code f.pc-0x9f]? = some rel →
    f.stack = .int b::.int a::rest →
    rel.Holds a b ∧ (q : Int) ∈ insn.targets ∨ ¬ rel.Holds a b ∧ q = f.pc+insn.length →
    Effect code f q rest f.locals
  | any {q : Nat} {stack : List Value} : isExact code f.pc = false → Next code f.pc q →
    Effect code f q stack f.locals

def Extends (heap heap' : Nat → Option HeapObject) : Prop := ∀ r o, heap r = some o → heap' r = some o

inductive Step (code : Code) (handlers : List HandlerRange) (f : Frame) : Frame → Prop where
  | normal {q : Nat} {stack : List Value} {locals : Nat → Value} {heap : Nat → Option HeapObject} :
    Effect code f q stack locals → Extends f.heap heap → Step code handlers f ⟨q,stack,locals,heap⟩
  | throws {q e : Nat} {heap : Nat → Option HeapObject} : Leaves handlers f.pc q → Extends f.heap heap →
    heap e = some .object → Step code handlers f ⟨q,[.ref (some e)],f.locals,heap⟩

/-- The frame is one of an execution of the method, with any arguments. -/
def Reachable (code : Code) (handlers : List HandlerRange) (f : Frame) : Prop :=
  ∃ locals heap, Relation.ReflTransGen (Step code handlers) ⟨0,[],locals,heap⟩ f

/-- The array and the index of an array access on top of the stack. -/
def accessOperands (op : Nat) (stack : List Value) : Option (Value × Value) :=
  if within 0x2e 0x35 op then
    match stack with
    | index::arr::_ => some (arr,index)
    | _ => none
  else
    match stack with
    | _::index::arr::_ => some (arr,index)
    | _ => none

variable {code : Code} {f : Frame} {q : Nat} {stack : List Value} {locals : Nat → Value}

theorem falls_of_conditional {pc : Nat} {insn : Insn} (hdec : decode code pc = some insn)
    (h : isUnconditional (opAt code pc) = false) : insn.falls = true := by
  rw [isUnconditional_eq hdec,not_eq_false'] at h
  exact h

theorem not_isUnconditional {op : Nat} (hop : op < 256) (h : op < 0xa7 ∨ 0xb2 ≤ op ∧ op ≤ 0xbe ∨ op = 0xc4) :
    isUnconditional op = false := by
  have hall : ∀ op < 256, op < 0xa7 ∨ 0xb2 ≤ op ∧ op ≤ 0xbe ∨ op = 0xc4 → isUnconditional op = false := by
    decide +kernel
  exact hall op hop h

theorem opAt_lt (code : Code) (pc : Nat) : opAt code pc < 256 := by
  unfold opAt
  cases h : byteAt code pc with
  | none => decide
  | some b => exact byteAt_lt h

theorem conditions_lt {k : Nat} {rel : Rel} (h : conditions[k]? = some rel) : k < 6 :=
  (List.getElem?_eq_some_iff.mp h).1

theorem Effect.next (h : Effect code f q stack locals) : Next code f.pc q := by
  have hlt := opAt_lt code f.pc
  have hfalls : ∀ {insn}, decode code f.pc = some insn →
      opAt code f.pc < 0xa7 ∨ 0xb2 ≤ opAt code f.pc ∧ opAt code f.pc ≤ 0xbe ∨ opAt code f.pc = 0xc4 →
      Next code f.pc (f.pc+insn.length) := fun hdec hop =>
    ⟨_,hdec,.inl ⟨falls_of_conditional hdec (not_isUnconditional hlt hop),rfl⟩⟩
  have heff : effective code f.pc ≤ 0x84 → opAt code f.pc < 0xa7 ∨ opAt code f.pc = 0xc4 := by
    unfold effective
    split
    · exact fun _ => .inr ‹_›
    · omega
  cases h with
  | push hdec hpush =>
    simp only [isPush,within,and_eq_true,decide_eq_true_eq] at hpush
    exact hfalls hdec (by omega)
  | arraylength hdec hop => exact hfalls hdec (by omega)
  | getstatic hdec hop => exact hfalls hdec (by omega)
  | getfield hdec hop => exact hfalls hdec (by omega)
  | arith hdec _ hop => exact hfalls hdec (by omega)
  | store hdec hop =>
    simp only [isStore,within,and_eq_true,decide_eq_true_eq] at hop
    exact hfalls hdec (by omega)
  | iinc hdec hop => exact hfalls hdec (by omega)
  | test hdec hlo hrel _ hq =>
    have hk := conditions_lt hrel
    rcases hq with ⟨-,hq⟩ | ⟨-,rfl⟩
    · exact ⟨_,hdec,.inr hq⟩
    · exact hfalls hdec (by omega)
  | compare hdec hlo hrel _ hq =>
    have hk := conditions_lt hrel
    rcases hq with ⟨-,hq⟩ | ⟨-,rfl⟩
    · exact ⟨_,hdec,.inr hq⟩
    · exact hfalls hdec (by omega)
  | any _ hnext => exact hnext

end CratonVM.Jit.Bce
namespace CratonVM.Jit.Bce
open RangeAnalysis

def rangeMaxCodeLen : Nat := 8192
def rangeMaxLocals : Nat := 64
def rangeMaxFacts : Nat := 64
def rangeWidenAfter : Nat := 3

structure RangeState where
  locals : List Range
  ltLen : List (Nat × Nat)
  deriving DecidableEq, Repr

namespace RangeState
def top (nLocals : Nat) : RangeState := ⟨List.replicate nLocals (.top .w32),[]⟩

/-- Ranges join, pairs intersect; the flag says whether anything changed. -/
def merge (self other : RangeState) (widen : Bool) : RangeState × Bool :=
  let locals := self.locals.mapIdx fun i r =>
    let joined := r.join (other.locals.getD i (.top .w32))
    if widen then r.widen joined else joined
  let ltLen := self.ltLen.filter fun f => other.ltLen.contains f
  (⟨locals,ltLen⟩,decide (locals ≠ self.locals) || decide (ltLen.length ≠ self.ltLen.length))

/-- The order of the sorted pairs. -/
def pairLe (a b : Nat × Nat) : Prop := a.1 < b.1 ∨ a.1 = b.1 ∧ a.2 ≤ b.2

instance (a b : Nat × Nat) : Decidable (pairLe a b) := inferInstanceAs (Decidable (_ ∨ _))

def addLtLen (st : RangeState) (indexLocal arrayLocal : Nat) : RangeState :=
  if indexLocal ≥ rangeMaxLocals ∨ arrayLocal ≥ rangeMaxLocals ∨ st.ltLen.length ≥ rangeMaxFacts then st
  else if st.ltLen.contains (indexLocal,arrayLocal) then st
  else { st with ltLen := st.ltLen.orderedInsert pairLe (indexLocal,arrayLocal) }

/-- The slot as the pairs hold it. -/
def slotKey (slot : Nat) : Nat := min slot 65535

def kill (st : RangeState) (slot : Nat) : RangeState where
  locals := st.locals.set slot (.top .w32)
  ltLen := st.ltLen.filter fun (i,a) => i ≠ slotKey slot && a ≠ slotKey slot

def killIndexFacts (st : RangeState) (slot : Nat) : RangeState :=
  { st with ltLen := st.ltLen.filter fun (i,_) => i ≠ slotKey slot }

def provesLtLen (st : RangeState) (indexLocal arrayLocal : Nat) : Bool :=
  if indexLocal ≥ rangeMaxLocals ∨ arrayLocal ≥ rangeMaxLocals then false
  else st.ltLen.contains (indexLocal,arrayLocal)

def setLocal (st : RangeState) (slot : Nat) (r : Range) : RangeState :=
  { st with locals := st.locals.set slot r }

end RangeState

inductive Operand where
  | slot (l : Nat)
  | len (a : Nat)
  | const (c : Int)
  deriving DecidableEq, Repr

def negateRel : Rel → Rel
  | .eq => .ne
  | .ne => .eq
  | .lt => .ge
  | .ge => .lt
  | .gt => .le
  | .le => .gt

/-- The relation with its sides exchanged. -/
def swapRel : Rel → Rel
  | .eq => .eq
  | .ne => .ne
  | .lt => .gt
  | .gt => .lt
  | .le => .ge
  | .ge => .le

/-- The constants are small: the endpoints do not overflow. -/
def narrowBy (r : Range) (rel : Rel) (c : Int) : Range :=
  match rel with
  | .eq => r.meet (.constant .w32 c)
  | .ne => r
  | .lt => r.meet (.exact .w32 IntWidth.w32.min (c-1))
  | .le => r.meet (.exact .w32 IntWidth.w32.min c)
  | .gt => r.meet (.exact .w32 (c+1) IntWidth.w32.max)
  | .ge => r.meet (.exact .w32 c IntWidth.w32.max)

def narrowLocal (st : RangeState) (l : Nat) (rel : Rel) (c : Int) : RangeState :=
  match st.locals[l]? with
  | some r => st.setLocal l (narrowBy r rel c)
  | none => st

def applyRel (st : RangeState) (lhs rhs : Operand) (rel : Rel) : RangeState :=
  match lhs,rhs,rel with
  | .slot l,.const c,_ => narrowLocal st l rel c
  | .const c,.slot l,_ => narrowLocal st l (swapRel rel) c
  | .slot l,.len a,.lt => st.addLtLen l a
  | .len a,.slot l,.gt => st.addLtLen l a
  | _,_,_ => st

/-- The pair of an index below the length of an array. -/
def Below (f : Frame) (i a : Nat) : Prop :=
  ∃ (v n : JInt) (r : Nat), f.locals i = .int v ∧ f.locals a = .ref (some r) ∧
    f.heap r = some (.array n) ∧ (v : Int) < n

structure Describes (st : RangeState) (f : Frame) : Prop where
  ranges : ∀ (i : Nat) (r : Range) (v : JInt), st.locals[i]? = some r → f.locals i = .int v → r.Has v
  pairs : ∀ p ∈ st.ltLen, Below f p.1 p.2
  small : ∀ p ∈ st.ltLen, p.1 < rangeMaxLocals ∧ p.2 < rangeMaxLocals

/-- A state that says no more than another. -/
def Weaker (st st' : RangeState) : Prop := ∀ f, Describes st f → Describes st' f

variable {st other : RangeState} {f : Frame}

theorem describes_top (n : Nat) (f : Frame) : Describes (.top n) f where
  ranges := by
    intro i r v hr _
    rw [RangeState.top,List.getElem?_replicate] at hr
    split at hr
    · cases hr
      exact Range.has_top v.property
    · cases hr
  pairs := by
    intro p hp
    cases hp
  small := by
    intro p hp
    cases hp

theorem merge_weaker (st other : RangeState) (widen : Bool) :
    Weaker st (st.merge other widen).1 ∧ Weaker other (st.merge other widen).1 ∧
      ((st.merge other widen).2 = false → (st.merge other widen).1 = st) := by
  -- the merged range of a local has what either range has
  have hrange : ∀ (i : Nat) (r : Range) (v : JInt), (st.merge other widen).1.locals[i]? = some r →
      ∃ r', st.locals[i]? = some r' ∧
        ((r'.Has v ∨ (other.locals.getD i (.top .w32)).Has v) → r.Has v) := by
    intro i r v hr
    simp only [RangeState.merge,List.getElem?_mapIdx] at hr
    obtain ⟨r',hr',rfl⟩ := Option.map_eq_some_iff.mp hr
    refine ⟨r',hr',fun h => ?_⟩
    have hjoin := Range.has_join v.property h
    split
    · exact Range.has_widen v.property hjoin
    · exact hjoin
  have hleft : ∀ p ∈ (st.merge other widen).1.ltLen, p ∈ st.ltLen := fun p hp => (List.mem_filter.mp hp).1
  have hright : ∀ p ∈ (st.merge other widen).1.ltLen, p ∈ other.ltLen :=
    fun p hp => List.contains_iff_mem.mp (List.mem_filter.mp hp).2
  refine ⟨fun f hd => ⟨fun i r v hr hl => ?_,fun p hp => hd.pairs p (hleft p hp),
    fun p hp => hd.small p (hleft p hp)⟩,fun f hd => ⟨fun i r v hr hl => ?_,
    fun p hp => hd.pairs p (hright p hp),fun p hp => hd.small p (hright p hp)⟩,fun h => ?_⟩
  · obtain ⟨r',hr',hhas⟩ := hrange i r v hr
    exact hhas (.inl (hd.ranges i r' v hr' hl))
  · obtain ⟨r',-,hhas⟩ := hrange i r v hr
    refine hhas (.inr ?_)
    rw [List.getD_eq_getElem?_getD]
    cases ho : other.locals[i]? with
    | none => exact Range.has_top v.property
    | some o => exact hd.ranges i o v ho hl
  simp only [RangeState.merge,Bool.or_eq_false_iff,decide_eq_false_iff_not,ne_eq,not_not] at h
  obtain ⟨hlocals,hlen⟩ := h
  have hpairs := List.filter_sublist.eq_of_length hlen
  simp only [RangeState.merge,hlocals,hpairs]

variable {f' : Frame}

theorem Below.keeps {f : Frame} {i a : Nat} (h : Below f i a) (hi : f'.locals i = f.locals i)
    (ha : f'.locals a = f.locals a) (hheap : Extends f.heap f'.heap) : Below f' i a := by
  obtain ⟨v,n,r,h1,h2,h3,h4⟩ := h
  exact ⟨v,n,r,hi.trans h1,ha.trans h2,hheap r _ h3,h4⟩

theorem Describes.grows (h : Describes st f) (hlocals : f'.locals = f.locals)
    (hheap : Extends f.heap f'.heap) : Describes st f' where
  ranges := fun i r v hr hl => h.ranges i r v hr (by rw [← hlocals]; exact hl)
  pairs := fun p hp => (h.pairs p hp).keeps (by rw [hlocals]) (by rw [hlocals]) hheap
  small := h.small

variable {slot : Nat}

theorem describes_kill (h : Describes st f)
    (hkeeps : ∀ l, l ≠ slot → f'.locals l = f.locals l) (hheap : Extends f.heap f'.heap) :
    Describes (st.kill slot) f' where
  ranges := by
    intro i r v hr hl
    rw [RangeState.kill,List.getElem?_set] at hr
    split at hr
    · split at hr
      · cases hr
        exact Range.has_top v.property
      · cases hr
    rename_i hne
    exact h.ranges i r v hr (by rw [← hkeeps i (Ne.symm hne)]; exact hl)
  pairs := by
    rintro ⟨i,a⟩ hp
    obtain ⟨hmem,hp⟩ := List.mem_filter.mp hp
    obtain ⟨h1,h2⟩ := h.small _ hmem
    obtain ⟨hi,ha⟩ := Bool.and_eq_true_iff.mp hp
    have hi := of_decide_eq_true hi
    have ha := of_decide_eq_true ha
    simp only [RangeState.slotKey,rangeMaxLocals] at hi ha h1 h2
    exact (h.pairs _ hmem).keeps (hkeeps i (by omega)) (hkeeps a (by omega)) hheap
  small := fun p hp => h.small p (List.mem_filter.mp hp).1

variable {r : Range}

theorem describes_setLocal (h : Describes st f)
    (hr : ∀ v : JInt, f.locals slot = .int v → r.Has v) : Describes (st.setLocal slot r) f where
  ranges := by
    intro i r' v hr' hl
    rw [RangeState.setLocal,List.getElem?_set] at hr'
    split at hr'
    · rename_i heq
      subst heq
      split at hr'
      · cases hr'
        exact hr v hl
      · cases hr'
    · exact h.ranges i r' v hr' hl
  pairs := h.pairs
  small := h.small

theorem describes_advance {v v' : JInt} {s : Range} {d : Int}
    (h : Describes st f) (hd : Range.Holds .w32 d) (hr : st.locals[slot]? = some r)
    (hs : r.addNoWrap (.constant .w32 d) = some s) (hv : f.locals slot = .int v)
    (hv' : f'.locals slot = .int v') (hsum : (v' : Int) = Wrapping.wrap 32 (v+d))
    (hkeeps : ∀ l, l ≠ slot → f'.locals l = f.locals l) (hheap : Extends f.heap f'.heap) :
    Describes (if d > 0 then (st.setLocal slot s).killIndexFacts slot else st.setLocal slot s) f' := by
  obtain ⟨hhas,hfits⟩ := Range.has_addNoWrap hd hs (h.ranges slot r v hr hv)
  have hexact : (v' : Int) = v+d := by
    rw [hsum]
    refine Wrapping.wrap_of_fits (by decide) ?_
    simp only [Range.Holds,IntWidth.min,IntWidth.max] at hfits
    unfold Wrapping.Fits
    omega
  have hranges : ∀ (i : Nat) (r' : Range) (u : JInt), (st.setLocal slot s).locals[i]? = some r' →
      f'.locals i = .int u → r'.Has u := by
    intro i r' u hr' hl
    rw [RangeState.setLocal,List.getElem?_set] at hr'
    split at hr'
    · rename_i heq
      subst heq
      split at hr'
      · cases hr'
        rw [hv'] at hl
        cases hl
        rw [hexact]
        exact hhas
      · cases hr'
    rename_i hne
    exact h.ranges i r' u hr' (by rw [← hkeeps i (Ne.symm hne)]; exact hl)
  -- the local is an `int` and so not the array of a pair
  have harray : ∀ p ∈ st.ltLen, p.2 ≠ slot := by
    intro p hp heq
    obtain ⟨_,_,_,_,h2,_⟩ := h.pairs p hp
    rw [heq,hv] at h2
    cases h2
  split
  · refine ⟨hranges,fun p hp => ?_,fun p hp => h.small p (List.mem_filter.mp hp).1⟩
    obtain ⟨hmem,hp⟩ := List.mem_filter.mp hp
    have hsmall := (h.small _ hmem).1
    have hi := of_decide_eq_true hp
    simp only [RangeState.slotKey,rangeMaxLocals] at hi hsmall
    exact (h.pairs _ hmem).keeps (hkeeps p.1 (by omega)) (hkeeps p.2 (harray _ hmem)) hheap
  refine ⟨hranges,fun p hp => ?_,h.small⟩
  by_cases hi : p.1 = slot
  · obtain ⟨u,n,a,h1,h2,h3,h4⟩ := h.pairs p hp
    rw [hi,hv] at h1
    cases h1
    refine ⟨v',n,a,by rw [hi]; exact hv',?_,hheap a _ h3,by omega⟩
    rw [hkeeps _ (harray p hp)]
    exact h2
  · exact (h.pairs p hp).keeps (hkeeps _ hi) (hkeeps _ (harray p hp)) hheap

def Operand.Denotes (f : Frame) (v : JInt) : Operand → Prop
  | .slot l => f.locals l = .int v
  | .len a => ∃ r, f.locals a = .ref (some r) ∧ f.heap r = some (.array v)
  | .const c => (v : Int) = c

variable {rel : Rel}

theorem negateRel_holds {a b : Int} : (negateRel rel).Holds a b ↔ ¬ rel.Holds a b := by
  cases rel <;> simp only [negateRel,Rel.Holds] <;> omega

theorem swapRel_holds {a b : Int} : (swapRel rel).Holds b a ↔ rel.Holds a b := by
  cases rel <;> simp only [swapRel,Rel.Holds] <;> omega

theorem has_narrowBy {c : Int} {v : JInt} (h : r.Has v) (hrel : rel.Holds v c) :
    (narrowBy r rel c).Has v := by
  have hv := v.property
  have hexact : ∀ {lo hi : Int}, lo ≤ v → v ≤ hi → (r.meet (.exact .w32 lo hi)).Has v :=
    fun h1 h2 => Range.has_meet hv h ((Range.has_exact hv).mpr ⟨h1,h2⟩)
  cases rel with
  | eq => exact hexact (Int.le_of_eq hrel.symm) (Int.le_of_eq hrel)
  | ne => exact h
  | lt => exact hexact hv.1 (Int.le_sub_one_of_lt hrel)
  | le => exact hexact hv.1 hrel
  | gt => exact hexact hrel hv.2
  | ge => exact hexact hrel hv.2

theorem describes_narrowLocal {l : Nat} {c : Int} {v : JInt} (h : Describes st f)
    (hv : f.locals l = .int v) (hrel : rel.Holds v c) : Describes (narrowLocal st l rel c) f := by
  unfold narrowLocal
  split
  · rename_i r hr
    refine describes_setLocal h fun u hu => ?_
    rw [hv] at hu
    cases hu
    exact has_narrowBy (h.ranges l r v hr hv) hrel
  · exact h

theorem describes_addLtLen {i a : Nat} (h : Describes st f) (hbelow : Below f i a) :
    Describes (st.addLtLen i a) f := by
  unfold RangeState.addLtLen
  split
  · exact h
  split
  · exact h
  refine ⟨h.ranges,fun p hp => ?_,fun p hp => ?_⟩
  · rcases (List.mem_orderedInsert _).mp hp with rfl | hp
    · exact hbelow
    · exact h.pairs p hp
  rcases (List.mem_orderedInsert _).mp hp with rfl | hp
  · exact ⟨by omega,by omega⟩
  · exact h.small p hp

theorem describes_applyRel {lhs rhs : Operand} {x y : JInt} (h : Describes st f)
    (hx : lhs.Denotes f x) (hy : rhs.Denotes f y) (hrel : rel.Holds x y) :
    Describes (applyRel st lhs rhs rel) f := by
  unfold applyRel
  split
  · rw [hy] at hrel
    exact describes_narrowLocal h hx hrel
  · rw [hx] at hrel
    exact describes_narrowLocal h hy (swapRel_holds.mpr hrel)
  · obtain ⟨r,h1,h2⟩ := hy
    exact describes_addLtLen h ⟨x,y,r,hx,h1,h2,hrel⟩
  · obtain ⟨r,h1,h2⟩ := hx
    exact describes_addLtLen h ⟨y,x,r,hy,h1,h2,hrel⟩
  · exact h

end CratonVM.Jit.Bce
