import CratonVM.Jit.LocalHomes.LivenessProofs

/-!
The gate for frames that are rebuilt from the incoming arguments alone (`handler_has_unsafe_local_read` in
`jit/src/regalloc.rs`, `local_handler_reads_unsafe_local` in `jit/src/lib.rs`): a method passes it if none of its
handlers can read a local that such a frame does not have.
-/
namespace CratonVM.Jit.LocalHomes
open Bytecode List Option Bool Function Prod BitVec

def writtenStep (code : Code) (mask : Mask) (pc : Nat) : Mask :=
  match localAccess code pc with
  | some access => if access.isDef = true ∧ access.idx < 64 then mask ||| bit access.idx else mask
  | none => mask

/-- The slots that some instruction stores to. -/
def localsWrittenAnywhere (code : Code) (codeLen : Nat) : Mask :=
  (pcsIn code 0 (min codeLen code.length)).foldl (writtenStep code) 0

/-- The read of a slot is not covered. -/
def unsafeSlot (safe : Mask) (slot : Nat) : Bool := slot ≥ 64 || !safe.getLsbD slot

def withSlot (safe : Mask) (slot : Nat) : Mask := if slot < 64 then safe ||| bit slot else safe

/-- Whether an instruction reads a slot that is not safe, and the slots that are safe behind it. -/
def scanLocal (code : Code) (pc : Nat) (safe : Mask) : Bool × Mask :=
  let op := opAt code pc
  if within 0x15 0x19 op then
    match byteAt code (pc+1) with
    | some slot => (unsafeSlot safe slot,safe)
    | none => (true,safe)
  else if within 0x1a 0x1d op then (unsafeSlot safe (op-0x1a),safe)
  else if within 0x1e 0x21 op then (unsafeSlot safe (op-0x1e),safe)
  else if within 0x22 0x29 op then (unsafeSlot safe ((op-0x22)%4),safe)
  else if within 0x2a 0x2d op then (unsafeSlot safe (op-0x2a),safe)
  else if within 0x36 0x3a op then
    match byteAt code (pc+1) with
    | some slot => (false,withSlot safe slot)
    | none => (false,safe)
  else if within 0x3b 0x3e op then (false,withSlot safe (op-0x3b))
  else if within 0x3f 0x42 op then (false,withSlot safe (op-0x3f))
  else if within 0x43 0x4a op then (false,withSlot safe ((op-0x43)%4))
  else if within 0x4b 0x4e op then (false,withSlot safe (op-0x4b))
  else if op = 0xc4 then
    match byteAt code (pc+1),readU16 code (pc+2) with
    | some real,some slot =>
      if within 0x15 0x19 real || real = 0xa9 then (unsafeSlot safe slot,safe)
      else if within 0x36 0x3a real then (false,withSlot safe slot)
      else if real = 0x84 then (unsafeSlot safe slot,withSlot safe slot)
      else (true,safe)
    | _,_ => (true,safe)
  else if op = 0xa9 then
    match byteAt code (pc+1) with
    | some slot => (unsafeSlot safe slot,safe)
    | none => (true,safe)
  else if op = 0x84 then
    match byteAt code (pc+1) with
    | some slot => (unsafeSlot safe slot,withSlot safe slot)
    | none => (true,safe)
  else (false,safe)

/-- Where control goes; an instruction without a fall-through edge has its targets only. -/
def scanSuccessors (code : Code) (codeLen pc : Nat) : List Nat :=
  let op := opAt code pc
  if isUnconditional op then
    if op = 0xaa || op = 0xab then switchTargetsLenient code codeLen pc else (offsetBranchTarget code pc).toList
  else (offsetBranchTarget code pc).toList++[pc+step code pc]

/-- The safe slots found so far at each point, and the points to look at again. -/
structure Scan where
  safeAt : Nat → Option Mask
  work : List Nat

def mergeSuccessor (codeLen : Nat) (incoming : Mask) (s : Scan) (target : Nat) : Scan :=
  if target ≥ codeLen then s
  else
    match s.safeAt target with
    | none => ⟨Function.update s.safeAt target (some incoming),s.work++[target]⟩
    | some existing =>
      if existing &&& incoming ≠ existing then
        ⟨Function.update s.safeAt target (some (existing &&& incoming)),s.work++[target]⟩
      else s

def maxScanSteps : Nat := 2000000

/-- The worklist loop; too many steps count as unsafe. -/
def scanLoop (code : Code) (codeLen : Nat) : Nat → Scan → Bool
  | steps,s =>
    match steps,s.work with
    | _,[] => false
    | 0,_ :: _ => true
    | steps+1,pc :: work =>
      if pc ≥ codeLen then scanLoop code codeLen steps ⟨s.safeAt,work⟩
      else
        let safe := (s.safeAt pc).getD 0
        if pc+step code pc > codeLen+1 then true
        else if (scanLocal code pc safe).1 then true
        else scanLoop code codeLen steps
          ((scanSuccessors code codeLen pc).foldl (mergeSuccessor codeLen (scanLocal code pc safe).2) ⟨s.safeAt,work⟩)

/-- A parameter the method writes anywhere is not safe on entry to a handler. -/
def handlerHasUnsafeLocalRead (code : Code) (codeLen entryPc : Nat) (initialSafeSlots : Mask) : Bool :=
  if entryPc ≥ codeLen then false
  else scanLoop code codeLen maxScanSteps
    ⟨Function.update (fun _ => none) entryPc (some (initialSafeSlots &&& ~~~localsWrittenAnywhere code codeLen)),[entryPc]⟩

/-- What `DescriptorParamIter` steps over from a tag on. -/
def afterParam : List Char → List Char
  | 'L' :: rest => (rest.dropWhile (· ≠ ';')).drop 1
  | '[' :: rest =>
    match rest.dropWhile (· = '[') with
    | 'L' :: rest => (rest.dropWhile (· ≠ ';')).drop 1
    | rest => rest.drop 1
  | rest => rest.drop 1

def paramTagWidth (tag : Char) : Nat :=
  if tag = 'J' ∨ tag = 'D' then 2 else if tag ∈ ['I','F','B','C','S','Z','L','['] then 1 else 0

/-- The slots of the parameters; the turns are bounded by the characters. -/
def paramSlotsFrom : Nat → List Char → Nat
  | 0,_ => 0
  | _,[] => 0
  | turns+1,tag :: rest => if tag = ')' then 0 else paramTagWidth tag+paramSlotsFrom turns (afterParam (tag :: rest))

def countParamSlotsJvmSpec (descriptor : List Char) : Nat :=
  match descriptor with
  | '(' :: rest => paramSlotsFrom rest.length rest
  | _ => 0

def paramSlotCount (descriptor : List Char) (isStatic : Bool) : Nat :=
  countParamSlotsJvmSpec descriptor%2^16+if isStatic then 0 else 1

def localHandlerReadsUnsafeLocal (code : Code) (codeLen : Nat) (exceptionTable : List HandlerRange) (descriptor : List Char)
    (isStatic : Bool) : Bool :=
  exceptionTable.any fun entry =>
    handlerHasUnsafeLocalRead code codeLen entry.handlerPc (validMask (paramSlotCount descriptor isStatic))

inductive Subroutine where
  | neither
  | jsr
  | ret
  deriving DecidableEq, Repr

/-- The instructions with those for subroutines: `jsr` jumps and leaves the address behind it on the stack, `ret`
jumps to the address it reads. -/
def decodeAny (code : Code) (pc : Nat) : Option (Jvms.Insn × Subroutine) :=
  if byteAt code pc = some 0xa8 then (readI16 code (pc+1)).map fun off => (⟨3,[(pc : Int)+off],false,none,none⟩,.jsr)
  else if byteAt code pc = some 0xc9 then (readI32 code (pc+1)).map fun off => (⟨5,[(pc : Int)+off],false,none,none⟩,.jsr)
  else if byteAt code pc = some 0xa9 then (byteAt code (pc+1)).map fun slot => (⟨2,[],false,some slot,none⟩,.ret)
  else if byteAt code pc = some 0xc4 ∧ byteAt code (pc+1) = some 0xa9 then
    (readU16 code (pc+2)).map fun slot => (⟨4,[],false,some slot,none⟩,.ret)
  else (Jvms.decode code pc).map (·,.neither)

/-- Instructions begin where the one before them ends. -/
inductive Begins (code : Code) : Nat → Prop where
  | zero : Begins code 0
  | next {pc : Nat} {insn : Jvms.Insn} {sub : Subroutine} : Begins code pc → decodeAny code pc = some (insn,sub) →
    Begins code (pc+insn.length)

/-- What verification establishes about a method, subroutines included. -/
structure VerifiedAny (code : Code) (codeLen : Nat) (handlers : List HandlerRange) : Prop where
  short : codeLen < 65536
  within_code : codeLen ≤ code.length
  decodes : ∀ {pc}, Begins code pc → pc < codeLen → ∃ insn sub, decodeAny code pc = some (insn,sub) ∧
    pc+insn.length ≤ codeLen ∧ (insn.falls = true → pc+insn.length < codeLen) ∧
    ∀ t ∈ insn.targets, ∃ q, t = (q : Nat) ∧ Begins code q ∧ q < codeLen
  nonempty : 0 < codeLen
  handler : ∀ h ∈ handlers, Begins code h.handlerPc ∧ h.handlerPc < codeLen

/-- What comes of an instruction: control goes on with a value for the local it stores to, or leaves for a handler
before the instruction has an effect, or ends. -/
inductive Outcome (ρ V : Type) where
  | goes (q : Nat) (rest : ρ) (value : V)
  | throws (q : Nat) (rest : ρ)
  | stops

/-- The results of all operations, as a function of the pc, of what is not kept in locals (`ρ`: operand stack and
heap) and of the local that is read. Some values take two slots, and some are return addresses. -/
structure World (ρ V : Type) where
  exec : Nat → ρ → Option V → Outcome ρ V
  isPair : V → Bool
  returnsTo : V → Option Nat
  holds : ρ → Nat → Prop

/-- A local without a value is `none`: one that is not assigned yet, or half of a pair. -/
structure Frame (ρ V : Type) where
  pc : Nat
  locals : Nat → Option V
  rest : ρ

section
variable {ρ V : Type}

def Frame.read (code : Code) (f : Frame ρ V) : Option (Nat × Option V) :=
  (decodeAny code f.pc).bind fun d => d.1.reads.map fun i => (i,f.locals i)

/-- The locals behind a store: the slot behind a pair and a pair that is cut in two lose their values. -/
def World.write (w : World ρ V) (code : Code) (f : Frame ρ V) (value : V) : Nat → Option V :=
  match (decodeAny code f.pc).bind fun d => d.1.writes with
  | some i => fun j =>
    if j = i then some value
    else if storesPair code f.pc = true ∧ j = i+1 then none
    else if j+1 = i ∧ (f.locals j).any w.isPair = true then none
    else f.locals j
  | none => f.locals

def World.outcome (w : World ρ V) (code : Code) (f : Frame ρ V) : Outcome ρ V :=
  w.exec f.pc f.rest ((f.read code).bind Prod.snd)

def World.next (w : World ρ V) (code : Code) (f : Frame ρ V) : Option (Frame ρ V) :=
  match w.outcome code f with
  | .goes q rest value => some ⟨q,w.write code f value,rest⟩
  | .throws q rest => some ⟨q,f.locals,rest⟩
  | .stops => none

def World.run (w : World ρ V) (code : Code) : Nat → Frame ρ V → Option (Frame ρ V)
  | 0,f => some f
  | n+1,f => (w.run code n f).bind (w.next code)

/-- The pcs of the next steps, each with the local it reads and its value. -/
def World.trace (w : World ρ V) (code : Code) : Nat → Frame ρ V → List (Nat × Option (Nat × Option V))
  | 0,_ => []
  | n+1,f => (f.pc,f.read code) :: ((w.next code f).map (w.trace code n)).getD []

/-- Control follows the instructions and the exception table, `ret` goes where its local says, and a return address
comes from a `jsr` only. -/
structure World.Legal (w : World ρ V) (code : Code) (codeLen : Nat) (handlers : List HandlerRange) : Prop where
  goes : ∀ pc rest v q rest' x insn sub, decodeAny code pc = some (insn,sub) → w.exec pc rest v = .goes q rest' x →
    insn.falls = true ∧ q = pc+insn.length ∨ (q : Int) ∈ insn.targets ∨
      sub = .ret ∧ q < codeLen ∧ ∃ y, v = some y ∧ w.returnsTo y = some q
  throws : ∀ pc rest v q rest', w.exec pc rest v = .throws q rest' → Leaves handlers pc q ∧ ∀ a, ¬w.holds rest' a
  addresses : ∀ pc rest v q rest' x insn sub, decodeAny code pc = some (insn,sub) → w.exec pc rest v = .goes q rest' x →
    ∀ a, w.holds rest' a ∨ w.returnsTo x = some a →
      w.holds rest a ∨ (∃ y, v = some y ∧ w.returnsTo y = some a) ∨ sub = .jsr ∧ a = pc+insn.length

/-- A call of the method: no argument is a return address, and as for all verified code a local that is read has a
value. -/
structure World.Call (w : World ρ V) (code : Code) (entry : Frame ρ V) : Prop where
  start : entry.pc = 0
  plain : ∀ i y, entry.locals i = some y → w.returnsTo y = none
  empty : ∀ a, ¬w.holds entry.rest a
  assigned : ∀ n f i v, w.run code n entry = some f → f.read code = some (i,v) → v ≠ none

end

section
variable {code : Code} {codeLen pc : Nat} {insn : Jvms.Insn} {sub : Subroutine} {safe : Mask}

theorem decodeAny_cases (h : decodeAny code pc = some (insn,sub)) :
    (byteAt code pc = some 0xa8 ∧ ∃ off, readI16 code (pc+1) = some off ∧ insn = ⟨3,[(pc : Int)+off],false,none,none⟩ ∧ sub = .jsr) ∨
    (byteAt code pc = some 0xc9 ∧ ∃ off, readI32 code (pc+1) = some off ∧ insn = ⟨5,[(pc : Int)+off],false,none,none⟩ ∧ sub = .jsr) ∨
    (byteAt code pc = some 0xa9 ∧ ∃ slot, byteAt code (pc+1) = some slot ∧ insn = ⟨2,[],false,some slot,none⟩ ∧ sub = .ret) ∨
    (byteAt code pc = some 0xc4 ∧ byteAt code (pc+1) = some 0xa9 ∧ ∃ slot, readU16 code (pc+2) = some slot ∧
      insn = ⟨4,[],false,some slot,none⟩ ∧ sub = .ret) ∨
    Jvms.decode code pc = some insn ∧ sub = .neither := by
  unfold decodeAny at h
  split at h
  · rename_i hop
    obtain ⟨off,hoff,heq⟩ := map_eq_some_iff.mp h
    obtain ⟨rfl,rfl⟩ := mk.inj heq
    exact .inl ⟨hop,off,hoff,rfl,rfl⟩
  split at h
  · rename_i hop
    obtain ⟨off,hoff,heq⟩ := map_eq_some_iff.mp h
    obtain ⟨rfl,rfl⟩ := mk.inj heq
    exact .inr (.inl ⟨hop,off,hoff,rfl,rfl⟩)
  split at h
  · rename_i hop
    obtain ⟨slot,hslot,heq⟩ := map_eq_some_iff.mp h
    obtain ⟨rfl,rfl⟩ := mk.inj heq
    exact .inr (.inr (.inl ⟨hop,slot,hslot,rfl,rfl⟩))
  split at h
  · rename_i hop
    obtain ⟨slot,hslot,heq⟩ := map_eq_some_iff.mp h
    obtain ⟨rfl,rfl⟩ := mk.inj heq
    exact .inr (.inr (.inr (.inl ⟨hop.1,hop.2,slot,hslot,rfl,rfl⟩)))
  obtain ⟨insn',hdec,heq⟩ := map_eq_some_iff.mp h
  obtain ⟨rfl,rfl⟩ := mk.inj heq
  exact .inr (.inr (.inr (.inr ⟨hdec,rfl⟩)))

variable {op : Nat}

theorem opAt_eq (h : byteAt code pc = some op) : opAt code pc = op := by
  rw [opAt,h]
  rfl

theorem step_decodeAny (h : decodeAny code pc = some (insn,sub)) (hfit : pc+insn.length < 65536) :
    step code pc = insn.length := by
  rcases decodeAny_cases h with ⟨hop,_,-,rfl,-⟩|⟨hop,_,-,rfl,-⟩|⟨hop,_,-,rfl,-⟩|⟨hop,hop',_,-,rfl,-⟩|⟨hdec,-⟩
  · simp [step,insnLen,hop,fixedLen,within]
  · simp [step,insnLen,hop,fixedLen,within]
  · simp [step,insnLen,hop,fixedLen,within]
  · simp [step,insnLen,hop,hop']
  · exact step_eq hdec hfit

/-- The scan of an instruction by the locals it reads and stores. -/
def scanned (safe : Mask) (reads writes : Option Nat) : Bool × Mask :=
  ((reads.map (unsafeSlot safe)).getD false,(writes.map (withSlot safe)).getD safe)

theorem within_iff {lo hi : Nat} : within lo hi op = true ↔ lo ≤ op ∧ op ≤ hi := by
  simp [within]

theorem scanLocal_plain (hat : opAt code pc = op) (hwide : op ≠ 0xc4) (hret : op ≠ 0xa9)
    (hoperand : within 0x15 0x19 op = true ∨ within 0x36 0x3a op = true ∨ op = 0x84 → ∃ slot, byteAt code (pc+1) = some slot) :
    scanLocal code pc safe = scanned safe (Jvms.loads code pc op) (Jvms.stores code pc op) := by
  simp only [within_iff] at hoperand
  unfold scanLocal scanned Jvms.loads Jvms.stores
  simp only [hat,within_iff,or_eq_true,decide_eq_true_eq]
  have hclass : (0x15 ≤ op ∧ op ≤ 0x19) ∨ (0x36 ≤ op ∧ op ≤ 0x3a) ∨ op = 0x84 ∨ (0x1a ≤ op ∧ op ≤ 0x1d) ∨
      (0x1e ≤ op ∧ op ≤ 0x21) ∨ (0x22 ≤ op ∧ op ≤ 0x29) ∨ (0x2a ≤ op ∧ op ≤ 0x2d) ∨ (0x3b ≤ op ∧ op ≤ 0x3e) ∨
      (0x3f ≤ op ∧ op ≤ 0x42) ∨ (0x43 ≤ op ∧ op ≤ 0x4a) ∨ (0x4b ≤ op ∧ op ≤ 0x4e) ∨
      (op < 0x15 ∨ 0x2d < op ∧ op < 0x36 ∨ 0x4e < op ∧ op ≠ 0x84) := by omega
  rcases hclass with h|h|h|h|h|h|h|h|h|h|h|h
  · obtain ⟨slot,hslot⟩ := hoperand (.inl h)
    simp (disch := omega) [hslot,if_pos,if_neg,map_some,map_none,getD_some,getD_none]
  · obtain ⟨slot,hslot⟩ := hoperand (.inr (.inl h))
    simp (disch := omega) [hslot,if_pos,if_neg,map_some,map_none,getD_some,getD_none]
  · obtain ⟨slot,hslot⟩ := hoperand (.inr (.inr h))
    simp (disch := omega) only [hslot,if_pos,if_neg,map_some,getD_some]
  · rw [show (op-0x1a)%4 = op-0x1a by omega]
    simp (disch := omega) [if_pos,if_neg,map_some,map_none,getD_some,getD_none]
  · rw [show (op-0x1a)%4 = op-0x1e by omega]
    simp (disch := omega) [if_pos,if_neg,map_some,map_none,getD_some,getD_none]
  · rw [show (op-0x1a)%4 = (op-0x22)%4 by omega]
    simp (disch := omega) only [if_pos,if_neg,map_some,map_none,getD_some,getD_none]
  · rw [show (op-0x1a)%4 = op-0x2a by omega]
    simp (disch := omega) [if_pos,if_neg,map_some,map_none,getD_some,getD_none]
  · rw [show (op-0x3b)%4 = op-0x3b by omega]
    simp (disch := omega) only [if_pos,if_neg,map_some,map_none,getD_some,getD_none]
  · rw [show (op-0x3b)%4 = op-0x3f by omega]
    simp (disch := omega) only [if_pos,if_neg,map_some,map_none,getD_some,getD_none]
  · rw [show (op-0x3b)%4 = (op-0x43)%4 by omega]
    simp (disch := omega) only [if_pos,if_neg,map_some,map_none,getD_some,getD_none]
  · rw [show (op-0x3b)%4 = op-0x4b by omega]
    simp (disch := omega) only [if_pos,if_neg,map_some,map_none,getD_some,getD_none]
  · simp (disch := omega) only [if_neg,map_none,getD_none]

theorem byteAt_some {i : Nat} (h : i < code.length) : ∃ b, byteAt code i = some b := by
  rw [byteAt,List.getElem?_eq_getElem h]
  exact ⟨_,rfl⟩

theorem lengthOf_operand {len : Nat} (h : Jvms.lengthOf op = some len)
    (hop : within 0x15 0x19 op = true ∨ within 0x36 0x3a op = true ∨ op = 0x84) : 2 ≤ len := by
  have hall : ∀ op < 256, (within 0x15 0x19 op = true ∨ within 0x36 0x3a op = true ∨ op = 0x84) →
      ∀ len ∈ Jvms.lengthOf op, 2 ≤ len := by decide +kernel
  refine hall op ?_ hop len h
  simp only [within_iff] at hop
  omega

theorem scanLocal_eq (h : decodeAny code pc = some (insn,sub)) (hfit : pc+insn.length ≤ code.length) :
    scanLocal code pc safe = scanned safe insn.reads insn.writes := by
  rcases decodeAny_cases h with ⟨hop,_,-,rfl,-⟩|⟨hop,_,-,rfl,-⟩|⟨hop,_,hslot,rfl,-⟩|⟨hop,hop',_,hslot,rfl,-⟩|⟨hdec,-⟩
  · simp [scanLocal,opAt_eq hop,within,scanned]
  · simp [scanLocal,opAt_eq hop,within,scanned]
  · simp [scanLocal,opAt_eq hop,within,scanned,hslot]
  · simp [scanLocal,opAt_eq hop,within,scanned,hop',hslot]
  obtain ⟨op,hop,hat,hlt,hcases⟩ := decode_cases hdec
  rcases hcases with ⟨rfl,hw⟩|⟨rfl,hw⟩|⟨rfl,hw⟩|⟨⟨h1,h2,h3⟩,hp⟩
  · obtain ⟨real,idx,hop',hidx,hreal⟩ := wide_eq_some hw
    rcases hreal with ⟨hreal,rfl⟩|⟨hreal,rfl⟩|⟨rfl,rfl⟩
    · simp [scanLocal,hat,scanned,hop',hidx,hreal,within_iff]
    · have hl := within_iff.mp hreal
      have hload : ¬(21 ≤ real ∧ real ≤ 25) := by omega
      have hret : real ≠ 0xa9 := by omega
      simp [scanLocal,hat,scanned,hop',hidx,hl,hload,hret,within_iff]
    · simp [scanLocal,hat,within,scanned,hop',hidx]
  · obtain ⟨_,_,_,_,_,_,_,_,_,rfl⟩ := tableswitch_eq_some hw
    exact scanLocal_plain hat (by decide) (by decide) fun hop => absurd hop (by decide)
  · obtain ⟨_,_,_,_,_,_,_,rfl⟩ := lookupswitch_eq_some hw
    exact scanLocal_plain hat (by decide) (by decide) fun hop => absurd hop (by decide)
  obtain ⟨len,targets,hlen,_,rfl⟩ := plain_eq_some hp
  have hret : op ≠ 0xa9 := by
    rintro rfl
    cases hlen
  exact scanLocal_plain hat h1 hret fun hoperand =>
    byteAt_some (Nat.lt_of_lt_of_le (by have := lengthOf_operand hlen hoperand; dsimp only; omega) hfit)

theorem not_switch_of_offsetBranchTarget {q : Nat} (h : offsetBranchTarget code pc = some q) :
    (opAt code pc = 0xaa || opAt code pc = 0xab) = false := by
  obtain ⟨off,hoff,-⟩ := bind_eq_some_iff.mp h
  obtain ⟨op,hop,hoff⟩ := bind_eq_some_iff.mp hoff
  rw [opAt_eq hop]
  by_contra hsw
  have hor : op = 0xaa ∨ op = 0xab := by simpa [or_iff_not_imp_left] using hsw
  rcases hor with rfl|rfl
  · simp [within] at hoff
  · simp [within] at hoff

/-- Where an instruction falls through or jumps to is a successor for the scan; a `jsr` has the instruction behind it
as one, too. -/
theorem mem_scanSuccessors (h : decodeAny code pc = some (insn,sub)) (hcode : codeLen ≤ code.length) (hshort : codeLen < 65536)
    (hfit : pc+insn.length ≤ codeLen) {q : Nat} (hlt : q < codeLen)
    (hq : (insn.falls = true ∨ sub = .jsr) ∧ q = pc+insn.length ∨ (q : Int) ∈ insn.targets) :
    q ∈ scanSuccessors code codeLen pc := by
  have hstep := step_decodeAny h (by omega)
  rcases decodeAny_cases h with ⟨hop,off,hoff,rfl,rfl⟩|⟨hop,off,hoff,rfl,rfl⟩|⟨hop,_,-,rfl,rfl⟩|⟨hop,_,_,-,rfl,rfl⟩|⟨hdec,rfl⟩
  · have hun : isUnconditional 0xa8 = false := by decide
    rw [scanSuccessors,opAt_eq hop,hun,hstep]
    rcases hq with ⟨-,rfl⟩|hq
    · simp
    have htarget : offsetBranchTarget code pc = some q := by
      rw [offsetBranchTarget,branchOffset,hop]
      simp only [bind_eq_bind,bind_some]
      rw [if_pos (by decide),hoff]
      exact addSigned_eq (mem_singleton.mp hq).symm
    simp [htarget]
  · have hun : isUnconditional 0xc9 = false := by decide
    rw [scanSuccessors,opAt_eq hop,hun,hstep]
    rcases hq with ⟨-,rfl⟩|hq
    · simp
    have htarget : offsetBranchTarget code pc = some q := by
      rw [offsetBranchTarget,branchOffset,hop]
      simp only [bind_eq_bind,bind_some]
      rw [if_neg (by decide),if_pos (by decide),hoff]
      exact addSigned_eq (mem_singleton.mp hq).symm
    simp [htarget]
  · rcases hq with ⟨hf|hf,-⟩|hq <;> cases ‹_›
  · rcases hq with ⟨hf|hf,-⟩|hq <;> cases ‹_›
  have hun := isUnconditional_eq hdec
  rw [scanSuccessors,hun,hstep]
  rcases hq with ⟨hf|hf,rfl⟩|hq
  · simp [hf]
  · cases hf
  rcases target_found hcode hshort hfit hdec hq hlt with ht|⟨hop,ht⟩
  · rw [not_switch_of_offsetBranchTarget ht]
    cases insn.falls <;> simp [ht]
  have hfalls : insn.falls = false := by
    have hun : isUnconditional (opAt code pc) = true := by rcases hop with h|h <;> rw [h] <;> decide
    simpa [hun] using (isUnconditional_eq hdec).symm
  rcases hop with h|h <;> simpa [hfalls,h] using ht

end

section
variable {code : Code} {codeLen : Nat}

/-- The slots of the first mask are slots of the second. -/
def Inside (m m' : Mask) : Prop := ∀ i, m.getLsbD i = true → m'.getLsbD i = true

theorem Inside.refl (m : Mask) : Inside m m := fun _ h => h

theorem Inside.trans {a b c : Mask} (h : Inside a b) (h' : Inside b c) : Inside a c := fun i hi => h' i (h i hi)

/-- The scan has nothing left to do at a point. -/
def Settled (code : Code) (codeLen : Nat) (table : Nat → Option Mask) (pc : Nat) (safe : Mask) : Prop :=
  (scanLocal code pc safe).1 = false ∧ ∀ t ∈ scanSuccessors code codeLen pc, t < codeLen →
    ∃ m, table t = some m ∧ Inside m (scanLocal code pc safe).2

/-- What merging does: masks shrink, and a point with a new mask is queued. -/
structure Merges (s s' : Scan) : Prop where
  shrinks : ∀ {pc m}, s.safeAt pc = some m → ∃ m', s'.safeAt pc = some m' ∧ Inside m' m
  queued : ∀ {pc m}, s'.safeAt pc = some m → s.safeAt pc = some m ∨ pc ∈ s'.work
  keeps : ∀ {pc}, pc ∈ s.work → pc ∈ s'.work

theorem Merges.refl (s : Scan) : Merges s s where
  shrinks h := ⟨_,h,.refl _⟩
  queued := .inl
  keeps h := h

theorem Merges.trans {a b c : Scan} (h : Merges a b) (h' : Merges b c) : Merges a c where
  shrinks hm := by
    obtain ⟨m',hm',hin⟩ := h.shrinks hm
    obtain ⟨m'',hm'',hin'⟩ := h'.shrinks hm'
    exact ⟨m'',hm'',hin'.trans hin⟩
  queued hm := by
    rcases h'.queued hm with hm|hm
    · exact (h.queued hm).imp_right h'.keeps
    · exact .inr hm
  keeps hm := h'.keeps (h.keeps hm)

theorem merges_update {s : Scan} {target : Nat} {m : Mask} (h : ∀ m', s.safeAt target = some m' → Inside m m') :
    Merges s ⟨update s.safeAt target (some m),s.work++[target]⟩ where
  shrinks {pc m'} hm := by
    by_cases heq : pc = target
    · subst heq
      exact ⟨m,update_self ..,h _ hm⟩
    · exact ⟨m',by rw [← hm]; exact update_of_ne heq ..,.refl _⟩
  queued {pc m'} hm := by
    by_cases heq : pc = target
    · subst heq
      exact .inr (mem_append_right _ (mem_singleton.mpr rfl))
    dsimp only at hm
    rw [update_of_ne heq] at hm
    exact .inl hm
  keeps hm := mem_append_left _ hm

theorem mergeSuccessor_spec (codeLen : Nat) (incoming : Mask) (s : Scan) (target : Nat) :
    Merges s (mergeSuccessor codeLen incoming s target) ∧
      (target < codeLen → ∃ m, (mergeSuccessor codeLen incoming s target).safeAt target = some m ∧ Inside m incoming) := by
  unfold mergeSuccessor
  split
  · exact ⟨.refl s,fun h => by omega⟩
  split
  · rename_i hnone
    refine ⟨merges_update fun m' hm => ?_,fun _ => ⟨incoming,update_self ..,.refl _⟩⟩
    rw [hnone] at hm
    cases hm
  rename_i existing hsome
  split
  · refine ⟨merges_update fun m' hm i hi => ?_,fun _ => ⟨_,update_self ..,fun i hi => ?_⟩⟩
    · rw [hsome] at hm
      obtain rfl := some.inj hm
      rw [getLsbD_and,and_eq_true] at hi
      exact hi.1
    rw [getLsbD_and,and_eq_true] at hi
    exact hi.2
  rename_i hsame
  refine ⟨.refl s,fun _ => ⟨existing,hsome,fun i hi => ?_⟩⟩
  rw [← not_not.mp hsame,getLsbD_and,and_eq_true] at hi
  exact hi.2

theorem mergeSuccessors_spec (codeLen : Nat) (incoming : Mask) (targets : List Nat) (s : Scan) :
    Merges s (targets.foldl (mergeSuccessor codeLen incoming) s) ∧
      ∀ t ∈ targets, t < codeLen →
        ∃ m, (targets.foldl (mergeSuccessor codeLen incoming) s).safeAt t = some m ∧ Inside m incoming := by
  induction targets generalizing s with
  | nil => exact ⟨.refl s,nofun⟩
  | cons target targets ih => ?_
  obtain ⟨hhead,hfound⟩ := mergeSuccessor_spec codeLen incoming s target
  obtain ⟨htail,hrest⟩ := ih (mergeSuccessor codeLen incoming s target)
  refine ⟨hhead.trans htail,fun t ht hlt => ?_⟩
  rcases mem_cons.mp ht with rfl|ht
  · obtain ⟨m,hm,hin⟩ := hfound hlt
    obtain ⟨m',hm',hin'⟩ := htail.shrinks hm
    exact ⟨m',hm',hin'.trans hin⟩
  · exact hrest t ht hlt

/-- Every point found so far is queued or settled. -/
def Scan.Inv (code : Code) (codeLen : Nat) (s : Scan) : Prop :=
  ∀ pc m, pc < codeLen → s.safeAt pc = some m → pc ∈ s.work ∨ Settled code codeLen s.safeAt pc m

theorem Settled.merges {s s' : Scan} (h : Merges s s') {pc : Nat} {m : Mask} (hs : Settled code codeLen s.safeAt pc m) :
    Settled code codeLen s'.safeAt pc m := by
  refine ⟨hs.1,fun t ht hlt => ?_⟩
  obtain ⟨m',hm',hin⟩ := hs.2 t ht hlt
  obtain ⟨m'',hm'',hin'⟩ := h.shrinks hm'
  exact ⟨m'',hm'',hin'.trans hin⟩

theorem Scan.Inv.visit {table : Nat → Option Mask} {pc : Nat} {work : List Nat} (h : Scan.Inv code codeLen ⟨table,pc :: work⟩)
    (hsafe : (scanLocal code pc ((table pc).getD 0)).1 = false) :
    Scan.Inv code codeLen ((scanSuccessors code codeLen pc).foldl
      (mergeSuccessor codeLen (scanLocal code pc ((table pc).getD 0)).2) ⟨table,work⟩) := by
  obtain ⟨hmerges,hfound⟩ :=
    mergeSuccessors_spec codeLen (scanLocal code pc ((table pc).getD 0)).2 (scanSuccessors code codeLen pc) ⟨table,work⟩
  intro q m hlt hm
  rcases hmerges.queued hm with hold|hq
  · rcases h q m hlt hold with hwork|hsettled
    · rcases mem_cons.mp hwork with rfl|hwork
      · dsimp only at hold
        rw [hold,getD_some] at hfound hsafe ⊢
        exact .inr ⟨hsafe,hfound⟩
      · exact .inl (hmerges.keeps hwork)
    · exact .inr (Settled.merges hmerges hsettled)
  · exact .inl hq

/-- A table that needs no more visits. -/
def Closed (code : Code) (codeLen : Nat) (table : Nat → Option Mask) : Prop :=
  ∀ pc m, pc < codeLen → table pc = some m → Settled code codeLen table pc m

theorem scanLoop_closed (steps : Nat) (s : Scan) (hinv : s.Inv code codeLen) (h : scanLoop code codeLen steps s = false) :
    ∃ table, Closed code codeLen table ∧ ∀ pc m, s.safeAt pc = some m → ∃ m', table pc = some m' ∧ Inside m' m := by
  induction steps generalizing s with
  | zero =>
    obtain ⟨table,work⟩ := s
    cases work with
    | nil => exact ⟨table,fun pc m hlt hm => (hinv pc m hlt hm).resolve_left nofun,fun _ m hm => ⟨m,hm,.refl m⟩⟩
    | cons pc work =>
      cases h
  | succ steps ih => ?_
  obtain ⟨table,work⟩ := s
  cases work with
  | nil => exact ⟨table,fun pc m hlt hm => (hinv pc m hlt hm).resolve_left nofun,fun _ m hm => ⟨m,hm,.refl m⟩⟩
  | cons pc work => ?_
  unfold scanLoop at h
  dsimp only at h
  split at h
  · refine ih ⟨table,work⟩ (fun q m hlt hm => ?_) h
    refine (hinv q m hlt hm).imp_left fun hmem => ?_
    rcases mem_cons.mp hmem with rfl|hmem
    · omega
    · exact hmem
  split at h
  · cases h
  split at h
  · cases h
  rename_i hsafe
  obtain ⟨table',hclosed,hbelow⟩ := ih _ (hinv.visit (eq_false_iff.mpr hsafe)) h
  refine ⟨table',hclosed,fun q m hm => ?_⟩
  obtain ⟨m',hm',hin⟩ := (mergeSuccessors_spec codeLen _ (scanSuccessors code codeLen pc) ⟨table,work⟩).1.shrinks hm
  obtain ⟨m'',hm'',hin'⟩ := hbelow q m' hm'
  exact ⟨m'',hm'',hin'.trans hin⟩

theorem handler_closed {entryPc : Nat} {initial : Mask} (hlt : entryPc < codeLen)
    (h : handlerHasUnsafeLocalRead code codeLen entryPc initial = false) :
    ∃ table, Closed code codeLen table ∧
      ∃ m, table entryPc = some m ∧ Inside m (initial &&& ~~~localsWrittenAnywhere code codeLen) := by
  unfold handlerHasUnsafeLocalRead at h
  rw [if_neg (by omega)] at h
  obtain ⟨table,hclosed,hbelow⟩ := scanLoop_closed maxScanSteps _ (by
    intro pc m _ hm
    by_cases heq : pc = entryPc
    · exact .inl (mem_singleton.mpr heq)
    dsimp only at hm
    rw [update_of_ne heq] at hm
    cases hm) h
  refine ⟨table,hclosed,hbelow entryPc _ ?_⟩
  dsimp only
  exact update_self ..

end
end CratonVM.Jit.LocalHomes
