import CratonVM.Lib.BitRows
import CratonVM.Lib.KeyedLists
import CratonVM.Reader.LinearWalk

/-!
The decoded and validated bytecode of `reader/src/verified_code.rs`, and the cache in front of it.
A method body has at most 65535 bytes, so the 32-bit positions never wrap. The hash of a code array
is a parameter: it only picks the shard and the bucket.
-/
namespace CratonVM.Reader
open Instruction Outcome BinarySearch SortDedup List

def cacheShards : Nat := 16
def maxEntriesPerShard : Nat := 256
def maxCodeBytesPerShard : Nat := 4*1024*1024

structure VerifiedInstruction where
  pc : Nat
  nextPc : Nat
  instruction : Instruction
  deriving DecidableEq, Repr

structure VerifiedCode where
  code : List UInt8
  instructions : List VerifiedInstruction
  mergeTargets : List Nat
  loopHeaders : List Nat
  deriving DecidableEq, Repr

/-- A bitmap of offsets, inline for code up to 2048 bytes. -/
structure StartBits where
  inline : BitRows.Row
  heap : BitRows.Row

namespace StartBits
def new (codeLen : Nat) : StartBits :=
  let words := codeLen/64+1
  { inline := BitRows.empty 32
    heap := if words > 32 then BitRows.empty words else [] }

def words (s : StartBits) : BitRows.Row := if s.heap.isEmpty then s.inline else s.heap

def insert (s : StartBits) (pc : Nat) : StartBits :=
  if s.heap.isEmpty then { s with inline := BitRows.set s.inline pc }
  else { s with heap := BitRows.set s.heap pc }

def contains (s : StartBits) (pc : Nat) : Bool := BitRows.get s.words pc

end StartBits
namespace Instruction
/-- The branch offsets of an instruction in operand order, the default of a switch first. -/
def branchOffsets : Instruction → List Int
  | .ifeq off | .ifne off | .iflt off | .ifge off | .ifgt off | .ifle off
  | .ifIcmpeq off | .ifIcmpne off | .ifIcmplt off | .ifIcmpge off | .ifIcmpgt off | .ifIcmple off
  | .ifAcmpeq off | .ifAcmpne off | .ifnull off | .ifnonnull off
  | .goto off | .jsr off => [off]
  | .gotoW off | .jsrW off => [off]
  | .tableswitch t => t.default :: t.offsets
  | .lookupswitch l => l.default :: l.pairs.map Prod.snd
  | _ => []

/-- Does control fall out of the instruction into the next one? -/
def fallsThrough : Instruction → Bool
  | .goto _ | .gotoW _ | .tableswitch _ | .lookupswitch _ | .ireturn | .lreturn | .freturn
  | .dreturn | .areturn | .return_ | .athrow | .ret _ => false
  | _ => true

def isConditional : Instruction → Bool
  | .ifeq _ | .ifne _ | .iflt _ | .ifge _ | .ifgt _ | .ifle _
  | .ifIcmpeq _ | .ifIcmpne _ | .ifIcmplt _ | .ifIcmpge _ | .ifIcmpgt _ | .ifIcmple _
  | .ifAcmpeq _ | .ifAcmpne _ | .ifnull _ | .ifnonnull _ => true
  | _ => false

end Instruction

def checkedTarget (source : Nat) (offset : Int) (codeLen : Nat) : Except ClassReaderError Nat :=
  let target : Int := source+offset
  if target < -2^63 ∨ target ≥ 2^63 then
    .error (.invalidClassData s!"branch target at offset {source} overflowed")
  else if target < 0 ∨ target ≥ codeLen then
    .error (.invalidClassData
      s!"branch at offset {source} has out of range target {target} for code length {codeLen}")
  else .ok target.toNat

def visitInstructionTargets {σ : Type} (insn : Instruction) (pc codeLen : Nat) (f : σ → Nat → σ)
    (s : σ) : Except ClassReaderError σ :=
  insn.branchOffsets.foldlM (fun s offset => f s <$> checkedTarget pc offset codeLen) s

def instructionTargets (insn : Instruction) (pc codeLen : Nat) :
    Except ClassReaderError (List Nat) :=
  visitInstructionTargets insn pc codeLen (fun out target => out ++ [target]) []

def decodeLoop (code : List UInt8) : (fuel pc : Nat) → StartBits → List VerifiedInstruction →
    Except ClassReaderError (StartBits × List VerifiedInstruction)
  | 0, _, starts, instructions => .ok (starts,instructions)
  | fuel+1, pc, starts, instructions =>
    if pc < code.length then do
      let (instruction,nextPc) ← decode code pc
      if nextPc ≤ pc ∨ nextPc > code.length then
        .error (.invalidClassData
          s!"instruction at offset {pc} advanced to invalid offset {nextPc}")
      else
        decodeLoop code fuel nextPc (starts.insert pc) (instructions ++ [⟨pc,nextPc,instruction⟩])
    else .ok (starts,instructions)

structure TargetSets where
  mergeTargets : List Nat
  loopHeaders : List Nat
  deriving DecidableEq, Repr

/-- What the visit of one instruction's targets changes. -/
structure Visit extends TargetSets where
  badTarget : Option Nat
  deriving DecidableEq, Repr

def visitTarget (isStart : Nat → Bool) (collectTargets : Bool) (source : Nat) (v : Visit)
    (target : Nat) : Visit :=
  if v.badTarget.isSome then v
  else if !isStart target then { v with badTarget := some target }
  else if collectTargets then
    { v with
      mergeTargets := v.mergeTargets ++ [target]
      loopHeaders := if target ≤ source then v.loopHeaders ++ [target] else v.loopHeaders }
  else v

def scanTargets (isStart : Nat → Bool) (collectTargets : Bool) (codeLen : Nat) (sets : TargetSets)
    (decoded : VerifiedInstruction) : Except ClassReaderError TargetSets := do
  let source := decoded.pc
  let v ← visitInstructionTargets decoded.instruction source codeLen
    (visitTarget isStart collectTargets source) ⟨sets,none⟩
  match v.badTarget with
  | some target =>
    .error (.invalidClassData
      s!"branch at offset {source} targets {target}, which is not an instruction boundary")
  | none =>
    if collectTargets && decoded.instruction.isConditional && decide (decoded.nextPc < codeLen) then
      .ok { v.toTargetSets with mergeTargets := v.mergeTargets ++ [decoded.nextPc] }
    else .ok v.toTargetSets

def decodeParts (code : List UInt8) (collectTargets : Bool) :
    Except ClassReaderError (List VerifiedInstruction × List Nat × List Nat) := do
  if code.length > 65535 then
    .error (.invalidClassData s!"method bytecode length {code.length} exceeds 65535")
  else
    let (starts,instructions) ← decodeLoop code code.length 0 (.new code.length) []
    let sets ← instructions.foldlM (scanTargets starts.contains collectTargets code.length) ⟨[],[]⟩
    .ok (instructions,sortDedup sets.mergeTargets,sortDedup sets.loopHeaders)

def decodeInstructions (code : List UInt8) : Except ClassReaderError (List VerifiedInstruction) := do
  let (instructions,_,_) ← decodeParts code false
  .ok instructions

namespace VerifiedCode
def decode (code : List UInt8) : Except ClassReaderError VerifiedCode := do
  let (instructions,mergeTargets,loopHeaders) ← decodeParts code true
  .ok { code, instructions, mergeTargets, loopHeaders }

def instructionAt (v : VerifiedCode) (pc : Nat) : Option VerifiedInstruction :=
  match binarySearch (v.instructions.map VerifiedInstruction.pc) (pc%2^32) with
  | some index => v.instructions[index]?
  | none => none

def isInstructionStart (v : VerifiedCode) (pc : Nat) : Bool := (v.instructionAt pc).isSome

/-- The branch and switch targets and the fall-through of the instruction at `pc`. -/
def successors (v : VerifiedCode) (pc : Nat) : List Nat :=
  match v.instructionAt pc with
  | none => []
  | some decoded =>
    let out := match instructionTargets decoded.instruction pc v.code.length with
      | .ok out => out
      | .error _ => []
    if decoded.instruction.fallsThrough && decide (decoded.nextPc < v.code.length) then
      out ++ [decoded.nextPc]
    else out

end VerifiedCode

/-- A shard: the buckets by hash, and how much is in them. -/
structure CacheShard where
  byHash : UInt64 → List VerifiedCode := fun _ => []
  entries : Nat := 0
  codeBytes : Nat := 0

abbrev Cache := Fin cacheShards → CacheShard

def shardIndex (hash : UInt64) : Fin cacheShards :=
  ⟨(hash >>> 59).toNat%cacheShards,Nat.mod_lt _ (by decide)⟩

namespace CacheShard
/-- The entry of a code array. The bucket compares whole arrays. -/
def find (shard : CacheShard) (hash : UInt64) (code : List UInt8) : Option VerifiedCode :=
  (shard.byHash hash).find? fun entry => entry.code = code

/-- The second locked section: another thread's entry is taken, else the new one goes in, after the
shard was cleared when it is full. -/
def publish (shard : CacheShard) (hash : UInt64) (code : List UInt8) (decoded : VerifiedCode) :
    VerifiedCode × CacheShard :=
  match shard.find hash code with
  | some found => (found,shard)
  | none =>
    let shard :=
      if shard.entries ≥ maxEntriesPerShard ∨ shard.codeBytes+code.length > maxCodeBytesPerShard then
        { byHash := fun _ => [], entries := 0, codeBytes := 0 }
      else shard
    (decoded,
      { byHash := Function.update shard.byHash hash (shard.byHash hash ++ [decoded])
        entries := shard.entries+1
        codeBytes := shard.codeBytes+code.length })

end CacheShard

/-- Decode and publish, once the first lookup has missed. -/
def publishDecoded (hash : List UInt8 → UInt64) (cache : Cache) (code : List UInt8) :
    Except ClassReaderError VerifiedCode × Cache :=
  match VerifiedCode.decode code with
  | .error e => (.error e,cache)
  | .ok decoded =>
    let index := shardIndex (hash code)
    let (found,shard) := (cache index).publish (hash code) code decoded
    (.ok found,Function.update cache index shard)

def verifiedCode (hash : List UInt8 → UInt64) (cache : Cache) (code : List UInt8) :
    Except ClassReaderError VerifiedCode × Cache :=
  match (cache (shardIndex (hash code))).find (hash code) code with
  | some found => (.ok found,cache)
  | none => publishDecoded hash cache code

/-- The locked sections of a call: the first lookup, and what follows when it misses. -/
inductive Section where
  | look (code : List UInt8)
  | publish (code : List UInt8)

def Section.code : Section → List UInt8
  | .look code | .publish code => code

/-- One locked section of some thread, and the result with which it ends the call, if it does. -/
def Section.run (hash : List UInt8 → UInt64) (cache : Cache) :
    Section → Option (Except ClassReaderError VerifiedCode) × Cache
  | .look code => (((cache (shardIndex (hash code))).find (hash code) code).map .ok,cache)
  | .publish code =>
    (some (publishDecoded hash cache code).1,(publishDecoded hash cache code).2)

/-- The locked sections of any number of threads, in the order the locks are taken. -/
def runSections (hash : List UInt8 → UInt64) : Cache → List Section →
    List (Section × Option (Except ClassReaderError VerifiedCode))
  | _, [] => []
  | cache, s :: rest => (s,(s.run hash cache).1) :: runSections hash (s.run hash cache).2 rest

/-- The results of a sequence of calls. -/
def callAll (hash : List UInt8 → UInt64) : Cache → List (List UInt8) →
    List (Except ClassReaderError VerifiedCode)
  | _, [] => []
  | cache, code :: calls =>
    (verifiedCode hash cache code).1 :: callAll hash (verifiedCode hash cache code).2 calls

namespace StartBits
theorem words_insert (s : StartBits) (pc : Nat) : (s.insert pc).words = BitRows.set s.words pc := by
  rw [insert]
  by_cases h : s.heap.isEmpty
  · simp [h,words]
  have hset : (BitRows.set s.heap pc).isEmpty = false := by
    simpa [BitRows.set] using h
  simp [h,words,hset]

theorem words_new (codeLen : Nat) :
    ∃ n, (StartBits.new codeLen).words = BitRows.empty n ∧ codeLen/64 < n := by
  by_cases h : codeLen/64+1 > 32
  · refine ⟨codeLen/64+1,?_,Nat.lt_succ_self _⟩
    simp [new,words,h,BitRows.empty]
  refine ⟨32,?_,by omega⟩
  simp [new,words,h]

end StartBits

def Tiles (code : List UInt8) : Nat → List VerifiedInstruction → Prop
  | pc, [] => pc = code.length
  | pc, d :: l =>
    d.pc = pc ∧ Instruction.decode code pc = .ok (d.instruction,d.nextPc) ∧ pc < d.nextPc ∧
      Tiles code d.nextPc l

namespace Tiles
variable {code : List UInt8} {pc : Nat} {l : List VerifiedInstruction}

section
variable (h : Tiles code pc l)
include h

theorem le : pc ≤ code.length := by
  induction l generalizing pc with
  | nil => exact Nat.le_of_eq h
  | cons d l ih =>
    obtain ⟨-,-,hlt,hrest⟩ := h
    have := ih hrest
    omega

theorem bounds {d : VerifiedInstruction} (hd : d ∈ l) :
    pc ≤ d.pc ∧ d.pc < d.nextPc ∧ d.nextPc ≤ code.length := by
  induction l generalizing pc with
  | nil => cases hd
  | cons e l ih => ?_
  obtain ⟨rfl,-,hlt,hrest⟩ := h
  rcases mem_cons.mp hd with rfl | hd
  · exact ⟨le_rfl,hlt,hrest.le⟩
  obtain ⟨h1,h2⟩ := ih hrest hd
  exact ⟨by omega,h2⟩

/-- Where the next instruction starts, unless there is none. -/
theorem head : pc = code.length ∨ ∃ e ∈ l, e.pc = pc := by
  cases l with
  | nil => exact .inl h
  | cons e l => exact .inr ⟨e,mem_cons_self,h.1⟩

theorem follow {d : VerifiedInstruction} (hd : d ∈ l) :
    d.nextPc = code.length ∨ ∃ e ∈ l, e.pc = d.nextPc := by
  induction l generalizing pc with
  | nil => cases hd
  | cons e l ih => ?_
  obtain ⟨-,-,-,hrest⟩ := h
  have hnext : d.nextPc = code.length ∨ ∃ e ∈ l, e.pc = d.nextPc := by
    rcases mem_cons.mp hd with rfl | hd
    · exact hrest.head
    · exact ih hrest hd
  exact hnext.imp_right fun ⟨x,hx,hpc⟩ => ⟨x,mem_cons_of_mem e hx,hpc⟩

theorem ascending :
    (l.map VerifiedInstruction.pc).Pairwise (· < ·) := by
  induction l generalizing pc with
  | nil => exact .nil
  | cons e l ih =>
    obtain ⟨rfl,-,hlt,hrest⟩ := h
    refine pairwise_cons.mpr ⟨fun p hp => ?_,ih hrest⟩
    obtain ⟨d,hd,rfl⟩ := mem_map.mp hp
    exact Nat.lt_of_lt_of_le hlt (hrest.bounds hd).1

end
end Tiles

theorem decodeLoop_ok {code : List UInt8} {fuel pc : Nat} {starts starts' : StartBits}
    {acc instructions : List VerifiedInstruction} (hpc : pc ≤ code.length)
    (hfuel : code.length ≤ pc+fuel)
    (h : decodeLoop code fuel pc starts acc = .ok (starts',instructions)) :
    ∃ l, instructions = acc ++ l ∧ Tiles code pc l ∧
      starts'.words = (l.map VerifiedInstruction.pc).foldl BitRows.set starts.words := by
  induction fuel generalizing pc starts acc with
  | zero =>
    cases h
    exact ⟨[],by simp,Nat.le_antisymm hpc (by omega),rfl⟩
  | succ fuel ih => ?_
  rw [decodeLoop] at h
  split at h
  · obtain ⟨⟨instruction,nextPc⟩,hdecode,h⟩ := bind_eq_ok.mp h
    dsimp only at h
    split at h
    · cases h
    obtain ⟨l,rfl,htiles,hwords⟩ := ih (by omega) (by omega) h
    refine ⟨⟨pc,nextPc,instruction⟩ :: l,by simp,⟨rfl,hdecode,by dsimp only; omega,htiles⟩,?_⟩
    rw [hwords,StartBits.words_insert]
    rfl
  cases h
  exact ⟨[],by simp,Nat.le_antisymm hpc (by omega),rfl⟩

theorem contains_decodeLoop {code : List UInt8} {starts : StartBits}
    {instructions : List VerifiedInstruction}
    (h : decodeLoop code code.length 0 (.new code.length) [] = .ok (starts,instructions)) :
    Tiles code 0 instructions ∧
      ∀ pc, starts.contains pc = true ↔ ∃ d ∈ instructions, d.pc = pc := by
  obtain ⟨l,rfl,htiles,hwords⟩ := decodeLoop_ok (Nat.zero_le _) (by omega) h
  refine ⟨htiles,fun pc => ?_⟩
  obtain ⟨n,hnew,hn⟩ := StartBits.words_new code.length
  rw [StartBits.contains,hwords,hnew,BitRows.get_foldl_set]
  simp only [BitRows.get_empty,BitRows.length_empty,Bool.false_or,Bool.and_eq_true,
    decide_eq_true_eq,mem_map]
  refine ⟨fun hpc => hpc.1,fun ⟨d,hd,hpc⟩ => ⟨⟨d,hd,hpc⟩,?_⟩⟩
  have := htiles.bounds hd
  omega

theorem checkedTarget_ok {source codeLen t : Nat} {offset : Int}
    (h : checkedTarget source offset codeLen = .ok t) :
    (t : Int) = source+offset ∧ t < codeLen := by
  rw [checkedTarget] at h
  split at h
  · cases h
  split at h
  · cases h
  cases h
  omega

theorem visitInstructionTargets_eq {σ : Type} (insn : Instruction) (pc codeLen : Nat)
    (f : σ → Nat → σ) (s : σ) :
    visitInstructionTargets insn pc codeLen f s =
      (fun ts => ts.foldl f s) <$>
        insn.branchOffsets.mapM fun offset => checkedTarget pc offset codeLen := by
  rw [visitInstructionTargets]
  generalize insn.branchOffsets = offsets
  induction offsets generalizing s with
  | nil => rfl
  | cons offset offsets ih =>
    simp only [foldlM_cons,mapM_cons,map_eq_pure_bind,bind_assoc,pure_bind] at ih ⊢
    refine bind_congr fun t => ?_
    rw [ih]
    rfl

theorem mem_checkedTargets {pc codeLen : Nat} {offsets : List Int} {ts : List Nat}
    (h : (offsets.mapM fun offset => checkedTarget pc offset codeLen) = .ok ts) (t : Nat) :
    t ∈ ts ↔ ∃ offset ∈ offsets, (t : Int) = pc+offset := by
  induction offsets generalizing ts with
  | nil =>
    cases h
    simp
  | cons offset offsets ih => ?_
  rw [mapM_cons] at h
  obtain ⟨u,hu,h⟩ := bind_eq_ok.mp h
  obtain ⟨us,hus,h⟩ := bind_eq_ok.mp h
  cases h
  obtain ⟨hval,-⟩ := checkedTarget_ok hu
  rw [mem_cons,ih hus,exists_mem_cons_iff,← hval,Int.natCast_inj]

theorem checkedTargets_total {pc codeLen : Nat} {offsets : List Int} {ts : List Nat}
    (h : (offsets.mapM fun offset => checkedTarget pc offset codeLen) = .ok ts) {offset : Int}
    (hoffset : offset ∈ offsets) : ∃ t ∈ ts, (t : Int) = pc+offset ∧ t < codeLen := by
  induction offsets generalizing ts with
  | nil => cases hoffset
  | cons first offsets ih => ?_
  rw [mapM_cons] at h
  obtain ⟨u,hu,h⟩ := bind_eq_ok.mp h
  obtain ⟨us,hus,h⟩ := bind_eq_ok.mp h
  cases h
  rcases mem_cons.mp hoffset with rfl | hoffset
  · exact ⟨u,mem_cons_self,checkedTarget_ok hu⟩
  obtain ⟨t,ht,hval⟩ := ih hus hoffset
  exact ⟨t,mem_cons_of_mem u ht,hval⟩

theorem badTarget_foldl (isStart : Nat → Bool) (collectTargets : Bool) (source : Nat)
    (ts : List Nat) (v : Visit) :
    (ts.foldl (visitTarget isStart collectTargets source) v).badTarget =
      v.badTarget.or (ts.find? fun t => !isStart t) := by
  induction ts generalizing v with
  | nil => simp
  | cons t ts ih => ?_
  rw [foldl_cons,ih,find?_cons]
  cases hbad : v.badTarget with
  | some b => simp [visitTarget,hbad]
  | none => ?_
  cases hstart : isStart t with
  | false => simp [visitTarget,hbad,hstart]
  | true =>
    simp only [visitTarget,hbad,hstart]
    cases collectTargets <;> simp [hbad]

theorem sets_foldl {isStart : Nat → Bool} {source : Nat} {ts : List Nat} {v : Visit}
    (hv : v.badTarget = none) (hts : ∀ t ∈ ts, isStart t = true) :
    (ts.foldl (visitTarget isStart true source) v).toTargetSets =
      ⟨v.mergeTargets ++ ts,v.loopHeaders ++ ts.filter (· ≤ source)⟩ := by
  induction ts generalizing v with
  | nil => simp
  | cons t ts ih => ?_
  have hstart := hts t mem_cons_self
  have hstep : visitTarget isStart true source v t =
      { v with
        mergeTargets := v.mergeTargets ++ [t]
        loopHeaders := if t ≤ source then v.loopHeaders ++ [t] else v.loopHeaders } := by
    simp [visitTarget,hv,hstart]
  rw [foldl_cons,hstep]
  refine (ih (by exact hv) fun u hu => hts u (mem_cons_of_mem t hu)).trans ?_
  by_cases hle : t ≤ source <;> simp [hle]

def VerifiedInstruction.Targets (d : VerifiedInstruction) (t : Nat) : Prop :=
  ∃ offset ∈ d.instruction.branchOffsets, (t : Int) = d.pc+offset

theorem scanTargets_ok {isStart : Nat → Bool} {codeLen : Nat} {sets sets' : TargetSets}
    {d : VerifiedInstruction} (h : scanTargets isStart true codeLen sets d = .ok sets') :
    (∀ offset ∈ d.instruction.branchOffsets, ∃ t, isStart t = true ∧ t < codeLen ∧
      (t : Int) = d.pc+offset) ∧
    (∀ t, t ∈ sets'.mergeTargets ↔ t ∈ sets.mergeTargets ∨ d.Targets t ∨
      d.instruction.isConditional = true ∧ t = d.nextPc ∧ t < codeLen) ∧
    ∀ t, t ∈ sets'.loopHeaders ↔ t ∈ sets.loopHeaders ∨ d.Targets t ∧ t ≤ d.pc := by
  obtain ⟨v,hv,h⟩ := bind_eq_ok.mp h
  rw [visitInstructionTargets_eq,map_eq_pure_bind] at hv
  obtain ⟨ts,hts,hv⟩ := bind_eq_ok.mp hv
  cases hv
  split at h
  · cases h
  rename_i hbad
  rw [badTarget_foldl] at hbad
  have hstarts : ∀ t ∈ ts, isStart t = true := by simpa using hbad
  have hmem : ∀ t, t ∈ ts ↔ d.Targets t := mem_checkedTargets hts
  refine ⟨fun offset hoffset => ?_,?_⟩
  · obtain ⟨t,ht,hval,hlt⟩ := checkedTargets_total hts hoffset
    exact ⟨t,hstarts t ht,hlt,hval⟩
  have hsets := @sets_foldl _ d.pc _ ⟨sets,none⟩ rfl hstarts
  have hmerge := congrArg TargetSets.mergeTargets hsets
  split at h
  · rename_i hcond
    simp only [Bool.true_and,Bool.and_eq_true,decide_eq_true_eq] at hcond
    cases h
    refine ⟨fun t => ?_,fun t => ?_⟩
    · rw [hmerge,mem_append,mem_append,hmem,mem_singleton,or_assoc]
      refine or_congr_right (or_congr_right ⟨fun ht => ⟨hcond.1,ht,ht ▸ hcond.2⟩,fun ht => ht.2.1⟩)
    rw [hsets]
    simp [hmem]
  rename_i hcond
  simp only [Bool.true_and,Bool.and_eq_true,decide_eq_true_eq] at hcond
  cases h
  rw [hsets]
  refine ⟨fun t => ?_,fun t => by simp [hmem]⟩
  rw [mem_append,hmem]
  refine or_congr_right ⟨.inl,fun ht => ht.resolve_right ?_⟩
  rintro ⟨hc,rfl,hlt⟩
  exact hcond ⟨hc,hlt⟩

theorem scanAll_ok {isStart : Nat → Bool} {codeLen : Nat} {l : List VerifiedInstruction}
    {sets sets' : TargetSets} (h : l.foldlM (scanTargets isStart true codeLen) sets = .ok sets') :
    (∀ d ∈ l, ∀ offset ∈ d.instruction.branchOffsets, ∃ t, isStart t = true ∧ t < codeLen ∧
      (t : Int) = d.pc+offset) ∧
    (∀ t, t ∈ sets'.mergeTargets ↔ t ∈ sets.mergeTargets ∨ ∃ d ∈ l, d.Targets t ∨
      d.instruction.isConditional = true ∧ t = d.nextPc ∧ t < codeLen) ∧
    ∀ t, t ∈ sets'.loopHeaders ↔ t ∈ sets.loopHeaders ∨ ∃ d ∈ l, d.Targets t ∧ t ≤ d.pc := by
  induction l generalizing sets with
  | nil =>
    cases h
    simp
  | cons d l ih => ?_
  obtain ⟨mid,hmid,h⟩ := bind_eq_ok.mp h
  obtain ⟨h1,h2,h3⟩ := scanTargets_ok hmid
  obtain ⟨i1,i2,i3⟩ := ih h
  refine ⟨?_,fun t => ?_,fun t => ?_⟩
  · intro e he
    rcases mem_cons.mp he with rfl | he
    · exact h1
    · exact i1 e he
  · rw [i2,h2,exists_mem_cons_iff,or_assoc]
  · rw [i3,h3,exists_mem_cons_iff,or_assoc]

namespace VerifiedCode
def IsStart (v : VerifiedCode) (pc : Nat) : Prop :=
  pc < v.code.length ∧ ∃ d ∈ v.instructions, d.pc = pc

/-- What holds of accepted code: the instructions tile it, every transfer stays on instruction
starts, and the two sets are what the transfers make them. -/
structure WellFormed (v : VerifiedCode) : Prop where
  tiles : Tiles v.code 0 v.instructions
  targets : ∀ d ∈ v.instructions, ∀ offset ∈ d.instruction.branchOffsets,
    ∃ t, v.IsStart t ∧ (t : Int) = d.pc+offset
  falls : ∀ d ∈ v.instructions, d.instruction.fallsThrough = true →
    d.nextPc = v.code.length ∨ v.IsStart d.nextPc
  successors : ∀ d ∈ v.instructions, ∀ s ∈ v.successors d.pc, v.IsStart s
  merge_ascending : v.mergeTargets.Pairwise (· < ·)
  merge : ∀ t, t ∈ v.mergeTargets ↔ ∃ d ∈ v.instructions, d.Targets t ∨
    d.instruction.isConditional = true ∧ t = d.nextPc ∧ t < v.code.length
  loops_ascending : v.loopHeaders.Pairwise (· < ·)
  loops : ∀ t, t ∈ v.loopHeaders ↔ ∃ d ∈ v.instructions, d.Targets t ∧ t ≤ d.pc

theorem instructionAt_mem {v : VerifiedCode} (htiles : Tiles v.code 0 v.instructions)
    (hlen : v.code.length ≤ 65535) {d : VerifiedInstruction} (hd : d ∈ v.instructions) :
    v.instructionAt d.pc = some d := by
  obtain ⟨i,hi⟩ := mem_iff_getElem?.mp hd
  have hpc : d.pc%2^32 = d.pc := Nat.mod_eq_of_lt (by have := htiles.bounds hd; omega)
  have hplace : (v.instructions.map VerifiedInstruction.pc)[i]? = some d.pc := by simp [hi]
  rw [instructionAt,hpc,(binarySearch_eq_some htiles.ascending).mpr hplace]
  exact hi

theorem mem_successors {v : VerifiedCode} (htiles : Tiles v.code 0 v.instructions)
    (hlen : v.code.length ≤ 65535) {d : VerifiedInstruction} (hd : d ∈ v.instructions) {s : Nat}
    (hs : s ∈ v.successors d.pc) :
    d.Targets s ∨ d.instruction.fallsThrough = true ∧ s = d.nextPc ∧ s < v.code.length := by
  have hout : ∀ t, t ∈ (match instructionTargets d.instruction d.pc v.code.length with
      | .ok out => out
      | .error _ => []) → d.Targets t := by
    intro t ht
    split at ht
    · rename_i out hrun
      rw [instructionTargets,visitInstructionTargets_eq,map_eq_pure_bind] at hrun
      obtain ⟨ts,hts,hrun⟩ := bind_eq_ok.mp hrun
      cases hrun
      have hmem : t ∈ ts := by simpa using ht
      exact (mem_checkedTargets hts t).mp hmem
    · cases ht
  rw [successors,instructionAt_mem htiles hlen hd] at hs
  dsimp only at hs
  split at hs
  · rename_i hfall
    simp only [Bool.and_eq_true,decide_eq_true_eq] at hfall
    rcases mem_append.mp hs with hs | hs
    · exact .inl (hout s hs)
    obtain rfl := mem_singleton.mp hs
    exact .inr ⟨hfall.1,rfl,hfall.2⟩
  · exact .inl (hout s hs)

theorem decode_wellFormed {code : List UInt8} {v : VerifiedCode} (h : decode code = .ok v) :
    v.code = code ∧ v.WellFormed := by
  obtain ⟨⟨instructions,merge,loops⟩,hparts,h⟩ := bind_eq_ok.mp h
  cases h
  refine ⟨rfl,?_⟩
  rw [decodeParts] at hparts
  split at hparts
  · cases hparts
  rename_i hlen
  obtain ⟨⟨starts,instrs⟩,hloop,hparts⟩ := bind_eq_ok.mp hparts
  obtain ⟨sets,hsets,hparts⟩ := bind_eq_ok.mp hparts
  cases hparts
  obtain ⟨htiles,hstarts⟩ := contains_decodeLoop hloop
  obtain ⟨htargets,hmerge,hloops⟩ := scanAll_ok hsets
  have hlen := Nat.not_lt.mp hlen
  have hstart : ∀ d ∈ instructions, ∀ offset ∈ d.instruction.branchOffsets,
      ∃ t, (t < code.length ∧ ∃ e ∈ instructions, e.pc = t) ∧ (t : Int) = d.pc+offset := by
    intro d hd offset hoffset
    obtain ⟨t,ht,hlt,hval⟩ := htargets d hd offset hoffset
    exact ⟨t,⟨hlt,(hstarts t).mp ht⟩,hval⟩
  have hfalls : ∀ d ∈ instructions,
      d.nextPc = code.length ∨ d.nextPc < code.length ∧ ∃ e ∈ instructions, e.pc = d.nextPc := by
    intro d hd
    refine (htiles.follow hd).imp_right fun ⟨e,he,hpc⟩ => ⟨?_,e,he,hpc⟩
    have := htiles.bounds he
    omega
  refine ⟨htiles,hstart,fun d hd _ => hfalls d hd,?_,sortDedup_ascending _,fun t => ?_,
    sortDedup_ascending _,fun t => ?_⟩
  · intro d hd s hs
    rcases mem_successors htiles hlen hd hs with ⟨offset,hoffset,hval⟩ | ⟨-,rfl,hlt⟩
    · obtain ⟨t,ht,htval⟩ := hstart d hd offset hoffset
      obtain rfl : t = s := Int.natCast_inj.mp (htval.trans hval.symm)
      exact ht
    · exact (hfalls d hd).resolve_left (Nat.ne_of_lt hlt)
  · rw [mem_sortDedup,hmerge]
    simp
  rw [mem_sortDedup,hloops]
  simp

end VerifiedCode

/-- How the scan of an instruction ends, whatever it collects. -/
def scanOutcome (isStart : Nat → Bool) (codeLen : Nat) (d : VerifiedInstruction) :
    Except ClassReaderError Unit := do
  let ts ← d.instruction.branchOffsets.mapM fun offset => checkedTarget d.pc offset codeLen
  match ts.find? fun t => !isStart t with
  | some target =>
    .error (.invalidClassData
      s!"branch at offset {d.pc} targets {target}, which is not an instruction boundary")
  | none => .ok ()

theorem scanTargets_outcome (isStart : Nat → Bool) (collectTargets : Bool) (codeLen : Nat)
    (sets : TargetSets) (d : VerifiedInstruction) :
    (fun _ => ()) <$> scanTargets isStart collectTargets codeLen sets d =
      scanOutcome isStart codeLen d := by
  simp only [scanTargets,scanOutcome,visitInstructionTargets_eq]
  generalize (d.instruction.branchOffsets.mapM fun offset => checkedTarget d.pc offset codeLen) = r
  cases r with
  | error e => rfl
  | ok ts => ?_
  have hbad := badTarget_foldl isStart collectTargets d.pc ts ⟨sets,none⟩
  rw [Option.none_or] at hbad
  simp only [Except.map_ok,ok_bind]
  rw [hbad]
  cases ts.find? fun t => !isStart t with
  | some target => rfl
  | none => dsimp only; split <;> rfl

/-- The decode that is not cached accepts the same code, with the same instructions, and refuses the
rest with the same error. -/
theorem decodeInstructions_eq (code : List UInt8) :
    decodeInstructions code = VerifiedCode.instructions <$> VerifiedCode.decode code := by
  rw [decodeInstructions,VerifiedCode.decode,decodeParts,decodeParts]
  split
  · rfl
  cases decodeLoop code code.length 0 (.new code.length) [] with
  | error e => rfl
  | ok r => ?_
  obtain ⟨starts,instructions⟩ := r
  have hout := foldlM_outcome (l := instructions)
    (f := scanTargets starts.contains false code.length)
    (g := scanTargets starts.contains true code.length)
    (fun a b d _ => (scanTargets_outcome _ false _ a d).trans (scanTargets_outcome _ true _ b d).symm)
    ⟨[],[]⟩ ⟨[],[]⟩
  simp only [ok_bind]
  cases hf : instructions.foldlM (scanTargets starts.contains false code.length) ⟨[],[]⟩ with
  | error e => ?_
  | ok sets =>
    cases hg : instructions.foldlM (scanTargets starts.contains true code.length) ⟨[],[]⟩ with
    | error e' => rw [hf,hg] at hout; cases hout
    | ok sets' => rfl
  cases hg : instructions.foldlM (scanTargets starts.contains true code.length) ⟨[],[]⟩ with
  | error e' =>
    rw [hf,hg] at hout
    cases hout
    rfl
  | ok sets => rw [hf,hg] at hout; cases hout

def CacheShard.Sound (shard : CacheShard) : Prop :=
  ∀ hash, ∀ entry ∈ shard.byHash hash, VerifiedCode.decode entry.code = .ok entry

def Cache.Sound (cache : Cache) : Prop := ∀ index, (cache index).Sound

/-- The cache a process starts with. -/
def Cache.fresh : Cache := fun _ => {}

theorem Cache.fresh_sound : Cache.fresh.Sound := by
  intro index hash entry hentry
  cases hentry

theorem CacheShard.Sound.find {shard : CacheShard} (h : shard.Sound) {hash : UInt64}
    {code : List UInt8} {found : VerifiedCode} (hfind : shard.find hash code = some found) :
    VerifiedCode.decode code = .ok found := by
  have hmem := mem_of_find?_eq_some hfind
  have hcode : found.code = code := by simpa using find?_some hfind
  exact hcode ▸ h hash found hmem

theorem CacheShard.Sound.publish {shard : CacheShard} (h : shard.Sound) (hash : UInt64)
    {code : List UInt8} {decoded : VerifiedCode} (hdecoded : VerifiedCode.decode code = .ok decoded) :
    (shard.publish hash code decoded).1 = decoded ∧ (shard.publish hash code decoded).2.Sound := by
  rw [CacheShard.publish]
  cases hfind : shard.find hash code with
  | some found =>
    refine ⟨?_,h⟩
    exact Except.ok.inj ((h.find hfind).symm.trans hdecoded)
  | none => ?_
  refine ⟨rfl,fun key entry hentry => ?_⟩
  have hself : VerifiedCode.decode decoded.code = .ok decoded := by
    rw [(VerifiedCode.decode_wellFormed hdecoded).1,hdecoded]
  -- a cleared shard has empty buckets
  have hbase : ∀ key, ∀ entry ∈ (if shard.entries ≥ maxEntriesPerShard ∨
      shard.codeBytes+code.length > maxCodeBytesPerShard then
        { byHash := fun _ => [], entries := 0, codeBytes := 0 }
      else shard : CacheShard).byHash key, VerifiedCode.decode entry.code = .ok entry := by
    intro key entry hentry
    split at hentry
    · cases hentry
    · exact h key entry hentry
  dsimp only at hentry
  by_cases hkey : key = hash
  · subst hkey
    rw [Function.update_self] at hentry
    rcases mem_append.mp hentry with hentry | hentry
    · exact hbase key entry hentry
    obtain rfl := mem_singleton.mp hentry
    exact hself
  rw [Function.update_of_ne hkey] at hentry
  exact hbase key entry hentry

namespace Cache.Sound
variable {cache : Cache} (h : cache.Sound) (hash : List UInt8 → UInt64)

include h

theorem publishDecoded (code : List UInt8) :
    (publishDecoded hash cache code).1 = VerifiedCode.decode code ∧
      (publishDecoded hash cache code).2.Sound := by
  rw [Reader.publishDecoded]
  cases hdecode : VerifiedCode.decode code with
  | error e => exact ⟨rfl,h⟩
  | ok decoded => ?_
  obtain ⟨hfound,hshard⟩ := (h (shardIndex (hash code))).publish (hash code) hdecode
  refine ⟨congrArg Except.ok hfound,fun index => ?_⟩
  dsimp only
  by_cases hindex : index = shardIndex (hash code)
  · subst hindex
    rw [Function.update_self]
    exact hshard
  rw [Function.update_of_ne hindex]
  exact h index

theorem verifiedCode (code : List UInt8) :
    (verifiedCode hash cache code).1 = VerifiedCode.decode code ∧
      (verifiedCode hash cache code).2.Sound := by
  rw [Reader.verifiedCode]
  cases hfind : (cache (shardIndex (hash code))).find (hash code) code with
  | some found => exact ⟨((h _).find hfind).symm,h⟩
  | none => exact h.publishDecoded hash code

theorem section_ (s : Section) :
    (∀ r, (s.run hash cache).1 = some r → r = VerifiedCode.decode s.code) ∧
      (s.run hash cache).2.Sound := by
  cases s with
  | look code =>
    refine ⟨fun r hr => ?_,h⟩
    obtain ⟨found,hfind,rfl⟩ := Option.map_eq_some_iff.mp hr
    exact ((h _).find hfind).symm
  | publish code =>
    obtain ⟨hres,hsound⟩ := h.publishDecoded hash code
    exact ⟨fun r hr => (Option.some.inj hr).symm.trans hres,hsound⟩

end Cache.Sound

theorem callAll_eq (hash : List UInt8 → UInt64) {cache : Cache} (h : cache.Sound)
    (calls : List (List UInt8)) : callAll hash cache calls = calls.map VerifiedCode.decode := by
  induction calls generalizing cache with
  | nil => rfl
  | cons code calls ih =>
    obtain ⟨hres,hsound⟩ := h.verifiedCode hash code
    rw [callAll,map_cons,hres,ih hsound]

theorem runSections_sound (hash : List UInt8 → UInt64) {cache : Cache} (h : cache.Sound)
    (sections : List Section) {s : Section} {r : Except ClassReaderError VerifiedCode}
    (hmem : (s,some r) ∈ runSections hash cache sections) : r = VerifiedCode.decode s.code := by
  induction sections generalizing cache with
  | nil => cases hmem
  | cons first rest ih => ?_
  obtain ⟨hres,hsound⟩ := h.section_ hash first
  rcases mem_cons.mp hmem with heq | hmem
  · obtain ⟨rfl,hr⟩ := Prod.mk.inj heq
    exact hres r hr.symm
  · exact ih hsound hmem

/-- Accepted code is well formed, and whatever calls came before, a call returns what the decode
without the cache returns. -/
theorem verifiedCode_exact (hash : List UInt8 → UInt64) :
    (∀ code v, VerifiedCode.decode code = .ok v → v.code = code ∧ v.WellFormed) ∧
    (∀ code, decodeInstructions code = VerifiedCode.instructions <$> VerifiedCode.decode code) ∧
    (∀ calls, callAll hash .fresh calls = calls.map VerifiedCode.decode) ∧
    ∀ sections s r, (s,some r) ∈ runSections hash .fresh sections →
      r = VerifiedCode.decode s.code :=
  ⟨fun _ _ => VerifiedCode.decode_wellFormed,decodeInstructions_eq,
    callAll_eq hash Cache.fresh_sound,
    fun sections _ _ => runSections_sound hash Cache.fresh_sound sections⟩

set_option maxRecDepth 4000 in
/-- A counting loop, asked for twice. -/
theorem verifiedCode_exact_countingLoop :
    ∃ v : VerifiedCode,
      callAll (fun _ => 0) .fresh (List.replicate 2
        [0x03,0x3b,0x84,0x00,0x01,0x1a,0x10,0x0a,0xa1,0xff,0xfa,0xb1]) = [.ok v,.ok v] ∧
      v.WellFormed ∧ v.loopHeaders = [2] ∧ v.mergeTargets = [2,11] := by
  obtain ⟨hshape,-,hcalls,-⟩ := verifiedCode_exact fun _ => 0
  have hsets : (fun v => (v.loopHeaders,v.mergeTargets)) <$> VerifiedCode.decode
    [0x03,0x3b,0x84,0x00,0x01,0x1a,0x10,0x0a,0xa1,0xff,0xfa,0xb1] = .ok ([2],[2,11]) := by decide
  cases hv : VerifiedCode.decode [0x03,0x3b,0x84,0x00,0x01,0x1a,0x10,0x0a,0xa1,0xff,0xfa,0xb1] with
  | error e =>
    rw [hv] at hsets
    cases hsets
  | ok v => ?_
  rw [hv] at hsets
  obtain ⟨hloops,hmerge⟩ := Prod.mk.inj (Except.ok.inj hsets)
  refine ⟨v,?_,(hshape _ v hv).2,hloops,hmerge⟩
  rw [hcalls,List.map_replicate,hv]
  rfl

/-- A method that is one `nop` is accepted, though control falls out of it past the end. -/
theorem decode_falls_off :
    ∃ v, VerifiedCode.decode [0x00] = .ok v ∧
      ∃ d ∈ v.instructions, d.instruction.fallsThrough = true ∧ ¬v.IsStart d.nextPc := by
  refine ⟨⟨[0x00],[⟨0,1,.nop⟩],[],[]⟩,by decide,⟨0,1,.nop⟩,by decide,by decide,?_⟩
  rintro ⟨hlt,-⟩
  exact absurd hlt (by decide)

end CratonVM.Reader
