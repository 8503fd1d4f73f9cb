import Mathlib

/-!
The bytecode decoder of `jit/src/bytecode_analysis.rs` and the local accesses of
`jit/src/regalloc.rs`. A read outside the array is `none`, as `get` answers there.
-/
namespace CratonVM.Jit.Bytecode
open Option

abbrev Code := List UInt8

def byteAt (code : Code) (pc : Nat) : Option Nat := code[pc]?.map UInt8.toNat

def opAt (code : Code) (pc : Nat) : Nat := (byteAt code pc).getD 0

def within (lo hi op : Nat) : Bool := lo ≤ op && op ≤ hi

def readU16 (code : Code) (pos : Nat) : Option Nat := do
  let b0 ← byteAt code pos
  let b1 ← byteAt code (pos+1)
  pure (b0*2^8+b1)

def readI16 (code : Code) (pos : Nat) : Option Int := do
  let v ← readU16 code pos
  pure ((v : Int).bmod (2^16))

def readI32 (code : Code) (pos : Nat) : Option Int := do
  let hi ← readU16 code pos
  let lo ← readU16 code (pos+2)
  pure (((hi*2^16+lo : Nat) : Int).bmod (2^32))

def switchOperandBase (pc : Nat) : Nat := (pc+1+3)/4*4

def maxTableswitchCount : Nat := 2^24
def maxLookupswitchNpairs : Nat := 2^20

def checkedTableswitchCount (low high : Int) : Option Nat :=
  let count := high-low+1
  if count ≤ 0 then none else if count.toNat > maxTableswitchCount then none else some count.toNat

def checkedLookupswitchNpairs (npairs : Int) : Option Nat :=
  if npairs < 0 then none
  else if npairs.toNat > maxLookupswitchNpairs then none else some npairs.toNat

def tableswitchCount (code : Code) (pc : Nat) : Option Nat := do
  let low ← readI32 code (switchOperandBase pc+4)
  let high ← readI32 code (switchOperandBase pc+8)
  checkedTableswitchCount low high

def lookupswitchNpairs (code : Code) (pc : Nat) : Option Nat := do
  let npairs ← readI32 code (switchOperandBase pc+4)
  checkedLookupswitchNpairs npairs

/-- The lengths that depend on the opcode alone. -/
def fixedLen (op : Nat) : Nat :=
  if op = 0x10 || op = 0x12 || within 0x15 0x19 op || within 0x36 0x3a op || op = 0xa9 || op = 0xbc then 2
  else if op = 0x11 || op = 0x13 || op = 0x14 || op = 0x84 || within 0x99 0xa8 op || within 0xb2 0xb8 op ||
    op = 0xbb || op = 0xbd || op = 0xc0 || op = 0xc1 || op = 0xc6 || op = 0xc7 then 3
  else if op = 0xc5 then 4
  else if op = 0xb9 || op = 0xba || op = 0xc8 || op = 0xc9 then 5
  else 1

def insnLen (code : Code) (pc : Nat) : Option Nat := do
  let op ← byteAt code pc
  if op = 0xc4 then pure (if byteAt code (pc+1) = some 0x84 then 6 else 4)
  else if op = 0xaa then (tableswitchCount code pc).map (·*4+(switchOperandBase pc+12)-pc)
  else if op = 0xab then (lookupswitchNpairs code pc).map (·*8+(switchOperandBase pc+8)-pc)
  else pure (fixedLen op)

/-- An undecodable instruction advances one byte. -/
def step (code : Code) (pc : Nat) : Nat := (insnLen code pc).getD 1

def fallsThrough (op : Nat) : Bool :=
  !(op = 0xa7 || op = 0xa9 || op = 0xaa || op = 0xab || within 0xac 0xb1 op || op = 0xbf || op = 0xc8)

def addSigned (pc : Nat) (off : Int) : Option Nat :=
  if (pc : Int)+off < 0 then none else some ((pc : Int)+off).toNat

def branchOffset (code : Code) (pc : Nat) : Option Int := do
  let op ← byteAt code pc
  if within 0x99 0xa8 op || op = 0xc6 || op = 0xc7 then readI16 code (pc+1)
  else if op = 0xc8 || op = 0xc9 then readI32 code (pc+1)
  else none

def offsetBranchTarget (code : Code) (pc : Nat) : Option Nat := do
  let off ← branchOffset code pc
  addSigned pc off

def entryTarget (code : Code) (codeLen pc pos : Nat) : Option Nat :=
  (addSigned pc ((readI32 code pos).getD 0)).filter (· < codeLen)

/-- The entries of a switch table up to the first one that does not fit. -/
def entryTargets (code : Code) (codeLen pc base width shift : Nat) (count : Nat) : List Nat :=
  ((List.range count).takeWhile fun i => base+i*width+width ≤ codeLen).filterMap fun i =>
    entryTarget code codeLen pc (base+i*width+shift)

/-- The default and every case target that decodes and lies in the code. -/
def switchTargetsLenient (code : Code) (codeLen pc : Nat) : List Nat :=
  let codeLen := min codeLen code.length
  let base := switchOperandBase pc
  if pc ≥ codeLen ∨ (opAt code pc ≠ 0xaa ∧ opAt code pc ≠ 0xab) then []
  else if base+4 > codeLen then []
  else
    let default_ := (entryTarget code codeLen pc base).toList
    if opAt code pc = 0xaa then
      if base+12 > codeLen then default_
      else
        match tableswitchCount code pc with
        | none => default_
        | some count => default_ ++ entryTargets code codeLen pc (base+12) 4 0 count
    else if base+8 > codeLen then default_
    else
      match lookupswitchNpairs code pc with
      | none => default_
      | some npairs => default_ ++ entryTargets code codeLen pc (base+8) 8 4 npairs

/-- The end of a block without a fall-through edge; `ret` keeps its own. -/
def isUnconditional (op : Nat) : Bool := !fallsThrough op && op != 0xa9

structure LocalAccess where
  idx : Nat
  isUse : Bool
  isDef : Bool
  deriving DecidableEq, Repr

/-- The loads and stores whose opcode names the local. -/
def implicitAccess (op : Nat) : Option LocalAccess :=
  if within 0x1a 0x1d op then some ⟨op-0x1a,true,false⟩
  else if within 0x1e 0x21 op then some ⟨op-0x1e,true,false⟩
  else if within 0x22 0x25 op then some ⟨op-0x22,true,false⟩
  else if within 0x26 0x29 op then some ⟨op-0x26,true,false⟩
  else if within 0x2a 0x2d op then some ⟨op-0x2a,true,false⟩
  else if within 0x3b 0x3e op then some ⟨op-0x3b,false,true⟩
  else if within 0x3f 0x42 op then some ⟨op-0x3f,false,true⟩
  else if within 0x43 0x46 op then some ⟨op-0x43,false,true⟩
  else if within 0x47 0x4a op then some ⟨op-0x47,false,true⟩
  else if within 0x4b 0x4e op then some ⟨op-0x4b,false,true⟩
  else none

/-- Use and definition of the forms with an operand; `iinc` is both. -/
def operandAccess (op : Nat) : Option (Bool × Bool) :=
  if within 0x15 0x19 op then some (true,false)
  else if within 0x36 0x3a op then some (false,true)
  else if op = 0x84 then some (true,true)
  else none

def localAccess (code : Code) (pc : Nat) : Option LocalAccess :=
  let op := opAt code pc
  match implicitAccess op,operandAccess op with
  | some access,_ => some access
  | none,some (isUse,isDef) => do
    let idx ← byteAt code (pc+1)
    pure ⟨idx,isUse,isDef⟩
  | none,none =>
    if op = 0xc4 then do
      let modified ← byteAt code (pc+1)
      let idx ← readU16 code (pc+2)
      let (isUse,isDef) ← operandAccess modified
      pure ⟨idx,isUse,isDef⟩
    else none

theorem lt_switchOperandBase (pc : Nat) : pc < switchOperandBase pc := by
  unfold switchOperandBase
  omega

theorem fixedLen_pos (op : Nat) : 0 < fixedLen op := by
  unfold fixedLen
  repeat' split
  all_goals decide

theorem step_pos (code : Code) (pc : Nat) : 0 < step code pc := by
  have hbase := lt_switchOperandBase pc
  unfold step insnLen
  cases hop : byteAt code pc with
  | none => exact Nat.one_pos
  | some op => ?_
  simp only [bind_eq_bind,bind_some]
  split
  · split <;> exact Nat.succ_pos _
  split
  · cases tableswitchCount code pc with
    | none => exact Nat.one_pos
    | some count =>
      simp only [map_some,getD_some]
      omega
  split
  · cases lookupswitchNpairs code pc with
    | none => exact Nat.one_pos
    | some npairs =>
      simp only [map_some,getD_some]
      omega
  · exact fixedLen_pos op

namespace Jvms
/-- What executing an instruction needs: its length, the targets it names, whether the next
instruction follows it, and the local it loads and stores. -/
structure Insn where
  length : Nat
  targets : List Int
  falls : Bool
  reads : Option Nat
  writes : Option Nat
  deriving DecidableEq, Repr

/-- First opcode, last opcode and length, in the order of the opcode table. -/
def lengths : List (Nat × Nat × Nat) :=
  [(0x00,0x0f,1),(0x10,0x10,2),(0x11,0x11,3),(0x12,0x12,2),(0x13,0x14,3),(0x15,0x19,2),(0x1a,0x35,1),
    (0x36,0x3a,2),(0x3b,0x83,1),(0x84,0x84,3),(0x85,0x98,1),(0x99,0xa7,3),(0xac,0xb1,1),(0xb2,0xb8,3),
    (0xb9,0xba,5),(0xbb,0xbb,3),(0xbc,0xbc,2),(0xbd,0xbd,3),(0xbe,0xbf,1),(0xc0,0xc1,3),(0xc2,0xc3,1),
    (0xc5,0xc5,4),(0xc6,0xc7,3),(0xc8,0xc8,5)]

def lengthOf (op : Nat) : Option Nat :=
  (lengths.find? fun (first,last,_) => first ≤ op && op ≤ last).map fun (_,_,len) => len

/-- `if<cond>`, `goto`, `ifnull` and `ifnonnull` jump by two bytes, `goto_w` by four. -/
def jumps (code : Code) (pc op : Nat) : Option (List Int) :=
  if within 0x99 0xa7 op || within 0xc6 0xc7 op then
    (readI16 code (pc+1)).map fun off => [(pc : Int)+off]
  else if op = 0xc8 then (readI32 code (pc+1)).map fun off => [(pc : Int)+off]
  else some []

/-- `goto`, the returns, `athrow` and `goto_w` do not go on. -/
def goesOn (op : Nat) : Bool := !(op = 0xa7 || within 0xac 0xb1 op || op = 0xbf || op = 0xc8)

/-- The five types have a load with an operand each and then four without one. -/
def loads (code : Code) (pc op : Nat) : Option Nat :=
  if within 0x15 0x19 op || op = 0x84 then byteAt code (pc+1)
  else if within 0x1a 0x2d op then some ((op-0x1a)%4)
  else none

def stores (code : Code) (pc op : Nat) : Option Nat :=
  if within 0x36 0x3a op || op = 0x84 then byteAt code (pc+1)
  else if within 0x3b 0x4e op then some ((op-0x3b)%4)
  else none

def plain (code : Code) (pc op : Nat) : Option Insn := do
  let len ← lengthOf op
  let targets ← jumps code pc op
  pure ⟨len,targets,goesOn op,loads code pc op,stores code pc op⟩

def wide (code : Code) (pc : Nat) : Option Insn := do
  let op ← byteAt code (pc+1)
  let idx ← readU16 code (pc+2)
  if within 0x15 0x19 op then pure ⟨4,[],true,some idx,none⟩
  else if within 0x36 0x3a op then pure ⟨4,[],true,none,some idx⟩
  else if op = 0x84 then pure ⟨6,[],true,some idx,some idx⟩
  else none

/-- The jump offsets of a table, entry by entry. -/
def offsets (code : Code) (first width : Nat) : Nat → Option (List Int)
  | 0 => some []
  | n+1 => do
    let earlier ← offsets code first width n
    let off ← readI32 code (first+n*width)
    pure (earlier ++ [off])

/-- The operands start at the next multiple of four. -/
def tableswitch (code : Code) (pc : Nat) : Option Insn := do
  let base := (pc+4)/4*4
  let default_ ← readI32 code base
  let low ← readI32 code (base+4)
  let high ← readI32 code (base+8)
  if low ≤ high then do
    let count := (high-low+1).toNat
    let offs ← offsets code (base+12) 4 count
    pure ⟨base+12+count*4-pc,(default_ :: offs).map ((pc : Int)+·),false,none,none⟩
  else none

def lookupswitch (code : Code) (pc : Nat) : Option Insn := do
  let base := (pc+4)/4*4
  let default_ ← readI32 code base
  let npairs ← readI32 code (base+4)
  if 0 ≤ npairs then do
    let offs ← offsets code (base+12) 8 npairs.toNat
    pure ⟨base+8+npairs.toNat*8-pc,(default_ :: offs).map ((pc : Int)+·),false,none,none⟩
  else none

def decode (code : Code) (pc : Nat) : Option Insn := do
  let op ← byteAt code pc
  if op = 0xc4 then wide code pc
  else if op = 0xaa then tableswitch code pc
  else if op = 0xab then lookupswitch code pc
  else plain code pc op

/-- Instructions start where the one before them ends. -/
inductive Starts (code : Code) : Nat → Prop where
  | zero : Starts code 0
  | next {pc : Nat} {insn : Insn} : Starts code pc → decode code pc = some insn →
    Starts code (pc+insn.length)

end Jvms

/-- An exception table entry: `startPc`, `endPc` (exclusive) and `handlerPc`. -/
structure HandlerRange where
  startPc : Nat
  endPc : Nat
  handlerPc : Nat
  deriving DecidableEq, Repr

open Jvms

/-- What verification establishes about a method without subroutines: it is made of whole
instructions, control does not run off its end, and jumps and handlers lead to instructions. -/
structure Verified (code : Code) (codeLen : Nat) (handlers : List HandlerRange) : Prop where
  nonempty : 0 < codeLen
  short : codeLen < 65536
  within_code : codeLen ≤ code.length
  decodes : ∀ {pc}, Starts code pc → pc < codeLen → ∃ insn, decode code pc = some insn ∧
    pc+insn.length ≤ codeLen ∧ (insn.falls = true → pc+insn.length < codeLen) ∧
    ∀ t ∈ insn.targets, ∃ q, t = (q : Nat) ∧ Starts code q ∧ q < codeLen
  handler : ∀ h ∈ handlers, Starts code h.handlerPc ∧ h.handlerPc < codeLen

end CratonVM.Jit.Bytecode
