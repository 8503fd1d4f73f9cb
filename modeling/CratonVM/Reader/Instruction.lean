import Mathlib
/-!
The instructions of `reader/src/instruction.rs` and their decoder. A slice of bytes is a list; the
decoder passes `next` along as its state.
-/
namespace CratonVM.Reader
def maxSwitchEntries : Nat := 16384

structure TableSwitch where
  default : Int
  low : Int
  high : Int
  offsets : List Int
  deriving DecidableEq, Repr

structure LookupSwitch where
  default : Int
  pairs : List (Int × Int)
  deriving DecidableEq, Repr

inductive Instruction where
  | nop
  | aconstNull
  | iconstM1
  | iconst0
  | iconst1
  | iconst2
  | iconst3
  | iconst4
  | iconst5
  | lconst0
  | lconst1
  | fconst0
  | fconst1
  | fconst2
  | dconst0
  | dconst1
  | bipush (value : Int)
  | sipush (value : Int)
  | ldc (index : Nat)
  | ldcW (index : Nat)
  | ldc2W (index : Nat)
  | iload (index : Nat)
  | lload (index : Nat)
  | fload (index : Nat)
  | dload (index : Nat)
  | aload (index : Nat)
  | iaload
  | laload
  | faload
  | daload
  | aaload
  | baload
  | caload
  | saload
  | istore (index : Nat)
  | lstore (index : Nat)
  | fstore (index : Nat)
  | dstore (index : Nat)
  | astore (index : Nat)
  | iastore
  | lastore
  | fastore
  | dastore
  | aastore
  | bastore
  | castore
  | sastore
  | pop
  | pop2
  | dup
  | dupX1
  | dupX2
  | dup2
  | dup2X1
  | dup2X2
  | swap
  | iadd
  | ladd
  | fadd
  | dadd
  | isub
  | lsub
  | fsub
  | dsub
  | imul
  | lmul
  | fmul
  | dmul
  | idiv
  | ldiv
  | fdiv
  | ddiv
  | irem
  | lrem
  | frem
  | drem
  | ineg
  | lneg
  | fneg
  | dneg
  | ishl
  | lshl
  | ishr
  | lshr
  | iushr
  | lushr
  | iand
  | land
  | ior
  | lor
  | ixor
  | lxor
  | iinc (index : Nat) (constant : Int)
  | i2l
  | i2f
  | i2d
  | l2i
  | l2f
  | l2d
  | f2i
  | f2l
  | f2d
  | d2i
  | d2l
  | d2f
  | i2b
  | i2c
  | i2s
  | lcmp
  | fcmpl
  | fcmpg
  | dcmpl
  | dcmpg
  | ifeq (offset : Int)
  | ifne (offset : Int)
  | iflt (offset : Int)
  | ifge (offset : Int)
  | ifgt (offset : Int)
  | ifle (offset : Int)
  | ifIcmpeq (offset : Int)
  | ifIcmpne (offset : Int)
  | ifIcmplt (offset : Int)
  | ifIcmpge (offset : Int)
  | ifIcmpgt (offset : Int)
  | ifIcmple (offset : Int)
  | ifAcmpeq (offset : Int)
  | ifAcmpne (offset : Int)
  | goto (offset : Int)
  | jsr (offset : Int)
  | ret (index : Nat)
  | tableswitch (table : TableSwitch)
  | lookupswitch (table : LookupSwitch)
  | ireturn
  | lreturn
  | freturn
  | dreturn
  | areturn
  | return_
  | getstatic (index : Nat)
  | putstatic (index : Nat)
  | getfield (index : Nat)
  | putfield (index : Nat)
  | invokevirtual (index : Nat)
  | invokespecial (index : Nat)
  | invokestatic (index : Nat)
  | invokeinterface (index : Nat) (count : Nat)
  | invokedynamic (index : Nat)
  | new (index : Nat)
  | newarray (atype : Nat)
  | anewarray (index : Nat)
  | arraylength
  | athrow
  | checkcast (index : Nat)
  | instanceof (index : Nat)
  | monitorenter
  | monitorexit
  | wide
  | multianewarray (index : Nat) (dimensions : Nat)
  | ifnull (offset : Int)
  | ifnonnull (offset : Int)
  | gotoW (offset : Int)
  | jsrW (offset : Int)
  deriving DecidableEq, Repr

inductive ClassReaderError where
  | unexpectedEndOfData (position : Nat)
  | invalidClassData (message : String)
  | invalidTypeDescriptor (descriptor : List Char)
  | invalidMethodDescriptor (descriptor : List Char)
  deriving DecidableEq, Repr

instance instDecidableEqExcept {ε α : Type} [DecidableEq ε] [DecidableEq α] : DecidableEq (Except ε α)
  | .error a, .error b => decidable_of_iff (a = b) (by simp)
  | .ok a, .ok b => decidable_of_iff (a = b) (by simp)
  | .error _, .ok _ => isFalse (by simp)
  | .ok _, .error _ => isFalse (by simp)

namespace Instruction
/-- A part of the decoder, from a position to a result and the position behind it. -/
abbrev Decode (α : Type) := StateT Nat (Except ClassReaderError) α

def byteAt (code : List UInt8) (index : Nat) : Except ClassReaderError UInt8 :=
  match code[index]? with
  | some b => .ok b
  | none => .error (.unexpectedEndOfData index)

def fail {α : Type} (message : String) : Decode α :=
  throw (.invalidClassData message)

def signed (w value : Nat) : Int := if value < 2^(w-1) then value else value-2^w

/-- `n` bytes, the first one most significant. -/
def readBytes (code : List UInt8) : (n : Nat) → Decode Nat
  | 0 => pure 0
  | n+1 => do
    let pc ← get
    let byte ← byteAt code pc
    set (pc+1)
    let rest ← readBytes code n
    pure (byte.toNat*2^(8*n)+rest)

def readU8 (code : List UInt8) : Decode Nat := readBytes code 1
def readI8 (code : List UInt8) : Decode Int := signed 8 <$> readBytes code 1
def readU16 (code : List UInt8) : Decode Nat := readBytes code 2
def readI16 (code : List UInt8) : Decode Int := signed 16 <$> readBytes code 2
def readI32 (code : List UInt8) : Decode Int := signed 32 <$> readBytes code 4

/-- Skip the padding before the operands of a switch. -/
def alignSwitch : Decode Unit := modify fun next => (next+3)/4*4

def readMany {α : Type} (one : Decode α) : (n : Nat) → Decode (List α)
  | 0 => pure []
  | n+1 => do
    let x ← one
    let xs ← readMany one n
    pure (x :: xs)

/-- The table of a switch must fit into what is left of the code. -/
def checkRoom (code : List UInt8) (size : Nat) : Decode Unit := do
  let next ← get
  if size > code.length-next then throw (.unexpectedEndOfData next)

def decodeTableswitch (code : List UInt8) : Decode Instruction := do
  alignSwitch
  let default ← readI32 code
  let low ← readI32 code
  let high ← readI32 code
  if high < low then fail s!"tableswitch high ({high}) < low ({low})"
  else
    let count := high-low+1
    if count > maxSwitchEntries then
      fail s!"tableswitch entry count {count} exceeds maximum {maxSwitchEntries}"
    else
      checkRoom code (count.toNat*4)
      let offsets ← readMany (readI32 code) count.toNat
      pure (.tableswitch { default, low, high, offsets })

def decodeLookupswitch (code : List UInt8) : Decode Instruction := do
  alignSwitch
  let default ← readI32 code
  let npairs ← readI32 code
  if npairs < 0 then fail s!"lookupswitch npairs is negative: {npairs}"
  else if npairs > maxSwitchEntries then
    fail s!"lookupswitch npairs {npairs} exceeds maximum {maxSwitchEntries}"
  else
    checkRoom code (npairs.toNat*8)
    let pairs ← readMany (do
      let key ← readI32 code
      let offset ← readI32 code
      pure (key,offset)) npairs.toNat
    pure (.lookupswitch { default, pairs })

def decodeInvokeinterface (code : List UInt8) : Decode Instruction := do
  let index ← readU16 code
  let count ← readU8 code
  let reserved ← readU8 code
  if reserved ≠ 0 then fail s!"invokeinterface reserved byte must be 0, got {reserved}"
  else pure (.invokeinterface index count)

def decodeInvokedynamic (code : List UInt8) : Decode Instruction := do
  let index ← readU16 code
  let reserved1 ← readU8 code
  let reserved2 ← readU8 code
  if reserved1 ≠ 0 ∨ reserved2 ≠ 0 then
    fail s!"invokedynamic reserved bytes must be 0, got {reserved1}, {reserved2}"
  else pure (.invokedynamic index)

def hexByte (byte : Nat) : String :=
  String.ofList [Nat.digitChar (byte/16),Nat.digitChar (byte%16)]

def decodeWideForm (code : List UInt8) (opcode : Nat) : Decode Instruction :=
  match UInt8.ofNat opcode with
  | 0x15 => .iload <$> readU16 code
  | 0x16 => .lload <$> readU16 code
  | 0x17 => .fload <$> readU16 code
  | 0x18 => .dload <$> readU16 code
  | 0x19 => .aload <$> readU16 code
  | 0x36 => .istore <$> readU16 code
  | 0x37 => .lstore <$> readU16 code
  | 0x38 => .fstore <$> readU16 code
  | 0x39 => .dstore <$> readU16 code
  | 0x3a => .astore <$> readU16 code
  | 0x84 => do
    let index ← readU16 code
    let constant ← readI16 code
    pure (.iinc index constant)
  | 0xa9 => .ret <$> readU16 code
  | _ => fail s!"invalid wide opcode: 0x{hexByte opcode}"

def decodeWide (code : List UInt8) : Decode Instruction := do
  let opcode ← readU8 code
  decodeWideForm code opcode

def decodeOperands (code : List UInt8) (pc : Nat) (opcode : UInt8) : Decode Instruction :=
  match opcode with
  | 0x00 => pure .nop
  | 0x01 => pure .aconstNull
  | 0x02 => pure .iconstM1
  | 0x03 => pure .iconst0
  | 0x04 => pure .iconst1
  | 0x05 => pure .iconst2
  | 0x06 => pure .iconst3
  | 0x07 => pure .iconst4
  | 0x08 => pure .iconst5
  | 0x09 => pure .lconst0
  | 0x0a => pure .lconst1
  | 0x0b => pure .fconst0
  | 0x0c => pure .fconst1
  | 0x0d => pure .fconst2
  | 0x0e => pure .dconst0
  | 0x0f => pure .dconst1
  | 0x10 => .bipush <$> readI8 code
  | 0x11 => .sipush <$> readI16 code
  | 0x12 => .ldc <$> readU8 code
  | 0x13 => .ldcW <$> readU16 code
  | 0x14 => .ldc2W <$> readU16 code
  | 0x15 => .iload <$> readU8 code
  | 0x16 => .lload <$> readU8 code
  | 0x17 => .fload <$> readU8 code
  | 0x18 => .dload <$> readU8 code
  | 0x19 => .aload <$> readU8 code
  | 0x1a => pure (.iload 0)
  | 0x1b => pure (.iload 1)
  | 0x1c => pure (.iload 2)
  | 0x1d => pure (.iload 3)
  | 0x1e => pure (.lload 0)
  | 0x1f => pure (.lload 1)
  | 0x20 => pure (.lload 2)
  | 0x21 => pure (.lload 3)
  | 0x22 => pure (.fload 0)
  | 0x23 => pure (.fload 1)
  | 0x24 => pure (.fload 2)
  | 0x25 => pure (.fload 3)
  | 0x26 => pure (.dload 0)
  | 0x27 => pure (.dload 1)
  | 0x28 => pure (.dload 2)
  | 0x29 => pure (.dload 3)
  | 0x2a => pure (.aload 0)
  | 0x2b => pure (.aload 1)
  | 0x2c => pure (.aload 2)
  | 0x2d => pure (.aload 3)
  | 0x2e => pure .iaload
  | 0x2f => pure .laload
  | 0x30 => pure .faload
  | 0x31 => pure .daload
  | 0x32 => pure .aaload
  | 0x33 => pure .baload
  | 0x34 => pure .caload
  | 0x35 => pure .saload
  | 0x36 => .istore <$> readU8 code
  | 0x37 => .lstore <$> readU8 code
  | 0x38 => .fstore <$> readU8 code
  | 0x39 => .dstore <$> readU8 code
  | 0x3a => .astore <$> readU8 code
  | 0x3b => pure (.istore 0)
  | 0x3c => pure (.istore 1)
  | 0x3d => pure (.istore 2)
  | 0x3e => pure (.istore 3)
  | 0x3f => pure (.lstore 0)
  | 0x40 => pure (.lstore 1)
  | 0x41 => pure (.lstore 2)
  | 0x42 => pure (.lstore 3)
  | 0x43 => pure (.fstore 0)
  | 0x44 => pure (.fstore 1)
  | 0x45 => pure (.fstore 2)
  | 0x46 => pure (.fstore 3)
  | 0x47 => pure (.dstore 0)
  | 0x48 => pure (.dstore 1)
  | 0x49 => pure (.dstore 2)
  | 0x4a => pure (.dstore 3)
  | 0x4b => pure (.astore 0)
  | 0x4c => pure (.astore 1)
  | 0x4d => pure (.astore 2)
  | 0x4e => pure (.astore 3)
  | 0x4f => pure .iastore
  | 0x50 => pure .lastore
  | 0x51 => pure .fastore
  | 0x52 => pure .dastore
  | 0x53 => pure .aastore
  | 0x54 => pure .bastore
  | 0x55 => pure .castore
  | 0x56 => pure .sastore
  | 0x57 => pure .pop
  | 0x58 => pure .pop2
  | 0x59 => pure .dup
  | 0x5a => pure .dupX1
  | 0x5b => pure .dupX2
  | 0x5c => pure .dup2
  | 0x5d => pure .dup2X1
  | 0x5e => pure .dup2X2
  | 0x5f => pure .swap
  | 0x60 => pure .iadd
  | 0x61 => pure .ladd
  | 0x62 => pure .fadd
  | 0x63 => pure .dadd
  | 0x64 => pure .isub
  | 0x65 => pure .lsub
  | 0x66 => pure .fsub
  | 0x67 => pure .dsub
  | 0x68 => pure .imul
  | 0x69 => pure .lmul
  | 0x6a => pure .fmul
  | 0x6b => pure .dmul
  | 0x6c => pure .idiv
  | 0x6d => pure .ldiv
  | 0x6e => pure .fdiv
  | 0x6f => pure .ddiv
  | 0x70 => pure .irem
  | 0x71 => pure .lrem
  | 0x72 => pure .frem
  | 0x73 => pure .drem
  | 0x74 => pure .ineg
  | 0x75 => pure .lneg
  | 0x76 => pure .fneg
  | 0x77 => pure .dneg
  | 0x78 => pure .ishl
  | 0x79 => pure .lshl
  | 0x7a => pure .ishr
  | 0x7b => pure .lshr
  | 0x7c => pure .iushr
  | 0x7d => pure .lushr
  | 0x7e => pure .iand
  | 0x7f => pure .land
  | 0x80 => pure .ior
  | 0x81 => pure .lor
  | 0x82 => pure .ixor
  | 0x83 => pure .lxor
  | 0x84 => do
    let index ← readU8 code
    let constant ← readI8 code
    pure (.iinc index constant)
  | 0x85 => pure .i2l
  | 0x86 => pure .i2f
  | 0x87 => pure .i2d
  | 0x88 => pure .l2i
  | 0x89 => pure .l2f
  | 0x8a => pure .l2d
  | 0x8b => pure .f2i
  | 0x8c => pure .f2l
  | 0x8d => pure .f2d
  | 0x8e => pure .d2i
  | 0x8f => pure .d2l
  | 0x90 => pure .d2f
  | 0x91 => pure .i2b
  | 0x92 => pure .i2c
  | 0x93 => pure .i2s
  | 0x94 => pure .lcmp
  | 0x95 => pure .fcmpl
  | 0x96 => pure .fcmpg
  | 0x97 => pure .dcmpl
  | 0x98 => pure .dcmpg
  | 0x99 => .ifeq <$> readI16 code
  | 0x9a => .ifne <$> readI16 code
  | 0x9b => .iflt <$> readI16 code
  | 0x9c => .ifge <$> readI16 code
  | 0x9d => .ifgt <$> readI16 code
  | 0x9e => .ifle <$> readI16 code
  | 0x9f => .ifIcmpeq <$> readI16 code
  | 0xa0 => .ifIcmpne <$> readI16 code
  | 0xa1 => .ifIcmplt <$> readI16 code
  | 0xa2 => .ifIcmpge <$> readI16 code
  | 0xa3 => .ifIcmpgt <$> readI16 code
  | 0xa4 => .ifIcmple <$> readI16 code
  | 0xa5 => .ifAcmpeq <$> readI16 code
  | 0xa6 => .ifAcmpne <$> readI16 code
  | 0xa7 => .goto <$> readI16 code
  | 0xa8 => .jsr <$> readI16 code
  | 0xa9 => .ret <$> readU8 code
  | 0xaa => decodeTableswitch code
  | 0xab => decodeLookupswitch code
  | 0xac => pure .ireturn
  | 0xad => pure .lreturn
  | 0xae => pure .freturn
  | 0xaf => pure .dreturn
  | 0xb0 => pure .areturn
  | 0xb1 => pure .return_
  | 0xb2 => .getstatic <$> readU16 code
  | 0xb3 => .putstatic <$> readU16 code
  | 0xb4 => .getfield <$> readU16 code
  | 0xb5 => .putfield <$> readU16 code
  | 0xb6 => .invokevirtual <$> readU16 code
  | 0xb7 => .invokespecial <$> readU16 code
  | 0xb8 => .invokestatic <$> readU16 code
  | 0xb9 => decodeInvokeinterface code
  | 0xba => decodeInvokedynamic code
  | 0xbb => .new <$> readU16 code
  | 0xbc => .newarray <$> readU8 code
  | 0xbd => .anewarray <$> readU16 code
  | 0xbe => pure .arraylength
  | 0xbf => pure .athrow
  | 0xc0 => .checkcast <$> readU16 code
  | 0xc1 => .instanceof <$> readU16 code
  | 0xc2 => pure .monitorenter
  | 0xc3 => pure .monitorexit
  | 0xc4 => decodeWide code
  | 0xc5 => do
    let index ← readU16 code
    let dimensions ← readU8 code
    pure (.multianewarray index dimensions)
  | 0xc6 => .ifnull <$> readI16 code
  | 0xc7 => .ifnonnull <$> readI16 code
  | 0xc8 => .gotoW <$> readI32 code
  | 0xc9 => .jsrW <$> readI32 code
  | _ => fail s!"unknown opcode: 0x{hexByte opcode.toNat} at pc {pc}"

def decode (code : List UInt8) (pc : Nat) : Except ClassReaderError (Instruction × Nat) := do
  let opcode ← byteAt code pc
  (decodeOperands code pc opcode).run (pc+1)

end Instruction
end CratonVM.Reader
