import CratonVM.Reader.LinearWalk

/-!
The encoding of JVMS 6.5 and 7, one form for an instruction or several, and that the decoder of
`reader/src/instruction.rs` takes every form back.
-/
namespace CratonVM.Reader.Instruction
open Outcome ByteReader List
section
/-- `n` bytes of a value, the most significant one first. -/
def bigEndian : (n v : Nat) → List UInt8
  | 0, _ => []
  | n+1, v => UInt8.ofNat (v/2^(8*n))::bigEndian n (v%2^(8*n))

/-- A signed value in two's complement. -/
def unsigned (w : Nat) (v : Int) : Nat := (v%2^w).toNat

def signedBytes (n : Nat) (v : Int) : List UInt8 := bigEndian n (unsigned (8*n) v)

def IsSigned (w : Nat) (v : Int) : Prop := -2^(w-1) ≤ v ∧ v < 2^(w-1)

instance (w : Nat) (v : Int) : Decidable (IsSigned w v) := inferInstanceAs (Decidable (_ ∧ _))

/-- The opcode of the form without `wide` and without an implied index. -/
def opcode : Instruction → UInt8
  | .nop => 0x00
  | .aconstNull => 0x01
  | .iconstM1 => 0x02
  | .iconst0 => 0x03
  | .iconst1 => 0x04
  | .iconst2 => 0x05
  | .iconst3 => 0x06
  | .iconst4 => 0x07
  | .iconst5 => 0x08
  | .lconst0 => 0x09
  | .lconst1 => 0x0a
  | .fconst0 => 0x0b
  | .fconst1 => 0x0c
  | .fconst2 => 0x0d
  | .dconst0 => 0x0e
  | .dconst1 => 0x0f
  | .bipush _ => 0x10
  | .sipush _ => 0x11
  | .ldc _ => 0x12
  | .ldcW _ => 0x13
  | .ldc2W _ => 0x14
  | .iload _ => 0x15
  | .lload _ => 0x16
  | .fload _ => 0x17
  | .dload _ => 0x18
  | .aload _ => 0x19
  | .iaload => 0x2e
  | .laload => 0x2f
  | .faload => 0x30
  | .daload => 0x31
  | .aaload => 0x32
  | .baload => 0x33
  | .caload => 0x34
  | .saload => 0x35
  | .istore _ => 0x36
  | .lstore _ => 0x37
  | .fstore _ => 0x38
  | .dstore _ => 0x39
  | .astore _ => 0x3a
  | .iastore => 0x4f
  | .lastore => 0x50
  | .fastore => 0x51
  | .dastore => 0x52
  | .aastore => 0x53
  | .bastore => 0x54
  | .castore => 0x55
  | .sastore => 0x56
  | .pop => 0x57
  | .pop2 => 0x58
  | .dup => 0x59
  | .dupX1 => 0x5a
  | .dupX2 => 0x5b
  | .dup2 => 0x5c
  | .dup2X1 => 0x5d
  | .dup2X2 => 0x5e
  | .swap => 0x5f
  | .iadd => 0x60
  | .ladd => 0x61
  | .fadd => 0x62
  | .dadd => 0x63
  | .isub => 0x64
  | .lsub => 0x65
  | .fsub => 0x66
  | .dsub => 0x67
  | .imul => 0x68
  | .lmul => 0x69
  | .fmul => 0x6a
  | .dmul => 0x6b
  | .idiv => 0x6c
  | .ldiv => 0x6d
  | .fdiv => 0x6e
  | .ddiv => 0x6f
  | .irem => 0x70
  | .lrem => 0x71
  | .frem => 0x72
  | .drem => 0x73
  | .ineg => 0x74
  | .lneg => 0x75
  | .fneg => 0x76
  | .dneg => 0x77
  | .ishl => 0x78
  | .lshl => 0x79
  | .ishr => 0x7a
  | .lshr => 0x7b
  | .iushr => 0x7c
  | .lushr => 0x7d
  | .iand => 0x7e
  | .land => 0x7f
  | .ior => 0x80
  | .lor => 0x81
  | .ixor => 0x82
  | .lxor => 0x83
  | .iinc _ _ => 0x84
  | .i2l => 0x85
  | .i2f => 0x86
  | .i2d => 0x87
  | .l2i => 0x88
  | .l2f => 0x89
  | .l2d => 0x8a
  | .f2i => 0x8b
  | .f2l => 0x8c
  | .f2d => 0x8d
  | .d2i => 0x8e
  | .d2l => 0x8f
  | .d2f => 0x90
  | .i2b => 0x91
  | .i2c => 0x92
  | .i2s => 0x93
  | .lcmp => 0x94
  | .fcmpl => 0x95
  | .fcmpg => 0x96
  | .dcmpl => 0x97
  | .dcmpg => 0x98
  | .ifeq _ => 0x99
  | .ifne _ => 0x9a
  | .iflt _ => 0x9b
  | .ifge _ => 0x9c
  | .ifgt _ => 0x9d
  | .ifle _ => 0x9e
  | .ifIcmpeq _ => 0x9f
  | .ifIcmpne _ => 0xa0
  | .ifIcmplt _ => 0xa1
  | .ifIcmpge _ => 0xa2
  | .ifIcmpgt _ => 0xa3
  | .ifIcmple _ => 0xa4
  | .ifAcmpeq _ => 0xa5
  | .ifAcmpne _ => 0xa6
  | .goto _ => 0xa7
  | .jsr _ => 0xa8
  | .ret _ => 0xa9
  | .tableswitch _ => 0xaa
  | .lookupswitch _ => 0xab
  | .ireturn => 0xac
  | .lreturn => 0xad
  | .freturn => 0xae
  | .dreturn => 0xaf
  | .areturn => 0xb0
  | .return_ => 0xb1
  | .getstatic _ => 0xb2
  | .putstatic _ => 0xb3
  | .getfield _ => 0xb4
  | .putfield _ => 0xb5
  | .invokevirtual _ => 0xb6
  | .invokespecial _ => 0xb7
  | .invokestatic _ => 0xb8
  | .invokeinterface _ _ => 0xb9
  | .invokedynamic _ => 0xba
  | .new _ => 0xbb
  | .newarray _ => 0xbc
  | .anewarray _ => 0xbd
  | .arraylength => 0xbe
  | .athrow => 0xbf
  | .checkcast _ => 0xc0
  | .instanceof _ => 0xc1
  | .monitorenter => 0xc2
  | .monitorexit => 0xc3
  | .wide => 0xc4
  | .multianewarray _ _ => 0xc5
  | .ifnull _ => 0xc6
  | .ifnonnull _ => 0xc7
  | .gotoW _ => 0xc8
  | .jsrW _ => 0xc9

def pairBytes (p : Int × Int) : List UInt8 := signedBytes 4 p.1++signedBytes 4 p.2

def tableBytes (t : TableSwitch) : List UInt8 :=
  signedBytes 4 t.default++(signedBytes 4 t.low++(signedBytes 4 t.high++t.offsets.flatMap (signedBytes 4)))

def lookupBytes (t : LookupSwitch) : List UInt8 :=
  signedBytes 4 t.default++(signedBytes 4 t.pairs.length++t.pairs.flatMap pairBytes)

/-- What stands behind the opcode; a switch begins with the padding. -/
def operands (pad : List UInt8) : Instruction → List UInt8
  | .bipush v => signedBytes 1 v
  | .sipush v | .ifeq v | .ifne v | .iflt v | .ifge v | .ifgt v | .ifle v | .ifIcmpeq v | .ifIcmpne v
  | .ifIcmplt v | .ifIcmpge v | .ifIcmpgt v | .ifIcmple v | .ifAcmpeq v | .ifAcmpne v | .goto v | .jsr v
  | .ifnull v | .ifnonnull v => signedBytes 2 v
  | .gotoW v | .jsrW v => signedBytes 4 v
  | .ldc n | .iload n | .lload n | .fload n | .dload n | .aload n | .istore n | .lstore n | .fstore n
  | .dstore n | .astore n | .ret n | .newarray n => bigEndian 1 n
  | .ldcW n | .ldc2W n | .getstatic n | .putstatic n | .getfield n | .putfield n | .invokevirtual n
  | .invokespecial n | .invokestatic n | .new n | .anewarray n | .checkcast n | .instanceof n => bigEndian 2 n
  | .iinc n c => bigEndian 1 n++signedBytes 1 c
  | .invokeinterface n count => bigEndian 2 n++(bigEndian 1 count++[0])
  | .invokedynamic n => bigEndian 2 n++[0,0]
  | .multianewarray n dimensions => bigEndian 2 n++bigEndian 1 dimensions
  | .tableswitch t => pad++tableBytes t
  | .lookupswitch t => pad++lookupBytes t
  | _ => []

/-- What stands behind `wide` and the opcode. -/
def wideOperands : Instruction → List UInt8
  | .iload n | .lload n | .fload n | .dload n | .aload n | .istore n | .lstore n | .fstore n | .dstore n
  | .astore n | .ret n => bigEndian 2 n
  | .iinc n c => bigEndian 2 n++signedBytes 2 c
  | _ => []

/-- The first of the four opcodes that imply an index, and the index. -/
def implied : Instruction → Option (UInt8 × Nat)
  | .iload n => some (0x1a,n)
  | .lload n => some (0x1e,n)
  | .fload n => some (0x22,n)
  | .dload n => some (0x26,n)
  | .aload n => some (0x2a,n)
  | .istore n => some (0x3b,n)
  | .lstore n => some (0x3f,n)
  | .fstore n => some (0x43,n)
  | .dstore n => some (0x47,n)
  | .astore n => some (0x4b,n)
  | _ => none

def Tabled : Instruction → Prop
  | .tableswitch t => t.low ≤ t.high ∧ (t.offsets.length : Int) = t.high-t.low+1
  | .lookupswitch t => t.pairs.length < 2^31
  | _ => True

/-- The fields are values of their types in the source. -/
def Typed : Instruction → Prop
  | .bipush v => IsSigned 8 v
  | .sipush v | .ifeq v | .ifne v | .iflt v | .ifge v | .ifgt v | .ifle v | .ifIcmpeq v | .ifIcmpne v
  | .ifIcmplt v | .ifIcmpge v | .ifIcmpgt v | .ifIcmple v | .ifAcmpeq v | .ifAcmpne v | .goto v | .jsr v
  | .ifnull v | .ifnonnull v => IsSigned 16 v
  | .gotoW v | .jsrW v => IsSigned 32 v
  | .ldc n | .newarray n => n < 2^8
  | .iload n | .lload n | .fload n | .dload n | .aload n | .istore n | .lstore n | .fstore n | .dstore n
  | .astore n | .ret n | .ldcW n | .ldc2W n | .getstatic n | .putstatic n | .getfield n | .putfield n
  | .invokevirtual n | .invokespecial n | .invokestatic n | .invokedynamic n | .new n | .anewarray n
  | .checkcast n | .instanceof n => n < 2^16
  | .iinc n c => n < 2^16 ∧ IsSigned 16 c
  | .invokeinterface n count => n < 2^16 ∧ count < 2^8
  | .multianewarray n dimensions => n < 2^16 ∧ dimensions < 2^8
  | .tableswitch t => IsSigned 32 t.default ∧ IsSigned 32 t.low ∧ IsSigned 32 t.high ∧
    ∀ v ∈ t.offsets, IsSigned 32 v
  | .lookupswitch t => IsSigned 32 t.default ∧ ∀ p ∈ t.pairs, IsSigned 32 p.1 ∧ IsSigned 32 p.2
  | _ => True

/-- The fields fit the form without `wide`. -/
def Narrow : Instruction → Prop
  | .iload n | .lload n | .fload n | .dload n | .aload n | .istore n | .lstore n | .fstore n | .dstore n
  | .astore n | .ret n => n < 2^8
  | .iinc n c => n < 2^8 ∧ IsSigned 8 c
  | _ => True

def Extensible : Instruction → Prop
  | .iload _ | .lload _ | .fload _ | .dload _ | .aload _ | .istore _ | .lstore _ | .fstore _ | .dstore _
  | .astore _ | .ret _ | .iinc _ _ => True
  | _ => False

inductive Encodes (pc : Nat) (insn : Instruction) : List UInt8 → Prop
  | ordinary (pad : List UInt8) (hinsn : insn ≠ .wide) (hnarrow : insn.Narrow) (hpad : pad.length = 3-pc%4) :
      Encodes pc insn (insn.opcode::insn.operands pad)
  | implied (base : UInt8) (n : Nat) (himplied : insn.implied = some (base,n)) (hn : n < 4) :
      Encodes pc insn [base+UInt8.ofNat n]
  | wide (hext : insn.Extensible) : Encodes pc insn (0xc4::insn.opcode::insn.wideOperands)

def switchEntries : Instruction → Nat
  | .tableswitch t => t.offsets.length
  | .lookupswitch t => t.pairs.length
  | _ => 0

end

section
variable {code : List UInt8} {pos n : Nat}

@[simp] theorem length_bigEndian (n v : Nat) : (bigEndian n v).length = n := by
  induction n generalizing v with
  | zero => rfl
  | succ n ih => rw [bigEndian,length_cons,ih]

@[simp] theorem length_signedBytes (n : Nat) (v : Int) : (signedBytes n v).length = n := length_bigEndian n _

theorem byteAt_of_get {b : UInt8} (h : code[pos]? = some b) : byteAt code pos = .ok b := by
  rw [byteAt,h]

theorem readBytes_bigEndian {v : Nat} (hv : v < 2^(8*n)) (h : Starts code pos (bigEndian n v)) :
    readBytes code n pos = .ok (v,pos+n) := by
  induction n generalizing v pos with
  | zero =>
    obtain rfl : v = 0 := by simpa using hv
    rfl
  | succ n ih => ?_
  have hhigh : v/2^(8*n) < 2^8 := by
    rw [Nat.div_lt_iff_lt_mul (by positivity),← Nat.pow_add]
    rwa [show 8*(n+1) = 8+8*n by ring] at hv
  obtain ⟨hbyte,hrest⟩ := starts_cons.mp h
  have hlow := ih (Nat.mod_lt v (by positivity)) hrest
  refine state_bind_eq_ok.mpr ⟨pos,pos,rfl,?_⟩
  have hget : (liftM (byteAt code pos) : Decode UInt8) pos = .ok (_,pos) :=
    bind_eq_ok.mpr ⟨_,byteAt_of_get hbyte,rfl⟩
  refine state_bind_eq_ok.mpr ⟨_,pos,hget,?_⟩
  refine state_bind_eq_ok.mpr ⟨_,pos+1,rfl,?_⟩
  refine state_bind_eq_ok.mpr ⟨_,_,hlow,state_pure_eq_ok.mpr ?_⟩
  rw [UInt8.toNat_ofNat',Nat.mod_eq_of_lt hhigh,Nat.div_add_mod',Nat.add_right_comm,Nat.add_assoc]

theorem unsigned_lt (w : Nat) (v : Int) : unsigned w v < 2^w := by
  unfold unsigned
  zify
  omega

theorem signed_unsigned {w : Nat} {v : Int} (hw : 0 < w) (h : IsSigned w v) : signed w (unsigned w v) = v := by
  obtain ⟨k,rfl⟩ : ∃ k, w = k+1 := ⟨w-1,by omega⟩
  obtain ⟨hlow,hhigh⟩ := h
  simp only [Nat.add_sub_cancel] at hlow hhigh
  have hcast : ((2^k : Nat) : Int) = 2^k := by rfl
  unfold signed unsigned
  rw [Nat.add_sub_cancel]
  by_cases hv : 0 ≤ v
  · rw [Int.emod_eq_of_lt hv (by omega),if_pos (by omega),Int.toNat_of_nonneg hv]
  have hmod : v%2^(k+1) = v+2^(k+1) := by
    rw [← Int.add_emod_right,Int.emod_eq_of_lt (by omega) (by omega)]
  omega

theorem map_run {α β : Type} {r : Decode α} {a : α} {next : Nat} (f : α → β) (h : r pos = .ok (a,next)) :
    (f <$> r) pos = .ok (f a,next) := by
  rw [map_eq_pure_bind]
  exact state_bind_eq_ok.mpr ⟨a,next,h,rfl⟩

theorem readSigned {v : Int} (hn : 0 < n) (hv : IsSigned (8*n) v) (h : Starts code pos (signedBytes n v)) :
    (signed (8*n) <$> readBytes code n) pos = .ok (v,pos+n) := by
  have hread := map_run (signed (8*n)) (readBytes_bigEndian (unsigned_lt (8*n) v) h)
  rwa [signed_unsigned (by omega) hv] at hread

theorem readI32_signedBytes {v : Int} (hv : IsSigned 32 v) (h : Starts code pos (signedBytes 4 v)) :
    readI32 code pos = .ok (v,pos+4) := readSigned (by decide) hv h

theorem readMany_flatMap {α : Type} (one : Decode α) {bytes : α → List UInt8} {l : List α}
    (hone : ∀ a ∈ l, ∀ pos, Starts code pos (bytes a) → one pos = .ok (a,pos+(bytes a).length))
    (h : Starts code pos (l.flatMap bytes)) :
    readMany one l.length pos = .ok (l,pos+(l.flatMap bytes).length) := by
  induction l generalizing pos with
  | nil => rfl
  | cons a l ih => ?_
  obtain ⟨hfirst,hrest⟩ := starts_append.mp h
  have htail := ih (fun b hb => hone b (mem_cons_of_mem a hb)) hrest
  refine state_bind_eq_ok.mpr ⟨a,_,hone a mem_cons_self pos hfirst,?_⟩
  refine state_bind_eq_ok.mpr ⟨l,_,htail,state_pure_eq_ok.mpr ?_⟩
  rw [flatMap_cons,length_append,Nat.add_assoc]

theorem length_of_starts {bytes : List UInt8} (h : Starts code pos bytes) : bytes.length ≤ code.length-pos := by
  have := h.length_le
  rwa [length_drop] at this

theorem checkRoom_of_starts {bytes : List UInt8} (h : Starts code pos bytes) :
    checkRoom code bytes.length pos = .ok ((),pos) := by
  refine state_bind_eq_ok.mpr ⟨pos,pos,rfl,?_⟩
  rw [if_neg (Nat.not_lt.mpr (length_of_starts h))]
  rfl

end

section
variable {code pad : List UInt8} {pc : Nat}

theorem alignSwitch_run (pc : Nat) : alignSwitch (pc+1) = .ok ((),pc+1+(3-pc%4)) := by
  show Except.ok ((),(pc+1+3)/4*4) = _
  rw [show (pc+1+3)/4*4 = pc+1+(3-pc%4) by omega]

theorem readPair {p : Int × Int} {pos : Nat} (hkey : IsSigned 32 p.1) (hoffset : IsSigned 32 p.2)
    (h : Starts code pos (pairBytes p)) :
    (do let key ← readI32 code
        let offset ← readI32 code
        pure (key,offset) : Decode (Int × Int)) pos = .ok (p,pos+(pairBytes p).length) := by
  obtain ⟨h1,h2⟩ := starts_append.mp h
  refine state_bind_eq_ok.mpr ⟨_,_,readI32_signedBytes hkey h1,?_⟩
  refine state_bind_eq_ok.mpr ⟨_,_,readI32_signedBytes hoffset h2,state_pure_eq_ok.mpr ?_⟩
  rw [pairBytes,length_append,length_signedBytes,length_signedBytes,Nat.add_assoc]

theorem length_flatMap_const {α : Type} {bytes : α → List UInt8} {k : Nat} (h : ∀ a, (bytes a).length = k)
    (l : List α) : (l.flatMap bytes).length = l.length*k := by
  induction l with
  | nil => simp
  | cons a l ih => rw [flatMap_cons,length_append,ih,h,length_cons,Nat.succ_mul,Nat.add_comm]

theorem decodeTableswitch_run {t : TableSwitch} (htyped : (tableswitch t).Typed)
    (htabled : (tableswitch t).Tabled) (hfew : t.offsets.length ≤ maxSwitchEntries)
    (hpad : pad.length = 3-pc%4) (h : Starts code (pc+1) (pad++tableBytes t)) :
    decodeTableswitch code (pc+1) = .ok (.tableswitch t,pc+1+(pad++tableBytes t).length) := by
  obtain ⟨hdefault,hlow,hhigh,hoffsets⟩ := htyped
  obtain ⟨hle,hcount⟩ := htabled
  obtain ⟨-,h⟩ := starts_append.mp h
  rw [hpad] at h
  obtain ⟨h1,h⟩ := starts_append.mp h
  obtain ⟨h2,h⟩ := starts_append.mp h
  obtain ⟨h3,h4⟩ := starts_append.mp h
  simp only [length_signedBytes] at h2 h3 h4
  have hroom := checkRoom_of_starts h4
  have hmany := readMany_flatMap (readI32 code)
    (fun v hv pos hs => by exact readI32_signedBytes (hoffsets v hv) hs) h4
  rw [length_flatMap_const (length_signedBytes 4)] at hroom
  refine state_bind_eq_ok.mpr ⟨_,_,alignSwitch_run pc,?_⟩
  refine state_bind_eq_ok.mpr ⟨_,_,readI32_signedBytes hdefault h1,?_⟩
  refine state_bind_eq_ok.mpr ⟨_,_,readI32_signedBytes hlow h2,?_⟩
  refine state_bind_eq_ok.mpr ⟨_,_,readI32_signedBytes hhigh h3,?_⟩
  have htoNat : (t.high-t.low+1).toNat = t.offsets.length := by omega
  rw [if_neg (by omega),if_neg (by omega),htoNat]
  refine state_bind_eq_ok.mpr ⟨_,_,hroom,?_⟩
  refine state_bind_eq_ok.mpr ⟨_,_,hmany,state_pure_eq_ok.mpr ?_⟩
  simp only [tableBytes,length_append,length_signedBytes,hpad,Nat.add_assoc]

theorem decodeLookupswitch_run {t : LookupSwitch} (htyped : (lookupswitch t).Typed)
    (hfew : t.pairs.length ≤ maxSwitchEntries) (hpad : pad.length = 3-pc%4)
    (h : Starts code (pc+1) (pad++lookupBytes t)) :
    decodeLookupswitch code (pc+1) = .ok (.lookupswitch t,pc+1+(pad++lookupBytes t).length) := by
  obtain ⟨hdefault,hpairs⟩ := htyped
  have hcount : IsSigned 32 t.pairs.length := by
    unfold maxSwitchEntries at hfew
    constructor <;> omega
  obtain ⟨-,h⟩ := starts_append.mp h
  rw [hpad] at h
  obtain ⟨h1,h⟩ := starts_append.mp h
  obtain ⟨h2,h3⟩ := starts_append.mp h
  simp only [length_signedBytes] at h2 h3
  have hroom := checkRoom_of_starts h3
  have hmany := readMany_flatMap _
    (fun p hp pos hs => readPair (hpairs p hp).1 (hpairs p hp).2 hs) h3
  rw [length_flatMap_const (k := 8) (fun p => by simp [pairBytes])] at hroom
  refine state_bind_eq_ok.mpr ⟨_,_,alignSwitch_run pc,?_⟩
  refine state_bind_eq_ok.mpr ⟨_,_,readI32_signedBytes hdefault h1,?_⟩
  refine state_bind_eq_ok.mpr ⟨_,_,readI32_signedBytes hcount h2,?_⟩
  rw [if_neg (by omega),if_neg (by omega),Int.toNat_natCast]
  refine state_bind_eq_ok.mpr ⟨_,_,hroom,?_⟩
  refine state_bind_eq_ok.mpr ⟨_,_,hmany,state_pure_eq_ok.mpr ?_⟩
  simp only [lookupBytes,length_append,length_signedBytes,hpad,Nat.add_assoc]

end

section
variable {code pad : List UInt8} {pc : Nat}

theorem run_u8 {n pos : Nat} (mk : Nat → Instruction) (hn : n < 2^8) (h : Starts code pos (bigEndian 1 n)) :
    (mk <$> readU8 code) pos = .ok (mk n,pos+(bigEndian 1 n).length) := by
  exact map_run mk (readBytes_bigEndian hn h)

theorem run_u16 {n pos : Nat} (mk : Nat → Instruction) (hn : n < 2^16) (h : Starts code pos (bigEndian 2 n)) :
    (mk <$> readU16 code) pos = .ok (mk n,pos+(bigEndian 2 n).length) := by
  exact map_run mk (readBytes_bigEndian hn h)

variable (mk : Int → Instruction)

theorem run_i8 {v : Int} {pos : Nat} (hv : IsSigned 8 v)
    (h : Starts code pos (signedBytes 1 v)) :
    (mk <$> readI8 code) pos = .ok (mk v,pos+(signedBytes 1 v).length) := by
  exact map_run mk (readSigned (by decide) hv h)

theorem run_i16 {v : Int} {pos : Nat} (hv : IsSigned 16 v)
    (h : Starts code pos (signedBytes 2 v)) :
    (mk <$> readI16 code) pos = .ok (mk v,pos+(signedBytes 2 v).length) := by
  exact map_run mk (readSigned (by decide) hv h)

theorem run_i32 {v : Int} {pos : Nat} (hv : IsSigned 32 v)
    (h : Starts code pos (signedBytes 4 v)) :
    (mk <$> readI32 code) pos = .ok (mk v,pos+(signedBytes 4 v).length) := by
  rw [length_signedBytes]
  exact map_run mk (readI32_signedBytes hv h)

theorem run_iinc {n pos : Nat} {c : Int} (hn : n < 2^8) (hc : IsSigned 8 c)
    (h : Starts code pos (bigEndian 1 n++signedBytes 1 c)) :
    (do let index ← readU8 code
        let constant ← readI8 code
        pure (.iinc index constant) : Decode Instruction) pos =
      .ok (.iinc n c,pos+(bigEndian 1 n++signedBytes 1 c).length) := by
  obtain ⟨h1,h2⟩ := starts_append.mp h
  refine state_bind_eq_ok.mpr ⟨_,_,readBytes_bigEndian hn h1,?_⟩
  exact state_bind_eq_ok.mpr ⟨_,_,readSigned (by decide) hc h2,rfl⟩

theorem run_wide_iinc {n pos : Nat} {c : Int} (hn : n < 2^16) (hc : IsSigned 16 c)
    (h : Starts code pos (bigEndian 2 n++signedBytes 2 c)) :
    (do let index ← readU16 code
        let constant ← readI16 code
        pure (.iinc index constant) : Decode Instruction) pos =
      .ok (.iinc n c,pos+(bigEndian 2 n++signedBytes 2 c).length) := by
  obtain ⟨h1,h2⟩ := starts_append.mp h
  refine state_bind_eq_ok.mpr ⟨_,_,readBytes_bigEndian hn h1,?_⟩
  exact state_bind_eq_ok.mpr ⟨_,_,readSigned (by decide) hc h2,rfl⟩

theorem run_multianewarray {n dimensions pos : Nat} (hn : n < 2^16) (hd : dimensions < 2^8)
    (h : Starts code pos (bigEndian 2 n++bigEndian 1 dimensions)) :
    (do let index ← readU16 code
        let dimensions ← readU8 code
        pure (.multianewarray index dimensions) : Decode Instruction) pos =
      .ok (.multianewarray n dimensions,pos+(bigEndian 2 n++bigEndian 1 dimensions).length) := by
  obtain ⟨h1,h2⟩ := starts_append.mp h
  refine state_bind_eq_ok.mpr ⟨_,_,readBytes_bigEndian hn h1,?_⟩
  exact state_bind_eq_ok.mpr ⟨_,_,readBytes_bigEndian hd h2,rfl⟩

theorem decodeInvokeinterface_run {n count pos : Nat} (hn : n < 2^16) (hcount : count < 2^8)
    (h : Starts code pos (bigEndian 2 n++(bigEndian 1 count++[0]))) :
    decodeInvokeinterface code pos =
      .ok (.invokeinterface n count,pos+(bigEndian 2 n++(bigEndian 1 count++[0])).length) := by
  obtain ⟨h1,h⟩ := starts_append.mp h
  obtain ⟨h2,h3⟩ := starts_append.mp h
  refine state_bind_eq_ok.mpr ⟨_,_,readBytes_bigEndian hn h1,?_⟩
  refine state_bind_eq_ok.mpr ⟨_,_,readBytes_bigEndian hcount h2,?_⟩
  exact state_bind_eq_ok.mpr ⟨0,_,readBytes_bigEndian (n := 1) (by decide) h3,rfl⟩

theorem decodeInvokedynamic_run {n pos : Nat} (hn : n < 2^16) (h : Starts code pos (bigEndian 2 n++[0,0])) :
    decodeInvokedynamic code pos = .ok (.invokedynamic n,pos+(bigEndian 2 n++[0,0]).length) := by
  obtain ⟨h1,h⟩ := starts_append.mp h
  obtain ⟨h2,h3⟩ := (@starts_append code _ [0] [0]).mp h
  refine state_bind_eq_ok.mpr ⟨_,_,readBytes_bigEndian hn h1,?_⟩
  refine state_bind_eq_ok.mpr ⟨0,_,readBytes_bigEndian (n := 1) (by decide) h2,?_⟩
  exact state_bind_eq_ok.mpr ⟨0,_,readBytes_bigEndian (n := 1) (by decide) h3,rfl⟩

/-- What reads the operands behind the opcode of an instruction of the same kind. -/
def operandReader (code : List UInt8) : Instruction → Decode Instruction
  | .bipush _ => .bipush <$> readI8 code
  | .sipush _ => .sipush <$> readI16 code
  | .ldc _ => .ldc <$> readU8 code
  | .ldcW _ => .ldcW <$> readU16 code
  | .ldc2W _ => .ldc2W <$> readU16 code
  | .iload _ => .iload <$> readU8 code
  | .lload _ => .lload <$> readU8 code
  | .fload _ => .fload <$> readU8 code
  | .dload _ => .dload <$> readU8 code
  | .aload _ => .aload <$> readU8 code
  | .istore _ => .istore <$> readU8 code
  | .lstore _ => .lstore <$> readU8 code
  | .fstore _ => .fstore <$> readU8 code
  | .dstore _ => .dstore <$> readU8 code
  | .astore _ => .astore <$> readU8 code
  | .iinc _ _ => do
    let index ← readU8 code
    let constant ← readI8 code
    pure (.iinc index constant)
  | .ifeq _ => .ifeq <$> readI16 code
  | .ifne _ => .ifne <$> readI16 code
  | .iflt _ => .iflt <$> readI16 code
  | .ifge _ => .ifge <$> readI16 code
  | .ifgt _ => .ifgt <$> readI16 code
  | .ifle _ => .ifle <$> readI16 code
  | .ifIcmpeq _ => .ifIcmpeq <$> readI16 code
  | .ifIcmpne _ => .ifIcmpne <$> readI16 code
  | .ifIcmplt _ => .ifIcmplt <$> readI16 code
  | .ifIcmpge _ => .ifIcmpge <$> readI16 code
  | .ifIcmpgt _ => .ifIcmpgt <$> readI16 code
  | .ifIcmple _ => .ifIcmple <$> readI16 code
  | .ifAcmpeq _ => .ifAcmpeq <$> readI16 code
  | .ifAcmpne _ => .ifAcmpne <$> readI16 code
  | .goto _ => .goto <$> readI16 code
  | .jsr _ => .jsr <$> readI16 code
  | .ret _ => .ret <$> readU8 code
  | .tableswitch _ => decodeTableswitch code
  | .lookupswitch _ => decodeLookupswitch code
  | .getstatic _ => .getstatic <$> readU16 code
  | .putstatic _ => .putstatic <$> readU16 code
  | .getfield _ => .getfield <$> readU16 code
  | .putfield _ => .putfield <$> readU16 code
  | .invokevirtual _ => .invokevirtual <$> readU16 code
  | .invokespecial _ => .invokespecial <$> readU16 code
  | .invokestatic _ => .invokestatic <$> readU16 code
  | .invokeinterface _ _ => decodeInvokeinterface code
  | .invokedynamic _ => decodeInvokedynamic code
  | .new _ => .new <$> readU16 code
  | .newarray _ => .newarray <$> readU8 code
  | .anewarray _ => .anewarray <$> readU16 code
  | .checkcast _ => .checkcast <$> readU16 code
  | .instanceof _ => .instanceof <$> readU16 code
  | .multianewarray _ _ => do
    let index ← readU16 code
    let dimensions ← readU8 code
    pure (.multianewarray index dimensions)
  | .ifnull _ => .ifnull <$> readI16 code
  | .ifnonnull _ => .ifnonnull <$> readI16 code
  | .gotoW _ => .gotoW <$> readI32 code
  | .jsrW _ => .jsrW <$> readI32 code
  | insn => pure insn

-- the opcode is a literal in each case, so the match on it evaluates
set_option maxRecDepth 4000 in
theorem decodeOperands_opcode {insn : Instruction} (hinsn : insn ≠ .wide) :
    decodeOperands code pc insn.opcode = insn.operandReader code := by
  cases insn with
  | wide => exact absurd rfl hinsn
  | _ => rfl

theorem decodeOperands_ordinary {insn : Instruction} (hinsn : insn ≠ .wide) (htyped : insn.Typed)
    (htabled : insn.Tabled) (hnarrow : insn.Narrow) (hfew : insn.switchEntries ≤ maxSwitchEntries)
    (hpad : pad.length = 3-pc%4) (h : Starts code (pc+1) (insn.operands pad)) :
    decodeOperands code pc insn.opcode (pc+1) = .ok (insn,pc+1+(insn.operands pad).length) := by
  rw [decodeOperands_opcode hinsn]
  cases insn with
  | ldcW n | ldc2W n | getstatic n | putstatic n | getfield n | putfield n | invokevirtual n
  | invokespecial n | invokestatic n | new n | anewarray n | checkcast n | instanceof n =>
    exact run_u16 _ htyped h
  | ldc n | newarray n => exact run_u8 _ htyped h
  | iload n | lload n | fload n | dload n | aload n | istore n | lstore n | fstore n
  | dstore n | astore n | ret n => exact run_u8 _ hnarrow h
  | sipush v | ifeq v | ifne v | iflt v | ifge v | ifgt v | ifle v | ifIcmpeq v | ifIcmpne v
  | ifIcmplt v | ifIcmpge v | ifIcmpgt v | ifIcmple v | ifAcmpeq v | ifAcmpne v | goto v | jsr v
  | ifnull v | ifnonnull v => exact run_i16 _ htyped h
  | gotoW v | jsrW v => exact run_i32 _ htyped h
  | tableswitch t => exact decodeTableswitch_run htyped htabled hfew hpad h
  | lookupswitch t => exact decodeLookupswitch_run htyped hfew hpad h
  | bipush v => exact run_i8 _ htyped h
  | iinc n c => exact run_iinc hnarrow.1 hnarrow.2 h
  | invokeinterface n count => exact decodeInvokeinterface_run htyped.1 htyped.2 h
  | invokedynamic n => exact decodeInvokedynamic_run htyped h
  | multianewarray n dimensions => exact run_multianewarray htyped.1 htyped.2 h
  | wide => exact absurd rfl hinsn
  | _ => rfl

set_option maxRecDepth 4000 in
theorem decodeOperands_implied {insn : Instruction} {base : UInt8} {n pos : Nat}
    (h : insn.implied = some (base,n)) (hn : n < 4) :
    decodeOperands code pc (base+UInt8.ofNat n) pos = .ok (insn,pos) := by
  obtain rfl | rfl | rfl | rfl : n = 0 ∨ n = 1 ∨ n = 2 ∨ n = 3 := by omega
  all_goals
    cases insn <;> simp only [implied,Option.some.injEq,Prod.mk.injEq,reduceCtorEq] at h
    all_goals
      obtain ⟨rfl,rfl⟩ := h
      rfl

theorem decodeWide_run {insn : Instruction} {pos : Nat} (hext : insn.Extensible) (htyped : insn.Typed)
    (h : Starts code pos (insn.opcode::insn.wideOperands)) :
    decodeWide code pos = .ok (insn,pos+(insn.opcode::insn.wideOperands).length) := by
  obtain ⟨h1,h2⟩ := (@starts_append code pos [insn.opcode] insn.wideOperands).mp h
  have hop : readU8 code pos = .ok (insn.opcode.toNat,pos+1) := by
    refine readBytes_bigEndian (n := 1) insn.opcode.toNat_lt ?_
    rw [bigEndian,bigEndian]
    simpa using h1
  refine state_bind_eq_ok.mpr ⟨_,_,hop,?_⟩
  rw [length_cons,show pos+(insn.wideOperands.length+1) = pos+1+insn.wideOperands.length by omega]
  cases insn with
  | iload n | lload n | fload n | dload n | aload n | istore n | lstore n | fstore n | dstore n
  | astore n | ret n => exact run_u16 _ htyped h2
  | iinc n c => exact run_wide_iinc htyped.1 htyped.2 h2
  | _ => exact hext.elim

theorem decode_of_encodes {insn : Instruction} {bytes : List UInt8} (h : Encodes pc insn bytes)
    (htyped : insn.Typed) (htabled : insn.Tabled) (hfew : insn.switchEntries ≤ maxSwitchEntries)
    (hs : Starts code pc bytes) : decode code pc = .ok (insn,pc+bytes.length) := by
  cases h with
  | ordinary pad hinsn hnarrow hpad =>
    obtain ⟨hop,hrest⟩ := starts_cons.mp hs
    have hrun := decodeOperands_ordinary hinsn htyped htabled hnarrow hfew hpad hrest
    refine bind_eq_ok.mpr ⟨_,byteAt_of_get hop,hrun.trans ?_⟩
    rw [length_cons,Nat.add_right_comm,Nat.add_assoc]
  | implied base n himplied hn =>
    obtain ⟨hop,-⟩ := starts_cons.mp hs
    exact bind_eq_ok.mpr ⟨_,byteAt_of_get hop,decodeOperands_implied himplied hn⟩
  | wide hext =>
    obtain ⟨hop,hrest⟩ := starts_cons.mp hs
    refine bind_eq_ok.mpr ⟨_,byteAt_of_get hop,(decodeWide_run hext htyped hrest).trans ?_⟩
    simp only [length_cons]
    rw [show pc+1+(insn.wideOperands.length+1) = pc+(insn.wideOperands.length+1+1) by omega]

theorem exists_encodes {insn : Instruction} (hinsn : insn ≠ .wide) (pc : Nat) : ∃ bytes, Encodes pc insn bytes := by
  by_cases h : insn.Narrow
  · exact ⟨_,.ordinary (replicate (3-pc%4) 0) hinsn h length_replicate⟩
  refine ⟨_,.wide ?_⟩
  cases insn <;> first | exact trivial | exact (h trivial).elim

end

section
variable {code : List UInt8} {α β : Type}

/-- A part of the decoder that ends inside the code if it begins there. -/
abbrev Inside (code : List UInt8) (m : Decode α) : Prop :=
  Triple (· ≤ code.length) m fun _ next => next ≤ code.length

/-- A part that ends inside the code with an instruction whose table is complete. -/
abbrev Sound (code : List UInt8) (m : Decode Instruction) : Prop :=
  Triple (· ≤ code.length) m fun insn next => next ≤ code.length ∧ insn.Tabled

theorem readBytes_inside (n : Nat) :
    Triple (fun _ => True) (readBytes code (n+1)) fun _ next => next ≤ code.length := by
  induction n with
  | zero => ?_
  | succ n ih =>
    intro s a t _ h
    obtain ⟨s0,s1,hget,hread⟩ := state_bind_eq_ok.mp h
    obtain ⟨b,s2,hbyte,hstep⟩ := state_bind_eq_ok.mp hread
    obtain ⟨u,s3,hset,htail⟩ := state_bind_eq_ok.mp hstep
    obtain ⟨rest,s4,hrest,hdone⟩ := state_bind_eq_ok.mp htail
    cases state_pure_eq_ok.mp hdone
    exact ih s3 rest _ trivial hrest
  intro s a t _ h
  obtain ⟨s0,s1,hget,hread⟩ := state_bind_eq_ok.mp h
  obtain ⟨b,s2,hbyte,hstep⟩ := state_bind_eq_ok.mp hread
  obtain ⟨u,s3,hset,htail⟩ := state_bind_eq_ok.mp hstep
  cases hset
  cases htail
  obtain ⟨_,hb,_⟩ := bind_eq_ok.mp hbyte
  unfold byteAt at hb
  split at hb
  · rename_i hsome
    exact (List.getElem?_eq_some_iff.mp hsome).1
  · cases hb

theorem map_inside {P : Nat → Prop} {m : Decode α} (f : α → β) (hm : Triple P m fun _ next => next ≤ code.length) :
    Triple P (f <$> m) fun _ next => next ≤ code.length := by
  rw [map_eq_pure_bind]
  exact hm.bind fun _ => Triple.pure fun _ h => h

theorem readU8_inside : Inside code (readU8 code) := (readBytes_inside 0).mono (fun _ _ => trivial) fun _ _ h => h
theorem readU16_inside : Inside code (readU16 code) := (readBytes_inside 1).mono (fun _ _ => trivial) fun _ _ h => h
theorem readI8_inside : Inside code (readI8 code) := map_inside _ readU8_inside
theorem readI16_inside : Inside code (readI16 code) := map_inside _ readU16_inside

theorem readI32_inside : Triple (fun _ => True) (readI32 code) fun _ next => next ≤ code.length :=
  map_inside _ (readBytes_inside 3)

theorem readI32_stays : Inside code (readI32 code) := (readI32_inside).mono (fun _ _ => trivial) fun _ _ h => h

theorem sound_fail (message : String) : Sound code (fail message) := by
  intro s a t _ h
  cases h

theorem sound_pure {insn : Instruction} (h : insn.Tabled) : Sound code (pure insn) :=
  Triple.pure fun _ hs => ⟨hs,h⟩

theorem sound_map {m : Decode α} {mk : α → Instruction} (hm : Inside code m) (h : ∀ a, (mk a).Tabled) :
    Sound code (mk <$> m) := by
  exact hm.bind fun a => sound_pure (h a)

theorem sound_u8 {mk : Nat → Instruction} (h : ∀ n, (mk n).Tabled) : Sound code (mk <$> readU8 code) :=
  sound_map readU8_inside h

theorem sound_u16 {mk : Nat → Instruction} (h : ∀ n, (mk n).Tabled) : Sound code (mk <$> readU16 code) :=
  sound_map readU16_inside h

theorem sound_i8 {mk : Int → Instruction} (h : ∀ v, (mk v).Tabled) : Sound code (mk <$> readI8 code) :=
  sound_map readI8_inside h

theorem sound_i16 {mk : Int → Instruction} (h : ∀ v, (mk v).Tabled) : Sound code (mk <$> readI16 code) :=
  sound_map readI16_inside h

theorem sound_i32 {mk : Int → Instruction} (h : ∀ v, (mk v).Tabled) : Sound code (mk <$> readI32 code) :=
  sound_map readI32_stays h

theorem readMany_inside {one : Decode α} (h : Inside code one) (n : Nat) :
    Triple (· ≤ code.length) (readMany one n) fun l next => next ≤ code.length ∧ l.length = n := by
  induction n with
  | zero => exact Triple.pure fun _ hs => ⟨hs,rfl⟩
  | succ n ih =>
    refine h.bind fun a => ih.bind fun l => Triple.pure fun s hs => ⟨hs.1,?_⟩
    rw [length_cons,hs.2]

theorem checkRoom_inside (size : Nat) : Inside code (checkRoom code size) := by
  intro s u t hs h
  obtain ⟨s0,s1,hget,hif⟩ := state_bind_eq_ok.mp h
  cases hget
  split at hif
  · cases hif
  cases hif
  exact hs

theorem decodeTableswitch_sound : Sound code (decodeTableswitch code) := by
  have halign : Triple (· ≤ code.length) alignSwitch fun _ _ => True := fun _ _ _ _ _ => trivial
  refine halign.bind fun _ => (readI32_inside).bind fun default => (readI32_stays).bind fun low =>
    (readI32_stays).bind fun high => ?_
  dsimp only
  split
  · exact sound_fail _
  rename_i hle
  split
  · exact sound_fail _
  refine (checkRoom_inside _).bind fun _ => (readMany_inside readI32_stays _).bind fun offsets =>
    Triple.pure fun s hs => ⟨hs.1,?_,?_⟩
  · exact Int.not_lt.mp hle
  dsimp only
  omega

theorem decodeLookupswitch_sound : Sound code (decodeLookupswitch code) := by
  have halign : Triple (· ≤ code.length) alignSwitch fun _ _ => True := fun _ _ _ _ _ => trivial
  refine halign.bind fun _ => (readI32_inside).bind fun default => (readI32_stays).bind fun npairs => ?_
  split
  · exact sound_fail _
  split
  · exact sound_fail _
  rename_i hfew
  have hpair : Inside code (do
      let key ← readI32 code
      let offset ← readI32 code
      pure (key,offset)) :=
    (readI32_stays).bind fun _ => (readI32_stays).bind fun _ => Triple.pure fun _ h => h
  refine (checkRoom_inside _).bind fun _ => (readMany_inside hpair _).bind fun pairs =>
    Triple.pure fun s hs => ⟨hs.1,?_⟩
  unfold maxSwitchEntries at hfew
  show pairs.length < 2^31
  omega

theorem decodeInvokeinterface_sound : Sound code (decodeInvokeinterface code) := by
  refine (readU16_inside).bind fun _ => (readU8_inside).bind fun _ => (readU8_inside).bind fun _ => ?_
  split
  · exact sound_fail _
  · exact sound_pure trivial

theorem decodeInvokedynamic_sound : Sound code (decodeInvokedynamic code) := by
  refine (readU16_inside).bind fun _ => (readU8_inside).bind fun _ => (readU8_inside).bind fun _ => ?_
  split
  · exact sound_fail _
  · exact sound_pure trivial

theorem decodeWide_sound : Sound code (decodeWide code) := by
  refine (readU8_inside).bind fun opcode => ?_
  rw [decodeWideForm]
  split
  case h_11 => exact (readU16_inside).bind fun _ => (readI16_inside).bind fun _ => sound_pure trivial
  case h_13 => exact sound_fail _
  all_goals exact sound_map readU16_inside fun _ => trivial

theorem sound_literal {opcode byte : UInt8} {yes : Decode Instruction} {no : ¬opcode = byte → Decode Instruction}
    (hyes : Sound code yes) (hno : ∀ h, Sound code (no h)) :
    Sound code (dite (opcode = byte) (@Eq.ndrec_symm _ _ (fun _ => Decode Instruction) yes _) no) := by
  by_cases h : opcode = byte
  · subst h
    rw [dif_pos rfl]
    exact hyes
  rw [dif_neg h]
  exact hno h

theorem decodeOperands_sound (pc : Nat) (opcode : UInt8) : Sound code (decodeOperands code pc opcode) := by
  unfold decodeOperands decodeOperands.match_1
  repeat' with_reducible refine sound_literal ?_ fun _ => ?_
  all_goals first
    | with_reducible refine sound_pure ?_
    | with_reducible refine sound_u8 fun _ => ?_
    | with_reducible refine sound_u16 fun _ => ?_
    | with_reducible refine sound_i8 fun _ => ?_
    | with_reducible refine sound_i16 fun _ => ?_
    | with_reducible refine sound_i32 fun _ => ?_
    | with_reducible exact decodeTableswitch_sound
    | with_reducible exact decodeLookupswitch_sound
    | with_reducible exact decodeInvokeinterface_sound
    | with_reducible exact decodeInvokedynamic_sound
    | with_reducible exact decodeWide_sound
    | with_reducible exact sound_fail _
    | with_reducible refine (readU8_inside).bind fun _ => (readI8_inside).bind fun _ => sound_pure ?_
    | with_reducible refine (readU16_inside).bind fun _ => (readU8_inside).bind fun _ => sound_pure ?_
  -- what is left is that an instruction without a table has a complete one
  all_goals exact trivial

theorem decode_sound {pc next : Nat} {insn : Instruction} (h : decode code pc = .ok (insn,next)) :
    next ≤ code.length ∧ insn.Tabled := by
  obtain ⟨opcode,hop,h⟩ := bind_eq_ok.mp h
  have hlt : pc < code.length := by
    unfold byteAt at hop
    split at hop
    · rename_i hsome
      exact (List.getElem?_eq_some_iff.mp hsome).1
    · cases hop
  exact decodeOperands_sound pc opcode (pc+1) insn next hlt h

end

section
/-- Every instruction but the mark of `wide` has a form at every position; each of its forms, with at most
as many switch entries as the decoder takes, is decoded to it inside any code; and whatever is decoded ends
behind its start and inside the code, with a complete table. -/
theorem decode_codec :
    (∀ insn : Instruction, insn ≠ .wide → ∀ pc, ∃ bytes, Encodes pc insn bytes) ∧
    (∀ (insn : Instruction) (before bytes after : List UInt8), insn.Typed → insn.Tabled →
      insn.switchEntries ≤ maxSwitchEntries → Encodes before.length insn bytes →
      decode (before++bytes++after) before.length = .ok (insn,before.length+bytes.length)) ∧
    (∀ (code : List UInt8) (pc next : Nat) (insn : Instruction), decode code pc = .ok (insn,next) →
      pc < next ∧ next ≤ code.length ∧ insn.Tabled) := by
  refine ⟨fun insn hinsn pc => exists_encodes hinsn pc,?_,?_⟩
  · intro insn before bytes after htyped htabled hfew h
    refine decode_of_encodes h htyped htabled hfew ?_
    unfold Starts
    rw [append_assoc,drop_left]
    exact prefix_append bytes after
  intro code pc next insn h
  exact ⟨decode_advances h,decode_sound h⟩

/-- A table of one entry more than the decoder takes. -/
def longTable : TableSwitch := ⟨0,0,16384,List.replicate 16385 0⟩

theorem longTable_not_decoded : (tableswitch longTable).Typed ∧ (tableswitch longTable).Tabled ∧
    Encodes 0 (.tableswitch longTable) ((tableswitch longTable).opcode::(tableswitch longTable).operands [0,0,0]) ∧
    ∀ r, decode ((tableswitch longTable).opcode::(tableswitch longTable).operands [0,0,0]) 0 ≠ .ok r := by
  refine ⟨⟨by decide,by decide,by decide,?_⟩,⟨by decide,?_⟩,?_,?_⟩
  · intro v hv
    rw [eq_of_mem_replicate hv]
    decide
  · show ((replicate 16385 (0 : Int)).length : Int) = _
    rw [length_replicate]
    rfl
  · exact .ordinary _ (by simp) trivial rfl
  have hfails : (decode ((tableswitch longTable).opcode::(tableswitch longTable).operands [0,0,0]) 0).isOk = false := by
    decide +kernel
  intro r h
  rw [h] at hfails
  cases hfails

end
end CratonVM.Reader.Instruction
