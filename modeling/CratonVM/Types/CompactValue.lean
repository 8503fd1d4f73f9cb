import Mathlib

/-!
NaN-boxed slots (`types/src/compact_value.rs`). A slot is one 64-bit word; longs and
doubles are stored raw in the same space as the tagged values, and the decoder is told
the declared type.
-/
namespace CratonVM.CompactValue
open BitVec

abbrev Word := BitVec 64

/-- `Value`, with floating-point numbers as their bit patterns. -/
inductive Value where
  | int (i : BitVec 32)
  | long (l : Word)
  | float (bits : BitVec 32)
  | double (bits : Word)
  | object (ref : Option Word)
  | returnAddress (pc : BitVec 32)
  | uninitialized
  deriving DecidableEq

def nanboxBits : Word := 0xFFFC000000000000

def subtagShift : Nat := 47

def payloadMask : Word := 0x7FFFFFFFFFFF

/-- The `SUB_*` constants, which fill the three bits of the sub-tag. -/
inductive SubTag where
  | int | float | object | null | uninit | retaddr | longLo | longHi
  deriving DecidableEq

def SubTag.code : SubTag → Word
  | .int => 0
  | .float => 1
  | .object => 2
  | .null => 3
  | .uninit => 4
  | .retaddr => 5
  | .longLo => 6
  | .longHi => 7

def SubTag.ofBits (b : Word) : SubTag :=
  if b = 0 then .int
  else if b = 1 then .float
  else if b = 2 then .object
  else if b = 3 then .null
  else if b = 4 then .uninit
  else if b = 5 then .retaddr
  else if b = 6 then .longLo
  else .longHi

def makeTagged (sub : SubTag) (payload : Word) : Word :=
  nanboxBits ||| sub.code <<< subtagShift ||| payload &&& payloadMask

def isNanTagged (v : Word) : Bool :=
  v &&& nanboxBits = nanboxBits

def payload (v : Word) : Word :=
  v &&& payloadMask

def subtag (v : Word) : SubTag :=
  .ofBits (v >>> subtagShift &&& 7)

/-- The set of 64-byte granules in which a reference was seen. -/
abbrev Provenance := Word → Bool

def plausibleHeapPointer (raw : Word) : Bool :=
  0x1000 ≤ raw && raw &&& 7 = 0 && raw ≤ payloadMask

def recordObjectRefPayload (known : Provenance) (raw : Word) : Provenance :=
  if plausibleHeapPointer raw then Function.update known (raw >>> 6) true else known

def objectRefPayloadIsKnown (known : Provenance) (raw : Word) : Bool :=
  plausibleHeapPointer raw && known (raw >>> 6)

def int (i : BitVec 32) : Word := makeTagged .int (i.setWidth 64)

def float (bits : BitVec 32) : Word := makeTagged .float (bits.setWidth 64)

def null : Word := makeTagged .null 0

def uninitialized : Word := makeTagged .uninit 0

def returnAddress (pc : BitVec 32) : Word := makeTagged .retaddr (pc.setWidth 64)

def canonicalNan : Word := 0x7FF8000000000000

def double (bits : Word) : Word :=
  if isNanTagged bits then canonicalNan else bits

def tryFromPointer (known : Provenance) (ptr : Word) : Option (Word × Provenance) :=
  if plausibleHeapPointer ptr then
    some (makeTagged .object ptr,recordObjectRefPayload known ptr)
  else none

/-- `from_value`, with the provenance table after the store. -/
def fromValue (known : Provenance) : Value → Word × Provenance
  | .int i => (int i,known)
  | .long l => (l,known)
  | .float f => (float f,known)
  | .double d => (double d,known)
  | .object (some r) => (tryFromPointer known r).getD (null,known)
  | .object none => (null,known)
  | .returnAddress pc => (returnAddress pc,known)
  | .uninitialized => (uninitialized,known)

def fromValueKinded (known : Provenance) : Value → Word × Provenance
  | .double d => (d,known)
  | other => fromValue known other

/-- The conversion `as f64` of an `i32`. -/
def i2d (i : BitVec 32) : Word := (Int32.ofBitVec i).toFloat.toBits.toBitVec

/-- The conversion `as f32` of an `i32`. -/
def i2f (i : BitVec 32) : BitVec 32 := (Int32.ofBitVec i).toFloat32.toBits.toBitVec

def toValue (known : Provenance) (v : Word) : Value :=
  let low := (payload v).setWidth 32
  let narrow := payload v >>> 32 = 0
  if !isNanTagged v then .double v
  else match subtag v with
    | .int => if narrow then .int low else .long v
    | .float => if narrow then .float low else .long v
    | .object =>
      if plausibleHeapPointer (payload v) && objectRefPayloadIsKnown known (payload v) then
        .object (some (payload v))
      else .long v
    | .null => if payload v = 0 then .object none else .long v
    | .uninit => if payload v = 0 then .uninitialized else .long v
    | .retaddr => if narrow then .returnAddress low else .long v
    | .longLo | .longHi => .long v

/-- The `b'J'` and `b'D'` arms of a tagged slot; `widen` converts an int. -/
def decodeWide (widen : BitVec 32 → Word) (v : Word) : Word :=
  match subtag v with
  | .int => if payload v >>> 32 = 0 then widen ((payload v).setWidth 32) else v
  | .null | .uninit => if payload v = 0 then 0 else v
  | _ => v

def decodeLong : Word → Word := decodeWide (signExtend 64)

def decodeDouble : Word → Word := decodeWide i2d

/-- The `b'F'` arm of a tagged slot. -/
def decodeFloat (known : Provenance) (v : Word) : Value :=
  match subtag v with
  | .int => .float (i2f ((payload v).setWidth 32))
  | .null | .uninit => .float 0
  | _ => toValue known v

/-- The arm of the integer descriptors of a tagged slot. -/
def decodeInt (known : Provenance) (v : Word) : Value :=
  match subtag v with
  | .null | .uninit => .int 0
  | _ => toValue known v

/-- The arm of the reference descriptors of a tagged slot. -/
def decodeReference (known : Provenance) (v : Word) : Value :=
  match subtag v with
  | .object =>
    if plausibleHeapPointer (payload v) && objectRefPayloadIsKnown known (payload v) then toValue known v
    else .object none
  | .null => toValue known v
  | _ => .object none

def decodeByDescriptor (known : Provenance) (v : Word) (desc : Char) : Value :=
  if desc = 'J' then .long (if isNanTagged v then decodeLong v else v)
  else if desc = 'D' then .double (if isNanTagged v then decodeDouble v else v)
  else if desc = 'F' then if isNanTagged v then decodeFloat known v else .float (v.setWidth 32)
  else if desc ∈ ['I','B','C','S','Z'] then
    if isNanTagged v then decodeInt known v else .int (v.setWidth 32)
  else if desc ∈ ['L','['] ∧ isNanTagged v then decodeReference known v
  else toValue known v

variable (sub : SubTag)

theorem isNanTagged_makeTagged (p : Word) : isNanTagged (makeTagged sub p) := by
  rw [isNanTagged,decide_eq_true_eq,makeTagged]
  ext i
  simp only [getElem_and,getElem_or]
  cases nanboxBits[i] <;> simp

theorem payload_makeTagged {p : Word} (hp : p &&& payloadMask = p) :
    payload (makeTagged sub p) = p := by
  have htag : nanboxBits &&& payloadMask = 0 ∧ sub.code <<< subtagShift &&& payloadMask = 0 := by
    cases sub <;> decide
  rw [payload,makeTagged,hp,BitVec.and_comm,and_or_distrib_left,and_or_distrib_left]
  rw [BitVec.and_comm _ nanboxBits,htag.1,BitVec.and_comm _ (_ <<< _),htag.2,BitVec.and_comm,hp]
  simp

theorem subtag_makeTagged {p : Word} (hp : p &&& payloadMask = p) :
    subtag (makeTagged sub p) = sub := by
  have hhigh : p >>> 47 = 0#64 := by
    rw [← hp,ushiftRight_and_distrib]
    exact BitVec.and_zero
  rw [subtag,makeTagged,hp,subtagShift,ushiftRight_or_distrib,hhigh,BitVec.or_zero]
  cases sub <;> decide

theorem SubTag.code_ofBits {b : Word} (hb : b ≤ 7) : (ofBits b).code = b := by
  unfold ofBits
  split_ifs
  all_goals
    simp only [code]
    bv_omega

/-- A tagged word is made of its sub-tag and its payload. -/
theorem eq_makeTagged {v : Word} (h : isNanTagged v) : v = makeTagged (subtag v) (payload v) := by
  have hbox : ∀ i < 64, nanboxBits.getLsbD i = decide (50 ≤ i) := by decide
  have hmask : ∀ i < 64, payloadMask.getLsbD i = decide (i < 47) := by decide
  have hseven : ∀ i < 64, (7 : Word).getLsbD i = decide (i < 3) := by decide
  have hle : v >>> subtagShift &&& 7 ≤ 7 := by
    rw [BitVec.le_def,toNat_and]
    exact Nat.and_le_right
  rw [makeTagged,subtag,SubTag.code_ofBits hle]
  refine eq_of_getLsbD_eq fun i hi => ?_
  have htag := congrArg (getLsbD · i) (of_decide_eq_true h)
  simp only [getLsbD_and,hbox i hi] at htag
  simp only [getLsbD_or,getLsbD_and,getLsbD_shiftLeft,getLsbD_ushiftRight,payload,hbox i hi,hmask i hi,
    subtagShift]
  rcases Nat.lt_or_ge i 47 with hlow | hlow
  · simp [hlow,show ¬50 ≤ i by omega]
  rw [hseven (i-47) (by omega),show 47+(i-47) = i by omega]
  rcases Nat.lt_or_ge i 50 with hmid | hmid
  · simp [hi,show ¬i < 47 by omega,show ¬50 ≤ i by omega,show i-47 < 3 by omega]
  · simpa [hmid] using htag

theorem and_payloadMask {p : Word} (h : p ≤ payloadMask) : p &&& payloadMask = p := by
  apply eq_of_toNat_eq
  rw [toNat_and,show payloadMask.toNat = 2^47-1 from rfl]
  exact Nat.and_two_pow_sub_one_of_lt_two_pow (by
    have := BitVec.le_def.mp h
    have : payloadMask.toNat = 2^47-1 := rfl
    omega)

section
variable {known : Provenance}
variable (i : BitVec 32)

theorem narrow_le : i.setWidth 64 ≤ payloadMask := by
  have := i.isLt
  rw [BitVec.le_def,toNat_setWidth,show payloadMask.toNat = 2^47-1 from rfl]
  omega

theorem narrow_high : i.setWidth 64 >>> 32 = 0 := by
  have := i.isLt
  apply eq_of_toNat_eq
  rw [toNat_ushiftRight,toNat_setWidth,Nat.shiftRight_eq_div_pow]
  change _ = 0
  omega

/-- What a decode of a slot of a 32-bit value sees. -/
theorem makeTagged_narrow (sub : SubTag) (i : BitVec 32) :
    isNanTagged (makeTagged sub (i.setWidth 64)) = true ∧ subtag (makeTagged sub (i.setWidth 64)) = sub ∧
      payload (makeTagged sub (i.setWidth 64)) >>> 32 = 0 ∧
      (payload (makeTagged sub (i.setWidth 64))).setWidth 32 = i := by
  have hle := and_payloadMask (narrow_le i)
  refine ⟨isNanTagged_makeTagged _ _,subtag_makeTagged _ hle,?_,?_⟩
  · rw [payload_makeTagged _ hle,narrow_high]
  rw [payload_makeTagged _ hle]
  simp

/-- The values that a slot of the declared type holds. -/
inductive Declared (known : Provenance) : Char → Value → Prop
  | long (l : Word) : Declared known 'J' (.long l)
  | double (d : Word) : Declared known 'D' (.double d)
  | float (f : BitVec 32) : Declared known 'F' (.float f)
  | int {desc : Char} (h : desc ∈ ['I','B','C','S','Z']) (i : BitVec 32) : Declared known desc (.int i)
  | null {desc : Char} (h : desc ∈ ['L','[']) : Declared known desc (.object none)
  | object {desc : Char} (h : desc ∈ ['L','[']) {p : Word} (hp : objectRefPayloadIsKnown known p = true) :
      Declared known desc (.object (some p))

/-- The word is also the slot of an int, of null or of nothing. -/
def Ambiguous (w : Word) : Prop :=
  (∃ i, w = int i) ∨ w = null ∨ w = uninitialized

def Value.Ambiguous : Value → Prop
  | .long w | .double w => CompactValue.Ambiguous w
  | _ => False

/-- Store a value and read it back as the declared type. -/
def readBack (known : Provenance) (v : Value) (desc : Char) : Value :=
  decodeByDescriptor (fromValueKinded known v).2 (fromValueKinded known v).1 desc

theorem eq_int {w : Word} (h : isNanTagged w = true) (hsub : subtag w = .int) (hp : payload w >>> 32 = 0) :
    w = int ((payload w).setWidth 32) := by
  have hlt : (payload w).toNat < 2^32 := by
    have := congrArg BitVec.toNat hp
    rw [toNat_ushiftRight,Nat.shiftRight_eq_div_pow] at this
    change _ = 0 at this
    omega
  have hsame : ((payload w).setWidth 32).setWidth 64 = payload w := by
    apply eq_of_toNat_eq
    rw [toNat_setWidth,toNat_setWidth]
    omega
  rw [int,hsame,← hsub]
  exact eq_makeTagged h

/-- The two arms that read a raw word change only an ambiguous one. -/
theorem not_ambiguous {w : Word} (hw : ¬Ambiguous w) (htag : isNanTagged w = true) :
    (subtag w = .int → payload w >>> 32 ≠ 0) ∧ (subtag w = .null ∨ subtag w = .uninit → payload w ≠ 0) := by
  refine ⟨fun hsub hp => hw (.inl ⟨_,eq_int htag hsub hp⟩),?_⟩
  rintro (hsub | hsub) hp
  · refine hw (.inr (.inl ?_))
    rw [null,← hsub,← hp]
    exact eq_makeTagged htag
  refine hw (.inr (.inr ?_))
  rw [uninitialized,← hsub,← hp]
  exact eq_makeTagged htag

theorem decodeWide_eq {widen : BitVec 32 → Word} {w : Word} (hw : ¬Ambiguous w)
    (htag : isNanTagged w = true) : decodeWide widen w = w := by
  obtain ⟨hint,hzero⟩ := not_ambiguous hw htag
  rw [decodeWide]
  cases hsub : subtag w with
  | int => exact if_neg (hint hsub)
  | null => exact if_neg (hzero (.inl hsub))
  | uninit => exact if_neg (hzero (.inr hsub))
  | _ => rfl

theorem decodeLong_int : decodeLong (int i) = i.signExtend 64 := by
  obtain ⟨-,hsub,hhigh,hlow⟩ := makeTagged_narrow .int i
  rw [decodeLong,decodeWide,int,hsub]
  dsimp only
  rw [if_pos hhigh,hlow]

theorem toValue_int : toValue known (int i) = .int i := by
  obtain ⟨htag,hsub,hhigh,hlow⟩ := makeTagged_narrow .int i
  rw [toValue,int,htag,hsub]
  dsimp only
  rw [if_neg (by decide),if_pos hhigh,hlow]

theorem toValue_float (f : BitVec 32) : toValue known (float f) = .float f := by
  obtain ⟨htag,hsub,hhigh,hlow⟩ := makeTagged_narrow .float f
  rw [toValue,float,htag,hsub]
  dsimp only
  rw [if_neg (by decide),if_pos hhigh,hlow]

theorem known_recordObjectRefPayload {p : Word} (h : plausibleHeapPointer p = true) :
    objectRefPayloadIsKnown (recordObjectRefPayload known p) p = true := by
  rw [objectRefPayloadIsKnown,recordObjectRefPayload,if_pos h,h,Function.update_self]
  rfl

theorem decodeReference_object {p : Word} (h : objectRefPayloadIsKnown known p = true) :
    decodeReference known (makeTagged .object p) = .object (some p) := by
  have hp : plausibleHeapPointer p = true := by
    rw [objectRefPayloadIsKnown,Bool.and_eq_true] at h
    exact h.1
  have hle : p &&& payloadMask = p := by
    rw [plausibleHeapPointer,Bool.and_eq_true,decide_eq_true_eq] at hp
    exact and_payloadMask hp.2
  rw [decodeReference,toValue,subtag_makeTagged _ hle,payload_makeTagged _ hle,isNanTagged_makeTagged,hp,h]
  rfl

theorem decodeReference_null : decodeReference known null = .object none := by
  have hsub : subtag null = .null := by decide
  have htag : isNanTagged null = true := by decide
  have hp : payload null = 0 := by decide
  simp [decodeReference,toValue,hsub,htag,hp]

section
variable {desc : Char} {v : Word} (ht : isNanTagged v = true)
include ht

theorem decode_int (h : desc ∈ ['I','B','C','S','Z']) :
    decodeByDescriptor known v desc = decodeInt known v := by
  fin_cases h <;> simp [decodeByDescriptor,ht]

theorem decode_reference (h : desc ∈ ['L','[']) :
    decodeByDescriptor known v desc = decodeReference known v := by
  fin_cases h <;> simp [decodeByDescriptor,ht]

theorem decode_float : decodeByDescriptor known v 'F' = decodeFloat known v := by
  simp [decodeByDescriptor,ht]

theorem decode_long : decodeByDescriptor known v 'J' = .long (decodeLong v) := by
  simp [decodeByDescriptor,ht]

end

/-- A value read back as its declared type is the stored one, but for a long that is also the slot of an
int, which is read as that int, or of null or nothing, which is read as zero. -/
theorem readBack_declared {desc : Char} {v : Value} (h : Declared known desc v) :
    (¬v.Ambiguous → readBack known v desc = v) ∧
      (∀ i, v = .long (int i) → readBack known v desc = .long (i.signExtend 64)) ∧
      (v = .long null ∨ v = .long uninitialized → readBack known v desc = .long 0) := by
  refine ⟨fun hv => ?_,?_,?_⟩
  · cases h with
    | long l =>
      change Value.long (if isNanTagged l then decodeLong l else l) = _
      split
      · rename_i htag
        rw [decodeLong,decodeWide_eq hv htag]
      · rfl
    | double d =>
      change Value.double (if isNanTagged d then decodeDouble d else d) = _
      split
      · rename_i htag
        rw [decodeDouble,decodeWide_eq hv htag]
      · rfl
    | float f =>
      have harm : readBack known (.float f) 'F' = decodeFloat known (float f) :=
        decode_float (isNanTagged_makeTagged _ _)
      rw [harm,decodeFloat,float,(makeTagged_narrow .float f).2.1]
      exact toValue_float f
    | int hdesc i =>
      have harm : readBack known (.int i) desc = decodeInt known (int i) :=
        decode_int (isNanTagged_makeTagged _ _) hdesc
      rw [harm,decodeInt,int,(makeTagged_narrow .int i).2.1]
      exact toValue_int i
    | null hdesc => exact (decode_reference (isNanTagged_makeTagged _ _) hdesc).trans decodeReference_null
    | @object _ hdesc p hp => ?_
    have hplaus : plausibleHeapPointer p = true := by
      rw [objectRefPayloadIsKnown,Bool.and_eq_true] at hp
      exact hp.1
    rw [readBack,fromValueKinded,fromValue,tryFromPointer,if_pos hplaus,Option.getD_some]
    · rw [decode_reference (isNanTagged_makeTagged _ _) hdesc]
      exact decodeReference_object (known_recordObjectRefPayload hplaus)
    · simp
  · rintro i rfl
    cases h
    have harm : readBack known (.long (int i)) 'J' = .long (decodeLong (int i)) :=
      decode_long (isNanTagged_makeTagged _ _)
    rw [harm,decodeLong_int]
  · rintro (rfl | rfl) <;> cases h
    · exact (decode_long (isNanTagged_makeTagged _ _)).trans (congrArg Value.long (by decide))
    · exact (decode_long (isNanTagged_makeTagged _ _)).trans (congrArg Value.long (by decide))

end

theorem readBack_declared_int : readBack (fun _ => false) (.int 7) 'I' = .int 7 :=
  (readBack_declared (.int (by decide) 7)).1 id

theorem not_readBack_long : ¬∀ known desc v, Declared known desc v → readBack known v desc = v := by
  intro h
  exact absurd (h (fun _ => false) _ _ (.long (int 1))) (by decide)

end CratonVM.CompactValue
