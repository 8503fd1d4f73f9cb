import CratonVM.Lib.ByteReader
import CratonVM.Reader.Instruction

/-!
The StackMapTable attribute (`reader/src/stack_map.rs`): its frames, the reader of its bytes and
the absolute offsets of its frames, against the encoding of JVMS 4.7.4. Positions are naturals:
`pos + 2` cannot leave a `usize` while `pos` lies within a slice.
-/
namespace CratonVM.Reader
open ByteReader List

inductive VerificationTypeInfo where
  | top
  | integer
  | float
  | double
  | long
  | null
  | uninitializedThis
  | object (cpoolIndex : UInt16)
  | uninitialized (offset : UInt16)
  deriving DecidableEq, Repr

inductive StackMapFrame where
  | sameFrame (offsetDelta : UInt16)
  | sameLocals1StackItem (offsetDelta : UInt16) (stack : VerificationTypeInfo)
  | sameLocals1StackItemExtended (offsetDelta : UInt16) (stack : VerificationTypeInfo)
  | chopFrame (offsetDelta : UInt16) (chopped : UInt8)
  | sameFrameExtended (offsetDelta : UInt16)
  | appendFrame (offsetDelta : UInt16) (locals : List VerificationTypeInfo)
  | fullFrame (offsetDelta : UInt16) (locals stack : List VerificationTypeInfo)
  deriving DecidableEq, Repr

structure StackMapTable where
  entries : List StackMapFrame
  deriving DecidableEq, Repr

namespace StackMapTable
abbrev Parse (α : Type) := Read ClassReaderError α

def endOfData (pos : Nat) : ClassReaderError :=
  .invalidClassData s!"StackMapTable: unexpected end of data at position {pos}"

def readU8 (data : List UInt8) : Parse UInt8 := fun pos =>
  match data[pos]? with
  | none => .error (endOfData pos)
  | some val => .ok (val,pos+1)

def fromBeBytes (hi lo : UInt8) : UInt16 := .ofNat (hi.toNat*256+lo.toNat)

def readU16 (data : List UInt8) : Parse UInt16 := fun pos =>
  match data[pos]?, data[pos+1]? with
  | some hi, some lo => .ok (fromBeBytes hi lo,pos+2)
  | _, _ => .error (endOfData pos)

def parseVerificationTypeBody (data : List UInt8) : (tag : Nat) → Parse VerificationTypeInfo
  | 0 => return .top
  | 1 => return .integer
  | 2 => return .float
  | 3 => return .double
  | 4 => return .long
  | 5 => return .null
  | 6 => return .uninitializedThis
  | 7 => do
    let cpoolIndex ← readU16 data
    return .object cpoolIndex
  | 8 => do
    let offset ← readU16 data
    return .uninitialized offset
  | tag => throw (.invalidClassData s!"StackMapTable: invalid verification type tag: {tag}")

def parseVerificationType (data : List UInt8) : Parse VerificationTypeInfo := do
  let tag ← readU8 data
  parseVerificationTypeBody data tag.toNat

def parseVerificationTypes (data : List UInt8) (count : Nat) :
    Parse (List VerificationTypeInfo) :=
  times parseVerificationType data count

/-- The rest of a frame behind its tag byte. -/
def parseFrameBody (data : List UInt8) (frameType : Nat) : Parse StackMapFrame :=
  if frameType ≤ 63 then return .sameFrame (.ofNat frameType)
  else if frameType ≤ 127 then do
    let stack ← parseVerificationType data
    return .sameLocals1StackItem (.ofNat (frameType-64)) stack
  else if frameType ≤ 246 then
    throw (.invalidClassData s!"StackMapTable: reserved frame type tag: {frameType}")
  else if frameType = 247 then do
    let offsetDelta ← readU16 data
    let stack ← parseVerificationType data
    return .sameLocals1StackItemExtended offsetDelta stack
  else if frameType ≤ 250 then do
    let offsetDelta ← readU16 data
    return .chopFrame offsetDelta (.ofNat (251-frameType))
  else if frameType = 251 then do
    let offsetDelta ← readU16 data
    return .sameFrameExtended offsetDelta
  else if frameType ≤ 254 then do
    let offsetDelta ← readU16 data
    let locals ← parseVerificationTypes data (frameType-251)
    return .appendFrame offsetDelta locals
  else do
    let offsetDelta ← readU16 data
    let numLocals ← readU16 data
    let locals ← parseVerificationTypes data numLocals.toNat
    let numStack ← readU16 data
    let stack ← parseVerificationTypes data numStack.toNat
    return .fullFrame offsetDelta locals stack

def parseFrame (data : List UInt8) : Parse StackMapFrame := do
  let frameType ← readU8 data
  parseFrameBody data frameType.toNat

def parseEntries (data : List UInt8) : Parse (List StackMapFrame) := do
  let numberOfEntries ← readU16 data
  times parseFrame data numberOfEntries.toNat

/-- Bytes behind the last frame are not looked at. -/
def parse (data : List UInt8) : Except ClassReaderError StackMapTable :=
  match parseEntries data 0 with
  | .ok (entries,_) => .ok ⟨entries⟩
  | .error e => .error e

def frameOffsetDelta : StackMapFrame → UInt16
  | .sameFrame offsetDelta
  | .sameLocals1StackItem offsetDelta _
  | .sameLocals1StackItemExtended offsetDelta _
  | .chopFrame offsetDelta _
  | .sameFrameExtended offsetDelta
  | .appendFrame offsetDelta _
  | .fullFrame offsetDelta _ _ => offsetDelta

def saturatingAdd (a b : Nat) : Nat := min (a+b) (2^32-1)

def absoluteOffsetsFrom :
    (idx : Nat) → (prev : Option Nat) → List StackMapFrame → Except ClassReaderError (List UInt16)
  | _, _, [] => .ok []
  | idx, prev, entry::rest =>
    let delta := (frameOffsetDelta entry).toNat
    let absolute := match prev with
      | none => delta
      | some p => saturatingAdd (saturatingAdd p delta) 1
    if absolute > 65535 then
      .error (.invalidClassData
        s!"StackMapTable: absolute offset {absolute} at frame {idx} exceeds u16::MAX (65535) — corrupt class file")
    else
      match absoluteOffsetsFrom (idx+1) (some absolute) rest with
      | .error e => .error e
      | .ok offsets => .ok (.ofNat absolute::offsets)

def absoluteOffsets (table : StackMapTable) : Except ClassReaderError (List UInt16) :=
  absoluteOffsetsFrom 0 none table.entries

end StackMapTable
end CratonVM.Reader
namespace CratonVM.Reader.StackMapTable
open ByteReader

def encodeU16 (v : UInt16) : List UInt8 := [.ofNat (v.toNat/256),.ofNat (v.toNat%256)]

def encodeType : VerificationTypeInfo → List UInt8
  | .top => [0]
  | .integer => [1]
  | .float => [2]
  | .double => [3]
  | .long => [4]
  | .null => [5]
  | .uninitializedThis => [6]
  | .object cpoolIndex => 7::encodeU16 cpoolIndex
  | .uninitialized offset => 8::encodeU16 offset

def encodeTypes (types : List VerificationTypeInfo) : List UInt8 := types.flatMap encodeType

def encodeCount (n : Nat) : List UInt8 := encodeU16 (.ofNat n)

def encodeFrame : StackMapFrame → List UInt8
  | .sameFrame offsetDelta => [.ofNat offsetDelta.toNat]
  | .sameLocals1StackItem offsetDelta stack => .ofNat (64+offsetDelta.toNat)::encodeType stack
  | .sameLocals1StackItemExtended offsetDelta stack => 247::(encodeU16 offsetDelta++encodeType stack)
  | .chopFrame offsetDelta chopped => .ofNat (251-chopped.toNat)::encodeU16 offsetDelta
  | .sameFrameExtended offsetDelta => 251::encodeU16 offsetDelta
  | .appendFrame offsetDelta locals =>
    .ofNat (251+locals.length)::(encodeU16 offsetDelta++encodeTypes locals)
  | .fullFrame offsetDelta locals stack =>
    255::(encodeU16 offsetDelta++(encodeCount locals.length++(encodeTypes locals++
      (encodeCount stack.length++encodeTypes stack))))

def encode (entries : List StackMapFrame) : List UInt8 :=
  encodeCount entries.length++entries.flatMap encodeFrame

/-- The frames the format has an encoding for. -/
def Legal : StackMapFrame → Prop
  | .sameFrame offsetDelta => offsetDelta.toNat ≤ 63
  | .sameLocals1StackItem offsetDelta _ => offsetDelta.toNat ≤ 63
  | .sameLocals1StackItemExtended _ _ => True
  | .chopFrame _ chopped => 1 ≤ chopped.toNat ∧ chopped.toNat ≤ 3
  | .sameFrameExtended _ => True
  | .appendFrame _ locals => 1 ≤ locals.length ∧ locals.length ≤ 3
  | .fullFrame _ locals stack => locals.length ≤ 65535 ∧ stack.length ≤ 65535

instance (f : StackMapFrame) : Decidable (Legal f) := by
  cases f <;> unfold Legal <;> infer_instance

section
@[simp] theorem length_encodeU16 (v : UInt16) : (encodeU16 v).length = 2 := rfl

theorem fromBeBytes_encode (v : UInt16) :
    fromBeBytes (.ofNat (v.toNat/256)) (.ofNat (v.toNat%256)) = v := by
  have hv := v.toNat_lt
  apply UInt16.toNat_inj.mp
  simp only [fromBeBytes,UInt16.toNat_ofNat',UInt8.toNat_ofNat']
  omega

theorem encodeU16_fromBeBytes (hi lo : UInt8) : encodeU16 (fromBeBytes hi lo) = [hi,lo] := by
  have hh := hi.toNat_lt
  have hl := lo.toNat_lt
  have hval : (fromBeBytes hi lo).toNat = hi.toNat*256+lo.toNat := by
    simp only [fromBeBytes,UInt16.toNat_ofNat']
    omega
  unfold encodeU16
  rw [hval,show (hi.toNat*256+lo.toNat)/256 = hi.toNat by omega,
    show (hi.toNat*256+lo.toNat)%256 = lo.toNat by omega]
  simp

theorem readU8_decodes : Decodes readU8 (fun b => [b]) (fun _ => True) := by
  intro data pos a stop
  simp only [readU8,starts_cons,starts_nil,List.length_singleton]
  cases data[pos]? <;> simp [eq_comm]

theorem readU16_decodes : Decodes readU16 encodeU16 (fun _ => True) := by
  intro data pos a stop
  simp only [readU16,length_encodeU16,true_and]
  constructor
  · intro h
    split at h
    · rename_i hi lo hhi hlo
      obtain ⟨rfl,rfl⟩ := h
      rw [encodeU16_fromBeBytes]
      simp [starts_cons,hhi,hlo]
    · cases h
  rintro ⟨h,rfl⟩
  simp only [encodeU16,starts_cons,starts_nil,and_true] at h
  simp [h.1,h.2,fromBeBytes_encode]

theorem toNat_ofNat_of_le {n : Nat} (h : n ≤ 65535) : (UInt16.ofNat n).toNat = n := by
  rw [UInt16.toNat_ofNat']
  omega

end

theorem tagged_decodes {α : Type} {body : List UInt8 → Nat → Parse α} {encode : α → List UInt8}
    {legal : α → Prop} (hne : ∀ a, encode a ≠ [])
    (h : ∀ data pos a stop, ∀ tag : UInt8, body data tag.toNat pos = .ok (a,stop) ↔
      legal a ∧ ∃ bytes, encode a = tag::bytes ∧ Starts data pos bytes ∧ stop = pos+bytes.length) :
    Decodes (fun data => readU8 data >>= fun tag => body data tag.toNat) encode legal := by
  intro data pos a stop
  simp only [bind_ok,readU8_decodes data,h,true_and,List.length_singleton]
  constructor
  · rintro ⟨tag,_,⟨htag,rfl⟩,hl,bytes,he,hb,rfl⟩
    rw [he]
    exact ⟨hl,starts_append.mpr ⟨htag,hb⟩,by simp only [List.length_cons]; omega⟩
  rintro ⟨hl,hs,rfl⟩
  obtain ⟨tag,bytes,he⟩ := List.exists_cons_of_ne_nil (hne a)
  rw [he] at hs ⊢
  obtain ⟨htag,hb⟩ := (@starts_append data pos [tag] bytes).mp hs
  exact ⟨tag,_,⟨htag,rfl⟩,hl,bytes,rfl,hb,by simp only [List.length_cons]; omega⟩

variable {tag : UInt8}

theorem eq_ofNat_of_toNat {n : Nat} (h : tag.toNat = n) : tag = .ofNat n := by
  rw [← h,UInt8.ofNat_toNat]

theorem parseVerificationTypeBody_ok (data : List UInt8) (pos : Nat) (a : VerificationTypeInfo)
    (stop : Nat) (tag : UInt8) :
    parseVerificationTypeBody data tag.toNat pos = .ok (a,stop) ↔ True ∧
      ∃ bytes, encodeType a = tag::bytes ∧ Starts data pos bytes ∧ stop = pos+bytes.length := by
  rw [true_and]
  constructor
  · intro h
    generalize hn : tag.toNat = n at h
    unfold parseVerificationTypeBody at h
    split at h
    case h_10 => exact absurd h throw_ok
    all_goals
      obtain rfl := eq_ofNat_of_toNat hn
      simp only [bind_ok,pure_ok,readU16_decodes data,true_and] at h
    case h_8 | h_9 =>
      obtain ⟨v,_,⟨hv,rfl⟩,rfl,rfl⟩ := h
      exact ⟨_,rfl,hv,rfl⟩
    all_goals
      obtain ⟨rfl,rfl⟩ := h
      exact ⟨[],rfl,starts_nil _ _,rfl⟩
  rintro ⟨bytes,he,hs,rfl⟩
  cases a with
  | object v | uninitialized v =>
    obtain ⟨rfl,rfl⟩ := List.cons.inj he
    exact bind_ok.mpr ⟨v,_,(readU16_decodes data pos v _).mpr ⟨trivial,hs,rfl⟩,rfl⟩
  | _ =>
    obtain ⟨rfl,rfl⟩ := List.cons.inj he
    rfl

theorem parseVerificationType_decodes :
    Decodes parseVerificationType encodeType (fun _ => True) :=
  tagged_decodes (by intro a; cases a <;> simp [encodeType]) parseVerificationTypeBody_ok

variable {data : List UInt8} {pos stop : Nat}

theorem parseVerificationTypes_ok {count : Nat}
    {types : List VerificationTypeInfo} :
    parseVerificationTypes data count pos = .ok (types,stop) ↔ types.length = count ∧
      Starts data pos (encodeTypes types) ∧ stop = pos+(encodeTypes types).length := by
  have h := times_decodes parseVerificationType_decodes count data pos types stop
  simpa [parseVerificationTypes,encodeTypes] using h

theorem encodeFrame_ne_nil (f : StackMapFrame) : encodeFrame f ≠ [] := by
  cases f <;> simp [encodeFrame]

theorem encodeCount_toNat (count : UInt16) : encodeCount count.toNat = encodeU16 count := by
  rw [encodeCount,UInt16.ofNat_toNat]

theorem parseFrameBody_sound {f : StackMapFrame}
    (h : parseFrameBody data tag.toNat pos = .ok (f,stop)) :
    Legal f ∧ ∃ bytes, encodeFrame f = tag::bytes ∧ Starts data pos bytes ∧
      stop = pos+bytes.length := by
  have htag := tag.toNat_lt
  generalize hn : tag.toNat = n at h htag
  obtain rfl := eq_ofNat_of_toNat hn
  unfold parseFrameBody at h
  split at h
  · rename_i hle
    obtain ⟨rfl,rfl⟩ := pure_ok.mp h
    have hv := @toNat_ofNat_of_le n (by omega)
    refine ⟨?_,[],?_,starts_nil _ _,rfl⟩
    · simpa [Legal,hv] using hle
    · simp [encodeFrame,hv]
  split at h
  · simp only [bind_ok,pure_ok,parseVerificationType_decodes data,true_and] at h
    obtain ⟨stack,_,⟨hs,rfl⟩,rfl,rfl⟩ := h
    have hv := @toNat_ofNat_of_le (n-64) (by omega)
    refine ⟨?_,_,?_,hs,rfl⟩
    · simp only [Legal,hv]
      omega
    simp only [encodeFrame,hv]
    rw [show 64+(n-64) = n by omega]
  split at h
  · exact absurd h throw_ok
  split at h
  · rename_i heq
    subst heq
    simp only [bind_ok,pure_ok,readU16_decodes data,parseVerificationType_decodes data,
      true_and] at h
    obtain ⟨delta,_,⟨hd,rfl⟩,stack,_,⟨hs,rfl⟩,rfl,rfl⟩ := h
    exact ⟨trivial,_,rfl,starts_append.mpr ⟨hd,hs⟩,by simp [Nat.add_assoc]⟩
  split at h
  · simp only [bind_ok,pure_ok,readU16_decodes data,true_and] at h
    obtain ⟨delta,_,⟨hd,rfl⟩,rfl,rfl⟩ := h
    have hv : (UInt8.ofNat (251-n)).toNat = 251-n := by
      rw [UInt8.toNat_ofNat']
      omega
    refine ⟨?_,_,?_,hd,rfl⟩
    · simp only [Legal,hv]
      omega
    simp only [encodeFrame,hv]
    rw [show 251-(251-n) = n by omega]
  split at h
  · rename_i heq
    subst heq
    simp only [bind_ok,pure_ok,readU16_decodes data,true_and] at h
    obtain ⟨delta,_,⟨hd,rfl⟩,rfl,rfl⟩ := h
    exact ⟨trivial,_,rfl,hd,rfl⟩
  split at h
  · simp only [bind_ok,pure_ok,readU16_decodes data,parseVerificationTypes_ok,true_and] at h
    obtain ⟨delta,_,⟨hd,rfl⟩,locals,_,⟨hlen,hs,rfl⟩,rfl,rfl⟩ := h
    refine ⟨?_,_,?_,starts_append.mpr ⟨hd,hs⟩,by simp [Nat.add_assoc]⟩
    · simp only [Legal,hlen]
      omega
    simp only [encodeFrame,hlen]
    rw [show 251+(n-251) = n by omega]
  obtain rfl : n = 255 := by omega
  simp only [bind_ok,pure_ok,readU16_decodes data,parseVerificationTypes_ok,true_and] at h
  obtain ⟨delta,_,⟨hd,rfl⟩,nl,_,⟨hnl,rfl⟩,locals,_,⟨hlen,hl,rfl⟩,ns,_,⟨hns,rfl⟩,stack,_,
    ⟨hlen',hs,rfl⟩,rfl,rfl⟩ := h
  have h1 := nl.toNat_lt
  have h2 := ns.toNat_lt
  refine ⟨?_,_,rfl,?_,?_⟩
  · simp only [Legal,hlen,hlen']
    omega
  · simp only [starts_append,hlen,hlen',encodeCount_toNat,length_encodeU16] at *
    exact ⟨hd,hnl,hl,hns,hs⟩
  simp [hlen,hlen',encodeCount_toNat]
  omega

theorem readU16_of_starts {v : UInt16}
    (h : Starts data pos (encodeU16 v)) : readU16 data pos = .ok (v,pos+2) :=
  (readU16_decodes data pos v _).mpr ⟨trivial,h,rfl⟩

theorem parseVerificationType_of_starts {a : VerificationTypeInfo}
    (h : Starts data pos (encodeType a)) :
    parseVerificationType data pos = .ok (a,pos+(encodeType a).length) :=
  (parseVerificationType_decodes data pos a _).mpr ⟨trivial,h,rfl⟩

theorem parseFrameBody_complete {bytes : List UInt8} {f : StackMapFrame} (hl : Legal f) (he : encodeFrame f = tag::bytes) (hs : Starts data pos bytes) :
    parseFrameBody data tag.toNat pos = .ok (f,pos+bytes.length) := by
  unfold parseFrameBody
  cases f with
  | sameFrame delta =>
    obtain ⟨rfl,rfl⟩ := List.cons.inj he
    have hle : delta.toNat ≤ 63 := hl
    have ht : (UInt8.ofNat delta.toNat).toNat = delta.toNat := by
      rw [UInt8.toNat_ofNat']
      omega
    rw [ht,if_pos hle,UInt16.ofNat_toNat]
    rfl
  | sameLocals1StackItem delta stack =>
    obtain ⟨rfl,rfl⟩ := List.cons.inj he
    have hle : delta.toNat ≤ 63 := hl
    have ht : (UInt8.ofNat (64+delta.toNat)).toNat = 64+delta.toNat := by
      rw [UInt8.toNat_ofNat']
      omega
    rw [ht,if_neg (by omega),if_pos (by omega),Nat.add_sub_cancel_left,UInt16.ofNat_toNat]
    exact bind_ok.mpr ⟨stack,_,parseVerificationType_of_starts hs,rfl⟩
  | sameLocals1StackItemExtended delta stack =>
    obtain ⟨rfl,rfl⟩ := List.cons.inj he
    obtain ⟨hd,hs⟩ := starts_append.mp hs
    refine bind_ok.mpr ⟨delta,_,readU16_of_starts hd,bind_ok.mpr
      ⟨stack,_,parseVerificationType_of_starts hs,pure_ok.mpr ⟨rfl,?_⟩⟩⟩
    simp [Nat.add_assoc]
  | chopFrame delta chopped =>
    obtain ⟨rfl,rfl⟩ := List.cons.inj he
    obtain ⟨h1,h3⟩ : 1 ≤ chopped.toNat ∧ chopped.toNat ≤ 3 := hl
    have ht : (UInt8.ofNat (251-chopped.toNat)).toNat = 251-chopped.toNat := by
      rw [UInt8.toNat_ofNat']
      omega
    rw [ht,if_neg (by omega),if_neg (by omega),if_neg (by omega),if_neg (by omega),
      if_pos (by omega),show 251-(251-chopped.toNat) = chopped.toNat by omega,UInt8.ofNat_toNat]
    exact bind_ok.mpr ⟨delta,_,readU16_of_starts hs,rfl⟩
  | sameFrameExtended delta =>
    obtain ⟨rfl,rfl⟩ := List.cons.inj he
    exact bind_ok.mpr ⟨delta,_,readU16_of_starts hs,rfl⟩
  | appendFrame delta locals => ?_
  | fullFrame delta locals stack =>
    obtain ⟨rfl,rfl⟩ := List.cons.inj he
    obtain ⟨hll,hls⟩ : locals.length ≤ 65535 ∧ stack.length ≤ 65535 := hl
    simp only [starts_append] at hs
    obtain ⟨hd,hnl,hlocals,hns,hstack⟩ := hs
    refine bind_ok.mpr ⟨delta,_,readU16_of_starts hd,bind_ok.mpr ⟨_,_,readU16_of_starts hnl,
      bind_ok.mpr ⟨locals,_,(parseVerificationTypes_ok).mpr ⟨(toNat_ofNat_of_le hll).symm,hlocals,rfl⟩,
      bind_ok.mpr ⟨_,_,readU16_of_starts hns,bind_ok.mpr ⟨stack,_,
        (parseVerificationTypes_ok).mpr ⟨(toNat_ofNat_of_le hls).symm,hstack,rfl⟩,
        pure_ok.mpr ⟨rfl,?_⟩⟩⟩⟩⟩⟩
    simp [encodeCount]
    omega
  obtain ⟨rfl,rfl⟩ := List.cons.inj he
  obtain ⟨h1,h3⟩ : 1 ≤ locals.length ∧ locals.length ≤ 3 := hl
  have ht : (UInt8.ofNat (251+locals.length)).toNat = 251+locals.length := by
    rw [UInt8.toNat_ofNat']
    omega
  rw [ht,if_neg (by omega),if_neg (by omega),if_neg (by omega),if_neg (by omega),
    if_neg (by omega),if_neg (by omega),if_pos (by omega),Nat.add_sub_cancel_left]
  obtain ⟨hd,hs⟩ := starts_append.mp hs
  refine bind_ok.mpr ⟨delta,_,readU16_of_starts hd,bind_ok.mpr
    ⟨locals,_,(parseVerificationTypes_ok).mpr ⟨rfl,hs,rfl⟩,pure_ok.mpr ⟨rfl,?_⟩⟩⟩
  simp [Nat.add_assoc]

theorem parseFrame_decodes : Decodes parseFrame encodeFrame Legal := by
  refine tagged_decodes encodeFrame_ne_nil fun data pos f stop tag => ⟨parseFrameBody_sound,?_⟩
  rintro ⟨hl,bytes,he,hs,rfl⟩
  exact parseFrameBody_complete hl he hs

variable {entries : List StackMapFrame}

theorem parseEntries_ok :
    parseEntries data pos = .ok (entries,stop) ↔
      (entries.length ≤ 65535 ∧ ∀ f ∈ entries, Legal f) ∧ Starts data pos (encode entries) ∧
        stop = pos+(encode entries).length := by
  have hframes : ∀ n mid, times parseFrame data n mid = .ok (entries,stop) ↔ _ :=
    fun n mid => times_decodes parseFrame_decodes n data mid entries stop
  simp only [parseEntries,bind_ok,readU16_decodes data,hframes,true_and,encode,starts_append,
    List.length_append]
  constructor
  · rintro ⟨n,_,⟨hn,rfl⟩,⟨hlen,hl⟩,hs,rfl⟩
    have := n.toNat_lt
    rw [hlen,encodeCount_toNat]
    exact ⟨⟨by omega,hl⟩,⟨hn,hs⟩,Nat.add_assoc _ _ _⟩
  rintro ⟨⟨hle,hl⟩,⟨hn,hs⟩,rfl⟩
  exact ⟨_,_,⟨hn,rfl⟩,⟨(toNat_ofNat_of_le hle).symm,hl⟩,hs,(Nat.add_assoc _ _ _).symm⟩

theorem parse_eq_ok :
    parse data = .ok ⟨entries⟩ ↔
      (entries.length ≤ 65535 ∧ ∀ f ∈ entries, Legal f) ∧ encode entries <+: data := by
  have hstart : encode entries <+: data ↔ Starts data 0 (encode entries) := by simp [Starts]
  rw [hstart]
  unfold parse
  cases h : parseEntries data 0 with
  | error e =>
    constructor
    · intro h'
      cases h'
    rintro ⟨hl,hs⟩
    rw [(parseEntries_ok).mpr ⟨hl,hs,rfl⟩] at h
    cases h
  | ok p => ?_
  obtain ⟨read,stop⟩ := p
  constructor
  · intro h'
    obtain rfl : read = entries := by simpa using h'
    obtain ⟨hl,hs,-⟩ := (parseEntries_ok).mp h
    exact ⟨hl,hs⟩
  rintro ⟨hl,hs⟩
  rw [(parseEntries_ok).mpr ⟨hl,hs,rfl⟩] at h
  cases h
  rfl

def nextOffset (prev : Option Nat) (f : StackMapFrame) : Nat :=
  match prev with
  | none => (frameOffsetDelta f).toNat
  | some p => p+(frameOffsetDelta f).toNat+1

def runningSums : (prev : Option Nat) → List StackMapFrame → List Nat
  | _, [] => []
  | prev, f::rest => nextOffset prev f::runningSums (some (nextOffset prev f)) rest

theorem lt_of_mem_runningSums {p s : Nat}
    (h : s ∈ runningSums (some p) entries) : p < s := by
  induction entries generalizing p with
  | nil => simp [runningSums] at h
  | cons f rest ih => ?_
  simp only [runningSums,nextOffset,List.mem_cons] at h
  rcases h with rfl | h
  · omega
  have := ih h
  omega

theorem runningSums_pairwise (prev : Option Nat) (entries : List StackMapFrame) :
    (runningSums prev entries).Pairwise (· < ·) := by
  induction entries generalizing prev with
  | nil => simp [runningSums]
  | cons f rest ih => exact List.pairwise_cons.mpr ⟨fun s => lt_of_mem_runningSums,ih _⟩

/-- Neither addition of the loop saturates: an offset behind one that passed the check is far
below `u32::MAX`. -/
theorem saturating_nextOffset {p : Nat} (hp : p ≤ 65535) (f : StackMapFrame) :
    saturatingAdd (saturatingAdd p (frameOffsetDelta f).toNat) 1 = nextOffset (some p) f := by
  have := (frameOffsetDelta f).toNat_lt
  simp only [saturatingAdd,nextOffset]
  omega

variable {idx : Nat} {prev : Option Nat}

section
variable (hprev : ∀ p ∈ prev, p ≤ 65535)
include hprev

theorem absoluteOffsetsFrom_cons
    (f : StackMapFrame) (rest : List StackMapFrame) :
    absoluteOffsetsFrom idx prev (f::rest) =
      if nextOffset prev f > 65535 then
        .error (.invalidClassData
          s!"StackMapTable: absolute offset {nextOffset prev f} at frame {idx} exceeds u16::MAX (65535) — corrupt class file")
      else
        match absoluteOffsetsFrom (idx+1) (some (nextOffset prev f)) rest with
        | .error e => .error e
        | .ok offsets => .ok (.ofNat (nextOffset prev f)::offsets) := by
  cases prev with
  | none => rfl
  | some p =>
    rw [← saturating_nextOffset (hprev p rfl)]
    rfl

theorem absoluteOffsetsFrom_ok (h : ∀ s ∈ runningSums prev entries, s ≤ 65535) :
    absoluteOffsetsFrom idx prev entries = .ok ((runningSums prev entries).map UInt16.ofNat) := by
  induction entries generalizing idx prev with
  | nil => rfl
  | cons f rest ih =>
    simp only [runningSums,List.mem_cons,forall_eq_or_imp] at h
    rw [absoluteOffsetsFrom_cons hprev,if_neg (by omega),ih (by simpa using h.1) h.2]
    rfl

theorem absoluteOffsetsFrom_error (h : ∃ s ∈ runningSums prev entries, 65535 < s) :
    ∃ e, absoluteOffsetsFrom idx prev entries = .error e := by
  induction entries generalizing idx prev with
  | nil => simp [runningSums] at h
  | cons f rest ih => ?_
  rw [absoluteOffsetsFrom_cons hprev]
  by_cases hf : nextOffset prev f > 65535
  · exact ⟨_,if_pos hf⟩
  simp only [runningSums,List.mem_cons,exists_eq_or_imp] at h
  have hnext : ∀ p ∈ some (nextOffset prev f), p ≤ 65535 := by simpa using hf
  obtain ⟨e,he⟩ := @ih (idx+1) _ hnext (h.resolve_left hf)
  exact ⟨e,by rw [if_neg hf,he]⟩

end

theorem absoluteOffsets_eq_error {table : StackMapTable} :
    (∃ e, absoluteOffsets table = .error e) ↔ ∃ s ∈ runningSums none table.entries, 65535 < s := by
  constructor
  · rintro ⟨e,he⟩
    by_contra hno
    push Not at hno
    rw [absoluteOffsets,absoluteOffsetsFrom_ok (by simp) hno] at he
    cases he
  · exact absoluteOffsetsFrom_error (by simp)

theorem absoluteOffsets_eq_ok {table : StackMapTable} {offsets : List UInt16}
    (h : absoluteOffsets table = .ok offsets) :
    offsets.map UInt16.toNat = runningSums none table.entries := by
  have hfits : ∀ s ∈ runningSums none table.entries, s ≤ 65535 := by
    intro s hs
    by_contra hno
    obtain ⟨e,he⟩ := (absoluteOffsets_eq_error).mpr ⟨s,hs,by omega⟩
    rw [h] at he
    cases he
  rw [absoluteOffsets,absoluteOffsetsFrom_ok (by simp) hfits] at h
  cases h
  rw [List.map_map]
  calc (runningSums none table.entries).map (UInt16.toNat ∘ UInt16.ofNat)
      = (runningSums none table.entries).map id :=
        List.map_congr_left fun s hs => toNat_ofNat_of_le (hfits s hs)
    _ = runningSums none table.entries := List.map_id _

/-- The codec of the attribute: parsing the encoding of a table, whatever follows it, gives the
table back; what is accepted begins with the encoding of the frames that are returned; and the
absolute offsets are the running sums, strictly increasing, unless one of them exceeds 65535. -/
theorem stackMapTable_codec :
    (∀ entries : List StackMapFrame, entries.length ≤ 65535 → (∀ f ∈ entries, Legal f) →
      ∀ rest, parse (encode entries++rest) = .ok ⟨entries⟩) ∧
    (∀ data table, parse data = .ok table → table.entries.length ≤ 65535 ∧
      (∀ f ∈ table.entries, Legal f) ∧ encode table.entries <+: data) ∧
    (∀ table : StackMapTable,
      (∀ offsets, absoluteOffsets table = .ok offsets →
        offsets.map UInt16.toNat = runningSums none table.entries ∧ offsets.Pairwise (· < ·)) ∧
      ((∃ e, absoluteOffsets table = .error e) ↔
        ∃ s ∈ runningSums none table.entries, 65535 < s)) := by
  refine ⟨?_,?_,?_⟩
  · intro entries hlen hl rest
    exact (parse_eq_ok).mpr ⟨⟨hlen,hl⟩,List.prefix_append _ _⟩
  · intro data table h
    obtain ⟨⟨hlen,hl⟩,hp⟩ := (parse_eq_ok).mp h
    exact ⟨hlen,hl,hp⟩
  intro table
  refine ⟨fun offsets h => ?_,absoluteOffsets_eq_error⟩
  have heq := absoluteOffsets_eq_ok h
  refine ⟨heq,?_⟩
  have hsorted := runningSums_pairwise none table.entries
  rw [← heq,List.pairwise_map] at hsorted
  exact hsorted.imp UInt16.lt_iff_toNat_lt.mpr

theorem stackMapTable_codec_twoFrames :
    parse (encode [.chopFrame 300 2,.fullFrame 7 [.long,.object 5] []]++[9]) =
        .ok ⟨[.chopFrame 300 2,.fullFrame 7 [.long,.object 5] []]⟩ ∧
      runningSums none [.chopFrame 300 2,.fullFrame 7 [.long,.object 5] []] = [300,308] :=
  ⟨stackMapTable_codec.1 _ (by decide) (by decide) [9],rfl⟩

end CratonVM.Reader.StackMapTable
