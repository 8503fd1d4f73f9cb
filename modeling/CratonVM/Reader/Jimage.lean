import CratonVM.Lib.BitRows
import CratonVM.Lib.Utf8
import CratonVM.Lib.ByteReader

/-!
The reader of runtime images (`reader/src/jimage.rs`): the sections, the location records, the strings table
and the two walks over the entries. A `&str` is the list of its bytes; offsets are those of a 64-bit machine,
where the sums of the 32-bit section sizes do not overflow.
-/
namespace CratonVM.Reader.Jimage
open Utf8 List Option Bool

def jimageMagic : Nat := 0xCAFEDADA

def headerSize : Nat := 28

inductive JImageError where
  | badMagic (bytes : List UInt8)
  | unsupportedVersion (major minor : Nat)
  | truncatedSection (section_ : String)
  | badLocationRecord (what : String)
  | badStringOffset (offset : Nat)
  deriving DecidableEq, Repr

structure Header where
  littleEndian : Bool
  majorVersion : Nat
  minorVersion : Nat
  flags : Nat
  resourceCount : Nat
  tableLength : Nat
  locationsSize : Nat
  stringsSize : Nat
  deriving DecidableEq, Repr

def bigEndian (bytes : List UInt8) : Nat := bytes.foldl (fun value b => value*256+b.toNat) 0

/-- The number in four bytes, in the byte order of the image. -/
def u32At (littleEndian : Bool) (bytes : List UInt8) (offset : Nat) : Nat :=
  let four := (bytes.drop offset).take 4
  bigEndian (if littleEndian then four.reverse else four)

def Header.parse (bytes : List UInt8) : Except JImageError Header :=
  if bytes.length < headerSize then .error (.truncatedSection "header")
  else if u32At true bytes 0 = jimageMagic then header true
  else if u32At false bytes 0 = jimageMagic then header false
  else .error (.badMagic (bytes.take 4))
where
  header (littleEndian : Bool) : Except JImageError Header :=
    let version := u32At littleEndian bytes 4
    let major := version/2^16
    let minor := version%2^16
    if major ≠ 1 ∨ minor ≠ 0 then .error (.unsupportedVersion major minor)
    else .ok
      { littleEndian, majorVersion := major, minorVersion := minor, flags := u32At littleEndian bytes 8,
        resourceCount := u32At littleEndian bytes 12, tableLength := u32At littleEndian bytes 16,
        locationsSize := u32At littleEndian bytes 20, stringsSize := u32At littleEndian bytes 24 }

/-- The offsets of the path's parts in the strings table, and the place of the resource. -/
structure Location where
  module_ : Nat := 0
  parent : Nat := 0
  base : Nat := 0
  extension : Nat := 0
  offset : Nat := 0
  compressedSize : Nat := 0
  uncompressedSize : Nat := 0
  deriving DecidableEq, Repr

inductive AttributeKind where
  | end_
  | module_
  | parent
  | base
  | extension
  | offset
  | compressed
  | uncompressed
  deriving DecidableEq, Repr

def AttributeKind.fromU8 : Nat → Option AttributeKind
  | 0 => some .end_
  | 1 => some .module_
  | 2 => some .parent
  | 3 => some .base
  | 4 => some .extension
  | 5 => some .offset
  | 6 => some .compressed
  | 7 => some .uncompressed
  | _ => none

def Location.set (loc : Location) (value : Nat) : AttributeKind → Location
  | .end_ => loc
  | .module_ => { loc with module_ := value }
  | .parent => { loc with parent := value }
  | .base => { loc with base := value }
  | .extension => { loc with extension := value }
  | .offset => { loc with offset := value }
  | .compressed => { loc with compressedSize := value }
  | .uncompressed => { loc with uncompressedSize := value }

/-- The attributes in what is left of the locations; each round takes at least one byte. -/
def decodeAttributes : (fuel : Nat) → Location → List UInt8 → Except JImageError Location
  | 0, _, _ => .error (.badLocationRecord "missing END")
  | _+1, _, [] => .error (.badLocationRecord "missing END")
  | fuel+1, loc, header::rest =>
    if header = 0 then .ok loc
    else
      let length := header.toNat%8+1
      match AttributeKind.fromU8 (header.toNat/8) with
      | none => .error (.badLocationRecord "invalid attribute kind")
      | some .end_ => .error (.badLocationRecord "END with length")
      | some kind =>
        if rest.length < length then .error (.badLocationRecord "value truncated")
        else decodeAttributes fuel (loc.set (bigEndian (rest.take length)) kind) (rest.drop length)

def decodeLocation (locations : List UInt8) (locOffset : Nat) : Except JImageError Location :=
  decodeAttributes (locations.length+1) {} (locations.drop locOffset)

/-- The string that is terminated in the table, from the offset on; none at 0. -/
def readString (strings : List UInt8) (offset : Nat) : Except JImageError (List UInt8) :=
  if offset = 0 then .ok []
  else if offset ≥ strings.length then .error (.badStringOffset offset)
  else
    let remainder := strings.drop offset
    if 0 ∈ remainder then
      let found := remainder.takeWhile (· ≠ 0)
      if (fromUtf8 found).isSome then .ok found else .error (.badStringOffset offset)
    else .error (.badStringOffset offset)

structure JImageReader where
  data : List UInt8
  header : Header
  redirectOffset : Nat
  offsetsOffset : Nat
  locationsOffset : Nat
  stringsOffset : Nat
  resourcesOffset : Nat
  stringsTrusted : Bool

def between (data : List UInt8) (start stop : Nat) : List UInt8 := (data.drop start).take (stop-start)

/-- The table is valid as a whole and ends in the terminator of a string. -/
def isTrusted (strings : List UInt8) : Bool := strings.getLast? = some 0 && (fromUtf8 strings).isSome

namespace JImageReader
def fromBacking (data : List UInt8) : Except JImageError JImageReader := do
  let header ← Header.parse data
  let tableBytes := header.tableLength*4
  let redirectOffset := headerSize
  let offsetsOffset := redirectOffset+tableBytes
  let locationsOffset := offsetsOffset+tableBytes
  let stringsOffset := locationsOffset+header.locationsSize
  let resourcesOffset := stringsOffset+header.stringsSize
  if resourcesOffset > data.length then throw (.truncatedSection "data")
  pure
    { data, header, redirectOffset, offsetsOffset, locationsOffset, stringsOffset, resourcesOffset,
      stringsTrusted := isTrusted (between data stringsOffset resourcesOffset) }

variable (r : JImageReader)

def offsetTable : List UInt8 := between r.data r.offsetsOffset r.locationsOffset
def locationsBuffer : List UInt8 := between r.data r.locationsOffset r.stringsOffset
def stringsBuffer : List UInt8 := between r.data r.stringsOffset r.resourcesOffset

def readOffsetEntry (index : Nat) : Option Nat :=
  if index*4+4 ≤ r.offsetTable.length then some (u32At r.header.littleEndian r.offsetTable (index*4)) else none

def slash : UInt8 := 0x2F
def dot : UInt8 := 0x2E

def pathPart (sep : UInt8) (part : List UInt8) : List UInt8 := if part.isEmpty then [] else sep::part

def locationPath (loc : Location) : Except JImageError (List UInt8) := do
  let module_ ← readString r.stringsBuffer loc.module_
  let parent ← readString r.stringsBuffer loc.parent
  let base ← readString r.stringsBuffer loc.base
  let extension ← readString r.stringsBuffer loc.extension
  pure (pathPart slash module_++(pathPart slash parent++(pathPart slash base++pathPart dot extension)))

/-- Take a part of a path off the front, or fail. -/
def eat (sep : UInt8) (part rest : List UInt8) : Option (List UInt8) :=
  if part.isEmpty then some rest
  else if rest.length > part.length ∧ rest.head? = some sep ∧ (rest.drop 1).take part.length = part then
    some (rest.drop (1+part.length))
  else none

def locationPathIs (loc : Location) (path : List UInt8) : Except JImageError Bool := do
  let module_ ← readString r.stringsBuffer loc.module_
  let parent ← readString r.stringsBuffer loc.parent
  let base ← readString r.stringsBuffer loc.base
  let extension ← readString r.stringsBuffer loc.extension
  let rest := eat slash module_ path >>= eat slash parent >>= eat slash base >>= eat dot extension
  pure (rest = some [])

def checkString (offset : Nat) : Except JImageError Unit :=
  if !r.stringsTrusted then (readString r.stringsBuffer offset).map fun _ => ()
  else if offset = 0 then .ok ()
  else
    match r.stringsBuffer[offset]? with
    | some b => if b &&& 0xC0 ≠ 0x80 then .ok () else .error (.badStringOffset offset)
    | none => .error (.badStringOffset offset)

def stringAt (offset : Nat) : Except JImageError (List UInt8) := readString r.stringsBuffer offset

def stringIs (offset : Nat) (s : List UInt8) : Except JImageError Bool :=
  if !r.stringsTrusted then (r.stringAt offset).map fun found => found = s
  else do
    r.checkString offset
    if offset = 0 then pure s.isEmpty
    else
      let strings := r.stringsBuffer
      pure (offset+s.length ≤ strings.length && (strings.drop offset).take s.length = s &&
        strings[offset+s.length]? = some 0)

structure Entry where
  path : List UInt8
  offset : Nat
  uncompressedSize : Nat
  deriving DecidableEq

structure JImageEntryOffsets where
  module_ : Nat
  parent : Nat
  base : Nat
  extension : Nat
  deriving DecidableEq

def pastEnd : JImageError := .badLocationRecord "location offset past end of locations buffer"

/-- The loop of `iter_entries` over the table's slots: what was pushed, and how it ended. -/
def iterSlots : List Nat → (seen : List Nat) → List Entry × Except JImageError Unit
  | [], _ => ([],.ok ())
  | i::slots, seen =>
    match r.readOffsetEntry i with
    | none => iterSlots slots seen
    | some locOffset =>
      if locOffset = 0 ∨ locOffset ∈ seen then iterSlots slots seen
      else if locOffset ≥ r.locationsBuffer.length then ([],.error pastEnd)
      else
        match decodeLocation r.locationsBuffer locOffset with
        | .error e => ([],.error e)
        | .ok loc =>
          match r.locationPath loc with
          | .error e => ([],.error e)
          | .ok path =>
            let rest := iterSlots slots (locOffset::seen)
            (⟨path,loc.offset,loc.uncompressedSize⟩::rest.1,rest.2)

def iterEntries : Except JImageError (List Entry) :=
  (r.iterSlots (List.range r.header.tableLength) []).2.map fun _ =>
    (r.iterSlots (List.range r.header.tableLength) []).1

def checkLocation (loc : Location) : Except JImageError Unit := do
  r.checkString loc.module_
  r.checkString loc.parent
  r.checkString loc.base
  r.checkString loc.extension

/-- The loop of `for_each_entry_offsets`: what was handed to the callback, and how it ended. -/
def eachSlot : List Nat → (seen : BitRows.Row) → List JImageEntryOffsets × Except JImageError Unit
  | [], _ => ([],.ok ())
  | i::slots, seen =>
    match r.readOffsetEntry i with
    | none => eachSlot slots seen
    | some locOffset =>
      if locOffset = 0 then eachSlot slots seen
      else if locOffset ≥ r.locationsBuffer.length then ([],.error pastEnd)
      else if BitRows.get seen locOffset then eachSlot slots seen
      else
        match decodeLocation r.locationsBuffer locOffset with
        | .error e => ([],.error e)
        | .ok loc =>
          match r.checkLocation loc with
          | .error e => ([],.error e)
          | .ok () =>
            let rest := eachSlot slots (BitRows.set seen locOffset)
            (⟨loc.module_,loc.parent,loc.base,loc.extension⟩::rest.1,rest.2)

def forEachEntryOffsets : List JImageEntryOffsets × Except JImageError Unit :=
  r.eachSlot (List.range r.header.tableLength) (BitRows.empty ((r.locationsBuffer.length+63)/64))

end JImageReader
end CratonVM.Reader.Jimage
namespace CratonVM.Reader.Jimage
open Utf8 Outcome
section
variable {strings found rest : List UInt8} {offset : Nat}

theorem takeWhile_terminated (hno : 0 ∉ found) : (found++0::rest).takeWhile (· ≠ 0) = found := by
  rw [List.takeWhile_append_of_pos,List.takeWhile_cons_of_neg (by simp),List.append_nil]
  intro b hb
  simpa using fun h : b = 0 => hno (h ▸ hb)

theorem readString_terminated (hoffset : offset ≠ 0) (h : strings.drop offset = found++0::rest) (hno : 0 ∉ found) :
    readString strings offset =
      if (fromUtf8 found).isSome then .ok found else .error (.badStringOffset offset) := by
  have hlt : ¬offset ≥ strings.length := by
    intro hge
    rw [List.drop_eq_nil_of_le hge] at h
    simp at h
  unfold readString
  rw [if_neg hoffset,if_neg hlt,h,if_pos (by simp),takeWhile_terminated hno]

theorem terminated_of_trusted (h : isTrusted strings = true) (hlt : offset < strings.length) :
    ∃ found rest, strings.drop offset = found++0::rest ∧ 0 ∉ found := by
  simp only [isTrusted,Bool.and_eq_true,decide_eq_true_eq] at h
  have hlast : (strings.drop offset).getLast? = some 0 := by
    rw [List.getLast?_drop,if_neg (by omega),h.1]
  exact List.eq_append_cons_of_mem (List.mem_of_getLast? hlast)

theorem isContinuation_zero : isContinuation 0 = false := by decide

theorem fromUtf8_trusted (h : isTrusted strings = true) {b : UInt8} (hget : strings[offset]? = some b)
    (hdrop : strings.drop offset = found++0::rest) : (fromUtf8 found).isSome = !isContinuation b := by
  simp only [isTrusted,Bool.and_eq_true,decide_eq_true_eq] at h
  obtain ⟨text,htext⟩ := Option.isSome_iff_exists.mp h.2
  have hutf8 := fromUtf8_eq_some.mp htext
  obtain ⟨hlt,hbyte⟩ := getElem?_eq_some_iff.mp hget
  have hcons : strings.drop offset = b::strings.drop (offset+1) := by
    rw [List.drop_eq_getElem_cons hlt,hbyte]
  cases hb : isContinuation b with
  | false =>
    have hsplit : utf8 text = strings.take offset++b::strings.drop (offset+1) := by
      rw [← hcons,List.take_append_drop,hutf8]
    obtain ⟨s,t,-,-,ht⟩ := utf8_split hsplit hb
    rw [← hcons,hdrop] at ht
    obtain ⟨u,v,-,hu,-⟩ := utf8_split ht.symm isContinuation_zero
    rw [hu,fromUtf8_utf8]
    rfl
  | true => ?_
  cases found with
  | nil =>
    rw [hdrop,List.nil_append] at hcons
    rw [← (List.cons.inj hcons).1,isContinuation_zero] at hb
    cases hb
  | cons x found => ?_
  rw [hdrop,List.cons_append] at hcons
  obtain ⟨rfl,-⟩ := List.cons.inj hcons
  cases hsome : fromUtf8 (x::found) with
  | none => rfl
  | some u => exact absurd (fromUtf8_eq_some.mp hsome) (not_utf8_of_continuation hb u)

theorem readString_trusted (h : isTrusted strings = true) (hoffset : offset ≠ 0) {b : UInt8}
    (hget : strings[offset]? = some b) : ∃ found rest, strings.drop offset = found++0::rest ∧ 0 ∉ found ∧
      readString strings offset = if isContinuation b then .error (.badStringOffset offset) else .ok found := by
  obtain ⟨found,rest,hdrop,hno⟩ := terminated_of_trusted h (getElem?_eq_some_iff.mp hget).1
  refine ⟨found,rest,hdrop,hno,?_⟩
  rw [readString_terminated hoffset hdrop hno,fromUtf8_trusted h hget hdrop]
  cases isContinuation b <;> rfl

theorem readString_outside (hoffset : offset ≠ 0) (hget : strings[offset]? = none) :
    readString strings offset = .error (.badStringOffset offset) := by
  rw [readString,if_neg hoffset,if_pos (List.getElem?_eq_none_iff.mp hget)]

theorem stands_iff (strings s : List UInt8) (offset : Nat) :
    (offset+s.length ≤ strings.length && (strings.drop offset).take s.length = s &&
      strings[offset+s.length]? = some 0) = true ↔ s++[0] <+: strings.drop offset := by
  simp only [Bool.and_eq_true,decide_eq_true_eq]
  rw [← List.getElem?_drop]
  constructor
  · rintro ⟨⟨-,htake⟩,hzero⟩
    obtain ⟨hlt,hbyte⟩ := getElem?_eq_some_iff.mp hzero
    conv_rhs => rw [← List.take_append_drop s.length (strings.drop offset),htake,List.drop_eq_getElem_cons hlt,hbyte]
    simp
  rintro ⟨rest,h⟩
  have hlen := congrArg List.length h
  simp only [List.length_append,List.length_drop,List.length_singleton] at hlen
  rw [← h]
  refine ⟨⟨by omega,by simp⟩,?_⟩
  simp

theorem stands_iff_eq {s : List UInt8} (hdrop : strings.drop offset = found++0::rest) (hno : 0 ∉ found) (hs : 0 ∉ s) :
    s++[0] <+: strings.drop offset ↔ found = s := by
  constructor
  · rintro ⟨tail,h⟩
    rw [List.append_assoc,List.singleton_append] at h
    have := @takeWhile_terminated s tail hs
    rw [h,hdrop,takeWhile_terminated hno] at this
    exact this
  rintro rfl
  rw [hdrop]
  exact ⟨rest,by simp⟩

end

namespace JImageReader
variable {r : JImageReader}

/-- The flag says what it is said to. -/
def Flagged (r : JImageReader) : Prop := r.stringsTrusted = isTrusted r.stringsBuffer

theorem flagged_of_fromBacking {data : List UInt8} (h : fromBacking data = .ok r) : r.Flagged := by
  obtain ⟨header,-,h⟩ := bind_eq_ok.mp h
  dsimp only at h
  split at h
  · cases h
  cases h
  rfl

theorem checkString_eq (h : r.Flagged) (offset : Nat) :
    r.checkString offset = (readString r.stringsBuffer offset).map fun _ => () := by
  unfold checkString
  cases htrusted : r.stringsTrusted with
  | false => rfl
  | true => ?_
  have ht : isTrusted r.stringsBuffer = true := by rw [← h,htrusted]
  by_cases hoffset : offset = 0
  · subst hoffset
    rfl
  simp only [if_neg hoffset]
  cases hget : r.stringsBuffer[offset]? with
  | none =>
    rw [readString_outside hoffset hget]
    rfl
  | some b => ?_
  obtain ⟨found,rest,-,-,hread⟩ := readString_trusted ht hoffset hget
  rw [hread]
  by_cases hb : isContinuation b = true
  · have hbits : b &&& 0xC0 = 0x80 := by simpa [isContinuation] using hb
    rw [if_pos hb]
    dsimp only
    rw [if_neg (not_not_intro hbits)]
    rfl
  have hbits : ¬b &&& 0xC0 = 0x80 := by simpa [isContinuation] using hb
  rw [if_neg hb]
  dsimp only
  rw [if_pos hbits]
  rfl

/-- A query that goes past a terminator of a trusted table and ends before another one. -/
def SpansTerminator (strings : List UInt8) (offset : Nat) (s : List UInt8) : Prop :=
  isTrusted strings = true ∧ offset ≠ 0 ∧ 0 ∈ s ∧ s++[0] <+: strings.drop offset

theorem stringIs_eq_iff (h : r.Flagged) (offset : Nat) (s : List Char) :
    r.stringIs offset (utf8 s) = (r.stringAt offset).map (fun found => decide (found = utf8 s)) ↔
      ¬SpansTerminator r.stringsBuffer offset (utf8 s) := by
  unfold stringIs stringAt
  cases htrusted : r.stringsTrusted with
  | false =>
    refine iff_of_true rfl ?_
    rintro ⟨ht,-⟩
    rw [← h,htrusted] at ht
    cases ht
  | true => ?_
  have ht : isTrusted r.stringsBuffer = true := by rw [← h,htrusted]
  rw [checkString_eq h]
  by_cases hoffset : offset = 0
  · subst hoffset
    refine iff_of_true ?_ fun hspan => hspan.2.1 rfl
    show Except.ok (utf8 s).isEmpty = Except.ok (decide ([] = utf8 s))
    cases utf8 s <;> rfl
  simp only [if_neg hoffset]
  cases hget : r.stringsBuffer[offset]? with
  | none =>
    rw [readString_outside hoffset hget]
    refine iff_of_true rfl ?_
    rintro ⟨-,-,-,hhead⟩
    rw [List.drop_eq_nil_of_le (List.getElem?_eq_none_iff.mp hget),List.prefix_nil] at hhead
    simp at hhead
  | some b => ?_
  obtain ⟨found,rest,hdrop,hno,hread⟩ := readString_trusted ht hoffset hget
  rw [hread]
  by_cases hb : isContinuation b = true
  · rw [if_pos hb]
    refine iff_of_true rfl ?_
    rintro ⟨-,-,hmem,hhead⟩
    obtain ⟨x,xs,hs⟩ := List.exists_cons_of_ne_nil (List.ne_nil_of_mem hmem)
    obtain ⟨tail,heq⟩ := hhead
    obtain ⟨hlt,hbyte⟩ := getElem?_eq_some_iff.mp hget
    rw [hs,List.drop_eq_getElem_cons hlt,hbyte] at heq
    rw [← (List.cons.inj heq).1] at hb
    exact not_utf8_of_continuation hb s hs.symm
  rw [if_neg hb]
  show Except.ok (_ && _ && _ : Bool) = Except.ok (decide (found = utf8 s)) ↔ _
  rw [Except.ok.injEq,Bool.eq_iff_iff,stands_iff,decide_eq_true_iff]
  by_cases hs : 0 ∈ utf8 s
  · have hne : found ≠ utf8 s := fun heq => hno (heq ▸ hs)
    refine ⟨?_,?_⟩
    · rintro hiff ⟨-,-,-,hhead⟩
      exact hne (hiff.mp hhead)
    intro hspan
    exact ⟨fun hhead => absurd ⟨ht,hoffset,hs,hhead⟩ hspan,fun heq => absurd heq hne⟩
  · exact iff_of_true (stands_iff_eq hdrop hno hs) fun hspan => hs hspan.2.2.1

section
theorem eat_pathPart (sep : UInt8) (part path rest : List UInt8) :
    eat sep part path = some rest ↔ path = pathPart sep part++rest := by
  unfold eat pathPart
  cases part with
  | nil => simp
  | cons x part => ?_
  simp only [List.isEmpty_cons,Bool.false_eq_true,if_false]
  constructor
  · intro h
    split at h
    · rename_i hmatch
      obtain ⟨hlen,hhead,htake⟩ := hmatch
      cases path with
      | nil => simp at hlen
      | cons y path => ?_
      simp only [List.head?_cons,Option.some.injEq] at hhead
      rw [List.drop_one,List.tail_cons] at htake
      rw [Nat.add_comm,List.drop_succ_cons] at h
      rw [hhead,List.cons_append,← Option.some.inj h]
      conv_lhs => rw [← List.take_append_drop (x::part).length path,htake]
    · cases h
  rintro rfl
  have hlen : (x::part).length < (x::(x::part++rest)).length := by
    simp only [List.length_cons,List.length_append]
    omega
  rw [if_pos ⟨by simpa using hlen,by simp,by simp⟩]
  simp [Nat.add_comm 1]

theorem eat_all (m p b e path : List UInt8) :
    (eat slash m path >>= eat slash p >>= eat slash b >>= eat dot e) = some [] ↔
      pathPart slash m++(pathPart slash p++(pathPart slash b++pathPart dot e)) = path := by
  simp only [Option.bind_eq_bind,Option.bind_eq_some_iff,eat_pathPart]
  constructor
  · rintro ⟨p3,⟨p2,⟨p1,rfl,rfl⟩,rfl⟩,rfl⟩
    simp
  rintro rfl
  exact ⟨_,⟨_,⟨_,rfl,rfl⟩,rfl⟩,by simp⟩

theorem locationPathIs_eq (r : JImageReader) (loc : Location) (path : List UInt8) :
    r.locationPathIs loc path = (r.locationPath loc).map fun found => decide (found = path) := by
  unfold locationPathIs locationPath
  cases readString r.stringsBuffer loc.module_ with
  | error e => rfl
  | ok m => ?_
  cases readString r.stringsBuffer loc.parent with
  | error e => rfl
  | ok p => ?_
  cases readString r.stringsBuffer loc.base with
  | error e => rfl
  | ok b => ?_
  cases readString r.stringsBuffer loc.extension with
  | error e => rfl
  | ok x =>
    show Except.ok (decide _) = Except.ok (decide _)
    rw [decide_eq_decide.mpr (eat_all m p b x path)]

end

section
def SameEntry (r : JImageReader) (v : JImageEntryOffsets) (e : Entry) : Prop :=
  ∃ loc : Location, v = ⟨loc.module_,loc.parent,loc.base,loc.extension⟩ ∧
    r.locationPath loc = .ok e.path ∧ e.offset = loc.offset ∧ e.uncompressedSize = loc.uncompressedSize

theorem checkLocation_eq (h : r.Flagged) (loc : Location) :
    r.checkLocation loc = (r.locationPath loc).map fun _ => () := by
  unfold checkLocation locationPath
  simp only [checkString_eq h]
  cases readString r.stringsBuffer loc.module_ with
  | error e => rfl
  | ok m => ?_
  cases readString r.stringsBuffer loc.parent with
  | error e => rfl
  | ok p =>
    cases readString r.stringsBuffer loc.base with
    | error e => rfl
    | ok b => cases readString r.stringsBuffer loc.extension <;> rfl

structure SeenAlike (r : JImageReader) (seen : List Nat) (bits : BitRows.Row) : Prop where
  inside : ∀ o ∈ seen, o < r.locationsBuffer.length
  words : bits.length = (r.locationsBuffer.length+63)/64
  bit : ∀ o, BitRows.get bits o = decide (o ∈ seen)

theorem SeenAlike.insert {seen : List Nat} {bits : BitRows.Row} (h : SeenAlike r seen bits) {o : Nat}
    (ho : o < r.locationsBuffer.length) : SeenAlike r (o::seen) (BitRows.set bits o) where
  inside := List.forall_mem_cons.mpr ⟨ho,h.inside⟩
  words := by rw [BitRows.length_set,h.words]
  bit := by
    intro other
    have hword : o/64 < bits.length := by
      rw [h.words]
      omega
    rw [BitRows.get_set,h.bit,decide_eq_true hword,Bool.and_true]
    by_cases heq : o = other
    · simp [heq]
    · simp [heq,Ne.symm heq]

theorem walks_agree (h : r.Flagged) {slots seen : List Nat} {bits : BitRows.Row} (hseen : SeenAlike r seen bits) :
    List.Forall₂ (SameEntry r) (r.eachSlot slots bits).1 (r.iterSlots slots seen).1 ∧
      (r.eachSlot slots bits).2 = (r.iterSlots slots seen).2 := by
  induction slots generalizing seen bits with
  | nil => exact ⟨.nil,rfl⟩
  | cons i slots ih => ?_
  unfold eachSlot iterSlots
  cases r.readOffsetEntry i with
  | none => exact ih hseen
  | some o => ?_
  dsimp only
  by_cases hzero : o = 0
  · rw [if_pos hzero,if_pos (.inl hzero)]
    exact ih hseen
  rw [if_neg hzero]
  by_cases hpast : o ≥ r.locationsBuffer.length
  · have hnew : ¬(o = 0 ∨ o ∈ seen) := by
      rintro (h0 | hmem)
      · exact hzero h0
      · exact Nat.not_le.mpr (hseen.inside o hmem) hpast
    rw [if_pos hpast,if_neg hnew,if_pos hpast]
    exact ⟨.nil,rfl⟩
  rw [if_neg hpast,hseen.bit]
  by_cases hmem : o ∈ seen
  · rw [if_pos (by simpa using hmem),if_pos (.inr hmem)]
    exact ih hseen
  rw [if_neg (by simpa using hmem),if_neg (not_or.mpr ⟨hzero,hmem⟩),if_neg hpast]
  cases decodeLocation r.locationsBuffer o with
  | error e => exact ⟨.nil,rfl⟩
  | ok loc => ?_
  dsimp only
  rw [checkLocation_eq h]
  cases hpath : r.locationPath loc with
  | error e => exact ⟨.nil,rfl⟩
  | ok path =>
    obtain ⟨hrest,hend⟩ := ih (hseen.insert (Nat.lt_of_not_ge hpast))
    exact ⟨.cons ⟨loc,rfl,hpath,rfl,rfl⟩ hrest,hend⟩

theorem seenAlike_empty (r : JImageReader) :
    SeenAlike r [] (BitRows.empty ((r.locationsBuffer.length+63)/64)) where
  inside := by simp
  words := BitRows.length_empty _
  bit := by simp

end

/-- The four queries agree with the plain reads. -/
structure Agrees (r : JImageReader) (offset : Nat) (s : List Char) (loc : Location) (path : List Char) : Prop where
  stringIs : r.stringIs offset (utf8 s) = (r.stringAt offset).map fun found => decide (found = utf8 s)
  checkString : r.checkString offset = (readString r.stringsBuffer offset).map fun _ => ()
  locationPathIs : r.locationPathIs loc (utf8 path) = (r.locationPath loc).map fun found => decide (found = utf8 path)
  visited : List.Forall₂ (SameEntry r) r.forEachEntryOffsets.1 (r.iterSlots (List.range r.header.tableLength) []).1
  ended : r.forEachEntryOffsets.2 = r.iterEntries.map fun _ => ()

/-- On every image the queries agree with the reads, unless a query string goes past a terminator. -/
theorem queries_agree_iff {data : List UInt8} (h : fromBacking data = .ok r) (offset : Nat) (s : List Char)
    (loc : Location) (path : List Char) :
    Agrees r offset s loc path ↔ ¬SpansTerminator r.stringsBuffer offset (utf8 s) := by
  have hflag := flagged_of_fromBacking h
  refine ⟨fun ha => (stringIs_eq_iff hflag offset s).mp ha.stringIs,fun hspan => ?_⟩
  obtain ⟨hvisited,hended⟩ := @walks_agree r hflag (List.range r.header.tableLength) [] _ (seenAlike_empty r)
  refine ⟨(stringIs_eq_iff hflag offset s).mpr hspan,checkString_eq hflag offset,locationPathIs_eq r loc _,hvisited,?_⟩
  rw [forEachEntryOffsets,hended,iterEntries]
  cases (r.iterSlots (List.range r.header.tableLength) []).2 <;> rfl

/-- An image with the two strings `a` and `b`, and no entries. -/
def twoStrings : List UInt8 :=
  [0xCA,0xFE,0xDA,0xDA,0,1,0,0,0,0,0,0,0,0,0,0,0,0,0,0,0,0,0,0,0,0,0,5,0,0x61,0,0x62,0]

def twoStringsReader : JImageReader where
  data := twoStrings
  header := ⟨false,1,0,0,0,0,0,5⟩
  redirectOffset := 28
  offsetsOffset := 28
  locationsOffset := 28
  stringsOffset := 28
  resourcesOffset := 33
  stringsTrusted := true

theorem isTrusted_twoStrings : isTrusted twoStringsReader.stringsBuffer = true := by
  have h : fromUtf8 (utf8 ['\x00','a','\x00','b','\x00']) = some _ := fromUtf8_utf8 _
  show isTrusted (utf8 ['\x00','a','\x00','b','\x00']) = true
  rw [isTrusted,h]
  rfl

theorem fromBacking_twoStrings : fromBacking twoStrings = .ok twoStringsReader := by
  have hheader : Header.parse twoStrings = .ok ⟨false,1,0,0,0,0,0,5⟩ := by decide +kernel
  have htrusted : isTrusted (between twoStrings 28 33) = true := isTrusted_twoStrings
  rw [fromBacking,hheader,twoStringsReader,← htrusted]
  rfl

theorem queries_agree_single : ¬SpansTerminator twoStringsReader.stringsBuffer 1 (utf8 ['a']) ∧
    Agrees twoStringsReader 1 ['a'] {} [] := by
  have hone : ¬SpansTerminator twoStringsReader.stringsBuffer 1 (utf8 ['a']) := by
    rintro ⟨-,-,hmem,-⟩
    revert hmem
    decide
  exact ⟨hone,(queries_agree_iff fromBacking_twoStrings 1 ['a'] {} []).mpr hone⟩

/-- The string at 1 is `a`, and so it is said to be `a`, a terminator and `b`. -/
theorem stringIs_spans_terminator : fromBacking twoStrings = .ok twoStringsReader ∧
    twoStringsReader.stringAt 1 = .ok (utf8 ['a']) ∧
      twoStringsReader.stringIs 1 (utf8 ['a','\x00','b']) = .ok true ∧ utf8 ['a'] ≠ utf8 ['a','\x00','b'] := by
  refine ⟨fromBacking_twoStrings,?_,by decide,by decide⟩
  have hsome : (fromUtf8 (utf8 ['a'])).isSome = true := by rw [fromUtf8_utf8]; rfl
  have hdrop : twoStringsReader.stringsBuffer.drop 1 = utf8 ['a']++0::[0x62,0] := by decide
  rw [stringAt,readString_terminated (by decide) hdrop (by decide),if_pos hsome]

end JImageReader
end CratonVM.Reader.Jimage
