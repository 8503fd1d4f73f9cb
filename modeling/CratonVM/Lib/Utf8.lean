import Mathlib

/-!
UTF-8 texts as lists of bytes, and where one character ends and the next begins.
-/
namespace CratonVM.Utf8
open List Option
open Bool hiding and_true

def utf8 (text : List Char) : List UInt8 := text.flatMap String.utf8EncodeChar

/-- The text of valid UTF-8. -/
def fromUtf8 (bytes : List UInt8) : Option (List Char) := bytes.toByteArray.utf8Decode?.map Array.toList

def isContinuation (b : UInt8) : Bool := b &&& 0xC0 = 0x80

@[simp] theorem utf8_nil : utf8 [] = [] := rfl

theorem utf8_cons (c : Char) (text : List Char) : utf8 (c::text) = String.utf8EncodeChar c++utf8 text :=
  flatMap_cons

theorem utf8Encode_eq (text : List Char) : text.utf8Encode = (utf8 text).toByteArray := rfl

theorem fromUtf8_utf8 (text : List Char) : fromUtf8 (utf8 text) = some text := by
  rw [fromUtf8,← utf8Encode_eq,utf8Decode?_utf8Encode]
  rfl

theorem toByteArray_injective {xs ys : List UInt8} (h : xs.toByteArray = ys.toByteArray) : xs = ys := by
  have := congrArg (fun b : ByteArray => b.data.toList) h
  simpa using this

theorem fromUtf8_eq_some {bytes : List UInt8} {text : List Char} :
    fromUtf8 bytes = some text ↔ bytes = utf8 text := by
  constructor
  · intro h
    obtain ⟨chars,hchars,rfl⟩ := map_eq_some_iff.mp h
    have hsome : bytes.toByteArray.utf8Decode?.isSome = true := by rw [hchars]; rfl
    have hback := ByteArray.utf8Encode_get_utf8Decode? (h := hsome)
    simp only [hchars,get_some] at hback
    exact (toByteArray_injective hback).symm
  rintro rfl
  exact fromUtf8_utf8 text

theorem utf8_injective {s t : List Char} (h : utf8 s = utf8 t) : s = t := by
  have := fromUtf8_utf8 s
  rw [h,fromUtf8_utf8] at this
  exact (some.inj this).symm

theorem eq_ofNat (b : UInt8) : b = UInt8.ofNat b.toNat := by simp

theorem forall_byte {p : UInt8 → Prop} (h : ∀ n < 256, p (UInt8.ofNat n)) (b : UInt8) : p b := by
  rw [eq_ofNat b]
  exact h b.toNat b.toNat_lt

theorem isContinuation_iff (b : UInt8) : isContinuation b = true ↔ 0x80 ≤ b.toNat ∧ b.toNat < 0xC0 := by
  revert b
  refine forall_byte ?_
  decide +kernel

theorem encodeChar_shape (c : Char) : ∃ b bs, String.utf8EncodeChar c = b::bs ∧ isContinuation b = false ∧
    ∀ x ∈ bs, isContinuation x = true := by
  unfold String.utf8EncodeChar
  dsimp only
  split
  · refine ⟨_,[],rfl,?_,by simp⟩
    rw [eq_false_iff,Ne,isContinuation_iff,UInt8.toNat_ofNat']
    omega
  split
  · refine ⟨_,_,rfl,?_,?_⟩
    · rw [eq_false_iff,Ne,isContinuation_iff,UInt8.toNat_ofNat']
      omega
    simp only [forall_mem_cons,not_mem_nil,false_imp_iff,implies_true,and_true,
      isContinuation_iff,UInt8.toNat_ofNat']
    omega
  split
  · refine ⟨_,_,rfl,?_,?_⟩
    · rw [eq_false_iff,Ne,isContinuation_iff,UInt8.toNat_ofNat']
      omega
    simp only [forall_mem_cons,not_mem_nil,false_imp_iff,implies_true,and_true,
      isContinuation_iff,UInt8.toNat_ofNat']
    omega
  refine ⟨_,_,rfl,?_,?_⟩
  · rw [eq_false_iff,Ne,isContinuation_iff,UInt8.toNat_ofNat']
    omega
  simp only [forall_mem_cons,not_mem_nil,false_imp_iff,implies_true,and_true,
    isContinuation_iff,UInt8.toNat_ofNat']
  omega

theorem utf8_split {text : List Char} {xs ys : List UInt8} {b : UInt8} (h : utf8 text = xs++b::ys)
    (hb : isContinuation b = false) : ∃ s t, text = s++t ∧ xs = utf8 s ∧ b::ys = utf8 t := by
  induction text generalizing xs with
  | nil =>
    have := congrArg length h
    simp at this
  | cons c text ih => ?_
  rw [utf8_cons] at h
  rcases append_eq_append_iff.mp h with ⟨as,hxs,has⟩ | ⟨bs,hc,hbs⟩
  · obtain ⟨s,t,rfl,hs,ht⟩ := ih has
    exact ⟨c::s,t,rfl,by rw [utf8_cons,← hs,hxs],ht⟩
  cases bs with
  | nil =>
    refine ⟨[c],text,rfl,?_,by simpa using hbs⟩
    rw [utf8_cons,utf8_nil,append_nil,hc,append_nil]
  | cons b' bs => ?_
  obtain ⟨rfl,rfl⟩ := cons.inj hbs
  cases xs with
  | nil => exact ⟨[],c::text,rfl,rfl,by rw [utf8_cons,hc]; simp⟩
  | cons x xs => ?_
  -- the byte would stand inside the character
  obtain ⟨first,rest,hshape,-,hrest⟩ := encodeChar_shape c
  rw [hshape] at hc
  have hmem : b ∈ rest := by
    rw [(cons.inj hc).2]
    simp
  rw [hrest b hmem] at hb
  cases hb

theorem not_utf8_of_continuation {b : UInt8} {ys : List UInt8} (hb : isContinuation b = true) (text : List Char) :
    b::ys ≠ utf8 text := by
  intro h
  cases text with
  | nil => cases h
  | cons c text =>
    obtain ⟨first,rest,hshape,hfirst,-⟩ := encodeChar_shape c
    rw [utf8_cons,hshape] at h
    rw [(cons.inj h).1,hfirst] at hb
    cases hb

end CratonVM.Utf8
namespace CratonVM.Utf16
def isSurrogate (u : UInt16) : Bool := 0xD800 ≤ u.toNat && u.toNat < 0xE000
def isHigh (u : UInt16) : Bool := 0xD800 ≤ u.toNat && u.toNat < 0xDC00
def isLow (u : UInt16) : Bool := 0xDC00 ≤ u.toNat && u.toNat < 0xE000

def encodeChar (c : Char) : List UInt16 :=
  if c.val.toNat < 0x10000 then [.ofNat c.val.toNat]
  else [.ofNat (0xD800+(c.val.toNat-0x10000)/0x400),.ofNat (0xDC00+(c.val.toNat-0x10000)%0x400)]

def utf16 (text : List Char) : List UInt16 := text.flatMap encodeChar

/-- One unit that does not begin a pair. -/
def single (u : UInt16) : Option Char := if isSurrogate u then none else some (Char.ofNat u.toNat)

def pair (u v : UInt16) : Char := Char.ofNat ((u.toNat-0xD800)*0x400+(v.toNat-0xDC00)+0x10000)

/-- The characters of the units, and the surrogates that do not pair up. -/
def decode : List UInt16 → List (Option Char)
  | [] => []
  | [u] => [single u]
  | u::v::rest => if isHigh u && isLow v then some (pair u v)::decode rest else single u::decode (v::rest)

def replacement : Char := Char.ofNat 0xFFFD

/-- The text, with a replacement for each surrogate that is alone. -/
def lossy (units : List UInt16) : List Char := (decode units).map fun c => c.getD replacement

/-- The text, if no surrogate is alone. -/
def strict (units : List UInt16) : Option (List Char) :=
  if (decode units).all Option.isSome then some ((decode units).filterMap id) else none

theorem utf16_cons (c : Char) (text : List Char) : utf16 (c::text) = encodeChar c++utf16 text :=
  List.flatMap_cons

theorem ofNat_val (c : Char) : Char.ofNat c.val.toNat = c := Char.ofNat_toNat c

theorem decode_cons {u : UInt16} (h : isSurrogate u = false) (rest : List UInt16) :
    decode (u::rest) = some (Char.ofNat u.toNat)::decode rest := by
  have hsingle : single u = some (Char.ofNat u.toNat) := by rw [single,h]; rfl
  have hhigh : isHigh u = false := by
    revert h
    simp only [isHigh,isSurrogate,Bool.and_eq_false_iff,decide_eq_false_iff_not]
    omega
  cases rest with
  | nil =>
    show [single u] = _
    rw [hsingle]
    rfl
  | cons v rest =>
    rw [decode,hhigh,hsingle]
    rfl

theorem decode_encodeChar (c : Char) (rest : List UInt16) :
    decode (encodeChar c++rest) = some c::decode rest := by
  have hmax := c.valid
  unfold encodeChar
  split
  · rename_i hsmall
    have hsurrogate : isSurrogate (.ofNat c.val.toNat) = false := by
      simp only [isSurrogate,UInt16.toNat_ofNat',Bool.and_eq_false_iff,decide_eq_false_iff_not]
      omega
    rw [List.singleton_append,decode_cons hsurrogate,UInt16.toNat_ofNat',Nat.mod_eq_of_lt hsmall,ofNat_val]
  have hhigh : isHigh (.ofNat (0xD800+(c.val.toNat-0x10000)/0x400)) = true := by
    simp only [isHigh,UInt16.toNat_ofNat',Bool.and_eq_true,decide_eq_true_eq]
    omega
  have hlow : isLow (.ofNat (0xDC00+(c.val.toNat-0x10000)%0x400)) = true := by
    simp only [isLow,UInt16.toNat_ofNat',Bool.and_eq_true,decide_eq_true_eq]
    omega
  have hval : ((0xD800+(c.val.toNat-0x10000)/0x400)%2^16-0xD800)*0x400+
      ((0xDC00+(c.val.toNat-0x10000)%0x400)%2^16-0xDC00)+0x10000 = c.val.toNat := by omega
  rw [List.cons_append,List.singleton_append,decode,hhigh,hlow,pair,UInt16.toNat_ofNat',UInt16.toNat_ofNat',
    hval,ofNat_val]
  rfl

theorem decode_utf16 (text : List Char) : decode (utf16 text) = text.map some := by
  induction text with
  | nil => rfl
  | cons c text ih => rw [utf16_cons,decode_encodeChar,ih,List.map_cons]

theorem strict_utf16 (text : List Char) : strict (utf16 text) = some text := by
  rw [strict,decode_utf16,if_pos (by simp)]
  simp

theorem utf16_injective {s t : List Char} (h : utf16 s = utf16 t) : s = t := by
  have := strict_utf16 s
  rw [h,strict_utf16] at this
  exact (Option.some.inj this).symm

theorem exists_utf16 {units : List UInt16} (h : ∀ u ∈ units, isSurrogate u = false) :
    ∃ text, units = utf16 text := by
  induction units with
  | nil => exact ⟨[],rfl⟩
  | cons u units ih => ?_
  obtain ⟨text,htext⟩ := ih fun v hv => h v (List.mem_cons_of_mem u hv)
  have hu := h u List.mem_cons_self
  simp only [isSurrogate,Bool.and_eq_false_iff,decide_eq_false_iff_not] at hu
  have hlt := u.toNat_lt
  have hvalid : u.toNat.isValidChar := by
    omega
  have hval : (Char.ofNat u.toNat).val.toNat = u.toNat := by
    rw [Char.ofNat,dif_pos hvalid]
    rfl
  refine ⟨Char.ofNat u.toNat::text,?_⟩
  rw [utf16_cons,encodeChar,hval,if_pos hlt,← htext]
  simp

end CratonVM.Utf16
namespace CratonVM.ModifiedUtf8
open Utf8 Utf16

def encodeUnit (u : UInt16) : List UInt8 :=
  if 0 < u.toNat ∧ u.toNat < 0x80 then [.ofNat u.toNat]
  else if u.toNat < 0x800 then [.ofNat (0xC0+u.toNat/64),.ofNat (0x80+u.toNat%64)]
  else [.ofNat (0xE0+u.toNat/4096),.ofNat (0x80+u.toNat/64%64),.ofNat (0x80+u.toNat%64)]

def modifiedUtf8 (units : List UInt16) : List UInt8 := units.flatMap encodeUnit

/-- A byte that is not zero, or a lead byte and its continuation bytes. -/
def IsGroup : List UInt8 → Prop
  | [b] => 0 < b.toNat ∧ b.toNat < 0x80
  | [b,c] => 0xC0 ≤ b.toNat ∧ b.toNat < 0xE0 ∧ isContinuation c = true
  | [b,c,d] => 0xE0 ≤ b.toNat ∧ b.toNat < 0xF0 ∧ isContinuation c = true ∧ isContinuation d = true
  | _ => False

def unitOf : List UInt8 → UInt16
  | [b] => .ofNat b.toNat
  | [b,c] => .ofNat ((b.toNat-0xC0)*64+(c.toNat-0x80))
  | [b,c,d] => .ofNat ((b.toNat-0xE0)*4096+(c.toNat-0x80)*64+(d.toNat-0x80))
  | _ => 0

/-- The unit has a shorter form, and is not the unit 0 in two bytes. -/
def IsOverlong : List UInt8 → Prop
  | [b,c] => b.toNat < 0xC2 ∧ ¬(b.toNat = 0xC0 ∧ c.toNat = 0x80)
  | [b,c,_] => b.toNat = 0xE0 ∧ c.toNat < 0xA0
  | _ => False

def IsSurrogateGroup : List UInt8 → Prop
  | [b,c,_] => b.toNat = 0xED ∧ 0xA0 ≤ c.toNat
  | _ => False

section
variable {g : List UInt8}

theorem group_encodeUnit (u : UInt16) : IsGroup (encodeUnit u) := by
  have hu := u.toNat_lt
  unfold encodeUnit
  split
  · simp only [IsGroup,UInt8.toNat_ofNat']
    omega
  split
  · simp only [IsGroup,isContinuation_iff,UInt8.toNat_ofNat']
    omega
  simp only [IsGroup,isContinuation_iff,UInt8.toNat_ofNat']
  omega

theorem not_overlong_encodeUnit (u : UInt16) : ¬IsOverlong (encodeUnit u) := by
  have hu := u.toNat_lt
  unfold encodeUnit
  split
  · exact not_false
  split
  · simp only [IsOverlong,UInt8.toNat_ofNat']
    omega
  simp only [IsOverlong,UInt8.toNat_ofNat']
  omega

theorem unitOf_encodeUnit (u : UInt16) : unitOf (encodeUnit u) = u := by
  have hu := u.toNat_lt
  apply UInt16.toNat_inj.mp
  unfold encodeUnit
  split
  · simp only [unitOf,UInt8.toNat_ofNat',UInt16.toNat_ofNat']
    omega
  split
  · simp only [unitOf,UInt8.toNat_ofNat',UInt16.toNat_ofNat']
    omega
  simp only [unitOf,UInt8.toNat_ofNat',UInt16.toNat_ofNat']
  omega

theorem ofNat_eq {n : Nat} (b : UInt8) (h : n = b.toNat) : UInt8.ofNat n = b := by
  rw [h]
  simp

theorem encodeUnit_unitOf (h : IsGroup g) (hshort : ¬IsOverlong g) : encodeUnit (unitOf g) = g := by
  match g, h, hshort with
  | [b], h, _ =>
    simp only [IsGroup] at h
    simp only [unitOf,encodeUnit,UInt16.toNat_ofNat']
    rw [if_pos (by omega),ofNat_eq b (by omega)]
  | [b,c], h, hshort =>
    simp only [IsGroup,isContinuation_iff] at h
    simp only [IsOverlong] at hshort
    simp only [unitOf,encodeUnit,UInt16.toNat_ofNat']
    rw [if_neg (by omega),if_pos (by omega),ofNat_eq b (by omega),ofNat_eq c (by omega)]
  | [b,c,d], h, hshort =>
    simp only [IsGroup,isContinuation_iff] at h
    simp only [IsOverlong] at hshort
    simp only [unitOf,encodeUnit,UInt16.toNat_ofNat']
    rw [if_neg (by omega),if_neg (by omega),ofNat_eq b (by omega),ofNat_eq c (by omega),ofNat_eq d (by omega)]

theorem isSurrogate_unitOf (h : IsGroup g) : isSurrogate (unitOf g) = true ↔ IsSurrogateGroup g := by
  match g, h with
  | [b], h =>
    simp only [IsGroup] at h
    refine iff_of_false ?_ fun h => h
    simp only [unitOf,isSurrogate,UInt16.toNat_ofNat',Bool.and_eq_true,decide_eq_true_eq]
    omega
  | [b,c], h =>
    simp only [IsGroup,isContinuation_iff] at h
    refine iff_of_false ?_ fun h => h
    simp only [unitOf,isSurrogate,UInt16.toNat_ofNat',Bool.and_eq_true,decide_eq_true_eq]
    omega
  | [b,c,d], h =>
    simp only [IsGroup,isContinuation_iff] at h
    simp only [unitOf,isSurrogate,IsSurrogateGroup,UInt16.toNat_ofNat',Bool.and_eq_true,decide_eq_true_eq]
    omega

theorem group_bytes (h : IsGroup g) : ∀ b ∈ g, b ≠ 0 ∧ b.toNat < 0xF0 := by
  have hne : ∀ b : UInt8, 0 < b.toNat → b ≠ 0 := by
    rintro b hb rfl
    exact absurd hb (by decide)
  match g, h with
  | [b], h =>
    simp only [IsGroup] at h
    simp only [List.forall_mem_cons,List.not_mem_nil,false_imp_iff,implies_true,and_true]
    exact ⟨hne b h.1,by omega⟩
  | [b,c], h =>
    simp only [IsGroup,isContinuation_iff] at h
    simp only [List.forall_mem_cons,List.not_mem_nil,false_imp_iff,implies_true,and_true]
    exact ⟨⟨hne b (by omega),by omega⟩,hne c (by omega),by omega⟩
  | [b,c,d], h =>
    simp only [IsGroup,isContinuation_iff] at h
    simp only [List.forall_mem_cons,List.not_mem_nil,false_imp_iff,implies_true,and_true]
    exact ⟨⟨hne b (by omega),by omega⟩,⟨hne c (by omega),by omega⟩,hne d (by omega),by omega⟩

end

/-- The lead byte says how long a group is, so that bytes are groups in one way only. -/
theorem groups_unique {gs hs : List (List UInt8)} (hgs : ∀ g ∈ gs, IsGroup g) (hhs : ∀ g ∈ hs, IsGroup g)
    (h : gs.flatten = hs.flatten) : gs = hs := by
  induction gs generalizing hs with
  | nil =>
    cases hs with
    | nil => rfl
    | cons g hs => ?_
    have hg := hhs g List.mem_cons_self
    match g, hg with
    | [b], _ => simp at h
    | [b,c], _ => simp at h
    | [b,c,d], _ => simp at h
  | cons g gs ih => ?_
  have hg := hgs g List.mem_cons_self
  cases hs with
  | nil =>
    match g, hg with
    | [b], _ => simp at h
    | [b,c], _ => simp at h
    | [b,c,d], _ => simp at h
  | cons g' hs => ?_
  have hg' := hhs g' List.mem_cons_self
  have hfirst : g = g' ∧ gs.flatten = hs.flatten := by
    match g, g', hg, hg' with
    | [b], [b'], _, _ => simpa using h
    | [b,c], [b',c'], _, _ => simpa [and_assoc] using h
    | [b,c,d], [b',c',d'], _, _ => simpa [and_assoc] using h
    | [b], [b',c'], hg, hg' => simp only [IsGroup] at hg hg'; simp at h; obtain ⟨rfl,-⟩ := h; omega
    | [b], [b',c',d'], hg, hg' => simp only [IsGroup] at hg hg'; simp at h; obtain ⟨rfl,-⟩ := h; omega
    | [b,c], [b'], hg, hg' => simp only [IsGroup] at hg hg'; simp at h; obtain ⟨rfl,-⟩ := h; omega
    | [b,c], [b',c',d'], hg, hg' => simp only [IsGroup] at hg hg'; simp at h; obtain ⟨rfl,-⟩ := h; omega
    | [b,c,d], [b'], hg, hg' => simp only [IsGroup] at hg hg'; simp at h; obtain ⟨rfl,-⟩ := h; omega
    | [b,c,d], [b',c'], hg, hg' => simp only [IsGroup] at hg hg'; simp at h; obtain ⟨rfl,-⟩ := h; omega
  rw [hfirst.1,ih (fun g hg => hgs g (List.mem_cons_of_mem _ hg))
    (fun g hg => hhs g (List.mem_cons_of_mem _ hg)) hfirst.2]

end CratonVM.ModifiedUtf8
