import CratonVM.Lib.Utf8
import CratonVM.Reader.Descriptor

/-!
The words of a method descriptor as `quickened.rs` counts them over the bytes of the string, with the slice
that panics between the bytes of a character; and the shape of the strings that it counts.
-/
namespace CratonVM.Reader.DescriptorWords
open Utf8 List

/-- How the scan ends without a count. -/
inductive Stop where
  | returnsNone
  | panics
  deriving DecidableEq, Repr

def byteOf (c : Char) : UInt8 := .ofNat c.toNat

/-- What is left of a string begins with a character, or is empty. -/
def isCharBoundary : List UInt8 → Bool
  | [] => true
  | b::_rest => !isContinuation b

def typeWordsAt : List UInt8 → Option Nat
  | [] => none
  | b::_ => if b = byteOf 'J' ∨ b = byteOf 'D' then some 2 else if b = byteOf 'V' then none else some 1

def orNone {α : Type} : Option α → Except Stop α
  | some a => .ok a
  | none => .error .returnsNone

/-- One argument, from its first byte on: its words and the bytes behind it. -/
def argumentAt (rest : List UInt8) : Except Stop (Nat × List UInt8) :=
  match rest.dropWhile (· = byteOf '[') with
  | [] => .error .returnsNone
  | b::after =>
    if b = byteOf 'L' then
      match after.dropWhile (· ≠ byteOf ';') with
      | [] => .error .returnsNone
      | _::after => .ok (1,after)
    else if (b::after).length = rest.length then
      -- the slice of one byte
      if isCharBoundary rest && isCharBoundary after then (orNone (typeWordsAt [b])).map fun words => (words,after)
      else .error .panics
    else .ok (1,after)

/-- The loop over the arguments; every round takes at least one byte. -/
def argumentsAt : (fuel args : Nat) → List UInt8 → Except Stop (Nat × List UInt8)
  | 0, _, _ => .error .returnsNone
  | _+1, _, [] => .error .returnsNone
  | fuel+1, args, b::rest =>
    if b = byteOf ')' then .ok (args,rest)
    else
      match argumentAt (b::rest) with
      | .error e => .error e
      | .ok (words,after) =>
        match checkedAddWords args words with
        | none => .error .returnsNone
        | some args => argumentsAt fuel args after

/-- `(argument words, return words)`. -/
def returnAt (args : Nat) (rest : List UInt8) : Except Stop (Nat × Nat) :=
  match rest with
  | [] => .error .returnsNone
  | b::_ =>
    if b = byteOf 'V' then .ok (args,0)
    else if isCharBoundary rest then (orNone (typeWordsAt rest)).map fun ret => (args,ret)
    else .error .returnsNone

def methodDescriptorWordsAt (bytes : List UInt8) : Except Stop (Nat × Nat) :=
  match bytes with
  | [] => .error .returnsNone
  | b::rest =>
    if b ≠ byteOf '(' then .error .returnsNone
    else
      match argumentsAt bytes.length 0 rest with
      | .error e => .error e
      | .ok (args,rest) => returnAt args rest

def countWords (descriptor : List Char) : Except Stop (Nat × Nat) := methodDescriptorWordsAt (utf8 descriptor)

section
def letterWords (c : Char) : Nat := if c = 'J' ∨ c = 'D' then 2 else 1

/-- What is counted as one argument: a letter, or a class name in `L` and `;` or any letter behind brackets. -/
inductive LooseArgument : List Char → Nat → Prop
  | letter {c : Char} (hascii : c.toNat < 128) (hc : c ≠ ')' ∧ c ≠ '[' ∧ c ≠ 'L' ∧ c ≠ 'V') :
      LooseArgument [c] (letterWords c)
  | cls {name : List Char} (dimensions : Nat) (hname : ';' ∉ name) :
      LooseArgument (List.replicate dimensions '['++ 'L'::(name++[';'])) 1
  | array {c : Char} (dimensions : Nat) (hdim : 0 < dimensions) (hascii : c.toNat < 128)
      (hc : c ≠ '[' ∧ c ≠ 'L') : LooseArgument (List.replicate dimensions '['++[c]) 1

/-- Arguments one behind the other, with the sum of their words. -/
inductive LooseArguments : List Char → Nat → Prop
  | nil : LooseArguments [] 0
  | cons {text more : List Char} {words rest : Nat} (h : LooseArgument text words) (hmore : LooseArguments more rest) :
      LooseArguments (text++more) (words+rest)

/-- The strings that are counted: the sum of the arguments is 16 bits wide, and of the return type only
the first character is looked at. -/
inductive LooseDescriptor : List Char → Nat × Nat → Prop
  | void {text rest : List Char} {args : Nat} (hargs : LooseArguments text args) (hsum : args < 2^16) :
      LooseDescriptor ('('::(text++ ')':: 'V'::rest)) (args,0)
  | value {text rest : List Char} {args : Nat} {c : Char} (hargs : LooseArguments text args) (hsum : args < 2^16)
      (hc : c ≠ 'V') : LooseDescriptor ('('::(text++ ')'::c::rest)) (args,letterWords c)

/-- A character of more than one byte in the place of an argument's letter. -/
def ForeignLetter (descriptor : List Char) : Prop :=
  ∃ text args dimensions c rest, LooseArguments text args ∧ 128 ≤ c.toNat ∧
    descriptor = '('::(text++(List.replicate dimensions '['++c::rest))

end

section
variable {c a : Char} {text : List Char}

theorem encodeChar_ascii (h : c.toNat < 128) : String.utf8EncodeChar c = [byteOf c] := by
  have hval : c.val.toNat ≤ 0x7f := Nat.le_of_lt_succ h
  unfold String.utf8EncodeChar
  rw [if_pos hval]
  rfl

theorem encodeChar_foreign (h : 128 ≤ c.toNat) : ∃ b b' bs, String.utf8EncodeChar c = b::b'::bs ∧
    ∀ x ∈ b::b'::bs, 128 ≤ x.toNat := by
  have hval : 128 ≤ c.val.toNat := h
  unfold String.utf8EncodeChar
  rw [if_neg (by omega)]
  split
  · refine ⟨_,_,_,rfl,?_⟩
    simp only [forall_mem_cons,not_mem_nil,false_imp_iff,implies_true,and_true,UInt8.toNat_ofNat']
    omega
  split
  · refine ⟨_,_,_,rfl,?_⟩
    simp only [forall_mem_cons,not_mem_nil,false_imp_iff,implies_true,and_true,UInt8.toNat_ofNat']
    omega
  refine ⟨_,_,_,rfl,?_⟩
  simp only [forall_mem_cons,not_mem_nil,false_imp_iff,implies_true,and_true,UInt8.toNat_ofNat']
  omega

theorem toNat_byteOf (h : c.toNat < 128) : (byteOf c).toNat = c.toNat := by
  rw [byteOf,UInt8.toNat_ofNat']
  omega

theorem byteOf_inj (hc : c.toNat < 128) (ha : a.toNat < 128) : byteOf c = byteOf a ↔ c = a := by
  constructor
  · intro h
    have := congrArg UInt8.toNat h
    rw [toNat_byteOf hc,toNat_byteOf ha] at this
    exact Char.ext (UInt32.toNat_inj.mp this)
  rintro rfl
  rfl

theorem utf8_ascii (h : c.toNat < 128) (text : List Char) : utf8 (c::text) = byteOf c::utf8 text := by
  rw [utf8_cons,encodeChar_ascii h]
  rfl

theorem ne_of_mem_encodeChar (ha : a.toNat < 128) (hne : c ≠ a) {b : UInt8} (hb : b ∈ String.utf8EncodeChar c) :
    b ≠ byteOf a := by
  by_cases hc : c.toNat < 128
  · rw [encodeChar_ascii hc,mem_singleton] at hb
    rw [hb,Ne,byteOf_inj hc ha]
    exact hne
  obtain ⟨x,y,zs,hshape,hlarge⟩ := encodeChar_foreign (Nat.le_of_not_lt hc)
  rw [hshape] at hb
  have := hlarge b hb
  rintro rfl
  rw [toNat_byteOf ha] at this
  omega

theorem dropWhile_ne_utf8 (ha : a.toNat < 128) (text : List Char) :
    (utf8 text).dropWhile (· ≠ byteOf a) = utf8 (text.dropWhile (· ≠ a)) := by
  induction text with
  | nil => rfl
  | cons c text ih => ?_
  by_cases hc : c = a
  · subst hc
    rw [utf8_ascii ha,dropWhile_cons_of_neg (by simp),dropWhile_cons_of_neg (by simp),utf8_ascii ha]
  rw [utf8_cons,dropWhile_append_of_pos,ih,dropWhile_cons_of_pos (by simpa using hc)]
  intro b hb
  simpa using ne_of_mem_encodeChar ha hc hb

theorem dropWhile_eq_utf8 (ha : a.toNat < 128) (text : List Char) :
    (utf8 text).dropWhile (· = byteOf a) = utf8 (text.dropWhile (· = a)) := by
  induction text with
  | nil => rfl
  | cons c text ih => ?_
  by_cases hc : c = a
  · subst hc
    rw [utf8_ascii ha,dropWhile_cons_of_pos (by simp),ih,dropWhile_cons_of_pos (by simp)]
  obtain ⟨b,bs,hshape,-,-⟩ := encodeChar_shape c
  have hb : b ≠ byteOf a := ne_of_mem_encodeChar ha hc (by rw [hshape]; exact mem_cons_self)
  rw [dropWhile_cons_of_neg (by simpa using hc),utf8_cons,hshape,cons_append,
    dropWhile_cons_of_neg (by simpa using hb)]

theorem isCharBoundary_utf8 (text : List Char) : isCharBoundary (utf8 text) = true := by
  cases text with
  | nil => rfl
  | cons c text =>
    obtain ⟨b,bs,hshape,hb,-⟩ := encodeChar_shape c
    rw [utf8_cons,hshape]
    simp [isCharBoundary,hb]

theorem length_le_utf8 (text : List Char) : text.length ≤ (utf8 text).length := by
  induction text with
  | nil => exact le_rfl
  | cons c text ih =>
    obtain ⟨b,bs,hshape,-⟩ := encodeChar_shape c
    rw [utf8_cons,hshape,length_cons,cons_append,length_cons,length_append]
    omega

end

section
variable {k : Nat} {c : Char} {after : List Char}

theorem typeWords_cons {c : Char} (hc : c ≠ 'V') (rest : List Char) : typeWords (c::rest) = some (letterWords c) := by
  unfold typeWords letterWords
  dsimp only
  rw [if_neg hc]
  split <;> rfl

theorem head_dropWhile {p : Char → Bool} {s : List Char} (h : s.dropWhile p = c::after) : p c = false := by
  have := head?_dropWhile_not p s
  rwa [h] at this

theorem dropWhile_brackets (k : Nat) (hc : c ≠ '[') (after : List Char) :
    (replicate k '['++c::after).dropWhile (· = '[') = c::after := by
  induction k with
  | zero => exact dropWhile_cons_of_neg (by simpa using hc)
  | succ k ih => rwa [replicate_succ,cons_append,dropWhile_cons_of_pos (by simp)]

theorem length_utf8_brackets (k : Nat) (body : List Char) :
    (utf8 (replicate k '['++body)).length = k+(utf8 body).length := by
  induction k with
  | zero => simp
  | succ k ih =>
    rw [replicate_succ,cons_append,utf8_ascii (by decide),length_cons,ih]
    omega

theorem argumentWords_brackets (k : Nat) (hc : c ≠ '[') (after : List Char) :
    argumentWords (replicate k '['++c::after) = argumentBody (k ≠ 0) (c::after) := by
  unfold argumentWords
  rw [dropWhile_brackets k hc]
  simp

theorem argumentAt_letter (k : Nat) (hascii : c.toNat < 128) (hc : c ≠ '[' ∧ c ≠ 'L') (after : List Char) :
    argumentAt (utf8 (replicate k '['++c::after)) =
      if k = 0 then (orNone (typeWords [c])).map fun words => (words,utf8 after) else .ok (1,utf8 after) := by
  have hlen := length_utf8_brackets k (c::after)
  have hboundary := isCharBoundary_utf8 (replicate k '['++c::after)
  have hwords : typeWordsAt [byteOf c] = typeWords [c] := by
    simp [typeWordsAt,typeWords,byteOf_inj hascii (show 'J'.toNat < 128 by decide),
      byteOf_inj hascii (show 'D'.toNat < 128 by decide),byteOf_inj hascii (show 'V'.toNat < 128 by decide)]
  unfold argumentAt
  rw [dropWhile_eq_utf8 (by decide),dropWhile_brackets k hc.1]
  rw [utf8_ascii hascii] at hlen ⊢
  dsimp only
  rw [if_neg (mt (byteOf_inj hascii (by decide)).mp hc.2),hlen,hboundary,isCharBoundary_utf8,hwords]
  by_cases hk : k = 0
  · rw [if_pos (by omega),if_pos hk]
    rfl
  · rw [if_neg (by omega),if_neg hk]

theorem argumentAt_cls (k : Nat) (after : List Char) :
    argumentAt (utf8 (replicate k '['++ 'L'::after)) =
      match after.dropWhile (· ≠ ';') with
      | [] => .error .returnsNone
      | _::rest => .ok (1,utf8 rest) := by
  unfold argumentAt
  rw [dropWhile_eq_utf8 (by decide),dropWhile_brackets k (by decide),utf8_ascii (by decide)]
  dsimp only
  rw [if_pos rfl,dropWhile_ne_utf8 (by decide)]
  cases hd : after.dropWhile (· ≠ ';') with
  | nil => rfl
  | cons x rest =>
    have hx : x = ';' := by simpa using head_dropWhile hd
    rw [hx,utf8_ascii (by decide)]

theorem argumentWords_cls (k : Nat) (after : List Char) :
    argumentWords (replicate k '['++ 'L'::after) =
      match after.dropWhile (· ≠ ';') with
      | [] => none
      | _::rest => some (1,rest) := by
  cases hdrop : after.dropWhile (· ≠ ';') with
  | nil => rw [argumentWords_brackets k (by decide),argumentBody,if_pos rfl,hdrop]
  | cons x rest => rw [argumentWords_brackets k (by decide),argumentBody,if_pos rfl,hdrop]

theorem argumentWords_letter (k : Nat) (hascii : c.toNat < 128) (hc : c ≠ '[' ∧ c ≠ 'L') (after : List Char) :
    argumentWords (replicate k '['++c::after) =
      if k = 0 then (typeWords [c]).map fun words => (words,after) else some (1,after) := by
  rw [argumentWords_brackets k hc.1,argumentBody,if_neg hc.2,if_neg (Nat.not_le.mpr hascii)]
  by_cases hk : k = 0 <;> simp [hk]

theorem dropWhile_name {name : List Char} (hname : ';' ∉ name) (rest : List Char) :
    (name++ ';'::rest).dropWhile (· ≠ ';') = ';'::rest := by
  rw [dropWhile_append_of_pos,dropWhile_cons_of_neg (by simp)]
  intro c hc
  simpa using fun h : c = ';' => hname (h ▸ hc)

variable {text : List Char} {words : Nat}

theorem argument_of_loose (h : LooseArgument text words) (rest : List Char) :
    argumentWords (text++rest) = some (words,rest) ∧
      argumentAt (utf8 (text++rest)) = .ok (words,utf8 rest) := by
  cases h with
  | @letter c hascii hc => ?_
  | @cls name dimensions hname =>
    have htext : replicate dimensions '['++ 'L'::(name++[';'])++rest =
        replicate dimensions '['++ 'L'::(name++ ';'::rest) := by simp
    rw [htext,argumentWords_cls,argumentAt_cls,dropWhile_name hname]
    exact ⟨rfl,rfl⟩
  | @array c dimensions hdim hascii hc =>
    have htext : replicate dimensions '['++[c]++rest = replicate dimensions '['++c::rest := by simp
    rw [htext,argumentWords_letter dimensions hascii hc,argumentAt_letter dimensions hascii hc,
      if_neg (by omega),if_neg (by omega)]
    exact ⟨rfl,rfl⟩
  have hwords := typeWords_cons hc.2.2.2 []
  have h1 := argumentWords_letter 0 hascii ⟨hc.2.1,hc.2.2.1⟩ rest
  have h2 := argumentAt_letter 0 hascii ⟨hc.2.1,hc.2.2.1⟩ rest
  rw [if_pos rfl,hwords] at h1 h2
  exact ⟨h1,h2⟩

theorem eq_brackets (s : List Char) : ∃ k, s = replicate k '['++s.dropWhile (· = '[') := by
  refine ⟨(s.takeWhile (· = '[')).length,?_⟩
  conv_lhs => rw [← takeWhile_append_dropWhile (p := fun c => decide (c = '[')) (l := s)]
  congr 1
  refine eq_replicate_iff.mpr ⟨rfl,?_⟩
  intro c hc
  simpa using mem_takeWhile_imp hc

theorem argument_cases {s : List Char} (hs : s.head? ≠ some ')') :
    (∃ text words rest, s = text++rest ∧ LooseArgument text words) ∨
    (argumentWords s = none ∧ argumentAt (utf8 s) = .error .returnsNone) ∨
    ∃ k c rest, s = replicate k '['++c::rest ∧ 128 ≤ c.toNat := by
  obtain ⟨k,hk⟩ := eq_brackets s
  cases hbody : s.dropWhile (· = '[') with
  | nil =>
    refine .inr (.inl ⟨?_,?_⟩)
    · rw [argumentWords,hbody]
      rfl
    rw [argumentAt,dropWhile_eq_utf8 (by decide),hbody]
    rfl
  | cons c after => ?_
  have hc : c ≠ '[' := by simpa using head_dropWhile hbody
  rw [hbody] at hk
  by_cases hascii : 128 ≤ c.toNat
  · exact .inr (.inr ⟨k,c,after,hk,hascii⟩)
  have hascii := Nat.lt_of_not_le hascii
  by_cases hl : c = 'L'
  · subst hl
    cases hd : after.dropWhile (· ≠ ';') with
    | nil =>
      refine .inr (.inl ?_)
      rw [hk,argumentWords_cls,argumentAt_cls,hd]
      exact ⟨rfl,rfl⟩
    | cons x rest => ?_
    left
    have hx : x = ';' := by simpa using head_dropWhile hd
    have hname : ';' ∉ after.takeWhile (· ≠ ';') := fun hmem => by
      simpa using mem_takeWhile_imp hmem
    refine ⟨_,1,rest,?_,.cls k hname⟩
    rw [hk]
    conv_lhs => rw [← takeWhile_append_dropWhile (p := fun c => decide (c ≠ ';')) (l := after),hd,hx]
    simp
  rcases Nat.eq_zero_or_pos k with rfl | hpos
  · by_cases hv : c = 'V'
    · refine .inr (.inl ?_)
      rw [hk,argumentWords_letter 0 hascii ⟨hc,hl⟩,argumentAt_letter 0 hascii ⟨hc,hl⟩,hv]
      exact ⟨rfl,rfl⟩
    left
    have hparen : c ≠ ')' := by
      rintro rfl
      rw [hk] at hs
      exact hs rfl
    exact ⟨[c],letterWords c,after,hk,.letter hascii ⟨hparen,hc,hl,hv⟩⟩
  · exact .inl ⟨_,1,after,by rw [hk]; simp,.array k hpos hascii ⟨hc,hl⟩⟩

end

section
variable {fuel args : Nat} {s text rest : List Char}

theorem LooseArgument.head {words : Nat} (h : LooseArgument text words) : ∃ c t, text = c::t ∧ c ≠ ')' := by
  cases h with
  | @letter c hascii hc => exact ⟨c,[],rfl,hc.1⟩
  | @cls name dimensions hname =>
    cases dimensions with
    | zero => exact ⟨'L',_,rfl,by decide⟩
    | succ k => exact ⟨'[',_,rfl,by decide⟩
  | @array c dimensions hdim hascii hc =>
    cases dimensions with
    | zero => exact absurd hdim (Nat.lt_irrefl 0)
    | succ k => exact ⟨'[',_,rfl,by decide⟩

theorem argumentsAt_succ (fuel args : Nat) (c : Char) (t : List Char) :
    argumentsAt (fuel+1) args (utf8 (c::t)) =
      if c = ')' then .ok (args,utf8 t)
      else
        match argumentAt (utf8 (c::t)) with
        | .error e => .error e
        | .ok (words,after) =>
          match checkedAddWords args words with
          | none => .error .returnsNone
          | some args => argumentsAt fuel args after := by
  by_cases hc : c = ')'
  · subst hc
    rw [utf8_ascii (by decide),argumentsAt,if_pos rfl,if_pos rfl]
  obtain ⟨b,bs,hshape,-,-⟩ := encodeChar_shape c
  have hb : b ≠ byteOf ')' := ne_of_mem_encodeChar (by decide) hc (by rw [hshape]; exact mem_cons_self)
  rw [utf8_cons,hshape,cons_append,argumentsAt,if_neg hb,if_neg hc]

theorem argumentsAt_continuation {b : UInt8} (hb : isContinuation b = true) (bs : List UInt8) :
    ∃ e, argumentsAt fuel args (b::bs) = .error e := by
  have hrange := (isContinuation_iff b).mp hb
  have hne : ∀ c : Char, c.toNat < 128 → b ≠ byteOf c := by
    rintro c hc rfl
    rw [toNat_byteOf hc] at hrange
    omega
  cases fuel with
  | zero => exact ⟨_,rfl⟩
  | succ fuel => ?_
  rw [argumentsAt,if_neg (hne ')' (by decide)),argumentAt,
    dropWhile_cons_of_neg (by simpa using hne '[' (by decide))]
  dsimp only
  rw [if_neg (hne 'L' (by decide)),if_pos rfl]
  simp [isCharBoundary,hb]

theorem argumentsAt_foreign {c : Char} (hc : 128 ≤ c.toNat) (k : Nat) (rest : List Char) :
    ∃ e, argumentsAt fuel args (utf8 (replicate k '['++c::rest)) = .error e := by
  cases fuel with
  | zero => exact ⟨_,rfl⟩
  | succ fuel => ?_
  have hlen := length_utf8_brackets k (c::rest)
  have hne : ∀ a : Char, a.toNat < 128 → c ≠ a := by
    rintro a ha rfl
    omega
  obtain ⟨b,b',bs,hshape,-⟩ := encodeChar_foreign hc
  obtain ⟨x,xs,hshape',-,hcont⟩ := encodeChar_shape c
  have hb : b ≠ byteOf 'L' :=
    ne_of_mem_encodeChar (by decide) (hne 'L' (by decide)) (by rw [hshape]; exact mem_cons_self)
  have hb' : isContinuation b' = true := by
    refine hcont b' ?_
    rw [hshape] at hshape'
    rw [← (cons.inj hshape').2]
    exact mem_cons_self
  have hat : argumentAt (utf8 (replicate k '['++c::rest)) =
      if k = 0 then .error .panics else .ok (1,b'::(bs++utf8 rest)) := by
    unfold argumentAt
    rw [dropWhile_eq_utf8 (by decide),dropWhile_brackets k (hne '[' (by decide))]
    rw [utf8_cons,hshape] at hlen ⊢
    simp only [cons_append] at hlen ⊢
    rw [if_neg hb,hlen]
    by_cases hk : k = 0
    · simp [isCharBoundary,hb']
    · rw [if_neg (by omega),if_neg hk]
  have hcons : ∃ a t, replicate k '['++c::rest = a::t ∧ a ≠ ')' := by
    cases k with
    | zero => exact ⟨c,rest,rfl,hne ')' (by decide)⟩
    | succ k => exact ⟨'[',_,rfl,by decide⟩
  obtain ⟨a,t,ha,hparen⟩ := hcons
  rw [ha] at hat ⊢
  rw [argumentsAt_succ,if_neg hparen,hat]
  by_cases hk : k = 0
  · exact ⟨.panics,by rw [if_pos hk]⟩
  rw [if_neg hk]
  dsimp only
  cases checkedAddWords args 1 with
  | none => exact ⟨_,rfl⟩
  | some args => exact argumentsAt_continuation hb' _

/-- Loose arguments are counted one after the other, unless their sum is too large. -/
theorem arguments_of_loose {words : Nat} (h : LooseArguments text words) (rest : List Char) (hfuel : text.length < fuel)
    (hargs : args < 2^16) :
    argumentsWords fuel args (text++ ')'::rest) = (if args+words < 2^16 then some (args+words,rest) else none) ∧
    argumentsAt fuel args (utf8 (text++ ')'::rest)) =
      if args+words < 2^16 then .ok (args+words,utf8 rest) else .error .returnsNone := by
  induction h generalizing fuel args with
  | nil =>
    obtain ⟨fuel,rfl⟩ : ∃ n, fuel = n+1 := ⟨fuel-1,by omega⟩
    simp only [Nat.add_zero,nil_append]
    rw [if_pos hargs,if_pos hargs,argumentsAt_succ,if_pos rfl,argumentsWords,if_pos rfl]
    exact ⟨rfl,rfl⟩
  | @cons first more w more' hfirst hmore ih => ?_
  obtain ⟨fuel,rfl⟩ : ∃ n, fuel = n+1 := ⟨fuel-1,by omega⟩
  obtain ⟨c,t,rfl,hc⟩ := hfirst.head
  obtain ⟨h1,h2⟩ := argument_of_loose hfirst (more++ ')'::rest)
  rw [append_assoc]
  rw [cons_append] at h1 h2 hfuel ⊢
  rw [length_cons,length_append] at hfuel
  rw [argumentsAt_succ,if_neg hc,h2,argumentsWords,if_neg hc,h1]
  dsimp only
  unfold checkedAddWords
  by_cases hsum : args+w < 2^16
  · rw [if_pos hsum,← Nat.add_assoc]
    exact ih (by omega) hsum
  rw [if_neg hsum,if_neg (by omega),if_neg (by omega)]
  exact ⟨rfl,rfl⟩

theorem loose_of_argumentsAt {a : Nat} {bytes : List UInt8} (h : argumentsAt fuel args (utf8 s) = .ok (a,bytes))
    (hargs : args < 2^16) :
    ∃ text words rest, s = text++ ')'::rest ∧ LooseArguments text words ∧ a = args+words ∧ bytes = utf8 rest ∧ a < 2^16 := by
  induction fuel generalizing s args with
  | zero => cases h
  | succ fuel ih => ?_
  cases s with
  | nil => cases h
  | cons c t => ?_
  by_cases hc : c = ')'
  · subst hc
    cases h
    exact ⟨[],0,t,rfl,.nil,rfl,rfl,hargs⟩
  rcases argument_cases (s := c::t) (by simpa using hc) with
    ⟨text,w,rest,heq,hloose⟩ | ⟨-,hnone⟩ | ⟨k,d,rest,heq,hd⟩
  · obtain ⟨-,hat⟩ := argument_of_loose hloose rest
    rw [argumentsAt_succ,if_neg hc,heq,hat] at h
    dsimp only at h
    unfold checkedAddWords at h
    split at h
    · cases h
    rename_i args' hadd
    split at hadd
    · cases hadd
      rename_i hsum
      obtain ⟨text',w',rest',rfl,hloose',rfl,rfl,hlt⟩ := ih h hsum
      refine ⟨text++text',w+w',rest',by rw [heq,append_assoc],.cons hloose hloose',?_,rfl,hlt⟩
      rw [Nat.add_assoc]
    · cases hadd
  · rw [argumentsAt_succ,if_neg hc,hnone] at h
    cases h
  obtain ⟨e,he⟩ := @argumentsAt_foreign (fuel+1) args d hd k rest
  rw [heq,he] at h
  cases h

theorem foreign_of_panics (h : argumentsAt fuel args (utf8 s) = .error .panics) :
    ∃ text words k c rest, LooseArguments text words ∧ 128 ≤ c.toNat ∧ s = text++(replicate k '['++c::rest) := by
  induction fuel generalizing s args with
  | zero => cases h
  | succ fuel ih => ?_
  cases s with
  | nil => cases h
  | cons c t => ?_
  by_cases hc : c = ')'
  · subst hc
    cases h
  rcases argument_cases (s := c::t) (by simpa using hc) with
    ⟨text,w,rest,heq,hloose⟩ | ⟨-,hnone⟩ | ⟨k,d,rest,heq,hd⟩
  · obtain ⟨-,hat⟩ := argument_of_loose hloose rest
    rw [argumentsAt_succ,if_neg hc,heq,hat] at h
    dsimp only at h
    split at h
    · cases h
    obtain ⟨text',w',k,d,rest',hloose',hd,rfl⟩ := ih h
    exact ⟨text++text',w+w',k,d,rest',.cons hloose hloose',hd,by rw [heq,append_assoc]⟩
  · rw [argumentsAt_succ,if_neg hc,hnone] at h
    cases h
  · exact ⟨[],0,k,d,rest,.nil,hd,heq⟩

end

section
variable {s : List Char} {r : Nat × Nat}

theorem returnAt_utf8 (args : Nat) (c : Char) (rest : List Char) :
    returnAt args (utf8 (c::rest)) = .ok (args,if c = 'V' then 0 else letterWords c) := by
  have hboundary := isCharBoundary_utf8 (c::rest)
  by_cases hascii : c.toNat < 128
  · rw [utf8_ascii hascii] at hboundary ⊢
    unfold returnAt
    dsimp only
    rw [hboundary]
    by_cases hv : c = 'V'
    · rw [if_pos hv,if_pos ((byteOf_inj hascii (by decide)).mpr hv)]
    rw [if_neg hv,if_neg (mt (byteOf_inj hascii (by decide)).mp hv),if_pos rfl]
    have hwords : typeWordsAt (byteOf c::utf8 rest) = some (letterWords c) := by
      simp only [typeWordsAt,letterWords,byteOf_inj hascii (show 'J'.toNat < 128 by decide),
        byteOf_inj hascii (show 'D'.toNat < 128 by decide),byteOf_inj hascii (show 'V'.toNat < 128 by decide),
        if_neg hv]
      split <;> rfl
    rw [hwords]
    rfl
  have hne : ∀ a : Char, a.toNat < 128 → c ≠ a := by
    rintro a ha rfl
    exact hascii ha
  obtain ⟨b,bs,hshape,-,-⟩ := encodeChar_shape c
  have hb : ∀ a : Char, a.toNat < 128 → b ≠ byteOf a := fun a ha =>
    ne_of_mem_encodeChar ha (hne a ha) (by rw [hshape]; exact mem_cons_self)
  rw [utf8_cons,hshape,cons_append] at hboundary ⊢
  unfold returnAt
  dsimp only
  rw [hboundary,if_neg (hb 'V' (by decide)),if_pos rfl,if_neg (hne 'V' (by decide))]
  have hwords : typeWordsAt (b::(bs++utf8 rest)) = some (letterWords c) := by
    rw [typeWordsAt,letterWords,if_neg (not_or.mpr ⟨hb 'J' (by decide),hb 'D' (by decide)⟩),
      if_neg (hb 'V' (by decide)),if_neg (not_or.mpr ⟨hne 'J' (by decide),hne 'D' (by decide)⟩)]
  rw [hwords]
  rfl

theorem countWords_cons (rest : List Char) : countWords ('('::rest) =
    match argumentsAt (utf8 ('('::rest)).length 0 (utf8 rest) with
    | .error e => .error e
    | .ok (args,rest) => returnAt args rest := by
  rw [countWords,utf8_ascii (by decide),methodDescriptorWordsAt,if_neg (not_not_intro rfl)]

theorem countWords_other {c : Char} (hc : c ≠ '(') (rest : List Char) : countWords (c::rest) = .error .returnsNone := by
  obtain ⟨b,bs,hshape,-,-⟩ := encodeChar_shape c
  have hb : b ≠ byteOf '(' := ne_of_mem_encodeChar (by decide) hc (by rw [hshape]; exact mem_cons_self)
  rw [countWords,utf8_cons,hshape,cons_append,methodDescriptorWordsAt,if_pos hb]

theorem LooseDescriptor.shape (h : LooseDescriptor s r) : ∃ text c rest, LooseArguments text r.1 ∧ r.1 < 2^16 ∧
    s = '('::(text++ ')'::c::rest) ∧ r.2 = if c = 'V' then 0 else letterWords c := by
  cases h with
  | @void text rest args hargs hsum => exact ⟨text,'V',rest,hargs,hsum,rfl,rfl⟩
  | @value text rest args c hargs hsum hc => exact ⟨text,c,rest,hargs,hsum,rfl,by rw [if_neg hc]⟩

theorem looseDescriptor_of_shape {text rest : List Char} {c : Char} {args : Nat} (h : LooseArguments text args)
    (hsum : args < 2^16) : LooseDescriptor ('('::(text++ ')'::c::rest)) (args,if c = 'V' then 0 else letterWords c) := by
  split
  · rename_i hc
    subst hc
    exact .void h hsum
  rename_i hc
  exact .value h hsum hc

theorem countWords_of_loose {text rest : List Char} {c : Char} {args : Nat} (h : LooseArguments text args) :
    countWords ('('::(text++ ')'::c::rest)) =
      if args < 2^16 then .ok (args,if c = 'V' then 0 else letterWords c) else .error .returnsNone := by
  have hfuel : text.length < (utf8 ('('::(text++ ')'::c::rest))).length := by
    have := length_le_utf8 ('('::(text++ ')'::c::rest))
    simp only [length_cons,length_append] at this
    omega
  rw [countWords_cons,(arguments_of_loose h (c::rest) hfuel (show 0 < 2^16 by decide)).2]
  simp only [Nat.zero_add]
  by_cases hsum : args < 2^16
  · rw [if_pos hsum,if_pos hsum]
    exact returnAt_utf8 args c rest
  · rw [if_neg hsum,if_neg hsum]

theorem countWords_ok_iff (s : List Char) (r : Nat × Nat) : countWords s = .ok r ↔ LooseDescriptor s r := by
  constructor
  · intro h
    cases s with
    | nil => cases h
    | cons c s => ?_
    by_cases hc : c = '('
    · subst hc
      rw [countWords_cons] at h
      split at h
      · cases h
      rename_i args bytes hargs
      obtain ⟨text,words,rest,rfl,hloose,rfl,rfl,hlt⟩ := loose_of_argumentsAt hargs (by decide)
      rw [Nat.zero_add] at h hlt
      cases rest with
      | nil => cases h
      | cons d rest =>
        rw [returnAt_utf8] at h
        cases h
        exact looseDescriptor_of_shape hloose hlt
    rw [countWords_other hc] at h
    cases h
  intro h
  obtain ⟨text,c,rest,hargs,hsum,rfl,hret⟩ := h.shape
  rw [countWords_of_loose hargs,if_pos hsum,← hret]

theorem foreignLetter_of_panics (h : countWords s = .error .panics) : ForeignLetter s := by
  cases s with
  | nil => cases h
  | cons c s => ?_
  by_cases hc : c = '('
  · subst hc
    rw [countWords_cons] at h
    split at h
    · rename_i e hargs
      cases h
      obtain ⟨text,words,k,c,rest,hloose,hforeign,rfl⟩ := foreign_of_panics hargs
      exact ⟨text,words,k,c,rest,hloose,hforeign,rfl⟩
    rename_i args bytes hargs
    obtain ⟨text,words,rest,rfl,-,-,rfl,-⟩ := loose_of_argumentsAt hargs (by decide)
    cases rest with
    | nil => cases h
    | cons d rest =>
      rw [returnAt_utf8] at h
      cases h
  rw [countWords_other hc] at h
  cases h

end

section
variable {s after : List Char} {d : Nat} {t : FieldType}

theorem brackets_of_parse (h : FieldType.parsePartialDepth s d = .ok (t,after)) :
    (∃ c, FieldType.primitive c = some t ∧ s = c::after) ∨
    (∃ k name, ';' ∉ name ∧ t.stackSlots = 1 ∧ s = replicate k '['++ 'L'::(name++[';'])++after) ∨
    ∃ k c t', 0 < k ∧ FieldType.primitive c = some t' ∧ t.stackSlots = 1 ∧ s = replicate k '['++[c]++after := by
  induction s generalizing d t with
  | nil => cases h
  | cons c rest ih => ?_
  cases parsedType_of_parse h with
  | primitive hp => exact .inl ⟨c,hp,rfl⟩
  | @object _ _ name x _ hd => ?_
  | array hrec =>
    rcases ih hrec with ⟨c,hc,rfl⟩ | ⟨k,name,hname,-,rfl⟩ | ⟨k,c,t',hk,hc,-,rfl⟩
    · exact .inr (.inr ⟨1,c,_,by decide,hc,rfl,rfl⟩)
    · exact .inr (.inl ⟨k+1,name,hname,rfl,by rfl⟩)
    · exact .inr (.inr ⟨k+1,c,t',by omega,hc,rfl,by rfl⟩)
  have hx : x = ';' := by simpa using head_dropWhile hd
  have hname : ';' ∉ rest.takeWhile (· ≠ ';') := fun hmem => by
    simpa using mem_takeWhile_imp hmem
  refine .inr (.inl ⟨0,_,hname,rfl,?_⟩)
  have hrest := takeWhile_append_dropWhile (p := fun c => decide (c ≠ ';')) (l := rest)
  rw [hd,hx] at hrest
  conv_lhs => rw [← hrest]
  simp

theorem letterWords_primitive {c : Char} (h : FieldType.primitive c = some t) : letterWords c = t.stackSlots := by
  obtain ⟨-,-,-,hv,-,hw⟩ := primitive_spec h
  rw [typeWords_cons hv] at hw
  exact Option.some.inj hw

theorem loose_of_parse (h : FieldType.parsePartial s = .ok (t,after)) :
    ∃ text, s = text++after ∧ LooseArgument text t.stackSlots := by
  rcases brackets_of_parse h with ⟨c,hc,rfl⟩ | ⟨k,name,hname,ht,rfl⟩ | ⟨k,c,t',hk,hc,ht,rfl⟩
  · obtain ⟨hb,hl,hp,hv,ha,-⟩ := primitive_spec hc
    refine ⟨[c],rfl,?_⟩
    rw [← letterWords_primitive hc]
    exact .letter ha ⟨hp,hb,hl,hv⟩
  · rw [ht]
    exact ⟨_,rfl,.cls k hname⟩
  obtain ⟨hb,hl,-,-,ha,-⟩ := primitive_spec hc
  rw [ht]
  exact ⟨_,rfl,.array k hk ha ⟨hb,hl⟩⟩

theorem loose_of_parseParameters {descriptor : List Char} {fuel : Nat} {parameters : List FieldType}
    (h : MethodDescriptor.parseParameters descriptor fuel s = .ok (parameters,after)) :
    ∃ text, s = text++ ')'::after ∧ LooseArguments text (parameters.map FieldType.stackSlots).sum := by
  induction fuel generalizing s parameters with
  | zero => cases h
  | succ fuel ih => ?_
  cases s with
  | nil => cases h
  | cons c rest => ?_
  unfold MethodDescriptor.parseParameters at h
  split at h
  · rename_i hc
    subst hc
    cases h
    exact ⟨[],rfl,.nil⟩
  split at h
  · cases h
  rename_i parameter rest' hp
  split at h
  · cases h
  rename_i more rest'' hrec
  cases h
  obtain ⟨text,heq,hloose⟩ := loose_of_parse hp
  obtain ⟨text',rfl,hmore⟩ := ih hrec
  exact ⟨text++text',by rw [heq,append_assoc],.cons hloose hmore⟩

def returnWords (m : MethodDescriptor) : Nat := (m.returnType.map FieldType.stackSlots).getD 0

theorem loose_of_parseMethod {m : MethodDescriptor} (h : MethodDescriptor.parse s = .ok m) :
    ∃ text c rest, s = '('::(text++ ')'::c::rest) ∧ LooseArguments text m.parametersStackSlots ∧
      returnWords m = if c = 'V' then 0 else letterWords c := by
  unfold MethodDescriptor.parse at h
  split at h
  · split at h
    · cases h
    rename_i parameters after hparams
    obtain ⟨text,rfl,hloose⟩ := loose_of_parseParameters hparams
    split at h
    · rename_i hv
      subst hv
      cases h
      exact ⟨text,'V',[],rfl,hloose,rfl⟩
    cases hparse : FieldType.parse after with
    | error e =>
      rw [hparse] at h
      cases h
    | ok returnType => ?_
    rw [hparse] at h
    cases h
    obtain ⟨c,after,rfl,hv,hwords⟩ := typeWords_of_parse hparse
    refine ⟨text,c,after,rfl,hloose,?_⟩
    rw [typeWords_cons hv] at hwords
    rw [if_neg hv]
    exact (Option.some.inj hwords).symm
  · cases h

/-- A descriptor that can be parsed is counted as it is parsed, or `None` is returned if its arguments have
more than 65535 words; any other string is counted exactly if it has the loose shape; and no string panics
in which no foreign character stands for an argument's type. -/
theorem method_descriptor_words :
    (∀ s m, MethodDescriptor.parse s = .ok m → countWords s =
      if m.parametersStackSlots < 2^16 then .ok (m.parametersStackSlots,returnWords m) else .error .returnsNone) ∧
    (∀ s r, countWords s = .ok r ↔ LooseDescriptor s r) ∧
    ∀ s, ¬ForeignLetter s → countWords s ≠ .error .panics := by
  refine ⟨?_,countWords_ok_iff,fun s hs hpanics => hs (foreignLetter_of_panics hpanics)⟩
  intro s m h
  obtain ⟨text,c,rest,rfl,hloose,hret⟩ := loose_of_parseMethod h
  rw [hret]
  exact countWords_of_loose hloose

theorem parseParameters_longs (descriptor : List Char) (n fuel : Nat) (h : n < fuel) :
    MethodDescriptor.parseParameters descriptor fuel (replicate n 'J'++[')','V']) =
      .ok (replicate n .long,['V']) := by
  induction n generalizing fuel with
  | zero =>
    obtain ⟨fuel,rfl⟩ : ∃ k, fuel = k+1 := ⟨fuel-1,by omega⟩
    rfl
  | succ n ih => ?_
  obtain ⟨fuel,rfl⟩ : ∃ k, fuel = k+1 := ⟨fuel-1,by omega⟩
  have hone : FieldType.parsePartial ('J'::(replicate n 'J'++[')','V'])) =
      .ok (.long,replicate n 'J'++[')','V']) := rfl
  rw [replicate_succ,cons_append,MethodDescriptor.parseParameters,if_neg (by decide),hone]
  dsimp only
  rw [ih fuel (by omega)]
  rfl

/-- As many parameters of type `long`. -/
def longs (n : Nat) : List Char := '('::(List.replicate n 'J'++[')','V'])

theorem parse_longs (n : Nat) : MethodDescriptor.parse (longs n) = .ok ⟨replicate n .long,none⟩ := by
  unfold MethodDescriptor.parse longs
  simp only
  rw [parseParameters_longs _ n _ (by simp only [length_cons,length_append,length_replicate]; omega)]
  rfl

theorem loose_longs (n : Nat) : LooseArguments (replicate n 'J') (2*n) := by
  induction n with
  | zero => exact .nil
  | succ n ih =>
    have h : LooseArguments (['J']++replicate n 'J') (2+2*n) := .cons (.letter (by decide) (by decide)) ih
    rw [show 2*(n+1) = 2+2*n by omega]
    exact h

/-- Arguments of 65536 words are not counted, and strings that cannot be parsed are: one with more behind
`void`, one with a letter that is no type. -/
theorem overflow_and_loose :
    ((MethodDescriptor.parse (longs 32768)).isOk = true ∧ countWords (longs 32768) = .error .returnsNone) ∧
    ((MethodDescriptor.parse ['(',')','V','X']).isOk = false ∧ countWords ['(',')','V','X'] = .ok (0,0)) ∧
    ((MethodDescriptor.parse ['(','Q',')','V']).isOk = false ∧ countWords ['(','Q',')','V'] = .ok (1,0)) := by
  refine ⟨⟨?_,?_⟩,by decide +kernel,by decide +kernel⟩
  · rw [parse_longs]
    rfl
  · exact countWords_of_loose (loose_longs 32768)

end
end CratonVM.Reader.DescriptorWords
