import CratonVM.Lib.Utf8

/-!
`CONSTANT_Utf8` entries of the constant pool (`reader/src/class_reader.rs`): a strict decoder, which is
a parameter here, and behind it the decoder that takes unpaired surrogates.
-/
namespace CratonVM.Reader.PoolUtf8
open Utf8 Utf16 ModifiedUtf8 List Option

def decodeJavaMutf8ToUtf16 : List UInt8 → Option (List UInt16)
  | [] => some []
  | b0::rest =>
    if b0 = 0x00 then none
    else if b0 < 0x80 then (decodeJavaMutf8ToUtf16 rest).map (b0.toUInt16::·)
    else if b0 &&& 0xE0 = 0xC0 then
      match rest with
      | [] => none
      | b1::rest =>
        if b1 &&& 0xC0 ≠ 0x80 then none
        else (decodeJavaMutf8ToUtf16 rest).map
          (((b0.toUInt16 &&& 0x1F) <<< 6 ||| (b1.toUInt16 &&& 0x3F))::·)
    else if b0 &&& 0xF0 = 0xE0 then
      match rest with
      | b1::b2::rest =>
        if b1 &&& 0xC0 ≠ 0x80 ∨ b2 &&& 0xC0 ≠ 0x80 then none
        else (decodeJavaMutf8ToUtf16 rest).map
          (((b0.toUInt16 &&& 0x0F) <<< 12 ||| (b1.toUInt16 &&& 0x3F) <<< 6 ||| (b2.toUInt16 &&& 0x3F))::·)
      | _ => none
    else none

/-- The stored string of an entry, and its exact units where the side table has them. -/
structure Utf8Entry where
  text : List Char
  wide : Option (List UInt16)
  deriving DecidableEq

/-- The units that the pool exposes. -/
def Utf8Entry.units (e : Utf8Entry) : List UInt16 := e.wide.getD (utf16 e.text)

structure InvalidCesu8String where
  hotspot : String
  index : Nat
  deriving DecidableEq

def illegalUtf8 (index : Nat) : InvalidCesu8String := ⟨"Illegal UTF8 string in constant pool",index⟩

section
variable (fromJavaCesu8 : List UInt8 → Option (List Char))

def readUtf8 (index : Nat) (bytes : List UInt8) : Except InvalidCesu8String Utf8Entry :=
  if bytes.any (fun b => b = 0 || 0xF0 ≤ b) then .error (illegalUtf8 index)
  else match fromJavaCesu8 bytes with
    | some text => .ok ⟨text,none⟩
    | none =>
      match (decodeJavaMutf8ToUtf16 bytes).filter (·.any isSurrogate) with
      | some units => .ok ⟨lossy units,some units⟩
      | none => .error (illegalUtf8 index)

def Cesu8 : Prop := ∀ bytes text, fromJavaCesu8 bytes = some text ↔
  bytes = modifiedUtf8 (utf16 text) ∨ bytes = utf8 text

def Exact (index : Nat) (bytes : List UInt8) : Prop :=
  ((∃ e, readUtf8 fromJavaCesu8 index bytes = .ok e) ↔ ∃ units, bytes = modifiedUtf8 units) ∧
  ∀ e units, readUtf8 fromJavaCesu8 index bytes = .ok e → bytes = modifiedUtf8 units → e.units = units

end

def OverlongBesideSurrogate (bytes : List UInt8) : Prop :=
  ∃ gs : List (List UInt8), bytes = gs.flatten ∧ (∀ g ∈ gs, IsGroup g) ∧ (∃ g ∈ gs, IsOverlong g) ∧
    ∃ g ∈ gs, IsSurrogateGroup g

section
variable {bytes rest : List UInt8} {g : List UInt8}
variable (b : UInt8)

theorem two_lead_iff : b &&& 0xE0 = 0xC0 ↔ 0xC0 ≤ b.toNat ∧ b.toNat < 0xE0 := by
  revert b
  refine forall_byte ?_
  decide +kernel

theorem three_lead_iff : b &&& 0xF0 = 0xE0 ↔ 0xE0 ≤ b.toNat ∧ b.toNat < 0xF0 := by
  revert b
  refine forall_byte ?_
  decide +kernel

theorem continuation_iff : b &&& 0xC0 = 0x80 ↔ isContinuation b = true := by
  simp [isContinuation]

theorem low_bits (k : Nat) : b.toNat &&& (2^k-1) = b.toNat%2^k := Nat.and_two_pow_sub_one_eq_mod _ k

theorem unit_two {b c : UInt8} (h : IsGroup [b,c]) :
    (b.toUInt16 &&& 0x1F) <<< 6 ||| (c.toUInt16 &&& 0x3F) = unitOf [b,c] := by
  simp only [IsGroup,isContinuation_iff] at h
  have hb : b.toNat &&& 31 = b.toNat%32 := low_bits b 5
  have hc : c.toNat &&& 63 = c.toNat%64 := low_bits c 6
  have hshift : (b.toNat%32) <<< 6%65536 = (b.toNat%32) <<< 6 := by
    omega
  apply UInt16.toNat_inj.mp
  simp only [unitOf,UInt16.toNat_or,UInt16.toNat_shiftLeft,UInt16.toNat_and,UInt8.toNat_toUInt16,
    UInt16.toNat_ofNat',UInt16.reduceToNat,hb,hc,Nat.reduceMod,Nat.reducePow]
  rw [hshift,← Nat.shiftLeft_add_eq_or_of_lt (by omega),Nat.shiftLeft_eq]
  omega

theorem unit_three {b c d : UInt8} (h : IsGroup [b,c,d]) :
    (b.toUInt16 &&& 0x0F) <<< 12 ||| (c.toUInt16 &&& 0x3F) <<< 6 ||| (d.toUInt16 &&& 0x3F) = unitOf [b,c,d] := by
  simp only [IsGroup,isContinuation_iff] at h
  have hb : b.toNat &&& 15 = b.toNat%16 := low_bits b 4
  have hc : c.toNat &&& 63 = c.toNat%64 := low_bits c 6
  have hd : d.toNat &&& 63 = d.toNat%64 := low_bits d 6
  have hhigh : (b.toNat%16) <<< 12%65536 = (b.toNat%16) <<< 12 := by
    omega
  have hmiddle : (c.toNat%64) <<< 6%65536 = (c.toNat%64) <<< 6 := by
    omega
  apply UInt16.toNat_inj.mp
  simp only [unitOf,UInt16.toNat_or,UInt16.toNat_shiftLeft,UInt16.toNat_and,UInt8.toNat_toUInt16,
    UInt16.toNat_ofNat',UInt16.reduceToNat,hb,hc,hd,Nat.reduceMod,Nat.reducePow]
  rw [hhigh,hmiddle,← Nat.shiftLeft_add_eq_or_of_lt (by omega)]
  have hjoin : (b.toNat%16) <<< 12+(c.toNat%64) <<< 6 = ((b.toNat%16)*64+c.toNat%64) <<< 6 := by
    omega
  rw [hjoin,← Nat.shiftLeft_add_eq_or_of_lt (by omega),Nat.shiftLeft_eq]
  omega

theorem decode_group (h : IsGroup g) (rest : List UInt8) :
    decodeJavaMutf8ToUtf16 (g++rest) = (decodeJavaMutf8ToUtf16 rest).map (unitOf g::·) := by
  match g, h with
  | [b], h =>
    have hb : b ≠ 0 := (group_bytes h b mem_cons_self).1
    have hlt : b < 0x80 := UInt8.lt_iff_toNat_lt.mpr h.2
    have hunit : b.toUInt16 = unitOf [b] := by
      simp [unitOf]
    rw [singleton_append,decodeJavaMutf8ToUtf16.eq_def]
    dsimp only
    rw [if_neg hb,if_pos hlt,hunit]
  | [b,c], h =>
    have hb : b ≠ 0 := (group_bytes h b mem_cons_self).1
    have hunit := unit_two h
    simp only [IsGroup] at h
    have hlt : ¬b < 0x80 := fun hlt => by
      have : b.toNat < 0x80 := UInt8.lt_iff_toNat_lt.mp hlt
      omega
    have hlead := (two_lead_iff b).mpr ⟨h.1,h.2.1⟩
    rw [cons_append,singleton_append,decodeJavaMutf8ToUtf16.eq_def]
    dsimp only
    rw [if_neg hb,if_neg hlt,if_pos hlead,if_neg (not_not_intro ((continuation_iff c).mpr h.2.2)),hunit]
  | [b,c,d], h =>
    have hb : b ≠ 0 := (group_bytes h b mem_cons_self).1
    have hunit := unit_three h
    simp only [IsGroup] at h
    have hlt : ¬b < 0x80 := fun hlt => by
      have : b.toNat < 0x80 := UInt8.lt_iff_toNat_lt.mp hlt
      omega
    have htwo : ¬b &&& 0xE0 = 0xC0 := fun htwo => by
      have := (two_lead_iff b).mp htwo
      omega
    have hlead := (three_lead_iff b).mpr ⟨h.1,h.2.1⟩
    have hcont : ¬(c &&& 0xC0 ≠ 0x80 ∨ d &&& 0xC0 ≠ 0x80) := by
      rw [not_or,not_not,not_not]
      exact ⟨(continuation_iff c).mpr h.2.2.1,(continuation_iff d).mpr h.2.2.2⟩
    rw [cons_append,cons_append,singleton_append,decodeJavaMutf8ToUtf16.eq_def]
    dsimp only
    rw [if_neg hb,if_neg hlt,if_neg htwo,if_pos hlead,if_neg hcont,hunit]

theorem decode_groups {gs : List (List UInt8)} (h : ∀ g ∈ gs, IsGroup g) :
    decodeJavaMutf8ToUtf16 gs.flatten = some (gs.map unitOf) := by
  induction gs with
  | nil => rfl
  | cons g gs ih =>
    rw [flatten_cons,decode_group (h g mem_cons_self),
      ih fun g' hg' => h g' (mem_cons_of_mem g hg')]
    rfl

theorem groups_of_decode {units : List UInt16} (h : decodeJavaMutf8ToUtf16 bytes = some units) :
    ∃ gs : List (List UInt8), bytes = gs.flatten ∧ (∀ g ∈ gs, IsGroup g) ∧ units = gs.map unitOf := by
  have hcons : ∀ {g rest : List UInt8} {units rest' : List UInt16}, IsGroup g →
      (∃ gs : List (List UInt8), rest = gs.flatten ∧ (∀ g ∈ gs, IsGroup g) ∧ rest' = gs.map unitOf) →
      units = unitOf g::rest' →
      ∃ gs : List (List UInt8), g++rest = gs.flatten ∧ (∀ g ∈ gs, IsGroup g) ∧ units = gs.map unitOf := by
    rintro g rest units rest' hg ⟨gs,rfl,hgs,rfl⟩ rfl
    exact ⟨g::gs,rfl,forall_mem_cons.mpr ⟨hg,hgs⟩,rfl⟩
  fun_induction decodeJavaMutf8ToUtf16 bytes generalizing units with
  | case1 => exact ⟨[],rfl,by simp,by simpa using h.symm⟩
  | case2 rest => cases h
  | case3 b0 rest hzero hlt ih =>
    obtain ⟨rest',hrest,rfl⟩ := map_eq_some_iff.mp h
    have hg : IsGroup [b0] := by
      refine ⟨?_,UInt8.lt_iff_toNat_lt.mp hlt⟩
      rcases Nat.eq_zero_or_pos b0.toNat with h0 | hpos
      · exact absurd (UInt8.toNat_inj.mp h0) hzero
      · exact hpos
    refine hcons hg (ih hrest) ?_
    rw [show b0.toUInt16 = unitOf [b0] from UInt16.toNat_inj.mp (by simp [unitOf])]
  | case4 => cases h
  | case5 => cases h
  | case6 b0 hzero hlt hlead b1 rest hcont ih =>
    obtain ⟨rest',hrest,rfl⟩ := map_eq_some_iff.mp h
    obtain ⟨h1,h2⟩ := (two_lead_iff b0).mp hlead
    have hg : IsGroup [b0,b1] := ⟨h1,h2,(continuation_iff b1).mp (not_not.mp hcont)⟩
    exact hcons hg (ih hrest) (by rw [unit_two hg])
  | case7 => cases h
  | case8 b0 hzero hlt htwo hlead b1 b2 rest hcont ih =>
    obtain ⟨rest',hrest,rfl⟩ := map_eq_some_iff.mp h
    obtain ⟨h1,h2⟩ := (three_lead_iff b0).mp hlead
    rw [not_or,not_not,not_not] at hcont
    have hg : IsGroup [b0,b1,b2] :=
      ⟨h1,h2,(continuation_iff b1).mp hcont.1,(continuation_iff b2).mp hcont.2⟩
    exact hcons hg (ih hrest) (by rw [unit_three hg])
  | case9 => cases h
  | case10 => cases h

theorem decode_modifiedUtf8 (units : List UInt16) : decodeJavaMutf8ToUtf16 (modifiedUtf8 units) = some units := by
  have hgs : ∀ g ∈ units.map encodeUnit, IsGroup g := by
    intro g hg
    obtain ⟨u,-,rfl⟩ := mem_map.mp hg
    exact group_encodeUnit u
  have h := decode_groups hgs
  rw [← flatMap_def,List.map_map,show unitOf ∘ encodeUnit = id from funext unitOf_encodeUnit,List.map_id] at h
  exact h

theorem modifiedUtf8_injective {us vs : List UInt16} (h : modifiedUtf8 us = modifiedUtf8 vs) : us = vs := by
  have := decode_modifiedUtf8 us
  rw [h,decode_modifiedUtf8] at this
  exact (some.inj this).symm

end

section
theorem encodeChar_eq_encodeUnit {c : Char} (h : ∀ b ∈ String.utf8EncodeChar c, b ≠ 0 ∧ b.toNat < 0xF0) :
    String.utf8EncodeChar c = modifiedUtf8 (encodeChar c) := by
  have hsmall : c.val.toNat < 0x10000 := by
    by_contra hlarge
    unfold String.utf8EncodeChar at h
    rw [if_neg (by omega),if_neg (by omega),if_neg (by omega)] at h
    have hlead := (h _ mem_cons_self).2
    rw [UInt8.toNat_ofNat'] at hlead
    omega
  have hpos : 0 < c.val.toNat := by
    rcases Nat.eq_zero_or_pos c.val.toNat with hzero | hpos
    · have hc : c = Char.ofNat 0 := Char.ext (UInt32.toNat_inj.mp hzero)
      subst hc
      exact absurd rfl (h 0 (by decide)).1
    · exact hpos
  have hunit : (UInt16.ofNat c.val.toNat).toNat = c.val.toNat := by
    rw [UInt16.toNat_ofNat']
    omega
  rw [encodeChar,if_pos hsmall,modifiedUtf8,flatMap_singleton,encodeUnit,hunit]
  unfold String.utf8EncodeChar
  by_cases hone : c.val.toNat ≤ 0x7f
  · rw [if_pos hone,if_pos (by omega)]
  rw [if_neg hone,if_neg (show ¬(0 < c.val.toNat ∧ c.val.toNat < 0x80) by omega)]
  by_cases htwo : c.val.toNat ≤ 0x7ff
  · rw [if_pos htwo,if_pos (show c.val.toNat < 0x800 by omega),
      show c.val.toNat/64%0x20+0xc0 = 0xC0+c.val.toNat/64 by omega,Nat.add_comm (c.val.toNat%64)]
  rw [if_neg htwo,if_neg (show ¬c.val.toNat < 0x800 by omega),if_pos (show c.val.toNat ≤ 0xffff by omega),
    show c.val.toNat/4096%0x10+0xe0 = 0xE0+c.val.toNat/4096 by omega,Nat.add_comm (c.val.toNat/64%64),
    Nat.add_comm (c.val.toNat%64)]

theorem utf8_eq_modifiedUtf8 {text : List Char} (h : ∀ b ∈ utf8 text, b ≠ 0 ∧ b.toNat < 0xF0) :
    utf8 text = modifiedUtf8 (utf16 text) := by
  induction text with
  | nil => rfl
  | cons c text ih =>
    rw [utf8_cons] at h ⊢
    rw [encodeChar_eq_encodeUnit fun b hb => h b (mem_append_left _ hb),
      ih fun b hb => h b (mem_append_right _ hb),utf16_cons]
    exact flatMap_append.symm

theorem modifiedUtf8_bytes (units : List UInt16) : ∀ b ∈ modifiedUtf8 units, b ≠ 0 ∧ b.toNat < 0xF0 := by
  intro b hb
  obtain ⟨u,-,hu⟩ := mem_flatMap.mp hb
  exact group_bytes (group_encodeUnit u) b hu

/-- A decoder as the library describes it: standard UTF-8 first, then pairs of surrogates. -/
def referenceCesu8 (bytes : List UInt8) : Option (List Char) :=
  match fromUtf8 bytes with
  | some text => some text
  | none =>
    match (decodeJavaMutf8ToUtf16 bytes).bind strict with
    | some text => if modifiedUtf8 (utf16 text) = bytes then some text else none
    | none => none

theorem cesu8_reference : Cesu8 referenceCesu8 := by
  intro bytes text
  unfold referenceCesu8
  constructor
  · intro h
    split at h
    · rename_i text' htext
      cases h
      exact .inr (fromUtf8_eq_some.mp htext)
    split at h
    · split at h
      · rename_i heq
        cases h
        exact .inl heq.symm
      · cases h
    · cases h
  intro h
  split
  · rename_i text' htext
    have hutf8 := fromUtf8_eq_some.mp htext
    rcases h with hmod | hstd
    · have heq : modifiedUtf8 (utf16 text) = modifiedUtf8 (utf16 text') := by
        rw [← hmod,hutf8]
        refine utf8_eq_modifiedUtf8 ?_
        rw [← hutf8,hmod]
        exact modifiedUtf8_bytes _
      rw [utf16_injective (modifiedUtf8_injective heq)]
    · rw [utf8_injective (hutf8.symm.trans hstd)]
  rename_i hnone
  rcases h with rfl | rfl
  · rw [decode_modifiedUtf8,bind_some,strict_utf16]
    dsimp only
    rw [if_pos rfl]
  rw [fromUtf8_utf8] at hnone
  cases hnone

end

section
variable {fromJavaCesu8 : List UInt8 → Option (List Char)} {bytes : List UInt8} {index : Nat}
variable {gs : List (List UInt8)}

theorem guard_of_group (h : ∀ g ∈ gs, IsGroup g) :
    gs.flatten.any (fun b => b = 0 || 0xF0 ≤ b) = false := by
  rw [List.any_eq_false]
  intro b hb
  obtain ⟨g,hg,hbg⟩ := mem_flatten.mp hb
  obtain ⟨hzero,hlt⟩ := group_bytes (h g hg) b hbg
  have hle : ¬0xF0 ≤ b := fun hle => by
    have : 0xF0 ≤ b.toNat := UInt8.le_iff_toNat_le.mp hle
    omega
  simp [hzero,hle]

variable (units : List UInt16)

theorem modifiedUtf8_eq_flatten : modifiedUtf8 units = (units.map encodeUnit).flatten :=
  flatMap_def

theorem groups_map_encodeUnit : ∀ g ∈ units.map encodeUnit, IsGroup g := by
  intro g hg
  obtain ⟨u,-,rfl⟩ := mem_map.mp hg
  exact group_encodeUnit u

theorem not_overlongBesideSurrogate : ¬OverlongBesideSurrogate (modifiedUtf8 units) := by
  rintro ⟨gs,hflatten,hgs,⟨g,hg,hover⟩,-⟩
  rw [← groups_unique (groups_map_encodeUnit units) hgs hflatten] at hg
  obtain ⟨u,-,rfl⟩ := mem_map.mp hg
  exact not_overlong_encodeUnit u hover

theorem modifiedUtf8_of_groups (hgs : ∀ g ∈ gs, IsGroup g) (hshort : ∀ g ∈ gs, ¬IsOverlong g) :
    gs.flatten = modifiedUtf8 (gs.map unitOf) := by
  rw [modifiedUtf8_eq_flatten,List.map_map]
  congr 1
  conv_lhs => rw [← map_id gs]
  exact map_congr_left fun g hg => (encodeUnit_unitOf (hgs g hg) (hshort g hg)).symm

theorem modifiedUtf8_of_cesu8 (h : Cesu8 fromJavaCesu8) (hguard : bytes.any (fun b => b = 0 || 0xF0 ≤ b) = false)
    {text : List Char} (hsome : fromJavaCesu8 bytes = some text) : bytes = modifiedUtf8 (utf16 text) := by
  rcases (h bytes text).mp hsome with heq | rfl
  · exact heq
  refine utf8_eq_modifiedUtf8 ?_
  intro b hb
  have := any_eq_false.mp hguard b hb
  simp only [Bool.or_eq_true,decide_eq_true_eq,not_or,UInt8.le_iff_toNat_le] at this
  exact ⟨this.1,Nat.not_le.mp this.2⟩

theorem readUtf8_ok_iff {e : Utf8Entry} : readUtf8 fromJavaCesu8 index bytes = .ok e ↔
    bytes.any (fun b => b = 0 || 0xF0 ≤ b) = false ∧
    ((∃ text, fromJavaCesu8 bytes = some text ∧ e = ⟨text,none⟩) ∨
      fromJavaCesu8 bytes = none ∧ ∃ units, decodeJavaMutf8ToUtf16 bytes = some units ∧
        units.any isSurrogate = true ∧ e = ⟨lossy units,some units⟩) := by
  unfold readUtf8
  constructor
  · intro h
    split at h
    · cases h
    rename_i hguard
    refine ⟨Bool.not_eq_true _ ▸ hguard,?_⟩
    split at h
    · rename_i text htext
      exact .inl ⟨text,htext,(Except.ok.inj h).symm⟩
    rename_i hnone
    split at h
    · rename_i units hunits
      obtain ⟨hdecode,hany⟩ := filter_eq_some_iff.mp hunits
      exact .inr ⟨hnone,units,hdecode,hany,(Except.ok.inj h).symm⟩
    · cases h
  rintro ⟨hguard,⟨text,htext,rfl⟩ | ⟨hnone,units,hunits,hany,rfl⟩⟩
  · rw [hguard,htext]
    rfl
  rw [hguard,hnone,filter_eq_some_iff.mpr ⟨hunits,hany⟩]
  rfl

theorem exact_of_not_overlong (h : Cesu8 fromJavaCesu8) (hno : ¬OverlongBesideSurrogate bytes) :
    Exact fromJavaCesu8 index bytes := by
  have hok : ∀ e, readUtf8 fromJavaCesu8 index bytes = .ok e → bytes = modifiedUtf8 e.units := by
    intro e he
    obtain ⟨hguard,⟨text,htext,rfl⟩ | ⟨-,units,hunits,hany,rfl⟩⟩ := (readUtf8_ok_iff).mp he
    · exact modifiedUtf8_of_cesu8 h hguard htext
    obtain ⟨gs,rfl,hgs,rfl⟩ := groups_of_decode hunits
    refine modifiedUtf8_of_groups hgs ?_
    intro g hg hover
    obtain ⟨u,hu,hsur⟩ := any_eq_true.mp hany
    obtain ⟨g',hg',rfl⟩ := mem_map.mp hu
    exact hno ⟨gs,rfl,hgs,⟨g,hg,hover⟩,g',hg',(isSurrogate_unitOf (hgs g' hg')).mp hsur⟩
  refine ⟨⟨fun ⟨e,he⟩ => ⟨e.units,hok e he⟩,?_⟩,?_⟩
  · rintro ⟨units,rfl⟩
    have hguard := guard_of_group (groups_map_encodeUnit units)
    cases hdec : fromJavaCesu8 (modifiedUtf8 units) with
    | some text => exact ⟨⟨text,none⟩,(readUtf8_ok_iff).mpr ⟨hguard,.inl ⟨text,hdec,rfl⟩⟩⟩
    | none => ?_
    cases hany : units.any isSurrogate with
    | true =>
      exact ⟨_,(readUtf8_ok_iff).mpr ⟨hguard,.inr ⟨hdec,units,decode_modifiedUtf8 units,hany,rfl⟩⟩⟩
    | false => ?_
    -- units without surrogates are a text, which the strict decoder takes
    obtain ⟨text,rfl⟩ := exists_utf16 fun (u : UInt16) (hu : u ∈ units) => by
      simpa using any_eq_false.mp hany u hu
    have := (h (modifiedUtf8 (utf16 text)) text).mpr (.inl rfl)
    rw [hdec] at this
    cases this
  intro e units he hunits
  exact modifiedUtf8_injective ((hok e he).symm.trans hunits)

theorem readUtf8_groups (h : Cesu8 fromJavaCesu8) (hgs : ∀ g ∈ gs, IsGroup g)
    (hnot : ∀ units, gs.flatten ≠ modifiedUtf8 units) (hsur : ∃ g ∈ gs, IsSurrogateGroup g) :
    readUtf8 fromJavaCesu8 index gs.flatten = .ok ⟨lossy (gs.map unitOf),some (gs.map unitOf)⟩ := by
  have hguard := guard_of_group hgs
  have hdec : fromJavaCesu8 gs.flatten = none := by
    cases hdec : fromJavaCesu8 gs.flatten with
    | none => rfl
    | some text => exact absurd (modifiedUtf8_of_cesu8 h hguard hdec) (hnot _)
  obtain ⟨g,hg,hg'⟩ := hsur
  have hany : (gs.map unitOf).any isSurrogate = true :=
    any_eq_true.mpr ⟨unitOf g,mem_map_of_mem hg,(isSurrogate_unitOf (hgs g hg)).mpr hg'⟩
  exact (readUtf8_ok_iff).mpr ⟨hguard,.inr ⟨hdec,_,decode_groups hgs,hany,rfl⟩⟩

/-- An entry is taken exactly if it is modified UTF-8, and shows its units, unless an overlong group stands
beside a surrogate. -/
theorem exact_iff (h : Cesu8 fromJavaCesu8) (index : Nat) (bytes : List UInt8) :
    Exact fromJavaCesu8 index bytes ↔ ¬OverlongBesideSurrogate bytes := by
  refine ⟨?_,exact_of_not_overlong h⟩
  rintro ⟨haccepts,-⟩ hbad
  have hnot : ∀ units, bytes ≠ modifiedUtf8 units := by
    rintro units rfl
    exact not_overlongBesideSurrogate units hbad
  obtain ⟨gs,rfl,hgs,-,hsur⟩ := hbad
  obtain ⟨units,hunits⟩ := haccepts.mp ⟨_,readUtf8_groups h hgs hnot hsur⟩
  exact hnot units hunits

theorem exact_iff_loneSurrogate : Exact referenceCesu8 1 [0x78,0xED,0xB0,0x80] := by
  refine (exact_iff cesu8_reference 1 _).mpr ?_
  rw [show [0x78,0xED,0xB0,0x80] = modifiedUtf8 [0x78,0xDC00] by decide]
  exact not_overlongBesideSurrogate _

/-- `A` in two bytes, and an unpaired surrogate. -/
def overlongA : List (List UInt8) := [[0xC1,0x81],[0xED,0xA0,0x80]]

theorem overlongA_accepted : (∃ e, readUtf8 referenceCesu8 1 overlongA.flatten = .ok e ∧ e.units = [0x41,0xD800]) ∧
    ¬∃ units, overlongA.flatten = modifiedUtf8 units := by
  have hgs : ∀ g ∈ overlongA, IsGroup g := by
    simp only [overlongA,forall_mem_cons,not_mem_nil,false_imp_iff,implies_true,and_true]
    exact ⟨⟨by decide,by decide,by decide⟩,by decide,by decide,by decide,by decide⟩
  have hsur : ∃ g ∈ overlongA, IsSurrogateGroup g := ⟨_,mem_cons_of_mem _ mem_cons_self,by decide,by decide⟩
  have hover : ∃ g ∈ overlongA, IsOverlong g := ⟨_,mem_cons_self,by decide,by decide⟩
  have hnot : ∀ units, overlongA.flatten ≠ modifiedUtf8 units := by
    intro units heq
    exact not_overlongBesideSurrogate units (heq ▸ ⟨overlongA,rfl,hgs,hover,hsur⟩)
  exact ⟨⟨_,readUtf8_groups cesu8_reference hgs hnot hsur,by decide⟩,fun ⟨units,h⟩ => hnot units h⟩

end
end CratonVM.Reader.PoolUtf8
