import CratonVM.Verifier.DescriptorGrammar

/-!
The text of a descriptor and its parse (`reader/src/field_type.rs`, `reader/src/method_descriptor.rs`) undo each
other: a descriptor has one spelling, and a parse takes all of it.
-/
namespace CratonVM.Reader
open List

namespace FieldType
/-- Class names hold no semicolon. -/
def delimited : FieldType → Bool
  | .object className => className.all (· ≠ ';')
  | .array component => component.delimited
  | _ => true

theorem text_primitive {c : Char} {t : FieldType} (h : primitive c = some t) : t.text = [c] := by
  unfold primitive at h
  split at h <;> first | (cases h; rfl) | cases h

theorem dropWhile_name {name : List Char} (h : name.all (· ≠ ';') = true) (rest : List Char) :
    (name ++ ';' :: rest).dropWhile (· ≠ ';') = ';' :: rest ∧ (name ++ ';' :: rest).takeWhile (· ≠ ';') = name := by
  induction name with
  | nil => simp
  | cons c name ih =>
    simp only [all_cons,Bool.and_eq_true] at h
    obtain ⟨hdrop,htake⟩ := ih h.2
    rw [cons_append]
    simp only [dropWhile_cons,takeWhile_cons,h.1,if_true,hdrop,htake,and_self]

theorem parsePartialDepth_text {t : FieldType} (hd : t.delimited = true) {dimensions : Nat}
    (h : dimensions+t.dimensions ≤ 255) (rest : List Char) :
    parsePartialDepth (t.text ++ rest) dimensions = .ok (t,rest) := by
  induction t generalizing dimensions with
  | object name => ?_
  | array component ih =>
    rw [FieldType.dimensions] at h
    rw [text,cons_append,parsePartialDepth,ih hd (by omega)]
    simp [primitive,maxArrayDimensions,show dimensions < 255 by omega]
  | _ => rfl
  obtain ⟨hdrop,htake⟩ := dropWhile_name hd rest
  have hp : primitive 'L' = none := rfl
  rw [text,cons_append,cons_append,append_assoc,singleton_append]
  unfold parsePartialDepth
  simp only [hp,hdrop,htake,if_true]

theorem text_of_parsePartialDepth {s rest : List Char} {dimensions : Nat} {t : FieldType}
    (h : parsePartialDepth s dimensions = .ok (t,rest)) : s = t.text ++ rest := by
  induction s generalizing dimensions t with
  | nil => cases h
  | cons c s ih => ?_
  unfold parsePartialDepth at h
  split at h
  · rename_i hp
    cases h
    rw [text_primitive hp,singleton_append]
  split at h
  · subst c
    split at h
    · cases h
    rename_i c after hdrop
    cases h
    obtain rfl : c = ';' := by
      have := head?_dropWhile_not (fun c => decide (c ≠ ';')) s
      rw [hdrop] at this
      simpa using this
    rw [text,cons_append,cons_append,append_assoc,singleton_append,← hdrop,takeWhile_append_dropWhile]
  split at h
  · subst c
    split at h
    · cases h
    split at h
    · rename_i hrec
      cases h
      rw [text,cons_append,← ih hrec]
    · cases h
  · cases h

/-- A parse takes all of its input, and the input is the text of its answer. -/
theorem parse_eq_ok {s : List Char} {t : FieldType} (h : parse s = .ok t) : parsePartial s = .ok (t,[]) ∧ t.text = s := by
  have hp : parsePartial s = .ok (t,[]) := by
    unfold parse at h
    split at h
    · rename_i hp
      cases h
      exact hp
    · cases h
    · cases h
  refine ⟨hp,?_⟩
  rw [text_of_parsePartialDepth hp,append_nil]

theorem parse_text {t : FieldType} (hd : t.delimited = true) (h : t.dimensions ≤ 255) : parse t.text = .ok t := by
  have hp := parsePartialDepth_text hd (show 0+t.dimensions ≤ 255 by omega) []
  rw [append_nil] at hp
  rw [parse,parsePartial,hp]

/-- No type is written like the end of the parameters or like `void`. -/
theorem text_ne (t : FieldType) : ∃ c rest, t.text = c :: rest ∧ c ≠ ')' ∧ c ≠ 'V' := by
  cases t <;> exact ⟨_,_,rfl,by decide,by decide⟩

end FieldType
namespace MethodDescriptor
theorem parseParameters_text {ts : List FieldType} (h : ∀ t ∈ ts, t.delimited = true ∧ t.dimensions ≤ 255)
    (s rest : List Char) {fuel : Nat} (hfuel : (ts.flatMap FieldType.text ++ ')' :: rest).length ≤ fuel) :
    parseParameters s fuel (ts.flatMap FieldType.text ++ ')' :: rest) = .ok (ts,rest) := by
  induction ts generalizing fuel with
  | nil =>
    obtain ⟨fuel,rfl⟩ : ∃ n, fuel = n+1 := ⟨fuel-1,by simp at hfuel; omega⟩
    simp [parseParameters]
  | cons t ts ih => ?_
  obtain ⟨c,tail,htext,hc,-⟩ := t.text_ne
  obtain ⟨hd,hdim⟩ := h t mem_cons_self
  have hp := FieldType.parsePartialDepth_text hd (show 0+t.dimensions ≤ 255 by omega)
    (ts.flatMap FieldType.text ++ ')' :: rest)
  rw [flatMap_cons,append_assoc] at hfuel ⊢
  rw [htext,cons_append] at hp hfuel ⊢
  simp only [length_cons,length_append] at hfuel
  obtain ⟨fuel,rfl⟩ : ∃ n, fuel = n+1 := ⟨fuel-1,by omega⟩
  rw [parseParameters,if_neg hc,FieldType.parsePartial,hp]
  dsimp only
  rw [ih (fun t ht => h t (mem_cons_of_mem _ ht)) (by simp only [length_append,length_cons]; omega)]

theorem text_of_parseParameters {s t rest : List Char} {fuel : Nat} {ts : List FieldType}
    (h : parseParameters s fuel t = .ok (ts,rest)) : t = ts.flatMap FieldType.text ++ ')' :: rest := by
  induction fuel generalizing t ts with
  | zero => cases h
  | succ fuel ih => ?_
  cases t with
  | nil => cases h
  | cons c t => ?_
  rw [parseParameters] at h
  split at h
  · subst c
    cases h
    rfl
  split at h
  · cases h
  rename_i hp
  split at h
  · cases h
  rename_i hrec
  cases h
  rw [flatMap_cons,append_assoc,← ih hrec]
  exact FieldType.text_of_parsePartialDepth hp

theorem parse_text {m : MethodDescriptor}
    (h : ∀ t, t ∈ m.parameters ∨ m.returnType = some t → t.delimited = true ∧ t.dimensions ≤ 255) :
    parse m.text = .ok m := by
  obtain ⟨ts,ret⟩ := m
  have hp := parseParameters_text (fun t ht => h t (.inl ht)) (text ⟨ts,ret⟩) (returnText ⟨ts,ret⟩)
    (Nat.le_succ _)
  simp only [text,cons_append,Nat.succ_eq_add_one] at hp
  simp only [text,cons_append,parse,length_cons,hp]
  cases ret with
  | none => rfl
  | some t => ?_
  obtain ⟨c,tail,htext,-,hc⟩ := t.text_ne
  obtain ⟨hd,hdim⟩ := h t (.inr rfl)
  have hne : returnText ⟨ts,some t⟩ ≠ ['V'] := by
    change t.text ≠ ['V']
    rw [htext]
    exact fun heq => hc (cons.inj heq).1
  rw [if_neg hne,returnText,FieldType.parse_text hd hdim]

theorem text_of_parse {s : List Char} {m : MethodDescriptor} (h : parse s = .ok m) : m.text = s := by
  unfold parse at h
  split at h
  · rename_i rest
    split at h
    · cases h
    rename_i ts after hp
    rw [text_of_parseParameters hp]
    split at h
    · rename_i hv
      cases h
      rw [text,returnText,hv]
      rfl
    split at h
    · rename_i t ht
      cases h
      rw [← (FieldType.parse_eq_ok ht).2]
      rfl
    · cases h
  · cases h

end MethodDescriptor

/-- Printing and parsing are inverse to each other, and a parse leaves nothing over. -/
theorem descriptor_text_canonical :
    (∀ t : FieldType, t.delimited = true → t.dimensions ≤ 255 → FieldType.parse t.text = .ok t) ∧
    (∀ m : MethodDescriptor, (∀ t, t ∈ m.parameters ∨ m.returnType = some t → t.delimited = true ∧ t.dimensions ≤ 255) →
      MethodDescriptor.parse m.text = .ok m) ∧
    (∀ s t, FieldType.parse s = .ok t → FieldType.parsePartial s = .ok (t,[]) ∧ t.text = s) ∧
    ∀ s m, MethodDescriptor.parse s = .ok m → m.text = s :=
  ⟨fun _ hd hdim => FieldType.parse_text hd hdim,fun _ h => MethodDescriptor.parse_text h,
    fun _ _ h => FieldType.parse_eq_ok h,fun _ _ h => MethodDescriptor.text_of_parse h⟩

end CratonVM.Reader
