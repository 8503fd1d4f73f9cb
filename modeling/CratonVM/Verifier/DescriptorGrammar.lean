import CratonVM.Verifier.Assignability
import CratonVM.Verifier.Frame

/-!
The descriptor scanners of `classloading/src/vtype.rs` against the grammar of descriptors. The scanners
share one notion of how far a field descriptor extends, except for the return type, which is looked for
from the end of the text.
-/
namespace CratonVM.Reader
open List Option
open Bool hiding true_and

namespace FieldType
def text : FieldType → List Char
  | .byte => ['B']
  | .char => ['C']
  | .double => ['D']
  | .float => ['F']
  | .int => ['I']
  | .long => ['J']
  | .short => ['S']
  | .boolean => ['Z']
  | .object className => 'L' :: className ++ [';']
  | .array component => '[' :: component.text

def dimensions : FieldType → Nat
  | .array component => component.dimensions+1
  | _ => 0

def isNameChar (c : Char) : Bool := c ≠ '.' && c ≠ ';' && c ≠ '['

/-- Class names are not empty and hold none of the characters that are left out of them. -/
def hasName : FieldType → Bool
  | .object className => className ≠ [] && className.all isNameChar
  | .array component => component.hasName
  | _ => true

structure WellFormed (t : FieldType) : Prop where
  name : t.hasName = true
  bounded : t.dimensions ≤ 255

def arrayOf : (dims : Nat) → FieldType → FieldType
  | 0,base => base
  | dims+1,base => .array (arrayOf dims base)

/-- The element behind all brackets. -/
def element : FieldType → FieldType
  | .array component => component.element
  | t => t

end FieldType
namespace MethodDescriptor
def returnText (m : MethodDescriptor) : List Char :=
  match m.returnType with
  | none => ['V']
  | some t => t.text

def text (m : MethodDescriptor) : List Char :=
  '(' :: m.parameters.flatMap FieldType.text ++ ')' :: m.returnText

structure WellFormed (m : MethodDescriptor) : Prop where
  parameters : ∀ t ∈ m.parameters, t.WellFormed
  returnType : ∀ t ∈ m.returnType, t.WellFormed

end MethodDescriptor
namespace FieldType
variable {t : FieldType}

theorem text_arrayOf (dims : Nat) (t : FieldType) :
    (arrayOf dims t).text = replicate dims '[' ++ t.text := by
  induction dims with
  | zero => rfl
  | succ dims ih =>
    rw [arrayOf,text,ih]
    rfl

theorem dimensions_arrayOf (dims : Nat) (t : FieldType) :
    (arrayOf dims t).dimensions = dims+t.dimensions := by
  induction dims with
  | zero => exact (Nat.zero_add _).symm
  | succ dims ih =>
    rw [arrayOf,dimensions,ih]
    omega

theorem hasName_arrayOf (dims : Nat) (t : FieldType) : (arrayOf dims t).hasName = t.hasName := by
  induction dims with
  | zero => rfl
  | succ dims ih => exact ih

theorem eq_arrayOf (t : FieldType) : t = arrayOf t.dimensions t.element := by
  induction t with
  | array component ih => exact congrArg array ih
  | _ => rfl

theorem dimensions_element (t : FieldType) : t.element.dimensions = 0 := by
  induction t with
  | array component ih => exact ih
  | _ => rfl

theorem hasName_element (t : FieldType) : t.element.hasName = t.hasName := by
  induction t with
  | array component ih => exact ih
  | _ => rfl

theorem text_eq (t : FieldType) : t.text = replicate t.dimensions '[' ++ t.element.text := by
  rw [← text_arrayOf,← eq_arrayOf]

theorem text_inj {s : FieldType} (h : t.text = s.text) : t = s := by
  induction t generalizing s with
  | array component ih =>
    cases s with
    | array other =>
      rw [ih (cons.inj h).2]
    | _ => simp [text] at h
  | object className => ?_
  | _ =>
    cases s with
    | object other => simp [text] at h
    | array other => simp [text] at h
    | _ => first | rfl | simp [text] at h
  cases s with
  | object other =>
    simp only [text,cons_append,cons.injEq,true_and,append_cancel_right_eq] at h
    rw [h]
  | _ => simp [text] at h

theorem text_ne_nil (t : FieldType) : t.text ≠ [] := by
  cases t <;> simp [text]

theorem text_ne_void (t : FieldType) (rest : List Char) : t.text ≠ 'V' :: rest := by
  cases t <;> simp [text]

theorem head_text (t : FieldType) : ∃ c rest, t.text = c :: rest ∧ c ≠ ')' := by
  cases t <;> exact ⟨_,_,rfl,by decide⟩

end FieldType
end CratonVM.Reader
namespace CratonVM.Verifier
open Reader
section
variable {t : FieldType}

theorem takeWhile_brackets (dims : Nat) {c : Char} (hc : c ≠ '[') (rest : List Char) :
    (List.replicate dims '[' ++ c :: rest).takeWhile (· = '[') = List.replicate dims '[' := by
  induction dims with
  | zero => simp [hc]
  | succ dims ih =>
    rw [List.replicate_succ,List.cons_append,List.takeWhile_cons_of_pos (by simp),ih]

theorem fieldDescriptorLen_brackets {dims : Nat} (hdims : dims ≤ 255) {c : Char} (hc : c ≠ '[')
    (rest : List Char) : fieldDescriptorLen (List.replicate dims '[' ++ c :: rest) =
      (fieldDescriptorLen (c :: rest)).map (dims+·) := by
  unfold fieldDescriptorLen
  rw [takeWhile_brackets dims hc,List.takeWhile_cons_of_neg (by simpa using hc)]
  simp only [List.length_replicate,List.length_nil,List.drop_zero]
  rw [if_neg (by omega),if_neg (by omega),List.drop_left' (by simp)]
  dsimp only
  split
  · simp
  split
  · split
    · rfl
    split
    · rfl
    · simp [Nat.add_assoc]
  · rfl

theorem takeWhile_name {name : List Char} (hname : name.all FieldType.isNameChar = true) (rest : List Char) :
    (name ++ ';' :: rest).takeWhile (· ≠ ';') = name := by
  induction name with
  | nil => simp
  | cons c name ih => ?_
  rw [List.all_cons,Bool.and_eq_true] at hname
  have hc : c ≠ ';' := by
    have := hname.1
    simp only [FieldType.isNameChar,Bool.and_eq_true,decide_eq_true_eq] at this
    exact this.1.2
  rw [List.cons_append,List.takeWhile_cons_of_pos (by simpa using hc),ih hname.2]

theorem fieldDescriptorLen_object {name : List Char} (hne : name ≠ [])
    (hname : name.all FieldType.isNameChar = true) (rest : List Char) :
    fieldDescriptorLen ('L' :: (name ++ ';' :: rest)) = some (name.length+2) := by
  have hchars : (name.any fun c => c = '.' ∨ c = '[') = false := by
    rw [List.any_eq_false]
    intro c hc
    have := List.all_eq_true.mp hname c hc
    simp only [FieldType.isNameChar,Bool.and_eq_true,decide_eq_true_eq] at this
    simp [this.1.1,this.2]
  unfold fieldDescriptorLen
  rw [List.takeWhile_cons_of_neg (by decide)]
  simp only [List.length_nil,List.drop_zero]
  rw [if_neg (by omega),if_neg (by decide),if_pos trivial,takeWhile_name hname,hchars]
  rw [if_neg (by simp),if_neg (by simp [hne])]
  simp

theorem fieldDescriptorLen_element (hdims : t.dimensions = 0) (hname : t.hasName = true)
    (rest : List Char) : fieldDescriptorLen (t.text ++ rest) = some t.text.length := by
  cases t with
  | array component => cases hdims
  | object name =>
    simp only [FieldType.hasName,Bool.and_eq_true,decide_eq_true_eq] at hname
    rw [FieldType.text,List.cons_append,List.cons_append,List.append_assoc]
    refine (fieldDescriptorLen_object hname.1 hname.2 rest).trans ?_
    simp
  | _ => rfl

theorem fieldDescriptorLen_text (ht : t.WellFormed) (rest : List Char) :
    fieldDescriptorLen (t.text ++ rest) = some t.text.length := by
  obtain ⟨c,after,htext,hc⟩ : ∃ c after, t.element.text = c :: after ∧ c ≠ '[' := by
    have hdims := t.dimensions_element
    cases helem : t.element with
    | array component =>
      rw [helem] at hdims
      cases hdims
    | _ => exact ⟨_,_,rfl,by decide⟩
  have helement := fieldDescriptorLen_element t.dimensions_element
    (t.hasName_element.trans ht.name) rest
  rw [t.text_eq,htext,List.append_assoc,List.cons_append,fieldDescriptorLen_brackets ht.bounded hc,
    ← List.cons_append,← htext,helement]
  simp

theorem eq_name_append {rest : List Char} (h : (rest.takeWhile (· ≠ ';')).length ≠ rest.length) :
    rest = rest.takeWhile (· ≠ ';') ++ ';' :: (rest.dropWhile (· ≠ ';')).tail := by
  have hsplit : rest = rest.takeWhile (· ≠ ';') ++ rest.dropWhile (· ≠ ';') :=
    List.takeWhile_append_dropWhile.symm
  have hne : rest.dropWhile (· ≠ ';') ≠ [] := by
    intro hnil
    rw [hnil,List.append_nil] at hsplit
    exact h (congrArg List.length hsplit).symm
  have hhead : (rest.dropWhile (· ≠ ';')).head hne = ';' := by
    simpa using List.head_dropWhile_not _ hne
  have hcons : ';' :: (rest.dropWhile (· ≠ ';')).tail = rest.dropWhile (· ≠ ';') :=
    (congrArg (· :: _) hhead.symm).trans (List.cons_head_tail hne)
  rw [hcons]
  exact hsplit

theorem text_of_element {s rest : List Char} {dims : Nat} {base : FieldType}
    (hs : s = List.replicate dims '[' ++ (base.text ++ rest)) (hdims : dims ≤ 255)
    (hzero : base.dimensions = 0) (hname : base.hasName = true) :
    ∃ t : FieldType, t.WellFormed ∧ s = t.text ++ s.drop (dims+base.text.length) ∧
      t.text.length = dims+base.text.length := by
  have hlength : (FieldType.arrayOf dims base).text.length = dims+base.text.length := by
    rw [FieldType.text_arrayOf,List.length_append,List.length_replicate]
  refine ⟨FieldType.arrayOf dims base,⟨?_,?_⟩,?_,hlength⟩
  · rw [FieldType.hasName_arrayOf]
    exact hname
  · rw [FieldType.dimensions_arrayOf,hzero]
    exact hdims
  rw [← List.append_assoc,← FieldType.text_arrayOf] at hs
  rw [← hlength,hs,List.drop_left]

theorem text_of_fieldDescriptorLen {s : List Char} {n : Nat} (hlen : fieldDescriptorLen s = some n) :
    ∃ t : FieldType, t.WellFormed ∧ s = t.text ++ s.drop n ∧ t.text.length = n := by
  have hs := eq_brackets s
  unfold fieldDescriptorLen at hlen
  generalize (s.takeWhile (· = '[')).length = dims at hlen hs
  dsimp only at hlen
  split at hlen
  · cases hlen
  rename_i hbound
  have hdims := Nat.not_lt.mp hbound
  split at hlen
  · cases hlen
  rename_i tag rest hdrop
  rw [hdrop] at hs
  split at hlen
  · rename_i htag
    cases hlen
    simp only [List.mem_cons,List.not_mem_nil,or_false] at htag
    rcases htag with rfl | rfl | rfl | rfl | rfl | rfl | rfl | rfl
    · exact @text_of_element _ rest _ .byte hs hdims rfl rfl
    · exact @text_of_element _ rest _ .char hs hdims rfl rfl
    · exact @text_of_element _ rest _ .double hs hdims rfl rfl
    · exact @text_of_element _ rest _ .float hs hdims rfl rfl
    · exact @text_of_element _ rest _ .int hs hdims rfl rfl
    · exact @text_of_element _ rest _ .long hs hdims rfl rfl
    · exact @text_of_element _ rest _ .short hs hdims rfl rfl
    · exact @text_of_element _ rest _ .boolean hs hdims rfl rfl
  split at hlen
  · rename_i htag
    subst htag
    split at hlen
    · cases hlen
    rename_i hchars
    split at hlen
    · cases hlen
    rename_i hends
    cases hlen
    rw [not_or] at hends
    have hrest := eq_name_append hends.1
    have hmark : ∀ c ∈ rest.takeWhile (· ≠ ';'), c ≠ ';' := fun c hc => by
      simpa using List.mem_takeWhile_imp hc
    generalize rest.takeWhile (· ≠ ';') = name at hchars hends hrest hmark
    have hname : (FieldType.object name).hasName = true := by
      simp only [FieldType.hasName,Bool.and_eq_true,decide_eq_true_eq]
      refine ⟨hends.2,List.all_eq_true.mpr fun c hc => ?_⟩
      have hother := List.any_eq_false.mp (Bool.eq_false_iff.mpr hchars) c hc
      simp only [decide_eq_true_eq,not_or] at hother
      simp [FieldType.isNameChar,hmark c hc,hother.1,hother.2]
    rw [hrest] at hs
    have hlength : dims+name.length+2 = dims+(FieldType.object name).text.length := by
      simp [FieldType.text,Nat.add_assoc]
    rw [hlength]
    refine @text_of_element s (rest.dropWhile (· ≠ ';')).tail dims (.object name) ?_ hdims rfl hname
    rw [FieldType.text,List.cons_append,List.cons_append,List.append_assoc]
    exact hs
  · cases hlen

end

def paramSlotsLoop : (fuel : Nat) → List Char → Nat
  | 0,_ => 0
  | _+1,[] => 0
  | fuel+1,c :: rest =>
    if c = ')' then 0
    else
      match fieldDescriptorLen (c :: rest) with
      | none => 0
      | some n => (if c = 'J' ∨ c = 'D' then 2 else 1)+paramSlotsLoop fuel ((c :: rest).drop n)

def descriptorParamSlots : List Char → Nat
  | '(' :: rest => paramSlotsLoop rest.length rest
  | _ => 0

def VType.ofFieldType : FieldType → VType
  | .byte | .char | .short | .boolean | .int => .int
  | .float => .float
  | .long => .long
  | .double => .double
  | .object className => .objectRef className
  | .array component => .arrayRef component.text

theorem fromFieldDescriptor_text (t : FieldType) : VType.fromFieldDescriptor t.text = .ofFieldType t := by
  cases t with
  | object name =>
    have hstrip : stripObjectDescriptor ('L' :: (name ++ [';'])) = some name := strip_classElement name
    simp only [FieldType.text,List.cons_append,VType.fromFieldDescriptor,hstrip]
    rfl
  | _ => rfl

section
variable {t : FieldType} {ts : List FieldType} {fuel : Nat} {s rest : List Char}

theorem skipParameters_cons (ht : t.WellFormed) :
    skipParameters (fuel+1) (t.text ++ s) = skipParameters fuel s := by
  obtain ⟨c,after,htext,hc⟩ := t.head_text
  have hlen := fieldDescriptorLen_text ht s
  have hdrop : (t.text ++ s).drop t.text.length = s := List.drop_left
  rw [htext] at hlen hdrop ⊢
  rw [List.cons_append] at hlen hdrop ⊢
  rw [skipParameters,if_neg hc,hlen,Option.bind_some,hdrop]

theorem paramTypesLoop_cons (ht : t.WellFormed) :
    paramTypesLoop (fuel+1) (t.text ++ s) = .ofFieldType t :: paramTypesLoop fuel s := by
  obtain ⟨c,after,htext,hc⟩ := t.head_text
  have hlen := fieldDescriptorLen_text ht s
  have hdrop : (t.text ++ s).drop t.text.length = s := List.drop_left
  have htake : (t.text ++ s).take t.text.length = t.text := List.take_left
  rw [← fromFieldDescriptor_text]
  rw [htext] at hlen hdrop htake ⊢
  rw [List.cons_append] at hlen hdrop htake ⊢
  rw [paramTypesLoop,if_neg hc,hlen]
  dsimp only
  rw [hdrop,htake]

theorem paramSlotsLoop_cons (ht : t.WellFormed) :
    paramSlotsLoop (fuel+1) (t.text ++ s) = t.stackSlots+paramSlotsLoop fuel s := by
  obtain ⟨c,after,htext,hc⟩ := t.head_text
  have hslots : (if c = 'J' ∨ c = 'D' then 2 else 1) = t.stackSlots := by
    cases t with
    | object name =>
      cases htext
      rfl
    | array component =>
      cases htext
      rfl
    | _ =>
      cases htext
      rfl
  have hlen := fieldDescriptorLen_text ht s
  have hdrop : (t.text ++ s).drop t.text.length = s := List.drop_left
  rw [htext] at hlen hdrop ⊢
  rw [List.cons_append] at hlen hdrop ⊢
  rw [paramSlotsLoop,if_neg hc,hlen]
  dsimp only
  rw [hdrop,hslots]

theorem fuel_of_cons (hfuel : ((t :: ts).flatMap FieldType.text ++ ')' :: rest).length ≤ fuel) :
    ∃ less, fuel = less+1 ∧ (ts.flatMap FieldType.text ++ ')' :: rest).length ≤ less := by
  have hpos := List.length_pos_iff.mpr t.text_ne_nil
  rw [List.flatMap_cons,List.append_assoc,List.length_append] at hfuel
  exact ⟨fuel-1,by omega,by omega⟩

theorem skipParameters_text (hts : ∀ t ∈ ts, t.WellFormed)
    (hfuel : (ts.flatMap FieldType.text ++ ')' :: rest).length ≤ fuel) :
    skipParameters fuel (ts.flatMap FieldType.text ++ ')' :: rest) = some rest := by
  induction ts generalizing fuel with
  | nil =>
    cases fuel with
    | zero => cases hfuel
    | succ fuel => rfl
  | cons t ts ih =>
    obtain ⟨less,rfl,hless⟩ := fuel_of_cons hfuel
    rw [List.flatMap_cons,List.append_assoc,skipParameters_cons (hts t List.mem_cons_self)]
    exact ih (fun u hu => hts u (List.mem_cons_of_mem _ hu)) hless

theorem paramTypesLoop_text (hts : ∀ t ∈ ts, t.WellFormed)
    (hfuel : (ts.flatMap FieldType.text ++ ')' :: rest).length ≤ fuel) :
    paramTypesLoop fuel (ts.flatMap FieldType.text ++ ')' :: rest) = ts.map .ofFieldType := by
  induction ts generalizing fuel with
  | nil =>
    cases fuel with
    | zero => cases hfuel
    | succ fuel => rfl
  | cons t ts ih =>
    obtain ⟨less,rfl,hless⟩ := fuel_of_cons hfuel
    rw [List.flatMap_cons,List.append_assoc,paramTypesLoop_cons (hts t List.mem_cons_self),List.map_cons]
    rw [ih (fun u hu => hts u (List.mem_cons_of_mem _ hu)) hless]

theorem paramSlotsLoop_text (hts : ∀ t ∈ ts, t.WellFormed)
    (hfuel : (ts.flatMap FieldType.text ++ ')' :: rest).length ≤ fuel) :
    paramSlotsLoop fuel (ts.flatMap FieldType.text ++ ')' :: rest) = (ts.map FieldType.stackSlots).sum := by
  induction ts generalizing fuel with
  | nil =>
    cases fuel with
    | zero => cases hfuel
    | succ fuel => rfl
  | cons t ts ih =>
    obtain ⟨less,rfl,hless⟩ := fuel_of_cons hfuel
    rw [List.flatMap_cons,List.append_assoc,paramSlotsLoop_cons (hts t List.mem_cons_self),List.map_cons,
      List.sum_cons]
    rw [ih (fun u hu => hts u (List.mem_cons_of_mem _ hu)) hless]

theorem text_of_skipParameters : ∀ {fuel : Nat} {s : List Char}, skipParameters fuel s = some rest →
    ∃ ts : List FieldType, (∀ t ∈ ts, t.WellFormed) ∧ s = ts.flatMap FieldType.text ++ ')' :: rest
  | 0,_,h => by cases h
  | fuel+1,[],h => by cases h
  | fuel+1,c :: s,h => by
    rw [skipParameters] at h
    split at h
    · rename_i hc
      cases h
      rw [hc]
      exact ⟨[],by simp,rfl⟩
    obtain ⟨n,hn,h⟩ := Option.bind_eq_some_iff.mp h
    obtain ⟨t,ht,htext,-⟩ := text_of_fieldDescriptorLen hn
    obtain ⟨ts,hts,hrest⟩ := text_of_skipParameters h
    refine ⟨t :: ts,?_,?_⟩
    · intro u hu
      rcases List.mem_cons.mp hu with rfl | hu
      · exact ht
      · exact hts u hu
    rw [List.flatMap_cons,List.append_assoc,← hrest]
    exact htext

end

section
variable {m : MethodDescriptor} {d : List Char}

theorem skipParameters_descriptor (hm : m.WellFormed) :
    skipParameters (m.parameters.flatMap FieldType.text ++ ')' :: m.returnText).length
      (m.parameters.flatMap FieldType.text ++ ')' :: m.returnText) = some m.returnText :=
  skipParameters_text hm.parameters le_rfl

theorem isValidFieldDescriptor_iff {s : List Char} :
    isValidFieldDescriptor s = true ↔ ∃ t : FieldType, t.WellFormed ∧ t.text = s := by
  unfold isValidFieldDescriptor
  rw [decide_eq_true_eq]
  constructor
  · intro h
    obtain ⟨t,ht,hs,-⟩ := text_of_fieldDescriptorLen h
    rw [List.drop_length,List.append_nil] at hs
    exact ⟨t,ht,hs.symm⟩
  rintro ⟨t,ht,rfl⟩
  simpa using fieldDescriptorLen_text ht []

theorem isValidMethodDescriptor_iff :
    isValidMethodDescriptor d = true ↔ ∃ m : MethodDescriptor, m.WellFormed ∧ m.text = d := by
  constructor
  · intro h
    unfold isValidMethodDescriptor at h
    split at h
    · split at h
      · rename_i after hskip
        obtain ⟨ts,hts,hrest⟩ := text_of_skipParameters hskip
        refine ⟨⟨ts,none⟩,⟨hts,by simp⟩,?_⟩
        rw [of_decide_eq_true h] at hrest
        rw [hrest]
        rfl
      · rename_i returned _ hskip
        obtain ⟨ts,hts,hrest⟩ := text_of_skipParameters hskip
        obtain ⟨t,ht,htext⟩ := isValidFieldDescriptor_iff.mp h
        refine ⟨⟨ts,some t⟩,⟨hts,fun u hu => ?_⟩,?_⟩
        · cases hu
          exact ht
        rw [hrest,← htext]
        rfl
      · cases h
    · cases h
  rintro ⟨m,hm,rfl⟩
  have hskip := skipParameters_descriptor hm
  unfold isValidMethodDescriptor
  rw [MethodDescriptor.text,List.cons_append]
  simp only [hskip]
  cases hret : m.returnType with
  | none => simp [MethodDescriptor.returnText,hret]
  | some t => ?_
  have hreturn : m.returnText = t.text := by simp [MethodDescriptor.returnText,hret]
  rw [hreturn]
  split
  · rename_i heq
    exact absurd (Option.some.inj heq) (t.text_ne_void _)
  · rename_i heq
    rw [← Option.some.inj heq]
    exact isValidFieldDescriptor_iff.mpr ⟨t,hm.returnType t hret,rfl⟩
  rename_i heq
  cases heq

theorem flatMap_text_inj {ts us : List FieldType} {r r' : List Char} (hts : ∀ t ∈ ts, t.WellFormed)
    (hus : ∀ u ∈ us, u.WellFormed)
    (h : ts.flatMap FieldType.text ++ ')' :: r = us.flatMap FieldType.text ++ ')' :: r') : ts = us := by
  induction ts generalizing us with
  | nil =>
    cases us with
    | nil => rfl
    | cons u us =>
      obtain ⟨c,after,htext,hc⟩ := u.head_text
      rw [List.flatMap_cons,htext] at h
      exact absurd (List.cons.inj h).1.symm hc
  | cons t ts ih => ?_
  cases us with
  | nil =>
    obtain ⟨c,after,htext,hc⟩ := t.head_text
    rw [List.flatMap_cons,htext] at h
    exact absurd (List.cons.inj h).1 hc
  | cons u us => ?_
  rw [List.flatMap_cons,List.flatMap_cons,List.append_assoc,List.append_assoc] at h
  have hlen := fieldDescriptorLen_text (hts t List.mem_cons_self) (ts.flatMap FieldType.text ++ ')' :: r)
  rw [h,fieldDescriptorLen_text (hus u List.mem_cons_self)] at hlen
  obtain ⟨htext,hrest⟩ := List.append_inj h (Option.some.inj hlen).symm
  rw [FieldType.text_inj htext,ih (fun x hx => hts x (List.mem_cons_of_mem _ hx))
    (fun x hx => hus x (List.mem_cons_of_mem _ hx)) hrest]

theorem MethodDescriptor.text_inj {m m' : MethodDescriptor} (hm : m.WellFormed) (hm' : m'.WellFormed)
    (h : m.text = m'.text) : m = m' := by
  obtain ⟨ts,ret⟩ := m
  obtain ⟨us,ret'⟩ := m'
  have hbody : ts.flatMap FieldType.text ++ ')' :: (MethodDescriptor.mk ts ret).returnText =
      us.flatMap FieldType.text ++ ')' :: (MethodDescriptor.mk us ret').returnText := (List.cons.inj h).2
  have hskip := skipParameters_descriptor hm
  rw [hbody,skipParameters_descriptor hm'] at hskip
  have hret : ret = ret' := by
    have hreturn := Option.some.inj hskip
    cases ret with
    | none =>
      cases ret' with
      | none => rfl
      | some u => exact absurd hreturn (u.text_ne_void _)
    | some t =>
      cases ret' with
      | none => exact absurd hreturn.symm (t.text_ne_void _)
      | some u => exact congrArg some (FieldType.text_inj hreturn.symm)
  have hparams : ts = us := flatMap_text_inj hm.parameters hm'.parameters hbody
  rw [hparams,hret]

theorem takeWhile_reverse_last {c : Char} {l r : List Char} (hr : c ∉ r) :
    ((l ++ c :: r).reverse.takeWhile (· ≠ c)).reverse = r := by
  have hall : ∀ x ∈ r.reverse, (decide (x ≠ c)) = true := by
    intro x hx
    rw [decide_eq_true_eq]
    rintro rfl
    exact hr (List.mem_reverse.mp hx)
  rw [List.reverse_append,List.reverse_cons,List.append_assoc,List.takeWhile_append_of_pos hall]
  simp

theorem returnTypeFromDescriptor_last {l r : List Char} (hr : ')' ∉ r) :
    returnTypeFromDescriptor (l ++ ')' :: r) = if r = ['V'] then none else some (.fromFieldDescriptor r) := by
  unfold returnTypeFromDescriptor
  rw [if_pos (by simp)]
  rw [takeWhile_reverse_last hr]

theorem fromFieldDescriptor_inside {name : List Char} (hname : name.all FieldType.isNameChar = true) :
    (∀ e, VType.fromFieldDescriptor (name ++ [';']) ≠ .arrayRef e) ∧
      ∀ n, VType.fromFieldDescriptor (name ++ [';']) = .objectRef n → n.length < name.length := by
  cases name with
  | nil => exact ⟨by simp [VType.fromFieldDescriptor],by simp [VType.fromFieldDescriptor]⟩
  | cons c name => ?_
  rw [List.cons_append]
  unfold VType.fromFieldDescriptor
  split
  all_goals try (refine ⟨?_,?_⟩ <;> simp <;> done)
  · rename_i heq
    cases heq
    rw [show stripObjectDescriptor ('L' :: (name ++ [';'])) = some name from strip_classElement name]
    refine ⟨by simp,fun n h => ?_⟩
    cases h
    simp
  rename_i heq
  cases heq
  simp [FieldType.isNameChar] at hname

theorem exists_last_of_mem {c : Char} {s : List Char} (h : c ∈ s) : ∃ l r, s = l ++ c :: r ∧ c ∉ r := by
  obtain ⟨r,l,hs,hr⟩ := List.eq_append_cons_of_mem (List.mem_reverse.mpr h)
  refine ⟨l.reverse,r.reverse,?_,by simpa using hr⟩
  have := congrArg List.reverse hs
  simpa using this

theorem FieldType.paren_mem_text {t : FieldType} (ht : t.hasName = true) (hp : ')' ∈ t.text) :
    ∃ l name, t.text = l ++ ')' :: (name ++ [';']) ∧ ')' ∉ name ∧ name.all FieldType.isNameChar = true ∧
      ∀ n, t = .object n → name.length < n.length := by
  have hname : ∀ {n : List Char}, n.all FieldType.isNameChar = true → ')' ∈ n →
      ∃ l name, n = l ++ ')' :: name ∧ ')' ∉ name ∧ name.all FieldType.isNameChar = true := by
    intro n hn hmem
    obtain ⟨l,name,rfl,hlast⟩ := exists_last_of_mem hmem
    rw [List.all_append,List.all_cons,Bool.and_eq_true,Bool.and_eq_true] at hn
    exact ⟨l,name,rfl,hlast,hn.2.2⟩
  induction t with
  | object n => ?_
  | array component ih =>
    obtain ⟨l,name,htext,hlast,hall,-⟩ := ih ht (by simpa [FieldType.text] using hp)
    refine ⟨'[' :: l,name,?_,hlast,hall,fun n hn => by cases hn⟩
    rw [FieldType.text,htext]
    rfl
  | _ => simp [FieldType.text] at hp
  simp only [FieldType.hasName,Bool.and_eq_true] at ht
  obtain ⟨l,name,rfl,hlast,hall⟩ := hname ht.2 (by simpa [FieldType.text] using hp)
  refine ⟨'L' :: l,name,by simp [FieldType.text],hlast,hall,fun n hn => ?_⟩
  cases hn
  simp
  omega

theorem returnTypeFromDescriptor_iff (hm : m.WellFormed) :
    returnTypeFromDescriptor m.text = m.returnType.map .ofFieldType ↔ ')' ∉ m.returnText := by
  obtain ⟨ts,ret⟩ := m
  rw [MethodDescriptor.text]
  cases ret with
  | none =>
    have hreturn : (MethodDescriptor.mk ts none).returnText = ['V'] := rfl
    rw [hreturn,returnTypeFromDescriptor_last (by decide)]
    simp
  | some t => ?_
  have hreturn : (MethodDescriptor.mk ts (some t)).returnText = t.text := rfl
  rw [hreturn]
  by_cases hp : ')' ∈ t.text
  · refine iff_of_false ?_ (not_not_intro hp)
    obtain ⟨l,name,htext,hlast,hall,hshort⟩ := FieldType.paren_mem_text (hm.returnType t rfl).name hp
    obtain ⟨harray,hobject⟩ := fromFieldDescriptor_inside hall
    have hlast' : ')' ∉ name ++ [';'] := by simp [hlast]
    have hassoc : '(' :: ts.flatMap FieldType.text ++ ')' :: (l ++ ')' :: (name ++ [';'])) =
        ('(' :: ts.flatMap FieldType.text ++ ')' :: l) ++ ')' :: (name ++ [';']) := by simp
    rw [htext,hassoc,returnTypeFromDescriptor_last hlast',if_neg (by simp [List.append_eq_cons_iff])]
    intro heq
    have heq := Option.some.inj heq
    cases t with
    | object n =>
      have := hobject n heq
      have := hshort n rfl
      omega
    | array component => exact harray _ heq
    | _ => simp [FieldType.text] at hp
  rw [returnTypeFromDescriptor_last hp,if_neg (t.text_ne_void _),fromFieldDescriptor_text]
  exact iff_of_true rfl hp

end

/-- The slots of a parameter, a `long` or `double` with its second one. -/
def slotTypes : FieldType → List VType
  | .long => [.long,.top]
  | .double => [.double,.top]
  | t => [.ofFieldType t]

theorem slotsOf_ofFieldType (t : FieldType) : VerificationFrame.slotsOf (.ofFieldType t) = slotTypes t := by
  cases t <;> rfl

/-- The scanners read the descriptor as the grammar does. -/
structure DescriptorAgrees (d : List Char) (m : MethodDescriptor) : Prop where
  parameters : paramTypesFromDescriptor d = m.parameters.map .ofFieldType
  secondSlots : (paramTypesFromDescriptor d).flatMap VerificationFrame.slotsOf = m.parameters.flatMap slotTypes
  slots : descriptorParamSlots d = m.parametersStackSlots
  returnType : returnTypeFromDescriptor d = m.returnType.map .ofFieldType

theorem paramTypesFromDescriptor_text {m : MethodDescriptor} (hm : m.WellFormed) :
    paramTypesFromDescriptor m.text = m.parameters.map .ofFieldType :=
  paramTypesLoop_text hm.parameters le_rfl

theorem descriptorParamSlots_text {m : MethodDescriptor} (hm : m.WellFormed) :
    descriptorParamSlots m.text = m.parametersStackSlots :=
  paramSlotsLoop_text hm.parameters le_rfl

/-- An accepted descriptor has one reading in the grammar, and the scanners agree with it exactly if
no parenthesis stands in the return type. -/
theorem descriptorAgrees_iff {d : List Char} (hd : isValidMethodDescriptor d = true) :
    ∃ m : MethodDescriptor, m.WellFormed ∧ m.text = d ∧
      (∀ other : MethodDescriptor, other.WellFormed → other.text = d → other = m) ∧
      (DescriptorAgrees d m ↔ ')' ∉ m.returnText) := by
  obtain ⟨m,hm,rfl⟩ := isValidMethodDescriptor_iff.mp hd
  refine ⟨m,hm,rfl,fun other hother htext => MethodDescriptor.text_inj hother hm htext,?_⟩
  constructor
  · intro h
    exact (returnTypeFromDescriptor_iff hm).mp h.returnType
  intro hp
  refine ⟨paramTypesFromDescriptor_text hm,?_,descriptorParamSlots_text hm,
    (returnTypeFromDescriptor_iff hm).mpr hp⟩
  rw [paramTypesFromDescriptor_text hm,List.flatMap_map,funext slotsOf_ofFieldType]

theorem descriptorAgrees_intLong :
    isValidMethodDescriptor "(IJ)J".toList = true ∧
      DescriptorAgrees "(IJ)J".toList ⟨[.int,.long],some .long⟩ := by
  have hd : isValidMethodDescriptor "(IJ)J".toList = true := by decide
  obtain ⟨m,-,-,hunique,hiff⟩ := descriptorAgrees_iff hd
  have hm : ⟨[.int,.long],some .long⟩ = m := by
    refine hunique _ ⟨?_,?_⟩ rfl
    · rintro t (_ | ⟨_,_ | ⟨_,⟨⟩⟩⟩) <;> exact ⟨rfl,by decide⟩
    rintro t ⟨⟩
    exact ⟨rfl,by decide⟩
  rw [hm]
  refine ⟨hd,hiff.mpr ?_⟩
  rw [← hm]
  decide

/-- A method that returns an object of a class `a)b`. -/
theorem returnType_behind_parenthesis :
    isValidMethodDescriptor "()La)b;".toList = true ∧
      MethodDescriptor.WellFormed ⟨[],some (.object "a)b".toList)⟩ ∧
      MethodDescriptor.text ⟨[],some (.object "a)b".toList)⟩ = "()La)b;".toList ∧
      returnTypeFromDescriptor "()La)b;".toList = some .top ∧
      ¬DescriptorAgrees "()La)b;".toList ⟨[],some (.object "a)b".toList)⟩ := by
  have htop : returnTypeFromDescriptor "()La)b;".toList = some .top := by decide
  refine ⟨by decide,⟨by simp,?_⟩,by decide,htop,fun h => ?_⟩
  · rintro t ⟨⟩
    exact ⟨by decide,by decide⟩
  have hreturn := h.returnType
  cases hreturn

end CratonVM.Verifier
