import CratonVM.Reader.Instruction

/-!
Field and method descriptors (`reader/src/field_type.rs`, `reader/src/method_descriptor.rs`) and
the part of the constant pool that names them. A descriptor is the list of its characters.
-/
namespace CratonVM.Reader
open List

inductive FieldType where
  | byte
  | char
  | double
  | float
  | int
  | long
  | short
  | boolean
  | object (className : List Char)
  | array (component : FieldType)
  deriving DecidableEq, Repr

namespace FieldType
def maxArrayDimensions : Nat := 255

/-- The types of one letter. -/
def primitive : Char → Option FieldType
  | 'B' => some .byte
  | 'C' => some .char
  | 'D' => some .double
  | 'F' => some .float
  | 'I' => some .int
  | 'J' => some .long
  | 'S' => some .short
  | 'Z' => some .boolean
  | _ => none

def parsePartialDepth :
    List Char → (dimensions : Nat) → Except ClassReaderError (FieldType × List Char)
  | [], _ => .error (.invalidTypeDescriptor [])
  | c :: rest, dimensions =>
    match primitive c with
    | some fieldType => .ok (fieldType,rest)
    | none =>
      if c = 'L' then
        match rest.dropWhile (· ≠ ';') with
        | [] => .error (.invalidTypeDescriptor (c :: rest))
        | _ :: after => .ok (.object (rest.takeWhile (· ≠ ';')),after)
      else if c = '[' then
        if dimensions ≥ maxArrayDimensions then .error (.invalidTypeDescriptor (c :: rest))
        else
          match parsePartialDepth rest (dimensions+1) with
          | .ok (component,after) => .ok (.array component,after)
          | .error e => .error e
      else .error (.invalidTypeDescriptor (c :: rest))

def parsePartial (descriptor : List Char) : Except ClassReaderError (FieldType × List Char) :=
  parsePartialDepth descriptor 0

def parse (descriptor : List Char) : Except ClassReaderError FieldType :=
  match parsePartial descriptor with
  | .ok (fieldType,[]) => .ok fieldType
  | .ok (_,_ :: _) => .error (.invalidTypeDescriptor descriptor)
  | .error e => .error e

def stackSlots : FieldType → Nat
  | .long | .double => 2
  | _ => 1

end FieldType

structure MethodDescriptor where
  parameters : List FieldType
  returnType : Option FieldType
  deriving DecidableEq, Repr

namespace MethodDescriptor
/-- The parameters up to the closing parenthesis, and what follows it. Every round takes at least
one character, so the length of the text is enough fuel. -/
def parseParameters (descriptor : List Char) :
    (fuel : Nat) → List Char → Except ClassReaderError (List FieldType × List Char)
  | 0, _ => .error (.invalidMethodDescriptor descriptor)
  | _+1, [] => .error (.invalidMethodDescriptor descriptor)
  | fuel+1, c :: rest =>
    if c = ')' then .ok ([],rest)
    else
      match FieldType.parsePartial (c :: rest) with
      | .error e => .error e
      | .ok (parameter,after) =>
        match parseParameters descriptor fuel after with
        | .error e => .error e
        | .ok (parameters,after) => .ok (parameter :: parameters,after)

def parse (descriptor : List Char) : Except ClassReaderError MethodDescriptor :=
  match descriptor with
  | '(' :: rest =>
    match parseParameters descriptor descriptor.length rest with
    | .error e => .error e
    | .ok (parameters,rest) =>
      if rest = ['V'] then .ok ⟨parameters,none⟩
      else
        match FieldType.parse rest with
        | .ok returnType => .ok ⟨parameters,some returnType⟩
        | .error e => .error e
  | _ => .error (.invalidMethodDescriptor descriptor)

def parametersStackSlots (m : MethodDescriptor) : Nat := (m.parameters.map FieldType.stackSlots).sum

end MethodDescriptor

/-- The entries; the values of the numeric ones are left out. -/
inductive ConstantPoolEntry where
  | tombstone
  | utf8 (text : List Char)
  | integer
  | float
  | long
  | double
  | classReference (nameIndex : Nat)
  | stringReference (stringIndex : Nat)
  | fieldReference (classIndex nameAndTypeIndex : Nat)
  | methodReference (classIndex nameAndTypeIndex : Nat)
  | interfaceMethodReference (classIndex nameAndTypeIndex : Nat)
  | nameAndType (nameIndex descriptorIndex : Nat)
  | methodHandle (referenceKind referenceIndex : Nat)
  | methodType (descriptorIndex : Nat)
  | dynamic (bootstrapMethodAttrIndex nameAndTypeIndex : Nat)
  | invokeDynamic (bootstrapMethodAttrIndex nameAndTypeIndex : Nat)
  | module (nameIndex : Nat)
  | package (nameIndex : Nat)
  deriving DecidableEq, Repr

structure ConstantPool where
  entries : List ConstantPoolEntry
  deriving DecidableEq, Repr

namespace ConstantPool
def get (cp : ConstantPool) (index : Nat) : Option ConstantPoolEntry := cp.entries[index]?

def getUtf8 (cp : ConstantPool) (index : Nat) : Option (List Char) :=
  match cp.get index with
  | some (.utf8 text) => some text
  | _ => none

def getClassName (cp : ConstantPool) (index : Nat) : Option (List Char) :=
  match cp.get index with
  | some (.classReference nameIndex) => cp.getUtf8 nameIndex
  | _ => none

def getNameAndType (cp : ConstantPool) (index : Nat) : Option (List Char × List Char) :=
  match cp.get index with
  | some (.nameAndType nameIndex descriptorIndex) => do
    let name ← cp.getUtf8 nameIndex
    let descriptor ← cp.getUtf8 descriptorIndex
    pure (name,descriptor)
  | _ => none

def memberDescriptor (cp : ConstantPool) (index : Nat) : Option (List Char) := do
  let nat ← match cp.get index with
    | some (.fieldReference _ nat) => some nat
    | some (.methodReference _ nat) => some nat
    | some (.interfaceMethodReference _ nat) => some nat
    | some (.invokeDynamic _ nat) => some nat
    | _ => none
  (cp.getNameAndType nat).map Prod.snd

end ConstantPool

def typeWords (descriptor : List Char) : Option Nat :=
  match descriptor with
  | [] => none
  | c :: _ => if c = 'J' ∨ c = 'D' then some 2 else if c = 'V' then none else some 1

def fieldWords (cp : ConstantPool) (index : Nat) : Option Nat :=
  (cp.memberDescriptor index).bind typeWords

def checkedAddWords (a b : Nat) : Option Nat := if a+b < 2^16 then some (a+b) else none

/-- The type behind the brackets of an argument: its words and the text behind it. The source
slices the text at bytes, so a character outside ASCII in the place of a type ends it in a panic. -/
def argumentBody (inArray : Bool) : List Char → Option (Nat × List Char)
  | [] => none
  | c :: after =>
    if c = 'L' then
      match after.dropWhile (· ≠ ';') with
      | [] => none
      | _ :: after => some (1,after)
    else if c.toNat ≥ 128 then none
    else if inArray then some (1,after)
    else (typeWords [c]).map fun words => (words,after)

/-- One argument of a method descriptor. -/
def argumentWords (rest : List Char) : Option (Nat × List Char) :=
  let body := rest.dropWhile (· = '[')
  argumentBody (body.length ≠ rest.length) body

/-- The loop over the arguments; every round takes at least one character. -/
def argumentsWords : (fuel args : Nat) → List Char → Option (Nat × List Char)
  | 0, _, _ => none
  | _+1, _, [] => none
  | fuel+1, args, c :: rest =>
    if c = ')' then some (args,rest)
    else
      match argumentWords (c :: rest) with
      | none => none
      | some (words,after) =>
        match checkedAddWords args words with
        | none => none
        | some args => argumentsWords fuel args after

def methodDescriptorWords (descriptor : List Char) : Option (Nat × Nat) :=
  match descriptor with
  | '(' :: rest =>
    match argumentsWords descriptor.length 0 rest with
    | none => none
    | some (_,[]) => none
    | some (args,c :: after) =>
      if c = 'V' then some (args,0) else (typeWords (c :: after)).map fun ret => (args,ret)
  | _ => none

def memberMethodWords (cp : ConstantPool) (index : Nat) : Option (Nat × Nat) :=
  (cp.memberDescriptor index).bind methodDescriptorWords

variable {t : FieldType}

theorem primitive_spec {c : Char} (h : FieldType.primitive c = some t) :
    c ≠ '[' ∧ c ≠ 'L' ∧ c ≠ ')' ∧ c ≠ 'V' ∧ c.toNat < 128 ∧ typeWords [c] = some t.stackSlots := by
  unfold FieldType.primitive at h
  split at h <;> first | (cases h; decide) | cases h

/-- The three shapes of a type that can be parsed. -/
inductive ParsedType : List Char → Nat → FieldType → List Char → Prop
  | primitive {c : Char} {rest : List Char} {dimensions : Nat} {t : FieldType}
      (h : FieldType.primitive c = some t) : ParsedType (c :: rest) dimensions t rest
  | object {rest after : List Char} {name : List Char} {c : Char} {dimensions : Nat}
      (hd : rest.dropWhile (· ≠ ';') = c :: after) :
      ParsedType ('L' :: rest) dimensions (.object name) after
  | array {rest after : List Char} {dimensions : Nat} {t : FieldType}
      (h : FieldType.parsePartialDepth rest (dimensions+1) = .ok (t,after)) :
      ParsedType ('[' :: rest) dimensions (.array t) after

variable {descriptor after : List Char}

theorem parsedType_of_parse {dimensions : Nat} (h : FieldType.parsePartialDepth descriptor dimensions = .ok (t,after)) :
    ParsedType descriptor dimensions t after := by
  cases descriptor with
  | nil => cases h
  | cons c rest => ?_
  unfold FieldType.parsePartialDepth at h
  split at h
  · rename_i hp
    cases h
    exact .primitive hp
  split at h
  · subst c
    split at h
    · cases h
    rename_i hd
    cases h
    exact .object hd
  split at h
  · subst c
    split at h
    · cases h
    split at h
    · rename_i hrec
      cases h
      exact .array hrec
    · cases h
  · cases h

theorem argumentBody_object {rest : List Char} {c : Char} (inArray : Bool)
    (hd : rest.dropWhile (· ≠ ';') = c :: after) :
    argumentBody inArray ('L' :: rest) = some (1,after) := by
  rw [argumentBody,if_pos rfl,hd]

theorem argumentBody_primitive {c : Char} (h : FieldType.primitive c = some t)
    (inArray : Bool) (rest : List Char) :
    argumentBody inArray (c :: rest) = some (if inArray then 1 else t.stackSlots,rest) := by
  obtain ⟨_,hl,_,_,ha,hw⟩ := primitive_spec h
  rw [argumentBody,if_neg hl,if_neg (Nat.not_le.mpr ha),hw]
  cases inArray with
  | true => rfl
  | false => rfl

theorem argumentBody_component {dimensions : Nat} (h : FieldType.parsePartialDepth descriptor dimensions = .ok (t,after)) :
    argumentBody true (descriptor.dropWhile (· = '[')) = some (1,after) := by
  induction descriptor generalizing dimensions t with
  | nil => cases h
  | cons c rest ih => ?_
  cases parsedType_of_parse h with
  | primitive hp =>
    obtain ⟨hc,_⟩ := primitive_spec hp
    rw [dropWhile_cons_of_neg (by simpa using hc),argumentBody_primitive hp]
    rfl
  | object hd =>
    rw [dropWhile_cons_of_neg (by decide),argumentBody_object _ hd]
  | array hrec =>
    rw [dropWhile_cons_of_pos (by decide)]
    exact ih hrec

theorem argumentWords_of_parse
    (h : FieldType.parsePartial descriptor = .ok (t,after)) :
    argumentWords descriptor = some (t.stackSlots,after) := by
  unfold argumentWords
  cases parsedType_of_parse h with
  | primitive hp =>
    obtain ⟨hc,_⟩ := primitive_spec hp
    rw [dropWhile_cons_of_neg (by simpa using hc),argumentBody_primitive hp]
    simp
  | object hd =>
    rw [dropWhile_cons_of_neg (by decide),argumentBody_object _ hd]
    rfl
  | array hrec => ?_
  rename_i rest t
  have hlen := (dropWhile_sublist (fun c => decide (c = '[')) (l := rest)).length_le
  simp only
  rw [dropWhile_cons_of_pos (by decide),length_cons,decide_eq_true (by omega),
    argumentBody_component hrec]
  rfl

theorem argumentsWords_of_parse {rest : List Char} {fuel fuel' args words : Nat}
    {parameters : List FieldType} {after' : List Char}
    (h : MethodDescriptor.parseParameters descriptor fuel rest = .ok (parameters,after))
    (hw : argumentsWords fuel' args rest = some (words,after')) :
    words = args+(parameters.map FieldType.stackSlots).sum ∧ after' = after := by
  induction fuel generalizing rest args fuel' parameters with
  | zero => cases h
  | succ fuel ih => ?_
  cases fuel' with
  | zero => cases hw
  | succ fuel' => ?_
  cases rest with
  | nil => cases h
  | cons c rest => ?_
  unfold MethodDescriptor.parseParameters at h
  unfold argumentsWords at hw
  split at h
  · rename_i hc
    rw [if_pos hc] at hw
    cases h
    cases hw
    exact ⟨rfl,rfl⟩
  rename_i hc
  rw [if_neg hc] at hw
  split at h
  · cases h
  rename_i parameter rest' hp
  rw [argumentWords_of_parse hp] at hw
  simp only at hw
  split at h
  · cases h
  rename_i more rest'' hrec
  cases h
  unfold checkedAddWords at hw
  split at hw
  · cases hw
  rename_i args' hadd
  split at hadd
  · cases hadd
    obtain ⟨h1,h2⟩ := ih hrec hw
    refine ⟨?_,h2⟩
    rw [h1,map_cons,sum_cons]
    omega
  · cases hadd

theorem typeWords_of_parse
    (h : FieldType.parse descriptor = .ok t) :
    ∃ c after, descriptor = c :: after ∧ c ≠ 'V' ∧ typeWords descriptor = some t.stackSlots := by
  unfold FieldType.parse at h
  split at h
  · rename_i hp
    cases h
    cases parsedType_of_parse hp with
    | primitive hc =>
      obtain ⟨_,_,_,hv,_,hw⟩ := primitive_spec hc
      exact ⟨_,_,rfl,hv,hw⟩
    | object hd => exact ⟨_,_,rfl,by decide,rfl⟩
    | array hrec => exact ⟨_,_,rfl,by decide,rfl⟩
  · cases h
  · cases h

theorem methodDescriptorWords_of_parse {m : MethodDescriptor}
    {args ret : Nat} (h : MethodDescriptor.parse descriptor = .ok m)
    (hw : methodDescriptorWords descriptor = some (args,ret)) :
    args = m.parametersStackSlots ∧ ret = (m.returnType.map FieldType.stackSlots).getD 0 := by
  unfold MethodDescriptor.parse at h
  split at h
  · rename_i rest
    unfold methodDescriptorWords at hw
    simp only at hw
    split at h
    · cases h
    rename_i parameters after hparams
    cases hargs : argumentsWords ('(' :: rest).length 0 rest with
    | none => rw [hargs] at hw; cases hw
    | some found => ?_
    obtain ⟨words,after'⟩ := found
    obtain ⟨h1,h2⟩ := argumentsWords_of_parse hparams hargs
    subst h2
    rw [hargs,h1] at hw
    split at h
    · rename_i hv
      cases h
      subst hv
      cases hw
      exact ⟨Nat.zero_add _,rfl⟩
    cases hparse : FieldType.parse after' with
    | error e => rw [hparse] at h; cases h
    | ok returnType => ?_
    rw [hparse] at h
    cases h
    obtain ⟨c,after,rfl,hv,hwords⟩ := typeWords_of_parse hparse
    simp only [if_neg hv,hwords,Option.map_some] at hw
    cases hw
    exact ⟨Nat.zero_add _,rfl⟩
  · cases h

end CratonVM.Reader
