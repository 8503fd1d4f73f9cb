import CratonVM.Verifier.VType

/-!
Assignability against the merge. The relation the walks use is not transitive, since every class
is assignable to every interface while an array of arrays is not. `Widens` is the smaller relation
that a merge moves along: whatever is assignable to a type is assignable to what it widens to.
-/
namespace CratonVM.Verifier
open List Bool

/-- What the trait `ClassHierarchy` documents: the answers are those of one class hierarchy under
`java/lang/Object`, which the verifier's own tables of JDK classes agree with. -/
structure ClassHierarchy.Lawful (h : ClassHierarchy) : Prop where
  subclass_refl : ∀ c, h.isSubclass c c
  subclass_trans : ∀ {a b c}, h.isSubclass a b → h.isSubclass b c → h.isSubclass a c
  subclass_object : ∀ c, h.isSubclass c objectName
  object_root : ∀ {c}, h.isSubclass objectName c → c = objectName
  interface_up : ∀ {i p}, h.isInterface i → h.isSubclass i p → h.isInterface p ∨ p = objectName
  array_interface : ∀ {i p}, isSpecialInterface i → h.isSubclass i p → p = i ∨ p = objectName
  common_left : ∀ a b, h.isSubclass a (h.commonSuperclass a b)
  common_right : ∀ a b, h.isSubclass b (h.commonSuperclass a b)
  known_subtype : ∀ {c p}, isKnownJdkSubtype c p → h.isSubclass c p
  known_interface : ∀ {i}, isKnownJdkInterface i → h.isInterface i

/-- A class hierarchy as the virtual machine has them, whatever `commonSuperclass` answers. -/
structure ClassHierarchy.Shaped (h : ClassHierarchy) : Prop where
  subclass_refl : ∀ c, h.isSubclass c c
  subclass_trans : ∀ {a b c}, h.isSubclass a b → h.isSubclass b c → h.isSubclass a c
  subclass_object : ∀ c, h.isSubclass c objectName
  object_root : ∀ {c}, h.isSubclass objectName c → c = objectName
  interface_up : ∀ {i p}, h.isInterface i → h.isSubclass i p → h.isInterface p ∨ p = objectName
  array_interface : ∀ {i p}, isSpecialInterface i → h.isSubclass i p → p = i ∨ p = objectName
  known_subtype : ∀ {c p}, isKnownJdkSubtype c p → h.isSubclass c p
  known_interface : ∀ {i}, isKnownJdkInterface i → h.isInterface i

theorem ClassHierarchy.Lawful.shaped {h : ClassHierarchy} (hl : h.Lawful) : h.Shaped :=
  ⟨hl.subclass_refl,hl.subclass_trans,hl.subclass_object,hl.object_root,hl.interface_up,
    hl.array_interface,hl.known_subtype,hl.known_interface⟩

structure ClassHierarchy.Joins (h : ClassHierarchy) : Prop where
  common_left : ∀ a b, h.isSubclass a (h.commonSuperclass a b)
  common_right : ∀ a b, h.isSubclass b (h.commonSuperclass a b)

theorem ClassHierarchy.Lawful.joins {h : ClassHierarchy} (hl : h.Lawful) : h.Joins :=
  ⟨hl.common_left,hl.common_right⟩

def classElement (name : List Char) : List Char := 'L' :: name ++ [';']

theorem strip_classElement (name : List Char) :
    stripObjectDescriptor (classElement name) = some name := by
  simp [classElement,stripObjectDescriptor]

variable {name : List Char}

theorem eq_classElement {element : List Char}
    (h : stripObjectDescriptor element = some name) : element = classElement name := by
  unfold stripObjectDescriptor at h
  split at h
  · rename_i rest
    split at h
    · rename_i hlast
      cases h
      have hne : rest ≠ [] := by
        intro hnil
        rw [hnil] at hlast
        cases hlast
      have hget : rest.getLast hne = ';' := by
        rw [getLast?_eq_some_getLast hne] at hlast
        exact Option.some.inj hlast
      unfold classElement
      rw [← hget,cons_append,dropLast_concat_getLast]
    · cases h
  · cases h

theorem isArraySuperclass_object : isArraySuperclass objectName = true := by decide

theorem isArraySuperclass_special (h : isSpecialInterface name = true) :
    isArraySuperclass name = true := by
  simp only [isSpecialInterface,isArraySuperclass,decide_eq_true_eq] at h ⊢
  exact .inr h.symm

theorem isSpecialInterface_of_superclass (h : isArraySuperclass name = true)
    (hne : name ≠ objectName) : isSpecialInterface name = true := by
  simp only [isSpecialInterface,isArraySuperclass,decide_eq_true_eq] at h ⊢
  exact (h.resolve_left hne).symm

section
variable {h : ClassHierarchy} (hs : h.Shaped)
include hs

theorem isArraySuperclass_up {c p : List Char} (hc : isArraySuperclass c = true)
    (hup : h.isSubclass c p = true) : isArraySuperclass p = true := by
  by_cases ho : c = objectName
  · subst ho
    rw [hs.object_root hup]
    exact isArraySuperclass_object
  rcases hs.array_interface (isSpecialInterface_of_superclass hc ho) hup with rfl | rfl
  · exact hc
  · exact isArraySuperclass_object

theorem subclass_or_interface_up {a c p : List Char}
    (ha : (h.isSubclass a c || h.isInterface c || isKnownJdkInterface c) = true)
    (hup : h.isSubclass c p = true) :
    (h.isSubclass a p || h.isInterface p || isKnownJdkInterface p) = true := by
  simp only [or_eq_true] at ha ⊢
  have hiface : h.isInterface c = true → h.isSubclass a p = true ∨ h.isInterface p = true := by
    intro hi
    rcases hs.interface_up hi hup with hi | rfl
    · exact .inr hi
    · exact .inl (hs.subclass_object a)
  rcases ha with (ha | ha) | ha
  · exact .inl (.inl (hs.subclass_trans ha hup))
  · exact .inl (hiface ha)
  · exact .inl (hiface (hs.known_interface ha))

end

section
variable (h : ClassHierarchy)

theorem arrayIsAssignable_refl (e : List Char) : arrayIsAssignable h e e = true := by
  unfold arrayIsAssignable
  rw [if_pos rfl]

theorem arrayIsAssignable_nested (a b : List Char) :
    arrayIsAssignable h ('[' :: a) ('[' :: b) = arrayIsAssignable h a b := by
  by_cases he : a = b
  · subst he
    rw [arrayIsAssignable_refl,arrayIsAssignable_refl]
  · exact if_neg (by simpa using he)

theorem arrayIsAssignable_class {e c : List Char} :
    arrayIsAssignable h e (classElement c) = true ↔
      (∃ a, e = classElement a ∧ (a = c ∨
        (h.isSubclass a c || h.isInterface c || isKnownJdkInterface c) = true)) ∨
      (∃ rest, e = '[' :: rest ∧ isArraySuperclass c = true) := by
  constructor
  · intro ha
    unfold arrayIsAssignable at ha
    split at ha
    · rename_i he
      exact .inl ⟨c,he,.inl rfl⟩
    split at ha
    · split at ha
      · rename_i a p hsa hsp
        rw [strip_classElement] at hsp
        cases hsp
        exact .inl ⟨a,eq_classElement hsa,.inr ha⟩
      · cases ha
    · rename_i heq _
      cases heq
    · split at ha
      · rename_i p hsp
        rw [strip_classElement] at hsp
        cases hsp
        exact .inr ⟨_,rfl,ha⟩
      · cases ha
    · cases ha
  · intro hor
    rcases hor with ⟨a,rfl,ha⟩ | ⟨rest,rfl,hc⟩
    · unfold arrayIsAssignable
      split
      · rfl
      rename_i hne
      rcases ha with rfl | ha
      · exact absurd rfl hne
      simp only [classElement,cons_append]
      rw [show stripObjectDescriptor ('L' :: (a ++ [';'])) = some a from strip_classElement a,
        show stripObjectDescriptor ('L' :: (c ++ [';'])) = some c from strip_classElement c]
      exact ha
    unfold arrayIsAssignable
    simp only [classElement,cons_append]
    rw [show stripObjectDescriptor ('L' :: (c ++ [';'])) = some c from strip_classElement c]
    exact hc

theorem arrayIsAssignable_bracket {e b : List Char}
    (ha : arrayIsAssignable h e ('[' :: b) = true) :
    ∃ a, e = '[' :: a ∧ arrayIsAssignable h a b = true := by
  unfold arrayIsAssignable at ha
  split at ha
  · rename_i he
    exact ⟨b,he,arrayIsAssignable_refl h b⟩
  split at ha
  · rename_i heq _
    cases heq
  · rename_i heq _
    cases heq
    exact ⟨_,rfl,ha⟩
  · rename_i heq _
    cases heq
  · cases ha

/-- What a merge does to the element descriptors of arrays. -/
inductive WidensElement : List Char → List Char → Prop
  | refl (e : List Char) : WidensElement e e
  | subclass {c p : List Char} (hs : h.isSubclass c p = true) :
      WidensElement (classElement c) (classElement p)
  | deep (rest : List Char) {p : List Char} (hp : isArraySuperclass p = true) :
      WidensElement ('[' :: rest) (classElement p)
  | nested {a b : List Char} (hw : WidensElement a b) : WidensElement ('[' :: a) ('[' :: b)

end

variable {a b : List Char}

theorem WidensElement.absorb {h : ClassHierarchy} (hs : h.Shaped)
    (hw : WidensElement h a b) {e : List Char} (he : arrayIsAssignable h e a = true) :
    arrayIsAssignable h e b = true := by
  induction hw generalizing e with
  | refl => exact he
  | subclass hup => ?_
  | deep rest hp =>
    obtain ⟨a,rfl,_⟩ := arrayIsAssignable_bracket h he
    exact (arrayIsAssignable_class h).mpr (.inr ⟨a,rfl,hp⟩)
  | nested _ ih =>
    obtain ⟨a,rfl,ha⟩ := arrayIsAssignable_bracket h he
    rw [arrayIsAssignable_nested]
    exact ih ha
  rw [arrayIsAssignable_class] at he ⊢
  rcases he with ⟨a,rfl,rfl | ha⟩ | ⟨rest,rfl,hc⟩
  · exact .inl ⟨a,rfl,.inr (by simp [hup])⟩
  · exact .inl ⟨a,rfl,.inr (subclass_or_interface_up hs ha hup)⟩
  · exact .inr ⟨rest,rfl,isArraySuperclass_up hs hc hup⟩

theorem WidensElement.isAssignable {h : ClassHierarchy} (hw : WidensElement h a b) :
    arrayIsAssignable h a b = true := by
  induction hw with
  | refl e => exact arrayIsAssignable_refl h e
  | subclass hs => exact (arrayIsAssignable_class h).mpr (.inl ⟨_,rfl,.inr (by simp [hs])⟩)
  | deep rest hp => exact (arrayIsAssignable_class h).mpr (.inr ⟨rest,rfl,hp⟩)
  | nested _ ih =>
    rw [arrayIsAssignable_nested]
    exact ih

/-- An array of at least `d+1` more dimensions widens to an array of `d+1` dimensions of a class
that every array is an instance of. -/
theorem WidensElement.deeper (h : ClassHierarchy) {p : List Char} (hp : isArraySuperclass p = true)
    (d : Nat) (rest : List Char) :
    WidensElement h (replicate (d+1) '[' ++ rest) (replicate d '[' ++ classElement p) := by
  induction d with
  | zero => exact .deep rest hp
  | succ d ih => exact .nested ih

theorem WidensElement.replicate {h : ClassHierarchy} (hw : WidensElement h a b)
    (d : Nat) : WidensElement h (replicate d '[' ++ a) (replicate d '[' ++ b) := by
  induction d with
  | zero => exact hw
  | succ d ih => exact .nested ih

theorem mergeArrays_widens {h : ClassHierarchy} (hj : h.Joins) {inner : List Char}
    (hm : mergeArrays h a b = .arrayRef inner) :
    WidensElement h a inner ∧ WidensElement h b inner := by
  induction a generalizing b inner with
  | nil =>
    unfold mergeArrays at hm
    split at hm
    · rename_i he
      cases hm
      rw [← he]
      exact ⟨.refl _,.refl _⟩
    · cases hm
  | cons c a ih => ?_
  unfold mergeArrays at hm
  split at hm
  · rename_i he
    cases hm
    rw [← he]
    exact ⟨.refl _,.refl _⟩
  split at hm
  · split at hm
    · rename_i aClass bClass ha hb
      cases hm
      rw [eq_classElement ha,eq_classElement hb]
      exact ⟨.subclass (hj.common_left _ _),.subclass (hj.common_right _ _)⟩
    · cases hm
  · rename_i heq _
    cases heq
    split at hm
    · rename_i merged hrec
      cases hm
      exact ⟨.nested (ih hrec).1,.nested (ih hrec).2⟩
    · cases hm
  · cases hm

theorem mergeArrays_or_object (h : ClassHierarchy) (a b : List Char) :
    (∃ inner, mergeArrays h a b = .arrayRef inner) ∨ mergeArrays h a b = .objectRef objectName := by
  unfold mergeArrays
  split
  · exact .inl ⟨_,rfl⟩
  split
  · split
    · exact .inl ⟨_,rfl⟩
    · exact .inr rfl
  · split
    · exact .inl ⟨_,rfl⟩
    · exact .inr rfl
  · exact .inr rfl

namespace VType
theorem isAssignableTo_refl (h : ClassHierarchy) (t : VType) : t.isAssignableTo h t = true := by
  unfold isAssignableTo
  rw [if_pos rfl]

theorem isAssignableTo_top (h : ClassHierarchy) (t : VType) : t.isAssignableTo h .top = true := by
  unfold isAssignableTo
  split
  · rfl
  · rfl

theorem eq_of_isAssignableTo_uninitialized {h : ClassHierarchy} {s t : VType}
    (hu : t.isUninitialized = true) (ha : s.isAssignableTo h t = true) : s = t := by
  unfold isAssignableTo at ha
  split at ha
  · assumption
  cases t with
  | uninitializedThis => cases s <;> cases ha
  | uninitialized n => cases s <;> cases ha
  | _ => cases hu

/-- The relation a merge moves along. -/
inductive Widens (h : ClassHierarchy) : VType → VType → Prop
  | refl (t : VType) : Widens h t t
  | top (t : VType) : Widens h t .top
  | nullObject (n : List Char) : Widens h .null (.objectRef n)
  | nullArray (e : List Char) : Widens h .null (.arrayRef e)
  | subclass {c p : List Char} (hs : h.isSubclass c p = true) : Widens h (.objectRef c) (.objectRef p)
  | arrayObject (e : List Char) {p : List Char} (hp : isArraySuperclass p = true) :
      Widens h (.arrayRef e) (.objectRef p)
  | array {a b : List Char} (hw : WidensElement h a b) : Widens h (.arrayRef a) (.arrayRef b)

section
variable {h : ClassHierarchy}

theorem isAssignableTo_null {s : VType} (ha : s.isAssignableTo h .null = true) : s = .null := by
  unfold isAssignableTo at ha
  split at ha
  · assumption
  · cases s <;> cases ha

variable {e : List Char}

theorem isAssignableTo_arrayRef {s : VType}
    (ha : s.isAssignableTo h (.arrayRef e) = true) :
    s = .null ∨ ∃ a, s = .arrayRef a ∧ arrayIsAssignable h a e = true := by
  unfold isAssignableTo at ha
  split at ha
  · rename_i he
    exact .inr ⟨e,he,arrayIsAssignable_refl h e⟩
  cases s with
  | null => exact .inl rfl
  | arrayRef a => exact .inr ⟨a,rfl,ha⟩
  | _ => cases ha

theorem arrayRef_isAssignableTo {a : List Char} (ha : arrayIsAssignable h a e = true) :
    (arrayRef a).isAssignableTo h (.arrayRef e) = true := by
  unfold isAssignableTo
  split
  · rfl
  · exact ha

theorem arrayRef_isAssignableTo_object {p : List Char}
    (hp : (isArraySuperclass p || h.isInterface p || isKnownJdkInterface p) = true) :
    (arrayRef e).isAssignableTo h (.objectRef p) = true := by
  exact hp

section
variable (hs : h.Shaped)
include hs

theorem objectRef_isAssignableTo {c p : List Char} :
    (objectRef c).isAssignableTo h (.objectRef p) = true ↔
      (h.isSubclass c p || h.isInterface p || isKnownJdkInterface p) = true := by
  unfold isAssignableTo
  split
  · rename_i he
    cases he
    simp [hs.subclass_refl]
  simp only [or_eq_true]
  constructor
  · intro ha
    rcases ha with ((ha | ha) | ha) | ha
    · exact .inl (.inl ha)
    · exact .inl (.inl (hs.known_subtype ha))
    · exact .inl (.inr ha)
    · exact .inr ha
  intro ha
  rcases ha with (ha | ha) | ha
  · exact .inl (.inl (.inl ha))
  · exact .inl (.inr ha)
  · exact .inr ha

theorem isAssignableTo_objectRef {s : VType} {p : List Char}
    (ha : s.isAssignableTo h (.objectRef p) = true) :
    s = .null
    ∨ (∃ c, s = .objectRef c ∧ (h.isSubclass c p || h.isInterface p || isKnownJdkInterface p) = true)
    ∨ ∃ e, s = .arrayRef e ∧
      (isArraySuperclass p || h.isInterface p || isKnownJdkInterface p) = true := by
  cases s with
  | null => exact .inl rfl
  | objectRef c => exact .inr (.inl ⟨c,rfl,(objectRef_isAssignableTo hs).mp ha⟩)
  | arrayRef e => ?_
  | _ =>
    unfold isAssignableTo at ha
    split at ha
    · rename_i he
      cases he
    · cases ha
  unfold isAssignableTo at ha
  split at ha
  · rename_i he
    cases he
  · exact .inr (.inr ⟨e,rfl,ha⟩)

theorem Widens.absorb {t m : VType} (hw : Widens h t m) {s : VType}
    (ha : s.isAssignableTo h t = true) : s.isAssignableTo h m = true := by
  cases hw with
  | refl => exact ha
  | top => exact isAssignableTo_top h s
  | nullObject n =>
    rw [isAssignableTo_null ha]
    rfl
  | nullArray e =>
    rw [isAssignableTo_null ha]
    rfl
  | subclass hup => ?_
  | arrayObject e hp =>
    rcases isAssignableTo_arrayRef ha with rfl | ⟨a,rfl,_⟩
    · rfl
    · exact arrayRef_isAssignableTo_object (by simp [hp])
  | array hw =>
    rcases isAssignableTo_arrayRef ha with rfl | ⟨a,rfl,he⟩
    · rfl
    · exact arrayRef_isAssignableTo (hw.absorb hs he)
  rcases isAssignableTo_objectRef hs ha with rfl | ⟨c,rfl,hc⟩ | ⟨e,rfl,he⟩
  · rfl
  · exact (objectRef_isAssignableTo hs).mpr (subclass_or_interface_up hs hc hup)
  apply arrayRef_isAssignableTo_object
  simp only [or_eq_true] at he ⊢
  have hiface : ∀ {i p : List Char}, h.isInterface i = true → h.isSubclass i p = true →
      (isArraySuperclass p = true ∨ h.isInterface p = true) := by
    intro i p hi hup
    rcases hs.interface_up hi hup with hp | rfl
    · exact .inr hp
    · exact .inl isArraySuperclass_object
  rcases he with (he | he) | he
  · exact .inl (.inl (isArraySuperclass_up hs he hup))
  · exact .inl (hiface he hup)
  · exact .inl (hiface (hs.known_interface he) hup)

end
end

/-- `null` against an object whose constructor has not run. -/
def mixesNull (a b : VType) : Bool :=
  (a = .null && b.isUninitialized) || (a.isUninitialized && b = .null)

section
variable {h : ClassHierarchy}

theorem widens_of_null {t : VType} (hr : t.isReference = true) (hu : t.isUninitialized = false) :
    Widens h .null t := by
  cases t with
  | null => exact .refl _
  | objectRef n => exact .nullObject n
  | arrayRef e => exact .nullArray e
  | uninitializedThis => cases hu
  | uninitialized n => cases hu
  | _ => cases hr

theorem mergeArrays_widens_types (hj : h.Joins) (a b : List Char) :
    Widens h (.arrayRef a) (mergeArrays h a b) ∧ Widens h (.arrayRef b) (mergeArrays h a b) := by
  rcases mergeArrays_or_object h a b with ⟨inner,hm⟩ | hm
  · rw [hm]
    have hw := mergeArrays_widens hj hm
    exact ⟨.array hw.1,.array hw.2⟩
  rw [hm]
  exact ⟨.arrayObject _ isArraySuperclass_object,.arrayObject _ isArraySuperclass_object⟩

variable (hl : h.Lawful)
include hl

theorem mergeArms_widens {a b : VType} (hm : mixesNull a b = false) :
    Widens h a (mergeArms h a b) ∧ Widens h b (mergeArms h a b) := by
  unfold mergeArms
  split
  · split
    · rename_i hr
      simp only [mixesNull,or_eq_false_iff,and_eq_false_iff] at hm
      exact ⟨widens_of_null hr (by simpa using hm.1),.refl _⟩
    · exact ⟨.top _,.top _⟩
  · split
    · rename_i hr
      refine ⟨.refl _,widens_of_null hr ?_⟩
      simp only [mixesNull,or_eq_false_iff,and_eq_false_iff] at hm
      simpa using hm.2
    · exact ⟨.top _,.top _⟩
  · exact ⟨.subclass (hl.common_left _ _),.subclass (hl.common_right _ _)⟩
  · exact ⟨.arrayObject _ isArraySuperclass_object,.subclass (hl.subclass_object _)⟩
  · exact ⟨.subclass (hl.subclass_object _),.arrayObject _ isArraySuperclass_object⟩
  · exact mergeArrays_widens_types hl.joins _ _
  · exact ⟨.top _,.top _⟩

def MergesWiden (h : ClassHierarchy) : Prop :=
  ∀ {a b m : VType}, h.mergeReferences a b = some m → Widens h a m ∧ Widens h b m

theorem merge_widens (hr : MergesWiden h) {a b : VType} (hm : mixesNull a b = false) :
    Widens h a (merge h a b) ∧ Widens h b (merge h a b) := by
  unfold merge
  split
  · rename_i he
    subst he
    exact ⟨.refl _,.refl _⟩
  split
  · cases hown : h.mergeReferences a b with
    | none => exact mergeArms_widens hl hm
    | some m => exact hr hown
  · exact mergeArms_widens hl hm

end
end VType

theorem eq_brackets (element : List Char) :
    element = replicate (element.takeWhile (· = '[')).length '['
      ++ element.drop (element.takeWhile (· = '[')).length := by
  induction element with
  | nil => rfl
  | cons c rest ih => ?_
  by_cases hc : c = '['
  · subst hc
    simp only [decide_true,takeWhile_cons_of_pos,length_cons,replicate_succ,
      drop_succ_cons,cons_append]
    rw [← ih]
  rw [takeWhile_cons_of_neg (by simpa using hc)]
  rfl

theorem libverifyBuild_succ (d : Nat) (base : List Char) :
    libverifyBuild (d+1) base = .arrayRef (replicate d '[' ++ classElement base) := by
  simp [libverifyBuild,classElement]

section
open VType
variable {h : ClassHierarchy}

theorem widens_fewer {element : List Char} {d : Nat}
    (hd : d ≤ (element.takeWhile (· = '[')).length) {p : List Char}
    (hp : isArraySuperclass p = true) : Widens h (.arrayRef element) (libverifyBuild d p) := by
  cases d with
  | zero => exact .arrayObject _ hp
  | succ d =>
    obtain ⟨k,hk⟩ := Nat.exists_eq_add_of_le hd
    rw [libverifyBuild_succ,eq_brackets element,hk,← replicate_append_replicate,
      append_assoc]
    exact .array (.deeper h hp d _)

variable (hl : h.Lawful)
include hl

variable {t : VType}

theorem widens_build (ht : t.isClassOrArray = true) {base : List Char}
    (hb : h.isSubclass (libverifyParts t).2 base = true) :
    Widens h t (libverifyBuild (libverifyParts t).1 base) := by
  cases t with
  | objectRef n => exact .subclass hb
  | arrayRef element => ?_
  | _ => cases ht
  simp only [libverifyParts] at hb ⊢
  generalize hk : (element.takeWhile (· = '[')).length = k at hb ⊢
  cases hs : stripObjectDescriptor (element.drop k) with
  | some c =>
    rw [hs] at hb
    rw [libverifyBuild_succ,eq_brackets element,hk,eq_classElement hs]
    exact .array (WidensElement.replicate (.subclass hb) k)
  | none =>
    rw [hs] at hb
    simp only at hb ⊢
    rw [hl.object_root hb]
    exact widens_fewer (Nat.le_of_eq hk.symm) isArraySuperclass_object

omit hl in
theorem widens_build_object {d : Nat} (hd : d < (libverifyParts t).1) {p : List Char}
    (hp : isArraySuperclass p = true) : Widens h t (libverifyBuild d p) := by
  cases t with
  | arrayRef element => ?_
  | _ => cases hd
  apply widens_fewer _ hp
  simp only [libverifyParts] at hd
  split at hd
  · exact Nat.le_of_lt_succ hd
  · exact Nat.le_of_lt hd

omit hl in
theorem eq_build_of_special (ht : t.isClassOrArray = true)
    (hs : isSpecialInterface (libverifyParts t).2 = true) :
    t = libverifyBuild (libverifyParts t).1 (libverifyParts t).2 := by
  cases t with
  | objectRef n => rfl
  | arrayRef element => ?_
  | _ => cases ht
  simp only [libverifyParts] at hs ⊢
  generalize hk : (element.takeWhile (· = '[')).length = k at hs ⊢
  cases hst : stripObjectDescriptor (element.drop k) with
  | some c =>
    have he := eq_brackets element
    rw [hk,eq_classElement hst] at he
    rw [he]
    exact (libverifyBuild_succ k c).symm
  | none =>
    rw [hst] at hs
    have hobject : isSpecialInterface objectName = false := by decide
    exact absurd hs (by simp [hobject])

theorem libverifyMergeParts_widens {a b : VType} (ha : a.isClassOrArray = true)
    (hb : b.isClassOrArray = true) :
    Widens h a (libverifyMergeParts h a b) ∧ Widens h b (libverifyMergeParts h a b) := by
  unfold libverifyMergeParts
  have hwa := @widens_build h hl a ha
  have hwb := @widens_build h hl b hb
  have hda := @widens_build_object h a
  have hdb := @widens_build_object h b
  have hea := eq_build_of_special ha
  have heb := eq_build_of_special hb
  generalize libverifyParts a = pa at hwa hda hea
  generalize libverifyParts b = pb at hwb hdb heb
  obtain ⟨da,ba⟩ := pa
  obtain ⟨db,bb⟩ := pb
  simp only at hwa hwb hda hdb hea heb ⊢
  split
  · rename_i hd
    subst hd
    split
    · rename_i he
      subst he
      exact ⟨hwa (hl.subclass_refl _),hwb (hl.subclass_refl _)⟩
    split
    · exact ⟨hwa (hl.subclass_object _),hwb (hl.subclass_object _)⟩
    · exact ⟨hwa (hl.common_left _ _),hwb (hl.common_right _ _)⟩
  split
  · rename_i hlt
    split
    · rename_i hs
      refine ⟨.refl _,?_⟩
      rw [hea hs.1]
      exact hdb hlt (isArraySuperclass_special hs.1)
    · exact ⟨hwa (hl.subclass_object _),hdb hlt isArraySuperclass_object⟩
  have hgt : db < da := by omega
  split
  · rename_i hs
    refine ⟨?_,.refl _⟩
    rw [heb hs.1]
    exact hda hgt (isArraySuperclass_special hs.1)
  · exact ⟨hda hgt isArraySuperclass_object,hwb (hl.subclass_object _)⟩

theorem libverifyArrayMerge_widens {a b m : VType} (hm : libverifyArrayMerge h a b = some m) :
    Widens h a m ∧ Widens h b m := by
  unfold libverifyArrayMerge at hm
  split at hm
  · cases hm
  · split at hm
    · rename_i hn
      cases hm
      subst hn
      exact ⟨.arrayObject _ isArraySuperclass_object,.refl _⟩
    split at hm
    · rename_i hs
      cases hm
      exact ⟨.arrayObject _ (isArraySuperclass_special hs),.refl _⟩
    cases hm
    exact libverifyMergeParts_widens hl rfl rfl
  · split at hm
    · rename_i hn
      cases hm
      subst hn
      exact ⟨.refl _,.arrayObject _ isArraySuperclass_object⟩
    split at hm
    · rename_i hs
      cases hm
      exact ⟨.refl _,.arrayObject _ (isArraySuperclass_special hs)⟩
    cases hm
    exact libverifyMergeParts_widens hl rfl rfl
  · cases hm
    exact libverifyMergeParts_widens hl rfl rfl
  · cases hm

end

theorem ClassHierarchy.Lawful.watch {h : ClassHierarchy} (hl : h.Lawful) : h.watch.Lawful :=
  ⟨hl.subclass_refl,hl.subclass_trans,hl.subclass_object,hl.object_root,hl.interface_up,
    hl.array_interface,hl.common_left,hl.common_right,hl.known_subtype,hl.known_interface⟩

theorem VType.mergesWiden_watch {h : ClassHierarchy} (hl : h.Lawful) : MergesWiden h.watch :=
  fun hm => libverifyArrayMerge_widens hl.watch hm

end CratonVM.Verifier
