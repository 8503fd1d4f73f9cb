import CratonVM.Verifier.Assignability

/-!
The laws of assignability. The merge of two types is above both of them, but for `null` against an
object whose constructor has not run. Assignability is transitive, but for an array of arrays below an
array of an interface: the verifier takes every class for an implementation of the interface, and an
array only for one of the interfaces that arrays have.
-/
namespace CratonVM.Verifier
open List
open Bool hiding and_true or_assoc or_false

structure ClassHierarchy.Ordered (h : ClassHierarchy) : Prop where
  subclass_refl : ∀ c, h.isSubclass c c
  subclass_trans : ∀ {a b c}, h.isSubclass a b → h.isSubclass b c → h.isSubclass a c
  subclass_antisymm : ∀ {a b}, h.isSubclass a b → h.isSubclass b a → a = b

/-- Only `Object` and the built-in edges are above a class. -/
def flatHierarchy : ClassHierarchy where
  isSubclass := fun child parent =>
    child = parent || parent = objectName || isKnownJdkSubtype child parent
  commonSuperclass := fun a b =>
    if a = b || b = objectName || isKnownJdkSubtype a b then b
    else if b = a || a = objectName || isKnownJdkSubtype b a then a
    else objectName
  isInterface := isKnownJdkInterface

theorem isKnownJdkInterface_toList (s : String) :
    isKnownJdkInterface s.toList = decide (s ∈ knownJdkInterfaces) := by
  rw [Bool.eq_iff_iff,isKnownJdkInterface,any_eq_true,decide_eq_true_eq]
  constructor
  · rintro ⟨t,ht,heq⟩
    rw [← String.toList_inj.mp (of_decide_eq_true heq)]
    exact ht
  · exact fun hs => ⟨s,hs,decide_eq_true rfl⟩

theorem isKnownJdkInterface_special {name : List Char} (h : isSpecialInterface name = true) :
    isKnownJdkInterface name = true := by
  rcases of_decide_eq_true h with rfl | rfl
  · exact (isKnownJdkInterface_toList _).trans (by simp [knownJdkInterfaces])
  · exact (isKnownJdkInterface_toList _).trans (by simp [knownJdkInterfaces])

theorem isKnownJdkSubtype_cases {child parent : List Char} (h : isKnownJdkSubtype child parent = true) :
    (isKnownJdkInterface child = false ∧ child ≠ objectName ∧ parent ≠ objectName) ∧
      ∀ {other}, isKnownJdkSubtype parent other = true → isKnownJdkSubtype child other = true := by
  obtain ⟨edge,hedge,heq⟩ := any_eq_true.mp h
  obtain ⟨rfl,rfl⟩ := of_decide_eq_true heq
  clear h heq
  constructor
  · have hnames : decide (edge.1 ∈ knownJdkInterfaces) = false ∧ edge.1 ≠ "java/lang/Object" ∧
        edge.2 ≠ "java/lang/Object" := by
      simp only [mem_cons,not_mem_nil,or_false] at hedge
      rcases hedge with rfl | rfl | rfl | rfl | rfl <;> simp [knownJdkInterfaces]
    exact ⟨(isKnownJdkInterface_toList _).trans hnames.1,fun h => hnames.2.1 (String.toList_inj.mp h),
      fun h => hnames.2.2 (String.toList_inj.mp h)⟩
  intro other hother
  obtain ⟨next,hnext,heq⟩ := any_eq_true.mp hother
  obtain ⟨hmid,rfl⟩ := of_decide_eq_true heq
  refine any_eq_true.mpr ⟨(edge.1,next.2),?_,decide_eq_true ⟨rfl,rfl⟩⟩
  simp only [mem_cons,not_mem_nil,or_false] at hedge hnext ⊢
  rcases hedge with rfl | rfl | rfl | rfl | rfl <;>
    rcases hnext with rfl | rfl | rfl | rfl | rfl <;> simp_all

theorem isKnownJdkSubtype_ne {child parent : List Char} (h : isKnownJdkSubtype child parent = true) :
    child ≠ parent := by
  obtain ⟨edge,hedge,heq⟩ := any_eq_true.mp h
  obtain ⟨rfl,rfl⟩ := of_decide_eq_true heq
  have hnames : edge.1 ≠ edge.2 := by
    simp only [mem_cons,not_mem_nil,or_false] at hedge
    rcases hedge with rfl | rfl | rfl | rfl | rfl <;> simp
  exact fun h => hnames (String.toList_inj.mp h)

theorem flatHierarchy_lawful : flatHierarchy.Lawful where
  subclass_refl := by simp [flatHierarchy]
  subclass_trans := by
    intro a b c hab hbc
    simp only [flatHierarchy,or_eq_true,decide_eq_true_eq] at hab hbc ⊢
    rcases hbc with (rfl | rfl) | hbc
    · exact hab
    · exact .inl (.inr rfl)
    rcases hab with (rfl | rfl) | hab
    · exact .inr hbc
    · exact absurd rfl (isKnownJdkSubtype_cases hbc).1.2.1
    · exact .inr ((isKnownJdkSubtype_cases hab).2 hbc)
  subclass_object := by simp [flatHierarchy]
  object_root := by
    intro c hc
    simp only [flatHierarchy,or_eq_true,decide_eq_true_eq] at hc
    rcases hc with (rfl | rfl) | hc
    · rfl
    · rfl
    · exact absurd rfl (isKnownJdkSubtype_cases hc).1.2.1
  interface_up := by
    intro i p hi hp
    simp only [flatHierarchy,or_eq_true,decide_eq_true_eq] at hi hp ⊢
    rcases hp with (rfl | rfl) | hp
    · exact .inl hi
    · exact .inr rfl
    rw [(isKnownJdkSubtype_cases hp).1.1] at hi
    cases hi
  array_interface := by
    intro i p hi hp
    simp only [flatHierarchy,or_eq_true,decide_eq_true_eq] at hp
    rcases hp with (rfl | rfl) | hp
    · exact .inl rfl
    · exact .inr rfl
    have hknown := (isKnownJdkSubtype_cases hp).1.1
    rw [isKnownJdkInterface_special hi] at hknown
    cases hknown
  common_left := by
    intro a b
    simp only [flatHierarchy]
    split
    · assumption
    · split <;> simp
  common_right := by
    intro a b
    simp only [flatHierarchy]
    split
    · simp
    split
    · assumption
    · simp
  known_subtype := by
    intro c p hc
    simp [flatHierarchy,hc]
  known_interface := fun hi => hi

theorem flatHierarchy_ordered : flatHierarchy.Ordered where
  subclass_refl := flatHierarchy_lawful.subclass_refl
  subclass_trans := flatHierarchy_lawful.subclass_trans
  subclass_antisymm := by
    intro a b hab hba
    simp only [flatHierarchy,or_eq_true,decide_eq_true_eq] at hab hba
    rcases hab with (rfl | rfl) | hab
    · rfl
    · rcases hba with (rfl | rfl) | hba
      · rfl
      · rfl
      · exact absurd rfl (isKnownJdkSubtype_cases hba).1.2.1
    rcases hba with (rfl | rfl) | hba
    · rfl
    · exact absurd rfl (isKnownJdkSubtype_cases hab).1.2.1
    · exact absurd rfl (isKnownJdkSubtype_ne ((isKnownJdkSubtype_cases hab).2 hba))

def ClassHierarchy.OwnMergeBounds (h : ClassHierarchy) : Prop :=
  ∀ {a b m : VType}, h.mergeReferences a b = some m →
    a.isAssignableTo h m = true ∧ b.isAssignableTo h m = true

namespace VType
variable {h : ClassHierarchy}
variable {t : VType}

theorem Widens.isAssignableTo {m : VType} (hw : Widens h t m) : t.isAssignableTo h m = true := by
  cases hw with
  | refl => exact isAssignableTo_refl h t
  | top => exact isAssignableTo_top h t
  | nullObject n => rfl
  | nullArray e => rfl
  | subclass hs =>
    unfold VType.isAssignableTo
    split
    · rfl
    · simp [hs]
  | arrayObject e hp => exact arrayRef_isAssignableTo_object (by simp [hp])
  | array hw => exact arrayRef_isAssignableTo hw.isAssignable

/-- A class that meets an array without being below `Object`. -/
def strays (h : ClassHierarchy) (a b : VType) : Bool :=
  match a,b with
  | .objectRef c,.arrayRef _ | .arrayRef _,.objectRef c =>
    (h.mergeReferences a b).isNone && !(h.isSubclass c objectName || h.isInterface objectName)
  | _,_ => false

theorem objectRef_below_object (ho : h.Ordered) (c : List Char) :
    (objectRef c).isAssignableTo h (.objectRef objectName) =
      (h.isSubclass c objectName || h.isInterface objectName) := by
  have hsub : isKnownJdkSubtype c objectName = false := by
    cases hk : isKnownJdkSubtype c objectName with
    | false => rfl
    | true => exact absurd rfl (isKnownJdkSubtype_cases hk).1.2.2
  have hiface : isKnownJdkInterface objectName = false :=
    (isKnownJdkInterface_toList _).trans (by simp [knownJdkInterfaces])
  unfold isAssignableTo
  split
  · rename_i heq
    cases heq
    rw [ho.subclass_refl]
    rfl
  · simp [hsub,hiface,Bool.or_false]

theorem strays_eq_true {a b : VType} (hs : strays h a b = true) :
    ∃ c e, a = .objectRef c ∧ b = .arrayRef e ∧ h.mergeReferences a b = none ∧
        (h.isSubclass c objectName || h.isInterface objectName) = false
      ∨ a = .arrayRef e ∧ b = .objectRef c ∧ h.mergeReferences a b = none ∧
        (h.isSubclass c objectName || h.isInterface objectName) = false := by
  unfold strays at hs
  split at hs
  · simp only [and_eq_true,Option.isNone_iff_eq_none,not_eq_true'] at hs
    exact ⟨_,_,.inl ⟨rfl,rfl,hs⟩⟩
  · simp only [and_eq_true,Option.isNone_iff_eq_none,not_eq_true'] at hs
    exact ⟨_,_,.inr ⟨rfl,rfl,hs⟩⟩
  · cases hs

theorem merge_null_left (hu : t.isUninitialized = true) : merge h .null t = t := by
  cases t with
  | uninitializedThis => rfl
  | uninitialized n => rfl
  | _ => cases hu

theorem merge_null_right (hu : t.isUninitialized = true) : merge h t .null = t := by
  cases t with
  | uninitializedThis => rfl
  | uninitialized n => rfl
  | _ => cases hu

theorem mergeArms_bounds (ho : h.Ordered) (hj : h.Joins) {a b : VType} (hm : mixesNull a b = false)
    (hnone : a.isClassOrArray = true ∧ b.isClassOrArray = true → h.mergeReferences a b = none)
    (hs : strays h a b = false) :
    a.isAssignableTo h (mergeArms h a b) = true ∧ b.isAssignableTo h (mergeArms h a b) = true := by
  unfold mergeArms
  split
  · split
    · rename_i hr
      simp only [mixesNull,or_eq_false_iff,and_eq_false_iff] at hm
      exact ⟨(widens_of_null hr (by simpa using hm.1)).isAssignableTo,isAssignableTo_refl h _⟩
    · exact ⟨isAssignableTo_top h _,isAssignableTo_top h _⟩
  · split
    · rename_i hr
      simp only [mixesNull,or_eq_false_iff,and_eq_false_iff] at hm
      exact ⟨isAssignableTo_refl h _,(widens_of_null hr (by simpa using hm.2)).isAssignableTo⟩
    · exact ⟨isAssignableTo_top h _,isAssignableTo_top h _⟩
  · exact ⟨Widens.isAssignableTo (.subclass (hj.common_left _ _)),
      Widens.isAssignableTo (.subclass (hj.common_right _ _))⟩
  · refine ⟨Widens.isAssignableTo (.arrayObject _ isArraySuperclass_object),?_⟩
    simp only [strays,hnone ⟨rfl,rfl⟩,Option.isNone_none,Bool.true_and,not_eq_false'] at hs
    rw [objectRef_below_object ho,hs]
  · refine ⟨?_,Widens.isAssignableTo (.arrayObject _ isArraySuperclass_object)⟩
    simp only [strays,hnone ⟨rfl,rfl⟩,Option.isNone_none,Bool.true_and,not_eq_false'] at hs
    rw [objectRef_below_object ho,hs]
  · exact ⟨(mergeArrays_widens_types hj _ _).1.isAssignableTo,(mergeArrays_widens_types hj _ _).2.isAssignableTo⟩
  · exact ⟨isAssignableTo_top h _,isAssignableTo_top h _⟩

/-- The merge is above both types exactly where no `null` meets an object whose constructor has not run,
and no class that is not below `Object` an array. -/
theorem merge_upperBound_iff (ho : h.Ordered) (hj : h.Joins) (hown : h.OwnMergeBounds) (a b : VType) :
    (a.isAssignableTo h (merge h a b) = true ∧ b.isAssignableTo h (merge h a b) = true) ↔
      mixesNull a b = false ∧ strays h a b = false := by
  constructor
  · rintro ⟨ha,hb⟩
    constructor
    · cases hm : mixesNull a b with
      | false => rfl
      | true => ?_
      simp only [mixesNull,or_eq_true,and_eq_true,decide_eq_true_eq] at hm
      rcases hm with ⟨rfl,hu⟩ | ⟨hu,rfl⟩
      · rw [merge_null_left hu] at ha
        rw [← eq_of_isAssignableTo_uninitialized hu ha] at hu
        cases hu
      rw [merge_null_right hu] at hb
      rw [← eq_of_isAssignableTo_uninitialized hu hb] at hu
      cases hu
    cases hs : strays h a b with
    | false => rfl
    | true => ?_
    obtain ⟨c,e,hcases⟩ := strays_eq_true hs
    rcases hcases with ⟨rfl,rfl,hnone,hout⟩ | ⟨rfl,rfl,hnone,hout⟩
    · rw [merge,if_neg (by simp),if_pos ⟨rfl,rfl⟩,hnone] at ha
      rw [← objectRef_below_object ho] at hout
      cases hout.symm.trans ha
    rw [merge,if_neg (by simp),if_pos ⟨rfl,rfl⟩,hnone] at hb
    rw [← objectRef_below_object ho] at hout
    cases hout.symm.trans hb
  · rintro ⟨hm,hs⟩
    unfold merge
    split
    · rename_i heq
      rw [← heq]
      exact ⟨isAssignableTo_refl h a,isAssignableTo_refl h a⟩
    split
    · cases hmerge : h.mergeReferences a b with
      | none => exact mergeArms_bounds ho hj hm (fun _ => hmerge) hs
      | some m => exact hown hmerge
    rename_i hnot
    exact mergeArms_bounds ho hj hm (fun hboth => absurd hboth hnot) hs

theorem flatHierarchy_ownMergeBounds : flatHierarchy.OwnMergeBounds := by
  intro a b m hm
  cases hm

/-- A string and an array of integers are both below their merge. -/
theorem merge_upperBound_stringAndInts :
    flatHierarchy.Ordered ∧ flatHierarchy.Joins ∧ flatHierarchy.OwnMergeBounds ∧
      (objectRef "java/lang/String".toList).isAssignableTo flatHierarchy
        (merge flatHierarchy (.objectRef "java/lang/String".toList) (.arrayRef ['I'])) = true ∧
      (arrayRef ['I']).isAssignableTo flatHierarchy
        (merge flatHierarchy (.objectRef "java/lang/String".toList) (.arrayRef ['I'])) = true :=
  ⟨flatHierarchy_ordered,flatHierarchy_lawful.joins,flatHierarchy_ownMergeBounds,
    (merge_upperBound_iff flatHierarchy_ordered flatHierarchy_lawful.joins flatHierarchy_ownMergeBounds _ _).mpr
      ⟨rfl,rfl⟩⟩

/-- `null` merged with an object whose constructor has not run is that object, which `null` is not
assignable to. -/
theorem merge_null_uninitialized :
    flatHierarchy.Ordered ∧ flatHierarchy.Joins ∧
      VType.null.isAssignableTo flatHierarchy (merge flatHierarchy .null (.uninitialized 0)) = false :=
  ⟨flatHierarchy_ordered,flatHierarchy_lawful.joins,rfl⟩

end VType

/-- Behind the brackets they share, the first is an array and the second an interface that arrays do
not implement. -/
def deepUnderInterface (h : ClassHierarchy) : (childElem parentElem : List Char) → Bool
  | '[' :: child,'[' :: parent => deepUnderInterface h child parent
  | '[' :: _,parentElem =>
    match stripObjectDescriptor parentElem with
    | some i => (h.isInterface i || isKnownJdkInterface i) && !isArraySuperclass i
    | none => false
  | _,_ => false

def VType.skipsInterface (h : ClassHierarchy) (source target : VType) : Bool :=
  match source,target with
  | .arrayRef a,.arrayRef c => deepUnderInterface h a c
  | _,_ => false

section
variable {h : ClassHierarchy}

theorem deepUnderInterface_class (rest i : List Char) :
    deepUnderInterface h ('[' :: rest) (classElement i) =
      ((h.isInterface i || isKnownJdkInterface i) && !isArraySuperclass i) := by
  unfold deepUnderInterface
  split
  · rename_i heq
    simp [classElement] at heq
  · simp [strip_classElement]
  rename_i hnot _
  exact (hnot _ rfl).elim

theorem not_assignable_of_deep (a : List Char) : ∀ {c : List Char}, deepUnderInterface h a c = true →
    arrayIsAssignable h a c = false := by
  induction a with
  | nil =>
    intro c hd
    simp [deepUnderInterface] at hd
  | cons x a ih => ?_
  intro c hd
  unfold deepUnderInterface at hd
  split at hd
  · rename_i heq
    cases heq
    rw [arrayIsAssignable_nested]
    exact ih hd
  · rename_i heq _
    cases heq
    split at hd
    · rename_i i hi
      rw [eq_classElement hi]
      simp only [and_eq_true,not_eq_true'] at hd
      refine eq_false_iff.mpr fun hass => ?_
      rcases (arrayIsAssignable_class h).mp hass with ⟨b,hb,-⟩ | ⟨b,-,hb⟩
      · simp [classElement] at hb
      rw [hd.2] at hb
      cases hb
    · cases hd
  · cases hd

theorem eq_of_arrayIsAssignable {e c : List Char} (hb : ∀ rest, c ≠ '[' :: rest)
    (hn : stripObjectDescriptor c = none) (he : arrayIsAssignable h e c = true) : e = c := by
  unfold arrayIsAssignable at he
  split at he
  · assumption
  split at he
  · rw [hn] at he
    split at he
    · rename_i heq
      cases heq
    · cases he
  · exact absurd rfl (hb _)
  · rw [hn] at he
    cases he
  · cases he

variable (hs : h.Shaped)
include hs

theorem arrayIsAssignable_trans {c : List Char} : ∀ {a b : List Char}, arrayIsAssignable h a b = true →
    arrayIsAssignable h b c = true →
    arrayIsAssignable h a c = true ∨ deepUnderInterface h a c = true := by
  induction c with
  | nil =>
    intro a b hab hbc
    rw [eq_of_arrayIsAssignable (by simp) rfl hbc] at hab
    exact .inl hab
  | cons x c ih => ?_
  intro a b hab hbc
  by_cases hx : x = '['
  · subst hx
    obtain ⟨b',rfl,hbc'⟩ := arrayIsAssignable_bracket h hbc
    obtain ⟨a',rfl,hab'⟩ := arrayIsAssignable_bracket h hab
    rw [arrayIsAssignable_nested]
    exact ih hab' hbc'
  cases hi : stripObjectDescriptor (x :: c) with
  | none =>
    rw [eq_of_arrayIsAssignable (by simpa using hx) hi hbc] at hab
    exact .inl hab
  | some i => ?_
  rw [eq_classElement hi] at hbc ⊢
  rcases (arrayIsAssignable_class h).mp hbc with ⟨b',rfl,hup⟩ | ⟨rest,rfl,hi⟩
  · rcases hup with rfl | hup
    · exact .inl hab
    simp only [or_eq_true,or_assoc] at hup
    rcases hup with hup | hup
    · exact .inl ((WidensElement.subclass hup).absorb hs hab)
    -- every class is taken for an implementation of the interface, an array is not
    · rcases (arrayIsAssignable_class h).mp hab with ⟨a',rfl,-⟩ | ⟨rest,rfl,-⟩
      · refine .inl ((arrayIsAssignable_class h).mpr (.inl ⟨a',rfl,.inr ?_⟩))
        simpa only [or_eq_true,or_assoc] using .inr hup
      cases harr : isArraySuperclass i with
      | true => exact .inl ((arrayIsAssignable_class h).mpr (.inr ⟨rest,rfl,harr⟩))
      | false =>
        refine .inr ((deepUnderInterface_class rest i).trans ?_)
        rw [harr]
        simpa only [or_eq_true,and_eq_true,Bool.not_false,and_true] using hup
  obtain ⟨a',rfl,-⟩ := arrayIsAssignable_bracket h hab
  exact .inl ((arrayIsAssignable_class h).mpr (.inr ⟨a',rfl,hi⟩))

namespace VType
omit hs in
theorem eq_of_isAssignableTo {s t : VType} (htop : t ≠ .top) (hr : t.isClassOrArray = false)
    (ha : s.isAssignableTo h t = true) : s = t := by
  unfold isAssignableTo at ha
  split at ha
  · assumption
  cases t with
  | top => exact absurd rfl htop
  | objectRef n => cases hr
  | arrayRef e => cases hr
  | _ => cases s <;> cases ha

omit hs in
theorem isAssignableTo_interface {a : VType} {b i : List Char} (hs : h.Shaped)
    (hab : a.isAssignableTo h (.objectRef b) = true)
    (hi : h.isInterface i = true ∨ isKnownJdkInterface i = true) :
    a.isAssignableTo h (.objectRef i) = true := by
  rcases isAssignableTo_objectRef hs hab with rfl | ⟨c,rfl,-⟩ | ⟨e,rfl,-⟩
  · rfl
  · refine (objectRef_isAssignableTo hs).mpr ?_
    simpa only [Bool.or_eq_true,or_assoc] using .inr hi
  refine arrayRef_isAssignableTo_object ?_
  simpa only [Bool.or_eq_true,or_assoc] using .inr hi

theorem isAssignableTo_trans_class {a b : VType} {c : List Char} (hab : a.isAssignableTo h b = true)
    (hbc : b.isAssignableTo h (.objectRef c) = true) : a.isAssignableTo h (.objectRef c) = true := by
  rcases isAssignableTo_objectRef hs hbc with rfl | ⟨b',rfl,hup⟩ | ⟨e,rfl,he⟩
  · rw [isAssignableTo_null hab]
    rfl
  · simp only [or_eq_true,or_assoc] at hup
    rcases hup with hup | hup
    · exact (Widens.subclass hup).absorb hs hab
    · exact isAssignableTo_interface hs hab hup
  rcases isAssignableTo_arrayRef hab with rfl | ⟨a',rfl,-⟩
  · rfl
  · exact arrayRef_isAssignableTo_object he

/-- Where one type is assignable to a second and that one to a third, the first is assignable to the
third exactly if it is not an array of arrays below an array of an interface. -/
theorem isAssignableTo_trans_iff {a b c : VType} (hab : a.isAssignableTo h b = true)
    (hbc : b.isAssignableTo h c = true) :
    a.isAssignableTo h c = true ↔ skipsInterface h a c = false := by
  constructor
  · intro hac
    cases hskip : skipsInterface h a c with
    | false => rfl
    | true => ?_
    unfold skipsInterface at hskip
    split at hskip
    · have hnot := not_assignable_of_deep _ hskip
      rcases isAssignableTo_arrayRef hac with heq | ⟨a',heq,ha'⟩
      · cases heq
      cases heq
      rw [hnot] at ha'
      cases ha'
    · cases hskip
  intro hskip
  cases c with
  | top => exact isAssignableTo_top h a
  | objectRef c => exact isAssignableTo_trans_class hs hab hbc
  | arrayRef c => ?_
  | _ =>
    rw [eq_of_isAssignableTo (by simp) rfl hbc] at hab
    exact hab
  rcases isAssignableTo_arrayRef hbc with rfl | ⟨b',rfl,hbc'⟩
  · rw [isAssignableTo_null hab]
    rfl
  rcases isAssignableTo_arrayRef hab with rfl | ⟨a',rfl,hab'⟩
  · rfl
  rcases arrayIsAssignable_trans hs hab' hbc' with hac | hdeep
  · exact arrayRef_isAssignableTo hac
  rw [skipsInterface,hdeep] at hskip
  cases hskip

end VType
end

namespace VType
def objectElement : List Char := classElement objectName
def serializableElement : List Char := classElement serializableName
def runnableElement : List Char := classElement "java/lang/Runnable".toList

/-- An array of arrays of integers, an array of objects and an array of serializable objects. -/
theorem isAssignableTo_trans_serializable :
    flatHierarchy.Shaped ∧
      (arrayRef ['[','I']).isAssignableTo flatHierarchy (.arrayRef objectElement) = true ∧
      (arrayRef objectElement).isAssignableTo flatHierarchy (.arrayRef serializableElement) = true ∧
      (arrayRef ['[','I']).isAssignableTo flatHierarchy (.arrayRef serializableElement) = true := by
  have hfirst : (arrayRef ['[','I']).isAssignableTo flatHierarchy (.arrayRef objectElement) = true :=
    arrayRef_isAssignableTo ((arrayIsAssignable_class _).mpr (.inr ⟨_,rfl,isArraySuperclass_object⟩))
  have hserial : isSpecialInterface serializableName = true := by decide
  have hsecond : (arrayRef objectElement).isAssignableTo flatHierarchy (.arrayRef serializableElement) = true := by
    refine arrayRef_isAssignableTo ((arrayIsAssignable_class _).mpr (.inl ⟨_,rfl,.inr ?_⟩))
    simp [flatHierarchy,isKnownJdkInterface_special hserial]
  refine ⟨flatHierarchy_lawful.shaped,hfirst,hsecond,?_⟩
  refine (isAssignableTo_trans_iff flatHierarchy_lawful.shaped hfirst hsecond).mpr ?_
  show deepUnderInterface flatHierarchy ('[' :: ['I']) (classElement serializableName) = false
  rw [deepUnderInterface_class,isArraySuperclass_special hserial,Bool.not_true,Bool.and_false]

/-- Every class is below the interface, and the interface below a class. -/
def looseHierarchy : ClassHierarchy where
  isSubclass := fun child parent => child = parent || (child = ['i'] && parent = ['c'])
  commonSuperclass := fun _ b => b
  isInterface := fun name => name = ['i']

/-- An array of arrays is not below an array of an interface, and a hierarchy that is no more than an
order may put a class above an interface. -/
theorem isAssignableTo_not_trans :
    (flatHierarchy.Ordered ∧ flatHierarchy.Shaped ∧
      (arrayRef ['[','I']).isAssignableTo flatHierarchy (.arrayRef objectElement) = true ∧
      (arrayRef objectElement).isAssignableTo flatHierarchy (.arrayRef runnableElement) = true ∧
      (arrayRef ['[','I']).isAssignableTo flatHierarchy (.arrayRef runnableElement) = false) ∧
    (looseHierarchy.Ordered ∧
      (objectRef ['a']).isAssignableTo looseHierarchy (.objectRef ['i']) = true ∧
      (objectRef ['i']).isAssignableTo looseHierarchy (.objectRef ['c']) = true ∧
      (objectRef ['a']).isAssignableTo looseHierarchy (.objectRef ['c']) = false) := by
  have hknown : isKnownJdkInterface "java/lang/Runnable".toList = true :=
    (isKnownJdkInterface_toList _).trans (by simp [knownJdkInterfaces])
  have hplain : isKnownJdkInterface ['c'] = false :=
    (isKnownJdkInterface_toList "c").trans (by simp [knownJdkInterfaces])
  have hsub : isKnownJdkSubtype ['a'] ['c'] = false := by
    refine any_eq_false.mpr fun edge hedge heq => ?_
    have hname : edge.1 = "a" := String.toList_inj.mp (of_decide_eq_true heq).1
    simp only [mem_cons,not_mem_nil,or_false] at hedge
    rcases hedge with rfl | rfl | rfl | rfl | rfl <;> simp at hname
  refine ⟨⟨flatHierarchy_ordered,flatHierarchy_lawful.shaped,?_,?_,?_⟩,⟨?_,?_,?_⟩,?_,?_,?_⟩
  · exact arrayRef_isAssignableTo ((arrayIsAssignable_class _).mpr (.inr ⟨_,rfl,isArraySuperclass_object⟩))
  · refine arrayRef_isAssignableTo ((arrayIsAssignable_class _).mpr (.inl ⟨_,rfl,.inr ?_⟩))
    rw [hknown,Bool.or_true]
  · have hdeep : deepUnderInterface flatHierarchy ['[','I'] runnableElement = true := by
      decide
    unfold isAssignableTo
    rw [if_neg (by simp [runnableElement,classElement])]
    exact not_assignable_of_deep _ hdeep
  · simp [looseHierarchy]
  · intro a b c hab hbc
    simp only [looseHierarchy,or_eq_true,and_eq_true,decide_eq_true_eq] at hab hbc ⊢
    grind
  · intro a b hab hba
    simp only [looseHierarchy,or_eq_true,and_eq_true,decide_eq_true_eq] at hab hba
    grind
  · simp [isAssignableTo,looseHierarchy]
  · simp [isAssignableTo,looseHierarchy]
  · simp [isAssignableTo,looseHierarchy,hplain,hsub]

end VType
end CratonVM.Verifier
