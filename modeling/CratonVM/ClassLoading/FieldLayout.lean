import CratonVM.Lib.MachineArithmetic

/-!
Compact object layouts (`build_compact_layout_ordered` in `classloading/src/class.rs`, the field
kinds in `types/src/field_layout.rs`). Offsets are 32-bit words that wrap. The width of a reference
field, a process-wide setting in the source, is a parameter.
-/
namespace CratonVM.ClassLoading.FieldLayout
open Alignment List Prod

inductive FieldStorageKind where
  | reference
  | boolean
  | byte
  | char
  | short
  | int
  | float
  | long
  | double
  deriving DecidableEq, Repr

namespace FieldStorageKind
def fromDescriptorByte (descriptor : UInt8) : Option FieldStorageKind :=
  match Char.ofNat descriptor.toNat with
  | 'L' | '[' => some .reference
  | 'Z' => some .boolean
  | 'B' => some .byte
  | 'C' => some .char
  | 'S' => some .short
  | 'I' => some .int
  | 'F' => some .float
  | 'J' => some .long
  | 'D' => some .double
  | _ => none

def size : FieldStorageKind → Nat
  | .boolean | .byte => 1
  | .char | .short => 2
  | .int | .float => 4
  | .reference | .long | .double => 8

def isReference (kind : FieldStorageKind) : Bool := kind = .reference

/-- References are four bytes wide when the oops are narrow. -/
def sizeRuntime (narrow : Bool) : FieldStorageKind → Nat
  | .reference => if narrow then 4 else 8
  | kind => kind.size

def alignmentRuntime (narrow : Bool) (kind : FieldStorageKind) : Nat := kind.sizeRuntime narrow

end FieldStorageKind

structure ClassFileField where
  isStatic : Bool
  descriptor : List UInt8
  deriving DecidableEq, Repr

structure LayoutClass where
  superclass : Option Nat
  fields : List ClassFileField
  numTotalFields : Nat
  isCompatibilityStub : Bool
  deriving DecidableEq, Repr

structure CompactLayout where
  fieldDisps : List (BitVec 32)
  isRef : List Bool
  fieldKinds : List FieldStorageKind
  refDisps : List (BitVec 32)
  totalSize : BitVec 32
  deriving DecidableEq, Repr

def compactHeaderSize : Nat := 8

def minObjectSize : Nat := 16

def getClass (store : List (Option LayoutClass)) (id : Nat) : Option LayoutClass := store[id]?.join

/-- The superclass chain, the class first. A chain longer than the store runs in a circle; the
source then never returns. -/
def chainLoop (store : List (Option LayoutClass)) : (left : Nat) → Option Nat → Option (List Nat)
  | _, none => some []
  | 0, some _ => none
  | left+1, some cid =>
    match getClass store cid with
    | none => none
    | some c => (chainLoop store left c.superclass).map (cid::·)

section
variable (narrow : Bool)

def declaredKinds : List ClassFileField → Option (List FieldStorageKind)
  | [] => some []
  | f::fields =>
    if f.isStatic then declaredKinds fields
    else
      match FieldStorageKind.fromDescriptorByte (f.descriptor.head?.getD 0) with
      | none => none
      | some kind => (declaredKinds fields).map (kind::·)

def sizeWord (kind : FieldStorageKind) : BitVec 32 := BitVec.ofNat 32 (kind.sizeRuntime narrow)

def alignmentWord (kind : FieldStorageKind) : BitVec 32 := BitVec.ofNat 32 (kind.alignmentRuntime narrow)

def advance (cursor : BitVec 32) (kind : FieldStorageKind) : BitVec 32 :=
  alignUp cursor (alignmentWord narrow kind)+sizeWord narrow kind

def kindAt (declared : List FieldStorageKind) (i : Nat) : FieldStorageKind :=
  declared.getD i .reference

/-- Widest first, references before primitives of the same width, then declaration order. -/
def Before (declared : List FieldStorageKind) (i j : Nat) : Prop :=
  let a := kindAt declared i
  let b := kindAt declared j
  b.sizeRuntime narrow < a.sizeRuntime narrow ∨ (b.sizeRuntime narrow = a.sizeRuntime narrow ∧
    ((a.isReference && !b.isReference) ∨ (a.isReference = b.isReference ∧ i ≤ j)))

instance (declared : List FieldStorageKind) (i j : Nat) : Decidable (Before narrow declared i j) := by
  unfold Before
  infer_instance

def byWidth (declared : List FieldStorageKind) : List Nat :=
  (List.range declared.length).insertionSort (Before narrow declared)

/-- The widest field that needs no padding at the cursor, or else the widest one. -/
def pick (declared : List FieldStorageKind) (cursor : BitVec 32) (chosen : List Nat) : Option Nat :=
  ((byWidth narrow declared).find? fun i =>
      i ∉ chosen ∧ cursor % alignmentWord narrow (kindAt declared i) = 0).or
    ((byWidth narrow declared).find? fun i => i ∉ chosen)

def chooseLoop (declared : List FieldStorageKind) : (left : Nat) → (cursor : BitVec 32) →
    (chosen : List Nat) → BitVec 32 × List Nat
  | 0, cursor, chosen => (cursor,chosen)
  | left+1, cursor, chosen =>
    match pick narrow declared cursor chosen with
    | none => (cursor,chosen)
    | some i => chooseLoop declared left (advance narrow cursor (kindAt declared i)) (chosen++[i])

def declarationEnd (declared : List FieldStorageKind) (off : BitVec 32) : BitVec 32 :=
  declared.foldl (advance narrow) off

/-- The order in which offsets are given out. -/
def assignOrder (packByWidth : Bool) (declared : List FieldStorageKind) (off : BitVec 32) : List Nat :=
  if packByWidth then
    let (cursor,chosen) := chooseLoop narrow declared declared.length off []
    if cursor ≤ declarationEnd narrow declared off then chosen else List.range declared.length
  else List.range declared.length

structure Laying where
  fieldOffsets : List (BitVec 32) := []
  isRef : List Bool := []
  fieldKinds : List FieldStorageKind := []
  refOffsets : List (BitVec 32) := []
  off : BitVec 32 := 0
  count : Nat := 0
  padded : Bool := false
  deriving DecidableEq, Repr

/-- One field gets its offset, recorded at its declaration index. -/
def layField (declared : List FieldStorageKind) (base : Nat) (st : Laying) (i : Nat) : Laying :=
  let storage := kindAt declared i
  let off := alignUp st.off (alignmentWord narrow storage)
  { st with
    fieldOffsets := st.fieldOffsets.set (base+i) off
    isRef := st.isRef.set (base+i) storage.isReference
    fieldKinds := st.fieldKinds.set (base+i) storage
    refOffsets := if storage.isReference then st.refOffsets++[off] else st.refOffsets
    off := off+sizeWord narrow storage }

/-- A slot without a descriptor. -/
def padField (st : Laying) : Laying :=
  let off := alignUp st.off (alignmentWord narrow .reference)
  { fieldOffsets := st.fieldOffsets++[off], isRef := st.isRef++[true]
    fieldKinds := st.fieldKinds++[.reference], refOffsets := st.refOffsets++[off]
    off := off+sizeWord narrow .reference, count := st.count+1, padded := true }

def layClass (packByWidth : Bool) (c : LayoutClass) (st : Laying) : Option Laying :=
  match declaredKinds c.fields with
  | none => none
  | some declared =>
    let order := assignOrder narrow packByWidth declared st.off
    let base := st.fieldOffsets.length
    let st := { st with
      fieldOffsets := st.fieldOffsets++List.replicate declared.length 0
      isRef := st.isRef++List.replicate declared.length false
      fieldKinds := st.fieldKinds++List.replicate declared.length .reference }
    let st := order.foldl (layField narrow declared base) st
    let st := { st with count := st.count+declared.length }
    some ((padField narrow)^[c.numTotalFields-st.count] st)

def layChain (store : List (Option LayoutClass)) (packByWidth : Bool) :
    List Nat → Laying → Option Laying
  | [], st => some st
  | cid::chain, st =>
    match getClass store cid with
    | none => none
    | some c =>
      match layClass narrow packByWidth c st with
      | none => none
      | some st => layChain store packByWidth chain st

def maxWord (a b : BitVec 32) : BitVec 32 := if a ≤ b then b else a

def finishLayout (st : Laying) : Option CompactLayout :=
  if st.padded then none
  else
    let off := (st.off+7) &&& ~~~7
    let header := BitVec.ofNat 32 compactHeaderSize
    some {
      fieldDisps := st.fieldOffsets.map (·+header)
      isRef := st.isRef
      fieldKinds := st.fieldKinds
      refDisps := (st.refOffsets.insertionSort (· ≤ ·)).map (·+header)
      totalSize := maxWord (header+off) (BitVec.ofNat 32 minObjectSize) }

def buildCompactLayoutOrdered (store : List (Option LayoutClass)) (id : Nat) (packByWidth : Bool) :
    Option CompactLayout :=
  match chainLoop store store.length (some id) with
  | none => none
  | some chain =>
    if chain.any fun cid => (getClass store cid).any LayoutClass.isCompatibilityStub then none
    else
      match layChain narrow store packByWidth chain.reverse {} with
      | none => none
      | some st => finishLayout st

end

open Alignment
variable {narrow : Bool} {declared : List FieldStorageKind}

theorem range_kindAt (declared : List FieldStorageKind) :
    (List.range declared.length).map (kindAt declared) = declared := by
  apply List.ext_getElem?
  intro i
  by_cases hi : i < declared.length
  · simp [hi,kindAt,List.getD_eq_getElem?_getD]
  · simp [hi]

section
variable {cursor : BitVec 32} {chosen : List Nat} {i : Nat}

theorem mem_byWidth : i ∈ byWidth narrow declared ↔ i < declared.length := by
  rw [byWidth,List.mem_insertionSort,List.mem_range]

theorem pick_some (h : pick narrow declared cursor chosen = some i) :
    i < declared.length ∧ i ∉ chosen := by
  rcases Option.or_eq_some_iff.mp h with h | ⟨-,h⟩
  · have hp := List.find?_some h
    simp only [Bool.decide_and,Bool.and_eq_true,decide_eq_true_eq] at hp
    exact ⟨mem_byWidth.mp (List.mem_of_find?_eq_some h),hp.1⟩
  · exact ⟨mem_byWidth.mp (List.mem_of_find?_eq_some h),by simpa using List.find?_some h⟩

theorem pick_none (h : pick narrow declared cursor chosen = none) (hi : i < declared.length) :
    i ∈ chosen := by
  have hnone := List.find?_eq_none.mp (Option.or_eq_none_iff.mp h).2 i (mem_byWidth.mpr hi)
  simpa using hnone

theorem exists_unchosen (hlen : chosen.length < declared.length) :
    ∃ i, i < declared.length ∧ i ∉ chosen := by
  by_contra hall
  have hsub : List.range declared.length ⊆ chosen := by
    intro i hi
    by_contra hnot
    exact hall ⟨i,List.mem_range.mp hi,hnot⟩
  have hle := (List.subperm_of_subset List.nodup_range hsub).length_le
  rw [List.length_range] at hle
  omega

/-- The cursor behind the fields placed so far. -/
def cursorAfter (narrow : Bool) (declared : List FieldStorageKind) (order : List Nat)
    (off : BitVec 32) : BitVec 32 :=
  order.foldl (fun cursor i => advance narrow cursor (kindAt declared i)) off

theorem chooseLoop_spec {left : Nat} {off : BitVec 32} (hnd : chosen.Nodup)
    (hlt : ∀ i ∈ chosen, i < declared.length) (hlen : left+chosen.length = declared.length)
    (hcursor : cursor = cursorAfter narrow declared chosen off) :
    ((chooseLoop narrow declared left cursor chosen).2.Perm (List.range declared.length)) ∧
      (chooseLoop narrow declared left cursor chosen).1 =
        cursorAfter narrow declared (chooseLoop narrow declared left cursor chosen).2 off := by
  induction left generalizing cursor chosen with
  | zero =>
    refine ⟨?_,hcursor⟩
    refine (List.subperm_of_subset hnd fun i hi => List.mem_range.mpr (hlt i hi)).perm_of_length_le ?_
    rw [List.length_range]
    omega
  | succ left ih => ?_
  rw [chooseLoop]
  cases hp : pick narrow declared cursor chosen with
  | none =>
    obtain ⟨i,hi,hnot⟩ := exists_unchosen (show chosen.length < declared.length by omega)
    exact absurd (pick_none hp hi) hnot
  | some i => ?_
  obtain ⟨hi,hnot⟩ := pick_some hp
  refine ih ?_ ?_ (by simp; omega) ?_
  · rw [List.nodup_append]
    refine ⟨hnd,by simp,fun x hx y hy heq => hnot ?_⟩
    rwa [← List.mem_singleton.mp hy,← heq]
  · intro j hj
    rcases List.mem_append.mp hj with hj | hj
    · exact hlt j hj
    rw [List.mem_singleton.mp hj]
    exact hi
  rw [hcursor,cursorAfter,cursorAfter,List.foldl_append]
  rfl

theorem cursorAfter_range (off : BitVec 32) :
    cursorAfter narrow declared (List.range declared.length) off =
      declarationEnd narrow declared off := by
  rw [cursorAfter,declarationEnd]
  conv_rhs => rw [← range_kindAt declared]
  rw [List.foldl_map]

theorem assignOrder_spec (packByWidth : Bool) (off : BitVec 32) :
    (assignOrder narrow packByWidth declared off).Perm (List.range declared.length) ∧
      (packByWidth = false → assignOrder narrow packByWidth declared off =
        List.range declared.length) ∧
      cursorAfter narrow declared (assignOrder narrow packByWidth declared off) off ≤
        declarationEnd narrow declared off := by
  cases packByWidth with
  | false =>
    refine ⟨List.Perm.refl _,fun _ => rfl,?_⟩
    show cursorAfter narrow declared (List.range declared.length) off ≤ _
    rw [cursorAfter_range]
    exact Nat.le_refl _
  | true => ?_
  obtain ⟨hperm,hcursor⟩ := @chooseLoop_spec narrow declared off [] declared.length off
    List.nodup_nil (by simp) (by simp) rfl
  refine ⟨?_,fun hf => absurd hf (by decide),?_⟩
  · simp only [assignOrder,if_true]
    split
    · exact hperm
    · exact List.Perm.refl _
  simp only [assignOrder,if_true]
  split
  · rename_i hle
    rw [← hcursor]
    exact hle
  rw [cursorAfter_range]
  exact Nat.le_refl _

end

section
def writes {α : Type} (ps : List (Nat × α)) (table : List α) : List α :=
  ps.foldl (fun table p => table.set p.1 p.2) table

variable {α : Type} {ps : List (Nat × α)} {table : List α}

@[simp] theorem length_writes : (writes ps table).length = table.length := by
  unfold writes
  induction ps generalizing table with
  | nil => rfl
  | cons p ps ih => rw [List.foldl_cons,ih,List.length_set]

theorem writes_other {j : Nat} (hj : j ∉ ps.map Prod.fst) : (writes ps table)[j]? = table[j]? := by
  unfold writes
  induction ps generalizing table with
  | nil => rfl
  | cons p ps ih =>
    rw [List.map_cons,List.mem_cons,not_or] at hj
    rw [List.foldl_cons,ih hj.2,List.getElem?_set_ne (Ne.symm hj.1)]

theorem writes_mem (hnd : (ps.map Prod.fst).Nodup) {p : Nat × α} (hp : p ∈ ps)
    (hlt : p.1 < table.length) : (writes ps table)[p.1]? = some p.2 := by
  induction ps generalizing table with
  | nil => cases hp
  | cons q ps ih => ?_
  rw [List.map_cons,List.nodup_cons] at hnd
  show (writes ps (table.set q.1 q.2))[p.1]? = some p.2
  rcases List.mem_cons.mp hp with rfl | hp
  · rw [writes_other hnd.1,List.getElem?_set_self hlt]
  · exact ih hnd.2 hp (by simpa using hlt)

theorem writes_perm {n : Nat} {order : List Nat} (hperm : order.Perm (List.range n)) (f : Nat → α)
    (hlen : table.length = n) :
    writes (order.map fun i => (i,f i)) table = (List.range n).map f := by
  have hnd : ((order.map fun i => (i,f i)).map Prod.fst).Nodup := by
    simpa [Function.comp_def] using (hperm.nodup_iff.mpr List.nodup_range)
  apply List.ext_getElem?
  intro i
  rw [List.getElem?_map]
  by_cases hi : i < n
  · rw [List.getElem?_range hi]
    have hmem : (i,f i) ∈ order.map fun i => (i,f i) :=
      List.mem_map.mpr ⟨i,hperm.mem_iff.mpr (List.mem_range.mpr hi),rfl⟩
    exact writes_mem hnd hmem (by omega)
  rw [List.getElem?_eq_none (by rw [length_writes]; omega),List.getElem?_eq_none (by simp; omega)]
  rfl

end

section
/-- Each field of an order with the offset it gets. -/
def wordPlaces (narrow : Bool) (declared : List FieldStorageKind) :
    List Nat → BitVec 32 → List (Nat × BitVec 32)
  | [], _ => []
  | i::is, off =>
    (i,alignUp off (alignmentWord narrow (kindAt declared i)))::
      wordPlaces narrow declared is (advance narrow off (kindAt declared i))

theorem wordPlaces_keys (order : List Nat) (off : BitVec 32) :
    (wordPlaces narrow declared order off).map Prod.fst = order := by
  induction order generalizing off with
  | nil => rfl
  | cons i is ih => rw [wordPlaces,List.map_cons,ih]

/-- The reference fields among them. -/
def refPlaces (narrow : Bool) (declared : List FieldStorageKind) (order : List Nat)
    (off : BitVec 32) : List (BitVec 32) :=
  ((wordPlaces narrow declared order off).filter fun p => (kindAt declared p.1).isReference).map Prod.snd

theorem layFields_eq (order : List Nat) {os t : List (BitVec 32)} {rs u : List Bool}
    {ks v : List FieldStorageKind} {refs : List (BitVec 32)} {off : BitVec 32} {count : Nat}
    {padded : Bool} (hr : rs.length = os.length) (hk : ks.length = os.length) :
    order.foldl (layField narrow declared os.length)
      { fieldOffsets := os++t, isRef := rs++u, fieldKinds := ks++v, refOffsets := refs, off := off
        count := count, padded := padded } =
      { fieldOffsets := os++writes (wordPlaces narrow declared order off) t
        isRef := rs++writes (order.map fun i => (i,(kindAt declared i).isReference)) u
        fieldKinds := ks++writes (order.map fun i => (i,kindAt declared i)) v
        refOffsets := refs++refPlaces narrow declared order off
        off := cursorAfter narrow declared order off, count := count, padded := padded } := by
  induction order generalizing t u v refs off with
  | nil => simp [writes,wordPlaces,refPlaces,cursorAfter]
  | cons i is ih => ?_
  rw [List.foldl_cons,layField]
  dsimp only
  have hset : ∀ {α : Type} (a b : List α) (x : α), a.length = os.length →
      (a++b).set (os.length+i) x = a++b.set i x := by
    intro α a b x ha
    rw [List.set_append_right _ _ (by omega),ha,Nat.add_sub_cancel_left]
  rw [hset os t _ rfl,hset rs u _ hr,hset ks v _ hk,ih]
  cases href : (kindAt declared i).isReference <;>
    simp [writes,wordPlaces,refPlaces,cursorAfter,href,advance]

/-- The tables after the declared fields of a class. -/
def laid (narrow packByWidth : Bool) (declared : List FieldStorageKind) (st : Laying) : Laying :=
  let order := assignOrder narrow packByWidth declared st.off
  { fieldOffsets := st.fieldOffsets++
      writes (wordPlaces narrow declared order st.off) (List.replicate declared.length 0)
    isRef := st.isRef++declared.map FieldStorageKind.isReference
    fieldKinds := st.fieldKinds++declared
    refOffsets := st.refOffsets++refPlaces narrow declared order st.off
    off := cursorAfter narrow declared order st.off
    count := st.count+declared.length
    padded := st.padded }

theorem layClass_eq {packByWidth : Bool} {c : LayoutClass} {st : Laying}
    (hdeclared : declaredKinds c.fields = some declared)
    (hr : st.isRef.length = st.fieldOffsets.length)
    (hk : st.fieldKinds.length = st.fieldOffsets.length) :
    layClass narrow packByWidth c st =
      some ((padField narrow)^[c.numTotalFields-(st.count+declared.length)]
        (laid narrow packByWidth declared st)) := by
  obtain ⟨hperm,-⟩ := @assignOrder_spec narrow declared packByWidth st.off
  have hrefs : (List.range declared.length).map (fun i => (kindAt declared i).isReference) =
      declared.map FieldStorageKind.isReference := by
    conv_rhs => rw [← range_kindAt declared,List.map_map]
    rfl
  unfold layClass
  rw [hdeclared]
  dsimp only
  rw [layFields_eq _ hr hk]
  dsimp only
  rw [writes_perm hperm (fun i => (kindAt declared i).isReference) (by simp),
    writes_perm hperm (kindAt declared) (by simp),range_kindAt,hrefs]
  rfl

end
end CratonVM.ClassLoading.FieldLayout
