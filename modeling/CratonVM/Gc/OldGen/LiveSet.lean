import CratonVM.Lib.Searching
import CratonVM.Lib.BitRows
import CratonVM.Gc.OldGen.BlockOffsets

/-!
The closure of the marked set over the references of the old generation (`close_live_set_starts`), with both
tests for a walked start and the read-only check on several workers. The slots are not written while it runs, and
of a header only the mark word; so the rest of the store is one fixed `Slots`. The process-wide counters are left
out.
-/
namespace CratonVM.Gc
open OldGen BitRows List Option Bool

def gcFlagMarked : Nat := 0x02
def gcFlagCompact : Nat := 0x04
def flagsBits : Nat := 0xF
def flagsShift : Nat := 24

namespace Header
def kind (h : Header) : ObjectKind :=
  match h.kindTag with
  | 1 => .array
  | 2 => .humongousFiller
  | _ => .object

def elementType (h : Header) : ArrayElementType :=
  if h.kind ≠ .array then .reference else (arrayElementTypeFromTag h.elementTypeTag).getD .reference

def isShort (h : Header) : Bool := h.kindTag = 0 && h.isCompact

def arrayLength (h : Header) : Nat := if h.kind = .array then h.shape else 0

def numSlots (h : Header) (compactFieldCount : Nat → Option Nat) : Nat :=
  if h.isShort then (compactFieldCount h.classId).getD 0 else h.shape

def gcFlags (h : Header) : Nat := (h.mark >>> flagsShift) &&& flagsBits

def isMarked (h : Header) : Bool := h.gcFlags &&& gcFlagMarked ≠ 0

/-- An object that becomes compact has its second word cleared. -/
def addGcFlags (h : Header) (flags : Nat) : Header :=
  let next := { h with mark := h.mark ||| ((flags &&& flagsBits) <<< flagsShift) }
  if flags &&& gcFlagCompact ≠ 0 ∧ h.kind = .object ∧ h.gcFlags &&& gcFlagCompact = 0 then { next with shape := 0 }
  else next

end Header

/-- What the closure reads outside the headers: the reference slots (decoded, zero for null), the value slots (the
address of an object that is not null), and the registered layouts with their reference displacements and total
size. -/
structure Slots where
  refSize : Nat
  readRefSlot : Nat → Nat
  readValue : Nat → Option Nat
  compactFieldCount : Nat → Option Nat
  classLayout : Nat → Nat → Option (List Nat × Nat)

/-- An object of the walk: its base address and its size. -/
structure WalkedObject where
  ptr : Nat
  size : Nat
  deriving DecidableEq, Repr

def inExtent (data : Nat × Nat) (ref : Nat) : Bool := ref ≥ data.1 && ref < data.2

/-- A slot that holds a reference into the old generation. -/
def Slots.oldGenRefAt (slots : Slots) (data : Nat × Nat) (slot : Nat) : Option Nat :=
  let raw := slots.readRefSlot slot
  if raw ≠ 0 ∧ inExtent data raw then some raw else none

/-- `for_each_old_gen_ref`: the references in the order of the visits. The walked size bounds every arm. -/
def Slots.oldGenRefs (slots : Slots) (h : Header) (o : WalkedObject) (data : Nat × Nat) : List Nat :=
  let bodyBytes := o.size-headerSize
  if h.kind = .array then
    if h.elementType = .reference then
      let elems := min h.arrayLength (bodyBytes/slots.refSize)
      (List.range elems).filterMap fun i => slots.oldGenRefAt data (o.ptr+(arrayDataOffset+i*slots.refSize))
    else []
  else if h.isCompact then
    match slots.classLayout h.classId (h.numSlots slots.compactFieldCount) with
    | none => []
    | some (refDisps,totalSize) =>
      let cap := min totalSize o.size
      (refDisps.takeWhile fun off => ¬off+slots.refSize > cap).filterMap fun off =>
        slots.oldGenRefAt data (o.ptr+off)
  else
    let count := min (h.numSlots slots.compactFieldCount) (bodyBytes/slotSize)
    (List.range count).filterMap fun i =>
      (slots.readValue (o.ptr+(headerSize+i*slotSize))).filter (inExtent data)

/-- One bit for each 8 bytes from the first base to the last. -/
structure WalkStartBits where
  lo : Nat
  words : Row
  deriving DecidableEq, Repr

namespace WalkStartBits
/-- The turn of the loop for one base. -/
def setStart (lo : Nat) (words : Row) (o : WalkedObject) : Option Row :=
  if o.ptr < lo then none
  else
    let off := o.ptr-lo
    if off%8 ≠ 0 then none
    else
      let bit := off/8
      if bit/64 < words.length then some (set words bit) else none

def build (objects : List WalkedObject) : Option WalkStartBits := do
  let lo := (← objects.head?).ptr
  let hi := (← objects.getLast?).ptr
  if hi < lo then none
  else
    let words ← objects.foldlM (setStart lo) (empty ((hi-lo)/8/64+1))
    some ⟨lo,words⟩

def contains (bits : WalkStartBits) (addr : Nat) : Bool :=
  if addr < bits.lo then false
  else
    let off := addr-bits.lo
    if off%8 ≠ 0 then false else get bits.words (off/8)

end WalkStartBits

/-- How many of the first elements have the property, when those that have it come first. -/
def partitionPoint {α : Type} (p : α → Bool) (l : List α) : Nat := (l.takeWhile p).length

/-- What a call of the closure is given and does not change. -/
structure CloseArgs where
  slots : Slots
  objects : List WalkedObject
  data : Nat × Nat
  /-- The ranges the walk could not cover, both ends as addresses. -/
  gaps : List (Nat × Nat)
  starts : Option WalkStartBits

namespace CloseArgs
variable (a : CloseArgs)

def inGap (addr : Nat) : Bool :=
  let i := partitionPoint (fun g : Nat × Nat => g.1 ≤ addr) a.gaps
  i > 0 && addr < (a.gaps.getD (i-1) (0,0)).2

def walkedIndex (addr : Nat) : Option Nat :=
  BinarySearch.binarySearch (a.objects.map WalkedObject.ptr) addr

def isWalked (addr : Nat) : Bool :=
  match a.starts with
  | some bits => bits.contains addr
  | none => (a.walkedIndex addr).isSome

/-- What a worker has stored when it returns. -/
structure WorkerOut where
  promoteDue : Bool
  escaped : Bool
  deriving DecidableEq, Repr

/-- The visit of a reference by a worker: whether a promotion is due, and whether there is an escape. -/
def verifyRef (headers : Nat → Header) (s : Bool × Bool) (ref : Nat) : Bool × Bool :=
  if s.1 then s
  else if !a.isWalked ref then (s.1,s.2 || !a.inGap ref)
  else if !(headers ref).isMarked then (true,s.2)
  else s

/-- A worker over its objects from position `k` on. `load k` is what it reads of `promote_due` there; it looks every
1024 objects. -/
def verifyJob (headers : Nat → Header) (load : Nat → Bool) : (k : Nat) → Bool → List WalkedObject → WorkerOut
  | _, escaped, [] => ⟨false,escaped⟩
  | k, escaped, o::rest =>
    if k%1024 = 0 ∧ load k then ⟨false,false⟩
    else if !(headers o.ptr).isMarked then verifyJob headers load (k+1) escaped rest
    else
      let (due,escaped) := (a.slots.oldGenRefs (headers o.ptr) o a.data).foldl (a.verifyRef headers) (false,escaped)
      if due then ⟨true,false⟩ else verifyJob headers load (k+1) escaped rest

def chunk (workers w : Nat) : List WalkedObject :=
  let n := a.objects.length
  let per := (n+workers-1)/workers
  (a.objects.take (min ((w+1)*per) n)).drop (min (w*per) n)

def workerOut (headers : Nat → Header) (workers : Nat) (loads : Nat → Nat → Bool) (w : Nat) : WorkerOut :=
  a.verifyJob headers (loads w) 0 false (a.chunk workers w)

/-- `close_live_set_par_verify`. The workers read `promote_due` while others may store it, so what they read is an
input. -/
def closeLiveSetParVerify (headers : Nat → Header) (workers : Nat) (loads : Nat → Nat → Bool) : Option Bool :=
  let n := a.objects.length
  if n = 0 then some false
  else
    let workers := min workers n
    let outs := (List.range workers).map (a.workerOut headers workers loads)
    if outs.any WorkerOut.promoteDue then none else some (outs.any WorkerOut.escaped)

/-- A worker reads only what some worker stores. -/
def LoadsOk (headers : Nat → Header) (workers : Nat) (loads : Nat → Nat → Bool) : Prop :=
  ∀ w k, loads w k = true →
    ∃ w' < min workers a.objects.length,
      (a.workerOut headers (min workers a.objects.length) loads w').promoteDue = true

structure Closing where
  headers : Nat → Header
  escaped : Bool := false
  promoted : Nat := 0
  /-- The caller's list of promoted objects, where it gives one. -/
  rescued : Option (List Nat) := none
  /-- Positions in the walk, the one pushed last at the head. -/
  worklist : List Nat := []

/-- The visit of a reference; `queued` says which promoted objects nothing else will scan. -/
def visit (queued : Nat → Bool) (s : Closing) (ref : Nat) : Closing :=
  if !a.isWalked ref then { s with escaped := s.escaped || !a.inGap ref }
  else if (s.headers ref).isMarked then s
  else
    let s := { s with
      headers := Function.update s.headers ref ((s.headers ref).addGcFlags gcFlagMarked)
      promoted := s.promoted+1
      rescued := s.rescued.map (·++[ref]) }
    if queued ref then
      match a.walkedIndex ref with
      | some j => { s with worklist := j::s.worklist }
      | none => s
    else s

def scan (queued : Nat → Bool) (s : Closing) (o : WalkedObject) : Closing :=
  (a.slots.oldGenRefs (s.headers o.ptr) o a.data).foldl (a.visit queued) s

/-- Phase A at one object of the linear pass: promoted objects behind it are queued. -/
def passStep (s : Closing) (o : WalkedObject) : Closing :=
  if !(s.headers o.ptr).isMarked then s else a.scan (· < o.ptr) s o

/-- Phase B; `none` when the fuel runs out first. -/
def drain : (fuel : Nat) → Closing → Option Closing
  | 0, s => if s.worklist.isEmpty then some s else none
  | fuel+1, s =>
    match s.worklist with
    | [] => some s
    | j::rest => drain fuel (a.scan (fun _ => true) { s with worklist := rest } (a.objects.getD j ⟨0,0⟩))

def closeLiveSetStarts (headers : Nat → Header) (rescued : Option (List Nat)) (par : Nat)
    (loads : Nat → Nat → Bool) (fuel : Nat) : Option Closing :=
  let serial := a.drain fuel (a.objects.foldl a.passStep { headers,rescued })
  if par ≥ 2 then
    match a.closeLiveSetParVerify headers par loads with
    | some escaped => some { headers,escaped,rescued }
    | none => serial
  else serial

end CloseArgs
end CratonVM.Gc
namespace CratonVM.Gc
open OldGen BitRows

namespace Header
variable (h : Header)

theorem addMark_eq : h.addGcFlags gcFlagMarked = { h with mark := h.mark ||| 0x2000000 } := by
  rfl

@[simp] theorem isMarked_addMark : (h.addGcFlags gcFlagMarked).isMarked = true := by
  rw [addMark_eq]
  simp [isMarked,gcFlags,gcFlagMarked,flagsShift,flagsBits,Nat.shiftRight_or_distrib,Nat.and_or_distrib_right]

@[simp] theorem kindTag_addMark : (h.addGcFlags gcFlagMarked).kindTag = h.kindTag := by
  rw [addMark_eq]
  simp [kindTag,Nat.shiftRight_or_distrib,Nat.and_or_distrib_right]

@[simp] theorem elementTypeTag_addMark : (h.addGcFlags gcFlagMarked).elementTypeTag = h.elementTypeTag := by
  rw [addMark_eq]
  simp [elementTypeTag,Nat.shiftRight_or_distrib,Nat.and_or_distrib_right]

@[simp] theorem isCompact_addMark : (h.addGcFlags gcFlagMarked).isCompact = h.isCompact := by
  rw [addMark_eq]
  simp [isCompact,Nat.shiftRight_or_distrib,Nat.and_or_distrib_right]

@[simp] theorem classId_addMark : (h.addGcFlags gcFlagMarked).classId = h.classId := by rw [addMark_eq]

@[simp] theorem shape_addMark : (h.addGcFlags gcFlagMarked).shape = h.shape := by rw [addMark_eq]

@[simp] theorem kind_addMark : (h.addGcFlags gcFlagMarked).kind = h.kind := by simp only [kind,kindTag_addMark]

@[simp] theorem elementType_addMark : (h.addGcFlags gcFlagMarked).elementType = h.elementType := by
  simp only [elementType,kind_addMark,elementTypeTag_addMark]

@[simp] theorem arrayLength_addMark : (h.addGcFlags gcFlagMarked).arrayLength = h.arrayLength := by
  simp only [arrayLength,kind_addMark,shape_addMark]

@[simp] theorem isShort_addMark : (h.addGcFlags gcFlagMarked).isShort = h.isShort := by
  simp [isShort]

@[simp] theorem numSlots_addMark (fieldCount : Nat → Option Nat) :
    (h.addGcFlags gcFlagMarked).numSlots fieldCount = h.numSlots fieldCount := by
  simp only [numSlots,isShort_addMark,classId_addMark,shape_addMark]

end Header

theorem oldGenRefs_addMark (slots : Slots) (h : Header) (o : WalkedObject) (data : Nat × Nat) :
    slots.oldGenRefs (h.addGcFlags gcFlagMarked) o data = slots.oldGenRefs h o data := by
  simp only [Slots.oldGenRefs,Header.kind_addMark,Header.elementType_addMark,Header.arrayLength_addMark,
    Header.isCompact_addMark,Header.classId_addMark,Header.numSlots_addMark]

namespace WalkStartBits
theorem foldlM_setStart {lo : Nat} {objects : List WalkedObject} {words out : Row}
    (h : objects.foldlM (setStart lo) words = some out) :
    (∀ o ∈ objects, lo ≤ o.ptr ∧ (o.ptr-lo)%8 = 0 ∧ (o.ptr-lo)/8/64 < words.length) ∧
      out = (objects.map fun o => (o.ptr-lo)/8).foldl set words := by
  induction objects generalizing words with
  | nil =>
    exact ⟨by simp,(Option.some.inj h).symm⟩
  | cons o rest ih => ?_
  obtain ⟨next,hnext,h⟩ := Option.bind_eq_some_iff.mp h
  unfold setStart at hnext
  split at hnext
  · cases hnext
  dsimp only at hnext
  split at hnext
  · cases hnext
  split at hnext
  · rename_i hword
    obtain rfl := Option.some.inj hnext
    obtain ⟨hall,hout⟩ := ih h
    refine ⟨List.forall_mem_cons.mpr ⟨⟨by omega,by omega,hword⟩,?_⟩,hout⟩
    intro o' ho'
    obtain ⟨h1,h2,h3⟩ := hall o' ho'
    have hlen : (set words ((o.ptr-lo)/8)).length = words.length := length_foldl_set words [_]
    exact ⟨h1,h2,by omega⟩
  · cases hnext

theorem contains_build {objects : List WalkedObject} {bits : WalkStartBits} (h : build objects = some bits)
    (addr : Nat) : bits.contains addr = true ↔ addr ∈ objects.map WalkedObject.ptr := by
  obtain ⟨first,-,h⟩ := Option.bind_eq_some_iff.mp h
  obtain ⟨last,-,h⟩ := Option.bind_eq_some_iff.mp h
  dsimp only at h
  split at h
  · cases h
  obtain ⟨words,hwords,h⟩ := Option.bind_eq_some_iff.mp h
  obtain rfl := Option.some.inj h
  obtain ⟨hall,rfl⟩ := foldlM_setStart hwords
  unfold contains
  dsimp only
  constructor
  · intro hc
    split at hc
    · cases hc
    split at hc
    · cases hc
    rw [get_foldl_set,get_empty,Bool.false_or,Bool.and_eq_true,decide_eq_true_eq] at hc
    obtain ⟨o,ho,hbit⟩ := List.mem_map.mp hc.1
    obtain ⟨h1,h2,-⟩ := hall o ho
    exact List.mem_map.mpr ⟨o,ho,by omega⟩
  intro hmem
  obtain ⟨o,ho,rfl⟩ := List.mem_map.mp hmem
  obtain ⟨h1,h2,h3⟩ := hall o ho
  rw [if_neg (by omega),if_neg (by omega),get_foldl_set,Bool.or_eq_true,Bool.and_eq_true]
  exact .inr ⟨decide_eq_true (List.mem_map_of_mem ho),decide_eq_true h3⟩

end WalkStartBits

/-- Gaps in address order: neither their starts nor their ends descend. -/
def GapsOk (gaps : List (Nat × Nat)) : Prop := gaps.Pairwise fun g g' => g.1 ≤ g'.1 ∧ g.2 ≤ g'.2

namespace CloseArgs
variable {a : CloseArgs}

theorem inGap_iff (h : GapsOk a.gaps) (addr : Nat) : a.inGap addr = true ↔ ∃ g ∈ a.gaps, g.1 ≤ addr ∧ addr < g.2 := by
  unfold inGap
  dsimp only
  generalize a.gaps = gaps at h
  induction gaps with
  | nil => simp [partitionPoint]
  | cons g rest ih => ?_
  obtain ⟨hfirst,hrest⟩ := List.pairwise_cons.mp h
  have hih := ih hrest
  have hpoint : partitionPoint (fun g : Nat × Nat => g.1 ≤ addr) (g::rest) =
      if g.1 ≤ addr then partitionPoint (fun g : Nat × Nat => g.1 ≤ addr) rest+1 else 0 := by
    unfold partitionPoint
    by_cases hle : g.1 ≤ addr
    · simp [hle]
    · simp [hle]
  rw [hpoint]
  by_cases hle : g.1 ≤ addr
  · rw [if_pos hle]
    -- The gap behind is asked, unless it and so the rest of them start above the address.
    rcases Nat.eq_zero_or_pos (partitionPoint (fun g : Nat × Nat => g.1 ≤ addr) rest) with hzero | hpos
    · rw [hzero] at hih ⊢
      have hnone : ¬∃ g' ∈ rest, g'.1 ≤ addr ∧ addr < g'.2 := by
        rw [← hih]
        simp
      rw [List.exists_mem_cons_iff,or_iff_left hnone]
      simp [hle]
    have hnext : (g::rest).getD (partitionPoint (fun g : Nat × Nat => g.1 ≤ addr) rest+1-1) (0,0) =
        rest.getD (partitionPoint (fun g : Nat × Nat => g.1 ≤ addr) rest-1) (0,0) := by
      obtain ⟨i,hi⟩ : ∃ i, partitionPoint (fun g : Nat × Nat => g.1 ≤ addr) rest = i+1 :=
        ⟨_,(Nat.sub_add_cancel hpos).symm⟩
      rw [hi]
      rfl
    have hmono : g.1 ≤ addr ∧ addr < g.2 → ∃ g' ∈ rest, g'.1 ≤ addr ∧ addr < g'.2 := by
      rintro ⟨-,hlt⟩
      cases rest with
      | nil => simp [partitionPoint] at hpos
      | cons g' rest => ?_
      have hge := (hfirst g' List.mem_cons_self).2
      have hstart : g'.1 ≤ addr := by
        by_contra hgt
        simp [partitionPoint,hgt] at hpos
      exact ⟨g',List.mem_cons_self,hstart,by omega⟩
    rw [hnext,List.exists_mem_cons_iff,or_iff_right_of_imp hmono,← hih]
    simp [hpos]
  · rw [if_neg hle]
    constructor
    · intro hfalse
      simp at hfalse
    rintro ⟨g',hg',h1,-⟩
    rcases List.mem_cons.mp hg' with rfl | hg'
    · exact absurd h1 hle
    have := (hfirst g' hg').1
    omega

/-- The walk in address order, and a bitmap that was built from it where there is one. -/
structure WalkOk (a : CloseArgs) : Prop where
  ascending : a.objects.Pairwise fun o o' => o.ptr < o'.ptr
  built : ∀ bits, a.starts = some bits → WalkStartBits.build a.objects = some bits

theorem WalkOk.ptrs (h : a.WalkOk) : (a.objects.map WalkedObject.ptr).Pairwise (· < ·) :=
  List.pairwise_map.mpr h.ascending

theorem walkedIndex_eq_some (h : a.WalkOk) {addr j : Nat} :
    a.walkedIndex addr = some j ↔ ∃ o, a.objects[j]? = some o ∧ o.ptr = addr := by
  unfold walkedIndex
  rw [BinarySearch.binarySearch_eq_some h.ptrs,List.getElem?_map,Option.map_eq_some_iff]

theorem isWalked_iff (h : a.WalkOk) (addr : Nat) : a.isWalked addr = true ↔ ∃ o ∈ a.objects, o.ptr = addr := by
  rw [← List.mem_map]
  unfold isWalked
  cases hs : a.starts with
  | some bits => exact WalkStartBits.contains_build (h.built bits hs) addr
  | none => exact BinarySearch.binarySearch_isSome h.ptrs addr

end CloseArgs
end CratonVM.Gc
