import CratonVM.ClassLoading.ClassModel

/-!
The vtable of a class as `ClassManager::build_vtable_descriptors_shadowing` makes it from its
superclass's (`classloading/src/class_manager.rs`). The dispatch snapshot of a slot, which nothing
here reads, is left out.
-/
namespace CratonVM.ClassLoading
open List Option

structure VtableSlot where
  declaringClassId : ClassId
  methodIndex : Nat
  methodName : String
  descriptor : String
  deriving DecidableEq, Repr

abbrev VtableEntries := List (Option VtableSlot)

/-- The vtables built so far. -/
abbrev Vtables := ClassId → Option VtableEntries

abbrev Signature := String × String

def ClassFileMethod.signature (m : ClassFileMethod) : Signature := (m.name,m.descriptor)

def VtableSlot.signature (e : VtableSlot) : Signature := (e.methodName,e.descriptor)

/-- Does a method take a slot at all? -/
def ClassFileMethod.isVirtual (m : ClassFileMethod) : Bool :=
  !m.isStatic && !m.isPrivate && m.name ≠ "<init>" && m.name ≠ "<clinit>"

variable (store : ClassStore) (vtables : Vtables)

/-- The entry of the topmost ancestor that has the slot. -/
def vtableSlotRoot (slot : Nat) : (left : Nat) → Option ClassId → (root : Option VtableSlot) →
    Option VtableSlot
  | _, none, root => root
  | 0, some _, root => root
  | left+1, some id, root =>
    match (vtables id).bind (·[slot]?) with
    | some (some descriptor) =>
      vtableSlotRoot slot left ((store.get id).bind Class.superclass) (some descriptor)
    | _ => root

def slotMethod (e : VtableSlot) : Option (ClassFileMethod × ClassId) :=
  match store.get e.declaringClassId with
  | none => none
  | some a => (a.methods[e.methodIndex]?).map fun ma => (ma,e.declaringClassId)

def indexSlots : (slot : Nat) → VtableEntries → (Signature → Option Nat) → (repeated : List Nat) →
    (Signature → Option Nat) × List Nat
  | _, [], nameToSlot, repeated => (nameToSlot,repeated)
  | slot, none::entries, nameToSlot, repeated => indexSlots (slot+1) entries nameToSlot repeated
  | slot, some e::entries, nameToSlot, repeated =>
    if (nameToSlot e.signature).isSome then
      indexSlots (slot+1) entries nameToSlot (repeated++[slot])
    else
      indexSlots (slot+1) entries
        (fun key => if key = e.signature then some slot else nameToSlot key) repeated

structure VtableBuild where
  entries : VtableEntries
  nameToSlot : Signature → Option Nat
  overrides : List (ClassId × Nat) := []
  shadows : Bool := false

/-- The slots of the superclass that a method replaces. -/
def recordOverrides (superclassId : Option ClassId) (overrides : List (ClassId × Nat))
    (hits : List Nat) : List (ClassId × Nat) :=
  match superclassId with
  | none => overrides
  | some s => overrides++hits.map fun slot => (s,slot)

section
variable (classId : ClassId) (superclassId : Option ClassId) (repeated : List Nat)

def isTrueOverride (m : ClassFileMethod) (slot : Nat) : Bool :=
  match (vtableSlotRoot store vtables slot overrideWalkBudget superclassId none).bind
      (slotMethod store) with
  | some (ma,aId) => (canOverride store m classId ma aId overrideWalkBudget).any Prod.fst
  | none => true

def newEntry (m : ClassFileMethod) (index : Nat) : VtableSlot :=
  { declaringClassId := classId, methodIndex := index, methodName := m.name
    descriptor := m.descriptor }

def setSlots (entries : VtableEntries) (slots : List Nat) (e : VtableSlot) : VtableEntries :=
  slots.foldl (fun entries slot => entries.set slot (some e)) entries

def placeMethod (b : VtableBuild) (m : ClassFileMethod) (index : Nat) : VtableBuild :=
  if m.isVirtual then
    let entry := newEntry classId m index
    match b.nameToSlot m.signature with
    | some first =>
      let candidates := first::repeated.filter fun s =>
        (b.entries[s]?.join).any fun e => e.signature = m.signature
      let hits := candidates.filter (isTrueOverride store vtables classId superclassId m)
      let overrides := recordOverrides superclassId b.overrides hits
      if hits = [] then
        { b with entries := b.entries++[some entry], overrides := overrides, shadows := true }
      else { b with entries := setSlots b.entries hits entry, overrides := overrides }
    | none =>
      { b with
        entries := b.entries++[some entry]
        nameToSlot := fun key => if key = m.signature then some b.entries.length else b.nameToSlot key }
  else b

def placeMethods : (index : Nat) → List ClassFileMethod → VtableBuild → VtableBuild
  | _, [], b => b
  | index, m::methods, b =>
    placeMethods (index+1) methods
      (placeMethod store vtables classId superclassId repeated b m index)

end

def parentSlice (superclassId : Option ClassId) : VtableEntries :=
  match superclassId with
  | none => []
  | some sid => (vtables sid).getD []

def buildVtable (classId : ClassId) (superclassId : Option ClassId) : VtableBuild :=
  let parent := parentSlice vtables superclassId
  match store.get classId with
  | none => { entries := parent, nameToSlot := fun _ => none }
  | some c =>
    if c.methods.countP ClassFileMethod.isVirtual = 0 then
      { entries := parent, nameToSlot := fun _ => none }
    else
      let (nameToSlot,repeated) := indexSlots 0 parent (fun _ => none) []
      placeMethods store vtables classId superclassId repeated 0 c.methods
        { entries := parent, nameToSlot := nameToSlot }

end CratonVM.ClassLoading
namespace CratonVM.ClassLoading
section
def HasSlot (entries : VtableEntries) (key : Signature) (s : Nat) : Prop :=
  ∃ e, entries[s]? = some (some e) ∧ e.signature = key

theorem HasSlot.append {entries : VtableEntries} {key : Signature} {s : Nat}
    (h : HasSlot entries key s) (more : VtableEntries) : HasSlot (entries++more) key s := by
  obtain ⟨e,he,hkey⟩ := h
  exact ⟨e,by rw [List.getElem?_append_left (getElem?_eq_some_iff.mp he).1]; exact he,hkey⟩

theorem hasSlot_snoc {entries : VtableEntries} {x : Option VtableSlot} {key : Signature} {s : Nat} :
    HasSlot (entries++[x]) key s ↔
      HasSlot entries key s ∨ s = entries.length ∧ ∃ e, x = some e ∧ e.signature = key := by
  constructor
  · rintro ⟨e,he,hkey⟩
    rcases Nat.lt_trichotomy s entries.length with hs | hs | hs
    · rw [List.getElem?_append_left hs] at he
      exact .inl ⟨e,he,hkey⟩
    · subst hs
      simp at he
      exact .inr ⟨rfl,e,he,hkey⟩
    rw [List.getElem?_eq_none (by simp; omega)] at he
    cases he
  rintro (h | ⟨rfl,e,rfl,hkey⟩)
  · exact h.append _
  · exact ⟨e,by simp,hkey⟩

/-- What the index of the slots holds after a part of them. -/
structure SlotIndex (entries : VtableEntries) (nameToSlot : Signature → Option Nat)
    (repeated : List Nat) : Prop where
  first : ∀ key f, nameToSlot key = some f → HasSlot entries key f ∧ ∀ s, s < f → ¬HasSlot entries key s
  absent : ∀ key, nameToSlot key = none → ∀ s, ¬HasSlot entries key s
  later : ∀ s, s ∈ repeated ↔ ∃ key f, HasSlot entries key s ∧ nameToSlot key = some f ∧ f < s
  nodup : repeated.Nodup

theorem indexSlots_spec {rest entries : VtableEntries} {nameToSlot : Signature → Option Nat}
    {repeated : List Nat} (h : SlotIndex entries nameToSlot repeated) :
    SlotIndex (entries++rest) (indexSlots entries.length rest nameToSlot repeated).1
      (indexSlots entries.length rest nameToSlot repeated).2 := by
  induction rest generalizing entries nameToSlot repeated with
  | nil =>
    rw [List.append_nil]
    exact h
  | cons x rest ih => ?_
  have happ : entries++x::rest = entries++[x]++rest := by simp
  have hlen : entries.length+1 = (entries++[x]).length := by simp
  have hlt : ∀ {key s}, HasSlot entries key s → s < entries.length :=
    fun ⟨_,he,_⟩ => (getElem?_eq_some_iff.mp he).1
  cases x with
  | none =>
    rw [indexSlots,happ,hlen]
    refine ih ⟨fun key f hf => ?_,fun key hn s => ?_,fun s => ?_,h.nodup⟩
    · simpa [hasSlot_snoc] using h.first key f hf
    · simpa [hasSlot_snoc] using h.absent key hn s
    · simpa [hasSlot_snoc] using h.later s
  | some e => ?_
  rw [indexSlots,happ,hlen]
  cases hmap : nameToSlot e.signature with
  | some f =>
    have hf := (h.first _ _ hmap).1
    refine ih ⟨fun key g hg => ?_,fun key hn s hs => ?_,fun s => ?_,?_⟩
    · refine ⟨(h.first key g hg).1.append _,fun s hs hslot => ?_⟩
      rcases hasSlot_snoc.mp hslot with hslot | ⟨rfl,-⟩
      · exact (h.first key g hg).2 s hs hslot
      have := hlt (h.first key g hg).1
      omega
    · rcases hasSlot_snoc.mp hs with hs | ⟨-,e',he,hkey⟩
      · exact h.absent key hn s hs
      obtain rfl := Option.some.inj he
      rw [hkey,hn] at hmap
      cases hmap
    · rw [List.mem_append,List.mem_singleton,h.later s]
      constructor
      · rintro (⟨key,g,hs,hg,hlt'⟩ | rfl)
        · exact ⟨key,g,hs.append _,hg,hlt'⟩
        · exact ⟨e.signature,f,hasSlot_snoc.mpr (.inr ⟨rfl,e,rfl,rfl⟩),hmap,hlt hf⟩
      rintro ⟨key,g,hs,hg,hlt'⟩
      rcases hasSlot_snoc.mp hs with hs | ⟨rfl,-⟩
      · exact .inl ⟨key,g,hs,hg,hlt'⟩
      · exact .inr rfl
    rw [List.nodup_append]
    refine ⟨h.nodup,by simp,fun a ha b hb => ?_⟩
    rintro rfl
    obtain ⟨key,g,hs,-⟩ := (h.later a).mp ha
    have := hlt hs
    have := List.mem_singleton.mp hb
    omega
  | none => ?_
  have hnew : HasSlot (entries++[some e]) e.signature entries.length :=
    hasSlot_snoc.mpr (.inr ⟨rfl,e,rfl,rfl⟩)
  refine ih ⟨fun key g hg => ?_,fun key hn s hs => ?_,fun s => ?_,h.nodup⟩
  · split at hg
    · rename_i hkey
      obtain rfl := Option.some.inj hg
      subst hkey
      refine ⟨hnew,fun s hs hslot => ?_⟩
      rcases hasSlot_snoc.mp hslot with hslot | ⟨rfl,-⟩
      · exact h.absent _ hmap s hslot
      · omega
    refine ⟨(h.first key g hg).1.append _,fun s hs hslot => ?_⟩
    rcases hasSlot_snoc.mp hslot with hslot | ⟨rfl,-⟩
    · exact (h.first key g hg).2 s hs hslot
    have := hlt (h.first key g hg).1
    omega
  · split at hn
    · cases hn
    rename_i hkey
    rcases hasSlot_snoc.mp hs with hs | ⟨-,e',he,hsig⟩
    · exact h.absent key hn s hs
    obtain rfl := Option.some.inj he
    exact hkey hsig.symm
  rw [h.later s]
  constructor
  · rintro ⟨key,g,hs,hg,hlt'⟩
    refine ⟨key,g,hs.append _,?_,hlt'⟩
    rw [if_neg ?_]
    · exact hg
    rintro rfl
    rw [hmap] at hg
    cases hg
  rintro ⟨key,g,hs,hg,hlt'⟩
  rcases hasSlot_snoc.mp hs with hs | ⟨rfl,e',he,hsig⟩
  · split at hg
    · obtain rfl := Option.some.inj hg
      have := hlt hs
      omega
    · exact ⟨key,g,hs,hg,hlt'⟩
  obtain rfl := Option.some.inj he
  rw [if_pos hsig.symm] at hg
  obtain rfl := Option.some.inj hg
  omega

theorem indexSlots_parent (parent : VtableEntries) :
    SlotIndex parent (indexSlots 0 parent (fun _ => none) []).1
      (indexSlots 0 parent (fun _ => none) []).2 := by
  have hnil : SlotIndex [] (fun _ => none) [] :=
    ⟨by simp,by simp [HasSlot],by simp [HasSlot],by simp⟩
  exact indexSlots_spec hnil

theorem getElem?_setSlots {entries : VtableEntries} {slots : List Nat} {e : VtableSlot} {s : Nat} :
    (setSlots entries slots e)[s]? =
      if s ∈ slots ∧ s < entries.length then some (some e) else entries[s]? := by
  induction slots generalizing entries with
  | nil => simp [setSlots]
  | cons t slots ih => ?_
  have hstep : setSlots entries (t::slots) e = setSlots (entries.set t (some e)) slots e := rfl
  rw [hstep,ih,List.length_set,List.getElem?_set]
  by_cases hs : s < entries.length
  · by_cases hmem : s ∈ slots
    · simp [hs,hmem]
    by_cases hst : t = s
    · simp [hst,hs]
    · simp [hs,hmem,hst,Ne.symm hst]
  simp [hs]
  omega

theorem length_setSlots {entries : VtableEntries} {slots : List Nat} {e : VtableSlot} :
    (setSlots entries slots e).length = entries.length := by
  induction slots generalizing entries with
  | nil => rfl
  | cons t slots ih =>
    have hstep : setSlots entries (t::slots) e = setSlots (entries.set t (some e)) slots e := rfl
    rw [hstep,ih,List.length_set]

end

section
variable {store : ClassStore} {vtables : Vtables} {classId : ClassId} {superclassId : Option ClassId}
  {parent : VtableEntries} {repeated : List Nat}

/-- A method of the class, with its index, takes over an inherited slot. -/
def Replaces (store : ClassStore) (vtables : Vtables) (classId : ClassId)
    (superclassId : Option ClassId) (parent : VtableEntries) (m : ClassFileMethod) (s : Nat) : Prop :=
  m.isVirtual = true ∧ HasSlot parent m.signature s ∧
    isTrueOverride store vtables classId superclassId m s = true

/-- The build after some methods of the class. -/
structure Placed (store : ClassStore) (vtables : Vtables) (classId : ClassId)
    (superclassId : Option ClassId) (parent : VtableEntries) (done : List (ClassFileMethod × Nat))
    (b : VtableBuild) : Prop where
  length : parent.length ≤ b.entries.length
  inherited : ∀ s, s < parent.length →
    (∃ p ∈ done, Replaces store vtables classId superclassId parent p.1 s ∧
      b.entries[s]? = some (some (newEntry classId p.1 p.2))) ∨
    (∀ p ∈ done, ¬Replaces store vtables classId superclassId parent p.1 s) ∧
      b.entries[s]? = parent[s]?
  own : ∀ s, parent.length ≤ s → s < b.entries.length →
    ∃ p ∈ done, p.1.isVirtual = true ∧ b.entries[s]? = some (some (newEntry classId p.1 p.2))
  housed : ∀ p ∈ done, p.1.isVirtual = true →
    ∃ s : Nat, b.entries[s]? = some (some (newEntry classId p.1 p.2))
  first : ∀ key f, b.nameToSlot key = some f →
    (HasSlot parent key f ∧ ∀ s, s < f → ¬HasSlot parent key s) ∨ ∃ p ∈ done, p.1.signature = key
  absent : ∀ key, b.nameToSlot key = none → ∀ s, ¬HasSlot parent key s
  overrides : ∀ x : ClassId × Nat, x ∈ b.overrides ↔ superclassId = some x.1 ∧
    ∃ p ∈ done, Replaces store vtables classId superclassId parent p.1 x.2
  nodup : b.overrides.Nodup

theorem Placed.hasSlot {done : List (ClassFileMethod × Nat)} {b : VtableBuild}
    (h : Placed store vtables classId superclassId parent done b) {s : Nat} (hs : s < parent.length)
    {key : Signature} (hb : HasSlot b.entries key s) : HasSlot parent key s := by
  obtain ⟨e,he,hkey⟩ := hb
  rcases h.inherited s hs with ⟨p,-,⟨-,hslot,-⟩,hentry⟩ | ⟨-,hentry⟩
  · obtain rfl := Option.some.inj (Option.some.inj (he.symm.trans hentry))
    rw [← hkey]
    exact hslot
  · exact ⟨e,hentry.symm.trans he,hkey⟩

theorem HasSlot.lt {entries : VtableEntries} {key : Signature} {s : Nat}
    (h : HasSlot entries key s) : s < entries.length :=
  (getElem?_eq_some_iff.mp h.choose_spec.1).1

theorem Placed.hasSlot_entries {done : List (ClassFileMethod × Nat)} {b : VtableBuild}
    (h : Placed store vtables classId superclassId parent done b) {s : Nat} {key : Signature}
    (hp : HasSlot parent key s) : HasSlot b.entries key s := by
  rcases h.inherited s hp.lt with ⟨p,-,⟨-,hslot,-⟩,hentry⟩ | ⟨-,hentry⟩
  · obtain ⟨e,he,hkey⟩ := hp
    obtain ⟨e',he',hkey'⟩ := hslot
    obtain rfl := Option.some.inj (Option.some.inj (he.symm.trans he'))
    exact ⟨_,hentry,by rw [← hkey,hkey']; rfl⟩
  obtain ⟨e,he,hkey⟩ := hp
  exact ⟨e,hentry.trans he,hkey⟩

theorem Placed.mem_candidates {done : List (ClassFileMethod × Nat)} {b : VtableBuild}
    (h : Placed store vtables classId superclassId parent done b)
    {nameToSlot : Signature → Option Nat} (hidx : SlotIndex parent nameToSlot repeated)
    {m : ClassFileMethod} (hnew : ∀ p ∈ done, p.1.signature ≠ m.signature) {f : Nat}
    (hf : b.nameToSlot m.signature = some f) (s : Nat) :
    s ∈ f::repeated.filter (fun s => (b.entries[s]?.join).any fun e => e.signature = m.signature) ↔
      HasSlot parent m.signature s := by
  have hfirst : HasSlot parent m.signature f ∧ ∀ s, s < f → ¬HasSlot parent m.signature s := by
    rcases h.first _ _ hf with hfirst | ⟨p,hp,hsig⟩
    · exact hfirst
    · exact absurd hsig (hnew p hp)
  have hentry : ∀ s, ((b.entries[s]?.join).any fun e => e.signature = m.signature) = true ↔
      HasSlot b.entries m.signature s := by
    intro s
    unfold HasSlot
    cases hs : b.entries[s]? with
    | none => simp
    | some x => cases x <;> simp
  rw [List.mem_cons,List.mem_filter,hentry]
  constructor
  · rintro (rfl | ⟨hrep,hslot⟩)
    · exact hfirst.1
    obtain ⟨key,g,hp,-⟩ := (hidx.later s).mp hrep
    exact h.hasSlot hp.lt hslot
  intro hp
  by_cases hs : s = f
  · exact .inl hs
  refine .inr ⟨(hidx.later s).mpr ?_,h.hasSlot_entries hp⟩
  cases hn : nameToSlot m.signature with
  | none => exact absurd hp (hidx.absent _ hn s)
  | some g => ?_
  obtain ⟨hg,hless⟩ := hidx.first _ _ hn
  refine ⟨m.signature,g,hp,hn,?_⟩
  have h2 : ¬s < f := fun hlt => hfirst.2 s hlt hp
  have h3 : ¬f < g := fun hlt => hless f hlt hfirst.1
  omega

theorem candidates_nodup {nameToSlot : Signature → Option Nat}
    (hidx : SlotIndex parent nameToSlot repeated) {key : Signature} {f : Nat}
    (hf : HasSlot parent key f ∧ ∀ s, s < f → ¬HasSlot parent key s) (p : Nat → Bool) :
    (f::repeated.filter p).Nodup := by
  refine List.nodup_cons.mpr ⟨fun hmem => ?_,hidx.nodup.filter _⟩
  obtain ⟨key',g,hslot,hg,hlt⟩ := (hidx.later f).mp (List.mem_filter.mp hmem).1
  obtain ⟨e,he,hkey⟩ := hf.1
  obtain ⟨e',he',hkey'⟩ := hslot
  obtain rfl := Option.some.inj (Option.some.inj (he.symm.trans he'))
  rw [← hkey',hkey] at hg
  exact hf.2 g hlt (hidx.first _ _ hg).1

variable {done : List (ClassFileMethod × Nat)} {b : VtableBuild} {m : ClassFileMethod} {index : Nat}

section
variable (h : Placed store vtables classId superclassId parent done b)
include h

theorem Placed.append
    (hvirtual : m.isVirtual = true)
    (hno : ∀ s, ¬Replaces store vtables classId superclassId parent m s)
    {nameToSlot : Signature → Option Nat} {shadows : Bool}
    (hfirst : ∀ key f, nameToSlot key = some f →
      b.nameToSlot key = some f ∨ key = m.signature)
    (habsent : ∀ key, nameToSlot key = none → b.nameToSlot key = none) :
    Placed store vtables classId superclassId parent (done++[(m,index)])
      { entries := b.entries++[some (newEntry classId m index)], nameToSlot := nameToSlot
        overrides := b.overrides, shadows := shadows } := by
  have hkeep : ∀ s, s < b.entries.length →
      (b.entries++[some (newEntry classId m index)])[s]? = b.entries[s]? :=
    fun s hs => List.getElem?_append_left hs
  refine ⟨?_,fun s hs => ?_,fun s hs hlt => ?_,fun p hp hv => ?_,fun key f hf => ?_,
    fun key hn => h.absent key (habsent key hn),fun x => ?_,h.nodup⟩
  · simp only [List.length_append,List.length_singleton]
    have := h.length
    omega
  · have hlen := h.length
    rw [hkeep s (by omega)]
    rcases h.inherited s hs with ⟨p,hp,hrep,hentry⟩ | ⟨hnone,hentry⟩
    · exact .inl ⟨p,List.mem_append_left _ hp,hrep,hentry⟩
    refine .inr ⟨fun p hp => ?_,hentry⟩
    rcases List.mem_append.mp hp with hp | hp
    · exact hnone p hp
    rw [List.mem_singleton.mp hp]
    exact hno s
  · rcases Nat.lt_or_ge s b.entries.length with hs' | hs'
    · rw [hkeep s hs']
      obtain ⟨p,hp,hv,hentry⟩ := h.own s hs hs'
      exact ⟨p,List.mem_append_left _ hp,hv,hentry⟩
    obtain rfl : s = b.entries.length := by
      simp at hlt
      omega
    exact ⟨(m,index),by simp,hvirtual,by simp⟩
  · rcases List.mem_append.mp hp with hp | hp
    · obtain ⟨s,hs⟩ := h.housed p hp hv
      exact ⟨s,by rw [hkeep s (getElem?_eq_some_iff.mp hs).1]; exact hs⟩
    rw [List.mem_singleton.mp hp]
    exact ⟨b.entries.length,by simp⟩
  · rcases hfirst key f hf with hf | rfl
    · rcases h.first key f hf with hf | ⟨p,hp,hkey⟩
      · exact .inl hf
      · exact .inr ⟨p,List.mem_append_left _ hp,hkey⟩
    · exact .inr ⟨(m,index),by simp,rfl⟩
  rw [h.overrides x]
  refine and_congr_right fun _ => ⟨?_,?_⟩
  · rintro ⟨p,hp,hrep⟩
    exact ⟨p,List.mem_append_left _ hp,hrep⟩
  rintro ⟨p,hp,hrep⟩
  rcases List.mem_append.mp hp with hp | hp
  · exact ⟨p,hp,hrep⟩
  rw [List.mem_singleton.mp hp] at hrep
  exact absurd hrep (hno x.2)

theorem Placed.replace
    (hnew : ∀ p ∈ done, p.1.signature ≠ m.signature)
    {hits : List Nat} (hhits : ∀ s, s ∈ hits ↔ Replaces store vtables classId superclassId parent m s)
    (hnodup : hits.Nodup) (hne : hits ≠ []) :
    Placed store vtables classId superclassId parent (done++[(m,index)])
      { b with entries := setSlots b.entries hits (newEntry classId m index)
               overrides := recordOverrides superclassId b.overrides hits } := by
  have hlt : ∀ s ∈ hits, s < parent.length := fun s hs => ((hhits s).mp hs).2.1.lt
  have hlen := h.length
  -- two methods of different signatures do not replace one slot
  have hapart : ∀ p ∈ done, ∀ s, Replaces store vtables classId superclassId parent p.1 s → s ∉ hits := by
    rintro p hp s ⟨-,⟨e,he,hkey⟩,-⟩ hs
    obtain ⟨-,⟨e',he',hkey'⟩,-⟩ := (hhits s).mp hs
    obtain rfl := Option.some.inj (Option.some.inj (he.symm.trans he'))
    exact hnew p hp (hkey.symm.trans hkey')
  refine ⟨?_,fun s hs => ?_,fun s hs hs' => ?_,fun p hp hv => ?_,fun key f hf => ?_,h.absent,
    fun x => ?_,?_⟩
  · rw [length_setSlots]
    exact hlen
  · rw [getElem?_setSlots]
    by_cases hmem : s ∈ hits
    · rw [if_pos ⟨hmem,by omega⟩]
      exact .inl ⟨(m,index),by simp,(hhits s).mp hmem,rfl⟩
    rw [if_neg (fun hbad => hmem hbad.1)]
    rcases h.inherited s hs with ⟨p,hp,hrep,hentry⟩ | ⟨hnone,hentry⟩
    · exact .inl ⟨p,List.mem_append_left _ hp,hrep,hentry⟩
    refine .inr ⟨fun p hp => ?_,hentry⟩
    rcases List.mem_append.mp hp with hp | hp
    · exact hnone p hp
    rw [List.mem_singleton.mp hp]
    exact fun hrep => hmem ((hhits s).mpr hrep)
  · rw [length_setSlots] at hs'
    rw [getElem?_setSlots,if_neg]
    · obtain ⟨p,hp,hv,hentry⟩ := h.own s hs hs'
      exact ⟨p,List.mem_append_left _ hp,hv,hentry⟩
    rintro ⟨hmem,-⟩
    have := hlt s hmem
    omega
  · rcases List.mem_append.mp hp with hp | hp
    · obtain ⟨s,hs⟩ := h.housed p hp hv
      refine ⟨s,?_⟩
      rw [getElem?_setSlots,if_neg]
      · exact hs
      rintro ⟨hmem,-⟩
      have hslot : HasSlot parent p.1.signature s :=
        h.hasSlot (hlt s hmem) ⟨_,hs,rfl⟩
      obtain ⟨-,⟨e,he,hkey⟩,-⟩ := (hhits s).mp hmem
      obtain ⟨e',he',hkey'⟩ := hslot
      obtain rfl := Option.some.inj (Option.some.inj (he.symm.trans he'))
      exact hnew p hp (hkey'.symm.trans hkey)
    rw [List.mem_singleton.mp hp]
    obtain ⟨s,hs⟩ := List.exists_mem_of_ne_nil hits hne
    refine ⟨s,?_⟩
    have hslot := hlt s hs
    rw [getElem?_setSlots,if_pos ⟨hs,by omega⟩]
  · rcases h.first key f hf with hf | ⟨p,hp,hkey⟩
    · exact .inl hf
    · exact .inr ⟨p,List.mem_append_left _ hp,hkey⟩
  · dsimp only [recordOverrides]
    cases superclassId with
    | none =>
      have hempty := h.overrides x
      simp only [reduceCtorEq,false_and,iff_false] at hempty ⊢
      exact hempty
    | some sid => ?_
    rw [List.mem_append,h.overrides x,List.mem_map]
    constructor
    · rintro (⟨hsid,p,hp,hrep⟩ | ⟨s,hs,rfl⟩)
      · exact ⟨hsid,p,List.mem_append_left _ hp,hrep⟩
      · exact ⟨rfl,(m,index),by simp,(hhits s).mp hs⟩
    rintro ⟨hsid,p,hp,hrep⟩
    rcases List.mem_append.mp hp with hp | hp
    · exact .inl ⟨hsid,p,hp,hrep⟩
    rw [List.mem_singleton.mp hp] at hrep
    exact .inr ⟨x.2,(hhits x.2).mpr hrep,by rw [Option.some.inj hsid]⟩
  dsimp only [recordOverrides]
  cases superclassId with
  | none => exact h.nodup
  | some sid => ?_
  rw [List.nodup_append]
  refine ⟨h.nodup,?_,fun a ha x hx => ?_⟩
  · exact List.Pairwise.map _ (fun a c hac heq => hac (Prod.mk.inj heq).2) hnodup
  rintro rfl
  obtain ⟨s,hs,rfl⟩ := List.mem_map.mp hx
  obtain ⟨-,p,hp,hrep⟩ := (h.overrides _).mp ha
  exact hapart p hp s hrep hs

theorem Placed.skip
    (hvirtual : m.isVirtual = false) :
    Placed store vtables classId superclassId parent (done++[(m,index)]) b := by
  have hmem : ∀ p ∈ done++[(m,index)], p ∈ done ∨ p.1.isVirtual = false := by
    intro p hp
    rcases List.mem_append.mp hp with hp | hp
    · exact .inl hp
    rw [List.mem_singleton.mp hp]
    exact .inr hvirtual
  have hrep : ∀ p ∈ done++[(m,index)], ∀ s,
      Replaces store vtables classId superclassId parent p.1 s → p ∈ done := by
    intro p hp s hs
    rcases hmem p hp with hp | hv
    · exact hp
    rw [hs.1] at hv
    cases hv
  refine ⟨h.length,fun s hs => ?_,fun s hs hlt => ?_,fun p hp hv => ?_,fun key f hf => ?_,h.absent,
    fun x => ?_,h.nodup⟩
  · rcases h.inherited s hs with ⟨p,hp,hp',hentry⟩ | ⟨hnone,hentry⟩
    · exact .inl ⟨p,List.mem_append_left _ hp,hp',hentry⟩
    · exact .inr ⟨fun p hp hs => hnone p (hrep p hp s hs) hs,hentry⟩
  · obtain ⟨p,hp,hv,hentry⟩ := h.own s hs hlt
    exact ⟨p,List.mem_append_left _ hp,hv,hentry⟩
  · rcases hmem p hp with hp | hv'
    · exact h.housed p hp hv
    rw [hv] at hv'
    cases hv'
  · rcases h.first key f hf with hf | ⟨p,hp,hkey⟩
    · exact .inl hf
    · exact .inr ⟨p,List.mem_append_left _ hp,hkey⟩
  rw [h.overrides x]
  refine and_congr_right fun _ => ⟨?_,?_⟩
  · rintro ⟨p,hp,hs⟩
    exact ⟨p,List.mem_append_left _ hp,hs⟩
  rintro ⟨p,hp,hs⟩
  exact ⟨p,hrep p hp _ hs,hs⟩

theorem Placed.step
    {nameToSlot : Signature → Option Nat} (hidx : SlotIndex parent nameToSlot repeated)
    (hnew : ∀ p ∈ done, p.1.signature ≠ m.signature) :
    Placed store vtables classId superclassId parent (done++[(m,index)])
      (placeMethod store vtables classId superclassId repeated b m index) := by
  unfold placeMethod
  cases hvirtual : m.isVirtual with
  | false => exact h.skip hvirtual
  | true => ?_
  rw [if_pos rfl]
  cases hf : b.nameToSlot m.signature with
  | none =>
    refine h.append hvirtual ?_ ?_ ?_
    · exact fun s hs => h.absent _ hf s hs.2.1
    · intro key f hkey
      split at hkey
      · rename_i heq
        exact .inr heq
      · exact .inl hkey
    intro key hkey
    split at hkey
    · cases hkey
    · exact hkey
  | some f => ?_
  have hfirst := (h.first _ _ hf).resolve_right fun ⟨p,hp,hsig⟩ => hnew p hp hsig
  have hcand := h.mem_candidates hidx hnew hf
  have hnodup := candidates_nodup hidx hfirst
    (fun s => (b.entries[s]?.join).any fun e => e.signature = m.signature)
  dsimp only
  generalize (f::repeated.filter fun s =>
    (b.entries[s]?.join).any fun e => e.signature = m.signature) = candidates at hcand hnodup
  have hhits : ∀ s, s ∈ candidates.filter (isTrueOverride store vtables classId superclassId m) ↔
      Replaces store vtables classId superclassId parent m s := by
    intro s
    rw [List.mem_filter,hcand,Replaces]
    exact ⟨fun hs => ⟨hvirtual,hs⟩,fun hs => hs.2⟩
  have hhitsnodup := hnodup.filter (isTrueOverride store vtables classId superclassId m)
  generalize candidates.filter (isTrueOverride store vtables classId superclassId m) = hits
    at hhits hhitsnodup
  split
  · rename_i hnil
    subst hnil
    have hsame : recordOverrides superclassId b.overrides [] = b.overrides := by
      cases superclassId <;> simp [recordOverrides]
    rw [hsame]
    refine h.append hvirtual (fun s hs => ?_) (fun key f hf => .inl hf) fun key hn => hn
    simpa using (hhits s).mpr hs
  rename_i hne
  exact h.replace hnew hhits hhitsnodup hne

end

theorem placeMethods_placed {nameToSlot : Signature → Option Nat}
    (hidx : SlotIndex parent nameToSlot repeated) {methods : List ClassFileMethod}
    (h : Placed store vtables classId superclassId parent done b)
    (hapart : ∀ p ∈ done, ∀ m ∈ methods, p.1.signature ≠ m.signature)
    (hdup : (methods.map ClassFileMethod.signature).Nodup) :
    Placed store vtables classId superclassId parent (done++methods.zipIdx index)
      (placeMethods store vtables classId superclassId repeated index methods b) := by
  induction methods generalizing index done b with
  | nil =>
    rw [List.zipIdx_nil,List.append_nil]
    exact h
  | cons m methods ih => ?_
  rw [List.map_cons,List.nodup_cons] at hdup
  have hstep := @Placed.step store vtables classId superclassId parent repeated done b m index h
    nameToSlot hidx (fun p hp => hapart p hp m (by simp))
  have hrun := @ih (done++[(m,index)]) _ (index+1) hstep ?_ hdup.2
  · simpa [placeMethods] using hrun
  intro p hp k hk
  rcases List.mem_append.mp hp with hp | hp
  · exact hapart p hp k (by simp [hk])
  rw [List.mem_singleton.mp hp]
  intro heq
  exact hdup.1 (List.mem_map.mpr ⟨k,hk,heq.symm⟩)

theorem buildVtable_placed {c : Class} (hc : store.get classId = some c)
    (hdup : (c.methods.map ClassFileMethod.signature).Nodup) :
    ∃ b, Placed store vtables classId superclassId (parentSlice vtables superclassId) c.methods.zipIdx b ∧
      (buildVtable store vtables classId superclassId).entries = b.entries ∧
      (buildVtable store vtables classId superclassId).overrides = b.overrides := by
  have hidx := indexSlots_parent (parentSlice vtables superclassId)
  have hstart : Placed store vtables classId superclassId (parentSlice vtables superclassId) []
      { entries := parentSlice vtables superclassId
        nameToSlot := (indexSlots 0 (parentSlice vtables superclassId) (fun _ => none) []).1 } := by
    refine ⟨Nat.le_refl _,fun s _ => .inr ⟨by simp,rfl⟩,fun s h1 h2 => ?_,by simp,
      fun key f hf => .inl (hidx.first key f hf),hidx.absent,by simp,by simp⟩
    dsimp only at h2
    omega
  have hrun := @placeMethods_placed store vtables classId superclassId _ _ [] _ 0 _ hidx c.methods
    hstart (by simp) hdup
  refine ⟨_,hrun,?_⟩
  unfold buildVtable
  simp only [hc]
  split
  · rename_i hzero
    -- without a method that takes a slot the parent's are handed on
    have hnone : ∀ m ∈ c.methods, m.isVirtual = false := by
      simpa using hzero
    have hskip : ∀ (methods : List ClassFileMethod) (index : Nat) (b : VtableBuild),
        (∀ m ∈ methods, m.isVirtual = false) →
        placeMethods store vtables classId superclassId
          (indexSlots 0 (parentSlice vtables superclassId) (fun _ => none) []).2 index methods b = b := by
      intro methods
      induction methods with
      | nil => intros; rfl
      | cons m methods ih =>
        intro index b hall
        rw [placeMethods,ih _ _ fun k hk => hall k (by simp [hk]),placeMethod,
          if_neg (by simp [hall m (by simp)])]
    rw [hskip c.methods 0 _ hnone]
    exact ⟨rfl,rfl⟩
  · exact ⟨rfl,rfl⟩

end
end CratonVM.ClassLoading
