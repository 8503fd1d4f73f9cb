import Mathlib

/-!
Heaps of named objects and global cells, and when two operations on such a heap commute. The name of
a fresh object is free, so what two orders leave is compared up to a renaming of fresh names.
-/
namespace CratonVM.ObjectHeap
open Function
variable {W H S T : Type}

/-- A word or the name of an object. -/
inductive Val (W : Type) where
  | word (w : W)
  | ref (o : Nat)
  deriving DecidableEq, Repr

inductive Cell (S T : Type) where
  | slot (o : Nat) (s : S)
  | global (t : T)
  deriving DecidableEq, Repr

/-- The allocated objects are those with a header. Every reference is to one of them, and the slots
of a name not given out yet are blank. -/
@[ext]
structure Heap (W H S T : Type) [Inhabited W] where
  header : Nat → Option H
  cell : Cell S T → Val W
  closed : ∀ {c o}, cell c = .ref o → (header o).isSome
  blank : ∀ {o}, header o = none → ∀ s, cell (.slot o s) = .word default

namespace Heap
variable [Inhabited W]

/-- A word, or a reference to an allocated object. -/
def Knows (h : Heap W H S T) (v : Val W) : Prop := ∀ o, v = .ref o → (h.header o).isSome

/-- A global cell, or a slot of an allocated object. -/
def Has (h : Heap W H S T) (c : Cell S T) : Prop := ∀ o s, c = .slot o s → (h.header o).isSome

/-- No object goes away and none changes its header. -/
def Extends (h h' : Heap W H S T) : Prop := ∀ o hdr, h.header o = some hdr → h'.header o = some hdr

theorem Extends.refl (h : Heap W H S T) : Extends h h := fun _ _ e => e

theorem Extends.knows {h h' : Heap W H S T} (he : Extends h h') {v : Val W} (hv : h.Knows v) :
    h'.Knows v := by
  intro o ho
  obtain ⟨hdr,hhdr⟩ := Option.isSome_iff_exists.mp (hv o ho)
  simp [he o hdr hhdr]

theorem knows_cell (h : Heap W H S T) (c : Cell S T) : h.Knows (h.cell c) := fun _ ho => h.closed ho

/-- The slots of a fresh object are blank already. -/
def alloc (h : Heap W H S T) (o : Nat) (hdr : H) : Heap W H S T where
  header := Function.update h.header o (some hdr)
  cell := h.cell
  closed := by
    intro c o' ho
    have hsome := h.closed ho
    by_cases hoo : o' = o
    · simp [hoo]
    rw [Function.update_of_ne hoo]
    exact hsome
  blank := by
    intro o' ho s
    by_cases hoo : o' = o
    · simp [hoo] at ho
    rw [Function.update_of_ne hoo] at ho
    exact h.blank ho s

theorem extends_alloc {h : Heap W H S T} {o : Nat} (ho : h.header o = none) (hdr : H) :
    Extends h (h.alloc o hdr) := by
  intro o' hdr' ho'
  have hne : o' ≠ o := by
    rintro rfl
    simp [ho] at ho'
  simpa [alloc,hne] using ho'

variable [DecidableEq S] [DecidableEq T]

def write (h : Heap W H S T) (c : Cell S T) (v : Val W) (hc : h.Has c) (hv : h.Knows v) :
    Heap W H S T where
  header := h.header
  cell := Function.update h.cell c v
  closed := by
    intro c' o ho
    by_cases hcc : c' = c
    · rw [hcc,Function.update_self] at ho
      exact hv o ho
    rw [Function.update_of_ne hcc] at ho
    exact h.closed ho
  blank := by
    intro o ho s
    rw [Function.update_of_ne]
    · exact h.blank ho s
    rintro rfl
    have hsome := hc o s rfl
    simp [ho] at hsome

end Heap

def Val.rename (π : Equiv.Perm Nat) : Val W → Val W
  | .word w => .word w
  | .ref o => .ref (π o)

def Cell.rename (π : Equiv.Perm Nat) : Cell S T → Cell S T
  | .slot o s => .slot (π o) s
  | .global t => .global t

@[simp] theorem Val.rename_refl (v : Val W) : v.rename (Equiv.refl Nat) = v := by
  cases v <;> rfl

@[simp] theorem Cell.rename_refl (c : Cell S T) : c.rename (Equiv.refl Nat) = c := by
  cases c <;> rfl

namespace Heap
variable [Inhabited W]

def rename (h : Heap W H S T) (π : Equiv.Perm Nat) : Heap W H S T where
  header o := h.header (π.symm o)
  cell c := (h.cell (c.rename π.symm)).rename π
  closed := by
    intro c o ho
    cases hv : h.cell (c.rename π.symm) with
    | word w => simp [hv,Val.rename] at ho
    | ref o' =>
      simp only [hv,Val.rename,Val.ref.injEq] at ho
      rw [← ho,Equiv.symm_apply_apply]
      exact h.closed hv
  blank := by
    intro o ho s
    simp [Cell.rename,h.blank ho,Val.rename]

@[simp] theorem rename_refl (h : Heap W H S T) : h.rename (Equiv.refl Nat) = h := by
  ext1
  · rfl
  · simp [rename]

variable {h : Heap W H S T}

theorem rename_of_knows {π : Equiv.Perm Nat}
    (hπ : ∀ o, (h.header o).isSome → π o = o) {v : Val W} (hv : h.Knows v) : v.rename π = v := by
  cases v with
  | word w => rfl
  | ref o => rw [Val.rename,hπ o (hv o rfl)]

theorem swap_fixes {o o' : Nat} (ho : h.header o = none) (ho' : h.header o' = none) :
    ∀ p, (h.header p).isSome → Equiv.swap o o' p = p := by
  intro p hp
  refine Equiv.swap_apply_of_ne_of_ne ?_ ?_
  · rintro rfl
    simp [ho] at hp
  rintro rfl
  simp [ho'] at hp

theorem rename_alloc {o o' : Nat} (ho : h.header o = none) (ho' : h.header o' = none)
    (hdr : H) : (h.alloc o hdr).rename (Equiv.swap o o') = h.alloc o' hdr := by
  have hfix := swap_fixes ho ho'
  ext1
  · funext p
    simp only [rename,alloc,Equiv.symm_swap]
    by_cases hp' : p = o'
    · simp [hp']
    by_cases hp : p = o
    · subst hp
      have hne : o' ≠ p := fun e => hp' e.symm
      simp [update_of_ne hne,update_of_ne hp',ho,ho']
    rw [Equiv.swap_apply_of_ne_of_ne hp hp']
    simp [update_of_ne hp,update_of_ne hp']
  funext c
  have hcell : h.cell (c.rename (Equiv.swap o o')) = h.cell c := by
    cases c with
    | global t => rfl
    | slot p s => ?_
    by_cases hsome : (h.header p).isSome
    · rw [Cell.rename,hfix p hsome]
    have hnone : h.header p = none := by simpa using hsome
    have hswap : h.header (Equiv.swap o o' p) = none := by
      by_cases hp : p = o
      · simp [hp,ho']
      by_cases hp' : p = o'
      · simp [hp',ho]
      · rw [Equiv.swap_apply_of_ne_of_ne hp hp',hnone]
    rw [Cell.rename,h.blank hnone,h.blank hswap]
  simp only [rename,alloc,Equiv.symm_swap]
  rw [hcell]
  exact rename_of_knows hfix (h.knows_cell c)

end Heap

/-- One operation on a heap: no access at all, a read, a write, an allocation. -/
inductive Act (W H S T : Type) where
  | yield (w : W)
  | read (c : Cell S T)
  | write (c : Cell S T) (v : Val W)
  | alloc (hdr : H)
  deriving DecidableEq, Repr

namespace Act
variable [Inhabited W]

/-- Neither writes what the other accesses, and an allocation stands only beside a read. -/
def Apart : Act W H S T → Act W H S T → Prop
  | .read c,.write c' _ => c ≠ c'
  | .write c _,.read c' => c ≠ c'
  | .write c _,.write c' _ => c ≠ c'
  | .write _ _,.alloc _ => False
  | .alloc _,.write _ _ => False
  | .alloc _,.alloc _ => False
  | _,_ => True

/-- The two orders answer alike and leave the same heap, up to the names of objects that were not
there before. -/
def Alike (h : Heap W H S T) (v w : Val W) (k : Heap W H S T) (v' w' : Val W) (k' : Heap W H S T) :
    Prop :=
  ∃ π : Equiv.Perm Nat, (∀ o, (h.header o).isSome → π o = o) ∧ v' = v.rename π ∧ w' = w.rename π ∧
    k' = k.rename π

variable {h : Heap W H S T} {v w v' w' : Val W}

theorem Alike.of_eq {k k' : Heap W H S T} (hv : v' = v)
    (hw : w' = w) (hk : k' = k) : Alike h v w k v' w' k' :=
  ⟨Equiv.refl Nat,fun _ _ => rfl,by simp [hv],by simp [hw],by simp [hk]⟩

theorem Alike.of_alloc {o o' : Nat} (ho : h.header o = none)
    (ho' : h.header o' = none) (hdr : H) (hv : h.Knows v) :
    Alike h (.ref o) v (h.alloc o hdr) (.ref o') v (h.alloc o' hdr) := by
  have hfix := Heap.swap_fixes ho ho'
  refine ⟨Equiv.swap o o',hfix,?_,(Heap.rename_of_knows hfix hv).symm,(Heap.rename_alloc ho ho' hdr).symm⟩
  simp [Val.rename]

theorem Alike.comm {k k' : Heap W H S T}
    (ha : Alike h v w k v' w' k') : Alike h w v k w' v' k' := by
  obtain ⟨π,hfix,hv,hw,hk⟩ := ha
  exact ⟨π,hfix,hw,hv,hk⟩

variable [DecidableEq S] [DecidableEq T]

/-- What an operation answers and leaves. A write answers nothing; an allocation may take any name
that is free. -/
inductive Runs : Act W H S T → Heap W H S T → Val W → Heap W H S T → Prop where
  | yield {w : W} {h : Heap W H S T} : Runs (.yield w) h (.word w) h
  | read {c : Cell S T} {h : Heap W H S T} (hc : h.Has c) : Runs (.read c) h (h.cell c) h
  | write {c : Cell S T} {v : Val W} {h : Heap W H S T} (hc : h.Has c) (hv : h.Knows v) :
    Runs (.write c v) h (.word default) (h.write c v hc hv)
  | alloc {hdr : H} {o : Nat} {h : Heap W H S T} (ho : h.header o = none) :
    Runs (.alloc hdr) h (.ref o) (h.alloc o hdr)

variable {a : Act W H S T}

theorem Runs.extends {h' : Heap W H S T} (hr : a.Runs h v h') :
    h.Extends h' := by
  cases hr with
  | yield => exact .refl h
  | read hc => exact .refl h
  | write hc hv => exact fun _ _ e => e
  | alloc ho => exact Heap.extends_alloc ho _

theorem Runs.knows {h' : Heap W H S T} (hr : a.Runs h v h') :
    h'.Knows v := by
  cases hr with
  | yield =>
    intro o ho
    cases ho
  | read hc => exact h.knows_cell _
  | write hc hv =>
    intro o ho
    cases ho
  | @alloc hdr o _ ho =>
    rintro o' ⟨⟩
    simp [Heap.alloc]

theorem swap {b : Act W H S T} (hab : Apart a b) {h₁ h₂ k₁ k₂ : Heap W H S T}
    (ha : a.Runs h v h₁) (hb : b.Runs h₁ w h₂) (hb' : b.Runs h w' k₁) (ha' : a.Runs k₁ v' k₂) :
    Alike h v w h₂ v' w' k₂ := by
  cases ha with
  | yield =>
    cases ha'
    cases hb with
    | yield =>
      cases hb'
      exact .of_eq rfl rfl rfl
    | read hc =>
      cases hb'
      exact .of_eq rfl rfl rfl
    | write hc hv =>
      cases hb'
      exact .of_eq rfl rfl rfl
    | alloc ho =>
      cases hb' with
      | alloc ho' => exact (Alike.of_alloc ho ho' _ (fun _ e => by cases e)).comm
  | read hc => ?_
  | @write c u _ hc hv =>
    cases hb with
    | yield =>
      cases hb'
      cases ha'
      exact .of_eq rfl rfl rfl
    | read hc' =>
      cases hb'
      cases ha'
      exact .of_eq rfl (update_of_ne (Ne.symm hab) _ _).symm rfl
    | write hc' hv' => ?_
    | alloc ho => exact hab.elim
    cases hb'
    cases ha'
    refine .of_eq rfl rfl ?_
    ext1
    · rfl
    · exact (update_comm hab _ _ _).symm
  | alloc ho =>
    cases hb with
    | yield =>
      cases hb'
      cases ha' with
      | alloc ho' => exact Alike.of_alloc ho ho' _ (fun _ e => by cases e)
    | read hc =>
      cases hb'
      cases ha' with
      | alloc ho' => exact Alike.of_alloc ho ho' _ (h.knows_cell _)
    | write hc hv => exact hab.elim
    | alloc ho' => exact hab.elim
  cases hb with
  | yield =>
    cases hb'
    cases ha'
    exact .of_eq rfl rfl rfl
  | read hc' =>
    cases hb'
    cases ha'
    exact .of_eq rfl rfl rfl
  | write hc' hv =>
    cases hb'
    cases ha' with
    | read hc'' => exact .of_eq (update_of_ne hab _ _) rfl rfl
  | alloc ho =>
    cases hb' with
    | alloc ho' =>
      cases ha' with
      | read hc' => exact (Alike.of_alloc ho ho' _ (h.knows_cell _)).comm

end Act
end CratonVM.ObjectHeap
