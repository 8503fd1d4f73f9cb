import Mathlib

/-!
Variables kept in homes that several of them may share. A run reads back what was written last as
long as no write touches the home of another variable that is still wanted.
-/
namespace CratonVM.Homes
open Option Function
variable {P X H V : Type}

/-- What each point of a program reads and writes, and where control goes from it: after its effect,
or before it. -/
structure Program (P X : Type) where
  reads : P → X → Prop
  writes : P → Option X
  next : P → P → Prop
  leaves : P → P → Prop

/-- The homes, and for each variable what was last written to it. -/
structure State (P X H V : Type) where
  point : P
  store : H → V
  last : X → Option V

section
variable [DecidableEq X] [DecidableEq H] (home : X → H)

def State.write (s : State P X H V) (x : X) (v : V) : State P X H V :=
  { s with store := Function.update s.store (home x) v, last := Function.update s.last x (some v) }

def State.writeAll (s : State P X H V) : List (X × V) → State P X H V
  | [] => s
  | (x,v) :: rest => State.writeAll (s.write home x v) rest

inductive Step (prog : Program P X) : State P X H V → State P X H V → Prop where
  | pass {s : State P X H V} {q : P} (hw : prog.writes s.point = none) (hn : prog.next s.point q) :
    Step prog s { s with point := q }
  | write {s : State P X H V} {x : X} {q : P} (v : V) (hw : prog.writes s.point = some x)
    (hn : prog.next s.point q) : Step prog s { s.write home x v with point := q }
  | leave {s : State P X H V} {q : P} (hl : prog.leaves s.point q) :
    Step prog s { s with point := q }

def Runs (prog : Program P X) : State P X H V → State P X H V → Prop :=
  Relation.ReflTransGen (Step home prog)

end

/-- The variables wanted at each point are found in their homes: a point wants what it reads and what
the points after it want and it does not write, and no write hits the home of a wanted variable. -/
structure Kept (prog : Program P X) (home : X → H) (ok : P → Prop) (live : P → X → Prop) : Prop where
  next_ok : ∀ {p q}, ok p → prog.next p q → ok q
  leave_ok : ∀ {p q}, ok p → prog.leaves p q → ok q
  read : ∀ {p x}, ok p → prog.reads p x → live p x
  next : ∀ {p q y}, ok p → prog.next p q → live q y → live p y ∨ prog.writes p = some y
  leave : ∀ {p q y}, ok p → prog.leaves p q → live q y → live p y
  apart : ∀ {p q x y}, ok p → prog.next p q → prog.writes p = some x → live q y → y ≠ x →
    home y ≠ home x

/-- The homes of the wanted variables hold what was last written. -/
def Agrees (home : X → H) (live : P → X → Prop) (s : State P X H V) : Prop :=
  ∀ y, live s.point y → ∀ v, s.last y = some v → s.store (home y) = v

variable [DecidableEq X] [DecidableEq H] {prog : Program P X} {home : X → H} {ok : P → Prop}
  {live : P → X → Prop}

variable {s t : State P X H V}

theorem Agrees.step (hk : Kept prog home ok live) (hs : Agrees home live s)
    (hok : ok s.point) (h : Step home prog s t) : Agrees home live t ∧ ok t.point := by
  cases h with
  | pass hw hn =>
    refine ⟨fun y hy v hv => ?_,hk.next_ok hok hn⟩
    rcases hk.next hok hn hy with hlive | hwrite
    · exact hs y hlive v hv
    rw [hw] at hwrite
    cases hwrite
  | @write x q w hw hn => ?_
  | leave hl => exact ⟨fun y hy v hv => hs y (hk.leave hok hl hy) v hv,hk.leave_ok hok hl⟩
  refine ⟨fun y hy v hv => ?_,hk.next_ok hok hn⟩
  simp only [State.write] at hy hv ⊢
  by_cases hyx : y = x
  · subst hyx
    rw [update_self] at hv ⊢
    exact some.inj hv
  rw [update_of_ne hyx] at hv
  rw [update_of_ne (hk.apart hok hn hw hy hyx)]
  rcases hk.next hok hn hy with hlive | hwrite
  · exact hs y hlive v hv
  rw [hw] at hwrite
  exact absurd (some.inj hwrite).symm hyx

theorem Agrees.run (hk : Kept prog home ok live) (hs : Agrees home live s)
    (hok : ok s.point) (h : Runs home prog s t) : Agrees home live t ∧ ok t.point := by
  induction h with
  | refl => exact ⟨hs,hok⟩
  | tail _ hstep ih => exact ih.1.step hk ih.2 hstep

@[simp] theorem point_writeAll (args : List (X × V)) (s : State P X H V) :
    (s.writeAll home args).point = s.point := by
  induction args generalizing s with
  | nil => rfl
  | cons a args ih => exact ih (s.write home a.1 a.2)

theorem writeAll_agrees {args : List (X × V)}
    (hs : ∀ y v, s.last y = some v → s.store (home y) = v)
    (hown : ∀ y v, s.last y = some v → ∀ a ∈ args, y ≠ a.1 → home y ≠ home a.1)
    (hapart : ∀ a ∈ args, ∀ b ∈ args, a.1 ≠ b.1 → home a.1 ≠ home b.1) :
    ∀ y v, (s.writeAll home args).last y = some v → (s.writeAll home args).store (home y) = v := by
  induction args generalizing s with
  | nil => exact hs
  | cons a args ih => ?_
  refine ih (s := s.write home a.1 a.2) (fun y v hv => ?_) (fun y v hv b hb hne => ?_)
    (fun b hb c hc => hapart b (by simp [hb]) c (by simp [hc]))
  · simp only [State.write] at hv ⊢
    by_cases hya : y = a.1
    · subst hya
      rw [update_self] at hv ⊢
      exact some.inj hv
    rw [update_of_ne hya] at hv
    rw [update_of_ne (hown y v hv a (by simp) hya)]
    exact hs y v hv
  simp only [State.write] at hv
  by_cases hya : y = a.1
  · subst hya
    exact hapart a (by simp) b (by simp [hb]) hne
  rw [update_of_ne hya] at hv
  exact hown y v hv b (by simp [hb]) hne

theorem read_eq_last (hk : Kept prog home ok live) {args : List (X × V)}
    (hapart : ∀ a ∈ args, ∀ b ∈ args, a.1 ≠ b.1 → home a.1 ≠ home b.1) {entry : P} (hok : ok entry)
    {store : H → V}
    (h : Runs home prog (State.writeAll home ⟨entry,store,fun _ => none⟩ args) t) {x : X}
    (hread : prog.reads t.point x) {v : V} (hv : t.last x = some v) : t.store (home x) = v := by
  have hinit := writeAll_agrees (s := ⟨entry,store,fun _ => none⟩)
    (fun _ _ h => by cases h) (fun _ _ h => by cases h) hapart
  obtain ⟨hagrees,hpoint⟩ := Agrees.run hk (fun y _ v hv => hinit y v hv) (by simpa using hok) h
  exact hagrees x (hk.read hpoint hread) v hv

end CratonVM.Homes
