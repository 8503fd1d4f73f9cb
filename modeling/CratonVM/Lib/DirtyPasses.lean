import Mathlib

/-!
Passes over a list of items until one changes nothing. A driver that visits only dirty items goes through the
same states, pass for pass, if a visit to a clean item would change nothing.
-/
namespace CratonVM.DirtyPasses
open List
variable {κ σ δ : Type}

/-- What a visit does to the state, whether it counts as a change, and how the dirty set moves on. -/
structure Driver (κ σ δ : Type) where
  visit : κ → σ → σ
  changed : κ → σ → Bool
  dirty : δ → κ → Bool
  turn : κ → σ → δ → δ

structure Progress (σ : Type) where
  state : σ
  changed : Bool
  visits : Nat

namespace Driver
variable (D : Driver κ σ δ)

def step (p : Progress σ) (k : κ) : Progress σ :=
  ⟨D.visit k p.state,p.changed || D.changed k p.state,p.visits+1⟩

def wholePass (ks : List κ) (p : Progress σ) : Progress σ := ks.foldl D.step p

def dirtyStep (p : Progress σ × δ) (k : κ) : Progress σ × δ :=
  if D.dirty p.2 k then (D.step p.1 k,D.turn k p.1.state p.2) else p

def dirtyPass (ks : List κ) (p : Progress σ × δ) : Progress σ × δ := ks.foldl D.dirtyStep p

/-- Passes until one changes nothing, at most `n`: the state, whether there was such a one, the visits. -/
def wholePasses (ks : List κ) : Nat → σ → Nat → σ × Bool × Nat
  | 0,s,visits => (s,false,visits)
  | n+1,s,visits =>
    let p := D.wholePass ks ⟨s,false,visits⟩
    if !p.changed then (p.state,true,p.visits) else wholePasses ks n p.state p.visits

def dirtyPasses (ks : List κ) : Nat → σ → δ → Nat → σ × Bool × Nat
  | 0,s,_,visits => (s,false,visits)
  | n+1,s,d,visits =>
    let p := D.dirtyPass ks (⟨s,false,visits⟩,d)
    if !p.1.changed then (p.1.state,true,p.1.visits) else dirtyPasses ks n p.1.state p.2 p.1.visits

/-- While `cover` holds, clean items need no visit, and visits to dirty ones keep it. -/
structure Covers (ks : List κ) (cover : σ → δ → Prop) : Prop where
  clean : ∀ s d, cover s d → ∀ k ∈ ks, D.dirty d k = false → D.visit k s = s ∧ D.changed k s = false
  turn : ∀ s d, cover s d → ∀ k ∈ ks, D.dirty d k = true → cover (D.visit k s) (D.turn k s d)

variable {D} {ks : List κ} {cover : σ → δ → Prop}

theorem Covers.dirtyPass_eq (h : D.Covers ks cover) {p : Progress σ × δ} {q : Progress σ} (hcover : cover p.1.state p.2)
    (hstate : p.1.state = q.state) (hchanged : p.1.changed = q.changed) (hvisits : p.1.visits ≤ q.visits) :
    (D.dirtyPass ks p).1.state = (D.wholePass ks q).state ∧ (D.dirtyPass ks p).1.changed = (D.wholePass ks q).changed ∧
    (D.dirtyPass ks p).1.visits ≤ (D.wholePass ks q).visits ∧ cover (D.dirtyPass ks p).1.state (D.dirtyPass ks p).2 := by
  induction ks generalizing p q with
  | nil => exact ⟨hstate,hchanged,hvisits,hcover⟩
  | cons k ks ih => ?_
  have hrest : D.Covers ks cover :=
    ⟨fun s d hc j hj => h.clean s d hc j (mem_cons_of_mem _ hj),
      fun s d hc j hj => h.turn s d hc j (mem_cons_of_mem _ hj)⟩
  rw [dirtyPass,wholePass,foldl_cons,foldl_cons]
  cases hd : D.dirty p.2 k with
  | true =>
    have hstep : D.dirtyStep p k = (D.step p.1 k,D.turn k p.1.state p.2) := by rw [dirtyStep,if_pos hd]
    rw [hstep]
    refine ih hrest (h.turn _ _ hcover k mem_cons_self hd) ?_ ?_ (Nat.succ_le_succ hvisits)
    · rw [step,step,hstate]
    · rw [step,step,hstate,hchanged]
  | false => ?_
  have hstep : D.dirtyStep p k = p := by rw [dirtyStep,if_neg (by rw [hd]; decide)]
  obtain ⟨hsame,hquiet⟩ := h.clean _ _ hcover k mem_cons_self hd
  rw [hstep]
  rw [hstate] at hsame hquiet
  refine ih hrest hcover ?_ ?_ (Nat.le_succ_of_le hvisits)
  · rw [step,hsame,hstate]
  · rw [step,hquiet,hchanged,Bool.or_false]

theorem Covers.dirtyPasses_eq (h : D.Covers ks cover) (n : Nat) {s : σ} {d : δ} {visits visits' : Nat} (hcover : cover s d)
    (hvisits : visits ≤ visits') :
    (D.dirtyPasses ks n s d visits).1 = (D.wholePasses ks n s visits').1 ∧
    (D.dirtyPasses ks n s d visits).2.1 = (D.wholePasses ks n s visits').2.1 ∧
    (D.dirtyPasses ks n s d visits).2.2 ≤ (D.wholePasses ks n s visits').2.2 := by
  induction n generalizing s d visits visits' with
  | zero => exact ⟨rfl,rfl,hvisits⟩
  | succ n ih => ?_
  obtain ⟨hs,hch,hv,hc⟩ := h.dirtyPass_eq (p := (⟨s,false,visits⟩,d)) (q := ⟨s,false,visits'⟩) hcover rfl rfl hvisits
  rw [dirtyPasses,wholePasses,hch]
  split
  · exact ⟨hs,rfl,hv⟩
  rw [← hs]
  exact ih hc hv

/-- Items read what others publish. A visit settles its item until something it reads is published anew, and the
items that read what a visit publishes become dirty. -/
structure Settles (D : Driver κ σ δ) (ks : List κ) (ok : σ → δ → Prop) (quiet : κ → σ → Prop) (published : κ → σ → Bool)
    (reads : κ → κ → Prop) : Prop where
  still : ∀ s d, ok s d → ∀ k ∈ ks, quiet k s → D.visit k s = s ∧ D.changed k s = false
  next : ∀ s d, ok s d → ∀ k ∈ ks, ok (D.visit k s) (D.turn k s d)
  self : ∀ s d, ok s d → ∀ k ∈ ks, (published k s = true → ¬reads k k) → quiet k (D.visit k s)
  other : ∀ s d, ok s d → ∀ k ∈ ks, ∀ j ∈ ks, j ≠ k → quiet j s → (published k s = true → ¬reads j k) →
    quiet j (D.visit k s)
  kept : ∀ s d, ok s d → ∀ k ∈ ks, ∀ j ∈ ks, j ≠ k → D.dirty d j = true → D.dirty (D.turn k s d) j = true
  marked : ∀ s d, ok s d → ∀ k ∈ ks, ∀ j ∈ ks, published k s = true → reads j k → D.dirty (D.turn k s d) j = true

theorem Settles.covers {ok : σ → δ → Prop} {quiet : κ → σ → Prop} {published : κ → σ → Bool} {reads : κ → κ → Prop}
    (h : Settles D ks ok quiet published reads) :
    D.Covers ks fun s d => ok s d ∧ ∀ k ∈ ks, D.dirty d k = true ∨ quiet k s := by
  refine ⟨fun s d hc k hk hclean => ?_,fun s d hc k hk _ => ⟨h.next s d hc.1 k hk,fun j hj => ?_⟩⟩
  · rcases hc.2 k hk with hd|hq
    · rw [hclean] at hd
      cases hd
    · exact h.still s d hc.1 k hk hq
  by_cases hm : published k s = true ∧ reads j k
  · exact .inl (h.marked s d hc.1 k hk j hj hm.1 hm.2)
  by_cases heq : j = k
  · subst heq
    exact .inr (h.self s d hc.1 j hj fun hp hr => hm ⟨hp,hr⟩)
  rcases hc.2 j hj with hd|hq
  · exact .inl (h.kept s d hc.1 k hk j hj heq hd)
  · exact .inr (h.other s d hc.1 k hk j hj heq hq fun hp hr => hm ⟨hp,hr⟩)

end Driver
end CratonVM.DirtyPasses
