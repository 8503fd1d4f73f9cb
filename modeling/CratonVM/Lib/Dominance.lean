import Mathlib

/-!
Paths and dominance in a rooted graph, and chains of ancestors in a forest that is given by a
partial parent function.
-/
namespace CratonVM.Dominance
open List Option Function
variable {α : Type*}

/-- The paths from `r`, the last node first. -/
inductive Path (E : α → α → Prop) (r : α) : List α → α → Prop where
  | root : Path E r [r] r
  | step {p : List α} {a b : α} : Path E r p a → E a b → Path E r (b :: p) b

section
variable {E : α → α → Prop} {r a b c d : α} {p q : List α}

def Reaches (E : α → α → Prop) (r b : α) : Prop := ∃ p, Path E r p b

/-- Every path from the root to `b` passes through `a`. -/
def Dom (E : α → α → Prop) (r a b : α) : Prop := ∀ p, Path E r p b → a ∈ p

theorem Path.last_mem (h : Path E r p b) : b ∈ p := by
  cases h <;> exact mem_cons_self

theorem Path.root_mem (h : Path E r p b) : r ∈ p := by
  induction h with
  | root => exact mem_cons_self
  | step _ _ ih => exact mem_cons_of_mem _ ih

theorem Reaches.root : Reaches E r r := ⟨[r],.root⟩

theorem Reaches.step (h : Reaches E r a) (he : E a b) : Reaches E r b :=
  let ⟨p,hp⟩ := h
  ⟨b :: p,hp.step he⟩

theorem Path.comp (h : Path E r p b) (h' : Path E b q c) :
    ∃ l, Path E r l c ∧ ∀ x ∈ l, x ∈ p ∨ x ∈ q := by
  induction h' with
  | root => exact ⟨p,h,fun x hx => .inl hx⟩
  | step _ he ih => ?_
  obtain ⟨l,hl,hmem⟩ := ih
  refine ⟨_,hl.step he,fun x hx => ?_⟩
  rcases mem_cons.mp hx with rfl|hx
  · exact .inr mem_cons_self
  · exact (hmem x hx).imp_right (mem_cons_of_mem _)

theorem Path.split (h : Path E r p c) (ha : a ∈ p) :
    ∃ p₁ p₂, Path E r p₁ a ∧ Path E a p₂ c ∧ (∀ x ∈ p₁, x ∈ p) ∧ ∀ x ∈ p₂, x ∈ p := by
  induction h with
  | root =>
    obtain rfl := mem_singleton.mp ha
    exact ⟨_,_,.root,.root,fun _ h => h,fun _ h => h⟩
  | step hp he ih => ?_
  rcases mem_cons.mp ha with rfl|ha
  · exact ⟨_,_,hp.step he,.root,fun _ h => h,fun x hx => by
      obtain rfl := mem_singleton.mp hx
      exact mem_cons_self⟩
  obtain ⟨p₁,p₂,h₁,h₂,hs₁,hs₂⟩ := ih ha
  refine ⟨p₁,_,h₁,h₂.step he,fun x hx => mem_cons_of_mem _ (hs₁ x hx),fun x hx => ?_⟩
  rcases mem_cons.mp hx with rfl|hx
  · exact mem_cons_self
  · exact mem_cons_of_mem _ (hs₂ x hx)

theorem Path.last_visit (S : α → Prop) (h : Path E r p c) (ha : a ∈ p) (hS : S a) :
    ∃ x q, S x ∧ Path E x q c ∧ (∀ y ∈ q, y ∈ p) ∧ ∀ y ∈ q, S y → y = x := by
  induction h with
  | root =>
    obtain rfl := mem_singleton.mp ha
    exact ⟨_,_,hS,.root,fun _ h => h,fun y hy _ => mem_singleton.mp hy⟩
  | @step p m b hp he ih => ?_
  by_cases hb : S b
  · refine ⟨b,[b],hb,.root,fun y hy => ?_,fun y hy _ => mem_singleton.mp hy⟩
    obtain rfl := mem_singleton.mp hy
    exact mem_cons_self
  rcases mem_cons.mp ha with rfl|ha
  · exact absurd hS hb
  obtain ⟨x,q,hx,hq,hsub,hlast⟩ := ih ha
  refine ⟨x,b :: q,hx,hq.step he,fun y hy => ?_,fun y hy hSy => ?_⟩
  · rcases mem_cons.mp hy with rfl|hy
    · exact mem_cons_self
    · exact mem_cons_of_mem _ (hsub y hy)
  rcases mem_cons.mp hy with rfl|hy
  · exact absurd hSy hb
  · exact hlast y hy hSy

theorem Path.shorter (h : Path E r p c) (ha : a ∈ p) (hne : a ≠ c) : ∃ q, Path E r q a ∧ q.length < p.length := by
  induction h with
  | root => exact absurd (mem_singleton.mp ha) hne
  | @step p m b hp he ih => ?_
  rcases mem_cons.mp ha with rfl|ha
  · exact absurd rfl hne
  by_cases ham : a = m
  · exact ⟨p,ham ▸ hp,Nat.lt_succ_self _⟩
  obtain ⟨q,hq,hlt⟩ := ih ha ham
  exact ⟨q,hq,Nat.lt_succ_of_lt hlt⟩

end

section
variable {E : α → α → Prop} {r a b c d : α}

theorem Dom.refl : Dom E r b b := fun _ hp => hp.last_mem

theorem Dom.root : Dom E r r b := fun _ hp => hp.root_mem

theorem Dom.trans (h : Dom E r a b) (h' : Dom E r b c) : Dom E r a c := by
  intro p hp
  obtain ⟨p₁,-,h₁,-,hsub,-⟩ := hp.split (h' p hp)
  exact hsub a (h p₁ h₁)

theorem Dom.of_edge (h : Dom E r d b) (hne : d ≠ b) (he : E a b) : Dom E r d a := by
  intro p hp
  exact (mem_cons.mp (h (b :: p) (hp.step he))).resolve_left hne

theorem Dom.reaches (h : Dom E r a b) (hb : Reaches E r b) : Reaches E r a := by
  obtain ⟨p,hp⟩ := hb
  obtain ⟨p₁,-,h₁,-⟩ := hp.split (h p hp)
  exact ⟨p₁,h₁⟩

theorem Dom.antisymm (hb : Reaches E r b) (hab : Dom E r a b) (hba : Dom E r b a) : a = b := by
  by_contra hne
  -- each path to one of the two has a shorter path to the other
  have hno : ∀ (n : Nat) (p : List α) (x : α), p.length ≤ n → Path E r p x → x = a ∨ x = b → False := by
    intro n
    induction n with
    | zero =>
      intro p x hlen hp _
      have := length_pos_of_mem hp.last_mem
      omega
    | succ n ih => ?_
    intro p x hlen hp hx
    rcases hx with rfl|rfl
    · obtain ⟨q,hq,hlt⟩ := hp.shorter (hba p hp) (Ne.symm hne)
      exact ih q b (by omega) hq (.inr rfl)
    obtain ⟨q,hq,hlt⟩ := hp.shorter (hab p hp) hne
    exact ih q a (by omega) hq (.inl rfl)
  obtain ⟨p,hp⟩ := hb
  exact hno p.length p b (Nat.le_refl _) hp (.inr rfl)

theorem Dom.linear (hc : Reaches E r c) (ha : Dom E r a c) (hb : Dom E r b c) : Dom E r a b ∨ Dom E r b a := by
  by_contra hnot
  obtain ⟨hab,hba⟩ := not_or.mp hnot
  have hne : a ≠ b := fun h => hab (h ▸ Dom.refl)
  obtain ⟨q,hq,haq⟩ : ∃ q, Path E r q b ∧ a ∉ q := by simpa [Dom] using hab
  obtain ⟨q',hq',hbq⟩ : ∃ q, Path E r q a ∧ b ∉ q := by simpa [Dom] using hba
  obtain ⟨p,hp⟩ := hc
  -- go round the one that the path visits first before its last visit to either
  obtain ⟨x,s,hx,hs,-,hlast⟩ := hp.last_visit (fun y => y = a ∨ y = b) (ha p hp) (.inl rfl)
  rcases hx with rfl|rfl
  · obtain ⟨l,hl,hmem⟩ := hq'.comp hs
    rcases hmem b (hb l hl) with h|h
    · exact hbq h
    · exact hne (hlast b h (.inr rfl)).symm
  obtain ⟨l,hl,hmem⟩ := hq.comp hs
  rcases hmem a (ha l hl) with h|h
  · exact haq h
  · exact hne (hlast a h (.inl rfl))

end

/-- The first node is on the chain of parents from the second. -/
inductive Anc (up : α → Option α) : α → α → Prop where
  | refl (b : α) : Anc up b b
  | step {a b c : α} : up b = some c → Anc up a c → Anc up a b

section
variable {up : α → Option α} {rank : α → Nat} {a b c d : α}

theorem Anc.trans (h : Anc up a b) (h' : Anc up b c) : Anc up a c := by
  induction h' with
  | refl => exact h
  | step hup _ ih => exact .step hup ih

/-- Ranks fall towards the root. -/
def Ranked (up : α → Option α) (rank : α → Nat) : Prop := ∀ b c, up b = some c → rank c < rank b

section
variable (hr : Ranked up rank) (h : Anc up a b)
include hr h

theorem Anc.rank_le : rank a ≤ rank b := by
  induction h with
  | refl => exact Nat.le_refl _
  | step hup _ ih => exact Nat.le_of_lt (Nat.lt_of_le_of_lt ih (hr _ _ hup))

theorem Anc.rank_lt (hne : a ≠ b) : rank a < rank b := by
  cases h with
  | refl => exact absurd rfl hne
  | step hup h => exact Nat.lt_of_le_of_lt (h.rank_le hr) (hr _ _ hup)

theorem Anc.antisymm (h' : Anc up b a) : a = b := by
  by_contra hne
  have h1 := h.rank_lt hr hne
  have h2 := h'.rank_le hr
  omega

end

theorem Anc.linear (h : Anc up a c) (h' : Anc up b c) : Anc up a b ∨ Anc up b a := by
  induction h with
  | refl => exact .inr h'
  | @step x y hup h ih => ?_
  cases h' with
  | refl => exact .inl (.step hup h)
  | step hup' h' =>
    obtain rfl := some.inj (hup.symm.trans hup')
    exact ih h'

theorem Anc.strict (h : Anc up a b) (hne : a ≠ b) : ∃ c, up b = some c ∧ Anc up a c := by
  cases h with
  | refl => exact absurd rfl hne
  | step hup h => exact ⟨_,hup,h⟩

theorem Anc.path {E : α → α → Prop} (hr : Ranked up rank) (hE : ∀ b c, up b = some c → E c b) (h : Anc up a b) :
    ∃ p, Path E a p b ∧ ∀ x ∈ p, rank a ≤ rank x := by
  induction h with
  | refl => exact ⟨[_],.root,fun x hx => by
      obtain rfl := mem_singleton.mp hx
      exact Nat.le_refl _⟩
  | @step b c hup h ih => ?_
  obtain ⟨p,hp,hrank⟩ := ih
  refine ⟨b :: p,hp.step (hE _ _ hup),fun x hx => ?_⟩
  rcases mem_cons.mp hx with rfl|hx
  · exact Nat.le_of_lt (Nat.lt_of_le_of_lt (h.rank_le hr) (hr _ _ hup))
  · exact hrank x hx

end

section
variable [DecidableEq α] {up : α → Option α} {rank : α → Nat} {b x : α}

theorem Anc.update_of_not {y w : α} (hy : ¬ Anc up b y) :
    Anc (update up b (some x)) w y ↔ Anc up w y := by
  constructor
  · intro h
    induction h with
    | refl => exact .refl _
    | @step y z hup h ih =>
      have hyb : y ≠ b := fun h => hy (h ▸ .refl y)
      rw [update_of_ne hyb] at hup
      exact .step hup (ih fun hz => hy (.step hup hz))
  intro h
  induction h with
  | refl => exact .refl _
  | @step y z hup h ih =>
    have hyb : y ≠ b := fun h => hy (h ▸ .refl y)
    exact .step (by rw [update_of_ne hyb]; exact hup) (ih fun hz => hy (.step hup hz))

theorem Anc.update_below (hr : Ranked up rank) {d c : α} (hd : Anc up b d) (h : Anc up d c) :
    Anc (update up b (some x)) d c := by
  induction h with
  | refl => exact .refl _
  | @step y z hup h ih => ?_
  have hyb : y ≠ b := by
    rintro rfl
    have h1 := (hd.trans h).rank_le hr
    have h2 := hr _ _ hup
    omega
  exact .step (by rw [update_of_ne hyb]; exact hup) ih

theorem Anc.of_update {x₀ : α} (hb : up b = some x₀) (hx : Anc up x x₀) {w y : α}
    (h : Anc (update up b (some x)) w y) : Anc up w y := by
  induction h with
  | refl => exact .refl _
  | @step y z hup h ih => ?_
  by_cases hyb : y = b
  · subst hyb
    rw [update_self] at hup
    obtain rfl := some.inj hup
    exact .step hb (ih.trans hx)
  rw [update_of_ne hyb] at hup
  exact .step hup ih

end

variable {E : α → α → Prop} {r : α} {rank : α → Nat} {par up : α → Option α}

/-- A spanning tree of the reachable nodes along edges, with ranks that fall towards the root. -/
structure Spanning (E : α → α → Prop) (r : α) (rank : α → Nat) (par : α → Option α) : Prop where
  edge : ∀ b a, par b = some a → E a b
  ranked : Ranked par rank
  parent : ∀ b, Reaches E r b → b ≠ r → ∃ a, par b = some a ∧ Reaches E r a
  rank_inj : ∀ a b, Reaches E r a → Reaches E r b → rank a = rank b → a = b

/-- The nodes that have a place in the tree. -/
def Known (r : α) (up : α → Option α) (b : α) : Prop := b = r ∨ ∃ x, up b = some x

/-- The state between two visits. -/
structure Approx (E : α → α → Prop) (r : α) (rank : α → Nat) (par up : α → Option α) : Prop where
  root : up r = none
  reach : ∀ b x, up b = some x → Reaches E r b
  known : ∀ b x, up b = some x → Known r up x
  within : ∀ b x, up b = some x → ∀ a, par b = some a → Anc par x a
  dominators : ∀ b, Known r up b → ∀ d, Dom E r d b → Anc up d b
  meets : ∀ b x, up b = some x → ∀ w, (∀ p, E p b → Known r up p → Anc up w p) → rank w ≤ rank x

/-- The chain of `z` runs through the chain of each node above it in the spanning tree. -/
def Nested (rank : α → Nat) (par up : α → Option α) (z : α) : Prop :=
  ∀ u, Anc par u z → ∀ w, Anc up w z → rank w ≤ rank u → Anc up w u

/-- The nearest common ancestor of the known predecessors. -/
def IsMeet (E : α → α → Prop) (r : α) (up : α → Option α) (b x : α) : Prop :=
  ∀ w, Anc up w x ↔ ∀ p, E p b → Known r up p → Anc up w p

section
variable (hS : Spanning E r rank par) (hT : Approx E r rank par up)

include hS hT

theorem Approx.ranked : Ranked up rank := by
  intro b x hx
  have hne : b ≠ r := by
    rintro rfl
    rw [hT.root] at hx
    cases hx
  obtain ⟨a,ha,-⟩ := hS.parent b (hT.reach b x hx) hne
  exact Nat.lt_of_le_of_lt ((hT.within b x hx a ha).rank_le hS.ranked) (hS.ranked _ _ ha)

theorem Approx.anc_par {a b : α} (h : Anc up a b) : Anc par a b := by
  induction h with
  | refl => exact .refl _
  | @step b c hup h ih => ?_
  have hne : b ≠ r := by
    rintro rfl
    rw [hT.root] at hup
    cases hup
  obtain ⟨q,hq,-⟩ := hS.parent b (hT.reach b c hup) hne
  exact .step hq (ih.trans (hT.within b c hup q hq))

theorem Approx.known_reaches {b : α} (hb : Known r up b) : Reaches E r b := by
  rcases hb with rfl|⟨x,hx⟩
  · exact .root
  · exact hT.reach b x hx

omit hS in
theorem Approx.known_anc {a b : α} (h : Anc up a b) (hb : Known r up b) : Known r up a := by
  induction h with
  | refl => exact hb
  | step hup _ ih => exact ih (hT.known _ _ hup)

/-- An ancestor of a node that dominates a node below it dominates the node itself: the spanning tree leads
down without passing it. -/
theorem Approx.dom_of_below {d b c : α} (hd : Anc up d b) (hne : d ≠ b) (hb : Anc up b c) (hdom : Dom E r d c) :
    Dom E r d b := by
  intro p hp
  obtain ⟨q,hq,hrank⟩ := (hT.anc_par hS hb).path hS.ranked hS.edge
  obtain ⟨l,hl,hmem⟩ := hp.comp hq
  rcases hmem d (hdom l hl) with h|h
  · exact h
  have h1 := hrank d h
  have h2 := hd.rank_lt (hT.ranked hS) hne
  omega

end

section
variable [DecidableEq α] {b x : α}
variable (hS : Spanning E r rank par) (hT : Approx E r rank par up) (hb : Reaches E r b) (hbr : b ≠ r)
variable (hlow : ∀ z, Reaches E r z → rank z < rank b → Known r up z ∧ Nested rank par up z)
variable (hx : IsMeet E r up b x)

include hS hT hb hbr hlow hx

theorem visit_parent : ∃ a, par b = some a ∧ Known r up a ∧ Nested rank par up a ∧ Anc up x a := by
  obtain ⟨a,ha,hreach⟩ := hS.parent b hb hbr
  obtain ⟨hknown,hnest⟩ := hlow a hreach (hS.ranked _ _ ha)
  exact ⟨a,ha,hknown,hnest,(hx x).mp (.refl x) a (hS.edge _ _ ha) hknown⟩

theorem visit_rank : rank x < rank b := by
  obtain ⟨a,ha,-,-,hxa⟩ := visit_parent hS hT hb hbr hlow hx
  exact Nat.lt_of_le_of_lt (hxa.rank_le (hT.ranked hS)) (hS.ranked _ _ ha)

theorem visit_above {x₀ : α} (hx₀ : up b = some x₀) : Anc up x x₀ := by
  obtain ⟨a,ha,-,hnest,hxa⟩ := visit_parent hS hT hb hbr hlow hx
  exact hnest x₀ (hT.within b x₀ hx₀ a ha) x hxa (hT.meets b x₀ hx₀ x ((hx x).mp (.refl x)))

theorem visit_lowers {x₀ : α} (hx₀ : up b = some x₀) (hne : x ≠ x₀) : rank x < rank x₀ :=
  (visit_above hS hT hb hbr hlow hx hx₀).rank_lt (hT.ranked hS) hne

theorem visit_shrinks {w y : α} (hy : y ≠ b ∨ Known r up b) (h : Anc (Function.update up b (some x)) w y) :
    Anc up w y := by
  cases hup : up b with
  | some x₀ => exact .of_update hup (visit_above hS hT hb hbr hlow hx hup) h
  | none => ?_
  have hunknown : ¬ Known r up b := by
    rintro (h|⟨z,hz⟩)
    · exact hbr h
    rw [hup] at hz
    cases hz
  have hyb := hy.resolve_right hunknown
  -- no chain but its own holds the unknown node
  have hmiss : ¬ Anc up b y := by
    intro hby
    obtain ⟨c,hc,-⟩ := hby.strict (Ne.symm hyb)
    exact hunknown (hT.known_anc hby (.inr ⟨c,hc⟩))
  exact (Anc.update_of_not hmiss).mp h

theorem visit_low {w y : α} (hy : rank y < rank b) : Anc (Function.update up b (some x)) w y ↔ Anc up w y :=
  Anc.update_of_not fun h => by
    have := h.rank_le (hT.ranked hS)
    omega

theorem visit_known {z : α} : Known r (Function.update up b (some x)) z ↔ z = b ∨ Known r up z := by
  constructor
  · rintro (rfl|⟨y,hy⟩)
    · exact .inr (.inl rfl)
    by_cases hz : z = b
    · exact .inl hz
    rw [Function.update_of_ne hz] at hy
    exact .inr (.inr ⟨y,hy⟩)
  rintro (rfl|rfl|⟨y,hy⟩)
  · exact .inr ⟨x,Function.update_self ..⟩
  · exact .inl rfl
  by_cases hz : z = b
  · exact .inr ⟨x,by rw [hz,Function.update_self]⟩
  · exact .inr ⟨y,by rw [Function.update_of_ne hz]; exact hy⟩

theorem visit_dominators_self {d : α} (hd : Dom E r d b) : Anc (Function.update up b (some x)) d b := by
  by_cases hne : d = b
  · rw [hne]
    exact .refl b
  have hdx : Anc up d x := (hx d).mpr fun p hp hk => hT.dominators p hk d (hd.of_edge hne hp)
  exact .step (Function.update_self ..)
    ((visit_low hS hT hb hbr hlow hx (visit_rank hS hT hb hbr hlow hx)).mpr hdx)

theorem visit_dominators {c d : α} (hc : Known r (Function.update up b (some x)) c) (hd : Dom E r d c) :
    Anc (Function.update up b (some x)) d c := by
  by_cases hcb : c = b
  · subst hcb
    exact visit_dominators_self hS hT hb hbr hlow hx hd
  have hk := ((visit_known hS hT hb hbr hlow hx).mp hc).resolve_left hcb
  have hdc := hT.dominators c hk d hd
  by_cases hbc : Anc up b c
  · rcases hdc.linear hbc with h|h
    · by_cases hdb : d = b
      · rw [hdb]
        exact .update_below (hT.ranked hS) (.refl b) hbc
      -- the dominator is above the visited node, so it dominates that node too
      have hdomb := hT.dom_of_below hS h hdb hbc hd
      exact (visit_dominators_self hS hT hb hbr hlow hx hdomb).trans
        (.update_below (hT.ranked hS) (.refl b) hbc)
    · exact .update_below (hT.ranked hS) h hdc
  · exact (Anc.update_of_not hbc).mpr hdc

theorem visit_approx : Approx E r rank par (Function.update up b (some x)) := by
  have hshrink := fun {w y : α} => visit_shrinks (w := w) (y := y) hS hT hb hbr hlow hx
  refine ⟨?_,fun c y hy => ?_,fun c y hy => ?_,fun c y hy a ha => ?_,
    fun c hc d hd => visit_dominators hS hT hb hbr hlow hx hc hd,fun c y hy w hw => ?_⟩
  · rw [Function.update_of_ne (Ne.symm hbr)]
    exact hT.root
  · by_cases hcb : c = b
    · exact hcb ▸ hb
    rw [Function.update_of_ne hcb] at hy
    exact hT.reach c y hy
  · refine (visit_known hS hT hb hbr hlow hx).mpr (.inr ?_)
    by_cases hcb : c = b
    · subst hcb
      rw [Function.update_self] at hy
      obtain rfl := Option.some.inj hy
      obtain ⟨a,-,hknown,-,hxa⟩ := visit_parent hS hT hb hbr hlow hx
      exact hT.known_anc hxa hknown
    rw [Function.update_of_ne hcb] at hy
    exact hT.known c y hy
  · by_cases hcb : c = b
    · subst hcb
      rw [Function.update_self] at hy
      obtain rfl := Option.some.inj hy
      obtain ⟨a',ha',-,-,hxa⟩ := visit_parent hS hT hb hbr hlow hx
      obtain rfl := Option.some.inj (ha.symm.trans ha')
      exact hT.anc_par hS hxa
    rw [Function.update_of_ne hcb] at hy
    exact hT.within c y hy a ha
  -- what all known predecessors share, they shared before
  have hold : ∀ p, E p c → Known r up p → Anc up w p := by
    intro p hp hk
    refine hshrink ?_ (hw p hp ((visit_known hS hT hb hbr hlow hx).mpr (.inr hk)))
    by_cases hpb : p = b
    · exact .inr (hpb ▸ hk)
    · exact .inl hpb
  by_cases hcb : c = b
  · subst hcb
    rw [Function.update_self] at hy
    obtain rfl := Option.some.inj hy
    exact ((hx w).mpr hold).rank_le (hT.ranked hS)
  rw [Function.update_of_ne hcb] at hy
  exact hT.meets c y hy w hold

theorem visit_nested {z : α} (hz : Reaches E r z) (hle : rank z ≤ rank b) :
    Known r (Function.update up b (some x)) z ∧ Nested rank par (Function.update up b (some x)) z := by
  by_cases hzb : z = b
  · subst hzb
    refine ⟨(visit_known hS hT hb hbr hlow hx).mpr (.inl rfl),fun u hu w hw hrank => ?_⟩
    by_cases huz : u = z
    · exact huz ▸ hw
    have hlt := hu.rank_lt hS.ranked huz
    obtain ⟨a,ha,-,hnest,hxa⟩ := visit_parent hS hT hb hbr hlow hx
    obtain ⟨a',ha',hua⟩ := hu.strict huz
    obtain rfl := Option.some.inj (ha.symm.trans ha')
    obtain ⟨y,hy,hwy⟩ := hw.strict (by rintro rfl; omega)
    rw [Function.update_self] at hy
    obtain rfl := Option.some.inj hy
    have hwx := (visit_low hS hT hb hbr hlow hx (visit_rank hS hT hb hbr hlow hx)).mp hwy
    exact (visit_low hS hT hb hbr hlow hx hlt).mpr (hnest u hua w (hwx.trans hxa) hrank)
  have hlt : rank z < rank b := Nat.lt_of_le_of_ne hle fun h => hzb (hS.rank_inj z b hz hb h)
  obtain ⟨hk,hnest⟩ := hlow z hz hlt
  refine ⟨(visit_known hS hT hb hbr hlow hx).mpr (.inr hk),fun u hu w hw hrank => ?_⟩
  have hu' := Nat.lt_of_le_of_lt (hu.rank_le hS.ranked) hlt
  rw [visit_low hS hT hb hbr hlow hx hu']
  rw [visit_low hS hT hb hbr hlow hx hlt] at hw
  exact hnest u hu w hw hrank

end

theorem Approx.exact (hT : Approx E r rank par up) (hall : ∀ b, Reaches E r b → Known r up b)
    (hfix : ∀ b x, up b = some x → IsMeet E r up b x) {a b : α} (hb : Reaches E r b) :
    Anc up a b ↔ Dom E r a b := by
  refine ⟨fun h p hp => ?_,hT.dominators b (hall b hb) a⟩
  -- along a path, the chain of each node lies on the path
  induction hp with
  | root => ?_
  | @step p m b hp he ih =>
    by_cases hab : a = b
    · exact hab ▸ List.mem_cons_self
    obtain ⟨x,hup,hax⟩ := h.strict hab
    have hm : Reaches E r m := ⟨p,hp⟩
    exact List.mem_cons_of_mem _ (ih hm ((hfix b x hup a).mp hax m he (hall m hm)))
  have har : a = r := by
    by_contra hne
    obtain ⟨c,hc,-⟩ := h.strict hne
    rw [hT.root] at hc
    cases hc
  rw [har]
  exact List.mem_cons_self

/-- A reachable predecessor that the node dominates. -/
structure Latch (E : α → α → Prop) (r h u : α) : Prop where
  edge : E u h
  reach : Reaches E r u
  dom : Dom E r h u

def Header (E : α → α → Prop) (r h : α) : Prop := ∃ u, Latch E r h u

/-- The nodes with a path to a latch that avoids the header. -/
def Feeds (E : α → α → Prop) (r h b : α) : Prop := ∃ u, Latch E r h u ∧ ∃ p, Path E b p u ∧ h ∉ p

def InLoop (E : α → α → Prop) (r h b : α) : Prop := Header E r h ∧ (b = h ∨ Feeds E r h b)

section
variable {h h₁ h₂ b x : α}

theorem Header.inLoop (hh : Header E r h) : InLoop E r h h := ⟨hh,.inl rfl⟩

theorem Header.reaches (hh : Header E r h) : Reaches E r h := by
  obtain ⟨u,hu⟩ := hh
  exact hu.reach.step hu.edge

theorem Feeds.ne (hf : Feeds E r h b) : b ≠ h := by
  obtain ⟨u,-,p,hp,hmiss⟩ := hf
  rintro rfl
  exact hmiss hp.root_mem

theorem InLoop.dom (hin : InLoop E r h b) : Dom E r h b := by
  rcases hin.2 with rfl|⟨u,hu,p,hp,hmiss⟩
  · exact Dom.refl
  intro q hq
  obtain ⟨l,hl,hmem⟩ := hq.comp hp
  exact (hmem h (hu.dom l hl)).resolve_right hmiss

theorem Feeds.prepend {p : List α} (hf : Feeds E r h b) (hp : Path E x p b) (hmiss : h ∉ p) : Feeds E r h x := by
  obtain ⟨u,hu,q,hq,hqm⟩ := hf
  obtain ⟨l,hl,hmem⟩ := hp.comp hq
  exact ⟨u,hu,l,hl,fun hx => (hmem h hx).elim hmiss hqm⟩

theorem Dom.path_missing (hx : Reaches E r x) (hdom : Dom E r b x) (hne : b ≠ x) : ∃ p, Path E r p b ∧ x ∉ p := by
  by_contra hnot
  have hback : Dom E r x b := by
    intro p hp
    by_contra hmiss
    exact hnot ⟨p,hp,hmiss⟩
  exact hne (Dom.antisymm hx hdom hback)

section
variable (hb : Reaches E r b) (hne : h₁ ≠ h₂) (hdom : Dom E r h₁ h₂)

include hb hne hdom

theorem InLoop.header_feeds (h1 : InLoop E r h₁ b) (h2 : InLoop E r h₂ b) : Feeds E r h₁ h₂ := by
  have hreach₂ := h2.1.reaches
  obtain ⟨q,hq,hqmiss⟩ := Dom.path_missing hreach₂ hdom hne
  -- the way down from the lower header to the node avoids the upper one
  obtain ⟨p,hp⟩ := hb
  obtain ⟨x,s,hx,hs,-,hlast⟩ := hp.last_visit (fun y => y = h₁ ∨ y = h₂) (h2.dom p hp) (.inr rfl)
  have hx2 : x = h₂ := by
    rcases hx with rfl|rfl
    · obtain ⟨l,hl,hmem⟩ := hq.comp hs
      rcases hmem h₂ (h2.dom l hl) with h|h
      · exact absurd h hqmiss
      · exact (hlast h₂ h (.inr rfl)).symm
    · rfl
  subst hx2
  rcases h1.2 with rfl|hf
  · exact absurd (Dom.antisymm hreach₂ hdom h2.dom) hne
  · exact hf.prepend hs fun hm => hne (hlast h₁ hm (.inl rfl))

theorem InLoop.nested (h1 : InLoop E r h₁ b) (h2 : InLoop E r h₂ b) (hx : InLoop E r h₂ x) : InLoop E r h₁ x := by
  have hfeeds := InLoop.header_feeds hb hne hdom h1 h2
  refine ⟨h1.1,.inr ?_⟩
  rcases hx.2 with rfl|⟨u,hu,p,hp,hmiss⟩
  · exact hfeeds
  have hedge := Path.root.step hu.edge
  obtain ⟨l,hl,hmem⟩ := hp.comp hedge
  have havoid : h₁ ∉ p := by
    -- from the upper header the walk would reach the latch without the lower one
    intro hm
    obtain ⟨-,p₂,-,h₂',-,hsub⟩ := hp.split hm
    obtain ⟨q,hq,hqmiss⟩ := Dom.path_missing h2.1.reaches hdom hne
    obtain ⟨l',hl',hmem'⟩ := hq.comp h₂'
    rcases hmem' h₂ (hu.dom l' hl') with h|h
    · exact hqmiss h
    · exact hmiss (hsub h₂ h)
  refine hfeeds.prepend hl fun hm => ?_
  rcases hmem h₁ hm with h|h
  · exact havoid h
  rcases List.mem_cons.mp h with h|h
  · exact hne h
  · exact havoid (List.mem_singleton.mp h ▸ hp.last_mem)

omit hb in
theorem InLoop.not_upper : ¬ InLoop E r h₂ h₁ := fun h2 => hne (Dom.antisymm h2.1.reaches hdom h2.dom)

end

theorem InLoop.linear (hb : Reaches E r b) (h1 : InLoop E r h₁ b) (h2 : InLoop E r h₂ b) :
    (∀ x, InLoop E r h₁ x → InLoop E r h₂ x) ∨ ∀ x, InLoop E r h₂ x → InLoop E r h₁ x := by
  by_cases hne : h₁ = h₂
  · subst hne
    exact .inl fun _ h => h
  rcases Dom.linear hb h1.dom h2.dom with hdom|hdom
  · exact .inr fun x hx => InLoop.nested hb hne hdom h1 h2 hx
  · exact .inl fun x hx => InLoop.nested hb (Ne.symm hne) hdom h2 h1 hx

theorem InLoop.around (hb : Reaches E r b) (hne : h₁ ≠ h₂) (hdom : Dom E r h₁ h₂) (h1 : InLoop E r h₁ b)
    (h2 : InLoop E r h₂ b) (hh : InLoop E r h h₁) : InLoop E r h h₂ := by
  have hin : InLoop E r h₁ h₂ := ⟨h1.1,.inr (InLoop.header_feeds hb hne hdom h1 h2)⟩
  by_cases heq : h = h₁
  · exact heq ▸ hin
  · exact InLoop.nested h1.1.reaches heq hh.dom hh h1.1.inLoop hin

end
end CratonVM.Dominance
