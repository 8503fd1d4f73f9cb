import CratonVM.Lib.Dominance

/-!
The search of a graph from a stack, with a list of the nodes already seen: it ends, and what it
has seen is closed under successors.
-/
namespace CratonVM.GraphSearch
open List Option Finset
variable {α : Type} [DecidableEq α]

/-- The loop `while let Some(n) = stack.pop()`. The successors are pushed in their order, so that
the last of them is on top; the top is the head. -/
def searchLoop (succ : α → List α) : (fuel : Nat) → (stack seen : List α) → Option (List α)
  | _, [], seen => some seen
  | 0, _::_, _ => none
  | fuel+1, n::stack, seen =>
    if n ∈ seen then searchLoop succ fuel stack seen
    else searchLoop succ fuel ((succ n).reverse++stack) (n::seen)

variable {succ : α → List α}

def Pending (succ : α → List α) (stack seen : List α) : Prop :=
  ∀ n ∈ seen, ∀ m ∈ succ n, m ∈ seen ∨ m ∈ stack

theorem searchLoop_closed {fuel : Nat} {stack seen out : List α} (hp : Pending succ stack seen)
    (h : searchLoop succ fuel stack seen = some out) :
    Pending succ [] out ∧ (∀ n ∈ seen, n ∈ out) ∧ ∀ n ∈ stack, n ∈ out := by
  induction fuel generalizing stack seen with
  | zero =>
    cases stack with
    | nil =>
      obtain rfl := some.inj h
      exact ⟨hp,fun _ hn => hn,fun _ hn => by simp at hn⟩
    | cons n stack => cases h
  | succ fuel ih => ?_
  cases stack with
  | nil =>
    obtain rfl := some.inj h
    exact ⟨hp,fun _ hn => hn,fun _ hn => by simp at hn⟩
  | cons n stack => ?_
  rw [searchLoop] at h
  split at h
  · rename_i hseen
    have hp' : Pending succ stack seen := by
      intro k hk m hm
      rcases hp k hk m hm with hm | hm
      · exact .inl hm
      rcases mem_cons.mp hm with rfl | hm
      · exact .inl hseen
      · exact .inr hm
    obtain ⟨hclosed,hsub,hstack⟩ := ih hp' h
    refine ⟨hclosed,hsub,fun k hk => ?_⟩
    rcases mem_cons.mp hk with rfl | hk
    · exact hsub k hseen
    · exact hstack k hk
  have hp' : Pending succ ((succ n).reverse++stack) (n::seen) := by
    intro k hk m hm
    rcases mem_cons.mp hk with rfl | hk
    · exact .inr (by simp [hm])
    rcases hp k hk m hm with hm | hm
    · exact .inl (mem_cons_of_mem _ hm)
    rcases mem_cons.mp hm with rfl | hm
    · exact .inl (by simp)
    · exact .inr (by simp [hm])
  obtain ⟨hclosed,hsub,hstack⟩ := ih hp' h
  refine ⟨hclosed,fun k hk => hsub k (by simp [hk]),fun k hk => ?_⟩
  rcases mem_cons.mp hk with rfl | hk
  · exact hsub k (by simp)
  · exact hstack k (by simp [hk])

theorem mem_of_reachable {fuel : Nat} {stack out : List α}
    (h : searchLoop succ fuel stack [] = some out) {n m : α} (hn : n ∈ stack)
    (hreach : Relation.ReflTransGen (fun a b => b ∈ succ a) n m) : m ∈ out := by
  obtain ⟨hclosed,-,hstack⟩ := searchLoop_closed (by simp [Pending]) h
  induction hreach with
  | refl => exact hstack n hn
  | tail _ hstep ih => exact (hclosed _ ih _ hstep).resolve_right (by simp)

/-- The turns a search can take in a finite set of nodes: each node gives its successors to the
stack once. -/
theorem searchLoop_returns {nodes : Finset α} (hclosed : ∀ n ∈ nodes, ∀ m ∈ succ n, m ∈ nodes)
    {fuel : Nat} {stack seen : List α} (hstack : ∀ n ∈ stack, n ∈ nodes)
    (hfuel : stack.length+∑ n ∈ nodes.filter (· ∉ seen), (succ n).length ≤ fuel) :
    ∃ out, searchLoop succ fuel stack seen = some out := by
  induction fuel generalizing stack seen with
  | zero =>
    cases stack with
    | nil => exact ⟨seen,rfl⟩
    | cons n stack => simp at hfuel
  | succ fuel ih => ?_
  cases stack with
  | nil => exact ⟨seen,rfl⟩
  | cons n stack => ?_
  rw [length_cons] at hfuel
  rw [searchLoop]
  split
  · exact ih (fun k hk => hstack k (by simp [hk])) (by omega)
  rename_i hn
  have hmem : n ∈ nodes.filter (· ∉ seen) := mem_filter.mpr ⟨hstack n (by simp),hn⟩
  have hrest : nodes.filter (· ∉ n::seen) = (nodes.filter (· ∉ seen)).erase n := by
    ext k
    simp only [Finset.mem_filter,mem_erase,List.mem_cons,not_or]
    tauto
  have hsum := add_sum_erase _ (fun k => (succ k).length) hmem
  refine ih ?_ ?_
  · intro k hk
    rcases mem_append.mp hk with hk | hk
    · exact hclosed n (hstack n (by simp)) k (mem_reverse.mp hk)
    · exact hstack k (by simp [hk])
  rw [hrest,length_append,length_reverse]
  omega

theorem searchLoop_ends {nodes : List α} (hclosed : ∀ n ∈ nodes, ∀ m ∈ succ n, m ∈ nodes)
    {fuel : Nat} {stack : List α} (hstack : ∀ n ∈ stack, n ∈ nodes)
    (hfuel : stack.length+(nodes.map fun n => (succ n).length).sum ≤ fuel) :
    ∃ out, searchLoop succ fuel stack [] = some out := by
  have hsum : ∀ l : List α, ∑ n ∈ l.toFinset, (succ n).length ≤ (l.map fun n => (succ n).length).sum := by
    intro l
    induction l with
    | nil => simp
    | cons a l ih => ?_
    rw [toFinset_cons,List.map_cons,List.sum_cons]
    by_cases ha : a ∈ l.toFinset
    · rw [insert_eq_self.mpr ha]
      omega
    rw [sum_insert ha]
    omega
  have hall := hsum nodes
  exact @searchLoop_returns _ _ succ nodes.toFinset (by simpa using hclosed) fuel stack []
    (by simpa using hstack) (by simp; omega)

end CratonVM.GraphSearch
namespace CratonVM.Worklist
variable {σ ι : Type}

def Covered (known settled : σ → ι → Prop) (s : σ) (pending : ι → Prop) : Prop :=
  ∀ i, known s i → pending i ∨ settled s i

variable {known settled : σ → ι → Prop} {s t : σ} {pending pending' : ι → Prop}

theorem Covered.done (h : Covered known settled s pending) (hnone : ∀ i, ¬ pending i) {i : ι}
    (hi : known s i) : settled s i :=
  (h i hi).resolve_left (hnone i)

/-- One round takes `i` from the list: it settles `i`, or leaves it pending, and it lists every
node that it makes known or unsettles. -/
theorem Covered.round (h : Covered known settled s pending) {i : ι}
    (hi : settled t i ∨ pending' i) (hkeep : ∀ j, pending j → j ≠ i → pending' j)
    (hknown : ∀ j, known t j → known s j ∨ pending' j)
    (hsettled : ∀ j, settled s j → settled t j ∨ pending' j) :
    Covered known settled t pending' := by
  intro j hj
  by_cases hji : j = i
  · subst hji
    exact hi.symm
  rcases hknown j hj with hj | hj
  · rcases h j hj with hp | hs
    · exact .inl (hkeep j hp hji)
    · exact (hsettled j hs).symm
  · exact .inl hj

end CratonVM.Worklist
namespace CratonVM.Flood
variable {α : Type} [DecidableEq α]

/-- The stack, its top first, and the marked nodes. -/
def push (st : List α × List α) (c : α) : List α × List α :=
  if c ∈ st.2 then st else (c::st.1,c::st.2)

/-- The loop `while let Some(b) = stack.pop()`; it ends with the marked nodes. -/
def flood (next : α → List α) : (fuel : Nat) → List α × List α → Option (List α)
  | 0,st => if st.1.isEmpty then some st.2 else none
  | fuel+1,st =>
    match st.1 with
    | [] => some st.2
    | b::stack => flood next fuel ((next b).foldl push (stack,st.2))

section
variable {st : List α × List α} {c x : α} {l : List α}

theorem mem_foldl_push : x ∈ (l.foldl push st).2 ↔ x ∈ st.2 ∨ x ∈ l := by
  induction l generalizing st with
  | nil => simp
  | cons c l ih => ?_
  rw [List.foldl_cons,ih,List.mem_cons,push]
  split
  · rename_i hc
    have : x = c → x ∈ st.2 := fun h => h ▸ hc
    tauto
  rw [List.mem_cons]
  tauto

theorem stack_foldl_push : x ∈ (l.foldl push st).1 ↔ x ∈ st.1 ∨ x ∈ l ∧ x ∉ st.2 := by
  induction l generalizing st with
  | nil => simp
  | cons c l ih => ?_
  rw [List.foldl_cons,ih,List.mem_cons,push]
  by_cases hxc : x = c
  · split <;> simp_all
  split
  · tauto
  rw [List.mem_cons,List.mem_cons]
  tauto

/-- The turns that are left: a push moves a node from the unmarked to the stack. -/
def turns (nodes : Finset α) (st : List α × List α) : Nat := (nodes.filter (· ∉ st.2)).card+st.1.length

theorem turns_push {nodes : Finset α} (hc : c ∈ nodes) : turns nodes (push st c) ≤ turns nodes st := by
  unfold push
  split
  · exact le_rfl
  rename_i hnew
  have hset : nodes.filter (· ∉ c::st.2) = (nodes.filter (· ∉ st.2)).erase c := by
    ext k
    simp only [Finset.mem_filter,Finset.mem_erase,List.mem_cons,not_or]
    tauto
  have hmem : c ∈ nodes.filter (· ∉ st.2) := Finset.mem_filter.mpr ⟨hc,hnew⟩
  have hcard := Finset.card_erase_add_one hmem
  simp only [turns,hset,List.length_cons]
  omega

theorem turns_foldl_push {nodes : Finset α} (hl : ∀ c ∈ l, c ∈ nodes) :
    turns nodes (l.foldl push st) ≤ turns nodes st := by
  induction l generalizing st with
  | nil => exact le_rfl
  | cons c l ih =>
    exact Nat.le_trans (ih fun x hx => hl x (List.mem_cons_of_mem _ hx)) (turns_push (hl c List.mem_cons_self))

end

section
variable {next : α → List α} {st : List α × List α} {fuel : Nat} {out : List α}

/-- Every marked node is on the stack, on the border, or has its successors marked. -/
def Spread (next : α → List α) (border : α → Prop) (st : List α × List α) : Prop :=
  ∀ x ∈ st.2, x ∈ st.1 ∨ border x ∨ ∀ c ∈ next x, c ∈ st.2

theorem flood_ends {nodes : Finset α} (hclosed : ∀ b ∈ nodes, ∀ c ∈ next b, c ∈ nodes)
    (hstack : ∀ b ∈ st.1, b ∈ nodes) (hfuel : turns nodes st ≤ fuel) : ∃ out, flood next fuel st = some out := by
  induction fuel generalizing st with
  | zero =>
    have hnil : st.1 = [] := List.length_eq_zero_iff.mp (by rw [turns] at hfuel; omega)
    exact ⟨st.2,by rw [flood,hnil]; rfl⟩
  | succ fuel ih => ?_
  obtain ⟨stack,marked⟩ := st
  cases stack with
  | nil => exact ⟨marked,rfl⟩
  | cons b stack => ?_
  have hb := hstack b List.mem_cons_self
  have hturns : turns nodes ((next b).foldl push (stack,marked)) ≤ turns nodes (stack,marked) :=
    turns_foldl_push (hclosed b hb)
  refine ih (fun x hx => ?_) ?_
  · rcases (stack_foldl_push).mp hx with hx|hx
    · exact hstack x (List.mem_cons_of_mem _ hx)
    · exact hclosed b hb x hx.1
  simp only [turns,List.length_cons] at hturns hfuel ⊢
  omega

theorem flood_closed {border : α → Prop} (hspread : Spread next border st) (h : flood next fuel st = some out) :
    (∀ x ∈ st.2, x ∈ out) ∧ ∀ x ∈ out, border x ∨ ∀ c ∈ next x, c ∈ out := by
  induction fuel generalizing st with
  | zero =>
    rw [flood] at h
    split at h
    · rename_i hempty
      obtain rfl := Option.some.inj h
      have hnil := List.isEmpty_iff.mp hempty
      exact ⟨fun x hx => hx,fun x hx => (hspread x hx).resolve_left (by simp [hnil])⟩
    · cases h
  | succ fuel ih => ?_
  obtain ⟨stack,marked⟩ := st
  cases stack with
  | nil =>
    obtain rfl := Option.some.inj h
    exact ⟨fun x hx => hx,fun x hx => (hspread x hx).resolve_left (by simp)⟩
  | cons b stack => ?_
  have hmark : ∀ c ∈ next b, c ∈ ((next b).foldl push (stack,marked)).2 := fun c hc =>
    (mem_foldl_push).mpr (.inr hc)
  have hold : ∀ c ∈ marked, c ∈ ((next b).foldl push (stack,marked)).2 := fun c hc =>
    (mem_foldl_push).mpr (.inl hc)
  have hspread' : Spread next border ((next b).foldl push (stack,marked)) := by
    intro x hx
    by_cases hxm : x ∈ marked
    · rcases hspread x hxm with hxs|hxb|hxn
      · rcases List.mem_cons.mp hxs with rfl|hxs
        · exact .inr (.inr hmark)
        · exact .inl ((stack_foldl_push).mpr (.inl hxs))
      · exact .inr (.inl hxb)
      · exact .inr (.inr fun c hc => hold c (hxn c hc))
    · exact .inl ((stack_foldl_push).mpr (.inr ⟨((mem_foldl_push).mp hx).resolve_left hxm,hxm⟩))
  obtain ⟨hsub,hout⟩ := ih hspread' h
  exact ⟨fun x hx => hsub x (hold x hx),hout⟩

theorem flood_least {border P : α → Prop} (hmarked : ∀ x ∈ st.2, border x ∨ P x) (hstack : ∀ x ∈ st.1, P x)
    (hnext : ∀ x, P x → ∀ c ∈ next x, border c ∨ P c) (hborder : ∀ x, border x → x ∈ st.2)
    (h : flood next fuel st = some out) : ∀ x ∈ out, border x ∨ P x := by
  induction fuel generalizing st with
  | zero =>
    rw [flood] at h
    split at h
    · obtain rfl := Option.some.inj h
      exact hmarked
    · cases h
  | succ fuel ih => ?_
  obtain ⟨stack,marked⟩ := st
  cases stack with
  | nil =>
    obtain rfl := Option.some.inj h
    exact hmarked
  | cons b stack => ?_
  have hb := hstack b List.mem_cons_self
  refine @ih ((next b).foldl push (stack,marked)) (fun x hx => ?_) (fun x hx => ?_)
    (fun x hx => (mem_foldl_push).mpr (.inl (hborder x hx))) h
  · rcases (mem_foldl_push).mp hx with hx|hx
    · exact hmarked x hx
    · exact hnext b hb x hx
  rcases (stack_foldl_push).mp hx with hx|⟨hx,hnew⟩
  · exact hstack x (List.mem_cons_of_mem _ hx)
  · exact (hnext b hb x hx).resolve_left fun hbx => hnew (hborder x hbx)

end
end CratonVM.Flood
namespace CratonVM.DepthFirst
open Dominance
variable {α : Type}

/-- The top of the stack is the head. -/
structure Search (α : Type) where
  stack : List (α × Nat)
  seen : List α
  postorder : List α

namespace Search
variable [DecidableEq α]

def step (succs : α → List α) (s : Search α) : Search α :=
  match s.stack with
  | [] => s
  | (b,i)::rest =>
    match (succs b)[i]? with
    | some c =>
      if c ∈ s.seen then { s with stack := (b,i+1)::rest }
      else { s with stack := (c,0)::(b,i+1)::rest, seen := c::s.seen }
    | none => { s with stack := rest, postorder := s.postorder++[b] }

/-- The loop `while let Some(&(b, i)) = stack.last()`. -/
def run (succs : α → List α) : (fuel : Nat) → Search α → Option (List α)
  | 0,s => if s.stack.isEmpty then some s.postorder else none
  | fuel+1,s => if s.stack.isEmpty then some s.postorder else run succs fuel (s.step succs)

def start (root : α) : Search α := ⟨[(root,0)],[root],[]⟩

/-- The nodes left, and then those on the stack. -/
def order (s : Search α) : List α := s.postorder++s.stack.map Prod.fst

end Search

/-- Each node of the list but the last, which is the root, stands before one of its predecessors. -/
inductive Led (E : α → α → Prop) (root : α) : List α → Prop where
  | root : Led E root [root]
  | cons {p b : α} {l : List α} : p ∈ l → E p b → Led E root l → Led E root (b::l)

section
variable {E : α → α → Prop} {root : α} {l l₁ l₂ : List α}

theorem Led.insert {p b : α} (hp : p ∈ l₂) (he : E p b) (h : Led E root (l₁++l₂)) : Led E root (l₁++b::l₂) := by
  induction l₁ with
  | nil => exact .cons hp he h
  | cons a l₁ ih => ?_
  generalize hl : l₁++l₂ = l at h ih
  rw [List.cons_append,hl] at h
  cases h with
  | root =>
    rw [(List.append_eq_nil_iff.mp hl).2] at hp
    cases hp
  | cons hq he' h => ?_
  refine .cons ?_ he' (ih h)
  rw [← hl] at hq
  rcases List.mem_append.mp hq with hq|hq
  · exact List.mem_append_left _ hq
  · exact List.mem_append_right _ (List.mem_cons_of_mem _ hq)

theorem Led.reaches (h : Led E root l) {b : α} (hb : b ∈ l) : Reaches E root b := by
  induction h generalizing b with
  | root => exact List.mem_singleton.mp hb ▸ .root
  | cons hp he _ ih =>
    rcases List.mem_cons.mp hb with rfl|hb
    · exact (ih hp).step he
    · exact ih hb

theorem Led.root_last (h : Led E root l) : ∃ l', l = l'++[root] := by
  induction h with
  | root => exact ⟨[],rfl⟩
  | @cons p b l _ _ _ ih =>
    obtain ⟨l',rfl⟩ := ih
    exact ⟨b::l',rfl⟩

theorem Led.predecessor {a : α} (h : Led E root (l₁++a::l₂)) (hne : a ≠ root) : ∃ p ∈ l₂, E p a := by
  induction l₁ with
  | nil =>
    cases h with
    | root => exact absurd rfl hne
    | cons hp he _ => exact ⟨_,hp,he⟩
  | cons c l₁ ih => ?_
  generalize hl : l₁++a::l₂ = l at h ih
  rw [List.cons_append,hl] at h
  cases h with
  | root => simp at hl
  | cons _ _ h => exact ih h

end

/-- The edges of a table of successors. -/
def Edge (succs : α → List α) (a b : α) : Prop := b ∈ succs a

section
variable [DecidableEq α] {succs : α → List α} {root : α} {s : Search α}

structure Inv (succs : α → List α) (root : α) (s : Search α) : Prop where
  nodup : s.order.Nodup
  seen : ∀ b, b ∈ s.seen ↔ b ∈ s.order
  led : Led (Edge succs) root s.order
  left : ∀ b ∈ s.postorder, ∀ c ∈ succs b, c ∈ s.seen
  passed : ∀ e ∈ s.stack, ∀ c ∈ (succs e.1).take e.2, c ∈ s.seen

theorem inv_start : Inv succs root (Search.start root) :=
  ⟨List.nodup_singleton root,fun _ => Iff.rfl,.root,fun _ h => (List.not_mem_nil h).elim,by
    intro e he c hc
    obtain rfl := List.mem_singleton.mp he
    cases hc⟩

theorem Inv.step (h : Inv succs root s) : Inv succs root (s.step succs) := by
  obtain ⟨stack,seen,postorder⟩ := s
  cases stack with
  | nil => exact h
  | cons e rest => ?_
  obtain ⟨b,i⟩ := e
  unfold Search.step
  dsimp only
  cases hc : (succs b)[i]? with
  | none =>
    -- leaving a node moves it between the two parts of the order
    have horder : (Search.mk rest seen (postorder++[b])).order = (Search.mk ((b,i)::rest) seen postorder).order := by
      simp [Search.order]
    refine ⟨horder ▸ h.nodup,fun x => horder ▸ h.seen x,horder ▸ h.led,fun x hx c hcx => ?_,
      fun e he => h.passed e (List.mem_cons_of_mem _ he)⟩
    rcases List.mem_append.mp hx with hx|hx
    · exact h.left x hx c hcx
    obtain rfl := List.mem_singleton.mp hx
    refine h.passed (x,i) List.mem_cons_self c ?_
    rw [List.take_of_length_le (List.getElem?_eq_none_iff.mp hc)]
    exact hcx
  | some c => ?_
  have hstep : (succs b).take (i+1) = (succs b).take i++[c] := by
    rw [List.take_add_one,hc]
    rfl
  dsimp only
  split
  · rename_i hseen
    refine ⟨h.nodup,h.seen,h.led,h.left,fun e he x hx => ?_⟩
    rcases List.mem_cons.mp he with rfl|he
    · rw [hstep] at hx
      rcases List.mem_append.mp hx with hx|hx
      · exact h.passed (b,i) List.mem_cons_self x hx
      · exact List.mem_singleton.mp hx ▸ hseen
    · exact h.passed e (List.mem_cons_of_mem _ he) x hx
  rename_i hnew
  have hmem : c ∉ postorder++b::rest.map Prod.fst := fun hm => hnew ((h.seen c).mpr hm)
  have hedge := List.mem_of_getElem? hc
  have hmono : ∀ x ∈ seen, x ∈ c::seen := fun x hx => List.mem_cons_of_mem _ hx
  refine ⟨List.nodup_middle.mpr (List.nodup_cons.mpr ⟨hmem,h.nodup⟩),fun x => ?_,
    .insert List.mem_cons_self hedge h.led,fun x hx y hy => hmono _ (h.left x hx y hy),fun e he x hx => ?_⟩
  · have hold := h.seen x
    simp only [Search.order,List.map_cons,List.mem_append,List.mem_cons] at hold ⊢
    rw [hold]
    exact or_left_comm
  rcases List.mem_cons.mp he with rfl|he
  · cases hx
  rcases List.mem_cons.mp he with rfl|he
  · rw [hstep] at hx
    rcases List.mem_append.mp hx with hx|hx
    · exact hmono x (h.passed (b,i) List.mem_cons_self x hx)
    · exact List.mem_singleton.mp hx ▸ List.mem_cons_self
  · exact hmono x (h.passed e (List.mem_cons_of_mem _ he) x hx)

/-- The turns that a search may still take. -/
def cost (succs : α → List α) (nodes : Finset α) (s : Search α) : Nat :=
  ∑ b ∈ nodes.filter (· ∉ s.seen), ((succs b).length+1)+(s.stack.map fun e => (succs e.1).length-e.2+1).sum

theorem cost_step {nodes : Finset α} (hclosed : ∀ b ∈ nodes, ∀ c ∈ succs b, c ∈ nodes)
    (hstack : ∀ e ∈ s.stack, e.1 ∈ nodes) (hne : s.stack ≠ []) :
    cost succs nodes (s.step succs) < cost succs nodes s ∧ ∀ e ∈ (s.step succs).stack, e.1 ∈ nodes := by
  obtain ⟨stack,seen,postorder⟩ := s
  cases stack with
  | nil => exact absurd rfl hne
  | cons e rest => ?_
  obtain ⟨b,i⟩ := e
  have hb : b ∈ nodes := hstack _ List.mem_cons_self
  have hrest : ∀ e ∈ rest, e.1 ∈ nodes := fun e he => hstack e (List.mem_cons_of_mem _ he)
  unfold Search.step
  dsimp only
  cases hc : (succs b)[i]? with
  | none =>
    refine ⟨?_,hrest⟩
    simp only [cost,List.map_cons,List.sum_cons]
    omega
  | some c => ?_
  have hlt : i < (succs b).length := (getElem?_eq_some_iff.mp hc).1
  have hcn := hclosed b hb c (List.mem_of_getElem? hc)
  dsimp only
  split
  · refine ⟨?_,fun e he => ?_⟩
    · simp only [cost,List.map_cons,List.sum_cons]
      omega
    rcases List.mem_cons.mp he with rfl|he
    · exact hb
    · exact hrest e he
  rename_i hnew
  refine ⟨?_,fun e he => ?_⟩
  · have hmem : c ∈ nodes.filter (· ∉ seen) := Finset.mem_filter.mpr ⟨hcn,hnew⟩
    have hset : nodes.filter (· ∉ c::seen) = (nodes.filter (· ∉ seen)).erase c := by
      ext k
      simp only [Finset.mem_filter,Finset.mem_erase,List.mem_cons,not_or]
      tauto
    have hsum := Finset.add_sum_erase _ (fun k => (succs k).length+1) hmem
    simp only [cost,List.map_cons,List.sum_cons,hset]
    omega
  rcases List.mem_cons.mp he with rfl|he
  · exact hcn
  rcases List.mem_cons.mp he with rfl|he
  · exact hb
  · exact hrest e he

theorem run_ends {nodes : Finset α} (hclosed : ∀ b ∈ nodes, ∀ c ∈ succs b, c ∈ nodes) {fuel : Nat}
    (hstack : ∀ e ∈ s.stack, e.1 ∈ nodes) (hfuel : cost succs nodes s ≤ fuel) (h : Inv succs root s) :
    ∃ t : Search α, s.run succs fuel = some t.postorder ∧ Inv succs root t ∧ t.stack = [] := by
  induction fuel generalizing s with
  | zero =>
    by_cases hs : s.stack = []
    · exact ⟨s,by simp [Search.run,hs],h,hs⟩
    have := (cost_step hclosed hstack hs).1
    omega
  | succ fuel ih => ?_
  by_cases hs : s.stack = []
  · exact ⟨s,by simp [Search.run,hs],h,hs⟩
  obtain ⟨hlt,hstack'⟩ := cost_step hclosed hstack hs
  obtain ⟨t,hrun,ht⟩ := ih hstack' (by omega) h.step
  exact ⟨t,by simpa [Search.run,hs] using hrun,ht⟩

theorem run_start {nodes : Finset α} (hclosed : ∀ b ∈ nodes, ∀ c ∈ succs b, c ∈ nodes) (hroot : root ∈ nodes)
    {fuel : Nat} (hfuel : ∑ b ∈ nodes, ((succs b).length+1) ≤ fuel) :
    ∃ l, (Search.start root).run succs fuel = some l ∧ l.Nodup ∧ Led (Edge succs) root l ∧
      ∀ b, b ∈ l ↔ Reaches (Edge succs) root b := by
  have hcost : cost succs nodes (Search.start root) = ∑ b ∈ nodes, ((succs b).length+1) := by
    have hset : nodes.filter (· ∉ [root]) = nodes.erase root := by
      ext k
      simp only [Finset.mem_filter,Finset.mem_erase,List.mem_singleton]
      tauto
    have hsum := Finset.add_sum_erase nodes (fun b => (succs b).length+1) hroot
    unfold cost Search.start
    rw [hset,List.map_cons,List.map_nil,List.sum_cons,List.sum_nil]
    dsimp only
    omega
  have hturns : cost succs nodes (Search.start root) ≤ fuel := by omega
  have hin : ∀ e ∈ (Search.start root).stack, e.1 ∈ nodes := fun e he => List.mem_singleton.mp he ▸ hroot
  obtain ⟨t,hrun,hinv,hstack⟩ := run_ends hclosed hin hturns inv_start
  have horder : t.order = t.postorder := by
    rw [Search.order,hstack,List.map_nil,List.append_nil]
  have hled : Led (Edge succs) root t.postorder := horder ▸ hinv.led
  refine ⟨t.postorder,hrun,horder ▸ hinv.nodup,hled,fun b => ⟨hled.reaches,?_⟩⟩
  rintro ⟨p,hp⟩
  -- what the search has left is closed under successors
  induction hp with
  | root =>
    obtain ⟨l',hl⟩ := hled.root_last
    rw [hl]
    exact List.mem_append_right _ List.mem_cons_self
  | step _ he ih => exact horder ▸ (hinv.seen _).mp (hinv.left _ ih _ he)

end
end CratonVM.DepthFirst
