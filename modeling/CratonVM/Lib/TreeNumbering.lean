import CratonVM.Lib.Dominance

/-!
The walk of a tree that numbers each node when it is entered and when it is left, on one clock. A
node is an ancestor of another when its interval holds the other's.
-/
namespace CratonVM.TreeNumbering
open Dominance List Option Function Prod
variable {α : Type} [DecidableEq α]

/-- The top of the stack is the head. -/
structure Walk (α : Type) where
  stack : List (α × Nat)
  clock : Nat
  pre : α → Nat
  post : α → Nat

namespace Walk
def step (children : α → List α) (w : Walk α) : Walk α :=
  match w.stack with
  | [] => w
  | (b,i)::rest =>
    match (children b)[i]? with
    | some c =>
      { w with stack := (c,0)::(b,i+1)::rest, clock := w.clock+1, pre := Function.update w.pre c w.clock }
    | none => { w with stack := rest, clock := w.clock+1, post := Function.update w.post b w.clock }

/-- The loop `while let Some(&(b, i)) = walk.last()`. -/
def run (children : α → List α) : (fuel : Nat) → Walk α → Option (Walk α)
  | 0,w => if w.stack.isEmpty then some w else none
  | fuel+1,w => if w.stack.isEmpty then some w else run children fuel (w.step children)

def start (root : α) : Walk α := ⟨[(root,0)],1,fun _ => 0,fun _ => 0⟩

end Walk

structure Tree (children : α → List α) (up : α → Option α) (rank : α → Nat) (root : α) : Prop where
  mem : ∀ b c, c ∈ children b ↔ up c = some b
  nodup : ∀ b, (children b).Nodup
  ranked : Ranked up rank
  root : up root = none

/-- The nodes entered: those left, and those on the stack. -/
def visited (stack : List (α × Nat)) (done : List α) : List α := done++stack.map Prod.fst

/-- The state of the walk, with the nodes it has left. -/
structure Inv (children : α → List α) (up : α → Option α) (root : α) (stack : List (α × Nat)) (clock : Nat)
    (pre post : α → Nat) (done : List α) : Prop where
  nodup : (visited stack done).Nodup
  chain : (stack.map Prod.fst).IsChain (fun c b => up c = some b)
  root : root ∈ visited stack done
  parents : ∀ c ∈ visited stack done, ∀ b, up c = some b → b ∈ visited stack done
  left : ∀ b ∈ done, ∀ c ∈ children b, c ∈ visited stack done
  entered : ∀ e ∈ stack, ∀ c ∈ (children e.1).take e.2, c ∈ visited stack done
  ahead : ∀ e ∈ stack, ∀ c ∈ (children e.1).drop e.2, c ∉ visited stack done
  pre_lt : ∀ b ∈ visited stack done, pre b < clock
  post_lt : ∀ b ∈ done, post b < clock
  pre_inj : ∀ a ∈ visited stack done, ∀ b ∈ visited stack done, pre a = pre b → a = b
  onStack : ∀ a ∈ stack.map Prod.fst, ∀ b ∈ visited stack done, Anc up a b ↔ pre a ≤ pre b
  offStack : ∀ a ∈ done, ∀ b ∈ visited stack done,
    Anc up a b ↔ pre a ≤ pre b ∧ b ∈ done ∧ post b ≤ post a

section
variable {children : α → List α} {up : α → Option α} {rank : α → Nat} {root : α} {done : List α}

theorem inv_start (ht : Tree children up rank root) : Inv children up root [(root,0)] 1 (fun _ => 0) (fun _ => 0) [] := by
  have hone : ∀ b, b ∈ visited [(root,0)] [] → b = root := fun b hb => mem_singleton.mp hb
  refine ⟨nodup_singleton root,List.IsChain.singleton root,mem_cons_self,fun c hc b hb => ?_,
    fun b hb => (not_mem_nil hb).elim,fun e he c hc => ?_,fun e he c hc hm => ?_,fun _ _ => Nat.one_pos,
    fun b hb => (not_mem_nil hb).elim,fun a ha b hb _ => (hone a ha).trans (hone b hb).symm,
    fun a ha b hb => ?_,fun b hb => (not_mem_nil hb).elim⟩
  · rw [hone c hc,ht.root] at hb
    cases hb
  · obtain rfl := mem_singleton.mp he
    cases hc
  · obtain rfl := mem_singleton.mp he
    have hup := (ht.mem root c).mp hc
    rw [hone c hm,ht.root] at hup
    cases hup
  rw [hone a ha,hone b hb]
  exact ⟨fun _ => le_rfl,fun _ => .refl root⟩

omit [DecidableEq α] in
theorem anc_of_chain {b x : α} {l : List α} (h : (b::l).IsChain fun c b => up c = some b) (hx : x ∈ b::l) :
    Anc up x b := by
  induction l generalizing b with
  | nil =>
    rw [List.mem_singleton.mp hx]
    exact .refl b
  | cons c l ih =>
    rcases List.mem_cons.mp hx with rfl|hx
    · exact .refl x
    obtain ⟨hup,h⟩ := List.isChain_cons_cons.mp h
    exact .step hup (ih h hx)

omit [DecidableEq α] in
theorem Inv.unentered {stack : List (α × Nat)} {clock : Nat} {pre post : α → Nat}
    (h : Inv children up root stack clock pre post done) {c b : α} (hc : c ∉ visited stack done)
    (hb : b ∈ visited stack done) : ¬ Anc up c b := by
  intro hanc
  induction hanc with
  | refl => exact hc hb
  | step hup _ ih => exact ih (h.parents _ hb _ hup)

section
variable {b c : α} {i : Nat} {rest : List (α × Nat)} {clock : Nat} {pre post : α → Nat}

theorem Inv.enter (ht : Tree children up rank root) (h : Inv children up root ((b,i)::rest) clock pre post done)
    (hc : (children b)[i]? = some c) :
    Inv children up root ((c,0)::(b,i+1)::rest) (clock+1) (update pre c clock) post done := by
  have hdrop : (children b).drop i = c::(children b).drop (i+1) := by
    obtain ⟨hi,hget⟩ := List.getElem?_eq_some_iff.mp hc
    rw [drop_eq_getElem_cons hi,hget]
  have hnew : c ∉ visited ((b,i)::rest) done :=
    h.ahead (b,i) mem_cons_self c (by rw [hdrop]; exact mem_cons_self)
  have hup : up c = some b := (ht.mem b c).mp (mem_of_getElem? hc)
  have hmem : ∀ x, x ∈ visited ((c,0)::(b,i+1)::rest) done ↔
      x = c ∨ x ∈ visited ((b,i)::rest) done := by
    intro x
    simp only [visited,map_cons,mem_append,mem_cons]
    exact or_left_comm
  have hold : ∀ x ∈ visited ((b,i)::rest) done, update pre c clock x = pre x := by
    intro x hx
    exact update_of_ne (ne_of_mem_of_not_mem hx hnew) _ _
  have hself : update pre c clock c = clock := update_self ..
  have hdone : ∀ x ∈ done, x ∈ visited ((b,i)::rest) done :=
    fun x hx => mem_append_left _ hx
  have hstack : ∀ x ∈ b::rest.map fst, x ∈ visited ((b,i)::rest) done :=
    fun x hx => mem_append_right _ hx
  have hb := hstack b mem_cons_self
  refine ⟨nodup_middle.mpr (nodup_cons.mpr ⟨hnew,h.nodup⟩),isChain_cons_cons.mpr ⟨hup,h.chain⟩,
    (hmem root).mpr (.inr h.root),fun x hx y hy => ?_,fun x hx y hy => (hmem y).mpr (.inr (h.left x hx y hy)),
    fun e he x hx => ?_,fun e he x hx hm => ?_,fun x hx => ?_,
    fun x hx => Nat.lt_succ_of_lt (h.post_lt x hx),fun x hx y hy hxy => ?_,fun x hx y hy => ?_,
    fun x hx y hy => ?_⟩
  · refine (hmem y).mpr (.inr ?_)
    rcases (hmem x).mp hx with rfl|hx
    · rw [hup] at hy
      exact some.inj hy ▸ hb
    · exact h.parents x hx y hy
  · refine (hmem x).mpr ?_
    rcases mem_cons.mp he with rfl|he
    · cases hx
    rcases mem_cons.mp he with rfl|he
    · rw [take_add_one,hc] at hx
      rcases mem_append.mp hx with hx|hx
      · exact .inr (h.entered (b,i) mem_cons_self x hx)
      · exact .inl (mem_singleton.mp hx)
    · exact .inr (h.entered e (mem_cons_of_mem _ he) x hx)
  · rcases mem_cons.mp he with rfl|he
    · -- a child of the new node was not entered before
      have hxc := (ht.mem c x).mp hx
      rcases (hmem x).mp hm with rfl|hm
      · have := ht.ranked _ _ hxc
        omega
      · exact hnew (h.parents x hm c hxc)
    rcases mem_cons.mp he with rfl|he'
    · have hnodup := List.Nodup.sublist (drop_sublist i _) (ht.nodup b)
      rw [hdrop] at hnodup
      rcases (hmem x).mp hm with rfl|hm
      · exact (nodup_cons.mp hnodup).1 hx
      · exact h.ahead (b,i) mem_cons_self x (by rw [hdrop]; exact mem_cons_of_mem _ hx) hm
    rcases (hmem x).mp hm with rfl|hm
    · -- the new node has one parent, and that is on the stack once
      have he1 := (ht.mem e.1 x).mp (mem_of_mem_drop hx)
      rw [hup] at he1
      have hnodup := (nodup_append.mp h.nodup).2.1
      have hbe : e.1 ∈ rest.map fst := mem_map_of_mem he'
      rw [← some.inj he1] at hbe
      exact (nodup_cons.mp hnodup).1 hbe
    · exact h.ahead e (mem_cons_of_mem _ he') x hx hm
  · rcases (hmem x).mp hx with rfl|hx'
    · rw [hself]
      exact Nat.lt_succ_self _
    rw [hold x hx']
    exact Nat.lt_succ_of_lt (h.pre_lt x hx')
  · rcases (hmem x).mp hx with rfl|hx'
    · rcases (hmem y).mp hy with rfl|hy'
      · rfl
      have := h.pre_lt y hy'
      rw [hold y hy',hself] at hxy
      exact absurd hxy (Nat.ne_of_gt this)
    rcases (hmem y).mp hy with rfl|hy'
    · have := h.pre_lt x hx'
      rw [hold x hx',hself] at hxy
      exact absurd hxy (Nat.ne_of_lt this)
    rw [hold x hx',hold y hy'] at hxy
    exact h.pre_inj x hx' y hy' hxy
  · rcases mem_cons.mp hx with rfl|hx'
    · rcases (hmem y).mp hy with rfl|hy
      · exact ⟨fun _ => le_rfl,fun _ => .refl y⟩
      rw [hold y hy,hself]
      exact ⟨fun hanc => absurd hanc (h.unentered hnew hy),fun hle =>
        absurd hle (Nat.not_le_of_lt (h.pre_lt y hy))⟩
    rw [hold x (hstack x hx')]
    rcases (hmem y).mp hy with rfl|hy
    · rw [hself]
      exact ⟨fun _ => Nat.le_of_lt (h.pre_lt x (hstack x hx')),fun _ => .step hup (anc_of_chain h.chain hx')⟩
    rw [hold y hy]
    exact h.onStack x hx' y hy
  · rw [hold x (hdone x hx)]
    rcases (hmem y).mp hy with rfl|hy
    · refine ⟨fun hanc => ?_,fun hle => absurd (hdone y hle.2.1) hnew⟩
      -- an ancestor of the new node is one of its parent, which is still on the stack
      obtain ⟨d,hd,hxd⟩ := hanc.strict fun hxy => hnew (hxy ▸ hdone x hx)
      rw [hup] at hd
      obtain rfl := some.inj hd
      have hbdone := ((h.offStack x hx b hb).mp hxd).2.1
      exact absurd rfl ((nodup_append.mp h.nodup).2.2 b hbdone b mem_cons_self)
    rw [hold y hy]
    exact h.offStack x hx y hy

theorem Inv.leave (ht : Tree children up rank root) (h : Inv children up root ((b,i)::rest) clock pre post done)
    (hc : (children b)[i]? = none) :
    Inv children up root rest (clock+1) pre (update post b clock) (done++[b]) := by
  have hsame : visited rest (done++[b]) =
      visited ((b,i)::rest) done := by
    simp [visited]
  have hbdone : b ∉ done := fun hm => (nodup_append.mp h.nodup).2.2 b hm b mem_cons_self rfl
  have hself : update post b clock b = clock := update_self ..
  have hold : ∀ x ∈ done, update post b clock x = post x := fun x hx =>
    update_of_ne (ne_of_mem_of_not_mem hx hbdone) _ _
  have hnew : ∀ x, x ∈ done++[b] ↔ x = b ∨ x ∈ done := by
    intro x
    rw [mem_append,mem_singleton]
    exact or_comm
  refine ⟨hsame ▸ h.nodup,List.IsChain.tail h.chain,hsame ▸ h.root,hsame ▸ h.parents,fun x hx y hy => ?_,
    fun e he => hsame ▸ h.entered e (mem_cons_of_mem _ he),
    fun e he => hsame ▸ h.ahead e (mem_cons_of_mem _ he),
    fun x hx => Nat.lt_succ_of_lt (h.pre_lt x (hsame ▸ hx)),fun x hx => ?_,hsame ▸ h.pre_inj,
    fun x hx => hsame ▸ h.onStack x (mem_cons_of_mem _ hx),fun x hx y hy => ?_⟩
  · rw [hsame]
    rcases (hnew x).mp hx with rfl|hx
    · refine h.entered (x,i) mem_cons_self y ?_
      rw [take_of_length_le (getElem?_eq_none_iff.mp hc)]
      exact hy
    · exact h.left x hx y hy
  · rcases (hnew x).mp hx with rfl|hx
    · rw [hself]
      exact Nat.lt_succ_self _
    rw [hold x hx]
    exact Nat.lt_succ_of_lt (h.post_lt x hx)
  rw [hsame] at hy
  rw [hnew y]
  rcases (hnew x).mp hx with rfl|hx
  · rw [h.onStack x mem_cons_self y hy,hself]
    refine ⟨fun hle => ⟨hle,?_⟩,fun hle => hle.1⟩
    rcases mem_append.mp hy with hyd|hys
    · exact ⟨.inr hyd,hold y hyd ▸ Nat.le_of_lt (h.post_lt y hyd)⟩
    -- the other nodes on the stack are above, and were entered before
    have hyx := anc_of_chain h.chain hys
    have hxy := (h.onStack x mem_cons_self y hy).mpr hle
    obtain rfl := hxy.antisymm ht.ranked hyx
    exact ⟨.inl rfl,Nat.le_of_eq hself⟩
  have hlt := h.post_lt x hx
  rw [hold x hx,h.offStack x hx y hy]
  by_cases hyb : y = b
  · subst hyb
    rw [hself]
    exact ⟨fun hle => absurd hle.2.1 hbdone,fun hle => absurd hle.2.2 (Nat.not_le_of_lt hlt)⟩
  simp only [hyb,false_or]
  refine and_congr_right fun _ => and_congr_right fun hyd => ?_
  rw [hold y hyd]

end

variable {nodes : Finset α}

omit [DecidableEq α] in
theorem length_visited_le {stack : List (α × Nat)} (hnodup : (visited stack done).Nodup)
    (hsub : ∀ x ∈ visited stack done, x ∈ nodes) : (visited stack done).length ≤ nodes.card := by
  classical
  rw [← List.toFinset_card_of_nodup hnodup]
  exact Finset.card_le_card fun x hx => hsub x (List.mem_toFinset.mp hx)

theorem run_ends (ht : Tree children up rank root) (hclosed : ∀ b ∈ nodes, ∀ c ∈ children b, c ∈ nodes)
    {stack : List (α × Nat)} {clock fuel : Nat} {pre post : α → Nat}
    (hsub : ∀ x ∈ visited stack done, x ∈ nodes)
    (hfuel : 2*(nodes.card-(visited stack done).length)+stack.length ≤ fuel)
    (h : Inv children up root stack clock pre post done) :
    ∃ w done', Walk.run children fuel ⟨stack,clock,pre,post⟩ = some w ∧
      Inv children up root [] w.clock w.pre w.post done' := by
  induction fuel generalizing stack clock pre post done with
  | zero =>
    have hnil : stack = [] := length_eq_zero_iff.mp (by omega)
    subst hnil
    exact ⟨_,done,rfl,h⟩
  | succ fuel ih => ?_
  cases stack with
  | nil => exact ⟨_,done,rfl,h⟩
  | cons e rest => ?_
  obtain ⟨b,i⟩ := e
  have hb : b ∈ nodes := hsub b (mem_append_right _ mem_cons_self)
  rw [Walk.run,if_neg (by simp),Walk.step]
  dsimp only
  cases hc : (children b)[i]? with
  | none =>
    have hsame : visited rest (done++[b]) = visited ((b,i)::rest) done := by simp [visited]
    refine ih (hsame ▸ hsub) ?_ (h.leave ht hc)
    rw [hsame]
    rw [length_cons] at hfuel
    omega
  | some c => ?_
  have hcn := hclosed b hb c (mem_of_getElem? hc)
  have hsub' : ∀ x ∈ visited ((c,0)::(b,i+1)::rest) done, x ∈ nodes := by
    intro x hx
    rcases mem_append.mp hx with hx|hx
    · exact hsub x (mem_append_left _ hx)
    rcases mem_cons.mp hx with rfl|hx
    · exact hcn
    · exact hsub x (mem_append_right _ hx)
  have hinv := h.enter ht hc
  have hlen := length_visited_le hinv.nodup hsub'
  refine ih hsub' ?_ hinv
  simp only [visited,length_append,length_map,length_cons] at hfuel hlen ⊢
  omega

theorem run_start (ht : Tree children up rank root) (hclosed : ∀ b ∈ nodes, ∀ c ∈ children b, c ∈ nodes)
    (hroot : root ∈ nodes) {fuel : Nat} (hfuel : 2*nodes.card ≤ fuel) :
    ∃ w, Walk.run children fuel (Walk.start root) = some w ∧
      ∀ a b, Anc up root a → Anc up root b →
        (Anc up a b ↔ w.pre a ≤ w.pre b ∧ w.post b ≤ w.post a) ∧ (w.pre a = w.pre b → a = b) := by
  have hcard := Finset.card_pos.mpr ⟨root,hroot⟩
  have hturns : 2*(nodes.card-(visited [(root,0)] []).length)+[(root,0)].length ≤ fuel := by
    simp only [visited,length_append,length_map,length_cons,length_nil]
    omega
  obtain ⟨w,done,hrun,hinv⟩ := run_ends ht hclosed (fun x hx => by
    rw [mem_singleton.mp hx]
    exact hroot) hturns (inv_start ht)
  have hvisited := append_nil done
  have hall : ∀ b, Anc up root b → b ∈ done := by
    intro b hb
    induction hb with
    | refl => exact hvisited ▸ hinv.root
    | @step b c hup _ ih => exact hvisited ▸ hinv.left c ih b ((ht.mem c b).mpr hup)
  have hentered : ∀ b, Anc up root b → b ∈ visited [] done := fun b hb => mem_append_left _ (hall b hb)
  refine ⟨w,hrun,fun a b ha hb => ⟨?_,hinv.pre_inj a (hentered a ha) b (hentered b hb)⟩⟩
  rw [hinv.offStack a (hall a ha) b (hentered b hb)]
  exact and_congr_right fun _ => and_iff_right (hall b hb)

end
end CratonVM.TreeNumbering
