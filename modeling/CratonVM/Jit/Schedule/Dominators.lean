import CratonVM.Lib.GraphSearch
import CratonVM.Lib.TreeNumbering

/-!
The dominator relation of `jit/src/ir_schedule.rs`: immediate dominators by passes over the reverse
postorder, and a numbering of their tree. Of a block only its edges are kept. A loop that would not
end, and an index that is `UNREACHED`, give `none`.
-/
namespace CratonVM.Jit.Schedule
open DepthFirst TreeNumbering List Finset

structure Block where
  successors : List Nat
  predecessors : List Nat
  deriving DecidableEq, Repr

/-- `none` in `idom` is `UNREACHED`. -/
structure Dominators where
  idom : List (Option Nat)
  pre : List Nat
  post : List Nat
  lastUnreached : Option Nat
  deriving DecidableEq, Repr

def usizeMax : Nat := 2^64-1

def predecessorsOf (blocks : List Block) (b : Nat) : List Nat := (blocks[b]?.map Block.predecessors).getD []

def row (table : List (List Nat)) (b : Nat) : List Nat := table.getD b []

def pushAt (table : List (List Nat)) (p b : Nat) : List (List Nat) := table.modify p (·++[b])

namespace Dominators
def forwardEdges (blocks : List Block) : List (List Nat) :=
  blocks.zipIdx.foldl (fun succs e =>
    e.1.predecessors.foldl (fun succs p => if p < blocks.length then pushAt succs p e.2 else succs) succs)
    (List.replicate blocks.length [])

def reversePostorder (n : Nat) (succs : List (List Nat)) : Option (List Nat) :=
  ((Search.start 0).run (row succs) ((List.range n).map fun b => (row succs b).length+1).sum).map List.reverse

def rpoNumbers (n : Nat) (rpo : List Nat) : List Nat :=
  rpo.zipIdx.foldl (fun table e => table.set e.1 e.2) (List.replicate n usizeMax)

section
variable (idom : List (Option Nat)) (rpoNum : List Nat)

def parent (b : Nat) : Option Nat := idom.getD b none

def num (b : Nat) : Nat := rpoNum.getD b usizeMax

def climb (bound : Nat) : (fuel : Nat) → (a : Nat) → Option Nat
  | 0,a => if num rpoNum a > bound then none else some a
  | fuel+1,a => if num rpoNum a > bound then (parent idom a).bind (climb bound fuel) else some a

def intersectLoop : (fuel : Nat) → (a b : Nat) → Option Nat
  | 0,a,b => if a = b then some a else none
  | fuel+1,a,b =>
    if a = b then some a
    else do
      let a ← climb idom rpoNum (num rpoNum b) idom.length a
      let b ← climb idom rpoNum (num rpoNum a) idom.length b
      intersectLoop fuel a b

def intersect (a b : Nat) : Option Nat := intersectLoop idom rpoNum (2*idom.length) a b

def meetPredecessor (new : Option Nat) (p : Nat) : Option (Option Nat) :=
  if p ≥ idom.length ∨ parent idom p = none then some new
  else
    match new with
    | none => some (some p)
    | some x => (intersect idom rpoNum p x).map some

def newIdom (predecessors : List Nat) : Option (Option Nat) :=
  predecessors.foldlM (meetPredecessor idom rpoNum) none

end

/-- The body of the pass for one block, with the flag `changed`. -/
def refineBlock (blocks : List Block) (rpoNum : List Nat) (st : List (Option Nat) × Bool) (b : Nat) :
    Option (List (Option Nat) × Bool) := do
  let new ← newIdom st.1 rpoNum (predecessorsOf blocks b)
  if new ≠ none ∧ parent st.1 b ≠ new then some (st.1.set b new,true) else some st

def refinePass (blocks : List Block) (rpo rpoNum : List Nat) (idom : List (Option Nat)) :
    Option (List (Option Nat) × Bool) :=
  (rpo.drop 1).foldlM (refineBlock blocks rpoNum) (idom,false)

/-- The loop `while changed`. -/
def refineLoop (blocks : List Block) (rpo rpoNum : List Nat) :
    (fuel : Nat) → List (Option Nat) → Option (List (Option Nat))
  | 0,_ => none
  | fuel+1,idom => do
    let (idom,changed) ← refinePass blocks rpo rpoNum idom
    if changed then refineLoop blocks rpo rpoNum fuel idom else some idom

def treeChildren (idom : List (Option Nat)) (rpo : List Nat) : Option (List (List Nat)) :=
  (rpo.drop 1).foldlM (fun children b => do
    let d ← parent idom b
    some (pushAt children d b)) (List.replicate idom.length [])

def compute (blocks : List Block) : Option Dominators :=
  let n := blocks.length
  if n = 0 then some ⟨[],[],[],none⟩
  else do
    let rpo ← reversePostorder n (forwardEdges blocks)
    let idom := (List.replicate n none).set 0 (some 0)
    let idom ← refineLoop blocks rpo (rpoNumbers n rpo) (n*n+1) idom
    let children ← treeChildren idom rpo
    let walk ← (Walk.start 0).run (row children) (2*n)
    let lastUnreached := (List.range n).reverse.find? fun b => parent idom b = none
    some ⟨idom,(List.range n).map walk.pre,(List.range n).map walk.post,lastUnreached⟩

section
variable (dom : Dominators)

def len : Nat := dom.idom.length

def idomOf (b : Nat) : Option Nat :=
  match dom.idom[b]? with
  | some (some d) => if b ≠ 0 then some d else none
  | _ => none

def isReachable (b : Nat) : Bool :=
  match dom.idom[b]? with
  | some (some _) => true
  | _ => false

def preorder (b : Nat) : Option Nat := if dom.isReachable b then dom.pre[b]? else none

def dominates (a b : Nat) : Bool :=
  match dom.idom[a]?,dom.idom[b]? with
  | some ia,some ib =>
    if ib = none then true
    else if ia = none then false
    else dom.pre.getD a 0 ≤ dom.pre.getD b 0 ∧ dom.post.getD b 0 ≤ dom.post.getD a 0
  | _,_ => false

end
end Dominators

open Dominance DepthFirst
section
variable {table : List (List Nat)} {p q b : Nat}

theorem length_pushAt : (pushAt table p b).length = table.length := List.length_modify ..

theorem row_pushAt : row (pushAt table p b) q = if p = q ∧ q < table.length then row table q++[b] else row table q := by
  unfold row pushAt
  by_cases hq : q < table.length
  · by_cases hpq : p = q
    · simp [hpq,hq]
    · simp [hpq,hq]
  · simp [hq]

theorem row_replicate {n : Nat} : row (List.replicate n []) q = [] := by
  unfold row
  rw [List.getD_eq_getElem?_getD,List.getElem?_replicate]
  split <;> rfl

end

/-- An edge along a predecessor list; entries out of range are no edges. -/
def FlowEdge (blocks : List Block) (p b : Nat) : Prop := p < blocks.length ∧ p ∈ predecessorsOf blocks b

variable {blocks : List Block}

theorem FlowEdge.lt_right {p b : Nat} (h : FlowEdge blocks p b) : b < blocks.length := by
  by_contra hb
  have hnil : predecessorsOf blocks b = [] := by
    unfold predecessorsOf
    rw [List.getElem?_eq_none (by omega)]
    rfl
  have := h.2
  rw [hnil] at this
  cases this

def Reachable (blocks : List Block) (b : Nat) : Prop := Reaches (FlowEdge blocks) 0 b

theorem Reachable.lt (hn : 0 < blocks.length) {b : Nat} (h : Reachable blocks b) : b < blocks.length := by
  obtain ⟨p,hp⟩ := h
  cases hp with
  | root => exact hn
  | step _ he => exact he.lt_right

namespace Dominators
section
variable {n b q x : Nat} {table : List (List Nat)}

theorem mem_row_pushAll {l : List Nat} (hlen : table.length = n) :
    (l.foldl (fun t p => if p < n then pushAt t p b else t) table).length = n ∧
      (x ∈ row (l.foldl (fun t p => if p < n then pushAt t p b else t) table) q ↔
        x ∈ row table q ∨ x = b ∧ q < n ∧ q ∈ l) := by
  induction l generalizing table with
  | nil => simp [hlen]
  | cons p l ih => ?_
  rw [List.foldl_cons]
  by_cases hp : p < n
  · rw [if_pos hp]
    obtain ⟨hlen',hmem⟩ := @ih (pushAt table p b) (length_pushAt.trans hlen)
    refine ⟨hlen',hmem.trans ?_⟩
    rw [row_pushAt,hlen]
    by_cases hpq : p = q
    · subst hpq
      simp only [hp,and_self,if_true,List.mem_append,List.mem_cons,true_or,true_and,and_true]
      tauto
    rw [if_neg (fun h => hpq h.1),List.mem_cons]
    tauto
  rw [if_neg hp]
  obtain ⟨hlen',hmem⟩ := ih hlen
  rw [List.mem_cons]
  have : q < n → q ≠ p := fun hq hqp => hp (hqp ▸ hq)
  tauto

theorem mem_row_edges {l : List (Block × Nat)} (hlen : table.length = n) :
    x ∈ row (l.foldl (fun succs e =>
      e.1.predecessors.foldl (fun t p => if p < n then pushAt t p e.2 else t) succs) table) q ↔
      x ∈ row table q ∨ ∃ e ∈ l, x = e.2 ∧ q < n ∧ q ∈ e.1.predecessors := by
  induction l generalizing table with
  | nil => simp
  | cons e l ih =>
    rw [List.foldl_cons,ih (mem_row_pushAll (x := x) (q := q) hlen).1,(mem_row_pushAll hlen).2,
      List.exists_mem_cons_iff]
    tauto

theorem mem_forwardEdges : x ∈ row (forwardEdges blocks) q ↔ FlowEdge blocks q x := by
  unfold forwardEdges
  rw [mem_row_edges (List.length_replicate ..),row_replicate]
  simp only [List.not_mem_nil,false_or,FlowEdge,predecessorsOf]
  constructor
  · rintro ⟨⟨blk,i⟩,hmem,rfl,hq,hp⟩
    rw [List.mk_mem_zipIdx_iff_getElem?] at hmem
    exact ⟨hq,by rw [hmem]; exact hp⟩
  rintro ⟨hq,hp⟩
  cases hblk : blocks[x]? with
  | none =>
    rw [hblk] at hp
    cases hp
  | some blk =>
    rw [hblk] at hp
    exact ⟨(blk,x),List.mk_mem_zipIdx_iff_getElem?.mpr hblk,rfl,hq,hp⟩

theorem edge_forwardEdges : DepthFirst.Edge (row (forwardEdges blocks)) = FlowEdge blocks := by
  funext p b
  exact propext mem_forwardEdges

end

/-- What the later phases use of the order. -/
structure IsRpo (blocks : List Block) (rpo : List Nat) : Prop where
  nodup : rpo.Nodup
  mem : ∀ b, b ∈ rpo ↔ Reachable blocks b
  entry : ∃ rest, rpo = 0::rest
  after : ∀ l₁ b l₂, rpo = l₁++b::l₂ → b ≠ 0 → ∃ p ∈ l₁, FlowEdge blocks p b

theorem reversePostorder_spec (hn : 0 < blocks.length) :
    ∃ rpo, reversePostorder blocks.length (forwardEdges blocks) = some rpo ∧ IsRpo blocks rpo := by
  have hturns : ∑ b ∈ Finset.range blocks.length, ((row (forwardEdges blocks) b).length+1) ≤
      ((List.range blocks.length).map fun b => (row (forwardEdges blocks) b).length+1).sum := le_rfl
  obtain ⟨l,hrun,hnodup,hled,hmem⟩ := run_start
    (fun b _ c hc => Finset.mem_range.mpr (mem_forwardEdges.mp hc).lt_right) (Finset.mem_range.mpr hn) hturns
  rw [edge_forwardEdges] at hled hmem
  refine ⟨l.reverse,by rw [reversePostorder,hrun]; rfl,List.nodup_reverse.mpr hnodup,
    fun b => List.mem_reverse.trans (hmem b),?_,fun l₁ b l₂ hl hb => ?_⟩
  · obtain ⟨l',rfl⟩ := hled.root_last
    exact ⟨l'.reverse,by simp⟩
  have hl' : l = l₂.reverse++b::l₁.reverse := by
    rw [← List.reverse_reverse l,hl]
    simp
  obtain ⟨p,hp,he⟩ := (hl' ▸ hled).predecessor hb
  exact ⟨p,List.mem_reverse.mp hp,he⟩

section
variable {rpo : List Nat}

theorem getD_setAll {l : List Nat} {k : Nat} {table : List Nat} {b d : Nat} (hnodup : l.Nodup)
    (hlt : ∀ x ∈ l, x < table.length) :
    ((l.zipIdx k).foldl (fun t e => t.set e.1 e.2) table).getD b d =
      if b ∈ l then k+l.idxOf b else table.getD b d := by
  induction l generalizing k table with
  | nil => simp
  | cons x l ih => ?_
  rw [List.zipIdx_cons,List.foldl_cons,ih (List.nodup_cons.mp hnodup).2 (fun y hy => by
    rw [List.length_set]
    exact hlt y (List.mem_cons_of_mem _ hy))]
  by_cases hbx : b = x
  · subst hbx
    have hb := hlt b List.mem_cons_self
    simp [(List.nodup_cons.mp hnodup).1,List.getD_eq_getElem?_getD,hb]
  have hxb := Ne.symm hbx
  by_cases hbl : b ∈ l
  · simp only [hbl,if_true,List.mem_cons,or_true,List.idxOf_cons_ne _ hxb]
    omega
  · simp [hbl,hbx,List.getD_eq_getElem?_getD,List.getElem?_set_ne hxb]

theorem num_rpoNumbers {n b : Nat} (hnodup : rpo.Nodup) (hlt : ∀ x ∈ rpo, x < n) (hb : b ∈ rpo) :
    num (rpoNumbers n rpo) b = rpo.idxOf b := by
  unfold num rpoNumbers
  rw [getD_setAll hnodup (by simpa using hlt),if_pos hb,Nat.zero_add]

/-- A predecessor that comes earlier. -/
def Leads (blocks : List Block) (rpo : List Nat) (b p : Nat) : Prop :=
  p ∈ rpo ∧ FlowEdge blocks p b ∧ rpo.idxOf p < rpo.idxOf b

open Classical in
noncomputable def treeParent (blocks : List Block) (rpo : List Nat) (b : Nat) : Option Nat :=
  if h : ∃ p, Leads blocks rpo b p then some h.choose else none

theorem treeParent_some {b p : Nat} (h : treeParent blocks rpo b = some p) : Leads blocks rpo b p := by
  unfold treeParent at h
  split at h
  · rename_i hex
    exact Option.some.inj h ▸ hex.choose_spec
  · cases h

theorem IsRpo.leads (h : IsRpo blocks rpo) {b : Nat} (hb : b ∈ rpo) (hne : b ≠ 0) : ∃ p, Leads blocks rpo b p := by
  obtain ⟨l₁,l₂,hl⟩ := List.append_of_mem hb
  obtain ⟨p,hp,he⟩ := h.after l₁ b l₂ hl hne
  have hnodup := h.nodup
  rw [hl] at hnodup
  have hbl : b ∉ l₁ := fun hm => (List.nodup_append.mp hnodup).2.2 b hm b List.mem_cons_self rfl
  refine ⟨p,by rw [hl]; exact List.mem_append_left _ hp,he,?_⟩
  rw [hl,List.idxOf_append_of_mem hp,List.idxOf_append_of_notMem hbl,List.idxOf_cons_self]
  exact Nat.lt_of_lt_of_le (List.idxOf_lt_length_of_mem hp) (Nat.le_add_right _ _)

theorem IsRpo.spanning (h : IsRpo blocks rpo) :
    Spanning (FlowEdge blocks) 0 rpo.idxOf (treeParent blocks rpo) := by
  refine ⟨fun b a hab => (treeParent_some hab).2.1,fun b a hab => (treeParent_some hab).2.2,fun b hb hne => ?_,
    fun a b ha hb hab => (List.idxOf_inj ((h.mem a).mpr ha)).mp hab⟩
  have hex := h.leads ((h.mem b).mpr hb) hne
  refine ⟨hex.choose,?_,(h.mem _).mp hex.choose_spec.1⟩
  exact dif_pos hex

end
end Dominators
end CratonVM.Jit.Schedule
