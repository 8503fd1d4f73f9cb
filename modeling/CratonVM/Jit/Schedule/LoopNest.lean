import CratonVM.Jit.Schedule.DominatorsExact

/-!
`loop_nest` of `jit/src/ir_schedule.rs`: the loop depth of every block and the header of its innermost
loop. Natural loops are unioned per header. The marks of one header's walk are a list of blocks.
-/
namespace CratonVM.Jit.Schedule
open Dominance Flood List Option Finset
open Bool hiding and_comm not_or

def u32Max : Nat := 2^32-1

def successorsOf (blocks : List Block) (b : Nat) : List Nat := (blocks[b]?.map Block.successors).getD []

section
variable (blocks : List Block) (dom : Dominators)

def noteLatch (u : Nat) (latches : List (List Nat)) (v : Nat) : List (List Nat) :=
  if v ≥ blocks.length ∨ dom.dominates v u = false then latches
  else if u ∈ row latches v then latches
  else pushAt latches v u

def loopLatches : List (List Nat) :=
  (List.range blocks.length).foldl (fun latches u =>
    if dom.isReachable u = false then latches
    else (successorsOf blocks u).foldl (noteLatch blocks dom u) latches)
    (List.replicate blocks.length [])

def loopBody (latches : List (List Nat)) (v : Nat) : Option (List Nat) := do
  let inLoop ← flood (fun b => (predecessorsOf blocks b).filter (· < blocks.length)) blocks.length
    ((row latches v).foldl push ([],[v]))
  some ((List.range blocks.length).filter (· ∈ inLoop))

def deepen (depth : List Nat) (b : Nat) : List Nat := depth.modify b fun d => min (d+1) u32Max

def addLoop (latches : List (List Nat)) (st : List Nat × List (Nat × List Nat)) (v : Nat) :
    Option (List Nat × List (Nat × List Nat)) :=
  if (row latches v).isEmpty then some st
  else do
    let body ← loopBody blocks latches v
    some (body.foldl deepen st.1,st.2++[(v,body)])

/-- Is `h` a better header than the one found so far? -/
def isBetter (depth : List Nat) (cur : Option Nat) (h : Nat) : Bool :=
  match cur with
  | none => true
  | some cur => depth.getD h 0 > depth.getD cur 0

def chooseInnermost (depth : List Nat) (h : Nat) (innermost : List (Option Nat)) (b : Nat) : List (Option Nat) :=
  if isBetter depth (innermost.getD b none) h then innermost.set b (some h) else innermost

def loopNest : Option (List Nat × List (Option Nat)) := do
  let (depth,members) ← (List.range blocks.length).foldlM (addLoop blocks (loopLatches blocks dom))
    (List.replicate blocks.length 0,[])
  let innermost := members.foldl (fun innermost m => m.2.foldl (chooseInnermost depth m.1) innermost)
    (List.replicate blocks.length none)
  some (depth,innermost)

def loopDepths : Option (List Nat) := (loopNest blocks dom).map Prod.fst

end

open Dominators
variable {blocks : List Block} {dom : Dominators}

/-- The successor and the predecessor lists tell the same edges. -/
def Agree (blocks : List Block) : Prop :=
  ∀ u v, u < blocks.length → v < blocks.length → (v ∈ successorsOf blocks u ↔ u ∈ predecessorsOf blocks v)

instance : DecidablePred Agree := fun blocks =>
  decidable_of_iff (∀ u < blocks.length, ∀ v < blocks.length, v ∈ successorsOf blocks u ↔ u ∈ predecessorsOf blocks v)
    ⟨fun h u v hu hv => h u hu v hv,fun h u hu v hv => h u v hu hv⟩

def LoopHolds (blocks : List Block) (h b : Nat) : Prop := InLoop (FlowEdge blocks) 0 h b

section
variable {table : List (List Nat)} {u v q x : Nat}

theorem noteLatch_spec (u v q x : Nat) (hlen : table.length = blocks.length) :
    (noteLatch blocks dom u table v).length = blocks.length ∧
      (x ∈ row (noteLatch blocks dom u table v) q ↔
        x ∈ row table q ∨ x = u ∧ q = v ∧ q < blocks.length ∧ dom.dominates q u = true) := by
  unfold noteLatch
  split
  · rename_i hskip
    refine ⟨hlen,(or_iff_left ?_).symm⟩
    rintro ⟨-,rfl,hlt,hdom⟩
    rcases hskip with h|h
    · omega
    rw [hdom] at h
    cases h
  rename_i hgo
  obtain ⟨hlt,hdom⟩ := not_or.mp hgo
  rw [Bool.not_eq_false] at hdom
  split
  · rename_i hmem
    refine ⟨hlen,(or_iff_left_of_imp ?_).symm⟩
    rintro ⟨rfl,rfl,-,-⟩
    exact hmem
  refine ⟨length_pushAt.trans hlen,?_⟩
  rw [row_pushAt,hlen]
  by_cases hvq : v = q
  · subst hvq
    rw [if_pos ⟨rfl,by omega⟩,List.mem_append,List.mem_singleton]
    refine or_congr_right ⟨fun h => ⟨h,rfl,by omega,hdom⟩,fun h => h.1⟩
  rw [if_neg (fun h => hvq h.1)]
  refine (or_iff_left ?_).symm
  rintro ⟨-,rfl,-,-⟩
  exact hvq rfl

theorem foldl_noteLatch_spec (u q x : Nat) (l : List Nat) (hlen : table.length = blocks.length) :
    (l.foldl (noteLatch blocks dom u) table).length = blocks.length ∧
      (x ∈ row (l.foldl (noteLatch blocks dom u) table) q ↔
        x ∈ row table q ∨ x = u ∧ q ∈ l ∧ q < blocks.length ∧ dom.dominates q u = true) := by
  induction l generalizing table with
  | nil => simp [hlen]
  | cons v l ih => ?_
  rw [List.foldl_cons]
  have hstep := @noteLatch_spec blocks dom table u v q x hlen
  obtain ⟨hlen',hmem⟩ := ih hstep.1
  refine ⟨hlen',hmem.trans ?_⟩
  rw [hstep.2,List.mem_cons]
  constructor
  · rintro ((h|⟨hx,rfl,h⟩)|⟨hx,hq,h⟩)
    · exact .inl h
    · exact .inr ⟨hx,.inl rfl,h⟩
    · exact .inr ⟨hx,.inr hq,h⟩
  rintro (h|⟨hx,rfl|hq,h⟩)
  · exact .inl (.inl h)
  · exact .inl (.inr ⟨hx,rfl,h⟩)
  · exact .inr ⟨hx,hq,h⟩

theorem foldl_latches_spec {l : List Nat} (hlen : table.length = blocks.length) :
    x ∈ row (l.foldl (fun latches u =>
      if dom.isReachable u = false then latches
      else (successorsOf blocks u).foldl (noteLatch blocks dom u) latches) table) q ↔
      x ∈ row table q ∨ x ∈ l ∧ dom.isReachable x = true ∧ q ∈ successorsOf blocks x ∧ q < blocks.length ∧
        dom.dominates q x = true := by
  induction l generalizing table with
  | nil => simp
  | cons u l ih => ?_
  rw [List.foldl_cons]
  by_cases hu : dom.isReachable u = false
  · rw [if_pos hu,ih hlen,List.mem_cons]
    have hno : x = u → ¬ dom.isReachable x = true := by
      rintro rfl h
      rw [h] at hu
      cases hu
    tauto
  rw [if_neg hu]
  rw [Bool.not_eq_false] at hu
  obtain ⟨hlen',hmem⟩ := @foldl_noteLatch_spec blocks dom table u q x (successorsOf blocks u) hlen
  rw [ih hlen',hmem,List.mem_cons]
  constructor
  · rintro ((h|⟨rfl,h⟩)|⟨h,h'⟩)
    · exact .inl h
    · exact .inr ⟨.inl rfl,hu,h⟩
    · exact .inr ⟨.inr h,h'⟩
  rintro (h|⟨rfl|h,h'⟩)
  · exact .inl (.inl h)
  · exact .inl (.inr ⟨rfl,h'.2⟩)
  · exact .inr ⟨h,h'⟩

theorem mem_loopLatches (hagree : Agree blocks) (hdom : Exact blocks dom) :
    u ∈ row (loopLatches blocks dom) v ↔ Latch (FlowEdge blocks) 0 v u := by
  unfold loopLatches
  rw [foldl_latches_spec (List.length_replicate ..),row_replicate,List.mem_range,hdom.reachable,hdom.dominates]
  constructor
  · rintro (h|⟨hu,⟨-,hreach⟩,hsucc,hv,-,-,hd⟩)
    · cases h
    · exact ⟨⟨hu,(hagree u v hu hv).mp hsucc⟩,hreach,hd hreach⟩
  intro h
  have hu := h.edge.1
  have hv := h.edge.lt_right
  exact .inr ⟨hu,⟨hu,h.reach⟩,(hagree u v hu hv).mpr h.edge.2,hv,hv,hu,fun _ => h.dom⟩

theorem isEmpty_loopLatches (hagree : Agree blocks) (hdom : Exact blocks dom) :
    (row (loopLatches blocks dom) v).isEmpty = false ↔ Dominance.Header (FlowEdge blocks) 0 v := by
  rw [← Bool.not_eq_true,List.isEmpty_iff,Dominance.Header]
  constructor
  · intro hne
    obtain ⟨u,hu⟩ := List.exists_mem_of_ne_nil _ hne
    exact ⟨u,(mem_loopLatches hagree hdom).mp hu⟩
  rintro ⟨u,hu⟩ hnil
  have := (mem_loopLatches hagree hdom).mpr hu
  rw [hnil] at this
  cases this

end

theorem loopBody_spec (hagree : Agree blocks) (hdom : Exact blocks dom) {v : Nat}
    (hv : Dominance.Header (FlowEdge blocks) 0 v) :
    ∃ body, loopBody blocks (loopLatches blocks dom) v = some body ∧ body.Nodup ∧ ∀ b, b ∈ body ↔ LoopHolds blocks v b := by
  have hlt : v < blocks.length := by
    obtain ⟨u,hu⟩ := hv
    exact hu.edge.lt_right
  have hlatch : ∀ u ∈ row (loopLatches blocks dom) v, Latch (FlowEdge blocks) 0 v u := fun u hu =>
    (mem_loopLatches hagree hdom).mp hu
  have hnext : ∀ b c, c ∈ (predecessorsOf blocks b).filter (· < blocks.length) ↔ FlowEdge blocks c b := by
    intro b c
    rw [List.mem_filter,decide_eq_true_eq,FlowEdge,and_comm]
  have hstart : ∀ x, x ∈ ((row (loopLatches blocks dom) v).foldl push ([],[v])).2 ↔
      x = v ∨ x ∈ row (loopLatches blocks dom) v := by
    intro x
    rw [mem_foldl_push,List.mem_singleton]
  have hstack : ∀ x, x ∈ ((row (loopLatches blocks dom) v).foldl push ([],[v])).1 ↔
      x ∈ row (loopLatches blocks dom) v ∧ x ≠ v := by
    intro x
    rw [stack_foldl_push,List.mem_singleton]
    simp
  have hturns : turns (Finset.range blocks.length) ((row (loopLatches blocks dom) v).foldl push ([],[v])) ≤
      blocks.length := by
    refine Nat.le_trans (turns_foldl_push fun u hu => Finset.mem_range.mpr (hlatch u hu).edge.1) ?_
    rw [turns,List.length_nil,Nat.add_zero]
    exact (Finset.card_filter_le _ _).trans_eq (Finset.card_range _)
  obtain ⟨out,hout⟩ := flood_ends
    (fun b _ c hc => Finset.mem_range.mpr ((hnext b c).mp hc).1)
    (fun b hb => Finset.mem_range.mpr (hlatch b ((hstack b).mp hb).1).edge.1) hturns
  have hspread : Spread (fun b => (predecessorsOf blocks b).filter (· < blocks.length)) (· = v)
      ((row (loopLatches blocks dom) v).foldl push ([],[v])) := by
    intro x hx
    by_cases hxv : x = v
    · exact .inr (.inl hxv)
    · exact .inl ((hstack x).mpr ⟨((hstart x).mp hx).resolve_left hxv,hxv⟩)
  obtain ⟨hsub,hclosed⟩ := flood_closed hspread hout
  have hseed : ∀ u, Latch (FlowEdge blocks) 0 v u → u ≠ v → Feeds (FlowEdge blocks) 0 v u := by
    intro u hu hne
    refine ⟨u,hu,[u],.root,fun hm => hne (List.mem_singleton.mp hm).symm⟩
  have hleast : ∀ x ∈ out, x = v ∨ Feeds (FlowEdge blocks) 0 v x := flood_least
    (fun x hx => by
      by_cases hxv : x = v
      · exact .inl hxv
      · exact .inr (hseed x (hlatch x (((hstart x).mp hx).resolve_left hxv)) hxv))
    (fun x hx => hseed x (hlatch x ((hstack x).mp hx).1) ((hstack x).mp hx).2)
    (fun x hx c hc => by
      by_cases hcv : c = v
      · exact .inl hcv
      refine .inr (hx.prepend (Path.root.step ((hnext x c).mp hc)) fun hm => ?_)
      rcases List.mem_cons.mp hm with h|h
      · exact hx.ne h.symm
      · exact hcv (List.mem_singleton.mp h).symm)
    (fun x hx => (hstart x).mpr (.inl hx)) hout
  -- a walk to a latch, read from its end
  have hpath : ∀ {x p u}, Path (FlowEdge blocks) x p u → v ∉ p → u ∈ out → x ∈ out := by
    intro x p u hp
    induction hp with
    | root => exact fun _ hu => hu
    | @step p a b _ he ih =>
      intro hmiss hb
      rw [List.mem_cons,not_or] at hmiss
      exact ih hmiss.2 ((hclosed b hb).resolve_left (Ne.symm hmiss.1) a ((hnext b a).mpr he))
  refine ⟨(List.range blocks.length).filter (· ∈ out),by rw [loopBody,hout]; rfl,List.nodup_range.filter _,fun b => ?_⟩
  rw [List.mem_filter,List.mem_range,decide_eq_true_eq]
  constructor
  · rintro ⟨-,hb⟩
    exact ⟨hv,hleast b hb⟩
  rintro ⟨-,rfl|⟨u,hu,p,hp,hmiss⟩⟩
  · exact ⟨hlt,hsub b ((hstart b).mpr (.inl rfl))⟩
  refine ⟨?_,hpath hp hmiss (hsub u ((hstart u).mpr (.inr ((mem_loopLatches hagree hdom).mpr hu))))⟩
  have hedge := hu.edge.1
  clear hmiss hu
  induction hp with
  | root => exact hedge
  | step _ he ih => exact ih he.1

section
variable {depth : List Nat} {b : Nat}

theorem length_foldl_deepen {body : List Nat} : (body.foldl deepen depth).length = depth.length := by
  induction body generalizing depth with
  | nil => rfl
  | cons c body ih => rw [List.foldl_cons,ih,deepen,List.length_modify]

theorem getD_foldl_deepen {body : List Nat} (hnodup : body.Nodup) (hb : b < depth.length) :
    (body.foldl deepen depth).getD b 0 = if b ∈ body then min (depth.getD b 0+1) u32Max else depth.getD b 0 := by
  induction body generalizing depth with
  | nil => rfl
  | cons c body ih => ?_
  obtain ⟨hc,hnodup⟩ := List.nodup_cons.mp hnodup
  rw [List.foldl_cons,ih hnodup (by rw [deepen,List.length_modify]; exact hb)]
  have hget : (deepen depth c).getD b 0 = if c = b then min (depth.getD b 0+1) u32Max else depth.getD b 0 := by
    unfold deepen
    rw [List.getD_eq_getElem?_getD,List.getD_eq_getElem?_getD,List.getElem?_modify,List.getElem?_eq_getElem hb]
    split <;> rfl
  rw [hget]
  by_cases hbc : c = b
  · subst hbc
    simp [hc]
  have hbc' := Ne.symm hbc
  simp [hbc,hbc']

open Classical in
noncomputable def loopCount (blocks : List Block) (headers : List Nat) (b : Nat) : Nat :=
  (headers.filter fun h => decide (LoopHolds blocks h b)).length

theorem foldlM_addLoop (hagree : Agree blocks) (hdom : Exact blocks dom) {l : List Nat}
    {members : List (Nat × List Nat)} (hlen : depth.length = blocks.length)
    (hmax : ∀ b < blocks.length, depth.getD b 0 ≤ u32Max) :
    ∃ depth' added, l.foldlM (addLoop blocks (loopLatches blocks dom)) (depth,members) = some (depth',members++added) ∧
      depth'.length = blocks.length ∧
      (∀ b < blocks.length, depth'.getD b 0 = min (depth.getD b 0+loopCount blocks l b) u32Max) ∧
      (∀ m ∈ added, ∀ b, b ∈ m.2 ↔ LoopHolds blocks m.1 b) ∧
      ∀ v ∈ l, Dominance.Header (FlowEdge blocks) 0 v → ∃ body, (v,body) ∈ added := by
  induction l generalizing depth members with
  | nil =>
    refine ⟨depth,[],by rw [List.append_nil]; rfl,hlen,fun b hb => ?_,fun m hm => absurd hm List.not_mem_nil,
      fun v hv => absurd hv List.not_mem_nil⟩
    have := hmax b hb
    simp only [loopCount,List.filter_nil,List.length_nil]
    omega
  | cons v l ih => ?_
  rw [List.foldlM_cons,addLoop]
  by_cases hv : Dominance.Header (FlowEdge blocks) 0 v
  · have hlatch := (isEmpty_loopLatches hagree hdom).mpr hv
    obtain ⟨body,hbody,hnodup,hmem⟩ := loopBody_spec hagree hdom hv
    rw [hlatch,if_neg Bool.false_ne_true,hbody]
    dsimp only [Option.bind_eq_bind,Option.bind_some]
    have hget : ∀ b < blocks.length, (body.foldl deepen depth).getD b 0 =
        if b ∈ body then min (depth.getD b 0+1) u32Max else depth.getD b 0 := fun b hb =>
      getD_foldl_deepen hnodup (hlen ▸ hb)
    obtain ⟨depth',added,hrun,hlen',hcount,hbodies,hheaders⟩ := @ih (body.foldl deepen depth)
      (members++[(v,body)]) (length_foldl_deepen.trans hlen) (fun b hb => by
        have := hmax b hb
        rw [hget b hb]
        split <;> omega)
    refine ⟨depth',(v,body)::added,?_,hlen',fun b hb => ?_,?_,?_⟩
    · rw [hrun,List.append_assoc]
      rfl
    · rw [hcount b hb,hget b hb]
      unfold loopCount
      rw [List.filter_cons]
      by_cases hin : LoopHolds blocks v b
      · rw [if_pos ((hmem b).mpr hin),if_pos (by simpa using hin),List.length_cons]
        omega
      · rw [if_neg (fun h => hin ((hmem b).mp h)),if_neg (by simpa using hin)]
    · intro m hm
      rcases List.mem_cons.mp hm with rfl|hm
      · exact hmem
      · exact hbodies m hm
    intro w hw hheader
    rcases List.mem_cons.mp hw with rfl|hw
    · exact ⟨body,List.mem_cons_self⟩
    obtain ⟨body',hbody'⟩ := hheaders w hw hheader
    exact ⟨body',List.mem_cons_of_mem _ hbody'⟩
  · have hlatch : (row (loopLatches blocks dom) v).isEmpty = true := by
      rw [← Bool.not_eq_false,isEmpty_loopLatches hagree hdom]
      exact hv
    rw [hlatch,if_pos rfl]
    obtain ⟨depth',added,hrun,hlen',hcount,hbodies,hheaders⟩ := @ih depth members hlen hmax
    refine ⟨depth',added,hrun,hlen',fun b hb => ?_,hbodies,fun w hw hheader => ?_⟩
    · have hnot : ¬ LoopHolds blocks v b := fun h => hv h.1
      rw [hcount b hb]
      unfold loopCount
      rw [List.filter_cons,if_neg (by simpa using hnot)]
    rcases List.mem_cons.mp hw with rfl|hw
    · exact absurd hheader hv
    · exact hheaders w hw hheader

end

section
variable {depth : List Nat} {innermost : List (Option Nat)} {b h : Nat}

/-- The choice that one header makes for one block. -/
def deeper (depth : List Nat) (cur : Option Nat) (h : Nat) : Option Nat :=
  if isBetter depth cur h then some h else cur

theorem isBetter_some {c : Nat} : isBetter depth (some c) h = true ↔ depth.getD h 0 > depth.getD c 0 :=
  decide_eq_true_iff

theorem length_choose {c : Nat} : (chooseInnermost depth h innermost c).length = innermost.length := by
  unfold chooseInnermost
  split
  · exact List.length_set ..
  · rfl

theorem length_foldl_choose {body : List Nat} :
    (body.foldl (chooseInnermost depth h) innermost).length = innermost.length := by
  induction body generalizing innermost with
  | nil => rfl
  | cons c body ih => rw [List.foldl_cons,ih,length_choose]

theorem getD_choose {c : Nat} (hb : b < innermost.length) :
    (chooseInnermost depth h innermost c).getD b none =
      if c = b then deeper depth (innermost.getD b none) h else innermost.getD b none := by
  have hset : ∀ x, (innermost.set c x).getD b none = if c = b then x else innermost.getD b none := by
    intro x
    rw [List.getD_eq_getElem?_getD,List.getD_eq_getElem?_getD,List.getElem?_set]
    by_cases hcb : c = b
    · simp [hcb,hb]
    · simp [hcb]
  unfold chooseInnermost deeper
  by_cases hcb : c = b
  · subst hcb
    rw [if_pos rfl]
    split
    · rw [hset,if_pos rfl]
    · rfl
  rw [if_neg hcb]
  split
  · rw [hset,if_neg hcb]
  · rfl

theorem deeper_self (cur : Option Nat) : deeper depth (deeper depth cur h) h = deeper depth cur h := by
  unfold deeper
  by_cases hbetter : isBetter depth cur h = true
  · rw [if_pos hbetter]
    exact ite_self _
  · rw [if_neg hbetter,if_neg hbetter]

theorem getD_foldl_choose {body : List Nat} (hb : b < innermost.length) :
    (body.foldl (chooseInnermost depth h) innermost).getD b none =
      if b ∈ body then deeper depth (innermost.getD b none) h else innermost.getD b none := by
  induction body generalizing innermost with
  | nil => rfl
  | cons c body ih => ?_
  rw [List.foldl_cons,ih (by rw [length_choose]; exact hb),getD_choose hb]
  by_cases hcb : c = b
  · subst hcb
    simp [deeper_self]
  have hbc := Ne.symm hcb
  simp [hcb,hbc]

/-- The deepest header among those whose loop holds the block. -/
def Deepest (depth : List Nat) (members : List (Nat × List Nat)) (b : Nat) (cur : Option Nat) : Prop :=
  match cur with
  | none => ∀ m ∈ members, b ∉ m.2
  | some h => (∃ m ∈ members, m.1 = h ∧ b ∈ m.2) ∧ ∀ m ∈ members, b ∈ m.2 → depth.getD m.1 0 ≤ depth.getD h 0

theorem length_foldl_members {members : List (Nat × List Nat)} :
    (members.foldl (fun innermost m => m.2.foldl (chooseInnermost depth m.1) innermost) innermost).length =
      innermost.length := by
  induction members generalizing innermost with
  | nil => rfl
  | cons m members ih => rw [List.foldl_cons,ih,length_foldl_choose]

theorem deepest_foldl {members done : List (Nat × List Nat)} (hb : b < innermost.length)
    (hdone : Deepest depth done b (innermost.getD b none)) :
    Deepest depth (done++members) b
      ((members.foldl (fun innermost m => m.2.foldl (chooseInnermost depth m.1) innermost) innermost).getD b none) := by
  induction members generalizing done innermost with
  | nil =>
    rw [List.append_nil]
    exact hdone
  | cons m members ih => ?_
  have happ : done++m::members = (done++[m])++members := by simp
  rw [happ,List.foldl_cons]
  have hstep : Deepest depth (done++[m]) b ((m.2.foldl (chooseInnermost depth m.1) innermost).getD b none) := by
    rw [getD_foldl_choose hb]
    by_cases hbm : b ∈ m.2
    · rw [if_pos hbm]
      cases hcur : innermost.getD b none with
      | none =>
        rw [hcur] at hdone
        refine ⟨⟨m,by simp,rfl,hbm⟩,fun k hk hbk => ?_⟩
        rcases List.mem_append.mp hk with hk|hk
        · exact absurd hbk (hdone k hk)
        · rw [List.mem_singleton.mp hk]
      | some c => ?_
      rw [hcur] at hdone
      obtain ⟨⟨k,hk,hkc,hbk⟩,hmax⟩ := hdone
      unfold deeper
      split
      · rename_i hbetter
        have hgt := isBetter_some.mp hbetter
        refine ⟨⟨m,by simp,rfl,hbm⟩,fun k' hk' hbk' => ?_⟩
        rcases List.mem_append.mp hk' with hk'|hk'
        · have := hmax k' hk' hbk'
          omega
        · rw [List.mem_singleton.mp hk']
      rename_i hnot
      have hle := mt isBetter_some.mpr hnot
      refine ⟨⟨k,List.mem_append_left _ hk,hkc,hbk⟩,fun k' hk' hbk' => ?_⟩
      rcases List.mem_append.mp hk' with hk'|hk'
      · exact hmax k' hk' hbk'
      rw [List.mem_singleton.mp hk']
      omega
    · rw [if_neg hbm]
      cases hcur : innermost.getD b none with
      | none =>
        rw [hcur] at hdone
        intro k hk
        rcases List.mem_append.mp hk with hk|hk
        · exact hdone k hk
        rw [List.mem_singleton.mp hk]
        exact hbm
      | some c => ?_
      rw [hcur] at hdone
      obtain ⟨⟨k,hk,hkc,hbk⟩,hmax⟩ := hdone
      refine ⟨⟨k,List.mem_append_left _ hk,hkc,hbk⟩,fun k' hk' hbk' => ?_⟩
      rcases List.mem_append.mp hk' with hk'|hk'
      · exact hmax k' hk' hbk'
      rw [List.mem_singleton.mp hk'] at hbk'
      exact absurd hbk' hbm
  exact ih (by rw [length_foldl_choose]; exact hb) hstep

end

theorem loopCount_lt {h₁ h₂ b : Nat} (hb : Reachable blocks b) (hne : h₁ ≠ h₂) (hdom : DominatesAll blocks h₁ h₂)
    (h1 : LoopHolds blocks h₁ b) (h2 : LoopHolds blocks h₂ b) {n : Nat} (hn : h₂ < n) :
    loopCount blocks (List.range n) h₁ < loopCount blocks (List.range n) h₂ := by
  classical
  unfold loopCount
  have hsub : ∀ h ∈ (List.range n).filter (fun h => decide (LoopHolds blocks h h₁)),
      h ∈ ((List.range n).filter (fun h => decide (LoopHolds blocks h h₂))).erase h₂ := by
    intro h hh
    rw [List.mem_filter,decide_eq_true_eq] at hh
    refine (List.mem_erase_of_ne ?_).mpr (List.mem_filter.mpr ⟨hh.1,decide_eq_true (InLoop.around hb hne hdom h1 h2 hh.2)⟩)
    rintro rfl
    exact InLoop.not_upper hne hdom hh.2
  have hmem : h₂ ∈ (List.range n).filter (fun h => decide (LoopHolds blocks h h₂)) :=
    List.mem_filter.mpr ⟨List.mem_range.mpr hn,decide_eq_true h2.1.inLoop⟩
  have hle := (List.nodup_range.filter _).subperm hsub |>.length_le
  have hlen := List.length_erase_of_mem hmem
  have hpos := List.length_pos_of_mem hmem
  omega

structure NestedAt (blocks : List Block) (depth : List Nat) (innermost : List (Option Nat)) (b : Nat) : Prop where
  counts : ∃ headers : Finset Nat, (∀ h, h ∈ headers ↔ LoopHolds blocks h b) ∧ depth[b]? = some headers.card
  ordered : ∀ h₁ h₂, LoopHolds blocks h₁ b → LoopHolds blocks h₂ b →
    (∀ x, LoopHolds blocks h₁ x → LoopHolds blocks h₂ x) ∨ ∀ x, LoopHolds blocks h₂ x → LoopHolds blocks h₁ x
  outside : innermost[b]? = some none ↔ ∀ h, ¬ LoopHolds blocks h b
  smallest : ∀ h, innermost[b]? = some (some h) → LoopHolds blocks h b ∧
    ∀ h', LoopHolds blocks h' b → h' ≠ h →
      (∀ x, LoopHolds blocks h x → LoopHolds blocks h' x) ∧ ¬ LoopHolds blocks h h'

/-- The depth of a reachable block counts the loops that hold it, these loops are nested, and the innermost
header is that of the smallest. -/
theorem loop_nest_exact (blocks : List Block) (hagree : Agree blocks) (hsize : blocks.length ≤ u32Max)
    (dom : Dominators) (hdom : compute blocks = some dom) :
    ∃ depth innermost, loopNest blocks dom = some (depth,innermost) ∧
      depth.length = blocks.length ∧ innermost.length = blocks.length ∧
      ∀ b, b < blocks.length → Reachable blocks b → NestedAt blocks depth innermost b := by
  obtain ⟨dom',hdom',hexact⟩ := compute_exact blocks
  obtain rfl := Option.some.inj (hdom.symm.trans hdom')
  have hzero : ∀ b < blocks.length, (List.replicate blocks.length 0).getD b 0 = 0 := by
    intro b hb
    rw [List.getD_eq_getElem?_getD,List.getElem?_replicate,if_pos hb]
    rfl
  obtain ⟨depth,members,hrun,hlen,hcount,hbodies,hheaders⟩ := @foldlM_addLoop blocks dom
    (List.replicate blocks.length 0) hagree hexact (List.range blocks.length) [] (List.length_replicate ..)
    (fun b hb => by rw [hzero b hb]; exact Nat.zero_le _)
  have hheader : ∀ {h b}, LoopHolds blocks h b → h < blocks.length := by
    rintro h b ⟨⟨u,hu⟩,-⟩
    exact hu.edge.lt_right
  have hdepth : ∀ b < blocks.length, depth.getD b 0 = loopCount blocks (List.range blocks.length) b := by
    intro b hb
    have hle : loopCount blocks (List.range blocks.length) b ≤ (List.range blocks.length).length :=
      List.length_filter_le _ _
    rw [List.length_range] at hle
    rw [hcount b hb,hzero b hb]
    omega
  refine ⟨depth,members.foldl (fun innermost m => m.2.foldl (chooseInnermost depth m.1) innermost)
    (List.replicate blocks.length none),?_,hlen,?_,fun b hb hreach => ?_⟩
  · unfold loopNest
    rw [hrun]
    rfl
  · rw [length_foldl_members,List.length_replicate]
  have hstart : Deepest depth [] b ((List.replicate blocks.length none).getD b none) := by
    rw [List.getD_eq_getElem?_getD,List.getElem?_replicate,if_pos hb]
    exact fun m hm => absurd hm List.not_mem_nil
  have hdeep := @deepest_foldl depth (List.replicate blocks.length none) b members []
    (by rw [List.length_replicate]; exact hb) hstart
  have hilen : (members.foldl (fun innermost m => m.2.foldl (chooseInnermost depth m.1) innermost)
      (List.replicate blocks.length none)).length = blocks.length := by
    rw [length_foldl_members,List.length_replicate]
  generalize hin : members.foldl (fun innermost m => m.2.foldl (chooseInnermost depth m.1) innermost)
    (List.replicate blocks.length none) = innermost at hilen hdeep
  have hget : innermost[b]? = some (innermost.getD b none) := by
    rw [List.getD_eq_getElem?_getD,List.getElem?_eq_getElem (hilen ▸ hb)]
    rfl
  have hmember : ∀ {h}, LoopHolds blocks h b → ∃ m ∈ members, m.1 = h ∧ b ∈ m.2 := by
    intro h hh
    obtain ⟨body,hbody⟩ := hheaders h (List.mem_range.mpr (hheader hh)) hh.1
    exact ⟨_,hbody,rfl,(hbodies _ hbody b).mpr hh⟩
  refine ⟨?_,fun h₁ h₂ => InLoop.linear hreach,?_,fun h hh => ?_⟩
  · classical
    refine ⟨((List.range blocks.length).filter fun h => decide (LoopHolds blocks h b)).toFinset,fun h => ?_,?_⟩
    · rw [List.mem_toFinset,List.mem_filter,List.mem_range,decide_eq_true_eq]
      exact ⟨fun hh => hh.2,fun hh => ⟨hheader hh,hh⟩⟩
    rw [List.toFinset_card_of_nodup (List.nodup_range.filter _)]
    have hd := hdepth b hb
    rw [List.getD_eq_getElem?_getD,List.getElem?_eq_getElem (hlen ▸ hb)] at hd
    rw [List.getElem?_eq_getElem (hlen ▸ hb)]
    exact congrArg some hd
  · rw [hget,Option.some_inj]
    constructor
    · intro hnone h hh
      rw [hnone] at hdeep
      obtain ⟨m,hm,-,hbm⟩ := hmember hh
      exact hdeep m hm hbm
    intro hno
    cases hcur : innermost.getD b none with
    | none => rfl
    | some h =>
      rw [hcur] at hdeep
      obtain ⟨⟨m,hm,-,hbm⟩,-⟩ := hdeep
      exact absurd ((hbodies m hm b).mp hbm) (hno m.1)
  rw [hget,Option.some_inj] at hh
  rw [hh] at hdeep
  obtain ⟨⟨m,hm,rfl,hbm⟩,hmax⟩ := hdeep
  have hholds := (hbodies m hm b).mp hbm
  refine ⟨hholds,fun h' hh' hne => ?_⟩
  obtain ⟨m',hm',rfl,hbm'⟩ := hmember hh'
  have hle := hmax m' hm' hbm'
  rw [hdepth _ (hheader hh'),hdepth _ (hheader hholds)] at hle
  rcases Dom.linear hreach hholds.dom hh'.dom with hd|hd
  · -- the other header would be the deeper one
    have hlt := loopCount_lt hreach (Ne.symm hne) hd hholds hh' (hheader hh')
    omega
  · exact ⟨fun x hx => InLoop.nested hreach hne hd hh' hholds hx,InLoop.not_upper hne hd⟩

/-- Two nested loops, the inner one a block that is its own latch, beside an unreachable block that
jumps into the inner loop. -/
def nestedLoops : List Block :=
  [⟨[1],[]⟩,⟨[2,3],[0,2]⟩,⟨[1,2],[1,2,4]⟩,⟨[],[1]⟩,⟨[2],[]⟩]

theorem loop_nest_exact_nestedLoops : Agree nestedLoops ∧ nestedLoops.length ≤ u32Max ∧
    ∃ dom, compute nestedLoops = some dom ∧
      loopNest nestedLoops dom = some ([0,1,2,0,1],[none,some 1,some 2,none,some 1]) ∧
      ∀ b, b < nestedLoops.length → Reachable nestedLoops b →
        NestedAt nestedLoops [0,1,2,0,1] [none,some 1,some 2,none,some 1] b := by
  have hagree : Agree nestedLoops := by decide
  have hsize : nestedLoops.length ≤ u32Max := by decide
  have hrun : (compute nestedLoops).bind (loopNest nestedLoops) =
      some ([0,1,2,0,1],[none,some 1,some 2,none,some 1]) := by decide +kernel
  obtain ⟨dom,hdom,hnest⟩ := Option.bind_eq_some_iff.mp hrun
  obtain ⟨depth,innermost,hrun',-,-,hat⟩ := loop_nest_exact nestedLoops hagree hsize dom hdom
  rw [hnest] at hrun'
  obtain ⟨rfl,rfl⟩ := Prod.mk.inj (Option.some.inj hrun')
  exact ⟨hagree,hsize,dom,hdom,hnest,hat⟩

end CratonVM.Jit.Schedule
