import CratonVM.Jit.Liveness.Core
import CratonVM.Lib.Dataflow
import CratonVM.Lib.GraphSearch

/-!
The drivers of the backward fixed point: a run that reports convergence has computed the least
solution, whatever the driver.
-/
namespace CratonVM.Jit.Liveness
open BitRows GenKill
open List hiding get set

/-- As many rows as blocks, each of the same width. -/
structure Shaped (nb words : Nat) (rows : List Row) : Prop where
  length : rows.length = nb
  width : ∀ b, b < nb → (rowOf rows b).length = words

theorem rowOf_set {rows : List Row} {b : Nat} (hb : b < rows.length) (row : Row) (c : Nat) :
    rowOf (rows.set b row) c = if c = b then row else rowOf rows c := by
  simp only [rowOf,getD_eq_getElem?_getD,getElem?_set]
  by_cases hcb : c = b
  · subst hcb
    simp [hb]
  · simp [hcb,Ne.symm hcb]

theorem Shaped.set {nb words b : Nat} {rows : List Row} {row : Row} (h : Shaped nb words rows)
    (hb : b < nb) (hrow : row.length = words) : Shaped nb words (rows.set b row) := by
  refine ⟨by simp [h.length],fun c hc => ?_⟩
  rw [rowOf_set (h.length ▸ hb)]
  split
  · exact hrow
  · exact h.width c hc

theorem shaped_replicate (nb words : Nat) :
    Shaped nb words (replicate nb (empty words)) := by
  refine ⟨by simp,fun b hb => ?_⟩
  simp [rowOf,getD_eq_getElem?_getD,hb]

structure FixedPointSets.Shapes (sets : FixedPointSets) : Prop where
  phiOut : Shaped sets.nb sets.words sets.phiOut
  uses : Shaped sets.nb sets.words sets.uses
  defs : Shaped sets.nb sets.words sets.defs

structure LiveSets.Shapes (nb words : Nat) (st : LiveSets) : Prop where
  li : Shaped nb words st.li
  lout : Shaped nb words st.lout

section
variable (succ : Nat → List Nat) (sets : FixedPointSets)

def problem : Problem Nat Nat where
  next b s := s ∈ succ b ∧ s < sets.nb
  gen b k := get (rowOf sets.uses b) k = true
  kill b k := get (rowOf sets.defs b) k = true
  edge b k := get (rowOf sets.phiOut b) k = true

def LiveSets.table (st : LiveSets) : Table Nat Nat
  | .entry,b,k => get (rowOf st.li b) k = true
  | .leaving,b,k => get (rowOf st.lout b) k = true

def LiveSets.Sound (st : LiveSets) : Prop :=
  ∀ side b k, b < sets.nb → st.table side b k → Live (problem succ sets) k side b

end

variable {succ : Nat → List Nat} {sets : FixedPointSets} {st : LiveSets} {b : Nat}

section
theorem scratch_spec (hst : Shaped sets.nb sets.words st.li) (ss : List Nat) {row : Row}
    (hrow : row.length = sets.words) :
    (ss.foldl (fun scratch s => if s ≥ sets.nb then scratch else union scratch (rowOf st.li s))
      row).length = sets.words ∧
    ∀ k, get (ss.foldl (fun scratch s =>
        if s ≥ sets.nb then scratch else union scratch (rowOf st.li s)) row) k = true ↔
      get row k = true ∨ ∃ s ∈ ss, s < sets.nb ∧ get (rowOf st.li s) k = true := by
  induction ss generalizing row with
  | nil => simp [hrow]
  | cons s ss ih => ?_
  rw [foldl_cons]
  by_cases hs : s ≥ sets.nb
  · rw [if_pos hs]
    refine ⟨(ih hrow).1,fun k => ?_⟩
    rw [(ih hrow).2 k]
    simp only [mem_cons,exists_eq_or_imp]
    have : ¬s < sets.nb := by omega
    simp [this]
  rw [if_neg hs]
  have hlen : row.length = (rowOf st.li s).length := by rw [hrow,hst.width s (by omega)]
  have hunion : (union row (rowOf st.li s)).length = sets.words := by rw [length_union hlen,hrow]
  refine ⟨(ih hunion).1,fun k => ?_⟩
  rw [(ih hunion).2 k,get_union hlen]
  have hlt : s < sets.nb := by omega
  simp only [mem_cons,exists_eq_or_imp,Bool.or_eq_true,hlt,true_and,or_assoc]

structure Visited (succ : Nat → List Nat) (sets : FixedPointSets) (b : Nat) (st st' : LiveSets)
    (outChanged inChanged : Bool) : Prop where
  shapes : st'.Shapes sets.nb sets.words
  lout : ∀ k, get (rowOf st'.lout b) k = true ↔ get (rowOf st.lout b) k = true ∨
    (problem succ sets).edge b k ∨ ∃ s, (problem succ sets).next b s ∧ get (rowOf st.li s) k = true
  li : ∀ k, get (rowOf st'.li b) k = true ↔ get (rowOf st.li b) k = true ∨
    (problem succ sets).gen b k ∨
      (get (rowOf st'.lout b) k = true ∧ ¬(problem succ sets).kill b k)
  louts : ∀ c, c ≠ b ∨ outChanged = false → rowOf st'.lout c = rowOf st.lout c
  lis : ∀ c, c ≠ b ∨ inChanged = false → rowOf st'.li c = rowOf st.li c

theorem fixedPointVisit_visited (hsets : sets.Shapes) (hst : st.Shapes sets.nb sets.words)
    (hb : b < sets.nb) :
    Visited succ sets b st (fixedPointVisit succ sets b st).1 (fixedPointVisit succ sets b st).2.1
      (fixedPointVisit succ sets b st).2.2 := by
  simp only [fixedPointVisit]
  obtain ⟨hslen,hs⟩ := scratch_spec hst.li (succ b) (hsets.phiOut.width b hb)
  generalize (succ b).foldl (fun scratch s =>
    if s ≥ sets.nb then scratch else union scratch (rowOf st.li s)) (rowOf sets.phiOut b) = scratch
    at hslen hs
  have houtlen : (rowOf st.lout b).length = scratch.length := by rw [hslen,hst.lout.width b hb]
  have hout := get_union houtlen
  have hmerged : (union (rowOf st.lout b) scratch).length = sets.words := by
    rw [length_union houtlen,houtlen,hslen]
  generalize union (rowOf st.lout b) scratch = mergedOut at hout hmerged
  have hdefs : mergedOut.length = (rowOf sets.defs b).length := by rw [hmerged,hsets.defs.width b hb]
  have huses : (rowOf sets.uses b).length = (diff mergedOut (rowOf sets.defs b)).length := by
    rw [length_diff hdefs,hmerged,hsets.uses.width b hb]
  have hin : (rowOf st.li b).length =
      (union (rowOf sets.uses b) (diff mergedOut (rowOf sets.defs b))).length := by
    rw [length_union huses,hsets.uses.width b hb,hst.li.width b hb]
  have hinlen : (union (rowOf st.li b) (union (rowOf sets.uses b)
      (diff mergedOut (rowOf sets.defs b)))).length = sets.words := by
    rw [length_union hin,hst.li.width b hb]
  have hblo : b < st.lout.length := hst.lout.length ▸ hb
  have hbli : b < st.li.length := hst.li.length ▸ hb
  refine ⟨⟨hst.li.set hb hinlen,hst.lout.set hb hmerged⟩,fun k => ?_,fun k => ?_,fun c hc => ?_,
    fun c hc => ?_⟩
  · rw [rowOf_set hblo,if_pos rfl,hout,Bool.or_eq_true,hs]
    simp only [problem,and_assoc]
  · rw [rowOf_set hbli,if_pos rfl,rowOf_set hblo,if_pos rfl,get_union hin,get_union huses,
      get_diff hdefs]
    simp [problem]
  · rw [rowOf_set hblo]
    split
    · rename_i hcb
      subst hcb
      simpa using hc
    · rfl
  rw [rowOf_set hbli]
  split
  · rename_i hcb
    subst hcb
    simpa using hc
  · rfl

variable {st' : LiveSets} {outChanged inChanged : Bool}

theorem Visited.sound (h : Visited succ sets b st st' outChanged inChanged)
    (hb : b < sets.nb) (hst : st.Sound succ sets) : st'.Sound succ sets := by
  have hleaving : ∀ k, get (rowOf st'.lout b) k = true → Live (problem succ sets) k .leaving b := by
    intro k hk
    rcases (h.lout k).mp hk with hk | hk | ⟨s,hs,hk⟩
    · exact hst .leaving b k hb hk
    · exact .edge hk
    · exact .next hs (hst .entry s k hs.2 hk)
  intro side c k hc hk
  by_cases hcb : c = b
  · subst hcb
    cases side with
    | leaving => exact hleaving k hk
    | entry =>
      rcases (h.li k).mp hk with hk | hk | ⟨hk,hkill⟩
      · exact hst .entry c k hc hk
      · exact .gen hk
      · exact .through (hleaving k hk) hkill
  refine hst side c k hc ?_
  cases side with
  | leaving =>
    have hrow := h.louts c (.inl hcb)
    simpa only [LiveSets.table,hrow] using hk
  | entry =>
    have hrow := h.lis c (.inl hcb)
    simpa only [LiveSets.table,hrow] using hk

theorem Visited.closedAt (h : Visited succ sets b st st' outChanged false) :
    ClosedAt (problem succ sets) st'.table b := by
  have hli := fun c => h.lis c (.inr rfl)
  refine ⟨fun k hk => (h.lout k).mpr (.inr (.inl hk)),fun k s hs hk => ?_,
    fun k hk => (h.li k).mpr (.inr (.inl hk)),fun k hk hkill => (h.li k).mpr (.inr (.inr ⟨hk,hkill⟩))⟩
  refine (h.lout k).mpr (.inr (.inr ⟨s,hs,?_⟩))
  simpa only [LiveSets.table,hli] using hk

/-- A settled block stays settled when a block that does not follow it, or does not change, is
visited. -/
theorem Visited.closedAt_other (h : Visited succ sets b st st' outChanged inChanged) {c : Nat}
    (hcb : c ≠ b) (hc : ClosedAt (problem succ sets) st.table c)
    (hnext : (problem succ sets).next c b → inChanged = false) :
    ClosedAt (problem succ sets) st'.table c := by
  have hlout := h.louts c (.inl hcb)
  have hli := h.lis c (.inl hcb)
  refine ⟨fun k hk => ?_,fun k s hs hk => ?_,fun k hk => ?_,fun k hk hkill => ?_⟩
  · simpa only [LiveSets.table,hlout] using hc.edge k hk
  · have hrow : rowOf st'.li s = rowOf st.li s := by
      refine h.lis s ?_
      by_cases hsb : s = b
      · subst hsb
        exact .inr (hnext hs)
      · exact .inl hsb
    simp only [LiveSets.table,hlout,hrow] at hk ⊢
    exact hc.next k s hs hk
  · simpa only [LiveSets.table,hli] using hc.gen k hk
  simp only [LiveSets.table,hlout,hli] at hk ⊢
  exact hc.through k hk hkill

end

section
/-- The sets are the least solution. -/
def LiveSets.Exact (succ : Nat → List Nat) (sets : FixedPointSets) (st : LiveSets) : Prop :=
  ∀ side b k, b < sets.nb → (st.table side b k ↔ Live (problem succ sets) k side b)

theorem LiveSets.Sound.exact (hst : st.Sound succ sets)
    (hclosed : ∀ b, b < sets.nb → ClosedAt (problem succ sets) st.table b) : st.Exact succ sets := by
  intro side b k hb
  refine ⟨hst side b k hb,fun hl => ?_⟩
  exact hl.least (fun c s (hs : (problem succ sets).next c s) => hs.2) hclosed hb

/-- What every driver keeps. -/
structure Running (succ : Nat → List Nat) (sets : FixedPointSets) (st : LiveSets) : Prop where
  shapes : st.Shapes sets.nb sets.words
  sound : st.Sound succ sets

theorem Running.visit (hsets : sets.Shapes) (h : Running succ sets st) (hb : b < sets.nb) :
    Running succ sets (fixedPointVisit succ sets b st).1 := by
  have hv := @fixedPointVisit_visited succ sets st b hsets h.shapes hb
  exact ⟨hv.shapes,hv.sound hb h.sound⟩

theorem running_zero :
    Running succ sets { li := replicate sets.nb (empty sets.words)
                        lout := replicate sets.nb (empty sets.words) } := by
  have hrow : ∀ b, b < sets.nb → rowOf (replicate sets.nb (empty sets.words)) b =
      empty sets.words := by
    intro b hb
    simp [rowOf,getD_eq_getElem?_getD,hb]
  refine ⟨⟨shaped_replicate _ _,shaped_replicate _ _⟩,fun side b k hb hk => ?_⟩
  cases side <;> simp [LiveSets.table,hrow b hb] at hk

end

section
theorem visitAll_running (hsets : sets.Shapes) (h : Running succ sets st) {bs : List Nat}
    (hbs : ∀ b ∈ bs, b < sets.nb) : Running succ sets (visitAll succ sets bs st).1 := by
  induction bs generalizing st with
  | nil => exact h
  | cons b bs ih =>
    exact ih (h.visit hsets (hbs b (by simp))) fun c hc => hbs c (by simp [hc])

theorem rows_ext {nb words : Nat} {rows rows' : List Row} (h : Shaped nb words rows)
    (h' : Shaped nb words rows') (hrow : ∀ b, rowOf rows' b = rowOf rows b) : rows' = rows := by
  refine ext_getElem (by rw [h.length,h'.length]) fun b hb hb' => ?_
  have heq := hrow b
  simpa [rowOf,getElem?_eq_getElem hb,
    getElem?_eq_getElem hb'] using heq

theorem visitAll_settled (hsets : sets.Shapes) (h : Running succ sets st) {bs : List Nat}
    (hbs : ∀ b ∈ bs, b < sets.nb) (hend : (visitAll succ sets bs st).2 = false) :
    (visitAll succ sets bs st).1 = st ∧ ∀ b ∈ bs, ClosedAt (problem succ sets) st.table b := by
  induction bs generalizing st with
  | nil => exact ⟨rfl,by simp⟩
  | cons b bs ih => ?_
  have hb := hbs b (by simp)
  have hbs' : ∀ c ∈ bs, c < sets.nb := fun c hc => hbs c (by simp [hc])
  have hv := @fixedPointVisit_visited succ sets st b hsets h.shapes hb
  simp only [visitAll,Bool.or_eq_false_iff] at hend ⊢
  rw [hend.1.1,hend.1.2] at hv
  have hsame : (fixedPointVisit succ sets b st).1 = st := by
    have hli := rows_ext h.shapes.li hv.shapes.li fun c => hv.lis c (.inr rfl)
    have hlout := rows_ext h.shapes.lout hv.shapes.lout fun c => hv.louts c (.inr rfl)
    generalize (fixedPointVisit succ sets b st).1 = st' at hli hlout
    obtain ⟨li,lout⟩ := st'
    simp_all
  have hclosed := hv.closedAt
  rw [hsame] at hclosed hend ⊢
  obtain ⟨heq,hrest⟩ := ih h hbs' hend.2
  refine ⟨heq,fun c hc => ?_⟩
  rcases mem_cons.mp hc with rfl | hc
  · exact hclosed
  · exact hrest c hc

theorem roundRobin_exact (hsets : sets.Shapes) (h : Running succ sets st) (n : Nat)
    (hend : (fixedPointRoundRobin succ sets n st).2 = true) :
    (fixedPointRoundRobin succ sets n st).1.Exact succ sets := by
  induction n generalizing st with
  | zero => cases hend
  | succ n ih => ?_
  have hbs : ∀ b ∈ (range sets.nb).reverse, b < sets.nb := by simp
  have hrun := visitAll_running hsets h hbs
  rw [fixedPointRoundRobin] at hend ⊢
  by_cases hch : (visitAll succ sets (range sets.nb).reverse st).2 = false
  · simp only [hch,Bool.not_false,if_true]
    obtain ⟨heq,hclosed⟩ := visitAll_settled hsets h hbs hch
    rw [heq]
    exact h.sound.exact fun b hb => hclosed b (by simpa using hb)
  simp only [hch,Bool.not_eq_true'] at hend ⊢
  exact ih hrun hend

end

section
variable {limit : Nat}

theorem highestSetBelow_none {bits : Row} (h : highestSetBelow bits limit = none)
    {k : Nat} (hk : k < limit) : get bits k = false := by
  have := find?_eq_none.mp h k (by simpa using hk)
  simpa using this

theorem highestSetBelow_some {bits : Row} {k : Nat} (h : highestSetBelow bits limit = some k) :
    k < limit ∧ get bits k = true ∧ ∀ j, k < j → j < limit → get bits j = false := by
  rw [highestSetBelow] at h
  have hmem := mem_of_find?_eq_some h
  refine ⟨by simpa using hmem,by simpa using find?_some h,fun j hkj hj => ?_⟩
  induction limit with
  | zero => omega
  | succ limit ih => ?_
  rw [range_succ,reverse_append] at h
  simp only [reverse_cons,reverse_nil,nil_append,cons_append,
    find?_cons] at h
  by_cases htop : get bits limit = true
  · simp only [htop] at h
    obtain rfl := Option.some.inj h
    omega
  simp only [htop] at h
  by_cases hjl : j = limit
  · subst hjl
    simpa using htop
  · exact ih h (mem_of_find?_eq_some h) (by omega)

theorem markPreds_spec {nb : Nat} {rank : Nat → Nat} (ps : List Nat) (dirty : Row) :
    (ps.foldl (fun d p => if p < nb then set d (rank p) else d) dirty).length = dirty.length ∧
    (∀ k, get dirty k = true →
      get (ps.foldl (fun d p => if p < nb then set d (rank p) else d) dirty) k = true) ∧
    ∀ p ∈ ps, p < nb → rank p/64 < dirty.length →
      get (ps.foldl (fun d p => if p < nb then set d (rank p) else d) dirty) (rank p) = true := by
  induction ps generalizing dirty with
  | nil => simp
  | cons p ps ih => ?_
  rw [foldl_cons]
  have hkeep : ∀ k, get dirty k = true →
      get (if p < nb then set dirty (rank p) else dirty) k = true := by
    intro k hk
    split
    · rw [get_set,hk]
      rfl
    · exact hk
  have hlen : (if p < nb then set dirty (rank p) else dirty).length = dirty.length := by
    split <;> simp
  obtain ⟨h1,h2,h3⟩ := ih (if p < nb then set dirty (rank p) else dirty)
  refine ⟨by rw [h1,hlen],fun k hk => h2 k (hkeep k hk),fun q hq hnb hlt => ?_⟩
  rcases mem_cons.mp hq with rfl | hq
  · apply h2
    rw [if_pos hnb,get_set]
    simp [hlt]
  · exact h3 q hq hnb (by rw [hlen]; exact hlt)

variable {preds : Nat → List Nat} {order rank : Nat → Nat}

/-- The ranks are the places of the blocks in the order. -/
structure Ranked (nb : Nat) (order rank : Nat → Nat) : Prop where
  lt : ∀ b, b < nb → rank b < nb
  order : ∀ b, b < nb → order (rank b) = b

/-- No edge is missing from the predecessor lists. -/
def PredsComplete (succ : Nat → List Nat) (nb : Nat) (preds : Nat → List Nat) : Prop :=
  ∀ b c, b < nb → c < nb → b ∈ succ c → c ∈ preds b

/-- A block waits for its turn. -/
def Waiting (nb : Nat) (rank : Nat → Nat) (dirty : Row) (b : Nat) : Prop :=
  b < nb ∧ get dirty (rank b) = true

/-- What a worklist run keeps: every block waits or is settled. -/
structure WorklistState.Inv (succ : Nat → List Nat) (sets : FixedPointSets) (rank : Nat → Nat)
    (w : WorklistState) : Prop where
  running : Running succ sets w.sets
  dirty : sets.nb ≤ 64*w.dirty.length
  covered : Worklist.Covered (fun _ b => b < sets.nb)
    (fun st b => b < sets.nb → ClosedAt (problem succ sets) (LiveSets.table st) b) w.sets
    (Waiting sets.nb rank w.dirty)

section
variable (hsets : sets.Shapes) (hrank : Ranked sets.nb order rank) (hpreds : PredsComplete succ sets.nb preds)
include hsets hrank hpreds

theorem WorklistState.Inv.turn {w : WorklistState}
    (h : w.Inv succ sets rank) {k : Nat} (hb : order k < sets.nb) (changed : Bool) :
    WorklistState.Inv succ sets rank
      { dirty := if (fixedPointVisit succ sets (order k) w.sets).2.2 then
            (preds (order k)).foldl (fun d p => if p < sets.nb then set d (rank p) else d)
              (clear w.dirty k)
          else clear w.dirty k
        sets := (fixedPointVisit succ sets (order k) w.sets).1, changed } := by
  have hv := @fixedPointVisit_visited succ sets w.sets (order k) hsets h.running.shapes hb
  obtain ⟨hlen,hkeep,hmark⟩ := @markPreds_spec sets.nb rank (preds (order k)) (clear w.dirty k)
  refine ⟨h.running.visit hsets hb,?_,?_⟩
  · have hd := h.dirty
    split
    · rw [hlen]
      simpa using hd
    · simpa using hd
  -- the blocks in front of the visited one wait again when its live-in set has changed
  have hwaits : ∀ c, c < sets.nb → (fixedPointVisit succ sets (order k) w.sets).2.2 = true →
      (problem succ sets).next c (order k) → Waiting sets.nb rank
        ((preds (order k)).foldl (fun d p => if p < sets.nb then set d (rank p) else d)
          (clear w.dirty k)) c := by
    intro c hc _ hs
    have hlt := hrank.lt c hc
    have hd := h.dirty
    refine ⟨hc,hmark c (hpreds _ c hb hc hs.1) hc ?_⟩
    rw [length_clear]
    omega
  have hvisited : ClosedAt (problem succ sets)
        (LiveSets.table (fixedPointVisit succ sets (order k) w.sets).1) (order k) ∨
      (fixedPointVisit succ sets (order k) w.sets).2.2 = true ∧
        (problem succ sets).next (order k) (order k) := by
    cases hin : (fixedPointVisit succ sets (order k) w.sets).2.2 with
    | false =>
      rw [hin] at hv
      exact .inl hv.closedAt
    | true => ?_
    by_cases hself : (problem succ sets).next (order k) (order k)
    · exact .inr ⟨rfl,hself⟩
    left
    refine ⟨fun j hj => (hv.lout j).mpr (.inr (.inl hj)),fun j s hs hj => ?_,
      fun j hj => (hv.li j).mpr (.inr (.inl hj)),
      fun j hj hkill => (hv.li j).mpr (.inr (.inr ⟨hj,hkill⟩))⟩
    have hsb : s ≠ order k := fun heq => hself (heq ▸ hs)
    refine (hv.lout j).mpr (.inr (.inr ⟨s,hs,?_⟩))
    have hrow := hv.lis s (.inl hsb)
    simpa only [LiveSets.table,hrow] using hj
  have hagain : ∀ c, c < sets.nb → (fixedPointVisit succ sets (order k) w.sets).2.2 = true →
      (problem succ sets).next c (order k) → Waiting sets.nb rank
        (if (fixedPointVisit succ sets (order k) w.sets).2.2 then
          (preds (order k)).foldl (fun d p => if p < sets.nb then set d (rank p) else d)
            (clear w.dirty k)
        else clear w.dirty k) c := by
    intro c hc hin hs
    rw [if_pos hin]
    exact hwaits c hc hin hs
  refine @Worklist.Covered.round _ _ _ _ _ _ _ _ h.covered (order k) ?_ ?_ (fun j hj => .inl hj) ?_
  · rcases hvisited with hclosed | ⟨hin,hself⟩
    · exact .inl fun _ => hclosed
    · exact .inr (hagain _ hb hin hself)
  · rintro j ⟨hj,hdirty⟩ hne
    have hclear : get (clear w.dirty k) (rank j) = true := by
      have hkj : k ≠ rank j := by
        rintro rfl
        exact hne (hrank.order j hj).symm
      rw [get_clear,hdirty]
      simp [hkj]
    refine ⟨hj,?_⟩
    split
    · exact hkeep _ hclear
    · exact hclear
  intro j hj
  by_cases hjn : j < sets.nb
  · by_cases hjb : j = order k
    · subst hjb
      rcases hvisited with hclosed | ⟨hin,hself⟩
      · exact .inl fun _ => hclosed
      · exact .inr (hagain _ hb hin hself)
    by_cases hnext : (problem succ sets).next j (order k) ∧
      (fixedPointVisit succ sets (order k) w.sets).2.2 = true
    · exact .inr (hagain j hjn hnext.2 hnext.1)
    refine .inl fun _ => hv.closedAt_other hjb (hj hjn) fun hs => ?_
    simpa using fun hin => hnext ⟨hs,hin⟩
  · exact .inl fun hlt => absurd hlt hjn

theorem WorklistState.Inv.pass {n : Nat} (hn : limit ≤ n) {w : WorklistState}
    (h : w.Inv succ sets rank) :
    (worklistPass succ sets preds order rank sets.nb n limit w).Inv succ sets rank ∧
      ((worklistPass succ sets preds order rank sets.nb n limit w).changed = false →
        w.changed = false ∧
        (∀ k, get (worklistPass succ sets preds order rank sets.nb n limit w).dirty k = true →
          get w.dirty k = true ∧ limit ≤ k)) := by
  induction n generalizing limit w with
  | zero => exact ⟨h,fun hch => ⟨hch,fun k hk => ⟨hk,by omega⟩⟩⟩
  | succ n ih => ?_
  rw [worklistPass]
  cases hhigh : highestSetBelow w.dirty limit with
  | none =>
    refine ⟨h,fun hch => ⟨hch,fun k hk => ⟨hk,?_⟩⟩⟩
    rcases Nat.lt_or_ge k limit with hlt | hge
    · have hnone := highestSetBelow_none hhigh hlt
      rw [hk] at hnone
      cases hnone
    · exact hge
  | some k => ?_
  obtain ⟨hk,hdirty,htop⟩ := highestSetBelow_some hhigh
  have hrest : ∀ (dirty : Row), (∀ j, get dirty j = true → get (clear w.dirty k) j = true ∧ k ≤ j) →
      ∀ j, get dirty j = true → get w.dirty j = true ∧ limit ≤ j := by
    intro dirty hsub j hj
    obtain ⟨hcl,hkj⟩ := hsub j hj
    rw [get_clear,Bool.and_eq_true] at hcl
    have hne : k ≠ j := by simpa using hcl.2
    refine ⟨hcl.1,?_⟩
    rcases Nat.lt_or_ge j limit with hlt | hge
    · have hnone := htop j (by omega) hlt
      rw [hcl.1] at hnone
      cases hnone
    · exact hge
  by_cases hb : order k ≥ sets.nb
  · simp only [hb,if_true]
    have hinv : WorklistState.Inv succ sets rank { w with dirty := clear w.dirty k } := by
      refine ⟨h.running,by simpa using h.dirty,?_⟩
      refine fun j hj => (h.covered j hj).imp (fun hwait => ⟨hwait.1,?_⟩) id
      have hkj : k ≠ rank j := by
        rintro rfl
        have := hrank.order j hwait.1
        omega
      rw [get_clear,hwait.2]
      simp [hkj]
    obtain ⟨hinv',hend⟩ := ih (show k ≤ n by omega) hinv
    exact ⟨hinv',fun hch => ⟨(hend hch).1,hrest _ (hend hch).2⟩⟩
  simp only [hb,if_false]
  have hinv := h.turn (k := k) hsets hrank hpreds (by omega)
    (w.changed || (fixedPointVisit succ sets (order k) w.sets).2.1 ||
      (fixedPointVisit succ sets (order k) w.sets).2.2)
  obtain ⟨hinv',hend⟩ := ih (show k ≤ n by omega) hinv
  refine ⟨hinv',fun hch => ?_⟩
  obtain ⟨hflags,hdirty'⟩ := hend hch
  simp only [Bool.or_eq_false_iff] at hflags
  refine ⟨hflags.1.1,hrest _ fun j hj => ?_⟩
  have := hdirty' j hj
  rwa [if_neg (by simp [hflags.2])] at this

theorem worklistPasses_exact (n : Nat) {dirty : Row}
    (h : WorklistState.Inv succ sets rank { dirty, sets := st, changed := false })
    (hend : (worklistPasses succ sets preds order rank sets.nb n dirty st).2 = true) :
    (worklistPasses succ sets preds order rank sets.nb n dirty st).1.Exact succ sets := by
  induction n generalizing dirty st with
  | zero => cases hend
  | succ n ih => ?_
  obtain ⟨hinv,hdone⟩ := h.pass hsets hrank hpreds (Nat.le_refl sets.nb)
  rw [worklistPasses] at hend ⊢
  generalize worklistPass succ sets preds order rank sets.nb sets.nb sets.nb
    { dirty, sets := st, changed := false } = w at hinv hdone hend ⊢
  by_cases hch : w.changed = false
  · simp only [hch,Bool.not_false,if_true]
    refine hinv.running.sound.exact fun b hb => ?_
    refine hinv.covered.done (fun c hc => ?_) hb hb
    have hlt := hrank.lt c hc.1
    have := ((hdone hch).2 _ hc.2).2
    omega
  simp only [hch,Bool.not_eq_true'] at hend ⊢
  refine ih ⟨hinv.running,hinv.dirty,hinv.covered⟩ hend

end

theorem allDirty_spec (nb : Nat) : nb ≤ 64*(allDirty nb).length ∧
    ∀ k, k < nb → get (allDirty nb) k = true := by
  have hbound : nb ≤ 64*(empty (if nb ≤ 64 then 1 else (nb+63)/64)).length := by
    rw [length_empty]
    split <;> omega
  refine ⟨by rw [allDirty,length_foldl_set]; exact hbound,fun k hk => ?_⟩
  have hword : k/64 < (empty (if nb ≤ 64 then 1 else (nb+63)/64)).length := by omega
  rw [allDirty,get_foldl_set]
  simp only [get_empty,Bool.false_or,Bool.and_eq_true,decide_eq_true_eq]
  exact ⟨mem_range.mpr hk,hword⟩

theorem inv_allDirty (hrank : Ranked sets.nb order rank) (h : Running succ sets st) :
    WorklistState.Inv succ sets rank
      { dirty := allDirty sets.nb, sets := st, changed := false } := by
  obtain ⟨hlen,hall⟩ := allDirty_spec sets.nb
  exact ⟨h,hlen,fun b hb => .inl ⟨hb,hall _ (hrank.lt b hb)⟩⟩

theorem worklistPreds_exact (hsets : sets.Shapes) (hpreds : PredsComplete succ sets.nb preds)
    (h : Running succ sets st) (n : Nat)
    (hend : (fixedPointWorklistPreds succ sets preds n st).2 = true) :
    (fixedPointWorklistPreds succ sets preds n st).1.Exact succ sets := by
  have hrank : Ranked sets.nb id id := ⟨fun b hb => hb,fun b _ => rfl⟩
  exact worklistPasses_exact hsets hrank hpreds n (inv_allDirty hrank h) hend

theorem predIndex_complete : PredsComplete succ sets.nb (predIndex succ sets.nb) := by
  intro b c hb hc hs
  rw [predIndex,mem_flatMap]
  refine ⟨c,by simpa using hc,mem_map.mpr ⟨b,?_,rfl⟩⟩
  simp [hs,hb]

end
end CratonVM.Jit.Liveness
