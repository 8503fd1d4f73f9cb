import CratonVM.Jit.Liveness.Intervals

/-!
What a liveness core that has converged says: its sets and its intervals are exact.
-/
namespace CratonVM.Jit.Liveness
open BitRows List Option Bool Prod
section
variable (graph : Graph) (schedule : Schedule) (wants : List Bool) (rules : LivenessRules)

/-- The positions at which a value is defined, read, live into a block or live out of one. -/
def livePositions (v : Nat) : Set Nat :=
  {q | positionOf graph schedule v = some q ∨
    (∃ b, b < schedule.blocks.length ∧ (.read v q ∈ blockEvents graph schedule wants rules b ∨
      .read v q ∈ edgeEvents graph schedule wants rules b ∨
      (LiveIn graph schedule wants rules b v ∧ q = startOf graph schedule b) ∨
      (LiveOut graph schedule wants rules b v ∧ q = edgeOf graph schedule b)))}

/-- What the phi edge rule adds: the edges on which a phi receives a wanted value. -/
def phiPositions (v : Nat) : Set Nat :=
  {q | rules.phiEdgeInterfere = true ∧ ∃ e ∈ edgeOperands graph schedule wants,
    e.phi = v ∧ q = edgeOf graph schedule e.pred}

end

variable {graph : Graph} {schedule : Schedule} {wants : List Bool} {rules : LivenessRules}

section
variable {v q : Nat}

theorem direct_noted :
    q ∈ notedAt ((allEvents graph schedule wants rules schedule.blocks.length).map
      fun e => (e.value,e.pos)) v ↔
    ∃ b, b < schedule.blocks.length ∧ (.read v q ∈ blockEvents graph schedule wants rules b ∨
      .define v q ∈ blockEvents graph schedule wants rules b) := by
  simp only [notedAt,Set.mem_ofPred_eq,List.mem_map,allEvents,mem_flatMap,mem_range]
  constructor
  · rintro ⟨e,⟨b,hb,he⟩,heq⟩
    refine ⟨b,hb,?_⟩
    cases e with
    | read w p =>
      obtain ⟨rfl,rfl⟩ := mk.inj heq
      exact .inl he
    | define w p =>
      obtain ⟨rfl,rfl⟩ := mk.inj heq
      exact .inr he
  rintro ⟨b,hb,he | he⟩
  · exact ⟨_,⟨b,hb,he⟩,rfl⟩
  · exact ⟨_,⟨b,hb,he⟩,rfl⟩

theorem edges_noted :
    q ∈ notedAt (edgeNotes graph schedule rules (edgeOperands graph schedule wants)) v ↔
      ∃ b, b < schedule.blocks.length ∧ .read v q ∈ edgeEvents graph schedule wants rules b := by
  simp only [notedAt,edgeNotes,edgeEvents,Set.mem_ofPred_eq,List.mem_map,mem_filter]
  constructor
  · rintro ⟨e,⟨he,hun⟩,heq⟩
    obtain ⟨rfl,rfl⟩ := mk.inj heq
    exact ⟨e.pred,(edgeOperands_spec he).2,e,⟨he,by simp [hun]⟩,rfl⟩
  rintro ⟨b,-,e,⟨he,hun⟩,heq⟩
  obtain ⟨rfl,rfl⟩ := Event.read.inj heq
  rw [and_eq_true,decide_eq_true_eq] at hun
  exact ⟨e,⟨he,hun.2⟩,by rw [hun.1]⟩

theorem phis_noted (hv : wanted graph wants v = true) :
    q ∈ notedAt (phiNotes graph schedule wants rules (edgeOperands graph schedule wants)) v ↔
      q ∈ phiPositions graph schedule wants rules v := by
  simp only [notedAt,phiNotes,phiPositions,Set.mem_ofPred_eq,List.mem_map,mem_filter]
  constructor
  · rintro ⟨e,⟨he,hr⟩,heq⟩
    obtain ⟨rfl,rfl⟩ := mk.inj heq
    rw [and_eq_true] at hr
    exact ⟨hr.1,e,he,rfl,rfl⟩
  rintro ⟨hr,e,he,rfl,rfl⟩
  exact ⟨e,⟨he,by rw [hr,hv]; rfl⟩,rfl⟩

end

section
variable {S T : Set Nat} {p : Nat}

theorem isLeast_of_cover (h : IsLeast S p) (hsub : S ⊆ T) (hcover : ∀ t ∈ T, ∃ s ∈ S, s ≤ t) :
    IsLeast T p := by
  refine ⟨hsub h.1,fun t ht => ?_⟩
  obtain ⟨s,hs,hle⟩ := hcover t ht
  exact (h.2 hs).trans hle

theorem isGreatest_of_cover (h : IsGreatest S p) (hsub : S ⊆ T)
    (hcover : ∀ t ∈ T, ∃ s ∈ S, t ≤ s) : IsGreatest T p := by
  refine ⟨hsub h.1,fun t ht => ?_⟩
  obtain ⟨s,hs,hle⟩ := hcover t ht
  exact hle.trans (h.2 hs)

end

section
variable {v b q : Nat}

theorem liveOut_cases (h : LiveOut graph schedule wants rules b v) :
    Defines v (blockEvents graph schedule wants rules b) ∨ LiveIn graph schedule wants rules b v := by
  by_cases hdef : Defines v (blockEvents graph schedule wants rules b)
  · exact .inl hdef
  have hl : GenKill.Live (blockProblem graph schedule wants rules) v .leaving b :=
    live_iff_path.mpr h
  exact .inr (live_iff_path.mp (.through hl hdef))

theorem readsFirst_mem {es : List Event} (h : ReadsFirst v es) : ∃ pos, Event.read v pos ∈ es := by
  induction es with
  | nil => cases h
  | cons e es ih => ?_
  cases e with
  | read w pos =>
    rcases h with rfl | h
    · exact ⟨pos,by simp⟩
    obtain ⟨p,hp⟩ := ih h
    exact ⟨p,by simp [hp]⟩
  | define w pos =>
    obtain ⟨p,hp⟩ := ih h.2
    exact ⟨p,by simp [hp]⟩

theorem liveIn_cases (h : LiveIn graph schedule wants rules b v) :
    (∃ pos, Event.read v pos ∈ blockEvents graph schedule wants rules b) ∨
      LiveOut graph schedule wants rules b v := by
  have hl : GenKill.Live (blockProblem graph schedule wants rules) v .entry b := live_iff_path.mpr h
  cases hl with
  | gen hg => exact .inl (readsFirst_mem hg)
  | through hl _ => exact .inr (live_iff_path.mp hl)

theorem start_le_pos {e : Event} (he : e ∈ blockEvents graph schedule wants rules b) :
    startOf graph schedule b ≤ e.pos := by
  obtain ⟨u,hemit,hu,hpos,-⟩ := blockEvents_pos he
  obtain ⟨p,hp,hle,-⟩ := block_placed hemit hu
  obtain rfl : p = e.pos := some.inj (hp.symm.trans hpos)
  exact hle

end

section
variable {dense : Bool} {workBudget maxIterations : Nat} {budgetByValues : Bool}
  {fixedPoint : LivenessFixedPoint}

theorem words_suffice (n : Nat) : n ≤ 64*max ((n+63)/64) 1 := by
  have := Nat.le_max_left ((n+63)/64) 1
  omega

structure Prepared (graph : Graph) (schedule : Schedule) (wants : List Bool) (rules : LivenessRules)
    (dense : Bool) (sets : FixedPointSets) (r : Ranges) : Prop where
  sets : SetsHold graph schedule wants rules dense sets
  ranges : RangesAre graph.nodes.length r
    (fun v => notedAt ((allEvents graph schedule wants rules schedule.blocks.length).map
        fun e => (e.value,e.pos)) v ∪
      notedAt (edgeNotes graph schedule rules (edgeOperands graph schedule wants)) v)
    (fun v => notedAt ((allEvents graph schedule wants rules schedule.blocks.length).map
        fun e => (e.value,e.pos)) v ∪
      notedAt (edgeNotes graph schedule rules (edgeOperands graph schedule wants)) v)

theorem prepared (graph : Graph) (schedule : Schedule) (wants : List Bool) (rules : LivenessRules)
    (dense : Bool) {words : Nat} (hwords : valueCount graph wants dense ≤ 64*words) :
    let direct := (range schedule.blocks.length).foldl
      (scanBlock graph schedule wants rules (bitOf graph wants dense) words)
      { ranges := { lo := replicate graph.nodes.length none
                    hi := replicate graph.nodes.length 0 }
        reads := [], uses := [], defs := [] }
    let edges := (edgeOperands graph schedule wants).foldl
      (scanOperand graph schedule wants rules (bitOf graph wants dense))
      { ranges := direct.ranges, reads := direct.reads
        phiOut := replicate schedule.blocks.length (empty words), phiEdges := [] }
    Prepared graph schedule wants rules dense
      { nb := schedule.blocks.length, words, phiOut := edges.phiOut, uses := direct.uses
        defs := direct.defs } edges.ranges ∧
    edges.phiEdges = phiNotes graph schedule wants rules (edgeOperands graph schedule wants) := by
  intro direct edges
  obtain ⟨huses,hdefs⟩ := @direct_holds graph schedule wants rules dense words hwords
    { lo := replicate graph.nodes.length none, hi := replicate graph.nodes.length 0 }
    schedule.blocks.length
  obtain ⟨hr,hphi⟩ := @edges_ranges graph schedule wants rules (bitOf graph wants dense)
    (edgeOperands graph schedule wants)
    { ranges := direct.ranges, reads := direct.reads
      phiOut := replicate schedule.blocks.length (empty words), phiEdges := [] }
  have hrow : ∀ b, b < schedule.blocks.length →
      rowOf (replicate schedule.blocks.length (empty words)) b = empty words := by
    intro b hb
    simp [rowOf,getD_eq_getElem?_getD,hb]
  have hempty : RowsHold graph wants dense schedule.blocks.length words
      (replicate schedule.blocks.length (empty words)) fun _ _ => False :=
    ⟨shaped_replicate _ _,fun b hb => by rw [hrow b hb]; exact holds_empty words⟩
  have hout := @edges_hold graph schedule wants rules dense words schedule.blocks.length hwords
    (edgeOperands graph schedule wants) (fun e he => edgeOperands_spec he)
    { ranges := direct.ranges, reads := direct.reads
      phiOut := replicate schedule.blocks.length (empty words), phiEdges := [] } _ hempty
  refine ⟨⟨⟨rfl,huses,hdefs,?_⟩,?_⟩,by simpa using hphi⟩
  · refine ⟨hout.shaped,fun b hb => (hout.holds b hb).congr fun v _ => ?_⟩
    rw [readsFirst_edge]
    simp
  have hevents : ∀ e ∈ (allEvents graph schedule wants rules schedule.blocks.length).map
      fun e => (e.value,e.pos), e.1 < graph.nodes.length := by
    intro e he
    obtain ⟨event,hevent,rfl⟩ := mem_map.mp he
    obtain ⟨b,-,hevent⟩ := mem_flatMap.mp hevent
    exact wanted_lt (blockEvents_wanted hevent)
  have hdirect := (rangesAre_new graph.nodes.length).notes hevents
  rw [← direct_ranges (bitOf graph wants dense) words] at hdirect
  have hnotes : ∀ e ∈ edgeNotes graph schedule rules (edgeOperands graph schedule wants),
      e.1 < graph.nodes.length := by
    intro e he
    obtain ⟨op,hop,rfl⟩ := mem_map.mp he
    exact wanted_lt (edgeOperands_spec (mem_filter.mp hop).1).1
  have hedges := hdirect.notes hnotes
  exact (hr ▸ hedges).congr (fun v => by simp) fun v => by simp

/-- What a core that has converged holds. -/
structure CoreIs (graph : Graph) (schedule : Schedule) (wants : List Bool) (rules : LivenessRules)
    (core : LivenessCore) : Prop where
  liveIn : ∀ b v, b < schedule.blocks.length → wanted graph wants v = true →
    (get (rowOf core.liveIn b) v = true ↔ LiveIn graph schedule wants rules b v)
  liveOut : ∀ b v, b < schedule.blocks.length → wanted graph wants v = true →
    (get (rowOf core.liveOut b) v = true ↔ LiveOut graph schedule wants rules b v)
  ranges : RangesAre graph.nodes.length { lo := core.lo, hi := core.hi }
    (fun v => notedAt ((allEvents graph schedule wants rules schedule.blocks.length).map
        fun e => (e.value,e.pos)) v ∪
      notedAt (edgeNotes graph schedule rules (edgeOperands graph schedule wants)) v ∪
      {q | wanted graph wants v = true ∧ ∃ b, b < schedule.blocks.length ∧
        LiveIn graph schedule wants rules b v ∧ q = startOf graph schedule b} ∪
      notedAt (phiNotes graph schedule wants rules (edgeOperands graph schedule wants)) v)
    (fun v => notedAt ((allEvents graph schedule wants rules schedule.blocks.length).map
        fun e => (e.value,e.pos)) v ∪
      notedAt (edgeNotes graph schedule rules (edgeOperands graph schedule wants)) v ∪
      {q | wanted graph wants v = true ∧ ∃ b, b < schedule.blocks.length ∧
        LiveOut graph schedule wants rules b v ∧ q = edgeOf graph schedule b} ∪
      notedAt (phiNotes graph schedule wants rules (edgeOperands graph schedule wants)) v)

theorem livenessCoreBody_core
    (hpreds : NeedsPreds fixedPoint → PredsComplete (successorsOf schedule.blocks)
      schedule.blocks.length (predecessorsOf schedule.blocks))
    (hend : (livenessCoreBody graph schedule wants rules dense workBudget maxIterations
      budgetByValues fixedPoint).converged = true) :
    CoreIs graph schedule wants rules (livenessCoreBody graph schedule wants rules dense workBudget
      maxIterations budgetByValues fixedPoint) := by
  have hwords : valueCount graph wants dense ≤ 64*max ((valueCount graph wants dense+63)/64) 1 :=
    words_suffice _
  obtain ⟨hprep,hphi⟩ := prepared graph schedule wants rules dense hwords
  rw [livenessCoreBody] at hend ⊢
  dsimp only at hprep hphi hend ⊢
  rw [show (if dense then (numbering graph wants).2.length else graph.nodes.length) =
    valueCount graph wants dense from rfl] at hend ⊢
  generalize (range schedule.blocks.length).foldl (scanBlock graph schedule wants rules
    (bitOf graph wants dense) (max ((valueCount graph wants dense+63)/64) 1)) _ = direct
    at hprep hphi hend ⊢
  generalize (edgeOperands graph schedule wants).foldl _ _ = edges at hprep hphi hend ⊢
  generalize (if budgetByValues then valueCount graph wants dense else graph.nodes.length)*
    schedule.blocks.length = cost at hend ⊢
  by_cases hbudget : min cost noBlock ≤ workBudget
  case neg =>
    rw [if_neg hbudget] at hend
    cases hend
  case pos =>
    rw [if_pos hbudget] at hend ⊢
    dsimp only at hend ⊢
    have hexact := fixedPointOnSchedule_exact hprep.sets.shapes hpreds running_zero maxIterations hend
    rw [hend,if_pos rfl]
    generalize fixedPointOnSchedule schedule.blocks fixedPoint _ maxIterations _ = live at hexact ⊢
    have hsets : ∀ b, b < schedule.blocks.length → _ := fun b hb => hprep.sets.exact hexact hb
    refine ⟨fun b v hb hv => ?_,fun b v hb hv => ?_,?_⟩
    · cases dense with
      | false => exact (hsets b hb).1.at hv
      | true => exact denseBits_get hb (hsets b hb).1 (words_suffice _) hv
    · cases dense with
      | false => exact (hsets b hb).2.at hv
      | true => exact denseBits_get hb (hsets b hb).2 (words_suffice _) hv
    rw [hphi]
    refine (hprep.ranges.widen hsets).notes fun e he => ?_
    obtain ⟨op,hop,rfl⟩ := mem_map.mp he
    have := (mem_filter.mp hop).2
    rw [and_eq_true] at this
    exact wanted_lt this.2

section
variable {core : LivenessCore} {v b : Nat}

theorem placedOnce_position (hv : wanted graph wants v = true) (h : PlacedOnce schedule v b) :
    ∃ p, positionOf graph schedule v = some p ∧ p < edgeOf graph schedule b ∧
      .define v p ∈ blockEvents graph schedule wants rules b := by
  obtain ⟨p,hp,-,hlt⟩ := block_placed h.1 (wanted_lt hv)
  obtain ⟨q,hq⟩ := (@defines_iff graph schedule b wants rules v hv).mpr h.1
  obtain ⟨u,-,-,hpos,heq⟩ := blockEvents_pos hq
  obtain rfl := heq v q rfl
  obtain rfl : p = q := some.inj (hp.symm.trans hpos)
  exact ⟨p,hp,hlt h,hq⟩

theorem emittedIn_lt {u : Nat} (h : EmittedIn schedule u b) : b < schedule.blocks.length := by
  obtain ⟨block,hblock,-⟩ := h
  exact (List.getElem?_eq_some_iff.mp hblock).1

theorem CoreIs.least (h : CoreIs graph schedule wants rules core) (hv : wanted graph wants v = true)
    (hplaced : PlacedOnce schedule v b) :
    ∃ lo, core.lo.getD v none = some lo ∧
      IsLeast (livePositions graph schedule wants rules v ∪ phiPositions graph schedule wants rules v)
        lo := by
  obtain ⟨p,hp,hedge,hdef⟩ := @placedOnce_position graph schedule wants rules v b hv hplaced
  have hb := emittedIn_lt hplaced.1
  have hlo := h.ranges.least v (wanted_lt hv)
  have hnoted : p ∈ notedAt ((allEvents graph schedule wants rules schedule.blocks.length).map
      fun e => (e.value,e.pos)) v := direct_noted.mpr ⟨b,hb,.inr hdef⟩
  cases hat : core.lo.getD v none with
  | none =>
    rw [hat] at hlo
    exact absurd (show p ∈ (∅ : Set Nat) from hlo ▸ .inl (.inl (.inl hnoted))) (by simp)
  | some lo => ?_
  rw [hat] at hlo
  refine ⟨lo,rfl,isLeast_of_cover hlo ?_ ?_⟩
  · rintro q (((hq | hq) | ⟨-,c,hc,hlive,rfl⟩) | hq)
    · left
      obtain ⟨c,hc,hq | hq⟩ := direct_noted.mp hq
      · exact .inr ⟨c,hc,.inl hq⟩
      obtain ⟨u,-,-,hpos,heq⟩ := blockEvents_pos hq
      obtain rfl := heq v q rfl
      exact .inl hpos
    · obtain ⟨c,hc,hq⟩ := edges_noted.mp hq
      exact .inl (.inr ⟨c,hc,.inr (.inl hq)⟩)
    · exact .inl (.inr ⟨c,hc,.inr (.inr (.inl ⟨hlive,rfl⟩))⟩)
    · exact .inr ((phis_noted hv).mp hq)
  rintro q ((hq | ⟨c,hc,hq | hq | ⟨hlive,rfl⟩ | ⟨hlive,rfl⟩⟩) | hq)
  · obtain rfl : p = q := some.inj (hp.symm.trans hq)
    exact ⟨p,.inl (.inl (.inl hnoted)),le_rfl⟩
  · exact ⟨q,.inl (.inl (.inl (direct_noted.mpr ⟨c,hc,.inl hq⟩))),le_rfl⟩
  · exact ⟨q,.inl (.inl (.inr (edges_noted.mpr ⟨c,hc,hq⟩))),le_rfl⟩
  · exact ⟨_,.inl (.inr ⟨hv,c,hc,hlive,rfl⟩),le_rfl⟩
  · rcases liveOut_cases hlive with hdefines | hin
    · obtain rfl := hplaced.2 c ((defines_iff hv).mp hdefines)
      exact ⟨p,.inl (.inl (.inl hnoted)),by omega⟩
    · exact ⟨_,.inl (.inr ⟨hv,c,hc,hin,rfl⟩),start_le_edge hc⟩
  · exact ⟨q,.inr ((phis_noted hv).mpr hq),le_rfl⟩

theorem CoreIs.greatest (h : CoreIs graph schedule wants rules core)
    (hv : wanted graph wants v = true) (hplaced : PlacedOnce schedule v b) :
    IsGreatest (livePositions graph schedule wants rules v ∪ phiPositions graph schedule wants rules v)
      (core.hi.getD v 0) := by
  obtain ⟨p,hp,hedge,hdef⟩ := @placedOnce_position graph schedule wants rules v b hv hplaced
  have hb := emittedIn_lt hplaced.1
  have hnoted : p ∈ notedAt ((allEvents graph schedule wants rules schedule.blocks.length).map
      fun e => (e.value,e.pos)) v := direct_noted.mpr ⟨b,hb,.inr hdef⟩
  rcases h.ranges.greatest v (wanted_lt hv) with ⟨hnone,-⟩ | hhi
  · exact absurd (show p ∈ (∅ : Set Nat) from hnone ▸ .inl (.inl (.inl hnoted))) (by simp)
  refine isGreatest_of_cover hhi ?_ ?_
  · rintro q (((hq | hq) | ⟨-,c,hc,hlive,rfl⟩) | hq)
    · left
      obtain ⟨c,hc,hq | hq⟩ := direct_noted.mp hq
      · exact .inr ⟨c,hc,.inl hq⟩
      obtain ⟨u,-,-,hpos,heq⟩ := blockEvents_pos hq
      obtain rfl := heq v q rfl
      exact .inl hpos
    · obtain ⟨c,hc,hq⟩ := edges_noted.mp hq
      exact .inl (.inr ⟨c,hc,.inr (.inl hq)⟩)
    · exact .inl (.inr ⟨c,hc,.inr (.inr (.inr ⟨hlive,rfl⟩))⟩)
    · exact .inr ((phis_noted hv).mp hq)
  rintro q ((hq | ⟨c,hc,hq | hq | ⟨hlive,rfl⟩ | ⟨hlive,rfl⟩⟩) | hq)
  · obtain rfl : p = q := some.inj (hp.symm.trans hq)
    exact ⟨p,.inl (.inl (.inl hnoted)),le_rfl⟩
  · exact ⟨q,.inl (.inl (.inl (direct_noted.mpr ⟨c,hc,.inl hq⟩))),le_rfl⟩
  · exact ⟨q,.inl (.inl (.inr (edges_noted.mpr ⟨c,hc,hq⟩))),le_rfl⟩
  · rcases liveIn_cases hlive with ⟨pos,hread⟩ | hout
    · exact ⟨pos,.inl (.inl (.inl (direct_noted.mpr ⟨c,hc,.inl hread⟩))),start_le_pos hread⟩
    · exact ⟨_,.inl (.inr ⟨hv,c,hc,hout,rfl⟩),start_le_edge hc⟩
  · exact ⟨_,.inl (.inr ⟨hv,c,hc,hlive,rfl⟩),le_rfl⟩
  · exact ⟨q,.inr ((phis_noted hv).mpr hq),le_rfl⟩

end

/-- Liveness is exact, and the interval of a value placed once is the smallest one with its
definition, its reads, the starts of blocks it is live into, the ends of blocks it is live out of
and, under the phi edge rule, the edges on which it receives a wanted value. -/
theorem liveness_exact (graph : Graph) (schedule : Schedule) (wants : List Bool)
    (rules : LivenessRules) (dense : Bool) (workBudget maxIterations : Nat) (budgetByValues : Bool)
    (fixedPoint : LivenessFixedPoint)
    (hpreds : NeedsPreds fixedPoint → PredsComplete (successorsOf schedule.blocks)
      schedule.blocks.length (predecessorsOf schedule.blocks))
    (hend : (livenessCoreBody graph schedule wants rules dense workBudget maxIterations
      budgetByValues fixedPoint).converged = true) :
    let core := livenessCoreBody graph schedule wants rules dense workBudget maxIterations
      budgetByValues fixedPoint
    (∀ b v, b < schedule.blocks.length → wanted graph wants v = true →
      (get (rowOf core.liveIn b) v = true ↔ LiveIn graph schedule wants rules b v) ∧
      (get (rowOf core.liveOut b) v = true ↔ LiveOut graph schedule wants rules b v)) ∧
    ∀ v b, wanted graph wants v = true → PlacedOnce schedule v b →
      ∃ lo hi, finishRange core v = (lo,hi) ∧ core.lo.getD v none = some lo ∧
        core.hi.getD v 0 = hi ∧
        IsLeast (livePositions graph schedule wants rules v ∪
          phiPositions graph schedule wants rules v) lo ∧
        IsGreatest (livePositions graph schedule wants rules v ∪
          phiPositions graph schedule wants rules v) hi := by
  intro core
  have hcore : CoreIs graph schedule wants rules core := livenessCoreBody_core hpreds hend
  refine ⟨fun b v hb hv => ⟨hcore.liveIn b v hb hv,hcore.liveOut b v hb hv⟩,
    fun v b hv hplaced => ?_⟩
  obtain ⟨lo,hlo,hleast⟩ := hcore.least hv hplaced
  have hgreatest := hcore.greatest hv hplaced
  refine ⟨lo,core.hi.getD v 0,?_,hlo,rfl,hleast,hgreatest⟩
  have hle : lo ≤ core.hi.getD v 0 := hleast.2 hgreatest.1
  rw [finishRange,hlo,show core.converged = true from hend]
  simp only [if_true,Nat.max_eq_left hle]

end

section
/-- A node without side data. -/
def plainNode (op : Op) (ty : IrType) (inputs : List Nat) : Node :=
  { op, ty, inputs, bytecodePc := none, frameSnapshot := none, volatileAccess := false }

def plainGraph (nodes : List Node) : Graph := { nodes, safepoints := [], uses := UseLists.new }

/-- Block 1 defines the value that block 0 reads; block 0 lists no predecessor. -/
def unlistedEdge : Graph × Schedule :=
  (plainGraph [plainNode (.const 7) .int [],plainNode .neg .int [0]],
    { blocks := [{ ctrl := 2, nodes := [1], terminator := none, successors := [], predecessors := [] },
        { ctrl := 3, nodes := [0], terminator := none, successors := [0], predecessors := [] }]
      nodeToBlock := [1,0] })

/-- A phi whose only source, a constant, is not a wanted value. -/
def phiOfConstant : Graph × Schedule :=
  (plainGraph [plainNode .start .control [],plainNode .merge .control [0],plainNode .phi .int [1,3],
      plainNode (.const 7) .int []],
    { blocks := [{ ctrl := 0, nodes := [0,3], terminator := none, successors := [1]
                   predecessors := [] },
        { ctrl := 1, nodes := [1,2], terminator := none, successors := [], predecessors := [0] }]
      nodeToBlock := [0,1,1,0] })

def plainRules (phiEdgeInterfere : Bool) : LivenessRules :=
  { tokenEdgesNotUses := true, phiEdgeInterfere, collectReads := false }

def unlistedCore : LivenessCore :=
  livenessCoreBody unlistedEdge.1 unlistedEdge.2 [true,true] (plainRules false) false 100 10 false
    .worklistSchedulePreds

def phiCore (wants : List Bool) : LivenessCore :=
  livenessCoreBody phiOfConstant.1 phiOfConstant.2 wants (plainRules true) true 100 10 false .worklist

/-- The schedule's own predecessor lists can hide an edge; a source that is not wanted does not
extend its phi. -/
theorem liveness_not_exact :
    (unlistedCore.converged = true ∧
      LiveOut unlistedEdge.1 unlistedEdge.2 [true,true] (plainRules false) 1 0 ∧
      get (rowOf unlistedCore.liveOut 1) 0 = false) ∧
    ((phiCore [false,false,true,false]).converged = true ∧ PlacedOnce phiOfConstant.2 2 1 ∧
      ctrlBlockOf phiOfConstant.1 phiOfConstant.2 4 0 = some 0 ∧
      edgeOf phiOfConstant.1 phiOfConstant.2 0 = 2 ∧
      finishRange (phiCore [false,false,true,false]) 2 = (4,4)) := by
  refine ⟨⟨by decide,⟨[0],?_,?_⟩,by decide⟩,by decide,⟨⟨_,rfl,by decide⟩,?_⟩,by decide,by decide,
    by decide⟩
  · rw [isChain_cons_cons]
    exact ⟨⟨by decide,by decide⟩,by simp⟩
  · exact .inl rfl
  rintro c ⟨block,hblock,hmem⟩
  match c with
  | 0 =>
    obtain rfl := some.inj hblock
    exact absurd hmem (by decide)
  | 1 => rfl
  | n+2 => simp [phiOfConstant] at hblock

theorem liveness_exact_phiOfConstant :
    let core := phiCore [false,false,true,true]
    (∀ b v, b < 2 → wanted phiOfConstant.1 [false,false,true,true] v = true →
      (get (rowOf core.liveIn b) v = true ↔
        LiveIn phiOfConstant.1 phiOfConstant.2 [false,false,true,true] (plainRules true) b v) ∧
      (get (rowOf core.liveOut b) v = true ↔
        LiveOut phiOfConstant.1 phiOfConstant.2 [false,false,true,true] (plainRules true) b v)) ∧
    ∀ v b, wanted phiOfConstant.1 [false,false,true,true] v = true → PlacedOnce phiOfConstant.2 v b →
      ∃ lo hi, finishRange core v = (lo,hi) ∧ core.lo.getD v none = some lo ∧
        core.hi.getD v 0 = hi ∧
        IsLeast (livePositions phiOfConstant.1 phiOfConstant.2 [false,false,true,true]
            (plainRules true) v ∪
          phiPositions phiOfConstant.1 phiOfConstant.2 [false,false,true,true] (plainRules true) v) lo ∧
        IsGreatest (livePositions phiOfConstant.1 phiOfConstant.2 [false,false,true,true]
            (plainRules true) v ∪
          phiPositions phiOfConstant.1 phiOfConstant.2 [false,false,true,true] (plainRules true) v) hi :=
  liveness_exact phiOfConstant.1 phiOfConstant.2 [false,false,true,true] (plainRules true) true 100 10
    false .worklist (fun h => h.elim) (by decide)

end
end CratonVM.Jit.Liveness
