import CratonVM.Jit.Liveness.Sets

/-!
The intervals of the liveness core: from the lowest to the highest position at which a value is
defined, read or live.
-/
namespace CratonVM.Jit.Liveness
open BitRows List
section
theorem placeNodes_spec (us : List Nat) (pos : List (Option Nat)) (seq : Nat) :
    (us.foldl placeNode (pos,seq)).2 = seq+us.length ∧
    (us.foldl placeNode (pos,seq)).1.length = pos.length ∧
    (∀ u, u ∉ us → (us.foldl placeNode (pos,seq)).1[u]? = pos[u]?) ∧
    ∀ u ∈ us, u < pos.length → ∃ p, (us.foldl placeNode (pos,seq)).1[u]? = some (some p) ∧
      seq ≤ p ∧ p < seq+us.length := by
  induction us generalizing pos seq with
  | nil => simp
  | cons a us ih => ?_
  rw [foldl_cons,placeNode]
  obtain ⟨h1,h2,h3,h4⟩ := ih (pos.set a (some seq)) (seq+1)
  refine ⟨by rw [h1,length_cons]; omega,by rw [h2,List.length_set],fun u hu => ?_,
    fun u hu hlt => ?_⟩
  · rw [mem_cons,not_or] at hu
    rw [h3 u hu.2,getElem?_set_ne (Ne.symm hu.1)]
  by_cases hus : u ∈ us
  · obtain ⟨p,hp,hle,hlt'⟩ := h4 u hus (by simpa using hlt)
    exact ⟨p,hp,by omega,by rw [length_cons]; omega⟩
  obtain rfl : u = a := (mem_cons.mp hu).resolve_right hus
  refine ⟨seq,?_,le_rfl,by rw [length_cons]; omega⟩
  rw [h3 u hus,getElem?_set_self hlt]

structure PlacedBlocks (blocks : List Block) (st st' : Placing) : Prop where
  nodes : st'.posOf.length = st.posOf.length
  seq : st.seq ≤ st'.seq
  length : st'.span.length = st.span.length+blocks.length
  spans : ∀ i, i < st.span.length → st'.span[i]? = st.span[i]?
  others : ∀ u, (∀ block ∈ blocks, u ∉ block.emitted) → st'.posOf[u]? = st.posOf[u]?
  placed : ∀ (i : Nat) block, blocks[i]? = some block →
    ∃ s e, st'.span[st.span.length+i]? = some (s,e) ∧ st.seq ≤ s ∧ s ≤ e ∧
      ∀ u ∈ block.emitted, u < st.posOf.length → ∃ p, st'.posOf[u]? = some (some p) ∧ s ≤ p ∧
        ((∀ (j : Nat) block', blocks[j]? = some block' → u ∈ block'.emitted → j = i) → p < e)

theorem placeBlocks_placed (blocks : List Block) (st : Placing) :
    PlacedBlocks blocks st (blocks.foldl placeBlock st) := by
  induction blocks generalizing st with
  | nil =>
    refine ⟨rfl,le_rfl,by simp,fun _ _ => rfl,fun _ _ => rfl,fun i block h => ?_⟩
    simp at h
  | cons block blocks ih => ?_
  rw [foldl_cons]
  obtain ⟨h1,h2,h3,h4⟩ := placeNodes_spec block.emitted st.posOf st.seq
  have hst : placeBlock st block = { posOf := (block.emitted.foldl placeNode (st.posOf,st.seq)).1
                                     span := st.span ++ [(st.seq,st.seq+block.emitted.length)]
                                     seq := st.seq+block.emitted.length+1 } := by
    rw [placeBlock,h1]
  have hrest := ih (placeBlock st block)
  rw [hst] at hrest ⊢
  generalize blocks.foldl placeBlock _ = st' at hrest ⊢
  obtain ⟨hn,hseq,hlen,hspans,hothers,hplaced⟩ := hrest
  dsimp only at hn hseq hlen hspans hothers hplaced
  rw [length_append,length_singleton] at hlen hspans hplaced
  have hfirst : st'.span[st.span.length]? = some (st.seq,st.seq+block.emitted.length) := by
    rw [hspans _ (by omega)]
    simp
  refine ⟨by rw [hn,h2],by omega,by rw [hlen,length_cons]; omega,fun i hi => ?_,
    fun u hu => ?_,fun i b hb => ?_⟩
  · rw [hspans i (by omega),getElem?_append_left hi]
  · rw [hothers u fun b hb => hu b (by simp [hb]),h3 u (hu block (by simp))]
  cases i with
  | zero => ?_
  | succ i =>
    obtain ⟨s,e,hspan,hs,hse,hpos⟩ := hplaced i b (by simpa using hb)
    refine ⟨s,e,by rw [← hspan]; congr 1; omega,by omega,hse,fun u hu hlt => ?_⟩
    obtain ⟨p,hp,hsp,honly⟩ := hpos u hu (by rw [h2]; exact hlt)
    refine ⟨p,hp,hsp,fun hall => honly fun j b' hj hub => ?_⟩
    have := hall (j+1) b' (by simpa using hj) hub
    omega
  obtain rfl : block = b := by simpa using hb
  refine ⟨st.seq,st.seq+block.emitted.length,hfirst,le_rfl,by omega,fun u hu hlt => ?_⟩
  by_cases hlater : ∃ (j : Nat) (b' : Block), blocks[j]? = some b' ∧ u ∈ b'.emitted
  · obtain ⟨j,b',hj,hub⟩ := hlater
    obtain ⟨s,e,-,hs,-,hpos⟩ := hplaced j b' hj
    obtain ⟨p,hp,hsp,-⟩ := hpos u hub (by rw [h2]; exact hlt)
    refine ⟨p,hp,by omega,fun honly => ?_⟩
    have := honly (j+1) b' (by simpa using hj) hub
    omega
  have hnot : ∀ b' ∈ blocks, u ∉ b'.emitted := by
    intro b' hb' hub
    obtain ⟨j,hj⟩ := mem_iff_getElem?.mp hb'
    exact hlater ⟨j,b',hj,hub⟩
  obtain ⟨p,hp,hle,hlt'⟩ := h4 u hu hlt
  exact ⟨p,by rw [hothers u hnot]; exact hp,hle,fun _ => hlt'⟩

variable (graph : Graph) (schedule : Schedule)

def EmittedIn (u b : Nat) : Prop := ∃ block, schedule.blocks[b]? = some block ∧ u ∈ block.emitted

/-- A node is emitted in one block only. -/
def PlacedOnce (u b : Nat) : Prop := EmittedIn schedule u b ∧ ∀ c, EmittedIn schedule u c → c = b

def positionOf (u : Nat) : Option Nat := (placing graph schedule).posOf.getD u none

variable {graph schedule} {u b : Nat}

theorem block_placed (h : EmittedIn schedule u b) (hu : u < graph.nodes.length) :
    ∃ p, positionOf graph schedule u = some p ∧ startOf graph schedule b ≤ p ∧
      (PlacedOnce schedule u b → p < edgeOf graph schedule b) := by
  obtain ⟨block,hb,hub⟩ := h
  obtain ⟨s,e,hspan,-,-,hpos⟩ := (placeBlocks_placed schedule.blocks
    { posOf := replicate graph.nodes.length none, span := [], seq := 0 }).placed b block hb
  obtain ⟨p,hp,hsp,honly⟩ := hpos u hub (by simpa using hu)
  rw [length_nil,Nat.zero_add] at hspan
  have hstart : startOf graph schedule b = s := by
    rw [startOf,placing,getD_eq_getElem?_getD,hspan]
    rfl
  have hedge : edgeOf graph schedule b = e := by
    rw [edgeOf,placing,getD_eq_getElem?_getD,hspan]
    rfl
  refine ⟨p,?_,by omega,fun honce => ?_⟩
  · rw [positionOf,placing,getD_eq_getElem?_getD,hp]
    rfl
  rw [hedge]
  exact honly fun j b' hj hub' => honce.2 j ⟨b',hj,hub'⟩

theorem start_le_edge (hb : b < schedule.blocks.length) :
    startOf graph schedule b ≤ edgeOf graph schedule b := by
  obtain ⟨s,e,hspan,-,hse,-⟩ := (placeBlocks_placed schedule.blocks
    { posOf := replicate graph.nodes.length none, span := [], seq := 0 }).placed b _
    (getElem?_eq_getElem hb)
  rw [length_nil,Nat.zero_add] at hspan
  rw [startOf,edgeOf,placing,getD_eq_getElem?_getD,hspan]
  exact hse

variable {wants : List Bool} {rules : LivenessRules}

theorem blockEvents_pos {e : Event} (he : e ∈ blockEvents graph schedule wants rules b) :
    ∃ u, EmittedIn schedule u b ∧ u < graph.nodes.length ∧
      positionOf graph schedule u = some e.pos ∧ (∀ v q, e = .define v q → u = v) := by
  rw [blockEvents,mem_flatMap] at he
  obtain ⟨u,hu,he⟩ := he
  cases hblock : schedule.blocks[b]? with
  | none => simp [hblock] at hu
  | some block => ?_
  have hemit : EmittedIn schedule u b := ⟨block,hblock,by simpa [hblock] using hu⟩
  rw [nodeEvents] at he
  cases hnode : graph.nodes[u]? with
  | none => simp [hnode] at he
  | some node => ?_
  have hlt := (List.getElem?_eq_some_iff.mp hnode).1
  obtain ⟨p,hp,-,-⟩ := block_placed hemit hlt
  have hpos : ((placing graph schedule).posOf.getD u none).getD (startOf graph schedule b) = p := by
    rw [show (placing graph schedule).posOf.getD u none = some p from hp]
    rfl
  refine ⟨u,hemit,hlt,?_,?_⟩
  · rw [hp]
    simp only [hnode,hpos] at he
    rcases mem_append.mp he with he | he
    · split at he
      · cases he
      obtain ⟨i,-,rfl⟩ := mem_map.mp he
      rfl
    split at he
    · obtain rfl := mem_singleton.mp he
      rfl
    · cases he
  rintro v q rfl
  simp only [hnode] at he
  rcases mem_append.mp he with he | he
  · split at he
    · cases he
    obtain ⟨i,-,heq⟩ := mem_map.mp he
    cases heq
  split at he
  · exact (Event.define.inj (mem_singleton.mp he)).1.symm
  · cases he

theorem defines_iff {v : Nat} (hv : wanted graph wants v = true) :
    Defines v (blockEvents graph schedule wants rules b) ↔ EmittedIn schedule v b := by
  constructor
  · rintro ⟨pos,hmem⟩
    obtain ⟨u,hemit,-,-,hdef⟩ := blockEvents_pos hmem
    rwa [← hdef v pos rfl]
  rintro ⟨block,hblock,hmem⟩
  obtain ⟨node,hnode⟩ : ∃ node, graph.nodes[v]? = some node :=
    ⟨_,getElem?_eq_getElem (wanted_lt hv)⟩
  refine ⟨((placing graph schedule).posOf.getD v none).getD (startOf graph schedule b),?_⟩
  rw [blockEvents,mem_flatMap]
  refine ⟨v,by simpa [hblock] using hmem,?_⟩
  rw [nodeEvents,hnode]
  simp only [hv,if_true]
  exact mem_append_right _ (mem_singleton.mpr rfl)

end

section
/-- A lower end: the least of the positions noted, if there are some. -/
def LoIs (o : Option Nat) (S : Set Nat) : Prop :=
  match o with
  | none => S = ∅
  | some p => IsLeast S p

/-- An upper end: the greatest of the positions noted. -/
def HiIs (h : Nat) (S : Set Nat) : Prop := (S = ∅ ∧ h = 0) ∨ IsGreatest S h

theorem LoIs.lower {o : Option Nat} {S : Set Nat} (h : LoIs o S) (p : Nat) :
    LoIs (lower o p) (S ∪ {p}) := by
  cases o with
  | none =>
    have hS : S = ∅ := h
    subst hS
    exact ⟨by simp,by simp [lowerBounds]⟩
  | some q => ?_
  obtain ⟨hmem,hle⟩ := (show IsLeast S q from h)
  refine ⟨?_,?_⟩
  · rcases Nat.le_total q p with hqp | hpq
    · rw [Nat.min_eq_left hqp]
      exact .inl hmem
    rw [Nat.min_eq_right hpq]
    exact .inr rfl
  rintro x (hx | rfl)
  · exact (Nat.min_le_left q p).trans (hle hx)
  · exact Nat.min_le_right q x

theorem HiIs.max {m : Nat} {S : Set Nat} (h : HiIs m S) (p : Nat) : HiIs (max m p) (S ∪ {p}) := by
  right
  rcases h with ⟨rfl,rfl⟩ | ⟨hmem,hle⟩
  · refine ⟨by simp,?_⟩
    rintro x (hx | rfl)
    · cases hx
    · simp
  refine ⟨?_,?_⟩
  · rcases Nat.le_total m p with hmp | hpm
    · rw [Nat.max_eq_right hmp]
      exact .inr rfl
    rw [Nat.max_eq_left hpm]
    exact .inl hmem
  rintro x (hx | rfl)
  · exact (hle hx).trans (Nat.le_max_left m p)
  · exact Nat.le_max_right m x

/-- The ranges are the ends of the positions noted for each value. -/
structure RangesAre (n : Nat) (r : Ranges) (L H : Nat → Set Nat) : Prop where
  lo : r.lo.length = n
  hi : r.hi.length = n
  least : ∀ v, v < n → LoIs (r.lo.getD v none) (L v)
  greatest : ∀ v, v < n → HiIs (r.hi.getD v 0) (H v)

theorem rangesAre_new (n : Nat) :
    RangesAre n { lo := replicate n none, hi := replicate n 0 } (fun _ => ∅) fun _ => ∅ := by
  refine ⟨by simp,by simp,fun v hv => ?_,fun v hv => ?_⟩
  · simp [getD_eq_getElem?_getD,hv,LoIs]
  · simp [getD_eq_getElem?_getD,hv,HiIs]

def notedAt (notes : List (Nat × Nat)) (v : Nat) : Set Nat := {q | (v,q) ∈ notes}

variable {n : Nat} {r : Ranges} {L H : Nat → Set Nat}

theorem RangesAre.congr {L' H' : Nat → Set Nat} (h : RangesAre n r L H) (hL : ∀ v, L v = L' v)
    (hH : ∀ v, H v = H' v) : RangesAre n r L' H' :=
  ⟨h.lo,h.hi,fun v hv => hL v ▸ h.least v hv,fun v hv => hH v ▸ h.greatest v hv⟩

theorem getD_modify {α : Type} {l : List α} {v : Nat} (hv : v < l.length) (f : α → α) (w : Nat) (d : α) :
    (l.modify v f).getD w d = if w = v then f (l.getD w d) else l.getD w d := by
  simp only [getD_eq_getElem?_getD,getElem?_modify]
  by_cases hwv : w = v
  · subst hwv
    simp [hv]
  · simp [hwv,Ne.symm hwv]

theorem RangesAre.noteLo (h : RangesAre n r L H) {v : Nat} (hv : v < n) (pos : Nat) :
    RangesAre n (r.noteLo v pos) (fun w => L w ∪ notedAt [(v,pos)] w) H := by
  refine ⟨by simp [Ranges.noteLo,h.lo],h.hi,fun w hw => ?_,h.greatest⟩
  have hold := h.least w hw
  simp only [Ranges.noteLo]
  rw [getD_modify (by rw [h.lo]; exact hv)]
  by_cases hwv : w = v
  · subst hwv
    have hset : notedAt [(w,pos)] w = {pos} := by
      simp [notedAt]
    rw [if_pos rfl,hset]
    exact hold.lower pos
  have hset : notedAt [(v,pos)] w = ∅ := by
    simp [notedAt,hwv]
  rw [if_neg hwv,hset,Set.union_empty]
  exact hold

theorem RangesAre.noteHi (h : RangesAre n r L H) {v : Nat} (hv : v < n) (pos : Nat) :
    RangesAre n (r.noteHi v pos) L fun w => H w ∪ notedAt [(v,pos)] w := by
  refine ⟨h.lo,by simp [Ranges.noteHi,h.hi],h.least,fun w hw => ?_⟩
  have hold := h.greatest w hw
  simp only [Ranges.noteHi]
  rw [getD_modify (by rw [h.hi]; exact hv)]
  by_cases hwv : w = v
  · subst hwv
    have hset : notedAt [(w,pos)] w = {pos} := by
      simp [notedAt]
    rw [if_pos rfl,hset]
    exact hold.max pos
  have hset : notedAt [(v,pos)] w = ∅ := by
    simp [notedAt,hwv]
  rw [if_neg hwv,hset,Set.union_empty]
  exact hold

theorem notedAt_cons (e : Nat × Nat) (notes : List (Nat × Nat)) (v : Nat) :
    notedAt (e::notes) v = notedAt [e] v ∪ notedAt notes v := by
  ext q
  simp [notedAt]

theorem RangesAre.notes (h : RangesAre n r L H) {notes : List (Nat × Nat)}
    (hnotes : ∀ e ∈ notes, e.1 < n) :
    RangesAre n (notes.foldl (fun r e => r.note e.1 e.2) r)
      (fun w => L w ∪ notedAt notes w) fun w => H w ∪ notedAt notes w := by
  induction notes generalizing r L H with
  | nil =>
    refine h.congr (fun v => ?_) fun v => ?_
    · simp [notedAt]
    · simp [notedAt]
  | cons e notes ih => ?_
  have hlt := hnotes e (by simp)
  have hone := (h.noteLo hlt e.2).noteHi hlt e.2
  refine (ih hone fun e he => hnotes e (by simp [he])).congr (fun v => ?_) fun v => ?_
  · rw [notedAt_cons e notes,Set.union_assoc]
  · rw [notedAt_cons e notes,Set.union_assoc]

theorem RangesAre.noteLos (h : RangesAre n r L H) {vs : List Nat} (hvs : ∀ v ∈ vs, v < n) (pos : Nat) :
    RangesAre n (vs.foldl (fun r v => r.noteLo v pos) r)
      (fun w => L w ∪ {q | w ∈ vs ∧ q = pos}) H := by
  induction vs generalizing r L with
  | nil => exact h.congr (fun v => by simp) fun _ => rfl
  | cons v vs ih => ?_
  refine (ih (h.noteLo (hvs v (by simp)) pos) fun w hw => hvs w (by simp [hw])).congr
    (fun w => ?_) fun _ => rfl
  ext q
  simp only [notedAt,Set.mem_union,Set.mem_ofPred_eq,Prod.mk.injEq,mem_cons,not_mem_nil]
  tauto

theorem RangesAre.noteHis (h : RangesAre n r L H) {vs : List Nat} (hvs : ∀ v ∈ vs, v < n) (pos : Nat) :
    RangesAre n (vs.foldl (fun r v => r.noteHi v pos) r) L
      fun w => H w ∪ {q | w ∈ vs ∧ q = pos} := by
  induction vs generalizing r H with
  | nil => exact h.congr (fun _ => rfl) fun v => by simp
  | cons v vs ih => ?_
  refine (ih (h.noteHi (hvs v (by simp)) pos) fun w hw => hvs w (by simp [hw])).congr
    (fun _ => rfl) fun w => ?_
  ext q
  simp only [notedAt,Set.mem_union,Set.mem_ofPred_eq,Prod.mk.injEq,mem_cons,not_mem_nil]
  tauto

end

section
variable {graph : Graph} {schedule : Schedule} {wants : List Bool} {rules : LivenessRules}
variable (bit : Nat → Nat)

theorem scan_ranges (es : List Event) (st : Scan) :
    (es.foldl (scanEvent rules bit) st).ranges =
      (es.map fun e => (e.value,e.pos)).foldl (fun r e => r.note e.1 e.2) st.ranges := by
  induction es generalizing st with
  | nil => rfl
  | cons e es ih =>
    rw [foldl_cons,ih,map_cons,foldl_cons]
    cases e <;> rfl

/-- Every read and definition, block by block. -/
def allEvents (graph : Graph) (schedule : Schedule) (wants : List Bool) (rules : LivenessRules)
    (m : Nat) : List Event :=
  (List.range m).flatMap (blockEvents graph schedule wants rules)

theorem direct_ranges (words : Nat) (r : Ranges) (m : Nat) :
    ((range m).foldl (scanBlock graph schedule wants rules bit words)
      { ranges := r, reads := [], uses := [], defs := [] }).ranges =
    ((allEvents graph schedule wants rules m).map fun e => (e.value,e.pos)).foldl
      (fun r e => r.note e.1 e.2) r := by
  induction m with
  | zero => rfl
  | succ m ih => ?_
  rw [range_succ,foldl_append,foldl_cons,foldl_nil,scanBlock]
  dsimp only
  rw [scan_ranges,ih,allEvents,allEvents,range_succ,flatMap_append,map_append,
    foldl_append]
  simp

/-- The reads on edges. -/
def edgeNotes (graph : Graph) (schedule : Schedule) (rules : LivenessRules)
    (ops : List EdgeOperand) : List (Nat × Nat) :=
  (ops.filter fun e => !sourceUnread graph rules e.phi).map
    fun e => (e.value,edgeOf graph schedule e.pred)

/-- The edges that the phi edge rule adds. -/
def phiNotes (graph : Graph) (schedule : Schedule) (wants : List Bool) (rules : LivenessRules)
    (ops : List EdgeOperand) : List (Nat × Nat) :=
  (ops.filter fun e => rules.phiEdgeInterfere && wanted graph wants e.phi).map
    fun e => (e.phi,edgeOf graph schedule e.pred)

theorem edges_ranges (ops : List EdgeOperand) (st : EdgeScan) :
    (ops.foldl (scanOperand graph schedule wants rules bit) st).ranges =
      (edgeNotes graph schedule rules ops).foldl (fun r e => r.note e.1 e.2) st.ranges ∧
    (ops.foldl (scanOperand graph schedule wants rules bit) st).phiEdges =
      st.phiEdges ++ phiNotes graph schedule wants rules ops := by
  induction ops generalizing st with
  | nil => simp [edgeNotes,phiNotes]
  | cons e ops ih => ?_
  obtain ⟨h1,h2⟩ := ih (scanOperand graph schedule wants rules bit st e)
  rw [foldl_cons,h1,h2]
  cases hun : sourceUnread graph rules e.phi <;>
    cases hphi : (rules.phiEdgeInterfere && wanted graph wants e.phi) <;>
      simp [scanOperand,edgeNotes,phiNotes,hun,hphi]

theorem foldl_if_map {α : Type} (f : α → Nat → α) (node : Nat → Nat) (p : Nat → Bool) (ks : List Nat)
    (a : α) :
    ks.foldl (fun a k => if p (node k) then f a (node k) else a) a =
      ((ks.map node).filter p).foldl f a := by
  induction ks generalizing a with
  | nil => rfl
  | cons k ks ih =>
    rw [foldl_cons,ih,map_cons,filter_cons]
    split <;> simp

variable {dense : Bool}

theorem mem_rowValues {row : Row} {P : Nat → Prop} (h : Holds graph wants dense row P) {v : Nat} :
    v ∈ ((bits row).map (nodeOfBit graph wants dense)).filter (wanted graph wants) ↔
      wanted graph wants v = true ∧ P v := by
  rw [mem_filter,mem_map]
  constructor
  · rintro ⟨⟨k,hk,rfl⟩,hv⟩
    obtain ⟨w,hw,rfl,hP⟩ := (h k).mp ((mem_bits _ _).mp hk)
    rw [nodeOfBit_bitOf hw] at hv ⊢
    exact ⟨hv,hP⟩
  rintro ⟨hv,hP⟩
  exact ⟨⟨_,(mem_bits _ _).mpr ((h.at hv).mpr hP),nodeOfBit_bitOf hv⟩,hv⟩

theorem RangesAre.widen {live : LiveSets} {r : Ranges} {L H : Nat → Set Nat} {I O : Nat → Nat → Prop}
    (h : RangesAre graph.nodes.length r L H) {m : Nat}
    (hlive : ∀ b, b < m → Holds graph wants dense (rowOf live.li b) (I b) ∧
      Holds graph wants dense (rowOf live.lout b) (O b)) :
    RangesAre graph.nodes.length
      ((range m).foldl
        (widenBlock graph schedule wants (nodeOfBit graph wants dense) live) r)
      (fun v => L v ∪ {q | wanted graph wants v = true ∧ ∃ b, b < m ∧ I b v ∧ q = startOf graph schedule b})
      (fun v => H v ∪ {q | wanted graph wants v = true ∧ ∃ b, b < m ∧ O b v ∧ q = edgeOf graph schedule b}) := by
  induction m with
  | zero => exact h.congr (fun v => by simp) fun v => by simp
  | succ m ih => ?_
  rw [range_succ,foldl_append,foldl_cons,foldl_nil,widenBlock]
  have hold := ih fun b hb => hlive b (by omega)
  obtain ⟨hin,hout⟩ := hlive m (by omega)
  rw [foldl_if_map (fun r v => Ranges.noteLo r v (startOf graph schedule m)),
    foldl_if_map (fun r v => Ranges.noteHi r v (edgeOf graph schedule m))]
  have hlt : ∀ row, ∀ v ∈ ((bits row).map (nodeOfBit graph wants dense)).filter (wanted graph wants),
      v < graph.nodes.length := fun row v hv => wanted_lt (mem_filter.mp hv).2
  refine ((hold.noteLos (hlt _) _).noteHis (hlt _) _).congr (fun v => ?_) fun v => ?_
  · ext q
    simp only [Set.mem_union,Set.mem_ofPred_eq,mem_rowValues hin,or_assoc]
    refine or_congr_right ?_
    constructor
    · rintro (⟨hv,b,hb,hI,rfl⟩ | ⟨⟨hv,hI⟩,rfl⟩)
      · exact ⟨hv,b,by omega,hI,rfl⟩
      · exact ⟨hv,m,by omega,hI,rfl⟩
    rintro ⟨hv,b,hb,hI,rfl⟩
    rcases Nat.lt_succ_iff_lt_or_eq.mp hb with hb | rfl
    · exact .inl ⟨hv,b,hb,hI,rfl⟩
    · exact .inr ⟨⟨hv,hI⟩,rfl⟩
  ext q
  simp only [Set.mem_union,Set.mem_ofPred_eq,mem_rowValues hout,or_assoc]
  refine or_congr_right ?_
  constructor
  · rintro (⟨hv,b,hb,hO,rfl⟩ | ⟨⟨hv,hO⟩,rfl⟩)
    · exact ⟨hv,b,by omega,hO,rfl⟩
    · exact ⟨hv,m,by omega,hO,rfl⟩
  rintro ⟨hv,b,hb,hO,rfl⟩
  rcases Nat.lt_succ_iff_lt_or_eq.mp hb with hb | rfl
  · exact .inl ⟨hv,b,hb,hO,rfl⟩
  · exact .inr ⟨⟨hv,hO⟩,rfl⟩

end
end CratonVM.Jit.Liveness
