import CratonVM.Jit.Liveness.Postorder

/-!
The block sets of the liveness core against paths through the control-flow graph: a value is in a
live-in set exactly when some path reads it before it passes its definition.
-/
namespace CratonVM.Jit.Liveness
open BitRows GenKill
open List hiding get length_set
section
variable (graph : Graph) (schedule : Schedule) (wants : List Bool) (rules : LivenessRules)

/-- Some read of the value has no definition of it in front. -/
def ReadsFirst (v : Nat) : List Event → Prop
  | [] => False
  | .read w _::es => w = v ∨ ReadsFirst v es
  | .define w _::es => w ≠ v ∧ ReadsFirst v es

def Defines (v : Nat) (es : List Event) : Prop := ∃ pos, Event.define v pos ∈ es

/-- What is read on the edge out of a block: the operands of phis that its control names. -/
def edgeEvents (b : Nat) : List Event :=
  ((edgeOperands graph schedule wants).filter fun e =>
    decide (e.pred = b) && !sourceUnread graph rules e.phi).map
      fun e => .read e.value (edgeOf graph schedule b)

/-- An edge of the control-flow graph. -/
def Next (b s : Nat) : Prop := s ∈ successorsOf schedule.blocks b ∧ s < schedule.blocks.length

/-- What happens along a path of whole blocks. -/
def trace (path : List Nat) : List Event :=
  path.flatMap fun b =>
    blockEvents graph schedule wants rules b ++ edgeEvents graph schedule wants rules b

/-- Some path from the start of the block reads the value before it passes its definition. -/
def LiveIn (b v : Nat) : Prop :=
  ∃ path, (b::path).IsChain (Next schedule) ∧ ReadsFirst v (trace graph schedule wants rules (b::path))

/-- Some path from the outgoing edge of the block does. -/
def LiveOut (b v : Nat) : Prop :=
  ∃ path, (b::path).IsChain (Next schedule) ∧
    ReadsFirst v (edgeEvents graph schedule wants rules b ++ trace graph schedule wants rules path)

end

variable {graph : Graph} {schedule : Schedule} {wants : List Bool} {rules : LivenessRules}

section
theorem readsFirst_append {v : Nat} {xs ys : List Event} :
    ReadsFirst v (xs ++ ys) ↔ ReadsFirst v xs ∨ (¬Defines v xs ∧ ReadsFirst v ys) := by
  induction xs with
  | nil => simp [ReadsFirst,Defines]
  | cons e es ih => ?_
  cases e with
  | read w pos =>
    have hdef : Defines v (.read w pos::es) ↔ Defines v es := by simp [Defines]
    simp [cons_append,ReadsFirst,ih,hdef,or_assoc]
  | define w pos => ?_
  by_cases hw : w = v
  · subst hw
    have hdef : Defines w (.define w pos::es) := ⟨pos,by simp⟩
    simp [ReadsFirst,hdef]
  have hdef : Defines v (.define w pos::es) ↔ Defines v es := by
    simp [Defines,Ne.symm hw]
  simp [ReadsFirst,ih,hdef,hw]

theorem readsFirst_edgeEvents {b v : Nat} {es : List Event} :
    ReadsFirst v (edgeEvents graph schedule wants rules b ++ es) ↔
      ReadsFirst v (edgeEvents graph schedule wants rules b) ∨ ReadsFirst v es := by
  have hdef : ¬Defines v (edgeEvents graph schedule wants rules b) := by
    rintro ⟨pos,hmem⟩
    simp [edgeEvents] at hmem
  rw [readsFirst_append]
  simp [hdef]

theorem readsFirst_edge {b v : Nat} :
    ReadsFirst v (edgeEvents graph schedule wants rules b) ↔
      ∃ e ∈ edgeOperands graph schedule wants, e.pred = b ∧ sourceUnread graph rules e.phi = false ∧
        e.value = v := by
  have hmap : ∀ (l : List EdgeOperand) pos, ReadsFirst v (l.map fun e => Event.read e.value pos) ↔
      ∃ e ∈ l, e.value = v := by
    intro l pos
    induction l with
    | nil => simp [ReadsFirst]
    | cons e l ih => simp [ReadsFirst,ih]
  rw [edgeEvents,hmap]
  simp [and_assoc]

/-- The same facts as a backward analysis over the blocks. -/
def blockProblem (graph : Graph) (schedule : Schedule) (wants : List Bool) (rules : LivenessRules) :
    Problem Nat Nat where
  next := Next schedule
  gen b v := ReadsFirst v (blockEvents graph schedule wants rules b)
  kill b v := Defines v (blockEvents graph schedule wants rules b)
  edge b v := ReadsFirst v (edgeEvents graph schedule wants rules b)

/-- Both sides of a block, by paths. -/
def PathLive (graph : Graph) (schedule : Schedule) (wants : List Bool) (rules : LivenessRules)
    (v : Nat) : Side → Nat → Prop
  | .entry,b => LiveIn graph schedule wants rules b v
  | .leaving,b => LiveOut graph schedule wants rules b v

theorem trace_cons (b : Nat) (path : List Nat) :
    trace graph schedule wants rules (b::path) = blockEvents graph schedule wants rules b ++
      (edgeEvents graph schedule wants rules b ++ trace graph schedule wants rules path) := by
  simp [trace]

theorem pathLive_of_live {v b : Nat} {side : Side}
    (h : Live (blockProblem graph schedule wants rules) v side b) :
    PathLive graph schedule wants rules v side b := by
  induction h with
  | gen h =>
    refine ⟨[],by simp,?_⟩
    rw [trace_cons,readsFirst_append]
    exact .inl h
  | @through b _ hkill ih =>
    obtain ⟨path,hpath,hread⟩ := ih
    refine ⟨path,hpath,?_⟩
    rw [trace_cons,readsFirst_append]
    exact .inr ⟨hkill,hread⟩
  | edge h =>
    refine ⟨[],by simp,?_⟩
    rw [readsFirst_edgeEvents]
    exact .inl h
  | @next b s hs _ ih => ?_
  obtain ⟨path,hpath,hread⟩ := ih
  refine ⟨s::path,?_,?_⟩
  · rw [isChain_cons_cons]
    exact ⟨hs,hpath⟩
  rw [readsFirst_edgeEvents]
  exact .inr hread

theorem live_of_path {v : Nat} (path : List Nat) :
    ∀ b, (b::path).IsChain (Next schedule) →
      (ReadsFirst v (edgeEvents graph schedule wants rules b ++ trace graph schedule wants rules path) →
        Live (blockProblem graph schedule wants rules) v .leaving b) ∧
      (ReadsFirst v (trace graph schedule wants rules (b::path)) →
        Live (blockProblem graph schedule wants rules) v .entry b) := by
  induction path with
  | nil =>
    intro b _
    have hleaving : ReadsFirst v (edgeEvents graph schedule wants rules b ++
        trace graph schedule wants rules []) →
        Live (blockProblem graph schedule wants rules) v .leaving b := by
      intro h
      rw [readsFirst_edgeEvents] at h
      rcases h with h | h
      · exact .edge h
      · cases h
    refine ⟨hleaving,fun h => ?_⟩
    rw [trace_cons,readsFirst_append] at h
    rcases h with h | ⟨hkill,h⟩
    · exact .gen h
    · exact .through (hleaving h) hkill
  | cons s path ih => ?_
  intro b hchain
  rw [isChain_cons_cons] at hchain
  have hleaving : ReadsFirst v (edgeEvents graph schedule wants rules b ++
      trace graph schedule wants rules (s::path)) →
      Live (blockProblem graph schedule wants rules) v .leaving b := by
    intro h
    rw [readsFirst_edgeEvents] at h
    rcases h with h | h
    · exact .edge h
    · exact .next hchain.1 ((ih s hchain.2).2 h)
  refine ⟨hleaving,fun h => ?_⟩
  rw [trace_cons,readsFirst_append] at h
  rcases h with h | ⟨hkill,h⟩
  · exact .gen h
  · exact .through (hleaving h) hkill

theorem live_iff_path {v b : Nat} {side : Side} :
    Live (blockProblem graph schedule wants rules) v side b ↔
      PathLive graph schedule wants rules v side b := by
  refine ⟨pathLive_of_live,fun h => ?_⟩
  cases side with
  | entry =>
    obtain ⟨path,hpath,hread⟩ := h
    exact (live_of_path path b hpath).2 hread
  | leaving =>
    obtain ⟨path,hpath,hread⟩ := h
    exact (live_of_path path b hpath).1 hread

end

section
/-- Wanted values below a bound have numbers of their own. -/
structure Numbered (graph : Graph) (wants : List Bool) (m : Nat) (s : List Nat × List Nat) : Prop where
  length : s.1.length = m
  number : ∀ i, i < m → wanted graph wants i = true → s.2[s.1.getD i noBlock]? = some i
  value : ∀ (k : Nat) i, s.2[k]? = some i → i < m ∧ wanted graph wants i = true ∧ s.1.getD i noBlock = k

theorem numbered (graph : Graph) (wants : List Bool) :
    Numbered graph wants graph.nodes.length (numbering graph wants) := by
  rw [numbering]
  induction graph.nodes.length with
  | zero => exact ⟨rfl,by simp,by simp⟩
  | succ m ih => ?_
  rw [range_succ,foldl_append,foldl_cons,foldl_nil]
  generalize (range m).foldl _ ([],[]) = s at ih ⊢
  obtain ⟨denseOf,sparseOf⟩ := s
  obtain ⟨hlen,hnum,hval⟩ := ih
  dsimp only at hlen hnum hval ⊢
  have hold : ∀ (i x : Nat), i < m → (denseOf ++ [x]).getD i noBlock = denseOf.getD i noBlock := by
    intro i x hi
    simp [getD_eq_getElem?_getD,getElem?_append_left (show i < denseOf.length by omega)]
  have hnew : ∀ x : Nat, (denseOf ++ [x]).getD m noBlock = x := by
    simp [getD_eq_getElem?_getD,← hlen]
  split
  · rename_i hw
    refine ⟨by simp [hlen],fun i hi hwi => ?_,fun k i hk => ?_⟩
    · rcases Nat.lt_or_ge i m with hlt | hge
      · have h := hnum i hlt hwi
        have hklt := (List.getElem?_eq_some_iff.mp h).1
        rw [hold i _ hlt,getElem?_append_left hklt]
        exact h
      obtain rfl : i = m := by omega
      rw [hnew]
      simp
    rcases Nat.lt_or_ge k sparseOf.length with hlt | hge
    · rw [getElem?_append_left hlt] at hk
      obtain ⟨hi,hwi,heq⟩ := hval k i hk
      exact ⟨by omega,hwi,by rw [hold i _ hi]; exact heq⟩
    rw [getElem?_append_right hge] at hk
    obtain ⟨hz,hi⟩ := List.getElem?_eq_some_iff.mp hk
    have hk0 : k = sparseOf.length := by
      simp at hz
      omega
    obtain rfl : m = i := by simpa using hi
    exact ⟨by omega,hw,by rw [hnew,hk0]⟩
  · rename_i hw
    refine ⟨by simp [hlen],fun i hi hwi => ?_,fun k i hk => ?_⟩
    · rcases Nat.lt_or_ge i m with hlt | hge
      · rw [hold i _ hlt]
        exact hnum i hlt hwi
      obtain rfl : i = m := by omega
      exact absurd hwi hw
    obtain ⟨hi,hwi,heq⟩ := hval k i hk
    exact ⟨by omega,hwi,by rw [hold i _ hi]; exact heq⟩

theorem wanted_lt {i : Nat} (h : wanted graph wants i = true) : i < graph.nodes.length := by
  simp only [wanted,Bool.and_eq_true,decide_eq_true_eq] at h
  exact h.1

/-- How many numbers there are. -/
def valueCount (graph : Graph) (wants : List Bool) (dense : Bool) : Nat :=
  if dense then (numbering graph wants).2.length else graph.nodes.length

variable {dense : Bool}

theorem nodeOfBit_bitOf {v : Nat} (h : wanted graph wants v = true) :
    nodeOfBit graph wants dense (bitOf graph wants dense v) = v := by
  cases dense with
  | false => rfl
  | true =>
    have hnum := (numbered graph wants).number v (wanted_lt h) h
    simp only [nodeOfBit,bitOf,if_true]
    rw [getD_eq_getElem?_getD,hnum]
    rfl

theorem bitOf_lt {v : Nat} (h : wanted graph wants v = true) :
    bitOf graph wants dense v < valueCount graph wants dense := by
  cases dense with
  | false => exact wanted_lt h
  | true =>
    have hnum := (numbered graph wants).number v (wanted_lt h) h
    exact (List.getElem?_eq_some_iff.mp hnum).1

theorem bitOf_inj {v w : Nat} (hv : wanted graph wants v = true) (hw : wanted graph wants w = true)
    (h : bitOf graph wants dense v = bitOf graph wants dense w) : v = w := by
  have := congrArg (nodeOfBit graph wants dense) h
  rwa [nodeOfBit_bitOf hv,nodeOfBit_bitOf hw] at this

end

section
/-- The row has the numbers of exactly the wanted values with a property. -/
def Holds (graph : Graph) (wants : List Bool) (dense : Bool) (row : Row) (P : Nat → Prop) : Prop :=
  ∀ k, get row k = true ↔
    ∃ v, wanted graph wants v = true ∧ bitOf graph wants dense v = k ∧ P v

variable {dense : Bool} {row : Row} {P Q : Nat → Prop}

theorem holds_empty (words : Nat) : Holds graph wants dense (empty words) fun _ => False := by
  intro k
  simp

theorem Holds.congr (h : Holds graph wants dense row P)
    (hPQ : ∀ v, wanted graph wants v = true → (P v ↔ Q v)) : Holds graph wants dense row Q := by
  intro k
  rw [h k]
  exact exists_congr fun v => and_congr_right fun hv => and_congr_right fun _ => hPQ v hv

theorem Holds.at (h : Holds graph wants dense row P) {v : Nat} (hv : wanted graph wants v = true) :
    get row (bitOf graph wants dense v) = true ↔ P v := by
  rw [h]
  constructor
  · rintro ⟨w,hw,heq,hP⟩
    rwa [bitOf_inj hw hv heq] at hP
  · exact fun hP => ⟨v,hv,rfl,hP⟩

theorem Holds.set (h : Holds graph wants dense row P) {w : Nat} (hw : wanted graph wants w = true)
    (hwidth : valueCount graph wants dense ≤ 64*row.length) :
    Holds graph wants dense (set row (bitOf graph wants dense w)) fun v => P v ∨ v = w := by
  intro k
  have hlt := @bitOf_lt graph wants dense w hw
  rw [get_set,Bool.or_eq_true,h k]
  have hin : bitOf graph wants dense w/64 < row.length := by omega
  simp only [hin,decide_true,Bool.and_true,decide_eq_true_eq]
  constructor
  · rintro (⟨v,hv,heq,hP⟩ | rfl)
    · exact ⟨v,hv,heq,.inl hP⟩
    · exact ⟨w,hw,rfl,.inr rfl⟩
  rintro ⟨v,hv,heq,hP | rfl⟩
  · exact .inl ⟨v,hv,heq,hP⟩
  · exact .inr heq

def Event.value : Event → Nat
  | .read v _ => v
  | .define v _ => v

def Event.pos : Event → Nat
  | .read _ pos => pos
  | .define _ pos => pos

theorem blockEvents_wanted {b : Nat} {e : Event} (he : e ∈ blockEvents graph schedule wants rules b) :
    wanted graph wants e.value = true := by
  rw [blockEvents,mem_flatMap] at he
  obtain ⟨u,-,he⟩ := he
  rw [nodeEvents] at he
  split at he
  · cases he
  rcases mem_append.mp he with he | he
  · split at he
    · cases he
    obtain ⟨i,hi,rfl⟩ := mem_map.mp he
    have hc := (mem_filter.mp hi).2
    simp only [counted,Bool.and_eq_true] at hc
    exact hc.1.2
  split at he
  · rename_i hw
    obtain rfl := mem_singleton.mp he
    exact hw
  · cases he

theorem scan_holds {es : List Event} (hes : ∀ e ∈ es, wanted graph wants e.value = true)
    {st : Scan} {U D : Nat → Prop} {words : Nat}
    (hwords : valueCount graph wants dense ≤ 64*words)
    (hu : st.uses.length = words) (hd : st.defs.length = words) (hl : st.localDef.length = words)
    (huses : Holds graph wants dense st.uses U) (hdefs : Holds graph wants dense st.defs D)
    (hlocal : Holds graph wants dense st.localDef D) :
    (es.foldl (scanEvent rules (bitOf graph wants dense)) st).uses.length = words ∧
    (es.foldl (scanEvent rules (bitOf graph wants dense)) st).defs.length = words ∧
    Holds graph wants dense (es.foldl (scanEvent rules (bitOf graph wants dense)) st).uses
      (fun v => U v ∨ (¬D v ∧ ReadsFirst v es)) ∧
    Holds graph wants dense (es.foldl (scanEvent rules (bitOf graph wants dense)) st).defs
      (fun v => D v ∨ Defines v es) := by
  induction es generalizing st U D with
  | nil =>
    exact ⟨hu,hd,huses.congr fun v _ => by simp [ReadsFirst],hdefs.congr fun v _ => by simp [Defines]⟩
  | cons e es ih => ?_
  rw [foldl_cons]
  have hes' : ∀ e ∈ es, wanted graph wants e.value = true := fun e he => hes e (by simp [he])
  cases e with
  | read w pos => ?_
  | define w pos =>
    have hw : wanted graph wants w = true := hes (.define w pos) (by simp)
    have hdefs' := hdefs.set hw (by rw [hd]; exact hwords)
    have hlocal' := hlocal.set hw (by rw [hl]; exact hwords)
    obtain ⟨h1,h2,h3,h4⟩ := @ih hes' (scanEvent rules (bitOf graph wants dense) st (.define w pos))
      U (fun v => D v ∨ v = w) hu (by simp [scanEvent,hd]) (by simp [scanEvent,hl]) huses hdefs' hlocal'
    refine ⟨h1,h2,h3.congr fun v _ => ?_,h4.congr fun v _ => ?_⟩
    · simp only [ReadsFirst,not_or,and_assoc]
      refine or_congr_right (and_congr_right fun _ => and_congr_left fun _ => ?_)
      exact ⟨fun h => Ne.symm h,fun h => Ne.symm h⟩
    rw [or_assoc]
    refine or_congr_right ?_
    constructor
    · rintro (rfl | ⟨q,hq⟩)
      · exact ⟨pos,by simp⟩
      · exact ⟨q,by simp [hq]⟩
    rintro ⟨q,hq⟩
    rcases mem_cons.mp hq with heq | hq
    · exact .inl (Event.define.inj heq).1
    · exact .inr ⟨q,hq⟩
  have hw : wanted graph wants w = true := hes (.read w pos) (by simp)
  have hat := hlocal.at hw
  have hu' : (scanEvent rules (bitOf graph wants dense) st (.read w pos)).uses.length = words := by
    simp only [scanEvent]
    split
    · exact hu
    · rw [length_set,hu]
  have huses' : Holds graph wants dense
      (scanEvent rules (bitOf graph wants dense) st (.read w pos)).uses
      (fun v => U v ∨ (¬D v ∧ v = w)) := by
    simp only [scanEvent]
    split
    · rename_i hdef
      refine huses.congr fun v _ => ?_
      have hDw := hat.mp hdef
      constructor
      · exact .inl
      rintro (hU | ⟨hD,rfl⟩)
      · exact hU
      · exact absurd hDw hD
    rename_i hdef
    have hDw : ¬D w := fun hD => hdef (hat.mpr hD)
    refine (huses.set hw (by rw [hu]; exact hwords)).congr fun v _ => ?_
    refine or_congr_right ⟨fun h => ⟨h ▸ hDw,h⟩,fun h => h.2⟩
  obtain ⟨h1,h2,h3,h4⟩ := ih hes' hu' hd hl huses' hdefs hlocal
  refine ⟨h1,h2,h3.congr fun v _ => ?_,h4.congr fun v _ => ?_⟩
  · simp only [ReadsFirst,or_assoc]
    refine or_congr_right ?_
    constructor
    · rintro (⟨hD,rfl⟩ | ⟨hD,hr⟩)
      · exact ⟨hD,.inl rfl⟩
      · exact ⟨hD,.inr hr⟩
    rintro ⟨hD,rfl | hr⟩
    · exact .inl ⟨hD,rfl⟩
    · exact .inr ⟨hD,hr⟩
  · simp [Defines]

/-- One row for every block, each with the values that have the block's property. -/
structure RowsHold (graph : Graph) (wants : List Bool) (dense : Bool) (nb words : Nat)
    (rows : List Row) (P : Nat → Nat → Prop) : Prop where
  shaped : Shaped nb words rows
  holds : ∀ b, b < nb → Holds graph wants dense (rowOf rows b) (P b)

theorem RowsHold.append {nb words : Nat} {rows : List Row} {P : Nat → Nat → Prop}
    (h : RowsHold graph wants dense nb words rows P) (hrow : row.length = words)
    (hP : Holds graph wants dense row (P nb)) :
    RowsHold graph wants dense (nb+1) words (rows ++ [row]) P := by
  have hat : ∀ b, b < nb+1 → rowOf (rows ++ [row]) b = if b = nb then row else rowOf rows b := by
    intro b hb
    have hlen := h.shaped.length
    simp only [rowOf,getD_eq_getElem?_getD]
    by_cases hbn : b = nb
    · subst hbn
      simp [← hlen]
    · rw [getElem?_append_left (by omega),if_neg hbn]
  refine ⟨⟨by simp [h.shaped.length],fun b hb => ?_⟩,fun b hb => ?_⟩
  · rw [hat b hb]
    split
    · exact hrow
    · exact h.shaped.width b (by omega)
  rw [hat b hb]
  split
  · rename_i hbn
    rw [hbn]
    exact hP
  · exact h.holds b (by omega)

theorem direct_holds {words : Nat} (hwords : valueCount graph wants dense ≤ 64*words) (r : Ranges)
    (m : Nat) :
    RowsHold graph wants dense m words
      ((range m).foldl (scanBlock graph schedule wants rules (bitOf graph wants dense) words)
        { ranges := r, reads := [], uses := [], defs := [] }).uses
      (fun b v => ReadsFirst v (blockEvents graph schedule wants rules b)) ∧
    RowsHold graph wants dense m words
      ((range m).foldl (scanBlock graph schedule wants rules (bitOf graph wants dense) words)
        { ranges := r, reads := [], uses := [], defs := [] }).defs
      (fun b v => Defines v (blockEvents graph schedule wants rules b)) := by
  induction m with
  | zero => exact ⟨⟨⟨rfl,by simp⟩,by simp⟩,⟨⟨rfl,by simp⟩,by simp⟩⟩
  | succ m ih => ?_
  rw [range_succ,foldl_append,foldl_cons,foldl_nil]
  generalize (range m).foldl _ _ = st at ih ⊢
  obtain ⟨h1,h2,h3,h4⟩ := @scan_holds graph wants rules dense
    (blockEvents graph schedule wants rules m) (fun e he => blockEvents_wanted he)
    { ranges := st.ranges, reads := st.reads, localDef := empty words, uses := empty words
      defs := empty words }
    (fun _ => False) (fun _ => False) words hwords (by simp) (by simp) (by simp)
    (holds_empty words) (holds_empty words) (holds_empty words)
  exact ⟨ih.1.append h1 (h3.congr fun v _ => by simp),ih.2.append h2 (h4.congr fun v _ => by simp)⟩

theorem edgeOperands_spec {e : EdgeOperand} (he : e ∈ edgeOperands graph schedule wants) :
    wanted graph wants e.value = true ∧ e.pred < schedule.blocks.length := by
  rw [edgeOperands,mem_flatMap] at he
  obtain ⟨b,-,he⟩ := he
  rw [operandsInto] at he
  split at he
  · cases he
  split at he
  · cases he
  split at he
  · obtain ⟨⟨ctrlIn,k⟩,-,he⟩ := mem_flatMap.mp he
    dsimp only at he
    split at he
    · split at he
      · rename_i hpred
        obtain ⟨pid,-,hop⟩ := mem_filterMap.mp he
        rw [phiOperand] at hop
        split at hop
        · split at hop
          · rename_i hv
            obtain rfl := Option.some.inj hop
            rw [Bool.and_eq_true] at hv
            exact ⟨hv.2,hpred⟩
          · cases hop
        · cases hop
      · cases he
    · cases he
  · cases he

theorem RowsHold.modify {nb words b : Nat} {rows : List Row} {P : Nat → Nat → Prop}
    (h : RowsHold graph wants dense nb words rows P)
    (hwords : valueCount graph wants dense ≤ 64*words) {w : Nat}
    (hw : wanted graph wants w = true) (hb : b < nb) :
    RowsHold graph wants dense nb words (rows.modify b (BitRows.set · (bitOf graph wants dense w)))
      (fun c v => P c v ∨ (b = c ∧ w = v)) := by
  have hat : ∀ c, rowOf (rows.modify b (BitRows.set · (bitOf graph wants dense w))) c =
      if b = c then BitRows.set (rowOf rows c) (bitOf graph wants dense w) else rowOf rows c := by
    intro c
    simp only [rowOf,getD_eq_getElem?_getD,getElem?_modify]
    by_cases hbc : b = c
    · subst hbc
      rw [getElem?_eq_getElem (by rw [h.shaped.length]; exact hb)]
      simp
    · cases rows[c]? <;> simp [hbc]
  refine ⟨⟨by simp [h.shaped.length],fun c hc => ?_⟩,fun c hc => ?_⟩
  · rw [hat]
    split
    · rw [length_set,h.shaped.width c hc]
    · exact h.shaped.width c hc
  rw [hat]
  split
  · rename_i hbc
    refine ((h.holds c hc).set hw (by rw [h.shaped.width c hc]; exact hwords)).congr fun v _ => ?_
    exact or_congr_right ⟨fun hv => ⟨hbc,hv.symm⟩,fun hv => hv.2.symm⟩
  rename_i hbc
  refine (h.holds c hc).congr fun v _ => ?_
  simp [hbc]

theorem edges_hold {words nb : Nat} (hwords : valueCount graph wants dense ≤ 64*words)
    {ops : List EdgeOperand} (hops : ∀ e ∈ ops, wanted graph wants e.value = true ∧ e.pred < nb)
    {st : EdgeScan} {P : Nat → Nat → Prop} (h : RowsHold graph wants dense nb words st.phiOut P) :
    RowsHold graph wants dense nb words
      (ops.foldl (scanOperand graph schedule wants rules (bitOf graph wants dense)) st).phiOut
      (fun b v => P b v ∨ ∃ e ∈ ops, e.pred = b ∧ sourceUnread graph rules e.phi = false ∧
        e.value = v) := by
  induction ops generalizing st P with
  | nil =>
    refine ⟨h.shaped,fun b hb => (h.holds b hb).congr fun v _ => ?_⟩
    simp
  | cons e ops ih => ?_
  have hops' : ∀ e ∈ ops, wanted graph wants e.value = true ∧ e.pred < nb :=
    fun e he => hops e (by simp [he])
  obtain ⟨hw,hpred⟩ := hops e (by simp)
  by_cases hun : sourceUnread graph rules e.phi = true
  · have hst : (scanOperand graph schedule wants rules (bitOf graph wants dense) st e).phiOut =
        st.phiOut := by
      simp only [scanOperand,hun,if_true]
      split <;> rfl
    have hrest := ih hops' (hst ▸ h)
    refine ⟨hrest.shaped,fun b hb => (hrest.holds b hb).congr fun v _ => ?_⟩
    simp [hun]
  have hst : (scanOperand graph schedule wants rules (bitOf graph wants dense) st e).phiOut =
      st.phiOut.modify e.pred (BitRows.set · (bitOf graph wants dense e.value)) := by
    simp only [scanOperand,hun]
    split <;> rfl
  have hrest := ih hops' (hst ▸ h.modify hwords hw hpred)
  refine ⟨hrest.shaped,fun b hb => (hrest.holds b hb).congr fun v _ => ?_⟩
  have hread : sourceUnread graph rules e.phi = false := by simpa using hun
  simp only [mem_cons,exists_eq_or_imp,hread,true_and,or_assoc]

end

section
variable {dense : Bool} {sets : FixedPointSets}

structure SetsHold (graph : Graph) (schedule : Schedule) (wants : List Bool) (rules : LivenessRules)
    (dense : Bool) (sets : FixedPointSets) : Prop where
  nb : sets.nb = schedule.blocks.length
  uses : RowsHold graph wants dense sets.nb sets.words sets.uses
    (fun b v => ReadsFirst v (blockEvents graph schedule wants rules b))
  defs : RowsHold graph wants dense sets.nb sets.words sets.defs
    (fun b v => Defines v (blockEvents graph schedule wants rules b))
  phiOut : RowsHold graph wants dense sets.nb sets.words sets.phiOut
    (fun b v => ReadsFirst v (edgeEvents graph schedule wants rules b))

section
variable (h : SetsHold graph schedule wants rules dense sets)
include h

theorem SetsHold.shapes : sets.Shapes :=
  ⟨h.phiOut.shaped,h.uses.shaped,h.defs.shaped⟩

theorem SetsHold.live_iff {k b : Nat}
    {side : Side} (hb : b < sets.nb) :
    Live (problem (successorsOf schedule.blocks) sets) k side b ↔
      ∃ v, wanted graph wants v = true ∧ bitOf graph wants dense v = k ∧
        Live (blockProblem graph schedule wants rules) v side b := by
  constructor
  · intro hl
    induction hl with
    | gen hg =>
      obtain ⟨v,hv,heq,hr⟩ := (h.uses.holds _ hb k).mp hg
      exact ⟨v,hv,heq,.gen hr⟩
    | @through b _ hkill ih =>
      obtain ⟨v,hv,heq,hr⟩ := ih hb
      refine ⟨v,hv,heq,.through hr fun hdef => hkill ?_⟩
      exact (h.defs.holds b hb k).mpr ⟨v,hv,heq,hdef⟩
    | edge he =>
      obtain ⟨v,hv,heq,hr⟩ := (h.phiOut.holds _ hb k).mp he
      exact ⟨v,hv,heq,.edge hr⟩
    | @next b s hs _ ih =>
      obtain ⟨v,hv,heq,hr⟩ := ih hs.2
      exact ⟨v,hv,heq,.next ⟨hs.1,h.nb ▸ hs.2⟩ hr⟩
  rintro ⟨v,hv,rfl,hl⟩
  induction hl with
  | gen hg => exact .gen ((h.uses.holds _ hb _).mpr ⟨v,hv,rfl,hg⟩)
  | @through b _ hkill ih =>
    refine .through (ih hb) fun hdef => hkill ?_
    exact ((h.defs.holds b hb).at hv).mp hdef
  | edge he => exact .edge ((h.phiOut.holds _ hb _).mpr ⟨v,hv,rfl,he⟩)
  | @next b s hs _ ih =>
    have hslt : s < sets.nb := h.nb.symm ▸ hs.2
    exact .next ⟨hs.1,hslt⟩ (ih hslt)

theorem SetsHold.exact {st : LiveSets}
    (hst : st.Exact (successorsOf schedule.blocks) sets) {b : Nat} (hb : b < sets.nb) :
    Holds graph wants dense (rowOf st.li b) (fun v => LiveIn graph schedule wants rules b v) ∧
      Holds graph wants dense (rowOf st.lout b) (fun v => LiveOut graph schedule wants rules b v) := by
  refine ⟨fun k => (hst .entry b k hb).trans ((h.live_iff hb).trans ?_),
    fun k => (hst .leaving b k hb).trans ((h.live_iff hb).trans ?_)⟩
  · simp only [live_iff_path,PathLive]
  · simp only [live_iff_path,PathLive]

end
end

section
variable {dense : Bool}

theorem denseBits_get {rows : List Row} {words nb b v : Nat} {P : Nat → Prop} (hb : b < nb)
    (h : Holds graph wants true (rowOf rows b) P) (hwords : graph.nodes.length ≤ 64*words)
    (hv : wanted graph wants v = true) :
    get (rowOf (denseBitsToNodeBits rows words nb (numbering graph wants).2) b) v = true ↔ P v := by
  have hrow : rowOf (denseBitsToNodeBits rows words nb (numbering graph wants).2) b =
      (bits (rowOf rows b)).foldl (publishBit (numbering graph wants).2) (empty words) := by
    simp [rowOf,denseBitsToNodeBits,getD_eq_getElem?_getD,hb]
  have hfold : ∀ (ks : List Nat) (out : Row), out.length = words →
      (get (ks.foldl (publishBit (numbering graph wants).2) out) v = true ↔
        get out v = true ∨ ∃ k ∈ ks, (numbering graph wants).2[k]? = some v) := by
    intro ks
    induction ks with
    | nil => simp
    | cons k ks ih => ?_
    intro out hout
    rw [foldl_cons,publishBit]
    cases hk : (numbering graph wants).2[k]? with
    | none =>
      rw [ih out hout]
      simp [hk]
    | some id => ?_
    have hid := ((numbered graph wants).value k id hk).1
    rw [ih (set out id) (by simp [hout]),get_set]
    have hlt : id/64 < out.length := by omega
    simp only [hlt,decide_true,Bool.and_true,Bool.or_eq_true,decide_eq_true_eq,mem_cons,
      exists_eq_or_imp,hk,Option.some.injEq,or_assoc]
  rw [hrow,hfold _ _ (by simp)]
  simp only [get_empty,Bool.false_eq_true,false_or]
  rw [← h.at hv]
  constructor
  · rintro ⟨k,hk,hval⟩
    obtain ⟨-,-,heq⟩ := (numbered graph wants).value k v hval
    rw [mem_bits] at hk
    rw [show bitOf graph wants true v = k from heq]
    exact hk
  intro hk
  exact ⟨_,(mem_bits _ _).mpr hk,(numbered graph wants).number v (wanted_lt hv) hv⟩

end
end CratonVM.Jit.Liveness
