import CratonVM.Jit.Bce.RangeOperands

/-!
The iterations of a loop: executions from its header back to its header that stay in its region, over
normal and exception edges.
-/
namespace CratonVM.Jit.LoopAnalysis
open Bytecode Jvms Scev List Option
open Bool hiding not_or not_and
open Bce (Frame Value JInt HeapObject Effect InRegion effective)
section
variable (resolve : Nat → Option MinMax) (code : Code) (handlers : List HandlerRange)

/-- A call that the resolver knows takes two operands and leaves one. -/
def Combines (f : Frame) (stack : List Value) : Prop :=
  opAt code f.pc = 0xb8 → (resolve (u16Value code (f.pc+1))).isSome = true →
    ∃ a b c rest, f.stack = b::a::rest ∧ stack = c::rest

/-- The operands of a comparison of two ints. -/
def Compares (f : Frame) : Prop :=
  0x9f ≤ opAt code f.pc → opAt code f.pc ≤ 0xa4 → ∃ (a b : JInt) (rest : List Value),
    f.stack = .int b::.int a::rest

/-- A step in a loop on `iv`: the instruction that writes `iv`, an `iinc` or an `istore`, throws
nothing. -/
inductive LoopStep (iv : Nat) (f : Frame) : Frame → Prop where
  | normal {q : Nat} {stack : List Value} {locals : Nat → Value} {heap : Nat → Option HeapObject} :
    Effect code f q stack locals → Bce.Extends f.heap heap → Combines resolve code f stack →
    LoopStep iv f ⟨q,stack,locals,heap⟩
  | throws {q e : Nat} {heap : Nat → Option HeapObject} : ¬ Overwrites code f.pc iv → Compares code f →
    Leaves handlers f.pc q → Bce.Extends f.heap heap → heap e = some .object →
    LoopStep iv f ⟨q,[.ref (some e)],f.locals,heap⟩

inductive Iteration (header stop iv : Nat) (f₀ : Frame) : List Frame → Frame → Prop where
  | start : Starts code header → f₀.pc = header → Iteration header stop iv f₀ [] f₀
  | step {visited : List Frame} {g f : Frame} : Iteration header stop iv f₀ visited g →
    (visited = [] ∨ g.pc ≠ header) → LoopStep resolve code handlers iv g f →
    InRegion header stop f.pc → Iteration header stop iv f₀ (visited++[g]) f

end

def StrideIs (g : Frame) (d : Int) : Stride → Prop
  | .const s => d = s
  | .variable_ s => ∃ u : JInt, g.locals s = .int u ∧ d = u

/-- The local has one value up to one instruction, and that value plus the stride behind it. -/
def AdvancesOnce (iv : Nat) (stride : Stride) (visited : List Frame) (f : Frame) : Prop :=
  ∃ (v v' : JInt) (d : Int) (earlier : List Frame) (g : Frame) (later : List Frame),
    visited = earlier++g::later ∧ (∀ k ∈ earlier, k.locals iv = .int v) ∧ g.locals iv = .int v ∧
    (∀ k ∈ later, k.locals iv = .int v') ∧ f.locals iv = .int v' ∧ StrideIs g d stride ∧
    (v' : Int) = Wrapping.wrap 32 (v+d)

variable {resolve : Nat → Option MinMax} {code : Code} {codeLen : Nat} {handlers : List HandlerRange}
variable {header stop iv : Nat} {f₀ f g : Frame} {visited : List Frame}

theorem LoopStep.step (h : LoopStep resolve code handlers iv g f) : Bce.Step code handlers g f := by
  cases h with
  | normal heff hheap => exact .normal heff hheap
  | throws _ _ hleaves hheap he => exact .throws hleaves hheap he

theorem LoopStep.edge (h : LoopStep resolve code handlers iv g f) :
    Next code g.pc f.pc ∨ ¬ Overwrites code g.pc iv ∧ Leaves handlers g.pc f.pc := by
  cases h with
  | normal heff => exact .inl heff.next
  | throws hnot _ hleaves => exact .inr ⟨hnot,hleaves⟩

theorem Iteration.inRegion (h : Iteration resolve code handlers header stop iv f₀ visited f)
    (hlt : header < stop) : InRegion header stop f.pc ∧ ∀ k ∈ visited, InRegion header stop k.pc := by
  induction h with
  | start _ hpc =>
    refine ⟨⟨hpc.ge,by omega⟩,fun k hk => ?_⟩
    cases hk
  | step _ _ _ hin ih => ?_
  refine ⟨hin,fun k hk => ?_⟩
  rcases mem_append.mp hk with hk | hk
  · exact ih.2 k hk
  rw [mem_singleton.mp hk]
  exact ih.1

section
variable (hv : Verified code codeLen handlers)
include hv

theorem step_starts (hg : Starts code g.pc ∧ g.pc < codeLen) (h : Bce.Step code handlers g f) :
    Starts code f.pc ∧ f.pc < codeLen := by
  cases h with
  | normal heff => exact next_starts hv hg.1 hg.2 heff.next
  | throws hleaves => exact leaves_starts hv hleaves

theorem Iteration.starts (h : Iteration resolve code handlers header stop iv f₀ visited f)
    (hlt : header < codeLen) :
    (Starts code f.pc ∧ f.pc < codeLen) ∧ ∀ k ∈ visited, Starts code k.pc ∧ k.pc < codeLen := by
  induction h with
  | start hs hpc =>
    refine ⟨⟨by rw [hpc]; exact hs,by omega⟩,fun k hk => ?_⟩
    cases hk
  | step _ _ hstep _ ih => ?_
  refine ⟨step_starts hv ih.1 hstep.step,fun k hk => ?_⟩
  rcases mem_append.mp hk with hk | hk
  · exact ih.2 k hk
  rw [mem_singleton.mp hk]
  exact ih.1

theorem reaches_of_inRegion (hheader : Starts code header) (hlt : header < codeLen) {p : Nat}
    (hp : Starts code p ∧ p < codeLen) (hin : InRegion header stop p) : Reaches code header p :=
  (inCode_of_starts hv hheader hlt).1.of_le (inCode_of_starts hv hp.1 hp.2).1 hin.1

end

/-- Whether an advance has run, for every instruction that an iteration can be at. -/
structure Labels (code : Code) (handlers : List HandlerRange) (header stop : Nat) (advance : Nat → Prop)
    (ran : Nat → Bool → Prop) : Prop where
  start : ran header false
  once : ∀ {p b}, ran p b → InRegion header stop p → Starts code p → advance p → b = false
  next : ∀ {p b q}, ran p b → InRegion header stop p → Starts code p → Next code p q →
    InRegion header stop q → q ≠ header → ¬ advance p → ran q b
  past : ∀ {p b q}, ran p b → InRegion header stop p → Starts code p → Next code p q →
    InRegion header stop q → q ≠ header → advance p → ran q true
  back : ∀ {p b}, ran p b → InRegion header stop p → Starts code p → Next code p header →
    b = true ∨ advance p
  leaves : ∀ {p b q}, ran p b → InRegion header stop p → Starts code p → Leaves handlers p q →
    InRegion header stop q → q ≠ header → ¬ advance p → ran q b
  leavesBack : ∀ {p b}, ran p b → InRegion header stop p → Starts code p → Leaves handlers p header →
    ¬ advance p → b = true

theorem effect_keeps {q slot : Nat} {stack : List Value} {locals : Nat → Value}
    (h : Effect code g q stack locals) (hw : ¬ Overwrites code g.pc slot) :
    locals slot = g.locals slot := by
  cases h with
  | store _ _ _ _ _ _ hkeeps => exact hkeeps slot hw
  | @iinc insn w d v v' locals hdec heff hwrites _ _ _ _ hkeeps =>
    refine hkeeps slot fun heq => hw ⟨insn,w,hdec,hwrites,.inl heq⟩
  | push => rfl
  | arraylength => rfl
  | getstatic => rfl
  | getfield => rfl
  | arith => rfl
  | test => rfl
  | compare => rfl
  | any => rfl

theorem LoopStep.keeps (h : LoopStep resolve code handlers iv g f) (hw : ¬ Overwrites code g.pc iv) :
    f.locals iv = g.locals iv := by
  cases h with
  | normal heff => exact effect_keeps heff hw
  | throws => rfl

/-- What an advance does to the local. -/
def AdvanceSteps (resolve : Nat → Option MinMax) (code : Code) (handlers : List HandlerRange)
    (header stop iv : Nat) (stride : Stride) (f₀ : Frame) : Prop :=
  ∀ visited g f, Iteration resolve code handlers header stop iv f₀ visited g → Overwrites code g.pc iv →
    LoopStep resolve code handlers iv g f → ∃ (v v' : JInt) (d : Int), g.locals iv = .int v ∧
      f.locals iv = .int v' ∧ StrideIs g d stride ∧ (v' : Int) = Wrapping.wrap 32 (v+d)

/-- What has become of the local when no advance has run, and when one has. -/
def Progress (iv : Nat) (stride : Stride) (f₀ : Frame) (visited : List Frame) (f : Frame) (b : Bool) : Prop :=
  if b then AdvancesOnce iv stride visited f
  else f.locals iv = f₀.locals iv ∧ ∀ k ∈ visited, k.locals iv = f₀.locals iv

variable {stride : Stride}

theorem Progress.keeps {b : Bool} (h : Progress iv stride f₀ visited g b)
    (hf : f.locals iv = g.locals iv) : Progress iv stride f₀ (visited++[g]) f b := by
  cases b with
  | false =>
    refine ⟨hf.trans h.1,fun k hk => ?_⟩
    rcases mem_append.mp hk with hk | hk
    · exact h.2 k hk
    rw [mem_singleton.mp hk]
    exact h.1
  | true => ?_
  obtain ⟨v,v',d,earlier,k,later,rfl,h1,h2,h3,h4,h5,h6⟩ := h
  refine ⟨v,v',d,earlier,k,later++[g],by simp,h1,h2,fun j hj => ?_,hf.trans h4,h5,h6⟩
  rcases mem_append.mp hj with hj | hj
  · exact h3 j hj
  rw [mem_singleton.mp hj]
  exact h4

theorem Progress.advances {v v' : JInt} {d : Int}
    (h : Progress iv stride f₀ visited g false) (hv : g.locals iv = .int v) (hv' : f.locals iv = .int v')
    (hd : StrideIs g d stride) (hsum : (v' : Int) = Wrapping.wrap 32 (v+d)) :
    AdvancesOnce iv stride (visited++[g]) f := by
  obtain ⟨h0,hall⟩ := h
  refine ⟨v,v',d,visited,g,[],rfl,fun k hk => ?_,hv,fun k hk => ?_,hv',hd,hsum⟩
  · rw [hall k hk,← h0]
    exact hv
  · cases hk

theorem Iteration.advancesOnce {ran : Nat → Bool → Prop}
    (hlabels : Labels code handlers header stop (fun p => Overwrites code p iv) ran)
    (hsteps : AdvanceSteps resolve code handlers header stop iv stride f₀)
    (hv : Verified code codeLen handlers) (hstop : header < stop) (hlt : header < codeLen)
    (h : Iteration resolve code handlers header stop iv f₀ visited f) :
    if f.pc = header ∧ visited ≠ [] then AdvancesOnce iv stride visited f
    else ∃ b, ran f.pc b ∧ Progress iv stride f₀ visited f b := by
  induction h with
  | start hs hpc =>
    rw [if_neg (by simp)]
    refine ⟨false,by rw [hpc]; exact hlabels.start,rfl,fun k hk => ?_⟩
    cases hk
  | @step visited g f hit hfirst hstep hin ih => ?_
  obtain ⟨hg,-⟩ := hit.starts hv hlt
  obtain ⟨hgin,-⟩ := hit.inRegion hstop
  rw [if_neg (by
    rintro ⟨hpc,hne⟩
    rcases hfirst with hempty | hnot
    · exact hne hempty
    · exact hnot hpc)] at ih
  obtain ⟨b,hran,hprogress⟩ := ih
  have hnonempty : visited++[g] ≠ [] := by simp
  by_cases hadv : Overwrites code g.pc iv
  · -- the advance
    obtain rfl := hlabels.once hran hgin hg.1 hadv
    obtain ⟨v,v',d,hv1,hv2,hd,hsum⟩ := hsteps visited g f hit hadv hstep
    have honce := hprogress.advances hv1 hv2 hd hsum
    split
    · exact honce
    rename_i hback
    have hne : f.pc ≠ header := fun hpc => hback ⟨hpc,hnonempty⟩
    rcases hstep.edge with hnext | ⟨hnot,-⟩
    · exact ⟨true,hlabels.past hran hgin hg.1 hnext hin hne hadv,honce⟩
    · exact absurd hadv hnot
  have hkeeps := hprogress.keeps (hstep.keeps hadv)
  split
  · rename_i hback
    have hb : b = true := by
      rcases hstep.edge with hnext | ⟨-,hleaves⟩
      · rw [hback.1] at hnext
        exact (hlabels.back hran hgin hg.1 hnext).resolve_right hadv
      rw [hback.1] at hleaves
      exact hlabels.leavesBack hran hgin hg.1 hleaves hadv
    rw [hb] at hkeeps
    exact hkeeps
  rename_i hback
  have hne : f.pc ≠ header := fun hpc => hback ⟨hpc,hnonempty⟩
  rcases hstep.edge with hnext | ⟨-,hleaves⟩
  · exact ⟨b,hlabels.next hran hgin hg.1 hnext hin hne hadv,hkeeps⟩
  · exact ⟨b,hlabels.leaves hran hgin hg.1 hleaves hin hne hadv,hkeeps⟩

open Bce (opAt_of_byteAt)
open LocalHomes (pcsIn mem_pcsIn)
variable {start pc : Nat}

/-- The store is one of the local, as the second half of a pair too. -/
def Hits (iv : Nat) (store : Option (Nat × Bool)) : Prop := ∃ p ∈ store, iv = p.1 ∨ p.2 = true ∧ iv = p.1+1

theorem overwrites_iff {insn : Insn} {hit : Option (Nat × Bool)} {slot : Nat} (hstop : stop ≤ code.length)
    (h : storeAt code stop pc = some hit) (hdec : decode code pc = some insn) :
    Overwrites code pc slot ↔ Hits slot hit := by
  obtain ⟨hwrites,hpair⟩ := storeAt_eq hstop h hdec
  constructor
  · rintro ⟨insn',w,hdec',hw,hslot⟩
    cases hdec.symm.trans hdec'
    rw [hwrites] at hw
    obtain ⟨p,hp,rfl⟩ := Option.map_eq_some_iff.mp hw
    rw [hpair p hp] at hslot
    exact ⟨p,hp,hslot⟩
  rintro ⟨p,hp,hslot⟩
  refine ⟨insn,p.1,hdec,?_,?_⟩
  · rw [hwrites,hp]
    rfl
  rw [hpair p hp]
  exact hslot

theorem hits_some {p : Nat × Bool} : Hits iv (some p) ↔ iv = p.1 ∨ p.2 = true ∧ iv = p.1+1 := by
  simp [Hits]

theorem not_hits_none : ¬ Hits iv none := by
  simp [Hits]

theorem storeAt_wide (hop : opAt code pc = 0xc4) (hfits : pc+3 < stop) : storeAt code stop pc = some
    (if (within 0x36 0x3a (opAt code (pc+1)) || opAt code (pc+1) = 0x84) = true then
      some (u16Value code (pc+2),opAt code (pc+1) = 0x37 || opAt code (pc+1) = 0x39) else none) := by
  have himplicit : implicitStore 0xc4 = none := by decide
  have hvalue : opAt code (pc+2)*2^8+opAt code (pc+3) = u16Value code (pc+2) := rfl
  unfold storeAt
  simp only [hop,himplicit,hvalue,Option.isSome_none,Bool.false_eq_true,if_false,if_true]
  rw [if_neg (by decide),if_neg (by decide),if_neg (by omega)]
  split <;> rfl

theorem istoreTarget_implicit (hoperand : within 0x36 0x3a (opAt code pc) = false)
    (hclobbers : ¬ clobbers code iv pc = true) :
    istoreTarget code pc = some iv ↔ Hits iv (implicitStore (opAt code pc)) := by
  have hint : opAt code pc ≠ 0x36 := by
    rintro hop
    rw [hop] at hoperand
    cases hoperand
  have hrest : within 0x37 0x3a (opAt code pc) = false := by
    simp only [within,Bool.and_eq_false_iff,decide_eq_false_iff_not] at hoperand ⊢
    omega
  unfold clobbers at hclobbers
  unfold istoreTarget implicitStore
  simp only [hint,hrest,Bool.false_eq_true,if_false] at hclobbers ⊢
  split_ifs with h1 h2 h3 h4 h5
  · rw [hits_some]
    simp [eq_comm]
  · rw [hits_some]
    simp [h2] at hclobbers ⊢
    omega
  · rw [hits_some]
    simp [h2,h3] at hclobbers ⊢
    omega
  · rw [hits_some]
    simp [h2,h3,h4] at hclobbers ⊢
    omega
  · rw [hits_some]
    simp [h2,h3,h4,h5] at hclobbers ⊢
    omega
  · simp [not_hits_none]

theorem istoreTarget_operand (hoperand : within 0x36 0x3a (opAt code pc) = true)
    (hclobbers : ¬ clobbers code iv pc = true) : istoreTarget code pc = some iv ↔
      Hits iv (some (opAt code (pc+1),opAt code pc = 0x37 || opAt code pc = 0x39)) := by
  rw [hits_some]
  unfold clobbers at hclobbers
  unfold istoreTarget
  by_cases hint : opAt code pc = 0x36
  · simp [hint,eq_comm]
  have hrest : within 0x37 0x3a (opAt code pc) = true := by
    simp only [within,Bool.and_eq_true,decide_eq_true_eq] at hoperand ⊢
    omega
  have hother : within 0x3b 0x3e (opAt code pc) = false := by
    simp only [within,Bool.and_eq_true,decide_eq_true_eq] at hrest
    simp [within]
    omega
  simp only [hrest,if_true,Bool.or_eq_true,Bool.and_eq_true,decide_eq_true_eq,not_or,not_and] at hclobbers
  simp only [hint,if_false,hother,Bool.false_eq_true,Bool.or_eq_true,decide_eq_true_eq]
  constructor
  · intro h
    cases h
  rintro (h | ⟨hpair,h⟩)
  · exact absurd h.symm hclobbers.1
  · exact absurd h.symm (hclobbers.2 hpair)

theorem istoreTarget_iff (hiinc : opAt code pc ≠ 0x84) (hwide : opAt code pc ≠ 0xc4)
    (hfits : ¬ (within 0x36 0x3a (opAt code pc) && pc+1 ≥ stop) = true)
    (hclobbers : ¬ clobbers code iv pc = true) : ∃ store, storeAt code stop pc = some store ∧
      (istoreTarget code pc = some iv ↔ Hits iv store) := by
  unfold storeAt
  by_cases hoperand : within 0x36 0x3a (opAt code pc) = true
  · have hin : ¬ pc+1 ≥ stop := by simpa [hoperand] using hfits
    rw [if_pos hoperand,if_neg hin]
    exact ⟨_,rfl,istoreTarget_operand hoperand hclobbers⟩
  rw [if_neg hoperand,if_neg hiinc,if_neg hwide]
  refine ⟨implicitStore (opAt code pc),?_,istoreTarget_implicit (by simpa using hoperand) hclobbers⟩
  split
  · rfl
  rename_i hnone
  rw [Option.not_isSome_iff_eq_none.mp hnone]

theorem advanceAt_store {prev : List Nat} {hit : Option Stride}
    (h : advanceAt code start stop iv pc prev = some hit) :
    ∃ store, storeAt code stop pc = some store ∧ (hit.isSome = true ↔ Hits iv store) := by
  unfold advanceAt at h
  dsimp only at h
  split at h
  · rename_i hop
    split at h
    · cases h
    have himplicit : implicitStore 0x84 = none := by decide
    refine ⟨some (opAt code (pc+1),false),?_,?_⟩
    · simp [storeAt,hop,himplicit,within]
      omega
    obtain rfl := Option.some.inj h
    rw [hits_some]
    split
    · rename_i heq
      simp [heq]
    rename_i hne
    simpa using fun heq => hne heq.symm
  rename_i hiinc
  split at h
  · rename_i hop
    split at h
    · cases h
    split at h
    · cases h
    rename_i halias
    obtain rfl := Option.some.inj h
    refine ⟨_,storeAt_wide hop (by omega),?_⟩
    unfold wideAliases at halias
    dsimp only at halias
    split
    · rename_i hstores
      rw [hstores,Bool.true_and] at halias
      rw [hits_some]
      simp only [Bool.or_eq_true,Bool.and_eq_true,decide_eq_true_eq] at halias
      simp
      omega
    · simp [not_hits_none]
  rename_i hwide
  split at h
  · cases h
  rename_i hfits
  split at h
  · cases h
  rename_i hclobbers
  obtain ⟨store,hstore,hiff⟩ := istoreTarget_iff hiinc hwide hfits hclobbers
  refine ⟨store,hstore,?_⟩
  rw [← hiff]
  split at h
  · rename_i htarget
    obtain ⟨s,-,rfl⟩ := Option.map_eq_some_iff.mp h
    simp [htarget]
  rename_i htarget
  obtain rfl := Option.some.inj h
  simp [htarget]

/-- The instructions in front of one, last first. -/
def Trails (code : Code) (start : Nat) : List Nat → Nat → Prop
  | [], _ => True
  | p::ps, pc => Reaches code start p ∧ p+step code p = pc ∧ Trails code start ps p

theorem Trails.take {ps : List Nat} (h : Trails code start ps pc) (n : Nat) :
    Trails code start (ps.take n) pc := by
  induction ps generalizing pc n with
  | nil => simpa using h
  | cons p ps ih =>
    cases n with
    | zero => exact trivial
    | succ n => exact ⟨h.1,h.2.1,ih h.2.2 n⟩

theorem advancesFrom_spec {left : Nat} {prev : List Nat} {advances : List (Nat × Stride)}
    (hleft : stop-pc ≤ left) (hpc : Reaches code start pc) (hprev : Trails code start prev pc)
    (h : advancesFrom code start stop iv left pc prev = some advances) :
    (∀ p s, (p,s) ∈ advances → Reaches code pc p ∧ p < stop ∧
      ∃ ps, Trails code start ps p ∧ advanceAt code start stop iv p ps = some (some s)) ∧
    ∀ p, Reaches code pc p → p < stop → (∃ s, (p,s) ∈ advances) ∨
      ∃ ps, advanceAt code start stop iv p ps = some none := by
  induction left generalizing pc prev advances with
  | zero =>
    obtain rfl := Option.some.inj h
    refine ⟨fun p s hp => (List.not_mem_nil hp).elim,fun p hp hlt => ?_⟩
    have := hp.le
    omega
  | succ left ih => ?_
  rw [advancesFrom] at h
  split at h
  · rename_i hlt
    cases hat : advanceAt code start stop iv pc prev with
    | none => simp [hat] at h
    | some hit => ?_
    simp only [hat] at h
    obtain ⟨rest,hrest,rfl⟩ := Option.map_eq_some_iff.mp h
    have hpos := step_pos code pc
    have hlast : Trails code start (pc::prev) (pc+step code pc) := ⟨hpc,rfl,hprev⟩
    have htrail := hlast.take 3
    obtain ⟨hfound,hall⟩ := ih (by omega) hpc.next htrail hrest
    refine ⟨fun p s hp => ?_,fun p hp hplt => ?_⟩
    · rcases List.mem_append.mp hp with hp | hp
      · obtain ⟨s',hs',heq⟩ := List.mem_map.mp hp
        obtain ⟨rfl,rfl⟩ := Prod.mk.inj heq
        rw [Option.mem_toList] at hs'
        exact ⟨.refl,hlt,prev,hprev,by rw [hat,hs']⟩
      obtain ⟨hr,hplt,htrails⟩ := hfound p s hp
      exact ⟨(Reaches.next .refl).trans hr,hplt,htrails⟩
    rcases hp.eq_or_next with rfl | hp
    · cases hit with
      | none => exact .inr ⟨prev,hat⟩
      | some s => exact .inl ⟨s,List.mem_append_left _ (by simp)⟩
    rcases hall p hp hplt with ⟨s,hs⟩ | hnone
    · exact .inl ⟨s,List.mem_append_right _ hs⟩
    · exact .inr hnone
  · obtain rfl := Option.some.inj h
    refine ⟨fun p s hp => (List.not_mem_nil hp).elim,fun p hp hlt => ?_⟩
    have := hp.le
    omega

/-- The region as the scans see it. -/
structure Region (code : Code) (codeLen : Nat) (handlers : List HandlerRange) (header stop : Nat) : Prop where
  verified : Verified code codeLen handlers
  starts_header : Starts code header
  nonempty : header < stop
  inCode : stop ≤ codeLen

namespace Region
variable {header : Nat} (r : Region code codeLen handlers header stop)
include r

theorem lt : header < codeLen := Nat.lt_of_lt_of_le r.nonempty r.inCode

theorem within_code : stop ≤ code.length := Nat.le_trans r.inCode r.verified.within_code

theorem starts {p : Nat} (hp : Reaches code header p) (hlt : p < stop) : Starts code p ∧ p < codeLen := by
  have hin := r.inCode
  refine (Bce.starts_of_pcsIn r.verified).mp (mem_pcsIn.mpr ⟨?_,by omega⟩)
  exact (inCode_of_starts r.verified r.starts_header r.lt).1.trans hp

theorem reaches {p : Nat} (hp : Starts code p) (hin : InRegion header stop p) : Reaches code header p :=
  reaches_of_inRegion r.verified r.starts_header r.lt ⟨hp,Nat.lt_of_lt_of_le hin.2 r.inCode⟩ hin

theorem overwrites_iff_advance {advances : List (Nat × Stride)}
    (h : advancesFrom code header stop iv (stop-header) header [] = some advances) {p : Nat}
    (hp : Starts code p) (hin : InRegion header stop p) :
    Overwrites code p iv ↔ ∃ s, (p,s) ∈ advances := by
  obtain ⟨hfound,hall⟩ := advancesFrom_spec le_rfl .refl (show Trails code header [] header from trivial) h
  obtain ⟨insn,hdec,-⟩ := r.verified.decodes hp (Nat.lt_of_lt_of_le hin.2 r.inCode)
  constructor
  · intro hw
    refine (hall p (r.reaches hp hin) hin.2).resolve_right ?_
    rintro ⟨ps,hat⟩
    obtain ⟨store,hstore,hiff⟩ := advanceAt_store hat
    have hhits := (overwrites_iff r.within_code hstore hdec).mp hw
    simpa using hiff.mpr hhits
  rintro ⟨s,hs⟩
  obtain ⟨-,-,ps,-,hat⟩ := hfound p s hs
  obtain ⟨store,hstore,hiff⟩ := advanceAt_store hat
  exact (overwrites_iff r.within_code hstore hdec).mpr (hiff.mp rfl)

end Region
end CratonVM.Jit.LoopAnalysis
