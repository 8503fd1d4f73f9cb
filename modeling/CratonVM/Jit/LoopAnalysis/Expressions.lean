import CratonVM.Jit.LoopAnalysis.Iterations

/-!
The two ways to see that an iteration runs one advance: the branches around a single advance, and the
count of the advances along the edges when there are several.
-/
namespace CratonVM.Jit.LoopAnalysis
open Bytecode Jvms Scev List Option
open Bool hiding not_or
open Bce (InRegion)
open LocalHomes (pcsIn mem_pcsIn)
variable {code : Code} {codeLen : Nat} {handlers : List HandlerRange} {header stop iv : Nat}

theorem mem_scanTargets {pc q : Nat} {ts : List Nat} {insn : Insn} (h : scanTargets code pc = some ts)
    (hdec : decode code pc = some insn) (hfit : pc+insn.length < 65536) (hq : (q : Int) ∈ insn.targets) :
    q ∈ ts := by
  unfold scanTargets at h
  by_cases hswitch : opAt code pc = 0xaa ∨ opAt code pc = 0xab
  · have hplain : (within 0x99 0xa7 (opAt code pc) || opAt code pc = 0xc6 || opAt code pc = 0xc7 ||
        opAt code pc = 0xc8) = false := by
      rcases hswitch with hop | hop <;> rw [hop] <;> rfl
    rw [if_neg (by rw [hplain]; decide),if_pos (by simpa using hswitch)] at h
    exact mem_switchTable h hdec hfit hq
  rw [not_or] at hswitch
  obtain ⟨htarget,hplain⟩ := offsetBranchTarget_eq hdec hq hswitch.1 hswitch.2
  rw [if_pos hplain,htarget] at h
  obtain rfl := some.inj h
  exact mem_singleton.mpr rfl

theorem overwrites_next {pc q slot : Nat} (hw : Overwrites code pc slot) (h : Next code pc q) :
    ∃ insn, decode code pc = some insn ∧ q = pc+insn.length := by
  obtain ⟨insn,w,hdec,hwrites,-⟩ := hw
  obtain ⟨insn',hdec',⟨-,hq⟩ | ht⟩ := h
  · exact ⟨insn',hdec',hq⟩
  cases hdec.symm.trans hdec'
  obtain ⟨op,-,-,hlt,hcases⟩ := decode_cases hdec
  rcases hcases with ⟨-,hd⟩ | ⟨-,hd⟩ | ⟨-,hd⟩ | ⟨-,hd⟩
  · obtain ⟨real,idx,-,-,⟨-,rfl⟩ | ⟨-,rfl⟩ | ⟨-,rfl⟩⟩ := wide_eq_some hd
    all_goals cases ht
  · obtain ⟨_,_,_,_,_,_,_,_,_,rfl⟩ := tableswitch_eq_some hd
    cases hwrites
  · obtain ⟨_,_,_,_,_,_,_,rfl⟩ := lookupswitch_eq_some hd
    cases hwrites
  obtain ⟨len,targets,-,hjumps,rfl⟩ := plain_eq_some hd
  have hlow : op < 0x99 := by
    unfold stores at hwrites
    split at hwrites
    · rename_i hop
      simp only [within,or_eq_true,and_eq_true,decide_eq_true_eq] at hop
      omega
    split at hwrites
    · rename_i hop
      simp only [within,and_eq_true,decide_eq_true_eq] at hop
      omega
    · cases hwrites
  rw [jumps,if_neg (by simp [within]; omega),if_neg (by omega)] at hjumps
  obtain rfl := some.inj hjumps
  cases ht

theorem leaves_entry {p q : Nat} (h : Leaves handlers p q) (hp : p < codeLen) :
    ∃ e ∈ handlerEntries codeLen handlers, e.startPc ≤ p ∧ p < e.endPc ∧ q = e.handlerPc := by
  obtain ⟨e,he,h1,h2,rfl⟩ := h
  exact ⟨_,mem_map.mpr ⟨e,he,rfl⟩,h1,Nat.lt_min.mpr ⟨h2,hp⟩,rfl⟩

variable {start : Nat}

theorem left_start {β : Type} [DecidableEq β] (hlt : start < stop) (b : β) :
    LabelWalk.left (Finset.Ico start stop) ⟨Dataflow.update (fun _ => none) start b,[start]⟩ = stop-start := by
  have hrest : ((Finset.Ico start stop).filter fun n =>
      Dataflow.update (fun _ => none) start b n = none) = (Finset.Ico start stop).erase start := by
    ext n
    by_cases hn : n = start
    · simp [hn]
    simp [hn,Dataflow.update_other]
    omega
  unfold LabelWalk.left
  rw [hrest,Finset.card_erase_of_mem (Finset.mem_Ico.mpr ⟨le_rfl,hlt⟩),Nat.card_Ico,
    length_singleton]
  omega

theorem advanceEdges_inside {starts : List Nat} {advances : List Nat}
    {es : List (Nat × Bool)} {pc : Nat} {b : Bool}
    (h : advanceEdges code starts start stop advances handlers pc b = some es) :
    ∀ e ∈ es, e.1 ∈ Finset.Ico start stop := by
  unfold advanceEdges at h
  split at h
  · cases h
  obtain ⟨succs,-,h⟩ := bind_eq_some_iff.mp h
  dsimp only at h
  split at h
  · cases h
  obtain rfl := some.inj h
  intro e he
  have hin := (mem_filter.mp (mem_filter.mp he).1).2
  simpa using hin

theorem testEdges_inside {testPc pc : Nat} {es : List (Nat × Unit)}
    (h : testEdges code start stop testPc handlers pc () = some es) :
    ∀ e ∈ es, e.1 ∈ Finset.Ico start stop := by
  unfold testEdges at h
  split at h
  · obtain rfl := some.inj h
    intro e he
    cases he
  obtain ⟨succs,-,h⟩ := bind_eq_some_iff.mp h
  dsimp only at h
  split at h
  · cases h
  obtain rfl := some.inj h
  intro e he
  obtain ⟨t,ht,rfl⟩ := mem_map.mp he
  have hin := (mem_filter.mp ht).2
  simpa using hin

theorem walks_turns {starts : List Nat} {testPc : Nat} {advances : List Nat} {turns : Nat}
    (hlt : start < stop) (hturns : stop-start ≤ turns) :
    LabelWalk.walk (advanceEdges code starts start stop advances handlers) turns
        ⟨Dataflow.update (fun _ => none) start false,[start]⟩ =
      LabelWalk.walk (advanceEdges code starts start stop advances handlers) (stop-start)
        ⟨Dataflow.update (fun _ => none) start false,[start]⟩ ∧
    LabelWalk.walk (testEdges code start stop testPc handlers) turns
        ⟨Dataflow.update (fun _ => none) start (),[start]⟩ =
      LabelWalk.walk (testEdges code start stop testPc handlers) (stop-start)
        ⟨Dataflow.update (fun _ => none) start (),[start]⟩ := by
  constructor
  · exact LabelWalk.walk_turns (fun n b es => advanceEdges_inside)
      (by rw [left_start hlt]; exact hturns) (left_start hlt false).le
  exact LabelWalk.walk_turns (fun n b es => testEdges_inside)
    (by rw [left_start hlt]; exact hturns) (left_start hlt ()).le

theorem covered_start {β : Type} [DecidableEq β] {edges : Nat → β → Option (List (Nat × β))} (start : Nat)
    (b : β) : LabelWalk.Covered edges ⟨Dataflow.update (fun _ => none) start b,[start]⟩ := by
  intro n
  by_cases hn : n = start
  · exact .inr (by rw [hn]; exact mem_singleton.mpr rfl)
  refine .inl fun b' hb' => ?_
  have hnone : Dataflow.update (fun _ => none) start b n = some b' := hb'
  rw [Dataflow.update_other _ _ hn] at hnone
  cases hnone

namespace Region
variable (r : Region code codeLen handlers header stop)
include r

theorem labels_single {inc : Nat}
    (h : advanceRunsOncePerIteration code header stop inc (handlerEntries codeLen handlers) = true)
    (hinc : Starts code inc) (hincIn : InRegion header stop inc)
    (hadv : ∀ p, Starts code p → InRegion header stop p → (Overwrites code p iv ↔ p = inc)) :
    Labels code handlers header stop (fun p => Overwrites code p iv) fun p b => b = decide (inc < p) := by
  obtain ⟨hhandlers,hbranches⟩ := and_eq_true_iff.mp h
  rw [List.all_eq_true] at hhandlers hbranches
  have hcode := r.inCode
  have hshort := r.verified.short
  -- a step along a branch or to the next instruction
  have hedge : ∀ {p q}, InRegion header stop p → Starts code p → Next code p q → InRegion header stop q →
      (p < inc → q ≠ header ∧ q ≤ inc) ∧ (inc < p → q = header ∨ inc < q) := by
    intro p q hpin hp hnext hqin
    have hplt := Nat.lt_of_lt_of_le hpin.2 hcode
    have hpr := (inCode_of_starts r.verified hp hplt).1
    have hir := (inCode_of_starts r.verified hinc (Nat.lt_of_lt_of_le hincIn.2 hcode)).1
    have hhead := hpin.1
    obtain ⟨insn,hdec,⟨-,rfl⟩ | ht⟩ := hnext
    · obtain ⟨hlen,-⟩ := verified_insn r.verified hp hplt hdec
      have hpos := step_pos code p
      rw [← hlen] at hqin ⊢
      refine ⟨fun hlt => ⟨by omega,hpr.next_le hir hlt⟩,fun hlt => .inr (by omega)⟩
    obtain ⟨-,hfit,-⟩ := verified_insn r.verified hp hplt hdec
    have hscan := hbranches p (mem_pcsIn.mpr ⟨r.reaches hp hpin,hpin.2⟩)
    obtain ⟨ts,hts,hall⟩ := (any_eq_true _ _).mp hscan
    have hkeeps := all_eq_true.mp hall q (mem_scanTargets hts hdec (by omega) ht)
    unfold InRegion at hqin
    unfold edgeKeepsAdvance at hkeeps
    have h1 : ¬ q < header := by omega
    have h2 : ¬ q ≥ stop := by omega
    simp only [h1,h2,decide_false,Bool.false_or] at hkeeps
    split at hkeeps
    · simp only [not_eq_true',or_eq_false_iff,decide_eq_false_iff_not] at hkeeps
      omega
    simp only [not_eq_true',and_eq_false_iff,decide_eq_false_iff_not] at hkeeps
    omega
  have hthrow : ∀ {p q}, InRegion header stop p → Leaves handlers p q → InRegion header stop q →
      (p < inc → q ≠ header ∧ q ≤ inc) ∧ (inc < p → q = header ∨ inc < q) := by
    intro p q hpin hleaves hqin
    obtain ⟨e,he,h1,h2,rfl⟩ := @leaves_entry codeLen _ _ _ hleaves (Nat.lt_of_lt_of_le hpin.2 hcode)
    have hkeeps := hhandlers e he
    unfold InRegion at hqin hpin
    have h3 : ¬ e.startPc ≥ e.endPc := by omega
    have h4 : ¬ e.handlerPc < header := by omega
    have h5 : ¬ e.handlerPc ≥ stop := by omega
    simp only [handlerKeepsAdvance,h3,h4,h5,decide_false,Bool.false_or,and_eq_true,
      not_eq_true',or_eq_false_iff,and_eq_false_iff,decide_eq_false_iff_not] at hkeeps
    omega
  have hne : ∀ {p}, Starts code p → InRegion header stop p → ¬ Overwrites code p iv → p < inc ∨ inc < p := by
    intro p hp hin hnot
    have hpinc : p ≠ inc := fun heq => hnot ((hadv p hp hin).mpr heq)
    omega
  refine ⟨?_,?_,?_,?_,?_,?_,?_⟩
  · have := hincIn.1
    simp
    omega
  · rintro p b rfl hin hp hw
    rw [(hadv p hp hin).mp hw]
    simp
  · rintro p b q rfl hin hp hnext hqin hq hnot
    have := hedge hin hp hnext hqin
    rcases hne hp hin hnot with hlt | hgt
    · simp
      omega
    simp
    omega
  · rintro p b q rfl hin hp hnext hqin hq hw
    obtain ⟨insn,hdec,rfl⟩ := overwrites_next hw hnext
    have hpos := step_pos code p
    rw [(verified_insn r.verified hp (Nat.lt_of_lt_of_le hin.2 hcode) hdec).1] at hpos
    have := (hadv p hp hin).mp hw
    simp
    omega
  · rintro p b rfl hin hp hnext
    by_cases hw : Overwrites code p iv
    · exact .inr hw
    have := hedge hin hp hnext ⟨le_rfl,r.nonempty⟩
    rcases hne hp hin hw with hlt | hgt
    · exact absurd rfl (this.1 hlt).1
    · exact .inl (by simpa using hgt)
  · rintro p b q rfl hin hp hleaves hqin hq hnot
    have := hthrow hin hleaves hqin
    rcases hne hp hin hnot with hlt | hgt
    · simp
      omega
    simp
    omega
  rintro p b rfl hin hp hleaves hnot
  have := hthrow hin hleaves ⟨le_rfl,r.nonempty⟩
  rcases hne hp hin hnot with hlt | hgt
  · exact absurd rfl (this.1 hlt).1
  · simpa using hgt

theorem advanceEdges_spec {advances : List Nat} {hs : List HandlerRange} {es : List (Nat × Bool)} {p : Nat}
    {b : Bool} (hp : Starts code p) (hin : InRegion header stop p)
    (h : advanceEdges code (pcsIn code header stop) header stop advances hs p b = some es) :
    (p ∈ advances → b = false) ∧
    (∀ q, Next code p q → InRegion header stop q → q ≠ header →
      (q,b || advances.contains p) ∈ es) ∧
    (Next code p header → (b || advances.contains p) = true) ∧
    ∀ e ∈ hs, e.startPc ≤ p → p < e.endPc → InRegion header stop e.handlerPc →
      (e.handlerPc ≠ header → (e.handlerPc,b) ∈ es) ∧ (e.handlerPc = header → b = true) := by
  have hplt := Nat.lt_of_lt_of_le hin.2 r.inCode
  unfold advanceEdges at h
  split at h
  · cases h
  rename_i htwice
  obtain ⟨succs,hsuccs,h⟩ := bind_eq_some_iff.mp h
  dsimp only at h
  split at h
  · cases h
  rename_i hbad
  have hes := some.inj h
  have hsound : ∀ e, (e ∈ succs.map (·,b || advances.contains p) ∨
      e ∈ (hs.filter fun h => decide (h.startPc ≤ p) && decide (p < h.endPc)).map (·.handlerPc,b)) →
      InRegion header stop e.1 → (e.1 ≠ header → e ∈ es) ∧ (e.1 = header → e.2 = true) := by
    intro e he hein
    have hinside : (decide (header ≤ e.1) && decide (e.1 < stop)) = true := by simp [hein.1,hein.2]
    have hmem := (@mem_filter _ (fun e => decide (header ≤ e.1) && decide (e.1 < stop)) _ _).mpr
      ⟨mem_append.mpr he,hinside⟩
    refine ⟨fun hne => ?_,fun heq => ?_⟩
    · rw [← hes]
      exact mem_filter.mpr ⟨hmem,by simpa using hne⟩
    by_contra hb
    exact hbad (any_eq_true.mpr ⟨e,hmem,by simp [heq,hb]⟩)
  refine ⟨fun hadv => ?_,fun q hq hqin hne => ?_,fun hq => ?_,fun e he h1 h2 hein => ?_⟩
  · rw [contains_iff_mem.mpr hadv,Bool.true_and] at htwice
    simpa using htwice
  · exact (hsound (q,_) (.inl (mem_map.mpr
      ⟨q,mem_normalSuccessors r.verified hp hplt hsuccs hq,rfl⟩)) hqin).1 hne
  · exact (hsound (header,_) (.inl (mem_map.mpr
      ⟨header,mem_normalSuccessors r.verified hp hplt hsuccs hq,rfl⟩)) ⟨le_rfl,r.nonempty⟩).2 rfl
  have hcovers : (decide (e.startPc ≤ p) && decide (p < e.endPc)) = true := by simp [h1,h2]
  exact hsound (e.handlerPc,b) (.inr (mem_map.mpr
    ⟨e,mem_filter.mpr ⟨he,hcovers⟩,rfl⟩)) hein

theorem labels_several {advances : List Nat}
    (h : everyIterationRunsOneAdvance code header stop advances (handlerEntries codeLen handlers) = true)
    (hadv : ∀ p, Starts code p → InRegion header stop p → (Overwrites code p iv ↔ p ∈ advances)) :
    ∃ ran, Labels code handlers header stop (fun p => Overwrites code p iv) ran := by
  unfold everyIterationRunsOneAdvance at h
  rw [Nat.min_eq_left r.within_code] at h
  rw [if_neg (Nat.not_le.mpr r.nonempty)] at h
  obtain ⟨label,hwalk⟩ := isSome_iff_exists.mp h
  obtain ⟨hs,hhs,hwalk⟩ := bind_eq_some_iff.mp hwalk
  obtain ⟨hclosed,hkeep⟩ := LabelWalk.walk_closed hwalk (covered_start header false)
  -- every handler that an exception of the region can go to is looked at
  have hhandler : ∀ {p q}, InRegion header stop p → Leaves handlers p q → InRegion header stop q →
      ∃ e ∈ hs, e.startPc ≤ p ∧ p < e.endPc ∧ q = e.handlerPc := by
    intro p q hpin hleaves hqin
    obtain ⟨e,he,h1,h2,rfl⟩ := @leaves_entry codeLen _ _ _ hleaves (Nat.lt_of_lt_of_le hpin.2 r.inCode)
    unfold regionHandlers at hhs
    dsimp only at hhs
    split at hhs
    · cases hhs
    obtain rfl := some.inj hhs
    refine ⟨e,mem_filter.mpr ⟨he,?_⟩,h1,h2,rfl⟩
    unfold InRegion at hqin
    simp
    omega
  have hedges : ∀ {p b}, label p = some b → InRegion header stop p → Starts code p →
      ∃ es, advanceEdges code (pcsIn code header stop) header stop advances hs p b = some es ∧
        ∀ e ∈ es, label e.1 = some e.2 := fun hb _ _ => hclosed _ _ hb
  refine ⟨fun p b => label p = some b,?_,?_,?_,?_,?_,?_,?_⟩
  · exact hkeep header false (Dataflow.update_same (fun _ => none) header false)
  · intro p b hb hin hp hw
    obtain ⟨es,hes,-⟩ := hedges hb hin hp
    exact (r.advanceEdges_spec hp hin hes).1 ((hadv p hp hin).mp hw)
  · intro p b q hb hin hp hnext hqin hne hnot
    obtain ⟨es,hes,hall⟩ := hedges hb hin hp
    have hmem := (r.advanceEdges_spec hp hin hes).2.1 q hnext hqin hne
    have hcon : advances.contains p = false := by
      rw [← not_eq_true,contains_iff_mem]
      exact fun hin' => hnot ((hadv p hp hin).mpr hin')
    rw [hcon,Bool.or_false] at hmem
    exact hall _ hmem
  · intro p b q hb hin hp hnext hqin hne hw
    obtain ⟨es,hes,hall⟩ := hedges hb hin hp
    have hmem := (r.advanceEdges_spec hp hin hes).2.1 q hnext hqin hne
    have hcon := contains_iff_mem.mpr ((hadv p hp hin).mp hw)
    rw [hcon,Bool.or_true] at hmem
    exact hall _ hmem
  · intro p b hb hin hp hnext
    obtain ⟨es,hes,-⟩ := hedges hb hin hp
    have hran := (r.advanceEdges_spec hp hin hes).2.2.1 hnext
    rcases or_eq_true_iff.mp hran with hb' | hcon
    · exact .inl hb'
    · exact .inr ((hadv p hp hin).mpr (contains_iff_mem.mp hcon))
  · intro p b q hb hin hp hleaves hqin hne _
    obtain ⟨es,hes,hall⟩ := hedges hb hin hp
    obtain ⟨e,he,h1,h2,rfl⟩ := hhandler hin hleaves hqin
    exact hall _ (((r.advanceEdges_spec hp hin hes).2.2.2 e he h1 h2 hqin).1 hne)
  intro p b hb hin hp hleaves _
  obtain ⟨es,hes,-⟩ := hedges hb hin hp
  have hqin : InRegion header stop header := ⟨le_rfl,r.nonempty⟩
  obtain ⟨e,he,h1,h2,heq⟩ := hhandler hin hleaves hqin
  exact ((r.advanceEdges_spec hp hin hes).2.2.2 e he h1 h2 (by rw [← heq]; exact ⟨le_rfl,r.nonempty⟩)).2
    heq.symm

end Region
end CratonVM.Jit.LoopAnalysis
namespace CratonVM.Jit.LoopAnalysis
open Bytecode Jvms Scev
open Bce (Frame Value JInt Effect InRegion isPush isIload constantAt extractIloadLocal
  extractIloadLocal_spec opAt_of_byteAt)
open LocalHomes (pcsIn mem_pcsIn)
variable {resolve : Nat → Option MinMax} {code : Code} {codeLen : Nat} {handlers : List HandlerRange}
variable {header stop iv pc : Nat}

theorem iloadLocal_spec {l : Nat} (hstop : stop ≤ code.length) (h : iloadLocal code pc stop = some l) :
    isPush (opAt code pc) = true ∧ isIload (opAt code pc) = true ∧
      (∀ insn, decode code pc = some insn → insn.reads = some l) ∧ iloadLen code pc = step code pc := by
  obtain ⟨op,hop,hload⟩ := Option.bind_eq_some_iff.mp h
  have hfound : extractIloadLocal code pc = some l := by
    unfold extractIloadLocal
    rw [hop,Option.bind_some]
    split at hload
    · rename_i hshort
      rw [if_pos hshort]
      exact hload
    rename_i hshort
    rw [if_neg hshort]
    split at hload
    · rename_i hlong
      simp only [Bool.and_eq_true,decide_eq_true_eq] at hlong
      rw [if_pos hlong.1,byteAt_of_lt (by omega)]
      exact hload
    · cases hload
  obtain ⟨hpush,hiload,hreads⟩ := extractIloadLocal_spec hfound
  refine ⟨hpush,hiload,hreads,?_⟩
  rw [opAt_of_byteAt hop] at hiload
  have hlt := byteAt_lt hop
  have hall : ∀ op < 256, isIload op = true →
      op ≠ 0xc4 ∧ op ≠ 0xaa ∧ op ≠ 0xab ∧ (if op = 0x15 then 2 else 1) = fixedLen op := by decide +kernel
  obtain ⟨h1,h2,h3,hlen⟩ := hall op hlt hiload
  simp only [step,insnLen,iloadLen,hop,Option.bind_eq_bind,Option.bind_some,if_neg h1,if_neg h2,if_neg h3,
    Option.some.injEq]
  exact hlen

theorem constPushValue_spec {c : Int} (hstop : stop ≤ code.length) (h : constPushValue code pc stop = some c) :
    isPush (opAt code pc) = true ∧ constantAt code pc = some c := by
  obtain ⟨op,hop,h⟩ := Option.bind_eq_some_iff.mp h
  unfold constantAt
  rw [opAt_of_byteAt hop]
  dsimp only
  split at h
  · rename_i hsmall
    rw [if_pos hsmall]
    refine ⟨?_,h⟩
    simp only [isPush,within,Bool.and_eq_true,decide_eq_true_eq] at hsmall ⊢
    omega
  split at h
  · rename_i hbyte
    simp only [Bool.and_eq_true,decide_eq_true_eq] at hbyte
    obtain ⟨rfl,hin⟩ := hbyte
    rw [if_pos rfl,byteAt_of_lt (by omega)]
    exact ⟨rfl,h⟩
  split at h
  · rename_i hshort
    simp only [Bool.and_eq_true,decide_eq_true_eq] at hshort
    obtain ⟨rfl,hin⟩ := hshort
    refine ⟨rfl,?_⟩
    rw [← h,readI16,readU16,byteAt_of_lt (by omega),byteAt_of_lt (by omega)]
    rfl
  · cases h

variable {insn : Insn}

theorem Region.not_lands (r : Region code codeLen handlers header stop) {lo hi p t : Nat}
    (h : branchLandsIn code header stop lo hi = false) (hp : Starts code p) (hin : InRegion header stop p)
    (hdec : decode code p = some insn) (ht : (t : Int) ∈ insn.targets) : ¬ (lo < t ∧ t ≤ hi) := by
  rintro ⟨hlo,hhi⟩
  unfold branchLandsIn at h
  rw [Nat.min_eq_left r.within_code,List.any_eq_false] at h
  have hnot := h p (mem_pcsIn.mpr ⟨r.reaches hp hin,hin.2⟩)
  have hfit := (verified_insn r.verified hp (Nat.lt_of_lt_of_le hin.2 r.inCode) hdec).2.1
  have hshort := r.verified.short
  by_cases hswitch : opAt code p = 0xaa ∨ opAt code p = 0xab
  · have hplain : isOffsetBranch (opAt code p) = false := by
      rcases hswitch with hop | hop <;> rw [hop] <;> rfl
    rw [if_neg (by rw [hplain]; decide),if_pos (by simpa using hswitch)] at hnot
    cases htable : switchTable code code.length p with
    | none => simp [htable] at hnot
    | some ts =>
      simp only [htable,Option.all_some,List.any_eq_true,not_exists,not_and] at hnot
      exact hnot t (mem_switchTable htable hdec (by omega) ht) (by simp [hlo,hhi])
  rw [not_or] at hswitch
  obtain ⟨htarget,hplain⟩ := offsetBranchTarget_eq hdec ht hswitch.1 hswitch.2
  have hbranch : isOffsetBranch (opAt code p) = true := by
    simp only [isOffsetBranch,within,Bool.or_eq_true,Bool.and_eq_true,decide_eq_true_eq] at hplain ⊢
    omega
  rw [if_pos hbranch,htarget] at hnot
  simp [hlo,hhi] at hnot

variable {f₀ f : Frame} {visited : List Frame}

theorem Region.arrives (r : Region code codeLen handlers header stop) {lo hi p : Nat}
    (hit : Iteration resolve code handlers header stop iv f₀ visited f)
    (hp : Reaches code header p) (hends : p+step code p = f.pc)
    (hland : branchLandsIn code header stop lo hi = false) (hlo : lo < f.pc) (hhi : f.pc ≤ hi) :
    f.IsEntry ∨ ∃ g visited', visited = visited'++[g] ∧
      Iteration resolve code handlers header stop iv f₀ visited' g ∧ g.pc = p ∧
      Effect code g f.pc f.stack f.locals ∧ Combines resolve code g f.stack := by
  have hpos := step_pos code p
  have hple := hp.le
  obtain ⟨hfin,-⟩ := hit.inRegion r.nonempty
  cases hit with
  | start _ hpc => omega
  | @step visited' g _ hit' hfirst hstep hin => ?_
  obtain ⟨hgs,hglt⟩ := (hit'.starts r.verified r.lt).1
  obtain ⟨hgin,-⟩ := hit'.inRegion r.nonempty
  obtain ⟨hps,hplt⟩ := r.starts hp (by have := hfin.2; omega)
  obtain ⟨insn,hdec,-⟩ := r.verified.decodes hps hplt
  have hlen := (verified_insn r.verified hps hplt hdec).1
  cases hstep with
  | normal heff hheap hcombines =>
    refine .inr ⟨g,visited',rfl,hit',?_,heff,hcombines⟩
    obtain ⟨insn',hdec',⟨-,hq⟩ | ht⟩ := heff.next
    · exact Bce.eq_of_ends r.verified hgs hglt hps hplt hdec' hdec (by rw [← hlen,hends]; exact hq.symm)
    · exact absurd ⟨hlo,hhi⟩ (r.not_lands hland hgs hgin hdec' ht)
  | @throws q e _ _ _ _ _ he => exact .inl ⟨e,rfl,he⟩

theorem Region.arrives_push (r : Region code codeLen handlers header stop) {lo hi p : Nat}
    (hit : Iteration resolve code handlers header stop iv f₀ visited f)
    (hp : Reaches code header p) (hends : p+step code p = f.pc)
    (hland : branchLandsIn code header stop lo hi = false) (hlo : lo < f.pc) (hhi : f.pc ≤ hi)
    (hop : isPush (opAt code p) = true) : f.IsEntry ∨ ∃ g visited' insn v, visited = visited'++[g] ∧
      Iteration resolve code handlers header stop iv f₀ visited' g ∧ g.pc = p ∧
      decode code p = some insn ∧ Bce.Pushes code g insn v ∧ f.stack = v::g.stack ∧ f.locals = g.locals := by
  rcases r.arrives hit hp hends hland hlo hhi with hentry | ⟨g,visited',hvisited,hg,rfl,heff,-⟩
  · exact .inl hentry
  obtain ⟨insn,v,hdec,hpush,hstack,hlocals⟩ := heff.of_push hop
  exact .inr ⟨g,visited',insn,v,hvisited,hg,rfl,hdec,hpush,hstack,hlocals⟩

theorem compoundStride_spec {p1 p2 p3 : Nat} {ps : List Nat} {s : Stride}
    (h : compoundStride code header stop iv pc (p1::p2::p3::ps) = some s) :
    iloadLocal code p3 stop = some iv ∧ branchLandsIn code header stop p3 pc = false ∧
      ((∃ c, constPushValue code p2 stop = some c ∧
        (opAt code p1 = 0x60 ∧ s = .const c ∨ opAt code p1 = 0x64 ∧ s = .const (-c))) ∨
      ∃ l, iloadLocal code p2 stop = some l ∧ opAt code p1 = 0x60 ∧ s = .variable_ l) := by
  unfold compoundStride at h
  dsimp only at h
  split at h
  · cases h
  rename_i hload
  rw [ne_eq,not_not] at hload
  split at h
  · cases h
  rename_i hland
  refine ⟨hload,by simpa using hland,?_⟩
  cases hconst : constPushValue code p2 stop with
  | some c => ?_
  | none =>
    simp only [hconst] at h
    split at h
    · obtain ⟨l,hl,h⟩ := Option.bind_eq_some_iff.mp h
      split at h
      · exact .inr ⟨l,hl,‹_›,(Option.some.inj h).symm⟩
      · cases h
    · cases h
  simp only [hconst] at h
  refine .inl ⟨c,rfl,?_⟩
  split at h
  · exact .inl ⟨‹_›,(Option.some.inj h).symm⟩
  split at h
  · split at h
    · cases h
    · exact .inr ⟨‹_›,(Option.some.inj h).symm⟩
  · cases h

theorem Region.sum_on_stack (r : Region code codeLen handlers header stop) {ps : List Nat} {s : Stride}
    (hit : Iteration resolve code handlers header stop iv f₀ visited f) (htrail : Trails code header ps f.pc)
    (h : compoundStride code header stop iv f.pc ps = some s) :
    f.IsEntry ∨ ∃ (v c : JInt) (d : Int) (rest : List Value), f.locals iv = .int v ∧
      f.stack = .int c::rest ∧ StrideIs f d s ∧ (c : Int) = Wrapping.wrap 32 (v+d) := by
  match ps,htrail,h with
  | [],_,h => cases h
  | [_],_,h => cases h
  | [_,_],_,h => cases h
  | p1::p2::p3::ps,⟨hp1,hend1,hp2,hend2,hp3,hend3,_⟩,h =>
    obtain ⟨hload,hland,hstep⟩ := compoundStride_spec h
    have hpos3 := step_pos code p3
    have hstop := r.within_code
    have hop1 : opAt code p1 = 0x60 ∨ opAt code p1 = 0x64 := by
      rcases hstep with ⟨c,-,⟨hop,-⟩ | ⟨hop,-⟩⟩ | ⟨l,-,hop,-⟩
      · exact .inl hop
      · exact .inr hop
      · exact .inl hop
    have hpush2 : isPush (opAt code p2) = true := by
      rcases hstep with ⟨c,hc,-⟩ | ⟨l,hl,-⟩
      · exact (constPushValue_spec hstop hc).1
      · exact (iloadLocal_spec hstop hl).1
    obtain ⟨hpush3,hiload3,hreads3,-⟩ := iloadLocal_spec hstop hload
    -- the sum, its second operand, its first
    rcases r.arrives hit hp1 hend1 hland (by omega) le_rfl with
      hentry | ⟨g1,v1,-,hit1,rfl,heff,-⟩
    · exact .inl hentry
    obtain ⟨a,b,c,rest,hstack1,hstack,hlocals,hsum⟩ := heff.of_arith hop1
    rcases r.arrives_push hit1 hp2 hend2 hland (by omega) (by omega) hpush2 with
      ⟨e,he,-⟩ | ⟨g2,v2,insn2,x2,-,hit2,rfl,hdec2,hpushes2,hstack2,hlocals2⟩
    · rw [hstack1] at he
      cases he
    rw [hstack1,List.cons.injEq] at hstack2
    obtain ⟨rfl,hstack2⟩ := hstack2
    rcases r.arrives_push hit2 hp3 hend3 hland (by omega) (by omega) hpush3 with
      ⟨e,he,-⟩ | ⟨g3,v3,insn3,x3,-,-,rfl,hdec3,hpushes3,hstack3,hlocals3⟩
    · rw [← hstack2] at he
      cases he
    rw [← hstack2,List.cons.injEq] at hstack3
    obtain ⟨rfl,-⟩ := hstack3
    obtain ⟨l,n,hl,hn,hx⟩ := hpushes3.2.1 hiload3
    cases hx
    obtain rfl := Option.some.inj (hl.symm.trans (hreads3 insn3 hdec3))
    have hiv : f.locals l = .int a := by
      rw [hlocals,hlocals2,hlocals3]
      exact hn
    refine .inr ⟨a,c,?_⟩
    rcases hstep with ⟨k,hk,hcase⟩ | ⟨l2,hl2,hop,rfl⟩
    · obtain ⟨m,hm,hmk⟩ := hpushes2.1 k (constPushValue_spec hstop hk).2
      cases hm
      rcases hcase with ⟨hop,rfl⟩ | ⟨hop,rfl⟩
      · refine ⟨k,rest,hiv,hstack,rfl,?_⟩
        rcases hsum with ⟨-,hsum⟩ | ⟨hop',-⟩
        · rw [hsum,hmk]
        · omega
      refine ⟨-k,rest,hiv,hstack,rfl,?_⟩
      rcases hsum with ⟨hop',-⟩ | ⟨-,hsum⟩
      · omega
      · rw [hsum,hmk,Int.sub_eq_add_neg]
    obtain ⟨-,hiload2,hreads2,-⟩ := iloadLocal_spec hstop hl2
    obtain ⟨l',m,hl',hm,hx⟩ := hpushes2.2.1 hiload2
    cases hx
    obtain rfl := Option.some.inj (hl'.symm.trans (hreads2 insn2 hdec2))
    refine ⟨b,rest,hiv,hstack,⟨b,?_,rfl⟩,?_⟩
    · rw [hlocals,hlocals2]
      exact hm
    rcases hsum with ⟨-,hsum⟩ | ⟨hop',-⟩
    · exact hsum
    · omega

theorem writes_iinc (hdec : decode code pc = some insn) (hop : opAt code pc = 0x84) :
    insn.writes = byteAt code (pc+1) := by
  obtain ⟨op,-,hat,-,hcases⟩ := decode_cases hdec
  obtain rfl := hop.symm.trans hat
  rcases hcases with ⟨h,-⟩ | ⟨h,-⟩ | ⟨h,-⟩ | ⟨-,hw⟩
  · omega
  · omega
  · omega
  obtain ⟨len,targets,-,-,rfl⟩ := plain_eq_some hw
  rfl

theorem writes_istore {l : Nat} (hdec : decode code pc = some insn)
    (htarget : istoreTarget code pc = some l) (hin : opAt code pc = 0x36 → pc+1 < code.length) :
    insn.writes = some l ∧ Bce.isIstore (opAt code pc) = true := by
  obtain ⟨op,-,hat,-,hcases⟩ := decode_cases hdec
  unfold istoreTarget at htarget
  dsimp only at htarget
  rw [hat] at htarget hin ⊢
  have hlow : op = 0x36 ∨ within 0x3b 0x3e op = true := by
    split at htarget
    · exact .inl ‹_›
    split at htarget
    · exact .inr ‹_›
    · cases htarget
  have hplain : op < 0x3f := by
    rcases hlow with hop | hop
    · omega
    simp only [within,Bool.and_eq_true,decide_eq_true_eq] at hop
    omega
  rcases hcases with ⟨h,-⟩ | ⟨h,-⟩ | ⟨h,-⟩ | ⟨-,hw⟩
  · omega
  · omega
  · omega
  obtain ⟨len,targets,-,-,rfl⟩ := plain_eq_some hw
  refine ⟨?_,by simpa [Bce.isIstore] using hlow⟩
  rcases hlow with rfl | hop
  · have hbyte := byteAt_of_lt (hin rfl)
    exact hbyte.trans htarget
  have hne : op ≠ 0x36 := by
    rintro rfl
    cases hop
  rw [if_neg hne,if_pos hop] at htarget
  simp only [within,Bool.and_eq_true,decide_eq_true_eq] at hop
  dsimp only
  rw [stores,if_neg (by simp [within]; omega),if_pos (by simp [within]; omega),← htarget]
  congr 1
  omega

theorem Region.advanceSteps (r : Region code codeLen handlers header stop) {stride : Stride}
    {advances : List (Nat × Stride)}
    (hadvances : advancesFrom code header stop iv (stop-header) header [] = some advances)
    (hsame : ∀ p s, (p,s) ∈ advances → s = stride) (f₀ : Frame) :
    AdvanceSteps resolve code handlers header stop iv stride f₀ := by
  intro visited g f hit hw hstep
  obtain ⟨hgs,hglt⟩ := (hit.starts r.verified r.lt).1
  obtain ⟨hgin,-⟩ := hit.inRegion r.nonempty
  obtain ⟨s,hs⟩ := (r.overwrites_iff_advance hadvances hgs hgin).mp hw
  obtain rfl := hsame _ _ hs
  obtain ⟨-,-,ps,htrail,hat⟩ := (advancesFrom_spec le_rfl .refl
    (show Trails code header [] header from trivial) hadvances).1 _ _ hs
  have hstop := r.within_code
  cases hstep with
  | throws hnot => exact absurd hw hnot
  | normal heff => ?_
  unfold advanceAt at hat
  dsimp only at hat
  split at hat
  · -- `iinc`
    rename_i hop
    split at hat
    · cases hat
    obtain ⟨insn,w,d,v,v',hdec,hwrites,hinc,hold,hsum,hnew⟩ := heff.of_iinc hop
    have hat := Option.some.inj hat
    split at hat
    · rename_i hslot
      obtain rfl := Option.some.inj hat
      rw [writes_iinc hdec hop,byteAt_of_lt (by omega),hslot] at hwrites
      obtain rfl := Option.some.inj hwrites
      rw [Bce.incrementAt,if_pos hop,byteAt_of_lt (by omega)] at hinc
      refine ⟨v,v',d,hold,hnew,?_,hsum⟩
      exact (Option.some.inj hinc).symm
    · cases hat
  split at hat
  · split at hat
    · cases hat
    split at hat
    · cases hat
    · cases hat
  split at hat
  · cases hat
  rename_i hoperand
  split at hat
  · cases hat
  split at hat
  · -- the store of a sum
    rename_i htarget
    obtain ⟨s',hcompound,hs'⟩ := Option.map_eq_some_iff.mp hat
    obtain rfl := Option.some.inj hs'
    obtain ⟨insn0,hdec0,-⟩ := r.verified.decodes hgs hglt
    have hin : opAt code g.pc = 0x36 → g.pc+1 < code.length := by
      intro hop
      rw [hop] at hoperand
      have : g.pc+1 < stop := by simpa [within] using hoperand
      omega
    obtain ⟨hwrites0,histore⟩ := writes_istore hdec0 htarget hin
    obtain ⟨insn,w,n,rest,hdec,hwrites,hstack,hnew⟩ := heff.of_istore histore
    cases hdec0.symm.trans hdec
    obtain rfl := Option.some.inj (hwrites0.symm.trans hwrites)
    rcases r.sum_on_stack hit htrail hcompound with
      ⟨e,he,-⟩ | ⟨v,c,d,rest',hv,hstack',hd,hsum⟩
    · rw [hstack] at he
      cases he
    rw [hstack] at hstack'
    cases hstack'
    exact ⟨v,n,d,hv,hnew,hd,hsum⟩
  · cases hat

end CratonVM.Jit.LoopAnalysis
