import CratonVM.Jit.Bce.RangeOperands

/-!
One instruction: what a state says of a frame, the state that is sent along says of the next one.
-/
namespace CratonVM.Jit.Bce
open Bytecode Jvms RangeAnalysis List Option Bool Function
variable {code : Code} {codeLen : Nat} {handlers : List HandlerRange} {targets : List Nat} {f : Frame}
variable {st : RangeState}

section
variable {pc w : Nat} {insn : Insn}

theorem implicitWrite_eq (op : Nat) : implicitWrite op =
    if within 0x3b 0x4e op then some (.store ((op-0x3b)%4) (isPairStore op)) else none := by
  by_cases h : within 0x3b 0x4e op = true
  · rw [if_pos h]
    simp only [within,and_eq_true,decide_eq_true_eq] at h
    obtain ⟨hlo,hhi⟩ := h
    interval_cases op <;> rfl
  rw [if_neg h]
  simp only [within,and_eq_true,decide_eq_true_eq] at h
  simp only [implicitWrite,within,and_eq_true,decide_eq_true_eq]
  rw [if_neg (by omega),if_neg (by omega),if_neg (by omega),if_neg (by omega),if_neg (by omega)]

theorem isPairStore_cases {op : Nat} (h : within 0x36 0x3a op = true) :
    (op = 0x36 || op = 0x38 || op = 0x3a) = true ∧ isPairStore op = false ∨
      (op = 0x36 || op = 0x38 || op = 0x3a) = false ∧ (op = 0x37 || op = 0x39) = true ∧
        isPairStore op = true := by
  simp only [within,and_eq_true,decide_eq_true_eq] at h
  obtain ⟨hlo,hhi⟩ := h
  interval_cases op <;> decide

theorem rangeLocalWrite_store (hdec : decode code pc = some insn) (hlt : pc < codeLen)
    (hs : isStore (effective code pc) = true) (hw : insn.writes = some w) :
    rangeLocalWrite code codeLen pc = some (.store w (storesPair code pc)) := by
  obtain ⟨op,hop,hat,hoplt,hcases⟩ := decode_cases hdec
  simp only [rangeLocalWrite,if_neg (Nat.not_le.mpr hlt),hop,bind_some]
  rcases hcases with ⟨rfl,hwide⟩ | ⟨rfl,hwide⟩ | ⟨rfl,hwide⟩ | ⟨⟨h1,h2,h3⟩,hwide⟩
  · obtain ⟨real,idx,hreal,hidx,hform⟩ := wide_eq_some hwide
    have hreal' := opAt_of_byteAt hreal
    have hnone : isPairStore 0xc4 = false := by decide
    simp only [storesPair,hat,hreal',hnone]
    rcases hform with ⟨-,rfl⟩ | ⟨hk,rfl⟩ | ⟨rfl,rfl⟩
    · cases hw
    · obtain rfl := some.inj hw
      rcases isPairStore_cases hk with ⟨hone,hpair⟩ | ⟨hone,htwo,hpair⟩
      · simp [hreal,hidx,hone,hpair]
      · simp [hreal,hidx,hone,htwo,hpair]
    simp [effective,hat,hreal'] at hs
    cases hs
  · simp [effective,hat] at hs
    cases hs
  · simp [effective,hat] at hs
    cases hs
  obtain ⟨len,targets,-,-,rfl⟩ := plain_eq_some hwide
  rw [effective_of_ne (by rw [hat]; exact h1),hat] at hs
  have hinc : op ≠ 0x84 := by
    rintro rfl
    cases hs
  simp only [storesPair,hat,decide_eq_false h1,Bool.false_and,Bool.or_false]
  simp only [stores,decide_eq_false hinc,Bool.or_false] at hw
  split at hw
  · rename_i hk
    rcases isPairStore_cases hk with ⟨hone,hpair⟩ | ⟨hone,htwo,hpair⟩
    · simp [hone,hpair,hw]
    · simp [hone,htwo,hpair,hw]
  rename_i hk
  split at hw
  · rename_i himplicit
    obtain rfl := some.inj hw
    simp only [within,and_eq_true,decide_eq_true_eq] at himplicit hk
    have h1' : (op = 0x36 || op = 0x38 || op = 0x3a) = false := by simp; omega
    have h2' : (op = 0x37 || op = 0x39) = false := by simp; omega
    rw [if_neg (by simpa using h1'),if_neg (by simpa using h2'),if_neg hinc,if_neg h1,
      implicitWrite_eq,if_pos (by simp [within]; omega)]
  · cases hw

theorem rangeLocalWrite_iinc {d : Int} (hdec : decode code pc = some insn) (hlt : pc < codeLen)
    (heff : effective code pc = 0x84) (hw : insn.writes = some w) (hd : incrementAt code pc = some d) :
    rangeLocalWrite code codeLen pc = some (.iinc w d) := by
  obtain ⟨op,hop,hat,hoplt,hcases⟩ := decode_cases hdec
  simp only [rangeLocalWrite,if_neg (Nat.not_le.mpr hlt),hop,bind_some]
  rcases hcases with ⟨rfl,hwide⟩ | ⟨rfl,hwide⟩ | ⟨rfl,hwide⟩ | ⟨⟨h1,h2,h3⟩,hwide⟩
  · obtain ⟨real,idx,hreal,hidx,hform⟩ := wide_eq_some hwide
    have hreal' : real = 0x84 := by
      rw [← opAt_of_byteAt hreal]
      simpa [effective,hat] using heff
    rw [incrementAt,if_neg (by rw [hat]; decide)] at hd
    rcases hform with ⟨-,rfl⟩ | ⟨hk,-⟩ | ⟨-,rfl⟩
    · cases hw
    · rw [hreal'] at hk
      cases hk
    obtain rfl := some.inj hw
    simp [hreal,hidx,hreal',hd]
  · simp [effective,hat] at heff
  · simp [effective,hat] at heff
  obtain ⟨len,targets,-,-,rfl⟩ := plain_eq_some hwide
  rw [effective_of_ne (by rw [hat]; exact h1),hat] at heff
  subst heff
  rw [incrementAt,if_pos hat] at hd
  obtain ⟨b,hb,rfl⟩ := map_eq_some_iff.mp hd
  have hw : byteAt code (pc+1) = some w := hw
  simp [hw,hb]

theorem rangeLocalWrite_none (hs : isStore (effective code pc) = false)
    (hi : effective code pc ≠ 0x84) : rangeLocalWrite code codeLen pc = none := by
  unfold rangeLocalWrite
  split
  · rfl
  cases hop : byteAt code pc with
  | none => rfl
  | some op => ?_
  rw [bind_some]
  unfold effective at hs hi
  rw [opAt_of_byteAt hop] at hs hi
  simp only [isStore,within,and_eq_false_iff,decide_eq_false_iff_not] at hs
  by_cases hwide : op = 0xc4
  · rw [if_pos hwide] at hs hi
    subst hwide
    simp only [Nat.reduceEqDiff,decide_false,Bool.or_self,false_eq_true,if_false,if_true]
    cases hreal : byteAt code (pc+1) with
    | none => rfl
    | some real => ?_
    cases readU16 code (pc+2) with
    | none => rfl
    | some idx =>
      rw [opAt_of_byteAt hreal] at hs hi
      dsimp only
      rw [if_neg (by simp; omega),if_neg (by simp; omega),if_neg hi]
  rw [if_neg hwide] at hs hi
  rw [if_neg (by simp; omega),if_neg (by simp; omega),if_neg hi,if_neg hwide,
    implicitWrite_eq,if_neg (by simp [within]; omega)]

end

theorem branchRelation_test {op : Nat} {rel : Rel} (hlo : 0x99 ≤ op) (h : conditions[op-0x99]? = some rel) :
    branchRelation op = some (1,rel) := by
  have hall : ∀ k < 6, (conditions[k]?.map fun rel => (1,rel)) = branchRelation (k+0x99) := by decide
  have hk := hall (op-0x99) (conditions_lt h)
  rw [h,Nat.sub_add_cancel hlo] at hk
  exact hk.symm

theorem branchRelation_compare {op : Nat} {rel : Rel} (hlo : 0x9f ≤ op)
    (h : conditions[op-0x9f]? = some rel) : branchRelation op = some (2,rel) := by
  have hall : ∀ k < 6, (conditions[k]?.map fun rel => (2,rel)) = branchRelation (k+0x9f) := by decide
  have hk := hall (op-0x9f) (conditions_lt h)
  rw [h,Nat.sub_add_cancel hlo] at hk
  exact hk.symm

theorem branchRelation_none {op : Nat} (h : within 0x99 0xa4 op = false) : branchRelation op = none := by
  simp only [within,and_eq_false_iff,decide_eq_false_iff_not] at h
  unfold branchRelation
  repeat rw [if_neg (by omega)]

theorem Operand.Denotes.of_eq {g : Frame} {o : Operand} {v : JInt} (h : o.Denotes g v)
    (hlocals : f.locals = g.locals) (hheap : Extends g.heap f.heap) : o.Denotes f v := by
  cases o with
  | slot l =>
    have h : g.locals l = .int v := h
    rw [← hlocals] at h
    exact h
  | len a =>
    obtain ⟨r,hr,hn⟩ := h
    exact ⟨r,by rw [hlocals]; exact hr,hheap r _ hn⟩
  | const c => exact h

theorem describes_refine {rel : Rel} {x y : JInt} {t : StartTables} {pc : Nat} (h : Describes st f)
    (hcmp : ∀ lhs rhs rel', decodeCompare code t targets pc = some (lhs,rhs,rel') →
      rel' = rel ∧ lhs.Denotes f x ∧ rhs.Denotes f y) :
    (rel.Holds x y → Describes (refine code t targets pc st).1 f) ∧
      (¬ rel.Holds x y → Describes (refine code t targets pc st).2 f) := by
  unfold refine
  split
  · exact ⟨fun _ => h,fun _ => h⟩
  rename_i lhs rhs rel' hdecode
  obtain ⟨rfl,hx,hy⟩ := hcmp lhs rhs rel' hdecode
  exact ⟨describes_applyRel h hx hy,fun hnot => describes_applyRel h hx hy (negateRel_holds.mpr hnot)⟩

section
variable (hv : Verified code codeLen handlers)
variable (htargets : collectI16BranchTargets code codeLen = some targets)
include hv

theorem decodeOperand_start {p start : Nat} {o : Operand} (hp : Starts code p) (hlt : p < codeLen)
    (h : decodeOperandEndingAt code (rangeStartTables code codeLen) p = some (o,start)) :
    Starts code start ∧ start < codeLen ∧ start ≤ p := by
  unfold decodeOperandEndingAt at h
  split at h
  · obtain ⟨q,hq,h⟩ := bind_eq_some_iff.mp h
    obtain ⟨a,-,h⟩ := bind_eq_some_iff.mp h
    obtain ⟨-,rfl⟩ := Prod.mk.inj (some.inj h)
    obtain ⟨hq1,hq2,-,-,hqlt,-⟩ := prev_spec hv hq
    exact ⟨hq1,hq2,hqlt.le⟩
  split at h
  · cases h
    exact ⟨hp,hlt,Nat.le_refl p⟩
  · cases h
    exact ⟨hp,hlt,Nat.le_refl p⟩
  · cases h

include htargets

theorem Reachable.compared_one (hf : Reachable code handlers f) {rel rel' : Rel} {lhs rhs : Operand}
    {v z : JInt} {rest : List Value} (hz : (z : Int) = 0)
    (hop : branchRelation (opAt code f.pc) = some (1,rel)) (hstack : f.stack = .int v::rest)
    (h : decodeCompare code (rangeStartTables code codeLen) targets f.pc = some (lhs,rhs,rel')) :
    rel' = rel ∧ lhs.Denotes f v ∧ rhs.Denotes f z := by
  obtain ⟨op,hbyte,h⟩ := bind_eq_some_iff.mp h
  rw [opAt_of_byteAt hbyte] at hop
  obtain ⟨⟨arity,rel''⟩,hrel,h⟩ := bind_eq_some_iff.mp h
  cases hop.symm.trans hrel
  obtain ⟨p,hprev,h⟩ := bind_eq_some_iff.mp h
  obtain ⟨⟨o,start⟩,hdecode,h⟩ := bind_eq_some_iff.mp h
  dsimp only at h
  split at h
  · rename_i hatomic
    cases h
    obtain ⟨hp,hplt,-,hflt,hlt,-⟩ := prev_spec hv hprev
    obtain ⟨hs,hslt,hle⟩ := decodeOperand_start hv hp hplt hdecode
    rcases hf.arrives_operand hv htargets hprev hdecode fun pc hpc h1 h2 =>
        spanIsAtomicFrom_spec hv hs hslt hatomic hpc (by omega) h1 h2 with
      ⟨e,he,-⟩ | ⟨g,u,-,-,hdenotes,hstack',-⟩
    · rw [hstack] at he
      cases he
    rw [hstack] at hstack'
    cases hstack'
    exact ⟨rfl,hdenotes,hz⟩
  · cases h

theorem Reachable.compared_two (hf : Reachable code handlers f) {rel rel' : Rel} {lhs rhs : Operand}
    {a b : JInt} {rest : List Value} (hop : branchRelation (opAt code f.pc) = some (2,rel))
    (hstack : f.stack = .int b::.int a::rest)
    (h : decodeCompare code (rangeStartTables code codeLen) targets f.pc = some (lhs,rhs,rel')) :
    rel' = rel ∧ lhs.Denotes f a ∧ rhs.Denotes f b := by
  obtain ⟨op,hbyte,h⟩ := bind_eq_some_iff.mp h
  rw [opAt_of_byteAt hbyte] at hop
  obtain ⟨⟨arity,rel''⟩,hrel,h⟩ := bind_eq_some_iff.mp h
  cases hop.symm.trans hrel
  obtain ⟨p,hprev,h⟩ := bind_eq_some_iff.mp h
  obtain ⟨⟨o,start⟩,hdecode,h⟩ := bind_eq_some_iff.mp h
  obtain ⟨p2,hprev2,h⟩ := bind_eq_some_iff.mp h
  obtain ⟨⟨o2,start2⟩,hdecode2,h⟩ := bind_eq_some_iff.mp h
  dsimp only at h hprev2
  split at h
  · rename_i hatomic
    cases h
    obtain ⟨hp,hplt,-,hflt,hlt,-⟩ := prev_spec hv hprev
    obtain ⟨hs,hslt,hle⟩ := decodeOperand_start hv hp hplt hdecode
    obtain ⟨hp2,hplt2,-,-,hlt2,-⟩ := prev_spec hv hprev2
    obtain ⟨hs2,hslt2,hle2⟩ := decodeOperand_start hv hp2 hplt2 hdecode2
    have hnot : ∀ pc, Starts code pc → start2 < pc → pc ≤ f.pc → pc ∉ targets := fun pc hpc h1 h2 =>
      spanIsAtomicFrom_spec hv hs2 hslt2 hatomic hpc (by omega) h1 h2
    rcases hf.arrives_operand hv htargets hprev hdecode fun pc hpc h1 h2 => hnot pc hpc (by omega) h2 with
      ⟨e,he,-⟩ | ⟨g,u,hg,rfl,hdenotes,hstack',hlocals,hheap⟩
    · rw [hstack] at he
      cases he
    rw [hstack,cons.injEq,Value.int.injEq] at hstack'
    obtain ⟨rfl,hgstack⟩ := hstack'
    rcases hg.arrives_operand hv htargets hprev2 hdecode2 fun pc hpc h1 h2 =>
        hnot pc hpc h1 (by omega) with ⟨e,he,-⟩ | ⟨g',u',-,-,hdenotes',hstack2,-⟩
    · rw [← hgstack] at he
      cases he
    rw [← hgstack] at hstack2
    cases hstack2
    exact ⟨rfl,hdenotes'.of_eq hlocals hheap,hdenotes⟩
  · cases h

end

section
variable (hv : Verified code codeLen handlers)
include hv

theorem next_of_falls {pc : Nat} {insn : Insn} (hpc : Starts code pc) (hlt : pc < codeLen)
    (hdec : decode code pc = some insn) (hfalls : insn.falls = true) :
    (rangeStartTables code codeLen).next code pc = some (pc+insn.length) := by
  obtain ⟨hlen,-,hin,-⟩ := verified_insn hv hpc hlt hdec
  have hmem : (rangeStartTables code codeLen).starts.contains pc = true := by
    rw [contains_iff_mem,mem_starts hv]
    exact ⟨hpc,hlt⟩
  have hnext : pc+step code pc < (rangeStartTables code codeLen).codeLen := by
    rw [hlen]
    exact hin hfalls
  unfold StartTables.next
  rw [hmem,decide_eq_true hnext,hlen]
  rfl

theorem branchTarget_eq {pc q : Nat} {insn : Insn} (hpc : Starts code pc) (hlt : pc < codeLen)
    (hdec : decode code pc = some insn) (hplain : isUnmodelled (opAt code pc) = false)
    (hq : (q : Int) ∈ insn.targets) : branchTarget code codeLen pc = some q := by
  obtain ⟨hshort,hlen⟩ := branch_isShort hdec hq hplain
  have hfits := (verified_insn hv hpc hlt hdec).2.1
  unfold branchTarget
  rw [if_pos hshort,if_neg (by omega)]
  obtain ⟨op,hop,hat,hoplt,hcases⟩ := decode_cases hdec
  rw [hat] at hshort hplain
  rcases hcases with ⟨rfl,-⟩ | ⟨rfl,-⟩ | ⟨rfl,-⟩ | ⟨-,hw⟩
  · cases hshort
  · cases hshort
  · cases hshort
  obtain ⟨len,targets,-,hjumps,rfl⟩ := plain_eq_some hw
  have hform : isShortBranch op = (within 0x99 0xa7 op || within 0xc6 0xc7 op) := by
    rw [Bool.eq_iff_iff]
    simp only [isShortBranch,within,or_eq_true,and_eq_true,decide_eq_true_eq]
    omega
  rw [jumps,if_pos (by rw [← hform]; exact hshort)] at hjumps
  obtain ⟨off,hoff,rfl⟩ := map_eq_some_iff.mp hjumps
  rw [hoff,bind_some]
  exact addSigned_eq (mem_singleton.mp hq).symm

def isConditional (op : Nat) : Bool := within 0x99 0xa6 op || op = 0xc6 || op = 0xc7

theorem mem_rangeEdges_falls {pc : Nat} {insn : Insn} (hpc : Starts code pc) (hlt : pc < codeLen)
    (hdec : decode code pc = some insn) (hfalls : insn.falls = true) (targets : List Nat) (here : RangeState) :
    (pc+insn.length,if isConditional (opAt code pc) then
      (refine code (rangeStartTables code codeLen) targets pc
        (applyWrite code (rangeStartTables code codeLen) targets pc here)).2
      else applyWrite code (rangeStartTables code codeLen) targets pc here) ∈
      rangeEdges code (rangeStartTables code codeLen) targets pc here := by
  have hgoes : isUnconditional (opAt code pc) = false := by
    rw [isUnconditional_eq hdec,hfalls]
    rfl
  obtain ⟨hgoto,hreturn⟩ : opAt code pc ≠ 0xa7 ∧
      (within 0xac 0xb1 (opAt code pc) || opAt code pc = 0xbf) = false := by
    simp [isUnconditional,fallsThrough,within] at hgoes ⊢
    omega
  unfold rangeEdges
  rw [next_of_falls hv hpc hlt hdec hfalls,if_neg hgoto,if_neg (by simpa using hreturn)]
  by_cases hcond : isConditional (opAt code pc) = true
  · rw [if_pos hcond,if_pos (by simpa [isConditional] using hcond)]
    exact mem_append_right _ (mem_singleton.mpr rfl)
  rw [if_neg hcond,if_neg (by simpa [isConditional] using hcond)]
  exact mem_singleton.mpr rfl

theorem mem_rangeEdges_target {pc q : Nat} {insn : Insn} (hpc : Starts code pc) (hlt : pc < codeLen)
    (hdec : decode code pc = some insn) (hplain : isUnmodelled (opAt code pc) = false)
    (hq : (q : Int) ∈ insn.targets) (targets : List Nat) (here : RangeState) :
    (q,if opAt code pc = 0xa7 then applyWrite code (rangeStartTables code codeLen) targets pc here
      else (refine code (rangeStartTables code codeLen) targets pc
        (applyWrite code (rangeStartTables code codeLen) targets pc here)).1) ∈
      rangeEdges code (rangeStartTables code codeLen) targets pc here := by
  obtain ⟨hshort,-⟩ := branch_isShort hdec hq hplain
  have htarget : branchTarget code (rangeStartTables code codeLen).codeLen pc = some q :=
    branchTarget_eq hv hpc hlt hdec hplain hq
  unfold rangeEdges
  rw [htarget]
  by_cases hgoto : opAt code pc = 0xa7
  · rw [if_pos hgoto,if_pos hgoto]
    exact mem_singleton.mpr rfl
  obtain ⟨hreturn,hcond⟩ : (within 0xac 0xb1 (opAt code pc) || opAt code pc = 0xbf) = false ∧
      isConditional (opAt code pc) = true := by
    simp [isShortBranch,isConditional,within] at hshort ⊢
    omega
  rw [if_neg hgoto,if_neg hgoto,if_neg (by simpa using hreturn),
    if_pos (by simpa [isConditional] using hcond)]
  exact mem_append_left _ (mem_singleton.mpr rfl)

end

theorem incrementAt_holds {pc : Nat} {d : Int} (h : incrementAt code pc = some d) : Range.Holds .w32 d := by
  simp only [Range.Holds,IntWidth.min,IntWidth.max]
  unfold incrementAt at h
  split at h
  · obtain ⟨b,-,rfl⟩ := map_eq_some_iff.mp h
    have h1 := @Int.le_bmod (b : Int) (2^8) (by decide)
    have h2 := @Int.bmod_lt (b : Int) (2^8) (by decide)
    omega
  obtain ⟨v,-,h⟩ := bind_eq_some_iff.mp h
  obtain rfl := some.inj h
  have h1 := @Int.le_bmod (v : Int) (2^16) (by decide)
  have h2 := @Int.bmod_lt (v : Int) (2^16) (by decide)
  omega

theorem describes_store {f' : Frame} {w : Nat} {pair : Bool} (h : Describes st f)
    (hkeeps : ∀ l, l ≠ w → (pair = true → l ≠ w+1) → f'.locals l = f.locals l)
    (hheap : Extends f.heap f'.heap) :
    Describes (if pair then (st.kill w).kill (w+1) else st.kill w) f' := by
  cases pair with
  | false => exact describes_kill h (fun l hl => hkeeps l hl (by simp)) hheap
  | true => ?_
  have hfirst : Describes (st.kill w) { f with locals := update f.locals w (f'.locals w) } :=
    describes_kill h (fun l hl => update_of_ne hl _ _) fun _ _ hr => hr
  refine describes_kill hfirst (fun l hl => ?_) hheap
  by_cases hlw : l = w
  · subst hlw
    exact (update_self l (f'.locals l) f.locals).symm
  · exact (hkeeps l hlw fun _ => hl).trans (update_of_ne hlw _ _).symm

theorem applyWrite_none {t : StartTables} {pc : Nat} (h : rangeLocalWrite code t.codeLen pc = none) :
    applyWrite code t targets pc st = st := by
  simp [applyWrite,h]

theorem refine_none {t : StartTables} {pc : Nat} (h : within 0x99 0xa4 (opAt code pc) = false) :
    refine code t targets pc st = (st,st) := by
  have hnone : decodeCompare code t targets pc = none := by
    unfold decodeCompare
    cases hop : byteAt code pc with
    | none => rfl
    | some op =>
      rw [opAt_of_byteAt hop] at h
      simp [branchRelation_none h]
  simp [refine,hnone]

def Sent (code : Code) (codeLen : Nat) (targets : List Nat) (pc : Nat) (st : RangeState) (f : Frame) : Prop :=
  ∃ s, (f.pc,s) ∈ rangeEdges code (rangeStartTables code codeLen) targets pc st ∧ Describes s f

section
variable (hv : Verified code codeLen handlers)
variable (htargets : collectI16BranchTargets code codeLen = some targets)
variable {locals : Nat → Value} {heap : Nat → Option HeapObject}
include hv htargets

theorem Reachable.has_storedConstant (hf : Reachable code handlers f) {w : Nat} {x : Value} {c : Int}
    {rest : List Value}
    (hc : storedConstant code (rangeStartTables code codeLen) targets f.pc = some c)
    (hstack : f.stack = x::rest) (hx : storesPair code f.pc = false → locals w = x) {v : JInt}
    (hw : locals w = .int v) : (Range.constant .w32 c).Has v := by
  unfold storedConstant at hc
  cases hprev : (rangeStartTables code codeLen).prev f.pc with
  | none => simp [hprev] at hc
  | some src => ?_
  rw [hprev] at hc
  dsimp only at hc
  split at hc
  · rename_i hstore
    simp only [and_eq_true,not_eq_true',← not_eq_true,contains_iff_mem] at hstore
    obtain ⟨hnot,hop⟩ := hstore
    obtain ⟨hone,hne⟩ : isPairStore (opAt code f.pc) = false ∧ opAt code f.pc ≠ 0xc4 := by
      simp [isPairStore,within] at hop ⊢
      omega
    rw [hx (by simp [storesPair,hone,hne])] at hw
    subst hw
    rcases hf.arrives_const hv htargets hprev hnot hc with ⟨e,he,-⟩ | ⟨g,u,-,-,rfl,hgstack,-⟩
    · rw [hstack] at he
      cases he
    rw [hstack] at hgstack
    cases hgstack
    exact Range.has_constant v.property
  · cases hc

theorem Reachable.describes_applyStore (hf : Reachable code handlers f) (hd : Describes st f) {w q : Nat}
    {x : Value} {rest : List Value} {insn : Insn} (hdec : decode code f.pc = some insn)
    (hs : isStore (effective code f.pc) = true) (hw : insn.writes = some w) (hstack : f.stack = x::rest)
    (hx : storesPair code f.pc = false → locals w = x)
    (hkeeps : ∀ slot, ¬ Overwrites code f.pc slot → locals slot = f.locals slot)
    (hheap : Extends f.heap heap) :
    Describes (applyWrite code (rangeStartTables code codeLen) targets f.pc st) ⟨q,rest,locals,heap⟩ := by
  have hwrite : rangeLocalWrite code (rangeStartTables code codeLen).codeLen f.pc =
      some (.store w (storesPair code f.pc)) := rangeLocalWrite_store hdec (hf.starts hv).2 hs hw
  have hout : Describes (if storesPair code f.pc then (st.kill w).kill (w+1) else st.kill w)
      ⟨q,rest,locals,heap⟩ := by
    refine describes_store hd (fun l hl hpair => hkeeps l ?_) hheap
    rintro ⟨insn',w',hdec',hw',heq⟩
    cases hdec.symm.trans hdec'
    cases hw.symm.trans hw'
    rcases heq with heq | ⟨hp,heq⟩
    · exact hl heq
    · exact hpair hp heq
  unfold applyWrite
  rw [hwrite]
  cases hc : storedConstant code (rangeStartTables code codeLen) targets f.pc with
  | none => exact hout
  | some c => exact describes_setLocal hout fun v hv' => hf.has_storedConstant hv htargets hc hstack hx hv'

omit htargets in
theorem Reachable.describes_applyIinc (hf : Reachable code handlers f) (hd : Describes st f) {w q : Nat}
    {d : Int} {v v' : JInt} {insn : Insn} (hdec : decode code f.pc = some insn)
    (heff : effective code f.pc = 0x84) (hw : insn.writes = some w) (hinc : incrementAt code f.pc = some d)
    (hold : f.locals w = .int v) (hsum : (v' : Int) = Wrapping.wrap 32 (v+d)) (hnew : locals w = .int v')
    (hkeeps : ∀ slot, slot ≠ w → locals slot = f.locals slot) (hheap : Extends f.heap heap) :
    Describes (applyWrite code (rangeStartTables code codeLen) targets f.pc st)
      ⟨q,f.stack,locals,heap⟩ := by
  have hwrite : rangeLocalWrite code (rangeStartTables code codeLen).codeLen f.pc = some (.iinc w d) :=
    rangeLocalWrite_iinc hdec (hf.starts hv).2 heff hw hinc
  unfold applyWrite
  rw [hwrite]
  dsimp only
  cases hs : st.locals[w]?.bind fun r => r.addNoWrap (.constant .w32 d) with
  | none => exact describes_kill hd hkeeps hheap
  | some s =>
    obtain ⟨r,hr,hadd⟩ := Option.bind_eq_some_iff.mp hs
    exact describes_advance hd (incrementAt_holds hinc) hr hadd hold hnew hsum hkeeps hheap

omit htargets in
theorem Reachable.sent_fall (hf : Reachable code handlers f) {insn : Insn} {stack : List Value}
    (hdec : decode code f.pc = some insn)
    (hop : opAt code f.pc < 0x99 ∨ 0xb2 ≤ opAt code f.pc ∧ opAt code f.pc ≤ 0xbe ∨ opAt code f.pc = 0xc4)
    (hd : Describes (applyWrite code (rangeStartTables code codeLen) targets f.pc st)
      ⟨f.pc+insn.length,stack,locals,heap⟩) :
    Sent code codeLen targets f.pc st ⟨f.pc+insn.length,stack,locals,heap⟩ := by
  obtain ⟨hpc,hlt⟩ := hf.starts hv
  have hfalls := falls_of_conditional hdec (not_isUnconditional (opAt_lt code f.pc) (by omega))
  have hcond : isConditional (opAt code f.pc) = false := by
    simp [isConditional,within]
    omega
  have hmem := mem_rangeEdges_falls hv hpc hlt hdec hfalls targets st
  rw [hcond] at hmem
  exact ⟨_,hmem,hd⟩

theorem Reachable.sent_branch (hf : Reachable code handlers f) (hd : Describes st f)
    (hheap : Extends f.heap heap) {insn : Insn} {rel : Rel} {x y : JInt} {q : Nat} {stack : List Value}
    (hdec : decode code f.pc = some insn) (hop : 0x99 ≤ opAt code f.pc ∧ opAt code f.pc ≤ 0xa4)
    (hcmp : ∀ lhs rhs rel',
      decodeCompare code (rangeStartTables code codeLen) targets f.pc = some (lhs,rhs,rel') →
        rel' = rel ∧ lhs.Denotes f x ∧ rhs.Denotes f y)
    (hq : rel.Holds x y ∧ (q : Int) ∈ insn.targets ∨ ¬ rel.Holds x y ∧ q = f.pc+insn.length) :
    Sent code codeLen targets f.pc st ⟨q,stack,f.locals,heap⟩ := by
  obtain ⟨hpc,hlt⟩ := hf.starts hv
  obtain ⟨edges,hedges,-⟩ := map_eq_some_iff.mp htargets
  have heff : effective code f.pc = opAt code f.pc := effective_of_ne (by omega)
  have hwrite : applyWrite code (rangeStartTables code codeLen) targets f.pc st = st :=
    applyWrite_none (rangeLocalWrite_none (by simp [isStore,within]; omega) (by omega))
  obtain ⟨htaken,hnot⟩ := describes_refine hd hcmp
  rcases hq with ⟨hrel,hq⟩ | ⟨hrel,rfl⟩
  · have hmem := mem_rangeEdges_target hv hpc hlt hdec (not_isUnmodelled hv hedges hpc hlt) hq targets st
    rw [if_neg (by omega),hwrite] at hmem
    exact ⟨_,hmem,(htaken hrel).grows rfl hheap⟩
  have hfalls := falls_of_conditional hdec (not_isUnconditional (opAt_lt code f.pc) (by omega))
  have hcond : isConditional (opAt code f.pc) = true := by
    simp [isConditional,within]
    omega
  have hmem := mem_rangeEdges_falls hv hpc hlt hdec hfalls targets st
  rw [if_pos hcond,hwrite] at hmem
  exact ⟨_,hmem,(hnot hrel).grows rfl hheap⟩

theorem Reachable.sent_any (hf : Reachable code handlers f) (hd : Describes st f)
    (hheap : Extends f.heap heap) {q : Nat} {stack : List Value} (hexact : isExact code f.pc = false)
    (hnext : Next code f.pc q) : Sent code codeLen targets f.pc st ⟨q,stack,f.locals,heap⟩ := by
  obtain ⟨hpc,hlt⟩ := hf.starts hv
  obtain ⟨edges,hedges,-⟩ := map_eq_some_iff.mp htargets
  simp only [isExact,or_eq_false_iff,decide_eq_false_iff_not] at hexact
  obtain ⟨⟨⟨⟨⟨⟨⟨-,hstore⟩,hiinc⟩,hcompare⟩,-⟩,-⟩,-⟩,-⟩ := hexact
  have hwrite : applyWrite code (rangeStartTables code codeLen) targets f.pc st = st :=
    applyWrite_none (rangeLocalWrite_none hstore hiinc)
  obtain ⟨insn,hdec,⟨hfalls,rfl⟩ | hq⟩ := hnext
  · have hmem := mem_rangeEdges_falls hv hpc hlt hdec hfalls targets st
    rw [hwrite,refine_none hcompare,ite_self] at hmem
    exact ⟨st,hmem,hd.grows rfl hheap⟩
  have hmem := mem_rangeEdges_target hv hpc hlt hdec (not_isUnmodelled hv hedges hpc hlt) hq targets st
  rw [hwrite,refine_none hcompare,ite_self] at hmem
  exact ⟨st,hmem,hd.grows rfl hheap⟩

/-- What a state says of a frame, the state that is sent to the next instruction says of the next
frame. -/
theorem Reachable.sent_effect (hf : Reachable code handlers f) (hd : Describes st f) {q : Nat}
    {stack : List Value} (heffect : Effect code f q stack locals) (hheap : Extends f.heap heap) :
    Sent code codeLen targets f.pc st ⟨q,stack,locals,heap⟩ := by
  have hkeep : isStore (opAt code f.pc) = false → opAt code f.pc ≠ 0x84 → opAt code f.pc ≠ 0xc4 →
      Describes (applyWrite code (rangeStartTables code codeLen) targets f.pc st)
        ⟨q,stack,f.locals,heap⟩ := by
    intro hstore hiinc hwide
    rw [← effective_of_ne hwide] at hstore hiinc
    rw [applyWrite_none (rangeLocalWrite_none hstore hiinc)]
    exact hd.grows rfl hheap
  have hwide : effective code f.pc ≤ 0x84 →
      opAt code f.pc < 0x99 ∨ 0xb2 ≤ opAt code f.pc ∧ opAt code f.pc ≤ 0xbe ∨ opAt code f.pc = 0xc4 := by
    unfold effective
    split
    · exact fun _ => .inr (.inr ‹_›)
    · omega
  cases heffect with
  | push hdec hpush =>
    simp only [isPush,within,and_eq_true,decide_eq_true_eq] at hpush
    exact hf.sent_fall hv hdec (by omega)
      (hkeep (by simp [isStore,within]; omega) (by omega) (by omega))
  | arraylength hdec hop =>
    exact hf.sent_fall hv hdec (by omega) (hkeep (by rw [hop]; rfl) (by omega) (by omega))
  | getstatic hdec hop =>
    exact hf.sent_fall hv hdec (by omega) (hkeep (by rw [hop]; rfl) (by omega) (by omega))
  | getfield hdec hop =>
    exact hf.sent_fall hv hdec (by omega) (hkeep (by rw [hop]; rfl) (by omega) (by omega))
  | arith hdec _ hop =>
    exact hf.sent_fall hv hdec (by omega) (hkeep (by simp [isStore,within]; omega) (by omega) (by omega))
  | store hdec hs hw hstack _ hx hkeeps => ?_
  | iinc hdec heff hw hinc hold hsum hnew hkeeps =>
    exact hf.sent_fall hv hdec (hwide (by omega))
      (hf.describes_applyIinc hv hd hdec heff hw hinc hold hsum hnew hkeeps hheap)
  | test hdec hlo hrel hstack hq =>
    have hk := conditions_lt hrel
    have hzero : Range.Holds .w32 0 := by unfold Range.Holds; decide
    exact hf.sent_branch hv htargets hd hheap hdec (by omega) (fun lhs rhs rel' =>
      hf.compared_one hv htargets (z := ⟨0,hzero⟩) rfl (branchRelation_test hlo hrel) hstack) hq
  | compare hdec hlo hrel hstack hq =>
    have hk := conditions_lt hrel
    exact hf.sent_branch hv htargets hd hheap hdec (by omega) (fun lhs rhs rel' =>
      hf.compared_two hv htargets (branchRelation_compare hlo hrel) hstack) hq
  | any hexact hnext => exact hf.sent_any hv htargets hd hheap hexact hnext
  have hle : effective code f.pc ≤ 0x84 := by
    simp only [isStore,within,and_eq_true,decide_eq_true_eq] at hs
    omega
  exact hf.sent_fall hv hdec (hwide hle)
    (hf.describes_applyStore hv htargets hd hdec hs hw hstack hx hkeeps hheap)

end
end CratonVM.Jit.Bce
