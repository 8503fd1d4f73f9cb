import CratonVM.Jit.Bce.RangeSafePcs
import CratonVM.Jit.LoopAnalysis.Recognition

/-!
What the operands of a comparison and of an array access are when the instructions in front are not
branch targets. Control can still come to them from outside, with an exception and nothing else on
the stack.
-/
namespace CratonVM.Jit.Bce
open Bytecode Jvms RangeAnalysis List Option Prod
open Bool hiding not_or
open LoopAnalysis (byteAt_of_lt)
section
variable {code : Code} {f : Frame} {q : Nat} {stack : List Value} {locals : Nat → Value}

theorem effective_of_ne {pc : Nat} (h : opAt code pc ≠ 0xc4) : effective code pc = opAt code pc :=
  if_neg h

section
variable (h : Effect code f q stack locals)
include h

theorem Effect.of_push (hop : isPush (opAt code f.pc) = true) :
    ∃ insn v, decode code f.pc = some insn ∧ Pushes code f insn v ∧ stack = v::f.stack ∧
      locals = f.locals := by
  have hlow : opAt code f.pc < 0x2e := by
    simp only [isPush,within,and_eq_true,decide_eq_true_eq] at hop
    omega
  have heff : effective code f.pc = opAt code f.pc := effective_of_ne (by omega)
  cases h with
  | push hdec _ hp => exact ⟨_,_,hdec,hp,rfl,rfl⟩
  | arraylength _ hat => omega
  | getstatic _ hat => omega
  | getfield _ hat => omega
  | arith _ _ hat => omega
  | store _ hs =>
    simp only [isStore,within,heff,and_eq_true,decide_eq_true_eq] at hs
    omega
  | iinc _ hat => omega
  | test _ hlo => omega
  | compare _ hlo => omega
  | any hexact =>
    rw [isExact,hop] at hexact
    cases hexact

theorem Effect.of_arraylength (hop : opAt code f.pc = 0xbe) :
    ∃ r n rest, f.stack = .ref (some r)::rest ∧ f.heap r = some (.array n) ∧ stack = .int n::rest ∧
      locals = f.locals := by
  have heff : effective code f.pc = opAt code f.pc := effective_of_ne (by omega)
  cases h with
  | push _ hp =>
    rw [hop] at hp
    cases hp
  | arraylength _ _ hstack hheap => exact ⟨_,_,_,hstack,hheap,rfl,rfl⟩
  | getstatic _ hat => omega
  | getfield _ hat => omega
  | arith _ _ hat => omega
  | store _ hs =>
    rw [heff,hop] at hs
    cases hs
  | iinc _ hat => omega
  | test _ hlo hrel =>
    have := conditions_lt hrel
    omega
  | compare _ hlo hrel =>
    have := conditions_lt hrel
    omega
  | any hexact => simp [isExact,hop] at hexact

theorem Effect.of_getstatic (hop : opAt code f.pc = 0xb2) :
    ∃ v, stack = v::f.stack := by
  have heff : effective code f.pc = opAt code f.pc := effective_of_ne (by omega)
  cases h with
  | push _ hp =>
    rw [hop] at hp
    cases hp
  | arraylength _ hat => omega
  | getstatic => exact ⟨_,rfl⟩
  | getfield _ hat => omega
  | arith _ _ hat => omega
  | store _ hs =>
    rw [heff,hop] at hs
    cases hs
  | iinc _ hat => omega
  | test _ hlo hrel =>
    have := conditions_lt hrel
    omega
  | compare _ hlo hrel =>
    have := conditions_lt hrel
    omega
  | any hexact => simp [isExact,hop] at hexact

theorem Effect.of_getfield (hop : opAt code f.pc = 0xb4) :
    ∃ r v rest, f.stack = .ref r::rest ∧ stack = v::rest := by
  have heff : effective code f.pc = opAt code f.pc := effective_of_ne (by omega)
  cases h with
  | push _ hp =>
    rw [hop] at hp
    cases hp
  | arraylength _ hat => omega
  | getstatic _ hat => omega
  | getfield _ _ hstack => exact ⟨_,_,_,hstack,rfl⟩
  | arith _ _ hat => omega
  | store _ hs =>
    rw [heff,hop] at hs
    cases hs
  | iinc _ hat => omega
  | test _ hlo hrel =>
    have := conditions_lt hrel
    omega
  | compare _ hlo hrel =>
    have := conditions_lt hrel
    omega
  | any hexact => simp [isExact,hop] at hexact

theorem Effect.of_arith
    (hop : opAt code f.pc = 0x60 ∨ opAt code f.pc = 0x64) : ∃ (a b c : JInt) (rest : List Value),
      f.stack = .int b::.int a::rest ∧ stack = .int c::rest ∧ locals = f.locals ∧
      (opAt code f.pc = 0x60 ∧ (c : Int) = Wrapping.wrap 32 (a+b) ∨
        opAt code f.pc = 0x64 ∧ (c : Int) = Wrapping.wrap 32 (a-b)) := by
  have heff : effective code f.pc = opAt code f.pc := effective_of_ne (by omega)
  cases h with
  | push _ hp =>
    simp only [isPush,within,and_eq_true,decide_eq_true_eq] at hp
    omega
  | arraylength _ hat => omega
  | getstatic _ hat => omega
  | getfield _ hat => omega
  | arith _ hstack hc => exact ⟨_,_,_,_,hstack,rfl,rfl,hc⟩
  | store _ hs =>
    simp only [isStore,within,heff,and_eq_true,decide_eq_true_eq] at hs
    omega
  | iinc _ hat => omega
  | test _ hlo => omega
  | compare _ hlo => omega
  | any hexact => rcases hop with hop | hop <;> simp [isExact,hop] at hexact

theorem Effect.of_istore (hop : isIstore (opAt code f.pc) = true) :
    ∃ insn w n rest, decode code f.pc = some insn ∧ insn.writes = some w ∧ f.stack = .int n::rest ∧
      locals w = .int n := by
  obtain ⟨hone,hst,hlo',hhi⟩ : isPairStore (opAt code f.pc) = false ∧ isStore (opAt code f.pc) = true ∧
      0x36 ≤ opAt code f.pc ∧ opAt code f.pc ≤ 0x3e := by
    simp only [isIstore,within,or_eq_true,and_eq_true,decide_eq_true_eq] at hop
    simp only [isPairStore,isStore,within,or_eq_false_iff,and_eq_false_iff,and_eq_true,
      decide_eq_true_eq,decide_eq_false_iff_not]
    omega
  have heff : effective code f.pc = opAt code f.pc := effective_of_ne (by omega)
  cases h with
  | push _ hp =>
    simp only [isPush,within,and_eq_true,decide_eq_true_eq] at hp
    omega
  | arraylength _ hat => omega
  | getstatic _ hat => omega
  | getfield _ hat => omega
  | arith _ _ hat => omega
  | store hdec hs hw hstack hint hx =>
    obtain ⟨n,rfl⟩ := hint (by rw [heff]; exact hop)
    have hne : opAt code f.pc ≠ 0xc4 := by omega
    exact ⟨_,_,n,_,hdec,hw,hstack,hx (by simp [storesPair,hone,hne])⟩
  | iinc _ hat => omega
  | test _ hlo => omega
  | compare _ hlo => omega
  | any hexact =>
    rw [← heff] at hst
    simp [isExact,hst] at hexact

theorem Effect.of_iinc (hop : opAt code f.pc = 0x84) :
    ∃ (insn : Insn) (w : Nat) (d : Int) (v v' : JInt), decode code f.pc = some insn ∧
      insn.writes = some w ∧ incrementAt code f.pc = some d ∧ f.locals w = .int v ∧
      (v' : Int) = Wrapping.wrap 32 (v+d) ∧ locals w = .int v' := by
  have heff : effective code f.pc = opAt code f.pc := effective_of_ne (by omega)
  cases h with
  | push _ hp =>
    rw [hop] at hp
    cases hp
  | arraylength _ hat => omega
  | getstatic _ hat => omega
  | getfield _ hat => omega
  | arith _ _ hat => omega
  | store _ hs =>
    rw [heff,hop] at hs
    cases hs
  | iinc hdec _ hw hinc hold hsum hnew => exact ⟨_,_,_,_,_,hdec,hw,hinc,hold,hsum,hnew⟩
  | test _ hlo => omega
  | compare _ hlo => omega
  | any hexact =>
    rw [hop] at heff
    simp [isExact,heff] at hexact

theorem Effect.of_compare
    (hop : 0x9f ≤ opAt code f.pc ∧ opAt code f.pc ≤ 0xa4) :
    ∃ (a b : JInt) (rest : List Value), f.stack = .int b::.int a::rest := by
  have heff : effective code f.pc = opAt code f.pc := effective_of_ne (by omega)
  cases h with
  | push _ hp =>
    simp only [isPush,within,and_eq_true,decide_eq_true_eq] at hp
    omega
  | arraylength _ hat => omega
  | getstatic _ hat => omega
  | getfield _ hat => omega
  | arith _ _ hat => omega
  | store _ hs =>
    simp only [isStore,within,heff,and_eq_true,decide_eq_true_eq] at hs
    omega
  | iinc _ hat => omega
  | test _ hlo hrel =>
    have := conditions_lt hrel
    omega
  | compare _ _ _ hstack => exact ⟨_,_,_,hstack⟩
  | any hexact =>
    have hin : within 0x99 0xa4 (opAt code f.pc) = true := by
      simp only [within,and_eq_true,decide_eq_true_eq]
      omega
    simp [isExact,hin] at hexact

end
end

section
variable {code : Code} {pc l : Nat}

theorem opAt_of_byteAt {op : Nat} (h : byteAt code pc = some op) : opAt code pc = op := by
  simp [opAt,h]

theorem reads_plain {insn : Insn} {op : Nat} (hdec : decode code pc = some insn)
    (hop : byteAt code pc = some op) (hlow : op < 0xaa) : insn.reads = Jvms.loads code pc op := by
  obtain ⟨op',hop',-,-,hcases⟩ := decode_cases hdec
  obtain rfl := some.inj (hop.symm.trans hop')
  rcases hcases with ⟨rfl,-⟩ | ⟨rfl,-⟩ | ⟨rfl,-⟩ | ⟨-,hw⟩
  · omega
  · omega
  · omega
  obtain ⟨len,targets,-,-,rfl⟩ := plain_eq_some hw
  rfl

theorem reads_of_load {first operand : Nat} (hfirst : 0x1a ≤ first ∧ first ≤ 0x2a ∧ (first-0x1a)%4 = 0)
    (hoperand : 0x15 ≤ operand ∧ operand ≤ 0x19)
    (hload : ((byteAt code pc).bind fun op => if within first (first+3) op then some (op-first)
      else if op = operand then byteAt code (pc+1) else none) = some l) :
    (within first (first+3) (opAt code pc) = true ∨ opAt code pc = operand) ∧
      ∀ insn, decode code pc = some insn → insn.reads = some l := by
  obtain ⟨op,hop,h⟩ := bind_eq_some_iff.mp hload
  rw [opAt_of_byteAt hop]
  split at h
  · rename_i hshort
    refine ⟨.inl hshort,fun insn hdec => ?_⟩
    obtain rfl := some.inj h
    simp only [within,and_eq_true,decide_eq_true_eq] at hshort
    rw [reads_plain hdec hop (by omega),loads,if_neg (by simp [within]; omega),
      if_pos (by simp [within]; omega)]
    congr 1
    omega
  split at h
  · rename_i hlong
    subst hlong
    refine ⟨.inr rfl,fun insn hdec => ?_⟩
    rw [reads_plain hdec hop (by omega),loads,if_pos (by simp [within]; omega)]
    exact h
  · cases h

theorem extractIloadLocal_spec (h : extractIloadLocal code pc = some l) :
    isPush (opAt code pc) = true ∧ isIload (opAt code pc) = true ∧
      ∀ insn, decode code pc = some insn → insn.reads = some l := by
  obtain ⟨hop,hreads⟩ := reads_of_load (by decide) (by decide) h
  refine ⟨?_,?_,hreads⟩
  · simp only [isPush,within,and_eq_true,decide_eq_true_eq] at hop ⊢
    omega
  · simpa [isIload] using hop.symm

theorem extractAloadLocal_spec (h : extractAloadLocal code pc = some l) :
    isPush (opAt code pc) = true ∧ isAload (opAt code pc) = true ∧
      ∀ insn, decode code pc = some insn → insn.reads = some l := by
  obtain ⟨hop,hreads⟩ := reads_of_load (by decide) (by decide) h
  refine ⟨?_,?_,hreads⟩
  · simp only [isPush,within,and_eq_true,decide_eq_true_eq] at hop ⊢
    omega
  · simpa [isAload] using hop.symm

theorem rangeConstPush_spec {c : Int} (h : rangeConstPush code pc = some c) :
    isPush (opAt code pc) = true ∧ constantAt code pc = some c := by
  obtain ⟨op,hop,h⟩ := bind_eq_some_iff.mp h
  unfold constantAt
  rw [opAt_of_byteAt hop]
  split at h
  · rename_i hm1
    subst hm1
    exact ⟨rfl,h⟩
  split at h
  · rename_i hsmall
    obtain rfl := some.inj h
    simp only [within,and_eq_true,decide_eq_true_eq] at hsmall
    rw [if_pos (by simp [within]; omega)]
    refine ⟨by simp [isPush,within]; omega,?_⟩
    congr 1
    omega
  split at h
  · rename_i hbyte
    subst hbyte
    exact ⟨rfl,h⟩
  split at h
  · rename_i hshort
    subst hshort
    exact ⟨rfl,h⟩
  · cases h

end

def Frame.IsEntry (f : Frame) : Prop := ∃ e, f.stack = [.ref (some e)] ∧ f.heap e = some .object

section
variable {code : Code} {codeLen : Nat} {handlers : List HandlerRange} {targets : List Nat} {f : Frame}
variable (hv : Verified code codeLen handlers)
include hv

theorem Reachable.starts (hf : Reachable code handlers f) : Starts code f.pc ∧ f.pc < codeLen := by
  obtain ⟨locals,heap,hrun⟩ := hf
  induction hrun with
  | refl => exact ⟨.zero,hv.nonempty⟩
  | tail _ hstep ih =>
    cases hstep with
    | normal heff => exact next_starts hv ih.1 ih.2 heff.next
    | throws hleaves => exact leaves_starts hv hleaves

variable {p : Nat}

theorem eq_of_ends {q : Nat} {insn insn' : Insn} (hp : Starts code p) (hplt : p < codeLen)
    (hq : Starts code q) (hqlt : q < codeLen) (hdec : decode code p = some insn)
    (hdec' : decode code q = some insn') (h : p+insn.length = q+insn'.length) : p = q := by
  obtain ⟨hlen,-⟩ := verified_insn hv hp hplt hdec
  obtain ⟨hlen',-⟩ := verified_insn hv hq hqlt hdec'
  have hpos := step_pos code p
  have hpos' := step_pos code q
  have hpr := (inCode_of_starts hv hp hplt).1
  have hqr := (inCode_of_starts hv hq hqlt).1
  rcases Nat.lt_trichotomy p q with hlt | heq | hgt
  · have := hpr.next_le hqr hlt
    omega
  · exact heq
  have := hqr.next_le hpr hgt
  omega

theorem mem_starts : p ∈ (rangeStartTables code codeLen).starts ↔ Starts code p ∧ p < codeLen :=
  starts_of_pcsIn hv

theorem prev_spec {pc : Nat} (h : (rangeStartTables code codeLen).prev pc = some p) :
    Starts code p ∧ p < codeLen ∧ Starts code pc ∧ pc < codeLen ∧ p < pc ∧
      ∃ insn, decode code p = some insn ∧ p+insn.length = pc := by
  unfold StartTables.prev at h
  split at h
  · rename_i hpc
    rw [contains_iff_mem,mem_starts hv] at hpc
    have hp := find?_some h
    rw [contains_iff_mem,mem_starts hv] at hp
    have hlt : p < pc := by simpa using mem_of_find?_eq_some h
    obtain ⟨insn,hdec,-,hfits,-⟩ := hv.decodes hp.1 hp.2
    obtain ⟨hlen,-⟩ := verified_insn hv hp.1 hp.2 hdec
    have hle := (inCode_of_starts hv hp.1 hp.2).1.next_le (inCode_of_starts hv hpc.1 hpc.2).1 hlt
    refine ⟨hp.1,hp.2,hpc.1,hpc.2,hlt,insn,hdec,?_⟩
    by_contra hne
    have hbetween : p+step code p ∈ (rangeStartTables code codeLen).starts := by
      rw [mem_starts hv,hlen]
      exact ⟨.next hp.1 hdec,by omega⟩
    have hpos := step_pos code p
    have hfirst := @eq_false_of_find?_reverse_range _ _ (p+step code p) _ h (by omega) (by omega)
    rw [← not_eq_true,contains_iff_mem] at hfirst
    exact hfirst hbetween
  · cases h

section
variable (htargets : collectI16BranchTargets code codeLen = some targets) (hf : Reachable code handlers f)
  (hprev : (rangeStartTables code codeLen).prev f.pc = some p) (hnot : f.pc ∉ targets)
include htargets hf hprev hnot

/-- Control comes to an instruction that is no branch target from the one in front, or as an
exception. -/
theorem Reachable.arrives : f.IsEntry ∨ ∃ g, Reachable code handlers g ∧ g.pc = p ∧
      Effect code g f.pc f.stack f.locals ∧ Extends g.heap f.heap := by
  obtain ⟨hp,hplt,-,-,hlt,insn,hdec,hends⟩ := prev_spec hv hprev
  obtain ⟨locals,heap,hrun⟩ := hf
  rcases Relation.ReflTransGen.cases_tail hrun with rfl | ⟨g,hg,hstep⟩
  · exact absurd hlt (Nat.not_lt_zero p)
  have hg : Reachable code handlers g := ⟨locals,heap,hg⟩
  cases hstep with
  | normal heff hheap => ?_
  | @throws q e _ _ _ he => exact .inl ⟨e,rfl,he⟩
  refine .inr ⟨g,hg,?_,heff,hheap⟩
  obtain ⟨hgs,hglt⟩ := hg.starts hv
  obtain ⟨insn',hdec',⟨-,hq⟩ | ht⟩ := heff.next
  · exact eq_of_ends hv hgs hglt hp hplt hdec' hdec (hq.symm.trans hends.symm)
  unfold collectI16BranchTargets at htargets
  obtain ⟨edges,hedges,rfl⟩ := map_eq_some_iff.mp htargets
  exact absurd (mem_map.mpr ⟨_,mem_branchEdges hv hedges hgs hglt hdec' ht,rfl⟩) hnot

theorem Reachable.arrives_push (hop : isPush (opAt code p) = true) : f.IsEntry ∨
      ∃ g insn v, Reachable code handlers g ∧ g.pc = p ∧ decode code p = some insn ∧
        Pushes code g insn v ∧ f.stack = v::g.stack ∧ f.locals = g.locals ∧ Extends g.heap f.heap := by
  rcases hf.arrives hv htargets hprev hnot with hentry | ⟨g,hg,rfl,heff,hheap⟩
  · exact .inl hentry
  obtain ⟨insn,v,hdec,hpush,hstack,hlocals⟩ := heff.of_push hop
  exact .inr ⟨g,insn,v,hg,rfl,hdec,hpush,hstack,hlocals,hheap⟩

theorem Reachable.arrives_iload {l : Nat}
    (hload : extractIloadLocal code p = some l) : f.IsEntry ∨
      ∃ (g : Frame) (v : JInt), Reachable code handlers g ∧ g.pc = p ∧ f.locals l = .int v ∧
        f.stack = .int v::g.stack ∧ f.locals = g.locals ∧ Extends g.heap f.heap := by
  obtain ⟨hpush,hiload,hreads⟩ := extractIloadLocal_spec hload
  rcases hf.arrives_push hv htargets hprev hnot hpush with
    hentry | ⟨g,insn,v,hg,rfl,hdec,hpushes,hstack,hlocals,hheap⟩
  · exact .inl hentry
  obtain ⟨l',n,hl',hn,rfl⟩ := hpushes.2.1 hiload
  obtain rfl := some.inj (hl'.symm.trans (hreads insn hdec))
  exact .inr ⟨g,n,hg,rfl,hlocals ▸ hn,hstack,hlocals,hheap⟩

theorem Reachable.arrives_aload {l : Nat}
    (hload : extractAloadLocal code p = some l) : f.IsEntry ∨
      ∃ (g : Frame) (r : Option Nat), Reachable code handlers g ∧ g.pc = p ∧ f.locals l = .ref r ∧
        f.stack = .ref r::g.stack ∧ f.locals = g.locals ∧ Extends g.heap f.heap := by
  obtain ⟨hpush,haload,hreads⟩ := extractAloadLocal_spec hload
  rcases hf.arrives_push hv htargets hprev hnot hpush with
    hentry | ⟨g,insn,v,hg,rfl,hdec,hpushes,hstack,hlocals,hheap⟩
  · exact .inl hentry
  obtain ⟨l',r,hl',hr,rfl⟩ := hpushes.2.2 haload
  obtain rfl := some.inj (hl'.symm.trans (hreads insn hdec))
  exact .inr ⟨g,r,hg,rfl,hlocals ▸ hr,hstack,hlocals,hheap⟩

theorem Reachable.arrives_const {c : Int}
    (hconst : rangeConstPush code p = some c) : f.IsEntry ∨
      ∃ (g : Frame) (v : JInt), Reachable code handlers g ∧ g.pc = p ∧ (v : Int) = c ∧
        f.stack = .int v::g.stack ∧ f.locals = g.locals ∧ Extends g.heap f.heap := by
  obtain ⟨hpush,hc⟩ := rangeConstPush_spec hconst
  rcases hf.arrives_push hv htargets hprev hnot hpush with
    hentry | ⟨g,insn,v,hg,rfl,hdec,hpushes,hstack,hlocals,hheap⟩
  · exact .inl hentry
  obtain ⟨n,rfl,hn⟩ := hpushes.1 c hc
  exact .inr ⟨g,n,hg,rfl,hn,hstack,hlocals,hheap⟩

end

theorem spanIsAtomicFrom_spec {stop left start : Nat} (hstart : Starts code start)
    (hlt : start < codeLen)
    (h : spanIsAtomicFrom code (rangeStartTables code codeLen) targets stop left start = true)
    (hp : Starts code p) (hplt : p < codeLen) (hsp : start < p) (hps : p ≤ stop) : p ∉ targets := by
  induction left generalizing start with
  | zero =>
    have := of_decide_eq_true h
    omega
  | succ left ih => ?_
  rw [spanIsAtomicFrom] at h
  split at h
  · cases hnext : (rangeStartTables code codeLen).next code start with
    | none => simp [hnext] at h
    | some nxt => ?_
    rw [hnext] at h
    dsimp only at h
    split at h
    · cases h
    rename_i hno
    rw [or_eq_true,not_or,contains_iff_mem] at hno
    unfold StartTables.next at hnext
    split at hnext
    · rename_i hin
      obtain rfl := some.inj hnext
      obtain ⟨insn,hdec,-⟩ := hv.decodes hstart hlt
      have hlen := (verified_insn hv hstart hlt hdec).1
      have hnlt := of_decide_eq_true (and_eq_true_iff.mp hin).2
      have hle := (inCode_of_starts hv hstart hlt).1.next_le (inCode_of_starts hv hp hplt).1 hsp
      rcases Nat.eq_or_lt_of_le hle with heq | hgt
      · rw [← heq]
        exact hno.2
      · exact ih (by rw [hlen]; exact .next hstart hdec) hnlt h hgt
    · cases hnext
  · omega

theorem Reachable.arrives_operand (htargets : collectI16BranchTargets code codeLen = some targets)
    (hf : Reachable code handlers f) {start : Nat} {o : Operand}
    (hprev : (rangeStartTables code codeLen).prev f.pc = some p)
    (hdecode : decodeOperandEndingAt code (rangeStartTables code codeLen) p = some (o,start))
    (hnot : ∀ pc, Starts code pc → start < pc → pc ≤ f.pc → pc ∉ targets) : f.IsEntry ∨
      ∃ (g : Frame) (v : JInt), Reachable code handlers g ∧ g.pc = start ∧ o.Denotes f v ∧
        f.stack = .int v::g.stack ∧ f.locals = g.locals ∧ Extends g.heap f.heap := by
  obtain ⟨hp,-,hpc,-,hlt,-⟩ := prev_spec hv hprev
  unfold decodeOperandEndingAt at hdecode
  split at hdecode
  · -- the length of a loaded array
    rename_i hop
    obtain ⟨q,hq,hdecode⟩ := bind_eq_some_iff.mp hdecode
    obtain ⟨a,ha,hdecode⟩ := bind_eq_some_iff.mp hdecode
    obtain ⟨rfl,rfl⟩ := mk.inj (some.inj hdecode)
    obtain ⟨-,-,-,-,hqlt,-⟩ := prev_spec hv hq
    rcases hf.arrives hv htargets hprev (hnot _ hpc (by omega) le_rfl) with
      hentry | ⟨g,hg,rfl,heff,hheap⟩
    · exact .inl hentry
    obtain ⟨r,n,rest,hgstack,hn,hstack,hlocals⟩ := heff.of_arraylength (opAt_of_byteAt hop)
    rcases hg.arrives_aload hv htargets hq (hnot _ hp hqlt hlt.le) ha with
      ⟨e,he,hobject⟩ | ⟨g',r',hg',rfl,hr',hgstack',hlocals',hheap'⟩
    · -- an exception is no array
      rw [hgstack] at he
      cases he
      rw [hobject] at hn
      cases hn
    rw [hgstack] at hgstack'
    cases hgstack'
    refine .inr ⟨g',n,hg',rfl,⟨r,?_,hheap r _ hn⟩,hstack,hlocals.trans hlocals',
      fun x o hx => hheap x o (hheap' x o hx)⟩
    rw [hlocals]
    exact hr'
  · cases hload : extractIloadLocal code p with
    | some l =>
      simp only [hload,some.injEq,mk.injEq] at hdecode
      obtain ⟨rfl,rfl⟩ := hdecode
      exact hf.arrives_iload hv htargets hprev (hnot _ hpc hlt le_rfl) hload
    | none => ?_
    cases hconst : rangeConstPush code p with
    | some c =>
      simp only [hload,hconst,some.injEq,mk.injEq] at hdecode
      obtain ⟨rfl,rfl⟩ := hdecode
      exact hf.arrives_const hv htargets hprev (hnot _ hpc hlt le_rfl) hconst
    | none => simp [hload,hconst] at hdecode

end
end CratonVM.Jit.Bce
