import CratonVM.Jit.LoopAnalysis.Expressions

/-!
Every iteration executes the exit test: its branch, because a walk that does not pass it does not come
back to the header, and then the whole test, because nothing enters it in the middle.
-/
namespace CratonVM.Jit.LoopAnalysis
open Bytecode Jvms Scev List Option
open Bce (Frame Value JInt Effect InRegion isPush opAt_of_byteAt)
open LocalHomes (pcsIn mem_pcsIn)
variable {resolve : Nat → Option MinMax} {code : Code} {codeLen : Nat} {handlers : List HandlerRange}
variable {header stop iv pc : Nat} {f₀ f : Frame} {visited : List Frame}

theorem Region.testEdges_spec (r : Region code codeLen handlers header stop) {testPc p : Nat}
    {es : List (Nat × Unit)} (hp : Starts code p) (hin : InRegion header stop p) (hne : p ≠ testPc)
    (h : testEdges code header stop testPc (handlerEntries codeLen handlers) p () = some es) {q : Nat}
    (hq : Next code p q ∨ Leaves handlers p q) (hqin : InRegion header stop q) :
    q ≠ header ∧ (q,()) ∈ es := by
  have hplt := Nat.lt_of_lt_of_le hin.2 r.inCode
  unfold testEdges at h
  rw [if_neg hne] at h
  obtain ⟨succs,hsuccs,h⟩ := bind_eq_some_iff.mp h
  dsimp only at h
  split at h
  · cases h
  rename_i hback
  obtain rfl := some.inj h
  have hinside : (decide (header ≤ q) && decide (q < stop)) = true := by simp [hqin.1,hqin.2]
  have hmem : q ∈ (succs ++ ((handlerEntries codeLen handlers).filter fun h =>
      decide (h.startPc < h.endPc) && decide (h.startPc ≤ p) && decide (p < h.endPc)).map
        (·.handlerPc)).filter fun t => decide (header ≤ t) && decide (t < stop) := by
    refine mem_filter.mpr ⟨mem_append.mpr ?_,hinside⟩
    rcases hq with hnext | hleaves
    · exact .inl (mem_normalSuccessors r.verified hp hplt hsuccs hnext)
    obtain ⟨e,he,h1,h2,rfl⟩ := leaves_entry hleaves hplt
    have hcovers : (decide (e.startPc < e.endPc) && decide (e.startPc ≤ p) &&
        decide (p < e.endPc)) = true := by
      simp [h1,h2]
      omega
    exact .inr (mem_map.mpr ⟨e,mem_filter.mpr ⟨he,hcovers⟩,rfl⟩)
  refine ⟨?_,mem_map.mpr ⟨q,hmem,rfl⟩⟩
  rintro rfl
  exact hback (contains_iff_mem.mpr hmem)

theorem Region.visits_branch (r : Region code codeLen handlers header stop) {testPc : Nat}
    (h : exitTestOnEveryIteration code header stop testPc (handlerEntries codeLen handlers) = true)
    (hit : Iteration resolve code handlers header stop iv f₀ visited f) (hne : visited ≠ [])
    (hback : f.pc = header) : ∃ k ∈ visited, k.pc = testPc := by
  unfold exitTestOnEveryIteration at h
  rw [Nat.min_eq_left r.within_code] at h
  rw [if_neg (Nat.not_le.mpr r.nonempty)] at h
  obtain ⟨label,hwalk⟩ := isSome_iff_exists.mp h
  obtain ⟨hclosed,hkeep⟩ := LabelWalk.walk_closed hwalk (covered_start header ())
  have hway : (∃ k ∈ visited, k.pc = testPc) ∨
      (visited = [] ∨ f.pc ≠ header) ∧ label f.pc = some () := by
    clear hne hback
    induction hit with
    | start _ hpc =>
      refine .inr ⟨.inl rfl,?_⟩
      rw [hpc]
      exact hkeep header () (Dataflow.update_same (fun _ => none) header ())
    | @step visited g f hit' hfirst hstep hin ih => ?_
    rcases ih with ⟨k,hk,hpc⟩ | ⟨-,hlabel⟩
    · exact .inl ⟨k,mem_append_left _ hk,hpc⟩
    by_cases htest : g.pc = testPc
    · exact .inl ⟨g,by simp,htest⟩
    obtain ⟨es,hes,hall⟩ := hclosed g.pc () hlabel
    obtain ⟨hgs,-⟩ := (hit'.starts r.verified r.lt).1
    obtain ⟨hgin,-⟩ := hit'.inRegion r.nonempty
    have hq := hstep.edge.imp_right And.right
    obtain ⟨hnothead,hmem⟩ := r.testEdges_spec hgs hgin htest hes hq hin
    exact .inr ⟨.inr hnothead,hall _ hmem⟩
  rcases hway with hway | ⟨hempty | hnot,-⟩
  · exact hway
  · exact absurd hempty hne
  · exact absurd hback hnot

/-- An atom is one push, or the load of a reference and a read of what it refers to. -/
def IsAtom (code : Code) (pc next : Nat) : Prop :=
  (isPush (opAt code pc) = true ∨ opAt code pc = 0xb2) ∧ next = pc+step code pc ∨
    isPush (opAt code pc) = true ∧
      (opAt code (pc+step code pc) = 0xbe ∨ opAt code (pc+step code pc) = 0xb4) ∧
      next = pc+step code pc+step code (pc+step code pc)

variable {bound : BoundSource}

theorem literal_next {v : Int} {n next : Nat} (h : literal v n = some (bound,next)) :
    next = n := by
  unfold literal at h
  split at h
  · cases h
    rfl
  · cases h

theorem decodeReceiver_spec {recv after next : Nat} (hstop : stop ≤ code.length)
    (h : decodeReceiver code recv after stop = some (bound,next)) :
    (opAt code after = 0xbe ∨ opAt code after = 0xb4) ∧ next = after+step code after := by
  unfold decodeReceiver at h
  split at h
  · rename_i hop
    cases h
    exact ⟨.inl hop.2,by rw [step_of_op (n := 1) (by omega) (by rw [hop.2]; decide)]⟩
  split at h
  · rename_i hop
    cases h
    exact ⟨.inr hop.2,by rw [step_of_op (n := 3) (by omega) (by rw [hop.2]; decide)]⟩
  · cases h

theorem decodeAtom_spec {next : Nat} (hstop : stop ≤ code.length)
    (h : decodeAtom code pc stop = some (bound,next)) : pc < stop ∧ IsAtom code pc next := by
  have hlow : ∀ op < 256, within 0x02 0x08 op = true ∨ within 0x1a 0x1d op = true ∨
      within 0x2a 0x2d op = true → isPush op = true ∧ op ≠ 0xc4 ∧ op ≠ 0xaa ∧ op ≠ 0xab ∧ fixedLen op = 1 := by
    decide +kernel
  have hpair : ∀ op < 256, op = 0x10 ∨ op = 0x15 ∨ op = 0x19 →
      isPush op = true ∧ op ≠ 0xc4 ∧ op ≠ 0xaa ∧ op ≠ 0xab ∧ fixedLen op = 2 := by decide +kernel
  rcases ite_eq_iff.mp h with ⟨-,h⟩ | ⟨hin,h⟩
  · cases h
  have hlt : pc < code.length := by omega
  have hop := Bce.opAt_lt code pc
  refine ⟨by omega,?_⟩
  rcases ite_eq_iff.mp h with ⟨hsmall,h⟩ | ⟨-,h⟩
  · obtain ⟨hpush,hlen⟩ := hlow _ hop (.inl hsmall)
    exact .inl ⟨.inl hpush,by rw [step_of_op hlt hlen]; exact literal_next h⟩
  rcases ite_eq_iff.mp h with ⟨hbyte,h⟩ | ⟨-,h⟩
  · obtain ⟨hpush,hlen⟩ := hpair _ hop (.inl hbyte.1)
    exact .inl ⟨.inl hpush,by rw [step_of_op hlt hlen]; exact literal_next h⟩
  rcases ite_eq_iff.mp h with ⟨hshort,h⟩ | ⟨-,h⟩
  · refine .inl ⟨.inl (by rw [hshort.1]; rfl),?_⟩
    rw [step_of_op (n := 3) hlt (by rw [hshort.1]; decide)]
    exact literal_next h
  rcases ite_eq_iff.mp h with ⟨hload,h⟩ | ⟨-,h⟩
  · obtain ⟨hpush,hlen⟩ := hlow _ hop (.inr (.inl hload))
    cases h
    exact .inl ⟨.inl hpush,by rw [step_of_op hlt hlen]⟩
  rcases ite_eq_iff.mp h with ⟨hload,h⟩ | ⟨-,h⟩
  · obtain ⟨hpush,hlen⟩ := hpair _ hop (.inr (.inl hload.1))
    cases h
    exact .inl ⟨.inl hpush,by rw [step_of_op hlt hlen]⟩
  rcases ite_eq_iff.mp h with ⟨hstatic,h⟩ | ⟨-,h⟩
  · cases h
    exact .inl ⟨.inr hstatic.1,by rw [step_of_op (n := 3) hlt (by rw [hstatic.1]; decide)]⟩
  rcases ite_eq_iff.mp h with ⟨hload,h⟩ | ⟨-,h⟩
  · obtain ⟨hpush,hlen⟩ := hpair _ hop (.inr (.inr hload))
    rcases ite_eq_iff.mp h with ⟨-,h⟩ | ⟨-,h⟩
    · cases h
    obtain ⟨hread,hnext⟩ := decodeReceiver_spec hstop h
    rw [IsAtom,step_of_op hlt hlen]
    exact .inr ⟨hpush,hread,hnext⟩
  rcases ite_eq_iff.mp h with ⟨hload,h⟩ | ⟨-,h⟩
  · obtain ⟨hpush,hlen⟩ := hlow _ hop (.inr (.inr hload))
    obtain ⟨hread,hnext⟩ := decodeReceiver_spec hstop h
    rw [IsAtom,step_of_op hlt hlen]
    exact .inr ⟨hpush,hread,hnext⟩
  · cases h

/-- Behind an expression that starts at `pc`: an exception inside it, or its value on what was there. -/
def Evaluated (resolve : Nat → Option MinMax) (code : Code) (handlers : List HandlerRange)
    (header stop iv : Nat) (f₀ : Frame) (visited : List Frame) (f : Frame) (pc : Nat) : Prop :=
  f.stack.length ≤ 1 ∨ ∃ g visited' v, Iteration resolve code handlers header stop iv f₀ visited' g ∧
    visited' <+: visited ∧ g.pc = pc ∧ f.stack = v::g.stack

theorem entry_length (h : f.IsEntry) : f.stack.length ≤ 1 := by
  obtain ⟨e,he,-⟩ := h
  simp [he]

section
variable (r : Region code codeLen handlers header stop) {lo hi p next : Nat}
  (hland : branchLandsIn code header stop lo hi = false)
include r hland

theorem Region.atom_on_stack (hatom : IsAtom code p next) (hp : Reaches code header p) (hlo : lo ≤ p)
    (hit : Iteration resolve code handlers header stop iv f₀ visited f) (hpc : f.pc = next) (hhi : next ≤ hi) :
    Evaluated resolve code handlers header stop iv f₀ visited f p := by
  have hpos := step_pos code p
  rcases hatom with ⟨hop,rfl⟩ | ⟨hop,hread,rfl⟩
  · rcases r.arrives hit hp hpc.symm hland (by omega) (by omega) with
      hentry | ⟨g,visited',rfl,hg,rfl,heff,-⟩
    · exact .inl (entry_length hentry)
    have hstack : ∃ v, f.stack = v::g.stack := by
      rcases hop with hop | hop
      · obtain ⟨-,v,-,-,hstack,-⟩ := heff.of_push hop
        exact ⟨v,hstack⟩
      · exact heff.of_getstatic hop
    obtain ⟨v,hv⟩ := hstack
    exact .inr ⟨g,visited',v,hg,prefix_append _ _,rfl,hv⟩
  rcases r.arrives hit hp.next hpc.symm hland (by omega) (by omega) with
    hentry | ⟨g,visited',rfl,hg,hgpc,heff,-⟩
  · exact .inl (entry_length hentry)
  rw [← hgpc] at hread
  have hstack : ∃ x v rest, g.stack = x::rest ∧ f.stack = v::rest := by
    rcases hread with hop' | hop'
    · obtain ⟨x,n,rest,h1,-,h2,-⟩ := heff.of_arraylength hop'
      exact ⟨_,_,rest,h1,h2⟩
    obtain ⟨x,v,rest,h1,h2⟩ := heff.of_getfield hop'
    exact ⟨_,v,rest,h1,h2⟩
  obtain ⟨x,v,rest,hg1,hf1⟩ := hstack
  rcases r.arrives hg hp hgpc.symm hland (by omega) (by omega) with
    hentry | ⟨k,visited'',rfl,hk,rfl,heff',-⟩
  · obtain ⟨e,he,-⟩ := hentry
    rw [he,cons.injEq] at hg1
    left
    simp [hf1,← hg1.2]
  obtain ⟨-,y,-,-,hstack,-⟩ := heff'.of_push hop
  rw [hg1,cons.injEq] at hstack
  rw [hstack.2] at hf1
  refine .inr ⟨k,visited'',v,hk,?_,rfl,hf1⟩
  exact (prefix_append _ _).trans (prefix_append _ _)

theorem Region.call_on_stack {first second call : Nat} (hcall : Reaches code header call)
    (hop : opAt code call = 0xb8) (hknown : (resolve (u16Value code (call+1))).isSome = true)
    (hfirst : ∀ visited k, Iteration resolve code handlers header stop iv f₀ visited k → k.pc = second →
      Evaluated resolve code handlers header stop iv f₀ visited k first)
    (hsecond : ∀ visited g, Iteration resolve code handlers header stop iv f₀ visited g → g.pc = call →
      Evaluated resolve code handlers header stop iv f₀ visited g second)
    (hit : Iteration resolve code handlers header stop iv f₀ visited f) (hpc : f.pc = call+step code call)
    (hlo : lo ≤ call) (hhi : f.pc ≤ hi) :
    Evaluated resolve code handlers header stop iv f₀ visited f first := by
  have hpos := step_pos code call
  rcases r.arrives hit hcall hpc.symm hland (by omega) hhi with
    hentry | ⟨g,visited',rfl,hg,rfl,-,hcombines⟩
  · exact .inl (entry_length hentry)
  obtain ⟨a,b,c,rest,hgstack,hfstack⟩ := hcombines hop hknown
  rcases hsecond _ _ hg rfl with hshort | ⟨k,visited₂,v,hk,hpre,hkpc,hkstack⟩
  · simp [hgstack] at hshort
  rw [hgstack,cons.injEq] at hkstack
  rcases hfirst _ _ hk hkpc with hshort | ⟨m,visited₁,w,hm,hpre',hmpc,hmstack⟩
  · rw [← hkstack.2] at hshort
    left
    simpa [hfstack] using hshort
  rw [← hkstack.2,cons.injEq] at hmstack
  refine .inr ⟨m,visited₁,c,hm,?_,hmpc,by rw [hfstack,hmstack.2]⟩
  exact (hpre'.trans hpre).trans (prefix_append _ _)

theorem Region.expr_on_stack {left : Nat} {bound : BoundSource}
    (h : decodeExpr resolve code stop left p = some (bound,next)) (hp : Reaches code header p) (hlo : lo ≤ p) :
    Reaches code header next ∧ p < next ∧ ∀ visited f,
      Iteration resolve code handlers header stop iv f₀ visited f → f.pc = next → next ≤ hi →
      Evaluated resolve code handlers header stop iv f₀ visited f p := by
  have hstop := r.within_code
  induction left generalizing p bound next with
  | zero => cases h
  | succ left ih => ?_
  rw [decodeExpr] at h
  cases hatom : decodeAtom code p stop with
  | none => simp [hatom] at h
  | some first => ?_
  obtain ⟨a,mid⟩ := first
  obtain ⟨-,his⟩ := decodeAtom_spec hstop hatom
  have hmid : Reaches code header mid ∧ p < mid := by
    have hpos := step_pos code p
    rcases his with ⟨-,rfl⟩ | ⟨-,-,rfl⟩
    · exact ⟨hp.next,by omega⟩
    · exact ⟨hp.next.next,by omega⟩
  have hone : Reaches code header mid ∧ p < mid ∧ ∀ visited f,
      Iteration resolve code handlers header stop iv f₀ visited f → f.pc = mid → mid ≤ hi →
      Evaluated resolve code handlers header stop iv f₀ visited f p :=
    ⟨hmid.1,hmid.2,fun visited f hit => r.atom_on_stack hland his hp hlo hit⟩
  simp only [hatom] at h
  cases hrest : decodeExpr resolve code stop left mid with
  | none =>
    simp only [hrest] at h
    cases h
    exact hone
  | some second => ?_
  obtain ⟨b,call⟩ := second
  simp only [hrest] at h
  split at h
  · rename_i hop
    cases hkind : resolve (u16Value code (call+1)) with
    | none =>
      simp only [hkind] at h
      cases h
      exact hone
    | some kind => ?_
    simp only [hkind] at h
    cases h
    obtain ⟨hcall,hlt,hsecond⟩ := ih hrest hmid.1 (by omega)
    have hlen : step code call = 3 := step_of_op (by omega) (by rw [hop.2]; decide)
    rw [← hlen]
    refine ⟨hcall.next,by omega,fun visited f hit hpc hhi => ?_⟩
    exact r.call_on_stack hland hcall hop.2 (by simp [hkind])
      (fun visited k hk hkpc => hone.2.2 visited k hk hkpc (by omega))
      (fun visited g hg hgpc => hsecond visited g hg hgpc (by omega)) hit hpc (by omega) (by omega)
  cases h
  exact hone

end

theorem exitCmpOf_range {op : Nat} {cmp : ExitCmp} (h : exitCmpOf op = some cmp) : 0x9f ≤ op ∧ op ≤ 0xa4 := by
  unfold exitCmpOf at h
  split_ifs at h <;> omega

theorem Iteration.split (hit : Iteration resolve code handlers header stop iv f₀ visited f) {k : Frame}
    (hk : k ∈ visited) : ∃ earlier k', earlier++[k] <+: visited ∧
      Iteration resolve code handlers header stop iv f₀ earlier k ∧ LoopStep resolve code handlers iv k k' := by
  induction hit with
  | start => cases hk
  | @step visited g f hit' hfirst hstep hin ih => ?_
  rcases mem_append.mp hk with hk | hk
  · obtain ⟨earlier,k',hpre,hrest⟩ := ih hk
    exact ⟨earlier,k',hpre.trans (prefix_append _ _),hrest⟩
  obtain rfl := mem_singleton.mp hk
  exact ⟨visited,f,prefix_rfl,hit',hstep⟩

theorem Region.visits_test (r : Region code codeLen handlers header stop) {candidate q : Nat} {cmp : ExitCmp} (ht : Reaches code header pc)
    (hload : iloadLocal code pc stop = some candidate)
    (hlimit : decodeBoundExpr resolve code (pc+iloadLen code pc) stop = some (bound,q))
    (hland : branchLandsIn code header stop pc q = false) (hcmp : exitCmpOf (opAt code q) = some cmp)
    (hevery : exitTestOnEveryIteration code header stop q (handlerEntries codeLen handlers) = true)
    (hit : Iteration resolve code handlers header stop iv f₀ visited f) (hne : visited ≠ [])
    (hback : f.pc = header) : ∃ k ∈ visited, k.pc = pc := by
  obtain ⟨-,-,-,hlen⟩ := iloadLocal_spec r.within_code hload
  rw [hlen] at hlimit
  have hpos := step_pos code pc
  obtain ⟨k,hk,hkpc⟩ := r.visits_branch hevery hit hne hback
  obtain ⟨earlier,k',hpre,hearlier,hstep⟩ := hit.split hk
  have hop : 0x9f ≤ opAt code k.pc ∧ opAt code k.pc ≤ 0xa4 := by
    rw [hkpc]
    exact exitCmpOf_range hcmp
  have hints : ∃ (a b : JInt) (rest : List Value), k.stack = .int b::.int a::rest := by
    cases hstep with
    | normal heff => exact heff.of_compare hop
    | throws _ hcompares => exact hcompares hop.1 hop.2
  obtain ⟨a,b,rest,hstack⟩ := hints
  -- the limit is on top, the load of the local below it
  obtain ⟨-,hlt,hvalue⟩ := @Region.expr_on_stack _ _ _ _ _ _ iv f₀ r _ _ _ _ hland _ _ hlimit ht.next
    (by omega)
  rcases hvalue _ _ hearlier hkpc le_rfl with hshort | ⟨g,visited',v,hg,hpre',hgpc,hgstack⟩
  · simp [hstack] at hshort
  rw [hstack,cons.injEq] at hgstack
  rcases r.arrives hg ht hgpc.symm hland (by omega) (by omega) with
    ⟨e,he,-⟩ | ⟨m,visited'',rfl,hm,hmpc,-,-⟩
  · rw [← hgstack.2] at he
    cases he
  refine ⟨m,hpre.subset (mem_append_left _ (hpre'.subset ?_)),hmpc⟩
  simp

end CratonVM.Jit.LoopAnalysis
