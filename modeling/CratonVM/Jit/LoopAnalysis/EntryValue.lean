import CratonVM.Jit.LoopAnalysis.Expressions

/-!
The value of the induction local when a run enters the loop: the constant of the last store in front of
the header, unless an exception of the loop is caught between that store and the header.
-/
namespace CratonVM.Jit.LoopAnalysis
open Bytecode Jvms Scev List Option
open Bool hiding not_or
open Bce (Frame Value JInt Effect InRegion HeapObject)
open LocalHomes (pcsFrom pcsIn mem_pcsIn)
variable {code : Code} {codeLen : Nat} {handlers entries : List HandlerRange}
variable {header stop iv pc : Nat} {f g : Frame}

theorem byteAt_take {n : Nat} (h : pc < n) : byteAt (code.take n) pc = byteAt code pc := by
  unfold byteAt
  rw [getElem?_take_of_lt h]

theorem offsetBranchTarget_take {n : Nat} (h : pc+2 < n) (hwide : opAt code pc ≠ 0xc8)
    (hsub : opAt code pc ≠ 0xc9) : offsetBranchTarget (code.take n) pc = offsetBranchTarget code pc := by
  unfold offsetBranchTarget branchOffset
  rw [byteAt_take (by omega)]
  cases hop : byteAt code pc with
  | none => rfl
  | some op => ?_
  rw [Bce.opAt_of_byteAt hop] at hwide hsub
  simp only [bind_eq_bind,bind_some,hwide,hsub,decide_false,Bool.or_self,false_eq_true,
    if_false]
  split
  · rw [readI16,readI16,readU16,readU16,byteAt_take (by omega),byteAt_take (by omega)]
  · rfl

section verified
variable (hv : Verified code codeLen handlers)
include hv

theorem mem_loopBranchEdges {edges : List (Nat × Nat)} (h : loopBranchEdges code codeLen = some edges)
    {src t : Nat} {insn : Insn} (hsrc : Starts code src) (hlt : src < codeLen)
    (hdec : decode code src = some insn) (ht : (t : Int) ∈ insn.targets) : (src,t) ∈ edges := by
  unfold loopBranchEdges at h
  dsimp only at h
  split at h
  · cases h
  rename_i hplain
  have hmem : src ∈ pcsIn code 0 codeLen := (Bce.starts_of_pcsIn hv).mpr ⟨hsrc,hlt⟩
  rw [not_eq_true,List.any_eq_false] at hplain
  have hnot := hplain src hmem
  simp only [or_eq_true,decide_eq_true_eq,not_or] at hnot
  obtain ⟨⟨⟨h1,h2⟩,hsub⟩,hwide⟩ := hnot
  obtain ⟨htarget,hop⟩ := offsetBranchTarget_eq hdec ht h1 h2
  simp only [hwide,decide_false,Bool.or_false] at hop
  obtain ⟨y,hy,hedge⟩ := mem_of_mapM h (mem_filter.mpr ⟨hmem,hop⟩)
  obtain ⟨hlen,hfit,-,htargets⟩ := verified_insn hv hsrc hlt hdec
  obtain ⟨q,hq,-,hqlt⟩ := htargets _ ht
  cases Int.ofNat.inj hq
  have hthree : step code src = 3 := by
    have hall : ∀ op < 256, (within 0x99 0xa7 op || op = 0xc6 || op = 0xc7) = true →
        op ≠ 0xc4 ∧ op ≠ 0xaa ∧ op ≠ 0xab ∧ fixedLen op = 3 := by decide +kernel
    have hin := hv.within_code
    exact step_of_op (by omega) (hall _ (Bce.opAt_lt code src) hop)
  have hnotsub : opAt code src ≠ 0xc9 := by
    intro heq
    rw [heq] at hsub
    exact hsub rfl
  rw [offsetBranchTarget_take (by omega) hwide hnotsub,htarget] at hedge
  simp only [Option.filter,decide_eq_true hqlt,if_true,map_some] at hedge
  obtain rfl := some.inj hedge
  exact hy

end verified

theorem segmentGoto_spec {left : Nat} {entryGoto : Option Nat} (hin : header ≤ code.length)
    (h : segmentGoto code codeLen header stop left pc = some entryGoto) : Reaches code pc header ∧
      ∀ s ∈ entryGoto, Reaches code pc s ∧ s+step code s = header ∧ opAt code s = 0xa7 ∧
        ∃ t, offsetBranchTarget (code.take codeLen) s = some t ∧ header ≤ t ∧ t < stop := by
  induction left generalizing pc with
  | zero =>
    rw [segmentGoto] at h
    split at h
    · cases h
      rename_i heq
      exact ⟨by rw [heq]; exact .refl,fun s hs => by cases hs⟩
    · cases h
  | succ left ih => ?_
  rw [segmentGoto] at h
  split at h
  · dsimp only at h
    split at h
    · rename_i hop
      obtain ⟨t,ht,h⟩ := bind_eq_some_iff.mp h
      split at h
      · cases h
      cases h
      have hlen : step code pc = 3 := step_of_op (by omega) (by rw [hop]; decide)
      have hends : pc+step code pc = header := by omega
      refine ⟨?_,fun s hs => ?_⟩
      · rw [← hends]
        exact .next .refl
      cases hs
      exact ⟨.refl,hends,hop,t,ht,by omega,by omega⟩
    split at h
    · cases h
    obtain ⟨hreach,hgoto⟩ := ih h
    refine ⟨(Reaches.next .refl).trans hreach,fun s hs => ?_⟩
    obtain ⟨hs1,hs2⟩ := hgoto s hs
    exact ⟨(Reaches.next .refl).trans hs1,hs2⟩
  split at h
  · cases h
    rename_i heq
    exact ⟨by rw [heq]; exact .refl,fun s hs => by cases hs⟩
  · cases h

theorem storesAlong_spec {prev : Option Nat} {left : Nat} {s : IntStore}
    (hprev : ∀ p ∈ prev, p+step code p = pc ∧ Reaches code 0 p) (hpc : Reaches code 0 pc)
    (h : s ∈ storesAlong code codeLen prev (pcsFrom code codeLen left pc)) :
    Reaches code 0 s.pc ∧ s.pc < codeLen ∧ istoreTarget code s.pc = some s.slot ∧
      (opAt code s.pc = 0x36 → s.pc+1 < codeLen) ∧
      ∀ p ∈ s.prev, p+step code p = s.pc ∧ Reaches code 0 p := by
  induction left generalizing pc prev with
  | zero => cases h
  | succ left ih => ?_
  rw [pcsFrom] at h
  split at h
  · rename_i hlt
    rw [storesAlong] at h
    rcases mem_append.mp h with h | h
    · obtain ⟨slot,hslot,rfl⟩ := mem_map.mp h
      rw [mem_toList] at hslot
      split at hslot
      · cases hslot
      rename_i hfit
      refine ⟨hpc,hlt,hslot,fun hop => ?_,hprev⟩
      simpa [hop] using hfit
    refine ih (fun p hp => ?_) hpc.next h
    obtain rfl := some.inj hp
    exact ⟨rfl,hpc⟩
  · cases h

structure StoreChecked (code : Code) (codeLen : Nat) (entries : List HandlerRange)
    (header stop iv storePc pushPc : Nat) (edges : List (Nat × Nat)) (entryGoto : Option Nat)
    (segWrites : Nat) : Prop where
  edges_eq : loopBranchEdges code codeLen = some edges
  lt : storePc < header
  notTarget : ∀ src, (src,storePc) ∉ edges
  stretch : segmentGoto code codeLen header stop (header-(storePc+step code storePc)+1)
    (storePc+step code storePc) = some entryGoto
  writes : modifiedLocalsStrict code (storePc+step code storePc) (entryGoto.getD header) = some segWrites
  keeps : segWrites.testBit iv = false
  enters : ∀ src t, (src,t) ∈ edges → entryGoto ≠ some src →
    ¬ (storePc < t ∧ t < header) ∧ (InRegion header stop t → InRegion header stop src)
  caught : ∀ e ∈ entries, e.startPc < e.endPc → pushPc ≤ e.handlerPc → e.handlerPc < stop →
    storePc < e.startPc ∧ e.endPc ≤ stop

theorem storeReachesEveryEntry_spec {storePc pushPc : Nat}
    (h : storeReachesEveryEntry code codeLen entries header stop iv storePc pushPc false = true) :
    ∃ edges entryGoto segWrites,
      StoreChecked code codeLen entries header stop iv storePc pushPc edges entryGoto segWrites := by
  obtain ⟨u,h⟩ := isSome_iff_exists.mp h
  obtain ⟨edges,hedges,h⟩ := bind_eq_some_iff.mp h
  obtain ⟨hlt,h⟩ := ite_none_left_eq_some.mp h
  obtain ⟨htarget,h⟩ := ite_none_left_eq_some.mp h
  obtain ⟨entryGoto,hgoto,h⟩ := bind_eq_some_iff.mp h
  obtain ⟨segWrites,hwrites,h⟩ := bind_eq_some_iff.mp h
  obtain ⟨hkeeps,h⟩ := ite_none_left_eq_some.mp h
  rw [Bool.false_and,if_neg Bool.false_ne_true] at h
  obtain ⟨hedge,h⟩ := ite_none_left_eq_some.mp h
  obtain ⟨hcaught,h⟩ := ite_none_left_eq_some.mp h
  rw [not_eq_true,List.any_eq_false] at htarget hedge hcaught
  rw [not_eq_true,or_eq_false_iff] at hkeeps
  refine ⟨edges,entryGoto,segWrites,hedges,by omega,fun src hsrc => ?_,hgoto,hwrites,hkeeps.2,
    fun src t ht hne => ?_,fun e he h1 h2 h3 => ?_⟩
  · simpa using htarget _ hsrc
  · have hnot := hedge _ ht
    unfold InRegion
    simp [hne] at hnot
    omega
  have hnot := hcaught e he
  simp at hnot
  omega

theorem constantIvInit_spec {c : Int} (h : constantIvInit code codeLen entries header stop iv = some c) :
    ∃ storePc pushPc edges entryGoto segWrites,
      StoreChecked code codeLen entries header stop iv storePc pushPc edges entryGoto segWrites ∧
      Reaches code 0 storePc ∧ storePc < codeLen ∧ istoreTarget code storePc = some iv ∧
      (opAt code storePc = 0x36 → storePc+1 < codeLen) ∧ pushPc+step code pushPc = storePc ∧
      Reaches code 0 pushPc ∧ constPushValue code pushPc codeLen = some c := by
  unfold constantIvInit at h
  split at h
  · cases h
  split at h
  · rename_i storePc slot pushPc hfind
    split at h
    · rename_i hreaches
      obtain ⟨edges,entryGoto,segWrites,hchecked⟩ := storeReachesEveryEntry_spec hreaches
      have hslot := find?_some hfind
      simp only [and_eq_true,decide_eq_true_eq] at hslot
      obtain ⟨rfl,-⟩ := hslot
      have hmem := mem_reverse.mp (mem_of_find?_eq_some hfind)
      obtain ⟨h1,h2,h3,h4,h5⟩ := storesAlong_spec (fun p hp => by cases hp) .refl hmem
      obtain ⟨h6,h7⟩ := h5 pushPc rfl
      exact ⟨storePc,pushPc,edges,entryGoto,segWrites,hchecked,h1,h2,h3,h4,h6,h7,h⟩
    · cases h
  · cases h

/-- An exception of the loop is caught in front of the header, behind everything there that writes the
local. -/
def Bypasses (code : Code) (handlers : List HandlerRange) (header stop iv p q : Nat) : Prop :=
  Leaves handlers p q ∧ InRegion header stop p ∧ q < header ∧
    ∀ w, Starts code w → w < header → Overwrites code w iv → w < q

/-- A step of the method that does not bypass the store in front of the loop. -/
def KeptStep (code : Code) (handlers : List HandlerRange) (header stop iv : Nat) (f g : Frame) : Prop :=
  Bce.Step code handlers f g ∧ ¬ Bypasses code handlers header stop iv f.pc g.pc

def HoldsConst (iv : Nat) (c : Int) (f : Frame) : Prop := ∃ n : JInt, f.locals iv = .int n ∧ (n : Int) = c

/-- The local is `c` whenever a run of these steps goes into the loop. -/
def EntersWith (step : Frame → Frame → Prop) (header stop iv : Nat) (c : Int) : Prop :=
  ∀ locals heap f g, Relation.ReflTransGen step ⟨0,[],locals,heap⟩ f → step f g →
    ¬ InRegion header stop f.pc → InRegion header stop g.pc → HoldsConst iv c g

theorem not_overwrites_goto (hop : opAt code pc = 0xa7) (slot : Nat) : ¬ Overwrites code pc slot := by
  rintro ⟨insn,w,hdec,hw,-⟩
  obtain ⟨op,-,hat,-,hcases⟩ := decode_cases hdec
  obtain rfl := hop.symm.trans hat
  rcases hcases with ⟨h,-⟩ | ⟨h,-⟩ | ⟨h,-⟩ | ⟨-,hplain⟩
  · omega
  · omega
  · omega
  obtain ⟨len,targets,-,-,rfl⟩ := plain_eq_some hplain
  cases hw

namespace StoreChecked
variable {storePc pushPc : Nat} {edges : List (Nat × Nat)} {entryGoto : Option Nat} {segWrites : Nat}
  (hc : StoreChecked code codeLen (handlerEntries codeLen handlers) header stop iv storePc pushPc edges
    entryGoto segWrites)
  (hv : Verified code codeLen handlers) (hstop : header < stop) (hin : stop ≤ codeLen)
  (hstore : Reaches code 0 storePc)
include hc hv hstop hin hstore

theorem not_overwrites {p : Nat} (hp : Reaches code 0 p) (hlo : storePc < p) (hhi : p < header) :
    ¬ Overwrites code p iv := by
  have hcode := hv.within_code
  have hseg : Reaches code (storePc+step code storePc) p :=
    (hstore.of_le hp (by omega)).eq_or_next.resolve_left (by omega)
  by_cases hend : p < entryGoto.getD header
  · intro hw
    have hle : entryGoto.getD header ≤ code.length := by
      cases hgoto : entryGoto with
      | none => simp; omega
      | some s =>
        have hends := ((segmentGoto_spec (by omega) hc.stretch).2 s hgoto).2.1
        simp
        omega
    have hbit := (modifiedLocalsStrict_covers hle hc.writes hseg hend hw).2
    rw [hc.keeps] at hbit
    cases hbit
  cases hgoto : entryGoto with
  | none =>
    rw [hgoto] at hend
    exact absurd hhi hend
  | some s => ?_
  obtain ⟨hs,hends,hop,-⟩ := (segmentGoto_spec (by omega) hc.stretch).2 s hgoto
  rw [hgoto] at hend
  have hle := Nat.not_lt.mp hend
  rcases Nat.lt_or_eq_of_le hle with hlt | rfl
  · have := hs.next_le hseg hlt
    omega
  · exact not_overwrites_goto hop iv

theorem source (hout : handlerEntersFromOutside (handlerEntries codeLen handlers) header stop = false)
    (hpush : pushPc < storePc) (hf : Starts code f.pc ∧ f.pc < codeLen)
    (hstep : KeptStep code handlers header stop iv f g)
    (hg : storePc < g.pc ∧ g.pc < header ∨ ¬ InRegion header stop f.pc ∧ InRegion header stop g.pc) :
    storePc < f.pc ∧ f.pc < header ∨ f.pc = storePc ∧ Effect code f g.pc g.stack g.locals := by
  have hlt := hc.lt
  have hfr := (inCode_of_starts hv hf.1 hf.2).1
  unfold InRegion at hg
  obtain ⟨hstep,hkept⟩ := hstep
  cases hstep with
  | normal heff => ?_
  | throws hleaves =>
    dsimp only at hg hkept ⊢
    left
    obtain ⟨e,he,h1,h2,rfl⟩ := leaves_entry hleaves hf.2
    rcases hg with ⟨hlo,hhi⟩ | ⟨hfout,hgin⟩
    · obtain ⟨h3,h4⟩ := hc.caught e he (by omega) (by omega) (by omega)
      by_cases hfin : f.pc < header
      · omega
      refine absurd ⟨hleaves,⟨by omega,by omega⟩,hhi,fun w hw hwlt hover => ?_⟩ hkept
      by_contra hnot
      have hwr := (inCode_of_starts hv hw (by omega)).1
      exact hc.not_overwrites hv hstop hin hstore hwr (by omega) hwlt hover
    unfold handlerEntersFromOutside at hout
    rw [List.any_eq_false] at hout
    have hnot := hout e he
    simp at hnot
    omega
  dsimp only at hg ⊢
  obtain ⟨insn,hdec,⟨-,rfl⟩ | ht⟩ := heff.next
  · obtain ⟨hlen,-⟩ := verified_insn hv hf.1 hf.2 hdec
    have hge : storePc ≤ f.pc := by
      by_contra hless
      have := hfr.next_le hstore (by omega)
      omega
    rcases Nat.lt_or_eq_of_le hge with hgt | heq
    · exact .inl (by omega)
    · exact .inr ⟨heq.symm,heff⟩
  left
  have hedge := mem_loopBranchEdges hv hc.edges_eq hf.1 hf.2 hdec ht
  by_cases hgoto : entryGoto = some f.pc
  · obtain ⟨hs,hends,-⟩ := (segmentGoto_spec (by have := hv.within_code; omega) hc.stretch).2 f.pc hgoto
    have := hs.le
    have := step_pos code storePc
    have := step_pos code f.pc
    omega
  obtain ⟨h1,h2⟩ := hc.enters _ _ hedge hgoto
  unfold InRegion at h2
  omega

theorem stretch_holds {c : Int}
    (hout : handlerEntersFromOutside (handlerEntries codeLen handlers) header stop = false)
    (hpush : pushPc < storePc)
    (hstores : ∀ {f g : Frame}, Bce.Reachable code handlers f → f.pc = storePc →
      Effect code f g.pc g.stack g.locals → HoldsConst iv c g)
    {locals : Nat → Value} {heap : Nat → Option HeapObject}
    (hrun : Relation.ReflTransGen (KeptStep code handlers header stop iv) ⟨0,[],locals,heap⟩ f) :
    (storePc < f.pc ∧ f.pc < header → HoldsConst iv c f) ∧
    ∀ g, KeptStep code handlers header stop iv f g →
      storePc < g.pc ∧ g.pc < header ∨ ¬ InRegion header stop f.pc ∧ InRegion header stop g.pc →
      HoldsConst iv c g := by
  have hreach : ∀ {f}, Relation.ReflTransGen (KeptStep code handlers header stop iv) ⟨0,[],locals,heap⟩ f →
      Bce.Reachable code handlers f := fun hrun =>
    ⟨locals,heap,Relation.ReflTransGen.mono (fun _ _ h => h.1) _ _ hrun⟩
  -- one step, from what holds in front of it
  have hnext : ∀ {f g}, Relation.ReflTransGen (KeptStep code handlers header stop iv) ⟨0,[],locals,heap⟩ f →
      (storePc < f.pc ∧ f.pc < header → HoldsConst iv c f) → KeptStep code handlers header stop iv f g →
      storePc < g.pc ∧ g.pc < header ∨ ¬ InRegion header stop f.pc ∧ InRegion header stop g.pc →
      HoldsConst iv c g := by
    intro f g hrun hf hstep hg
    have hfs := Bce.Reachable.starts hv (hreach hrun)
    rcases hc.source hv hstop hin hstore hout hpush hfs hstep hg with hseg | ⟨heq,heff⟩
    · have hnot := hc.not_overwrites hv hstop hin hstore (inCode_of_starts hv hfs.1 hfs.2).1 hseg.1 hseg.2
      obtain ⟨n,hn,rfl⟩ := hf hseg
      refine ⟨n,?_,rfl⟩
      obtain ⟨hstep,-⟩ := hstep
      cases hstep with
      | normal heff => exact (effect_keeps heff hnot).trans hn
      | throws => exact hn
    · exact hstores (hreach hrun) heq heff
  have hall : storePc < f.pc ∧ f.pc < header → HoldsConst iv c f := by
    induction hrun with
    | refl => exact fun h => absurd h.1 (Nat.not_lt_zero _)
    | tail hrun hstep ih => exact fun hseg => hnext hrun ih hstep (.inl hseg)
  exact ⟨hall,fun g hstep => hnext hrun hall hstep⟩

end StoreChecked

section verified
variable (hv : Verified code codeLen handlers)
include hv

theorem store_holds {storePc pushPc : Nat} {c : Int} {edges : List (Nat × Nat)}
    (hedges : loopBranchEdges code codeLen = some edges) (hnot : ∀ src, (src,storePc) ∉ edges)
    (htarget : istoreTarget code storePc = some iv) (hfits : opAt code storePc = 0x36 → storePc+1 < codeLen)
    (hends : pushPc+step code pushPc = storePc) (hpush : Reaches code 0 pushPc)
    (hconst : constPushValue code pushPc codeLen = some c) (hf : Bce.Reachable code handlers f)
    (hpc : f.pc = storePc) (heff : Effect code f g.pc g.stack g.locals) : HoldsConst iv c g := by
  have hcode := hv.within_code
  have hpos := step_pos code pushPc
  have hfs := Bce.Reachable.starts hv hf
  obtain ⟨hps,hplt⟩ := (Bce.starts_of_pcsIn hv).mp (mem_pcsIn.mpr ⟨hpush,by omega⟩)
  obtain ⟨hpushes,hvalue⟩ := constPushValue_spec hcode hconst
  subst hpc
  obtain ⟨insn,hdec,-⟩ := hv.decodes hfs.1 hfs.2
  obtain ⟨hwrites,hop⟩ := writes_istore hdec htarget fun h => by have := hfits h; omega
  obtain ⟨insn',w,n,rest,hdec',hw,hstack,hlocal⟩ := heff.of_istore hop
  cases hdec.symm.trans hdec'
  obtain rfl := some.inj (hwrites.symm.trans hw)
  refine ⟨n,hlocal,?_⟩
  obtain ⟨locals,heap,hrun⟩ := hf
  rcases Relation.ReflTransGen.cases_tail hrun with rfl | ⟨k,hk,hstep⟩
  · cases hstack
  have hks := Bce.Reachable.starts hv ⟨locals,heap,hk⟩
  cases hstep with
  | throws => cases hstack
  | normal heff' => ?_
  obtain ⟨pinsn,hpdec,-⟩ := hv.decodes hps hplt
  obtain ⟨hlen,-⟩ := verified_insn hv hps hplt hpdec
  obtain ⟨kinsn,hkdec,⟨-,hq⟩ | ht⟩ := heff'.next
  · dsimp only at hstack hends
    obtain rfl := Bce.eq_of_ends hv hks.1 hks.2 hps hplt hkdec hpdec (by rw [← hlen,hends]; exact hq.symm)
    obtain ⟨_,v,-,hp,hstack',-⟩ := heff'.of_push hpushes
    obtain ⟨m,rfl,hm⟩ := hp.1 c hvalue
    rw [hstack,cons.injEq] at hstack'
    cases hstack'.1
    exact hm
  · exact absurd (mem_loopBranchEdges hv hedges hks.1 hks.2 hkdec ht) (hnot _)

theorem constantIvInit_enters {c : Int} (hstop : header < stop) (hin : stop ≤ codeLen)
    (hout : handlerEntersFromOutside (handlerEntries codeLen handlers) header stop = false)
    (h : constantIvInit code codeLen (handlerEntries codeLen handlers) header stop iv = some c) :
    EntersWith (KeptStep code handlers header stop iv) header stop iv c := by
  obtain ⟨storePc,pushPc,edges,entryGoto,segWrites,hc,hstore,-,htarget,hfits,hends,hpush,hconst⟩ :=
    constantIvInit_spec h
  have hpos := step_pos code pushPc
  intro locals heap f g hrun hstep hfout hgin
  refine (hc.stretch_holds hv hstop hin hstore hout (by omega) ?_ hrun).2 g hstep (.inr ⟨hfout,hgin⟩)
  intro f g hf hpc heff
  exact store_holds hv hc.edges_eq hc.notTarget htarget hfits hends hpush hconst hf hpc heff

end verified
end CratonVM.Jit.LoopAnalysis
