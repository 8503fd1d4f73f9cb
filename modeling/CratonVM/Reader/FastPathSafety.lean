import CratonVM.Lib.GraphSearch
import CratonVM.Reader.StackMachine

/-!
The answer of `fast_path_reach` holds on every path an execution can take: the linear walk covers
every pc it can reach, and the depths that the stack pass settles on are the depths it has there.
-/
namespace CratonVM.Reader
open Instruction List Option

structure WalkOk (code : List UInt8) (pc : Nat) (w : Walk) : Prop where
  here : pc < code.length-2 → LinearStart code pc
  starts : w.starts = w.insns.map Decoded.pc
  decoded : ∀ x ∈ w.insns, decode code x.pc = .ok (x.insn,x.next)
  linear : ∀ x ∈ w.insns, LinearStart code x.pc
  reach : ∀ x ∈ w.insns, ∃ n, x.insn.slots = some n ∧ n ≤ w.reach
  targets : ∀ x ∈ w.insns, ∀ t ∈ x.insn.targets x.pc, t ∈ w.targets

variable {insn : Instruction}

theorem WalkOk.step {code : List UInt8} {pc next n : Nat} {w : Walk}
    (h : WalkOk code pc w) (hlt : pc < code.length-2) (hd : decode code pc = .ok (insn,next))
    (hn : insn.slots = some n) :
    WalkOk code next
      { starts := w.starts ++ [pc]
        targets := w.targets ++ insn.targets pc
        reach := max w.reach n
        insns := w.insns ++ [⟨pc,insn,next⟩] } := by
  have hpc := h.here hlt
  refine ⟨fun hnext => .next hpc hd hnext,?_,?_,?_,?_,?_⟩
  · simp [h.starts]
  · intro x hx
    rcases mem_append.mp hx with hx | hx
    · exact h.decoded x hx
    rw [mem_singleton.mp hx]
    exact hd
  · intro x hx
    rcases mem_append.mp hx with hx | hx
    · exact h.linear x hx
    rw [mem_singleton.mp hx]
    exact hpc
  · intro x hx
    rcases mem_append.mp hx with hx | hx
    · obtain ⟨k,hk,hle⟩ := h.reach x hx
      exact ⟨k,hk,Nat.le_trans hle (Nat.le_max_left _ _)⟩
    rw [mem_singleton.mp hx]
    exact ⟨n,hn,Nat.le_max_right _ _⟩
  intro x hx t ht
  rcases mem_append.mp hx with hx | hx
  · exact mem_append_left _ (h.targets x hx t ht)
  rw [mem_singleton.mp hx] at ht
  exact mem_append_right _ ht

theorem walkCode_spec {code : List UInt8} {fuel pc : Nat} {w w' : Walk} (hw : WalkOk code pc w)
    (hfuel : code.length-2 ≤ pc+fuel)
    (h : walkCode code (code.length-2) fuel pc w = some w') :
    (∃ pc', code.length-2 ≤ pc' ∧ WalkOk code pc' w') ∧ w.insns <+: w'.insns := by
  induction fuel generalizing pc w with
  | zero =>
    cases h
    exact ⟨⟨pc,hfuel,hw⟩,prefix_refl _⟩
  | succ fuel ih => ?_
  unfold walkCode at h
  split at h
  · rename_i hlt
    split at h
    · cases h
    rename_i insn next hd
    split at h
    · cases h
    split at h
    · cases h
    rename_i n hn
    obtain ⟨h1,h2⟩ := ih (hw.step hlt hd hn) (by omega) h
    exact ⟨h1,(prefix_append _ _).trans h2⟩
  rename_i hlt
  cases h
  exact ⟨⟨pc,Nat.le_of_not_lt hlt,hw⟩,prefix_refl _⟩

theorem walkOk_init (code : List UInt8) : WalkOk code 0 {} :=
  ⟨fun h => .first h,rfl,by simp,by simp,by simp,by simp⟩

theorem walkCode_ne_nil {code : List UInt8} (hbody : 2 < code.length) {w : Walk}
    (h : walkCode code (code.length-2) (code.length-2) 0 {} = some w) : w.insns ≠ [] := by
  obtain ⟨fuel,hfuel⟩ : ∃ fuel, code.length-2 = fuel+1 := ⟨code.length-3,by omega⟩
  rw [hfuel] at h
  unfold walkCode at h
  rw [if_pos (Nat.succ_pos _),← hfuel] at h
  split at h
  · cases h
  rename_i insn next hd
  split at h
  · cases h
  split at h
  · cases h
  rename_i n hn
  obtain ⟨_,hpre⟩ := walkCode_spec ((walkOk_init code).step (by omega) hd hn) (by omega) h
  intro hnil
  rw [hnil] at hpre
  have := hpre.length_le
  simp at this

namespace DepthTable
def Recorded (t : DepthTable) (i d : Nat) : Prop := t.depth.getD i none = some d

def At (insns : List Decoded) (t : DepthTable) (pc d : Nat) : Prop :=
  ∃ i x, insns[i]? = some x ∧ x.pc = pc ∧ t.Recorded i d

structure Extends (d : Nat) (t t' : DepthTable) : Prop where
  recorded : ∀ i e, t.Recorded i e → t'.Recorded i e
  fresh : ∀ i e, t'.Recorded i e → t.Recorded i e ∨ i ∈ t'.work ∧ e = d
  work : ∀ i ∈ t.work, i ∈ t'.work
  length : t'.depth.length = t.depth.length
  measure : t'.depth.count none+t'.work.length = t.depth.count none+t.work.length

theorem Extends.refl (d : Nat) (t : DepthTable) : Extends d t t :=
  ⟨fun _ _ h => h,fun _ _ h => .inl h,fun _ h => h,rfl,rfl⟩

theorem Extends.trans {d : Nat} {t u v : DepthTable} (h : Extends d t u) (h' : Extends d u v) :
    Extends d t v := by
  refine ⟨fun i e hi => h'.recorded i e (h.recorded i e hi),?_,fun i hi => h'.work i (h.work i hi),
    h'.length.trans h.length,h'.measure.trans h.measure⟩
  intro i e hi
  rcases h'.fresh i e hi with hi | hi
  · rcases h.fresh i e hi with hi | ⟨hi,he⟩
    · exact .inl hi
    · exact .inr ⟨h'.work i hi,he⟩
  · exact .inr hi

theorem At.extends {insns : List Decoded} {t t' : DepthTable} {pc d e : Nat} (h : At insns t pc d)
    (he : Extends e t t') : At insns t' pc d := by
  obtain ⟨i,x,hx,hpc,hd⟩ := h
  exact ⟨i,x,hx,hpc,he.recorded i d hd⟩

end DepthTable

open DepthTable

theorem indexOf_spec {insns : List Decoded} {pc i : Nat} (h : indexOf insns pc = some i) :
    ∃ x, insns[i]? = some x ∧ x.pc = pc := by
  obtain ⟨hlt,hpc,_⟩ := findIdx?_eq_some_iff_getElem.mp h
  exact ⟨insns[i],getElem?_eq_getElem hlt,of_decide_eq_true hpc⟩

theorem enter_spec {insns : List Decoded} {t t' : DepthTable} {pc d : Nat}
    (hlen : t.depth.length = insns.length) (h : enter insns t pc d = some t') :
    At insns t' pc d ∧ Extends d t t' := by
  unfold enter at h
  split at h
  · cases h
  rename_i i hi
  obtain ⟨x,hx,hpc⟩ := indexOf_spec hi
  obtain ⟨hlt,_⟩ := List.getElem?_eq_some_iff.mp hx
  split at h
  · rename_i seen hseen
    split at h
    · rename_i heq
      cases h
      subst heq
      exact ⟨⟨i,x,hx,hpc,hseen⟩,.refl _ t⟩
    · cases h
  rename_i hnone
  cases h
  have hget : t.depth[i]? = some none := by
    rw [getD_eq_getElem?_getD] at hnone
    rw [getElem?_eq_getElem (by omega)] at hnone ⊢
    exact congrArg some hnone
  have hself : (t.depth.set i (some d)).getD i none = some d := by
    rw [getD_eq_getElem?_getD,getElem?_set_self (by omega)]
    rfl
  have hother : ∀ j, j ≠ i → (t.depth.set i (some d)).getD j none = t.depth.getD j none := by
    intro j hj
    rw [getD_eq_getElem?_getD,getElem?_set_ne (Ne.symm hj),
      getD_eq_getElem?_getD]
  refine ⟨⟨i,x,hx,hpc,hself⟩,?_,?_,?_,?_,?_⟩
  · intro j e hj
    unfold Recorded at hj ⊢
    by_cases hji : j = i
    · subst hji
      rw [hnone] at hj
      cases hj
    rw [hother j hji]
    exact hj
  · intro j e hj
    by_cases hji : j = i
    · subst hji
      unfold Recorded at hj
      rw [hself] at hj
      cases hj
      exact .inr ⟨by simp,rfl⟩
    unfold Recorded at hj ⊢
    rw [hother j hji] at hj
    exact .inl hj
  · intro j hj
    exact mem_cons_of_mem _ hj
  · exact length_set
  have hmem := mem_of_getElem? hget
  have hcount : (t.depth.set i (some d)).count none+1 = t.depth.count none := by
    have hlt' : i < t.depth.length := by omega
    have hval : t.depth[i] = none := by
      rw [getElem?_eq_getElem hlt'] at hget
      exact some.inj hget
    have hpos := count_pos_iff.mpr hmem
    rw [count_set hlt',hval]
    simp
    omega
  simp only [length_cons]
  omega

theorem enterAll_spec {insns : List Decoded} {d : Nat} {pcs : List Nat} {t t' : DepthTable}
    (hlen : t.depth.length = insns.length) (h : enterAll insns d pcs t = some t') :
    (∀ pc ∈ pcs, At insns t' pc d) ∧ Extends d t t' := by
  induction pcs generalizing t with
  | nil =>
    cases h
    exact ⟨by simp,.refl _ _⟩
  | cons pc pcs ih => ?_
  unfold enterAll at h
  split at h
  · cases h
  rename_i u hu
  obtain ⟨h1,h2⟩ := enter_spec hlen hu
  obtain ⟨h3,h4⟩ := ih (h2.length.trans hlen) h
  refine ⟨?_,h2.trans h4⟩
  intro q hq
  rcases mem_cons.mp hq with rfl | hq
  · exact h1.extends h4
  · exact h3 q hq

section
variable {insns : List Decoded} {limit : Nat} {cp : ConstantPool}

/-- Instruction `i` can be executed at its depth, and leads to where its depth is recorded. -/
def Settled (insns : List Decoded) (limit : Nat) (cp : ConstantPool) (s : DepthTable × Nat)
    (i : Nat) : Prop :=
  ∃ x d pops pushes succ, insns[i]? = some x ∧ s.1.Recorded i d ∧
    stackEffect x.insn cp = some (pops,pushes) ∧ pops ≤ d ∧ successors limit x = some succ ∧
    ∀ pc ∈ succ, At insns s.1 pc (d-pops+pushes)

def Known (s : DepthTable × Nat) (i : Nat) : Prop := ∃ d, s.1.Recorded i d

variable {t' : DepthTable}

theorem Settled.extends {t : DepthTable} {m m' i e : Nat}
    (h : Settled insns limit cp (t,m) i) (he : Extends e t t') :
    Settled insns limit cp (t',m') i := by
  obtain ⟨x,d,pops,pushes,succ,hx,hd,heff,hle,hsucc,hat⟩ := h
  exact ⟨x,d,pops,pushes,succ,hx,he.recorded i d hd,heff,hle,hsucc,
    fun pc hpc => (hat pc hpc).extends he⟩

theorem depthRound_spec {i after : Nat} {t : DepthTable}
    (hlen : t.depth.length = insns.length)
    (h : depthRound insns limit cp i t = some (after,t')) (m : Nat) :
    Settled insns limit cp (t',m) i ∧ Extends after t t' := by
  obtain ⟨x,hx,h⟩ := bind_eq_some_iff.mp h
  obtain ⟨d,hd,h⟩ := bind_eq_some_iff.mp h
  obtain ⟨⟨pops,pushes⟩,heff,h⟩ := bind_eq_some_iff.mp h
  simp only at h
  split at h
  · cases h
  obtain ⟨succ,hsucc,h⟩ := bind_eq_some_iff.mp h
  obtain ⟨u,hu,h⟩ := bind_eq_some_iff.mp h
  cases h
  obtain ⟨h1,h2⟩ := enterAll_spec hlen hu
  exact ⟨⟨x,d,pops,pushes,succ,hx,h2.recorded i d hd,heff,by omega,hsucc,h1⟩,h2⟩

/-- What is known between two rounds. -/
structure LoopOk (insns : List Decoded) (limit : Nat) (cp : ConstantPool) (t : DepthTable)
    (maxDepth : Nat) : Prop where
  length : t.depth.length = insns.length
  bounded : ∀ i d, t.Recorded i d → d ≤ maxDepth
  covered : Worklist.Covered Known (Settled insns limit cp) (t,maxDepth) (· ∈ t.work)

variable {maxDepth : Nat}

theorem LoopOk.round {t : DepthTable} {i after : Nat} {work : List Nat}
    (h : LoopOk insns limit cp t maxDepth) (hw : t.work = i :: work)
    (hr : depthRound insns limit cp i { t with work } = some (after,t')) :
    LoopOk insns limit cp t' (max maxDepth after) := by
  obtain ⟨hs,he⟩ := depthRound_spec (t := { t with work }) h.length hr (max maxDepth after)
  refine ⟨he.length.trans h.length,?_,?_⟩
  · intro j d hj
    rcases he.fresh j d hj with hj | ⟨_,rfl⟩
    · exact Nat.le_trans (h.bounded j d hj) (Nat.le_max_left _ _)
    · exact Nat.le_max_right _ _
  refine h.covered.round (i := i) (.inl hs) ?_ ?_ ?_
  · intro j hj hne
    rw [hw] at hj
    exact he.work j ((mem_cons.mp hj).resolve_left hne)
  · rintro j ⟨d,hj⟩
    rcases he.fresh j d hj with hj | ⟨hj,_⟩
    · exact .inl ⟨d,hj⟩
    · exact .inr hj
  intro j hj
  have hj' : Settled insns limit cp ({ t with work },maxDepth) j := hj
  exact .inl (hj'.extends he)

theorem depthLoop_spec {fuel n : Nat} {t : DepthTable}
    (h : LoopOk insns limit cp t maxDepth)
    (hr : depthLoop insns limit cp fuel t maxDepth = some n) :
    ∃ t', LoopOk insns limit cp t' n ∧ t'.work = [] ∧ ∀ pc d, At insns t pc d → At insns t' pc d := by
  induction fuel generalizing t maxDepth with
  | zero => cases hr
  | succ fuel ih => ?_
  unfold depthLoop at hr
  split at hr
  · rename_i hw
    cases hr
    exact ⟨t,h,hw,fun _ _ hat => hat⟩
  rename_i i work hw
  split at hr
  · cases hr
  rename_i after u hround
  obtain ⟨t',h1,h2,h3⟩ := ih (h.round hw hround) hr
  obtain ⟨_,he⟩ := depthRound_spec (t := { t with work }) h.length hround 0
  refine ⟨t',h1,h2,fun pc d hat => h3 pc d ?_⟩
  have hat' : At insns { t with work } pc d := hat
  exact hat'.extends he

theorem stackDepthReach_spec {handlerPcs : List Nat} {n : Nat} (hne : insns ≠ [])
    (h : stackDepthReach insns limit handlerPcs cp = some n) :
    ∃ t, LoopOk insns limit cp t n ∧ t.work = [] ∧ At insns t 0 0 ∧
      ∀ pc ∈ handlerPcs, At insns t pc 1 := by
  unfold stackDepthReach at h
  rw [if_neg (by simpa using hne)] at h
  obtain ⟨t0,h0,h⟩ := bind_eq_some_iff.mp h
  obtain ⟨t1,h1,h⟩ := bind_eq_some_iff.mp h
  have hempty : ∀ i d, ¬ (⟨insns.map fun _ => none,[]⟩ : DepthTable).Recorded i d := by
    intro i d hd
    unfold Recorded at hd
    rw [getD_eq_getElem?_getD,getElem?_map] at hd
    cases hx : insns[i]? with
    | none => rw [hx] at hd; cases hd
    | some x => rw [hx] at hd; cases hd
  obtain ⟨hat0,he0⟩ := enter_spec (by simp) h0
  have hlen0 : t0.depth.length = insns.length := by rw [he0.length]; simp
  obtain ⟨hat1,he1⟩ := enterAll_spec hlen0 h1
  have hok : LoopOk insns limit cp t1 (if handlerPcs.isEmpty then 0 else 1) := by
    refine ⟨he1.length.trans hlen0,?_,?_⟩
    · intro i d hd
      rcases he1.fresh i d hd with hd | ⟨_,rfl⟩
      · rcases he0.fresh i d hd with hd | ⟨_,rfl⟩
        · exact absurd hd (hempty i d)
        · exact Nat.zero_le _
      cases handlerPcs with
      | nil =>
        cases h1
        rcases he0.fresh i 1 hd with hd | ⟨_,h01⟩
        · exact absurd hd (hempty i 1)
        · omega
      | cons pc pcs => simp
    rintro i ⟨d,hd⟩
    refine .inl ?_
    rcases he1.fresh i d hd with hd | ⟨hi,_⟩
    · rcases he0.fresh i d hd with hd | ⟨hi,_⟩
      · exact absurd hd (hempty i d)
      · exact he1.work i hi
    · exact hi
  obtain ⟨t,h2,h3,h4⟩ := depthLoop_spec hok h
  exact ⟨t,h2,h3,h4 0 0 (hat0.extends he1),fun pc hpc => h4 pc 1 (hat1 pc hpc)⟩

end

theorem edges_of_effect {cp : ConstantPool} {counts : Nat × Nat}
    (h : stackEffect insn cp = some counts) : edges insn = (jumpOffsets insn,continues insn) := by
  cases insn with
  | jsr off => cases h
  | jsrW off => cases h
  | ret index => cases h
  | _ => rfl

theorem jumpTargets_spec {here : Int} {offsets : List Int} {jumps : List Nat}
    (h : jumpTargets here offsets = some jumps) :
    ∀ off ∈ offsets, 0 ≤ here+off ∧ (here+off).toNat ∈ jumps := by
  induction offsets generalizing jumps with
  | nil => simp
  | cons o offsets ih => ?_
  unfold jumpTargets at h
  split at h
  · cases h
  obtain ⟨more,hmore,rfl⟩ := map_eq_some_iff.mp h
  intro off hoff
  rcases mem_cons.mp hoff with rfl | hoff
  · exact ⟨by omega,mem_cons_self⟩
  obtain ⟨h1,h2⟩ := ih hmore off hoff
  exact ⟨h1,mem_cons_of_mem _ h2⟩

theorem localSlots_lt {n : Nat} (h : insn.slots = some n) :
    ∀ i ∈ localSlots insn, i < n := by
  intro i hi
  cases insn with
  | ret index => cases h
  | _ =>
    cases h
    simp [localSlots] at hi
    try omega

theorem successors_spec {limit : Nat} {x : Decoded} {cp : ConstantPool} {counts : Nat × Nat}
    {succ : List Nat} (heff : stackEffect x.insn cp = some counts)
    (h : successors limit x = some succ) :
    (continues x.insn = true → x.next ∈ succ) ∧
      ∀ off ∈ jumpOffsets x.insn, 0 ≤ (x.pc : Int)+off ∧ ((x.pc : Int)+off).toNat ∈ succ := by
  unfold successors at h
  rw [edges_of_effect heff] at h
  simp only at h
  split at h
  · cases h
  rename_i jumps hjumps
  have hj := jumpTargets_spec hjumps
  split at h
  · split at h
    · cases h
    cases h
    refine ⟨fun _ => by simp,?_⟩
    intro off hoff
    exact ⟨(hj off hoff).1,mem_append_left _ (hj off hoff).2⟩
  rename_i hc
  cases h
  exact ⟨fun hc' => absurd hc' hc,hj⟩

section
variable {code : List UInt8} {cp : ConstantPool} {handlerPcs : List Nat} {w : Walk}
  {t : DepthTable} {n pc : Nat}

def Placed (w : Walk) (t : DepthTable) (m : Machine) : Prop :=
  ∃ i x, w.insns[i]? = some x ∧ m.pc = x.pc ∧ t.Recorded i m.depth

variable {m : Machine}

theorem placed_of_at {q : Nat} (hpc : m.pc = q) (h : At w.insns t q m.depth) :
    Placed w t m := by
  obtain ⟨i,x,hx,hq,hd⟩ := h
  exact ⟨i,x,hx,by rw [hpc,hq],hd⟩

theorem Placed.settled (h : Placed w t m) (hw : WalkOk code pc w)
    (hok : LoopOk w.insns (code.length-2) cp t n) (hdone : t.work = []) :
    ∃ x pops pushes succ, x ∈ w.insns ∧ m.pc = x.pc ∧ decode code x.pc = .ok (x.insn,x.next) ∧
      stackEffect x.insn cp = some (pops,pushes) ∧ pops ≤ m.depth ∧
      successors (code.length-2) x = some succ ∧
      ∀ q ∈ succ, At w.insns t q (m.depth-pops+pushes) := by
  obtain ⟨i,x,hx,hpc,hd⟩ := h
  have hmem := mem_of_getElem? hx
  have hset := hok.covered.done (by simp [hdone]) ⟨m.depth,hd⟩
  obtain ⟨y,d,pops,pushes,succ,hy,hd',heff,hle,hsucc,hat⟩ := hset
  obtain rfl : x = y := some.inj (hx.symm.trans hy)
  obtain rfl : m.depth = d := some.inj (hd.symm.trans hd')
  exact ⟨x,pops,pushes,succ,hmem,hpc,hw.decoded x hmem,heff,hle,hsucc,hat⟩

theorem placed_step {m' : Machine} (h : Placed w t m) (hw : WalkOk code pc w)
    (hok : LoopOk w.insns (code.length-2) cp t n) (hdone : t.work = [])
    (hhandlers : ∀ q ∈ handlerPcs, At w.insns t q 1)
    (hst : Machine.Step code cp handlerPcs m m') : Placed w t m' := by
  obtain ⟨x,pops,pushes,succ,_,hpc,hdec,heff,_,hsucc,hat⟩ := h.settled hw hok hdone
  obtain ⟨hnext,hjump⟩ := successors_spec heff hsucc
  -- The walk and the execution decode the same instruction.
  have hsame : ∀ {insn next}, Fetches code m.pc insn next → insn = x.insn ∧ next = x.next := by
    intro insn next hf
    have h1 := hf.2
    rw [hpc,Int.toNat_natCast,hdec] at h1
    cases h1
    exact ⟨rfl,rfl⟩
  cases hst with
  | fallThrough hf hform hc =>
    obtain ⟨rfl,rfl⟩ := hsame hf
    obtain ⟨h1,h2⟩ := stackEffect_of_form heff hform
    rw [h1,h2]
    exact placed_of_at rfl (hat _ (hnext hc))
  | jump hf hform hj => ?_
  | ret hf q =>
    obtain ⟨hret,_⟩ := hsame hf
    rw [← hret] at heff
    cases heff
  | raise hh => exact placed_of_at rfl (hhandlers _ hh)
  obtain ⟨rfl,rfl⟩ := hsame hf
  obtain ⟨h1,h2⟩ := stackEffect_of_form heff hform
  obtain ⟨h3,h4⟩ := hjump _ hj
  rw [h1,h2]
  refine placed_of_at ?_ (hat _ h4)
  simp only [hpc]
  omega

end

/-- An answer of `fast_path_reach` with a stack bound holds on every path of an execution: it is
at an instruction start of the linear decode, touches local slots below the reach, finds the
words it pops, and holds at most the bound. -/
theorem fastPathReach_sound {code : List UInt8} (hbody : 2 < code.length) {handlerPcs : List Nat}
    {cp : ConstantPool} {locals n : Nat}
    (h : fastPathReach code handlerPcs (some cp) = some ⟨locals,some n⟩) {m : Machine}
    (hm : Machine.Reachable code cp handlerPcs m) :
    ∃ pc insn next, m.pc = (pc : Nat) ∧ LinearStart code pc ∧
      decode code pc = .ok (insn,next) ∧ (∀ i ∈ localSlots insn, i < locals) ∧
      (∀ f ∈ forms cp insn, words f.takes ≤ m.depth) ∧ m.depth ≤ n := by
  unfold fastPathReach at h
  simp only at h
  split at h
  · cases h
  rename_i w hwalk
  split at h
  · simp only [bind_some,some.injEq,FastPathReach.mk.injEq] at h
    obtain ⟨rfl,hstack⟩ := h
    obtain ⟨⟨pc,_,hw⟩,_⟩ := walkCode_spec (walkOk_init code) (by omega) hwalk
    obtain ⟨t,hok,hdone,hentry,hhandlers⟩ :=
      stackDepthReach_spec (walkCode_ne_nil hbody hwalk) hstack
    have hplaced : Placed w t m := by
      induction hm with
      | refl => exact placed_of_at rfl hentry
      | tail _ hst ih => exact placed_step ih hw hok hdone hhandlers hst
    obtain ⟨x,pops,pushes,succ,hmem,hpc,hdec,heff,hle,_,_⟩ := hplaced.settled hw hok hdone
    obtain ⟨k,hk,hreach⟩ := hw.reach x hmem
    refine ⟨x.pc,x.insn,x.next,hpc,hw.linear x hmem,hdec,?_,?_,?_⟩
    · intro i hi
      exact Nat.lt_of_lt_of_le (localSlots_lt hk i hi) hreach
    · intro f hf
      rw [(stackEffect_of_form heff hf).1]
      exact hle
    obtain ⟨i,_,_,_,hd⟩ := hplaced
    exact hok.bounded i _ hd
  · cases h

/-- `lconst_1; lstore_1; iload_0; ifeq` with two arms that return, and a handler. -/
def branchBody : List UInt8 := [0x0a,0x40,0x1a,0x99,0,5,0x04,0xac,0x03,0xac,0x57,0xb1,0,0]

/-- The second arm is entered with an empty stack, within bounds of three slots and two words. -/
theorem fastPathReach_sound_at_branch :
    fastPathReach branchBody [10] (some ⟨[]⟩) = some ⟨3,some 2⟩ ∧
      ∃ pc insn next, (8 : Int) = (pc : Nat) ∧ LinearStart branchBody pc ∧
        decode branchBody pc = .ok (insn,next) ∧ (∀ i ∈ localSlots insn, i < 3) ∧
        (∀ f ∈ forms ⟨[]⟩ insn, words f.takes ≤ 0) ∧ 0 ≤ 2 := by
  have hans : fastPathReach branchBody [10] (some ⟨[]⟩) = some ⟨3,some 2⟩ := by decide
  have h0 : Fetches branchBody 0 .lconst1 1 := ⟨by decide,by decide⟩
  have h1 : Fetches branchBody 1 (.lstore 1) 2 := ⟨by decide,by decide⟩
  have h2 : Fetches branchBody 2 (.iload 0) 3 := ⟨by decide,by decide⟩
  have h3 : Fetches branchBody 3 (.ifeq 5) 6 := ⟨by decide,by decide +kernel⟩
  have s0 : Machine.Step branchBody ⟨[]⟩ [10] ⟨0,0⟩ ⟨1,2⟩ :=
    .fallThrough (f := ⟨[],[.long]⟩) h0 (by decide) rfl
  have s1 : Machine.Step branchBody ⟨[]⟩ [10] ⟨1,2⟩ ⟨2,0⟩ :=
    .fallThrough (f := ⟨[.long],[]⟩) h1 (by decide) rfl
  have s2 : Machine.Step branchBody ⟨[]⟩ [10] ⟨2,0⟩ ⟨3,1⟩ :=
    .fallThrough (f := ⟨[],[.int]⟩) h2 (by decide) rfl
  have s3 : Machine.Step branchBody ⟨[]⟩ [10] ⟨3,1⟩ ⟨8,0⟩ :=
    .jump (f := ⟨[.int],[]⟩) h3 (by decide) (by decide : (5 : Int) ∈ jumpOffsets (.ifeq 5))
  exact ⟨hans,fastPathReach_sound (m := ⟨8,0⟩) (by decide) hans
    ((((Relation.ReflTransGen.single s0).tail s1).tail s2).tail s3)⟩

end CratonVM.Reader
