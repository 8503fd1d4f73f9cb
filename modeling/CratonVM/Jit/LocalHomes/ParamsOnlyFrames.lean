import CratonVM.Jit.LocalHomes.HandlerFrames

/-!
A frame that has the incoming arguments and nothing else is enough for the handlers of a method that passes the gate:
the continuation reads the same locals with the same values as the one with the true frame.
-/
namespace CratonVM.Jit.LocalHomes
open Bytecode List Option Bool Prod BitVec
section
variable {code : Code} {codeLen pc : Nat} {insn : Jvms.Insn} {sub : Subroutine}

theorem Begins.reaches (h : Begins code pc) (hshort : pc < 65536) : Reaches code 0 pc := by
  induction h with
  | zero => exact .refl
  | @next p insn sub _ hdec ih =>
    rw [← step_decodeAny hdec hshort]
    exact (ih (by omega)).next

variable {mask : Mask}

theorem getLsbD_writtenStep {i : Nat} (h : mask.getLsbD i = true) (pc : Nat) :
    (writtenStep code mask pc).getLsbD i = true := by
  unfold writtenStep
  split
  · split
    · rw [getLsbD_or,h,Bool.true_or]
    · exact h
  · exact h

theorem getLsbD_written_mono {pcs : List Nat} {i : Nat} (h : mask.getLsbD i = true) :
    (pcs.foldl (writtenStep code) mask).getLsbD i = true := by
  induction pcs generalizing mask with
  | nil => exact h
  | cons pc pcs ih => exact ih (getLsbD_writtenStep h pc)

theorem getLsbD_written {pcs : List Nat} {access : LocalAccess} (hmem : pc ∈ pcs)
    (haccess : localAccess code pc = some access) (hdef : access.isDef = true) (hlt : access.idx < 64) :
    (pcs.foldl (writtenStep code) mask).getLsbD access.idx = true := by
  induction pcs generalizing mask with
  | nil => cases hmem
  | cons p pcs ih => ?_
  rcases mem_cons.mp hmem with rfl|hmem
  · have hhit : (writtenStep code mask pc).getLsbD access.idx = true := by
      unfold writtenStep
      rw [haccess]
      dsimp only
      rw [if_pos ⟨hdef,hlt⟩,getLsbD_or,getLsbD_bit]
      simp [hlt]
    rw [foldl_cons]
    exact getLsbD_written_mono hhit
  · exact ih hmem

theorem writes_recorded (hbegins : Begins code pc) (hlt : pc < codeLen) (hcode : codeLen ≤ code.length)
    (hshort : codeLen < 65536) (hdec : decodeAny code pc = some (insn,sub)) {i : Nat} (hw : insn.writes = some i)
    (hi : i < 64) : (localsWrittenAnywhere code codeLen).getLsbD i = true := by
  rcases decodeAny_cases hdec with ⟨-,_,-,rfl,-⟩|⟨-,_,-,rfl,-⟩|⟨-,_,-,rfl,-⟩|⟨-,-,_,-,rfl,-⟩|⟨hplain,-⟩
  · cases hw
  · cases hw
  · cases hw
  · cases hw
  rw [← (localAccess_eq hplain).2] at hw
  obtain ⟨access,haccess,hwritten⟩ := bind_eq_some_iff.mp hw
  obtain ⟨hdef,rfl⟩ : access.isDef = true ∧ access.idx = i := by
    unfold LocalAccess.written at hwritten
    split at hwritten
    · exact ⟨‹_›,some.inj hwritten⟩
    · cases hwritten
  refine getLsbD_written (mem_pcsIn.mpr ⟨hbegins.reaches (by omega),?_⟩) haccess hdef hi
  omega

end

section
variable {ρ V : Type} {w : World ρ V} {code : Code} {codeLen : Nat} {handlers : List HandlerRange} {entry f : Frame ρ V}

/-- The parameters that no instruction stores to. -/
def unwritten (code : Code) (codeLen params : Nat) : Mask := validMask params &&& ~~~localsWrittenAnywhere code codeLen

theorem unwritten_spec {params i : Nat} (h : (unwritten code codeLen params).getLsbD i = true) :
    i < params ∧ i < 64 ∧ (localsWrittenAnywhere code codeLen).getLsbD i = false := by
  have hlt := lt_of_getLsbD h
  unfold unwritten at h
  rw [getLsbD_and,getLsbD_not,and_eq_true,and_eq_true,not_eq_true'] at h
  refine ⟨?_,hlt,h.2.2⟩
  have hvalid := h.1
  unfold validMask at hvalid
  split at hvalid
  · omega
  rw [getLsbD_ofNat,Nat.testBit_two_pow_sub_one,and_eq_true,decide_eq_true_eq,decide_eq_true_eq] at hvalid
  exact hvalid.2

/-- What holds of the frame all along a call. -/
structure Ran (w : World ρ V) (code : Code) (codeLen : Nat) (kept : Mask) (entry f : Frame ρ V) : Prop where
  begins : Begins code f.pc
  inside : f.pc < codeLen
  keeps : ∀ {i y}, kept.getLsbD i = true → f.locals i = some y → entry.locals i = some y
  addresses : ∀ {i y a}, f.locals i = some y → w.returnsTo y = some a → a < codeLen → Begins code a
  held : ∀ {a}, w.holds f.rest a → a < codeLen → Begins code a

/-- The current instruction stores to the slot. -/
def Frame.Stores (code : Code) (f : Frame ρ V) (j : Nat) : Prop := ∃ d, decodeAny code f.pc = some d ∧ d.1.writes = some j

theorem stores_iff {j : Nat} : f.Stores code j ↔ ((decodeAny code f.pc).bind fun d => d.1.writes) = some j :=
  bind_eq_some_iff.symm

theorem write_cases {value y : V} {j : Nat} (h : w.write code f value j = some y) :
    f.Stores code j ∧ y = value ∨ ¬f.Stores code j ∧ f.locals j = some y := by
  rw [stores_iff]
  unfold World.write at h
  cases hi : (decodeAny code f.pc).bind fun d => d.1.writes with
  | none =>
    rw [hi] at h
    exact .inr ⟨nofun,h⟩
  | some i => ?_
  rw [hi] at h
  dsimp only at h
  split at h
  · subst j
    exact .inl ⟨rfl,(some.inj h).symm⟩
  rename_i hne
  split at h
  · cases h
  split at h
  · cases h
  · exact .inr ⟨fun heq => hne (some.inj heq).symm,h⟩

theorem write_congr {g : Frame ρ V} {value y : V} {j : Nat} (hpc : g.pc = f.pc)
    (hj : f.locals j = some y → f.Stores code j ∨ g.locals j = some y) (h : w.write code f value j = some y) :
    w.write code g value j = some y := by
  rw [stores_iff] at hj
  unfold World.write at h ⊢
  rw [hpc]
  cases hi : (decodeAny code f.pc).bind fun d => d.1.writes with
  | none =>
    rw [hi] at h hj
    exact (hj h).resolve_left nofun
  | some i => ?_
  rw [hi] at h hj
  dsimp only at h ⊢
  split at h
  · rw [if_pos ‹_›]
    exact h
  rename_i hne
  split at h
  · cases h
  split at h
  · cases h
  rename_i hpair hcut
  have hg : g.locals j = some y := (hj h).resolve_left fun heq => hne (some.inj heq).symm
  rw [h] at hcut
  rw [if_neg hne,if_neg hpair,hg,if_neg hcut]

theorem read_eq_some {i : Nat} {v : Option V} (h : f.read code = some (i,v)) :
    ∃ d, decodeAny code f.pc = some d ∧ d.1.reads = some i ∧ v = f.locals i := by
  obtain ⟨d,hd,hi⟩ := bind_eq_some_iff.mp h
  obtain ⟨j,hj,heq⟩ := map_eq_some_iff.mp hi
  obtain ⟨rfl,rfl⟩ := mk.inj heq
  exact ⟨d,hd,hj,rfl⟩

theorem operand_eq_some {y : V} (h : (f.read code).bind snd = some y) :
    ∃ i, f.read code = some (i,some y) ∧ f.locals i = some y := by
  obtain ⟨⟨i,v⟩,hread,rfl⟩ := bind_eq_some_iff.mp h
  obtain ⟨-,-,-,hv⟩ := read_eq_some hread
  exact ⟨i,hread,hv.symm⟩

section
variable (hv : VerifiedAny code codeLen handlers) (hw : w.Legal code codeLen handlers)
include hv hw

theorem goes_begins {q : Nat} {rest' : ρ} {x : V} {kept : Mask} (hf : Ran w code codeLen kept entry f)
    (h : w.outcome code f = .goes q rest' x) : Begins code q ∧ q < codeLen := by
  obtain ⟨insn,sub,hdec,-,hfalls,htargets⟩ := hv.decodes hf.begins hf.inside
  rcases hw.goes _ _ _ _ _ _ _ _ hdec h with ⟨hfall,rfl⟩|hq|⟨-,hlt,y,hy,hret⟩
  · exact ⟨.next hf.begins hdec,hfalls hfall⟩
  · obtain ⟨q',hq',hb,hlt⟩ := htargets _ hq
    obtain rfl := Int.ofNat_inj.mp hq'
    exact ⟨hb,hlt⟩
  obtain ⟨i,-,hi⟩ := operand_eq_some hy
  exact ⟨hf.addresses hi hret hlt,hlt⟩

theorem address_begins {q a : Nat} {rest' : ρ} {x : V} {kept : Mask} (hf : Ran w code codeLen kept entry f)
    (h : w.outcome code f = .goes q rest' x) (ha : w.holds rest' a ∨ w.returnsTo x = some a) (hlt : a < codeLen) :
    Begins code a := by
  obtain ⟨insn,sub,hdec,-⟩ := hv.decodes hf.begins hf.inside
  rcases hw.addresses _ _ _ _ _ _ _ _ hdec h a ha with hheld|⟨y,hy,hret⟩|⟨-,rfl⟩
  · exact hf.held hheld hlt
  · obtain ⟨i,-,hi⟩ := operand_eq_some hy
    exact hf.addresses hi hret hlt
  · exact .next hf.begins hdec

theorem Ran.next {params : Nat} {f' : Frame ρ V} (hf : Ran w code codeLen (unwritten code codeLen params) entry f)
    (h : w.next code f = some f') : Ran w code codeLen (unwritten code codeLen params) entry f' := by
  unfold World.next at h
  cases hout : w.outcome code f with
  | stops =>
    rw [hout] at h
    cases h
  | throws q rest =>
    rw [hout] at h
    obtain rfl := some.inj h
    obtain ⟨⟨handler,hmem,-,-,rfl⟩,hempty⟩ := hw.throws _ _ _ _ _ hout
    obtain ⟨hbegins,hinside⟩ := hv.handler handler hmem
    exact ⟨hbegins,hinside,hf.keeps,hf.addresses,fun ha => absurd ha (hempty _)⟩
  | goes q rest x => ?_
  rw [hout] at h
  obtain rfl := some.inj h
  obtain ⟨hbegins,hinside⟩ := goes_begins hv hw hf hout
  refine ⟨hbegins,hinside,fun {i y} hi hy => ?_,fun {i y a} hy hret hlt => ?_,fun ha hlt => ?_⟩
  · rcases write_cases hy with ⟨⟨⟨insn,sub⟩,hdec,hwrites⟩,-⟩|⟨-,hold⟩
    · obtain ⟨-,hi64,hnot⟩ := unwritten_spec hi
      rw [writes_recorded hf.begins hf.inside hv.within_code hv.short hdec hwrites hi64] at hnot
      cases hnot
    · exact hf.keeps hi hold
  · rcases write_cases hy with ⟨-,rfl⟩|⟨-,hold⟩
    · exact address_begins hv hw hf hout (.inr hret) hlt
    · exact hf.addresses hold hret hlt
  · exact address_begins hv hw hf hout (.inl ha) hlt

theorem Ran.run (params : Nat) (hentry : w.Call code entry) (n : Nat) (h : w.run code n entry = some f) :
    Ran w code codeLen (unwritten code codeLen params) entry f := by
  induction n generalizing f with
  | zero => ?_
  | succ n ih =>
    obtain ⟨f₀,hrun,hnext⟩ := bind_eq_some_iff.mp h
    exact (ih hrun).next hv hw hnext
  obtain rfl := some.inj h
  refine ⟨?_,?_,fun _ hy => hy,fun hy hret => ?_,fun ha => absurd ha (hentry.empty _)⟩
  · rw [hentry.start]
    exact .zero
  · rw [hentry.start]
    exact hv.nonempty
  rw [hentry.plain _ _ hy] at hret
  cases hret

end
end

section
variable {ρ V : Type} {w : World ρ V} {code : Code} {codeLen params : Nat} {handlers : List HandlerRange}
  {entry f g : Frame ρ V} {table : Nat → Option Mask} {agreed : Set Nat}

/-- The scan knows the point, with no more slots than the frames agree on. -/
def Known (table : Nat → Option Mask) (agreed : Set Nat) (pc : Nat) : Prop :=
  ∃ m, table pc = some m ∧ ∀ i, m.getLsbD i = true → i ∈ agreed

theorem Known.mono {agreed' : Set Nat} {pc : Nat} (h : Known table agreed pc) (hsub : agreed ⊆ agreed') :
    Known table agreed' pc := by
  obtain ⟨m,hm,hin⟩ := h
  exact ⟨m,hm,fun i hi => hsub (hin i hi)⟩

/-- Two frames behind a throw: they agree on the slots in `agreed` that have a value in the true one, `f`. These only
grow until the next throw, so that the place behind a `jsr` stays known until its `ret`. -/
structure Alike (w : World ρ V) (code : Code) (codeLen params : Nat) (table : Nat → Option Mask) (agreed : Set Nat)
    (f g : Frame ρ V) : Prop where
  pc : g.pc = f.pc
  rest : g.rest = f.rest
  closed : Closed code codeLen table
  known : Known table agreed f.pc
  kept : ∀ i, (unwritten code codeLen params).getLsbD i = true → i ∈ agreed
  agree : ∀ {i y}, i ∈ agreed → f.locals i = some y → g.locals i = some y
  addresses : ∀ {i y a}, i ∈ agreed → f.locals i = some y → w.returnsTo y = some a → a < codeLen → Known table agreed a
  held : ∀ {a}, w.holds f.rest a → a < codeLen → Known table agreed a

theorem alike_handler {descriptor : List Char} {isStatic : Bool} (hv : VerifiedAny code codeLen handlers)
    (hgate : localHandlerReadsUnsafeLocal code codeLen handlers descriptor isStatic = false) (hentry : w.Call code entry)
    {pc q : Nat} {rest : ρ} {kept : Mask} (hkept : kept = unwritten code codeLen (paramSlotCount descriptor isStatic))
    (hf : Ran w code codeLen kept entry f) (hleaves : Leaves handlers pc q) (hempty : ∀ a, ¬w.holds rest a)
    (locals : Nat → Option V) (hagree : ∀ i y, kept.getLsbD i = true → f.locals i = some y → locals i = some y) :
    ∃ table agreed, Alike w code codeLen (paramSlotCount descriptor isStatic) table agreed ⟨q,f.locals,rest⟩ ⟨q,locals,rest⟩ := by
  obtain ⟨handler,hmem,-,-,rfl⟩ := hleaves
  have hpass := any_eq_false.mp hgate handler hmem
  obtain ⟨table,hclosed,m,hm,hin⟩ := handler_closed (hv.handler handler hmem).2 (eq_false_iff.mpr hpass)
  refine ⟨table,{i | kept.getLsbD i = true},rfl,rfl,hclosed,⟨m,hm,fun i hi => ?_⟩,fun i hi => ?_,fun hi hy => hagree _ _ hi hy,
    fun hi hy hret => ?_,fun ha => absurd ha (hempty _)⟩
  · rw [hkept]
    exact hin i hi
  · rw [hkept]
    exact hi
  rw [hentry.plain _ _ (hf.keeps hi hy)] at hret
  cases hret

section
variable (hv : VerifiedAny code codeLen handlers) (hf : Ran w code codeLen (unwritten code codeLen params) entry f)
  (h : Alike w code codeLen params table agreed f g)
include hv hf h

theorem Alike.read (hassigned : ∀ i v, f.read code = some (i,v) → v ≠ none) :
    g.read code = f.read code ∧ ∀ i v, f.read code = some (i,v) → i ∈ agreed := by
  obtain ⟨insn,sub,hdec,hfit,-⟩ := hv.decodes hf.begins hf.inside
  obtain ⟨m,hm,hsub⟩ := h.known
  have hscan := (h.closed _ _ hf.inside hm).1
  rw [scanLocal_eq hdec (Nat.le_trans hfit hv.within_code)] at hscan
  have hin : ∀ i v, f.read code = some (i,v) → i ∈ agreed := by
    intro i v hread
    obtain ⟨d,hd,hreads,-⟩ := read_eq_some hread
    rw [hdec] at hd
    obtain rfl := some.inj hd
    dsimp only at hreads
    have hsafe : i < 64 ∧ m.getLsbD i = true := by simpa [scanned,hreads,unsafeSlot] using hscan
    exact hsub i hsafe.2
  refine ⟨?_,hin⟩
  cases hread : f.read code with
  | none =>
    unfold Frame.read at hread ⊢
    rw [hdec,bind_some,map_eq_none_iff] at hread
    rw [h.pc,hdec,bind_some,hread,map_none]
  | some r => ?_
  obtain ⟨i,v⟩ := r
  obtain ⟨d,hd,hreads,rfl⟩ := read_eq_some hread
  obtain ⟨y,hy⟩ := ne_none_iff_exists'.mp (hassigned i _ hread)
  unfold Frame.read
  rw [h.pc,hd,bind_some,hreads,map_some,h.agree (hin i _ hread) hy,hy]

theorem Alike.goes (hw : w.Legal code codeLen handlers) (hassigned : ∀ i v, f.read code = some (i,v) → v ≠ none)
    {q : Nat} {rest : ρ} {x : V} (hout : w.outcome code f = .goes q rest x) :
    ∃ agreed', Alike w code codeLen params table agreed' ⟨q,w.write code f x,rest⟩ ⟨q,w.write code g x,rest⟩ := by
  obtain ⟨insn,sub,hdec,hfit,-⟩ := hv.decodes hf.begins hf.inside
  obtain ⟨-,hread⟩ := h.read hv hf hassigned
  obtain ⟨m,hm,hsub⟩ := h.known
  have hsettled := (h.closed _ _ hf.inside hm).2
  rw [scanLocal_eq hdec (Nat.le_trans hfit hv.within_code)] at hsettled
  let agreed' := agreed ∪ {i | insn.writes = some i}
  have hgrows : agreed ⊆ agreed' := fun _ hi => .inl hi
  have hafter : ∀ i, (scanned m insn.reads insn.writes).2.getLsbD i = true → i ∈ agreed' := by
    intro i hi
    unfold scanned at hi
    cases hwrites : insn.writes with
    | none =>
      rw [hwrites] at hi
      exact hgrows (hsub i hi)
    | some j => ?_
    rw [hwrites,map_some,getD_some] at hi
    unfold withSlot at hi
    split at hi
    · rw [getLsbD_or,or_eq_true,getLsbD_bit,and_eq_true,decide_eq_true_eq,decide_eq_true_eq] at hi
      rcases hi with hi|⟨-,rfl⟩
      · exact hgrows (hsub i hi)
      · exact .inr hwrites
    · exact hgrows (hsub i hi)
  have hsuccessor : ∀ q, q < codeLen → (insn.falls = true ∨ sub = .jsr) ∧ q = f.pc+insn.length ∨ (q : Int) ∈ insn.targets →
      Known table agreed' q := by
    intro q hlt hq
    obtain ⟨m',hm',hin⟩ := hsettled q (mem_scanSuccessors hdec hv.within_code hv.short hfit hlt hq) hlt
    exact ⟨m',hm',fun i hi => hafter i (hin i hi)⟩
  have hoperand : ∀ y a, (f.read code).bind snd = some y → w.returnsTo y = some a → a < codeLen → Known table agreed' a := by
    intro y a hy hret hlt
    obtain ⟨i,hi,hval⟩ := operand_eq_some hy
    exact (h.addresses (hread i _ hi) hval hret hlt).mono hgrows
  have haddress : ∀ a, w.holds rest a ∨ w.returnsTo x = some a → a < codeLen → Known table agreed' a := by
    intro a ha hlt
    rcases hw.addresses _ _ _ _ _ _ _ _ hdec hout a ha with hheld|⟨y,hy,hret⟩|⟨hjsr,ha⟩
    · exact (h.held hheld hlt).mono hgrows
    · exact hoperand y a hy hret hlt
    · exact hsuccessor a hlt (.inl ⟨.inr hjsr,ha⟩)
  refine ⟨agreed',rfl,rfl,h.closed,?_,fun i hi => hgrows (h.kept i hi),fun {i y} hi hy => ?_,fun {i y a} hi hy hret hlt => ?_,
    fun ha hlt => haddress _ (.inl ha) hlt⟩
  · obtain ⟨-,hlt⟩ := goes_begins hv hw hf hout
    rcases hw.goes _ _ _ _ _ _ _ _ hdec hout with ⟨hfall,hq⟩|hq|⟨-,-,y,hy,hret⟩
    · exact hsuccessor q hlt (.inl ⟨.inl hfall,hq⟩)
    · exact hsuccessor q hlt (.inr hq)
    · exact hoperand y q hy hret hlt
  · refine write_congr h.pc (fun hold => ?_) hy
    rcases hi with hi|hi
    · exact .inr (h.agree hi hold)
    · exact .inl ⟨_,hdec,hi⟩
  rcases write_cases hy with ⟨-,rfl⟩|⟨hnot,hold⟩
  · exact haddress a (.inr hret) hlt
  rcases hi with hi|hi
  · exact (h.addresses hi hold hret hlt).mono hgrows
  · exact absurd ⟨_,hdec,hi⟩ hnot

end

section
variable {descriptor : List Char} {isStatic : Bool} (hv : VerifiedAny code codeLen handlers)
  (hgate : localHandlerReadsUnsafeLocal code codeLen handlers descriptor isStatic = false)
  (hw : w.Legal code codeLen handlers) (hentry : w.Call code entry)
include hv hgate hw hentry

theorem Alike.trace (m : Nat) {n : Nat} (hrun : w.run code n entry = some f)
    (h : Alike w code codeLen (paramSlotCount descriptor isStatic) table agreed f g) :
    w.trace code m g = w.trace code m f := by
  induction m generalizing n f g table agreed with
  | zero => rfl
  | succ m ih => ?_
  have hf := Ran.run hv hw (paramSlotCount descriptor isStatic) hentry n hrun
  have hassigned := fun i v => hentry.assigned n f i v hrun
  obtain ⟨hread,-⟩ := h.read hv hf hassigned
  have hout : w.outcome code g = w.outcome code f := by
    unfold World.outcome
    rw [h.pc,h.rest,hread]
  have hsucc : w.run code (n+1) entry = w.next code f := by
    rw [World.run,hrun,bind_some]
  unfold World.trace
  rw [h.pc,hread]
  congr 1
  unfold World.next at hsucc ⊢
  rw [hout]
  cases hcase : w.outcome code f with
  | stops => rfl
  | goes q rest x =>
    rw [hcase] at hsucc
    obtain ⟨agreed',halike⟩ := h.goes hv hf hw hassigned hcase
    exact ih hsucc halike
  | throws q rest => ?_
  rw [hcase] at hsucc
  obtain ⟨hleaves,hempty⟩ := hw.throws _ _ _ _ _ hcase
  obtain ⟨table',agreed',halike⟩ := alike_handler hv hgate hentry rfl hf hleaves hempty g.locals
    fun i y hi hy => h.agree (h.kept i hi) hy
  exact ih hsucc halike

/-- Behind every throw into a handler, a frame with the incoming arguments and arbitrary other locals reads the same
locals with the same values as the true one, for as long as the method runs. -/
theorem params_only_frame_reads_alike {n q : Nat} {rest : ρ} (hrun : w.run code n entry = some f)
    (hthrow : w.outcome code f = .throws q rest) (frame : Nat → Option V)
    (hframe : ∀ i < paramSlotCount descriptor isStatic, frame i = entry.locals i) (m : Nat) :
    w.trace code m ⟨q,frame,rest⟩ = w.trace code m ⟨q,f.locals,rest⟩ := by
  have hf := Ran.run hv hw (paramSlotCount descriptor isStatic) hentry n hrun
  obtain ⟨hleaves,hempty⟩ := hw.throws _ _ _ _ _ hthrow
  obtain ⟨table,agreed,halike⟩ := alike_handler hv hgate hentry rfl hf hleaves hempty frame fun i y hi hy => by
    rw [hframe i (unwritten_spec hi).1]
    exact hf.keeps hi hy
  have hnext : w.run code (n+1) entry = some ⟨q,f.locals,rest⟩ := by
    rw [World.run,hrun,bind_some,World.next,hthrow]
  exact halike.trace hv hgate hw hentry m hnext

end
end

/-- `y = x; throw null;` with a handler that stores the exception and returns `x`. -/
def keptLocalCode : Code := [0x1a,0x3c,0x01,0xbf,0x4d,0x1a,0xac]

def keptLocalHandlers : List HandlerRange := [⟨2,4,4⟩]

def keptLocalWorld : World (List Nat) Nat where
  exec pc stack operand :=
    match pc with
    | 0 => .goes 1 operand.toList 0
    | 1 => .goes 2 [] (stack.headD 0)
    | 2 => .goes 3 [0] 0
    | 3 => .throws 4 stack
    | 4 => .goes 5 [] (stack.headD 0)
    | 5 => .goes 6 operand.toList 0
    | _ => .stops
  isPair _ := false
  returnsTo _ := none
  holds _ _ := False

def keptLocalEntry : Frame (List Nat) Nat := ⟨0,fun i => if i = 0 then some 5 else none,[]⟩

theorem keptLocal_decodes : ∀ pc < 7, ∃ insn, decodeAny keptLocalCode pc = some (insn,.neither) ∧ insn.length = 1 ∧
    insn.targets = [] ∧ insn.falls = (pc != 3 && pc != 6) ∧ (insn.reads = none ∨ insn.reads = some 0) ∧
    insn.writes ≠ some 0
  | 0,_ => ⟨⟨1,[],true,some 0,none⟩,by decide,rfl,rfl,rfl,.inr rfl,nofun⟩
  | 1,_ => ⟨⟨1,[],true,none,some 1⟩,by decide,rfl,rfl,rfl,.inl rfl,by decide⟩
  | 2,_ => ⟨⟨1,[],true,none,none⟩,by decide,rfl,rfl,rfl,.inl rfl,nofun⟩
  | 3,_ => ⟨⟨1,[],false,none,none⟩,by decide,rfl,rfl,rfl,.inl rfl,nofun⟩
  | 4,_ => ⟨⟨1,[],true,none,some 2⟩,by decide,rfl,rfl,rfl,.inl rfl,by decide⟩
  | 5,_ => ⟨⟨1,[],true,some 0,none⟩,by decide,rfl,rfl,rfl,.inr rfl,nofun⟩
  | 6,_ => ⟨⟨1,[],false,none,none⟩,by decide,rfl,rfl,rfl,.inl rfl,nofun⟩
  | n+7,h => by omega

theorem keptLocal_begins : ∀ pc ≤ 7, Begins keptLocalCode pc := by
  intro pc
  induction pc with
  | zero => exact fun _ => .zero
  | succ pc ih =>
    intro hle
    obtain ⟨insn,hdec,hlen,-⟩ := keptLocal_decodes pc (by omega)
    rw [← hlen]
    exact .next (ih (by omega)) hdec

theorem keptLocal_verified : VerifiedAny keptLocalCode 7 keptLocalHandlers where
  short := by decide
  within_code := by decide
  decodes {pc} _ hlt := by
    obtain ⟨insn,hdec,hlen,htargets,hfalls,-⟩ := keptLocal_decodes pc hlt
    refine ⟨insn,.neither,hdec,by omega,fun hf => ?_,fun t ht => ?_⟩
    · rw [hfalls,and_eq_true,bne_iff_ne,bne_iff_ne] at hf
      omega
    rw [htargets] at ht
    cases ht
  nonempty := by decide
  handler := by
    intro h hmem
    obtain rfl := mem_singleton.mp hmem
    exact ⟨keptLocal_begins 4 (by decide),by decide⟩

theorem keptLocal_exec {pc q x : Nat} {stack stack' : List Nat} {operand : Option Nat}
    (h : keptLocalWorld.exec pc stack operand = .goes q stack' x) : pc < 7 ∧ pc ≠ 3 ∧ pc ≠ 6 ∧ q = pc+1 := by
  match pc with
  | 0 | 1 | 2 | 4 | 5 =>
    obtain ⟨rfl,-,-⟩ := Outcome.goes.inj h
    decide
  | 3 => cases h
  | n+6 => cases h

theorem keptLocal_legal : keptLocalWorld.Legal keptLocalCode 7 keptLocalHandlers where
  goes pc stack operand q stack' x insn sub hdec hexec := by
    obtain ⟨hlt,h3,h6,rfl⟩ := keptLocal_exec hexec
    obtain ⟨insn',hdec',hlen,-,hfalls,-⟩ := keptLocal_decodes pc hlt
    rw [hdec] at hdec'
    obtain ⟨rfl,-⟩ := mk.inj (some.inj hdec')
    refine .inl ⟨?_,by rw [hlen]⟩
    rw [hfalls,and_eq_true,bne_iff_ne,bne_iff_ne]
    exact ⟨h3,h6⟩
  throws pc stack operand q stack' h := by
    match pc with
    | 0 | 1 | 2 | 4 | 5 => cases h
    | 3 =>
      obtain ⟨rfl,-⟩ := Outcome.throws.inj h
      exact ⟨⟨⟨2,4,4⟩,mem_singleton.mpr rfl,by decide,by decide,rfl⟩,fun _ => id⟩
    | n+6 => cases h
  addresses _ _ _ _ _ _ _ _ _ _ _ ha := by
    rcases ha with ha|ha
    · exact ha.elim
    · cases ha

theorem keptLocal_next {f f' : Frame (List Nat) Nat} (hf : f.locals 0 = some 5)
    (h : keptLocalWorld.next keptLocalCode f = some f') : f'.locals 0 = some 5 := by
  unfold World.next at h
  cases hout : keptLocalWorld.outcome keptLocalCode f with
  | stops =>
    rw [hout] at h
    cases h
  | throws q rest =>
    rw [hout] at h
    obtain rfl := some.inj h
    exact hf
  | goes q rest x => ?_
  rw [hout] at h
  obtain rfl := some.inj h
  obtain ⟨hlt,-⟩ := keptLocal_exec hout
  obtain ⟨insn,hdec,-,-,-,-,hwrites⟩ := keptLocal_decodes f.pc hlt
  unfold World.write
  rw [hdec,bind_some]
  cases hi : insn.writes with
  | none => exact hf
  | some i =>
    have hne : 0 ≠ i := fun heq => hwrites (by rw [hi,heq])
    simp [hne,hf,keptLocalWorld]

theorem keptLocal_call : keptLocalWorld.Call keptLocalCode keptLocalEntry where
  start := rfl
  plain _ _ _ := rfl
  empty _ := id
  assigned n f i v hrun hread := by
    have hf : f.locals 0 = some 5 := by
      clear hread
      induction n generalizing f with
      | zero =>
        obtain rfl := some.inj hrun
        rfl
      | succ n ih =>
        obtain ⟨f₀,hrun,hnext⟩ := bind_eq_some_iff.mp hrun
        exact keptLocal_next (ih f₀ hrun) hnext
    obtain ⟨d,hdec,hreads,rfl⟩ := read_eq_some hread
    by_cases hlt : f.pc < 7
    · obtain ⟨insn,hdec',-,-,-,hslot,-⟩ := keptLocal_decodes f.pc hlt
      rw [hdec] at hdec'
      obtain rfl := some.inj hdec'
      rw [hreads] at hslot
      rcases hslot with hslot|hslot
      · cases hslot
      obtain rfl := some.inj hslot
      rw [hf]
      nofun
    have hnone : byteAt keptLocalCode f.pc = none := by
      unfold byteAt
      rw [List.getElem?_eq_none (by simpa [keptLocalCode] using hlt)]
      rfl
    have hdecode : decodeAny keptLocalCode f.pc = none := by simp [decodeAny,Jvms.decode,hnone]
    rw [hdecode] at hdec
    cases hdec

theorem params_only_frame_reads_alike_kept : ∃ f, keptLocalWorld.run keptLocalCode 3 keptLocalEntry = some f ∧
    f.locals 1 = some 5 ∧ keptLocalWorld.outcome keptLocalCode f = .throws 4 [0] ∧
    keptLocalWorld.trace keptLocalCode 3 ⟨4,fun i => some (i+5),[0]⟩ =
      keptLocalWorld.trace keptLocalCode 3 ⟨4,f.locals,[0]⟩ := by
  have hgate : localHandlerReadsUnsafeLocal keptLocalCode 7 keptLocalHandlers "(I)I".toList true = false := by decide +kernel
  have hrun : ∃ f, keptLocalWorld.run keptLocalCode 3 keptLocalEntry = some f ∧ f.locals 1 = some 5 ∧
      keptLocalWorld.outcome keptLocalCode f = .throws 4 [0] := ⟨_,rfl,rfl,rfl⟩
  obtain ⟨f,hrun,hkept,hthrow⟩ := hrun
  refine ⟨f,hrun,hkept,hthrow,?_⟩
  refine params_only_frame_reads_alike keptLocal_verified hgate keptLocal_legal keptLocal_call hrun hthrow _ (fun i hi => ?_) 3
  have hcount : paramSlotCount "(I)I".toList true = 1 := by decide +kernel
  rw [hcount] at hi
  obtain rfl := Nat.lt_one_iff.mp hi
  rfl

end CratonVM.Jit.LocalHomes
