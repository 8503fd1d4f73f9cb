import CratonVM.Gc.Zgc.RegionForwarding

/-!
Every atomic step of every thread keeps the forwarding invariant, so it holds after any
interleaving.
-/
namespace CratonVM.Gc.Zgc
open ZgcForwardingEntry Probing List Option Function

theorem decodeTo_of_encodeTo {r : ZRegionForwarding} {dest p : Nat}
    (h : r.encodeTo dest = some p) : r.decodeTo p = dest := by
  simp only [ZRegionForwarding.encodeTo] at h
  split at h
  · cases h
  split at h
  · cases h
  obtain rfl := some.inj h
  simp only [ZRegionForwarding.decodeTo]
  omega

section
variable {T : Type} {r : ZRegionForwarding} {s : State T}
variable {t : T}

theorem Inv.goto [DecidableEq T] (h : Inv r s) {pc : Pc} (hpc : PcOk r s.entries pc)
    (hholds : pc.holds = (s.pcs t).holds) : Inv r (s.goto t pc) := by
  obtain ⟨holders,hnodup,hmem,hcount,hword⟩ := h.guard.count
  refine ⟨h.table,?_,h.log,⟨⟨holders,hnodup,?_,hcount,hword⟩,h.guard.quiet⟩⟩
  · intro u
    simp only [State.goto]
    by_cases hu : u = t
    · subst hu; rw [update_self]; exact hpc
    · rw [update_of_ne hu]; exact h.pcs u
  intro u
  simp only [State.goto]
  by_cases hu : u = t
  · subst hu; rw [update_self,hholds]; exact hmem u
  · rw [update_of_ne hu]; exact hmem u

theorem publications_append (log : List Answer) (a : Answer) (off : Nat) :
    publications (log ++ [a]) off = publications log off+(if a.publishes off then 1 else 0) := by
  simp [publications,countP_append,countP_cons]

variable {outcome : Outcome}

theorem Inv.answer (h : Inv r s) {offset : Option Nat}
    (hok : AnswerOk r s.entries ⟨offset,outcome⟩) (hwon : outcome.isWon = false)
    (hquiet : outcome = .quiescent true → s.word = zrfSealed) :
    Inv r (s.answer offset outcome) := by
  have hpub : ∀ off, publications (s.log ++ [⟨offset,outcome⟩]) off = publications s.log off := by
    simp [publications_append,Answer.publishes,hwon]
  refine ⟨h.table,h.pcs,⟨?_,?_,?_⟩,⟨h.guard.count,?_⟩⟩
  · intro a ha
    simp only [State.answer,mem_append,mem_singleton] at ha
    rcases ha with ha | rfl
    · exact h.log.answers a ha
    · exact hok
  · intro off hp
    simp only [State.answer,hpub]
    exact h.log.once off hp
  · intro off hp
    simp only [State.answer,hpub]
    exact h.log.never off hp
  intro a ha hq
  simp only [State.answer,mem_append,mem_singleton] at ha
  rcases ha with ha | rfl
  · exact h.guard.quiet a ha hq
  · exact hquiet hq

variable {entries : List Nat}

theorem answerOk_error {offset : Option Nat}
    (haddr : outcome.address r = none) (hfull : outcome.isTableFull = false)
    (hfound : outcome ≠ .found none true) : AnswerOk r entries ⟨offset,outcome⟩ := by
  refine ⟨?_,?_,hfound⟩
  · intro addr h
    rw [haddr] at h; cases h
  intro h
  rw [hfull] at h; cases h

variable {off p : Nat}

theorem answerOk_address
    (hmaps : Maps entries off p) (haddr : outcome.address r = some (r.decodeTo p))
    (hfull : outcome.isTableFull = false) : AnswerOk r entries ⟨some off,outcome⟩ := by
  refine ⟨?_,?_,?_⟩
  · intro addr h
    rw [haddr] at h
    exact ⟨off,p,rfl,hmaps,(some.inj h).symm⟩
  · intro h
    rw [hfull] at h; cases h
  rintro rfl
  cases haddr

theorem Inv.finishFind [DecidableEq T] (h : Inv r s) {who : Reader}
    {result : Option ZForwardingPayload} (hfree : (s.pcs t).holds = false)
    (hsome : ∀ p, result = some p → Maps s.entries off p)
    (hnone : result = none → who ≠ .direct true) : Inv r (s.finishFind r t off who result) := by
  have done : ∀ {outcome : Outcome}, AnswerOk r s.entries ⟨some off,outcome⟩ →
      outcome.isWon = false → outcome ≠ .quiescent true →
      Inv r ((s.answer (some off) outcome).goto t .idle) := by
    intro outcome hok hwon hq
    exact (h.answer hok hwon (fun hx => absurd hx hq)).goto trivial hfree.symm
  cases who with
  | direct late => ?_
  | first size =>
    cases result with
    | none => exact h.goto trivial hfree.symm
    | some p => exact done (answerOk_address (hsome p rfl) rfl rfl) rfl (by simp)
  | afterRefusal =>
    cases result with
    | none => exact done (answerOk_error rfl rfl (by simp)) rfl (by simp)
    | some p => exact done (answerOk_address (hsome p rfl) rfl rfl) rfl (by simp)
  cases result with
  | none =>
    refine done (answerOk_error rfl rfl ?_) rfl (by simp)
    simp only [ne_eq,Outcome.found.injEq,true_and]
    rintro rfl
    exact hnone rfl rfl
  | some p => exact done (answerOk_address (hsome p rfl) rfl rfl) rfl (by simp)

theorem Inv.beginFind [DecidableEq T] (h : Inv r s) {who : Reader}
    (hfree : (s.pcs t).holds = false) (hlate : who = .direct true → Published s.entries off) :
    Inv r (s.beginFind r t off who) := by
  -- A published offset passes both tests, so a late lookup is not refused here.
  have hrefuse : ¬ (off%8 = 0 ∧ off/8 ≤ zfwdFromMask) → Inv r (s.finishFind r t off who none) := by
    intro hbad
    refine h.finishFind hfree (by intro p hp; cases hp) ?_
    intro _ hwho
    obtain ⟨p,i,_,hp⟩ := hlate hwho
    obtain ⟨_,halign,_,hfit,_⟩ := pack_eq_some hp
    apply hbad
    refine ⟨halign,?_⟩
    simp only [zfwdFromMask,zfwdFromBits,Nat.one_shiftLeft]
    omega
  simp only [State.beginFind,and_align,shiftRight_align]
  split
  · rename_i h1
    exact hrefuse (fun hx => h1 hx.1)
  split
  · rename_i h2
    exact hrefuse (fun hx => absurd hx.2 (Nat.not_le.mpr h2))
  rename_i h1 _
  refine h.goto ⟨?_,not_not.mp h1,hlate⟩ hfree.symm
  simp only [State.home,State.mask,State.capacity,shiftRight_align]
  exact probe_init h.table off

variable {who : Inserter}

theorem Inv.finishInsert [DecidableEq T] (h : Inv r s) {w : Nat}
    (hwho : who.Ok r p) (hmaps : Maps s.entries off w)
    (hholds : (s.pcs t).holds = who.holds) :
    Inv r (s.finishInsert r t off p w false who) := by
  have done : ∀ {outcome : Outcome} {pc : Pc}, AnswerOk r s.entries ⟨some off,outcome⟩ →
      outcome.isWon = false → outcome ≠ .quiescent true → PcOk r s.entries pc →
      pc.holds = (s.pcs t).holds → Inv r ((s.answer (some off) outcome).goto t pc) := by
    intro outcome pc hok hwon hq hpc hh
    exact (h.answer hok hwon (fun hx => absurd hx hq)).goto hpc hh
  cases who with
  | direct =>
    exact done (answerOk_address hmaps rfl rfl) rfl (by simp) trivial hholds.symm
  | region dest => ?_
  simp only [State.finishInsert]
  split
  · rename_i hw
    subst hw
    refine done (answerOk_address hmaps ?_ rfl) rfl (by simp) trivial hholds.symm
    simp [Outcome.address,decodeTo_of_encodeTo hwho]
  · exact done (answerOk_address hmaps rfl rfl) rfl (by simp) trivial hholds.symm

theorem Inv.failInsert [DecidableEq T] (h : Inv r s)
    {e : ZForwardingInsertError}
    (hfull : e = .tableFull → ∀ i, i < s.entries.length → ∃ k, held s.entries i = some k ∧ k ≠ off/8)
    (hholds : (s.pcs t).holds = who.holds) :
    Inv r (s.failInsert t off e who) := by
  have hok : ∀ {outcome : Outcome}, outcome.address r = none → outcome ≠ .found none true →
      (outcome.isTableFull → e = .tableFull) → AnswerOk r s.entries ⟨some off,outcome⟩ := by
    intro outcome haddr hfound hcase
    refine ⟨?_,?_,hfound⟩
    · intro addr ha
      rw [haddr] at ha; cases ha
    intro ht
    exact ⟨off,rfl,hfull (hcase ht)⟩
  cases who with
  | direct =>
    refine Inv.goto (h.answer (hok rfl (by simp) ?_) rfl (by simp)) trivial hholds.symm
    cases e <;> simp [Outcome.isTableFull]
  | region dest =>
    refine Inv.goto (h.answer (hok rfl (by simp) ?_) rfl (by simp)) trivial hholds.symm
    cases e <;> simp [Outcome.isTableFull]

theorem Inv.beginInsert [DecidableEq T] (h : Inv r s) (hwho : who.Ok r p)
    (hholds : (s.pcs t).holds = who.holds) :
    Inv r (s.beginInsert t off p who) := by
  simp only [State.beginInsert]
  cases hpack : pack off p with
  | none => exact h.failInsert (by simp) hholds
  | some desired =>
    refine h.goto ⟨?_,hpack,hwho⟩ ?_
    · simp only [State.home,State.mask,State.capacity,shiftRight_align]
      exact probe_init h.table off
    · rw [hholds]; rfl

variable {idx : Nat}

theorem PcOk.set {e : Nat} {pc : Pc} (h : PcOk r entries pc)
    (hi : idx < entries.length) (hempty : entries.getD idx zfwdEmpty = zfwdEmpty)
    (hpack : pack off p = some e) : PcOk r (entries.set idx e) pc := by
  have hheld : held entries idx = none := by
    simp only [held,hempty,not_isOccupied_empty]; rfl
  cases pc with
  | find who off' idx' left => ?_
  | insertLoad who off' p' d idx' left => exact ⟨h.1.set hi hheld hpack,h.2⟩
  | insertCas who off' p' d idx' left => exact ⟨h.1.set hi hheld hpack,h.2⟩
  | copy off' dest p' => exact h
  | idle => trivial
  | retainLoad off' size => trivial
  | retain off' size seen => trivial
  | alloc off' size => trivial
  | release => trivial
  obtain ⟨h1,h2,h3⟩ := h
  refine ⟨h1.set hi hheld hpack,h2,?_⟩
  intro hwho
  obtain ⟨p',hp'⟩ := h3 hwho
  exact ⟨p',(maps_set_iff hi hempty hpack off' p').mpr (.inl hp')⟩

theorem AnswerOk.set {e : Nat} {a : Answer}
    (h : AnswerOk r entries a) (hi : idx < entries.length)
    (hempty : entries.getD idx zfwdEmpty = zfwdEmpty) (hpack : pack off p = some e) :
    AnswerOk r (entries.set idx e) a := by
  have hheld : held entries idx = none := by
    simp only [held,hempty,not_isOccupied_empty]; rfl
  obtain ⟨h1,h2,h3⟩ := h
  refine ⟨?_,?_,h3⟩
  · intro addr haddr
    obtain ⟨off',p',ho,hm,hd⟩ := h1 addr haddr
    exact ⟨off',p',ho,(maps_set_iff hi hempty hpack off' p').mpr (.inl hm),hd⟩
  intro hfull
  obtain ⟨off',ho,hall⟩ := h2 hfull
  refine ⟨off',ho,?_⟩
  intro i hil
  rw [length_set] at hil
  obtain ⟨k,hk,hne⟩ := hall i hil
  exact ⟨k,held_keep hi hheld hpack i k hk,hne⟩

variable {left desired : Nat}

theorem Inv.publish (h : Inv r s)
    (hprobe : ProbeOk s.entries off idx (left+1)) (hpack : pack off p = some desired)
    (hempty : s.entries.getD idx zfwdEmpty = zfwdEmpty)
    (hwon : outcome.isWon = true) (haddr : outcome.address r = some (r.decodeTo p)) :
    Inv r (({ s with entries := s.entries.set idx desired } : State T).answer
      (some off) outcome) := by
  have hi := hprobe.idx_lt h.table
  have hheld : held s.entries idx = none := by
    simp only [held,hempty,not_isOccupied_empty]; rfl
  have habsent := hprobe.absent h.table hheld
  have hmaps := maps_set_iff hi hempty hpack
  have hplain : outcome.isTableFull = false ∧ outcome ≠ .quiescent true := by
    cases outcome <;> simp_all [Outcome.isWon,Outcome.isTableFull]
  have hpub : ∀ off', Published (s.entries.set idx desired) off' ↔
      Published s.entries off' ∨ off' = off := by
    intro off'
    constructor
    · rintro ⟨p',hp'⟩
      rcases (hmaps off' p').mp hp' with hm | ⟨ho,_⟩
      · exact .inl ⟨p',hm⟩
      · exact .inr ho
    rintro (⟨p',hm⟩ | rfl)
    · exact ⟨p',(hmaps off' p').mpr (.inl hm)⟩
    · exact ⟨p,(hmaps off' p).mpr (.inr ⟨rfl,rfl⟩)⟩
  refine ⟨h.table.publish hprobe hheld hpack,?_,⟨?_,?_,?_⟩,⟨h.guard.count,?_⟩⟩
  · intro t
    exact (h.pcs t).set hi hempty hpack
  · intro a ha
    simp only [State.answer,mem_append,mem_singleton] at ha
    rcases ha with ha | rfl
    · exact (h.log.answers a ha).set hi hempty hpack
    · exact answerOk_address ((hmaps off p).mpr (.inr ⟨rfl,rfl⟩)) haddr hplain.1
  · intro off' hoff'
    simp only [State.answer,publications_append,Answer.publishes,hwon,Bool.and_true]
    by_cases heq : off' = off
    · subst heq
      rw [h.log.never off' habsent]; simp
    rcases (hpub off').mp hoff' with hp | hp
    · have hne : ¬ off = off' := fun hx => heq hx.symm
      rw [h.log.once off' hp]; simp [hne]
    · exact absurd hp heq
  · intro off' hoff'
    have hnot : ¬ Published s.entries off' := fun hx => hoff' ((hpub off').mpr (.inl hx))
    have hne : ¬ off = off' := fun hx => hoff' ((hpub off').mpr (.inr hx.symm))
    simp only [State.answer,publications_append,Answer.publishes,hwon,Bool.and_true,
      h.log.never off' hnot]
    simp [hne]
  intro a ha hq
  simp only [State.answer,mem_append,mem_singleton] at ha
  rcases ha with ha | rfl
  · exact h.guard.quiet a ha hq
  · exact absurd hq hplain.2

theorem and_sealed_add {n : Nat} (h : n < 2^63) : (zrfSealed+n) &&& zrfSealed ≠ 0 := by
  have hbit : (2^63+n).testBit 63 = true := by
    rw [Nat.testBit_two_pow_add_eq,Nat.testBit_lt_two_pow h]; rfl
  rw [zrfSealed,Nat.one_shiftLeft,Nat.and_two_pow,hbit]
  decide

theorem or_sealed_of_lt {n : Nat} (h : n < 2^63) : n ||| zrfSealed = zrfSealed+n := by
  have hadd := Nat.shiftLeft_add_eq_or_of_lt h 1
  rw [zrfSealed,Nat.or_comm]
  exact hadd.symm

theorem or_sealed_add {n : Nat} (h : n < 2^63) : (zrfSealed+n) ||| zrfSealed = zrfSealed+n := by
  rw [← or_sealed_of_lt h,Nat.or_assoc,Nat.or_self]

theorem and_countMask (n : Nat) : n &&& zrfCountMask = n%2^32 := by
  rw [zrfCountMask,Nat.and_two_pow_sub_one_eq_mod]

variable {pcs : T → Pc} {log : List Answer} {word : Nat}

theorem GuardOk.retain [DecidableEq T]
    {pc : Pc} (h : GuardOk word pcs log) (hfree : (pcs t).holds = false) (hpc : pc.holds = true)
    (hopen : ¬ (word &&& zrfSealed ≠ 0 ∨ word &&& zrfCountMask = zrfCountMask)) :
    GuardOk (word+1) (update pcs t pc) log := by
  obtain ⟨holders,hnodup,hmem,hcount,hword⟩ := h.count
  have hmask : zrfCountMask = 2^32-1 := rfl
  have hsealed : zrfSealed = 2^63 := by simp [zrfSealed,Nat.one_shiftLeft]
  simp only [not_or,not_not] at hopen
  have hplain : word = holders.length := by
    rcases hword with hw | hw
    · exact hw
    rw [hw] at hopen
    exact absurd hopen.1 (and_sealed_add (by omega))
  have hroom : holders.length < zrfCountMask := by
    have hne := hopen.2
    rw [hplain,and_countMask] at hne
    omega
  have hnot : t ∉ holders := by
    rw [hmem,hfree]; simp
  refine ⟨⟨t :: holders,nodup_cons.mpr ⟨hnot,hnodup⟩,?_,?_,?_⟩,?_⟩
  · intro u
    by_cases hu : u = t
    · subst hu; simp [hpc]
    · simp [hu,hmem u]
  · rw [length_cons]; omega
  · left; rw [length_cons]; omega
  intro a ha hq
  have hw := h.quiet a ha hq
  omega

theorem GuardOk.release [DecidableEq T]
    (h : GuardOk word pcs log) (hholds : (pcs t).holds = true) :
    GuardOk (State.dropCount word) (update pcs t .idle) log := by
  obtain ⟨holders,hnodup,hmem,hcount,hword⟩ := h.count
  have hmask : zrfCountMask = 2^32-1 := rfl
  have hsealed : zrfSealed = 2^63 := by simp [zrfSealed,Nat.one_shiftLeft]
  have ht := (hmem t).mpr hholds
  have hpos := length_pos_of_mem ht
  have hlen := length_erase_of_mem ht
  refine ⟨⟨holders.erase t,hnodup.erase t,?_,by omega,?_⟩,?_⟩
  · intro u
    rw [hnodup.mem_erase_iff]
    by_cases hu : u = t
    · subst hu; simp [Pc.holds]
    · simp [hu,hmem u]
  · unfold State.dropCount
    rcases hword with hw | hw
    · left; omega
    · right; omega
  intro a ha hq
  have hw := h.quiet a ha hq
  omega

theorem GuardOk.seal (h : GuardOk word pcs log) :
    GuardOk (word ||| zrfSealed) pcs log := by
  obtain ⟨holders,hnodup,hmem,hcount,hword⟩ := h.count
  have hmask : zrfCountMask = 2^32-1 := rfl
  have hlt : holders.length < 2^63 := by omega
  refine ⟨⟨holders,hnodup,hmem,hcount,.inr ?_⟩,?_⟩
  · rcases hword with hw | hw
    · rw [hw,or_sealed_of_lt hlt]
    · rw [hw,or_sealed_add hlt]
  intro a ha hq
  rw [h.quiet a ha hq,Nat.or_self]

theorem GuardOk.free_of_sealed
    (h : GuardOk zrfSealed pcs log) (t : T) : (pcs t).holds = false := by
  obtain ⟨holders,_,hmem,hcount,hword⟩ := h.count
  have hmask : zrfCountMask = 2^32-1 := rfl
  have hsealed : zrfSealed = 2^63 := by simp [zrfSealed,Nat.one_shiftLeft]
  have hlen : holders.length = 0 := by omega
  have hnil := length_eq_zero_iff.mp hlen
  cases ht : (pcs t).holds with
  | false => rfl
  | true =>
    have := (hmem t).mpr ht
    simp [hnil] at this

theorem published_of_success (h : Inv r s)
    (hany : s.log.any (fun a => a.succeeds off) = true) : Published s.entries off := by
  obtain ⟨a,ha,hs⟩ := any_eq_true.mp hany
  simp only [Answer.succeeds,Bool.and_eq_true,beq_iff_eq] at hs
  have haddr : ∃ addr, a.outcome.address r = some addr := by
    cases ho : a.outcome <;> simp_all [Outcome.isSuccess,Outcome.address]
  obtain ⟨addr,haddr⟩ := haddr
  obtain ⟨off',p,ho,hm,_⟩ := (h.log.answers a ha).1 addr haddr
  obtain rfl := some.inj (hs.1.symm.trans ho)
  exact ⟨p,hm⟩

theorem Inv.begin [DecidableEq T] (h : Inv r s) (hidle : s.pcs t = .idle) (c : Call) :
    Inv r (s.begin r t c) := by
  have hfree : (s.pcs t).holds = false := by rw [hidle]; rfl
  cases c with
  | tryInsert off p => exact h.beginInsert trivial hfree
  | findPayload off =>
    refine h.beginFind hfree ?_
    intro hlate
    exact published_of_success h (Reader.direct.inj hlate)
  | relocateOrForward src size => ?_
  | sealRegion =>
    have hsealed : Inv r { s with word := s.word ||| zrfSealed } :=
      ⟨h.table,h.pcs,h.log,h.guard.seal⟩
    exact hsealed.answer (answerOk_error rfl rfl (by simp)) rfl (by simp)
  | isQuiescent =>
    refine h.answer (answerOk_error rfl rfl (by simp)) rfl ?_
    simpa using hq
  simp only [State.begin]
  cases r.keyOf src with
  | none => exact h.answer (answerOk_error rfl rfl (by simp)) rfl (by simp)
  | some off =>
    simp only
    split
    · exact h.answer (answerOk_error rfl rfl (by simp)) rfl (by simp)
    · exact h.beginFind hfree (by simp)

theorem Inv.stepFind [DecidableEq T] (h : Inv r s) {who : Reader}
    (hpc : s.pcs t = .find who off idx left) : Inv r (s.stepFind r t who off idx left) := by
  have hfree : (s.pcs t).holds = false := by rw [hpc]; rfl
  obtain ⟨hprobe,halign,hlate⟩ : PcOk r s.entries (.find who off idx left) := hpc ▸ h.pcs t
  cases left with
  | zero =>
    refine h.finishFind hfree (by intro p hp; cases hp) ?_
    intro _ hwho
    obtain ⟨p,i,hi,hp⟩ := hlate hwho
    obtain ⟨k,hk,hne⟩ := hprobe.full hi
    rw [held_of_pack hp] at hk
    exact hne (some.inj hk).symm
  | succ left => ?_
  have hi := hprobe.idx_lt h.table
  simp only [State.stepFind,shiftRight_align,State.entry]
  by_cases hocc : isOccupied (s.entries.getD idx zfwdEmpty) = true
  · rw [if_neg (not_not.mpr hocc)]
    by_cases hkey : keyBits (s.entries.getD idx zfwdEmpty) = off/8
    · rw [if_pos hkey]
      refine h.finishFind hfree ?_ (by intro hx; cases hx)
      intro p hp
      obtain rfl := some.inj hp
      exact h.table.maps_of_slot hi halign hocc hkey
    rw [if_neg hkey]
    refine h.goto ⟨hprobe.next h.table ?_ hkey,halign,hlate⟩ hfree.symm
    simp only [held,hocc,if_true]
  rw [if_pos (by simpa using hocc)]
  refine h.finishFind hfree (by intro p hp; cases hp) ?_
  intro _ hwho
  refine hprobe.absent h.table ?_ (hlate hwho)
  simp only [held,hocc]; rfl

theorem Inv.stepInsert [DecidableEq T] (h : Inv r s) (hpc : s.pcs t = .insertLoad who off p desired idx left) :
    Inv r (s.stepInsert r t who off p desired idx left) := by
  have hholds : (s.pcs t).holds = who.holds := by rw [hpc]; rfl
  obtain ⟨hprobe,hpack,hwho⟩ : PcOk r s.entries (.insertLoad who off p desired idx left) :=
    hpc ▸ h.pcs t
  cases left with
  | zero => exact h.failInsert (fun _ _ hi => hprobe.full hi) hholds
  | succ left => ?_
  have hi := hprobe.idx_lt h.table
  simp only [State.stepInsert,shiftRight_align,State.entry]
  by_cases hocc : isOccupied (s.entries.getD idx zfwdEmpty) = true
  · rw [if_pos hocc]
    by_cases hkey : keyBits (s.entries.getD idx zfwdEmpty) = off/8
    · rw [if_pos hkey]
      exact h.finishInsert hwho
        (h.table.maps_of_slot hi (pack_eq_some hpack).2.1 hocc hkey) hholds
    rw [if_neg hkey]
    refine h.goto ⟨hprobe.next h.table ?_ hkey,hpack,hwho⟩ hholds.symm
    simp only [held,hocc,if_true]
  rw [if_neg hocc]
  exact h.goto ⟨hprobe,hpack,hwho⟩ hholds.symm

theorem Inv.stepCas [DecidableEq T] (h : Inv r s) (hpc : s.pcs t = .insertCas who off p desired idx left) :
    Inv r (s.stepCas r t who off p desired idx left) := by
  have hholds : (s.pcs t).holds = who.holds := by rw [hpc]; rfl
  obtain ⟨hprobe,hpack,hwho⟩ : PcOk r s.entries (.insertCas who off p desired idx left) :=
    hpc ▸ h.pcs t
  have hi := hprobe.idx_lt h.table
  simp only [State.stepCas,shiftRight_align,State.entry]
  by_cases hempty : s.entries.getD idx zfwdEmpty = zfwdEmpty
  · rw [if_pos hempty]
    cases who with
    | direct =>
      exact (h.publish hprobe hpack hempty rfl rfl).goto trivial hholds.symm
    | region dest =>
      simp only [State.finishInsert,if_true]
      refine (h.publish hprobe hpack hempty rfl ?_).goto trivial hholds.symm
      simp [Outcome.address,decodeTo_of_encodeTo hwho]
  rw [if_neg hempty]
  -- Only entries are ever stored, so a slot that is not empty is occupied.
  obtain ⟨off',p',hp'⟩ := (h.table.valid idx hi).resolve_left hempty
  have hocc := isOccupied_pack hp'
  by_cases hkey : keyBits (s.entries.getD idx zfwdEmpty) = off/8
  · rw [if_pos ⟨hocc,hkey⟩]
    exact h.finishInsert hwho
      (h.table.maps_of_slot hi (pack_eq_some hpack).2.1 hocc hkey) hholds
  rw [if_neg (fun hx => hkey hx.2)]
  refine h.goto ⟨hprobe.next h.table ?_ hkey,hpack,hwho⟩ hholds.symm
  simp only [held,hocc,if_true]

theorem Inv.stepRetain [DecidableEq T] (h : Inv r s) {size seen : Nat}
    (hpc : s.pcs t = .retain off size seen) : Inv r (s.stepRetain r t off size seen) := by
  have hfree : (s.pcs t).holds = false := by rw [hpc]; rfl
  simp only [State.stepRetain]
  split
  · exact h.beginFind hfree (by simp)
  split
  · rename_i hopen hseen
    subst hseen
    refine ⟨h.table,?_,h.log,h.guard.retain hfree rfl hopen⟩
    intro u
    by_cases hu : u = t
    · subst hu; simp [State.goto,PcOk]
    · simpa [State.goto,hu] using h.pcs u
  · exact h.goto trivial hfree.symm

theorem Inv.stepAlloc [DecidableEq T] (h : Inv r s) {size : Nat}
    (hpc : s.pcs t = .alloc off size) (dest : Option Nat) : Inv r (s.stepAlloc r t off dest) := by
  have hholds : (s.pcs t).holds = true := by rw [hpc]; rfl
  cases dest with
  | none =>
    exact Inv.goto (h.answer (answerOk_error rfl rfl (by simp)) rfl (by simp)) trivial hholds.symm
  | some dest => ?_
  simp only [State.stepAlloc]
  cases henc : r.encodeTo dest with
  | none =>
    exact Inv.goto (h.answer (answerOk_error rfl rfl (by simp)) rfl (by simp)) trivial hholds.symm
  | some p => exact h.goto henc hholds.symm

theorem Inv.step [DecidableEq T] (h : Inv r s) (t : T) (action : Action) :
    Inv r (s.step r t action) := by
  unfold State.step
  split
  · rename_i hpc; exact h.begin hpc _
  · rename_i hpc; exact h.stepFind hpc
  · rename_i hpc; exact h.goto trivial (by rw [hpc]; rfl)
  · rename_i hpc; exact h.stepRetain hpc
  · rename_i hpc
    split
    · exact h
    · exact h.goto trivial (by rw [hpc]; rfl)
  · rename_i hpc; exact h.stepAlloc hpc _
  · rename_i hpc; exact h.goto trivial (by rw [hpc]; rfl)
  · rename_i hpc
    have hcopy := h.pcs t
    rw [hpc] at hcopy
    exact h.beginInsert hcopy (by rw [hpc]; rfl)
  · rename_i hpc; exact h.goto trivial (by rw [hpc]; rfl)
  · rename_i hpc; exact h.stepInsert hpc
  · rename_i hpc; exact h.stepCas hpc
  · rename_i hpc
    have hholds : (s.pcs t).holds = true := by rw [hpc]; rfl
    simp only [State.goto]
    refine ⟨h.table,?_,h.log,h.guard.release hholds⟩
    intro u
    by_cases hu : u = t
    · subst hu; simp [PcOk]
    · simpa [hu] using h.pcs u
  · exact h

end

theorem inv_initial {T : Type} (r : ZRegionForwarding) : Inv r (initial r : State T) := by
  have hempty : ∀ i, (replicate (zfwdCapacityFor r.liveObjects) zfwdEmpty).getD i zfwdEmpty =
      zfwdEmpty := by
    intro i
    simp [List.getD,getElem?_replicate]
    split <;> rfl
  have hheld : ∀ i, held (replicate (zfwdCapacityFor r.liveObjects) zfwdEmpty) i = none := by
    intro i
    simp only [held,hempty,not_isOccupied_empty]; rfl
  have hmaps : ∀ off p, ¬ Maps (replicate (zfwdCapacityFor r.liveObjects) zfwdEmpty) off p := by
    rintro off p ⟨i,_,hp⟩
    have := held_of_pack hp
    rw [hheld] at this; cases this
  refine ⟨⟨?_,fun i _ => .inl (hempty i),⟨?_,?_⟩⟩,fun _ => trivial,⟨?_,?_,?_⟩,⟨⟨[],?_⟩,?_⟩⟩
  · simpa [initial] using zfwdCapacityFor_pow r.liveObjects
  · intro k j _ hk
    simp [initial,hheld] at hk
  · intro k i j _ _ hk
    simp [initial,hheld] at hk
  · intro a ha; simp [initial] at ha
  · rintro off ⟨p,hp⟩
    exact absurd hp (hmaps off p)
  · intro off _; rfl
  · simp [initial,Pc.holds]
  · intro a ha; simp [initial] at ha

theorem run_append {T : Type} [DecidableEq T] (r : ZRegionForwarding)
    (events : List (T × Action)) (e : T × Action) :
    run r (events ++ [e]) = (run r events).step r e.1 e.2 := by simp [run]

theorem run_inv {T : Type} [DecidableEq T] (r : ZRegionForwarding) (events : List (T × Action)) :
    Inv r (run r events) := by
  induction events using reverseRecOn with
  | nil => exact inv_initial r
  | append_singleton events e ih =>
    rw [run_append]
    exact ih.step e.1 e.2

end CratonVM.Gc.Zgc
