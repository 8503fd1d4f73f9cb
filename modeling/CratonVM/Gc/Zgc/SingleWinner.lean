import CratonVM.Gc.Zgc.ForwardingRuns

/-!
One object, one new address: the answers of all threads agree whatever the interleaving, and
`Relocated` is the answer of the one call whose copy was published.
-/
namespace CratonVM.Gc.Zgc
open ZgcForwardingEntry List Option Function

/-- The offset and payload of an insertion that has not been answered yet. -/
def Pc.carries : Pc → Option (Nat × ZForwardingPayload)
  | .copy off _ p => some (off,p)
  | .insertLoad _ off p _ _ _ | .insertCas _ off p _ _ _ => some (off,p)
  | _ => none

section
variable {T : Type}

/-- No other call is about to publish this payload for `off`, and no entry has it. -/
def Unused (s : State T) (t : T) (off : Nat) (p : ZForwardingPayload) : Prop :=
  (∀ u, u ≠ t → (s.pcs u).carries ≠ some (off,p)) ∧ ¬ Maps s.entries off p

/-- The promise of the callers: a destination that the to-space allocator hands out, or that a
direct caller of `try_insert` brings along, is that caller's own copy. -/
def OwnCopy (r : ZRegionForwarding) (s : State T) (e : T × Action) : Prop :=
  match s.pcs e.1, e.2 with
  | .idle, .call (.tryInsert off p) => Unused s e.1 off p
  | .alloc off _, .allocated (some dest) => ∀ p, r.encodeTo dest = some p → Unused s e.1 off p
  | _, _ => True

structure Owned (s : State T) : Prop where
  alone : ∀ t u off p, t ≠ u → (s.pcs t).carries = some (off,p) → (s.pcs u).carries ≠ some (off,p)
  fresh : ∀ t off p, (s.pcs t).carries = some (off,p) → ¬ Maps s.entries off p
  relocated : ∀ a, a ∈ s.log → ∀ dest won, a.outcome = .relocated dest won → won = true

variable [DecidableEq T] {r : ZRegionForwarding} {s : State T}
variable {t : T} {pc : Pc}

theorem Owned.goto (h : Owned s)
    (hpc : ∀ off p, pc.carries = some (off,p) → Unused s t off p) : Owned (s.goto t pc) := by
  refine ⟨?_,?_,h.relocated⟩
  · intro u v off p huv hu
    simp only [State.goto] at hu ⊢
    by_cases hut : u = t
    · subst hut
      rw [update_self] at hu
      rw [update_of_ne (Ne.symm huv)]
      exact (hpc off p hu).1 v (Ne.symm huv)
    rw [update_of_ne hut] at hu
    by_cases hvt : v = t
    · subst hvt
      rw [update_self]
      intro hv
      exact (hpc off p hv).1 u hut hu
    rw [update_of_ne hvt]
    exact h.alone u v off p huv hu
  intro u off p hu
  simp only [State.goto] at hu ⊢
  by_cases hut : u = t
  · subst hut
    rw [update_self] at hu
    exact (hpc off p hu).2
  rw [update_of_ne hut] at hu
  exact h.fresh u off p hu

theorem Owned.goto_none (h : Owned s) (hpc : pc.carries = none) :
    Owned (s.goto t pc) := by
  apply h.goto
  intro off p hp
  rw [hpc] at hp; cases hp

theorem Owned.goto_same (h : Owned s) (hpc : pc.carries = (s.pcs t).carries) :
    Owned (s.goto t pc) := by
  apply h.goto
  intro off p hp
  rw [hpc] at hp
  exact ⟨fun u hu => h.alone t u off p (Ne.symm hu) hp,h.fresh t off p hp⟩

omit [DecidableEq T] in
theorem Owned.answer (h : Owned s) {offset : Option Nat} {outcome : Outcome}
    (hout : ∀ dest won, outcome = .relocated dest won → won = true) :
    Owned (s.answer offset outcome) := by
  refine ⟨h.alone,h.fresh,?_⟩
  intro a ha dest won ho
  simp only [State.answer,List.mem_append,List.mem_singleton] at ha
  rcases ha with ha | rfl
  · exact h.relocated a ha dest won ho
  · exact hout dest won ho

theorem Owned.finishFind (h : Owned s) (t : T) (off : Nat) (who : Reader)
    (result : Option ZForwardingPayload) : Owned (s.finishFind r t off who result) := by
  cases who with
  | direct late => exact Owned.goto_none (h.answer (by simp)) rfl
  | first size =>
    cases result with
    | none => exact h.goto_none rfl
    | some p => exact Owned.goto_none (h.answer (by simp)) rfl
  | afterRefusal =>
    cases result with
    | none => exact Owned.goto_none (h.answer (by simp)) rfl
    | some p => exact Owned.goto_none (h.answer (by simp)) rfl

theorem Owned.beginFind (h : Owned s) (t : T) (off : Nat) (who : Reader) :
    Owned (s.beginFind r t off who) := by
  simp only [State.beginFind]
  split
  · exact h.finishFind t off who none
  split
  · exact h.finishFind t off who none
  · exact h.goto_none rfl

theorem Owned.failInsert (h : Owned s) (t : T) (off : Nat) (e : ZForwardingInsertError)
    (who : Inserter) : Owned (s.failInsert t off e who) := by
  cases who with
  | direct => exact Owned.goto_none (h.answer (by simp)) rfl
  | region dest => exact Owned.goto_none (h.answer (by simp)) rfl

variable {off p : Nat} {who : Inserter}

theorem Owned.finishInsert (h : Owned s) {w : Nat}
    (hcarry : (s.pcs t).carries = some (off,p)) (hmaps : Maps s.entries off w) :
    Owned (s.finishInsert r t off p w false who) := by
  cases who with
  | direct => exact Owned.goto_none (h.answer (by simp)) rfl
  | region dest => ?_
  have hne : w ≠ p := by
    rintro rfl
    exact h.fresh t off w hcarry hmaps
  simp only [State.finishInsert,if_neg hne]
  exact Owned.goto_none (h.answer (by simp)) rfl

theorem Owned.beginInsert (h : Owned s)
    (hunused : Unused s t off p) : Owned (s.beginInsert t off p who) := by
  simp only [State.beginInsert]
  cases pack off p with
  | none => exact h.failInsert t off _ who
  | some desired =>
    apply h.goto
    intro off' p' hcarry
    obtain ⟨rfl,rfl⟩ := Prod.mk.inj (some.inj hcarry)
    exact hunused

variable {desired idx : Nat}

theorem Owned.publish (h : Owned s) {outcome : Outcome}
    (hcarry : (s.pcs t).carries = some (off,p)) (hi : idx < s.entries.length)
    (hempty : s.entries.getD idx zfwdEmpty = zfwdEmpty) (hpack : pack off p = some desired)
    (hpc : pc.carries = none) (hout : ∀ dest won, outcome = .relocated dest won → won = true) :
    Owned ((({ s with entries := s.entries.set idx desired } : State T).answer
      (some off) outcome).goto t pc) := by
  refine ⟨?_,?_,?_⟩
  · exact (Owned.goto_none (t := t) h hpc).alone
  · intro u off' p' hu hm
    simp only [State.goto,State.answer] at hu hm
    by_cases hut : u = t
    · subst hut
      rw [update_self,hpc] at hu; cases hu
    rw [update_of_ne hut] at hu
    rcases (maps_set_iff hi hempty hpack off' p').mp hm with hm | ⟨rfl,rfl⟩
    · exact h.fresh u off' p' hu hm
    · exact h.alone u t off' p' hut hu hcarry
  · exact (Owned.answer h hout).relocated

theorem Owned.stepCas (h : Owned s) (inv : Inv r s)
    {left : Nat} (hpc : s.pcs t = .insertCas who off p desired idx left) :
    Owned (s.stepCas r t who off p desired idx left) := by
  have hcarry : (s.pcs t).carries = some (off,p) := by rw [hpc]; rfl
  obtain ⟨hprobe,hpack,_⟩ : PcOk r s.entries (.insertCas who off p desired idx left) :=
    hpc ▸ inv.pcs t
  have hi := hprobe.idx_lt inv.table
  simp only [State.stepCas,shiftRight_align,State.entry]
  by_cases hempty : s.entries.getD idx zfwdEmpty = zfwdEmpty
  · rw [if_pos hempty]
    cases who with
    | direct => exact h.publish hcarry hi hempty hpack rfl (by simp)
    | region dest =>
      simp only [State.finishInsert,if_true]
      exact h.publish hcarry hi hempty hpack rfl (by simp)
  rw [if_neg hempty]
  split
  · rename_i hmatch
    exact h.finishInsert hcarry
      (inv.table.maps_of_slot hi (pack_eq_some hpack).2.1 hmatch.1 hmatch.2)
  · exact h.goto_same hcarry.symm

theorem Owned.stepInsert (h : Owned s) (inv : Inv r s)
    {left : Nat} (hpc : s.pcs t = .insertLoad who off p desired idx left) :
    Owned (s.stepInsert r t who off p desired idx left) := by
  have hcarry : (s.pcs t).carries = some (off,p) := by rw [hpc]; rfl
  obtain ⟨hprobe,hpack,_⟩ : PcOk r s.entries (.insertLoad who off p desired idx left) :=
    hpc ▸ inv.pcs t
  have hi := hprobe.idx_lt inv.table
  cases left with
  | zero => exact h.failInsert t off _ who
  | succ left => ?_
  simp only [State.stepInsert,shiftRight_align,State.entry]
  split
  · rename_i hocc
    split
    · rename_i hkey
      exact h.finishInsert hcarry
        (inv.table.maps_of_slot hi (pack_eq_some hpack).2.1 hocc hkey)
    · exact h.goto_same hcarry.symm
  · exact h.goto_same hcarry.symm

theorem Owned.begin (h : Owned s) (hidle : s.pcs t = .idle) {c : Call}
    (hown : OwnCopy r s (t,.call c)) : Owned (s.begin r t c) := by
  cases c with
  | tryInsert off p =>
    simp only [OwnCopy,hidle] at hown
    exact h.beginInsert hown
  | findPayload off => exact h.beginFind t off _
  | relocateOrForward src size => ?_
  | sealRegion =>
    have hsealed : Owned { s with word := s.word ||| zrfSealed } := ⟨h.alone,h.fresh,h.relocated⟩
    exact hsealed.answer (by simp)
  | isQuiescent => exact h.answer (by simp)
  simp only [State.begin]
  cases r.keyOf src with
  | none => exact h.answer (by simp)
  | some off =>
    simp only
    split
    · exact h.answer (by simp)
    · exact h.beginFind t off _

theorem Owned.step (h : Owned s) (inv : Inv r s) (t : T) (action : Action)
    (hown : OwnCopy r s (t,action)) : Owned (s.step r t action) := by
  unfold State.step
  split
  · rename_i hpc; exact h.begin hpc hown
  · rename_i who off idx left hpc
    cases left with
    | zero => exact h.finishFind t off who none
    | succ left => ?_
    simp only [State.stepFind]
    split
    · exact h.finishFind t off who none
    split
    · exact h.finishFind t off who _
    · exact h.goto_none rfl
  · exact h.goto_none rfl
  · rename_i off size seen hpc
    simp only [State.stepRetain]
    split
    · exact h.beginFind t off _
    split
    · have hword : Owned { s with word := seen+1 } := ⟨h.alone,h.fresh,h.relocated⟩
      exact hword.goto_none rfl
    · exact h.goto_none rfl
  · split
    · exact h
    · exact h.goto_none rfl
  · rename_i off size dest hpc
    simp only [OwnCopy,hpc] at hown
    cases dest with
    | none => exact Owned.goto_none (h.answer (by simp)) rfl
    | some dest => ?_
    simp only [State.stepAlloc]
    cases henc : r.encodeTo dest with
    | none => exact Owned.goto_none (h.answer (by simp)) rfl
    | some p =>
      apply h.goto
      intro off' p' hcarry
      obtain ⟨rfl,rfl⟩ := Prod.mk.inj (some.inj hcarry)
      exact hown p henc
  · exact h.goto_none rfl
  · rename_i off dest p hpc
    have hcarry : (s.pcs t).carries = some (off,p) := by rw [hpc]; rfl
    exact h.beginInsert ⟨fun u hu => h.alone t u off p (Ne.symm hu) hcarry,h.fresh t off p hcarry⟩
  · exact h.goto_none rfl
  · rename_i hpc; exact h.stepInsert inv hpc
  · rename_i hpc; exact h.stepCas inv hpc
  · have hword : Owned { s with word := State.dropCount s.word } :=
      ⟨h.alone,h.fresh,h.relocated⟩
    exact hword.goto_none rfl
  · exact h

def OwnCopies (r : ZRegionForwarding) (events : List (T × Action)) : Prop :=
  ∀ pre e post, events = pre ++ e :: post → OwnCopy r (run r pre) e

theorem run_owned {events : List (T × Action)} (h : OwnCopies r events) :
    Owned (run r events) := by
  induction events using reverseRecOn with
  | nil =>
    refine ⟨?_,?_,?_⟩
    · intro t u off p _ ht; cases ht
    · intro t off p ht; cases ht
    · intro a ha; cases ha
  | append_singleton events e ih => ?_
  have hinit : OwnCopies r events := by
    intro pre e' post heq
    exact h pre e' (post ++ [e]) (by simp [heq])
  rw [run_append]
  exact (ih hinit).step (run_inv r events) e.1 e.2 (h events e [] rfl)

end

/-- After every interleaving of any number of threads: the answers for one offset name one
address, exactly one of them published it, no key sits in two slots, a lookup that started
after a success did not miss, `TableFull` was answered only over a table full of other keys,
and a region that was answered to be quiescent has no copier inside. When every caller brings
its own copy, `Relocated` is the publishing answer. -/
theorem single_winner {T : Type} [DecidableEq T] (r : ZRegionForwarding)
    (events : List (T × Action)) :
    (∀ a b off x y, a ∈ (run r events).log → b ∈ (run r events).log →
      a.offset = some off → b.offset = some off →
      a.outcome.address r = some x → b.outcome.address r = some y → x = y) ∧
    (∀ a off, a ∈ (run r events).log → a.succeeds off = true →
      publications (run r events).log off = 1) ∧
    (∀ i j k, i < (run r events).capacity → j < (run r events).capacity →
      held (run r events).entries i = some k → held (run r events).entries j = some k → i = j) ∧
    (∀ a, a ∈ (run r events).log → a.outcome ≠ .found none true) ∧
    (∀ a, a ∈ (run r events).log → a.outcome.isTableFull = true → ∃ off, a.offset = some off ∧
      ∀ i, i < (run r events).capacity →
        ∃ k, held (run r events).entries i = some k ∧ k ≠ off/8) ∧
    (∀ a, a ∈ (run r events).log → a.outcome = .quiescent true →
      ∀ t, ((run r events).pcs t).holds = false) ∧
    (OwnCopies r events → ∀ a, a ∈ (run r events).log → ∀ dest won,
      a.outcome = .relocated dest won → won = true) := by
  have h := run_inv r events
  refine ⟨?_,?_,?_,?_,?_,?_,?_⟩
  · intro a b off x y ha hb hao hbo hx hy
    obtain ⟨off₁,p,ho₁,hp,rfl⟩ := (h.log.answers a ha).1 x hx
    obtain ⟨off₂,q,ho₂,hq,rfl⟩ := (h.log.answers b hb).1 y hy
    obtain rfl := some.inj (hao.symm.trans ho₁)
    obtain rfl := some.inj (hbo.symm.trans ho₂)
    rw [h.table.maps_unique hp hq]
  · intro a off ha hs
    exact h.log.once off (published_of_success h (any_eq_true.mpr ⟨a,ha,hs⟩))
  · intro i j k hi hj hki hkj
    exact h.table.chained.once k i j hi hj hki hkj
  · intro a ha
    exact (h.log.answers a ha).2.2
  · intro a ha hfull
    exact (h.log.answers a ha).2.1 hfull
  · intro a ha hq t
    have hguard := h.guard
    rw [hguard.quiet a ha hq] at hguard
    exact hguard.free_of_sealed t
  intro hown
  exact (run_owned hown).relocated

end CratonVM.Gc.Zgc
