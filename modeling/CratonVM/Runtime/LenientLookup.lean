import CratonVM.Runtime.SelectionRule

/-!
What the lenient lookup answers: where its method stands against the receiver's superclass chain,
and what the chain declares below it.
-/
namespace CratonVM.Runtime
open ClassLoading List Option Prod
section
variable {store : ClassStore} {name descriptor : String}

theorem methodAt_of_find {x : ClassId} {c : ClassLoading.Class} (hc : store.get x = some c) :
    methodAt store name descriptor x = (c.findMethod name descriptor).map fun m => (m,x) := by
  simp [methodAt,hc]

theorem methodAt_none {x : ClassId} (hc : store.get x = none) :
    methodAt store name descriptor x = none := by
  simp [methodAt,hc]

variable {fuel : Nat} {fallback : Option Declared}

theorem findOnChain_concrete {id : ClassId} {hit : Declared}
    (h : findOnChain store name descriptor fuel id fallback = some (.concrete hit)) :
    methodAt store name descriptor hit.2 = some hit ∧ hit.1.isAbstract = false ∧
      ∃ l, LineageTo store id l hit.2 ∧
        ∀ x ∈ l, ∀ k, methodAt store name descriptor x = some (k,x) → k.isAbstract = true := by
  induction fuel generalizing id fallback with
  | zero => cases h
  | succ fuel ih => ?_
  rw [findOnChain] at h
  cases hc : store.get id with
  | none => simp [hc] at h
  | some c => ?_
  simp only [hc] at h
  have hup : ∀ fb, (∀ k, methodAt store name descriptor id = some (k,id) → k.isAbstract = true) →
      (c.superclass = none → False) →
      (∀ sc, c.superclass = some sc → findOnChain store name descriptor fuel sc fb = some (.concrete hit)) →
      methodAt store name descriptor hit.2 = some hit ∧ hit.1.isAbstract = false ∧
        ∃ l, LineageTo store id l hit.2 ∧
          ∀ x ∈ l, ∀ k, methodAt store name descriptor x = some (k,x) → k.isAbstract = true := by
    intro fb hself hend hnext
    cases hs : c.superclass with
    | none => exact absurd hs hend
    | some sc => ?_
    obtain ⟨hat,habs,l,hl,hbelow⟩ := ih (hnext sc hs)
    refine ⟨hat,habs,id::l,.up hc hs hl,fun x hx => ?_⟩
    rcases mem_cons.mp hx with rfl | hx
    · exact hself
    · exact hbelow x hx
  cases hm : c.findMethod name descriptor with
  | none =>
    simp only [hm] at h
    exact hup fallback (by simp [methodAt_of_find hc,hm]) (fun hs => by simp [hs] at h) fun sc hs => by simpa [hs] using h
  | some m => ?_
  simp only [hm] at h
  split at h
  · rename_i habs
    refine hup (fallback.or (some (m,id))) (fun k hk => ?_) (fun hs => by simp [hs] at h) fun sc hs => by simpa [hs] using h
    rw [methodAt_of_find hc,hm] at hk
    simpa [← (mk.inj (some.inj hk)).1] using habs
  rename_i habs
  obtain rfl := ChainHit.concrete.inj (some.inj h)
  exact ⟨by simp [methodAt_of_find hc,hm],by simpa using habs,[],.here,by simp⟩

theorem findOnChain_fallback {id : ClassId} {r : Option Declared}
    (h : findOnChain store name descriptor fuel id fallback = some (.fallback r)) :
    (∀ l x, LineageTo store id l x → ∀ k, methodAt store name descriptor x = some (k,x) →
      k.isAbstract = true) ∧
    (∀ first, fallback = some first → r = some first) ∧
    (fallback = none → r = none → ∀ l x, LineageTo store id l x →
      methodAt store name descriptor x = none) ∧
    ∀ hit, fallback = none → r = some hit → methodAt store name descriptor hit.2 = some hit ∧
      ∃ l, LineageTo store id l hit.2 ∧ ∀ x ∈ l, methodAt store name descriptor x = none := by
  induction fuel generalizing id fallback with
  | zero => cases h
  | succ fuel ih => ?_
  rw [findOnChain] at h
  cases hc : store.get id with
  | none =>
    simp only [hc,some.injEq,ChainHit.fallback.injEq] at h
    subst h
    have hnone : ∀ l x, LineageTo store id l x → methodAt store name descriptor x = none := by
      intro l x hx
      cases hx with
      | here => exact methodAt_none hc
      | up hc' => simp [hc] at hc'
    refine ⟨fun l x hx k hk => ?_,fun _ h => h,fun _ _ => hnone,fun hit h1 h2 => ?_⟩
    · rw [hnone l x hx] at hk
      cases hk
    rw [h1] at h2
    cases h2
  | some c => ?_
  simp only [hc] at h
  -- above the class: the end of the chain, or the rest of it
  have hup : ∀ fb, (c.superclass = none → fb = r) → (∀ sc, c.superclass = some sc →
        findOnChain store name descriptor fuel sc fb = some (.fallback r)) →
      (∀ l x, LineageTo store id l x → x = id ∨ ∀ k,
        methodAt store name descriptor x = some (k,x) → k.isAbstract = true) ∧
      (∀ first, fb = some first → r = some first) ∧
      (fb = none → r = none → ∀ l x, LineageTo store id l x → x = id ∨
        methodAt store name descriptor x = none) ∧
      ∀ hit, fb = none → r = some hit → methodAt store name descriptor hit.2 = some hit ∧
        ∃ l, LineageTo store id (id::l) hit.2 ∧ ∀ x ∈ l, methodAt store name descriptor x = none := by
    intro fb hend hnext
    cases hs : c.superclass with
    | none => ?_
    | some sc =>
      obtain ⟨habs,hkeep,hnone,hfirst⟩ := ih (hnext sc hs)
      have hstep : ∀ {P : ClassId → Prop}, (∀ l x, LineageTo store sc l x → P x) →
          ∀ l x, LineageTo store id l x → x = id ∨ P x := by
        intro P hP l x hx
        cases hx with
        | here => exact .inl rfl
        | up hc' hs' hx =>
          obtain rfl := some.inj (hc.symm.trans hc')
          obtain rfl := some.inj (hs.symm.trans hs')
          exact .inr (hP _ x hx)
      refine ⟨hstep habs,hkeep,fun h1 h2 => hstep (hnone h1 h2),fun hit h1 h2 => ?_⟩
      obtain ⟨hat,l,hl,hbelow⟩ := hfirst hit h1 h2
      exact ⟨hat,l,.up hc hs hl,hbelow⟩
    obtain rfl := hend hs
    have honly : ∀ l x, LineageTo store id l x → x = id := by
      intro l x hx
      cases hx with
      | here => rfl
      | up hc' hs' =>
        obtain rfl := some.inj (hc.symm.trans hc')
        rw [hs] at hs'
        cases hs'
    refine ⟨fun l x hx => .inl (honly l x hx),fun _ h => h,
      fun _ _ l x hx => .inl (honly l x hx),fun hit h1 h2 => ?_⟩
    rw [h1] at h2
    cases h2
  cases hm : c.findMethod name descriptor with
  | none =>
    simp only [hm] at h
    obtain ⟨habs,hkeep,hnone,hfirst⟩ :=
      hup fallback (fun hs => by simpa [hs] using h) fun sc hs => by simpa [hs] using h
    have hself : methodAt store name descriptor id = none := by simp [methodAt_of_find hc,hm]
    refine ⟨fun l x hx k hk => ?_,hkeep,fun h1 h2 l x hx => ?_,fun hit h1 h2 => ?_⟩
    · rcases habs l x hx with rfl | hx
      · rw [hself] at hk
        cases hk
      · exact hx k hk
    · rcases hnone h1 h2 l x hx with rfl | hx
      · exact hself
      · exact hx
    obtain ⟨hat,l,hl,hbelow⟩ := hfirst hit h1 h2
    refine ⟨hat,id::l,hl,fun x hx => ?_⟩
    rcases mem_cons.mp hx with rfl | hx
    · exact hself
    · exact hbelow x hx
  | some m => ?_
  simp only [hm] at h
  split at h
  · rename_i hmabs
    obtain ⟨habs,hkeep,-,-⟩ := hup (fallback.or (some (m,id)))
      (fun hs => by simpa [hs] using h) fun sc hs => by simpa [hs] using h
    have hself : methodAt store name descriptor id = some (m,id) := by
      simp [methodAt_of_find hc,hm]
    refine ⟨fun l x hx k hk => ?_,fun first hf => ?_,fun h1 h2 => ?_,fun hit h1 h2 => ?_⟩
    · rcases habs l x hx with rfl | hx
      · rw [hself] at hk
        simpa [← (mk.inj (some.inj hk)).1] using hmabs
      · exact hx k hk
    · exact hkeep first (by simp [hf])
    · have := hkeep (m,id) (by simp [h1])
      rw [h2] at this
      cases this
    have := hkeep (m,id) (by simp [h1])
    obtain rfl := some.inj (h2.symm.trans this)
    exact ⟨hself,[],.here,by simp⟩
  · cases h

/-- The search adds declarations of instance methods: the concrete ones to the candidates, an
abstract one only where there is no fallback yet. -/
theorem collectDefaults_spec {queue visited : List ClassId} {defaults out : List Declared}
    {r : Option Declared}
    (h : collectDefaults store name descriptor fuel queue visited defaults fallback = some (out,r)) :
    (∀ p ∈ out, p ∈ defaults ∨ methodAt store name descriptor p.2 = some p ∧ p.1.isAbstract = false) ∧
      (r = fallback ∨ fallback = none ∧ ∀ hit, r = some hit →
        methodAt store name descriptor hit.2 = some hit ∧ hit.1.isAbstract = true) := by
  induction fuel generalizing queue visited defaults fallback with
  | zero =>
    rw [collectDefaults] at h
    split at h
    · obtain ⟨rfl,rfl⟩ := mk.inj (some.inj h)
      exact ⟨fun p hp => .inl hp,.inl rfl⟩
    · cases h
  | succ fuel ih => ?_
  rw [collectDefaults] at h
  split at h
  · obtain ⟨rfl,rfl⟩ := mk.inj (some.inj h)
    exact ⟨fun p hp => .inl hp,.inl rfl⟩
  rename_i iface rest _
  cases hc : store.get iface with
  | none =>
    rw [hc] at h
    exact ih h
  | some c => ?_
  simp only [hc] at h
  cases hm : c.findMethod name descriptor with
  | none =>
    rw [hm] at h
    exact ih h
  | some m => ?_
  have hself : methodAt store name descriptor iface = some (m,iface) := by
    simp [methodAt_of_find hc,hm]
  simp only [hm] at h
  split at h
  · exact ih h
  split at h
  · rename_i habs
    obtain ⟨hout,hr⟩ := ih h
    refine ⟨hout,?_⟩
    cases fallback with
    | some first =>
      rcases hr with hr | ⟨hbad,-⟩
      · exact .inl hr
      · cases hbad
    | none => ?_
    refine .inr ⟨rfl,fun hit hhit => ?_⟩
    rcases hr with hr | ⟨hbad,-⟩
    · obtain rfl := some.inj (hhit.symm.trans hr)
      exact ⟨hself,habs⟩
    · cases hbad
  rename_i habs
  obtain ⟨hout,hr⟩ := ih h
  refine ⟨fun p hp => ?_,hr⟩
  rcases hout p hp with hp | hp
  · rcases mem_append.mp hp with hp | hp
    · exact .inl hp
    obtain rfl := mem_singleton.mp hp
    exact .inr ⟨hself,by simpa using habs⟩
  · exact .inr hp

theorem firstMaximal_mem {all rest : List Declared} {hit : Declared}
    (hsub : ∀ p ∈ rest, p ∈ all) (h : firstMaximal store fuel all rest = some (some hit)) :
    hit ∈ all := by
  induction rest with
  | nil => exact mem_of_head? (some.inj h)
  | cons candidate rest ih => ?_
  rw [firstMaximal] at h
  split at h
  · cases h
  · obtain rfl := some.inj (some.inj h)
    exact hsub _ (by simp)
  · exact ih (fun p hp => hsub p (by simp [hp])) h

/-- What the lenient lookup answers: a declaration on the chain with at most abstract ones below
it, or one off the chain when the chain has at most abstract ones. An abstract answer has no
declaration below it at all. -/
theorem findMethodRecursive_spec {receiver found : ClassId} {m : ClassFileMethod}
    (h : findMethodRecursive store name descriptor fuel receiver = some (some (m,found))) :
    methodAt store name descriptor found = some (m,found) ∧
      ((∃ l, LineageTo store receiver l found ∧ ∀ x ∈ l, ∀ k,
          methodAt store name descriptor x = some (k,x) → k.isAbstract = true ∧ m.isAbstract = false) ∨
        ∀ l x, LineageTo store receiver l x → ∀ k,
          methodAt store name descriptor x = some (k,x) → k.isAbstract = true ∧ m.isAbstract = false) := by
  unfold findMethodRecursive at h
  split at h
  · cases h
  · rename_i hit hchain
    obtain rfl := some.inj (some.inj h)
    obtain ⟨hat,habs,l,hl,hbelow⟩ := findOnChain_concrete hchain
    exact ⟨hat,.inl ⟨l,hl,fun x hx k hk => ⟨hbelow x hx k hk,habs⟩⟩⟩
  rename_i fallback hchain
  obtain ⟨habs,-,hnone,hfirst⟩ := findOnChain_fallback hchain
  have hdefault : ∀ hit : Declared, hit = (m,found) →
      methodAt store name descriptor hit.2 = some hit ∧ hit.1.isAbstract = false →
      methodAt store name descriptor found = some (m,found) ∧ ∀ l x, LineageTo store receiver l x →
        ∀ k, methodAt store name descriptor x = some (k,x) →
          k.isAbstract = true ∧ m.isAbstract = false := by
    rintro hit rfl ⟨hat,hconcrete⟩
    exact ⟨hat,fun l x hx k hk => ⟨habs l x hx k hk,hconcrete⟩⟩
  split at h
  · cases h
  split at h
  · cases h
  · rename_i r hcollect
    obtain ⟨-,hr⟩ := collectDefaults_spec hcollect
    obtain rfl := some.inj h
    rcases hr with hr | ⟨rfl,hr⟩
    · cases fallback with
      | none => cases hr
      | some first => ?_
      obtain rfl := some.inj hr
      obtain ⟨hat,l,hl,hbelow⟩ := hfirst _ rfl rfl
      refine ⟨hat,.inl ⟨l,hl,fun x hx k hk => ?_⟩⟩
      rw [hbelow x hx] at hk
      cases hk
    obtain ⟨hat,-⟩ := hr _ rfl
    refine ⟨hat,.inr fun l x hx k hk => ?_⟩
    rw [hnone rfl rfl l x hx] at hk
    cases hk
  · rename_i candidate _ hcollect
    obtain ⟨hout,-⟩ := collectDefaults_spec hcollect
    have hc := (hout candidate (by simp)).resolve_left (by simp)
    obtain ⟨hat,hoff⟩ := hdefault candidate (some.inj (some.inj h)) hc
    exact ⟨hat,.inr hoff⟩
  rename_i candidates _ _ _ hcollect
  obtain ⟨hout,-⟩ := collectDefaults_spec hcollect
  have hmem := firstMaximal_mem (fun p hp => hp) h
  have hc := (hout _ hmem).resolve_left (by simp)
  obtain ⟨hat,hoff⟩ := hdefault _ rfl hc
  exact ⟨hat,.inr hoff⟩

end
end CratonVM.Runtime
