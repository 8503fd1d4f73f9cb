import CratonVM.ClassLoading.ClassModel

/-!
JVMS 5.4.5 as a relation, and how far the budgeted walk decides it.
-/
namespace CratonVM.ClassLoading
open List Option

/-- The superclasses from a start on are the listed ones and then the target. -/
def Climbs (store : ClassStore) : Option ClassId → List ClassId → ClassId → Prop
  | cur, [], target => cur = some target
  | cur, b::bs, target =>
    cur = some b ∧ ∃ c, store.get b = some c ∧ Climbs store c.superclass bs target

def Between (store : ClassStore) (cId : ClassId) (bs : List ClassId) (aId : ClassId) : Prop :=
  ∃ c, store.get cId = some c ∧ Climbs store c.superclass bs aId ∧ aId ∉ bs

def NeitherPrivate (mc ma : ClassFileMethod) : Prop :=
  mc.isPrivate = false ∧ mc.isStatic = false ∧ ma.isPrivate = false

/-- `mC` overrides `mA`. -/
inductive Overrides (store : ClassStore) :
    ClassFileMethod → ClassId → ClassFileMethod → ClassId → Prop where
  | visible {mc ma : ClassFileMethod} {cId aId : ClassId} (h : NeitherPrivate mc ma)
      (hv : ma.isPublic = true ∨ ma.isProtected = true) : Overrides store mc cId ma aId
  | samePackage {mc ma : ClassFileMethod} {cId aId : ClassId} {c a : Class}
      (h : NeitherPrivate mc ma) (hc : store.get cId = some c) (ha : store.get aId = some a)
      (hp : sameRuntimePackageForOverride store c a = true) : Overrides store mc cId ma aId
  | between {mc ma mb : ClassFileMethod} {cId aId bId : ClassId} {below above : List ClassId}
      {b : Class} (h : NeitherPrivate mc ma) (hpath : Between store cId (below++bId::above) aId)
      (hb : store.get bId = some b) (hm : b.findMethod ma.name ma.descriptor = some mb)
      (hba : Overrides store mb bId ma aId) (hcb : Overrides store mc cId mb bId) :
      Overrides store mc cId ma aId

theorem Climbs.split {store : ClassStore} {cur : Option ClassId} {below above : List ClassId}
    {bId aId : ClassId} (h : Climbs store cur (below++bId::above) aId) :
    Climbs store cur below bId ∧ ∃ b, store.get bId = some b ∧
      Climbs store b.superclass above aId := by
  induction below generalizing cur with
  | nil => exact h
  | cons x below ih =>
    obtain ⟨hcur,c,hc,hrest⟩ := h
    obtain ⟨hbelow,habove⟩ := ih hrest
    exact ⟨⟨hcur,c,hc,hbelow⟩,habove⟩

section
variable {store : ClassStore}

theorem walk_returns (store : ClassStore) (fuel : Nat) :
    (∀ mc cId ma aId budget, 2*budget+2 ≤ fuel → ∃ r rest,
      canOverrideWith store fuel mc cId ma aId budget = some (r,rest) ∧ rest ≤ budget) ∧
    (∀ mc cId ma aId cur budget, 2*budget+1 ≤ fuel → ∃ r rest,
      betweenWith store fuel mc cId ma aId cur budget = some (r,rest) ∧ rest ≤ budget) := by
  induction fuel with
  | zero => exact ⟨fun _ _ _ _ _ h => by omega,fun _ _ _ _ _ _ h => by omega⟩
  | succ fuel ih => ?_
  obtain ⟨ihask,ihscan⟩ := ih
  refine ⟨?_,?_⟩
  · intro mc cId ma aId budget hfuel
    unfold canOverrideWith
    split
    · exact ⟨_,_,rfl,le_rfl⟩
    split
    · exact ⟨_,_,rfl,le_rfl⟩
    split
    · split
      · exact ⟨_,_,rfl,le_rfl⟩
      · exact ihscan mc cId ma aId _ budget (by omega)
    · exact ⟨_,_,rfl,le_rfl⟩
  intro mc cId ma aId cur budget hfuel
  cases cur with
  | none => exact ⟨_,_,rfl,le_rfl⟩
  | some bId => ?_
  cases budget with
  | zero =>
    rw [betweenWith]
    split <;> exact ⟨_,_,rfl,le_rfl⟩
  | succ budget => ?_
  rw [betweenWith]
  split
  · exact ⟨_,_,rfl,le_rfl⟩
  have hnext : ∀ cur rest, rest ≤ budget → ∃ r last,
      betweenWith store fuel mc cId ma aId cur rest = some (r,last) ∧ last ≤ budget+1 := by
    intro cur rest hrest
    obtain ⟨r,last,hrun,hle⟩ := ihscan mc cId ma aId cur rest (by omega)
    exact ⟨r,last,hrun,by omega⟩
  cases hb : store.get bId with
  | none => exact ⟨_,_,rfl,by omega⟩
  | some b => ?_
  dsimp only
  cases hm : b.findMethod ma.name ma.descriptor with
  | none => exact hnext _ _ le_rfl
  | some mb => ?_
  dsimp only
  obtain ⟨r₁,rest₁,hrun₁,hle₁⟩ := ihask mb bId ma aId budget (by omega)
  rw [hrun₁]
  cases r₁ with
  | false => exact hnext _ _ hle₁
  | true => ?_
  dsimp only
  obtain ⟨r₂,rest₂,hrun₂,hle₂⟩ := ihask mc cId mb bId rest₁ (by omega)
  rw [hrun₂]
  cases r₂ with
  | false => exact hnext _ _ (by omega)
  | true => exact ⟨_,_,rfl,by omega⟩

/-- A class between that overrides `mA` and is overridden makes the loop answer "overrides",
also when the budget is used up on the way to it. -/
theorem between_finds {mc ma mb : ClassFileMethod} {cId aId bId : ClassId} {b : Class}
    (hb : store.get bId = some b) (hm : b.findMethod ma.name ma.descriptor = some mb)
    (hba : ∀ budget fuel, 2*budget+2 ≤ fuel →
      ∃ rest, canOverrideWith store fuel mb bId ma aId budget = some (true,rest) ∧ rest ≤ budget)
    (hcb : ∀ budget fuel, 2*budget+2 ≤ fuel →
      ∃ rest, canOverrideWith store fuel mc cId mb bId budget = some (true,rest) ∧ rest ≤ budget)
    {below : List ClassId} {cur : Option ClassId} (hclimb : Climbs store cur below bId)
    (hne : aId ∉ below++[bId]) {budget fuel : Nat} (hfuel : 2*budget+1 ≤ fuel) :
    ∃ rest, betweenWith store fuel mc cId ma aId cur budget = some (true,rest) ∧ rest ≤ budget := by
  induction below generalizing cur budget fuel with
  | nil =>
    obtain rfl : cur = some bId := hclimb
    obtain ⟨fuel,rfl⟩ : ∃ k, fuel = k+1 := ⟨fuel-1,by omega⟩
    have hne : ¬bId = aId := by rintro rfl; simp at hne
    cases budget with
    | zero => exact ⟨0,by rw [betweenWith,if_neg hne],le_rfl⟩
    | succ budget => ?_
    obtain ⟨rest₁,hrun₁,hle₁⟩ := hba budget fuel (by omega)
    obtain ⟨rest₂,hrun₂,hle₂⟩ := hcb rest₁ fuel (by omega)
    refine ⟨rest₂,?_,by omega⟩
    rw [betweenWith,if_neg hne,hb]
    simp [hm,hrun₁,hrun₂]
  | cons x below ih => ?_
  obtain ⟨rfl,c,hc,hrest⟩ := hclimb
  obtain ⟨fuel,rfl⟩ : ∃ k, fuel = k+1 := ⟨fuel-1,by omega⟩
  have hx : ¬x = aId := by rintro rfl; simp at hne
  have hne' : aId ∉ below++[bId] := fun h => hne (mem_cons_of_mem _ h)
  cases budget with
  | zero => exact ⟨0,by rw [betweenWith,if_neg hx],le_rfl⟩
  | succ budget => ?_
  have hnext : ∀ rest ≤ budget, ∃ last,
      betweenWith store fuel mc cId ma aId c.superclass rest = some (true,last) ∧
        last ≤ budget+1 := by
    intro rest hle
    obtain ⟨last,hrun,hle'⟩ : ∃ last,
        betweenWith store fuel mc cId ma aId c.superclass rest = some (true,last) ∧
          last ≤ rest := ih hrest hne' (by omega)
    exact ⟨last,hrun,by omega⟩
  rw [betweenWith,if_neg hx,hc]
  dsimp only
  cases hmx : c.findMethod ma.name ma.descriptor with
  | none => exact hnext budget le_rfl
  | some mx => ?_
  dsimp only
  obtain ⟨r₁,rest₁,hrun₁,hle₁⟩ := (walk_returns store fuel).1 mx x ma aId budget (by omega)
  rw [hrun₁]
  cases r₁ with
  | false => exact hnext rest₁ hle₁
  | true => ?_
  dsimp only
  obtain ⟨r₂,rest₂,hrun₂,hle₂⟩ := (walk_returns store fuel).1 mc cId mx x rest₁ (by omega)
  rw [hrun₂]
  cases r₂ with
  | false => exact hnext rest₂ (by omega)
  | true => exact ⟨_,rfl,by omega⟩

theorem canOverrideWith_succ {fuel budget : Nat} {mc ma : ClassFileMethod} {cId aId : ClassId}
    (h : NeitherPrivate mc ma) : canOverrideWith store (fuel+1) mc cId ma aId budget =
      if ma.isPublic || ma.isProtected then some (true,budget)
      else
        match store.get cId, store.get aId with
        | some c, some a =>
          if sameRuntimePackageForOverride store c a then some (true,budget)
          else betweenWith store fuel mc cId ma aId c.superclass budget
        | _, _ => some (true,budget) := by
  obtain ⟨h1,h2,h3⟩ := h
  rw [canOverrideWith,h1,h2,h3]
  rfl

theorem Overrides.walk_true {mc ma : ClassFileMethod} {cId aId : ClassId}
    (h : Overrides store mc cId ma aId) : ∀ budget fuel, 2*budget+2 ≤ fuel →
      ∃ rest, canOverrideWith store fuel mc cId ma aId budget = some (true,rest) ∧
        rest ≤ budget := by
  induction h with
  | visible h hv =>
    intro budget fuel hfuel
    obtain ⟨fuel,rfl⟩ : ∃ k, fuel = k+1 := ⟨fuel-1,by omega⟩
    rw [canOverrideWith_succ h,if_pos (by simpa using hv)]
    exact ⟨_,rfl,le_rfl⟩
  | samePackage h hc ha hp =>
    intro budget fuel hfuel
    obtain ⟨fuel,rfl⟩ : ∃ k, fuel = k+1 := ⟨fuel-1,by omega⟩
    rw [canOverrideWith_succ h,hc,ha]
    split
    · exact ⟨_,rfl,le_rfl⟩
    simp only [hp,if_true]
    exact ⟨_,rfl,le_rfl⟩
  | between h hpath hb hm _ _ ihba ihcb => ?_
  intro budget fuel hfuel
  obtain ⟨fuel,rfl⟩ : ∃ k, fuel = k+1 := ⟨fuel-1,by omega⟩
  obtain ⟨c,hc,hclimb,hnot⟩ := hpath
  rw [canOverrideWith_succ h,hc]
  split
  · exact ⟨_,rfl,le_rfl⟩
  split
  · rename_i c' a heq _
    obtain rfl := some.inj heq
    split
    · exact ⟨_,rfl,le_rfl⟩
    exact between_finds hb hm ihba ihcb hclimb.split.1
      (fun hmem => hnot (by simp at hmem ⊢; tauto)) (by omega)
  · exact ⟨_,rfl,le_rfl⟩

end

/-- A question of the recursion: whether `mC` overrides `mA`, or whether a class from `cur` on
settles it. -/
inductive Query where
  | ask (mc : ClassFileMethod) (cId : ClassId) (ma : ClassFileMethod) (aId : ClassId)
  | scan (mc : ClassFileMethod) (cId : ClassId) (ma : ClassFileMethod) (aId : ClassId)
      (cur : Option ClassId)

/-- The walk without a budget: its answer and how many classes it looks at, over the nested
questions too. -/
inductive Evaluates (store : ClassStore) : Query → Bool → Nat → Prop where
  | refused {mc ma : ClassFileMethod} {cId aId : ClassId} (h : ¬NeitherPrivate mc ma) :
      Evaluates store (.ask mc cId ma aId) false 0
  | visible {mc ma : ClassFileMethod} {cId aId : ClassId} (h : NeitherPrivate mc ma)
      (hv : ma.isPublic = true ∨ ma.isProtected = true) :
      Evaluates store (.ask mc cId ma aId) true 0
  | samePackage {mc ma : ClassFileMethod} {cId aId : ClassId} {c a : Class}
      (h : NeitherPrivate mc ma) (hc : store.get cId = some c) (ha : store.get aId = some a)
      (hp : sameRuntimePackageForOverride store c a = true) :
      Evaluates store (.ask mc cId ma aId) true 0
  | scan {mc ma : ClassFileMethod} {cId aId : ClassId} {c a : Class} {r : Bool} {k : Nat}
      (h : NeitherPrivate mc ma) (hv : ¬(ma.isPublic = true ∨ ma.isProtected = true))
      (hc : store.get cId = some c) (ha : store.get aId = some a)
      (hp : sameRuntimePackageForOverride store c a = false)
      (hscan : Evaluates store (.scan mc cId ma aId c.superclass) r k) :
      Evaluates store (.ask mc cId ma aId) r k
  | top {mc ma : ClassFileMethod} {cId aId : ClassId} :
      Evaluates store (.scan mc cId ma aId (some aId)) false 0
  | pass {mc ma : ClassFileMethod} {cId aId bId : ClassId} {b : Class} {r : Bool} {k : Nat}
      (hne : bId ≠ aId) (hb : store.get bId = some b)
      (hm : b.findMethod ma.name ma.descriptor = none)
      (hnext : Evaluates store (.scan mc cId ma aId b.superclass) r k) :
      Evaluates store (.scan mc cId ma aId (some bId)) r (k+1)
  | upperFails {mc ma mb : ClassFileMethod} {cId aId bId : ClassId} {b : Class} {r : Bool}
      {k₁ k : Nat} (hne : bId ≠ aId) (hb : store.get bId = some b)
      (hm : b.findMethod ma.name ma.descriptor = some mb)
      (hba : Evaluates store (.ask mb bId ma aId) false k₁)
      (hnext : Evaluates store (.scan mc cId ma aId b.superclass) r k) :
      Evaluates store (.scan mc cId ma aId (some bId)) r (k₁+k+1)
  | lowerFails {mc ma mb : ClassFileMethod} {cId aId bId : ClassId} {b : Class} {r : Bool}
      {k₁ k₂ k : Nat} (hne : bId ≠ aId) (hb : store.get bId = some b)
      (hm : b.findMethod ma.name ma.descriptor = some mb)
      (hba : Evaluates store (.ask mb bId ma aId) true k₁)
      (hcb : Evaluates store (.ask mc cId mb bId) false k₂)
      (hnext : Evaluates store (.scan mc cId ma aId b.superclass) r k) :
      Evaluates store (.scan mc cId ma aId (some bId)) r (k₁+k₂+k+1)
  | found {mc ma mb : ClassFileMethod} {cId aId bId : ClassId} {b : Class} {k₁ k₂ : Nat}
      (hne : bId ≠ aId) (hb : store.get bId = some b)
      (hm : b.findMethod ma.name ma.descriptor = some mb)
      (hba : Evaluates store (.ask mb bId ma aId) true k₁)
      (hcb : Evaluates store (.ask mc cId mb bId) true k₂) :
      Evaluates store (.scan mc cId ma aId (some bId)) true (k₁+k₂+1)

section
variable {store : ClassStore}

def Query.run (store : ClassStore) (fuel budget : Nat) : Query → Answer
  | .ask mc cId ma aId => canOverrideWith store fuel mc cId ma aId budget
  | .scan mc cId ma aId cur => betweenWith store fuel mc cId ma aId cur budget

def Query.depth (budget : Nat) : Query → Nat
  | .ask _ _ _ _ => 2*budget+2
  | .scan _ _ _ _ _ => 2*budget+1

theorem not_neitherPrivate {mc ma : ClassFileMethod} (h : ¬NeitherPrivate mc ma) :
    (mc.isPrivate || mc.isStatic || ma.isPrivate) = true := by
  unfold NeitherPrivate at h
  cases hp : mc.isPrivate <;> cases hs : mc.isStatic <;> cases ha : ma.isPrivate <;> simp_all

theorem Evaluates.run_eq {q : Query} {r : Bool} {k : Nat} (h : Evaluates store q r k) :
    ∀ rest fuel, q.depth (k+rest) ≤ fuel → q.run store fuel (k+rest) = some (r,rest) := by
  induction h with
  | refused h =>
    intro rest fuel hfuel
    obtain ⟨fuel,rfl⟩ : ∃ n, fuel = n+1 := ⟨fuel-1,by simp only [Query.depth] at hfuel; omega⟩
    rw [Query.run,canOverrideWith,if_pos (not_neitherPrivate h),Nat.zero_add]
  | visible h hv =>
    intro rest fuel hfuel
    obtain ⟨fuel,rfl⟩ : ∃ n, fuel = n+1 := ⟨fuel-1,by simp only [Query.depth] at hfuel; omega⟩
    rw [Query.run,canOverrideWith_succ h,if_pos (by simpa using hv),Nat.zero_add]
  | samePackage h hc ha hp =>
    intro rest fuel hfuel
    obtain ⟨fuel,rfl⟩ : ∃ n, fuel = n+1 := ⟨fuel-1,by simp only [Query.depth] at hfuel; omega⟩
    rw [Query.run,canOverrideWith_succ h,hc,ha,Nat.zero_add]
    simp [hp,ite_self]
  | scan h hv hc ha hp hscan ih =>
    intro rest fuel hfuel
    simp only [Query.depth] at hfuel
    obtain ⟨fuel,rfl⟩ : ∃ n, fuel = n+1 := ⟨fuel-1,by omega⟩
    rw [Query.run,canOverrideWith_succ h,if_neg (by simpa using hv),hc,ha]
    simp only [hp,Bool.false_eq_true,if_false]
    exact ih rest fuel (by simp only [Query.depth]; omega)
  | top =>
    intro rest fuel hfuel
    simp only [Query.depth] at hfuel
    obtain ⟨fuel,rfl⟩ : ∃ n, fuel = n+1 := ⟨fuel-1,by omega⟩
    rw [Query.run]
    cases rest <;> rw [Nat.zero_add,betweenWith,if_pos rfl]
  | pass hne hb hm hnext ih =>
    intro rest fuel hfuel
    simp only [Query.depth] at hfuel
    obtain ⟨fuel,rfl⟩ : ∃ n, fuel = n+1 := ⟨fuel-1,by omega⟩
    rw [Query.run,Nat.add_right_comm,betweenWith,if_neg hne,hb]
    simp only [hm]
    exact ih rest fuel (by simp only [Query.depth]; omega)
  | upperFails hne hb hm hba hnext ihba ihnext =>
    rename_i k₁ k
    intro rest fuel hfuel
    simp only [Query.depth] at hfuel
    obtain ⟨fuel,rfl⟩ : ∃ n, fuel = n+1 := ⟨fuel-1,by omega⟩
    have h₁ := ihba (k+rest) fuel (by simp only [Query.depth]; omega)
    have h₂ := ihnext rest fuel (by simp only [Query.depth]; omega)
    simp only [Query.run] at h₁ h₂
    rw [Query.run,show k₁+k+1+rest = k₁+(k+rest)+1 by omega,betweenWith,if_neg hne,hb]
    simp [hm,h₁,h₂]
  | lowerFails hne hb hm hba hcb hnext ihba ihcb ihnext => ?_
  | found hne hb hm hba hcb ihba ihcb =>
    rename_i k₁ k₂
    intro rest fuel hfuel
    simp only [Query.depth] at hfuel
    obtain ⟨fuel,rfl⟩ : ∃ n, fuel = n+1 := ⟨fuel-1,by omega⟩
    have h₁ := ihba (k₂+rest) fuel (by simp only [Query.depth]; omega)
    have h₂ := ihcb rest fuel (by simp only [Query.depth]; omega)
    simp only [Query.run] at h₁ h₂
    rw [Query.run,show k₁+k₂+1+rest = k₁+(k₂+rest)+1 by omega,betweenWith,if_neg hne,hb]
    simp [hm,h₁,h₂]
  rename_i k₁ k₂ k
  intro rest fuel hfuel
  simp only [Query.depth] at hfuel
  obtain ⟨fuel,rfl⟩ : ∃ n, fuel = n+1 := ⟨fuel-1,by omega⟩
  have h₁ := ihba (k₂+(k+rest)) fuel (by simp only [Query.depth]; omega)
  have h₂ := ihcb (k+rest) fuel (by simp only [Query.depth]; omega)
  have h₃ := ihnext rest fuel (by simp only [Query.depth]; omega)
  simp only [Query.run] at h₁ h₂ h₃
  rw [Query.run,show k₁+k₂+k+1+rest = k₁+(k₂+(k+rest))+1 by omega,betweenWith,if_neg hne,hb]
  simp [hm,h₁,h₂,h₃]

/-- `A` is a proper superclass of `C`, all classes up to it are stored and no class comes twice. -/
structure Chain (store : ClassStore) (cId : ClassId) (bs : List ClassId) (aId : ClassId) : Prop where
  path : Between store cId bs aId
  stored : ∃ a, store.get aId = some a
  acyclic : (cId::(bs++[aId])).Nodup

theorem Chain.lower {cId aId bId : ClassId} {below above : List ClassId}
    (h : Chain store cId (below++bId::above) aId) : Chain store cId below bId := by
  obtain ⟨⟨c,hc,hclimb,-⟩,-,hnodup⟩ := h
  obtain ⟨hbelow,b,hb,-⟩ := hclimb.split
  have hsub : (cId::(below++[bId])).Nodup := by
    refine hnodup.sublist ?_
    simp [append_assoc]
  exact ⟨⟨c,hc,hbelow,by
    rw [nodup_cons,nodup_append] at hsub
    exact fun hmem => hsub.2.2.2 bId hmem bId (by simp) rfl⟩,⟨b,hb⟩,hsub⟩

theorem Chain.upper {cId aId bId : ClassId} {below above : List ClassId}
    (h : Chain store cId (below++bId::above) aId) : Chain store bId above aId := by
  obtain ⟨⟨c,hc,hclimb,hnot⟩,hstored,hnodup⟩ := h
  obtain ⟨-,b,hb,habove⟩ := hclimb.split
  refine ⟨⟨b,hb,habove,fun hmem => hnot (by simp [hmem])⟩,hstored,hnodup.sublist ?_⟩
  rw [append_assoc]
  exact (sublist_append_right _ _).trans (sublist_cons_self _ _)

def Query.Sound (store : ClassStore) : Query → Prop
  | .ask mc cId ma aId => ∀ bs, Chain store cId bs aId → Overrides store mc cId ma aId
  | .scan mc cId ma aId cur => ∀ below above, NeitherPrivate mc ma →
      Chain store cId (below++above) aId → Climbs store cur above aId →
      Overrides store mc cId ma aId

theorem Climbs.at_between {bId aId : ClassId} {above : List ClassId} {b : Class}
    (h : Climbs store (some bId) above aId) (hne : bId ≠ aId) (hb : store.get bId = some b) :
    ∃ rest, above = bId::rest ∧ Climbs store b.superclass rest aId := by
  cases above with
  | nil => exact absurd (some.inj h) hne
  | cons x rest =>
    obtain ⟨hx,c,hc,hrest⟩ := h
    obtain rfl := some.inj hx
    obtain rfl := some.inj (hb.symm.trans hc)
    exact ⟨rest,rfl,hrest⟩

theorem Evaluates.sound {q : Query} {r : Bool} {k : Nat} (h : Evaluates store q r k)
    (hr : r = true) : q.Sound store := by
  induction h with
  | refused h => cases hr
  | visible h hv => exact fun bs _ => .visible h hv
  | samePackage h hc ha hp => exact fun bs _ => .samePackage h hc ha hp
  | scan h hv hc ha hp hscan ih =>
    intro bs hchain
    obtain ⟨c,hc',hclimb,-⟩ := hchain.path
    obtain rfl := some.inj (hc.symm.trans hc')
    exact ih hr [] bs h hchain hclimb
  | top => cases hr
  | pass hne hb hm hnext ih | upperFails hne hb hm hba hnext _ ih
    | lowerFails hne hb hm hba hcb hnext _ _ ih =>
    intro below above h hchain hclimb
    obtain ⟨rest,rfl,hrest⟩ := hclimb.at_between hne hb
    exact ih hr (below++[_]) rest h (by simpa using hchain) hrest
  | found hne hb hm hba hcb ihba ihcb =>
    intro below above h hchain hclimb
    obtain ⟨rest,rfl,hrest⟩ := hclimb.at_between hne hb
    exact .between h hchain.path hb hm (ihba rfl rest hchain.upper) (ihcb rfl below hchain.lower)

/-- The most classes a walk looks at with `n` classes strictly between. -/
def walkBound : Nat → Nat
  | 0 => 0
  | n+1 => 3*walkBound n+1

/-- The same for a loop with `m` classes left behind `p` others. -/
def scanBound : (p m : Nat) → Nat
  | _, 0 => 0
  | p, m+1 => walkBound m+walkBound p+scanBound (p+1) m+1

theorem two_mul_scanBound (p m : Nat) :
    2*scanBound p m+walkBound p = walkBound m+walkBound (p+m) := by
  induction m generalizing p with
  | zero => simp [scanBound,walkBound]
  | succ m ih =>
    have h := ih (p+1)
    rw [show p+1+m = p+(m+1) by omega] at h
    simp only [scanBound,walkBound] at h ⊢
    omega

theorem scanBound_zero (n : Nat) : scanBound 0 n = walkBound n := by
  have h := two_mul_scanBound 0 n
  simp only [walkBound,Nat.zero_add] at h
  omega

theorem exists_scan {mc ma : ClassFileMethod} {cId aId : ClassId} {n : Nat}
    (ih : ∀ m < n, ∀ bs : List ClassId, bs.length = m → ∀ mc cId ma aId, Chain store cId bs aId →
      ∃ r k, Evaluates store (.ask mc cId ma aId) r k ∧ k ≤ walkBound m)
    {above : List ClassId} : ∀ {below : List ClassId} {cur : Option ClassId},
      (below++above).length = n → Chain store cId (below++above) aId → Climbs store cur above aId →
      ∃ r k, Evaluates store (.scan mc cId ma aId cur) r k ∧
        k ≤ scanBound below.length above.length := by
  induction above with
  | nil =>
    intro below cur hlen hchain hclimb
    obtain rfl : cur = some aId := hclimb
    exact ⟨false,0,.top,Nat.zero_le _⟩
  | cons bId rest ihrest => ?_
  intro below cur hlen hchain hclimb
  obtain ⟨rfl,b,hb,hrest⟩ := hclimb
  have hne : bId ≠ aId := by
    rintro rfl
    obtain ⟨_,_,_,hnot⟩ := hchain.path
    simp at hnot
  rw [length_append,length_cons] at hlen
  obtain ⟨r,k,hnext,hk⟩ := @ihrest (below++[bId]) b.superclass (by simp; omega)
    (by simpa using hchain) hrest
  rw [length_append,length_singleton] at hk
  rw [length_cons,scanBound]
  cases hm : b.findMethod ma.name ma.descriptor with
  | none => exact ⟨r,k+1,.pass hne hb hm hnext,by omega⟩
  | some mb => ?_
  obtain ⟨r₁,k₁,h₁,hk₁⟩ := ih rest.length (by omega) rest rfl mb bId ma aId hchain.upper
  obtain ⟨r₂,k₂,h₂,hk₂⟩ := ih below.length (by omega) below rfl mc cId mb bId hchain.lower
  cases r₁ with
  | false => exact ⟨r,k₁+k+1,.upperFails hne hb hm h₁ hnext,by omega⟩
  | true =>
    cases r₂ with
    | false => exact ⟨r,k₁+k₂+k+1,.lowerFails hne hb hm h₁ h₂ hnext,by omega⟩
    | true => exact ⟨true,k₁+k₂+1,.found hne hb hm h₁ h₂,by omega⟩

theorem exists_evaluates (n : Nat) : ∀ bs : List ClassId, bs.length = n → ∀ mc cId ma aId,
    Chain store cId bs aId →
      ∃ r k, Evaluates store (.ask mc cId ma aId) r k ∧ k ≤ walkBound n := by
  induction n using Nat.strongRecOn with
  | ind n ih => ?_
  intro bs hlen mc cId ma aId hchain
  obtain ⟨c,hc,hclimb,-⟩ := hchain.path
  obtain ⟨a,ha⟩ := hchain.stored
  by_cases h : NeitherPrivate mc ma
  · by_cases hv : ma.isPublic = true ∨ ma.isProtected = true
    · exact ⟨true,0,.visible h hv,Nat.zero_le _⟩
    cases hp : sameRuntimePackageForOverride store c a with
    | true => exact ⟨true,0,.samePackage h hc ha hp,Nat.zero_le _⟩
    | false =>
      obtain ⟨r,k,hscan,hk⟩ := @exists_scan store mc ma cId aId n ih bs [] c.superclass
        hlen hchain hclimb
      rw [length_nil,scanBound_zero,hlen] at hk
      exact ⟨r,k,.scan h hv hc ha hp hscan,hk⟩
  · exact ⟨false,0,.refused h,Nat.zero_le _⟩

/-- `can_override` with a fresh budget returns and never denies an override. It is exact where the
walk looks at no more classes than the budget has, which is so whenever at most six classes lie
strictly between; a longer walk may run out, and running out answers "overrides". -/
theorem canOverride_rule {mc ma : ClassFileMethod} {cId aId : ClassId} {bs : List ClassId}
    (hchain : Chain store cId bs aId) :
    (∃ r rest, canOverride store mc cId ma aId overrideWalkBudget = some (r,rest) ∧
      (Overrides store mc cId ma aId → r = true) ∧
      (∀ r' k, Evaluates store (.ask mc cId ma aId) r' k → k ≤ overrideWalkBudget →
        (r = true ↔ Overrides store mc cId ma aId))) ∧
    (∃ r k, Evaluates store (.ask mc cId ma aId) r k ∧ k ≤ walkBound bs.length) ∧
    (bs.length ≤ 6 → walkBound bs.length ≤ overrideWalkBudget) := by
  obtain ⟨r,rest,hrun,-⟩ := (walk_returns store (2*overrideWalkBudget+2)).1 mc cId ma aId
    overrideWalkBudget le_rfl
  have hcomplete : Overrides store mc cId ma aId → r = true := by
    intro h
    obtain ⟨rest',hrun',-⟩ := h.walk_true overrideWalkBudget _ le_rfl
    rw [hrun] at hrun'
    exact (Prod.mk.inj (some.inj hrun')).1
  refine ⟨⟨r,rest,hrun,hcomplete,?_⟩,exists_evaluates _ bs rfl mc cId ma aId hchain,?_⟩
  · intro r' k heval hk
    refine ⟨fun hr => ?_,hcomplete⟩
    obtain ⟨m,hm⟩ : ∃ m, overrideWalkBudget = k+m := ⟨overrideWalkBudget-k,by omega⟩
    have hexact := heval.run_eq m (2*overrideWalkBudget+2) (by rw [hm]; exact le_rfl)
    rw [← hm,Query.run,hrun] at hexact
    obtain ⟨rfl,-⟩ := Prod.mk.inj (some.inj hexact)
    exact heval.sound hr bs hchain
  intro h
  have : bs.length = 0 ∨ bs.length = 1 ∨ bs.length = 2 ∨ bs.length = 3 ∨ bs.length = 4 ∨
      bs.length = 5 ∨ bs.length = 6 := by omega
  rcases this with h | h | h | h | h | h | h <;> rw [h] <;> decide

def packagePrivateStore (n : Nat) : ClassStore where
  classes := (List.range n).map fun i => some
    { name := List.replicate (i+1) 'p'++['/','C'],
      superclass := if i = 0 then none else some (i-1),
      methods := [⟨"m","()V",{}⟩] }

/-- The walk over two classes between: the answer is that of the rule. -/
theorem canOverride_rule_twoBetween :
    Chain (packagePrivateStore 4) 3 [2,1] 0 ∧
      ¬Overrides (packagePrivateStore 4) ⟨"m","()V",{}⟩ 3 ⟨"m","()V",{}⟩ 0 := by
  have hchain : Chain (packagePrivateStore 4) 3 [2,1] 0 := by
    refine ⟨⟨_,rfl,⟨rfl,_,rfl,rfl,_,rfl,rfl⟩,by decide⟩,⟨_,rfl⟩,by decide⟩
  refine ⟨hchain,?_⟩
  obtain ⟨⟨r,rest,hrun,hcomplete,-⟩,-⟩ :=
    @canOverride_rule _ ⟨"m","()V",{}⟩ ⟨"m","()V",{}⟩ 3 0 [2,1] hchain
  have hfalse : canOverride (packagePrivateStore 4) ⟨"m","()V",{}⟩ 3 ⟨"m","()V",{}⟩ 0
      overrideWalkBudget = some (false,509) := by decide
  rw [hrun] at hfalse
  intro h
  rw [hcomplete h] at hfalse
  cases hfalse

/-- With ten classes between the budget runs out on the way: the answer is "overrides", and the
relation does not hold. -/
theorem canOverride_exhausts :
    Chain (packagePrivateStore 12) 11 [10,9,8,7,6,5,4,3,2,1] 0 ∧
      (∀ id ∈ [11,0], ((packagePrivateStore 12).get id).bind (Class.findMethod · "m" "()V") =
        some ⟨"m","()V",{}⟩) ∧
      canOverride (packagePrivateStore 12) ⟨"m","()V",{}⟩ 11 ⟨"m","()V",{}⟩ 0
        overrideWalkBudget = some (true,0) ∧
      ¬Overrides (packagePrivateStore 12) ⟨"m","()V",{}⟩ 11 ⟨"m","()V",{}⟩ 0 := by
  refine ⟨⟨⟨_,rfl,?_,by decide⟩,⟨_,rfl⟩,by decide⟩,by decide,by decide,?_⟩
  · exact ⟨rfl,_,rfl,rfl,_,rfl,rfl,_,rfl,rfl,_,rfl,rfl,_,rfl,rfl,_,rfl,rfl,_,rfl,rfl,_,rfl,rfl,_,rfl,
      rfl,_,rfl,rfl⟩
  intro h
  obtain ⟨rest,hrun,-⟩ := h.walk_true 1100 2202 (by omega)
  have hfalse : canOverrideWith (packagePrivateStore 12) 2202 ⟨"m","()V",{}⟩ 11 ⟨"m","()V",{}⟩ 0
      1100 = some (false,77) := by decide
  rw [hrun] at hfalse
  cases hfalse

end
end CratonVM.ClassLoading
