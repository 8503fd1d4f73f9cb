import CratonVM.ClassLoading.ConstraintHistory

/-!
Every call keeps the table in step with the history, and which calls report exactly the
conflicts of the history.
-/
namespace CratonVM.ClassLoading
open UnionFind Relation Option Prod
variable {c : LoaderConstraints} {h : History} {name : String} {l : LoaderKey}

theorem Tracks.hold {c' : LoaderConstraints}
    {cls : ClassKey} {g : Nat} (t : Tracks c h) (w : WellFormed c')
    (hg : c.groupOf name l = some g) (hgroup : ∀ n k, c'.groupOf n k = c.groupOf n k)
    (hpin : ∀ j, pinnedOf c'.groups j = if j = g then some cls else pinnedOf c.groups j)
    (hfree : ∀ k, pinnedOf c.groups g = some k → k = cls) :
    Tracks c' (h.hold name l cls) ∧ (Settled c h → Settled c' (h.hold name l cls)) := by
  have hnamed := (t.tracked name l).mp (by simp [hg])
  refine ⟨⟨w,?_,t.past,t.ends,?_,?_,?_,?_⟩,?_⟩
  · intro n k; rw [hgroup]; exact t.tracked n k
  · rintro n x k (hx | ⟨rfl,rfl,rfl⟩)
    · exact t.held n x k hx
    · exact hnamed
  · intro n a b g₁ g₂ h1 h2
    rw [hgroup] at h1 h2
    exact t.groups n a b g₁ g₂ h1 h2
  · intro n n' a b g₁ h1 h2
    rw [hgroup] at h1 h2
    exact t.apart n n' a b g₁ h1 h2
  · intro n k g' j hk hj
    rw [hgroup] at hk
    rw [hpin] at hj
    by_cases hgg : g' = g
    · subst hgg
      rw [if_pos rfl] at hj
      obtain rfl := t.apart n name k l g' hk hg
      exact ⟨h.node l,(t.groups n k l g' g' hk hg).mp rfl,.inr ⟨rfl,rfl,(some.inj hj).symm⟩⟩
    rw [if_neg hgg] at hj
    obtain ⟨x,h1,h2⟩ := t.pins n k g' j hk hj
    exact ⟨x,h1,.inl h2⟩
  intro s
  have hold_pin : ∀ x k, h.Chain name (h.node l) x → h.Pinned name x k → k = cls := by
    intro x k hc hp
    exact hfree k (s.complete name l g x k hg hc hp)
  refine ⟨?_,?_⟩
  · intro n k g' x j hk hc hp
    rw [hgroup] at hk
    rw [hpin]
    rcases hp with hp | ⟨rfl,rfl,rfl⟩
    · have hj := s.complete n k g' x j hk hc hp
      by_cases hgg : g' = g
      · subst hgg
        rw [if_pos rfl,hfree j hj]
      · rw [if_neg hgg]; exact hj
    · rw [if_pos ((t.groups n k l g' g hk hg).mpr hc)]
  intro n x y j k hc hj hk
  rcases hj with hj | ⟨rfl,rfl,rfl⟩ <;> rcases hk with hk | ⟨hn,hy,hk⟩
  · exact s.agree n x y j k hc hj hk
  · subst hn; subst hy; subst hk
    exact hold_pin x j (.symm _ _ hc) hj
  · exact (hold_pin y k hc hk).symm
  · exact hk.symm

theorem Tracks.unload (t : Tracks c h)
    (deadLoader : LoaderKey → Bool) (deadClass : ClassKey → Bool) :
    Tracks (c.forget deadLoader deadClass).2 (h.unload deadLoader deadClass) ∧
      (Settled c h →
        Settled (c.forget deadLoader deadClass).2 (h.unload deadLoader deadClass)) := by
  obtain ⟨w,ρ,hgroup,hinj,hpin⟩ := forget_spec t.wf deadLoader deadClass
  -- A row that is left belongs to a live loader, whose node has not changed.
  have hlive : ∀ n l g, (c.forget deadLoader deadClass).2.groupOf n l = some g →
      deadLoader l = false ∧ (h.unload deadLoader deadClass).node l = h.node l ∧
        ∃ g₀, c.groupOf n l = some g₀ ∧ ρ g₀ = g := by
    intro n l g hg
    rw [hgroup] at hg
    cases hd : deadLoader l with
    | true => simp [hd] at hg
    | false =>
      simp only [hd,Bool.false_eq_true,if_false,map_eq_some_iff] at hg
      exact ⟨rfl,by simp [History.node,History.unload,hd],hg⟩
  refine ⟨⟨w,?_,?_,t.ends,?_,?_,?_,?_⟩,?_⟩
  · intro n l
    rw [hgroup]
    cases hd : deadLoader l with
    | true =>
      simp only [if_true,isSome_none,Bool.false_eq_true,false_iff]
      intro hn
      have hle := t.past n l (h.epoch l+1) (by simpa [History.node,History.unload,hd] using hn)
      omega
    | false =>
      simp only [Bool.false_eq_true,if_false,isSome_map]
      rw [t.tracked]
      simp [History.node,History.unload,hd]
  · intro n l e hn
    have hle := t.past n l e hn
    simp only [History.unload]
    split <;> omega
  · rintro n x k ⟨hp,_⟩
    exact t.held n x k hp
  · intro n a b g g' ha hb
    obtain ⟨da,ea,ga,hga,rfl⟩ := hlive n a g ha
    obtain ⟨db,eb,gb,hgb,rfl⟩ := hlive n b g' hb
    rw [ea,eb]
    change ρ ga = ρ gb ↔ h.Chain n (h.node a) (h.node b)
    rw [← t.groups n a b ga gb hga hgb]
    exact ⟨hinj n a n b ga gb da db hga hgb,congrArg ρ⟩
  · intro n n' a b g ha hb
    obtain ⟨da,_,ga,hga,rfl⟩ := hlive n a g ha
    obtain ⟨db,_,gb,hgb,heq⟩ := hlive n' b _ hb
    obtain rfl := hinj n' b n a gb ga db da hgb hga heq
    exact t.apart n n' a b gb hga hgb
  · intro n l g k hg hp
    obtain ⟨dl,el,g₀,hg₀,rfl⟩ := hlive n l g hg
    rw [hpin n l g₀ dl hg₀,filter_eq_some_iff] at hp
    obtain ⟨x,h1,h2⟩ := t.pins n l g₀ k hg₀ hp.1
    rw [el]
    exact ⟨x,h1,h2,by simpa using hp.2⟩
  intro s
  refine ⟨?_,?_⟩
  · rintro n l g x k hg hc ⟨hp,hk⟩
    obtain ⟨dl,el,g₀,hg₀,rfl⟩ := hlive n l g hg
    rw [el] at hc
    rw [hpin n l g₀ dl hg₀,filter_eq_some_iff]
    exact ⟨s.complete n l g₀ x k hg₀ hc hp,by simpa using hk⟩
  rintro n x y j k hc ⟨hj,_⟩ ⟨hk,_⟩
  exact s.agree n x y j k hc hj hk

theorem tracks_recordAll (t : Tracks c h)
    (v : Option LoaderConstraintViolation) : Tracks (c.recordAll v) h := by
  cases v with
  | none => exact t
  | some v =>
    exact ⟨⟨t.wf.rooted,t.wf.rows,t.wf.keys,t.wf.count⟩,t.tracked,t.past,t.ends,t.held,t.groups,
      t.apart,t.pins⟩

theorem settled_recordAll (s : Settled c h)
    (v : Option LoaderConstraintViolation) : Settled (c.recordAll v) h := by
  cases v with
  | none => exact s
  | some v => exact ⟨s.complete,s.agree⟩

theorem pinOf_recordAll (c : LoaderConstraints) (v : Option LoaderConstraintViolation)
    (n : String) (l : LoaderKey) : (c.recordAll v).pinOf n l = c.pinOf n l := by
  cases v with
  | none => rfl
  | some v => rfl

theorem Touched.pinOf {c' : LoaderConstraints} {g : Nat}
    (w : WellFormed c) (ht : Touched c c' name l g) (n : String) (k : LoaderKey) :
    c'.pinOf n k = c.pinOf n k := by
  cases hg : c'.groupOf n k with
  | none => ?_
  | some g' =>
    rcases ht.cases hg with hg' | ⟨rfl,rfl,rfl,hnone⟩
    · simp [LoaderConstraints.pinOf,hg,hg',ht.pins g' (groupOf_root w hg').2]
    · simp [LoaderConstraints.pinOf,hg,hnone,(ht.fresh hnone).2]
  have hne : ¬ (n = name ∧ k = l) := by
    rintro ⟨rfl,rfl⟩
    rw [ht.here] at hg; cases hg
  have hc := ht.other n k hne
  simp [LoaderConstraints.pinOf,hg,← hc]

theorem impose_spec (t : Tracks c h) (name : String)
    (a b : LoaderKey) :
    (c.impose name a b).1 = disagreement name (c.pinOf name a) (c.pinOf name b) ∧
      Tracks (c.impose name a b).2 (((h.touch name a).touch name b).join name a b) ∧
      (Settled c h → (c.impose name a b).1 = none →
        Settled (c.impose name a b).2 (((h.touch name a).touch name b).join name a b)) ∧
      (c.impose name a b).2.pinOf name a = (c.pinOf name a).or (c.pinOf name b) := by
  have ta := groupFor_touched t.wf name a
  generalize hca : c.groupFor name a = ra at ta
  obtain ⟨ga,c₁⟩ := ra
  have t₁ := t.touch ta
  have tb := groupFor_touched t₁.wf name b
  generalize hcb : c₁.groupFor name b = rb at tb
  obtain ⟨gb,c₂⟩ := rb
  have t₂ := t₁.touch tb
  simp only at ta t₁ tb t₂
  have hb := tb.here
  have ha : c₂.groupOf name a = some ga := by
    by_cases hab : a = b
    · subst hab
      rw [tb.here,← tb.old ga ta.here]
    · rw [tb.other name a (fun hx => hab hx.2),ta.here]
  have hpin : ∀ l, c.pinOf name l = c₂.pinOf name l := by
    intro l
    rw [tb.pinOf t₁.wf,ta.pinOf t.wf]
  have hpa : c₂.pinOf name a = pinnedOf c₂.groups ga := by simp [LoaderConstraints.pinOf,ha]
  have hpb : c₂.pinOf name b = pinnedOf c₂.groups gb := by simp [LoaderConstraints.pinOf,hb]
  rw [hpin a,hpin b,hpa,hpb]
  simp only [LoaderConstraints.impose,hca,hcb]
  by_cases hgg : ga = gb
  · subst hgg
    obtain ⟨tj,sj⟩ := t₂.join_same ha hb
    rw [if_pos rfl]
    refine ⟨?_,tj,fun s _ => sj ((s.touch t ta).touch t₁ tb),?_⟩
    · rw [eq_comm,disagreement_eq_none]
      intro x y hx hy
      rw [hx] at hy
      exact some.inj hy
    · rw [hpa,Option.or_self]
  rw [if_neg hgg]
  refine ⟨rfl,tracks_recordAll (t₂.link ha hb hgg) _,?_,?_⟩
  · intro s hnone
    refine settled_recordAll ?_ _
    exact ((s.touch t ta).touch t₁ tb).link t₂ ha hb hgg ((disagreement_eq_none).mp hnone)
  rw [pinOf_recordAll]
  simp [LoaderConstraints.pinOf,groupOf_link t₂.wf ha hb hgg,ha,map_some,
    bind_some,pinnedOf_link (groupOf_root t₂.wf ha).2]

theorem wellFormed_setPinned (w : WellFormed c) (g : Nat)
    (p : Option ClassKey) : WellFormed { c with groups := setPinned c.groups g p } := by
  refine ⟨⟨?_,?_⟩,?_,w.keys,w.count⟩
  · intro i hi
    simp only [parentOf_setPinned,length_setPinned] at hi ⊢
    exact w.rooted.inside i hi
  · intro i hi
    simp only [parentOf_setPinned,length_setPinned] at hi ⊢
    exact w.rooted.climbs i hi
  intro n l i hi
  simp only [length_setPinned]
  exact w.rows n l i hi

theorem groupOf_setPinned (w : WellFormed c) (g : Nat)
    (p : Option ClassKey) (n : String) (l : LoaderKey) :
    LoaderConstraints.groupOf { c with groups := setPinned c.groups g p } n l =
      c.groupOf n l := by
  simp only [LoaderConstraints.groupOf]
  congr 1
  funext i
  apply (wellFormed_setPinned w g p).rooted.rootOf_eq
  rw [parentOf_setPinned]
  exact w.rooted.climbs_rootOf i

theorem pin_spec (t : Tracks c h) (name : String)
    (l : LoaderKey) (cls : ClassKey) :
    (c.pin name l cls).1 = disagreement name (c.pinOf name l) (some cls) ∧
      Tracks (c.pin name l cls).2 (h.record (c.pin name l cls).1 (.pin name l cls)) ∧
      (Settled c h →
        Settled (c.pin name l cls).2 (h.record (c.pin name l cls).1 (.pin name l cls))) := by
  have tl := groupFor_touched t.wf name l
  generalize hcl : c.groupFor name l = rl at tl
  obtain ⟨g,c₁⟩ := rl
  have t₁ := t.touch tl
  simp only at tl t₁
  have hg := tl.here
  have hpl : c.pinOf name l = pinnedOf c₁.groups g := by
    rw [← tl.pinOf t.wf]
    simp [LoaderConstraints.pinOf,hg]
  rw [hpl]
  simp only [LoaderConstraints.pin,hcl]
  cases hp : pinnedOf c₁.groups g with
  | none =>
    have hset := pinnedOf_setPinned (groupOf_root t₁.wf hg).2 (some cls)
    obtain ⟨th,sh⟩ := t₁.hold (wellFormed_setPinned t₁.wf g (some cls)) hg
      (groupOf_setPinned t₁.wf g (some cls)) hset (by rw [hp]; intro k hk; cases hk)
    simp only [disagreement,History.record,if_true]
    exact ⟨trivial,th,fun s => sh (s.touch t tl)⟩
  | some existing => ?_
  by_cases hne : existing = cls
  · subst hne
    have hsame : ∀ j, pinnedOf c₁.groups j = if j = g then some existing
        else pinnedOf c₁.groups j := by
      intro j
      by_cases hj : j = g <;> simp [hj,hp]
    obtain ⟨th,sh⟩ := t₁.hold t₁.wf hg (fun _ _ => rfl) hsame
      (by rw [hp]; intro k hk; exact (some.inj hk).symm)
    simp only [disagreement,ne_eq,not_true_eq_false,if_false,History.record,if_true]
    exact ⟨trivial,th,fun s => sh (s.touch t tl)⟩
  simp only [disagreement,ne_eq,hne,not_false_eq_true,if_true,History.record,
    reduceCtorEq,if_false]
  exact ⟨trivial,tracks_recordAll t₁ (some _),
    fun s => settled_recordAll (s.touch t tl) (some _)⟩

theorem touch_of_named
    (hn : h.Named name (h.node l)) : h.touch name l = h := by
  have hnamed : (fun n x => h.Named n x ∨ (n = name ∧ x = h.node l)) = h.Named := by
    funext n x
    refine propext ⟨?_,.inl⟩
    rintro (hx | ⟨rfl,rfl⟩)
    · exact hx
    · exact hn
  simp [History.touch,hnamed]

theorem pinIfConstrained_cases (t : Tracks c h)
    (name : String) (l : LoaderKey) (cls : ClassKey) :
    (h.Named name (h.node l) ∧ c.pinIfConstrained name l cls = c.pin name l cls ∧
      ∀ r, h.record r (.pinIfConstrained name l cls) = h.record r (.pin name l cls)) ∨
    (¬ h.Named name (h.node l) ∧ c.pinIfConstrained name l cls = (none,c) ∧
      ∀ r, h.record r (.pinIfConstrained name l cls) = h) := by
  by_cases hn : h.Named name (h.node l)
  · have hrow : (c.row name l).isSome := by
      rw [row_isSome_iff_groupOf]; exact (t.tracked name l).mpr hn
    have hpairs : 0 < c.pairs := by rw [t.wf.count]; exact rowCount_pos hrow
    refine .inl ⟨hn,?_,?_⟩
    · have hne : (c.pairs == 0) = false := by
        simp only [beq_eq_false_iff_ne]; omega
      simp [LoaderConstraints.pinIfConstrained,LoaderConstraints.isEmpty,hne,
        isSome_iff_ne_none.mp hrow]
    intro r
    simp [History.record,hn,true_and,touch_of_named hn]
  have hrow : c.row name l = none := by
    cases hr : c.row name l with
    | none => rfl
    | some i =>
      refine absurd ((t.tracked name l).mp ?_) hn
      rw [← row_isSome_iff_groupOf,hr]; rfl
  refine .inr ⟨hn,?_,?_⟩
  · simp [LoaderConstraints.pinIfConstrained,hrow]
  intro r
  simp [History.record,hn,false_and]

theorem step_tracks (t : Tracks c h) (call : Call) :
    Tracks (step (c,h) call).1 (step (c,h) call).2 := by
  cases call with
  | impose name a b => exact (impose_spec t name a b).2.1
  | pin name l cls => exact (pin_spec t name l cls).2.1
  | pinIfConstrained name l cls => ?_
  | forget deadLoader deadClass => exact (t.unload deadLoader deadClass).1
  rcases pinIfConstrained_cases t name l cls with ⟨_,h1,h2⟩ | ⟨_,h1,h2⟩
  · simp only [step,LoaderConstraints.call,h1,h2]
    exact (pin_spec t name l cls).2.1
  simp only [step,LoaderConstraints.call,h1,h2]
  exact t

/-- The one call that can leave a component with two live pins. -/
def ConflictingMerge (c : LoaderConstraints) : Call → Prop
  | .impose name a b => ∃ x y, (c.requiredClass name a).1 = some x ∧
      (c.requiredClass name b).1 = some y ∧ x ≠ y
  | _ => False

theorem conflictingMerge_iff (t : Tracks c h)
    (name : String) (a b : LoaderKey) :
    ConflictingMerge c (.impose name a b) ↔ (c.impose name a b).1.isSome := by
  rw [(impose_spec t name a b).1,disagreement_isSome]
  simp only [ConflictingMerge,requiredClass_eq t.wf,LoaderConstraints.pinOf]

theorem step_settled (t : Tracks c h) (s : Settled c h)
    {call : Call} (hcall : ¬ ConflictingMerge c call) :
    Settled (step (c,h) call).1 (step (c,h) call).2 := by
  cases call with
  | impose name a b =>
    rw [conflictingMerge_iff t,not_isSome_iff_eq_none] at hcall
    exact (impose_spec t name a b).2.2.1 s hcall
  | pin name l cls => exact (pin_spec t name l cls).2.2 s
  | pinIfConstrained name l cls => ?_
  | forget deadLoader deadClass => exact (t.unload deadLoader deadClass).2 s
  rcases pinIfConstrained_cases t name l cls with ⟨_,h1,h2⟩ | ⟨_,h1,h2⟩
  · simp only [step,LoaderConstraints.call,h1,h2]
    exact (pin_spec t name l cls).2.2 s
  simp only [step,LoaderConstraints.call,h1,h2]
  exact s

theorem exec_append (calls : List Call) (call : Call) :
    exec (calls ++ [call]) = step (exec calls) call := by simp [exec]

theorem exec_tracks (calls : List Call) : Tracks (exec calls).1 (exec calls).2 := by
  induction calls using List.reverseRecOn with
  | nil => exact tracks_new
  | append_singleton calls call ih =>
    rw [exec_append]
    exact step_tracks ih call

/-- No imposition of the run meets two groups that are pinned to different classes. -/
def NoConflictingMerge (calls : List Call) : Prop :=
  ∀ pre call post, calls = pre ++ call :: post → ¬ ConflictingMerge (exec pre).1 call

variable {calls : List Call}

theorem NoConflictingMerge.init {post : List Call}
    (h : NoConflictingMerge (calls ++ post)) : NoConflictingMerge calls := by
  intro pre call rest heq
  exact h pre call (rest ++ post) (by simp [heq])

theorem exec_settled (h : NoConflictingMerge calls) :
    Settled (exec calls).1 (exec calls).2 := by
  induction calls using List.reverseRecOn with
  | nil => exact settled_new
  | append_singleton calls call ih =>
    rw [exec_append]
    exact step_settled (exec_tracks calls) (ih h.init) (h calls call [] rfl)

/-- A call reports a violation exactly when the component it asks for would be pinned to two
different live classes. -/
def ReportsExactly (c : LoaderConstraints) (h : History) (call : Call) : Prop :=
  (c.call call).1.isSome ↔
    ∃ name l, call.target = some (name,l) ∧ (h.record none call).Conflicted name l

section
variable (t : Tracks c h)
include t

theorem pinOf_of_chain (s : Settled c h) {x : Node} {k : ClassKey}
    (hc : h.Chain name (h.node l) x) (hp : h.Pinned name x k) : c.pinOf name l = some k := by
  by_cases hn : h.Named name (h.node l)
  · obtain ⟨g,hg⟩ := isSome_iff_exists.mp ((t.tracked name l).mpr hn)
    exact (pinOf_eq_some).mpr ⟨g,hg,s.complete name l g x k hg hc hp⟩
  have heq := t.chain_of_unnamed hn hc
  subst heq
  exact absurd (t.held _ _ _ hp) hn

theorem chain_of_pinOf {k : ClassKey} (hp : c.pinOf name l = some k) :
    ∃ x, h.Chain name (h.node l) x ∧ h.Pinned name x k := by
  obtain ⟨g,hg,hk⟩ := (pinOf_eq_some).mp hp
  exact t.pins name l g k hg hk

theorem conflicted_of_merge {a b : LoaderKey} {x y : ClassKey} (hx : c.pinOf name a = some x)
    (hy : c.pinOf name b = some y) (hxy : x ≠ y) :
    (((h.touch name a).touch name b).join name a b).Conflicted name a := by
  obtain ⟨u,hu,hpu⟩ := chain_of_pinOf t hx
  obtain ⟨v,hv,hpv⟩ := chain_of_pinOf t hy
  refine ⟨u,v,x,y,?_,?_,hpu,hpv,hxy⟩
  · exact (chain_join _ name a b _ _).mpr (.inl hu)
  · exact (chain_join _ name a b _ _).mpr (.inr (.inl ⟨.refl _,hv⟩))

theorem impose_reportsExactly
    (s : Settled c h) (name : String) (a b : LoaderKey) :
    ReportsExactly c h (.impose name a b) := by
  have hreport : (c.call (.impose name a b)).1 =
      disagreement name (c.pinOf name a) (c.pinOf name b) := (impose_spec t name a b).1
  unfold ReportsExactly
  rw [hreport,disagreement_isSome]
  constructor
  · rintro ⟨x,y,hx,hy,hxy⟩
    exact ⟨name,a,rfl,conflicted_of_merge t hx hy hxy⟩
  rintro ⟨n,l,htarget,x,y,j,k,hcx,hcy,hj,hk,hjk⟩
  obtain ⟨rfl,rfl⟩ := mk.inj (some.inj htarget)
  -- Each of the two pins was in the component of `a` or in that of `b` before.
  have hside : ∀ z i, (((h.touch name a).touch name b).join name a b).Chain name (h.node a) z →
      h.Pinned name z i →
      (h.Chain name (h.node a) z ∧ c.pinOf name a = some i) ∨
        (h.Chain name (h.node b) z ∧ c.pinOf name b = some i) := by
    intro z i hz hi
    rcases (chain_join _ name a b _ _).mp hz with hz | ⟨_,hz⟩ | ⟨_,hz⟩
    · exact .inl ⟨hz,pinOf_of_chain t s hz hi⟩
    · exact .inr ⟨hz,pinOf_of_chain t s hz hi⟩
    · exact .inl ⟨hz,pinOf_of_chain t s hz hi⟩
  have hagree : ∀ {l : LoaderKey}, c.pinOf name l = some j → c.pinOf name l = some k → False := by
    intro l h1 h2
    rw [h1] at h2
    exact hjk (some.inj h2)
  rcases hside x j hcx hj with ⟨_,hx⟩ | ⟨_,hx⟩ <;> rcases hside y k hcy hk with ⟨_,hy⟩ | ⟨_,hy⟩
  · exact (hagree hx hy).elim
  · exact ⟨j,k,hx,hy,hjk⟩
  · exact ⟨k,j,hy,hx,hjk.symm⟩
  · exact (hagree hx hy).elim

theorem pin_reportsExactly
    (s : Settled c h) (name : String) (l : LoaderKey) (cls : ClassKey) :
    ReportsExactly c h (.pin name l cls) := by
  have hreport : (c.call (.pin name l cls)).1 =
      disagreement name (c.pinOf name l) (some cls) := (pin_spec t name l cls).1
  unfold ReportsExactly
  rw [hreport,disagreement_isSome]
  have hrecord : h.record none (.pin name l cls) = (h.touch name l).hold name l cls := by
    simp [History.record]
  rw [hrecord]
  constructor
  · rintro ⟨x,y,hx,hy,hxy⟩
    obtain rfl := some.inj hy
    obtain ⟨u,hu,hpu⟩ := chain_of_pinOf t hx
    exact ⟨name,l,rfl,u,h.node l,x,cls,hu,.refl _,.inl hpu,.inr ⟨rfl,rfl,rfl⟩,hxy⟩
  rintro ⟨n,l',htarget,x,y,j,k,hcx,hcy,hj,hk,hjk⟩
  obtain ⟨rfl,rfl⟩ := mk.inj (some.inj htarget)
  change h.Chain name (h.node l) x at hcx
  rcases hj with hj | ⟨_,_,rfl⟩ <;> rcases hk with hk | ⟨_,_,rfl⟩
  · have h1 := pinOf_of_chain t s hcx hj
    rw [pinOf_of_chain t s hcy hk] at h1
    exact absurd (some.inj h1).symm hjk
  · exact ⟨j,k,pinOf_of_chain t s hcx hj,rfl,hjk⟩
  · exact ⟨k,j,pinOf_of_chain t s hcy hk,rfl,hjk.symm⟩
  · exact absurd rfl hjk

theorem call_reportsExactly
    (s : Settled c h) (call : Call) : ReportsExactly c h call := by
  cases call with
  | impose name a b => exact impose_reportsExactly t s name a b
  | pin name l cls => exact pin_reportsExactly t s name l cls
  | pinIfConstrained name l cls => ?_
  | forget deadLoader deadClass =>
    simp [ReportsExactly,LoaderConstraints.call,Call.target]
  have hpin := pin_reportsExactly t s name l cls
  rcases pinIfConstrained_cases t name l cls with ⟨_,h1,h2⟩ | ⟨hn,h1,h2⟩
  · simpa only [ReportsExactly,LoaderConstraints.call,h1,h2,Call.target] using hpin
  simp only [ReportsExactly,LoaderConstraints.call,h1,h2,isSome_none,
    Bool.false_eq_true,false_iff]
  rintro ⟨n,l',htarget,x,y,j,k,hcx,_,hj,_⟩
  obtain ⟨rfl,rfl⟩ := mk.inj (some.inj htarget)
  have heq := t.chain_of_unnamed hn hcx
  subst heq
  exact hn (t.held _ _ _ hj)

theorem not_reportsExactly_of_merge {a b : LoaderKey} {x y : ClassKey} (hx : c.pinOf name a = some x)
    (hy : c.pinOf name b = some y) (hxy : x ≠ y) :
    ¬ ReportsExactly (step (c,h) (.impose name a b)).1 (step (c,h) (.impose name a b)).2
      (.pin name a x) := by
  obtain ⟨_,t',_,hpin⟩ := impose_spec t name a b
  rw [hx,hy,some_or] at hpin
  have hreport : ((step (c,h) (.impose name a b)).1.call (.pin name a x)).1 = none := by
    refine (pin_spec t' name a x).1.trans ?_
    rw [hpin,disagreement_eq_none]
    intro u v hu hv
    rw [some.inj hu.symm,some.inj hv.symm]
  -- Both old pins are still in the component when `x` is pinned once more.
  obtain ⟨u,v,j,k,hu,hv,hj,hk,hjk⟩ := conflicted_of_merge t hx hy hxy
  intro hexact
  have hsome := hexact.mpr ⟨name,a,rfl,by
    exact ⟨u,v,j,k,hu,hv,.inl hj,.inl hk,hjk⟩⟩
  rw [hreport] at hsome
  cases hsome

end

/-- Every call that could come next in the run, or right after it, reports exactly the
conflicts of the history, and `requiredClass` is the pin of the loader's component. -/
def Faithful (calls : List Call) : Prop :=
  ∀ pre post, calls = pre ++ post →
    (∀ call, ReportsExactly (exec pre).1 (exec pre).2 call) ∧
    ∀ name l k, ((exec pre).1.requiredClass name l).1 = some k ↔
      ∃ x, (exec pre).2.Chain name ((exec pre).2.node l) x ∧ (exec pre).2.Pinned name x k

def NoViolation (calls : List Call) : Prop :=
  ∀ pre call post, calls = pre ++ call :: post → ((exec pre).1.call call).1 = none

theorem NoViolation.noConflictingMerge (h : NoViolation calls) :
    NoConflictingMerge calls := by
  intro pre call post heq hmerge
  cases call with
  | impose name a b =>
    rw [conflictingMerge_iff (exec_tracks pre)] at hmerge
    have hnone : ((exec pre).1.impose name a b).1 = none := h pre _ post heq
    simp [hnone] at hmerge
  | pin name l cls => exact hmerge
  | pinIfConstrained name l cls => exact hmerge
  | forget deadLoader deadClass => exact hmerge

theorem faithful_of_noConflictingMerge (h : NoConflictingMerge calls) :
    Faithful calls := by
  intro pre post heq
  subst heq
  have t := exec_tracks pre
  have s := exec_settled h.init
  refine ⟨call_reportsExactly t s,?_⟩
  intro name l k
  rw [requiredClass_eq t.wf]
  exact ⟨chain_of_pinOf t,fun ⟨_,hc,hp⟩ => pinOf_of_chain t s hc hp⟩

theorem noConflictingMerge_of_faithful (h : Faithful calls) :
    NoConflictingMerge calls := by
  intro pre call post heq hmerge
  cases call with
  | impose name a b => ?_
  | pin name l cls => exact hmerge
  | pinIfConstrained name l cls => exact hmerge
  | forget deadLoader deadClass => exact hmerge
  have t := exec_tracks pre
  obtain ⟨x,y,hx,hy,hxy⟩ := hmerge
  rw [requiredClass_eq t.wf] at hx hy
  have hexact := (h (pre ++ [.impose name a b]) post (by simp [heq])).1 (.pin name a x)
  rw [exec_append] at hexact
  exact not_reportsExactly_of_merge t hx hy hxy hexact

/-- In every run two live loaders share a group for a name exactly when a chain of imposed
constraints connects them, and a run without a report leaves every component in agreement.
The reports and `requiredClass` follow the history exactly in the runs that never merge two
groups pinned to different classes. -/
theorem constraints_represent_history (calls : List Call) :
    (∀ name a b, a ≠ b →
      ((∃ g, (exec calls).1.groupOf name a = some g ∧ (exec calls).1.groupOf name b = some g) ↔
        (exec calls).2.Chain name ((exec calls).2.node a) ((exec calls).2.node b))) ∧
    (NoViolation calls → ∀ name x y j k, (exec calls).2.Chain name x y →
      (exec calls).2.Pinned name x j → (exec calls).2.Pinned name y k → j = k) ∧
    (Faithful calls ↔ NoConflictingMerge calls) := by
  have t := exec_tracks calls
  refine ⟨?_,?_,noConflictingMerge_of_faithful,faithful_of_noConflictingMerge⟩
  · intro name a b hab
    constructor
    · rintro ⟨g,ha,hb⟩
      exact (t.groups name a b g g ha hb).mp rfl
    intro hc
    have hne : (exec calls).2.node a ≠ (exec calls).2.node b :=
      fun heq => hab (congrArg fst heq)
    have named : ∀ {x y}, x ≠ y → (exec calls).2.Chain name x y → (exec calls).2.Named name x := by
      intro x y hxy hxc
      by_contra hx
      exact hxy (t.chain_of_unnamed hx hxc)
    obtain ⟨g,ha⟩ := isSome_iff_exists.mp ((t.tracked name a).mpr (named hne hc))
    obtain ⟨g',hb⟩ := isSome_iff_exists.mp
      ((t.tracked name b).mpr (named hne.symm (.symm _ _ hc)))
    obtain rfl := (t.groups name a b g g' ha hb).mpr hc
    exact ⟨g,ha,hb⟩
  intro h
  exact (exec_settled h.noConflictingMerge).agree

/-- Two loaders pin different classes and are then required to agree. -/
def mergedPins : List Call := [.pin "N" 1 100,.pin "N" 2 200,.impose "N" 1 2]

/-- The imposition is reported, but pinning class 100 into the joined component once more is
not, although loader 2 still holds class 200 there. -/
theorem pin_silent_after_merge :
    ((exec (mergedPins.take 2)).1.call (.impose "N" 1 2)).1 = some ⟨"N",100,200⟩ ∧
      ((exec mergedPins).1.call (.pin "N" 1 100)).1 = none ∧
      ¬ ReportsExactly (exec mergedPins).1 (exec mergedPins).2 (.pin "N" 1 100) := by
  refine ⟨by decide,by decide,?_⟩
  have hx : (exec (mergedPins.take 2)).1.pinOf "N" 1 = some 100 := by decide
  have hy : (exec (mergedPins.take 2)).1.pinOf "N" 2 = some 200 := by decide
  exact not_reportsExactly_of_merge (exec_tracks (mergedPins.take 2)) hx hy (by decide)

end CratonVM.ClassLoading
