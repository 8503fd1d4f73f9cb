import CratonVM.ClassLoading.ConstraintGroups

/-!
The constraint table against the whole history of its calls. A loader key that is forgotten
and used again names another loader, so the history speaks of incarnations of keys.
-/
namespace CratonVM.ClassLoading
open UnionFind Relation Option Prod

/-- A loader: its key and how often the key had been forgotten before. -/
abbrev Node := LoaderKey × Nat

/-- What the calls so far said, with no trace of how the table stores it. -/
structure History where
  epoch : LoaderKey → Nat
  Named : String → Node → Prop
  Imposed : String → Node → Node → Prop
  Pinned : String → Node → ClassKey → Prop

namespace History
def empty : History := ⟨fun _ => 0,fun _ _ => False,fun _ _ _ => False,fun _ _ _ => False⟩

def node (h : History) (l : LoaderKey) : Node := (l,h.epoch l)

def Chain (h : History) (name : String) (x y : Node) : Prop := EqvGen (h.Imposed name) x y

def touch (h : History) (name : String) (l : LoaderKey) : History :=
  { h with Named := fun n x => h.Named n x ∨ (n = name ∧ x = h.node l) }

def join (h : History) (name : String) (a b : LoaderKey) : History :=
  { h with Imposed := fun n x y => h.Imposed n x y ∨ (n = name ∧ x = h.node a ∧ y = h.node b) }

def hold (h : History) (name : String) (l : LoaderKey) (cls : ClassKey) : History :=
  { h with Pinned := fun n x k => h.Pinned n x k ∨ (n = name ∧ x = h.node l ∧ k = cls) }

def unload (h : History) (deadLoader : LoaderKey → Bool) (deadClass : ClassKey → Bool) : History :=
  { h with
    epoch := fun l => if deadLoader l then h.epoch l+1 else h.epoch l
    Pinned := fun n x k => h.Pinned n x k ∧ deadClass k = false }

/-- The component of a loader carries pins of two different live classes. -/
def Conflicted (h : History) (name : String) (l : LoaderKey) : Prop :=
  ∃ x y j k, h.Chain name (h.node l) x ∧ h.Chain name (h.node l) y ∧
    h.Pinned name x j ∧ h.Pinned name y k ∧ j ≠ k

end History

inductive Call where
  | impose (name : String) (a b : LoaderKey)
  | pin (name : String) (loader : LoaderKey) (cls : ClassKey)
  | pinIfConstrained (name : String) (loader : LoaderKey) (cls : ClassKey)
  | forget (deadLoader : LoaderKey → Bool) (deadClass : ClassKey → Bool)

def LoaderConstraints.call (c : LoaderConstraints) : Call →
    Option LoaderConstraintViolation × LoaderConstraints
  | .impose name a b => c.impose name a b
  | .pin name loader cls => c.pin name loader cls
  | .pinIfConstrained name loader cls => c.pinIfConstrained name loader cls
  | .forget deadLoader deadClass => (none,(c.forget deadLoader deadClass).2)

/-- The component a call is about. -/
def Call.target : Call → Option (String × LoaderKey)
  | .impose name a _ => some (name,a)
  | .pin name loader _ => some (name,loader)
  | .pinIfConstrained name loader _ => some (name,loader)
  | .forget _ _ => none

open Classical in
noncomputable def History.record (h : History) (report : Option LoaderConstraintViolation) :
    Call → History
  | .impose name a b => ((h.touch name a).touch name b).join name a b
  | .pin name loader cls =>
    if report = none then (h.touch name loader).hold name loader cls else h.touch name loader
  | .pinIfConstrained name loader cls =>
    if h.Named name (h.node loader) ∧ report = none then h.hold name loader cls else h
  | .forget deadLoader deadClass => h.unload deadLoader deadClass

/-- The table and the history side by side. -/
noncomputable def step (s : LoaderConstraints × History) (call : Call) : LoaderConstraints × History :=
  ((s.1.call call).2,s.2.record (s.1.call call).1 call)

noncomputable def exec (calls : List Call) : LoaderConstraints × History :=
  calls.foldl step ({},.empty)

/-- The table holds the partition the history asks for, and no pin it does not know of. -/
structure Tracks (c : LoaderConstraints) (h : History) : Prop where
  wf : WellFormed c
  tracked : ∀ n l, (c.groupOf n l).isSome ↔ h.Named n (h.node l)
  past : ∀ n l e, h.Named n (l,e) → e ≤ h.epoch l
  ends : ∀ n x y, h.Imposed n x y → h.Named n x ∧ h.Named n y
  held : ∀ n x k, h.Pinned n x k → h.Named n x
  groups : ∀ n a b g g', c.groupOf n a = some g → c.groupOf n b = some g' →
    (g = g' ↔ h.Chain n (h.node a) (h.node b))
  apart : ∀ n n' a b g, c.groupOf n a = some g → c.groupOf n' b = some g → n = n'
  pins : ∀ n l g k, c.groupOf n l = some g → pinnedOf c.groups g = some k →
    ∃ x, h.Chain n (h.node l) x ∧ h.Pinned n x k

/-- Every pin of a live component is the pin of its group, and no component has two. -/
structure Settled (c : LoaderConstraints) (h : History) : Prop where
  complete : ∀ n l g x k, c.groupOf n l = some g → h.Chain n (h.node l) x → h.Pinned n x k →
    pinnedOf c.groups g = some k
  agree : ∀ n x y j k, h.Chain n x y → h.Pinned n x j → h.Pinned n y k → j = k

variable {n : String}

theorem Tracks.chain_of_unnamed {c : LoaderConstraints} {h : History} (t : Tracks c h) {x y : Node} (hx : ¬ h.Named n x) (hc : h.Chain n x y) : x = y := by
  have hr : ∀ u v, h.Imposed n u v → (u = x ↔ v = x) := by
    intro u v huv
    obtain ⟨hu,hv⟩ := t.ends n u v huv
    refine ⟨?_,?_⟩
    · rintro rfl; exact absurd hu hx
    · rintro rfl; exact absurd hv hx
  exact ((eqvGen_respects hr hc).mp rfl).symm

theorem tracks_new : Tracks {} History.empty := by
  have hnone : ∀ n l, LoaderConstraints.groupOf {} n l = none := by
    intro n l; rfl
  refine ⟨wellFormed_new,?_,?_,?_,?_,?_,?_,?_⟩
  · simp [hnone,History.empty]
  · intro n l e h; exact h.elim
  · intro n x y h; exact h.elim
  · intro n x k h; exact h.elim
  · intro n a b g g' hg; simp [hnone] at hg
  · intro n n' a b g hg; simp [hnone] at hg
  · intro n l g k hg; simp [hnone] at hg

theorem settled_new : Settled {} History.empty := by
  refine ⟨?_,?_⟩
  · intro n l g x k _ _ hp; exact hp.elim
  · intro n x y j k _ hp; exact hp.elim

variable {l : LoaderKey} {g : Nat} {c' : LoaderConstraints}

theorem Touched.cases {c : LoaderConstraints} {name : String}
    (ht : Touched c c' name l g) {k : LoaderKey} {g' : Nat}
    (h : c'.groupOf n k = some g') :
    c.groupOf n k = some g' ∨
      (n = name ∧ k = l ∧ g' = g ∧ c.groupOf name l = none) := by
  by_cases hnk : n = name ∧ k = l
  · obtain ⟨rfl,rfl⟩ := hnk
    rw [ht.here] at h
    have hg := some.inj h
    cases hold : c.groupOf n k with
    | none => exact .inr ⟨rfl,rfl,hg.symm,rfl⟩
    | some g₀ =>
      rw [ht.old g₀ hold,hg]
      exact .inl rfl
  rw [ht.other n k hnk] at h
  exact .inl h

theorem Tracks.touch {c : LoaderConstraints} {h : History} {name : String} (t : Tracks c h) (ht : Touched c c' name l g) : Tracks c' (h.touch name l) := by
  have hpin : ∀ n k g', c.groupOf n k = some g' →
      pinnedOf c'.groups g' = pinnedOf c.groups g' := by
    intro n k g' hg
    exact ht.pins g' (groupOf_root t.wf hg).2
  have hfresh : c.groupOf name l = none → ¬ h.Named name (h.node l) := by
    intro hnone hn
    have := (t.tracked name l).mpr hn
    simp [hnone] at this
  refine ⟨ht.wf,?_,?_,?_,?_,?_,?_,?_⟩
  · intro n k
    by_cases hnk : n = name ∧ k = l
    · obtain ⟨rfl,rfl⟩ := hnk
      simp [ht.here,History.touch,History.node]
    rw [ht.other n k hnk,t.tracked]
    constructor
    · intro hn; exact .inl hn
    rintro (hn | ⟨rfl,hx⟩)
    · exact hn
    · exact absurd ⟨rfl,congrArg fst hx⟩ hnk
  · rintro n k e (hn | ⟨_,hx⟩)
    · exact t.past n k e hn
    obtain ⟨rfl,rfl⟩ := mk.inj hx
    exact le_rfl
  · intro n x y hxy
    obtain ⟨hx,hy⟩ := t.ends n x y hxy
    exact ⟨.inl hx,.inl hy⟩
  · intro n x k hx
    exact .inl (t.held n x k hx)
  · intro n a b ga gb ha hb
    rcases ht.cases ha with ha | ⟨rfl,rfl,rfl,hnone⟩ <;>
      rcases ht.cases hb with hb | ⟨hn,hbl,hgb,hnone'⟩
    · exact t.groups n a b ga gb ha hb
    · subst hn; subst hbl; subst hgb
      constructor
      · rintro rfl; exact absurd ha ((ht.fresh hnone').1 _ _)
      intro hc
      have heq := t.chain_of_unnamed (hfresh hnone') (.symm _ _ hc)
      have hab : b = a := congrArg fst heq
      subst hab
      rw [hnone'] at ha; cases ha
    · constructor
      · rintro rfl; exact absurd hb ((ht.fresh hnone).1 _ _)
      intro hc
      have heq := t.chain_of_unnamed (hfresh hnone) hc
      have hab : a = b := congrArg fst heq
      subst hab
      rw [hnone] at hb; cases hb
    subst hbl; subst hgb
    exact ⟨fun _ => .refl _,fun _ => rfl⟩
  · intro n n' a b g' ha hb
    rcases ht.cases ha with ha | ⟨rfl,rfl,rfl,hnone⟩ <;>
      rcases ht.cases hb with hb | ⟨hn,hbl,hgb,hnone'⟩
    · exact t.apart n n' a b g' ha hb
    · subst hgb; exact absurd ha ((ht.fresh hnone').1 _ _)
    · exact absurd hb ((ht.fresh hnone).1 _ _)
    · exact hn.symm
  · intro n k g' cls hg hp
    rcases ht.cases hg with hg | ⟨rfl,rfl,rfl,hnone⟩
    · rw [hpin n k g' hg] at hp
      exact t.pins n k g' cls hg hp
    · rw [(ht.fresh hnone).2] at hp; cases hp

theorem Settled.touch {c : LoaderConstraints} {h : History} {name : String} (s : Settled c h) (t : Tracks c h) (ht : Touched c c' name l g) :
    Settled c' (h.touch name l) := by
  refine ⟨?_,s.agree⟩
  intro n k g' x cls hg hc hp
  rcases ht.cases hg with hg | ⟨rfl,rfl,rfl,hnone⟩
  · rw [ht.pins g' (groupOf_root t.wf hg).2]
    exact s.complete n k g' x cls hg hc hp
  -- An unnamed loader is alone in its component, and only named loaders hold pins.
  have hun : ¬ h.Named n (h.node k) := by
    intro hn
    have := (t.tracked n k).mpr hn
    simp [hnone] at this
  have heq := t.chain_of_unnamed hun hc
  subst heq
  exact absurd (t.held _ _ _ hp) hun

theorem chain_join (h : History) (name : String) (a b : LoaderKey) (x y : Node) :
    (h.join name a b).Chain name x y ↔
      h.Chain name x y ∨ (h.Chain name x (h.node a) ∧ h.Chain name (h.node b) y) ∨
        (h.Chain name x (h.node b) ∧ h.Chain name (h.node a) y) := by
  have heq : (h.join name a b).Imposed name = WithPair (h.Imposed name) (h.node a) (h.node b) := by
    funext u v
    simp [History.join,WithPair]
  simp only [History.Chain,heq]
  exact eqvGen_insert _ _ _ _ _

theorem chain_join_of_ne {h : History} {name : String} (a b : LoaderKey) (hn : n ≠ name)
    (x y : Node) : (h.join name a b).Chain n x y ↔ h.Chain n x y := by
  have heq : (h.join name a b).Imposed n = h.Imposed n := by
    simp [History.join,hn]
  simp [History.Chain,heq]

theorem chain_join_of_chain {h : History} {name : String} {a b : LoaderKey}
    (hab : h.Chain name (h.node a) (h.node b)) (n : String) (x y : Node) :
    (h.join name a b).Chain n x y ↔ h.Chain n x y := by
  by_cases hn : n = name
  · subst hn
    rw [chain_join]
    constructor
    · rintro (hc | ⟨h1,h2⟩ | ⟨h1,h2⟩)
      · exact hc
      · exact .trans _ _ _ h1 (.trans _ _ _ hab h2)
      · exact .trans _ _ _ h1 (.trans _ _ _ (.symm _ _ hab) h2)
    · exact .inl
  · exact chain_join_of_ne a b hn x y

theorem Tracks.join_same {c : LoaderConstraints} {h : History} {name : String} {a b : LoaderKey} (t : Tracks c h) (ha : c.groupOf name a = some g) (hb : c.groupOf name b = some g) :
    Tracks c (h.join name a b) ∧ (Settled c h → Settled c (h.join name a b)) := by
  have hab : h.Chain name (h.node a) (h.node b) := (t.groups name a b g g ha hb).mp rfl
  have hna := (t.tracked name a).mp (by simp [ha])
  have hnb := (t.tracked name b).mp (by simp [hb])
  refine ⟨⟨t.wf,t.tracked,t.past,?_,t.held,?_,t.apart,?_⟩,?_⟩
  · rintro n x y (hxy | ⟨rfl,rfl,rfl⟩)
    · exact t.ends n x y hxy
    · exact ⟨hna,hnb⟩
  · intro n x y gx gy hx hy
    rw [chain_join_of_chain hab]
    exact t.groups n x y gx gy hx hy
  · intro n l g' k hg hp
    obtain ⟨x,hx,hk⟩ := t.pins n l g' k hg hp
    exact ⟨x,(chain_join_of_chain hab n _ _).mpr hx,hk⟩
  intro s
  refine ⟨?_,?_⟩
  · intro n l g' x k hg hc hp
    exact s.complete n l g' x k hg ((chain_join_of_chain hab n _ _).mp hc) hp
  intro n x y j k hc
  exact s.agree n x y j k ((chain_join_of_chain hab n _ _).mp hc)

/-- What `requiredClass` answers, without its path halving. -/
def LoaderConstraints.pinOf (c : LoaderConstraints) (name : String) (l : LoaderKey) :
    Option ClassKey := (c.groupOf name l).bind (pinnedOf c.groups)

theorem pinOf_eq_some {c : LoaderConstraints} {name : String} {k : ClassKey} :
    c.pinOf name l = some k ↔ ∃ g, c.groupOf name l = some g ∧ pinnedOf c.groups g = some k := by
  simp [LoaderConstraints.pinOf,bind_eq_some_iff]

theorem disagreement_eq_none {name : String} {p q : Option ClassKey} :
    disagreement name p q = none ↔ ∀ x y, p = some x → q = some y → x = y := by
  cases p with
  | none => simp [disagreement]
  | some x =>
    cases q with
    | none => simp [disagreement]
    | some y => simp [disagreement]

theorem disagreement_isSome {name : String} {p q : Option ClassKey} :
    (disagreement name p q).isSome ↔ ∃ x y, p = some x ∧ q = some y ∧ x ≠ y := by
  cases p with
  | none => simp [disagreement]
  | some x =>
    cases q with
    | none => simp [disagreement]
    | some y => by_cases h : x = y <;> simp [disagreement,h]

section
variable {c : LoaderConstraints} {h : History} {name : String} {a b : LoaderKey} {ga gb : Nat}

theorem groupOf_link (w : WellFormed c) (ha : c.groupOf name a = some ga)
    (hb : c.groupOf name b = some gb) (hab : ga ≠ gb) (n : String) (l : LoaderKey) :
    LoaderConstraints.groupOf { c with groups := link c.groups ga gb } n l =
      (c.groupOf n l).map fun r => if r = gb then ga else r := by
  obtain ⟨ra,la⟩ := groupOf_root w ha
  obtain ⟨rb,lb⟩ := groupOf_root w hb
  simp only [LoaderConstraints.groupOf,Option.map_map]
  congr 1
  funext i
  exact w.rooted.rootOf_link la lb ra rb hab i

theorem wellFormed_link (w : WellFormed c) (ha : c.groupOf name a = some ga)
    (hb : c.groupOf name b = some gb) (hab : ga ≠ gb) :
    WellFormed { c with groups := link c.groups ga gb } := by
  obtain ⟨ra,la⟩ := groupOf_root w ha
  obtain ⟨rb,lb⟩ := groupOf_root w hb
  refine ⟨w.rooted.link la lb ra rb hab,?_,w.keys,w.count⟩
  intro n l i hi
  rw [length_link]
  exact w.rows n l i hi

theorem Tracks.link_groups (t : Tracks c h) (ha : c.groupOf name a = some ga)
    (hb : c.groupOf name b = some gb) {n : String} {x y : LoaderKey} {gx gy : Nat}
    (hx : c.groupOf n x = some gx) (hy : c.groupOf n y = some gy) :
    ((if gx = gb then ga else gx) = (if gy = gb then ga else gy)) ↔
      (h.join name a b).Chain n (h.node x) (h.node y) := by
  by_cases hn : n = name
  · subst hn
    rw [chain_join,← t.groups n x y gx gy hx hy,← t.groups n x a gx ga hx ha,
      ← t.groups n b y gb gy hb hy,← t.groups n x b gx gb hx hb,← t.groups n a y ga gy ha hy]
    by_cases h1 : gx = gb <;> by_cases h2 : gy = gb <;> simp [h1,h2] <;> grind
  have hxb : gx ≠ gb := fun he => hn (t.apart n name x b gb (he ▸ hx) hb)
  have hyb : gy ≠ gb := fun he => hn (t.apart n name y b gb (he ▸ hy) hb)
  rw [if_neg hxb,if_neg hyb,chain_join_of_ne a b hn]
  exact t.groups n x y gx gy hx hy

theorem Tracks.link (t : Tracks c h) (ha : c.groupOf name a = some ga)
    (hb : c.groupOf name b = some gb) (hab : ga ≠ gb) :
    Tracks { c with groups := link c.groups ga gb } (h.join name a b) := by
  have hgroup := groupOf_link t.wf ha hb hab
  have hna := (t.tracked name a).mp (by simp [ha])
  have hnb := (t.tracked name b).mp (by simp [hb])
  refine ⟨wellFormed_link t.wf ha hb hab,?_,t.past,?_,t.held,?_,?_,?_⟩
  · intro n l
    rw [hgroup,isSome_map]
    exact t.tracked n l
  · rintro n x y (hxy | ⟨rfl,rfl,rfl⟩)
    · exact t.ends n x y hxy
    · exact ⟨hna,hnb⟩
  · intro n x y g g' hg hg'
    simp only [hgroup,map_eq_some_iff] at hg hg'
    obtain ⟨gx,hx,rfl⟩ := hg
    obtain ⟨gy,hy,rfl⟩ := hg'
    exact t.link_groups ha hb hx hy
  · intro n n' x y g hg hg'
    simp only [hgroup,map_eq_some_iff] at hg hg'
    obtain ⟨gx,hx,rfl⟩ := hg
    obtain ⟨gy,hy,hxy⟩ := hg'
    by_cases h1 : gx = gb <;> by_cases h2 : gy = gb
    · exact t.apart n n' x y gb (h1 ▸ hx) (h2 ▸ hy)
    · rw [if_pos h1,if_neg h2] at hxy
      have e1 := t.apart n name x b gb (h1 ▸ hx) hb
      have e2 := t.apart n' name y a ga (hxy ▸ hy) ha
      rw [e1,e2]
    · rw [if_neg h1,if_pos h2] at hxy
      have e1 := t.apart n name x a ga (hxy ▸ hx) ha
      have e2 := t.apart n' name y b gb (h2 ▸ hy) hb
      rw [e1,e2]
    rw [if_neg h1,if_neg h2] at hxy
    exact t.apart n n' x y gx hx (hxy ▸ hy)
  intro n l g k hg hp
  simp only [hgroup,map_eq_some_iff] at hg
  obtain ⟨gx,hx,rfl⟩ := hg
  simp only [pinnedOf_link (groupOf_root t.wf ha).2] at hp
  have mono : ∀ u v, h.Chain n u v → (h.join name a b).Chain n u v :=
    fun u v huv => EqvGen.mono (fun _ _ h => Or.inl h) u v huv
  by_cases hga : (if gx = gb then ga else gx) = ga
  · have hn : n = name := by
      by_cases h1 : gx = gb
      · exact t.apart n name l b gb (h1 ▸ hx) hb
      rw [if_neg h1] at hga
      exact t.apart n name l a ga (hga ▸ hx) ha
    subst hn
    rw [if_pos hga,or_eq_some_iff] at hp
    -- Either pin survives in the joined component.
    have hla : (h.join n a b).Chain n (h.node l) (h.node a) :=
      (t.link_groups ha hb hx ha).mp (by rw [hga,if_neg hab])
    have hlb : (h.join n a b).Chain n (h.node l) (h.node b) :=
      (t.link_groups ha hb hx hb).mp (by rw [hga,if_pos rfl])
    rcases hp with hp | ⟨_,hp⟩
    · obtain ⟨x,h1,h2⟩ := t.pins n a ga k ha hp
      exact ⟨x,.trans _ _ _ hla (mono _ _ h1),h2⟩
    obtain ⟨x,h1,h2⟩ := t.pins n b gb k hb hp
    exact ⟨x,.trans _ _ _ hlb (mono _ _ h1),h2⟩
  rw [if_neg hga] at hp
  have h1 : gx ≠ gb := fun he => hga (if_pos he)
  rw [if_neg h1] at hp
  obtain ⟨x,h2,h3⟩ := t.pins n l gx k hx hp
  exact ⟨x,mono _ _ h2,h3⟩

theorem Settled.link (s : Settled c h) (t : Tracks c h) (ha : c.groupOf name a = some ga)
    (hb : c.groupOf name b = some gb) (hab : ga ≠ gb)
    (hpins : ∀ x y, pinnedOf c.groups ga = some x → pinnedOf c.groups gb = some y → x = y) :
    Settled { c with groups := link c.groups ga gb } (h.join name a b) := by
  have hgroup := groupOf_link t.wf ha hb hab
  have hmerged : ∀ k, pinnedOf c.groups ga = some k ∨ pinnedOf c.groups gb = some k →
      (pinnedOf c.groups ga).or (pinnedOf c.groups gb) = some k := by
    intro k hk
    rw [or_eq_some_iff]
    rcases hk with hk | hk
    · exact .inl hk
    cases hp : pinnedOf c.groups ga with
    | none => exact .inr ⟨rfl,hk⟩
    | some j => exact .inl (by rw [hpins j k hp hk])
  refine ⟨?_,?_⟩
  · intro n l g x k hg hc hp
    simp only [hgroup,map_eq_some_iff] at hg
    obtain ⟨gx,hx,rfl⟩ := hg
    simp only [pinnedOf_link (groupOf_root t.wf ha).2]
    change (h.join name a b).Chain n (h.node l) x at hc
    -- The pin was in the component of `l`, or in that of `a` or `b` with `l` in the other one.
    have hcase : pinnedOf c.groups gx = some k ∨
        ((gx = ga ∨ gx = gb) ∧
          (pinnedOf c.groups ga = some k ∨ pinnedOf c.groups gb = some k)) := by
      by_cases hn : n = name
      · subst hn
        rw [chain_join] at hc
        rcases hc with hc | ⟨h1,h2⟩ | ⟨h1,h2⟩
        · exact .inl (s.complete n l gx x k hx hc hp)
        · exact .inr ⟨.inl ((t.groups n l a gx ga hx ha).mpr h1),
            .inr (s.complete n b gb x k hb h2 hp)⟩
        exact .inr ⟨.inr ((t.groups n l b gx gb hx hb).mpr h1),
          .inl (s.complete n a ga x k ha h2 hp)⟩
      rw [chain_join_of_ne a b hn] at hc
      exact .inl (s.complete n l gx x k hx hc hp)
    by_cases h1 : gx = gb
    · rw [if_pos h1,if_pos rfl]
      apply hmerged
      rcases hcase with hk | ⟨_,hk⟩
      · exact .inr (h1 ▸ hk)
      · exact hk
    rw [if_neg h1]
    by_cases h2 : gx = ga
    · rw [if_pos h2]
      apply hmerged
      rcases hcase with hk | ⟨_,hk⟩
      · exact .inl (h2 ▸ hk)
      · exact hk
    rw [if_neg h2]
    rcases hcase with hk | ⟨h3 | h3,_⟩
    · exact hk
    · exact absurd h3 h2
    · exact absurd h3 h1
  · intro n x y j k hc hj hk
    by_cases hn : n = name
    · subst hn
      rw [chain_join] at hc
      rcases hc with hc | ⟨h1,h2⟩ | ⟨h1,h2⟩
      · exact s.agree n x y j k hc hj hk
      · exact hpins j k (s.complete n a ga x j ha (.symm _ _ h1) hj)
          (s.complete n b gb y k hb h2 hk)
      exact (hpins k j (s.complete n a ga y k ha h2 hk)
        (s.complete n b gb x j hb (.symm _ _ h1) hj)).symm
    rw [chain_join_of_ne a b hn] at hc
    exact s.agree n x y j k hc hj hk

end
end CratonVM.ClassLoading
