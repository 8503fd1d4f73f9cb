import CratonVM.ClassLoading.ConstraintTable

/-!
What one call does to the partition of the table's rows, in terms of `groupOf`:
the root a row leads to. Nothing below this module looks at parent pointers again.
-/
namespace CratonVM.ClassLoading
open UnionFind List Option Prod

/-- The representation invariant of the table. -/
structure WellFormed (c : LoaderConstraints) : Prop where
  rooted : Rooted c.groups
  rows : ∀ name l i, c.row name l = some i → i < c.groups.length
  keys : (c.index.map Prod.fst).Nodup
  count : c.pairs = rowCount c.index

def LoaderConstraints.groupOf (c : LoaderConstraints) (name : String) (loader : LoaderKey) :
    Option Nat := (c.row name loader).map (rootOf c.groups)

theorem wellFormed_new : WellFormed {} := by
  refine ⟨⟨?_,?_⟩,?_,?_,?_⟩
  · intro i h; simp at h
  · intro i h; simp at h
  · intro name l i h; simp [LoaderConstraints.row,rowIn] at h
  · simp
  · rfl

variable {c : LoaderConstraints}

theorem groupOf_root (h : WellFormed c) {name : String} {l : LoaderKey}
    {g : Nat} (hg : c.groupOf name l = some g) :
    parentOf c.groups g = g ∧ g < c.groups.length := by
  simp only [LoaderConstraints.groupOf,map_eq_some_iff] at hg
  obtain ⟨i,hi,rfl⟩ := hg
  exact ⟨h.rooted.parentOf_rootOf i,h.rooted.rootOf_lt (h.rows _ _ _ hi)⟩

theorem row_isSome_iff_groupOf (c : LoaderConstraints) (name : String) (l : LoaderKey) :
    (c.row name l).isSome = (c.groupOf name l).isSome := by
  simp [LoaderConstraints.groupOf]

theorem find_spec (h : WellFormed c) {i : Nat}
    (hi : i < c.groups.length) :
    (c.find i).1 = rootOf c.groups i ∧ WellFormed (c.find i).2 ∧
      (∀ n l, (c.find i).2.groupOf n l = c.groupOf n l) ∧
      (∀ j, pinnedOf (c.find i).2.groups j = pinnedOf c.groups j) := by
  have hroot := h.rooted.climbs_rootOf i
  obtain ⟨h1,h2,h3,h4,h5⟩ := findLoop_spec c.groups.length c.groups i (rootOf c.groups i)
    h.rooted hi hroot.1 (climbs_within h.rooted.inside hi hroot)
  refine ⟨h1,⟨h3,?_,h.keys,h.count⟩,?_,h5⟩
  · intro name l j hj
    exact h2 ▸ h.rows name l j hj
  intro n l
  simp only [LoaderConstraints.groupOf]
  congr 1
  funext j
  exact h3.rootOf_eq (h4 _ _ (h.rooted.climbs_rootOf j))

theorem requiredClass_eq (h : WellFormed c) (name : String)
    (l : LoaderKey) :
    (c.requiredClass name l).1 = (c.groupOf name l).bind (pinnedOf c.groups) := by
  simp only [LoaderConstraints.requiredClass,LoaderConstraints.groupOf]
  cases hrow : c.row name l with
  | none => rfl
  | some i =>
    obtain ⟨h1,_,_,h4⟩ := find_spec h (h.rows _ _ _ hrow)
    simp [h1,h4]

structure Touched (c c' : LoaderConstraints) (name : String) (l : LoaderKey) (g : Nat) : Prop where
  wf : WellFormed c'
  here : c'.groupOf name l = some g
  other : ∀ n k, ¬ (n = name ∧ k = l) → c'.groupOf n k = c.groupOf n k
  old : ∀ g', c.groupOf name l = some g' → g' = g
  fresh : c.groupOf name l = none → (∀ n k, c.groupOf n k ≠ some g) ∧ pinnedOf c'.groups g = none
  pins : ∀ i, i < c.groups.length → pinnedOf c'.groups i = pinnedOf c.groups i
  grown : c.groups.length ≤ c'.groups.length

variable {groups : List Group}

theorem rooted_append_root (h : Rooted groups) :
    Rooted (groups ++ [⟨groups.length,none⟩]) := by
  refine ⟨?_,?_⟩
  · intro i hi
    rw [parentOf_append_root]
    rw [length_append,length_singleton] at hi ⊢
    by_cases hlt : i < groups.length
    · exact Nat.lt_succ_of_lt (h.inside i hlt)
    · rw [parentOf_of_le (Nat.le_of_not_lt hlt)]; exact hi
  intro i hi
  rw [parentOf_append_root]
  exact ⟨_,h.climbs_rootOf i⟩

theorem rootOf_append_root (h : Rooted groups) (i : Nat) :
    rootOf (groups ++ [⟨groups.length,none⟩]) i = rootOf groups i := by
  apply (rooted_append_root h).rootOf_eq
  rw [parentOf_append_root]
  exact h.climbs_rootOf i

theorem groupFor_touched (h : WellFormed c) (name : String)
    (l : LoaderKey) :
    Touched c (c.groupFor name l).2 name l (c.groupFor name l).1 := by
  cases hrow : c.row name l with
  | some i =>
    have hi := h.rows _ _ _ hrow
    obtain ⟨h1,h2,h3,h4⟩ := find_spec h hi
    have hgroup : c.groupOf name l = some (rootOf c.groups i) := by
      simp [LoaderConstraints.groupOf,hrow]
    have heq : c.groupFor name l = c.find i := by simp [LoaderConstraints.groupFor,hrow]
    rw [heq,h1]
    refine ⟨h2,?_,?_,?_,?_,?_,?_⟩
    · rw [h3,hgroup]
    · intro n k _; exact h3 n k
    · intro g' hg'
      rw [hgroup] at hg'
      exact (some.inj hg').symm
    · intro hnone; simp [hgroup] at hnone
    · intro j _; exact h4 j
    have hroot := h.rooted.climbs_rootOf i
    exact (findLoop_spec c.groups.length c.groups i _ h.rooted hi hroot.1
      (climbs_within h.rooted.inside hi hroot)).2.1.ge
  | none => ?_
  have hrow' : rowIn c.index name l = none := hrow
  have heq : c.groupFor name l = (c.groups.length,{ c with
      groups := c.groups ++ [⟨c.groups.length,none⟩]
      index := pushRow name (l,c.groups.length) c.index
      pairs := c.pairs+1 }) := by simp [LoaderConstraints.groupFor,hrow]
  rw [heq]
  have hroot : rootOf c.groups c.groups.length = c.groups.length :=
    h.rooted.rootOf_eq (climbs_of_root (parentOf_of_le le_rfl))
  refine ⟨⟨rooted_append_root h.rooted,?_,?_,?_⟩,?_,?_,?_,?_,?_,?_⟩
  · intro n k i hi
    simp only [LoaderConstraints.row,rowIn_pushRow hrow'] at hi
    rw [length_append,length_singleton]
    by_cases hnk : n = name ∧ k = l
    · rw [if_pos hnk] at hi
      have := some.inj hi
      omega
    rw [if_neg hnk] at hi
    exact Nat.lt_succ_of_lt (h.rows _ _ _ hi)
  · simp only [keys_pushRow]
    by_cases hmem : name ∈ c.index.map fst
    · rw [if_pos hmem]; exact h.keys
    rw [if_neg hmem,nodup_append]
    exact ⟨h.keys,nodup_singleton _,by
      intro x hx y hy
      simp only [mem_singleton] at hy
      subst hy
      exact fun hxy => hmem (hxy ▸ hx)⟩
  · simp only [rowCount_pushRow,h.count]
  · simp [LoaderConstraints.groupOf,LoaderConstraints.row,rowIn_pushRow hrow',
      rootOf_append_root h.rooted,hroot]
  · intro n k hnk
    simp only [LoaderConstraints.groupOf,LoaderConstraints.row,rowIn_pushRow hrow',if_neg hnk]
    congr 1
    funext j
    exact rootOf_append_root h.rooted j
  · intro g' hg'; simp [LoaderConstraints.groupOf,hrow] at hg'
  · intro _
    refine ⟨?_,?_⟩
    · intro n k hg
      have := (groupOf_root h hg).2
      omega
    · simp [pinnedOf_append_root,pinnedOf_of_le]
  · simp [pinnedOf_append_root]
  · simp

variable (deadLoader : LoaderKey → Bool) (rows : List (LoaderKey × Nat))

theorem lookup_filter_live
    (l : LoaderKey) :
    (rows.filter fun row => !deadLoader row.1).lookup l =
      if deadLoader l then none else rows.lookup l := by
  induction rows with
  | nil => simp
  | cons row rows ih => ?_
  obtain ⟨k,i⟩ := row
  by_cases hlk : l = k
  · subst hlk
    cases hd : deadLoader l with
    | true => simpa [hd] using ih
    | false => simp [hd]
  have hb : (l == k) = false := by simpa using hlk
  cases hd : deadLoader k with
  | true => simpa [hd,lookup,hb] using ih
  | false => simpa [hd,lookup,hb] using ih

theorem rowIn_cons (n k : String) (rows : List (LoaderKey × Nat))
    (index : List (String × List (LoaderKey × Nat))) (l : LoaderKey) :
    rowIn ((k,rows) :: index) n l = if n = k then rows.lookup l else rowIn index n l := by
  by_cases h : n = k
  · subst h; simp [rowIn]
  have hb : (n == k) = false := by simpa using h
  simp [rowIn,lookup,hb,h]

theorem rowIn_of_not_mem {index : List (String × List (LoaderKey × Nat))} {n : String}
    (h : n ∉ index.map fst) (l : LoaderKey) : rowIn index n l = none := by
  induction index with
  | nil => rfl
  | cons entry index ih =>
    simp only [map_cons,mem_cons,not_or] at h
    rw [rowIn_cons,if_neg h.1,ih h.2]

variable (index : List (String × List (LoaderKey × Nat)))

theorem keys_retainLive :
    ((retainLive deadLoader index).map fst).Sublist (index.map fst) := by
  have h := (filter_sublist (p := fun entry : String × List (LoaderKey × Nat) =>
    !entry.2.isEmpty) (l := index.map fun entry =>
      (entry.1,entry.2.filter fun row => !deadLoader row.1))).map fst
  simpa [retainLive,Function.comp_def] using h

theorem rowIn_retainLive (hkeys : (index.map fst).Nodup)
    (n : String) (l : LoaderKey) :
    rowIn (retainLive deadLoader index) n l =
      if deadLoader l then none else rowIn index n l := by
  induction index with
  | nil => simp [retainLive,rowIn]
  | cons entry index ih => ?_
  obtain ⟨k,rows⟩ := entry
  simp only [map_cons,nodup_cons] at hkeys
  have ih := ih hkeys.2
  have hlive := lookup_filter_live deadLoader rows l
  have hstep : retainLive deadLoader ((k,rows) :: index) =
      if (rows.filter fun row => !deadLoader row.1).isEmpty then retainLive deadLoader index
      else (k,rows.filter fun row => !deadLoader row.1) :: retainLive deadLoader index := by
    simp only [retainLive,map_cons,filter_cons]
    cases (rows.filter fun row => !deadLoader row.1).isEmpty <;> rfl
  rw [hstep,rowIn_cons]
  by_cases hempty : (rows.filter fun row => !deadLoader row.1).isEmpty
  · rw [if_pos hempty]
    by_cases hn : n = k
    · subst hn
      rw [rowIn_of_not_mem (fun hm => hkeys.1 ((keys_retainLive deadLoader index).mem hm)),
        if_pos rfl,← hlive]
      simp only [List.isEmpty_iff] at hempty
      rw [hempty]; rfl
    · rw [if_neg hn,ih]
  rw [if_neg hempty,rowIn_cons]
  by_cases hn : n = k
  · rw [if_pos hn,if_pos hn,hlive]
  · rw [if_neg hn,if_neg hn,ih]

/-- What the renumbering map promises about the groups compacted so far. -/
structure Renumbering.Ok (groups : List Group) (deadClass : ClassKey → Bool)
    (s : Renumbering) : Prop where
  found : ∀ root i, s.renumber.lookup root = some i → s.compacted[i]? =
    some ⟨i,(pinnedOf groups root).filter fun cls => !deadClass cls⟩
  apart : ∀ root root' i, s.renumber.lookup root = some i → s.renumber.lookup root' = some i →
    root = root'
  self : ∀ i, parentOf s.compacted i = i

def Renumbering.Extends (s t : Renumbering) : Prop :=
  ∀ root i, s.renumber.lookup root = some i → t.renumber.lookup root = some i

variable {deadClass : ClassKey → Bool} {s : Renumbering}

theorem Renumbering.visit_spec (h : s.Ok groups deadClass) (slot : Nat) :
    (s.visit groups deadClass slot).2.Ok groups deadClass ∧
      s.Extends (s.visit groups deadClass slot).2 ∧
      (s.visit groups deadClass slot).2.renumber.lookup (rootOf groups slot) =
        some (s.visit groups deadClass slot).1 ∧
      (s.visit groups deadClass slot).2.pairs = s.pairs+1 := by
  simp only [visit]
  cases hl : s.renumber.lookup (rootOf groups slot) with
  | some i => exact ⟨⟨h.found,h.apart,h.self⟩,fun _ _ h => h,hl,rfl⟩
  | none => ?_
  have hlook : ∀ root, ((rootOf groups slot,s.compacted.length) :: s.renumber).lookup root =
      if root = rootOf groups slot then some s.compacted.length else s.renumber.lookup root := by
    intro root
    by_cases hr : root = rootOf groups slot
    · subst hr; simp
    have hb : (root == rootOf groups slot) = false := by simpa using hr
    simp [lookup,hb,hr]
  have hbound : ∀ root i, s.renumber.lookup root = some i → i < s.compacted.length := by
    intro root i hi
    exact (List.getElem?_eq_some_iff.mp (h.found root i hi)).1
  refine ⟨⟨?_,?_,?_⟩,?_,by simp,rfl⟩
  · intro root i hi
    simp only [hlook] at hi
    by_cases hr : root = rootOf groups slot
    · rw [if_pos hr] at hi
      have := some.inj hi
      subst this; subst hr
      simp
    rw [if_neg hr] at hi
    rw [getElem?_append_left (hbound _ _ hi)]
    exact h.found root i hi
  · intro root root' i hi hi'
    simp only [hlook] at hi hi'
    by_cases hr : root = rootOf groups slot <;> by_cases hr' : root' = rootOf groups slot
    · rw [hr,hr']
    · rw [if_pos hr] at hi
      rw [if_neg hr'] at hi'
      have := hbound _ _ hi'
      have := some.inj hi
      omega
    · rw [if_neg hr] at hi
      rw [if_pos hr'] at hi'
      have := hbound _ _ hi
      have := some.inj hi'
      omega
    rw [if_neg hr] at hi
    rw [if_neg hr'] at hi'
    exact h.apart _ _ _ hi hi'
  · intro i
    rcases Nat.lt_trichotomy i s.compacted.length with hi | hi | hi
    · simpa [parentOf,getElem?_append_left hi] using h.self i
    · subst hi; simp [parentOf]
    · exact parentOf_of_le (by simp; omega)
  intro root i hi
  simp only [hlook]
  by_cases hr : root = rootOf groups slot
  · subst hr; rw [hl] at hi; cases hi
  · rw [if_neg hr]; exact hi

/-- The new slot of a row, read off a finished renumbering. -/
def Renumbering.slot (groups : List Group) (t : Renumbering) (slot : Nat) : Option Nat :=
  t.renumber.lookup (rootOf groups slot)

theorem Renumbering.visitRows_spec (h : s.Ok groups deadClass) :
    (visitRows groups deadClass rows s).2.Ok groups deadClass ∧
      s.Extends (visitRows groups deadClass rows s).2 ∧
      (visitRows groups deadClass rows s).2.pairs = s.pairs+rows.length ∧
      (visitRows groups deadClass rows s).1.length = rows.length ∧
      ∀ t, (visitRows groups deadClass rows s).2.Extends t →
        (∀ l, (visitRows groups deadClass rows s).1.lookup l =
          (rows.lookup l).bind (t.slot groups)) ∧
        ∀ l i, rows.lookup l = some i → (t.slot groups i).isSome := by
  induction rows generalizing s with
  | nil =>
    refine ⟨h,fun _ _ h => h,rfl,rfl,?_⟩
    intro t _
    exact ⟨fun l => rfl,by intro l i hi; simp at hi⟩
  | cons row rows ih => ?_
  obtain ⟨k,slot⟩ := row
  obtain ⟨h1,h2,h3,h4⟩ := visit_spec h slot
  obtain ⟨i1,i2,i3,i4,i5⟩ := ih h1
  simp only [visitRows]
  refine ⟨i1,fun root i hi => i2 _ _ (h2 _ _ hi),?_,by simp [i4],?_⟩
  · rw [i3,h4,length_cons]; omega
  intro t ht
  have hslot : t.slot groups slot = some (s.visit groups deadClass slot).1 :=
    ht _ _ (i2 _ _ h3)
  obtain ⟨j1,j2⟩ := i5 t ht
  refine ⟨?_,?_⟩
  · intro l
    by_cases hlk : l = k
    · subst hlk; simp [hslot]
    have hb : (l == k) = false := by simpa using hlk
    simpa [lookup,hb] using j1 l
  intro l i hi
  by_cases hlk : l = k
  · subst hlk
    simp only [lookup_cons_self,some.injEq] at hi
    subst hi
    rw [hslot]; rfl
  have hb : (l == k) = false := by simpa using hlk
  simp only [lookup,hb] at hi
  exact j2 l i hi

theorem Renumbering.visitIndex_spec
    (h : s.Ok groups deadClass) :
    (visitIndex groups deadClass index s).2.Ok groups deadClass ∧
      s.Extends (visitIndex groups deadClass index s).2 ∧
      (visitIndex groups deadClass index s).2.pairs =
        s.pairs+rowCount (visitIndex groups deadClass index s).1 ∧
      (visitIndex groups deadClass index s).1.map fst = index.map fst ∧
      ∀ t, (visitIndex groups deadClass index s).2.Extends t →
        (∀ n l, rowIn (visitIndex groups deadClass index s).1 n l =
          (rowIn index n l).bind (t.slot groups)) ∧
        ∀ n l i, rowIn index n l = some i → (t.slot groups i).isSome := by
  induction index generalizing s with
  | nil =>
    refine ⟨h,fun _ _ h => h,rfl,rfl,?_⟩
    intro t _
    exact ⟨fun n l => rfl,by intro n l i hi; simp [rowIn] at hi⟩
  | cons entry index ih => ?_
  obtain ⟨k,rows⟩ := entry
  obtain ⟨h1,h2,h3,h4,h5⟩ := visitRows_spec rows h
  obtain ⟨i1,i2,i3,i4,i5⟩ := ih h1
  simp only [visitIndex]
  refine ⟨i1,fun root i hi => i2 _ _ (h2 _ _ hi),?_,by simp [i4],?_⟩
  · rw [i3,h3]
    simp only [rowCount,map_cons,sum_cons,h4]
    omega
  intro t ht
  obtain ⟨j1,j2⟩ := i5 t ht
  obtain ⟨k1,k2⟩ := h5 t (fun root i hi => ht _ _ (i2 _ _ hi))
  refine ⟨?_,?_⟩
  · intro n l
    rw [rowIn_cons,rowIn_cons]
    by_cases hn : n = k
    · rw [if_pos hn,if_pos hn,k1]
    · rw [if_neg hn,if_neg hn,j1]
  intro n l i hi
  rw [rowIn_cons] at hi
  by_cases hn : n = k
  · rw [if_pos hn] at hi; exact k2 l i hi
  · rw [if_neg hn] at hi; exact j2 n l i hi

/-- `forget` drops the rows of dead loaders and renames the groups that are left, each of
which loses its pin exactly when the pinned class is dead. -/
theorem forget_spec (h : WellFormed c) (deadLoader : LoaderKey → Bool)
    (deadClass : ClassKey → Bool) :
    WellFormed (c.forget deadLoader deadClass).2 ∧ ∃ ρ : Nat → Nat,
      (∀ n l, (c.forget deadLoader deadClass).2.groupOf n l =
        if deadLoader l then none else (c.groupOf n l).map ρ) ∧
      (∀ n l n' l' g g', deadLoader l = false → deadLoader l' = false →
        c.groupOf n l = some g → c.groupOf n' l' = some g' → ρ g = ρ g' → g = g') ∧
      ∀ n l g, deadLoader l = false → c.groupOf n l = some g →
        pinnedOf (c.forget deadLoader deadClass).2.groups (ρ g) =
          (pinnedOf c.groups g).filter fun cls => !deadClass cls := by
  have hempty : Renumbering.Ok c.groups deadClass {} := by
    refine ⟨?_,?_,?_⟩
    · intro root i hi; simp at hi
    · intro root root' i hi; simp at hi
    · intro i; exact parentOf_of_le (Nat.zero_le _)
  obtain ⟨hok,_,hpairs,hkeys,hrows⟩ :=
    Renumbering.visitIndex_spec (retainLive deadLoader c.index) hempty
  obtain ⟨hrow,hsome⟩ := hrows _ (fun _ _ h => h)
  generalize hvisit : Renumbering.visitIndex c.groups deadClass
    (retainLive deadLoader c.index) {} = out at *
  obtain ⟨index,s⟩ := out
  have hforget : (c.forget deadLoader deadClass).2 = { c with
      index := index
      pairs := s.pairs
      groups := s.compacted
      labels := c.labels.filter fun entry => !deadLoader entry.1 } := by
    simp [LoaderConstraints.forget,hvisit]
  have hrooted : Rooted s.compacted := by
    refine ⟨?_,?_⟩
    · intro i hi; rw [hok.self]; exact hi
    · intro i _; exact ⟨i,climbs_of_root (hok.self i)⟩
  have hroot : ∀ i, rootOf s.compacted i = i := fun i => hrooted.rootOf_eq (climbs_of_root (hok.self i))
  have hlive : ∀ n l, rowIn index n l =
      if deadLoader l then none else (c.row n l).bind (s.slot c.groups) := by
    intro n l
    rw [hrow,rowIn_retainLive deadLoader c.index h.keys]
    cases deadLoader l <;> rfl
  -- A live row of `c` was visited, so its root has a new number.
  have hnew : ∀ n l g, deadLoader l = false → c.groupOf n l = some g →
      ∃ i, s.renumber.lookup g = some i := by
    intro n l g hd hg
    simp only [LoaderConstraints.groupOf,map_eq_some_iff] at hg
    obtain ⟨j,hj,rfl⟩ := hg
    have hvis := hsome n l j (by
      rw [rowIn_retainLive deadLoader c.index h.keys,hd]; exact hj)
    exact isSome_iff_exists.mp hvis
  rw [hforget]
  refine ⟨⟨hrooted,?_,?_,?_⟩,fun g => (s.renumber.lookup g).getD 0,?_,?_,?_⟩
  · intro n l i hi
    change rowIn index n l = some i at hi
    rw [hlive] at hi
    cases hd : deadLoader l with
    | true => simp [hd] at hi
    | false =>
      simp only [hd,Bool.false_eq_true,if_false,bind_eq_some_iff] at hi
      obtain ⟨j,_,hj⟩ := hi
      exact (List.getElem?_eq_some_iff.mp (hok.found _ _ hj)).1
  · rw [hkeys]
    exact (keys_retainLive deadLoader c.index).nodup h.keys
  · simpa using hpairs
  · intro n l
    have hgroup : (LoaderConstraints.groupOf { c with
        index := index, pairs := s.pairs, groups := s.compacted,
        labels := c.labels.filter fun entry => !deadLoader entry.1 } n l) = rowIn index n l := by
      change (rowIn index n l).map (rootOf s.compacted) = _
      rw [show rootOf s.compacted = id from funext hroot,Option.map_id,id_eq]
    rw [hgroup,hlive]
    cases hd : deadLoader l with
    | true => rfl
    | false => ?_
    cases hr : c.row n l with
    | none => simp [LoaderConstraints.groupOf,hr]
    | some j =>
      have hg : c.groupOf n l = some (rootOf c.groups j) := by
        simp [LoaderConstraints.groupOf,hr]
      obtain ⟨i,hi⟩ := hnew n l _ hd hg
      simp [hg,Renumbering.slot,hi]
  · intro n l n' l' g g' hd hd' hg hg' heq
    obtain ⟨i,hi⟩ := hnew n l g hd hg
    obtain ⟨j,hj⟩ := hnew n' l' g' hd' hg'
    simp only [hi,hj,getD_some] at heq
    subst heq
    exact hok.apart _ _ _ hi hj
  intro n l g hd hg
  obtain ⟨i,hi⟩ := hnew n l g hd hg
  have hat := hok.found _ _ hi
  simp [hi,pinnedOf,hat]

end CratonVM.ClassLoading
