import CratonVM.Lib.UnionFind

/-!
The JVMS 5.3.4 constraint table of `classloading/src/loader_constraints.rs`: a
union-find over `(name, loader)` rows whose roots may carry a pinned class.
-/
namespace CratonVM.ClassLoading
open UnionFind List Function Prod

abbrev LoaderKey := UInt32
abbrev ClassKey := UInt32

structure LoaderConstraintViolation where
  name : String
  existing : ClassKey
  conflicting : ClassKey
  deriving DecidableEq, Repr

structure Group where
  parent : Nat
  pinned : Option ClassKey
  deriving DecidableEq, Repr

structure LoaderLabel where
  nameAndId : String
  parent : Option String
  deriving DecidableEq, Repr

/-- The hash maps of the source are association lists; their order only decides how
`forget` numbers the groups that survive. -/
structure LoaderConstraints where
  index : List (String × List (LoaderKey × Nat)) := []
  pairs : Nat := 0
  groups : List Group := []
  violations : List LoaderConstraintViolation := []
  violationCount : Nat := 0
  labels : List (LoaderKey × LoaderLabel) := []
  deriving DecidableEq, Repr

def maxRecorded : Nat := 256

def parentOf (groups : List Group) (i : Nat) : Nat := (groups[i]?.map Group.parent).getD i

def pinnedOf (groups : List Group) (i : Nat) : Option ClassKey := groups[i]?.bind Group.pinned

def setParent (groups : List Group) (i g : Nat) : List Group :=
  groups.modify i fun x => { x with parent := g }

def setPinned (groups : List Group) (i : Nat) (pinned : Option ClassKey) : List Group :=
  groups.modify i fun x => { x with pinned := pinned }

/-- The path-halving loop. A table of `n` groups needs at most `n` rounds. -/
def findLoop : Nat → List Group → Nat → Nat × List Group
  | 0, groups, i => (i,groups)
  | fuel+1, groups, i =>
    if parentOf groups i = i then (i,groups)
    else
      let grandparent := parentOf groups (parentOf groups i)
      findLoop fuel (setParent groups i grandparent) grandparent

/-- The loop of `forget`, which follows parents without moving them. -/
def rootLoop : Nat → List Group → Nat → Nat
  | 0, _, i => i
  | fuel+1, groups, i =>
    if parentOf groups i = i then i else rootLoop fuel groups (parentOf groups i)

def rootOf (groups : List Group) (i : Nat) : Nat := rootLoop groups.length groups i

def pushRow (name : String) (row : LoaderKey × Nat) :
    List (String × List (LoaderKey × Nat)) → List (String × List (LoaderKey × Nat))
  | [] => [(name,[row])]
  | (key,rows) :: rest =>
    if key = name then (key,rows ++ [row]) :: rest else (key,rows) :: pushRow name row rest

def LoaderConstraints.isEmpty (c : LoaderConstraints) : Bool := c.pairs == 0

def LoaderConstraints.find (c : LoaderConstraints) (i : Nat) : Nat × LoaderConstraints :=
  let (root,groups) := findLoop c.groups.length c.groups i
  (root,{ c with groups := groups })

def rowIn (index : List (String × List (LoaderKey × Nat))) (name : String)
    (loader : LoaderKey) : Option Nat :=
  (index.lookup name).bind fun rows => rows.lookup loader

def LoaderConstraints.row (c : LoaderConstraints) (name : String) (loader : LoaderKey) :
    Option Nat := rowIn c.index name loader

def LoaderConstraints.groupFor (c : LoaderConstraints) (name : String) (loader : LoaderKey) :
    Nat × LoaderConstraints :=
  match c.row name loader with
  | some i => c.find i
  | none =>
    let i := c.groups.length
    (i,{ c with
      groups := c.groups ++ [⟨i,none⟩]
      index := pushRow name (loader,i) c.index
      pairs := c.pairs+1 })

def LoaderConstraints.record (c : LoaderConstraints) (v : LoaderConstraintViolation) :
    LoaderConstraints :=
  { c with
    violationCount := c.violationCount+1
    violations := if c.violations.length < maxRecorded then c.violations ++ [v] else c.violations }

/-- The violation two pins of one name amount to, if any. -/
def disagreement (name : String) : Option ClassKey → Option ClassKey →
    Option LoaderConstraintViolation
  | some x, some y => if x ≠ y then some ⟨name,x,y⟩ else none
  | _, _ => none

def LoaderConstraints.recordAll (c : LoaderConstraints) :
    Option LoaderConstraintViolation → LoaderConstraints
  | some v => c.record v
  | none => c

/-- Root `gb` goes below root `ga`, which keeps its own pin when it has one. -/
def link (groups : List Group) (ga gb : Nat) : List Group :=
  let pb := pinnedOf groups gb
  let merged := setParent groups gb ga
  if (pinnedOf merged ga).isNone then setPinned merged ga pb else merged

def LoaderConstraints.impose (c : LoaderConstraints) (name : String) (a b : LoaderKey) :
    Option LoaderConstraintViolation × LoaderConstraints :=
  let (ga,c) := c.groupFor name a
  let (gb,c) := c.groupFor name b
  if ga = gb then (none,c)
  else
    let violation := disagreement name (pinnedOf c.groups ga) (pinnedOf c.groups gb)
    let c := { c with groups := link c.groups ga gb }
    (violation,c.recordAll violation)

def LoaderConstraints.pin (c : LoaderConstraints) (name : String) (loader : LoaderKey)
    (cls : ClassKey) : Option LoaderConstraintViolation × LoaderConstraints :=
  let (g,c) := c.groupFor name loader
  match pinnedOf c.groups g with
  | some existing =>
    if existing ≠ cls then
      let v : LoaderConstraintViolation := ⟨name,existing,cls⟩
      (some v,c.record v)
    else (none,c)
  | none => (none,{ c with groups := setPinned c.groups g (some cls) })

def LoaderConstraints.requiredClass (c : LoaderConstraints) (name : String)
    (loader : LoaderKey) : Option ClassKey × LoaderConstraints :=
  match c.row name loader with
  | none => (none,c)
  | some i =>
    let (g,c) := c.find i
    (pinnedOf c.groups g,c)

def LoaderConstraints.pinnedFor (c : LoaderConstraints) (name : String)
    (loader : LoaderKey) : Option ClassKey × LoaderConstraints :=
  if c.isEmpty then (none,c) else c.requiredClass name loader

def LoaderConstraints.pinIfConstrained (c : LoaderConstraints) (name : String)
    (loader : LoaderKey) (cls : ClassKey) :
    Option LoaderConstraintViolation × LoaderConstraints :=
  if c.isEmpty || (c.row name loader).isNone then (none,c) else c.pin name loader cls

/-- The accumulators of the renumbering loop of `forget`. -/
structure Renumbering where
  renumber : List (Nat × Nat) := []
  compacted : List Group := []
  pairs : Nat := 0

def Renumbering.visit (groups : List Group) (deadClass : ClassKey → Bool) (s : Renumbering)
    (slot : Nat) : Nat × Renumbering :=
  let root := rootOf groups slot
  match s.renumber.lookup root with
  | some i => (i,{ s with pairs := s.pairs+1 })
  | none =>
    let i := s.compacted.length
    let pinned := (pinnedOf groups root).filter fun cls => !deadClass cls
    (i,{ renumber := (root,i) :: s.renumber
         compacted := s.compacted ++ [⟨i,pinned⟩]
         pairs := s.pairs+1 })

def Renumbering.visitRows (groups : List Group) (deadClass : ClassKey → Bool) :
    List (LoaderKey × Nat) → Renumbering → List (LoaderKey × Nat) × Renumbering
  | [], s => ([],s)
  | (loader,slot) :: rows, s =>
    let (i,s) := s.visit groups deadClass slot
    let (rows,s) := visitRows groups deadClass rows s
    ((loader,i) :: rows,s)

def Renumbering.visitIndex (groups : List Group) (deadClass : ClassKey → Bool) :
    List (String × List (LoaderKey × Nat)) → Renumbering →
      List (String × List (LoaderKey × Nat)) × Renumbering
  | [], s => ([],s)
  | (name,rows) :: index, s =>
    let (rows,s) := visitRows groups deadClass rows s
    let (index,s) := visitIndex groups deadClass index s
    ((name,rows) :: index,s)

/-- Rows of live loaders only, and only the names that keep one. -/
def retainLive (deadLoader : LoaderKey → Bool) (index : List (String × List (LoaderKey × Nat))) :
    List (String × List (LoaderKey × Nat)) :=
  (index.map fun entry => (entry.1,entry.2.filter fun row => !deadLoader row.1)).filter
    fun entry => !entry.2.isEmpty

def LoaderConstraints.forget (c : LoaderConstraints) (deadLoader : LoaderKey → Bool)
    (deadClass : ClassKey → Bool) : Nat × LoaderConstraints :=
  let (index,s) := Renumbering.visitIndex c.groups deadClass (retainLive deadLoader c.index) {}
  (c.pairs-s.pairs,{ c with
    index := index
    pairs := s.pairs
    groups := s.compacted
    labels := c.labels.filter fun entry => !deadLoader entry.1 })

variable {groups : List Group} {i : Nat}

theorem parentOf_setParent {g : Nat} (hi : i < groups.length) :
    parentOf (setParent groups i g) = update (parentOf groups) i g := by
  funext j
  by_cases hj : j = i
  · subst hj
    simp [parentOf,setParent,getElem?_eq_getElem hi]
  · simp [parentOf,setParent,Ne.symm hj,update_of_ne hj]

@[simp] theorem pinnedOf_setParent (groups : List Group) (i g j : Nat) :
    pinnedOf (setParent groups i g) j = pinnedOf groups j := by
  simp only [pinnedOf,setParent,getElem?_modify]
  cases groups[j]? with
  | none => rfl
  | some x => by_cases h : i = j <;> simp [h]

@[simp] theorem parentOf_setPinned (groups : List Group) (i : Nat) (p : Option ClassKey) :
    parentOf (setPinned groups i p) = parentOf groups := by
  funext j
  simp only [parentOf,setPinned,getElem?_modify]
  cases groups[j]? with
  | none => rfl
  | some x => by_cases h : i = j <;> simp [h]

theorem pinnedOf_setPinned (hi : i < groups.length)
    (p : Option ClassKey) (j : Nat) :
    pinnedOf (setPinned groups i p) j = if j = i then p else pinnedOf groups j := by
  by_cases hj : j = i
  · subst hj
    simp [pinnedOf,setPinned,getElem?_eq_getElem hi]
  · simp [pinnedOf,setPinned,Ne.symm hj,hj]

@[simp] theorem length_setParent (groups : List Group) (i g : Nat) :
    (setParent groups i g).length = groups.length := by simp [setParent]

@[simp] theorem length_setPinned (groups : List Group) (i : Nat) (p : Option ClassKey) :
    (setPinned groups i p).length = groups.length := by simp [setPinned]

theorem parentOf_of_le (h : groups.length ≤ i) :
    parentOf groups i = i := by simp [parentOf,getElem?_eq_none h]

theorem pinnedOf_of_le (h : groups.length ≤ i) :
    pinnedOf groups i = none := by simp [pinnedOf,getElem?_eq_none h]

theorem parentOf_append_root (groups : List Group) :
    parentOf (groups ++ [⟨groups.length,none⟩]) = parentOf groups := by
  funext j
  simp only [parentOf]
  rcases Nat.lt_trichotomy j groups.length with h | h | h
  · rw [getElem?_append_left h]
  · subst h; simp
  · rw [getElem?_eq_none (by simp; omega),getElem?_eq_none (by omega)]

theorem pinnedOf_append_root (groups : List Group) :
    pinnedOf (groups ++ [⟨groups.length,none⟩]) = pinnedOf groups := by
  funext j
  simp only [pinnedOf]
  rcases Nat.lt_trichotomy j groups.length with h | h | h
  · rw [getElem?_append_left h]
  · subst h; simp
  · rw [getElem?_eq_none (by simp; omega),getElem?_eq_none (by omega)]

/-- Every pointer stays inside the table and leads to a root. -/
structure Rooted (groups : List Group) : Prop where
  inside : ∀ i, i < groups.length → parentOf groups i < groups.length
  climbs : ∀ i, i < groups.length → ∃ r, UnionFind.Climbs (parentOf groups) i r

theorem rootLoop_eq_iterate (fuel : Nat) (groups : List Group) (i : Nat) :
    rootLoop fuel groups i = (parentOf groups)^[fuel] i := by
  induction fuel generalizing i with
  | zero => rfl
  | succ fuel ih => ?_
  rw [iterate_succ_apply]
  simp only [rootLoop]
  by_cases h : parentOf groups i = i
  · rw [if_pos h,h,iterate_fixed h]
  · rw [if_neg h,ih]

theorem Rooted.climbs_rootOf (h : Rooted groups) (i : Nat) :
    UnionFind.Climbs (parentOf groups) i (rootOf groups i) := by
  by_cases hi : i < groups.length
  · obtain ⟨r,hr⟩ := h.climbs i hi
    rw [rootOf,rootLoop_eq_iterate,climbs_within h.inside hi hr]
    exact hr
  have hroot := parentOf_of_le (Nat.le_of_not_lt hi)
  rw [rootOf,rootLoop_eq_iterate,iterate_fixed hroot]
  exact climbs_of_root hroot

theorem Rooted.rootOf_eq (h : Rooted groups) {r : Nat}
    (hr : UnionFind.Climbs (parentOf groups) i r) : rootOf groups i = r :=
  climbs_unique (h.climbs_rootOf i) hr

theorem Rooted.parentOf_rootOf (h : Rooted groups) (i : Nat) :
    parentOf groups (rootOf groups i) = rootOf groups i := (h.climbs_rootOf i).1

theorem Rooted.rootOf_lt (h : Rooted groups)
    (hi : i < groups.length) : rootOf groups i < groups.length := by
  rw [rootOf,rootLoop_eq_iterate]
  have : ∀ k, (parentOf groups)^[k] i < groups.length := by
    intro k
    induction k with
    | zero => exact hi
    | succ k ih => rw [iterate_succ_apply']; exact h.inside _ ih
  exact this _

theorem findLoop_spec (fuel : Nat) (groups : List Group) (i r : Nat)
    (h : Rooted groups) (hi : i < groups.length) (hr : parentOf groups r = r)
    (hfuel : (parentOf groups)^[fuel] i = r) :
    (findLoop fuel groups i).1 = r ∧
      (findLoop fuel groups i).2.length = groups.length ∧
      Rooted (findLoop fuel groups i).2 ∧
      (∀ j s, UnionFind.Climbs (parentOf groups) j s →
        UnionFind.Climbs (parentOf (findLoop fuel groups i).2) j s) ∧
      ∀ j, pinnedOf (findLoop fuel groups i).2 j = pinnedOf groups j := by
  induction fuel generalizing groups i with
  | zero => exact ⟨hfuel,rfl,h,fun _ _ h => h,fun _ => rfl⟩
  | succ fuel ih => ?_
  simp only [findLoop]
  by_cases hroot : parentOf groups i = i
  · rw [iterate_fixed hroot] at hfuel
    rw [if_pos hroot]
    exact ⟨hfuel,rfl,h,fun _ _ h => h,fun _ => rfl⟩
  rw [if_neg hroot]
  have hhalve : parentOf (setParent groups i (parentOf groups (parentOf groups i))) =
      halve (parentOf groups) i := parentOf_setParent hi
  have hg : parentOf groups (parentOf groups i) < groups.length :=
    h.inside _ (h.inside _ hi)
  have hrooted : Rooted (setParent groups i (parentOf groups (parentOf groups i))) := by
    refine ⟨?_,?_⟩
    · intro j hj
      rw [length_setParent] at hj ⊢
      rw [hhalve]
      by_cases hji : j = i
      · subst hji; simpa [halve] using hg
      · simpa [halve,update_of_ne hji] using h.inside j hj
    intro j hj
    rw [length_setParent] at hj
    obtain ⟨s,hs⟩ := h.climbs j hj
    exact ⟨s,by rw [hhalve]; exact climbs_halve i hs⟩
  have hstep : (halve (parentOf groups) i)^[fuel] (parentOf groups (parentOf groups i)) = r := by
    apply halve_iterate i _ hr
    rw [← iterate_succ_apply,← iterate_succ_apply,
      iterate_succ_apply',hfuel,hr]
  obtain ⟨h1,h2,h3,h4,h5⟩ := ih _ _ hrooted (by rw [length_setParent]; exact hg)
    (by rw [hhalve]; exact (climbs_halve i (climbs_of_root hr)).1)
    (by rw [hhalve]; exact hstep)
  refine ⟨h1,by rw [h2,length_setParent],h3,?_,fun j => by rw [h5,pinnedOf_setParent]⟩
  intro j s hs
  exact h4 j s (by rw [hhalve]; exact climbs_halve i hs)

theorem length_link (groups : List Group) (ga gb : Nat) :
    (link groups ga gb).length = groups.length := by
  simp only [link]
  split <;> simp

variable {ga gb : Nat}

theorem parentOf_link (hb : gb < groups.length) :
    parentOf (link groups ga gb) = update (parentOf groups) gb ga := by
  simp only [link]
  split <;> simp [parentOf_setParent hb]

theorem pinnedOf_link (ha : ga < groups.length) (j : Nat) :
    pinnedOf (link groups ga gb) j =
      if j = ga then (pinnedOf groups ga).or (pinnedOf groups gb) else pinnedOf groups j := by
  simp only [link,pinnedOf_setParent]
  cases hp : pinnedOf groups ga with
  | none =>
    rw [Option.isNone_none,if_pos rfl,pinnedOf_setPinned (by simpa using ha)]
    simp
  | some x =>
    by_cases hj : j = ga
    · simp [hj,hp]
    · simp [hj]

theorem Rooted.link (h : Rooted groups)
    (ha : ga < groups.length) (hb : gb < groups.length)
    (hra : parentOf groups ga = ga) (hrb : parentOf groups gb = gb) (hab : ga ≠ gb) :
    Rooted (link groups ga gb) := by
  refine ⟨?_,?_⟩
  · intro j hj
    rw [length_link] at hj ⊢
    rw [parentOf_link hb]
    by_cases hjb : j = gb
    · subst hjb; simpa using ha
    · simpa [update_of_ne hjb] using h.inside j hj
  intro j hj
  rw [length_link] at hj
  obtain ⟨s,hs⟩ := h.climbs j hj
  exact ⟨_,by rw [parentOf_link hb]; exact climbs_link hra hrb hab hs⟩

theorem Rooted.rootOf_link (h : Rooted groups)
    (ha : ga < groups.length) (hb : gb < groups.length)
    (hra : parentOf groups ga = ga) (hrb : parentOf groups gb = gb) (hab : ga ≠ gb) (i : Nat) :
    rootOf (ClassLoading.link groups ga gb) i =
      if rootOf groups i = gb then ga else rootOf groups i := by
  apply (h.link ha hb hra hrb hab).rootOf_eq
  rw [parentOf_link hb]
  exact climbs_link hra hrb hab (h.climbs_rootOf i)

variable (name : String) (row : LoaderKey × Nat) (index : List (String × List (LoaderKey × Nat)))

theorem lookup_pushRow (key : String) :
    (pushRow name row index).lookup key =
      if key = name then some ((index.lookup name).getD [] ++ [row]) else index.lookup key := by
  induction index with
  | nil =>
    by_cases h : key = name
    · simp [pushRow,h]
    have hb : (key == name) = false := by simpa using h
    simp [pushRow,lookup,hb,h]
  | cons entry rest ih => ?_
  obtain ⟨k,rows⟩ := entry
  simp only [pushRow]
  by_cases hk : k = name
  · subst hk
    by_cases h : key = k
    · subst h; simp
    have hb : (key == k) = false := by simpa using h
    simp [lookup,hb,h]
  have hnk : (name == k) = false := by simpa using Ne.symm hk
  rw [if_neg hk,lookup,ih]
  by_cases h : key = k
  · subst h
    have hn : ¬ key = name := hk
    simp [hn]
  have hb : (key == k) = false := by simpa using h
  simp [lookup,hb,hnk]

theorem lookup_append_row (rows : List (LoaderKey × Nat)) (loader l : LoaderKey) (i : Nat) :
    (rows ++ [(loader,i)]).lookup l =
      (rows.lookup l).or (if l = loader then some i else none) := by
  induction rows with
  | nil =>
    by_cases h : l = loader
    · simp [h]
    have hb : (l == loader) = false := by simpa using h
    simp [lookup,hb,h]
  | cons row rows ih => ?_
  obtain ⟨k,j⟩ := row
  by_cases h : l = k
  · subst h; simp
  have hb : (l == k) = false := by simpa using h
  simp [lookup,hb,ih]

theorem rowIn_pushRow {index : List (String × List (LoaderKey × Nat))} {name : String}
    {loader : LoaderKey} (hnone : rowIn index name loader = none) (i : Nat)
    (n : String) (l : LoaderKey) :
    rowIn (pushRow name (loader,i) index) n l =
      if n = name ∧ l = loader then some i else rowIn index n l := by
  simp only [rowIn,lookup_pushRow]
  by_cases hn : n = name
  · subst hn
    simp only [if_true,Option.bind_some,lookup_append_row,true_and]
    have hrows : ((index.lookup n).getD []).lookup l = rowIn index n l := by
      simp only [rowIn]
      cases index.lookup n with
      | none => rfl
      | some rows => rfl
    rw [hrows]
    by_cases hl : l = loader
    · subst hl; simp [hnone]
    · simp [hl,rowIn]
  · simp [hn]

theorem keys_pushRow :
    (pushRow name row index).map fst =
      if name ∈ index.map fst then index.map fst else index.map fst ++ [name] := by
  induction index with
  | nil => simp [pushRow]
  | cons entry rest ih => ?_
  obtain ⟨k,rows⟩ := entry
  simp only [pushRow]
  by_cases hk : k = name
  · subst hk; simp
  rw [if_neg hk,map_cons,ih]
  have hk' := Ne.symm hk
  by_cases hm : name ∈ rest.map fst
  · simp [map_cons,mem_cons,hm,or_true]
  · simp [map_cons,mem_cons,hm,hk',or_self,cons_append]

def rowCount (index : List (String × List (LoaderKey × Nat))) : Nat :=
  (index.map fun entry => entry.2.length).sum

theorem rowCount_pushRow :
    rowCount (pushRow name row index) = rowCount index+1 := by
  induction index with
  | nil => simp [pushRow,rowCount]
  | cons entry rest ih => ?_
  obtain ⟨k,rows⟩ := entry
  simp only [pushRow]
  by_cases hk : k = name
  · simp [hk,rowCount]; omega
  simp only [if_neg hk,rowCount,map_cons,sum_cons] at ih ⊢
  omega

theorem rowCount_pos {index : List (String × List (LoaderKey × Nat))} {name : String}
    {loader : LoaderKey} (h : (rowIn index name loader).isSome) : 0 < rowCount index := by
  induction index with
  | nil => simp [rowIn] at h
  | cons entry rest ih => ?_
  obtain ⟨k,rows⟩ := entry
  simp only [rowCount,map_cons,sum_cons] at ih ⊢
  by_cases hk : name = k
  · subst hk
    cases rows with
    | nil => simp [rowIn] at h
    | cons row rows => rw [length_cons]; omega
  have hb : (name == k) = false := by simpa using hk
  have hrest := ih (by simpa [rowIn,lookup,hb] using h)
  omega

end CratonVM.ClassLoading
