import CratonVM.Gc.Zgc.RegionForwarding

/-!
The choice of the relocation set at mark end: `region_liveness` books the live objects onto the region
grid of `gc/src/zgc/region_forwarding.rs`, and `select_relocation_regions` sorts the regions into
excluded, straddled, empty and candidate ones, the last through `ZRelocationSet::select` of
`gc/src/zgc/forwarding.rs`. On disjoint objects no counter overflows, so the sums are natural numbers;
the floating-point comparison with the occupancy cutoff is a parameter of the policy.
-/
namespace CratonVM.Gc.Zgc
open List Option

def zfwdMaxFromOffset : Nat := zfwdFromMask <<< zfwdAlignShift
def zfwdSizeClassSmall : Nat := 0
def zfwdSizeClassLarge : Nat := 2

structure ZRegionGrid where
  base : Nat
  stop : Nat
  regionBytes : Nat
  base_le : base ≤ stop
  header_le : headerSize ≤ regionBytes
  stop_lt : stop < 2^64

namespace ZRegionGrid
def new (base stop regionBytes : Nat) (hstop : stop < 2^64) : Option ZRegionGrid :=
  if h : 2^regionBytes.log2 ≠ regionBytes ∨ regionBytes < headerSize ∨
      zfwdMaxFromOffset+zfwdAlignBytes < regionBytes ∨ base%zfwdAlignBytes ≠ 0 ∨ stop < base then none
  else some ⟨base,stop,regionBytes,by omega,by omega,hstop⟩

variable (grid : ZRegionGrid)

def regionCount : Nat := (grid.stop-grid.base+grid.regionBytes-1)/grid.regionBytes

def regionOf (addr : Nat) : Option Nat :=
  if grid.base ≤ addr ∧ addr < grid.stop then some ((addr-grid.base)/grid.regionBytes) else none

def regionBase (idx : Nat) : Nat := grid.base+idx*grid.regionBytes

def usedIn (idx : Nat) : Nat := min (grid.stop-grid.regionBase idx) grid.regionBytes

/-- Some allocated byte of the region is a byte of the object. -/
def Intersects (idx : Nat) (obj : Nat × Nat) : Prop :=
  ∃ x, grid.regionBase idx ≤ x ∧ x < grid.regionBase idx+grid.usedIn idx ∧ obj.1 ≤ x ∧ x < obj.1+obj.2

end ZRegionGrid

structure ZRegionLiveness where
  liveBytes : List Nat
  liveObjects : List Nat
  straddleInBytes : List Nat
  outside : Nat
  unsizable : Nat
  deriving DecidableEq, Repr

def bookTail (grid : ZRegionGrid) (n objEnd : Nat) : (turns : Nat) → (r : Nat) → List Nat → List Nat
  | 0,_,straddle => straddle
  | turns+1,r,straddle =>
    if r < n then
      let rBase := grid.regionBase r
      if objEnd ≤ rBase then straddle
      else
        let rEnd := rBase+grid.regionBytes
        bookTail grid n objEnd turns (r+1) (straddle.modify r (·+(min objEnd rEnd-rBase)))
    else straddle

def bookObject (grid : ZRegionGrid) (out : ZRegionLiveness) (obj : Nat × Nat) : ZRegionLiveness :=
  match grid.regionOf obj.1 with
  | none => { out with outside := out.outside+1 }
  | some i =>
    if obj.2 < headerSize then { out with unsizable := out.unsizable+1 }
    else
      let objEnd := min (obj.1+obj.2) (2^64-1)
      let n := grid.regionCount
      { out with
        liveBytes := out.liveBytes.modify i (·+obj.2)
        liveObjects := out.liveObjects.modify i (·+1)
        straddleInBytes := bookTail grid n objEnd (n-(i+1)) (i+1) out.straddleInBytes }

def regionLiveness (grid : ZRegionGrid) (objects : List (Nat × Nat)) : ZRegionLiveness :=
  let n := grid.regionCount
  objects.foldl (bookObject grid) ⟨List.replicate n 0,List.replicate n 0,List.replicate n 0,0,0⟩

structure PageCandidate where
  pageId : Nat
  liveBytes : Nat
  capacityBytes : Nat
  sizeClassIndex : Nat
  deriving DecidableEq, Repr

namespace PageCandidate
def garbageBytes (p : PageCandidate) : Nat := p.capacityBytes-p.liveBytes

def isLarge (p : PageCandidate) : Bool := p.sizeClassIndex = zfwdSizeClassLarge

end PageCandidate

/-- `atOrAboveCutoff` is the comparison of `live_occupancy` with `max_live_occupancy`. -/
structure ZRelocationPolicy where
  maxEvacuationBytes : Nat
  atOrAboveCutoff : PageCandidate → Bool
  targetPages : Option (Nat × Nat)
  relocateLargePages : Bool
  budgetExemptsTargets : Bool

structure ZRelocationSet where
  pages : List PageCandidate
  totalLiveBytes : Nat
  totalGarbageBytes : Nat
  deferredForBudget : Nat
  targetedOverrunBytes : Nat
  targetedSelected : Nat
  deriving DecidableEq, Repr

namespace ZRelocationSet
def targeted (policy : ZRelocationPolicy) (p : PageCandidate) : Bool :=
  policy.targetPages.any fun t => decide (t.1 ≤ p.pageId) && decide (p.pageId ≤ t.2)

def eligible (policy : ZRelocationPolicy) (p : PageCandidate) : Bool :=
  !(p.isLarge && !policy.relocateLargePages) && p.capacityBytes != 0 &&
    (targeted policy p || (p.garbageBytes != 0 && !policy.atOrAboveCutoff p))

/-- Targeted pages first, then by descending garbage ratio, then by page id. -/
def ranksBefore (policy : ZRelocationPolicy) (a b : PageCandidate) : Bool :=
  let lhs := a.garbageBytes*b.capacityBytes
  let rhs := b.garbageBytes*a.capacityBytes
  let byTarget := compare (targeted policy b).toNat (targeted policy a).toNat
  ((byTarget.then (compare rhs lhs)).then (compare a.pageId b.pageId)).isLE

/-- The pages within the budget, from the most profitable on. -/
def takeWithinBudget (policy : ZRelocationPolicy) (total : Nat) : List PageCandidate → ZRelocationSet → ZRelocationSet
  | [],out => out
  | p::rest,out =>
    let isTarget := targeted policy p
    let exempt := policy.budgetExemptsTargets && isTarget
    if !exempt && decide (policy.maxEvacuationBytes < min (out.totalLiveBytes+p.liveBytes) (2^64-1)) then
      { out with deferredForBudget := total-out.pages.length }
    else
      takeWithinBudget policy total rest
        { out with
          targetedSelected := if isTarget then out.targetedSelected+1 else out.targetedSelected
          totalLiveBytes := out.totalLiveBytes+p.liveBytes
          totalGarbageBytes := out.totalGarbageBytes+p.garbageBytes
          pages := out.pages++[p] }

def select (pages : List PageCandidate) (policy : ZRelocationPolicy) : ZRelocationSet :=
  let chosen := (pages.filter (eligible policy)).insertionSort fun a b => ranksBefore policy a b
  let out := takeWithinBudget policy chosen.length chosen ⟨[],0,0,0,0,0⟩
  { out with targetedOverrunBytes := out.totalLiveBytes-policy.maxEvacuationBytes }

def pageIds (s : ZRelocationSet) : List Nat := s.pages.map PageCandidate.pageId

end ZRelocationSet

structure ZRegionSelection where
  set : ZRelocationSet
  empty : List Nat
  excluded : Nat
  straddled : Nat
  unsizable : Nat
  deriving DecidableEq, Repr

def ZRegionSelection.trustworthy (s : ZRegionSelection) : Bool := s.unsizable = 0

/-- The regions sorted so far. -/
structure RegionSort where
  excluded : Nat
  straddled : Nat
  empty : List Nat
  candidates : List PageCandidate
  deriving DecidableEq, Repr

def sortRegion (grid : ZRegionGrid) (live : ZRegionLiveness) (excluded : Nat → Bool) (out : RegionSort) (i : Nat) :
    RegionSort :=
  let used := grid.usedIn i
  if used = 0 then out
  else if excluded i then { out with excluded := out.excluded+1 }
  else if 0 < live.straddleInBytes.getD i 0 then { out with straddled := out.straddled+1 }
  else if live.liveObjects.getD i 0 = 0 then { out with empty := out.empty++[i] }
  else { out with candidates := out.candidates++[⟨i,live.liveBytes.getD i 0,used,zfwdSizeClassSmall⟩] }

def selectRelocationRegions (grid : ZRegionGrid) (live : ZRegionLiveness) (policy : ZRelocationPolicy)
    (excluded : Nat → Bool) : ZRegionSelection :=
  let n := min (min (min grid.regionCount live.liveBytes.length) live.liveObjects.length) live.straddleInBytes.length
  let out := (List.range n).foldl (sortRegion grid live excluded) ⟨0,0,[],[]⟩
  ⟨ZRelocationSet.select out.candidates policy,out.empty,out.excluded,out.straddled,live.unsizable⟩

section
variable {grid : ZRegionGrid}
variable {objEnd turns : Nat} {straddle : List Nat}

theorem bookTail_mono {n r : Nat} {k : Nat} (h : 0 < straddle.getD k 0) :
    0 < (bookTail grid n objEnd turns r straddle).getD k 0 := by
  induction turns generalizing r straddle with
  | zero => exact h
  | succ turns ih => ?_
  rw [bookTail]
  split
  · dsimp only
    split
    · exact h
    refine ih ?_
    rw [getD_eq_getElem?_getD,getElem?_modify] at *
    cases hk : straddle[k]? with
    | none => simp [hk] at h
    | some v => ?_
    simp only [hk,getD_some] at h
    by_cases hrk : r = k
    · simp only [hrk,if_true,Option.map_eq_map,map_some,getD_some]
      omega
    · simpa [hrk] using h
  · exact h

theorem bookTail_reaches {n r k : Nat} (hrk : r ≤ k) (hk : k < n)
    (hlen : k < straddle.length) (hreach : grid.regionBase k < objEnd) (hturns : k-r < turns) :
    0 < (bookTail grid n objEnd turns r straddle).getD k 0 := by
  have hbytes : 0 < grid.regionBytes := lt_of_lt_of_le (by decide) grid.header_le
  have hmono : grid.regionBase r ≤ grid.regionBase k := Nat.add_le_add_left (Nat.mul_le_mul_right _ hrk) _
  induction turns generalizing r straddle with
  | zero => omega
  | succ turns ih => ?_
  rw [bookTail,if_pos (by omega)]
  rw [if_neg (by omega)]
  by_cases heq : r = k
  · subst heq
    refine bookTail_mono ?_
    rw [getD_eq_getElem?_getD,getElem?_modify,getElem?_eq_getElem hlen]
    simp only [if_true,Option.map_eq_map,map_some,getD_some]
    omega
  refine ih (by omega) (by simpa using hlen) (by omega) ?_
  exact Nat.add_le_add_left (Nat.mul_le_mul_right _ (by omega)) _

theorem bookTail_length {n r : Nat} :
    (bookTail grid n objEnd turns r straddle).length = straddle.length := by
  induction turns generalizing r straddle with
  | zero => rfl
  | succ turns ih => ?_
  rw [bookTail]
  split
  · dsimp only
    split
    · rfl
    · rw [ih,length_modify]
  · rfl

/-- What the liveness says about a booked object: its region counts it, and so does every later region
that it reaches. -/
structure Booked (grid : ZRegionGrid) (out : ZRegionLiveness) (obj : Nat × Nat) : Prop where
  starts : ∀ i, grid.regionOf obj.1 = some i → 0 < out.liveObjects.getD i 0
  reaches : ∀ i, grid.regionOf obj.1 = some i → ∀ k, i < k → k < grid.regionCount →
    grid.regionBase k < min (obj.1+obj.2) (2^64-1) → 0 < out.straddleInBytes.getD k 0

structure Sized (grid : ZRegionGrid) (out : ZRegionLiveness) : Prop where
  bytes : out.liveBytes.length = grid.regionCount
  objects : out.liveObjects.length = grid.regionCount
  straddle : out.straddleInBytes.length = grid.regionCount

variable {out : ZRegionLiveness}

theorem sized_bookObject (h : Sized grid out) (obj : Nat × Nat) :
    Sized grid (bookObject grid out obj) := by
  rw [bookObject]
  split
  · exact ⟨h.bytes,h.objects,h.straddle⟩
  split
  · exact ⟨h.bytes,h.objects,h.straddle⟩
  · exact ⟨by simpa using h.bytes,by simpa using h.objects,by simpa [bookTail_length] using h.straddle⟩

theorem booked_mono {obj obj' : Nat × Nat} (h : Booked grid out obj) :
    Booked grid (bookObject grid out obj') obj := by
  rw [bookObject]
  split
  · exact ⟨h.starts,h.reaches⟩
  split
  · exact ⟨h.starts,h.reaches⟩
  next i hi hsize =>
  refine ⟨fun j hj => ?_,fun j hj k hjk hk hreach => bookTail_mono (h.reaches j hj k hjk hk hreach)⟩
  have hpos := h.starts j hj
  rw [getD_eq_getElem?_getD] at hpos
  rw [getD_eq_getElem?_getD,getElem?_modify]
  cases hv : out.liveObjects[j]? with
  | none => simp [hv] at hpos
  | some v =>
    rw [hv,getD_some] at hpos
    by_cases hij : i = j
    · simp [hij]
    · simpa [hij] using hpos

theorem regionOf_lt {addr i : Nat} (h : grid.regionOf addr = some i) : i < grid.regionCount := by
  have hbytes : 0 < grid.regionBytes := lt_of_lt_of_le (by decide) grid.header_le
  rw [ZRegionGrid.regionOf] at h
  split at h
  · next hin =>
    rw [← some.inj h,ZRegionGrid.regionCount,Nat.div_lt_iff_lt_mul hbytes]
    have hmod := Nat.div_add_mod (grid.stop-grid.base+grid.regionBytes-1) grid.regionBytes
    have hlt := Nat.mod_lt (grid.stop-grid.base+grid.regionBytes-1) hbytes
    rw [Nat.mul_comm] at hmod
    omega
  · cases h

theorem booked_self (hsized : Sized grid out) {obj : Nat × Nat} (hobj : headerSize ≤ obj.2) :
    Booked grid (bookObject grid out obj) obj := by
  rw [bookObject]
  cases hr : grid.regionOf obj.1 with
  | none =>
    have hnone : ∀ i, grid.regionOf obj.1 ≠ some i := fun i hi => by simp [hr] at hi
    exact ⟨fun i hi => absurd hi (hnone i),fun i hi => absurd hi (hnone i)⟩
  | some i => ?_
  have hi := regionOf_lt hr
  dsimp only
  rw [if_neg (not_lt.mpr hobj)]
  refine ⟨fun j hj => ?_,fun j hj k hjk hk hreach => ?_⟩
  · obtain rfl := some.inj (hr.symm.trans hj)
    rw [getD_eq_getElem?_getD,getElem?_modify,getElem?_eq_getElem (hsized.objects ▸ hi)]
    simp
  obtain rfl := some.inj (hr.symm.trans hj)
  exact bookTail_reaches hjk hk (hsized.straddle ▸ hk) hreach (by omega)

theorem foldl_booked (objects : List (Nat × Nat)) (hsized : Sized grid out) :
    Sized grid (objects.foldl (bookObject grid) out) ∧
      (∀ obj, Booked grid out obj → Booked grid (objects.foldl (bookObject grid) out) obj) ∧
      ∀ obj ∈ objects, headerSize ≤ obj.2 → Booked grid (objects.foldl (bookObject grid) out) obj := by
  induction objects generalizing out with
  | nil => exact ⟨hsized,fun _ h => h,fun _ h => absurd h not_mem_nil⟩
  | cons o objects ih => ?_
  obtain ⟨h1,h2,h3⟩ := ih (sized_bookObject hsized o)
  rw [foldl_cons]
  refine ⟨h1,fun obj h => h2 obj (booked_mono h),fun obj hobj hsize => ?_⟩
  rcases mem_cons.mp hobj with rfl|hobj
  · exact h2 _ (booked_self hsized hsize)
  · exact h3 obj hobj hsize

theorem sized_start (grid : ZRegionGrid) :
    Sized grid ⟨replicate grid.regionCount 0,replicate grid.regionCount 0,
      replicate grid.regionCount 0,0,0⟩ := ⟨by simp,by simp,by simp⟩

theorem foldl_unsizable (objects : List (Nat × Nat)) (out : ZRegionLiveness) :
    (objects.foldl (bookObject grid) out).unsizable =
      out.unsizable+objects.countP fun o => (grid.regionOf o.1).isSome && decide (o.2 < headerSize) := by
  induction objects generalizing out with
  | nil => rfl
  | cons o objects ih => ?_
  rw [foldl_cons,ih,countP_cons,bookObject]
  cases hr : grid.regionOf o.1 with
  | none => simp
  | some i => ?_
  dsimp only
  by_cases hsize : o.2 < headerSize
  · simp [hsize]
    omega
  rw [if_neg hsize]
  simp [hsize]

end

section
theorem mem_takeWithinBudget {policy : ZRelocationPolicy} {total : Nat} {ps : List PageCandidate} {out : ZRelocationSet}
    {p : PageCandidate} (hp : p ∈ (ZRelocationSet.takeWithinBudget policy total ps out).pages) :
    p ∈ out.pages ∨ p ∈ ps := by
  induction ps generalizing out with
  | nil => exact .inl hp
  | cons q ps ih => ?_
  rw [ZRelocationSet.takeWithinBudget] at hp
  split at hp
  · exact .inl hp
  rcases ih hp with hp|hp
  · rcases mem_append.mp hp with hp|hp
    · exact .inl hp
    · exact .inr (mem_cons.mpr (.inl (mem_singleton.mp hp)))
  · exact .inr (mem_cons_of_mem _ hp)

theorem mem_select {pages : List PageCandidate} {policy : ZRelocationPolicy} {p : PageCandidate}
    (hp : p ∈ (ZRelocationSet.select pages policy).pages) : p ∈ pages := by
  rcases mem_takeWithinBudget hp with hp|hp
  · cases hp
  · exact (mem_filter.mp ((mem_insertionSort _).mp hp)).1

/-- Why a region is listed: nothing reaches into it, and an empty one has no object of its own. -/
structure Sorted (live : ZRegionLiveness) (out : RegionSort) : Prop where
  empty : ∀ i ∈ out.empty, live.straddleInBytes.getD i 0 = 0 ∧ live.liveObjects.getD i 0 = 0
  candidate : ∀ p ∈ out.candidates, live.straddleInBytes.getD p.pageId 0 = 0

variable {grid : ZRegionGrid} {live : ZRegionLiveness} {excluded : Nat → Bool}
variable {out : RegionSort}

theorem sorted_sortRegion (h : Sorted live out) (i : Nat) :
    Sorted live (sortRegion grid live excluded out i) := by
  rw [sortRegion]
  split
  · exact h
  split
  · exact ⟨h.empty,h.candidate⟩
  split
  · exact ⟨h.empty,h.candidate⟩
  next hstraddle =>
  have hzero := Nat.eq_zero_of_not_pos hstraddle
  split
  · next hnone =>
    refine ⟨fun j hj => ?_,h.candidate⟩
    rcases mem_append.mp hj with hj|hj
    · exact h.empty j hj
    obtain rfl := mem_singleton.mp hj
    exact ⟨hzero,hnone⟩
  refine ⟨h.empty,fun p hp => ?_⟩
  rcases mem_append.mp hp with hp|hp
  · exact h.candidate p hp
  obtain rfl := mem_singleton.mp hp
  exact hzero

theorem sorted_foldl (is : List Nat) (h : Sorted live out) :
    Sorted live (is.foldl (sortRegion grid live excluded) out) := by
  induction is generalizing out with
  | nil => exact h
  | cons i is ih => exact ih (sorted_sortRegion h i)

theorem foldl_regions_lt {n : Nat} (is : List Nat) (hn : ∀ i ∈ is, i < n)
    (h : (∀ i ∈ out.empty, i < n) ∧ ∀ p ∈ out.candidates, p.pageId < n) :
    (∀ i ∈ (is.foldl (sortRegion grid live excluded) out).empty, i < n) ∧
      ∀ p ∈ (is.foldl (sortRegion grid live excluded) out).candidates, p.pageId < n := by
  induction is generalizing out with
  | nil => exact h
  | cons i is ih => ?_
  refine ih (fun j hj => hn j (mem_cons_of_mem _ hj)) ?_
  have hi := hn i mem_cons_self
  rw [sortRegion]
  split
  · exact h
  split
  · exact h
  split
  · exact h
  split
  · refine ⟨fun j hj => ?_,h.2⟩
    rcases mem_append.mp hj with hj|hj
    · exact h.1 j hj
    · exact mem_singleton.mp hj ▸ hi
  refine ⟨h.1,fun p hp => ?_⟩
  rcases mem_append.mp hp with hp|hp
  · exact h.2 p hp
  · exact mem_singleton.mp hp ▸ hi

theorem listed_region (policy : ZRelocationPolicy) {r : Nat}
    (hr : r ∈ (selectRelocationRegions grid live policy excluded).set.pageIds ∨
      r ∈ (selectRelocationRegions grid live policy excluded).empty) :
    r < grid.regionCount ∧ live.straddleInBytes.getD r 0 = 0 ∧
      (r ∈ (selectRelocationRegions grid live policy excluded).empty → live.liveObjects.getD r 0 = 0) := by
  rw [selectRelocationRegions] at hr ⊢
  dsimp only at hr ⊢
  set n := min (min (min grid.regionCount live.liveBytes.length) live.liveObjects.length) live.straddleInBytes.length
  have hsorted : Sorted live ((range n).foldl (sortRegion grid live excluded) ⟨0,0,[],[]⟩) :=
    sorted_foldl _ ⟨fun _ h => absurd h not_mem_nil,fun _ h => absurd h not_mem_nil⟩
  have hlt : (∀ i ∈ ((range n).foldl (sortRegion grid live excluded) ⟨0,0,[],[]⟩).empty, i < n) ∧
      ∀ p ∈ ((range n).foldl (sortRegion grid live excluded) ⟨0,0,[],[]⟩).candidates, p.pageId < n :=
    foldl_regions_lt (range n) (fun i hi => mem_range.mp hi)
      ⟨fun _ h => absurd h not_mem_nil,fun _ h => absurd h not_mem_nil⟩
  obtain ⟨hempty,hcand⟩ := hlt
  have hn : n ≤ grid.regionCount := by omega
  rcases hr with hr|hr
  · obtain ⟨p,hp,rfl⟩ := mem_map.mp hr
    have hp := mem_select hp
    exact ⟨lt_of_lt_of_le (hcand p hp) hn,hsorted.candidate p hp,fun he => (hsorted.empty _ he).2⟩
  · exact ⟨lt_of_lt_of_le (hempty r hr) hn,(hsorted.empty r hr).1,fun he => (hsorted.empty _ he).2⟩

end

/-- The mark's survivors: pairwise disjoint, with bases at or above the grid's. -/
structure Survivors (grid : ZRegionGrid) (objects : List (Nat × Nat)) : Prop where
  above : ∀ o ∈ objects, grid.base ≤ o.1
  apart : objects.Pairwise fun o o' => o.1+o.2 ≤ o'.1 ∨ o'.1+o'.2 ≤ o.1

section
variable {grid : ZRegionGrid}

theorem intersects_starts {r : Nat} {o : Nat × Nat} (habove : grid.base ≤ o.1) (h : grid.Intersects r o) :
    ∃ i, grid.regionOf o.1 = some i ∧ (i = r ∨ (i < r ∧ grid.regionBase r < min (o.1+o.2) (2^64-1))) := by
  have hbytes : 0 < grid.regionBytes := lt_of_lt_of_le (by decide) grid.header_le
  have hstop := grid.stop_lt
  obtain ⟨x,h1,h2,h3,h4⟩ := h
  rw [ZRegionGrid.usedIn] at h2
  have hx : x < grid.stop := by omega
  refine ⟨(o.1-grid.base)/grid.regionBytes,by rw [ZRegionGrid.regionOf,if_pos ⟨habove,by omega⟩],?_⟩
  have hle : (o.1-grid.base)/grid.regionBytes ≤ r := by
    refine Nat.lt_succ_iff.mp ((Nat.div_lt_iff_lt_mul hbytes).mpr ?_)
    rw [ZRegionGrid.regionBase] at h2
    rw [Nat.succ_mul]
    omega
  by_cases heq : (o.1-grid.base)/grid.regionBytes = r
  · exact .inl heq
  · exact .inr ⟨lt_of_le_of_ne hle heq,by omega⟩

theorem listed_region_safe {objects : List (Nat × Nat)} (hlive : Survivors grid objects) (policy : ZRelocationPolicy)
    (excluded : Nat → Bool) {r : Nat}
    (hr : r ∈ (selectRelocationRegions grid (regionLiveness grid objects) policy excluded).set.pageIds ∨
      r ∈ (selectRelocationRegions grid (regionLiveness grid objects) policy excluded).empty)
    {o : Nat × Nat} (ho : o ∈ objects) (hsize : headerSize ≤ o.2) (hmeet : grid.Intersects r o) :
    grid.regionOf o.1 = some r ∧
      r ∉ (selectRelocationRegions grid (regionLiveness grid objects) policy excluded).empty := by
  obtain ⟨hlt,hzero,hempty⟩ := listed_region policy hr
  have hbooked := (foldl_booked objects (sized_start grid)).2.2 o ho hsize
  obtain ⟨i,hi,hcase⟩ := intersects_starts (hlive.above o ho) hmeet
  rcases hcase with rfl|⟨hir,hreach⟩
  · refine ⟨hi,fun he => ?_⟩
    have hpos : 0 < (regionLiveness grid objects).liveObjects.getD i 0 := hbooked.starts i hi
    rw [hempty he] at hpos
    exact absurd hpos (lt_irrefl 0)
  have hpos : 0 < (regionLiveness grid objects).straddleInBytes.getD r 0 :=
    hbooked.reaches i hi r hir hlt hreach
  rw [hzero] at hpos
  exact absurd hpos (lt_irrefl 0)

theorem trustworthy_iff (objects : List (Nat × Nat)) (policy : ZRelocationPolicy) (excluded : Nat → Bool) :
    (selectRelocationRegions grid (regionLiveness grid objects) policy excluded).trustworthy = true ↔
      ∀ o ∈ objects, grid.regionOf o.1 ≠ none → headerSize ≤ o.2 := by
  have hcount : (selectRelocationRegions grid (regionLiveness grid objects) policy excluded).unsizable =
      objects.countP fun o => (grid.regionOf o.1).isSome && decide (o.2 < headerSize) := by
    rw [selectRelocationRegions,regionLiveness,foldl_unsizable,Nat.zero_add]
  rw [ZRegionSelection.trustworthy,decide_eq_true_eq,hcount,countP_eq_zero]
  refine forall₂_congr fun o _ => ?_
  cases grid.regionOf o.1 <;> simp

end

/-- No selected or empty region meets a sizable survivor that starts in another region, an empty one meets no
sizable survivor; a survivor of the grid that cannot be sized makes the selection untrustworthy, and a
trustworthy selection is safe for every survivor. -/
theorem relocation_set_safe (grid : ZRegionGrid) (objects : List (Nat × Nat)) (hlive : Survivors grid objects)
    (policy : ZRelocationPolicy) (excluded : Nat → Bool) :
    let sel := selectRelocationRegions grid (regionLiveness grid objects) policy excluded
    (∀ r, r ∈ sel.set.pageIds ∨ r ∈ sel.empty → ∀ o ∈ objects, headerSize ≤ o.2 → grid.Intersects r o →
      grid.regionOf o.1 = some r) ∧
    (∀ r ∈ sel.empty, ∀ o ∈ objects, headerSize ≤ o.2 → ¬ grid.Intersects r o) ∧
    (sel.trustworthy = true ↔ ∀ o ∈ objects, grid.regionOf o.1 ≠ none → headerSize ≤ o.2) ∧
    (sel.trustworthy = true →
      (∀ r, r ∈ sel.set.pageIds ∨ r ∈ sel.empty → ∀ o ∈ objects, grid.Intersects r o → grid.regionOf o.1 = some r) ∧
      ∀ r ∈ sel.empty, ∀ o ∈ objects, ¬ grid.Intersects r o) := by
  have hsafe := fun r hr o ho hsize hmeet =>
    listed_region_safe (o := o) (r := r) hlive policy excluded hr ho hsize hmeet
  refine ⟨fun r hr o ho hsize hmeet => (hsafe r hr o ho hsize hmeet).1,
    fun r hr o ho hsize hmeet => (hsafe r (.inr hr) o ho hsize hmeet).2 hr,trustworthy_iff objects policy excluded,?_⟩
  intro htrust
  -- what meets a region starts in the grid, so it is sizable
  have hsized : ∀ r, ∀ o ∈ objects, grid.Intersects r o → headerSize ≤ o.2 := by
    intro r o ho hmeet
    obtain ⟨i,hi,-⟩ := intersects_starts (hlive.above o ho) hmeet
    exact (trustworthy_iff objects policy excluded).mp htrust o ho (by rw [hi]; exact some_ne_none i)
  exact ⟨fun r hr o ho hmeet => (hsafe r hr o ho (hsized r o ho hmeet) hmeet).1,
    fun r hr o ho hmeet => (hsafe r (.inr hr) o ho (hsized r o ho hmeet) hmeet).2 hr⟩

def twoRegions : ZRegionGrid := ⟨4096,4224,64,by decide,by decide,by decide⟩

def plainPolicy : ZRelocationPolicy := ⟨2^26,fun _ => false,none,false,true⟩

theorem relocation_set_safe_two_regions :
    Survivors twoRegions [(4096,32),(4144,32)] ∧
      ((selectRelocationRegions twoRegions (regionLiveness twoRegions [(4096,32),(4144,32)]) plainPolicy
          fun _ => false).trustworthy = true ↔
        ∀ o ∈ [(4096,32),(4144,32)],twoRegions.regionOf o.1 ≠ none → headerSize ≤ o.2) := by
  have hlive : Survivors twoRegions [(4096,32),(4144,32)] := ⟨by decide,by decide⟩
  exact ⟨hlive,(relocation_set_safe twoRegions _ hlive plainPolicy fun _ => false).2.2.1⟩

/-- A survivor of 8 bytes, too small for a header, is alone in region 0, and region 0 is reported empty. -/
theorem unsizable_region_reported_empty :
    Survivors twoRegions [(4096,8)] ∧ twoRegions.regionOf 4096 = some 0 ∧ 8 < headerSize ∧
      twoRegions.Intersects 0 (4096,8) ∧
      0 ∈ (selectRelocationRegions twoRegions (regionLiveness twoRegions [(4096,8)]) plainPolicy fun _ => false).empty :=
  ⟨⟨by decide,by decide⟩,by decide,by decide,⟨4096,by decide,by decide,by decide,by decide⟩,by decide⟩

end CratonVM.Gc.Zgc
