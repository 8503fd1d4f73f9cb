import CratonVM.Lib.CheapestRun
import CratonVM.Gc.OldGen.Relayout

/-!
The window of survivors that a compaction for one large request slides: the scan with two ends that picks it, and
the free block that the slide leaves. Offsets and sizes stay below the capacity, so that no sum of the scan leaves
the machine's range; only the goals saturate.
-/
namespace CratonVM.Gc
open Spans Spans.Span OldGen CheapestRun List

/-- Which part of the generation is slid. -/
inductive SlideWindow
  | notNeeded
  | window (lo hi : Nat)
  | whole
  deriving DecidableEq, Repr

/-- A marked object behind Phase 0. -/
structure Survivor where
  offset : Nat
  size : Nat
  pinned : Bool
  deriving DecidableEq, Repr

def Survivor.span (s : Survivor) : Span := ⟨s.offset,s.size⟩

namespace SlideWindow
def fragmentationFitFactor : Nat := 4

def usizeMax : Nat := 2^64-1

def saturatingMul (a b : Nat) : Nat := min (a*b) usizeMax

def survivorAt (survivors : List Survivor) (k : Nat) : Survivor := survivors.getD k ⟨0,0,false⟩

def endOf (survivors : List Survivor) (k : Nat) : Nat := (survivorAt survivors k).offset+(survivorAt survivors k).size

def gapLo (survivors : List Survivor) (k : Nat) : Nat := if k = 0 then 0 else endOf survivors (k-1)

def gapHi (survivors : List Survivor) (capacity k : Nat) : Nat :=
  if k = survivors.length then capacity else (survivorAt survivors k).offset

def gap (survivors : List Survivor) (capacity k : Nat) : Nat := gapHi survivors capacity k-gapLo survivors k

def shrinkLeft (survivors : List Survivor) (gap : Nat → Nat) (target : Nat) :
    (rounds i freed moved : Nat) → Nat × Nat × Nat
  | 0, i, freed, moved => (i,freed,moved)
  | rounds+1, i, freed, moved =>
    if freed-gap i ≥ target then
      shrinkLeft survivors gap target rounds (i+1) (freed-gap i) (moved-(survivorAt survivors i).size)
    else (i,freed,moved)

/-- The variables of the scan; `best` has the bytes moved and both ends. -/
structure Scan where
  best : Option (Nat × Nat × Nat) := none
  i : Nat := 0
  freed : Nat := 0
  moved : Nat := 0
  deriving DecidableEq, Repr

def scanStep (survivors : List Survivor) (gap : Nat → Nat) (target : Nat) (s : Scan) (j : Nat) : Scan :=
  if (survivorAt survivors j).pinned then { s with i := j+1 }
  else
    let (freed,moved) := if s.i = j then (gap j,0) else (s.freed,s.moved)
    let (i,freed,moved) := shrinkLeft survivors gap target (j-s.i) s.i (freed+gap (j+1))
      (moved+(survivorAt survivors j).size)
    let better := freed ≥ target ∧ ∀ b ∈ s.best, moved < b.1
    ⟨if better then some (moved,i,j) else s.best,i,freed,moved⟩

def cheapestWindow (survivors : List Survivor) (n : Nat) (gap : Nat → Nat) (target : Nat) : Option SlideWindow :=
  ((List.range n).foldl (scanStep survivors gap target) {}).best.map fun (_,i,j) =>
    .window (survivorAt survivors i).offset (endOf survivors j)

def goals (need target : Nat) : List Nat :=
  [max target need,saturatingMul need fragmentationFitFactor,saturatingMul need 2,need]

/-- The loop over the goals; one that equals the goal before it is skipped. -/
def tryGoals (find : Nat → Option SlideWindow) : (previous : Option Nat) → List Nat → SlideWindow
  | _, [] => .whole
  | previous, goal::rest =>
    if previous = some goal then tryGoals find previous rest
    else
      match find goal with
      | some w => w
      | none => tryGoals find (some goal) rest

def fragmentationSlideWindow (survivors : List Survivor) (capacity need target : Nat) : SlideWindow :=
  let n := survivors.length
  if (List.range (n+1)).any fun k => gap survivors capacity k ≥ need then .notNeeded
  else tryGoals (cheapestWindow survivors n (gap survivors capacity)) none (goals need target)

/-- A survivor that Phase 1 leaves where it is. -/
def staysPut (pins : List Nat) (window : Option (Nat × Nat)) (off : Nat) : Bool :=
  pins.contains off || window.any fun (lo,hi) => off < lo || off ≥ hi

def slidBlocks (capacity : Nat) (stays : Nat → Bool) (objects : List Span) : List FreeBlock :=
  (slideAround stays 0 objects).2.1++trailing capacity (slideAround stays 0 objects).2.2

/-- The marked objects with their pins, by a cursor over the sorted pins. -/
def survivorsOf (marked : Nat → Bool) : (pins : List Nat) → List Span → List Survivor
  | _, [] => []
  | pins, o::rest =>
    if !marked o.offset then survivorsOf marked pins rest
    else
      let pins := pins.dropWhile (· < o.offset)
      ⟨o.offset,o.size,pins.head? = some o.offset⟩::survivorsOf marked pins rest

end SlideWindow
namespace OldGen
open SlideWindow

/-- `compact_around_pins_trusting` with its `slide_goal`. The pins are offsets here, sorted and without those that
the walk did not find. -/
def compactForRequest (g : OldGen) (objects : List Span) (marked : Nat → Bool) (pins : List Nat)
    (slideGoal : Option Nat) (refused : Bool) : Option (List Move) × OldGen :=
  match slideGoal.filter (· > 0) with
  | none => g.compactAroundPins objects marked (staysPut pins none) refused
  | some request =>
    match fragmentationSlideWindow (survivorsOf marked pins objects) g.capacity request
        (saturatingMul request (fragmentationFitFactor+1)) with
    | .notNeeded => (none,g)
    | .window lo hi => g.compactAroundPins objects marked (staysPut pins (some (lo,hi))) refused
    | .whole => g.compactAroundPins objects marked (staysPut pins none) refused

end OldGen
namespace SlideWindow
section
variable {survivors : List Survivor} {gap : Nat → Nat} {target : Nat}

/-- The sizes of the survivors by position, and which of them are pinned. -/
def sizeAt (survivors : List Survivor) (k : Nat) : Nat := (survivorAt survivors k).size

def pinnedAt (survivors : List Survivor) (k : Nat) : Bool := (survivorAt survivors k).pinned

theorem shrinkLeft_spec {j : Nat} (rounds : Nat) {i : Nat} (h : i+rounds = j) :
    ∃ i', shrinkLeft survivors gap target rounds i (gained gap i j) (spent (sizeAt survivors) i j) =
        (i',gained gap i' j,spent (sizeAt survivors) i' j) ∧ Advanced gap target i j i' := by
  induction rounds generalizing i with
  | zero => exact ⟨i,rfl,le_rfl,Nat.le_of_eq h,.inl rfl,.inl h⟩
  | succ rounds ih => ?_
  have hfreed : gained gap i j-gap i = gained gap (i+1) j := by
    rw [gained_drop (show i ≤ j by omega)]
    omega
  have hmoved : spent (sizeAt survivors) i j-(survivorAt survivors i).size = spent (sizeAt survivors) (i+1) j := by
    rw [spent_drop (show i ≤ j by omega)]
    exact Nat.add_sub_cancel_left _ _
  simp only [shrinkLeft,hfreed,hmoved]
  split
  · rename_i hreach
    obtain ⟨i',heq,ha⟩ := ih (show i+1+rounds = j by omega)
    have hle := ha.le
    refine ⟨i',heq,by omega,ha.stop,.inr ?_,ha.last⟩
    rcases ha.kept with rfl | hkept
    · exact hreach
    · exact hkept
  · exact ⟨i,rfl,le_rfl,by omega,.inl rfl,.inr (by omega)⟩

/-- What the best window is among those that end before `n`. -/
def BestOk (survivors : List Survivor) (gap : Nat → Nat) (target n : Nat) : Option (Nat × Nat × Nat) → Prop
  | none => Fruitless gap (pinnedAt survivors) target n
  | some (moved,i,j) =>
    moved = spent (sizeAt survivors) i j ∧ Cheapest gap (sizeAt survivors) (pinnedAt survivors) target n i j

structure ScanOk (survivors : List Survivor) (gap : Nat → Nat) (target n : Nat) (s : Scan) : Prop where
  front : Front gap (pinnedAt survivors) target n s.i
  sums : ∀ m, n = m+1 → s.i ≤ m → s.freed = gained gap s.i m ∧ s.moved = spent (sizeAt survivors) s.i m
  best : BestOk survivors gap target n s.best

theorem scanOk_zero : ScanOk survivors gap target 0 {} :=
  ⟨front_zero,fun m hm => absurd hm (by omega),fun _ j hj => absurd hj (Nat.not_lt_zero j)⟩

variable {n : Nat}

theorem BestOk.pinned {best : Option (Nat × Nat × Nat)} (h : BestOk survivors gap target n best)
    (hn : pinnedAt survivors n = true) : BestOk survivors gap target (n+1) best := by
  cases best with
  | none => exact Fruitless.extend h fun i' hr => absurd hr (not_run_blocked hn)
  | some b =>
    exact ⟨h.1,h.2.extend fun i' hr => absurd hr (not_run_blocked hn)⟩

theorem BestOk.extend {i i' : Nat} {best : Option (Nat × Nat × Nat)} (h : BestOk survivors gap target n best)
    (hf : Front gap (pinnedAt survivors) target n i) (hn : pinnedAt survivors n = false)
    (ha : Advanced gap target i n i') :
    BestOk survivors gap target (n+1)
      (if gained gap i' n ≥ target ∧ ∀ b ∈ best, spent (sizeAt survivors) i' n < b.1 then
        some (spent (sizeAt survivors) i' n,i',n) else best) := by
  have hrun := hf.run hn ha.le ha.stop
  have hlast : ∀ i'', Run (pinnedAt survivors) i'' n → target ≤ gained gap i'' n →
      target ≤ gained gap i' n ∧ spent (sizeAt survivors) i' n ≤ spent (sizeAt survivors) i'' n :=
    fun i'' hr ht => hf.cheapest ha hr ht
  split
  · rename_i hbetter
    refine ⟨rfl,cheapest_last hrun hbetter.1 (fun i'' hr ht => (hlast i'' hr ht).2) ?_⟩
    intro a b hb hr ht
    cases best with
    | none => exact absurd (h a b hb hr) (by omega)
    | some best => ?_
    obtain ⟨moved,x,y⟩ := best
    have hlt := hbetter.2 (moved,x,y) rfl
    have hle := h.2.least a b hb hr ht
    have heq := h.1
    omega
  rename_i hworse
  cases best with
  | none =>
    refine Fruitless.extend h ?_
    intro i'' hr
    by_contra hge
    have hreach := (hlast i'' hr (by omega)).1
    exact hworse ⟨hreach,by simp⟩
  | some best => ?_
  refine ⟨h.1,h.2.extend ?_⟩
  intro i'' hr ht
  obtain ⟨hreach,hle⟩ := hlast i'' hr ht
  by_contra hlt
  have heq := h.1
  exact hworse ⟨hreach,by simp; omega⟩

theorem scanStep_ok {s : Scan} (h : ScanOk survivors gap target n s) :
    ScanOk survivors gap target (n+1) (scanStep survivors gap target s n) := by
  unfold scanStep
  cases hn : (survivorAt survivors n).pinned with
  | true =>
    rw [if_pos rfl]
    refine ⟨front_blocked hn,?_,h.best.pinned hn⟩
    intro m hm hle
    dsimp only at hle
    omega
  | false => ?_
  have hsums : (if s.i = n then (gap n,0) else (s.freed,s.moved)) =
      (gained gap s.i n-gap (n+1),spent (sizeAt survivors) s.i n-(survivorAt survivors n).size) ∧
      gap (n+1) ≤ gained gap s.i n ∧ (survivorAt survivors n).size ≤ spent (sizeAt survivors) s.i n := by
    by_cases hi : s.i = n
    · rw [if_pos hi,hi,gained_self,spent_self]
      refine ⟨?_,by omega,le_rfl⟩
      simp [sizeAt]
    have hle := h.front.le
    obtain ⟨m,rfl⟩ : ∃ m, n = m+1 := ⟨n-1,by omega⟩
    obtain ⟨h1,h2⟩ := h.sums m rfl (by omega)
    rw [if_neg hi,gained_succ hle,spent_succ hle,h1,h2]
    refine ⟨?_,Nat.le_add_left _ _,Nat.le_add_left _ _⟩
    simp [sizeAt]
  obtain ⟨hpair,hgap,hsize⟩ := hsums
  obtain ⟨i',heq,ha⟩ := shrinkLeft_spec (n-s.i)
    (show s.i+(n-s.i) = n by have := h.front.le; omega)
  rw [hpair]
  dsimp only
  rw [Nat.sub_add_cancel hgap,Nat.sub_add_cancel hsize,heq]
  refine ⟨h.front.advance hn ha,?_,h.best.extend h.front hn ha⟩
  intro m hm _
  obtain rfl : n = m := by omega
  exact ⟨rfl,rfl⟩

theorem scan_ok (survivors : List Survivor) (gap : Nat → Nat) (target n : Nat) :
    ScanOk survivors gap target n ((range n).foldl (scanStep survivors gap target) {}) := by
  induction n with
  | zero => exact scanOk_zero
  | succ n ih =>
    rw [range_succ,foldl_append]
    exact scanStep_ok ih

theorem cheapestWindow_none :
    cheapestWindow survivors n gap target = none ↔ Fruitless gap (pinnedAt survivors) target n := by
  have h := (scan_ok survivors gap target n).best
  unfold cheapestWindow
  generalize ((range n).foldl (scanStep survivors gap target) {}).best = best at h ⊢
  cases best with
  | none => simpa [BestOk] using h
  | some b =>
    refine ⟨fun hn => by simp at hn,fun hf => ?_⟩
    have := hf _ _ h.2.lt h.2.run
    have := h.2.enough
    omega

theorem cheapestWindow_some {w : SlideWindow} (h : cheapestWindow survivors n gap target = some w) :
    ∃ i j, Cheapest gap (sizeAt survivors) (pinnedAt survivors) target n i j ∧
      w = .window (survivorAt survivors i).offset (endOf survivors j) := by
  have hok := (scan_ok survivors gap target n).best
  unfold cheapestWindow at h
  generalize ((range n).foldl (scanStep survivors gap target) {}).best = best at h hok
  cases best with
  | none => simp at h
  | some b =>
    obtain ⟨moved,i,j⟩ := b
    exact ⟨i,j,hok.2,(by simpa using h.symm)⟩

end

theorem tryGoals_eq (find : Nat → Option SlideWindow) {previous : Option Nat}
    (hprev : ∀ goal ∈ previous, find goal = none) (goals : List Nat) :
    tryGoals find previous goals = (goals.findSome? find).getD .whole := by
  induction goals generalizing previous with
  | nil => rfl
  | cons goal rest ih => ?_
  unfold tryGoals
  split
  · rename_i hskip
    rw [findSome?_cons,hprev goal hskip]
    exact ih hprev
  rw [findSome?_cons]
  cases hfind : find goal with
  | some w => rfl
  | none => exact ih fun g hg => by cases hg; exact hfind

theorem need_le_goal {need target goal : Nat} (hneed : need ≤ usizeMax) (h : goal ∈ goals need target) :
    need ≤ goal := by
  simp only [goals,saturatingMul,fragmentationFitFactor,mem_cons,not_mem_nil,or_false] at h
  omega

section
variable {survivors : List Survivor} {capacity need target : Nat}

theorem fragmentationSlideWindow_eq (h : ∀ k ≤ survivors.length, gap survivors capacity k < need) :
    fragmentationSlideWindow survivors capacity need target =
      ((goals need target).findSome? (cheapestWindow survivors survivors.length (gap survivors capacity))).getD
        .whole := by
  unfold fragmentationSlideWindow
  rw [if_neg,tryGoals_eq _ (by simp)]
  intro hany
  obtain ⟨k,hk,hge⟩ := any_eq_true.mp hany
  have := h k (by simpa using hk)
  have := of_decide_eq_true hge
  omega

theorem fragmentationSlideWindow_of_gap (target : Nat) {k : Nat} (hk : k ≤ survivors.length) (h : need ≤ gap survivors capacity k) :
    fragmentationSlideWindow survivors capacity need target = .notNeeded := by
  unfold fragmentationSlideWindow
  rw [if_pos]
  exact any_eq_true.mpr ⟨k,by simpa using hk,decide_eq_true h⟩

theorem fragmentationSlideWindow_cases (target : Nat) (h : ∀ k ≤ survivors.length, gap survivors capacity k < need) :
    (fragmentationSlideWindow survivors capacity need target = .whole ∧ ∀ goal ∈ goals need target,
      Fruitless (gap survivors capacity) (pinnedAt survivors) goal survivors.length) ∨
    ∃ tried goal rest i j, goals need target = tried++goal::rest ∧
      (∀ g ∈ tried, Fruitless (gap survivors capacity) (pinnedAt survivors) g survivors.length) ∧
      Cheapest (gap survivors capacity) (sizeAt survivors) (pinnedAt survivors) goal survivors.length i j ∧
      fragmentationSlideWindow survivors capacity need target =
        .window (survivorAt survivors i).offset (endOf survivors j) := by
  rw [fragmentationSlideWindow_eq h]
  cases hfound : (goals need target).findSome?
      (cheapestWindow survivors survivors.length (gap survivors capacity)) with
  | none =>
    refine .inl ⟨rfl,?_⟩
    intro goal hg
    exact cheapestWindow_none.mp (findSome?_eq_none_iff.mp hfound goal hg)
  | some w =>
    obtain ⟨tried,goal,rest,hsplit,hw,htried⟩ := findSome?_eq_some_iff.mp hfound
    obtain ⟨i,j,hc,rfl⟩ := cheapestWindow_some hw
    exact .inr ⟨tried,goal,rest,i,j,hsplit,fun g hg => cheapestWindow_none.mp (htried g hg),hc,rfl⟩

end

/-- Survivors as the walk of a generation yields them. -/
structure Laid (capacity : Nat) (survivors : List Survivor) : Prop where
  ascending : Ascending (survivors.map Survivor.span)
  nonempty : ∀ s ∈ survivors, 0 < s.size
  inside : ∀ s ∈ survivors, s.span.stop ≤ capacity

def pinsOf (survivors : List Survivor) : List Nat := (survivors.filter Survivor.pinned).map Survivor.offset

theorem slideAround_append (stays : Nat → Bool) (cursor : Nat) (l m : List Span) :
    (slideAround stays cursor (l++m)).2 =
      ((slideAround stays cursor l).2.1++(slideAround stays (slideAround stays cursor l).2.2 m).2.1,
        (slideAround stays (slideAround stays cursor l).2.2 m).2.2) := by
  induction l generalizing cursor with
  | nil => rfl
  | cons o rest ih =>
    simp only [cons_append,slideAround,ih]
    split
    · rfl
    · rfl

theorem slideAround_singleton (stays : Nat → Bool) (cursor : Nat) (o : Span) :
    (slideAround stays cursor [o]).2 =
      (if stays o.offset ∧ o.offset > cursor then [⟨cursor,o.offset-cursor⟩] else [],
        (if stays o.offset then o.offset else cursor)+o.size) := rfl

section
variable {survivors : List Survivor} {capacity i j k : Nat}

theorem survivorAt_eq (h : k < survivors.length) : survivorAt survivors k = survivors[k] := by
  simp [survivorAt,h]

theorem survivorAt_mem (h : k < survivors.length) : survivorAt survivors k ∈ survivors := by
  rw [survivorAt_eq h]
  exact getElem_mem h

section
variable (hl : Laid capacity survivors)
include hl

theorem Laid.end_le (hij : i < j) (hj : j < survivors.length) :
    endOf survivors i ≤ (survivorAt survivors j).offset := by
  have h := pairwise_iff_getElem.mp hl.ascending i j (by simp; omega) (by simpa using hj) hij
  simp only [getElem_map] at h
  unfold endOf
  rw [survivorAt_eq hj,survivorAt_eq (show i < survivors.length by omega)]
  exact h

theorem Laid.size_pos (hk : k < survivors.length) :
    0 < (survivorAt survivors k).size := hl.nonempty _ (survivorAt_mem hk)

theorem Laid.offset_lt (hij : i < j) (hj : j < survivors.length) :
    (survivorAt survivors i).offset < (survivorAt survivors j).offset := by
  have h1 := hl.end_le hij hj
  have h2 := hl.size_pos (show i < survivors.length by omega)
  unfold endOf at h1
  omega

theorem Laid.gapLo_le (hk : k ≤ survivors.length) :
    gapLo survivors k ≤ gapHi survivors capacity k := by
  unfold gapLo gapHi
  split
  · omega
  split
  · have hlt : k-1 < survivors.length := by omega
    exact hl.inside _ (survivorAt_mem hlt)
  · exact hl.end_le (by omega) (by omega)

theorem Laid.window_filled (hij : i ≤ j) (hj : j < survivors.length) :
    gapLo survivors i+spent (sizeAt survivors) i j+gained (gap survivors capacity) i j =
      gapHi survivors capacity (j+1) := by
  -- One survivor with the gaps on both sides.
  have hgap : ∀ k, k < survivors.length →
      gapLo survivors k+gap survivors capacity k = (survivorAt survivors k).offset ∧
      (survivorAt survivors k).offset+sizeAt survivors k+gap survivors capacity (k+1) =
        gapHi survivors capacity (k+1) := by
    intro k hk
    have h1 := hl.gapLo_le (Nat.le_of_lt hk)
    have h2 := hl.gapLo_le (show k+1 ≤ survivors.length from hk)
    have h3 : gapHi survivors capacity k = (survivorAt survivors k).offset := if_neg (by omega)
    have h4 : gapLo survivors (k+1) = (survivorAt survivors k).offset+sizeAt survivors k := rfl
    unfold gap
    omega
  induction j, hij using Nat.le_induction with
  | base =>
    rw [gained_self,spent_self]
    have := hgap i hj
    omega
  | succ j hij ih => ?_
  rw [gained_succ (by omega),spent_succ (by omega)]
  have h2 := hgap (j+1) hj
  have h3 : gapHi survivors capacity (j+1) = (survivorAt survivors (j+1)).offset := if_neg (by omega)
  have h4 : gap survivors capacity (j+2) = gap survivors capacity (j+1+1) := rfl
  omega

theorem mem_pinsOf (hk : k < survivors.length) :
    (survivorAt survivors k).offset ∈ pinsOf survivors ↔ pinnedAt survivors k = true := by
  unfold pinsOf pinnedAt
  rw [mem_map]
  constructor
  · rintro ⟨s,hs,hoff⟩
    obtain ⟨hs,hpin⟩ := mem_filter.mp hs
    obtain ⟨k',hk',rfl⟩ := getElem_of_mem hs
    rw [← survivorAt_eq hk'] at hoff hpin
    rcases Nat.lt_trichotomy k' k with hlt | rfl | hlt
    · have := hl.offset_lt hlt hk
      omega
    · exact hpin
    have := hl.offset_lt hlt hk'
    omega
  intro hpin
  exact ⟨_,mem_filter.mpr ⟨survivorAt_mem hk,hpin⟩,rfl⟩

theorem staysPut_iff (hr : Run (pinnedAt survivors) i j) (hj : j < survivors.length)
    (hk : k < survivors.length) :
    staysPut (pinsOf survivors) (some ((survivorAt survivors i).offset,endOf survivors j))
        (survivorAt survivors k).offset = true ↔ k < i ∨ j < k := by
  have hij := hr.le
  simp only [staysPut,Bool.or_eq_true,contains_iff_mem,mem_pinsOf hl hk,Option.any_some,decide_eq_true_eq]
  constructor
  · intro h
    by_contra hin
    have hpin := hr.free k (by omega) (by omega)
    rcases h with h | h | h
    · simp [hpin] at h
    · rcases Nat.lt_or_eq_of_le (show i ≤ k by omega) with hlt | rfl
      · have := hl.offset_lt hlt hk
        omega
      · omega
    have hsize := hl.size_pos hk
    rcases Nat.lt_or_eq_of_le (show k ≤ j by omega) with hlt | rfl
    · have := hl.offset_lt hlt hj
      unfold endOf at h
      omega
    unfold endOf at h
    omega
  rintro (h | h)
  · exact .inr (.inl (hl.offset_lt h (by omega)))
  · exact .inr (.inr (hl.end_le h hk))

end

/-- The gaps and the cursor behind the first `k` survivors. -/
def slidTo (stays : Nat → Bool) (survivors : List Survivor) (k : Nat) : List FreeBlock × Nat :=
  (slideAround stays 0 ((survivors.take k).map Survivor.span)).2

theorem slidTo_succ (stays : Nat → Bool) (hk : k < survivors.length) :
    slidTo stays survivors (k+1) =
      ((slidTo stays survivors k).1++
        (if stays (survivorAt survivors k).offset ∧ (survivorAt survivors k).offset > (slidTo stays survivors k).2
          then [⟨(slidTo stays survivors k).2,(survivorAt survivors k).offset-(slidTo stays survivors k).2⟩]
          else []),
        (if stays (survivorAt survivors k).offset then (survivorAt survivors k).offset
          else (slidTo stays survivors k).2)+(survivorAt survivors k).size) := by
  have htake : survivors.take (k+1) = survivors.take k++[survivorAt survivors k] := by
    rw [survivorAt_eq hk]
    simp
  unfold slidTo
  rw [htake,map_append,slideAround_append,map_singleton,slideAround_singleton]
  rfl

section
variable {stays : Nat → Bool}

theorem cursor_before (hstays : ∀ k < survivors.length, stays (survivorAt survivors k).offset = true ↔ k < i ∨ j < k)
    (hk : k ≤ i) (hi : i ≤ survivors.length) : (slidTo stays survivors k).2 = gapLo survivors k := by
  cases k with
  | zero => rfl
  | succ k =>
    have hstay := (hstays k (by omega)).mpr (.inl (by omega))
    rw [slidTo_succ stays (by omega),if_pos hstay]
    rfl

theorem cursor_inside (hstays : ∀ k < survivors.length, stays (survivorAt survivors k).offset = true ↔ k < i ∨ j < k)
    (hi : i ≤ k) (hk : k ≤ j) (hj : j < survivors.length) :
    (slidTo stays survivors (k+1)).2 = gapLo survivors i+spent (sizeAt survivors) i k := by
  induction k, hi using Nat.le_induction with
  | base => ?_
  | succ k hi ih =>
    have hmove : ¬stays (survivorAt survivors (k+1)).offset = true := by
      rw [hstays (k+1) (by omega)]
      omega
    rw [slidTo_succ stays (by omega),if_neg hmove,ih (by omega),spent_succ (by omega)]
    exact Nat.add_assoc _ _ _
  have hmove : ¬stays (survivorAt survivors i).offset = true := by
    rw [hstays i (by omega)]
    omega
  rw [slidTo_succ stays (by omega),if_neg hmove,cursor_before hstays le_rfl (by omega),spent_self]
  rfl

end

theorem slidBlocks_window (hl : Laid capacity survivors) (hr : Run (pinnedAt survivors) i j)
    (hj : j < survivors.length) (hpos : 0 < gained (gap survivors capacity) i j) :
    ⟨gapLo survivors i+spent (sizeAt survivors) i j,gained (gap survivors capacity) i j⟩ ∈
      slidBlocks capacity (staysPut (pinsOf survivors) (some ((survivorAt survivors i).offset,endOf survivors j)))
        (survivors.map Survivor.span) := by
  have hstays : ∀ k < survivors.length, _ := fun k hk => staysPut_iff hl hr hj hk
  generalize staysPut (pinsOf survivors) (some ((survivorAt survivors i).offset,endOf survivors j)) = stays at *
  have hfilled := hl.window_filled hr.le hj
  have hcursor := cursor_inside hstays hr.le le_rfl hj
  rcases Nat.lt_or_eq_of_le (show j+1 ≤ survivors.length from hj) with hlt | heq
  · -- The survivor behind the window stays and has the block in front of it.
    refine mem_append_left _ ?_
    have hhi : gapHi survivors capacity (j+1) = (survivorAt survivors (j+1)).offset := if_neg (by omega)
    have hstay := (hstays (j+1) hlt).mpr (.inr (by omega))
    have hsplit : survivors.map Survivor.span =
        (survivors.take (j+2)).map Survivor.span++(survivors.drop (j+2)).map Survivor.span := by
      rw [← map_append,take_append_drop]
    rw [hsplit,slideAround_append]
    refine mem_append_left _ ?_
    show _ ∈ (slidTo stays survivors (j+1+1)).1
    rw [slidTo_succ stays hlt,hcursor]
    refine mem_append_right _ ?_
    rw [if_pos ⟨hstay,by omega⟩]
    simp only [mem_singleton,Span.mk.injEq,true_and]
    omega
  -- The window goes up to the last survivor, and the block to the end of the store.
  refine mem_append_right _ ?_
  have hhi : gapHi survivors capacity (j+1) = capacity := if_pos heq
  have hstop : (slideAround stays 0 (survivors.map Survivor.span)).2.2 =
      gapLo survivors i+spent (sizeAt survivors) i j := by
    rw [← hcursor,heq,slidTo,take_length]
  unfold trailing
  rw [if_pos (by omega)]
  simp only [mem_singleton,Span.mk.injEq]
  omega

end

/-- No slide is needed exactly when some gap has the size already. Else there is a window exactly when some run of
survivors without a pin has the gaps for one of the goals, which is when it has them for the request itself; the
window is the cheapest run for the first goal that can be reached, and sliding it makes one block of its gaps. -/
theorem fragmentation_slide_window_optimal {survivors : List Survivor} {capacity need target : Nat}
    (hl : Laid capacity survivors) (hneed : need ≤ usizeMax) :
    (fragmentationSlideWindow survivors capacity need target = .notNeeded ↔
      ∃ k ≤ survivors.length, need ≤ gap survivors capacity k) ∧
    ((∀ k ≤ survivors.length, gap survivors capacity k < need) →
      ((∃ lo hi, fragmentationSlideWindow survivors capacity need target = .window lo hi) ↔
        ∃ goal ∈ goals need target, ∃ i j, j < survivors.length ∧ Run (pinnedAt survivors) i j ∧
          goal ≤ gained (gap survivors capacity) i j) ∧
      ((∃ lo hi, fragmentationSlideWindow survivors capacity need target = .window lo hi) ↔
        ∃ i j, j < survivors.length ∧ Run (pinnedAt survivors) i j ∧
          need ≤ gained (gap survivors capacity) i j)) ∧
    ∀ lo hi, fragmentationSlideWindow survivors capacity need target = .window lo hi →
      ∃ tried goal rest i j, goals need target = tried++goal::rest ∧
        (∀ g ∈ tried, Fruitless (gap survivors capacity) (pinnedAt survivors) g survivors.length) ∧
        lo = (survivorAt survivors i).offset ∧ hi = endOf survivors j ∧
        Cheapest (gap survivors capacity) (sizeAt survivors) (pinnedAt survivors) goal survivors.length i j ∧
        ∃ b ∈ slidBlocks capacity (staysPut (pinsOf survivors) (some (lo,hi))) (survivors.map Survivor.span),
          b.size = gained (gap survivors capacity) i j ∧ need ≤ b.size := by
  have hself : need ∈ goals need target := by simp [goals]
  by_cases hgap : ∃ k ≤ survivors.length, need ≤ gap survivors capacity k
  · obtain ⟨k,hk,hge⟩ := hgap
    have heq := fragmentationSlideWindow_of_gap target hk hge
    refine ⟨⟨fun _ => ⟨k,hk,hge⟩,fun _ => heq⟩,?_,?_⟩
    · intro hall
      exact absurd (hall k hk) (by omega)
    intro lo hi hw
    rw [heq] at hw
    cases hw
  have hall : ∀ k ≤ survivors.length, gap survivors capacity k < need := by
    intro k hk
    by_contra hge
    exact hgap ⟨k,hk,by omega⟩
  have hpos : 0 < need := Nat.lt_of_le_of_lt (Nat.zero_le _) (hall 0 (Nat.zero_le _))
  rcases fragmentationSlideWindow_cases target hall with
    ⟨heq,hnone⟩ | ⟨tried,goal,rest,i,j,hsplit,htried,hc,heq⟩
  · rw [heq]
    refine ⟨⟨fun h => by (cases h),fun h => absurd h hgap⟩,fun _ => ⟨⟨?_,?_⟩,?_,?_⟩,?_⟩
    · rintro ⟨lo,hi,h⟩
      cases h
    · rintro ⟨goal,hgoal,i,j,hj,hr,hge⟩
      exact absurd (hnone goal hgoal i j hj hr) (by omega)
    · rintro ⟨lo,hi,h⟩
      cases h
    · rintro ⟨i,j,hj,hr,hge⟩
      exact absurd (hnone need hself i j hj hr) (by omega)
    intro lo hi h
    cases h
  have hgoal : goal ∈ goals need target := by
    rw [hsplit]
    simp
  have hle := need_le_goal hneed hgoal
  have henough := hc.enough
  rw [heq]
  refine ⟨⟨fun h => by (cases h),fun h => absurd h hgap⟩,fun _ => ⟨⟨?_,?_⟩,?_,?_⟩,?_⟩
  · intro _
    exact ⟨goal,hgoal,i,j,hc.lt,hc.run,henough⟩
  · intro _
    exact ⟨_,_,rfl⟩
  · intro _
    exact ⟨i,j,hc.lt,hc.run,by omega⟩
  · intro _
    exact ⟨_,_,rfl⟩
  intro lo hi h
  obtain ⟨rfl,rfl⟩ := SlideWindow.window.inj h
  refine ⟨tried,goal,rest,i,j,hsplit,htried,rfl,rfl,hc,_,slidBlocks_window hl hc.run hc.lt (by omega),rfl,?_⟩
  show need ≤ gained (gap survivors capacity) i j
  omega

/-- With a pin in the middle the window lies behind it and takes the end of the store. -/
theorem fragmentation_slide_window_optimal_pinned :
    fragmentationSlideWindow [⟨8,16,false⟩,⟨32,8,false⟩,⟨48,16,true⟩,⟨72,8,false⟩] 96 20 24 = .window 72 80 ∧
      ∃ b ∈ slidBlocks 96 (staysPut (pinsOf [⟨8,16,false⟩,⟨32,8,false⟩,⟨48,16,true⟩,⟨72,8,false⟩]) (some (72,80)))
        ([⟨8,16,false⟩,⟨32,8,false⟩,⟨48,16,true⟩,⟨72,8,false⟩].map Survivor.span), 20 ≤ b.size := by
  have hl : Laid 96 [⟨8,16,false⟩,⟨32,8,false⟩,⟨48,16,true⟩,⟨72,8,false⟩] :=
    ⟨by unfold Ascending; decide,by decide,by decide⟩
  have heq : fragmentationSlideWindow [⟨8,16,false⟩,⟨32,8,false⟩,⟨48,16,true⟩,⟨72,8,false⟩] 96 20 24 =
      .window 72 80 := by decide
  refine ⟨heq,?_⟩
  obtain ⟨-,-,-,-,-,-,-,-,-,-,b,hb,-,hsize⟩ :=
    (fragmentation_slide_window_optimal hl (show 20 ≤ usizeMax by decide)).2.2 72 80 heq
  exact ⟨b,hb,hsize⟩

end SlideWindow

open Spans Spans.Span OldGen CheapestRun

namespace SlideWindow
section
variable {pins : List Nat} {x y : Nat}

end
end SlideWindow
namespace OldGen
open SlideWindow
section
variable {g : OldGen} {live : List Live} {objects : List Span} {marked : Nat → Bool} {pins : List Nat}

end
end OldGen
end CratonVM.Gc
