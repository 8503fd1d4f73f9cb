import CratonVM.Jit.Liveness.Postorder
import CratonVM.Lib.DirtyPasses

/-!
The drivers of the fixed points of `jit/src/regalloc.rs` with their searches in the words of the dirty set and
their count of visits. A driver that visits dirty blocks only goes through the states of the whole passes.
-/
namespace CratonVM.Jit.Liveness
open BitRows GenKill DirtyPasses Function
open List hiding get
open Bool hiding decide_false not_not
open BitVec hiding not_not

def highestFrom (bits : Row) : Nat → BitVec 64 → Option Nat
  | 0,w => if w ≠ 0#64 then some (highest w) else none
  | wi+1,w => if w ≠ 0#64 then some ((wi+1)*64+highest w) else highestFrom bits wi (word bits wi)

def lsHighestSetBelow (bits : Row) (limit : Nat) : Option Nat :=
  if limit = 0 then none
  else
    let last := limit-1
    let keep := last%64+1
    let mask := if keep ≥ 64 then BitVec.allOnes 64 else (1#64 <<< keep)-1#64
    highestFrom bits (last/64) (word bits (last/64) &&& mask)

def lowestFrom (bits : Row) (limit : Nat) : Nat → Nat → BitVec 64 → Option Nat
  | 0,_,_ => none
  | turns+1,wi,w =>
    if w ≠ 0#64 then if wi*64+lowest w < limit then some (wi*64+lowest w) else none
    else if (wi+1)*64 ≥ limit then none
    else lowestFrom bits limit turns (wi+1) (word bits (wi+1))

def lsLowestSetFrom (bits : Row) (start limit : Nat) : Option Nat :=
  if start ≥ limit then none
  else lowestFrom bits limit limit (start/64) (word bits (start/64) &&& (BitVec.allOnes 64 <<< (start%64)))

section
variable {bits : Row} {w : BitVec 64} {wi k j : Nat}

def BitUpTo (bits : Row) (wi : Nat) (w : BitVec 64) (k : Nat) : Prop :=
  k/64 = wi ∧ w.getLsbD (k%64) = true ∨ k/64 < wi ∧ get bits k = true

theorem highest_upTo (bits : Row) (wi : Nat) (hw : w ≠ 0#64) :
    BitUpTo bits wi w (wi*64+highest w) ∧ ∀ j, BitUpTo bits wi w j → j ≤ wi*64+highest w := by
  have hlt := highest_lt (w := w)
  refine ⟨.inl ⟨by omega,?_⟩,fun j hj => ?_⟩
  · rw [show (wi*64+highest w)%64 = highest w by omega]
    exact highest_bit hw
  rcases hj with ⟨hj,hb⟩|⟨hj,-⟩
  · have := le_highest hb
    omega
  · omega

theorem bitUpTo_succ : BitUpTo bits (wi+1) 0#64 j ↔ BitUpTo bits wi (word bits wi) j := by
  have hword : j/64 = wi → (get bits j = true ↔ (word bits wi).getLsbD (j%64) = true) := fun h => by rw [get_eq_word,h]
  refine ⟨fun h => ?_,fun h => ?_⟩
  · rcases h with ⟨-,hb⟩|⟨hj,hb⟩
    · simp at hb
    by_cases heq : j/64 = wi
    · exact .inl ⟨heq,(hword heq).mp hb⟩
    · exact .inr ⟨by omega,hb⟩
  rcases h with ⟨hj,hb⟩|⟨hj,hb⟩
  · exact .inr ⟨by omega,(hword hj).mpr hb⟩
  · exact .inr ⟨by omega,hb⟩

theorem highestFrom_spec (bits : Row) (wi : Nat) (w : BitVec 64) :
    (∀ k, highestFrom bits wi w = some k → BitUpTo bits wi w k ∧ ∀ j, BitUpTo bits wi w j → j ≤ k) ∧
    (highestFrom bits wi w = none → ∀ j, ¬BitUpTo bits wi w j) := by
  induction wi generalizing w with
  | zero => ?_
  | succ wi ih =>
    rw [highestFrom]
    by_cases hw : w = 0#64
    · subst hw
      simp only [bitUpTo_succ]
      exact ih (word bits wi)
    rw [if_pos hw]
    refine ⟨fun k hk => ?_,nofun⟩
    obtain rfl := Option.some.inj hk
    exact highest_upTo bits (wi+1) hw
  rw [highestFrom]
  by_cases hw : w = 0#64
  · rw [if_neg (not_not.mpr hw)]
    refine ⟨nofun,fun _ j hj => ?_⟩
    rcases hj with ⟨-,hb⟩|⟨hj,-⟩
    · simp [hw] at hb
    · omega
  rw [if_pos hw]
  refine ⟨fun k hk => ?_,nofun⟩
  obtain rfl := Option.some.inj hk
  have := highest_upTo bits 0 hw
  rwa [Nat.zero_mul,Nat.zero_add] at this

theorem lsHighestSetBelow_eq (bits : Row) (limit : Nat) : lsHighestSetBelow bits limit = highestSetBelow bits limit := by
  cases limit with
  | zero => rfl
  | succ last => ?_
  have hmask : ∀ j, (if last%64+1 ≥ 64 then allOnes 64 else (1#64 <<< (last%64+1))-1#64).getLsbD (j%64) =
      decide (j%64 ≤ last%64) := by
    intro j
    by_cases hfull : last%64+1 ≥ 64
    · rw [if_pos hfull,getLsbD_allOnes]
      exact decide_eq_decide.mpr (by omega)
    rw [if_neg hfull,below_bit (by omega)]
    exact decide_eq_decide.mpr (by omega)
  have hin : ∀ j, BitUpTo bits (last/64) (word bits (last/64) &&&
      (if last%64+1 ≥ 64 then allOnes 64 else (1#64 <<< (last%64+1))-1#64)) j ↔ j < last+1 ∧ get bits j = true := by
    intro j
    unfold BitUpTo
    rw [getLsbD_and,hmask,and_eq_true,decide_eq_true_eq,get_eq_word]
    refine ⟨fun h => ?_,fun ⟨hlt,hb⟩ => ?_⟩
    · rcases h with ⟨hj,hb,hle⟩|⟨hj,hb⟩
      · exact ⟨by omega,hj.symm ▸ hb⟩
      · exact ⟨by omega,hb⟩
    by_cases heq : j/64 = last/64
    · exact .inl ⟨heq,heq ▸ hb,by omega⟩
    · exact .inr ⟨by omega,hb⟩
  obtain ⟨hsome,hnone⟩ := highestFrom_spec bits (last/64)
    (word bits (last/64) &&& (if last%64+1 ≥ 64 then allOnes 64 else (1#64 <<< (last%64+1))-1#64))
  simp only [hin] at hsome hnone
  rw [lsHighestSetBelow,if_neg (Nat.succ_ne_zero last)]
  rw [Nat.add_sub_cancel]
  cases hres : highestSetBelow bits (last+1) with
  | none =>
    cases hfound : highestFrom bits (last/64) (word bits (last/64) &&&
        (if last%64+1 ≥ 64 then allOnes 64 else (1#64 <<< (last%64+1))-1#64)) with
    | none => rfl
    | some k =>
      obtain ⟨⟨hlt,hb⟩,-⟩ := hsome k hfound
      rw [highestSetBelow_none hres hlt] at hb
      cases hb
  | some k => ?_
  obtain ⟨hlt,hb,htop⟩ := highestSetBelow_some hres
  cases hfound : highestFrom bits (last/64) (word bits (last/64) &&&
      (if last%64+1 ≥ 64 then allOnes 64 else (1#64 <<< (last%64+1))-1#64)) with
  | none => exact absurd ⟨hlt,hb⟩ (hnone hfound k)
  | some k' =>
    obtain ⟨⟨hlt',hb'⟩,hmax⟩ := hsome k' hfound
    have hle := hmax k ⟨hlt,hb⟩
    by_cases heq : k' = k
    · rw [heq]
    rw [htop k' (by omega) hlt'] at hb'
    cases hb'

theorem lowestFrom_spec (bits : Row) (limit turns wi : Nat) (w : BitVec 64) (hturns : limit ≤ (wi+turns)*64) (hturn : 0 < turns)
    (start : Nat) (hstart : start/64 = wi) (hw : ∀ j, w.getLsbD j = (decide (start%64 ≤ j) && (word bits wi).getLsbD j)) :
    (∀ k, lowestFrom bits limit turns wi w = some k → start ≤ k ∧ k < limit ∧ get bits k = true ∧
      ∀ j, start ≤ j → j < k → get bits j = false) ∧
    (lowestFrom bits limit turns wi w = none → ∀ j, start ≤ j → j < limit → get bits j = false) := by
  induction turns generalizing wi w start with
  | zero => omega
  | succ turns ih => ?_
  have hhere : ∀ j, start ≤ j → j/64 = wi → get bits j = w.getLsbD (j%64) := by
    intro j hj heq
    rw [hw,get_eq_word,heq,decide_eq_true (by omega),Bool.true_and]
  rw [lowestFrom]
  by_cases hzero : w = 0#64
  · rw [if_neg (not_not.mpr hzero)]
    have hclean : ∀ j, start ≤ j → j/64 = wi → get bits j = false := by
      intro j hj heq
      rw [hhere j hj heq,hzero]
      simp
    by_cases hlast : (wi+1)*64 ≥ limit
    · rw [if_pos hlast]
      exact ⟨nofun,fun _ j hj hlt => hclean j hj (by omega)⟩
    rw [if_neg hlast]
    obtain ⟨hsome,hnone⟩ := ih (wi+1) (word bits (wi+1)) (by omega) (by omega) ((wi+1)*64) (by omega)
      fun j => by simp
    refine ⟨fun k hk => ?_,fun h j hj hlt => ?_⟩
    · obtain ⟨h1,h2,h3,h4⟩ := hsome k hk
      refine ⟨by omega,h2,h3,fun j hj hlt => ?_⟩
      by_cases hnext : (wi+1)*64 ≤ j
      · exact h4 j hnext hlt
      · exact hclean j hj (by omega)
    by_cases hnext : (wi+1)*64 ≤ j
    · exact hnone h j hnext hlt
    · exact hclean j hj (by omega)
  rw [if_pos hzero]
  have hlt := lowest_lt hzero
  have hbit := lowest_bit hzero
  have hle : start%64 ≤ lowest w := by
    rw [hw,and_eq_true,decide_eq_true_eq] at hbit
    exact hbit.1
  have hbelow : ∀ j, start ≤ j → j < wi*64+lowest w → get bits j = false := by
    intro j hj hjlt
    rw [hhere j hj (by omega),eq_false_iff]
    intro hb
    have := lowest_le hb
    omega
  by_cases hin : wi*64+lowest w < limit
  · rw [if_pos hin]
    refine ⟨fun k hk => ?_,nofun⟩
    obtain rfl := Option.some.inj hk
    refine ⟨by omega,hin,?_,hbelow⟩
    rw [hhere _ (by omega) (by omega),show (wi*64+lowest w)%64 = lowest w by omega]
    exact hbit
  rw [if_neg hin]
  exact ⟨nofun,fun _ j hj hjlt => hbelow j hj (by omega)⟩

theorem lsLowestSetFrom_spec (bits : Row) (start limit : Nat) :
    (∀ k, lsLowestSetFrom bits start limit = some k → start ≤ k ∧ k < limit ∧ get bits k = true ∧
      ∀ j, start ≤ j → j < k → get bits j = false) ∧
    (lsLowestSetFrom bits start limit = none → ∀ j, start ≤ j → j < limit → get bits j = false) := by
  rw [lsLowestSetFrom]
  by_cases hge : start ≥ limit
  · rw [if_pos hge]
    exact ⟨nofun,fun _ j hj hlt => absurd hlt (by omega)⟩
  rw [if_neg hge]
  refine lowestFrom_spec bits limit limit (start/64) _ (by omega) (by omega) start rfl fun j => ?_
  rw [getLsbD_and,getLsbD_from]
  by_cases hj : j < 64
  · rw [decide_eq_true hj,Bool.and_true,Bool.and_comm]
  rw [getLsbD_of_ge _ _ (by omega)]
  simp

end

section
variable {σ : Type}

/-- A visit gives the new state, whether it changed anything and whether it changed what others read. -/
abbrev Visit (σ : Type) := Nat → σ → σ × Bool × Bool

def roundRobinPass (visit : Visit σ) (blocks : List Nat) (p : Progress σ) : Progress σ :=
  blocks.foldl (fun p b =>
    let r := visit b p.state
    ⟨r.1,p.changed || (r.2.1 || r.2.2),p.visits+1⟩) p

/-- Whole passes over the blocks in the given order: the state, the verdict and the visits. -/
def roundRobinPasses (visit : Visit σ) (blocks : List Nat) : Nat → σ → Nat → σ × Bool × Nat
  | 0,s,visits => (s,false,visits)
  | n+1,s,visits =>
    let p := roundRobinPass visit blocks ⟨s,false,visits⟩
    if !p.changed then (p.state,true,p.visits) else roundRobinPasses visit blocks n p.state p.visits

def dirtyTurn (visit : Visit σ) (preds : Nat → List Nat) (order rank : Nat → Nat) (nb : Nat) (w : Progress σ × Row) (k : Nat) :
    Progress σ × Row :=
  let dirty := clear w.2 k
  let b := order k
  if b ≥ nb then (w.1,dirty)
  else
    let r := visit b w.1.state
    (⟨r.1,w.1.changed || (r.2.1 || r.2.2),w.1.visits+1⟩,
      if r.2.2 then (preds b).foldl (fun d p => if p < nb then set d (rank p) else d) dirty else dirty)

/-- A search from the position reached so far finds the next dirty block, until there is none. -/
def searchPass (search : Row → Nat → Option Nat) (after : Nat → Nat) (turn : Progress σ × Row → Nat → Progress σ × Row) :
    Nat → Nat → Progress σ × Row → Progress σ × Row
  | 0,_,w => w
  | n+1,at_,w =>
    match search w.2 at_ with
    | none => w
    | some k => searchPass search after turn n (after k) (turn w k)

def searchPasses (pass : Progress σ × Row → Progress σ × Row) : Nat → σ → Row → Nat → σ × Bool × Nat
  | 0,s,_,visits => (s,false,visits)
  | n+1,s,dirty,visits =>
    let w := pass (⟨s,false,visits⟩,dirty)
    if !w.1.changed then (w.1.state,true,w.1.visits) else searchPasses pass n w.1.state w.2 w.1.visits

/-- Each pass goes from the highest rank down. -/
def backwardPasses (visit : Visit σ) (preds : Nat → List Nat) (order rank : Nat → Nat) (nb maxIterations : Nat) (s : σ)
    (visits : Nat) : σ × Bool × Nat :=
  searchPasses (searchPass lsHighestSetBelow id (dirtyTurn visit preds order rank nb) nb nb) maxIterations s (allDirty nb) visits

/-- Each pass goes from the lowest index up. -/
def forwardPasses (visit : Visit σ) (succs : Nat → List Nat) (nb maxIterations : Nat) (s : σ) (visits : Nat) : σ × Bool × Nat :=
  searchPasses (searchPass (fun dirty start => lsLowestSetFrom dirty start nb) (·+1) (dirtyTurn visit succs id id nb) nb 0)
    maxIterations s (allDirty nb) visits

variable (succ : Nat → List Nat) (sets : FixedPointSets)

def setsVisit : Visit LiveSets := fixedPointVisit succ sets

def lsFixedPointRoundRobin (maxIterations : Nat) (st : LiveSets) (visits : Nat) : LiveSets × Bool × Nat :=
  roundRobinPasses (setsVisit succ sets) (List.range sets.nb).reverse maxIterations st visits

def lsFixedPointWorklistPreds (preds : Nat → List Nat) (maxIterations : Nat) (st : LiveSets) (visits : Nat) :
    LiveSets × Bool × Nat :=
  backwardPasses (setsVisit succ sets) preds id id sets.nb maxIterations st visits

def lsFixedPointWorklistOrdered (preds : Nat → List Nat) (order rank : List Nat) (maxIterations : Nat) (st : LiveSets)
    (visits : Nat) : LiveSets × Bool × Nat :=
  let nb := min (min sets.nb order.length) rank.length
  backwardPasses (setsVisit succ sets) preds (order.getD · 0) (rank.getD · 0) nb maxIterations st visits

/-- A closure that says whether the published set of the block changed. -/
def closureVisit (visit : Nat → σ → σ × Bool) : Visit σ := fun b s => ((visit b s).1,(visit b s).2,(visit b s).2)

def lsClosureFixedPointBackward (preds : Nat → List Nat) (nb maxIterations visits : Nat) (visit : Nat → σ → σ × Bool) (s : σ) :
    σ × Bool × Nat :=
  backwardPasses (closureVisit visit) preds id id nb maxIterations s visits

def lsClosureFixedPointForward (succs : Nat → List Nat) (nb maxIterations visits : Nat) (visit : Nat → σ → σ × Bool) (s : σ) :
    σ × Bool × Nat :=
  forwardPasses (closureVisit visit) succs nb maxIterations s visits

end

section
variable {succ : Nat → List Nat} {sets : FixedPointSets}

theorem visitAll_eq (succ : Nat → List Nat) (sets : FixedPointSets) (blocks : List Nat) (p : Progress LiveSets) :
    (roundRobinPass (setsVisit succ sets) blocks p).state = (visitAll succ sets blocks p.state).1 ∧
    (roundRobinPass (setsVisit succ sets) blocks p).changed = (p.changed || (visitAll succ sets blocks p.state).2) := by
  induction blocks generalizing p with
  | nil => exact ⟨rfl,(Bool.or_false _).symm⟩
  | cons b blocks ih =>
    obtain ⟨h1,h2⟩ := ih ⟨(fixedPointVisit succ sets b p.state).1,p.changed || ((fixedPointVisit succ sets b p.state).2.1 ||
      (fixedPointVisit succ sets b p.state).2.2),p.visits+1⟩
    refine ⟨h1,h2.trans ?_⟩
    rw [visitAll,Bool.or_assoc]

theorem fixedPointRoundRobin_eq (n : Nat) (st : LiveSets) (visits : Nat) :
    fixedPointRoundRobin succ sets n st =
      ((lsFixedPointRoundRobin succ sets n st visits).1,(lsFixedPointRoundRobin succ sets n st visits).2.1) := by
  induction n generalizing st visits with
  | zero => rfl
  | succ n ih => ?_
  obtain ⟨h1,h2⟩ := visitAll_eq succ sets (range sets.nb).reverse ⟨st,false,visits⟩
  rw [Bool.false_or] at h2
  rw [fixedPointRoundRobin,lsFixedPointRoundRobin,roundRobinPasses,h2,h1]
  split
  · rfl
  · exact ih _ _

section
variable (preds : Nat → List Nat)
include preds

theorem worklistPass_eq (order rank : Nat → Nat) (nb n limit : Nat) (w : Progress LiveSets × Row) :
    worklistPass succ sets preds order rank nb n limit ⟨w.2,w.1.state,w.1.changed⟩ =
      (let r := searchPass lsHighestSetBelow id (dirtyTurn (setsVisit succ sets) preds order rank nb) n limit w
      ⟨r.2,r.1.state,r.1.changed⟩) := by
  induction n generalizing limit w with
  | zero => rfl
  | succ n ih => ?_
  rw [worklistPass,searchPass,lsHighestSetBelow_eq]
  cases highestSetBelow w.2 limit with
  | none => rfl
  | some k => ?_
  have hturn := ih k (dirtyTurn (setsVisit succ sets) preds order rank nb w k)
  dsimp only at hturn ⊢
  rw [id_eq,← hturn,dirtyTurn]
  split
  · rfl
  rw [Bool.or_assoc]
  rfl

theorem worklistPasses_eq (order rank : Nat → Nat) (nb n : Nat) (dirty : Row) (st : LiveSets)
    (visits : Nat) :
    worklistPasses succ sets preds order rank nb n dirty st =
      (let r := searchPasses (searchPass lsHighestSetBelow id (dirtyTurn (setsVisit succ sets) preds order rank nb) nb nb) n st
        dirty visits
      (r.1,r.2.1)) := by
  induction n generalizing dirty st visits with
  | zero => rfl
  | succ n ih =>
    rw [worklistPasses,searchPasses,worklistPass_eq preds order rank nb nb nb (⟨st,false,visits⟩,dirty)]
    split
    · rfl
    · exact ih _ _ _

theorem fixedPointWorklistOrdered_eq (order rank : List Nat) (n : Nat) (st : LiveSets) (visits : Nat) :
    fixedPointWorklistOrdered succ sets preds order rank n st =
      ((lsFixedPointWorklistOrdered succ sets preds order rank n st visits).1,
        (lsFixedPointWorklistOrdered succ sets preds order rank n st visits).2.1) :=
  worklistPasses_eq _ _ _ _ _ _ _ _

theorem fixedPointWorklistPreds_eq (n : Nat) (st : LiveSets) (visits : Nat) :
    fixedPointWorklistPreds succ sets preds n st =
      ((lsFixedPointWorklistPreds succ sets preds n st visits).1,(lsFixedPointWorklistPreds succ sets preds n st visits).2.1) :=
  worklistPasses_eq _ _ _ _ _ _ _ _

end
end

section
variable {σ : Type} {visit : Visit σ} {preds : Nat → List Nat} {order rank : Nat → Nat} {nb : Nat}

/-- The driver over ranks. -/
def driver (visit : Visit σ) (preds : Nat → List Nat) (order rank : Nat → Nat) (nb : Nat) : Driver Nat σ Row where
  visit k s := (visit (order k) s).1
  changed k s := (visit (order k) s).2.1 || (visit (order k) s).2.2
  dirty d k := get d k
  turn k s d :=
    if (visit (order k) s).2.2 then (preds (order k)).foldl (fun d p => if p < nb then set d (rank p) else d) (clear d k)
    else clear d k

theorem roundRobinPasses_eq (ks : List Nat) (n : Nat) (s : σ) (visits : Nat) :
    roundRobinPasses visit (ks.map order) n s visits = (driver visit preds order rank nb).wholePasses ks n s visits := by
  induction n generalizing s visits with
  | zero => rfl
  | succ n ih => ?_
  have hpass : ∀ p, roundRobinPass visit (ks.map order) p = (driver visit preds order rank nb).wholePass ks p := by
    intro p
    rw [roundRobinPass,foldl_map]
    rfl
  rw [roundRobinPasses,Driver.wholePasses,hpass]
  split
  · rfl
  · exact ih _ _

theorem dirtyTurn_eq (w : Progress σ × Row) {k : Nat} (hk : order k < nb) (hdirty : get w.2 k = true) :
    (driver visit preds order rank nb).dirtyStep w k = dirtyTurn visit preds order rank nb w k := by
  have hd : (driver visit preds order rank nb).dirty w.2 k = true := hdirty
  rw [Driver.dirtyStep,if_pos hd,dirtyTurn,if_neg (Nat.not_le.mpr hk)]
  rfl

theorem dirtyStep_clean (w : Progress σ × Row) {k : Nat} (hclean : get w.2 k = false) :
    (driver visit preds order rank nb).dirtyStep w k = w := by
  have hd : (driver visit preds order rank nb).dirty w.2 k = false := hclean
  rw [Driver.dirtyStep,hd]
  rfl

theorem highestSetBelow_succ (bits : Row) (limit : Nat) :
    highestSetBelow bits (limit+1) = if get bits limit then some limit else highestSetBelow bits limit := by
  rw [highestSetBelow,range_succ,List.reverse_append,reverse_singleton,singleton_append,find?_cons]
  cases get bits limit <;> rfl

theorem searchPass_backward {n limit : Nat} (hn : limit ≤ n) (horder : ∀ k < limit, order k < nb) (w : Progress σ × Row) :
    searchPass lsHighestSetBelow id (dirtyTurn visit preds order rank nb) n limit w =
      (driver visit preds order rank nb).dirtyPass (range limit).reverse w := by
  induction limit generalizing n w with
  | zero =>
    cases n with
    | zero => rfl
    | succ n =>
      rfl
  | succ limit ih => ?_
  obtain ⟨n,rfl⟩ := Nat.exists_eq_succ_of_ne_zero (show n ≠ 0 by omega)
  have hbelow : ∀ k < limit, order k < nb := fun k hk => horder k (by omega)
  rw [range_succ,List.reverse_append,reverse_singleton,singleton_append,Driver.dirtyPass,foldl_cons,
    searchPass,lsHighestSetBelow_eq,highestSetBelow_succ]
  cases hd : get w.2 limit with
  | true =>
    rw [dirtyTurn_eq w (horder limit (by omega)) hd]
    exact ih (by omega) hbelow _
  | false =>
    rw [dirtyStep_clean w hd]
    have hskip := ih (n := n+1) (by omega) hbelow w
    rw [searchPass,lsHighestSetBelow_eq] at hskip
    exact hskip

theorem lsLowestSetFrom_step {bits : Row} {start limit : Nat} (h : start < limit) :
    lsLowestSetFrom bits start limit = if get bits start then some start else lsLowestSetFrom bits (start+1) limit := by
  obtain ⟨hsome,hnone⟩ := lsLowestSetFrom_spec bits start limit
  obtain ⟨hsome',hnone'⟩ := lsLowestSetFrom_spec bits (start+1) limit
  cases hres : lsLowestSetFrom bits start limit with
  | none =>
    rw [hnone hres start le_rfl h,if_neg Bool.false_ne_true]
    cases hres' : lsLowestSetFrom bits (start+1) limit with
    | none => rfl
    | some k =>
      obtain ⟨h1,h2,h3,-⟩ := hsome' k hres'
      rw [hnone hres k (by omega) h2] at h3
      cases h3
  | some k => ?_
  obtain ⟨h1,h2,h3,h4⟩ := hsome k hres
  cases hb : get bits start with
  | true =>
    rw [if_pos rfl]
    by_cases heq : k = start
    · rw [heq]
    rw [h4 start le_rfl (by omega)] at hb
    cases hb
  | false => ?_
  rw [if_neg Bool.false_ne_true]
  have hne : k ≠ start := fun heq => by
    rw [heq,hb] at h3
    cases h3
  cases hres' : lsLowestSetFrom bits (start+1) limit with
  | none =>
    rw [hnone' hres' k (by omega) h2] at h3
    cases h3
  | some k' => ?_
  obtain ⟨h1',h2',h3',h4'⟩ := hsome' k' hres'
  rcases Nat.lt_trichotomy k k' with hlt|heq|hlt
  · rw [h4' k (by omega) hlt] at h3
    cases h3
  · rw [heq]
  rw [h4 k' (by omega) hlt] at h3'
  cases h3'

theorem searchPass_forward (start : Nat) {n left : Nat} (hn : left ≤ n) (hnb : start+left = nb) (w : Progress σ × Row) :
    searchPass (fun dirty start => lsLowestSetFrom dirty start nb) (·+1) (dirtyTurn visit preds id id nb) n start w =
      (driver visit preds id id nb).dirtyPass (range' start left) w := by
  induction left generalizing n start w with
  | zero =>
    have hnone : ∀ bits, lsLowestSetFrom bits start nb = none := fun bits => by
      rw [lsLowestSetFrom,if_pos (by omega)]
    cases n with
    | zero => rfl
    | succ n =>
      rw [searchPass,hnone]
      rfl
  | succ left ih => ?_
  obtain ⟨n,rfl⟩ := Nat.exists_eq_succ_of_ne_zero (show n ≠ 0 by omega)
  rw [range'_succ,Driver.dirtyPass,foldl_cons,searchPass,lsLowestSetFrom_step (by omega)]
  cases hd : get w.2 start with
  | true =>
    rw [dirtyTurn_eq w (show id start < nb by rw [id_eq]; omega) hd]
    exact ih (start+1) (by omega) (by omega) _
  | false =>
    rw [dirtyStep_clean w hd]
    have hskip := ih (start+1) (n := n+1) (by omega) (by omega) w
    exact hskip

variable {ks : List Nat}

theorem searchPasses_eq {pass : Progress σ × Row → Progress σ × Row} {D : Driver Nat σ Row}
    (hpass : ∀ w, pass w = D.dirtyPass ks w) (n : Nat) (s : σ) (d : Row) (visits : Nat) :
    searchPasses pass n s d visits = D.dirtyPasses ks n s d visits := by
  induction n generalizing s d visits with
  | zero => rfl
  | succ n ih =>
    rw [searchPasses,Driver.dirtyPasses,hpass]
    split
    · rfl
    · exact ih _ _ _

/-- The same state and verdict with no more visits. -/
def Agrees (w r : σ × Bool × Nat) : Prop := w.1 = r.1 ∧ w.2.1 = r.2.1 ∧ w.2.2 ≤ r.2.2

/-- A visit settles its block until a block that it reads publishes something new. -/
structure LocalVisit (visit : Visit σ) (nb : Nat) (ok : σ → Prop) (quiet : Nat → σ → Prop) (reads : Nat → Nat → Prop) :
    Prop where
  next : ∀ s, ok s → ∀ b < nb, ok (visit b s).1
  still : ∀ s, ok s → ∀ b < nb, quiet b s → visit b s = (s,false,false)
  self : ∀ s, ok s → ∀ b < nb, ((visit b s).2.2 = true → ¬reads b b) → quiet b (visit b s).1
  other : ∀ s, ok s → ∀ b < nb, ∀ c < nb, c ≠ b → quiet c s → ((visit b s).2.2 = true → ¬reads c b) → quiet c (visit b s).1

/-- An order of the blocks and the place of each in it. -/
structure Permutes (nb : Nat) (order rank : Nat → Nat) : Prop where
  order_lt : ∀ k < nb, order k < nb
  rank_lt : ∀ b < nb, rank b < nb
  order_rank : ∀ b < nb, order (rank b) = b
  rank_order : ∀ k < nb, rank (order k) = k

theorem permutes_id (nb : Nat) : Permutes nb id id := ⟨fun _ h => h,fun _ h => h,fun _ _ => rfl,fun _ _ => rfl⟩

variable {ok : σ → Prop} {quiet : Nat → σ → Prop} {reads : Nat → Nat → Prop}

section
variable (h : LocalVisit visit nb ok quiet reads) (ho : Permutes nb order rank)
  (hpreds : ∀ b < nb, ∀ c < nb, reads c b → c ∈ preds b)
include h ho hpreds

theorem LocalVisit.settles (hks : ∀ k ∈ ks, k < nb) :
    (driver visit preds order rank nb).Settles ks (fun s d => ok s ∧ nb ≤ 64*d.length) (fun k s => quiet (order k) s)
      (fun k s => (visit (order k) s).2.2) (fun j k => reads (order j) (order k)) := by
  have hturn : ∀ k s d, ((driver visit preds order rank nb).turn k s d).length = d.length := by
    intro k s d
    rw [driver]
    dsimp only
    split
    · rw [(markPreds_spec _ _).1,length_clear]
    · exact length_clear _ _
  have hclear : ∀ {d j k}, j ≠ k → get d j = true → get (clear d k) j = true := by
    intro d j k hne hd
    rw [get_clear,hd,decide_eq_false (Ne.symm hne)]
    rfl
  refine ⟨fun s d hs k hk hq => ?_,fun s d hs k hk => ⟨?_,?_⟩,fun s d hs k hk => ?_,fun s d hs k hk j hj hne => ?_,
    fun s d hs k hk j hj hne hd => ?_,fun s d hs k hk j hj hp hr => ?_⟩
  · have hv := h.still s hs.1 _ (ho.order_lt k (hks k hk)) hq
    rw [driver]
    dsimp only
    rw [hv]
    exact ⟨rfl,rfl⟩
  · exact h.next s hs.1 _ (ho.order_lt k (hks k hk))
  · rw [hturn]
    exact hs.2
  · exact h.self s hs.1 _ (ho.order_lt k (hks k hk))
  · refine h.other s hs.1 _ (ho.order_lt k (hks k hk)) _ (ho.order_lt j (hks j hj)) fun heq => hne ?_
    rw [← ho.rank_order j (hks j hj),heq,ho.rank_order k (hks k hk)]
  · rw [driver]
    dsimp only
    split
    · exact (markPreds_spec _ _).2.1 j (hclear hne hd)
    · exact hclear hne hd
  have hlt := ho.order_lt j (hks j hj)
  have hin := hpreds _ (ho.order_lt k (hks k hk)) _ hlt hr
  have hmark := (@markPreds_spec nb rank (preds (order k)) (clear d k)).2.2 (order j) hin hlt
  rw [ho.rank_order j (hks j hj),length_clear] at hmark
  rw [driver]
  dsimp only
  rw [if_pos hp]
  have := hks j hj
  exact hmark (by omega)

theorem LocalVisit.agrees (hks : ∀ k ∈ ks, k < nb)
    {pass : Progress σ × Row → Progress σ × Row} (hpass : ∀ w, pass w = (driver visit preds order rank nb).dirtyPass ks w)
    (n : Nat) {s : σ} (hs : ok s) (visits : Nat) :
    Agrees (searchPasses pass n s (allDirty nb) visits) (roundRobinPasses visit (ks.map order) n s visits) := by
  obtain ⟨hlen,hall⟩ := allDirty_spec nb
  rw [searchPasses_eq hpass,roundRobinPasses_eq]
  exact (h.settles ho hpreds hks).covers.dirtyPasses_eq n ⟨⟨hs,hlen⟩,fun k hk => .inl (hall k (hks k hk))⟩ le_rfl

theorem LocalVisit.backward_agrees (n : Nat) {s : σ} (hs : ok s) (visits : Nat) :
    Agrees (backwardPasses visit preds order rank nb n s visits)
      (roundRobinPasses visit ((range nb).reverse.map order) n s visits) :=
  h.agrees ho hpreds (fun _ hk => mem_range.mp (mem_reverse.mp hk))
    (fun w => searchPass_backward le_rfl ho.order_lt w) n hs visits

end

theorem LocalVisit.forward_agrees (h : LocalVisit visit nb ok quiet reads) (hsuccs : ∀ b < nb, ∀ c < nb, reads c b → c ∈ preds b)
    (n : Nat) {s : σ} (hs : ok s) (visits : Nat) :
    Agrees (forwardPasses visit preds nb n s visits) (roundRobinPasses visit (range nb) n s visits) := by
  have hks : ∀ k ∈ range' 0 nb, k < nb := by
    intro k hk
    rw [mem_range'_1] at hk
    omega
  have hagrees := h.agrees (permutes_id nb) hsuccs hks
    (fun w => searchPass_forward 0 le_rfl (Nat.zero_add _) w) n hs visits
  rwa [map_id,← range_eq_range'] at hagrees

end

section
variable {succ : Nat → List Nat} {sets : FixedPointSets} {st st' : LiveSets} {b : Nat}

theorem row_ext {a c : Row} (hlen : a.length = c.length) (h : ∀ k, get a k = true ↔ get c k = true) : a = c := by
  refine ext_getElem hlen fun i hi hi' => eq_of_getLsbD_eq fun j hj => ?_
  have hword := Bool.eq_iff_iff.mpr (h (i*64+j))
  rw [get_of_word a hj,get_of_word c hj,word,word,List.getElem?_eq_getElem hi,List.getElem?_eq_getElem hi'] at hword
  exact hword

theorem fixedPointVisit_still (hsets : sets.Shapes) (hst : st.Shapes sets.nb sets.words) (hb : b < sets.nb)
    (hclosed : ClosedAt (problem succ sets) st.table b) : fixedPointVisit succ sets b st = (st,false,false) := by
  have hv := @fixedPointVisit_visited succ sets st b hsets hst hb
  have hout : rowOf (fixedPointVisit succ sets b st).1.lout b = rowOf st.lout b := by
    refine row_ext ((hv.shapes.lout.width b hb).trans (hst.lout.width b hb).symm) fun k => (hv.lout k).trans ?_
    refine ⟨fun h => ?_,.inl⟩
    rcases h with h|h|⟨s,hs,h⟩
    · exact h
    · exact hclosed.edge k h
    · exact hclosed.next k s hs h
  have hin : rowOf (fixedPointVisit succ sets b st).1.li b = rowOf st.li b := by
    refine row_ext ((hv.shapes.li.width b hb).trans (hst.li.width b hb).symm) fun k => (hv.li k).trans ?_
    refine ⟨fun h => ?_,.inl⟩
    rcases h with h|h|⟨h,hk⟩
    · exact h
    · exact hclosed.gen k h
    rw [hout] at h
    exact hclosed.through k h hk
  have hsame : (fixedPointVisit succ sets b st).1 = st := by
    have hli : (fixedPointVisit succ sets b st).1.li = st.li := rows_ext hst.li hv.shapes.li fun c => by
      by_cases hc : c = b
      · rw [hc,hin]
      · exact hv.lis c (.inl hc)
    have hlout : (fixedPointVisit succ sets b st).1.lout = st.lout := rows_ext hst.lout hv.shapes.lout fun c => by
      by_cases hc : c = b
      · rw [hc,hout]
      · exact hv.louts c (.inl hc)
    exact LiveSets.mk.injEq .. ▸ ⟨hli,hlout⟩
  have hflags : (fixedPointVisit succ sets b st).2 =
      (decide (rowOf (fixedPointVisit succ sets b st).1.lout b ≠ rowOf st.lout b),
        decide (rowOf (fixedPointVisit succ sets b st).1.li b ≠ rowOf st.li b)) := by
    simp only [fixedPointVisit,rowOf_set (hst.lout.length.symm ▸ hb),rowOf_set (hst.li.length.symm ▸ hb),if_true]
  rw [hout,hin] at hflags
  refine Prod.ext hsame (hflags.trans ?_)
  simp

theorem Visited.closedAt_self {outChanged inChanged : Bool} (h : Visited succ sets b st st' outChanged inChanged)
    (hself : inChanged = true → ¬(problem succ sets).next b b) : ClosedAt (problem succ sets) st'.table b := by
  cases inChanged with
  | false => exact h.closedAt
  | true => ?_
  refine ⟨fun k hk => (h.lout k).mpr (.inr (.inl hk)),fun k s hs hk => ?_,fun k hk => (h.li k).mpr (.inr (.inl hk)),
    fun k hk hkill => (h.li k).mpr (.inr (.inr ⟨hk,hkill⟩))⟩
  have hsb : s ≠ b := fun heq => hself rfl (heq ▸ hs)
  have hrow := h.lis s (.inl hsb)
  refine (h.lout k).mpr (.inr (.inr ⟨s,hs,?_⟩))
  simpa only [LiveSets.table,hrow] using hk

theorem localVisit_sets (hsets : sets.Shapes) :
    LocalVisit (setsVisit succ sets) sets.nb (fun st => st.Shapes sets.nb sets.words)
      (fun b st => ClosedAt (problem succ sets) st.table b) (problem succ sets).next := by
  refine ⟨fun st hst b hb => ?_,fun st hst b hb => ?_,fun st hst b hb => ?_,fun st hst b hb c _ hne hc hnext => ?_⟩
  · exact (fixedPointVisit_visited hsets hst hb).shapes
  · exact fixedPointVisit_still hsets hst hb
  · exact (fixedPointVisit_visited hsets hst hb).closedAt_self
  exact (fixedPointVisit_visited hsets hst hb).closedAt_other hne hc fun hs =>
    eq_false_iff.mpr fun hin => hnext hin hs

theorem roundRobinPasses_shapes (hsets : sets.Shapes) {blocks : List Nat} (hblocks : ∀ b ∈ blocks, b < sets.nb) (n : Nat)
    (h : Running succ sets st) (visits : Nat) :
    Running succ sets (roundRobinPasses (setsVisit succ sets) blocks n st visits).1 ∧
    ((roundRobinPasses (setsVisit succ sets) blocks n st visits).2.1 = true → (∀ b < sets.nb, b ∈ blocks) →
      (roundRobinPasses (setsVisit succ sets) blocks n st visits).1.Exact succ sets) := by
  induction n generalizing st visits with
  | zero => exact ⟨h,nofun⟩
  | succ n ih => ?_
  obtain ⟨hstate,hchanged⟩ := visitAll_eq succ sets blocks ⟨st,false,visits⟩
  have hrun := visitAll_running hsets h hblocks
  rw [roundRobinPasses,hchanged,hstate]
  split
  · rename_i hstop
    obtain ⟨heq,hclosed⟩ := visitAll_settled hsets h hblocks (by simpa using hstop)
    rw [heq]
    exact ⟨h,fun _ hall => h.sound.exact fun b hb => hclosed b (hall b hb)⟩
  · exact ih hrun _

theorem exact_unique (hst : st.Shapes sets.nb sets.words) (hst' : st'.Shapes sets.nb sets.words) (h : st.Exact succ sets)
    (h' : st'.Exact succ sets) : st' = st := by
  have hrow : ∀ {rows rows' : List Row}, Shaped sets.nb sets.words rows → Shaped sets.nb sets.words rows' →
      (∀ b < sets.nb, ∀ k, get (rowOf rows' b) k = true ↔ get (rowOf rows b) k = true) → rows' = rows := by
    intro rows rows' hr hr' hk
    refine rows_ext hr hr' fun b => ?_
    by_cases hb : b < sets.nb
    · exact row_ext ((hr'.width b hb).trans (hr.width b hb).symm) (hk b hb)
    have hlen := hr.length
    have hlen' := hr'.length
    simp [rowOf,getD_eq_getElem?_getD,List.getElem?_eq_none (show rows.length ≤ b by omega),
      List.getElem?_eq_none (show rows'.length ≤ b by omega)]
  have hli := hrow hst.li hst'.li fun b hb k => (h' .entry b k hb).trans (h .entry b k hb).symm
  have hlout := hrow hst.lout hst'.lout fun b hb k => (h' .leaving b k hb).trans (h .leaving b k hb).symm
  exact LiveSets.mk.injEq .. ▸ ⟨hli,hlout⟩

end

/-- A visit computes the state of a block from that state and from what the blocks publish. -/
structure Closure (α β : Type) where
  publish : α → β
  update : Nat → α → (Nat → β) → α

namespace Closure
variable {α β : Type} [DecidableEq β] (v : Closure α β)

def visit (b : Nat) (s : Nat → α) : (Nat → α) × Bool :=
  let a := v.update b (s b) fun c => v.publish (s c)
  (Function.update s b a,v.publish a ≠ v.publish (s b))

/-- The visit to a block reads what its neighbours publish, and changes nothing when it is repeated. -/
structure Local (v : Closure α β) (neighbours : Nat → List Nat) : Prop where
  reads : ∀ b a p q, (∀ c ∈ neighbours b, p c = q c) → v.update b a p = v.update b a q
  repeated : ∀ b a p, v.update b (v.update b a p) p = v.update b a p

variable {v} {neighbours : Nat → List Nat}

theorem localVisit (h : v.Local neighbours) (nb : Nat) :
    LocalVisit (closureVisit v.visit) nb (fun _ => True) (fun b s => v.update b (s b) (fun c => v.publish (s c)) = s b)
      (fun c b => b ∈ neighbours c) := by
  -- what the other blocks see of a visit
  have hseen : ∀ s b c, c ≠ b ∨ (v.visit b s).2 = false → v.publish ((v.visit b s).1 c) = v.publish (s c) := by
    intro s b c hc
    by_cases hcb : c = b
    · subst hcb
      have hflag := hc.resolve_left (not_not.mpr rfl)
      simp only [visit,decide_eq_false_iff_not,not_not] at hflag ⊢
      rw [update_self]
      exact hflag
    simp only [visit]
    rw [update_of_ne hcb]
  refine ⟨fun _ _ _ _ => trivial,fun s _ b _ hq => ?_,fun s _ b _ hself => ?_,fun s _ b _ c _ hne hq hnext => ?_⟩
  · simp [closureVisit,visit,hq,update_eq_self,ne_eq,not_true_eq_false,decide_false]
  · have hsame : ∀ c ∈ neighbours b, v.publish ((v.visit b s).1 c) = v.publish (s c) := by
      intro c hc
      by_cases hcb : c = b
      · subst hcb
        exact hseen s c c (.inr (eq_false_iff.mpr fun hp => hself hp hc))
      · exact hseen s b c (.inl hcb)
    have hown : (v.visit b s).1 b = v.update b (s b) fun c => v.publish (s c) := update_self ..
    simp only [closureVisit]
    rw [hown,h.reads b _ _ _ hsame]
    exact h.repeated b _ _
  have hsame : ∀ d ∈ neighbours c, v.publish ((v.visit b s).1 d) = v.publish (s d) := by
    intro d hd
    by_cases hdb : d = b
    · subst hdb
      exact hseen s d d (.inr (eq_false_iff.mpr fun hp => hnext hp hd))
    · exact hseen s b d (.inl hdb)
  have hown : (v.visit b s).1 c = s c := update_of_ne hne ..
  simp only [closureVisit]
  rw [hown,h.reads c _ _ _ hsame]
  exact hq

end Closure

/-- The order of a pass and the rank of each block in it are permutations of each other. -/
def IsOrder (nb : Nat) (order rank : List Nat) : Prop :=
  order.Perm (List.range nb) ∧ rank.length = nb ∧ ∀ b < nb, ∃ k, rank[b]? = some k ∧ order[k]? = some b

theorem IsOrder.permutes {nb : Nat} {order rank : List Nat} (h : IsOrder nb order rank) :
    Permutes nb (order.getD · 0) (rank.getD · 0) := by
  obtain ⟨hperm,hlen,hrank⟩ := h
  have holen : order.length = nb := by rw [hperm.length_eq,length_range]
  have hnodup := hperm.nodup_iff.mpr nodup_range
  have hget : ∀ k < nb, order[k]? = some (order.getD k 0) := fun k hk => by
    rw [getD_eq_getElem?_getD,List.getElem?_eq_getElem (holen.symm ▸ hk)]
    rfl
  have hlt : ∀ k < nb, order.getD k 0 < nb := fun k hk =>
    mem_range.mp (hperm.mem_iff.mp (mem_of_getElem? (hget k hk)))
  have hinv : ∀ b < nb, rank.getD b 0 < nb ∧ order[rank.getD b 0]? = some b := by
    intro b hb
    obtain ⟨k,hk,hob⟩ := hrank b hb
    have heq : rank.getD b 0 = k := by rw [getD_eq_getElem?_getD,hk]; rfl
    rw [heq]
    exact ⟨holen ▸ (List.getElem?_eq_some_iff.mp hob).1,hob⟩
  refine ⟨hlt,fun b hb => (hinv b hb).1,fun b hb => ?_,fun k hk => ?_⟩
  · rw [getD_eq_getElem?_getD,(hinv b hb).2]
    rfl
  obtain ⟨hlt',hback⟩ := hinv _ (hlt k hk)
  refine (getElem?_inj (holen.symm ▸ hlt') hnodup).mp ?_
  rw [hback,hget k hk]

theorem map_range_reverse {nb : Nat} {order : List Nat} (hlen : order.length = nb) :
    (range nb).reverse.map (order.getD · 0) = order.reverse := by
  rw [map_reverse]
  congr 1
  refine ext_getElem (by simp [hlen]) fun i hi hi' => ?_
  simp [getD_eq_getElem?_getD,List.getElem?_eq_getElem hi']

theorem postorder_isOrder (succ : Nat → List Nat) (nb : Nat) : IsOrder nb (postorder succ nb).1 (postorder succ nb).2 := by
  obtain ⟨h1,h2,hrank⟩ := postorder_ranked succ nb
  have hinv : ∀ b < nb, ∃ k, (postorder succ nb).2[b]? = some k ∧ (postorder succ nb).1[k]? = some b := by
    intro b hb
    have hlt := hrank.lt b hb
    have heq := hrank.order b hb
    refine ⟨(postorder succ nb).2.getD b 0,?_,?_⟩
    · rw [getD_eq_getElem?_getD,List.getElem?_eq_getElem (h2.symm ▸ hb)]
      rfl
    rw [getD_eq_getElem?_getD,List.getElem?_eq_getElem (h1.symm ▸ hlt)] at heq
    rw [List.getElem?_eq_getElem (h1.symm ▸ hlt)]
    exact congrArg some heq
  have hsub : range nb ⊆ (postorder succ nb).1 := fun b hb => by
    obtain ⟨k,-,hk⟩ := hinv b (mem_range.mp hb)
    exact mem_of_getElem? hk
  have hperm := (nodup_range.subperm hsub).perm_of_length_le (by rw [h1,length_range])
  exact ⟨hperm.symm,h2,hinv⟩

/-- The drivers that visit dirty blocks only are the whole passes, cut-off runs included, with no more visits; all
runs from empty sets that converge end in the one least solution. -/
theorem dirty_drivers_are_whole_passes :
    (∀ (succ preds : Nat → List Nat) (sets : FixedPointSets) (st : LiveSets) (maxIterations visits : Nat), sets.Shapes →
      st.Shapes sets.nb sets.words → PredsComplete succ sets.nb preds →
      Agrees (lsFixedPointWorklistPreds succ sets preds maxIterations st visits)
        (lsFixedPointRoundRobin succ sets maxIterations st visits) ∧
      ∀ order rank, IsOrder sets.nb order rank →
        Agrees (lsFixedPointWorklistOrdered succ sets preds order rank maxIterations st visits)
          (roundRobinPasses (setsVisit succ sets) order.reverse maxIterations st visits)) ∧
    (∀ (succ : Nat → List Nat) (sets : FixedPointSets), sets.Shapes →
      ∀ (blocks blocks' : List Nat), blocks.Perm (range sets.nb) → blocks'.Perm (range sets.nb) →
      ∀ maxIterations maxIterations' visits,
      let zero : LiveSets := { li := replicate sets.nb (empty sets.words), lout := replicate sets.nb (empty sets.words) }
      let run := roundRobinPasses (setsVisit succ sets) blocks maxIterations zero visits
      let run' := roundRobinPasses (setsVisit succ sets) blocks' maxIterations' zero visits
      run.2.1 = true → run.1.Exact succ sets ∧ (run'.2.1 = true → run'.1 = run.1)) ∧
    (∀ (succ : Nat → List Nat) (nb : Nat), IsOrder nb (postorder succ nb).1 (postorder succ nb).2) ∧
    ∀ (α β : Type) [DecidableEq β] (v : Closure α β) (neighbours readers : Nat → List Nat) (nb maxIterations visits : Nat)
      (s : Nat → α), v.Local neighbours → (∀ b < nb, ∀ c < nb, b ∈ neighbours c → c ∈ readers b) →
      Agrees (lsClosureFixedPointBackward readers nb maxIterations visits v.visit s)
        (roundRobinPasses (closureVisit v.visit) (range nb).reverse maxIterations s visits) ∧
      Agrees (lsClosureFixedPointForward readers nb maxIterations visits v.visit s)
        (roundRobinPasses (closureVisit v.visit) (range nb) maxIterations s visits) := by
  refine ⟨fun succ preds sets st n visits hsets hst hpreds => ⟨?_,fun order rank ho => ?_⟩,
    fun succ sets hsets blocks blocks' hp hp' n n' visits => ?_,postorder_isOrder,
    fun α β _ v neighbours readers nb n visits s hv hreaders => ⟨?_,?_⟩⟩
  · have hagrees := (localVisit_sets hsets).backward_agrees (permutes_id sets.nb)
      (fun b hb c hc hs => hpreds b c hb hc hs.1) n hst visits
    rwa [map_id] at hagrees
  · have hagrees := (localVisit_sets hsets).backward_agrees ho.permutes (fun b hb c hc hs => hpreds b c hb hc hs.1) n hst visits
    have holen : order.length = sets.nb := by rw [ho.1.length_eq,length_range]
    rw [map_range_reverse holen] at hagrees
    rw [lsFixedPointWorklistOrdered,holen,ho.2.1,Nat.min_self,Nat.min_self]
    exact hagrees
  · dsimp only
    intro hend
    have hin : ∀ {bs : List Nat}, bs.Perm (range sets.nb) → ∀ b ∈ bs, b < sets.nb := fun h b hb =>
      mem_range.mp (h.mem_iff.mp hb)
    have hall : ∀ {bs : List Nat}, bs.Perm (range sets.nb) → ∀ b < sets.nb, b ∈ bs := fun h b hb =>
      h.mem_iff.mpr (mem_range.mpr hb)
    obtain ⟨hrun,hex⟩ := roundRobinPasses_shapes hsets (hin hp) n (@running_zero succ sets) visits
    obtain ⟨hrun',hex'⟩ := roundRobinPasses_shapes hsets (hin hp') n' (@running_zero succ sets) visits
    exact ⟨hex hend (hall hp),fun hend' => exact_unique hrun.shapes hrun'.shapes (hex hend (hall hp)) (hex' hend' (hall hp'))⟩
  · have hagrees := (Closure.localVisit hv nb).backward_agrees (permutes_id nb) hreaders n (s := s) trivial visits
    rwa [map_id] at hagrees
  · exact (Closure.localVisit hv nb).forward_agrees hreaders n trivial visits

/-- A block that loops to itself, with a duplicate edge and one out of range. -/
theorem dirty_drivers_loop :
    Agrees (lsFixedPointWorklistPreds (fun _ => [0,0,5]) ⟨1,1,[[0]],[[1]],[[0]]⟩ (fun _ => [0]) 8 ⟨[[0]],[[0]]⟩ 0)
      (lsFixedPointRoundRobin (fun _ => [0,0,5]) ⟨1,1,[[0]],[[1]],[[0]]⟩ 8 ⟨[[0]],[[0]]⟩ 0) ∧
    lsFixedPointRoundRobin (fun _ => [0,0,5]) ⟨1,1,[[0]],[[1]],[[0]]⟩ 8 ⟨[[0]],[[0]]⟩ 0 = (⟨[[1]],[[1]]⟩,true,3) := by
  have hshape : ∀ w : BitVec 64, Shaped 1 1 [[w]] := fun w => ⟨rfl,fun b hb => by
    obtain rfl : b = 0 := by omega
    rfl⟩
  refine ⟨(dirty_drivers_are_whole_passes.1 (fun _ => [0,0,5]) (fun _ => [0]) ⟨1,1,[[0]],[[1]],[[0]]⟩ ⟨[[0]],[[0]]⟩ 8 0
    ⟨hshape 0,hshape 1,hshape 0⟩ ⟨hshape 0,hshape 0⟩ fun b c _ hc _ => ?_).1,by decide⟩
  obtain rfl := Nat.lt_one_iff.mp hc
  exact mem_singleton_self 0

end CratonVM.Jit.Liveness
