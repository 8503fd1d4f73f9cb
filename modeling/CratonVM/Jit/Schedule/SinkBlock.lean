import CratonVM.Jit.Schedule.DominatorsExact

/-!
The choice of a block for a sunk node in `jit/src/ir_schedule.rs`: by a walk of the dominator tree, and
by the scan of all blocks that the walk replaced. A walk that would not end gives `none`.
-/
namespace CratonVM.Jit.Schedule
open Dominance Dominators List Option
section
variable (dom : Dominators)

def scanCommon (of : List Nat) (best : Option Nat) (cand : Nat) : Option Nat :=
  if of.all fun b => dom.dominates cand b then
    match best with
    | some cur => some (if dom.dominates cur cand then cand else cur)
    | none => some cand
  else best

def deepestCommonDominatorByScan (of : List Nat) (nb : Nat) : Option Nat :=
  (List.range nb).foldl (scanCommon dom of) none

/-- The loop `while !dom.dominates(x, b)`; an inner `none` is a chain that ended. -/
def climbAbove (b : Nat) : (fuel : Nat) → (x : Nat) → Option (Option Nat)
  | 0,_ => none
  | fuel+1,x =>
    if dom.dominates x b then some (some x)
    else
      match dom.idomOf x with
      | some up => climbAbove b fuel up
      | none => some none

/-- The loop over the members. -/
def commonLoop (of : List Nat) (nb : Nat) : (rest : List Nat) → (common : Option Nat) → Option (Option Nat)
  | [],some x => some (some x)
  | [],none => some dom.lastUnreached
  | b::rest,common =>
    if b ≥ nb then some none
    else if dom.isReachable b = false then commonLoop of nb rest common
    else
      match common with
      | none => commonLoop of nb rest (some b)
      | some x =>
        match climbAbove dom b (dom.pre.getD x 0+1) x with
        | none => none
        | some none => some (deepestCommonDominatorByScan dom of nb)
        | some (some y) => commonLoop of nb rest (some y)

def deepestCommonDominator (of : List Nat) (nb : Nat) : Option (Option Nat) :=
  if of.isEmpty ∨ nb ≠ dom.len then some (deepestCommonDominatorByScan dom of nb)
  else commonLoop dom of nb of none

def sameInnermostLoop (innermost : List (Option Nat)) (a b : Nat) : Bool := innermost[a]? = innermost[b]?

section
variable (depth : List Nat) (innermost : List (Option Nat))

/-- One turn of the loop over the candidates. -/
def sinkBest (equalDepth : Bool) (best cand : Nat) : Nat :=
  if depth.getD cand 0 < depth.getD best 0 then cand
  else if equalDepth ∧ depth.getD cand 0 = depth.getD best 0 ∧ cand ≠ best ∧
      sameInnermostLoop innermost best cand ∧ dom.dominates best cand then cand
  else best

def sinkKey (b : Nat) : Nat := (dom.preorder b).getD usizeMax

/-- The order of the keys `(dom.preorder(b).unwrap_or(usize::MAX), b)`. -/
def sinkKeyLe (a b : Nat) : Prop := sinkKey dom a < sinkKey dom b ∨ sinkKey dom a = sinkKey dom b ∧ a ≤ b

instance : DecidableRel (sinkKeyLe dom) := fun a b =>
  inferInstanceAs (Decidable (sinkKey dom a < sinkKey dom b ∨ sinkKey dom a = sinkKey dom b ∧ a ≤ b))

def chooseSinkBlockByScan (early late : Nat) (equalDepth : Bool) (nb : Nat) : Nat :=
  let candidates := (List.range nb).filter fun cand => dom.dominates early cand && dom.dominates cand late
  (candidates.insertionSort (sinkKeyLe dom)).foldl (sinkBest dom depth innermost equalDepth) early

/-- The loop that collects the path from `late` up to `early`; an inner `none` is a chain that ended. -/
def sinkPath (early : Nat) : (fuel : Nat) → (x : Nat) → (path : List Nat) → Option (Option (List Nat))
  | 0,_,_ => none
  | fuel+1,x,path =>
    if x = early then some (some (path++[x]))
    else
      match dom.idomOf x with
      | some up => sinkPath early fuel up (path++[x])
      | none => some none

def chooseSinkBlock (early late : Nat) (equalDepth : Bool) (nb : Nat) : Option Nat :=
  if nb ≠ dom.len ∨ dom.isReachable late = false then
    some (chooseSinkBlockByScan dom depth innermost early late equalDepth nb)
  else
    match sinkPath dom early (dom.pre.getD late 0+1) late [] with
    | none => none
    | some none => some (chooseSinkBlockByScan dom depth innermost early late equalDepth nb)
    | some (some path) => some (path.reverse.foldl (sinkBest dom depth innermost equalDepth) early)

end
end

section
variable {blocks : List Block} {dom : Dominators} (h : Exact blocks dom)

include h

theorem Dominators.Exact.idom_step {x d : Nat} (hd : dom.idomOf x = some d) :
    d < blocks.length ∧ Reachable blocks d ∧ IsIdom blocks x d ∧ dom.pre.getD d 0 < dom.pre.getD x 0 := by
  obtain ⟨hx,hreach,hid⟩ := h.idom x d hd
  have hdr : Reachable blocks d := Dom.reaches hid.dom hreach
  exact ⟨hdr.lt (Nat.lt_of_le_of_lt (Nat.zero_le x) hx),hdr,hid,h.preorder_lt d x hx hreach hid.dom hid.ne⟩

theorem Dominators.Exact.dominates_reachable {a b : Nat} (hb : b < blocks.length) (hreach : Reachable blocks b) :
    dom.dominates a b = true ↔ DominatesAll blocks a b := by
  refine (h.dominates a b).trans ⟨fun hd => hd.2.2 hreach,fun hd => ⟨?_,hb,fun _ => hd⟩⟩
  have ha : Reachable blocks a := Dom.reaches hd hreach
  exact ha.lt (Nat.lt_of_le_of_lt (Nat.zero_le b) hb)

theorem climbAbove_spec {b fuel x : Nat} (hb : b < blocks.length) (hbr : Reachable blocks b) (hxr : Reachable blocks x)
    (hfuel : dom.pre.getD x 0 < fuel) :
    ∃ out, climbAbove dom b fuel x = some out ∧ ∀ y, out = some y → Reachable blocks y ∧
      ∀ a, DominatesAll blocks a y ↔ DominatesAll blocks a x ∧ DominatesAll blocks a b := by
  induction fuel generalizing x with
  | zero => omega
  | succ fuel ih => ?_
  rw [climbAbove]
  by_cases hdom : dom.dominates x b = true
  · have hxb := (h.dominates_reachable hb hbr).mp hdom
    rw [if_pos hdom]
    refine ⟨some x,rfl,fun y hy => ?_⟩
    obtain rfl := some.inj hy
    exact ⟨hxr,fun a => ⟨fun ha => ⟨ha,ha.trans hxb⟩,fun ha => ha.1⟩⟩
  rw [if_neg hdom]
  cases hd : dom.idomOf x with
  | none => exact ⟨none,rfl,fun y hy => by cases hy⟩
  | some d => ?_
  obtain ⟨-,hdr,hid,hlt⟩ := h.idom_step hd
  obtain ⟨out,hout,hspec⟩ := ih hdr (by omega)
  refine ⟨out,hout,fun y hy => ?_⟩
  obtain ⟨hyr,hmeet⟩ := hspec y hy
  refine ⟨hyr,fun a => (hmeet a).trans ⟨fun ha => ⟨ha.1.trans hid.dom,ha.2⟩,fun ha => ⟨hid.nearest a ha.1 ?_,ha.2⟩⟩⟩
  rintro rfl
  exact hdom ((h.dominates_reachable hb hbr).mpr ha.2)

end

section
variable {blocks : List Block} {dom : Dominators} (h : Exact blocks dom)

include h

variable {of : List Nat}

theorem foldl_scanCommon {x k : Nat} (hk : k ≤ blocks.length) (hxr : Reachable blocks x)
    (hof : ∀ c < blocks.length, (∀ b ∈ of, dom.dominates c b = true) ↔ DominatesAll blocks c x) :
    match (range k).foldl (scanCommon dom of) none with
    | none => ∀ c < k, ¬ DominatesAll blocks c x
    | some d => DominatesAll blocks d x ∧ ∀ c < k, DominatesAll blocks c x → DominatesAll blocks c d := by
  induction k with
  | zero => exact fun c hc => absurd hc (Nat.not_lt_zero c)
  | succ k ih => ?_
  specialize ih (by omega)
  rw [range_succ,foldl_append,foldl_cons,foldl_nil]
  generalize (range k).foldl (scanCommon dom of) none = best at ih
  have hall : (of.all fun b => dom.dominates k b) = true ↔ DominatesAll blocks k x := by
    rw [List.all_eq_true]
    exact hof k (by omega)
  unfold scanCommon
  by_cases hkx : DominatesAll blocks k x
  · rw [if_pos (hall.mpr hkx)]
    have hkr := Dom.reaches hkx hxr
    cases best with
    | none =>
      refine ⟨hkx,fun c hc hcx => ?_⟩
      by_cases hck : c = k
      · exact hck ▸ Dom.refl
      · exact absurd hcx (ih c (by omega))
    | some cur => ?_
    dsimp only
    by_cases hdom : dom.dominates cur k = true
    · have hcur := (h.dominates_reachable (by omega) hkr).mp hdom
      rw [if_pos hdom]
      refine ⟨hkx,fun c hc hcx => ?_⟩
      by_cases hck : c = k
      · exact hck ▸ Dom.refl
      · exact (ih.2 c (by omega) hcx).trans hcur
    rw [if_neg hdom]
    refine ⟨ih.1,fun c hc hcx => ?_⟩
    by_cases hck : c = k
    · subst hck
      refine (Dom.linear hxr ih.1 hkx).resolve_left fun hcur => ?_
      exact hdom ((h.dominates_reachable (by omega) hkr).mpr hcur)
    · exact ih.2 c (by omega) hcx
  · rw [if_neg (fun hc => hkx (hall.mp hc))]
    cases best with
    | none =>
      intro c hc
      by_cases hck : c = k
      · exact hck ▸ hkx
      · exact ih c (by omega)
    | some cur =>
      refine ⟨ih.1,fun c hc hcx => ?_⟩
      by_cases hck : c = k
      · exact absurd (hck ▸ hcx) hkx
      · exact ih.2 c (by omega) hcx

theorem foldl_scanCommon_free {k : Nat} (hk : k ≤ blocks.length)
    (hof : ∀ c < blocks.length, ∀ b ∈ of, dom.dominates c b = true) :
    match (range k).reverse.find? (fun b => !dom.isReachable b) with
    | some u => (range k).foldl (scanCommon dom of) none = some u ∧ dom.isReachable u = false ∧ u < k
    | none => ∀ c, (range k).foldl (scanCommon dom of) none = some c → dom.isReachable c = true := by
  induction k with
  | zero => exact fun c hc => by cases hc
  | succ k ih => ?_
  specialize ih (by omega)
  have hall : (of.all fun b => dom.dominates k b) = true := all_eq_true.mpr (hof k (by omega))
  rw [range_succ,foldl_append,foldl_cons,foldl_nil,reverse_append,
    reverse_singleton,singleton_append,find?_cons]
  generalize (range k).foldl (scanCommon dom of) none = best at ih
  unfold scanCommon
  rw [if_pos hall]
  cases hkr : dom.isReachable k with
  | false =>
    have hun : ¬ Reachable blocks k := fun hr => by
      rw [(h.reachable k).mpr ⟨by omega,hr⟩] at hkr
      cases hkr
    refine ⟨?_,hkr,Nat.lt_succ_self k⟩
    cases best with
    | none => rfl
    | some cur => ?_
    have hcur : cur < blocks.length := by
      cases hfind : (range k).reverse.find? (fun b => !dom.isReachable b) with
      | none =>
        rw [hfind] at ih
        exact ((h.reachable cur).mp (ih cur rfl)).1
      | some u =>
        rw [hfind] at ih
        obtain ⟨hu,-,hlt⟩ := ih
        rw [some.inj hu]
        omega
    dsimp only
    rw [if_pos ((h.dominates cur k).mpr ⟨hcur,by omega,fun hr => absurd hr hun⟩)]
  | true => ?_
  have hkreach := ((h.reachable k).mp hkr).2
  cases hfind : (range k).reverse.find? (fun b => !dom.isReachable b) with
  | none =>
    rw [hfind] at ih
    intro c hc
    cases best with
    | none => exact some.inj hc ▸ hkr
    | some cur =>
      rw [← some.inj hc]
      split
      · exact hkr
      · exact ih cur rfl
  | some u => ?_
  rw [hfind] at ih
  obtain ⟨rfl,hun,hlt⟩ := ih
  refine ⟨?_,hun,Nat.lt_succ_of_lt hlt⟩
  -- an unreached block dominates no reachable one
  have hnot : ¬ dom.dominates u k = true := by
    intro hd
    have hu : Reachable blocks u := Dom.reaches ((h.dominates_reachable (by omega) hkreach).mp hd) hkreach
    rw [(h.reachable u).mpr ⟨by omega,hu⟩] at hun
    cases hun
  dsimp only
  rw [if_neg hnot]

/-- The dominators of the block found so far are those of the members so far; unreachable members do not
count. -/
def Covers (blocks : List Block) (done : List Nat) : Option Nat → Prop
  | none => ∀ b ∈ done, b < blocks.length ∧ ¬ Reachable blocks b
  | some x => Reachable blocks x ∧ (∀ b ∈ done, b < blocks.length) ∧
      ∀ a, (∀ b ∈ done, Reachable blocks b → DominatesAll blocks a b) ↔ DominatesAll blocks a x

theorem commonLoop_end (hne : of ≠ []) {common : Option Nat} (hcov : Covers blocks of common) :
    (match common with
      | some x => some x
      | none => dom.lastUnreached) = deepestCommonDominatorByScan dom of blocks.length := by
  cases common with
  | some x => ?_
  | none =>
    have hof : ∀ c < blocks.length, ∀ b ∈ of, dom.dominates c b = true := fun c hc b hb =>
      (h.dominates c b).mpr ⟨hc,(hcov b hb).1,fun hr => absurd hr (hcov b hb).2⟩
    have hscan := foldl_scanCommon_free h le_rfl hof
    obtain ⟨b,hb⟩ := exists_mem_of_ne_nil _ hne
    obtain ⟨hlt,hun⟩ := hcov b hb
    rw [h.last]
    cases hfind : (range blocks.length).reverse.find? (fun b => !dom.isReachable b) with
    | some u =>
      rw [hfind] at hscan
      exact hscan.1.symm
    | none =>
      have hall := find?_eq_none.mp hfind b (mem_reverse.mpr (mem_range.mpr hlt))
      rw [Bool.not_eq_true',Bool.not_eq_false] at hall
      exact absurd ((h.reachable b).mp hall).2 hun
  obtain ⟨hxr,hlt,hmeet⟩ := hcov
  have hof : ∀ c < blocks.length, (∀ b ∈ of, dom.dominates c b = true) ↔ DominatesAll blocks c x := by
    intro c hc
    rw [← hmeet c]
    refine forall_congr' fun b => forall_congr' fun hb => ?_
    rw [h.dominates]
    exact ⟨fun hd => hd.2.2,fun hd => ⟨hc,hlt b hb,hd⟩⟩
  have hxlt : x < blocks.length := by
    obtain ⟨b,hb⟩ := exists_mem_of_ne_nil _ hne
    exact hxr.lt (Nat.lt_of_le_of_lt (Nat.zero_le b) (hlt b hb))
  have hscan := foldl_scanCommon h le_rfl hxr hof
  unfold deepestCommonDominatorByScan
  cases hbest : (range blocks.length).foldl (scanCommon dom of) none with
  | none =>
    rw [hbest] at hscan
    exact absurd Dom.refl (hscan x hxlt)
  | some d =>
    rw [hbest] at hscan
    have hdx := Dom.antisymm hxr hscan.1 (hscan.2 x hxlt Dom.refl)
    rw [hdx]

theorem commonLoop_spec {done rest : List Nat} {common : Option Nat} (hne : of ≠ []) (hof : of = done++rest)
    (hcov : Covers blocks done common) :
    commonLoop dom of blocks.length rest common = some (deepestCommonDominatorByScan dom of blocks.length) := by
  induction rest generalizing done common with
  | nil =>
    rw [append_nil] at hof
    rw [← commonLoop_end h hne (hof ▸ hcov)]
    cases common <;> rfl
  | cons b rest ih => ?_
  have hof' : of = (done++[b])++rest := by
    rw [hof,append_assoc,singleton_append]
  rw [commonLoop.eq_def]
  dsimp only
  by_cases hb : b ≥ blocks.length
  · -- no block dominates a member out of range
    rw [if_pos hb]
    have hno : ∀ c, (of.all fun b => dom.dominates c b) = false := by
      intro c
      rw [← Bool.not_eq_true,List.all_eq_true]
      intro hall
      have := ((h.dominates c b).mp (hall b (by rw [hof]; exact mem_append_right _ mem_cons_self))).2.1
      omega
    have hscan : ∀ l : List Nat, l.foldl (scanCommon dom of) none = none := by
      intro l
      induction l with
      | nil => rfl
      | cons c l ihl => rw [foldl_cons,scanCommon,hno c,if_neg Bool.false_ne_true,ihl]
    rw [deepestCommonDominatorByScan,hscan]
  rw [if_neg hb]
  rw [ge_iff_le,Nat.not_le] at hb
  cases hbr : dom.isReachable b with
  | false =>
    have hun : ¬ Reachable blocks b := fun hr => by
      rw [(h.reachable b).mpr ⟨hb,hr⟩] at hbr
      cases hbr
    refine ih hof' ?_
    cases common with
    | none =>
      intro c hc
      rcases mem_append.mp hc with hc|hc
      · exact hcov c hc
      · exact mem_singleton.mp hc ▸ ⟨hb,hun⟩
    | some x =>
      obtain ⟨hxr,hlt,hmeet⟩ := hcov
      refine ⟨hxr,forall_mem_append.mpr ⟨hlt,forall_mem_singleton.mpr hb⟩,fun a => ?_⟩
      rw [forall_mem_append,forall_mem_singleton,hmeet a]
      exact ⟨fun ha => ha.1,fun ha => ⟨ha,fun hr => absurd hr hun⟩⟩
  | true => ?_
  have hreach := ((h.reachable b).mp hbr).2
  cases common with
  | none =>
    refine ih hof' ⟨hreach,forall_mem_append.mpr ⟨fun c hc => (hcov c hc).1,
      forall_mem_singleton.mpr hb⟩,fun a => ?_⟩
    rw [forall_mem_append,forall_mem_singleton]
    exact ⟨fun ha => ha.2 hreach,fun ha => ⟨fun c hc hr => absurd hr (hcov c hc).2,fun _ => ha⟩⟩
  | some x => ?_
  obtain ⟨hxr,hlt,hmeet⟩ := hcov
  obtain ⟨out,hclimb,hspec⟩ := climbAbove_spec h hb hreach hxr (Nat.lt_succ_self _)
  dsimp only
  rw [hclimb]
  cases out with
  | none => rfl
  | some y =>
    obtain ⟨hyr,hy⟩ := hspec y rfl
    refine ih hof' ⟨hyr,forall_mem_append.mpr ⟨hlt,forall_mem_singleton.mpr hb⟩,fun a => ?_⟩
    rw [forall_mem_append,forall_mem_singleton,hmeet a,hy a]
    exact and_congr_right fun _ => ⟨fun ha => ha hreach,fun ha _ => ha⟩

theorem deepestCommonDominator_eq (of : List Nat) (nb : Nat) :
    deepestCommonDominator dom of nb = some (deepestCommonDominatorByScan dom of nb) := by
  unfold deepestCommonDominator
  split
  · rfl
  rename_i hgo
  obtain ⟨hne,hnb⟩ := not_or.mp hgo
  rw [ne_eq,not_not,h.length] at hnb
  subst hnb
  rw [List.isEmpty_iff] at hne
  exact commonLoop_spec h hne (nil_append of).symm fun b hb => absurd hb not_mem_nil

end

section
variable {blocks : List Block} {dom : Dominators} {late : Nat}

structure OnPath (blocks : List Block) (dom : Dominators) (late x : Nat) (path : List Nat) : Prop where
  above : DominatesAll blocks x late
  mem : ∀ c, c ∈ path ↔ DominatesAll blocks c late ∧ DominatesAll blocks x c ∧ c ≠ x
  ascending : path.reverse.Pairwise fun a b => dom.pre.getD a 0 < dom.pre.getD b 0

section
variable {x : Nat} {path : List Nat} (h : Exact blocks dom) (hn : 0 < blocks.length) (hlate : Reachable blocks late)
  (hp : OnPath blocks dom late x path)

include hp in
theorem OnPath.mem_push (c : Nat) : c ∈ path++[x] ↔ DominatesAll blocks c late ∧ DominatesAll blocks x c := by
  rw [List.mem_append,List.mem_singleton,hp.mem c]
  constructor
  · rintro (hc|rfl)
    · exact ⟨hc.1,hc.2.1⟩
    · exact ⟨hp.above,Dom.refl⟩
  rintro ⟨hc,hxc⟩
  by_cases hcx : c = x
  · exact .inr hcx
  · exact .inl ⟨hc,hxc,hcx⟩

include h hn hlate hp

theorem OnPath.ascending_push : (path++[x]).reverse.Pairwise fun a b => dom.pre.getD a 0 < dom.pre.getD b 0 := by
  rw [reverse_append,reverse_singleton,singleton_append,pairwise_cons]
  refine ⟨fun c hc => ?_,hp.ascending⟩
  obtain ⟨hcl,hxc,hcx⟩ := (hp.mem c).mp (mem_reverse.mp hc)
  have hcr : Reachable blocks c := Dom.reaches hcl hlate
  exact h.preorder_lt x c (hcr.lt hn) hcr hxc (Ne.symm hcx)

theorem OnPath.climb {d : Nat} (hd : dom.idomOf x = some d) : OnPath blocks dom late d (path++[x]) := by
  obtain ⟨hdlt,hdr,hid,-⟩ := h.idom_step hd
  refine ⟨hid.dom.trans hp.above,fun c => ?_,hp.ascending_push h hn hlate⟩
  rw [hp.mem_push c]
  constructor
  · rintro ⟨hc,hxc⟩
    refine ⟨hc,hid.dom.trans hxc,?_⟩
    rintro rfl
    have hxr := Dom.reaches hp.above hlate
    exact hid.ne (Dom.antisymm hxr hid.dom hxc)
  rintro ⟨hc,hdc,hcd⟩
  refine ⟨hc,?_⟩
  by_cases heq : c = x
  · exact heq ▸ Dom.refl
  refine (Dom.linear hlate hp.above hc).resolve_right fun hcx => ?_
  exact hcd (Dom.antisymm hdr (hid.nearest c hcx heq) hdc)

theorem sinkPath_spec {early fuel : Nat} (hfuel : dom.pre.getD x 0 < fuel) :
    ∃ out, sinkPath dom early fuel x path = some out ∧ ∀ l, out = some l →
      (∀ c, c ∈ l ↔ DominatesAll blocks c late ∧ DominatesAll blocks early c) ∧
      l.reverse.Pairwise fun a b => dom.pre.getD a 0 < dom.pre.getD b 0 := by
  induction fuel generalizing x path with
  | zero => omega
  | succ fuel ih => ?_
  rw [sinkPath]
  by_cases hx : x = early
  · rw [if_pos hx]
    refine ⟨_,rfl,fun l hl => ?_⟩
    obtain rfl := some.inj hl
    exact ⟨hx ▸ hp.mem_push,hp.ascending_push h hn hlate⟩
  rw [if_neg hx]
  cases hd : dom.idomOf x with
  | none => exact ⟨none,rfl,fun l hl => by cases hl⟩
  | some d =>
    have := (h.idom_step hd).2.2.2
    exact ih (hp.climb h hn hlate hd) (by omega)

end

theorem sinkKeyLe_sorted (l : List Nat) : (l.insertionSort (sinkKeyLe dom)).Pairwise (sinkKeyLe dom) := by
  have : Std.Total (sinkKeyLe dom) := ⟨fun a b => by
    unfold sinkKeyLe
    omega⟩
  have : IsTrans Nat (sinkKeyLe dom) := ⟨fun a b c hab hbc => by
    unfold sinkKeyLe at hab hbc ⊢
    omega⟩
  exact pairwise_insertionSort _ l

variable (h : Exact blocks dom)

include h

omit h in
theorem onPath_start (hlate : Reachable blocks late) : OnPath blocks dom late late [] := by
  refine ⟨Dom.refl,fun c => ?_,.nil⟩
  refine iff_of_false List.not_mem_nil ?_
  rintro ⟨hc,hlc,hne⟩
  exact hne (Dom.antisymm hlate hc hlc)

theorem candidates_eq {early : Nat} {path : List Nat} (hlt : late < blocks.length) (hlate : Reachable blocks late)
    (hmem : ∀ c, c ∈ path ↔ DominatesAll blocks c late ∧ DominatesAll blocks early c)
    (hasc : path.reverse.Pairwise fun a b => dom.pre.getD a 0 < dom.pre.getD b 0) :
    ((range blocks.length).filter fun cand => dom.dominates early cand && dom.dominates cand late).insertionSort
      (sinkKeyLe dom) = path.reverse := by
  have hn : 0 < blocks.length := Nat.lt_of_le_of_lt (Nat.zero_le late) hlt
  have hcand : ∀ c, c ∈ (range blocks.length).filter
      (fun cand => dom.dominates early cand && dom.dominates cand late) ↔ c ∈ path.reverse := by
    intro c
    rw [mem_reverse,hmem c,mem_filter,Bool.and_eq_true,mem_range,h.dominates_reachable hlt hlate]
    constructor
    · rintro ⟨hc,hec,hcl⟩
      have hcr : Reachable blocks c := Dom.reaches hcl hlate
      exact ⟨hcl,(h.dominates_reachable hc hcr).mp hec⟩
    rintro ⟨hcl,hec⟩
    have hcr : Reachable blocks c := Dom.reaches hcl hlate
    exact ⟨hcr.lt hn,(h.dominates_reachable (hcr.lt hn) hcr).mpr hec,hcl⟩
  have hkey : ∀ c ∈ path.reverse, sinkKey dom c = dom.pre.getD c 0 := by
    intro c hc
    have hcr : Reachable blocks c := Dom.reaches ((hmem c).mp (mem_reverse.mp hc)).1 hlate
    rw [sinkKey,h.preorder c ((h.reachable c).mpr ⟨hcr.lt hn,hcr⟩)]
    rfl
  have hnodup : path.reverse.Nodup := hasc.imp (fun hab heq => by
    rw [heq] at hab
    exact Nat.lt_irrefl _ hab)
  have hperm : ((range blocks.length).filter
      fun cand => dom.dominates early cand && dom.dominates cand late).Perm path.reverse :=
    (perm_ext_iff_of_nodup (nodup_range.filter _) hnodup).mpr hcand
  have hpath : path.reverse.Pairwise (sinkKeyLe dom) := by
    refine hasc.imp_of_mem fun ha hb hab => .inl ?_
    rw [hkey _ ha,hkey _ hb]
    exact hab
  refine ((perm_insertionSort _ _).trans hperm).eq_of_pairwise (fun a b _ _ hab hba => ?_)
    (sinkKeyLe_sorted _) hpath
  unfold sinkKeyLe at hab hba
  omega

theorem chooseSinkBlock_eq (depth : List Nat) (innermost : List (Option Nat)) (early late : Nat) (equalDepth : Bool)
    (nb : Nat) : chooseSinkBlock dom depth innermost early late equalDepth nb =
      some (chooseSinkBlockByScan dom depth innermost early late equalDepth nb) := by
  unfold chooseSinkBlock
  split
  · rfl
  rename_i hgo
  obtain ⟨hnb,hreach⟩ := not_or.mp hgo
  rw [ne_eq,not_not,h.length] at hnb
  rw [Bool.not_eq_false,h.reachable] at hreach
  obtain ⟨hlt,hlate⟩ := hreach
  subst hnb
  obtain ⟨out,hout,hspec⟩ := sinkPath_spec h (Nat.lt_of_le_of_lt (Nat.zero_le late) hlt) hlate
    (onPath_start hlate) (Nat.lt_succ_self _)
  rw [hout]
  cases out with
  | none => rfl
  | some path =>
    obtain ⟨hmem,hasc⟩ := hspec path rfl
    rw [chooseSinkBlockByScan,candidates_eq h hlt hlate hmem hasc]

end

/-- The walks of the dominator tree answer what the scans of all blocks answer. -/
theorem sink_walks_equal_scans (blocks : List Block) : ∃ dom, compute blocks = some dom ∧
    (∀ (of : List Nat) (nb : Nat), deepestCommonDominator dom of nb = some (deepestCommonDominatorByScan dom of nb)) ∧
    ∀ (depth : List Nat) (innermost : List (Option Nat)) (early late : Nat) (equalDepth : Bool) (nb : Nat),
      chooseSinkBlock dom depth innermost early late equalDepth nb =
        some (chooseSinkBlockByScan dom depth innermost early late equalDepth nb) := by
  obtain ⟨dom,hdom,h⟩ := compute_exact blocks
  exact ⟨dom,hdom,deepestCommonDominator_eq h,chooseSinkBlock_eq h⟩

end CratonVM.Jit.Schedule
