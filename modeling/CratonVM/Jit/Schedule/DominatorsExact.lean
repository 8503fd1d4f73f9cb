import CratonVM.Jit.Schedule.Dominators

/-!
The passes of `Dominators::compute`: `intersect` finds the nearest common ancestor of two blocks of
a partial tree, a visit moves a block below the meet of its known predecessors, and the passes end
with the dominator tree.
-/
namespace CratonVM.Jit.Schedule.Dominators
open Dominance List Option Bool Function Finset

/-- The parents in the tree. The entry, which the table makes its own parent, has none. -/
def up (idom : List (Option Nat)) (b : Nat) : Option Nat := if b = 0 then none else parent idom b

/-- The table between two visits. -/
structure Stage (blocks : List Block) (rpo : List Nat) (idom : List (Option Nat)) : Prop where
  length : idom.length = blocks.length
  entry : parent idom 0 = some 0
  approx : Approx (FlowEdge blocks) 0 rpo.idxOf (treeParent blocks rpo) (up idom)

section
variable {blocks : List Block} {rpo : List Nat} {idom : List (Option Nat)}
variable {b : Nat}

theorem up_of_ne (hb : b ≠ 0) : up idom b = parent idom b := if_neg hb

theorem IsRpo.rank_entry (hr : IsRpo blocks rpo) : rpo.idxOf 0 = 0 := by
  obtain ⟨rest,rfl⟩ := hr.entry
  exact idxOf_cons_self

theorem IsRpo.lt (hr : IsRpo blocks rpo) (hn : 0 < blocks.length) (hb : b ∈ rpo) : b < blocks.length :=
  ((hr.mem b).mp hb).lt hn

theorem IsRpo.rank_lt (hr : IsRpo blocks rpo) (hn : 0 < blocks.length) (hb : b ∈ rpo) :
    rpo.idxOf b < blocks.length := by
  refine Nat.lt_of_lt_of_le (idxOf_lt_length_of_mem hb) ?_
  have hcard := card_le_card (s := rpo.toFinset) (t := range blocks.length)
    fun x hx => Finset.mem_range.mpr (hr.lt hn (mem_toFinset.mp hx))
  rwa [toFinset_card_of_nodup hr.nodup,card_range] at hcard

variable (hr : IsRpo blocks rpo) (hn : 0 < blocks.length) (hs : Stage blocks rpo idom)

include hs in
theorem Stage.known_iff : Known 0 (up idom) b ↔ ∃ x, parent idom b = some x := by
  constructor
  · rintro (rfl|⟨x,hx⟩)
    · exact ⟨0,hs.entry⟩
    unfold up at hx
    split at hx
    · cases hx
    · exact ⟨x,hx⟩
  rintro ⟨x,hx⟩
  by_cases hb : b = 0
  · exact .inl hb
  · exact .inr ⟨x,up_of_ne hb ▸ hx⟩

include hr hs

theorem Stage.known_mem (hb : Known 0 (up idom) b) : b ∈ rpo :=
  (hr.mem b).mpr (hs.approx.known_reaches hr.spanning hb)

theorem Stage.ranked : Ranked (up idom) rpo.idxOf := hs.approx.ranked hr.spanning

include hn

theorem Stage.num_eq (hb : Known 0 (up idom) b) : num (rpoNumbers blocks.length rpo) b = rpo.idxOf b :=
  num_rpoNumbers hr.nodup (fun _ hx => hr.lt hn hx) (hs.known_mem hr hb)

theorem climb_spec (bound : Nat) {fuel a : Nat} (ha : Known 0 (up idom) a) (hfuel : rpo.idxOf a ≤ fuel) :
    ∃ c, climb idom (rpoNumbers blocks.length rpo) bound fuel a = some c ∧ Anc (up idom) c a ∧
      rpo.idxOf c ≤ bound ∧ ∀ w, Anc (up idom) w a → rpo.idxOf w ≤ bound → Anc (up idom) w c := by
  induction fuel generalizing a with
  | zero =>
    have hle : ¬ num (rpoNumbers blocks.length rpo) a > bound := by
      rw [hs.num_eq hr hn ha]
      omega
    refine ⟨a,?_,.refl a,by omega,fun w hw _ => hw⟩
    rw [climb,if_neg hle]
  | succ fuel ih => ?_
  by_cases hgt : num (rpoNumbers blocks.length rpo) a > bound
  · have hrank := hs.num_eq hr hn ha ▸ hgt
    have hne : a ≠ 0 := by
      rintro rfl
      rw [hr.rank_entry] at hrank
      omega
    obtain ⟨x,hx⟩ := hs.known_iff.mp ha
    have hup : up idom a = some x := up_of_ne hne ▸ hx
    have hlt : rpo.idxOf x < rpo.idxOf a := hs.ranked hr a x hup
    obtain ⟨c,hc,hanc,hle,hkeep⟩ := ih (hs.approx.known a x hup) (by omega)
    refine ⟨c,?_,.step hup hanc,hle,fun w hw hwb => hkeep w ?_ hwb⟩
    · rw [climb,if_pos hgt,hx]
      exact hc
    obtain ⟨y,hy,hwy⟩ := hw.strict (by rintro rfl; omega)
    rw [hup] at hy
    exact some.inj hy ▸ hwy
  refine ⟨a,?_,.refl a,?_,fun w hw _ => hw⟩
  · rw [climb,if_neg hgt]
  rw [← hs.num_eq hr hn ha]
  omega

theorem intersectLoop_spec {fuel a : Nat} (ha : Known 0 (up idom) a) (hb : Known 0 (up idom) b)
    (hfuel : rpo.idxOf a+rpo.idxOf b ≤ fuel) :
    ∃ x, intersectLoop idom (rpoNumbers blocks.length rpo) fuel a b = some x ∧
      ∀ w, Anc (up idom) w x ↔ Anc (up idom) w a ∧ Anc (up idom) w b := by
  have hinj : rpo.idxOf a = rpo.idxOf b → a = b := fun h => (idxOf_inj (hs.known_mem hr ha)).mp h
  induction fuel generalizing a b with
  | zero =>
    obtain rfl := hinj (by omega)
    exact ⟨a,by rw [intersectLoop,if_pos rfl],fun w => and_self_iff.symm⟩
  | succ fuel ih => ?_
  by_cases hab : a = b
  · subst hab
    exact ⟨a,by rw [intersectLoop,if_pos rfl],fun w => and_self_iff.symm⟩
  obtain ⟨c,hc,hca,hcle,hckeep⟩ := climb_spec hr hn hs (rpo.idxOf b) ha
    (hs.length ▸ Nat.le_of_lt (hr.rank_lt hn (hs.known_mem hr ha)))
  have hck := hs.approx.known_anc hca ha
  obtain ⟨d,hd,hdb,hdle,hdkeep⟩ := climb_spec hr hn hs (rpo.idxOf c) hb
    (hs.length ▸ Nat.le_of_lt (hr.rank_lt hn (hs.known_mem hr hb)))
  have hdk := hs.approx.known_anc hdb hb
  have hless : rpo.idxOf c+rpo.idxOf d < rpo.idxOf a+rpo.idxOf b := by
    have hcr := hca.rank_le (hs.ranked hr)
    by_contra hnot
    exact hab (hinj (by omega))
  obtain ⟨x,hx,hmeet⟩ := ih hck hdk (by omega) fun h => (idxOf_inj (hs.known_mem hr hck)).mp h
  refine ⟨x,?_,fun w => (hmeet w).trans ⟨fun h => ⟨h.1.trans hca,h.2.trans hdb⟩,fun h => ?_⟩⟩
  · rw [intersectLoop,if_neg hab,hs.num_eq hr hn hb,hc]
    dsimp only [bind_eq_bind,bind_some]
    rw [hs.num_eq hr hn hck,hd]
    exact hx
  have hwc := hckeep w h.1 (h.2.rank_le (hs.ranked hr))
  exact ⟨hwc,hdkeep w h.2 (hwc.rank_le (hs.ranked hr))⟩

theorem intersect_spec {a : Nat} (ha : Known 0 (up idom) a) (hb : Known 0 (up idom) b) :
    ∃ x, intersect idom (rpoNumbers blocks.length rpo) a b = some x ∧
      ∀ w, Anc (up idom) w x ↔ Anc (up idom) w a ∧ Anc (up idom) w b := by
  have h1 := hr.rank_lt hn (hs.known_mem hr ha)
  have h2 := hr.rank_lt hn (hs.known_mem hr hb)
  have h3 := hs.length
  exact intersectLoop_spec hr hn hs ha hb (by omega)

theorem foldlM_meet (l : List Nat) {done : List Nat} {new : Option Nat}
    (hnew : match new with
      | none => ∀ p ∈ done, p < blocks.length → ¬ Known 0 (up idom) p
      | some x => Known 0 (up idom) x ∧ ∀ w, Anc (up idom) w x ↔
          ∀ p ∈ done, p < blocks.length → Known 0 (up idom) p → Anc (up idom) w p) :
    ∃ new', l.foldlM (meetPredecessor idom (rpoNumbers blocks.length rpo)) new = some new' ∧
      match new' with
      | none => ∀ p ∈ done++l, p < blocks.length → ¬ Known 0 (up idom) p
      | some x => Known 0 (up idom) x ∧ ∀ w, Anc (up idom) w x ↔
          ∀ p ∈ done++l, p < blocks.length → Known 0 (up idom) p → Anc (up idom) w p := by
  induction l generalizing done new with
  | nil => exact ⟨new,rfl,by rwa [append_nil]⟩
  | cons p l ih => ?_
  have happ : done++p::l = (done++[p])++l := by simp
  have hsplit : ∀ {P : Nat → Prop}, (∀ q ∈ done++[p], P q) ↔ (∀ q ∈ done, P q) ∧ P p := by
    intro P
    rw [forall_mem_append,forall_mem_singleton]
  rw [happ,foldlM_cons]
  by_cases hskip : p ≥ idom.length ∨ parent idom p = none
  · -- out of range or not yet known
    have hno : p < blocks.length → ¬ Known 0 (up idom) p := by
      intro hp hk
      obtain ⟨x,hx⟩ := hs.known_iff.mp hk
      rcases hskip with h|h
      · rw [hs.length] at h
        omega
      rw [hx] at h
      cases h
    rw [meetPredecessor.eq_def,if_pos hskip]
    refine ih ?_
    cases new with
    | none => exact hsplit.mpr ⟨hnew,hno⟩
    | some x =>
      refine ⟨hnew.1,fun w => (hnew.2 w).trans ?_⟩
      rw [hsplit]
      exact ⟨fun h => ⟨h,fun hp hk => absurd hk (hno hp)⟩,fun h => h.1⟩
  obtain ⟨hp,hparent⟩ := not_or.mp hskip
  rw [hs.length] at hp
  have hk := hs.known_iff.mpr (ne_none_iff_exists'.mp hparent)
  rw [meetPredecessor.eq_def,if_neg hskip]
  cases new with
  | none =>
    refine ih ⟨hk,fun w => ?_⟩
    rw [hsplit]
    exact ⟨fun h => ⟨fun q hq hlt hq' => absurd hq' (hnew q hq hlt),fun _ _ => h⟩,
      fun h => h.2 (Nat.lt_of_not_le hp) hk⟩
  | some x => ?_
  obtain ⟨y,hy,hmeet⟩ := intersect_spec hr hn hs hk hnew.1
  dsimp only
  rw [hy]
  refine ih ⟨hs.approx.known_anc ((hmeet y).mp (.refl y)).1 hk,fun w => (hmeet w).trans ?_⟩
  rw [hsplit,hnew.2 w]
  exact ⟨fun h => ⟨h.2,fun _ _ => h.1⟩,fun h => ⟨h.2 (Nat.lt_of_not_le hp) hk,h.1⟩⟩

theorem newIdom_spec {p : Nat} (he : FlowEdge blocks p b) (hk : Known 0 (up idom) p) :
    ∃ x, newIdom idom (rpoNumbers blocks.length rpo) (predecessorsOf blocks b) = some (some x) ∧
      IsMeet (FlowEdge blocks) 0 (up idom) b x := by
  have hnone : ∀ q ∈ ([] : List Nat), q < blocks.length → ¬ Known 0 (up idom) q := fun q hq => by cases hq
  obtain ⟨new,hnew,hspec⟩ := @foldlM_meet blocks rpo idom hr hn hs (predecessorsOf blocks b) [] none hnone
  cases new with
  | none => exact absurd hk (hspec p he.2 he.1)
  | some x => exact ⟨x,hnew,fun w => (hspec.2 w).trans
      ⟨fun h q hq hkq => h q hq.2 hq.1 hkq,fun h q hq hlt hkq => h q ⟨hlt,hq⟩ hkq⟩⟩

end

variable {blocks : List Block} {rpo : List Nat} {idom : List (Option Nat)}

/-- The blocks of rank below `k` are known and nested. -/
def Low (blocks : List Block) (rpo : List Nat) (idom : List (Option Nat)) (k : Nat) : Prop :=
  ∀ z, Reachable blocks z → rpo.idxOf z < k →
    Known 0 (up idom) z ∧ Nested rpo.idxOf (treeParent blocks rpo) (up idom) z

def parentRank (n : Nat) (rpo : List Nat) (idom : List (Option Nat)) (b : Nat) : Nat :=
  match up idom b with
  | none => n
  | some x => rpo.idxOf x

/-- What a move lowers. -/
def height (n : Nat) (rpo : List Nat) (idom : List (Option Nat)) : Nat :=
  ∑ b ∈ Finset.range n, parentRank n rpo idom b

/-- No visit moves the block. -/
def Settled (blocks : List Block) (idom : List (Option Nat)) (b : Nat) : Prop :=
  ∃ x, up idom b = some x ∧ IsMeet (FlowEdge blocks) 0 (up idom) b x

variable {b : Nat}

theorem parent_set {c : Nat} {x : Option Nat} (hb : b < idom.length) :
    parent (idom.set b x) c = if b = c then x else parent idom c := by
  unfold parent
  rw [List.getD_eq_getElem?_getD,List.getD_eq_getElem?_getD,List.getElem?_set]
  by_cases hbc : b = c
  · subst hbc
    simp [hb]
  · simp [hbc]

theorem up_set {x : Nat} (hb : b < idom.length) (hne : b ≠ 0) :
    up (idom.set b (some x)) = Function.update (up idom) b (some x) := by
  funext c
  by_cases hc : c = b
  · subst hc
    rw [Function.update_self,up_of_ne hne,parent_set hb,if_pos rfl]
  rw [Function.update_of_ne hc]
  unfold up
  rw [parent_set hb,if_neg (Ne.symm hc)]

theorem height_lt {x : Nat} (hb : b < blocks.length) (hlen : idom.length = blocks.length) (hne : b ≠ 0)
    (hlt : rpo.idxOf x < parentRank blocks.length rpo idom b) :
    height blocks.length rpo (idom.set b (some x)) < height blocks.length rpo idom := by
  have hrank : ∀ c, parentRank blocks.length rpo (idom.set b (some x)) c =
      if c = b then rpo.idxOf x else parentRank blocks.length rpo idom c := by
    intro c
    unfold parentRank
    rw [up_set (hlen ▸ hb) hne]
    by_cases hc : c = b
    · subst hc
      rw [Function.update_self,if_pos rfl]
    · rw [Function.update_of_ne hc,if_neg hc]
  refine Finset.sum_lt_sum (fun c _ => ?_) ⟨b,Finset.mem_range.mpr hb,?_⟩
  · rw [hrank]
    split
    · rename_i hc
      exact hc ▸ Nat.le_of_lt hlt
    · exact le_rfl
  rw [hrank,if_pos rfl]
  exact hlt

section
variable (hr : IsRpo blocks rpo) (hn : 0 < blocks.length)

include hr hn

theorem refineBlock_spec (hs : Stage blocks rpo idom) (ch : Bool) {b : Nat} (hb : b ∈ rpo) (hne : b ≠ 0)
    (hlow : Low blocks rpo idom (rpo.idxOf b)) :
    ∃ idom' ch', refineBlock blocks (rpoNumbers blocks.length rpo) (idom,ch) b = some (idom',ch') ∧
      Stage blocks rpo idom' ∧ Low blocks rpo idom' (rpo.idxOf b+1) ∧
      (idom' = idom ∧ ch' = ch ∧ Settled blocks idom b ∨
        ch' = true ∧ height blocks.length rpo idom' < height blocks.length rpo idom) := by
  have hS := hr.spanning
  have hreach := (hr.mem b).mp hb
  have hblt := hr.lt hn hb
  obtain ⟨p,hp,hedge,hlt⟩ := hr.leads hb hne
  obtain ⟨x,hx,hmeet⟩ := newIdom_spec hr hn hs hedge (hlow p ((hr.mem p).mp hp) hlt).1
  have hvisit := visit_approx hS hs.approx hreach hne hlow hmeet
  have hnested := fun z hz hle => visit_nested (z := z) hS hs.approx hreach hne hlow hmeet hz hle
  have hnew : ∀ idom', up idom' = Function.update (up idom) b (some x) →
      Low blocks rpo idom' (rpo.idxOf b+1) := by
    intro idom' hup z hz hlt
    rw [hup]
    exact hnested z hz (Nat.le_of_lt_succ hlt)
  unfold refineBlock
  rw [hx]
  dsimp only [Option.bind_eq_bind,Option.bind_some]
  by_cases hsame : parent idom b = some x
  · have hup : up idom b = some x := up_of_ne hne ▸ hsame
    have hself : up idom = Function.update (up idom) b (some x) := by
      rw [← hup,Function.update_eq_self]
    rw [if_neg (fun h => h.2 hsame)]
    exact ⟨idom,ch,rfl,hs,hnew idom hself,.inl ⟨rfl,rfl,x,hup,hmeet⟩⟩
  rw [if_pos ⟨Option.some_ne_none x,hsame⟩]
  have hset := up_set (x := x) (hs.length ▸ hblt) hne
  refine ⟨_,true,rfl,⟨by rw [List.length_set,hs.length],?_,hset ▸ hvisit⟩,hnew _ hset,
    .inr ⟨rfl,height_lt hblt hs.length hne ?_⟩⟩
  · rw [parent_set (hs.length ▸ hblt),if_neg hne]
    exact hs.entry
  unfold parentRank
  cases hup : up idom b with
  | none =>
    have hxb := visit_rank hS hs.approx hreach hne hlow hmeet
    exact Nat.lt_trans hxb (hr.rank_lt hn hb)
  | some y =>
    refine visit_lowers hS hs.approx hreach hne hlow hmeet hup fun hxy => hsame ?_
    rw [hxy,← up_of_ne hne,hup]

theorem foldlM_refineBlock {l₁ l : List Nat} (hrpo : rpo = l₁++l) (hl₁ : 0 ∈ l₁) (hs : Stage blocks rpo idom)
    (hlow : Low blocks rpo idom l₁.length) (ch : Bool) :
    ∃ idom' ch', l.foldlM (refineBlock blocks (rpoNumbers blocks.length rpo)) (idom,ch) = some (idom',ch') ∧
      Stage blocks rpo idom' ∧ Low blocks rpo idom' rpo.length ∧
      (idom' = idom ∧ ch' = ch ∧ (∀ b ∈ l, Settled blocks idom b) ∨
        ch' = true ∧ height blocks.length rpo idom' < height blocks.length rpo idom) := by
  induction l generalizing l₁ idom ch with
  | nil =>
    refine ⟨idom,ch,rfl,hs,?_,.inl ⟨rfl,rfl,fun b hb => by cases hb⟩⟩
    rw [List.append_nil] at hrpo
    rw [congrArg List.length hrpo]
    exact hlow
  | cons b l ih => ?_
  have hnodup := hr.nodup
  rw [hrpo] at hnodup
  have hapart := (List.nodup_append.mp hnodup).2.2
  have hbl : b ∉ l₁ := fun hm => hapart b hm b List.mem_cons_self rfl
  have hrank : rpo.idxOf b = l₁.length := by
    rw [hrpo,List.idxOf_append_of_notMem hbl,List.idxOf_cons_self,Nat.add_zero]
  have hb : b ∈ rpo := by
    rw [hrpo]
    exact List.mem_append_right _ List.mem_cons_self
  have hne := Ne.symm (hapart 0 hl₁ b List.mem_cons_self)
  obtain ⟨idom₁,ch₁,hstep,hs₁,hlow₁,hout₁⟩ := refineBlock_spec hr hn hs ch hb hne (hrank ▸ hlow)
  obtain ⟨idom₂,ch₂,hrest,hs₂,hlow₂,hout₂⟩ := ih (by rw [hrpo,List.append_assoc,List.singleton_append])
    (List.mem_append_left [b] hl₁) hs₁ (by
      rw [List.length_append,List.length_singleton,← hrank]
      exact hlow₁) ch₁
  refine ⟨idom₂,ch₂,?_,hs₂,hlow₂,?_⟩
  · rw [List.foldlM_cons,hstep]
    exact hrest
  rcases hout₁ with ⟨rfl,rfl,hset⟩|⟨rfl,hlt₁⟩
  · rcases hout₂ with ⟨rfl,rfl,hall⟩|⟨rfl,hlt₂⟩
    · exact .inl ⟨rfl,rfl,List.forall_mem_cons.mpr ⟨hset,hall⟩⟩
    · exact .inr ⟨rfl,hlt₂⟩
  rcases hout₂ with ⟨rfl,rfl,-⟩|⟨rfl,hlt₂⟩
  · exact .inr ⟨rfl,hlt₁⟩
  · exact .inr ⟨rfl,Nat.lt_trans hlt₂ hlt₁⟩

omit hn in
theorem low_one : Low blocks rpo idom 1 := by
  intro z hz hlt
  have hz0 : z = 0 := by
    refine (List.idxOf_inj ((hr.mem z).mpr hz)).mp ?_
    rw [hr.rank_entry]
    omega
  subst hz0
  refine ⟨.inl rfl,fun u hu w hw _ => ?_⟩
  have hu0 : u = 0 := by
    by_contra hne
    have hlt := hu.rank_lt hr.spanning.ranked hne
    rw [hr.rank_entry] at hlt
    omega
  exact hu0 ▸ hw

theorem refineLoop_spec {fuel : Nat} (hs : Stage blocks rpo idom) (hfuel : height blocks.length rpo idom < fuel) :
    ∃ idom', refineLoop blocks rpo (rpoNumbers blocks.length rpo) fuel idom = some idom' ∧
      Stage blocks rpo idom' ∧ (∀ b, Reachable blocks b → Known 0 (up idom') b) ∧
      ∀ b, Reachable blocks b → b ≠ 0 → Settled blocks idom' b := by
  induction fuel generalizing idom with
  | zero => omega
  | succ fuel ih => ?_
  obtain ⟨rest,hrpo⟩ := hr.entry
  obtain ⟨idom₁,ch,hpass,hs₁,hlow₁,hout⟩ := foldlM_refineBlock hr hn
    (show rpo = [0]++rest from hrpo) List.mem_cons_self hs (low_one hr) false
  have hdrop : rpo.drop 1 = rest := by
    rw [hrpo]
    rfl
  rw [refineLoop,refinePass,hdrop,hpass]
  rcases hout with ⟨rfl,rfl,hall⟩|⟨rfl,hlt⟩
  · refine ⟨idom₁,rfl,hs,fun b hb => (hlow₁ b hb (List.idxOf_lt_length_of_mem ((hr.mem b).mpr hb))).1,
      fun b hb hne => hall b ?_⟩
    have := (hr.mem b).mpr hb
    rw [hrpo] at this
    exact (List.mem_cons.mp this).resolve_left hne
  · exact ih hs₁ (by omega)

end

theorem parent_initial {n : Nat} (hn : 0 < n) :
    parent ((List.replicate n none).set 0 (some 0)) b = if b = 0 then some 0 else none := by
  rw [parent_set (by simpa using hn)]
  by_cases hb : b = 0
  · rw [if_pos hb.symm,if_pos hb]
  rw [if_neg (Ne.symm hb),if_neg hb]
  unfold parent
  rw [List.getD_eq_getElem?_getD,List.getElem?_replicate]
  split <;> rfl

theorem up_initial {n : Nat} (hn : 0 < n) : up ((List.replicate n none).set 0 (some 0)) b = none := by
  unfold up
  split
  · rfl
  rename_i hb
  rw [parent_initial hn,if_neg hb]

theorem stage_initial (hn : 0 < blocks.length) :
    Stage blocks rpo ((List.replicate blocks.length none).set 0 (some 0)) := by
  have hno : ∀ {b x}, up ((List.replicate blocks.length none).set 0 (some 0)) b = some x → False := by
    intro b x hx
    rw [up_initial hn] at hx
    cases hx
  refine ⟨by simp,by rw [parent_initial hn,if_pos rfl],up_initial hn,fun b x hx => (hno hx).elim,
    fun b x hx => (hno hx).elim,fun b x hx => (hno hx).elim,fun b hb d hd => ?_,fun b x hx => (hno hx).elim⟩
  rcases hb with rfl|⟨x,hx⟩
  · rw [List.mem_singleton.mp (hd [0] .root)]
    exact .refl 0
  · exact (hno hx).elim

theorem height_initial (hn : 0 < blocks.length) :
    height blocks.length rpo ((List.replicate blocks.length none).set 0 (some 0)) = blocks.length*blocks.length := by
  unfold height parentRank
  simp only [up_initial hn,Finset.sum_const,Finset.card_range]
  rfl

/-- The table that the passes leave. -/
structure IsDomTree (blocks : List Block) (rpo : List Nat) (idom : List (Option Nat)) : Prop where
  length : idom.length = blocks.length
  entry : parent idom 0 = some 0
  known : ∀ b, (∃ x, parent idom b = some x) ↔ Reachable blocks b
  ranked : Ranked (up idom) rpo.idxOf
  anc : ∀ a b, Reachable blocks b → (Anc (up idom) a b ↔ Dom (FlowEdge blocks) 0 a b)

theorem fixpoint_spec (hr : IsRpo blocks rpo) (hn : 0 < blocks.length) :
    ∃ idom, refineLoop blocks rpo (rpoNumbers blocks.length rpo) (blocks.length*blocks.length+1)
      ((List.replicate blocks.length none).set 0 (some 0)) = some idom ∧ IsDomTree blocks rpo idom := by
  obtain ⟨idom,hloop,hs,hknown,hsettled⟩ := refineLoop_spec hr hn (stage_initial hn)
    (Nat.lt_succ_of_le (Nat.le_of_eq (height_initial hn)))
  refine ⟨idom,hloop,hs.length,hs.entry,fun b => ?_,hs.ranked hr,fun a b hb =>
    hs.approx.exact hknown (fun c x hx => ?_) hb⟩
  · rw [← hs.known_iff]
    exact ⟨hs.approx.known_reaches hr.spanning,hknown b⟩
  have hne : c ≠ 0 := by
    rintro rfl
    cases hx
  obtain ⟨y,hy,hmeet⟩ := hsettled c (hs.approx.reach c x hx) hne
  rw [hx] at hy
  exact Option.some.inj hy ▸ hmeet

end CratonVM.Jit.Schedule.Dominators
namespace CratonVM.Jit.Schedule
open Dominance TreeNumbering
variable {blocks : List Block}

def DominatesAll (blocks : List Block) (a b : Nat) : Prop := Dom (FlowEdge blocks) 0 a b

/-- A strict dominator that every other strict dominator dominates. -/
structure IsIdom (blocks : List Block) (b d : Nat) : Prop where
  dom : DominatesAll blocks d b
  ne : d ≠ b
  nearest : ∀ a, DominatesAll blocks a b → a ≠ b → DominatesAll blocks a d

theorem IsIdom.unique {b d d' : Nat} (hb : Reachable blocks b) (h : IsIdom blocks b d) (h' : IsIdom blocks b d') :
    d = d' :=
  Dom.antisymm (h'.dom.reaches hb) (h'.nearest d h.dom h.ne) (h.nearest d' h'.dom h'.ne)

namespace Dominators
section
variable {rpo : List Nat} {idom : List (Option Nat)}

theorem foldlM_children (l : List Nat) (table : List (List Nat))
    (hl : ∀ b ∈ l, ∃ d, parent idom b = some d ∧ d < table.length) :
    ∃ children, l.foldlM (fun children b => do
        let d ← parent idom b
        some (pushAt children d b)) table = some children ∧ children.length = table.length ∧
      ∀ d, row children d = row table d++l.filter fun b => parent idom b = some d := by
  induction l generalizing table with
  | nil => exact ⟨table,rfl,rfl,fun d => by simp⟩
  | cons b l ih => ?_
  obtain ⟨d,hd,hlt⟩ := hl b List.mem_cons_self
  obtain ⟨children,hfold,hlen,hrow⟩ := ih (pushAt table d b) fun c hc => by
    rw [length_pushAt]
    exact hl c (List.mem_cons_of_mem _ hc)
  refine ⟨children,?_,hlen.trans length_pushAt,fun q => ?_⟩
  · rw [List.foldlM_cons,hd]
    exact hfold
  rw [hrow q,row_pushAt]
  by_cases hdq : d = q
  · subst hdq
    simp [hd,hlt]
  · simp [hd,hdq]

theorem IsDomTree.parent_lt (ht : IsDomTree blocks rpo idom) {b d : Nat} (hn : 0 < blocks.length)
    (h : parent idom b = some d) : d < blocks.length := by
  by_cases hb : b = 0
  · subst hb
    rw [ht.entry] at h
    exact Option.some.inj h ▸ hn
  have hreach := (ht.known b).mp ⟨d,h⟩
  have hanc : Anc (up idom) d b := .step (up_of_ne hb ▸ h) (.refl d)
  have hd : Reachable blocks d := Dom.reaches ((ht.anc d b hreach).mp hanc) hreach
  exact hd.lt hn

theorem treeChildren_spec (hr : IsRpo blocks rpo) (ht : IsDomTree blocks rpo idom) (hn : 0 < blocks.length) :
    ∃ children, treeChildren idom rpo = some children ∧ Tree (row children) (up idom) rpo.idxOf 0 := by
  obtain ⟨rest,hrpo⟩ := hr.entry
  have hdrop : rpo.drop 1 = rest := by
    rw [hrpo]
    rfl
  have hnodup := hr.nodup
  rw [hrpo] at hnodup
  obtain ⟨children,hfold,-,hrow⟩ := foldlM_children rest (List.replicate idom.length [])
    fun b hb => by
      obtain ⟨d,hd⟩ := (ht.known b).mpr ((hr.mem b).mp (by rw [hrpo]; exact List.mem_cons_of_mem _ hb))
      exact ⟨d,hd,by rw [List.length_replicate,ht.length]; exact ht.parent_lt hn hd⟩
  have hrow' : ∀ d, row children d = rest.filter fun b => parent idom b = some d := by
    intro d
    rw [hrow d,row_replicate,List.nil_append]
  refine ⟨children,by rw [treeChildren,hdrop]; exact hfold,fun b c => ?_,fun b => ?_,ht.ranked,rfl⟩
  · rw [hrow' b,List.mem_filter,decide_eq_true_eq]
    constructor
    · rintro ⟨hc,hparent⟩
      have hne : c ≠ 0 := by
        rintro rfl
        exact (List.nodup_cons.mp hnodup).1 hc
      exact up_of_ne hne ▸ hparent
    intro hup
    have hne : c ≠ 0 := by
      rintro rfl
      cases hup
    rw [up_of_ne hne] at hup
    have hc := (hr.mem c).mpr ((ht.known c).mp ⟨b,hup⟩)
    rw [hrpo] at hc
    exact ⟨(List.mem_cons.mp hc).resolve_left hne,hup⟩
  rw [hrow' b]
  exact (List.nodup_cons.mp hnodup).2.filter _

end

/-- What the rest of the scheduler may use of the relation. -/
structure Exact (blocks : List Block) (dom : Dominators) : Prop where
  length : dom.len = blocks.length
  reachable : ∀ b, dom.isReachable b = true ↔ b < blocks.length ∧ Reachable blocks b
  dominates : ∀ a b, dom.dominates a b = true ↔
    a < blocks.length ∧ b < blocks.length ∧ (Reachable blocks b → DominatesAll blocks a b)
  idom : ∀ b d, dom.idomOf b = some d → b < blocks.length ∧ Reachable blocks b ∧ IsIdom blocks b d
  hasIdom : ∀ b, b < blocks.length → Reachable blocks b → b ≠ 0 → ∃ d, dom.idomOf b = some d
  preorder : ∀ b, dom.isReachable b = true → dom.preorder b = some (dom.pre.getD b 0)
  preorder_lt : ∀ a b, b < blocks.length → Reachable blocks b → DominatesAll blocks a b → a ≠ b →
    dom.pre.getD a 0 < dom.pre.getD b 0
  last : dom.lastUnreached = (List.range blocks.length).reverse.find? fun b => !dom.isReachable b

section
variable {dom : Dominators}
variable {b : Nat}

theorem isReachable_iff : dom.isReachable b = true ↔ ∃ d, Dominators.parent dom.idom b = some d := by
  unfold isReachable parent
  rw [List.getD_eq_getElem?_getD]
  cases hb : dom.idom[b]? with
  | none => simp
  | some ib => cases ib <;> simp

theorem isReachable_eq_false : dom.isReachable b = false ↔ Dominators.parent dom.idom b = none := by
  rw [← Bool.not_eq_true,isReachable_iff]
  cases Dominators.parent dom.idom b <;> simp

theorem idomOf_eq : dom.idomOf b = up dom.idom b := by
  unfold idomOf up parent
  rw [List.getD_eq_getElem?_getD]
  by_cases hb0 : b = 0
  · rw [if_pos hb0]
    split
    · rw [if_neg (fun h => h hb0)]
    · rfl
  rw [if_neg hb0]
  cases dom.idom[b]? with
  | none => rfl
  | some ib => cases ib <;> simp [hb0]

theorem getElem?_idom (hb : b < dom.len) : dom.idom[b]? = some (Dominators.parent dom.idom b) := by
  unfold parent
  rw [List.getD_eq_getElem?_getD,List.getElem?_eq_getElem hb]
  rfl

theorem dominates_iff {a : Nat} : dom.dominates a b = true ↔ a < dom.len ∧ b < dom.len ∧
    (dom.isReachable b = true → dom.isReachable a = true ∧
      dom.pre.getD a 0 ≤ dom.pre.getD b 0 ∧ dom.post.getD b 0 ≤ dom.post.getD a 0) := by
  unfold dominates
  by_cases ha : a < dom.len
  · by_cases hb : b < dom.len
    · rw [getElem?_idom ha,getElem?_idom hb,isReachable_iff,isReachable_iff]
      cases parent dom.idom b <;> cases parent dom.idom a <;> simp [ha,hb]
    rw [List.getElem?_eq_none (Nat.le_of_not_lt hb)]
    cases dom.idom[a]? <;> simp [hb]
  rw [List.getElem?_eq_none (Nat.le_of_not_lt ha)]
  simp [ha]

end

theorem compute_exact (blocks : List Block) : ∃ dom, compute blocks = some dom ∧ Exact blocks dom := by
  by_cases hn0 : blocks.length = 0
  · refine ⟨⟨[],[],[],none⟩,by exact if_pos hn0,?_⟩
    have hnil : blocks = [] := List.length_eq_zero_iff.mp hn0
    subst hnil
    exact ⟨rfl,fun b => by simp [isReachable],fun a b => by simp [dominates],fun b d h => by simp [idomOf] at h,
      fun b hb => absurd hb (Nat.not_lt_zero b),fun b h => by simp [isReachable] at h,
      fun a b hb => absurd hb (Nat.not_lt_zero b),rfl⟩
  have hn : 0 < blocks.length := Nat.pos_of_ne_zero hn0
  obtain ⟨rpo,hrpo,hr⟩ := reversePostorder_spec hn
  obtain ⟨idom,hfix,ht⟩ := fixpoint_spec hr hn
  obtain ⟨children,hchildren,htree⟩ := treeChildren_spec hr ht hn
  have hclosed : ∀ b ∈ Finset.range blocks.length, ∀ c ∈ row children b, c ∈ Finset.range blocks.length := by
    intro b _ c hc
    have hup := (htree.mem b c).mp hc
    have hne : c ≠ 0 := by
      rintro rfl
      cases hup
    have hreach : Reachable blocks c := (ht.known c).mp ⟨b,up_of_ne hne ▸ hup⟩
    exact Finset.mem_range.mpr (hreach.lt hn)
  have hturns : 2*(Finset.range blocks.length).card ≤ 2*blocks.length := by rw [Finset.card_range]
  obtain ⟨walk,hwalk,hnum⟩ := run_start htree hclosed (Finset.mem_range.mpr hn) hturns
  have hroot : ∀ b, Reachable blocks b → Anc (up idom) 0 b := fun b hb => (ht.anc 0 b hb).mpr Dom.root
  have htable : ∀ (f : Nat → Nat) b, b < blocks.length → ((List.range blocks.length).map f).getD b 0 = f b := by
    intro f b hb
    rw [List.getD_eq_getElem?_getD,List.getElem?_map,List.getElem?_range hb]
    rfl
  refine ⟨⟨idom,(List.range blocks.length).map walk.pre,(List.range blocks.length).map walk.post,
    (List.range blocks.length).reverse.find? fun b => parent idom b = none⟩,?_,?_⟩
  · unfold compute
    simp only [hn0,if_false,hrpo,Option.bind_eq_bind,Option.bind_some,hfix,hchildren,hwalk]
  have hreachable : ∀ b, isReachable ⟨idom,(List.range blocks.length).map walk.pre,
      (List.range blocks.length).map walk.post,(List.range blocks.length).reverse.find? fun b => parent idom b = none⟩ b
        = true ↔ b < blocks.length ∧ Reachable blocks b := by
    intro b
    rw [isReachable_iff]
    exact (ht.known b).trans ⟨fun h => ⟨h.lt hn,h⟩,fun h => h.2⟩
  refine ⟨ht.length,hreachable,fun a b => ?_,fun b d hd => ?_,fun b hb hreach hne => ?_,fun b hb => ?_,
    fun a b hb hreach hdom hne => ?_,?_⟩
  · rw [dominates_iff,hreachable,hreachable]
    refine (and_congr (by rw [len,ht.length]) (and_congr (by rw [len,ht.length]) Iff.rfl)).trans ?_
    refine and_congr_right fun ha => and_congr_right fun hb => ?_
    rw [htable _ a ha,htable _ b hb,htable _ a ha,htable _ b hb]
    constructor
    · intro h hbr
      obtain ⟨⟨-,har⟩,hle⟩ := h ⟨hb,hbr⟩
      exact (ht.anc a b hbr).mp ((hnum a b (hroot a har) (hroot b hbr)).1.mpr hle)
    intro h hbr
    have hdom := h hbr.2
    have har : Reachable blocks a := Dom.reaches hdom hbr.2
    exact ⟨⟨ha,har⟩,(hnum a b (hroot a har) (hroot b hbr.2)).1.mp ((ht.anc a b hbr.2).mpr hdom)⟩
  · rw [idomOf_eq] at hd
    have hne : b ≠ 0 := by
      rintro rfl
      cases hd
    have hreach : Reachable blocks b := (ht.known b).mp ⟨d,up_of_ne hne ▸ hd⟩
    have hstep : Anc (up idom) d b := .step hd (.refl d)
    have hdom := (ht.anc d b hreach).mp hstep
    refine ⟨hreach.lt hn,hreach,hdom,fun hdb => ?_,fun a ha hab => ?_⟩
    · subst hdb
      exact Nat.lt_irrefl _ (ht.ranked d d hd)
    obtain ⟨c,hc,hac⟩ := ((ht.anc a b hreach).mpr ha).strict hab
    rw [show up idom b = some d from hd] at hc
    obtain rfl := Option.some.inj hc
    exact (ht.anc a d (Dom.reaches hdom hreach)).mp hac
  · obtain ⟨d,hd⟩ := (ht.known b).mpr hreach
    exact ⟨d,by rw [idomOf_eq,up_of_ne hne]; exact hd⟩
  · have hlt := ((hreachable b).mp hb).1
    unfold preorder
    rw [if_pos hb,List.getD_eq_getElem?_getD,List.getElem?_map,List.getElem?_range hlt]
    rfl
  · have har : Reachable blocks a := Dom.reaches hdom hreach
    have hanc := (ht.anc a b hreach).mpr hdom
    have hpair := hnum a b (hroot a har) (hroot b hreach)
    rw [htable _ a (har.lt hn),htable _ b hb]
    exact Nat.lt_of_le_of_ne (hpair.1.mp hanc).1 fun heq => hne (hpair.2 heq)
  dsimp only
  congr 1
  funext b
  rw [Bool.eq_iff_iff,decide_eq_true_eq,Bool.not_eq_true',isReachable_eq_false]

/-- The relation is exact, for every list of blocks: dominance of a reachable block is passing through on
all paths, and the immediate dominator is the nearest strict one. -/
theorem compute_is_dominance (blocks : List Block) : ∃ dom, compute blocks = some dom ∧
    (∀ a b, b < blocks.length → Reachable blocks b →
      (dom.dominates a b = true ↔ ∀ p, Path (FlowEdge blocks) 0 p b → a ∈ p)) ∧
    (∀ b, b < blocks.length → Reachable blocks b → b ≠ 0 →
      ∃ d, dom.idomOf b = some d ∧ IsIdom blocks b d ∧ ∀ d', IsIdom blocks b d' → d' = d) ∧
    dom.idomOf 0 = none ∧
    (∀ a b, a < blocks.length → b < blocks.length → ¬ Reachable blocks b → dom.dominates a b = true) ∧
    (∀ a b, a < blocks.length → b < blocks.length → ¬ Reachable blocks a → Reachable blocks b →
      dom.dominates a b = false) := by
  obtain ⟨dom,hdom,h⟩ := compute_exact blocks
  refine ⟨dom,hdom,fun a b hb hreach => ?_,fun b hb hreach hne => ?_,idomOf_eq,fun a b ha hb hun => ?_,
    fun a b ha hb hun hreach => ?_⟩
  · refine (h.dominates a b).trans ⟨fun hd => hd.2.2 hreach,fun hd => ⟨?_,hb,fun _ => hd⟩⟩
    have har : Reachable blocks a := Dom.reaches hd hreach
    exact har.lt (Nat.lt_of_le_of_lt (Nat.zero_le b) hb)
  · obtain ⟨d,hd⟩ := h.hasIdom b hb hreach hne
    have hid := (h.idom b d hd).2.2
    exact ⟨d,hd,hid,fun d' hd' => hd'.unique hreach hid⟩
  · exact (h.dominates a b).mpr ⟨ha,hb,fun hr => absurd hr hun⟩
  rw [← Bool.not_eq_true,h.dominates]
  exact fun hd => hun (Dom.reaches (hd.2.2 hreach) hreach)

/-- The answers are those of a tree: an order in which the dominators of a block form a chain. -/
theorem compute_treeOrder (blocks : List Block) : ∃ dom, compute blocks = some dom ∧
    ∀ a b c, dom.isReachable c = true →
      (dom.dominates a b = true → dom.dominates b c = true → dom.dominates a c = true) ∧
      (dom.dominates a c = true → dom.dominates c a = true → a = c) ∧
      (dom.dominates a c = true → dom.dominates b c = true →
        dom.dominates a b = true ∨ dom.dominates b a = true) := by
  obtain ⟨dom,hdom,h⟩ := compute_exact blocks
  refine ⟨dom,hdom,fun a b c hc => ?_⟩
  obtain ⟨hlt,hreach⟩ := (h.reachable c).mp hc
  simp only [h.dominates]
  refine ⟨fun hab hbc => ?_,fun hac hca => ?_,fun hac hbc => ?_⟩
  · have hb := Dom.reaches (hbc.2.2 hreach) hreach
    exact ⟨hab.1,hlt,fun _ => Dom.trans (hab.2.2 hb) (hbc.2.2 hreach)⟩
  · have ha := Dom.reaches (hac.2.2 hreach) hreach
    exact Dom.antisymm hreach (hac.2.2 hreach) (hca.2.2 ha)
  · exact (Dom.linear hreach (hac.2.2 hreach) (hbc.2.2 hreach)).imp (fun hd => ⟨hac.1,hbc.1,fun _ => hd⟩)
      fun hd => ⟨hbc.1,hac.1,fun _ => hd⟩

end Dominators
end CratonVM.Jit.Schedule
