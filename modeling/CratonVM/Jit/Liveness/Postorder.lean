import CratonVM.Jit.Liveness.FixedPoint

/-!
The postorder of the blocks: the walk finishes every block once, so the ranks are a numbering.
-/
namespace CratonVM.Jit.Liveness
open List Prod
variable {succ : Nat → List Nat} {nb : Nat}

section
/-- Who is seen is finished or on the stack, once. -/
structure Walk.Inv (nb : Nat) (w : Walk) : Prop where
  length : w.seen.length = nb
  nodup : (w.post ++ w.stack.map Prod.fst).Nodup
  seen : ∀ b, b ∈ w.post ++ w.stack.map Prod.fst ↔ b < nb ∧ w.seen.getD b false = true

theorem getD_set_true {seen : List Bool} {s : Nat} (hs : s < seen.length) (b : Nat) :
    (seen.set s true).getD b false = if b = s then true else seen.getD b false := by
  simp only [getD_eq_getElem?_getD,getElem?_set]
  by_cases hbs : b = s
  · subst hbs
    simp [hs]
  · simp [hbs,Ne.symm hbs]

theorem Walk.Inv.push {w : Walk} (h : w.Inv nb) {s : Nat} (hs : s < nb)
    (hseen : w.seen.getD s false = false) {stack : List (Nat × Nat)}
    (hstack : stack.map fst = s::w.stack.map fst) :
    Walk.Inv nb { w with seen := w.seen.set s true, stack } := by
  have hmem : ∀ b, b ∈ w.post ++ s::w.stack.map fst ↔
      b = s ∨ b ∈ w.post ++ w.stack.map fst := by
    intro b
    simp only [mem_append,mem_cons]
    exact or_left_comm
  refine ⟨by simp [h.length],?_,fun b => ?_⟩
  · rw [hstack,nodup_middle,nodup_cons]
    refine ⟨fun hin => ?_,h.nodup⟩
    have := ((h.seen s).mp hin).2
    rw [hseen] at this
    cases this
  rw [hstack,hmem,h.seen,getD_set_true (h.length ▸ hs)]
  by_cases hbs : b = s
  · simp [hbs,hs]
  · simp [hbs]

/-- Steps that are left: the edges of the blocks on the stack and of those not seen yet. -/
def unseenTurns (succ : Nat → List Nat) (nb : Nat) (seen : List Bool) : Nat :=
  ((List.range nb).map fun b => if seen.getD b false then 0 else (succ b).length+1).sum

def stackTurns (succ : Nat → List Nat) (stack : List (Nat × Nat)) : Nat :=
  (stack.map fun e => (succ e.1).length-e.2+1).sum

theorem sum_update {l : List Nat} (hl : l.Nodup) {s : Nat} (hs : s ∈ l) {f g : Nat → Nat}
    (hfg : ∀ b, b ≠ s → f b = g b) : (l.map f).sum+g s = (l.map g).sum+f s := by
  induction l with
  | nil => cases hs
  | cons a l ih => ?_
  rw [nodup_cons] at hl
  rcases mem_cons.mp hs with rfl | hs
  · have hrest : l.map f = l.map g := by
      refine map_congr_left fun b hb => hfg b ?_
      rintro rfl
      exact hl.1 hb
    simp only [map_cons,sum_cons,hrest]
    omega
  have hne : a ≠ s := by
    rintro rfl
    exact hl.1 hs
  have := ih hl.2 hs
  simp only [map_cons,sum_cons,hfg a hne]
  omega

theorem unseenTurns_set {seen : List Bool} {s : Nat} (hlen : seen.length = nb) (hs : s < nb)
    (hseen : seen.getD s false = false) :
    unseenTurns succ nb (seen.set s true)+((succ s).length+1) = unseenTurns succ nb seen := by
  have h := @sum_update (range nb) nodup_range s (by simpa using hs)
    (fun b => if (seen.set s true).getD b false then 0 else (succ b).length+1)
    (fun b => if seen.getD b false then 0 else (succ b).length+1)
    (fun b hb => by
      rw [getD_set_true (hlen ▸ hs),if_neg hb])
  have hnew : (seen.set s true).getD s false = true := by rw [getD_set_true (hlen ▸ hs),if_pos rfl]
  simp only [hnew,hseen,Bool.false_eq_true,if_true,if_false] at h
  rw [unseenTurns,unseenTurns]
  omega

theorem unseenTurns_le (seen : List Bool) : unseenTurns succ nb seen ≤ walkTurns succ nb := by
  rw [unseenTurns,walkTurns]
  induction range nb with
  | nil => simp
  | cons b l ih =>
    simp only [map_cons,sum_cons]
    split <;> omega

theorem walkLoop_spec (n : Nat) {w : Walk} (h : w.Inv nb)
    (hn : stackTurns succ w.stack+unseenTurns succ nb w.seen ≤ n) :
    (walkLoop succ nb n w).Inv nb ∧ (walkLoop succ nb n w).stack = [] ∧
      ∀ b, w.seen.getD b false = true → (walkLoop succ nb n w).seen.getD b false = true := by
  induction n generalizing w with
  | zero =>
    refine ⟨h,?_,fun b hb => hb⟩
    cases hst : w.stack with
    | nil => exact hst
    | cons e rest =>
      rw [hst,stackTurns,map_cons,sum_cons] at hn
      omega
  | succ n ih => ?_
  rw [walkLoop]
  cases hst : w.stack with
  | nil => exact ⟨h,hst,fun b hb => hb⟩
  | cons e rest => ?_
  obtain ⟨b,next⟩ := e
  rw [hst,stackTurns,map_cons,sum_cons] at hn
  dsimp only at hn ⊢
  cases hedge : (succ b)[next]? with
  | some s => ?_
  | none =>
    have hperm : ∀ c, c ∈ (w.post ++ [b]) ++ rest.map fst ↔
        c ∈ w.post ++ w.stack.map fst := by
      intro c
      simp [hst]
    have hinv : Walk.Inv nb { w with post := w.post ++ [b], stack := rest } := by
      refine ⟨h.length,?_,fun c => ?_⟩
      · have hnd := h.nodup
        rw [hst] at hnd
        simpa using hnd
      dsimp only
      rw [hperm]
      exact h.seen c
    exact ih hinv (by
      simp only [stackTurns] at hn ⊢
      omega)
  have hlt := (List.getElem?_eq_some_iff.mp hedge).1
  by_cases hnew : (decide (s < nb) && !(w.seen.getD s false)) = true
  · simp only [hnew,if_true]
    rw [Bool.and_eq_true,decide_eq_true_eq,Bool.not_eq_true'] at hnew
    have hinv := h.push hnew.1 hnew.2 (show map fst ((s,0)::(b,next+1)::rest) = _ by simp [hst])
    have hturns := @unseenTurns_set succ nb w.seen s h.length hnew.1 hnew.2
    obtain ⟨hinv',hempty,hseen⟩ := ih hinv (by
      simp only [stackTurns,map_cons,sum_cons] at hn ⊢
      omega)
    refine ⟨hinv',hempty,fun c hc => hseen c ?_⟩
    dsimp only
    rw [getD_set_true (h.length ▸ hnew.1)]
    split
    · rfl
    · exact hc
  simp only [hnew]
  have hinv : Walk.Inv nb { w with stack := (b,next+1)::rest } :=
    ⟨h.length,by simpa [hst] using h.nodup,by simpa [hst] using h.seen⟩
  exact ih hinv (by
    simp only [stackTurns,map_cons,sum_cons] at hn ⊢
    omega)

theorem walkFrom_spec {w : Walk} (h : w.Inv nb) (hempty : w.stack = []) {root : Nat}
    (hroot : root < nb) :
    (walkFrom succ nb w root).Inv nb ∧ (walkFrom succ nb w root).stack = [] ∧
      (walkFrom succ nb w root).seen.getD root false = true ∧
      ∀ b, w.seen.getD b false = true → (walkFrom succ nb w root).seen.getD b false = true := by
  rw [walkFrom]
  by_cases hseen : w.seen.getD root false = true
  · rw [if_pos hseen]
    exact ⟨h,hempty,hseen,fun b hb => hb⟩
  rw [if_neg hseen]
  have hnew : w.seen.getD root false = false := by simpa using hseen
  have hinv := h.push hroot hnew (show map fst [(root,0)] = _ by simp [hempty])
  have hturns := @unseenTurns_set succ nb w.seen root h.length hroot hnew
  have hle := @unseenTurns_le succ nb w.seen
  obtain ⟨hinv',hdone,hkeep⟩ := @walkLoop_spec succ nb (walkTurns succ nb) _ hinv (by
    simp only [stackTurns,map_cons,map_nil,sum_cons,sum_nil]
    omega)
  refine ⟨hinv',hdone,hkeep root ?_,fun b hb => hkeep b ?_⟩
  · dsimp only
    rw [getD_set_true (h.length ▸ hroot),if_pos rfl]
  dsimp only
  rw [getD_set_true (h.length ▸ hroot)]
  split
  · rfl
  · exact hb

theorem walkAll_spec {roots : List Nat} (hroots : ∀ r ∈ roots, r < nb) {w : Walk} (h : w.Inv nb)
    (hempty : w.stack = []) :
    (roots.foldl (walkFrom succ nb) w).Inv nb ∧ (roots.foldl (walkFrom succ nb) w).stack = [] ∧
      ∀ b, b ∈ roots ∨ w.seen.getD b false = true →
        (roots.foldl (walkFrom succ nb) w).seen.getD b false = true := by
  induction roots generalizing w with
  | nil => exact ⟨h,hempty,by simp⟩
  | cons r roots ih => ?_
  obtain ⟨hinv,hdone,hroot,hkeep⟩ := @walkFrom_spec succ nb w h hempty r (hroots r (by simp))
  obtain ⟨hinv',hdone',hall⟩ := ih (fun c hc => hroots c (by simp [hc])) hinv hdone
  refine ⟨hinv',hdone',fun b hb => hall b ?_⟩
  rcases hb with hb | hb
  · rcases mem_cons.mp hb with rfl | hb
    · exact .inr hroot
    · exact .inl hb
  · exact .inr (hkeep b hb)

theorem postorderBlocks_perm (succ : Nat → List Nat) (nb : Nat) :
    (postorderBlocks succ nb).Perm (range nb) := by
  have hstart : Walk.Inv nb { seen := replicate nb false, post := [], stack := [] } := by
    refine ⟨by simp,by simp,fun b => ?_⟩
    simp only [map_nil,append_nil,not_mem_nil,false_iff,not_and,Bool.not_eq_true]
    intro hb
    simp [getD_eq_getElem?_getD,hb]
  obtain ⟨hinv,hdone,hall⟩ := @walkAll_spec succ nb (range nb) (by simp) _ hstart rfl
  have hnd := hinv.nodup
  have hseen := hinv.seen
  rw [hdone,map_nil,append_nil] at hnd
  simp only [hdone,map_nil,append_nil] at hseen
  refine (perm_ext_iff_of_nodup hnd nodup_range).mpr fun b => ?_
  rw [hseen,mem_range]
  exact ⟨fun hb => hb.1,fun hb => ⟨hb,hall b (.inl (by simpa using hb))⟩⟩

end

section
/-- Filling in the order and the ranks. -/
def fillRanks (nb : Nat) (s : List Nat × List Nat) (e : Nat × Nat) : List Nat × List Nat :=
  (s.1.set (nb-1-e.2) e.1,s.2.set e.1 (nb-1-e.2))

theorem getD_set {l : List Nat} {i : Nat} (hi : i < l.length) (v j : Nat) :
    (l.set i v).getD j 0 = if j = i then v else l.getD j 0 := by
  simp only [getD_eq_getElem?_getD,getElem?_set]
  by_cases hji : j = i
  · subst hji
    simp [hi]
  · simp [hji,Ne.symm hji]

theorem fillRanks_spec {l : List Nat} (hl : l.Nodup) (hlt : ∀ b ∈ l, b < nb) {i : Nat}
    (hi : i+l.length ≤ nb) {s : List Nat × List Nat} (h1 : s.1.length = nb) (h2 : s.2.length = nb) :
    ((l.zipIdx i).foldl (fillRanks nb) s).1.length = nb ∧
    ((l.zipIdx i).foldl (fillRanks nb) s).2.length = nb ∧
    (∀ k, nb ≤ k+i → ((l.zipIdx i).foldl (fillRanks nb) s).1.getD k 0 = s.1.getD k 0) ∧
    (∀ b, b ∉ l → ((l.zipIdx i).foldl (fillRanks nb) s).2.getD b 0 = s.2.getD b 0) ∧
    ∀ b ∈ l, ((l.zipIdx i).foldl (fillRanks nb) s).2.getD b 0 < nb ∧
      ((l.zipIdx i).foldl (fillRanks nb) s).1.getD
        (((l.zipIdx i).foldl (fillRanks nb) s).2.getD b 0) 0 = b := by
  induction l generalizing i s with
  | nil => simp [h1,h2]
  | cons a l ih => ?_
  rw [nodup_cons] at hl
  rw [length_cons] at hi
  have ha := hlt a (by simp)
  rw [zipIdx_cons,foldl_cons]
  obtain ⟨hl1,hl2,hkeep1,hkeep2,hmem⟩ := @ih hl.2 (fun b hb => hlt b (by simp [hb])) (i+1) (by omega)
    (fillRanks nb s (a,i)) (by simp [fillRanks,h1]) (by simp [fillRanks,h2])
  refine ⟨hl1,hl2,fun k hk => ?_,fun b hb => ?_,fun b hb => ?_⟩
  · rw [hkeep1 k (by omega)]
    simp only [fillRanks]
    rw [getD_set (by omega),if_neg (by omega)]
  · rw [hkeep2 b fun hbl => hb (by simp [hbl])]
    simp only [fillRanks]
    rw [getD_set (by omega),if_neg]
    rintro rfl
    exact hb (by simp)
  rcases mem_cons.mp hb with rfl | hb
  · have hrank : ((l.zipIdx (i+1)).foldl (fillRanks nb) (fillRanks nb s (b,i))).2.getD b 0 =
        nb-1-i := by
      rw [hkeep2 b hl.1]
      simp only [fillRanks]
      rw [getD_set (by omega),if_pos rfl]
    rw [hrank]
    refine ⟨by omega,?_⟩
    rw [hkeep1 _ (by omega)]
    simp only [fillRanks]
    rw [getD_set (by omega),if_pos rfl]
  · exact hmem b hb

theorem postorder_ranked (succ : Nat → List Nat) (nb : Nat) :
    (postorder succ nb).1.length = nb ∧ (postorder succ nb).2.length = nb ∧
      Ranked nb ((postorder succ nb).1.getD · 0) ((postorder succ nb).2.getD · 0) := by
  have hperm := postorderBlocks_perm succ nb
  have hmem : ∀ b, b ∈ postorderBlocks succ nb ↔ b < nb := fun b => by
    rw [hperm.mem_iff,mem_range]
  have hlen : (postorderBlocks succ nb).length = nb := by rw [hperm.length_eq,length_range]
  obtain ⟨h1,h2,-,-,hall⟩ := @fillRanks_spec nb (postorderBlocks succ nb)
    (hperm.nodup_iff.mpr nodup_range) (fun b hb => (hmem b).mp hb) 0 (by omega)
    (replicate nb 0,replicate nb 0) (by simp) (by simp)
  exact ⟨h1,h2,fun b hb => (hall b ((hmem b).mpr hb)).1,fun b hb => (hall b ((hmem b).mpr hb)).2⟩

end

section
variable {sets : FixedPointSets} {st : LiveSets}

theorem worklistOrdered_exact {preds : Nat → List Nat} (hsets : sets.Shapes)
    (hpreds : PredsComplete succ sets.nb preds) (h : Running succ sets st) (n : Nat)
    (hend : (fixedPointWorklistOrdered succ sets preds (postorder succ sets.nb).1
      (postorder succ sets.nb).2 n st).2 = true) :
    (fixedPointWorklistOrdered succ sets preds (postorder succ sets.nb).1
      (postorder succ sets.nb).2 n st).1.Exact succ sets := by
  obtain ⟨h1,h2,hrank⟩ := postorder_ranked succ sets.nb
  rw [fixedPointWorklistOrdered] at hend ⊢
  simp only [h1,h2,Nat.min_self] at hend ⊢
  exact worklistPasses_exact hsets hrank hpreds n (inv_allDirty hrank h) hend

/-- A driver that reads the blocks' own predecessor lists needs every edge in them. -/
def NeedsPreds : LivenessFixedPoint → Prop
  | .worklistSchedulePreds => True
  | .worklistPostorder schedulePreds => schedulePreds = true
  | _ => False

theorem fixedPointOnSchedule_exact {blocks : List Block} {fixedPoint : LivenessFixedPoint}
    (hsets : sets.Shapes)
    (hpreds : NeedsPreds fixedPoint →
      PredsComplete (successorsOf blocks) sets.nb (predecessorsOf blocks))
    (h : Running (successorsOf blocks) sets st) (n : Nat)
    (hend : (fixedPointOnSchedule blocks fixedPoint sets n st).2 = true) :
    (fixedPointOnSchedule blocks fixedPoint sets n st).1.Exact (successorsOf blocks) sets := by
  cases fixedPoint with
  | roundRobin => exact roundRobin_exact hsets h n hend
  | roundRobinDriver => exact roundRobin_exact hsets h n hend
  | worklist => exact worklistPreds_exact hsets predIndex_complete h n hend
  | worklistSchedulePreds => exact worklistPreds_exact hsets (hpreds trivial) h n hend
  | worklistPostorder schedulePreds =>
    cases schedulePreds with
    | true => exact worklistOrdered_exact hsets (hpreds rfl) h n hend
    | false => exact worklistOrdered_exact hsets predIndex_complete h n hend

end
end CratonVM.Jit.Liveness
