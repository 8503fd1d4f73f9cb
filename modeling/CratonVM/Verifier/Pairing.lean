import CratonVM.Verifier.DeclaredFrames
import CratonVM.Verifier.DescriptorGrammar
import CratonVM.Verifier.Insn

/-!
A `long` or `double` takes two slots of a frame, the second one a `Top`. The slots of a frame are a
plain list, and every operation that shifts, overwrites, merges or truncates them has to keep both
halves together.
-/
namespace CratonVM.Verifier
open List Option
open Bool hiding not_and not_or

open Reader (ConstantPool StackMapFrame Instruction)
open Outcome VerificationFrame FrameM

/-- Every `long` and `double` is followed by its second slot. -/
def Paired (slots : List VType) : Prop :=
  ∀ (i : Nat) (t : VType), slots[i]? = some t → t.isCategory2 = true → slots[i+1]? = some .top

/-- The stack is read from its bottom. -/
structure VerificationFrame.Paired (frame : VerificationFrame) : Prop where
  locals : Verifier.Paired frame.locals
  stack : Verifier.Paired frame.stack.reverse

section
variable {t : VType} {slots : List VType}

theorem paired_nil : Paired [] := by
  intro i t h
  simp at h

theorem paired_cons :
    Paired (t :: slots) ↔ (t.isCategory2 = true → slots.head? = some .top) ∧ Paired slots := by
  constructor
  · intro h
    refine ⟨fun ht => ?_,fun i u hu => h (i+1) u hu⟩
    have := h 0 t rfl ht
    rwa [getElem?_cons_succ,← head?_eq_getElem?] at this
  rintro ⟨hhead,htail⟩ i u hu hcat
  cases i with
  | zero =>
    cases hu
    rw [getElem?_cons_succ,← head?_eq_getElem?]
    exact hhead hcat
  | succ i => exact htail i u hu hcat

theorem paired_iff_expand : Paired slots ↔ ∃ values : List VType, slots = values.flatMap slotsOf := by
  constructor
  · intro h
    induction hn : slots.length using Nat.strong_induction_on generalizing slots with
    | _ n ih =>
      cases slots with
      | nil => exact ⟨[],rfl⟩
      | cons t rest => ?_
      obtain ⟨hhead,hrest⟩ := (paired_cons).mp h
      cases hcat : t.isCategory2 with
      | false =>
        obtain ⟨values,hvalues⟩ := ih rest.length (by simp at hn; omega) hrest rfl
        exact ⟨t :: values,by rw [flatMap_cons,slotsOf_category1 hcat,← hvalues]; rfl⟩
      | true => ?_
      cases rest with
      | nil => cases hhead hcat
      | cons upper rest =>
        obtain rfl : upper = .top := some.inj (hhead hcat)
        obtain ⟨values,hvalues⟩ := ih rest.length (by simp at hn; omega) ((paired_cons).mp hrest).2 rfl
        exact ⟨t :: values,by rw [flatMap_cons,slotsOf_category2 hcat,← hvalues]; rfl⟩
  rintro ⟨values,rfl⟩
  induction values with
  | nil => exact paired_nil
  | cons t values ih => ?_
  rw [flatMap_cons]
  cases hcat : t.isCategory2 with
  | false =>
    rw [slotsOf_category1 hcat]
    exact (paired_cons).mpr ⟨fun h => absurd h (by simp [hcat]),ih⟩
  | true =>
    rw [slotsOf_category2 hcat]
    exact (paired_cons).mpr ⟨fun _ => rfl,(paired_cons).mpr ⟨fun h => absurd h (by decide),ih⟩⟩

/-- The stack from its top: each `long` and `double` below the slot `above` has its second slot above
it. -/
def Covered : (above : VType) → (stack : List VType) → Prop
  | _,[] => True
  | above,t :: rest => (t.isCategory2 = true → above = .top) ∧ Covered t rest

theorem paired_reverse_append (stack tail : List VType) :
    Paired (stack.reverse ++ tail) ↔ Covered (tail.head?.getD .int) stack ∧ Paired tail := by
  induction stack generalizing tail with
  | nil => simp [Covered]
  | cons t rest ih => ?_
  have hhead : tail.head? = some .top ↔ tail.head?.getD .int = .top := by
    cases tail with
    | nil => simp
    | cons u tail => simp
  rw [reverse_cons,append_assoc,singleton_append,ih,paired_cons,Covered,hhead,
    head?_cons,getD_some]
  constructor
  · rintro ⟨hrest,ht,htail⟩
    exact ⟨⟨ht,hrest⟩,htail⟩
  rintro ⟨⟨ht,hrest⟩,htail⟩
  exact ⟨hrest,ht,htail⟩

variable {stack : List VType}

theorem paired_reverse : Paired stack.reverse ↔ Covered .int stack := by
  have h := paired_reverse_append stack []
  rw [append_nil] at h
  exact h.trans (and_iff_left paired_nil)

theorem Covered.of_ne_top {above : VType} (h : Covered above stack)
    (hne : above ≠ .top) : Covered .int stack := by
  cases stack with
  | nil => trivial
  | cons t rest => exact ⟨fun ht => absurd (h.1 ht) hne,h.2⟩

theorem Covered.any (h : Covered .int stack) (above : VType) :
    Covered above stack := by
  cases stack with
  | nil => trivial
  | cons t rest => exact ⟨fun ht => absurd (h.1 ht) (by simp),h.2⟩

theorem Covered.whole {above : VType} (h : Covered above stack)
    (hhead : (stack.head?.getD .top).isCategory2 = false) : Covered .int stack := by
  cases stack with
  | nil => trivial
  | cons t rest =>
    refine ⟨fun ht => ?_,h.2⟩
    rw [head?_cons,getD_some,ht] at hhead
    cases hhead

theorem Paired.append_top (h : Paired slots) (n : Nat) : Paired (slots ++ replicate n .top) := by
  intro i t hi hcat
  have hlt : i < slots.length := by
    by_contra hge
    rw [getElem?_append_right (Nat.not_lt.mp hge),getElem?_replicate] at hi
    split at hi
    · cases hi
      cases hcat
    · cases hi
  rw [getElem?_append_left hlt] at hi
  have hnext := h i t hi hcat
  have hlt' : i+1 < slots.length := (List.getElem?_eq_some_iff.mp hnext).1
  rw [getElem?_append_left hlt']
  exact hnext

theorem Paired.set (h : Paired slots) {index : Nat} (ht : t.isCategory2 = false)
    (hbelow : ∀ u, 0 < index → slots[index-1]? = some u → u.isCategory2 = true → t = .top) :
    Paired (slots.set index t) := by
  intro i u hi hcat
  by_cases hii : index = i
  · subst hii
    rw [getElem?_set] at hi
    simp only [if_true] at hi
    split at hi
    · cases hi
      rw [ht] at hcat
      cases hcat
    · cases hi
  rw [getElem?_set_ne hii] at hi
  have hnext := h i u hi hcat
  by_cases hin : index = i+1
  · subst hin
    rw [hbelow u (Nat.succ_pos i) (by simpa using hi) hcat]
    rw [getElem?_set_self (List.getElem?_eq_some_iff.mp hnext).1]
  rw [getElem?_set_ne hin]
  exact hnext

theorem Paired.set_pair (h : Paired slots) {index : Nat} (hlen : index+1 < slots.length)
    (hbelow : ∀ u, 0 < index → slots[index-1]? = some u → u.isCategory2 = false) :
    Paired ((slots.set index t).set (index+1) .top) := by
  intro i u hi hcat
  have hlen' : index+1 < (slots.set index t).length := by simpa using hlen
  by_cases htop : index+1 = i
  · subst htop
    rw [getElem?_set_self hlen'] at hi
    cases hi
    cases hcat
  rw [getElem?_set_ne htop] at hi
  by_cases hbase : index = i
  · subst hbase
    exact getElem?_set_self hlen'
  rw [getElem?_set_ne hbase] at hi
  have hnext := h i u hi hcat
  have hne : index ≠ i+1 := by
    rintro rfl
    rw [hbelow u (Nat.succ_pos i) (by simpa using hi)] at hcat
    cases hcat
  by_cases hover : index+1 = i+1
  · exact absurd (Nat.succ.inj hover) hbase
  rw [getElem?_set_ne hover,getElem?_set_ne hne]
  exact hnext

theorem Paired.invalidate (h : Paired slots) (index : Nat) :
    Paired (invalidateCat2BaseBelow slots index) ∧
      ∀ u, 0 < index → (invalidateCat2BaseBelow slots index)[index-1]? = some u → u.isCategory2 = false := by
  unfold invalidateCat2BaseBelow
  split
  · constructor
    · exact h.set rfl fun _ _ _ _ => rfl
    intro u _ hu
    rw [getElem?_set] at hu
    simp only [if_true] at hu
    split at hu
    · cases hu
      rfl
    · cases hu
  rename_i hbase
  refine ⟨h,fun u hpos hu => ?_⟩
  rw [not_and] at hbase
  have := hbase hpos
  rw [hu,getD_some,not_eq_true] at this
  exact this

end

def ClassHierarchy.MergesToReferences (h : ClassHierarchy) : Prop :=
  ∀ {a b m : VType}, h.mergeReferences a b = some m → m.isClassOrArray = true

section
variable {h : ClassHierarchy} (hr : h.MergesToReferences)
include hr

theorem merge_category2 {a b : VType} (hm : (a.merge h b).isCategory2 = true) :
    a = b ∧ a.merge h b = a := by
  unfold VType.merge at hm ⊢
  split at hm
  · rename_i heq
    exact ⟨heq,if_pos heq⟩
  have harms : (VType.mergeArms h a b).isCategory2 = false := by
    unfold VType.mergeArms
    split
    · split
      · cases b <;> first | rfl | (rename_i hb; cases hb)
      · rfl
    · split
      · cases a <;> first | rfl | (rename_i ha; cases ha)
      · rfl
    · rfl
    · rfl
    · rfl
    · rcases mergeArrays_or_object h _ _ with ⟨inner,hinner⟩ | hobject
      · rw [hinner]
        rfl
      rw [hobject]
      rfl
    · rfl
  split at hm
  · cases hown : h.mergeReferences a b with
    | none =>
      rw [hown,getD_none,harms] at hm
      cases hm
    | some m =>
      rw [hown,getD_some] at hm
      have := hr hown
      cases m <;> first | (cases hm; done) | (cases this)
  rw [harms] at hm
  cases hm

theorem Covered.zipWith_merge {a b : List VType} : ∀ {p q r : VType}, Covered p a → Covered q b →
    (p = .top → q = .top → r = .top) → Covered r (zipWith (VType.merge h) a b) := by
  induction a generalizing b with
  | nil =>
    intro p q r _ _ _
    trivial
  | cons x a ih => ?_
  intro p q r ha hb hpqr
  cases b with
  | nil => trivial
  | cons y b => ?_
  constructor
  · intro hcat
    obtain ⟨rfl,hxx⟩ := merge_category2 hr hcat
    rw [hxx] at hcat
    exact hpqr (ha.1 hcat) (hb.1 hcat)
  refine ih ha.2 hb.2 fun hx hy => ?_
  rw [hx,hy]
  rfl

omit hr in
theorem mergeLocals_getElem? (a b : List VType) (i : Nat) :
    (mergeLocals h a b)[i]? =
      if i < max a.length b.length then some ((a[i]?.getD .top).merge h (b[i]?.getD .top)) else none := by
  induction a generalizing b i with
  | nil =>
    induction b generalizing i with
    | nil => simp [mergeLocals]
    | cons y b ih => ?_
    cases i with
    | zero => simp [mergeLocals]
    | succ i =>
      rw [mergeLocals,List.getElem?_cons_succ,ih]
      simp
  | cons x a ih => ?_
  cases b with
  | nil => ?_
  | cons y b =>
    cases i with
    | zero => simp [mergeLocals]
    | succ i =>
      rw [mergeLocals,List.getElem?_cons_succ,ih]
      simp only [List.length_cons,List.getElem?_cons_succ,Nat.add_max_add_right,Nat.add_lt_add_iff_right]
  cases i with
  | zero => simp [mergeLocals]
  | succ i =>
    rw [mergeLocals,List.getElem?_cons_succ,ih]
    simp

theorem Paired.mergeLocals {a b : List VType} (ha : Paired a) (hb : Paired b) :
    Paired (mergeLocals h a b) := by
  intro i t hi hcat
  rw [mergeLocals_getElem?] at hi ⊢
  split at hi
  · cases hi
    obtain ⟨heq,hxx⟩ := merge_category2 hr hcat
    rw [hxx] at hcat
    have hslot : ∀ {l : List VType}, Paired l → (l[i]?.getD .top).isCategory2 = true →
        l[i+1]? = some .top := by
      intro l hl hlcat
      cases hli : l[i]? with
      | none =>
        rw [hli] at hlcat
        cases hlcat
      | some u =>
        rw [hli] at hlcat
        exact hl i u hli hlcat
    have hnext := hslot ha hcat
    have hlt := (List.getElem?_eq_some_iff.mp hnext).1
    rw [if_pos (by omega),hnext,hslot hb (heq ▸ hcat)]
    rfl
  · cases hi

theorem VerificationFrame.Paired.merge {f g merged : VerificationFrame} (hf : f.Paired) (hg : g.Paired)
    (hm : f.merge h g = .ok merged) : merged.Paired := by
  unfold VerificationFrame.merge at hm
  split at hm
  · cases hm
  cases hm
  refine ⟨hf.locals.mergeLocals hr hg.locals,?_⟩
  rw [paired_reverse]
  exact Covered.zipWith_merge hr ((paired_reverse).mp hf.stack) ((paired_reverse).mp hg.stack)
    fun h => by cases h

end

def Below (above : VType) (frame : VerificationFrame) : Prop :=
  Paired frame.locals ∧ Covered above frame.stack

variable {frame : VerificationFrame}

theorem below_int : Below .int frame ↔ frame.Paired := by
  constructor
  · intro h
    exact ⟨h.1,(paired_reverse).mpr h.2⟩
  intro h
  exact ⟨h.locals,(paired_reverse).mp h.stack⟩

/-- The operation keeps pairs. -/
abbrev Keeps {α : Type} (m : FrameM α) : Prop := Triple (Below .int) m fun _ => Below .int

section
variable {α β : Type} {P : VerificationFrame → Prop} {Q : α → VerificationFrame → Prop} {t : VType}
variable {r : Refusal}

theorem refuse_triple : Triple P (refuse r : FrameM α) Q := by
  intro f a g _ hrun
  cases hrun

theorem require_triple {ok : Bool} :
    Triple P (require ok r) fun _ f => ok = true ∧ P f := by
  unfold require
  split
  · rename_i hok
    exact Triple.pure fun f hf => ⟨hok,hf⟩
  · exact refuse_triple

theorem orRefuse_triple {found : Option α} :
    Triple P (orRefuse found) fun a f => found = some a ∧ P f := by
  unfold orRefuse
  split
  · exact Triple.pure fun f hf => ⟨rfl,hf⟩
  · exact refuse_triple

theorem Triple.require {ok : Bool} {rest : Unit → FrameM α}
    (h : ok = true → Triple P (rest ()) Q) : Triple P (require ok r >>= rest) Q := by
  refine (require_triple).bind fun _ f a g hf hrun => ?_
  exact h hf.1 f a g hf.2 hrun

theorem Triple.orRefuse {found : Option α} {rest : α → FrameM β} {R : β → VerificationFrame → Prop}
    (h : ∀ a, found = some a → Triple P (rest a) R) : Triple P (orRefuse found >>= rest) R := by
  refine (orRefuse_triple).bind fun a f b g hf hrun => ?_
  exact h a hf.1 f b g hf.2 hrun

theorem pop_triple {above : VType} : Triple (Below above) pop fun t f =>
    (t.isCategory2 = true → above = .top) ∧ Below t f := by
  intro f t g hf hrun
  unfold pop at hrun
  cases hstack : f.stack with
  | nil =>
    rw [hstack] at hrun
    cases hrun
  | cons u rest => ?_
  rw [hstack] at hrun
  cases hrun
  have hcovered := hf.2
  rw [hstack] at hcovered
  exact ⟨hcovered.1,hf.1,hcovered.2⟩

theorem push_triple (ht : t.isCategory2 = false) : Keeps (push t) := by
  intro f a g hf hrun
  unfold push at hrun
  split at hrun
  · cases hrun
  cases hrun
  refine ⟨hf.1,fun hcat => ?_,hf.2.any t⟩
  rw [ht] at hcat
  cases hcat

theorem pushTyped_keeps (t : VType) : Keeps (pushTyped t) := by
  intro f a g hf hrun
  unfold pushTyped at hrun
  cases hcat : t.isCategory2 with
  | false =>
    refine Triple.bind (R := fun _ => Below .int) (push_triple hcat) (fun _ => ?_) f a g hf hrun
    rw [hcat]
    exact Triple.pure fun _ h => h
  | true => ?_
  rw [hcat] at hrun
  obtain ⟨_,mid,hfirst,hsecond⟩ := state_bind_eq_ok.mp hrun
  unfold push at hfirst
  split at hfirst
  · cases hfirst
  cases hfirst
  rw [if_pos rfl] at hsecond
  unfold push at hsecond
  split at hsecond
  · cases hsecond
  cases hsecond
  exact ⟨hf.1,fun h => absurd h (by decide),fun _ => rfl,hf.2.any t⟩

theorem popExpect_keeps {h : ClassHierarchy} (ht : t ≠ .top) : Keeps (popExpect h t) := by
  refine (pop_triple).bind fun actual f a g hf hrun => ?_
  split at hrun
  · rename_i hassign
    cases state_pure_eq_ok.mp hrun
    refine ⟨hf.2.1,hf.2.2.of_ne_top ?_⟩
    rintro rfl
    unfold VType.isAssignableTo at hassign
    split at hassign
    · rename_i heq
      exact ht heq.symm
    · cases t <;> first | exact ht rfl | cases hassign
  · cases hrun

theorem popExpectCat2_keeps {h : ClassHierarchy} (ht : t.isCategory2 = true) :
    Keeps (popExpectCat2 h t) := by
  intro f a g hf hrun
  have hne : t ≠ .top := by
    rintro rfl
    cases ht
  unfold popExpectCat2 at hrun
  split at hrun
  · rename_i upper lower rest hstack
    split at hrun
    · rename_i hpair
      obtain ⟨popped,mid,hpop,hrest⟩ := state_bind_eq_ok.mp hrun
      unfold pop at hpop
      rw [hstack] at hpop
      cases hpop
      obtain ⟨actual,last,hexpect,hend⟩ := state_bind_eq_ok.mp hrest
      cases state_pure_eq_ok.mp hend
      obtain ⟨base,below,hbase,hcheck⟩ := state_bind_eq_ok.mp hexpect
      cases hbase
      have hcovered := hf.2
      rw [hstack,hpair.2] at hcovered
      split at hcheck
      · cases state_pure_eq_ok.mp hcheck
        exact ⟨hf.1,hcovered.2.2.of_ne_top hne⟩
      · cases hcheck
    · cases hrun
  · cases hrun
  · cases hrun

theorem popTyped_keeps {h : ClassHierarchy} (ht : t ≠ .top) : Keeps (popTyped h t) := by
  unfold popTyped
  split
  · rename_i hcat
    exact popExpectCat2_keeps hcat
  · exact (popExpect_keeps ht).bind fun _ => Triple.pure fun _ h => h

theorem popAllTyped_keeps {h : ClassHierarchy} {ts : List VType} (hts : ∀ t ∈ ts, t ≠ .top) :
    Keeps (popAllTyped h ts) := by
  induction ts with
  | nil => exact Triple.pure fun _ h => h
  | cons t ts ih =>
    refine (popTyped_keeps (hts t mem_cons_self)).bind fun _ => ?_
    exact ih fun u hu => hts u (mem_cons_of_mem _ hu)

theorem popIf_keeps {ok : VType → Bool} (htop : ok .top = false) :
    Triple (Below .int) (do let t ← pop; if ok t then pure t else refuse r)
      fun t f => ok t = true ∧ Below .int f := by
  refine (pop_triple).bind fun t f a g hf hrun => ?_
  split at hrun
  · rename_i hok
    cases state_pure_eq_ok.mp hrun
    refine ⟨hok,hf.2.1,hf.2.2.of_ne_top ?_⟩
    rintro rfl
    rw [htop] at hok
    cases hok
  · cases hrun

theorem popReference_keeps : Keeps popReference :=
  (popIf_keeps rfl).mono (fun _ h => h) fun _ _ h => h.2

variable {kind : ArrayKind} {rules : Bool}

theorem popArrayOf_triple :
    Triple (Below .int) (popArrayOf rules kind) fun t f => kind.accepts rules t = true ∧ Below .int f := by
  refine (popReference_keeps).bind fun t f a g hf hrun => ?_
  split at hrun
  · rename_i hok
    cases state_pure_eq_ok.mp hrun
    exact ⟨hok,hf⟩
  · cases hrun

variable {index : Nat}

theorem localLoad_triple : Triple P (localLoad index) fun t f => P f ∧ f.typeAt index = t := by
  intro f t g hf hrun
  unfold localLoad at hrun
  split at hrun
  · cases hrun
  cases hrun
  exact ⟨hf,rfl⟩

theorem localLoad_keeps : Keeps (localLoad index) :=
  (localLoad_triple).mono (fun _ h => h) fun _ _ h => h.1

theorem localLoadWide_keeps : Keeps (localLoadWide index t) := by
  refine Triple.require fun _ => (localLoad_keeps).bind fun _ => Triple.require fun _ => ?_
  exact (localLoad_keeps).bind fun _ => (require_triple).mono (fun _ h => h) fun _ _ h => h.2

theorem localStore_keeps (ht : t.isCategory2 = false) : Keeps (localStore index t) := by
  intro f a g hf hrun
  unfold localStore at hrun
  split at hrun
  · cases hrun
  cases hrun
  obtain ⟨hpaired,hbelow⟩ := hf.1.invalidate index
  refine ⟨hpaired.set ht fun u hpos hu hcat => ?_,hf.2⟩
  rw [hbelow u hpos hu] at hcat
  cases hcat

theorem localStoreWide_keeps : Keeps (localStoreWide index t) := by
  intro f a g hf hrun
  unfold localStoreWide at hrun
  split at hrun
  · cases hrun
  rename_i hbound
  cases hrun
  obtain ⟨hpaired,hbelow⟩ := hf.1.invalidate index
  refine ⟨hpaired.set_pair ?_ hbelow,hf.2⟩
  have hlength : (invalidateCat2BaseBelow f.locals index).length = f.locals.length := by
    unfold invalidateCat2BaseBelow
    split
    · exact length_set
    · rfl
  simp only [localLimit] at hbound
  omega

theorem replaceVtype_keeps {old new : VType} (hnew : new.isCategory2 = false) :
    Keeps (replaceVtype old new) := by
  intro f a g hf hrun
  unfold replaceVtype at hrun
  split at hrun
  · rename_i hold
    cases hrun
    have hone : ∀ t : VType, (if t = old then new else t).isCategory2 = true →
        t.isCategory2 = true ∧ t ≠ old := by
      intro t ht
      split at ht
      · rw [hnew] at ht
        cases ht
      · exact ⟨ht,‹_›⟩
    have htop : (if VType.top = old then new else VType.top) = .top := by
      rw [if_neg]
      rintro rfl
      cases hold
    constructor
    · intro i t hi hcat
      rw [getElem?_map] at hi ⊢
      obtain ⟨u,hu,rfl⟩ := map_eq_some_iff.mp hi
      rw [hf.1 i u hu (hone u hcat).1]
      exact congrArg some htop
    have hmap : ∀ {above above' : VType} {stack : List VType}, Covered above stack →
        (above = .top → above' = .top) → Covered above' (stack.map fun t => if t = old then new else t) := by
      intro above above' stack hstack habove
      induction stack generalizing above above' with
      | nil => trivial
      | cons t rest ih =>
        refine ⟨fun hcat => habove (hstack.1 (hone t hcat).1),ih hstack.2 fun ht => ?_⟩
        rw [ht]
        exact htop
    exact hmap hf.2 fun h => by cases h
  · cases hrun
    exact hf

theorem Paired.append {a b : List VType} (ha : Paired a) (hb : Paired b) : Paired (a ++ b) := by
  obtain ⟨as,rfl⟩ := (paired_iff_expand).mp ha
  obtain ⟨bs,rfl⟩ := (paired_iff_expand).mp hb
  exact (paired_iff_expand).mpr ⟨as ++ bs,flatMap_append.symm⟩

theorem paired_single (ht : t.isCategory2 = false) : Paired [t] :=
  (paired_iff_expand).mpr ⟨[t],by rw [flatMap_singleton,slotsOf_category1 ht]⟩

theorem pushAll_stack {slots : List VType} {f g : VerificationFrame} {a : Unit}
    (hrun : pushAll slots f = .ok (a,g)) : g.locals = f.locals ∧ g.stack = slots.reverse ++ f.stack := by
  induction slots generalizing f with
  | nil =>
    cases state_pure_eq_ok.mp hrun
    exact ⟨rfl,rfl⟩
  | cons t slots ih => ?_
  obtain ⟨_,mid,hpush,hrest⟩ := state_bind_eq_ok.mp hrun
  obtain ⟨hlocals,hstack⟩ := ih hrest
  unfold push at hpush
  split at hpush
  · cases hpush
  cases hpush
  exact ⟨hlocals,by simp [hstack]⟩

theorem pushAll_keeps {slots : List VType} (hslots : Paired slots) : Keeps (pushAll slots) := by
  intro f a g hf hrun
  obtain ⟨hlocals,hstack⟩ := pushAll_stack hrun
  refine ⟨hlocals ▸ hf.1,(paired_reverse).mp ?_⟩
  rw [hstack,reverse_append,reverse_reverse,paired_reverse_append]
  exact ⟨hf.2.any _,hslots⟩

theorem okThrough_triple : Triple P okThrough fun _ => P := Triple.pure fun _ h => h

theorem Keeps.through {m : FrameM Unit} (h : Keeps m) : Keeps (do m; okThrough) :=
  h.bind fun _ => okThrough_triple

theorem isCat2UpperHalf_triple : Triple P (isCat2UpperHalf t) fun upper f =>
    P f ∧ upper = (decide (t = .top) && (f.stack.head?.getD .top).isCategory2) := by
  intro f upper g hf hrun
  cases hrun
  exact ⟨hf,rfl⟩

theorem popSingle_triple : Triple (Below .int) popSingle fun t f => Paired [t] ∧ Below .int f := by
  refine (pop_triple).bind fun t => (isCat2UpperHalf_triple).bind fun upper => Triple.require fun hupper => ?_
  refine Triple.pure fun f ⟨⟨hcat,hbelow⟩,hdef⟩ => ?_
  have hone : t.isCategory2 = false := eq_false_iff.mpr fun ht => absurd (hcat ht) (by simp)
  refine ⟨paired_single hone,hbelow.1,?_⟩
  by_cases htop : t = .top
  · subst htop
    rw [hdef] at hupper
    simp only [decide_true,Bool.true_and,not_eq_true'] at hupper
    exact hbelow.2.whole hupper
  · exact hbelow.2.of_ne_top htop

theorem popPair_triple : Triple (Below .int) popPair fun slots f => Paired slots ∧ Below .int f := by
  have htwo : Triple (Below .int) (popNSlots 2) fun slots f => ∃ lower upper : VType,
      slots = [lower,upper] ∧ (lower.isCategory2 = true → upper = .top) ∧ Below lower f := by
    refine (pop_triple).bind fun upper => Triple.bind (Q := fun slots f => ∃ lower : VType,
      slots = [lower] ∧ (lower.isCategory2 = true → upper = .top) ∧ Below lower f) ?_ fun slots => ?_
    · refine Triple.bind (Q := fun lower f => (lower.isCategory2 = true → upper = .top) ∧ Below lower f)
        ((pop_triple).mono (fun f hf => hf.2) fun _ _ h => h) fun lower => ?_
      refine Triple.bind (Q := fun slots f => slots = [] ∧
        (lower.isCategory2 = true → upper = .top) ∧ Below lower f) (Triple.pure fun f hf => ⟨rfl,hf⟩)
        fun below => ?_
      refine Triple.pure fun f ⟨hnil,hf⟩ => ⟨lower,?_,hf⟩
      rw [hnil]
      rfl
    refine Triple.pure fun f ⟨lower,hslots,hf⟩ => ⟨lower,upper,?_,hf⟩
    rw [hslots]
    rfl
  refine htwo.bind fun slots => Triple.require fun hno => Triple.pure fun f hf => ?_
  obtain ⟨lower,upper,rfl,hcat,hbelow⟩ := hf
  simp only [head?_cons,getLast?_cons_cons,getLast?_singleton,getD_some,
    and_eq_true,decide_eq_true_eq,not_eq_true',ne_eq,some.injEq] at hno
  refine ⟨(paired_cons).mpr ⟨fun h => ?_,paired_single hno.2⟩,hbelow.1,hbelow.2.of_ne_top hno.1⟩
  rw [hcat h]
  rfl

theorem popTwo_triple {rest : VType → VType → FrameM InsnVerifyResult}
    (h : ∀ val1 val2, Paired [val1] → Paired [val2] → Keeps (rest val1 val2)) :
    Keeps (do
      let val1 ← pop
      let val2 ← pop
      let upper ← isCat2UpperHalf val2
      FrameM.require (!(upper || val1 = .top || val2 = .top)) .splitCategory2
      rest val1 val2) := by
  refine (pop_triple).bind fun val1 => Triple.bind (Q := fun val2 f =>
    (val1.isCategory2 = true → VType.int = .top) ∧ (val2.isCategory2 = true → val1 = .top) ∧ Below val2 f)
    ?_ fun val2 => (isCat2UpperHalf_triple).bind fun upper => Triple.require fun hno => ?_
  · intro f val2 g hf hrun
    exact ⟨hf.1,pop_triple f val2 g hf.2 hrun⟩
  simp only [not_eq_true',or_eq_false_iff,decide_eq_false_iff_not] at hno
  obtain ⟨⟨-,htop1⟩,htop2⟩ := hno
  intro f a g ⟨⟨hcat1,hcat2,hbelow⟩,_⟩ hrun
  have hone1 : val1.isCategory2 = false := eq_false_iff.mpr fun h => absurd (hcat1 h) (by simp)
  have hone2 : val2.isCategory2 = false := eq_false_iff.mpr fun h => htop1 (hcat2 h)
  exact h val1 val2 (paired_single hone1) (paired_single hone2) f a g
    ⟨hbelow.1,hbelow.2.of_ne_top htop2⟩ hrun

theorem rearrange_keeps {m : FrameM α} {rest : α → FrameM InsnVerifyResult} {S : α → Prop}
    (hm : Triple (Below .int) m fun a f => S a ∧ Below .int f) (h : ∀ a, S a → Keeps (rest a)) :
    Keeps (m >>= rest) :=
  hm.bind fun a f b g hf hrun => h a hf.1 f b g hf.2 hrun

theorem stackDup_keeps : Keeps stackDup :=
  rearrange_keeps popSingle_triple fun _ ht => (pushAll_keeps (ht.append ht)).through

theorem stackDupX1_keeps : Keeps stackDupX1 :=
  popTwo_triple fun _ _ h1 h2 => (pushAll_keeps (h1.append (h2.append h1))).through

theorem stackDupX2_keeps : Keeps stackDupX2 :=
  rearrange_keeps popSingle_triple fun _ h1 => Triple.require fun _ =>
    rearrange_keeps popPair_triple fun _ hlower => (pushAll_keeps ((h1.append hlower).append h1)).through

theorem stackDup2_keeps : Keeps stackDup2 :=
  rearrange_keeps popPair_triple fun _ h => (pushAll_keeps (h.append h)).through

theorem stackDup2X1_keeps : Keeps stackDup2X1 :=
  rearrange_keeps popPair_triple fun _ hupper => rearrange_keeps popSingle_triple fun _ h3 =>
    Triple.require fun _ => (pushAll_keeps ((hupper.append h3).append hupper)).through

theorem stackDup2X2_keeps : Keeps stackDup2X2 :=
  rearrange_keeps popPair_triple fun _ hupper => rearrange_keeps popPair_triple fun _ hlower =>
    (pushAll_keeps ((hupper.append hlower).append hupper)).through

theorem stackSwap_keeps : Keeps stackSwap :=
  popTwo_triple fun _ _ h1 h2 => (pushAll_keeps (h1.append h2)).through

theorem ofFieldType_ne_top (t : Reader.FieldType) : VType.ofFieldType t ≠ .top := by
  cases t <;> simp [VType.ofFieldType]

theorem fieldTypeOf_ne_top {cp : ConstantPool} (h : fieldTypeOf cp index = some t) :
    t ≠ .top := by
  unfold fieldTypeOf at h
  split at h
  · simp only [bind_eq_bind,bind_some] at h
    obtain ⟨_,-,h⟩ := bind_eq_some_iff.mp h
    obtain ⟨⟨name,descriptor⟩,-,h⟩ := bind_eq_some_iff.mp h
    split at h
    · rename_i hvalid
      cases h
      obtain ⟨fieldType,-,rfl⟩ := isValidFieldDescriptor_iff.mp hvalid.2
      rw [fromFieldDescriptor_text]
      exact ofFieldType_ne_top fieldType
    · cases h
  · cases h

theorem methodInfo_params {cp : ConstantPool} {accept : RefAccept} {info : MethodRefInfo}
    (h : methodInfo cp index accept = some info) : ∀ t ∈ info.params.reverse, t ≠ .top := by
  have hvalid : ∃ descriptor, isValidMethodDescriptor descriptor = true ∧
      info.params = paramTypesFromDescriptor descriptor := by
    unfold methodInfo at h
    dsimp only at h
    split at h
    case h_4 => cases h
    all_goals
      simp only [bind_eq_bind,bind_some] at h
      obtain ⟨⟨name,descriptor⟩,-,h⟩ := bind_eq_some_iff.mp h
      dsimp only at h
      split at h
      · rename_i hvalid
        cases h
        exact ⟨descriptor,hvalid.2.2,rfl⟩
      · cases h
  obtain ⟨descriptor,hvalid,hparams⟩ := hvalid
  obtain ⟨m,hm,rfl⟩ := isValidMethodDescriptor_iff.mp hvalid
  intro t ht
  rw [mem_reverse,hparams,paramTypesFromDescriptor_text hm] at ht
  obtain ⟨fieldType,-,rfl⟩ := mem_map.mp ht
  exact ofFieldType_ne_top fieldType

theorem elementType_category1 (h : ArrayKind.references.accepts rules t = true) :
    (elementType t).isCategory2 = false := by
  cases t with
  | arrayRef element => ?_
  | _ => rfl
  simp only [ArrayKind.accepts,or_eq_true,decide_eq_true_eq] at h
  cases element with
  | nil => simp at h
  | cons c rest => ?_
  simp only [head?_cons,some.injEq] at h
  rcases h with rfl | rfl
  · simp only [elementType,VType.fromFieldDescriptor]
    split <;> rfl
  · rfl

variable {h : ClassHierarchy} {ctx : InsnContext}

theorem operate_keeps {pops pushes : List VType} (hpops : ∀ t ∈ pops, t ≠ .top) :
    Keeps (operate h pops pushes) :=
  (popAllTyped_keeps hpops).bind fun _ => Keeps.through (Triple.forM fun t _ => pushTyped_keeps t)

theorem pushReturned_keeps {ret : Option VType} : Keeps (pushReturned ret) :=
  Keeps.through (Triple.forM fun t _ => pushTyped_keeps t)

theorem pushConstant_keeps {found : Option VType} : Keeps (pushConstant found) :=
  Triple.orRefuse fun t _ => (pushTyped_keeps t).through

theorem loadLocal_keeps (ht : t.isCategory2 = false) : Keeps (loadLocal h index t) :=
  (localLoad_keeps).bind fun _ => Triple.require fun _ => (push_triple ht).through

theorem loadWide_keeps (ht : t.isCategory2 = true) : Keeps (loadWide index t) := by
  have hpush : Keeps (do push t; push .top; okThrough) := by
    have := (pushTyped_keeps t).through
    unfold pushTyped at this
    rw [ht,if_pos rfl] at this
    simpa using this
  exact (localLoadWide_keeps).bind fun _ => hpush

theorem loadReference_keeps : Keeps (loadReference index) := by
  refine (localLoad_keeps).bind fun found => Triple.require fun hok => (push_triple ?_).through
  cases found <;> first | rfl | cases hok

theorem storeReference_keeps : Keeps (storeReference index) := by
  refine (pop_triple).bind fun t => Triple.require fun hok => ?_
  have hone : t.isCategory2 = false ∧ t ≠ .top := by
    cases t <;> first | (cases hok; done) | exact ⟨rfl,nofun⟩
  intro f a g hf hrun
  exact (localStore_keeps hone.1).through f a g ⟨hf.2.1,hf.2.2.of_ne_top hone.2⟩ hrun

theorem popInt_keeps : Keeps (popExpect h .int) := popExpect_keeps (by simp)

theorem popArrayOf_keeps : Keeps (popArrayOf rules kind) :=
  (popArrayOf_triple).mono (fun _ h => h) fun _ _ h => h.2

theorem loadElement_keeps : Keeps (loadElement ctx kind t) :=
  (popInt_keeps).bind fun _ => (popArrayOf_keeps).bind fun _ => (pushTyped_keeps t).through

theorem loadReferenceElement_keeps : Keeps (loadReferenceElement ctx) :=
  (popInt_keeps).bind fun _ => rearrange_keeps popArrayOf_triple fun _ harray =>
    (push_triple (elementType_category1 harray)).through

theorem storeElement_keeps (ht : t ≠ .top) : Keeps (storeElement ctx kind t) :=
  (popTyped_keeps ht).bind fun _ => (popInt_keeps).bind fun _ => (popArrayOf_keeps).bind fun _ => okThrough_triple

theorem storeReferenceElement_keeps : Keeps (storeReferenceElement ctx) :=
  (popReference_keeps).bind fun _ => Triple.require fun _ => (popInt_keeps).bind fun _ =>
    (popArrayOf_keeps).bind fun _ => okThrough_triple

theorem returnValue_keeps (ht : t ≠ .top) : Keeps (returnValue ctx t) :=
  (popTyped_keeps ht).bind fun _ => Triple.require fun _ => Triple.pure fun _ h => h

variable {pc : Nat} {offset : Int}

theorem branchOn_keeps {pops : List VType} (hpops : ∀ t ∈ pops, t ≠ .top) :
    Keeps (branchOn h pops pc offset) :=
  (popAllTyped_keeps hpops).bind fun _ => Triple.pure fun _ h => h

theorem branchOnReferences_keeps {n : Nat} : Keeps (branchOnReferences n pc offset) := by
  refine Triple.bind (Triple.forM fun _ _ => ?_) fun _ => Triple.pure fun _ h => h
  exact (popReference_keeps).bind fun _ => Triple.pure fun _ h => h

theorem accessField_keeps {put : Bool} : Keeps (accessField ctx index put) := by
  refine Triple.orRefuse fun fieldType hfield => (popAllTyped_keeps ?_).bind fun _ =>
    (popReference_keeps).bind fun _ => Triple.require fun _ => Triple.require fun _ => pushReturned_keeps
  cases put with
  | false => simp
  | true => simpa using fieldTypeOf_ne_top hfield

theorem invokevirtual_keeps : Keeps (invokevirtual ctx index) :=
  Triple.orRefuse fun _ hinfo => Triple.require fun _ =>
    (popAllTyped_keeps (methodInfo_params hinfo)).bind fun _ => (popReference_keeps).bind fun _ =>
      Triple.require fun _ => Triple.require fun _ => Triple.require fun _ => pushReturned_keeps

theorem initReceiver_keeps {info : MethodRefInfo} {receiver : VType} :
    Keeps (initReceiver ctx index info receiver) := by
  unfold initReceiver
  split
  · exact Triple.pure fun _ h => h
  split
  · exact Triple.require fun _ => replaceVtype_keeps rfl
  · split
    · exact Triple.require fun _ => replaceVtype_keeps rfl
    · exact refuse_triple
  · exact refuse_triple

theorem invokespecial_keeps : Keeps (invokespecial ctx index) :=
  Triple.orRefuse fun _ hinfo => Triple.require fun _ => Triple.require fun _ =>
    (popAllTyped_keeps (methodInfo_params hinfo)).bind fun _ => (popReference_keeps).bind fun _ =>
      Triple.require fun _ => (initReceiver_keeps).bind fun _ => pushReturned_keeps

theorem invokestatic_keeps {accept : RefAccept} : Keeps (invokestatic ctx index accept) :=
  Triple.orRefuse fun _ hinfo => Triple.require fun _ =>
    (popAllTyped_keeps (methodInfo_params hinfo)).bind fun _ => pushReturned_keeps

theorem invokeinterface_keeps {count : Nat} : Keeps (invokeinterface ctx index count) :=
  Triple.orRefuse fun _ hinfo => Triple.require fun _ => Triple.require fun _ =>
    (popAllTyped_keeps (methodInfo_params hinfo)).bind fun _ => (popReference_keeps).bind fun _ =>
      pushReturned_keeps

theorem verifyNew_keeps : Keeps (verifyNew ctx index pc) :=
  Triple.orRefuse fun _ _ => Triple.require fun _ => (push_triple rfl).through

theorem anewarray_keeps : Keeps (anewarray ctx index) :=
  (popInt_keeps).bind fun _ => Triple.orRefuse fun _ _ => (push_triple rfl).through

theorem ofClassName_category1 (name : List Char) : (VType.ofClassName name).isCategory2 = false := by
  unfold VType.ofClassName
  split <;> rfl

theorem multianewarray_keeps {dimensions : Nat} : Keeps (multianewarray ctx index dimensions) :=
  Triple.orRefuse fun _ _ => Triple.require fun _ =>
    (popAllTyped_keeps fun t ht => by rw [eq_of_mem_replicate ht]; simp).bind fun _ =>
      (push_triple (ofClassName_category1 _)).through

theorem checkcast_keeps : Keeps (checkcast ctx index) :=
  (popReference_keeps).bind fun _ => Triple.orRefuse fun _ _ => (push_triple (ofClassName_category1 _)).through

theorem verifyAthrow_keeps : Keeps (verifyAthrow ctx) :=
  (popReference_keeps).bind fun _ => Triple.require fun _ => Triple.pure fun _ h => h

theorem verifyRet_keeps : Keeps (verifyRet index) :=
  (localLoad_keeps).bind fun _ => Triple.orRefuse fun _ _ => Triple.pure fun _ h => h

theorem verifyJsr_keeps {size : Nat} : Keeps (verifyJsr pc size offset) :=
  (push_triple rfl).bind fun _ => Triple.pure fun _ h => h

theorem verifyInstruction_keeps (insn : Instruction) (pc : Nat) : Keeps (verifyInstruction ctx insn pc) := by
  unfold verifyInstruction
  dsimp only
  split
  all_goals first
    | (with_reducible refine operate_keeps ?_); simp
    | (with_reducible refine loadLocal_keeps ?_); rfl
    | (with_reducible refine loadWide_keeps ?_); rfl
    | (with_reducible refine storeElement_keeps ?_); simp
    | (with_reducible refine branchOn_keeps ?_); simp
    | (with_reducible refine returnValue_keeps ?_); simp
    | with_reducible exact pushConstant_keeps
    | with_reducible exact loadReference_keeps
    | with_reducible exact loadElement_keeps
    | with_reducible exact branchOnReferences_keeps
    | with_reducible exact verifyJsr_keeps
    | with_reducible exact Triple.pure fun _ h => h
    | skip
  · exact okThrough_triple
  · exact loadReferenceElement_keeps
  · exact (popInt_keeps).bind fun _ => (localStore_keeps rfl).through
  · exact (popExpectCat2_keeps rfl).bind fun _ => (localStoreWide_keeps).through
  · exact (popExpect_keeps (by simp)).bind fun _ => (localStore_keeps rfl).through
  · exact (popExpectCat2_keeps rfl).bind fun _ => (localStoreWide_keeps).through
  · exact storeReference_keeps
  · exact storeReferenceElement_keeps
  · exact rearrange_keeps popSingle_triple fun _ _ => okThrough_triple
  · exact rearrange_keeps popPair_triple fun _ _ => okThrough_triple
  · exact stackDup_keeps
  · exact stackDupX1_keeps
  · exact stackDupX2_keeps
  · exact stackDup2_keeps
  · exact stackDup2X1_keeps
  · exact stackDup2X2_keeps
  · exact stackSwap_keeps
  · exact (localLoad_keeps).bind fun _ => Triple.require fun _ => okThrough_triple
  · exact (popInt_keeps).bind fun _ => Triple.pure fun _ h => h
  · exact (popInt_keeps).bind fun _ => Triple.require fun _ => Triple.pure fun _ h => h
  · exact (popReference_keeps).bind fun _ => Triple.require fun _ => Triple.pure fun _ h => h
  · refine Triple.bind (Q := fun _ => Below .int) ?_ fun _ => Triple.require fun _ => Triple.pure fun _ h => h
    intro f a g hf hrun
    cases hrun
    exact hf
  · exact Triple.orRefuse fun _ hfield => (popTyped_keeps (fieldTypeOf_ne_top hfield)).through
  · exact accessField_keeps
  · exact accessField_keeps
  · exact invokevirtual_keeps
  · exact invokespecial_keeps
  · exact invokestatic_keeps
  · exact invokeinterface_keeps
  · exact invokestatic_keeps
  · exact verifyNew_keeps
  · exact Triple.orRefuse fun _ _ => (popInt_keeps).bind fun _ => (push_triple rfl).through
  · exact anewarray_keeps
  · exact multianewarray_keeps
  · exact (popArrayOf_keeps).bind fun _ => (push_triple rfl).through
  · exact verifyAthrow_keeps
  · exact checkcast_keeps
  · exact (popReference_keeps).bind fun _ => Triple.orRefuse fun _ _ => (push_triple rfl).through
  · exact (popReference_keeps).bind fun _ => okThrough_triple
  · exact (popReference_keeps).bind fun _ => okThrough_triple
  · exact verifyRet_keeps
  · exact refuse_triple

end

theorem VerificationFrame.Paired.padded (hf : frame.Paired) (maxLocals : Nat) :
    Verifier.Paired (VerificationFrame.padded frame.locals maxLocals) := hf.locals.append_top _

theorem VerificationFrame.Paired.applyStackMapFrame {cp : ConstantPool} {next : VerificationFrame}
    (hf : frame.Paired) {entry : StackMapFrame} (h : frame.applyStackMapFrame cp entry = .ok next) :
    next.Paired := by
  obtain ⟨values,hvalues⟩ := (paired_iff_expand).mp hf.locals
  rw [applyStackMapFrame_expand (f := ⟨values,[]⟩) hvalues] at h
  cases hlogical : LogicalFrame.apply cp ⟨values,[]⟩ entry with
  | error e =>
    rw [hlogical] at h
    cases h
  | ok logical =>
    rw [hlogical] at h
    cases h
    refine ⟨(paired_iff_expand).mpr ⟨logical.locals,rfl⟩,(paired_iff_expand).mpr ⟨logical.stack,?_⟩⟩
    exact reverse_reverse _

/-- A step of a walk over a method: an accepted operation on the frame. A narrow store stores a type of
one slot, and a typed pop asks for a type that a value has. -/
inductive FrameStep (ctx : InsnContext) : VerificationFrame → VerificationFrame → Prop
  | pushTyped {f g} (t : VType) (h : FrameM.pushTyped t f = .ok ((),g)) : FrameStep ctx f g
  | popTyped {f g} (t : VType) (ht : t ≠ .top) (h : FrameM.popTyped ctx.hierarchy t f = .ok ((),g)) :
      FrameStep ctx f g
  | localLoad {f g} (index : Nat) (t : VType) (h : FrameM.localLoad index f = .ok (t,g)) : FrameStep ctx f g
  | localLoadWide {f g} (index : Nat) (t : VType) (h : FrameM.localLoadWide index t f = .ok ((),g)) :
      FrameStep ctx f g
  | localStore {f g} (index : Nat) (t : VType) (ht : t.isCategory2 = false)
      (h : FrameM.localStore index t f = .ok ((),g)) : FrameStep ctx f g
  | localStoreWide {f g} (index : Nat) (t : VType) (h : FrameM.localStoreWide index t f = .ok ((),g)) :
      FrameStep ctx f g
  | clearStack (f) : FrameStep ctx f f.clearStack
  | pad (f) (maxLocals : Nat) :
      FrameStep ctx f { f with locals := VerificationFrame.padded f.locals maxLocals, maxLocals := maxLocals }
  | adoptDeclared (f) (maxLocals : Nat) : FrameStep ctx f (f.adoptDeclared maxLocals)
  | mergeLeft {f g} (other : VerificationFrame) (ho : other.Paired)
      (h : f.merge ctx.hierarchy other = .ok g) : FrameStep ctx f g
  | mergeRight {f g} (other : VerificationFrame) (ho : other.Paired)
      (h : other.merge ctx.hierarchy f = .ok g) : FrameStep ctx f g
  | stackMap {f g} (entry : StackMapFrame) (h : f.applyStackMapFrame ctx.cp entry = .ok g) : FrameStep ctx f g
  | instruction {f g} (insn : Instruction) (pc : Nat) (result : InsnVerifyResult)
      (h : verifyInstruction ctx insn pc f = .ok (result,g)) : FrameStep ctx f g

theorem Keeps.paired {α : Type} {m : FrameM α} (hm : Keeps m) {f g : VerificationFrame} {a : α}
    (hf : f.Paired) (h : m f = .ok (a,g)) : g.Paired :=
  (below_int).mp (hm f a g ((below_int).mpr hf) h)

theorem FrameStep.paired {ctx : InsnContext} (hr : ctx.hierarchy.MergesToReferences)
    {f g : VerificationFrame} (hstep : FrameStep ctx f g) (hf : f.Paired) : g.Paired := by
  cases hstep with
  | pushTyped t h => exact (pushTyped_keeps t).paired hf h
  | popTyped t ht h => exact (popTyped_keeps ht).paired hf h
  | localLoad index t h => exact (localLoad_keeps).paired hf h
  | localLoadWide index t h => exact (localLoadWide_keeps).paired hf h
  | localStore index t ht h => exact (localStore_keeps ht).paired hf h
  | localStoreWide index t h => exact (localStoreWide_keeps).paired hf h
  | clearStack => exact ⟨hf.locals,paired_nil⟩
  | pad maxLocals => exact ⟨hf.padded maxLocals,hf.stack⟩
  | adoptDeclared maxLocals => exact ⟨hf.padded maxLocals,hf.stack⟩
  | mergeLeft other ho h => exact hf.merge hr ho h
  | mergeRight other ho h => exact ho.merge hr hf h
  | stackMap entry h => exact hf.applyStackMapFrame h
  | instruction insn pc result h => exact (verifyInstruction_keeps insn pc).paired hf h

/-- A frame whose pairs are whole keeps them whole through every sequence of accepted operations, the
instructions among them. -/
theorem paired_of_steps {ctx : InsnContext} (hr : ctx.hierarchy.MergesToReferences)
    {f g : VerificationFrame} (hsteps : Relation.ReflTransGen (FrameStep ctx) f g) (hf : f.Paired) :
    g.Paired := by
  induction hsteps with
  | refl => exact hf
  | tail _ hstep ih => exact hstep.paired hr ih

/-- No constant pool, and a hierarchy whose merges are its superclasses. -/
def plainContext : InsnContext where
  cp := ⟨[]⟩
  className := ['c']
  methodName := ['m']
  methodDescriptor := "(J)V".toList
  hierarchy := ⟨fun _ _ => true,fun _ _ => false,fun a _ => a,fun _ => false,fun _ => true,fun _ _ => none,
    fun _ _ _ _ _ => false,fun _ _ => none⟩
  scratch := ⟨false,false,false,false,false,false,false,false⟩
  verifyControlRules := true
  newSites := fun _ => none
  isFallbackMerge := fun _ => false

/-- A `long` is loaded from its local and duplicated. -/
theorem paired_of_steps_lload_dup2 :
    plainContext.hierarchy.MergesToReferences ∧
      VerificationFrame.Paired ⟨[.long,.top],[],4,2⟩ ∧
      Relation.ReflTransGen (FrameStep plainContext) ⟨[.long,.top],[],4,2⟩
        ⟨[.long,.top],[.top,.long,.top,.long],4,2⟩ ∧
      VerificationFrame.Paired ⟨[.long,.top],[.top,.long,.top,.long],4,2⟩ := by
  have hr : plainContext.hierarchy.MergesToReferences := by
    intro a b m hm
    cases hm
  have hf : VerificationFrame.Paired ⟨[.long,.top],[],4,2⟩ :=
    ⟨(paired_iff_expand).mpr ⟨[.long],rfl⟩,paired_nil⟩
  have hload : FrameStep plainContext ⟨[.long,.top],[],4,2⟩ ⟨[.long,.top],[.top,.long],4,2⟩ :=
    .instruction (.lload 0) 0 ⟨true,[]⟩ rfl
  have hdup : FrameStep plainContext ⟨[.long,.top],[.top,.long],4,2⟩
      ⟨[.long,.top],[.top,.long,.top,.long],4,2⟩ := .instruction .dup2 1 ⟨true,[]⟩ rfl
  have hsteps := Relation.ReflTransGen.head hload (.single hdup)
  exact ⟨hr,hf,hsteps,paired_of_steps hr hsteps hf⟩

end CratonVM.Verifier
