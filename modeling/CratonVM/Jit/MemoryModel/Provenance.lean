import CratonVM.Jit.MemoryModel.Activation

/-!
What a known origin says of the objects a node takes in an activation. The walk leaves a set of φs
each of whose value inputs is in the set or is accounted for by the origin, so an induction on the
activation finds every object among the allocations of the origin or among those that were there.
-/
namespace CratonVM.Jit
open ObjectHeap List Prod
open Option hiding or_assoc

namespace RefOrigin
theorem mem_foldl_absorbAlloc {theirs mine : List Nat} {id : Nat} :
    id ∈ theirs.foldl absorbAlloc mine ↔ id ∈ mine ∨ id ∈ theirs := by
  induction theirs generalizing mine with
  | nil => simp
  | cons x theirs ih => ?_
  rw [foldl_cons,ih]
  unfold absorbAlloc
  split
  · rename_i hx
    have hmem : x ∈ mine := by simpa using hx
    constructor
    · rintro (h | h)
      · exact .inl h
      · exact .inr (by simp [h])
    rintro (h | h)
    · exact .inl h
    rcases mem_cons.mp h with rfl | h
    · exact .inl hmem
    · exact .inr h
  · simp [or_assoc]

def Includes (self other : RefOrigin) : Prop :=
  ∃ mine theirs, self.allocs = some mine ∧ other.allocs = some theirs ∧ (∀ id ∈ theirs, id ∈ mine) ∧
    (other.preExisting = true → self.preExisting = true)

theorem absorb_includes {self other : RefOrigin} {joined : List Nat}
    (h : (self.absorb other).allocs = some joined) :
    Includes (self.absorb other) self ∧ Includes (self.absorb other) other := by
  cases hm : self.allocs with
  | none => simp [absorb,hm] at h
  | some mine => ?_
  cases ht : other.allocs with
  | none => simp [absorb,hm,ht] at h
  | some theirs => ?_
  have hjoin : joined = theirs.foldl absorbAlloc mine := by
    simp only [absorb,hm,ht] at h
    split at h
    · cases h
    · exact (some.inj h).symm
  subst hjoin
  refine ⟨⟨_,mine,h,hm,fun id hid => mem_foldl_absorbAlloc.mpr (.inl hid),fun e => by simp [absorb,e]⟩,
    ⟨_,theirs,h,ht,fun id hid => mem_foldl_absorbAlloc.mpr (.inr hid),fun e => by simp [absorb,e]⟩⟩

end RefOrigin

open RefOrigin (Includes)

def Op.isAlloc : Op → Bool
  | .new _ _ | .newArray _ _ => true
  | _ => false

/-- An origin and a set of φs account for a node. -/
def Covers (g : Graph) (r : RefOrigin) (phis : List Nat) (id : Nat) : Prop :=
  ∃ node, g.nodeOpt id = some node ∧
    ((node.op.isAlloc = true ∧ ∃ allocs, r.allocs = some allocs ∧ id ∈ allocs) ∨
      ((∃ i, node.op = .param i) ∧ r.preExisting = true) ∨ (node.op = .phi ∧ id ∈ phis))

theorem Covers.mono {g : Graph} {r s : RefOrigin} {phis phis' : List Nat} {id : Nat}
    (hs : Includes s r) (hsub : ∀ p ∈ phis, p ∈ phis') (h : Covers g r phis id) :
    Covers g s phis' id := by
  obtain ⟨mine,theirs,hmine,htheirs,hall,hpre⟩ := hs
  obtain ⟨node,hn,⟨ha,allocs,hallocs,hid⟩ | ⟨hp,he⟩ | ⟨hp,hid⟩⟩ := h
  · obtain rfl := some.inj (hallocs.symm.trans htheirs)
    exact ⟨node,hn,.inl ⟨ha,mine,hmine,hall id hid⟩⟩
  · exact ⟨node,hn,.inr (.inl ⟨hp,hpre he⟩)⟩
  · exact ⟨node,hn,.inr (.inr ⟨hp,hsub id hid⟩)⟩

/-- Every value input of the φ is accounted for. -/
def Closed (g : Graph) (r : RefOrigin) (phis : List Nat) (p : Nat) : Prop :=
  ∀ node, g.nodeOpt p = some node → ∀ inp ∈ node.inputs,
    ∀ pred, g.nodeOpt inp = some pred → pred.op.isControl = false → Covers g r phis inp

theorem Closed.mono {g : Graph} {r s : RefOrigin} {phis phis' : List Nat} {p : Nat}
    (hs : Includes s r) (hsub : ∀ p ∈ phis, p ∈ phis') (h : Closed g r phis p) :
    Closed g s phis' p :=
  fun node hn inp hi pred hp hc => (h node hn inp hi pred hp hc).mono hs hsub

/-- What a visit with a known answer has established: the node is accounted for, and so is every φ
visited since. -/
structure Visited (g : Graph) (id : Nat) (before : List Nat) (res : RefOrigin × List Nat) : Prop where
  covers : Covers g res.1 res.2 id
  grows : ∀ p ∈ before, p ∈ res.2
  closed : ∀ p ∈ res.2, p ∉ before → Closed g res.1 res.2 p

/-- The same for the inputs of a φ that have been joined. -/
structure Joined (g : Graph) (inputs before : List Nat) (acc : RefOrigin × Bool × List Nat) : Prop where
  covers : ∀ inp ∈ inputs, ∀ pred, g.nodeOpt inp = some pred → pred.op.isControl = false →
    Covers g acc.1 acc.2.2 inp
  grows : ∀ p ∈ before, p ∈ acc.2.2
  closed : ∀ p ∈ acc.2.2, p ∉ before → Closed g acc.1 acc.2.2 p

section
variable {g : Graph} {visit : Nat → List Nat → RefOrigin × List Nat}
  (hvisit : ∀ id before allocs, (visit id before).1.allocs = some allocs →
    Visited g id before (visit id before))

include hvisit

theorem Joined.joinInput {inputs before : List Nat} {acc : RefOrigin × Bool × List Nat} {inp : Nat}
    {allocs : List Nat} (hacc : ∀ allocs, acc.1.allocs = some allocs → Joined g inputs before acc)
    (hknown : (g.joinInput visit acc inp).1.allocs = some allocs) :
    Joined g (inputs ++ [inp]) before (g.joinInput visit acc inp) := by
  unfold Graph.joinInput at hknown ⊢
  cases hn : g.nodeOpt inp with
  | none =>
    simp only [hn] at hknown ⊢
    have hj := hacc _ hknown
    refine ⟨fun i hi pred hp hc => ?_,hj.grows,hj.closed⟩
    rcases mem_append.mp hi with hi | hi
    · exact hj.covers i hi pred hp hc
    obtain rfl := mem_singleton.mp hi
    rw [hn] at hp
    cases hp
  | some pred => ?_
  cases hctl : pred.op.isControl with
  | true =>
    simp only [hn,hctl] at hknown ⊢
    have hj := hacc _ hknown
    refine ⟨fun i hi pred' hp hc => ?_,hj.grows,hj.closed⟩
    rcases mem_append.mp hi with hi | hi
    · exact hj.covers i hi pred' hp hc
    obtain rfl := mem_singleton.mp hi
    obtain rfl := some.inj (hn.symm.trans hp)
    rw [hctl] at hc
    cases hc
  | false => ?_
  simp only [hn,hctl] at hknown ⊢
  obtain ⟨hself,hother⟩ := RefOrigin.absorb_includes hknown
  obtain ⟨_,mine,_,hmine,_⟩ := id hself
  obtain ⟨_,theirs,_,htheirs,_⟩ := id hother
  have hj := hacc _ hmine
  have hv := hvisit inp acc.2.2 theirs htheirs
  refine ⟨fun i hi pred' hp hc => ?_,fun p hp => hv.grows p (hj.grows p hp),fun p hp hb => ?_⟩
  · rcases mem_append.mp hi with hi | hi
    · exact (hj.covers i hi pred' hp hc).mono hself hv.grows
    obtain rfl := mem_singleton.mp hi
    exact hv.covers.mono hother fun _ h => h
  by_cases hold : p ∈ acc.2.2
  · exact (hj.closed p hold hb).mono hself hv.grows
  · exact (hv.closed p hp hold).mono hother fun _ h => h

theorem Joined.foldl {rest inputs before : List Nat} {acc : RefOrigin × Bool × List Nat}
    {allocs : List Nat} (hacc : ∀ allocs, acc.1.allocs = some allocs → Joined g inputs before acc)
    (hknown : (rest.foldl (g.joinInput visit) acc).1.allocs = some allocs) :
    Joined g (inputs ++ rest) before (rest.foldl (g.joinInput visit) acc) := by
  induction rest generalizing inputs acc with
  | nil => simpa using hacc allocs hknown
  | cons inp rest ih =>
    have h : Joined g ((inputs ++ [inp]) ++ rest) before _ :=
      ih (fun _ hk => Joined.joinInput hvisit hacc hk) hknown
    simpa using h

end

theorem visited_refOriginAt (g : Graph) (room id : Nat) (before allocs : List Nat)
    (hknown : (g.refOriginAt room id before).1.allocs = some allocs) :
    Visited g id before (g.refOriginAt room id before) := by
  induction room generalizing id before allocs with
  | zero => simp [Graph.refOriginAt,RefOrigin.unknown] at hknown
  | succ room ih => ?_
  unfold Graph.refOriginAt at hknown ⊢
  cases hn : g.nodeOpt id with
  | none => simp [hn,RefOrigin.unknown] at hknown
  | some node => ?_
  simp only [hn] at hknown ⊢
  have leaf : ∀ {r : RefOrigin}, Covers g r before id → Visited g id before (r,before) :=
    fun hc => ⟨hc,fun _ h => h,fun p hp hb => absurd hp hb⟩
  split at hknown
  · rename_i hop
    exact leaf ⟨node,hn,.inl ⟨by simp [Op.isAlloc,hop],[id],rfl,by simp⟩⟩
  · rename_i hop
    exact leaf ⟨node,hn,.inl ⟨by simp [Op.isAlloc,hop],[id],rfl,by simp⟩⟩
  · rename_i i hop
    exact leaf ⟨node,hn,.inr (.inl ⟨⟨i,hop⟩,rfl⟩)⟩
  · rename_i hop
    split at hknown
    · rename_i hseen
      rw [if_pos hseen]
      exact leaf ⟨node,hn,.inr (.inr ⟨hop,by simpa using hseen⟩)⟩
    rename_i hseen
    rw [if_neg hseen]
    split at hknown
    · rename_i hsaw
      rw [if_pos hsaw]
      have hstart : ∀ allocs, RefOrigin.identity.allocs = some allocs →
          Joined g [] (id :: before) (RefOrigin.identity,false,id :: before) :=
        fun _ _ => ⟨by simp,fun _ h => h,fun p hp hb => absurd hp hb⟩
      have hj := Joined.foldl (fun i b a h => ih i b a h) hstart hknown
      have hid := hj.grows id (by simp)
      refine ⟨⟨node,hn,.inr (.inr ⟨hop,hid⟩)⟩,fun p hp => hj.grows p (by simp [hp]),?_⟩
      intro p hp hb
      by_cases hpid : p = id
      · subst hpid
        intro node' hn' inp hi pred hp' hc
        obtain rfl := some.inj (hn.symm.trans hn')
        exact hj.covers inp hi pred hp' hc
      · exact hj.closed p hp (by simp [hpid,hb])
    · simp [RefOrigin.unknown] at hknown
  · simp [RefOrigin.unknown] at hknown

def IsAllocNode (g : Graph) (id : Nat) : Prop := ∃ node, g.nodeOpt id = some node ∧ node.op.isAlloc = true

section
variable {g : MemGraph} {layout : Layout} {initial : JavaHeap} {past : List (Nat × JavaVal)}
  {env : Values} {h h' : JavaHeap} {n : Nat} {v : JavaVal}

theorem Step.extends (hs : Step g layout initial past env h n v h') : h.Extends h' := by
  cases hs with
  | access he =>
    obtain ⟨a,_,hr⟩ := he
    exact hr.extends
  | param => exact .refl h
  | phi => exact .refl h
  | const => exact .refl h
  | other _ _ _ he => exact he

theorem Activation.extends (hr : Activation g layout initial past env h) : initial.Extends h := by
  induction hr with
  | start => exact .refl initial
  | step _ hs ih => exact fun o hdr e => hs.extends o hdr (ih o hdr e)
  | outside _ he ih => exact fun o hdr e => he o hdr (ih o hdr e)

variable {m : Nat}

theorem Activation.knows (hr : Activation g layout initial past env h) {u : JavaVal}
    (hm : (m,u) ∈ past) : h.Knows u := by
  induction hr generalizing m with
  | start => cases hm
  | @step past env h h' n v hr hs ih => ?_
  | outside _ he ih => exact he.knows (ih hm)
  rcases mem_cons.mp hm with he | hm
  · obtain ⟨rfl,rfl⟩ := mk.inj he
    cases hs with
    | access he =>
      obtain ⟨a,_,hruns⟩ := he
      exact hruns.knows
    | param hn hop hv => exact hr.extends.knows hv
    | phi hn hop hi hp => exact ih hp
    | const hn hop =>
      intro o ho
      cases ho
    | other _ _ _ _ hv => exact hv
  · exact hs.extends.knows (ih hm)

theorem Activation.mem_past (hr : Activation g layout initial past env h) {u : JavaVal}
    (hm : env m = some u) : (m,u) ∈ past := by
  induction hr with
  | start => cases hm
  | @step past env h h' n v hr hs ih => ?_
  | outside _ _ ih => exact ih hm
  by_cases hmn : m = n
  · subst hmn
    rw [Function.update_self] at hm
    obtain rfl := some.inj hm
    exact .head _
  rw [Function.update_of_ne hmn] at hm
  exact .tail _ (ih hm)

theorem Step.fresh (hs : Step g layout initial past env h n v h') (ha : IsAllocNode g.toGraph n) :
    ∃ o, v = .ref o ∧ h.header o = none := by
  obtain ⟨node,hn,halloc⟩ := ha
  have contra : ∀ {node' : Node}, g.nodeOpt n = some node' → node'.op.isAlloc = true := by
    intro node' hn'
    obtain rfl := some.inj (hn.symm.trans hn')
    exact halloc
  cases hs with
  | access he => ?_
  | param hn' hop =>
    have hcontra := contra hn'
    simp [Op.isAlloc,hop] at hcontra
  | phi hn' hop =>
    have hcontra := contra hn'
    simp [Op.isAlloc,hop] at hcontra
  | const hn' hop =>
    have hcontra := contra hn'
    simp [Op.isAlloc,hop] at hcontra
  | @other _ _ node' hn' _ hop =>
    have hcontra := contra hn'
    cases hop' : node'.op with
    | new _ _ => simp [Op.isFixed,hop'] at hop
    | newArray _ _ => simp [Op.isFixed,hop'] at hop
    | _ => simp [Op.isAlloc,hop'] at hcontra
  obtain ⟨a,hact,hruns⟩ := he
  have ⟨hdr,ha⟩ : ∃ hdr, a = .alloc hdr := by
    unfold MemGraph.act at hact
    rw [hn,bind_some] at hact
    cases hop : node.op with
    | new c _ =>
      simp only [hop,some.injEq] at hact
      exact ⟨_,hact.symm⟩
    | newArray e _ =>
      simp only [hop,bind_eq_some_iff,map_eq_some_iff] at hact
      obtain ⟨_,_,_,_,_,_,rfl⟩ := hact
      exact ⟨_,rfl⟩
    | _ => simp [hop,Op.isAlloc] at halloc
  subst ha
  cases hruns with
  | @alloc _ o _ ho => exact ⟨o,rfl,ho⟩

/-- Who allocated an object: one node, after the start. -/
structure Allocated (g : Graph) (initial : JavaHeap) (past : List (Nat × JavaVal)) : Prop where
  late : ∀ {m o}, (m,Val.ref o) ∈ past → IsAllocNode g m → initial.header o = none
  unique : ∀ {m m' o}, (m,Val.ref o) ∈ past → (m',Val.ref o) ∈ past → IsAllocNode g m →
    IsAllocNode g m' → m = m'

theorem Activation.allocated (hr : Activation g layout initial past env h) :
    Allocated g.toGraph initial past := by
  induction hr with
  | start => exact ⟨nofun,nofun⟩
  | @step past env h h' n v hr hs ih => ?_
  | outside _ _ ih => exact ih
  -- a name taken before is not free
  have hnew : ∀ {m o}, (m,Val.ref o) ∈ past → v = .ref o → ¬IsAllocNode g.toGraph n := by
    intro m o hm hv ha
    obtain ⟨o',hv',ho'⟩ := hs.fresh ha
    obtain rfl := Val.ref.inj (hv.symm.trans hv')
    have hsome := hr.knows hm o rfl
    simp [ho'] at hsome
  refine ⟨fun {m o} hm ha => ?_,fun {m m' o} hm hm' ha ha' => ?_⟩
  · rcases mem_cons.mp hm with he | hm
    · obtain ⟨rfl,hv⟩ := mk.inj he
      obtain ⟨o',hv',ho'⟩ := hs.fresh ha
      obtain rfl := Val.ref.inj (hv.trans hv')
      by_contra hsome
      obtain ⟨hdr,hhdr⟩ := ne_none_iff_exists'.mp hsome
      have hkept := hr.extends o hdr hhdr
      rw [ho'] at hkept
      cases hkept
    · exact ih.late hm ha
  rcases mem_cons.mp hm with he | hold <;> rcases mem_cons.mp hm' with he' | hold'
  · exact (mk.inj he).1.trans (mk.inj he').1.symm
  · obtain ⟨rfl,hv⟩ := mk.inj he
    exact (hnew hold' hv.symm ha).elim
  · obtain ⟨rfl,hv⟩ := mk.inj he'
    exact (hnew hold hv.symm ha').elim
  · exact ih.unique hold hold' ha ha'

/-- The object comes from an allocation of the origin, or was there and the origin says so. -/
def Named (g : Graph) (initial : JavaHeap) (past : List (Nat × JavaVal)) (r : RefOrigin) (o : Nat) :
    Prop :=
  (∃ allocs m, r.allocs = some allocs ∧ m ∈ allocs ∧ IsAllocNode g m ∧ (m,Val.ref o) ∈ past) ∨
    (r.preExisting = true ∧ (initial.header o).isSome)

variable {o : Nat}

theorem Named.mono {r : RefOrigin} {e : Nat × JavaVal}
    (hn : Named g.toGraph initial past r o) : Named g.toGraph initial (e :: past) r o := by
  rcases hn with ⟨allocs,m,hr,hm,ha,hp⟩ | hpre
  · exact .inl ⟨allocs,m,hr,hm,ha,.tail _ hp⟩
  · exact .inr hpre

section
variable (hr : Activation g layout initial past env h)
include hr

theorem Activation.named {r : RefOrigin}
    {phis : List Nat} (hclosed : ∀ p ∈ phis, Closed g.toGraph r phis p)
    (hm : (m,Val.ref o) ∈ past) (hc : Covers g.toGraph r phis m) : Named g.toGraph initial past r o := by
  induction hr generalizing m with
  | start => cases hm
  | @step past env h h' n v hr hs ih => ?_
  | outside _ _ ih => exact ih hm hc
  rcases mem_cons.mp hm with he | hm
  · obtain ⟨rfl,rfl⟩ := mk.inj he
    obtain ⟨node,hn,⟨ha,allocs,hallocs,hid⟩ | ⟨⟨i,hop⟩,hpre⟩ | ⟨hop,hid⟩⟩ := hc
    · exact .inl ⟨allocs,m,hallocs,hid,⟨node,hn,ha⟩,.head _⟩
    · cases hs with
      | access he =>
        obtain ⟨a,hact,_⟩ := he
        simp [MemGraph.act,hn,hop] at hact
      | param hn' hop' hv => exact .inr ⟨hpre,hv o rfl⟩
      | phi hn' hop' =>
        obtain rfl := some.inj (hn.symm.trans hn')
        rw [hop] at hop'
        cases hop'
      | other hn' _ hop' =>
        obtain rfl := some.inj (hn.symm.trans hn')
        simp [hop,Op.isFixed] at hop'
    cases hs with
    | access he =>
      obtain ⟨a,hact,_⟩ := he
      simp [MemGraph.act,hn,hop] at hact
    | param hn' hop' hv =>
      obtain rfl := some.inj (hn.symm.trans hn')
      rw [hop] at hop'
      cases hop'
    | @phi _ node' inp hn' hop' hi hp =>
      obtain ⟨hinp,pred,hpred,hctl⟩ := hi
      exact (ih hp (hclosed m hid node' hn' inp hinp pred hpred hctl)).mono
    | other hn' _ hop' =>
      obtain rfl := some.inj (hn.symm.trans hn')
      simp [hop,Op.isFixed] at hop'
  · exact (ih hm hc).mono

theorem Activation.named_refOrigin
    {allocs : List Nat} (hknown : (g.refOrigin m).allocs = some allocs) (hm : (m,Val.ref o) ∈ past) :
    Named g.toGraph initial past (g.refOrigin m) o := by
  have hv := visited_refOriginAt g.toGraph _ m [] allocs hknown
  exact hr.named (fun p hp => hv.closed p hp (by simp)) hm hv.covers

theorem Activation.no_common_object {a b : Nat}
    (halias : g.refsMayAlias a b = false) (ha : (a,Val.ref o) ∈ past) : (b,Val.ref o) ∉ past := by
  intro hb
  simp only [Graph.refsMayAlias,Bool.or_eq_false_iff,Bool.not_eq_false'] at halias
  have hdistinct := halias.2
  unfold RefOrigin.provablyDistinct at hdistinct
  cases hx : (g.refOrigin a).allocs with
  | none => simp [hx] at hdistinct
  | some mine => ?_
  cases hy : (g.refOrigin b).allocs with
  | none => simp [hx,hy] at hdistinct
  | some theirs => ?_
  simp only [hx,hy] at hdistinct
  have halloc := hr.allocated
  rcases hr.named_refOrigin hx ha with ⟨allocs,m,hm,hmem,hal,hp⟩ | ⟨hpre,hsome⟩ <;>
    rcases hr.named_refOrigin hy hb with ⟨allocs',m',hm',hmem',hal',hp'⟩ | ⟨hpre',hsome'⟩
  · obtain rfl := some.inj (hx.symm.trans hm)
    obtain rfl := some.inj (hy.symm.trans hm')
    obtain rfl := halloc.unique hp hp' hal hal'
    split at hdistinct
    · cases hdistinct
    simp only [Bool.not_eq_true',List.any_eq_false,contains_eq_mem,decide_eq_true_eq] at hdistinct
    exact hdistinct m hmem hmem'
  · simp [halloc.late hp hal] at hsome'
  · simp [halloc.late hp' hal'] at hsome
  · simp [hpre,hpre'] at hdistinct

end
end
end CratonVM.Jit
