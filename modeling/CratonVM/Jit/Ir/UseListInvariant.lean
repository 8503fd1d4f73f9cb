import CratonVM.Jit.Ir.Graph

/-!
What current use lists say about their graph, and that every tracked operation keeps it so.
-/
namespace CratonVM.Jit
open Multimap List Option

/-- Every input slot is listed once at the node it names. -/
structure UsersExact (n : Nat) (inputsOf : Nat → List Nat) (uses : UseLists) : Prop where
  length : uses.users.length = n
  count : ∀ {id}, id < n → ∀ u, (bucket uses.users id).count u = (inputsOf u).count id
  inside : uses.dangling = false → ∀ u, ∀ inp ∈ inputsOf u, inp = noNode ∨ inp < n

/-- Every snapshot slot is listed at the node it names. -/
structure SlotsListed (n : Nat) (value : SafepointSlot → Option Nat) (uses : UseLists) : Prop where
  length : uses.spUsers.length = n
  listed : ∀ {r id}, value r = some id → id < n → r ∈ bucket uses.spUsers id
  inside : uses.dangling = false → ∀ {r id}, value r = some id → id = noNode ∨ id < n

/-- The lists describe the graph. -/
structure Graph.Exact (g : Graph) : Prop where
  users : UsersExact g.nodes.length g.inputsOf g.uses
  slots : SlotsListed g.nodes.length (Graph.slotValue g.safepoints) g.uses

section
variable {n : Nat} {inputsOf inputsOf' : Nat → List Nat} {uses : UseLists}

theorem ne_noNode {id : Nat} (hn : n ≤ noNode) (hid : id < n) : id ≠ noNode :=
  Nat.ne_of_lt (Nat.lt_of_lt_of_le hid hn)

@[simp] theorem UseLists.recordInput_spUsers (uses : UseLists) (d u : Nat) (n : Nat) :
    (uses.recordInput d u n).spUsers = uses.spUsers := by
  unfold recordInput
  split
  · rfl
  · split <;> rfl

theorem UseLists.recordInput_dangling {d u : Nat}
    (h : (uses.recordInput d u n).dangling = false) : uses.dangling = false := by
  unfold recordInput at h
  split at h
  · exact h
  split at h
  · exact h
  · cases h

theorem UsersExact.perm (h : UsersExact n inputsOf uses) (inputsOf' : Nat → List Nat)
    (hp : ∀ u, (inputsOf' u).Perm (inputsOf u)) : UsersExact n inputsOf' uses where
  length := h.length
  count := fun hid u => by rw [h.count hid,(hp u).count_eq]
  inside := fun hdang u inp hinp => h.inside hdang u inp ((hp u).mem_iff.mp hinp)

theorem perm_of_other {user : Nat} {edges : List Nat} (hp : (inputsOf' user).Perm edges)
    (ho : ∀ u, u ≠ user → inputsOf' u = inputsOf u) (u : Nat) :
    (inputsOf' u).Perm (if u = user then edges else inputsOf u) := by
  by_cases hu : u = user
  · subst hu
    rw [if_pos rfl]
    exact hp
  · rw [if_neg hu,ho u hu]

theorem UsersExact.recordInput (h : UsersExact n inputsOf uses) (hn : n ≤ noNode) (d user : Nat) :
    UsersExact n (fun u => if u = user then d :: inputsOf u else inputsOf u)
      (uses.recordInput d user n) := by
  have hcount : ∀ id u, (if u = user then d :: inputsOf u else inputsOf u).count id =
      (inputsOf u).count id + if u = user ∧ id = d then 1 else 0 := by
    intro id u
    by_cases hu : u = user
    · by_cases hid : id = d
      · simp [hu,hid]
      · simp [hu,hid,Ne.symm hid]
    · simp [hu]
  have hmem : ∀ u inp, inp ∈ (if u = user then d :: inputsOf u else inputsOf u) →
      inp ∈ inputsOf u ∨ inp = d := by
    intro u inp hinp
    split at hinp
    · exact (mem_cons.mp hinp).symm
    · exact .inl hinp
  unfold UseLists.recordInput
  split
  · rename_i hd
    refine ⟨h.length,fun {id} hid u => ?_,fun hdang u inp hinp => ?_⟩
    · have hne : id ≠ d := hd ▸ ne_noNode hn hid
      rw [h.count hid,hcount,if_neg (fun hc => hne hc.2),Nat.add_zero]
    rcases hmem u inp hinp with hinp | rfl
    · exact h.inside hdang u inp hinp
    · exact .inl hd
  split
  · rename_i hd
    refine ⟨by simp [h.length],fun {id} hid u => ?_,fun hdang u inp hinp => ?_⟩
    · rw [bucket_pushAt user (h.length ▸ hd),hcount]
      by_cases hidd : id = d
      · subst hidd
        rw [if_pos rfl,count_append,h.count hid,count_singleton]
        by_cases hu : u = user
        · simp [hu]
        · simp [hu,Ne.symm hu]
      have hnot : ¬ (u = user ∧ id = d) := fun hc => hidd hc.2
      rw [if_neg hidd,h.count hid,if_neg hnot,Nat.add_zero]
    rcases hmem u inp hinp with hinp | rfl
    · exact h.inside hdang u inp hinp
    · exact .inr hd
  rename_i hd
  refine ⟨h.length,fun {id} hid u => ?_,fun hdang => (Bool.noConfusion hdang)⟩
  have hne : id ≠ d := fun hc => hd (hc ▸ hid)
  rw [h.count hid,hcount,if_neg (fun hc => hne hc.2),Nat.add_zero]

theorem UsersExact.recordInputs (h : UsersExact n inputsOf uses) (hn : n ≤ noNode)
    (inputsOf' : Nat → List Nat) (inputs : List Nat) (user : Nat)
    (hp : (inputsOf' user).Perm (inputs ++ inputsOf user))
    (ho : ∀ u, u ≠ user → inputsOf' u = inputsOf u) :
    UsersExact n inputsOf' (uses.recordInputs inputs user n) := by
  induction inputs generalizing inputsOf uses with
  | nil => ?_
  | cons d inputs ih =>
    refine ih (h.recordInput hn d user) ?_ ?_
    · rw [if_pos rfl]
      exact hp.trans perm_middle.symm
    intro u hu
    rw [if_neg hu,ho u hu]
  refine h.perm inputsOf' fun u => (perm_of_other hp ho u).trans ?_
  split
  · rename_i hu
    rw [hu,nil_append]
  · exact .refl _

theorem UsersExact.forgetInput (h : UsersExact n inputsOf uses) (hn : n ≤ noNode)
    (inputsOf' : Nat → List Nat) (d user : Nat) (hp : (inputsOf user).Perm (d :: inputsOf' user))
    (ho : ∀ u, u ≠ user → inputsOf' u = inputsOf u) :
    UsersExact n inputsOf' (uses.forgetInputs [d] user n) := by
  have hcount : ∀ id u, (inputsOf u).count id =
      (inputsOf' u).count id + if u = user ∧ id = d then 1 else 0 := by
    intro id u
    by_cases hu : u = user
    · subst hu
      rw [hp.count_eq]
      by_cases hid : id = d
      · simp [hid]
      · simp [hid,Ne.symm hid]
    · simp [ho u hu,hu]
  have hmem : ∀ u inp, inp ∈ inputsOf' u → inp ∈ inputsOf u := by
    intro u inp hinp
    by_cases hu : u = user
    · subst hu
      exact hp.mem_iff.mpr (mem_cons_of_mem _ hinp)
    · exact ho u hu ▸ hinp
  simp only [UseLists.forgetInputs,foldl_cons,foldl_nil]
  split
  · rename_i hd
    refine ⟨by simp [h.length],fun {id} hid u => ?_,fun hdang u inp hinp =>
      h.inside hdang u inp (hmem u inp hinp)⟩
    have hc := hcount id u
    rw [bucket_modify (h.length ▸ hd.2)]
    by_cases hidd : id = d
    · subst hidd
      rw [if_pos rfl,count_swapRemoveFirst,h.count hid,hc]
      by_cases hu : u = user
      · simp [hu]
      · simp [hu]
    · rw [if_neg hidd,h.count hid,hc,if_neg (fun hc => hidd hc.2),Nat.add_zero]
  rename_i hd
  refine ⟨h.length,fun {id} hid u => ?_,fun hdang u inp hinp =>
    h.inside hdang u inp (hmem u inp hinp)⟩
  have hne : id ≠ d := fun hc => hd ⟨hc ▸ ne_noNode hn hid,hc ▸ hid⟩
  rw [h.count hid,hcount id u,if_neg (fun hc => hne hc.2),Nat.add_zero]

theorem UsersExact.forgetInputs (h : UsersExact n inputsOf uses) (hn : n ≤ noNode)
    (inputsOf' : Nat → List Nat) (inputs : List Nat) (user : Nat)
    (hp : (inputsOf user).Perm (inputs ++ inputsOf' user))
    (ho : ∀ u, u ≠ user → inputsOf' u = inputsOf u) :
    UsersExact n inputsOf' (uses.forgetInputs inputs user n) := by
  induction inputs generalizing inputsOf uses with
  | nil =>
    refine h.perm inputsOf' fun u => (perm_of_other hp.symm ho u).trans ?_
    split
    · rename_i hu
      rw [hu]
    · exact .refl _
  | cons d inputs ih => ?_
  have hstep := h.forgetInput hn
    (fun u => if u = user then inputs ++ inputsOf' user else inputsOf u) d user (by simpa using hp) (fun u hu => if_neg hu)
  refine ih hstep ?_ ?_
  · rw [if_pos rfl]
  intro u hu
  rw [if_neg hu,ho u hu]

theorem UseLists.recordInputs_frame (uses : UseLists) (inputs : List Nat) (user : Nat)
    (n : Nat) : (uses.recordInputs inputs user n).spUsers = uses.spUsers ∧
      ((uses.recordInputs inputs user n).dangling = false → uses.dangling = false) := by
  induction inputs generalizing uses with
  | nil => exact ⟨rfl,fun h => h⟩
  | cons d inputs ih =>
    obtain ⟨hsp,hdang⟩ := ih (uses.recordInput d user n)
    exact ⟨hsp.trans (recordInput_spUsers uses d user n),fun h => recordInput_dangling (hdang h)⟩

theorem UseLists.forgetInputs_frame (uses : UseLists) (inputs : List Nat) (user : Nat)
    (n : Nat) : (uses.forgetInputs inputs user n).spUsers = uses.spUsers ∧
      (uses.forgetInputs inputs user n).dangling = uses.dangling := by
  induction inputs generalizing uses with
  | nil => exact ⟨rfl,rfl⟩
  | cons d inputs ih => ?_
  unfold forgetInputs
  rw [foldl_cons]
  split
  · exact ih _
  · exact ih _

theorem UseLists.recordNodes_spUsers (uses : UseLists) (nodes : List (Node × Nat)) (n : Nat) :
    (nodes.foldl (fun uses (node,uid) => uses.recordInputs node.inputs uid n) uses).spUsers
      = uses.spUsers := by
  induction nodes generalizing uses with
  | nil => rfl
  | cons node nodes ih =>
    rw [foldl_cons,ih]
    exact (recordInputs_frame uses node.1.inputs node.2 n).1

theorem UsersExact.recordNodes (h : UsersExact n inputsOf uses) (hn : n ≤ noNode)
    (nodes : List Node) (k : Nat) (hk : ∀ u, k ≤ u → inputsOf u = []) :
    UsersExact n
      (fun u => if u < k then inputsOf u else (nodes[u-k]?.map (·.inputs)).getD [])
      ((nodes.zipIdx k).foldl (fun uses (node,uid) => uses.recordInputs node.inputs uid n) uses) := by
  induction nodes generalizing k inputsOf uses with
  | nil =>
    refine h.perm _ fun u => ?_
    split
    · exact .refl _
    rename_i hu
    rw [hk u (Nat.le_of_not_lt hu)]
    exact .refl _
  | cons node nodes ih => ?_
  have hstep := h.recordInputs hn (fun u => if u = k then node.inputs else inputsOf u) node.inputs k
    (by simp [hk k (Nat.le_refl k)]) (fun u hu => if_neg hu)
  refine (ih hstep (k+1) ?_).perm _ fun u => ?_
  · intro u hu
    rw [if_neg (by omega),hk u (by omega)]
  rcases Nat.lt_trichotomy u k with hu | hu | hu
  · rw [if_pos hu,if_pos (Nat.lt_succ_of_lt hu),if_neg (Nat.ne_of_lt hu)]
  · subst hu
    simp
  rw [if_neg (by omega),if_neg (by omega)]
  have hidx : u-k = (u-(k+1))+1 := by omega
  rw [hidx,getElem?_cons_succ]

end

section
variable {n : Nat} {value value' : SafepointSlot → Option Nat} {uses uses' : UseLists}

theorem SlotsListed.frame (h : SlotsListed n value uses) (hsp : uses'.spUsers = uses.spUsers)
    (hdang : uses'.dangling = false → uses.dangling = false) : SlotsListed n value uses' :=
  ⟨hsp ▸ h.length,fun hr hid => hsp ▸ h.listed hr hid,fun hd => h.inside (hdang hd)⟩

theorem UsersExact.frame {inputsOf : Nat → List Nat} (h : UsersExact n inputsOf uses)
    (hu : uses'.users = uses.users) (hdang : uses'.dangling = false → uses.dangling = false) :
    UsersExact n inputsOf uses' :=
  ⟨hu ▸ h.length,fun hid => hu ▸ h.count hid,fun hd => h.inside (hdang hd)⟩

theorem SlotsListed.recordSlot (h : SlotsListed n value uses) (hn : n ≤ noNode)
    (value' : SafepointSlot → Option Nat) (d : Nat) (slot : SafepointSlot)
    (hv : ∀ {r id}, value' r = some id → value r = some id ∨ (r = slot ∧ id = d)) :
    SlotsListed n value' (uses.recordSlot d slot n) := by
  unfold UseLists.recordSlot
  split
  · rename_i hd
    refine ⟨h.length,fun hr hid => ?_,fun hdang {r id} hr => ?_⟩
    · rcases hv hr with hr | ⟨-,hr⟩
      · exact h.listed hr hid
      · exact absurd (hr.trans hd) (ne_noNode hn hid)
    rcases hv hr with hr | ⟨-,hr⟩
    · exact h.inside hdang hr
    · exact .inl (hr.trans hd)
  split
  · rename_i hd
    refine ⟨by simp [h.length],fun {r id} hr hid => ?_,fun hdang {r id} hr => ?_⟩
    · rw [bucket_pushAt slot (h.length ▸ hd)]
      rcases hv hr with hr | ⟨rfl,rfl⟩
      · split
        · rename_i hidd
          exact mem_append_left _ (hidd ▸ h.listed hr hid)
        · exact h.listed hr hid
      rw [if_pos rfl]
      exact mem_append_right _ (mem_singleton.mpr rfl)
    rcases hv hr with hr | ⟨-,rfl⟩
    · exact h.inside hdang hr
    · exact .inr hd
  rename_i hd
  refine ⟨h.length,fun hr hid => ?_,fun hdang => (Bool.noConfusion hdang)⟩
  rcases hv hr with hr | ⟨-,rfl⟩
  · exact h.listed hr hid
  · exact absurd hid hd

theorem UseLists.recordSlot_frame (uses : UseLists) (d : Nat) (slot : SafepointSlot) (n : Nat) :
    (uses.recordSlot d slot n).users = uses.users ∧
      ((uses.recordSlot d slot n).dangling = false → uses.dangling = false) := by
  unfold recordSlot
  split
  · exact ⟨rfl,fun h => h⟩
  split
  · exact ⟨rfl,fun h => h⟩
  · exact ⟨rfl,fun h => (Bool.noConfusion h)⟩

theorem SlotsListed.recordSlots (h : SlotsListed n value uses) (hn : n ≤ noNode)
    (value' : SafepointSlot → Option Nat) (slots : List (SafepointSlot × Nat))
    (hv : ∀ {r id}, value' r = some id → value r = some id ∨ (r,id) ∈ slots) :
    SlotsListed n value' (uses.recordSlots slots n) := by
  induction slots generalizing value uses with
  | nil =>
    have hv' : ∀ {r id}, value' r = some id → value r = some id := fun hr =>
      (hv hr).resolve_right not_mem_nil
    exact ⟨h.length,fun hr => h.listed (hv' hr),fun hd {r id} hr => h.inside hd (hv' hr)⟩
  | cons slot slots ih => ?_
  have hstep := h.recordSlot hn
    (fun r => if r = slot.1 ∧ value' r = some slot.2 then some slot.2 else value r) slot.2 slot.1
    (by
      intro r id hr
      split at hr
      · rename_i hc
        exact .inr ⟨hc.1,(some.inj hr).symm⟩
      · exact .inl hr)
  refine ih hstep ?_
  intro r id hr
  split
  · rename_i hc
    exact .inl (hc.2.symm.trans hr)
  rename_i hc
  rcases hv hr with hr | hmem
  · exact .inl hr
  rcases mem_cons.mp hmem with rfl | hmem
  · exact absurd ⟨rfl,hr⟩ hc
  · exact .inr hmem

theorem UseLists.recordSlots_frame (uses : UseLists) (slots : List (SafepointSlot × Nat))
    (n : Nat) : (uses.recordSlots slots n).users = uses.users ∧
      ((uses.recordSlots slots n).dangling = false → uses.dangling = false) := by
  induction slots generalizing uses with
  | nil => exact ⟨rfl,fun h => h⟩
  | cons slot slots ih =>
    obtain ⟨hu,hdang⟩ := ih (uses.recordSlot slot.2 slot.1 n)
    obtain ⟨hu',hdang'⟩ := recordSlot_frame uses slot.2 slot.1 n
    exact ⟨hu.trans hu',fun h => hdang' (hdang h)⟩

end

theorem SafepointSnapshot.mem_slots {sp : SafepointSnapshot} {si id : Nat} {r : SafepointSlot} :
    (r,id) ∈ sp.slots si ↔ r.snapshot = si ∧ (sp.half r.kind)[r.slot]? = some id := by
  obtain ⟨snapshot,kind,slot⟩ := r
  cases kind <;>
    simp [slots,half,mem_zipIdx_iff_getElem?,and_comm,eq_comm]

theorem Graph.mem_slots {safepoints : List SafepointSnapshot} {r : SafepointSlot} {id : Nat} :
    (r,id) ∈ slots safepoints ↔ slotValue safepoints r = some id := by
  unfold slots slotValue
  rw [mem_flatMap,bind_eq_some_iff]
  constructor
  · intro ⟨⟨sp,si⟩,hsp,hmem⟩
    obtain ⟨rfl,hr⟩ := (SafepointSnapshot.mem_slots).mp hmem
    exact ⟨sp,mem_zipIdx_iff_getElem?.mp hsp,hr⟩
  intro ⟨sp,hsp,hr⟩
  exact ⟨(sp,r.snapshot),mem_zipIdx_iff_getElem?.mpr hsp,(SafepointSnapshot.mem_slots).mpr ⟨rfl,hr⟩⟩

namespace Graph
theorem exact_deriveUseLists (t : Thread) (g : Graph) (hn : g.nodes.length ≤ noNode) :
    (g.deriveUseLists t).Exact := by
  have hstart : UsersExact g.nodes.length (fun _ => []) { g.uses with
      users := replicate g.nodes.length [], spUsers := replicate g.nodes.length [],
      dangling := false } :=
    ⟨by simp,by simp [bucket_replicate_nil],by simp⟩
  have husers := hstart.recordNodes hn g.nodes 0 (fun _ _ => rfl)
  have hnone : SlotsListed g.nodes.length (fun _ => none) (g.nodes.zipIdx.foldl
      (fun uses (node,uid) => uses.recordInputs node.inputs uid g.nodes.length) { g.uses with
        users := replicate g.nodes.length [], spUsers := replicate g.nodes.length [],
        dangling := false }) :=
    ⟨by rw [UseLists.recordNodes_spUsers,length_replicate],nofun,nofun⟩
  have hslots := hnone.recordSlots hn (slotValue g.safepoints) (slots g.safepoints) fun hr => .inr ((mem_slots).mpr hr)
  obtain ⟨hframe,hdang⟩ := UseLists.recordSlots_frame (g.nodes.zipIdx.foldl
    (fun uses (node,uid) => uses.recordInputs node.inputs uid g.nodes.length) { g.uses with
      users := replicate g.nodes.length [], spUsers := replicate g.nodes.length [],
      dangling := false }) (slots g.safepoints) g.nodes.length
  exact ⟨(husers.frame hframe hdang).frame rfl (fun h => h),hslots.frame rfl (fun h => h)⟩

variable {id : Nat} {r : SafepointSlot}

theorem slotValue_append (safepoints : List SafepointSnapshot) (sp : SafepointSnapshot) (h : slotValue (safepoints ++ [sp]) r = some id) :
    slotValue safepoints r = some id ∨ (r,id) ∈ sp.slots safepoints.length := by
  unfold slotValue at h ⊢
  obtain ⟨found,hfound,hr⟩ := bind_eq_some_iff.mp h
  rcases Nat.lt_or_ge r.snapshot safepoints.length with hlt | hge
  · rw [getElem?_append_left hlt] at hfound
    rw [hfound]
    exact .inl hr
  rw [getElem?_append_right hge] at hfound
  have hzero : r.snapshot - safepoints.length = 0 := by
    by_contra hne
    rw [getElem?_eq_none (by simp; omega)] at hfound
    cases hfound
  rw [hzero] at hfound
  cases hfound
  exact .inr ((SafepointSnapshot.mem_slots).mpr ⟨by omega,hr⟩)

theorem half_modifyHalf (sp : SafepointSnapshot) (kind kind' : SafepointSlotKind)
    (f : List Nat → List Nat) :
    (sp.modifyHalf kind f).half kind' = if kind' = kind then f (sp.half kind) else sp.half kind' := by
  cases kind <;> cases kind' <;> rfl

theorem slotValue_setSlot (safepoints : List SafepointSnapshot) (s : SafepointSlot) (v : Nat) (h : slotValue (setSlot safepoints s v) r = some id) :
    slotValue safepoints r = some id ∨ (r = s ∧ id = v) := by
  unfold slotValue setSlot at h
  obtain ⟨found,hfound,hr⟩ := bind_eq_some_iff.mp h
  rw [getElem?_modify] at hfound
  obtain ⟨sp,hsp,hsp'⟩ := map_eq_some_iff.mp hfound
  unfold slotValue
  rw [hsp]
  subst hsp'
  split at hr
  · rw [half_modifyHalf] at hr
    split at hr
    · rename_i hkind
      rw [getElem?_set] at hr
      split at hr
      · split at hr
        · cases hr
          refine .inr ⟨?_,rfl⟩
          cases r
          cases s
          simp_all
        · cases hr
      · exact .inl (hkind ▸ hr)
    · exact .inl hr
  · exact .inl hr

theorem getElem?_clearHalf {clear : SafepointSlot → Nat → Nat → Bool} {si : Nat}
    {kind : SafepointSlotKind} {bci k : Nat} {values : List Nat}
    (h : (clearHalf clear si kind bci values)[k]? = some id) : values[k]? = some id ∨ id = noNode := by
  unfold clearHalf at h
  rw [getElem?_map,getElem?_zipIdx] at h
  obtain ⟨p,hp,hid⟩ := map_eq_some_iff.mp h
  obtain ⟨v,hv,rfl⟩ := map_eq_some_iff.mp hp
  simp only at hid
  split at hid
  · exact .inl (hid ▸ hv)
  split at hid
  · exact .inr hid.symm
  · exact .inl (hid ▸ hv)

theorem slotValue_clear (g : Graph) (clear : SafepointSlot → Nat → Nat → Bool) (h : slotValue (g.clearSafepointSlotsWhere clear).safepoints r = some id) :
    slotValue g.safepoints r = some id ∨ id = noNode := by
  unfold slotValue clearSafepointSlotsWhere at h
  obtain ⟨found,hfound,hr⟩ := bind_eq_some_iff.mp h
  rw [getElem?_map,getElem?_zipIdx] at hfound
  obtain ⟨p,hp,hid⟩ := map_eq_some_iff.mp hfound
  obtain ⟨sp,hsp,rfl⟩ := map_eq_some_iff.mp hp
  unfold slotValue
  rw [hsp]
  subst hid
  cases hk : r.kind <;> rw [hk] at hr <;> exact (getElem?_clearHalf hr).imp_left fun h => by simpa

@[simp] theorem length_modifyInputs (g : Graph) (id : Nat) (f : List Nat → List Nat) :
    (g.modifyInputs id f).nodes.length = g.nodes.length := by
  simp [modifyInputs]

@[simp] theorem modifyInputs_uses (g : Graph) (id : Nat) (f : List Nat → List Nat) :
    (g.modifyInputs id f).uses = g.uses := rfl

@[simp] theorem modifyInputs_safepoints (g : Graph) (id : Nat) (f : List Nat → List Nat) :
    (g.modifyInputs id f).safepoints = g.safepoints := rfl

theorem inputsOf_modify {g : Graph} (f : Node → Node) (hid : id < g.nodes.length) :
    inputsOf { g with nodes := g.nodes.modify id f } id = (f g.nodes[id]).inputs := by
  unfold inputsOf
  rw [getElem?_modify_eq,getElem?_eq_getElem hid]
  rfl

theorem inputsOf_modify_other {g : Graph} {u : Nat} (f : Node → Node) (hu : u ≠ id) :
    inputsOf { g with nodes := g.nodes.modify id f } u = g.inputsOf u := by
  unfold inputsOf
  rw [getElem?_modify]
  simp [Ne.symm hu]

theorem inputsOf_eq {g : Graph} (hid : id < g.nodes.length) :
    g.inputsOf id = g.nodes[id].inputs := by
  unfold inputsOf
  rw [getElem?_eq_getElem hid]
  rfl

theorem inputsOf_modifyInputs {g : Graph} (f : List Nat → List Nat)
    (hid : id < g.nodes.length) : (g.modifyInputs id f).inputsOf id = f (g.inputsOf id) := by
  rw [inputsOf_eq hid]
  exact inputsOf_modify _ hid

theorem inputsOf_modifyInputs_other {g : Graph} {u : Nat} (f : List Nat → List Nat)
    (hu : u ≠ id) : (g.modifyInputs id f).inputsOf u = g.inputsOf u :=
  inputsOf_modify_other _ hu

theorem isValidId_lt {g : Graph} (h : g.isValidId id = true) : id < g.nodes.length := by
  simp only [isValidId,Bool.and_eq_true,decide_eq_true_eq] at h
  exact h.2

theorem Exact.of_users {g g' : Graph} (hex : g.Exact) (hlen : g'.nodes.length = g.nodes.length)
    (hsafe : g'.safepoints = g.safepoints) (husers : UsersExact g.nodes.length g'.inputsOf g'.uses)
    (hsp : g'.uses.spUsers = g.uses.spUsers)
    (hdang : g'.uses.dangling = false → g.uses.dangling = false) : g'.Exact where
  users := hlen ▸ husers
  slots := by
    rw [hlen,hsafe]
    exact hex.slots.frame hsp hdang

theorem Exact.of_slots {g g' : Graph} (hex : g.Exact) (hnodes : g'.nodes = g.nodes)
    (hslots : SlotsListed g.nodes.length (slotValue g'.safepoints) g'.uses)
    (hu : g'.uses.users = g.uses.users)
    (hdang : g'.uses.dangling = false → g.uses.dangling = false) : g'.Exact where
  users := by
    have hin : g'.inputsOf = g.inputsOf := by
      funext u
      simp only [inputsOf,hnodes]
    rw [hnodes,hin]
    exact hex.users.frame hu hdang
  slots := hnodes ▸ hslots

section
variable {t : Thread} {g : Graph} (hn : g.nodes.length ≤ noNode) (hex : g.Exact)
include hn hex

theorem Exact.kill (hcur : g.useListsCurrent t = true) (id : Nat) : (g.kill t id).1.Exact := by
  unfold Graph.kill
  split
  · exact hex
  rename_i hid
  have hid := Nat.not_le.mp hid
  obtain ⟨hsp,hdang⟩ := g.uses.forgetInputs_frame (g.inputsOf id) id g.nodes.length
  have husers := hex.users.forgetInputs hn (inputsOf { g with nodes := g.nodes.modify id fun node =>
    { node with op := .dead, inputs := [], ty := .void } }) (g.inputsOf id) id (by rw [inputsOf_modify _ hid,append_nil]) fun u hu => inputsOf_modify_other _ hu
  exact hex.of_users (by simp) rfl (husers.frame rfl (fun h => h)) hsp (fun h => hdang ▸ h)

theorem Exact.setInput (hcur : g.useListsCurrent t = true) (node idx new : Nat) :
    (g.setInput t node idx new).1.Exact := by
  unfold Graph.setInput
  split
  · exact hex
  rename_i hguard
  simp only [Bool.or_eq_true,Bool.not_eq_true',decide_eq_true_eq,not_or,Bool.not_eq_false,
    Nat.not_le] at hguard
  obtain ⟨hnode,hidx⟩ := hguard
  have hlt := isValidId_lt hnode
  have hold : (g.inputsOf node)[idx]?.getD noNode = (g.inputsOf node)[idx] := by
    rw [getElem?_eq_getElem hidx]
    rfl
  obtain ⟨hsp,hdang⟩ := g.uses.forgetInputs_frame [(g.inputsOf node)[idx]] node g.nodes.length
  have herased := hex.users.forgetInputs hn
    (fun u => if u = node then (g.inputsOf node).eraseIdx idx else g.inputsOf u)
    [(g.inputsOf node)[idx]] node (by
      rw [if_pos rfl]
      exact (getElem_cons_eraseIdx_perm hidx).symm)
    (fun u hu => if_neg hu)
  have husers := (herased.recordInput hn new node).perm
    (g.modifyInputs node (·.set idx new)).inputsOf fun u => by
      by_cases hu : u = node
      · subst hu
        rw [if_pos rfl,if_pos rfl,inputsOf_modifyInputs _ hlt]
        exact set_perm_cons_eraseIdx hidx new
      · rw [if_neg hu,if_neg hu,inputsOf_modifyInputs_other _ hu]
  simp only [hold]
  refine hex.of_users (by simp) rfl (husers.frame rfl (fun h => h)) ?_ ?_
  · exact (UseLists.recordInput_spUsers _ _ _ _).trans hsp
  · exact fun h => hdang ▸ UseLists.recordInput_dangling h

theorem Exact.pushInput (hcur : g.useListsCurrent t = true) (node new : Nat) :
    (g.pushInput t node new).1.Exact := by
  unfold Graph.pushInput
  split
  · exact hex
  rename_i hnode
  have hlt : node < g.nodes.length := isValidId_lt (by simpa using hnode)
  have husers := (hex.users.recordInput hn new node).perm
    (g.modifyInputs node (· ++ [new])).inputsOf fun u => by
      by_cases hu : u = node
      · subst hu
        rw [if_pos rfl,inputsOf_modifyInputs _ hlt]
        exact perm_append_singleton new _
      · rw [if_neg hu,inputsOf_modifyInputs_other _ hu]
  refine hex.of_users (by simp) rfl (husers.frame rfl (fun h => h)) ?_ ?_
  · exact UseLists.recordInput_spUsers _ _ _ _
  · exact fun h => UseLists.recordInput_dangling h

theorem Exact.setInputs (hcur : g.useListsCurrent t = true) (node : Nat) (inputs : List Nat) :
    (g.setInputs t node inputs).1.Exact := by
  unfold Graph.setInputs
  split
  · exact hex
  rename_i hnode
  have hlt : node < g.nodes.length := isValidId_lt (by simpa using hnode)
  have hgone := hex.users.forgetInputs hn (fun u => if u = node then [] else g.inputsOf u)
    (g.inputsOf node) node (by simp) (fun u hu => if_neg hu)
  have husers := hgone.recordInputs hn (g.modifyInputs node fun _ => inputs).inputsOf inputs node
    (by rw [if_pos rfl,inputsOf_modifyInputs _ hlt,append_nil])
    (fun u hu => by rw [if_neg hu,inputsOf_modifyInputs_other _ hu])
  obtain ⟨hsp,hdang⟩ := g.uses.forgetInputs_frame (g.inputsOf node) node g.nodes.length
  obtain ⟨hsp',hdang'⟩ := (g.uses.forgetInputs (g.inputsOf node) node g.nodes.length).recordInputs_frame
    inputs node g.nodes.length
  exact hex.of_users (by simp) rfl (husers.frame rfl (fun h => h)) (hsp'.trans hsp)
    (fun h => hdang ▸ hdang' h)

theorem Exact.append (hfull : g.nodes.length ≠ noNode) (hd : g.uses.dangling = false) (node : Node) :
    Exact { g with
      nodes := g.nodes ++ [node]
      uses := g.uses.grow.recordInputs node.inputs g.nodes.length (g.nodes.length+1) } := by
  have hn' : g.nodes.length+1 ≤ noNode := by omega
  have hgrown : UsersExact (g.nodes.length+1) g.inputsOf g.uses.grow := by
    refine ⟨by simp [UseLists.grow,hex.users.length],fun {id} hid u => ?_,fun _ u inp hinp => ?_⟩
    · simp only [UseLists.grow]
      rw [bucket_append_nil]
      rcases Nat.lt_succ_iff_lt_or_eq.mp hid with hid | rfl
      · exact hex.users.count hid u
      have hnot : g.nodes.length ∉ g.inputsOf u := by
        intro hmem
        rcases hex.users.inside hd u _ hmem with h | h <;> omega
      rw [count_eq_zero.mpr hnot]
      unfold bucket
      rw [getElem?_eq_none (Nat.le_of_eq hex.users.length)]
      rfl
    rcases hex.users.inside hd u inp hinp with h | h
    · exact .inl h
    · exact .inr (by omega)
  have hslots : SlotsListed (g.nodes.length+1) (slotValue g.safepoints) g.uses.grow := by
    refine ⟨by simp [UseLists.grow,hex.slots.length],fun {r id} hr hid => ?_,fun _ {r id} hr => ?_⟩
    · simp only [UseLists.grow]
      rw [bucket_append_nil]
      refine hex.slots.listed hr ?_
      rcases hex.slots.inside hd hr with h | h <;> omega
    rcases hex.slots.inside hd hr with h | h
    · exact .inl h
    · exact .inr (by omega)
  have hnew : ∀ u, (inputsOf { g with nodes := g.nodes ++ [node] } u) =
      if u = g.nodes.length then node.inputs else g.inputsOf u := by
    intro u
    unfold inputsOf
    rcases Nat.lt_trichotomy u g.nodes.length with hu | hu | hu
    · rw [if_neg (by omega),getElem?_append_left hu]
    · subst hu
      simp
    · rw [if_neg (by omega),getElem?_eq_none (by simp; omega),getElem?_eq_none (by omega)]
  have hempty : g.inputsOf g.nodes.length = [] := by
    unfold inputsOf
    rw [getElem?_eq_none le_rfl]
    rfl
  have husers := hgrown.recordInputs hn' (inputsOf { g with nodes := g.nodes ++ [node] }) node.inputs
    g.nodes.length (by rw [hnew,if_pos rfl,hempty,append_nil]) (fun u hu => by rw [hnew,if_neg hu])
  obtain ⟨hsp,hdang⟩ := g.uses.grow.recordInputs_frame node.inputs g.nodes.length (g.nodes.length+1)
  have hlen : (g.nodes ++ [node]).length = g.nodes.length+1 := by simp
  refine ⟨?_,?_⟩
  · rw [hlen]
    exact husers
  rw [hlen]
  exact hslots.frame hsp hdang

theorem Exact.add (hcur : g.useListsCurrent t = true) (op : Op) (ty : IrType) (inputs : List Nat)
    (pc : Option Nat) (hd : g.uses.dangling = false) : (g.add t op ty inputs pc).Exact := by
  unfold Graph.add
  simp only [hcur,if_true,hd,Bool.false_eq_true,if_false,length_append,length_singleton]
  split
  · exact hex
  rename_i hfull
  exact ⟨(hex.append hn hfull hd _).users.frame rfl (fun h => h),
    (hex.append hn hfull hd _).slots.frame rfl (fun h => h)⟩

theorem Exact.pushSafepoint (hcur : g.useListsCurrent t = true) (sp : SafepointSnapshot) :
    (g.pushSafepoint t sp).Exact := by
  unfold Graph.pushSafepoint
  simp only [hcur,if_true]
  have hslots := hex.slots.recordSlots hn (slotValue (g.safepoints ++ [sp]))
    (sp.slots g.safepoints.length) (slotValue_append g.safepoints sp)
  obtain ⟨hu,hdang⟩ := g.uses.recordSlots_frame (sp.slots g.safepoints.length) g.nodes.length
  exact hex.of_slots rfl (hslots.frame rfl (fun h => h)) hu hdang

theorem Exact.setSafepointSlot (hcur : g.useListsCurrent t = true) (r : SafepointSlot) (new : Nat) :
    (g.setSafepointSlot t r new).1.Exact := by
  unfold Graph.setSafepointSlot
  split
  · exact hex
  have hslots := hex.slots.recordSlot hn (slotValue (setSlot g.safepoints r new)) new r
    (slotValue_setSlot g.safepoints r new)
  obtain ⟨hu,hdang⟩ := g.uses.recordSlot_frame new r g.nodes.length
  exact hex.of_slots rfl (hslots.frame rfl (fun h => h)) hu hdang

theorem Exact.clearSafepointSlotsWhere (clear : SafepointSlot → Nat → Nat → Bool) :
    (g.clearSafepointSlotsWhere clear).Exact := by
  have hv : ∀ {r id}, slotValue (g.clearSafepointSlotsWhere clear).safepoints r = some id →
      slotValue g.safepoints r = some id ∨ id = noNode := slotValue_clear g clear
  refine hex.of_slots rfl ⟨hex.slots.length,fun hr hid => ?_,fun hd {r id} hr => ?_⟩ rfl (fun h => h)
  · rcases hv hr with hr | hr
    · exact hex.slots.listed hr hid
    · exact absurd hr (ne_noNode hn hid)
  rcases hv hr with hr | hr
  · exact hex.slots.inside hd hr
  · exact .inl hr

end
end Graph
end CratonVM.Jit
