import CratonVM.Jit.Ir.UseListInvariant

/-!
`replace_all_uses` along exact use lists rewrites the same slots as the full scan.
-/
namespace CratonVM.Jit.Graph
open Multimap List Option
variable {old new : Nat}

theorem rewriteSlots_idem (hne : old ≠ new) (values : List Nat) :
    rewriteSlots old new (rewriteSlots old new values) = rewriteSlots old new values := by
  unfold rewriteSlots
  rw [List.map_map]
  refine map_congr_left fun v _ => ?_
  by_cases hv : v = old
  · simp [hv,Ne.symm hne]
  · simp [hv]

variable {values : List Nat}

theorem rewriteSlots_of_not_mem (h : old ∉ values) :
    rewriteSlots old new values = values := by
  unfold rewriteSlots
  refine (map_congr_left fun v hv => if_neg ?_).trans (map_id _)
  exact fun hc => h (hc ▸ hv)

theorem not_mem_rewriteSlots (hne : old ≠ new) (values : List Nat) :
    old ∉ rewriteSlots old new values := by
  unfold rewriteSlots
  intro h
  obtain ⟨v,_,hv⟩ := mem_map.mp h
  split at hv
  · exact hne hv.symm
  rename_i hvo
  exact hvo hv

theorem count_rewriteSlots {id : Nat} (hid : id ≠ old) :
    (rewriteSlots old new values).count id =
      values.count id + if id = new then values.count old else 0 := by
  induction values with
  | nil => simp [rewriteSlots]
  | cons v values ih => ?_
  simp only [rewriteSlots,map_cons,count_cons] at ih ⊢
  rw [ih]
  by_cases hv : v = old
  · subst hv
    by_cases hn : id = new
    · simp [hn,hn ▸ Ne.symm hid]
      omega
    · simp [hn,Ne.symm hn,Ne.symm hid]
  by_cases hn : id = new
  · simp [hn,hv]
    omega
  · simp [hn,hv]

theorem map_modify_idem {α : Type} {f : α → α} (hf : ∀ a, f (f a) = f a) (l : List α) (i : Nat) :
    (l.modify i f).map f = l.map f := by
  refine ext_getElem? fun k => ?_
  rw [getElem?_map,getElem?_map,getElem?_modify]
  cases l[k]? with
  | none => rfl
  | some a =>
    by_cases hk : i = k
    · simp [hk,hf]
    · simp [hk]

/-- The walk over the users: `rest` is still to be visited. -/
structure UserWalk (old new : Nat) (start g : Graph) (rest : List Nat) : Prop where
  nodes : g.nodes.map (rewriteNode old new) = start.nodes.map (rewriteNode old new)
  safepoints : g.safepoints = start.safepoints
  uses : g.uses = { start.uses with users := g.uses.users }
  length : g.uses.users.length = g.nodes.length
  count : ∀ {id}, id < g.nodes.length → id ≠ old →
    ∀ u, (bucket g.uses.users id).count u = (g.inputsOf u).count id
  gone : bucket g.uses.users old = []
  rest : ∀ u, old ∈ g.inputsOf u → u ∈ rest

variable {start : Graph} {rest : List Nat}

theorem UserWalk.nodes_length {g : Graph} (h : UserWalk old new start g rest) :
    g.nodes.length = start.nodes.length := by
  have hlen := congrArg List.length h.nodes
  simpa using hlen

theorem inputsOf_of_ge {g : Graph} {u : Nat} (hu : g.nodes.length ≤ u) : g.inputsOf u = [] := by
  unfold inputsOf
  rw [getElem?_eq_none hu]
  rfl

theorem UserWalk.step {g : Graph} {user : Nat} {newIsNode : Bool}
    (h : UserWalk old new start g (user :: rest)) (hne : old ≠ new)
    (hnew : newIsNode = true ↔ new < start.nodes.length) :
    UserWalk old new start (rewriteUser old new newIsNode g user) rest := by
  have hlen := h.nodes_length
  unfold rewriteUser
  split
  · rename_i huser
    refine { h with rest := fun u hu => ?_ }
    rcases mem_cons.mp (h.rest u hu) with rfl | hu'
    · rw [inputsOf_of_ge huser] at hu
      cases hu
    · exact hu'
  rename_i huser
  have huser := Nat.not_le.mp huser
  have hnodes : (g.modifyInputs user (rewriteSlots old new)).nodes.map (rewriteNode old new)
      = start.nodes.map (rewriteNode old new) := by
    rw [← h.nodes]
    refine map_modify_idem (fun node => ?_) _ _
    simp [rewriteNode,rewriteSlots_idem hne]
  have hrest : ∀ u, old ∈ (g.modifyInputs user (rewriteSlots old new)).inputsOf u → u ∈ rest := by
    intro u hu
    by_cases huu : u = user
    · subst huu
      rw [inputsOf_modifyInputs _ huser] at hu
      exact absurd hu (not_mem_rewriteSlots hne _)
    rw [inputsOf_modifyInputs_other _ huu] at hu
    exact (mem_cons.mp (h.rest u hu)).resolve_left huu
  have hinputs : ∀ {id}, id ≠ old → ∀ u,
      ((g.modifyInputs user (rewriteSlots old new)).inputsOf u).count id =
        (g.inputsOf u).count id + if u = user ∧ id = new then (g.inputsOf user).count old else 0 := by
    intro id hid u
    by_cases huu : u = user
    · subst huu
      rw [inputsOf_modifyInputs _ huser,count_rewriteSlots hid]
      simp
    · rw [inputsOf_modifyInputs_other _ huu,if_neg fun hc => huu hc.1,Nat.add_zero]
  split
  · rename_i hnode
    have hlt : new < g.uses.users.length := by
      rw [h.length,hlen]
      exact hnew.mp hnode
    refine ⟨hnodes,h.safepoints,?_,by simp [h.length],fun {id} hid hio u => ?_,?_,hrest⟩
    · simp only [modifyInputs]
      rw [h.uses]
    · simp only [modifyInputs]
      rw [bucket_modify hlt]
      have hc : (bucket g.uses.users id).count u = (g.inputsOf u).count id :=
      h.count (by simpa using hid) hio u
      have hi := hinputs hio u
      by_cases hin : id = new
      · subst hin
        rw [if_pos rfl,count_append,hc]
        refine Eq.trans ?_ hi.symm
        by_cases huu : u = user
        · simp [huu]
        · simp [huu,count_replicate,Ne.symm huu]
      rw [if_neg hin,hc]
      refine Eq.trans ?_ hi.symm
      simp [hin]
    simp only [modifyInputs]
    rw [bucket_modify hlt,if_neg hne]
    exact h.gone
  · rename_i hnode
    refine ⟨hnodes,h.safepoints,h.uses,by simpa using h.length,fun {id} hid hio u => ?_,h.gone,hrest⟩
    have hin : id ≠ new := by
      intro hc
      refine hnode (hnew.mpr ?_)
      rw [← hlen,← hc]
      simpa using hid
    have hc : (bucket g.uses.users id).count u = (g.inputsOf u).count id :=
        h.count (by simpa using hid) hio u
    rw [hinputs hio u,if_neg fun hc => hin hc.2,Nat.add_zero]
    exact hc

theorem UserWalk.foldl {g : Graph} {newIsNode : Bool}
    (h : UserWalk old new start g rest) (hne : old ≠ new)
    (hnew : newIsNode = true ↔ new < start.nodes.length) :
    UserWalk old new start (rest.foldl (rewriteUser old new newIsNode) g) [] := by
  induction rest generalizing g with
  | nil => exact h
  | cons user rest ih => exact ih (h.step hne hnew)

theorem UserWalk.done {g : Graph} (h : UserWalk old new start g []) :
    g.nodes = start.nodes.map (rewriteNode old new) := by
  rw [← h.nodes]
  refine ((map_congr_left fun node hnode => ?_).trans (map_id _)).symm
  obtain ⟨u,hu,hnode⟩ := getElem_of_mem hnode
  have hnot : old ∉ node.inputs := by
    intro hc
    rw [← hnode,← inputsOf_eq hu] at hc
    exact not_mem_nil (h.rest u hc)
  unfold rewriteNode
  rw [rewriteSlots_of_not_mem hnot]
  rfl

theorem rewriteSlots_set (hne : old ≠ new) {k : Nat} (hk : values[k]? = some old) :
    rewriteSlots old new (values.set k new) = rewriteSlots old new values := by
  refine ext_getElem? fun j => ?_
  unfold rewriteSlots
  rw [getElem?_map,getElem?_map,getElem?_set]
  by_cases hj : k = j
  · subst hj
    rw [if_pos rfl,hk]
    obtain ⟨hlt,-⟩ := List.getElem?_eq_some_iff.mp hk
    simp [hlt,Ne.symm hne]
  · rw [if_neg hj]

variable {r : SafepointSlot}

theorem map_rewriteSnapshot_setSlot (hne : old ≠ new) {safepoints : List SafepointSnapshot} (hr : slotValue safepoints r = some old) :
    (setSlot safepoints r new).map (rewriteSnapshot old new)
      = safepoints.map (rewriteSnapshot old new) := by
  obtain ⟨sp,hsp,hslot⟩ := bind_eq_some_iff.mp hr
  refine ext_getElem? fun j => ?_
  unfold setSlot
  rw [getElem?_map,getElem?_map,getElem?_modify]
  by_cases hj : r.snapshot = j
  · subst hj
    rw [hsp]
    simp only [if_true,Option.map_eq_map,map_some,some.injEq]
    cases hk : r.kind <;> rw [hk] at hslot <;>
      simp only [SafepointSnapshot.modifyHalf,rewriteSnapshot,SafepointSnapshot.mk.injEq,true_and,
        and_true] <;> exact rewriteSlots_set hne hslot
  · simp [hj]

theorem slotValue_setSlot_self {safepoints : List SafepointSnapshot} {id : Nat}
    (v : Nat) (hr : slotValue safepoints r = some id) :
    slotValue (setSlot safepoints r v) r = some v := by
  obtain ⟨sp,hsp,hslot⟩ := bind_eq_some_iff.mp hr
  obtain ⟨hlt,-⟩ := List.getElem?_eq_some_iff.mp hslot
  unfold slotValue setSlot
  rw [getElem?_modify_eq,hsp]
  simp only [Option.map_eq_map,map_some,bind_some,half_modifyHalf,if_true]
  rw [getElem?_set_self hlt]

structure SlotWalk (old new : Nat) (start g : Graph) (rest : List SafepointSlot) : Prop where
  safepoints : g.safepoints.map (rewriteSnapshot old new)
    = start.safepoints.map (rewriteSnapshot old new)
  nodes : g.nodes = start.nodes
  uses : g.uses = { start.uses with spUsers := g.uses.spUsers }
  length : g.uses.spUsers.length = g.nodes.length
  listed : ∀ {r id}, slotValue g.safepoints r = some id → id < g.nodes.length → id ≠ old →
    r ∈ bucket g.uses.spUsers id
  inside : ∀ {r id}, slotValue g.safepoints r = some id →
    (∃ r', slotValue start.safepoints r' = some id) ∨ id = new
  rest : ∀ r, slotValue g.safepoints r = some old → r ∈ rest

theorem SlotWalk.step {g : Graph} {rest : List SafepointSlot}
    {newIsNode : Bool} (h : SlotWalk old new start g (r :: rest)) (hne : old ≠ new)
    (hnew : newIsNode = true ↔ new < start.nodes.length) :
    SlotWalk old new start (rewriteSlot old new newIsNode g r) rest := by
  unfold rewriteSlot
  split
  · rename_i hr
    have hsafe := (map_rewriteSnapshot_setSlot hne hr).trans h.safepoints
    have hinside : ∀ {s id}, slotValue (setSlot g.safepoints r new) s = some id →
        (∃ r', slotValue start.safepoints r' = some id) ∨ id = new := by
      intro s id hs
      rcases slotValue_setSlot _ _ _ hs with hs | ⟨-,hs⟩
      · exact h.inside hs
      · exact .inr hs
    have hrest : ∀ s, slotValue (setSlot g.safepoints r new) s = some old → s ∈ rest := by
      intro s hs
      by_cases hsr : s = r
      · rw [hsr,slotValue_setSlot_self new hr] at hs
        exact absurd (some.inj hs).symm hne
      rcases slotValue_setSlot _ _ _ hs with hs | ⟨hs,-⟩
      · exact (mem_cons.mp (h.rest s hs)).resolve_left hsr
      · exact absurd hs hsr
    split
    · rename_i hnode
      have hlt : new < g.uses.spUsers.length := by
        rw [h.length,h.nodes]
        exact hnew.mp hnode
      refine ⟨hsafe,h.nodes,?_,by simp [h.length],fun {s id} hs hid hio => ?_,hinside,hrest⟩
      · rw [h.uses]
      rw [bucket_pushAt r hlt]
      rcases slotValue_setSlot _ _ _ hs with hs | ⟨rfl,rfl⟩
      · split
        · rename_i hin
          exact mem_append_left _ (hin ▸ h.listed hs hid hio)
        · exact h.listed hs hid hio
      rw [if_pos rfl]
      exact mem_append_right _ (mem_singleton.mpr rfl)
    rename_i hnode
    refine ⟨hsafe,h.nodes,h.uses,h.length,fun {s id} hs hid hio => ?_,hinside,hrest⟩
    rcases slotValue_setSlot _ _ _ hs with hs | ⟨-,rfl⟩
    · exact h.listed hs hid hio
    · exact absurd (hnew.mpr (h.nodes ▸ hid)) hnode
  · rename_i hr
    refine { h with rest := fun s hs => ?_ }
    rcases mem_cons.mp (h.rest s hs) with rfl | hmem
    · exact absurd hs hr
    · exact hmem

theorem SlotWalk.foldl {g : Graph} {rest : List SafepointSlot} {newIsNode : Bool}
    (h : SlotWalk old new start g rest) (hne : old ≠ new)
    (hnew : newIsNode = true ↔ new < start.nodes.length) :
    SlotWalk old new start (rest.foldl (rewriteSlot old new newIsNode) g) [] := by
  induction rest generalizing g with
  | nil => exact h
  | cons r rest ih => exact ih (h.step hne hnew)

theorem rewriteSnapshot_of_not_mem {sp : SafepointSnapshot} (h : ∀ kind, old ∉ sp.half kind) :
    rewriteSnapshot old new sp = sp := by
  have hlocals : rewriteSlots old new sp.locals = sp.locals := rewriteSlots_of_not_mem (h .locals)
  have hstack : rewriteSlots old new sp.stack = sp.stack := rewriteSlots_of_not_mem (h .stack)
  have hmon : rewriteSlots old new sp.monitors = sp.monitors := rewriteSlots_of_not_mem (h .monitors)
  unfold rewriteSnapshot
  rw [hlocals,hstack,hmon]

theorem SlotWalk.done {g : Graph} (h : SlotWalk old new start g []) :
    g.safepoints = start.safepoints.map (rewriteSnapshot old new) := by
  rw [← h.safepoints]
  refine ((map_congr_left fun sp hsp => ?_).trans (map_id _)).symm
  obtain ⟨si,hsi,hsp⟩ := getElem_of_mem hsp
  refine rewriteSnapshot_of_not_mem fun kind hmem => ?_
  obtain ⟨k,hk,hval⟩ := getElem_of_mem hmem
  refine not_mem_nil (h.rest ⟨si,kind,k⟩ ?_)
  unfold slotValue
  rw [getElem?_eq_getElem hsi,hsp]
  simp only [bind_some]
  rw [getElem?_eq_getElem hk,hval]

theorem bucket_set_nil {α : Type} {table : List (List α)} (hold : old < table.length) (id : Nat) :
    bucket (table.set old []) id = if id = old then [] else bucket table id := by
  unfold bucket
  rw [getElem?_set]
  by_cases hid : old = id
  · subst hid
    simp [hold]
  · simp [hid,Ne.symm hid]

section
variable {g : Graph} (newIsNode : Bool) (hne : old ≠ new) (hold : old < g.nodes.length)
  (hnew : newIsNode = true ↔ new < g.nodes.length)
include hne hold hnew

theorem rewriteUsers_spec (h : UsersExact g.nodes.length g.inputsOf g.uses) :
    UserWalk old new g (g.rewriteUsers old new newIsNode) [] := by
  have hlt : old < g.uses.users.length := h.length ▸ hold
  refine UserWalk.foldl ⟨rfl,rfl,rfl,by simp [h.length],fun {id} hid hio u => ?_,?_,fun u hu => ?_⟩
    hne hnew
  · rw [bucket_set_nil hlt,if_neg hio]
    exact h.count hid u
  · rw [bucket_set_nil hlt,if_pos rfl]
  have hpos : 0 < (bucket g.uses.users old).count u := by
    rw [h.count hold u]
    exact count_pos_iff.mpr hu
  exact count_pos_iff.mp hpos

theorem rewriteSpUsers_spec (h : SlotsListed g.nodes.length (slotValue g.safepoints) g.uses) :
    SlotWalk old new g (g.rewriteSpUsers old new newIsNode) [] := by
  have hlt : old < g.uses.spUsers.length := h.length ▸ hold
  refine SlotWalk.foldl ⟨rfl,rfl,rfl,by simp [h.length],fun {r id} hr hid hio => ?_,
    fun hr => .inl ⟨_,hr⟩,fun r hr => h.listed hr hold⟩ hne hnew
  rw [bucket_set_nil hlt,if_neg hio]
  exact h.listed hr hid

end

theorem replaceAllUsesTracked_spec {t : Thread} {g : Graph} (hn : g.nodes.length ≤ noNode)
    (hex : g.Exact) (hne : old ≠ new) (hold : old < g.nodes.length) :
    (g.replaceAllUsesTracked t old new).nodes = (g.rewriteAll old new).nodes ∧
    (g.replaceAllUsesTracked t old new).safepoints = (g.rewriteAll old new).safepoints ∧
    (g.replaceAllUsesTracked t old new).Exact ∧
    ∃ users spUsers dangling, (g.replaceAllUsesTracked t old new).uses = ({ g.uses with
      users := users, spUsers := spUsers, dangling := dangling } : UseLists).stamp t := by
  have hnew : g.isValidId new = true ↔ new < g.nodes.length := by
    simp only [isValidId,Bool.and_eq_true,decide_eq_true_eq]
    exact ⟨fun h => h.2,fun h => ⟨ne_noNode hn h,h⟩⟩
  unfold replaceAllUsesTracked
  have hwalk := rewriteUsers_spec (g.isValidId new) hne hold hnew hex.users
  simp only
  generalize g.rewriteUsers old new (g.isValidId new) = g₁ at hwalk ⊢
  have hlen := hwalk.nodes_length
  have hsp₁ : g₁.uses.spUsers = g.uses.spUsers := by rw [hwalk.uses]
  have hdang₁ : g₁.uses.dangling = g.uses.dangling := by rw [hwalk.uses]
  have hlisted : SlotsListed g₁.nodes.length (slotValue g₁.safepoints) { g₁.uses with
      dangling := g₁.uses.dangling || (new ≠ noNode && !g.isValidId new) } := by
    rw [hlen,hwalk.safepoints]
    refine hex.slots.frame hsp₁ fun hd => ?_
    rw [← hdang₁]
    exact (Bool.or_eq_false_iff.mp hd).1
  have hslots := rewriteSpUsers_spec (g.isValidId new)
    (g := { g₁ with uses := { g₁.uses with
      dangling := g₁.uses.dangling || (new ≠ noNode && !g.isValidId new) } })
    hne (hlen.symm ▸ hold) (hlen.symm ▸ hnew) hlisted
  generalize rewriteSpUsers { g₁ with uses := { g₁.uses with
      dangling := g₁.uses.dangling || (new ≠ noNode && !g.isValidId new) } } old new
      (g.isValidId new) = g₂ at hslots ⊢
  have hnodes := hslots.nodes.trans hwalk.done
  have hsafe : g₂.safepoints = (g.rewriteAll old new).safepoints := by
    rw [hslots.done,hwalk.safepoints]
    rfl
  have hnew₂ : g₂.uses.dangling = false → g.uses.dangling = false ∧ (new = noNode ∨ new < g.nodes.length) := by
    intro hd
    rw [hslots.uses] at hd
    obtain ⟨hd,hc⟩ := Bool.or_eq_false_iff.mp hd
    refine ⟨hdang₁ ▸ hd,?_⟩
    by_cases hno : new = noNode
    · exact .inl hno
    refine .inr (hnew.mp ?_)
    simpa [hno] using hc
  have hlen₂ := (congrArg length hslots.nodes).trans hlen
  have hin₂ : ∀ u, g₂.inputsOf u = g₁.inputsOf u := by
    intro u
    simp only [inputsOf,hslots.nodes]
  have husers₂ : g₂.uses.users = g₁.uses.users := by rw [hslots.uses]
  refine ⟨hnodes,hsafe,⟨?_,?_⟩,g₂.uses.users,g₂.uses.spUsers,g₂.uses.dangling,?_⟩
  · refine ⟨?_,fun {id} hid u => ?_,fun hd u inp hinp => ?_⟩
    · exact (congrArg length husers₂).trans (hwalk.length.trans
        (congrArg length hslots.nodes).symm)
    · have hid₁ : id < g₁.nodes.length := by
        rw [hlen]
        exact hlen₂ ▸ hid
      refine (congrArg (fun users => (bucket users id).count u) husers₂).trans ?_
      refine Eq.trans ?_ (congrArg (count id) (hin₂ u).symm)
      by_cases hio : id = old
      · subst hio
        rw [hwalk.gone]
        exact (count_eq_zero.mpr fun hc => not_mem_nil (hwalk.rest u hc)).symm
      · exact hwalk.count hid₁ hio u
    obtain ⟨hd,hrange⟩ := hnew₂ hd
    have hrw : g₂.inputsOf u = rewriteSlots old new (g.inputsOf u) := by
      unfold inputsOf
      rw [hnodes]
      simp only [getElem?_map]
      cases g.nodes[u]? with
      | none => rfl
      | some node => rfl
    have hinp : inp ∈ rewriteSlots old new (g.inputsOf u) := hrw ▸ hinp
    obtain ⟨v,hv,hvi⟩ := mem_map.mp hinp
    split at hvi
    · exact hvi ▸ hlen₂ ▸ hrange
    · exact hvi ▸ hlen₂ ▸ hex.users.inside hd u v hv
  · refine ⟨hslots.length,fun {r id} hr hid => ?_,fun hd {r id} hr => ?_⟩
    · refine hslots.listed hr hid ?_
      intro hc
      exact not_mem_nil (hslots.rest r (hc ▸ hr))
    obtain ⟨hd,hrange⟩ := hnew₂ hd
    rcases hslots.inside hr with ⟨r',hr'⟩ | rfl
    · have hr' : slotValue g.safepoints r' = some id := hwalk.safepoints ▸ hr'
      exact hlen₂ ▸ hex.slots.inside hd hr'
    · exact hlen₂ ▸ hrange
  · have huses : g₂.uses = { g.uses with
        users := g₂.uses.users, spUsers := g₂.uses.spUsers, dangling := g₂.uses.dangling } := by
      rw [hslots.uses]
      simp only
      rw [hwalk.uses]
    rw [huses]

end CratonVM.Jit.Graph
