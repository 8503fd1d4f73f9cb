import CratonVM.Jit.Ir.UseListRuns

/-!
What is answered from current use lists, against the scan of the whole graph, after any run.
-/
namespace CratonVM.Jit
open Multimap List Prod

/-- One entry for every input slot that names `id`. -/
def scannedUsers (nodes : List (Node × Nat)) (id : Nat) : List Nat :=
  nodes.flatMap fun (node,u) => List.replicate (node.inputs.count id) u

theorem count_scannedUsers (nodes : List Node) (k id u : Nat) :
    (scannedUsers (nodes.zipIdx k) id).count u =
      if k ≤ u then ((nodes[u-k]?.map (·.inputs)).getD []).count id else 0 := by
  induction nodes generalizing k with
  | nil => simp [scannedUsers]
  | cons node nodes ih => ?_
  have hcons : scannedUsers ((node :: nodes).zipIdx k) id =
      replicate (node.inputs.count id) k ++ scannedUsers (nodes.zipIdx (k+1)) id := by
    simp [scannedUsers]
  rw [hcons,count_append,ih,count_replicate]
  rcases Nat.lt_trichotomy u k with hu | hu | hu
  · simp [Nat.not_le.mpr hu,Nat.not_le.mpr (Nat.lt_succ_of_lt hu),Nat.ne_of_gt hu]
  · have hnot := Nat.not_succ_le_self k
    simp [hu,hnot]
  have hidx : u-k = (u-(k+1))+1 := by omega
  rw [if_pos (show k+1 ≤ u from hu),if_pos (Nat.le_of_lt hu),hidx,getElem?_cons_succ]
  simp [Nat.ne_of_lt hu]

theorem length_scannedUsers (nodes : List Node) (k id : Nat) :
    (scannedUsers (nodes.zipIdx k) id).length = (nodes.map fun node => node.inputs.count id).sum := by
  induction nodes generalizing k with
  | nil => rfl
  | cons node nodes ih =>
    have hcons : scannedUsers ((node :: nodes).zipIdx k) id =
        replicate (node.inputs.count id) k ++ scannedUsers (nodes.zipIdx (k+1)) id := by
      simp [scannedUsers]
    rw [hcons,length_append,ih,length_replicate,map_cons,sum_cons]

theorem UseLists.users_recordInputs (uses : UseLists) (inputs : List Nat) (u n : Nat) :
    (uses.recordInputs inputs u n).users = inputs.foldl (fun expect inp =>
      if inp ≠ noNode ∧ inp < n then pushAt expect inp u else expect) uses.users := by
  induction inputs generalizing uses with
  | nil => rfl
  | cons d inputs ih => ?_
  refine (ih (uses.recordInput d u n)).trans ?_
  rw [foldl_cons]
  congr 1
  unfold recordInput
  by_cases hno : d = noNode
  · simp [hno]
  · by_cases hd : d < n <;> simp [hno,hd]

namespace Graph
variable {g : Graph}

theorem expectUsers_eq (g : Graph) (uses : UseLists) :
    g.expectUsers = (g.nodes.zipIdx.foldl
      (fun (uses : UseLists) (node,uid) => uses.recordInputs node.inputs uid g.nodes.length)
      { uses with users := replicate g.nodes.length [], dangling := false }).users := by
  have hfold : ∀ (nodes : List (Node × Nat)) (uses : UseLists),
      (nodes.foldl (fun (uses : UseLists) (node,uid) =>
        uses.recordInputs node.inputs uid g.nodes.length) uses).users = nodes.foldl (fun expect (node,uid) => node.inputs.foldl (fun expect inp =>
          if inp ≠ noNode ∧ inp < g.nodes.length then pushAt expect inp uid else expect) expect)
          uses.users := by
    intro nodes
    induction nodes with
    | nil => exact fun _ => rfl
    | cons node nodes ih =>
      intro uses
      rw [foldl_cons,foldl_cons,ih,UseLists.users_recordInputs]
  exact (hfold g.nodes.zipIdx { uses with
    users := replicate g.nodes.length [], dangling := false }).symm

variable {id : Nat}

theorem perm_expectUsers (hn : g.nodes.length ≤ noNode) (hex : g.Exact)
    (hid : id < g.nodes.length) : (bucket g.uses.users id).Perm (bucket g.expectUsers id) := by
  have hstart : UsersExact g.nodes.length (fun _ => []) { g.uses with
      users := replicate g.nodes.length [], dangling := false } :=
    ⟨by simp,by simp [bucket_replicate_nil],by simp⟩
  have hscan := hstart.recordNodes hn g.nodes 0 (fun _ _ => rfl)
  refine perm_iff_count.mpr fun u => ?_
  rw [hex.users.count hid,g.expectUsers_eq g.uses]
  exact (hscan.count hid u).symm

theorem verifyUseLists_of_exact {t : Thread} (hn : g.nodes.length ≤ noNode)
    (hexact : g.useListsCurrent t = true → g.Exact) : g.verifyUseLists t = true := by
  unfold verifyUseLists
  split
  · rfl
  rename_i hcur
  have hex := hexact (by simpa using hcur)
  simp only [Bool.and_eq_true,decide_eq_true_eq,all_eq_true,mem_range,
    isPerm_iff]
  refine ⟨⟨⟨hex.users.length,hex.slots.length⟩,fun id hid => perm_expectUsers hn hex hid⟩,?_⟩
  intro ⟨r,v⟩ hmem
  have hr := mem_slots.mp hmem
  by_cases hv : v < g.nodes.length
  · simp [hex.slots.listed hr hv]
  · simp [Nat.le_of_not_lt hv]

theorem length_bucket_users (hex : g.Exact) (hid : id < g.nodes.length) :
    (bucket g.uses.users id).length = (g.nodes.map fun node => node.inputs.count id).sum := by
  have hperm : (bucket g.uses.users id).Perm (scannedUsers g.nodes.zipIdx id) := by
    refine perm_iff_count.mpr fun u => ?_
    rw [hex.users.count hid,count_scannedUsers,if_pos (Nat.zero_le u),Nat.sub_zero]
    rfl
  rw [hperm.length_eq,length_scannedUsers]

variable {α : Type}

theorem bucket_of_ge {table : List (List α)} {key : Nat} (h : table.length ≤ key) :
    bucket table key = [] := by
  unfold bucket
  rw [getElem?_eq_none h]
  rfl

theorem mem_bucket_users (hex : g.Exact) {u : Nat} (hid : id < g.nodes.length) :
    u ∈ bucket g.uses.users id ↔ id ∈ g.inputsOf u := by
  rw [← count_pos_iff,hex.users.count hid,count_pos_iff]

theorem useCounts_eq {t : Thread} (hexact : g.useListsCurrent t = true → g.Exact) :
    g.useCounts t = g.scanUseCounts := by
  unfold useCounts
  split
  · rename_i hcur
    have hex := hexact hcur
    unfold scanUseCounts
    refine ext_getElem? fun id => ?_
    rw [getElem?_map,getElem?_map]
    by_cases hid : id < g.nodes.length
    · have hlen := length_bucket_users hex hid
      unfold bucket at hlen
      rw [getElem?_range hid]
      rw [getElem?_eq_getElem (hex.users.length ▸ hid)] at hlen ⊢
      simpa using hlen
    rw [getElem?_eq_none (by rw [hex.users.length]; omega),
      getElem?_eq_none (by simpa using hid)]
    rfl
  · rfl

/-- An edge names an id past the end of the graph. -/
def DanglingInput (g : Graph) (id : Nat) : Prop :=
  id ≠ noNode ∧ g.nodes.length ≤ id ∧ ∃ u, id ∈ g.inputsOf u

/-- A snapshot slot names an id past the end of the graph. -/
def DanglingSlot (g : Graph) (id : Nat) : Prop :=
  id ≠ noNode ∧ g.nodes.length ≤ id ∧ ∃ r, slotValue g.safepoints r = some id

theorem mem_inputsOf {u : Nat} :
    id ∈ g.inputsOf u ↔ ∃ node, g.nodes[u]? = some node ∧ id ∈ node.inputs := by
  unfold inputsOf
  cases g.nodes[u]? with
  | none => simp
  | some node => simp

theorem sum_count_eq_zero_iff :
    (g.nodes.map fun node => node.inputs.count id).sum = 0 ↔ ∀ u, id ∉ g.inputsOf u := by
  rw [List.sum_eq_zero_iff_forall_eq_nat]
  constructor
  · intro h u hmem
    obtain ⟨node,hnode,hin⟩ := mem_inputsOf.mp hmem
    have hz := h _ (mem_map.mpr ⟨node,mem_of_getElem? hnode,rfl⟩)
    exact count_eq_zero.mp hz hin
  intro h x hx
  obtain ⟨node,hnode,rfl⟩ := mem_map.mp hx
  obtain ⟨u,hu⟩ := getElem?_of_mem hnode
  exact count_eq_zero.mpr fun hin => h u (mem_inputsOf.mpr ⟨node,hu,hin⟩)

variable (values : List α)

theorem mem_foldl_firsts [DecidableEq α] (out : List α) (x : α) :
    x ∈ values.foldl (fun out v => if v ∈ out then out else out ++ [v]) out ↔ x ∈ out ∨ x ∈ values := by
  induction values generalizing out with
  | nil => simp
  | cons v values ih => ?_
  rw [foldl_cons,ih]
  split
  · rename_i hv
    constructor
    · rintro (h | h)
      · exact .inl h
      · exact .inr (mem_cons_of_mem _ h)
    rintro (h | h)
    · exact .inl h
    rcases mem_cons.mp h with rfl | h
    · exact .inl hv
    · exact .inr h
  · simp [or_assoc]

theorem nodup_foldl_firsts [DecidableEq α] (out : List α) (h : out.Nodup) :
    (values.foldl (fun out v => if v ∈ out then out else out ++ [v]) out).Nodup := by
  induction values generalizing out with
  | nil => exact h
  | cons v values ih => ?_
  rw [foldl_cons]
  refine ih _ ?_
  split
  · exact h
  rename_i hv
  refine nodup_append.mpr ⟨h,by simp,?_⟩
  intro a ha b hb hab
  rw [mem_singleton.mp hb] at hab
  exact hv (hab ▸ ha)

theorem mem_firsts [DecidableEq α] {values : List α} {x : α} :
    x ∈ firsts values ↔ x ∈ values := by
  unfold firsts
  rw [mem_foldl_firsts]
  simp

theorem nodup_firsts [DecidableEq α] : (firsts values).Nodup :=
  nodup_foldl_firsts values [] nodup_nil

theorem nodup_half (values : List Nat) (si : Nat) (kind : SafepointSlotKind) :
    (values.zipIdx.map fun (_,k) => (⟨si,kind,k⟩ : SafepointSlot)).Nodup := by
  have hmap : values.zipIdx.map (fun (_,k) => (⟨si,kind,k⟩ : SafepointSlot))
      = (values.zipIdx.map snd).map fun k => ⟨si,kind,k⟩ := by
    rw [List.map_map]
    rfl
  rw [hmap,zipIdx_map_snd]
  refine List.Nodup.map (fun a b hab => ?_) nodup_range'
  injection hab

theorem nodup_snapshot_slots (sp : SafepointSnapshot) (si : Nat) :
    ((sp.slots si).map fst).Nodup := by
  unfold SafepointSnapshot.slots
  rw [map_append,map_append,List.map_map,List.map_map,List.map_map]
  have hdisjoint : ∀ {a b : List Nat} {k k' : SafepointSlotKind}, k ≠ k' →
      ∀ x ∈ a.zipIdx.map (fun (_,i) => (⟨si,k,i⟩ : SafepointSlot)),
        ∀ y ∈ b.zipIdx.map (fun (_,i) => (⟨si,k',i⟩ : SafepointSlot)), x ≠ y := by
    intro a b k k' hk x hx y hy hxy
    obtain ⟨p,-,rfl⟩ := mem_map.mp hx
    obtain ⟨q,-,rfl⟩ := mem_map.mp hy
    exact hk (congrArg SafepointSlot.kind hxy)
  refine nodup_append.mpr ⟨nodup_append.mpr ⟨nodup_half _ _ _,nodup_half _ _ _,
    hdisjoint nofun⟩,nodup_half _ _ _,?_⟩
  intro x hx y hy
  rcases mem_append.mp hx with hx | hx
  · exact hdisjoint SafepointSlotKind.noConfusion x hx y hy
  · exact hdisjoint SafepointSlotKind.noConfusion x hx y hy

theorem nodup_slots (safepoints : List SafepointSnapshot) : ((slots safepoints).map fst).Nodup := by
  unfold slots
  rw [map_flatMap]
  refine nodup_flatMap.mpr ⟨fun p _ => nodup_snapshot_slots p.1 p.2,?_⟩
  have hidx : (safepoints.zipIdx.map snd).Nodup := by
    rw [zipIdx_map_snd]
    exact nodup_range'
  refine (pairwise_map.mp hidx).imp fun {p q} hpq r hp hq => hpq ?_
  obtain ⟨⟨r',v⟩,hmem,rfl⟩ := mem_map.mp hp
  obtain ⟨⟨r'',v'⟩,hmem',heq⟩ := mem_map.mp hq
  have hp := (SafepointSnapshot.mem_slots.mp hmem).1
  have hq := (SafepointSnapshot.mem_slots.mp hmem').1
  simp only at heq
  rw [← hp,← hq,heq]

section
variable {t : Thread} (hn : g.nodes.length ≤ noNode) (hexact : g.useListsCurrent t = true → g.Exact)
include hn hexact

theorem useCount_eq_iff (id : Nat) : g.useCount t id = g.scanUseCount id ↔
    ¬ (g.useListsCurrent t = true ∧ g.DanglingInput id) := by
  unfold useCount scanUseCount
  by_cases hcur : g.useListsCurrent t = true
  · have hex := hexact hcur
    rw [if_pos hcur]
    by_cases hid : id < g.nodes.length
    · rw [if_neg (ne_noNode hn hid),length_bucket_users hex hid]
      exact ⟨fun _ h => absurd hid (Nat.not_lt.mpr h.2.2.1),fun _ => rfl⟩
    rw [bucket_of_ge (by rw [hex.users.length]; omega),length_nil]
    by_cases hno : id = noNode
    · simp [hno,DanglingInput]
    rw [if_neg hno,eq_comm,sum_count_eq_zero_iff]
    simp [hcur,DanglingInput,hno,Nat.le_of_not_lt hid]
  · simp [hcur]

omit hn hexact in
theorem mem_scanUsersOf {id u : Nat} : u ∈ g.scanUsersOf id ↔ id ≠ noNode ∧ id ∈ g.inputsOf u := by
  unfold scanUsersOf
  by_cases hno : id = noNode
  · simp [hno]
  rw [if_neg hno,mem_inputsOf]
  simp only [List.mem_map,List.mem_filter,List.contains_iff_mem,Prod.exists]
  constructor
  · rintro ⟨node,v,⟨hmem,hin⟩,rfl⟩
    exact ⟨hno,node,List.mem_zipIdx_iff_getElem?.mp hmem,hin⟩
  rintro ⟨-,node,hnode,hin⟩
  exact ⟨node,u,⟨List.mem_zipIdx_iff_getElem?.mpr hnode,hin⟩,rfl⟩

omit hn hexact in
theorem nodup_scanUsersOf (id : Nat) : (g.scanUsersOf id).Nodup := by
  unfold scanUsersOf
  split
  · exact List.nodup_nil
  have hsub : List.Sublist ((g.nodes.zipIdx.filter fun (node,_) => node.inputs.contains id).map
      Prod.snd) (g.nodes.zipIdx.map Prod.snd) := (List.filter_sublist).map _
  refine hsub.nodup ?_
  rw [List.zipIdx_map_snd]
  exact List.nodup_range'

theorem usersOf_perm_iff (id : Nat) : (g.usersOf t id).Perm (g.scanUsersOf id) ↔
    ¬ (g.useListsCurrent t = true ∧ g.DanglingInput id) := by
  by_cases hcur : g.useListsCurrent t = true
  · have hex := hexact hcur
    have hnodup : (g.usersOf t id).Nodup := by
      unfold usersOf
      rw [if_pos hcur]
      exact nodup_firsts _
    have hmem : ∀ u, u ∈ g.usersOf t id ↔ u ∈ bucket g.uses.users id := by
      intro u
      unfold usersOf
      rw [if_pos hcur,mem_firsts]
    rw [perm_ext_iff_of_nodup hnodup (nodup_scanUsersOf id)]
    simp only [hmem,mem_scanUsersOf]
    by_cases hid : id < g.nodes.length
    · simp [mem_bucket_users hex hid,ne_noNode hn hid,DanglingInput,Nat.not_le.mpr hid]
    rw [bucket_of_ge (by rw [hex.users.length]; omega)]
    simp only [not_mem_nil,false_iff,not_and,hcur,DanglingInput,Nat.le_of_not_lt hid,
      true_and,not_exists]
    exact forall_comm
  · simp [usersOf,hcur]

omit hn in
theorem safepointUsersOf_perm_iff (id : Nat) :
    (g.safepointUsersOf t id).Perm (g.scanSafepointUsersOf id) ↔
      ¬ (g.useListsCurrent t = true ∧ g.DanglingSlot id) := by
  unfold safepointUsersOf scanSafepointUsersOf
  by_cases hno : id = noNode
  · simp [hno,DanglingSlot]
  rw [if_neg hno,if_neg hno]
  by_cases hcur : g.useListsCurrent t = true
  · have hex := hexact hcur
    rw [if_pos hcur]
    have hscan : (((slots g.safepoints).filter fun p => p.2 = id).map Prod.fst).Nodup :=
      (List.filter_sublist.map _).nodup (nodup_slots _)
    rw [List.perm_ext_iff_of_nodup (nodup_firsts _) hscan]
    have hlists : ∀ r, r ∈ firsts ((bucket g.uses.spUsers id).filter fun r =>
        slotValue g.safepoints r = some id) ↔ r ∈ bucket g.uses.spUsers id ∧
        slotValue g.safepoints r = some id := by
      intro r
      rw [mem_firsts]
      simp
    have hfound : ∀ r, r ∈ ((slots g.safepoints).filter fun p => p.2 = id).map Prod.fst ↔
        slotValue g.safepoints r = some id := by
      intro r
      rw [← mem_slots]
      simp
    by_cases hid : id < g.nodes.length
    · refine ⟨fun _ h => absurd hid (Nat.not_lt.mpr h.2.2.1),fun _ r => ?_⟩
      refine (hlists r).trans (Iff.trans ?_ (hfound r).symm)
      exact ⟨fun h => h.2,fun h => ⟨hex.slots.listed h hid,h⟩⟩
    rw [bucket_of_ge (by rw [hex.slots.length]; omega)] at hlists ⊢
    refine ⟨fun h hd => ?_,fun h r => ?_⟩
    · obtain ⟨-,-,-,r,hr⟩ := hd
      exact List.not_mem_nil ((hlists r).mp ((h r).mpr ((hfound r).mpr hr))).1
    refine (hlists r).trans (Iff.trans ?_ (hfound r).symm)
    refine ⟨fun h => h.2,fun hr => absurd ⟨hcur,hno,Nat.le_of_not_lt hid,r,hr⟩ h⟩
  · simp [hcur]

end

theorem replaceAllUses_eq {t : Thread} (hn : g.nodes.length ≤ noNode)
    (hexact : g.useListsCurrent t = true → g.Exact) (old new : Nat) :
    (g.replaceAllUses t old new).nodes = (g.rewriteAll old new).nodes ∧
      (g.replaceAllUses t old new).safepoints = (g.rewriteAll old new).safepoints := by
  unfold replaceAllUses
  split
  · rename_i hsame
    subst hsame
    have hid : ∀ values : List Nat, rewriteSlots old old values = values := by
      intro values
      refine (map_congr_left fun v _ => ?_).trans (map_id _)
      split
      · rename_i hv
        exact hv.symm
      · rfl
    refine ⟨((map_congr_left fun node _ => ?_).trans (map_id _)).symm,
      ((map_congr_left fun sp _ => ?_).trans (map_id _)).symm⟩
    · simp [rewriteNode,hid]
    · simp [rewriteSnapshot,hid]
  rename_i hne
  split
  · rename_i hcur
    obtain ⟨hcur,hold⟩ := Bool.and_eq_true_iff.mp hcur
    obtain ⟨hnodes,hsafe,-⟩ :=
      replaceAllUsesTracked_spec (t := t) hn (hexact hcur) hne (isValidId_lt hold)
    exact ⟨hnodes,hsafe⟩
  unfold replaceAllUsesScanning
  simp only
  split
  · exact ⟨rfl,rfl⟩
  · exact ⟨rfl,rfl⟩

end Graph

/-- In every run without foreign writes the lists of every graph describe it on every thread. -/
theorem use_lists_describe_graphs {w : World} (hw : w.Fresh) {events : List Event}
    (hrun : w.NoForeignWrite events) (i token : Nat) :
    let t := (w.run events).thread token
    let g := (w.run events).graph i
    (g.useListsCurrent t = true → g.verifyUseLists t = true) ∧
    (∀ old new, (g.replaceAllUses t old new).nodes = (g.rewriteAll old new).nodes ∧
      (g.replaceAllUses t old new).safepoints = (g.rewriteAll old new).safepoints) ∧
    g.useCounts t = g.scanUseCounts ∧
    ∀ id, (g.useCount t id = g.scanUseCount id ↔
        ¬ (g.useListsCurrent t = true ∧ g.DanglingInput id)) ∧
      ((g.usersOf t id).Perm (g.scanUsersOf id) ↔
        ¬ (g.useListsCurrent t = true ∧ g.DanglingInput id)) ∧
      ((g.safepointUsersOf t id).Perm (g.scanSafepointUsersOf id) ↔
        ¬ (g.useListsCurrent t = true ∧ g.DanglingSlot id)) := by
  intro t g
  have hsound := World.sound_run (fun j => hw.sound j) hrun i
  have hexact : g.useListsCurrent t = true → g.Exact := fun hcur => hsound.of_current hcur
  exact ⟨fun _ => Graph.verifyUseLists_of_exact hsound.size hexact,
    Graph.replaceAllUses_eq hsound.size hexact,Graph.useCounts_eq hexact,fun id =>
    ⟨Graph.useCount_eq_iff hsound.size hexact id,Graph.usersOf_perm_iff hsound.size hexact id,
      Graph.safepointUsersOf_perm_iff hexact id⟩⟩

/-- Two constants and the negation of the first. -/
def negationWorld : World where
  epoch := fun _ => 1
  graph := fun _ =>
    { nodes := [⟨.const 1,.int,[],none,none,false⟩,⟨.const 2,.int,[],none,none,false⟩,
        ⟨.neg,.int,[0],none,none,false⟩]
      safepoints := [⟨0,[2],[],[]⟩]
      uses := .new }

theorem negationWorld_fresh : negationWorld.Fresh := by
  intro i
  exact ⟨rfl,show 3 ≤ noNode by decide⟩

/-- The graph comes back to the thread that made its lists, which reads them on. -/
theorem use_lists_describe_graphs_two_threads :
    negationWorld.NoForeignWrite [⟨1,0,.rebuildUseLists⟩,⟨1,0,.setInput 2 0 1⟩,
      ⟨2,0,.replaceAllUses 1 0⟩,⟨2,1,.writeInputs 2 [1]⟩] ∧
    ((negationWorld.run [⟨1,0,.rebuildUseLists⟩,⟨1,0,.setInput 2 0 1⟩,⟨2,0,.replaceAllUses 1 0⟩,
      ⟨2,1,.writeInputs 2 [1]⟩]).graph 0).useCounts
        ((negationWorld.run [⟨1,0,.rebuildUseLists⟩,⟨1,0,.setInput 2 0 1⟩,⟨2,0,.replaceAllUses 1 0⟩,
          ⟨2,1,.writeInputs 2 [1]⟩]).thread 1) = [1,0,0] := by
  have hrun : negationWorld.NoForeignWrite [⟨1,0,.rebuildUseLists⟩,⟨1,0,.setInput 2 0 1⟩,
      ⟨2,0,.replaceAllUses 1 0⟩,⟨2,1,.writeInputs 2 [1]⟩] := ⟨by decide,by decide,by decide,by decide,trivial⟩
  refine ⟨hrun,?_⟩
  rw [(use_lists_describe_graphs negationWorld_fresh hrun 0 1).2.2.1]
  decide

/-- A write on another thread leaves lists that the first thread takes for current; and on one thread
current lists do not count the edges to an id past the end. -/
theorem use_lists_stale_after_foreign_write :
    (∃ (w : World) (events : List Event), w.Fresh ∧
      ((w.run events).graph 0).useListsCurrent ((w.run events).thread 1) = true ∧
      ((w.run events).graph 0).verifyUseLists ((w.run events).thread 1) = false ∧
      (((w.run events).graph 0).replaceAllUses ((w.run events).thread 1) 1 0).nodes ≠
        (((w.run events).graph 0).rewriteAll 1 0).nodes) ∧
    ∃ (w : World) (events : List Event), w.Fresh ∧
      ((w.run events).graph 0).useCount ((w.run events).thread 1) 5 = 0 ∧
      ((w.run events).graph 0).scanUseCount 5 = 1 :=
  ⟨⟨negationWorld,[⟨1,0,.rebuildUseLists⟩,⟨2,0,.writeInputs 2 [1]⟩],negationWorld_fresh,
    by decide,by decide,by decide⟩,
   ⟨negationWorld,[⟨1,0,.rebuildUseLists⟩,⟨1,0,.setInput 2 0 5⟩],negationWorld_fresh,
    by decide,by decide⟩⟩

end CratonVM.Jit
