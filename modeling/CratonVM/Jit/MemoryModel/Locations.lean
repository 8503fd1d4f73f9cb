import CratonVM.Jit.MemoryModel.Provenance

/-!
Locations and the cells they cover. The effect of a memory node covers the cell its operation
accesses, and locations that may not alias cover no cell in common.
-/
namespace CratonVM.Jit
open ObjectHeap Option Prod

/-- The location names the cell, under the current values and headers. -/
def AliasClass.CoversCell (layout : Layout) (env : Values) (header : Nat → Option Header)
    (c : JavaCell) : AliasClass → Prop
  | .any => True
  | .field base offset decl => ∃ o slot, c = .slot o (.field slot) ∧ env base = some (.ref o) ∧
      (∀ k, offset = .const k → slot = k) ∧
      ∀ d, decl = some d → ∃ classId, header o = some (.object classId) ∧ layout.owner classId slot = d
  | .arrayElem array index elem => ∃ o i length, c = .slot o (.elem i) ∧ env array = some (.ref o) ∧
      header o = some (.array elem length) ∧ ∀ k, index = .const k → i = k
  | .static classId f => c = .global (classId,f)
  | _ => False

def ConstsHold (g : MemGraph) (env : Values) : Prop :=
  ∀ {id node c u}, g.nodeOpt id = some node → node.op = .const c → env id = some u → u = .word c

section
variable {g : MemGraph} {layout : Layout} {initial : JavaHeap} {past : List (Nat × JavaVal)}
  {env : Values} {h : JavaHeap}

theorem Activation.constsHold (hr : Activation g layout initial past env h) : ConstsHold g env := by
  induction hr with
  | start => exact fun _ _ hu => by cases hu
  | @step past env h h' n v hr hs ih => ?_
  | outside _ _ ih => exact ih
  intro id node c u hn hop hu
  by_cases hid : id = n
  · subst hid
    rw [Function.update_self] at hu
    obtain rfl := some.inj hu
    cases hs with
    | access he =>
      obtain ⟨a,hact,_⟩ := he
      simp [MemGraph.act,hn,hop] at hact
    | param hn' hop' =>
      obtain rfl := some.inj (hn.symm.trans hn')
      rw [hop] at hop'
      cases hop'
    | phi hn' hop' =>
      obtain rfl := some.inj (hn.symm.trans hn')
      rw [hop] at hop'
      cases hop'
    | const hn' hop' =>
      obtain rfl := some.inj (hn.symm.trans hn')
      rw [hop] at hop'
      rw [Op.const.inj hop']
    | other hn' _ hop' =>
      obtain rfl := some.inj (hn.symm.trans hn')
      simp [hop,Op.isFixed] at hop'
  · rw [Function.update_of_ne hid] at hu
    exact ih hn hop hu

theorem Activation.disjoint (hr : Activation g layout initial past env h) {a b : AliasClass}
    {c : JavaCell} (halias : g.mayAlias a b = false) (ha : a.CoversCell layout env h.header c)
    (hb : b.CoversCell layout env h.header c) : False := by
  have bases : ∀ {x y o}, env x = some (.ref o) → env y = some (.ref o) → g.refsMayAlias x y = true := by
    intro x y o hx hy
    by_contra hfalse
    exact hr.no_common_object (by simpa using hfalse) (hr.mem_past hx) (hr.mem_past hy)
  have offsets : ∀ {i j : AccessOffset} {s : Int}, (∀ k, i = .const k → s = k) →
      (∀ k, j = .const k → s = k) → i.provablyDistinct j = false := by
    intro i j s hi hj
    cases i <;> cases j <;> simp_all [AccessOffset.provablyDistinct]
  cases a with
  | none => exact ha
  | arrayLength _ => exact ha
  | monitor _ => exact ha
  | raw => exact ha
  | any =>
    cases b with
    | none => exact hb
    | _ => simp [Graph.mayAlias] at halias
  | field x i d => ?_
  | arrayElem x i k =>
    obtain ⟨o,s,len,rfl,hx,hk,hi⟩ := ha
    cases b with
    | any => simp [Graph.mayAlias] at halias
    | field _ _ _ =>
      obtain ⟨_,_,hc,_⟩ := hb
      cases hc
    | arrayElem y j k' => ?_
    | static _ _ => cases hb
    | _ => exact hb
    obtain ⟨o',s',len',hc,hy,hk',hj⟩ := hb
    obtain ⟨rfl,hs⟩ := Cell.slot.inj hc
    obtain rfl := Slot.elem.inj hs
    rw [hk] at hk'
    obtain ⟨rfl,_⟩ := Header.array.inj (some.inj hk')
    simp [Graph.mayAlias,offsets hi hj,bases hx hy] at halias
  | static cls f =>
    obtain rfl : c = .global (cls,f) := ha
    cases b with
    | any => simp [Graph.mayAlias] at halias
    | static cls' f' =>
      have he := Cell.global.inj hb
      obtain ⟨rfl,rfl⟩ := mk.inj he
      simp [Graph.mayAlias] at halias
    | field _ _ _ =>
      obtain ⟨_,_,hc,_⟩ := hb
      cases hc
    | arrayElem _ _ _ =>
      obtain ⟨_,_,_,hc,_⟩ := hb
      cases hc
    | _ => exact hb
  obtain ⟨o,s,rfl,hx,hi,hd⟩ := ha
  cases b with
  | any => simp [Graph.mayAlias] at halias
  | field y j e => ?_
  | arrayElem _ _ _ =>
    obtain ⟨_,_,_,hc,_⟩ := hb
    cases hc
  | static _ _ => cases hb
  | _ => exact hb
  obtain ⟨o',s',hc,hy,hj,he⟩ := hb
  obtain ⟨rfl,hs⟩ := Cell.slot.inj hc
  obtain rfl := Slot.field.inj hs
  -- one slot has one owner
  have hdecl : d.isSome = true → e.isSome = true → d = e := by
    intro hd' he'
    obtain ⟨d,rfl⟩ := isSome_iff_exists.mp hd'
    obtain ⟨e,rfl⟩ := isSome_iff_exists.mp he'
    obtain ⟨cls,hcls,rfl⟩ := hd d rfl
    obtain ⟨cls',hcls',rfl⟩ := he e rfl
    rw [hcls] at hcls'
    rw [Header.object.inj (some.inj hcls')]
  simp [Graph.mayAlias,offsets hi hj,bases hx hy] at halias
  exact halias.2 (hdecl halias.1.1.2 halias.1.2)

end

/-- An offset edge as a location records it. -/
def offsetOf : Option Nat → AccessOffset
  | some id => if id = noNode then .absent else .dynamic id
  | none => .absent

theorem accessLocation_load {node : Node} {p : Nat × Option Nat} (h : loadOperands node = some p) :
    accessLocation node .fieldRead = .field p.1 (offsetOf p.2) none := by
  unfold loadOperands at h
  unfold accessLocation
  split at h <;> rename_i hi
  · obtain rfl := some.inj h
    simp [hi,dynAt,offsetOf]
  · obtain rfl := some.inj h
    simp [hi,dynAt,offsetOf]
  · obtain rfl := some.inj h
    simp [hi,dynAt,offsetOf]
  · obtain rfl := some.inj h
    simp [hi,dynAt,offsetOf]
  · cases h

theorem accessLocation_store {node : Node} {p : Nat × Option Nat × Nat} (h : storeOperands node = some p) :
    accessLocation node .fieldWrite = .field p.1 (offsetOf p.2.1) none := by
  unfold storeOperands at h
  unfold accessLocation
  split at h <;> rename_i hi
  · obtain rfl := some.inj h
    simp [hi,offsetOf]
  · obtain rfl := some.inj h
    simp [hi,offsetOf]
  · obtain rfl := some.inj h
    simp [hi,dynAt,offsetOf]
  · cases h

theorem accessLocation_elem {node : Node} {access : MemAccess} {kind : MemKind} {array index : Nat}
    (hacc : access = .arrayRead ∨ access = .arrayWrite) (hk : node.op.arrayElemKind = some kind)
    (ha : node.inputs[2]? = some array) (hi : node.inputs[3]? = some index) :
    accessLocation node access = .arrayElem array (offsetOf (some index)) kind := by
  have hdec : node.op ≠ .strCharDecode := by
    intro hop
    simp [hop,Op.arrayElemKind] at hk
  match hin : node.inputs with
  | [] | [_] | [_,_] | [_,_,_] => simp [hin] at ha hi
  | _ :: _ :: a :: i :: rest =>
    simp only [hin,List.getElem?_cons_succ,List.getElem?_cons_zero,some.injEq] at ha hi
    subst ha hi
    rcases hacc with rfl | rfl <;> simp [accessLocation,hdec,hin,hk,dynAt,offsetOf]

section
variable {g : MemGraph} {layout : Layout} {env : Values} {header : Nat → Option Header} {n : Nat}
  {node : Node} {c : JavaCell}

variable {offset : Option Nat}

theorem foldOffset_const (hc : ConstsHold g env) {slot k : Int}
    (hs : ∀ id, offset = some id → id ≠ noNode → wordOf env id = some slot)
    (hk : g.foldOffset (offsetOf offset) = .const k) : slot = k := by
  cases offset with
  | none => simp [offsetOf,Graph.foldOffset] at hk
  | some id => ?_
  by_cases hid : id = noNode
  · simp [offsetOf,hid,Graph.foldOffset] at hk
  simp only [offsetOf,hid,if_false,Graph.foldOffset] at hk
  have hs := hs id rfl hid
  unfold wordOf at hs
  cases hn : g.nodeOpt id with
  | none => simp [hn] at hk
  | some node => ?_
  simp only [hn,map_some] at hk
  split at hk
  · rename_i v hop
    obtain rfl := AccessOffset.const.inj hk
    split at hs
    · rename_i w hw
      have hv := hc hn (some.inj hop) hw
      rw [← some.inj hs]
      exact Val.word.inj hv
    · cases hs
  · cases hk

theorem covers_field (hc : ConstsHold g env) {base : Nat}
    (hcell : g.fieldCell layout n env header base offset = some c) (decl : Option Nat)
    (hdecl : ∀ d, decl = some d → g.fieldDeclClass.lookup n = some d) :
    (AliasClass.field base (g.foldOffset (offsetOf offset)) decl).CoversCell layout env header c := by
  obtain ⟨o,ho,hcell⟩ := bind_eq_some_iff.mp hcell
  obtain ⟨slot,hs,hcell⟩ := bind_eq_some_iff.mp hcell
  have hbase : env base = some (.ref o) := by
    unfold objectOf at ho
    split at ho
    · rename_i heq
      rw [heq,some.inj ho]
    · cases ho
  split at hcell
  · rename_i classId hhdr
    split at hcell
    · rename_i hrow
      obtain rfl := some.inj hcell
      refine ⟨o,slot,rfl,hbase,fun k hk => foldOffset_const hc ?_ hk,fun d hd => ⟨classId,hhdr,?_⟩⟩
      · rintro id rfl hid
        simpa [slotOf,hid] using hs
      · simpa [MemGraph.rowNames,hdecl d hd] using hrow
    · cases hcell
  · cases hcell

theorem covers_elem (hc : ConstsHold g env) {kind : MemKind} {array index : Nat}
    (hcell : elemCell kind env header array index = some c) :
    (AliasClass.arrayElem array (g.foldOffset (offsetOf (some index))) kind).CoversCell layout env header
      c := by
  obtain ⟨o,ho,hcell⟩ := bind_eq_some_iff.mp hcell
  obtain ⟨i,hi,hcell⟩ := bind_eq_some_iff.mp hcell
  have hbase : env array = some (.ref o) := by
    unfold objectOf at ho
    split at ho
    · rename_i heq
      rw [heq,some.inj ho]
    · cases ho
  split at hcell
  · rename_i k length hhdr
    split at hcell
    · rename_i hin
      obtain rfl := some.inj hcell
      refine ⟨o,i,length,rfl,hbase,by rw [hhdr,hin.1],fun k' hk' => foldOffset_const hc ?_ hk'⟩
      rintro id ⟨⟩ _
      exact hi
    · cases hcell
  · cases hcell

/-- The ops with an effect of their own beside the shape table. -/
def Op.isStaticOrUnbox : Op → Bool
  | .loadStatic _ _ _ _ | .storeStatic _ _ _ _ | .unbox _ _ => true
  | _ => false

theorem memoryEffect_eq_table (hn : g.nodeOpt n = some node) (hop : node.op.isStaticOrUnbox = false) :
    g.memoryEffect n = g.tableEffect n node := by
  have hdirect : g.directStaticEffect node = none := by
    unfold MemGraph.directStaticEffect MemGraph.directStaticAccess MemGraph.directStaticRefStore
    cases hop' : node.op <;> simp_all [Op.isStaticOrUnbox]
  have hraw : scopedRawEffect node = none := by
    unfold scopedRawEffect
    cases hop' : node.op <;> simp_all [Op.isStaticOrUnbox]
  have hplain : g.plainStaticEffect node = none := by
    unfold MemGraph.plainStaticEffect
    cases hop' : node.op <;> simp_all [Op.isStaticOrUnbox]
  simp [MemGraph.memoryEffect,hn,hdirect,hraw,hplain]

/-- What the effect of a node says about the operation it performs. -/
def Describes (layout : Layout) (env : Values) (header : Nat → Option Header) (e : MemEffect) :
    JavaAct → Prop
  | .yield _ => True
  | .read c => e.reads.CoversCell layout env header c
  | .write c _ => e.writes.CoversCell layout env header c
  | .alloc _ => e.safepoint = true ∧ e.allocates = true

/-- A location with the declaring class the table adds. -/
def MemGraph.declared (g : MemGraph) (n : Nat) (cls : AliasClass) : AliasClass :=
  match g.fieldIdentityOf n with
  | some decl => withFieldDecl cls decl
  | none => cls

theorem tableEffect_reads :
    (g.tableEffect n node).reads = g.declared n (g.foldOffsets (effectOfNode node).reads) := by
  unfold MemGraph.tableEffect MemGraph.declared
  cases g.fieldIdentityOf n <;> rfl

theorem tableEffect_writes :
    (g.tableEffect n node).writes = g.declared n (g.foldOffsets (effectOfNode node).writes) := by
  unfold MemGraph.tableEffect MemGraph.declared
  cases g.fieldIdentityOf n <;> rfl

theorem declared_elem {array : Nat} {index : AccessOffset} {kind : MemKind} :
    g.declared n (.arrayElem array index kind) = .arrayElem array index kind := by
  unfold MemGraph.declared
  cases g.fieldIdentityOf n <;> rfl

theorem covers_table (hc : ConstsHold g env) {base : Nat}
    (hcell : g.fieldCell layout n env header base offset = some c) :
    (g.declared n (g.foldOffsets (.field base (offsetOf offset) none))).CoversCell layout env header
      c := by
  unfold MemGraph.declared
  cases hid : g.fieldIdentityOf n with
  | none => exact covers_field hc hcell none nofun
  | some decl => ?_
  refine covers_field hc hcell (some decl) fun d hd => ?_
  obtain rfl := some.inj hd
  unfold MemGraph.fieldIdentityOf at hid
  split at hid
  · cases hid
  split at hid
  · exact hid
  · exact hid
  · cases hid

theorem memoryEffect_loadStatic {cls f tag : Nat} {vol : Bool} (hn : g.nodeOpt n = some node)
    (hop : node.op = .loadStatic cls f tag vol) :
    (g.memoryEffect n).reads = .static cls f ∨ (g.memoryEffect n).reads = .any := by
  have hraw : scopedRawEffect node = none := by simp [scopedRawEffect,hop]
  unfold MemGraph.memoryEffect
  simp only [hn,hraw,ite_self]
  cases hd : g.directStaticEffect node with
  | some e => ?_
  | none =>
    cases hp : g.plainStaticEffect node with
    | some e =>
      left
      unfold MemGraph.plainStaticEffect plainStaticReadEffect at hp
      cases vol <;> simp [hop,MemEffect.read] at hp
      rw [getD_some,← hp.2]
    | none =>
      have htable : effectOfNode node = .opaque_ := by
        simp [effectOfNode,hop,Op.memoryShape,effectOfAccess]
      have hid : g.fieldIdentityOf n = none := by simp [MemGraph.fieldIdentityOf,hn,hop]
      simp [MemGraph.tableEffect,hid,htable,MemEffect.opaque_,Graph.foldOffsets]
  left
  unfold MemGraph.directStaticEffect MemGraph.directStaticAccess MemGraph.directStaticRefStore at hd
  cases vol with
  | true => simp [hop] at hd
  | false => ?_
  simp only [hop] at hd
  split at hd
  · split at hd
    · rename_i cell isWrite hsome
      split at hsome
      · obtain ⟨rfl,rfl⟩ := mk.inj (some.inj hsome)
        obtain rfl := some.inj hd
        rfl
      · cases hsome
    · cases hd
  · cases hd

theorem memoryEffect_storeStatic {cls f tag : Nat} {vol : Bool} (hn : g.nodeOpt n = some node)
    (hop : node.op = .storeStatic cls f tag vol) :
    (g.memoryEffect n).writes = .static cls f ∨ (g.memoryEffect n).writes = .any := by
  have hraw : scopedRawEffect node = none := by simp [scopedRawEffect,hop]
  have hplain : g.plainStaticEffect node = none := by simp [MemGraph.plainStaticEffect,hop]
  unfold MemGraph.memoryEffect
  simp only [hn,hraw,ite_self,hplain]
  cases hd : g.directStaticEffect node with
  | some e => ?_
  | none =>
    have htable : effectOfNode node = .opaque_ := by
      simp [effectOfNode,hop,Op.memoryShape,effectOfAccess]
    have hid : g.fieldIdentityOf n = none := by simp [MemGraph.fieldIdentityOf,hn,hop]
    simp [MemGraph.tableEffect,hid,htable,MemEffect.opaque_,Graph.foldOffsets]
  left
  unfold MemGraph.directStaticEffect MemGraph.directStaticAccess MemGraph.directStaticRefStore at hd
  cases vol with
  | true => simp [hop] at hd
  | false => ?_
  simp only [hop] at hd
  split at hd
  · split at hd
    · rename_i cell isWrite hsome
      split at hsome
      · obtain ⟨rfl,rfl⟩ := mk.inj (some.inj hsome)
        obtain rfl := some.inj hd
        rfl
      · cases hsome
    split at hd
    · obtain rfl := some.inj hd
      rfl
    · cases hd
  · cases hd

theorem allocates_table {hdr : Header} (hn : g.nodeOpt n = some node)
    (he : effectOfNode node = .allocation) (hop : node.op.isStaticOrUnbox = false) :
    Describes layout env header (g.memoryEffect n) (.alloc hdr) := by
  rw [memoryEffect_eq_table hn hop]
  unfold Describes MemGraph.tableEffect
  rw [he]
  cases g.fieldIdentityOf n <;> exact ⟨rfl,rfl⟩

theorem describes_act (hc : ConstsHold g env) {a : JavaAct} (ha : g.act layout n env header = some a) :
    Describes layout env header (g.memoryEffect n) a := by
  obtain ⟨node,hn,ha⟩ := bind_eq_some_iff.mp ha
  cases hop : node.op with
  | load kind =>
    simp only [hop,bind_eq_some_iff,map_eq_some_iff] at ha
    obtain ⟨p,hp,cell,hcell,rfl⟩ := ha
    have hreads : (effectOfNode node).reads = .field p.1 (offsetOf p.2) none := by
      simp only [effectOfNode,hop,Op.memoryShape,effectOfAccess,accessLocation_load hp]
      split <;> rfl
    unfold Describes
    rw [memoryEffect_eq_table hn (by simp [hop,Op.isStaticOrUnbox]),tableEffect_reads,hreads]
    exact covers_table hc hcell
  | store kind =>
    simp only [hop,bind_eq_some_iff,map_eq_some_iff] at ha
    obtain ⟨p,hp,cell,hcell,v,hv,rfl⟩ := ha
    have hwrites : (effectOfNode node).writes = .field p.1 (offsetOf p.2.1) none := by
      simp only [effectOfNode,hop,Op.memoryShape,effectOfAccess,accessLocation_store hp]
      split <;> rfl
    unfold Describes
    rw [memoryEffect_eq_table hn (by simp [hop,Op.isStaticOrUnbox]),tableEffect_writes,hwrites]
    exact covers_table hc hcell
  | arrayLoad kind => ?_
  | arrayStore kind =>
    simp only [hop,bind_eq_some_iff,map_eq_some_iff] at ha
    obtain ⟨array,harray,index,hindex,value,hvalue,cell,hcell,v,hv,rfl⟩ := ha
    have hwrites : (effectOfNode node).writes = .arrayElem array (offsetOf (some index)) kind := by
      simp only [effectOfNode,hop,Op.memoryShape,effectOfAccess]
      exact accessLocation_elem (.inr rfl) (by simp [hop,Op.arrayElemKind]) harray hindex
    unfold Describes
    rw [memoryEffect_eq_table hn (by simp [hop,Op.isStaticOrUnbox]),tableEffect_writes,hwrites,
      Graph.foldOffsets,declared_elem]
    exact covers_elem hc hcell
  | arrayLength =>
    simp only [hop,bind_eq_some_iff,map_eq_some_iff] at ha
    obtain ⟨array,harray,length,hlength,rfl⟩ := ha
    trivial
  | new classId _ =>
    simp only [hop,some.injEq] at ha
    subst ha
    exact allocates_table hn (by simp [effectOfNode,hop,Op.memoryShape,effectOfAccess])
      (by simp [hop,Op.isStaticOrUnbox])
  | newArray elementType _ =>
    simp only [hop,bind_eq_some_iff,map_eq_some_iff] at ha
    obtain ⟨_,_,_,_,_,_,rfl⟩ := ha
    exact allocates_table hn (by simp [effectOfNode,hop,Op.memoryShape,effectOfAccess])
      (by simp [hop,Op.isStaticOrUnbox])
  | loadStatic cls f tag vol =>
    simp only [hop,some.injEq] at ha
    subst ha
    unfold Describes
    rcases memoryEffect_loadStatic hn hop with he | he
    · rw [he]
      rfl
    rw [he]
    trivial
  | storeStatic cls f tag vol =>
    simp only [hop,bind_eq_some_iff,map_eq_some_iff] at ha
    obtain ⟨value,hvalue,v,hv,rfl⟩ := ha
    unfold Describes
    rcases memoryEffect_storeStatic hn hop with he | he
    · rw [he]
      rfl
    rw [he]
    trivial
  | _ => simp [hop] at ha
  simp only [hop,bind_eq_some_iff,map_eq_some_iff] at ha
  obtain ⟨array,harray,index,hindex,cell,hcell,rfl⟩ := ha
  have hreads : (effectOfNode node).reads = .arrayElem array (offsetOf (some index)) kind := by
    simp only [effectOfNode,hop,Op.memoryShape,effectOfAccess]
    exact accessLocation_elem (.inl rfl) (by simp [hop,Op.arrayElemKind]) harray hindex
  unfold Describes
  rw [memoryEffect_eq_table hn (by simp [hop,Op.isStaticOrUnbox]),tableEffect_reads,hreads,
    Graph.foldOffsets,declared_elem]
  exact covers_elem hc hcell

end
end CratonVM.Jit
