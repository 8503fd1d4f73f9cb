import CratonVM.Jit.MemoryModel.Locations

/-!
Nodes that may be reordered commute: each memory node performs one operation on the heap, which
depends on its value operands and on headers that do not change.
-/
namespace CratonVM.Jit
open ObjectHeap Option Function
section
variable {g : MemGraph} {layout : Layout} {env env' : Values} {header header' : Nat → Option Header}
  {n : Nat} {node : Node}

theorem fieldCell_mono (hsub : ∀ o x, header o = some x → header' o = some x) {base : Nat}
    {offset : Option Nat} {c : JavaCell}
    (hcell : g.fieldCell layout n env header base offset = some c) :
    g.fieldCell layout n env header' base offset = some c := by
  unfold MemGraph.fieldCell at hcell ⊢
  obtain ⟨o,ho,hcell⟩ := bind_eq_some_iff.mp hcell
  obtain ⟨slot,hs,hcell⟩ := bind_eq_some_iff.mp hcell
  rw [ho,bind_some,hs,bind_some]
  split at hcell
  · rename_i classId hhdr
    rw [hsub o _ hhdr]
    exact hcell
  · cases hcell

variable {array : Nat}

section
variable (hsub : ∀ o x, header o = some x → header' o = some x)
include hsub

theorem elemCell_mono {kind : MemKind}
    {index : Nat} {c : JavaCell} (hcell : elemCell kind env header array index = some c) :
    elemCell kind env header' array index = some c := by
  unfold elemCell at hcell ⊢
  obtain ⟨o,ho,hcell⟩ := bind_eq_some_iff.mp hcell
  obtain ⟨i,hi,hcell⟩ := bind_eq_some_iff.mp hcell
  rw [ho,bind_some,hi,bind_some]
  split at hcell
  · rename_i k length hhdr
    rw [hsub o _ hhdr]
    exact hcell
  · cases hcell

theorem arrayLengthOf_mono
    {l : Int} (hl : arrayLengthOf env header array = some l) :
    arrayLengthOf env header' array = some l := by
  unfold arrayLengthOf at hl ⊢
  obtain ⟨o,ho,hl⟩ := bind_eq_some_iff.mp hl
  rw [ho,bind_some]
  split at hl
  · rename_i k length hhdr
    rw [hsub o _ hhdr]
    exact hl
  · cases hl

theorem act_mono {a : JavaAct}
    (ha : g.act layout n env header = some a) : g.act layout n env header' = some a := by
  unfold MemGraph.act at ha ⊢
  obtain ⟨node,hn,ha⟩ := bind_eq_some_iff.mp ha
  rw [hn,bind_some]
  cases hop : node.op with
  | load kind =>
    simp only [hop,bind_eq_some_iff,map_eq_some_iff] at ha ⊢
    obtain ⟨p,hp,cell,hcell,rfl⟩ := ha
    exact ⟨p,hp,cell,fieldCell_mono hsub hcell,rfl⟩
  | store kind =>
    simp only [hop,bind_eq_some_iff,map_eq_some_iff] at ha ⊢
    obtain ⟨p,hp,cell,hcell,rest⟩ := ha
    exact ⟨p,hp,cell,fieldCell_mono hsub hcell,rest⟩
  | arrayLoad kind =>
    simp only [hop,bind_eq_some_iff,map_eq_some_iff] at ha ⊢
    obtain ⟨array,harray,index,hindex,cell,hcell,rfl⟩ := ha
    exact ⟨array,harray,index,hindex,cell,elemCell_mono hsub hcell,rfl⟩
  | arrayStore kind =>
    simp only [hop,bind_eq_some_iff,map_eq_some_iff] at ha ⊢
    obtain ⟨array,harray,index,hindex,value,hvalue,cell,hcell,rest⟩ := ha
    exact ⟨array,harray,index,hindex,value,hvalue,cell,elemCell_mono hsub hcell,rest⟩
  | arrayLength =>
    simp only [hop,bind_eq_some_iff,map_eq_some_iff] at ha ⊢
    obtain ⟨array,harray,length,hlength,rfl⟩ := ha
    exact ⟨array,harray,length,arrayLengthOf_mono hsub hlength,rfl⟩
  | _ => simpa only [hop] using ha

end

theorem ne_of_consumes {x i inp : Nat} (hx : MemGraph.consumes node x = false)
    (hi : node.inputs[i]? = some inp) (ht : isMemoryTokenSlot node i = false) : inp ≠ x := by
  rintro rfl
  have hmem : (inp,i) ∈ node.inputs.zipIdx := by
    rw [List.mem_zipIdx_iff_getElem?]
    exact hi
  have := List.any_eq_false.mp hx _ hmem
  simp [ht] at this

theorem not_token {i : Nat} (hop : node.op ≠ .phi) (hi : i ≠ 1) : isMemoryTokenSlot node i = false := by
  unfold isMemoryTokenSlot memoryTokenSlot
  rw [if_neg hop]
  cases hs : node.op.memoryShape with
  | none => simp
  | some shape => ?_
  have hslot : shape.tokenSlot = 1 := by
    cases hop' : node.op <;> simp_all [Op.memoryShape] <;> simp [← hs]
  simp only [bind_some]
  split
  · simp [hslot,Ne.symm hi]
  · simp

theorem not_token_short {i : Nat} (shape : OpMemoryShape) (hop : node.op ≠ .phi)
    (hs : node.op.memoryShape = some shape) (hl : node.inputs.length < shape.minFullArity) :
    isMemoryTokenSlot node i = false := by
  unfold isMemoryTokenSlot memoryTokenSlot
  rw [if_neg hop,hs,bind_some,if_neg (by omega)]
  simp

theorem not_mem_valueOperands {x : Nat} (hop : node.op ≠ .phi) (hx : MemGraph.consumes node x = false) :
    x ∉ valueOperands node := by
  have drop : x ∉ node.inputs.drop 2 := by
    intro hmem
    obtain ⟨i,hi⟩ := List.getElem?_of_mem hmem
    rw [List.getElem?_drop] at hi
    exact ne_of_consumes hx hi (not_token hop (by omega)) rfl
  have far : ∀ {i}, i ≠ 1 → node.inputs[i]? ≠ some x :=
    fun hi h => ne_of_consumes hx h (not_token hop hi) rfl
  have short : ∀ {shape : OpMemoryShape} {i}, node.op.memoryShape = some shape →
      node.inputs.length < shape.minFullArity → node.inputs[i]? ≠ some x :=
    fun hs hl h => ne_of_consumes hx h (not_token_short _ hop hs hl) rfl
  have h0 := far (i := 0) (by omega)
  have h2 := far (i := 2) (by omega)
  have h3 := far (i := 3) (by omega)
  have h4 := far (i := 4) (by omega)
  cases hop' : node.op with
  | load kind => ?_
  | store kind =>
    have h1 := short (i := 1) (by simp [hop',Op.memoryShape]; rfl)
    simp only [valueOperands,hop',storeOperands]
    split <;> rename_i hin <;> simp [hin,eq_comm] at h0 h1 h2 h3 h4 ⊢
    · exact ⟨h0,h1⟩
    · exact ⟨h2,h3⟩
    · exact ⟨h2,h4,h3⟩
  | arrayLength =>
    simp only [valueOperands,hop',lengthOperand]
    split <;> rename_i hin <;> simp [hin,eq_comm] at h0 h2 ⊢
    · exact h0
    · exact h0
    · exact h2
  | _ => simpa [valueOperands,hop'] using drop
  have h1 := short (i := 1) (by simp [hop',Op.memoryShape]; rfl)
  simp only [valueOperands,hop',loadOperands]
  split <;> rename_i hin <;> simp [hin,eq_comm] at h0 h1 h2 h3 ⊢
  · exact h0
  · exact ⟨h0,h1⟩
  · exact h2
  · exact ⟨h2,h3⟩

theorem fieldCell_congr {base : Nat} {offset : Option Nat} (hb : env' base = env base)
    (ho : ∀ id ∈ offset, env' id = env id) :
    g.fieldCell layout n env' header base offset = g.fieldCell layout n env header base offset := by
  have hslot : slotOf layout n env' offset = slotOf layout n env offset := by
    cases offset with
    | none => rfl
    | some id => simp [slotOf,wordOf,ho id rfl]
  unfold MemGraph.fieldCell objectOf
  rw [hb,hslot]

theorem elemCell_congr {kind : MemKind} {index : Nat} (ha : env' array = env array)
    (hi : env' index = env index) :
    elemCell kind env' header array index = elemCell kind env header array index := by
  unfold elemCell objectOf wordOf
  rw [ha,hi]

theorem act_congr (hn : g.nodeOpt n = some node) (henv : ∀ m ∈ valueOperands node, env' m = env m) :
    g.act layout n env' header = g.act layout n env header := by
  unfold MemGraph.act
  rw [hn,bind_some,bind_some]
  have drop : ∀ i m, 2 ≤ i → node.inputs[i]? = some m → m ∈ node.inputs.drop 2 := by
    intro i m hi hm
    refine List.mem_of_getElem? (i := i-2) ?_
    rw [List.getElem?_drop,show 2+(i-2) = i by omega,hm]
  cases hop : node.op with
  | load kind =>
    simp only [valueOperands,hop] at henv ⊢
    cases hp : loadOperands node with
    | none => rfl
    | some p =>
      simp only [hp,map_some,getD_some] at henv
      rw [bind_some,bind_some,fieldCell_congr (henv _ (by simp)) fun id hid => henv _ (by simp_all)]
  | store kind =>
    simp only [valueOperands,hop] at henv ⊢
    cases hp : storeOperands node with
    | none => rfl
    | some p =>
      simp only [hp,map_some,getD_some] at henv
      rw [bind_some,bind_some,fieldCell_congr (henv _ (by simp)) fun id hid => henv _ (by simp_all),
        henv _ (by simp : p.2.2 ∈ _)]
  | arrayLoad kind =>
    simp only [valueOperands,hop] at henv ⊢
    cases ha : node.inputs[2]? with
    | none => rfl
    | some array => ?_
    cases hi : node.inputs[3]? with
    | none => rfl
    | some index =>
      simp only [bind_some]
      rw [elemCell_congr (henv _ (drop 2 _ (by omega) ha)) (henv _ (drop 3 _ (by omega) hi))]
  | arrayStore kind => ?_
  | arrayLength =>
    simp only [valueOperands,hop] at henv ⊢
    cases ha : lengthOperand node with
    | none => rfl
    | some array =>
      simp only [bind_some,arrayLengthOf,objectOf]
      rw [henv array (by simp [ha])]
  | newArray elementType _ =>
    simp only [valueOperands,hop] at henv ⊢
    cases ha : node.inputs[2]? with
    | none => rfl
    | some length =>
      simp only [bind_some,newLength,wordOf]
      rw [henv _ (drop 2 _ (by omega) ha)]
  | storeStatic cls f tag vol =>
    simp only [valueOperands,hop] at henv ⊢
    cases ha : node.inputs[2]? with
    | none => rfl
    | some value =>
      simp only [bind_some]
      rw [henv _ (drop 2 _ (by omega) ha)]
  | _ => rfl
  simp only [valueOperands,hop] at henv ⊢
  cases ha : node.inputs[2]? with
  | none => rfl
  | some array => ?_
  cases hi : node.inputs[3]? with
  | none => rfl
  | some index => ?_
  cases hv : node.inputs[4]? with
  | none => rfl
  | some value =>
    simp only [bind_some]
    rw [elemCell_congr (henv _ (drop 2 _ (by omega) ha)) (henv _ (drop 3 _ (by omega) hi)),
      henv _ (drop 4 _ (by omega) hv)]

end

/-- What an allowed reordering has checked of the two effects. -/
structure Independent (g : MemGraph) (e e' : MemEffect) : Prop where
  alloc : ¬(e.allocates = true ∧ e'.allocates = true)
  writeRead : g.mayAlias e.writes e'.reads = false
  readWrite : g.mayAlias e.reads e'.writes = false
  writeWrite : g.mayAlias e.writes e'.writes = false
  safepoint : ¬(e.safepoint = true ∧ e'.isWrite = true)
  safepoint' : ¬(e'.safepoint = true ∧ e.isWrite = true)

theorem mayAlias_none (g : Graph) (a : AliasClass) : g.mayAlias .none a = false := by
  cases a <;> rfl

theorem mayAlias_none' (g : Graph) (a : AliasClass) : g.mayAlias a .none = false := by
  cases a <;> rfl

variable {e : MemEffect}

theorem isInert_iff (h : e.isInert = true) :
    e.reads = .none ∧ e.writes = .none ∧ e.safepoint = false ∧ e.allocates = false := by
  simp only [MemEffect.isInert,MemEffect.touchesMemory,Bool.and_eq_true,Bool.not_eq_true',
    Bool.or_eq_false_iff,decide_eq_false_iff_not,not_not] at h
  exact ⟨h.1.1.1.1,h.1.1.1.2,h.1.2,h.2⟩

theorem independent_of_allowed {g : MemGraph} {e' : MemEffect}
    (h : (g.mayReorderEffects e e').isAllowed = true) : Independent g e e' := by
  unfold MemGraph.mayReorderEffects at h
  split at h
  · rename_i hinert
    rcases Bool.or_eq_true _ _ ▸ hinert with hinert | hinert
    · obtain ⟨hr,hw,hs,ha⟩ := isInert_iff hinert
      exact ⟨by simp [ha],by rw [hw,mayAlias_none],by rw [hr,mayAlias_none],by rw [hw,mayAlias_none],
        by simp [hs],by simp [MemEffect.isWrite,hw]⟩
    obtain ⟨hr,hw,hs,ha⟩ := isInert_iff hinert
    exact ⟨by simp [ha],by rw [hr,mayAlias_none'],by rw [hw,mayAlias_none'],by rw [hw,mayAlias_none'],
      by simp [MemEffect.isWrite,hw],by simp [hs]⟩
  split at h
  · cases h
  split at h
  · cases h
  split at h
  · cases h
  split at h
  · cases h
  split at h
  · cases h
  split at h
  · cases h
  rename_i halloc halias hsafe
  simp only [Bool.or_eq_true,not_or,Bool.not_eq_true] at halias
  simp only [Bool.or_eq_true,Bool.and_eq_true,not_or] at hsafe
  exact ⟨by simpa using halloc,halias.1.1,halias.1.2,halias.2,hsafe.1,hsafe.2⟩

theorem isWrite_of_covers {layout : Layout} {env : Values} {header : Nat → Option Header} {c : JavaCell} (h : e.writes.CoversCell layout env header c) : e.isWrite = true := by
  unfold MemEffect.isWrite
  cases hw : e.writes with
  | none =>
    rw [hw] at h
    exact h.elim
  | _ => simp

section
variable {g : MemGraph} {layout : Layout} {initial : JavaHeap} {past : List (Nat × JavaVal)}
  {env : Values} {h : JavaHeap}

theorem Activation.apart (hr : Activation g layout initial past env h) {e e' : MemEffect}
    (hi : Independent g e e') {a b : JavaAct} (ha : Describes layout env h.header e a)
    (hb : Describes layout env h.header e' b) : a.Apart b := by
  cases a with
  | yield w => cases b <;> trivial
  | read c =>
    cases b with
    | write c' v =>
      rintro rfl
      exact hr.disjoint hi.readWrite ha hb
    | _ => trivial
  | write c v => ?_
  | alloc hdr =>
    cases b with
    | write c v => exact hi.safepoint ⟨ha.1,isWrite_of_covers hb⟩
    | alloc hdr' => exact hi.alloc ⟨ha.2,hb.2⟩
    | _ => trivial
  cases b with
  | yield w => trivial
  | read c' =>
    rintro rfl
    exact hr.disjoint hi.writeRead ha hb
  | write c' v' =>
    rintro rfl
    exact hr.disjoint hi.writeWrite ha hb
  | alloc hdr => exact hi.safepoint' ⟨hb.1,isWrite_of_covers ha⟩

theorem Activation.swap (hr : Activation g layout initial past env h) {x y : Nat}
    (hallowed : (g.mayReorder x y).isAllowed = true) {v w v' w' : JavaVal} {h₁ h₂ k₁ k₂ : JavaHeap}
    (hx : g.Exec layout x env h v h₁) (hy : g.Exec layout y (update env x (some v)) h₁ w h₂)
    (hy' : g.Exec layout y env h w' k₁) {env' : Values} (hsame : g.SameOperands x env env')
    (hx' : g.Exec layout x env' k₁ v' k₂) :
    Act.Alike h v w h₂ v' w' k₂ := by
  obtain ⟨a,hax,hxr⟩ := hx
  obtain ⟨b,hby,hyr⟩ := hy
  obtain ⟨b',hby',hyr'⟩ := hy'
  obtain ⟨a',hax',hxr'⟩ := hx'
  unfold MemGraph.mayReorder at hallowed
  cases hnx : g.nodeOpt x with
  | none => simp [hnx,Reorder.isAllowed] at hallowed
  | some node => ?_
  cases hny : g.nodeOpt y with
  | none => simp [hnx,hny,Reorder.isAllowed] at hallowed
  | some node' => ?_
  simp only [hnx,hny] at hallowed
  split at hallowed
  · cases hallowed
  split at hallowed
  · cases hallowed
  rename_i hconsumes
  have hphi : node'.op ≠ .phi := by
    intro hop
    simp [MemGraph.act,hny,hop] at hby'
  have hfree := not_mem_valueOperands hphi (by simpa using hconsumes)
  -- in both orders the two nodes perform the same operations
  have hold : ∀ m ∈ valueOperands node', update env x (some v) m = env m := by
    intro m hm
    refine update_of_ne ?_ _ _
    rintro rfl
    exact hfree hm
  have hb := act_mono hxr.extends hby'
  rw [← act_congr hny hold] at hb
  have ha := act_mono hyr'.extends hax
  rw [← act_congr hnx (hsame node hnx)] at ha
  obtain rfl := some.inj (hby.symm.trans hb)
  obtain rfl := some.inj (hax'.symm.trans ha)
  have hconsts : ConstsHold g env := hr.constsHold
  exact Act.swap (hr.apart (independent_of_allowed hallowed) (describes_act hconsts hax)
    (describes_act hconsts hby')) hxr hyr hyr' hxr'

/-- The memory model answers soundly at every point of every activation: nodes that may not alias
never take the same object, and two nodes run one after the other that may be reordered answer and
leave the same in the other order, up to the names of fresh objects. In the other order, too, `x`
takes the operands it was issued with. -/
theorem memoryModel_sound (hr : Activation g layout initial past env h) :
    (∀ a b o, g.refsMayAlias a b = false → (a,Val.ref o) ∈ past → (b,Val.ref o) ∉ past) ∧
      ∀ x y, (g.mayReorder x y).isAllowed = true → ∀ env' v w v' w' h₁ h₂ k₁ k₂,
        g.Exec layout x env h v h₁ → g.Exec layout y (update env x (some v)) h₁ w h₂ →
        g.Exec layout y env h w' k₁ → g.SameOperands x env env' → g.Exec layout x env' k₁ v' k₂ →
        Act.Alike h v w h₂ v' w' k₂ := by
  refine ⟨fun a b o halias ha => hr.no_common_object halias ha,?_⟩
  intro x y hallowed env' v w v' w' h₁ h₂ k₁ k₂ hx hy hy' hsame hx'
  exact hr.swap hallowed hx hy hy' hsame hx'

end

/-- Two fresh objects, the first of them also behind a φ, a store through the φ and a load of the
second object. -/
def twoFresh : MemGraph where
  nodes := [⟨.start,.control,[],none,none,false⟩,⟨.new 7 1,.ref,[0,0],none,none,false⟩,
    ⟨.new 7 1,.ref,[0,0],none,none,false⟩,⟨.const 0,.int,[],none,none,false⟩,
    ⟨.const 5,.int,[],none,none,false⟩,⟨.phi,.ref,[0,1,5],none,none,false⟩,
    ⟨.store .int,.memory,[0,0,5,3,4],none,none,false⟩,⟨.load .int,.int,[0,6,2,3],none,none,false⟩]
  safepoints := []
  uses := .new
  staticAliasClass := true
  directStaticFields := []
  staticRefStoreEffect := true
  scopedRawAlias := true
  plainStaticReads := []
  fieldIdentityAlias := true
  fieldDeclClass := []
  inlineGetstatic := true
  inlinePutstatic := true

def emptyHeap : JavaHeap := ⟨fun _ => none,fun _ => .word 0,nofun,fun _ _ => rfl⟩

def twoFreshHeap : JavaHeap := (emptyHeap.alloc 0 (.object 7)).alloc 1 (.object 7)

def twoFreshPast : List (Nat × JavaVal) := [(5,.ref 0),(4,.word 5),(3,.word 0),(2,.ref 1),(1,.ref 0)]

def twoFreshValues : Values := Function.update (Function.update (Function.update (Function.update
  (Function.update (fun _ => none) 1 (some (.ref 0))) 2 (some (.ref 1))) 3 (some (.word 0))) 4
  (some (.word 5))) 5 (some (.ref 0))

theorem activation_twoFresh (layout : Layout) :
    Activation twoFresh layout emptyHeap twoFreshPast twoFreshValues twoFreshHeap := by
  refine .step (h := twoFreshHeap) (.step (h := twoFreshHeap) (.step (h := twoFreshHeap) (.step
    (h := emptyHeap.alloc 0 (.object 7)) (.step .start ?_) ?_) ?_) ?_) ?_
  · exact .access ⟨.alloc (.object 7),rfl,.alloc rfl⟩
  · exact .access ⟨.alloc (.object 7),rfl,.alloc rfl⟩
  · exact .const rfl rfl
  · exact .const rfl rfl
  have hinput : twoFresh.IsValueInput ⟨.phi,.ref,[0,1,5],none,none,false⟩ 1 := ⟨by decide,_,rfl,rfl⟩
  exact .phi rfl rfl hinput (by decide)

theorem has_twoFresh (o : Nat) (ho : o < 2) (s : Slot) : twoFreshHeap.Has (.slot o s) := by
  rintro o' s' ⟨⟩
  rcases show o = 0 ∨ o = 1 by omega with rfl | rfl <;> rfl

theorem knows_word (hp : JavaHeap) (w : Int) : hp.Knows (.word w) := nofun

def twoFreshStored : JavaHeap :=
  twoFreshHeap.write (.slot 0 (.field 0)) (.word 5) (has_twoFresh 0 (by decide) _) (knows_word _ _)

theorem memoryModel_sound_twoFresh :
    twoFresh.refsMayAlias 5 2 = false ∧ (2,Val.ref 0) ∉ twoFreshPast ∧
      (twoFresh.mayReorder 6 7).isAllowed = true ∧
      Act.Alike twoFreshHeap (.word 0) (.word 0) twoFreshStored (.word 0) (.word 0) twoFreshStored := by
  have hsound := memoryModel_sound (activation_twoFresh ⟨fun c _ => c,fun _ => 0⟩)
  have halias : twoFresh.refsMayAlias 5 2 = false := by decide
  have hallowed : (twoFresh.mayReorder 6 7).isAllowed = true := by decide
  refine ⟨halias,hsound.1 5 2 0 halias (by decide),hallowed,?_⟩
  refine hsound.2 6 7 hallowed twoFreshValues _ _ _ _ twoFreshStored _ twoFreshHeap _ ?_ ?_ ?_ ?_ ?_
  · exact ⟨.write (.slot 0 (.field 0)) (.word 5),rfl,.write _ _⟩
  · exact ⟨.read (.slot 1 (.field 0)),rfl,.read (has_twoFresh 1 (by decide) _)⟩
  · exact ⟨.read (.slot 1 (.field 0)),rfl,.read (has_twoFresh 1 (by decide) _)⟩
  · exact fun _ _ _ _ => rfl
  · exact ⟨.write (.slot 0 (.field 0)) (.word 5),rfl,.write _ _⟩

end CratonVM.Jit
