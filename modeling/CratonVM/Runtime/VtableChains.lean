import CratonVM.ClassLoading.Vtable
import CratonVM.Runtime.SelectionRule

/-!
Vtables of whole superclass chains: what a slot was introduced for, and which class's method it
holds after every class of the chain was linked.
-/
namespace CratonVM.Runtime
open ClassLoading Option Bool Prod
section
variable (store : ClassStore)

/-- The table after a class was linked. -/
def withVtable (vtables : Vtables) (c : ClassId) (entries : VtableEntries) : Vtables :=
  fun x => if x = c then some entries else vtables x

/-- A stored class that is not linked yet and whose superclass is. -/
structure Linkable (vtables : Vtables) (c : ClassId) (cls : ClassLoading.Class) : Prop where
  stored : store.get c = some cls
  new : vtables c = none
  super : ∀ s, cls.superclass = some s → ∃ entries, vtables s = some entries

/-- The vtables that links from the roots down lead to, over one store. -/
inductive LinkedVtables : Vtables → Prop where
  | start : LinkedVtables fun _ => none
  | link {vtables : Vtables} {c : ClassId} {cls : ClassLoading.Class} (h : LinkedVtables vtables)
      (hc : Linkable store vtables c cls) :
      LinkedVtables (withVtable vtables c (buildVtable store vtables c cls.superclass).entries)

inductive Introduced (vtables : Vtables) : ClassId → Nat → VtableSlot → Prop where
  | own {x : ClassId} {cls : ClassLoading.Class} {entries : VtableEntries} {s : Nat} {e : VtableSlot}
      (hc : store.get x = some cls) (hx : vtables x = some entries)
      (he : entries[s]? = some (some e)) (hdecl : e.declaringClassId = x)
      (htop : (parentSlice vtables cls.superclass).length ≤ s) : Introduced vtables x s e
  | inherited {x p : ClassId} {cls : ClassLoading.Class} {entries : VtableEntries} {s : Nat} {e e' : VtableSlot}
      (hc : store.get x = some cls) (hs : cls.superclass = some p) (hx : vtables x = some entries)
      (he : entries[s]? = some (some e')) (h : Introduced vtables p s e) : Introduced vtables x s e

def DeclaresOverriding (x : ClassId) (ma : ClassFileMethod) (aId : ClassId) (i : Nat)
    (m : ClassFileMethod) : Prop :=
  ∃ k, store.get x = some k ∧ k.methods[i]? = some m ∧ m.isStatic = false ∧ m.isPrivate = false ∧
    m.signature = ma.signature ∧ (canOverride store m x ma aId overrideWalkBudget).any Prod.fst = true

/-- A slot holds the method of the most derived class on the chain that overrides the method the
slot was introduced for. -/
def SlotOverridden (vtables : Vtables) (x : ClassId) (s : Nat) (e : VtableSlot) : Prop :=
  ∃ root ma, Introduced store vtables x s root ∧
    slotMethod store root = some (ma,root.declaringClassId) ∧ ma.isVirtual = true ∧
    e.signature = ma.signature ∧
    (∃ m, DeclaresOverriding store e.declaringClassId ma root.declaringClassId e.methodIndex m) ∧
    ∃ l, LineageTo store x l e.declaringClassId ∧
      ∀ y ∈ l, ∀ i m, ¬DeclaresOverriding store y ma root.declaringClassId i m

/-- No class of the chain declares a name and descriptor twice. -/
def DistinctMethods (l : List ClassId) : Prop :=
  ∀ x ∈ l, ∀ k, store.get x = some k → (k.methods.map ClassFileMethod.signature).Nodup

/-- What holds of a linked class. -/
structure ChainVtable (vtables : Vtables) (x : ClassId) (cls : ClassLoading.Class) (entries : VtableEntries) :
    Prop where
  filled : ∀ s, s < entries.length → ∃ e, entries[s]? = some (some e)
  longer : (parentSlice vtables cls.superclass).length ≤ entries.length
  slots : ∀ s e, entries[s]? = some (some e) → SlotOverridden store vtables x s e

end

variable {store : ClassStore} {vtables : Vtables}

section
theorem withVtable_of_linked {c x : ClassId} {entries v : VtableEntries} (hnew : vtables c = none)
    (hx : vtables x = some v) : withVtable vtables c entries x = some v := by
  have hne : x ≠ c := by
    rintro rfl
    rw [hnew] at hx
    cases hx
  rw [withVtable,if_neg hne]
  exact hx

def SupersLinked (store : ClassStore) (vtables : Vtables) : Prop :=
  ∀ x v, vtables x = some v → ∃ cls, store.get x = some cls ∧
    ∀ s, cls.superclass = some s → ∃ w, vtables s = some w

theorem LinkedVtables.supersLinked (h : LinkedVtables store vtables) :
    SupersLinked store vtables := by
  induction h with
  | start =>
    intro x v hx
    cases hx
  | @link vtables c cls _ hc ih => ?_
  intro x v hx
  by_cases hxc : x = c
  · subst hxc
    refine ⟨cls,hc.stored,fun s hs => ?_⟩
    obtain ⟨w,hw⟩ := hc.super s hs
    exact ⟨w,withVtable_of_linked hc.new hw⟩
  rw [withVtable,if_neg hxc] at hx
  obtain ⟨k,hk,hsuper⟩ := ih x v hx
  refine ⟨k,hk,fun s hs => ?_⟩
  obtain ⟨w,hw⟩ := hsuper s hs
  exact ⟨w,withVtable_of_linked hc.new hw⟩

theorem parentSlice_withVtable {c : ClassId} {entries : VtableEntries} (hnew : vtables c = none)
    {superclass : Option ClassId} (hsuper : ∀ s, superclass = some s → ∃ v, vtables s = some v) :
    parentSlice (withVtable vtables c entries) superclass = parentSlice vtables superclass := by
  cases superclass with
  | none => rfl
  | some s =>
    obtain ⟨v,hv⟩ := hsuper s rfl
    simp [parentSlice,withVtable_of_linked hnew hv,hv]

theorem Introduced.frame {c x : ClassId} {entries : VtableEntries} {s : Nat} {e : VtableSlot}
    (hlinked : SupersLinked store vtables) (hnew : vtables c = none)
    (h : Introduced store vtables x s e) :
    Introduced store (withVtable vtables c entries) x s e := by
  induction h with
  | @own x cls v s e hc hx he hdecl htop => ?_
  | inherited hc hs hx he _ ih => exact .inherited hc hs (withVtable_of_linked hnew hx) he ih
  refine .own hc (withVtable_of_linked hnew hx) he hdecl ?_
  obtain ⟨k,hk,hsuper⟩ := hlinked x v hx
  obtain rfl := some.inj (hc.symm.trans hk)
  rw [parentSlice_withVtable hnew hsuper]
  exact htop

theorem ChainVtable.frame {c x : ClassId} {cls : ClassLoading.Class} {entries v : VtableEntries}
    (hlinked : SupersLinked store vtables) (hnew : vtables c = none)
    (hsuper : ∀ s, cls.superclass = some s → ∃ v, vtables s = some v)
    (h : ChainVtable store vtables x cls v) :
    ChainVtable store (withVtable vtables c entries) x cls v := by
  refine ⟨h.filled,?_,fun s e he => ?_⟩
  · rw [parentSlice_withVtable hnew hsuper]
    exact h.longer
  obtain ⟨root,ma,hintro,hrest⟩ := h.slots s e he
  exact ⟨root,ma,hintro.frame hlinked hnew,hrest⟩

end

section
theorem vtableSlotRoot_of_introduced {x : ClassId} {s : Nat} {e : VtableSlot} {l : List ClassId}
    (h : Introduced store vtables x s e) (hl : Lineage store x l) (left : Nat)
    (hleft : l.length ≤ left) (root : Option VtableSlot) :
    vtableSlotRoot store vtables s left (some x) root = some e := by
  induction h generalizing l left root with
  | @own x cls v s e hc hx he _ htop => ?_
  | @inherited x p cls v s e e' hc hs hx he _ ih =>
    cases left with
    | zero => cases hl <;> simp at hleft
    | succ left => ?_
    simp only [vtableSlotRoot,hx,bind_some,he,hc,hs]
    cases hl with
    | root hc' hs' =>
      obtain rfl := some.inj (hc.symm.trans hc')
      rw [hs] at hs'
      cases hs'
    | up hc' hs' hl =>
      obtain rfl := some.inj (hc.symm.trans hc')
      obtain rfl := some.inj (hs.symm.trans hs')
      exact ih hl left (by simpa using hleft) _
  have hstop : vtableSlotRoot store vtables s (left-1) cls.superclass (some e) = some e := by
    cases hs : cls.superclass with
    | none => cases left-1 <;> rfl
    | some p => ?_
    have hnone : (vtables p).bind (·[s]?) = none := by
      rw [hs,parentSlice] at htop
      cases hp : vtables p with
      | none => rfl
      | some vp =>
        rw [hp,getD_some] at htop
        exact List.getElem?_eq_none htop
    cases left-1 with
    | zero => rfl
    | succ n => simp [vtableSlotRoot,hnone]
  cases left with
  | zero => cases hl <;> simp at hleft
  | succ left =>
    simp only [vtableSlotRoot,hx,bind_some,he,hc]
    exact hstop

end

section
variable {c : ClassId} {cls : ClassLoading.Class} {l : List ClassId}

def ParentVtable (store : ClassStore) (vtables : Vtables) (cls : ClassLoading.Class) : Prop :=
  ∀ p, cls.superclass = some p → ∃ k v, store.get p = some k ∧ vtables p = some v ∧
    ChainVtable store vtables p k v

theorem parentSlice_eq {p : ClassId} {v : VtableEntries} (hs : cls.superclass = some p)
    (hv : vtables p = some v) : parentSlice vtables cls.superclass = v := by
  simp [parentSlice,hs,hv]

theorem ParentVtable.slot (hp : ParentVtable store vtables cls) {s : Nat}
    (hs : s < (parentSlice vtables cls.superclass).length) :
    ∃ p e, cls.superclass = some p ∧ (parentSlice vtables cls.superclass)[s]? = some (some e) ∧
      SlotOverridden store vtables p s e := by
  cases hsup : cls.superclass with
  | none =>
    rw [hsup,parentSlice] at hs
    simp at hs
  | some p => ?_
  obtain ⟨k,v,-,hv,hchain⟩ := hp p hsup
  rw [parentSlice_eq hsup hv] at hs
  rw [← hsup,parentSlice_eq hsup hv]
  obtain ⟨e,he⟩ := hchain.filled s hs
  exact ⟨p,e,hsup,he,hchain.slots s e he⟩

theorem isTrueOverride_eq (hc : store.get c = some cls) (hl : Lineage store c l)
    (hlen : l.length < overrideWalkBudget) {p : ClassId} (hsup : cls.superclass = some p) {s : Nat}
    {root : VtableSlot} {ma : ClassFileMethod} (hintro : Introduced store vtables p s root)
    (hma : slotMethod store root = some (ma,root.declaringClassId)) (m : ClassFileMethod) :
    isTrueOverride store vtables c cls.superclass m s =
      (canOverride store m c ma root.declaringClassId overrideWalkBudget).any fst := by
  cases hl with
  | root hc' hs' =>
    obtain rfl := some.inj (hc.symm.trans hc')
    rw [hsup] at hs'
    cases hs'
  | @up _ q _ l' hc' hs' hl' => ?_
  obtain rfl := some.inj (hc.symm.trans hc')
  obtain rfl := some.inj (hsup.symm.trans hs')
  have hroot := vtableSlotRoot_of_introduced hintro hl' overrideWalkBudget
    (by simp at hlen; omega) none
  unfold isTrueOverride
  rw [hsup,hroot,bind_some,hma]

theorem isVirtual_of_signature {m ma : ClassFileMethod} (hma : ma.isVirtual = true)
    (hsig : m.signature = ma.signature) (hstatic : m.isStatic = false) (hpriv : m.isPrivate = false) :
    m.isVirtual = true := by
  obtain ⟨hname,-⟩ := mk.inj hsig
  simp only [ClassFileMethod.isVirtual,and_eq_true,decide_eq_true_eq] at hma ⊢
  rw [hname]
  simp [hstatic,hpriv,hma.1.2,hma.2]

theorem flags_of_isVirtual {m : ClassFileMethod} (hm : m.isVirtual = true) :
    m.isStatic = false ∧ m.isPrivate = false := by
  simp only [ClassFileMethod.isVirtual,and_eq_true,not_eq_true'] at hm
  exact ⟨hm.1.1.1,hm.1.1.2⟩

/-- A method replaces an inherited slot exactly when it overrides what the slot was introduced
for. -/
theorem replaces_iff (hc : store.get c = some cls) (hl : Lineage store c l)
    (hlen : l.length < overrideWalkBudget) {p : ClassId} (hsup : cls.superclass = some p) {s : Nat}
    {e root : VtableSlot} {ma : ClassFileMethod}
    (he : (parentSlice vtables cls.superclass)[s]? = some (some e))
    (hintro : Introduced store vtables p s root)
    (hma : slotMethod store root = some (ma,root.declaringClassId)) (hvirtual : ma.isVirtual = true)
    (hsig : e.signature = ma.signature) {m : ClassFileMethod} {i : Nat}
    (hm : cls.methods[i]? = some m) :
    Replaces store vtables c cls.superclass (parentSlice vtables cls.superclass) m s ↔
      DeclaresOverriding store c ma root.declaringClassId i m := by
  rw [Replaces,isTrueOverride_eq hc hl hlen hsup hintro hma]
  constructor
  · rintro ⟨hv,⟨e',he',hkey⟩,hover⟩
    obtain rfl := some.inj (some.inj (he.symm.trans he'))
    obtain ⟨hstatic,hpriv⟩ := flags_of_isVirtual hv
    exact ⟨cls,hc,hm,hstatic,hpriv,hkey.symm.trans hsig,hover⟩
  rintro ⟨k,hk,-,hstatic,hpriv,hkey,hover⟩
  exact ⟨isVirtual_of_signature hvirtual hkey hstatic hpriv,⟨e,he,hsig.trans hkey.symm⟩,hover⟩

theorem slotMethod_newEntry (hc : store.get c = some cls) {m : ClassFileMethod} {i : Nat}
    (hm : cls.methods[i]? = some m) : slotMethod store (newEntry c m i) = some (m,c) := by
  simp [slotMethod,newEntry,hc,hm]

theorem link_chainVtable (hlink : Linkable store vtables c cls) (hparent : ParentVtable store vtables cls)
    (hsupers : SupersLinked store vtables) (hl : Lineage store c l)
    (hlen : l.length < overrideWalkBudget)
    (hdup : (cls.methods.map ClassFileMethod.signature).Nodup) :
    ChainVtable store (withVtable vtables c (buildVtable store vtables c cls.superclass).entries) c cls
      (buildVtable store vtables c cls.superclass).entries := by
  obtain ⟨b,hb,hentries,-⟩ := @buildVtable_placed store vtables c cls.superclass cls hlink.stored hdup
  rw [hentries]
  have hself : withVtable vtables c b.entries c = some b.entries := if_pos rfl
  have hslice := @parentSlice_withVtable vtables c b.entries hlink.new cls.superclass hlink.super
  -- an own entry of the class
  have hown : ∀ s m i, (m,i) ∈ cls.methods.zipIdx → m.isVirtual = true →
      b.entries[s]? = some (some (newEntry c m i)) → ∀ root ma,
      Introduced store (withVtable vtables c b.entries) c s root →
      slotMethod store root = some (ma,root.declaringClassId) → ma.isVirtual = true →
      DeclaresOverriding store c ma root.declaringClassId i m →
      SlotOverridden store (withVtable vtables c b.entries) c s (newEntry c m i) := by
    intro s m i hmem hv he root ma hintro hma hvirtual hdecl
    refine ⟨root,ma,hintro,hma,hvirtual,?_,⟨m,hdecl⟩,[],.here,by simp⟩
    obtain ⟨k,-,-,-,-,hsig,-⟩ := hdecl
    exact hsig
  have hget : ∀ {m i}, (m,i) ∈ cls.methods.zipIdx → cls.methods[i]? = some m := by
    intro m i hmem
    exact List.mk_mem_zipIdx_iff_getElem?.mp hmem
  refine ⟨fun s hs => ?_,?_,fun s e he => ?_⟩
  · rcases Nat.lt_or_ge s (parentSlice vtables cls.superclass).length with hlt | hge
    · rcases hb.inherited s hlt with ⟨p,-,-,hentry⟩ | ⟨-,hentry⟩
      · exact ⟨_,hentry⟩
      obtain ⟨p,e,-,he,-⟩ := hparent.slot hlt
      exact ⟨e,hentry.trans he⟩
    obtain ⟨p,-,-,hentry⟩ := hb.own s hge hs
    exact ⟨_,hentry⟩
  · rw [hslice]
    exact hb.length
  rcases Nat.lt_or_ge s (parentSlice vtables cls.superclass).length with hlt | hge
  · obtain ⟨p,e0,hsup,he0,root,ma,hintro,hma,hvirtual,hsig,hdecl,l0,hl0,hbelow⟩ := hparent.slot hlt
    have hintro' : Introduced store (withVtable vtables c b.entries) c s root :=
      .inherited hlink.stored hsup hself he (hintro.frame hsupers hlink.new)
    have hiff := fun {m i} (hm : cls.methods[i]? = some m) =>
      replaces_iff hlink.stored hl hlen hsup he0 hintro hma hvirtual hsig hm
    rcases hb.inherited s hlt with ⟨⟨m,i⟩,hmem,hrep,hentry⟩ | ⟨hnone,hentry⟩
    · obtain rfl := some.inj (some.inj (he.symm.trans hentry))
      exact hown s m i hmem hrep.1 he root ma hintro' hma hvirtual ((hiff (hget hmem)).mp hrep)
    obtain rfl := some.inj (some.inj (he.symm.trans (hentry.trans he0)))
    refine ⟨root,ma,hintro',hma,hvirtual,hsig,hdecl,c::l0,.up hlink.stored hsup hl0,?_⟩
    intro y hy i m hover
    rcases List.mem_cons.mp hy with rfl | hy
    · obtain ⟨k,hk,hm,-⟩ := id hover
      obtain rfl := some.inj (hlink.stored.symm.trans hk)
      exact hnone (m,i) (List.mk_mem_zipIdx_iff_getElem?.mpr hm) ((hiff hm).mpr hover)
    · exact hbelow y hy i m hover
  have hlt := (List.getElem?_eq_some_iff.mp he).1
  obtain ⟨⟨m,i⟩,hmem,hv,hentry⟩ := hb.own s hge hlt
  obtain rfl := some.inj (some.inj (he.symm.trans hentry))
  have hintro : Introduced store (withVtable vtables c b.entries) c s (newEntry c m i) := by
    refine .own hlink.stored hself he rfl ?_
    rw [hslice]
    exact hge
  obtain ⟨hstatic,hpriv⟩ := flags_of_isVirtual hv
  refine hown s m i hmem hv he _ m hintro (slotMethod_newEntry hlink.stored (hget hmem)) hv ?_
  refine ⟨cls,hlink.stored,hget hmem,hstatic,hpriv,rfl,?_⟩
  show (canOverride store m c m c overrideWalkBudget).any fst = true
  rw [canOverride_self hlink.stored hpriv hstatic]
  rfl

theorem LinkedVtables.chainVtable (h : LinkedVtables store vtables) {x : ClassId} {k : ClassLoading.Class}
    {v : VtableEntries} (hk : store.get x = some k) (hv : vtables x = some v) {l : List ClassId}
    (hl : Lineage store x l) (hlen : l.length < overrideWalkBudget) (hdist : DistinctMethods store l) :
    ChainVtable store vtables x k v := by
  induction h generalizing x k v l with
  | start => cases hv
  | @link vtables c cls h hc ih => ?_
  have hsupers := h.supersLinked
  by_cases hxc : x = c
  · subst hxc
    obtain rfl := some.inj (hc.stored.symm.trans hk)
    obtain rfl : (buildVtable store vtables x cls.superclass).entries = v := by
      rw [withVtable,if_pos rfl] at hv
      exact some.inj hv
    refine link_chainVtable hc ?_ hsupers hl hlen (hdist x (by cases hl <;> simp) cls hk)
    intro p hp
    obtain ⟨w,hw⟩ := hc.super p hp
    obtain ⟨kp,hkp,-⟩ := hsupers p w hw
    cases hl with
    | root hc' hs' =>
      obtain rfl := some.inj (hk.symm.trans hc')
      rw [hp] at hs'
      cases hs'
    | up hc' hs' hl' =>
      obtain rfl := some.inj (hk.symm.trans hc')
      obtain rfl := some.inj (hp.symm.trans hs')
      exact ⟨kp,w,hkp,hw,ih hkp hw hl' (by simp at hlen; omega) fun y hy => hdist y (by simp [hy])⟩
  rw [withVtable,if_neg hxc] at hv
  obtain ⟨k',hk',hsuper⟩ := hsupers x v hv
  obtain rfl := some.inj (hk.symm.trans hk')
  exact (ih hk hv hl hlen hdist).frame hsupers hc.new hsuper

end
end CratonVM.Runtime
