import CratonVM.ClassLoading.Hierarchy.Histories
import CratonVM.Runtime.VtableChains

/-!
The vtable of a class against method selection: the entry of a slot is the method that strict
selection names for the method the slot was introduced for.
-/
namespace CratonVM.Runtime
open ClassLoading List Option Prod
section
variable (store : ClassStore) (vtables : Vtables) (c : ClassId) (cls : ClassLoading.Class)

/-- The superclass's slots are there, each with its signature. -/
def ExtendsSuper (entries : VtableEntries) : Prop :=
  (parentSlice vtables cls.superclass).length ≤ entries.length ∧
    ∀ s key, HasSlot (parentSlice vtables cls.superclass) key s → HasSlot entries key s

/-- Every slot is filled, with the method of the most derived class that overrides. -/
def SlotsOverridden (entries : VtableEntries) : Prop :=
  ∀ s, s < entries.length → ∃ e, entries[s]? = some (some e) ∧ SlotOverridden store vtables c s e

/-- Every method of the class that takes a slot has one. -/
def MethodsHoused (entries : VtableEntries) : Prop :=
  ∀ i m, cls.methods[i]? = some m → m.isVirtual = true →
    ∃ s : Nat, entries[s]? = some (some (newEntry c m i))

/-- The override list names the superclass's slots whose entry was replaced, once each. -/
def OverridesExact (b : VtableBuild) : Prop :=
  b.overrides.Nodup ∧ ∀ p s, (p,s) ∈ b.overrides ↔ cls.superclass = some p ∧
    s < (parentSlice vtables cls.superclass).length ∧
    b.entries[s]? ≠ (parentSlice vtables cls.superclass)[s]?

def ClassFilesOnly : Prop :=
  ∀ x, Reaches store.get c x → ∃ k, store.get x = some k ∧ k.origin.hasRealBytes = true

/-- The entry of a slot and strict selection, resolved to the slot's introducing method, name the
same declaring class. -/
def MatchesSelection (entries : VtableEntries) : Prop :=
  ∀ (s : Nat) e root, entries[s]? = some (some e) → Introduced store vtables c s root →
    selectUncached store e.methodName e.descriptor c (.declared root.declaringClassId) =
        .selected e.declaringClassId ∨
      selectUncached store e.methodName e.descriptor c (.declared root.declaringClassId) =
        .abstractMethod (some e.declaringClassId)

end

variable {store : ClassStore} {vtables : Vtables} {c : ClassId} {cls : ClassLoading.Class}

section
theorem dropWhile_seen (stack seen : List ClassId) {x : ClassId} (hx : x ∈ stack) :
    x ∈ seen ∨ x ∈ stack.dropWhile (· ∈ seen) := by
  induction stack with
  | nil => cases hx
  | cons y stack ih => ?_
  by_cases hy : y ∈ seen
  · rw [dropWhile_cons_of_pos (by simpa using hy)]
    rcases mem_cons.mp hx with rfl | hx
    · exact .inl hy
    · exact ih hx
  rw [dropWhile_cons_of_neg (by simpa using hy)]
  exact .inr hx

theorem head_dropWhile_seen {stack seen rest : List ClassId} {id : ClassId}
    (h : stack.dropWhile (· ∈ seen) = id::rest) :
    id ∉ seen ∧ id ∈ stack ∧ ∀ x ∈ rest, x ∈ stack := by
  have hsub : ∀ x ∈ id::rest, x ∈ stack := fun x hx => (dropWhile_sublist _).subset (h ▸ hx)
  refine ⟨?_,hsub id (by simp),fun x hx => hsub x (by simp [hx])⟩
  have hne : stack.dropWhile (· ∈ seen) ≠ [] := by simp [h]
  have hhead := head_dropWhile_not (fun x => decide (x ∈ seen)) hne
  simpa [h] using hhead

theorem mem_pushed {k : ClassLoading.Class} {rest : List ClassId} {x : ClassId} :
    x ∈ k.interfaces.reverse++k.superclass.toList++rest ↔ x ∈ Hierarchy.edgesOf k ∨ x ∈ rest := by
  simp only [Hierarchy.edgesOf,mem_append,mem_reverse]
  tauto

theorem realLoop_closed {left : Nat} {stack seen : List ClassId}
    (h : realLoop store left stack seen = true)
    (hseen : ∀ x ∈ seen, ∃ k, store.get x = some k ∧ k.origin.hasRealBytes = true ∧
      ∀ y ∈ Hierarchy.edgesOf k, y ∈ seen ∨ y ∈ stack) :
    ∃ out : List ClassId, out.length ≤ left+seen.length ∧ (∀ x, x ∈ seen ∨ x ∈ stack → x ∈ out) ∧
      ∀ x ∈ out, ∃ k, store.get x = some k ∧ k.origin.hasRealBytes = true ∧
        ∀ y ∈ Hierarchy.edgesOf k, y ∈ out := by
  induction left generalizing stack seen with
  | zero =>
    rw [realLoop] at h
    split at h
    · rename_i hnil
      have hstack : ∀ x ∈ stack, x ∈ seen := fun x hx => by
        simpa [hnil] using dropWhile_seen stack seen hx
      refine ⟨seen,by omega,fun x hx => hx.elim id (hstack x),fun x hx => ?_⟩
      obtain ⟨k,hk,hbytes,hedges⟩ := hseen x hx
      exact ⟨k,hk,hbytes,fun y hy => (hedges y hy).elim id (hstack y)⟩
    · cases h
  | succ left ih => ?_
  rw [realLoop] at h
  split at h
  · rename_i hnil
    have hstack : ∀ x ∈ stack, x ∈ seen := fun x hx => by
      simpa [hnil] using dropWhile_seen stack seen hx
    refine ⟨seen,by omega,fun x hx => hx.elim id (hstack x),fun x hx => ?_⟩
    obtain ⟨k,hk,hbytes,hedges⟩ := hseen x hx
    exact ⟨k,hk,hbytes,fun y hy => (hedges y hy).elim id (hstack y)⟩
  rename_i id rest hdrop
  have hstack : ∀ x ∈ stack, x ∈ id::seen ∨ x ∈ rest := by
    intro x hx
    rcases dropWhile_seen stack seen hx with hx | hx
    · exact .inl (by simp [hx])
    rw [hdrop] at hx
    rcases mem_cons.mp hx with rfl | hx
    · exact .inl (by simp)
    · exact .inr hx
  cases hk : store.get id with
  | none => simp [hk] at h
  | some k => ?_
  simp only [hk] at h
  cases hbytes : k.origin.hasRealBytes with
  | false => simp [hbytes] at h
  | true => ?_
  simp only [hbytes,if_true] at h
  obtain ⟨out,hlen,hmem,hclosed⟩ := ih h (fun x hx => by
    rcases mem_cons.mp hx with rfl | hx
    · exact ⟨k,hk,hbytes,fun y hy => .inr (mem_pushed.mpr (.inl hy))⟩
    obtain ⟨k',hk',hbytes',hedges⟩ := hseen x hx
    refine ⟨k',hk',hbytes',fun y hy => ?_⟩
    rcases hedges y hy with hy | hy
    · exact .inl (by simp [hy])
    · exact (hstack y hy).imp (fun h => h) fun hy => mem_pushed.mpr (.inr hy))
  refine ⟨out,by simp at hlen; omega,fun x hx => ?_,hclosed⟩
  rcases hx with hx | hx
  · exact hmem x (.inl (by simp [hx]))
  · exact hmem x ((hstack x hx).imp (fun h => h) fun hx => mem_pushed.mpr (.inr hx))

theorem hierarchyIsReal_of_reaches (hreal : ClassFilesOnly store c)
    (hbound : ReachesAtMost store.get c maxSelectionNodes) : hierarchyIsReal store c = true := by
  have hloop : ∀ (left : Nat) (stack seen : List ClassId), left+seen.length = maxSelectionNodes →
      seen.Nodup → (∀ x ∈ seen, Reaches store.get c x) → (∀ x ∈ stack, Reaches store.get c x) →
      realLoop store left stack seen = true := by
    intro left
    induction left with
    | zero =>
      intro stack seen hlen hnd hseen hstack
      rw [realLoop]
      split
      · rfl
      rename_i id rest hdrop
      obtain ⟨hnew,hid,-⟩ := head_dropWhile_seen hdrop
      have hle := hbound.length_le (nodup_cons.mpr ⟨hnew,hnd⟩) (fun x hx => by
        rcases mem_cons.mp hx with rfl | hx
        · exact hstack _ hid
        · exact hseen x hx)
      rw [length_cons] at hle
      omega
    | succ left ih => ?_
    intro stack seen hlen hnd hseen hstack
    rw [realLoop]
    split
    · rfl
    rename_i id rest hdrop
    obtain ⟨hnew,hid,hrest⟩ := head_dropWhile_seen hdrop
    have hreach := hstack id hid
    obtain ⟨k,hk,hbytes⟩ := hreal id hreach
    simp only [hk,hbytes,if_true]
    refine ih _ _ (by simp; omega) (nodup_cons.mpr ⟨hnew,hnd⟩) ?_ ?_
    · intro x hx
      rcases mem_cons.mp hx with rfl | hx
      · exact hreach
      · exact hseen x hx
    intro x hx
    rcases mem_pushed.mp hx with hx | hx
    · exact hreach.tail ⟨k,hk,hx⟩
    · exact hstack x (hrest x hx)
  exact hloop _ _ _ rfl nodup_nil (by simp) (by simpa using .refl)

theorem hierarchyIsReal_iff :
    hierarchyIsReal store c = true ↔
      ClassFilesOnly store c ∧ ReachesAtMost store.get c maxSelectionNodes := by
  refine ⟨fun h => ?_,fun ⟨hreal,hbound⟩ => hierarchyIsReal_of_reaches hreal hbound⟩
  obtain ⟨out,hlen,hmem,hclosed⟩ := realLoop_closed h (by simp)
  have hall : ∀ x, Reaches store.get c x → x ∈ out := by
    intro x hx
    induction hx with
    | refl => exact hmem c (by simp)
    | tail _ hxy ih =>
      obtain ⟨k,hk,hy⟩ := hxy
      obtain ⟨k',hk',-,hedges⟩ := hclosed _ ih
      obtain rfl := some.inj (hk.symm.trans hk')
      exact hedges _ hy
  constructor
  · intro x hx
    obtain ⟨k,hk,hbytes,-⟩ := hclosed x (hall x hx)
    exact ⟨k,hk,hbytes⟩
  have hsub : {x | Reaches store.get c x} ⊆ (out.toFinset : Set Nat) := by
    intro x hx
    simpa using hall x hx
  refine (Set.encard_le_encard hsub).trans ?_
  have hcard := toFinset_card_le out
  exact_mod_cast hcard.trans hlen

end

section
theorem findMethod_of_distinct (hdup : (cls.methods.map ClassFileMethod.signature).Nodup) {i : Nat}
    {m : ClassFileMethod} (hm : cls.methods[i]? = some m) :
    cls.findMethod m.name m.descriptor = some m := by
  have hmem := mem_of_getElem? hm
  have hinj := inj_on_of_nodup_map hdup
  cases hfind : cls.findMethod m.name m.descriptor with
  | none =>
    have := find?_eq_none.mp hfind m hmem
    simp at this
  | some k =>
    have hk := mem_of_find?_eq_some hfind
    obtain ⟨hn,hd⟩ := Class.findMethod_sig hfind
    rw [hinj hk hmem (by simp [ClassFileMethod.signature,hn,hd])]

variable {x : ClassId} {e : VtableSlot}

theorem Introduced.unique {s : Nat} {e' : VtableSlot}
    (h : Introduced store vtables x s e) (h' : Introduced store vtables x s e') : e = e' := by
  have hclash : ∀ {p : ClassId} {cls : ClassLoading.Class} {s : Nat} {e : VtableSlot},
      cls.superclass = some p → (parentSlice vtables cls.superclass).length ≤ s →
      Introduced store vtables p s e → False := by
    intro p cls s e hs htop hp
    have hslot : ∃ v e0, vtables p = some v ∧ v[s]? = some (some e0) := by
      cases hp with
      | own _ hx he => exact ⟨_,_,hx,he⟩
      | inherited _ _ hx he => exact ⟨_,_,hx,he⟩
    obtain ⟨v,e0,hv,he0⟩ := hslot
    rw [parentSlice_eq hs hv] at htop
    have := (List.getElem?_eq_some_iff.mp he0).1
    omega
  induction h with
  | @own x cls v s e hc hx he _ htop =>
    cases h' with
    | own _ hx' he' =>
      obtain rfl := some.inj (hx.symm.trans hx')
      exact some.inj (some.inj (he.symm.trans he'))
    | inherited hc' hs' _ _ hp =>
      obtain rfl := some.inj (hc.symm.trans hc')
      exact (hclash hs' htop hp).elim
  | @inherited x p cls v s e e0 hc hs _ _ hp ih => ?_
  cases h' with
  | own hc' _ _ _ htop' =>
    obtain rfl := some.inj (hc.symm.trans hc')
    exact (hclash hs htop' hp).elim
  | inherited hc' hs' _ _ hp' =>
    obtain rfl := some.inj (hc.symm.trans hc')
    obtain rfl := some.inj (hs.symm.trans hs')
    exact ih hp'

theorem Introduced.onChain {s : Nat}
    (h : Introduced store vtables x s e) : OnChain store x e.declaringClassId := by
  induction h with
  | own _ _ _ hdecl => exact ⟨[],hdecl ▸ .here⟩
  | inherited hc hs _ _ _ ih =>
    obtain ⟨l,hl⟩ := ih
    exact ⟨_,.up hc hs hl⟩

theorem reaches_of_onChain {y : ClassId} (h : OnChain store x y) : Reaches store.get x y := by
  obtain ⟨l,hl⟩ := h
  induction hl with
  | here => exact .refl
  | up hc hs _ ih => exact .head ⟨_,hc,mem_edgesOf.mpr (.inl hs)⟩ ih

theorem SlotOverridden.selection {l : List ClassId} {s : Nat} {root : VtableSlot}
    (h : SlotOverridden store vtables c s e) (hroot : Introduced store vtables c s root)
    (hl : Lineage store c l) (hlen : l.length < overrideWalkBudget)
    (hdist : DistinctMethods store l) (hinst : Instantiable store c)
    (hreal : ClassFilesOnly store c) (hbound : ReachesAtMost store.get c maxSelectionNodes) :
    selectUncached store e.methodName e.descriptor c (.declared root.declaringClassId) =
        .selected e.declaringClassId ∨
      selectUncached store e.methodName e.descriptor c (.declared root.declaringClassId) =
        .abstractMethod (some e.declaringClassId) := by
  obtain ⟨root',ma,hintro,hma,hvirtual,hsig,⟨m,hdecl⟩,l',hl',hbelow⟩ := h
  obtain rfl := hroot.unique hintro
  obtain ⟨hname,hdesc⟩ := mk.inj hsig
  rw [hname,hdesc]
  obtain ⟨hstatic,hpriv⟩ := flags_of_isVirtual hvirtual
  -- the introducing class and its method
  obtain ⟨la,hla⟩ := hroot.onChain
  obtain ⟨ka,hka,hbytes⟩ := hreal _ (reaches_of_onChain ⟨la,hla⟩)
  have hindex : ka.methods[root.methodIndex]? = some ma := by
    rw [slotMethod,hka] at hma
    obtain ⟨k,hk,heq⟩ := map_eq_some_iff.mp hma
    rw [hk,(mk.inj heq).1]
  have hfinda := findMethod_of_distinct (hdist _ (hl.mem_of_onChain hla) ka hka) hindex
  -- the class that overrides
  obtain ⟨kd,hkd,hmd,hmstatic,hmpriv,hmsig,hover⟩ := hdecl
  have hfindd := findMethod_of_distinct (hdist _ (hl.mem_of_onChain hl') kd hkd) hmd
  obtain ⟨hmname,hmdesc⟩ := mk.inj hmsig
  rw [hmname,hmdesc] at hfindd
  have hfirst : FirstTakes store ma.name ma.descriptor (some (ma,root.declaringClassId)) c
      maxSelectionNodes m e.declaringClassId := by
    refine ⟨l',hl',?_,?_,?_⟩
    · have := hl.length_lt_of_lineageTo hl'
      have hsame : overrideWalkBudget = maxSelectionNodes := rfl
      omega
    · rintro y hy k ⟨hat,htake⟩
      cases hy' : store.get y with
      | none => simp [methodAt,hy'] at hat
      | some ky => ?_
      rw [methodAt,hy',bind_some] at hat
      obtain ⟨k',hfind,heq⟩ := map_eq_some_iff.mp hat
      obtain rfl := (mk.inj heq).1
      obtain ⟨i,hi⟩ := getElem?_of_mem (mem_of_find?_eq_some hfind)
      obtain ⟨hn,hd⟩ := Class.findMethod_sig hfind
      simp only [overridesResolved,Bool.and_eq_true,Bool.not_eq_true'] at htake
      exact hbelow y hy i k' ⟨ky,hy',hi,htake.1.1,htake.1.2,
        by simp [ClassFileMethod.signature,hn,hd],htake.2⟩
    refine (takes_iff hkd).mpr ⟨hfindd,?_⟩
    simp only [overridesResolved,hmstatic,hmpriv,Bool.not_false,Bool.and_self,Bool.true_and]
    exact hover
  have htaken := selectOnChain_taken.mpr hfirst
  obtain ⟨k,hk,hi,ha⟩ := hinst
  have hfrom : selectUncached store ma.name ma.descriptor c (.declared root.declaringClassId) =
      selectFrom store ma.name ma.descriptor c (some (ma,root.declaringClassId)) := by
    simp [selectUncached,hk,hi,ha,hka,hbytes,hfinda,hstatic,hpriv]
  rw [hfrom,selectFrom,if_pos (hierarchyIsReal_of_reaches hreal hbound),htaken]
  cases habs : m.isAbstract with
  | true => exact .inr (by simp [habs])
  | false => exact .inl (by simp [habs])

end

section
theorem linked_of_onChain (hsupers : SupersLinked store vtables) {x y : ClassId} {v : VtableEntries}
    (hx : vtables x = some v) (h : OnChain store x y) : ∃ w, vtables y = some w := by
  obtain ⟨l,hl⟩ := h
  induction hl generalizing v with
  | here => exact ⟨v,hx⟩
  | up hc hs _ ih =>
    obtain ⟨k,hk,hsuper⟩ := hsupers _ _ hx
    obtain rfl := some.inj (hc.symm.trans hk)
    obtain ⟨w,hw⟩ := hsuper _ hs
    exact ih hw

theorem parentVtable_of_linked (hv : LinkedVtables store vtables) (hlink : Linkable store vtables c cls)
    {l : List ClassId} (hl : Lineage store c l) (hlen : l.length < overrideWalkBudget)
    (hdist : DistinctMethods store l) : ParentVtable store vtables cls := by
  intro p hp
  obtain ⟨w,hw⟩ := hlink.super p hp
  obtain ⟨kp,hkp,-⟩ := hv.supersLinked p w hw
  cases hl with
  | root hc' hs' =>
    obtain rfl := some.inj (hlink.stored.symm.trans hc')
    rw [hp] at hs'
    cases hs'
  | up hc' hs' hl' =>
    obtain rfl := some.inj (hlink.stored.symm.trans hc')
    obtain rfl := some.inj (hp.symm.trans hs')
    exact ⟨kp,w,hkp,hw,hv.chainVtable hkp hw hl' (by simp at hlen; omega)
      fun y hy => hdist y (by simp [hy])⟩

theorem overrides_exact (hv : LinkedVtables store vtables) (hlink : Linkable store vtables c cls)
    {l : List ClassId} (hl : Lineage store c l) (hlen : l.length < overrideWalkBudget)
    (hdist : DistinctMethods store l) (hdup : (cls.methods.map ClassFileMethod.signature).Nodup) :
    OverridesExact vtables cls (buildVtable store vtables c cls.superclass) := by
  have hparent := parentVtable_of_linked hv hlink hl hlen hdist
  obtain ⟨b,hb,hentries,hoverrides⟩ :=
    @buildVtable_placed store vtables c cls.superclass cls hlink.stored hdup
  unfold OverridesExact
  rw [hentries,hoverrides]
  refine ⟨hb.nodup,fun p s => ?_⟩
  rw [hb.overrides]
  refine and_congr_right fun hsup => ⟨?_,?_⟩
  · rintro ⟨q,hq,hrep⟩
    have hlt := hrep.2.1.lt
    refine ⟨hlt,?_⟩
    rcases hb.inherited s hlt with ⟨q',-,-,hentry⟩ | ⟨hnone,-⟩
    · -- the parent's entry is of a class above, which is linked already
      obtain ⟨p',e,hsup',he,root,ma,-,-,-,-,-,l0,hl0,-⟩ := hparent.slot hlt
      rw [hentry,he]
      intro heq
      obtain rfl := some.inj (some.inj heq)
      obtain ⟨w,hw⟩ := hlink.super p' hsup'
      obtain ⟨v,hv'⟩ := linked_of_onChain hv.supersLinked hw ⟨l0,hl0⟩
      have hnew := hlink.new
      rw [show (newEntry c q'.1 q'.2).declaringClassId = c from rfl,hnew] at hv'
      cases hv'
    · exact absurd hrep (hnone q hq)
  rintro ⟨hlt,hne⟩
  rcases hb.inherited s hlt with ⟨q,hq,hrep,-⟩ | ⟨-,hentry⟩
  · exact ⟨q,hq,hrep⟩
  · exact absurd hentry hne

/-- Linking implements overriding, for chains of fewer than 512 classes that declare no signature
twice: the new vtable extends the superclass's, each slot holds the method of the most derived class
that overrides, every method has a slot, the override list is exact, and where strict selection
speaks for the class the slots agree with it. -/
theorem vtables_implement_overriding (hv : LinkedVtables store vtables)
    (hlink : Linkable store vtables c cls) {l : List ClassId} (hl : Lineage store c l)
    (hlen : l.length < overrideWalkBudget) (hdist : DistinctMethods store l) :
    ExtendsSuper vtables cls (buildVtable store vtables c cls.superclass).entries ∧
      SlotsOverridden store (withVtable vtables c (buildVtable store vtables c cls.superclass).entries)
        c (buildVtable store vtables c cls.superclass).entries ∧
      MethodsHoused c cls (buildVtable store vtables c cls.superclass).entries ∧
      OverridesExact vtables cls (buildVtable store vtables c cls.superclass) ∧
      (Instantiable store c → ClassFilesOnly store c →
        ReachesAtMost store.get c maxSelectionNodes →
        MatchesSelection store
          (withVtable vtables c (buildVtable store vtables c cls.superclass).entries) c
          (buildVtable store vtables c cls.superclass).entries) := by
  have hself : c ∈ l := by cases hl <;> simp
  have hdup := hdist c hself cls hlink.stored
  have hparent := parentVtable_of_linked hv hlink hl hlen hdist
  have hchain := link_chainVtable hlink hparent hv.supersLinked hl hlen hdup
  obtain ⟨b,hb,hentries,-⟩ := @buildVtable_placed store vtables c cls.superclass cls hlink.stored hdup
  refine ⟨?_,?_,?_,overrides_exact hv hlink hl hlen hdist hdup,?_⟩
  · rw [hentries]
    exact ⟨hb.length,fun s key hs => hb.hasSlot_entries hs⟩
  · intro s hs
    obtain ⟨e,he⟩ := hchain.filled s hs
    exact ⟨e,he,hchain.slots s e he⟩
  · rw [hentries]
    intro i m hm hvirtual
    exact hb.housed (m,i) (mk_mem_zipIdx_iff_getElem?.mpr hm) hvirtual
  intro hinst hreal hbound s e root he hroot
  exact (hchain.slots s e he).selection hroot hl hlen hdist hinst hreal hbound

def plainMethod : ClassFileMethod :=
  { name := "m", descriptor := "()V", accessFlags := { isPublic := true } }

/-- A class that overrides its superclass's method. -/
def overridingPair : ClassStore :=
  { classes := [
      some { name := "R".toList, methods := [plainMethod] },
      some { name := "C".toList, superclass := some 0, methods := [plainMethod] }] }

def overridingRoot : Vtables :=
  withVtable (fun _ => none) 0 (buildVtable overridingPair (fun _ => none) 0 none).entries

theorem overridingPair_overrides :
    OverridesExact overridingRoot { name := "C".toList, superclass := some 0, methods := [plainMethod] }
      (buildVtable overridingPair overridingRoot 1 (some 0)) := by
  have hlinked : LinkedVtables overridingPair overridingRoot :=
    @LinkedVtables.link _ _ 0 { name := "R".toList, methods := [plainMethod] } .start
      ⟨rfl,rfl,fun s hs => by cases hs⟩
  have hlinkable : Linkable overridingPair overridingRoot 1
      { name := "C".toList, superclass := some 0, methods := [plainMethod] } := by
    refine ⟨rfl,rfl,fun s hs => ?_⟩
    obtain rfl := some.inj hs
    exact ⟨_,rfl⟩
  have hlineage : Lineage overridingPair 1 [1,0] := .up rfl rfl (.root rfl rfl)
  have hdistinct : DistinctMethods overridingPair [1,0] := by
    intro x hx k hk
    simp only [mem_cons,not_mem_nil,or_false] at hx
    rcases hx with rfl | rfl
    · obtain rfl := some.inj hk
      simp
    obtain rfl := some.inj hk
    simp
  exact (vtables_implement_overriding hlinked hlinkable hlineage (by decide) hdistinct).2.2.2.1

end

section
/-- Two methods of one signature in a class with a superclass. -/
def repeatedSignature : ClassStore :=
  { classes := [
      some { name := "R".toList },
      some { name := "C".toList, superclass := some 0, methods := [plainMethod,plainMethod] }] }

def rootLinked : Vtables := withVtable (fun _ => none) 0 []

theorem rootLinked_linked : LinkedVtables repeatedSignature rootLinked :=
  @LinkedVtables.link _ _ 0 { name := "R".toList } .start ⟨rfl,rfl,fun s hs => by cases hs⟩

def wideInterfaces : List (Option ClassLoading.Class) :=
  (List.range maxSelectionNodes).map fun _ =>
    some { name := "I".toList, isInterface := true, isAbstract := true }

def wideRoot : ClassLoading.Class :=
  { name := "W".toList, interfaces := (List.range maxSelectionNodes).map (·+1)
    methods := [plainMethod] }

def wideClass : ClassStore := { classes := some wideRoot::wideInterfaces }

theorem wideClass_get_succ {i : Nat} (hi : i < maxSelectionNodes) : wideClass.get (i+1) =
    some { name := "I".toList, isInterface := true, isAbstract := true } := by
  simp [ClassStore.get,wideClass,wideInterfaces,hi]

theorem wideClass_reaches {i : Nat} (hi : i < maxSelectionNodes+1) : Reaches wideClass.get 0 i := by
  cases i with
  | zero => exact .refl
  | succ i =>
    refine .single ⟨wideRoot,rfl,mem_edgesOf.mpr (.inr ?_)⟩
    simp only [wideRoot,List.mem_map,mem_range]
    exact ⟨i,by omega,rfl⟩

theorem wideClass_classFiles : ClassFilesOnly wideClass 0 := by
  have hall : ∀ x, Reaches wideClass.get 0 x → x < maxSelectionNodes+1 := by
    intro x hx
    induction hx with
    | refl => decide
    | @tail y z _ hyz ih => ?_
    obtain ⟨k,hk,hz⟩ := hyz
    cases y with
    | zero => ?_
    | succ y =>
      rw [wideClass_get_succ (by omega)] at hk
      obtain rfl := some.inj hk
      simp [Hierarchy.edgesOf] at hz
    obtain rfl : wideRoot = k := some.inj hk
    rcases mem_edgesOf.mp hz with hz | hz
    · cases hz
    simp only [wideRoot,List.mem_map,mem_range] at hz
    omega
  intro x hx
  cases x with
  | zero => exact ⟨wideRoot,rfl,rfl⟩
  | succ x => exact ⟨_,wideClass_get_succ (by have := hall _ hx; omega),rfl⟩

theorem wideClass_lenient :
    selectUncached wideClass "m" "()V" 0 (.declared 0) = .lenient := by
  have hreal : hierarchyIsReal wideClass 0 = false := by
    rw [← Bool.not_eq_true,hierarchyIsReal_iff]
    rintro ⟨-,hbound⟩
    have hle := hbound.length_le (nodup_range (n := maxSelectionNodes+1))
      (fun x hx => wideClass_reaches (mem_range.mp hx))
    rw [length_range] at hle
    omega
  have hget : wideClass.get 0 = some wideRoot := rfl
  have hfind : wideRoot.findMethod "m" "()V" = some plainMethod := by decide
  simp only [selectUncached,hget,hfind,selectFrom,hreal]
  rfl

/-- A repeated signature puts a slot of the class itself on the override list, and selection does
not speak for a class that reaches more than 512 classes. -/
theorem overriding_needs_distinct_and_bounded :
    (LinkedVtables repeatedSignature rootLinked ∧
      (∃ cls, Linkable repeatedSignature rootLinked 1 cls ∧ Lineage repeatedSignature 1 [1,0] ∧
        ¬OverridesExact rootLinked cls (buildVtable repeatedSignature rootLinked 1 cls.superclass))) ∧
    (Linkable wideClass (fun _ => none) 0 wideRoot ∧ Lineage wideClass 0 [0] ∧
      Instantiable wideClass 0 ∧ ClassFilesOnly wideClass 0 ∧
      ¬MatchesSelection wideClass
        (withVtable (fun _ => none) 0 (buildVtable wideClass (fun _ => none) 0 none).entries) 0
        (buildVtable wideClass (fun _ => none) 0 none).entries) := by
  refine ⟨⟨rootLinked_linked,_,⟨rfl,rfl,fun s hs => ⟨[],?_⟩⟩,?_,?_⟩,⟨rfl,rfl,fun s hs => ?_⟩,
    .root rfl rfl,⟨wideRoot,rfl,rfl,rfl⟩,wideClass_classFiles,?_⟩
  · obtain rfl := some.inj hs
    rfl
  · exact .up rfl rfl (.root rfl rfl)
  · rintro ⟨-,hexact⟩
    have hmem : ((0,0) : ClassId × Nat) ∈ (buildVtable repeatedSignature rootLinked 1 (some 0)).overrides := by
      decide
    exact absurd ((hexact 0 0).mp hmem).2.1 (by decide)
  · cases hs
  intro hmatch
  have hintro : Introduced wideClass (withVtable (fun _ => none) 0 [some (newEntry 0 plainMethod 0)]) 0 0
      (newEntry 0 plainMethod 0) := by
    refine @Introduced.own _ _ _ wideRoot _ _ _ rfl rfl rfl rfl ?_
    exact Nat.le_refl 0
  have hlenient := wideClass_lenient
  rcases hmatch 0 _ _ rfl hintro with h | h
  · exact absurd (hlenient.symm.trans h) (by simp)
  · exact absurd (hlenient.symm.trans h) (by simp)

end
end CratonVM.Runtime
