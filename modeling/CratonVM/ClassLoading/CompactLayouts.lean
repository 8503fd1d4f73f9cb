import CratonVM.ClassLoading.FieldLayoutExact

/-!
Compact layouts of whole class hierarchies: every layout is well formed, starts with the layout of
each superclass, and packing never costs space.
-/
namespace CratonVM.ClassLoading.FieldLayout
open Alignment List Option BitVec
variable {narrow : Bool} {store : List (Option LayoutClass)}

section
end

/-- Every layout of a class with fewer than `2^29-1` instance fields is well formed, begins with the
layouts of its superclasses, and is not made larger by packing. -/
theorem compactLayouts_wellFormed (narrow : Bool) (store : List (Option LayoutClass)) (id : Nat)
    (hfew : ∀ ks, InstanceKinds store id ks → ks.length+2 ≤ 2^29) :
    (∀ packByWidth layout, buildCompactLayoutOrdered narrow store id packByWidth = some layout →
      (∃ ks, InstanceKinds store id ks ∧ WellFormed narrow ks layout) ∧
      ∀ p parent, Relation.ReflTransGen (ExtendsClass store) id p →
        buildCompactLayoutOrdered narrow store p packByWidth = some parent →
        parent.fieldDisps <+: layout.fieldDisps ∧ parent.isRef <+: layout.isRef ∧
          parent.fieldKinds <+: layout.fieldKinds) ∧
    ∀ packed plain, buildCompactLayoutOrdered narrow store id true = some packed →
      buildCompactLayoutOrdered narrow store id false = some plain →
      packed.totalSize.toNat ≤ plain.totalSize.toNat := by
  refine ⟨fun packByWidth layout h => ⟨?_,fun p parent hp hparent => ?_⟩,fun packed plain h h' => ?_⟩
  · obtain ⟨chain,st,hchain,hst,hpad,hfin⟩ := build_run h
    obtain ⟨ks,hks,hl,hf⟩ := layChain_laid hchain hst hpad
    have hlen := hfew ks hks
    exact ⟨ks,hks,wellFormed_of_fits hl (hf (by omega)) hfin (by omega)⟩
  · obtain ⟨chain,st,hchain,hst,hpad,hfin⟩ := build_run h
    obtain ⟨chain',st',hchain',hst',hpad',hfin'⟩ := build_run hparent
    obtain ⟨front,back,rfl,hback⟩ := chainLoop_super hchain hp
    obtain rfl : back = chain' := some.inj (hback.symm.trans hchain')
    rw [List.reverse_append,layChain_append,hst',bind_some] at hst
    obtain ⟨-,hlonger⟩ := layChain_longer (layChain_longer even_start hst').1 hst
    simp only [finishLayout,hpad,hpad',Bool.false_eq_true,if_false,some.injEq] at hfin hfin'
    subst hfin hfin'
    exact ⟨hlonger.offsets.map _,hlonger.refs,hlonger.kinds⟩
  obtain ⟨chain,st,hchain,hst,hpad,hfin⟩ := build_run h
  obtain ⟨chain',st',hchain',hst',hpad',hfin'⟩ := build_run h'
  obtain rfl := some.inj (hchain.symm.trans hchain')
  obtain ⟨ks,hks,-,hf⟩ := layChain_laid hchain hst hpad
  obtain ⟨ks',hks',-,hf'⟩ := layChain_laid hchain hst' hpad'
  obtain rfl := hks.unique hks'
  have hlen := hfew ks hks
  have hle := layChain_packed hchain hst hpad hst' hpad' hks (by omega)
  have hb := (hf (by omega)).bound
  have hb' := (hf' (by omega)).bound
  rw [toNat_totalSize hfin (by omega),toNat_totalSize hfin' (by omega),sizeOf,sizeOf]
  have := @roundUp_mono _ _ 8 (by omega) hle
  omega

/-- Two booleans, an int and a reference under a root class with one int. -/
def mixedStore : List (Option LayoutClass) :=
  [some ⟨none,[⟨false,[73]⟩],1,false⟩,
    some ⟨some 0,[⟨false,[90]⟩,⟨false,[73]⟩,⟨true,[74]⟩,⟨false,[90]⟩,⟨false,[76,65,59]⟩],5,false⟩]

theorem mixedStore_kinds :
    InstanceKinds mixedStore 1 ([.int]++[.boolean,.int,.boolean,.reference]) :=
  .step rfl rfl (.root rfl rfl rfl) rfl

theorem mixedStore_wellFormed :
    ∃ packed plain, buildCompactLayoutOrdered true mixedStore 1 true = some packed ∧
      buildCompactLayoutOrdered true mixedStore 1 false = some plain ∧
      packed.fieldDisps = [8,20,16,21,12] ∧ plain.fieldDisps = [8,12,16,20,24] ∧
      WellFormed true [.int,.boolean,.int,.boolean,.reference] packed ∧
      packed.totalSize.toNat ≤ plain.totalSize.toNat := by
  have hfew : ∀ ks, InstanceKinds mixedStore 1 ks → ks.length+2 ≤ 2^29 := by
    intro ks hks
    rw [hks.unique mixedStore_kinds]
    decide
  obtain ⟨hall,hle⟩ := compactLayouts_wellFormed true mixedStore 1 hfew
  refine ⟨_,_,rfl,rfl,by decide,by decide,?_,hle _ _ rfl rfl⟩
  obtain ⟨⟨ks,hks,hw⟩,-⟩ := hall true _ rfl
  rw [hks.unique mixedStore_kinds] at hw
  exact hw

section
def longField : ClassFileField := ⟨false,[74]⟩

/-- The number of fields of the classes up to one. -/
def totalOf (own : Nat → Nat) : Nat → Nat
  | 0 => own 0
  | i+1 => totalOf own i+own (i+1)

def longClass (own : Nat → Nat) (i : Nat) : LayoutClass where
  superclass := if i = 0 then none else some (i-1)
  fields := List.replicate (own i) longField
  numTotalFields := totalOf own i
  isCompatibilityStub := false

def longChain (own : Nat → Nat) (n : Nat) : List (Option LayoutClass) :=
  (List.range n).map fun i => some (longClass own i)

variable {own : Nat → Nat} {n : Nat}

theorem getClass_longChain {i : Nat} (hi : i < n) :
    getClass (longChain own n) i = some (longClass own i) := by
  simp [getClass,longChain,hi]

theorem declaredKinds_long (k : Nat) :
    declaredKinds (replicate k longField) = some (replicate k .long) := by
  induction k with
  | zero => rfl
  | succ k ih => ?_
  have hone : FieldStorageKind.fromDescriptorByte (longField.descriptor.head?.getD 0) =
      some .long := rfl
  rw [List.replicate_succ,declaredKinds,if_neg (by decide)]
  simp only [hone,ih,map_some]
  rfl

theorem chainLoop_longChain {i left : Nat} (hi : i < n) (hleft : i < left) :
    chainLoop (longChain own n) left (some i) = some (range (i+1)).reverse := by
  induction i generalizing left with
  | zero =>
    obtain ⟨left,rfl⟩ : ∃ k, left = k+1 := ⟨left-1,by omega⟩
    rw [chainLoop]
    simp [getClass_longChain hi,longClass,chainLoop_none]
  | succ i ih => ?_
  obtain ⟨left,rfl⟩ : ∃ k, left = k+1 := ⟨left-1,by omega⟩
  rw [chainLoop]
  simp only [getClass_longChain hi,longClass,Nat.add_sub_cancel,Nat.succ_ne_zero,if_false]
  rw [ih (by omega) (by omega),map_some,range_succ (n := i+1),List.reverse_append]
  rfl

theorem declarationEnd_long {m k : Nat} (h : 8*(m+k)+8 ≤ 2^32) :
    declarationEnd narrow (replicate k .long) (BitVec.ofNat 32 (8*m)) =
      BitVec.ofNat 32 (8*(m+k)) := by
  induction k generalizing m with
  | zero => rfl
  | succ k ih => ?_
  have hone : advance narrow (BitVec.ofNat 32 (8*m)) .long = BitVec.ofNat 32 (8*(m+1)) := by
    have hm : (BitVec.ofNat 32 (8*m)).toNat = 8*m := by
      exact Nat.mod_eq_of_lt (by omega)
    apply eq_of_toNat_eq
    rw [advance,toNat_add,toNat_align .long (by omega),hm]
    have hround : roundUp (8*m) 8 = 8*m := by
      rw [roundUp]
      omega
    show (roundUp (8*m) 8+8)%2^32 = _
    rw [hround,toNat_ofNat]
    rfl
  rw [List.replicate_succ,declarationEnd,foldl_cons,hone]
  have := @ih (m+1) (by omega)
  rw [declarationEnd] at this
  rw [this]
  congr 2
  omega

/-- The state after the classes up to one. -/
structure LaidLongs (m : Nat) (st : Laying) : Prop where
  even : Even st
  off : st.off = BitVec.ofNat 32 (8*m)
  count : st.count = m
  kinds : st.fieldKinds = List.replicate m .long
  unpadded : st.padded = false

theorem layClass_long {m i : Nat} {st : Laying} (h : LaidLongs m st) (hm : totalOf own i = m+own i)
    (hfit : 8*(m+own i)+8 ≤ 2^32) :
    ∃ st', layClass narrow false (longClass own i) st = some st' ∧ LaidLongs (totalOf own i) st' := by
  have hk : declaredKinds (longClass own i).fields = some (replicate (own i) .long) :=
    declaredKinds_long (own i)
  have heq := @layClass_eq narrow _ false _ _ hk h.even.1 h.even.2
  have hnone : (longClass own i).numTotalFields-(st.count+(replicate (own i)
      FieldStorageKind.long).length) = 0 := by
    rw [h.count,length_replicate]
    show totalOf own i-_ = 0
    omega
  rw [hnone] at heq
  refine ⟨_,heq,(layClass_spec h.even heq).1,?_,?_,?_,?_⟩
  · obtain ⟨-,hplain,-⟩ := @assignOrder_spec narrow (replicate (own i) .long) false st.off
    show cursorAfter narrow _ (assignOrder narrow false _ st.off) st.off = _
    rw [hplain rfl,cursorAfter_range,h.off,declarationEnd_long hfit,hm]
  · show st.count+_ = _
    rw [h.count,length_replicate,hm]
  · show st.fieldKinds++_ = _
    rw [h.kinds,replicate_append_replicate,hm]
  · exact h.unpadded

theorem layChain_long {i : Nat} (hi : i < n) (hfit : 8*totalOf own i+8 ≤ 2^32) :
    ∃ st, layChain narrow (longChain own n) false (range (i+1)) {} = some st ∧
      LaidLongs (totalOf own i) st := by
  induction i with
  | zero =>
    obtain ⟨st,hst,hl⟩ := @layClass_long narrow own 0 0 {} ⟨even_start,rfl,rfl,rfl,rfl⟩
      (by rw [totalOf]; omega) (by rw [totalOf] at hfit; omega)
    refine ⟨st,?_,hl⟩
    rw [show range (0+1) = [0] from rfl,layChain]
    simp only [getClass_longChain hi,hst,layChain]
  | succ i ih => ?_
  have htotal : totalOf own (i+1) = totalOf own i+own (i+1) := rfl
  obtain ⟨st,hst,hl⟩ := ih (by omega) (by omega)
  obtain ⟨st',hst',hl'⟩ := @layClass_long narrow own _ (i+1) st hl htotal (by omega)
  refine ⟨st',?_,hl'⟩
  rw [range_succ,layChain_append,hst,bind_some,layChain]
  simp [getClass_longChain hi,hst',layChain]

theorem longChain_wraps {last : Nat} (htotal : totalOf own last = 2^29-1) :
    ∃ ks layout, InstanceKinds (longChain own (last+1)) last ks ∧
      buildCompactLayoutOrdered narrow (longChain own (last+1)) last false = some layout ∧
      ks.length = 2^29-1 ∧ layout.totalSize = 16 ∧ ¬WellFormed narrow ks layout := by
  obtain ⟨st,hst,hl⟩ := @layChain_long narrow own (last+1) last (by omega) (by omega)
  have hchain : chainLoop (longChain own (last+1)) (longChain own (last+1)).length (some last) =
      some (range (last+1)).reverse :=
    chainLoop_longChain (by omega) (by simp [longChain])
  have hst' : layChain narrow (longChain own (last+1)) false (range (last+1)).reverse.reverse {} =
      some st := by
    rw [reverse_reverse]
    exact hst
  obtain ⟨ks,hks,hlaid,-⟩ := layChain_laid hchain hst' hl.unpadded
  have hlen : ks.length = 2^29-1 := by rw [← hlaid.count,hl.count,htotal]
  have hstub : ((range (last+1)).reverse.any fun cid =>
      (getClass (longChain own (last+1)) cid).any LayoutClass.isCompatibilityStub) = false := by
    rw [List.any_eq_false]
    intro cid hcid
    rw [mem_reverse,mem_range] at hcid
    rw [getClass_longChain (by omega)]
    exact Bool.false_ne_true
  have hoff : st.off = BitVec.ofNat 32 (2^32-8) := by
    rw [hl.off,htotal]
    rfl
  obtain ⟨layout,hfin,hsize⟩ : ∃ layout, finishLayout st = some layout ∧ layout.totalSize = 16 := by
    rw [finishLayout,if_neg (by rw [hl.unpadded]; decide),hoff]
    exact ⟨_,rfl,rfl⟩
  refine ⟨ks,layout,hks,?_,hlen,hsize,fun hw => ?_⟩
  · rw [buildCompactLayoutOrdered,hchain]
    dsimp only
    rw [hstub,if_neg (by decide),reverse_reverse,hst]
    exact hfin
  -- two longs do not fit in the eight bytes behind the header
  have hkind : ∀ i < 2, ks[i]? = some FieldStorageKind.long := by
    intro i hi
    rw [← hlaid.kinds,hl.kinds,htotal,getElem?_replicate,if_pos (by omega)]
  have hdisp : ∀ i < 2, ∃ d, layout.fieldDisps[i]? = some d := by
    intro i hi
    exact ⟨_,getElem?_eq_getElem (by rw [hw.length]; omega)⟩
  obtain ⟨d,hd⟩ := hdisp 0 (by omega)
  obtain ⟨d',hd'⟩ := hdisp 1 (by omega)
  obtain ⟨-,h1,h2⟩ := hw.field 0 d _ hd (hkind 0 (by omega))
  obtain ⟨-,h3,h4⟩ := hw.field 1 d' _ hd' (hkind 1 (by omega))
  have hapart := hw.apart 0 1 d _ d' _ (by omega) hd (hkind 0 (by omega)) hd' (hkind 1 (by omega))
  have hlong : FieldStorageKind.long.sizeRuntime narrow = 8 := rfl
  rw [hsize] at h2 h4
  rw [hlong] at h2 h4 hapart
  rw [compactHeaderSize] at h1 h3
  have h16 : (16 : BitVec 32).toNat = 16 := rfl
  omega

/-- A chain of 8193 classes with at most 65535 fields each. -/
def longOwn (i : Nat) : Nat := if i < 8192 then 65535 else 8191

theorem totalOf_longOwn {i : Nat} (hi : i < 8192) : totalOf longOwn i = 65535*(i+1) := by
  induction i with
  | zero => rfl
  | succ i ih =>
    rw [totalOf,ih (by omega),longOwn,if_pos hi]
    omega

/-- The sizes are 32-bit words. -/
theorem longChain_not_wellFormed :
    ∃ ks layout, InstanceKinds (longChain longOwn 8193) 8192 ks ∧
      buildCompactLayoutOrdered false (longChain longOwn 8193) 8192 false = some layout ∧
      ks.length = 2^29-1 ∧ layout.totalSize = 16 ∧ ¬WellFormed false ks layout := by
  have htotal : totalOf longOwn (8191+1) = 2^29-1 := by
    rw [totalOf,totalOf_longOwn (by omega)]
    decide
  exact longChain_wraps htotal

end
end CratonVM.ClassLoading.FieldLayout
