import CratonVM.ClassLoading.FieldLayout

/-!
Compact layouts are well formed: the fields of a chain of classes, one class after the other.
-/
namespace CratonVM.ClassLoading.FieldLayout
open Alignment List Option Prod BitVec
variable {narrow : Bool} {declared : List FieldStorageKind}

section
theorem size_cases (narrow : Bool) (kind : FieldStorageKind) :
    ∃ k, k ≤ 3 ∧ kind.sizeRuntime narrow = 2^k := by
  cases kind <;> cases narrow <;>
    first
    | exact ⟨0,by omega,rfl⟩
    | exact ⟨1,by omega,rfl⟩
    | exact ⟨2,by omega,rfl⟩
    | exact ⟨3,by omega,rfl⟩

theorem size_pos (narrow : Bool) (kind : FieldStorageKind) : 0 < kind.sizeRuntime narrow := by
  obtain ⟨k,-,hk⟩ := size_cases narrow kind
  rw [hk]
  exact Nat.two_pow_pos k

theorem size_dvd (narrow : Bool) (kind : FieldStorageKind) : kind.sizeRuntime narrow ∣ 8 := by
  obtain ⟨k,hk,heq⟩ := size_cases narrow kind
  rw [heq]
  exact Nat.pow_dvd_pow 2 hk

theorem size_le (narrow : Bool) (kind : FieldStorageKind) : kind.sizeRuntime narrow ≤ 8 :=
  Nat.le_of_dvd (by omega) (size_dvd narrow kind)

theorem toNat_align {off : BitVec 32} (kind : FieldStorageKind) (h : off.toNat+8 ≤ 2^32) :
    (alignUp off (alignmentWord narrow kind)).toNat = roundUp off.toNat (kind.sizeRuntime narrow) := by
  have hle := size_le narrow kind
  obtain ⟨k,hk,heq⟩ := size_cases narrow kind
  rw [alignmentWord,FieldStorageKind.alignmentRuntime,heq]
  exact toNat_alignUp (by omega) (by omega)

def sizeAt (narrow : Bool) (declared : List FieldStorageKind) (i : Nat) : Nat :=
  (kindAt declared i).sizeRuntime narrow

theorem wordPlaces_toNat {order : List Nat} {off : BitVec 32}
    (h : placedEnd (sizeAt narrow declared) order off.toNat+8 ≤ 2^32) :
    (wordPlaces narrow declared order off).map (fun p => (p.1,p.2.toNat)) =
        placed (sizeAt narrow declared) order off.toNat ∧
      (cursorAfter narrow declared order off).toNat =
        placedEnd (sizeAt narrow declared) order off.toNat := by
  induction order generalizing off with
  | nil => exact ⟨rfl,rfl⟩
  | cons i is ih => ?_
  have hpos : ∀ i, 0 < sizeAt narrow declared i := fun i => size_pos narrow _
  have hend : roundUp off.toNat (sizeAt narrow declared i)+sizeAt narrow declared i ≤
      placedEnd (sizeAt narrow declared) (i::is) off.toNat := le_placedEnd hpos
  have hle : off.toNat ≤ roundUp off.toNat (sizeAt narrow declared i) := le_roundUp (hpos i)
  have halign : (alignUp off (alignmentWord narrow (kindAt declared i))).toNat =
      roundUp off.toNat (sizeAt narrow declared i) := toNat_align (kindAt declared i) (by omega)
  have hadvance : (advance narrow off (kindAt declared i)).toNat =
      roundUp off.toNat (sizeAt narrow declared i)+sizeAt narrow declared i := by
    have hsize : (sizeWord narrow (kindAt declared i)).toNat = sizeAt narrow declared i := by
      have := size_le narrow (kindAt declared i)
      exact Nat.mod_eq_of_lt (by omega)
    rw [advance,toNat_add,halign,hsize]
    exact Nat.mod_eq_of_lt (by omega)
  obtain ⟨h1,h2⟩ := @ih (advance narrow off (kindAt declared i)) (by rw [hadvance]; exact h)
  rw [hadvance] at h1 h2
  constructor
  · rw [wordPlaces,map_cons,h1,placed,halign]
  · exact h2

theorem placedEnd_bound {order : List Nat} {off n : Nat}
    (h : roundUp off 8 ≤ 8*n) :
    roundUp (placedEnd (sizeAt narrow declared) order off) 8 ≤ 8*(n+order.length) := by
  have := @placedEnd_le _ (sizeAt narrow declared) order off (fun i => size_pos narrow _) 8 (by omega)
    fun i => size_dvd narrow _
  omega

end

section
/-- The tables hold the fields of the given kinds. -/
structure Laid (ks : List FieldStorageKind) (st : Laying) : Prop where
  kinds : st.fieldKinds = ks
  refs : st.isRef = ks.map FieldStorageKind.isReference
  length : st.fieldOffsets.length = ks.length
  count : st.count = ks.length
  oops : ∀ o, o ∈ st.refOffsets ↔
    ∃ i : Nat, st.fieldOffsets[i]? = some o ∧ ks[i]? = some FieldStorageKind.reference

/-- The offsets are aligned, below the cursor, and apart. -/
structure Fits (narrow : Bool) (ks : List FieldStorageKind) (st : Laying) : Prop where
  inside : ∀ (i : Nat) o k, st.fieldOffsets[i]? = some o → ks[i]? = some k →
    k.sizeRuntime narrow ∣ o.toNat ∧ o.toNat+k.sizeRuntime narrow ≤ st.off.toNat
  apart : ∀ (i j : Nat) o k o' k', i ≠ j → st.fieldOffsets[i]? = some o → ks[i]? = some k →
    st.fieldOffsets[j]? = some o' → ks[j]? = some k' →
    o.toNat+k.sizeRuntime narrow ≤ o'.toNat ∨ o'.toNat+k'.sizeRuntime narrow ≤ o.toNat
  oopsOnce : st.refOffsets.Nodup
  bound : roundUp st.off.toNat 8 ≤ 8*ks.length

variable {ks : List FieldStorageKind} {st : Laying} {packByWidth : Bool}

theorem writes_places {order : List Nat} (hperm : order.Perm (range declared.length))
    (off : BitVec 32) {i : Nat} {o : BitVec 32} :
    (writes (wordPlaces narrow declared order off) (replicate declared.length 0))[i]? = some o ↔
      (i,o) ∈ wordPlaces narrow declared order off := by
  have hkeys := @wordPlaces_keys narrow declared order off
  have hnd : ((wordPlaces narrow declared order off).map fst).Nodup := by
    rw [hkeys]
    exact hperm.nodup_iff.mpr nodup_range
  constructor
  · intro h
    have hi : i < declared.length := by
      have := (List.getElem?_eq_some_iff.mp h).1
      simpa using this
    have hmem : i ∈ (wordPlaces narrow declared order off).map fst := by
      rw [hkeys]
      exact hperm.mem_iff.mpr (mem_range.mpr hi)
    obtain ⟨p,hp,rfl⟩ := mem_map.mp hmem
    have hat := @writes_mem _ _ (replicate declared.length 0) hnd p hp (by simpa using hi)
    rw [h] at hat
    rw [some.inj hat]
    exact hp
  intro h
  have hmem : i ∈ range declared.length := by
    rw [← hperm.mem_iff,← hkeys]
    exact mem_map.mpr ⟨_,h,rfl⟩
  exact @writes_mem _ _ (replicate declared.length 0) hnd (i,o) h
    (by simpa using hmem)

theorem kindAt_of_getElem? {i : Nat} {k : FieldStorageKind} (h : declared[i]? = some k) :
    kindAt declared i = k := by
  rw [kindAt,getD_eq_getElem?_getD,h]
  rfl

theorem getElem?_kindAt {i : Nat} (h : i < declared.length) :
    declared[i]? = some (kindAt declared i) := by
  rw [kindAt,getD_eq_getElem?_getD,List.getElem?_eq_getElem h]
  rfl

theorem laid_laid (h : Laid ks st) : Laid (ks++declared) (laid narrow packByWidth declared st) := by
  obtain ⟨hperm,-⟩ := @assignOrder_spec narrow declared packByWidth st.off
  unfold laid
  refine ⟨by rw [h.kinds],by rw [h.refs,map_append],?_,by rw [h.count,length_append],?_⟩
  · rw [length_append,length_writes,length_replicate,h.length,length_append]
  intro o
  rw [mem_append,h.oops,refPlaces,List.mem_map]
  constructor
  · rintro (⟨i,hi,hk⟩ | ⟨⟨i,o⟩,hp,rfl⟩)
    · have hlt := (List.getElem?_eq_some_iff.mp hi).1
      refine ⟨i,?_,?_⟩
      · rw [getElem?_append_left hlt,hi]
      · rw [getElem?_append_left (by rw [← h.length]; exact hlt),hk]
    obtain ⟨hmem,href⟩ := mem_filter.mp hp
    have hat := (writes_places hperm st.off).mpr hmem
    have hlt := (List.getElem?_eq_some_iff.mp hat).1
    rw [length_writes,length_replicate] at hlt
    refine ⟨ks.length+i,?_,?_⟩
    · rw [getElem?_append_right (by rw [h.length]; omega),h.length,Nat.add_sub_cancel_left]
      exact hat
    rw [getElem?_append_right (by omega),Nat.add_sub_cancel_left,getElem?_kindAt hlt]
    simpa [FieldStorageKind.isReference] using href
  rintro ⟨i,hi,hk⟩
  rcases Nat.lt_or_ge i ks.length with hlt | hge
  · rw [getElem?_append_left (by rw [h.length]; exact hlt)] at hi
    rw [getElem?_append_left hlt] at hk
    exact .inl ⟨i,hi,hk⟩
  rw [getElem?_append_right (by rw [h.length]; exact hge),h.length] at hi
  rw [getElem?_append_right hge] at hk
  refine .inr ⟨(i-ks.length,o),mem_filter.mpr ⟨(writes_places hperm st.off).mp hi,?_⟩,rfl⟩
  rw [kindAt_of_getElem? hk]
  rfl

theorem fits_laid (hl : Laid ks st) (h : Fits narrow ks st)
    (hsmall : 8*(ks.length+declared.length)+8 ≤ 2^32) :
    Fits narrow (ks++declared) (laid narrow packByWidth declared st) := by
  obtain ⟨hperm,-⟩ := @assignOrder_spec narrow declared packByWidth st.off
  unfold laid
  dsimp only
  generalize assignOrder narrow packByWidth declared st.off = order at hperm
  have hpos : ∀ i, 0 < sizeAt narrow declared i := fun i => size_pos narrow _
  have hlen : order.length = declared.length := by simpa using hperm.length_eq
  have hbound := @placedEnd_bound narrow declared order _ _ h.bound
  rw [hlen] at hbound
  have hend : placedEnd (sizeAt narrow declared) order st.off.toNat+8 ≤ 2^32 := by
    have := @le_roundUp (placedEnd (sizeAt narrow declared) order st.off.toNat) 8 (by omega)
    omega
  obtain ⟨hplaces,hcursor⟩ := wordPlaces_toNat hend
  have hcursorLe : st.off.toNat ≤ (cursorAfter narrow declared order st.off).toNat := by
    rw [hcursor]
    exact le_placedEnd hpos
  -- a new field is aligned, behind the old cursor and in front of the new one
  have hnew : ∀ i o, (i,o) ∈ wordPlaces narrow declared order st.off →
      sizeAt narrow declared i ∣ o.toNat ∧ st.off.toNat ≤ o.toNat ∧
        o.toNat+sizeAt narrow declared i ≤ (cursorAfter narrow declared order st.off).toNat := by
    intro i o hmem
    have hp : (i,o.toNat) ∈ placed (sizeAt narrow declared) order st.off.toNat := by
      rw [← hplaces]
      exact mem_map.mpr ⟨_,hmem,rfl⟩
    obtain ⟨h1,h2,h3⟩ := placed_mem hpos hp
    exact ⟨h1,h2,by rw [hcursor]; exact h3⟩
  have hpair : (wordPlaces narrow declared order st.off).Pairwise
      fun p q => p.2.toNat+sizeAt narrow declared p.1 ≤ q.2.toNat := by
    have := @placed_apart _ (sizeAt narrow declared) order st.off.toNat hpos
    rw [← hplaces,pairwise_map] at this
    exact this
  have hnewApart : ∀ i j o o', i ≠ j → (i,o) ∈ wordPlaces narrow declared order st.off →
      (j,o') ∈ wordPlaces narrow declared order st.off →
      o.toNat+sizeAt narrow declared i ≤ o'.toNat ∨ o'.toNat+sizeAt narrow declared j ≤ o.toNat := by
    intro i j o o' hne hi hj
    have hsym : Std.Symm fun p q : Nat × BitVec 32 =>
        p.2.toNat+sizeAt narrow declared p.1 ≤ q.2.toNat ∨
          q.2.toNat+sizeAt narrow declared q.1 ≤ p.2.toNat := ⟨fun _ _ => Or.symm⟩
    have heither : (wordPlaces narrow declared order st.off).Pairwise fun p q =>
        p.2.toNat+sizeAt narrow declared p.1 ≤ q.2.toNat ∨
          q.2.toNat+sizeAt narrow declared q.1 ≤ p.2.toNat := hpair.imp fun hpq => Or.inl hpq
    exact heither.forall hi hj fun heq => hne (mk.inj heq).1
  -- where a field of the longer table comes from
  have hsplit : ∀ (i : Nat) o k,
      (st.fieldOffsets++writes (wordPlaces narrow declared order st.off)
        (replicate declared.length 0))[i]? = some o → (ks++declared)[i]? = some k →
      (i < ks.length ∧ st.fieldOffsets[i]? = some o ∧ ks[i]? = some k) ∨
        (ks.length ≤ i ∧ (i-ks.length,o) ∈ wordPlaces narrow declared order st.off ∧
          k.sizeRuntime narrow = sizeAt narrow declared (i-ks.length)) := by
    intro i o k ho hk
    rcases Nat.lt_or_ge i ks.length with hlt | hge
    · rw [getElem?_append_left (by rw [hl.length]; exact hlt)] at ho
      rw [getElem?_append_left hlt] at hk
      exact .inl ⟨hlt,ho,hk⟩
    rw [getElem?_append_right (by rw [hl.length]; exact hge),hl.length] at ho
    rw [getElem?_append_right hge] at hk
    refine .inr ⟨hge,(writes_places hperm st.off).mp ho,?_⟩
    rw [sizeAt,kindAt_of_getElem? hk]
  refine ⟨fun i o k ho hk => ?_,fun i j o k o' k' hne ho hk ho' hk' => ?_,?_,?_⟩
  · rcases hsplit i o k ho hk with ⟨-,ho,hk⟩ | ⟨-,hmem,hsize⟩
    · obtain ⟨h1,h2⟩ := h.inside i o k ho hk
      exact ⟨h1,h2.trans hcursorLe⟩
    obtain ⟨h1,-,h3⟩ := hnew _ o hmem
    rw [hsize]
    exact ⟨h1,h3⟩
  · rcases hsplit i o k ho hk with ⟨-,ho,hk⟩ | ⟨hi,hmem,hsize⟩
    · rcases hsplit j o' k' ho' hk' with ⟨-,ho',hk'⟩ | ⟨-,hmem',-⟩
      · exact h.apart i j o k o' k' hne ho hk ho' hk'
      · exact .inl ((h.inside i o k ho hk).2.trans (hnew _ o' hmem').2.1)
    rcases hsplit j o' k' ho' hk' with ⟨-,ho',hk'⟩ | ⟨hj,hmem',hsize'⟩
    · exact .inr ((h.inside j o' k' ho' hk').2.trans (hnew _ o hmem).2.1)
    rw [hsize,hsize']
    exact hnewApart _ _ o o' (by omega) hmem hmem'
  · dsimp only
    rw [nodup_append]
    refine ⟨h.oopsOnce,?_,fun o ho o' ho' heq => ?_⟩
    · rw [refPlaces,List.Nodup,pairwise_map]
      refine (hpair.filter _).imp fun {p q} hpq heq => ?_
      have := hpos p.1
      rw [heq] at hpq
      omega
    obtain ⟨i,hi,hk⟩ := (hl.oops o).mp ho
    obtain ⟨⟨j,o''⟩,hp,hp'⟩ := mem_map.mp ho'
    have hsame : o'' = o' := hp'
    have h1 := (h.inside i o .reference hi hk).2
    have h2 := (hnew j o'' (mem_filter.mp hp).1).2.1
    have h3 := size_pos narrow .reference
    rw [hsame,← heq] at h2
    omega
  rw [hcursor,length_append]
  exact hbound

end

section
variable {store : List (Option LayoutClass)} {packByWidth : Bool} {st st' : Laying}

inductive InstanceKinds (store : List (Option LayoutClass)) : Nat → List FieldStorageKind → Prop where
  | root {id : Nat} {c : LayoutClass} {ks : List FieldStorageKind} (hc : getClass store id = some c)
      (hs : c.superclass = none) (hk : declaredKinds c.fields = some ks) : InstanceKinds store id ks
  | step {id p : Nat} {c : LayoutClass} {ps ks : List FieldStorageKind}
      (hc : getClass store id = some c) (hs : c.superclass = some p) (hp : InstanceKinds store p ps)
      (hk : declaredKinds c.fields = some ks) : InstanceKinds store id (ps++ks)

theorem InstanceKinds.unique {id : Nat} {ks ks' : List FieldStorageKind}
    (h : InstanceKinds store id ks) (h' : InstanceKinds store id ks') : ks = ks' := by
  induction h generalizing ks' with
  | root hc hs hk =>
    cases h' with
    | root hc' hs' hk' =>
      obtain rfl := some.inj (hc.symm.trans hc')
      exact some.inj (hk.symm.trans hk')
    | step hc' hs' =>
      obtain rfl := some.inj (hc.symm.trans hc')
      rw [hs] at hs'
      cases hs'
  | step hc hs _ hk ih => ?_
  cases h' with
  | root hc' hs' =>
    obtain rfl := some.inj (hc.symm.trans hc')
    rw [hs] at hs'
    cases hs'
  | step hc' hs' hp' hk' =>
    obtain rfl := some.inj (hc.symm.trans hc')
    obtain rfl := some.inj (hs.symm.trans hs')
    obtain rfl := some.inj (hk.symm.trans hk')
    rw [ih hp']

/-- The three tables have one length. -/
def Even (st : Laying) : Prop :=
  st.isRef.length = st.fieldOffsets.length ∧ st.fieldKinds.length = st.fieldOffsets.length

/-- The tables of one state begin with those of another. -/
structure Longer (st st' : Laying) : Prop where
  offsets : st.fieldOffsets <+: st'.fieldOffsets
  refs : st.isRef <+: st'.isRef
  kinds : st.fieldKinds <+: st'.fieldKinds

theorem Longer.trans {st'' : Laying} (a : Longer st st') (b : Longer st' st'') : Longer st st'' :=
  ⟨a.offsets.trans b.offsets,a.refs.trans b.refs,a.kinds.trans b.kinds⟩

theorem padFields_spec (n : Nat) (he : Even st) :
    Even ((padField narrow)^[n] st) ∧ Longer st ((padField narrow)^[n] st) ∧
      (((padField narrow)^[n] st).padded = false → n = 0 ∧ st.padded = false) := by
  induction n generalizing st with
  | zero => exact ⟨he,⟨prefix_rfl,prefix_rfl,prefix_rfl⟩,fun h => ⟨rfl,h⟩⟩
  | succ n ih => ?_
  have hone : Even (padField narrow st) := by
    obtain ⟨h1,h2⟩ := he
    exact ⟨by simp [padField,h1],by simp [padField,h2]⟩
  obtain ⟨h1,h2,h3⟩ := ih hone
  refine ⟨h1,Longer.trans ?_ h2,fun h => absurd (h3 h).2 (by simp [padField])⟩
  exact ⟨prefix_append _ _,prefix_append _ _,prefix_append _ _⟩

theorem layClass_spec {c : LayoutClass} (he : Even st)
    (h : layClass narrow packByWidth c st = some st') :
    Even st' ∧ Longer st st' ∧ (st'.padded = false → ∃ declared,
      declaredKinds c.fields = some declared ∧ st.padded = false ∧
        st' = laid narrow packByWidth declared st) := by
  cases hd : declaredKinds c.fields with
  | none =>
    unfold layClass at h
    rw [hd] at h
    cases h
  | some declared => ?_
  rw [layClass_eq hd he.1 he.2] at h
  obtain rfl := some.inj h
  have hlaid : Even (laid narrow packByWidth declared st) := by
    obtain ⟨h1,h2⟩ := he
    exact ⟨by simp [laid,h1],by simp [laid,h2]⟩
  obtain ⟨h1,h2,h3⟩ := @padFields_spec narrow _
    (c.numTotalFields-(st.count+declared.length)) hlaid
  refine ⟨h1,Longer.trans ?_ h2,fun hp => ?_⟩
  · exact ⟨prefix_append _ _,prefix_append _ _,prefix_append _ _⟩
  obtain ⟨hz,hp⟩ := h3 hp
  refine ⟨declared,rfl,hp,?_⟩
  rw [hz]
  rfl

theorem layChain_append (a b : List Nat) (st : Laying) :
    layChain narrow store packByWidth (a++b) st =
      (layChain narrow store packByWidth a st).bind (layChain narrow store packByWidth b) := by
  induction a generalizing st with
  | nil => rfl
  | cons cid a ih => ?_
  rw [List.cons_append,layChain,layChain]
  cases getClass store cid with
  | none => rfl
  | some c =>
    dsimp only
    cases layClass narrow packByWidth c st with
    | none => rfl
    | some st => exact ih st

variable {chain : List Nat}

theorem layChain_longer (he : Even st)
    (h : layChain narrow store packByWidth chain st = some st') : Even st' ∧ Longer st st' := by
  induction chain generalizing st with
  | nil =>
    obtain rfl := some.inj h
    exact ⟨he,⟨prefix_rfl,prefix_rfl,prefix_rfl⟩⟩
  | cons cid chain ih => ?_
  rw [layChain] at h
  cases hc : getClass store cid with
  | none => simp [hc] at h
  | some c => ?_
  simp only [hc] at h
  cases hl : layClass narrow packByWidth c st with
  | none => simp [hl] at h
  | some st1 =>
    simp only [hl] at h
    obtain ⟨h1,h2,-⟩ := layClass_spec he hl
    obtain ⟨h3,h4⟩ := ih h1 h
    exact ⟨h3,h2.trans h4⟩

theorem even_start : Even {} := ⟨rfl,rfl⟩

theorem layChain_snoc {id : Nat}
    (h : layChain narrow store packByWidth (chain++[id]) {} = some st') :
    ∃ c st, getClass store id = some c ∧ layChain narrow store packByWidth chain {} = some st ∧
      Even st ∧ layClass narrow packByWidth c st = some st' := by
  rw [layChain_append] at h
  obtain ⟨st,hst,h⟩ := bind_eq_some_iff.mp h
  rw [layChain] at h
  cases hc : getClass store id with
  | none => simp [hc] at h
  | some c => ?_
  simp only [hc] at h
  cases hl : layClass narrow packByWidth c st with
  | none => simp [hl] at h
  | some st1 =>
    simp only [hl,layChain] at h
    obtain rfl := some.inj h
    exact ⟨c,st,rfl,hst,(layChain_longer even_start hst).1,hl⟩

theorem laid_start : Laid [] {} := ⟨rfl,rfl,rfl,rfl,by simp⟩

theorem fits_start (narrow : Bool) : Fits narrow [] {} :=
  ⟨by simp,by simp,nodup_nil,by simp [roundUp]⟩

variable {left : Nat}

theorem chainLoop_some {id : Nat}
    (h : chainLoop store left (some id) = some chain) :
    ∃ left' c rest, left = left'+1 ∧ getClass store id = some c ∧
      chainLoop store left' c.superclass = some rest ∧ chain = id::rest := by
  cases left with
  | zero => cases h
  | succ left => ?_
  rw [chainLoop] at h
  cases hc : getClass store id with
  | none => simp [hc] at h
  | some c =>
    simp only [hc] at h
    obtain ⟨rest,hrest,rfl⟩ := map_eq_some_iff.mp h
    exact ⟨left,c,rest,rfl,rfl,hrest,rfl⟩

theorem chainLoop_none : chainLoop store left none = some [] := by
  cases left <;> rfl

theorem layChain_laid {id : Nat}
    (hchain : chainLoop store left (some id) = some chain)
    (h : layChain narrow store packByWidth chain.reverse {} = some st) (hpad : st.padded = false) :
    ∃ ks, InstanceKinds store id ks ∧ Laid ks st ∧ (8*ks.length+8 ≤ 2^32 → Fits narrow ks st) := by
  induction left generalizing id chain st with
  | zero => cases hchain
  | succ left ih => ?_
  obtain ⟨left',c,rest,heq,hc,hrest,rfl⟩ := chainLoop_some hchain
  obtain rfl := Nat.succ.inj heq
  rw [reverse_cons] at h
  obtain ⟨c',st0,hc',hst0,he,hl⟩ := layChain_snoc h
  obtain rfl := some.inj (hc.symm.trans hc')
  obtain ⟨declared,hd,hpad0,rfl⟩ := (layClass_spec he hl).2.2 hpad
  cases hs : c.superclass with
  | none => ?_
  | some p =>
    rw [hs] at hrest
    obtain ⟨ps,hps,hlaid,hfits⟩ := ih hrest hst0 hpad0
    refine ⟨ps++declared,.step hc hs hps hd,laid_laid hlaid,fun hsmall => ?_⟩
    rw [length_append] at hsmall
    exact fits_laid hlaid (hfits (by omega)) hsmall
  rw [hs,chainLoop_none] at hrest
  obtain rfl := some.inj hrest
  obtain rfl := some.inj hst0
  refine ⟨declared,.root hc hs hd,laid_laid laid_start,fun hsmall => ?_⟩
  exact fits_laid laid_start (fits_start narrow) (by simpa using hsmall)

theorem layChain_packed {id : Nat} {packed plain : Laying}
    (hchain : chainLoop store left (some id) = some chain)
    (h : layChain narrow store true chain.reverse {} = some packed) (hpad : packed.padded = false)
    (h' : layChain narrow store false chain.reverse {} = some plain) (hpad' : plain.padded = false)
    {ks : List FieldStorageKind} (hks : InstanceKinds store id ks) (hsmall : 8*ks.length+8 ≤ 2^32) :
    packed.off.toNat ≤ plain.off.toNat := by
  induction left generalizing id chain packed plain ks with
  | zero => cases hchain
  | succ left ih => ?_
  obtain ⟨left',c,rest,heq,hc,hrest,rfl⟩ := chainLoop_some hchain
  obtain rfl := Nat.succ.inj heq
  rw [reverse_cons] at h h'
  obtain ⟨c1,st1,hc1,hst1,he1,hl1⟩ := layChain_snoc h
  obtain ⟨c2,st2,hc2,hst2,he2,hl2⟩ := layChain_snoc h'
  obtain rfl := some.inj (hc.symm.trans hc1)
  obtain rfl := some.inj (hc.symm.trans hc2)
  obtain ⟨declared,hd,hpad1,rfl⟩ := (layClass_spec he1 hl1).2.2 hpad
  obtain ⟨declared',hd',hpad2,rfl⟩ := (layClass_spec he2 hl2).2.2 hpad'
  obtain rfl := some.inj (hd.symm.trans hd')
  -- the superclasses
  obtain ⟨ps,hlen,hfits1,hfits2,hle⟩ : ∃ ps : List FieldStorageKind,
      ps.length+declared.length = ks.length ∧ Fits narrow ps st1 ∧ Fits narrow ps st2 ∧
        st1.off.toNat ≤ st2.off.toNat := by
    cases hs : c.superclass with
    | none => ?_
    | some p =>
      rw [hs] at hrest
      obtain ⟨ps,hps,-,hfits⟩ := layChain_laid hrest hst1 hpad1
      obtain ⟨ps',hps',-,hfits'⟩ := layChain_laid hrest hst2 hpad2
      obtain rfl := hps.unique hps'
      have hks' : ks = ps++declared := hks.unique (.step hc hs hps hd)
      have hlen : ps.length+declared.length = ks.length := by rw [hks',length_append]
      exact ⟨ps,hlen,hfits (by omega),hfits' (by omega),ih hrest hst1 hpad1 hst2 hpad2 hps (by omega)⟩
    rw [hs,chainLoop_none] at hrest
    obtain rfl := some.inj hrest
    obtain rfl := some.inj hst1
    obtain rfl := some.inj hst2
    refine ⟨[],?_,fits_start narrow,fits_start narrow,le_rfl⟩
    rw [hks.unique (.root hc hs hd)]
    simp
  -- this class
  obtain ⟨-,-,hpack⟩ := @assignOrder_spec narrow declared true st1.off
  obtain ⟨-,hplain,-⟩ := @assignOrder_spec narrow declared false st2.off
  have hend : ∀ {st : Laying}, Fits narrow ps st → (declarationEnd narrow declared st.off).toNat =
      placedEnd (sizeAt narrow declared) (range declared.length) st.off.toNat := by
    intro st hf
    rw [← cursorAfter_range]
    refine (wordPlaces_toNat ?_).2
    have hb := @placedEnd_bound narrow declared (range declared.length) _ _ hf.bound
    have hup := @le_roundUp
      (placedEnd (sizeAt narrow declared) (range declared.length) st.off.toNat) 8 (by omega)
    rw [length_range] at hb
    omega
  calc (laid narrow true declared st1).off.toNat
      ≤ (declarationEnd narrow declared st1.off).toNat := hpack
    _ = _ := hend hfits1
    _ ≤ placedEnd (sizeAt narrow declared) (range declared.length) st2.off.toNat :=
      placedEnd_mono (fun i => size_pos narrow _) hle
    _ = (declarationEnd narrow declared st2.off).toNat := (hend hfits2).symm
    _ = (laid narrow false declared st2).off.toNat := by
      rw [← cursorAfter_range]
      simp [laid,hplain rfl]

theorem chainLoop_mono {left' : Nat} {cur : Option Nat}
    (h : chainLoop store left cur = some chain) (hle : left ≤ left') :
    chainLoop store left' cur = some chain := by
  induction left generalizing left' cur chain with
  | zero =>
    cases cur with
    | none =>
      rw [chainLoop_none] at h ⊢
      exact h
    | some id => cases h
  | succ left ih => ?_
  cases cur with
  | none =>
    rw [chainLoop_none] at h ⊢
    exact h
  | some id => ?_
  obtain ⟨left1,c,rest,heq,hc,hrest,rfl⟩ := chainLoop_some h
  obtain rfl := Nat.succ.inj heq
  obtain ⟨left',rfl⟩ : ∃ k, left' = k+1 := ⟨left'-1,by omega⟩
  have hrest' : chainLoop store left' c.superclass = some rest := ih hrest (by omega)
  rw [chainLoop]
  simp [hc,hrest',map_some]

def ExtendsClass (store : List (Option LayoutClass)) (a b : Nat) : Prop :=
  ∃ c, getClass store a = some c ∧ c.superclass = some b

theorem chainLoop_super {id p : Nat}
    (h : chainLoop store left (some id) = some chain)
    (hp : Relation.ReflTransGen (ExtendsClass store) id p) :
    ∃ front back, chain = front++back ∧ chainLoop store left (some p) = some back := by
  induction hp with
  | refl => exact ⟨[],chain,rfl,h⟩
  | @tail x y _ hxy ih => ?_
  obtain ⟨front,back,rfl,hback⟩ := ih
  obtain ⟨left',c,rest,rfl,hc,hrest,rfl⟩ := chainLoop_some hback
  obtain ⟨c',hc',hs⟩ := hxy
  obtain rfl := some.inj (hc.symm.trans hc')
  rw [hs] at hrest
  exact ⟨front++[x],rest,by simp,chainLoop_mono hrest (by omega)⟩

end

section
variable {store : List (Option LayoutClass)} {id : Nat} {packByWidth : Bool} {layout : CompactLayout}

theorem build_run (h : buildCompactLayoutOrdered narrow store id packByWidth = some layout) :
    ∃ chain st, chainLoop store store.length (some id) = some chain ∧
      layChain narrow store packByWidth chain.reverse {} = some st ∧ st.padded = false ∧
      finishLayout st = some layout := by
  unfold buildCompactLayoutOrdered at h
  cases hchain : chainLoop store store.length (some id) with
  | none => simp [hchain] at h
  | some chain => ?_
  simp only [hchain] at h
  split at h
  · cases h
  cases hst : layChain narrow store packByWidth chain.reverse {} with
  | none =>
    rw [hst] at h
    cases h
  | some st => ?_
  rw [hst] at h
  refine ⟨chain,st,rfl,hst,?_,h⟩
  by_cases hpad : st.padded = true
  · simp [finishLayout,hpad] at h
  · simpa using hpad

/-- The size of an object whose fields end at the given offset. -/
def sizeOf (off : Nat) : Nat := max (8+roundUp off 8) 16

theorem toNat_totalSize {st : Laying} (hfin : finishLayout st = some layout)
    (hsmall : roundUp st.off.toNat 8+16 ≤ 2^32) :
    layout.totalSize.toNat = sizeOf st.off.toNat := by
  have hle := @le_roundUp st.off.toNat 8 (by omega)
  have halign : ((st.off+7) &&& ~~~7).toNat = roundUp st.off.toNat 8 := by
    have hword : (alignUp st.off (BitVec.ofNat 32 8)).toNat = roundUp st.off.toNat 8 :=
      @toNat_alignUp 32 st.off 3 (by omega) (by omega)
    rw [← hword,alignUp,sub_eq_add_neg,BitVec.add_assoc]
    rfl
  unfold finishLayout at hfin
  split at hfin
  · cases hfin
  obtain rfl := some.inj hfin
  dsimp only
  have hsum : (BitVec.ofNat 32 compactHeaderSize+((st.off+7) &&& ~~~7)).toNat =
      8+roundUp st.off.toNat 8 := by
    rw [toNat_add,halign,toNat_ofNat,compactHeaderSize]
    omega
  have hmin : (BitVec.ofNat 32 minObjectSize).toNat = 16 := rfl
  unfold maxWord sizeOf
  split
  · rename_i hmax
    rw [le_def,hsum,hmin] at hmax
    rw [Nat.max_eq_right hmax]
    rfl
  rename_i hmax
  rw [le_def,hsum,hmin] at hmax
  rw [hsum,Nat.max_eq_left (Nat.le_of_not_le hmax)]

structure WellFormed (narrow : Bool) (ks : List FieldStorageKind) (layout : CompactLayout) : Prop where
  kinds : layout.fieldKinds = ks
  refs : layout.isRef = ks.map FieldStorageKind.isReference
  length : layout.fieldDisps.length = ks.length
  field : ∀ (i : Nat) d k, layout.fieldDisps[i]? = some d → ks[i]? = some k →
    k.sizeRuntime narrow ∣ d.toNat ∧ compactHeaderSize ≤ d.toNat ∧
      d.toNat+k.sizeRuntime narrow ≤ layout.totalSize.toNat
  apart : ∀ (i j : Nat) d k d' k', i ≠ j → layout.fieldDisps[i]? = some d → ks[i]? = some k →
    layout.fieldDisps[j]? = some d' → ks[j]? = some k' →
    d.toNat+k.sizeRuntime narrow ≤ d'.toNat ∨ d'.toNat+k'.sizeRuntime narrow ≤ d.toNat
  total : 8 ∣ layout.totalSize.toNat
  oopsAscending : layout.refDisps.Pairwise fun d d' => d.toNat < d'.toNat
  oops : ∀ d, d ∈ layout.refDisps ↔
    ∃ i : Nat, layout.fieldDisps[i]? = some d ∧ ks[i]? = some FieldStorageKind.reference

theorem wellFormed_of_fits {ks : List FieldStorageKind} {st : Laying} (hl : Laid ks st)
    (hf : Fits narrow ks st) (hfin : finishLayout st = some layout) (hsmall : 8*ks.length+16 ≤ 2^32) :
    WellFormed narrow ks layout := by
  have hbound := hf.bound
  have htotal := toNat_totalSize hfin (by omega)
  have hoff := @le_roundUp st.off.toNat 8 (by omega)
  have hdisp : ∀ o : BitVec 32, o.toNat < st.off.toNat →
      (o+BitVec.ofNat 32 compactHeaderSize).toNat = o.toNat+8 := by
    intro o ho
    rw [toNat_add,toNat_ofNat,compactHeaderSize]
    omega
  have hfields : ∀ (i : Nat) d k, (st.fieldOffsets.map (·+BitVec.ofNat 32 compactHeaderSize))[i]? =
      some d → ks[i]? = some k → ∃ o, st.fieldOffsets[i]? = some o ∧
        d = o+BitVec.ofNat 32 compactHeaderSize ∧ d.toNat = o.toNat+8 ∧
        k.sizeRuntime narrow ∣ o.toNat ∧ o.toNat+k.sizeRuntime narrow ≤ st.off.toNat := by
    intro i d k hd hk
    rw [getElem?_map] at hd
    obtain ⟨o,ho,rfl⟩ := map_eq_some_iff.mp hd
    obtain ⟨h1,h2⟩ := hf.inside i o k ho hk
    have hpos := size_pos narrow k
    exact ⟨o,ho,rfl,hdisp o (by omega),h1,h2⟩
  have hpad : ¬st.padded = true := fun hpad => by simp [finishLayout,hpad] at hfin
  rw [finishLayout,if_neg hpad] at hfin
  obtain rfl := some.inj hfin
  refine ⟨hl.kinds,hl.refs,by simp [hl.length],fun i d k hd hk => ?_,
    fun i j d k d' k' hne hd hk hd' hk' => ?_,?_,?_,fun d => ?_⟩
  · obtain ⟨o,-,-,hdo,h1,h2⟩ := hfields i d k hd hk
    rw [htotal,hdo]
    refine ⟨Nat.dvd_add h1 (size_dvd narrow k),by rw [compactHeaderSize]; omega,?_⟩
    rw [sizeOf]
    omega
  · obtain ⟨o,ho,-,hdo,-,-⟩ := hfields i d k hd hk
    obtain ⟨o',ho',-,hdo',-,-⟩ := hfields j d' k' hd' hk'
    rw [hdo,hdo']
    exact (hf.apart i j o k o' k' hne ho hk ho' hk').imp (fun h => by omega) fun h => by omega
  · rw [htotal,sizeOf]
    have hdvd : 8 ∣ 8+roundUp st.off.toNat 8 := Nat.dvd_add (Nat.dvd_refl 8) dvd_roundUp
    rcases Nat.le_total (8+roundUp st.off.toNat 8) 16 with hle | hle
    · rw [Nat.max_eq_right hle]
      decide
    rw [Nat.max_eq_left hle]
    exact hdvd
  · rw [pairwise_map]
    have hsorted : (st.refOffsets.insertionSort (· ≤ ·)).Pairwise (· ≤ ·) :=
      pairwise_insertionSort _ _
    have hnd : (st.refOffsets.insertionSort (· ≤ ·)).Nodup :=
      (perm_insertionSort _ _).nodup_iff.mpr hf.oopsOnce
    have hmem : ∀ o ∈ st.refOffsets.insertionSort (· ≤ ·), o.toNat < st.off.toNat := by
      intro o ho
      obtain ⟨i,hi,hk⟩ := (hl.oops o).mp ((mem_insertionSort _).mp ho)
      have := (hf.inside i o _ hi hk).2
      have := size_pos narrow .reference
      omega
    refine (hsorted.and hnd).imp_of_mem fun {o o'} ho ho' hle => ?_
    rw [hdisp o (hmem o ho),hdisp o' (hmem o' ho')]
    have hlt : o.toNat ≤ o'.toNat := hle.1
    have hne : o.toNat ≠ o'.toNat := fun heq => hle.2 (eq_of_toNat_eq heq)
    omega
  rw [List.mem_map]
  constructor
  · rintro ⟨o,ho,rfl⟩
    obtain ⟨i,hi,hk⟩ := (hl.oops o).mp ((mem_insertionSort _).mp ho)
    exact ⟨i,by rw [getElem?_map,hi]; rfl,hk⟩
  rintro ⟨i,hd,hk⟩
  obtain ⟨o,ho,rfl,-⟩ := hfields i d _ hd hk
  exact ⟨o,(mem_insertionSort _).mpr ((hl.oops o).mpr ⟨i,ho,hk⟩),rfl⟩

end
end CratonVM.ClassLoading.FieldLayout
