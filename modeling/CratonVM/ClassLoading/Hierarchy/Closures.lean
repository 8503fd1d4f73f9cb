import CratonVM.ClassLoading.Hierarchy.Displays

/-!
The published closures: each slot that is filled holds exactly the ids its class reaches, and a
change of a class empties the slots of every class that reaches it.
-/
namespace CratonVM.ClassLoading
open Hierarchy BinarySearch GraphSearch List Option Finset

namespace PublishedSupers
variable {p : PublishedSupers}

section
def encode (off len : Nat) : Nat := (off <<< 16) ||| len

theorem encode_eq {off len : Nat} (hlen : len < 2^16) : encode off len = off*2^16+len := by
  rw [encode,← Nat.shiftLeft_add_eq_or_of_lt hlen,Nat.shiftLeft_eq]

theorem encode_len {off len : Nat} (hlen : len < 2^16) : encode off len &&& 0xFFFF = len := by
  rw [encode_eq hlen,show (0xFFFF : Nat) = 2^16-1 from rfl,Nat.and_two_pow_sub_one_eq_mod]
  omega

theorem encode_off {off len : Nat} (hlen : len < 2^16) : encode off len >>> 16 = off := by
  rw [encode_eq hlen,Nat.shiftRight_eq_div_pow]
  omega

end

/-- A slot value names a run of words below the cursor that does not straddle a chunk. -/
structure Names (p : PublishedSupers) (enc : Nat) (words : List Nat) : Prop where
  run : ∃ off, enc = encode off words.length ∧ off/supersArenaChunk < supersArenaChunks ∧
    p.allocated (off/supersArenaChunk) = true ∧ off%supersArenaChunk+words.length ≤ supersArenaChunk ∧
    off+words.length ≤ p.cursor ∧ ∀ i, i < words.length → p.words (off+i) = words.getD i 0
  nonempty : words ≠ []
  short : words.length ≤ maxHierarchyDepth

theorem Names.closureAt {enc : Nat} {words : List Nat} (h : Names p enc words) :
    p.closureAt enc = some words := by
  obtain ⟨⟨off,rfl,hchunk,halloc,hfit,-,hwords⟩,hne,hshort⟩ := h
  have hpos := length_pos_iff.mpr hne
  have hlen : words.length < 2^16 := by
    have : maxHierarchyDepth < 2^16 := by decide
    omega
  have hoff : off < 2^22 := by
    simp only [supersArenaChunk,supersArenaChunks] at hchunk
    omega
  have hplain : ¬(encode off words.length = supersEmpty ∨ encode off words.length = supersTooLarge) := by
    rw [encode_eq hlen]
    simp only [supersEmpty,supersTooLarge]
    omega
  rw [PublishedSupers.closureAt,if_neg hplain,encode_len hlen,encode_off hlen]
  rw [if_pos ⟨hchunk,halloc,hfit⟩]
  congr 1
  apply ext_getElem
  · simp
  intro i h1 h2
  have := hwords i h2
  simpa [h2] using this

theorem Names.storeWords {enc : Nat} {words : List Nat} (h : Names p enc words) (more : List Nat) :
    Names (p.storeWords more).2 enc words := by
  obtain ⟨⟨off,henc,hchunk,halloc,hfit,hcur,hwords⟩,hne,hshort⟩ := h
  refine ⟨⟨off,henc,hchunk,?_⟩,hne,hshort⟩
  have hnext : p.cursor ≤ p.nextOffset more.length := by
    unfold nextOffset
    split
    · have := Nat.div_add_mod p.cursor supersArenaChunk
      have hlt := Nat.mod_lt p.cursor (show 0 < supersArenaChunk by decide)
      rw [Nat.mul_comm] at this
      rw [Nat.add_mul]
      omega
    · exact le_rfl
  unfold PublishedSupers.storeWords
  dsimp only
  split
  · refine ⟨by simp [halloc],hfit,by dsimp only; omega,fun i hi => ?_⟩
    dsimp only
    rw [if_neg (by omega)]
    exact hwords i hi
  · exact ⟨halloc,hfit,hcur,hwords⟩

theorem names_storeWords {words : List Nat} (hne : words ≠ [])
    (hshort : words.length ≤ maxHierarchyDepth) {enc : Nat}
    (henc : (p.storeWords words).1 = some enc) : Names (p.storeWords words).2 enc words := by
  have hle : words.length ≤ supersArenaChunk :=
    Nat.le_trans hshort (by decide)
  have hfit : p.nextOffset words.length%supersArenaChunk+words.length ≤ supersArenaChunk := by
    unfold nextOffset
    split
    · rw [Nat.mul_mod_left]
      omega
    · omega
  unfold PublishedSupers.storeWords at henc ⊢
  dsimp only at henc ⊢
  split at henc
  · rename_i hchunk
    rw [if_pos hchunk]
    obtain rfl := some.inj henc
    refine ⟨⟨_,rfl,hchunk,by simp,hfit,le_rfl,fun i hi => ?_⟩,hne,hshort⟩
    dsimp only
    rw [if_pos (by omega),Nat.add_sub_cancel_left]
  · cases henc

end PublishedSupers

open PublishedSupers
section
variable {g g' : Stored} {p : PublishedSupers}

/-- An ascending list of exactly the ids a class reaches. -/
def ClosureOf (g : Stored) (id : Nat) (words : List Nat) : Prop :=
  words.Pairwise (· < ·) ∧ ∀ x, x ∈ words ↔ Reaches g id x

/-- What a slot can hold. -/
def SlotExact (g : Stored) (p : PublishedSupers) (id : Nat) : Prop :=
  p.slots id ≠ supersEmpty → (g id).isSome = true ∧ (p.slots id = supersTooLarge ∨
    ∃ words, Names p (p.slots id) words ∧ ClosureOf g id words)

def FilledCount (p : PublishedSupers) : Prop :=
  ∃ filled : Finset Nat, (∀ id, id ∈ filled ↔ p.slots id ≠ supersEmpty) ∧ p.filled = filled.card

theorem FilledCount.empty (h : FilledCount p) (hzero : p.filled = 0) (id : Nat) :
    p.slots id = supersEmpty := by
  obtain ⟨filled,hmem,hcard⟩ := h
  by_contra hne
  have := card_pos.mpr ⟨id,(hmem id).mpr hne⟩
  omega

theorem FilledCount.forget (h : FilledCount p) (id : Nat) : FilledCount (p.forget id) := by
  unfold PublishedSupers.forget
  split
  · exact h
  rename_i hne
  obtain ⟨filled,hmem,hcard⟩ := h
  refine ⟨filled.erase id,fun x => ?_,?_⟩
  · by_cases hx : x = id
    · simp [hx]
    · simp [hx,hmem]
  · rw [card_erase_of_mem ((hmem id).mpr hne),← hcard]

theorem slots_forget (id x : Nat) :
    (p.forget id).slots x = if x = id then supersEmpty else p.slots x := by
  unfold PublishedSupers.forget
  split
  · split
    · rename_i h hx
      rw [hx,h]
    · rfl
  · rfl

theorem names_forget {enc id : Nat} {words : List Nat} :
    Names (p.forget id) enc words ↔ Names p enc words := by
  unfold PublishedSupers.forget
  split
  · exact .rfl
  · exact ⟨fun ⟨a,b,c⟩ => ⟨a,b,c⟩,fun ⟨a,b,c⟩ => ⟨a,b,c⟩⟩

theorem forgetAll (ids : List Nat) (hcount : FilledCount p) :
    FilledCount (ids.foldl PublishedSupers.forget p) ∧
      (∀ x, (ids.foldl PublishedSupers.forget p).slots x =
        if x ∈ ids then supersEmpty else p.slots x) ∧
      ∀ enc words, Names (ids.foldl PublishedSupers.forget p) enc words ↔ Names p enc words := by
  induction ids generalizing p with
  | nil => exact ⟨hcount,by simp,fun _ _ => .rfl⟩
  | cons id ids ih => ?_
  obtain ⟨hcount',hslots,hnames⟩ := ih (hcount.forget id)
  refine ⟨hcount',fun x => ?_,fun enc words => (hnames enc words).trans names_forget⟩
  rw [foldl_cons,hslots,slots_forget]
  by_cases hx : x = id
  · simp [hx]
  · simp [hx]

theorem fillSlot_spec (hcount : FilledCount p) (id : Nat) {enc : Nat} (hne : enc ≠ supersEmpty) :
    FilledCount (p.fillSlot id enc).2 ∧
      (p.fillSlot id enc).1 = (p.fillSlot id enc).2.slots id ∧
      (∀ x, (p.fillSlot id enc).2.slots x = p.slots x ∨
        x = id ∧ (p.fillSlot id enc).2.slots x = enc) ∧
      ∀ e words, Names p e words → Names (p.fillSlot id enc).2 e words := by
  unfold PublishedSupers.fillSlot
  split
  · rename_i hempty
    refine ⟨?_,by simp,fun x => ?_,fun e words ⟨a,b,c⟩ => ⟨a,b,c⟩⟩
    · obtain ⟨filled,hmem,hcard⟩ := hcount
      refine ⟨insert id filled,fun x => ?_,?_⟩
      · by_cases hx : x = id
        · simp [hx,hne]
        · simp [hx,hmem]
      · rw [card_insert_of_notMem (by rw [hmem]; simp [hempty]),← hcard]
    by_cases hx : x = id
    · exact .inr ⟨hx,by simp [hx]⟩
    · exact .inl (by simp [hx])
  · exact ⟨hcount,rfl,fun x => .inl rfl,fun e words h => h⟩

theorem filled_storeWords (words : List Nat) :
    (p.storeWords words).2.slots = p.slots ∧ (p.storeWords words).2.filled = p.filled := by
  unfold PublishedSupers.storeWords
  dsimp only
  split <;> exact ⟨rfl,rfl⟩

theorem fillSlot_exact (hcount : FilledCount p) (hex : ∀ x, SlotExact g p x) {id enc : Nat}
    (hid : (g id).isSome = true) (hne : enc ≠ supersEmpty)
    (henc : enc = supersTooLarge ∨ ∃ words, Names p enc words ∧ ClosureOf g id words) :
    ∀ x, SlotExact g (p.fillSlot id enc).2 x := by
  obtain ⟨-,-,hslots,hnames⟩ := fillSlot_spec hcount id hne
  intro x hx
  rcases hslots x with hsame | ⟨rfl,hnew⟩
  · rw [hsame] at hx ⊢
    obtain ⟨hstored,hrest⟩ := hex x hx
    exact ⟨hstored,hrest.imp (fun h => h) fun ⟨words,hw,hc⟩ => ⟨words,hnames _ _ hw,hc⟩⟩
  rw [hnew]
  exact ⟨hid,henc.imp (fun h => h) fun ⟨words,hw,hc⟩ => ⟨words,hnames _ _ hw,hc⟩⟩

theorem publish_exact (hcount : FilledCount p) (hex : ∀ x, SlotExact g p x) {id : Nat}
    {closure : List Nat} (hid : (g id).isSome = true)
    (hclosure : closure ≠ [] → ClosureOf g id closure ∧ closure.length ≤ maxHierarchyDepth) :
    FilledCount (p.publish id closure).2 ∧ (∀ x, SlotExact g (p.publish id closure).2 x) ∧
      ∀ enc, (p.publish id closure).1 = some enc → enc = (p.publish id closure).2.slots id := by
  unfold PublishedSupers.publish
  split
  · split
    · have hne : supersTooLarge ≠ supersEmpty := by decide
      obtain ⟨hcount',hval,-,-⟩ := fillSlot_spec hcount id hne
      refine ⟨hcount',fillSlot_exact hcount hex hid hne (.inl rfl),fun enc henc => ?_⟩
      rw [← some.inj henc]
      exact hval
    rename_i hnil
    obtain ⟨hof,hshort⟩ := hclosure hnil
    obtain ⟨hslots,hfilled⟩ := @filled_storeWords p closure
    have hcount' : FilledCount (p.storeWords closure).2 := by
      obtain ⟨filled,hmem,hcard⟩ := hcount
      exact ⟨filled,fun x => by rw [hslots]; exact hmem x,by rw [hfilled]; exact hcard⟩
    have hex' : ∀ x, SlotExact g (p.storeWords closure).2 x := by
      intro x hx
      rw [hslots] at hx ⊢
      obtain ⟨hstored,hrest⟩ := hex x hx
      exact ⟨hstored,hrest.imp (fun h => h) fun ⟨words,hw,hc⟩ => ⟨words,hw.storeWords _,hc⟩⟩
    have hnames : ∀ enc, (p.storeWords closure).1 = some enc →
        Names (p.storeWords closure).2 enc closure := fun _ => names_storeWords hnil hshort
    generalize p.storeWords closure = stored at *
    obtain ⟨enc?,q⟩ := stored
    cases enc? with
    | none => exact ⟨hcount',hex',fun enc henc => by cases henc⟩
    | some enc => ?_
    have hw := hnames enc rfl
    have hne : enc ≠ supersEmpty := by
      rintro rfl
      have := hw.closureAt
      simp [PublishedSupers.closureAt] at this
    obtain ⟨hcount'',hval,-,-⟩ := fillSlot_spec hcount' id hne
    refine ⟨hcount'',fillSlot_exact hcount' hex' hid hne (.inr ⟨closure,hw,hof⟩),?_⟩
    intro e he
    rw [← some.inj he]
    exact hval
  · exact ⟨hcount,hex,fun enc henc => by cases henc⟩

theorem SlotExact.answer {id sup : Nat} {b : Bool} (h : SlotExact g p id)
    (hb : p.answer (p.slots id) sup = some b) : b = true ↔ Reaches g id sup := by
  unfold PublishedSupers.answer at hb
  by_cases hempty : p.slots id = supersEmpty
  · simp [PublishedSupers.closureAt,hempty] at hb
  rcases (h hempty).2 with hlarge | ⟨words,hw,hasc,hmem⟩
  · simp [PublishedSupers.closureAt,hlarge] at hb
  rw [hw.closureAt,map_some] at hb
  rw [← some.inj hb,binarySearch_isSome hasc,hmem]

end

section
variable {h : Hierarchy}

theorem growClosure_spec {edges out stack out' stack' : List Nat}
    (hgrow : growClosure edges out stack = some (out',stack')) (hnd : out.Nodup)
    (hlen : out.length ≤ maxHierarchyDepth) :
    out'.Nodup ∧ out'.length ≤ maxHierarchyDepth ∧
      out'.length+stack.length = out.length+stack'.length ∧
      (∀ x, x ∈ out' ↔ x ∈ out ∨ x ∈ edges) ∧
      ∀ x, x ∈ stack' ↔ x ∈ stack ∨ x ∈ edges ∧ x ∉ out := by
  induction edges generalizing out stack with
  | nil =>
    obtain ⟨rfl,rfl⟩ := Prod.mk.inj (some.inj hgrow)
    exact ⟨hnd,hlen,rfl,by simp,by simp⟩
  | cons v edges ih => ?_
  rw [growClosure] at hgrow
  split at hgrow
  · obtain ⟨h1,h2,h3,h4,h5⟩ := ih hgrow hnd hlen
    refine ⟨h1,h2,h3,fun x => ?_,fun x => ?_⟩
    · rw [h4,List.mem_cons]
      grind
    rw [h5,List.mem_cons]
    grind
  rename_i hv
  split at hgrow
  · cases hgrow
  have hnd' : (out++[v]).Nodup := by
    rw [nodup_append]
    refine ⟨hnd,by simp,fun a ha b hb => ?_⟩
    rintro rfl
    exact hv (List.mem_singleton.mp hb ▸ ha)
  obtain ⟨h1,h2,h3,h4,h5⟩ := ih hgrow hnd' (by simp; omega)
  refine ⟨h1,h2,by simp at h3; omega,fun x => ?_,fun x => ?_⟩
  · rw [h4,mem_append,List.mem_singleton,List.mem_cons]
    tauto
  rw [h5,mem_append,List.mem_singleton,List.mem_cons,List.mem_cons]
  grind

/-- What was found is reached, and what is not on the stack is expanded. -/
structure Growing (h : Hierarchy) (id : Nat) (out stack : List Nat) : Prop where
  nodup : out.Nodup
  short : out.length ≤ maxHierarchyDepth
  self : id ∈ out
  reached : ∀ x ∈ out, Reaches h.get id x
  found : ∀ x ∈ stack, x ∈ out
  expanded : ∀ x ∈ out, x ∈ stack ∨ ∀ y, Edge h.get x y → y ∈ out

theorem Growing.pop {id n : Nat} {out stack : List Nat} (hg : Growing h id out (n::stack))
    (hn : h.get n = none) : Growing h id out stack := by
  refine ⟨hg.nodup,hg.short,hg.self,hg.reached,fun x hx => hg.found x (by simp [hx]),fun x hx => ?_⟩
  rcases hg.expanded x hx with hx | hx
  · rcases mem_cons.mp hx with rfl | hx
    · refine .inr fun y ⟨c,hc,_⟩ => ?_
      rw [hn] at hc
      cases hc
    · exact .inl hx
  · exact .inr hx

theorem Growing.grow {id n : Nat} {c : Class} {out stack out' stack' : List Nat}
    (hg : Growing h id out (n::stack)) (hn : h.get n = some c)
    (hgrow : growClosure (edgesOf c) out stack = some (out',stack')) :
    Growing h id out' stack' := by
  obtain ⟨hnd,hlen,-,hout,hstack⟩ := growClosure_spec hgrow hg.nodup hg.short
  refine ⟨hnd,hlen,(hout id).mpr (.inl hg.self),fun x hx => ?_,fun x hx => ?_,fun x hx => ?_⟩
  · rcases (hout x).mp hx with hx | hx
    · exact hg.reached x hx
    · exact (hg.reached n (hg.found n (by simp))).tail ⟨c,hn,hx⟩
  · rcases (hstack x).mp hx with hx | ⟨hx,-⟩
    · exact (hout x).mpr (.inl (hg.found x (by simp [hx])))
    · exact (hout x).mpr (.inr hx)
  by_cases hold : x ∈ out
  · rcases hg.expanded x hold with hx | hx
    · rcases mem_cons.mp hx with rfl | hx
      · refine .inr fun y ⟨c',hc',hy⟩ => ?_
        obtain rfl := some.inj (hn.symm.trans hc')
        exact (hout y).mpr (.inr hy)
      · exact .inl ((hstack x).mpr (.inl hx))
    · exact .inr fun y hy => (hout y).mpr (.inl (hx y hy))
  · exact .inl ((hstack x).mpr (.inr ⟨((hout x).mp hx).resolve_left hold,hold⟩))

theorem closureLoop_exact {turns id : Nat} {out stack out' : List Nat}
    (hg : Growing h id out stack) (hrun : h.closureLoop turns out stack = some out') :
    Growing h id out' [] := by
  induction turns generalizing out stack with
  | zero =>
    cases stack with
    | nil =>
      obtain rfl := some.inj hrun
      exact hg
    | cons n stack => cases hrun
  | succ turns ih => ?_
  cases stack with
  | nil =>
    obtain rfl := some.inj hrun
    exact hg
  | cons n stack => ?_
  rw [closureLoop] at hrun
  cases hn : h.get n with
  | none =>
    rw [hn] at hrun
    exact ih (hg.pop hn) hrun
  | some c => ?_
  simp only [hn] at hrun
  cases hgrow : growClosure (edgesOf c) out stack with
  | none => simp [hgrow] at hrun
  | some r =>
    simp only [hgrow] at hrun
    exact ih (hg.grow hn hgrow) hrun

theorem growing_start (h : Hierarchy) (id : Nat) : Growing h id [id] [id] := by
  refine ⟨by simp,by simp [maxHierarchyDepth],by simp,?_,by simp,by simp⟩
  intro x hx
  obtain rfl := List.mem_singleton.mp hx
  exact .refl

theorem computeSecondarySupers_exact {id : Nat} (hne : h.computeSecondarySupers id ≠ []) :
    ClosureOf h.get id (h.computeSecondarySupers id) ∧
      (h.computeSecondarySupers id).length ≤ maxHierarchyDepth := by
  unfold computeSecondarySupers at hne ⊢
  cases hrun : h.closureLoop maxHierarchyDepth [id] [id] with
  | none => simp [hrun] at hne
  | some out => ?_
  obtain ⟨hnd,hlen,hself,hreached,-,hexp⟩ := closureLoop_exact (growing_start h id) hrun
  refine ⟨⟨?_,fun x => ?_⟩,by simpa using hlen⟩
  · have hnd' : (out.insertionSort (· ≤ ·)).Nodup :=
      (perm_insertionSort _ out).nodup_iff.mpr hnd
    exact ((pairwise_insertionSort (· ≤ ·) out).and hnd').imp fun hab =>
      Nat.lt_of_le_of_ne hab.1 hab.2
  rw [mem_insertionSort]
  refine ⟨hreached x,fun hx => ?_⟩
  induction hx with
  | refl => exact hself
  | tail _ hxy ih => exact (hexp _ ih).resolve_left (by simp) _ hxy

end

section
variable {h : Hierarchy} {id : Nat}

theorem reaching_mem (hbound : ∀ n x, x ∈ h.childrenOf n → x < h.classes.length) {x : Nat}
    (hreach : Relation.ReflTransGen (fun a b => b ∈ h.childrenOf a) id x) : x ∈ h.reaching id := by
  have hnodes : ∀ n ∈ id::range h.classes.length, ∀ m ∈ h.childrenOf n,
      m ∈ id::range h.classes.length :=
    fun n _ m hm => mem_cons_of_mem _ (List.mem_range.mpr (hbound n m hm))
  obtain ⟨out,hout⟩ := @searchLoop_ends _ _ h.childrenOf _ hnodes (h.reverseTurns id) [id]
    (by simp) le_rfl
  rw [reaching,hout,getD_some]
  exact mem_of_reachable hout (by simp) hreach

/-- What the invalidation does to the slots. -/
structure Forgotten (h h' : Hierarchy) : Prop where
  same : h' = { h with secondaries := h'.secondaries }
  count : FilledCount h'.secondaries
  kept : ∀ x, h'.secondaries.slots x ≠ supersEmpty →
    h'.secondaries.slots x = h.secondaries.slots x
  names : ∀ enc words, Names h'.secondaries enc words ↔ Names h.secondaries enc words

theorem forgotten_refl (hcount : FilledCount h.secondaries) : Forgotten h h :=
  ⟨rfl,hcount,fun _ _ => rfl,fun _ _ => .rfl⟩

theorem forgetSecondarySupersReaching_spec (hcount : FilledCount h.secondaries) :
    Forgotten h (h.forgetSecondarySupersReaching id) ∧
      ∀ x ∈ h.reaching id, (h.forgetSecondarySupersReaching id).secondaries.slots x = supersEmpty := by
  unfold forgetSecondarySupersReaching
  split
  · rename_i hzero
    exact ⟨forgotten_refl hcount,fun x _ => hcount.empty hzero x⟩
  obtain ⟨hcount',hslots,hnames⟩ := forgetAll (h.reaching id) hcount
  refine ⟨⟨rfl,hcount',fun x hx => ?_,hnames⟩,fun x hx => ?_⟩
  · rw [hslots] at hx ⊢
    split at hx
    · contradiction
    rename_i hmem
    rw [if_neg hmem]
  · rw [hslots,if_pos hx]

/-- Every class that reaches the changed one has lost its closure, so the others are exact in the
new hierarchy as well. -/
theorem Forgotten.exact {g g' : Stored} {h' : Hierarchy} (hf : Forgotten h h')
    (hex : ∀ x, SlotExact g h.secondaries x) (hsame : SameBut g g' id)
    (hlost : ∀ x, Reaches g x id → (g x).isSome = true →
      h'.secondaries.slots x = supersEmpty) :
    ∀ x, SlotExact g' h'.secondaries x := by
  intro x hx
  have hslot := hf.kept x hx
  rw [hslot] at hx ⊢
  obtain ⟨hstored,hrest⟩ := hex x hx
  have hno : ¬Reaches g x id := by
    intro hr
    rw [← hslot] at hx
    exact hx (hlost x hr hstored)
  have hxid : x ≠ id := by
    rintro rfl
    exact hno .refl
  refine ⟨hsame x hxid ▸ hstored,hrest.imp (fun h => h) fun ⟨words,hw,hasc,hmem⟩ => ?_⟩
  exact ⟨words,(hf.names _ _).mpr hw,hasc,fun y => (hmem y).trans (hsame.reaches_iff hno)⟩

end
end CratonVM.ClassLoading
