import CratonVM.Gc.HeapBitmap.Invariant

/-!
The two range setters. Both leave the same bitmap; a range that starts at or above the base sets
exactly its slots, and one that starts below the base sets nothing.
-/
namespace CratonVM.Gc.HeapBitmap
open BitRows List Bool BitVec
section
variable {bm : HeapBitmap}
variable (blks : List Nat)

theorem noteAll_eq (bm : HeapBitmap) :
    blks.foldl (fun bm blk => bm.noteWord (blk*blockWords)) bm =
      { bm with blocks := (blks.foldl (fun bm blk => bm.noteWord (blk*blockWords)) bm).blocks } := by
  induction blks generalizing bm with
  | nil => rfl
  | cons blk blks ih => rw [foldl_cons,ih,noteWord_eq]

theorem length_noteAll (bm : HeapBitmap) :
    (blks.foldl (fun bm blk => bm.noteWord (blk*blockWords)) bm).blocks.length = bm.blocks.length := by
  induction blks generalizing bm with
  | nil => rfl
  | cons blk blks ih => rw [foldl_cons,ih,length_noteWord_blocks]

theorem get_noteAll (bm : HeapBitmap) (k : Nat) :
    get (blks.foldl (fun bm blk => bm.noteWord (blk*blockWords)) bm).blocks k =
      (get bm.blocks k || (decide (k ∈ blks) && decide (k/64 < bm.blocks.length))) := by
  induction blks generalizing bm with
  | nil => simp
  | cons blk blks ih => ?_
  rw [foldl_cons,ih,get_noteWord,length_noteWord_blocks,show blk*blockWords/64 = blk by rw [blockWords]; omega]
  by_cases hk : blk = k
  · subst hk
    by_cases hlt : blk/64 < bm.blocks.length <;> simp [hlt]
  · simp [hk,Ne.symm hk]

variable (bm)

theorem noteSlots_eq (first last : Nat) :
    bm.noteSlots first last = { bm with blocks := (bm.noteSlots first last).blocks } := noteAll_eq _ bm

theorem noteSlots_noted (hs : Sound bm) {first last i : Nat} (hlo : first ≤ i) (hhi : i < last)
    (hin : 8*i < bm.span) : get (bm.noteSlots first last).blocks (i/64/64) = true := by
  have hw : i/64 < bm.nwords := hs.words_length ▸ slot_lt hs hin
  have hmem : i/64/64 ∈ range' ((first >>> 6)/blockWords)
      (min (if last%64 ≠ 0 then last >>> 6 else last >>> 6-1) (bm.nwords-1)/blockWords+1-(first >>> 6)/blockWords) := by
    rw [mem_range'_1,Nat.shiftRight_eq_div_pow,Nat.shiftRight_eq_div_pow,blockWords]
    split <;> omega
  rw [noteSlots,noteBlocks,get_noteAll,decide_eq_true hmem,decide_eq_true (block_lt hs hw)]
  simp

theorem Sound.noteSlots (hs : Sound bm) (first last : Nat) : Sound (bm.noteSlots first last) := by
  rw [noteSlots_eq]
  refine hs.with_blocks (length_noteAll _ bm) fun i hi => ?_
  rw [HeapBitmap.noteSlots,noteBlocks,get_noteAll,hs.summarised i hi,Bool.true_or]

end

section
theorem get_orWord (row : Row) (w i : Nat) (mask : BitVec 64) :
    get (row.modify w (· ||| mask)) i =
      (get row i || (decide (i/64 = w) && decide (w < row.length) && mask.getLsbD (i%64))) := by
  simp only [BitRows.get,getElem?_modify]
  by_cases hw : w = i/64
  · subst hw
    by_cases hlt : i/64 < row.length
    · simp [hlt]
    · simp [hlt]
  · simp [hw,Ne.symm hw]

theorem getLsbD_between {b0 b1 : Nat} (hb1 : b1 < 64) (j : Nat) :
    ((allOnes 64 <<< b0) &&& ((1#64 <<< b1)-1#64)).getLsbD j = (decide (b0 ≤ j) && decide (j < b1)) := by
  rw [getLsbD_and,getLsbD_from,below_bit hb1]
  by_cases hj : j < b1
  · simp [hj,show j < 64 by omega]
  · simp [hj]

end

section
variable {bm : HeapBitmap}

/-- The words that `set_range` writes for the slots of a range. -/
def slotWords (nwords : Nat) (row : Row) (first last : Nat) : Row :=
  let (w0,b0) := (first >>> 6,first%64)
  let (w1,b1) := (last >>> 6,last%64)
  if w0 = w1 then row.modify w0 (· ||| ((BitVec.allOnes 64 <<< b0) &&& ((1#64 <<< b1)-1#64)))
  else
    let row := overWords (fun _ v => v ||| BitVec.allOnes 64) (w0+1) (min w1 nwords)
      (row.modify w0 (· ||| (BitVec.allOnes 64 <<< b0)))
    if b1 ≠ 0 ∧ w1 < nwords then row.modify w1 (· ||| ((1#64 <<< b1)-1#64)) else row

theorem orSlots_eq (noted : HeapBitmap) (first last : Nat) :
    (if first >>> 6 = last >>> 6 then
        noted.orWord (first >>> 6) ((allOnes 64 <<< (first%64)) &&& ((1#64 <<< (last%64))-1#64))
      else
        let bm := noted.orWord (first >>> 6) (allOnes 64 <<< (first%64))
        let row := overWords (fun _ v => v ||| allOnes 64) (first >>> 6+1) (min (last >>> 6) bm.nwords) bm.words
        let bm := { bm with words := row }
        if last%64 ≠ 0 ∧ last >>> 6 < bm.nwords then bm.orWord (last >>> 6) ((1#64 <<< (last%64))-1#64) else bm) =
      { noted with words := slotWords noted.nwords noted.words first last } := by
  unfold slotWords
  by_cases hone : first >>> 6 = last >>> 6
  · simp only [if_pos hone]
    rfl
  simp only [if_neg hone]
  by_cases hlast : last%64 ≠ 0 ∧ last >>> 6 < noted.nwords
  · exact (if_pos hlast).trans (congrArg (fun row => { noted with words := row }) (if_pos hlast).symm)
  · exact (if_neg hlast).trans (congrArg (fun row => { noted with words := row }) (if_neg hlast).symm)

theorem setRange_eq (lo hi : Nat) {first last : Nat} (h : bm.slotBounds lo hi = some (first,last)) :
    bm.setRange lo hi =
      { bm.noteSlots first last with words := slotWords bm.nwords bm.words first last } := by
  have hnwords : (bm.noteSlots first last).nwords = bm.nwords := by rw [noteSlots_eq]
  have hwords : (bm.noteSlots first last).words = bm.words := by rw [noteSlots_eq]
  rw [setRange,h]
  refine (orSlots_eq (bm.noteSlots first last) first last).trans ?_
  exact congrArg₂ (fun n row => { bm.noteSlots first last with words := slotWords n row first last }) hnwords hwords

@[simp] theorem length_slotWords (nwords : Nat) (row : Row) (first last : Nat) :
    (slotWords nwords row first last).length = row.length := by
  rw [slotWords]
  split
  · simp
  · split <;> simp

theorem get_slotWords {row : Row} {first last : Nat} (hlt : first < last) (hlen : last ≤ 64*row.length) (i : Nat) :
    get (slotWords row.length row first last) i = (get row i || (decide (first ≤ i) && decide (i < last))) := by
  have hb1 : last%64 < 64 := Nat.mod_lt _ (by decide)
  rw [slotWords]
  simp only [Nat.shiftRight_eq_div_pow,show (2 : Nat)^6 = 64 from rfl]
  by_cases hone : first/64 = last/64
  · -- the range lies inside one word
    rw [if_pos hone,get_orWord,getLsbD_between hb1]
    have hw : first/64 < row.length := by omega
    by_cases hi : first ≤ i ∧ i < last
    · simp [hw,hi.1,hi.2,show i/64 = first/64 by omega,show first%64 ≤ i%64 by omega,show i%64 < last%64 by omega]
    have hout : ¬ (i/64 = first/64 ∧ first%64 ≤ i%64 ∧ i%64 < last%64) := by omega
    have hin : (decide (first ≤ i) && decide (i < last)) = false := by simpa using fun h => not_lt.mp fun h' => hi ⟨h,h'⟩
    rw [hin]
    have hzero : (decide (i/64 = first/64) && decide (first/64 < row.length) &&
        (decide (first%64 ≤ i%64) && decide (i%64 < last%64))) = false := by
      rw [eq_false_iff]
      simp only [ne_eq,and_eq_true,decide_eq_true_eq]
      exact fun h => hout ⟨h.1.1,h.2.1,h.2.2⟩
    rw [hzero]
  have hw : first/64 < row.length := by omega
  -- the word the slot is in decides: the first, one between, the last, or one outside
  have hmid : get (overWords (fun _ v => v ||| allOnes 64) (first/64+1) (min (last/64) row.length)
      (row.modify (first/64) (· ||| (allOnes 64 <<< (first%64))))) i =
      (get row i || (decide (first ≤ i) && decide (i/64 < last/64))) := by
    rw [get_overWords,length_modify]
    by_cases hin : first/64+1 ≤ i/64 ∧ i/64 < min (last/64) row.length ∧ i/64 < row.length
    · rw [if_pos hin,getLsbD_or,getLsbD_allOnes]
      simp [show first ≤ i by omega,show i/64 < last/64 by omega,Nat.mod_lt i (by decide : 0 < 64)]
    rw [if_neg hin,get_orWord,getLsbD_from]
    by_cases hfirst : i/64 = first/64
    · simp [hfirst,hw,show first/64 < last/64 by omega,Nat.mod_lt i (by decide : 0 < 64),
        show first%64 ≤ i%64 ↔ first ≤ i by omega]
    have hout : i < first ∨ ¬ i/64 < last/64 ∨ row.length ≤ i/64 := by omega
    rcases hout with h|h|h
    · simp [hfirst,show ¬ first ≤ i by omega]
    · simp [hfirst,h]
    · simp [hfirst,show ¬ i/64 < last/64 by omega]
  rw [if_neg hone]
  by_cases hlast : last%64 ≠ 0 ∧ last/64 < row.length
  · rw [if_pos hlast,get_orWord,hmid,length_overWords,length_modify,below_bit hb1]
    by_cases hi : i/64 = last/64
    · simp [hi,hlast.2,show first ≤ i by omega,show i%64 < last%64 ↔ i < last by omega]
    have hiff : i/64 < last/64 ↔ i < last := by omega
    simp [hi,hiff]
  rw [if_neg hlast,hmid]
  have hiff : i/64 < last/64 ↔ i < last := by omega
  simp [hiff]

end

section
variable {bm : HeapBitmap}

theorem slotBounds_none {lo hi : Nat} (hs : Sound bm) (h : bm.slotBounds lo hi = none) :
    ∀ i, 8*i < bm.span → bm.base ≤ lo → lo ≤ bm.base+8*i → bm.base+8*i < hi → False := by
  intro i hi hbase hlo hlt
  have hpos : bm.nwords ≠ 0 := by
    have := slot_lt hs hi
    rw [hs.words_length] at this
    omega
  rw [slotBounds,if_neg (by omega),if_neg (by omega)] at h
  rw [if_neg (by omega),if_neg (by rw [divCeil,divCeil]; omega)] at h
  cases h

theorem slotBounds_some {lo hi first last : Nat} (hs : Sound bm) (h : bm.slotBounds lo hi = some (first,last)) :
    first < last ∧ last ≤ 64*bm.words.length ∧ (∀ i, i < last → 8*i < bm.span) ∧ bm.base ≤ lo ∧
      ∀ i, 8*i < bm.span → ((first ≤ i ∧ i < last) ↔ (lo ≤ bm.base+8*i ∧ bm.base+8*i < hi)) := by
  rw [slotBounds] at h
  split at h
  · cases h
  next hempty =>
  split at h
  · cases h
  next hbase =>
  dsimp only at h
  split at h
  · cases h
  next hoff =>
  split at h
  · cases h
  next hlt =>
  obtain ⟨rfl,rfl⟩ := Prod.mk.inj (Option.some.inj h)
  rw [hs.words_length,hs.nwords_eq]
  simp only [divCeil] at hlt ⊢
  refine ⟨by omega,by omega,fun i hi => by omega,by omega,fun i hi => by omega⟩

end

theorem effect_setRange {bm : HeapBitmap} (hs : Sound bm) (lo hi : Nat) :
    Effect bm (bm.setRange lo hi)
      fun x => bm.contains x = true ∨ (bm.base ≤ lo ∧ bm.OnGrid x ∧ lo ≤ x ∧ x < hi) := by
  cases hb : bm.slotBounds lo hi with
  | none =>
    rw [setRange,hb]
    refine (Effect.refl hs).congr fun x => ⟨.inl,?_⟩
    rintro (h|⟨hbase,⟨i,rfl,hi⟩,hlo,hlt⟩)
    · exact h
    · exact (slotBounds_none hs hb i hi hbase hlo hlt).elim
  | some r => ?_
  obtain ⟨first,last⟩ := r
  obtain ⟨hlt,hlen,hin,hbase,hslots⟩ := slotBounds_some hs hb
  rw [setRange_eq lo hi hb,noteSlots_eq]
  have hget := get_slotWords hlt hlen
  rw [hs.words_length] at hget
  refine Effect.of ⟨rfl,rfl,rfl⟩ ?_ (fun i hi => ?_) (fun x hx => ?_)
  · have hnoted := Sound.noteSlots bm hs first last
    rw [noteSlots_eq] at hnoted
    refine hnoted.with_words (length_slotWords ..) fun i hi => ?_
    rw [hget,or_eq_true,and_eq_true,decide_eq_true_eq,decide_eq_true_eq] at hi
    rcases hi with hi|⟨hlo,hhi⟩
    · exact .inl hi
    · exact .inr ⟨hin i hhi,noteSlots_noted bm hs hlo hhi (hin i hhi)⟩
  · rw [hget,or_eq_true,and_eq_true,decide_eq_true_eq,decide_eq_true_eq,contains_slot hi,hslots i hi]
    constructor
    · rintro (h|h)
      · exact .inl h
      · exact .inr ⟨hbase,⟨i,rfl,hi⟩,h⟩
    rintro (h|⟨-,-,h⟩)
    · exact .inl h
    · exact .inr h
  rw [contains_off_grid hs hx]
  exact ⟨.inl,fun h => h.elim id fun h => absurd h.2.1 hx⟩

section
variable {bm : HeapBitmap}

theorem orWordPlain_eq (hlen : bm.words.length = bm.nwords) (w : Nat) (mask : BitVec 64) :
    bm.orWordPlain w mask = bm.orWord w mask := by
  rw [orWordPlain,orWord,wordAt]
  by_cases hw : bm.nwords ≤ w
  · -- past the end both leave the words alone
    rw [if_pos hw,modify_eq_self (by omega),storeWordSingleWriter,if_pos hw]
    exact ite_self bm
  have hword : bm.words[w]? = some (word bm.words w) := by
    rw [word,List.getElem?_eq_getElem (by omega)]
    rfl
  rw [if_neg hw,storeWordSingleWriter,if_neg hw]
  have hmod : ∀ f : BitVec 64 → BitVec 64, bm.words.modify w f = bm.words.set w (f (word bm.words w)) := by
    intro f
    refine ext_getElem? fun j => ?_
    rw [getElem?_modify,getElem?_set]
    by_cases hj : w = j
    · subst hj
      rw [hword]
      simp [show w < bm.words.length by omega]
    · simp [hj]
  split
  · rw [hmod,hmod]
  next hsame =>
  have hself : word bm.words w = bm.words[w] := by
    rw [List.getElem?_eq_getElem (by omega)] at hword
    exact (Option.some.inj hword).symm
  rw [hmod,not_not.mp hsame,hself,set_getElem_self]

theorem fillWords_eq (ws : List Nat) {bm : HeapBitmap} (hws : ∀ w ∈ ws, w < bm.nwords) :
    ws.foldl (fun bm w => bm.storeWordSingleWriter w (allOnes 64)) bm =
      { bm with words := ws.foldl (fun r w => r.modify w (· ||| allOnes 64)) bm.words } := by
  induction ws generalizing bm with
  | nil => rfl
  | cons w ws ih => ?_
  have hw := not_le.mpr (hws w mem_cons_self)
  have hstore : bm.storeWordSingleWriter w (allOnes 64) =
      { bm with words := bm.words.modify w (· ||| allOnes 64) } := by
    rw [storeWordSingleWriter,if_neg hw]
    simp only [or_allOnes]
  rw [foldl_cons,foldl_cons,hstore]
  exact ih fun v hv => hws v (mem_cons_of_mem _ hv)

theorem plainSlots_eq {noted : HeapBitmap} (hlen : noted.words.length = noted.nwords) (first last : Nat) :
    (if first >>> 6 = last >>> 6 then
        noted.orWordPlain (first >>> 6) ((allOnes 64 <<< (first%64)) &&& ((1#64 <<< (last%64))-1#64))
      else
        let bm := noted.orWordPlain (first >>> 6) (allOnes 64 <<< (first%64))
        let bm := (range' (first >>> 6+1) (min (last >>> 6) bm.nwords-(first >>> 6+1))).foldl
          (fun bm w => bm.storeWordSingleWriter w (allOnes 64)) bm
        if last%64 ≠ 0 ∧ last >>> 6 < bm.nwords then bm.orWordPlain (last >>> 6) ((1#64 <<< (last%64))-1#64)
        else bm) =
      { noted with words := slotWords noted.nwords noted.words first last } := by
  rw [← orSlots_eq]
  by_cases hone : first >>> 6 = last >>> 6
  · simp only [if_pos hone]
    exact orWordPlain_eq hlen _ _
  simp only [if_neg hone]
  have hfirst := orWordPlain_eq hlen (first >>> 6) (allOnes 64 <<< (first%64))
  have hfill : (range' (first >>> 6+1)
      (min (last >>> 6) (noted.orWordPlain (first >>> 6) (allOnes 64 <<< (first%64))).nwords-
        (first >>> 6+1))).foldl (fun bm w => bm.storeWordSingleWriter w (allOnes 64))
          (noted.orWordPlain (first >>> 6) (allOnes 64 <<< (first%64))) =
      { noted.orWord (first >>> 6) (allOnes 64 <<< (first%64)) with
        words := overWords (fun _ v => v ||| allOnes 64) (first >>> 6+1) (min (last >>> 6) noted.nwords)
          (noted.orWord (first >>> 6) (allOnes 64 <<< (first%64))).words } := by
    rw [hfirst]
    refine fillWords_eq _ fun w hw => ?_
    have hrange := mem_range'_1.mp hw
    omega
  refine (congrArg (fun bm : HeapBitmap => if last%64 ≠ 0 ∧ last >>> 6 < bm.nwords then
    bm.orWordPlain (last >>> 6) ((1#64 <<< (last%64))-1#64) else bm) hfill).trans ?_
  by_cases hlast : last%64 ≠ 0 ∧ last >>> 6 < noted.nwords
  · refine (if_pos hlast).trans ((orWordPlain_eq ?_ _ _).trans (if_pos hlast).symm)
    simpa [orWord] using hlen
  · exact (if_neg hlast).trans (if_neg hlast).symm

theorem setRangeSingleWriter_eq (hs : Sound bm) (lo hi : Nat) :
    bm.setRangeSingleWriter lo hi = bm.setRange lo hi := by
  cases h : bm.slotBounds lo hi with
  | none => rw [setRangeSingleWriter,setRange,h]
  | some r => ?_
  obtain ⟨first,last⟩ := r
  have hlen : (bm.noteSlots first last).words.length = (bm.noteSlots first last).nwords :=
    (Sound.noteSlots bm hs first last).words_length
  rw [setRangeSingleWriter,setRange,h]
  exact (plainSlots_eq hlen first last).trans (orSlots_eq _ first last).symm

end

/-- The second bitmap records what the first does and the slots of the range, under the invariant. -/
def RecordsRange (bm : HeapBitmap) (lo hi : Nat) (bm' : HeapBitmap) : Prop :=
  Sound bm' ∧ ∀ a, bm'.contains a = true ↔ bm.contains a = true ∨ (bm.OnGrid a ∧ lo ≤ a ∧ a < hi)

theorem recordsRange_iff {bm : HeapBitmap} (hs : Sound bm) (lo hi : Nat) :
    RecordsRange bm lo hi (bm.setRange lo hi) ↔
      bm.base ≤ lo ∨ ∀ a, bm.OnGrid a → lo ≤ a → a < hi → bm.contains a = true := by
  have heff := effect_setRange hs lo hi
  constructor
  · intro h
    by_cases hbase : bm.base ≤ lo
    · exact .inl hbase
    refine .inr fun a ha hlo hhi => ?_
    rcases (heff.records a).mp ((h.2 a).mpr (.inr ⟨ha,hlo,hhi⟩)) with hmem|hadd
    · exact hmem
    · exact absurd hadd.1 hbase
  intro h
  refine ⟨heff.sound,fun a => (heff.records a).trans ⟨?_,?_⟩⟩
  · rintro (hmem|⟨-,hadd⟩)
    · exact .inl hmem
    · exact .inr hadd
  rintro (hmem|hadd)
  · exact .inl hmem
  rcases h with hbase|hall
  · exact .inr ⟨hbase,hadd⟩
  · exact .inl (hall a hadd.1 hadd.2.1 hadd.2.2)

/-- The setters are exact when the range starts at or above the base, or when it has no slot that is
not already set. -/
theorem range_setters_exact_iff {bm : HeapBitmap} (hs : Sound bm) (lo hi : Nat) :
    (RecordsRange bm lo hi (bm.setRange lo hi) ∧ RecordsRange bm lo hi (bm.setRangeSingleWriter lo hi) ∧
        bm.setRange lo hi = bm.setRangeSingleWriter lo hi) ↔
      bm.base ≤ lo ∨ ∀ a, bm.OnGrid a → lo ≤ a → a < hi → bm.contains a = true := by
  rw [setRangeSingleWriter_eq hs,← recordsRange_iff hs]
  exact ⟨And.left,fun h => ⟨h,h,rfl⟩⟩

theorem range_setters_exact_page :
    Sound (labelled 4096 4096) ∧
      RecordsRange (labelled 4096 4096) 4160 4616 ((labelled 4096 4096).setRange 4160 4616) :=
  ⟨sound_labelled 4096 4096,((range_setters_exact_iff (sound_labelled 4096 4096) 4160 4616).mpr (.inl (by decide))).1⟩

/-- A range that starts 64 bytes below the base and ends 16 bytes above it sets nothing. -/
theorem range_below_base_sets_nothing :
    Sound (labelled 4096 4096) ∧
      ¬ RecordsRange (labelled 4096 4096) 4032 4112 ((labelled 4096 4096).setRange 4032 4112) := by
  refine ⟨sound_labelled 4096 4096,fun h => ?_⟩
  have hset := (h.2 4096).mpr (.inr ⟨⟨0,by decide,by decide⟩,by decide,by decide⟩)
  cases hset

end CratonVM.Gc.HeapBitmap
