import CratonVM.Gc.HeapBitmap.RangeSetting

/-!
Retains, clears and the forgetting of summary blocks. A retain or a clear masks words and never sets a
bit; a forgotten block is one whose words are all zero.
-/
namespace CratonVM.Gc.HeapBitmap
open BitRows Bool BitVec
open List hiding get
open Option hiding get

def covers (bm : HeapBitmap) (ranges : List (Nat × Nat)) (w : Nat) : Bool :=
  ranges.any fun r => decide ((bm.wordRange r.1 r.2).1 ≤ w) && decide (w < (bm.wordRange r.1 r.2).2)

/-- The slot of an address of the grid. -/
def slotOf (bm : HeapBitmap) (a : Nat) : Nat := (a-bm.base)/8

/-- Does the bitmap have the bit of that index? -/
def hasSlot (bm : HeapBitmap) (i : Nat) : Bool := (bm.wordAt (i/64)).getLsbD (i%64)

section
variable {bm : HeapBitmap} {f : Nat → BitVec 64 → BitVec 64} {K : Nat → Bool}

/-- A word loop that keeps the bits `K` allows. -/
def Masks (f : Nat → BitVec 64 → BitVec 64) (K : Nat → Bool) : Prop :=
  ∀ w v b, b < 64 → (f w v).getLsbD b = (v.getLsbD b && K (w*64+b))

theorem get_overWords_masked (hf : Masks f K) (row : Row) (first last i : Nat) :
    get (overWords f first last row) i =
      (get row i && (!(decide (first ≤ i/64) && decide (i/64 < last)) || K i)) := by
  rw [get_overWords]
  by_cases hin : first ≤ i/64 ∧ i/64 < last
  · by_cases hlen : i/64 < row.length
    · rw [if_pos ⟨hin.1,hin.2,hlen⟩,hf _ _ _ (Nat.mod_lt i (by decide)),get_eq_word,
        show i/64*64+i%64 = i by omega]
      simp [hin.1,hin.2]
    have hzero : get row i = false := eq_false_iff.mpr fun h => hlen (lt_of_get h)
    rw [if_neg (show ¬ (first ≤ i/64 ∧ i/64 < last ∧ i/64 < row.length) from fun h => hlen h.2.2),hzero]
    rfl
  rw [if_neg (show ¬ (first ≤ i/64 ∧ i/64 < last ∧ i/64 < row.length) from fun h => hin ⟨h.1,h.2.1⟩)]
  have hout : (decide (first ≤ i/64) && decide (i/64 < last)) = false := by
    simpa using hin
  rw [hout]
  simp

theorem overRanges_eq (f : Nat → BitVec 64 → BitVec 64) (ranges : List (Nat × Nat)) (bm : HeapBitmap) :
    bm.overRanges f ranges = { bm with words := (bm.overRanges f ranges).words } := by
  rw [overRanges]
  induction ranges generalizing bm with
  | nil => rfl
  | cons r ranges ih => rw [foldl_cons,ih]

theorem length_overRanges (f : Nat → BitVec 64 → BitVec 64) (ranges : List (Nat × Nat)) (bm : HeapBitmap) :
    (bm.overRanges f ranges).words.length = bm.words.length := by
  rw [overRanges]
  induction ranges generalizing bm with
  | nil => rfl
  | cons r ranges ih => rw [foldl_cons,ih,length_overWords]

theorem get_overRanges (hf : Masks f K) (ranges : List (Nat × Nat)) (bm : HeapBitmap) (i : Nat) :
    get (bm.overRanges f ranges).words i = (get bm.words i && (!bm.covers ranges (i/64) || K i)) := by
  rw [overRanges]
  induction ranges generalizing bm with
  | nil => simp [covers]
  | cons r ranges ih => ?_
  rw [foldl_cons,ih]
  rw [get_overWords_masked hf,covers,covers,any_cons]
  have hsame : ∀ (ws : Row) lo hi, wordRange { bm with words := ws } lo hi = bm.wordRange lo hi := fun _ _ _ => rfl
  simp only [hsame]
  cases K i <;> simp [Bool.and_assoc]

theorem effect_masked (hs : Sound bm) {ws : Row} (hlen : ws.length = bm.words.length)
    (hget : ∀ i, get ws i = (get bm.words i && K i)) :
    Effect bm { bm with words := ws } fun x => bm.contains x = true ∧ (bm.OnGrid x → K (bm.slotOf x) = true) := by
  refine Effect.of ⟨rfl,rfl,rfl⟩ ?_ (fun i hi => ?_) (fun x hx => ?_)
  · refine hs.with_words hlen fun i hi => .inl ?_
    rw [hget,and_eq_true] at hi
    exact hi.1
  · have hslot : bm.slotOf (bm.base+8*i) = i := by
      rw [slotOf]
      omega
    rw [hget,and_eq_true,contains_slot hi,hslot]
    exact ⟨fun h => ⟨h.1,fun _ => h.2⟩,fun h => ⟨h.1,h.2 ⟨i,rfl,hi⟩⟩⟩
  rw [contains_off_grid hs hx]
  exact ⟨fun h => ⟨h,fun h' => absurd h' hx⟩,And.left⟩

theorem effect_overRanges (hs : Sound bm) (hf : Masks f K) (ranges : List (Nat × Nat)) :
    Effect bm (bm.overRanges f ranges)
      fun x => bm.contains x = true ∧ (bm.OnGrid x → bm.covers ranges (bm.slotOf x/64) = true → K (bm.slotOf x) = true) := by
  rw [overRanges_eq]
  refine (effect_masked hs (length_overRanges f ranges bm) (get_overRanges hf ranges bm)).congr fun x => ?_
  refine and_congr_right fun _ => forall_congr' fun _ => ?_
  cases bm.covers ranges (bm.slotOf x/64) <;> simp

end

section
variable {bm marks : HeapBitmap}

theorem masks_keep (marks : HeapBitmap) : Masks (fun w v =>
    let keep := marks.wordAt w
    if v &&& ~~~keep = 0 then v else v &&& keep) marks.hasSlot := by
  intro w v b hb
  have hslot : marks.hasSlot (w*64+b) = (marks.wordAt w).getLsbD b := by
    rw [hasSlot,show (w*64+b)/64 = w by omega,show (w*64+b)%64 = b by omega]
  dsimp only
  rw [hslot]
  split
  · next hz =>
    -- no bit of the word is outside the kept ones
    have hbit := congrArg (·.getLsbD b) hz
    simp only [getLsbD_and,getLsbD_not,hb,decide_true,Bool.true_and] at hbit
    cases hv : v.getLsbD b <;> simp_all
  · rw [getLsbD_and]

theorem masks_keep_plain (marks : HeapBitmap) : Masks (fun w v =>
    if v = 0 then v
    else
      let keep := marks.wordAt w
      if v &&& ~~~keep ≠ 0 then v &&& keep else v) marks.hasSlot := by
  intro w v b hb
  by_cases hv : v = 0
  · subst hv
    simp
  have hkeep := masks_keep marks w v b hb
  dsimp only at hkeep ⊢
  rw [← hkeep,if_neg hv,ite_not]

theorem effect_retainMarked (hs : Sound bm) (marks : HeapBitmap) :
    Effect bm (bm.retainMarked marks)
      fun x => bm.contains x = true ∧ (bm.OnGrid x → marks.hasSlot (bm.slotOf x) = true) := by
  refine effect_masked hs (length_overWords ..) fun i => ?_
  rw [get_overWords_masked (masks_keep marks)]
  by_cases hi : i/64 < bm.nwords
  · simp [hi]
  have hzero : get bm.words i = false := eq_false_iff.mpr fun h => hi (hs.words_length ▸ lt_of_get h)
  simp [hzero]

end

section
variable {bm bm' bm'' : HeapBitmap} {P Q : Nat → Prop}

theorem Effect.bind (h : Effect bm bm' P) (h' : Effect bm' bm'' Q) : Effect bm bm'' Q :=
  ⟨h.shape.trans h'.shape,h'.sound,h'.records⟩

theorem masks_zero : Masks (fun _ _ => 0) fun _ => false := fun _ _ _ _ => by simp

theorem masks_zero_sparse : Masks (fun _ v => if v = 0 then v else 0) fun _ => false := by
  intro w v b _
  by_cases hv : v = 0#64
  · simp [hv]
  · simp [hv]

section
variable (hs : Sound bm)
include hs

theorem effect_clearSpilledExclusive :
    Effect bm bm.clearSpilledExclusive fun x => bm.contains x = true ∧ bm.OnGrid x := by
  refine Effect.of ⟨rfl,rfl,rfl⟩ ?_ (fun i hi => ?_) (fun x hx => ?_)
  · exact hs.with_overflow (fun _ h => absurd h not_mem_nil) nodup_nil
  · rw [contains_slot hi]
    exact ⟨fun h => ⟨h,i,rfl,hi⟩,And.left⟩
  · exact ⟨fun h => absurd h not_mem_nil,fun h => absurd h.2 hx⟩

theorem clearSpilled_eq : bm.clearSpilled = bm.clearSpilledExclusive := by
  rw [clearSpilled,clearSpilledExclusive]
  split
  · rfl
  next hlen =>
  have hzero := not_not.mp hlen
  have hnil : bm.overflow = [] := eq_nil_of_length_eq_zero (hs.overflow_len ▸ hzero)
  rw [← hnil,← hzero]

theorem effect_clear_loop {f : Nat → BitVec 64 → BitVec 64} (hf : Masks f fun _ => false)
    (ranges : List (Nat × Nat)) :
    Effect bm (bm.overRanges f ranges).clearSpilledExclusive
      fun x => bm.contains x = true ∧ bm.OnGrid x ∧ bm.covers ranges (bm.slotOf x/64) = false := by
  have hloop := effect_overRanges hs hf ranges
  refine (hloop.bind (effect_clearSpilledExclusive hloop.sound)).congr fun x => ?_
  rw [hloop.records,hloop.shape.onGrid]
  constructor
  · rintro ⟨⟨hmem,hout⟩,hgrid⟩
    exact ⟨hmem,hgrid,eq_false_iff.mpr fun h => by simpa using hout hgrid h⟩
  rintro ⟨hmem,hgrid,hout⟩
  exact ⟨⟨hmem,fun _ h => by rw [hout] at h; cases h⟩,hgrid⟩

theorem clearWithinSparse_eq (ranges : List (Nat × Nat)) :
    (bm.clearWithinSparse ranges).1 = (bm.overRanges (fun _ v => if v = 0 then v else 0) ranges).clearSpilledExclusive := by
  have hfold : ∀ (out : HeapBitmap × Nat), (ranges.foldl (fun (out : HeapBitmap × Nat) r =>
      let p := out.1.wordRange r.1 r.2
      ({ out.1 with words := overWords (fun _ v => if v = 0 then v else 0) p.1 p.2 out.1.words },
        out.2+(range' p.1 (p.2-p.1)).countP fun w => word out.1.words w = 0#64)) out).1 =
      out.1.overRanges (fun _ v => if v = 0 then v else 0) ranges := by
    intro out
    rw [overRanges]
    induction ranges generalizing out with
    | nil => rfl
    | cons r ranges ih => rw [foldl_cons,ih,foldl_cons]
  rw [clearWithinSparse]
  dsimp only
  rw [hfold,clearSpilled_eq (effect_overRanges hs masks_zero_sparse ranges).sound]

theorem clearWithin_eq (ranges : List (Nat × Nat)) :
    bm.clearWithin ranges = bm.clearWithinExclusive ranges :=
  clearSpilled_eq (effect_overRanges hs masks_zero ranges).sound

theorem effect_clearAllExclusive : Effect bm bm.clearAllExclusive fun _ => False := by
  have hget : ∀ i, get (overWords (fun _ _ => 0) 0 bm.nwords bm.words) i = (get bm.words i && false) := by
    intro i
    rw [get_overWords_masked masks_zero]
    by_cases hi : i/64 < bm.nwords
    · simp [hi]
    have hzero : get bm.words i = false := eq_false_iff.mpr fun h => hi (hs.words_length ▸ lt_of_get h)
    simp [hzero]
  have hwords := effect_masked hs (length_overWords ..) hget
  refine (hwords.bind (effect_clearSpilledExclusive hwords.sound)).congr fun x => ?_
  rw [hwords.records,hwords.shape.onGrid]
  exact ⟨fun h => by simpa using h.1.2 h.2,False.elim⟩

theorem clearAll_eq : bm.clearAll = bm.clearAllExclusive := by
  refine clearSpilled_eq ?_
  refine hs.with_words (length_overWords ..) fun i hi => .inl ?_
  rw [get_overWords_masked masks_zero,and_eq_true] at hi
  exact hi.1

end
end

section
variable {bm : HeapBitmap}

theorem emptyBlocks_bit (s : Nat) (slot : BitVec 64) {b : Nat}
    (hbit : (bm.emptyBlocks s slot).getLsbD b = true) (w : Nat) (hw : w/64 = s*64+b) (hlt : w < bm.nwords) :
    word bm.words w = 0#64 := by
  rw [emptyBlocks,drain_all] at hbit
  have hinv : ∀ (bs : List Nat) (clear : BitVec 64), (∀ b ∈ bs, b < 64) →
      (clear.getLsbD b = true → word bm.words w = 0#64) →
      (bs.foldl (fun clear b =>
        let w0 := (s*64+b)*blockWords
        if bm.nwords ≤ w0 then clear
        else
          let w1 := min (w0+blockWords) bm.nwords
          if (range' w0 (w1-w0)).all fun w => word bm.words w = 0#64 then clear ||| (1#64 <<< b)
          else clear) clear).getLsbD b = true → word bm.words w = 0#64 := by
    intro bs
    induction bs with
    | nil => exact fun _ _ h => h
    | cons c bs ih => ?_
    intro clear hbs h
    refine ih _ (fun b hb => hbs b (mem_cons_of_mem _ hb)) ?_
    dsimp only
    split
    · exact h
    split
    · next hall =>
      intro hor
      rw [getLsbD_or,shifted_bit c b (hbs c mem_cons_self),or_eq_true,decide_eq_true_eq] at hor
      rcases hor with hor|rfl
      · exact h hor
      rw [List.all_eq_true] at hall
      refine of_decide_eq_true (hall w (mem_range'_1.mpr ?_))
      rw [blockWords]
      omega
    · exact h
  refine hinv _ 0 (fun b hb => ?_) (fun h => by simp at h) hbit
  exact mem_range.mp (mem_filter.mp hb).1

theorem effect_forgetEmptyBlocks (hs : Sound bm) :
    Effect bm bm.forgetEmptyBlocks.1 fun x => bm.contains x = true := by
  refine Effect.of ⟨rfl,rfl,rfl⟩ ?_ (fun i hi => by rw [contains_slot hi]; rfl) fun x hx => by
    rw [contains_off_grid hs hx]; rfl
  refine hs.with_blocks (by simp) fun i hi => ?_
  have hnoted := hs.summarised i hi
  have hlen := lt_of_get hnoted
  have hslot : bm.blocks[i/64/64/64]? = some (word bm.blocks (i/64/64/64)) := by
    rw [word,List.getElem?_eq_getElem hlen]
    rfl
  rw [get_eq_word] at hnoted
  rw [BitRows.get,getElem?_mapIdx,hslot]
  simp only [map_some,any_some,getLsbD_and,getLsbD_not,hnoted,
    Nat.mod_lt (i/64/64) (by decide : 0 < 64),decide_true,Bool.true_and,not_eq_true']
  rw [eq_false_iff]
  intro hempty
  have hzero := emptyBlocks_bit _ _ hempty (i/64) (by omega) (hs.words_length ▸ lt_of_get hi)
  rw [word_eq_zero] at hzero
  rw [hzero i rfl] at hi
  cases hi

theorem clearBlocks_length {blkHi turns blk : Nat} {out : Row × Nat} :
    (clearBlocks blkHi turns blk out).1.length = out.1.length := by
  induction turns generalizing blk out with
  | zero => rfl
  | succ turns ih => ?_
  rw [clearBlocks]
  split
  · rw [ih]
    split <;> simp
  · rfl

theorem clearBlocks_keeps {blkHi turns blk : Nat} {out : Row × Nat} {k : Nat} (hk : k < blk ∨ blkHi ≤ k)
    (hget : get out.1 k = true) : get (clearBlocks blkHi turns blk out).1 k = true := by
  induction turns generalizing blk out with
  | zero => exact hget
  | succ turns ih => ?_
  rw [clearBlocks]
  split
  · next hlt =>
    refine ih (by omega) ?_
    split
    · exact hget
    -- the mask holds only blocks of the run
    have hslot : blk >>> 6 = blk/64 := Nat.shiftRight_eq_div_pow _ _
    have hmask : k/64 = blk/64 → (runMask (min (64-blk%64) (blkHi-blk)) (blk%64)).getLsbD (k%64) = false := by
      intro hw
      rw [runMask]
      split
      · omega
      rw [getLsbD_shiftLeft,below_bit (by omega)]
      by_cases hlow : k%64 < blk%64
      · simp [hlow]
      · simp [show ¬ k%64-blk%64 < min (64-blk%64) (blkHi-blk) by omega]
    simp only [BitRows.get,getElem?_modify,hslot] at hget ⊢
    cases hrow : out.1[k/64]? with
    | none => simp [hrow] at hget
    | some v => ?_
    rw [hrow] at hget
    by_cases hw : blk/64 = k/64
    · have hv : v.getLsbD (k%64) = true := by simpa using hget
      have hbit : (v &&& ~~~runMask (min (64-blk%64) (blkHi-blk)) (blk%64)).getLsbD (k%64) = true := by
        rw [getLsbD_and,getLsbD_not,hv,hmask hw.symm]
        simp [Nat.mod_lt k (by decide : 0 < 64)]
      simp only [Option.map_eq_map,map_some,any_some]
      rwa [if_pos hw]
    · simpa [hw] using hget
  · exact hget

theorem effect_forget {blocks : Row} (hs : Sound bm) (hlen : blocks.length = bm.blocks.length)
    (hkeep : ∀ i, get bm.words i = true → get blocks (i/64/64) = true) :
    Effect bm { bm with blocks := blocks } fun x => bm.contains x = true := by
  refine Effect.of ⟨rfl,rfl,rfl⟩ (hs.with_blocks hlen hkeep) (fun i hi => ?_) fun x hx => ?_
  · rw [contains_slot hi]
  · rw [contains_off_grid hs hx]

theorem effect_forgetBlocksWithin (hs : Sound bm) {ranges : List (Nat × Nat)}
    (hzero : ∀ i, get bm.words i = true → bm.covers ranges (i/64) = false) :
    Effect bm (bm.forgetBlocksWithin (some ranges)).1 fun x => bm.contains x = true := by
  have hout : ∀ i, get bm.words i = true → ∀ r ∈ ranges,
      i/64/64 < (bm.coveredBlocks (bm.wordRange r.1 r.2)).1 ∨ (bm.coveredBlocks (bm.wordRange r.1 r.2)).2 ≤ i/64/64 := by
    intro i hi r hr
    have hmiss := hzero i hi
    have hlt : i/64 < bm.nwords := hs.words_length ▸ lt_of_get hi
    rw [covers,List.any_eq_false] at hmiss
    have hr' := hmiss r hr
    simp only [and_eq_true,decide_eq_true_eq] at hr'
    simp only [coveredBlocks,divCeil,blockWords]
    split <;> omega
  have hfold : ∀ (rs : List (Nat × Nat)) (out : Row × Nat), (∀ r ∈ rs, r ∈ ranges) →
      (rs.foldl (fun out r => clearBlocks (bm.coveredBlocks (bm.wordRange r.1 r.2)).2
        ((bm.coveredBlocks (bm.wordRange r.1 r.2)).2-(bm.coveredBlocks (bm.wordRange r.1 r.2)).1)
        (bm.coveredBlocks (bm.wordRange r.1 r.2)).1 out) out).1.length = out.1.length ∧
      ∀ i, get bm.words i = true → get out.1 (i/64/64) = true →
        get (rs.foldl (fun out r => clearBlocks (bm.coveredBlocks (bm.wordRange r.1 r.2)).2
          ((bm.coveredBlocks (bm.wordRange r.1 r.2)).2-(bm.coveredBlocks (bm.wordRange r.1 r.2)).1)
          (bm.coveredBlocks (bm.wordRange r.1 r.2)).1 out) out).1 (i/64/64) = true := by
    intro rs
    induction rs with
    | nil => exact fun out _ => ⟨rfl,fun _ _ h => h⟩
    | cons r rs ih => ?_
    intro out hrs
    obtain ⟨hlen,hkeep⟩ := ih (clearBlocks (bm.coveredBlocks (bm.wordRange r.1 r.2)).2
      ((bm.coveredBlocks (bm.wordRange r.1 r.2)).2-(bm.coveredBlocks (bm.wordRange r.1 r.2)).1)
      (bm.coveredBlocks (bm.wordRange r.1 r.2)).1 out) fun r hr => hrs r (mem_cons_of_mem _ hr)
    refine ⟨hlen.trans clearBlocks_length,fun i hi hget => hkeep i hi ?_⟩
    exact clearBlocks_keeps (hout i hi r (hrs r mem_cons_self)) hget
  obtain ⟨hlen,hkeep⟩ := hfold ranges (bm.blocks,0) fun _ h => h
  exact effect_forget hs hlen fun i hi => hkeep i hi (hs.summarised i hi)

theorem effect_forgetAll (hs : Sound bm) (hzero : ∀ i, get bm.words i = false) :
    Effect bm (bm.forgetBlocksWithin none).1 fun x => bm.contains x = true := by
  refine effect_forget hs clearBlocks_length fun i hi => ?_
  rw [hzero] at hi
  cases hi

end
end CratonVM.Gc.HeapBitmap
