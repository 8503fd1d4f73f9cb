import CratonVM.Gc.HeapBitmap.BulkOps

/-!
The queries of the heap bitmap: the nearest recorded base below an address, which skips empty words
and unnoted blocks, and the lists of recorded bases.
-/
namespace CratonVM.Gc.HeapBitmap
open BitRows Bool BitVec
open List hiding get
section
variable {bm : HeapBitmap}

theorem blockMayHoldBits_eq (blk : Nat) : bm.blockMayHoldBits blk = get bm.blocks blk := by
  rw [blockMayHoldBits,BitRows.get,show blk >>> 6 = blk/64 from Nat.shiftRight_eq_div_pow _ _]
  cases bm.blocks[blk/64]? with
  | none => rfl
  | some s => ?_
  have hbit := and_bit_eq_zero s (Nat.mod_lt blk (by decide : 0 < 64))
  cases h : s.getLsbD (blk%64) with
  | false => simpa [h] using hbit.mpr h
  | true =>
    have hne : ¬ s &&& (1#64 <<< (blk%64)) = 0#64 := fun hz => by simp [hbit.mp hz] at h
    simpa [h] using hne

/-- The greatest noted block at or below another. -/
def TopBlock (blocks : Row) (blk : Nat) : Option Nat → Prop
  | none => ∀ k ≤ blk, get blocks k = false
  | some lower => get blocks lower = true ∧ lower ≤ blk ∧ ∀ k ≤ blk, get blocks k = true → k ≤ lower

theorem highestNotedLoop_spec {blocks : Row} {blk s : Nat} {bits : BitVec 64}
    (hbits : ∀ b, b < 64 → (bits.getLsbD b = true ↔ get blocks (s*64+b) = true ∧ s*64+b ≤ blk))
    (htop : ∀ k ≤ blk, get blocks k = true → k/64 ≤ s) (hs : s*64 ≤ blk) :
    TopBlock blocks blk (highestNotedLoop blocks s bits) := by
  induction s generalizing bits with
  | zero =>
    rw [highestNotedLoop]
    split
    · next hne =>
      obtain ⟨hget,hle⟩ := (hbits _ highest_lt).mp (highest_bit hne)
      refine ⟨hget,hle,fun k hk hnote => ?_⟩
      have hk0 := htop k hk hnote
      have := le_highest ((hbits (k%64) (Nat.mod_lt _ (by decide))).mpr (by
        rw [show 0*64+k%64 = k by omega]; exact ⟨hnote,hk⟩))
      omega
    next hz =>
    intro k hk
    rw [eq_false_iff]
    intro hnote
    have hk0 := htop k hk hnote
    have hbit := (hbits (k%64) (Nat.mod_lt _ (by decide))).mpr (by
      rw [show 0*64+k%64 = k by omega]; exact ⟨hnote,hk⟩)
    rw [not_not.mp hz] at hbit
    simp at hbit
  | succ s ih => ?_
  rw [highestNotedLoop]
  split
  · next hne =>
    obtain ⟨hget,hle⟩ := (hbits _ highest_lt).mp (highest_bit hne)
    refine ⟨hget,hle,fun k hk hnote => ?_⟩
    have hks := htop k hk hnote
    by_cases hk' : k/64 = s+1
    · have := le_highest ((hbits (k%64) (Nat.mod_lt _ (by decide))).mpr (by
        rw [show (s+1)*64+k%64 = k by omega]; exact ⟨hnote,hk⟩))
      omega
    · omega
  next hz =>
  refine ih (fun b hb => ?_) (fun k hk hnote => ?_) (by omega)
  · rw [get_of_word blocks hb]
    exact ⟨fun h => ⟨h,by omega⟩,And.left⟩
  have hks := htop k hk hnote
  by_contra hlt
  have hbit := (hbits (k%64) (Nat.mod_lt _ (by decide))).mpr (by
    rw [show (s+1)*64+k%64 = k by omega]; exact ⟨hnote,hk⟩)
  rw [not_not.mp hz] at hbit
  simp at hbit

theorem highestNotedBlockAtOrBelow_spec (bm : HeapBitmap) {blk : Nat} (hlt : blk/64 < bm.blocks.length) :
    TopBlock bm.blocks blk (bm.highestNotedBlockAtOrBelow blk) := by
  have hslot : bm.blocks[blk/64]? = some (word bm.blocks (blk/64)) := by
    rw [word,List.getElem?_eq_getElem hlt]
    rfl
  rw [highestNotedBlockAtOrBelow,show blk >>> 6 = blk/64 from Nat.shiftRight_eq_div_pow _ _]
  rw [hslot]
  refine highestNotedLoop_spec (fun b hb => ?_) (fun k hk _ => by omega) (by omega)
  rw [getLsbD_and,getLsbD_upto (Nat.mod_lt blk (by decide)),and_eq_true,decide_eq_true_eq,
    get_of_word bm.blocks hb]
  exact and_congr_right fun _ => by omega

end

section
variable {bm : HeapBitmap}

/-- The greatest set slot at or below `bit`. -/
def TopSlot (bm : HeapBitmap) (bit i : Nat) : Prop :=
  get bm.words i = true ∧ i ≤ bit ∧ ∀ j, get bm.words j = true → j ≤ bit → j ≤ i

theorem skipFour_spec (words : Row) (floorWord : Nat) (turns w : Nat) (hw : floorWord ≤ w) :
    skipFour words floorWord turns w ≤ w ∧ floorWord ≤ skipFour words floorWord turns w ∧
      ∀ v, skipFour words floorWord turns w ≤ v → v < w → word words v = 0#64 := by
  induction turns generalizing w with
  | zero => exact ⟨le_refl w,hw,fun v h1 h2 => by rw [skipFour] at h1; omega⟩
  | succ turns ih => ?_
  rw [skipFour]
  split
  · next hin =>
    split
    · exact ⟨le_refl w,hw,fun v h1 h2 => by omega⟩
    next hz =>
    obtain ⟨hle,hfl,hzero⟩ := ih (w-4) (by omega)
    refine ⟨by omega,hfl,fun v h1 h2 => ?_⟩
    by_cases hv : v < w-4
    · exact hzero v h1 hv
    -- one of the four words of the OR
    have hbits : ∀ b, (word words (w-1)).getLsbD b = false ∧ (word words (w-2)).getLsbD b = false ∧
        (word words (w-3)).getLsbD b = false ∧ (word words (w-4)).getLsbD b = false := by
      intro b
      have hor := congrArg (·.getLsbD b) (not_not.mp hz)
      simp only [getLsbD_or,getLsbD_zero,or_eq_false_iff] at hor
      exact ⟨hor.1.1.1,hor.1.1.2,hor.1.2,hor.2⟩
    refine eq_of_getLsbD_eq fun b _ => ?_
    rw [getLsbD_zero]
    obtain ⟨h1,h2,h3,h4⟩ := hbits b
    have hcases : v = w-1 ∨ v = w-2 ∨ v = w-3 ∨ v = w-4 := by omega
    rcases hcases with rfl|rfl|rfl|rfl <;> assumption
  · exact ⟨le_refl w,hw,fun v h1 h2 => by omega⟩

/-- The state of the search at its loop head: `bits` are the candidates of word `w`, and no slot at or
below `bit` is set in a higher word. -/
structure Searching (bm : HeapBitmap) (bit w : Nat) (bits : BitVec 64) : Prop where
  bound : w ≤ bit/64
  bits_iff : ∀ b, b < 64 → (bits.getLsbD b = true ↔ get bm.words (w*64+b) = true ∧ w*64+b ≤ bit)
  above : ∀ j, get bm.words j = true → j ≤ bit → j/64 ≤ w

theorem Searching.lt_of_zero {bit w : Nat} (h : Searching bm bit w 0#64) {j : Nat} (hj : get bm.words j = true)
    (hle : j ≤ bit) : j/64 < w := by
  have hw := h.above j hj hle
  by_contra hge
  have hbit := (h.bits_iff (j%64) (Nat.mod_lt _ (by decide))).mpr (by
    rw [show w*64+j%64 = j by omega]; exact ⟨hj,hle⟩)
  simp at hbit

theorem Searching.lower {bit w : Nat} {bits : BitVec 64} (h : Searching bm bit w bits) {v : Nat} (hv : v < w)
    (habove : ∀ j, get bm.words j = true → j ≤ bit → j/64 ≤ v) : Searching bm bit v (word bm.words v) where
  bound := by have := h.bound; omega
  bits_iff b hb := by
    have := h.bound
    rw [get_of_word bm.words hb]
    exact ⟨fun hbit => ⟨hbit,by omega⟩,And.left⟩
  above := habove

theorem nearestLoop_spec (hs : Sound bm) {bit floor floorWord : Nat} (hbit : bit/64 < bm.nwords)
    (hfloor : ∀ j, j/64 < floorWord → bm.base+8*j < floor) {turns w : Nat} {bits : BitVec 64}
    (h : Searching bm bit w bits) (hfl : floorWord ≤ w) (hturns : w < turns) (a : Nat) :
    bm.nearestLoop floor floorWord turns w bits = some a ↔
      ∃ i, TopSlot bm bit i ∧ a = bm.base+8*i ∧ floor ≤ a := by
  induction turns generalizing w bits with
  | zero => omega
  | succ turns ih => ?_
  rw [nearestLoop]
  split
  · next hne =>
    obtain ⟨hget,hle⟩ := (h.bits_iff _ highest_lt).mp (highest_bit hne)
    have htop : TopSlot bm bit (w*64+highest bits) := by
      refine ⟨hget,hle,fun j hj hjb => ?_⟩
      have hjw := h.above j hj hjb
      by_cases hjw' : j/64 = w
      · have := le_highest ((h.bits_iff (j%64) (Nat.mod_lt _ (by decide))).mpr (by
          rw [show w*64+j%64 = j by omega]; exact ⟨hj,hjb⟩))
        omega
      · omega
    have haddr : bm.base+((w*64+highest bits) <<< 3) = bm.base+8*(w*64+highest bits) := by
      omega
    dsimp only
    rw [haddr]
    have huniq : ∀ i, TopSlot bm bit i → i = w*64+highest bits := fun i hi =>
      Nat.le_antisymm (htop.2.2 i hi.1 hi.2.1) (hi.2.2 _ htop.1 htop.2.1)
    split
    · next hok =>
      constructor
      · intro heq
        exact ⟨_,htop,(Option.some.inj heq).symm,Option.some.inj heq ▸ hok⟩
      rintro ⟨i,hi,rfl,-⟩
      rw [huniq i hi]
    next hlow =>
    constructor
    · intro heq
      cases heq
    rintro ⟨i,hi,rfl,hok⟩
    rw [huniq i hi] at hok
    exact absurd hok hlow
  next hz =>
  obtain rfl : bits = 0#64 := not_not.mp hz
  -- below the floor's word nothing can reach the floor
  have hnone : (∀ j, get bm.words j = true → j ≤ bit → j/64 < floorWord) →
      ((none : Option Nat) = some a ↔ ∃ i, TopSlot bm bit i ∧ a = bm.base+8*i ∧ floor ≤ a) := by
    intro hlow
    constructor
    · intro heq
      cases heq
    rintro ⟨i,hi,rfl,hok⟩
    have := hfloor i (hlow i hi.1 hi.2.1)
    omega
  split
  · next hend => exact hnone fun j hj hjb => lt_of_lt_of_le (h.lt_of_zero hj hjb) hend
  next hgo =>
  obtain ⟨hle,hfl',hzero⟩ := skipFour_spec bm.words floorWord w w (by omega)
  dsimp only
  generalize skipFour bm.words floorWord w w = w' at hle hfl' hzero
  have hbelow : ∀ j, get bm.words j = true → j ≤ bit → j/64 < w' := by
    intro j hj hjb
    by_contra hge
    have hw := hzero (j/64) (not_lt.mp hge) (h.lt_of_zero hj hjb)
    rw [word_eq_zero.mp hw j rfl] at hj
    cases hj
  split
  · next hend => exact hnone fun j hj hjb => lt_of_lt_of_le (hbelow j hj hjb) hend
  next hgo' =>
  have hstep : Searching bm bit (w'-1) (word bm.words (w'-1)) := by
    refine h.lower (by omega) fun j hj hjb => ?_
    have := hbelow j hj hjb
    omega
  split
  · -- a block border: the summary names the next block that may hold a bit
    have hw' : w'-1 < bm.nwords := by
      have := hstep.bound
      omega
    have hspec : TopBlock bm.blocks ((w'-1)/blockWords) (bm.highestNotedBlockAtOrBelow ((w'-1)/blockWords)) :=
      highestNotedBlockAtOrBelow_spec bm (block_lt hs hw')
    have hblock : ∀ j, get bm.words j = true → j ≤ bit → j/64/64 ≤ (w'-1)/blockWords := by
      intro j hj hjb
      have := hbelow j hj hjb
      rw [blockWords]
      omega
    cases hnoted : bm.highestNotedBlockAtOrBelow ((w'-1)/blockWords) with
    | none =>
      rw [hnoted] at hspec
      refine hnone fun j hj hjb => ?_
      have := hspec _ (hblock j hj hjb)
      rw [hs.summarised j hj] at this
      cases this
    | some lower => ?_
    rw [hnoted] at hspec
    obtain ⟨-,hlow,hmax⟩ := hspec
    have habove : ∀ j, get bm.words j = true → j ≤ bit → j/64 ≤ lower*blockWords+(blockWords-1) := by
      intro j hj hjb
      have := hmax _ (hblock j hj hjb) (hs.summarised j hj)
      rw [blockWords]
      omega
    dsimp only
    split
    · next hlt =>
      have hlt' : lower*blockWords+(blockWords-1) < w := by
        rw [blockWords] at hlt ⊢
        omega
      split
      · next hend => exact hnone fun j hj hjb => lt_of_le_of_lt (habove j hj hjb) hend
      · next hin => exact ih (h.lower hlt' habove) (by omega) (by omega)
    · exact ih hstep (by omega) (by omega)
  · exact ih hstep (by omega) (by omega)

theorem nearestBaseIn_eq_some (hs : Sound bm) (addr floor a : Nat) :
    bm.nearestBaseIn addr floor = some a ↔
      IsGreatest { b | bm.OnGrid b ∧ bm.contains b = true ∧ b ≤ addr } a ∧ floor ≤ a := by
  rw [nearestBaseIn]
  split
  · next hempty =>
    constructor
    · intro h
      cases h
    rintro ⟨⟨⟨⟨i,rfl,hi⟩,-,-⟩,-⟩,-⟩
    have hlt := slot_lt hs hi
    rw [hs.words_length] at hlt
    omega
  next hspan =>
  split
  · next hbase =>
    constructor
    · intro h
      cases h
    rintro ⟨⟨⟨⟨i,rfl,hi⟩,-,hle⟩,-⟩,-⟩
    omega
  next hbase =>
  dsimp only
  set bit := min (addr-bm.base) (bm.span-1) >>> 3 with hbitdef
  have hw : bit >>> 6 = bit/64 := Nat.shiftRight_eq_div_pow _ _
  have hfw : min (floor-bm.base) (bm.span-1) >>> 3 >>> 6 = min (floor-bm.base) (bm.span-1)/512 := by
    rw [Nat.shiftRight_eq_div_pow,Nat.shiftRight_eq_div_pow,Nat.div_div_eq_div_mul]
  have hnw : bit/64 < bm.nwords := hs.words_length ▸ slot_lt hs (by omega)
  rw [hw,hfw,nearestLoop_spec hs hnw (fun j hj => by omega) ⟨le_refl _,fun b hb => ?_,fun j _ hj => ?_⟩
    (by omega) (by omega)]
  · -- slots at or below the bit are bases at or below the address
    have hslots : ∀ j, get bm.words j = true → (j ≤ bit ↔ bm.base+8*j ≤ addr) := by
      intro j hj
      have := hs.in_span j hj
      omega
    constructor
    · rintro ⟨i,⟨hget,hle,hmax⟩,rfl,hok⟩
      have hi := hs.in_span i hget
      refine ⟨⟨⟨⟨i,rfl,hi⟩,by rwa [contains_slot hi],(hslots i hget).mp hle⟩,?_⟩,hok⟩
      rintro b ⟨⟨j,rfl,hj⟩,hmem,hb⟩
      rw [contains_slot hj] at hmem
      have := hmax j hmem ((hslots j hmem).mpr hb)
      omega
    rintro ⟨⟨⟨⟨i,rfl,hi⟩,hmem,hle⟩,hmax⟩,hok⟩
    rw [contains_slot hi] at hmem
    refine ⟨i,⟨hmem,(hslots i hmem).mpr hle,fun j hj hjb => ?_⟩,rfl,hok⟩
    have hj' := hs.in_span j hj
    have := hmax ⟨⟨j,rfl,hj'⟩,by rwa [contains_slot hj'],(hslots j hj).mp hjb⟩
    omega
  · rw [getLsbD_and,getLsbD_upto (Nat.mod_lt bit (by decide)),and_eq_true,decide_eq_true_eq,
      get_of_word bm.words hb]
    exact and_congr_right fun _ => by omega
  · omega

end

section
variable {bm : HeapBitmap}

theorem mem_basesOfWord {w a : Nat} : a ∈ bm.basesOfWord w (word bm.words w) ↔
    ∃ i, i/64 = w ∧ get bm.words i = true ∧ a = bm.base+8*i := by
  rw [basesOfWord,drain_all,mem_map]
  constructor
  · rintro ⟨b,hb,rfl⟩
    have hb64 := mem_range.mp (mem_filter.mp hb).1
    exact ⟨w*64+b,by omega,by rw [get_of_word bm.words hb64]; exact mem_onesOf.mp hb,by omega⟩
  rintro ⟨i,rfl,hget,rfl⟩
  rw [get_eq_word] at hget
  exact ⟨i%64,mem_onesOf.mpr hget,by omega⟩

theorem basesOfWord_ascending (bm : HeapBitmap) (w : Nat) (v : BitVec 64) :
    (bm.basesOfWord w v).Pairwise (· < ·) := by
  rw [basesOfWord,drain_all,pairwise_map]
  refine (onesOf_ascending v).imp fun hab => ?_
  omega

theorem basesOfWord_zero (bm : HeapBitmap) (w : Nat) : bm.basesOfWord w 0#64 = [] := by
  rfl

def basesOfWords (bm : HeapBitmap) (first last : Nat) : List Nat :=
  (List.range' first (last-first)).flatMap fun w => bm.basesOfWord w (word bm.words w)

theorem mem_basesOfWords {first last a : Nat} : a ∈ bm.basesOfWords first last ↔
    ∃ i, first ≤ i/64 ∧ i/64 < last ∧ get bm.words i = true ∧ a = bm.base+8*i := by
  rw [basesOfWords,mem_flatMap]
  simp only [mem_range'_1,mem_basesOfWord]
  constructor
  · rintro ⟨w,hw,i,rfl,h⟩
    exact ⟨i,by omega,by omega,h⟩
  rintro ⟨i,h1,h2,h⟩
  exact ⟨i/64,by omega,i,rfl,h⟩

theorem basesOfWords_ascending (bm : HeapBitmap) (first last : Nat) :
    (bm.basesOfWords first last).Pairwise (· < ·) := by
  rw [basesOfWords,pairwise_flatMap]
  refine ⟨fun w _ => basesOfWord_ascending bm w _,?_⟩
  refine (pairwise_lt_range' 1 Nat.one_pos).imp ?_
  intro v w hvw a ha b hb
  obtain ⟨i,rfl,-,rfl⟩ := (mem_basesOfWord).mp ha
  obtain ⟨j,rfl,-,rfl⟩ := (mem_basesOfWord).mp hb
  omega

theorem walkSummarised_eq (hs : Sound bm) {last turns w : Nat} (hturns : last-w ≤ turns) :
    ((bm.walkSummarised last turns w).flatMap fun p => bm.basesOfWord p.1 p.2) = bm.basesOfWords w last := by
  induction turns generalizing w with
  | zero =>
    rw [walkSummarised,basesOfWords,show last-w = 0 by omega]
    rfl
  | succ turns ih => ?_
  rw [walkSummarised]
  split
  · next hlt =>
    dsimp only
    set stop := min ((w/blockWords+1)*blockWords) last with hstop
    have hw : w < stop := by
      rw [hstop,blockWords]
      omega
    have hsplit : bm.basesOfWords w last = bm.basesOfWords w stop++bm.basesOfWords stop last := by
      rw [basesOfWords,basesOfWords,basesOfWords,← flatMap_append]
      rw [show last-w = (stop-w)+(last-stop) by omega,← range'_append]
      simp [show w+(stop-w) = stop by omega]
    have hrest := ih (w := stop) (by omega)
    rw [hsplit]
    split
    · rw [flatMap_append,hrest]
      congr 1
      rw [basesOfWords]
      generalize range' w (stop-w) = ws
      induction ws with
      | nil => rfl
      | cons v ws ihw =>
        rw [map_cons,flatMap_cons,← ihw]
        by_cases hz : word bm.words v = 0#64
        · rw [filter_cons_of_neg (by simpa using hz),hz,basesOfWord_zero,nil_append]
        · rw [filter_cons_of_pos (by simpa using hz),flatMap_cons]
    next hclear =>
    -- an unnoted block holds no base
    have hnil : bm.basesOfWords w stop = [] := by
      refine eq_nil_iff_forall_not_mem.mpr fun a ha => ?_
      obtain ⟨i,h1,h2,hget,-⟩ := (mem_basesOfWords).mp ha
      have hblk : i/64/64 = w/blockWords := by
        rw [blockWords] at hstop ⊢
        omega
      rw [blockMayHoldBits_eq,← hblk,hs.summarised i hget] at hclear
      exact hclear rfl
    rw [hnil,nil_append]
    exact hrest
  · next hge =>
    rw [basesOfWords,show last-w = 0 by omega]
    rfl

theorem basesWithinSummarised_eq (hs : Sound bm) (ranges : List (Nat × Nat)) :
    bm.basesWithinSummarised ranges = bm.basesWithin ranges := by
  rw [basesWithinSummarised,basesWithin]
  congr 1
  exact flatMap_congr fun r _ => walkSummarised_eq hs (le_refl _)

theorem leSpan_fst {a b : Nat × Nat} (h : leSpan a b = true) : a.1 ≤ b.1 := by
  simp only [leSpan,or_eq_true,and_eq_true,decide_eq_true_eq] at h
  omega

theorem sorted_spans (l : List (Nat × Nat)) :
    (l.insertionSort fun a b => leSpan a b).Pairwise fun a b => a.1 ≤ b.1 := by
  have : Std.Total fun a b : Nat × Nat => leSpan a b = true := ⟨fun a b => by
    simp only [leSpan,or_eq_true,and_eq_true,decide_eq_true_eq]
    omega⟩
  have : IsTrans (Nat × Nat) fun a b => leSpan a b = true := ⟨fun a b c hab hbc => by
    simp only [leSpan,or_eq_true,and_eq_true,decide_eq_true_eq] at hab hbc ⊢
    omega⟩
  exact (pairwise_insertionSort (fun a b : Nat × Nat => leSpan a b = true) l).imp leSpan_fst

theorem mergeSpans_apart {merged rest : List (Nat × Nat)} (hrest : rest.Pairwise fun a b => a.1 ≤ b.1)
    (hmerged : merged.Pairwise fun a b => b.2 < a.1) (hnext : ∀ m ∈ merged.head?, ∀ r ∈ rest, m.1 ≤ r.1) :
    (mergeSpans merged rest).Pairwise fun a b => a.2 < b.1 := by
  induction rest generalizing merged with
  | nil =>
    exact pairwise_reverse.mpr hmerged
  | cons r rest ih => ?_
  obtain ⟨hr,hrest⟩ := pairwise_cons.mp hrest
  cases merged with
  | nil =>
    refine ih hrest (pairwise_singleton _ _) ?_
    intro m hm s hs
    obtain rfl : r = m := by simpa using hm
    exact hr s hs
  | cons last merged => ?_
  obtain ⟨hlast,hmerged⟩ := pairwise_cons.mp hmerged
  rw [mergeSpans]
  split
  · refine ih hrest (pairwise_cons.mpr ⟨hlast,hmerged⟩) ?_
    intro m hm s hs
    obtain rfl : (last.1,max last.2 r.2) = m := by simpa using hm
    exact hnext last (by simp) s (mem_cons_of_mem _ hs)
  next hgap =>
  refine ih hrest (pairwise_cons.mpr ⟨?_,pairwise_cons.mpr ⟨hlast,hmerged⟩⟩) ?_
  · intro m hm
    have hstart := hnext last (by simp) r mem_cons_self
    rcases mem_cons.mp hm with rfl|hm
    · exact not_le.mp hgap
    have := hlast m hm
    omega
  intro m hm s hs
  obtain rfl : r = m := by simpa using hm
  exact hr s hs

theorem mergedWordSpans_apart (bm : HeapBitmap) (ranges : List (Nat × Nat)) :
    (bm.mergedWordSpans ranges).Pairwise fun a b => a.2 < b.1 :=
  mergeSpans_apart (sorted_spans _) .nil (by simp)

theorem sorted_with_spill {out spill : List Nat} (hout : out.Pairwise (· < ·)) (hnd : spill.Nodup)
    (hapart : ∀ a ∈ out, a ∉ spill) :
    (if spill.isEmpty then out else (out++spill).insertionSort (· ≤ ·)).Pairwise (· < ·) ∧
      ∀ a, a ∈ (if spill.isEmpty then out else (out++spill).insertionSort (· ≤ ·)) ↔ a ∈ out ∨ a ∈ spill := by
  split
  · next hempty =>
    rw [List.isEmpty_iff] at hempty
    subst hempty
    exact ⟨hout,fun a => by simp⟩
  refine ⟨?_,fun a => by simp⟩
  have hnodup : (out++spill).Nodup :=
    nodup_append.mpr ⟨hout.imp Nat.ne_of_lt,hnd,fun a ha b hb hab => hapart a ha (hab ▸ hb)⟩
  have hsorted := pairwise_insertionSort (· ≤ ·) (out++spill)
  have hne := (perm_insertionSort (· ≤ ·) (out++spill)).nodup_iff.mpr hnodup
  exact hsorted.imp₂ (fun _ _ hle hne => lt_of_le_of_ne hle hne) hne

theorem spilled_eq (hs : Sound bm) : (if bm.hasSpill then bm.overflow else []) = bm.overflow := by
  rw [hasSpill,hs.overflow_len]
  cases bm.overflow <;> simp

theorem basesWithin_ascending (hs : Sound bm) (ranges : List (Nat × Nat)) :
    (bm.basesWithin ranges).Pairwise (· < ·) := by
  rw [basesWithin,withSpill,spilled_eq hs]
  refine (sorted_with_spill ?_ hs.nodup ?_).1
  · rw [pairwise_flatMap]
    refine ⟨fun r _ => basesOfWords_ascending bm r.1 r.2,(mergedWordSpans_apart bm ranges).imp ?_⟩
    intro r s hrs a ha b hb
    obtain ⟨i,-,h1,-,rfl⟩ := (mem_basesOfWords).mp ha
    obtain ⟨j,h2,-,-,rfl⟩ := (mem_basesOfWords).mp hb
    omega
  intro a ha hspill
  obtain ⟨r,-,ha⟩ := mem_flatMap.mp ha
  obtain ⟨i,-,-,hget,rfl⟩ := (mem_basesOfWords).mp ha
  exact hs.off_grid _ hspill ⟨i,rfl,hs.in_span i hget⟩

theorem wordRange_covers (hs : Sound bm) {lo hi i : Nat} (hhi : hi ≤ usizeMax) (hget : get bm.words i = true)
    (hlo : lo ≤ bm.base+8*i) (hlt : bm.base+8*i < hi) :
    (bm.wordRange lo hi).1 ≤ i/64 ∧ i/64 < (bm.wordRange lo hi).2 := by
  have hspan := hs.in_span i hget
  have hword := hs.words_length ▸ lt_of_get hget
  have hstop : bm.base+8*i < saturatingAdd bm.base bm.span := by
    rw [saturatingAdd]
    omega
  simp only [wordRange,clamp,Nat.shiftRight_eq_div_pow]
  refine ⟨?_,?_⟩
  · split_ifs <;> omega
  · split_ifs <;> omega

theorem basesInSpan_spec (hs : Sound bm) {lo hi : Nat} (hhi : hi ≤ usizeMax) :
    (bm.basesInSpan lo hi).Pairwise (· < ·) ∧
      ∀ a, a ∈ bm.basesInSpan lo hi ↔ bm.contains a = true ∧ lo ≤ a ∧ a < hi := by
  rw [basesInSpan]
  split
  · exact ⟨.nil,fun a => ⟨fun h => absurd h not_mem_nil,fun h => by omega⟩⟩
  have hspill : (if bm.hasSpill then bm.overflow.filter fun a => lo ≤ a ∧ a < hi else []) =
      bm.overflow.filter fun a => lo ≤ a ∧ a < hi := by
    rw [hasSpill,hs.overflow_len]
    cases bm.overflow <;> simp
  dsimp only
  rw [hspill,← filter_flatMap]
  obtain ⟨hasc,hmem⟩ := sorted_with_spill
    ((basesOfWords_ascending bm (bm.wordRange lo hi).1 (bm.wordRange lo hi).2).filter fun a => lo ≤ a ∧ a < hi)
    (hs.nodup.filter _) (by
      intro a ha hspill
      obtain ⟨i,-,-,hget,rfl⟩ := (mem_basesOfWords).mp (mem_filter.mp ha).1
      exact hs.off_grid _ (mem_filter.mp hspill).1 ⟨i,rfl,hs.in_span i hget⟩)
  refine ⟨hasc,fun a => (hmem a).trans ?_⟩
  rw [mem_filter,mem_filter,contains_iff hs,mem_basesOfWords]
  simp only [decide_eq_true_eq]
  constructor
  · rintro (⟨⟨i,-,-,hget,rfl⟩,hin⟩|⟨hsp,hin⟩)
    · exact ⟨.inl ⟨i,rfl,hget⟩,hin⟩
    · exact ⟨.inr hsp,hin⟩
  rintro ⟨⟨i,rfl,hget⟩|hsp,hin⟩
  · obtain ⟨h1,h2⟩ := wordRange_covers hs hhi hget hin.1 hin.2
    exact .inl ⟨⟨i,h1,h2,hget,rfl⟩,hin⟩
  · exact .inr ⟨hsp,hin⟩

end
end CratonVM.Gc.HeapBitmap
