import CratonVM.Gc.HeapBitmap.Queries

/-!
Whole runs of the heap bitmap against a plain set of addresses.
-/
namespace CratonVM.Gc.HeapBitmap
open BitRows

inductive Clear where
  | all
  | allExclusive
  | within (ranges : List (Nat × Nat))
  | withinSparse (ranges : List (Nat × Nat))
  | withinExclusive (ranges : List (Nat × Nat))

namespace Clear
def apply (bm : HeapBitmap) : Clear → HeapBitmap
  | all => bm.clearAll
  | allExclusive => bm.clearAllExclusive
  | within ranges => bm.clearWithin ranges
  | withinSparse ranges => (bm.clearWithinSparse ranges).1
  | withinExclusive ranges => bm.clearWithinExclusive ranges

/-- The argument of the `forget_blocks_within` that goes with the clear. -/
def forgets : Clear → Option (List (Nat × Nat))
  | all => none
  | allExclusive => none
  | within ranges => some ranges
  | withinSparse ranges => some ranges
  | withinExclusive ranges => some ranges

/-- The addresses the clear leaves alone. -/
def Keeps (bm : HeapBitmap) (c : Clear) (a : Nat) : Prop :=
  match c.forgets with
  | none => False
  | some ranges => bm.OnGrid a ∧ bm.covers ranges (bm.slotOf a/64) = false

end Clear

inductive Op where
  | insert (addr : Nat)
  | claim (addr : Nat)
  | remove (addr : Nat)
  | setRange (lo hi : Nat)
  | setRangeSingleWriter (lo hi : Nat)
  | retainMarked (marks : HeapBitmap)
  | retainMarkedWithin (marks : HeapBitmap) (ranges : List (Nat × Nat))
  | retainMarkedWithinPlain (marks : HeapBitmap) (ranges : List (Nat × Nat))
  | clear (how : Clear)
  | clearAndForget (how : Clear)
  | forgetEmptyBlocks

namespace Op
def apply (bm : HeapBitmap) : Op → HeapBitmap
  | insert addr => bm.insert addr
  | claim addr => (bm.claim addr).1
  | remove addr => bm.remove addr
  | setRange lo hi => bm.setRange lo hi
  | setRangeSingleWriter lo hi => bm.setRangeSingleWriter lo hi
  | retainMarked marks => bm.retainMarked marks
  | retainMarkedWithin marks ranges => bm.retainMarkedWithin marks ranges
  | retainMarkedWithinPlain marks ranges => bm.retainMarkedWithinPlain marks ranges
  | clear how => how.apply bm
  | clearAndForget how => ((how.apply bm).forgetBlocksWithin how.forgets).1
  | forgetEmptyBlocks => bm.forgetEmptyBlocks.1

def Allowed (base : Nat) : Op → Prop
  | setRange lo _ => base ≤ lo
  | setRangeSingleWriter lo _ => base ≤ lo
  | _ => True

def plain (bm : HeapBitmap) : Op → Set Nat → Set Nat
  | insert addr,s => { a | a = addr ∨ a ∈ s }
  | claim addr,s => { a | a = addr ∨ a ∈ s }
  | remove addr,s => { a | a ≠ addr ∧ a ∈ s }
  | setRange lo hi,s => { a | a ∈ s ∨ (bm.OnGrid a ∧ lo ≤ a ∧ a < hi) }
  | setRangeSingleWriter lo hi,s => { a | a ∈ s ∨ (bm.OnGrid a ∧ lo ≤ a ∧ a < hi) }
  | retainMarked marks,s => { a | a ∈ s ∧ (bm.OnGrid a → marks.hasSlot (bm.slotOf a) = true) }
  | retainMarkedWithin marks ranges,s =>
    { a | a ∈ s ∧ (bm.OnGrid a → bm.covers ranges (bm.slotOf a/64) = true → marks.hasSlot (bm.slotOf a) = true) }
  | retainMarkedWithinPlain marks ranges,s =>
    { a | a ∈ s ∧ (bm.OnGrid a → bm.covers ranges (bm.slotOf a/64) = true → marks.hasSlot (bm.slotOf a) = true) }
  | clear how,s => { a | a ∈ s ∧ how.Keeps bm a }
  | clearAndForget how,s => { a | a ∈ s ∧ how.Keeps bm a }
  | forgetEmptyBlocks,s => s

end Op

def run (bm : HeapBitmap) (ops : List Op) : HeapBitmap := ops.foldl Op.apply bm

def plainRun (bm : HeapBitmap) (ops : List Op) (s : Set Nat) : Set Nat := ops.foldl (fun s op => op.plain bm s) s

section
variable {bm : HeapBitmap}

theorem effect_clear (hs : Sound bm) (how : Clear) :
    Effect bm (how.apply bm) fun a => bm.contains a = true ∧ how.Keeps bm a := by
  have hwithin : ∀ ranges, Effect bm (bm.clearWithinExclusive ranges)
      fun a => bm.contains a = true ∧ bm.OnGrid a ∧ bm.covers ranges (bm.slotOf a/64) = false :=
    effect_clear_loop hs masks_zero
  have hall : Effect bm bm.clearAllExclusive fun a => bm.contains a = true ∧ False :=
    (effect_clearAllExclusive hs).congr fun a => by simp
  cases how with
  | all =>
    rw [Clear.apply,clearAll_eq hs]
    exact hall
  | allExclusive => exact hall
  | within ranges =>
    rw [Clear.apply,clearWithin_eq hs]
    exact hwithin ranges
  | withinSparse ranges =>
    rw [Clear.apply,clearWithinSparse_eq hs]
    exact effect_clear_loop hs masks_zero_sparse ranges
  | withinExclusive ranges => exact hwithin ranges

theorem effect_clearAndForget (hs : Sound bm) (how : Clear) :
    Effect bm ((how.apply bm).forgetBlocksWithin how.forgets).1 fun a => bm.contains a = true ∧ how.Keeps bm a := by
  have hclear := effect_clear hs how
  have hslots : ∀ i, get (how.apply bm).words i = true → how.Keeps bm (bm.base+8*i) := by
    intro i hi
    have hin := hclear.sound.in_span i hi
    rw [← contains_slot hin,hclear.shape.base,hclear.records] at hi
    exact hi.2
  refine (hclear.bind (Q := fun a => (how.apply bm).contains a = true) ?_).congr hclear.records
  cases hf : how.forgets with
  | none =>
    refine effect_forgetAll hclear.sound fun i => Bool.eq_false_iff.mpr fun hi => ?_
    have := hslots i hi
    rw [Clear.Keeps,hf] at this
    exact this
  | some ranges => ?_
  refine effect_forgetBlocksWithin hclear.sound fun i hi => ?_
  have := hslots i hi
  rw [Clear.Keeps,hf] at this
  have hslot : bm.slotOf (bm.base+8*i) = i := by
    rw [slotOf]
    omega
  rw [hslot] at this
  rw [covers]
  simp only [hclear.shape.wordRange]
  exact this.2

theorem effect_apply (hs : Sound bm) {op : Op} (hop : op.Allowed bm.base) :
    Effect bm (op.apply bm) fun a => a ∈ op.plain bm { x | bm.contains x = true } := by
  cases op with
  | insert addr => exact effect_insert hs addr
  | claim addr => exact (effect_claim hs addr).1
  | remove addr => exact effect_remove hs addr
  | setRange lo hi =>
    refine (effect_setRange hs lo hi).congr fun a => ?_
    exact or_congr_right (and_iff_right hop)
  | setRangeSingleWriter lo hi =>
    rw [Op.apply,setRangeSingleWriter_eq hs]
    refine (effect_setRange hs lo hi).congr fun a => ?_
    exact or_congr_right (and_iff_right hop)
  | retainMarked marks => exact effect_retainMarked hs marks
  | retainMarkedWithin marks ranges => exact effect_overRanges hs (masks_keep marks) ranges
  | retainMarkedWithinPlain marks ranges => exact effect_overRanges hs (masks_keep_plain marks) ranges
  | clear how => exact effect_clear hs how
  | clearAndForget how => exact effect_clearAndForget hs how
  | forgetEmptyBlocks => exact effect_forgetEmptyBlocks hs

theorem plain_congr {bm bm' : HeapBitmap} (h : SameShape bm bm') (op : Op) (s : Set Nat) :
    op.plain bm' s = op.plain bm s := by
  have hgrid : bm'.OnGrid = bm.OnGrid := funext fun a => propext (h.onGrid a)
  have hcov : bm'.covers = bm.covers := by
    funext ranges w
    simp only [covers,h.wordRange]
  have hslot : bm'.slotOf = bm.slotOf := by
    funext a
    rw [slotOf,slotOf,h.base]
  cases op <;> simp only [Op.plain,Clear.Keeps,hgrid,hcov,hslot]

/-- A run keeps the invariant and records what the plain set holds. -/
theorem effect_run (hs : Sound bm) {ops : List Op} (hops : ∀ op ∈ ops, op.Allowed bm.base) :
    Effect bm (run bm ops) fun a => a ∈ plainRun bm ops { x | bm.contains x = true } := by
  induction ops generalizing bm with
  | nil => exact Effect.refl hs
  | cons op ops ih => ?_
  have hstep := effect_apply hs (hops op List.mem_cons_self)
  have hrest := ih hstep.sound (fun o ho => hstep.shape.base ▸ hops o (List.mem_cons_of_mem _ ho))
  refine (hstep.bind hrest).congr fun a => ?_
  have hset : { x | (op.apply bm).contains x = true } = op.plain bm { x | bm.contains x = true } :=
    Set.ext hstep.records
  rw [plainRun,plainRun,List.foldl_cons,hset]
  have hfold : (fun s op' => Op.plain (op.apply bm) op' s) = fun s op' => Op.plain bm op' s :=
    funext fun s => funext fun op' => plain_congr hstep.shape op' s
  rw [hfold]

end

/-- In every run the bitmap is a plain set, its summary notes the block of each recorded base, and the
queries answer as the set does. -/
theorem run_is_summarised_set (base span : Nat) (ops : List Op) (hops : ∀ op ∈ ops, op.Allowed base) :
    let bm := run (labelled base span) ops
    (∀ a, bm.contains a = true ↔ a ∈ plainRun (labelled base span) ops ∅) ∧
    (∀ a, bm.OnGrid a → bm.contains a = true → bm.blockMayHoldBits (bm.slotOf a/64/blockWords) = true) ∧
    (∀ addr floor a, bm.nearestBaseIn addr floor = some a ↔
      IsGreatest { b | bm.OnGrid b ∧ bm.contains b = true ∧ b ≤ addr } a ∧ floor ≤ a) ∧
    (∀ ranges, bm.basesWithinSummarised ranges = bm.basesWithin ranges ∧
      (bm.basesWithin ranges).Pairwise (· < ·)) ∧
    ∀ lo hi, hi ≤ usizeMax → (bm.basesInSpan lo hi).Pairwise (· < ·) ∧
      ∀ a, a ∈ bm.basesInSpan lo hi ↔ bm.contains a = true ∧ lo ≤ a ∧ a < hi := by
  have heff := effect_run (sound_labelled base span) hops
  have hempty : { x | (labelled base span).contains x = true } = ∅ :=
    Set.eq_empty_iff_forall_notMem.mpr fun x hx => by simp [contains_labelled] at hx
  have hs := heff.sound
  refine ⟨fun a => ?_,fun a ha hmem => ?_,fun addr floor a => nearestBaseIn_eq_some hs addr floor a,
    fun ranges => ⟨basesWithinSummarised_eq hs ranges,basesWithin_ascending hs ranges⟩,
    fun lo hi hhi => basesInSpan_spec hs hhi⟩
  · rw [heff.records,hempty]
  obtain ⟨i,rfl,hi⟩ := ha
  rw [contains_slot hi] at hmem
  have hslot : (run (labelled base span) ops).slotOf ((run (labelled base span) ops).base+8*i) = i := by
    rw [slotOf]
    omega
  rw [hslot,blockMayHoldBits_eq]
  exact hs.summarised i hmem

theorem run_is_summarised_set_insert :
    (∀ op ∈ [Op.insert 4104,.setRange 4160 4200,.clearAndForget .all,.insert 4096],op.Allowed 4096) ∧
      ∀ a, (run (labelled 4096 4096) [.insert 4104,.setRange 4160 4200,.clearAndForget .all,.insert 4096]).contains a
          = true ↔
        a ∈ plainRun (labelled 4096 4096) [.insert 4104,.setRange 4160 4200,.clearAndForget .all,.insert 4096] ∅ := by
  have hops : ∀ op ∈ [Op.insert 4104,.setRange 4160 4200,.clearAndForget .all,.insert 4096],op.Allowed 4096 := by
    simp [Op.Allowed]
  exact ⟨hops,(run_is_summarised_set 4096 4096 _ hops).1⟩

end CratonVM.Gc.HeapBitmap
