import CratonVM.Gc.OldGen.AllocatorInvariant

/-!
The operations that give bytes back to the free list, and the merge that `alloc` falls back to.
-/
namespace CratonVM.Gc
open Spans Spans.Span OldGen List

/-- The step that `free` and `release_unused_tail` share. -/
def OldGen.giveBack (g : OldGen) (offset size : Nat) : OldGen :=
  { g with
    usedBytes := g.usedBytes-size
    buckets := (g.pushBlock ⟨offset,size⟩).buckets
    freeListMaximal := false
    sortedFreeDirty := true }

namespace AllocCore
variable {g : OldGen} {live : List Live}

theorem giveBack {x : Live} (h : AllocCore g (x :: live)) {offset size : Nat} {keep : List Live}
    (hw : Within ⟨offset,size⟩ x.span) (hsize : 0 < size) (hok : ∀ l ∈ keep, l.Ok g.base)
    (hkeep : ∀ l ∈ keep, Within l.span x.span ∧ Apart ⟨offset,size⟩ l.span)
    (ha : (keep.map Live.span).Pairwise Apart) :
    AllocCore (g.giveBack offset size) (keep ++ live) := by
  obtain ⟨hbuckets,hperm⟩ := pushBlock_buckets h.buckets ⟨offset,size⟩
  have hblocks : (g.giveBack offset size).blocks.Perm (⟨offset,size⟩ :: g.blocks) := hperm
  refine ⟨hbuckets,?_,?_,?_,?_⟩
  · have h1 : Packed g.capacity (x.span :: (g.blocks ++ live.map Live.span)) :=
      h.packed.perm perm_middle
    have h2 : Packed g.capacity
        ((⟨offset,size⟩ :: keep.map Live.span) ++ (g.blocks ++ live.map Live.span)) := by
      refine h1.replace ?_ (pairwise_cons.mpr ⟨?_,ha⟩) ?_
      · intro p hp
        rcases mem_cons.mp hp with rfl | hp
        · exact hw
        obtain ⟨l,hl,rfl⟩ := mem_map.mp hp
        exact (hkeep l hl).1
      · intro p hp
        obtain ⟨l,hl,rfl⟩ := mem_map.mp hp
        exact (hkeep l hl).2
      intro p hp
      rcases mem_cons.mp hp with rfl | hp
      · exact hsize
      obtain ⟨l,hl,rfl⟩ := mem_map.mp hp
      have := (hok l hl).header
      simp only [Live.span,headerSize] at this ⊢
      omega
    refine h2.perm (List.Perm.trans ?_ (hblocks.symm.append_right _))
    rw [map_append,cons_append,cons_append]
    exact (perm_append_comm_assoc _ _ _).cons _
  · intro l hl
    rcases mem_append.mp hl with hl | hl
    · exact hok l hl
    · exact h.live l (mem_cons_of_mem _ hl)
  · have h1 := h.account
    have h2 := h.total_live_le
    rw [map_cons,total_cons] at h2
    rw [total_perm hblocks,total_cons]
    unfold Within Span.stop Live.span at *
    simp only [OldGen.giveBack] at *
    omega
  · intro hm
    cases hm

theorem with_cache (h : AllocCore g live) (cache : List FreeBlock) (dirty : Bool) :
    AllocCore { g with sortedFreeCache := cache, sortedFreeDirty := dirty } live :=
  ⟨h.buckets,h.packed,h.live,h.account,h.maximal⟩

end AllocCore
namespace OldGen
variable {g : OldGen} {live : List Live}
variable {size : Nat} {x : Live}

theorem free_eq (h : AllocCore g (x :: live))
    (hsize : freedSize size ≤ x.reserved) :
    g.free (g.base+x.offset) size = g.giveBack x.offset (freedSize size) := by
  have hx := h.live x (by simp)
  have hin := h.packed.inside x.span (by simp)
  have h1 := hx.aligned
  unfold free
  rw [if_neg (by omega),if_neg (by unfold Span.stop Live.span at hin; simp only at hin; omega),
    Nat.add_sub_cancel_left]
  rfl

theorem free_core (h : AllocCore g (x :: live))
    (hsize : freedSize size ≤ x.reserved) :
    AllocCore (g.free (g.base+x.offset) size) live := by
  rw [free_eq h hsize]
  have h16 := freedSize_ge size
  simp only [headerSize] at h16
  have hw : Within ⟨x.offset,freedSize size⟩ x.span := by
    unfold Within Span.stop Live.span
    simp only
    omega
  have hcore : AllocCore (g.giveBack x.offset (freedSize size)) ([] ++ live) :=
    h.giveBack hw (by omega) (by simp) (by simp) .nil
  exact hcore

theorem cacheOk_giveBack (offset size : Nat) : CacheOk (g.giveBack offset size) := by
  intro hclean
  cases hclean

theorem free_spec (h : AllocOk g (x :: live))
    (hsize : freedSize size ≤ x.reserved) :
    AllocOk (g.free (g.base+x.offset) size) live := by
  refine ⟨free_core h.toAllocCore hsize,?_⟩
  rw [free_eq h.toAllocCore hsize]
  exact cacheOk_giveBack _ _

/-- What a client keeps of its block after the last `size` bytes went back. -/
def Live.keepHead (x : Live) (size : Nat) : List Live :=
  if x.reserved = size then [] else [⟨x.offset,x.reserved-size,x.reserved-size⟩]

theorem releaseUnusedTail_eq (h : AllocCore g (x :: live))
    (h8 : size%8 = 0) (h16 : headerSize ≤ size)
    (hrest : x.reserved = size ∨ size+headerSize ≤ x.reserved) :
    g.releaseUnusedTail (g.base+x.offset+(x.reserved-size)) size =
      g.giveBack (x.offset+(x.reserved-size)) size := by
  have hx := h.live x (by simp)
  have hin := h.packed.inside x.span (by simp)
  have h1 := hx.aligned
  have h2 := hx.granular
  have hsmall : ¬ size < headerSize := by omega
  unfold Span.stop Live.span at hin
  simp only [headerSize] at h16 hrest hin
  unfold releaseUnusedTail
  rw [if_neg (by omega),if_neg (by omega),if_neg hsmall,Nat.add_assoc,Nat.add_sub_cancel_left]
  rfl

theorem releaseUnusedTail_spec (h : AllocOk g (x :: live))
    (h8 : size%8 = 0) (h16 : headerSize ≤ size)
    (hrest : x.reserved = size ∨ size+headerSize ≤ x.reserved) :
    AllocOk (g.releaseUnusedTail (g.base+x.offset+(x.reserved-size)) size)
      (Live.keepHead x size ++ live) := by
  have heq := releaseUnusedTail_eq h.toAllocCore h8 h16 hrest
  have hx := h.live x (by simp)
  have h1 := hx.aligned
  have h2 := hx.granular
  simp only [headerSize] at h16 hrest
  rw [heq]
  refine ⟨h.giveBack ?_ (by omega) ?_ ?_ ?_,cacheOk_giveBack _ _⟩
  · unfold Within Span.stop Live.span
    simp only
    omega
  · intro l hl
    unfold Live.keepHead at hl
    split at hl
    · simp at hl
    obtain rfl := mem_singleton.mp hl
    have h3 : (x.reserved-size)%8 = 0 := by omega
    have h4 : headerSize ≤ x.reserved-size := by simp only [headerSize]; omega
    exact ⟨h1,h3,h4,freedSize_le h3 h4 le_rfl⟩
  · intro l hl
    unfold Live.keepHead at hl
    split at hl
    · simp at hl
    obtain rfl := mem_singleton.mp hl
    unfold Within Apart Span.stop Live.span
    simp only
    omega
  unfold Live.keepHead
  split
  · exact .nil
  · exact pairwise_singleton _ _

theorem releaseUnusedTail_refused {addr : Nat} (h : size%8 ≠ 0 ∨ size < headerSize) :
    g.releaseUnusedTail addr size = g := by
  unfold releaseUnusedTail
  split
  · rfl
  split
  · rfl
  · rw [if_pos (by omega)]

theorem perm_sortedBlocks (g : OldGen) : g.sortedBlocks.Perm g.blocks :=
  mergeSort_perm _ _

theorem sorted_sortedBlocks (g : OldGen) :
    g.sortedBlocks.Pairwise fun a b => a.offset ≤ b.offset := pairwise_sortByOffset _

theorem withSortedFreeBlocks_spec (h : AllocOk g live) :
    AllocOk g.withSortedFreeBlocks live ∧ g.withSortedFreeBlocks.sortedFreeDirty = false := by
  unfold withSortedFreeBlocks
  split
  · exact ⟨⟨h.with_cache _ _,fun _ => ⟨perm_sortedBlocks g,sorted_sortedBlocks g⟩⟩,rfl⟩
  rename_i hclean
  exact ⟨h,by simpa using hclean⟩

theorem bucketsOk_emptied {buckets : List Bucket} (h : BucketsOk buckets) :
    BucketsOk (buckets.map fun _ => {}) ∧
      (buckets.map fun _ => ({} : Bucket)).flatMap Bucket.blocks = [] := by
  have hat : ∀ i, bucketAt (buckets.map fun _ => {}) i = {} := by
    intro i
    simp only [bucketAt,getD,getElem?_map]
    cases buckets[i]? with
    | none => rfl
    | some b => rfl
  refine ⟨⟨by rw [length_map]; exact h.length,?_,?_⟩,?_⟩
  · intro i b hb
    rw [hat] at hb
    cases hb
  · intro i b hb
    rw [hat] at hb
    cases hb
  · simp [flatMap]

theorem coalesceFreeBlocks_spec (h : AllocOk g live) :
    AllocOk g.coalesceFreeBlocks.2 live := by
  unfold coalesceFreeBlocks
  split
  · exact h
  split
  · exact h
  simp only
  have hpack : Packed g.capacity (g.sortedBlocks ++ live.map Live.span) :=
    h.packed.perm ((perm_sortedBlocks g).symm.append_right _)
  obtain ⟨hmerged,hgaps⟩ := hpack.mergeTouching (sorted_sortedBlocks g)
  have hapart : (mergeTouching g.sortedBlocks).Pairwise fun a b => ¬ Touching a b :=
    hgaps.imp not_touching_of_gap
  split
  · rename_i hlen
    refine ⟨⟨h.buckets,h.packed,h.live,h.account,?_⟩,h.cache⟩
    intro _
    -- Fewer than two blocks touch nothing.
    have hfew : g.blocks.length < 2 := hlen
    match hb : g.blocks with
    | [] => exact .nil
    | [b] => exact pairwise_singleton _ _
    | _ :: _ :: _ =>
      rw [hb,length_cons,length_cons] at hfew
      omega
  split
  · rename_i hlen
    refine ⟨⟨h.buckets,h.packed,h.live,h.account,?_⟩,h.cache⟩
    intro _
    have heq : mergeTouching g.sortedBlocks = g.sortedBlocks :=
      mergeTouching_eq_of_length (by rw [hlen,(perm_sortedBlocks g).length_eq])
    rw [heq] at hapart
    refine ((perm_sortedBlocks g).pairwise_iff ?_).mp hapart
    intro x y hxy ht
    exact hxy ht.symm
  have hempty := bucketsOk_emptied h.buckets
  obtain ⟨hbuckets,hblocks⟩ := foldl_pushBlock
    (g := { g with freeListMaximal := true, buckets := g.buckets.map fun _ => {} }) hempty.1
    (mergeTouching g.sortedBlocks)
  have hframe := foldl_pushBlock_frame
    (g := { g with freeListMaximal := true, buckets := g.buckets.map fun _ => {} })
    (mergeTouching g.sortedBlocks)
  generalize hg : (mergeTouching g.sortedBlocks).foldl pushBlock
    { g with freeListMaximal := true, buckets := g.buckets.map fun _ => {} } = g' at *
  have hperm : g'.blocks.Perm (mergeTouching g.sortedBlocks) := by
    have hnil : ({ g with
        freeListMaximal := true
        buckets := g.buckets.map fun _ => {} } : OldGen).blocks = [] := hempty.2
    rw [hnil,append_nil] at hblocks
    exact hblocks
  have hcore : AllocCore g' live := by
    refine ⟨hbuckets,?_,?_,?_,?_⟩
    · rw [hframe]
      exact hmerged.perm (hperm.symm.append_right _)
    · rw [hframe]; exact h.live
    · have h1 := h.account
      rw [total_perm hperm,total_mergeTouching,total_perm (perm_sortedBlocks g),hframe]
      exact h1
    intro _
    refine (hperm.symm.pairwise_iff ?_).mp hapart
    intro x y hxy ht
    exact hxy ht.symm
  split
  · refine ⟨hcore.with_cache _ _,fun _ => ⟨hperm.symm,?_⟩⟩
    refine hgaps.imp ?_
    intro a b hab
    unfold Span.stop at hab
    omega
  refine ⟨hcore.with_cache _ _,?_⟩
  intro hclean
  cases hclean

theorem allocImpl_spec (h : AllocOk g live) {align : Nat} (ha : AlignOk align)
    (commit : Commit) : AllocPost live size align (g.allocImpl size align commit) := by
  have h1 : AllocPost live size align _ := (allocFromBuckets_cases h.buckets ha (commit 0)).post h ha
  unfold allocImpl
  cases hr : g.allocFromBuckets size align (commit 0) with
  | mk found g1 => ?_
  rw [hr] at h1
  cases found with
  | some offset => exact h1
  | none => ?_
  have h2 : AllocOk g1.coalesceFreeBlocks.2 live := coalesceFreeBlocks_spec h1
  simp only
  split
  · exact (allocFromBuckets_cases h2.buckets ha (commit 1)).post h2 ha
  · exact h2

theorem allocFromTop_spec (h : AllocOk g live) {align : Nat} (ha : AlignOk align)
    (commit : Commit) : AllocPost live size align (g.allocFromTop size align commit) := by
  unfold allocFromTop
  split
  · have h1 : AllocPost live size align _ :=
      (allocFromTopScan_cases h.buckets ha (commit 2)).post h ha
    cases hr : g.allocFromTopScan size align (commit 2) with
    | mk found g1 =>
      rw [hr] at h1
      cases found with
      | some offset => exact h1
      | none => exact allocImpl_spec h1 ha commit
  · exact allocImpl_spec h ha commit

theorem perm_mergeRuns (old runs : List FreeBlock) :
    (mergeRuns old runs).Perm (old ++ runs) := by
  induction runs generalizing old with
  | nil => simp [mergeRuns]
  | cons run runs ih => ?_
  have h1 := ih (old.dropWhile fun b => b.offset ≤ run.offset)
  have h2 := (h1.cons run).append_left (old.takeWhile fun b => b.offset ≤ run.offset)
  refine h2.trans ?_
  rw [← cons_append,← append_assoc]
  refine List.Perm.trans (List.Perm.append_right runs perm_middle) ?_
  rw [takeWhile_append_dropWhile,cons_append]
  exact perm_middle.symm

theorem le_of_mem_dropWhile {old : List FreeBlock} {run : FreeBlock}
    (ho : old.Pairwise fun a b => a.offset ≤ b.offset) :
    ∀ b ∈ old.dropWhile (fun b => b.offset ≤ run.offset), run.offset ≤ b.offset := by
  induction old with
  | nil => simp
  | cons a old ih => ?_
  obtain ⟨h1,h2⟩ := pairwise_cons.mp ho
  by_cases ha : a.offset ≤ run.offset
  · rw [dropWhile_cons_of_pos (by simpa using ha)]
    exact ih h2
  rw [dropWhile_cons_of_neg (by simpa using ha)]
  intro b hb
  rcases mem_cons.mp hb with rfl | hb
  · omega
  have := h1 b hb
  omega

theorem sorted_mergeRuns {old runs : List FreeBlock}
    (ho : old.Pairwise fun a b => a.offset ≤ b.offset)
    (hr : runs.Pairwise fun a b => a.offset ≤ b.offset) :
    (mergeRuns old runs).Pairwise fun a b => a.offset ≤ b.offset := by
  induction runs generalizing old with
  | nil => exact ho
  | cons run runs ih => ?_
  obtain ⟨hr1,hr2⟩ := pairwise_cons.mp hr
  have hsplit : (old.takeWhile (fun b => b.offset ≤ run.offset)) ++
      (old.dropWhile fun b => b.offset ≤ run.offset) = old := takeWhile_append_dropWhile
  rw [← hsplit] at ho
  obtain ⟨ho1,ho2,ho3⟩ := pairwise_append.mp ho
  have htake : ∀ b ∈ old.takeWhile (fun b => b.offset ≤ run.offset), b.offset ≤ run.offset := by
    intro b hb
    have := mem_takeWhile_imp hb
    exact of_decide_eq_true this
  have hdrop : ∀ b ∈ old.dropWhile (fun b => b.offset ≤ run.offset), run.offset ≤ b.offset :=
    le_of_mem_dropWhile (by rw [← hsplit]; exact ho)
  refine pairwise_append.mpr ⟨ho1,pairwise_cons.mpr ⟨?_,ih ho2 hr2⟩,?_⟩
  · intro b hb
    rcases mem_append.mp ((perm_mergeRuns _ _).mem_iff.mp hb) with hb | hb
    · exact hdrop b hb
    · exact hr1 b hb
  intro a ha b hb
  have h1 := htake a ha
  rcases mem_cons.mp hb with rfl | hb
  · exact h1
  rcases mem_append.mp ((perm_mergeRuns _ _).mem_iff.mp hb) with hb | hb
  · have := hdrop b hb
    omega
  have := hr1 b hb
  omega

end OldGen

/-- Dead objects that lie back to back, given by the first and the others. -/
structure DeadRun where
  first : Live
  others : List Live
  deriving DecidableEq, Repr

def Live.join (x y : Live) : Live := ⟨x.offset,x.reserved+y.reserved,x.reserved+y.reserved⟩

namespace DeadRun
def objects (r : DeadRun) : List Live := r.first :: r.others

/-- The one block that `objects` make up. -/
def joined (r : DeadRun) : Live := r.others.foldl Live.join r.first

/-- Each of `ys` starts where the ones before it stop. -/
def Contiguous : Live → List Live → Prop
  | _, [] => True
  | x, y :: ys => x.span.stop = y.offset ∧ Contiguous (x.join y) ys

instance : ∀ x ys, Decidable (Contiguous x ys)
  | _, [] => inferInstanceAs (Decidable True)
  | x, y :: ys =>
    have := instDecidableContiguous (x.join y) ys
    inferInstanceAs (Decidable (_ ∧ _))

/-- The `(start address, length)` pair that the sweep passes. -/
def run (base : Nat) (r : DeadRun) : Nat × Nat := (base+r.joined.offset,r.joined.reserved)

end DeadRun

theorem AllocCore.joined {g : OldGen} {live : List Live} {x : Live} {ys : List Live}
    (h : AllocCore g (x :: (ys ++ live))) (hc : DeadRun.Contiguous x ys) :
    AllocCore g (ys.foldl Live.join x :: live) := by
  induction ys generalizing x with
  | nil => exact h
  | cons y ys ih => exact ih (h.join hc.1) hc.2

namespace OldGen
variable {g : OldGen} {live : List Live}
variable {runs : List DeadRun}

section
variable (hc : ∀ r ∈ runs, DeadRun.Contiguous r.first r.others)
include hc

theorem freeRuns_core
    (h : AllocCore g (runs.flatMap DeadRun.objects ++ live)) :
    AllocCore ((runs.map (DeadRun.run g.base)).foldl (fun g run => g.free run.1 run.2) g) live ∧
      ((runs.map (DeadRun.run g.base)).foldl (fun g run => g.free run.1 run.2) g).base = g.base ∧
      ((runs.map (DeadRun.run g.base)).foldl (fun g run => g.free run.1 run.2) g).blocks.Perm
        (g.blocks ++ runs.map fun r => r.joined.span) := by
  induction runs generalizing g with
  | nil => exact ⟨h,rfl,by simp⟩
  | cons r runs ih => ?_
  have h1 : AllocCore g (r.joined :: (runs.flatMap DeadRun.objects ++ live)) := by
    have hobjects : AllocCore g
        (r.first :: (r.others ++ (runs.flatMap DeadRun.objects ++ live))) := by
      simpa [DeadRun.objects] using h
    exact hobjects.joined (hc r (by simp))
  have hok := h1.live r.joined (by simp)
  have hself := freedSize_self hok.granular hok.header
  have hfree : g.free (g.base+r.joined.offset) r.joined.reserved =
      g.giveBack r.joined.offset r.joined.reserved := by
    rw [free_eq h1 (by rw [hself]),hself]
  have h2 : AllocCore (g.giveBack r.joined.offset r.joined.reserved)
      (runs.flatMap DeadRun.objects ++ live) := by
    rw [← hfree]
    exact free_core h1 (by rw [hself])
  have h3 := ih (g := g.giveBack r.joined.offset r.joined.reserved)
    (fun r hr => hc r (mem_cons_of_mem _ hr)) h2
  have hbase : (g.giveBack r.joined.offset r.joined.reserved).base = g.base := rfl
  have hblocks : (g.giveBack r.joined.offset r.joined.reserved).blocks.Perm
      (r.joined.span :: g.blocks) := (pushBlock_buckets h.buckets _).2
  rw [hbase] at h3
  simp only [map_cons,foldl_cons,DeadRun.run,hfree]
  refine ⟨h3.1,h3.2.1,h3.2.2.trans ?_⟩
  exact (hblocks.append_right _).trans perm_middle.symm

theorem freeRunsAscending_spec
    (hasc : Ascending (runs.map fun r => r.joined.span))
    (h : AllocOk g (runs.flatMap DeadRun.objects ++ live)) :
    AllocOk (g.freeRunsAscending (runs.map (DeadRun.run g.base))) live := by
  unfold freeRunsAscending
  cases runs with
  | nil => exact h
  | cons r runs => ?_
  obtain ⟨hsorted,hclean⟩ := withSortedFreeBlocks_spec h
  have hbase : g.withSortedFreeBlocks.base = g.base := by
    unfold withSortedFreeBlocks
    split
    · rfl
    · rfl
  obtain ⟨hperm,hord⟩ := hsorted.cache hclean
  generalize g.withSortedFreeBlocks = g0 at *
  rw [← hbase]
  obtain ⟨h1,h2,h3⟩ := freeRuns_core (g := { g0 with sortedFreeCache := [] }) hc
    (hsorted.with_cache [] g0.sortedFreeDirty)
  have hruns : ((r :: runs).map fun r => r.joined.span).Pairwise
      fun a b => a.offset ≤ b.offset := by
    refine hasc.imp ?_
    intro a b hab
    unfold Span.stop at hab
    omega
  simp only at h1 h2 h3 ⊢
  generalize ((r :: runs).map (DeadRun.run g0.base)).foldl (fun g run => g.free run.1 run.2)
    { g0 with sortedFreeCache := [] } = g2 at *
  have hlist : ((r :: runs).map (DeadRun.run g0.base)).map
      (fun run => (⟨run.1-g2.base,run.2⟩ : FreeBlock)) =
      (r :: runs).map fun r => r.joined.span := by
    rw [h2,map_map]
    apply map_congr_left
    intro r hr
    simp only [Function.comp,DeadRun.run,Live.span,Nat.add_sub_cancel_left]
  rw [hlist]
  refine ⟨h1.with_cache _ _,fun _ => ⟨?_,sorted_mergeRuns hord hruns⟩⟩
  exact (perm_mergeRuns _ _).trans ((hperm.append_right _).trans h3.symm)

theorem freeRunsAscending_blocks
    (h : AllocOk g (runs.flatMap DeadRun.objects ++ live)) :
    (g.freeRunsAscending (runs.map (DeadRun.run g.base))).blocks.Perm
      (g.blocks ++ runs.map fun r => r.joined.span) := by
  unfold freeRunsAscending
  cases runs with
  | nil => simp
  | cons r runs => ?_
  obtain ⟨hsorted,_⟩ := withSortedFreeBlocks_spec h
  have hsame : g.withSortedFreeBlocks.base = g.base ∧ g.withSortedFreeBlocks.blocks = g.blocks := by
    unfold withSortedFreeBlocks
    split
    · exact ⟨rfl,rfl⟩
    · exact ⟨rfl,rfl⟩
  obtain ⟨hbase,hblocks⟩ := hsame
  obtain ⟨_,_,h3⟩ := freeRuns_core (g := { g.withSortedFreeBlocks with sortedFreeCache := [] }) hc
    (hsorted.with_cache [] g.withSortedFreeBlocks.sortedFreeDirty)
  rw [if_neg (by simp),← hbase,← hblocks]
  exact h3

end
end OldGen
end CratonVM.Gc
