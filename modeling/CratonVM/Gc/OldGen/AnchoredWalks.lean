import CratonVM.Gc.OldGen.BlockOffsetRuns

/-!
The walks of a run of calls: in a filled generation they find the clients' blocks as objects, they
leave the table in order, and so in every reachable state the anchored walk and the linear walk
agree.
-/
namespace CratonVM.Gc
open Spans Spans.Span OldGen BlockOffsetTable List Bool

namespace IndexedHeap
/-- The clients' blocks in address order. -/
def objects (s : IndexedHeap) : List Span :=
  (s.heap.live.map Live.span).mergeSort fun a b => a.offset ≤ b.offset

theorem perm_objects (s : IndexedHeap) : s.objects.Perm (s.heap.live.map Live.span) :=
  mergeSort_perm _ _

theorem sorted_objects (s : IndexedHeap) :
    s.objects.Pairwise fun a b => a.offset ≤ b.offset := pairwise_sortByOffset _

theorem live_of_objects {s : IndexedHeap} {o : Span} (ho : o ∈ s.objects) :
    ∃ l ∈ s.heap.live, l.span = o :=
  mem_map.mp (s.perm_objects.mem_iff.mp ho)

theorem blocks_withSortedFreeBlocks (g : OldGen) : g.withSortedFreeBlocks.blocks = g.blocks := by
  unfold withSortedFreeBlocks
  split
  · rfl
  · rfl

namespace IndexOk
variable {s : IndexedHeap}

section
variable (h : IndexOk s)
include h

theorem sortedFree_spec :
    s.sortedFree.Perm s.heap.gen.blocks ∧ s.sortedFree.Pairwise fun a b => a.offset ≤ b.offset := by
  obtain ⟨hok,hclean⟩ := withSortedFreeBlocks_spec h.alloc
  have hcache := hok.cache hclean
  rw [blocks_withSortedFreeBlocks] at hcache
  exact hcache

theorem covered_sortedFree : covered s.sortedFree = s.heap.gen.freeBytes :=
  covered_perm h.sortedFree_spec.1

theorem packed_view : Packed s.heap.gen.capacity (s.sortedFree ++ s.objects) :=
  h.alloc.packed.perm (h.sortedFree_spec.1.append s.perm_objects).symm

theorem objects_aligned {o : Span} (ho : o ∈ s.objects) : o.offset%8 = 0 := by
  obtain ⟨l,hl,rfl⟩ := live_of_objects ho
  exact h.offset_aligned hl

theorem tiled {layouts : Layouts} {headerAt : Nat → Header}
    (hf : s.Filled layouts headerAt) (hcap : 0 < s.heap.gen.capacity) :
    Tiled (s.store layouts headerAt) s.sortedFree s.objects := by
  obtain ⟨hperm,hsorted⟩ := h.sortedFree_spec
  refine ⟨⟨h.packed_view,?_,hcap,hsorted,s.sorted_objects⟩,?_,?_⟩
  · have haccount := h.alloc.account
    have hfull := hf.full
    rw [total_append,total_perm hperm,total_perm s.perm_objects,hfull]
    simp only [store]
    omega
  · intro o ho
    obtain ⟨l,hl,rfl⟩ := live_of_objects ho
    exact hf.sized l hl
  intro o ho
  obtain ⟨l,hl,rfl⟩ := live_of_objects ho
  exact hf.filler l hl

theorem table_view :
    BotOk s.bot (covered s.sortedFree) s.objects s.heap.gen.capacity := by
  rw [h.covered_sortedFree]
  refine ⟨fun hon => (h.table.anchored hon).with_cells ?_,h.table.encodable,h.table.disjoint⟩
  intro z hz _
  exact ⟨z,s.perm_objects.mem_iff.mpr hz,rfl⟩

theorem stop_of_empty (hcap : s.heap.gen.capacity = 0) :
    ∀ b ∈ s.sortedFree, b.stop = 0 := by
  intro b hb
  have := h.packed_view.inside b (mem_append_left _ hb)
  omega

end
end IndexOk

theorem neighboursDisjoint_of_empty {l : List FreeBlock} (h : ∀ b ∈ l, b.stop = 0) :
    neighboursDisjoint l = true := by
  induction l with
  | nil => rfl
  | cons a l ih => ?_
  cases l with
  | nil => rfl
  | cons b l =>
    have ha := h a (by simp)
    have hrec := ih fun c hc => h c (mem_cons_of_mem _ hc)
    simp only [neighboursDisjoint,hrec,ha,Nat.zero_le,decide_true,Bool.and_self]

theorem walk_empty {st : Store} (hlen : st.len = 0) {sorted : List FreeBlock}
    (hs : ∀ b ∈ sorted, b.stop = 0) {bot : BlockOffsetTable} {free : Finset Nat}
    {cells : List Span} (hbot : BotOk bot free cells 0) (seq : Nat) (ranges : List CardRange)
    (overlaps : Bool) :
    (st.walkCardRangesWithGaps bot sorted seq ranges overlaps).1 =
        st.linearWalk sorted ranges overlaps ∧
      BotOk (st.walkCardRangesWithGaps bot sorted seq ranges overlaps).2 free cells 0 := by
  have hall : freeListIsDisjoint sorted st.len = true := by
    unfold freeListIsDisjoint
    rw [neighboursDisjoint_of_empty hs,Bool.and_true,all_eq_true]
    intro b hb
    exact decide_eq_true (by rw [hs b hb]; exact Nat.zero_le _)
  rw [linearWalk_empty hlen hs]
  unfold Store.walkCardRangesWithGaps
  split
  · exact ⟨rfl,hbot⟩
  split
  · rename_i hon
    unfold Store.botWalk
    simp only [hlen,Bool.or_true,decide_true,if_true]
    refine ⟨linearWalk_empty hlen hs ranges overlaps,?_⟩
    split
    · have hanch := hbot.anchored hon
      rw [hlen] at hall
      refine ⟨fun _ => ⟨hanch.bounded,?_⟩,hbot.encodable,fun _ => hall⟩
      intro c hc hfree
      obtain ⟨a,ha⟩ := hanch.cards c hc hfree
      exact ⟨a,ha.anchor,ha.below,ha.start,ha.allocated⟩
    · exact hbot
  · exact ⟨linearWalk_empty hlen hs ranges overlaps,hbot⟩

theorem IndexOk.walk {s : IndexedHeap} (h : IndexOk s) {layouts : Layouts}
    {headerAt : Nat → Header} (hf : s.Filled layouts headerAt) {ranges : List CardRange}
    (hr : RangesOk ranges) (seq : Nat) (overlaps : Bool) :
    ((s.store layouts headerAt).walkCardRangesWithGaps s.bot s.sortedFree seq ranges overlaps).1 =
        (s.store layouts headerAt).linearWalk s.sortedFree ranges overlaps ∧
      ((s.store layouts headerAt).linearWalk s.sortedFree ranges overlaps).2 = [] ∧
      BotOk ((s.store layouts headerAt).walkCardRangesWithGaps s.bot s.sortedFree seq ranges
        overlaps).2 (covered s.sortedFree) s.objects s.heap.gen.capacity := by
  rcases Nat.eq_zero_or_pos s.heap.gen.capacity with hcap | hcap
  · have hview := h.table_view
    rw [hcap] at hview ⊢
    have hlen : (s.store layouts headerAt).len = 0 := hcap
    obtain ⟨h1,h2⟩ := walk_empty hlen (h.stop_of_empty hcap) hview seq ranges overlaps
    refine ⟨h1,?_,h2⟩
    rw [linearWalk_empty hcap (h.stop_of_empty hcap)]
  have htiled := h.tiled hf hcap
  obtain ⟨h1,h2⟩ := walkCardRangesWithGaps_spec htiled (fun _ ho => h.objects_aligned ho) hr
    h.table_view seq overlaps
  rw [linearWalk_spec htiled hr]
  exact ⟨h1,rfl,h2⟩

theorem IndexOk.walk_step {s : IndexedHeap} (h : IndexOk s) {layouts : Layouts}
    {headerAt : Nat → Header} (hf : s.Filled layouts headerAt) {ranges : List CardRange}
    (hr : RangesOk ranges) (seq : Nat) (overlaps : Bool) :
    IndexOk
      { s with
        heap := ⟨s.heap.gen.withSortedFreeBlocks,s.heap.live⟩
        bot := ((s.store layouts headerAt).walkCardRangesWithGaps s.bot s.sortedFree seq ranges
          overlaps).2 } := by
  obtain ⟨_,_,hbot⟩ := h.walk hf hr seq overlaps
  rw [h.covered_sortedFree] at hbot
  have hstore := (sameConfig_withSortedFreeBlocks s.heap.gen).store
  have hfree : s.heap.gen.withSortedFreeBlocks.freeBytes = s.heap.gen.freeBytes :=
    congrArg covered (blocks_withSortedFreeBlocks _)
  refine ⟨(withSortedFreeBlocks_spec h.alloc).1,?_,?_,by simp [hf.raw]⟩
  · simp only [hstore.1]; exact h.base
  simp only [hfree,hstore.2]
  refine ⟨fun hon => (hbot.anchored hon).with_cells ?_,hbot.encodable,hbot.disjoint⟩
  intro z hz _
  exact ⟨z,s.perm_objects.mem_iff.mp hz,rfl⟩

theorem step_indexOk {s t : IndexedHeap} (h : IndexOk s) (hst : Step s t) : IndexOk t := by
  cases hst with
  | alloc call size align commit ha => exact h.alloc_step call commit ha
  | free hl size hs => exact h.free_step hl hs
  | releaseUnusedTail hl hraw size h8 h16 hr => exact h.release_step hl hraw h8 h16 hr
  | coalesceFreeBlocks =>
    exact h.same_bytes (coalesceFreeBlocks_spec h.alloc) (sameConfig_coalesceFreeBlocks _).store
      (coalesceFreeBlocks_freeBytes h.alloc.buckets)
  | freeRunsAscending hl hc ha => exact h.freeRuns_step hl hc ha
  | fill hl n h8 h16 hr => exact h.fill_step hl h8 h16 hr
  | retire hr => exact ⟨h.alloc,h.base,h.table,fun x hx => h.raw x (hr hx)⟩
  | walk hf hr seq overlaps => exact h.walk_step hf hr seq overlaps
  | compact hok hs => exact h.compact_step hok hs

theorem reachable_indexOk {base capacity : Nat} (hbase : base%8 = 0)
    {reserved exactStartClass noCoalesce requested : Bool} {s : IndexedHeap}
    (h : Reachable (fresh base capacity reserved exactStartClass noCoalesce requested) s) :
    IndexOk s := by
  induction h with
  | refl => exact indexOk_fresh hbase _ _ _ _ _
  | tail _ hst ih => exact step_indexOk ih hst

/-- In every reachable state the table in use anchors every trusted card, and in every such state
that is filled the anchored walk answers, it answers as the linear walk does, and no gap is
reported. -/
theorem anchored_walk_exact {base capacity : Nat} (hbase : base%8 = 0)
    {reserved exactStartClass noCoalesce requested : Bool} {s : IndexedHeap}
    (h : Reachable (fresh base capacity reserved exactStartClass noCoalesce requested) s) :
    (s.bot.enabled = true →
      Anchored s.bot s.heap.gen.freeBytes (s.heap.live.map Live.span) s.heap.gen.capacity) ∧
    ∀ (layouts : Layouts) (headerAt : Nat → Header), s.Filled layouts headerAt →
      ∀ ranges, RangesOk ranges → ∀ (seq : Nat) (overlaps : Bool),
        ((s.store layouts headerAt).walkCardRangesWithGaps s.bot s.sortedFree seq ranges
            overlaps).1 =
          (s.store layouts headerAt).linearWalk s.sortedFree ranges overlaps ∧
        ((s.store layouts headerAt).linearWalk s.sortedFree ranges overlaps).2 = [] ∧
        (s.bot.enabled = true → 0 < s.heap.gen.capacity →
          ((s.store layouts headerAt).botWalk s.bot s.sortedFree seq ranges overlaps).1 =
            some ((s.store layouts headerAt).linearWalk s.sortedFree ranges overlaps)) := by
  have hok := reachable_indexOk hbase h
  refine ⟨hok.table.anchored,?_⟩
  intro layouts headerAt hf ranges hr seq overlaps
  obtain ⟨h1,h2,_⟩ := hok.walk hf hr seq overlaps
  refine ⟨h1,h2,fun hon hcap => ?_⟩
  have htiled := hok.tiled hf hcap
  rw [linearWalk_spec htiled hr]
  exact (botWalk_spec htiled (fun _ ho => hok.objects_aligned ho) hr hok.table_view hon seq
    overlaps).1

/-- Two blocks are handed out and filled, and the first one is given back: the walk finds the
second one. -/
theorem anchored_walk_exact_after_free :
    ∃ s, Reachable (fresh 4096 1024 false true false true) s ∧ s.bot.enabled = true ∧
      s.Filled ⟨fun _ => none,8⟩ (fun _ => ⟨1,0,1⟩) ∧
      ((s.store ⟨fun _ => none,8⟩ fun _ => ⟨1,0,1⟩).botWalk s.bot s.sortedFree 1 [(0,512)]
        false).1 = some ([⟨4096+32,32,none⟩],[]) := by
  have h1 := Step.alloc (s := fresh 4096 1024 false true false true) .alloc 32 8
    (fun _ _ _ => true) (by decide)
  generalize hs1 : IndexedHeap.mk _ _ _ = s1 at h1
  have h2 := Step.alloc (s := s1) .allocUnzeroed 32 8 (fun _ _ _ => true) (by decide)
  generalize hs2 : IndexedHeap.mk _ _ _ = s2 at h2
  have hlive : s2.heap.live.Perm [⟨0,32,32⟩,⟨32,32,32⟩] := by
    rw [← hs2,← hs1]
    decide
  have h3 := Step.free hlive 32 (.inl rfl)
  generalize hs3 : IndexedHeap.mk _ _ _ = s3 at h3
  have hr := ((Relation.ReflTransGen.single h1).tail h2).tail h3
  have hf : s3.Filled ⟨fun _ => none,8⟩ fun _ => ⟨1,0,1⟩ := by
    refine ⟨?_,?_,?_,?_⟩
    · rw [← hs3,← hs2,← hs1]; decide
    · rw [← hs3,← hs2,← hs1]; decide
    · intro _ _
      rename_i l hl
      rw [← hs3] at hl
      rw [mem_singleton.mp hl]
      exact ⟨false,by decide⟩
    intro _ _
    decide
  have hon : s3.bot.enabled = true := by rw [← hs3,← hs2,← hs1]; decide
  have hcap : 0 < s3.heap.gen.capacity := by rw [← hs3,← hs2,← hs1]; decide
  have hranges : RangesOk [(0,512)] := ⟨by simp,by simp⟩
  refine ⟨s3,hr,hon,hf,?_⟩
  have hblocks : s3.heap.gen.blocks = [⟨0,32⟩,⟨64,960⟩] := by rw [← hs3,← hs2,← hs1]; decide
  have hdirty : s3.heap.gen.sortedFreeDirty = true := by rw [← hs3,← hs2,← hs1]; decide
  have hsorted : s3.sortedFree = [⟨0,32⟩,⟨64,960⟩] := by
    simp only [sortedFree,withSortedFreeBlocks,hdirty,if_true,sortedBlocks,hblocks]
    exact mergeSort_of_pairwise (by decide)
  have hstore : s3.store ⟨fun _ => none,8⟩ (fun _ => ⟨1,0,1⟩) =
      ⟨4096,1024,⟨fun _ => none,8⟩,fun _ => ⟨1,0,1⟩⟩ := by rw [← hs3,← hs2,← hs1]; rfl
  rw [((anchored_walk_exact (by decide) hr).2 _ _ hf _ hranges 1 false).2.2 hon hcap,hsorted,hstore]
  decide

end IndexedHeap
end CratonVM.Gc
