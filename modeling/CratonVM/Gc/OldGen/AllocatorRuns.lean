import CratonVM.Gc.OldGen.Reclaim

/-!
The allocator and its clients as one system: every state that any sequence of calls reaches
satisfies the invariant.
-/
namespace CratonVM.Gc
open Spans Spans.Span OldGen List

/-- A generation and the blocks its clients hold. -/
structure Heap where
  gen : OldGen
  live : List Live
  deriving DecidableEq, Repr

def SameStore (g g' : OldGen) : Prop := g'.base = g.base ∧ g'.capacity = g.capacity

/-- And they are set up alike. -/
structure SameConfig (g g' : OldGen) : Prop where
  store : SameStore g g'
  exact : g'.exactStartClass = g.exactStartClass
  noCoalesce : g'.noCoalesce = g.noCoalesce

theorem SameConfig.trans {g g1 g2 : OldGen} (h1 : SameConfig g g1) (h2 : SameConfig g1 g2) :
    SameConfig g g2 where
  store := ⟨h2.store.1.trans h1.store.1,h2.store.2.trans h1.store.2⟩
  exact := h2.exact.trans h1.exact
  noCoalesce := h2.noCoalesce.trans h1.noCoalesce

namespace OldGen
variable (g : OldGen)

theorem sameConfig_handOut (idx i offset size : Nat) :
    SameConfig g (g.handOut idx i offset size) := by
  rw [handOut_frame]
  exact ⟨⟨rfl,rfl⟩,rfl,rfl⟩

theorem sameConfig_allocFromBuckets (size align : Nat) (commit : Nat → Nat → Bool) :
    SameConfig g (g.allocFromBuckets size align commit).2 := by
  unfold allocFromBuckets
  cases reservedSize size align with
  | none => exact ⟨⟨rfl,rfl⟩,rfl,rfl⟩
  | some reserved => ?_
  simp only
  generalize searchBuckets g.base reserved align _ _ none false g.buckets = out
  obtain ⟨found,buckets⟩ := out
  have hg : SameConfig g { g with buckets := buckets } := ⟨⟨rfl,rfl⟩,rfl,rfl⟩
  cases found with
  | none => exact hg
  | some found =>
    simp only
    split
    · exact hg.trans (sameConfig_handOut _ _ _ _ _)
    · exact hg

theorem sameConfig_coalesceFreeBlocks : SameConfig g g.coalesceFreeBlocks.2 := by
  unfold coalesceFreeBlocks
  split
  · exact ⟨⟨rfl,rfl⟩,rfl,rfl⟩
  split
  · exact ⟨⟨rfl,rfl⟩,rfl,rfl⟩
  simp only
  split
  · exact ⟨⟨rfl,rfl⟩,rfl,rfl⟩
  split
  · exact ⟨⟨rfl,rfl⟩,rfl,rfl⟩
  rw [foldl_pushBlock_frame]
  split
  · exact ⟨⟨rfl,rfl⟩,rfl,rfl⟩
  · exact ⟨⟨rfl,rfl⟩,rfl,rfl⟩

theorem sameConfig_allocImpl (size align : Nat) (commit : Commit) :
    SameConfig g (g.allocImpl size align commit).2 := by
  have h1 := sameConfig_allocFromBuckets g size align (commit 0)
  unfold allocImpl
  cases hr : g.allocFromBuckets size align (commit 0) with
  | mk found g1 => ?_
  rw [hr] at h1
  cases found with
  | some offset => exact h1
  | none => ?_
  have h2 := h1.trans (sameConfig_coalesceFreeBlocks g1)
  simp only
  split
  · exact h2.trans (sameConfig_allocFromBuckets _ _ _ _)
  · exact h2

theorem sameConfig_allocFromTop (size align : Nat) (commit : Commit) :
    SameConfig g (g.allocFromTop size align commit).2 := by
  unfold allocFromTop
  split
  · have h1 : SameConfig g (g.allocFromTopScan size align (commit 2)).2 := by
      unfold allocFromTopScan
      split
      · exact ⟨⟨rfl,rfl⟩,rfl,rfl⟩
      simp only
      split
      · exact ⟨⟨rfl,rfl⟩,rfl,rfl⟩
      split
      · exact sameConfig_handOut _ _ _ _ _
      · exact ⟨⟨rfl,rfl⟩,rfl,rfl⟩
    cases hr : g.allocFromTopScan size align (commit 2) with
    | mk found g1 =>
      rw [hr] at h1
      cases found with
      | some offset => exact h1
      | none => exact h1.trans (sameConfig_allocImpl _ _ _ _)
  · exact sameConfig_allocImpl _ _ _ _

theorem sameConfig_free (addr size : Nat) : SameConfig g (g.free addr size) := by
  unfold free
  simp only
  split
  · exact ⟨⟨rfl,rfl⟩,rfl,rfl⟩
  split
  · exact ⟨⟨rfl,rfl⟩,rfl,rfl⟩
  · exact ⟨⟨rfl,rfl⟩,rfl,rfl⟩

theorem sameConfig_releaseUnusedTail (addr size : Nat) :
    SameConfig g (g.releaseUnusedTail addr size) := by
  unfold releaseUnusedTail
  split
  · exact ⟨⟨rfl,rfl⟩,rfl,rfl⟩
  split
  · exact ⟨⟨rfl,rfl⟩,rfl,rfl⟩
  split
  · exact ⟨⟨rfl,rfl⟩,rfl,rfl⟩
  · exact ⟨⟨rfl,rfl⟩,rfl,rfl⟩

theorem sameConfig_withSortedFreeBlocks : SameConfig g g.withSortedFreeBlocks := by
  unfold withSortedFreeBlocks
  split
  · exact ⟨⟨rfl,rfl⟩,rfl,rfl⟩
  · exact ⟨⟨rfl,rfl⟩,rfl,rfl⟩

theorem sameConfig_foldl_free (runs : List (Nat × Nat)) (g : OldGen) :
    SameConfig g (runs.foldl (fun g run => g.free run.1 run.2) g) := by
  induction runs generalizing g with
  | nil => exact ⟨⟨rfl,rfl⟩,rfl,rfl⟩
  | cons run runs ih => exact (sameConfig_free g run.1 run.2).trans (ih _)

theorem sameConfig_freeRunsAscending (runs : List (Nat × Nat)) :
    SameConfig g (g.freeRunsAscending runs) := by
  unfold freeRunsAscending
  split
  · exact ⟨⟨rfl,rfl⟩,rfl,rfl⟩
  have h1 := sameConfig_withSortedFreeBlocks g
  have h2 := sameConfig_foldl_free runs { g.withSortedFreeBlocks with sortedFreeCache := [] }
  exact h1.trans ⟨h2.store,h2.exact,h2.noCoalesce⟩

end OldGen
namespace Heap
/-- The client of an allocation holds the block that it was handed. -/
def afterAlloc (live : List Live) (size align : Nat) (r : Option Nat × OldGen) : Heap :=
  match r.1 with
  | none => ⟨r.2,live⟩
  | some offset => ⟨r.2,⟨offset,size,(reservedSize size align).getD 0⟩ :: live⟩

/-- One call, under the contract its documentation states: `free` gets a live block with the
size that was asked for or reserved, a tail is the end of a live block and leaves room for an
object or nothing unless it is refused, a sweep's runs are complete live blocks back to back.
`carve` is no call: the client of a promotion buffer fills it with objects and holds each of them
from then on. -/
inductive Step : Heap → Heap → Prop
  | alloc {s : Heap} (size align : Nat) (commit : Commit) (ha : AlignOk align) :
      Step s (afterAlloc s.live size align (s.gen.alloc size align commit))
  | allocUnzeroed {s : Heap} (size align : Nat) (commit : Commit) (ha : AlignOk align) :
      Step s (afterAlloc s.live size align (s.gen.allocUnzeroed size align commit))
  | allocUnzeroedBuffer {s : Heap} (size align : Nat) (commit : Commit) (ha : AlignOk align) :
      Step s (afterAlloc s.live size align (s.gen.allocUnzeroedBuffer size align commit))
  | allocFromTop {s : Heap} (size align : Nat) (commit : Commit) (ha : AlignOk align) :
      Step s (afterAlloc s.live size align (s.gen.allocFromTop size align commit))
  | free {s : Heap} {x : Live} {rest : List Live} (hl : s.live.Perm (x :: rest)) (size : Nat)
      (hs : size = x.requested ∨ size = x.reserved) :
      Step s ⟨s.gen.free (s.gen.base+x.offset) size,rest⟩
  | releaseUnusedTail {s : Heap} {x : Live} {rest : List Live} (hl : s.live.Perm (x :: rest))
      (size : Nat) (h8 : size%8 = 0) (h16 : headerSize ≤ size)
      (hr : x.reserved = size ∨ size+headerSize ≤ x.reserved) :
      Step s ⟨s.gen.releaseUnusedTail (s.gen.base+x.offset+(x.reserved-size)) size,
        Live.keepHead x size ++ rest⟩
  | releaseRefused {s : Heap} {x : Live} (hl : x ∈ s.live) (size : Nat)
      (hs : size ≤ x.reserved) (hr : size%8 ≠ 0 ∨ size < headerSize) :
      Step s ⟨s.gen.releaseUnusedTail (s.gen.base+x.offset+(x.reserved-size)) size,s.live⟩
  | coalesceFreeBlocks {s : Heap} : Step s ⟨s.gen.coalesceFreeBlocks.2,s.live⟩
  | freeRunsAscending {s : Heap} {runs : List DeadRun} {rest : List Live}
      (hl : s.live.Perm (runs.flatMap DeadRun.objects ++ rest))
      (hc : ∀ r ∈ runs, DeadRun.Contiguous r.first r.others)
      (ha : Ascending (runs.map fun r => r.joined.span)) :
      Step s ⟨s.gen.freeRunsAscending (runs.map (DeadRun.run s.gen.base)),rest⟩
  | sortedView {s : Heap} : Step s ⟨s.gen.withSortedFreeBlocks,s.live⟩
  | carve {s : Heap} {x : Live} {rest : List Live} (hl : s.live.Perm (x :: rest)) (n : Nat)
      (h8 : n%8 = 0) (h16 : headerSize ≤ n) (hr : n+headerSize ≤ x.reserved) :
      Step s ⟨s.gen,⟨x.offset,n,n⟩ :: ⟨x.offset+n,x.reserved-n,x.reserved-n⟩ :: rest⟩

/-- The states that finitely many calls on a new generation lead to. -/
def Reachable (start s : Heap) : Prop := Relation.ReflTransGen Step start s

/-- A new generation that no client has called. -/
def fresh (base capacity : Nat) (reserved exactStartClass noCoalesce : Bool) : Heap :=
  ⟨newOldGen base capacity reserved exactStartClass noCoalesce,[]⟩

theorem allocOk_afterAlloc {live : List Live} {size align : Nat} {r : Option Nat × OldGen}
    (h : AllocPost live size align r) :
    AllocOk (afterAlloc live size align r).gen (afterAlloc live size align r).live := by
  obtain ⟨found,g⟩ := r
  cases found with
  | none => exact h
  | some offset =>
    obtain ⟨reserved,hr,hok⟩ := h
    simp only [afterAlloc,hr,Option.getD_some]
    exact hok

theorem allocOk_fresh (base capacity : Nat) (reserved exactStartClass noCoalesce : Bool) :
    AllocOk (fresh base capacity reserved exactStartClass noCoalesce).gen [] := by
  have hempty : BucketsOk (replicate numBuckets ({} : Bucket)) := by
    have hat : ∀ i, bucketAt (replicate numBuckets ({} : Bucket)) i = {} := by
      intro i
      simp only [bucketAt,getD,getElem?_replicate]
      split
      · rfl
      · rfl
    refine ⟨length_replicate,?_,?_⟩
    · intro i b hb
      rw [hat] at hb
      cases hb
    intro i b hb
    rw [hat] at hb
    cases hb
  obtain ⟨hbuckets,hperm⟩ := pushBlock_buckets
    (g := ⟨base,capacity,reserved,exactStartClass,noCoalesce,replicate numBuckets {},0,[],true,
      true⟩) hempty ⟨0,capacity⟩
  have hnil : (replicate numBuckets ({} : Bucket)).flatMap Bucket.blocks = [] := by
    simp [flatMap_replicate]
  have hblocks : (fresh base capacity reserved exactStartClass noCoalesce).gen.blocks =
      [⟨0,capacity⟩] := by
    have h1 : (fresh base capacity reserved exactStartClass noCoalesce).gen.blocks.Perm
        (⟨0,capacity⟩ :: (replicate numBuckets ({} : Bucket)).flatMap Bucket.blocks) := hperm
    rw [hnil] at h1
    exact perm_singleton.mp h1
  refine ⟨⟨hbuckets,?_,by simp,?_,?_⟩,?_⟩
  · rw [hblocks]
    refine ⟨?_,pairwise_singleton _ _,?_⟩
    · intro s hs
      obtain rfl := mem_singleton.mp hs
      simp only [Span.stop,Nat.zero_add]
      exact le_rfl
    rcases Nat.eq_zero_or_pos capacity with h0 | hpos
    · exact .inr h0
    refine .inl ?_
    intro s hs
    obtain rfl := mem_singleton.mp hs
    exact hpos
  · rw [hblocks]
    exact Nat.zero_add _
  · intro _
    rw [hblocks]
    exact pairwise_singleton _ _
  intro hclean
  cases hclean

theorem allocOk_perm {g : OldGen} {live live' : List Live} (h : AllocOk g live)
    (hp : live.Perm live') : AllocOk g live' := ⟨h.live_perm hp,h.cache⟩

variable {s : Heap}

theorem step_allocOk {t : Heap} (h : AllocOk s.gen s.live) (hst : Step s t) :
    AllocOk t.gen t.live := by
  cases hst with
  | alloc size align commit ha => exact allocOk_afterAlloc (allocImpl_spec h ha commit)
  | allocUnzeroed size align commit ha => exact allocOk_afterAlloc (allocImpl_spec h ha commit)
  | allocUnzeroedBuffer size align commit ha =>
    exact allocOk_afterAlloc (allocImpl_spec h ha commit)
  | allocFromTop size align commit ha => exact allocOk_afterAlloc (allocFromTop_spec h ha commit)
  | free hl size hs =>
    rename_i x rest
    have h1 := allocOk_perm h hl
    have hx := h1.live x (by simp)
    refine free_spec h1 ?_
    rcases hs with rfl | rfl
    · exact hx.covers
    · exact Nat.le_of_eq (freedSize_self hx.granular hx.header)
  | releaseUnusedTail hl size h8 h16 hr =>
    exact releaseUnusedTail_spec (allocOk_perm h hl) h8 h16 hr
  | releaseRefused hl size hs hr =>
    rw [releaseUnusedTail_refused hr]
    exact h
  | coalesceFreeBlocks => exact coalesceFreeBlocks_spec h
  | freeRunsAscending hl hc ha => exact freeRunsAscending_spec hc ha (allocOk_perm h hl)
  | sortedView => exact (withSortedFreeBlocks_spec h).1
  | carve hl n h8 h16 hr => ?_
  rename_i x rest
  have h1 := allocOk_perm h hl
  have hx := h1.live x (by simp)
  have h2 := hx.aligned
  have h3 := hx.granular
  have hok : ∀ p ∈ [(⟨x.offset,n,n⟩ : Live),⟨x.offset+n,x.reserved-n,x.reserved-n⟩],
      p.Ok s.gen.base := by
    intro p hp
    simp only [mem_cons,not_mem_nil,or_false] at hp
    rcases hp with rfl | rfl
    · exact ⟨h2,h8,h16,freedSize_le h8 h16 le_rfl⟩
    have h4 : (x.reserved-n)%8 = 0 := by omega
    have h5 : headerSize ≤ x.reserved-n := by omega
    exact ⟨by simp only; omega,h4,h5,freedSize_le h4 h5 le_rfl⟩
  refine ⟨h1.regroup hok ?_ ?_,h1.cache⟩
  · intro p hp
    simp only [mem_cons,not_mem_nil,or_false] at hp
    rcases hp with rfl | rfl
    · unfold Within Span.stop Live.span
      simp only
      omega
    unfold Within Span.stop Live.span
    simp only
    omega
  · simp [Live.span,Apart,Span.stop]

end Heap
end CratonVM.Gc
