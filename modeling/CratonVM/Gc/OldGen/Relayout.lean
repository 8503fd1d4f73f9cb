import CratonVM.Gc.OldGen.AllocatorRuns

/-!
What gives the generation a new layout: the two compactions, which build the free list anew, and the growth and
the shrinking of the store in place. Which objects are marked, whether Phase 0 finds an escape and what the
operating system grants are inputs here; the bytes of the objects play no part.
-/
namespace CratonVM.Gc
open Spans Spans.Span OldGen List

/-- A survivor of a compaction: where it was and where it goes. -/
structure Move where
  src : Nat
  size : Nat
  dest : Nat
  deriving DecidableEq, Repr

def Move.span (m : Move) : Span := ⟨m.dest,m.size⟩

def Move.live (m : Move) : Live := ⟨m.dest,m.size,m.size⟩

/-- Phase 1 of `compact_walked_starts` over the marked objects, and the cursor behind the last one. -/
def slide : (cursor : Nat) → List Span → List Move × Nat
  | cursor, [] => ([],cursor)
  | cursor, o::rest =>
    let dest := alignDown (cursor+7) 8
    let (moves,stop) := slide (dest+o.size) rest
    (⟨o.offset,o.size,dest⟩::moves,stop)

/-- Phase 1 of `compact_around_pins_trusting`: `stays` says which survivors are pinned or outside the window.
Also the gaps that are left in front of these. -/
def slideAround (stays : Nat → Bool) : (cursor : Nat) → List Span → List Move × List FreeBlock × Nat
  | cursor, [] => ([],[],cursor)
  | cursor, o::rest =>
    let dest := if stays o.offset then o.offset else cursor
    let (moves,gaps,stop) := slideAround stays (dest+o.size) rest
    let gaps := if stays o.offset ∧ o.offset > cursor then ⟨cursor,o.offset-cursor⟩::gaps else gaps
    (⟨o.offset,o.size,dest⟩::moves,gaps,stop)

namespace OldGen
/-- What is left of the store behind the survivors. -/
def trailing (capacity stop : Nat) : List FreeBlock := if stop < capacity then [⟨stop,capacity-stop⟩] else []

/-- Phase 4: the buckets are emptied and take the gaps and the end of the store. -/
def rebuildFreeList (g : OldGen) (gaps : List FreeBlock) (stop used : Nat) : OldGen :=
  let g := { g.invalidateSortedFree with buckets := g.buckets.map fun _ => {} }
  let g := (gaps++trailing g.capacity stop).foldl pushBlock g
  { g with usedBytes := used, freeListMaximal := true }

/-- `compact_walked_starts` over the walked objects. `marked` are the marks behind Phase 0, `recommitted` that no
hole of the store is left. `none` when the compaction is abandoned. -/
def compactWalkedStarts (g : OldGen) (objects : List Span) (marked : Nat → Bool) (recommitted escaped : Bool) :
    Option (List Move) × OldGen :=
  let walkedBytes := (objects.map Span.size).sum
  if walkedBytes ≠ g.usedBytes then (none,g)
  else if !recommitted then (none,g)
  else if escaped then (none,g)
  else
    let (moves,cursor) := slide 0 (objects.filter fun o => marked o.offset)
    let compactedEnd := alignDown (cursor+7) 8
    (some moves,g.rebuildFreeList [] compactedEnd compactedEnd)

/-- `compact_around_pins_trusting`; `refused` stands for its other refusals (a stale grid, a hole that cannot be
committed, an escape, no need), all of which leave the generation as it is. -/
def compactAroundPins (g : OldGen) (objects : List Span) (marked stays : Nat → Bool) (refused : Bool) :
    Option (List Move) × OldGen :=
  let walkedBytes := (objects.map Span.size).sum
  if walkedBytes ≠ g.usedBytes then (none,g)
  else if refused then (none,g)
  else
    let (moves,gaps,stop) := slideAround stays 0 (objects.filter fun o => marked o.offset)
    (some moves,g.rebuildFreeList gaps stop (moves.map Move.size).sum)

end OldGen

section
/-- What the sliding leaves behind the cursor: gaps and survivors that fill it up to `stop`. -/
structure SlideOk (cursor stop : Nat) (moves : List Move) (gaps : List FreeBlock) : Prop where
  le : cursor ≤ stop
  inside : ∀ s ∈ gaps++moves.map Move.span, cursor ≤ s.offset ∧ s.stop ≤ stop
  apart : (gaps++moves.map Move.span).Pairwise Apart
  total : total gaps+total (moves.map Move.span) = stop-cursor
  untouched : gaps.Pairwise fun a b => ¬Touching a b
  enclosed : ∀ b ∈ gaps, 0 < b.size ∧ b.stop < stop

variable {cursor stop : Nat} {moves : List Move} {gaps : List FreeBlock}

theorem SlideOk.survivor {m : Move} (h : SlideOk (m.dest+m.size) stop moves gaps) :
    SlideOk m.dest stop (m::moves) gaps where
  le := by
    have := h.le
    omega
  inside := by
    intro s hs
    have hle := h.le
    rcases mem_cons.mp (perm_middle.mem_iff.mp hs) with rfl | hs
    · exact ⟨le_rfl,hle⟩
    obtain ⟨h1,h2⟩ := h.inside s hs
    exact ⟨by omega,h2⟩
  apart := by
    refine (perm_middle.symm.pairwise_iff fun h => h.symm).mp ?_
    refine pairwise_cons.mpr ⟨?_,h.apart⟩
    intro s hs
    exact .inl (h.inside s hs).1
  total := by
    have h1 := h.total
    have h2 := h.le
    rw [map_cons,total_cons]
    simp only [Move.span]
    omega
  untouched := h.untouched
  enclosed := h.enclosed

theorem SlideOk.gap {m : Move} (h : SlideOk (m.dest+m.size) stop moves gaps) (hlt : cursor < m.dest)
    (hpos : 0 < m.size) : SlideOk cursor stop (m::moves) (⟨cursor,m.dest-cursor⟩::gaps) := by
  have hnext := h.survivor
  have hle := h.le
  have hstop : (⟨cursor,m.dest-cursor⟩ : FreeBlock).stop = m.dest := by
    unfold Span.stop
    simp only
    omega
  refine ⟨by omega,?_,?_,?_,?_,?_⟩
  · intro s hs
    rcases mem_cons.mp hs with rfl | hs
    · exact ⟨le_rfl,by omega⟩
    obtain ⟨h1,h2⟩ := hnext.inside s hs
    exact ⟨by omega,h2⟩
  · refine pairwise_cons.mpr ⟨?_,hnext.apart⟩
    intro s hs
    exact .inl (by rw [hstop]; exact (hnext.inside s hs).1)
  · have := hnext.total
    rw [total_cons]
    simp only
    omega
  · refine pairwise_cons.mpr ⟨?_,h.untouched⟩
    intro b hb
    have := (h.inside b (mem_append_left _ hb)).1
    exact not_touching_of_gap (by omega)
  · refine forall_mem_cons.mpr ⟨⟨by simp only; omega,by omega⟩,h.enclosed⟩

end

namespace OldGen
variable {g : OldGen} {live : List Live}

/-- The objects that a walk hands to a compaction: blocks of the clients in address order. -/
structure Walked (live : List Live) (objects : List Span) : Prop where
  ascending : Ascending objects
  held : ∀ o ∈ objects, ∃ l ∈ live, l.span = o

variable {objects : List Span}

theorem Walked.filter (h : Walked live objects) (p : Span → Bool) :
    Walked live (objects.filter p) :=
  ⟨h.ascending.filter _,fun o ho => h.held o (mem_of_mem_filter ho)⟩

/-- What the clients hold behind a compaction. -/
def survivors (live : List Live) (moves : Option (List Move)) : List Live :=
  match moves with
  | none => live
  | some moves => moves.map Move.live

end OldGen
namespace Heap
variable {limit : Nat}

end Heap
end CratonVM.Gc
