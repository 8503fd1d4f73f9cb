import CratonVM.Gc.OldGen.BlockOffsetHooks

/-!
The allocator, its clients and the block-offset table as one system: the invariant of the table
survives every sequence of calls, and so the anchored walk and the linear walk agree whenever
the allocated bytes are objects end to end.
-/
namespace CratonVM.Gc
open Spans Spans.Span OldGen BlockOffsetTable List Bool Finset

/-- A heap with its table. `raw` are the clients' promotion buffers that are not filled to their
end yet. -/
structure IndexedHeap where
  heap : Heap
  bot : BlockOffsetTable
  raw : List Live

inductive AllocCall where
  | alloc
  | allocUnzeroed
  | allocUnzeroedBuffer
  | allocFromTop
  deriving DecidableEq, Repr

namespace AllocCall
def run (call : AllocCall) (g : OldGen) (size align : Nat) (commit : Commit) : Option Nat × OldGen :=
  match call with
  | .alloc => g.alloc size align commit
  | .allocUnzeroed => g.allocUnzeroed size align commit
  | .allocUnzeroedBuffer => g.allocUnzeroedBuffer size align commit
  | .allocFromTop => g.allocFromTop size align commit

/-- Only `alloc_unzeroed_buffer` hands out a block that is filled and returned piece by piece. -/
def buffers (call : AllocCall) (size align : Nat) (found : Option Nat) : List Live :=
  match call, found with
  | .allocUnzeroedBuffer, some offset => [⟨offset,size,(reservedSize size align).getD 0⟩]
  | _, _ => []

end AllocCall

def noteHandOut (bot : BlockOffsetTable) (size align : Nat) (found : Option Nat) :
    BlockOffsetTable :=
  match found with
  | none => bot
  | some offset => bot.noteAlloc offset ((reservedSize size align).getD 0)

namespace IndexedHeap
def store (s : IndexedHeap) (layouts : Layouts) (headerAt : Nat → Header) : Store :=
  ⟨s.heap.gen.base,s.heap.gen.capacity,layouts,headerAt⟩

def sortedFree (s : IndexedHeap) : List FreeBlock := s.heap.gen.withSortedFreeBlocks.sortedFreeCache

/-- The allocated bytes are the clients' blocks, and each of these is one object with a header
that can be sized. No buffer is outstanding. -/
structure Filled (s : IndexedHeap) (layouts : Layouts) (headerAt : Nat → Header) : Prop where
  raw : s.raw = []
  full : total (s.heap.live.map Live.span) = s.heap.gen.usedBytes
  sized : ∀ l ∈ s.heap.live, ∃ isRef,
    layouts.objectExtent (headerAt l.offset) = some (l.reserved,isRef)
  filler : ∀ l ∈ s.heap.live, (headerAt l.offset).classId ≠ gapFillerClassId

/-- One call. As for the allocator alone, and: a tail is given back by the client of a buffer that
is not filled yet, an object is filled in by splitting a block, a walk finds no unfilled buffer,
and a compaction may leave any layout behind. -/
inductive Step : IndexedHeap → IndexedHeap → Prop
  | alloc {s : IndexedHeap} (call : AllocCall) (size align : Nat) (commit : Commit)
      (ha : AlignOk align) :
      Step s
        { heap := Heap.afterAlloc s.heap.live size align (call.run s.heap.gen size align commit)
          bot := noteHandOut s.bot size align (call.run s.heap.gen size align commit).1
          raw := call.buffers size align (call.run s.heap.gen size align commit).1 ++ s.raw }
  | free {s : IndexedHeap} {x : Live} {rest : List Live} (hl : s.heap.live.Perm (x :: rest))
      (size : Nat) (hs : size = x.requested ∨ size = x.reserved) :
      Step s
        { heap := ⟨s.heap.gen.free (s.heap.gen.base+x.offset) size,rest⟩
          bot := s.bot.noteFree x.offset
          raw := s.raw.filter (· ∈ rest) }
  | releaseUnusedTail {s : IndexedHeap} {x : Live} {rest : List Live}
      (hl : s.heap.live.Perm (x :: rest)) (hraw : x ∈ s.raw) (size : Nat) (h8 : size%8 = 0)
      (h16 : headerSize ≤ size) (hr : x.reserved = size ∨ size+headerSize ≤ x.reserved) :
      Step s
        { heap := ⟨s.heap.gen.releaseUnusedTail (s.heap.gen.base+x.offset+(x.reserved-size)) size,
            Live.keepHead x size ++ rest⟩
          bot := s.bot
          raw := s.raw.filter (· ∈ rest) }
  | coalesceFreeBlocks {s : IndexedHeap} :
      Step s { s with heap := ⟨s.heap.gen.coalesceFreeBlocks.2,s.heap.live⟩ }
  | freeRunsAscending {s : IndexedHeap} {runs : List DeadRun} {rest : List Live}
      (hl : s.heap.live.Perm (runs.flatMap DeadRun.objects ++ rest))
      (hc : ∀ r ∈ runs, DeadRun.Contiguous r.first r.others)
      (ha : Ascending (runs.map fun r => r.joined.span)) :
      Step s
        { heap := ⟨s.heap.gen.freeRunsAscending (runs.map (DeadRun.run s.heap.gen.base)),rest⟩
          bot := runs.foldl (fun bot r => bot.noteFree r.joined.offset) s.bot
          raw := s.raw.filter (· ∈ rest) }
  | fill {s : IndexedHeap} {x : Live} {rest : List Live} (hl : s.heap.live.Perm (x :: rest))
      (n : Nat) (h8 : n%8 = 0) (h16 : headerSize ≤ n) (hr : n+headerSize ≤ x.reserved) :
      Step s
        { heap := ⟨s.heap.gen,
            ⟨x.offset,n,n⟩ :: ⟨x.offset+n,x.reserved-n,x.reserved-n⟩ :: rest⟩
          bot := s.bot
          raw := (if x ∈ s.raw then [⟨x.offset+n,x.reserved-n,x.reserved-n⟩] else []) ++
            s.raw.filter (· ∈ rest) }
  | retire {s : IndexedHeap} {raw : List Live} (hr : raw ⊆ s.raw) : Step s { s with raw := raw }
  | walk {s : IndexedHeap} {layouts : Layouts} {headerAt : Nat → Header}
      (hf : s.Filled layouts headerAt) {ranges : List CardRange} (hr : RangesOk ranges)
      (seq : Nat) (overlaps : Bool) :
      Step s
        { s with
          heap := ⟨s.heap.gen.withSortedFreeBlocks,s.heap.live⟩
          bot := ((s.store layouts headerAt).walkCardRangesWithGaps s.bot s.sortedFree seq ranges
            overlaps).2 }
  | compact {s : IndexedHeap} {gen : OldGen} {live : List Live} (hok : AllocOk gen live)
      (hs : SameStore s.heap.gen gen) :
      Step s { heap := ⟨gen,live⟩, bot := s.bot.noteRelayout, raw := [] }

def Reachable (start s : IndexedHeap) : Prop := Relation.ReflTransGen Step start s

def fresh (base capacity : Nat) (reserved exactStartClass noCoalesce requested : Bool) :
    IndexedHeap :=
  ⟨Heap.fresh base capacity reserved exactStartClass noCoalesce,new capacity requested,[]⟩

/-- The invariant of the system. -/
structure IndexOk (s : IndexedHeap) : Prop where
  alloc : AllocOk s.heap.gen s.heap.live
  base : s.heap.gen.base%8 = 0
  table : BotOk s.bot s.heap.gen.freeBytes (s.heap.live.map Live.span) s.heap.gen.capacity
  raw : ∀ x ∈ s.raw, x ∈ s.heap.live ∧
    (s.bot.enabled = true → Cut s.bot s.heap.gen.freeBytes x.span.stop)

namespace IndexOk
variable {s : IndexedHeap}

theorem offset_aligned (h : IndexOk s) {l : Live} (hl : l ∈ s.heap.live) : l.offset%8 = 0 := by
  have h1 := (h.alloc.live l hl).aligned
  have h2 := h.base
  omega

theorem table_off {bot : BlockOffsetTable} {free : Finset Nat} {cells : List Span} {len : Nat}
    (h : BotOk bot free cells len) (hoff : bot.enabled = false) (free' : Finset Nat)
    (cells' : List Span) (len' : Nat) : BotOk bot free' cells' len' := by
  refine ⟨fun hon => ?_,fun hon => ?_,h.disjoint⟩
  · rw [hoff] at hon
    cases hon
  rw [hoff] at hon
  cases hon

end IndexOk

variable {bot : BlockOffsetTable}

theorem noteAlloc_off
    (hoff : bot.enabled = false) (offset size : Nat) : bot.noteAlloc offset size = bot := by
  unfold noteAlloc
  rw [if_pos (by simp [hoff])]

theorem noteFree_enabled (bot : BlockOffsetTable) (offset : Nat) :
    (bot.noteFree offset).enabled = bot.enabled ∧
      (bot.noteFree offset).freeSeqSeen = bot.freeSeqSeen ∧
      (bot.noteFree offset).freeDisjoint = bot.freeDisjoint := by
  unfold noteFree
  split
  · exact ⟨rfl,rfl,rfl⟩
  simp only
  split
  · exact ⟨rfl,rfl,rfl⟩
  · exact ⟨rfl,rfl,rfl⟩

variable {size : Nat}

theorem run_spec {g : OldGen} {live : List Live} (h : AllocOk g live) (call : AllocCall)
    {align : Nat} (ha : AlignOk align) (commit : Commit) :
    AllocPost live size align (call.run g size align commit) ∧
      FreeEffect g size align (call.run g size align commit) ∧
      SameStore g (call.run g size align commit).2 := by
  have himpl : AllocPost live size align (g.allocImpl size align commit) ∧
      FreeEffect g size align (g.allocImpl size align commit) ∧
      SameStore g (g.allocImpl size align commit).2 :=
    ⟨allocImpl_spec h ha commit,allocImpl_freeEffect h ha commit,(sameConfig_allocImpl _ _ _ _).store⟩
  cases call with
  | alloc => exact himpl
  | allocUnzeroed => exact himpl
  | allocUnzeroedBuffer => exact himpl
  | allocFromTop =>
    exact ⟨allocFromTop_spec h ha commit,allocFromTop_freeEffect h ha commit,
      (sameConfig_allocFromTop _ _ _ _).store⟩

theorem IndexOk.alloc_step {s : IndexedHeap} (h : IndexOk s) (call : AllocCall) {align : Nat}
    (commit : Commit) (ha : AlignOk align) :
    IndexOk
      { heap := Heap.afterAlloc s.heap.live size align (call.run s.heap.gen size align commit)
        bot := noteHandOut s.bot size align (call.run s.heap.gen size align commit).1
        raw := call.buffers size align (call.run s.heap.gen size align commit).1 ++ s.raw } := by
  obtain ⟨hpost,heff,hstore⟩ := run_spec h.alloc call ha commit
  cases hr : call.run s.heap.gen size align commit with
  | mk found g =>
  rw [hr] at hpost heff hstore
  obtain ⟨hbase,hcap⟩ := hstore
  simp only at hbase hcap
  cases found with
  | none =>
    have hfree : g.freeBytes = s.heap.gen.freeBytes := heff
    have hbuf : call.buffers size align none = [] := by cases call <;> rfl
    simp only [Heap.afterAlloc,noteHandOut,hbuf,nil_append]
    refine ⟨hpost,?_,?_,?_⟩
    · simp only [hbase]; exact h.base
    · simp only [hfree,hcap]; exact h.table
    · simp only [hfree]; exact h.raw
  | some offset => ?_
  obtain ⟨reserved,hres,hok⟩ := hpost
  obtain ⟨reserved',hres',hsub,hfree⟩ := heff
  obtain rfl : reserved = reserved' := Option.some.inj (hres.symm.trans hres')
  have hnew := hok.live ⟨offset,size,reserved⟩ (by simp)
  have hin := hok.packed.inside ⟨offset,reserved⟩ (by simp [Live.span])
  have hpos : 0 < reserved := by
    have := hnew.header
    simp only [headerSize] at this
    omega
  have hb8 := h.base
  have h8 : offset%8 = 0 := by
    have := hnew.aligned
    simp only [hbase] at this
    omega
  simp only [Span.stop,hcap] at hin
  -- The new block is apart from the blocks that clients hold already.
  have hapart : ∀ x ∈ s.heap.live, Apart ⟨offset,reserved⟩ x.span := by
    have h1 := (pairwise_append.mp hok.packed.apart).2.1
    intro x hx
    exact (pairwise_cons.mp h1).1 x.span (mem_map_of_mem hx)
  simp only [Heap.afterAlloc,noteHandOut,hres,Option.getD_some]
  refine ⟨hok,?_,?_,?_⟩
  · simp only [hbase]; exact h.base
  · simp only [hcap]
    cases hon : s.bot.enabled with
    | false =>
      rw [noteAlloc_off hon]
      exact IndexOk.table_off h.table hon _ _ _
    | true => ?_
    have hsmall : offset/8 < 2^32 := by
      have := h.table.encodable hon
      omega
    obtain ⟨_,hon',hseen,hdis⟩ := noteAlloc_validCards hon reserved h8
    refine ⟨fun _ => ?_,fun _ => h.table.encodable hon,?_⟩
    · have := (h.table.anchored hon).noteAlloc hon hpos h8 hsmall
      rw [← hfree] at this
      exact this
    rw [hseen,hdis]
    exact h.table.disjoint
  intro x hx
  have hon_of : (s.bot.noteAlloc offset reserved).enabled = true → s.bot.enabled = true := by
    cases hon : s.bot.enabled with
    | false =>
      rw [noteAlloc_off hon,hon]
      exact id
    | true => exact fun _ => rfl
  have hsmall_of : s.bot.enabled = true → offset/8 < 2^32 := by
    intro hon
    have := h.table.encodable hon
    omega
  rcases mem_append.mp hx with hx | hx
  · have hxeq : x = ⟨offset,size,reserved⟩ := by
      cases call with
      | allocUnzeroedBuffer => simpa [AllocCall.buffers,hres] using hx
      | alloc => cases hx
      | allocUnzeroed => cases hx
      | allocFromTop => cases hx
    subst hxeq
    refine ⟨by simp,fun hon' => ?_⟩
    have hon := hon_of hon'
    have hcut := cut_of_noteAlloc hon (h.table.anchored hon) hpos h8 (hsmall_of hon) hsub
    rw [← hfree] at hcut
    exact hcut
  obtain ⟨hlive,hcut⟩ := h.raw x hx
  refine ⟨mem_cons_of_mem _ hlive,fun hon' => ?_⟩
  have hon := hon_of hon'
  have hxpos : 0 < x.span.size := by
    have := (h.alloc.live x hlive).header
    simp only [Live.span,headerSize] at this ⊢
    omega
  have := (hcut hon).noteAlloc hon (h.table.anchored hon) hpos h8 (hsmall_of hon) hxpos
    (hapart x hlive)
  rw [← hfree] at this
  exact this

variable (runs : List Span)

theorem foldl_noteFree_enabled (bot : BlockOffsetTable) :
    (runs.foldl (fun bot r => bot.noteFree r.offset) bot).enabled = bot.enabled ∧
      (runs.foldl (fun bot r => bot.noteFree r.offset) bot).freeSeqSeen = bot.freeSeqSeen ∧
      (runs.foldl (fun bot r => bot.noteFree r.offset) bot).freeDisjoint = bot.freeDisjoint := by
  induction runs generalizing bot with
  | nil => exact ⟨rfl,rfl,rfl⟩
  | cons r runs ih =>
    obtain ⟨h1,h2,h3⟩ := ih (bot.noteFree r.offset)
    obtain ⟨h4,h5,h6⟩ := noteFree_enabled bot r.offset
    exact ⟨h1.trans h4,h2.trans h5,h3.trans h6⟩

theorem foldl_noteFree_anchored {free : Finset Nat} {cells : List Span}
    {len : Nat} (hpos : ∀ r ∈ runs, 0 < r.size) (hon : bot.enabled = true)
    (h : Anchored bot free cells len) :
    Anchored (runs.foldl (fun bot r => bot.noteFree r.offset) bot) (covered runs ∪ free) cells
      len := by
  induction runs generalizing bot free with
  | nil =>
    rw [covered,empty_union]
    exact h
  | cons r runs ih => ?_
  have h1 := h.noteFree hon r.offset (hpos r (by simp))
  have h2 := ih (fun q hq => hpos q (mem_cons_of_mem _ hq))
    ((noteFree_enabled bot r.offset).1.trans hon) h1
  have heq : covered (r :: runs) ∪ free =
      covered runs ∪ (Finset.Ico r.offset (r.offset+r.size) ∪ free) := by
    rw [covered,union_comm (Finset.Ico r.offset r.stop),union_assoc]
    rfl
  rw [heq]
  exact h2

theorem foldl_noteFree_cut {free : Finset Nat} {e : Nat} (h : Cut bot free e) :
    Cut (runs.foldl (fun bot r => bot.noteFree r.offset) bot) free e := by
  induction runs generalizing bot with
  | nil => exact h
  | cons r runs ih => exact ih (h.noteFree r.offset (Finset.Subset.refl _))

variable {rest : List Live} {gen : OldGen}

/-- Freeing `runs`, whole blocks of clients, keeps the invariant of the table. -/
theorem IndexOk.freed {s : IndexedHeap} (h : IndexOk s)
    (hok : AllocOk gen rest) (hstore : SameStore s.heap.gen gen) (runs : List Span)
    (hpos : ∀ r ∈ runs, 0 < r.size) (hfree : gen.freeBytes = covered runs ∪ s.heap.gen.freeBytes)
    (hlive : ∀ l ∈ s.heap.live, l ∈ rest ∨ l.offset ∈ covered runs) :
    IndexOk
      { heap := ⟨gen,rest⟩
        bot := runs.foldl (fun bot r => bot.noteFree r.offset) s.bot
        raw := s.raw.filter (· ∈ rest) } := by
  obtain ⟨hen,hseen,hdis⟩ := foldl_noteFree_enabled runs s.bot
  refine ⟨hok,?_,⟨?_,?_,?_⟩,?_⟩
  · simp only [hstore.1]; exact h.base
  · intro hon
    have hon' := hen.symm.trans hon
    simp only [hstore.2,hfree]
    refine (foldl_noteFree_anchored runs hpos hon' (h.table.anchored hon')).with_cells ?_
    intro z hz hnot
    obtain ⟨l,hl,rfl⟩ := mem_map.mp hz
    rcases hlive l hl with hl' | hl'
    · exact ⟨l.span,mem_map_of_mem hl',rfl⟩
    · exact absurd (mem_union_left _ hl') hnot
  · intro hon
    simp only [hstore.2]
    exact h.table.encodable (hen.symm.trans hon)
  · simp only [hseen,hdis]
    exact h.table.disjoint
  intro x hx
  obtain ⟨hx,hmem⟩ := mem_filter.mp hx
  refine ⟨of_decide_eq_true hmem,fun hon => ?_⟩
  simp only [hfree]
  exact foldl_noteFree_cut runs (((h.raw x hx).2 (hen.symm.trans hon)).mono subset_union_right)

variable {x : Live}

theorem IndexOk.free_step {s : IndexedHeap} (h : IndexOk s)
    (hl : s.heap.live.Perm (x :: rest)) (hs : size = x.requested ∨ size = x.reserved) :
    IndexOk
      { heap := ⟨s.heap.gen.free (s.heap.gen.base+x.offset) size,rest⟩
        bot := s.bot.noteFree x.offset
        raw := s.raw.filter (· ∈ rest) } := by
  have hperm := Heap.allocOk_perm h.alloc hl
  have hx := hperm.live x (by simp)
  have hsize : freedSize size ≤ x.reserved := by
    rcases hs with rfl | rfl
    · exact hx.covers
    · exact Nat.le_of_eq (freedSize_self hx.granular hx.header)
  have hpos : 0 < freedSize size := by
    have := freedSize_ge size
    simp only [headerSize] at this
    omega
  refine h.freed (Heap.step_allocOk h.alloc (Heap.Step.free hl size hs)) (sameConfig_free _ _ _).store
    [⟨x.offset,freedSize size⟩] (by simpa using hpos) ?_ ?_
  · rw [free_eq hperm.toAllocCore hsize,giveBack_freeBytes h.alloc.buckets,covered,covered,
      union_empty]
    rfl
  intro l hmem
  rcases mem_cons.mp (hl.mem_iff.mp hmem) with rfl | hmem
  · exact .inr (mem_covered.mpr ⟨_,List.mem_singleton_self _,le_rfl,by
      unfold Span.stop; simp only; omega⟩)
  · exact .inl hmem

theorem within_joined {ys : List Live} (hc : DeadRun.Contiguous x ys) :
    ∀ l ∈ x :: ys, Within l.span (ys.foldl Live.join x).span := by
  induction ys generalizing x with
  | nil =>
    intro l hl
    rw [List.mem_singleton.mp hl]
    exact ⟨le_rfl,le_rfl⟩
  | cons y ys ih => ?_
  obtain ⟨h1,h2⟩ := hc
  have hrec := ih h2
  have hjoin := hrec (x.join y) (by simp)
  intro l hl
  simp only [List.mem_cons] at hl
  unfold Within Span.stop Live.span Live.join at *
  simp only [foldl_cons] at *
  rcases hl with rfl | rfl | hl
  · omega
  · omega
  · exact hrec l (by simp [hl])

theorem IndexOk.freeRuns_step {s : IndexedHeap} (h : IndexOk s) {runs : List DeadRun} (hl : s.heap.live.Perm (runs.flatMap DeadRun.objects ++ rest))
    (hc : ∀ r ∈ runs, DeadRun.Contiguous r.first r.others)
    (ha : Ascending (runs.map fun r => r.joined.span)) :
    IndexOk
      { heap := ⟨s.heap.gen.freeRunsAscending (runs.map (DeadRun.run s.heap.gen.base)),rest⟩
        bot := runs.foldl (fun bot r => bot.noteFree r.joined.offset) s.bot
        raw := s.raw.filter (· ∈ rest) } := by
  have hperm := Heap.allocOk_perm h.alloc hl
  have hblocks := freeRunsAscending_blocks hc hperm
  have hobj : ∀ r ∈ runs, ∀ l ∈ DeadRun.objects r, l ∈ s.heap.live := by
    intro r hr l hmem
    exact hl.mem_iff.mpr (mem_append_left _ (mem_flatMap.mpr ⟨r,hr,hmem⟩))
  have hpos : ∀ r ∈ runs.map fun r => r.joined.span, 0 < r.size := by
    intro q hq
    obtain ⟨r,hr,rfl⟩ := mem_map.mp hq
    have h1 := within_joined (hc r hr) r.first (by simp)
    have h2 := (h.alloc.live r.first (hobj r hr r.first (by simp [DeadRun.objects]))).header
    unfold Within Span.stop Live.span at h1
    simp only [headerSize,DeadRun.joined,Live.span] at *
    omega
  have hfold : runs.foldl (fun bot r => bot.noteFree r.joined.offset) s.bot =
      (runs.map fun r => r.joined.span).foldl (fun bot r => bot.noteFree r.offset) s.bot := by
    rw [foldl_map]
    rfl
  rw [hfold]
  refine h.freed (Heap.step_allocOk h.alloc (Heap.Step.freeRunsAscending hl hc ha))
    (sameConfig_freeRunsAscending _ _).store _ hpos ?_ ?_
  · unfold OldGen.freeBytes
    rw [covered_perm hblocks,covered_append,union_comm]
  intro l hmem
  rcases mem_append.mp (hl.mem_iff.mp hmem) with hm | hm
  · obtain ⟨r,hr,hlr⟩ := mem_flatMap.mp hm
    have h1 := within_joined (hc r hr) l hlr
    have h2 := (h.alloc.live l hmem).header
    refine .inr (mem_covered.mpr ⟨r.joined.span,mem_map_of_mem hr,h1.1,?_⟩)
    unfold Within Span.stop Live.span at h1
    unfold Span.stop
    simp only [headerSize,DeadRun.joined,Live.span] at *
    omega
  · exact .inl hm

theorem IndexOk.release_step {s : IndexedHeap} (h : IndexOk s)
    (hl : s.heap.live.Perm (x :: rest)) (hraw : x ∈ s.raw) (h8 : size%8 = 0)
    (h16 : headerSize ≤ size) (hr : x.reserved = size ∨ size+headerSize ≤ x.reserved) :
    IndexOk
      { heap := ⟨s.heap.gen.releaseUnusedTail (s.heap.gen.base+x.offset+(x.reserved-size)) size,
          Live.keepHead x size ++ rest⟩
        bot := s.bot
        raw := s.raw.filter (· ∈ rest) } := by
  have hperm := Heap.allocOk_perm h.alloc hl
  have hstop : x.offset+(x.reserved-size)+size = x.span.stop := by
    unfold Span.stop Live.span
    simp only
    omega
  have hfree : (s.heap.gen.releaseUnusedTail (s.heap.gen.base+x.offset+(x.reserved-size))
      size).freeBytes = Finset.Ico (x.offset+(x.reserved-size))
        (x.offset+(x.reserved-size)+size) ∪ s.heap.gen.freeBytes := by
    rw [releaseUnusedTail_eq hperm.toAllocCore h8 h16 hr]
    exact giveBack_freeBytes h.alloc.buckets _ _
  have hstore := (sameConfig_releaseUnusedTail s.heap.gen
    (s.heap.gen.base+x.offset+(x.reserved-size)) size).store
  refine ⟨Heap.step_allocOk h.alloc (Heap.Step.releaseUnusedTail hl size h8 h16 hr),?_,
    ⟨?_,?_,h.table.disjoint⟩,?_⟩
  · simp only [hstore.1]; exact h.base
  · intro hon
    simp only [hstore.2,hfree]
    have hcut := (h.raw x hraw).2 hon
    rw [← hstop] at hcut
    refine ((h.table.anchored hon).releaseTail hcut).with_cells ?_
    intro z hz hnot
    obtain ⟨l,hmem,rfl⟩ := mem_map.mp hz
    rcases mem_cons.mp (hl.mem_iff.mp hmem) with rfl | hmem
    · -- The head of the buffer keeps its start, unless nothing is left of it.
      have hne : l.reserved ≠ size := by
        rintro rfl
        refine hnot (mem_union_left _ (mem_Ico.mpr ⟨?_,?_⟩))
        · simp only [Live.span]; omega
        · simp only [Live.span,headerSize] at *; omega
      refine ⟨⟨l.offset,l.reserved-size⟩,?_,rfl⟩
      unfold Live.keepHead
      rw [if_neg hne]
      simp [Live.span]
    · exact ⟨l.span,mem_map_of_mem (mem_append_right _ hmem),rfl⟩
  · intro hon
    simp only [hstore.2]
    exact h.table.encodable hon
  intro y hy
  obtain ⟨hy,hmem⟩ := mem_filter.mp hy
  refine ⟨mem_append_right _ (of_decide_eq_true hmem),fun hon => ?_⟩
  simp only [hfree]
  exact ((h.raw y hy).2 hon).mono subset_union_right

theorem IndexOk.same_bytes {s : IndexedHeap} (h : IndexOk s)
    (hok : AllocOk gen s.heap.live) (hstore : SameStore s.heap.gen gen)
    (hfree : gen.freeBytes = s.heap.gen.freeBytes) :
    IndexOk { s with heap := ⟨gen,s.heap.live⟩ } := by
  refine ⟨hok,?_,?_,?_⟩
  · simp only [hstore.1]; exact h.base
  · simp only [hstore.2,hfree]; exact h.table
  · simp only [hfree]; exact h.raw

theorem IndexOk.fill_step {s : IndexedHeap} (h : IndexOk s)
    (hl : s.heap.live.Perm (x :: rest)) {n : Nat} (h8 : n%8 = 0) (h16 : headerSize ≤ n)
    (hr : n+headerSize ≤ x.reserved) :
    IndexOk
      { heap := ⟨s.heap.gen,⟨x.offset,n,n⟩ :: ⟨x.offset+n,x.reserved-n,x.reserved-n⟩ :: rest⟩
        bot := s.bot
        raw := (if x ∈ s.raw then [⟨x.offset+n,x.reserved-n,x.reserved-n⟩] else []) ++
          s.raw.filter (· ∈ rest) } := by
  refine ⟨Heap.step_allocOk h.alloc (Heap.Step.carve hl n h8 h16 hr),h.base,
    ⟨?_,h.table.encodable,h.table.disjoint⟩,?_⟩
  · intro hon
    refine (h.table.anchored hon).with_cells ?_
    intro z hz _
    obtain ⟨l,hmem,rfl⟩ := mem_map.mp hz
    rcases mem_cons.mp (hl.mem_iff.mp hmem) with rfl | hmem
    · exact ⟨⟨l.offset,n⟩,by simp [Live.span],rfl⟩
    · exact ⟨l.span,mem_map_of_mem (by simp [hmem]),rfl⟩
  intro y hy
  rcases mem_append.mp hy with hy | hy
  · split at hy
    · rename_i hx
      rw [List.mem_singleton.mp hy]
      refine ⟨by simp,fun hon => ?_⟩
      have hcut := (h.raw x hx).2 hon
      have hstop : (⟨x.offset+n,x.reserved-n,x.reserved-n⟩ : Live).span.stop = x.span.stop := by
        unfold Span.stop Live.span
        simp only
        omega
      rw [hstop]
      exact hcut
    · simp at hy
  obtain ⟨hy,hmem⟩ := mem_filter.mp hy
  have hmem' := of_decide_eq_true hmem
  exact ⟨by simp [hmem'],(h.raw y hy).2⟩

theorem IndexOk.compact_step {s : IndexedHeap} (h : IndexOk s) {live : List Live}
    (hok : AllocOk gen live) (hstore : SameStore s.heap.gen gen) :
    IndexOk { heap := ⟨gen,live⟩, bot := s.bot.noteRelayout, raw := [] } := by
  refine ⟨hok,?_,?_,by simp⟩
  · simp only [hstore.1]; exact h.base
  simp only [hstore.2]
  unfold noteRelayout
  cases hon : s.bot.enabled with
  | false => exact IndexOk.table_off h.table hon _ _ _
  | true => ?_
  refine ⟨fun _ => ⟨?_,?_⟩,fun _ => h.table.encodable hon,h.table.disjoint⟩
  · intro c hc
    simp only [Bool.not_true,false_eq_true,if_false] at hc
    omega
  intro c hc
  simp only [Bool.not_true,false_eq_true,if_false] at hc
  omega

theorem indexOk_fresh {base : Nat} (hbase : base%8 = 0) (capacity : Nat)
    (reserved exactStartClass noCoalesce requested : Bool) :
    IndexOk (fresh base capacity reserved exactStartClass noCoalesce requested) := by
  have hok := Heap.allocOk_fresh base capacity reserved exactStartClass noCoalesce
  refine ⟨hok,hbase,⟨?_,?_,?_⟩,by simp [fresh]⟩
  · intro _
    have hb : ∀ c < divCeil capacity botCard, c*botCard < capacity := by
      intro c hc
      have := not_congr (divCeil_le_iff (a := capacity) (c := c))
      omega
    refine ⟨hb,?_⟩
    intro c hc hfree
    -- Every byte of a new generation is free.
    have hcard := hok.packed.cover (by
      have := hok.account
      rw [map_nil,append_nil]
      exact (Nat.zero_add _).symm.trans this) (hb c hc)
    rw [map_nil,append_nil] at hcard
    exact absurd (mem_covered.mpr hcard) hfree
  · intro hon
    simp only [fresh,new,BlockOffsetTable.encodable,and_eq_true,decide_eq_true_eq] at hon
    exact hon.2
  intro hseen
  exact absurd rfl hseen

end IndexedHeap
end CratonVM.Gc
