import CratonVM.Gc.OldGen.Buckets

/-!
The invariant of the free list together with the blocks its clients hold, and what each
operation of the allocator does to it.
-/
namespace CratonVM.Gc
open Spans Spans.Span OldGen List

/-- A block in a client's hands: where it is, the size that was asked for and the extent that
was reserved for it. -/
structure Live where
  offset : Nat
  requested : Nat
  reserved : Nat
  deriving DecidableEq, Repr

def Live.span (l : Live) : Span := ⟨l.offset,l.reserved⟩

/-- What `free` relies on: an aligned start and an extent that covers the size it rounds to. -/
structure Live.Ok (base : Nat) (l : Live) : Prop where
  aligned : (base+l.offset)%8 = 0
  granular : l.reserved%8 = 0
  header : headerSize ≤ l.reserved
  covers : freedSize l.requested ≤ l.reserved

/-- The part of the invariant that does not mention the sorted view. -/
structure AllocCore (g : OldGen) (live : List Live) : Prop where
  buckets : BucketsOk g.buckets
  packed : Packed g.capacity (g.blocks ++ live.map Live.span)
  live : ∀ l ∈ live, l.Ok g.base
  account : g.usedBytes+total g.blocks = g.capacity
  maximal : g.freeListMaximal = true → g.blocks.Pairwise fun a b => ¬ Touching a b

/-- The sorted view, when it is present, lists the blocks by offset. -/
def CacheOk (g : OldGen) : Prop :=
  g.sortedFreeDirty = false → g.sortedFreeCache.Perm g.blocks ∧
    g.sortedFreeCache.Pairwise fun a b => a.offset ≤ b.offset

structure AllocOk (g : OldGen) (live : List Live) : Prop extends AllocCore g live where
  cache : CacheOk g

theorem freedSize_ge (size : Nat) : headerSize ≤ freedSize size := by
  simp only [freedSize,alignDown,headerSize]
  omega

theorem freedSize_le {size n : Nat} (h8 : n%8 = 0) (h16 : headerSize ≤ n) (h : size ≤ n) :
    freedSize size ≤ n := by
  simp only [freedSize,alignDown,headerSize] at *
  omega

theorem freedSize_self {n : Nat} (h8 : n%8 = 0) (h16 : headerSize ≤ n) : freedSize n = n := by
  simp only [freedSize,alignDown,headerSize] at *
  omega

namespace AllocCore
variable {g : OldGen} {live : List Live}

theorem live_perm (h : AllocCore g live) {live' : List Live} (hp : live.Perm live') :
    AllocCore g live' := by
  refine ⟨h.buckets,h.packed.perm ((hp.map _).append_left _),?_,h.account,h.maximal⟩
  intro l hl
  exact h.live l (hp.mem_iff.mpr hl)

theorem total_live_le (h : AllocCore g live) : total (live.map Live.span) ≤ g.usedBytes := by
  have h1 := h.packed.total_le
  have h2 := h.account
  rw [total_append] at h1
  omega

theorem regroup {x : Live} (h : AllocCore g (x :: live)) {parts : List Live}
    (hok : ∀ p ∈ parts, p.Ok g.base) (hw : ∀ p ∈ parts, Within p.span x.span)
    (ha : (parts.map Live.span).Pairwise Apart) : AllocCore g (parts ++ live) := by
  refine ⟨h.buckets,?_,?_,h.account,h.maximal⟩
  · have h1 : Packed g.capacity (x.span :: (g.blocks ++ live.map Live.span)) :=
      h.packed.perm perm_middle
    have hpos : ∀ p ∈ parts.map Live.span, 0 < p.size := by
      intro p hp
      obtain ⟨l,hl,rfl⟩ := mem_map.mp hp
      have := (hok l hl).header
      simp only [Live.span,headerSize] at this ⊢
      omega
    refine (h1.replace (by simpa using hw) ha hpos).perm ?_
    rw [map_append]
    exact perm_append_comm_assoc _ _ _
  intro l hl
  rcases mem_append.mp hl with hl | hl
  · exact hok l hl
  · exact h.live l (mem_cons_of_mem _ hl)

theorem join {x y : Live} (h : AllocCore g (x :: y :: live)) (hxy : x.span.stop = y.offset) :
    AllocCore g (⟨x.offset,x.reserved+y.reserved,x.reserved+y.reserved⟩ :: live) := by
  refine ⟨h.buckets,?_,?_,h.account,h.maximal⟩
  · have h1 : Packed g.capacity (x.span :: y.span :: (g.blocks ++ live.map Live.span)) :=
      h.packed.perm (perm_middle.trans (perm_middle.cons _))
    exact (h1.join hxy).perm perm_middle.symm
  intro l hl
  have hx := h.live x (by simp)
  have hy := h.live y (by simp)
  rcases mem_cons.mp hl with rfl | hl
  · have h1 := hx.granular
    have h2 := hy.granular
    have h3 := hx.header
    have h4 : (x.reserved+y.reserved)%8 = 0 := by omega
    have h5 : headerSize ≤ x.reserved+y.reserved := by omega
    exact ⟨hx.aligned,h4,h5,freedSize_le h4 h5 le_rfl⟩
  · exact h.live l (by simp [hl])

end AllocCore

/-- What is left of a block after a carve. -/
def leftovers (b : FreeBlock) (offset size : Nat) : List FreeBlock :=
  (if b.offset < offset then [⟨b.offset,offset-b.offset⟩] else []) ++
    (if offset+size < b.stop then [⟨offset+size,b.stop-(offset+size)⟩] else [])

section
variable {b : FreeBlock} {offset size : Nat}

theorem leftovers_within (hw : Within ⟨offset,size⟩ b) :
    ∀ p ∈ leftovers b offset size, Within p b ∧ 0 < p.size ∧ Apart p ⟨offset,size⟩ := by
  intro p hp
  unfold leftovers at hp
  unfold Within Apart Span.stop at *
  rcases mem_append.mp hp with hp | hp
  · split at hp
    · obtain rfl := mem_singleton.mp hp
      simp only at *; omega
    · simp at hp
  split at hp
  · obtain rfl := mem_singleton.mp hp
    simp only at *; omega
  · simp at hp

theorem leftovers_pairwise (hsize : 0 < size) :
    (leftovers b offset size).Pairwise fun x y => Apart x y ∧ ¬ Touching x y := by
  unfold leftovers
  split
  · split
    · refine pairwise_cons.mpr ⟨?_,pairwise_singleton _ _⟩
      intro y hy
      obtain rfl := mem_singleton.mp hy
      unfold Apart Touching Span.stop at *
      simp only at *
      omega
    · exact pairwise_singleton _ _
  split
  · exact pairwise_singleton _ _
  · exact .nil

theorem total_leftovers (hw : Within ⟨offset,size⟩ b) :
    total (leftovers b offset size)+size = b.size := by
  unfold Within Span.stop at hw
  unfold leftovers Span.stop
  simp only at hw
  split
  · split
    · rw [total_append,total_cons,total_cons]; simp only [total_nil]; omega
    · rw [total_append,total_cons]; simp only [total_nil]; omega
  split
  · rw [total_append,total_cons]; simp only [total_nil]; omega
  · simp only [append_nil,total_nil]; omega

end

theorem handOut_frame (g : OldGen) (idx i offset size : Nat) :
    g.handOut idx i offset size =
      { g with
        buckets := (g.handOut idx i offset size).buckets
        sortedFreeDirty := true
        usedBytes := g.usedBytes+size } := by
  unfold handOut invalidateSortedFree
  simp only
  split
  · split
    · rfl
    · rfl
  split
  · rfl
  · rfl

theorem handOut_blocks {g : OldGen} (h : BucketsOk g.buckets) {idx i : Nat}
    (offset size : Nat) (hidx : idx < numBuckets) {b : FreeBlock} (hb : (bucketAt g.buckets idx).blocks[i]? = some b) :
    BucketsOk (g.handOut idx i offset size).buckets ∧ ∃ rest,
      g.blocks.Perm (b :: rest) ∧
      (g.handOut idx i offset size).blocks.Perm (leftovers b offset size ++ rest) := by
  have hlen : idx < g.buckets.length := by rw [h.length]; exact hidx
  obtain ⟨hi,hat⟩ := List.getElem?_eq_some_iff.mp hb
  -- The block leaves its bucket.
  have hok : BucketsOk (g.buckets.modify idx fun b => b.swapRemove i) := by
    apply h.modify hidx
    intro c hc
    have hmem := mem_swapRemove hc
    exact ⟨h.homed idx c hmem,h.bounded idx c hmem⟩
  obtain ⟨others,h1,h2⟩ := flatMap_modify hlen fun b => b.swapRemove i
  have hperm := perm_swapRemove hi
  rw [hat] at hperm
  generalize hrest : Gc.swapRemove (bucketAt g.buckets idx).blocks i ++ others = rest
  have hold : g.blocks.Perm (b :: rest) := by
    rw [← hrest]
    exact h1.trans (hperm.append_right others)
  have hnew : ((g.buckets.modify idx fun b => b.swapRemove i).flatMap Bucket.blocks).Perm rest := by
    rw [← hrest]
    exact h2
  have hget : (bucketAt g.buckets idx).blocks.getD i ⟨0,0⟩ = b := by
    simp [getD,hb]
  -- The leftovers come back one after the other.
  have hpush : g.handOut idx i offset size =
      { (leftovers b offset size).foldl pushBlock
          { g with buckets := g.buckets.modify idx fun b => b.swapRemove i } with
        sortedFreeDirty := true, usedBytes := g.usedBytes+size } := by
    unfold handOut leftovers invalidateSortedFree
    simp only [hget]
    split
    · split
      · rfl
      · rfl
    split
    · rfl
    · rfl
  have hfold := foldl_pushBlock
    (g := { g with buckets := g.buckets.modify idx fun b => b.swapRemove i }) hok
    (leftovers b offset size)
  rw [hpush]
  exact ⟨hfold.1,rest,hold,hfold.2.trans (hnew.append_left _)⟩

theorem AllocCore.handOut {g : OldGen} {live : List Live} (h : AllocCore g live)
    {idx i requested : Nat} (hidx : idx < numBuckets) {b : FreeBlock}
    (hb : (bucketAt g.buckets idx).blocks[i]? = some b) {offset size : Nat}
    (hw : Within ⟨offset,size⟩ b) (hok : (⟨offset,requested,size⟩ : Live).Ok g.base) :
    AllocCore (g.handOut idx i offset size) (⟨offset,requested,size⟩ :: live) := by
  have hsize : 0 < size := by
    have := hok.header
    simp only [headerSize] at this
    omega
  obtain ⟨hbuckets,rest,hold,hnew⟩ := handOut_blocks h.buckets offset size hidx hb
  have hcap : (g.handOut idx i offset size).capacity = g.capacity := by rw [handOut_frame]
  have hbase : (g.handOut idx i offset size).base = g.base := by rw [handOut_frame]
  have hused : (g.handOut idx i offset size).usedBytes = g.usedBytes+size := by rw [handOut_frame]
  have hmax : (g.handOut idx i offset size).freeListMaximal = g.freeListMaximal := by
    rw [handOut_frame]
  refine ⟨hbuckets,?_,?_,?_,?_⟩
  · have h1 : Packed g.capacity (b :: (rest ++ live.map Live.span)) :=
      h.packed.perm (hold.append_right _)
    have h2 : Packed g.capacity
        ((leftovers b offset size ++ [⟨offset,size⟩]) ++ (rest ++ live.map Live.span)) := by
      refine h1.replace ?_ ?_ ?_
      · intro p hp
        rcases mem_append.mp hp with hp | hp
        · exact (leftovers_within hw p hp).1
        · rw [mem_singleton.mp hp]; exact hw
      · refine pairwise_append.mpr
          ⟨(leftovers_pairwise hsize).imp fun h => h.1,pairwise_singleton _ _,?_⟩
        intro p hp q hq
        rw [mem_singleton.mp hq]
        exact (leftovers_within hw p hp).2.2
      intro p hp
      rcases mem_append.mp hp with hp | hp
      · exact (leftovers_within hw p hp).2.1
      · rw [mem_singleton.mp hp]; exact hsize
    rw [hcap]
    refine h2.perm ?_
    rw [map_cons,append_assoc,singleton_append]
    refine List.Perm.trans ?_ (hnew.symm.append_right _)
    rw [append_assoc]
    exact (perm_middle.symm).append_left _
  · intro l hl
    rw [hbase]
    rcases mem_cons.mp hl with rfl | hl
    · exact hok
    · exact h.live l hl
  · have h1 := h.account
    have h2 := total_leftovers hw
    rw [total_perm hold,total_cons] at h1
    rw [hused,hcap,total_perm hnew,total_append]
    omega
  · intro hm
    rw [hmax] at hm
    have hapart := (pairwise_append.mp h.packed.apart).1
    have hboth : (b :: rest).Pairwise fun x y => Apart x y ∧ ¬ Touching x y := by
      refine (hold.pairwise_iff ?_).mp (hapart.and (h.maximal hm))
      intro x y hxy
      exact ⟨hxy.1.symm,fun ht => hxy.2 ht.symm⟩
    have hpair : (leftovers b offset size ++ rest).Pairwise
        fun x y => Apart x y ∧ ¬ Touching x y := by
      refine pairwise_replace hboth (leftovers_pairwise hsize) ?_
      intro p hp c _ hc
      obtain ⟨h1,h2,_⟩ := leftovers_within hw p hp
      exact ⟨hc.1.of_within h1,not_touching_of_within h1 h2 hc.1 hc.2⟩
    refine (hnew.symm.pairwise_iff ?_).mp (hpair.imp fun h => h.2)
    intro x y hxy ht
    exact hxy ht.symm

/-- The alignments that clients ask for: powers of two from eight on. -/
def AlignOk (align : Nat) : Prop := 8 ≤ align ∧ 2^align.log2 = align

instance (align : Nat) : Decidable (AlignOk align) := inferInstanceAs (Decidable (_ ∧ _))

theorem AlignOk.eight_dvd {align : Nat} (h : AlignOk align) : 8 ∣ align := by
  obtain ⟨h8,hpow⟩ := h
  have hlog : 3 ≤ align.log2 := (Nat.le_log2 (by omega)).mpr h8
  have hdvd := Nat.pow_dvd_pow 2 hlog
  rwa [hpow] at hdvd

section
variable {align : Nat}

theorem alignDown_mod (h : AlignOk align) (v : Nat) : alignDown v align%8 = 0 :=
  Nat.mod_eq_zero_of_dvd (Nat.dvd_trans h.eight_dvd ⟨v/align,Nat.mul_comm _ _⟩)

theorem alignDown_le (v : Nat) : alignDown v align ≤ v := Nat.div_mul_le_self v align

theorem le_alignDown_up (h : AlignOk align) (v : Nat) : v ≤ alignDown (v+(align-1)) align := by
  have h1 := Nat.div_add_mod (v+(align-1)) align
  have h2 := Nat.mod_lt (v+(align-1)) (show 0 < align by have := h.1; omega)
  have h3 := h.1
  rw [Nat.mul_comm] at h1
  unfold alignDown
  omega

theorem reservedSize_ok (h : AlignOk align) {size reserved : Nat}
    (hr : reservedSize size align = some reserved) :
    reserved%8 = 0 ∧ headerSize ≤ reserved ∧ freedSize size ≤ reserved := by
  simp only [reservedSize] at hr
  split at hr
  · obtain rfl := Option.some.inj hr
    have h1 := alignDown_mod h (max size (max headerSize 8)+(align-1))
    have h2 := le_alignDown_up h (max size (max headerSize 8))
    have h3 : headerSize ≤ max size (max headerSize 8) := by omega
    exact ⟨h1,by omega,freedSize_le h1 (by omega) (by omega)⟩
  · cases hr

theorem padding_address (h : AlignOk align) (base : Nat) (b : FreeBlock) :
    base+(b.offset+padding base align b) = alignDown (base+b.offset+(align-1)) align := by
  have := le_alignDown_up h (base+b.offset)
  unfold padding
  omega

end

/-- What an allocation leaves behind: the invariant, with the new block when there is one. -/
def AllocPost (live : List Live) (size align : Nat) (r : Option Nat × OldGen) : Prop :=
  match r.1 with
  | none => AllocOk r.2 live
  | some offset => ∃ reserved, reservedSize size align = some reserved ∧
    AllocOk r.2 (⟨offset,size,reserved⟩ :: live)

theorem AllocCore.of_handOut {g : OldGen} {live : List Live} {idx i offset size : Nat}
    (h : AllocCore (g.handOut idx i offset size) live) :
    AllocOk (g.handOut idx i offset size) live := by
  refine ⟨h,?_⟩
  intro hclean
  rw [handOut_frame] at hclean
  cases hclean

/-- Tightening bounds keeps the invariant. -/
theorem AllocOk.same_blocks {g : OldGen} {live : List Live} (h : AllocOk g live)
    {buckets : List Bucket} (hok : BucketsOk buckets) (hsame : SameBlocks buckets g.buckets) :
    AllocOk { g with buckets := buckets } live := by
  have hblocks : ({ g with buckets := buckets } : OldGen).blocks = g.blocks := hsame.flatMap
  refine ⟨⟨hok,?_,h.live,?_,?_⟩,?_⟩
  · rw [hblocks]; exact h.packed
  · rw [hblocks]; exact h.account
  · rw [hblocks]; exact h.maximal
  intro hclean
  rw [hblocks]
  exact h.cache hclean

/-- Everything one search for a block can do: tighten some bounds and refuse, or also hand out an
aligned part of a block that is there. -/
inductive AllocCase (g : OldGen) (size align : Nat) : Option Nat × OldGen → Prop
  | refused {buckets : List Bucket} (hok : BucketsOk buckets)
      (hsame : SameBlocks buckets g.buckets) :
      AllocCase g size align (none,{ g with buckets := buckets })
  | handed {buckets : List Bucket} (hok : BucketsOk buckets) (hsame : SameBlocks buckets g.buckets)
      {idx i : Nat} (hidx : idx < numBuckets) {b : FreeBlock}
      (hb : (bucketAt buckets idx).blocks[i]? = some b) {offset reserved : Nat}
      (hr : reservedSize size align = some reserved) (hw : Within ⟨offset,reserved⟩ b)
      (hal : (g.base+offset)%8 = 0) :
      AllocCase g size align
        (some offset,({ g with buckets := buckets } : OldGen).handOut idx i offset reserved)

namespace OldGen
variable {g : OldGen} {live : List Live}

theorem allocFromBuckets_cases (h : BucketsOk g.buckets) {size align : Nat} (ha : AlignOk align)
    (commit : Nat → Nat → Bool) :
    AllocCase g size align (g.allocFromBuckets size align commit) := by
  unfold allocFromBuckets
  cases hr : reservedSize size align with
  | none => exact .refused h ⟨rfl,fun _ => rfl⟩
  | some reserved => ?_
  have hstart : allocStartBucket reserved align g.exactStartClass < numBuckets := by
    unfold allocStartBucket minSatisfyingBucket
    split
    · exact bucketFor_lt _
    · exact bucketFor_lt _
  simp only
  cases hs : searchBuckets g.base reserved align
      (numBuckets-allocStartBucket reserved align g.exactStartClass)
      (allocStartBucket reserved align g.exactStartClass) none false g.buckets with
  | mk found buckets =>
  have hsearch : SearchOk g.base reserved align g.buckets (found,buckets) := by
    rw [← hs]
    exact searchBuckets_spec _ _ _ _ _ h (by omega) (by intro k resume largest hx; cases hx)
  cases found with
  | none => exact .refused hsearch.ok hsearch.same
  | some at' => ?_
  obtain ⟨idx,i⟩ := at'
  obtain ⟨hidx,b,hb,hfit⟩ := hsearch.fits idx i rfl
  rw [← hsearch.same.2 idx] at hb
  have hget : (bucketAt buckets idx).blocks.getD i ⟨0,0⟩ = b := by simp [getD,hb]
  simp only [hget]
  split
  · refine .handed hsearch.ok hsearch.same hidx hb hr ?_ ?_
    · unfold Within Span.stop
      simp only
      omega
    rw [padding_address ha]
    exact alignDown_mod ha _
  · exact .refused hsearch.ok hsearch.same

theorem topCarve_within {base size align off : Nat} {b : FreeBlock} (ha : AlignOk align)
    (h : topCarve base size align b = some off) :
    Within ⟨off,size⟩ b ∧ (base+off)%8 = 0 := by
  unfold topCarve at h
  split at h
  · cases h
  simp only at h
  split at h
  · cases h
  have h1 : alignDown (base+b.offset+b.size-size) align ≤ base+b.offset+b.size-size :=
    alignDown_le _
  have h2 := alignDown_mod ha (base+b.offset+b.size-size)
  have h3 := Option.some.inj h
  unfold Within Span.stop
  simp only
  omega

theorem allocFromTopScan_cases (h : BucketsOk g.buckets) {size align : Nat} (ha : AlignOk align)
    (commit : Nat → Nat → Bool) :
    AllocCase g size align (g.allocFromTopScan size align commit) := by
  have hkeep : AllocCase g size align (none,g) := .refused h ⟨rfl,fun _ => rfl⟩
  unfold allocFromTopScan
  cases hr : reservedSize size align with
  | none => exact hkeep
  | some reserved => ?_
  have hstart := bucketFor_lt reserved
  simp only [minSatisfyingBucket]
  cases hs : topSearch g.base reserved align g.buckets (numBuckets-bucketFor reserved)
      (bucketFor reserved) none with
  | none => exact hkeep
  | some best =>
    obtain ⟨idx,i,off⟩ := best
    have htop : TopOk g.base reserved align g.buckets (some (idx,i,off)) := by
      rw [← hs]
      exact topSearch_spec _ _ (by omega) _ (by intro idx i off hx; cases hx)
    obtain ⟨hidx,b,hb,hcarve⟩ := htop idx i off rfl
    obtain ⟨hw,hmod⟩ := topCarve_within ha hcarve
    simp only
    split
    · exact .handed h ⟨rfl,fun _ => rfl⟩ hidx hb hr hw hmod
    · exact hkeep

end OldGen

/-- A search keeps the invariant, with the new block when there is one. -/
theorem AllocCase.post {g : OldGen} {live : List Live} (h : AllocOk g live) {size align : Nat}
    (ha : AlignOk align) {r : Option Nat × OldGen} (hc : AllocCase g size align r) :
    AllocPost live size align r := by
  cases hc with
  | refused hok hsame => exact h.same_blocks hok hsame
  | handed hok hsame hidx hb hr hw hal =>
    obtain ⟨h8,h16,hcov⟩ := reservedSize_ok ha hr
    have hg := h.same_blocks hok hsame
    exact ⟨_,hr,(hg.toAllocCore.handOut hidx hb hw ⟨hal,h8,h16,hcov⟩).of_handOut⟩

end CratonVM.Gc
