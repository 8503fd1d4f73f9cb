import CratonVM.Gc.OldGen.CardWalk

/-!
What each operation of the allocator does to the set of free bytes, and how the hooks of the
block-offset table follow it.
-/
namespace CratonVM.Gc
open Spans Spans.Span OldGen BlockOffsetTable List Option Finset

def OldGen.freeBytes (g : OldGen) : Finset Nat := covered g.blocks

/-- The effect of an allocation on the free bytes: the extent it hands out leaves them. -/
def FreeEffect (g : OldGen) (size align : Nat) (r : Option Nat × OldGen) : Prop :=
  match r.1 with
  | none => r.2.freeBytes = g.freeBytes
  | some offset => ∃ reserved, reservedSize size align = some reserved ∧
      Finset.Ico offset (offset+reserved) ⊆ g.freeBytes ∧
      r.2.freeBytes = g.freeBytes \ Finset.Ico offset (offset+reserved)

theorem covered_leftovers {b : FreeBlock} {offset size : Nat} (hw : Within ⟨offset,size⟩ b) :
    covered (leftovers b offset size) =
      Finset.Ico b.offset b.stop \ Finset.Ico offset (offset+size) := by
  ext x
  have hstop : b.stop = b.offset+b.size := rfl
  unfold Within Span.stop at hw
  simp only at hw
  unfold leftovers
  simp only [mem_covered,mem_append,mem_sdiff,mem_Ico]
  constructor
  · rintro ⟨s,hs | hs,hx1,hx2⟩
    · split at hs
      · rw [List.mem_singleton.mp hs] at hx1 hx2
        simp only [Span.stop] at hx1 hx2
        omega
      · simp at hs
    split at hs
    · rw [List.mem_singleton.mp hs] at hx1 hx2
      simp only [Span.stop] at hx1 hx2
      omega
    · simp at hs
  intro hx
  by_cases hlt : x < offset
  · refine ⟨⟨b.offset,offset-b.offset⟩,.inl ?_,?_⟩
    · rw [if_pos (by omega)]
      simp
    simp only [Span.stop]
    omega
  refine ⟨⟨offset+size,b.stop-(offset+size)⟩,.inr ?_,?_⟩
  · rw [if_pos (by omega)]
    simp
  simp only [Span.stop] at hstop hx ⊢
  omega

theorem covered_append (l m : List Span) : covered (l ++ m) = covered l ∪ covered m := by
  induction l with
  | nil => simp [covered]
  | cons s l ih => rw [cons_append,covered,ih,covered,union_assoc]

theorem AllocCase.freeEffect {g : OldGen} {live : List Live} (h : AllocOk g live)
    {size align : Nat} {r : Option Nat × OldGen} (hc : AllocCase g size align r) :
    FreeEffect g size align r := by
  cases hc with
  | refused hok hsame =>
    exact congrArg covered hsame.flatMap
  | handed hok hsame hidx hb hr hw hal => ?_
  rename_i buckets idx i b offset reserved
  obtain ⟨_,rest,hold,hnew⟩ := handOut_blocks (g := { g with buckets := buckets }) hok offset
    reserved hidx hb
  have hblocks : ({ g with buckets := buckets } : OldGen).blocks = g.blocks := hsame.flatMap
  rw [hblocks] at hold
  have hbefore : g.freeBytes = Finset.Ico b.offset b.stop ∪ covered rest := covered_perm hold
  have hin : Finset.Ico offset (offset+reserved) ⊆ Finset.Ico b.offset b.stop := by
    intro x hx
    unfold Within Span.stop at hw
    simp only [mem_Ico,Span.stop] at *
    omega
  -- The other blocks do not meet the extent.
  have hout : covered rest \ Finset.Ico offset (offset+reserved) = covered rest := by
    have hap := (pairwise_append.mp h.packed.apart).1
    have hap' := pairwise_cons.mp ((hold.pairwise_iff fun h => h.symm).mp hap)
    rw [Finset.sdiff_eq_self_iff_disjoint,Finset.disjoint_left]
    intro x hx hy
    obtain ⟨c,hc,h1,h2⟩ := mem_covered.mp hx
    have hbx := mem_Ico.mp (hin hy)
    have := hap'.1 c hc
    unfold Apart Span.stop at *
    omega
  refine ⟨reserved,hr,?_,?_⟩
  · rw [hbefore]
    exact hin.trans subset_union_left
  rw [hbefore,union_sdiff_distrib,hout,← covered_leftovers hw,← covered_append]
  exact covered_perm hnew

namespace OldGen
variable {g : OldGen} {live : List Live}

theorem coalesceFreeBlocks_freeBytes (h : BucketsOk g.buckets) :
    g.coalesceFreeBlocks.2.freeBytes = g.freeBytes := by
  unfold coalesceFreeBlocks
  split
  · rfl
  split
  · rfl
  simp only
  split
  · rfl
  split
  · rfl
  have hempty := bucketsOk_emptied h
  obtain ⟨_,hblocks⟩ := foldl_pushBlock
    (g := { g with freeListMaximal := true, buckets := g.buckets.map fun _ => {} }) hempty.1
    (mergeTouching g.sortedBlocks)
  have hnil : ({ g with
      freeListMaximal := true
      buckets := g.buckets.map fun _ => {} } : OldGen).blocks = [] := hempty.2
  rw [hnil,append_nil] at hblocks
  have heq : covered ((mergeTouching g.sortedBlocks).foldl pushBlock
      { g with freeListMaximal := true, buckets := g.buckets.map fun _ => {} }).blocks =
      g.freeBytes := by
    rw [covered_perm hblocks,covered_mergeTouching,covered_perm (perm_sortedBlocks g)]
    rfl
  split
  · exact heq
  · exact heq

theorem allocImpl_freeEffect (h : AllocOk g live) {size align : Nat} (ha : AlignOk align)
    (commit : Commit) : FreeEffect g size align (g.allocImpl size align commit) := by
  have hc : AllocCase g size align _ := allocFromBuckets_cases h.buckets ha (commit 0)
  have h1 := hc.post h ha
  have h2 := hc.freeEffect h
  unfold allocImpl
  cases hr : g.allocFromBuckets size align (commit 0) with
  | mk found g1 => ?_
  rw [hr] at h1 h2
  cases found with
  | some offset => exact h2
  | none => ?_
  have h1' : AllocOk g1 live := h1
  have h2' : g1.freeBytes = g.freeBytes := h2
  have h3 := coalesceFreeBlocks_freeBytes h1'.buckets
  have h4 : AllocOk g1.coalesceFreeBlocks.2 live := coalesceFreeBlocks_spec h1'
  simp only
  split
  · have hc' : AllocCase g1.coalesceFreeBlocks.2 size align _ :=
      allocFromBuckets_cases h4.buckets ha (commit 1)
    have h5 := hc'.freeEffect h4
    unfold FreeEffect at h5 ⊢
    rw [h3,h2'] at h5
    exact h5
  · exact h3.trans h2'

theorem allocFromTop_freeEffect (h : AllocOk g live) {size align : Nat} (ha : AlignOk align)
    (commit : Commit) : FreeEffect g size align (g.allocFromTop size align commit) := by
  unfold allocFromTop
  split
  · have hc : AllocCase g size align _ := allocFromTopScan_cases h.buckets ha (commit 2)
    have h1 := hc.post h ha
    have h2 := hc.freeEffect h
    cases hr : g.allocFromTopScan size align (commit 2) with
    | mk found g1 => ?_
    rw [hr] at h1 h2
    cases found with
    | some offset => exact h2
    | none => ?_
    have h2' : g1.freeBytes = g.freeBytes := h2
    have h3 : FreeEffect g1 size align _ := allocImpl_freeEffect h1 ha commit
    unfold FreeEffect at h3 ⊢
    rw [h2'] at h3
    exact h3
  · exact allocImpl_freeEffect h ha commit

theorem giveBack_freeBytes (h : BucketsOk g.buckets) (offset size : Nat) :
    (g.giveBack offset size).freeBytes = Finset.Ico offset (offset+size) ∪ g.freeBytes :=
  covered_perm (pushBlock_buckets h ⟨offset,size⟩).2

end OldGen

section
variable {bot : BlockOffsetTable} {free : Finset Nat} {cells : List Span} {len : Nat}

def Cut (bot : BlockOffsetTable) (free : Finset Nat) (e : Nat) : Prop :=
  ∀ c < bot.validCards, c*botCard ∉ free → e ≤ c*botCard → ∀ a, bot.anchor c = some a → e ≤ a

theorem divCeil_le_iff {a c : Nat} : divCeil a botCard ≤ c ↔ a ≤ c*botCard := by
  unfold divCeil botCard
  omega

theorem Anchored.with_cells (h : Anchored bot free cells len) {cells' : List Span}
    (hc : ∀ z ∈ cells, z.offset ∉ free → ∃ z' ∈ cells', z'.offset = z.offset) :
    Anchored bot free cells' len := by
  refine ⟨h.bounded,?_⟩
  intro c hlt hfree
  obtain ⟨a,ha⟩ := h.cards c hlt hfree
  obtain ⟨z,hz,rfl⟩ := ha.start
  exact ⟨z.offset,ha.anchor,ha.below,hc z hz (ha.allocated _ le_rfl ha.below),ha.allocated⟩

theorem noteFree_entries (bot : BlockOffsetTable) (offset : Nat) :
    (bot.noteFree offset).entries = bot.entries ∧
      (bot.noteFree offset).validCards ≤ bot.validCards ∧
      (bot.enabled = true → (bot.noteFree offset).validCards ≤ offset/botCard+1) := by
  unfold noteFree
  split
  · rename_i hoff
    exact ⟨rfl,le_rfl,fun hon => by simp [hon] at hoff⟩
  simp only
  split
  · exact ⟨rfl,by simp only; omega,fun _ => le_rfl⟩
  · exact ⟨rfl,le_rfl,fun _ => by omega⟩

variable {size : Nat}

theorem Anchored.noteFree (h : Anchored bot free cells len) (hon : bot.enabled = true)
    (offset : Nat) (hsize : 0 < size) :
    Anchored (bot.noteFree offset) (Finset.Ico offset (offset+size) ∪ free) cells len := by
  obtain ⟨hentries,hle,hkeep⟩ := noteFree_entries bot offset
  have hkeep := hkeep hon
  refine ⟨fun c hc => h.bounded c (by omega),?_⟩
  intro c hc hfree
  have hcs : c*botCard ≤ offset := by
    have h1 : c*botCard ≤ offset/botCard*botCard := Nat.mul_le_mul_right _ (by omega)
    have h2 := Nat.div_mul_le_self offset botCard
    omega
  rw [mem_union,not_or,mem_Ico] at hfree
  obtain ⟨a,ha⟩ := h.cards c (by omega) hfree.2
  refine ⟨a,?_,ha.below,ha.start,?_⟩
  · unfold anchor
    rw [hentries]
    exact ha.anchor
  intro x h1 h2 hx
  rcases mem_union.mp hx with hx | hx
  · have := mem_Ico.mp hx
    omega
  · exact ha.allocated x h1 h2 hx

theorem Cut.noteFree {e : Nat} (h : Cut bot free e) (offset : Nat) {free' : Finset Nat}
    (hsub : free ⊆ free') : Cut (bot.noteFree offset) free' e := by
  obtain ⟨hentries,hle,_⟩ := noteFree_entries bot offset
  intro c hc hfree hec a ha
  unfold anchor at ha
  rw [hentries] at ha
  exact h c (by omega) (fun hx => hfree (hsub hx)) hec a ha

variable {offset : Nat}

theorem anchor_noteAlloc (hon : bot.enabled = true) (hsize : 0 < size)
    (h8 : offset%8 = 0) (hsmall : offset/8 < 2^32) (c : Nat) :
    (offset ≤ c*botCard → c*botCard < offset+size →
      (bot.noteAlloc offset size).anchor c = some offset) ∧
    (¬ (offset ≤ c*botCard ∧ c*botCard < offset+size) → ∀ a, bot.anchor c = some a →
      (bot.noteAlloc offset size).anchor c = some a) := by
  have hfirst : divCeil offset botCard ≤ c ↔ offset ≤ c*botCard := divCeil_le_iff
  have hlast : divCeil (offset+size) botCard ≤ c ↔ offset+size ≤ c*botCard := divCeil_le_iff
  unfold noteAlloc
  rw [if_neg (by simp [hon]; omega),if_neg (by omega)]
  simp only
  split
  · refine ⟨?_,fun _ a ha => ha⟩
    omega
  constructor
  · intro h1 h2
    have hlen := length_grow bot.entries (divCeil (offset+size) botCard)
    have hget : c < (BlockOffsetTable.grow bot.entries (divCeil (offset+size) botCard)).length := by
      omega
    unfold anchor
    rw [getElem?_mapIdx,getElem?_eq_getElem hget,map_some,map_some,
      if_pos ⟨by omega,by omega⟩,decode_encode h8 hsmall]
  intro hout a ha
  obtain ⟨e,he,hea⟩ := map_eq_some_iff.mp ha
  unfold anchor
  rw [getElem?_mapIdx,getElem?_grow he,map_some,map_some,
    if_neg (by omega)]
  exact congrArg some hea

theorem noteAlloc_validCards (hon : bot.enabled = true) (size : Nat)
    (h8 : offset%8 = 0) :
    (bot.noteAlloc offset size).validCards = bot.validCards ∧
      (bot.noteAlloc offset size).enabled = true ∧
      (bot.noteAlloc offset size).freeSeqSeen = bot.freeSeqSeen ∧
      (bot.noteAlloc offset size).freeDisjoint = bot.freeDisjoint := by
  unfold noteAlloc
  split
  · exact ⟨rfl,hon,rfl,rfl⟩
  rw [if_neg (by omega)]
  simp only
  split
  · exact ⟨rfl,hon,rfl,rfl⟩
  · exact ⟨rfl,hon,rfl,rfl⟩

theorem Anchored.noteAlloc (h : Anchored bot free cells len) (hon : bot.enabled = true) (hsize : 0 < size) (h8 : offset%8 = 0) (hsmall : offset/8 < 2^32) :
    Anchored (bot.noteAlloc offset size) (free \ Finset.Ico offset (offset+size))
      (⟨offset,size⟩ :: cells) len := by
  have hvalid := (noteAlloc_validCards hon size h8).1
  refine ⟨fun c hc => h.bounded c (by omega),?_⟩
  intro c hc hfree
  obtain ⟨hin,hout⟩ := anchor_noteAlloc hon hsize h8 hsmall c
  by_cases hcs : offset ≤ c*botCard ∧ c*botCard < offset+size
  · refine ⟨offset,hin hcs.1 hcs.2,hcs.1,⟨_,mem_cons_self,rfl⟩,?_⟩
    intro x h1 h2 hx
    rw [mem_sdiff,mem_Ico] at hx
    omega
  rw [mem_sdiff,mem_Ico,not_and_not_right] at hfree
  obtain ⟨a,ha⟩ := h.cards c (by omega) fun hx => hcs (hfree hx)
  obtain ⟨z,hz,hza⟩ := ha.start
  refine ⟨a,hout hcs a ha.anchor,ha.below,⟨z,mem_cons_of_mem _ hz,hza⟩,?_⟩
  intro x h1 h2 hx
  exact ha.allocated x h1 h2 (mem_sdiff.mp hx).1

theorem Cut.noteAlloc {x : Span} (h : Cut bot free x.stop) (hon : bot.enabled = true)
    (hanch : Anchored bot free cells len) (hsize : 0 < size)
    (h8 : offset%8 = 0) (hsmall : offset/8 < 2^32) (hpos : 0 < x.size)
    (hap : Apart ⟨offset,size⟩ x) :
    Cut (bot.noteAlloc offset size) (free \ Finset.Ico offset (offset+size)) x.stop := by
  have hvalid := (noteAlloc_validCards hon size h8).1
  intro c hc hfree hec a ha
  obtain ⟨hin,hout⟩ := anchor_noteAlloc hon hsize h8 hsmall c
  by_cases hcs : offset ≤ c*botCard ∧ c*botCard < offset+size
  · rw [hin hcs.1 hcs.2] at ha
    obtain rfl := some.inj ha
    unfold Apart Span.stop at *
    simp only at hap
    omega
  rw [mem_sdiff,mem_Ico,not_and_not_right] at hfree
  have hnot : c*botCard ∉ free := fun hx => hcs (hfree hx)
  obtain ⟨a',ha'⟩ := hanch.cards c (by omega) hnot
  rw [hout hcs a' ha'.anchor] at ha
  obtain rfl := some.inj ha
  exact h c (by omega) hnot hec a' ha'.anchor

theorem cut_of_noteAlloc (hon : bot.enabled = true) (hanch : Anchored bot free cells len) (hsize : 0 < size) (h8 : offset%8 = 0) (hsmall : offset/8 < 2^32)
    (hsub : Finset.Ico offset (offset+size) ⊆ free) :
    Cut (bot.noteAlloc offset size) (free \ Finset.Ico offset (offset+size)) (offset+size) := by
  have hvalid := (noteAlloc_validCards hon size h8).1
  intro c hc hfree hec a ha
  have hcs : ¬ (offset ≤ c*botCard ∧ c*botCard < offset+size) := by omega
  rw [mem_sdiff,mem_Ico,not_and_not_right] at hfree
  obtain ⟨a',ha'⟩ := hanch.cards c (by omega) fun hx => hcs (hfree hx)
  rw [(anchor_noteAlloc hon hsize h8 hsmall c).2 hcs a' ha'.anchor] at ha
  obtain rfl := some.inj ha
  -- Otherwise the last byte of the extent would lie between the anchor and the card.
  by_contra hlt
  exact ha'.allocated (offset+size-1) (by omega) (by omega)
    (hsub (mem_Ico.mpr ⟨by omega,by omega⟩))

theorem Anchored.releaseTail (h : Anchored bot free cells len) {t : Nat}
    (hcut : Cut bot free (t+size)) :
    Anchored bot (Finset.Ico t (t+size) ∪ free) cells len := by
  refine ⟨h.bounded,?_⟩
  intro c hc hfree
  rw [mem_union,not_or,mem_Ico] at hfree
  obtain ⟨a,ha⟩ := h.cards c hc hfree.2
  refine ⟨a,ha.anchor,ha.below,ha.start,?_⟩
  intro x h1 h2 hx
  rcases mem_union.mp hx with hx | hx
  · have hx' := mem_Ico.mp hx
    have hcs : t+size ≤ c*botCard := by omega
    have := hcut c hc hfree.2 hcs a ha.anchor
    omega
  · exact ha.allocated x h1 h2 hx

theorem Cut.mono {e : Nat} (h : Cut bot free e) {free' : Finset Nat} (hsub : free ⊆ free') :
    Cut bot free' e := fun c hc hfree => h c hc fun hx => hfree (hsub hx)

end
end CratonVM.Gc
