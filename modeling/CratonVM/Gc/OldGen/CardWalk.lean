import CratonVM.Gc.OldGen.CardHits

/-!
The anchored walk over a tiled generation: a trusted prefix of the table may be extended, and a
walk that starts at its anchors finds every hit.
-/
namespace CratonVM.Gc
open Spans Spans.Span OldGen BlockOffsetTable List Option

/-- What the table promises about one card: its anchor is the start of a cell at or below the
card's first byte, with no free byte in between. -/
structure CardAnchored (bot : BlockOffsetTable) (free : Finset Nat) (cells : List Span)
    (card a : Nat) : Prop where
  anchor : bot.anchor card = some a
  below : a ≤ card*botCard
  start : ∃ x ∈ cells, x.offset = a
  allocated : ∀ x, a ≤ x → x ≤ card*botCard → x ∉ free

/-- The invariant of the table: it holds for every trusted card whose first byte is not free. -/
structure Anchored (bot : BlockOffsetTable) (free : Finset Nat) (cells : List Span)
    (len : Nat) : Prop where
  bounded : ∀ c < bot.validCards, c*botCard < len
  cards : ∀ c < bot.validCards, c*botCard ∉ free → ∃ a, CardAnchored bot free cells c a

section
variable {st : Store} {sorted objects : List Span}

def LocOk (st : Store) (sorted : List Span) (p : Nat) : Loc → Prop
  | .free stop => ∃ b ∈ sorted, b.offset ≤ p ∧ p < b.stop ∧ b.stop = stop
  | .allocated start stop => start ≤ p ∧ (start = 0 ∨ ∃ b ∈ sorted, b.stop = start) ∧
      (stop = st.len ∨ p < stop ∧ ∃ b ∈ sorted, b.offset = stop) ∧
      ∀ b ∈ sorted, b.stop ≤ start ∨ stop ≤ b.offset

theorem locate_spec (h : Laid st sorted objects) (p : Nat) :
    LocOk st sorted p (locate sorted p st.len) := by
  have hsplit : (sorted.takeWhile fun b => decide (b.offset ≤ p)) ++
      (sorted.dropWhile fun b => decide (b.offset ≤ p)) = sorted := takeWhile_append_dropWhile
  have hasc := h.ascending_free
  have hbelow : ∀ b ∈ sorted.takeWhile (fun b => decide (b.offset ≤ p)), b.offset ≤ p := by
    intro b hb
    have := mem_takeWhile_imp hb
    exact of_decide_eq_true this
  have hhead := head?_dropWhile_not (fun b : FreeBlock => decide (b.offset ≤ p)) sorted
  unfold locate
  generalize (sorted.takeWhile fun b => decide (b.offset ≤ p)) = below at *
  generalize (sorted.dropWhile fun b => decide (b.offset ≤ p)) = above at *
  subst hsplit
  obtain ⟨hasc1,hasc2,hcross⟩ := pairwise_append.mp hasc
  -- The blocks above `p` start at the first of them or later.
  have habove : ∀ stop, stop = (above.head?.map Span.offset).getD st.len →
      (stop = st.len ∨ p < stop ∧ ∃ b ∈ below ++ above, b.offset = stop) ∧
      ∀ b ∈ above, stop ≤ b.offset := by
    intro stop hstop
    cases above with
    | nil => exact ⟨.inl hstop,by simp⟩
    | cons c rest => ?_
    simp only [head?_cons,map_some,getD_some] at hstop
    subst hstop
    have hlt : ¬ c.offset ≤ p := by simpa using hhead
    refine ⟨.inr ⟨by omega,c,by simp,rfl⟩,?_⟩
    intro b hb
    rcases mem_cons.mp hb with rfl | hb
    · exact le_rfl
    have := (pairwise_cons.mp hasc2).1 b hb
    unfold Span.stop at this
    omega
  obtain ⟨hstop,hrest⟩ := habove _ rfl
  rcases eq_nil_or_concat below with rfl | ⟨init,last,rfl⟩
  · refine ⟨Nat.zero_le _,.inl rfl,hstop,?_⟩
    intro b hb
    exact .inr (hrest b (by simpa using hb))
  rw [concat_eq_append] at *
  have hlast : (init ++ [last]).getLast? = some last := by simp
  have hoff := hbelow last (by simp)
  simp only [hlast]
  split
  · rename_i hin
    exact ⟨last,by simp,hoff,hin,rfl⟩
  refine ⟨by omega,.inr ⟨last,by simp,rfl⟩,hstop,?_⟩
  intro b hb
  rcases mem_append.mp hb with hb | hb
  · rcases mem_append.mp hb with hb | hb
    · have := (pairwise_append.mp hasc1).2.2 b hb last (by simp)
      unfold Span.stop at *
      exact .inl (by omega)
    rw [mem_singleton.mp hb]
    exact .inl le_rfl
  · exact .inr (hrest b hb)

theorem LocOk.region (h : Laid st sorted objects) {p start stop : Nat}
    (hl : LocOk st sorted p (.allocated start stop)) :
    Region st sorted objects start stop ∧ Boundary st sorted objects start ∧ start ≤ st.len := by
  obtain ⟨h1,h2,h3,h4⟩ := hl
  refine ⟨⟨?_,?_,h4⟩,?_,?_⟩
  · rcases h3 with rfl | ⟨_,b,hb,rfl⟩
    · exact .inl rfl
    · exact .inr ⟨b,mem_append_left _ hb,rfl⟩
  · rcases h3 with rfl | ⟨_,b,hb,rfl⟩
    · exact le_rfl
    have := h.packed.inside b (mem_append_left _ hb)
    unfold Span.stop at this
    omega
  · rcases h2 with rfl | ⟨b,hb,rfl⟩
    · exact h.boundary_zero
    · exact h.boundary_stop (mem_append_left _ hb)
  rcases h2 with rfl | ⟨b,hb,rfl⟩
  · exact Nat.zero_le _
  · exact h.packed.inside b (mem_append_left _ hb)

theorem freeListIsDisjoint_of_laid (h : Laid st sorted objects) :
    freeListIsDisjoint sorted st.len = true := by
  have hn : ∀ l : List FreeBlock, Ascending l → neighboursDisjoint l = true := by
    intro l hl
    induction l with
    | nil => rfl
    | cons a l ih => ?_
    obtain ⟨h1,h2⟩ := pairwise_cons.mp hl
    cases l with
    | nil => rfl
    | cons b l =>
      simp only [neighboursDisjoint,Bool.and_eq_true,decide_eq_true_eq]
      exact ⟨h1 b (by simp),ih h2⟩
  unfold freeListIsDisjoint
  rw [hn sorted h.ascending_free,Bool.and_true,List.all_eq_true]
  intro b hb
  exact decide_eq_true (h.packed.inside b (mem_append_left _ hb))

end

section
variable {st : Store} {sorted objects : List Span} {bot : BlockOffsetTable}

/-- A walk from `botWalkStart` sees every object that ends above `p`. -/
structure StartOk (st : Store) (sorted objects : List Span) (p w : Nat) : Prop where
  boundary : Boundary st sorted objects w
  inside : w ≤ st.len
  before : ∀ o ∈ objects, o.offset < w → o.stop ≤ p
  behind : w ≤ p ∨ ∃ b ∈ sorted, b.offset ≤ p ∧ p < b.stop ∧ b.stop = w

theorem anchor_in_region (h : Laid st sorted objects) (hbot : Anchored bot (covered sorted) objects st.len)
    {p start stop : Nat} (hloc : LocOk st sorted p (.allocated start stop))
    (hcard : ¬(p/botCard ≥ bot.validCards ∨ p/botCard*botCard < start)) :
    ∃ a, CardAnchored bot (covered sorted) objects (p/botCard) a ∧ start ≤ a := by
  obtain ⟨hreg,_,_⟩ := hloc.region h
  have hvalid : p/botCard < bot.validCards := by omega
  have hcs := hbot.bounded _ hvalid
  have hle : p/botCard*botCard ≤ p := Nat.div_mul_le_self _ _
  have hnot : p/botCard*botCard ∉ covered sorted := by
    intro hmem
    obtain ⟨b,hb,hin⟩ := mem_covered.mp hmem
    rcases hreg.allocated b hb with hr | hr
    · omega
    rcases hloc.2.2.1 with hx | ⟨hx,_⟩
    · omega
    · omega
  obtain ⟨a,ha⟩ := hbot.cards _ hvalid hnot
  refine ⟨a,ha,?_⟩
  rcases hloc.2.1 with rfl | ⟨b,hb,rfl⟩
  · exact Nat.zero_le _
  -- The last byte of the free block in front of the region is not behind the anchor.
  by_contra hlt
  have hpos := h.pos (mem_append_left objects hb)
  refine ha.allocated (b.stop-1) (by omega) (by omega) (mem_covered.mpr ⟨b,hb,?_,by omega⟩)
  unfold Span.stop
  omega

theorem botWalkStart_spec (h : Laid st sorted objects) (hbot : Anchored bot (covered sorted) objects st.len)
    (p : Nat) : StartOk st sorted objects p (st.botWalkStart bot sorted p) := by
  have hloc := locate_spec h p
  unfold Store.botWalkStart
  cases hl : locate sorted p st.len with
  | free stop =>
    rw [hl] at hloc
    obtain ⟨b,hb,h1,h2,rfl⟩ := hloc
    simp only
    refine ⟨h.boundary_stop (mem_append_left _ hb),
      h.packed.inside b (mem_append_left _ hb),?_,.inr ⟨b,hb,h1,h2,rfl⟩⟩
    intro o ho hlt
    have hap := h.apart hb ho
    unfold Apart Span.stop at *
    omega
  | allocated start stop => ?_
  rw [hl] at hloc
  obtain ⟨_,hbd,hle⟩ := hloc.region h
  simp only
  split
  · refine ⟨hbd,hle,?_,.inl hloc.1⟩
    intro o ho hlt
    have hsp := hloc.1
    rcases h.not_straddled hbd (mem_append_right _ ho) with hs | hs
    · omega
    · omega
  rename_i hcard
  obtain ⟨a,ha,hstart⟩ := anchor_in_region h hbot hloc hcard
  obtain ⟨x,hx,hxa⟩ := ha.start
  have hbelow := ha.below
  have hcs := Nat.div_mul_le_self p botCard
  have hbda : Boundary st sorted objects a := .inr ⟨x,mem_append_right _ hx,hxa⟩
  have hin := h.packed.inside x (mem_append_right _ hx)
  rw [ha.anchor]
  simp only
  rw [if_pos ⟨hstart,hbelow⟩]
  refine ⟨hbda,by unfold Span.stop at hin; omega,?_,.inl (by omega)⟩
  intro o ho hlt
  rcases h.not_straddled hbda (mem_append_right _ ho) with hs | hs
  · omega
  · omega

end

section
variable {st : Store} {sorted objects : List Span}

/-- The cursor of a walk, with the end of the region it is known to be in. -/
structure CursorOk (st : Store) (sorted objects : List Span) (cursor : Nat)
    (region : Option Nat) : Prop where
  boundary : Boundary st sorted objects cursor
  inside : cursor ≤ st.len
  region : ∀ r, region = some r → cursor < r → Region st sorted objects cursor r

/-- The store is laid out in cells, some of which may have a header that no walk can size. -/
structure Walkable (st : Store) (sorted cells : List Span) : Prop extends Laid st sorted cells where
  header : ∀ c ∈ cells, Sized st c ∨ ∀ r, Region st sorted cells c.offset r → st.extentIn c.offset r = none

theorem Laid.walkable (h : Laid st sorted objects) (hsized : ∀ o ∈ objects, Sized st o) :
    Walkable st sorted objects :=
  ⟨h,fun o ho => .inl (hsized o ho)⟩

theorem Tiled.walkable (h : Tiled st sorted objects) : Walkable st sorted objects := h.toLaid.walkable h.sized

inductive Found (st : Store) (sorted objects : List Span) (region : Option Nat) (cursor : Nat) : Prop
  | free (b : FreeBlock) (hb : b ∈ sorted) (hoff : b.offset = cursor)
      (hloc : st.locateCursor sorted region cursor = .free b.stop)
      (hnext : CursorOk st sorted objects b.stop none)
  | object (o : Span) (ho : o ∈ objects) (hoff : o.offset = cursor) (start r : Nat)
      (hloc : st.locateCursor sorted region cursor = .allocated start r)
      (hext : st.extentIn cursor r = some (o.size,isRefAt st o)) (hsized : Sized st o)
      (hnext : CursorOk st sorted objects o.stop (some r))
  | broken (c : Span) (hc : c ∈ objects) (hoff : c.offset = cursor) (start r : Nat)
      (hloc : st.locateCursor sorted region cursor = .allocated start r)
      (hext : st.extentIn cursor r = none) (hreg : Region st sorted objects cursor r) (hlt : cursor < r)

theorem CursorOk.found (h : Walkable st sorted objects) {cursor : Nat} {region : Option Nat}
    (hc : CursorOk st sorted objects cursor region) (hlt : cursor < st.len) :
    Found st sorted objects region cursor := by
  -- A cell in a region is decoded to its end, and the region goes on from there.
  have hobj : ∀ start x r, x ≤ cursor → Region st sorted objects x r → cursor < r →
      st.locateCursor sorted region cursor = .allocated start r →
      Found st sorted objects region cursor := by
    intro start x r hx hreg hlt hloc
    obtain ⟨o,ho,hoff,hostop⟩ := hreg.object_at h.toLaid hc.boundary hx hlt
    have hreg' : ∀ y, cursor ≤ y → Region st sorted objects y r := by
      intro y hy
      refine ⟨hreg.bounded,hreg.inside,?_⟩
      intro b hb
      have := hreg.allocated b hb
      omega
    rcases h.header o ho with hsized | hbroken
    · have hmem := mem_append_right sorted ho
      have hin := extentIn_sized hsized hostop
      rw [hoff] at hin
      refine .object o ho hoff start r hloc hin hsized ⟨h.boundary_stop hmem,h.packed.inside o hmem,?_⟩
      intro r' hr' _
      obtain rfl := some.inj hr'
      exact hreg' _ (by unfold Span.stop; omega)
    refine .broken o ho hoff start r hloc ?_ (hreg' cursor le_rfl) hlt
    rw [← hoff]
    exact hbroken r (hreg' _ (by omega))
  cases hk : region.filter fun r => decide (cursor < r) with
  | some r =>
    obtain ⟨hr,hlt'⟩ := filter_eq_some_iff.mp hk
    have hlt'' := of_decide_eq_true hlt'
    refine hobj cursor cursor r le_rfl (hc.region r hr hlt'') hlt'' ?_
    unfold Store.locateCursor
    rw [hk]
  | none => ?_
  have hloc : st.locateCursor sorted region cursor = locate sorted cursor st.len := by
    unfold Store.locateCursor
    rw [hk]
  have hok := locate_spec h.toLaid cursor
  cases hl : locate sorted cursor st.len with
  | free stop => ?_
  | allocated start stop =>
    rw [hl] at hok
    obtain ⟨hreg,_,_⟩ := hok.region h.toLaid
    refine hobj start start stop hok.1 hreg ?_ (by rw [hloc,hl])
    rcases hok.2.2.1 with hx | ⟨hx,_⟩
    · omega
    · exact hx
  rw [hl] at hok
  obtain ⟨b,hb,h1,h2,rfl⟩ := hok
  have hmem : b ∈ sorted ++ objects := mem_append_left _ hb
  have hoff : b.offset = cursor := by
    rcases h.not_straddled hc.boundary hmem with hs | hs
    · omega
    · omega
  exact .free b hb hoff (by rw [hloc,hl])
    ⟨h.boundary_stop hmem,h.packed.inside b hmem,by simp⟩

end

section
variable {st : Store} {sorted objects : List Span}

/-- The last stretch that a re-derivation passed: a free block, or what one anchor is written for. -/
structure LastPassed (sorted objects : List Span) (l : Store.ExtendLocals) (p : Span) : Prop where
  stop : p.stop = l.cursor
  kind : p ∈ sorted ∨ (∃ c ∈ objects, c.offset = p.offset) ∧ (∀ b ∈ sorted, Apart b p) ∧
    ∀ cs, p.offset ≤ cs → cs < p.stop → Store.extendAnchor l cs = p.offset

structure ExtendOk (st : Store) (sorted objects : List Span) (l : Store.ExtendLocals) : Prop where
  cursor : CursorOk st sorted objects l.cursor l.region
  gap : ∀ g, l.gap = some g → g.2 ≤ l.cursor

theorem extendAnchor_last {l : Store.ExtendLocals} {p : Span} (hgap : ∀ g, l.gap = some g → g.2 ≤ p.offset)
    (hlast : l.last = some (p.offset,p.stop)) {cs : Nat} (h1 : p.offset ≤ cs) (h2 : cs < p.stop) :
    Store.extendAnchor l cs = p.offset := by
  unfold Store.extendAnchor
  rw [hlast]
  simp only [h1,h2,and_self,if_true]
  cases hg : l.gap with
  | none => rfl
  | some g =>
    have := hgap g hg
    simp only
    rw [if_neg (by omega)]

theorem extendAnchor_gap {l : Store.ExtendLocals} {g0 g1 cs : Nat} (hgap : l.gap = some (g0,g1)) (h1 : g0 ≤ cs)
    (h2 : cs < g1) : Store.extendAnchor l cs = g0 := by
  unfold Store.extendAnchor
  rw [hgap]
  simp [h1,h2,and_self]

theorem extendTo_spec (h : Walkable st sorted objects) {cs : Nat} (hcs : cs < st.len) (fuel : Nat)
    (l : Store.ExtendLocals) (hl : ExtendOk st sorted objects l) (hfuel : cs+1-l.cursor ≤ fuel)
    (hlast : l.cursor ≤ cs ∨ ∃ p, LastPassed sorted objects l p ∧ p.offset ≤ cs) :
    ∃ l', st.extendTo sorted cs fuel l = some l' ∧ ExtendOk st sorted objects l' ∧
      cs < l'.cursor ∧ ∃ p, LastPassed sorted objects l' p ∧ p.offset ≤ cs := by
  induction fuel generalizing l with
  | zero =>
    have hlt : cs < l.cursor := by omega
    exact ⟨l,rfl,hl,hlt,hlast.resolve_left (by omega)⟩
  | succ fuel ih => ?_
  simp only [Store.extendTo]
  by_cases hle : l.cursor ≤ cs
  · rw [if_pos hle,if_neg (by omega)]
    cases hl.cursor.found h (by omega) with
    | free b hb hoff hloc hnext =>
      have hpos := h.pos (mem_append_left objects hb)
      have hstop : l.cursor ≤ b.stop := by unfold Span.stop; omega
      rw [hloc]
      refine ih _ ⟨hnext,fun g hg => Nat.le_trans (hl.gap g hg) hstop⟩ (by simp only [Span.stop]; omega)
        (.inr ⟨b,⟨rfl,.inl hb⟩,?_⟩)
      omega
    | object o ho hoff start r hloc hext hsized hnext =>
      have hpos := h.pos (mem_append_right sorted ho)
      have hstop : o.stop = l.cursor+o.size := by unfold Span.stop; omega
      rw [hloc]
      simp only [hext]
      rw [← hstop]
      refine ih _ ⟨hnext,fun g hg => Nat.le_trans (hl.gap g hg) (by simp only; omega)⟩ (by simp only; omega)
        (.inr ⟨o,⟨rfl,.inr ⟨⟨o,ho,rfl⟩,fun b hb => h.apart hb ho,?_⟩⟩,by omega⟩)
      intro x h1 h2
      refine extendAnchor_last (fun g hg => ?_) (by rw [hoff]) h1 h2
      rw [hoff]
      exact hl.gap g hg
    | broken c hc hoff start r hloc hext hreg hlt => ?_
    rw [hloc]
    simp only [hext]
    have hp : (⟨l.cursor,r-l.cursor⟩ : Span).stop = r := by unfold Span.stop; simp only; omega
    refine ih _ ⟨⟨hreg.bounded,hreg.inside,by simp⟩,?_⟩ (by simp only; omega)
      (.inr ⟨⟨l.cursor,r-l.cursor⟩,⟨hp,.inr ⟨⟨c,hc,hoff⟩,?_,?_⟩⟩,hle⟩)
    · intro g hg
      obtain rfl := some.inj hg
      exact Nat.le_refl r
    · intro b hb
      have := hreg.allocated b hb
      unfold Apart
      rw [hp]
      exact this
    intro x h1 h2
    exact extendAnchor_gap rfl h1 (by omega)
  · rw [if_neg hle]
    exact ⟨l,rfl,hl,by omega,hlast.resolve_left hle⟩

/-- Offsets that the table can store without loss. -/
structure Encodable (len : Nat) (cells : List Span) : Prop where
  small : len/8 ≤ 2^32-1
  aligned : ∀ o ∈ cells, o.offset%8 = 0

theorem decode_encode {offset : Nat} (h8 : offset%8 = 0) (hsmall : offset/8 < 2^32) :
    encode offset*8 = offset := by
  unfold encode
  rw [Nat.mod_eq_of_lt hsmall]
  omega

theorem extendCards_spec (h : Walkable st sorted objects) (n card : Nat) (l : Store.ExtendLocals)
    (entries : List Nat) (hl : ExtendOk st sorted objects l)
    (hlast : l.cursor ≤ card*botCard ∨
      ∃ p, LastPassed sorted objects l p ∧ p.offset ≤ card*botCard)
    (hlen : card+n ≤ entries.length) (hin : ∀ c < card+n, c*botCard < st.len) :
    ∃ entries', st.extendCards sorted n card l entries = some entries' ∧
      (∀ c < card, entries'[c]? = entries[c]?) ∧
      ∀ c, card ≤ c → c < card+n → ∃ p : Span, p.offset ≤ c*botCard ∧ c*botCard < p.stop ∧
        (p ∈ sorted ∨ (∃ x ∈ objects, x.offset = p.offset) ∧ (∀ b ∈ sorted, Apart b p) ∧
          entries'[c]? = some (encode p.offset)) := by
  induction n generalizing card l entries with
  | zero => exact ⟨entries,rfl,fun _ _ => rfl,by omega⟩
  | succ n ih => ?_
  obtain ⟨l',heq,hl',hlt,p,hp,hpcs⟩ := extendTo_spec h (hin card (by omega))
    (card*botCard+1-l.cursor) l hl le_rfl hlast
  simp only [Store.extendCards,heq]
  have hnext : card*botCard ≤ (card+1)*botCard := Nat.mul_le_mul_right _ (by omega)
  obtain ⟨entries',he,hold,hnew⟩ := ih (card+1) l'
    (entries.set card (encode (Store.extendAnchor l' (card*botCard)))) hl'
    (.inr ⟨p,hp,by omega⟩) (by rw [length_set]; omega) (by intro c hc; exact hin c (by omega))
  refine ⟨entries',he,?_,?_⟩
  · intro c hc
    rw [hold c (by omega),getElem?_set_ne (by omega)]
  intro c h1 h2
  by_cases hc : c = card
  · subst hc
    have hstop : c*botCard < p.stop := by rw [hp.stop]; exact hlt
    refine ⟨p,hpcs,hstop,hp.kind.imp_right ?_⟩
    rintro ⟨hstart,hapart,hanchor⟩
    refine ⟨hstart,hapart,?_⟩
    rw [hold c (by omega),getElem?_set_self (by omega),hanchor _ hpcs hstop]
  · exact hnew c (by omega) (by omega)

theorem getElem?_grow {entries : List Nat} {n c e : Nat} (h : entries[c]? = some e) :
    (grow entries n)[c]? = some e := by
  obtain ⟨hlt,_⟩ := List.getElem?_eq_some_iff.mp h
  unfold grow
  rw [getElem?_append_left hlt]
  exact h

theorem length_grow (entries : List Nat) (n : Nat) : n ≤ (grow entries n).length := by
  unfold grow
  rw [length_append,length_replicate]
  omega

theorem Anchored.grow {bot : BlockOffsetTable} {free : Finset Nat} {cells : List Span} {len : Nat}
    (h : Anchored bot free cells len) (n : Nat) :
    Anchored { bot with entries := BlockOffsetTable.grow bot.entries n } free cells len := by
  refine ⟨h.bounded,?_⟩
  intro c hc hfree
  obtain ⟨a,ha⟩ := h.cards c hc hfree
  refine ⟨a,?_,ha.below,ha.start,ha.allocated⟩
  obtain ⟨e,he,hea⟩ := map_eq_some_iff.mp ha.anchor
  unfold anchor
  rw [getElem?_grow he]
  exact congrArg some hea

theorem botExtend_spec (h : Walkable st sorted objects) (henc : Encodable st.len objects)
    {bot : BlockOffsetTable} (hbot : Anchored bot (covered sorted) objects st.len) {need : Nat}
    (hneed : ∀ c < need, c*botCard < st.len) :
    ∃ entries validCards, st.botExtend bot sorted need =
        (true,{ bot with entries := entries, validCards := validCards }) ∧
      Anchored { bot with entries := entries, validCards := validCards } (covered sorted) objects
        st.len := by
  unfold Store.botExtend
  simp only
  split
  · exact ⟨bot.entries,bot.validCards,rfl,hbot⟩
  have hgrown := hbot.grow need
  -- The walk starts at or below the first untrusted card, or behind a free block over it.
  have hstart : ∃ cursor, (if bot.validCards = 0 then 0 else st.botWalkStart
        { bot with entries := BlockOffsetTable.grow bot.entries need } sorted
        (bot.validCards*botCard-1)) = cursor ∧ Boundary st sorted objects cursor ∧
      cursor ≤ st.len ∧ (cursor ≤ bot.validCards*botCard ∨
        ∃ b ∈ sorted, b.offset ≤ bot.validCards*botCard ∧ b.stop = cursor) := by
    refine ⟨_,rfl,?_⟩
    split
    · exact ⟨h.boundary_zero,Nat.zero_le _,.inl (Nat.zero_le _)⟩
    obtain ⟨h1,h2,_,h4⟩ := botWalkStart_spec h.toLaid hgrown (bot.validCards*botCard-1)
    refine ⟨h1,h2,?_⟩
    rcases h4 with h4 | ⟨b,hb,h5,_,h7⟩
    · exact .inl (by omega)
    · exact .inr ⟨b,hb,by omega,h7⟩
  obtain ⟨cursor,hcursor,hbd,hle,hpos⟩ := hstart
  rw [hcursor]
  have hlen := length_grow bot.entries need
  obtain ⟨entries,he,hold,hnew⟩ := extendCards_spec h (need-bot.validCards) bot.validCards { cursor }
    (BlockOffsetTable.grow bot.entries need) ⟨⟨hbd,hle,by simp⟩,by simp⟩
    (hpos.imp_right fun ⟨b,hb,h1,h2⟩ => ⟨b,⟨h2,.inl hb⟩,h1⟩) (by omega)
    (by intro c hc; exact hneed c (by omega))
  rw [he]
  refine ⟨entries,need,rfl,hneed,?_⟩
  intro c hc hfree
  by_cases hold' : c < bot.validCards
  · obtain ⟨a,ha⟩ := hgrown.cards c hold' hfree
    refine ⟨a,?_,ha.below,ha.start,ha.allocated⟩
    have hanchor := ha.anchor
    unfold anchor at hanchor ⊢
    rw [hold c hold']
    exact hanchor
  obtain ⟨p,h1,h2,hb | ⟨⟨x,hx,hxp⟩,hapart,hentry⟩⟩ := hnew c (by omega) (by simp only at hc; omega)
  · exact absurd (mem_covered.mpr ⟨p,hb,h1,h2⟩) hfree
  have hin := h.packed.inside x (mem_append_right _ hx)
  have hsmall := henc.small
  have hdec : encode p.offset*8 = p.offset := by
    rw [← hxp]
    refine decode_encode (henc.aligned x hx) ?_
    unfold Span.stop at hin
    omega
  refine ⟨p.offset,?_,h1,⟨x,hx,hxp⟩,?_⟩
  · unfold anchor
    rw [hentry,map_some,hdec]
  intro y hy1 hy2 hmem
  obtain ⟨b,hb,hb1,hb2⟩ := mem_covered.mp hmem
  have hap := hapart b hb
  unfold Apart Span.stop at *
  omega

end

section
variable {st : Store} {sorted objects : List Span} {ranges : List CardRange} {overlaps : Bool}
  {bot : BlockOffsetTable}

/-- What is known between two rounds: the hits so far and those from the cursor on are all hits. -/
structure WalkOk (st : Store) (sorted objects : List Span) (ranges : List CardRange)
    (overlaps : Bool) (l : Store.WalkLocals) : Prop where
  cursor : CursorOk st sorted objects l.cursor l.region
  rest : RestOk ranges l.ranges l.cursor
  gaps : l.gaps = []
  out : l.out ++ hitsFrom st objects ranges overlaps l.cursor =
    hitsFrom st objects ranges overlaps 0

theorem walkTo_spec (h : Walkable st sorted objects) (bot : BlockOffsetTable) (hi fuel : Nat)
    (l : Store.WalkLocals) (hl : WalkOk st sorted objects ranges overlaps l) (hfuel : st.len-l.cursor ≤ fuel)
    (hsized : ∀ c ∈ objects, l.cursor ≤ c.offset → c.offset < hi → Sized st c) :
    WalkOk st sorted objects ranges overlaps
        (st.walkTo bot sorted ranges overlaps hi fuel l) ∧
      l.cursor ≤ (st.walkTo bot sorted ranges overlaps hi fuel l).cursor ∧
      (hi ≤ (st.walkTo bot sorted ranges overlaps hi fuel l).cursor ∨
        (st.walkTo bot sorted ranges overlaps hi fuel l).cursor = st.len) := by
  induction fuel generalizing l with
  | zero =>
    have := hl.cursor.inside
    exact ⟨hl,le_rfl,.inr (by simp only [Store.walkTo]; omega)⟩
  | succ fuel ih => ?_
  simp only [Store.walkTo]
  by_cases hlt : l.cursor < hi ∧ l.cursor < st.len
  · rw [if_pos hlt]
    cases hl.cursor.found h hlt.2 with
    | free b hb hoff hloc hnext =>
      have hpos := h.pos (mem_append_left objects hb)
      have hle : l.cursor ≤ b.stop := by unfold Span.stop; omega
      rw [hloc]
      obtain ⟨h1,h2,h3⟩ := ih { l with cursor := b.stop, region := none }
        ⟨hnext,hl.rest.mono hle,hl.gaps,by
          rw [← hl.out,hitsFrom_free h.toLaid (.refl _) hb (by omega) hle]⟩
        (by simp only [Span.stop]; omega) (fun c hc hx => hsized c hc (Nat.le_trans hle hx))
      exact ⟨h1,Nat.le_trans hle h2,h3⟩
    | object o ho hoff start r hloc hext _ hnext => ?_
    | broken c hc hoff start r hloc hext hreg hr =>
      obtain ⟨o,ho,hoff',hstop⟩ := hreg.object_at h.toLaid hl.cursor.boundary le_rfl hr
      have hin := extentIn_sized (hsized o ho (by omega) (by omega)) hstop
      rw [hoff',hext] at hin
      cases hin
    have hpos := h.pos (mem_append_right sorted ho)
    have hrest := hl.rest
    have hobj := h.hitsFrom_object (.refl _) ranges overlaps ho
    have hout := hl.out
    rw [hloc]
    simp only [hext]
    rw [← hoff] at hrest hout hsized ⊢
    rw [visit_spec hrest]
    have hstop : o.offset+o.size = o.stop := rfl
    have hle : o.offset ≤ o.stop := by omega
    obtain ⟨h1,h2,h3⟩ := ih
      { l with
        cursor := o.stop
        ranges := ranges.dropWhile fun r => r.2 ≤ o.offset
        region := some r
        out := l.out ++ hitsOf st ranges overlaps o }
      ⟨hnext,((restOk_self 0).dropWhile (Nat.zero_le o.offset)).mono hle,hl.gaps,by
        rw [← hout,hobj,append_assoc]⟩
      (by simp only [Span.stop]; omega) (fun c hc hx => hsized c hc (Nat.le_trans hle hx))
    exact ⟨h1,Nat.le_trans hle h2,h3⟩
  · rw [if_neg hlt]
    have := hl.cursor.inside
    exact ⟨hl,le_rfl,by omega⟩

def enterRange (st : Store) (bot : BlockOffsetTable) (sorted : List FreeBlock) (lo : Nat)
    (l : Store.WalkLocals) : Store.WalkLocals :=
  if lo > l.cursor ∧ st.botWalkStart bot sorted lo > l.cursor then
    { l with cursor := st.botWalkStart bot sorted lo, region := none }
  else l

theorem le_enterRange (st : Store) (bot : BlockOffsetTable) (sorted : List FreeBlock) (lo : Nat)
    (l : Store.WalkLocals) : l.cursor ≤ (enterRange st bot sorted lo l).cursor := by
  unfold enterRange
  split
  · rename_i hgt
    exact Nat.le_of_lt hgt.2
  · exact le_rfl

def walkRange (st : Store) (bot : BlockOffsetTable) (sorted : List FreeBlock) (ranges : List CardRange)
    (overlaps : Bool) (range : CardRange) (l : Store.WalkLocals) : Store.WalkLocals :=
  st.walkTo bot sorted ranges overlaps range.2 (st.len-(enterRange st bot sorted range.1 l).cursor)
    (enterRange st bot sorted range.1 l)

theorem walkRanges_cons (st : Store) (bot : BlockOffsetTable) (sorted : List FreeBlock)
    (ranges : List CardRange) (overlaps : Bool) (range : CardRange) (todo : List CardRange)
    (l : Store.WalkLocals) :
    st.walkRanges bot sorted ranges overlaps (range :: todo) l =
      st.walkRanges bot sorted ranges overlaps todo
        (if range.2 ≤ l.cursor then l else walkRange st bot sorted ranges overlaps range l) := by
  simp only [Store.walkRanges]
  split
  · rfl
  · rfl

def Passed (st : Store) (l : Store.WalkLocals) (r : CardRange) : Prop := r.2 ≤ l.cursor ∨ l.cursor = st.len

variable {l : Store.WalkLocals}

theorem Passed.mono {l' : Store.WalkLocals} {r : CardRange} (h : Passed st l r) (hle : l.cursor ≤ l'.cursor)
    (hin : l'.cursor ≤ st.len) : Passed st l' r := by
  rcases h with h | h
  · exact .inl (Nat.le_trans h hle)
  · exact .inr (by omega)

variable {range : CardRange}

theorem starts_behind {later : List CardRange}
    (hstart : ∀ r ∈ later, range.1 ≤ r.1) (h : ∀ r ∈ ranges, r ∈ range :: later ∨ Passed st l r) :
    ∀ r ∈ ranges, range.1 ≤ r.1 ∨ Passed st l r := by
  intro r hr
  refine (h r hr).imp_left ?_
  intro hmem
  rcases mem_cons.mp hmem with rfl | hmem
  · exact le_rfl
  · exact hstart r hmem

theorem passed_next {later : List CardRange} {l' : Store.WalkLocals} (hp : Passed st l' range)
    (hle : l.cursor ≤ l'.cursor) (hin : l'.cursor ≤ st.len) (h : ∀ r ∈ ranges, r ∈ range :: later ∨ Passed st l r) :
    ∀ r ∈ ranges, r ∈ later ∨ Passed st l' r := by
  intro r hr
  rcases h r hr with hmem | hpr
  · rcases mem_cons.mp hmem with rfl | hmem
    · exact .inr hp
    · exact .inl hmem
  · exact .inr (hpr.mono hle hin)

theorem no_hit_before (h : Laid st sorted objects) (hbot : Anchored bot (covered sorted) objects st.len)
    {lo : Nat} (hdone : ∀ r ∈ ranges, lo ≤ r.1 ∨ Passed st l r) {o : Span} (ho : o ∈ objects)
    (hco : l.cursor ≤ o.offset) (how : o.offset < st.botWalkStart bot sorted lo) :
    ∀ r ∈ ranges, r.2 ≤ o.offset ∨ o.stop ≤ r.1 := by
  intro r hr
  have hstop := (botWalkStart_spec h hbot lo).before o ho how
  have hin := h.packed.inside o (mem_append_right _ ho)
  have hpos := h.pos (mem_append_right sorted ho)
  rcases hdone r hr with hr' | hr' | hr'
  · exact .inr (Nat.le_trans hstop hr')
  · exact .inl (Nat.le_trans hr' hco)
  unfold Span.stop at hin
  omega

theorem walkRange_spec (h : Walkable st sorted objects) (hbot : Anchored bot (covered sorted) objects st.len) (hl : WalkOk st sorted objects ranges overlaps l)
    (hdone : ∀ r ∈ ranges, range.1 ≤ r.1 ∨ Passed st l r)
    (hsized : ∀ c ∈ objects, (enterRange st bot sorted range.1 l).cursor ≤ c.offset → c.offset < range.2 →
      Sized st c) :
    WalkOk st sorted objects ranges overlaps (walkRange st bot sorted ranges overlaps range l) ∧
      (enterRange st bot sorted range.1 l).cursor ≤ (walkRange st bot sorted ranges overlaps range l).cursor ∧
      Passed st (walkRange st bot sorted ranges overlaps range l) range := by
  refine walkTo_spec h bot range.2 _ (enterRange st bot sorted range.1 l) ?_ le_rfl hsized
  unfold enterRange
  split
  · obtain ⟨h1,h2,h3,_⟩ := botWalkStart_spec h.toLaid hbot range.1
    have hle : l.cursor ≤ st.botWalkStart bot sorted range.1 := by omega
    refine ⟨⟨h1,h2,by simp⟩,hl.rest.mono hle,hl.gaps,?_⟩
    rw [← hl.out]
    exact congrArg _ (hitsFrom_skip hle fun o ho => no_hit_before h.toLaid hbot hdone ho).symm
  · exact hl

theorem walkRanges_spec (h : Tiled st sorted objects) (hbot : Anchored bot (covered sorted) objects st.len)
    (todo : List CardRange) (l : Store.WalkLocals)
    (hl : WalkOk st sorted objects ranges overlaps l) (hasc : todo.Pairwise fun a b => a.1 ≤ b.1)
    (hdone : ∀ r ∈ ranges, r ∈ todo ∨ Passed st l r) :
    WalkOk st sorted objects ranges overlaps
        (st.walkRanges bot sorted ranges overlaps todo l) ∧
      ∀ r ∈ ranges, Passed st (st.walkRanges bot sorted ranges overlaps todo l) r := by
  induction todo generalizing l with
  | nil => exact ⟨hl,fun r hr => (hdone r hr).resolve_left (by simp)⟩
  | cons range todo ih => ?_
  obtain ⟨hasc1,hasc2⟩ := pairwise_cons.mp hasc
  rw [walkRanges_cons]
  split
  · rename_i hskip
    exact ih l hl hasc2 (passed_next (.inl hskip) le_rfl hl.cursor.inside hdone)
  obtain ⟨h1,h2,h3⟩ := walkRange_spec h.walkable hbot hl (starts_behind hasc1 hdone) fun c hc _ _ => h.sized c hc
  exact ih _ h1 hasc2
    (passed_next h3 (Nat.le_trans (le_enterRange _ _ _ _ _) h2) h1.cursor.inside hdone)

/-- Everything the walks rely on in the table. -/
structure BotOk (bot : BlockOffsetTable) (free : Finset Nat) (cells : List Span)
    (len : Nat) : Prop where
  anchored : bot.enabled = true → Anchored bot free cells len
  encodable : bot.enabled = true → len/8 ≤ 2^32-1
  disjoint : bot.freeSeqSeen ≠ none → bot.freeDisjoint = true

theorem botWalk_prepared (h : Walkable st sorted objects) (haligned : ∀ o ∈ objects, o.offset%8 = 0)
    (hbot : BotOk bot (covered sorted) objects st.len) (hon : bot.enabled = true) (seq : Nat)
    (ranges : List CardRange) :
    ∃ table, Anchored table (covered sorted) objects st.len ∧ BotOk table (covered sorted) objects st.len ∧
      ∀ overlaps, st.botWalk bot sorted seq ranges overlaps =
        (some ((st.walkRanges table sorted ranges overlaps ranges { ranges }).out,
          (st.walkRanges table sorted ranges overlaps ranges { ranges }).gaps),table) := by
  have hnz : st.len ≠ 0 := by
    have := h.nonempty
    omega
  -- The verdict on the free list is positive, fresh or remembered.
  have hverdict : ∃ seen, (if bot.freeSeqSeen ≠ some seq then
        { bot with freeDisjoint := freeListIsDisjoint sorted st.len, freeSeqSeen := some seq }
      else bot) = { bot with freeDisjoint := true, freeSeqSeen := seen } := by
    split
    · exact ⟨some seq,by rw [freeListIsDisjoint_of_laid h.toLaid]⟩
    rename_i hsame
    have hseen : bot.freeSeqSeen = some seq := by simpa using hsame
    have htrue := hbot.disjoint (by rw [hseen]; simp)
    exact ⟨bot.freeSeqSeen,by cases bot; subst htrue; rfl⟩
  obtain ⟨seen,hseen⟩ := hverdict
  have hanch : Anchored { bot with freeDisjoint := true, freeSeqSeen := seen } (covered sorted)
      objects st.len := by
    refine ⟨(hbot.anchored hon).bounded,?_⟩
    intro c hc hfree
    obtain ⟨a,ha⟩ := (hbot.anchored hon).cards c hc hfree
    exact ⟨a,ha.anchor,ha.below,ha.start,ha.allocated⟩
  generalize hlast : min ((ranges.getLast?.map Prod.fst).getD 0) (st.len-1) = lastLo
  have hneed : ∀ c < lastLo/botCard+1, c*botCard < st.len := by
    intro c hc
    have h1 : c*botCard ≤ lastLo/botCard*botCard := Nat.mul_le_mul_right _ (by omega)
    have h2 := Nat.div_mul_le_self lastLo botCard
    have h4 := h.nonempty
    omega
  obtain ⟨entries,valid,hext,hanch'⟩ := botExtend_spec h ⟨hbot.encodable hon,haligned⟩ hanch hneed
  refine ⟨_,hanch',⟨fun _ => hanch',fun _ => hbot.encodable hon,fun _ => rfl⟩,?_⟩
  intro overlaps
  unfold Store.botWalk
  simp only [hseen,hlast]
  rw [if_neg (by simp [hnz]),hext]

theorem walkOk_init (h : Laid st sorted objects) (ranges : List CardRange) (overlaps : Bool) :
    WalkOk st sorted objects ranges overlaps { ranges } :=
  ⟨⟨h.boundary_zero,Nat.zero_le _,by simp⟩,restOk_self _,rfl,rfl⟩

theorem WalkOk.finished (h : Laid st sorted objects)
    (hw : WalkOk st sorted objects ranges overlaps l) (hdone : ∀ r ∈ ranges, Passed st l r) :
    (l.out,l.gaps) = (hitsFrom st objects ranges overlaps 0,[]) := by
  have hnone : hitsFrom st objects ranges overlaps l.cursor = [] := by
    refine hitsFrom_eq_nil ?_
    intro o ho hco r hr
    have hin := h.packed.inside o (mem_append_right _ ho)
    have hpos := h.pos (mem_append_right sorted ho)
    rcases hdone r hr with hd | hd
    · exact .inl (Nat.le_trans hd hco)
    unfold Span.stop at hin
    omega
  have hout := hw.out
  rw [hnone,append_nil] at hout
  rw [hout,hw.gaps]

theorem RangesOk.starts (hr : RangesOk ranges) : ranges.Pairwise fun a b => a.1 ≤ b.1 := by
  refine hr.ascending.imp_of_mem ?_
  intro a b ha _ hab
  have := hr.nonempty a ha
  omega

theorem botWalk_spec (h : Tiled st sorted objects) (haligned : ∀ o ∈ objects, o.offset%8 = 0)
    (hr : RangesOk ranges) (hbot : BotOk bot (covered sorted) objects st.len)
    (hon : bot.enabled = true) (seq : Nat) (overlaps : Bool) :
    (st.botWalk bot sorted seq ranges overlaps).1 =
        some (hitsFrom st objects ranges overlaps 0,[]) ∧
      BotOk (st.botWalk bot sorted seq ranges overlaps).2 (covered sorted) objects st.len := by
  obtain ⟨table,hanch,hok,heq⟩ := botWalk_prepared h.walkable haligned hbot hon seq ranges
  obtain ⟨hw,hdone⟩ := walkRanges_spec h hanch ranges { ranges } (walkOk_init h.toLaid ranges overlaps) hr.starts
    fun r hr => .inl hr
  rw [heq overlaps]
  exact ⟨congrArg some (hw.finished h.toLaid hdone),hok⟩

theorem walkCardRangesWithGaps_spec (h : Tiled st sorted objects)
    (haligned : ∀ o ∈ objects, o.offset%8 = 0) (hr : RangesOk ranges)
    (hbot : BotOk bot (covered sorted) objects st.len) (seq : Nat) (overlaps : Bool) :
    (st.walkCardRangesWithGaps bot sorted seq ranges overlaps).1 =
        (hitsFrom st objects ranges overlaps 0,[]) ∧
      BotOk (st.walkCardRangesWithGaps bot sorted seq ranges overlaps).2 (covered sorted) objects
        st.len := by
  unfold Store.walkCardRangesWithGaps
  split
  · rename_i hempty
    rw [isEmpty_iff.mp hempty,hitsFrom_past (by simp)]
    exact ⟨rfl,hbot⟩
  split
  · rename_i hon
    obtain ⟨h1,h2⟩ := botWalk_spec h haligned hr hbot hon seq overlaps
    cases hw : st.botWalk bot sorted seq ranges overlaps with
    | mk answer bot' =>
      rw [hw] at h1 h2
      simp only at h1
      subst h1
      exact ⟨rfl,h2⟩
  · exact ⟨linearWalk_spec h hr overlaps,hbot⟩

end
end CratonVM.Gc
