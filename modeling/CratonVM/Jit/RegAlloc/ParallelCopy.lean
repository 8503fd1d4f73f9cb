import CratonVM.Lib.ParallelCopy

/-!
Sequentialising a parallel copy (`jit/src/regalloc.rs`, `resolve_parallel_copy`). The maps are functions, the
flags of an array are the list of the flagged indices, and the heap of ready entries is a list in
ascending order.
-/
namespace CratonVM.Jit.RegAlloc
open List Function Prod Finset
open Option hiding guard

inductive RegClass where
  | gp
  | xmm
  deriving DecidableEq, Repr

structure PhysReg where
  bank : RegClass
  num : UInt8
  deriving DecidableEq, Repr

inductive ValueLoc where
  | reg (r : PhysReg)
  | slot (word : UInt32)
  deriving DecidableEq, Repr

def RegClass.debug : RegClass → String
  | .gp => "Gp"
  | .xmm => "Xmm"

def ValueLoc.debug : ValueLoc → String
  | .reg r => "Reg(PhysReg \x7b class: "++r.bank.debug++", num: "++toString r.num.toNat++" \x7d)"
  | .slot word => "Slot("++toString word.toNat++")"

structure Bailout where
  reason : String
  context : String
  deriving DecidableEq, Repr

inductive CopyOp where
  | move (src dst : ValueLoc)
  | save (src : ValueLoc)
  | restore (dst : ValueLoc)
  deriving DecidableEq, Repr

namespace ParallelCopy
/-- A destination and its source; no source stands for the scratch word. -/
abbrev Entry := ValueLoc × Option ValueLoc

/-- The copies without repeated ones and copies of a location to itself. -/
def collect : List (ValueLoc × ValueLoc) → List Entry → Except Bailout (List Entry)
  | [],pending => .ok pending
  | (dst,src)::copies,pending =>
    if dst = src then collect copies pending
    else match (pending.find? (·.1 = dst)).bind (·.2) with
      | some s =>
        if s = src then collect copies pending
        else .error ⟨"regalloc: a parallel copy writes one destination twice",dst.debug⟩
      | none => collect copies (pending++[(dst,some src)])

structure Sequencing where
  pending : List Entry
  readers : ValueLoc → Option Nat
  done : List Nat
  queued : List Nat
  ready : List Nat
  firstLive : Nat
  left : Nat
  out : List CopyOp

/-- How many entries read a location, if any does. -/
def readersOf (pending : List Entry) (loc : ValueLoc) : Option Nat :=
  let count := pending.countP (·.2 = some loc)
  if count = 0 then none else some count

def dstIndex (pending : List Entry) (loc : ValueLoc) : Option Nat := pending.findIdx? (·.1 = loc)

/-- The entries that read a location before any is done. -/
def reads (pending : List Entry) (loc : ValueLoc) : List Nat :=
  (List.range pending.length).filter fun i => (pending[i]?.bind (·.2)) = some loc

def Sequencing.start (pending : List Entry) : Sequencing :=
  let ready := (List.range pending.length).filter fun i =>
    ((pending[i]?.bind fun e => readersOf pending e.1).getD 0) = 0
  ⟨pending,readersOf pending,[],ready,ready,0,pending.length,[]⟩

def Sequencing.queue (s : Sequencing) (i : Nat) : Sequencing :=
  { s with queued := i::s.queued, ready := s.ready.orderedInsert (· ≤ ·) i }

/-- One reader of `loc` is done; its own entry may be ready now. -/
def Sequencing.release (s : Sequencing) (entryOf : ValueLoc → Option Nat) (loc : ValueLoc) : Sequencing :=
  match s.readers loc with
  | none => s
  | some r =>
    let s := { s with readers := Function.update s.readers loc (some (r-1)) }
    if r-1 = 0 then
      match entryOf loc with
      | some j => if j ∉ s.done ∧ j ∉ s.queued then s.queue j else s
      | none => s
    else s

/-- The entries in `js` that read `cycle` read the scratch word instead. -/
def park (cycle : ValueLoc) (done : List Nat) (pending : List Entry) (js : List Nat) : List Entry :=
  js.foldl (fun pending j =>
    if j ∈ done then pending
    else pending.modify j fun e => if e.2 = some cycle then (e.1,none) else e) pending

def skipDone (done : List Nat) : Nat → Nat → Nat
  | 0,i => i
  | fuel+1,i => if i ∈ done then skipDone done fuel (i+1) else i

/-- The least ready entry is done, or one cycle is broken. -/
def Sequencing.step (entryOf : ValueLoc → Option Nat) (readsOf : ValueLoc → List Nat) (s : Sequencing) :
    Except Bailout Sequencing :=
  match s.ready with
  | i::ready =>
    let s := { s with ready := ready }
    match s.pending[i]? with
    | none => .error ⟨"regalloc: parallel copy lost its state",
        "ready index "++toString i++" of "++toString s.pending.length⟩
    | some (dst,src) =>
      if i ∈ s.done then .ok s
      else
        let s := { s with done := i::s.done, left := s.left-1 }
        match src with
        | some loc =>
          let s := s.release entryOf loc
          .ok { s with out := s.out++[.move loc dst] }
        | none => .ok { s with out := s.out++[.restore dst] }
  | [] =>
    let first := skipDone s.done (s.pending.length-s.firstLive) s.firstLive
    match s.pending[first]? with
    | none => .error ⟨"regalloc: parallel copy lost its state",toString s.left++" copies left, none live"⟩
    | some (cycle,_) =>
      let s := { s with
        firstLive := first
        out := s.out++[.save cycle]
        pending := park cycle s.done s.pending (readsOf cycle)
        readers := Function.update s.readers cycle (some 0) }
      .ok (if first ∈ s.queued then s else s.queue first)

section
variable {copies : List (ValueLoc × ValueLoc)} {pending entries : List Entry}

/-- The entries come from the copies, one for a destination and none for a copy of a location to itself. -/
structure Collected (copies : List (ValueLoc × ValueLoc)) (pending : List Entry) : Prop where
  nodup : (pending.map Prod.fst).Nodup
  copied : ∀ e ∈ pending, ∃ s, e.2 = some s ∧ s ≠ e.1 ∧ (e.1,s) ∈ copies
  complete : ∀ d s, (d,s) ∈ copies → d ≠ s → (d,some s) ∈ pending

theorem Collected.repeated (h : Collected copies pending) {dst src : ValueLoc}
    (hknown : dst = src ∨ (dst,some src) ∈ pending) : Collected (copies++[(dst,src)]) pending := by
  refine ⟨h.nodup,fun e he => ?_,fun d s hs hne => ?_⟩
  · obtain ⟨s,hs,hne,hmem⟩ := h.copied e he
    exact ⟨s,hs,hne,mem_append_left _ hmem⟩
  rcases mem_append.mp hs with hs|hs
  · exact h.complete d s hs hne
  cases List.mem_singleton.mp hs
  exact hknown.resolve_left hne

theorem Collected.push (h : Collected copies pending) {dst src : ValueLoc} (hne : dst ≠ src)
    (hnew : ∀ e ∈ pending, e.1 ≠ dst) : Collected (copies++[(dst,src)]) (pending++[(dst,some src)]) := by
  refine ⟨?_,fun e he => ?_,fun d s hs hds => ?_⟩
  · rw [map_append,nodup_append]
    refine ⟨h.nodup,nodup_singleton _,fun a ha b hb => ?_⟩
    obtain ⟨e,he,rfl⟩ := mem_map.mp ha
    obtain rfl := List.mem_singleton.mp hb
    exact hnew e he
  · rcases mem_append.mp he with he|he
    · obtain ⟨s,hs,hne,hmem⟩ := h.copied e he
      exact ⟨s,hs,hne,mem_append_left _ hmem⟩
    obtain rfl := List.mem_singleton.mp he
    exact ⟨src,rfl,hne.symm,by simp⟩
  rcases mem_append.mp hs with hs|hs
  · exact mem_append_left _ (h.complete d s hs hds)
  cases List.mem_singleton.mp hs
  simp

end

section
variable {p0 pending : List Entry} {s : Sequencing} {loc : ValueLoc} {done js : List Nat} {i j : Nat}

def dstAt (pending : List Entry) (i : Nat) : ValueLoc := (pending[i]?.map (·.1)).getD (.slot 0)

def srcAt (pending : List Entry) (i : Nat) : Option ValueLoc := pending[i]?.bind (·.2)

theorem getElem?_eq_entry (hi : i < pending.length) : pending[i]? = some (dstAt pending i,srcAt pending i) := by
  simp [dstAt,srcAt,hi]

def Sequencing.live (s : Sequencing) : Finset Nat := (Finset.range s.pending.length).filter (· ∉ s.done)

theorem Sequencing.mem_live : i ∈ s.live ↔ i < s.pending.length ∧ i ∉ s.done := by
  simp [live]

/-- The counts, the flags and the heap are those of the entries that are not done. -/
structure Ok (p0 : List Entry) (s : Sequencing) : Prop where
  length : s.pending.length = p0.length
  dsts : ∀ i, dstAt s.pending i = dstAt p0 i
  srcs : ∀ i, srcAt s.pending i = none ∨ srcAt s.pending i = srcAt p0 i
  readers : ∀ l, (s.readers l).getD 0 = (s.live.filter fun j => srcAt s.pending j = some l).card
  nodup : s.ready.Nodup
  mem_ready : ∀ i, i ∈ s.ready ↔ i ∈ s.live ∧ i ∈ s.queued
  queued : ∀ i ∈ s.live, (i ∈ s.queued ↔ (s.readers (dstAt p0 i)).getD 0 = 0)
  left : s.left = s.live.card
  firstLive : ∀ i < s.firstLive, i ∉ s.live

theorem dstAt_injOn (hnodup : (p0.map fst).Nodup) (live : Finset Nat) (hlive : ∀ i ∈ live, i < p0.length) :
    Set.InjOn (dstAt p0) live := by
  intro a ha b hb hab
  have hget : ∀ i ∈ live, (p0.map fst)[i]? = some (dstAt p0 i) := fun i hi => by
    rw [getElem?_map,getElem?_eq_entry (hlive i hi),map_some]
  refine (getElem?_inj (by simpa using hlive a ha) hnodup).mp ?_
  rw [hget a ha,hget b hb,hab]

theorem dstIndex_eq_some (hnodup : (p0.map fst).Nodup) :
    dstIndex p0 loc = some j ↔ j < p0.length ∧ dstAt p0 j = loc := by
  rw [dstIndex,findIdx?_eq_some_iff_getElem]
  constructor
  · rintro ⟨hj,hloc,-⟩
    exact ⟨hj,by simpa [dstAt,hj] using hloc⟩
  rintro ⟨hj,hloc⟩
  refine ⟨hj,by simpa [dstAt,hj] using hloc,fun k hk => ?_⟩
  intro heq
  have hkl := Nat.lt_trans hk hj
  have hsame : dstAt p0 k = dstAt p0 j := by rw [hloc]; simpa [dstAt,hkl] using heq
  have hinj := dstAt_injOn hnodup (range p0.length) (by simp)
  exact absurd (hinj (by simpa using hkl) (by simpa using hj) hsame) (Nat.ne_of_lt hk)

theorem countP_eq_card (l : ValueLoc) : pending.countP (fun e => decide (e.2 = some l)) =
    ((Finset.range pending.length).filter fun j => srcAt pending j = some l).card := by
  have hmap : pending.map (·.2) = (List.range pending.length).map (srcAt pending) := by
    refine ext_getElem (by simp) fun k hk _ => ?_
    have hk' : k < pending.length := by simpa using hk
    simp [srcAt,hk']
  have hcount := congrArg (countP fun o => decide (o = some l)) hmap
  rw [countP_map,countP_map] at hcount
  exact hcount.trans countP_eq_length_filter

theorem Ok.start (p0 : List Entry) : Ok p0 (.start p0) := by
  have hlive : (Sequencing.start p0).live = Finset.range p0.length := by
    ext i
    rw [Sequencing.mem_live,Finset.mem_range]
    exact and_iff_left not_mem_nil
  have hreaders : ∀ l, (readersOf p0 l).getD 0 =
      ((Finset.range p0.length).filter fun j => srcAt p0 j = some l).card := by
    intro l
    rw [← countP_eq_card,readersOf]
    split
    · rename_i hzero
      exact hzero.symm
    · rfl
  have hready : ∀ i, i ∈ (Sequencing.start p0).ready ↔
      i < p0.length ∧ (readersOf p0 (dstAt p0 i)).getD 0 = 0 := by
    intro i
    rw [Sequencing.start,mem_filter,List.mem_range,decide_eq_true_eq]
    refine and_congr_right fun hi => ?_
    rw [getElem?_eq_entry hi,bind_some]
  refine ⟨rfl,fun _ => rfl,fun _ => .inr rfl,?_,nodup_range.filter _,fun i => ?_,fun i hi => ?_,?_,?_⟩
  · rw [hlive]
    exact hreaders
  · rw [hlive,Finset.mem_range]
    exact ⟨fun h => ⟨((hready i).mp h).1,h⟩,fun h => h.2⟩
  · rw [hlive,Finset.mem_range] at hi
    exact (hready i).trans (and_iff_right hi)
  · rw [hlive,card_range]
    rfl
  intro i hi
  exact absurd hi (Nat.not_lt_zero i)

theorem Sequencing.release_spec (entryOf : ValueLoc → Option Nat) {s : Sequencing} {r : Nat} (hr : s.readers loc = some r)
    (hnodup : s.ready.Nodup) (hsub : ∀ i ∈ s.ready, i ∈ s.queued) :
    ∃ queued ready, s.release entryOf loc =
        { s with readers := update s.readers loc (some (r-1)), queued := queued, ready := ready } ∧
      ready.Nodup ∧
      (∀ i, i ∈ queued ↔ i ∈ s.queued ∨ (r-1 = 0 ∧ entryOf loc = some i ∧ i ∉ s.done)) ∧
      ∀ i, i ∈ ready ↔ i ∈ s.ready ∨ (r-1 = 0 ∧ entryOf loc = some i ∧ i ∉ s.done ∧ i ∉ s.queued) := by
  simp only [release,hr]
  by_cases hzero : r-1 = 0
  · rw [if_pos hzero]
    cases hentry : entryOf loc with
    | none => exact ⟨s.queued,s.ready,rfl,hnodup,by simp,by simp⟩
    | some j => ?_
    dsimp only
    by_cases hj : j ∉ s.done ∧ j ∉ s.queued
    · rw [if_pos hj]
      refine ⟨j::s.queued,s.ready.orderedInsert (· ≤ ·) j,rfl,?_,fun i => ?_,fun i => ?_⟩
      · rw [(perm_orderedInsert _ j s.ready).nodup_iff,nodup_cons]
        exact ⟨fun hmem => hj.2 (hsub j hmem),hnodup⟩
      · simp only [List.mem_cons,hzero,some.injEq,true_and]
        constructor
        · rintro (rfl|h)
          · exact .inr ⟨rfl,hj.1⟩
          · exact .inl h
        rintro (h|⟨rfl,-⟩)
        · exact .inr h
        · exact .inl rfl
      simp only [mem_orderedInsert,hzero,some.injEq,true_and]
      constructor
      · rintro (rfl|h)
        · exact .inr ⟨rfl,hj⟩
        · exact .inl h
      rintro (h|⟨rfl,-⟩)
      · exact .inr h
      · exact .inl rfl
    rw [if_neg hj]
    refine ⟨s.queued,s.ready,rfl,hnodup,fun i => ?_,fun i => ?_⟩
    · simp only [hzero,some.injEq,true_and,iff_self_or,and_imp]
      rintro rfl hdone
      by_contra hq
      exact hj ⟨hdone,hq⟩
    simp only [hzero,some.injEq,true_and,iff_self_or]
    rintro ⟨rfl,hboth⟩
    exact absurd hboth hj
  · rw [if_neg hzero]
    exact ⟨s.queued,s.ready,rfl,hnodup,by simp [hzero],by simp [hzero]⟩

def opOf (dst : ValueLoc) : Option ValueLoc → CopyOp
  | some src => .move src dst
  | none => .restore dst

theorem card_filter_erase {live : Finset Nat} {q : Nat → Prop} [DecidablePred q] (hi : i ∈ live) :
    ((live.erase i).filter q).card = if q i then (live.filter q).card-1 else (live.filter q).card := by
  rw [filter_erase]
  split
  · rename_i hq
    exact card_erase_of_mem (mem_filter.mpr ⟨hi,hq⟩)
  rename_i hq
  rw [erase_eq_of_notMem fun hmem => hq (mem_filter.mp hmem).2]

theorem Ok.retire (h : Ok p0 s) (hnodup : (p0.map fst).Nodup) {rest : List Nat} (hready : s.ready = i::rest) :
    ∃ s', s.step (dstIndex p0) (reads p0) = .ok s' ∧ Ok p0 s' ∧ i ∈ s.live ∧
      (∀ j ∈ s.live, srcAt s.pending j ≠ some (dstAt p0 i)) ∧ s'.live = s.live.erase i ∧
      s'.pending = s.pending ∧ s'.out = s.out++[opOf (dstAt p0 i) (srcAt s.pending i)] := by
  obtain ⟨hlive,hqueued⟩ := (h.mem_ready i).mp (hready ▸ mem_cons_self)
  obtain ⟨hlt,hdone⟩ := Sequencing.mem_live.mp hlive
  have hcount := (h.queued i hlive).mp hqueued
  rw [h.readers,card_eq_zero] at hcount
  have hunread : ∀ j ∈ s.live, srcAt s.pending j ≠ some (dstAt p0 i) := fun j hj hs =>
    notMem_empty j (hcount ▸ mem_filter.mpr ⟨hj,hs⟩)
  have herase : ∀ s' : Sequencing, s'.pending = s.pending → s'.done = i::s.done → s'.live = s.live.erase i := by
    intro s' hp hd
    ext j
    rw [Sequencing.mem_live,hp,hd,mem_erase,Sequencing.mem_live,List.mem_cons]
    tauto
  have hleft : s.left-1 = (s.live.erase i).card := by rw [card_erase_of_mem hlive,h.left]
  have hrest : rest.Nodup ∧ i ∉ rest := by
    have := h.nodup
    rw [hready,nodup_cons] at this
    exact this.symm
  have hmem : ∀ j, j ∈ rest ↔ j ∈ s.live.erase i ∧ j ∈ s.queued := by
    intro j
    have := h.mem_ready j
    rw [hready,List.mem_cons] at this
    rw [mem_erase]
    constructor
    · intro hj
      obtain ⟨hl,hq⟩ := this.mp (.inr hj)
      exact ⟨⟨fun heq => hrest.2 (heq ▸ hj),hl⟩,hq⟩
    rintro ⟨⟨hne,hl⟩,hq⟩
    exact (this.mpr ⟨hl,hq⟩).resolve_left hne
  have hstep : s.step (dstIndex p0) (reads p0) = match srcAt s.pending i with
      | some loc =>
        let s := { s with ready := rest, done := i::s.done, left := s.left-1 }.release (dstIndex p0) loc
        .ok { s with out := s.out++[.move loc (dstAt p0 i)] }
      | none => .ok { s with
          ready := rest, done := i::s.done, left := s.left-1, out := s.out++[.restore (dstAt p0 i)] } := by
    rw [Sequencing.step,hready]
    simp [getElem?_eq_entry hlt,if_neg hdone,h.dsts]
  rw [hstep]
  cases hsrc : srcAt s.pending i with
  | none =>
    refine ⟨_,rfl,?_,hlive,hunread,herase _ rfl rfl,rfl,rfl⟩
    have hl := herase { s with
      ready := rest, done := i::s.done, left := s.left-1, out := s.out++[.restore (dstAt p0 i)] } rfl rfl
    refine ⟨h.length,h.dsts,h.srcs,fun l => ?_,hrest.1,fun j => ?_,fun j hj => ?_,?_,fun j hj => ?_⟩
    · rw [hl,card_filter_erase hlive,if_neg (by simp [hsrc]),h.readers]
    · rw [hl]
      exact hmem j
    · rw [hl] at hj
      exact h.queued j (Finset.mem_of_mem_erase hj)
    · rw [hl]
      exact hleft
    rw [hl]
    exact fun hmem => h.firstLive j hj (Finset.mem_of_mem_erase hmem)
  | some loc => ?_
  have hpos : 0 < (s.live.filter fun j => srcAt s.pending j = some loc).card :=
    card_pos.mpr ⟨i,mem_filter.mpr ⟨hlive,hsrc⟩⟩
  obtain ⟨r,hr⟩ : ∃ r, s.readers loc = some r := by
    cases hr : s.readers loc with
    | none =>
      have := h.readers loc
      rw [hr,getD_none] at this
      omega
    | some r => exact ⟨r,rfl⟩
  have hrcount : r = (s.live.filter fun j => srcAt s.pending j = some loc).card := by
    rw [← h.readers,hr,getD_some]
  obtain ⟨queued,ready,hrel,hnd,hq,hrd⟩ := Sequencing.release_spec (dstIndex p0)
    (s := { s with ready := rest, done := i::s.done, left := s.left-1 }) hr hrest.1
    (fun j hj => ((hmem j).mp hj).2)
  simp only [hrel]
  refine ⟨_,rfl,?_,hlive,hunread,herase _ rfl rfl,rfl,rfl⟩
  have hl := herase { s with
    readers := update s.readers loc (some (r-1)), done := i::s.done, queued := queued,
    ready := ready, left := s.left-1, out := s.out++[.move loc (dstAt p0 i)] } rfl rfl
  have hnew : ∀ j, dstIndex p0 loc = some j ∧ j ∉ i::s.done ↔ j ∈ s.live.erase i ∧ dstAt p0 j = loc := by
    intro j
    rw [dstIndex_eq_some hnodup,mem_erase,Sequencing.mem_live,h.length,List.mem_cons]
    tauto
  refine ⟨h.length,h.dsts,h.srcs,fun l => ?_,hnd,fun j => ?_,fun j hj => ?_,?_,fun j hj => ?_⟩
  · rw [hl,card_filter_erase hlive]
    dsimp only
    by_cases heq : l = loc
    · rw [if_pos (heq ▸ hsrc),heq,update_self,getD_some,hrcount]
    · rw [if_neg (by simpa [hsrc] using Ne.symm heq),update_of_ne heq,h.readers]
  · rw [hl]
    refine (hrd j).trans ?_
    rw [hq,hmem]
    have := hnew j
    tauto
  · rw [hl] at hj
    refine (hq j).trans ?_
    dsimp only
    have hold := h.queued j (Finset.mem_of_mem_erase hj)
    have hthis := hnew j
    by_cases heq : dstAt p0 j = loc
    · rw [heq,hr,getD_some] at hold
      rw [heq,update_self,getD_some]
      have hzero : r ≠ 0 := by omega
      tauto
    rw [update_of_ne heq,← hold]
    tauto
  · rw [hl]
    exact hleft
  rw [hl]
  exact fun hmem => h.firstLive j hj (Finset.mem_of_mem_erase hmem)

end

section
variable {V : Type}

/-- One operation on the locations and the scratch word. -/
def runOp (m : (ValueLoc → V) × V) : CopyOp → (ValueLoc → V) × V
  | .move src dst => (Function.update m.1 dst (m.1 src),m.2)
  | .save src => (m.1,m.1 src)
  | .restore dst => (Function.update m.1 dst m.2,m.2)

def runOps (m : (ValueLoc → V) × V) (ops : List CopyOp) : (ValueLoc → V) × V := ops.foldl runOp m

variable {p0 : List Entry} {s : Sequencing}

open CratonVM.ParallelCopy (Owed)

/-- What a location holds once all copies are done. -/
def wanted (p0 : List Entry) (mem : ValueLoc → V) (l : ValueLoc) : V :=
  match dstIndex p0 l with
  | some i => ((srcAt p0 i).map mem).getD (mem l)
  | none => mem l

end
end ParallelCopy
end CratonVM.Jit.RegAlloc
