import CratonVM.Lib.BitRows
import CratonVM.Reader.StackMachine
import CratonVM.Reader.LinearWalk

/-!
The pre-decoded stream of `reader/src/quickened.rs`: the walk that records it, the dense index from
pcs to records, and the lookups. The memo cell and the statistics are left out.
-/
namespace CratonVM.Reader
open Instruction BitRows BinarySearch Bool
open List hiding get
open Option hiding get

def u32Max : Nat := 2^32-1

def blockBytes : Nat := 64

def maxDenseStartPc : Nat := 65535

/-- One 64-byte window: its instruction starts, and how many starts stand before it. -/
structure PcBlock where
  starts : BitVec 64
  cum : Nat
  deriving DecidableEq, Repr

/-- `pcs` is one longer than `ops`: the last entry is where the last instruction ends. -/
structure QuickenedCode where
  code : List UInt8
  ops : List Instruction
  pcs : List Nat
  starts : Option (List PcBlock)
  deriving DecidableEq, Repr

/-- Number the blocks with the running count of starts. -/
def cumulate : (running : Nat) → Row → List PcBlock
  | _, [] => []
  | running, w :: row => ⟨w,running⟩ :: cumulate ((running+ones w)%2^32) row

def buildStartIndex (startsPcs : List Nat) : Option (List PcBlock) :=
  match startsPcs.getLast? with
  | none => none
  | some maxPc =>
    if maxPc > maxDenseStartPc then none
    else
      let nblocks := maxPc/blockBytes+1
      some (cumulate 0 (startsPcs.foldl BitRows.set (BitRows.empty nblocks)))

namespace QuickenedCode
/-- The loop of `build`: the instructions, their pcs and the pc it stops at. Every round moves
`pc`, so `fuel` is what is left of the code. -/
def record (code : List UInt8) (limit : Nat) : (fuel pc : Nat) → List Instruction → List Nat →
    List Instruction × List Nat × Nat
  | 0, pc, ops, pcs => (ops,pcs,pc)
  | fuel+1, pc, ops, pcs =>
    if pc < limit then
      match decode code pc with
      | .error _ => (ops,pcs,pc)
      | .ok (insn,next) =>
        if next ≤ pc ∨ next > u32Max then (ops,pcs,pc)
        else record code limit fuel next (ops ++ [insn]) (pcs ++ [pc%2^32])
    else (ops,pcs,pc)

/-- Pre-decode a padded array: its last two bytes are not walked. -/
def build (code : List UInt8) : Option QuickenedCode :=
  let limit := code.length-2
  if limit = 0 ∨ limit > u32Max then none
  else
    let (ops,pcs,pc) := record code limit limit 0 [] []
    if ops.isEmpty then none
    else
      let pcs := pcs ++ [pc%2^32]
      some { code, ops, pcs, starts := buildStartIndex (pcs.take ops.length) }

def denseIndex (blocks : List PcBlock) (pc : Nat) : Option Nat :=
  match blocks[pc/blockBytes]? with
  | none => none
  | some block =>
    let bit := pc%blockBytes
    if (block.starts >>> bit) &&& 1#64 = 0#64 then none
    else
      let below := block.starts &&& ((1#64 <<< bit)-1#64)
      some (block.cum+ones below)

def searchIndex (q : QuickenedCode) (pc : Nat) : Option Nat :=
  if pc > u32Max then none else binarySearch (q.pcs.take q.ops.length) pc

def indexOfPcDirect (q : QuickenedCode) (pc : Nat) : Option Nat :=
  match q.starts with
  | some blocks => denseIndex blocks pc
  | none => q.searchIndex pc

def indexOfPc (q : QuickenedCode) (pc hint : Nat) : Option Nat :=
  if hint < q.ops.length ∧ q.pcs[hint]? = some pc then some hint else q.indexOfPcDirect pc

/-- The record at a pc. An index past the records would be a panic. -/
def resolve (q : QuickenedCode) (pc : Nat) : Option (Instruction × Nat) := do
  let idx ← q.indexOfPcDirect pc
  let op ← q.ops[idx]?
  let next ← q.pcs[idx+1]?
  some (op,next)

/-- The record of an index: `pc_of`, `op` and `next_pc`. -/
def entry (q : QuickenedCode) (idx : Nat) : Option Decoded := do
  let pc ← q.pcs[idx]?
  let insn ← q.ops[idx]?
  let next ← q.pcs[idx+1]?
  some ⟨pc,insn,next⟩

theorem getElem?_cumulate {row : Row} {running : Nat} (b : Nat)
    (hfit : running+rank row (64*row.length) < 2^32) :
    (cumulate running row)[b]? = row[b]?.map fun w => ⟨w,running+rank row (64*b)⟩ := by
  induction row generalizing running b with
  | nil => simp [cumulate]
  | cons w row ih => ?_
  rw [length_cons,Nat.mul_succ,Nat.add_comm (64*row.length),rank_cons] at hfit
  rw [cumulate,Nat.mod_eq_of_lt (by omega)]
  cases b with
  | zero => simp [rank]
  | succ b =>
    rw [getElem?_cons_succ,getElem?_cons_succ,ih b (by omega),Nat.mul_succ,
      Nat.add_comm (64*b),rank_cons,Nat.add_assoc]

theorem denseIndex_eq_some {startsPcs : List Nat} (hs : startsPcs.Pairwise (· < ·))
    {blocks : List PcBlock} (hblocks : buildStartIndex startsPcs = some blocks) {pc i : Nat} :
    denseIndex blocks pc = some i ↔ startsPcs[i]? = some pc := by
  rw [buildStartIndex] at hblocks
  cases hlast : startsPcs.getLast? with
  | none => simp [hlast] at hblocks
  | some maxPc => ?_
  simp only [hlast] at hblocks
  split at hblocks
  · cases hblocks
  rename_i hdense
  have hdense : maxPc ≤ 65535 := Nat.not_lt.mp hdense
  obtain rfl := some.inj hblocks
  generalize hrow : startsPcs.foldl BitRows.set (BitRows.empty (maxPc/blockBytes+1)) = row
  have hlen : row.length = maxPc/64+1 := by
    rw [← hrow,length_foldl_set,length_empty,blockBytes]
  have hmax : ∀ p ∈ startsPcs, p ≤ maxPc := by
    intro p hp
    obtain ⟨l,rfl⟩ := getLast?_eq_some_iff.mp hlast
    rcases mem_append.mp hp with hp | hp
    · exact Nat.le_of_lt ((pairwise_append.mp hs).2.2 p hp maxPc (by simp))
    · simp_all
  have hget : ∀ j, get row j = true ↔ j ∈ startsPcs := by
    intro j
    rw [← hrow,get_foldl_set]
    simp only [get_empty,length_empty,Bool.false_or,and_eq_true,decide_eq_true_eq]
    refine ⟨fun h => h.1,fun h => ⟨h,?_⟩⟩
    have := hmax j h
    simp only [blockBytes]
    omega
  have hfit : 0+rank row (64*row.length) < 2^32 := by
    have := rank_le row (64*row.length)
    omega
  have hplace : pc = 64*(pc/64)+pc%64 := by omega
  have hbit : pc%64 < 64 := Nat.mod_lt _ (by decide)
  rw [denseIndex]
  simp only [blockBytes]
  rw [getElem?_cumulate _ hfit]
  cases hw : row[pc/64]? with
  | none =>
    have hmiss : get row pc = false := by simp [BitRows.get,hw]
    simp only [map_none,reduceCtorEq,false_iff]
    intro hi
    have := (hget pc).mpr (mem_of_getElem? hi)
    simp [hmiss] at this
  | some w => ?_
  have hbitget : get row pc = w.getLsbD (pc%64) := by simp [BitRows.get,hw]
  have hrank : rank row pc = rank row (64*(pc/64))+ones (w &&& ((1#64 <<< (pc%64))-1#64)) := by
    conv_lhs => rw [hplace]
    exact rank_split hw hbit
  simp only [map_some,shifted_and_one,Nat.zero_add]
  cases hpc : w.getLsbD (pc%64) with
  | false =>
    simp only [if_true,reduceCtorEq,false_iff]
    intro hi
    have := (hget pc).mpr (mem_of_getElem? hi)
    rw [hbitget,hpc] at this
    cases this
  | true => ?_
  simp only [true_eq_false,if_false,some.injEq]
  rw [← hrank]
  refine ⟨?_,rank_getElem hs hget⟩
  rintro rfl
  have hmem : pc ∈ startsPcs := (hget pc).mp (hbitget.trans hpc)
  obtain ⟨i,hi,hp⟩ := getElem_of_mem hmem
  have hi' : startsPcs[i]? = some pc := List.getElem?_eq_some_iff.mpr ⟨hi,hp⟩
  rw [rank_getElem hs hget hi']
  exact hi'

@[grind =]
def records (code : List UInt8) (limit : Nat) : (fuel pc : Nat) → List Decoded
  | 0, _ => []
  | fuel+1, pc =>
    if pc < limit then
      match decode code pc with
      | .error _ => []
      | .ok (insn,next) =>
        if next > u32Max then [] else ⟨pc,insn,next⟩ :: records code limit fuel next
    else []

/-- Where the records end. -/
def stop : Nat → List Decoded → Nat
  | pc, [] => pc
  | _, d :: l => stop d.next l

section
variable {code : List UInt8} {limit : Nat}

theorem record_eq (hlimit : limit ≤ u32Max) (fuel pc : Nat) (ops : List Instruction)
    (pcs : List Nat) :
    record code limit fuel pc ops pcs =
      (ops ++ (records code limit fuel pc).map Decoded.insn,
        pcs ++ (records code limit fuel pc).map Decoded.pc,stop pc (records code limit fuel pc)) := by
  induction fuel generalizing pc ops pcs with
  | zero => simp [record,records,stop]
  | succ fuel ih => ?_
  rw [record,records]
  by_cases hpc : pc < limit
  · rw [if_pos hpc,if_pos hpc]
    cases hdecode : decode code pc with
    | error e => simp [stop]
    | ok r => ?_
    obtain ⟨insn,next⟩ := r
    have hadv := decode_advances hdecode
    dsimp only
    by_cases hnext : next > u32Max
    · rw [if_pos (.inr hnext),if_pos hnext]
      simp [stop]
    have hwrap : pc%2^32 = pc := Nat.mod_eq_of_lt (by simp only [u32Max] at hlimit; omega)
    rw [if_neg (by omega),if_neg hnext,ih,hwrap]
    simp [stop]
  · simp [hpc,stop]

theorem mem_records (hlimit : limit ≤ u32Max) {fuel pc : Nat} (hfuel : limit ≤ pc+fuel)
    (d : Decoded) : d ∈ records code limit fuel pc ↔
      Walks code limit pc d.pc ∧ decode code d.pc = .ok (d.insn,d.next) ∧ d.next ≤ u32Max := by
  induction fuel generalizing pc with
  | zero =>
    simp only [records,not_mem_nil,false_iff]
    intro h
    have := h.1.first
    omega
  | succ fuel ih => ?_
  rw [records]
  by_cases hpc : pc < limit
  · rw [if_pos hpc]
    cases hdecode : decode code pc with
    | error e =>
      simp only [not_mem_nil,false_iff]
      rintro ⟨hwalk,hd,-⟩
      cases hwalk with
      | here => rw [hdecode] at hd; cases hd
      | on _ hd' _ => rw [hdecode] at hd'; cases hd'
    | ok r => ?_
    obtain ⟨insn,next⟩ := r
    have hadv := decode_advances hdecode
    dsimp only
    by_cases hnext : next > u32Max
    · rw [if_pos hnext]
      simp only [not_mem_nil,false_iff]
      rintro ⟨hwalk,hd,hle⟩
      cases hwalk with
      | here =>
        rw [hdecode] at hd
        cases hd
        omega
      | on _ hd' hrest =>
        rw [hdecode] at hd'
        cases hd'
        have := hrest.first
        omega
    rw [if_neg hnext,mem_cons,ih (by omega)]
    constructor
    · rintro (rfl | ⟨hwalk,hd,hle⟩)
      · exact ⟨.here hpc,hdecode,Nat.not_lt.mp hnext⟩
      · exact ⟨.on hpc hdecode hwalk,hd,hle⟩
    rintro ⟨hwalk,hd,hle⟩
    cases hwalk with
    | here =>
      rw [hdecode] at hd
      cases hd
      exact .inl rfl
    | on _ hd' hrest =>
      rw [hdecode] at hd'
      cases hd'
      exact .inr ⟨hrest,hd,hle⟩
  · rw [if_neg hpc]
    simp only [not_mem_nil,false_iff]
    intro h
    exact hpc h.1.first

theorem head_records (fuel pc : Nat) :
    ((records code limit fuel pc).map Decoded.pc ++ [stop pc (records code limit fuel pc)])[0]? =
      some pc := by
  cases fuel with
  | zero => rfl
  | succ fuel => ?_
  rw [records]
  split
  · split
    · rfl
    · split <;> rfl
  · rfl

theorem next_records (fuel pc i : Nat) :
    ((records code limit fuel pc).map Decoded.pc ++ [stop pc (records code limit fuel pc)])[i+1]? =
      (records code limit fuel pc)[i]?.map Decoded.next := by
  induction fuel generalizing pc i with
  | zero => simp [records]
  | succ fuel ih => ?_
  rw [records]
  split
  · split
    · simp
    rename_i insn next hdecode
    split
    · simp
    rw [map_cons,cons_append,getElem?_cons_succ,stop]
    cases i with
    | zero => exact head_records fuel next
    | succ i => rw [ih,getElem?_cons_succ]
  · simp

theorem records_ascending (hlimit : limit ≤ u32Max) {fuel pc : Nat} (hfuel : limit ≤ pc+fuel) :
    ((records code limit fuel pc).map Decoded.pc).Pairwise (· < ·) := by
  induction fuel generalizing pc with
  | zero => simp [records]
  | succ fuel ih => ?_
  rw [records]
  split
  · split
    · simp
    rename_i insn next hdecode
    have hadv := decode_advances hdecode
    split
    · simp
    rw [map_cons,pairwise_cons]
    refine ⟨fun p hp => ?_,ih (by omega)⟩
    obtain ⟨d,hd,rfl⟩ := mem_map.mp hp
    have := ((mem_records hlimit (by omega) d).mp hd).1.le
    exact Nat.lt_of_lt_of_le hadv this
  · simp

end

/-- A record of the walk over the unpadded code. -/
def IsRecord (code : List UInt8) (d : Decoded) : Prop :=
  Walks code (code.length-2) 0 d.pc ∧ decode code d.pc = .ok (d.insn,d.next) ∧ d.next ≤ u32Max

theorem stop_le {m pc : Nat} {l : List Decoded} (hpc : pc ≤ m) (h : ∀ d ∈ l, d.next ≤ m) :
    stop pc l ≤ m := by
  induction l generalizing pc with
  | nil => exact hpc
  | cons d l ih =>
    exact ih (h d mem_cons_self) fun e he => h e (mem_cons_of_mem d he)

/-- The stream holds these records, in this order. -/
structure Holds (q : QuickenedCode) (l : List Decoded) : Prop where
  entry : ∀ i, q.entry i = l[i]?
  ops : q.ops = l.map Decoded.insn
  pcs : q.pcs.take q.ops.length = l.map Decoded.pc
  starts : q.starts = buildStartIndex (l.map Decoded.pc)
  ascending : (l.map Decoded.pc).Pairwise (· < ·)
  fits : ∀ d ∈ l, d.pc ≤ u32Max

theorem build_holds {code : List UInt8} {q : QuickenedCode} (h : build code = some q) :
    q.code = code ∧ ∃ l, (∀ d, d ∈ l ↔ IsRecord code d) ∧ q.Holds l := by
  rw [build] at h
  split at h
  · cases h
  have hfit : code.length-2 ≤ u32Max := by omega
  generalize hl : records code (code.length-2) (code.length-2) 0 = l
  have hmem := @mem_records code _ hfit _ _ (show code.length-2 ≤ 0+(code.length-2) by omega)
  have hasc := @records_ascending code _ hfit _ _ (show code.length-2 ≤ 0+(code.length-2) by omega)
  have hnext := @next_records code (code.length-2) (code.length-2) 0
  rw [record_eq hfit] at h
  rw [hl] at h hmem hasc hnext
  simp only [nil_append] at h
  split at h
  · cases h
  obtain rfl := some.inj h
  have hstop : stop 0 l%2^32 = stop 0 l := by
    have : stop 0 l ≤ u32Max := stop_le (Nat.zero_le _) fun d hd => ((hmem d).mp hd).2.2
    exact Nat.mod_eq_of_lt (by simp only [u32Max] at this; omega)
  have htake : (l.map Decoded.pc ++ [stop 0 l]).take (l.map Decoded.insn).length = l.map Decoded.pc := by
    rw [length_map,take_append_of_le_length (by simp),take_of_length_le (by simp)]
  rw [hstop]
  refine ⟨rfl,l,hmem,?_,rfl,htake,by rw [htake],hasc,?_⟩
  · intro i
    simp only [entry,hnext,getElem?_map]
    cases hd : l[i]? with
    | none => simp
    | some d =>
      have hi := (List.getElem?_eq_some_iff.mp hd).1
      rw [getElem?_append_left (by simpa using hi),getElem?_map,hd]
      rfl
  intro d hd
  have := ((hmem d).mp hd).1.bound
  omega

theorem build_eq_none {code : List UInt8} (hlen : code.length-2 ≤ u32Max) :
    build code = none ↔ ∀ d, ¬IsRecord code d := by
  have hmem := @mem_records code _ hlen _ _ (show code.length-2 ≤ 0+(code.length-2) by omega)
  rw [build]
  by_cases hzero : code.length-2 = 0
  · rw [if_pos (.inl hzero)]
    simp only [true_iff]
    intro d hd
    have := hd.1.first
    omega
  rw [if_neg (by omega),record_eq hlen]
  simp only [nil_append,List.isEmpty_iff,map_eq_nil_iff,ite_eq_left_iff,reduceCtorEq,
    imp_false,Decidable.not_not]
  exact eq_nil_iff_forall_not_mem.trans (forall_congr' fun d => not_congr (hmem d))

/-- What a stream has recorded of a padded array. -/
structure Memoizes (q : QuickenedCode) (code : List UInt8) : Prop where
  source : q.code = code
  entries : ∀ d, IsRecord code d ↔ ∃ i, q.entry i = some d
  count : ∀ i, (q.entry i).isSome = true ↔ i < q.ops.length
  ascending : ∀ i j d e, q.entry i = some d → q.entry j = some e → i < j → d.pc < e.pc

/-- Every lookup answers a pc with the record that starts there, and no other pc. -/
structure Finds (q : QuickenedCode) : Prop where
  hinted : ∀ pc hint i, q.indexOfPc pc hint = some i ↔ ∃ d, q.entry i = some d ∧ d.pc = pc
  direct : ∀ pc i, q.indexOfPcDirect pc = some i ↔ ∃ d, q.entry i = some d ∧ d.pc = pc
  searched : ∀ pc i, q.searchIndex pc = some i ↔ ∃ d, q.entry i = some d ∧ d.pc = pc
  dense : ∀ blocks, q.starts = some blocks →
    ∀ pc i, denseIndex blocks pc = some i ↔ ∃ d, q.entry i = some d ∧ d.pc = pc
  resolved : ∀ pc op next, q.resolve pc = some (op,next) ↔ ∃ i, q.entry i = some ⟨pc,op,next⟩

namespace Holds
variable {q : QuickenedCode} {l : List Decoded} (h : q.Holds l)

include h

variable (pc : Nat)

theorem startsAt (i : Nat) :
    (l.map Decoded.pc)[i]? = some pc ↔ ∃ d, q.entry i = some d ∧ d.pc = pc := by
  simp [h.entry]

theorem searched (i : Nat) :
    q.searchIndex pc = some i ↔ ∃ d, q.entry i = some d ∧ d.pc = pc := by
  rw [searchIndex,h.pcs,← h.startsAt]
  split
  · rename_i hbig
    simp only [reduceCtorEq,false_iff]
    intro hi
    obtain ⟨d,hd,rfl⟩ := mem_map.mp (mem_of_getElem? hi)
    have := h.fits d hd
    omega
  · exact binarySearch_eq_some h.ascending

theorem dense {blocks : List PcBlock} (hblocks : q.starts = some blocks) (pc i : Nat) :
    denseIndex blocks pc = some i ↔ ∃ d, q.entry i = some d ∧ d.pc = pc := by
  rw [← h.startsAt]
  exact denseIndex_eq_some h.ascending (h.starts.symm.trans hblocks)

theorem direct (i : Nat) :
    q.indexOfPcDirect pc = some i ↔ ∃ d, q.entry i = some d ∧ d.pc = pc := by
  rw [indexOfPcDirect]
  cases hstarts : q.starts with
  | none => exact h.searched pc i
  | some blocks => exact h.dense hstarts pc i

theorem entry_inj {i j : Nat} {d e : Decoded} (hi : q.entry i = some d) (hj : q.entry j = some e)
    (hpc : d.pc = e.pc) : i = j := by
  have hi' := (h.startsAt d.pc i).mpr ⟨d,hi,rfl⟩
  have hj' := (h.startsAt d.pc j).mpr ⟨e,hj,hpc.symm⟩
  have := (binarySearch_eq_some h.ascending).mpr hi'
  rw [(binarySearch_eq_some h.ascending).mpr hj'] at this
  exact (some.inj this).symm

theorem hinted (hint i : Nat) :
    q.indexOfPc pc hint = some i ↔ ∃ d, q.entry i = some d ∧ d.pc = pc := by
  rw [indexOfPc]
  split
  · rename_i hhint
    have hpc : (l.map Decoded.pc)[hint]? = some pc := by
      rw [← h.pcs,getElem?_take_of_lt hhint.1]
      exact hhint.2
    obtain ⟨d,hd,hdpc⟩ := (h.startsAt pc hint).mp hpc
    constructor
    · intro hfound
      obtain rfl := some.inj hfound
      exact ⟨d,hd,hdpc⟩
    rintro ⟨e,he,hepc⟩
    rw [h.entry_inj hd he (hdpc.trans hepc.symm)]
  · exact h.direct pc i

theorem resolved (op : Instruction) (next : Nat) :
    q.resolve pc = some (op,next) ↔ ∃ i, q.entry i = some ⟨pc,op,next⟩ := by
  constructor
  · intro hres
    simp only [resolve,bind_eq_bind,bind_eq_some_iff,some.injEq,
      Prod.mk.injEq] at hres
    obtain ⟨i,hi,op',hop,next',hnext,rfl,rfl⟩ := hres
    obtain ⟨d,hd,rfl⟩ := (h.direct pc i).mp hi
    refine ⟨i,hd.trans ?_⟩
    simp only [QuickenedCode.entry,hop,hnext,bind_eq_bind,bind_eq_some_iff,bind_some,
      some.injEq] at hd
    obtain ⟨pc',hpc,rfl⟩ := hd
    rfl
  rintro ⟨i,hi⟩
  have hdirect := (h.direct pc i).mpr ⟨_,hi,rfl⟩
  simp only [QuickenedCode.entry,bind_eq_bind,bind_eq_some_iff,some.injEq,
    Decoded.mk.injEq] at hi
  obtain ⟨pc',hpc,op',hop,next',hnext,rfl,rfl,rfl⟩ := hi
  simp [resolve,hdirect,hop,hnext]

theorem finds : q.Finds := ⟨h.hinted,h.direct,h.searched,fun _ => h.dense,h.resolved⟩

theorem memoizes {code : List UInt8} (hcode : q.code = code) (hmem : ∀ d, d ∈ l ↔ IsRecord code d) :
    q.Memoizes code := by
  refine ⟨hcode,fun d => ?_,fun i => ?_,?_⟩
  · rw [← hmem,mem_iff_getElem?]
    exact exists_congr fun i => by rw [h.entry]
  · rw [h.entry,h.ops]
    simp
  intro i j d e hd he hij
  obtain ⟨hi,hdi⟩ := List.getElem?_eq_some_iff.mp ((h.startsAt d.pc i).mpr ⟨d,hd,rfl⟩)
  obtain ⟨hj,hej⟩ := List.getElem?_eq_some_iff.mp ((h.startsAt e.pc j).mpr ⟨e,he,rfl⟩)
  rw [← hdi,← hej]
  exact pairwise_iff_getElem.mp h.ascending i j hi hj hij

end Holds

/-- A stream memoizes the linear walk and every lookup finds its records; there is none only when
the walk records nothing. -/
theorem build_exact (code : List UInt8) (hlen : code.length-2 ≤ u32Max) :
    (build code = none ↔ ∀ d, ¬IsRecord code d) ∧
      ∀ q, build code = some q → q.Memoizes code ∧ q.Finds := by
  refine ⟨build_eq_none hlen,fun q hq => ?_⟩
  obtain ⟨hcode,l,hmem,h⟩ := build_holds hq
  exact ⟨h.memoizes hcode hmem,h.finds⟩

/-- A constant and a return, padded. -/
theorem build_exact_iconstIreturn :
    ∃ q, build [0x03,0xac,0,0] = some q ∧ q.Memoizes [0x03,0xac,0,0] ∧ q.Finds ∧
      q.indexOfPc 1 7 = some 1 := by
  have h := build_exact [0x03,0xac,0,0] (by decide)
  cases hq : build [0x03,0xac,0,0] with
  | none => exact absurd hq (by decide)
  | some q => ?_
  obtain ⟨hm,hf⟩ := h.2 q hq
  refine ⟨q,rfl,hm,hf,?_⟩
  have : build [0x03,0xac,0,0] = some ⟨[0x03,0xac,0,0],[.iconst0,.ireturn],[0,1,2],some [⟨3,0⟩]⟩ := by
    decide
  obtain rfl := some.inj (hq.symm.trans this)
  decide

theorem decode_nop (n : Nat) : decode (replicate (n+1) 0) 0 = .ok (.nop,1) := by
  rfl

theorem build_oversized {code : List UInt8} (h : u32Max < code.length-2) : build code = none := by
  exact if_pos (.inr h)

/-- Four gigabytes of `nop` are walked from 0, and no stream is built. -/
theorem build_none_nops :
    Walks (replicate (2^32+2) 0) (2^32) 0 0 ∧
      decode (replicate (2^32+2) 0) 0 = .ok (.nop,1) ∧
      build (replicate (2^32+2) 0) = none :=
  ⟨.here (by decide),decode_nop _,build_oversized (by rw [length_replicate]; decide)⟩

end QuickenedCode
end CratonVM.Reader
