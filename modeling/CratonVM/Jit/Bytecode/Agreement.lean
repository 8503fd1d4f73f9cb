import CratonVM.Jit.Bytecode.Decode

/-!
On verified code the decoder reads what the class file format says.
-/
namespace CratonVM.Jit.Bytecode
open Jvms List Option Function
open Bool hiding not_or
variable {code : Code} {pc : Nat} {insn : Insn}

theorem byteAt_lt {b : Nat} (h : byteAt code pc = some b) : b < 256 := by
  obtain ⟨byte,_,rfl⟩ := map_eq_some_iff.mp h
  exact byte.toNat_lt

variable {op : Nat}

theorem fixedLen_eq {len : Nat} (hop : op < 256) (h : lengthOf op = some len) :
    fixedLen op = len := by
  have hall : ∀ op < 256, ∀ len < 8, lengthOf op = some len → fixedLen op = len := by decide +kernel
  have hsmall : ∀ op < 256, ∀ l ∈ lengthOf op, l < 8 := by decide +kernel
  exact hall op hop len (hsmall op hop len h) h

theorem decode_cases (h : decode code pc = some insn) :
    ∃ op, byteAt code pc = some op ∧ opAt code pc = op ∧ op < 256 ∧
      (op = 0xc4 ∧ wide code pc = some insn ∨ op = 0xaa ∧ tableswitch code pc = some insn ∨
        op = 0xab ∧ lookupswitch code pc = some insn ∨
        (op ≠ 0xc4 ∧ op ≠ 0xaa ∧ op ≠ 0xab) ∧ plain code pc op = some insn) := by
  obtain ⟨op,hop,h⟩ := bind_eq_some_iff.mp h
  refine ⟨op,hop,by simp [opAt,hop],byteAt_lt hop,?_⟩
  split at h
  · exact .inl ⟨‹_›,h⟩
  split at h
  · exact .inr (.inl ⟨‹_›,h⟩)
  split at h
  · exact .inr (.inr (.inl ⟨‹_›,h⟩))
  · exact .inr (.inr (.inr ⟨⟨‹_›,‹_›,‹_›⟩,h⟩))

theorem plain_eq_some (h : plain code pc op = some insn) :
    ∃ len targets, lengthOf op = some len ∧ jumps code pc op = some targets ∧
      insn = ⟨len,targets,goesOn op,loads code pc op,stores code pc op⟩ := by
  obtain ⟨len,hlen,h⟩ := bind_eq_some_iff.mp h
  obtain ⟨targets,htargets,h⟩ := bind_eq_some_iff.mp h
  exact ⟨len,targets,hlen,htargets,(some.inj h).symm⟩

theorem wide_eq_some (h : wide code pc = some insn) :
    ∃ op idx, byteAt code (pc+1) = some op ∧ readU16 code (pc+2) = some idx ∧
      (within 0x15 0x19 op = true ∧ insn = ⟨4,[],true,some idx,none⟩ ∨
        within 0x36 0x3a op = true ∧ insn = ⟨4,[],true,none,some idx⟩ ∨
        op = 0x84 ∧ insn = ⟨6,[],true,some idx,some idx⟩) := by
  obtain ⟨op,hop,h⟩ := bind_eq_some_iff.mp h
  obtain ⟨idx,hidx,h⟩ := bind_eq_some_iff.mp h
  refine ⟨op,idx,hop,hidx,?_⟩
  split at h
  · exact .inl ⟨‹_›,(some.inj h).symm⟩
  split at h
  · exact .inr (.inl ⟨‹_›,(some.inj h).symm⟩)
  split at h
  · exact .inr (.inr ⟨‹_›,(some.inj h).symm⟩)
  · cases h

theorem tableswitch_eq_some (h : tableswitch code pc = some insn) :
    ∃ default_ low high offs, readI32 code (switchOperandBase pc) = some default_ ∧
      readI32 code (switchOperandBase pc+4) = some low ∧
      readI32 code (switchOperandBase pc+8) = some high ∧ low ≤ high ∧
      offsets code (switchOperandBase pc+12) 4 (high-low+1).toNat = some offs ∧
      insn = ⟨switchOperandBase pc+12+(high-low+1).toNat*4-pc,
        (default_ :: offs).map ((pc : Int)+·),false,none,none⟩ := by
  obtain ⟨default_,hdefault,h⟩ := bind_eq_some_iff.mp h
  obtain ⟨low,hlow,h⟩ := bind_eq_some_iff.mp h
  obtain ⟨high,hhigh,h⟩ := bind_eq_some_iff.mp h
  split at h
  · rename_i hle
    obtain ⟨offs,hoffs,h⟩ := bind_eq_some_iff.mp h
    exact ⟨default_,low,high,offs,hdefault,hlow,hhigh,hle,hoffs,(some.inj h).symm⟩
  · cases h

theorem lookupswitch_eq_some (h : lookupswitch code pc = some insn) :
    ∃ default_ npairs offs, readI32 code (switchOperandBase pc) = some default_ ∧
      readI32 code (switchOperandBase pc+4) = some npairs ∧ 0 ≤ npairs ∧
      offsets code (switchOperandBase pc+12) 8 npairs.toNat = some offs ∧
      insn = ⟨switchOperandBase pc+8+npairs.toNat*8-pc,
        (default_ :: offs).map ((pc : Int)+·),false,none,none⟩ := by
  obtain ⟨default_,hdefault,h⟩ := bind_eq_some_iff.mp h
  obtain ⟨npairs,hnpairs,h⟩ := bind_eq_some_iff.mp h
  split at h
  · rename_i hle
    obtain ⟨offs,hoffs,h⟩ := bind_eq_some_iff.mp h
    exact ⟨default_,npairs,offs,hdefault,hnpairs,hle,hoffs,(some.inj h).symm⟩
  · cases h

theorem tableswitchCount_eq {low high : Int} (hlow : readI32 code (switchOperandBase pc+4) = some low)
    (hhigh : readI32 code (switchOperandBase pc+8) = some high) (hle : low ≤ high)
    (hfit : (high-low+1).toNat < 65536) :
    tableswitchCount code pc = some (high-low+1).toNat := by
  have hcap : ¬ (high-low+1).toNat > maxTableswitchCount := by
    unfold maxTableswitchCount
    omega
  simp only [tableswitchCount,hlow,hhigh,bind_eq_bind,bind_some,checkedTableswitchCount]
  rw [if_neg (by omega),if_neg hcap]

theorem lookupswitchNpairs_eq {npairs : Int}
    (h : readI32 code (switchOperandBase pc+4) = some npairs) (hle : 0 ≤ npairs)
    (hfit : npairs.toNat < 65536) : lookupswitchNpairs code pc = some npairs.toNat := by
  have hcap : ¬ npairs.toNat > maxLookupswitchNpairs := by
    unfold maxLookupswitchNpairs
    omega
  simp only [lookupswitchNpairs,h,bind_eq_bind,bind_some,checkedLookupswitchNpairs]
  rw [if_neg (by omega),if_neg hcap]

section
variable (h : decode code pc = some insn) (hfit : pc+insn.length < 65536)
include h hfit

theorem step_eq : step code pc = insn.length := by
  obtain ⟨op,hop,_,hlt,hcases⟩ := decode_cases h
  have hbase := lt_switchOperandBase pc
  unfold step insnLen
  rw [hop]
  simp only [bind_eq_bind,bind_some]
  rcases hcases with ⟨rfl,h⟩ | ⟨rfl,h⟩ | ⟨rfl,h⟩ | ⟨⟨h1,h2,h3⟩,h⟩
  · obtain ⟨op,idx,hop',_,⟨hw,rfl⟩ | ⟨hw,rfl⟩ | ⟨rfl,rfl⟩⟩ := wide_eq_some h
    · have hne : op ≠ 0x84 := by
        rintro rfl
        cases hw
      simp [hop',hne]
    · have hne : op ≠ 0x84 := by
        rintro rfl
        cases hw
      simp [hop',hne]
    · simp [hop']
  · obtain ⟨_,low,high,_,_,hlow,hhigh,hle,_,rfl⟩ := tableswitch_eq_some h
    dsimp only at hfit ⊢
    rw [tableswitchCount_eq hlow hhigh hle (by omega)]
    simp
    omega
  · obtain ⟨_,npairs,_,_,hnpairs,hle,_,rfl⟩ := lookupswitch_eq_some h
    dsimp only at hfit ⊢
    rw [lookupswitchNpairs_eq hnpairs hle (by omega)]
    simp
    omega
  obtain ⟨len,targets,hlen,_,rfl⟩ := plain_eq_some h
  rw [if_neg h1,if_neg h2,if_neg h3]
  exact fixedLen_eq hlt hlen

end

theorem isUnconditional_eq (h : decode code pc = some insn) :
    isUnconditional (opAt code pc) = !insn.falls := by
  obtain ⟨op,hop,hat,hlt,hcases⟩ := decode_cases h
  rw [hat]
  rcases hcases with ⟨rfl,h⟩ | ⟨rfl,h⟩ | ⟨rfl,h⟩ | ⟨⟨h1,h2,h3⟩,h⟩
  · obtain ⟨op,idx,_,_,⟨_,rfl⟩ | ⟨_,rfl⟩ | ⟨_,rfl⟩⟩ := wide_eq_some h
    all_goals rfl
  · obtain ⟨_,_,_,_,_,_,_,_,_,rfl⟩ := tableswitch_eq_some h
    rfl
  · obtain ⟨_,_,_,_,_,_,_,rfl⟩ := lookupswitch_eq_some h
    rfl
  obtain ⟨len,targets,hlen,_,rfl⟩ := plain_eq_some h
  have hall : ∀ op < 256, (lengthOf op).isSome = true → isUnconditional op = !goesOn op := by
    decide +kernel
  exact hall op hlt (by simp [hlen])

def LocalAccess.read (a : LocalAccess) : Option Nat := if a.isUse then some a.idx else none

def LocalAccess.written (a : LocalAccess) : Option Nat := if a.isDef then some a.idx else none

theorem localAccess_plain (hat : opAt code pc = op) (hlt : op < 256) (hwide : op ≠ 0xc4) :
    (localAccess code pc).bind LocalAccess.read = loads code pc op ∧
      (localAccess code pc).bind LocalAccess.written = stores code pc op := by
  have himplicit : ∀ op < 256, ∀ a ∈ implicitAccess op,
      operandAccess op = none ∧ (within 0x15 0x19 op || op = 0x84) = false ∧
      (within 0x36 0x3a op || op = 0x84) = false ∧
      (if within 0x1a 0x2d op then some ((op-0x1a)%4) else none) = a.read ∧
      (if within 0x3b 0x4e op then some ((op-0x3b)%4) else none) = a.written := by decide +kernel
  have hoperand : ∀ op < 256, implicitAccess op = none → operandAccess op ≠ none →
      operandAccess op = some (within 0x15 0x19 op || op = 0x84,within 0x36 0x3a op || op = 0x84) ∧
      within 0x1a 0x2d op = false ∧ within 0x3b 0x4e op = false := by decide +kernel
  have hneither : ∀ op < 256, implicitAccess op = none → operandAccess op = none →
      (within 0x15 0x19 op || op = 0x84) = false ∧ (within 0x36 0x3a op || op = 0x84) = false ∧
      within 0x1a 0x2d op = false ∧ within 0x3b 0x4e op = false := by decide +kernel
  unfold localAccess loads stores
  dsimp only
  rw [hat]
  cases hi : implicitAccess op with
  | some a =>
    obtain ⟨_,hl,hs,hread,hwritten⟩ := himplicit op hlt a hi
    simp only [hl,hs,hread,hwritten,bind_some]
    exact ⟨rfl,rfl⟩
  | none => ?_
  cases ho : operandAccess op with
  | none =>
    obtain ⟨hl,hs,hl',hs'⟩ := hneither op hlt hi ho
    simp [hl,hs,hl',hs',hwide]
  | some k => ?_
  obtain ⟨hk,hl',hs'⟩ := hoperand op hlt hi (by simp [ho])
  obtain rfl := some.inj (ho.symm.trans hk)
  simp only [hl',hs']
  cases byteAt code (pc+1) with
  | none => simp
  | some idx => simp [LocalAccess.read,LocalAccess.written]

theorem localAccess_eq (h : decode code pc = some insn) :
    (localAccess code pc).bind LocalAccess.read = insn.reads ∧
      (localAccess code pc).bind LocalAccess.written = insn.writes := by
  obtain ⟨op,hop,hat,hlt,hcases⟩ := decode_cases h
  rcases hcases with ⟨rfl,h⟩ | ⟨rfl,h⟩ | ⟨rfl,h⟩ | ⟨⟨h1,h2,h3⟩,h⟩
  · obtain ⟨op,idx,hop',hidx,hw⟩ := wide_eq_some h
    have hi : implicitAccess 0xc4 = none := by decide
    have ho : operandAccess 0xc4 = none := by decide
    unfold localAccess
    simp only [hat,hi,ho,hop',hidx,if_pos,bind_eq_bind,bind_some]
    rcases hw with ⟨hw,rfl⟩ | ⟨hw,rfl⟩ | ⟨rfl,rfl⟩
    · simp [operandAccess,hw,LocalAccess.read,LocalAccess.written]
    · have hl : within 0x15 0x19 op = false := by
        simp only [within,and_eq_true,decide_eq_true_eq,and_eq_false_iff,
          decide_eq_false_iff_not] at hw ⊢
        omega
      simp [operandAccess,hw,hl,LocalAccess.read,LocalAccess.written]
    · exact ⟨rfl,rfl⟩
  · obtain ⟨_,_,_,_,_,_,_,_,_,rfl⟩ := tableswitch_eq_some h
    exact localAccess_plain hat hlt (by decide)
  · obtain ⟨_,_,_,_,_,_,_,rfl⟩ := lookupswitch_eq_some h
    exact localAccess_plain hat hlt (by decide)
  obtain ⟨len,targets,hlen,_,rfl⟩ := plain_eq_some h
  exact localAccess_plain hat hlt h1

variable {off : Int}

theorem addSigned_eq {q : Nat} (h : (pc : Int)+off = q) : addSigned pc off = some q := by
  unfold addSigned
  rw [if_neg (by omega),h]
  rfl

theorem offsetBranchTarget_of_jumps {q : Nat} {targets : List Int} (hop : byteAt code pc = some op)
    (h : jumps code pc op = some targets) (hq : (q : Int) ∈ targets) :
    offsetBranchTarget code pc = some q := by
  unfold jumps at h
  unfold offsetBranchTarget branchOffset
  rw [hop]
  simp only [bind_eq_bind,bind_some]
  split at h
  · rename_i hshort
    obtain ⟨off,hoff,rfl⟩ := map_eq_some_iff.mp h
    have hbranch : (within 0x99 0xa8 op || op = 0xc6 || op = 0xc7) = true := by
      simp only [within,and_eq_true,or_eq_true,decide_eq_true_eq] at hshort ⊢
      omega
    rw [if_pos hbranch,hoff]
    exact addSigned_eq (mem_singleton.mp hq).symm
  split at h
  · rename_i hlong
    subst hlong
    obtain ⟨off,hoff,rfl⟩ := map_eq_some_iff.mp h
    rw [if_neg (by decide),if_pos (by decide),hoff]
    exact addSigned_eq (mem_singleton.mp hq).symm
  cases h
  cases hq

theorem offsets_mem {first width n : Nat} {offs : List Int} (h : offsets code first width n = some offs) (hoff : off ∈ offs) : ∃ i, i < n ∧ readI32 code (first+i*width) = some off := by
  induction n generalizing offs with
  | zero =>
    cases h
    cases hoff
  | succ n ih => ?_
  obtain ⟨earlier,hearlier,h⟩ := bind_eq_some_iff.mp h
  obtain ⟨last,hlast,h⟩ := bind_eq_some_iff.mp h
  cases h
  rcases mem_append.mp hoff with hoff | hoff
  · obtain ⟨i,hi,hread⟩ := ih hearlier hoff
    exact ⟨i,Nat.lt_succ_of_lt hi,hread⟩
  rw [mem_singleton.mp hoff]
  exact ⟨n,Nat.lt_succ_self n,hlast⟩

theorem entryTarget_eq {codeLen pos q : Nat} (h : readI32 code pos = some off)
    (hq : (pc : Int)+off = q) (hlt : q < codeLen) : entryTarget code codeLen pc pos = some q := by
  simp [entryTarget,h,addSigned_eq hq,hlt]

theorem mem_entryTargets {codeLen base width shift count i q : Nat} (hi : i < count)
    (hfit : base+count*width ≤ codeLen)
    (h : entryTarget code codeLen pc (base+i*width+shift) = some q) :
    q ∈ entryTargets code codeLen pc base width shift count := by
  have hall : ((range count).takeWhile fun j => base+j*width+width ≤ codeLen) =
      range count := by
    refine takeWhile_eq_self_iff.mpr fun j hj => ?_
    have hstep : (j+1)*width ≤ count*width := Nat.mul_le_mul_right width (mem_range.mp hj)
    rw [Nat.add_mul,Nat.one_mul] at hstep
    exact decide_eq_true (by omega)
  unfold entryTargets
  rw [hall]
  exact mem_filterMap.mpr ⟨i,mem_range.mpr hi,h⟩

section
variable {codeLen : Nat} (hlen : codeLen ≤ code.length) (hshort : codeLen < 65536)
  (hfit : pc+insn.length ≤ codeLen)
include hlen hshort hfit

theorem mem_switchTargets_table {q : Nat} (hat : opAt code pc = 0xaa)
    (h : tableswitch code pc = some insn) (hq : (q : Int) ∈ insn.targets) (hlt : q < codeLen) :
    q ∈ switchTargetsLenient code codeLen pc := by
  obtain ⟨default_,low,high,offs,hdefault,hlow,hhigh,hle,hoffs,rfl⟩ := tableswitch_eq_some h
  have hbase := lt_switchOperandBase pc
  dsimp only at hfit hq
  have hcount := tableswitchCount_eq hlow hhigh hle (by omega)
  unfold switchTargetsLenient
  rw [Nat.min_eq_left hlen,if_neg (by omega),if_neg (by omega),if_pos hat,if_neg (by omega),hcount]
  rcases mem_cons.mp hq with hq | hq
  · refine mem_append_left _ ?_
    rw [entryTarget_eq hdefault hq.symm hlt]
    exact mem_singleton.mpr rfl
  obtain ⟨off,hoff,hq⟩ := mem_map.mp hq
  obtain ⟨i,hi,hread⟩ := offsets_mem hoffs hoff
  exact mem_append_right _ (mem_entryTargets hi (by omega) (entryTarget_eq hread hq hlt))

theorem mem_switchTargets_lookup {q : Nat} (hat : opAt code pc = 0xab)
    (h : lookupswitch code pc = some insn) (hq : (q : Int) ∈ insn.targets) (hlt : q < codeLen) :
    q ∈ switchTargetsLenient code codeLen pc := by
  obtain ⟨default_,npairs,offs,hdefault,hnpairs,hle,hoffs,rfl⟩ := lookupswitch_eq_some h
  have hbase := lt_switchOperandBase pc
  dsimp only at hfit hq
  have hcount := lookupswitchNpairs_eq hnpairs hle (by omega)
  unfold switchTargetsLenient
  rw [Nat.min_eq_left hlen,if_neg (by omega),if_neg (by omega),if_neg (by omega),if_neg (by omega),
    hcount]
  rcases mem_cons.mp hq with hq | hq
  · refine mem_append_left _ ?_
    rw [entryTarget_eq hdefault hq.symm hlt]
    exact mem_singleton.mpr rfl
  obtain ⟨off,hoff,hq⟩ := mem_map.mp hq
  obtain ⟨i,hi,hread⟩ := offsets_mem hoffs hoff
  refine mem_append_right _ (mem_entryTargets hi (by omega) (entryTarget_eq ?_ hq hlt))
  rw [← hread]
  congr 1
  omega

theorem target_found (h : decode code pc = some insn) {q : Nat} (hq : (q : Int) ∈ insn.targets)
    (hlt : q < codeLen) : offsetBranchTarget code pc = some q ∨
      (opAt code pc = 0xaa ∨ opAt code pc = 0xab) ∧ q ∈ switchTargetsLenient code codeLen pc := by
  obtain ⟨op,hop,hat,_,hcases⟩ := decode_cases h
  rcases hcases with ⟨rfl,h⟩ | ⟨rfl,h⟩ | ⟨rfl,h⟩ | ⟨_,h⟩
  · obtain ⟨op,idx,_,_,⟨_,rfl⟩ | ⟨_,rfl⟩ | ⟨_,rfl⟩⟩ := wide_eq_some h
    all_goals cases hq
  · exact .inr ⟨.inl hat,mem_switchTargets_table hlen hshort hfit hat h hq hlt⟩
  · exact .inr ⟨.inr hat,mem_switchTargets_lookup hlen hshort hfit hat h hq hlt⟩
  obtain ⟨len,targets,_,htargets,rfl⟩ := plain_eq_some h
  exact .inl (offsetBranchTarget_of_jumps hop htargets hq)

end

/-- `pc` is where stepping from `start` arrives. -/
inductive Reaches (code : Code) (start : Nat) : Nat → Prop where
  | refl : Reaches code start start
  | next {pc : Nat} : Reaches code start pc → Reaches code start (pc+step code pc)

namespace Reaches
variable {code : Code} {a b p q : Nat}

theorem le (h : Reaches code a p) : a ≤ p := by
  induction h with
  | refl => exact Nat.le_refl a
  | next _ ih => omega

theorem trans (h : Reaches code a p) (h' : Reaches code p q) : Reaches code a q := by
  induction h' with
  | refl => exact h
  | next _ ih => exact ih.next

theorem iterate (code : Code) (a n : Nat) : Reaches code a ((fun pc => pc+step code pc)^[n] a) := by
  induction n with
  | zero => exact .refl
  | succ n ih =>
    rw [Function.iterate_succ_apply']
    exact ih.next

theorem exists_iterate (h : Reaches code a p) : ∃ n, (fun pc => pc+step code pc)^[n] a = p := by
  induction h with
  | refl => exact ⟨0,rfl⟩
  | next _ ih =>
    obtain ⟨n,rfl⟩ := ih
    exact ⟨n+1,Function.iterate_succ_apply' _ _ _⟩

theorem strictMono_iterate (code : Code) (a : Nat) :
    StrictMono fun n => (fun pc => pc+step code pc)^[n] a := by
  refine strictMono_nat_of_lt_succ fun n => ?_
  have hpos := step_pos code ((fun pc => pc+step code pc)^[n] a)
  rw [Function.iterate_succ_apply']
  omega

theorem of_le (hp : Reaches code a p) (hq : Reaches code a q) (hle : p ≤ q) : Reaches code p q := by
  obtain ⟨n,rfl⟩ := hp.exists_iterate
  obtain ⟨m,rfl⟩ := hq.exists_iterate
  have hnm := (strictMono_iterate code a).le_iff_le.mp hle
  obtain ⟨k,rfl⟩ := Nat.exists_eq_add_of_le hnm
  rw [Nat.add_comm,Function.iterate_add_apply]
  exact iterate code _ k

theorem next_le (hp : Reaches code a p) (hq : Reaches code a q) (hlt : p < q) :
    p+step code p ≤ q := by
  obtain ⟨n,rfl⟩ := hp.exists_iterate
  obtain ⟨m,rfl⟩ := hq.exists_iterate
  have hnm := (strictMono_iterate code a).lt_iff_lt.mp hlt
  have hle := (strictMono_iterate code a).le_iff_le.mpr hnm
  rw [Function.iterate_succ_apply'] at hle
  exact hle

theorem eq_or_next (h : Reaches code p q) : q = p ∨ Reaches code (p+step code p) q := by
  induction h with
  | refl => exact .inl rfl
  | next _ ih =>
    rcases ih with rfl | ih
    · exact .inr .refl
    · exact .inr ih.next

end Reaches

variable {code : Code} {codeLen : Nat} {handlers : List HandlerRange}

/-- Control goes on to `q`. -/
def Next (code : Code) (pc q : Nat) : Prop :=
  ∃ insn, decode code pc = some insn ∧
    (insn.falls = true ∧ q = pc+insn.length ∨ (q : Int) ∈ insn.targets)

def Leaves (handlers : List HandlerRange) (pc q : Nat) : Prop :=
  ∃ h ∈ handlers, h.startPc ≤ pc ∧ pc < h.endPc ∧ q = h.handlerPc

/-- The stores of a `long` and of a `double`. -/
def isPairStore (op : Nat) : Bool := op = 0x37 || op = 0x39 || within 0x3f 0x42 op || within 0x47 0x4a op

def storesPair (code : Code) (pc : Nat) : Bool :=
  isPairStore (opAt code pc) || (opAt code pc = 0xc4 && isPairStore (opAt code (pc+1)))

/-- The instruction overwrites the local, as the second half of a pair too. -/
def Overwrites (code : Code) (pc slot : Nat) : Prop :=
  ∃ insn w, decode code pc = some insn ∧ insn.writes = some w ∧
    (slot = w ∨ storesPair code pc = true ∧ slot = w+1)

def InCode (code : Code) (codeLen pc : Nat) : Prop := Reaches code 0 pc ∧ pc < codeLen

section
variable (hv : Verified code codeLen handlers)
include hv

theorem verified_insn {p : Nat} (hp : Starts code p) (hlt : p < codeLen) {insn : Insn}
    (hdec : decode code p = some insn) : step code p = insn.length ∧ p+insn.length ≤ codeLen ∧
      (insn.falls = true → p+insn.length < codeLen) ∧
      ∀ t ∈ insn.targets, ∃ q, t = (q : Nat) ∧ Starts code q ∧ q < codeLen := by
  obtain ⟨insn',hdec',hfit,hfalls,htargets⟩ := hv.decodes hp hlt
  rw [hdec] at hdec'
  cases hdec'
  have hshort := hv.short
  exact ⟨step_eq hdec (by omega),hfit,hfalls,htargets⟩

theorem inCode_of_starts {p : Nat} (hp : Starts code p) (hlt : p < codeLen) :
    InCode code codeLen p := by
  refine ⟨?_,hlt⟩
  induction hp with
  | zero => exact .refl
  | @next pc insn hp hdec ih =>
    have hlt' : pc < codeLen := by omega
    rw [← (verified_insn hv hp hlt' hdec).1]
    exact (ih hlt').next

theorem next_starts {p q : Nat} (hp : Starts code p) (hlt : p < codeLen) (h : Next code p q) :
    Starts code q ∧ q < codeLen := by
  obtain ⟨insn,hdec,⟨hfalls,rfl⟩ | ht⟩ := h
  · exact ⟨.next hp hdec,(verified_insn hv hp hlt hdec).2.2.1 hfalls⟩
  obtain ⟨q',hq,hstarts⟩ := (verified_insn hv hp hlt hdec).2.2.2 _ ht
  cases Int.ofNat.inj hq
  exact hstarts

theorem leaves_starts {p q : Nat} (h : Leaves handlers p q) : Starts code q ∧ q < codeLen := by
  obtain ⟨r,hr,-,-,rfl⟩ := h
  exact hv.handler r hr

end

def lineFrom (code : Code) (codeLen : Nat) : (left : Nat) → (pc : Nat) → Option (List Nat)
  | 0, _ => none
  | left+1, pc =>
    if pc < codeLen then do
      let insn ← decode code pc
      let rest ← lineFrom code codeLen left (pc+insn.length)
      pure (pc::rest)
    else some []

/-- Whether the method is made of whole instructions that lead to instructions. -/
def verifies (code : Code) (codeLen : Nat) (handlers : List HandlerRange) : Bool :=
  match lineFrom code codeLen (codeLen+1) 0 with
  | none => false
  | some line =>
    decide (0 < codeLen ∧ codeLen < 65536 ∧ codeLen ≤ code.length) &&
    (line.all fun pc => (decode code pc).all fun insn =>
      decide (pc+insn.length ≤ codeLen) && (!insn.falls || decide (pc+insn.length < codeLen)) &&
      insn.targets.all fun t => decide (0 ≤ t) && line.contains t.toNat) &&
    handlers.all fun h => line.contains h.handlerPc

theorem lineFrom_spec {left pc : Nat} {line : List Nat} (h : lineFrom code codeLen left pc = some line) :
    (pc < codeLen → pc ∈ line) ∧
    (∀ p ∈ line, p < codeLen ∧ (Starts code pc → Starts code p) ∧ ∃ insn, decode code p = some insn ∧
      (p+insn.length < codeLen → p+insn.length ∈ line)) := by
  induction left generalizing pc line with
  | zero => cases h
  | succ left ih => ?_
  rw [lineFrom] at h
  split at h
  · rename_i hlt
    obtain ⟨insn,hdec,h⟩ := Option.bind_eq_some_iff.mp h
    obtain ⟨rest,hrest,h⟩ := Option.bind_eq_some_iff.mp h
    obtain rfl := Option.some.inj h
    obtain ⟨hnext,hall⟩ := ih hrest
    refine ⟨fun _ => List.mem_cons_self,fun p hp => ?_⟩
    rcases List.mem_cons.mp hp with rfl | hp
    · exact ⟨hlt,id,insn,hdec,fun hin => List.mem_cons_of_mem _ (hnext hin)⟩
    obtain ⟨hplt,hstarts,insn',hdec',hnext'⟩ := hall p hp
    exact ⟨hplt,fun hs => hstarts (.next hs hdec),insn',hdec',
      fun hin => List.mem_cons_of_mem _ (hnext' hin)⟩
  rename_i hge
  obtain rfl := Option.some.inj h
  refine ⟨fun hlt => absurd hlt hge,fun p hp => ?_⟩
  cases hp

theorem verified_of_verifies (h : verifies code codeLen handlers = true) :
    Verified code codeLen handlers := by
  unfold verifies at h
  cases hline : lineFrom code codeLen (codeLen+1) 0 with
  | none => simp [hline] at h
  | some line => ?_
  simp only [hline,Bool.and_eq_true,decide_eq_true_eq,List.all_eq_true,List.contains_iff_mem] at h
  obtain ⟨⟨⟨hpos,hshort,hlen⟩,hinsns⟩,hhandlers⟩ := h
  obtain ⟨hzero,hall⟩ := lineFrom_spec hline
  have hmem : ∀ {p}, Starts code p → p < codeLen → p ∈ line := by
    intro p hp
    induction hp with
    | zero => exact hzero
    | @next pc insn hp hdec ih =>
      intro hlt
      obtain ⟨-,-,insn',hdec',hnext⟩ := hall pc (ih (by omega))
      obtain rfl := Option.some.inj (hdec.symm.trans hdec')
      exact hnext hlt
  have hstarts : ∀ {p}, p ∈ line → Starts code p ∧ p < codeLen :=
    fun hp => ⟨(hall _ hp).2.1 .zero,(hall _ hp).1⟩
  refine ⟨hpos,hshort,hlen,fun {pc} hp hlt => ?_,fun r hr => hstarts (hhandlers r hr)⟩
  obtain ⟨-,-,insn,hdec,-⟩ := hall pc (hmem hp hlt)
  have hinsn := hinsns pc (hmem hp hlt)
  simp only [hdec,Option.all_some,Bool.and_eq_true,decide_eq_true_eq,List.all_eq_true,
    Bool.or_eq_true,Bool.not_eq_true',List.contains_iff_mem] at hinsn
  obtain ⟨⟨hfit,hfalls⟩,htargets⟩ := hinsn
  refine ⟨insn,hdec,hfit,fun hf => ?_,fun t ht => ?_⟩
  · rw [hf] at hfalls
    simpa using hfalls
  obtain ⟨hnonneg,hin⟩ := htargets t ht
  exact ⟨t.toNat,by omega,hstarts hin⟩

def isOffsetBranch (op : Nat) : Bool := within 0x99 0xa8 op || within 0xc6 0xc9 op

def isSubroutineOp (op : Nat) : Bool := op = 0xa8 || op = 0xa9 || op = 0xc9

def isWideRet (code : Code) (pc : Nat) : Bool := byteAt code pc = some 0xc4 && byteAt code (pc+1) = some 0xa9

/-- The target of a table entry; `none` when it cannot be read or lies outside the code. -/
def switchTarget (code : Code) (codeLen pc pos : Nat) : Option Nat := do
  let off ← readI32 code pos
  (addSigned pc off).filter (· < codeLen)

def switchEntries (code : Code) (codeLen pc first width shift count : Nat) : Option (List Nat) :=
  if first+count*width > codeLen then none
  else do
    let cases ← (List.range count).mapM fun i => switchTarget code codeLen pc (first+i*width+shift)
    let default_ ← switchTarget code codeLen pc (switchOperandBase pc)
    pure (default_::cases)

def switchTable (code : Code) (codeLen pc : Nat) : Option (List Nat) :=
  let codeLen := min codeLen code.length
  let base := switchOperandBase pc
  if pc ≥ codeLen then none
  else if opAt code pc = 0xaa then
    if base+12 > codeLen then none
    else (tableswitchCount code pc).bind fun count => switchEntries code codeLen pc (base+12) 4 0 count
  else if opAt code pc = 0xab then
    if base+8 > codeLen then none
    else (lookupswitchNpairs code pc).bind fun npairs => switchEntries code codeLen pc (base+8) 8 4 npairs
  else none

def explicitTargets (code : Code) (codeLen pc : Nat) : Option (List Nat) :=
  if codeLen > code.length ∨ pc ≥ codeLen then none
  else
    let op := opAt code pc
    if isSubroutineOp op then none
    else if isWideRet code pc then none
    else if within 0x99 0xa7 op || op = 0xc6 || op = 0xc7 || op = 0xc8 then
      if (if op = 0xc8 then pc+4 else pc+2) ≥ codeLen then none
      else ((offsetBranchTarget code pc).filter (· < codeLen)).map ([·])
    else if op = 0xaa || op = 0xab then switchTable code codeLen pc
    else some []

def normalSuccessors (code : Code) (codeLen pc : Nat) : Option (List Nat) :=
  (explicitTargets code codeLen pc).map fun targets =>
    targets ++ if fallsThrough (opAt code pc) && pc+step code pc < codeLen then [pc+step code pc] else []

variable {code : Code} {codeLen pc q : Nat} {insn : Insn}

theorem mem_of_mapM {α β : Type} {f : α → Option β} {xs : List α} {ys : List β}
    (h : xs.mapM f = some ys) {x : α} (hx : x ∈ xs) : ∃ y ∈ ys, f x = some y := by
  induction xs generalizing ys with
  | nil => cases hx
  | cons a xs ih => ?_
  rw [List.mapM_cons] at h
  obtain ⟨b,hb,h⟩ := Option.bind_eq_some_iff.mp h
  obtain ⟨bs,hbs,h⟩ := Option.bind_eq_some_iff.mp h
  obtain rfl := Option.some.inj h
  rcases List.mem_cons.mp hx with rfl | hx
  · exact ⟨b,List.mem_cons_self,hb⟩
  obtain ⟨y,hy,hf⟩ := ih hbs hx
  exact ⟨y,List.mem_cons_of_mem _ hy,hf⟩

theorem switchTarget_eq {pos t : Nat} {off : Int} (h : switchTarget code codeLen pc pos = some t)
    (hoff : readI32 code pos = some off) (hq : (pc : Int)+off = q) : t = q := by
  unfold switchTarget at h
  rw [hoff] at h
  simp only [Option.bind_eq_bind,Option.bind_some,addSigned_eq hq,Option.filter] at h
  split at h
  · exact (Option.some.inj h).symm
  · cases h

variable {ts : List Nat}

theorem mem_switchEntries {first width shift count : Nat} {default_ : Int} {offs : List Int}
    (h : switchEntries code codeLen pc first width shift count = some ts)
    (hdefault : readI32 code (switchOperandBase pc) = some default_)
    (hoffs : ∀ off ∈ offs, ∃ i < count, readI32 code (first+i*width+shift) = some off)
    (hq : (q : Int) ∈ (default_::offs).map ((pc : Int)+·)) : q ∈ ts := by
  unfold switchEntries at h
  split at h
  · cases h
  obtain ⟨cases_,hcases,h⟩ := Option.bind_eq_some_iff.mp h
  obtain ⟨d,hd,h⟩ := Option.bind_eq_some_iff.mp h
  obtain rfl := Option.some.inj h
  rcases List.mem_cons.mp hq with hq | hq
  · rw [switchTarget_eq hd hdefault hq.symm]
    exact List.mem_cons_self
  obtain ⟨off,hoff,hq⟩ := List.mem_map.mp hq
  obtain ⟨i,hi,hread⟩ := hoffs off hoff
  obtain ⟨t,ht,hentry⟩ := mem_of_mapM hcases (List.mem_range.mpr hi)
  rw [← switchTarget_eq hentry hread hq]
  exact List.mem_cons_of_mem _ ht

theorem mem_switchTable (h : switchTable code codeLen pc = some ts)
    (hdec : decode code pc = some insn) (hfit : pc+insn.length < 65536) (hq : (q : Int) ∈ insn.targets) :
    q ∈ ts := by
  have hbase := lt_switchOperandBase pc
  obtain ⟨op,hop,hat,-,hcases⟩ := decode_cases hdec
  unfold switchTable at h
  dsimp only at h
  split at h
  · cases h
  rcases hcases with ⟨rfl,-⟩ | ⟨rfl,hw⟩ | ⟨rfl,hw⟩ | ⟨⟨-,h2,h3⟩,-⟩
  · simp [hat] at h
  · obtain ⟨default_,low,high,offs,hdefault,hlow,hhigh,hle,hoffs,rfl⟩ := tableswitch_eq_some hw
    dsimp only at hfit hq
    rw [if_pos hat] at h
    split at h
    · cases h
    obtain ⟨count,hcount,h⟩ := Option.bind_eq_some_iff.mp h
    obtain rfl := Option.some.inj (hcount.symm.trans (tableswitchCount_eq hlow hhigh hle (by omega)))
    refine mem_switchEntries h hdefault (fun off hoff => ?_) hq
    obtain ⟨i,hi,hread⟩ := offsets_mem hoffs hoff
    exact ⟨i,hi,hread⟩
  · obtain ⟨default_,npairs,offs,hdefault,hnpairs,hle,hoffs,rfl⟩ := lookupswitch_eq_some hw
    dsimp only at hfit hq
    rw [if_neg (by omega),if_pos hat] at h
    split at h
    · cases h
    obtain ⟨count,hcount,h⟩ := Option.bind_eq_some_iff.mp h
    obtain rfl := Option.some.inj (hcount.symm.trans (lookupswitchNpairs_eq hnpairs hle (by omega)))
    refine mem_switchEntries h hdefault (fun off hoff => ?_) hq
    obtain ⟨i,hi,hread⟩ := offsets_mem hoffs hoff
    refine ⟨i,hi,?_⟩
    rw [← hread]
    congr 1
    omega
  rw [hat,if_neg h2,if_neg h3] at h
  cases h

theorem offsetBranchTarget_eq (hdec : decode code pc = some insn) (hq : (q : Int) ∈ insn.targets)
    (h1 : opAt code pc ≠ 0xaa) (h2 : opAt code pc ≠ 0xab) : offsetBranchTarget code pc = some q ∧
      (within 0x99 0xa7 (opAt code pc) || opAt code pc = 0xc6 || opAt code pc = 0xc7 ||
        opAt code pc = 0xc8) = true := by
  obtain ⟨op,hop,hat,-,hcases⟩ := decode_cases hdec
  rw [hat] at h1 h2 ⊢
  rcases hcases with ⟨rfl,hw⟩ | ⟨rfl,-⟩ | ⟨rfl,-⟩ | ⟨-,hw⟩
  · obtain ⟨real,idx,-,-,⟨-,rfl⟩ | ⟨-,rfl⟩ | ⟨-,rfl⟩⟩ := wide_eq_some hw
    all_goals cases hq
  · exact absurd rfl h1
  · exact absurd rfl h2
  obtain ⟨len,targets,-,hjumps,rfl⟩ := plain_eq_some hw
  refine ⟨offsetBranchTarget_of_jumps hop hjumps hq,?_⟩
  unfold jumps at hjumps
  split at hjumps
  · rename_i hshort
    simp only [within,Bool.or_eq_true,Bool.and_eq_true,decide_eq_true_eq] at hshort ⊢
    omega
  split at hjumps
  · rename_i hwide
    simp [hwide]
  cases hjumps
  cases hq

theorem mem_explicitTargets (h : explicitTargets code codeLen pc = some ts)
    (hdec : decode code pc = some insn) (hfit : pc+insn.length < 65536) (hq : (q : Int) ∈ insn.targets) :
    q ∈ ts := by
  unfold explicitTargets at h
  dsimp only at h
  split at h
  · cases h
  split at h
  · cases h
  split at h
  · cases h
  by_cases hswitch : opAt code pc = 0xaa ∨ opAt code pc = 0xab
  · have hplain : (within 0x99 0xa7 (opAt code pc) || opAt code pc = 0xc6 || opAt code pc = 0xc7 ||
        opAt code pc = 0xc8) = false := by
      rcases hswitch with hop | hop <;> rw [hop] <;> rfl
    rw [if_neg (by rw [hplain]; decide),if_pos (by simpa using hswitch)] at h
    exact mem_switchTable h hdec hfit hq
  rw [not_or] at hswitch
  obtain ⟨htarget,hplain⟩ := offsetBranchTarget_eq hdec hq hswitch.1 hswitch.2
  rw [if_pos hplain] at h
  generalize (if opAt code pc = 0xc8 then pc+4 else pc+2) = last at h
  split at h
  · cases h
  obtain ⟨t,ht,rfl⟩ := Option.map_eq_some_iff.mp h
  rw [htarget,Option.filter] at ht
  split at ht
  · obtain rfl := Option.some.inj ht
    exact List.mem_singleton.mpr rfl
  · cases ht

theorem mem_normalSuccessors {handlers : List HandlerRange} {len : Nat}
    (hv : Verified code len handlers) (hpc : Starts code pc) (hlt : pc < len)
    (h : normalSuccessors code code.length pc = some ts) (hnext : Next code pc q) : q ∈ ts := by
  obtain ⟨targets,htargets,rfl⟩ := Option.map_eq_some_iff.mp h
  obtain ⟨insn,hdec,⟨hfalls,rfl⟩ | hq⟩ := hnext
  · obtain ⟨hlen,-,hin,-⟩ := verified_insn hv hpc hlt hdec
    have hgoes : isUnconditional (opAt code pc) = false := by
      rw [isUnconditional_eq hdec,hfalls]
      rfl
    have hfall : fallsThrough (opAt code pc) = true := by
      unfold explicitTargets at htargets
      dsimp only at htargets
      split at htargets
      · cases htargets
      split at htargets
      · cases htargets
      rename_i hsub
      simp only [isSubroutineOp,Bool.or_eq_true,decide_eq_true_eq,not_or] at hsub
      simpa [isUnconditional,hsub.1.2] using hgoes
    have hnext : pc+step code pc < code.length := by
      have := hin hfalls
      have := hv.within_code
      omega
    refine List.mem_append_right _ ?_
    rw [hfall,decide_eq_true hnext,hlen]
    exact List.mem_singleton.mpr rfl
  · have hfits := (verified_insn hv hpc hlt hdec).2.1
    have hshort := hv.short
    exact List.mem_append_left _ (mem_explicitTargets htargets hdec (by omega) hq)

end CratonVM.Jit.Bytecode
