import CratonVM.Verifier.TypeMaps

/-!
The rows a builder writes, read back: at every recorded pc the maps describe the recorded frame, and
at no other pc do they describe anything.
-/
namespace CratonVM.Verifier
open PackedRows BinarySearch List Option
open Bool hiding or_false

/-- The operand stack as the interpreter holds it: a category-2 value is one slot. -/
def runtimeSlots : List VType → List VType
  | [] => []
  | ty :: rest =>
    if ty.isCategory2 then
      match rest with
      | .top :: rest => ty :: runtimeSlots rest
      | rest => ty :: runtimeSlots rest
    else ty :: runtimeSlots rest

def holdsReference (slots : List VType) (i : Nat) : Bool := (slots[i]?).any VType.isReference

namespace StackScan
def bit (narrow : Bool) (s : StackScan) (i : Nat) : Bool :=
  if narrow then s.acc.getLsbD i else PackedRows.bit s.row i

/-- The row under construction has room for every slot. -/
def Fits (maxStack : Nat) (narrow : Bool) (s : StackScan) : Prop :=
  if narrow then maxStack ≤ 64 else maxStack ≤ 8*s.row.length

theorem Fits.enter {maxStack : Nat} {narrow : Bool} {s : StackScan} (h : s.Fits maxStack narrow)
    (ty : VType) : (s.enter maxStack narrow ty).Fits maxStack narrow := by
  unfold Fits at h ⊢
  rwa [length_enter_row]

theorem bit_enter {maxStack : Nat} {narrow : Bool} {s : StackScan} (h : s.Fits maxStack narrow)
    (ty : VType) (i : Nat) : (s.enter maxStack narrow ty).bit narrow i =
      (s.bit narrow i || (decide (i = s.rt) && decide (i < maxStack) && ty.isReference)) := by
  unfold enter
  by_cases hrt : s.rt < maxStack
  · cases href : ty.isReference with
    | false => simp [hrt]
    | true => ?_
    cases narrow with
    | true =>
      have hbits : maxStack ≤ 64 := h
      simp only [hrt,if_true,bit,BitVec.getLsbD_or]
      rw [BitRows.getLsbD_one_shift (by omega)]
      by_cases hi : i = s.rt <;> simp [hi,hrt]
    | false =>
      have hbits : maxStack ≤ 8*s.row.length := h
      simp only [hrt,if_true,bit,false_eq_true,if_false]
      rw [bit_setBit _ (by omega)]
      by_cases hi : i = s.rt <;> simp [hi,hrt]
  · by_cases hi : i = s.rt <;> simp [hrt,hi,bit]

end StackScan

theorem enter_then (bit : Bool) (maxStack rt i : Nat) (ty : VType) (slots : List VType) :
    (bit || (decide (i = rt) && decide (i < maxStack) && ty.isReference) ||
      (decide (rt+1 ≤ i) && decide (i < maxStack) && holdsReference slots (i-(rt+1)))) =
    (bit || (decide (rt ≤ i) && decide (i < maxStack) && holdsReference (ty :: slots) (i-rt))) := by
  rcases Nat.lt_trichotomy i rt with h | rfl | h
  · simp [show i ≠ rt by omega,show ¬rt ≤ i by omega,show ¬rt+1 ≤ i by omega]
  · simp [holdsReference]
  obtain ⟨d,rfl⟩ := Nat.exists_eq_add_of_lt h
  have h1 : rt+d+1-(rt+1) = d := by omega
  have h2 : rt+d+1-rt = d+1 := by omega
  simp [holdsReference,h1,h2,show rt+d+1 ≠ rt by omega,show rt ≤ rt+d+1 by omega,
    show rt+1 ≤ rt+d+1 by omega]

theorem bit_scanStack {maxStack : Nat} {narrow : Bool} (stack : List VType) (s : StackScan)
    (hfits : s.Fits maxStack narrow) (i : Nat) :
    (scanStack maxStack narrow stack s).bit narrow i = (s.bit narrow i ||
      (decide (s.rt ≤ i) && decide (i < maxStack) && holdsReference (runtimeSlots stack) (i-s.rt))) := by
  have hstep : ∀ (s : StackScan) (ty : VType) (veto : Option FastPathVeto),
      s.Fits maxStack narrow →
      ({ s.enter maxStack narrow ty with rt := (s.enter maxStack narrow ty).rt+1, veto } :
        StackScan).Fits maxStack narrow ∧
      ({ s.enter maxStack narrow ty with rt := (s.enter maxStack narrow ty).rt+1, veto } :
        StackScan).bit narrow i =
        (s.bit narrow i || (decide (i = s.rt) && decide (i < maxStack) && ty.isReference)) :=
    fun s ty _ h => ⟨h.enter ty,s.bit_enter h ty i⟩
  fun_induction scanStack maxStack narrow stack s with
  | case1 s => simp [runtimeSlots,holdsReference]
  | case2 ty s s' h rest ih =>
    obtain ⟨hfits',hbit⟩ := hstep s ty s'.veto hfits
    rw [ih hfits',hbit,runtimeSlots,if_pos h]
    simp only [s',StackScan.enter_rt]
    exact enter_then _ _ _ _ _ _
  | case3 ty s s' h rest hrest ih =>
    obtain ⟨hfits',hbit⟩ := hstep s ty (vetoed s'.veto .malformedCategory2) hfits
    rw [ih hfits',hbit,runtimeSlots,if_pos h]
    · simp only [s',StackScan.enter_rt]
      exact enter_then _ _ _ _ _ _
    · exact hrest
  | case4 ty rest s s' h ih =>
    obtain ⟨hfits',hbit⟩ := hstep s ty s'.veto hfits
    have hslots : runtimeSlots (ty :: rest) = ty :: runtimeSlots rest := by
      rw [runtimeSlots.eq_def]
      simp [h]
    rw [ih hfits',hbit,hslots]
    simp only [s',StackScan.enter_rt]
    exact enter_then _ _ _ _ _ _

theorem scanStack_veto (maxStack : Nat) (narrow : Bool) (stack : List VType) (s : StackScan)
    (veto : Option FastPathVeto) :
    (scanStack maxStack narrow stack { s with veto }).acc = (scanStack maxStack narrow stack s).acc ∧
    (scanStack maxStack narrow stack { s with veto }).row = (scanStack maxStack narrow stack s).row := by
  have henter : ∀ (s : StackScan) (ty : VType) (veto : Option FastPathVeto),
      StackScan.enter maxStack narrow ty { s with veto } =
        { s.enter maxStack narrow ty with
          veto := (StackScan.enter maxStack narrow ty { s with veto }).veto } := by
    intro s ty veto
    unfold StackScan.enter
    split_ifs <;> rfl
  fun_induction scanStack maxStack narrow stack s generalizing veto with
  | case1 s => exact ⟨rfl,rfl⟩
  | case2 ty s s' h rest ih =>
    rw [scanStack,if_pos h,henter]
    exact ih _
  | case3 ty s s' h rest hrest ih =>
    rw [scanStack,if_pos h,henter]
    · exact ih _
    · exact hrest
  | case4 ty rest s s' h ih =>
    rw [scanStack.eq_def maxStack narrow (ty :: rest)]
    simp only [h]
    rw [henter]
    exact ih _

theorem rt_scanStack (maxStack : Nat) (narrow : Bool) (stack : List VType) (s : StackScan) :
    (scanStack maxStack narrow stack s).rt = s.rt+(runtimeSlots stack).length := by
  fun_induction scanStack maxStack narrow stack s with
  | case1 s => simp [runtimeSlots]
  | case2 ty s s' h rest ih =>
    rw [ih,runtimeSlots,if_pos h]
    simp [s']
    omega
  | case3 ty s s' h rest hrest ih =>
    rw [ih,runtimeSlots,if_pos h]
    · simp [s']
      omega
    · exact hrest
  | case4 ty rest s s' h ih =>
    rw [ih,runtimeSlots.eq_def (ty :: rest)]
    simp [s',h]
    omega

def stackRowOf (maxStack : Nat) (stack : List VType) : List Byte :=
  let narrow := decide (maxStack ≤ 64)
  let scan := scanStack maxStack narrow stack ⟨0#64,List.replicate (strideFor maxStack) 0#8,0,none⟩
  if narrow then (List.range (strideFor maxStack)).map fun k => (scan.acc >>> (8*k)).setWidth 8
  else scan.row

theorem length_stackRowOf (maxStack : Nat) (stack : List VType) :
    (stackRowOf maxStack stack).length = strideFor maxStack := by
  unfold stackRowOf
  dsimp only
  split
  · simp
  · rw [length_scanStack_row,length_replicate]

theorem bit_stackRowOf {maxStack : Nat} (stack : List VType) {i : Nat} (hi : i < maxStack) :
    bit (stackRowOf maxStack stack) i = holdsReference (runtimeSlots stack) i := by
  have hstride : i/8 < strideFor maxStack := by
    unfold strideFor
    omega
  have hfits : (⟨0#64,replicate (strideFor maxStack) 0#8,0,none⟩ : StackScan).Fits maxStack
      (decide (maxStack ≤ 64)) := by
    unfold StackScan.Fits
    by_cases h : maxStack ≤ 64
    · simp [h]
    simp only [h,decide_false,false_eq_true,if_false,length_replicate,strideFor]
    omega
  have hscan := bit_scanStack stack _ hfits i
  have hempty : (⟨0#64,replicate (strideFor maxStack) 0#8,0,none⟩ : StackScan).bit
      (decide (maxStack ≤ 64)) i = false := by
    unfold StackScan.bit
    split
    · simp
    · exact bit_zeros _ i
  rw [hempty] at hscan
  simp only [Nat.zero_le,hi,decide_true,Bool.true_and,Bool.false_or,Nat.sub_zero] at hscan
  rw [← hscan]
  unfold stackRowOf StackScan.bit
  dsimp only
  split
  · exact bit_wordBytes _ hstride
  · rfl

theorem getLsbD_chunkByte (chunk : List VType) {j : Nat} (hj : j < 8) :
    (chunkByte chunk).getLsbD j = holdsReference chunk j := by
  have hfold : ∀ (l : List VType) (n : Nat) (acc : Byte),
      ((l.zipIdx n).foldl (fun bits p =>
        bits ||| ((if p.1.isReference then 1#8 else 0#8) <<< p.2)) acc).getLsbD j =
      (acc.getLsbD j || (decide (n ≤ j) && holdsReference l (j-n))) := by
    intro l
    induction l with
    | nil => simp [holdsReference]
    | cons ty l ih => ?_
    intro n acc
    have hslot : (acc ||| ((if ty.isReference then 1#8 else 0#8) <<< n)).getLsbD j =
        (acc.getLsbD j || (decide (j = n) && decide (j < 8) && ty.isReference)) := by
      rw [BitVec.getLsbD_or]
      cases ty.isReference with
      | false => simp
      | true =>
        by_cases hn : n < 8
        · rw [if_pos rfl,BitRows.getLsbD_one_shift hn]
          simp [hj]
        · simp [show ¬j = n by omega,show j < n by omega]
    rw [zipIdx_cons,foldl_cons,ih,hslot]
    have := enter_then (acc.getLsbD j) 8 n j ty l
    simpa [hj] using this
  have := hfold chunk 0 0#8
  simpa [chunkByte] using this

theorem bit_packLocals (locals : List VType) {stride i : Nat} (hi : i/8 < stride) :
    bit (packLocals stride locals) i = holdsReference locals i := by
  have hmod : i%8 < 8 := Nat.mod_lt i (by decide)
  have hsum : 8*(i/8)+i%8 = i := by omega
  simp only [bit,packLocals,getElem?_map,getElem?_range hi,map_some,any_some]
  rw [getLsbD_chunkByte _ hmod]
  simp [holdsReference,getElem?_drop,hmod,hsum]

def localRowOf (maxLocals : Nat) (locals : List VType) : List Byte :=
  packLocals (strideFor maxLocals) (locals.take maxLocals)

theorem length_localRowOf (maxLocals : Nat) (locals : List VType) :
    (localRowOf maxLocals locals).length = strideFor maxLocals := by
  simp [localRowOf,packLocals]

theorem bit_localRowOf {maxLocals : Nat} (locals : List VType) {i : Nat} (hi : i < maxLocals) :
    bit (localRowOf maxLocals locals) i = holdsReference locals i := by
  have hstride : i/8 < strideFor maxLocals := by
    unfold strideFor
    omega
  rw [localRowOf,bit_packLocals _ hstride]
  simp [holdsReference,hi]

namespace MethodTypeMapsBuilder
structure Record where
  pc : Nat
  locals : List VType
  localsEpoch : Option Nat
  stack : List VType
  deriving DecidableEq, Repr

def Call.toRecord : Call → Option Record
  | .record pc locals localsEpoch stack => some ⟨pc,locals,localsEpoch,stack⟩
  | _ => none

def recordsOf (calls : List Call) : List Record := calls.filterMap Call.toRecord

def Record.depth (r : Record) : Nat := min (runtimeSlots r.stack).length 65535

def Vouched (rs : List Record) : Prop :=
  ∀ r ∈ rs, ∀ r' ∈ rs, r.localsEpoch.isSome → r.localsEpoch = r'.localsEpoch → r.locals = r'.locals

theorem Vouched.mono {rs rs' : List Record} (h : Vouched rs') (hsub : rs ⊆ rs') : Vouched rs :=
  fun r hr r' hr' => h r (hsub hr) r' (hsub hr')

structure Recordable (maxLocals maxStack : Nat) (rs : List Record) : Prop where
  ascending : (rs.map Record.pc).Pairwise (· < ·)
  vouched : Vouched rs
  budget : rs.length*(strideFor maxLocals+strideFor maxStack) ≤ maxMethodRowBytes

/-- The builder has written exactly these records. -/
structure Wrote (b : MethodTypeMapsBuilder) (maxLocals maxStack : Nat) (rs : List Record) : Prop where
  verdictOnly : b.verdictOnly = false
  sorted : b.sorted = true
  localsLimit : b.maxLocals = maxLocals
  stackLimit : b.maxStack = maxStack
  localStride : b.localStride = strideFor maxLocals
  stackStride : b.stackStride = strideFor maxStack
  pcs : b.pcs = rs.map Record.pc
  localBytes : b.localBytes = rs.flatMap fun r => localRowOf maxLocals r.locals
  stackBytes : b.stackBytes = rs.flatMap fun r => stackRowOf maxStack r.stack
  depths : b.depths = rs.map Record.depth
  deepest : ∀ r ∈ rs, r.depth ≤ b.maxDepthSeen
  lastRow : ∀ r, rs.getLast? = some r →
    b.lastRowEpoch = r.localsEpoch ∧ b.lastRowLen = r.locals.length

theorem wrote_new (maxLocals maxStack : Nat) : Wrote (new maxLocals maxStack) maxLocals maxStack [] :=
  ⟨rfl,rfl,rfl,rfl,rfl,rfl,rfl,rfl,rfl,rfl,by simp,by simp⟩

namespace Wrote
variable {b : MethodTypeMapsBuilder} {maxLocals maxStack : Nat} {rs : List Record}

theorem markUnsafe (h : Wrote b maxLocals maxStack rs) (reason : FastPathVeto) :
    Wrote (b.markUnsafeForFastPath reason) maxLocals maxStack rs := { h with }

theorem checkLocalSlot (h : Wrote b maxLocals maxStack rs) (index : Nat) (category2 : Bool) :
    Wrote (b.checkLocalSlot index category2) maxLocals maxStack rs := by
  unfold MethodTypeMapsBuilder.checkLocalSlot
  split_ifs
  all_goals first | exact h | exact h.markUnsafe _

theorem observeInstruction (h : Wrote b maxLocals maxStack rs) (insn : Reader.Instruction) :
    Wrote (b.observeInstruction insn) maxLocals maxStack rs := by
  cases insn
  all_goals first
    | exact h
    | exact h.checkLocalSlot _ _
    | exact h.markUnsafe _
    | exact (h.checkLocalSlot _ _).markUnsafe _

theorem localsRow (h : Wrote b maxLocals maxStack rs) {r : Record} (hvouched : Vouched (rs ++ [r])) :
    b.localsRow r.locals r.localsEpoch = localRowOf maxLocals r.locals := by
  unfold MethodTypeMapsBuilder.localsRow
  dsimp only
  split
  · rename_i hreuse
    obtain ⟨-,hpcs,hsome,hepoch,-⟩ := hreuse
    rcases eq_nil_or_concat' rs with rfl | ⟨init,last,rfl⟩
    · exact absurd h.pcs hpcs
    have hlast : (init ++ [last]).getLast? = some last := by simp
    have hlocals : r.locals = last.locals := by
      refine hvouched r (by simp) last (by simp) hsome ?_
      rw [hepoch,(h.lastRow last hlast).1]
    rw [h.localBytes,h.localStride,flatMap_append,length_append,hlocals]
    simp [length_localRowOf]
  rw [h.localStride,h.localsLimit]
  rfl

section
variable (h : Wrote b maxLocals maxStack rs)
include h

theorem length_localBytes :
    b.localBytes.length = rs.length*strideFor maxLocals := by
  rw [h.localBytes]
  exact length_flatMap fun r _ => length_localRowOf maxLocals r.locals

theorem length_stackBytes :
    b.stackBytes.length = rs.length*strideFor maxStack := by
  rw [h.stackBytes]
  exact length_flatMap fun r _ => length_stackRowOf maxStack r.stack

theorem record {r : Record} (hvouched : Vouched (rs ++ [r]))
    (hpc : ∀ r' ∈ rs, r'.pc < r.pc)
    (hbudget : (rs.length+1)*(strideFor maxLocals+strideFor maxStack) ≤ maxMethodRowBytes) :
    Wrote (b.recordInner r.pc r.locals r.localsEpoch r.stack) maxLocals maxStack (rs ++ [r]) := by
  have hlast : ∀ p, b.pcs.getLast? = some p → p < r.pc := by
    intro p hp
    rw [h.pcs,getLast?_map] at hp
    obtain ⟨r',hr',rfl⟩ := map_eq_some_iff.mp hp
    exact hpc r' (mem_of_getLast? hr')
  have hroom : b.overBudget = false := by
    rw [overBudget,decide_eq_false_iff_not,h.length_localBytes,h.length_stackBytes,h.localStride,
      h.stackStride]
    rw [Nat.add_mul,Nat.mul_add,Nat.one_mul] at hbudget
    omega
  rw [recordInner,if_neg (by simp [h.verdictOnly]),if_neg (fun hp => Nat.lt_irrefl _ (hlast _ hp)),
    if_neg ?nodecrease,if_neg (by simp [hroom])]
  case nodecrease =>
    cases hp : b.pcs.getLast? with
    | none => simp
    | some p =>
      have := hlast p hp
      simp only [any_some,decide_eq_true_eq]
      omega
  have hscan := scanStack_veto maxStack (decide (maxStack ≤ 64)) r.stack
    ⟨0#64,replicate (strideFor maxStack) 0#8,0,none⟩
    (vetoedIf (r.locals.length > maxLocals) b.veto .localsWiderThanMaxLocals)
  have hdepth := rt_scanStack maxStack (decide (maxStack ≤ 64)) r.stack
    ⟨0#64,replicate (strideFor maxStack) 0#8,0,
      vetoedIf (r.locals.length > maxLocals) b.veto .localsWiderThanMaxLocals⟩
  dsimp only at hscan hdepth ⊢
  rw [h.localsRow hvouched,h.stackStride,h.localsLimit,h.stackLimit,hscan.1,hscan.2,hdepth,
    Nat.zero_add]
  exact
    { h with
      localsLimit := rfl
      stackLimit := rfl
      stackStride := rfl
      pcs := by rw [h.pcs,map_append]; rfl
      localBytes := by rw [h.localBytes,flatMap_append]; simp
      stackBytes := by rw [h.stackBytes,flatMap_append]; simp [stackRowOf]
      depths := by rw [h.depths,map_append]; rfl
      deepest := by
        intro r' hr'
        dsimp only
        rcases mem_append.mp hr' with hr' | hr'
        · have := h.deepest r' hr'
          split <;> omega
        obtain rfl := mem_singleton.mp hr'
        have : r'.depth = min (runtimeSlots r'.stack).length 65535 := rfl
        split <;> omega
      lastRow := by
        intro r' hr'
        rw [getLast?_concat] at hr'
        obtain rfl := some.inj hr'
        exact ⟨rfl,rfl⟩ }

end

theorem call (h : Wrote b maxLocals maxStack rs) {c : Call} {calls : List Call}
    (hrec : Recordable maxLocals maxStack (rs ++ recordsOf (c :: calls))) :
    Wrote (b.call c) maxLocals maxStack (rs ++ recordsOf [c]) := by
  cases c with
  | record pc locals epoch stack => ?_
  | observeInstruction insn =>
    rw [show recordsOf [.observeInstruction insn] = [] from rfl,append_nil]
    exact h.observeInstruction insn
  | markUnsafeForFastPath reason =>
    rw [show recordsOf [.markUnsafeForFastPath reason] = [] from rfl,append_nil]
    exact h.markUnsafe reason
  have hrecs : recordsOf (.record pc locals epoch stack :: calls) =
      ⟨pc,locals,epoch,stack⟩ :: recordsOf calls := rfl
  rw [hrecs] at hrec
  refine h.record (r := ⟨pc,locals,epoch,stack⟩) ?_ ?_ ?_
  · refine hrec.vouched.mono (append_subset.mpr ⟨?_,?_⟩)
    · exact subset_append_left _ _
    · exact fun r hr => by simp_all
  · intro r' hr'
    have hasc := hrec.ascending
    rw [map_append] at hasc
    exact (pairwise_append.mp hasc).2.2 r'.pc (mem_map_of_mem hr') pc (by simp)
  refine Nat.le_trans (Nat.mul_le_mul_right _ ?_) hrec.budget
  simp

theorem run (h : Wrote b maxLocals maxStack rs) {calls : List Call}
    (hrec : Recordable maxLocals maxStack (rs ++ recordsOf calls)) :
    Wrote (b.run calls) maxLocals maxStack (rs ++ recordsOf calls) := by
  induction calls generalizing b rs with
  | nil =>
    rw [show recordsOf [] = [] from rfl,append_nil]
    exact h
  | cons c calls ih => ?_
  have hsplit : recordsOf (c :: calls) = recordsOf [c] ++ recordsOf calls := by
    rw [recordsOf,recordsOf,recordsOf,← filterMap_append]
    rfl
  have hstep := h.call hrec
  rw [hsplit,← append_assoc] at hrec ⊢
  exact ih hstep hrec

end Wrote

structure Frozen (m : MethodTypeMaps) (maxLocals maxStack : Nat) (rs : List Record) : Prop where
  rows : m.rows = rs.length
  localsLimit : m.maxLocals = maxLocals
  stackLimit : m.maxStack = maxStack
  data : m.data = rs.flatMap (fun r => bytesOf (if m.pcWide then 4 else 2) r.pc) ++
    rs.flatMap (fun r => localRowOf maxLocals r.locals) ++
    rs.flatMap (fun r => stackRowOf maxStack r.stack) ++
    rs.flatMap (fun r => bytesOf (if m.depthWide then 2 else 1) r.depth)
  ascending : (rs.map Record.pc).Pairwise (· < ·)
  pcs : ∀ r ∈ rs, r.pc < 2^(8*if m.pcWide then 4 else 2)
  depths : ∀ r ∈ rs, r.depth < 2^(8*if m.depthWide then 2 else 1)

theorem table_kept {bytes : List Byte} {rows stride : Nat} (h : bytes.length = rows*stride) :
    (if (if rows = 0 then 0 else stride) ≠ 0 then bytes else []) = bytes := by
  by_cases hrows : rows = 0
  · have hnil : bytes = [] := eq_nil_of_length_eq_zero (by simp [h,hrows])
    simp [hnil]
  by_cases hstride : stride = 0
  · have hnil : bytes = [] := eq_nil_of_length_eq_zero (by simp [h,hstride])
    simp [hnil]
  · simp [hrows,hstride]

theorem Wrote.finish {b : MethodTypeMapsBuilder} {maxLocals maxStack : Nat} {rs : List Record}
    (h : Wrote b maxLocals maxStack rs) (hrec : Recordable maxLocals maxStack rs)
    (hpcs : ∀ r ∈ rs, r.pc < 2^32) (hcount : rs.length < 2^32) (walkComplete : Bool) :
    Frozen (b.finish walkComplete) maxLocals maxStack rs := by
  have hrows : b.pcs.length = rs.length := by rw [h.pcs,length_map]
  have hlocals := table_kept (h.length_localBytes.trans (by rw [← hrows,← h.localStride]))
  have hstacks := table_kept (h.length_stackBytes.trans (by rw [← hrows,← h.stackStride]))
  unfold MethodTypeMapsBuilder.finish
  rw [h.sorted,h.verdictOnly]
  simp only [Bool.not_true,false_eq_true,if_false,hlocals,hstacks]
  refine
    { rows := by rw [hrows,Nat.mod_eq_of_lt hcount]
      localsLimit := h.localsLimit
      stackLimit := h.stackLimit
      data := by
        rw [← h.localBytes,← h.stackBytes,h.pcs,h.depths,flatMap_map,flatMap_map]
      ascending := hrec.ascending
      pcs := fun r hr => ?_
      depths := fun r hr => ?_ }
  · dsimp only
    by_cases hwide : b.pcs.getLast?.getD 0 > 65535
    · simpa [hwide] using hpcs r hr
    simp only [hwide,decide_false,false_eq_true,if_false]
    obtain ⟨init,last,rfl⟩ : ∃ init last, rs = init ++ [last] :=
      (eq_nil_or_concat' rs).resolve_left (ne_nil_of_mem hr)
    have hlast : b.pcs.getLast?.getD 0 = last.pc := by simp [h.pcs]
    have hasc := hrec.ascending
    rw [map_append] at hasc
    have hle : r.pc ≤ last.pc := by
      rcases mem_append.mp hr with hr | hr
      · exact Nat.le_of_lt ((pairwise_append.mp hasc).2.2 _ (mem_map_of_mem hr) _ (by simp))
      · rw [mem_singleton.mp hr]
    omega
  have hle := h.deepest r hr
  have hcap : r.depth ≤ 65535 := Nat.min_le_right _ _
  dsimp only
  by_cases hwide : b.maxDepthSeen > 255
  · simp only [hwide,decide_true,if_true]
    omega
  simp only [hwide,decide_false,false_eq_true,if_false]
  omega

namespace Frozen
variable {m : MethodTypeMaps} {maxLocals maxStack : Nat} {rs : List Record}

theorem length_pcs (l : List Record) (w : Nat) :
    (l.flatMap fun r => bytesOf w r.pc).length = l.length*w :=
  length_flatMap fun r _ => length_bytesOf w r.pc

variable {i : Nat} {r : Record}

theorem pcUnchecked (h : Frozen m maxLocals maxStack rs)
    (hr : rs[i]? = some r) : m.pcUnchecked i = r.pc := by
  have hslice := slice_flatMap (l := rs) (w := if m.pcWide then 4 else 2)
    (fun r _ => length_bytesOf _ r.pc) []
    (rs.flatMap (fun r => localRowOf maxLocals r.locals) ++
      rs.flatMap (fun r => stackRowOf maxStack r.stack) ++
      rs.flatMap (fun r => bytesOf (if m.depthWide then 2 else 1) r.depth)) rfl hr
  rw [nil_append,length_nil,Nat.zero_add,← append_assoc,← append_assoc,
    ← h.data] at hslice
  have hval := value_bytesOf (h.pcs r (mem_of_getElem? hr))
  rw [MethodTypeMaps.pcUnchecked]
  split <;> simp_all

theorem searchPc (h : Frozen m maxLocals maxStack rs) (pc i : Nat) :
    m.searchPc pc = some i ↔ (rs.map Record.pc)[i]? = some pc := by
  have htable : (range m.rows).map m.pcUnchecked = rs.map Record.pc := by
    refine ext_getElem? fun i => ?_
    rw [getElem?_map,getElem?_map,h.rows]
    by_cases hi : i < rs.length
    · rw [getElem?_range hi,map_some,h.pcUnchecked (getElem?_eq_getElem hi),
        getElem?_eq_getElem hi]
      rfl
    · simp [hi]
  rw [MethodTypeMaps.searchPc,htable]
  split
  · rename_i hbig
    simp only [reduceCtorEq,false_iff]
    intro hi
    obtain ⟨r,hr,rfl⟩ := mem_map.mp (mem_of_getElem? hi)
    have hlt := h.pcs r hr
    simp only [not_eq_true'] at hbig
    simp only [hbig.1,false_eq_true,if_false] at hlt
    omega
  · exact binarySearch_eq_some h.ascending

theorem get_bitRow (start : Nat) {stride bits : Nat} {row : List Byte} (hi : i < m.rows)
    (hstride : stride = strideFor bits) (hbits : bits ≤ 65535) (hlen : row.length = stride)
    (hslice : slice m.data (start+i*stride) stride = row) :
    (m.bitRow start stride bits i).bits = bits ∧
      ∀ j, (m.bitRow start stride bits i).get j = (decide (j < bits) && bit row j) := by
  have hroom : bits ≤ stride*8 ∧ (stride = 0 → bits = 0) := by
    rw [hstride,strideFor]
    omega
  unfold MethodTypeMaps.bitRow
  by_cases hzero : stride = 0
  · have hnone := hroom.2 hzero
    rw [if_pos (.inl hzero)]
    simp [OopBits.get,hnone]
  rw [if_neg (by omega),hslice]
  have hfull : min bits (min (row.length*8) 65535) = bits := by omega
  refine ⟨hfull,fun j => ?_⟩
  unfold OopBits.get OopBits.new
  dsimp only
  by_cases hj : j < bits
  · have hbyte : j/8 < row.length := by omega
    rw [if_neg (by omega)]
    simp only [BitRows.shifted_and_one,bit,getD_eq_getElem?_getD,getElem?_eq_getElem hbyte,
      getD_some,any_some,hj,decide_true,Bool.true_and,ne_eq]
    cases (row[j/8]).getLsbD (j%8) <;> rfl
  rw [if_pos (by omega)]
  simp [hj]

theorem localRow (h : Frozen m maxLocals maxStack rs) (hlimit : maxLocals ≤ 65535) (hr : rs[i]? = some r) :
    (m.localRow i).bits = maxLocals ∧
      ∀ j, (m.localRow i).get j = (decide (j < maxLocals) && holdsReference r.locals j) := by
  have hi : i < m.rows := by
    rw [h.rows]
    exact (List.getElem?_eq_some_iff.mp hr).1
  have hslice := slice_flatMap (l := rs) (w := strideFor maxLocals)
    (fun r _ => length_localRowOf maxLocals r.locals)
    (rs.flatMap fun r => bytesOf (if m.pcWide then 4 else 2) r.pc)
    (rs.flatMap (fun r => stackRowOf maxStack r.stack) ++
      rs.flatMap (fun r => bytesOf (if m.depthWide then 2 else 1) r.depth))
    (length_pcs rs (if m.pcWide then 4 else 2)) hr
  rw [← append_assoc,← h.data,← h.rows] at hslice
  have hstride : m.layout.localStride = strideFor maxLocals := by
    simp [MethodTypeMaps.layout,h.localsLimit,show m.rows ≠ 0 by omega]
  obtain ⟨hbits,hget⟩ := get_bitRow (m := m) m.layout.localsAt hi hstride hlimit
    (hstride ▸ length_localRowOf maxLocals r.locals)
    (by rw [hstride]; exact hslice)
  rw [MethodTypeMaps.localRow,h.localsLimit]
  refine ⟨hbits,fun j => (hget j).trans ?_⟩
  by_cases hj : j < maxLocals
  · rw [bit_localRowOf _ hj]
  · simp [hj]

theorem stackRow (h : Frozen m maxLocals maxStack rs) (hlimit : maxStack ≤ 65535) (hr : rs[i]? = some r) :
    (m.stackRow i).bits = maxStack ∧ ∀ j,
      (m.stackRow i).get j = (decide (j < maxStack) && holdsReference (runtimeSlots r.stack) j) := by
  have hi : i < m.rows := by
    rw [h.rows]
    exact (List.getElem?_eq_some_iff.mp hr).1
  have hbefore : (rs.flatMap (fun r => bytesOf (if m.pcWide then 4 else 2) r.pc) ++
      rs.flatMap fun r => localRowOf maxLocals r.locals).length = m.layout.stackAt := by
    rw [length_append,length_pcs,length_flatMap fun r _ => length_localRowOf maxLocals r.locals]
    simp [RowLayout.stackAt,RowLayout.localsAt,MethodTypeMaps.layout,h.rows,h.localsLimit,
      show rs ≠ [] from ne_nil_of_mem (mem_of_getElem? hr)]
  have hslice := slice_flatMap (l := rs) (w := strideFor maxStack)
    (fun r _ => length_stackRowOf maxStack r.stack) _
    (rs.flatMap (fun r => bytesOf (if m.depthWide then 2 else 1) r.depth)) hbefore hr
  rw [← h.data] at hslice
  have hstride : m.layout.stackStride = strideFor maxStack := by
    simp [MethodTypeMaps.layout,h.stackLimit,show m.rows ≠ 0 by omega]
  obtain ⟨hbits,hget⟩ := get_bitRow (m := m) m.layout.stackAt hi hstride hlimit
    (hstride ▸ length_stackRowOf maxStack r.stack)
    (by rw [hstride]; exact hslice)
  rw [MethodTypeMaps.stackRow,h.stackLimit]
  refine ⟨hbits,fun j => (hget j).trans ?_⟩
  by_cases hj : j < maxStack
  · rw [bit_stackRowOf _ hj]
  · simp [hj]

theorem depth (h : Frozen m maxLocals maxStack rs) (hr : rs[i]? = some r) :
    m.depth i = some r.depth := by
  have hi : i < m.rows := by
    rw [h.rows]
    exact (List.getElem?_eq_some_iff.mp hr).1
  have hbefore : (rs.flatMap (fun r => bytesOf (if m.pcWide then 4 else 2) r.pc) ++
      rs.flatMap (fun r => localRowOf maxLocals r.locals) ++
      rs.flatMap fun r => stackRowOf maxStack r.stack).length = m.layout.depthsAt := by
    rw [length_append,length_append,length_pcs,
      length_flatMap fun r _ => length_localRowOf maxLocals r.locals,
      length_flatMap fun r _ => length_stackRowOf maxStack r.stack]
    simp [RowLayout.depthsAt,RowLayout.stackAt,RowLayout.localsAt,MethodTypeMaps.layout,h.rows,
      h.localsLimit,h.stackLimit,show rs ≠ [] from ne_nil_of_mem (mem_of_getElem? hr)]
  have hslice := slice_flatMap (l := rs) (w := if m.depthWide then 2 else 1)
    (fun r _ => length_bytesOf _ r.depth) _ [] hbefore hr
  rw [append_nil,← h.data] at hslice
  have hval := value_bytesOf (h.depths r (mem_of_getElem? hr))
  rw [MethodTypeMaps.depth,if_neg (by omega)]
  have hwidth : m.layout.depthWidth = if m.depthWide then 2 else 1 := rfl
  cases hwide : m.depthWide <;> simp_all

end Frozen

/-- What the lookups answer at a pc for a recorded frame: the slots below the method's limits that
hold a reference, and the depth of the stack. -/
structure Describes (m : MethodTypeMaps) (pc : Nat) (locals stack : List VType) : Prop where
  map : ∃ ls ss, m.oopMapAt pc = some (ls,ss) ∧ ls.bits = m.maxLocals ∧ ss.bits = m.maxStack ∧
    (∀ i, ls.get i = (decide (i < m.maxLocals) && holdsReference locals i)) ∧
    ∀ i, ss.get i = (decide (i < m.maxStack) && holdsReference (runtimeSlots stack) i)
  depth : m.stackDepthAt pc = some (min (runtimeSlots stack).length 65535)

/-- The maps of a walk describe every frame it recorded, and nothing else. -/
theorem finish_describes (maxLocals maxStack : Nat) (hlocals : maxLocals < 2^16)
    (hstack : maxStack < 2^16) (calls : List Call) (walkComplete : Bool)
    (hpcs : ∀ r ∈ recordsOf calls, r.pc < 2^32) (hcount : (recordsOf calls).length < 2^32)
    (hrec : Recordable maxLocals maxStack (recordsOf calls)) :
    let m := ((new maxLocals maxStack).run calls).finish walkComplete
    m.maxLocals = maxLocals ∧ m.maxStack = maxStack ∧
    (∀ r ∈ recordsOf calls, Describes m r.pc r.locals r.stack) ∧
    ∀ pc, (∀ r ∈ recordsOf calls, r.pc ≠ pc) → m.oopMapAt pc = none ∧ m.stackDepthAt pc = none := by
  intro m
  have h : Frozen m maxLocals maxStack (recordsOf calls) :=
    ((wrote_new maxLocals maxStack).run hrec).finish hrec hpcs hcount walkComplete
  refine ⟨h.localsLimit,h.stackLimit,fun r hr => ?_,fun pc hpc => ?_⟩
  · obtain ⟨i,hi⟩ := mem_iff_getElem?.mp hr
    have hfound : m.searchPc r.pc = some i := (h.searchPc r.pc i).mpr (by simp [hi])
    obtain ⟨hlbits,hlget⟩ := h.localRow (by omega) hi
    obtain ⟨hsbits,hsget⟩ := h.stackRow (by omega) hi
    refine ⟨⟨m.localRow i,m.stackRow i,by simp [MethodTypeMaps.oopMapAt,hfound],?_⟩,?_⟩
    · rw [h.localsLimit,h.stackLimit]
      exact ⟨hlbits,hsbits,hlget,hsget⟩
    rw [MethodTypeMaps.stackDepthAt,hfound]
    exact h.depth hi
  have hmiss : m.searchPc pc = none := by
    cases hfound : m.searchPc pc with
    | none => rfl
    | some i =>
      have hi := (h.searchPc pc i).mp hfound
      obtain ⟨r,hr,hrpc⟩ := mem_map.mp (mem_of_getElem? hi)
      exact absurd hrpc (hpc r hr)
  simp [MethodTypeMaps.oopMapAt,MethodTypeMaps.stackDepthAt,hmiss]

/-- Two frames with one locals epoch, a `long` on the second stack. -/
theorem finish_describes_reusedRow :
    let calls : List Call :=
      [.record 0 [.null,.int] (some 1) [],.observeInstruction (.lload 0),
        .record 1 [.null,.int] (some 1) [.long,.top,.null]]
    let m := ((new 2 3).run calls).finish true
    Describes m 0 [.null,.int] [] ∧ Describes m 1 [.null,.int] [.long,.top,.null] ∧
      m.oopMapAt 2 = none := by
  intro calls m
  have hrec : Recordable 2 3 (recordsOf calls) := by
    refine ⟨by decide,?_,by decide⟩
    intro r hr r' hr' _ _
    simp only [calls,recordsOf,Call.toRecord,filterMap_cons,filterMap_nil,mem_cons,
      not_mem_nil,or_false] at hr hr'
    rcases hr with rfl | rfl <;> rcases hr' with rfl | rfl <;> rfl
  obtain ⟨-,-,hsome,hnone⟩ := finish_describes 2 3 (by decide) (by decide)
    calls true (by decide) (by decide) hrec
  exact ⟨hsome ⟨0,[.null,.int],some 1,[]⟩ (by decide),
    hsome ⟨1,[.null,.int],some 1,[.long,.top,.null]⟩ (by decide),(hnone 2 (by decide)).1⟩

/-- A stack deeper than `max_stack` is accepted, and its upper slot is described as no reference. -/
theorem finish_clamps_stack :
    Recordable 0 1 (recordsOf [.record 0 [] none [.null,.null]]) ∧
    holdsReference (runtimeSlots [.null,.null]) 1 = true ∧
    ((((new 0 1).run [.record 0 [] none [.null,.null]]).finish true).oopMapAt 0).map
      (fun map => map.2.get 1) = some false := by
  refine ⟨⟨by decide,?_,by decide⟩,by decide,by decide⟩
  intro r hr r' hr' hsome
  simp only [recordsOf,Call.toRecord,filterMap_cons,filterMap_nil,mem_cons,
    not_mem_nil,or_false] at hr
  subst hr
  cases hsome

namespace LocalsStore
end LocalsStore
end MethodTypeMapsBuilder
end CratonVM.Verifier
