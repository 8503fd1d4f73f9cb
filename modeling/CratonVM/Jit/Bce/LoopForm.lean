import CratonVM.Jit.LocalHomes.CfgProofs
import CratonVM.Jit.Scev.CountedLoop

/-!
Whether a rotated loop tests before its first array access (`pattern_b_loop_form` in
`jit/src/x64/bce.rs`). The marks of the instruction starts are kept as the list of marked positions.
-/
namespace CratonVM.Jit.Bce
open Bytecode Jvms Scev List Option Bool
open LocalHomes (pcsIn mem_pcsIn)

/-- The switches, the subroutine instructions and `goto_w` are not modelled. -/
def isUnmodelled (op : Nat) : Bool :=
  op = 0xaa || op = 0xab || op = 0xa8 || op = 0xa9 || op = 0xc8 || op = 0xc9

def isShortBranch (op : Nat) : Bool := within 0x99 0xa7 op || op = 0xc6 || op = 0xc7

def branchEdges (code : Code) (codeLen : Nat) : Option (List (Nat × Nat)) :=
  let codeLen := min codeLen code.length
  let pcs := pcsIn code 0 codeLen
  if pcs.any fun pc => isUnmodelled (opAt code pc) then none
  else some (pcs.filterMap fun pc =>
    if isShortBranch (opAt code pc) && pc+2 < codeLen then
      ((offsetBranchTarget code pc).filter (· < codeLen)).map (pc,·)
    else none)

structure BceMethodTables where
  edges : Option (List (Nat × Nat))
  starts : List Nat
  deriving DecidableEq, Repr

def BceMethodTables.build (code : Code) (codeLen : Nat) : BceMethodTables where
  edges := branchEdges code codeLen
  starts := pcsIn code 0 (min codeLen code.length)

/-- Whether the instruction in front of the header can fall into it. -/
def fallsThroughInto (code : Code) (starts : List Nat) (header : Nat) : Bool :=
  if header = 0 || !starts.contains header then true
  else
    match (List.range header).reverse.find? starts.contains with
    | none => true
    | some prev =>
      !(byteAt code prev).any fun op => op = 0xa7 || op = 0xa8 || op = 0xaa || op = 0xab ||
        within 0xac 0xb1 op || op = 0xbf || op = 0xc8 || op = 0xc9

def isArrayAccess (op : Nat) : Bool := within 0x2e 0x35 op || within 0x4f 0x56 op

def rangeContainsArrayAccess (code : Code) (from_ to_ : Nat) : Bool :=
  (pcsIn code from_ (min to_ code.length)).any fun pc => isArrayAccess (opAt code pc)

/-- Where control enters the loop: the targets of branches from outside, and the header when control
falls into it. -/
def loopEntries (code : Code) (tables : BceMethodTables) (edges : List (Nat × Nat))
    (header backEdgeEnd : Nat) : List Nat :=
  (edges.filter fun (src,target) =>
    (decide (target ≥ header) && decide (target < backEdgeEnd)) &&
      !(decide (src ≥ header) && decide (src < backEdgeEnd))).map Prod.snd ++
  if fallsThroughInto code tables.starts header then [header] else []

/-- An entry in front of the comparison must have no array access in between. -/
def testsFirst (code : Code) (cmpStart : Nat) (t : Nat) : Bool :=
  t = cmpStart || (!decide (t > cmpStart) && !rangeContainsArrayAccess code t cmpStart)

def patternBLoopForm (code : Code) (tables : BceMethodTables) (header backEdgeEnd cmpStart : Nat) :
    LoopForm :=
  match tables.edges with
  | none => .postTested
  | some edges =>
    if (loopEntries code tables edges header backEdgeEnd).all (testsFirst code cmpStart) then .preTested
    else .postTested

section
variable (code : Code) (codeLen : Nat) (handlers : List HandlerRange) (header backEdgeEnd : Nat)

/-- The loop's region. -/
def InRegion (pc : Nat) : Prop := header ≤ pc ∧ pc < backEdgeEnd

/-- Control enters the region at `t` from an instruction outside it, or with the method. -/
def Enters (t : Nat) : Prop :=
  InRegion header backEdgeEnd t ∧ (t = 0 ∨
    ∃ src, Starts code src ∧ src < codeLen ∧ ¬ InRegion header backEdgeEnd src ∧
      (Next code src t ∨ Leaves handlers src t))

/-- Control has been at the listed instructions of the region since it entered it at `t`, and is
now at the next one. -/
inductive Inside (t : Nat) : List Nat → Nat → Prop where
  | enter : Inside t [] t
  | step {visited : List Nat} {pc q : Nat} : Inside t visited pc →
    Next code pc q ∨ Leaves handlers pc q → InRegion header backEdgeEnd q → Inside t (visited++[pc]) q

/-- No array access of the region is executed before the comparison. -/
def TestsFirst (cmpStart : Nat) : Prop :=
  ∀ t visited pc, Enters code codeLen handlers header backEdgeEnd t →
    Inside code handlers header backEdgeEnd t visited pc → isArrayAccess (opAt code pc) = true →
    cmpStart ∈ visited ∨ pc = cmpStart

/-- Control enters by a branch or by falling through. -/
def EntersByCode (t : Nat) : Prop :=
  InRegion header backEdgeEnd t ∧ (t = 0 ∨
    ∃ src, Starts code src ∧ src < codeLen ∧ ¬ InRegion header backEdgeEnd src ∧ Next code src t)

/-- In front of the comparison control stays between the entry and the comparison. -/
inductive Straight (cmpStart t : Nat) : List Nat → Nat → Prop where
  | enter : Straight cmpStart t [] t
  | step {visited : List Nat} {pc q : Nat} : Straight cmpStart t visited pc →
    Next code pc q ∨ Leaves handlers pc q → InRegion header backEdgeEnd q →
    cmpStart ∈ visited ∨ pc = cmpStart ∨ t ≤ q ∧ q ≤ cmpStart →
    Straight cmpStart t (visited++[pc]) q

end

section
variable {code : Code} {codeLen : Nat} {handlers : List HandlerRange} {header backEdgeEnd cmpStart : Nat}

theorem Straight.inside {t pc : Nat} {visited : List Nat}
    (h : Straight code handlers header backEdgeEnd cmpStart t visited pc) :
    Inside code handlers header backEdgeEnd t visited pc := by
  induction h with
  | enter => exact .enter
  | step _ hedge hin _ ih => exact .step ih hedge hin

variable (hv : Verified code codeLen handlers)
include hv

theorem starts_of_pcsIn {p : Nat} : p ∈ pcsIn code 0 codeLen ↔ Starts code p ∧ p < codeLen := by
  rw [mem_pcsIn]
  constructor
  · rintro ⟨hr,hlt⟩
    refine ⟨?_,hlt⟩
    induction hr with
    | refl => exact .zero
    | @next pc hr ih =>
      obtain ⟨insn,hdec,-⟩ := hv.decodes (ih (by omega)) (by omega)
      rw [(verified_insn hv (ih (by omega)) (by omega) hdec).1]
      exact .next (ih (by omega)) hdec
  rintro ⟨hp,hlt⟩
  exact ⟨(inCode_of_starts hv hp hlt).1,hlt⟩

omit hv in
/-- What has a target is a branch of three bytes, unless it is one of those left out. -/
theorem branch_isShort {pc : Nat} {insn : Insn} (hdec : decode code pc = some insn) {t : Int}
    (ht : t ∈ insn.targets) (hplain : isUnmodelled (opAt code pc) = false) :
    isShortBranch (opAt code pc) = true ∧ insn.length = 3 := by
  obtain ⟨op,hop,hat,hlt,hcases⟩ := decode_cases hdec
  rw [hat] at hplain ⊢
  rcases hcases with ⟨rfl,hw⟩ | ⟨rfl,hw⟩ | ⟨rfl,hw⟩ | ⟨-,hw⟩
  · obtain ⟨real,idx,-,-,⟨-,rfl⟩ | ⟨-,rfl⟩ | ⟨-,rfl⟩⟩ := wide_eq_some hw
    all_goals cases ht
  · cases hplain
  · cases hplain
  obtain ⟨len,targets,hlen,hjumps,rfl⟩ := plain_eq_some hw
  have hall : ∀ op < 256, isUnmodelled op = false →
      (within 0x99 0xa7 op || within 0xc6 0xc7 op) = true →
      isShortBranch op = true ∧ lengthOf op = some 3 := by decide +kernel
  unfold jumps at hjumps
  split at hjumps
  · rename_i hbranch
    obtain ⟨hshort,hthree⟩ := hall op hlt hplain hbranch
    exact ⟨hshort,Option.some.inj (hlen.symm.trans hthree)⟩
  split at hjumps
  · rename_i hwide
    subst hwide
    cases hplain
  obtain rfl := Option.some.inj hjumps
  cases ht

theorem not_isUnmodelled {edges : List (Nat × Nat)} (h : branchEdges code codeLen = some edges)
    {pc : Nat} (hpc : Starts code pc) (hlt : pc < codeLen) : isUnmodelled (opAt code pc) = false := by
  unfold branchEdges at h
  rw [Nat.min_eq_left hv.within_code] at h
  dsimp only at h
  split at h
  · cases h
  rename_i hmodelled
  by_contra hun
  exact hmodelled (any_eq_true.mpr ⟨pc,(starts_of_pcsIn hv).mpr ⟨hpc,hlt⟩,by simpa using hun⟩)

theorem mem_branchEdges {edges : List (Nat × Nat)} (h : branchEdges code codeLen = some edges)
    {src t : Nat} (hsrc : Starts code src) (hlt : src < codeLen) {insn : Insn}
    (hdec : decode code src = some insn) (ht : (t : Int) ∈ insn.targets) : (src,t) ∈ edges := by
  have hplain := not_isUnmodelled hv h hsrc hlt
  unfold branchEdges at h
  rw [Nat.min_eq_left hv.within_code] at h
  dsimp only at h
  split at h
  · cases h
  obtain rfl := some.inj h
  have hmem := (starts_of_pcsIn hv).mpr ⟨hsrc,hlt⟩
  obtain ⟨-,hfit,-,htargets⟩ := verified_insn hv hsrc hlt hdec
  have htlt : t < codeLen := by
    obtain ⟨q,hq,-,hqlt⟩ := htargets _ ht
    rw [Int.ofNat.inj hq]
    exact hqlt
  obtain ⟨hshort,hlen⟩ := branch_isShort hdec ht hplain
  have hfound : offsetBranchTarget code src = some t := by
    rcases target_found hv.within_code hv.short hfit hdec ht htlt with hfound | ⟨hswitch,-⟩
    · exact hfound
    rcases hswitch with hop | hop
    all_goals
      rw [hop] at hplain
      cases hplain
  refine mem_filterMap.mpr ⟨src,hmem,?_⟩
  have hbytes : src+2 < codeLen := by omega
  simp [hshort,hbytes,hfound,htlt]

omit hv in
theorem decode_not_jsr {pc op : Nat} {insn : Insn} (hdec : decode code pc = some insn)
    (hop : byteAt code pc = some op) : op ≠ 0xa8 ∧ op ≠ 0xc9 := by
  obtain ⟨op',hop',-,-,hcases⟩ := decode_cases hdec
  obtain rfl := Option.some.inj (hop.symm.trans hop')
  rcases hcases with ⟨rfl,-⟩ | ⟨rfl,-⟩ | ⟨rfl,-⟩ | ⟨-,hw⟩
  · decide
  · decide
  · decide
  obtain ⟨len,targets,hlen,-⟩ := plain_eq_some hw
  constructor
  · rintro rfl
    cases hlen
  rintro rfl
  cases hlen

omit hv in
theorem find?_reverse_range {n k : Nat} {p : Nat → Bool} (hk : p k = true) (hlt : k < n)
    (hnone : ∀ j, k < j → j < n → p j = false) : (List.range n).reverse.find? p = some k := by
  induction n with
  | zero => omega
  | succ n ih => ?_
  rw [List.range_succ,List.reverse_append,List.reverse_singleton,List.singleton_append,List.find?_cons]
  by_cases hn : k = n
  · subst hn
    rw [hk]
  rw [hnone n (by omega) (by omega)]
  exact ih (by omega) fun j hj hjn => hnone j hj (by omega)

omit hv in
theorem eq_false_of_find?_reverse_range {n k j : Nat} {p : Nat → Bool}
    (h : (List.range n).reverse.find? p = some k) (hj : k < j) (hjn : j < n) : p j = false := by
  induction n with
  | zero => omega
  | succ n ih => ?_
  rw [List.range_succ,List.reverse_append,List.reverse_singleton,List.singleton_append,List.find?_cons] at h
  split at h
  · cases h
    omega
  by_cases hn : j = n
  · rw [hn]
    assumption
  · exact ih h (by omega)

theorem fallsThroughInto_of_falls {starts : List Nat} (hstarts : starts = pcsIn code 0 codeLen)
    {src : Nat} (hsrc : Starts code src) (hlt : src < codeLen) {insn : Insn}
    (hdec : decode code src = some insn) (hfalls : insn.falls = true) :
    fallsThroughInto code starts (src+insn.length) = true := by
  have hpos : 0 < insn.length := by
    rw [← (verified_insn hv hsrc hlt hdec).1]
    exact step_pos code src
  unfold fallsThroughInto
  split
  · rfl
  -- the start in front is the instruction that falls through
  have hprev : (range (src+insn.length)).reverse.find? starts.contains = some src := by
    refine find?_reverse_range ?_ (by omega) fun j hj hjlt => ?_
    · rw [hstarts,contains_iff_mem,starts_of_pcsIn hv]
      exact ⟨hsrc,hlt⟩
    rw [hstarts,← not_eq_true,contains_iff_mem,starts_of_pcsIn hv]
    rintro ⟨hjs,hjcode⟩
    have hle := (inCode_of_starts hv hsrc hlt).1.next_le (inCode_of_starts hv hjs hjcode).1 hj
    rw [(verified_insn hv hsrc hlt hdec).1] at hle
    omega
  rw [hprev]
  dsimp only
  obtain ⟨op,hop,hat,hoplt,-⟩ := decode_cases hdec
  have hall : ∀ op < 256, isUnconditional op = false → op ≠ 0xa8 → op ≠ 0xc9 →
      (op = 0xa7 || op = 0xa8 || op = 0xaa || op = 0xab || within 0xac 0xb1 op || op = 0xbf ||
        op = 0xc8 || op = 0xc9) = false := by decide +kernel
  have hgoes : isUnconditional op = false := by
    rw [← hat,isUnconditional_eq hdec,hfalls]
    rfl
  obtain ⟨hjsr,hjsrw⟩ := decode_not_jsr hdec hop
  rw [hop,any_some,hall op hoplt hgoes hjsr hjsrw]
  rfl

theorem mem_loopEntries {edges : List (Nat × Nat)} (h : branchEdges code codeLen = some edges)
    (hheader : Starts code header) (hlt : header < codeLen) {t : Nat}
    (ht : EntersByCode code codeLen header backEdgeEnd t) :
    t ∈ loopEntries code (.build code codeLen) edges header backEdgeEnd := by
  obtain ⟨hin,hzero | ⟨src,hsrc,hsrclt,hout,hnext⟩⟩ := ht
  · -- the method starts in the region
    have hh : header = 0 := by
      have := hin.1
      omega
    unfold loopEntries
    refine mem_append_right _ ?_
    rw [hh,fallsThroughInto,if_pos (by simp),hzero]
    exact mem_singleton.mpr rfl
  have hstarts : (BceMethodTables.build code codeLen).starts = pcsIn code 0 codeLen := by
    simp only [BceMethodTables.build,Nat.min_eq_left hv.within_code]
  obtain ⟨insn,hdec,⟨hfalls,rfl⟩ | htarget⟩ := hnext
  · -- falling into the region is falling into the header
    have hbefore : src < header := by
      unfold InRegion at hin hout
      omega
    have hle : src+insn.length ≤ header := by
      rw [← (verified_insn hv hsrc hsrclt hdec).1]
      exact (inCode_of_starts hv hsrc hsrclt).1.next_le (inCode_of_starts hv hheader hlt).1 hbefore
    have heq := Nat.le_antisymm hle hin.1
    have hfallsInto := fallsThroughInto_of_falls hv hstarts hsrc hsrclt hdec hfalls
    rw [heq] at hfallsInto ⊢
    unfold loopEntries
    refine mem_append_right _ ?_
    rw [hfallsInto,if_pos rfl]
    exact mem_singleton.mpr rfl
  have hedge := mem_branchEdges hv h hsrc hsrclt hdec htarget
  unfold loopEntries
  refine mem_append_left _ (mem_map.mpr ⟨(src,t),mem_filter.mpr ⟨hedge,?_⟩,rfl⟩)
  unfold InRegion at hin hout
  simp only [and_eq_true,not_eq_true',decide_eq_true_eq,and_eq_false_iff,
    decide_eq_false_iff_not]
  omega

theorem not_access_of_testsFirst {t pc : Nat} (h : testsFirst code cmpStart t = true)
    (ht : Starts code t) (htlt : t < codeLen) (hpc : Starts code pc) (hlt : pc < codeLen)
    (hle : t ≤ pc) (hcmp : pc < cmpStart) : isArrayAccess (opAt code pc) = false := by
  unfold testsFirst rangeContainsArrayAccess at h
  simp only [or_eq_true,decide_eq_true_eq,and_eq_true,not_eq_true',
    List.any_eq_false] at h
  rcases h with rfl | ⟨-,hnone⟩
  · omega
  have hreach : Reaches code t pc :=
    (inCode_of_starts hv ht htlt).1.of_le (inCode_of_starts hv hpc hlt).1 hle
  have hlen := hv.within_code
  simpa using hnone pc (mem_pcsIn.mpr ⟨hreach,by omega⟩)

/-- On every path into a loop that is reported pre-tested, as long as it stays between its entry and
the comparison, no array access comes before the comparison. -/
theorem patternBLoopForm_preTested (hheader : Starts code header) (hlt : header < codeLen)
    (h : patternBLoopForm code (.build code codeLen) header backEdgeEnd cmpStart = .preTested)
    {t pc : Nat} {visited : List Nat} (ht : EntersByCode code codeLen header backEdgeEnd t)
    (hpath : Straight code handlers header backEdgeEnd cmpStart t visited pc)
    (haccess : isArrayAccess (opAt code pc) = true) : cmpStart ∈ visited ∨ pc = cmpStart := by
  unfold patternBLoopForm at h
  cases hedges : (BceMethodTables.build code codeLen).edges with
  | none => simp [hedges] at h
  | some edges => ?_
  simp only [hedges] at h
  have hfirst : testsFirst code cmpStart t = true := by
    split at h
    · rename_i hall
      exact all_eq_true.mp hall t (mem_loopEntries hv hedges hheader hlt ht)
    · cases h
  have htstarts : Starts code t ∧ t < codeLen := by
    rcases ht.2 with rfl | ⟨src,hsrc,hsrclt,-,hnext⟩
    · exact ⟨.zero,hv.nonempty⟩
    · exact next_starts hv hsrc hsrclt hnext
  have hle : t ≤ cmpStart := by
    unfold testsFirst at hfirst
    simp only [or_eq_true,decide_eq_true_eq,and_eq_true,not_eq_true',
      decide_eq_false_iff_not] at hfirst
    omega
  -- until the comparison control is between the entry and the comparison
  have hwhere : (Starts code pc ∧ pc < codeLen) ∧
      (cmpStart ∈ visited ∨ pc = cmpStart ∨ t ≤ pc ∧ pc < cmpStart) := by
    clear haccess
    induction hpath with
    | enter => exact ⟨htstarts,by omega⟩
    | @step visited pc q _ hedge _ hstays ih => ?_
    obtain ⟨⟨hpc,hpclt⟩,-⟩ := ih
    refine ⟨?_,?_⟩
    · rcases hedge with hnext | hleaves
      · exact next_starts hv hpc hpclt hnext
      · exact leaves_starts hv hleaves
    rcases hstays with hseen | rfl | hstays
    · exact .inl (mem_append_left _ hseen)
    · exact .inl (by simp)
    · omega
  obtain ⟨⟨hpc,hpclt⟩,hseen | hat | ⟨hge,hbefore⟩⟩ := hwhere
  · exact .inl hseen
  · exact .inr hat
  rw [not_access_of_testsFirst hv hfirst htstarts.1 htstarts.2 hpc hpclt hge hbefore] at haccess
  cases haccess

end

/-- `while (c != 0 || i < n) { a[i]; i++; }` with the test behind the body. -/
def rotatedCode : Code :=
  [0xa7,0x00,0x0a,0x2a,0x1b,0x2e,0x57,0x84,0x01,0x01,0x1d,0x9a,0xff,0xf8,0x1b,0x1c,0xa1,0xff,0xf3,0xb1]

theorem rotatedCode_verified : Verified rotatedCode 20 [] := verified_of_verifies (by decide)

theorem rotatedCode_preTested :
    patternBLoopForm rotatedCode (.build rotatedCode 20) 3 19 14 = .preTested := by decide

theorem rotatedCode_entered : EntersByCode rotatedCode 20 3 19 10 :=
  ⟨by unfold InRegion; omega,.inr ⟨0,.zero,by decide,by unfold InRegion; omega,_,rfl,.inr (by decide)⟩⟩

/-- The test of `c` goes back to the body without the comparison. -/
theorem preTested_without_comparison :
    Verified rotatedCode 20 [] ∧
      patternBLoopForm rotatedCode (.build rotatedCode 20) 3 19 14 = .preTested ∧
      ¬ TestsFirst rotatedCode 20 [] 3 19 14 := by
  refine ⟨rotatedCode_verified,rotatedCode_preTested,fun h => ?_⟩
  have hin : ∀ {q}, 3 ≤ q → q < 19 → InRegion 3 19 q := fun h1 h2 => ⟨h1,h2⟩
  have h11 : Inside rotatedCode [] 3 19 10 [10] 11 :=
    .step .enter (.inl ⟨_,rfl,.inl ⟨rfl,rfl⟩⟩) (hin (by omega) (by omega))
  have h3 : Inside rotatedCode [] 3 19 10 [10,11] 3 :=
    .step h11 (.inl ⟨_,rfl,.inr (by decide)⟩) (hin (by omega) (by omega))
  have h4 : Inside rotatedCode [] 3 19 10 [10,11,3] 4 :=
    .step h3 (.inl ⟨_,rfl,.inl ⟨rfl,rfl⟩⟩) (hin (by omega) (by omega))
  have h5 : Inside rotatedCode [] 3 19 10 [10,11,3,4] 5 :=
    .step h4 (.inl ⟨_,rfl,.inl ⟨rfl,rfl⟩⟩) (hin (by omega) (by omega))
  obtain ⟨hregion,henters⟩ := rotatedCode_entered
  have hseen := h 10 _ 5 ⟨hregion,henters.imp_right fun ⟨src,h1,h2,h3,h4⟩ => ⟨src,h1,h2,h3,.inl h4⟩⟩ h5
    (by decide)
  revert hseen
  decide

theorem rotatedCode_header : Starts rotatedCode 3 :=
  @Starts.next _ 0 ⟨3,[10],false,none,none⟩ .zero (by decide +kernel)

/-- Through the comparison control comes back to the body tested. -/
theorem patternBLoopForm_preTested_rotated :
    Inside rotatedCode [] 3 19 10 [10,11,14,15,16,3,4] 5 ∧
      isArrayAccess (opAt rotatedCode 5) = true ∧ (14 ∈ [10,11,14,15,16,3,4] ∨ 5 = 14) := by
  have hin : ∀ {q}, 3 ≤ q → q < 19 → InRegion 3 19 q := fun h1 h2 => ⟨h1,h2⟩
  have h11 : Straight rotatedCode [] 3 19 14 10 [10] 11 :=
    .step .enter (.inl ⟨_,rfl,.inl ⟨rfl,rfl⟩⟩) (hin (by omega) (by omega)) (by decide)
  have h14 : Straight rotatedCode [] 3 19 14 10 [10,11] 14 :=
    .step h11 (.inl ⟨_,rfl,.inl ⟨rfl,rfl⟩⟩) (hin (by omega) (by omega)) (by decide)
  have h15 : Straight rotatedCode [] 3 19 14 10 [10,11,14] 15 :=
    .step h14 (.inl ⟨_,rfl,.inl ⟨rfl,rfl⟩⟩) (hin (by omega) (by omega)) (by decide)
  have h16 : Straight rotatedCode [] 3 19 14 10 [10,11,14,15] 16 :=
    .step h15 (.inl ⟨_,rfl,.inl ⟨rfl,rfl⟩⟩) (hin (by omega) (by omega)) (by decide)
  have h3 : Straight rotatedCode [] 3 19 14 10 [10,11,14,15,16] 3 :=
    .step h16 (.inl ⟨_,rfl,.inr (by decide)⟩) (hin (by omega) (by omega)) (by decide)
  have h4 : Straight rotatedCode [] 3 19 14 10 [10,11,14,15,16,3] 4 :=
    .step h3 (.inl ⟨_,rfl,.inl ⟨rfl,rfl⟩⟩) (hin (by omega) (by omega)) (by decide)
  have h5 : Straight rotatedCode [] 3 19 14 10 [10,11,14,15,16,3,4] 5 :=
    .step h4 (.inl ⟨_,rfl,.inl ⟨rfl,rfl⟩⟩) (hin (by omega) (by omega)) (by decide)
  have haccess : isArrayAccess (opAt rotatedCode 5) = true := by decide
  exact ⟨h5.inside,haccess,patternBLoopForm_preTested rotatedCode_verified rotatedCode_header (by decide)
    rotatedCode_preTested rotatedCode_entered h5 haccess⟩

end CratonVM.Jit.Bce
