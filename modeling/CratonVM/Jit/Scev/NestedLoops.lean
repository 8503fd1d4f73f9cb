import CratonVM.Jit.Scev.SpanProofs
import CratonVM.Jit.LoopAnalysis.Recognition

/-!
The environment of an inner loop (`RangeEnv::with_loop_iv_placed` in `jit/src/scev.rs`): the outer
loop's variable is bound to its span, whatever guards that span asks for.
-/
namespace CratonVM.Jit.Scev
open Bytecode LoopAnalysis Wrapping Option Bool

structure PlacedLoop where
  counted : CountedLoop
  headerPc : Nat
  backEdgePc : Nat
  deriving DecidableEq, Repr

namespace RangeEnv
/-- The first binding of a local meets the new range. -/
def bindIn (slot : Nat) (range : IntRange) : List (Nat × IntRange) → List (Nat × IntRange)
  | [] => [(slot,range)]
  | (l,r)::rest => if l = slot then (l,r.meet range)::rest else (l,r)::bindIn slot range rest

def bindLocal (env : RangeEnv) (slot : Nat) (range : IntRange) : RangeEnv :=
  { env with locals := bindIn slot range env.locals }

/-- The outer variable is bound to the values its exit test lets pass. -/
def withLoopIv (env : RangeEnv) (outer : CountedLoop) : RangeEnv :=
  match outer.ivSpan env with
  | .ok p => env.bindLocal outer.iv.local_ p.span.numeric
  | .error _ => env

/-- Nothing is bound when the outer body writes the variable in front of the inner loop. -/
def withLoopIvPlaced (env : RangeEnv) (outer : PlacedLoop) (code : Code) (innerHeaderPc : Nat) :
    RangeEnv :=
  if innerHeaderPc ≤ outer.headerPc ∨ innerHeaderPc ≥ outer.backEdgePc ∨ innerHeaderPc > code.length then
    env
  else
    match modifiedLocalsStrict code outer.headerPc innerHeaderPc with
    | some m =>
      if outer.counted.iv.local_ ≥ 64 || !m.testBit outer.counted.iv.local_ then
        env.withLoopIv outer.counted
      else env
    | none => env

variable {env : RangeEnv} {slot : Nat} {range : IntRange}

theorem contains_bindLocal {v : Int} (hown : (env.local_ slot).contains v = true)
    (h : range.contains v = true) : ((env.bindLocal slot range).local_ slot).contains v = true := by
  unfold local_ at hown ⊢
  unfold bindLocal
  generalize env.locals = bindings at hown ⊢
  induction bindings with
  | nil =>
    simp only [bindIn,List.find?,decide_true,map_some,getD_some]
    exact h
  | cons p rest ih => ?_
  obtain ⟨l,r⟩ := p
  rw [bindIn]
  by_cases hl : l = slot
  · simp only [hl,if_true,List.find?,decide_true,map_some,getD_some] at hown ⊢
    exact IntRange.contains_meet.mpr ⟨hown,h⟩
  simp only [hl,if_false,List.find?,decide_false] at hown ⊢
  exact ih hown

end RangeEnv

/-- Control goes from the outer header to `pc` through the body in front of the inner loop. -/
inductive PrefixRun (code : Code) (handlers : List HandlerRange) (header innerHeader : Nat)
    (start : Nat → { v : Int // IsInt v }) : Nat → (Nat → { v : Int // IsInt v }) → Prop where
  | header : PrefixRun code handlers header innerHeader start header start
  | step {pc q : Nat} {locals locals' : Nat → { v : Int // IsInt v }} :
    PrefixRun code handlers header innerHeader start pc locals → header ≤ pc → pc < innerHeader →
    Next code pc q → (∀ slot, ¬ Overwrites code pc slot → locals' slot = locals slot) →
    PrefixRun code handlers header innerHeader start q locals'
  | throws {pc q : Nat} {locals : Nat → { v : Int // IsInt v }} :
    PrefixRun code handlers header innerHeader start pc locals → header ≤ pc → pc < innerHeader →
    Leaves handlers pc q → PrefixRun code handlers header innerHeader start q locals

section
variable {code : Code} {codeLen : Nat} {handlers : List HandlerRange} {header innerHeader : Nat}
  {start : Nat → { v : Int // IsInt v }}

theorem PrefixRun.keeps (hv : Verified code codeLen handlers) (hstart : Jvms.Starts code header)
    (hlt : header < codeLen) (hinner : innerHeader ≤ code.length) {m : Nat}
    (hm : modifiedLocalsStrict code header innerHeader = some m) {slot : Nat}
    (hslot : slot ≥ 64 ∨ m.testBit slot = false) {pc : Nat} {locals : Nat → { v : Int // IsInt v }}
    (h : PrefixRun code handlers header innerHeader start pc locals) :
    (Jvms.Starts code pc ∧ pc < codeLen) ∧ locals slot = start slot := by
  induction h with
  | header => exact ⟨⟨hstart,hlt⟩,rfl⟩
  | @step pc q locals locals' _ hle hin hnext hkeeps ih => ?_
  | throws _ _ _ hleaves ih => exact ⟨leaves_starts hv hleaves,ih.2⟩
  obtain ⟨⟨hpc,hpclt⟩,ih⟩ := ih
  refine ⟨next_starts hv hpc hpclt hnext,?_⟩
  have hreach : Reaches code header pc :=
    (inCode_of_starts hv hstart hlt).1.of_le (inCode_of_starts hv hpc hpclt).1 hle
  rw [← ih]
  refine hkeeps slot fun hw => ?_
  obtain ⟨hsmall,hbit⟩ := modifiedLocalsStrict_covers hinner hm hreach hin hw
  rcases hslot with hge | hclear
  · omega
  rw [hclear] at hbit
  cases hbit

end

section
variable {L : CountedLoop} {R : LoopRun L}

/-- The step after iteration `k` does not wrap, and a stride that is read from a local is not
negative. -/
def LoopRun.StepsOn (R : LoopRun L) (k : Nat) : Prop :=
  IsInt (R.iv k+L.iv.stride.eval (R.state k)) ∧
    ∀ slot, L.iv.stride = .variable_ slot → 0 ≤ L.iv.stride.eval (R.state k)

/-- The record says nothing about the side of the entry value to which the variable would wrap. -/
def CountedLoop.EntryOpen (L : CountedLoop) : Prop :=
  if L.cmp.isIncreasing then L.iv.init.lo = some minInt else L.iv.init.hi = some maxInt

theorem numeric_of_tested {govLo govHi v : Int} {span : IvSpan} (hspan : L.spanOf govLo govHi = .ok span)
    (h : (L.testedRange govLo govHi).contains v = true) : span.numeric.contains v = true := by
  unfold CountedLoop.spanOf at hspan
  cases hform : L.form with
  | preTested =>
    simp only [hform] at hspan
    cases hspan
    split
    · exact h
    · exact h
  | postTested => ?_
  simp only [hform] at hspan
  split at hspan
  · cases hspan
  cases hspan
  split
  · exact IntRange.contains_join (.inl h)
  · exact IntRange.contains_join (.inl h)

variable {env : RangeEnv} (henv : env.Holds (R.state 0))

theorem iv_side (hdir : L.checkDirection = .ok ()) (hsteps : ∀ k, R.executed (k+1) → R.StepsOn k)
    {k : Nat} (hk : R.executed k) :
    if L.cmp.isIncreasing then R.iv 0 ≤ R.iv k else R.iv k ≤ R.iv 0 := by
  have hexec : ∀ j, j < k → R.executed (j+1) := fun j hj => R.executed_of_le hk hj
  have heq : ∀ j, j < k → L.iv.stride.eval (R.state j) = L.iv.stride.eval (R.state 0) :=
    fun j hj => LoopRun.stride_eq fun i hi => R.executed_of_le hk (by omega)
  have haffine := LoopRun.iv_affine (fun j hj => R.prior (hexec j hj))
    (fun j hj => heq j hj ▸ (hsteps j (hexec j hj)).1) k (Nat.le_refl k)
  rw [haffine]
  cases k with
  | zero => split <;> simp
  | succ k => ?_
  have hcast : (0 : Int) ≤ ((k+1 : Nat) : Int) := Int.natCast_nonneg _
  cases hs : L.iv.stride with
  | const s => ?_
  | variable_ slot =>
    rw [if_pos (CountedLoop.checkDirection_variable hs hdir).1]
    have hnonneg := (hsteps k hk).2 slot hs
    rw [heq k (by omega),hs] at hnonneg
    have hmul := Int.mul_nonneg hcast hnonneg
    omega
  obtain ⟨hne,hsign⟩ := CountedLoop.checkDirection_const hs hdir
  simp only [Stride.eval]
  split
  · rename_i hc
    have hmul := Int.mul_nonneg hcast (Int.le_of_lt (hsign.mpr hc))
    omega
  rename_i hc
  have hneg : s ≤ 0 := Int.not_lt.mp fun hpos => hc (hsign.mp hpos)
  have hmul := Int.mul_nonneg hcast (Int.neg_nonneg_of_nonpos hneg)
  rw [Int.mul_neg] at hmul
  omega

include henv

theorem numeric_contains {proven : ProvenSpan} (hspan : L.ivSpan env = .ok proven)
    (hsteps : L.EntryOpen ∨ ∀ k, R.executed (k+1) → R.StepsOn k) {k : Nat} (hk : R.executed k) :
    proven.span.numeric.contains (R.iv k) = true := by
  obtain ⟨govLo,govHi,hinv,hdir,hlo,hhi,hs,-⟩ := CountedLoop.ivSpan_eq_ok henv hspan
  have hinit := CountedLoop.init_bounds (R := R)
  have hword := isInt_iff.mp (R.isInt_iv k)
  have hside : if L.cmp.isIncreasing then L.iv.init.lo.getD minInt ≤ R.iv k
      else R.iv k ≤ L.iv.init.hi.getD maxInt := by
    rcases hsteps with hopen | hsteps
    · unfold CountedLoop.EntryOpen at hopen
      split
      · rename_i hc
        rw [if_pos hc] at hopen
        rw [hopen]
        exact hword.1
      rename_i hc
      rw [if_neg hc] at hopen
      rw [hopen]
      exact hword.2
    have := iv_side hdir hsteps hk
    split
    · rename_i hc
      rw [if_pos hc] at this
      omega
    rename_i hc
    rw [if_neg hc] at this
    omega
  have htested : L.form = .preTested ∨ 0 < k → (L.testedRange govLo govHi).contains (R.iv k) = true := by
    intro ht
    have hle := LoopRun.iv_le_extreme hinv hk ht
    refine CountedLoop.contains_testedRange (R.isInt_iv k) (fun hc => ?_) fun hc => ?_
    · rw [if_pos hc] at hle hside
      omega
    rw [if_neg (by simp [hc])] at hle hside
    omega
  by_cases hk0 : k = 0
  · subst hk0
    exact CountedLoop.numeric_spanOf hs hinv hlo hhi hk
  have hnum := htested (.inr (Nat.pos_of_ne_zero hk0))
  exact numeric_of_tested hs hnum

end

def LoopRun.Arrives {P : PlacedLoop} (R : LoopRun P.counted) (code : Code) (handlers : List HandlerRange)
    (innerHeaderPc k : Nat) (locals : Nat → { v : Int // IsInt v }) : Prop :=
  R.executed k ∧ PrefixRun code handlers P.headerPc innerHeaderPc (R.state k).locals innerHeaderPc locals

/-- In every run whose steps do not wrap the environment is true at the inner header, when what it
said before about the outer variable is. -/
theorem placedEnv_holds {P : PlacedLoop} {code : Code} {codeLen : Nat} {handlers : List HandlerRange}
    (hv : Verified code codeLen handlers) (hheader : Jvms.Starts code P.headerPc)
    (hlt : P.headerPc < codeLen) {innerHeaderPc : Nat} {env : RangeEnv} (R : LoopRun P.counted)
    (henv : env.Holds (R.state 0))
    (hown : ∀ k locals, R.Arrives code handlers innerHeaderPc k locals →
      (env.local_ P.counted.iv.local_).contains (locals P.counted.iv.local_) = true)
    (hsteps : P.counted.EntryOpen ∨ ∀ k, R.executed (k+1) → R.StepsOn k) :
    ∀ k locals, R.Arrives code handlers innerHeaderPc k locals →
      ((env.withLoopIvPlaced P code innerHeaderPc).local_ P.counted.iv.local_).contains
        (locals P.counted.iv.local_) = true := by
  intro k locals harrives
  have hkeep := hown k locals harrives
  obtain ⟨hk,hpath⟩ := harrives
  unfold RangeEnv.withLoopIvPlaced
  split
  · exact hkeep
  cases hm : modifiedLocalsStrict code P.headerPc innerHeaderPc with
  | none => exact hkeep
  | some m => ?_
  dsimp only
  split
  · rename_i hslot
    rw [or_eq_true,decide_eq_true_eq,not_eq_true'] at hslot
    obtain ⟨-,hsame⟩ := hpath.keeps hv hheader hlt (by omega) hm hslot
    unfold RangeEnv.withLoopIv
    split
    · rename_i proven hspan
      refine RangeEnv.contains_bindLocal hkeep ?_
      rw [hsame]
      exact numeric_contains henv hspan hsteps hk
    · exact hkeep
  · exact hkeep

/-- `for (i = 0; i <= n; i++) for (j = 0; j < i; j++);` with `n` in local 0. -/
def nestedCode : Code :=
  [0x03,0x3c,0x1b,0x1a,0xa3,0x00,0x16,0x03,0x3d,0x1c,0x1b,0xa2,0x00,0x09,0x84,0x02,0x01,0xa7,0xff,0xf8,
    0x84,0x01,0x01,0xa7,0xff,0xeb,0xb1]

def nestedOuter : PlacedLoop where
  counted := ⟨⟨1,.constant 0,.const 1⟩,.gt,.local_ 0,.unknown,.preTested,6,true,false⟩
  headerPc := 2
  backEdgePc := 23

/-- The locals at the outer header. -/
def nestedLocals (n : { v : Int // IsInt v }) (k : Nat) (slot : Nat) : { v : Int // IsInt v } :=
  if slot = 0 then n
  else if slot = 1 then ⟨wrap 32 k,fits_wrap (by decide) _⟩
  else ⟨0,isInt_zero⟩

variable (n : { v : Int // IsInt v }) (k : Nat)

theorem nestedLocals_limit : nestedLocals n k 0 = n := by
  simp [nestedLocals]

theorem nestedLocals_iv :
    (nestedLocals n k 1 : Int) = wrap 32 k := by
  simp [nestedLocals]

theorem nested_exits :
    nestedOuter.counted.cmp.exits (nestedLocals n k 1) (nestedLocals n k 0) = false ↔
      wrap 32 k ≤ n := by
  rw [nestedLocals_limit,nestedLocals_iv]
  simp only [nestedOuter,ExitCmp.exits,decide_eq_false_iff_not]
  omega

/-- The run of the outer loop: it goes on while its test lets the variable pass. -/
def nestedRun (n : { v : Int // IsInt v }) : LoopRun nestedOuter.counted where
  state k := ⟨nestedLocals n k,fun _ => ⟨0,by decide⟩,fun _ _ => ⟨0,isInt_zero⟩⟩
  executed k := ∀ j ≤ k, wrap 32 (j : Nat) ≤ n
  prior h j hj := h j (by omega)
  tested {k} h _ := (nested_exits n k).mpr (h k (Nat.le_refl k))
  starts _ h j hj := by
    obtain rfl : j = 0 := by omega
    rcases h with h | h
    · cases h
    · exact (nested_exits n 0).mp h
  goesOn _ {k} hk h j hj := by
    rcases Nat.lt_or_eq_of_le hj with hlt | rfl
    · exact hk j (by omega)
    · exact (nested_exits n (k+1)).mp h
  advances {k} _ := by
    dsimp only [nestedOuter,Stride.eval]
    rw [nestedLocals_iv,nestedLocals_iv]
    simp [wrap]
  keepsLocals {k} _ {l} hl := by
    have hne : l ≠ 1 := by
      rintro rfl
      have hbit : unmodified 6 1 = false := by decide
      exact Bool.false_ne_true (hbit.symm.trans hl)
    simp [nestedLocals,hne]
  keepsLengths _ _ _ := by dsimp only
  keepsFields _ _ _ _ _ _ := by dsimp only
  keepsStride _ := by simp only [nestedOuter,Stride.eval]
  entryInInit := by
    dsimp only [nestedOuter]
    rw [nestedLocals_iv]
    decide
  limitInRange := by
    dsimp only [nestedOuter,BoundSource.eval]
    rw [nestedLocals_limit]
    exact IntRange.contains_unknown.mpr n.property

theorem nestedCode_verified : Verified nestedCode 27 [] := verified_of_verifies (by decide)

theorem nested_header : Jvms.Starts nestedCode 2 := by
  have h1 : Jvms.Starts nestedCode 1 := @Jvms.Starts.next _ 0 ⟨1,[],true,none,none⟩ .zero rfl
  exact @Jvms.Starts.next _ 1 ⟨1,[],true,none,some 1⟩ h1 rfl

theorem nested_starts :
    PrefixRun nestedCode [] 2 9 (nestedLocals n k) 9 (nestedLocals n k) := by
  have hnext : ∀ {pc q : Nat}, PrefixRun nestedCode [] 2 9 (nestedLocals n k) pc (nestedLocals n k) →
      2 ≤ pc → pc < 9 → Next nestedCode pc q →
      PrefixRun nestedCode [] 2 9 (nestedLocals n k) q (nestedLocals n k) :=
    fun h hle hlt hq => .step h hle hlt hq fun _ _ => rfl
  have h3 := @hnext 2 3 .header (by decide) (by decide) ⟨_,rfl,.inl ⟨rfl,rfl⟩⟩
  have h4 := @hnext 3 4 h3 (by decide) (by decide) ⟨_,rfl,.inl ⟨rfl,rfl⟩⟩
  have h7 := @hnext 4 7 h4 (by decide) (by decide) ⟨_,rfl,.inl ⟨rfl,rfl⟩⟩
  have h8 := @hnext 7 8 h7 (by decide) (by decide) ⟨_,rfl,.inl ⟨rfl,rfl⟩⟩
  exact hnext h8 (by decide) (by decide) ⟨_,rfl,.inl ⟨rfl,rfl⟩⟩

def noFacts : RangeEnv := ⟨[],[]⟩

theorem noFacts_holds (s : LoopState) : noFacts.Holds s := ⟨by simp [noFacts],by simp [noFacts]⟩

theorem nestedEnv_eq : noFacts.withLoopIvPlaced nestedOuter nestedCode 9 = ⟨[(1,.range 0 maxInt)],[]⟩ := by
  decide

theorem nestedRun_iv : (nestedRun n).iv k = wrap 32 k := by
  have hstate : ((nestedRun n).state k).locals = nestedLocals n k := rfl
  rw [LoopRun.iv,hstate,← nestedLocals_iv n k]
  rfl

theorem nestedRun_stepsOn {n : { v : Int // IsInt v }} (hn : (n : Int) ≤ 3) {k : Nat}
    (hk : (nestedRun n).executed (k+1)) : (nestedRun n).StepsOn k := by
  have hle := hk k (Nat.le_succ k)
  have hword : IsInt (wrap 32 (k : Nat)) := fits_wrap (by decide) _
  have hmax : (4 : Int) ≤ maxInt := by decide
  refine ⟨?_,fun slot hs => by cases hs⟩
  have hstride : nestedOuter.counted.iv.stride.eval ((nestedRun n).state k) = 1 := rfl
  rw [isInt_iff] at hword ⊢
  rw [nestedRun_iv,hstride]
  omega

/-- With the greatest `int` as its limit the outer variable comes to the inner header negative. -/
theorem placedEnv_wrapped :
    Verified nestedCode 27 [] ∧ ∃ (R : LoopRun nestedOuter.counted) (k : Nat)
      (locals : Nat → { v : Int // IsInt v }), noFacts.Holds (R.state 0) ∧
      R.Arrives nestedCode [] 9 k locals ∧
      ((noFacts.withLoopIvPlaced nestedOuter nestedCode 9).local_ 1).contains (locals 1) = false := by
  refine ⟨nestedCode_verified,nestedRun ⟨maxInt,by decide⟩,2^31,_,noFacts_holds _,⟨fun j _ => ?_,
    nested_starts _ _⟩,?_⟩
  · exact (isInt_iff.mp (fits_wrap (by decide) _)).2
  rw [nestedEnv_eq,nestedLocals_iv]
  decide

theorem placedEnv_holds_upToThree :
    ∃ (R : LoopRun nestedOuter.counted) (locals : Nat → { v : Int // IsInt v }),
      R.Arrives nestedCode [] 9 2 locals ∧ (locals 1 : Int) = 2 ∧
      ((noFacts.withLoopIvPlaced nestedOuter nestedCode 9).local_ 1).contains (locals 1) = true := by
  have hint : IsInt 3 := by decide
  have hall : ∀ j ≤ 2, wrap 32 (j : Nat) ≤ 3 := by decide
  have htwo : wrap 32 (2 : Nat) = 2 := by decide
  have harrives : (nestedRun ⟨3,hint⟩).Arrives nestedCode [] 9 2 (nestedLocals ⟨3,hint⟩ 2) :=
    ⟨hall,nested_starts _ _⟩
  refine ⟨nestedRun ⟨3,hint⟩,nestedLocals ⟨3,hint⟩ 2,harrives,(nestedLocals_iv _ _).trans htwo,?_⟩
  refine placedEnv_holds nestedCode_verified nested_header (by decide) _ (noFacts_holds _) ?_
    (.inr fun k hk => nestedRun_stepsOn (Int.le_refl 3) hk) 2 _ harrives
  intro k locals _
  exact IntRange.contains_unknown.mpr (locals 1).property

end CratonVM.Jit.Scev
