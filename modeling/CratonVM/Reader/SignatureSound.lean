import CratonVM.Reader.Signature

/-!
The signature parser against its grammar, one way: what it accepts without a lapse is derivable.
-/
namespace CratonVM.Reader.Signature
open Computability SigParser List Language
open Option hiding or_self
open Bool hiding not_or or_self or_true true_or
section
theorem append_mem_kstar {L : Language Char} {v w : List Char} (hv : v ∈ L) (hw : w ∈ L∗) :
    v ++ w ∈ L∗ := by
  have hmul : v ++ w ∈ L*L∗ := mem_mul.mpr ⟨v,hv,w,hw,rfl⟩
  rw [← one_add_self_mul_kstar_eq_kstar]
  exact .inr hmul

theorem mem_literal {c : Char} {w : List Char} : w ∈ literal c ↔ w = [c] := Iff.rfl

theorem mem_identifier {w : List Char} : w ∈ identifier ↔ isIdentifier w = true := Iff.rfl

theorem identifier_ne_nil {w : List Char} (h : w ∈ identifier) : w ≠ [] := by
  rintro rfl
  cases h

theorem identifier_char {w : List Char} (h : w ∈ identifier) {c : Char} (hc : c ∈ w) :
    isIdentifierChar c = true := by
  simp only [mem_identifier,isIdentifier,and_eq_true,List.all_eq_true] at h
  exact h.2 c hc

variable {sep : Char}

theorem isJoined_of_identifier (hsep : isIdentifierChar sep = false) {i : List Char}
    (h : i ∈ identifier) : isJoined sep i = true := by
  have hnot : sep ∉ i := fun hmem => by
    have hc := identifier_char h hmem
    rw [hsep] at hc
    cases hc
  rw [isJoined,splitOn_eq_singleton hnot]
  simpa using (mem_identifier).mp h

theorem isJoined_append {i w : List Char} (h : isJoined sep i = true)
    (hw : isJoined sep w = true) : isJoined sep (i ++ sep::w) = true := by
  simp only [isJoined] at h hw ⊢
  rw [splitOn_append_cons_self,all_append,h,hw]
  rfl

theorem isJoined_cases {w : List Char} (h : isJoined sep w = true) :
    ∃ (i : List Char) (is : List (List Char)), i ∈ identifier ∧ (∀ j ∈ is, j ∈ identifier) ∧
      w = i ++ (is.map (sep::·)).flatten := by
  have hw := @intercalate_splitOn _ w _ _ sep
  have hne := splitOn_ne_nil sep w
  rw [isJoined,List.all_eq_true] at h
  generalize w.splitOn sep = pieces at h hw hne
  subst hw
  induction pieces with
  | nil => exact absurd rfl hne
  | cons i rest ih => ?_
  cases rest with
  | nil => exact ⟨i,[],h i (by simp),by simp,by simp [intercalate]⟩
  | cons j rest => ?_
  obtain ⟨i',is,hi',his,heq⟩ := ih (fun x hx => h x (by simp [hx])) (by simp)
  refine ⟨i,i'::is,h i (by simp),?_,?_⟩
  · intro x hx
    rcases mem_cons.mp hx with rfl | hx
    · exact hi'
    · exact his x hx
  rw [intercalate_cons_cons,heq]
  simp

theorem mem_className {w : List Char} :
    w ∈ (1+packageSpecifier)*identifier ↔ isJoined '/' w = true := by
  have hpkg : 1+packageSpecifier = (identifier*literal '/')∗ :=
    one_add_self_mul_kstar_eq_kstar _
  rw [hpkg]
  constructor
  · rintro ⟨a,ha,i,hi,rfl⟩
    obtain ⟨ws,rfl,hws⟩ := mem_kstar.mp ha
    clear ha
    induction ws with
    | nil => simpa using isJoined_of_identifier rfl hi
    | cons w ws ih =>
      obtain ⟨j,hj,s,rfl,rfl⟩ := mem_mul.mp (hws w (by simp))
      have hrest := ih (fun y hy => hws y (by simp [hy]))
      simpa using isJoined_append (isJoined_of_identifier rfl hj) hrest
  intro h
  obtain ⟨i,is,hi,his,rfl⟩ := isJoined_cases h
  clear h
  induction is generalizing i with
  | nil => exact mem_mul.mpr ⟨[],nil_mem_kstar _,i,hi,by simp⟩
  | cons j is ih => ?_
  obtain ⟨a,ha,k,hk,heq⟩ := mem_mul.mp (ih j (his j (by simp)) (fun x hx => his x (by simp [hx])))
  refine mem_mul.mpr ⟨(i ++ ['/']) ++ a,?_,k,hk,?_⟩
  · exact append_mem_kstar (mem_mul.mpr ⟨i,hi,['/'],rfl,rfl⟩) ha
  simp only [append_assoc,heq]
  simp

end

section
variable {p : SigParser} {c : Char}

theorem input_of_peek (h : p.peek = some c) : p.input = c::p.advance.input := by
  rw [peek] at h
  simp only [advance]
  cases hp : p.input with
  | nil => simp [hp] at h
  | cons a t =>
    simp_all

theorem expect_of_peek (h : p.peek = some c) : p.expect c = (true,p.advance) := by
  rw [expect,if_pos h]

theorem input_of_expect (h : (p.expect c).1 = true) : p.input = c::(p.expect c).2.input := by
  rw [expect] at h ⊢
  split at h
  · rename_i hpeek
    rw [if_pos hpeek]
    exact input_of_peek hpeek
  · cases h

@[simp] theorem expect_depthExceeded : (p.expect c).2.depthExceeded = p.depthExceeded := by
  rw [expect]
  split <;> rfl

@[simp] theorem advance_depthExceeded : p.advance.depthExceeded = p.depthExceeded := rfl

theorem input_of_readIdent : p.input = p.readIdent.1 ++ p.readIdent.2.input :=
  takeWhile_append_dropWhile.symm

@[simp] theorem readIdent_depthExceeded : p.readIdent.2.depthExceeded = p.depthExceeded := rfl

theorem input_of_readClassName : p.input = p.readClassName.1 ++ p.readClassName.2.input :=
  takeWhile_append_dropWhile.symm

@[simp] theorem readClassName_depthExceeded :
    p.readClassName.2.depthExceeded = p.depthExceeded := rfl

theorem lapse_eq_false {check : Bool} (h : lapse p check = false) (hp : p.depthExceeded = false) :
    check = true := by
  simpa [lapse,hp] using h

end

section
variable {α : Type}

/-- A refusal for depth is not forgotten. -/
def Sticky (f : SigParser → α × SigParser) : Prop :=
  ∀ p, (f p).2.depthExceeded = false → p.depthExceeded = false

theorem Sticky.collect {stop : SigParser → Bool} {step : SigParser → Option α × SigParser}
    (h : Sticky step) (n : Nat) : Sticky (collect stop step n) := by
  induction n with
  | zero => exact fun p hp => hp
  | succ n ih => ?_
  intro p hp
  rw [Signature.collect] at hp
  split at hp
  · exact hp
  split at hp
  · rename_i p' heq
    exact h p (by rw [heq]; exact ih p' hp)
  rename_i p' heq
  exact h p (by rw [heq]; exact hp)

theorem Sticky.collectMarked {ch : Char} {step : SigParser → Option α × SigParser}
    (h : Sticky step) (n : Nat) : Sticky (collectMarked ch step n) := by
  induction n with
  | zero => exact fun p hp => hp
  | succ n ih => ?_
  intro p hp
  rw [Signature.collectMarked] at hp
  split at hp
  · split at hp
    · rename_i p' heq
      exact h p.advance (by rw [heq]; exact ih p' hp)
    rename_i p' heq
    exact h p.advance (by rw [heq]; exact ih p' hp)
  · exact hp

theorem Sticky.collectAll {stop : SigParser → Bool} {step : SigParser → Option α × SigParser}
    (h : Sticky step) (n : Nat) : Sticky (collectAll stop step n) := by
  induction n with
  | zero => exact fun p hp => hp
  | succ n ih => ?_
  intro p hp
  rw [Signature.collectAll] at hp
  split at hp
  · exact hp
  split at hp
  · rename_i p' heq
    exact h p (by rw [heq]; exact ih p' hp)
  rename_i p' heq
  exact h p (by rw [heq]; exact hp)

variable {sub : SigParser → Option TypeSig × SigParser}

theorem Sticky.typeArg (h : Sticky sub) : Sticky (parseTypeArg sub) := by
  intro p hp
  rw [parseTypeArg] at hp
  split at hp
  · exact hp
  split at hp
  · exact hp
  split at hp
  · exact h p.advance hp
  split at hp
  · exact h p.advance hp
  · exact h p hp

theorem Sticky.typeArgs (h : Sticky sub) : Sticky (parseTypeArgs sub) := by
  intro p hp
  rw [parseTypeArgs] at hp
  split at hp
  · exact hp
  rename_i p' heq
  have hp' := h.typeArg.collect _ p' (by simpa using hp)
  have := @expect_depthExceeded p '<'
  rw [heq] at this
  exact this.symm.trans hp'

theorem Sticky.optTypeArgs (h : Sticky sub) : Sticky (optTypeArgs sub) := by
  intro p hp
  rw [Signature.optTypeArgs] at hp
  split at hp
  · exact h.typeArgs p hp
  · exact hp

theorem Sticky.suffixes (h : Sticky sub) (n : Nat) {p : SigParser} {fullName : List Char}
    {current : TypeSig} (hp : (parseSuffixes sub n fullName current p).2.depthExceeded = false) :
    p.depthExceeded = false := by
  induction n generalizing p fullName current with
  | zero => exact hp
  | succ n ih =>
    rw [parseSuffixes] at hp
    split at hp
    · exact h.optTypeArgs p.advance.readIdent.2 (ih hp)
    · exact hp

theorem Sticky.classTypeSig (h : Sticky sub) : Sticky (parseClassTypeSig sub) := by
  intro p hp
  simp only [parseClassTypeSig,expect_depthExceeded] at hp
  simpa using h.optTypeArgs _ (h.suffixes _ hp)

theorem Sticky.typeSigInner (h : Sticky sub) : Sticky (parseTypeSigInner sub) := by
  intro p hp
  rw [parseTypeSigInner] at hp
  split at hp
  · exact hp
  split at hp
  · exact hp
  split at hp
  · exact hp
  split at hp
  · exact h.classTypeSig p hp
  split at hp
  · simpa [parseTypeVarSig] using hp
  split at hp
  · exact h p.advance hp
  · exact hp

theorem sticky_typeSig (left : Nat) : Sticky (parseTypeSig left) := by
  induction left with
  | zero =>
    intro p hp
    cases hp
  | succ left ih => exact ih.typeSigInner

theorem sticky_topSig : Sticky parseTopSig := sticky_typeSig _

theorem sticky_classBound : Sticky parseClassBound := by
  intro p hp
  rw [parseClassBound] at hp
  split at hp
  · exact sticky_topSig p hp
  · exact hp

theorem sticky_typeParam : Sticky parseTypeParam := by
  intro p hp
  rw [parseTypeParam] at hp
  split at hp
  · exact hp
  have hexp := @expect_depthExceeded p.readIdent.2 ':'
  split at hp
  · rename_i p' heq
    rw [heq] at hexp
    exact hexp.symm.trans hp
  rename_i p' heq
  rw [heq] at hexp
  exact hexp.symm.trans (sticky_classBound _ ((sticky_topSig).collectMarked _ _ hp))

end

section
variable {α : Type}

/-- What is read without a lapse is a word of the language. -/
def Sound (f : SigParser → Option α × SigParser) (lapses : SigParser → Bool)
    (L : α → Language Char) : Prop :=
  ∀ p a, (f p).1 = some a → lapses p = false → (f p).2.depthExceeded = false →
    ∃ w ∈ L a, p.input = w ++ (f p).2.input

section
variable {stop lapses broken : SigParser → Bool} {step : SigParser → Option α × SigParser}
  {L : Language Char}

theorem Sound.collect {good : SigParser → Prop} (h : Sound step lapses fun _ => L)
    (hsticky : Sticky step)
    (hbroken : ∀ p, broken p = false → p.depthExceeded = false → ¬good p) (n : Nat) (p : SigParser)
    (hl : collectLapses stop step lapses broken n p = false)
    (hd : (collect stop step n p).2.depthExceeded = false) (hg : good (collect stop step n p).2) :
    ∃ ws : List (List Char), (∀ w ∈ ws, w ∈ L) ∧ ws.length = (collect stop step n p).1.length ∧
      p.input = ws.flatten ++ (collect stop step n p).2.input := by
  induction n generalizing p with
  | zero => exact ⟨[],by simp,rfl,rfl⟩
  | succ n ih => ?_
  rw [Signature.collect] at hd hg ⊢
  rw [collectLapses] at hl
  by_cases hstop : stop p = true
  · simp only [hstop,if_true]
    exact ⟨[],by simp,rfl,rfl⟩
  simp only [hstop,false_eq_true,if_false,or_eq_false_iff] at hd hg hl ⊢
  have hstep := h p
  rcases hread : step p with ⟨o,p'⟩
  rw [hread] at hd hg hl hstep
  cases o with
  | none => exact absurd hg (hbroken p' hl.2 hd)
  | some x => ?_
  obtain ⟨ws,hws,hlen,hin⟩ := ih p' hl.2 hd hg
  obtain ⟨w,hw,hpin⟩ := hstep x rfl hl.1 (hsticky.collect n p' hd)
  refine ⟨w::ws,?_,by simp [hlen],?_⟩
  · intro y hy
    rcases mem_cons.mp hy with rfl | hy
    · exact hw
    · exact hws y hy
  rw [hpin,hin]
  simp

theorem Sound.collectMarked {ch : Char} (h : Sound step lapses fun _ => L) (hsticky : Sticky step)
    (n : Nat) (p : SigParser) (hl : collectMarkedLapses ch step lapses n p = false)
    (hd : (collectMarked ch step n p).2.depthExceeded = false) :
    ∃ w ∈ (literal ch*L)∗, p.input = w ++ (collectMarked ch step n p).2.input := by
  induction n generalizing p with
  | zero => exact ⟨[],nil_mem_kstar _,rfl⟩
  | succ n ih => ?_
  rw [Signature.collectMarked] at hd ⊢
  rw [collectMarkedLapses] at hl
  by_cases hch : p.peek = some ch
  · simp only [hch,if_true,or_eq_false_iff] at hd hl ⊢
    have hstep := h p.advance
    rcases hread : step p.advance with ⟨o,p'⟩
    rw [hread] at hd hl hstep
    cases o with
    | none =>
      have hp' := hsticky.collectMarked n p' hd
      have := lapse_eq_false (or_eq_false_iff.mp hl.2).1 hp'
      cases this
    | some x => ?_
    obtain ⟨rest,hrest,hin⟩ := ih p' hl.2 hd
    obtain ⟨w,hw,hpin⟩ := hstep x rfl hl.1 (hsticky.collectMarked n p' hd)
    refine ⟨(ch::w) ++ rest,append_mem_kstar (mem_mul.mpr ⟨[ch],rfl,w,hw,rfl⟩) hrest,?_⟩
    rw [input_of_peek hch,hpin,hin]
    simp
  simp only [hch,if_false]
  exact ⟨[],nil_mem_kstar _,rfl⟩

theorem Sound.collectAll (h : Sound step lapses fun _ => L) (hsticky : Sticky step) (n : Nat)
    (p : SigParser) (hl : collectAllLapses stop step lapses n p = false)
    (hd : (collectAll stop step n p).2.depthExceeded = false) {xs : List α}
    (hxs : (collectAll stop step n p).1 = some xs) :
    ∃ w ∈ L∗, p.input = w ++ (collectAll stop step n p).2.input := by
  induction n generalizing p xs with
  | zero => exact ⟨[],nil_mem_kstar _,rfl⟩
  | succ n ih => ?_
  rw [Signature.collectAll] at hd hxs ⊢
  rw [collectAllLapses] at hl
  by_cases hstop : stop p = true
  · simp only [hstop,if_true]
    exact ⟨[],nil_mem_kstar _,rfl⟩
  simp only [hstop,false_eq_true,if_false,or_eq_false_iff] at hd hxs hl ⊢
  have hstep := h p
  rcases hread : step p with ⟨o,p'⟩
  rw [hread] at hd hxs hl hstep
  cases o with
  | none => cases hxs
  | some x => ?_
  obtain ⟨ys,hys,-⟩ := map_eq_some_iff.mp hxs
  obtain ⟨rest,hrest,hin⟩ := ih p' hl.2 hd hys
  obtain ⟨w,hw,hpin⟩ := hstep x rfl hl.1 (hsticky.collectAll n p' hd)
  refine ⟨w ++ rest,append_mem_kstar hw hrest,?_⟩
  rw [hpin,hin]
  simp

theorem Sound.angled (h : Sound step lapses fun _ => L) (hsticky : Sticky step) {p : SigParser}
    {n : Nat} (hopen : p.peek = some '<')
    (hl : collectLapses (stopAt '>') step lapses brokenOff n p.advance = false)
    (hclose : lapse (Signature.collect (stopAt '>') step n p.advance).2
      (!(Signature.collect (stopAt '>') step n p.advance).1.isEmpty &&
        ((Signature.collect (stopAt '>') step n p.advance).2.expect '>').1) = false)
    (hd : (Signature.collect (stopAt '>') step n p.advance).2.depthExceeded = false) :
    ∃ w ∈ literal '<'*(L*L∗)*literal '>',
      p.input = w ++ ((Signature.collect (stopAt '>') step n p.advance).2.expect '>').2.input := by
  have hbroken : ∀ p, brokenOff p = false → p.depthExceeded = false → ¬True := by
    intro p hb hp
    cases lapse_eq_false hb hp
  obtain ⟨ws,hws,hlen,hin⟩ := h.collect hsticky hbroken n p.advance hl hd trivial
  have hboth := lapse_eq_false hclose hd
  rw [and_eq_true] at hboth
  cases ws with
  | nil =>
    rw [length_nil,eq_comm,length_eq_zero_iff] at hlen
    simp [hlen] at hboth
  | cons w ws => ?_
  have hstar : ws.flatten ∈ L∗ := join_mem_kstar fun y hy => hws y (by simp [hy])
  have hinner : w ++ ws.flatten ∈ L*L∗ :=
    mem_mul.mpr ⟨w,hws w (by simp),ws.flatten,hstar,rfl⟩
  refine ⟨'<'::(w ++ ws.flatten) ++ ['>'],?_,?_⟩
  · exact mem_mul.mpr ⟨'<'::(w ++ ws.flatten),
      mem_mul.mpr ⟨['<'],rfl,_,hinner,rfl⟩,['>'],rfl,rfl⟩
  rw [input_of_peek hopen,hin,input_of_expect hboth.2]
  simp

end

section
/-- The words a signature of each kind is read from. -/
def kindLanguage : Nat → TypeSig → Language Char
  | 0,_ => 0
  | _+1,.base c => {w | w = [c] ∧ (c ∈ baseChars ∨ c = 'V')}
  | d+1,.cls _ _ _ => classTypeOver (referenceTypeSignature d)
  | _+1,.typeVar _ => typeVariableSignature
  | d+1,.array _ => literal '['*typeSignature d

variable {d : Nat} {a : TypeSig} {w : List Char}

section
variable (hw : w ∈ kindLanguage d a)
include hw

theorem mem_reference (h : isReference (some a) = true) :
    w ∈ referenceTypeSignature d := by
  cases d with
  | zero => cases hw
  | succ d => ?_
  cases a with
  | base c => cases h
  | cls _ _ _ => exact .inl (.inl hw)
  | typeVar _ => exact .inl (.inr hw)
  | array _ => exact .inr hw

theorem mem_typeSignature (h : isNotVoid (some a) = true) :
    w ∈ typeSignature d := by
  cases d with
  | zero => cases hw
  | succ d => ?_
  cases a with
  | base c =>
    obtain ⟨rfl,hc | rfl⟩ := hw
    · exact .inl ⟨c,hc,rfl⟩
    · cases h
  | cls _ _ _ => exact .inr (mem_reference hw rfl)
  | typeVar _ => exact .inr (mem_reference hw rfl)
  | array _ => exact .inr (mem_reference hw rfl)

theorem mem_classType (h : isClassType (some a) = true) :
    w ∈ classTypeSignature d := by
  cases d with
  | zero => cases hw
  | succ d =>
    cases a with
    | cls _ _ _ => exact hw
    | _ => cases h

theorem mem_throwable (h : isThrowable (some a) = true) :
    w ∈ classTypeSignature d+typeVariableSignature := by
  cases d with
  | zero => cases hw
  | succ d =>
    cases a with
    | cls _ _ _ => exact .inl hw
    | typeVar _ => exact .inr hw
    | _ => cases h

theorem mem_result : w ∈ result d := by
  cases d with
  | zero => cases hw
  | succ d => ?_
  cases a with
  | base c =>
    obtain ⟨rfl,hc | rfl⟩ := hw
    · exact .inl (.inl ⟨c,hc,rfl⟩)
    · exact .inr rfl
  | cls _ _ _ => exact .inl (mem_typeSignature hw rfl)
  | typeVar _ => exact .inl (mem_typeSignature hw rfl)
  | array _ => exact .inl (mem_typeSignature hw rfl)

end

variable {sub : SigParser → Option TypeSig × SigParser} {subLapses : SigParser → Bool}

theorem Sound.kind {kind : Option TypeSig → Bool} {L : Language Char}
    (h : Sound sub subLapses (kindLanguage d))
    (hkind : ∀ a w, w ∈ kindLanguage d a → kind (some a) = true → w ∈ L) :
    Sound sub (kindLapses sub subLapses kind) fun _ => L := by
  intro p a ha hl hd
  simp only [kindLapses,or_eq_false_iff] at hl
  obtain ⟨w,hw,hin⟩ := h p a ha hl.1 hd
  have hk := lapse_eq_false hl.2 hd
  rw [ha] at hk
  exact ⟨w,hkind a w hw hk,hin⟩

theorem Sound.typeArg (h : Sound sub subLapses (kindLanguage d)) :
    Sound (parseTypeArg sub) (typeArgLapses sub subLapses)
      fun _ => typeArgument (referenceTypeSignature d) := by
  have href := h.kind (fun a w => mem_reference)
  intro p x hx hl hd
  rw [parseTypeArg] at hx hd ⊢
  rw [typeArgLapses] at hl
  cases hpeek : p.peek with
  | none =>
    rw [hpeek] at hx
    cases hx
  | some c => ?_
  rw [hpeek] at hx hd hl
  have hin := input_of_peek hpeek
  by_cases hstar : c = '*'
  · simp only [hstar,if_true] at hin ⊢
    exact ⟨['*'],.inl rfl,hin⟩
  by_cases hplus : c = '+'
  · simp only [hplus,if_true,if_false,true_or,Char.reduceEq] at hx hd hl hin ⊢
    obtain ⟨a,ha,-⟩ := map_eq_some_iff.mp hx
    obtain ⟨w,hw,hrest⟩ := href _ a ha hl hd
    refine ⟨'+'::w,.inr (mem_mul.mpr ⟨['+'],.inl (.inr rfl),w,hw,rfl⟩),?_⟩
    rw [hin,hrest]
    rfl
  by_cases hminus : c = '-'
  · simp only [hminus,if_true,if_false,or_true,Char.reduceEq] at hx hd hl hin ⊢
    obtain ⟨a,ha,-⟩ := map_eq_some_iff.mp hx
    obtain ⟨w,hw,hrest⟩ := href _ a ha hl hd
    refine ⟨'-'::w,.inr (mem_mul.mpr ⟨['-'],.inr rfl,w,hw,rfl⟩),?_⟩
    rw [hin,hrest]
    rfl
  simp only [hstar,hplus,hminus,if_false,or_self] at hx hd hl ⊢
  obtain ⟨a,ha,-⟩ := map_eq_some_iff.mp hx
  obtain ⟨w,hw,hrest⟩ := href _ a ha hl hd
  exact ⟨w,.inr (mem_mul.mpr ⟨[],.inl (.inl rfl),w,hw,rfl⟩),hrest⟩

theorem Sound.typeArgs (h : Sound sub subLapses (kindLanguage d)) (hsticky : Sticky sub)
    {p : SigParser} (hopen : p.peek = some '<') (hl : typeArgsLapses sub subLapses p = false)
    (hd : (parseTypeArgs sub p).2.depthExceeded = false) :
    ∃ w ∈ typeArguments (referenceTypeSignature d), p.input = w ++ (parseTypeArgs sub p).2.input := by
  simp only [parseTypeArgs,typeArgsLapses,expect_of_peek hopen,or_eq_false_iff] at hl hd ⊢
  rw [expect_depthExceeded] at hd
  exact h.typeArg.angled hsticky.typeArg hopen hl.1 hl.2 hd

theorem Sound.optTypeArgs (h : Sound sub subLapses (kindLanguage d)) (hsticky : Sticky sub)
    {p : SigParser} (hl : optTypeArgsLapses sub subLapses p = false)
    (hd : (optTypeArgs sub p).2.depthExceeded = false) :
    ∃ w ∈ 1+typeArguments (referenceTypeSignature d), p.input = w ++ (optTypeArgs sub p).2.input := by
  rw [Signature.optTypeArgs] at hd ⊢
  rw [optTypeArgsLapses] at hl
  split at hl
  · rename_i hopen
    rw [if_pos hopen] at hd ⊢
    obtain ⟨w,hw,hin⟩ := h.typeArgs hsticky hopen hl hd
    exact ⟨w,.inr hw,hin⟩
  rename_i hopen
  rw [if_neg hopen]
  exact ⟨[],.inl rfl,rfl⟩

theorem suffixes_of_isJoined {R : Language Char} {q args : List Char} (hq : isJoined '.' q = true)
    (hargs : args ∈ 1+typeArguments R) : '.'::q ++ args ∈ (classTypeSignatureSuffix R)∗ := by
  have hone : ∀ i ∈ identifier, ∀ b ∈ 1+typeArguments R, '.'::i ++ b ∈ classTypeSignatureSuffix R :=
    fun i hi b hb => mem_mul.mpr ⟨['.'],rfl,i ++ b,mem_mul.mpr ⟨i,hi,b,hb,rfl⟩,rfl⟩
  obtain ⟨i,is,hi,his,rfl⟩ := isJoined_cases hq
  clear hq
  induction is generalizing i with
  | nil => simpa using append_mem_kstar (hone i hi args hargs) (nil_mem_kstar _)
  | cons j is ih =>
    have hrest := ih j (his j (by simp)) (fun x hx => his x (by simp [hx]))
    simpa using append_mem_kstar (hone i hi [] (.inl rfl)) hrest

theorem Sound.suffixes (h : Sound sub subLapses (kindLanguage d)) (hsticky : Sticky sub) (n : Nat)
    {p : SigParser} {fullName : List Char} {current : TypeSig}
    (hl : suffixLapses sub subLapses n p = false)
    (hd : (parseSuffixes sub n fullName current p).2.depthExceeded = false) :
    ∃ w ∈ (classTypeSignatureSuffix (referenceTypeSignature d))∗,
      p.input = w ++ (parseSuffixes sub n fullName current p).2.input := by
  induction n generalizing p fullName current with
  | zero => exact ⟨[],nil_mem_kstar _,rfl⟩
  | succ n ih => ?_
  rw [parseSuffixes] at hd ⊢
  rw [suffixLapses] at hl
  by_cases hdot : p.peek = some '.'
  · simp only [hdot,if_true,or_eq_false_iff] at hd hl ⊢
    obtain ⟨rest,hrest,hin⟩ := ih hl.2 hd
    have hargsd := hsticky.suffixes n hd
    obtain ⟨args,hargs,hargsin⟩ := h.optTypeArgs hsticky hl.1.2 hargsd
    have hpd : p.depthExceeded = false := by simpa using hsticky.optTypeArgs _ hargsd
    have hword := suffixes_of_isJoined (lapse_eq_false hl.1.1 hpd) hargs
    refine ⟨('.'::p.advance.readIdent.1 ++ args) ++ rest,?_,?_⟩
    · rw [← kstar_mul_kstar]
      exact mem_mul.mpr ⟨_,hword,rest,hrest,rfl⟩
    rw [input_of_peek hdot,@input_of_readIdent p.advance,hargsin,hin]
    simp
  simp only [hdot,if_false]
  exact ⟨[],nil_mem_kstar _,rfl⟩

theorem Sound.classTypeSig (h : Sound sub subLapses (kindLanguage d)) (hsticky : Sticky sub)
    {p : SigParser} (hopen : p.peek = some 'L') (hl : classTypeLapses sub subLapses p = false)
    (hd : (parseClassTypeSig sub p).2.depthExceeded = false) :
    ∃ w ∈ classTypeOver (referenceTypeSignature d), p.input = w ++ (parseClassTypeSig sub p).2.input := by
  simp only [parseClassTypeSig,classTypeLapses,expect_of_peek hopen,or_eq_false_iff] at hl hd ⊢
  rw [expect_depthExceeded] at hd
  have hargsd := hsticky.suffixes _ hd
  have hpd : p.depthExceeded = false := by simpa using hsticky.optTypeArgs _ hargsd
  obtain ⟨suffix,hsuffix,hsuffixin⟩ := h.suffixes hsticky _ hl.1.2 hd
  obtain ⟨args,hargs,hargsin⟩ := h.optTypeArgs hsticky hl.1.1.2 hargsd
  obtain ⟨pkg,hpkg,i,hi,hname⟩ := mem_mul.mp ((mem_className).mpr (lapse_eq_false hl.1.1.1 hpd))
  have hsimple : i ++ args ∈ simpleClassTypeSignature (referenceTypeSignature d) :=
    mem_mul.mpr ⟨i,hi,args,hargs,rfl⟩
  have hinner : pkg ++ (i ++ args) ++ suffix ∈
      (1+packageSpecifier)*simpleClassTypeSignature (referenceTypeSignature d)*
        (classTypeSignatureSuffix (referenceTypeSignature d))∗ :=
    mem_mul.mpr ⟨_,mem_mul.mpr ⟨pkg,hpkg,_,hsimple,rfl⟩,suffix,hsuffix,rfl⟩
  refine ⟨'L'::(pkg ++ (i ++ args) ++ suffix) ++ [';'],?_,?_⟩
  · exact mem_mul.mpr ⟨'L'::(pkg ++ (i ++ args) ++ suffix),
      mem_mul.mpr ⟨['L'],rfl,_,hinner,rfl⟩,[';'],rfl,rfl⟩
  have hsuffixes := hsuffixin.trans
    (congrArg (suffix ++ ·) (input_of_expect (lapse_eq_false hl.2 hd)))
  have hafter := hargsin.trans (congrArg (args ++ ·) hsuffixes)
  have hbody := (@input_of_readClassName p.advance).trans
    (congrArg (p.advance.readClassName.1 ++ ·) hafter)
  rw [input_of_peek hopen,hbody]
  simp only [cons_append,append_assoc,nil_append]
  rw [← append_assoc pkg i,hname]

theorem parseSuffixes_cls (n : Nat) (p : SigParser) (fullName name : List Char)
    (args : List TypeArg) (owner : Option TypeSig) :
    ∃ name' args' owner', (parseSuffixes sub n fullName (.cls name args owner) p).1 =
      .cls name' args' owner' := by
  induction n generalizing p fullName name args owner with
  | zero => exact ⟨name,args,owner,rfl⟩
  | succ n ih =>
    rw [parseSuffixes]
    split
    · exact ih _ _ _ _ _
    · exact ⟨name,args,owner,rfl⟩

theorem typeVarSig_sound {p : SigParser} (hopen : p.peek = some 'T') (hl : typeVarLapses p = false)
    (hd : (parseTypeVarSig p).2.depthExceeded = false) :
    ∃ w ∈ typeVariableSignature, p.input = w ++ (parseTypeVarSig p).2.input := by
  simp only [parseTypeVarSig,typeVarLapses,expect_of_peek hopen] at hl hd ⊢
  have hpd : p.depthExceeded = false := by simpa using hd
  have hboth := lapse_eq_false hl hpd
  rw [and_eq_true] at hboth
  refine ⟨'T'::p.advance.readIdent.1 ++ [';'],?_,?_⟩
  · exact mem_mul.mpr ⟨'T'::p.advance.readIdent.1,
      mem_mul.mpr ⟨['T'],rfl,_,hboth.1,rfl⟩,[';'],rfl,rfl⟩
  rw [input_of_peek hopen,@input_of_readIdent p.advance,input_of_expect hboth.2]
  simp

theorem Sound.typeSigInner (h : Sound sub subLapses (kindLanguage d)) (hsticky : Sticky sub) :
    Sound (parseTypeSigInner sub) (typeSigInnerLapses sub subLapses) (kindLanguage (d+1)) := by
  intro p a ha hl hd
  rw [parseTypeSigInner] at ha hd ⊢
  rw [typeSigInnerLapses] at hl
  cases hpeek : p.peek with
  | none =>
    rw [hpeek] at ha
    cases ha
  | some c => ?_
  rw [hpeek] at ha hd hl
  by_cases hbase : c ∈ baseChars
  · simp only [hbase,if_true] at ha ⊢
    obtain rfl := some.inj ha
    exact ⟨[c],⟨rfl,.inl hbase⟩,input_of_peek hpeek⟩
  simp only [hbase,if_false] at ha hd hl ⊢
  by_cases hV : c = 'V'
  · simp only [hV,if_true] at ha hpeek ⊢
    obtain rfl := some.inj ha
    exact ⟨['V'],⟨rfl,.inr rfl⟩,input_of_peek hpeek⟩
  by_cases hL : c = 'L'
  · simp only [hL,Char.reduceEq,if_true,if_false] at ha hpeek hd hl ⊢
    obtain ⟨w,hw,hin⟩ := h.classTypeSig hsticky hpeek hl hd
    obtain ⟨_,_,_,hcls⟩ := parseSuffixes_cls _ _ _ _ _ _
    obtain rfl := some.inj (ha.symm.trans (congrArg some hcls))
    exact ⟨w,hw,hin⟩
  by_cases hT : c = 'T'
  · simp only [hT,Char.reduceEq,if_true,if_false] at ha hpeek hd hl ⊢
    obtain rfl := some.inj ha
    exact typeVarSig_sound hpeek hl hd
  by_cases harray : c = '['
  · simp only [harray,Char.reduceEq,if_true,if_false] at ha hpeek hd hl ⊢
    obtain ⟨component,hc,rfl⟩ := map_eq_some_iff.mp ha
    obtain ⟨w,hw,hin⟩ := (h.kind fun a w => mem_typeSignature) _ component hc hl hd
    refine ⟨'['::w,mem_mul.mpr ⟨['['],rfl,w,hw,rfl⟩,?_⟩
    rw [input_of_peek hpeek,hin]
    rfl
  simp only [hV,hL,hT,harray,if_false] at ha
  cases ha

theorem typeSig_sound (left : Nat) :
    Sound (parseTypeSig left) (typeSigLapses left) (kindLanguage left) := by
  induction left with
  | zero =>
    intro p a ha
    cases ha
  | succ left ih => exact ih.typeSigInner (sticky_typeSig left)

end

section
theorem topSig_sound {kind : Option TypeSig → Bool} {L : Language Char}
    (hkind : ∀ a w, w ∈ kindLanguage maxSigDepth a → kind (some a) = true → w ∈ L) :
    Sound parseTopSig (topLapses kind) fun _ => L :=
  (typeSig_sound maxSigDepth).kind hkind

theorem classBound_sound {p : SigParser} (hl : classBoundLapses p = false)
    (hd : (parseClassBound p).2.depthExceeded = false) :
    ∃ w ∈ 1+referenceTypeSignature maxSigDepth, p.input = w ++ (parseClassBound p).2.input := by
  rw [parseClassBound] at hd ⊢
  rw [classBoundLapses] at hl
  split at hl
  · rename_i hpeek
    rw [if_pos hpeek] at hd ⊢
    rw [or_eq_false_iff] at hl
    obtain ⟨a,ha⟩ := isSome_iff_exists.mp (lapse_eq_false hl.2 hd)
    obtain ⟨w,hw,hin⟩ := topSig_sound (fun a w => mem_reference) p a ha hl.1 hd
    exact ⟨w,.inr hw,hin⟩
  rename_i hpeek
  rw [if_neg hpeek]
  exact ⟨[],.inl rfl,rfl⟩

theorem typeParam_sound :
    Sound parseTypeParam typeParamLapses fun _ => typeParameter maxSigDepth := by
  intro p x hx hl hd
  rw [parseTypeParam] at hx hd ⊢
  rw [typeParamLapses] at hl
  by_cases hempty : p.readIdent.1.isEmpty = true
  · simp only [hempty,if_true] at hx
    cases hx
  by_cases hcolon : (p.readIdent.2.expect ':').1 = true
  · have hname := input_of_expect hcolon
    have hpd := @expect_depthExceeded p.readIdent.2 ':'
    rcases hexp : p.readIdent.2.expect ':' with ⟨b,p'⟩
    rw [hexp] at hcolon hname hpd
    obtain rfl : b = true := hcolon
    simp only [hempty,hexp,false_eq_true,if_false,or_eq_false_iff] at hx hl hd ⊢
    have hboundd := (sticky_topSig).collectMarked _ _ hd
    obtain ⟨bound,hbound,hboundin⟩ := classBound_sound hl.1.2 hboundd
    obtain ⟨rest,hrest,hrestin⟩ :=
      (topSig_sound fun a w => mem_reference).collectMarked sticky_topSig _ _ hl.2 hd
    have hident := lapse_eq_false hl.1.1 (sticky_classBound _ hboundd)
    have hclass : ':'::bound ∈ classBound maxSigDepth :=
      mem_mul.mpr ⟨[':'],rfl,bound,hbound,rfl⟩
    refine ⟨p.readIdent.1 ++ (':'::bound ++ rest),?_,?_⟩
    · exact mem_mul.mpr ⟨_,hident,_,mem_mul.mpr ⟨_,hclass,rest,hrest,rfl⟩,rfl⟩
    have hafter := hname.trans (congrArg (':'::·) (hboundin.trans (congrArg (bound ++ ·) hrestin)))
    rw [@input_of_readIdent p,hafter]
    simp
  rcases hexp : p.readIdent.2.expect ':' with ⟨b,p'⟩
  rw [hexp] at hcolon
  obtain rfl : b = false := by simpa using hcolon
  simp only [hempty,hexp,false_eq_true,if_false] at hx
  cases hx

theorem optTypeParams_sound {p : SigParser} (hl : optTypeParamsLapses p = false)
    (hd : (optTypeParams p).2.depthExceeded = false) :
    ∃ w ∈ 1+typeParameters maxSigDepth, p.input = w ++ (optTypeParams p).2.input := by
  rw [optTypeParams] at hd ⊢
  rw [optTypeParamsLapses] at hl
  split at hl
  · rename_i hopen
    rw [if_pos hopen] at hd ⊢
    simp only [parseTypeParams,typeParamsLapses,expect_of_peek hopen,or_eq_false_iff] at hl hd ⊢
    rw [expect_depthExceeded] at hd
    obtain ⟨w,hw,hin⟩ := (typeParam_sound).angled sticky_typeParam hopen hl.1 hl.2 hd
    exact ⟨w,.inr hw,hin⟩
  rename_i hopen
  rw [if_neg hopen]
  exact ⟨[],.inl rfl,rfl⟩

theorem finishFullParse_eq_some {α : Type} {r : Option α × SigParser} {a : α}
    (h : finishFullParse r = some a) :
    r.1 = some a ∧ r.2.depthExceeded = false ∧ r.2.input = [] := by
  rw [finishFullParse] at h
  split at h
  · cases h
  rename_i hend
  simp only [atEnd,or_eq_true,not_or,not_eq_true,not_eq_true',not_eq_false,
    List.isEmpty_iff] at hend
  exact ⟨h,hend⟩

variable {sig : List Char}

theorem fieldSignature_sound {a : TypeSig} (h : parseFieldSignature sig = some a)
    (hl : fieldSignatureLapses sig = false) : sig ∈ fieldSignature maxSigDepth := by
  obtain ⟨ha,hd,hend⟩ := finishFullParse_eq_some h
  obtain ⟨w,hw,hin⟩ := topSig_sound (fun a w => mem_reference) _ a ha hl hd
  rw [hend,append_nil] at hin
  rw [show sig = w from hin]
  exact hw

theorem classSignature_sound {a : ClassSig} (h : parseClassSignature sig = some a)
    (hl : classSignatureLapses sig = false) : sig ∈ classSignature maxSigDepth := by
  obtain ⟨ha,hd,hend⟩ := finishFullParse_eq_some h
  simp only [parseClassSig,classSignatureLapses,or_eq_false_iff] at ha hd hend hl
  have hsuper := topSig_sound (fun a w => mem_classType) (optTypeParams { input := sig }).2
  have hsticky := sticky_topSig (optTypeParams { input := sig }).2
  rcases hread : parseTopSig (optTypeParams { input := sig }).2 with ⟨o,p⟩
  rw [hread] at ha hd hend hl hsuper hsticky
  cases o with
  | none => cases ha
  | some s => ?_
  have hbroken : ∀ p, brokenOffAtEnd p = false → p.depthExceeded = false → ¬p.input = [] := by
    intro p hb hp hnil
    have hcheck := lapse_eq_false hb hp
    simp [atEnd,hnil] at hcheck
  obtain ⟨ws,hws,-,hin⟩ :=
    (topSig_sound fun a w => mem_classType).collect sticky_topSig hbroken _ p hl.2 hd hend
  have hpd := (sticky_topSig).collect _ p hd
  obtain ⟨w,hw,hsuperin⟩ := hsuper s rfl hl.1.2 hpd
  obtain ⟨params,hparams,hparamsin⟩ := optTypeParams_sound hl.1.1 (hsticky hpd)
  have hstar := join_mem_kstar hws
  have hsig : sig = params ++ (w ++ ws.flatten) := by
    refine hparamsin.trans (congrArg (params ++ ·) (hsuperin.trans (congrArg (w ++ ·) ?_)))
    refine hin.trans ?_
    rw [show (collect atEnd parseTopSig p.input.length p).2.input = [] from hend,append_nil]
  rw [hsig]
  exact mem_mul.mpr ⟨params,hparams,_,mem_mul.mpr ⟨w,hw,_,hstar,rfl⟩,rfl⟩

theorem methodSignature_sound {a : MethodSig}
    (h : parseMethodSignature sig = some a) (hl : methodSignatureLapses sig = false) :
    sig ∈ methodSignature maxSigDepth := by
  obtain ⟨ha,hd,hend⟩ := finishFullParse_eq_some h
  simp only [parseMethodSig,methodSignatureLapses,or_eq_false_iff] at ha hd hend hl
  have hopen := @input_of_expect (optTypeParams { input := sig }).2 '('
  have hopend := @expect_depthExceeded (optTypeParams { input := sig }).2 '('
  rcases hexp : (optTypeParams { input := sig }).2.expect '(' with ⟨b,p⟩
  rw [hexp] at ha hd hend hl hopen hopend
  cases b with
  | false => cases ha
  | true => ?_
  simp only [or_eq_false_iff] at ha hd hend hl
  have hparam := (topSig_sound fun a w => mem_typeSignature).collectAll sticky_topSig _ p hl.2.1
  have hparamd := @Sticky.collectAll _ (stopAt ')') _ sticky_topSig p.input.length p
  rcases hread : collectAll (stopAt ')') parseTopSig p.input.length p with ⟨o,p₁⟩
  rw [hread] at ha hd hend hl hparam hparamd
  cases o with
  | none => cases ha
  | some paramTypes => ?_
  simp only [or_eq_false_iff] at ha hd hend hl
  have hreturn := typeSig_sound maxSigDepth (p₁.expect ')').2
  have hreturnd := sticky_topSig (p₁.expect ')').2
  rcases hret : parseTopSig (p₁.expect ')').2 with ⟨o,p₂⟩
  rw [hret] at ha hd hend hl hreturnd
  cases o with
  | none => cases ha
  | some returnType => ?_
  have hp₂ := (sticky_topSig).collectMarked _ p₂ hd
  have hp₁ : p₁.depthExceeded = false := by simpa using hreturnd hp₂
  have hp := hparamd hp₁
  obtain ⟨throws,hthrows,hthrowsin⟩ :=
    (topSig_sound fun a w => mem_throwable).collectMarked sticky_topSig _ p₂ hl.2.2.2 hd
  rw [show parseTypeSig maxSigDepth (p₁.expect ')').2 = (some returnType,p₂) from hret] at hreturn
  obtain ⟨ret,hret',hretin⟩ := hreturn returnType rfl hl.2.2.1.2 hp₂
  obtain ⟨types,htypes,htypesin⟩ := hparam hp₁ rfl
  obtain ⟨params,hparams,hparamsin⟩ := optTypeParams_sound hl.1 (hopend.symm.trans hp)
  have hclose := input_of_expect (lapse_eq_false hl.2.2.1.1 hp₁)
  have hrest : p₂.input = throws := by
    refine hthrowsin.trans ?_
    rw [show (collectMarked '^' parseTopSig p₂.input.length p₂).2.input = [] from hend,
      append_nil]
  have hsig : sig = params ++ ('('::(types ++ (')'::(ret ++ throws)))) := by
    rw [show sig = params ++ (optTypeParams { input := sig }).2.input from hparamsin,hopen rfl,
      show p.input = types ++ p₁.input from htypesin,hclose,
      show (p₁.expect ')').2.input = ret ++ p₂.input from hretin,hrest]
  rw [hsig]
  have htail : ret ++ throws ∈ result maxSigDepth*(throwsSignature maxSigDepth)∗ :=
    mem_mul.mpr ⟨ret,mem_result hret',throws,hthrows,rfl⟩
  have hafter : ')'::(ret ++ throws) ∈
      literal ')'*(result maxSigDepth*(throwsSignature maxSigDepth)∗) :=
    mem_mul.mpr ⟨[')'],rfl,_,htail,rfl⟩
  have hbody := mem_mul.mpr ⟨types,htypes,_,hafter,rfl⟩
  exact mem_mul.mpr ⟨params,hparams,_,mem_mul.mpr ⟨['('],rfl,_,hbody,rfl⟩,rfl⟩

end
end
end CratonVM.Reader.Signature
