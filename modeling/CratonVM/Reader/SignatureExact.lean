import CratonVM.Reader.SignatureSound

/-!
The signature parser against its grammar, the other way: it follows every derivation that it can
read without a lapse. So the two agree on every string that is read without one.
-/
namespace CratonVM.Reader.Signature
open Computability SigParser List Language
open Option hiding or_self
open Bool hiding not_or or_false or_self or_true true_or
section
variable {c : Char} {t : List Char} {e : Bool}

@[simp] theorem peek_cons : (⟨c::t,e⟩ : SigParser).peek = some c := rfl

@[simp] theorem advance_cons : (⟨c::t,e⟩ : SigParser).advance = ⟨t,e⟩ := rfl

@[simp] theorem expect_cons : (⟨c::t,e⟩ : SigParser).expect c = (true,⟨t,e⟩) :=
  expect_of_peek rfl

/-- Reading an identifier stops behind a word, or at a character of it that the parser does not
take for part of one. -/
theorem readIdent_append (q : List Char) (ht : ∀ c ∈ t.head?, isIdentByte c = false) :
    (⟨q ++ t,e⟩ : SigParser).readIdent = (q,⟨t,e⟩) ∨
      ∃ q₁ c q₂, c ∈ q ∧ isIdentByte c = false ∧
        (⟨q ++ t,e⟩ : SigParser).readIdent = (q₁,⟨c::q₂,e⟩) := by
  induction q with
  | nil =>
    left
    cases t with
    | nil => rfl
    | cons a t =>
      have ha := ht a rfl
      simp [readIdent,ha]
  | cons a q ih => ?_
  by_cases ha : isIdentByte a = true
  · rcases ih with h | ⟨q₁,c,q₂,hc,hbyte,h⟩
    · left
      simpa [readIdent,ha] using h
    refine .inr ⟨a::q₁,c,q₂,by simp [hc],hbyte,?_⟩
    simpa [readIdent,ha] using h
  refine .inr ⟨[],a,q ++ t,by simp,by simpa using ha,?_⟩
  simp [readIdent,ha]

theorem readClassName_append {q : List Char} (hq : ∀ c ∈ q, isClassNameByte c = true)
    (ht : ∀ c ∈ t.head?, isClassNameByte c = false) :
    (⟨q ++ t,e⟩ : SigParser).readClassName = (q,⟨t,e⟩) := by
  induction q with
  | nil => ?_
  | cons a q ih =>
    have ha := hq a (by simp)
    simpa [readClassName,ha] using ih fun c hc => hq c (by simp [hc])
  cases t with
  | nil => rfl
  | cons a t =>
    have ha := ht a rfl
    simp [readClassName,ha]

theorem isJoined_char {sep : Char} {w : List Char} (h : isJoined sep w = true) {c : Char}
    (hc : c ∈ w) : isIdentifierChar c = true ∨ c = sep := by
  obtain ⟨i,is,hi,his,rfl⟩ := isJoined_cases h
  rcases mem_append.mp hc with hc | hc
  · exact .inl (identifier_char hi hc)
  obtain ⟨l,hl,hcl⟩ := mem_flatten.mp hc
  obtain ⟨j,hj,rfl⟩ := mem_map.mp hl
  rcases mem_cons.mp hcl with rfl | hcl
  · exact .inr rfl
  · exact .inl (identifier_char (his j hj) hcl)

theorem length_le_flatten {ws : List (List Char)} (h : ∀ w ∈ ws, w ≠ []) :
    ws.length ≤ ws.flatten.length := by
  induction ws with
  | nil => simp
  | cons w ws ih =>
    have hw := length_pos_iff.mpr (h w (by simp))
    have hrest := ih fun v hv => h v (by simp [hv])
    simp only [length_cons,flatten_cons,length_append]
    omega

end

section
variable {α : Type}

/-- A word of the language is read off the input, unless there is a lapse. -/
def Complete (f : SigParser → Option α × SigParser) (lapses : SigParser → Bool)
    (L : Language Char) (follow : List Char → Prop) : Prop :=
  ∀ w ∈ L, ∀ rest, follow rest → lapses ⟨w ++ rest,false⟩ = false →
    ∃ a, f ⟨w ++ rest,false⟩ = (some a,⟨rest,false⟩)

variable {stop lapses broken : SigParser → Bool} {step : SigParser → Option α × SigParser}
  {L : Language Char} {follow : List Char → Prop} {rest : List Char}

theorem Complete.collect (h : Complete step lapses L follow)
    (hstop : ∀ w ∈ L, ∀ v, stop ⟨w ++ v,false⟩ = false) (hrest : stop ⟨rest,false⟩ = true)
    (hfollow : ∀ vs : List (List Char), (∀ v ∈ vs, v ∈ L) → follow (vs.flatten ++ rest))
    {ws : List (List Char)} (hws : ∀ w ∈ ws, w ∈ L) {n : Nat} (hn : ws.length ≤ n)
    (hl : collectLapses stop step lapses broken n ⟨ws.flatten ++ rest,false⟩ = false) :
    ∃ xs : List α, xs.length = ws.length ∧
      collect stop step n ⟨ws.flatten ++ rest,false⟩ = (xs,⟨rest,false⟩) := by
  induction ws generalizing n with
  | nil =>
    refine ⟨[],rfl,?_⟩
    cases n with
    | zero => rfl
    | succ n => simp [Signature.collect,hrest]
  | cons w ws ih => ?_
  cases n with
  | zero => cases hn
  | succ n => ?_
  have hws' : ∀ v ∈ ws, v ∈ L := fun v hv => hws v (by simp [hv])
  have hgo := hstop w (hws w (by simp)) (ws.flatten ++ rest)
  rw [flatten_cons,append_assoc] at hl ⊢
  rw [collectLapses] at hl
  simp only [hgo,false_eq_true,if_false,or_eq_false_iff] at hl
  obtain ⟨x,hx⟩ := h w (hws w (by simp)) (ws.flatten ++ rest) (hfollow ws hws') hl.1
  rw [hx] at hl
  obtain ⟨xs,hlen,hxs⟩ := ih hws' (by simpa using hn) hl.2
  refine ⟨x::xs,by simp [hlen],?_⟩
  simp [Signature.collect,hgo,hx,hxs]

theorem Complete.collectMarked {ch : Char} (h : Complete step lapses L fun _ => True)
    (hrest : rest.head? ≠ some ch) {ws : List (List Char)} (hws : ∀ w ∈ ws, w ∈ literal ch*L)
    {n : Nat} (hn : ws.length ≤ n)
    (hl : collectMarkedLapses ch step lapses n ⟨ws.flatten ++ rest,false⟩ = false) :
    ∃ xs : List α, collectMarked ch step n ⟨ws.flatten ++ rest,false⟩ = (xs,⟨rest,false⟩) := by
  induction ws generalizing n with
  | nil =>
    refine ⟨[],?_⟩
    cases n with
    | zero => rfl
    | succ n => simp [Signature.collectMarked,peek,hrest]
  | cons w ws ih => ?_
  cases n with
  | zero => cases hn
  | succ n => ?_
  obtain ⟨s,rfl,v,hv,rfl⟩ := mem_mul.mp (hws w (by simp))
  have hinput : (([ch] ++ v)::ws).flatten ++ rest = ch::(v ++ (ws.flatten ++ rest)) := by simp
  rw [hinput] at hl ⊢
  rw [collectMarkedLapses] at hl
  simp only [peek_cons,advance_cons,if_true,or_eq_false_iff] at hl
  obtain ⟨x,hx⟩ := h v hv (ws.flatten ++ rest) trivial hl.1
  rw [hx] at hl
  obtain ⟨xs,hxs⟩ := ih (fun u hu => hws u (by simp [hu])) (by simpa using hn) hl.2
  refine ⟨x::xs,?_⟩
  simp [Signature.collectMarked,hx,hxs]

theorem Complete.collectAll (h : Complete step lapses L fun _ => True)
    (hstop : ∀ w ∈ L, ∀ v, stop ⟨w ++ v,false⟩ = false) (hrest : stop ⟨rest,false⟩ = true)
    {ws : List (List Char)} (hws : ∀ w ∈ ws, w ∈ L) {n : Nat} (hn : ws.length ≤ n)
    (hl : collectAllLapses stop step lapses n ⟨ws.flatten ++ rest,false⟩ = false) :
    ∃ xs : List α, collectAll stop step n ⟨ws.flatten ++ rest,false⟩ = (some xs,⟨rest,false⟩) := by
  induction ws generalizing n with
  | nil =>
    refine ⟨[],?_⟩
    cases n with
    | zero => rfl
    | succ n => simp [Signature.collectAll,hrest]
  | cons w ws ih => ?_
  cases n with
  | zero => cases hn
  | succ n => ?_
  have hgo := hstop w (hws w (by simp)) (ws.flatten ++ rest)
  rw [flatten_cons,append_assoc] at hl ⊢
  rw [collectAllLapses] at hl
  simp only [hgo,false_eq_true,if_false,or_eq_false_iff] at hl
  obtain ⟨x,hx⟩ := h w (hws w (by simp)) (ws.flatten ++ rest) trivial hl.1
  rw [hx] at hl
  obtain ⟨xs,hxs⟩ := ih (fun v hv => hws v (by simp [hv])) (by simpa using hn) hl.2
  refine ⟨x::xs,?_⟩
  simp [Signature.collectAll,hgo,hx,hxs]

theorem Complete.angled (h : Complete step lapses L follow)
    (hne : ∀ w ∈ L, w ≠ []) (hstop : ∀ w ∈ L, ∀ v, stopAt '>' ⟨w ++ v,false⟩ = false)
    (hfollow : ∀ vs : List (List Char), (∀ v ∈ vs, v ∈ L) → follow (vs.flatten ++ '>'::rest))
    {u : List Char} (hu : u ∈ L*L∗) {n : Nat} (hn : u.length ≤ n)
    (hl : collectLapses (stopAt '>') step lapses broken n ⟨u ++ '>'::rest,false⟩ = false) :
    ∃ xs : List α, Signature.collect (stopAt '>') step n ⟨u ++ '>'::rest,false⟩ =
      (xs,⟨'>'::rest,false⟩) := by
  obtain ⟨w,hw,v,hv,rfl⟩ := mem_mul.mp hu
  obtain ⟨ws,rfl,hws⟩ := mem_kstar.mp hv
  have hall : ∀ y ∈ w::ws, y ∈ L := by
    intro y hy
    rcases mem_cons.mp hy with rfl | hy
    · exact hw
    · exact hws y hy
  have hlen := length_le_flatten fun y hy => hne y (hall y hy)
  obtain ⟨xs,-,hxs⟩ := h.collect hstop (by simp [stopAt]) hfollow hall (hlen.trans hn) hl
  exact ⟨xs,hxs⟩

end

section
variable {R : Language Char} {d : Nat} {w : List Char}

theorem classTypeOver_head (h : w ∈ classTypeOver R) : ∃ t, w = 'L'::t := by
  obtain ⟨u,hu,s,-,rfl⟩ := mem_mul.mp h
  obtain ⟨s',rfl,v,-,rfl⟩ := mem_mul.mp hu
  exact ⟨v ++ s,rfl⟩

theorem typeVariable_head (h : w ∈ typeVariableSignature) : ∃ t, w = 'T'::t := by
  obtain ⟨u,hu,s,-,rfl⟩ := mem_mul.mp h
  obtain ⟨s',rfl,v,-,rfl⟩ := mem_mul.mp hu
  exact ⟨v ++ s,rfl⟩

theorem reference_head (h : w ∈ referenceTypeSignature d) :
    ∃ c t, w = c::t ∧ c ∈ ['L','T','['] := by
  cases d with
  | zero => cases h
  | succ d => ?_
  rcases h with (h | h) | h
  · obtain ⟨t,rfl⟩ := classTypeOver_head h
    exact ⟨'L',t,rfl,by simp⟩
  · obtain ⟨t,rfl⟩ := typeVariable_head h
    exact ⟨'T',t,rfl,by simp⟩
  obtain ⟨s,rfl,v,-,rfl⟩ := mem_mul.mp h
  exact ⟨'[',v,rfl,by simp⟩

/-- The characters a type signature starts with. -/
def sigHeads : List Char := ['B','C','D','F','I','J','S','Z','L','T','[']

theorem typeSignature_head (h : w ∈ typeSignature d) : ∃ c t, w = c::t ∧ c ∈ sigHeads := by
  rcases h with h | h
  · cases d with
    | zero => cases h
    | succ d =>
      obtain ⟨c,hc,rfl⟩ := h
      exact ⟨c,[],rfl,by simp only [baseChars,sigHeads,mem_cons,not_mem_nil] at hc ⊢; tauto⟩
  obtain ⟨c,t,rfl,hc⟩ := reference_head h
  exact ⟨c,t,rfl,by simp only [sigHeads,mem_cons,not_mem_nil] at hc ⊢; tauto⟩

theorem typeSignature_ne_nil (h : w ∈ typeSignature d) : w ≠ [] := by
  obtain ⟨c,t,rfl,-⟩ := typeSignature_head h
  simp

theorem stopAt_typeSignature {ch : Char} (hch : ch ∉ sigHeads) (h : w ∈ typeSignature d)
    (v : List Char) : stopAt ch ⟨w ++ v,false⟩ = false := by
  obtain ⟨c,t,rfl,hc⟩ := typeSignature_head h
  have hne : c ≠ ch := fun heq => hch (heq ▸ hc)
  simp [stopAt,atEnd,hne]

end

section
variable {sub : SigParser → Option TypeSig × SigParser} {subLapses : SigParser → Bool}
  {d : Nat} {rest : List Char}

theorem Complete.kind {L : Language Char} {follow : List Char → Prop}
    (h : Complete sub subLapses L follow) (kind : Option TypeSig → Bool) :
    Complete sub (kindLapses sub subLapses kind) L follow := by
  intro w hw rest hf hl
  rw [kindLapses,or_eq_false_iff] at hl
  exact h w hw rest hf hl.1

theorem Complete.mono {L M : Language Char} {follow : List Char → Prop}
    (h : Complete sub subLapses M follow) (hle : ∀ w ∈ L, w ∈ M) : Complete sub subLapses L follow :=
  fun w hw => h w (hle w hw)

theorem Complete.typeArg (h : Complete sub subLapses (typeSignature d) fun _ => True) :
    Complete (parseTypeArg sub) (typeArgLapses sub subLapses)
      (typeArgument (referenceTypeSignature d)) fun _ => True := by
  have href := (h.mono fun w (hw : w ∈ referenceTypeSignature d) => .inr hw).kind isReference
  intro w hw rest _ hl
  rcases hw with hw | hw
  · obtain rfl := (mem_literal).mp hw
    exact ⟨.unbounded,by simp [parseTypeArg]⟩
  obtain ⟨s,hs,v,hv,rfl⟩ := mem_mul.mp hw
  rw [typeArgLapses] at hl
  rcases hs with (hs | hs) | hs
  · obtain rfl := (mem_one s).mp hs
    obtain ⟨c,t,rfl,hc⟩ := reference_head hv
    have hstar : c ≠ '*' := by rintro rfl; simp at hc
    have hplus : c ≠ '+' := by rintro rfl; simp at hc
    have hminus : c ≠ '-' := by rintro rfl; simp at hc
    simp only [nil_append,cons_append,peek_cons,hstar,hplus,hminus,if_false,or_self] at hl
    obtain ⟨a,ha⟩ := href _ hv rest trivial hl
    rw [cons_append] at ha
    exact ⟨.exact a,by simp [parseTypeArg,hstar,hplus,hminus,ha]⟩
  · obtain rfl := (mem_literal).mp hs
    obtain ⟨a,ha⟩ := href v hv rest trivial hl
    exact ⟨.extend a,by simp [parseTypeArg,ha]⟩
  obtain rfl := (mem_literal).mp hs
  obtain ⟨a,ha⟩ := href v hv rest trivial hl
  exact ⟨.super a,by simp [parseTypeArg,ha]⟩

theorem typeArgument_head {w : List Char} (h : w ∈ typeArgument (referenceTypeSignature d)) :
    ∃ c t, w = c::t ∧ c ≠ '>' := by
  rcases h with h | h
  · obtain rfl := (mem_literal).mp h
    exact ⟨'*',[],rfl,by decide⟩
  obtain ⟨s,hs,v,hv,rfl⟩ := mem_mul.mp h
  rcases hs with (hs | hs) | hs
  · obtain rfl := (mem_one s).mp hs
    obtain ⟨c,t,rfl,hc⟩ := reference_head hv
    exact ⟨c,t,rfl,by rintro rfl; simp at hc⟩
  · obtain rfl := (mem_literal).mp hs
    exact ⟨'+',v,rfl,by decide⟩
  obtain rfl := (mem_literal).mp hs
  exact ⟨'-',v,rfl,by decide⟩

theorem Complete.typeArgs (h : Complete sub subLapses (typeSignature d) fun _ => True)
    {w : List Char} (hw : w ∈ typeArguments (referenceTypeSignature d))
    (hl : typeArgsLapses sub subLapses ⟨w ++ rest,false⟩ = false) :
    ∃ args, parseTypeArgs sub ⟨w ++ rest,false⟩ = (args,⟨rest,false⟩) := by
  obtain ⟨v,hv,s,rfl,rfl⟩ := mem_mul.mp hw
  obtain ⟨s',rfl,u,hu,rfl⟩ := mem_mul.mp hv
  have hinput : ['<'] ++ u ++ ['>'] ++ rest = '<'::(u ++ '>'::rest) := by simp
  rw [hinput] at hl ⊢
  rw [typeArgsLapses,expect_cons] at hl
  simp only [or_eq_false_iff] at hl
  have hne : ∀ w ∈ typeArgument (referenceTypeSignature d), w ≠ [] := by
    intro w hw
    obtain ⟨c,t,rfl,-⟩ := typeArgument_head hw
    simp
  have hstop : ∀ w ∈ typeArgument (referenceTypeSignature d), ∀ v,
      stopAt '>' ⟨w ++ v,false⟩ = false := by
    intro w hw v
    obtain ⟨c,t,rfl,hc⟩ := typeArgument_head hw
    simp [stopAt,atEnd,hc]
  obtain ⟨xs,hxs⟩ := h.typeArg.angled hne hstop (fun _ _ => trivial) hu (by simp) hl.1
  exact ⟨xs,by rw [parseTypeArgs,expect_cons]; simp only [hxs,expect_cons]⟩

theorem Complete.optTypeArgs (h : Complete sub subLapses (typeSignature d) fun _ => True)
    {w : List Char} (hw : w ∈ 1+typeArguments (referenceTypeSignature d))
    (hrest : rest.head? ≠ some '<')
    (hl : optTypeArgsLapses sub subLapses ⟨w ++ rest,false⟩ = false) :
    ∃ args, optTypeArgs sub ⟨w ++ rest,false⟩ = (args,⟨rest,false⟩) := by
  rcases hw with hw | hw
  · obtain rfl := (mem_one w).mp hw
    exact ⟨[],by simp [Signature.optTypeArgs,peek,hrest]⟩
  have hpeek : (⟨w ++ rest,false⟩ : SigParser).peek = some '<' := by
    obtain ⟨v,hv,s,-,rfl⟩ := mem_mul.mp hw
    obtain ⟨s',rfl,u,-,rfl⟩ := mem_mul.mp hv
    simp
  rw [optTypeArgsLapses,if_pos hpeek] at hl
  rw [Signature.optTypeArgs,if_pos hpeek]
  exact h.typeArgs hw hl

theorem suffixes_group {R : Language Char} {w : List Char} (h : w ∈ (classTypeSignatureSuffix R)∗) :
    w = [] ∨ ∃ q args v, isJoined '.' q = true ∧ args ∈ 1+typeArguments R ∧
      v ∈ (classTypeSignatureSuffix R)∗ ∧ w = '.'::q ++ (args ++ v) ∧ (args = [] → v = []) := by
  obtain ⟨ws,rfl,hws⟩ := mem_kstar.mp h
  clear h
  induction ws with
  | nil => exact .inl rfl
  | cons w ws ih => ?_
  right
  have hws' : ∀ y ∈ ws, y ∈ classTypeSignatureSuffix R := fun y hy => hws y (by simp [hy])
  have hstar := join_mem_kstar hws'
  obtain ⟨s,rfl,u,hu,rfl⟩ := mem_mul.mp (hws w (by simp))
  obtain ⟨i,hi,args,hargs,rfl⟩ := mem_mul.mp hu
  have hjoined := isJoined_of_identifier (show isIdentifierChar '.' = false from rfl) hi
  by_cases hempty : args = []
  · subst hempty
    rcases ih hws' with hnil | ⟨q,b,v,hq,hb,hv,heq,hend⟩
    · refine ⟨i,[],[],hjoined,.inl rfl,nil_mem_kstar _,?_,fun _ => rfl⟩
      simp [flatten_cons,hnil]
    refine ⟨i ++ '.'::q,b,v,isJoined_append hjoined hq,hb,hv,?_,hend⟩
    simp [flatten_cons,heq]
  · refine ⟨i,args,ws.flatten,hjoined,hargs,hstar,by simp,fun h => absurd h hempty⟩

theorem suffix_head {R : Language Char} {w : List Char} (h : w ∈ (classTypeSignatureSuffix R)∗) :
    (w ++ ';'::rest).head? = some '.' ∨ w = [] := by
  rcases suffixes_group h with rfl | ⟨q,args,v,-,-,-,rfl,-⟩
  · exact .inr rfl
  · exact .inl rfl

theorem Complete.suffixes (h : Complete sub subLapses (typeSignature d) fun _ => True) {n : Nat}
    {w : List Char} (hw : w ∈ (classTypeSignatureSuffix (referenceTypeSignature d))∗)
    (hn : w.length ≤ n) {fullName : List Char} {current : TypeSig}
    (hl : suffixLapses sub subLapses n ⟨w ++ ';'::rest,false⟩ = false) :
    (parseSuffixes sub n fullName current ⟨w ++ ';'::rest,false⟩).2 = ⟨';'::rest,false⟩ ∨
      ∃ c t, c ≠ ';' ∧
        (parseSuffixes sub n fullName current ⟨w ++ ';'::rest,false⟩).2 = ⟨c::t,false⟩ := by
  induction n generalizing w fullName current with
  | zero =>
    obtain rfl := length_eq_zero_iff.mp (Nat.le_zero.mp hn)
    exact .inl rfl
  | succ n ih => ?_
  rcases suffixes_group hw with rfl | ⟨q,args,v,hq,hargs,hv,rfl,hend⟩
  · left
    simp [parseSuffixes]
  have hinput : '.'::q ++ (args ++ v) ++ ';'::rest = '.'::(q ++ (args ++ (v ++ ';'::rest))) := by simp
  rw [hinput] at hl ⊢
  rw [suffixLapses] at hl
  rw [parseSuffixes]
  simp only [peek_cons,advance_cons,if_true,or_eq_false_iff] at hl ⊢
  -- what follows the names: type arguments, or the end of the class type
  have hnext : ∀ c ∈ (args ++ (v ++ ';'::rest)).head?, isIdentByte c = false := by
    intro c hc
    rcases hargs with hargs | hargs
    · obtain rfl := (mem_one args).mp hargs
      obtain rfl := hend rfl
      obtain rfl : ';' = c := by simpa using hc
      decide
    obtain ⟨u,hu,s,-,rfl⟩ := mem_mul.mp hargs
    obtain ⟨s',rfl,u',-,rfl⟩ := mem_mul.mp hu
    obtain rfl : '<' = c := by simpa using hc
    decide
  rcases @readIdent_append (args ++ (v ++ ';'::rest)) false q hnext with
    hread | ⟨q₁,c,q₂,hcq,hc,hread⟩
  · simp only [hread] at hl ⊢
    have hafter : (v ++ ';'::rest).head? ≠ some '<' := by
      rcases @suffix_head rest _ _ hv with hhead | rfl
      · rw [hhead]
        decide
      · simp
    obtain ⟨as,has⟩ := h.optTypeArgs hargs hafter hl.1.2
    rw [has] at hl ⊢
    exact ih hv (by simp at hn; omega) hl.2
  -- a character that the parser does not take for part of an identifier
  have hident := isJoined_char hq hcq
  have hsemi : c ≠ ';' := by
    rintro rfl
    revert hident
    decide
  have hangle : c ≠ '<' := by
    rintro rfl
    revert hident
    decide
  have hdot : c ≠ '.' := by
    rintro rfl
    revert hc
    decide
  refine .inr ⟨c,q₂,hsemi,?_⟩
  simp only [hread]
  have hargs' : Signature.optTypeArgs sub ⟨c::q₂,false⟩ = ([],⟨c::q₂,false⟩) := by
    simp [Signature.optTypeArgs,hangle]
  rw [hargs']
  cases n with
  | zero => rfl
  | succ n => simp [parseSuffixes,hdot]

theorem Complete.classTypeSig (h : Complete sub subLapses (typeSignature d) fun _ => True) :
    Complete (parseClassTypeSig sub) (classTypeLapses sub subLapses)
      (classTypeOver (referenceTypeSignature d)) fun _ => True := by
  intro w hw rest _ hl
  obtain ⟨w₁,hw₁,s,rfl,rfl⟩ := mem_mul.mp hw
  obtain ⟨s',rfl,w₂,hw₂,rfl⟩ := mem_mul.mp hw₁
  obtain ⟨w₃,hw₃,suffix,hsuffix,rfl⟩ := mem_mul.mp hw₂
  obtain ⟨pkg,hpkg,w₄,hw₄,rfl⟩ := mem_mul.mp hw₃
  obtain ⟨i,hi,args,hargs,rfl⟩ := mem_mul.mp hw₄
  have hname : isJoined '/' (pkg ++ i) = true :=
    (mem_className).mp (mem_mul.mpr ⟨pkg,hpkg,i,hi,rfl⟩)
  have hinput : ['L'] ++ (pkg ++ (i ++ args) ++ suffix) ++ [';'] ++ rest =
      'L'::((pkg ++ i) ++ (args ++ (suffix ++ ';'::rest))) := by simp
  rw [hinput] at hl ⊢
  have hbytes : ∀ c ∈ pkg ++ i, isClassNameByte c = true := by
    intro c hc
    rcases isJoined_char hname hc with hc | rfl
    · simp only [isIdentifierChar,not_eq_true',decide_eq_false_iff_not,mem_cons,
        not_mem_nil,or_false,not_or] at hc
      simp [isClassNameByte,hc]
    · decide
  have hafter : (suffix ++ ';'::rest).head? ≠ some '<' := by
    rcases @suffix_head rest _ _ hsuffix with hhead | rfl
    · rw [hhead]
      decide
    · simp
  have hnext : ∀ c ∈ (args ++ (suffix ++ ';'::rest)).head?, isClassNameByte c = false := by
    intro c hc
    rcases hargs with hargs | hargs
    · obtain rfl := (mem_one args).mp hargs
      rw [nil_append] at hc
      rcases @suffix_head rest _ _ hsuffix with hhead | rfl
      · rw [hhead] at hc
        obtain rfl := some.inj hc
        decide
      obtain rfl : ';' = c := by simpa using hc
      decide
    obtain ⟨u,hu,s,-,rfl⟩ := mem_mul.mp hargs
    obtain ⟨s',rfl,u',-,rfl⟩ := mem_mul.mp hu
    obtain rfl : '<' = c := by simpa using hc
    decide
  have hread := @readClassName_append (args ++ (suffix ++ ';'::rest)) false (pkg ++ i) hbytes hnext
  simp only [classTypeLapses,expect_cons,hread,or_eq_false_iff] at hl
  obtain ⟨as,has⟩ := h.optTypeArgs hargs hafter hl.1.1.2
  rw [has] at hl
  simp only [parseClassTypeSig,expect_cons,hread,has]
  rcases h.suffixes hsuffix (by simp) hl.1.2 with hend | ⟨c,t,hc,hend⟩
  · rw [hend]
    exact ⟨_,rfl⟩
  rw [hend] at hl
  have hcheck := lapse_eq_false hl.2 rfl
  simp [expect,hc] at hcheck

theorem typeVarSig_complete :
    Complete parseTypeVarSig typeVarLapses typeVariableSignature fun _ => True := by
  intro w hw rest _ hl
  obtain ⟨w₁,hw₁,s,rfl,rfl⟩ := mem_mul.mp hw
  obtain ⟨s',rfl,i,hi,rfl⟩ := mem_mul.mp hw₁
  have hinput : ['T'] ++ i ++ [';'] ++ rest = 'T'::(i ++ ';'::rest) := by simp
  rw [hinput] at hl ⊢
  have hnext : ∀ c ∈ (';'::rest).head?, isIdentByte c = false := by
    intro c hc
    obtain rfl := some.inj hc
    decide
  rcases @readIdent_append (';'::rest) false i hnext with hread | ⟨q₁,c,q₂,hci,-,hread⟩
  · simp only [parseTypeVarSig,expect_cons,hread]
    exact ⟨_,rfl⟩
  have hident := identifier_char hi hci
  have hsemi : c ≠ ';' := by
    rintro rfl
    cases hident
  simp only [typeVarLapses,expect_cons,hread] at hl
  have hcheck := lapse_eq_false hl rfl
  simp [expect,hsemi] at hcheck

theorem Complete.typeSigInner (h : Complete sub subLapses (typeSignature d) fun _ => True) :
    Complete (parseTypeSigInner sub) (typeSigInnerLapses sub subLapses) (typeSignature (d+1))
      fun _ => True := by
  intro w hw rest _ hl
  rcases hw with ⟨c,hc,rfl⟩ | (hw | hw) | hw
  · exact ⟨.base c,by simp [parseTypeSigInner,hc]⟩
  · obtain ⟨t,rfl⟩ := classTypeOver_head hw
    have hbase : 'L' ∉ baseChars := by decide
    obtain ⟨a,ha⟩ := h.classTypeSig _ hw rest trivial hl
    rw [cons_append] at ha
    exact ⟨a,by simp [parseTypeSigInner,hbase,ha]⟩
  · obtain ⟨t,rfl⟩ := typeVariable_head hw
    have hbase : 'T' ∉ baseChars := by decide
    obtain ⟨a,ha⟩ := typeVarSig_complete _ hw rest trivial hl
    rw [cons_append] at ha
    exact ⟨a,by simp [parseTypeSigInner,hbase,ha]⟩
  obtain ⟨s,rfl,v,hv,rfl⟩ := mem_mul.mp hw
  have hbase : '[' ∉ baseChars := by decide
  obtain ⟨a,ha⟩ := h.kind isNotVoid v hv rest trivial hl
  exact ⟨.array a,by simp [parseTypeSigInner,hbase,ha]⟩

theorem typeSig_complete (left : Nat) :
    Complete (parseTypeSig left) (typeSigLapses left) (typeSignature left) fun _ => True := by
  induction left with
  | zero =>
    intro w hw
    rcases hw with hw | hw <;> cases hw
  | succ left ih => exact ih.typeSigInner

end

section
variable {rest : List Char}

theorem topSig_complete {L : Language Char} (kind : Option TypeSig → Bool)
    (hle : ∀ w ∈ L, w ∈ typeSignature maxSigDepth) :
    Complete parseTopSig (topLapses kind) L fun _ => True :=
  ((typeSig_complete maxSigDepth).mono hle).kind kind

theorem classTypeSignature_le {w : List Char} (h : w ∈ classTypeSignature maxSigDepth) :
    w ∈ typeSignature maxSigDepth := .inr (.inl (.inl h))

theorem throwable_le {w : List Char} (h : w ∈ classTypeSignature maxSigDepth+typeVariableSignature) :
    w ∈ typeSignature maxSigDepth := by
  rcases h with h | h
  · exact classTypeSignature_le h
  · exact .inr (.inl (.inr h))

theorem typeSig_identifier {i z : List Char} (hi : i ∈ identifier) (left : Nat) :
    typeSigLapses (left+1) ⟨i ++ ':'::z,false⟩ = true ∨
      (parseTypeSig (left+1) ⟨i ++ ':'::z,false⟩).2.depthExceeded = false ∧
        (isReference (parseTypeSig (left+1) ⟨i ++ ':'::z,false⟩).1 = false ∨
          (parseTypeSig (left+1) ⟨i ++ ':'::z,false⟩).1 = none) := by
  obtain ⟨c,i',rfl⟩ := exists_cons_of_ne_nil (identifier_ne_nil hi)
  rw [cons_append,typeSigLapses,typeSigInnerLapses,parseTypeSig,parseTypeSigInner]
  simp only [peek_cons]
  by_cases hbase : c ∈ baseChars
  · simp only [hbase,if_true]
    exact .inr ⟨rfl,.inl rfl⟩
  simp only [hbase,if_false]
  by_cases hV : c = 'V'
  · simp only [hV,if_true]
    exact .inr ⟨rfl,.inl rfl⟩
  by_cases hL : c = 'L'
  · subst hL
    left
    simp only [Char.reduceEq,if_false,if_true,classTypeLapses,expect_cons]
    have hname : isJoined '/' (⟨i' ++ ':'::z,false⟩ : SigParser).readClassName.1 = false := by
      rw [← not_eq_true]
      intro hjoined
      have hmem : ':' ∈ (⟨i' ++ ':'::z,false⟩ : SigParser).readClassName.1 := by
        have hbytes : ∀ c ∈ i', isClassNameByte c = true := by
          intro c hc
          have hchar := identifier_char hi (mem_cons_of_mem _ hc)
          simp only [isIdentifierChar,not_eq_true',decide_eq_false_iff_not,mem_cons,
            not_mem_nil,or_false,not_or] at hchar
          simp [isClassNameByte,hchar]
        rw [readClassName,takeWhile_append_of_pos hbytes]
        simp [isClassNameByte]
      rcases isJoined_char hjoined hmem with h | h
      · cases h
      · cases h
    rw [hname]
    rfl
  by_cases hT : c = 'T'
  · subst hT
    left
    simp only [Char.reduceEq,if_false,if_true,typeVarLapses,expect_cons]
    have hnext : ∀ c ∈ (':'::z).head?, isIdentByte c = false := by
      intro c hc
      obtain rfl := some.inj hc
      decide
    rcases @readIdent_append (':'::z) false i' hnext with hread | ⟨q₁,c,q₂,hci,-,hread⟩
    · rw [hread]
      simp [lapse,expect]
    have hident := identifier_char hi (mem_cons_of_mem _ hci)
    have hsemi : c ≠ ';' := by
      rintro rfl
      cases hident
    rw [hread]
    simp [lapse,expect,hsemi]
  have harray : c ≠ '[' := by
    rintro rfl
    cases @identifier_char _ hi '[' (by simp)
  simp only [hV,hL,hT,harray,if_false]
  exact .inr ⟨trivial,.inr trivial⟩

/-- What may follow a type parameter: the closing bracket, or another one. -/
def followsParam (rest : List Char) : Prop :=
  rest.head? = some '>' ∨ ∃ i ∈ identifier, ∃ z, rest = i ++ ':'::z

theorem followsParam.head_ne (h : followsParam rest) : rest.head? ≠ some ':' := by
  rcases h with h | ⟨i,hi,z,rfl⟩
  · rw [h]
    decide
  obtain ⟨c,i',rfl⟩ := exists_cons_of_ne_nil (identifier_ne_nil hi)
  have hc := @identifier_char _ hi c (by simp)
  rintro heq
  obtain rfl : c = ':' := by simpa using heq
  cases hc

theorem classBound_complete {b v : List Char} (hb : b ∈ 1+referenceTypeSignature maxSigDepth)
    (hv : v.head? = some ':' ∨ followsParam v) (hl : classBoundLapses ⟨b ++ v,false⟩ = false) :
    ∃ o, parseClassBound ⟨b ++ v,false⟩ = (o,⟨v,false⟩) := by
  rw [classBoundLapses] at hl
  rw [parseClassBound]
  rcases hb with hb | hb
  · obtain rfl := (mem_one b).mp hb
    rw [nil_append] at hl ⊢
    by_cases hpeek : (⟨v,false⟩ : SigParser).peek ≠ some ':' ∧ (⟨v,false⟩ : SigParser).peek ≠ some '>'
    · rcases hv with hv | hv | ⟨i,hi,z,rfl⟩
      · exact absurd hv hpeek.1
      · exact absurd hv hpeek.2
      rw [if_pos hpeek,or_eq_false_iff,topLapses,kindLapses,or_eq_false_iff] at hl
      rcases typeSig_identifier hi 255 with h | ⟨hd,h | h⟩
      · exact absurd (hl.1.1.symm.trans h) (by decide)
      · exact absurd ((lapse_eq_false hl.1.2 hd).symm.trans h) (by decide)
      have hsome := lapse_eq_false hl.2 hd
      rw [show (parseTopSig ⟨i ++ ':'::z,false⟩).1 = none from h] at hsome
      cases hsome
    rw [if_neg hpeek]
    exact ⟨none,rfl⟩
  obtain ⟨c,t,rfl,hc⟩ := reference_head hb
  have hpeek : (⟨c::t ++ v,false⟩ : SigParser).peek ≠ some ':' ∧
      (⟨c::t ++ v,false⟩ : SigParser).peek ≠ some '>' := by
    constructor
    · rintro heq
      obtain rfl : c = ':' := by simpa using heq
      revert hc
      decide
    rintro heq
    obtain rfl : c = '>' := by simpa using heq
    revert hc
    decide
  rw [if_pos hpeek,or_eq_false_iff] at hl
  rw [if_pos hpeek]
  obtain ⟨a,ha⟩ := topSig_complete isReference (fun w hw => .inr hw) _ hb v trivial hl.1
  exact ⟨some a,ha⟩

theorem typeParam_complete :
    Complete parseTypeParam typeParamLapses (typeParameter maxSigDepth) followsParam := by
  intro w hw rest hrest hl
  obtain ⟨i,hi,v,hv,rfl⟩ := mem_mul.mp hw
  obtain ⟨u,hu,bounds,hbounds,rfl⟩ := mem_mul.mp hv
  obtain ⟨s,rfl,b,hb,rfl⟩ := mem_mul.mp hu
  obtain ⟨ws,rfl,hws⟩ := mem_kstar.mp hbounds
  have hinput : i ++ ([':'] ++ b ++ ws.flatten) ++ rest = i ++ ':'::(b ++ (ws.flatten ++ rest)) := by
    simp
  rw [hinput] at hl ⊢
  rw [typeParamLapses] at hl
  rw [parseTypeParam]
  have hnext : ∀ c ∈ (':'::(b ++ (ws.flatten ++ rest))).head?, isIdentByte c = false := by
    intro c hc
    obtain rfl := some.inj hc
    decide
  rcases @readIdent_append (':'::(b ++ (ws.flatten ++ rest))) false i hnext with
    hread | ⟨q₁,c,q₂,hci,-,hread⟩
  · have hne : i.isEmpty = false := by simpa using identifier_ne_nil hi
    simp only [hread,hne,expect_cons,false_eq_true,if_false,or_eq_false_iff] at hl ⊢
    have hafter : (ws.flatten ++ rest).head? = some ':' ∨ followsParam (ws.flatten ++ rest) := by
      cases ws with
      | nil => exact .inr hrest
      | cons w ws =>
        obtain ⟨s,rfl,x,-,rfl⟩ := mem_mul.mp (hws w (by simp))
        exact .inl rfl
    obtain ⟨o,ho⟩ := classBound_complete hb hafter hl.1.2
    simp only [ho] at hl ⊢
    have hlen : ws.length ≤ (ws.flatten ++ rest).length := by
      have hflat := length_le_flatten fun w (hw : w ∈ ws) => by
        obtain ⟨s,rfl,x,-,rfl⟩ := mem_mul.mp (hws w hw)
        simp
      rw [length_append]
      omega
    obtain ⟨xs,hxs⟩ := (topSig_complete isReference fun w hw => .inr hw).collectMarked
      hrest.head_ne hws hlen hl.2
    rw [hxs]
    exact ⟨_,rfl⟩
  -- the name has a character that the parser does not take for part of it
  have hident := identifier_char hi hci
  have hcolon : c ≠ ':' := by
    rintro rfl
    cases hident
  have hexp : (⟨c::q₂,false⟩ : SigParser).expect ':' = (false,⟨c::q₂,false⟩) := by
    simp [expect,hcolon]
  simp only [hread,hexp] at hl
  split at hl <;> cases hl

theorem typeParameter_head {w : List Char} (h : w ∈ typeParameter maxSigDepth) :
    ∃ i ∈ identifier, ∃ z, w = i ++ ':'::z := by
  obtain ⟨i,hi,v,hv,rfl⟩ := mem_mul.mp h
  obtain ⟨u,hu,bounds,-,rfl⟩ := mem_mul.mp hv
  obtain ⟨s,rfl,b,-,rfl⟩ := mem_mul.mp hu
  exact ⟨i,hi,b ++ bounds,by simp⟩

theorem optTypeParams_complete {w : List Char} (hw : w ∈ 1+typeParameters maxSigDepth)
    (hrest : rest.head? ≠ some '<') (hl : optTypeParamsLapses ⟨w ++ rest,false⟩ = false) :
    ∃ params, optTypeParams ⟨w ++ rest,false⟩ = (params,⟨rest,false⟩) := by
  rcases hw with hw | hw
  · obtain rfl := (mem_one w).mp hw
    exact ⟨[],by simp [optTypeParams,peek,hrest]⟩
  obtain ⟨v,hv,s,rfl,rfl⟩ := mem_mul.mp hw
  obtain ⟨s',rfl,u,hu,rfl⟩ := mem_mul.mp hv
  have hinput : ['<'] ++ u ++ ['>'] ++ rest = '<'::(u ++ '>'::rest) := by simp
  rw [hinput] at hl ⊢
  rw [optTypeParamsLapses,peek_cons,if_pos rfl,typeParamsLapses,expect_cons] at hl
  simp only [or_eq_false_iff] at hl
  have hne : ∀ w ∈ typeParameter maxSigDepth, w ≠ [] := by
    intro w hw
    obtain ⟨i,-,z,rfl⟩ := typeParameter_head hw
    simp
  have hstop : ∀ w ∈ typeParameter maxSigDepth, ∀ v, stopAt '>' ⟨w ++ v,false⟩ = false := by
    intro w hw v
    obtain ⟨i,hi,z,rfl⟩ := typeParameter_head hw
    obtain ⟨c,i',rfl⟩ := exists_cons_of_ne_nil (identifier_ne_nil hi)
    have hc : c ≠ '>' := by
      rintro rfl
      cases @identifier_char _ hi '>' (by simp)
    simp [stopAt,atEnd,hc]
  have hfollow : ∀ vs : List (List Char), (∀ v ∈ vs, v ∈ typeParameter maxSigDepth) →
      followsParam (vs.flatten ++ '>'::rest) := by
    intro vs hvs
    cases vs with
    | nil => exact .inl rfl
    | cons v vs =>
      obtain ⟨i,hi,z,rfl⟩ := typeParameter_head (hvs v (by simp))
      exact .inr ⟨i,hi,z ++ (vs.flatten ++ '>'::rest),by simp⟩
  obtain ⟨xs,hxs⟩ := (typeParam_complete).angled hne hstop hfollow hu (by simp) hl.1
  exact ⟨xs,by rw [optTypeParams,peek_cons,if_pos rfl,parseTypeParams,expect_cons]; simp only [hxs,expect_cons]⟩

theorem fieldSignature_complete {sig : List Char} (h : sig ∈ fieldSignature maxSigDepth)
    (hl : fieldSignatureLapses sig = false) : (parseFieldSignature sig).isSome = true := by
  rw [fieldSignatureLapses] at hl
  obtain ⟨a,ha⟩ := topSig_complete isReference (fun w hw => .inr hw) sig h [] trivial (by simpa using hl)
  rw [append_nil] at ha
  simp [parseFieldSignature,ha,finishFullParse,atEnd]

theorem classSignature_complete {sig : List Char} (h : sig ∈ classSignature maxSigDepth)
    (hl : classSignatureLapses sig = false) : (parseClassSignature sig).isSome = true := by
  obtain ⟨params,hparams,v,hv,rfl⟩ := mem_mul.mp h
  obtain ⟨w,hw,u,hu,rfl⟩ := mem_mul.mp hv
  obtain ⟨ws,rfl,hws⟩ := mem_kstar.mp hu
  have hhead : (w ++ ws.flatten).head? ≠ some '<' := by
    obtain ⟨t,rfl⟩ := classTypeOver_head hw
    simp
  simp only [classSignatureLapses,or_eq_false_iff] at hl
  obtain ⟨ps,hps⟩ := optTypeParams_complete hparams hhead hl.1.1
  rw [hps] at hl
  have htop := topSig_complete isClassType fun w => classTypeSignature_le
  obtain ⟨s,hs⟩ := htop w hw ws.flatten trivial hl.1.2
  simp only [hs] at hl
  have hne : ∀ w ∈ ws, w ≠ [] := fun w hw => typeSignature_ne_nil (classTypeSignature_le (hws w hw))
  have hstop : ∀ w ∈ classTypeSignature maxSigDepth, ∀ v, atEnd ⟨w ++ v,false⟩ = false := by
    intro w hw v
    obtain ⟨t,rfl⟩ := classTypeOver_head hw
    rfl
  obtain ⟨xs,-,hxs⟩ := @Complete.collect _ _ _ _ _ _ _ [] htop hstop rfl (fun _ _ => trivial) ws hws _
    (length_le_flatten hne) (by simpa using hl.2)
  rw [append_nil] at hxs
  simp only [parseClassSignature,parseClassSig,hps,hs,hxs]
  rfl

theorem methodSignature_complete {sig : List Char} (h : sig ∈ methodSignature maxSigDepth)
    (hl : methodSignatureLapses sig = false) : (parseMethodSignature sig).isSome = true := by
  obtain ⟨params,hparams,v₁,hv₁,rfl⟩ := mem_mul.mp h
  obtain ⟨s,rfl,v₂,hv₂,rfl⟩ := mem_mul.mp hv₁
  obtain ⟨types,htypes,v₃,hv₃,rfl⟩ := mem_mul.mp hv₂
  obtain ⟨s',rfl,v₄,hv₄,rfl⟩ := mem_mul.mp hv₃
  obtain ⟨ret,hret,throws,hthrows,rfl⟩ := mem_mul.mp hv₄
  obtain ⟨ts,rfl,hts⟩ := mem_kstar.mp htypes
  obtain ⟨es,rfl,hes⟩ := mem_kstar.mp hthrows
  have hinput : params ++ (['('] ++ (ts.flatten ++ ([')'] ++ (ret ++ es.flatten)))) =
      params ++ '('::(ts.flatten ++ ')'::(ret ++ es.flatten)) := by simp
  rw [hinput] at hl ⊢
  simp only [methodSignatureLapses,or_eq_false_iff] at hl
  obtain ⟨ps,hps⟩ := optTypeParams_complete hparams (by simp) hl.1
  simp only [hps,expect_cons,or_eq_false_iff] at hl
  have htslen : ts.length ≤ (ts.flatten ++ ')'::(ret ++ es.flatten)).length := by
    have := length_le_flatten fun w hw => typeSignature_ne_nil (hts w hw)
    rw [length_append]
    omega
  obtain ⟨xs,hxs⟩ := (topSig_complete isNotVoid fun w hw => hw).collectAll
    (fun w hw v => stopAt_typeSignature (by decide) hw v) (by simp [stopAt]) hts htslen hl.2.1
  simp only [hxs,expect_cons,or_eq_false_iff] at hl
  have hreturn : ∃ a, parseTopSig ⟨ret ++ es.flatten,false⟩ = (some a,⟨es.flatten,false⟩) := by
    rcases hret with hret | hret
    · exact typeSig_complete maxSigDepth ret hret es.flatten trivial hl.2.2.1.2
    obtain rfl := (mem_literal).mp hret
    exact ⟨.base 'V',rfl⟩
  obtain ⟨a,ha⟩ := hreturn
  simp only [ha] at hl
  have heslen : es.length ≤ es.flatten.length := length_le_flatten fun w hw => by
    obtain ⟨s,rfl,x,-,rfl⟩ := mem_mul.mp (hes w hw)
    simp
  obtain ⟨ys,hys⟩ := @Complete.collectMarked _ _ _ _ [] _
    (topSig_complete isThrowable fun w => throwable_le) (by simp) es hes _ heslen (by simpa using hl.2.2.2)
  rw [append_nil] at hys
  simp only [parseMethodSignature,parseMethodSig,hps,expect_cons,hxs,ha,hys]
  rfl

/-- The three parsers are exact on every string that they read without passing over a violation. -/
theorem signatures_exact (sig : List Char) :
    (classSignatureLapses sig = false →
      ((parseClassSignature sig).isSome = true ↔ sig ∈ classSignature maxSigDepth)) ∧
    (methodSignatureLapses sig = false →
      ((parseMethodSignature sig).isSome = true ↔ sig ∈ methodSignature maxSigDepth)) ∧
    (fieldSignatureLapses sig = false →
      ((parseFieldSignature sig).isSome = true ↔ sig ∈ fieldSignature maxSigDepth)) := by
  refine ⟨fun hl => ⟨fun h => ?_,fun h => classSignature_complete h hl⟩,
    fun hl => ⟨fun h => ?_,fun h => methodSignature_complete h hl⟩,
    fun hl => ⟨fun h => ?_,fun h => fieldSignature_complete h hl⟩⟩
  · obtain ⟨a,ha⟩ := isSome_iff_exists.mp h
    exact classSignature_sound ha hl
  · obtain ⟨a,ha⟩ := isSome_iff_exists.mp h
    exact methodSignature_sound ha hl
  obtain ⟨a,ha⟩ := isSome_iff_exists.mp h
  exact fieldSignature_sound ha hl

theorem signatures_exact_listOfVariable :
    "Ljava/util/List<TT;>;".toList ∈ fieldSignature maxSigDepth :=
  ((signatures_exact "Ljava/util/List<TT;>;".toList).2.2 (by decide)).mp (by decide)

/-- A class type without its semicolon is accepted. -/
theorem missing_semicolon_accepted :
    (parseFieldSignature "Lfoo".toList).isSome = true ∧ "Lfoo".toList ∉ fieldSignature maxSigDepth := by
  refine ⟨by decide,fun h => ?_⟩
  rcases h with (h | h) | h
  · obtain ⟨u,hu,s,rfl,heq⟩ := mem_mul.mp h
    have hlast := congrArg getLast? heq
    simp at hlast
  · obtain ⟨t,heq⟩ := typeVariable_head h
    cases heq
  obtain ⟨s,rfl,v,-,heq⟩ := mem_mul.mp h
  cases heq

end
end CratonVM.Reader.Signature
