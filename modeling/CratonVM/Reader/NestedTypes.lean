import CratonVM.Reader.SignatureExact

/-!
Type signatures printed as JVMS 4.7.9.1 writes them, and that the parser of `reader/src/signature.rs`
reads a print back: a class type `L p/C0<A0>.C1<A1>…;` as the chain of its owners.
-/
namespace CratonVM.Reader.Signature
open SigParser List
section
def TypeSig.name : TypeSig → List Char
  | .cls name _ _ => name
  | _ => []

def TypeSig.args : TypeSig → List TypeArg
  | .cls _ args _ => args
  | _ => []

def TypeSig.isClass : TypeSig → Bool
  | .cls _ _ _ => true
  | _ => false

def framed (s : TypeSig) (body : List Char) : List Char :=
  if s.isClass then 'L'::(body++[';']) else body

def bracketed (args : List TypeArg) (text : List Char) : List Char :=
  if args.isEmpty then [] else '<'::(text++['>'])

mutual

/-- The print of a signature without the frame of a class type. -/
def body : TypeSig → List Char
  | .base ch => [ch]
  | .typeVar name => 'T'::(name++[';'])
  | .array component => '['::framed component (body component)
  | .cls name args none => name++bracketed args (argTexts args)
  | .cls name args (some owner) =>
    body owner++ '.'::(name.drop (owner.name.length+1)++bracketed args (argTexts args))

def argText : TypeArg → List Char
  | .exact s => framed s (body s)
  | .extend s => '+'::framed s (body s)
  | .super s => '-'::framed s (body s)
  | .unbounded => ['*']

def argTexts : List TypeArg → List Char
  | [] => []
  | a::as => argText a++argTexts as

end

def print (s : TypeSig) : List Char := framed s (body s)

mutual

/-- How many type signatures stand inside each other; an owner is on the level of what it owns. -/
def nesting : TypeSig → Nat
  | .base _ => 1
  | .typeVar _ => 1
  | .array component => nesting component+1
  | .cls _ args none => argNestings args+1
  | .cls _ args (some owner) => max (nesting owner) (argNestings args+1)

def argNesting : TypeArg → Nat
  | .exact s => nesting s
  | .extend s => nesting s
  | .super s => nesting s
  | .unbounded => 0

def argNestings : List TypeArg → Nat
  | [] => 0
  | a::as => max (argNesting a) (argNestings as)

end

/-- A letter, a digit, `_` or `$`. -/
def isPlainChar (c : Char) : Bool := c.isAlphanum || c = '_' || c = '$'

def TypeSig.owned : TypeSig → Bool
  | .cls _ _ (some _) => true
  | _ => false

mutual

/-- The names are plain behind the outermost class, and a class between two others has arguments. -/
def Readable : TypeSig → Prop
  | .base ch => ch ∈ baseChars ∨ ch = 'V'
  | .typeVar name => ∀ c ∈ name, isPlainChar c = true
  | .array component => Readable component
  | .cls name args none => (∀ c ∈ name, isClassNameByte c = true) ∧ ArgsReadable args
  | .cls name args (some owner) => Readable owner ∧ owner.isClass = true ∧
    (owner.owned = true → owner.args ≠ []) ∧
    (∃ inner, name = owner.name++ '$'::inner ∧ ∀ c ∈ inner, isPlainChar c = true) ∧ ArgsReadable args

def ArgReadable : TypeArg → Prop
  | .exact s => Readable s
  | .extend s => Readable s
  | .super s => Readable s
  | .unbounded => True

def ArgsReadable : List TypeArg → Prop
  | [] => True
  | a::as => ArgReadable a ∧ ArgsReadable as

end
end

section
variable {s : TypeSig}

theorem nesting_pos (s : TypeSig) : 0 < nesting s := by
  cases s with
  | cls name args owner => cases owner <;> simp only [nesting] <;> omega
  | _ =>
    simp only [nesting]
    omega

theorem head_print (h : Readable s) : ∃ c t, print s = c::t ∧ (c ∈ sigHeads ∨ c = 'V') := by
  cases s with
  | base ch => ?_
  | typeVar name => exact ⟨'T',_,rfl,.inl (by decide)⟩
  | array component => exact ⟨'[',_,rfl,.inl (by decide)⟩
  | cls name args owner => exact ⟨'L',_,rfl,.inl (by decide)⟩
  refine ⟨ch,[],rfl,?_⟩
  rcases h with h | h
  · left
    revert h
    simp only [baseChars,sigHeads,mem_cons,not_mem_nil,or_false]
    tauto
  · exact .inr h

theorem head_argText {a : TypeArg} (h : ArgReadable a) : ∃ c t, argText a = c::t ∧ c ≠ '>' := by
  cases a with
  | exact s => ?_
  | extend s => exact ⟨'+',_,rfl,by decide⟩
  | super s => exact ⟨'-',_,rfl,by decide⟩
  | unbounded => exact ⟨'*',[],rfl,by decide⟩
  obtain ⟨c,t,hprint,hc⟩ := head_print h
  refine ⟨c,t,hprint,?_⟩
  rintro rfl
  revert hc
  decide

theorem length_le_argTexts {args : List TypeArg} (h : ArgsReadable args) : args.length ≤ (argTexts args).length := by
  induction args with
  | nil => exact Nat.zero_le _
  | cons a args ih =>
    obtain ⟨c,t,htext,-⟩ := head_argText h.1
    have hrest := ih h.2
    rw [argTexts,htext,length_cons,length_append,length_cons]
    omega

end

section
variable {sub : SigParser → Option TypeSig × SigParser} {left : Nat} {rest : List Char} {e : Bool}

def TakesBack (left : Nat) (sub : SigParser → Option TypeSig × SigParser) : Prop :=
  ∀ s rest e, Readable s → nesting s ≤ left → sub ⟨print s++rest,e⟩ = (some s,⟨rest,e⟩)

theorem parseTypeArg_argText (h : TakesBack left sub) {a : TypeArg} (ha : ArgReadable a)
    (hle : argNesting a ≤ left) : parseTypeArg sub ⟨argText a++rest,e⟩ = (some a,⟨rest,e⟩) := by
  cases a with
  | exact s => ?_
  | extend s =>
    have hsub := h s rest e ha hle
    show parseTypeArg sub ⟨'+'::(print s++rest),e⟩ = _
    simp [parseTypeArg,hsub]
  | super s =>
    have hsub := h s rest e ha hle
    show parseTypeArg sub ⟨'-'::(print s++rest),e⟩ = _
    simp [parseTypeArg,hsub]
  | unbounded => rfl
  obtain ⟨c,t,hprint,hc⟩ := head_print ha
  have hsub := h s rest e ha hle
  have hne : c ≠ '*' ∧ c ≠ '+' ∧ c ≠ '-' := by
    refine ⟨?_,?_,?_⟩ <;> (rintro rfl; revert hc; decide)
  have hpeek : (⟨print s++rest,e⟩ : SigParser).peek = some c := by
    rw [hprint]
    rfl
  show parseTypeArg sub ⟨print s++rest,e⟩ = _
  unfold parseTypeArg
  rw [hpeek]
  dsimp only
  rw [if_neg hne.1,if_neg hne.2.1,if_neg hne.2.2,hsub]
  rfl

theorem collect_argTexts (h : TakesBack left sub) {args : List TypeArg} (hargs : ArgsReadable args)
    (hle : argNestings args ≤ left) {n : Nat} (hn : args.length ≤ n) :
    collect (stopAt '>') (parseTypeArg sub) n ⟨argTexts args++ '>'::rest,e⟩ = (args,⟨'>'::rest,e⟩) := by
  induction args generalizing n with
  | nil =>
    cases n with
    | zero => rfl
    | succ n => rfl
  | cons a args ih => ?_
  obtain ⟨n,rfl⟩ : ∃ k, n = k+1 := ⟨n-1,by rw [length_cons] at hn; omega⟩
  rw [argNestings] at hle
  have hstep := @parseTypeArg_argText sub left (argTexts args++ '>'::rest) e h a hargs.1 (by omega)
  have htail := ih hargs.2 (by omega) (Nat.le_of_succ_le_succ hn)
  obtain ⟨c,t,htext,hc⟩ := head_argText hargs.1
  rw [argTexts,append_assoc]
  have hstop : stopAt '>' ⟨argText a++(argTexts args++ '>'::rest),e⟩ = false := by
    rw [htext]
    simp [stopAt,peek,atEnd,hc]
  rw [collect,hstop,hstep]
  simp [Bool.false_eq_true,htail]

theorem optTypeArgs_bracketed (h : TakesBack left sub) {args : List TypeArg} (hargs : ArgsReadable args)
    (hle : argNestings args ≤ left) (hrest : rest.head? ≠ some '<') :
    optTypeArgs sub ⟨bracketed args (argTexts args)++rest,e⟩ = (args,⟨rest,e⟩) := by
  cases args with
  | nil =>
    rw [optTypeArgs,if_neg]
    · rfl
    · exact hrest
  | cons a as => ?_
  have hlen := length_le_argTexts hargs
  have hcollect := @collect_argTexts sub left rest e h (a::as) hargs hle
    (argTexts (a::as)++ '>'::rest).length (by rw [length_append]; omega)
  have htext : bracketed (a::as) (argTexts (a::as))++rest = '<'::(argTexts (a::as)++ '>'::rest) := by
    simp [bracketed]
  rw [htext,optTypeArgs,if_pos peek_cons,parseTypeArgs,expect_cons]
  dsimp only
  rw [hcollect,expect_cons]

theorem readIdent_plain {q : List Char} (hq : ∀ c ∈ q, isPlainChar c = true)
    (hrest : ∀ c ∈ rest.head?, isIdentByte c = false) :
    (⟨q++rest,e⟩ : SigParser).readIdent = (q,⟨rest,e⟩) := by
  rcases @readIdent_append rest e q hrest with h | ⟨q₁,c,q₂,hc,hbyte,-⟩
  · exact h
  have hplain := hq c hc
  simp only [isPlainChar,isIdentByte,Bool.or_eq_true,Bool.or_eq_false_iff] at hplain hbyte
  obtain ⟨⟨⟨⟨h1,h2⟩,h3⟩,-⟩,-⟩ := hbyte
  simp [h1,h2,h3] at hplain

/-- What is read between `L` and `;`. -/
def readChain (sub : SigParser → Option TypeSig × SigParser) (p : SigParser) : TypeSig × SigParser :=
  let name := p.readClassName
  let args := optTypeArgs sub name.2
  parseSuffixes sub args.2.input.length name.1 (.cls name.1 args.1 none) args.2

theorem parseClassTypeSig_eq (p : SigParser) : parseClassTypeSig sub p =
    (some (readChain sub (p.expect 'L').2).1,((readChain sub (p.expect 'L').2).2.expect ';').2) := rfl

theorem head_bracketed {args : List TypeArg} {c : Char} {text t : List Char} :
    (bracketed args text++c::t).head? = if args.isEmpty then some c else some '<' := by
  unfold bracketed
  split <;> rfl

/-- The suffixes are read from the outermost class on: when those of an owner are read, it is the
current type. -/
theorem readChain_body (h : TakesBack left sub) : ∀ (s : TypeSig) {c : Char} {t : List Char}, s.isClass = true →
    Readable s → nesting s ≤ left+1 → (c = '.' ∧ (s.owned = true → s.args ≠ []) ∨ c = ';') →
    ∃ n, (c::t).length ≤ n ∧
      readChain sub ⟨body s++c::t,e⟩ = parseSuffixes sub n s.name s ⟨c::t,e⟩
  | .cls name args none, c, t, _, hs, hle, hc => by
    rw [nesting] at hle
    have hstop : ∀ x ∈ (bracketed args (argTexts args)++c::t).head?, isClassNameByte x = false := by
      intro x hx
      rw [head_bracketed] at hx
      split at hx <;> cases hx
      · rcases hc with ⟨rfl,-⟩ | rfl <;> rfl
      · rfl
    have hname := @readClassName_append _ e name hs.1 hstop
    have hargs := @optTypeArgs_bracketed sub left (c::t) e h args hs.2 (by omega)
      (by rcases hc with ⟨rfl,-⟩ | rfl <;> simp)
    refine ⟨(c::t).length,le_rfl,?_⟩
    rw [body,append_assoc,readChain,hname,hargs]
    rfl
  | .cls name args (some owner), c, t, _, hs, hle, hc => by
    obtain ⟨howner,hcls,hmiddle,⟨inner,rfl,hinner⟩,hargs⟩ := hs
    rw [nesting] at hle
    have hstop : ∀ x ∈ (bracketed args (argTexts args)++c::t).head?, isIdentByte x = false := by
      intro x hx
      rw [head_bracketed] at hx
      split at hx <;> cases hx
      · rename_i hnil
        rcases hc with ⟨rfl,hne⟩ | rfl
        · exact absurd (isEmpty_iff.mp hnil) (hne rfl)
        · rfl
      · rfl
    have hread := @readIdent_plain _ e inner hinner hstop
    have hopt := @optTypeArgs_bracketed sub left (c::t) e h args hargs (by omega)
      (by rcases hc with ⟨rfl,-⟩ | rfl <;> simp)
    obtain ⟨n,hn,hchain⟩ := @readChain_body h owner '.' (inner++(bracketed args (argTexts args)++c::t)) hcls howner
      (by omega) (.inl ⟨rfl,hmiddle⟩)
    obtain ⟨n,rfl⟩ : ∃ k, n = k+1 := ⟨n-1,by rw [length_cons] at hn; omega⟩
    refine ⟨n,?_,?_⟩
    · simp only [length_cons,length_append] at hn ⊢
      omega
    have htext : body (.cls (owner.name++ '$'::inner) args (some owner))++c::t =
        body owner++ '.'::(inner++(bracketed args (argTexts args)++c::t)) := by
      rw [body]
      simp
    rw [htext,hchain,parseSuffixes,if_pos peek_cons,advance_cons,hread]
    dsimp only
    rw [hopt]
    rfl

theorem parseSuffixes_stop (n : Nat) (name : List Char) (s : TypeSig) :
    parseSuffixes sub n name s ⟨';'::rest,e⟩ = (s,⟨';'::rest,e⟩) := by
  cases n <;> rfl

theorem parseClassTypeSig_print (h : TakesBack left sub) {s : TypeSig} (hcls : s.isClass = true)
    (hs : Readable s) (hle : nesting s ≤ left+1) :
    parseClassTypeSig sub ⟨print s++rest,e⟩ = (some s,⟨rest,e⟩) := by
  obtain ⟨n,-,hchain⟩ := @readChain_body sub left e h s ';' rest hcls hs hle (.inr rfl)
  have htext : print s++rest = 'L'::(body s++ ';'::rest) := by
    rw [print,framed,if_pos hcls]
    simp
  rw [htext,parseClassTypeSig_eq,expect_cons]
  rw [hchain,parseSuffixes_stop]
  rw [expect_cons]

theorem parseTypeVarSig_print {name : List Char} (hname : ∀ c ∈ name, isPlainChar c = true) :
    parseTypeVarSig ⟨print (.typeVar name)++rest,e⟩ = (some (.typeVar name),⟨rest,e⟩) := by
  have hread := @readIdent_plain (';'::rest) e name hname (by simp [isIdentByte])
  have htext : print (.typeVar name)++rest = 'T'::(name++ ';'::rest) := by
    show 'T'::(name++[';'])++rest = _
    simp
  rw [htext,parseTypeVarSig,expect_cons]
  rw [hread]
  rw [expect_cons]

theorem parseTypeSig_print (left : Nat) : TakesBack left (parseTypeSig left) := by
  induction left with
  | zero =>
    intro s rest e _ hle
    have := nesting_pos s
    omega
  | succ left ih => ?_
  intro s rest e hs hle
  cases s with
  | base ch => ?_
  | typeVar name => exact parseTypeVarSig_print hs
  | array component =>
    rw [nesting] at hle
    have hsub := ih component rest e hs (by omega)
    show ((parseTypeSig left ⟨print component++rest,e⟩).1.map TypeSig.array,
      (parseTypeSig left ⟨print component++rest,e⟩).2) = _
    rw [hsub]
    rfl
  | cls name args owner => exact parseClassTypeSig_print ih rfl hs hle
  show parseTypeSigInner _ ⟨ch::rest,e⟩ = _
  rw [parseTypeSigInner,peek_cons]
  dsimp only
  rcases hs with hch | rfl
  · rw [if_pos hch,advance_cons]
  · rfl

end

section
structure Level where
  name : List Char
  args : List TypeArg

/-- The enclosing types of a class type and itself, the outermost one first. -/
def ownerChain : TypeSig → List Level
  | .cls name args none => [⟨name,args⟩]
  | .cls name args (some owner) => ownerChain owner++[⟨name,args⟩]
  | _ => []

/-- The levels under their binary names, inside a class of the given name. -/
def binaryNames (outer : List Char) : List Level → List Level
  | [] => []
  | l::ls => ⟨outer++ '$'::l.name,l.args⟩::binaryNames (outer++ '$'::l.name) ls

def levelText (l : Level) : List Char := l.name++bracketed l.args (argTexts l.args)

/-- `L p/C0<A0>.C1<A1>…;` -/
def nestedText (first : Level) (inner : List Level) : List Char :=
  'L'::(levelText first++(inner.flatMap fun l => '.'::levelText l)++[';'])

def enclose (current : TypeSig) : List Level → TypeSig
  | [] => current
  | l::ls => enclose (.cls (current.name++ '$'::l.name) l.args (some current)) ls

variable {current : TypeSig} {levels : List Level}

theorem isClass_enclose (h : current.isClass = true) : (enclose current levels).isClass = true := by
  induction levels generalizing current with
  | nil => exact h
  | cons l ls ih => exact ih rfl

theorem body_enclose (current : TypeSig) (levels : List Level) :
    body (enclose current levels) = body current++levels.flatMap fun l => '.'::levelText l := by
  induction levels generalizing current with
  | nil => simp [enclose]
  | cons l ls ih =>
    rw [enclose,ih,body,flatMap_cons]
    simp [levelText]

theorem ownerChain_enclose (current : TypeSig) (levels : List Level) :
    ownerChain (enclose current levels) = ownerChain current++binaryNames current.name levels := by
  induction levels generalizing current with
  | nil => simp [enclose,binaryNames]
  | cons l ls ih =>
    rw [enclose,ih,ownerChain,binaryNames,append_assoc]
    rfl

theorem nesting_enclose {d : Nat} (h : nesting current ≤ d) (hlevels : ∀ l ∈ levels, argNestings l.args < d) :
    nesting (enclose current levels) ≤ d := by
  induction levels generalizing current with
  | nil => exact h
  | cons l ls ih =>
    have hl := hlevels l mem_cons_self
    refine ih ?_ fun m hm => hlevels m (mem_cons_of_mem l hm)
    rw [nesting]
    omega

theorem readable_enclose (hcls : current.isClass = true) (h : Readable current)
    (hargs : current.owned = true → levels ≠ [] → current.args ≠ [])
    (hnames : ∀ l ∈ levels, ∀ c ∈ l.name, isPlainChar c = true)
    (hmiddle : ∀ l ∈ levels.dropLast, l.args ≠ []) (hread : ∀ l ∈ levels, ArgsReadable l.args) :
    Readable (enclose current levels) := by
  induction levels generalizing current with
  | nil => exact h
  | cons l ls ih => ?_
  refine ih rfl ?_ ?_ ?_ ?_ ?_
  · exact ⟨h,hcls,fun ho => hargs ho (cons_ne_nil l ls),⟨l.name,rfl,hnames l mem_cons_self⟩,
      hread l mem_cons_self⟩
  · intro _ hls
    refine hmiddle l ?_
    rw [dropLast_cons_of_ne_nil hls]
    exact mem_cons_self
  · exact fun m hm => hnames m (mem_cons_of_mem l hm)
  · intro m hm
    refine hmiddle m ?_
    rw [dropLast_cons_of_ne_nil (by rintro rfl; cases hm)]
    exact mem_cons_of_mem l hm
  · exact fun m hm => hread m (mem_cons_of_mem l hm)

theorem parseFieldSignature_print {s : TypeSig} (hs : Readable s) (hle : nesting s ≤ maxSigDepth) :
    parseFieldSignature (print s) = some s := by
  have h := parseTypeSig_print maxSigDepth s [] false hs hle
  rw [append_nil] at h
  rw [parseFieldSignature,parseTopSig,h]
  rfl

/-- A nested class type within the parser's depth, its inner names plain and no inner class but the last
without arguments, is read as the chain of its owners; and so is the print of every such type. -/
theorem nested_types_parse :
    (∀ (first : Level) (inner : List Level), (∀ c ∈ first.name, isClassNameByte c = true) →
      (∀ l ∈ inner, ∀ c ∈ l.name, isPlainChar c = true) → (∀ l ∈ inner.dropLast, l.args ≠ []) →
      (∀ l ∈ first::inner, ArgsReadable l.args ∧ argNestings l.args < maxSigDepth) →
      ∃ s, parseFieldSignature (nestedText first inner) = some s ∧
        ownerChain s = first::binaryNames first.name inner) ∧
    (∀ s : TypeSig, s.isClass = true → Readable s → nesting s ≤ maxSigDepth →
      parseFieldSignature (print s) = some s) := by
  refine ⟨?_,fun s _ hs hle => parseFieldSignature_print hs hle⟩
  intro first inner hfirst hnames hmiddle hlevels
  have hbase := hlevels first mem_cons_self
  have hread : Readable (enclose (.cls first.name first.args none) inner) :=
    readable_enclose rfl ⟨hfirst,hbase.1⟩ (fun ho => nomatch ho) hnames hmiddle
      fun l hl => (hlevels l (mem_cons_of_mem first hl)).1
  have hle : nesting (enclose (.cls first.name first.args none) inner) ≤ maxSigDepth :=
    nesting_enclose (by exact hbase.2) fun l hl => (hlevels l (mem_cons_of_mem first hl)).2
  have htext : print (enclose (.cls first.name first.args none) inner) = nestedText first inner := by
    rw [print,framed,if_pos (isClass_enclose rfl),body_enclose,body]
    rfl
  refine ⟨enclose (.cls first.name first.args none) inner,?_,ownerChain_enclose _ inner⟩
  rw [← htext]
  exact parseFieldSignature_print hread hle

/-- `int` arrays inside arrays. -/
def arrays : Nat → TypeSig
  | 0 => .base 'I'
  | n+1 => .array (arrays n)

/-- A class type of one level more than the parser takes is refused, and in `LA<*>.B.C;` the inner class
without arguments is read as part of the name behind it. -/
theorem deep_and_bare_types :
    (parseFieldSignature (nestedText ⟨['A'],[.exact (arrays 255)]⟩ [])).isNone = true ∧
    (parseFieldSignature (nestedText ⟨['A'],[.unbounded]⟩ [⟨['B'],[]⟩,⟨['C'],[]⟩])).map
        (fun s => (ownerChain s).map Level.name) = some [['A'],['A','$','B','.','C']] ∧
    (binaryNames ['A'] [⟨['B'],[]⟩,⟨['C'],[]⟩]).map Level.name = [['A','$','B'],['A','$','B','$','C']] := by
  decide +kernel

end
end CratonVM.Reader.Signature
