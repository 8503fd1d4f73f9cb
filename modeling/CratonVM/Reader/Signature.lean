import Mathlib

/-!
The parser of `Signature` attributes (`reader/src/signature.rs`). The input is what is left of the
string: the parser looks at single bytes, all of them ASCII, and so stops between characters only.
A nested type signature is read with one level less; level 0 is the refusal at `MAX_SIG_DEPTH`.
Loops carry the length of the input as their number of turns, each turn reads a character.
-/
namespace CratonVM.Reader.Signature
mutual

inductive TypeSig where
  | base (ch : Char)
  | cls (name : List Char) (typeArgs : List TypeArg) (owner : Option TypeSig)
  | typeVar (name : List Char)
  | array (component : TypeSig)

inductive TypeArg where
  | exact (sig : TypeSig)
  | extend (sig : TypeSig)
  | super (sig : TypeSig)
  | unbounded

end

structure TypeParam where
  name : List Char
  classBound : Option TypeSig
  interfaceBounds : List TypeSig

structure ClassSig where
  typeParams : List TypeParam
  superClass : TypeSig
  interfaces : List TypeSig

structure MethodSig where
  typeParams : List TypeParam
  paramTypes : List TypeSig
  returnType : TypeSig
  throws : List TypeSig

def maxSigDepth : Nat := 256

/-- The unread input, and whether a nested signature was refused for its depth. -/
structure SigParser where
  input : List Char
  depthExceeded : Bool := false
  deriving DecidableEq, Repr

namespace SigParser
variable (p : SigParser)

def peek : Option Char := p.input.head?

def advance : SigParser := { p with input := p.input.tail }

def expect (ch : Char) : Bool × SigParser :=
  if p.peek = some ch then (true,p.advance) else (false,p)

def atEnd : Bool := p.input.isEmpty

def isIdentByte (c : Char) : Bool :=
  c.isAlphanum || c = '_' || c = '$' || c = '/' || c = '.'

def readIdent : List Char × SigParser :=
  (p.input.takeWhile isIdentByte,{ p with input := p.input.dropWhile isIdentByte })

def isClassNameByte (c : Char) : Bool := !(c = ';' || c = '<' || c = '.')

def readClassName : List Char × SigParser :=
  (p.input.takeWhile isClassNameByte,{ p with input := p.input.dropWhile isClassNameByte })

end SigParser

open SigParser
section loops
variable {α : Type}

/-- `while !stop { if let Some(x) = step { push } else { break } }` -/
def collect (stop : SigParser → Bool) (step : SigParser → Option α × SigParser) :
    Nat → SigParser → List α × SigParser
  | 0,p => ([],p)
  | n+1,p =>
    if stop p then ([],p)
    else match step p with
      | (some x,p') => (x::(collect stop step n p').1,(collect stop step n p').2)
      | (none,p') => ([],p')

/-- `while peek == ch { advance; if let Some(x) = step { push } }` -/
def collectMarked (ch : Char) (step : SigParser → Option α × SigParser) :
    Nat → SigParser → List α × SigParser
  | 0,p => ([],p)
  | n+1,p =>
    if p.peek = some ch then
      match step p.advance with
      | (some x,p') => (x::(collectMarked ch step n p').1,(collectMarked ch step n p').2)
      | (none,p') => collectMarked ch step n p'
    else ([],p)

def collectAll (stop : SigParser → Bool) (step : SigParser → Option α × SigParser) :
    Nat → SigParser → Option (List α) × SigParser
  | 0,p => (some [],p)
  | n+1,p =>
    if stop p then (some [],p)
    else match step p with
      | (some x,p') => ((collectAll stop step n p').1.map (x::·),(collectAll stop step n p').2)
      | (none,p') => (none,p')

end loops

def stopAt (ch : Char) (p : SigParser) : Bool := p.peek = some ch || p.atEnd

section types
variable (parseTypeSig : SigParser → Option TypeSig × SigParser)

def parseTypeArg (p : SigParser) : Option TypeArg × SigParser :=
  match p.peek with
  | none => (none,p)
  | some c =>
    if c = '*' then (some .unbounded,p.advance)
    else if c = '+' then ((parseTypeSig p.advance).1.map .extend,(parseTypeSig p.advance).2)
    else if c = '-' then ((parseTypeSig p.advance).1.map .super,(parseTypeSig p.advance).2)
    else ((parseTypeSig p).1.map .exact,(parseTypeSig p).2)

def parseTypeArgs (p : SigParser) : List TypeArg × SigParser :=
  match p.expect '<' with
  | (false,_) => ([],p)
  | (true,p) =>
    let r := collect (stopAt '>') (parseTypeArg parseTypeSig) p.input.length p
    (r.1,(r.2.expect '>').2)

def optTypeArgs (p : SigParser) : List TypeArg × SigParser :=
  if p.peek = some '<' then parseTypeArgs parseTypeSig p else ([],p)

/-- The suffixes `.Inner<args>`, each owned by what was read before it. -/
def parseSuffixes : Nat → List Char → TypeSig → SigParser → TypeSig × SigParser
  | 0,_,current,p => (current,p)
  | n+1,fullName,current,p =>
    if p.peek = some '.' then
      let inner := p.advance.readIdent
      let fullName := fullName ++ '$'::inner.1
      let args := optTypeArgs parseTypeSig inner.2
      parseSuffixes n fullName (.cls fullName args.1 (some current)) args.2
    else (current,p)

def parseClassTypeSig (p : SigParser) : Option TypeSig × SigParser :=
  let name := (p.expect 'L').2.readClassName
  let args := optTypeArgs parseTypeSig name.2
  let current := parseSuffixes parseTypeSig args.2.input.length name.1 (.cls name.1 args.1 none) args.2
  (some current.1,(current.2.expect ';').2)

def parseTypeVarSig (p : SigParser) : Option TypeSig × SigParser :=
  let name := (p.expect 'T').2.readIdent
  (some (.typeVar name.1),(name.2.expect ';').2)

def baseChars : List Char := ['B','C','D','F','I','J','S','Z']

def parseTypeSigInner (p : SigParser) : Option TypeSig × SigParser :=
  match p.peek with
  | none => (none,p)
  | some c =>
    if c ∈ baseChars then (some (.base c),p.advance)
    else if c = 'V' then (some (.base 'V'),p.advance)
    else if c = 'L' then parseClassTypeSig parseTypeSig p
    else if c = 'T' then parseTypeVarSig p
    else if c = '[' then ((parseTypeSig p.advance).1.map .array,(parseTypeSig p.advance).2)
    else (none,p)

end types

def parseTypeSig : Nat → SigParser → Option TypeSig × SigParser
  | 0,p => (none,{ p with depthExceeded := true })
  | left+1,p => parseTypeSigInner (parseTypeSig left) p

/-- A type signature read at the outermost level. -/
def parseTopSig : SigParser → Option TypeSig × SigParser := parseTypeSig maxSigDepth

def parseClassBound (p : SigParser) : Option TypeSig × SigParser :=
  if p.peek ≠ some ':' ∧ p.peek ≠ some '>' then parseTopSig p else (none,p)

def parseTypeParam (p : SigParser) : Option TypeParam × SigParser :=
  let name := p.readIdent
  if name.1.isEmpty then (none,name.2)
  else match name.2.expect ':' with
    | (false,p) => (none,p)
    | (true,p) =>
      let classBound := parseClassBound p
      let bounds := collectMarked ':' parseTopSig classBound.2.input.length classBound.2
      (some { name := name.1, classBound := classBound.1, interfaceBounds := bounds.1 },bounds.2)

def parseTypeParams (p : SigParser) : List TypeParam × SigParser :=
  match p.expect '<' with
  | (false,_) => ([],p)
  | (true,p) =>
    let r := collect (stopAt '>') parseTypeParam p.input.length p
    (r.1,(r.2.expect '>').2)

def optTypeParams (p : SigParser) : List TypeParam × SigParser :=
  if p.peek = some '<' then parseTypeParams p else ([],p)

def parseClassSig (p : SigParser) : Option ClassSig × SigParser :=
  let params := optTypeParams p
  match parseTopSig params.2 with
  | (none,p) => (none,p)
  | (some superClass,p) =>
    let interfaces := collect atEnd parseTopSig p.input.length p
    (some { typeParams := params.1, superClass, interfaces := interfaces.1 },interfaces.2)

def parseMethodSig (p : SigParser) : Option MethodSig × SigParser :=
  let params := optTypeParams p
  match params.2.expect '(' with
  | (false,p) => (none,p)
  | (true,p) =>
    match collectAll (stopAt ')') parseTopSig p.input.length p with
    | (none,p) => (none,p)
    | (some paramTypes,p) =>
      match parseTopSig (p.expect ')').2 with
      | (none,p) => (none,p)
      | (some returnType,p) =>
        let throws := collectMarked '^' parseTopSig p.input.length p
        (some { typeParams := params.1, paramTypes, returnType, throws := throws.1 },throws.2)

def finishFullParse {α : Type} (r : Option α × SigParser) : Option α :=
  if r.2.depthExceeded || !r.2.atEnd then none else r.1

def parseClassSignature (sig : List Char) : Option ClassSig :=
  finishFullParse (parseClassSig { input := sig })

def parseMethodSignature (sig : List Char) : Option MethodSig :=
  finishFullParse (parseMethodSig { input := sig })

def parseFieldSignature (sig : List Char) : Option TypeSig :=
  finishFullParse (parseTopSig { input := sig })

end CratonVM.Reader.Signature
namespace CratonVM.Reader.Signature
open Computability
section
def isIdentifierChar (c : Char) : Bool := !(c ∈ ['.',';','[','/','<','>',':'])

/-- An unqualified name. -/
def isIdentifier (w : List Char) : Bool := !w.isEmpty && w.all isIdentifierChar

def identifier : Language Char := {w | isIdentifier w = true}

def literal (c : Char) : Language Char := {[c]}

def packageSpecifier : Language Char :=
  (identifier*literal '/')*(identifier*literal '/')∗

def baseType : Language Char := {w | ∃ c ∈ baseChars, w = [c]}

def typeVariableSignature : Language Char := literal 'T'*identifier*literal ';'

section
variable (referenceTypeSignature : Language Char)

def typeArgument : Language Char :=
  literal '*'+(1+literal '+'+literal '-')*referenceTypeSignature

def typeArguments : Language Char :=
  literal '<'*(typeArgument referenceTypeSignature*(typeArgument referenceTypeSignature)∗)*literal '>'

def simpleClassTypeSignature : Language Char :=
  identifier*(1+typeArguments referenceTypeSignature)

def classTypeSignatureSuffix : Language Char :=
  literal '.'*simpleClassTypeSignature referenceTypeSignature

def classTypeOver : Language Char :=
  literal 'L'*((1+packageSpecifier)*simpleClassTypeSignature referenceTypeSignature*
    (classTypeSignatureSuffix referenceTypeSignature)∗)*literal ';'

end

/-- The base types, unless nothing may be read at this level. -/
def baseTypeAt : Nat → Language Char
  | 0 => 0
  | _+1 => baseType

/-- Reference types with at most the given number of type signatures inside each other. -/
def referenceTypeSignature : Nat → Language Char
  | 0 => 0
  | d+1 => classTypeOver (referenceTypeSignature d)+typeVariableSignature+
      literal '['*(baseTypeAt d+referenceTypeSignature d)

def typeSignature (d : Nat) : Language Char := baseTypeAt d+referenceTypeSignature d

def classTypeSignature : Nat → Language Char
  | 0 => 0
  | d+1 => classTypeOver (referenceTypeSignature d)

variable (d : Nat)

def classBound : Language Char := literal ':'*(1+referenceTypeSignature d)

def interfaceBound : Language Char := literal ':'*referenceTypeSignature d

def typeParameter : Language Char := identifier*(classBound d*(interfaceBound d)∗)

def typeParameters : Language Char :=
  literal '<'*(typeParameter d*(typeParameter d)∗)*literal '>'

def classSignature : Language Char :=
  (1+typeParameters d)*(classTypeSignature d*(classTypeSignature d)∗)

def result : Language Char := typeSignature d+literal 'V'

def throwsSignature : Language Char :=
  literal '^'*(classTypeSignature d+typeVariableSignature)

def methodSignature : Language Char :=
  (1+typeParameters d)*(literal '('*((typeSignature d)∗*(literal ')'*(result d*(throwsSignature d)∗))))

def fieldSignature : Language Char := referenceTypeSignature d

end

section
/-- A check fails that the parser does not make, no depth having been exceeded before. -/
def lapse (p : SigParser) (check : Bool) : Bool := !p.depthExceeded && !check

/-- A list ends at an element that cannot be read. -/
def brokenOff (p : SigParser) : Bool := lapse p false

/-- The same, with nothing left to read, so that the end of the input is not noticed. -/
def brokenOffAtEnd (p : SigParser) : Bool := lapse p !p.atEnd

def isReference : Option TypeSig → Bool
  | some (.base _) => false
  | _ => true

def isClassType : Option TypeSig → Bool
  | some (.cls _ _ _) => true
  | none => true
  | _ => false

def isThrowable : Option TypeSig → Bool
  | some (.cls _ _ _) => true
  | some (.typeVar _) => true
  | none => true
  | _ => false

def isNotVoid : Option TypeSig → Bool
  | some (.base c) => c ≠ 'V'
  | _ => true

/-- Unqualified names with a separator between them. -/
def isJoined (sep : Char) (w : List Char) : Bool := (w.splitOn sep).all isIdentifier

section loops
variable {α : Type}

def collectLapses (stop : SigParser → Bool) (step : SigParser → Option α × SigParser)
    (lapses broken : SigParser → Bool) : Nat → SigParser → Bool
  | 0,_ => false
  | n+1,p =>
    if stop p then false
    else lapses p || match step p with
      | (some _,p') => collectLapses stop step lapses broken n p'
      | (none,p') => broken p'

def collectMarkedLapses (ch : Char) (step : SigParser → Option α × SigParser)
    (lapses : SigParser → Bool) : Nat → SigParser → Bool
  | 0,_ => false
  | n+1,p =>
    if p.peek = some ch then
      lapses p.advance || match step p.advance with
        | (some _,p') => collectMarkedLapses ch step lapses n p'
        | (none,p') => lapse p' false || collectMarkedLapses ch step lapses n p'
    else false

def collectAllLapses (stop : SigParser → Bool) (step : SigParser → Option α × SigParser)
    (lapses : SigParser → Bool) : Nat → SigParser → Bool
  | 0,_ => false
  | n+1,p =>
    if stop p then false
    else lapses p || match step p with
      | (some _,p') => collectAllLapses stop step lapses n p'
      | (none,_) => false

end loops

section types
variable (sub : SigParser → Option TypeSig × SigParser) (subLapses : SigParser → Bool)

/-- A nested signature that has to be of a kind. -/
def kindLapses (kind : Option TypeSig → Bool) (p : SigParser) : Bool :=
  subLapses p || lapse (sub p).2 (kind (sub p).1)

def typeArgLapses (p : SigParser) : Bool :=
  match p.peek with
  | none => false
  | some c =>
    if c = '*' then false
    else if c = '+' ∨ c = '-' then kindLapses sub subLapses isReference p.advance
    else kindLapses sub subLapses isReference p

def typeArgsLapses (p : SigParser) : Bool :=
  match p.expect '<' with
  | (false,_) => false
  | (true,p) =>
    let r := collect (stopAt '>') (parseTypeArg sub) p.input.length p
    collectLapses (stopAt '>') (parseTypeArg sub) (typeArgLapses sub subLapses) brokenOff
        p.input.length p || lapse r.2 (!r.1.isEmpty && (r.2.expect '>').1)

def optTypeArgsLapses (p : SigParser) : Bool :=
  if p.peek = some '<' then typeArgsLapses sub subLapses p else false

def suffixLapses : Nat → SigParser → Bool
  | 0,_ => false
  | n+1,p =>
    if p.peek = some '.' then
      let inner := p.advance.readIdent
      lapse p (isJoined '.' inner.1) || optTypeArgsLapses sub subLapses inner.2 ||
        suffixLapses n (optTypeArgs sub inner.2).2
    else false

def classTypeLapses (p : SigParser) : Bool :=
  let name := (p.expect 'L').2.readClassName
  let args := optTypeArgs sub name.2
  let current := parseSuffixes sub args.2.input.length name.1 (.cls name.1 args.1 none) args.2
  lapse p (isJoined '/' name.1) || optTypeArgsLapses sub subLapses name.2 ||
    suffixLapses sub subLapses args.2.input.length args.2 || lapse current.2 (current.2.expect ';').1

def typeVarLapses (p : SigParser) : Bool :=
  let name := (p.expect 'T').2.readIdent
  lapse p (isIdentifier name.1 && (name.2.expect ';').1)

def typeSigInnerLapses (p : SigParser) : Bool :=
  match p.peek with
  | none => false
  | some c =>
    if c ∈ baseChars then false
    else if c = 'V' then false
    else if c = 'L' then classTypeLapses sub subLapses p
    else if c = 'T' then typeVarLapses p
    else if c = '[' then kindLapses sub subLapses isNotVoid p.advance
    else false

end types

def typeSigLapses : Nat → SigParser → Bool
  | 0,_ => false
  | left+1,p => typeSigInnerLapses (parseTypeSig left) (typeSigLapses left) p

/-- A signature read at the outermost level that has to be of a kind. -/
def topLapses (kind : Option TypeSig → Bool) : SigParser → Bool :=
  kindLapses parseTopSig (typeSigLapses maxSigDepth) kind

def classBoundLapses (p : SigParser) : Bool :=
  if p.peek ≠ some ':' ∧ p.peek ≠ some '>' then
    topLapses isReference p || lapse (parseTopSig p).2 (parseTopSig p).1.isSome
  else false

def typeParamLapses (p : SigParser) : Bool :=
  let name := p.readIdent
  if name.1.isEmpty then lapse p false
  else match name.2.expect ':' with
    | (false,_) => lapse p false
    | (true,p) =>
      let classBound := parseClassBound p
      lapse p (isIdentifier name.1) || classBoundLapses p ||
        collectMarkedLapses ':' parseTopSig (topLapses isReference) classBound.2.input.length classBound.2

def typeParamsLapses (p : SigParser) : Bool :=
  match p.expect '<' with
  | (false,_) => false
  | (true,p) =>
    let r := collect (stopAt '>') parseTypeParam p.input.length p
    collectLapses (stopAt '>') parseTypeParam typeParamLapses brokenOff p.input.length p ||
      lapse r.2 (!r.1.isEmpty && (r.2.expect '>').1)

def optTypeParamsLapses (p : SigParser) : Bool :=
  if p.peek = some '<' then typeParamsLapses p else false

/-- The parser passes over a violation of the grammar while it reads a class signature. -/
def classSignatureLapses (sig : List Char) : Bool :=
  let params := optTypeParams { input := sig }
  optTypeParamsLapses { input := sig } || topLapses isClassType params.2 ||
    match parseTopSig params.2 with
    | (none,_) => false
    | (some _,p) => collectLapses SigParser.atEnd parseTopSig (topLapses isClassType) brokenOffAtEnd
        p.input.length p

def methodSignatureLapses (sig : List Char) : Bool :=
  let params := optTypeParams { input := sig }
  optTypeParamsLapses { input := sig } ||
    match params.2.expect '(' with
    | (false,_) => false
    | (true,p) =>
      collectAllLapses (stopAt ')') parseTopSig (topLapses isNotVoid) p.input.length p ||
        match collectAll (stopAt ')') parseTopSig p.input.length p with
        | (none,_) => false
        | (some _,p) =>
          lapse p (p.expect ')').1 || typeSigLapses maxSigDepth (p.expect ')').2 ||
            match parseTopSig (p.expect ')').2 with
            | (none,_) => false
            | (some _,p) =>
              collectMarkedLapses '^' parseTopSig (topLapses isThrowable) p.input.length p

def fieldSignatureLapses (sig : List Char) : Bool := topLapses isReference { input := sig }

end
end CratonVM.Reader.Signature
