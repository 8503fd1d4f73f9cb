import CratonVM.Lib.KeyedLists
import CratonVM.Reader.Signature

/-!
The cache of parsed signatures (`reader/src/signature.rs`). A cached parse looks the string up under the
lock, parses without it, and takes the lock again to store the result, so that calls of several threads
interleave between the two halves.
-/
namespace CratonVM.Reader.Signature
open Option

def signatureCacheCap : Nat := 8192

inductive SigShape where
  | cls
  | method
  | field
  deriving DecidableEq, Repr

inductive ParsedSignature where
  | cls (sig : ClassSig)
  | method (sig : MethodSig)
  | field (sig : TypeSig)
  /-- Refused for the shapes whose flag is set. -/
  | invalid (cls method field : Bool)

namespace ParsedSignature
def invalidFor (shape : SigShape) : ParsedSignature :=
  .invalid (shape = .cls) (shape = .method) (shape = .field)

def rejects : ParsedSignature → SigShape → Bool
  | .invalid noClass _ _, .cls => noClass
  | .invalid _ noMethod _, .method => noMethod
  | .invalid _ _ noField, .field => noField
  | _, _ => false

def isInvalid : ParsedSignature → Bool
  | .invalid _ _ _ => true
  | _ => false

end ParsedSignature

abbrev SignatureCache := FifoMap (List Char) ParsedSignature

namespace SignatureCache
def insert (cache : SignatureCache) (key : List Char) (value : ParsedSignature) : SignatureCache :=
  FifoMap.put signatureCacheCap cache key value

def recordInvalid (cache : SignatureCache) (key : List Char) (shape : SigShape) : SignatureCache :=
  match cache.get key with
  | some (.invalid cls method field) => insert cache key
      (.invalid (cls || shape = .cls) (method || shape = .method) (field || shape = .field))
  | some _ => cache
  | none => insert cache key (.invalidFor shape)

end SignatureCache

/-- One of the three grammars, and its place in an entry. -/
structure CachedParser (α : Type) where
  shape : SigShape
  parse : List Char → Option α
  wrap : α → ParsedSignature
  unwrap : ParsedSignature → Option α

def classParser : CachedParser ClassSig where
  shape := .cls
  parse := parseClassSignature
  wrap := .cls
  unwrap
    | .cls c => some c
    | _ => none

def methodParser : CachedParser MethodSig where
  shape := .method
  parse := parseMethodSignature
  wrap := .method
  unwrap
    | .method m => some m
    | _ => none

def fieldParser : CachedParser TypeSig where
  shape := .field
  parse := parseFieldSignature
  wrap := .field
  unwrap
    | .field t => some t
    | _ => none

namespace CachedParser
variable {α : Type} (g : CachedParser α)

/-- The half under the first lock: an answer, or that the string is to be parsed and stored. -/
def probe (cache : SignatureCache) (sig : List Char) : Option (Option α) :=
  match cache.get sig with
  | none => none
  | some e =>
    match g.unwrap e with
    | some a => some (some a)
    | none =>
      if e.rejects g.shape then some none
      else if e.isInvalid then none
      else some (g.parse sig)

/-- The half under the second lock. -/
def finish (cache : SignatureCache) (sig : List Char) : Option α × SignatureCache :=
  match g.parse sig with
  | some a => (some a,cache.insert sig (g.wrap a))
  | none => (none,cache.recordInvalid sig g.shape)

/-- Both halves, with no other call between them. -/
def cached (cache : SignatureCache) (sig : List Char) : Option α × SignatureCache :=
  match g.probe cache sig with
  | some r => (r,cache)
  | none => g.finish cache sig

end CachedParser

def parseClassSignatureCached : SignatureCache → List Char → Option ClassSig × SignatureCache :=
  classParser.cached

def parseMethodSignatureCached : SignatureCache → List Char → Option MethodSig × SignatureCache :=
  methodParser.cached

def parseFieldSignatureCached : SignatureCache → List Char → Option TypeSig × SignatureCache :=
  fieldParser.cached

section
/-- What the parser without the cache says, whichever shape was asked for. -/
def uncached (sig : List Char) : SigShape → Option ParsedSignature
  | .cls => (parseClassSignature sig).map .cls
  | .method => (parseMethodSignature sig).map .method
  | .field => (parseFieldSignature sig).map .field

def probeFor (cache : SignatureCache) (sig : List Char) : SigShape → Option (Option ParsedSignature)
  | .cls => (classParser.probe cache sig).map (Option.map .cls)
  | .method => (methodParser.probe cache sig).map (Option.map .method)
  | .field => (fieldParser.probe cache sig).map (Option.map .field)

def finishFor (cache : SignatureCache) (sig : List Char) : SigShape → Option ParsedSignature × SignatureCache
  | .cls => ((classParser.finish cache sig).1.map .cls,(classParser.finish cache sig).2)
  | .method => ((methodParser.finish cache sig).1.map .method,(methodParser.finish cache sig).2)
  | .field => ((fieldParser.finish cache sig).1.map .field,(fieldParser.finish cache sig).2)

structure Request where
  shape : SigShape
  sig : List Char

/-- The cache, and the requests of the threads that are between the two locks. -/
structure CacheState where
  cache : SignatureCache
  parsing : Nat → Option Request

def CacheState.initial : CacheState := ⟨.empty,fun _ => none⟩

structure Answer where
  request : Request
  result : Option ParsedSignature

inductive CacheStep : CacheState → Option Answer → CacheState → Prop
  | answer {s : CacheState} {r : Request} {result : Option ParsedSignature} (thread : Nat)
      (hidle : s.parsing thread = none) (hprobe : probeFor s.cache r.sig r.shape = some result) :
      CacheStep s (some ⟨r,result⟩) s
  | miss {s : CacheState} {r : Request} (thread : Nat) (hidle : s.parsing thread = none)
      (hprobe : probeFor s.cache r.sig r.shape = none) :
      CacheStep s none { s with parsing := Function.update s.parsing thread (some r) }
  | finish {s : CacheState} {r : Request} (thread : Nat) (hparsing : s.parsing thread = some r) :
      CacheStep s (some ⟨r,(finishFor s.cache r.sig r.shape).1⟩)
        ⟨(finishFor s.cache r.sig r.shape).2,Function.update s.parsing thread none⟩
  | clear (s : CacheState) : CacheStep s none { s with cache := .empty }

/-- The states that calls of any threads lead to, with the answers given on the way. -/
inductive CacheRun : List Answer → CacheState → Prop
  | initial : CacheRun [] .initial
  | step {answers : List Answer} {s t : CacheState} {a : Option Answer} (hrun : CacheRun answers s)
      (hstep : CacheStep s a t) : CacheRun (answers++a.toList) t

end

section
/-- An entry says what the parsers say. -/
def Truthful (sig : List Char) : ParsedSignature → Prop
  | .cls c => parseClassSignature sig = some c
  | .method m => parseMethodSignature sig = some m
  | .field t => parseFieldSignature sig = some t
  | .invalid cls method field => ∀ shape, (ParsedSignature.invalid cls method field).rejects shape = true →
    uncached sig shape = none

structure CacheValid (cache : SignatureCache) : Prop where
  queue : FifoMap.Valid signatureCacheCap cache
  truthful : ∀ sig e, cache.get sig = some e → Truthful sig e

variable {cache : SignatureCache} {sig : List Char} {α : Type}

/-- A grammar and its place belong together. -/
structure CachedParser.Lawful (g : CachedParser α) : Prop where
  uncached_eq : ∀ sig, uncached sig g.shape = (g.parse sig).map g.wrap
  unwrap_eq : ∀ sig e a, Truthful sig e → g.unwrap e = some a → g.parse sig = some a
  truthful_wrap : ∀ sig a, g.parse sig = some a → Truthful sig (g.wrap a)

theorem lawful_classParser : classParser.Lawful where
  uncached_eq _ := rfl
  unwrap_eq := by
    intro sig e a he h
    cases e <;> cases h
    exact he
  truthful_wrap _ _ h := h

theorem lawful_methodParser : methodParser.Lawful where
  uncached_eq _ := rfl
  unwrap_eq := by
    intro sig e a he h
    cases e <;> cases h
    exact he
  truthful_wrap _ _ h := h

theorem lawful_fieldParser : fieldParser.Lawful where
  uncached_eq _ := rfl
  unwrap_eq := by
    intro sig e a he h
    cases e <;> cases h
    exact he
  truthful_wrap _ _ h := h

variable {shape : SigShape}

theorem Truthful.rejected {e : ParsedSignature} (h : Truthful sig e)
    (hrejects : e.rejects shape = true) : uncached sig shape = none := by
  cases e with
  | invalid cls method field => exact h shape hrejects
  | cls c => cases shape <;> cases hrejects
  | method m => cases shape <;> cases hrejects
  | field t => cases shape <;> cases hrejects

theorem CacheValid.insert (h : CacheValid cache) {e : ParsedSignature} (he : Truthful sig e) :
    CacheValid (cache.insert sig e) := by
  refine ⟨FifoMap.valid_put h.queue (by decide),?_⟩
  intro other found hget
  rcases FifoMap.get_put hget with ⟨rfl,rfl⟩ | hold
  · exact he
  · exact h.truthful other found hold

theorem truthful_invalidFor (h : uncached sig shape = none) :
    Truthful sig (.invalidFor shape) := by
  intro asked hrejects
  have : asked = shape := by
    revert hrejects
    cases asked <;> cases shape <;> decide
  rw [this]
  exact h

theorem truthful_merged {cls method field : Bool} (h : uncached sig shape = none)
    (hold : Truthful sig (.invalid cls method field)) :
    Truthful sig (.invalid (cls || shape = .cls) (method || shape = .method) (field || shape = .field)) := by
  intro asked hrejects
  by_cases heq : asked = shape
  · rw [heq]
    exact h
  refine hold asked ?_
  revert hrejects heq
  cases asked <;> cases shape <;> simp [ParsedSignature.rejects]

theorem CacheValid.recordInvalid (h : CacheValid cache) (hnone : uncached sig shape = none) :
    CacheValid (cache.recordInvalid sig shape) := by
  unfold SignatureCache.recordInvalid
  split
  · rename_i cls method field hget
    exact h.insert (truthful_merged hnone (h.truthful sig _ hget))
  · exact h
  · exact h.insert (truthful_invalidFor hnone)

variable {g : CachedParser α}

theorem probe_eq (hg : g.Lawful) (h : CacheValid cache) {r : Option α} (hprobe : g.probe cache sig = some r) :
    r = g.parse sig := by
  unfold CachedParser.probe at hprobe
  split at hprobe
  · cases hprobe
  rename_i e hget
  have he := h.truthful sig e hget
  split at hprobe
  · rename_i a hunwrap
    cases hprobe
    exact (hg.unwrap_eq sig e a he hunwrap).symm
  split at hprobe
  · rename_i hrejects
    have hnone := he.rejected hrejects
    rw [hg.uncached_eq] at hnone
    cases hprobe
    exact (map_eq_none_iff.mp hnone).symm
  split at hprobe
  · cases hprobe
  cases hprobe
  rfl

theorem finish_result (g : CachedParser α) : (g.finish cache sig).1 = g.parse sig := by
  unfold CachedParser.finish
  split <;> simp_all

theorem finish_valid (hg : g.Lawful) (h : CacheValid cache) : CacheValid (g.finish cache sig).2 := by
  unfold CachedParser.finish
  split
  · rename_i a hparse
    exact h.insert (hg.truthful_wrap sig a hparse)
  rename_i hparse
  refine h.recordInvalid ?_
  rw [hg.uncached_eq,hparse]
  rfl

theorem cached_result (hg : g.Lawful) (h : CacheValid cache) : (g.cached cache sig).1 = g.parse sig := by
  unfold CachedParser.cached
  split
  · rename_i r hprobe
    exact probe_eq hg h hprobe
  · exact finish_result g

theorem probeFor_eq (h : CacheValid cache) {r : Option ParsedSignature}
    (hprobe : probeFor cache sig shape = some r) : r = uncached sig shape := by
  cases shape
  all_goals
    obtain ⟨a,ha,rfl⟩ := map_eq_some_iff.mp hprobe
  · rw [probe_eq lawful_classParser h ha]
    rfl
  · rw [probe_eq lawful_methodParser h ha]
    rfl
  rw [probe_eq lawful_fieldParser h ha]
  rfl

theorem finishFor_result (cache : SignatureCache) (sig : List Char) (shape : SigShape) :
    (finishFor cache sig shape).1 = uncached sig shape := by
  cases shape <;> simp only [finishFor,uncached,finish_result] <;> rfl

theorem finishFor_valid (h : CacheValid cache) (shape : SigShape) : CacheValid (finishFor cache sig shape).2 := by
  cases shape
  · exact finish_valid lawful_classParser h
  · exact finish_valid lawful_methodParser h
  · exact finish_valid lawful_fieldParser h

theorem cacheValid_empty : CacheValid .empty := ⟨FifoMap.valid_empty,fun _ _ h => nomatch h⟩

variable {s : CacheState}

theorem CacheStep.valid {t : CacheState} {a : Option Answer} (h : CacheStep s a t) (hs : CacheValid s.cache) :
    CacheValid t.cache := by
  cases h with
  | answer thread hidle hprobe => exact hs
  | miss thread hidle hprobe => exact hs
  | finish thread hparsing => exact finishFor_valid hs _
  | clear => exact cacheValid_empty

theorem CacheStep.answers {t : CacheState} {a : Answer} (h : CacheStep s (some a) t) (hs : CacheValid s.cache) :
    a.result = uncached a.request.sig a.request.shape := by
  cases h with
  | answer thread hidle hprobe => exact probeFor_eq hs hprobe
  | finish thread hparsing => exact finishFor_result s.cache _ _

theorem CacheRun.valid {answers : List Answer} (h : CacheRun answers s) : CacheValid s.cache := by
  induction h with
  | initial => exact cacheValid_empty
  | step _ hstep ih => exact hstep.valid ih

theorem CacheRun.answers {answers : List Answer} (h : CacheRun answers s) :
    ∀ a ∈ answers, a.result = uncached a.request.sig a.request.shape := by
  induction h with
  | initial =>
    intro a ha
    cases ha
  | @step answers s t a hrun hstep ih => ?_
  intro b hb
  rcases List.mem_append.mp hb with hb | hb
  · exact ih b hb
  obtain rfl := mem_toList.mp hb
  exact hstep.answers hrun.valid

/-- Whatever calls came before and however they interleaved, every answer is that of the parser without the
cache; the queue holds each key of the map once; and there are never more entries than the capacity. -/
theorem signature_cache_transparent {answers : List Answer} {s : CacheState} (h : CacheRun answers s) :
    (∀ a ∈ answers, a.result = uncached a.request.sig a.request.shape) ∧
    (∀ sig, (parseClassSignatureCached s.cache sig).1 = parseClassSignature sig ∧
      (parseMethodSignatureCached s.cache sig).1 = parseMethodSignature sig ∧
      (parseFieldSignatureCached s.cache sig).1 = parseFieldSignature sig) ∧
    s.cache.order.Perm s.cache.map.keys ∧ s.cache.size ≤ signatureCacheCap := by
  have hvalid := h.valid
  refine ⟨h.answers,?_,hvalid.queue.perm,hvalid.queue.bounded⟩
  intro sig
  exact ⟨cached_result lawful_classParser hvalid,cached_result lawful_methodParser hvalid,
    cached_result lawful_fieldParser hvalid⟩

/-- Two threads ask for one string under two shapes before either has stored its answer. -/
theorem signature_cache_transparent_race : ∃ answers s, CacheRun answers s ∧ answers.length = 2 ∧
    (∀ a ∈ answers, a.result = uncached a.request.sig a.request.shape) ∧
    s.cache.order.Perm s.cache.map.keys ∧ s.cache.size ≤ signatureCacheCap := by
  have hrun := CacheRun.initial
  have hrun := hrun.step (.miss (r := ⟨.cls,['L','A',';']⟩) 0 rfl rfl)
  have hrun := hrun.step (.miss (r := ⟨.field,['L','A',';']⟩) 1 rfl rfl)
  have hrun := hrun.step (.finish 0 rfl)
  have hrun := hrun.step (.finish 1 rfl)
  have h := signature_cache_transparent hrun
  exact ⟨_,_,hrun,rfl,h.1,h.2.2⟩

end
end CratonVM.Reader.Signature
