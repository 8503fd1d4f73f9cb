import CratonVM.Lib.Searching

/-!
The packed words of `gc/src/zgc/forwarding.rs`: one forwarding entry is one 64-bit word that
holds the occupied bit, the destination payload and the page-relative source offset.
-/
namespace CratonVM.Gc.Zgc
open List Function

def zfwdAlignShift : Nat := 3
def zfwdFromBits : Nat := 22
def zfwdToBits : Nat := 41
def zfwdOccupiedBit : Nat := 1 <<< 63
def zfwdToShift : Nat := zfwdFromBits
def zfwdFromMask : Nat := 1 <<< zfwdFromBits-1
def zfwdToMask : Nat := 1 <<< zfwdToBits-1
def zfwdAlignBytes : Nat := 1 <<< zfwdAlignShift
def zfwdMaxPayload : Nat := zfwdToMask <<< zfwdAlignShift
def zfwdEmpty : Nat := 0
def zfwdMinCapacity : Nat := 8
def zfwdMaxCapacity : Nat := 1 <<< 23

/-- An encoded destination; not an address. -/
abbrev ZForwardingPayload := Nat

namespace ZgcForwardingEntry
def pack (fromOffset : Nat) (payload : ZForwardingPayload) : Option Nat :=
  if payload = 0 then none
  else
    let alignMask := 1 <<< zfwdAlignShift-1
    if fromOffset &&& alignMask ≠ 0 ∨ payload &&& alignMask ≠ 0 then none
    else
      let f := fromOffset >>> zfwdAlignShift
      let t := payload >>> zfwdAlignShift
      if f > zfwdFromMask ∨ t > zfwdToMask then none
      else some (zfwdOccupiedBit ||| (t <<< zfwdToShift) ||| f)

def isOccupied (entry : Nat) : Bool := entry &&& zfwdOccupiedBit ≠ 0

def fromOffset (entry : Nat) : Nat := (entry &&& zfwdFromMask) <<< zfwdAlignShift

def payload (entry : Nat) : ZForwardingPayload :=
  ((entry >>> zfwdToShift) &&& zfwdToMask) <<< zfwdAlignShift

def keyBits (entry : Nat) : Nat := entry &&& zfwdFromMask

end ZgcForwardingEntry

/-- The finalizer of splitmix64, on 64-bit words. -/
def zfwdMix (key : Nat) : Nat :=
  let z := (key+0x9E3779B97F4A7C15)%2^64
  let z := ((z ^^^ (z >>> 30))*0xBF58476D1CE4E5B9)%2^64
  let z := ((z ^^^ (z >>> 27))*0x94D049BB133111EB)%2^64
  z ^^^ (z >>> 31)

/-- Slots for a page with this many live objects. A request whose next power of two does not
fit in a `usize` falls back to the largest capacity. -/
def zfwdCapacityFor (liveObjects : Nat) : Nat :=
  let requested := min (liveObjects*2) (2^64-1)
  let rounded := if requested ≤ 2^63 then requested.nextPowerOfTwo else zfwdMaxCapacity
  max zfwdMinCapacity (min rounded zfwdMaxCapacity)

open ZgcForwardingEntry

theorem pack_eq_some {off p e : Nat} (h : pack off p = some e) :
    p ≠ 0 ∧ off%8 = 0 ∧ p%8 = 0 ∧ off/8 < 2^22 ∧ p/8 < 2^41 ∧
      e = 2^63+((p/8)*2^22+off/8) := by
  simp only [pack,zfwdAlignShift,zfwdFromMask,zfwdToMask,zfwdFromBits,zfwdToBits,zfwdOccupiedBit,
    zfwdToShift,Nat.shiftRight_eq_div_pow,Nat.one_shiftLeft,Nat.and_two_pow_sub_one_eq_mod] at h
  split at h
  · cases h
  split at h
  · cases h
  split at h
  · cases h
  rename_i hp halign hfit
  simp only [not_or,not_not,Nat.not_lt] at halign hfit
  have hoff : off/2^3 < 2^22 := by omega
  have hpay : p/2^3 < 2^41 := by omega
  have hlow : (p/2^3) <<< 22 ||| off/2^3 = (p/2^3)*2^22+off/2^3 := by
    rw [← Nat.shiftLeft_add_eq_or_of_lt hoff,Nat.shiftLeft_eq]
  have hword : 2^63 ||| ((p/2^3)*2^22+off/2^3) = 2^63+((p/2^3)*2^22+off/2^3) := by
    have hlt : (p/2^3)*2^22+off/2^3 < 2^63 := by omega
    have hadd := Nat.shiftLeft_add_eq_or_of_lt hlt 1
    exact hadd.symm
  have he := Option.some.inj h
  rw [Nat.or_assoc,hlow,hword] at he
  exact ⟨hp,halign.1,halign.2,hoff,hpay,he.symm⟩

theorem isOccupied_pack {off p e : Nat} (h : pack off p = some e) : isOccupied e = true := by
  obtain ⟨_,_,_,hoff,hpay,rfl⟩ := pack_eq_some h
  have hlt : (p/8)*2^22+off/8 < 2^63 := by omega
  have hbit : (2^63+((p/8)*2^22+off/8)).testBit 63 = true := by
    rw [Nat.testBit_two_pow_add_eq,Nat.testBit_lt_two_pow hlt]; rfl
  simp only [isOccupied,zfwdOccupiedBit,Nat.one_shiftLeft,Nat.and_two_pow,hbit]
  decide

theorem keyBits_pack {off p e : Nat} (h : pack off p = some e) : keyBits e = off/8 := by
  obtain ⟨_,_,_,hoff,hpay,rfl⟩ := pack_eq_some h
  simp only [keyBits,zfwdFromMask,zfwdFromBits,Nat.one_shiftLeft,Nat.and_two_pow_sub_one_eq_mod]
  omega

theorem fromOffset_pack {off p e : Nat} (h : pack off p = some e) : fromOffset e = off := by
  have hkey := keyBits_pack h
  obtain ⟨_,halign,_,_,_,_⟩ := pack_eq_some h
  simp only [keyBits] at hkey
  simp only [fromOffset,zfwdAlignShift,Nat.shiftLeft_eq,hkey]
  omega

theorem payload_pack {off p e : Nat} (h : pack off p = some e) : payload e = p := by
  obtain ⟨_,_,halign,hoff,hpay,rfl⟩ := pack_eq_some h
  simp only [payload,zfwdToMask,zfwdToBits,zfwdToShift,zfwdFromBits,zfwdAlignShift,
    Nat.one_shiftLeft,Nat.and_two_pow_sub_one_eq_mod,Nat.shiftRight_eq_div_pow]
  have hdiv : (2^63+((p/8)*2^22+off/8))/2^22 = 2^41+p/8 := by omega
  rw [hdiv,Nat.add_mod_left,Nat.mod_eq_of_lt hpay,Nat.shiftLeft_eq]
  exact Nat.div_mul_cancel (Nat.dvd_of_mod_eq_zero halign)

theorem not_isOccupied_empty : isOccupied zfwdEmpty = false := by decide

theorem zfwdCapacityFor_pow (liveObjects : Nat) : ∃ k, zfwdCapacityFor liveObjects = 2^k := by
  simp only [zfwdCapacityFor]
  have hround : ∃ k, (if min (liveObjects*2) (2^64-1) ≤ 2^63 then
      (min (liveObjects*2) (2^64-1)).nextPowerOfTwo else zfwdMaxCapacity) = 2^k := by
    split
    · exact Nat.isPowerOfTwo_nextPowerOfTwo _
    · exact ⟨23,rfl⟩
  obtain ⟨k,hk⟩ := hround
  rw [hk]
  rcases Nat.le_total (2^k) zfwdMaxCapacity with h1 | h1
  · rw [Nat.min_eq_left h1]
    rcases Nat.le_total zfwdMinCapacity (2^k) with h2 | h2
    · exact ⟨k,Nat.max_eq_right h2⟩
    · exact ⟨3,Nat.max_eq_left h2⟩
  rw [Nat.min_eq_right h1]
  exact ⟨23,rfl⟩

def headerSize : Nat := 16
def zrelocEncodingBias : Nat := zfwdAlignBytes
def zrfSealed : Nat := 1 <<< 63
def zrfCountMask : Nat := 2^32-1

/-- The fields of a region's forwarding that never change. -/
structure ZRegionForwarding where
  regionBase : Nat
  regionBytes : Nat
  arenaBase : Nat
  liveObjects : Nat

namespace ZRegionForwarding
def keyOf (r : ZRegionForwarding) (src : Nat) : Option Nat :=
  if ¬ (r.regionBase ≤ src ∧ src < r.regionBase+r.regionBytes) ∨ src%zfwdAlignBytes ≠ 0 then none
  else some (src-r.regionBase)

def encodeTo (r : ZRegionForwarding) (dest : Nat) : Option ZForwardingPayload :=
  if dest < r.arenaBase then none
  else
    let enc := dest-r.arenaBase+zrelocEncodingBias
    if enc%zfwdAlignBytes ≠ 0 ∨ enc > zfwdMaxPayload then none else some enc

def decodeTo (r : ZRegionForwarding) (payload : ZForwardingPayload) : Nat :=
  payload-zrelocEncodingBias+r.arenaBase

end ZRegionForwarding

inductive ZForwardingInsertError where
  | unencodable | tableFull
  deriving DecidableEq, Repr

inductive ZRegionRelocateError where
  | badObject | allocFailed | unencodable | sealedWithoutEntry
  | table (e : ZForwardingInsertError)
  deriving DecidableEq, Repr

/-- What a call answered. `won` and `late` are not returned by the code: `won` says that the
call's own compare-and-swap stored the entry, `late` that the lookup started after some call
for the same offset had succeeded. -/
inductive Outcome where
  | inserted (payload : ZForwardingPayload) (won : Bool)
  | insertError (e : ZForwardingInsertError)
  | found (payload : Option ZForwardingPayload) (late : Bool)
  | forwarded (address : Nat)
  | relocated (dest : Nat) (won : Bool)
  | lostRace (winner abandoned : Nat)
  | relocateError (e : ZRegionRelocateError)
  | sealed (inside : Nat)
  | quiescent (answer : Bool)
  deriving DecidableEq, Repr

/-- An outcome with the region-relative offset it is about, when there is one. -/
structure Answer where
  offset : Option Nat
  outcome : Outcome
  deriving DecidableEq, Repr

/-- Who runs `try_insert`: a direct caller, or `relocate_or_forward` with its copy at `dest`. -/
inductive Inserter where
  | direct
  | region (dest : Nat)
  deriving DecidableEq, Repr

/-- Who runs `find_payload`: a direct caller, or `relocate_or_forward` before or after `retain`. -/
inductive Reader where
  | direct (late : Bool)
  | first (size : Nat)
  | afterRefusal
  deriving DecidableEq, Repr

/-- Where a thread stands in its call, with the local variables of the source. -/
inductive Pc where
  | idle
  | find (who : Reader) (off idx left : Nat)
  | retainLoad (off size : Nat)
  | retain (off size seen : Nat)
  | alloc (off size : Nat)
  | copy (off dest payload : Nat)
  | insertLoad (who : Inserter) (off payload desired idx left : Nat)
  | insertCas (who : Inserter) (off payload desired idx left : Nat)
  | release
  deriving DecidableEq, Repr

structure State (T : Type) where
  entries : List Nat
  word : Nat
  pcs : T → Pc
  log : List Answer

inductive Call where
  | tryInsert (off : Nat) (payload : ZForwardingPayload)
  | findPayload (off : Nat)
  | relocateOrForward (src size : Nat)
  | sealRegion
  | isQuiescent
  deriving DecidableEq, Repr

/-- What the scheduler lets a thread do: begin a call, take its next atomic step, receive an
answer of the to-space allocator, fail a weak compare-and-swap for no reason, or unwind out of
one of the caller's closures. -/
inductive Action where
  | call (c : Call)
  | advance
  | allocated (dest : Option Nat)
  | spurious
  | unwind
  deriving DecidableEq, Repr

/-- The new address an outcome gives the caller, if it gives one. -/
def Outcome.address (r : ZRegionForwarding) : Outcome → Option Nat
  | .inserted p _ => some (r.decodeTo p)
  | .found (some p) _ => some (r.decodeTo p)
  | .forwarded a => some a
  | .relocated dest _ => some dest
  | .lostRace winner _ => some winner
  | _ => none

/-- Outcomes of `try_insert` and `relocate_or_forward` that name the object's new address. -/
def Outcome.isSuccess : Outcome → Bool
  | .inserted _ _ | .forwarded _ | .relocated _ _ | .lostRace _ _ => true
  | _ => false

def Outcome.isWon : Outcome → Bool
  | .inserted _ won | .relocated _ won => won
  | _ => false

def Answer.succeeds (a : Answer) (off : Nat) : Bool :=
  a.offset == some off && a.outcome.isSuccess

def Answer.publishes (a : Answer) (off : Nat) : Bool :=
  a.offset == some off && a.outcome.isWon

section
variable {T : Type} [DecidableEq T]

namespace State
def capacity (s : State T) : Nat := s.entries.length
def mask (s : State T) : Nat := s.entries.length-1
def entry (s : State T) (idx : Nat) : Nat := s.entries.getD idx zfwdEmpty
def home (s : State T) (off : Nat) : Nat := zfwdMix (off >>> zfwdAlignShift) &&& s.mask

def goto (s : State T) (t : T) (pc : Pc) : State T :=
  { s with pcs := Function.update s.pcs t pc }

def answer (s : State T) (offset : Option Nat) (outcome : Outcome) : State T :=
  { s with log := s.log ++ [⟨offset,outcome⟩] }

def finishFind (r : ZRegionForwarding) (s : State T) (t : T) (off : Nat) (who : Reader)
    (result : Option ZForwardingPayload) : State T :=
  match who, result with
  | .direct late, result => (s.answer (some off) (.found result late)).goto t .idle
  | .first _, some p => (s.answer (some off) (.forwarded (r.decodeTo p))).goto t .idle
  | .first size, none => s.goto t (.retainLoad off size)
  | .afterRefusal, some p => (s.answer (some off) (.forwarded (r.decodeTo p))).goto t .idle
  | .afterRefusal, none =>
    (s.answer (some off) (.relocateError .sealedWithoutEntry)).goto t .idle

def beginFind (r : ZRegionForwarding) (s : State T) (t : T) (off : Nat) (who : Reader) : State T :=
  let alignMask := 1 <<< zfwdAlignShift-1
  if off &&& alignMask ≠ 0 then s.finishFind r t off who none
  else if off >>> zfwdAlignShift > zfwdFromMask then s.finishFind r t off who none
  else s.goto t (.find who off (s.home off) s.capacity)

/-- `try_insert` returned `Ok(winner)` to its caller. -/
def finishInsert (r : ZRegionForwarding) (s : State T) (t : T) (off : Nat)
    (payload winner : ZForwardingPayload) (won : Bool) : Inserter → State T
  | .direct => (s.answer (some off) (.inserted winner won)).goto t .idle
  | .region dest =>
    if winner = payload then (s.answer (some off) (.relocated dest won)).goto t .release
    else (s.answer (some off) (.lostRace (r.decodeTo winner) dest)).goto t .release

/-- `try_insert` returned an error to its caller. -/
def failInsert (s : State T) (t : T) (off : Nat) (e : ZForwardingInsertError) :
    Inserter → State T
  | .direct => (s.answer (some off) (.insertError e)).goto t .idle
  | .region _ => (s.answer (some off) (.relocateError (.table e))).goto t .release

def beginInsert (s : State T) (t : T) (off : Nat) (payload : ZForwardingPayload)
    (who : Inserter) : State T :=
  match pack off payload with
  | none => s.failInsert t off .unencodable who
  | some desired => s.goto t (.insertLoad who off payload desired (s.home off) s.capacity)

def begin (r : ZRegionForwarding) (s : State T) (t : T) : Call → State T
  | .tryInsert off payload => s.beginInsert t off payload .direct
  | .findPayload off =>
    s.beginFind r t off (.direct (s.log.any fun a => a.succeeds off))
  | .relocateOrForward src size =>
    match r.keyOf src with
    | none => s.answer none (.relocateError .badObject)
    | some off =>
      if size < headerSize then s.answer none (.relocateError .badObject)
      else s.beginFind r t off (.first size)
  | .sealRegion =>
    { s with word := s.word ||| zrfSealed }.answer none (.sealed (s.word &&& zrfCountMask))
  | .isQuiescent => s.answer none (.quiescent (s.word == zrfSealed))

/-- One probe of `find_payload`. -/
def stepFind (r : ZRegionForwarding) (s : State T) (t : T) (who : Reader) (off idx : Nat) :
    Nat → State T
  | 0 => s.finishFind r t off who none
  | left+1 =>
    let observed := s.entry idx
    if ¬ isOccupied observed then s.finishFind r t off who none
    else if keyBits observed = off >>> zfwdAlignShift then
      s.finishFind r t off who (some (payload observed))
    else s.goto t (.find who off ((idx+1) &&& s.mask) left)

/-- One probe load of `try_insert`. -/
def stepInsert (r : ZRegionForwarding) (s : State T) (t : T) (who : Inserter)
    (off p desired idx : Nat) : Nat → State T
  | 0 => s.failInsert t off .tableFull who
  | left+1 =>
    let observed := s.entry idx
    if isOccupied observed then
      if keyBits observed = off >>> zfwdAlignShift then
        s.finishInsert r t off p (payload observed) false who
      else s.goto t (.insertLoad who off p desired ((idx+1) &&& s.mask) left)
    else s.goto t (.insertCas who off p desired idx left)

/-- The publishing compare-and-swap of `try_insert`. -/
def stepCas (r : ZRegionForwarding) (s : State T) (t : T) (who : Inserter)
    (off p desired idx left : Nat) : State T :=
  let winner := s.entry idx
  if winner = zfwdEmpty then
    { s with entries := s.entries.set idx desired }.finishInsert r t off p p true who
  else if isOccupied winner ∧ keyBits winner = off >>> zfwdAlignShift then
    s.finishInsert r t off p (payload winner) false who
  else s.goto t (.insertLoad who off p desired ((idx+1) &&& s.mask) left)

/-- One round of the loop of `retain`, after a value of the word was read. -/
def stepRetain (r : ZRegionForwarding) (s : State T) (t : T) (off size seen : Nat) : State T :=
  if seen &&& zrfSealed ≠ 0 ∨ seen &&& zrfCountMask = zrfCountMask then
    s.beginFind r t off .afterRefusal
  else if s.word = seen then
    { s with word := seen+1 }.goto t (.alloc off size)
  else s.goto t (.retain off size s.word)

/-- The `fetch_sub(1)` of a dropped guard. -/
def dropCount (word : Nat) : Nat := (word+(2^64-1))%2^64

def stepAlloc (r : ZRegionForwarding) (s : State T) (t : T) (off : Nat) : Option Nat → State T
  | none => (s.answer (some off) (.relocateError .allocFailed)).goto t .release
  | some dest =>
    match r.encodeTo dest with
    | none => (s.answer (some off) (.relocateError .unencodable)).goto t .release
    | some payload => s.goto t (.copy off dest payload)

def step (r : ZRegionForwarding) (s : State T) (t : T) (action : Action) : State T :=
  match s.pcs t, action with
  | .idle, .call c => s.begin r t c
  | .find who off idx left, .advance => s.stepFind r t who off idx left
  | .retainLoad off size, .advance => s.goto t (.retain off size s.word)
  | .retain off size seen, .advance => s.stepRetain r t off size seen
  | .retain off size seen, .spurious =>
    if seen &&& zrfSealed ≠ 0 ∨ seen &&& zrfCountMask = zrfCountMask then s
    else s.goto t (.retain off size s.word)
  | .alloc off _, .allocated dest => s.stepAlloc r t off dest
  | .alloc _ _, .unwind => s.goto t .release
  | .copy off dest payload, .advance => s.beginInsert t off payload (.region dest)
  | .copy _ _ _, .unwind => s.goto t .release
  | .insertLoad who off p desired idx left, .advance => s.stepInsert r t who off p desired idx left
  | .insertCas who off p desired idx left, .advance => s.stepCas r t who off p desired idx left
  | .release, .advance => { s with word := dropCount s.word }.goto t .idle
  | _, _ => s

end State

/-- A fresh forwarding: empty slots, nobody inside, every thread idle. -/
def initial (r : ZRegionForwarding) : State T :=
  ⟨List.replicate (zfwdCapacityFor r.liveObjects) zfwdEmpty,0,fun _ => .idle,[]⟩

def run (r : ZRegionForwarding) (events : List (T × Action)) : State T :=
  events.foldl (fun s e => s.step r e.1 e.2) (initial r)

end

open ZgcForwardingEntry Probing

/-- The key a slot holds. -/
def held (entries : List Nat) (i : Nat) : Option Nat :=
  let e := entries.getD i zfwdEmpty
  if isOccupied e then some (keyBits e) else none

def homeOf (entries : List Nat) (key : Nat) : Nat := zfwdMix key &&& (entries.length-1)

def Maps (entries : List Nat) (off : Nat) (p : ZForwardingPayload) : Prop :=
  ∃ i, i < entries.length ∧ pack off p = some (entries.getD i zfwdEmpty)

def Published (entries : List Nat) (off : Nat) : Prop := ∃ p, Maps entries off p

/-- The first `n` probes for `off` met other keys. -/
def Seen (entries : List Nat) (off n : Nat) : Prop :=
  Passed entries.length (homeOf entries) (held entries) (off/8) n

structure TableOk (entries : List Nat) : Prop where
  pow : ∃ k, entries.length = 2^k
  valid : ∀ i, i < entries.length → entries.getD i zfwdEmpty = zfwdEmpty ∨
    ∃ off p, pack off p = some (entries.getD i zfwdEmpty)
  chained : Chained entries.length (homeOf entries) (held entries)

structure ProbeOk (entries : List Nat) (off idx left : Nat) : Prop where
  rounds : left ≤ entries.length
  here : idx = slotAt entries.length (homeOf entries (off/8)) (entries.length-left)
  seen : Seen entries off (entries.length-left)

def Inserter.Ok (r : ZRegionForwarding) (p : ZForwardingPayload) : Inserter → Prop
  | .direct => True
  | .region dest => r.encodeTo dest = some p

def PcOk (r : ZRegionForwarding) (entries : List Nat) : Pc → Prop
  | .find who off idx left =>
    ProbeOk entries off idx left ∧ off%8 = 0 ∧ (who = .direct true → Published entries off)
  | .copy _ dest p => r.encodeTo dest = some p
  | .insertLoad who off p desired idx left =>
    ProbeOk entries off idx left ∧ pack off p = some desired ∧ who.Ok r p
  | .insertCas who off p desired idx left =>
    ProbeOk entries off idx (left+1) ∧ pack off p = some desired ∧ who.Ok r p
  | _ => True

/-- `relocate_or_forward` inserts under its guard. -/
def Inserter.holds : Inserter → Bool
  | .direct => false
  | .region _ => true

/-- The thread is between a successful `retain` and the drop of its guard. -/
def Pc.holds : Pc → Bool
  | .alloc _ _ | .copy _ _ _ | .release => true
  | .insertLoad who _ _ _ _ _ | .insertCas who _ _ _ _ _ => who.holds
  | _ => false

def Outcome.isTableFull : Outcome → Bool
  | .insertError .tableFull | .relocateError (.table .tableFull) => true
  | _ => false

def AnswerOk (r : ZRegionForwarding) (entries : List Nat) (a : Answer) : Prop :=
  (∀ addr, a.outcome.address r = some addr →
    ∃ off p, a.offset = some off ∧ Maps entries off p ∧ addr = r.decodeTo p) ∧
  (a.outcome.isTableFull → ∃ off, a.offset = some off ∧
    ∀ i, i < entries.length → ∃ k, held entries i = some k ∧ k ≠ off/8) ∧
  a.outcome ≠ .found none true

def publications (log : List Answer) (off : Nat) : Nat := log.countP fun a => a.publishes off

structure LogOk (r : ZRegionForwarding) (entries : List Nat) (log : List Answer) : Prop where
  answers : ∀ a, a ∈ log → AnswerOk r entries a
  once : ∀ off, Published entries off → publications log off = 1
  never : ∀ off, ¬ Published entries off → publications log off = 0

section
variable {T : Type}

structure GuardOk (word : Nat) (pcs : T → Pc) (log : List Answer) : Prop where
  count : ∃ holders : List T, holders.Nodup ∧ (∀ t, t ∈ holders ↔ (pcs t).holds = true) ∧
    holders.length ≤ zrfCountMask ∧
    (word = holders.length ∨ word = zrfSealed+holders.length)
  quiet : ∀ a, a ∈ log → a.outcome = .quiescent true → word = zrfSealed

structure Inv (r : ZRegionForwarding) (s : State T) : Prop where
  table : TableOk s.entries
  pcs : ∀ t, PcOk r s.entries (s.pcs t)
  log : LogOk r s.entries s.log
  guard : GuardOk s.word s.pcs s.log

end

theorem shiftRight_align (off : Nat) : off >>> zfwdAlignShift = off/8 := by
  simp [zfwdAlignShift,Nat.shiftRight_eq_div_pow]

theorem and_align (off : Nat) : off &&& (1 <<< zfwdAlignShift-1) = off%8 := by
  simp only [zfwdAlignShift,Nat.one_shiftLeft,Nat.and_two_pow_sub_one_eq_mod]

theorem TableOk.pos {entries : List Nat} (h : TableOk entries) : 0 < entries.length := by
  obtain ⟨k,hk⟩ := h.pow
  rw [hk]; exact Nat.two_pow_pos k

theorem TableOk.and_mask {entries : List Nat} (h : TableOk entries) (x : Nat) :
    x &&& (entries.length-1) = x%entries.length := by
  obtain ⟨k,hk⟩ := h.pow
  rw [hk,Nat.and_two_pow_sub_one_eq_mod]

theorem held_of_pack {entries : List Nat} {i off p : Nat}
    (h : pack off p = some (entries.getD i zfwdEmpty)) : held entries i = some (off/8) := by
  simp only [held,isOccupied_pack h,if_true,keyBits_pack h]

theorem TableOk.maps_of_slot {entries : List Nat} (h : TableOk entries) {i off : Nat}
    (hi : i < entries.length) (halign : off%8 = 0)
    (hocc : isOccupied (entries.getD i zfwdEmpty) = true)
    (hkey : keyBits (entries.getD i zfwdEmpty) = off/8) :
    Maps entries off (payload (entries.getD i zfwdEmpty)) := by
  rcases h.valid i hi with he | ⟨off',p,hp⟩
  · rw [he,not_isOccupied_empty] at hocc; cases hocc
  refine ⟨i,hi,?_⟩
  rw [payload_pack hp]
  have halign' := (pack_eq_some hp).2.1
  rw [keyBits_pack hp] at hkey
  have hoff : off' = off := by omega
  rw [← hoff]; exact hp

theorem TableOk.maps_unique {entries : List Nat} (h : TableOk entries) {off p q : Nat}
    (hp : Maps entries off p) (hq : Maps entries off q) : p = q := by
  obtain ⟨i,hi,hpi⟩ := hp
  obtain ⟨j,hj,hqj⟩ := hq
  obtain rfl := h.chained.once (off/8) i j hi hj (held_of_pack hpi) (held_of_pack hqj)
  rw [← payload_pack hpi,payload_pack hqj]

theorem probe_init {entries : List Nat} (h : TableOk entries) (off : Nat) :
    ProbeOk entries off (homeOf entries (off/8)) entries.length := by
  refine ⟨le_rfl,?_,?_⟩
  · have hlt : homeOf entries (off/8) < entries.length := by
      rw [homeOf,h.and_mask]; exact Nat.mod_lt _ h.pos
    rw [Nat.sub_self,slotAt,Nat.add_zero,Nat.mod_eq_of_lt hlt]
  · rw [Nat.sub_self]; exact passed_zero _ _ _ _

theorem ProbeOk.idx_lt {entries : List Nat} {off idx left : Nat} (h : TableOk entries)
    (hp : ProbeOk entries off idx left) : idx < entries.length := by
  rw [hp.here]; exact slotAt_lt h.pos _ _

theorem ProbeOk.next {entries : List Nat} {off idx left k : Nat} (h : TableOk entries)
    (hp : ProbeOk entries off idx (left+1)) (hk : held entries idx = some k) (hne : k ≠ off/8) :
    ProbeOk entries off ((idx+1) &&& (entries.length-1)) left := by
  have hround := hp.rounds
  have hstep : entries.length-left = entries.length-(left+1)+1 := by omega
  refine ⟨by omega,?_,?_⟩
  · rw [h.and_mask,hp.here,hstep,slotAt_succ]
  rw [hstep]
  exact Passed.succ hp.seen (by rw [← hp.here]; exact hk) hne

theorem ProbeOk.absent {entries : List Nat} {off idx left : Nat} (h : TableOk entries)
    (hp : ProbeOk entries off idx (left+1)) (hempty : held entries idx = none) :
    ¬ Published entries off := by
  rintro ⟨p,i,hi,hpi⟩
  rw [hp.here] at hempty
  exact h.chained.absent hp.seen hempty hi (held_of_pack hpi)

theorem ProbeOk.full {entries : List Nat} {off idx : Nat} (hp : ProbeOk entries off idx 0)
    {i : Nat} (hi : i < entries.length) : ∃ k, held entries i = some k ∧ k ≠ off/8 := by
  have hseen := hp.seen
  exact Passed.all hseen hi

theorem getD_set {entries : List Nat} {idx : Nat} (hi : idx < entries.length) (e j : Nat) :
    (entries.set idx e).getD j zfwdEmpty = if j = idx then e else entries.getD j zfwdEmpty := by
  by_cases hj : j = idx
  · subst hj; simp [List.getD,List.getElem?_set_self hi]
  · simp [List.getD,List.getElem?_set_ne (Ne.symm hj),hj]

section
variable {entries : List Nat} {idx off p e : Nat}

theorem held_set (hi : idx < entries.length) (hpack : pack off p = some e) :
    held (entries.set idx e) = Function.update (held entries) idx (some (off/8)) := by
  funext j
  simp only [held,getD_set hi]
  by_cases hj : j = idx
  · subst hj
    rw [Function.update_self,if_pos rfl,isOccupied_pack hpack,if_pos rfl,keyBits_pack hpack]
  rw [Function.update_of_ne hj,if_neg hj]
  rfl

theorem maps_set_iff (hi : idx < entries.length) (hempty : entries.getD idx zfwdEmpty = zfwdEmpty)
    (hpack : pack off p = some e) (off' p' : Nat) :
    Maps (entries.set idx e) off' p' ↔ Maps entries off' p' ∨ (off' = off ∧ p' = p) := by
  constructor
  · rintro ⟨i,hil,hpi⟩
    rw [List.length_set] at hil
    rw [getD_set hi] at hpi
    by_cases hii : i = idx
    · rw [if_pos hii] at hpi
      right
      exact ⟨(fromOffset_pack hpi).symm.trans (fromOffset_pack hpack),
        (payload_pack hpi).symm.trans (payload_pack hpack)⟩
    rw [if_neg hii] at hpi
    exact .inl ⟨i,hil,hpi⟩
  rintro (⟨i,hil,hpi⟩ | ⟨rfl,rfl⟩)
  · have hii : i ≠ idx := by
      rintro rfl
      have hocc := isOccupied_pack hpi
      rw [hempty,not_isOccupied_empty] at hocc
      cases hocc
    exact ⟨i,by rw [List.length_set]; exact hil,by rw [getD_set hi,if_neg hii]; exact hpi⟩
  · exact ⟨idx,by rw [List.length_set]; exact hi,by rw [getD_set hi,if_pos rfl]; exact hpack⟩

theorem held_keep (hi : idx < entries.length) (hempty : held entries idx = none)
    (hpack : pack off p = some e) (j k : Nat) (hk : held entries j = some k) :
    held (entries.set idx e) j = some k := by
  rw [held_set hi hpack]
  by_cases hj : j = idx
  · subst hj; rw [hempty] at hk; cases hk
  · rw [Function.update_of_ne hj]; exact hk

theorem ProbeOk.set {off' idx' left' : Nat} (hp : ProbeOk entries off' idx' left')
    (hi : idx < entries.length) (hempty : held entries idx = none)
    (hpack : pack off p = some e) : ProbeOk (entries.set idx e) off' idx' left' := by
  have hhome : homeOf (entries.set idx e) = homeOf entries := by
    funext k; simp only [homeOf,List.length_set]
  refine ⟨by rw [List.length_set]; exact hp.rounds,?_,?_⟩
  · rw [List.length_set,hhome]; exact hp.here
  simp only [Seen,List.length_set,hhome]
  exact Passed.mono hp.seen (held_keep hi hempty hpack)

theorem TableOk.publish {left : Nat} (h : TableOk entries) (hp : ProbeOk entries off idx (left+1))
    (hempty : held entries idx = none) (hpack : pack off p = some e) :
    TableOk (entries.set idx e) := by
  have hi := hp.idx_lt h
  have hhome : homeOf (entries.set idx e) = homeOf entries := by
    funext k; simp only [homeOf,List.length_set]
  refine ⟨by rw [List.length_set]; exact h.pow,?_,?_⟩
  · intro i hil
    rw [List.length_set] at hil
    rw [getD_set hi]
    by_cases hii : i = idx
    · rw [if_pos hii]; exact .inr ⟨off,p,hpack⟩
    · rw [if_neg hii]; exact h.valid i hil
  rw [List.length_set,hhome,held_set hi hpack,hp.here]
  rw [hp.here] at hempty
  exact h.chained.claim (by omega) hp.seen hempty

end
end CratonVM.Gc.Zgc
