import CratonVM.Lib.Searching
import CratonVM.Reader.Instruction
import CratonVM.Lib.ByteReader

/-!
The branch that a `lookupswitch` takes (`LookupSwitch::target` in `reader/src/instruction.rs`), over any
search for a key that the library promises.
-/
namespace CratonVM.Reader.LookupSwitch
open BinarySearch Option Prod

/-- The offset of the first pair with the key, or the default. -/
def scan (t : LookupSwitch) (key : Int) : Int :=
  ((t.pairs.find? (·.1 = key)).map Prod.snd).getD t.default

def targetWith (search : List Int → Int → Except Nat Nat) (t : LookupSwitch) (key : Int) : Int :=
  match search (t.pairs.map Prod.fst) key with
  | .ok i => (t.pairs[i]?.map Prod.snd).getD t.default
  | .error _ => t.scan key

def target (t : LookupSwitch) (key : Int) : Int := targetWith searchByKey t key

def Agrees (t : LookupSwitch) (key : Int) : Prop :=
  ∀ p ∈ t.pairs, ∀ q ∈ t.pairs, p.1 = key → q.1 = key → p.2 = q.2

variable {t : LookupSwitch} {key : Int}

theorem scan_of_mem {p : Int × Int} (hp : p ∈ t.pairs) (hkey : p.1 = key) :
    ∃ q ∈ t.pairs, q.1 = key ∧ t.scan key = q.2 := by
  have hsome : (t.pairs.find? (·.1 = key)).isSome = true :=
    List.find?_isSome.mpr ⟨p,hp,by simpa using hkey⟩
  obtain ⟨q,hq⟩ := isSome_iff_exists.mp hsome
  refine ⟨q,List.mem_of_find?_eq_some hq,by simpa using List.find?_some hq,?_⟩
  rw [scan,hq]
  rfl

theorem pair_of_hit {search : List Int → Int → Except Nat Nat} (hs : Searches search) {i : Nat}
    (h : search (t.pairs.map fst) key = .ok i) : ∃ p, t.pairs[i]? = some p ∧ p.1 = key := by
  have hget := hs.hit h
  rw [List.getElem?_map] at hget
  exact map_eq_some_iff.mp hget

/-- A search that hits a given place of one table, and is any other search elsewhere. -/
def hitting (search : List Int → Int → Except Nat Nat) (keys : List Int) (key : Int) (i : Nat)
    (keys' : List Int) (key' : Int) : Except Nat Nat :=
  if keys' = keys ∧ key' = key then .ok i else search keys' key'

theorem searches_hitting {search : List Int → Int → Except Nat Nat} (hs : Searches search) {keys : List Int}
    {i : Nat} (h : keys[i]? = some key) : Searches (hitting search keys key i) where
  hit := by
    intro keys' key' j hj
    unfold hitting at hj
    split at hj
    · rename_i heq
      cases hj
      rw [heq.1,heq.2]
      exact h
    · exact hs.hit hj
  found := by
    intro keys' key' hsorted hmem
    unfold hitting
    split
    · exact ⟨i,rfl⟩
    · exact hs.found hsorted hmem

/-- Whichever of the equal keys the search hits, the branch is that of the first pair, exactly when the
pairs with the key agree. -/
theorem target_eq_scan (t : LookupSwitch) (key : Int) :
    (∀ search, Searches search → targetWith search t key = t.scan key) ↔ t.Agrees key := by
  constructor
  · -- a search may hit either of two pairs
    intro h
    have hany : ∀ p ∈ t.pairs, p.1 = key → p.2 = t.scan key := by
      intro p hp hkey
      obtain ⟨i,hi,hget⟩ := List.getElem_of_mem hp
      have hpair : t.pairs[i]? = some p := List.getElem?_eq_some_iff.mpr ⟨hi,hget⟩
      have hkeys : (t.pairs.map fst)[i]? = some key := by
        rw [List.getElem?_map,hpair,map_some,hkey]
      have htarget := h _ (searches_hitting searches_searchByKey hkeys)
      rw [targetWith,hitting,if_pos ⟨rfl,rfl⟩] at htarget
      dsimp only at htarget
      rw [hpair] at htarget
      exact htarget
    intro p hp q hq hpk hqk
    rw [hany p hp hpk,hany q hq hqk]
  intro hagrees search hs
  unfold targetWith
  cases h : search (t.pairs.map fst) key with
  | error e => rfl
  | ok i => ?_
  obtain ⟨p,hp,hkey⟩ := pair_of_hit hs h
  have hmem := List.mem_of_getElem? hp
  obtain ⟨q,hq,hqk,hscan⟩ := scan_of_mem hmem hkey
  dsimp only
  rw [hp,hscan]
  exact hagrees p hmem q hq hkey hqk

/-- Two pairs with the key 5: the halving ends at the second one. -/
def twice : LookupSwitch := ⟨99,[(5,10),(5,20)]⟩

def twiceCode : List UInt8 :=
  [0xab,0,0,0, 0,0,0,99, 0,0,0,2, 0,0,0,5, 0,0,0,10, 0,0,0,5, 0,0,0,20]

theorem twice_takes_second : Instruction.decode twiceCode 0 = .ok (.lookupswitch twice,28) ∧
    twice.target 5 = 20 ∧ twice.scan 5 = 10 := by
  decide +kernel

end CratonVM.Reader.LookupSwitch
namespace CratonVM.Reader
open Outcome

namespace Instruction
variable {code : List UInt8} {α β : Type} {pc : Nat}

/-- A part of the decoder that never steps back to `pc`. -/
abbrev Advances (pc : Nat) (m : Decode α) : Prop := Triple (pc < ·) m fun _ next => pc < next

namespace Advances
theorem pure (a : α) : Advances pc (pure a : Decode α) := Triple.pure fun _ h => h

theorem bind {m : Decode α} {f : α → Decode β} (hm : Advances pc m)
    (hf : ∀ a, Advances pc (f a)) : Advances pc (m >>= f) := Triple.bind hm hf

theorem map {m : Decode α} (f : α → β) (hm : Advances pc m) : Advances pc (f <$> m) := by
  rw [map_eq_pure_bind]
  exact bind hm fun _ => pure _

theorem fail (message : String) : Advances pc (Instruction.fail message : Decode α) := by
  intro s a t _ h
  cases h

theorem get : Advances pc (get : Decode Nat) := by
  intro s a t hs h
  cases h
  exact hs

theorem throw (e : ClassReaderError) : Advances pc (throw e : Decode α) := by
  intro s a t _ h
  cases h

theorem literal {opcode byte : UInt8} {yes : Decode α} {no : ¬opcode = byte → Decode α}
    (hyes : Advances pc yes) (hno : ∀ h, Advances pc (no h)) :
    Advances pc (dite (opcode = byte) (@Eq.ndrec_symm _ _ (fun _ => Decode α) yes _) no) := by
  by_cases h : opcode = byte
  · subst h
    rw [dif_pos rfl]
    exact hyes
  rw [dif_neg h]
  exact hno h

end Advances

theorem readBytes_advances (n : Nat) : Advances pc (readBytes code n) := by
  induction n with
  | zero => exact Advances.pure 0
  | succ n ih => ?_
  intro s a t hs h
  obtain ⟨s0,s1,hget,hread⟩ := state_bind_eq_ok.mp h
  obtain ⟨b,s2,hbyte,hstep⟩ := state_bind_eq_ok.mp hread
  obtain ⟨u,s3,hset,htail⟩ := state_bind_eq_ok.mp hstep
  obtain ⟨rest,s4,hrest,hdone⟩ := state_bind_eq_ok.mp htail
  cases hget
  cases hset
  cases state_pure_eq_ok.mp hdone
  exact ih (s+1) rest _ (Nat.lt_succ_of_lt hs) hrest

theorem readU8_advances : Advances pc (readU8 code) := readBytes_advances 1
theorem readU16_advances : Advances pc (readU16 code) := readBytes_advances 2
theorem readI8_advances : Advances pc (readI8 code) := (readBytes_advances 1).map _
theorem readI16_advances : Advances pc (readI16 code) := (readBytes_advances 2).map _
theorem readI32_advances : Advances pc (readI32 code) := (readBytes_advances 4).map _

theorem alignSwitch_advances : Advances pc alignSwitch := by
  intro s a t hs h
  cases h
  dsimp only at hs ⊢
  omega

theorem readMany_advances {one : Decode α} (h : Advances pc one) (n : Nat) :
    Advances pc (readMany one n) := by
  induction n with
  | zero => exact Advances.pure []
  | succ n ih => exact h.bind fun _ => ih.bind fun _ => Advances.pure _

theorem checkRoom_advances (size : Nat) : Advances pc (checkRoom code size) := by
  refine (Advances.get).bind fun next => ?_
  split
  · exact Advances.throw _
  · exact Advances.pure _

theorem decodeTableswitch_advances : Advances pc (decodeTableswitch code) := by
  refine (alignSwitch_advances).bind fun _ => (readI32_advances).bind fun default =>
    (readI32_advances).bind fun low => (readI32_advances).bind fun high => ?_
  dsimp only
  split
  · exact Advances.fail _
  split
  · exact Advances.fail _
  exact (checkRoom_advances _).bind fun _ =>
    (readMany_advances readI32_advances _).bind fun _ => Advances.pure _

theorem decodeLookupswitch_advances : Advances pc (decodeLookupswitch code) := by
  refine (alignSwitch_advances).bind fun _ => (readI32_advances).bind fun default =>
    (readI32_advances).bind fun npairs => ?_
  split
  · exact Advances.fail _
  split
  · exact Advances.fail _
  refine (checkRoom_advances _).bind fun _ => (readMany_advances ?_ _).bind fun _ => Advances.pure _
  exact (readI32_advances).bind fun _ => (readI32_advances).bind fun _ => Advances.pure _

theorem decodeInvokeinterface_advances : Advances pc (decodeInvokeinterface code) := by
  refine (readU16_advances).bind fun _ => (readU8_advances).bind fun _ =>
    (readU8_advances).bind fun _ => ?_
  split
  · exact Advances.fail _
  · exact Advances.pure _

theorem decodeInvokedynamic_advances : Advances pc (decodeInvokedynamic code) := by
  refine (readU16_advances).bind fun _ => (readU8_advances).bind fun _ =>
    (readU8_advances).bind fun _ => ?_
  split
  · exact Advances.fail _
  · exact Advances.pure _

theorem decodeWide_advances : Advances pc (decodeWide code) := by
  refine (readU8_advances).bind fun opcode => ?_
  rw [decodeWideForm]
  split
  case h_11 =>
    exact (readU16_advances).bind fun _ => (readI16_advances).bind fun _ => Advances.pure _
  case h_13 => exact Advances.fail _
  all_goals exact (readU16_advances).map _

theorem decodeOperands_advances (opcode : UInt8) : Advances pc (decodeOperands code pc opcode) := by
  -- test by test: splitting the match compares every two opcodes
  unfold decodeOperands decodeOperands.match_1
  repeat' with_reducible refine Advances.literal ?_ fun _ => ?_
  all_goals first
    | with_reducible exact Advances.pure _
    | with_reducible exact (readU8_advances).map _
    | with_reducible exact (readU16_advances).map _
    | with_reducible exact (readI8_advances).map _
    | with_reducible exact (readI16_advances).map _
    | with_reducible exact (readI32_advances).map _
    | with_reducible exact decodeTableswitch_advances
    | with_reducible exact decodeLookupswitch_advances
    | with_reducible exact decodeInvokeinterface_advances
    | with_reducible exact decodeInvokedynamic_advances
    | with_reducible exact decodeWide_advances
    | with_reducible exact Advances.fail _
    | with_reducible exact (readU8_advances).bind fun _ => (readI8_advances).bind fun _ => Advances.pure _
    | with_reducible exact (readU16_advances).bind fun _ => (readU8_advances).bind fun _ => Advances.pure _

theorem decode_advances {insn : Instruction} {next : Nat}
    (h : decode code pc = .ok (insn,next)) : pc < next := by
  obtain ⟨opcode,_,h⟩ := bind_eq_ok.mp h
  exact decodeOperands_advances opcode (pc+1) insn next (Nat.lt_succ_self pc) h

end Instruction

open Instruction

/-- The linear walk that stands at `pc` comes to `start`, both below `limit`. -/
inductive Walks (code : List UInt8) (limit : Nat) : Nat → Nat → Prop
  | here {pc : Nat} (h : pc < limit) : Walks code limit pc pc
  | on {pc next start : Nat} {insn : Instruction} (h : pc < limit)
      (hdecode : decode code pc = .ok (insn,next)) (rest : Walks code limit next start) :
      Walks code limit pc start

namespace Walks
variable {code : List UInt8} {limit pc start : Nat}

section
variable (h : Walks code limit pc start)
include h

theorem bound : start < limit := by
  induction h with
  | here h => exact h
  | on _ _ _ ih => exact ih

theorem le : pc ≤ start := by
  induction h with
  | here => exact le_rfl
  | on _ hdecode _ ih =>
    have := decode_advances hdecode
    omega

theorem first : pc < limit := Nat.lt_of_le_of_lt h.le h.bound

end
end Walks
end CratonVM.Reader
