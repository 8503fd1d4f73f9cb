import Mathlib

/-!
Sets of small numbers, packed 64 to a word.
-/
namespace CratonVM.BitRows
open List Option
open BitVec hiding and_comm

abbrev Row := List (BitVec 64)

/-- Is the number in the set? -/
def get (row : Row) (i : Nat) : Bool := (row[i/64]?).any fun w => w.getLsbD (i%64)

/-- The set with one more number; a number past the last word is ignored. -/
def set (row : Row) (i : Nat) : Row := row.modify (i/64) (· ||| (1#64 <<< (i%64)))

/-- The set without the number. -/
def clear (row : Row) (i : Nat) : Row := row.modify (i/64) (· &&& ~~~(1#64 <<< (i%64)))

def empty (words : Nat) : Row := List.replicate words 0

def union (a b : Row) : Row := List.zipWith (· ||| ·) a b

def diff (a b : Row) : Row := List.zipWith (fun x y => x &&& ~~~y) a b

/-- The numbers of the set, in increasing order. -/
def bits (row : Row) : List Nat := (List.range (64*row.length)).filter (get row)

section
variable (row : Row) (i j : Nat)

@[simp] theorem length_set : (set row i).length = row.length := by simp [set]

@[simp] theorem length_clear : (clear row i).length = row.length := by simp [clear]

@[simp] theorem length_empty (words : Nat) : (empty words).length = words := by simp [empty]

@[simp] theorem get_empty (words : Nat) : get (empty words) i = false := by
  simp only [get,empty,getElem?_replicate]
  split <;> simp

theorem getLsbD_one_shift {w k : Nat} (hk : k < w) (m : Nat) :
    (1#w <<< k).getLsbD m = decide (m = k) := by
  rw [getLsbD_shiftLeft]
  by_cases h : m = k
  · have hw : 0 < w := by omega
    subst h
    simp [hk,hw]
  by_cases hm : m < k
  · simp [hm,h]
  have hne : m-k ≠ 0 := by omega
  simp [h,hne]

theorem shifted_bit (k m : Nat) (hk : k < 64) : (1#64 <<< k).getLsbD m = decide (m = k) :=
  getLsbD_one_shift hk m

theorem shifted_and_one {w : Nat} (x : BitVec w) (k : Nat) :
    (x >>> k) &&& 1#w = 0#w ↔ x.getLsbD k = false := by
  constructor
  · intro h
    have hbit := congrArg (·.getLsbD 0) h
    by_cases hw : 0 < w
    · simpa [hw] using hbit
    · exact getLsbD_of_ge x k (by omega)
  intro h
  refine eq_of_getLsbD_eq fun j _ => ?_
  cases j with
  | zero => simpa using fun h' => absurd h' (by simp [h])
  | succ j => simp

theorem split_eq (h : i/64 = j/64) : i%64 = j%64 ↔ i = j := by omega

theorem get_set : get (set row i) j = (get row j || (decide (i = j) && decide (i/64 < row.length))) := by
  simp only [get,set,getElem?_modify]
  by_cases hw : i/64 = j/64
  · rw [← hw]
    by_cases hlt : i/64 < row.length
    · rw [List.getElem?_eq_getElem hlt]
      have hiff := split_eq i j hw
      by_cases hij : i = j
      · subst hij
        simp [shifted_bit _ _ (Nat.mod_lt i (by decide)),hlt]
      have hne : ¬j%64 = i%64 := fun h => hij (hiff.mp h.symm)
      simp [shifted_bit _ _ (Nat.mod_lt i (by decide)),hij,hne]
    · simp [hlt]
  have hij : i ≠ j := fun h => hw (by rw [h])
  simp [hw,hij]

theorem length_foldl_set (l : List Nat) : (l.foldl set row).length = row.length := by
  induction l generalizing row with
  | nil => rfl
  | cons i l ih => rw [foldl_cons,ih,length_set]

theorem get_foldl_set (l : List Nat) :
    get (l.foldl set row) j = (get row j || (decide (j ∈ l) && decide (j/64 < row.length))) := by
  induction l generalizing row with
  | nil => simp
  | cons i l ih => ?_
  rw [foldl_cons,ih,get_set,length_set]
  by_cases hij : i = j
  · subst hij
    by_cases hlt : i/64 < row.length <;> simp [hlt]
  · simp [hij,Ne.symm hij]

theorem get_clear : get (clear row i) j = (get row j && !decide (i = j)) := by
  simp only [get,clear,getElem?_modify]
  by_cases hw : i/64 = j/64
  · rw [← hw]
    simp only [if_true]
    have hiff := split_eq i j hw
    cases hrow : row[i/64]? with
    | none => simp
    | some w => ?_
    by_cases hij : i = j
    · subst hij
      simp [shifted_bit _ _ (Nat.mod_lt i (by decide))]
    have hne : ¬j%64 = i%64 := fun h => hij (hiff.mp h.symm)
    have hlt := Nat.mod_lt j (show 0 < 64 by decide)
    simp only [Option.map_eq_map,map_some,any_some,getLsbD_and,
      getLsbD_not,shifted_bit _ _ (Nat.mod_lt i (by decide))]
    simp [hij,hne,hlt]
  have hij : i ≠ j := fun h => hw (by rw [h])
  simp [hw,hij]

theorem mem_bits : i ∈ bits row ↔ get row i = true := by
  rw [bits,mem_filter,mem_range]
  refine ⟨fun h => h.2,fun h => ⟨?_,h⟩⟩
  rw [get] at h
  cases hw : row[i/64]? with
  | none => simp [hw] at h
  | some w =>
    have := (List.getElem?_eq_some_iff.mp hw).1
    omega

end

section
variable {a b : Row}

section
variable (h : a.length = b.length)
include h

@[simp] theorem length_union : (union a b).length = a.length := by
  simp [union,h]

theorem get_union (i : Nat) : get (union a b) i = (get a i || get b i) := by
  simp only [get,union,getElem?_zipWith]
  by_cases hlt : i/64 < a.length
  · rw [List.getElem?_eq_getElem hlt,List.getElem?_eq_getElem (h ▸ hlt)]
    simp
  rw [List.getElem?_eq_none (by omega),List.getElem?_eq_none (by omega)]
  simp

@[simp] theorem length_diff : (diff a b).length = a.length := by
  simp [diff,h]

theorem get_diff (i : Nat) : get (diff a b) i = (get a i && !get b i) := by
  simp only [get,diff,getElem?_zipWith]
  by_cases hlt : i/64 < a.length
  · rw [List.getElem?_eq_getElem hlt,List.getElem?_eq_getElem (h ▸ hlt)]
    have := Nat.mod_lt i (show 0 < 64 by decide)
    simp [this]
  rw [List.getElem?_eq_none (by omega),List.getElem?_eq_none (by omega)]
  simp

end
end

def ones (w : BitVec 64) : Nat := w.cpop.toNat

/-- The members below `i`. -/
def rank (row : Row) (i : Nat) : Nat := (List.range i).countP (get row)

theorem cpopNatRec_eq_countP (w : BitVec 64) (k : Nat) :
    w.cpopNatRec k 0 = (List.range k).countP w.getLsbD := by
  induction k with
  | zero => rfl
  | succ k ih =>
    rw [BitVec.cpopNatRec_succ,BitVec.cpopNatRec_add,ih,List.range_succ,List.countP_append]
    cases h : w.getLsbD k <;> simp [h]

theorem ones_eq_countP (w : BitVec 64) : ones w = (List.range 64).countP w.getLsbD := by
  rw [ones,BitVec.toNat_cpop,cpopNatRec_eq_countP]

theorem below_bit {k : Nat} (hk : k < 64) (j : Nat) :
    ((1#64 <<< k)-1#64).getLsbD j = decide (j < k) := by
  have hpow : 2^k < 2^64 := Nat.pow_lt_pow_right (by decide) hk
  have hpos := Nat.two_pow_pos k
  have hone : (1#64 <<< k).toNat = 2^k := by
    rw [BitVec.toNat_shiftLeft,Nat.shiftLeft_eq,show (1#64).toNat = 1 from rfl,Nat.one_mul,Nat.mod_eq_of_lt hpow]
  have hmask : ((1#64 <<< k)-1#64).toNat = 2^k-1 := by
    rw [BitVec.toNat_sub,hone]
    have : (1#64).toNat = 1 := rfl
    omega
  rw [BitVec.getLsbD,hmask,Nat.testBit_two_pow_sub_one]

theorem ones_below (w : BitVec 64) {k : Nat} (hk : k < 64) :
    ones (w &&& ((1#64 <<< k)-1#64)) = (List.range k).countP w.getLsbD := by
  have hsplit : List.range 64 = List.range k ++ (List.range (64-k)).map (k+·) := by
    rw [← List.range_add]
    congr 1
    omega
  rw [ones_eq_countP,hsplit,List.countP_append]
  have hlow : (List.range k).countP (w &&& ((1#64 <<< k)-1#64)).getLsbD
      = (List.range k).countP w.getLsbD := by
    refine List.countP_congr fun j hj => ?_
    simp [below_bit hk,List.mem_range.mp hj]
  have hhigh : ((List.range (64-k)).map (k+·)).countP (w &&& ((1#64 <<< k)-1#64)).getLsbD = 0 := by
    rw [List.countP_eq_zero]
    intro j hj
    obtain ⟨m,-,rfl⟩ := List.mem_map.mp hj
    simp [below_bit hk]
  omega

theorem get_cons_low (w : BitVec 64) (row : Row) {j : Nat} (hj : j < 64) :
    get (w :: row) j = w.getLsbD j := by
  simp [get,Nat.div_eq_of_lt hj,Nat.mod_eq_of_lt hj]

theorem get_cons_high (w : BitVec 64) (row : Row) (j : Nat) : get (w :: row) (64+j) = get row j := by
  have h1 : (64+j)/64 = j/64+1 := by omega
  have h2 : (64+j)%64 = j%64 := by omega
  simp [get,h1,h2]

theorem rank_cons (w : BitVec 64) (row : Row) (i : Nat) :
    rank (w :: row) (64+i) = ones w+rank row i := by
  have hlow : (List.range 64).countP (get (w :: row)) = ones w := by
    rw [ones_eq_countP]
    refine List.countP_congr fun j hj => ?_
    rw [get_cons_low w row (List.mem_range.mp hj)]
  have hhigh : ((List.range i).map (64+·)).countP (get (w :: row)) = rank row i := by
    rw [List.countP_map,rank]
    refine List.countP_congr fun j _ => ?_
    simp [Function.comp_apply,get_cons_high]
  rw [rank,List.range_add,List.countP_append,hlow,hhigh]

theorem rank_split {row : Row} {b : Nat} {w : BitVec 64} (hw : row[b]? = some w) {k : Nat}
    (hk : k < 64) : rank row (64*b+k) = rank row (64*b)+ones (w &&& ((1#64 <<< k)-1#64)) := by
  rw [rank,List.range_add,List.countP_append,ones_below w hk,List.countP_map]
  congr 1
  refine List.countP_congr fun j hj => ?_
  have hj := List.mem_range.mp hj
  have h1 : (64*b+j)/64 = b := by omega
  have h2 : (64*b+j)%64 = j := by omega
  simp [get,h1,h2,hw]

theorem rank_le (row : Row) (i : Nat) : rank row i ≤ i := by
  simpa [rank] using List.countP_le_length (p := get row) (l := List.range i)

theorem rank_getElem {row : Row} {l : List Nat} (hs : l.Pairwise (· < ·))
    (hrow : ∀ j, get row j = true ↔ j ∈ l) {i p : Nat} (hi : l[i]? = some p) : rank row p = i := by
  obtain ⟨hlt,hp⟩ := List.getElem?_eq_some_iff.mp hi
  have hperm : ((List.range p).filter (get row)).Perm (l.filter (· < p)) := by
    refine (List.perm_ext_iff_of_nodup (List.nodup_range.filter _)
      ((hs.imp fun h => Nat.ne_of_lt h).filter _)).mpr fun j => ?_
    simp [hrow,and_comm]
  have htake : (l.take i).filter (· < p) = l.take i := by
    refine List.filter_eq_self.mpr fun x hx => ?_
    obtain ⟨m,hm,rfl⟩ := List.getElem_of_mem hx
    have hm' : m < i := (by simpa using hm : m < i ∧ m < l.length).1
    have := List.pairwise_iff_getElem.mp hs m i (by omega) hlt hm'
    simpa [← hp] using this
  have hdrop : (l.drop i).filter (· < p) = [] := by
    refine List.filter_eq_nil_iff.mpr fun x hx => ?_
    obtain ⟨m,hm,rfl⟩ := List.getElem_of_mem hx
    rw [List.getElem_drop]
    rcases Nat.eq_zero_or_pos m with rfl | hm'
    · simp [hp]
    have hml : i+m < l.length := by
      simp only [List.length_drop] at hm
      omega
    have := List.pairwise_iff_getElem.mp hs i (i+m) hlt hml (by omega)
    simp only [decide_eq_true_eq]
    omega
  rw [rank,List.countP_eq_length_filter,hperm.length_eq]
  conv_lhs => rw [← List.take_append_drop i l]
  rw [List.filter_append,htake,hdrop]
  simp
  omega

/-- A word of the row, zero past its end. -/
def word (row : Row) (w : Nat) : BitVec 64 := (row[w]?).getD 0

theorem get_eq_word (row : Row) (i : Nat) : get row i = (word row (i/64)).getLsbD (i%64) := by
  rw [get,word]
  cases row[i/64]? <;> simp

theorem get_of_word (row : Row) {w b : Nat} (hb : b < 64) :
    get row (w*64+b) = (word row w).getLsbD b := by
  rw [get_eq_word,show (w*64+b)/64 = w by omega,show (w*64+b)%64 = b by omega]

theorem lt_of_get {row : Row} {i : Nat} (h : get row i = true) : i/64 < row.length := by
  by_contra hge
  rw [get,List.getElem?_eq_none (by omega)] at h
  simp at h

theorem word_eq_zero {row : Row} {w : Nat} :
    word row w = 0#64 ↔ ∀ i, i/64 = w → get row i = false := by
  constructor
  · intro h i hi
    rw [get_eq_word,hi,h]
    simp
  intro h
  refine BitVec.eq_of_getLsbD_eq fun b hb => ?_
  rw [← get_of_word row hb,h _ (by omega)]
  simp

section
theorem and_bit_eq_zero (v : BitVec 64) {k : Nat} (hk : k < 64) :
    v &&& (1#64 <<< k) = 0#64 ↔ v.getLsbD k = false := by
  constructor
  · intro h
    have hbit := congrArg (·.getLsbD k) h
    simpa [shifted_bit k k hk] using hbit
  intro h
  refine BitVec.eq_of_getLsbD_eq fun j _ => ?_
  rw [BitVec.getLsbD_and,shifted_bit k j hk]
  by_cases hj : j = k
  · simp [hj,h]
  · simp [hj]

theorem getLsbD_from (b j : Nat) :
    (BitVec.allOnes 64 <<< b).getLsbD j = (decide (b ≤ j) && decide (j < 64)) := by
  rw [BitVec.getLsbD_shiftLeft,BitVec.getLsbD_allOnes]
  by_cases hj : j < 64
  · by_cases hb : b ≤ j
    · simp [hj,hb,show j-b < 64 by omega,show ¬ j < b by omega]
    · simp [hj,hb,show j < b by omega]
  · simp [hj]

theorem getLsbD_upto {b : Nat} (hb : b < 64) (j : Nat) :
    (BitVec.allOnes 64 >>> (63-b)).getLsbD j = decide (j ≤ b) := by
  rw [BitVec.getLsbD_ushiftRight,BitVec.getLsbD_allOnes]
  by_cases hj : j ≤ b
  · simp [hj,show 63-b+j < 64 by omega]
  · simp [hj,show ¬ 63-b+j < 64 by omega]

end

section
variable {w : BitVec 64}

/-- The lowest set bit of a nonzero word. -/
def lowest (w : BitVec 64) : Nat := w.ctz.toNat

/-- The highest set bit of a nonzero word. -/
def highest (w : BitVec 64) : Nat := 63-w.clz.toNat

theorem lowest_bit (h : w ≠ 0#64) : w.getLsbD (lowest w) = true := BitVec.getLsbD_true_ctz_of_ne_zero h

theorem lowest_le {b : Nat} (hb : w.getLsbD b = true) : lowest w ≤ b := by
  by_contra hlt
  rw [BitVec.getLsbD_false_of_lt_ctz (not_le.mp hlt)] at hb
  cases hb

theorem lowest_lt (h : w ≠ 0#64) : lowest w < 64 := by
  by_contra hge
  have hbit := lowest_bit h
  rw [BitVec.getLsbD_of_ge w _ (not_lt.mp hge)] at hbit
  cases hbit

theorem highest_bit (h : w ≠ 0#64) : w.getLsbD (highest w) = true :=
  BitVec.getLsbD_true_clz_of_ne_zero (by decide) h

theorem highest_lt : highest w < 64 := by
  rw [highest]
  omega

theorem le_highest {b : Nat} (hb : w.getLsbD b = true) : b ≤ highest w := by
  have hpow := Nat.ge_two_pow_of_testBit hb
  have hlt := BitVec.toNat_lt_two_pow_sub_clz (x := w)
  have hexp : b < 64-w.clz.toNat := (Nat.pow_lt_pow_iff_right (by decide)).mp (lt_of_le_of_lt hpow hlt)
  rw [highest]
  omega

theorem getLsbD_drop_lowest (h : w ≠ 0#64) (j : Nat) :
    (w &&& (w-1#64)).getLsbD j = (w.getLsbD j && decide (j ≠ lowest w)) := by
  set k := lowest w with hk
  have hmod : w.toNat%2^(k+1) = 2^k := by
    refine Nat.eq_of_testBit_eq fun i => ?_
    rw [Nat.testBit_mod_two_pow,Nat.testBit_two_pow]
    by_cases hi : i = k
    · subst hi
      have : w.toNat.testBit k = true := lowest_bit h
      simp [this]
    by_cases hlt : i < k
    · have : w.toNat.testBit i = false := BitVec.getLsbD_false_of_lt_ctz hlt
      simp [this,Ne.symm hi]
    · simp [show ¬ i < k+1 by omega,Ne.symm hi]
  have hsplit : w.toNat = 2^(k+1)*(w.toNat/2^(k+1))+2^k := by
    have := Nat.div_add_mod w.toNat (2^(k+1))
    omega
  have hsub : (w-1#64).toNat = 2^(k+1)*(w.toNat/2^(k+1))+(2^k-1) := by
    rw [BitVec.toNat_sub,show (1#64).toNat = 1 from rfl]
    omega
  have hw : w.getLsbD j = w.toNat.testBit j := rfl
  have hw1 : (w-1#64).getLsbD j = (w-1#64).toNat.testBit j := rfl
  rw [BitVec.getLsbD_and,hw,hw1,hsub,Nat.testBit_two_pow_mul_add _ (by omega),
    Nat.testBit_two_pow_sub_one]
  have hhigh : k+1 ≤ j → w.toNat.testBit j = (w.toNat/2^(k+1)).testBit (j-(k+1)) := by
    intro hj
    rw [Nat.testBit_div_two_pow,show j-(k+1)+(k+1) = j by omega]
  by_cases hj : j < k+1
  · by_cases hjk : j = k
    · subst hjk
      simp
    have hlt : j < k := by omega
    have : w.toNat.testBit j = false := BitVec.getLsbD_false_of_lt_ctz hlt
    simp [this]
  rw [if_neg hj,← hhigh (by omega)]
  simp [show j ≠ k by omega]

/-- The set bits of a word, in increasing order. -/
def onesOf (w : BitVec 64) : List Nat := (List.range 64).filter w.getLsbD

/-- The loop that takes the lowest set bit until the word is zero. -/
def drain : (turns : Nat) → BitVec 64 → List Nat
  | 0,_ => []
  | turns+1,w => if w = 0#64 then [] else lowest w :: drain turns (w &&& (w-1#64))

theorem mem_onesOf {b : Nat} : b ∈ onesOf w ↔ w.getLsbD b = true := by
  rw [onesOf,List.mem_filter,List.mem_range]
  refine ⟨fun h => h.2,fun h => ⟨?_,h⟩⟩
  by_contra hge
  rw [BitVec.getLsbD_of_ge w b (not_lt.mp hge)] at h
  cases h

theorem onesOf_ascending (w : BitVec 64) : (onesOf w).Pairwise (· < ·) :=
  List.pairwise_lt_range.filter _

theorem onesOf_zero : onesOf 0#64 = [] := by simp [onesOf]

theorem onesOf_cons (h : w ≠ 0#64) : onesOf w = lowest w :: onesOf (w &&& (w-1#64)) := by
  refine List.Pairwise.eq_of_mem_iff (onesOf_ascending w) ?_ fun b => ?_
  · refine List.pairwise_cons.mpr ⟨fun b hb => ?_,onesOf_ascending _⟩
    rw [mem_onesOf,getLsbD_drop_lowest h,Bool.and_eq_true,decide_eq_true_eq] at hb
    have := lowest_le hb.1
    omega
  rw [List.mem_cons,mem_onesOf,mem_onesOf,getLsbD_drop_lowest h,Bool.and_eq_true,decide_eq_true_eq]
  constructor
  · intro hb
    by_cases hlow : b = lowest w
    · exact .inl hlow
    · exact .inr ⟨hb,hlow⟩
  rintro (rfl|hb)
  · exact lowest_bit h
  · exact hb.1

theorem drain_eq {turns : Nat} (h : (onesOf w).length ≤ turns) : drain turns w = onesOf w := by
  induction turns generalizing w with
  | zero =>
    have hnil : onesOf w = [] := List.eq_nil_of_length_eq_zero (by omega)
    rw [drain,hnil]
  | succ turns ih => ?_
  rw [drain]
  split
  · next hz => rw [hz,onesOf_zero]
  next hz =>
  rw [onesOf_cons hz] at h ⊢
  rw [ih (by simpa using h)]

theorem drain_all (w : BitVec 64) : drain 64 w = onesOf w :=
  drain_eq ((List.length_filter_le _ _).trans (by simp))

end

section
def overWords (f : Nat → BitVec 64 → BitVec 64) (first last : Nat) (row : Row) : Row :=
  (List.range' first (last-first)).foldl (fun r w => r.modify w (f w)) row

variable (f : Nat → BitVec 64 → BitVec 64) (row : Row)

theorem length_foldl_modify (ws : List Nat) :
    (ws.foldl (fun r w => r.modify w (f w)) row).length = row.length := by
  induction ws generalizing row with
  | nil => rfl
  | cons w ws ih => rw [List.foldl_cons,ih,List.length_modify]

@[simp] theorem length_overWords (first last : Nat) :
    (overWords f first last row).length = row.length := length_foldl_modify f row _

theorem getElem?_foldl_modify {ws : List Nat} (hnd : ws.Nodup) (v : Nat) :
    (ws.foldl (fun r w => r.modify w (f w)) row)[v]? =
      if v ∈ ws then (row[v]?).map (f v) else row[v]? := by
  induction ws generalizing row with
  | nil => simp
  | cons w ws ih => ?_
  obtain ⟨hw,hnd⟩ := List.nodup_cons.mp hnd
  rw [List.foldl_cons,ih _ hnd,List.getElem?_modify]
  by_cases hv : v = w
  · subst hv
    simp [hw]
  · simp [hv,Ne.symm hv]

theorem getElem?_overWords (first last v : Nat) :
    (overWords f first last row)[v]? =
      if first ≤ v ∧ v < last then (row[v]?).map (f v) else row[v]? := by
  rw [overWords,getElem?_foldl_modify f row List.nodup_range']
  have hiff : v ∈ List.range' first (last-first) ↔ first ≤ v ∧ v < last := by
    rw [List.mem_range'_1]
    omega
  simp only [hiff]

theorem get_overWords (first last i : Nat) :
    get (overWords f first last row) i =
      if first ≤ i/64 ∧ i/64 < last ∧ i/64 < row.length then (f (i/64) (word row (i/64))).getLsbD (i%64)
      else get row i := by
  rw [get,getElem?_overWords]
  by_cases hlen : i/64 < row.length
  · have hword : word row (i/64) = row[i/64] := by simp [word,hlen]
    by_cases hin : first ≤ i/64 ∧ i/64 < last
    · rw [if_pos hin,if_pos ⟨hin.1,hin.2,hlen⟩,hword,List.getElem?_eq_getElem hlen]
      simp
    rw [if_neg hin,if_neg (fun h => hin ⟨h.1,h.2.1⟩)]
    rfl
  rw [if_neg (show ¬ (first ≤ i/64 ∧ i/64 < last ∧ i/64 < row.length) from fun h => hlen h.2.2),get,
    List.getElem?_eq_none (by omega)]
  simp

end
end CratonVM.BitRows
