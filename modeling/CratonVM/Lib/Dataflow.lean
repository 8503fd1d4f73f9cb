import CratonVM.Lib.BitRows
import CratonVM.Lib.MachineArithmetic

/-!
Tables in a buffer of bytes: numbers of a fixed width, rows of a fixed width one behind the other,
and the bits of a row.
-/
namespace CratonVM.PackedRows
open List Option

abbrev Byte := BitVec 8

/-- A number in `w` bytes, least significant first. -/
def bytesOf : (w n : Nat) → List Byte
  | 0, _ => []
  | w+1, n => BitVec.ofNat 8 n :: bytesOf w (n/2^8)

@[simp] theorem length_bytesOf (w n : Nat) : (bytesOf w n).length = w := by
  induction w generalizing n with
  | zero => rfl
  | succ w ih => simp [bytesOf,ih]

theorem value_bytesOf {w n : Nat} (h : n < 2^(8*w)) : Limbs.value (bytesOf w n) = n := by
  induction w generalizing n with
  | zero =>
    simp only [bytesOf,Limbs.value_nil]
    omega
  | succ w ih =>
    rw [Nat.mul_succ,Nat.pow_add] at h
    have hhigh : n/2^8 < 2^(8*w) := Nat.div_lt_of_lt_mul (by rwa [Nat.mul_comm])
    rw [bytesOf,Limbs.value_cons,ih hhigh,BitVec.toNat_ofNat]
    exact Nat.mod_add_div n (2^8)

/-- The bytes of one row. -/
def slice (data : List Byte) (start w : Nat) : List Byte := (data.drop start).take w

section
variable {α : Type} {f : α → List Byte} {w : Nat}

theorem length_flatMap {l : List α} (hf : ∀ x ∈ l, (f x).length = w) :
    (l.flatMap f).length = l.length*w := by
  induction l with
  | nil => simp
  | cons x l ih =>
    rw [flatMap_cons,length_append,hf x mem_cons_self,
      ih fun y hy => hf y (mem_cons_of_mem x hy),length_cons,Nat.succ_mul,Nat.add_comm]

theorem slice_flatMap {l : List α} (hf : ∀ x ∈ l, (f x).length = w) (before after : List Byte)
    {at_ i : Nat} {x : α} (hat : before.length = at_) (hx : l[i]? = some x) :
    slice (before ++ l.flatMap f ++ after) (at_+i*w) w = f x := by
  subst hat
  induction l generalizing before i with
  | nil => simp at hx
  | cons y l ih => ?_
  have hy := hf y mem_cons_self
  rw [flatMap_cons]
  cases i with
  | zero =>
    obtain rfl := some.inj hx
    rw [slice,Nat.zero_mul,Nat.add_zero,append_assoc,drop_left,append_assoc,
      take_left' hy]
  | succ i => ?_
  have h := ih (fun z hz => hf z (mem_cons_of_mem y hz)) (before ++ f y) hx
  rw [length_append,hy] at h
  rw [Nat.succ_mul,← h,← append_assoc before]
  congr 1
  omega

end

def bit (row : List Byte) (i : Nat) : Bool := (row[i/8]?).any fun b => b.getLsbD (i%8)

def setBit (row : List Byte) (i : Nat) : List Byte := row.modify (i/8) (· ||| (1#8 <<< (i%8)))

@[simp] theorem length_setBit (row : List Byte) (i : Nat) : (setBit row i).length = row.length := by
  simp [setBit]

@[simp] theorem bit_zeros (n i : Nat) : bit (replicate n 0) i = false := by
  simp only [bit,getElem?_replicate]
  split <;> simp

theorem bit_setBit (row : List Byte) {i : Nat} (hi : i/8 < row.length) (j : Nat) :
    bit (setBit row i) j = (bit row j || decide (j = i)) := by
  simp only [bit,setBit,getElem?_modify]
  by_cases hw : i/8 = j/8
  · have hmod : j%8 = i%8 ↔ j = i := by omega
    have hshift := BitRows.getLsbD_one_shift (Nat.mod_lt i (show 0 < 8 by decide)) (j%8)
    rw [← hw,getElem?_eq_getElem hi]
    simp [hshift,hmod]
  have hij : j ≠ i := fun h => hw (by rw [h])
  simp [hw,hij]

theorem bit_wordBytes (acc : BitVec 64) {n i : Nat} (hi : i/8 < n) :
    bit ((range n).map fun k => (acc >>> (8*k)).setWidth 8) i = acc.getLsbD i := by
  have hmod : i%8 < 8 := Nat.mod_lt i (by decide)
  have hsum : 8*(i/8)+i%8 = i := by omega
  simp [bit,hi,hmod,hsum]

end CratonVM.PackedRows
namespace CratonVM.Dataflow
variable {κ σ : Type} (le : σ → σ → Prop)

def Arrived (table : κ → Option σ) (e : κ × σ) : Prop := ∃ s, table e.1 = some s ∧ le e.2 s

def Absorbs (s t : σ) : Prop := ∀ x, le x s → le x t

/-- A later table: every state of the earlier one is absorbed, and a node whose state is new or not
the earlier one is pending. -/
structure Grows (pending : κ → Prop) (table later : κ → Option σ) : Prop where
  absorbs : ∀ {k s}, table k = some s → ∃ t, later k = some t ∧ Absorbs le s t ∧ (t = s ∨ pending k)
  known : ∀ {k t}, later k = some t → (∃ s, table k = some s) ∨ pending k

variable {le} {pending pending' : κ → Prop} {table later last : κ → Option σ}

theorem Grows.refl (pending : κ → Prop) (table : κ → Option σ) : Grows le pending table table where
  absorbs := fun hs => ⟨_,hs,fun _ hx => hx,.inl rfl⟩
  known := fun ht => .inl ⟨_,ht⟩

theorem Grows.trans (h : Grows le pending table later) (h' : Grows le pending' later last)
    (hsub : ∀ k, pending k → pending' k) : Grows le pending' table last where
  absorbs := by
    intro k s hs
    obtain ⟨t,ht,hst,hp⟩ := h.absorbs hs
    obtain ⟨u,hu,htu,hp'⟩ := h'.absorbs ht
    refine ⟨u,hu,fun x hx => htu x (hst x hx),?_⟩
    rcases hp' with rfl | hp'
    · rcases hp with rfl | hp
      · exact .inl rfl
      · exact .inr (hsub k hp)
    · exact .inr hp'
  known := by
    intro k u hu
    rcases h'.known hu with ⟨t,ht⟩ | hp
    · rcases h.known ht with hs | hp
      · exact .inl hs
      · exact .inr (hsub k hp)
    · exact .inr hp

theorem Arrived.grows {e : κ × σ} (ha : Arrived le table e) (h : Grows le pending table later) :
    Arrived le later e := by
  obtain ⟨s,hs,hle⟩ := ha
  obtain ⟨t,ht,hst,_⟩ := h.absorbs hs
  exact ⟨t,ht,hst _ hle⟩

variable [DecidableEq κ]

/-- The table with another state at one node. -/
def update (table : κ → Option σ) (k : κ) (s : σ) : κ → Option σ :=
  fun j => if j = k then some s else table j

@[simp] theorem update_same (table : κ → Option σ) (k : κ) (s : σ) : update table k s k = some s :=
  if_pos rfl

theorem update_other (table : κ → Option σ) {j k : κ} (s : σ) (h : j ≠ k) :
    update table k s j = table j :=
  if_neg h

theorem Grows.insert {k : κ} {s : σ} (hnone : table k = none) (hp : pending k) :
    Grows le pending table (update table k s) where
  absorbs := by
    intro j t ht
    have hj : j ≠ k := by
      intro hj
      rw [hj,hnone] at ht
      cases ht
    exact ⟨t,by rw [update_other _ _ hj,ht],fun _ hx => hx,.inl rfl⟩
  known := by
    intro j t ht
    by_cases hj : j = k
    · subst hj
      exact .inr hp
    rw [update_other _ _ hj] at ht
    exact .inl ⟨t,ht⟩

theorem Grows.replace {k : κ} {s t : σ} (hs : table k = some s) (habs : Absorbs le s t)
    (hp : t = s ∨ pending k) : Grows le pending table (update table k t) where
  absorbs := by
    intro j u hu
    by_cases hj : j = k
    · subst hj
      rw [hs] at hu
      cases hu
      exact ⟨t,update_same _ _ _,habs,hp⟩
    · exact ⟨u,by rw [update_other _ _ hj,hu],fun _ hx => hx,.inl rfl⟩
  known := by
    intro j u hu
    by_cases hj : j = k
    · subst hj
      exact .inl ⟨s,hs⟩
    rw [update_other _ _ hj] at hu
    exact .inl ⟨u,hu⟩

end CratonVM.Dataflow
namespace CratonVM.GenKill
/-- Facts `κ` over nodes `β`: a node generates facts on its entry and at its exit, and kills facts
that come from behind it. -/
structure Problem (β κ : Type) where
  next : β → β → Prop
  gen : β → κ → Prop
  kill : β → κ → Prop
  edge : β → κ → Prop

inductive Side where
  | entry
  | leaving

variable {β κ : Type}

inductive Live (P : Problem β κ) (k : κ) : Side → β → Prop where
  | gen {b : β} (h : P.gen b k) : Live P k .entry b
  | through {b : β} (h : Live P k .leaving b) (hk : ¬P.kill b k) : Live P k .entry b
  | edge {b : β} (h : P.edge b k) : Live P k .leaving b
  | next {b s : β} (hs : P.next b s) (h : Live P k .entry s) : Live P k .leaving b

/-- A table of both sides. -/
abbrev Table (β κ : Type) := Side → β → κ → Prop

/-- A table has everything that follows at one node from what it has. -/
structure ClosedAt (P : Problem β κ) (T : Table β κ) (b : β) : Prop where
  edge : ∀ k, P.edge b k → T .leaving b k
  next : ∀ k s, P.next b s → T .entry s k → T .leaving b k
  gen : ∀ k, P.gen b k → T .entry b k
  through : ∀ k, T .leaving b k → ¬P.kill b k → T .entry b k

variable {P : Problem β κ} {T : Table β κ}

theorem Live.least {inside : β → Prop} (hnext : ∀ b s, P.next b s → inside s)
    (h : ∀ b, inside b → ClosedAt P T b) {k : κ} {side : Side} {b : β} (hl : Live P k side b)
    (hb : inside b) : T side b k := by
  induction hl with
  | gen hg => exact (h _ hb).gen k hg
  | through _ hk ih => exact (h _ hb).through k (ih hb) hk
  | edge he => exact (h _ hb).edge k he
  | next hs _ ih => exact (h _ hb).next k _ hs (ih (hnext _ _ hs))

end CratonVM.GenKill
namespace CratonVM.LabelWalk
open Dataflow
variable {κ β : Type}

structure Walk (κ β : Type) where
  label : κ → Option β
  work : List κ

/-- A later walk has the labels of the earlier one, and its new ones are on the list. -/
structure Extends (w w' : Walk κ β) : Prop where
  label : ∀ n b, w.label n = some b → w'.label n = some b
  work : ∀ n ∈ w.work, n ∈ w'.work
  known : ∀ n b, w'.label n = some b → w.label n = some b ∨ n ∈ w'.work

/-- The edges of the node are known and their ends have the labels that were sent. -/
def Closed (edges : κ → β → Option (List (κ × β))) (label : κ → Option β) (n : κ) : Prop :=
  ∀ b, label n = some b → ∃ es, edges n b = some es ∧ ∀ e ∈ es, label e.1 = some e.2

variable {edges : κ → β → Option (List (κ × β))} {w w' : Walk κ β}

theorem Extends.refl (w : Walk κ β) : Extends w w := ⟨fun _ _ h => h,fun _ h => h,fun _ _ h => .inl h⟩

theorem Extends.trans {w'' : Walk κ β} (h : Extends w w') (h' : Extends w' w'') : Extends w w'' where
  label := fun n b hb => h'.label n b (h.label n b hb)
  work := fun n hn => h'.work n (h.work n hn)
  known := by
    intro n b hb
    rcases h'.known n b hb with hb | hn
    · exact (h.known n b hb).imp_right (h'.work n)
    · exact .inr hn

theorem Closed.extends {n : κ} (h : Closed edges w.label n) (hext : Extends w w') :
    Closed edges w'.label n ∨ n ∈ w'.work := by
  by_cases hin : n ∈ w'.work
  · exact .inr hin
  refine .inl fun b hb => ?_
  obtain ⟨es,hes,hall⟩ := h b ((hext.known n b hb).resolve_right hin)
  exact ⟨es,hes,fun e he => hext.label _ _ (hall e he)⟩

def Covered (edges : κ → β → Option (List (κ × β))) (w : Walk κ β) : Prop :=
  ∀ n, Closed edges w.label n ∨ n ∈ w.work

theorem Covered.closed (h : Covered edges w) (hempty : w.work = []) (n : κ) : Closed edges w.label n := by
  refine (h n).resolve_right fun hn => ?_
  rw [hempty] at hn
  cases hn

variable [DecidableEq κ] [DecidableEq β]

/-- A label that arrives at a node. -/
def record (w : Walk κ β) (e : κ × β) : Option (Walk κ β) :=
  match w.label e.1 with
  | none => some ⟨update w.label e.1 e.2,e.1::w.work⟩
  | some seen => if seen = e.2 then some w else none

/-- The loop `while let Some(n) = work.pop()`; no edges of a node end it too. -/
def walk (edges : κ → β → Option (List (κ × β))) : (fuel : Nat) → Walk κ β → Option (κ → Option β)
  | 0, w => if w.work.isEmpty then some w.label else none
  | fuel+1, w =>
    match w.work with
    | [] => some w.label
    | n::work =>
      match w.label n with
      | none => walk edges fuel { w with work := work }
      | some b =>
        match (edges n b).bind fun es => es.foldlM record { w with work := work } with
        | none => none
        | some w => walk edges fuel w

theorem record_extends {e : κ × β} (h : record w e = some w') : Extends w w' ∧ w'.label e.1 = some e.2 := by
  unfold record at h
  cases hlabel : w.label e.1 with
  | none => ?_
  | some seen =>
    rw [hlabel] at h
    dsimp only at h
    split at h
    · rename_i heq
      obtain rfl := Option.some.inj h
      exact ⟨.refl w,by rw [hlabel,heq]⟩
    · cases h
  rw [hlabel] at h
  obtain rfl := Option.some.inj h
  refine ⟨⟨fun n b hb => ?_,fun n hn => List.mem_cons_of_mem _ hn,fun n b hb => ?_⟩,update_same _ _ _⟩
  · have hne : n ≠ e.1 := by
      rintro rfl
      rw [hlabel] at hb
      cases hb
    rw [← hb]
    exact update_other _ _ hne
  by_cases hne : n = e.1
  · exact .inr (by rw [hne]; exact List.mem_cons_self)
  · exact .inl ((update_other w.label e.2 hne).symm.trans hb)

theorem foldlM_record_extends {es : List (κ × β)} (h : es.foldlM record w = some w') :
    Extends w w' ∧ ∀ e ∈ es, w'.label e.1 = some e.2 := by
  induction es generalizing w with
  | nil =>
    obtain rfl := Option.some.inj h
    refine ⟨.refl w,fun e he => ?_⟩
    cases he
  | cons e es ih => ?_
  obtain ⟨w1,hfirst,h⟩ := Option.bind_eq_some_iff.mp h
  obtain ⟨hext,hlabel⟩ := record_extends hfirst
  obtain ⟨hrest,hall⟩ := ih h
  refine ⟨hext.trans hrest,fun e' he' => ?_⟩
  rcases List.mem_cons.mp he' with rfl | he'
  · exact hrest.label _ _ hlabel
  · exact hall e' he'

theorem walk_closed {fuel : Nat} {label : κ → Option β} (h : walk edges fuel w = some label)
    (hcov : Covered edges w) :
    (∀ n, Closed edges label n) ∧ ∀ n b, w.label n = some b → label n = some b := by
  induction fuel generalizing w with
  | zero =>
    rw [walk] at h
    split at h
    · rename_i hempty
      obtain rfl := Option.some.inj h
      exact ⟨hcov.closed (List.isEmpty_iff.mp hempty),fun _ _ hb => hb⟩
    · cases h
  | succ fuel ih => ?_
  rw [walk] at h
  cases hwork : w.work with
  | nil =>
    rw [hwork] at h
    obtain rfl := Option.some.inj h
    exact ⟨hcov.closed hwork,fun _ _ hb => hb⟩
  | cons n work => ?_
  rw [hwork] at h
  have hrest : ∀ m, m ≠ n → Closed edges w.label m ∨ m ∈ work := by
    intro m hm
    rcases hcov m with hc | hin
    · exact .inl hc
    rw [hwork] at hin
    exact .inr ((List.mem_cons.mp hin).resolve_left hm)
  cases hlabel : w.label n with
  | none =>
    simp only [hlabel] at h
    have hcov' : Covered edges { w with work := work } := by
      intro m
      by_cases hm : m = n
      · refine .inl fun b hb => ?_
        rw [hm,hlabel] at hb
        cases hb
      · exact hrest m hm
    obtain ⟨hclosed,hkeep⟩ := ih h hcov'
    exact ⟨hclosed,hkeep⟩
  | some b => ?_
  simp only [hlabel] at h
  cases hturn : (edges n b).bind fun es => es.foldlM record { w with work := work } with
  | none => simp [hturn] at h
  | some w1 => ?_
  rw [hturn] at h
  obtain ⟨es,hes,hfold⟩ := Option.bind_eq_some_iff.mp hturn
  obtain ⟨hext,hall⟩ := foldlM_record_extends hfold
  have hcov' : Covered edges w1 := by
    intro m
    by_cases hm : m = n
    · refine .inl fun b' hb' => ?_
      rw [hm,hext.label n b hlabel] at hb'
      obtain rfl := Option.some.inj hb'
      exact ⟨es,by rw [hm]; exact hes,hall⟩
    rcases hrest m hm with hc | hin
    · have hc : Closed edges (Walk.mk w.label work).label m := hc
      exact hc.extends hext
    · exact .inr (hext.work m hin)
  obtain ⟨hclosed,hkeep⟩ := ih h hcov'
  exact ⟨hclosed,fun m b' hb' => hkeep m b' (hext.label m b' hb')⟩

/-- The nodes on the list and those without a label. -/
def left (nodes : Finset κ) (w : Walk κ β) : Nat :=
  w.work.length+(nodes.filter fun n => w.label n = none).card

variable {nodes : Finset κ}

theorem record_left {e : κ × β} (he : e.1 ∈ nodes) (h : record w e = some w') :
    left nodes w' = left nodes w := by
  unfold record at h
  cases hlabel : w.label e.1 with
  | none => ?_
  | some seen =>
    rw [hlabel] at h
    dsimp only at h
    split at h
    · obtain rfl := Option.some.inj h
      rfl
    · cases h
  rw [hlabel] at h
  obtain rfl := Option.some.inj h
  have herase : (nodes.filter fun n => update w.label e.1 e.2 n = none) =
      (nodes.filter fun n => w.label n = none).erase e.1 := by
    ext n
    by_cases hn : n = e.1
    · simp [hn]
    · simp [hn,update_other]
  have hmem : e.1 ∈ nodes.filter fun n => w.label n = none := Finset.mem_filter.mpr ⟨he,hlabel⟩
  have hcard := Finset.card_erase_add_one hmem
  simp only [left,herase,List.length_cons]
  omega

theorem foldlM_record_left {es : List (κ × β)} (hes : ∀ e ∈ es, e.1 ∈ nodes)
    (h : es.foldlM record w = some w') : left nodes w' = left nodes w := by
  induction es generalizing w with
  | nil =>
    obtain rfl := Option.some.inj h
    rfl
  | cons e es ih =>
    obtain ⟨w1,hfirst,h⟩ := Option.bind_eq_some_iff.mp h
    rw [ih (fun e' he' => hes e' (List.mem_cons_of_mem _ he')) h,
      record_left (hes e List.mem_cons_self) hfirst]

theorem walk_turns (hnodes : ∀ n b es, edges n b = some es → ∀ e ∈ es, e.1 ∈ nodes) {fuel fuel' : Nat}
    (h : left nodes w ≤ fuel) (h' : left nodes w ≤ fuel') : walk edges fuel w = walk edges fuel' w := by
  induction fuel generalizing fuel' w with
  | zero =>
    have hempty : w.work = [] := List.length_eq_zero_iff.mp (by unfold left at h; omega)
    cases fuel' with
    | zero => rfl
    | succ fuel' => simp [walk,hempty]
  | succ fuel ih => ?_
  cases fuel' with
  | zero =>
    have hempty : w.work = [] := List.length_eq_zero_iff.mp (by unfold left at h'; omega)
    simp [walk,hempty]
  | succ fuel' => ?_
  rw [walk,walk]
  cases hwork : w.work with
  | nil => rfl
  | cons n work => ?_
  dsimp only
  have hless : left nodes { w with work := work }+1 = left nodes w := by
    simp only [left,hwork,List.length_cons]
    omega
  cases hlabel : w.label n with
  | none => exact ih (by omega) (by omega)
  | some b => ?_
  dsimp only
  cases hturn : (edges n b).bind fun es => es.foldlM record { w with work := work } with
  | none => rfl
  | some w1 =>
    obtain ⟨es,hes,hfold⟩ := Option.bind_eq_some_iff.mp hturn
    have hleft := foldlM_record_left (hnodes n b es hes) hfold
    exact ih (by omega) (by omega)

end CratonVM.LabelWalk
