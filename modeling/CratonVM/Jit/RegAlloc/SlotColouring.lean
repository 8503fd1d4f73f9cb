import CratonVM.Lib.IntervalColouring
import CratonVM.Jit.Ir.Graph

/-!
Colouring of frame words: the last step of `plan_slots_from_core` (`jit/src/ir_lower.rs`) and `ls_color_homes`
(`jit/src/regalloc.rs`). A free list is kept with the word to be taken next in front, and the heap of the
words in use is a list in ascending order.
-/
namespace CratonVM.Jit.RegAlloc
open List Option Function Finset
open Bool hiding and_assoc and_true true_and

/-- Positions from `lo` to `hi`, both included. -/
structure PosRange where
  lo : Nat
  hi : Nat
  le : lo ≤ hi

/-- May the value donate a colour but never receive a recycled one? -/
def colourIsFreshOnly (node : Node) : Bool :=
  node.ty = .ref && match node.op with
    | .call _ | .indyBridge _ | .multiNewArray _ | .newCp _ _ | .constString _ _ _ | .constClass _ _ _
    | .loadStatic _ _ _ _ => true
    | _ => false

namespace SlotColouring
/-- The values a colouring is about, by id: those that want a word, and what is known of each. -/
structure Values where
  count : Nat
  wants : Nat → Bool
  pinned : Nat → Bool
  range : Nat → Option PosRange
  isRef : Nat → Bool
  freshOnly : Nat → Bool

structure State where
  color : Nat → Option Nat
  nextColor : Nat
  /-- The end of the range, the colour and the pool of each value that is not over. -/
  active : List (Nat × Nat × Bool)
  freeRef : List Nat
  freePrim : List Nat

/-- `saturating_add(1)` of a 32-bit counter. -/
def bump (c : Nat) : Nat := min (c+1) (2^32-1)

def pin (s : State) (id : Nat) : State :=
  { s with color := Function.update s.color id (some s.nextColor), nextColor := bump s.nextColor }

def heapLe (a b : Nat × Nat × Bool) : Bool :=
  a.1 < b.1 || a.1 = b.1 && (a.2.1 < b.2.1 || a.2.1 = b.2.1 && (!a.2.2 || b.2.2))

/-- The words of the values that are over before `lo` go to the free lists of their pools. -/
def expire (lo : Nat) : List (Nat × Nat × Bool) → List Nat → List Nat → List (Nat × Nat × Bool) × List Nat × List Nat
  | [],freeRef,freePrim => ([],freeRef,freePrim)
  | (hi,color,isRef)::active,freeRef,freePrim =>
    if hi ≥ lo then ((hi,color,isRef)::active,freeRef,freePrim)
    else if isRef then expire lo active (color::freeRef) freePrim
    else expire lo active freeRef (color::freePrim)

def give (s : State) (id hi color : Nat) (isRef : Bool) : State :=
  { s with
    color := Function.update s.color id (some color)
    active := s.active.orderedInsert (fun a b => heapLe a b) (hi,color,isRef) }

/-- A word no value had before. -/
def giveNew (s : State) (id hi : Nat) (isRef : Bool) : State :=
  { give s id hi s.nextColor isRef with nextColor := bump s.nextColor }

def place (v : Values) (s : State) (id : Nat) : State :=
  match v.range id with
  | none => s
  | some r =>
    let (active,freeRef,freePrim) := expire r.lo s.active s.freeRef s.freePrim
    let s := { s with active := active, freeRef := freeRef, freePrim := freePrim }
    let isRef := v.isRef id
    if v.freshOnly id then giveNew s id r.hi isRef
    else if isRef then
      match freeRef with
      | color::freeRef => give { s with freeRef := freeRef } id r.hi color isRef
      | [] => giveNew s id r.hi isRef
    else
      match freePrim with
      | color::freePrim => give { s with freePrim := freePrim } id r.hi color isRef
      | [] => giveNew s id r.hi isRef

def startOf (v : Values) (id : Nat) : Nat := ((v.range id).map (·.lo)).getD 0

/-- The order of the colouring: by the start of the range, then by id. -/
def before (v : Values) (a b : Nat) : Bool := startOf v a < startOf v b || startOf v a = startOf v b && a ≤ b

def pinnedIds (v : Values) : List Nat := (List.range v.count).filter fun id => v.wants id && v.pinned id

def order (v : Values) : List Nat :=
  ((List.range v.count).filter fun id => v.wants id && !v.pinned id).mergeSort (before v)

def pins (v : Values) : State := (pinnedIds v).foldl pin ⟨fun _ => none,0,[],[],[]⟩

/-- The word of each value and the number of words. -/
def colour (v : Values) : (Nat → Option Nat) × Nat :=
  let s := (order v).foldl (place v) (pins v)
  (s.color,s.nextColor)

section
open IntervalColouring
variable {v : Values} {s : State} {base t z c : Nat} {past : Finset Nat}

def endOf (v : Values) (id : Nat) : Nat := ((v.range id).map (·.hi)).getD 0

def word (s : State) (id : Nat) : Nat := (s.color id).getD 0

/-- The words of the pool: those of the values that are not over, and the free ones. -/
def State.words (s : State) : List Nat := s.active.map (·.2.1)++(s.freeRef++s.freePrim)

structure Swept (v : Values) (base : Nat) (past : Finset Nat) (t : Nat) (s : State) : Prop where
  coloured : ∀ x ∈ past, s.color x = some (word s x)
  bound : ∀ x ∈ past, base ≤ word s x ∧ word s x < s.nextColor
  base_le : base ≤ s.nextColor
  few : s.nextColor ≤ base+past.card
  words : s.words.Perm (List.range' base (s.nextColor-base))
  used : ∀ c, base ≤ c → c < s.nextColor → ∃ x ∈ past, word s x = c
  sorted : s.active.Pairwise fun a b => a.1 ≤ b.1
  held : ∀ e ∈ s.active, ∃ x ∈ past, word s x = e.2.1 ∧ endOf v x = e.1
  holder : ∀ e ∈ s.active, ∀ x ∈ past, word s x = e.2.1 → v.isRef x = e.2.2 ∧ endOf v x ≤ e.1
  freeRef : ∀ x ∈ past, word s x ∈ s.freeRef → v.isRef x = true ∧ endOf v x < t
  freePrim : ∀ x ∈ past, word s x ∈ s.freePrim → v.isRef x = false ∧ endOf v x < t
  started : ∀ x ∈ past, startOf v x ≤ t
  proper : Proper (startOf v) (endOf v) v.isRef past (word s)
  frugal : ∀ b, (∀ x ∈ past, v.isRef x = b → v.freshOnly x = false) →
    Frugal (startOf v) (endOf v) v.isRef past (word s) b

theorem Swept.mem_words (h : Swept v base past t s) : c ∈ s.words ↔ base ≤ c ∧ c < s.nextColor := by
  have := h.base_le
  rw [h.words.mem_iff,mem_range'_1]
  omega

theorem Swept.later {t' : Nat} (h : Swept v base past t s) (ht : t ≤ t') : Swept v base past t' s :=
  { h with
    freeRef := fun x hx hw => ⟨(h.freeRef x hx hw).1,Nat.lt_of_lt_of_le (h.freeRef x hx hw).2 ht⟩
    freePrim := fun x hx hw => ⟨(h.freePrim x hx hw).1,Nat.lt_of_lt_of_le (h.freePrim x hx hw).2 ht⟩
    started := fun x hx => Nat.le_trans (h.started x hx) ht }

theorem Swept.release {hi : Nat} {b : Bool} {active : List (Nat × Nat × Bool)} (h : Swept v base past t s)
    (hactive : s.active = (hi,c,b)::active) (hover : hi < t) :
    Swept v base past t { s with
      active := active
      freeRef := if b then c::s.freeRef else s.freeRef
      freePrim := if b then s.freePrim else c::s.freePrim } := by
  have hmem : (hi,c,b) ∈ s.active := hactive ▸ mem_cons_self
  have hsub : ∀ e ∈ active, e ∈ s.active := fun e he => hactive ▸ mem_cons_of_mem _ he
  have hsorted := h.sorted
  rw [hactive,List.pairwise_cons] at hsorted
  have hperm := h.words
  rw [State.words,hactive,List.map_cons,cons_append] at hperm
  refine { h with
    words := List.Perm.trans ?_ hperm
    sorted := hsorted.2
    held := fun e he => h.held e (hsub e he)
    holder := fun e he => h.holder e (hsub e he)
    freeRef := fun x hx hw => ?_
    freePrim := fun x hx hw => ?_ }
  · cases b with
    | true => exact perm_middle
    | false =>
      rw [State.words]
      dsimp only
      rw [if_neg Bool.false_ne_true,if_neg Bool.false_ne_true,← append_assoc,← append_assoc]
      exact perm_middle
  · cases b with
    | true =>
      rcases mem_cons.mp hw with heq|hw
      · obtain ⟨hr,hle⟩ := h.holder _ hmem x hx heq
        exact ⟨hr,Nat.lt_of_le_of_lt hle hover⟩
      · exact h.freeRef x hx hw
    | false => exact h.freeRef x hx hw
  cases b with
  | true => exact h.freePrim x hx hw
  | false =>
    rcases mem_cons.mp hw with heq|hw
    · obtain ⟨hr,hle⟩ := h.holder _ hmem x hx heq
      exact ⟨hr,Nat.lt_of_le_of_lt hle hover⟩
    · exact h.freePrim x hx hw

def State.expired (s : State) (lo : Nat) : State :=
  let r := expire lo s.active s.freeRef s.freePrim
  { s with active := r.1, freeRef := r.2.1, freePrim := r.2.2 }

theorem Swept.expired (h : Swept v base past t s) :
    Swept v base past t (s.expired t) ∧ ∀ e ∈ (s.expired t).active, t ≤ e.1 := by
  generalize hactive : s.active = active
  induction active generalizing s with
  | nil =>
    have heq : s.expired t = s := by rw [State.expired,hactive,expire,← hactive]
    rw [heq,hactive]
    exact ⟨h,nofun⟩
  | cons e active ih => ?_
  obtain ⟨hi,c,b⟩ := e
  by_cases hge : hi ≥ t
  · have heq : s.expired t = s := by rw [State.expired,hactive,expire,if_pos hge,← hactive]
    rw [heq,hactive]
    refine ⟨h,fun e he => ?_⟩
    have hsorted := h.sorted
    rw [hactive,List.pairwise_cons] at hsorted
    rcases mem_cons.mp he with rfl|he
    · exact hge
    · exact Nat.le_trans hge (hsorted.1 e he)
  have hstep := ih (h.release hactive (Nat.not_le.mp hge)) rfl
  have heq : s.expired t = State.expired { s with
      active := active
      freeRef := if b then c::s.freeRef else s.freeRef
      freePrim := if b then s.freePrim else c::s.freePrim } t := by
    rw [State.expired,hactive,expire,if_neg hge]
    cases b <;> rfl
  rw [heq]
  exact hstep

theorem pairwise_orderedInsert {active : List (Nat × Nat × Bool)} (e : Nat × Nat × Bool)
    (h : active.Pairwise fun a b => a.1 ≤ b.1) :
    (active.orderedInsert (fun a b => heapLe a b) e).Pairwise fun a b => a.1 ≤ b.1 := by
  induction active with
  | nil => exact pairwise_singleton _ _
  | cons a active ih => ?_
  obtain ⟨hhead,htail⟩ := pairwise_cons.mp h
  rw [orderedInsert]
  split
  · rename_i hle
    have hea : e.1 ≤ a.1 := by
      simp only [heapLe,or_eq_true,and_eq_true,decide_eq_true_eq] at hle
      omega
    refine pairwise_cons.mpr ⟨fun b hb => ?_,h⟩
    rcases mem_cons.mp hb with rfl|hb
    · exact hea
    · exact Nat.le_trans hea (hhead b hb)
  rename_i hle
  have hae : a.1 ≤ e.1 := by
    simp only [heapLe,or_eq_true,and_eq_true,decide_eq_true_eq] at hle
    omega
  refine pairwise_cons.mpr ⟨fun b hb => ?_,ih htail⟩
  rcases (mem_orderedInsert _).mp hb with rfl|hb
  · exact hae
  · exact hhead b hb

theorem color_give (s : State) (id hi c : Nat) (b : Bool) :
    (give s id hi c b).color = update s.color id (some c) := rfl

/-- The free words of a pool. -/
def State.free (s : State) (b : Bool) : List Nat := if b then s.freeRef else s.freePrim

theorem Swept.busy_of_free_nil {x : Nat} (h : Swept v base past t s) (hx : x ∈ past) (hfree : s.free (v.isRef x) = []) :
    ∃ e ∈ s.active, word s x = e.2.1 := by
  have hmem := h.mem_words.mpr (h.bound x hx)
  rcases mem_append.mp hmem with hin|hin
  · obtain ⟨e,he,heq⟩ := mem_map.mp hin
    exact ⟨e,he,heq.symm⟩
  rcases mem_append.mp hin with hin|hin
  · rw [(h.freeRef x hx hin).1,State.free,if_pos rfl] at hfree
    rw [hfree] at hin
    cases hin
  rw [(h.freePrim x hx hin).1,State.free,if_neg Bool.false_ne_true] at hfree
  rw [hfree] at hin
  cases hin

variable {r : PosRange}

/-- The word `c` goes to the value `z`, which starts at `t`: all values it held are of the same pool and
over. Another word of the pool could not have been taken unless `z` takes new words only. -/
theorem Swept.give {freeRef freePrim : List Nat} {next : Nat} (h : Swept v base past t s)
    (hbusy : ∀ e ∈ s.active, t ≤ e.1) (hz : z ∉ past) (hr : v.range z = some r) (ht : r.lo = t)
    (hperm : (c::(s.active.map (·.2.1)++(freeRef++freePrim))).Perm (range' base (next-base)))
    (href : freeRef ⊆ s.freeRef) (hprim : freePrim ⊆ s.freePrim) (hle : s.nextColor ≤ next)
    (hused : ∀ c', c' < next → c' < s.nextColor ∨ c' = c)
    (hidle : ∀ x ∈ past, word s x = c → v.isRef x = v.isRef z ∧ endOf v x < t)
    (hcause : v.freshOnly z = true ∨ c ∈ IntervalColouring.words v.isRef past (word s) (v.isRef z) ∨
      s.free (v.isRef z) = []) :
    Swept v base (insert z past) t
      (give { s with freeRef := freeRef, freePrim := freePrim, nextColor := next } z r.hi c (v.isRef z)) := by
  have hlo : startOf v z = t := by rw [startOf,hr,← ht]; rfl
  have hhi : endOf v z = r.hi := by rw [endOf,hr]; rfl
  have hzhi : t ≤ endOf v z := by rw [hhi,← ht]; exact r.le
  have hbase := h.base_le
  have hc : base ≤ c ∧ c < next := by
    have := hperm.mem_iff.mp mem_cons_self
    rw [mem_range'_1] at this
    omega
  have hnext : next ≤ s.nextColor+1 := by
    by_contra hlt
    rcases hused s.nextColor (by omega) with h1|h1 <;> rcases hused (s.nextColor+1) (by omega) with h2|h2 <;> omega
  generalize hs' : SlotColouring.give
    { s with freeRef := freeRef, freePrim := freePrim, nextColor := next } z r.hi c (v.isRef z) = s'
  have hwz : word s' z = c := by rw [← hs',word,color_give,update_self,getD_some]
  have hwx : ∀ x ∈ past, word s' x = word s x := by
    intro x hx
    have hne : x ≠ z := fun heq => hz (heq ▸ hx)
    rw [← hs',word,color_give,update_of_ne hne]
    rfl
  have hactive : ∀ e, e ∈ s'.active ↔ e = (r.hi,c,v.isRef z) ∨ e ∈ s.active := by
    intro e
    rw [← hs']
    exact mem_orderedInsert _
  have hproper : Proper (startOf v) (endOf v) v.isRef (insert z past) (word s') := by
    refine h.proper.insert hwx fun x hx heq => ?_
    rw [hwz] at heq
    rw [hlo]
    exact hidle x hx heq
  have hcfree := (hperm.nodup_iff.mpr nodup_range').notMem
  have hunheld : ∀ e ∈ s.active, c ≠ e.2.1 := fun e he heq =>
    hcfree (mem_append_left _ (mem_map.mpr ⟨e,he,heq.symm⟩))
  refine ⟨fun x hx => ?_,fun x hx => ?_,?_,?_,?_,fun c' hb hlt => ?_,?_,fun e he => ?_,fun e he x hx heq => ?_,
    fun x hx hw => ?_,fun x hx hw => ?_,fun x hx => ?_,hproper,fun b hb => ?_⟩
  · rcases mem_insert.mp hx with rfl|hx
    · rw [hwz,← hs',color_give,update_self]
    have hne : x ≠ z := fun heq => hz (heq ▸ hx)
    rw [hwx x hx,← hs',color_give,update_of_ne hne]
    exact h.coloured x hx
  · rw [← hs'] at hwz hwx ⊢
    rcases mem_insert.mp hx with rfl|hx
    · rw [hwz]
      exact hc
    rw [hwx x hx]
    exact ⟨(h.bound x hx).1,Nat.lt_of_lt_of_le (h.bound x hx).2 hle⟩
  · rw [← hs']
    exact Nat.le_trans hbase hle
  · rw [← hs',card_insert_of_notMem hz]
    have := h.few
    exact Nat.le_trans hnext (by omega)
  · rw [← hs']
    refine List.Perm.trans ?_ hperm
    exact ((perm_orderedInsert _ _ _).map _).append_right _
  · rw [← hs'] at hlt
    rcases hused c' hlt with hold|rfl
    · obtain ⟨x,hx,heq⟩ := h.used c' hb hold
      exact ⟨x,mem_insert_of_mem hx,(hwx x hx).trans heq⟩
    · exact ⟨z,mem_insert_self _ _,hwz⟩
  · rw [← hs']
    exact pairwise_orderedInsert _ h.sorted
  · rcases (hactive e).mp he with rfl|he
    · exact ⟨z,mem_insert_self _ _,hwz,hhi⟩
    obtain ⟨x,hx,heq,hend⟩ := h.held e he
    exact ⟨x,mem_insert_of_mem hx,(hwx x hx).trans heq,hend⟩
  · rcases (hactive e).mp he with rfl|he' <;> rcases mem_insert.mp hx with rfl|hx'
    · exact ⟨rfl,Nat.le_of_eq hhi⟩
    · rw [hwx x hx'] at heq
      obtain ⟨hk,hlt⟩ := hidle x hx' heq
      exact ⟨hk,by rw [hhi] at hzhi; exact Nat.le_trans (Nat.le_of_lt hlt) hzhi⟩
    · exact absurd (hwz.symm.trans heq) (hunheld e he')
    rw [hwx x hx'] at heq
    exact h.holder e he' x hx' heq
  · replace hw : word s' x ∈ freeRef := by rw [← hs'] at hw ⊢; exact hw
    rcases mem_insert.mp hx with rfl|hx
    · rw [hwz] at hw
      exact absurd (mem_append_right _ (mem_append_left _ hw)) hcfree
    rw [hwx x hx] at hw
    exact h.freeRef x hx (href hw)
  · replace hw : word s' x ∈ freePrim := by rw [← hs'] at hw ⊢; exact hw
    rcases mem_insert.mp hx with rfl|hx
    · rw [hwz] at hw
      exact absurd (mem_append_right _ (mem_append_right _ hw)) hcfree
    rw [hwx x hx] at hw
    exact h.freePrim x hx (hprim hw)
  · rcases mem_insert.mp hx with rfl|hx
    · exact Nat.le_of_eq hlo
    · exact h.started x hx
  have hpast := h.frugal b fun x hx => hb x (mem_insert_of_mem hx)
  by_cases hk : v.isRef z = b
  · have hplain := hb z (mem_insert_self _ _) hk
    rw [hk,hplain] at hcause
    rcases hcause with hf|hin|hempty
    · cases hf
    · exact hpast.insert hwx fun _ => hwz ▸ hin
    refine ⟨t,words_le_covering fun w hw => ?_⟩
    obtain ⟨x,hx,hkx,rfl⟩ := IntervalColouring.mem_words.mp hw
    rcases mem_insert.mp hx with rfl|hx
    · exact ⟨x,mem_filter.mpr ⟨mem_insert_self _ _,hk,Nat.le_of_eq hlo,hzhi⟩,rfl⟩
    rw [hwx x hx]
    obtain ⟨e,he,heq⟩ := h.busy_of_free_nil hx (hkx ▸ hempty)
    obtain ⟨y,hy,hwy,hend⟩ := h.held e he
    refine ⟨y,mem_filter.mpr ⟨mem_insert_of_mem hy,?_,h.started y hy,?_⟩,?_⟩
    · exact ((h.holder e he y hy hwy).1.trans (h.holder e he x hx heq).1.symm).trans hkx
    · exact hend ▸ hbusy e he
    · rw [hwx y hy,hwy,heq]
  · exact hpast.insert hwx fun heq => absurd heq hk

theorem Swept.giveNew (h : Swept v base past t s) (hbusy : ∀ e ∈ s.active, t ≤ e.1) (hz : z ∉ past)
    (hr : v.range z = some r) (ht : r.lo = t) (hfit : s.nextColor+1 < 2^32)
    (hcause : v.freshOnly z = true ∨ s.free (v.isRef z) = []) :
    Swept v base (insert z past) t (giveNew s z r.hi (v.isRef z)) := by
  have hbump : bump s.nextColor = s.nextColor+1 := by
    unfold bump
    omega
  have heq : SlotColouring.giveNew s z r.hi (v.isRef z) = SlotColouring.give
      { s with freeRef := s.freeRef, freePrim := s.freePrim, nextColor := s.nextColor+1 } z r.hi s.nextColor (v.isRef z) := by
    rw [SlotColouring.giveNew,hbump]
    rfl
  have hbase := h.base_le
  rw [heq]
  refine h.give hbusy hz hr ht ?_ (List.Subset.refl _) (List.Subset.refl _) (Nat.le_succ _) (fun c' hc' => ?_)
    (fun x hx hw => absurd hw (Nat.ne_of_lt (h.bound x hx).2)) ?_
  · have hlen : s.nextColor+1-base = (s.nextColor-base)+1 := by omega
    have hlast : base+1*(s.nextColor-base) = s.nextColor := by omega
    rw [hlen,range'_concat,hlast]
    exact (h.words.cons s.nextColor).trans (perm_append_singleton _ _).symm
  · omega
  rcases hcause with hf|hf
  · exact .inl hf
  · exact .inr (.inr hf)

theorem Swept.recycle {freeRef freePrim : List Nat} (h : Swept v base past t s)
    (hbusy : ∀ e ∈ s.active, t ≤ e.1) (hz : z ∉ past) (hr : v.range z = some r) (ht : r.lo = t)
    (hperm : (c::(freeRef++freePrim)).Perm (s.freeRef++s.freePrim))
    (href : freeRef ⊆ s.freeRef) (hprim : freePrim ⊆ s.freePrim) (hc : c ∈ s.free (v.isRef z)) :
    Swept v base (insert z past) t
      (SlotColouring.give { s with freeRef := freeRef, freePrim := freePrim } z r.hi c (v.isRef z)) := by
  have hidle : ∀ x ∈ past, word s x = c → v.isRef x = v.isRef z ∧ endOf v x < t := by
    intro x hx hw
    cases hk : v.isRef z with
    | true =>
      rw [hk,State.free,if_pos rfl,← hw] at hc
      exact h.freeRef x hx hc
    | false =>
      rw [hk,State.free,if_neg Bool.false_ne_true,← hw] at hc
      exact h.freePrim x hx hc
  have hin : c ∈ s.words := by
    refine mem_append_right _ ?_
    cases hk : v.isRef z with
    | true =>
      rw [hk,State.free,if_pos rfl] at hc
      exact mem_append_left _ hc
    | false =>
      rw [hk,State.free,if_neg Bool.false_ne_true] at hc
      exact mem_append_right _ hc
  obtain ⟨hb,hlt⟩ := h.mem_words.mp hin
  refine h.give hbusy hz hr ht (List.Perm.trans ?_ h.words) href hprim le_rfl (fun c' hc' => .inl hc') hidle ?_
  · exact perm_middle.symm.trans (hperm.append_left _)
  obtain ⟨x,hx,hw⟩ := h.used c hb hlt
  exact .inr (.inl (IntervalColouring.mem_words.mpr ⟨x,hx,(hidle x hx hw).1,hw⟩))

theorem color_giveNew (s : State) (id hi : Nat) (b : Bool) :
    (SlotColouring.giveNew s id hi b).color = update s.color id (some s.nextColor) := rfl

theorem place_eq (hr : v.range z = some r) :
    (v.freshOnly z = true ∨ (s.expired r.lo).free (v.isRef z) = []) ∧
      place v s z = SlotColouring.giveNew (s.expired r.lo) z r.hi (v.isRef z) ∨
    v.freshOnly z = false ∧ ∃ c freeRef freePrim, c ∈ (s.expired r.lo).free (v.isRef z) ∧
      (c::(freeRef++freePrim)).Perm ((s.expired r.lo).freeRef++(s.expired r.lo).freePrim) ∧
      freeRef ⊆ (s.expired r.lo).freeRef ∧ freePrim ⊆ (s.expired r.lo).freePrim ∧
      place v s z = SlotColouring.give { s.expired r.lo with freeRef := freeRef, freePrim := freePrim } z r.hi c (v.isRef z) := by
  have hplace : place v s z =
      if v.freshOnly z then SlotColouring.giveNew (s.expired r.lo) z r.hi (v.isRef z)
      else if v.isRef z then
        match (s.expired r.lo).freeRef with
        | c::free => SlotColouring.give { s.expired r.lo with freeRef := free } z r.hi c (v.isRef z)
        | [] => SlotColouring.giveNew (s.expired r.lo) z r.hi (v.isRef z)
      else
        match (s.expired r.lo).freePrim with
        | c::free => SlotColouring.give { s.expired r.lo with freePrim := free } z r.hi c (v.isRef z)
        | [] => SlotColouring.giveNew (s.expired r.lo) z r.hi (v.isRef z) := by
    rw [place,hr]
    rfl
  cases hf : v.freshOnly z with
  | true =>
    rw [hf,if_pos rfl] at hplace
    exact .inl ⟨.inl rfl,hplace⟩
  | false => ?_
  rw [hf,if_neg Bool.false_ne_true] at hplace
  cases hk : v.isRef z with
  | true => ?_
  | false =>
    rw [hk,if_neg Bool.false_ne_true] at hplace
    cases hfree : (s.expired r.lo).freePrim with
    | nil =>
      rw [hfree] at hplace
      exact .inl ⟨.inr (by rw [State.free,if_neg Bool.false_ne_true,hfree]),hplace⟩
    | cons c free => ?_
    rw [hfree] at hplace
    refine .inr ⟨rfl,c,(s.expired r.lo).freeRef,free,?_,perm_middle.symm,List.Subset.refl _,
      subset_cons_self _ _,hplace⟩
    rw [State.free,if_neg Bool.false_ne_true,hfree]
    exact mem_cons_self
  rw [hk,if_pos rfl] at hplace
  cases hfree : (s.expired r.lo).freeRef with
  | nil =>
    rw [hfree] at hplace
    exact .inl ⟨.inr (by rw [State.free,if_pos rfl,hfree]),hplace⟩
  | cons c free => ?_
  rw [hfree] at hplace
  refine .inr ⟨rfl,c,free,(s.expired r.lo).freePrim,?_,List.Perm.refl _,subset_cons_self _ _,
    List.Subset.refl _,hplace⟩
  rw [State.free,if_pos rfl,hfree]
  exact mem_cons_self

theorem place_color_of_ne {x : Nat} (hne : x ≠ z) : (place v s z).color x = s.color x := by
  cases hr : v.range z with
  | none => rw [place,hr]
  | some r => ?_
  rcases place_eq (s := s) hr with ⟨-,heq⟩|⟨-,c,freeRef,freePrim,-,-,-,-,heq⟩
  · rw [heq,color_giveNew,update_of_ne hne]
    rfl
  rw [heq,color_give,update_of_ne hne]
  rfl

theorem Swept.place (h : Swept v base past t s) (hz : z ∉ past) (hr : v.range z = some r)
    (ht : t ≤ r.lo) (hfit : base+past.card+1 < 2^32) : Swept v base (insert z past) r.lo (place v s z) := by
  obtain ⟨hs,hbusy⟩ := (h.later ht).expired
  rcases place_eq (s := s) hr with ⟨hcause,heq⟩|⟨-,c,freeRef,freePrim,hc,hperm,href,hprim,heq⟩
  · rw [heq]
    have := hs.few
    exact hs.giveNew hbusy hz hr rfl (by omega) hcause
  rw [heq]
  exact hs.recycle hbusy hz hr rfl hperm href hprim hc

theorem Swept.place_freshOnly {x : Nat} (h : Swept v base past t s) (hz : z ∉ past) (hr : v.range z = some r)
    (hx : x ∈ past) (hfresh : v.freshOnly z = true) : word (SlotColouring.place v s z) x ≠ word (SlotColouring.place v s z) z := by
  have hne : x ≠ z := fun heq => hz (heq ▸ hx)
  rcases place_eq (s := s) hr with ⟨-,heq⟩|⟨hf,-⟩
  · rw [heq,word,word,color_giveNew,update_self,update_of_ne hne]
    exact Nat.ne_of_lt (h.bound x hx).2
  rw [hfresh] at hf
  cases hf
/-- Values that take new words only share them with later values. -/
def FreshWords (v : Values) (past : Finset Nat) (s : State) : Prop :=
  ∀ x ∈ past, ∀ y ∈ past, v.freshOnly x = true → word s x = word s y → before v x y = true

theorem Swept.place_freshWords (h : Swept v base past t s) (hfresh : FreshWords v past s) (hz : z ∉ past)
    (hr : v.range z = some r) (hlater : ∀ x ∈ past, before v x z = true) :
    FreshWords v (insert z past) (SlotColouring.place v s z) := by
  have hword : ∀ x ∈ past, word (SlotColouring.place v s z) x = word s x := by
    intro x hx
    have hne : x ≠ z := fun heq => hz (heq ▸ hx)
    rw [word,place_color_of_ne hne]
    rfl
  intro x hx y hy hf heq
  rcases mem_insert.mp hx with rfl|hx' <;> rcases mem_insert.mp hy with rfl|hy'
  · simp [before]
  · exact absurd heq.symm (h.place_freshOnly hz hr hy' hf)
  · exact hlater x hx'
  rw [hword x hx',hword y hy'] at heq
  exact hfresh x hx' y hy' hf heq

theorem startOf_le {a b : Nat} (h : before v a b = true) : startOf v a ≤ startOf v b := by
  simp only [before,or_eq_true,and_eq_true,decide_eq_true_eq] at h
  omega

def ranged (v : Values) (l : List Nat) : Finset Nat := (l.filter fun x => (v.range x).isSome).toFinset

variable {l : List Nat}

theorem foldl_place_color {x : Nat} (hx : x ∉ ranged v l) : (l.foldl (place v) s).color x = s.color x := by
  induction l generalizing s with
  | nil => rfl
  | cons z l ih => ?_
  have hrest : x ∉ ranged v l := fun hin => hx (by
    simp only [ranged,List.mem_toFinset,mem_filter] at hin ⊢
    exact ⟨mem_cons_of_mem _ hin.1,hin.2⟩)
  rw [foldl_cons,ih hrest]
  by_cases hne : x = z
  · subst hne
    have hr : v.range x = none := by
      by_contra hr
      refine hx (List.mem_toFinset.mpr (mem_filter.mpr ⟨mem_cons_self,?_⟩))
      exact isSome_iff_ne_none.mpr hr
    rw [place,hr]
  · exact place_color_of_ne hne

theorem Swept.run (h : Swept v base past t s) (hfresh : FreshWords v past s)
    (hnew : ∀ x ∈ l, x ∉ past) (hnodup : l.Nodup) (hsorted : l.Pairwise fun a b => before v a b = true)
    (hlater : ∀ x ∈ past, ∀ y ∈ l, before v x y = true) (ht : ∀ y ∈ l, (v.range y).isSome → t ≤ startOf v y)
    (hfit : base+past.card+l.length < 2^32) :
    ∃ t', Swept v base (past ∪ ranged v l) t' (l.foldl (SlotColouring.place v) s) ∧
      FreshWords v (past ∪ ranged v l) (l.foldl (SlotColouring.place v) s) := by
  induction l generalizing past t s with
  | nil =>
    have hempty := union_empty past
    exact ⟨t,hempty.symm ▸ h,hempty.symm ▸ hfresh⟩
  | cons z l ih => ?_
  obtain ⟨hz,hnodup⟩ := nodup_cons.mp hnodup
  obtain ⟨hhead,hsorted⟩ := pairwise_cons.mp hsorted
  rw [length_cons] at hfit
  rw [foldl_cons]
  cases hr : v.range z with
  | none =>
    have heq : ranged v (z::l) = ranged v l := by simp [ranged,hr]
    have hplace : SlotColouring.place v s z = s := by rw [SlotColouring.place,hr]
    rw [heq,hplace]
    exact ih h hfresh (fun x hx => hnew x (mem_cons_of_mem _ hx)) hnodup hsorted
      (fun x hx y hy => hlater x hx y (mem_cons_of_mem _ hy)) (fun y hy => ht y (mem_cons_of_mem _ hy)) (by omega)
  | some r => ?_
  have hzpast := hnew z mem_cons_self
  have hlo : startOf v z = r.lo := by rw [startOf,hr]; rfl
  have hle : t ≤ r.lo := hlo ▸ ht z mem_cons_self (by rw [hr]; rfl)
  have heq : past ∪ ranged v (z::l) = insert z past ∪ ranged v l := by
    ext x
    simp only [ranged,List.filter_cons,hr,isSome_some,if_true,toFinset_cons,mem_union,mem_insert]
    tauto
  rw [heq]
  refine ih (h.place hzpast hr hle (by omega))
    (h.place_freshWords hfresh hzpast hr fun x hx => hlater x hx z mem_cons_self) (fun x hx hin => ?_)
    hnodup hsorted (fun x hx y hy => ?_) (fun y hy _ => hlo ▸ startOf_le (hhead y hy)) ?_
  · rcases mem_insert.mp hin with rfl|hin
    · exact hz hx
    · exact hnew x (mem_cons_of_mem _ hx) hin
  · rcases mem_insert.mp hx with rfl|hx
    · exact hhead y hy
    · exact hlater x hx y (mem_cons_of_mem _ hy)
  rw [card_insert_of_notMem hzpast]
  omega

theorem foldl_pin (hnodup : l.Nodup) (hfit : s.nextColor+l.length < 2^32) :
    l.foldl pin s = { s with
      color := fun x => if x ∈ l then some (s.nextColor+l.idxOf x) else s.color x
      nextColor := s.nextColor+l.length } := by
  induction l generalizing s with
  | nil => simp
  | cons a l ih => ?_
  obtain ⟨ha,hnodup⟩ := nodup_cons.mp hnodup
  rw [length_cons] at hfit
  have hbump : bump s.nextColor = s.nextColor+1 := by
    unfold bump
    omega
  have hnext : (pin s a).nextColor = s.nextColor+1 := hbump
  rw [foldl_cons,ih hnodup (by omega),hnext]
  have hcolor : (fun x => if x ∈ l then some (s.nextColor+1+l.idxOf x) else (pin s a).color x) =
      fun x => if x ∈ a::l then some (s.nextColor+(a::l).idxOf x) else s.color x := by
    funext x
    by_cases hx : x = a
    · subst hx
      simp [ha,pin]
    have hidx : (a::l).idxOf x = l.idxOf x+1 := idxOf_cons_ne _ (Ne.symm hx)
    by_cases hin : x ∈ l
    · rw [if_pos hin,if_pos (mem_cons_of_mem _ hin),hidx]
      congr 1
      omega
    · simp [hin,hx,pin]
  rw [hcolor,length_cons]
  simp only [pin,State.mk.injEq,and_true,true_and]
  omega

end

def pool (v : Values) (ref : Bool) : Finset Nat :=
  (Finset.range v.count).filter fun x => v.wants x && !v.pinned x && (v.range x).isSome && v.isRef x == ref

def liveAt (v : Values) (ref : Bool) (p : Nat) : Finset Nat :=
  (pool v ref).filter fun x => (v.range x).any fun r => r.lo ≤ p && p ≤ r.hi

/-- A colouring that no two values live at once, of different pools or pinned can be hurt by, and that takes no
word without need. -/
structure Sound (v : Values) (color : Nat → Option Nat) (count : Nat) : Prop where
  coloured : ∀ x, (color x).isSome ↔ x < v.count ∧ v.wants x = true ∧ (v.pinned x = true ∨ (v.range x).isSome)
  shared : ∀ x y c, x ≠ y → color x = some c → color y = some c →
    v.pinned x = false ∧ v.pinned y = false ∧ v.isRef x = v.isRef y ∧
    ∃ rx ry, v.range x = some rx ∧ v.range y = some ry ∧ (rx.hi < ry.lo ∨ ry.hi < rx.lo)
  pinned_alone : ∀ x y c, v.pinned x = true → color x = some c → color y = some c → x = y
  fresh : ∀ x y c, v.freshOnly x = true → color x = some c → color y = some c → before v y x = true → x = y
  bound : ∀ x c, color x = some c → c < count
  minimal : ∀ ref, (ref = true → ∀ x ∈ pool v ref, v.freshOnly x = false) →
    IsGreatest {n | ∃ p, n = (liveAt v ref p).card} ((pool v ref).image color).card

section
open IntervalColouring
variable {v : Values} {x : Nat}

theorem nodup_pinnedIds (v : Values) : (pinnedIds v).Nodup := nodup_range.filter _

theorem order_perm (v : Values) :
    (order v).Perm ((List.range v.count).filter fun id => v.wants id && !v.pinned id) := mergeSort_perm _ _

theorem mem_pinnedIds : x ∈ pinnedIds v ↔ x < v.count ∧ v.wants x = true ∧ v.pinned x = true := by
  simp [pinnedIds]

theorem mem_order : x ∈ order v ↔ x < v.count ∧ v.wants x = true ∧ v.pinned x = false := by
  simp [(order_perm v).mem_iff]

theorem nodup_order (v : Values) : (order v).Nodup := (order_perm v).nodup_iff.mpr (nodup_range.filter _)

theorem sorted_order (v : Values) : (order v).Pairwise fun a b => before v a b = true := by
  refine pairwise_mergeSort (fun a b c hab hbc => ?_) (fun a b => ?_) _
  · simp only [before,or_eq_true,and_eq_true,decide_eq_true_eq] at hab hbc ⊢
    omega
  simp only [before,or_eq_true,and_eq_true,decide_eq_true_eq]
  omega

theorem pinnedIds_add_order (v : Values) : (pinnedIds v).length+(order v).length ≤ v.count := by
  have hdisj : (pinnedIds v++order v).Nodup := by
    refine nodup_append.mpr ⟨nodup_pinnedIds v,nodup_order v,fun a ha b hb heq => ?_⟩
    have h1 := ((mem_pinnedIds).mp ha).2.2
    have h2 := ((mem_order).mp (heq ▸ hb)).2.2
    rw [h1] at h2
    cases h2
  have hsub : pinnedIds v++order v ⊆ range v.count := by
    intro a ha
    rw [List.mem_range]
    rcases mem_append.mp ha with ha|ha
    · exact ((mem_pinnedIds).mp ha).1
    · exact ((mem_order).mp ha).1
  have hlen := (hdisj.subperm hsub).length_le
  rwa [length_append,length_range] at hlen

theorem pins_eq (hfit : v.count < 2^32) :
    pins v = ⟨fun x => if x ∈ pinnedIds v then some ((pinnedIds v).idxOf x) else none,(pinnedIds v).length,[],[],[]⟩ := by
  have hle := pinnedIds_add_order v
  rw [pins,foldl_pin (nodup_pinnedIds v) (by dsimp only; omega)]
  simp

theorem swept_pins (hfit : v.count < 2^32) : Swept v (pinnedIds v).length ∅ 0 (pins v) := by
  rw [pins_eq hfit]
  exact {
    coloured := nofun
    bound := nofun
    base_le := le_rfl
    few := le_rfl
    words := by simp [State.words]
    used := fun c hb hlt => absurd hlt (Nat.not_lt.mpr hb)
    sorted := List.Pairwise.nil
    held := nofun
    holder := nofun
    freeRef := nofun
    freePrim := nofun
    started := nofun
    proper := nofun
    frugal := fun b _ => ⟨0,Nat.zero_le _⟩ }

theorem mem_ranged_order : x ∈ ranged v (order v) ↔
    x < v.count ∧ v.wants x = true ∧ v.pinned x = false ∧ (v.range x).isSome := by
  simp [ranged,mem_order,and_assoc]

theorem swept_colour (hfit : v.count < 2^32) : ∃ t s, (colour v).1 = s.color ∧ (colour v).2 = s.nextColor ∧
    Swept v (pinnedIds v).length (ranged v (order v)) t s ∧ FreshWords v (ranged v (order v)) s ∧
    ∀ x ∉ ranged v (order v), s.color x = if x ∈ pinnedIds v then some ((pinnedIds v).idxOf x) else none := by
  have hle := pinnedIds_add_order v
  obtain ⟨t,hs,hf⟩ := (swept_pins hfit).run (l := order v) nofun (fun _ _ => notMem_empty _) (nodup_order v)
    (sorted_order v) nofun (fun _ _ _ => Nat.zero_le _) (by rw [card_empty]; omega)
  refine ⟨t,_,rfl,rfl,hs,hf,fun x hx => ?_⟩
  rw [foldl_place_color hx,pins_eq hfit]

theorem word_injOn {s : State} {P : Finset Nat} (hcol : ∀ x ∈ P, s.color x = some (word s x)) :
    (P.image s.color).card = (P.image (word s)).card := by
  have heq : P.image s.color = (P.image (word s)).image some := by
    rw [image_image]
    exact image_congr hcol
  rw [heq,card_image_of_injective _ (some_injective _)]

theorem pool_eq (ref : Bool) : pool v ref = (ranged v (order v)).filter fun x => v.isRef x = ref := by
  ext x
  simp [pool,mem_ranged_order,and_assoc]

theorem liveAt_eq (ref : Bool) (p : Nat) :
    liveAt v ref p = covering (startOf v) (endOf v) v.isRef (ranged v (order v)) ref p := by
  ext x
  rw [liveAt,covering,pool_eq,Finset.filter_filter,Finset.mem_filter,Finset.mem_filter]
  refine and_congr_right fun hx => and_congr_right fun _ => ?_
  obtain ⟨r,hr⟩ := isSome_iff_exists.mp ((mem_ranged_order).mp hx).2.2.2
  simp [startOf,endOf,hr]

theorem sound_colour (hfit : v.count < 2^32) (hprim : ∀ x ∈ pool v false, v.freshOnly x = false) :
    Sound v (colour v).1 (colour v).2 := by
  obtain ⟨t,s,hcolor,hcount,hs,hfresh,hrest⟩ := swept_colour hfit
  rw [hcolor,hcount]
  have hcases : ∀ x c, s.color x = some c →
      x ∈ ranged v (order v) ∧ word s x = c ∧ (pinnedIds v).length ≤ c ∧ c < s.nextColor ∨
      x ∈ pinnedIds v ∧ (pinnedIds v).idxOf x = c ∧ c < (pinnedIds v).length := by
    intro x c hc
    by_cases hx : x ∈ ranged v (order v)
    · have hw : word s x = c := by rw [word,hc]; rfl
      exact .inl ⟨hx,hw,hw ▸ hs.bound x hx⟩
    rw [hrest x hx] at hc
    split at hc
    · rename_i hin
      cases hc
      exact .inr ⟨hin,rfl,idxOf_lt_length_of_mem hin⟩
    · cases hc
  have halone : ∀ x y c, v.pinned x = true → s.color x = some c → s.color y = some c → x = y := by
    intro x y c hp hx hy
    rcases hcases x c hx with ⟨hin,-⟩|⟨hin,hidx,hlt⟩
    · rw [((mem_ranged_order).mp hin).2.2.1] at hp
      cases hp
    rcases hcases y c hy with ⟨-,-,hle,-⟩|⟨hin',hidx',-⟩
    · omega
    · exact (idxOf_inj hin).mp (hidx.trans hidx'.symm)
  have hunpinned : ∀ x y c, x ≠ y → s.color x = some c → s.color y = some c → x ∈ ranged v (order v) := by
    intro x y c hne hx hy
    rcases hcases x c hx with ⟨hin,-⟩|⟨hin,-⟩
    · exact hin
    · exact absurd (halone x y c ((mem_pinnedIds).mp hin).2.2 hx hy) hne
  refine ⟨fun x => ?_,fun x y c hne hx hy => ?_,halone,fun x y c hf hx hy hle => ?_,fun x c hx => ?_,fun ref hrefs => ?_⟩
  · by_cases hx : x ∈ ranged v (order v)
    · rw [hs.coloured x hx]
      obtain ⟨h1,h2,-,h4⟩ := (mem_ranged_order).mp hx
      exact ⟨fun _ => ⟨h1,h2,.inr h4⟩,fun _ => rfl⟩
    rw [hrest x hx]
    by_cases hp : x ∈ pinnedIds v
    · obtain ⟨h1,h2,h3⟩ := (mem_pinnedIds).mp hp
      rw [if_pos hp]
      exact ⟨fun _ => ⟨h1,h2,.inl h3⟩,fun _ => rfl⟩
    rw [if_neg hp]
    refine ⟨nofun,fun ⟨h1,h2,h3⟩ => ?_⟩
    cases hpin : v.pinned x with
    | true => exact absurd ((mem_pinnedIds).mpr ⟨h1,h2,hpin⟩) hp
    | false =>
      rw [hpin] at h3
      exact absurd ((mem_ranged_order).mpr ⟨h1,h2,hpin,h3.resolve_left nofun⟩) hx
  · have hin := hunpinned x y c hne hx hy
    have hin' := hunpinned y x c hne.symm hy hx
    obtain ⟨-,-,hp,hr⟩ := (mem_ranged_order).mp hin
    obtain ⟨-,-,hp',hr'⟩ := (mem_ranged_order).mp hin'
    obtain ⟨rx,hrx⟩ := isSome_iff_exists.mp hr
    obtain ⟨ry,hry⟩ := isSome_iff_exists.mp hr'
    have hword : word s x = word s y := by rw [word,word,hx,hy]
    obtain ⟨hk,hdisj⟩ := hs.proper x hin y hin' hne hword
    simp only [startOf,endOf,hrx,hry,map_some,getD_some] at hdisj
    exact ⟨hp,hp',hk,rx,ry,hrx,hry,hdisj⟩
  · by_contra hne
    have hin := hunpinned x y c hne hx hy
    have hin' := hunpinned y x c (Ne.symm hne) hy hx
    have hle' := hfresh x hin y hin' hf (by rw [word,word,hx,hy])
    simp only [before,or_eq_true,and_eq_true,decide_eq_true_eq] at hle hle'
    omega
  · rcases hcases x c hx with ⟨-,-,-,hlt⟩|⟨-,-,hlt⟩
    · exact hlt
    · exact Nat.lt_of_lt_of_le hlt hs.base_le
  have hplain : ∀ x ∈ ranged v (order v), v.isRef x = ref → v.freshOnly x = false := by
    intro x hx hk
    have hin : x ∈ pool v ref := by rw [pool_eq]; exact mem_filter.mpr ⟨hx,hk⟩
    cases ref with
    | true => exact hrefs rfl x hin
    | false => exact hprim x hin
  have hgreatest := isGreatest_words hs.proper (hs.frugal ref hplain)
  rw [pool_eq,word_injOn fun x hx => hs.coloured x (Finset.mem_filter.mp hx).1]
  simp only [liveAt_eq]
  exact hgreatest

end
end SlotColouring

open SlotColouring

def isRefNode (graph : Graph) (id : Nat) : Bool := (graph.nodes[id]?.map (·.ty)) = some .ref

def planSlotsValues (graph : Graph) (wantsSlot pinned : Nat → Bool) (colouringRange : Nat → Option PosRange) : Values where
  count := graph.nodes.length
  wants := wantsSlot
  pinned := pinned
  range := colouringRange
  isRef := isRefNode graph
  freshOnly id := wantsSlot id && graph.nodes[id]?.any colourIsFreshOnly

def planSlotsColouring (graph : Graph) (wantsSlot pinned : Nat → Bool) (colouringRange : Nat → Option PosRange) :
    (Nat → Option Nat) × Nat :=
  colour (planSlotsValues graph wantsSlot pinned colouringRange)

/-- What the colouring reads of the live model of a graph. -/
structure HomeModel (graph : Graph) where
  pinned : Nat → Bool
  range : Nat → Option PosRange
  isRef : Nat → Bool
  isRef_eq : ∀ id r, range id = some r → isRef id = isRefNode graph id

def homeValues (graph : Graph) (live : HomeModel graph) (needsHome : Nat → Bool) : Values where
  count := graph.nodes.length
  wants := needsHome
  pinned := live.pinned
  range := live.range
  isRef := live.isRef
  freshOnly id := graph.nodes[id]?.any colourIsFreshOnly

def lsColorHomes (graph : Graph) (live : HomeModel graph) (needsHome : Nat → Bool) : (Nat → Option Nat) × Nat :=
  colour (homeValues graph live needsHome)

theorem isRefNode_of_freshOnly {graph : Graph} {id : Nat} (h : graph.nodes[id]?.any colourIsFreshOnly = true) :
    isRefNode graph id = true := by
  cases hn : graph.nodes[id]? with
  | none =>
    rw [hn] at h
    cases h
  | some node =>
    rw [hn,any_some,colourIsFreshOnly,and_eq_true] at h
    simpa [isRefNode,hn] using h.1

/-- Frame words are shared safely and not wasted, in both colourings. -/
theorem frame_words_sound (graph : Graph) (hids : graph.nodes.length ≤ noNode) :
    (∀ wantsSlot pinned colouringRange,
      Sound (planSlotsValues graph wantsSlot pinned colouringRange)
        (planSlotsColouring graph wantsSlot pinned colouringRange).1
        (planSlotsColouring graph wantsSlot pinned colouringRange).2) ∧
    ∀ live needsHome,
      Sound (homeValues graph live needsHome) (lsColorHomes graph live needsHome).1 (lsColorHomes graph live needsHome).2 := by
  have hfit : graph.nodes.length < 2^32 := by
    unfold noNode at hids
    omega
  refine ⟨fun wantsSlot pinned colouringRange => sound_colour hfit fun x hx => ?_,
    fun live needsHome => sound_colour hfit fun x hx => ?_⟩
  · obtain ⟨-,hx⟩ := Finset.mem_filter.mp hx
    simp only [and_eq_true,beq_iff_eq] at hx
    by_contra hf
    rw [not_eq_false] at hf
    have href := isRefNode_of_freshOnly (and_eq_true _ _ ▸ hf).2
    exact absurd (hx.2.symm.trans href) false_ne_true
  obtain ⟨-,hx⟩ := Finset.mem_filter.mp hx
  simp only [and_eq_true,beq_iff_eq] at hx
  by_contra hf
  rw [not_eq_false] at hf
  obtain ⟨r,hr⟩ := isSome_iff_exists.mp hx.1.2
  have href := (live.isRef_eq x r hr).trans (isRefNode_of_freshOnly hf)
  exact absurd (hx.2.symm.trans href) false_ne_true

/-- Two references that are not live together share a word, the primitive beside them has its own. -/
theorem frame_words_sound_three : ∃ graph : Graph, ∃ range : Nat → Option PosRange,
    graph.nodes.length = 3 ∧
    Sound (planSlotsValues graph (fun _ => true) (fun _ => false) range)
      (planSlotsColouring graph (fun _ => true) (fun _ => false) range).1
      (planSlotsColouring graph (fun _ => true) (fun _ => false) range).2 ∧
    (List.range 3).map (planSlotsColouring graph (fun _ => true) (fun _ => false) range).1 = [some 0,some 1,some 0] := by
  let node (ty : IrType) : Node := ⟨.param 0,ty,[],none,none,false⟩
  let graph : Graph := ⟨[node .ref,node .int,node .ref],[],UseLists.new⟩
  let range (id : Nat) : Option PosRange :=
    some (if id = 0 then ⟨0,1,by decide⟩ else if id = 1 then ⟨1,4,by decide⟩ else ⟨2,3,by decide⟩)
  refine ⟨graph,range,rfl,(frame_words_sound graph (by decide)).1 _ _ _,?_⟩
  have horder : order (planSlotsValues graph (fun _ => true) (fun _ => false) range) = [0,1,2] :=
    mergeSort_of_pairwise (by decide)
  rw [planSlotsColouring,colour,horder]
  decide

end CratonVM.Jit.RegAlloc
