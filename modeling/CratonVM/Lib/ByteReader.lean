import Mathlib

/-!
Computations that may fail, and computations on a state that may fail: what is known of the parts
when the whole succeeds.
-/
namespace CratonVM.Outcome
open List
variable {ε α β σ : Type}

theorem bind_eq_ok {x : Except ε α} {f : α → Except ε β} {b : β} :
    (x >>= f) = .ok b ↔ ∃ a, x = .ok a ∧ f a = .ok b := by
  cases x with
  | error e =>
    constructor
    · intro h
      cases h
    intro ⟨_,h,_⟩
    cases h
  | ok a => ?_
  constructor
  · intro h
    exact ⟨a,rfl,h⟩
  intro ⟨_,h,hf⟩
  cases h
  exact hf

theorem ok_bind (a : α) (f : α → Except ε β) : (Except.ok a >>= f) = f a := rfl

theorem foldlM_outcome {γ : Type} {f : α → γ → Except ε α} {g : β → γ → Except ε β} {l : List γ}
    (h : ∀ a b, ∀ x ∈ l, (fun _ => ()) <$> f a x = (fun _ => ()) <$> g b x) (a : α) (b : β) :
    (fun _ => ()) <$> l.foldlM f a = (fun _ => ()) <$> l.foldlM g b := by
  induction l generalizing a b with
  | nil => rfl
  | cons x l ih => ?_
  have hx := h a b x mem_cons_self
  rw [foldlM_cons,foldlM_cons]
  cases hf : f a x with
  | error e => ?_
  | ok a' =>
    cases hg : g b x with
    | error e' => rw [hf,hg] at hx; cases hx
    | ok b' => exact ih (fun c d y hy => h c d y (mem_cons_of_mem x hy)) a' b'
  cases hg : g b x with
  | error e' =>
    rw [hf,hg] at hx
    cases hx
    rfl
  | ok b' => rw [hf,hg] at hx; cases hx

theorem mapError_eq_ok {ε' : Type} {x : Except ε α} {f : ε → ε'} {a : α} :
    x.mapError f = .ok a ↔ x = .ok a := by
  cases x with
  | error e => exact ⟨fun h => (nomatch h),fun h => (nomatch h)⟩
  | ok b => exact ⟨fun h => by cases h; rfl,fun h => by cases h; rfl⟩

theorem state_bind_eq_ok {x : StateT σ (Except ε) α} {f : α → StateT σ (Except ε) β} {s : σ}
    {r : β × σ} :
    (x >>= f) s = .ok r ↔ ∃ a t, x s = .ok (a,t) ∧ f a t = .ok r := by
  constructor
  · intro h
    obtain ⟨⟨a,t⟩,hx,hf⟩ := (bind_eq_ok).mp h
    exact ⟨a,t,hx,hf⟩
  intro ⟨a,t,hx,hf⟩
  exact (bind_eq_ok).mpr ⟨(a,t),hx,hf⟩

theorem state_pure_eq_ok {a : α} {s : σ} {r : α × σ} :
    (pure a : StateT σ (Except ε) α) s = .ok r ↔ r = (a,s) := by
  constructor
  · intro h
    exact (Except.ok.inj h).symm
  intro h
  rw [h]
  rfl

/-- From a state of the precondition, a success ends in the postcondition. -/
def Triple (P : σ → Prop) (m : StateT σ (Except ε) α) (Q : α → σ → Prop) : Prop :=
  ∀ s a t, P s → m s = .ok (a,t) → Q a t

namespace Triple
variable {P P' : σ → Prop} {Q Q' : α → σ → Prop} {R : β → σ → Prop}

theorem pure {a : α} (h : ∀ s, P s → Q a s) : Triple P (pure a : StateT σ (Except ε) α) Q := by
  intro s b t hs hrun
  cases (state_pure_eq_ok).mp hrun
  exact h s hs

theorem bind {m : StateT σ (Except ε) α} {f : α → StateT σ (Except ε) β} (hm : Triple P m Q)
    (hf : ∀ a, Triple (Q a) (f a) R) : Triple P (m >>= f) R := by
  intro s b t hs hrun
  obtain ⟨a,u,hfirst,hrest⟩ := (state_bind_eq_ok).mp hrun
  exact hf a u b t (hm s a u hs hfirst) hrest

theorem mono {m : StateT σ (Except ε) α} (hm : Triple P m Q) (hP : ∀ s, P' s → P s)
    (hQ : ∀ a s, Q a s → Q' a s) : Triple P' m Q' :=
  fun s a t hs hrun => hQ a t (hm s a t (hP s hs) hrun)

theorem forM {γ : Type} {l : List γ} {body : γ → StateT σ (Except ε) PUnit}
    (h : ∀ x ∈ l, Triple P (body x) fun _ => P) : Triple P (l.forM body) fun _ => P := by
  induction l with
  | nil => exact pure fun _ hs => hs
  | cons x l ih =>
    refine bind (h x mem_cons_self) fun _ => ?_
    exact ih fun y hy => h y (mem_cons_of_mem _ hy)

end Triple
end CratonVM.Outcome
namespace CratonVM.ByteReader
/-- One read, from a position to a value and the position behind it. -/
abbrev Read (ε α : Type) := StateT Nat (Except ε) α

variable {ε α β : Type}

theorem bind_ok {x : Read ε α} {f : α → Read ε β} {pos stop : Nat} {b : β} :
    (x >>= f) pos = .ok (b,stop) ↔ ∃ a mid, x pos = .ok (a,mid) ∧ f a mid = .ok (b,stop) := by
  show (x pos >>= fun p => f p.1 p.2) = .ok (b,stop) ↔ _
  cases hx : x pos with
  | error e => simp [bind,Except.bind]
  | ok p =>
    obtain ⟨a,mid⟩ := p
    simp [bind,Except.bind]

theorem pure_ok {a b : α} {pos stop : Nat} :
    (pure a : Read ε α) pos = .ok (b,stop) ↔ b = a ∧ stop = pos := by
  show (Except.ok (a,pos) : Except ε (α × Nat)) = .ok (b,stop) ↔ _
  simp [eq_comm]

theorem throw_ok {e : ε} {b : α} {pos stop : Nat} :
    ¬(throw e : Read ε α) pos = .ok (b,stop) := by
  intro h
  cases h

def Starts (data : List UInt8) (pos : Nat) (bytes : List UInt8) : Prop := bytes <+: data.drop pos

@[simp] theorem starts_nil (data : List UInt8) (pos : Nat) : Starts data pos [] := List.nil_prefix

theorem starts_append {data : List UInt8} {pos : Nat} {xs ys : List UInt8} :
    Starts data pos (xs++ys) ↔ Starts data pos xs ∧ Starts data (pos+xs.length) ys := by
  unfold Starts
  rw [← List.drop_drop]
  constructor
  · rintro ⟨rest,h⟩
    rw [← h]
    simp
  rintro ⟨⟨rest,h⟩,hy⟩
  rw [← h,List.drop_left] at hy
  obtain ⟨tail,rfl⟩ := hy
  exact ⟨tail,by rw [← h]; simp⟩

theorem starts_cons {data : List UInt8} {pos : Nat} {x : UInt8} {xs : List UInt8} :
    Starts data pos (x::xs) ↔ data[pos]? = some x ∧ Starts data (pos+1) xs := by
  have h := @starts_append data pos [x] xs
  rw [List.singleton_append] at h
  rw [h]
  refine and_congr ?_ Iff.rfl
  unfold Starts
  rw [← List.head?_drop]
  cases data.drop pos <;> simp [eq_comm]

/-- The reader succeeds exactly where the encoding of a legal value stands, and stops behind it. -/
def Decodes (r : List UInt8 → Read ε α) (encode : α → List UInt8) (legal : α → Prop) : Prop :=
  ∀ data pos a stop, r data pos = .ok (a,stop) ↔
    legal a ∧ Starts data pos (encode a) ∧ stop = pos+(encode a).length

/-- The loop `for _ in 0..count` that reads one value in each turn. -/
def times (r : List UInt8 → Read ε α) (data : List UInt8) : Nat → Read ε (List α)
  | 0 => pure []
  | count+1 => do
    let a ← r data
    let rest ← times r data count
    return a::rest

theorem times_decodes {r : List UInt8 → Read ε α} {encode : α → List UInt8} {legal : α → Prop}
    (h : Decodes r encode legal) (count : Nat) :
    Decodes (fun data => times r data count) (fun as => as.flatMap encode)
      (fun as => as.length = count ∧ ∀ a ∈ as, legal a) := by
  induction count with
  | zero =>
    intro data pos as stop
    simp only [times,pure_ok]
    constructor
    · rintro ⟨rfl,rfl⟩
      simp
    rintro ⟨⟨hlen,-⟩,-,rfl⟩
    obtain rfl := List.length_eq_zero_iff.mp hlen
    simp
  | succ count ih => ?_
  intro data pos as stop
  simp only [times,bind_ok,pure_ok,h data,ih data]
  constructor
  · rintro ⟨a,_,⟨ha,hs,rfl⟩,rest,_,⟨⟨hlen,hl⟩,hs',rfl⟩,rfl,rfl⟩
    refine ⟨⟨by simp [hlen],?_⟩,?_,?_⟩
    · intro b hb
      rcases List.mem_cons.mp hb with rfl | hb
      · exact ha
      · exact hl b hb
    · exact (starts_append).mpr ⟨hs,hs'⟩
    · simp [List.flatMap_cons,Nat.add_assoc]
  rintro ⟨⟨hlen,hl⟩,hs,rfl⟩
  cases as with
  | nil => simp at hlen
  | cons a rest =>
    obtain ⟨hs,hs'⟩ := (starts_append).mp hs
    refine ⟨a,_,⟨hl a (by simp),hs,rfl⟩,rest,_,⟨⟨by simpa using hlen,?_⟩,hs',rfl⟩,rfl,?_⟩
    · exact fun b hb => hl b (List.mem_cons_of_mem _ hb)
    · simp [List.flatMap_cons,Nat.add_assoc]

end CratonVM.ByteReader
