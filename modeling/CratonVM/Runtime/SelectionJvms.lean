import CratonVM.Runtime.VtableSelection

/-!
Method selection against JVMS 5.4.6: the superinterface closure, the maximally-specific methods in
it, and what `select_uncached` answers.
-/
namespace CratonVM.Runtime
open ClassLoading List Option Prod
section
variable (store : ClassStore) (name descriptor : String)

def Lists (a b : ClassId) : Prop := ∃ c, store.get a = some c ∧ b ∈ c.interfaces

/-- One level up: to a listed interface, from a class also to its superclass. -/
def Above (a b : ClassId) : Prop :=
  ∃ c, store.get a = some c ∧
    (b ∈ c.interfaces ∨ (c.isInterface = false ∧ c.superclass = some b))

def IsSuperinterface (a x : ClassId) : Prop :=
  Relation.ReflTransGen (Above store) a x ∧ x ≠ a ∧ ∃ c, store.get x = some c ∧ c.isInterface = true

/-- An interface declares the method, neither private nor static. -/
def Offers (x : ClassId) (m : ClassFileMethod) : Prop :=
  methodAt store name descriptor x = some (m,x) ∧ m.isPrivate = false ∧ m.isStatic = false

/-- A declaration in a superinterface that no declaration in a strict subinterface shadows. -/
def MaximallySpecific (receiver x : ClassId) (m : ClassFileMethod) : Prop :=
  IsSuperinterface store receiver x ∧ Offers store name descriptor x m ∧
    ∀ y k, IsSuperinterface store receiver y → Offers store name descriptor y k → y ≠ x →
      ¬Relation.TransGen (Lists store) y x

def chainAnswer (start : Option Declared) (m : ClassFileMethod) (d : ClassId) : Selection :=
  if start = none ∧ ¬m.isPublic then .notPublic d
  else if m.isAbstract then .abstractMethod (some d)
  else .selected d

/-- JVMS 5.4.6. -/
inductive SelectionRule (receiver : ClassId) (resolved : ResolvedRef) : Selection → Prop where
  | privateMethod {d : ClassId} (h : PrivateResolved store name descriptor resolved d) :
      SelectionRule receiver resolved (.selected d)
  | onChain {start : Option Declared} {l : List ClassId} {m : ClassFileMethod} {d : ClassId}
      (hstart : Compares store name descriptor resolved start) (hl : LineageTo store receiver l d)
      (hfirst : ∀ x ∈ l, ∀ k, ¬Takes store name descriptor start k x)
      (htake : Takes store name descriptor start m d) :
      SelectionRule receiver resolved (chainAnswer start m d)
  | default {start : Option Declared} {m : ClassFileMethod} {d : ClassId}
      (hstart : Compares store name descriptor resolved start)
      (hnone : ∀ x, OnChain store receiver x → ∀ k, ¬Takes store name descriptor start k x)
      (hmax : MaximallySpecific store name descriptor receiver d m) (hm : m.isAbstract = false)
      (honly : ∀ x k, MaximallySpecific store name descriptor receiver x k →
        k.isAbstract = false → x = d) :
      SelectionRule receiver resolved (.selected d)
  | conflicting {start : Option Declared} {m m' : ClassFileMethod} {d d' : ClassId}
      (hstart : Compares store name descriptor resolved start)
      (hnone : ∀ x, OnChain store receiver x → ∀ k, ¬Takes store name descriptor start k x)
      (hmax : MaximallySpecific store name descriptor receiver d m) (hm : m.isAbstract = false)
      (hmax' : MaximallySpecific store name descriptor receiver d' m') (hm' : m'.isAbstract = false)
      (hne : d ≠ d') : SelectionRule receiver resolved (.conflictingDefaults d d')
  | noDefault {start : Option Declared}
      (hstart : Compares store name descriptor resolved start)
      (hnone : ∀ x, OnChain store receiver x → ∀ k, ¬Takes store name descriptor start k x)
      (hmax : ∀ x k, MaximallySpecific store name descriptor receiver x k → k.isAbstract = true) :
      SelectionRule receiver resolved (.abstractMethod none)

/-- The reference is to an interface, or the resolved method is an instance method of a class
file. -/
def ResolvesInstance : ResolvedRef → Prop
  | .interface _ => True
  | .declared declaring => ∃ d m, store.get declaring = some d ∧ d.origin.hasRealBytes = true ∧
      d.findMethod name descriptor = some m ∧ m.isStatic = false

end

variable {store : ClassStore} {name descriptor : String}

section
variable {a b : ClassId}

theorem reaches_of_above (h : Above store a b) : Edge store.get a b := by
  obtain ⟨c,hc,hb | ⟨-,hb⟩⟩ := h
  · exact ⟨c,hc,mem_edgesOf.mpr (.inr hb)⟩
  · exact ⟨c,hc,mem_edgesOf.mpr (.inl hb)⟩

theorem reaches_of_lists (h : Lists store a b) : Edge store.get a b := by
  obtain ⟨c,hc,hb⟩ := h
  exact ⟨c,hc,mem_edgesOf.mpr (.inr hb)⟩

end

section
theorem mem_closurePush {c : ClassLoading.Class} {rest : List ClassId} {x : ClassId} :
    x ∈ (if c.isInterface then c.interfaces++rest else c.superclass.toList++(c.interfaces++rest)) ↔
      (x ∈ c.interfaces ∨ (c.isInterface = false ∧ c.superclass = some x)) ∨ x ∈ rest := by
  cases c.isInterface with
  | true => simp
  | false =>
    simp only [Bool.false_eq_true,if_false,mem_append,mem_toList,true_and]
    tauto

/-- The state of the walk from a class. -/
structure Walked (store : ClassStore) (start : ClassId) (stack visited out : List ClassId) : Prop where
  nodup : visited.Nodup
  reached : ∀ x, x ∈ visited ∨ x ∈ stack → Relation.ReflTransGen (Above store) start x
  pending : ∀ x ∈ visited, ∀ y, Above store x y → y ∈ visited ∨ y ∈ stack
  listed : out.Nodup ∧ ∀ x, x ∈ out ↔
    x ∈ visited ∧ x ≠ start ∧ ∃ c, store.get x = some c ∧ c.isInterface = true

variable {visited out stack : List ClassId}

theorem Walked.drop {start : ClassId} {stack' : List ClassId}
    (h : Walked store start stack visited out) (hdrop : stack.dropWhile (· ∈ visited) = stack') :
    Walked store start stack' visited out := by
  refine ⟨h.nodup,fun x hx => h.reached x ?_,fun x hx y hy => ?_,h.listed⟩
  · refine hx.imp_right fun hx => ?_
    rw [← hdrop] at hx
    exact (dropWhile_sublist _).subset hx
  rcases h.pending x hx y hy with hy | hy
  · exact .inl hy
  rw [← hdrop]
  exact dropWhile_seen stack visited hy

theorem Walked.visit {start id : ClassId} {c : ClassLoading.Class}
    (h : Walked store start (id::stack) visited out) (hnew : id ∉ visited)
    (hc : store.get id = some c) :
    Walked store start
      (if c.isInterface then c.interfaces++stack else c.superclass.toList++(c.interfaces++stack))
      (id::visited) (if id ≠ start ∧ c.isInterface then out++[id] else out) := by
  have hid := h.reached id (.inr (by simp))
  refine ⟨nodup_cons.mpr ⟨hnew,h.nodup⟩,fun x hx => ?_,fun x hx y hy => ?_,?_⟩
  · rcases hx with hx | hx
    · rcases mem_cons.mp hx with rfl | hx
      · exact hid
      · exact h.reached x (.inl hx)
    rcases mem_closurePush.mp hx with hx | hx
    · exact hid.tail ⟨c,hc,hx⟩
    · exact h.reached x (.inr (by simp [hx]))
  · rw [mem_cons,mem_closurePush]
    rcases mem_cons.mp hx with rfl | hx
    · obtain ⟨c',hc',hy⟩ := hy
      obtain rfl := some.inj (hc.symm.trans hc')
      exact .inr (.inl hy)
    rcases h.pending x hx y hy with hy | hy
    · exact .inl (.inr hy)
    rcases mem_cons.mp hy with rfl | hy
    · exact .inl (.inl rfl)
    · exact .inr (.inr hy)
  obtain ⟨hnd,hmem⟩ := h.listed
  split
  · rename_i hout
    refine ⟨?_,fun x => ?_⟩
    · rw [nodup_append]
      refine ⟨hnd,by simp,fun x hx y hy heq => hnew ?_⟩
      rw [← mem_singleton.mp hy,← heq]
      exact ((hmem x).mp hx).1
    rw [mem_append,hmem,mem_singleton,mem_cons]
    constructor
    · rintro (⟨hv,hrest⟩ | rfl)
      · exact ⟨.inr hv,hrest⟩
      · exact ⟨.inl rfl,hout.1,c,hc,hout.2⟩
    rintro ⟨rfl | hv,hrest⟩
    · exact .inr rfl
    · exact .inl ⟨hv,hrest⟩
  rename_i hout
  refine ⟨hnd,fun x => ?_⟩
  rw [hmem,mem_cons]
  constructor
  · rintro ⟨hv,hrest⟩
    exact ⟨.inr hv,hrest⟩
  rintro ⟨rfl | hv,hne,c',hc',hi⟩
  · obtain rfl := some.inj (hc.symm.trans hc')
    exact absurd ⟨hne,hi⟩ hout
  · exact ⟨hv,hne,c',hc',hi⟩

theorem Walked.exact {start : ClassId}
    (h : Walked store start [] visited out) (hstart : start ∈ visited) :
    out.Nodup ∧ ∀ x, x ∈ out ↔ IsSuperinterface store start x := by
  have hall : ∀ x, Relation.ReflTransGen (Above store) start x → x ∈ visited := by
    intro x hx
    induction hx with
    | refl => exact hstart
    | tail _ hxy ih => exact (h.pending _ ih _ hxy).resolve_right (by simp)
  refine ⟨h.listed.1,fun x => ?_⟩
  rw [h.listed.2]
  exact ⟨fun ⟨hv,hrest⟩ => ⟨h.reached x (.inl hv),hrest⟩,fun ⟨hr,hrest⟩ => ⟨hall x hr,hrest⟩⟩

def AllStored (store : ClassStore) (start : ClassId) : Prop :=
  ∀ x, Reaches store.get start x → ∃ c, store.get x = some c

variable {start : ClassId}

theorem closureLoop_exact (hstored : AllStored store start)
    (hbound : ReachesAtMost store.get start maxSelectionNodes) (left : Nat) (hleft : left+visited.length = maxSelectionNodes)
    (h : Walked store start stack visited out) (hstart : start ∈ visited ∨ start ∈ stack) :
    ∃ closure, closureLoop store start left stack visited out = some closure ∧ closure.Nodup ∧
      ∀ x, x ∈ closure ↔ IsSuperinterface store start x := by
  have hreaches : ∀ x, Relation.ReflTransGen (Above store) start x →
      Reaches store.get start x :=
    fun x hx => Relation.ReflTransGen.mono (fun _ _ => reaches_of_above) _ _ hx
  induction left generalizing stack visited out with
  | zero =>
    rw [closureLoop]
    have hdrop := h.drop rfl
    cases hs : stack.dropWhile (· ∈ visited) with
    | nil =>
      rw [hs] at hdrop
      refine ⟨out,rfl,hdrop.exact (hstart.elim id fun hst => ?_)⟩
      simpa [hs] using dropWhile_seen stack visited hst
    | cons id rest => ?_
    rw [hs] at hdrop
    have hnew := (head_dropWhile_seen hs).1
    have hle := hbound.length_le (nodup_cons.mpr ⟨hnew,h.nodup⟩) fun x hx => by
      refine hreaches x (hdrop.reached x ?_)
      rcases mem_cons.mp hx with rfl | hx
      · exact .inr (by simp)
      · exact .inl hx
    rw [length_cons] at hle
    omega
  | succ left ih => ?_
  rw [closureLoop]
  have hdrop := h.drop rfl
  have hstart' : start ∈ visited ∨ start ∈ stack.dropWhile (· ∈ visited) :=
    hstart.elim .inl fun hst => dropWhile_seen stack visited hst
  cases hs : stack.dropWhile (· ∈ visited) with
  | nil =>
    rw [hs] at hdrop hstart'
    exact ⟨out,rfl,hdrop.exact (hstart'.resolve_right (by simp))⟩
  | cons id rest => ?_
  rw [hs] at hdrop hstart'
  have hnew := (head_dropWhile_seen hs).1
  obtain ⟨c,hc⟩ := hstored id (hreaches id (hdrop.reached id (.inr (by simp))))
  simp only [hc]
  refine ih (by simp; omega) (hdrop.visit hnew hc) ?_
  rw [mem_cons,mem_closurePush]
  rcases hstart' with hv | hv
  · exact .inl (.inr hv)
  rcases mem_cons.mp hv with rfl | hv
  · exact .inl (.inl rfl)
  · exact .inr (.inr hv)

theorem superinterfaceClosure_exact (hstored : AllStored store start)
    (hbound : ReachesAtMost store.get start maxSelectionNodes) :
    ∃ closure, superinterfaceClosure store start = some closure ∧ closure.Nodup ∧
      ∀ x, x ∈ closure ↔ IsSuperinterface store start x := by
  refine closureLoop_exact hstored hbound maxSelectionNodes (by simp) ?_ (by simp)
  refine ⟨by simp,fun x hx => ?_,by simp,by simp⟩
  obtain rfl : x = start := by simpa using hx
  exact .refl

end

section
variable {sup : ClassId}
variable {stack seen : List ClassId}

theorem head_dropWhile_other {rest : List ClassId} {id : ClassId}
    (h : (stack.dropWhile fun x => decide (x ≠ sup ∧ x ∈ seen)) = id::rest) :
    (id = sup ∨ id ∉ seen) ∧ id ∈ stack ∧ ∀ x ∈ rest, x ∈ stack := by
  have hsub : ∀ x ∈ id::rest, x ∈ stack := fun x hx => (dropWhile_sublist _).subset (h ▸ hx)
  refine ⟨?_,hsub id (by simp),fun x hx => hsub x (by simp [hx])⟩
  have hne : (stack.dropWhile fun x => decide (x ≠ sup ∧ x ∈ seen)) ≠ [] := by
    rw [h]
    simp
  have hhead := head_dropWhile_not (fun x => decide (x ≠ sup ∧ x ∈ seen)) hne
  simp only [h,head_cons,decide_eq_false_iff_not,not_and] at hhead
  by_cases hid : id = sup
  · exact .inl hid
  · exact .inr (hhead hid)

theorem dropWhile_other (stack seen : List ClassId) {x : ClassId} (hx : x ∈ stack) :
    (x ≠ sup ∧ x ∈ seen) ∨ x ∈ stack.dropWhile fun x => decide (x ≠ sup ∧ x ∈ seen) := by
  induction stack with
  | nil => cases hx
  | cons y stack ih => ?_
  by_cases hy : y ≠ sup ∧ y ∈ seen
  · rw [dropWhile_cons_of_pos (by simpa using hy)]
    rcases mem_cons.mp hx with rfl | hx
    · exact .inl hy
    · exact ih hx
  rw [dropWhile_cons_of_neg (by simpa using hy)]
  exact .inr hx

theorem superinterfaceLoop_sound {left : Nat}
    (h : superinterfaceLoop store sup left stack seen = true) :
    ∃ y ∈ stack, Relation.ReflTransGen (Lists store) y sup := by
  induction left generalizing stack seen with
  | zero =>
    rw [superinterfaceLoop] at h
    split at h
    · cases h
    rename_i id rest hdrop
    obtain ⟨-,hid,hrest⟩ := head_dropWhile_other hdrop
    split at h
    · rename_i heq
      exact ⟨id,hid,heq ▸ .refl⟩
    · exact ⟨sup,hrest sup (by simpa using h),.refl⟩
  | succ left ih => ?_
  rw [superinterfaceLoop] at h
  split at h
  · cases h
  rename_i id rest hdrop
  obtain ⟨-,hid,hrest⟩ := head_dropWhile_other hdrop
  split at h
  · rename_i heq
    exact ⟨id,hid,heq ▸ .refl⟩
  cases hc : store.get id with
  | none =>
    simp only [hc] at h
    obtain ⟨y,hy,hr⟩ := ih h
    exact ⟨y,hrest y hy,hr⟩
  | some c => ?_
  simp only [hc] at h
  obtain ⟨y,hy,hr⟩ := ih h
  rcases mem_append.mp hy with hy | hy
  · exact ⟨id,hid,.head ⟨c,hc,mem_reverse.mp hy⟩ hr⟩
  · exact ⟨y,hrest y hy,hr⟩

theorem superinterfaceLoop_missed {inside : ClassId → Prop} {bound : Nat}
    (hbound : ∀ l : List ClassId, l.Nodup → (∀ x ∈ l, inside x) → l.length ≤ bound)
    (hclosed : ∀ x y, inside x → Lists store x y → inside y) {left : Nat}
    (hleft : left+seen.length = bound) (hnd : seen.Nodup) (hsup : sup ∉ seen)
    (hinside : ∀ x, x ∈ seen ∨ x ∈ stack → inside x)
    (hpending : ∀ x ∈ seen, ∀ y, Lists store x y → y ∈ seen ∨ y ∈ stack)
    (h : superinterfaceLoop store sup left stack seen = false) :
    ∃ out : List ClassId, sup ∉ out ∧ (∀ x, x ∈ seen ∨ x ∈ stack → x ∈ out) ∧
      ∀ x ∈ out, ∀ y, Lists store x y → y ∈ out := by
  induction left generalizing stack seen with
  | zero =>
    rw [superinterfaceLoop] at h
    split at h
    · rename_i hnil
      have hstack : ∀ x ∈ stack, x ∈ seen := fun x hx => by
        have := @dropWhile_other sup stack seen x hx
        rw [hnil] at this
        exact (this.resolve_right (by simp)).2
      exact ⟨seen,hsup,fun x hx => hx.elim id (hstack x),
        fun x hx y hy => (hpending x hx y hy).elim id (hstack y)⟩
    rename_i id rest hdrop
    obtain ⟨hnew,hid,hrest⟩ := head_dropWhile_other hdrop
    split at h
    · cases h
    rename_i hne
    have hle := hbound (id::seen) (nodup_cons.mpr ⟨hnew.resolve_left hne,hnd⟩) fun x hx => by
      rcases mem_cons.mp hx with rfl | hx
      · exact hinside x (.inr hid)
      · exact hinside x (.inl hx)
    rw [length_cons] at hle
    omega
  | succ left ih => ?_
  rw [superinterfaceLoop] at h
  split at h
  · rename_i hnil
    have hstack : ∀ x ∈ stack, x ∈ seen := fun x hx => by
      have := @dropWhile_other sup stack seen x hx
      rw [hnil] at this
      exact (this.resolve_right (by simp)).2
    exact ⟨seen,hsup,fun x hx => hx.elim id (hstack x),
      fun x hx y hy => (hpending x hx y hy).elim id (hstack y)⟩
  rename_i id rest hdrop
  obtain ⟨hnew,hid,hrest⟩ := head_dropWhile_other hdrop
  have hstack : ∀ x ∈ stack, x ∈ id::seen ∨ x ∈ rest := by
    intro x hx
    rcases @dropWhile_other sup stack seen x hx with hx | hx
    · exact .inl (by simp [hx.2])
    rw [hdrop] at hx
    rcases mem_cons.mp hx with rfl | hx
    · exact .inl (by simp)
    · exact .inr hx
  split at h
  · cases h
  rename_i hne
  have hnd' : (id::seen).Nodup := nodup_cons.mpr ⟨hnew.resolve_left hne,hnd⟩
  have hsup' : sup ∉ id::seen := by
    rw [mem_cons,not_or]
    exact ⟨Ne.symm hne,hsup⟩
  have hseen' : ∀ x ∈ id::seen, inside x := by
    intro x hx
    rcases mem_cons.mp hx with rfl | hx
    · exact hinside x (.inr hid)
    · exact hinside x (.inl hx)
  -- the stack of the next turn
  obtain ⟨next,hloop,hnext⟩ : ∃ next,
      superinterfaceLoop store sup left next (id::seen) = false ∧
      ∀ x, x ∈ next ↔ Lists store id x ∨ x ∈ rest := by
    cases hc : store.get id with
    | none =>
      simp only [hc] at h
      exact ⟨rest,h,by simp [Lists,hc]⟩
    | some c =>
      simp only [hc] at h
      exact ⟨_,h,by simp [Lists,hc]⟩
  obtain ⟨out,h1,h2,h3⟩ := ih (by simp; omega) hnd' hsup' (fun x hx => by
      rcases hx with hx | hx
      · exact hseen' x hx
      · rcases (hnext x).mp hx with hx | hx
        · exact hclosed id x (hinside id (.inr hid)) hx
        · exact hinside x (.inr (hrest x hx))) (fun x hx y hy => by
      rcases mem_cons.mp hx with rfl | hx
      · exact .inr ((hnext y).mpr (.inl hy))
      rcases hpending x hx y hy with hy | hy
      · exact .inl (by simp [hy])
      · exact (hstack y hy).imp_right fun hy => (hnext y).mpr (.inr hy)) hloop
  refine ⟨out,h1,fun x hx => ?_,h3⟩
  rcases hx with hx | hx
  · exact h2 x (.inl (by simp [hx]))
  · exact h2 x ((hstack x hx).imp_right fun hx => (hnext x).mpr (.inr hx))

theorem isSuperinterfaceOf_iff {sub : ClassId}
    (hbound : ReachesAtMost store.get sub maxSelectionNodes) :
    isSuperinterfaceOf store sup sub = true ↔ Relation.TransGen (Lists store) sub sup := by
  cases hc : store.get sub with
  | none =>
    simp only [isSuperinterfaceOf,hc,Bool.false_eq_true,false_iff]
    intro h
    obtain ⟨b,⟨c,hc',-⟩,-⟩ := Relation.TransGen.head'_iff.mp h
    rw [hc] at hc'
    cases hc'
  | some c => ?_
  simp only [isSuperinterfaceOf,hc]
  constructor
  · intro h
    obtain ⟨y,hy,hr⟩ := superinterfaceLoop_sound h
    exact Relation.TransGen.head' ⟨c,hc,mem_reverse.mp hy⟩ hr
  intro h
  by_contra hfalse
  obtain ⟨out,hsup,hstack,hclosed⟩ := superinterfaceLoop_missed
    (fun l hl hin => hbound.length_le hl hin)
    (fun x y hx hy => hx.tail (reaches_of_lists hy)) (by simp) nodup_nil (by simp)
    (fun x hx => by
      have hx : x ∈ c.interfaces := by simpa using hx
      exact .single (reaches_of_lists ⟨c,hc,hx⟩))
    (by simp) (Bool.eq_false_iff.mpr hfalse)
  obtain ⟨b,⟨c',hc',hb⟩,hr⟩ := Relation.TransGen.head'_iff.mp h
  obtain rfl := some.inj (hc.symm.trans hc')
  have hall : ∀ x, Relation.ReflTransGen (Lists store) b x → x ∈ out := by
    intro x hx
    induction hx with
    | refl => exact hstack b (.inr (by simpa using hb))
    | tail _ hxy ih => exact hclosed _ ih _ hxy
  exact hsup (hall sup hr)

end

section
variable {receiver : ClassId}

theorem candidateAt_eq {x : ClassId} {p : ClassId × Bool} :
    candidateAt store name descriptor x = some p ↔
      ∃ m, Offers store name descriptor x m ∧ p = (x,m.isAbstract) := by
  unfold candidateAt Offers methodAt
  cases hc : store.get x with
  | none => simp
  | some c => ?_
  cases hm : c.findMethod name descriptor with
  | none => simp [hm]
  | some m => ?_
  have hat : ∀ k, ((some c).bind (Class.findMethod · name descriptor)).map (fun m => (m,x)) =
      some (k,x) ↔ m = k := by simp [hm]
  simp only [hm,hat]
  constructor
  · intro h
    split at h
    · cases h
    rename_i hflags
    rw [Bool.not_eq_true,Bool.or_eq_false_iff] at hflags
    exact ⟨m,⟨rfl,hflags⟩,(some.inj h).symm⟩
  rintro ⟨k,⟨rfl,hp,hs⟩,rfl⟩
  simp [hp,hs]

theorem IsSuperinterface.reaches {x : ClassId} (h : IsSuperinterface store receiver x) :
    Reaches store.get receiver x :=
  Relation.ReflTransGen.mono (fun _ _ => reaches_of_above) _ _ h.1

theorem maximallySpecific_exact (hstored : AllStored store receiver)
    (hbound : ReachesAtMost store.get receiver maxSelectionNodes) :
    ∃ maximal, maximallySpecific store name descriptor receiver = some maximal ∧
      (maximal.map fst).Nodup ∧
      ∀ x a, (x,a) ∈ maximal ↔
        ∃ m, MaximallySpecific store name descriptor receiver x m ∧ m.isAbstract = a := by
  obtain ⟨closure,hclosure,hnd,hmem⟩ := superinterfaceClosure_exact hstored hbound
  unfold maximallySpecific
  simp only [hclosure,some.injEq,exists_eq_left']
  have hcand : ∀ x a, (x,a) ∈ closure.filterMap (candidateAt store name descriptor) ↔
      ∃ m, IsSuperinterface store receiver x ∧ Offers store name descriptor x m ∧
        m.isAbstract = a := by
    intro x a
    simp only [mem_filterMap,candidateAt_eq,hmem]
    constructor
    · rintro ⟨y,hy,m,hm,heq⟩
      obtain ⟨rfl,rfl⟩ := mk.inj heq
      exact ⟨m,hy,hm,rfl⟩
    rintro ⟨m,hx,hm,rfl⟩
    exact ⟨x,hx,m,hm,rfl⟩
  have hsup : ∀ x y, IsSuperinterface store receiver y →
      (isSuperinterfaceOf store x y = true ↔ Relation.TransGen (Lists store) y x) := by
    intro x y hy
    refine isSuperinterfaceOf_iff ((Set.encard_le_encard fun z hz => ?_).trans hbound)
    exact Relation.ReflTransGen.trans hy.reaches hz
  refine ⟨?_,fun x a => ?_⟩
  · have hsub : ((closure.filterMap (candidateAt store name descriptor)).map fst).Nodup := by
      rw [map_filterMap]
      refine List.Nodup.filterMap (fun x y z hx hy => ?_) hnd
      obtain ⟨p,hp,rfl⟩ := map_eq_some_iff.mp hx
      obtain ⟨q,hq,heq⟩ := map_eq_some_iff.mp hy
      obtain ⟨m,-,rfl⟩ := candidateAt_eq.mp hp
      obtain ⟨k,-,rfl⟩ := candidateAt_eq.mp hq
      exact heq.symm
    exact List.Nodup.sublist (List.Sublist.map _ filter_sublist) hsub
  rw [mem_filter,hcand]
  simp only [Bool.not_eq_true',List.any_eq_false,decide_eq_true_eq,not_and,Prod.forall,hcand]
  constructor
  · rintro ⟨⟨m,hx,hm,rfl⟩,hno⟩
    refine ⟨m,⟨hx,hm,fun y k hy hk hne hlists => ?_⟩,rfl⟩
    exact hno y k.isAbstract ⟨k,hy,hk,rfl⟩ hne ((hsup x y hy).mpr hlists)
  rintro ⟨m,⟨hx,hm,hno⟩,rfl⟩
  refine ⟨⟨m,hx,hm,rfl⟩,fun y b hy hne hlists => ?_⟩
  obtain ⟨k,hy,hk,-⟩ := hy
  exact hno y k hy hk hne ((hsup x y hy).mp hlists)

end

section
variable {a : ClassId} {l : List ClassId}

theorem Lineage.length_eq {l' : List ClassId} (h : Lineage store a l) (h' : Lineage store a l') :
    l.length = l'.length := by
  induction h generalizing l' with
  | root hc hs =>
    cases h' with
    | root => rfl
    | up hc' hs' =>
      obtain rfl := some.inj (hc.symm.trans hc')
      rw [hs] at hs'
      cases hs'
  | up hc hs _ ih => ?_
  cases h' with
  | root hc' hs' =>
    obtain rfl := some.inj (hc.symm.trans hc')
    rw [hs] at hs'
    cases hs'
  | up hc' hs' h' =>
    obtain rfl := some.inj (hc.symm.trans hc')
    obtain rfl := some.inj (hs.symm.trans hs')
    rw [length_cons,length_cons,ih h']

theorem Lineage.suffix (h : Lineage store a l) {x : ClassId} (hx : x ∈ l) :
    ∃ l', Lineage store x l' ∧ l'.length ≤ l.length := by
  induction h with
  | root hc hs =>
    obtain rfl := mem_singleton.mp hx
    exact ⟨_,.root hc hs,le_rfl⟩
  | up hc hs h ih =>
    rcases mem_cons.mp hx with rfl | hx
    · exact ⟨_,.up hc hs h,le_rfl⟩
    obtain ⟨l',hl',hle⟩ := ih hx
    exact ⟨l',hl',by rw [length_cons]; omega⟩

theorem Lineage.nodup (h : Lineage store a l) : l.Nodup := by
  induction h with
  | root => simp
  | @up a s c l hc hs h ih => ?_
  refine nodup_cons.mpr ⟨fun hmem => ?_,ih⟩
  obtain ⟨l',hl',hle⟩ := h.suffix hmem
  have := (Lineage.up hc hs h).length_eq hl'
  rw [length_cons] at this
  omega

theorem Lineage.length_le (h : Lineage store a l) {n : Nat} (hbound : ReachesAtMost store.get a n) :
    l.length ≤ n :=
  hbound.length_le h.nodup fun _ hx => reaches_of_onChain (h.onChain hx)

theorem selectOnChain_of_takes {start : Option Declared} (h : Lineage store a l) {left : Nat}
    (hlen : l.length ≤ left) (hsome : ∃ x ∈ l, ∃ k, Takes store name descriptor start k x) :
    ∃ m d, selectOnChain store name descriptor start left (some a) = .taken m d := by
  induction h generalizing left with
  | @root a c hc hs =>
    obtain ⟨x,hx,k,hk⟩ := hsome
    obtain rfl := mem_singleton.mp hx
    obtain ⟨left,rfl⟩ := Nat.exists_eq_add_of_le' hlen
    rcases @selectOnChain_step store name descriptor start left x c hc with ⟨m,-,heq⟩ | ⟨hno,-⟩
    · exact ⟨m,x,heq⟩
    · exact absurd hk (hno k)
  | @up a s c l hc hs h ih => ?_
  cases left with
  | zero => simp at hlen
  | succ left => ?_
  rcases @selectOnChain_step store name descriptor start left a c hc with ⟨m,-,heq⟩ | ⟨hno,heq⟩
  · exact ⟨m,a,heq⟩
  rw [heq,hs]
  obtain ⟨x,hx,k,hk⟩ := hsome
  refine ih (by simpa using hlen) ⟨x,?_,k,hk⟩
  rcases mem_cons.mp hx with rfl | hx
  · exact absurd hk (hno k)
  · exact hx

end

section
variable {receiver : ClassId} {resolved : ResolvedRef} {start : Option Declared}

theorem selectMaximal_rule {maximal : List (ClassId × Bool)}
    (hstart : Compares store name descriptor resolved start)
    (hnone : ∀ x, OnChain store receiver x → ∀ k, ¬Takes store name descriptor start k x)
    (hnd : (maximal.map fst).Nodup)
    (hmem : ∀ x a, (x,a) ∈ maximal ↔
      ∃ m, MaximallySpecific store name descriptor receiver x m ∧ m.isAbstract = a) :
    SelectionRule store name descriptor receiver resolved (selectMaximal maximal) := by
  have hconcrete : ∀ x a, (x,a) ∈ maximal.filter (fun p => !p.2) ↔
      a = false ∧ ∃ m, MaximallySpecific store name descriptor receiver x m ∧ m.isAbstract = false := by
    intro x a
    rw [mem_filter,hmem]
    cases a <;> simp
  have hnd' : ((maximal.filter fun p => !p.2).map fst).Nodup :=
    List.Nodup.sublist (List.Sublist.map _ filter_sublist) hnd
  unfold selectMaximal
  generalize maximal.filter (fun p => !p.2) = concrete at hconcrete hnd' ⊢
  match concrete with
  | [] =>
    refine .noDefault hstart hnone fun x k hk => ?_
    cases habs : k.isAbstract with
    | true => rfl
    | false => exact absurd ((hconcrete x false).mpr ⟨rfl,k,hk,habs⟩) (by simp)
  | [(only,b)] =>
    obtain ⟨-,m,hm,habs⟩ := (hconcrete only b).mp (by simp)
    refine .default hstart hnone hm habs fun x k hk hkabs => ?_
    have := (hconcrete x false).mpr ⟨rfl,k,hk,hkabs⟩
    exact (mk.inj (mem_singleton.mp this)).1
  | (first,b)::(second,b')::rest =>
    obtain ⟨-,m,hm,habs⟩ := (hconcrete first b).mp (by simp)
    obtain ⟨-,m',hm',habs'⟩ := (hconcrete second b').mp (by simp)
    refine .conflicting hstart hnone hm habs hm' habs' fun heq => ?_
    simp [heq] at hnd'

theorem selectFrom_rule (hstart : Compares store name descriptor resolved start)
    (hreal : ClassFilesOnly store receiver)
    (hbound : ReachesAtMost store.get receiver maxSelectionNodes) {l : List ClassId}
    (hl : Lineage store receiver l) :
    SelectionRule store name descriptor receiver resolved
      (selectFrom store name descriptor receiver start) := by
  have hstored : AllStored store receiver := fun x hx => by
    obtain ⟨c,hc,-⟩ := hreal x hx
    exact ⟨c,hc⟩
  obtain ⟨maximal,hmax,hnd,hmem⟩ :=
    @maximallySpecific_exact store name descriptor receiver hstored hbound
  unfold selectFrom
  rw [if_pos (hierarchyIsReal_of_reaches hreal hbound),hmax]
  cases hsel : selectOnChain store name descriptor start maxSelectionNodes (some receiver) with
  | taken m d =>
    obtain ⟨l',hl',-,hfirst,htake⟩ := selectOnChain_taken.mp hsel
    exact .onChain hstart hl' hfirst htake
  | passed =>
    obtain ⟨l',hl',-,hnone⟩ := selectOnChain_passed.mp hsel
    refine selectMaximal_rule hstart (fun x hx => ?_) hnd hmem
    obtain ⟨l'',hx⟩ := hx
    exact hnone x (hl'.mem_of_onChain hx)
  | undecided => ?_
  -- the chain ends within the bound, so the walk decides
  have hlen := hl.length_le hbound
  by_cases hsome : ∃ x ∈ l, ∃ k, Takes store name descriptor start k x
  · obtain ⟨m,d,htaken⟩ := selectOnChain_of_takes hl hlen hsome
    rw [hsel] at htaken
    cases htaken
  have hpassed := selectOnChain_passed.mpr ⟨l,hl,hlen,fun x hx m hm => hsome ⟨x,hx,m,hm⟩⟩
  rw [hsel] at hpassed
  cases hpassed

/-- Method selection follows JVMS 5.4.6 for a receiver whose hierarchy is made of class files, is
within the bound, and whose superclass chain ends. -/
theorem selectUncached_follows_rule (store : ClassStore) (name descriptor : String)
    (receiver : ClassId) (resolved : ResolvedRef) (hinst : Instantiable store receiver)
    (hreal : ClassFilesOnly store receiver)
    (hbound : ReachesAtMost store.get receiver maxSelectionNodes)
    (hchain : ∃ l, Lineage store receiver l)
    (hresolved : ResolvesInstance store name descriptor resolved) :
    SelectionRule store name descriptor receiver resolved
        (selectUncached store name descriptor receiver resolved) ∧
      ∀ start, AllStored store start → ReachesAtMost store.get start maxSelectionNodes →
        ∃ closure, superinterfaceClosure store start = some closure ∧ closure.Nodup ∧
          ∀ x, x ∈ closure ↔ IsSuperinterface store start x := by
  refine ⟨?_,fun start hstored hbound => superinterfaceClosure_exact hstored hbound⟩
  obtain ⟨c,hc,hi,ha⟩ := hinst
  obtain ⟨l,hl⟩ := hchain
  unfold selectUncached
  simp only [hc,hi,ha,Bool.or_self,Bool.false_eq_true,if_false]
  cases resolved with
  | interface id => exact selectFrom_rule rfl hreal hbound hl
  | declared declaring => ?_
  obtain ⟨d,m,hd,hbytes,hm,hstatic⟩ := hresolved
  simp only [hd,hbytes,hm,hstatic,Bool.not_true,Bool.false_eq_true,if_false]
  cases hpriv : m.isPrivate with
  | true => exact .privateMethod ⟨⟨d,m,hd,hbytes,hm,hstatic,hpriv⟩,rfl⟩
  | false =>
    exact selectFrom_rule ⟨d,m,hd,hbytes,hm,hstatic,hpriv,rfl⟩ hreal hbound hl

end

section
/-- `class C implements J, I`, where `J extends I` re-declares the default of `I` as abstract. -/
def maskedDefault : ClassStore :=
  { classes := [
      some { name := "C".toList, interfaces := [1,2] },
      some { name := "J".toList, isInterface := true, isAbstract := true, interfaces := [2]
             methods := [{ name := "m", descriptor := "()V"
                           accessFlags := { isPublic := true, isAbstract := true } }] },
      some { name := "I".toList, isInterface := true, isAbstract := true
             methods := [{ name := "m", descriptor := "()V"
                           accessFlags := { isPublic := true } }] }] }

/-- A class that is its own superclass, and one that is not from a class file. -/
def withoutRoot : ClassStore :=
  { classes := [
      some { name := "C".toList, superclass := some 0 },
      some { name := "P".toList },
      some { name := "D".toList, origin := .compatibilityStub
             methods := [{ name := "m", descriptor := "()V"
                           accessFlags := { isPublic := true } }] }] }

/-- The abstract re-declaration masks the default. -/
theorem selectUncached_maskedDefault :
    selectUncached maskedDefault "m" "()V" 0 (.declared 2) = .abstractMethod none ∧
    SelectionRule maskedDefault "m" "()V" 0 (.declared 2) (.abstractMethod none) := by
  have hsel : selectUncached maskedDefault "m" "()V" 0 (.declared 2) = .abstractMethod none := by
    decide
  obtain ⟨hreal,hbound⟩ := hierarchyIsReal_iff.mp
    (show hierarchyIsReal maskedDefault 0 = true by decide)
  refine ⟨hsel,?_⟩
  rw [← hsel]
  exact (selectUncached_follows_rule maskedDefault "m" "()V" 0 (.declared 2) ⟨_,rfl,rfl,rfl⟩ hreal
    hbound ⟨[0],.root rfl rfl⟩ ⟨_,_,rfl,rfl,by rfl,rfl⟩).1

/-- A chain without an end, and a resolved method that is not from a class file. -/
theorem selection_needs_root_and_class_file :
    (Instantiable withoutRoot 0 ∧ ClassFilesOnly withoutRoot 0 ∧
      ReachesAtMost withoutRoot.get 0 1 ∧
      ¬SelectionRule withoutRoot "m" "()V" 0 (.interface none)
        (selectUncached withoutRoot "m" "()V" 0 (.interface none))) ∧
    Instantiable withoutRoot 1 ∧ ClassFilesOnly withoutRoot 1 ∧
      ReachesAtMost withoutRoot.get 1 1 ∧
      ¬SelectionRule withoutRoot "m" "()V" 1 (.declared 2)
        (selectUncached withoutRoot "m" "()V" 1 (.declared 2)) := by
  have hno : ∀ receiver resolved, ¬SelectionRule withoutRoot "m" "()V" receiver resolved .lenient := by
    intro receiver resolved h
    generalize hsel : Selection.lenient = sel at h
    cases h with
    | onChain =>
      unfold chainAnswer at hsel
      split at hsel
      · cases hsel
      · split at hsel <;> cases hsel
    | _ => cases hsel
  have hfirst : selectUncached withoutRoot "m" "()V" 0 (.interface none) = .lenient := by
    decide +kernel
  have hsecond : selectUncached withoutRoot "m" "()V" 1 (.declared 2) = .lenient := by
    decide
  obtain ⟨hreal,-⟩ := hierarchyIsReal_iff.mp
    (show hierarchyIsReal withoutRoot 0 = true by decide)
  obtain ⟨hreal',-⟩ := hierarchyIsReal_iff.mp
    (show hierarchyIsReal withoutRoot 1 = true by decide)
  -- neither receiver reaches another class
  have halone : ∀ a, (∀ y, Edge withoutRoot.get a y → y = a) → ReachesAtMost withoutRoot.get a 1 := by
    intro a hedge
    have hsub : {x | Reaches withoutRoot.get a x} ⊆ {a} := by
      intro x hx
      induction hx with
      | refl => rfl
      | tail _ hxy ih =>
        obtain rfl := ih
        exact hedge _ hxy
    exact (Set.encard_le_encard hsub).trans (by simp)
  have hedge : ∀ y, Edge withoutRoot.get 0 y → y = 0 := by
    rintro y ⟨c,hc,hy⟩
    obtain rfl := some.inj hc
    simpa [Hierarchy.edgesOf] using hy
  have hedge' : ∀ y, Edge withoutRoot.get 1 y → y = 1 := by
    rintro y ⟨c,hc,hy⟩
    obtain rfl := some.inj hc
    simp [Hierarchy.edgesOf] at hy
  rw [hfirst,hsecond]
  exact ⟨⟨⟨_,rfl,rfl,rfl⟩,hreal,halone 0 hedge,hno _ _⟩,⟨_,rfl,rfl,rfl⟩,hreal',halone 1 hedge',hno _ _⟩

end
end CratonVM.Runtime
