import CratonVM.Runtime.Selection

/-!
JVMS 5.4.6 step by step: what `select_uncached` selects, said of the superclass chain and of the
maximally-specific superinterface methods.
-/
namespace CratonVM.Runtime
open ClassLoading List Option
section
variable (store : ClassStore)

/-- The classes passed on the way up the superclass chain to a class. -/
inductive LineageTo : ClassId → List ClassId → ClassId → Prop where
  | here {a : ClassId} : LineageTo a [] a
  | up {a s x : ClassId} {c : ClassLoading.Class} {l : List ClassId} (hc : store.get a = some c)
      (hs : c.superclass = some s) (h : LineageTo s l x) : LineageTo a (a::l) x

/-- The whole superclass chain, up to a class without a superclass. -/
inductive Lineage : ClassId → List ClassId → Prop where
  | root {a : ClassId} {c : ClassLoading.Class} (hc : store.get a = some c) (hs : c.superclass = none) :
      Lineage a [a]
  | up {a s : ClassId} {c : ClassLoading.Class} {l : List ClassId} (hc : store.get a = some c)
      (hs : c.superclass = some s) (h : Lineage s l) : Lineage a (a::l)

def OnChain (a x : ClassId) : Prop := ∃ l, LineageTo store a l x

variable {store}
variable {a x : ClassId} {l l' : List ClassId}

theorem Lineage.mem_of_onChain (h : Lineage store a l)
    (hx : LineageTo store a l' x) : x ∈ l := by
  induction hx generalizing l with
  | here => cases h <;> simp
  | up hc hs _ ih => ?_
  cases h with
  | root hc' hs' =>
    obtain rfl := some.inj (hc.symm.trans hc')
    rw [hs] at hs'
    cases hs'
  | up hc' hs' h =>
    obtain rfl := some.inj (hc.symm.trans hc')
    obtain rfl := some.inj (hs.symm.trans hs')
    exact mem_cons_of_mem _ (ih h)

theorem Lineage.length_lt_of_lineageTo (h : Lineage store a l)
    (hx : LineageTo store a l' x) : l'.length < l.length := by
  induction hx generalizing l with
  | here => cases h <;> simp
  | up hc hs _ ih => ?_
  cases h with
  | root hc' hs' =>
    obtain rfl := some.inj (hc.symm.trans hc')
    rw [hs] at hs'
    cases hs'
  | up hc' hs' h =>
    obtain rfl := some.inj (hc.symm.trans hc')
    obtain rfl := some.inj (hs.symm.trans hs')
    simpa using ih h

theorem Lineage.onChain (h : Lineage store a l)
    (hx : x ∈ l) : OnChain store a x := by
  induction h with
  | root =>
    obtain rfl := mem_singleton.mp hx
    exact ⟨[],.here⟩
  | up hc hs _ ih =>
    rcases mem_cons.mp hx with rfl | hx
    · exact ⟨[],.here⟩
    obtain ⟨l,hl⟩ := ih hx
    exact ⟨_,.up hc hs hl⟩

theorem LineageTo.order {y : ClassId} (hx : LineageTo store a l x)
    (hy : LineageTo store a l' y) : x = y ∨ x ∈ l' ∨ y ∈ l := by
  induction hx generalizing l' with
  | here =>
    cases hy with
    | here => exact .inl rfl
    | up => exact .inr (.inl (by simp))
  | up hc hs _ ih => ?_
  cases hy with
  | here => exact .inr (.inr (by simp))
  | up hc' hs' hy => ?_
  obtain rfl := some.inj (hc.symm.trans hc')
  obtain rfl := some.inj (hs.symm.trans hs')
  rcases ih hy with heq | hmem | hmem
  · exact .inl heq
  · exact .inr (.inl (mem_cons_of_mem _ hmem))
  · exact .inr (.inr (mem_cons_of_mem _ hmem))

end

variable (store : ClassStore) (name descriptor : String)

section
variable (resolved : Option Declared)

def Takes (m : ClassFileMethod) (x : ClassId) : Prop :=
  methodAt store name descriptor x = some (m,x) ∧ overridesResolved store resolved m x = true

/-- The first class on the receiver's chain with a method that overrides. -/
def FirstTakes (a : ClassId) (left : Nat) (m : ClassFileMethod) (d : ClassId) : Prop :=
  ∃ l, LineageTo store a l d ∧ l.length < left ∧
    (∀ x ∈ l, ∀ k, ¬Takes store name descriptor resolved k x) ∧
    Takes store name descriptor resolved m d

/-- No class on the receiver's chain has one. -/
def NoneTakes (a : ClassId) (left : Nat) : Prop :=
  ∃ l, Lineage store a l ∧ l.length ≤ left ∧
    ∀ x ∈ l, ∀ m, ¬Takes store name descriptor resolved m x

variable {store name descriptor resolved}

theorem takes_iff {m : ClassFileMethod} {x : ClassId} {c : ClassLoading.Class} (hc : store.get x = some c) :
    Takes store name descriptor resolved m x ↔
      c.findMethod name descriptor = some m ∧ overridesResolved store resolved m x = true := by
  simp [Takes,methodAt,hc]

variable {left : Nat} {a : ClassId}

theorem selectOnChain_step {c : ClassLoading.Class} (hc : store.get a = some c) :
    (∃ m, Takes store name descriptor resolved m a ∧
      selectOnChain store name descriptor resolved (left+1) (some a) = .taken m a) ∨
    (∀ m, ¬Takes store name descriptor resolved m a) ∧
      selectOnChain store name descriptor resolved (left+1) (some a) =
        selectOnChain store name descriptor resolved left c.superclass := by
  rw [selectOnChain]
  simp only [hc,takes_iff hc]
  cases hm : c.findMethod name descriptor with
  | none => simp
  | some m =>
    cases ho : overridesResolved store resolved m a with
    | true => simp [ho]
    | false => simp [ho]

theorem selectOnChain_taken {d : ClassId} {m : ClassFileMethod} :
    selectOnChain store name descriptor resolved left (some a) = .taken m d ↔
      FirstTakes store name descriptor resolved a left m d := by
  induction left generalizing a with
  | zero =>
    simp only [selectOnChain,reduceCtorEq,false_iff]
    rintro ⟨l,-,hlen,-⟩
    omega
  | succ left ih => ?_
  cases hc : store.get a with
  | none =>
    simp only [selectOnChain,hc,reduceCtorEq,false_iff]
    rintro ⟨l,hl,-,-,htake⟩
    cases hl with
    | here => simp [Takes,methodAt,hc] at htake
    | up hc' => simp [hc] at hc'
  | some c => ?_
  rcases @selectOnChain_step store name descriptor resolved left a c hc with ⟨k,hk,heq⟩ | ⟨hno,heq⟩
  · rw [heq]
    constructor
    · intro h
      obtain ⟨rfl,rfl⟩ := ChainSelection.taken.inj h
      exact ⟨[],.here,by simp,by simp,hk⟩
    rintro ⟨l,hl,-,hskip,htake⟩
    cases hl with
    | here =>
      have := ((takes_iff hc).mp hk).1.symm.trans ((takes_iff hc).mp htake).1
      rw [some.inj this]
    | up => exact absurd hk (hskip a (by simp) k)
  rw [heq]
  cases hs : c.superclass with
  | none =>
    simp only [selectOnChain,reduceCtorEq,false_iff]
    rintro ⟨l,hl,-,-,htake⟩
    cases hl with
    | here => exact hno m htake
    | up hc' hs' =>
      obtain rfl := some.inj (hc.symm.trans hc')
      rw [hs] at hs'
      cases hs'
  | some s => ?_
  rw [ih]
  constructor
  · rintro ⟨l,hl,hlen,hskip,htake⟩
    refine ⟨a::l,.up hc hs hl,by simp; omega,fun x hx => ?_,htake⟩
    rcases mem_cons.mp hx with rfl | hx
    · exact hno
    · exact hskip x hx
  rintro ⟨l,hl,hlen,hskip,htake⟩
  cases hl with
  | here => exact absurd htake (hno m)
  | up hc' hs' hl =>
    obtain rfl := some.inj (hc.symm.trans hc')
    obtain rfl := some.inj (hs.symm.trans hs')
    exact ⟨_,hl,by simp at hlen; omega,fun x hx => hskip x (by simp [hx]),htake⟩

theorem selectOnChain_passed :
    selectOnChain store name descriptor resolved left (some a) = .passed ↔
      NoneTakes store name descriptor resolved a left := by
  induction left generalizing a with
  | zero =>
    simp only [selectOnChain,reduceCtorEq,false_iff]
    rintro ⟨l,hl,hlen,-⟩
    cases hl <;> simp at hlen
  | succ left ih => ?_
  cases hc : store.get a with
  | none =>
    simp only [selectOnChain,hc,reduceCtorEq,false_iff]
    rintro ⟨l,hl,-⟩
    cases hl with
    | root hc' => simp [hc] at hc'
    | up hc' => simp [hc] at hc'
  | some c => ?_
  rcases @selectOnChain_step store name descriptor resolved left a c hc with ⟨k,hk,heq⟩ | ⟨hno,heq⟩
  · rw [heq]
    simp only [reduceCtorEq,false_iff]
    rintro ⟨l,hl,-,hskip⟩
    cases hl with
    | root => exact hskip a (by simp) k hk
    | up => exact hskip a (by simp) k hk
  rw [heq]
  cases hs : c.superclass with
  | none =>
    simp only [selectOnChain,true_iff]
    refine ⟨[a],.root hc hs,by simp,fun x hx => ?_⟩
    rw [mem_singleton.mp hx]
    exact hno
  | some s => ?_
  rw [ih]
  constructor
  · rintro ⟨l,hl,hlen,hskip⟩
    refine ⟨a::l,.up hc hs hl,by simp; omega,fun x hx => ?_⟩
    rcases mem_cons.mp hx with rfl | hx
    · exact hno
    · exact hskip x hx
  rintro ⟨l,hl,hlen,hskip⟩
  cases hl with
  | root hc' hs' =>
    obtain rfl := some.inj (hc.symm.trans hc')
    rw [hs] at hs'
    cases hs'
  | up hc' hs' hl =>
    obtain rfl := some.inj (hc.symm.trans hc')
    obtain rfl := some.inj (hs.symm.trans hs')
    exact ⟨_,hl,by simp at hlen; omega,fun x hx => hskip x (by simp [hx])⟩

end

section
/-- The only concrete one among the maximally-specific superinterface methods. -/
def OnlyDefault (receiver d : ClassId) : Prop :=
  ∃ maximal, maximallySpecific store name descriptor receiver = some maximal ∧
    maximal.filter (fun (_,isAbstract) => !isAbstract) = [(d,false)]

def Instantiable (receiver : ClassId) : Prop :=
  ∃ c, store.get receiver = some c ∧ c.isInterface = false ∧ c.isAbstract = false

/-- What the walk of the chain compares with, when the resolved method is an instance method of a
class file that is not private; a method reference to an interface needs no method. -/
def Compares (resolved : ResolvedRef) (start : Option Declared) : Prop :=
  match resolved with
  | .interface _ => start = none
  | .declared declaring => ∃ d m, store.get declaring = some d ∧ d.origin.hasRealBytes = true ∧
      d.findMethod name descriptor = some m ∧ m.isStatic = false ∧ m.isPrivate = false ∧
      start = some (m,declaring)

def PrivateResolved (resolved : ResolvedRef) (id : ClassId) : Prop :=
  match resolved with
  | .interface _ => False
  | .declared declaring => (∃ d m, store.get declaring = some d ∧ d.origin.hasRealBytes = true ∧
      d.findMethod name descriptor = some m ∧ m.isStatic = false ∧ m.isPrivate = true) ∧
      declaring = id

variable {store name descriptor}
variable {d : ClassId}

theorem selectMaximal_selected {maximal : List (ClassId × Bool)} :
    selectMaximal maximal = .selected d ↔
      maximal.filter (fun (_,isAbstract) => !isAbstract) = [(d,false)] := by
  have hfalse : ∀ p ∈ maximal.filter (fun (_,isAbstract) => !isAbstract), p.2 = false := by
    intro p hp
    simpa using (mem_filter.mp hp).2
  unfold selectMaximal
  generalize maximal.filter (fun (_,isAbstract) => !isAbstract) = concrete at hfalse
  match concrete with
  | [] => simp
  | [(only,b)] =>
    have hb : b = false := hfalse (only,b) (by simp)
    simp [hb]
  | _::_::_ => simp

variable {receiver : ClassId}

theorem selectFrom_selected {start : Option Declared} :
    selectFrom store name descriptor receiver start = .selected d ↔
      hierarchyIsReal store receiver = true ∧
        ((∃ m, FirstTakes store name descriptor start receiver maxSelectionNodes m d ∧
          (start = none → m.isPublic = true) ∧ m.isAbstract = false) ∨
        NoneTakes store name descriptor start receiver maxSelectionNodes ∧
          OnlyDefault store name descriptor receiver d) := by
  simp only [← selectOnChain_taken,← selectOnChain_passed]
  unfold selectFrom
  cases hreal : hierarchyIsReal store receiver with
  | false => simp
  | true => ?_
  simp only [if_true,true_and]
  cases hchain : selectOnChain store name descriptor start maxSelectionNodes (some receiver) with
  | undecided => simp
  | taken m id => ?_
  | passed =>
    simp only [reduceCtorEq,false_and,exists_false,true_and,false_or,OnlyDefault]
    cases hmax : maximallySpecific store name descriptor receiver with
    | none => simp
    | some maximal => simp [selectMaximal_selected]
  simp only [ChainSelection.taken.injEq,reduceCtorEq,false_and,or_false]
  constructor
  · intro h
    split at h
    · cases h
    rename_i hpublic
    split at h
    · cases h
    rename_i habs
    obtain rfl := Selection.selected.inj h
    exact ⟨m,⟨rfl,rfl⟩,fun hs => by simpa [hs] using hpublic,by simpa using habs⟩
  rintro ⟨k,⟨rfl,rfl⟩,hpublic,habs⟩
  rw [if_neg (fun hbad => hbad.2 (hpublic hbad.1)),if_neg (by simp [habs])]

/-- The strict answer: a private resolved method itself, the first class on the chain that
overrides, or the only default. -/
theorem selectUncached_selected {resolved : ResolvedRef} :
    selectUncached store name descriptor receiver resolved = .selected d ↔
      Instantiable store receiver ∧ (PrivateResolved store name descriptor resolved d ∨
        ∃ start, Compares store name descriptor resolved start ∧
          selectFrom store name descriptor receiver start = .selected d) := by
  unfold selectUncached Instantiable PrivateResolved Compares
  cases hc : store.get receiver with
  | none => simp
  | some c => ?_
  cases hi : c.isInterface with
  | true => simp [hi]
  | false => ?_
  cases ha : c.isAbstract with
  | true => simp [hi,ha]
  | false => ?_
  cases resolved with
  | interface id => simp [hi,ha]
  | declared declaring => ?_
  cases hd : store.get declaring with
  | none => simp [hi,ha,hd]
  | some k => ?_
  cases hreal : k.origin.hasRealBytes with
  | false => simp [hi,ha,hd,hreal]
  | true => ?_
  cases hm : k.findMethod name descriptor with
  | none => simp [hi,ha,hd,hreal,hm]
  | some m => ?_
  cases hstatic : m.isStatic with
  | true => simp [hi,ha,hd,hreal,hm,hstatic]
  | false =>
    cases hpriv : m.isPrivate with
    | true => simp [hi,ha,hd,hreal,hm,hstatic,hpriv]
    | false => simp [hi,ha,hd,hreal,hm,hstatic,hpriv]

theorem methodAt_of_selected {resolved : ResolvedRef}
    (h : selectUncached store name descriptor receiver resolved = .selected d) :
    ∃ m, methodAt store name descriptor d = some (m,d) := by
  obtain ⟨-,hpriv | ⟨start,-,hfrom⟩⟩ := selectUncached_selected.mp h
  · cases resolved with
    | interface id => cases hpriv
    | declared declaring =>
      obtain ⟨⟨k,m,hd,-,hm,-⟩,rfl⟩ := hpriv
      exact ⟨m,by simp [methodAt,hd,hm]⟩
  obtain ⟨-,⟨m,⟨l,-,-,-,htake⟩,-⟩ | ⟨-,maximal,hmax,hfilter⟩⟩ := selectFrom_selected.mp hfrom
  · exact ⟨m,htake.1⟩
  have hmem : (d,false) ∈ maximal := by
    have : (d,false) ∈ maximal.filter (fun (_,isAbstract) => !isAbstract) := by rw [hfilter]; simp
    exact (mem_filter.mp this).1
  unfold maximallySpecific at hmax
  cases hclosure : superinterfaceClosure store receiver with
  | none => simp [hclosure] at hmax
  | some closure => ?_
  simp only [hclosure,some.injEq] at hmax
  rw [← hmax] at hmem
  obtain ⟨x,-,hx⟩ := mem_filterMap.mp (mem_filter.mp hmem).1
  unfold candidateAt at hx
  cases hg : store.get x with
  | none => simp [hg] at hx
  | some c => ?_
  cases hm : c.findMethod name descriptor with
  | none => simp [hg,hm] at hx
  | some m => ?_
  simp only [hg,hm] at hx
  split at hx
  · cases hx
  obtain ⟨rfl,-⟩ := Prod.mk.inj (some.inj hx)
  exact ⟨m,by simp [methodAt,hg,hm]⟩

end
end CratonVM.Runtime
