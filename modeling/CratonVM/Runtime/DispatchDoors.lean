import CratonVM.Runtime.LenientLookup

/-!
The doors that refine the lenient lookup against the strict rule: exactly when their fast accepts
keep a method that JVMS 5.4.6 does not select.
-/
namespace CratonVM.Runtime
open ClassLoading Option Bool
section
variable (store : ClassStore) (name descriptor : String) (receiver owner : ClassId)

/-- One of the fast accepts takes the lookup's answer without the selection walk. -/
def accepted (resolved : ResolvedRef) (m : ClassFileMethod) (found : ClassId) : Bool :=
  agrees store resolved (some (m,found)) ||
    match resolved with
    | .declared declared => visibleAccept store name descriptor declared m found
    | .interface _ => false

/-- The doors give the method that is selected and keep the lookup's answer where the strict rule
selects none. -/
def DoorsAgree (lenient : Option Declared) : Prop :=
  match resolvedRefForOwner store name descriptor owner with
  | none =>
    refineLenientSelection store name descriptor receiver owner lenient = lenient ∧
      walkSelectionMovesTo store name descriptor receiver owner lenient = none
  | some resolved =>
    match selectUncached store name descriptor receiver resolved with
    | .selected d => ∃ m, methodAt store name descriptor d = some (m,d) ∧
        refineLenientSelection store name descriptor receiver owner lenient = some (m,d) ∧
        refineLenientSelectionFor store name descriptor receiver resolved lenient = some (m,d) ∧
        ∀ k found, lenient = some (k,found) →
          walkSelectionMovesTo store name descriptor receiver owner lenient =
            if found = d then none else some d
    | _ =>
      refineLenientSelection store name descriptor receiver owner lenient = lenient ∧
        refineLenientSelectionFor store name descriptor receiver resolved lenient = lenient ∧
        walkSelectionMovesTo store name descriptor receiver owner lenient = none

/-- The kinds of inputs that lead a fast accept astray. -/
inductive Strays (resolved : ResolvedRef) (m : ClassFileMethod) (found : ClassId) : Prop where
  /-- The resolved method is private, whatever other flags it has. -/
  | privateResolved {d : ClassId} (h : PrivateResolved store name descriptor resolved d)
      (hne : d ≠ found)
  /-- The lookup's method is not on the receiver's chain, no method on the chain overrides, and
  another superinterface has the only concrete maximally-specific method. -/
  | passedOver {start : Option Declared} {d : ClassId}
      (hcmp : Compares store name descriptor resolved start)
      (hreal : hierarchyIsReal store receiver = true) (hoff : ¬OnChain store receiver found)
      (hnone : NoneTakes store name descriptor start receiver maxSelectionNodes)
      (honly : OnlyDefault store name descriptor receiver d) (hne : d ≠ found)
  /-- The lookup's method is private, whatever other flags it has, and another class has the method
  that is selected. -/
  | privateHit {start : Option Declared} {d : ClassId}
      (hcmp : Compares store name descriptor resolved start)
      (hreal : hierarchyIsReal store receiver = true) (hm : m.isPrivate = true)
      (hother : (∃ k, FirstTakes store name descriptor start receiver maxSelectionNodes k d ∧
          (start = none → k.isPublic = true) ∧ k.isAbstract = false) ∨
        NoneTakes store name descriptor start receiver maxSelectionNodes ∧
          OnlyDefault store name descriptor receiver d)
      (hne : d ≠ found)

end

variable {store : ClassStore} {name descriptor : String} {receiver owner : ClassId}

section
variable {lenient : Option Declared}

theorem agrees_of_lenientIs {resolved : ResolvedRef}
    (hres : resolvedRefForOwner store name descriptor owner = some resolved)
    (h : lenientIsTheSelection store owner lenient = true) : agrees store resolved lenient = true := by
  cases lenient with
  | none => cases h
  | some hit => ?_
  simp only [lenientIsTheSelection,and_eq_true] at h
  obtain ⟨⟨⟨⟨howner,hplain⟩,hpub⟩,hstat⟩,habs⟩ := h
  unfold resolvedRefForOwner at hres
  cases hc : store.get owner with
  | none => simp [hc] at hres
  | some c =>
    have hi : c.isInterface = true := by simpa [isInterfaceClass,hc] using howner
    simp only [hc,hi,if_true,some.injEq] at hres
    subst hres
    simp [agrees,hplain,hpub,hstat,habs,Bool.and_self]

theorem refine_eq_for {resolved : ResolvedRef}
    (hres : resolvedRefForOwner store name descriptor owner = some resolved) :
    refineLenientSelection store name descriptor receiver owner lenient =
      refineLenientSelectionFor store name descriptor receiver resolved lenient := by
  unfold refineLenientSelection
  split
  · rename_i h
    rw [refineLenientSelectionFor,if_pos (agrees_of_lenientIs hres h)]
  · rw [hres]

theorem walk_eq {resolved : ResolvedRef} {m : ClassFileMethod} {found : ClassId}
    (hres : resolvedRefForOwner store name descriptor owner = some resolved) :
    walkSelectionMovesTo store name descriptor receiver owner (some (m,found)) =
      if accepted store name descriptor resolved m found then none
      else
        match refineLenientSelectionFor store name descriptor receiver resolved (some (m,found)) with
        | none => none
        | some (_,selected) => if selected ≠ found then some selected else none := by
  unfold walkSelectionMovesTo
  dsimp only
  cases hacc : accepted store name descriptor resolved m found with
  | true => ?_
  | false =>
    have hno : lenientIsTheSelection store owner (some (m,found)) = false := by
      rw [← not_eq_true]
      intro h
      have hag := agrees_of_lenientIs hres h
      simp [accepted,hag] at hacc
    simp only [hno,hres,false_eq_true,if_false]
    cases resolved with
    | declared declared =>
      simp only [accepted,agrees] at hacc
      exact if_neg (by simpa using hacc)
    | interface id => rfl
  rw [if_pos rfl]
  split
  · rfl
  rw [hres]
  cases resolved with
  | declared declared =>
    simp only [accepted,agrees] at hacc
    simp [hacc]
  | interface id => ?_
  have hag : agrees store (.interface id) (some (m,found)) = true := by
    simpa [accepted] using hacc
  simp only [false_eq_true,if_false]
  rw [refineLenientSelectionFor,if_pos hag]
  simp

/-- Every door is right unless a fast accept takes an answer that is not the one selected. -/
theorem doorsAgree_iff_accepts
    (hl : ∀ m found, lenient = some (m,found) →
      methodAt store name descriptor found = some (m,found)) :
    DoorsAgree store name descriptor receiver owner lenient ↔
      ∀ resolved m found d, resolvedRefForOwner store name descriptor owner = some resolved →
        lenient = some (m,found) → accepted store name descriptor resolved m found = true →
        selectUncached store name descriptor receiver resolved = .selected d → d = found := by
  unfold DoorsAgree
  cases hres : resolvedRefForOwner store name descriptor owner with
  | none =>
    constructor
    · rintro - resolved m found d hbad
      cases hbad
    intro _
    constructor
    · unfold refineLenientSelection
      simp [hres]
    unfold walkSelectionMovesTo
    cases lenient with
    | none => rfl
    | some hit => simp [hres]
  | some resolved => ?_
  dsimp only
  rw [refine_eq_for hres]
  cases hsel : selectUncached store name descriptor receiver resolved with
  | selected d => ?_
  | _ =>
    have hfor : refineLenientSelectionFor store name descriptor receiver resolved lenient =
        lenient := by
      unfold refineLenientSelectionFor
      rw [hsel]
      split <;> rfl
    rw [hfor]
    have hwalk : walkSelectionMovesTo store name descriptor receiver owner lenient = none := by
      cases lenient with
      | none => rfl
      | some hit =>
        rw [walk_eq hres,hfor]
        simp
    constructor
    · rintro - r m found d hr - - hd
      obtain rfl := some.inj hr
      rw [hsel] at hd
      cases hd
    · exact fun _ => ⟨rfl,rfl,hwalk⟩
  obtain ⟨md,hmd⟩ := methodAt_of_selected hsel
  constructor
  · rintro ⟨-,-,-,-,hwalk⟩ r m found d' hr rfl hacc hd'
    obtain rfl := some.inj hr
    obtain rfl := Selection.selected.inj (hsel.symm.trans hd')
    have hstay := hwalk m found rfl
    rw [walk_eq hres,if_pos hacc] at hstay
    by_cases heq : found = d
    · exact heq.symm
    rw [if_neg heq] at hstay
    cases hstay
  intro hright
  have hfor : refineLenientSelectionFor store name descriptor receiver resolved lenient =
      some (md,d) := by
    unfold refineLenientSelectionFor
    split
    · rename_i hag
      cases lenient with
      | none => cases resolved <;> simp [agrees] at hag
      | some hit =>
        obtain ⟨m,found⟩ := hit
        obtain rfl := hright resolved m found d rfl rfl (by simp [accepted,hag]) hsel
        rw [← hl m d rfl,hmd]
    simp only [hsel,hmd]
    rfl
  refine ⟨md,hmd,hfor,hfor,?_⟩
  rintro m found rfl
  rw [walk_eq hres,hfor]
  split
  · rename_i hacc
    rw [if_pos (hright resolved m found d rfl rfl hacc hsel).symm]
  by_cases hd : found = d
  · simp [hd]
  · simp [hd,Ne.symm hd]

end

section
variable {resolved : ResolvedRef} {m : ClassFileMethod} {found : ClassId}

theorem overrides_of_accepted {start : Option Declared}
    (hat : methodAt store name descriptor found = some (m,found))
    (hacc : accepted store name descriptor resolved m found = true)
    (hcmp : Compares store name descriptor resolved start) (hpriv : m.isPrivate = false) :
    overridesResolved store start m found = true := by
  cases resolved with
  | interface id =>
    obtain rfl : start = none := hcmp
    simp only [accepted,agrees,Bool.or_false,and_eq_true] at hacc
    simp [overridesResolved,hpriv,hacc.1.2,Bool.not_false,Bool.and_self]
  | declared declared => ?_
  obtain ⟨d,ma,hd,-,hma,hstatic,hmapriv,rfl⟩ := hcmp
  simp only [accepted,agrees,or_eq_true,decide_eq_true_eq] at hacc
  rcases hacc with rfl | hvis
  · have hm : ma = m := by
      rw [methodAt,hd,bind_some,hma] at hat
      exact (Prod.mk.inj (some.inj hat)).1
    subst hm
    simp [overridesResolved,hstatic,hmapriv,canOverride_self hd hmapriv hstatic _]
  simp only [visibleAccept,hd,bind_some,hma,any_some,and_eq_true,
    not_eq_true'] at hvis
  obtain ⟨⟨⟨⟨⟨-,hshown⟩,-⟩,-⟩,hmstatic⟩,-⟩ := hvis
  simp [overridesResolved,hmstatic,hpriv,canOverride_visible hpriv hmstatic hmapriv hshown _]

theorem strays_of_selected {fuel : Nat} {d : ClassId}
    (hl : findMethodRecursive store name descriptor fuel receiver = some (some (m,found)))
    (hacc : accepted store name descriptor resolved m found = true)
    (hsel : selectUncached store name descriptor receiver resolved = .selected d) (hne : d ≠ found) :
    Strays store name descriptor receiver resolved m found := by
  obtain ⟨hat,hchain⟩ := findMethodRecursive_spec hl
  obtain ⟨-,hpriv | ⟨start,hcmp,hfrom⟩⟩ := selectUncached_selected.mp hsel
  · exact .privateResolved hpriv hne
  obtain ⟨hreal,hother⟩ := selectFrom_selected.mp hfrom
  -- where the hit is not private, its class takes the call
  have htakes : m.isPrivate = false → Takes store name descriptor start m found :=
    fun hp => ⟨hat,overrides_of_accepted hat hacc hcmp hp⟩
  cases hp : m.isPrivate with
  | true => exact .privateHit hcmp hreal hp hother hne
  | false => ?_
  rcases hother with ⟨k,⟨l',hl',-,hskip,htake⟩,-,habs⟩ | ⟨hnone,honly⟩
  · rcases hchain with ⟨l,hl,hbelow⟩ | hoff
    · rcases hl.order hl' with heq | hmem | hmem
      · exact absurd heq.symm hne
      · exact absurd (htakes hp) (hskip found hmem m)
      rw [(hbelow d hmem k htake.1).1] at habs
      cases habs
    rw [(hoff l' d hl' k htake.1).1] at habs
    cases habs
  refine .passedOver hcmp hreal ?_ hnone honly hne
  rintro ⟨l,hl⟩
  obtain ⟨all,hall,-,hskip⟩ := hnone
  exact hskip found (hall.mem_of_onChain hl) m (htakes hp)

theorem selected_of_strays (hinst : Instantiable store receiver)
    (hs : Strays store name descriptor receiver resolved m found) :
    ∃ d, d ≠ found ∧ selectUncached store name descriptor receiver resolved = .selected d := by
  cases hs with
  | @privateResolved d hpriv hne =>
    exact ⟨d,hne,selectUncached_selected.mpr ⟨hinst,.inl hpriv⟩⟩
  | @passedOver start d hcmp hreal _ hnone honly hne =>
    refine ⟨d,hne,selectUncached_selected.mpr ⟨hinst,.inr ⟨start,hcmp,?_⟩⟩⟩
    exact selectFrom_selected.mpr ⟨hreal,.inr ⟨hnone,honly⟩⟩
  | @privateHit start d hcmp hreal _ hother hne =>
    refine ⟨d,hne,selectUncached_selected.mpr ⟨hinst,.inr ⟨start,hcmp,?_⟩⟩⟩
    exact selectFrom_selected.mpr ⟨hreal,hother⟩

end

/-- The doors agree with selection exactly when no fast accept goes astray. -/
theorem doorsAgree_iff {fuel : Nat} {lenient : Option Declared}
    (hl : findMethodRecursive store name descriptor fuel receiver = some lenient) :
    DoorsAgree store name descriptor receiver owner lenient ↔
      ∀ resolved m found, resolvedRefForOwner store name descriptor owner = some resolved →
        lenient = some (m,found) → Instantiable store receiver →
        accepted store name descriptor resolved m found = true →
        ¬Strays store name descriptor receiver resolved m found := by
  have hat : ∀ m found, lenient = some (m,found) →
      methodAt store name descriptor found = some (m,found) := by
    rintro m found rfl
    exact (findMethodRecursive_spec hl).1
  rw [doorsAgree_iff_accepts hat]
  constructor
  · intro hright resolved m found hres hlen hinst hacc hs
    obtain ⟨d,hne,hsel⟩ := selected_of_strays hinst hs
    exact hne (hright resolved m found d hres hlen hacc hsel)
  intro hno resolved m found d hres hlen hacc hsel
  subst hlen
  by_cases heq : d = found
  · exact heq
  have hinst := (selectUncached_selected.mp hsel).1
  exact absurd (strays_of_selected hl hacc hsel heq) (hno resolved m found hres rfl hinst hacc)

section
def publicMethod (isAbstract : Bool) : ClassFileMethod :=
  { name := "m", descriptor := "()V", accessFlags := { isPublic := true, isAbstract := isAbstract } }

/-- `class C extends S implements J, I2`, where `S implements K`, `J extends K` re-declares the
default of `K` as abstract, and `I2 extends I` inherits the default of `I`. -/
def diamond : ClassStore :=
  { classes := [
      some { name := "C".toList, superclass := some 1, interfaces := [3,5] },
      some { name := "S".toList, interfaces := [2] },
      some { name := "K".toList, isInterface := true, isAbstract := true,
             methods := [publicMethod false] },
      some { name := "J".toList, isInterface := true, isAbstract := true, interfaces := [2],
             methods := [publicMethod true] },
      some { name := "I".toList, isInterface := true, isAbstract := true,
             methods := [publicMethod false] },
      some { name := "I2".toList, isInterface := true, isAbstract := true, interfaces := [4] }] }

theorem doorsAgree_iff_diamond :
    findMethodRecursive diamond "m" "()V" 10 0 = some (some (publicMethod false,2)) ∧
      (DoorsAgree diamond "m" "()V" 0 1 (some (publicMethod false,2)) ↔
        ∀ resolved m found, resolvedRefForOwner diamond "m" "()V" 1 = some resolved →
          some (publicMethod false,2) = some (m,found) → Instantiable diamond 0 →
          accepted diamond "m" "()V" resolved m found = true →
          ¬Strays diamond "m" "()V" 0 resolved m found) :=
  ⟨by decide,@doorsAgree_iff diamond "m" "()V" 0 1 10 _ (by decide)⟩

/-- With the owner `S` the default of `K` is kept, where the strict rule selects the one of `I`. -/
theorem diamond_keeps_superseded_default :
    findMethodRecursive diamond "m" "()V" 10 0 = some (some (publicMethod false,2)) ∧
      ¬DoorsAgree diamond "m" "()V" 0 1 (some (publicMethod false,2)) := by
  refine ⟨by decide,?_⟩
  rintro ⟨m,-,hrefine,-⟩
  cases hrefine

end
end CratonVM.Runtime
