import CratonVM.Reader.StackMapCodec
import CratonVM.Verifier.Frame

/-!
The frames a `StackMapTable` declares (`apply_stack_map_frame` in `classloading/src/verify_frame.rs`,
`build_declared_frames` in `classloading/src/bytecode_verifier.rs`). The code keeps a frame slot by slot,
with a second slot behind every `long` and `double`; the entries of the table count locals. Below, a
`LogicalFrame` is a frame as JVMS 4.7.4 has it, and the code is compared with it.
-/
namespace CratonVM.Verifier
open List Prod

open Reader (ConstantPool StackMapFrame StackMapTable VerificationTypeInfo ClassReaderError)

/-- Why an entry is refused. -/
inductive FrameFault where
  | notEnoughLocals
  | invalidClass (cpoolIndex : UInt16)
  deriving DecidableEq, Repr

def FrameFault.message : FrameFault → String
  | .notEnoughLocals => "chop_frame: not enough locals to chop"
  | .invalidClass cpoolIndex => s!"invalid class reference at constant pool index {cpoolIndex}"

structure VerifyError where
  className : String
  methodName : String
  message : String
  deriving DecidableEq, Repr

def VType.fromVerificationTypeInfo (cp : ConstantPool) : VerificationTypeInfo → Except FrameFault VType
  | .top => .ok .top
  | .integer => .ok .int
  | .float => .ok .float
  | .double => .ok .double
  | .long => .ok .long
  | .null => .ok .null
  | .uninitializedThis => .ok .uninitializedThis
  | .object cpoolIndex =>
    match cp.getClassName cpoolIndex.toNat with
    | none => .error (.invalidClass cpoolIndex)
    | some className => .ok (.ofClassName className)
  | .uninitialized offset => .ok (.uninitialized offset.toNat)

namespace VerificationFrame
/-- The types of the entry behind the slots so far, each with its second slot. -/
def pushTypes (cp : ConstantPool) : (slots : List VType) → List VerificationTypeInfo →
    Except FrameFault (List VType)
  | slots,[] => .ok slots
  | slots,info :: rest => do
    let vtype ← VType.fromVerificationTypeInfo cp info
    pushTypes cp (slots ++ slotsOf vtype) rest

/-- A `Top` that is removed takes the `long` or `double` in front of it along. -/
def chopLocals : (chopped : Nat) → List VType → Except FrameFault (List VType)
  | 0,locals => .ok locals
  | chopped+1,locals =>
    match locals.getLast? with
    | none => .error .notEnoughLocals
    | some .top =>
      if (locals.dropLast.getLast?.map VType.isCategory2).getD false then
        chopLocals chopped locals.dropLast.dropLast
      else chopLocals chopped locals.dropLast
    | some _ => chopLocals chopped locals.dropLast

def applyStackMapFrame (cp : ConstantPool) (self : VerificationFrame) :
    StackMapFrame → Except FrameFault VerificationFrame
  | .sameFrame _ | .sameFrameExtended _ => .ok { self with stack := [] }
  | .sameLocals1StackItem _ stack | .sameLocals1StackItemExtended _ stack => do
    let vtype ← VType.fromVerificationTypeInfo cp stack
    pure { self with stack := (slotsOf vtype).reverse }
  | .chopFrame _ chopped => do
    let locals ← chopLocals chopped.toNat self.locals
    pure { self with locals := locals, stack := [] }
  | .appendFrame _ newLocals => do
    let locals ← pushTypes cp self.locals newLocals
    pure { self with locals := locals, stack := [] }
  | .fullFrame _ frameLocals frameStack => do
    let locals ← pushTypes cp [] frameLocals
    let stack ← pushTypes cp [] frameStack
    pure { self with locals := locals, stack := stack.reverse }

end VerificationFrame

/-- `FxHashMap<u16, VerificationFrame>`. -/
abbrev DeclaredFrames := UInt16 → Option VerificationFrame

def DeclaredFrames.insert (frames : DeclaredFrames) (built : UInt16 × VerificationFrame) : DeclaredFrames :=
  fun offset => if offset = built.1 then some built.2 else frames offset

/-- The frames in the order of their entries, each built from the one in front of it. -/
def buildFrames (cp : ConstantPool) (className methodName : String) :
    (index : Nat) → (prev : VerificationFrame) → List (StackMapFrame × UInt16) →
      Except VerifyError (List (UInt16 × VerificationFrame))
  | _,_,[] => .ok []
  | index,prev,(entry,offset) :: rest =>
    match prev.applyStackMapFrame cp entry with
    | .error fault =>
      .error ⟨className,methodName,
        s!"StackMapTable frame {index} at offset {offset}: {fault.message}"⟩
    | .ok frame =>
      match buildFrames cp className methodName (index+1) frame rest with
      | .error e => .error e
      | .ok built => .ok ((offset,frame) :: built)

/-- The text of the only error that `absolute_offsets` has. -/
def displayReaderError : ClassReaderError → String
  | .invalidClassData message => s!"invalid class data: {message}"
  | _ => ""

def buildDeclaredFrames (table : StackMapTable) (initialFrame : VerificationFrame) (cp : ConstantPool)
    (className methodName : String) : Except VerifyError DeclaredFrames :=
  match table.absoluteOffsets with
  | .error e =>
    .error ⟨className,methodName,s!"StackMapTable absolute_offsets: {displayReaderError e}"⟩
  | .ok offsets =>
    match buildFrames cp className methodName 0 initialFrame (table.entries.zip offsets) with
    | .error e => .error e
    | .ok built => .ok (built.foldl DeclaredFrames.insert fun _ => none)

/-- A frame of JVMS 4.7.4: a `long` or `double` is one local, and one entry of the stack. The stack is
given from its bottom. -/
structure LogicalFrame where
  locals : List VType
  stack : List VType
  deriving DecidableEq, Repr

namespace LogicalFrame
def types (cp : ConstantPool) (infos : List VerificationTypeInfo) : Except FrameFault (List VType) :=
  infos.mapM (VType.fromVerificationTypeInfo cp)

/-- What an entry makes of the frame in front of it. -/
def apply (cp : ConstantPool) (f : LogicalFrame) : StackMapFrame → Except FrameFault LogicalFrame
  | .sameFrame _ | .sameFrameExtended _ => .ok ⟨f.locals,[]⟩
  | .sameLocals1StackItem _ stack | .sameLocals1StackItemExtended _ stack => do
    let item ← VType.fromVerificationTypeInfo cp stack
    pure ⟨f.locals,[item]⟩
  | .chopFrame _ k =>
    if f.locals.length < k.toNat then .error .notEnoughLocals
    else .ok ⟨f.locals.take (f.locals.length-k.toNat),[]⟩
  | .appendFrame _ infos => do
    let added ← types cp infos
    pure ⟨f.locals ++ added,[]⟩
  | .fullFrame _ localInfos stackInfos => do
    let locals ← types cp localInfos
    let stack ← types cp stackInfos
    pure ⟨locals,stack⟩

/-- The frames of the entries, or the first entry that is refused. -/
def run (cp : ConstantPool) : (index : Nat) → LogicalFrame → List StackMapFrame →
    Except (Nat × FrameFault) (List LogicalFrame)
  | _,_,[] => .ok []
  | index,f,entry :: rest =>
    match f.apply cp entry with
    | .error fault => .error (index,fault)
    | .ok next => (run cp (index+1) next rest).map (next :: ·)

/-- The slots of the frame, a second one behind every `long` and `double`. -/
def expand (shape : VerificationFrame) (f : LogicalFrame) : VerificationFrame :=
  { shape with
    locals := f.locals.flatMap VerificationFrame.slotsOf
    stack := (f.stack.flatMap VerificationFrame.slotsOf).reverse }

end LogicalFrame

section
open VerificationFrame LogicalFrame
variable {cp : ConstantPool}

theorem pushTypes_eq (infos : List VerificationTypeInfo) (slots : List VType) :
    pushTypes cp slots infos = (types cp infos).map fun ts => slots ++ ts.flatMap slotsOf := by
  induction infos generalizing slots with
  | nil =>
    rw [pushTypes,types,mapM_nil]
    simp [Except.map,pure,Except.pure]
  | cons info infos ih => ?_
  rw [pushTypes,types,mapM_cons]
  cases VType.fromVerificationTypeInfo cp info with
  | error e => rfl
  | ok t => ?_
  rw [types] at ih
  simp only [bind,Except.bind,ih]
  cases mapM (VType.fromVerificationTypeInfo cp) infos with
  | error e => rfl
  | ok ts => simp [Except.map,pure,Except.pure]

theorem slotsOf_category2 {t : VType} (h : t.isCategory2 = true) : slotsOf t = [t,.top] := if_pos h

theorem slotsOf_category1 {t : VType} (h : t.isCategory2 = false) : slotsOf t = [t] := by
  rw [slotsOf,h]
  rfl

theorem expand_getLast (ls : List VType) :
    ((ls.flatMap slotsOf).getLast?.map VType.isCategory2).getD false = false := by
  induction ls using reverseRecOn with
  | nil => rfl
  | append_singleton ls t _ => ?_
  rw [flatMap_append,flatMap_singleton]
  cases h : t.isCategory2 with
  | true =>
    rw [slotsOf_category2 h,getLast?_append]
    rfl
  | false =>
    rw [slotsOf_category1 h,getLast?_append]
    exact h

theorem chopLocals_expand (k : Nat) (ls : List VType) :
    chopLocals k (ls.flatMap slotsOf) =
      if ls.length < k then .error .notEnoughLocals else .ok ((ls.take (ls.length-k)).flatMap slotsOf) := by
  induction k generalizing ls with
  | zero => simp [chopLocals]
  | succ k ih => ?_
  cases ls using reverseRecOn with
  | nil => simp [chopLocals]
  | append_singleton ls t => ?_
  have hrest : chopLocals (k+1) ((ls ++ [t]).flatMap slotsOf) = chopLocals k (ls.flatMap slotsOf) := by
    rw [flatMap_append,flatMap_singleton,chopLocals]
    cases h : t.isCategory2 with
    | true =>
      have hdrop : (ls.flatMap slotsOf ++ [t,.top]).dropLast = ls.flatMap slotsOf ++ [t] := by
        rw [← singleton_append,← append_assoc,dropLast_concat]
      rw [slotsOf_category2 h,hdrop]
      simp [h]
    | false => ?_
    rw [slotsOf_category1 h,getLast?_concat,dropLast_concat]
    split
    · rename_i heq
      cases heq
    · rw [expand_getLast]
      rfl
    · rfl
  rw [hrest,ih,length_append,length_singleton]
  by_cases hlt : ls.length < k
  · rw [if_pos hlt,if_pos (by omega)]
  rw [if_neg hlt,if_neg (by omega),Nat.add_sub_add_right,
    take_append_of_le_length (Nat.sub_le _ _)]

theorem applyStackMapFrame_expand {self : VerificationFrame} {f : LogicalFrame}
    (hlocals : self.locals = f.locals.flatMap slotsOf) (entry : StackMapFrame) :
    self.applyStackMapFrame cp entry = (f.apply cp entry).map (expand self) := by
  have hitem : ∀ info, (do
      let vtype ← VType.fromVerificationTypeInfo cp info
      pure { self with stack := (slotsOf vtype).reverse } : Except FrameFault VerificationFrame) =
      (do
        let item ← VType.fromVerificationTypeInfo cp info
        pure ⟨f.locals,[item]⟩ : Except FrameFault LogicalFrame).map (expand self) := by
    intro info
    cases VType.fromVerificationTypeInfo cp info with
    | error e => rfl
    | ok t => simp [expand,hlocals,bind,Except.bind,pure,Except.pure,Except.map]
  cases entry with
  | sameFrame => simp [applyStackMapFrame,apply,expand,hlocals,Except.map]
  | sameFrameExtended => simp [applyStackMapFrame,apply,expand,hlocals,Except.map]
  | sameLocals1StackItem _ info => exact hitem info
  | sameLocals1StackItemExtended _ info => exact hitem info
  | chopFrame _ k =>
    rw [applyStackMapFrame,hlocals,chopLocals_expand,LogicalFrame.apply]
    split
    · rfl
    · simp [expand,bind,Except.bind,pure,Except.pure,Except.map]
  | appendFrame _ infos =>
    rw [applyStackMapFrame,pushTypes_eq,LogicalFrame.apply]
    cases types cp infos with
    | error e => rfl
    | ok ts => simp [expand,hlocals,bind,Except.bind,pure,Except.pure,Except.map]
  | fullFrame _ localInfos stackInfos => ?_
  rw [applyStackMapFrame,pushTypes_eq,pushTypes_eq,LogicalFrame.apply]
  cases types cp localInfos with
  | error e => rfl
  | ok ls =>
    cases types cp stackInfos with
    | error e => rfl
    | ok ts => simp [expand,bind,Except.bind,pure,Except.pure,Except.map]

variable {className methodName : String}

theorem expand_expand (shape : VerificationFrame) (f : LogicalFrame) :
    expand (expand shape f) = expand shape := rfl

/-- The text of a refused entry. -/
def entryError (className methodName : String) (index : Nat) (offset : UInt16) (fault : FrameFault) :
    VerifyError :=
  ⟨className,methodName,s!"StackMapTable frame {index} at offset {offset}: {fault.message}"⟩

theorem buildFrames_ok {self : VerificationFrame} {f : LogicalFrame} {index : Nat}
    {entries : List StackMapFrame} {offsets : List UInt16} {frames : List LogicalFrame}
    (hlocals : self.locals = f.locals.flatMap slotsOf) (hlen : entries.length = offsets.length)
    (hrun : run cp index f entries = .ok frames) :
    frames.length = entries.length ∧
      buildFrames cp className methodName index self (entries.zip offsets) =
        .ok (offsets.zip (frames.map (expand self))) := by
  induction entries generalizing self f index offsets frames with
  | nil =>
    cases hrun
    cases offsets with
    | nil => exact ⟨rfl,rfl⟩
    | cons o offsets => cases hlen
  | cons entry entries ih => ?_
  cases offsets with
  | nil => cases hlen
  | cons o offsets => ?_
  rw [run] at hrun
  rw [zip_cons_cons,buildFrames,applyStackMapFrame_expand hlocals]
  cases happly : f.apply cp entry with
  | error fault =>
    rw [happly] at hrun
    cases hrun
  | ok next => ?_
  rw [happly] at hrun
  dsimp only at hrun
  cases hrest : run cp (index+1) next entries with
  | error e =>
    rw [hrest] at hrun
    cases hrun
  | ok frames' => ?_
  rw [hrest] at hrun
  cases hrun
  obtain ⟨hcount,hbuilt⟩ := @ih (expand self next) next (index+1) offsets frames' rfl
    (Nat.succ.inj hlen) hrest
  simp only [Except.map,hbuilt,length_cons,map_cons,zip_cons_cons,hcount,
    expand_expand,true_and]

theorem buildFrames_error {self : VerificationFrame} {f : LogicalFrame} {index i : Nat} {fault : FrameFault}
    {entries : List StackMapFrame} {offsets : List UInt16}
    (hlocals : self.locals = f.locals.flatMap slotsOf) (hlen : entries.length = offsets.length)
    (hrun : run cp index f entries = .error (i,fault)) :
    ∃ k offset, i = index+k ∧ offsets[k]? = some offset ∧
      buildFrames cp className methodName index self (entries.zip offsets) =
        .error (entryError className methodName i offset fault) := by
  induction entries generalizing self f index offsets with
  | nil => cases hrun
  | cons entry entries ih => ?_
  cases offsets with
  | nil => cases hlen
  | cons o offsets => ?_
  rw [run] at hrun
  rw [zip_cons_cons,buildFrames,applyStackMapFrame_expand hlocals]
  cases happly : f.apply cp entry with
  | error fault' =>
    rw [happly] at hrun
    cases hrun
    exact ⟨0,o,rfl,rfl,rfl⟩
  | ok next => ?_
  rw [happly] at hrun
  dsimp only at hrun
  cases hrest : run cp (index+1) next entries with
  | ok frames' =>
    rw [hrest] at hrun
    cases hrun
  | error e => ?_
  rw [hrest] at hrun
  cases hrun
  obtain ⟨k,offset,hi,hk,hbuilt⟩ := @ih (expand self next) next (index+1) offsets rfl
    (Nat.succ.inj hlen) hrest
  refine ⟨k+1,offset,by omega,hk,?_⟩
  simp [Except.map,hbuilt]

theorem foldl_insert (built : List (UInt16 × VerificationFrame)) (frames : DeclaredFrames)
    (hnodup : (built.map fst).Nodup) (offset : UInt16) :
    (∀ frame, (offset,frame) ∈ built → built.foldl DeclaredFrames.insert frames offset = some frame) ∧
      (offset ∉ built.map fst → built.foldl DeclaredFrames.insert frames offset = frames offset) := by
  induction built generalizing frames with
  | nil => exact ⟨fun frame h => (not_mem_nil h).elim,fun _ => rfl⟩
  | cons b built ih => ?_
  rw [map_cons,nodup_cons] at hnodup
  obtain ⟨hhere,hother⟩ := ih (frames.insert b) hnodup.2
  rw [foldl_cons]
  constructor
  · intro frame hmem
    rcases mem_cons.mp hmem with rfl | hmem
    · rw [hother hnodup.1]
      exact if_pos rfl
    · exact hhere frame hmem
  intro hnot
  rw [map_cons,mem_cons,not_or] at hnot
  rw [hother hnot.2]
  exact if_neg hnot.1

theorem length_runningSums (prev : Option Nat) (entries : List StackMapFrame) :
    (StackMapTable.runningSums prev entries).length = entries.length := by
  induction entries generalizing prev with
  | nil => rfl
  | cons entry entries ih => exact congrArg Nat.succ (ih _)

theorem absoluteOffsets_nodup {table : StackMapTable} {offsets : List UInt16}
    (h : table.absoluteOffsets = .ok offsets) : offsets.Nodup ∧ table.entries.length = offsets.length := by
  have hsums := StackMapTable.absoluteOffsets_eq_ok h
  constructor
  · have hascending := StackMapTable.runningSums_pairwise none table.entries
    rw [← hsums,pairwise_map] at hascending
    refine List.Pairwise.imp (fun {a b} hlt heq => ?_) hascending
    rw [heq] at hlt
    exact Nat.lt_irrefl _ hlt
  · rw [← length_runningSums none,← hsums,length_map]

theorem run_append {index : Nat} {f : LogicalFrame} {first rest : List StackMapFrame}
    {frames : List LogicalFrame} (hrun : run cp index f first = .ok frames) :
    run cp index f (first ++ rest) =
      (run cp (index+first.length) (frames.getLast?.getD f) rest).map (frames ++ ·) := by
  induction first generalizing index f frames with
  | nil =>
    cases hrun
    cases h : run cp index f rest <;> simp [Except.map,h]
  | cons entry first ih => ?_
  rw [run] at hrun
  rw [cons_append,run]
  cases happly : f.apply cp entry with
  | error fault =>
    rw [happly] at hrun
    cases hrun
  | ok next => ?_
  rw [happly] at hrun
  dsimp only at hrun ⊢
  cases hfirst : run cp (index+1) next first with
  | error e =>
    rw [hfirst] at hrun
    cases hrun
  | ok frames' => ?_
  rw [hfirst] at hrun
  cases hrun
  rw [ih hfirst]
  have hlast : (next :: frames').getLast?.getD f = frames'.getLast?.getD next := by
    cases frames' with
    | nil => rfl
    | cons g gs => simp [getLast?_eq_some_getLast]
  rw [hlast,length_cons,show index+(first.length+1) = index+1+first.length by omega]
  cases run cp (index+1+first.length) (frames'.getLast?.getD next) rest <;> rfl

/-- The table of declared frames is the expansion of the logical frames of the entries, each under its
absolute offset; a refused entry is named with its place and its offset, and an entry that chops more
locals than there are is refused. -/
theorem buildDeclaredFrames_exact (table : StackMapTable) (cp : ConstantPool) (shape : VerificationFrame)
    (initial : LogicalFrame) (className methodName : String) :
    let initialFrame := { shape with locals := initial.locals.flatMap slotsOf }
    (∀ e, table.absoluteOffsets = .error e →
      buildDeclaredFrames table initialFrame cp className methodName =
        .error ⟨className,methodName,s!"StackMapTable absolute_offsets: {displayReaderError e}"⟩) ∧
    ∀ offsets, table.absoluteOffsets = .ok offsets →
      (∀ frames, run cp 0 initial table.entries = .ok frames →
        ∃ declared, buildDeclaredFrames table initialFrame cp className methodName = .ok declared ∧
          offsets.length = frames.length ∧
          (∀ (i : Nat) (offset : UInt16) (frame : LogicalFrame), offsets[i]? = some offset →
            frames[i]? = some frame →
            declared offset = some (expand shape frame)) ∧
          ∀ offset, offset ∉ offsets → declared offset = none) ∧
      (∀ i fault, run cp 0 initial table.entries = .error (i,fault) →
        ∃ offset, offsets[i]? = some offset ∧
          buildDeclaredFrames table initialFrame cp className methodName =
            .error (entryError className methodName i offset fault)) ∧
      ∀ first delta k rest before, table.entries = first ++ .chopFrame delta k :: rest →
        run cp 0 initial first = .ok before →
        (before.getLast?.getD initial).locals.length < k.toNat →
        ∃ offset, offsets[first.length]? = some offset ∧
          buildDeclaredFrames table initialFrame cp className methodName =
            .error (entryError className methodName first.length offset .notEnoughLocals) := by
  intro initialFrame
  have hlocals : initialFrame.locals = initial.locals.flatMap slotsOf := rfl
  refine ⟨fun e he => by rw [buildDeclaredFrames,he],fun offsets hoffsets => ?_⟩
  obtain ⟨hnodup,hlen⟩ := absoluteOffsets_nodup hoffsets
  have hrefused : ∀ i fault, run cp 0 initial table.entries = .error (i,fault) →
      ∃ offset, offsets[i]? = some offset ∧
        buildDeclaredFrames table initialFrame cp className methodName =
          .error (entryError className methodName i offset fault) := by
    intro i fault hrun
    obtain ⟨k,offset,hi,hoffset,hbuilt⟩ :=
      @buildFrames_error cp className methodName _ _ _ _ _ _ _ hlocals hlen hrun
    rw [Nat.zero_add] at hi
    rw [buildDeclaredFrames,hoffsets]
    dsimp only
    rw [hbuilt,hi]
    exact ⟨offset,hoffset,rfl⟩
  refine ⟨fun frames hrun => ?_,hrefused,fun first delta k rest before hentries hbefore hfew => ?_⟩
  · obtain ⟨hcount,hbuilt⟩ := @buildFrames_ok cp className methodName _ _ _ _ _ _ hlocals hlen hrun
    have hlengths : offsets.length = (frames.map (expand initialFrame)).length := by
      rw [length_map,hcount,hlen]
    have hkeys : (offsets.zip (frames.map (expand initialFrame))).map fst = offsets :=
      map_fst_zip (Nat.le_of_eq hlengths)
    refine ⟨(offsets.zip (frames.map (expand initialFrame))).foldl DeclaredFrames.insert fun _ => none,
      ?_,by rw [hcount,hlen],fun i offset frame hi hframe => ?_,fun offset hnot => ?_⟩
    · rw [buildDeclaredFrames,hoffsets]
      dsimp only
      rw [hbuilt]
    · refine (foldl_insert _ _ (by rw [hkeys]; exact hnodup) offset).1 _ ?_
      refine mem_of_getElem? (i := i) ?_
      rw [getElem?_zip_eq_some,getElem?_map,hframe]
      exact ⟨hi,rfl⟩
    · exact (foldl_insert _ _ (by rw [hkeys]; exact hnodup) offset).2 (by rw [hkeys]; exact hnot)
  refine hrefused _ _ ?_
  rw [hentries,run_append hbefore,run,LogicalFrame.apply,if_pos hfew,Nat.zero_add]
  rfl

def logicalParameters (className methodName descriptor : List Char) (isStatic : Bool) : List VType :=
  (if isStatic then []
    else if methodName = "<init>".toList then [.uninitializedThis]
    else [.objectRef className])
  ++ paramTypesFromDescriptor descriptor

end
end CratonVM.Verifier
