import CratonVM.Verifier.Frame

/-!
The type effect of every instruction (`classloading/src/verify_insn.rs`). The fields of the scratch
that are caches are left out; `newSites` are the `new` instructions walked so far, and
`isFallbackMerge` stands for the marks on merged names, which live in the identity of the name.
-/
namespace CratonVM.Verifier
open Reader (Instruction ConstantPool)

structure VerifyScratch where
  oldVerifier : Bool
  oldTexts : Bool
  skipLinkageRules : Bool
  receiverRule : Bool
  initProtectedRule : Bool
  ldcClassRefused : Bool
  oldReceiverRuleOn : Bool
  oldReceiverMerged : Bool
  deriving DecidableEq, Repr

structure InsnContext where
  cp : ConstantPool
  className : List Char
  methodName : List Char
  methodDescriptor : List Char
  hierarchy : ClassHierarchy
  scratch : VerifyScratch
  verifyControlRules : Bool
  newSites : Nat → Option Nat
  isFallbackMerge : List Char → Bool

structure InsnVerifyResult where
  fallsThrough : Bool
  branchTargets : List Nat
  deriving DecidableEq, Repr

def initName : List Char := "<init>".toList

def memberRefParts (cp : ConstantPool) (index : Nat) : Option (List Char × List Char × List Char) := do
  let (classIndex,nameAndTypeIndex) ← match cp.get index with
    | some (.fieldReference c n) => some (c,n)
    | some (.methodReference c n) => some (c,n)
    | some (.interfaceMethodReference c n) => some (c,n)
    | _ => none
  let className ← cp.getClassName classIndex
  let (name,descriptor) ← cp.getNameAndType nameAndTypeIndex
  pure (className,name,descriptor)

inductive RefKind where
  | method
  | interfaceMethod
  | dynamic
  deriving DecidableEq, Repr

inductive RefAccept where
  | method
  | methodOrInterface
  | interface
  | dynamic
  deriving DecidableEq, Repr

def RefAccept.allows : RefAccept → RefKind → Bool
  | .method,kind => kind = .method
  | .methodOrInterface,kind => kind = .method || kind = .interfaceMethod
  | .interface,kind => kind = .interfaceMethod
  | .dynamic,kind => kind = .dynamic

structure MethodRefInfo where
  kind : RefKind
  params : List VType
  ret : Option VType
  isInit : Bool
  specialName : Bool
  owner : Option (List Char)
  referenceSpecial : Bool

def referenceName : List Char := "java/lang/ref/Reference".toList

/-- Is this `get0`, `refersTo0` or `clear0` of `Reference`? -/
def referenceSpecialName (owner : Option (List Char)) (kind : RefKind) (name : List Char) : Bool :=
  owner = some referenceName && kind = .method &&
    (name = "get0".toList || name = "refersTo0".toList || name = "clear0".toList)

def methodInfo (cp : ConstantPool) (index : Nat) (accept : RefAccept) : Option MethodRefInfo := do
  let (kind,owner,nameAndTypeIndex) ← match cp.get index with
    | some (.methodReference c n) => some (RefKind.method,cp.getClassName c,n)
    | some (.interfaceMethodReference _ n) => some (.interfaceMethod,none,n)
    | some (.invokeDynamic _ n) => some (.dynamic,none,n)
    | _ => none
  let (name,descriptor) ← cp.getNameAndType nameAndTypeIndex
  if accept.allows kind ∧ name ≠ [] ∧ isValidMethodDescriptor descriptor then
    pure { kind, owner
           params := paramTypesFromDescriptor descriptor
           ret := returnTypeFromDescriptor descriptor
           isInit := kind ≠ .dynamic && name = initName
           specialName := kind ≠ .dynamic && name.head? = some '<'
           referenceSpecial := referenceSpecialName owner kind name }
  else none

def fieldTypeOf (cp : ConstantPool) (index : Nat) : Option VType := do
  let (classIndex,nameAndTypeIndex) ← match cp.get index with
    | some (.fieldReference c n) => some (c,n)
    | _ => none
  let _ ← cp.getClassName classIndex
  let (name,descriptor) ← cp.getNameAndType nameAndTypeIndex
  if name ≠ [] ∧ isValidFieldDescriptor descriptor then pure (.fromFieldDescriptor descriptor)
  else none

/-- The class behind the brackets of a name. -/
def elementName (name : List Char) : List Char :=
  (stripObjectDescriptor (name.dropWhile (· = '['))).getD name

def receiverAssignable (ctx : InsnContext) (receiver : VType) (target : List Char) : Bool :=
  if !(ctx.scratch.receiverRule || ctx.scratch.oldReceiverRuleOn) || ctx.scratch.skipLinkageRules
      || target = objectName then true
  else
    match receiver.refName with
    | none => true
    | some name =>
      if name = target then true
      else if !ctx.scratch.receiverRule && ctx.scratch.oldReceiverMerged && ctx.isFallbackMerge name
      then true
      else
        receiver.isAssignableTo ctx.hierarchy (.ofClassName target)
          || !(ctx.hierarchy.isResolvable (elementName target)
            && ctx.hierarchy.isResolvable (elementName name))

/-- The receiver rule against the class of a reference that has one. -/
def ownerAssignable (ctx : InsnContext) (receiver : VType) (owner : Option (List Char)) : Bool :=
  owner.all (receiverAssignable ctx receiver)

def protectedCandidate (ctx : InsnContext) (refClass name descriptor : List Char)
    (isMethod : Bool) : Bool :=
  refClass ≠ ctx.className && refClass.head? ≠ some '[' &&
    ctx.hierarchy.protectedReceiverRule ctx.className refClass name descriptor isMethod

def protectedReceiverAllowed (ctx : InsnContext) (index : Nat) (receiver : VType)
    (isMethod : Bool) : Bool :=
  if ctx.scratch.skipLinkageRules || receiver = .objectRef ctx.className || !receiver.isClassOrArray
  then true
  else
    match memberRefParts ctx.cp index with
    | none => true
    | some (refClass,name,descriptor) =>
      if protectedCandidate ctx refClass name descriptor isMethod then
        match receiver with
        | .objectRef className =>
          ctx.hierarchy.isSubclass className ctx.className
            || !ctx.hierarchy.isSubclass className refClass
        | _ => isMethod && refClass = objectName && name = "clone".toList
      else true

def invokespecialTargetAllowed (ctx : InsnContext) (index : Nat) : Bool :=
  if ctx.scratch.skipLinkageRules then true
  else
    match memberRefParts ctx.cp index with
    | none => true
    | some (refClass,name,_) =>
      if name = initName ∨ refClass = ctx.className then true
      else
        let interfaceRef := match ctx.cp.get index with
          | some (.interfaceMethodReference _ _) => true
          | _ => false
        match ctx.hierarchy.invokespecialTarget ctx.className refClass with
        | some .notAssignable => false
        | some .assignable => !interfaceRef || ctx.scratch.oldVerifier
        | _ => true

def internalCallAllowed (info : MethodRefInfo) (invokespecial : Bool) : Bool :=
  !info.specialName || (invokespecial && info.isInit)

/-- The constructor's owner is the current class or its direct superclass. -/
def initOfThisAllowed (ctx : InsnContext) (info : MethodRefInfo) : Bool :=
  match info.owner with
  | none => true
  | some owner =>
    owner = ctx.className || ctx.hierarchy.isDirectSuperclass ctx.className owner

/-- The class the `new` at `newPc` names is the constructor's, and a protected constructor of
another package initializes an object of the current class only. -/
def initOfNewAllowed (ctx : InsnContext) (index newPc : Nat) (owner : List Char) : Bool :=
  (match (ctx.newSites newPc).bind ctx.cp.getClassName with
    | some newClass => newClass = owner
    | none => true)
  && (if ctx.scratch.initProtectedRule && !ctx.scratch.skipLinkageRules then
        match memberRefParts ctx.cp index with
        | some (_,_,descriptor) =>
          !(protectedCandidate ctx owner initName descriptor true)
            || ctx.hierarchy.isSubclass owner ctx.className
        | none => true
      else true)

/-- The receiver check of `Reference.get0` and its siblings. -/
def referenceReceiverAllowed (ctx : InsnContext) : VType → Bool
  | .null | .top => true
  | .objectRef name =>
    name = referenceName || name = "java/lang/ref/WeakReference".toList
      || name = "java/lang/ref/SoftReference".toList
      || name = "java/lang/ref/PhantomReference".toList
      || ctx.hierarchy.isSubclass name referenceName
  | _ => false

/-- A value is returned only where the method declares one it is assignable to. -/
def returnValueAllowed (ctx : InsnContext) (value : VType) : Bool :=
  !ctx.verifyControlRules ||
    match returnTypeFromDescriptor ctx.methodDescriptor with
    | none => false
    | some declared => value.isAssignableTo ctx.hierarchy declared

def referenceReturnAllowed (ctx : InsnContext) (value : VType) : Bool :=
  match returnTypeFromDescriptor ctx.methodDescriptor with
  | some declared => declared.isClassOrArray && value.isAssignableTo ctx.hierarchy declared
  | none => false

def voidReturnAllowed (ctx : InsnContext) (frame : VerificationFrame) : Bool :=
  !(ctx.verifyControlRules && ctx.methodDescriptor.reverse.take 2 ≠ ['V',')'])
    && !(ctx.methodName = initName && ctx.className ≠ objectName && frame.hasUninitializedThis)

namespace FrameM
def okThrough : FrameM InsnVerifyResult := pure ⟨true,[]⟩
def okNoFallthrough : FrameM InsnVerifyResult := pure ⟨false,[]⟩

/-- Pop the types in this order, then push the types in this order. -/
def operate (h : ClassHierarchy) (pops pushes : List VType) : FrameM InsnVerifyResult := do
  popAllTyped h pops
  pushes.forM pushTyped
  okThrough

end FrameM

open FrameM

def branchTarget (pc : Nat) (offset : Int) : Nat :=
  let target := min (pc : Int) (2^31-1)+offset
  if target < 0 ∨ target > 2^16-1 then 0 else target.toNat

/-- Pop the operands and jump, or go on. -/
def branchOn (h : ClassHierarchy) (pops : List VType) (pc : Nat) (offset : Int) :
    FrameM InsnVerifyResult := do
  popAllTyped h pops
  pure ⟨true,[branchTarget pc offset]⟩

def branchOnReferences (n pc : Nat) (offset : Int) : FrameM InsnVerifyResult := do
  (List.range n).forM fun _ => do let _ ← popReference
  pure ⟨true,[branchTarget pc offset]⟩

def switchTo (pc : Nat) (offsets : List Int) (default : Int) : InsnVerifyResult :=
  ⟨false,(((offsets ++ [default]).map (branchTarget pc)).insertionSort (· ≤ ·)).dedup⟩

def loadLocal (h : ClassHierarchy) (index : Nat) (t : VType) : FrameM InsnVerifyResult := do
  let found ← localLoad index
  require (found.isAssignableTo h t) .badLocalType
  push t
  okThrough

def loadWide (index : Nat) (t : VType) : FrameM InsnVerifyResult := do
  localLoadWide index t
  push t
  push .top
  okThrough

def returnOffset : VType → Option Nat
  | .returnAddress pc => some pc
  | _ => none

def loadReference (index : Nat) : FrameM InsnVerifyResult := do
  let found ← localLoad index
  require (found.isReference || (returnOffset found).isSome) .badLocalType
  push found
  okThrough

def storeReference (index : Nat) : FrameM InsnVerifyResult := do
  let t ← pop
  require (t.isReference || (returnOffset t).isSome) .badStackType
  localStore index t
  okThrough

def loadElement (ctx : InsnContext) (kind : ArrayKind) (t : VType) : FrameM InsnVerifyResult := do
  let _ ← popExpect ctx.hierarchy .int
  let _ ← popArrayOf ctx.verifyControlRules kind
  pushTyped t
  okThrough

def elementType : VType → VType
  | .arrayRef element => .fromFieldDescriptor element
  | .null => .null
  | _ => .objectRef objectName

def loadReferenceElement (ctx : InsnContext) : FrameM InsnVerifyResult := do
  let _ ← popExpect ctx.hierarchy .int
  let array ← popArrayOf ctx.verifyControlRules .references
  push (elementType array)
  okThrough

def storeElement (ctx : InsnContext) (kind : ArrayKind) (t : VType) : FrameM InsnVerifyResult := do
  popTyped ctx.hierarchy t
  let _ ← popExpect ctx.hierarchy .int
  let _ ← popArrayOf ctx.verifyControlRules kind
  okThrough

def storeReferenceElement (ctx : InsnContext) : FrameM InsnVerifyResult := do
  let value ← popReference
  require (!value.isUninitialized) .badStackType
  let _ ← popExpect ctx.hierarchy .int
  let _ ← popArrayOf ctx.verifyControlRules .references
  okThrough

def returnValue (ctx : InsnContext) (t : VType) : FrameM InsnVerifyResult := do
  popTyped ctx.hierarchy t
  require (returnValueAllowed ctx t) .badReturn
  okNoFallthrough

/-- The type of a constant an `ldc` may load. -/
def ldcType (ctx : InsnContext) (index : Nat) : Option VType :=
  match ctx.cp.get index with
  | some .integer => some .int
  | some .float => some .float
  | some (.stringReference _) => some (.objectRef "java/lang/String".toList)
  | some (.classReference _) =>
    if ctx.scratch.ldcClassRefused then none else some (.objectRef "java/lang/Class".toList)
  | some (.methodHandle _ _) => some (.objectRef "java/lang/invoke/MethodHandle".toList)
  | some (.methodType _) => some (.objectRef "java/lang/invoke/MethodType".toList)
  | some (.dynamic _ nameAndTypeIndex) =>
    ((ctx.cp.getNameAndType nameAndTypeIndex).map fun (_,d) => VType.fromFieldDescriptor d).filter
      (!·.isCategory2)
  | _ => none

def ldc2wType (ctx : InsnContext) (index : Nat) : Option VType :=
  match ctx.cp.get index with
  | some .long => some .long
  | some .double => some .double
  | some (.dynamic _ nameAndTypeIndex) =>
    ((ctx.cp.getNameAndType nameAndTypeIndex).map fun (_,d) => VType.fromFieldDescriptor d).filter
      (·.isCategory2)
  | _ => none

/-- Look up a constant, or refuse. -/
def orRefuse {α : Type} (found : Option α) : FrameM α :=
  match found with
  | some a => pure a
  | none => refuse .badConstant

def pushConstant (found : Option VType) : FrameM InsnVerifyResult := do
  let t ← orRefuse found
  pushTyped t
  okThrough

def pushReturned (ret : Option VType) : FrameM InsnVerifyResult := do
  ret.toList.forM pushTyped
  okThrough

def accessField (ctx : InsnContext) (index : Nat) (put : Bool) : FrameM InsnVerifyResult := do
  let fieldType ← orRefuse (fieldTypeOf ctx.cp index)
  popAllTyped ctx.hierarchy (if put then [fieldType] else [])
  let objectref ← popReference
  require (ownerAssignable ctx objectref ((memberRefParts ctx.cp index).map Prod.fst)) .badReceiver
  require (protectedReceiverAllowed ctx index objectref false) .badReceiver
  pushReturned (if put then none else some fieldType)

def invokevirtual (ctx : InsnContext) (index : Nat) : FrameM InsnVerifyResult := do
  let info ← orRefuse (methodInfo ctx.cp index .method)
  require (internalCallAllowed info false) .internalMethod
  popAllTyped ctx.hierarchy info.params.reverse
  let receiver ← popReference
  require (ownerAssignable ctx receiver info.owner) .badReceiver
  require (protectedReceiverAllowed ctx index receiver true) .badReceiver
  require (!info.referenceSpecial || referenceReceiverAllowed ctx receiver) .badReceiver
  pushReturned info.ret

/-- What a constructor call does to its receiver's type. -/
def initReceiver (ctx : InsnContext) (index : Nat) (info : MethodRefInfo) (receiver : VType) :
    FrameM Unit :=
  if !info.isInit then pure ()
  else
    match receiver with
    | .uninitializedThis => do
      require (initOfThisAllowed ctx info) .badInit
      replaceVtype receiver (.objectRef ctx.className)
    | .uninitialized newPc =>
      match info.owner with
      | some owner => do
        require (initOfNewAllowed ctx index newPc owner) .badInit
        replaceVtype receiver (.objectRef owner)
      | none => refuse .badInit
    | _ => refuse .badInit

def invokespecial (ctx : InsnContext) (index : Nat) : FrameM InsnVerifyResult := do
  let info ← orRefuse (methodInfo ctx.cp index .methodOrInterface)
  require (internalCallAllowed info true) .internalMethod
  require (info.isInit || invokespecialTargetAllowed ctx index) .badCode
  popAllTyped ctx.hierarchy info.params.reverse
  let receiver ← popReference
  require (info.isInit || receiverAssignable ctx receiver ctx.className) .badReceiver
  initReceiver ctx index info receiver
  pushReturned info.ret

def invokestatic (ctx : InsnContext) (index : Nat) (accept : RefAccept) :
    FrameM InsnVerifyResult := do
  let info ← orRefuse (methodInfo ctx.cp index accept)
  require (internalCallAllowed info false) .internalMethod
  popAllTyped ctx.hierarchy info.params.reverse
  pushReturned info.ret

def invokeinterface (ctx : InsnContext) (index count : Nat) : FrameM InsnVerifyResult := do
  let info ← orRefuse (methodInfo ctx.cp index .interface)
  let slots := (info.params.map fun t => if t.isCategory2 then 2 else 1).sum
  require (ctx.scratch.skipLinkageRules || !ctx.verifyControlRules || count = slots+1) .badCode
  require (internalCallAllowed info false) .internalMethod
  popAllTyped ctx.hierarchy info.params.reverse
  let _ ← popReference
  pushReturned info.ret

def verifyNew (ctx : InsnContext) (index pc : Nat) : FrameM InsnVerifyResult := do
  let className ← orRefuse (ctx.cp.getClassName index)
  require (className.head? ≠ some '[' && className ≠ []) .badConstant
  push (.uninitialized (pc%2^16))
  okThrough

/-- The element of the array a `newarray` of this code makes. -/
def primitiveElement (atype : Nat) : Option (List Char) :=
  if 4 ≤ atype then (['Z','C','F','D','B','S','I','J'][atype-4]?).map ([·]) else none

def anewarray (ctx : InsnContext) (index : Nat) : FrameM InsnVerifyResult := do
  let _ ← popExpect ctx.hierarchy .int
  let className ← orRefuse (ctx.cp.getClassName index)
  push (.arrayRef (if className.head? = some '[' then className else 'L' :: className ++ [';']))
  okThrough

def multianewarray (ctx : InsnContext) (index dimensions : Nat) : FrameM InsnVerifyResult := do
  let className ← orRefuse (ctx.cp.getClassName index)
  let bracketCount := (className.takeWhile (· = '[')).length
  require (0 < bracketCount && 0 < dimensions && dimensions ≤ bracketCount) .badCode
  popAllTyped ctx.hierarchy (List.replicate dimensions .int)
  push (.ofClassName className)
  okThrough

def checkcast (ctx : InsnContext) (index : Nat) : FrameM InsnVerifyResult := do
  let _ ← popReference
  let className ← orRefuse (ctx.cp.getClassName index)
  push (.ofClassName className)
  okThrough

def verifyAthrow (ctx : InsnContext) : FrameM InsnVerifyResult := do
  let value ← popReference
  require (value = .null || value.isAssignableTo ctx.hierarchy (.objectRef throwableName))
    .badStackType
  okNoFallthrough

def verifyRet (index : Nat) : FrameM InsnVerifyResult := do
  let found ← localLoad index
  let pc ← orRefuse (returnOffset found)
  pure ⟨false,[pc]⟩

def verifyJsr (pc size : Nat) (offset : Int) : FrameM InsnVerifyResult := do
  push (.returnAddress ((pc+size)%2^16))
  pure ⟨false,[branchTarget pc offset]⟩

/-- One slot that is a whole value. -/
def popSingle : FrameM VType := do
  let t ← pop
  let upper ← isCat2UpperHalf t
  require (!upper) .splitCategory2
  pure t

/-- Two slots that are whole values. -/
def popPair : FrameM (List VType) := do
  let slots ← popNSlots 2
  checkNoSplit slots
  pure slots

def stackDup : FrameM InsnVerifyResult := do
  let t ← popSingle
  pushAll [t,t]
  okThrough

def stackDupX1 : FrameM InsnVerifyResult := do
  let val1 ← pop
  let val2 ← pop
  let upper ← isCat2UpperHalf val2
  require (!(upper || val1 = .top || val2 = .top)) .splitCategory2
  pushAll [val1,val2,val1]
  okThrough

def stackDupX2 : FrameM InsnVerifyResult := do
  let val1 ← popSingle
  require (val1 ≠ .top) .splitCategory2
  let lower ← popPair
  pushAll ([val1] ++ lower ++ [val1])
  okThrough

def stackDup2 : FrameM InsnVerifyResult := do
  let slots ← popPair
  pushAll (slots ++ slots)
  okThrough

def stackDup2X1 : FrameM InsnVerifyResult := do
  let upper ← popPair
  let val3 ← popSingle
  require (val3 ≠ .top) .splitCategory2
  pushAll (upper ++ [val3] ++ upper)
  okThrough

def stackDup2X2 : FrameM InsnVerifyResult := do
  let upper ← popPair
  let lower ← popPair
  pushAll (upper ++ lower ++ upper)
  okThrough

def stackSwap : FrameM InsnVerifyResult := do
  let val1 ← pop
  let val2 ← pop
  let upper ← isCat2UpperHalf val2
  require (!(upper || val1 = .top || val2 = .top)) .splitCategory2
  pushAll [val1,val2]
  okThrough

def verifyInstruction (ctx : InsnContext) (insn : Instruction) (pc : Nat) :
    FrameM InsnVerifyResult :=
  let h := ctx.hierarchy
  match insn with
  | .nop => okThrough
  | .aconstNull => operate h [] [.null]
  | .iconstM1 | .iconst0 | .iconst1 | .iconst2 | .iconst3 | .iconst4 | .iconst5 | .bipush _
  | .sipush _ => operate h [] [.int]
  | .lconst0 | .lconst1 => operate h [] [.long]
  | .fconst0 | .fconst1 | .fconst2 => operate h [] [.float]
  | .dconst0 | .dconst1 => operate h [] [.double]
  | .ldc index => pushConstant (ldcType ctx index)
  | .ldcW index => pushConstant (ldcType ctx index)
  | .ldc2W index => pushConstant (ldc2wType ctx index)
  | .iload index => loadLocal h index .int
  | .lload index => loadWide index .long
  | .fload index => loadLocal h index .float
  | .dload index => loadWide index .double
  | .aload index => loadReference index
  | .iaload => loadElement ctx (.of 'I') .int
  | .baload => loadElement ctx .byteOrBool .int
  | .caload => loadElement ctx (.of 'C') .int
  | .saload => loadElement ctx (.of 'S') .int
  | .laload => loadElement ctx (.of 'J') .long
  | .faload => loadElement ctx (.of 'F') .float
  | .daload => loadElement ctx (.of 'D') .double
  | .aaload => loadReferenceElement ctx
  | .istore index => do
    let _ ← popExpect h .int
    localStore index .int
    okThrough
  | .lstore index => do
    popExpectCat2 h .long
    localStoreWide index .long
    okThrough
  | .fstore index => do
    let _ ← popExpect h .float
    localStore index .float
    okThrough
  | .dstore index => do
    popExpectCat2 h .double
    localStoreWide index .double
    okThrough
  | .astore index => storeReference index
  | .iastore => storeElement ctx (.of 'I') .int
  | .bastore => storeElement ctx .byteOrBool .int
  | .castore => storeElement ctx (.of 'C') .int
  | .sastore => storeElement ctx (.of 'S') .int
  | .lastore => storeElement ctx (.of 'J') .long
  | .fastore => storeElement ctx (.of 'F') .float
  | .dastore => storeElement ctx (.of 'D') .double
  | .aastore => storeReferenceElement ctx
  | .pop => do
    let _ ← popSingle
    okThrough
  | .pop2 => do
    let _ ← popPair
    okThrough
  | .dup => stackDup
  | .dupX1 => stackDupX1
  | .dupX2 => stackDupX2
  | .dup2 => stackDup2
  | .dup2X1 => stackDup2X1
  | .dup2X2 => stackDup2X2
  | .swap => stackSwap
  | .iadd | .isub | .imul | .idiv | .irem | .iand | .ior | .ixor | .ishl | .ishr | .iushr =>
    operate h [.int,.int] [.int]
  | .ladd | .lsub | .lmul | .ldiv | .lrem | .land | .lor | .lxor =>
    operate h [.long,.long] [.long]
  | .fadd | .fsub | .fmul | .fdiv | .frem => operate h [.float,.float] [.float]
  | .dadd | .dsub | .dmul | .ddiv | .drem => operate h [.double,.double] [.double]
  | .ineg | .i2b | .i2c | .i2s => operate h [.int] [.int]
  | .lneg => operate h [.long] [.long]
  | .fneg => operate h [.float] [.float]
  | .dneg => operate h [.double] [.double]
  | .lshl | .lshr | .lushr => operate h [.int,.long] [.long]
  | .iinc index _ => do
    let found ← localLoad index
    require (found.isAssignableTo h .int) .badLocalType
    okThrough
  | .i2l => operate h [.int] [.long]
  | .i2f => operate h [.int] [.float]
  | .i2d => operate h [.int] [.double]
  | .l2i => operate h [.long] [.int]
  | .l2f => operate h [.long] [.float]
  | .l2d => operate h [.long] [.double]
  | .f2i => operate h [.float] [.int]
  | .f2l => operate h [.float] [.long]
  | .f2d => operate h [.float] [.double]
  | .d2i => operate h [.double] [.int]
  | .d2l => operate h [.double] [.long]
  | .d2f => operate h [.double] [.float]
  | .lcmp => operate h [.long,.long] [.int]
  | .fcmpl | .fcmpg => operate h [.float,.float] [.int]
  | .dcmpl | .dcmpg => operate h [.double,.double] [.int]
  | .ifeq offset | .ifne offset | .iflt offset | .ifge offset | .ifgt offset | .ifle offset =>
    branchOn h [.int] pc offset
  | .ifIcmpeq offset | .ifIcmpne offset | .ifIcmplt offset | .ifIcmpge offset | .ifIcmpgt offset
  | .ifIcmple offset => branchOn h [.int,.int] pc offset
  | .ifAcmpeq offset | .ifAcmpne offset => branchOnReferences 2 pc offset
  | .ifnull offset | .ifnonnull offset => branchOnReferences 1 pc offset
  | .goto offset => pure ⟨false,[branchTarget pc offset]⟩
  | .gotoW offset => pure ⟨false,[branchTarget pc offset]⟩
  | .tableswitch table => do
    let _ ← popExpect h .int
    pure (switchTo pc table.offsets table.default)
  | .lookupswitch table => do
    let _ ← popExpect h .int
    require (ctx.scratch.skipLinkageRules || (table.pairs.map Prod.fst).IsChain (· < ·)) .badCode
    pure (switchTo pc (table.pairs.map Prod.snd) table.default)
  | .ireturn => returnValue ctx .int
  | .lreturn => returnValue ctx .long
  | .freturn => returnValue ctx .float
  | .dreturn => returnValue ctx .double
  | .areturn => do
    let value ← popReference
    require (referenceReturnAllowed ctx value) .badReturn
    okNoFallthrough
  | .return_ => do
    let frame ← get
    require (voidReturnAllowed ctx frame) .badReturn
    okNoFallthrough
  | .getstatic index => pushConstant (fieldTypeOf ctx.cp index)
  | .putstatic index => do
    let fieldType ← orRefuse (fieldTypeOf ctx.cp index)
    popTyped h fieldType
    okThrough
  | .getfield index => accessField ctx index false
  | .putfield index => accessField ctx index true
  | .invokevirtual index => invokevirtual ctx index
  | .invokespecial index => invokespecial ctx index
  | .invokestatic index => invokestatic ctx index .methodOrInterface
  | .invokeinterface index count => invokeinterface ctx index count
  | .invokedynamic index => invokestatic ctx index .dynamic
  | .new index => verifyNew ctx index pc
  | .newarray atype => do
    let element ← orRefuse (primitiveElement atype)
    let _ ← popExpect h .int
    push (.arrayRef element)
    okThrough
  | .anewarray index => anewarray ctx index
  | .multianewarray index dimensions => multianewarray ctx index dimensions
  | .arraylength => do
    let _ ← popArrayOf ctx.verifyControlRules .any
    push .int
    okThrough
  | .athrow => verifyAthrow ctx
  | .checkcast index => checkcast ctx index
  | .instanceof index => do
    let _ ← popReference
    let _ ← orRefuse (ctx.cp.getClassName index)
    push .int
    okThrough
  | .monitorenter | .monitorexit => do
    let _ ← popReference
    okThrough
  | .jsr offset => verifyJsr pc 3 offset
  | .jsrW offset => verifyJsr pc 5 offset
  | .ret index => verifyRet index
  | .wide => refuse .badCode

def noteNewSite (insn : Instruction) (pc : Nat) (sites : Nat → Option Nat) : Nat → Option Nat :=
  match insn with
  | .new index => fun at_ => if at_ = pc%2^16 then some index else sites at_
  | _ => sites

end CratonVM.Verifier
