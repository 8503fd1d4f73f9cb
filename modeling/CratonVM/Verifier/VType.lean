import CratonVM.Reader.Descriptor

/-!
The verification types of `classloading/src/vtype.rs`: assignability and the merge of two types.
Class names are lists of characters. An array type is given by its element descriptor, so that the
bracket every array descriptor starts with cannot be missing.
-/
namespace CratonVM.Verifier
inductive VType where
  | top
  | int
  | float
  | long
  | double
  | null
  | objectRef (name : List Char)
  | arrayRef (element : List Char)
  | uninitializedThis
  | uninitialized (offset : Nat)
  | returnAddress (offset : Nat)
  deriving DecidableEq, Repr

/-- What `invokespecial_target` answers for a reference to another class. -/
inductive SpecialTarget where
  | sameOrDirect
  | assignable
  | notAssignable
  deriving DecidableEq, Repr

/-- The trait the verifier asks about classes, with the trait's own defaults. -/
structure ClassHierarchy where
  isSubclass : (child parent : List Char) → Bool
  isDirectSuperclass : (child parent : List Char) → Bool := fun _ _ => false
  commonSuperclass : List Char → List Char → List Char
  isInterface : List Char → Bool
  isResolvable : List Char → Bool := fun _ => true
  invokespecialTarget : (current refClass : List Char) → Option SpecialTarget := fun _ _ => none
  protectedReceiverRule : (current refClass name descriptor : List Char) → (isMethod : Bool) → Bool :=
    fun _ _ _ _ _ => false
  mergeReferences : VType → VType → Option VType := fun _ _ => none

def objectName : List Char := "java/lang/Object".toList
def serializableName : List Char := "java/io/Serializable".toList
def cloneableName : List Char := "java/lang/Cloneable".toList
def throwableName : List Char := "java/lang/Throwable".toList

def isKnownJdkSubtype (child parent : List Char) : Bool :=
  [("java/security/BasicPermission","java/security/Permission"),
   ("java/lang/RuntimePermission","java/security/BasicPermission"),
   ("java/lang/RuntimePermission","java/security/Permission"),
   ("org/jboss/as/controller/security/ControllerPermission","java/security/BasicPermission"),
   ("org/jboss/as/controller/security/ControllerPermission","java/security/Permission")].any
    fun edge => edge.1.toList = child ∧ edge.2.toList = parent

def knownJdkInterfaces : List String :=
  ["java/lang/CharSequence","java/lang/Comparable","java/lang/Iterable","java/lang/Readable",
   "java/lang/Appendable","java/lang/AutoCloseable","java/lang/Runnable","java/lang/Cloneable",
   "java/lang/constant/Constable","java/lang/constant/ConstantDesc",
   "java/lang/reflect/AnnotatedElement","java/lang/reflect/GenericDeclaration",
   "java/lang/reflect/Member","java/lang/reflect/Type","java/lang/reflect/InvocationHandler",
   "java/lang/annotation/Annotation","java/io/Serializable","java/io/Closeable",
   "java/io/Flushable","java/io/Externalizable","java/io/DataInput","java/io/DataOutput",
   "java/io/ObjectInput","java/io/ObjectOutput","java/io/ObjectStreamConstants",
   "java/util/Collection","java/util/List","java/util/Set","java/util/Map","java/util/Map$Entry",
   "java/util/SortedMap","java/util/SortedSet","java/util/NavigableMap","java/util/NavigableSet",
   "java/util/SequencedCollection","java/util/SequencedMap","java/util/SequencedSet",
   "java/util/Queue","java/util/Deque","java/util/Iterator","java/util/ListIterator",
   "java/util/Enumeration","java/util/Comparator","java/util/RandomAccess",
   "java/util/EventListener","java/util/Spliterator","java/util/concurrent/BlockingQueue",
   "java/util/concurrent/BlockingDeque","java/util/concurrent/ConcurrentMap",
   "java/util/concurrent/ConcurrentNavigableMap","java/util/concurrent/Callable",
   "java/util/concurrent/Future","java/util/concurrent/Executor",
   "java/util/concurrent/ExecutorService","java/util/concurrent/ScheduledExecutorService",
   "java/util/concurrent/CompletionStage","java/util/concurrent/CompletionService",
   "java/util/concurrent/RunnableFuture","java/util/concurrent/RunnableScheduledFuture",
   "java/util/function/Function","java/util/function/BiFunction","java/util/function/Consumer",
   "java/util/function/BiConsumer","java/util/function/Predicate","java/util/function/BiPredicate",
   "java/util/function/Supplier","java/util/function/UnaryOperator",
   "java/util/function/BinaryOperator","java/util/function/IntFunction",
   "java/util/function/IntPredicate","java/util/function/IntConsumer",
   "java/util/function/IntSupplier","java/util/function/IntUnaryOperator",
   "java/util/function/IntBinaryOperator","java/util/function/IntToLongFunction",
   "java/util/function/IntToDoubleFunction","java/util/function/LongFunction",
   "java/util/function/LongPredicate","java/util/function/LongConsumer",
   "java/util/function/LongSupplier","java/util/function/LongUnaryOperator",
   "java/util/function/LongBinaryOperator","java/util/function/LongToIntFunction",
   "java/util/function/LongToDoubleFunction","java/util/function/DoubleFunction",
   "java/util/function/DoublePredicate","java/util/function/DoubleConsumer",
   "java/util/function/DoubleSupplier","java/util/function/DoubleUnaryOperator",
   "java/util/function/DoubleBinaryOperator","java/util/function/DoubleToIntFunction",
   "java/util/function/DoubleToLongFunction","java/util/function/ToIntFunction",
   "java/util/function/ToLongFunction","java/util/function/ToDoubleFunction",
   "java/util/function/ToIntBiFunction","java/util/function/ToLongBiFunction",
   "java/util/function/ToDoubleBiFunction","java/util/function/ObjIntConsumer",
   "java/util/function/ObjLongConsumer","java/util/function/ObjDoubleConsumer",
   "java/util/function/BooleanSupplier","java/util/stream/BaseStream","java/util/stream/Stream",
   "java/util/stream/IntStream","java/util/stream/LongStream","java/util/stream/DoubleStream",
   "java/util/stream/Collector","java/lang/invoke/MethodHandleInfo","java/security/Principal",
   "java/security/PrivilegedAction","java/security/PrivilegedExceptionAction",
   "java/net/SocketOption","java/net/SocketImplFactory","java/nio/channels/Channel",
   "java/nio/channels/ReadableByteChannel","java/nio/channels/WritableByteChannel",
   "java/nio/channels/ByteChannel","java/nio/channels/SeekableByteChannel",
   "java/nio/channels/InterruptibleChannel","java/nio/channels/AsynchronousChannel",
   "java/nio/file/Path","java/nio/file/Watchable","java/time/temporal/Temporal",
   "java/time/temporal/TemporalAccessor","java/time/temporal/TemporalAdjuster",
   "java/time/temporal/TemporalAmount","java/time/temporal/TemporalField",
   "java/time/temporal/TemporalUnit","java/time/chrono/Chronology",
   "java/time/chrono/ChronoLocalDate","java/time/chrono/ChronoLocalDateTime",
   "java/time/chrono/ChronoZonedDateTime"]

def isKnownJdkInterface (name : List Char) : Bool := knownJdkInterfaces.any (·.toList = name)

def stripObjectDescriptor : List Char → Option (List Char)
  | 'L' :: rest => if rest.getLast? = some ';' then some rest.dropLast else none
  | _ => none

/-- The classes every array is an instance of. -/
def isArraySuperclass (name : List Char) : Bool :=
  name = objectName ∨ name = serializableName ∨ name = cloneableName

/-- Array covariance; both arrays are given by their element descriptors. -/
def arrayIsAssignable (h : ClassHierarchy) : (childElem parentElem : List Char) → Bool
  | childElem,parentElem =>
    if childElem = parentElem then true
    else
      match childElem,parentElem with
      | 'L' :: _,'L' :: _ =>
        match stripObjectDescriptor childElem,stripObjectDescriptor parentElem with
        | some childClass,some parentClass =>
          h.isSubclass childClass parentClass || h.isInterface parentClass ||
            isKnownJdkInterface parentClass
        | _,_ => false
      | '[' :: child,'[' :: parent => arrayIsAssignable h child parent
      | '[' :: _,'L' :: _ =>
        match stripObjectDescriptor parentElem with
        | some parentClass => isArraySuperclass parentClass
        | none => false
      | _,_ => false

/-- The merge of two arrays, given by their element descriptors. -/
def mergeArrays (h : ClassHierarchy) : (aElem bElem : List Char) → VType
  | aElem,bElem =>
    if aElem = bElem then .arrayRef aElem
    else
      match aElem,bElem with
      | 'L' :: _,'L' :: _ =>
        match stripObjectDescriptor aElem,stripObjectDescriptor bElem with
        | some aClass,some bClass => .arrayRef ('L' :: h.commonSuperclass aClass bClass ++ [';'])
        | _,_ => .objectRef objectName
      | '[' :: a,'[' :: b =>
        match mergeArrays h a b with
        | .arrayRef inner => .arrayRef ('[' :: inner)
        | _ => .objectRef objectName
      | _,_ => .objectRef objectName

namespace VType
def isCategory2 : VType → Bool
  | .long | .double => true
  | _ => false

def isReference : VType → Bool
  | .objectRef _ | .arrayRef _ | .null | .uninitializedThis | .uninitialized _ => true
  | _ => false

/-- Is this an object whose constructor has not run? -/
def isUninitialized : VType → Bool
  | .uninitializedThis | .uninitialized _ => true
  | _ => false

/-- Is this an initialized class instance or array, of a known type? -/
def isClassOrArray : VType → Bool
  | .objectRef _ | .arrayRef _ => true
  | _ => false

def ofClassName : List Char → VType
  | '[' :: element => .arrayRef element
  | name => .objectRef name

/-- The name of a class or array type, as the constant pool would give it. -/
def refName : VType → Option (List Char)
  | .objectRef name => some name
  | .arrayRef element => some ('[' :: element)
  | _ => none

def fromFieldDescriptor (descriptor : List Char) : VType :=
  match descriptor with
  | 'I' :: _ | 'B' :: _ | 'C' :: _ | 'S' :: _ | 'Z' :: _ => .int
  | 'J' :: _ => .long
  | 'F' :: _ => .float
  | 'D' :: _ => .double
  | 'L' :: _ =>
    match stripObjectDescriptor descriptor with
    | some className => .objectRef className
    | none => .top
  | '[' :: element => .arrayRef element
  | _ => .top

def isAssignableTo (h : ClassHierarchy) (source target : VType) : Bool :=
  if source = target then true
  else
    match source,target with
    | _,.top => true
    | .null,.objectRef _ => true
    | .null,.arrayRef _ => true
    | .objectRef child,.objectRef parent =>
      h.isSubclass child parent || isKnownJdkSubtype child parent || h.isInterface parent ||
        isKnownJdkInterface parent
    | .arrayRef _,.objectRef parent =>
      isArraySuperclass parent || h.isInterface parent || isKnownJdkInterface parent
    | .arrayRef a,.arrayRef b => arrayIsAssignable h a b
    | _,_ => false

def mergeArms (h : ClassHierarchy) (a b : VType) : VType :=
  match a,b with
  | .null,_ => if b.isReference then b else .top
  | _,.null => if a.isReference then a else .top
  | .objectRef a,.objectRef b => .objectRef (h.commonSuperclass a b)
  | .arrayRef _,.objectRef _ => .objectRef objectName
  | .objectRef _,.arrayRef _ => .objectRef objectName
  | .arrayRef a,.arrayRef b => mergeArrays h a b
  | _,_ => .top

def merge (h : ClassHierarchy) (a b : VType) : VType :=
  if a = b then a
  else if a.isClassOrArray ∧ b.isClassOrArray then (h.mergeReferences a b).getD (mergeArms h a b)
  else mergeArms h a b

end VType

def fieldDescriptorLen (text : List Char) : Option Nat :=
  let dims := (text.takeWhile (· = '[')).length
  if dims > 255 then none
  else
    match text.drop dims with
    | [] => none
    | tag :: rest =>
      if tag ∈ ['B','C','D','F','I','J','S','Z'] then some (dims+1)
      else if tag = 'L' then
        let name := rest.takeWhile (· ≠ ';')
        if name.any fun c => c = '.' ∨ c = '[' then none
        else if name.length = rest.length ∨ name = [] then none
        else some (dims+name.length+2)
      else none

def isValidFieldDescriptor (descriptor : List Char) : Bool :=
  fieldDescriptorLen descriptor = some descriptor.length

/-- The text behind the parameters and their closing parenthesis. Every round takes at least one
character, so the length of the text is enough fuel. -/
def skipParameters : (fuel : Nat) → List Char → Option (List Char)
  | 0,_ => none
  | _+1,[] => none
  | fuel+1,c :: rest =>
    if c = ')' then some rest
    else (fieldDescriptorLen (c :: rest)).bind fun n => skipParameters fuel ((c :: rest).drop n)

def isValidMethodDescriptor : List Char → Bool
  | '(' :: rest =>
    match skipParameters rest.length rest with
    | some ('V' :: after) => after = []
    | some returned => isValidFieldDescriptor returned
    | none => false
  | _ => false

/-- The type behind the last closing parenthesis, `none` for `void`. -/
def returnTypeFromDescriptor (descriptor : List Char) : Option VType :=
  if ')' ∈ descriptor then
    let returned := (descriptor.reverse.takeWhile (· ≠ ')')).reverse
    if returned = ['V'] then none else some (.fromFieldDescriptor returned)
  else none

def paramTypesLoop : (fuel : Nat) → List Char → List VType
  | 0,_ => []
  | _+1,[] => []
  | fuel+1,c :: rest =>
    if c = ')' then []
    else
      match fieldDescriptorLen (c :: rest) with
      | none => []
      | some n => .fromFieldDescriptor ((c :: rest).take n) :: paramTypesLoop fuel ((c :: rest).drop n)

def paramTypesFromDescriptor : List Char → List VType
  | '(' :: rest => paramTypesLoop rest.length rest
  | _ => []

/-- Dimensions and element class of a reference type, a primitive element promoted. -/
def libverifyParts : VType → Nat × List Char
  | .arrayRef element =>
    let inner := (element.takeWhile (· = '[')).length
    match stripObjectDescriptor (element.drop inner) with
    | some className => (inner+1,className)
    | none => (inner,objectName)
  | .objectRef name => (0,name)
  | _ => (0,[])

def libverifyBuild : (dims : Nat) → (base : List Char) → VType
  | 0,base => .objectRef base
  | inner+1,base => .arrayRef (List.replicate inner '[' ++ 'L' :: base ++ [';'])

def isSpecialInterface (name : List Char) : Bool := name = cloneableName ∨ name = serializableName

/-- Two array types, or what is left of them, by dimensions and element class. -/
def libverifyMergeParts (h : ClassHierarchy) (a b : VType) : VType :=
  let (da,ba) := libverifyParts a
  let (db,bb) := libverifyParts b
  if da = db then
    if ba = bb then libverifyBuild da ba
    else if ba = objectName ∨ bb = objectName then libverifyBuild da objectName
    else libverifyBuild da (h.commonSuperclass ba bb)
  else if da < db then
    if isSpecialInterface ba ∧ da > 0 then a else libverifyBuild da objectName
  else
    if isSpecialInterface bb ∧ db > 0 then b else libverifyBuild db objectName

/-- The merge of two references one of which is an array; the marks on the names that stand for a
fallback are left out, only the receiver rule reads them. -/
def libverifyArrayMerge (h : ClassHierarchy) (a b : VType) : Option VType :=
  match a,b with
  | .objectRef _,.objectRef _ => none
  | .arrayRef _,.objectRef nb =>
    if nb = objectName then some (.objectRef objectName)
    else if isSpecialInterface nb then some b
    else some (libverifyMergeParts h a b)
  | .objectRef na,.arrayRef _ =>
    if na = objectName then some (.objectRef objectName)
    else if isSpecialInterface na then some a
    else some (libverifyMergeParts h a b)
  | .arrayRef _,.arrayRef _ => some (libverifyMergeParts h a b)
  | _,_ => none

def ClassHierarchy.watch (inner : ClassHierarchy) : ClassHierarchy :=
  { inner with mergeReferences := libverifyArrayMerge inner }

end CratonVM.Verifier
