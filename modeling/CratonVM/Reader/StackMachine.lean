import CratonVM.Reader.Descriptor

/-!
`fast_path_reach` of `reader/src/quickened.rs`: the linear walk that bounds the local slots, and
the pass that bounds the operand stack. The bitmap of instruction starts is a list of them, and
the table from pcs to instructions is a search. No method body is long enough for the 32-bit
counters to wrap.
-/
namespace CratonVM.Reader
open Instruction List Option Prod

/-- A decoded instruction with its position and the one behind it. -/
structure Decoded where
  pc : Nat
  insn : Instruction
  next : Nat
  deriving DecidableEq, Repr

structure FastPathReach where
  locals : Nat
  stack : Option Nat
  deriving DecidableEq, Repr

namespace Instruction
/-- The slots an instruction reaches: its index plus its width. `ret` gives the answer up. -/
def slots : Instruction → Option Nat
  | .iload n | .fload n | .aload n | .istore n | .fstore n | .astore n => some (n+1)
  | .lload n | .dload n | .lstore n | .dstore n => some (n+2)
  | .iinc index _ => some (index+1)
  | .ret _ => none
  | _ => some 0

def targets (here : Int) : Instruction → List Int
  | .ifeq off | .ifne off | .iflt off | .ifge off | .ifgt off | .ifle off
  | .ifIcmpeq off | .ifIcmpne off | .ifIcmplt off | .ifIcmpge off | .ifIcmpgt off | .ifIcmple off
  | .ifAcmpeq off | .ifAcmpne off | .ifnull off | .ifnonnull off
  | .goto off | .jsr off => [here+off]
  | .gotoW off | .jsrW off => [here+off]
  | .tableswitch t => (here+t.default) :: t.offsets.map (here+·)
  | .lookupswitch l => (here+l.default) :: l.pairs.map fun p => here+p.2
  | _ => []

end Instruction

/-- What the linear walk collects. -/
structure Walk where
  starts : List Nat := []
  targets : List Int := []
  reach : Nat := 0
  insns : List Decoded := []
  deriving DecidableEq, Repr

def walkCode (code : List UInt8) (limit : Nat) : (fuel pc : Nat) → Walk → Option Walk
  | 0, _, w => some w
  | fuel+1, pc, w =>
    if pc < limit then
      match decode code pc with
      | .error _ => none
      | .ok (insn,next) =>
        if next ≤ pc then none
        else
          match insn.slots with
          | none => none
          | some slots =>
            walkCode code limit fuel next
              { starts := w.starts ++ [pc]
                targets := w.targets ++ insn.targets pc
                reach := max w.reach slots
                insns := w.insns ++ [⟨pc,insn,next⟩] }
    else some w

/-- Words popped and pushed. `none` for what the pass does not prove. -/
def stackEffect (insn : Instruction) (cp : ConstantPool) : Option (Nat × Nat) :=
  match insn with
  | .nop | .iinc _ _ | .goto _ | .gotoW _ | .return_ => some (0,0)
  | .aconstNull | .iconstM1 | .iconst0 | .iconst1 | .iconst2 | .iconst3 | .iconst4 | .iconst5
  | .fconst0 | .fconst1 | .fconst2 | .bipush _ | .sipush _ | .ldc _ | .ldcW _
  | .iload _ | .fload _ | .aload _ | .new _ => some (0,1)
  | .lconst0 | .lconst1 | .dconst0 | .dconst1 | .ldc2W _ | .lload _ | .dload _ => some (0,2)
  | .iaload | .faload | .aaload | .baload | .caload | .saload => some (2,1)
  | .laload | .daload => some (2,2)
  | .istore _ | .fstore _ | .astore _ | .pop => some (1,0)
  | .lstore _ | .dstore _ | .pop2 => some (2,0)
  | .iastore | .fastore | .aastore | .bastore | .castore | .sastore => some (3,0)
  | .lastore | .dastore => some (4,0)
  | .dup => some (1,2)
  | .dupX1 => some (2,3)
  | .dupX2 => some (3,4)
  | .dup2 => some (2,4)
  | .dup2X1 => some (3,5)
  | .dup2X2 => some (4,6)
  | .swap => some (2,2)
  | .iadd | .isub | .imul | .idiv | .irem | .ishl | .ishr | .iushr | .iand | .ior | .ixor
  | .fadd | .fsub | .fmul | .fdiv | .frem | .fcmpl | .fcmpg => some (2,1)
  | .ladd | .lsub | .lmul | .ldiv | .lrem | .land | .lor | .lxor
  | .dadd | .dsub | .dmul | .ddiv | .drem => some (4,2)
  | .lshl | .lshr | .lushr => some (3,2)
  | .ineg | .fneg | .i2f | .f2i | .i2b | .i2c | .i2s | .newarray _ | .anewarray _ | .arraylength
  | .checkcast _ | .instanceof _ => some (1,1)
  | .lneg | .dneg | .l2d | .d2l => some (2,2)
  | .i2l | .i2d | .f2l | .f2d => some (1,2)
  | .l2i | .l2f | .d2i | .d2f => some (2,1)
  | .lcmp | .dcmpl | .dcmpg => some (4,1)
  | .ifeq _ | .ifne _ | .iflt _ | .ifge _ | .ifgt _ | .ifle _ | .ifnull _ | .ifnonnull _
  | .tableswitch _ | .lookupswitch _ | .ireturn | .freturn | .areturn | .athrow
  | .monitorenter | .monitorexit => some (1,0)
  | .ifIcmpeq _ | .ifIcmpne _ | .ifIcmplt _ | .ifIcmpge _ | .ifIcmpgt _ | .ifIcmple _
  | .ifAcmpeq _ | .ifAcmpne _ | .lreturn | .dreturn => some (2,0)
  | .getstatic index => (fieldWords cp index).map fun words => (0,words)
  | .putstatic index => (fieldWords cp index).map fun words => (words,0)
  | .getfield index => (fieldWords cp index).map fun words => (1,words)
  | .putfield index => (fieldWords cp index).map fun words => (1+words,0)
  | .invokestatic index | .invokedynamic index => memberMethodWords cp index
  | .invokevirtual index | .invokespecial index | .invokeinterface index _ =>
    (memberMethodWords cp index).bind fun w => (checkedAddWords w.1 1).map fun args => (args,w.2)
  | .multianewarray _ dimensions => some (dimensions,1)
  | .jsr _ | .jsrW _ | .ret _ | .wide => none

/-- The offsets an instruction can jump by, and whether it can fall through. -/
def edges : Instruction → List Int × Bool
  | .ifeq off | .ifne off | .iflt off | .ifge off | .ifgt off | .ifle off
  | .ifIcmpeq off | .ifIcmpne off | .ifIcmplt off | .ifIcmpge off | .ifIcmpgt off | .ifIcmple off
  | .ifAcmpeq off | .ifAcmpne off | .ifnull off | .ifnonnull off => ([off],true)
  | .goto off => ([off],false)
  | .gotoW off => ([off],false)
  | .tableswitch t => (t.default :: t.offsets,false)
  | .lookupswitch l => (l.default :: l.pairs.map Prod.snd,false)
  | .ireturn | .lreturn | .freturn | .dreturn | .areturn | .return_ | .athrow => ([],false)
  | _ => ([],true)

/-- The recorded depths, by instruction, and the instructions to look at, the last pushed first. -/
structure DepthTable where
  depth : List (Option Nat)
  work : List Nat
  deriving DecidableEq, Repr

def indexOf (insns : List Decoded) (pc : Nat) : Option Nat := insns.findIdx? fun x => x.pc = pc

/-- Record `d` as the depth on entry to the instruction at `pc`; `none` on a conflict. -/
def enter (insns : List Decoded) (t : DepthTable) (pc d : Nat) : Option DepthTable :=
  match indexOf insns pc with
  | none => none
  | some i =>
    match t.depth.getD i none with
    | some seen => if seen = d then some t else none
    | none => some { depth := t.depth.set i (some d), work := i :: t.work }

def enterAll (insns : List Decoded) (d : Nat) : List Nat → DepthTable → Option DepthTable
  | [], t => some t
  | pc :: pcs, t =>
    match enter insns t pc d with
    | none => none
    | some t => enterAll insns d pcs t

/-- The jumps of an instruction at `here`; `none` when one leads to a negative position. -/
def jumpTargets (here : Int) : List Int → Option (List Nat)
  | [] => some []
  | off :: offs =>
    if here+off < 0 then none
    else (jumpTargets here offs).map ((here+off).toNat :: ·)

/-- The successors of a decoded instruction; `none` when one cannot be in the code. -/
def successors (limit : Nat) (x : Decoded) : Option (List Nat) :=
  let (offsets,fallsThrough) := edges x.insn
  match jumpTargets x.pc offsets with
  | none => none
  | some jumps =>
    if fallsThrough then if x.next ≥ limit then none else some (jumps ++ [x.next])
    else some jumps

def depthRound (insns : List Decoded) (limit : Nat) (cp : ConstantPool) (i : Nat)
    (t : DepthTable) : Option (Nat × DepthTable) := do
  let x ← insns[i]?
  let d ← t.depth.getD i none
  let (pops,pushes) ← stackEffect x.insn cp
  if d < pops then none
  else
    let after := d-pops+pushes
    let succ ← successors limit x
    let t ← enterAll insns after succ t
    pure (after,t)

/-- The loop. An instruction is listed once at most, so one round each and a last one are enough. -/
def depthLoop (insns : List Decoded) (limit : Nat) (cp : ConstantPool) :
    (fuel : Nat) → DepthTable → (maxDepth : Nat) → Option Nat
  | 0, _, _ => none
  | fuel+1, t, maxDepth =>
    match t.work with
    | [] => some maxDepth
    | i :: work =>
      match depthRound insns limit cp i { t with work } with
      | none => none
      | some (after,t) => depthLoop insns limit cp fuel t (max maxDepth after)

def stackDepthReach (insns : List Decoded) (limit : Nat) (handlerPcs : List Nat)
    (cp : ConstantPool) : Option Nat :=
  if insns.isEmpty then some 0
  else do
    let t ← enter insns ⟨insns.map fun _ => none,[]⟩ 0 0
    let t ← enterAll insns 1 handlerPcs t
    depthLoop insns limit cp (insns.length+1) t (if handlerPcs.isEmpty then 0 else 1)

def fastPathReach (code : List UInt8) (handlerPcs : List Nat) (cp : Option ConstantPool) :
    Option FastPathReach :=
  let limit := code.length-2
  match walkCode code limit limit 0 {} with
  | none => none
  | some w =>
    let isStart (t : Nat) : Bool := t < limit && t ∈ w.starts
    if (w.targets.all fun t => t ≥ 0 && isStart t.toNat) && handlerPcs.all isStart then
      some
        { locals := w.reach
          stack := cp.bind fun cp => stackDepthReach w.insns limit handlerPcs cp }
    else none

/-- An operand, or any operand of a category for the instructions that move values untyped. -/
inductive Operand where
  | int
  | float
  | reference
  | returnAddress
  | category1
  | long
  | double
  | category2
  deriving DecidableEq, Repr

namespace Operand
def words : Operand → Nat
  | .int | .float | .reference | .returnAddress | .category1 => 1
  | .long | .double | .category2 => 2

def ofFieldType : FieldType → Operand
  | .byte | .char | .int | .short | .boolean => .int
  | .float => .float
  | .long => .long
  | .double => .double
  | .object _ | .array _ => .reference

theorem words_ofFieldType (t : FieldType) : (ofFieldType t).words = t.stackSlots := by
  cases t <;> rfl

end Operand

def words (l : List Operand) : Nat := (l.map Operand.words).sum

theorem words_parameters (l : List FieldType) :
    words (l.map Operand.ofFieldType) = (l.map FieldType.stackSlots).sum := by
  unfold words
  rw [List.map_map]
  congr 1
  exact List.map_congr_left fun t _ => Operand.words_ofFieldType t

/-- The operands an instruction takes, bottom first, and the results it leaves. -/
structure Form where
  takes : List Operand
  leaves : List Operand
  deriving DecidableEq, Repr

def fieldOperand (cp : ConstantPool) (index : Nat) : Option Operand :=
  match (cp.memberDescriptor index).map FieldType.parse with
  | some (.ok t) => some (.ofFieldType t)
  | _ => none

def methodOperands (cp : ConstantPool) (index : Nat) : Option (List Operand × List Operand) :=
  match (cp.memberDescriptor index).map MethodDescriptor.parse with
  | some (.ok m) =>
    some (m.parameters.map .ofFieldType,(m.returnType.map Operand.ofFieldType).toList)
  | _ => none

/-- The ways in which an instruction can complete. A member that does not resolve to a descriptor
has none: the instruction throws. -/
def forms (cp : ConstantPool) : Instruction → List Form
  | .nop | .iinc _ _ | .goto _ | .gotoW _ | .ret _ | .return_ => [⟨[],[]⟩]
  | .aconstNull => [⟨[],[.reference]⟩]
  | .iconstM1 | .iconst0 | .iconst1 | .iconst2 | .iconst3 | .iconst4 | .iconst5
  | .bipush _ | .sipush _ => [⟨[],[.int]⟩]
  | .lconst0 | .lconst1 => [⟨[],[.long]⟩]
  | .fconst0 | .fconst1 | .fconst2 => [⟨[],[.float]⟩]
  | .dconst0 | .dconst1 => [⟨[],[.double]⟩]
  | .ldc _ | .ldcW _ => [⟨[],[.int]⟩,⟨[],[.float]⟩,⟨[],[.reference]⟩]
  | .ldc2W _ => [⟨[],[.long]⟩,⟨[],[.double]⟩]
  | .iload _ => [⟨[],[.int]⟩]
  | .lload _ => [⟨[],[.long]⟩]
  | .fload _ => [⟨[],[.float]⟩]
  | .dload _ => [⟨[],[.double]⟩]
  | .aload _ => [⟨[],[.reference]⟩]
  | .iaload | .baload | .caload | .saload => [⟨[.reference,.int],[.int]⟩]
  | .laload => [⟨[.reference,.int],[.long]⟩]
  | .faload => [⟨[.reference,.int],[.float]⟩]
  | .daload => [⟨[.reference,.int],[.double]⟩]
  | .aaload => [⟨[.reference,.int],[.reference]⟩]
  | .istore _ => [⟨[.int],[]⟩]
  | .lstore _ => [⟨[.long],[]⟩]
  | .fstore _ => [⟨[.float],[]⟩]
  | .dstore _ => [⟨[.double],[]⟩]
  | .astore _ => [⟨[.reference],[]⟩,⟨[.returnAddress],[]⟩]
  | .iastore | .bastore | .castore | .sastore => [⟨[.reference,.int,.int],[]⟩]
  | .lastore => [⟨[.reference,.int,.long],[]⟩]
  | .fastore => [⟨[.reference,.int,.float],[]⟩]
  | .dastore => [⟨[.reference,.int,.double],[]⟩]
  | .aastore => [⟨[.reference,.int,.reference],[]⟩]
  | .pop => [⟨[.category1],[]⟩]
  | .pop2 => [⟨[.category1,.category1],[]⟩,⟨[.category2],[]⟩]
  | .dup => [⟨[.category1],[.category1,.category1]⟩]
  | .dupX1 => [⟨[.category1,.category1],[.category1,.category1,.category1]⟩]
  | .dupX2 => [⟨[.category1,.category1,.category1],
      [.category1,.category1,.category1,.category1]⟩,
      ⟨[.category2,.category1],[.category1,.category2,.category1]⟩]
  | .dup2 => [⟨[.category1,.category1],[.category1,.category1,.category1,.category1]⟩,
      ⟨[.category2],[.category2,.category2]⟩]
  | .dup2X1 => [⟨[.category1,.category1,.category1],
      [.category1,.category1,.category1,.category1,.category1]⟩,
      ⟨[.category1,.category2],[.category2,.category1,.category2]⟩]
  | .dup2X2 => [⟨[.category1,.category1,.category1,.category1],
      [.category1,.category1,.category1,.category1,.category1,.category1]⟩,
      ⟨[.category1,.category1,.category2],[.category2,.category1,.category1,.category2]⟩,
      ⟨[.category2,.category1,.category1],
        [.category1,.category1,.category2,.category1,.category1]⟩,
      ⟨[.category2,.category2],[.category2,.category2,.category2]⟩]
  | .swap => [⟨[.category1,.category1],[.category1,.category1]⟩]
  | .iadd | .isub | .imul | .idiv | .irem | .ishl | .ishr | .iushr | .iand | .ior | .ixor =>
    [⟨[.int,.int],[.int]⟩]
  | .ladd | .lsub | .lmul | .ldiv | .lrem | .land | .lor | .lxor => [⟨[.long,.long],[.long]⟩]
  | .fadd | .fsub | .fmul | .fdiv | .frem => [⟨[.float,.float],[.float]⟩]
  | .dadd | .dsub | .dmul | .ddiv | .drem => [⟨[.double,.double],[.double]⟩]
  | .ineg => [⟨[.int],[.int]⟩]
  | .lneg => [⟨[.long],[.long]⟩]
  | .fneg => [⟨[.float],[.float]⟩]
  | .dneg => [⟨[.double],[.double]⟩]
  | .lshl | .lshr | .lushr => [⟨[.long,.int],[.long]⟩]
  | .i2l => [⟨[.int],[.long]⟩]
  | .i2f => [⟨[.int],[.float]⟩]
  | .i2d => [⟨[.int],[.double]⟩]
  | .l2i => [⟨[.long],[.int]⟩]
  | .l2f => [⟨[.long],[.float]⟩]
  | .l2d => [⟨[.long],[.double]⟩]
  | .f2i => [⟨[.float],[.int]⟩]
  | .f2l => [⟨[.float],[.long]⟩]
  | .f2d => [⟨[.float],[.double]⟩]
  | .d2i => [⟨[.double],[.int]⟩]
  | .d2l => [⟨[.double],[.long]⟩]
  | .d2f => [⟨[.double],[.float]⟩]
  | .i2b | .i2c | .i2s => [⟨[.int],[.int]⟩]
  | .lcmp => [⟨[.long,.long],[.int]⟩]
  | .fcmpl | .fcmpg => [⟨[.float,.float],[.int]⟩]
  | .dcmpl | .dcmpg => [⟨[.double,.double],[.int]⟩]
  | .ifeq _ | .ifne _ | .iflt _ | .ifge _ | .ifgt _ | .ifle _
  | .tableswitch _ | .lookupswitch _ => [⟨[.int],[]⟩]
  | .ifIcmpeq _ | .ifIcmpne _ | .ifIcmplt _ | .ifIcmpge _ | .ifIcmpgt _ | .ifIcmple _ =>
    [⟨[.int,.int],[]⟩]
  | .ifAcmpeq _ | .ifAcmpne _ => [⟨[.reference,.reference],[]⟩]
  | .ifnull _ | .ifnonnull _ => [⟨[.reference],[]⟩]
  | .jsr _ | .jsrW _ => [⟨[],[.returnAddress]⟩]
  | .ireturn => [⟨[.int],[]⟩]
  | .lreturn => [⟨[.long],[]⟩]
  | .freturn => [⟨[.float],[]⟩]
  | .dreturn => [⟨[.double],[]⟩]
  | .areturn | .athrow | .monitorenter | .monitorexit => [⟨[.reference],[]⟩]
  | .getstatic index => (fieldOperand cp index).toList.map fun v => ⟨[],[v]⟩
  | .putstatic index => (fieldOperand cp index).toList.map fun v => ⟨[v],[]⟩
  | .getfield index => (fieldOperand cp index).toList.map fun v => ⟨[.reference],[v]⟩
  | .putfield index => (fieldOperand cp index).toList.map fun v => ⟨[.reference,v],[]⟩
  | .invokestatic index | .invokedynamic index =>
    (methodOperands cp index).toList.map fun m => ⟨m.1,m.2⟩
  | .invokevirtual index | .invokespecial index | .invokeinterface index _ =>
    (methodOperands cp index).toList.map fun m => ⟨.reference :: m.1,m.2⟩
  | .new _ => [⟨[],[.reference]⟩]
  | .newarray _ | .anewarray _ => [⟨[.int],[.reference]⟩]
  | .multianewarray _ dimensions => [⟨List.replicate dimensions .int,[.reference]⟩]
  | .arraylength => [⟨[.reference],[.int]⟩]
  | .checkcast _ => [⟨[.reference],[.reference]⟩]
  | .instanceof _ => [⟨[.reference],[.int]⟩]
  | .wide => []

def localSlots : Instruction → List Nat
  | .iload n | .fload n | .aload n | .istore n | .fstore n | .astore n | .ret n => [n]
  | .lload n | .dload n | .lstore n | .dstore n => [n,n+1]
  | .iinc index _ => [index]
  | _ => []

def jumpOffsets : Instruction → List Int
  | .ifeq off | .ifne off | .iflt off | .ifge off | .ifgt off | .ifle off
  | .ifIcmpeq off | .ifIcmpne off | .ifIcmplt off | .ifIcmpge off | .ifIcmpgt off | .ifIcmple off
  | .ifAcmpeq off | .ifAcmpne off | .ifnull off | .ifnonnull off => [off]
  | .goto off | .gotoW off | .jsr off | .jsrW off => [off]
  | .tableswitch t => t.default :: t.offsets
  | .lookupswitch l => l.default :: l.pairs.map Prod.snd
  | _ => []

/-- Whether the next instruction can follow. -/
def continues : Instruction → Bool
  | .goto _ | .gotoW _ | .jsr _ | .jsrW _ | .ret _ | .tableswitch _ | .lookupswitch _
  | .ireturn | .lreturn | .freturn | .dreturn | .areturn | .return_ | .athrow => false
  | _ => true

/-- The control state of an execution: where it is, and the words on its operand stack. -/
structure Machine where
  pc : Int
  depth : Nat
  deriving DecidableEq, Repr

def Fetches (code : List UInt8) (pc : Int) (insn : Instruction) (next : Nat) : Prop :=
  0 ≤ pc ∧ Instruction.decode code pc.toNat = .ok (insn,next)

/-- One step. Every branch outcome and every switch arm is possible, `ret` can lead anywhere, and
a handler can be entered from everywhere, with the exception as the only operand. -/
inductive Machine.Step (code : List UInt8) (cp : ConstantPool) (handlerPcs : List Nat) :
    Machine → Machine → Prop
  | fallThrough {m : Machine} {insn : Instruction} {next : Nat} {f : Form}
      (hf : Fetches code m.pc insn next) (hform : f ∈ forms cp insn)
      (hc : continues insn = true) :
      Step code cp handlerPcs m ⟨next,m.depth-words f.takes+words f.leaves⟩
  | jump {m : Machine} {insn : Instruction} {next : Nat} {f : Form} {off : Int}
      (hf : Fetches code m.pc insn next) (hform : f ∈ forms cp insn)
      (hj : off ∈ jumpOffsets insn) :
      Step code cp handlerPcs m ⟨m.pc+off,m.depth-words f.takes+words f.leaves⟩
  | ret {m : Machine} {index next : Nat} (hf : Fetches code m.pc (.ret index) next) (pc : Int) :
      Step code cp handlerPcs m ⟨pc,m.depth⟩
  | raise {m : Machine} {h : Nat} (hh : h ∈ handlerPcs) : Step code cp handlerPcs m ⟨h,1⟩

def Machine.Reachable (code : List UInt8) (cp : ConstantPool) (handlerPcs : List Nat)
    (m : Machine) : Prop :=
  Relation.ReflTransGen (Machine.Step code cp handlerPcs) ⟨0,0⟩ m

/-- The instruction starts of the linear decode: the first byte of the body, and what follows an
instruction that starts at one. The last two bytes are padding. -/
inductive LinearStart (code : List UInt8) : Nat → Prop
  | first (h : 0 < code.length-2) : LinearStart code 0
  | next {pc next : Nat} {insn : Instruction} (h : LinearStart code pc)
      (hd : Instruction.decode code pc = .ok (insn,next)) (hlt : next < code.length-2) :
      LinearStart code next

variable {cp : ConstantPool} {index : Nat}

theorem words_field {n : Nat} {v : Operand}
    (hv : fieldOperand cp index = some v) (hn : fieldWords cp index = some n) : v.words = n := by
  unfold fieldOperand at hv
  unfold fieldWords at hn
  cases hd : cp.memberDescriptor index with
  | none => rw [hd] at hn; cases hn
  | some d => ?_
  rw [hd] at hv hn
  simp only [Option.map_some,Option.bind_some] at hv hn
  split at hv
  · rename_i t ht
    cases hv
    obtain ⟨_,_,_,_,hw⟩ := typeWords_of_parse (Option.some.inj ht)
    rw [hw] at hn
    rw [Operand.words_ofFieldType]
    exact Option.some.inj hn
  · cases hv

theorem words_method {args ret : Nat} {m : List Operand × List Operand}
    (hm : methodOperands cp index = some m) (hw : memberMethodWords cp index = some (args,ret)) :
    words m.1 = args ∧ words m.2 = ret := by
  unfold methodOperands at hm
  unfold memberMethodWords at hw
  cases hd : cp.memberDescriptor index with
  | none => rw [hd] at hw; cases hw
  | some d => ?_
  rw [hd] at hm hw
  split at hm
  · rename_i descriptor hparse
    cases hm
    obtain ⟨h1,h2⟩ := methodDescriptorWords_of_parse (Option.some.inj hparse) hw
    refine ⟨?_,?_⟩
    · rw [words_parameters,h1]
      rfl
    rw [h2]
    cases descriptor.returnType with
    | none => rfl
    | some t => simp [words,Operand.words_ofFieldType]
  · cases hm

theorem words_replicate_int (n : Nat) : words (List.replicate n .int) = n := by
  simp [words,Operand.words]

variable {pops pushes : Nat} {f : Form}

theorem words_of_fixed {l : List Form} {counts : Nat × Nat}
    (h : some counts = some (pops,pushes)) (hf : f ∈ l)
    (hall : (l.all fun f => decide ((words f.takes,words f.leaves) = counts)) = true) :
    words f.takes = pops ∧ words f.leaves = pushes := by
  have heq := of_decide_eq_true (List.all_eq_true.mp hall f hf)
  cases h
  exact ⟨congrArg Prod.fst heq,congrArg Prod.snd heq⟩

theorem words_of_field
    {form : Operand → Form} {counts : Nat → Nat × Nat}
    (h : (fieldWords cp index).map counts = some (pops,pushes))
    (hf : f ∈ (fieldOperand cp index).toList.map form)
    (hform : ∀ v, counts v.words = (words (form v).takes,words (form v).leaves)) :
    words f.takes = pops ∧ words f.leaves = pushes := by
  obtain ⟨v,hv,rfl⟩ := List.mem_map.mp hf
  obtain ⟨n,hn,hc⟩ := Option.map_eq_some_iff.mp h
  rw [← words_field (Option.mem_toList.mp hv) hn,hform] at hc
  cases hc
  exact ⟨rfl,rfl⟩

theorem words_of_static
    (h : memberMethodWords cp index = some (pops,pushes))
    (hf : f ∈ (methodOperands cp index).toList.map fun m => ⟨m.1,m.2⟩) :
    words f.takes = pops ∧ words f.leaves = pushes := by
  obtain ⟨m,hm,rfl⟩ := List.mem_map.mp hf
  exact words_method (Option.mem_toList.mp hm) h

theorem words_of_receiver
    (h : ((memberMethodWords cp index).bind fun w =>
      (checkedAddWords w.1 1).map fun args => (args,w.2)) = some (pops,pushes))
    (hf : f ∈ (methodOperands cp index).toList.map fun m => ⟨.reference :: m.1,m.2⟩) :
    words f.takes = pops ∧ words f.leaves = pushes := by
  obtain ⟨m,hm,rfl⟩ := List.mem_map.mp hf
  obtain ⟨⟨args,ret⟩,hw,h⟩ := Option.bind_eq_some_iff.mp h
  obtain ⟨h1,h2⟩ := words_method (Option.mem_toList.mp hm) hw
  obtain ⟨total,hadd,hc⟩ := Option.map_eq_some_iff.mp h
  unfold checkedAddWords at hadd
  split at hadd
  · cases hadd
    cases hc
    refine ⟨?_,h2⟩
    rw [← h1]
    simp only [words,List.map_cons,List.sum_cons,Operand.words]
    omega
  · cases hadd

theorem stackEffect_of_form {insn : Instruction}
    (h : stackEffect insn cp = some (pops,pushes)) (hf : f ∈ forms cp insn) :
    words f.takes = pops ∧ words f.leaves = pushes := by
  cases insn with
  | getstatic index => exact words_of_field h hf fun v => by simp [words]
  | putstatic index => exact words_of_field h hf fun v => by simp [words]
  | getfield index => exact words_of_field h hf fun v => by simp [words,Operand.words]
  | putfield index => exact words_of_field h hf fun v => by simp [words,Operand.words]
  | invokestatic index => exact words_of_static h hf
  | invokedynamic index => exact words_of_static h hf
  | invokevirtual index => exact words_of_receiver h hf
  | invokespecial index => exact words_of_receiver h hf
  | invokeinterface index count => exact words_of_receiver h hf
  | multianewarray index dimensions =>
    cases h
    rw [List.mem_singleton.mp hf]
    exact ⟨words_replicate_int _,rfl⟩
  | jsr off => cases h
  | jsrW off => cases h
  | ret index => cases h
  | wide => cases h
  | _ => exact words_of_fixed h hf rfl

end CratonVM.Reader
