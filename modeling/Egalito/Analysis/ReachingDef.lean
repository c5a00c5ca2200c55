/-
Reaching definitions inside a block (`analysis/reachingdef.cpp`, x86_64): the registers that each instruction reads and
writes, flags and memory among them, and the earlier instructions it depends on. Operands are in AT&T order.

Here are the handlers and the loop over a block, with every assertion of the source as a failure.
-/
import Egalito.Lib.Except
import Egalito.Lib.Search
import Egalito.Util.Range

namespace Egalito.Analysis

/-- `X86Register::ID` up to `REGISTER_NUMBER`, which is `FLAGS`, and `MEMORY_REG` above it. -/
abbrev Location := Fin 18

def SP : Location := 4

def FLAGS : Location := 16

def MEMORY_REG : Location := 17

inductive Width
  | byte
  | word
  | dword
  | qword
  deriving DecidableEq, Repr

inductive Segment
  | cs
  | ds
  | es
  | fs
  | gs
  | ss
  deriving DecidableEq, Repr

/-- The registers of the disassembler; `other` are those that neither `X86Register` nor the analysis knows. -/
inductive Register
  | gp (n : Fin 16) (width : Width)
  | ah
  | bh
  | ch
  | dh
  | rip
  | segment (s : Segment)
  | other
  deriving DecidableEq, Repr

/-- The row of `mappings` with the register, or the case for the high bytes; `INVALID` is `none`. -/
def convertToPhysical : Register → Option Location
  | .gp n _ => some (n.castLE (by decide))
  | .ah => some 0
  | .bh => some 3
  | .ch => some 1
  | .dh => some 2
  | _ => none

/-- What the analysis and the processor look at in `x86_op_mem`; `none` is `X86_REG_INVALID`. -/
structure MemOperand where
  segment : Option Segment
  base : Option Register
  index : Option Register
  deriving DecidableEq, Repr

inductive Operand
  | reg (r : Register)
  | imm
  | mem (m : MemOperand)
  deriving DecidableEq, Repr

/-- The instructions that have a handler, and `other`. -/
inductive InsId
  | and
  | add
  | cmp
  | lea
  | mov
  | movabs
  | movsxd
  | movzx
  | push
  | pop
  | sub
  | xor
  | other
  deriving DecidableEq, Repr

structure Assembly where
  id : InsId
  operands : List Operand
  deriving DecidableEq, Repr

/-! ## Handlers -/

inductive Call
  | read (reg : Location)
  | write (reg : Location)
  deriving DecidableEq, Repr

def setMemRead : Call := .read MEMORY_REG

def setMemWrite : Call := .write MEMORY_REG

/-- What a handler does with its instruction: `setBarrier`, or calls in this order. -/
inductive Records
  | barrier
  | calls (l : List Call)
  deriving DecidableEq, Repr

def physical (r : Register) : Except Failure Location :=
  match convertToPhysical r with
  | some p => .ok p
  | none => .error .assertion

def getReg (r : Register) : Except Failure Location := physical r

def handleIndex : Option Register → Except Failure (List Call)
  | none => .ok []
  | some r => do
    let p ← physical r
    .ok [.read p]

def handleBase : Option Register → Except Failure (List Call)
  | none | some .rip => .ok []
  | some r => do
    let p ← physical r
    .ok [.read p]

/-- The registers of an address are read, the instruction pointer apart. -/
def handleMem (m : MemOperand) : Except Failure (List Call) := do
  let index ← handleIndex m.index
  let base ← handleBase m.base
  .ok (index ++ base)

def fillAddOrSub : List Operand → Except Failure Records
  | [.imm, .reg r1] => do
    let reg1 ← getReg r1
    .ok (.calls [.read reg1, .write reg1, .write FLAGS])
  | [.reg r0, .reg r1] => do
    let reg0 ← getReg r0
    let reg1 ← getReg r1
    .ok (.calls [.read reg0, .read reg1, .write reg1, .write FLAGS])
  | [.mem m, .reg r1] => do
    let regs ← handleMem m
    let reg1 ← getReg r1
    .ok (.calls (regs ++ [setMemRead, .read reg1, .write reg1, .write FLAGS]))
  | _ => .ok .barrier

def fillAnd : List Operand → Except Failure Records
  | [.imm, .reg r1] => do
    let reg1 ← getReg r1
    .ok (.calls [.read reg1, .write reg1, .write FLAGS])
  | _ => .ok .barrier

def fillCmp : List Operand → Except Failure Records
  | [.reg r0, .reg r1] => do
    let reg0 ← getReg r0
    let reg1 ← getReg r1
    .ok (.calls [.read reg0, .read reg1, .write FLAGS])
  | [.imm, .reg r1] => do
    let reg1 ← getReg r1
    .ok (.calls [.read reg1, .write FLAGS])
  | [.imm, .mem m] => do
    let regs ← handleMem m
    .ok (.calls (regs ++ [setMemRead, .write FLAGS]))
  | _ => .ok .barrier

def fillLea : List Operand → Except Failure Records
  | [.mem m, .reg r1] => do
    let regs ← handleMem m
    let reg1 ← getReg r1
    .ok (.calls (regs ++ [.write reg1]))
  | _ => .ok .barrier

def fillMov : List Operand → Except Failure Records
  | [.imm, .reg r1] => do
    let reg1 ← getReg r1
    .ok (.calls [.write reg1])
  | [.reg r0, .mem m] => do
    let reg0 ← getReg r0
    let regs ← handleMem m
    .ok (.calls (.read reg0 :: regs ++ [setMemWrite]))
  | [.mem m, .reg r1] => do
    let regs ← handleMem m
    let reg1 ← getReg r1
    .ok (.calls (regs ++ [setMemRead, .write reg1]))
  | [.reg r0, .reg r1] => do
    let reg0 ← getReg r0
    let reg1 ← getReg r1
    .ok (.calls [.read reg0, .write reg1])
  | _ => .ok .barrier

/-- Any other operands fail the `assert`. -/
def fillMovabs : List Operand → Except Failure Records
  | [.imm, .reg r1] => do
    let reg1 ← getReg r1
    .ok (.calls [.write reg1])
  | _ => .error .assertion

def fillMovsxd (operands : List Operand) : Except Failure Records := fillMov operands

def fillMovzx (operands : List Operand) : Except Failure Records := fillMov operands

def fillPush : List Operand → Except Failure Records
  | [.reg r0] => do
    let reg0 ← getReg r0
    .ok (.calls [.read reg0, setMemWrite, .read SP, .write SP])
  | [.mem m] => do
    let regs ← handleMem m
    .ok (.calls (regs ++ [setMemWrite, .read SP, .write SP]))
  | _ => .ok .barrier

/-- The register is written before the stack pointer is read, which other handlers avoid. -/
def fillPop : List Operand → Except Failure Records
  | [.reg r0] => do
    let reg0 ← getReg r0
    .ok (.calls [.write reg0, setMemRead, .read SP, .write SP])
  | [.mem m] => do
    let regs ← handleMem m
    .ok (.calls (regs ++ [setMemRead, .read SP, .write SP]))
  | _ => .ok .barrier

def handle (a : Assembly) : Except Failure Records :=
  match a.id with
  | .and => fillAnd a.operands
  | .add | .sub | .xor => fillAddOrSub a.operands
  | .cmp => fillCmp a.operands
  | .lea => fillLea a.operands
  | .mov => fillMov a.operands
  | .movabs => fillMovabs a.operands
  | .movsxd => fillMovsxd a.operands
  | .movzx => fillMovzx a.operands
  | .push => fillPush a.operands
  | .pop => fillPop a.operands
  | .other => .ok .barrier

/-- The records of an instruction of the block. One without assembly has no handler. -/
def recordsOf : Option Assembly → Except Failure Records
  | none => .ok .barrier
  | some a => handle a

/-! ## The analysis -/

structure ReachingDef where
  killMap : Nat → List Nat
  currentWriteMap : Location → Option Nat
  currentReadMap : Location → List Nat

namespace ReachingDef

def empty : ReachingDef := ⟨fun _ => [], fun _ => none, fun _ => []⟩

/-- `killMap[instr].insert`, for each of `l`. -/
def kill (s : ReachingDef) (instr : Nat) (l : List Nat) : ReachingDef :=
  { s with killMap := Function.update s.killMap instr (l ∪ s.killMap instr) }

def setRegRead (s : ReachingDef) (reg : Location) (instr : Nat) : ReachingDef :=
  let s := s.kill instr ((s.currentWriteMap reg).toList.filter (· ≠ instr))
  { s with currentReadMap := Function.update s.currentReadMap reg ((s.currentReadMap reg).insert instr) }

/-- A read of the register by the instruction itself is put back, so that it does not depend on itself. -/
def setRegWrite (s : ReachingDef) (reg : Location) (instr : Nat) : Except Failure ReachingDef :=
  let loop := (s.currentReadMap reg).filter (· = instr)
  let readers := (s.currentReadMap reg).filter (· ≠ instr)
  let s := (s.kill instr (s.currentWriteMap reg).toList).kill instr readers
  if instr ∈ s.killMap instr then .error .assertion
  else .ok { s with
    currentWriteMap := Function.update s.currentWriteMap reg (some instr)
    currentReadMap := Function.update s.currentReadMap reg loop }

/-- All earlier instructions of the block come first, and what touches any register comes after. -/
def setBarrier (s : ReachingDef) (instr : Nat) : ReachingDef :=
  { s.kill instr (List.range instr) with currentWriteMap := fun _ => some instr }

def perform (instr : Nat) (s : ReachingDef) : Call → Except Failure ReachingDef
  | .read reg => .ok (s.setRegRead reg instr)
  | .write reg => s.setRegWrite reg instr

def record (s : ReachingDef) (instr : Nat) : Records → Except Failure ReachingDef
  | .barrier => .ok (s.setBarrier instr)
  | .calls l => l.foldlM (perform instr) s

/-- The loop of `analyze`, with the place of the first of the instructions. -/
def analyzeFrom (s : ReachingDef) : Nat → List (Option Assembly) → Except Failure ReachingDef
  | _, [] => .ok s
  | instr, a :: block => do
    let records ← recordsOf a
    let s ← s.record instr records
    analyzeFrom s (instr + 1) block

def analyze (block : List (Option Assembly)) : Except Failure ReachingDef := empty.analyzeFrom 0 block

/-! ## Closure and traversal -/

def bothPushesOrPops : Option Assembly → Option Assembly → Bool
  | some a, some b => (a.id = .push || a.id = .pop) && a.id = b.id
  | _, _ => false

/-- The queue of `inKillClosure` may hold an instruction more than once, so the fuel is a power. -/
def inKillClosure (s : ReachingDef) (count source dest : Nat) : Except Failure Bool :=
  match Lib.search s.killMap dest (2 ^ (count + 1)) [source] [source] with
  | some b => .ok b
  | none => .error .diverged

/-- `dest` as the new entry of `killMap` for `source` has it. -/
def closureAt (s : ReachingDef) (block : List (Option Assembly)) (allowPushReordering : Bool) (source dest : Nat) :
    Except Failure (List Nat) :=
  if allowPushReordering && bothPushesOrPops (block[source]?.getD none) (block[dest]?.getD none) then .ok []
  else do
    let found ← s.inKillClosure block.length source dest
    .ok (if found then [dest] else [])

def closureOf (s : ReachingDef) (block : List (Option Assembly)) (allowPushReordering : Bool) (source : Nat) :
    Except Failure (List Nat) := do
  let rows ← (List.range block.length).mapM (s.closureAt block allowPushReordering source)
  .ok rows.flatten

def computeDependencyClosure (s : ReachingDef) (block : List (Option Assembly)) (allowPushReordering : Bool) :
    Except Failure (List (List Nat)) :=
  (List.range block.length).mapM (s.closureOf block allowPushReordering)

end ReachingDef

/-- A callback with a state of its own, which chooses from the group it is given. -/
structure Callback (σ : Type) where
  choose : σ → List Nat → Nat × σ
  mem : ∀ s {group}, group ≠ [] → (choose s group).1 ∈ group

def areDependenciesCovered (killMap : List (List Nat)) (instr : Nat) (covered : List Nat) : Bool :=
  (killMap[instr]?.getD []).all (· ∈ covered)

/-- The loop of `visitInstructionGroups`; `available` is in the order of the pointers. -/
def visitFrom {σ : Type} (killMap : List (List Nat)) (callback : Callback σ) :
    Nat → List Nat → List Nat → σ → Except Failure (List Nat)
  | 0, _, _, _ => .error .diverged
  | n + 1, available, visited, s =>
    let group := available.filter (areDependenciesCovered killMap · visited)
    if group = [] then
      if available = [] then .ok [] else .error .assertion
    else do
      let (chosen, s) := callback.choose s group
      let rest ← visitFrom killMap callback n (available.erase chosen) (chosen :: visited) s
      .ok (chosen :: rest)

def visitInstructionGroups {σ : Type} (killMap : List (List Nat)) (pointers : List Nat) (callback : Callback σ) (s : σ) :
    Except Failure (List Nat) :=
  visitFrom killMap callback (pointers.length + 1) pointers [] s

/-- The new order that `ReorderPush` gives a block. `pointers` are the instructions in the order of their addresses in
    memory. -/
def reorder {σ : Type} (block : List (Option Assembly)) (allowPushReordering : Bool) (pointers : List Nat)
    (callback : Callback σ) (s : σ) : Except Failure (List Nat) := do
  let def_ ← ReachingDef.analyze block
  let killMap ← def_.computeDependencyClosure block allowPushReordering
  visitInstructionGroups killMap pointers callback s

end Egalito.Analysis
