/-
Function discovery without symbols (`DisassembleX86Function::linearDisassembly` in `disasm/disassemble.cpp`).

The definitions of the whole function, stage by stage, on interval trees. The proofs are in `Disasm.Segments`,
`Disasm.Pipeline` and `Disasm.Discovery`.
-/
import Egalito.Util.IntervalTree

namespace Egalito

/-- The instruction ids that the passes below tell apart. -/
inductive InsnId where
  | nop
  | ret
  | other
  deriving DecidableEq, Repr

/-- A decoded instruction: `operand` is the first operand if that is an immediate. -/
structure Insn where
  address : Address
  size : Nat
  id : InsnId
  isCall : Bool
  operand : Option Address
  deriving DecidableEq, Repr

def shouldSplitFunctionDueTo (ins : Insn) : Option Address := if ins.isCall then ins.operand else none

/-- The instructions follow each other from address `a`. -/
def Decoded : Nat → List Insn → Prop
  | _, [] => True
  | a, ins :: insns => ins.address.toNat = a ∧ 0 < ins.size ∧ Decoded (a + ins.size) insns

/-- The number of bytes the instructions take. -/
def byteCount : List Insn → Nat
  | [] => 0
  | ins :: insns => ins.size + byteCount insns

/-- A non-empty code section with what `cs_disasm` decodes from its start on, up to the first invalid instruction. -/
structure TextSection where
  range : Range
  insns : List Insn
  proper : range.Proper
  decoded : Decoded range.lo insns
  fits : range.lo + byteCount insns ≤ range.hi

inductive SymbolType where
  | func
  | ifunc
  | other
  deriving DecidableEq, Repr

structure Symbol where
  type : SymbolType
  address : Address
  size : BitVec 64
  deriving DecidableEq, Repr

/-- What `linearDisassembly` reads; the words of `.init_array` and `.fini_array` are by byte offset. -/
structure Image where
  text : TextSection
  fdes : List Range
  symbols : List Symbol
  entryPoint : Address
  initArray : List Address
  finiArray : List Address
  crtInsns : Range → List Insn
  init : Option Range
  fini : Option Range

/-- The range of a dynamic symbol that is a function and has a size. -/
def Symbol.functionRange (symbol : Symbol) : Option Range :=
  if symbol.type ≠ .func ∧ symbol.type ≠ .ifunc then none
  else if symbol.size = 0 then none
  else some ⟨symbol.address, symbol.size⟩

def Image.dynamicFunctions (img : Image) : List Range := img.symbols.filterMap Symbol.functionRange

def knownFunctions (fuel : Nat) (img : Image) : Except Failure IntervalTree := do
  let known ← (IntervalTree.make img.text.range).addAll fuel img.fdes
  known.addAll fuel img.dynamicFunctions

def splitAll (fuel : Nat) (splitRanges : IntervalTree) (points : List Address) :
    Except Failure IntervalTree :=
  points.foldlM (fun t point => do return (← t.splitAt fuel point).2) splitRanges

/-- The section as one range, split at the entry point and the init and fini array words. -/
def initialSplit (fuel : Nat) (img : Image) : Except Failure IntervalTree := do
  let (_, splitRanges) ← (IntervalTree.make img.text.range).add fuel img.text.range
  splitAll fuel splitRanges (img.entryPoint :: (img.initArray ++ img.finiArray))

structure PassState where
  splitRanges : IntervalTree
  functionPadding : IntervalTree
  nopBytes : Nat
  deriving DecidableEq, Repr

def splitDueTo (fuel : Nat) (splitRanges : IntervalTree) (ins : Insn) : Except Failure IntervalTree :=
  match shouldSplitFunctionDueTo ins with
  | some target => do return (← splitRanges.splitAt fuel target).2
  | none => .ok splitRanges

/-- A run of nops ends at `stop`. -/
def addPadding (fuel : Nat) (functionPadding : IntervalTree) (stop : Address) (nopBytes : Nat) :
    Except Failure IntervalTree := do
  let size := BitVec.ofNat 64 nopBytes
  return (← functionPadding.add fuel ⟨stop - size, size⟩).2

def passStep (fuel : Nat) (s : PassState) (ins : Insn) : Except Failure PassState := do
  let splitRanges ← splitDueTo fuel s.splitRanges ins
  if ins.id = .nop then
    return ⟨splitRanges, s.functionPadding, s.nopBytes + ins.size⟩
  else if s.nopBytes ≠ 0 then do
    let functionPadding ← addPadding fuel s.functionPadding ins.address s.nopBytes
    return ⟨splitRanges, functionPadding, 0⟩
  else
    return ⟨splitRanges, s.functionPadding, s.nopBytes⟩

/-- A run of nops that is still open at the end is recorded at the end of the section, wherever
decoding stopped. -/
def firstDisassemblyPass (fuel : Nat) (text : TextSection) (splitRanges functionPadding : IntervalTree) :
    Except Failure (IntervalTree × IntervalTree) := do
  let s ← text.insns.foldlM (passStep fuel) ⟨splitRanges, functionPadding, 0⟩
  if s.nopBytes ≠ 0 then do
    let functionPadding ← addPadding fuel s.functionPadding (text.range.start + text.range.size) s.nopBytes
    return (s.splitRanges, functionPadding)
  else
    return (s.splitRanges, s.functionPadding)

/-- The end of the function touches the padding found for it. -/
def endsInPadding (func bound : Range) : Bool :=
  func.getEnd == bound.getEnd || bound.containsPoint func.getEnd

/-- A segment without the nops at its end. A segment below every run of nops is not added. -/
def shrinkFunction (fuel : Nat) (functionPadding functionsWithoutPadding : IntervalTree) (func : Range) :
    Except Failure IntervalTree :=
  match functionPadding.findLowerBoundOrOverlapping func.getEnd with
  | some bound =>
    if endsInPadding func bound then functionsWithoutPadding.addEndpoints fuel func.start bound.start
    else do return (← functionsWithoutPadding.add fuel func).2
  | none => .ok functionsWithoutPadding

def subtractKnown (fuel : Nat) (functionPadding functionsWithoutPadding : IntervalTree) (func : Range) :
    Except Failure IntervalTree :=
  match functionPadding.findLowerBoundOrOverlapping func.getEnd with
  | some bound =>
    if endsInPadding func bound then functionsWithoutPadding.subtractWithAddendum fuel func bound
    else functionsWithoutPadding.subtract fuel func
  | none => functionsWithoutPadding.subtract fuel func

inductive CrtMode where
  | none
  | ret
  | nop
  | maybeFound
  | found
  deriving DecidableEq, Repr

/-- The mode after an instruction that is looked at in the mode `NONE`. -/
def crtNone (id : InsnId) : CrtMode := if id = .ret then .ret else .none

def crtRet (id : InsnId) : CrtMode := if id = .nop then .nop else crtNone id

def crtMaybeFound (id : InsnId) : CrtMode × Bool :=
  if id = .ret then (.ret, false) else (crtNone id, true)

/-- One instruction in the mode loop of `disassembleCrtBeginFunctions`: the next mode, after the `redo` of the source,
    and whether the function is split there. -/
def crtStep (mode : CrtMode) (id : InsnId) : CrtMode × Bool :=
  match mode with
  | .none => (crtNone id, false)
  | .ret => (crtRet id, false)
  | .nop => if id = .nop then (.nop, false) else crtMaybeFound id
  | .maybeFound => crtMaybeFound id
  | .found => (crtNone id, true)

def crtSplit (fuel : Nat) (s : CrtMode × IntervalTree) (ins : Insn) :
    Except Failure (CrtMode × IntervalTree) :=
  let (mode, split) := crtStep s.1 ins.id
  if split then do return (mode, (← s.2.splitAt fuel ins.address).2) else .ok (mode, s.2)

def disassembleCrtBeginFunctions (fuel : Nat) (insns : List Insn) (splitRanges : IntervalTree) :
    Except Failure IntervalTree := do
  return (← insns.foldlM (crtSplit fuel) (.none, splitRanges)).2

/-- The range that starts after the entry point is taken to be the crtbegin functions. -/
def splitCrtBegin (fuel : Nat) (img : Image) (functions : IntervalTree) : Except Failure IntervalTree :=
  match functions.findUpperBound img.entryPoint with
  | some crtbegin => disassembleCrtBeginFunctions fuel (img.crtInsns crtbegin) functions
  | none => .ok functions

/-- The two trees that the first pass leaves. -/
def discover (fuel : Nat) (img : Image) : Except Failure (IntervalTree × IntervalTree) := do
  let splitRanges ← initialSplit fuel img
  firstDisassemblyPass fuel img.text splitRanges (IntervalTree.make img.text.range)

def textIntervals (fuel : Nat) (img : Image) : Except Failure (List Range) := do
  let known ← knownFunctions fuel img
  let (splitRanges, functionPadding) ← discover fuel img
  let shrunk ← splitRanges.getAllData.foldlM (shrinkFunction fuel functionPadding) (IntervalTree.make img.text.range)
  let rest ← known.getAllData.foldlM (subtractKnown fuel functionPadding) shrunk
  let functions ← rest.unionWith fuel known
  let functions ← splitCrtBegin fuel img functions
  return functions.getAllData

/-- The list of ranges that become functions: those of the section, then `.init` and `.fini`. -/
def linearDisassembly (fuel : Nat) (img : Image) : Except Failure (List Range) := do
  return (← textIntervals fuel img) ++ img.init.toList ++ img.fini.toList

end Egalito
