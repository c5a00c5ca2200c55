/-
`ChunkSerializer::deserialize`: an object is made for every record, then the records are read in the reverse order of
their IDs.

A reader acts on the heap of objects. Each is shown to keep the class of every object, so the class of an ID is the
one that its record announced.
-/
import Egalito.Archive.ChunkTree
import Egalito.Archive.RoundTrip
import Egalito.Lib.Builder

namespace Egalito.Archive

open Lib (Byte Reader Builder Keeps)

/-! ## Objects -/

theorem nul_notMem_nil : (0 : Byte) ∉ [] := by simp

/-- A chunk made by `instantiate`, with the fields that the `deserialize` functions below set. Other
objects are given by their IDs. -/
structure Instance where
  type : EgalitoChunkType
  parent : Option Nat := none
  children : List Nat := []
  name : Name := ⟨[], nul_notMem_nil⟩
  /-- The address, or the offset in the parent. -/
  position : Address := 0
  size : BitVec 64 := 0
  nonreturn : Bool := false
  ifunc : Bool := false
  semantic : Option Semantic := none
  originalAddress : Address := 0
  originalOffset : Address := 0
  alignment : Address := 0
  permissions : BitVec 64 := 0
  sectionType : BitVec 8 := 0
  dataBytes : List Byte := []
  tlsOffset : Address := 0
  dest : Option Link := none

/-- The instances of the flat chunks, by ID. -/
abbrev Heap := List (Option Instance)

/-- The table of `instantiate`, which is indexed by the number of the type. -/
def constructors : List (Option EgalitoChunkType) :=
  [none, some .program, some .module, some .functionList, some .pltList, some .jumpTableList, some .dataRegionList,
    some .externalSymbolList, some .libraryList, some .vTableList, some .function, some .block, some .instruction,
    some .pltTrampoline, some .jumpTable, some .jumpTableEntry, some .dataRegion, some .tlsDataRegion, some .dataSection,
    some .dataVariable, none, none, some .vTable, some .vTableEntry, some .externalSymbol, some .library]

/-- A new object; the size of a variable is that of an address. -/
def Instance.new (type : EgalitoChunkType) : Instance := { type, size := if type = .dataVariable then 8 else 0 }

def instantiate : Option FlatChunk → Except Fault (Option Instance)
  | none => .error .assertion
  | some flat =>
    match constructors[flat.type.ctorIdx]? with
    | none => .error .assertion
    | some type => .ok (type.map Instance.new)

/-- Whether a class can have a child of the other, `none` if it has no child list. -/
def childClass : EgalitoChunkType → Option (EgalitoChunkType → Bool)
  | .program => some (· == .module)
  | .module => some fun _ => true
  | .functionList => some (· == .function)
  | .pltList => some (· == .pltTrampoline)
  | .jumpTableList => some (· == .jumpTable)
  | .dataRegionList => some fun type => type == .dataRegion || type == .tlsDataRegion
  | .initFunctionList => some (· == .initFunction)
  | .externalSymbolList => some (· == .externalSymbol)
  | .libraryList => some (· == .library)
  | .vTableList => some (· == .vTable)
  | .function | .pltTrampoline => some (· == .block)
  | .block => some (· == .instruction)
  | .jumpTable => some (· == .jumpTableEntry)
  | .dataRegion | .tlsDataRegion => some (· == .dataSection)
  | .dataSection => some (· == .dataVariable)
  | .vTable => some (· == .vTableEntry)
  | .markerList => some (· == .marker)
  | .unknown | .instruction | .jumpTableEntry | .dataVariable | .globalVariable | .marker | .vTableEntry | .initFunction
  | .externalSymbol | .library => none

/-- The operations as the reader of a link or a semantic sees them; it assigns nothing and asks for no
address. -/
def Heap.operations (heap : Heap) : Operations where
  id _ := noneID
  lookup i :=
    if i = noneID then .ok none else
      match heap[i.toNat]? with
      | none => .error .assertion
      | some x => .ok (x.map fun x => ⟨x.type, i.toNat⟩)
  address _ := 0
  assigned := []
  lookup_id := by simp
  lookup_noneID := if_pos rfl

/-! ## Reading records -/

abbrev Build := Builder Fault Heap

namespace Build

def lookup (id : BitVec 32) : Build (Option Nat) := do
  let heap ← get
  if id = noneID then return none
  match heap[id.toNat]? with
  | none => Builder.fault .assertion
  | some x => return x.map fun _ => id.toNat

def chunkAt (i : Nat) : Build Instance := do
  let heap ← get
  match heap[i]?.join with
  | none => Builder.fault .nullPointer
  | some x => return x

/-- A change to an object that does not touch its class. -/
def update (i : Nat) (g : Instance → Instance) : Build Unit :=
  modify fun heap => heap.modify i (Option.map fun x => { g x with type := x.type })

/-- `genericAdd`, which skips a chunk of another class, and `setParent`. -/
def addChild (i : Nat) (id : BitVec 32) : Build Unit := do
  match ← lookup id with
  | none => Builder.fault .nullPointer
  | some j =>
    let x ← chunkAt i
    let child ← chunkAt j
    match childClass x.type with
    | none => Builder.fault .nullPointer
    | some accepts =>
      update i fun x => { x with children := if accepts child.type then x.children ++ [j] else x.children }
      update j fun y => { y with parent := some i }

def readChild (i : Nat) : Build (BitVec 32) := do
  let id ← Link.readID
  addChild i id
  return id

def deserializeChildren (i : Nat) : Build Unit := do
  let count ← (Lib.readNat 4 : Reader Fault Nat)
  let _ ← Builder.times count (readChild i)

def deserializeChildrenIDsOnly : Nat → Nat → Build Unit
  | 0, _ => pure ()
  | level + 1, i => do
    let count ← (Lib.readNat 4 : Reader Fault Nat)
    let ids ← Builder.times count (readChild i)
    Builder.forEach ids fun id => do
      match ← lookup id with
      | none => Builder.fault .nullPointer
      | some j => deserializeChildrenIDsOnly level j

def childAt (i k : Nat) : Build Nat := do
  let x ← chunkAt i
  match x.children[k]? with
  | none => Builder.fault .outOfBounds
  | some j => return j

variable (cx : Context)

def readSemantic : Build (Option Semantic) := do
  let heap ← get
  Semantic.deserialize { cx with op := heap.operations }

end Build

open Build

variable (cx : Context)

/-- `getSize` of an instruction, which follows the pointer to the semantic. -/
def Instance.instructionSize (x : Instance) : Except Fault (BitVec 64) :=
  match x.semantic with
  | none => .error .nullPointer
  | some s => .ok s.getSize

/-- The instruction `instr` of the block, from the record of the function. -/
def Function.deserializeInstruction (block instr : Nat) : Build Unit := do
  let semantic ← readSemantic cx
  update instr fun x => { x with semantic := semantic }
  let x ← chunkAt instr
  let size ← (x.instructionSize : Except Fault (BitVec 64))
  update block fun y => { y with size := y.size + size }

def Function.deserializeBlock (i b : Nat) : Build Unit := do
  let block ← childAt i b
  let count ← (Lib.readNat 4 : Reader Fault Nat)
  Builder.forEach (List.range count) fun k => do
    let instr ← childAt block k
    Function.deserializeInstruction cx block instr
  let x ← chunkAt block
  update i fun y => { y with size := y.size + x.size }

/-- `Function::deserialize`, apart from the positions inside the function. -/
def Function.deserialize (i : Nat) : Build Unit := do
  let address ← Link.readAddress
  let name ← Link.readString
  let nonreturn ← Link.readBool
  let ifunc ← Link.readBool
  update i fun x => { x with position := address, name := name, nonreturn := nonreturn, ifunc := ifunc }
  let compressedMode ← Link.readBool
  if compressedMode then
    deserializeChildrenIDsOnly 2 i
    let count ← (Lib.readNat 4 : Reader Fault Nat)
    Builder.forEach (List.range count) fun b => Function.deserializeBlock cx i b
  else
    deserializeChildren i

/-- `Block::deserialize`, which also runs on the empty record of a block of a function. -/
def Block.deserialize (i : Nat) : Build Unit := do
  let afterThis ← Link.readID
  let _ ← lookup afterThis
  let offset ← Link.readAddress
  let size ← Link.readAddress
  update i fun x => { x with position := offset }
  deserializeChildren i
  let x ← chunkAt i
  Builder.forEach x.children fun j => do
    let y ← chunkAt j
    let _ ← (y.instructionSize : Except Fault (BitVec 64))
  update i fun x => { x with size := size }

/-- `Instruction::deserialize`, which also runs on the empty record of an instruction of a function. -/
def Instruction.deserialize (i : Nat) : Build Unit := do
  let _ ← Link.readAddress
  let afterThis ← Link.readID
  let _ ← lookup afterThis
  let semantic ← readSemantic cx
  update i fun x => { x with semantic := semantic }

def DataVariable.deserialize (i : Nat) : Build Unit := do
  let id ← Link.readID
  let parent ← lookup id
  let offset ← Link.readAddress
  let name ← Link.readString
  let heap ← get
  let dest ← Link.deserialize heap.operations
  let size ← Link.readAddress
  update i fun x => { x with parent := parent, position := offset, name := name, dest := dest, size := size }

def DataSection.deserialize (i : Nat) : Build Unit := do
  let size ← Link.readAddress
  let name ← Link.readString
  let alignment ← Link.readAddress
  let originalOffset ← Link.readAddress
  let type ← Link.readScope
  update i fun x => { x with
    size := size, name := name, alignment := alignment, originalOffset := originalOffset, sectionType := type,
    position := originalOffset }
  deserializeChildren i

def DataRegion.deserialize (i : Nat) : Build Unit := do
  let address ← Link.readAddress
  let size ← Link.readAddress
  let originalAddress ← Link.readAddress
  let permissions ← (Lib.readNat 4 : Reader Fault Nat)
  let alignment ← Link.readAddress
  let dataBytes ← (Lib.readBytes 8 : Reader Fault (List Byte))
  update i fun x => { x with
    parent := none, position := address, size := size, originalAddress := originalAddress,
    permissions := BitVec.ofNat 64 permissions, alignment := alignment, dataBytes := dataBytes }
  deserializeChildren i

def TLSDataRegion.deserialize (i : Nat) : Build Unit := do
  DataRegion.deserialize i
  let tlsOffset ← Link.readAddress
  update i fun x => { x with tlsOffset := tlsOffset }

def DataRegionList.deserialize (i : Nat) : Build Unit := do
  let tls ← Link.readID
  let _ ← lookup tls
  deserializeChildren i

/-- The `deserialize` function of an object's class; `others` are the classes that are not modelled
here. -/
def deserializeRecord (others : EgalitoChunkType → Nat → Build Unit) (i : Nat) : EgalitoChunkType → Build Unit
  | .function => Function.deserialize cx i
  | .block => Block.deserialize i
  | .instruction => Instruction.deserialize cx i
  | .dataVariable => DataVariable.deserialize i
  | .dataSection => DataSection.deserialize i
  | .dataRegion => DataRegion.deserialize i
  | .tlsDataRegion => TLSDataRegion.deserialize i
  | .dataRegionList => DataRegionList.deserialize i
  | .functionList | .pltList | .jumpTableList | .vTableList | .externalSymbolList => deserializeChildren i
  | type => others type i

/-- The records below `n`, the last one first, with the streams as they were left. -/
def deserializeAll (others : EgalitoChunkType → Nat → Build Unit) (l : FlatList) :
    Nat → Heap → Except Fault (Heap × List Lib.Input)
  | 0, heap => .ok (heap, [])
  | n + 1, heap =>
    match l[n]?.join, heap[n]?.join with
    | some flat, some x => do
      let ((_, heap), input) ← deserializeRecord cx others n x.type heap ⟨flat.data, .good⟩
      let (heap, inputs) ← deserializeAll others l n heap
      .ok (heap, input :: inputs)
    | _, _ => deserializeAll others l n heap

/-- `ChunkSerializer::deserialize` of a file with the given contents: the objects, the first of which
is the root. -/
def deserialize (others : EgalitoChunkType → Nat → Build Unit) (unset : BitVec 32) (file : List Byte) :
    Except Fault (Heap × List Lib.Input) := do
  match ← read unset file with
  | none => .error .nullPointer
  | some archive => do
    let heap ← archive.flatList.mapM instantiate
    let result ← deserializeAll cx others archive.flatList archive.flatList.length heap
    if heap.length = 0 then .error .assertion else .ok result

/-- What `ChunkSerializer::serialize` of the root and `deserialize` of the file give; there is no file
if a chunk is missing. -/
def Root.reload (others : EgalitoChunkType → Nat → Build Unit) (unset : BitVec 32) (root : Root) :
    Except Fault (Option (Archiver × Heap × List Lib.Input)) := do
  let s ← root.archive cx
  if s.complete then
    let file ← write ⟨s.flatList, BitVec.ofNat 32 currentVersion⟩
    let result ← deserialize cx others unset file
    .ok (some (s, result))
  else .ok none

/-! ## The class of an object -/

def Heap.types (heap : Heap) : List (Option EgalitoChunkType) := heap.map (Option.map Instance.type)

namespace Build

theorem keeps_lookup (id) : Keeps Heap.types (lookup id) := by
  refine Keeps.get.bind fun heap => ?_
  split
  · exact Keeps.pure _
  · split
    · exact Keeps.fault _
    · exact Keeps.pure _

theorem keeps_chunkAt (i) : Keeps Heap.types (chunkAt i) := by
  refine Keeps.get.bind fun heap => ?_
  split
  · exact Keeps.fault _
  · exact Keeps.pure _

theorem keeps_update (i) (g) : Keeps Heap.types (update i g) := by
  apply Keeps.modify
  intro heap
  apply List.ext_getElem?
  intro j
  unfold Heap.types
  rw [List.getElem?_map, List.getElem?_map, List.getElem?_modify]
  split
  · rcases heap[j]? with _ | _ | x <;> rfl
  · rcases heap[j]? with _ | x <;> rfl

theorem keeps_addChild (i) (id) : Keeps Heap.types (addChild i id) := by
  refine (keeps_lookup id).bind fun j => ?_
  split
  · exact Keeps.fault _
  · refine (keeps_chunkAt i).bind fun x => (keeps_chunkAt _).bind fun child => ?_
    split
    · exact Keeps.fault _
    · exact (keeps_update _ _).bind fun _ => keeps_update _ _

theorem keeps_readChild (i) : Keeps Heap.types (readChild i) :=
  (Keeps.lift _).bind fun id => (keeps_addChild i id).bind fun _ => Keeps.pure id

theorem keeps_children (i) : Keeps Heap.types (deserializeChildren i) :=
  (Keeps.lift _).bind fun count => ((keeps_readChild i).times count).bind fun _ => Keeps.pure ()

theorem keeps_deserializeChildrenIDsOnly : ∀ level i, Keeps Heap.types (deserializeChildrenIDsOnly level i)
  | 0, _ => Keeps.pure ()
  | level + 1, i => by
    refine (Keeps.lift _).bind fun count => ((keeps_readChild i).times count).bind fun ids => Keeps.forEach (fun id => ?_) ids
    refine (keeps_lookup id).bind fun j => ?_
    split
    · exact Keeps.fault _
    · exact keeps_deserializeChildrenIDsOnly level _

theorem keeps_childAt (i k) : Keeps Heap.types (childAt i k) := by
  refine (keeps_chunkAt i).bind fun x => ?_
  split
  · exact Keeps.fault _
  · exact Keeps.pure _

theorem keeps_readSemantic : Keeps Heap.types (readSemantic cx) := Keeps.get.bind fun _ => Keeps.lift _

end Build

theorem Function.keeps_deserializeBlock (i b) : Keeps Heap.types (Function.deserializeBlock cx i b) := by
  refine (keeps_childAt i b).bind fun block => (Keeps.lift _).bind fun count => Keeps.bind ?_ fun _ =>
    (keeps_chunkAt block).bind fun x => keeps_update _ _
  refine Keeps.forEach (fun k => (keeps_childAt block k).bind fun instr => ?_) _
  exact (keeps_readSemantic cx).bind fun _ => (keeps_update _ _).bind fun _ => (keeps_chunkAt instr).bind fun _ =>
    (Keeps.lift _).bind fun _ => keeps_update _ _

theorem Function.keeps_deserialize (i) : Keeps Heap.types (Function.deserialize cx i) := by
  refine (Keeps.lift _).bind fun address => (Keeps.lift _).bind fun name => (Keeps.lift _).bind fun nonreturn =>
    (Keeps.lift _).bind fun ifunc => (keeps_update _ _).bind fun _ => (Keeps.lift _).bind fun compressedMode => ?_
  split
  · exact (keeps_deserializeChildrenIDsOnly 2 i).bind fun _ => (Keeps.lift _).bind fun count =>
      Keeps.forEach (Function.keeps_deserializeBlock cx i) _
  · exact keeps_children i

theorem Block.keeps_deserialize (i) : Keeps Heap.types (Block.deserialize i) := by
  refine (Keeps.lift _).bind fun id => (keeps_lookup id).bind fun _ => (Keeps.lift _).bind fun offset =>
    (Keeps.lift _).bind fun size => (keeps_update _ _).bind fun _ => (keeps_children i).bind fun _ =>
    (keeps_chunkAt i).bind fun x => Keeps.bind ?_ fun _ => keeps_update _ _
  exact Keeps.forEach (fun j => (keeps_chunkAt j).bind fun y => (Keeps.lift _).bind fun _ => Keeps.pure ()) _

theorem Instruction.keeps_deserialize (i) : Keeps Heap.types (Instruction.deserialize cx i) :=
  (Keeps.lift _).bind fun _ => (Keeps.lift _).bind fun id => (keeps_lookup id).bind fun _ =>
    (keeps_readSemantic cx).bind fun _ => keeps_update _ _

theorem DataVariable.keeps_deserialize (i) : Keeps Heap.types (DataVariable.deserialize i) :=
  (Keeps.lift _).bind fun id => (keeps_lookup id).bind fun _ => (Keeps.lift _).bind fun _ => (Keeps.lift _).bind fun _ =>
    Keeps.get.bind fun _ => (Keeps.lift _).bind fun _ => (Keeps.lift _).bind fun _ => keeps_update _ _

theorem DataSection.keeps_deserialize (i) : Keeps Heap.types (DataSection.deserialize i) :=
  (Keeps.lift _).bind fun _ => (Keeps.lift _).bind fun _ => (Keeps.lift _).bind fun _ => (Keeps.lift _).bind fun _ =>
    (Keeps.lift _).bind fun _ => (keeps_update _ _).bind fun _ => keeps_children i

theorem DataRegion.keeps_deserialize (i) : Keeps Heap.types (DataRegion.deserialize i) :=
  (Keeps.lift _).bind fun _ => (Keeps.lift _).bind fun _ => (Keeps.lift _).bind fun _ => (Keeps.lift _).bind fun _ =>
    (Keeps.lift _).bind fun _ => (Keeps.lift _).bind fun _ => (keeps_update _ _).bind fun _ => keeps_children i

section Classes

variable {cx} {others : EgalitoChunkType → Nat → Build Unit} (hothers : ∀ type i, Keeps Heap.types (others type i))
include hothers

theorem keeps_deserializeRecord (i) (type : EgalitoChunkType) :
    Keeps Heap.types (deserializeRecord cx others i type) := by
  cases type
  case function => exact Function.keeps_deserialize cx i
  case block => exact Block.keeps_deserialize i
  case instruction => exact Instruction.keeps_deserialize cx i
  case dataVariable => exact DataVariable.keeps_deserialize i
  case dataSection => exact DataSection.keeps_deserialize i
  case dataRegion => exact DataRegion.keeps_deserialize i
  case tlsDataRegion =>
    exact (DataRegion.keeps_deserialize i).bind fun _ => (Keeps.lift _).bind fun _ => keeps_update _ _
  case dataRegionList =>
    exact (Keeps.lift _).bind fun id => (keeps_lookup id).bind fun _ => keeps_children i
  case functionList | pltList | jumpTableList | vTableList | externalSymbolList => exact keeps_children i
  all_goals exact hothers _ i

theorem deserializeAll_types {l} : ∀ {n heap he' inputs},
    deserializeAll cx others l n heap = .ok (he', inputs) → he'.types = heap.types
  | 0, _, _, _, h => by
    cases h
    rfl
  | n + 1, heap, he', inputs, h => by
    rw [deserializeAll] at h
    split at h
    · obtain ⟨⟨⟨u, he1⟩, input⟩, h1, h2⟩ := Lib.bind_iff.1 h
      obtain ⟨⟨he2, inputs2⟩, h3, h4⟩ := Lib.bind_iff.1 h2
      cases h4
      exact (deserializeAll_types h3).trans (keeps_deserializeRecord hothers _ _ _ _ _ _ _ h1)
    · exact deserializeAll_types h

end Classes

end Egalito.Archive
