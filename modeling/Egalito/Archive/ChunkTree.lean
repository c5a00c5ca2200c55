/-
The `serialize` functions of the chunk classes, as the scripts that `ChunkSerializerOperations` runs.

`Archive.Records` says what running a script leaves in the archive. For the trees of chunk classes it follows when a
complete archive has a record for every ID that it mentions.
-/
import Egalito.Archive.Records

namespace Egalito.Archive

open Lib (Byte)

/-- The chunks that `LinkSerializer::serialize` assigns IDs, in order. -/
def Link.refs : Link → List Object
  | absoluteNormal t _ | normal t _ | offset t _ _ => t.toList
  | plt _ p => (upcast .pltTrampoline p).toList
  | jumpTable p => (upcast .jumpTable p).toList
  | absoluteData p _ _ _ | internalAndExternalData _ p _ _ _ | dataOffset p _ _ _ => (upcast .dataSection p).toList
  | tlsDataOffset p _ _ => (upcast .tlsDataRegion p).toList
  | immAndDisp _ t _ disp => t.toList ++ disp.refs
  | egalitoLoader _ | symbolOnly _ | marker _ | unresolved _ | other => []

/-- The chunks that `InstrSerializer::serialize` assigns IDs, in order. -/
def Semantic.refs : Semantic → List Object
  | linked _ link _ _ _ | dataLinked _ link _ _ _ _ => link.elim [] Link.refs
  | controlFlow _ source _ _ _ _ link => (upcast .instruction source).toList ++ link.elim [] Link.refs
  | indirectJump _ _ _ _ jumpTables => jumpTables.filterMap (upcast .jumpTable)
  | isolated _ | ret _ | indirectCall .. | stackFrame .. | literal _ => []

namespace Script

def bytes (b : List Byte) (next : Script) : Script := write [] (fun _ => .ok b) next

def fault (e : Fault) : Script := write [] (fun _ => .error e) done

def number (n : Nat) (value : Nat) (next : Script) : Script := bytes (Lib.littleEndian n value) next

def string (name : Name) (next : Script) : Script := bytes (Link.writeString name) next

def bool (b : Bool) (next : Script) : Script := bytes (Link.writeBool b) next

/-- `writer.writeID(op.assign(c))`. -/
def ref (c : Option Object) (next : Script) : Script := write c.toList (fun op => .ok (Link.writeID op c)) next

def link (l : Link) (next : Script) : Script := write l.refs (fun op => l.serialize op) next

/-- A semantic of an instruction at `position`, given what its encoding depends on. -/
def semantic (cx : Context) (position : Address) (s : Semantic) (next : Script) : Script :=
  write s.refs (fun op => s.serialize { cx with op := op } position) next

/-- `serializeChildren`: all IDs, and then the records. -/
def children (l : List (Object × Script)) (next : Script) : Script :=
  number 4 l.length (l.foldr (fun child => ref (some child.1)) (l.foldr (fun child => record child.1 child.2) next))

/-- One level of `serializeChildrenIDsOnly`. -/
def idsOnly (l : List Object) (next : Script) : Script := number 4 l.length (l.foldr blank next)

/-- `op.serialize` of a list that has to be there. -/
def list (type : EgalitoChunkType) : Option Script → Script → Script
  | none, _ => fault .nullPointer
  | some script, next => own type script next

/-- The same for a list that may be null. -/
def optionalList (type : EgalitoChunkType) : Option Script → Script → Script
  | none, next => ref none next
  | some script, next => own type script next

end Script

/-! ## Chunks -/

variable (cx : Context) (localModuleOnly : Bool)

structure Instruction where
  object : Nat
  address : Address
  /-- The previous sibling or else the parent. -/
  previous : Option Object
  semantic : Semantic

def Instruction.serialize (instr : Instruction) : Script :=
  .number 8 instr.address.toNat <| .ref instr.previous <| .semantic cx instr.address instr.semantic .done

structure Block where
  object : Nat
  previous : Option Object
  /-- The offset in the parent. -/
  offset : BitVec 64
  size : BitVec 64
  instructions : List Instruction

def Block.serialize (block : Block) : Script :=
  .ref block.previous <| .number 8 block.offset.toNat <| .number 8 block.size.toNat <|
    .children (block.instructions.map fun instr => (⟨.instruction, instr.object⟩, instr.serialize cx)) .done

structure Function where
  object : Nat
  address : Address
  name : Name
  nonreturn : Bool
  ifunc : Bool
  blocks : List Block

/-- The semantics of a block, in the record of its function. -/
def Block.semantics (block : Block) (next : Script) : Script :=
  .number 4 block.instructions.length <|
    block.instructions.foldr (fun instr => .semantic cx instr.address instr.semantic) next

/-- A function has the semantics of its instructions in its own record; blocks and instructions have
empty ones. -/
def Function.serialize (f : Function) : Script :=
  .number 8 f.address.toNat <| .string f.name <| .bool f.nonreturn <| .bool f.ifunc <| .bool true <|
    .idsOnly (f.blocks.map fun block => ⟨.block, block.object⟩) <|
    f.blocks.foldr (fun block => .idsOnly (block.instructions.map fun instr => ⟨.instruction, instr.object⟩)) <|
    .number 4 f.blocks.length <| f.blocks.foldr (fun block => block.semantics cx) .done

def FunctionList.serialize (l : List Function) : Script :=
  .children (l.map fun f => (⟨.function, f.object⟩, f.serialize cx)) .done

structure PLTTrampoline where
  object : Nat
  address : Address
  externalSymbol : Option Nat
  gotPLTEntry : Address
  pltGot : Bool
  blocks : List Block

def PLTTrampoline.serialize (plt : PLTTrampoline) : Script :=
  .number 8 plt.address.toNat <| .ref (upcast .externalSymbol plt.externalSymbol) <| .number 8 plt.gotPLTEntry.toNat <|
    .bool plt.pltGot <| .children (plt.blocks.map fun block => (⟨.block, block.object⟩, block.serialize cx)) .done

def PLTList.serialize (l : List PLTTrampoline) : Script :=
  .children (l.map fun plt => (⟨.pltTrampoline, plt.object⟩, plt.serialize cx)) .done

structure JumpTableEntry where
  object : Nat
  address : Address
  dataVariable : Option Nat

def JumpTableEntry.serialize (entry : JumpTableEntry) : Script :=
  .number 8 entry.address.toNat <| .ref (upcast .dataVariable entry.dataVariable) .done

/-- A jump table with its descriptor; a null link is `Link.other`. -/
structure JumpTable where
  object : Nat
  function : Option Nat
  instruction : Option Nat
  address : Address
  contentSection : Option Nat
  targetBaseLink : Link
  indexRegister : BitVec 32
  scale : BitVec 8
  bound : BitVec 64
  entries : List JumpTableEntry
  jumpInstrList : List (Option Nat)

def JumpTable.serialize (table : JumpTable) : Script :=
  .ref (upcast .function table.function) <| .ref (upcast .instruction table.instruction) <|
    .number 8 table.address.toNat <| .ref (upcast .dataSection table.contentSection) <| .link table.targetBaseLink <|
    .number 4 table.indexRegister.toNat <| .number 1 table.scale.toNat <| .number 8 table.bound.toNat <|
    .children (table.entries.map fun entry => (⟨.jumpTableEntry, entry.object⟩, entry.serialize)) <|
    .number 4 table.jumpInstrList.length <| table.jumpInstrList.foldr (fun p => .ref (upcast .instruction p)) .done

def JumpTableList.serialize (l : List JumpTable) : Script :=
  .children (l.map fun table => (⟨.jumpTable, table.object⟩, table.serialize)) .done

structure DataVariable where
  object : Nat
  parent : Option Nat
  offset : Address
  name : Name
  /-- A null link is `Link.other`. -/
  dest : Link
  size : BitVec 64

/-- The link is left out when only local chunks are written. -/
def DataVariable.serialize (var : DataVariable) : Script :=
  let rest := Script.number 8 var.size.toNat .done
  .ref (upcast .dataSection var.parent) <| .number 8 var.offset.toNat <| .string var.name <|
    if localModuleOnly then rest else .link var.dest rest

structure DataSection where
  object : Nat
  size : BitVec 64
  name : Name
  alignment : Address
  originalOffset : Address
  permissions : BitVec 64
  type : BitVec 8
  dataVariables : List DataVariable

/-- The permissions are not written. -/
def DataSection.serialize (ds : DataSection) : Script :=
  .number 8 ds.size.toNat <| .string ds.name <| .number 8 ds.alignment.toNat <| .number 8 ds.originalOffset.toNat <|
    .number 1 ds.type.toNat <|
    .children (ds.dataVariables.map fun var => (⟨.dataVariable, var.object⟩, var.serialize localModuleOnly)) .done

structure DataRegion where
  object : Nat
  /-- The offset of a `TLSDataRegion`. -/
  tlsOffset : Option Address
  address : Address
  size : BitVec 64
  originalAddress : Address
  permissions : BitVec 32
  alignment : Address
  dataBytes : List Byte
  sections : List DataSection

def DataRegion.chunk (region : DataRegion) : Object :=
  ⟨if region.tlsOffset.isSome then .tlsDataRegion else .dataRegion, region.object⟩

def DataRegion.serialize (region : DataRegion) : Script :=
  .number 8 region.address.toNat <| .number 8 region.size.toNat <| .number 8 region.originalAddress.toNat <|
    .number 4 region.permissions.toNat <| .number 8 region.alignment.toNat <|
    .number 8 region.dataBytes.length <| .bytes region.dataBytes <|
    .children (region.sections.map fun ds => (⟨.dataSection, ds.object⟩, ds.serialize localModuleOnly)) <|
    match region.tlsOffset with
    | none => .done
    | some offset => .number 8 offset.toNat .done

structure DataRegionList where
  tls : Option Nat
  regions : List DataRegion

def DataRegionList.serialize (l : DataRegionList) : Script :=
  .ref (upcast .tlsDataRegion l.tls) <|
    .children (l.regions.map fun region => (region.chunk, region.serialize localModuleOnly)) .done

structure VTableEntry where
  object : Nat
  address : Address
  link : Option Link

/-- Nothing is written for a null link. -/
def VTableEntry.serialize (entry : VTableEntry) : Script :=
  .number 8 entry.address.toNat <| entry.link.elim .done fun l => .link l .done

structure VTable where
  object : Nat
  className : Name
  entries : List VTableEntry

def VTable.serialize (table : VTable) : Script :=
  .string table.className <|
    .children (table.entries.map fun entry => (⟨.vTableEntry, entry.object⟩, entry.serialize)) .done

def VTableList.serialize (l : List VTable) : Script :=
  .children (l.map fun table => (⟨.vTable, table.object⟩, table.serialize)) .done

structure InitFunction where
  object : Nat
  init : Bool
  specialCase : Bool
  function : Option Nat
  dataVariable : Option Nat

/-- `serializeChildren` follows the child list, which this class does not have. -/
def InitFunction.serialize (f : InitFunction) : Script :=
  .bool f.init <| .bool f.specialCase <| .ref (upcast .function f.function) <|
    .ref (upcast .dataVariable f.dataVariable) <| .fault .nullPointer

structure InitFunctionList where
  init : Bool
  specialCase : Option Nat
  functions : List InitFunction

def InitFunctionList.serialize (l : InitFunctionList) : Script :=
  .bool l.init <| .ref (upcast .initFunction l.specialCase) <|
    .children (l.functions.map fun f => (⟨.initFunction, f.object⟩, f.serialize)) .done

structure ExternalSymbol where
  object : Nat
  name : Name
  type : BitVec 32
  bind : BitVec 32
  resolved : Option Object
  resolvedModule : Option Nat

def ExternalSymbol.serialize (symbol : ExternalSymbol) : Script :=
  .string symbol.name <| .number 4 symbol.type.toNat <| .number 4 symbol.bind.toNat <|
    if localModuleOnly then .ref none <| .ref none .done
    else .ref symbol.resolved <| .ref (upcast .module symbol.resolvedModule) .done

def ExternalSymbolList.serialize (l : List ExternalSymbol) : Script :=
  .children (l.map fun symbol => (⟨.externalSymbol, symbol.object⟩, symbol.serialize localModuleOnly)) .done

structure Library where
  object : Nat
  name : Name
  role : BitVec 8
  module : Option Nat
  resolvedPath : Name
  dependencies : List (Option Nat)

def Library.serialize (lib : Library) : Script :=
  .string lib.name <| .number 1 lib.role.toNat <| .ref (upcast .module lib.module) <| .string lib.resolvedPath <|
    .number 8 lib.dependencies.length <| lib.dependencies.foldr (fun p => .ref (upcast .library p)) .done

structure LibraryList where
  searchPaths : List Name
  libraries : List Library

def LibraryList.serialize (l : LibraryList) : Script :=
  .number 2 l.searchPaths.length <| l.searchPaths.foldr .string <|
    .children (l.libraries.map fun lib => (⟨.library, lib.object⟩, lib.serialize)) .done

structure Module where
  object : Nat
  name : Name
  library : Option Library
  pltList : Option (List PLTTrampoline)
  functionList : Option (List Function)
  jumpTableList : Option (List JumpTable)
  dataRegionList : Option DataRegionList
  vtableList : Option (List VTable)
  initFunctionList : Option InitFunctionList
  finiFunctionList : Option InitFunctionList
  externalSymbolList : Option (List ExternalSymbol)

/-- The lists get records with IDs of their own. A module that is serialized alone brings its library. -/
def Module.serialize (m : Module) : Script :=
  .string m.name <| .ref (m.library.map fun lib => ⟨.library, lib.object⟩) <|
    .list .pltList (m.pltList.map (PLTList.serialize cx)) <|
    .list .functionList (m.functionList.map (FunctionList.serialize cx)) <|
    .list .jumpTableList (m.jumpTableList.map JumpTableList.serialize) <|
    .list .dataRegionList (m.dataRegionList.map (DataRegionList.serialize localModuleOnly)) <|
    .optionalList .vTableList (m.vtableList.map VTableList.serialize) <|
    .optionalList .initFunctionList (m.initFunctionList.map InitFunctionList.serialize) <|
    .optionalList .initFunctionList (m.finiFunctionList.map InitFunctionList.serialize) <|
    .list .externalSymbolList (m.externalSymbolList.map (ExternalSymbolList.serialize localModuleOnly)) <|
    match localModuleOnly, m.library with
    | true, some lib => .record ⟨.library, lib.object⟩ lib.serialize .done
    | _, _ => .done

structure Program where
  libraryList : Option LibraryList
  modules : List Module
  entryPoint : Option Object

def Program.serialize (program : Program) : Script :=
  .list .libraryList (program.libraryList.map LibraryList.serialize) <|
    .children (program.modules.map fun m => (⟨.module, m.object⟩, m.serialize cx localModuleOnly)) <|
    .ref program.entryPoint .done

inductive Root
  | program (program : Program)
  | module (module : Module)

namespace Root

def type : Root → EgalitoChunkType
  | program _ => .program
  | module _ => .module

/-- `localModuleOnly` is whether the root is a module. -/
def script : Root → Script
  | program p => p.serialize cx false
  | module m => m.serialize cx true

def archive (root : Root) : Except Fault Archiver := serializeRoot cx.op.address root.type (root.script cx)

end Root

/-! ## Dangling references -/

/-- When serializing ends and the check for missing chunks finds none, every ID in a record has a
record, unless the last IDs were handed out for chunks that are never serialized. -/
theorem serialize_noDangling_iff {address : Object → Address} {type : EgalitoChunkType} {script : Script} {s : Archiver}
    (hlt : (allIDs type script).length < 2 ^ 32) (h : serializeRoot address type script = .ok s) :
    (s.complete = true → s.NoDangling) ↔ ¬ EndsUnserialized type script :=
  (serializeRoot_tracks hlt h).noDangling_iff hlt

def emptyModule (library : Option Library) : Module :=
  ⟨0, ⟨[], by simp⟩, library, some [], some [], some [], some ⟨none, []⟩, none, none, none, some []⟩

theorem exists_ok_of_any {α : Type} {r : Except Fault α} {p : α → Bool} (h : r.toOption.any p = true) :
    ∃ s, r = .ok s ∧ p s = true := by
  cases r with
  | error e => cases h
  | ok s => exact ⟨s, rfl, h⟩

def returnOnly : Function :=
  ⟨0, 0x1000, ⟨[0x66], by decide⟩, false, false, [⟨0, none, 0, 1, [⟨0, 0x1000, none, .ret [0xc3]⟩]⟩]⟩

/-- A module with one function. -/
def oneFunction : Module := { emptyModule none with functionList := some [returnOnly] }

instance (script : Script) (k : Key) : Decidable (script.Serialized k) :=
  match k with
  | .own _ => isTrue trivial
  | .chunk c => inferInstanceAs (Decidable (c ∈ script.recorded))

theorem serialize_noDangling_iff_module : ∃ s, (Root.module oneFunction).archive Semantic.sampleContext = .ok s ∧
    s.complete = true ∧ s.NoDangling := by
  have hrun : ((Root.module oneFunction).archive Semantic.sampleContext).toOption.any Archiver.complete = true := by
    decide +kernel
  have hlt : (allIDs .module (oneFunction.serialize Semantic.sampleContext true)).length < 2 ^ 32 := by decide +kernel
  have hall : ∀ k ∈ allIDs .module (oneFunction.serialize Semantic.sampleContext true),
      (oneFunction.serialize Semantic.sampleContext true).Serialized k := by decide +kernel
  obtain ⟨s, hs, hcm⟩ := exists_ok_of_any hrun
  refine ⟨s, hs, hcm, (serialize_noDangling_iff hlt hs).2 ?_ hcm⟩
  rintro ⟨front, back, heq, hbk, -, hrt⟩
  obtain ⟨k, hk⟩ := List.exists_mem_of_ne_nil _ hbk
  exact hrt k hk (hall k (by rw [heq]; exact List.mem_append_right _ hk))

/-- The library of a module that is serialized alone refers to the module by the last ID, which the check does not
    reach. -/
theorem module_reference_dangles : ∃ s,
    (Root.module (emptyModule (some ⟨0, ⟨[], by simp⟩, 1, some 0, ⟨[], by simp⟩, []⟩))).archive Semantic.sampleContext = .ok s ∧
      s.complete = true ∧ 7 ∈ s.written ∧ s.flatList.length = 7 ∧ ¬ s.NoDangling := by
  have hrun : ((Root.module (emptyModule (some ⟨0, ⟨[], by simp⟩, 1, some 0, ⟨[], by simp⟩, []⟩))).archive
      Semantic.sampleContext).toOption.any (fun s => s.complete && decide (7 ∈ s.written ∧ s.flatList.length = 7)) = true := by
    decide +kernel
  obtain ⟨s, hs, hp⟩ := exists_ok_of_any hrun
  rw [Bool.and_eq_true, decide_eq_true_eq] at hp
  refine ⟨s, hs, hp.1, hp.2.1, hp.2.2, fun h => ?_⟩
  obtain ⟨flat, hft, -⟩ := h 7 hp.2.1
  have hlt : 7 < s.flatList.length := lt_length_of_flatAt (by rw [show 7 = (7 : BitVec 32).toNat from rfl, hft]; rfl)
  omega

end Egalito.Archive
