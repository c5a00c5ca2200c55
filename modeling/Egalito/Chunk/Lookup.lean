/-
The chunks and data of a module by their addresses (`operation/find.h`, `chunk/chunklist.h`, `chunk/dataregion.cpp`),
and the links made from them (`chunk/link.h`).

Places are natural numbers: the ranges of functions, regions and sections are taken to end within the address space,
where `Range::getEnd` does not wrap.
-/
import Egalito.Lib.Bytes
import Egalito.Lib.Spans
import Egalito.Util.Range

namespace Egalito.Lookup

open Lib

structure Instruction where
  bytes : List Byte
deriving DecidableEq

def Instruction.size (i : Instruction) : Nat := i.bytes.length

abbrev Block := List Instruction

def Block.size (b : Block) : Nat := totalLength Instruction.size b

structure Function where
  name : String
  address : Address
  blocks : List Block

namespace Function

def start (f : Function) : Nat := f.address.toNat

def size (f : Function) : Nat := totalLength Block.size f.blocks

def stop (f : Function) : Nat := f.start + f.size

def placedBlocks (f : Function) : List (Nat × Block) := layout Block.size f.start f.blocks

/-- The instructions of all blocks, with their addresses. -/
def placedInstructions (f : Function) : List (Nat × Instruction) := layout Instruction.size f.start f.blocks.flatten

end Function

/-- A chunk that a link can refer to: functions are named by their place in the function list. -/
inductive Chunk where
  | function (index address : Nat)
  | block (index address : Nat)
  | instruction (index address : Nat) (i : Instruction)
  | pltTrampoline (address : Nat)
deriving DecidableEq

def Chunk.address : Chunk → Nat
  | .function _ a => a
  | .block _ a => a
  | .instruction _ a _ => a
  | .pltTrampoline a => a

def functionContaining (functions : List Function) (p : Nat) : Option (Function × Nat) :=
  findContaining (fun e => e.1.start) (fun e => e.1.size) functions.zipIdx p

theorem containing_eq_some {functions p k f}
    (h : functionContaining functions p = some (f, k)) : functions[k]? = some f ∧ f.start ≤ p ∧ p < f.stop := by
  obtain ⟨hm, hc⟩ := findContaining_eq_some h
  exact ⟨List.mem_zipIdx_iff_getElem?.1 hm, hc⟩

/-! ## ChunkFind::findImpl -/

/-- For a chunk with a position, once no child contains the address. -/
def findSelf (chunk : Chunk) (start size target : Nat) (compositeContains : Bool) : Option Chunk :=
  if compositeContains then if start ≤ target ∧ target < start + size then some chunk else none
  else if start = target then some chunk else none

/-- For an instruction that was found to contain the address. -/
def findInInstruction (index : Nat) (placed : Nat × Instruction) (target : Nat) (instructionContains : Bool) :
    Option Chunk :=
  if instructionContains ∨ placed.1 = target then some (.instruction index placed.1 placed.2) else none

def findInBlock (index : Nat) (placed : Nat × Block) (target : Nat) (compositeContains instructionContains : Bool) :
    Option Chunk :=
  match itemAt Instruction.size placed.1 placed.2 target with
  | some i => findInInstruction index i target instructionContains
  | none => findSelf (.block index placed.1) placed.1 (Block.size placed.2) target compositeContains

def findInFunction (index : Nat) (f : Function) (target : Nat) (compositeContains instructionContains : Bool) :
    Option Chunk :=
  match itemAt Block.size f.start f.blocks target with
  | some b => findInBlock index b target compositeContains instructionContains
  | none => findSelf (.function index f.start) f.start f.size target compositeContains

/-- The function list itself has no position. -/
def findInFunctionList (functions : List Function) (target : Nat) (compositeContains instructionContains : Bool) :
    Option Chunk :=
  (functionContaining functions target).bind fun e =>
    findInFunction e.2 e.1 target compositeContains instructionContains

theorem Function.size_eq (f : Function) : f.size = totalLength Instruction.size f.blocks.flatten :=
  totalLength_flatten.symm

/-- Within a function, findInnermostInsideInstruction is the lookup in the list of all its instructions. -/
theorem findInFunction_inside {f} {p} (index) (hle : f.start ≤ p) (hlt : p < f.stop) :
    ∃ e, itemAt Instruction.size f.start f.blocks.flatten p = some e ∧
      findInFunction index f p false true = some (.instruction index e.1 e.2) := by
  cases hb : itemAt Block.size f.start f.blocks p with
  | none =>
    -- the blocks fill the function
    have ho : p < f.start ∨ f.stop ≤ p := itemAt_eq_none.1 hb
    omega
  | some b =>
    have hf := itemAt_flatten hb
    cases hi : itemAt Instruction.size f.start f.blocks.flatten p with
    | none =>
      have ho := itemAt_eq_none.1 hi
      rw [← f.size_eq, ← Function.stop] at ho
      omega
    | some e =>
      refine ⟨e, rfl, ?_⟩
      rw [findInFunction, hb]
      simp only [findInBlock, hf, hi, findInInstruction, true_or, if_true]

def Function.StartsAt (f : Function) (p : Nat) : Prop := p ∈ f.placedInstructions.map Prod.fst

instance (f : Function) (p : Nat) : Decidable (f.StartsAt p) := inferInstanceAs (Decidable (_ ∈ _))

structure DataSection where
  address : Address
  size : Nat
  isCode : Bool
deriving DecidableEq

def DataSection.contains (s : DataSection) (p : Nat) : Bool :=
  decide (s.address.toNat ≤ p) && decide (p < s.address.toNat + s.size)

structure DataRegion where
  address : Address
  size : Nat
  executable : Bool
  sections : List DataSection

def DataRegion.contains (r : DataRegion) (p : Nat) : Bool :=
  decide (r.address.toNat ≤ p) && decide (p < r.address.toNat + r.size)

/-- The first section that contains the address. -/
def DataRegion.findDataSectionContaining (r : DataRegion) (p : Nat) : Option DataSection :=
  r.sections.find? fun s => s.contains p

structure TLSDataRegion extends DataRegion where
  sizeOfInitializedData : Nat

def TLSDataRegion.containsData (r : TLSDataRegion) (p : Nat) : Bool :=
  decide (r.address.toNat ≤ p) && decide (p < r.address.toNat + r.sizeOfInitializedData)

/-- The regions, without the one for TLS, and that one. -/
structure DataRegionList where
  regions : List DataRegion
  tls : Option TLSDataRegion

namespace DataRegionList

def findNonTLSRegionContaining (d : DataRegionList) (p : Nat) : Option DataRegion := d.regions.find? fun r => r.contains p

/-- The TLS region is checked first, since it overlaps another one. -/
def findRegionContaining (d : DataRegionList) (p : Nat) : Option DataRegion :=
  match d.tls with
  | some tls => if tls.containsData p then some tls.toDataRegion else d.findNonTLSRegionContaining p
  | none => d.findNonTLSRegionContaining p

end DataRegionList

/-! ## Links -/

inductive Scope where
  | unknown | internalJump | withinModule | externalJump
deriving DecidableEq

/-- A marker refers to the address of its base; the end marker of a section that was not found has no
    base. -/
inductive Marker where
  | general (base addend : Address)
  | sectionEnd (dataSection : Option DataSection)
deriving DecidableEq

def Marker.getAddress : Marker → Except Failure Address
  | .general base addend => .ok (base + addend)
  | .sectionEnd (some s) => .ok (s.address + BitVec.ofNat 64 s.size)
  | .sectionEnd none => .error .assertion

/-- `relative` tells NormalLink, DataOffsetLink and MarkerLink from their absolute counterparts. -/
inductive Link where
  | normal (target : Option Chunk) (relative : Bool) (scope : Scope)
  | data (dataSection : DataSection) (offset : Address) (relative : Bool)
  | marker (marker : Marker) (relative : Bool)
  | unresolved (target : Address)
deriving DecidableEq

namespace Link

def getTargetAddress : Link → Except Failure Address
  | .normal (some c) _ _ => .ok (BitVec.ofNat 64 c.address)
  | .normal none _ _ => .error .assertion
  | .data s offset _ => .ok (s.address + offset)
  | .marker m _ => m.getAddress
  | .unresolved target => .ok target

def isRIPRelative : Link → Bool
  | .normal _ relative _ => relative
  | .data _ _ relative => relative
  | .marker _ relative => relative
  | .unresolved _ => false

def isMarker : Link → Bool
  | .marker _ _ => true
  | _ => false

end Link

def makeNormalLink (target : Option Chunk) (isRelative isExternal : Bool) : Link :=
  .normal target isRelative (if isExternal then .externalJump else .internalJump)

/-- DataRegionList::createDataLink; for a section of code, only what is logged depends on the chunk at the
    address. -/
def createDataLink (d : DataRegionList) (target : Address) (isRelative : Bool) : Option Link :=
  (d.findRegionContaining target.toNat).bind fun region =>
    (findContaining (fun s => s.address.toNat) DataSection.size region.sections target.toNat).map fun s =>
      .data s (target - s.address) isRelative

theorem createDataLink_exact {d target isRelative link} (h : createDataLink d target isRelative = some link) :
    link.getTargetAddress = .ok target ∧ link.isRIPRelative = isRelative := by
  obtain ⟨region, -, h⟩ := Option.bind_eq_some_iff.1 h
  obtain ⟨s, -, rfl⟩ := Option.map_eq_some_iff.1 h
  constructor
  · exact congrArg Except.ok (by ring : s.address + (target - s.address) = target)
  · rfl

/-- The function if the address is its own, and else its innermost chunk there. -/
def chunkAt (f : Function) (index : Nat) (target : Address) : Option Chunk :=
  if f.address = target then some (.function index f.start) else findInFunction index f target.toNat false true

/-- A link to the chunk of a function at an address inside it refers to the address exactly if an
    instruction starts there. -/
theorem chunkAt_exact_iff {f target} (hle : f.start ≤ target.toNat)
    (hlt : target.toNat < f.stop) (index) (relative) (scope) :
    (Link.normal (chunkAt f index target) relative scope).getTargetAddress = .ok target ↔ f.StartsAt target.toNat := by
  obtain ⟨e, hi, hf⟩ := findInFunction_inside index hle hlt
  obtain ⟨hm, hsr, -⟩ := itemAt_eq_some.1 hi
  by_cases ha : f.address = target
  · -- the first instruction starts where the function does
    have hr : e.1 = target.toNat := by
      have hb := (bounds_of_mem_layout hm).1
      rw [Function.start, ha] at hb
      omega
    rw [chunkAt, if_pos ha]
    constructor
    · intro _
      exact (itemAt_start_iff hi).1 hr
    · intro _
      rw [Link.getTargetAddress, Chunk.address, Function.start, ha, BitVec.ofNat_toNat, BitVec.setWidth_eq]
  · have hs : e.1 < 2 ^ 64 := hsr.trans_lt target.isLt
    have he : BitVec.ofNat 64 e.1 = target ↔ e.1 = target.toNat := by
      rw [← BitVec.toNat_inj, BitVec.toNat_ofNat, Nat.mod_eq_of_lt hs]
    rw [chunkAt, if_neg ha, hf, Link.getTargetAddress, Chunk.address, Except.ok.injEq, he]
    exact itemAt_start_iff hi

end Egalito.Lookup
