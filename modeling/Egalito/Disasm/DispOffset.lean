/-
Where an operand is stored in an instruction: determineDisplacementSize, getDispOffset and
LinkedInstructionBase::writeTo.

The place is searched for by value from the end of the instruction. With an instruction as prefix, opcode and fields,
`getDispOffset_iff` says when the search finds the field of the operand, and when a new value is written into it.
-/
import Egalito.Lib.Bytes
import Mathlib.Data.List.GetD
import Mathlib.Data.Nat.Find

namespace Egalito.DispOffset

open Lib List

/-- The operand types of distorm. -/
inductive DOperandType where
  | none | reg | imm | imm1 | imm2 | disp | smem | mem | pc | ptr
deriving DecidableEq

structure DOperand where
  type : DOperandType
  size : Nat

/-- The part of `_DInst` that is read; sizes are in bits. -/
structure DInst where
  decodable : Bool
  dispSize : Nat
  ops : List DOperand

/-- The operand of the first disassembler: a memory operand with its displacement, or an immediate with
    its value. -/
inductive CsOperand where
  | mem (disp : BitVec 64)
  | imm (value : BitVec 64)
  | other
deriving DecidableEq

/-- An instruction with what the two disassemblers say about it; `distorm` is `none` if it fails. -/
structure Assembly where
  bytes : List Byte
  operands : List CsOperand
  distorm : Option DInst

def determineDisplacementSize (a : Assembly) (opIndex : Nat) : Nat :=
  match a.distorm with
  | none => 0
  | some instr =>
    if instr.decodable = false then 0
    else
      -- capstone and distorm use the opposite index
      let op := instr.ops.getD (a.operands.length - 1 - opIndex) ⟨.none, 0⟩
      match op.type with
      | .smem | .mem | .disp => instr.dispSize / 8
      | .imm | .imm1 | .imm2 | .pc | .ptr => op.size / 8
      | .none | .reg => 0

/-! ## The search -/

def Matches (bytes : List Byte) (size : Nat) (value : BitVec 64) (offset : Nat) : Prop :=
  (bytes.drop offset).take size = littleEndian size value.toNat

instance (bytes : List Byte) (size : Nat) (value : BitVec 64) : DecidablePred (Matches bytes size value) :=
  fun _ => inferInstanceAs (Decidable (_ = _))

/-- The loop `while(offset > 0)`. -/
def searchFrom (bytes : List Byte) (size : Nat) (value : BitVec 64) : Nat → Nat
  | 0 => 0
  | offset + 1 => if Matches bytes size value (offset + 1) then offset + 1 else searchFrom bytes size value offset

def searchBackwards (bytes : List Byte) (size : Nat) (value : BitVec 64) : Int :=
  let offset : Int := bytes.length - size
  if offset > 0 then searchFrom bytes size value offset.toNat else offset

/-- Where the bytes of the operand stand last in the instruction. -/
def getDispOffset (a : Assembly) (opIndex : Nat) : Int :=
  match a.operands[opIndex]? with
  | some (.mem disp) => searchBackwards a.bytes (determineDisplacementSize a opIndex) disp
  | some (.imm value) => searchBackwards a.bytes (determineDisplacementSize a opIndex) value
  | _ => 0

theorem searchFrom_eq_findGreatest (bytes) (size) (value) : ∀ offset,
    searchFrom bytes size value offset = Nat.findGreatest (Matches bytes size value) offset
  | 0 => rfl
  | offset + 1 => by rw [searchFrom, Nat.findGreatest_succ, searchFrom_eq_findGreatest bytes size value offset]

variable {k size : Nat}

/-- The search ends at a place behind the first byte exactly if the value stands there and nowhere
    later. -/
theorem searchBackwards_eq_iff {bytes value} (hk : 0 < k) (hs : k + size ≤ bytes.length) :
    searchBackwards bytes size value = k ↔
      Matches bytes size value k ∧ ∀ j, k < j → j + size ≤ bytes.length → ¬Matches bytes size value j := by
  have hp : (bytes.length : Int) - size > 0 := by omega
  have ht : ((bytes.length : Int) - size).toNat = bytes.length - size := by omega
  rw [searchBackwards, if_pos hp, ht, Int.natCast_inj, searchFrom_eq_findGreatest, Nat.findGreatest_eq_iff]
  constructor
  · rintro ⟨-, hm, hlt⟩
    exact ⟨hm hk.ne', fun j hj hle => hlt hj (by omega)⟩
  · rintro ⟨hm, hlt⟩
    exact ⟨by omega, fun _ => hm, fun j hj hle => hlt j hj (by omega)⟩

theorem searchBackwards_bounds {bytes} (value) (h : size < bytes.length) :
    ∃ k : Nat, searchBackwards bytes size value = k ∧ k + size ≤ bytes.length := by
  have hp : (bytes.length : Int) - size > 0 := by omega
  refine ⟨_, by rw [searchBackwards, if_pos hp], ?_⟩
  rw [searchFrom_eq_findGreatest]
  have := Nat.findGreatest_le (P := Matches bytes size value) ((bytes.length : Int) - size).toNat
  omega

theorem searchBackwards_matches {bytes value} (hk : 0 < k) (hs : k + size ≤ bytes.length)
    (hm : Matches bytes size value k) :
    ∃ j : Nat, searchBackwards bytes size value = j ∧ Matches bytes size value j := by
  have hp : (bytes.length : Int) - size > 0 := by omega
  refine ⟨_, by rw [searchBackwards, if_pos hp], ?_⟩
  rw [searchFrom_eq_findGreatest]
  exact Nat.findGreatest_spec (by omega : k ≤ _) hm

/-- `LinkedInstructionBase` after `makeDisplacementInfo`. -/
structure LinkedInstruction where
  assembly : Assembly
  displacementSize : Nat
  displacementOffset : Int

def makeDisplacementInfo (a : Assembly) (opIndex : Nat) : LinkedInstruction :=
  ⟨a, determineDisplacementSize a opIndex, getDispOffset a opIndex⟩

/-- writeTo, with the displacement that is written. -/
def writeTo (l : LinkedInstruction) (newDisp : BitVec 64) : List Byte :=
  let offset := l.displacementOffset.toNat
  let size := l.displacementSize
  l.assembly.bytes.take offset ++ littleEndian size newDisp.toNat ++
    (l.assembly.bytes.drop (offset + size)).take (l.assembly.bytes.length - size - offset)

/-! ## Encodings -/

/-- An instruction as the parts of its encoding, in their order. -/
structure Encoding where
  prefixes : List Byte
  opcode : List Byte
  modrm : Option Byte
  sib : Option Byte
  disp : List Byte
  imms : List (List Byte)
  opcode_ne_nil : opcode ≠ []

namespace Encoding

variable (e : Encoding)

def head : List Byte := e.prefixes ++ e.opcode ++ e.modrm.toList ++ e.sib.toList

def bytes : List Byte := e.head ++ e.disp ++ e.imms.flatten

/-- A part of the encoding that holds an operand: the displacement or one of the immediates. -/
inductive Field where
  | disp
  | imm (i : Nat)

def field : Field → List Byte
  | .disp => e.disp
  | .imm i => e.imms.getD i []

def before : Field → List Byte
  | .disp => e.head
  | .imm i => e.head ++ e.disp ++ (e.imms.take i).flatten

def after : Field → List Byte
  | .disp => e.imms.flatten
  | .imm i => (e.imms.drop (i + 1)).flatten

def offset (f : Field) : Nat := (e.before f).length

def withField (f : Field) (content : List Byte) : List Byte := e.before f ++ content ++ e.after f

theorem withField_field {f} (h : e.field f ≠ []) : e.withField f (e.field f) = e.bytes := by
  cases f with
  | disp => rfl
  | imm i =>
    have hi : i < e.imms.length := by
      by_contra hge
      exact h (getD_eq_default _ _ (by omega))
    have hs : e.imms = e.imms.take i ++ e.imms.getD i [] :: e.imms.drop (i + 1) := by
      rw [getD_eq_getElem _ _ hi, ← drop_eq_getElem_cons hi, take_append_drop]
    rw [bytes, congrArg flatten hs]
    simp [withField, before, field, after]

theorem offset_pos (f) : 0 < e.offset f := by
  have ho := length_pos_iff.2 e.opcode_ne_nil
  cases f <;> simp only [offset, before, head, length_append] <;> omega

end Encoding

/-- The assembly is of the encoding, its operand `opIndex` is the one in the field, and distorm reports the size of the
    field. -/
structure Describes (a : Assembly) (opIndex : Nat) (e : Encoding) (f : Encoding.Field) (value : BitVec 64) : Prop where
  bytes_eq : a.bytes = e.bytes
  operand : a.operands[opIndex]? = some (match f with | .disp => .mem value | .imm _ => .imm value)
  size : determineDisplacementSize a opIndex = (e.field f).length
  field_ne_nil : e.field f ≠ []

section

variable {a : Assembly} {opIndex : Nat} {e : Encoding} {f : Encoding.Field} {value : BitVec 64}

section

variable (h : Describes a opIndex e f value)
include h

theorem Describes.bytes_split : a.bytes = e.before f ++ e.field f ++ e.after f := by
  rw [h.bytes_eq, ← e.withField_field h.field_ne_nil, Encoding.withField]

theorem Describes.getDispOffset_eq : getDispOffset a opIndex = searchBackwards a.bytes (e.field f).length value := by
  rw [getDispOffset, h.operand, ← h.size]
  cases f <;> rfl

theorem Describes.offset_le : e.offset f + (e.field f).length ≤ a.bytes.length := by
  rw [h.bytes_split, Encoding.offset, length_append, length_append]
  omega

theorem Describes.matches_iff : Matches a.bytes (e.field f).length value (e.offset f) ↔
      e.field f = littleEndian (e.field f).length value.toNat := by
  rw [Matches, h.bytes_split, Encoding.offset, append_assoc, drop_left, take_left]

end

/-- The value of the operand stands in its field and, in the whole instruction, at no later place. -/
def LastOccurrence (e : Encoding) (f : Encoding.Field) (value : BitVec 64) : Prop :=
  e.field f = littleEndian (e.field f).length value.toNat ∧
    ∀ j, e.offset f < j → j + (e.field f).length ≤ e.bytes.length → ¬Matches e.bytes (e.field f).length value j

theorem Describes.getDispOffset_eq_iff (h : Describes a opIndex e f value) :
    getDispOffset a opIndex = e.offset f ↔ LastOccurrence e f value := by
  rw [h.getDispOffset_eq, searchBackwards_eq_iff (e.offset_pos f) h.offset_le, h.matches_iff, h.bytes_eq]
  rfl

/-! ## What is patched -/

/-- The bytes with others in their place from `k` on. -/
def patch (bytes : List Byte) (k : Nat) (new : List Byte) : List Byte :=
  bytes.take k ++ new ++ bytes.drop (k + new.length)

variable {new : List Byte} {n : Nat}

theorem getElem?_patch {bytes} (hk : k ≤ bytes.length) (hn : 0 < new.length) : (patch bytes k new)[k]? = new[0]? := by
  have hl := length_take_of_le hk
  rw [patch, append_assoc, getElem?_append_right hl.le, hl, Nat.sub_self,
    getElem?_append_left hn]

theorem getElem?_patch_of_lt {bytes i} (hk : k ≤ bytes.length) (hi : i < k) : (patch bytes k new)[i]? = bytes[i]? := by
  have hl := length_take_of_le hk
  rw [patch, append_assoc, getElem?_append_left (by omega), getElem?_take_of_lt hi]

theorem getElem?_littleEndian_zero (hn : 0 < n) (d) : (littleEndian n d)[0]? = some (BitVec.ofNat 8 d) := by
  cases n with
  | zero => exact absurd hn (lt_irrefl 0)
  | succ n => rfl

/-- Patches of every value at two places differ for some value at the earlier place. -/
theorem not_lt_of_patch_eq {bytes k'} (hn : 0 < n) (hk' : k' ≤ bytes.length)
    (h : ∀ d : BitVec 64, patch bytes k (littleEndian n d.toNat) = patch bytes k' (littleEndian n d.toNat)) :
    ¬k < k' := by
  intro hlt
  have hb (d : BitVec 64) : some (BitVec.ofNat 8 d.toNat) = bytes[k]? := by
    have hl : 0 < (littleEndian n d.toNat).length := by rwa [length_littleEndian]
    rw [← getElem?_littleEndian_zero hn, ← getElem?_patch (hlt.le.trans hk') hl, h d,
      getElem?_patch_of_lt hk' hlt]
  have := (hb 0).trans (hb 1).symm
  exact absurd this (by decide)

theorem Describes.writeTo_eq (h : Describes a opIndex e f value) (hk : getDispOffset a opIndex = k)
    (newDisp) : writeTo (makeDisplacementInfo a opIndex) newDisp =
      patch a.bytes k (littleEndian (e.field f).length newDisp.toNat) := by
  have hr : (a.bytes.drop (k + (e.field f).length)).length ≤ a.bytes.length - (e.field f).length - k := by
    rw [length_drop]
    omega
  simp only [writeTo, makeDisplacementInfo, hk, Int.toNat_natCast, h.size, patch, length_littleEndian]
  rw [take_of_length_le hr]

/-- Writing the value that the operand has changes nothing, wherever it is found. -/
theorem Describes.writeTo_value (h : Describes a opIndex e f value)
    (hv : e.field f = littleEndian (e.field f).length value.toNat) :
    writeTo (makeDisplacementInfo a opIndex) value = a.bytes := by
  obtain ⟨k, hk, hm⟩ := searchBackwards_matches (e.offset_pos f) h.offset_le (h.matches_iff.2 hv)
  rw [h.writeTo_eq (h.getDispOffset_eq.trans hk), ← hm, patch]
  have hl : ((a.bytes.drop k).take (e.field f).length).length = (e.field f).length := by
    rw [hm, length_littleEndian]
  rw [hl, append_assoc, ← drop_drop, take_append_drop, take_append_drop]

theorem Describes.withField_eq (h : Describes a opIndex e f value) {content}
    (hl : content.length = (e.field f).length) : e.withField f content = patch a.bytes (e.offset f) content := by
  have hd : a.bytes.drop (e.offset f + content.length) = e.after f := by
    rw [h.bytes_split, hl, Encoding.offset, ← length_append, drop_left]
  have ht : a.bytes.take (e.offset f) = e.before f := by
    rw [h.bytes_split, Encoding.offset, append_assoc, take_left]
  rw [patch, hd, ht, Encoding.withField]

/-- Whatever displacement is written, the field gets it and nothing else changes. -/
def PatchesField (a : Assembly) (opIndex : Nat) (e : Encoding) (f : Encoding.Field) : Prop :=
  ∀ newDisp, writeTo (makeDisplacementInfo a opIndex) newDisp =
    e.withField f (littleEndian (e.field f).length newDisp.toNat)

theorem Describes.patchesField_iff (h : Describes a opIndex e f value) :
    PatchesField a opIndex e f ↔ getDispOffset a opIndex = e.offset f := by
  have hf := length_pos_iff.2 h.field_ne_nil
  have hle := h.offset_le
  have hs := e.offset_pos f
  have hlt : (e.field f).length < a.bytes.length := by omega
  obtain ⟨k, hk, he⟩ := searchBackwards_bounds value hlt
  rw [← h.getDispOffset_eq] at hk
  have hw (d : BitVec 64) := h.withField_eq (length_littleEndian (e.field f).length d.toNat)
  constructor
  · intro hp
    have heq (d : BitVec 64) : patch a.bytes k (littleEndian (e.field f).length d.toNat) =
        patch a.bytes (e.offset f) (littleEndian (e.field f).length d.toNat) := by
      rw [← h.writeTo_eq hk, hp d, hw]
    have h1 := not_lt_of_patch_eq hf (by omega) heq
    have h2 := not_lt_of_patch_eq hf (by omega) fun d => (heq d).symm
    rw [hk]
    omega
  · intro ho d
    rw [h.writeTo_eq ho, hw]

end

/-- The offset of the operand's field is found, and writeTo changes the field only, exactly if the
    operand's value stands in the field and at no later place of the instruction. -/
theorem getDispOffset_iff {a : Assembly} {opIndex : Nat} {e : Encoding} {f : Encoding.Field} {value : BitVec 64}
    (h : Describes a opIndex e f value) :
    (getDispOffset a opIndex = e.offset f ↔ LastOccurrence e f value) ∧
      (PatchesField a opIndex e f ↔ LastOccurrence e f value) :=
  ⟨h.getDispOffset_eq_iff, h.patchesField_iff.trans h.getDispOffset_eq_iff⟩

/-- `movl $imm, disp(%rax)` -/
def movImm (disp imm : Byte) : Encoding where
  prefixes := []
  opcode := [0xc7]
  modrm := some 0x40
  sib := none
  disp := [disp]
  imms := [[imm, 0, 0, 0]]
  opcode_ne_nil := by decide

def movImmAssembly (disp imm : Byte) : Assembly where
  bytes := (movImm disp imm).bytes
  operands := [.imm (imm.setWidth 64), .mem (disp.setWidth 64)]
  distorm := some ⟨true, 8, [⟨.smem, 32⟩, ⟨.imm, 32⟩]⟩

/-- With another immediate than the displacement, the displacement is found behind opcode and ModRM. -/
theorem getDispOffset_movImm : getDispOffset (movImmAssembly 0x10 0x20) 1 = 2 ∧
    PatchesField (movImmAssembly 0x10 0x20) 1 (movImm 0x10 0x20) .disp := by
  have hlt : LastOccurrence (movImm 0x10 0x20) .disp 0x10 := by
    refine ⟨by decide, ?_⟩
    intro j hj hle
    have hj' : j = 3 ∨ j = 4 ∨ j = 5 ∨ j = 6 := by
      have : (movImm 0x10 0x20).offset .disp = 2 := rfl
      have : ((movImm 0x10 0x20).field .disp).length = 1 := rfl
      have : (movImm 0x10 0x20).bytes.length = 7 := rfl
      omega
    obtain rfl | rfl | rfl | rfl := hj' <;> decide
  have hds : Describes (movImmAssembly 0x10 0x20) 1 (movImm 0x10 0x20) .disp 0x10 :=
    ⟨rfl, rfl, rfl, by decide⟩
  obtain ⟨hos, hpt⟩ := getDispOffset_iff hds
  exact ⟨hos.mpr hlt, hpt.mpr hlt⟩

/-- `movl $0x10, 0x10(%rax)`: the immediate is taken for the displacement. -/
theorem getDispOffset_finds_immediate :
    (movImm 0x10 0x10).offset .disp = 2 ∧ getDispOffset (movImmAssembly 0x10 0x10) 1 = 3 ∧
      writeTo (makeDisplacementInfo (movImmAssembly 0x10 0x10) 1) 0x11 = (movImm 0x10 0x11).bytes := by
  decide +kernel

end Egalito.DispOffset
