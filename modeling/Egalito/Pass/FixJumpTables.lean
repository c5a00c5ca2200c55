/-
FixJumpTablesPass (`pass/fixjumptables.cpp`) writes the slots that JumpTablePass has read. The distance is cut to the width
of the slot, on AArch64 after a division of the unsigned distance.
-/
import Egalito.Pass.JumpTables

namespace Egalito.FixJumpTables

open Lib List BitVec

inductive Arch
  | x86_64
  | aarch64
deriving DecidableEq

/-- The narrow slots of AArch64 count instructions. -/
def Arch.unit (arch : Arch) (scale : Nat) : Nat := if arch = .aarch64 ∧ scale ≠ 4 then 4 else 1

/-- The target that makeChildren computes from the bytes of a slot. -/
def slotTarget (arch : Arch) (scale : Nat) (targetBase : Address) (bytes : List Byte) : Address :=
  targetBase + BitVec.ofInt 64 (signedField bytes) * BitVec.ofNat 64 (arch.unit scale)

/-- What is stored in the slot of an entry with this target; the slot is left alone if the scale is unknown. -/
def fixSlot (arch : Arch) (scale : Nat) (targetBase target : Address) (bytes : List Byte) : List Byte :=
  if scale ∈ [1, 2, 4] then littleEndian scale ((target - targetBase) / BitVec.ofNat 64 (arch.unit scale)).toNat
  else bytes

/-- visit(JumpTable) on the slots of a table and the targets of the links of its entries. -/
def fixJumpTable (arch : Arch) (scale : Nat) (targetBase : Address) : List Address → List (List Byte) → List (List Byte) :=
  zipWith (fixSlot arch scale targetBase)

/-- The distance is one that a slot can hold. -/
def Reaches (arch : Arch) (scale : Nat) (targetBase target : Address) : Prop :=
  ∃ v : Int, -2 ^ (8 * scale - 1) ≤ v ∧ v < 2 ^ (8 * scale - 1) ∧ target = targetBase + BitVec.ofInt 64 (v * arch.unit scale)

variable {arch : Arch} {scale : Nat} {targetBase target : Address} {bytes : List Byte}

section

variable (hsl : scale ∈ [1, 2, 4])
include hsl

/-- The division of the unsigned distance is right in the bits that a slot keeps. -/
theorem quotient_mod (v : Int) :
    (BitVec.ofInt 64 (v * arch.unit scale) / BitVec.ofNat 64 (arch.unit scale)).toNat % 2 ^ (8 * scale) =
      (v % 2 ^ (8 * scale)).toNat := by
  rw [toNat_udiv, toNat_ofInt]
  simp only [mem_cons, not_mem_nil, or_false] at hsl
  rcases hsl with rfl | rfl | rfl <;> cases arch <;> simp [Arch.unit] <;> omega

theorem fixSlot_offset (v : Int) :
    fixSlot arch scale targetBase (targetBase + BitVec.ofInt 64 v * BitVec.ofNat 64 (arch.unit scale)) bytes =
      littleEndian scale (BitVec.ofInt 64 (v * arch.unit scale) / BitVec.ofNat 64 (arch.unit scale)).toNat := by
  rw [fixSlot, if_pos hsl, BitVec.add_comm, BitVec.add_sub_cancel, BitVec.ofInt_mul, BitVec.ofInt_natCast]

theorem slotTarget_fixSlot_iff :
    slotTarget arch scale targetBase (fixSlot arch scale targetBase target bytes) = target ↔
      Reaches arch scale targetBase target := by
  constructor
  · intro h
    have hl : (fixSlot arch scale targetBase target bytes).length = scale := by
      rw [fixSlot, if_pos hsl, length_littleEndian]
    have hp := Nat.two_pow_pos (8 * scale)
    have hlo := Int.le_bmod (x := fromLittleEndian (fixSlot arch scale targetBase target bytes)) hp
    have hhi := Int.bmod_lt (x := fromLittleEndian (fixSlot arch scale targetBase target bytes)) hp
    refine ⟨signedField (fixSlot arch scale targetBase target bytes), ?_, ?_, ?_⟩
    · rw [signedField, hl]
      simp only [mem_cons, not_mem_nil, or_false] at hsl
      rcases hsl with rfl | rfl | rfl <;> simp at hlo ⊢ <;> omega
    · rw [signedField, hl]
      simp only [mem_cons, not_mem_nil, or_false] at hsl
      rcases hsl with rfl | rfl | rfl <;> simp at hhi ⊢ <;> omega
    · rw [ofInt_mul, ofInt_natCast]
      exact h.symm
  · rintro ⟨v, hlo, hhi, rfl⟩
    rw [ofInt_mul, ofInt_natCast, slotTarget, fixSlot_offset hsl, signedField, length_littleEndian,
      from_littleEndian, quotient_mod hsl]
    have hv : Int.bmod ((v % 2 ^ (8 * scale)).toNat : Nat) (2 ^ (8 * scale)) = v := by
      simp only [mem_cons, not_mem_nil, or_false] at hsl
      rcases hsl with rfl | rfl | rfl <;> simp only [Int.bmod] <;> omega
    rw [hv]

theorem fixSlot_slotTarget (hl : bytes.length = scale) :
    fixSlot arch scale targetBase (slotTarget arch scale targetBase bytes) bytes = bytes := by
  rw [slotTarget, fixSlot_offset hsl]
  subst hl
  refine littleEndian_eq ((quotient_mod hsl _).trans ?_)
  have hlt := fromLittleEndian_lt bytes
  rw [signedField]
  simp only [mem_cons, not_mem_nil, or_false] at hsl
  rcases hsl with h | h | h <;> rw [h] at hlt ⊢ <;> simp only [Int.bmod] <;> omega

end

/-- A slot gives back the target of its link exactly if it can hold the distance. Where all targets are those that the
    slots say, the slots stay as they are. -/
theorem fixJumpTable_inverse (arch : Arch) {scale : Nat} (hscale : scale ∈ [1, 2, 4]) (targetBase : Address)
    {slots : List (List Byte)} (hslots : ∀ bytes ∈ slots, bytes.length = scale) (targets : List Address) :
    Forall₂ (fun target bytes => slotTarget arch scale targetBase bytes = target ↔ Reaches arch scale targetBase target)
      (targets.take slots.length) (fixJumpTable arch scale targetBase targets slots) ∧
    fixJumpTable arch scale targetBase (slots.map (slotTarget arch scale targetBase)) slots = slots := by
  constructor
  · induction slots generalizing targets with
    | nil => simp [fixJumpTable]
    | cons bytes slots ih =>
      cases targets with
      | nil => exact .nil
      | cons target targets =>
        exact .cons (slotTarget_fixSlot_iff hscale) (ih (fun b hb => hslots b (mem_cons_of_mem _ hb)) targets)
  · induction slots with
    | nil => rfl
    | cons bytes slots ih =>
      rw [forall_mem_cons] at hslots
      rw [map_cons, fixJumpTable, zipWith_cons_cons, fixSlot_slotTarget hscale hslots.1]
      exact congrArg _ (ih hslots.2)

theorem fixJumpTable_inverse_backwards : (fixJumpTable .aarch64 2 0x2000 [0x1ffc] [[0, 0]]).map
    (slotTarget .aarch64 2 0x2000) = [0x1ffc] := by
  have h := (@fixJumpTable_inverse .aarch64 2 (by decide) 0x2000 [[0, 0]] (by simp) [0x1ffc]).1
  cases h with
  | cons hst _ => exact congrArg (fun a => [a]) (hst.mpr ⟨-1, by decide, by decide, by decide⟩)

/-- A byte that counts 0x80 instructions forwards is read as one that counts them backwards, and a distance of 2 GB is
    cut off. -/
theorem fixJumpTable_overflow :
    (fixJumpTable .aarch64 1 0x1000 [0x1200] [[0]]).map (slotTarget .aarch64 1 0x1000) = [0xe00] ∧
    (fixJumpTable .x86_64 4 0x1000 [0x80001000] [[0, 0, 0, 0]]).map (slotTarget .x86_64 4 0x1000) = [0xffffffff80001000] := by
  decide +kernel

end Egalito.FixJumpTables
