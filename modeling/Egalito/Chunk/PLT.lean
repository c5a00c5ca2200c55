/-
The stubs of the procedure linkage table (`chunk/plt.cpp`): the body of the loop of `parse`, and
`PLTTrampoline::writeTo`.

`gotAddress_stub_iff` takes any stub of the shape that the linker or `writeTo` produces, and says that the address
read back from it is that of the GOT entry exactly if the distance is not negative.
-/
import Egalito.Lib.Bytes
import Egalito.Instr.LinkedAarch64

namespace Egalito.PLT

open Lib BitVec A64 LinkedAarch64

inductive Arch where
  | x86_64
  | aarch64
  deriving DecidableEq, Repr

/-! ## The stubs -/

/-- A field of the entry, read through a pointer. -/
def field (entry : List Byte) (offset size : Nat) : Nat := fromLittleEndian ((entry.drop offset).take size)

/-- The page distance in the words of an ADRP. -/
def adrpField (bytes : BitVec 32) : BitVec 32 := (bytes &&& 0x60000000) >>> 29 ||| (bytes &&& 0xffffe0) >>> (5 - 2)

/-- The scaled offset in the word of a load. -/
def loadOffset (bytes2 : BitVec 32) : BitVec 32 :=
  ((bytes2 &&& 0x3ffc00) >>> 10) <<< ((bytes2 &&& 0xc0000000) >>> 30).toNat

/-- The GOT address that `parse` computes for the entry at `pltAddress`, if it takes it for a stub. -/
def gotAddress (arch : Arch) (pltAddress : Address) (entry : List Byte) : Option Address :=
  match arch with
  | .x86_64 =>
    if field entry 0 2 = 0x25ff then some (BitVec.ofNat 64 (field entry 2 4) + (pltAddress + 6)) else none
  | .aarch64 =>
    if BitVec.ofNat 8 (field entry 3 1) &&& 0x9f = 0x90 then
      let value := (adrpField (BitVec.ofNat 32 (field entry 0 4))).setWidth 64 <<< 12 + (pltAddress &&& ~~~0xfff)
      some (value + (loadOffset (BitVec.ofNat 32 (field entry 4 4))).setWidth 64)
    else none

/-- `PLTTrampoline::writeTo` of the trampoline at `address`, for AArch64. -/
def writeTo (address gotPLT : Address) : List Byte :=
  let adrp := 0x90000010#32 |||
    LinkedAarch64.splitImm (((gotPLT - (address &&& ~~~0xFFF)) >>> 12).setWidth 32)
  let ldr := 0xf9400211#32 ||| (((gotPLT &&& 0xFFF) >>> 3 <<< 10).setWidth 32 &&& ~~~0xFFE003FF)
  littleEndian 4 adrp.toNat ++ (littleEndian 4 ldr.toNat ++ littleEndian 4 0xd61f0220)

/-- From where a stub counts to where. -/
def distance : Arch → (plt got : Address) → BitVec 64
  | .x86_64, plt, got => got - (plt + 6)
  | .aarch64, plt, got => A64.PcRel.adrp.displacement plt got

/-- The stubs for a GOT entry in range: those of the linkers, and those of `writeTo`. -/
inductive IsStub (plt got : Address) : Arch → List Byte → Prop
  /-- JMP through the entry, and further instructions. -/
  | jmp (rest : List Byte) (hlower : -2 ^ 31 ≤ (got - (plt + 6)).toInt) (hupper : (got - (plt + 6)).toInt < 2 ^ 31) :
    IsStub plt got .x86_64 (0xff :: 0x25 :: littleEndian 4 (got - (plt + 6)).toNat ++ rest)
  /-- ADRP of the page, LDR from the place in the page, and further instructions. -/
  | adrpLdr (adrp ldr : BitVec 32) (rest : List Byte) (hadrp : A64.PcRel.adrp.Is adrp)
      (hpage : A64.PcRel.adrp.target adrp plt = A64.PcRel.page got)
      (hldr : A64.IsUnsignedOffset ldr ∧ (A64.imm12 ldr).toNat * 2 ^ (A64.sizeField ldr).toNat = got.toNat % 4096) :
    IsStub plt got .aarch64 (littleEndian 4 adrp.toNat ++ (littleEndian 4 ldr.toNat ++ rest))
  | trampoline (haligned : 8 ∣ got.toNat) (hreach : A64.PcRel.adrp.InReach plt got) :
    IsStub plt got .aarch64 (writeTo plt got)

variable {plt got : Address}

theorem field_append {l n} (hn : l.length = n) (rest) (d) :
    field (l ++ (littleEndian 4 d ++ rest)) n 4 = d % 2 ^ 32 := by
  rw [field, List.drop_left' hn, List.take_left' (length_littleEndian 4 d), from_littleEndian]

theorem word_append {l n} (hn : l.length = n) (rest) (w) :
    BitVec.ofNat 32 (field (l ++ (littleEndian 4 w.toNat ++ rest)) n 4) = w := by
  rw [field_append hn, Nat.mod_eq_of_lt w.isLt, ofNat_toNat, setWidth_eq]

theorem adrpField_eq (w) : adrpField w = setWidth 32 (w.extractLsb' 5 19 ++ w.extractLsb' 29 2) := by
  unfold adrpField
  apply eq_of_getLsbD_eq
  intro i hi
  rw [getLsbD_setWidth, getLsbD_append]
  interval_cases i <;> simp

theorem toNat_loadOffset (w) : (loadOffset w).toNat = (imm12 w).toNat * 2 ^ (sizeField w).toNat := by
  have hm : (w &&& 0x3ffc00) >>> 10 = (imm12 w).setWidth 32 := by
    apply eq_of_getLsbD_eq
    intro i hi
    interval_cases i <;> simp [imm12]
  have hs : (w &&& 0xc0000000) >>> 30 = (sizeField w).setWidth 32 := by
    apply eq_of_getLsbD_eq
    intro i hi
    interval_cases i <;> simp [sizeField]
  have himm_lt := (imm12 w).isLt
  have hsize_lt := (sizeField w).isLt
  rw [loadOffset, hm, hs, toNat_shiftLeft, toNat_setWidth, toNat_setWidth, Nat.shiftLeft_eq,
    Nat.mod_eq_of_lt (a := (imm12 w).toNat) (by omega), Nat.mod_eq_of_lt (a := (sizeField w).toNat) (by omega)]
  interval_cases (sizeField w).toNat <;> omega

theorem adrp_lastByte {w} (h : A64.PcRel.adrp.Is w) (rest) :
    BitVec.ofNat 8 (field (littleEndian 4 w.toNat ++ rest) 3 1) &&& 0x9f = 0x90 := by
  have hf : BitVec.ofNat 8 (field (littleEndian 4 w.toNat ++ rest) 3 1) = (w >>> 24).setWidth 8 := by
    apply eq_of_toNat_eq
    rw [toNat_setWidth, toNat_ushiftRight, Nat.shiftRight_eq_div_pow]
    simp [field, littleEndian, fromLittleEndian]
    omega
  calc BitVec.ofNat 8 (field (littleEndian 4 w.toNat ++ rest) 3 1) &&& 0x9f
      = ((w &&& A64.PcRel.adrp.opcodeMask) >>> 24).setWidth 8 := by
        rw [hf]
        apply eq_of_getLsbD_eq
        intro i hi
        interval_cases i <;> simp [A64.PcRel.opcodeMask]
    _ = 0x90 := by rw [h]; rfl

/-! ## The distance -/

/-- A page distance taken for an unsigned number is right if it is not negative. -/
theorem add_pages_iff {imm : BitVec 21} {b d : BitVec 64} (hd : imm.signExtend 64 <<< 12 = d) :
    imm.setWidth 64 <<< 12 + b = d + b ↔ 0 ≤ d.toInt := by
  have hlt := imm.isLt
  have hc : imm.setWidth 64 <<< 12 + b = d + b ↔ imm.setWidth 64 <<< 12 = d := add_left_inj b
  have hu : (imm.setWidth 64 <<< 12).toNat = imm.toNat * 4096 := by
    rw [toNat_shiftLeft, toNat_setWidth, Nat.shiftLeft_eq]
    omega
  have hs : d.toNat = if imm.msb then 2 ^ 64 - (2 ^ 21 - imm.toNat) * 4096 else imm.toNat * 4096 := by
    rw [← hd, toNat_shiftLeft, toNat_signExtend, toNat_setWidth, Nat.shiftLeft_eq]
    cases hm : imm.msb
    · simp
      omega
    · simp
      omega
  have hm := msb_eq_decide imm
  rw [hc, toNat_eq, hu, toInt_eq_toNat_cond, hs]
  cases h : imm.msb
  · rw [h] at hm
    simp at hm
    simp
    omega
  · rw [h] at hm
    simp at hm
    simp
    omega

theorem gotAddress_adrpLdr {adrp ldr : BitVec 32} (rest : List Byte) (ha : A64.PcRel.adrp.Is adrp)
    (hp : A64.PcRel.adrp.target adrp plt = A64.PcRel.page got)
    (hl : (imm12 ldr).toNat * 2 ^ (A64.sizeField ldr).toNat = got.toNat % 4096) :
    gotAddress .aarch64 plt (littleEndian 4 adrp.toNat ++ (littleEndian 4 ldr.toNat ++ rest)) = some got ↔
      0 ≤ (distance .aarch64 plt got).toInt := by
  have hw := word_append (l := []) (n := 0) rfl (littleEndian 4 ldr.toNat ++ rest) adrp
  have hw2 := word_append (length_littleEndian 4 adrp.toNat) rest ldr
  rw [List.nil_append] at hw
  have hlo : A64.PcRel.page got + (loadOffset ldr).setWidth 64 = got := by
    apply eq_of_toNat_eq
    rw [toNat_add, toNat_page, toNat_setWidth, toNat_loadOffset, hl]
    omega
  have hd : (A64.PcRel.adrp.imm adrp).signExtend 64 <<< 12 = distance .aarch64 plt got := by
    rw [distance, A64.PcRel.displacement]
    refine (BitVec.add_sub_cancel _ (A64.PcRel.page plt)).symm.trans (congrArg (· - A64.PcRel.page plt) ?_)
    rw [BitVec.add_comm]
    exact hp
  have hs : distance .aarch64 plt got + A64.PcRel.page plt = A64.PcRel.page got := BitVec.sub_add_cancel _ _
  have hi : (adrpField adrp).setWidth 64 = (A64.PcRel.adrp.imm adrp).setWidth 64 := by
    have hlt := (A64.PcRel.adrp.imm adrp).isLt
    apply eq_of_toNat_eq
    rw [adrpField_eq, toNat_setWidth, toNat_setWidth, toNat_setWidth]
    exact congrArg (· % 2 ^ 64) (Nat.mod_eq_of_lt (lt_trans hlt (by decide)))
  rw [gotAddress, if_pos (adrp_lastByte ha _), hw, hw2, hi]
  rw [Option.some_inj, ← add_pages_iff (b := A64.PcRel.page plt) hd, hs]
  refine Iff.trans ?_ (add_left_inj ((loadOffset ldr).setWidth 64))
  rw [hlo]
  rfl

/-- The stub of `writeTo` has the words of an ADRP and an LDR that were made for the entry. -/
theorem writeTo_eq (plt got) : writeTo plt got =
    littleEndian 4 (rebuild .adrp 0x90000010 plt got).toNat ++
      (littleEndian 4 (rebuild .ldrimm 0xf9400211 plt got).toNat ++ littleEndian 4 0xd61f0220) := by
  have hs : ((got - (plt &&& ~~~0xFFF)) >>> 12).setWidth 32 =
      ((got - (plt &&& ~~~0xFFF#64)).sshiftRight 12).setWidth 32 := by
    apply eq_of_getLsbD_eq
    intro i hi
    have hlt : 12 + i < 64 := by omega
    simp [getLsbD_sshiftRight, hi, hlt]
    omega
  have hsl : ldrScale (0xf9400211#32 &&& 0xFFE003FF#32) = 3 := by decide
  have hlo : (got &&& 0xFFF) >>> 3 = (got &&& 0xFFF).sshiftRight 3 := by
    apply eq_of_toNat_eq
    rw [toNat_sshiftRight (by rw [toNat_and_fff]; omega), toNat_ushiftRight,
      Nat.shiftRight_eq_div_pow]
  have hl : rebuild .ldrimm 0xf9400211 plt got =
      0xf9400211#32 ||| (((got &&& 0xFFF) >>> 3 <<< 10).setWidth 32 &&& ~~~0xFFE003FF) := by
    rw [hlo, ← hsl]
    rfl
  rw [writeTo, hs, hl]
  rfl

theorem trampoline_adrp (plt got) : A64.PcRel.adrp.Is (LinkedAarch64.rebuild .adrp 0x90000010 plt got) := by
  have hk : rebuild .adrp 0x90000010 plt got &&& ~~~A64.PcRel.adrp.immMask = _ :=
    rebuild_and (c := .adrp) (by decide) plt got
  have hm : A64.PcRel.adrp.opcodeMask = ~~~A64.PcRel.adrp.immMask &&& A64.PcRel.adrp.opcodeMask := by decide
  rw [A64.PcRel.Is, hm, ← BitVec.and_assoc, hk]
  decide

theorem trampoline_ldr (plt got) (ha : 8 ∣ got.toNat) :
    (imm12 (rebuild .ldrimm 0xf9400211 plt got)).toNat *
      2 ^ (sizeField (rebuild .ldrimm 0xf9400211 plt got)).toNat = got.toNat % 4096 := by
  have hk : rebuild .ldrimm 0xf9400211 plt got &&& ~~~imm12Mask = _ :=
    rebuild_and_imm12 rfl plt got
  have hm : (imm12 (rebuild .ldrimm 0xf9400211 plt got)).toNat = _ :=
    imm12_rebuild rfl plt got
  have hs : ldrScale (0xf9400211 &&& 0xFFE003FF#32) = 3 := by decide
  have hf : ∀ v : BitVec 32, sizeField (v &&& ~~~imm12Mask) = sizeField v := by
    intro v
    apply eq_of_getLsbD_eq
    intro i hi
    interval_cases i <;> simp [sizeField, imm12Mask]
  have hz : sizeField (rebuild .ldrimm 0xf9400211 plt got) = 3 := by
    rw [← hf, hk]
    decide
  rw [hz, hm, hs]
  simp
  omega

theorem gotAddress_jmp (rest) (hlo : -2 ^ 31 ≤ (got - (plt + 6)).toInt) (hu : (got - (plt + 6)).toInt < 2 ^ 31) :
    gotAddress .x86_64 plt (0xff :: 0x25 :: littleEndian 4 (got - (plt + 6)).toNat ++ rest) = some got ↔
      0 ≤ (got - (plt + 6)).toInt := by
  have ho : field (0xff :: 0x25 :: littleEndian 4 (got - (plt + 6)).toNat ++ rest) 0 2 = 0x25ff := by
    simp [field, fromLittleEndian]
  have hf : field (0xff :: 0x25 :: littleEndian 4 (got - (plt + 6)).toNat ++ rest) 2 4 = _ :=
    field_append (l := [0xff, 0x25]) rfl rest _
  have hs : got - (plt + 6) + (plt + 6) = got := BitVec.sub_add_cancel _ _
  rw [gotAddress, if_pos ho, hf, Option.some_inj]
  nth_rewrite 2 [← hs]
  rw [add_left_inj, toNat_eq, toNat_ofNat]
  rw [toInt_eq_toNat_cond] at *
  have hlt := (got - (plt + 6)).isLt
  split at *
  · omega
  · omega

/-- What `parse` computes for a stub is the entry of the stub exactly if the entry is not before the stub (for AArch64,
    not on a page before it). -/
theorem gotAddress_stub_iff {arch : Arch} {entry : List Byte} (h : IsStub plt got arch entry) :
    gotAddress arch plt entry = some got ↔ 0 ≤ (distance arch plt got).toInt := by
  cases h with
  | jmp rest hlo hur => exact gotAddress_jmp rest hlo hur
  | adrpLdr adrp ldr rest har hpg hlr => exact gotAddress_adrpLdr rest har hpg hlr.2
  | trampoline hag hrh =>
    rw [writeTo_eq]
    exact gotAddress_adrpLdr _ (trampoline_adrp plt got)
      (A64.PcRel.target_eq hrh (imm_rebuild .adrp _ plt got)) (trampoline_ldr plt got hag)

theorem gotAddress_stub_iff_puts : gotAddress .aarch64 0x400420 (writeTo 0x400420 0x410868) = some 0x410868 ↔
    0 ≤ (distance .aarch64 0x400420 0x410868).toInt :=
  gotAddress_stub_iff (.trampoline (by decide) (by decide))

/-- A GOT entry 16 bytes before the end of the JMP, and one on the page before the stub. -/
theorem gotAddress_before_stub :
    (IsStub 0x401000 0x400ff6 .x86_64 (0xff :: 0x25 :: littleEndian 4 0xfffffff0 ++ []) ∧
      gotAddress .x86_64 0x401000 (0xff :: 0x25 :: littleEndian 4 0xfffffff0 ++ []) = some 0x100400ff6) ∧
    (IsStub 0x401000 0x400ff0 .aarch64 (writeTo 0x401000 0x400ff0) ∧
      gotAddress .aarch64 0x401000 (writeTo 0x401000 0x400ff0) = some 0x200400ff0) :=
  ⟨⟨.jmp [] (by decide) (by decide), by decide⟩, .trampoline (by decide) (by decide), by decide⟩

end Egalito.PLT
