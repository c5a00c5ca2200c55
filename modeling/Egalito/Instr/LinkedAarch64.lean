/-
The linked instructions of AArch64 (`instr/linked-aarch64.h`, `instr/linked-aarch64.cpp`): `rebuild` keeps the bits
under the mask of the mode and adds the encoded immediate.

The forms are those of `Lib.A64`, written from the layout of the architecture. For each one `rebuild` is compared with
the word that has the new target: it is right for the branches and `adr`, and for loads, stores and literals exactly
on part of the range.
-/
import Egalito.Lib.A64
import Egalito.Util.Range

namespace Egalito.LinkedAarch64

open Lib BitVec A64

inductive Mode where
  | adrp | adr | addimm | ldrimm | ldrh | ldrb | ldrsw | ldrsh | ldrsb | ldrlit | mov | movk | str | strh | strb
  | bl | b | bcond | cbz | cbnz | tbz | tbnz
  deriving DecidableEq, Repr

/-- The ids of Capstone that `getMode` knows; every other one comes with its mnemonic. -/
inductive InsnId where
  | b | bl | cbz | cbnz | tbz | tbnz | adrp | adr | add | ldr | ldrh | ldrb | ldrsb | ldrsw | ldrsh | mov | movk
  | str | strh | strb
  | other (mnemonic : String)
  deriving DecidableEq, Repr

/-- What `getMode` ends with when it makes no mode. -/
inductive ModeError where
  | thrown (message : String)
  | assertion (message : String)
  deriving DecidableEq, Repr

def lastByte (w : BitVec 32) : BitVec 8 := w.extractLsb' 24 8

/-- The mode of an LDR, where `bit` tells a register offset from a literal. -/
def ldrMode (w : BitVec 32) (bit : BitVec 8) : Except ModeError Mode :=
  if lastByte w &&& bit ≠ 0 then
    if lastByte w &&& 0x01 = 0 then .error (.assertion "post-index or pre-index LDR with IMM?") else .ok .ldrimm
  else .ok .ldrlit

/-- The mode by the mnemonic, and for `b` and `ldr` by bits of the word. -/
def getMode : InsnId → BitVec 32 → Except ModeError Mode
  | .b, w => .ok (if lastByte w = 0x54 then .bcond else .b)
  | .bl, _ => .ok .bl
  | .cbz, _ => .ok .cbz
  | .cbnz, _ => .ok .cbnz
  | .tbz, _ => .ok .tbz
  | .tbnz, _ => .ok .tbnz
  | .adrp, _ => .ok .adrp
  | .adr, _ => .ok .adr
  | .add, _ => .ok .addimm
  -- INT, then FP
  | .ldr, w => if lastByte w &&& 0x04 = 0 then ldrMode w 0x80 else ldrMode w 0x20
  | .ldrh, _ => .ok .ldrh
  | .ldrb, _ => .ok .ldrb
  | .ldrsb, _ => .ok .ldrsb
  | .ldrsw, _ => .ok .ldrsw
  | .ldrsh, _ => .ok .ldrsh
  | .mov, _ => .ok .mov
  | .movk, _ => .ok .movk
  | .str, _ => .ok .str
  | .strh, _ => .ok .strh
  | .strb, _ => .ok .strb
  | .other mnemonic, _ =>
    .error (.thrown ("mnemonic " ++ mnemonic ++ " not yet implemented in LinkedInstruction"))

/-! ## Encoders -/

structure ModeInfo where
  fixedMask : BitVec 32
  makeImm : (dest src : Address) → (fixed : BitVec 32) → BitVec 32

/-- The two parts of the immediate of ADR and ADRP. -/
def splitImm (imm : BitVec 32) : BitVec 32 := ((imm &&& 0x3) <<< 29) ||| ((imm &&& 0x1FFFFC) <<< 3)

/-- A branch: the displacement in instructions, in the field that starts at bit `start`. -/
def branch (mask : BitVec 32) (start : Nat) : ModeInfo where
  fixedMask := mask
  makeImm dest src _ := ((((dest - src).sshiftRight 2).setWidth 32) <<< start) &&& ~~~mask

/-- The low 12 bits of the target "with ADRP", in units of the access size. -/
def lowBits (mask : BitVec 32) (scale : BitVec 32 → Nat) : ModeInfo where
  fixedMask := mask
  makeImm dest _ fixed := (((dest &&& 0xFFF).sshiftRight (scale fixed) <<< 10).setWidth 32) &&& ~~~mask

/-- The scale of an LDR from its size and opc bits. -/
def ldrScale (fixed : BitVec 32) : Nat := ((fixed &&& 0x00800000) >>> 21 ||| fixed >>> 30).toNat

def strScale (fixed : BitVec 32) : Nat := (fixed >>> 30).toNat

def modeInfo : Mode → ModeInfo
  | .adrp =>
    { fixedMask := 0x9000001F#32
      makeImm := fun dest src _ => splitImm (((dest - (src &&& ~~~0xFFF#64)).sshiftRight 12).setWidth 32) }
  | .adr =>
    { fixedMask := 0x9F00001F#32
      makeImm := fun dest src _ => splitImm ((dest - src).setWidth 32) }
  | .addimm => lowBits 0xFFC003FF#32 fun _ => 0
  | .ldrimm => lowBits 0xFFE003FF#32 ldrScale
  | .ldrh => lowBits 0xFFE003FF#32 fun _ => 1
  | .ldrb => lowBits 0xFFE003FF#32 fun _ => 0
  | .ldrsw => lowBits 0xFFE003FF#32 fun _ => 2
  | .ldrsh => lowBits 0xFFE003FF#32 fun _ => 1
  | .ldrsb => lowBits 0xFFE003FF#32 fun _ => 0
  | .ldrlit =>
    { fixedMask := 0xFF00001F#32
      makeImm := fun dest src _ =>
        ((((dest - src) &&& 0x7FFFF).sshiftRight 2 <<< 5).setWidth 32) &&& ~~~0xFF00001F#32 }
  | .mov =>
    { fixedMask := 0xFFE0001F#32
      makeImm := fun dest _ _ => (((dest &&& 0xFFFF) <<< 5).setWidth 32) &&& ~~~0xFFE0001F#32 }
  | .movk =>
    { fixedMask := 0xFFE0001F#32
      makeImm := fun dest _ fixed =>
        let hw := (fixed >>> 21) &&& 0x3
        ((((dest >>> (hw <<< 4).toNat) &&& 0xFFFF) <<< 5).setWidth 32) &&& ~~~0xFFE0001F#32 }
  | .str => lowBits 0xFFE003FF#32 strScale
  | .strh => lowBits 0xFFE003FF#32 fun _ => 1
  | .strb => lowBits 0xFFE003FF#32 fun _ => 0
  | .bl | .b => branch 0xFC000000#32 0
  | .bcond | .cbz | .cbnz => branch 0xFF00001F#32 5
  | .tbz | .tbnz => branch 0xFFF8001F#32 5

/-- `LinkedInstruction::rebuild` of the word `data` at `source`, with a link to `target`. -/
def rebuild (mode : Mode) (data : BitVec 32) (source target : Address) : BitVec 32 :=
  let fixedBytes := data &&& (modeInfo mode).fixedMask
  fixedBytes ||| (modeInfo mode).makeImm target source fixedBytes

/-- The id that Capstone gives a word of the form. -/
def pcRelId : A64.PcRel → InsnId
  | .adr => .adr
  | .adrp => .adrp
  | .b | .bcond => .b
  | .bl => .bl
  | .cbz => .cbz
  | .cbnz => .cbnz
  | .tbz => .tbz
  | .tbnz => .tbnz

def pcRelMode : A64.PcRel → Mode
  | .adr => .adr
  | .adrp => .adrp
  | .b => .b
  | .bcond => .bcond
  | .bl => .bl
  | .cbz => .cbz
  | .cbnz => .cbnz
  | .tbz => .tbz
  | .tbnz => .tbnz

variable {c : A64.PcRel} {w : BitVec 32} {source target : Address}

theorem lastByte_b (h : A64.PcRel.b.Is w) : lastByte w ≠ 0x54 := by
  intro hb
  have h6 : (lastByte w).getLsbD 6 = true := by rw [hb]; decide
  have h30 : w.getLsbD 30 = A64.PcRel.b.opcode.getLsbD 30 := h.getLsbD (by decide)
  rw [lastByte, getLsbD_extractLsb', h30] at h6
  exact absurd h6 (by decide)

theorem lastByte_bcond (h : A64.PcRel.bcond.Is w) : lastByte w = 0x54 := by
  have hm : ∀ i < 8, A64.PcRel.bcond.opcodeMask.getLsbD (24 + i) = true := by decide
  have hc : ∀ i < 8, A64.PcRel.bcond.opcode.getLsbD (24 + i) = (0x54#8).getLsbD i := by decide
  apply eq_of_getLsbD_eq
  intro i hi
  rw [lastByte, getLsbD_extractLsb', h.getLsbD (hm i hi), hc i hi]
  simp [hi]

theorem getMode_pcRel (h : c.Is w) : getMode (pcRelId c) w = .ok (pcRelMode c) := by
  cases c with
  | b => exact congrArg Except.ok (if_neg (lastByte_b h))
  | bcond => exact congrArg Except.ok (if_pos (lastByte_bcond h))
  | _ => rfl

theorem high_splitImm (imm) : (splitImm imm).extractLsb' 5 19 = imm.extractLsb' 2 19 := by
  apply eq_of_getLsbD_eq
  intro i hi
  unfold splitImm
  interval_cases i <;> simp

theorem low_splitImm (imm) : (splitImm imm).extractLsb' 29 2 = imm.extractLsb' 0 2 := by
  apply eq_of_getLsbD_eq
  intro i hi
  unfold splitImm
  interval_cases i <;> simp

variable {k start : Nat} {mask : BitVec 32} {mode : Mode} {scale : BitVec 32 → Nat}

theorem extract_split {imm} (hh : ∀ i < 19, mask.getLsbD (5 + i) = false)
    (hlo : ∀ i < 2, mask.getLsbD (29 + i) = false) :
    ((w &&& mask) ||| splitImm imm).extractLsb' 5 19 ++ ((w &&& mask) ||| splitImm imm).extractLsb' 29 2 =
      imm.extractLsb' 0 21 := by
  rw [extract_insert hh, extract_insert hlo, high_splitImm, low_splitImm]
  exact extractLsb'_append_extractLsb'_eq_extractLsb' (by decide)

theorem extract_branch {len} {d : Address} (hm : ∀ i < len, mask.getLsbD (start + i) = false)
    (hl : start + len ≤ 32) :
    ((w &&& mask) ||| (((d.sshiftRight 2).setWidth 32 <<< start) &&& ~~~mask)).extractLsb' start len =
      (d.sshiftRight 2).setWidth len := by
  have hn : ∀ i < len, (~~~mask).getLsbD (start + i) = true := by
    intro i hi
    rw [getLsbD_not, hm i hi]
    simp
    omega
  rw [extract_insert hm, extract_shift hn hl, extract_setWidth (by omega)]

theorem imm_rebuild (c : A64.PcRel) (w : BitVec 32) (source target : Address) :
    c.imm (rebuild (pcRelMode c) w source target) =
      ((c.displacement source target).sshiftRight c.shift).setWidth c.bits := by
  cases c with
  | adr =>
    refine (extract_split (by decide) (by decide)).trans ?_
    rw [extract_setWidth (by decide)]
    exact congrArg (setWidth 21) sshiftRight_zero.symm
  | adrp =>
    refine (extract_split (by decide) (by decide)).trans ?_
    rw [extract_setWidth (by decide)]
    exact congrArg (setWidth 21) (sshiftRight_sub_page target source)
  | b | bl => exact extract_branch (by decide) (by decide)
  | bcond | cbz | cbnz => exact extract_branch (by decide) (by decide)
  | tbz | tbnz => exact extract_branch (by decide) (by decide)

/-! ### The other bits -/

theorem and_branch {k d} (hk : mask &&& k = k) : ((w &&& mask) ||| ((d <<< start) &&& ~~~mask)) &&& k = w &&& k := by
  apply and_insert
  · rw [BitVec.and_assoc, hk]
  · rw [← hk, BitVec.and_assoc, ← BitVec.and_assoc (~~~mask)]
    simp

theorem and_adrp (h : A64.PcRel.adrp.Is w) : w &&& 0x9000001F#32 &&& 0x9F00001F#32 = w &&& 0x9F00001F#32 := by
  have hz : w &&& 0x0F000000#32 = 0 := by
    calc w &&& 0x0F000000#32 = w &&& A64.PcRel.adrp.opcodeMask &&& 0x0F000000#32 := by
          rw [BitVec.and_assoc]; rfl
      _ = 0 := by rw [h]; rfl
  calc w &&& 0x9000001F#32 &&& 0x9F00001F#32 = w &&& 0x9000001F#32 ||| w &&& 0x0F000000#32 := by
        rw [hz, BitVec.and_assoc]
        simp
    _ = w &&& 0x9F00001F#32 := by
        rw [← and_or_distrib_left]; rfl

theorem and_splitImm (imm) : splitImm imm &&& 0x9F00001F#32 = 0 := by
  apply eq_of_getLsbD_eq
  intro i hi
  unfold splitImm
  interval_cases i <;> simp

theorem rebuild_and (h : c.Is w) (source target) :
    rebuild (pcRelMode c) w source target &&& ~~~c.immMask = w &&& ~~~c.immMask := by
  cases c with
  | adr => exact A64.and_insert (by rw [BitVec.and_assoc]; rfl) (and_splitImm _)
  | adrp => exact and_insert (and_adrp h) (and_splitImm _)
  | b | bl => exact and_branch (by decide)
  | bcond | cbz | cbnz => exact and_branch (by decide)
  | tbz | tbnz => exact and_branch (by decide)

/-- Every word relative to the program counter is re-encoded to refer to the target (ADRP to its page), and only
    its immediate changes. -/
theorem rebuild_pcRel (c : A64.PcRel) (w : BitVec 32) (source target : Address) (hw : c.Is w)
    (hreach : c.InReach source target) :
    ∃ mode, getMode (pcRelId c) w = .ok mode ∧
      c.target (rebuild mode w source target) source = c.aim target ∧
      rebuild mode w source target &&& ~~~c.immMask = w &&& ~~~c.immMask :=
  ⟨pcRelMode c, getMode_pcRel hw, A64.PcRel.target_eq hreach (imm_rebuild c w source target),
    rebuild_and hw source target⟩

theorem rebuild_pcRel_adrp : A64.PcRel.adrp.Is 0xB0FFFFE1 ∧ A64.PcRel.adrp.InReach 0x10010 0x412345 ∧
    ∃ mode, getMode (pcRelId .adrp) 0xB0FFFFE1 = .ok mode ∧
      A64.PcRel.adrp.target (rebuild mode 0xB0FFFFE1 0x10010 0x412345) 0x10010 = A64.PcRel.adrp.aim 0x412345 ∧
      rebuild mode 0xB0FFFFE1 0x10010 0x412345 &&& ~~~A64.PcRel.adrp.immMask =
        0xB0FFFFE1 &&& ~~~A64.PcRel.adrp.immMask :=
  ⟨by decide, by decide, rebuild_pcRel .adrp 0xB0FFFFE1 0x10010 0x412345 (by decide) (by decide)⟩

/-- The id that Capstone gives a load or store, by its V, size and opc bits, if it has one. -/
def loadStoreId (w : BitVec 32) : Option InsnId :=
  match A64.isSimd w, (A64.sizeField w).toNat, (A64.opc w).toNat with
  | false, 0, 0 => some .strb
  | false, 0, 1 => some .ldrb
  | false, 0, 2 | false, 0, 3 => some .ldrsb
  | false, 1, 0 => some .strh
  | false, 1, 1 => some .ldrh
  | false, 1, 2 | false, 1, 3 => some .ldrsh
  | false, 2, 0 | false, 3, 0 => some .str
  | false, 2, 1 | false, 3, 1 => some .ldr
  | false, 2, 2 => some .ldrsw
  | true, _, 0 => some .str
  | true, _, 1 => some .ldr
  | true, 0, 2 => some .str
  | true, 0, 3 => some .ldr
  | _, _, _ => none

/-- A store of 128 bits. -/
def IsStoreQ (w : BitVec 32) : Prop := A64.isSimd w = true ∧ (A64.opc w).toNat = 2

/-! ### The mode and its scale -/

theorem lastByte_and_twoPow (hk : k < 8) : lastByte w &&& twoPow 8 k = 0 ↔ w.getLsbD (24 + k) = false := by
  have hb : (lastByte w).getLsbD k = w.getLsbD (24 + k) := by
    rw [lastByte, getLsbD_extractLsb']
    simp [hk]
  rw [and_twoPow, hb]
  cases w.getLsbD (24 + k) with
  | false => simp
  | true =>
    have hne : twoPow 8 k ≠ 0 := by interval_cases k <;> decide
    simpa using hne

theorem unsignedOffset_getLsbD (h : A64.IsUnsignedOffset w) {i} (hi : (0x3B000000#32).getLsbD i = true) :
    w.getLsbD i = (0x39000000#32).getLsbD i := by
  have := congrArg (·.getLsbD i) h
  simpa [hi] using this

theorem ldrMode_eq (h : A64.IsUnsignedOffset w) (hk : k < 8) (hb : w.getLsbD (24 + k) = true) :
    ldrMode w (twoPow 8 k) = .ok .ldrimm := by
  have h24 : w.getLsbD 24 = true := unsignedOffset_getLsbD h (by decide)
  have ho : ¬ lastByte w &&& 0x01 = 0 := by
    intro hz
    have h24' := (lastByte_and_twoPow (k := 0) (by decide)).1 hz
    exact absurd (h24.symm.trans h24') (by decide)
  have ht : lastByte w &&& twoPow 8 k ≠ 0 := by
    rw [Ne, lastByte_and_twoPow hk, hb]
    decide
  rw [ldrMode, if_pos ht, if_neg ho]

theorem sizeField_getLsbD (w) : (sizeField w).getLsbD 1 = w.getLsbD 31 := by
  simp [sizeField]

theorem opc_getLsbD (w) : (opc w).getLsbD 1 = w.getLsbD 23 := by
  simp [opc]

theorem getMode_ldr (h : A64.IsUnsignedOffset w) (hs : isSimd w = false → w.getLsbD 31 = true) :
    getMode .ldr w = .ok .ldrimm := by
  have hf : lastByte w &&& 0x04 = 0 ↔ w.getLsbD 26 = false := lastByte_and_twoPow (k := 2) (by decide)
  rw [getMode]
  split
  · next hi => exact ldrMode_eq h (k := 7) (by decide) (hs (hf.1 hi))
  · exact ldrMode_eq h (k := 5) (by decide) (unsignedOffset_getLsbD h (by decide))

theorem ldrScale_eq (w) : ldrScale (w &&& 0xFFE003FF#32) =
    ((if w.getLsbD 23 then 4#32 else 0#32) ||| (sizeField w).setWidth 32).toNat := by
  unfold ldrScale
  congr 1
  apply eq_of_getLsbD_eq
  intro i hi
  cases h23 : w.getLsbD 23
  · rw [getLsbD_eq_getElem (by decide)] at h23
    interval_cases i <;> simp [sizeField, h23]
  · rw [getLsbD_eq_getElem (by decide)] at h23
    interval_cases i <;> simp [sizeField, h23]

theorem strScale_eq (w) : strScale (w &&& 0xFFE003FF#32) = (sizeField w).toNat := by
  have hb : (w &&& 0xFFE003FF#32) >>> 30 = (sizeField w).setWidth 32 := by
    apply eq_of_getLsbD_eq
    intro i hi
    interval_cases i <;> simp [sizeField]
  rw [strScale, hb, toNat_setWidth, Nat.mod_eq_of_lt (by omega)]

theorem getLsbD_opc (h : (opc w).toNat = k) : w.getLsbD 23 = k.testBit 1 := by
  rw [← opc_getLsbD, getLsbD, h]

theorem scale_integer (h : isSimd w = false) : ¬ IsStoreQ w ∧ A64.scale w = (A64.sizeField w).toNat := by
  constructor
  · intro hr
    exact absurd (h.symm.trans hr.1) (by decide)
  · rw [A64.scale, if_neg (fun hs => absurd (h.symm.trans hs.1) (by decide))]

theorem scale_of_opc (h : (opc w).toNat = k) (hk : k < 2) :
    ¬ IsStoreQ w ∧ A64.scale w = (A64.sizeField w).toNat := by
  have h23 := (getLsbD_opc h).trans (Nat.testBit_lt_two_pow hk)
  constructor
  · intro hr
    exact absurd (h.symm.trans hr.2) (by omega)
  · rw [A64.scale, if_neg (fun hs => absurd (h23.symm.trans hs.2) (by decide))]

theorem ldrScale_of_opc (h : (A64.opc w).toNat = 1) : ldrScale (w &&& 0xFFE003FF#32) = A64.scale w := by
  have h23 : w.getLsbD 23 = false := getLsbD_opc h
  rw [(scale_of_opc h (by decide)).2, ldrScale_eq, h23]
  simp
  omega

/-- The encoder of every load and store is that of the low bits, with the scale of the access, except for STR of a
    128-bit register. -/
theorem loadStore_mode {id} (hw : A64.IsUnsignedOffset w) (h : loadStoreId w = some id) :
    ∃ mode scale, getMode id w = .ok mode ∧ modeInfo mode = lowBits 0xFFE003FF#32 scale ∧
      ((IsStoreQ w ∧ scale (w &&& 0xFFE003FF#32) = 0) ∨ (¬ IsStoreQ w ∧ scale (w &&& 0xFFE003FF#32) = A64.scale w)) := by
  unfold loadStoreId at h
  split at h
  -- the accesses of one size, whose encoders have its scale
  case h_1 hs hz _ | h_2 hs hz _ | h_3 hs hz _ | h_4 hs hz _ | h_5 hs hz _ |
      h_6 hs hz _ | h_7 hs hz _ | h_8 hs hz _ | h_13 hs hz _ =>
    cases h
    obtain ⟨hr, hl⟩ := scale_integer hs
    exact ⟨_, _, rfl, rfl, .inr ⟨hr, by rw [hl, hz]⟩⟩
  -- STR
  case h_9 ho | h_10 ho | h_14 ho =>
    cases h
    obtain ⟨hr, hl⟩ := scale_of_opc ho (by decide)
    exact ⟨_, _, rfl, rfl, .inr ⟨hr, by rw [hl, strScale_eq]⟩⟩
  -- LDR
  case h_11 hs hz ho | h_12 hs hz ho =>
    cases h
    have h31 : w.getLsbD 31 = true := by rw [← sizeField_getLsbD, getLsbD, hz]; decide
    exact ⟨_, _, getMode_ldr hw (fun _ => h31), rfl,
      .inr ⟨(scale_of_opc ho (by decide)).1, ldrScale_of_opc ho⟩⟩
  case h_15 hs ho =>
    cases h
    exact ⟨_, _, getMode_ldr hw (fun hi => absurd (hi.symm.trans hs) (by decide)), rfl,
      .inr ⟨(scale_of_opc ho (by decide)).1, ldrScale_of_opc ho⟩⟩
  -- the 128-bit registers
  case h_16 hs hz ho =>
    cases h
    exact ⟨_, _, rfl, rfl, .inl ⟨⟨hs, ho⟩, by rw [strScale_eq, hz]⟩⟩
  case h_17 hs hz ho =>
    cases h
    have h23 : w.getLsbD 23 = true := getLsbD_opc ho
    have hzr : A64.sizeField w = 0#2 := eq_of_toNat_eq hz
    refine ⟨_, _, getMode_ldr hw (fun hi => absurd (hi.symm.trans hs) (by decide)), rfl, .inr ⟨?_, ?_⟩⟩
    · intro hr
      exact absurd (ho.symm.trans hr.2) (by decide)
    · rw [A64.scale, if_pos ⟨hs, h23⟩, ldrScale_eq, h23, hzr]
      decide
  case h_18 => cases h

/-! ### The offset -/

/-- The encoders of the low bits keep bit 21, the top bit of the offset, from the original word. -/
theorem imm12_insert (x : Address) :
    imm12 ((w &&& 0xFFE003FF#32) ||| (((x <<< 10).setWidth 32) &&& ~~~0xFFE003FF#32)) =
      cons (w.getLsbD 21) (x.setWidth 11) := by
  apply eq_of_getLsbD_eq
  intro i hi
  rw [getLsbD_cons]
  unfold imm12
  interval_cases i <;> simp

theorem toNat_imm12 (b) (x : Address) :
    (cons b (x.setWidth 11)).toNat = x.toNat % 2048 + (if b then 2048 else 0) := by
  rw [toNat_cons', toNat_setWidth]
  cases b
  · simp
  · simp [Nat.shiftLeft_eq, add_comm]

theorem toNat_sshiftRight {t : Address} (ht : t.toNat < 4096) (s : Nat) : (t.sshiftRight s).toNat = t.toNat / 2 ^ s := by
  have hm : t.msb = false := by
    rw [msb_eq_decide]
    simp
    omega
  rw [sshiftRight_eq_of_msb_false hm, toNat_ushiftRight, Nat.shiftRight_eq_div_pow]

theorem eq_testBit {x} (hx : x < 4096) (b) : x % 2048 + (if b then 2048 else 0) = x ↔ b = x.testBit 11 := by
  rw [Nat.testBit_eq_decide_div_mod_eq]
  cases b
  · simp
    omega
  · simp
    omega

theorem toNat_and_fff (a : Address) : (a &&& 0xFFF).toNat = a.toNat % 4096 :=
  Nat.and_two_pow_sub_one_eq_mod a.toNat 12

theorem scale_le (w) : A64.scale w ≤ 4 := by
  unfold A64.scale
  split
  · exact le_refl 4
  · omega

theorem imm12_rebuild (hm : modeInfo mode = lowBits 0xFFE003FF#32 scale) (source target : Address) :
    (imm12 (rebuild mode w source target)).toNat =
      target.toNat % 4096 / 2 ^ scale (w &&& 0xFFE003FF#32) % 2048 + (if w.getLsbD 21 then 2048 else 0) := by
  have hf := imm12_insert (w := w) ((target &&& 0xFFF).sshiftRight (scale (w &&& 0xFFE003FF#32)))
  rw [rebuild, hm]
  dsimp only [lowBits]
  rw [hf, toNat_imm12, toNat_sshiftRight (by rw [toNat_and_fff]; omega), toNat_and_fff]

theorem rebuild_and_imm12 (hm : modeInfo mode = lowBits 0xFFE003FF#32 scale) (source target) :
    rebuild mode w source target &&& ~~~imm12Mask = w &&& ~~~imm12Mask := by
  rw [rebuild, hm]
  apply and_insert
  · rw [BitVec.and_assoc]
    exact congrArg (w &&& ·) (show 0xFFE003FF#32 &&& ~~~imm12Mask = ~~~imm12Mask by decide)
  · rw [lowBits, BitVec.and_assoc]
    exact and_zero

/-- A load or store with an unsigned offset is re-encoded to the low bits of an aligned target exactly if the word
    already has the top bit of the new offset, and a 128-bit STR only to the start of a page. -/
theorem rebuild_loadStore_iff (w : BitVec 32) (id : InsnId) (source target : Address) (hw : A64.IsUnsignedOffset w)
    (hid : loadStoreId w = some id) (haligned : 2 ^ A64.scale w ∣ target.toNat) :
    ∃ mode, getMode id w = .ok mode ∧
      ((A64.imm12 (rebuild mode w source target)).toNat * 2 ^ A64.scale w = (target &&& 0xFFF).toNat ∧
          rebuild mode w source target &&& ~~~A64.imm12Mask = w &&& ~~~A64.imm12Mask ↔
        w.getLsbD 21 = ((target &&& 0xFFF) >>> A64.scale w).getLsbD 11 ∧ (IsStoreQ w → target &&& 0xFFF = 0)) := by
  obtain ⟨mode, scale, hget, hmd, hsl⟩ := loadStore_mode hw hid
  refine ⟨mode, hget, ?_⟩
  rw [and_iff_left (rebuild_and_imm12 hmd source target), imm12_rebuild hmd, toNat_and_fff]
  have htop : ((target &&& 0xFFF) >>> A64.scale w).getLsbD 11 = (target.toNat % 4096 / 2 ^ A64.scale w).testBit 11 := by
    rw [getLsbD, toNat_ushiftRight, toNat_and_fff, Nat.shiftRight_eq_div_pow]
  have hdvd : 2 ^ A64.scale w ∣ target.toNat % 4096 :=
    (Nat.dvd_mod_iff (Nat.pow_dvd_pow 2 (show A64.scale w ≤ 12 by have := scale_le w; omega))).mpr haligned
  rw [htop]
  obtain ⟨hsr, hzr⟩ | ⟨hsr, hsm⟩ := hsl
  · -- STR of a 128-bit register, encoded without a scale
    have hsl : A64.scale w = 4 := by
      rw [A64.scale, if_pos ⟨hsr.1, getLsbD_opc hsr.2⟩]
    have hpg : target &&& 0xFFF = 0 ↔ target.toNat % 4096 = 0 := by
      rw [← toNat_and_fff]
      exact toNat_eq
    rw [hsl] at hdvd
    rw [hzr, hsl, Nat.testBit_eq_decide_div_mod_eq, forall_prop_of_true hsr, hpg]
    cases w.getLsbD 21
    · simp
      omega
    · simp
      omega
  · have hlt : target.toNat % 4096 / 2 ^ A64.scale w < 4096 :=
      lt_of_le_of_lt (Nat.div_le_self _ _) (Nat.mod_lt _ (by decide))
    rw [hsm, and_iff_left (fun h => absurd h hsr), ← eq_testBit hlt, eq_comm,
      ← Nat.div_eq_iff_eq_mul_left (Nat.two_pow_pos _) hdvd, eq_comm]

theorem rebuild_loadStore_iff_ldrb : A64.IsUnsignedOffset 0x39400021 ∧ loadStoreId 0x39400021 = some .ldrb ∧
    ∃ mode, getMode .ldrb 0x39400021 = .ok mode ∧
      ((A64.imm12 (rebuild mode 0x39400021 0x400000 0x412345)).toNat * 2 ^ A64.scale 0x39400021 =
            ((0x412345 : Address) &&& 0xFFF).toNat ∧
          rebuild mode 0x39400021 0x400000 0x412345 &&& ~~~A64.imm12Mask = 0x39400021 &&& ~~~A64.imm12Mask ↔
        (0x39400021#32).getLsbD 21 = (((0x412345 : Address) &&& 0xFFF) >>> A64.scale 0x39400021).getLsbD 11 ∧
          (IsStoreQ 0x39400021 → (0x412345 : Address) &&& 0xFFF = 0)) :=
  ⟨by decide, by decide, rebuild_loadStore_iff 0x39400021 .ldrb 0x400000 0x412345 (by decide) (by decide) (by decide)⟩

/-- LDRB to 0x400900 loses the top bit of its offset, and STR of a 128-bit register to 0x400010 has an offset of 16
    times 16 bytes. -/
theorem rebuild_loadStore_wrong :
    (loadStoreId 0x39400021 = some .ldrb ∧ getMode .ldrb 0x39400021 = .ok .ldrb ∧
      (A64.imm12 (rebuild .ldrb 0x39400021 0x10000 0x400900)).toNat * 2 ^ A64.scale 0x39400021 = 0x100) ∧
    (loadStoreId 0x3D800020 = some .str ∧ getMode .str 0x3D800020 = .ok .str ∧
      (A64.imm12 (rebuild .str 0x3D800020 0x10000 0x400010)).toNat * 2 ^ A64.scale 0x3D800020 = 0x100) := by
  decide

/-! ## Loads of literals -/

/-- LDR (literal) of an integer or SIMD register; with the top bit set an integer form is LDRSW or PRFM. -/
def IsLoadLiteral (w : BitVec 32) : Prop :=
  w &&& 0x3B000000 = 0x18000000 ∧ (A64.isSimd w = false → w.getLsbD 31 = false)

instance (w : BitVec 32) : Decidable (IsLoadLiteral w) := inferInstanceAs (Decidable (_ ∧ _))

theorem getMode_literal (h : IsLoadLiteral w) : getMode .ldr w = .ok .ldrlit := by
  have hf : lastByte w &&& 0x04 = 0 ↔ w.getLsbD 26 = false := lastByte_and_twoPow (k := 2) (by decide)
  have h29 : w.getLsbD 29 = false := by
    have := congrArg (·.getLsbD 29) h.1
    simpa using this
  rw [getMode]
  split
  · next hi => exact if_neg (not_not.2 ((lastByte_and_twoPow (k := 7) (by decide)).2 (h.2 (hf.1 hi))))
  · exact if_neg (not_not.2 ((lastByte_and_twoPow (k := 5) (by decide)).2 h29))

/-- The encoder drops the displacement's bits from the 19th on, so the two top bits of the immediate are 0. -/
theorem imm19_rebuild (w source target) :
    ((rebuild .ldrlit w source target).extractLsb' 5 19).toInt * 4 = (target - source).toNat % 2 ^ 19 / 4 * 4 := by
  have hf : (rebuild .ldrlit w source target).extractLsb' 5 19 =
      (((target - source) &&& 0x7FFFF).sshiftRight 2).setWidth 19 := by
    refine (extract_insert (by decide)).trans ?_
    dsimp only [modeInfo]
    generalize ((target - source) &&& 0x7FFFF).sshiftRight 2 = x
    apply eq_of_getLsbD_eq
    intro i hi
    interval_cases i <;> simp
  have hm : ((target - source) &&& 0x7FFFF).toNat = (target - source).toNat % 2 ^ 19 :=
    Nat.and_two_pow_sub_one_eq_mod _ 19
  have hb : ((target - source) &&& 0x7FFFF).msb = false := by
    rw [msb_eq_decide, hm]
    simp
    omega
  rw [hf, sshiftRight_eq_of_msb_false hb, toInt_eq_toNat_cond, toNat_setWidth,
    toNat_ushiftRight, hm, Nat.shiftRight_eq_div_pow]
  omega

/-- A load of a literal in reach is re-encoded to it exactly if the literal is less than 512 KiB ahead. -/
theorem rebuild_literal_iff (w : BitVec 32) (source target : Address) (hw : IsLoadLiteral w)
    (haligned : 4 ∣ (target - source).toInt) (hlower : -2 ^ 20 ≤ (target - source).toInt)
    (hupper : (target - source).toInt < 2 ^ 20) :
    ∃ mode, getMode .ldr w = .ok mode ∧
      rebuild mode w source target &&& ~~~0x00FFFFE0 = w &&& ~~~0x00FFFFE0 ∧
      (((rebuild mode w source target).extractLsb' 5 19).toInt * 4 = (target - source).toInt ↔
        0 ≤ (target - source).toInt ∧ (target - source).toInt < 2 ^ 19) := by
  refine ⟨.ldrlit, getMode_literal hw, ?_, ?_⟩
  · apply and_insert
    · rw [BitVec.and_assoc]
      rfl
    · dsimp only [modeInfo]
      rw [BitVec.and_assoc]
      exact and_zero
  · rw [imm19_rebuild]
    rw [toInt_eq_toNat_cond] at *
    have := (target - source).isLt
    split at *
    · omega
    · omega

theorem rebuild_literal_iff_forward : IsLoadLiteral 0x58000001 ∧ ∃ mode, getMode .ldr 0x58000001 = .ok mode ∧
    rebuild mode 0x58000001 0x10000 0x10100 &&& ~~~0x00FFFFE0 = 0x58000001 &&& ~~~0x00FFFFE0 ∧
    (((rebuild mode 0x58000001 0x10000 0x10100).extractLsb' 5 19).toInt * 4 = ((0x10100 : Address) - 0x10000).toInt ↔
      0 ≤ ((0x10100 : Address) - 0x10000).toInt ∧ ((0x10100 : Address) - 0x10000).toInt < 2 ^ 19) :=
  ⟨by decide, rebuild_literal_iff 0x58000001 0x10000 0x10100 (by decide) (by decide) (by decide) (by decide)⟩

/-- The literal just before the instruction is looked for 0x7FFFC bytes after it. -/
theorem rebuild_literal_backward : IsLoadLiteral 0x58000001 ∧ getMode .ldr 0x58000001 = .ok .ldrlit ∧
    ((0xFFFC : Address) - 0x10000).toInt = -4 ∧
    ((rebuild .ldrlit 0x58000001 0x10000 0xFFFC).extractLsb' 5 19).toInt * 4 = 0x7FFFC := by
  decide

end Egalito.LinkedAarch64
