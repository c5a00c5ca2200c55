/-
Words of the A64 instruction set: PC-relative forms, and loads and stores with an unsigned offset.
-/
import Mathlib.Data.BitVec
import Mathlib.Tactic.IntervalCases

namespace Lib.A64

open BitVec

/-! ## Forms relative to the program counter -/

inductive PcRel where
  | adr | adrp | b | bl | bcond | cbz | cbnz | tbz | tbnz
  deriving DecidableEq, Repr

namespace PcRel

def opcodeMask : PcRel → BitVec 32
  | adr | adrp => 0x9F000000
  | b | bl => 0xFC000000
  | bcond => 0xFF000010
  | cbz | cbnz | tbz | tbnz => 0x7F000000

def opcode : PcRel → BitVec 32
  | adr => 0x10000000
  | adrp => 0x90000000
  | b => 0x14000000
  | bl => 0x94000000
  | bcond => 0x54000000
  | cbz => 0x34000000
  | cbnz => 0x35000000
  | tbz => 0x36000000
  | tbnz => 0x37000000

def Is (c : PcRel) (w : BitVec 32) : Prop := w &&& c.opcodeMask = c.opcode

instance (c : PcRel) (w : BitVec 32) : Decidable (c.Is w) := inferInstanceAs (Decidable (_ = _))

def immMask : PcRel → BitVec 32
  | adr | adrp => 0x60FFFFE0
  | b | bl => 0x03FFFFFF
  | bcond | cbz | cbnz => 0x00FFFFE0
  | tbz | tbnz => 0x0007FFE0

def bits : PcRel → Nat
  | adr | adrp => 21
  | b | bl => 26
  | bcond | cbz | cbnz => 19
  | tbz | tbnz => 14

/-- The immediate counts bytes, pages or instructions. -/
def shift : PcRel → Nat
  | adr => 0
  | adrp => 12
  | b | bl | bcond | cbz | cbnz | tbz | tbnz => 2

def imm : (c : PcRel) → BitVec 32 → BitVec c.bits
  | adr, w | adrp, w => w.extractLsb' 5 19 ++ w.extractLsb' 29 2
  | b, w | bl, w => w.extractLsb' 0 26
  | bcond, w | cbz, w | cbnz, w => w.extractLsb' 5 19
  | tbz, w | tbnz, w => w.extractLsb' 5 14

def page (a : BitVec 64) : BitVec 64 := a &&& ~~~0xFFF#64

/-- What an address contributes to the displacement. -/
def aim : PcRel → BitVec 64 → BitVec 64
  | adrp, a => page a
  | adr, a | b, a | bl, a | bcond, a | cbz, a | cbnz, a | tbz, a | tbnz, a => a

/-- The address that the word at `pc` refers to. -/
def target (c : PcRel) (w : BitVec 32) (pc : BitVec 64) : BitVec 64 :=
  c.aim pc + (c.imm w).signExtend 64 <<< c.shift

def displacement (c : PcRel) (pc a : BitVec 64) : BitVec 64 := c.aim a - c.aim pc

/-- The displacement is a whole number of units, and the immediate is wide enough for it. -/
structure InReach (c : PcRel) (pc a : BitVec 64) : Prop where
  aligned : (2 ^ c.shift : Int) ∣ (c.displacement pc a).toInt
  lower : -2 ^ (c.bits - 1 + c.shift) ≤ (c.displacement pc a).toInt
  upper : (c.displacement pc a).toInt < 2 ^ (c.bits - 1 + c.shift)

instance (c : PcRel) (pc a : BitVec 64) : Decidable (c.InReach pc a) :=
  decidable_of_iff ((2 ^ c.shift : Int) ∣ (c.displacement pc a).toInt ∧
      -2 ^ (c.bits - 1 + c.shift) ≤ (c.displacement pc a).toInt ∧
      (c.displacement pc a).toInt < 2 ^ (c.bits - 1 + c.shift))
    ⟨fun h => ⟨h.1, h.2.1, h.2.2⟩, fun h => ⟨h.aligned, h.lower, h.upper⟩⟩

end PcRel

theorem PcRel.Is.getLsbD {c : PcRel} {w} (h : c.Is w) {i : Nat} (hi : c.opcodeMask.getLsbD i = true) :
    w.getLsbD i = c.opcode.getLsbD i := by
  rw [← h, getLsbD_and, hi, Bool.and_true]

/-- LDR, STR and their variants with a scaled 12-bit offset, of integer and of SIMD registers. -/
def IsUnsignedOffset (w : BitVec 32) : Prop := w &&& 0x3B000000 = 0x39000000

instance (w : BitVec 32) : Decidable (IsUnsignedOffset w) := inferInstanceAs (Decidable (_ = _))

def sizeField (w : BitVec 32) : BitVec 2 := w.extractLsb' 30 2

def opc (w : BitVec 32) : BitVec 2 := w.extractLsb' 22 2

/-- The V bit: the register is a SIMD register. -/
def isSimd (w : BitVec 32) : Bool := w.getLsbD 26

/-- The binary logarithm of the access size in bytes. The 128-bit accesses have the size field 0. -/
def scale (w : BitVec 32) : Nat := if isSimd w ∧ w.getLsbD 23 then 4 else (sizeField w).toNat

def imm12 (w : BitVec 32) : BitVec 12 := w.extractLsb' 10 12

def imm12Mask : BitVec 32 := 0x003FFC00

/-! ## Displacements -/

theorem ofInt_two_pow (w n) : BitVec.ofInt w (2 ^ n) = BitVec.twoPow w n := by
  apply eq_of_toNat_eq
  rw [toNat_twoPow, show (2 : Int) ^ n = ((2 ^ n : Nat) : Int) by push_cast; rfl, ofInt_natCast,
    toNat_ofNat]

/-- A displacement in reach comes back from its immediate. -/
theorem signExtend_shift {d : BitVec 64} {bits shift : Nat} (hb : 0 < bits) (hle : bits ≤ 64)
    (ha : (2 ^ shift : Int) ∣ d.toInt) (hlo : -2 ^ (bits - 1 + shift) ≤ d.toInt)
    (hu : d.toInt < 2 ^ (bits - 1 + shift)) :
    ((d.sshiftRight shift).setWidth bits).signExtend 64 <<< shift = d := by
  obtain ⟨q, hq⟩ := ha
  have hp : (0 : Int) < 2 ^ shift := by positivity
  have hs : (d.sshiftRight shift).toInt = q := by
    rw [toInt_sshiftRight, Int.shiftRight_eq_div_pow, hq]
    exact_mod_cast Int.mul_ediv_cancel_left q hp.ne'
  have hw : (2 : Int) ^ (bits - 1 + shift) = 2 ^ shift * 2 ^ (bits - 1) := by rw [Int.pow_add, Int.mul_comm]
  have hq_lower : -2 ^ (bits - 1) ≤ q := by
    rw [hq, hw, ← Int.mul_neg] at hlo
    exact le_of_mul_le_mul_left hlo hp
  have hq_upper : q < 2 ^ (bits - 1) := by
    rw [hq, hw] at hu
    exact lt_of_mul_lt_mul_left hu hp.le
  have hd : ((2 ^ bits : Nat) : Int) = 2 * 2 ^ (bits - 1) := by
    rw [← Int.pow_succ', Nat.sub_add_cancel hb]
    push_cast
    rfl
  -- the immediate is `q` at its own width, and `q` fits
  have hf : ((d.sshiftRight shift).setWidth bits).toInt = q := by
    rw [toInt_setWidth, ← Int.bmod_bmod_of_dvd (Nat.pow_dvd_pow 2 hle), ← toInt_eq_toNat_bmod, hs]
    apply Int.bmod_eq_of_le
    · omega
    · omega
  calc ((d.sshiftRight shift).setWidth bits).signExtend 64 <<< shift
      = BitVec.ofInt 64 q * BitVec.twoPow 64 shift := by
        rw [shiftLeft_eq_mul_twoPow, signExtend, hf]
    _ = BitVec.ofInt 64 d.toInt := by rw [hq, Int.mul_comm, BitVec.ofInt_mul, ofInt_two_pow]
    _ = d := ofInt_toInt

theorem PcRel.target_eq {c : PcRel} {pc a} {w} (h : c.InReach pc a)
    (hm : c.imm w = ((c.displacement pc a).sshiftRight c.shift).setWidth c.bits) : c.target w pc = c.aim a := by
  have hb : 0 < c.bits ∧ c.bits ≤ 64 := by cases c <;> decide
  rw [target, hm, signExtend_shift hb.1 hb.2 h.aligned h.lower h.upper, displacement, add_comm,
    sub_add_cancel]

theorem page_eq (a) : PcRel.page a = (a >>> 12) <<< 12 := by
  have hm : ∀ i : Fin 64, (~~~0xFFF#64).getLsbD i = decide (12 ≤ i.val) := by decide
  apply eq_of_getLsbD_eq
  intro i hi
  rw [PcRel.page, getLsbD_and, hm ⟨i, hi⟩]
  by_cases h : 12 ≤ i
  · simp [h, hi, show ¬ i < 12 by omega]
  · simp [h, show i < 12 by omega]

theorem toNat_page (a) : (PcRel.page a).toNat = a.toNat / 4096 * 4096 := by
  rw [page_eq, toNat_shiftLeft, toNat_ushiftRight, Nat.shiftRight_eq_div_pow, Nat.shiftLeft_eq,
    Nat.mod_eq_of_lt (by omega)]

/-- The displacement from a page counts the same pages as the one between pages. -/
theorem sshiftRight_sub_page (a b) :
    (a - PcRel.page b).sshiftRight 12 = (PcRel.page a - PcRel.page b).sshiftRight 12 := by
  apply eq_of_toInt_eq
  rw [toInt_sshiftRight, toInt_sshiftRight, Int.shiftRight_eq_div_pow, Int.shiftRight_eq_div_pow,
    toInt_eq_toNat_cond, toInt_eq_toNat_cond, toNat_sub, toNat_sub, toNat_page, toNat_page]
  have ha := a.isLt
  have hb := b.isLt
  omega

section
variable {n : Nat} {w m v k : BitVec n} {start len : Nat}

theorem extract_insert (hm : ∀ i < len, m.getLsbD (start + i) = false) :
    ((w &&& m) ||| v).extractLsb' start len = v.extractLsb' start len := by
  apply eq_of_getLsbD_eq
  intro i hi
  simp [getLsbD_extractLsb', hm i hi]

theorem and_insert (hm : w &&& m &&& k = w &&& k) (hv : v &&& k = 0#n) : ((w &&& m) ||| v) &&& k = w &&& k := by
  rw [BitVec.and_comm, BitVec.and_or_distrib_left, BitVec.and_comm k, hm, BitVec.and_comm k, hv, BitVec.or_zero]

theorem extract_shift {x : BitVec n} (hk : ∀ i < len, k.getLsbD (start + i) = true) (hl : start + len ≤ n) :
    ((x <<< start) &&& k).extractLsb' start len = x.extractLsb' 0 len := by
  apply eq_of_getLsbD_eq
  intro i hi
  have hlt : start + i < n := by omega
  rw [getLsbD_extractLsb', getLsbD_and, hk i hi, getLsbD_shiftLeft]
  simp [hi, hlt]

theorem extract_setWidth {m} {x : BitVec m} (hl : len ≤ n) : (x.setWidth n).extractLsb' 0 len = x.setWidth len := by
  apply eq_of_getLsbD_eq
  intro i hi
  have hlt : i < n := by omega
  simp [hi, hlt]

end

end Lib.A64
