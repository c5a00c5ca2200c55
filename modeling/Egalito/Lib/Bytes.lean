/-
Little-endian byte fields: writing the low bytes of a number and reading them back, as a number and
as a signed one.
-/
import Mathlib.Tactic.Ring
import Mathlib.Data.Nat.ModEq

namespace Lib

abbrev Byte := BitVec 8

/-- The low `n` bytes of `d`, least significant first. -/
def littleEndian : Nat → Nat → List (BitVec 8)
  | 0, _ => []
  | n + 1, d => BitVec.ofNat 8 d :: littleEndian n (d / 256)

def fromLittleEndian : List (BitVec 8) → Nat
  | [] => 0
  | b :: l => b.toNat + 256 * fromLittleEndian l

def signedField (l : List (BitVec 8)) : Int := Int.bmod (fromLittleEndian l) (2 ^ (8 * l.length))

theorem length_littleEndian : ∀ n d, (littleEndian n d).length = n
  | 0, _ => rfl
  | n + 1, d => by rw [littleEndian, List.length_cons, length_littleEndian n]

theorem from_littleEndian : ∀ n d, fromLittleEndian (littleEndian n d) = d % 2 ^ (8 * n)
  | 0, d => by simp [littleEndian, fromLittleEndian, Nat.mod_one]
  | n + 1, d => by
    rw [littleEndian, fromLittleEndian, from_littleEndian n, BitVec.toNat_ofNat, Nat.mul_succ, Nat.pow_add,
      mul_comm (2 ^ (8 * n)), Nat.mod_mul]

theorem fromLittleEndian_lt : ∀ l, fromLittleEndian l < 2 ^ (8 * l.length)
  | [] => by simp [fromLittleEndian]
  | b :: l => by
    have ih := fromLittleEndian_lt l
    have hb := b.isLt
    rw [fromLittleEndian, List.length_cons, Nat.mul_succ, Nat.pow_add]
    omega

theorem fromLittleEndian_eq_zero : ∀ {l}, fromLittleEndian l = 0 ↔ ∀ b ∈ l, b = 0
  | [] => by simp [fromLittleEndian]
  | b :: l => by
    have hb : b.toNat = 0 ↔ b = 0 := (BitVec.toNat_eq (y := 0)).symm
    rw [fromLittleEndian, List.forall_mem_cons, ← fromLittleEndian_eq_zero, ← hb]
    omega

theorem littleEndian_eq : ∀ {l d}, d % 2 ^ (8 * l.length) = fromLittleEndian l → littleEndian l.length d = l
  | [], _, _ => rfl
  | b :: l, d, h => by
    have hb := b.isLt
    rw [fromLittleEndian, List.length_cons, Nat.mul_succ, Nat.pow_add, mul_comm (2 ^ (8 * l.length)), Nat.mod_mul] at h
    change d % 256 + 256 * (d / 256 % 2 ^ (8 * l.length)) = _ at h
    have hlo : d % 2 ^ 8 = b.toNat := by omega
    have hr : d / 256 % 2 ^ (8 * l.length) = fromLittleEndian l := by omega
    rw [List.length_cons, littleEndian, littleEndian_eq hr]
    congr 1
    exact BitVec.eq_of_toNat_eq (by rw [BitVec.toNat_ofNat, hlo])

theorem signedField_littleEndian {w} (n : Nat) (d : BitVec w) :
    signedField (littleEndian n d.toNat) = (d.setWidth (8 * n)).toInt := by
  rw [signedField, length_littleEndian, from_littleEndian, BitVec.toInt_setWidth,
    Int.natCast_mod, Int.emod_bmod]

end Lib
