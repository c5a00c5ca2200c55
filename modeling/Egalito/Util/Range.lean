/-
Addresses and half-open address ranges (`types.h`, `util/range.h`, `util/range.cpp`). `address_t`
and `size_t` are 64-bit and wrap, so `Range::getEnd` may lie below `getStart`; the comparisons
are stated on natural numbers for the ranges that do not wrap.
-/
import Mathlib.Data.BitVec
import Mathlib.Data.List.Sort
import Mathlib.Tactic

namespace Egalito

open BitVec Bool

/-- A failed `assert` (or a null dereference), or a recursion that is still going when the fuel is used up. -/
inductive Failure where
  | assertion
  | diverged
  deriving DecidableEq, Repr

/-- `address_t`. -/
abbrev Address := BitVec 64

structure Range where
  start : Address
  size : BitVec 64
  deriving DecidableEq, Repr, Inhabited

namespace Range

def getEnd (r : Range) : Address := r.start + r.size

def containsPoint (r : Range) (point : Address) : Bool :=
  decide (r.start ≤ point) && decide (point < r.getEnd)

def contains (r other : Range) : Bool :=
  decide (r.start ≤ other.start) && decide (other.getEnd ≤ r.getEnd)

def overlaps (r other : Range) : Bool :=
  !(decide (r.getEnd ≤ other.start) || decide (other.getEnd ≤ r.start))

/-- `Range::operator < (address_t)`: the range ends at or before the point. -/
def before (r : Range) (point : Address) : Bool := decide (r.start + r.size ≤ point)

theorem before_eq (r : Range) (point) : r.before point = decide (r.getEnd ≤ point) := rfl

/-- `operator < (address_t, const Range &)`: the range starts after the point. -/
def after (r : Range) (point : Address) : Bool := decide (point < r.start)

/-- `Range::operator < (const Range &)`. -/
def lt (r other : Range) : Bool :=
  decide (r.start < other.start) || (r.start == other.start && decide (r.getEnd < other.getEnd))

/-- The comparison of `overlapEnd`: descending by end, then by start. -/
def endLt (a b : Range) : Bool :=
  decide (b.getEnd < a.getEnd) || (b.getEnd == a.getEnd && decide (b.start < a.start))

def fromEndpoints (start stop : Address) : Except Failure Range :=
  if start ≤ stop then .ok ⟨start, stop - start⟩ else .error .assertion

/-! ## Ranges as intervals of natural numbers -/

def lo (r : Range) : Nat := r.start.toNat

/-- The end of the range, without wrapping. -/
def hi (r : Range) : Nat := r.start.toNat + r.size.toNat

/-- The end of the range is an address. -/
def NonWrapping (r : Range) : Prop := r.hi < 2 ^ 64

def NonEmpty (r : Range) : Prop := r.size ≠ 0

instance (r : Range) : Decidable r.NonWrapping := inferInstanceAs (Decidable (_ < _))

instance (r : Range) : Decidable r.NonEmpty := inferInstanceAs (Decidable (_ ≠ _))

/-- A range that an `IntervalTree` can store. -/
def Proper (r : Range) : Prop := r.lo < r.hi ∧ r.hi < 2 ^ 64

instance (r : Range) : Decidable r.Proper := inferInstanceAs (Decidable (_ ∧ _))

/-- `r` lies inside `total`, as intervals of natural numbers. -/
def Inside (r total : Range) : Prop := total.lo ≤ r.lo ∧ r.hi ≤ total.hi

instance (r total : Range) : Decidable (r.Inside total) := inferInstanceAs (Decidable (_ ∧ _))

/-- The address `p` is one of the bytes of `r`. -/
def Covers (r : Range) (p : Nat) : Prop := r.lo ≤ p ∧ p < r.hi

instance (r : Range) (p : Nat) : Decidable (r.Covers p) := inferInstanceAs (Decidable (_ ∧ _))

theorem lo_le_hi (r : Range) : r.lo ≤ r.hi := Nat.le_add_right _ _

theorem nonEmpty_iff (r : Range) : r.NonEmpty ↔ r.lo < r.hi := by
  unfold NonEmpty lo hi
  constructor
  · intro h
    have : r.size.toNat ≠ 0 := fun e => h (eq_of_toNat_eq (by simpa using e))
    omega
  · intro h e
    rw [e] at h
    simp at h

theorem proper_iff (r : Range) : r.Proper ↔ r.NonEmpty ∧ r.NonWrapping := by
  rw [nonEmpty_iff]; rfl

variable {r s : Range}

theorem toNat_getEnd (h : r.NonWrapping) : r.getEnd.toNat = r.hi := by
  unfold getEnd NonWrapping hi at *
  rw [toNat_add, Nat.mod_eq_of_lt h]

theorem toNat_start_add (h : r.NonWrapping) : (r.start + r.size).toNat = r.hi :=
  toNat_getEnd h

theorem getEnd_lt_of_wrapping (h : ¬ r.NonWrapping) : r.getEnd < r.start := by
  unfold NonWrapping hi at h
  have := r.start.isLt
  have := r.size.isLt
  rw [lt_def, getEnd, toNat_add]
  omega

/-- A range can be stored exactly when its computed end lies after its start. -/
theorem proper_iff_lt (r : Range) : r.Proper ↔ r.start < r.getEnd := by
  constructor
  · intro h
    rw [lt_def, toNat_getEnd h.2]
    exact h.1
  · intro h
    have hw : r.NonWrapping := by
      by_contra hc
      have := getEnd_lt_of_wrapping hc
      rw [lt_def] at *
      omega
    rw [lt_def, toNat_getEnd hw] at h
    exact ⟨h, hw⟩

theorem ext_lo_hi (h1 : r.lo = s.lo) (h2 : r.hi = s.hi) : r = s := by
  obtain ⟨a, b⟩ := r
  obtain ⟨c, d⟩ := s
  simp only [lo, hi] at h1 h2
  have e1 := eq_of_toNat_eq h1
  have e2 : b = d := eq_of_toNat_eq (by omega)
  rw [e1, e2]

theorem containsPoint_iff (h : r.NonWrapping) (p) : r.containsPoint p = true ↔ r.Covers p.toNat := by
  unfold containsPoint Covers lo
  rw [and_eq_true, decide_eq_true_iff, decide_eq_true_iff, le_def, lt_def,
    toNat_getEnd h]

theorem covers_of_containsPoint {p} (h : r.containsPoint p = true) : r.Covers p.toNat := by
  have hw : r.NonWrapping := by
    by_contra hw
    have hlt := lt_def.1 (getEnd_lt_of_wrapping hw)
    simp only [containsPoint, and_eq_true, decide_eq_true_eq, le_def, lt_def] at h
    omega
  exact (containsPoint_iff hw p).1 h

theorem contains_iff (hr : r.NonWrapping) (hs : s.NonWrapping) : r.contains s = true ↔ s.Inside r := by
  unfold contains Inside lo
  rw [and_eq_true, decide_eq_true_iff, decide_eq_true_iff, le_def, le_def,
    toNat_getEnd hr, toNat_getEnd hs]

theorem overlaps_iff (hr : r.NonWrapping) (hs : s.NonWrapping) : r.overlaps s = true ↔ s.lo < r.hi ∧ r.lo < s.hi := by
  unfold overlaps lo
  simp only [Bool.not_or, Bool.and_eq_true, Bool.not_eq_true', decide_eq_false_iff_not,
    le_def, toNat_getEnd hr, toNat_getEnd hs, not_le]

/-- On non-empty ranges that do not wrap, `Range::overlaps` holds exactly when some address lies
in both. -/
theorem overlaps_iff_exists (hr : r.Proper) (hs : s.Proper) : r.overlaps s = true ↔ ∃ p, r.Covers p ∧ s.Covers p := by
  rw [overlaps_iff hr.2 hs.2]
  obtain ⟨hr1, -⟩ := hr
  obtain ⟨hs1, -⟩ := hs
  unfold Covers
  constructor
  · intro h
    exact ⟨max r.lo s.lo, by omega, by omega⟩
  · rintro ⟨p, h1, h2⟩
    omega

theorem before_iff (h : r.NonWrapping) (p) : r.before p = true ↔ r.hi ≤ p.toNat := by
  unfold before
  rw [decide_eq_true_iff, le_def, toNat_start_add h]

theorem after_iff (r : Range) (p) : r.after p = true ↔ p.toNat < r.lo := by
  unfold after lo
  rw [decide_eq_true_iff, lt_def]

theorem fromEndpoints_eq {a b} (h : a ≤ b) : fromEndpoints a b = .ok ⟨a, b - a⟩ := if_pos h

@[simp] theorem lo_mk (a s) : (Range.mk a s).lo = a.toNat := rfl

theorem hi_endpoints {a b} (h : a ≤ b) : (Range.mk a (b - a)).hi = b.toNat := by
  rw [le_def] at h
  have := b.isLt
  simp only [hi, toNat_sub]
  omega

theorem exists_lo_hi {a b} (hab : a ≤ b) (hb : b < 2 ^ 64) : ∃ r : Range, r.lo = a ∧ r.hi = b := by
  refine ⟨⟨BitVec.ofNat 64 a, BitVec.ofNat 64 (b - a)⟩, ?_, ?_⟩
  · rw [lo, BitVec.toNat_ofNat, Nat.mod_eq_of_lt (by omega)]
  · rw [hi, BitVec.toNat_ofNat, BitVec.toNat_ofNat, Nat.mod_eq_of_lt (by omega), Nat.mod_eq_of_lt (by omega)]
    omega

/-- `a` may stand before `b` in `overlapStart`. -/
def StartLe (a b : Range) : Prop := b.lt a = false

/-- `a` may stand before `b` in `overlapEnd`. -/
def EndLe (a b : Range) : Prop := b.endLt a = false

instance : DecidableRel StartLe := fun _ _ => inferInstanceAs (Decidable (_ = _))

instance : DecidableRel EndLe := fun _ _ => inferInstanceAs (Decidable (_ = _))

theorem startLe_iff (a b) : StartLe a b ↔ a.start.toNat < b.start.toNat ∨
      (a.start.toNat = b.start.toNat ∧ a.getEnd.toNat ≤ b.getEnd.toNat) := by
  unfold StartLe lt
  simp only [or_eq_false_iff, and_eq_false_iff, decide_eq_false_iff_not, lt_def,
    beq_eq_false_iff_ne, ne_eq, toNat_eq]
  omega

theorem endLe_iff (a b) : EndLe a b ↔ b.getEnd.toNat < a.getEnd.toNat ∨
      (b.getEnd.toNat = a.getEnd.toNat ∧ b.start.toNat ≤ a.start.toNat) := by
  unfold EndLe endLt
  simp only [or_eq_false_iff, and_eq_false_iff, decide_eq_false_iff_not, lt_def,
    beq_eq_false_iff_ne, ne_eq, toNat_eq]
  omega

instance : Std.Total StartLe := ⟨fun a b => by rw [startLe_iff, startLe_iff]; omega⟩

instance : Std.Total EndLe := ⟨fun a b => by rw [endLe_iff, endLe_iff]; omega⟩

instance : IsTrans Range StartLe :=
  ⟨fun a b c h1 h2 => by rw [startLe_iff] at *; omega⟩

instance : IsTrans Range EndLe :=
  ⟨fun a b c h1 h2 => by rw [endLe_iff] at *; omega⟩

end Range

end Egalito
