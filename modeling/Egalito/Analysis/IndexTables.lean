/-
Jump table bounds from index tables (`JumptableDetection::getBoundFromIndexTable` in `analysis/jumptabledetection.cpp`,
x86), once the table is known.

The file is a list of bytes and a load outside of it fails, so that `getBoundFromIndexTable_exact` says both when no
byte outside is read and when the bound is the greatest entry plus one.
-/
import Egalito.Lib.Except
import Egalito.Lib.Bytes

namespace Egalito.IndexTables

open Lib List

inductive Fault where
  | outOfFile
  | assertion
  deriving DecidableEq

/-- The file, which is mapped at `charmap`. -/
structure ElfMap where
  charmap : Nat
  bytes : List Byte
  copyBase : Nat

structure IndextableInfo where
  base : Nat
  scale : Nat
  entries : Nat

/-- The address `copyBase + indexTableBase`, which may wrap. -/
def ElfMap.table (m : ElfMap) (t : IndextableInfo) : Nat := (m.copyBase + t.base) % 2 ^ 64

/-- `n` bytes at an address, all of which have to be in the file. -/
def ElfMap.load (m : ElfMap) (a n : Nat) : Except Fault (List Byte) :=
  if m.charmap ≤ a ∧ a + n ≤ m.charmap + m.bytes.length then .ok ((m.bytes.drop (a - m.charmap)).take n)
  else .error .outOfFile

/-- A `char` is signed, and `static_cast<size_t>` extends the sign. -/
def charEntry (l : List Byte) : Nat :=
  if fromLittleEndian l < 0x80 then fromLittleEndian l else 2 ^ 64 - 0x100 + fromLittleEndian l

/-- The loop over the first entries. -/
def maxEntry (m : ElfMap) (value : List Byte → Nat) (table scale : Nat) : Nat → Except Fault Nat
  | 0 => .ok 0
  | i + 1 => do return max (← maxEntry m value table scale i) (value (← m.load (table + i * scale) scale))

/-- The new value of `info->entries`; `none` is the answer `false`. -/
def getBoundFromIndexTable (m : ElfMap) (t : IndextableInfo) : Except Fault (Option Nat) :=
  if t.entries > 0 then
    if m.charmap + m.bytes.length < m.table t then .ok none
    else do
      let max ←
        if t.scale = 1 then maxEntry m charEntry (m.table t) 1 t.entries
        else if t.scale = 4 then maxEntry m fromLittleEndian (m.table t) 4 t.entries
        else if t.base = 4 then .ok 0 else .error .assertion
      return some ((max + 1) % 2 ^ 64)
  else .ok none

/-! ## Tables in the file -/

variable {m : ElfMap} {t : IndextableInfo}

/-- The table lies in the file as a whole. -/
def InFile (m : ElfMap) (t : IndextableInfo) : Prop :=
  m.charmap ≤ m.table t ∧ m.table t + t.entries * t.scale ≤ m.charmap + m.bytes.length

/-- The bytes of an entry. -/
def entryBytes (m : ElfMap) (t : IndextableInfo) (i : Nat) : List Byte :=
  (m.bytes.drop (m.table t + i * t.scale - m.charmap)).take t.scale

/-- The largest of the first `n` entries, each taken for a number by `value`. -/
def largestOf (m : ElfMap) (t : IndextableInfo) (value : List Byte → Nat) (n : Nat) : Nat :=
  (range n).foldl (fun v i => max v (value (entryBytes m t i))) 0

/-- The largest unsigned entry. -/
def largest (m : ElfMap) (t : IndextableInfo) (n : Nat) : Nat := largestOf m t fromLittleEndian n

variable {value : List Byte → Nat} {b : Nat}

theorem largestOf_succ (n : Nat) :
    largestOf m t value (n + 1) = max (largestOf m t value n) (value (entryBytes m t n)) := by
  rw [largestOf, range_succ, foldl_concat]
  rfl

theorem largestOf_lt (hb : 0 < b) : ∀ n, (∀ i < n, value (entryBytes m t i) < b) → largestOf m t value n < b
  | 0, _ => hb
  | n + 1, h => by
    rw [largestOf_succ]
    exact max_lt (largestOf_lt hb n fun i hi => h i (Nat.lt_succ_of_lt hi)) (h n (Nat.lt_succ_self n))

theorem le_largestOf : ∀ n, ∀ i < n, value (entryBytes m t i) ≤ largestOf m t value n
  | n + 1, i, hi => by
    rw [largestOf_succ]
    rcases Nat.lt_succ_iff_lt_or_eq.1 hi with hi | rfl
    · exact (le_largestOf n i hi).trans (le_max_left _ _)
    · exact le_max_right _ _

theorem largestOf_congr {value' : List Byte → Nat} : ∀ n,
    (∀ i < n, value (entryBytes m t i) = value' (entryBytes m t i)) → largestOf m t value n = largestOf m t value' n
  | 0, _ => rfl
  | n + 1, h => by
    rw [largestOf_succ, largestOf_succ, h n (Nat.lt_succ_self n), largestOf_congr n fun i hi => h i (Nat.lt_succ_of_lt hi)]

def EntryInFile (m : ElfMap) (t : IndextableInfo) (i : Nat) : Prop :=
  m.charmap ≤ m.table t + i * t.scale ∧ m.table t + i * t.scale + t.scale ≤ m.charmap + m.bytes.length

/-- The loop reads the entries in turn and fails at the first that is not in the file. -/
theorem maxEntry_cases (value) : ∀ n,
    (∀ i < n, EntryInFile m t i) ∧ maxEntry m value (m.table t) t.scale n = .ok (largestOf m t value n) ∨
      (∃ i < n, ¬ EntryInFile m t i) ∧ maxEntry m value (m.table t) t.scale n = .error .outOfFile
  | 0 => .inl ⟨fun _ h => absurd h (Nat.not_lt_zero _), rfl⟩
  | n + 1 => by
    rcases maxEntry_cases value n with ⟨hin, heq⟩ | ⟨⟨i, hi, hn⟩, heq⟩
    · by_cases hl : EntryInFile m t n
      · have hld : m.load (m.table t + n * t.scale) t.scale = .ok (entryBytes m t n) := if_pos hl
        refine .inl ⟨fun i hi => ?_, by rw [maxEntry, heq, hld, largestOf_succ]; rfl⟩
        rcases Nat.lt_succ_iff_lt_or_eq.1 hi with hi | rfl
        · exact hin i hi
        · exact hl
      · have hld : m.load (m.table t + n * t.scale) t.scale = .error .outOfFile := if_neg hl
        exact .inr ⟨⟨n, Nat.lt_succ_self n, hl⟩, by rw [maxEntry, heq, hld]; rfl⟩
    · exact .inr ⟨⟨i, Nat.lt_succ_of_lt hi, hn⟩, by rw [maxEntry, heq]; rfl⟩

theorem inFile_iff (hp : 0 < t.entries) : InFile m t ↔ ∀ i < t.entries, EntryInFile m t i := by
  constructor
  · rintro ⟨hlo, hhi⟩ i hi
    have hm := Nat.mul_le_mul_right t.scale hi
    rw [Nat.succ_mul] at hm
    exact ⟨by omega, by omega⟩
  · intro h
    obtain ⟨k, hk⟩ := Nat.exists_eq_succ_of_ne_zero hp.ne'
    have h0 := (h 0 hp).1
    have hl := (h k (by omega)).2
    rw [InFile, hk, Nat.succ_mul]
    exact ⟨by omega, by omega⟩

/-- How the entries of the table are read. -/
def readAs (t : IndextableInfo) : List Byte → Nat := if t.scale = 1 then charEntry else fromLittleEndian

theorem getBoundFromIndexTable_eq (m : ElfMap) (hs : t.scale = 1 ∨ t.scale = 4) (hp : 0 < t.entries)
    (ht : m.table t ≤ m.charmap + m.bytes.length) : getBoundFromIndexTable m t = do
      return some (((← maxEntry m (readAs t) (m.table t) t.scale t.entries) + 1) % 2 ^ 64) := by
  unfold getBoundFromIndexTable readAs
  rw [if_pos hp, if_neg (Nat.not_lt.2 ht)]
  rcases hs with hs | hs <;> rw [hs] <;> rfl

theorem fromLittleEndian_entryBytes (m : ElfMap) (t : IndextableInfo) (i : Nat) :
    fromLittleEndian (entryBytes m t i) < 2 ^ (8 * t.scale) := by
  refine (fromLittleEndian_lt _).trans_le (Nat.pow_le_pow_right (by decide) (Nat.mul_le_mul_left 8 ?_))
  rw [entryBytes, length_take]
  exact Nat.min_le_left _ _

/-- An entry from 0x80 on is read as a number at the end of the address space, and the bound is not that of any byte. -/
theorem charEntry_bound (hone : t.scale = 1) (n : Nat) :
    (largestOf m t charEntry n + 1) % 2 ^ 64 = largest m t n + 1 ↔
      ∀ i < n, fromLittleEndian (entryBytes m t i) < 0x80 := by
  have hb (i) : fromLittleEndian (entryBytes m t i) < 0x100 := by
    simpa [hone] using fromLittleEndian_entryBytes m t i
  have hsm : largest m t n < 0x100 := largestOf_lt (by decide) n fun i _ => hb i
  constructor
  · intro h i hi
    by_contra hge
    have hle : charEntry (entryBytes m t i) ≤ _ := le_largestOf n i hi
    have hlt : largestOf m t charEntry n < 2 ^ 64 := by
      refine largestOf_lt (by decide) n fun k _ => ?_
      have := hb k
      unfold charEntry
      split <;> omega
    rw [charEntry, if_neg hge] at hle
    omega
  · intro h
    rw [largestOf_congr n fun i hi => if_pos (h i hi)]
    exact Nat.mod_eq_of_lt (by rw [largest] at hsm; omega)

/-- No byte outside the file is read if and only if the table is empty, starts behind the end of the file, or lies in it
    as a whole. For a table in the file the bound is right if and only if no entry of one byte is 0x80 or more. -/
theorem getBoundFromIndexTable_exact (m : ElfMap) (t : IndextableInfo) (hscale : t.scale = 1 ∨ t.scale = 4) :
    (getBoundFromIndexTable m t ≠ .error .outOfFile ↔
      t.entries = 0 ∨ m.charmap + m.bytes.length < m.table t ∨ InFile m t) ∧
    (0 < t.entries → InFile m t → (getBoundFromIndexTable m t = .ok (some (largest m t t.entries + 1)) ↔
      (t.scale = 1 → ∀ i < t.entries, fromLittleEndian (entryBytes m t i) < 0x80))) := by
  constructor
  · by_cases hp : 0 < t.entries
    · by_cases ht : m.charmap + m.bytes.length < m.table t
      · rw [getBoundFromIndexTable, if_pos hp, if_pos ht]
        simp [ht]
      · rw [getBoundFromIndexTable_eq m hscale hp (Nat.not_lt.1 ht), inFile_iff hp]
        rcases maxEntry_cases (readAs t) t.entries with ⟨hin, heq⟩ | ⟨⟨i, hi, hn⟩, heq⟩ <;> rw [heq]
        · exact iff_of_true (fun h => by cases h) (.inr (.inr hin))
        · refine iff_of_false (fun h => h rfl) ?_
          rintro (h | h | h)
          · omega
          · exact ht h
          · exact hn (h i hi)
    · rw [getBoundFromIndexTable, if_neg hp]
      simp [Nat.eq_zero_of_not_pos hp]
  · intro hp hin
    rw [getBoundFromIndexTable_eq m hscale hp (le_trans (Nat.le_add_right _ _) hin.2)]
    rcases maxEntry_cases (readAs t) t.entries with ⟨-, heq⟩ | ⟨⟨i, hi, hn⟩, -⟩
    · rw [heq]
      change Except.ok (some ((largestOf m t (readAs t) t.entries + 1) % 2 ^ 64)) = _ ↔ _
      rw [Except.ok.injEq, Option.some.injEq, readAs]
      rcases hscale with hone | hfr
      · rw [if_pos hone, charEntry_bound hone]
        simp [hone]
      · have hsm : largestOf m t fromLittleEndian t.entries < 2 ^ 32 :=
          largestOf_lt (by decide) _ fun i _ => by simpa [hfr] using fromLittleEndian_entryBytes m t i
        rw [if_neg (by omega), Nat.mod_eq_of_lt (by omega)]
        exact iff_of_true rfl fun h => by omega
    · exact absurd ((inFile_iff hp).1 hin i hi) hn

/-- A file of three bytes. -/
def threeBytes : ElfMap := ⟨0x1000, [0x7f, 5, 0x80], 0x1000⟩

theorem getBoundFromIndexTable_exact_threeBytes : getBoundFromIndexTable threeBytes ⟨0, 1, 2⟩ = .ok (some 0x80) :=
  ((getBoundFromIndexTable_exact threeBytes ⟨0, 1, 2⟩ (.inl rfl)).2 (by decide) ⟨by decide, by decide⟩).2 (by decide)

/-- The entry 0x80 becomes a huge bound, and a table that starts at the end of the file is read outside it. -/
theorem getBoundFromIndexTable_inexact : InFile threeBytes ⟨2, 1, 1⟩ ∧ largest threeBytes ⟨2, 1, 1⟩ 1 = 0x80 ∧
    getBoundFromIndexTable threeBytes ⟨2, 1, 1⟩ = .ok (some 0xffffffffffffff81) ∧
    getBoundFromIndexTable threeBytes ⟨3, 1, 1⟩ = .error .outOfFile :=
  ⟨⟨by decide, by decide⟩, by decide, by decide, by decide⟩

end Egalito.IndexTables
