/-
Cells of one size merged into intervals.
-/
import Mathlib.Data.List.Basic
import Mathlib.Data.List.Pairwise
import Mathlib.Tactic.Ring

namespace Lib

open List

structure Interval where
  start : Nat
  size : Nat
  deriving DecidableEq, Repr

namespace Interval

def stop (r : Interval) : Nat := r.start + r.size

def Contains (r : Interval) (x : Nat) : Prop := r.start ≤ x ∧ x < r.stop

end Interval

/-- The intervals from the one under construction on. -/
def mergeFrom (step : Nat) (r : Interval) : List Nat → List Interval
  | [] => [r]
  | x :: l => if x = r.stop then mergeFrom step ⟨r.start, r.size + step⟩ l else r :: mergeFrom step ⟨x, step⟩ l

def merge (step : Nat) : List Nat → List Interval
  | [] => []
  | x :: l => mergeFrom step ⟨x, step⟩ l

/-- Increasing multiples of the step. -/
structure Cells (step : Nat) (l : List Nat) : Prop where
  sorted : l.Pairwise (· < ·)
  dvd : ∀ x ∈ l, step ∣ x

structure Interval.Whole (step : Nat) (r : Interval) : Prop where
  start : step ∣ r.start
  size : step ∣ r.size
  pos : 0 < r.size

variable {step x y : Nat} {l : List Nat} {r r' : Interval}

theorem Interval.Whole.stop (h : r.Whole step) : step ∣ r.stop := Nat.dvd_add h.start h.size

theorem Interval.Whole.start_lt_stop (h : r.Whole step) : r.start < r.stop := Nat.lt_add_of_pos_right h.pos

theorem Cells.tail (h : Cells step (x :: l)) : Cells step l :=
  ⟨(pairwise_cons.1 h.sorted).2, fun y hy => h.dvd y (by simp [hy])⟩

theorem add_le_of_dvd_of_lt (hx : step ∣ x) (hy : step ∣ y) (hlt : x < y) : x + step ≤ y := by
  obtain ⟨a, rfl⟩ := hx
  obtain ⟨b, rfl⟩ := hy
  have hab := Nat.lt_of_mul_lt_mul_left hlt
  calc step * a + step = step * (a + 1) := by ring
    _ ≤ step * b := Nat.mul_le_mul_left step hab

theorem Interval.Whole.extend (h : r.Whole step) : (Interval.mk r.start (r.size + step)).Whole step :=
  ⟨h.start, Nat.dvd_add h.size (Nat.dvd_refl step), Nat.lt_add_right step h.pos⟩

theorem cell_contains_iff (hs : 0 < step) (hx : step ∣ x) (hy : step ∣ y) : (Interval.mk x step).Contains y ↔ y = x := by
  constructor
  · rintro ⟨hlo, hhi⟩
    by_contra hne
    have := add_le_of_dvd_of_lt hx hy (lt_of_le_of_ne hlo (Ne.symm hne))
    exact absurd hhi (Nat.not_lt.2 this)
  · rintro rfl
    exact ⟨le_refl _, Nat.lt_add_of_pos_right hs⟩

/-- What is built: whole intervals that do not touch, the first of them from where it began. -/
theorem mergeFrom_spec (hs : 0 < step) : ∀ {l : List Nat} {r : Interval}, Cells step l → r.Whole step →
    (∀ x ∈ l, r.stop ≤ x) → (∀ r' ∈ mergeFrom step r l, r'.Whole step ∧ r.start ≤ r'.start) ∧
      (mergeFrom step r l).Pairwise (fun r r' => r.stop < r'.start) ∧
      ∀ y, step ∣ y → ((∃ r' ∈ mergeFrom step r l, r'.Contains y) ↔ r.Contains y ∨ y ∈ l)
  | [], r, _, hr, _ => by simp [mergeFrom, hr]
  | x :: l, r, hl, hr, hle => by
    have hx := hl.dvd x (by simp)
    have hla : ∀ z ∈ l, x + step ≤ z := fun z hz =>
      add_le_of_dvd_of_lt hx (hl.dvd z (by simp [hz])) ((pairwise_cons.1 hl.sorted).1 z hz)
    rw [mergeFrom]
    by_cases hp : x = r.stop
    · rw [if_pos hp]
      have he : (Interval.mk r.start (r.size + step)).stop = x + step := by
        rw [hp, Interval.stop, Interval.stop, add_assoc]
      obtain ⟨hw, ha, hm⟩ := mergeFrom_spec hs hl.tail hr.extend fun z hz => he ▸ hla z hz
      refine ⟨hw, ha, fun y hy => ?_⟩
      rw [hm y hy, mem_cons]
      have hc := cell_contains_iff hs hx hy
      have hsr := hr.start_lt_stop
      unfold Interval.Contains
      rw [he, ← hp]
      dsimp only
      constructor
      · rintro (⟨hlo, hhi⟩ | hy)
        · by_cases hyx : y < x
          · exact .inl ⟨hlo, hyx⟩
          · exact .inr (.inl (hc.1 ⟨Nat.not_lt.1 hyx, hhi⟩))
        · exact .inr (.inr hy)
      · rintro (⟨hlo, hhi⟩ | rfl | hy)
        · exact .inl ⟨hlo, by omega⟩
        · exact .inl ⟨by omega, by omega⟩
        · exact .inr hy
    · rw [if_neg hp]
      have hlt := lt_of_le_of_ne (hle x (by simp)) (Ne.symm hp)
      obtain ⟨hw, ha, hm⟩ :=
        @mergeFrom_spec hs l ⟨x, step⟩ hl.tail ⟨hx, Nat.dvd_refl step, hs⟩ hla
      have hsr := hr.start_lt_stop
      refine ⟨?_, pairwise_cons.2 ⟨fun r' hr' => hlt.trans_le (hw r' hr').2, ha⟩, fun y hy => ?_⟩
      · intro r' hr'
        rcases mem_cons.1 hr' with rfl | hr'
        · exact ⟨hr, le_refl _⟩
        · refine ⟨(hw r' hr').1, ?_⟩
          have := (hw r' hr').2
          dsimp only at this
          omega
      · rw [exists_mem_cons_iff, hm y hy, mem_cons, cell_contains_iff hs hx hy]

/-- Whole intervals that do not touch, over the cells of the list. -/
structure Merged (step : Nat) (l : List Nat) (rs : List Interval) : Prop where
  whole : ∀ r ∈ rs, r.Whole step
  apart : rs.Pairwise fun r r' => r.stop < r'.start
  cover : ∀ y, step ∣ y → ((∃ r ∈ rs, r.Contains y) ↔ y ∈ l)

theorem merge_spec (hs : 0 < step) (hl : Cells step l) : Merged step l (merge step l) := by
  cases l with
  | nil => exact ⟨by simp [merge], List.Pairwise.nil, by simp [merge]⟩
  | cons x l =>
    have hx := hl.dvd x (by simp)
    have hlt : ∀ z ∈ l, x + step ≤ z := fun z hz =>
      add_le_of_dvd_of_lt hx (hl.dvd z (by simp [hz])) ((pairwise_cons.1 hl.sorted).1 z hz)
    obtain ⟨hw, ha, hm⟩ := @mergeFrom_spec step hs l ⟨x, step⟩ hl.tail ⟨hx, Nat.dvd_refl step, hs⟩ hlt
    refine ⟨fun r hr => (hw r hr).1, ha, fun y hy => ?_⟩
    rw [merge, hm y hy, cell_contains_iff hs hx hy, mem_cons]

namespace Merged

variable {rs : List Interval} {a b : Nat} (h : Merged step l rs)
include h

theorem eq_or_apart (hr : r ∈ rs) (hr' : r' ∈ rs) : r = r' ∨ r.stop < r'.start ∨ r'.stop < r.start := by
  have ha : rs.Pairwise fun r r' => r.stop < r'.start ∨ r'.stop < r.start := h.apart.imp .inl
  have hs : Std.Symm fun r r' : Interval => r.stop < r'.start ∨ r'.stop < r.start := ⟨fun _ _ => Or.symm⟩
  by_cases heq : r = r'
  · exact .inl heq
  · exact .inr (ha.forall hr hr' heq)

theorem stop_not_mem (hr : r ∈ rs) : r.stop ∉ l := by
  intro hm
  obtain ⟨r', hr', hlo, hhi⟩ := (h.cover r.stop (h.whole r hr).stop).2 hm
  have hp := (h.whole r hr).start_lt_stop
  rcases h.eq_or_apart hr hr' with rfl | hlt | hlt
  · omega
  · omega
  · omega

theorem last_mem (hr : r ∈ rs) : ∃ y ∈ l, y + step = r.stop := by
  have hw := h.whole r hr
  have hle := Nat.le_of_dvd hw.pos hw.size
  have hs := Nat.pos_of_dvd_of_pos hw.size hw.pos
  have hlt : r.stop - step + step = r.stop := by
    unfold Interval.stop
    omega
  have hd := Nat.dvd_sub hw.stop (Nat.dvd_refl step)
  refine ⟨r.stop - step, (h.cover _ hd).1 ⟨r, hr, ?_, by omega⟩, hlt⟩
  unfold Interval.stop
  omega

theorem exists_span (ha : step ∣ a) (hab : a < b) (hc : ∀ y, step ∣ y → a ≤ y → y < b → y ∈ l) :
    ∃ r ∈ rs, r.start ≤ a ∧ b ≤ r.stop := by
  obtain ⟨r, hr, hlo, hhi⟩ := (h.cover a ha).2 (hc a ha (le_refl a) hab)
  refine ⟨r, hr, hlo, ?_⟩
  by_contra hstop
  exact h.stop_not_mem hr (hc r.stop (h.whole r hr).stop hhi.le (Nat.lt_of_not_le hstop))

end Merged

end Lib
