/-
The set operations of `IntervalTree` on the multiset it holds: `splitAt`, `subtract`, `subtractWithAddendum` and
`unionWith`.
-/
import Egalito.Lib.Except
import Egalito.Lib.Cover
import Egalito.Util.Refinement

namespace Egalito

open Lib Range Multiset

/-- How many of the ranges contain the address. -/
abbrev Range.coverage (m : Multiset Range) (p : Nat) : Nat := Lib.coverage Range.Covers m p

/-- The half-open range between two addresses. -/
def Range.between (a b : Address) : Range := ⟨a, b - a⟩

theorem Range.between_lo (a b) : (Range.between a b).lo = a.toNat := rfl

variable {a b start stop : Address} {range : Range}

theorem Range.between_hi (h : a.toNat ≤ b.toNat) : (Range.between a b).hi = b.toNat :=
  Range.hi_endpoints (BitVec.le_def.2 h)

theorem Range.between_proper (h : a.toNat < b.toNat) : (Range.between a b).Proper := by
  have hhi := between_hi (le_of_lt h)
  exact ⟨by rw [hhi, between_lo]; exact h, by rw [hhi]; exact b.isLt⟩

theorem Range.fromEndpoints_between (h : a.toNat ≤ b.toNat) : Range.fromEndpoints a b = .ok (Range.between a b) :=
  Range.fromEndpoints_eq (BitVec.le_def.2 h)

theorem Range.covers_between (h : a.toNat ≤ b.toNat) (p) :
    (Range.between a b).Covers p ↔ a.toNat ≤ p ∧ p < b.toNat := by
  unfold Range.Covers
  rw [between_hi h, between_lo]

namespace IntervalTree

namespace Represents

variable {total : Range} {t : IntervalTree} {m : Multiset Range}

theorem add_between (h : Represents total t m) (hab : a.toNat < b.toNat) (ha : total.lo ≤ a.toNat)
    (hb : b.toNat ≤ total.hi) (n) :
    ∃ t', t.addEndpoints (n + 65) a b = .ok t' ∧ Represents total t' (Range.between a b ::ₘ m) := by
  have hp := between_proper hab
  have hc : total.contains (between a b) = true := by
    rw [contains_iff h.nonWrapping hp.2]
    exact ⟨ha, by rw [between_hi (le_of_lt hab)]; exact hb⟩
  obtain ⟨t', ht, hr⟩ := h.add (.inl hp) n
  rw [hc] at ht
  rw [if_pos hc] at hr
  refine ⟨t', ?_, hr⟩
  rw [IntervalTree.addEndpoints, ok_bind (fromEndpoints_between (le_of_lt hab)), ok_bind ht]
  rfl

/-! ## Splitting -/

/-- `splitAt` cuts the only range around the point, or leaves the ranges as they are. -/
theorem splitAt (h : Represents total t m) (point) (n) :
    ∃ b t' m', t.splitAt (n + 65) point = .ok (b, t') ∧ Represents total t' m' ∧
      ((m' = m ∧ (total.Covers point.toNat → ∀ r, m.filter (·.Covers point.toNat) = {r} → r.lo = point.toNat)) ∨
        ∃ r ∈ m, r.lo < point.toNat ∧ point.toNat < r.hi ∧
          m' = Range.between point r.getEnd ::ₘ Range.between r.start point ::ₘ m.erase r) := by
  by_cases hc : t.tree.getTotalRange.containsPoint point = false
  · refine ⟨false, t, m, if_pos hc, h, .inl ⟨rfl, fun hv => ?_⟩⟩
    rw [h.getTotalRange, Bool.eq_false_iff] at hc
    exact absurd ((containsPoint_iff h.nonWrapping point).2 hv) hc
  · have hf := h.findOverlappingPoint point
    unfold IntervalTree.splitAt
    rw [if_neg hc]
    rcases hl : t.findOverlappingPoint point with _ | ⟨r, _ | ⟨r', rest⟩⟩
    · refine ⟨false, t, m, rfl, h, .inl ⟨rfl, fun _ r hr => ?_⟩⟩
      rw [hl, hr] at hf
      exact absurd hf.symm (singleton_ne_zero r)
    · rw [hl, coe_singleton] at hf
      have hm : r ∈ m.filter (·.Covers point.toNat) := by rw [← hf]; simp
      obtain ⟨hr, hv⟩ := mem_filter.1 hm
      obtain ⟨hp, his⟩ := h.mem hr
      have he := toNat_getEnd hp.2
      by_cases hs : point = r.start
      · refine ⟨true, t, m, by simp [hs], h, .inl ⟨rfl, fun _ s hs' => ?_⟩⟩
        have : r = s := by rw [← hf] at hs'; simpa using hs'
        rw [← this, hs]; rfl
      · have hlt : r.start.toNat < point.toNat := by
          have : r.start.toNat ≤ point.toNat := hv.1
          have : r.start.toNat ≠ point.toNat := fun e => hs (BitVec.eq_of_toNat_eq e).symm
          omega
        have hgt : point.toNat < r.getEnd.toNat := by rw [he]; exact hv.2
        have hne : point ≠ r.getEnd := fun e => by rw [← e] at hgt; omega
        obtain ⟨t1, h1, hr1⟩ := h.remove r
        obtain ⟨t2, h2, hr2⟩ := hr1.add_between hlt his.1 (by have := his.2; omega) n
        obtain ⟨t3, h3, hr3⟩ := hr2.add_between hgt (by have := his.1; unfold lo at *; omega)
          (by rw [he]; exact his.2) n
        refine ⟨true, t3, _, ?_, hr3, .inr ⟨r, hr, hlt, hv.2, rfl⟩⟩
        simp only [bne_iff_ne, ne_eq, hs, hne, not_false_eq_true, Bool.and_eq_true, and_self, if_true]
        rw [ok_bind h1, ok_bind h2, ok_bind h3]
        rfl
    · refine ⟨false, t, m, rfl, h, .inl ⟨rfl, fun _ s hs => ?_⟩⟩
      rw [hl, hs] at hf
      have := congrArg card hf
      simp at this

theorem splitAt_coverage (h : Represents total t m) (point) (n : Nat) :
    ∃ b t' m', t.splitAt (n + 65) point = .ok (b, t') ∧ Represents total t' m' ∧
      ∀ p, Range.coverage m' p = Range.coverage m p := by
  obtain ⟨b, t', m', ht, hp, hm | ⟨r, hr, hlo, hhi, rfl⟩⟩ := h.splitAt point n
  · exact ⟨b, t', m', ht, hp, fun p => by rw [hm.1]⟩
  · refine ⟨b, t', _, ht, hp, fun p => ?_⟩
    have he : r.getEnd.toNat = r.hi := toNat_getEnd (h.mem hr).1.2
    have hl' : r.start.toNat < point.toNat := hlo
    have hc : r.Covers p ↔ r.start.toNat ≤ p ∧ p < r.hi := Iff.rfl
    simp only [Range.coverage, coverage_cons, coverage_erase Range.Covers hr p,
      Range.covers_between (le_of_lt hl'), Range.covers_between (show point.toNat ≤ r.getEnd.toNat by omega),
      he, hc]
    split_ifs <;> omega

/-! ## Subtracting -/

/-- What is left of `r` when the window from `start` to `stop` is cut out of it. -/
def pieces (start stop : Address) (r : Range) : Multiset Range :=
  (if stop < r.getEnd then {Range.between stop r.getEnd} else 0) +
    (if r.start < start then {Range.between r.start start} else 0)

theorem coverage_pieces {r} (hr : r.NonWrapping) (h1 : r.lo < stop.toNat) (h2 : start.toNat < r.hi)
    (h3 : start.toNat ≤ stop.toNat) (p : Nat) : Range.coverage (pieces start stop r) p =
      if r.Covers p ∧ ¬ (start.toNat ≤ p ∧ p < stop.toNat) then 1 else 0 := by
  have he := Range.toNat_getEnd hr
  have hc : r.Covers p ↔ r.start.toNat ≤ p ∧ p < r.hi := Iff.rfl
  have h1' : r.start.toNat < stop.toNat := h1
  have hh : coverage (if stop < r.getEnd then {between stop r.getEnd} else 0) p =
      if stop.toNat ≤ p ∧ p < r.hi then 1 else 0 := by
    by_cases hs : stop < r.getEnd
    · have hle := le_of_lt (BitVec.lt_def.1 hs)
      rw [if_pos hs, ← Multiset.cons_zero, Range.coverage, coverage_cons, Lib.coverage_zero]
      simp only [Range.covers_between hle, he, zero_add]
    · rw [if_neg hs, if_neg]
      · exact Lib.coverage_zero _ p
      · rw [BitVec.lt_def] at hs; omega
  have hlo : coverage (if r.start < start then {between r.start start} else 0) p =
      if r.start.toNat ≤ p ∧ p < start.toNat then 1 else 0 := by
    by_cases hs : r.start < start
    · have hle := le_of_lt (BitVec.lt_def.1 hs)
      rw [if_pos hs, ← Multiset.cons_zero, Range.coverage, coverage_cons, Lib.coverage_zero]
      simp only [Range.covers_between hle, zero_add]
    · rw [if_neg hs, if_neg]
      · exact Lib.coverage_zero _ p
      · rw [BitVec.lt_def] at hs; omega
  rw [pieces, Range.coverage, Lib.coverage_add]
  unfold Range.coverage at hh hlo
  rw [hh, hlo]
  simp only [hc]
  split_ifs <;> omega

theorem subtractOne {r} (h : Represents total t (r ::ₘ m)) (h1 : r.lo < stop.toNat) (h2 : start.toNat < r.hi)
    (n) : ∃ t', IntervalTree.subtractOne (n + 65) start stop t r = .ok t' ∧
      Represents total t' (pieces start stop r + m) := by
  obtain ⟨hp, his⟩ := h.mem (mem_cons_self r m)
  have he := toNat_getEnd hp.2
  have hi1 := his.1
  have hi2 := his.2
  obtain ⟨t1, ht1, hr1⟩ := h.remove r
  rw [erase_cons_head] at hr1
  obtain ⟨t2, ht2, hr2⟩ : ∃ t2, (if r.start < start then t1.addEndpoints (n + 65) r.start start else .ok t1) =
      .ok t2 ∧ Represents total t2 ((if r.start < start then {between r.start start} else 0) + m) := by
    by_cases hs : r.start < start
    · obtain ⟨t2, ht2, hr2⟩ := hr1.add_between (BitVec.lt_def.1 hs) hi1 (by omega) n
      rw [if_pos hs, if_pos hs, singleton_add]
      exact ⟨t2, ht2, hr2⟩
    · rw [if_neg hs, if_neg hs, zero_add]
      exact ⟨t1, rfl, hr1⟩
  rw [IntervalTree.subtractOne, ok_bind ht1]
  dsimp only
  rw [ok_bind ht2, pieces, add_assoc]
  by_cases hs : stop < r.getEnd
  · obtain ⟨t3, ht3, hr3⟩ := hr2.add_between (BitVec.lt_def.1 hs) (by omega) (by omega) n
    rw [if_pos hs, if_pos hs, singleton_add]
    exact ⟨t3, ht3, hr3⟩
  · rw [if_neg hs, if_neg hs, zero_add]
    exact ⟨t2, rfl, hr2⟩

theorem subtractAll (n) : ∀ (l : List Range) {t : IntervalTree} {m : Multiset Range},
    Represents total t (↑l + m) → (∀ r ∈ l, r.lo < stop.toNat ∧ start.toNat < r.hi) →
      ∃ t', l.foldlM (IntervalTree.subtractOne (n + 65) start stop) t = .ok t' ∧
        Represents total t' ((l : Multiset Range).bind (pieces start stop) + m)
  | [], t, m, h, _ => ⟨t, rfl, by simpa using h⟩
  | r :: l, t, m, h, hl => by
    rw [List.forall_mem_cons] at hl
    rw [← cons_coe, cons_add] at h
    obtain ⟨t1, h1, hr1⟩ := h.subtractOne hl.1.1 hl.1.2 n
    rw [add_left_comm] at hr1
    obtain ⟨t2, h2, hr2⟩ := subtractAll n l hr1 hl.2
    refine ⟨t2, by rw [List.foldlM_cons, ok_bind h1, h2], ?_⟩
    rw [← cons_coe, cons_bind]
    rwa [add_left_comm, ← add_assoc] at hr2

theorem coverage_bind_pieces (h3 : start.toNat ≤ stop.toNat) (p) :
    ∀ l : List Range, (∀ r ∈ l, r.NonWrapping ∧ r.lo < stop.toNat ∧ start.toNat < r.hi) →
      Range.coverage ((l : Multiset Range).bind (pieces start stop)) p =
        if start.toNat ≤ p ∧ p < stop.toNat then 0 else Range.coverage l p
  | [], _ => by simp [Range.coverage, Lib.coverage]
  | r :: l, hl => by
    rw [List.forall_mem_cons] at hl
    have ih := coverage_bind_pieces h3 p l hl.2
    have hr := coverage_pieces hl.1.1 hl.1.2.1 hl.1.2.2 h3 p
    rw [← cons_coe, cons_bind]
    unfold Range.coverage at *
    rw [Lib.coverage_add, coverage_cons, hr, ih]
    split_ifs <;> first | omega | simp_all

/-- Of the ranges that overlap `range` only what is outside the window, extended at its end to `stop`, stays. -/
theorem subtractWindow_coverage (h : Represents total t m) (hr : range.Proper) (stop)
    (hs : range.hi ≤ stop.toNat) (n) :
    ∃ t' m', (t.findOverlapping range).foldlM (IntervalTree.subtractOne (n + 65) range.start stop) t = .ok t' ∧
      Represents total t' m' ∧ ∀ p, Range.coverage m' p = (if range.lo ≤ p ∧ p < stop.toNat then 0 else
        Range.coverage (m.filter (·.overlaps range = true)) p) +
          Range.coverage (m.filter (¬ ·.overlaps range = true)) p := by
  have hf := h.findOverlapping range
  have hl : ∀ r ∈ t.findOverlapping range, r.NonWrapping ∧ r.lo < stop.toNat ∧ range.start.toNat < r.hi := by
    intro r hm
    rw [← mem_coe, hf, mem_filter] at hm
    have hp := (h.mem hm.1).1
    obtain ⟨ho1, ho2⟩ := (overlaps_iff hp.2 hr.2).1 hm.2
    exact ⟨hp.2, by omega, ho1⟩
  rw [← filter_add_not (·.overlaps range = true) m, ← hf] at h
  obtain ⟨t', ht', hrp⟩ := subtractAll n _ h (fun r hr => (hl r hr).2)
  have hlo := le_trans (le_of_lt hr.1) hs
  refine ⟨t', _, ht', hrp, fun p => ?_⟩
  rw [← hf]
  refine (Lib.coverage_add ..).trans (congrArg (· + _) ?_)
  exact coverage_bind_pieces hlo p _ hl

theorem coverage_overlapping (h : Represents total t m) (hr : range.Proper) (p) :
    Range.coverage m p = Range.coverage (m.filter (·.overlaps range = true)) p +
        Range.coverage (m.filter (¬ ·.overlaps range = true)) p ∧
      (range.Covers p → Range.coverage (m.filter (¬ ·.overlaps range = true)) p = 0) := by
  constructor
  · rw [Range.coverage, ← Lib.coverage_add, Multiset.filter_add_not]
  · intro hp
    apply Nat.eq_zero_of_not_pos
    rw [Range.coverage, coverage_pos]
    rintro ⟨r, hm, hrp⟩
    rw [Multiset.mem_filter] at hm
    exact hm.2 ((overlaps_iff_exists (h.mem hm.1).1 hr).2 ⟨p, hrp, hp⟩)

/-- Nothing of `range` stays covered, nothing outside the window changes, and no address gains. -/
theorem subtractWindow (h : Represents total t m) (hr : range.Proper) (stop) (hs : range.hi ≤ stop.toNat) (n) :
    ∃ t' m', (t.findOverlapping range).foldlM (IntervalTree.subtractOne (n + 65) range.start stop) t = .ok t' ∧
      Represents total t' m' ∧ (∀ p, Range.coverage m' p ≤ Range.coverage m p) ∧
      (∀ p, range.Covers p → Range.coverage m' p = 0) ∧
      (∀ p, ¬ (range.lo ≤ p ∧ p < stop.toNat) → Range.coverage m' p = Range.coverage m p) := by
  obtain ⟨t', m', ht', hrp, hc⟩ := h.subtractWindow_coverage hr stop hs n
  refine ⟨t', m', ht', hrp, fun p => ?_, fun p hp => ?_, fun p hp => ?_⟩
  · rw [hc, (h.coverage_overlapping hr p).1]
    split_ifs <;> omega
  · rw [hc, if_pos ⟨hp.1, lt_of_lt_of_le hp.2 hs⟩, (h.coverage_overlapping hr p).2 hp]
  · rw [hc, if_neg hp, (h.coverage_overlapping hr p).1]

theorem addAll (n) : ∀ l {t} {m}, Represents total t m → (∀ r ∈ l, r.Proper ∨ total.contains r = false) →
      ∃ t', t.addAll (n + 65) l = .ok t' ∧ Represents total t' (↑(l.filter (total.contains ·)) + m)
  | [], t, m, h, _ => ⟨t, rfl, by simpa using h⟩
  | r :: l, t, m, h, hl => by
    rw [List.forall_mem_cons] at hl
    obtain ⟨t1, h1, hr1⟩ := h.add hl.1 n
    obtain ⟨t2, h2, hr2⟩ := addAll n l hr1 hl.2
    refine ⟨t2, ?_, ?_⟩
    · unfold IntervalTree.addAll at *
      rw [List.foldlM_cons, h1]
      exact h2
    · rw [List.filter_cons]
      split_ifs at hr2 ⊢
      · rw [← cons_coe, cons_add]
        rwa [add_cons] at hr2
      · exact hr2

end Represents

end IntervalTree

end Egalito
