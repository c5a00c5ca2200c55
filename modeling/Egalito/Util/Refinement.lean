/-
`IntervalTree` against its specification, a multiset of ranges: any sequence of `add` and `remove` calls answers as the
multiset does, exactly when no `add` is handed a range that wraps and still passes `Range::contains`.

One call is a step of both, and `refinesBag_iff` follows by induction on the sequence.
-/
import Egalito.Util.Contents

namespace Egalito.IntervalTree

open IntervalTreeNode
open Range Except

/-- `t` is a well-formed tree over `total` that holds the ranges of `m`. -/
structure Represents (total : Range) (t : IntervalTree) (m : Multiset Range) : Prop where
  wf : WF total.lo total.hi t.tree
  root : t.tree ≠ .null
  contents : t.tree.contents = m

namespace Represents

variable {total : Range} {t : IntervalTree} {m : Multiset Range}

section

variable (h : Represents total t m)
include h

theorem root_eq : total.NonWrapping ∧ t.tree.getTotalRange = total := by
  obtain ⟨tree⟩ := t
  obtain ⟨hw, hr, -⟩ := h
  cases hw with
  | null => exact absurd rfl hr
  | node lo hi bound => exact ⟨bound, ext_lo_hi lo hi⟩

theorem nonWrapping : total.NonWrapping := h.root_eq.1

theorem getTotalRange : t.tree.getTotalRange = total := h.root_eq.2

theorem mem {r} (hr : r ∈ m) : r.Proper ∧ r.Inside total :=
  h.wf.mem r (h.contents ▸ hr)

theorem add {r} (hr : r.Proper ∨ total.contains r = false) (n) :
    ∃ t', t.add (n + 65) r = .ok (total.contains r, t') ∧
      Represents total t' (if total.contains r then r ::ₘ m else m) := by
  by_cases hc : total.contains r = true
  · have hp : r.Proper := hr.resolve_right (by simp [hc])
    obtain ⟨hlo, hhi⟩ := (Range.contains_iff h.nonWrapping hp.2).1 hc
    have hs : total.hi - total.lo ≤ 2 ^ (n + 64) := by
      have : total.hi < 2 ^ 64 := h.nonWrapping
      have : 2 ^ 64 ≤ 2 ^ (n + 64) := Nat.pow_le_pow_right (by omega) (by omega)
      omega
    obtain ⟨tree, ht, hne, hwf, hct⟩ := add_inside hp (n + 64) _ _ t.tree h.wf h.root hs hlo hhi
    refine ⟨⟨tree⟩, ?_, hwf, hne, ?_⟩
    · simp [IntervalTree.add, ht, hc, bind, Except.bind, pure, Except.pure]
    · rw [if_pos hc, hct, h.contents]
  · have hc' : total.contains r = false := by simpa using hc
    refine ⟨t, ?_, ?_⟩
    · have ho : t.tree.getTotalRange.contains r = false := by rw [h.getTotalRange, hc']
      have := add_outside h.root ho (n + 64)
      simp [IntervalTree.add, this, hc', bind, Except.bind, pure, Except.pure]
    · rwa [if_neg hc]

theorem add_diverges {r} (hr : ¬ r.Proper) (hc : total.contains r = true) (fuel) :
    t.add fuel r = .error .diverged := by
  have := IntervalTreeNode.add_diverges hr fuel _ _ t.tree h.wf h.root (by rw [h.getTotalRange, hc])
  simp [IntervalTree.add, this, bind, Except.bind]

end

/-- A range of the total range can be added exactly if it is not empty. -/
theorem add_returns_iff (h : Represents total t m) {r : Range} (hr : r.Inside total) :
    (∃ fuel answer t', t.add fuel r = .ok (answer, t')) ↔ r.NonEmpty := by
  have hwp := lt_of_le_of_lt hr.2 h.nonWrapping
  constructor
  · rintro ⟨fuel, answer, t', hadd⟩
    by_contra hep
    have hpp : ¬ r.Proper := fun hp => hep ((proper_iff r).mp hp).1
    rw [h.add_diverges hpp ((contains_iff h.nonWrapping hwp).mpr hr)] at hadd
    cases hadd
  · intro hne
    obtain ⟨t', hadd, -⟩ := h.add (.inl ((proper_iff r).mpr ⟨hne, hwp⟩)) 0
    exact ⟨_, _, t', hadd⟩

section

variable (h : Represents total t m)
include h

theorem remove (r) : ∃ t', t.remove r = .ok (decide (r ∈ m), t') ∧ Represents total t' (m.erase r) := by
  obtain ⟨tree, ht, hwf, hc, hn⟩ := IntervalTreeNode.remove_spec r h.wf
  refine ⟨⟨tree⟩, ?_, hwf, fun e => h.root (hn.1 e), by rw [hc, h.contents]⟩
  simp [IntervalTree.remove, ht, h.contents, bind, Except.bind, pure, Except.pure]

theorem getAllData : (t.getAllData : Multiset Range) = m := h.contents

theorem findOverlappingPoint (p) : (t.findOverlappingPoint p : Multiset Range) = m.filter (·.Covers p.toNat) := by
  rw [← h.contents]
  refine (findOverlappingPoint_spec p h.wf).trans (Multiset.filter_congr fun r hr => ?_)
  exact containsPoint_iff (h.wf.mem r hr).1.2 p

theorem findOverlapping (q) : (t.findOverlapping q : Multiset Range) = m.filter (·.overlaps q = true) := by
  rw [← h.contents]
  exact findOverlapping_spec q h.wf

end

end Represents

theorem make_represents {total} (h : total.NonWrapping) : Represents total (make total) 0 :=
  ⟨make_wf h, by simp [make, IntervalTreeNode.make], rfl⟩

theorem add_returns_iff_one : (∃ fuel answer t', (make ⟨5, 1⟩).add fuel ⟨5, 1⟩ = .ok (answer, t')) ↔ (Range.mk 5 1).NonEmpty :=
  (make_represents (by decide)).add_returns_iff (by decide)

/-- An empty range ends at or before every midpoint from its start on, and is handed down for ever. -/
theorem add_empty_diverges : (Range.mk 5 0).Inside ⟨5, 1⟩ ∧ ∀ fuel, (make ⟨5, 1⟩).add fuel ⟨5, 0⟩ = .error .diverged :=
  ⟨by decide, (make_represents (by decide)).add_diverges (by decide) (by decide)⟩

/-! ## Sequences of calls -/

inductive Op where
  | add (range : Range)
  | remove (range : Range)
  deriving DecidableEq, Repr

def Op.range : Op → Range
  | .add r => r
  | .remove r => r

def runOp (fuel : Nat) (t : IntervalTree) : Op → Except Failure (Bool × IntervalTree)
  | .add r => t.add fuel r
  | .remove r => t.remove r

/-- The answers of a sequence of calls and the tree it leaves. -/
def runOps (fuel : Nat) (t : IntervalTree) : List Op → Except Failure (List Bool × IntervalTree)
  | [] => .ok ([], t)
  | op :: ops => do
    let (answer, t) ← runOp fuel t op
    let (answers, t) ← runOps fuel t ops
    return (answer :: answers, t)

def bagOp (total : Range) (m : Multiset Range) : Op → Bool × Multiset Range
  | .add r => if r.Inside total then (true, r ::ₘ m) else (false, m)
  | .remove r => (decide (r ∈ m), m.erase r)

def bagOps (total : Range) (m : Multiset Range) : List Op → List Bool × Multiset Range
  | [] => ([], m)
  | op :: ops =>
    let (answer, m) := bagOp total m op
    let (answers, m) := bagOps total m ops
    (answer :: answers, m)

/-- The queries of the tree are those of the multiset. -/
structure Matches (t : IntervalTree) (m : Multiset Range) : Prop where
  data : (t.getAllData : Multiset Range) = m
  points : ∀ p : Address, (t.findOverlappingPoint p : Multiset Range) = m.filter (·.Covers p.toNat)
  ranges : ∀ q : Range, (t.findOverlapping q : Multiset Range) = m.filter (·.overlaps q = true)
  shared : ∀ q : Range, q.Proper →
    ∀ r, r ∈ t.findOverlapping q ↔ r ∈ m ∧ ∃ p, r.Covers p ∧ q.Covers p

/-- The sequence of calls on a new tree returns, with the answers of the multiset and a tree
whose queries are those of the multiset. -/
def RefinesBag (total : Range) (ops : List Op) : Prop :=
  ∃ n, ∀ fuel, n ≤ fuel → ∃ t, runOps fuel (make total) ops = .ok ((bagOps total 0 ops).1, t) ∧
    Matches t (bagOps total 0 ops).2

/-- The condition on one call: an added range does not wrap, or is rejected. -/
def Op.Storable (total : Range) : Op → Prop
  | .add r => r.NonWrapping ∨ total.contains r = false
  | .remove _ => True

theorem Represents.matches {total t m} (h : Represents total t m) : Matches t m := by
  refine ⟨h.getAllData, h.findOverlappingPoint, h.findOverlapping, fun q hq r => ?_⟩
  rw [← Multiset.mem_coe, h.findOverlapping q, Multiset.mem_filter]
  exact and_congr_right fun hr => overlaps_iff_exists (h.mem hr).1 hq

theorem contains_eq_inside {total r : Range} (ht : total.NonWrapping)
    (hr : r.NonWrapping ∨ total.contains r = false) : total.contains r = decide (r.Inside total) := by
  by_cases hw : r.NonWrapping
  · rw [Bool.eq_iff_iff, contains_iff ht hw, decide_eq_true_iff]
  · have ho : ¬ r.Inside total := by
      unfold Range.Inside Range.NonWrapping at *; omega
    rw [hr.resolve_left hw, decide_eq_false ho]

/-- One call: the tree answers as the multiset and represents what the multiset becomes. -/
theorem runOp_spec {total t m} (h : Represents total t m)
    {op} (hne : op.range.NonEmpty) (hs : op.Storable total) (n : Nat) :
    ∃ t', runOp (n + 65) t op = .ok ((bagOp total m op).1, t') ∧ Represents total t' (bagOp total m op).2 := by
  cases op with
  | add r =>
    have hr : r.Proper ∨ total.contains r = false :=
      hs.imp_left fun hw => (proper_iff r).2 ⟨hne, hw⟩
    obtain ⟨t', ht, hp⟩ := h.add hr n
    refine ⟨t', ?_, ?_⟩ <;> rw [contains_eq_inside h.nonWrapping hs] at *
    · simp only [runOp, ht, bagOp]
      split <;> simp [*]
    · simp only [bagOp]
      split <;> simp_all
  | remove r => exact h.remove r

theorem runOps_spec {total} (n) : ∀ {ops t m},
    Represents total t m → (∀ op ∈ ops, op.range.NonEmpty) → (∀ op ∈ ops, op.Storable total) →
      ∃ t', runOps (n + 65) t ops = .ok ((bagOps total m ops).1, t') ∧ Represents total t' (bagOps total m ops).2
  | [], t, m, h, _, _ => ⟨t, rfl, h⟩
  | op :: ops, t, m, h, hne, hs => by
    rw [List.forall_mem_cons] at hne hs
    obtain ⟨t1, h1, hr1⟩ := runOp_spec h hne.1 hs.1 n
    obtain ⟨t2, h2, hr2⟩ := runOps_spec n hr1 hne.2 hs.2
    refine ⟨t2, ?_, hr2⟩
    simp [runOps, h1, h2, bagOps, bind, Except.bind, pure, Except.pure]

/-- The first call outside the condition never returns. -/
theorem runOps_diverges {total} (n) : ∀ {ops t m},
    Represents total t m → (∀ op ∈ ops, op.range.NonEmpty) → ¬ (∀ op ∈ ops, op.Storable total) →
      runOps (n + 65) t ops = .error .diverged
  | [], _, _, _, _, hs => absurd (by simp) hs
  | op :: ops, t, m, h, hne, hs => by
    rw [List.forall_mem_cons] at hne hs
    by_cases h1 : op.Storable total
    · obtain ⟨t1, ht, hr1⟩ := runOp_spec h hne.1 h1 n
      have := runOps_diverges n hr1 hne.2 (fun h2 => hs ⟨h1, h2⟩)
      simp [runOps, ht, this, bind, Except.bind]
    · cases op with
      | add r =>
        simp only [Op.Storable, not_or, Bool.not_eq_false] at h1
        have := h.add_diverges (fun hp => h1.1 hp.2) h1.2 (n + 65)
        simp [runOps, runOp, this, bind, Except.bind]
      | remove r => exact absurd trivial h1

/-- A sequence of calls with non-empty ranges refines the multiset exactly when every added
range that passes `Range::contains` ends inside the address space. -/
theorem refinesBag_iff {total : Range} (ht : total.NonWrapping) {ops : List Op}
    (hne : ∀ op ∈ ops, op.range.NonEmpty) :
    RefinesBag total ops ↔ ∀ r, .add r ∈ ops → r.NonWrapping ∨ total.contains r = false := by
  have hcd : (∀ r, .add r ∈ ops → r.NonWrapping ∨ total.contains r = false) ↔
      ∀ op ∈ ops, op.Storable total := by
    refine ⟨fun h op hop => ?_, fun h r hr => h _ hr⟩
    cases op with
    | add r => exact h r hop
    | remove r => trivial
  rw [hcd]
  constructor
  · rintro ⟨n, hn⟩
    by_contra hs
    obtain ⟨t, hrun, -⟩ := hn (n + 65) (by omega)
    rw [runOps_diverges n (make_represents ht) hne hs] at hrun
    cases hrun
  · intro hs
    refine ⟨65, fun fuel hfl => ?_⟩
    obtain ⟨n, rfl⟩ : ∃ n, fuel = n + 65 := ⟨fuel - 65, by omega⟩
    obtain ⟨t, hrun, hrp⟩ := runOps_spec n (make_represents ht) hne hs
    exact ⟨t, hrun, hrp.matches⟩

theorem refinesBag_iff_add_remove :
    RefinesBag ⟨0, 100⟩ [.add ⟨5, 10⟩, .add ⟨200, 1⟩, .remove ⟨5, 10⟩] ↔
      ∀ r, .add r ∈ [Op.add ⟨5, 10⟩, .add ⟨200, 1⟩, .remove ⟨5, 10⟩] →
        r.NonWrapping ∨ (Range.mk 0 100).contains r = false :=
  refinesBag_iff (by decide) (by decide)

/-- A range of 2^64 - 1 bytes from address 5 ends, computed, at 4, and passes the containment test: `add` never answers.
    -/
theorem not_refinesBag_wrapping_add :
    (Range.mk 0 100).NonWrapping ∧ (Range.mk 5 (-1)).NonEmpty ∧
      (∀ fuel, runOps fuel (make ⟨0, 100⟩) [.add ⟨5, -1⟩] = .error .diverged) ∧
      ¬ RefinesBag ⟨0, 100⟩ [.add ⟨5, -1⟩] := by
  have hrun : ∀ fuel, runOps fuel (make ⟨0, 100⟩) [.add ⟨5, -1⟩] = .error .diverged := by
    intro fuel
    have hrp : Represents ⟨0, 100⟩ (make ⟨0, 100⟩) 0 := make_represents (by decide)
    have hadd := hrp.add_diverges (r := ⟨5, -1⟩) (by decide) (by decide) fuel
    simp only [runOps, runOp, hadd, bind, Except.bind]
  refine ⟨by decide, by decide, hrun, ?_⟩
  rintro ⟨n, hn⟩
  obtain ⟨t, ht, -⟩ := hn n le_rfl
  rw [hrun] at ht
  cases ht

end Egalito.IntervalTree
