/-
The queries of `IntervalTree` for bounds, and `complement`.

The four searches for a bound and `subtract` are exact for every tree; `complement` is exact if no range comes after a
gap that it covers a part of.
-/
import Egalito.Util.TreeOps

namespace Egalito

open Lib IntervalTreeNode List

/-- The best of those that satisfy a condition, if there is one. -/
def BestIn {α : Type} (S : Set α) (good : α → Prop) (le : α → α → Prop) : Option α → Prop
  | some b => b ∈ S ∧ good b ∧ ∀ r ∈ S, good r → le r b
  | none => ∀ r ∈ S, ¬ good r

theorem bestIn_find? {α : Type} {p} {good} {le} {l : List α}
    (hl : l.Pairwise fun r s => le s r) (hrl : ∀ r, le r r) (hp : ∀ r ∈ l, p r = true ↔ good r) :
    BestIn {r | r ∈ l} good le (l.find? p) := by
  cases hf : l.find? p with
  | none => exact fun r hr hg => find?_eq_none.1 hf r hr ((hp r hr).2 hg)
  | some b =>
    have hb := mem_of_find?_eq_some hf
    obtain ⟨ht, pre, post, rfl, hbf⟩ := find?_eq_some_iff_append.1 hf
    refine ⟨hb, (hp b hb).1 ht, fun r hr hg => ?_⟩
    rcases mem_append.1 hr with hr' | hr'
    · exact absurd ((hp r hr).2 hg) (by simpa using hbf r hr')
    · rcases mem_cons.1 hr' with rfl | hr'
      · exact hrl r
      · exact (pairwise_cons.1 (pairwise_append.1 hl).2.1).1 r hr'

/-! ## Disjoint ranges -/

variable {good : Range → Prop} {r : Range} {le : Range → Range → Prop} {stop : Nat}

theorem apart_of_coverage (m₁ m₂) (hd : ∀ p, Range.coverage m₁ p + Range.coverage m₂ p ≤ 1) {s}
    (hr : r ∈ m₁) (hs : s ∈ m₂) (hp : r.lo < r.hi) (hsp : s.lo < s.hi) : r.hi ≤ s.lo ∨ s.hi ≤ r.lo := by
  by_contra hmeet
  have h1 := (coverage_pos Range.Covers).2 ⟨r, hr, (by omega : r.lo ≤ max r.lo s.lo), by omega⟩
  have h2 := (coverage_pos Range.Covers).2 ⟨s, hs, (by omega : s.lo ≤ max r.lo s.lo), by omega⟩
  have := hd (max r.lo s.lo)
  unfold Range.coverage at this
  omega

namespace IntervalTreeNode

theorem before_or_contains_iff (h : r.Proper) (p) : (r.before p || r.containsPoint p) = true ↔ r.lo ≤ p.toNat := by
  rw [Bool.or_eq_true, Range.before_iff h.2, Range.containsPoint_iff h.2]
  obtain ⟨h1, -⟩ := h
  unfold Range.Covers
  omega

theorem after_or_contains_iff (h : r.Proper) (p) : (r.after p || r.containsPoint p) = true ↔ p.toNat < r.hi := by
  rw [Bool.or_eq_true, Range.after_iff, Range.containsPoint_iff h.2]
  obtain ⟨h1, -⟩ := h
  unfold Range.Covers
  omega

variable {a b : Nat} {t : IntervalTreeNode}

/-- At most one range is at a node, after those of the lower child and before those of the higher one. -/
structure Node (mid : Address) (lower higher : IntervalTreeNode) (os oe : List Range) : Prop where
  same : os = oe
  single : os.Pairwise fun r s => r.hi ≤ s.lo
  below : ∀ r ∈ lower.inStartOrderTraversal, r.Proper ∧ r.hi ≤ mid.toNat ∧ ∀ s ∈ os, r.hi ≤ s.lo
  above : ∀ r ∈ higher.inStartOrderTraversal, r.Proper ∧ mid.toNat < r.lo ∧ ∀ s ∈ os, s.hi ≤ r.lo
  lowerDisjoint : ∀ p, Range.coverage (contents lower) p ≤ 1
  higherDisjoint : ∀ p, Range.coverage (contents higher) p ≤ 1

theorem WF.node_of_disjoint {total mid lower higher os oe} (hw : WF a b (.node total mid lower higher os oe))
    (hd : ∀ p, Range.coverage (contents (.node total mid lower higher os oe)) p ≤ 1) : Node mid lower higher os oe := by
  cases hw with
  | node lo hi bound midpoint wfl wfh above same ss se here =>
    simp only [contents_node, Range.coverage, coverage_add] at hd
    have hm : ∀ r ∈ os, r.Covers mid.toNat := fun r hr => ⟨(here r hr).2.1, (here r hr).2.2.1⟩
    -- all of them cover the midpoint
    have hl : os.length ≤ 1 := by
      have hc : Range.coverage (os : Multiset Range) mid.toNat = os.length := by
        rw [Range.coverage, coverage, Multiset.countP_eq_card.2 hm, Multiset.coe_card]
      have := hd mid.toNat
      unfold Range.coverage at hc
      omega
    have ho : os = [] ∨ ∃ r, os = [r] := by
      rcases os with _ | ⟨r, _ | ⟨s, os⟩⟩
      · exact .inl rfl
      · exact .inr ⟨r, rfl⟩
      · simp at hl
    refine ⟨?_, ?_, fun r hr => ?_, fun r hr => ?_, ?_, ?_⟩
    · rcases ho with rfl | ⟨r, rfl⟩
      · exact (nil_perm.1 same).symm
      · exact singleton_perm.1 same
    · rcases ho with rfl | ⟨r, rfl⟩
      · exact List.Pairwise.nil
      · exact pairwise_singleton _ r
    · obtain ⟨hr1, -, hr3⟩ := wfl.mem r hr
      refine ⟨hr1, hr3, fun s hs => ?_⟩
      have hs' := hm s hs
      have ha := apart_of_coverage (contents lower) os
        (fun p => by have := hd p; simp only [Range.coverage]; omega) hr hs hr1.1 (lt_of_le_of_lt hs'.1 hs'.2)
      have := hs'.2
      have := hr1.1
      omega
    · obtain ⟨hr1, -, -⟩ := wfh.mem r hr
      refine ⟨hr1, above r hr, fun s hs => ?_⟩
      have hs' := hm s hs
      have ha := apart_of_coverage os (contents higher)
        (fun p => by have := hd p; simp only [Range.coverage]; omega) hs hr (lt_of_le_of_lt hs'.1 hs'.2) hr1.1
      have := above r hr
      have := hs'.1
      have := hr1.1
      omega
    · intro p
      have := hd p
      unfold Range.coverage
      omega
    · intro p
      have := hd p
      unfold Range.coverage
      omega

/-- Induction over a tree of disjoint ranges. -/
@[elab_as_elim] theorem WF.disjoint_induction {motive : IntervalTreeNode → Prop} (hw : WF a b t)
    (hd : ∀ p, Range.coverage (contents t) p ≤ 1) (null : motive .null)
    (node : ∀ {total mid lower higher os oe}, Node mid lower higher os oe → motive lower → motive higher →
      motive (.node total mid lower higher os oe)) : motive t := by
  induction hw with
  | null => exact null
  | node lo hi bound midpoint wfl wfh above same ss se here ihl ihh =>
    have hn := (WF.node lo hi bound midpoint wfl wfh above same ss se here).node_of_disjoint hd
    exact node hn (ihl hn.lowerDisjoint) (ihh hn.higherDisjoint)

theorem traversal_pairwise (hw : WF a b t) (hd : ∀ p, Range.coverage (contents t) p ≤ 1) :
    t.inStartOrderTraversal.Pairwise fun r s => r.hi ≤ s.lo := by
  refine hw.disjoint_induction hd List.Pairwise.nil fun hn ihl ihh => ?_
  rw [inStartOrderTraversal, pairwise_append, pairwise_append]
  refine ⟨⟨ihl, hn.single, fun r hr => (hn.below r hr).2.2⟩, ihh, fun r hr s hs => ?_⟩
  rcases mem_append.1 hr with hr | hr
  · have := (hn.below r hr).2.1
    have := (hn.above s hs).2.1
    omega
  · exact (hn.above s hs).2.2 r hr

section
variable {p : Range → Bool} {mid : Address} {lower higher : IntervalTreeNode} {os oe : List Range} {total : Range}

theorem find?_down (hn : Node mid lower higher os oe) {point} (hp : ∀ r, r.Proper → point.toNat < r.lo → p r = false) :
    ((if mid ≤ point then higher.inStartOrderTraversal.reverse.find? p else none) <|>
      oe.reverse.find? p <|> lower.inStartOrderTraversal.reverse.find? p) =
    (node total mid lower higher os oe).inStartOrderTraversal.reverse.find? p := by
  have hh : (if mid ≤ point then higher.inStartOrderTraversal.reverse.find? p else none) =
      higher.inStartOrderTraversal.reverse.find? p := by
    split
    · rfl
    · next hlt =>
      symm
      rw [find?_eq_none]
      intro r hr
      obtain ⟨hpp, hm, -⟩ := hn.above r (mem_reverse.1 hr)
      rw [BitVec.le_def] at hlt
      simp [hp r hpp (by omega)]
  rw [hh, ← hn.same, inStartOrderTraversal, reverse_append, reverse_append, find?_append,
    find?_append]
  simp

theorem find?_up (hn : Node mid lower higher os oe) {point} (hp : ∀ r, r.Proper → r.hi ≤ point.toNat → p r = false) :
    ((if point < mid then lower.inStartOrderTraversal.find? p else none) <|>
      os.find? p <|> higher.inStartOrderTraversal.find? p) =
    (node total mid lower higher os oe).inStartOrderTraversal.find? p := by
  have hlo : (if point < mid then lower.inStartOrderTraversal.find? p else none) =
      lower.inStartOrderTraversal.find? p := by
    split
    · rfl
    · next hle =>
      symm
      rw [find?_eq_none]
      intro r hr
      obtain ⟨hpp, hm, -⟩ := hn.below r hr
      rw [BitVec.lt_def] at hle
      simp [hp r hpp (by omega)]
  rw [hlo, inStartOrderTraversal, append_assoc, find?_append, find?_append]
  simp

end

variable (hw : WF a b t) (hd : ∀ p, Range.coverage (contents t) p ≤ 1) (point : Address)

include hw hd

theorem findLowerBound_eq : t.findLowerBound point = t.inStartOrderTraversal.reverse.find? fun r => r.before point := by
  refine hw.disjoint_induction hd rfl fun hn ihl ihh => ?_
  rw [findLowerBound, ihl, ihh]
  refine find?_down hn fun r hr hlt => ?_
  rw [Bool.eq_false_iff, Ne, Range.before_iff hr.2]
  have := hr.1
  omega

theorem findLowerBoundOrOverlapping_eq : t.findLowerBoundOrOverlapping point =
    t.inStartOrderTraversal.reverse.find? fun r => r.before point || r.containsPoint point := by
  refine hw.disjoint_induction hd rfl fun hn ihl ihh => ?_
  rw [findLowerBoundOrOverlapping, ihl, ihh]
  refine find?_down hn fun r hr hlt => ?_
  rw [Bool.eq_false_iff, Ne, before_or_contains_iff hr]
  omega

theorem findUpperBound_eq : t.findUpperBound point = t.inStartOrderTraversal.find? fun r => r.after point := by
  refine hw.disjoint_induction hd rfl fun hn ihl ihh => ?_
  rw [findUpperBound, ihl, ihh]
  refine find?_up hn fun r hr hle => ?_
  rw [Bool.eq_false_iff, Ne, Range.after_iff]
  have := hr.1
  omega

theorem findUpperBoundOrOverlapping_eq : t.findUpperBoundOrOverlapping point =
    t.inStartOrderTraversal.find? fun r => r.after point || r.containsPoint point := by
  refine hw.disjoint_induction hd rfl fun hn ihl ihh => ?_
  rw [findUpperBoundOrOverlapping, ihl, ihh]
  refine find?_up hn fun r hr hle => ?_
  rw [Bool.eq_false_iff, Ne, after_or_contains_iff hr]
  omega

end IntervalTreeNode

/-! ## Bounds -/

/-- `b` is the last of the ranges that start at or below `p`. -/
structure IsLowerBound (S : Set Range) (p : Nat) (b : Range) : Prop where
  mem : b ∈ S
  le : b.lo ≤ p
  last : ∀ r ∈ S, r.lo ≤ p → r.lo ≤ b.lo

/-- The answer of a search for the last range that starts at or below `p`. -/
def LowerBoundIn (S : Set Range) (p : Nat) : Option Range → Prop
  | some b => IsLowerBound S p b
  | none => ∀ r ∈ S, p < r.lo

section
variable (m : Multiset Range) (p : Nat)

/-- The answer is the range with the greatest end not above the point. -/
def IsFloor : Option Range → Prop := BestIn {r | r ∈ m} (·.hi ≤ p) fun r b => r.hi ≤ b.hi

/-- The answer is the range with the least start above the point. -/
def IsCeiling : Option Range → Prop := BestIn {r | r ∈ m} (p < ·.lo) fun r b => b.lo ≤ r.lo

/-- The answer is the range that contains the point, or another one if there is none. -/
def OverlappingOr (other : Option Range → Prop) (answer : Option Range) : Prop :=
  (∀ r ∈ m, r.Covers p → answer = some r) ∧ ((∀ r ∈ m, ¬ r.Covers p) → other answer)

end

variable {total : Range} {t : IntervalTree} {m : Multiset Range}

theorem BestIn.covering {x p} (hx : BestIn {r | r ∈ m} good le x) (hd : Range.coverage m p ≤ 1)
    (hg : ∀ r ∈ m, r.Covers p → good r) (hle : ∀ r b, r.Covers p → good b → le r b → b.Covers p) :
    ∀ r ∈ m, r.Covers p → x = some r := by
  intro r hr hc
  cases x with
  | none => exact absurd (hg r hr hc) (hx r hr)
  | some b =>
    obtain ⟨hb, hgb, ht⟩ := hx
    have hc' := hle r b hc hgb (ht r hr (hg r hr hc))
    exact congrArg some (eq_of_coverage_le_one Range.Covers hd hb hr hc' hc)

theorem BestIn.congr {S good' le' x}
    (hx : BestIn S good le x) (h : ∀ r ∈ S, good r ↔ good' r) (hle : ∀ r b, le r b → le' r b) :
    BestIn S good' le' x := by
  cases x with
  | none => exact fun r hr hg => hx r hr ((h r hr).2 hg)
  | some b =>
    obtain ⟨hb, hg, ht⟩ := hx
    exact ⟨hb, (h b hb).1 hg, fun r hr hr' => hle r b (ht r hr ((h r hr).2 hr'))⟩

namespace IntervalTree

section
variable (h : Represents total t m) (hd : ∀ p, Range.coverage m p ≤ 1) (point : Address)

include h hd

theorem Represents.pairwise : t.getAllData.Pairwise fun r s => r.hi ≤ s.lo :=
  traversal_pairwise h.wf (by rwa [h.contents])

theorem Represents.bestIn_reverse {p : Range → Bool}
    (hle : ∀ r s : Range, r.lo ≤ r.hi → s.lo ≤ s.hi → r.hi ≤ s.lo → le r s) (hl : ∀ r, le r r)
    (hp : ∀ r, r.Proper → (p r = true ↔ good r)) : BestIn {r | r ∈ m} good le (t.getAllData.reverse.find? p) := by
  have hs : {r | r ∈ m} = {r | r ∈ t.getAllData.reverse} := by
    ext r
    simp [← h.getAllData]
  rw [hs]
  refine bestIn_find? ?_ hl fun r hr => hp r (h.mem ?_).1
  · rw [pairwise_reverse]
    exact (h.pairwise hd).imp fun {r s} hrs => hle r s r.lo_le_hi s.lo_le_hi hrs
  · rw [← h.getAllData]
    simpa using hr

theorem Represents.bestIn {p : Range → Bool} (hp : ∀ r, r.Proper → (p r = true ↔ good r)) :
    BestIn {r | r ∈ m} good (fun r b => b.lo ≤ r.lo) (t.getAllData.find? p) := by
  have hs : {r | r ∈ m} = {r | r ∈ t.getAllData} := by
    ext r
    simp [← h.getAllData]
  rw [hs]
  refine bestIn_find? ?_ (fun r => le_refl _) fun r hr => hp r (h.mem ?_).1
  · exact (h.pairwise hd).imp fun {r s} hrs => le_trans r.lo_le_hi hrs
  · rw [← h.getAllData]
    simpa using hr

theorem Represents.findLowerBoundOrOverlapping_best :
    BestIn {r | r ∈ m} (·.lo ≤ point.toNat) (fun r b => r.lo ≤ b.lo ∧ r.hi ≤ b.hi)
      (t.findLowerBoundOrOverlapping point) := by
  have heq := findLowerBoundOrOverlapping_eq h.wf (by rwa [h.contents]) point
  rw [IntervalTree.findLowerBoundOrOverlapping, heq]
  refine h.bestIn_reverse hd (fun r s hr hs hrs => ?_) (fun r => ⟨le_refl _, le_refl _⟩) fun r hr =>
    before_or_contains_iff hr point
  exact ⟨le_trans hr hrs, le_trans hrs hs⟩

theorem Represents.findLowerBoundOrOverlapping :
    LowerBoundIn {r | r ∈ m} point.toNat (t.findLowerBoundOrOverlapping point) := by
  have ht := h.findLowerBoundOrOverlapping_best hd point
  cases hx : t.findLowerBoundOrOverlapping point with
  | none =>
    rw [hx] at ht
    exact fun r hr => Nat.lt_of_not_le (ht r hr)
  | some b =>
    rw [hx] at ht
    obtain ⟨hb, hle, hlt⟩ := ht
    exact ⟨hb, hle, fun r hr hp => (hlt r hr hp).1⟩

/-- The queries for bounds on a tree of disjoint ranges. -/
theorem bounds_exact : IsFloor m point.toNat (t.findLowerBound point) ∧
    OverlappingOr m point.toNat (IsFloor m point.toNat) (t.findLowerBoundOrOverlapping point) ∧
    IsCeiling m point.toNat (t.findUpperBound point) ∧
    OverlappingOr m point.toNat (IsCeiling m point.toNat) (t.findUpperBoundOrOverlapping point) ∧
    t.getAllData.Pairwise fun r s => r.lo < s.lo := by
  have hd' : ∀ p, Range.coverage t.tree.contents p ≤ 1 := by rwa [h.contents]
  have hlo := h.findLowerBoundOrOverlapping_best hd point
  have hur : BestIn {r | r ∈ m} (point.toNat < ·.hi) (fun r b => b.lo ≤ r.lo) (t.findUpperBoundOrOverlapping point) := by
    rw [IntervalTree.findUpperBoundOrOverlapping, findUpperBoundOrOverlapping_eq h.wf hd']
    exact h.bestIn hd fun r hr => after_or_contains_iff hr point
  refine ⟨?_, ⟨?_, fun hnn => ?_⟩, ?_, ⟨?_, fun hnn => ?_⟩, ?_⟩
  · rw [IntervalTree.findLowerBound, findLowerBound_eq h.wf hd']
    exact h.bestIn_reverse hd (fun r s hr hs hrs => le_trans hrs hs) (fun r => le_refl _) fun r hr =>
      Range.before_iff hr.2 point
  · refine hlo.covering (hd _) (fun r _ hr => hr.1) fun r b hr hb hle => ⟨hb, ?_⟩
    exact lt_of_lt_of_le hr.2 hle.2
  · refine hlo.congr (fun r hr => ?_) fun r b hle => hle.2
    have hpp := (h.mem hr).1.1
    have := hnn r hr
    unfold Range.Covers at this
    omega
  · rw [IntervalTree.findUpperBound, findUpperBound_eq h.wf hd']
    exact h.bestIn hd fun r hr => Range.after_iff r point
  · refine hur.covering (hd _) (fun r _ hr => hr.2) fun r b hr hb hle => ⟨?_, hb⟩
    exact le_trans hle hr.1
  · refine hur.congr (fun r hr => ?_) fun r b hle => hle
    have hpp := (h.mem hr).1.1
    have := hnn r hr
    unfold Range.Covers at this
    omega
  · refine (h.pairwise hd).imp_of_mem fun {r s} hr _ hrs => lt_of_lt_of_le (h.mem ?_).1.1 hrs
    rwa [← h.getAllData]

end

theorem exists_twoRanges : ∃ t, runOps 65 (make ⟨0, 10⟩) [.add ⟨2, 2⟩, .add ⟨6, 2⟩] = .ok ([true, true], t) ∧
    Represents ⟨0, 10⟩ t {⟨6, 2⟩, ⟨2, 2⟩} :=
  runOps_spec 0 (make_represents (by decide)) (by decide)
    (forall_mem_cons.2 ⟨.inl (by decide), forall_mem_singleton.2 (.inl (by decide))⟩)

theorem bounds_exact_twoRanges : ∃ t, Represents ⟨0, 10⟩ t {⟨6, 2⟩, ⟨2, 2⟩} ∧
    IsFloor {⟨6, 2⟩, ⟨2, 2⟩} 4 (t.findLowerBound 4) := by
  obtain ⟨t, -, ht⟩ := exists_twoRanges
  have hd : ∀ p, Range.coverage {⟨6, 2⟩, ⟨2, 2⟩} p ≤ 1 := by
    intro p
    rw [Range.coverage, Multiset.insert_eq_cons, coverage_cons, ← Multiset.cons_zero, coverage_cons,
      coverage_zero]
    have hlo : (Range.mk 2 2).Covers p → p < 4 := And.right
    have hhh : (Range.mk 6 2).Covers p → 6 ≤ p := And.left
    split_ifs with h1 h2
    · have := hlo h1
      have := hhh h2
      omega
    all_goals omega
  exact ⟨t, ht, (bounds_exact ht hd 4).1⟩

/-- Subtracting is pointwise, and an addendum takes more only of the ranges that overlap what is subtracted. -/
theorem subtract_pointwise (h : Represents total t m) {s : Range} (hne : s.NonEmpty) (hs : s.Inside total) (n : Nat) :
    (∃ t' m', t.subtract (n + 65) s = .ok t' ∧ Represents total t' m' ∧
      ∀ p, Range.coverage m' p = if s.Covers p then 0 else Range.coverage m p) ∧
    ∀ a : Range, s.getEnd ≤ a.getEnd → ∃ t' m', t.subtractWithAddendum (n + 65) s a = .ok t' ∧ Represents total t' m' ∧
      (∀ p, s.Covers p → Range.coverage m' p = 0) ∧
      (∀ p, ¬ (s.lo ≤ p ∧ p < a.getEnd.toNat) → Range.coverage m' p = Range.coverage m p) ∧
      ∀ p, s.hi ≤ p → p < a.getEnd.toNat → Range.coverage m' p = Range.coverage (m.filter (¬ ·.overlaps s = true)) p := by
  have hpp := (Range.proper_iff s).mpr ⟨hne, lt_of_le_of_lt hs.2 h.nonWrapping⟩
  have hend := Range.toNat_getEnd hpp.2
  constructor
  · obtain ⟨t', m', ht', hrp, -, hin, hout⟩ := h.subtractWindow hpp s.getEnd hend.ge n
    refine ⟨t', m', ht', hrp, fun p => ?_⟩
    split_ifs with hp
    · exact hin p hp
    · exact hout p (by rwa [hend])
  · intro a ha
    have hle := hend ▸ BitVec.le_def.mp ha
    obtain ⟨t', m', ht', hrp, hcv⟩ := h.subtractWindow_coverage hpp a.getEnd hle n
    refine ⟨t', m', ht', hrp, fun p hp => ?_, fun p hp => ?_, fun p hlo hhi => ?_⟩
    · rw [hcv, if_pos ⟨hp.1, lt_of_lt_of_le hp.2 hle⟩, (h.coverage_overlapping hpp p).2 hp]
    · rw [hcv, if_neg hp, (h.coverage_overlapping hpp p).1]
    · rw [hcv, if_pos ⟨le_trans s.lo_le_hi hlo, hhi⟩, zero_add]

theorem subtract_pointwise_twoRanges : ∃ (t t' : IntervalTree) (m' : Multiset Range), t.subtract 65 ⟨3, 4⟩ = .ok t' ∧ Represents ⟨0, 10⟩ t' m' ∧
    ∀ p, Range.coverage m' p = if (Range.mk 3 4).Covers p then 0 else Range.coverage {⟨6, 2⟩, ⟨2, 2⟩} p := by
  obtain ⟨t, -, ht⟩ := exists_twoRanges
  exact ⟨t, (subtract_pointwise ht (s := ⟨3, 4⟩) (by decide) (by decide) 0).1⟩

/-! ## Complement -/

/-- In how many gaps the point is that a sweep over the ranges leaves between the points it has passed. -/
def gapCount (stop : Nat) (p : Nat) : (last : Nat) → List Range → Nat
  | last, [] => if last ≤ p ∧ p < stop then 1 else 0
  | last, r :: l => (if last ≤ p ∧ p < r.lo then 1 else 0) + gapCount stop p (max last r.hi) l

/-- No range comes after a gap that it covers a part of. -/
def SweepOrdered : (last : Nat) → List Range → Prop
  | _, [] => True
  | last, r :: l => (last < r.lo → ∀ s ∈ l, r.lo ≤ s.lo ∨ s.hi ≤ last) ∧ SweepOrdered (max last r.hi) l

theorem gapCount_eq_zero {p} : ∀ l {last}, p < last → gapCount stop p last l = 0
  | [], last, h => if_neg (by omega)
  | r :: l, last, h => by
    rw [gapCount, if_neg (by omega), gapCount_eq_zero l (by omega)]

theorem gapCount_le_one {p} : ∀ l last, gapCount stop p last l ≤ 1
  | [], last => by
    unfold gapCount
    split <;> omega
  | r :: l, last => by
    rw [gapCount]
    split
    · next hg => rw [gapCount_eq_zero l (by have := r.lo_le_hi; omega)]
    · rw [zero_add]
      exact gapCount_le_one l _

/-- The gaps are the points that no range covers exactly if no range comes too late. -/
theorem gapCount_exact_iff : ∀ l last, (∀ r ∈ l, r.lo < r.hi ∧ r.hi ≤ stop) → last ≤ stop →
    ((∀ p, last ≤ p → p < stop → (0 < gapCount stop p last l ↔ ∀ r ∈ l, ¬ r.Covers p)) ↔ SweepOrdered last l)
  | [], last, _, _ => by simp +contextual [gapCount, SweepOrdered]
  | r :: l, last, hl, hls => by
    rw [forall_mem_cons] at hl
    obtain ⟨⟨hpp, hsp⟩, hl⟩ := hl
    have ih := gapCount_exact_iff l (max last r.hi) hl (by omega)
    rw [SweepOrdered, ← ih]
    constructor
    · intro h
      refine ⟨fun hg s hs => ?_, fun p hp hpt => ?_⟩
      · by_contra hlt
        have ht : 0 < gapCount stop (max last s.lo) last (r :: l) := by
          rw [gapCount, if_pos (by omega)]
          omega
        refine (h _ (by omega) (by omega)).1 ht s (mem_cons_of_mem r hs) ⟨by omega, ?_⟩
        have := (hl s hs).1
        omega
      · have ho : ¬ r.Covers p := fun hc => by have := hc.2; omega
        have := h p (by omega) hpt
        rwa [gapCount, if_neg (by omega), zero_add, forall_mem_cons, and_iff_right ho] at this
    · rintro ⟨hlt, hr⟩ p hp hpt
      rw [gapCount, forall_mem_cons]
      by_cases hb : p < max last r.hi
      · rw [gapCount_eq_zero l hb, add_zero]
        constructor
        · intro ht
          have hg : last ≤ p ∧ p < r.lo := by
            by_contra hno
            rw [if_neg hno] at ht
            omega
          refine ⟨fun hc => by have := hc.1; omega, fun s hs hc => ?_⟩
          have := hlt (by omega) s hs
          have := hc.1
          have := hc.2
          omega
        · rintro ⟨ho, -⟩
          have hlo : p < r.lo := by
            by_contra hno
            exact ho ⟨by omega, by omega⟩
          rw [if_pos ⟨hp, hlo⟩]
          exact Nat.one_pos
      · have ho : ¬ r.Covers p := fun hc => by have := hc.2; omega
        rw [if_neg (by omega), zero_add, and_iff_right ho]
        exact hr p (by omega) hpt

theorem Represents.addGap_between (h : Represents total t m) {a b} (ha : total.lo ≤ a.toNat)
    (hb : b.toNat ≤ total.hi) (n) :
    ∃ t' m', (if a < b then t.addEndpoints (n + 65) a b else .ok t) = .ok t' ∧ Represents total t' m' ∧
      ∀ p, Range.coverage m' p = Range.coverage m p + if a.toNat ≤ p ∧ p < b.toNat then 1 else 0 := by
  by_cases hab : a < b
  · have hlt : a.toNat < b.toNat := BitVec.lt_def.1 hab
    obtain ⟨t', ht, hr⟩ := h.add_between hlt ha hb n
    refine ⟨t', _, by rw [if_pos hab, ht], hr, fun p => ?_⟩
    rw [Range.coverage, coverage_cons]
    simp only [Range.covers_between (le_of_lt hlt)]
  · have hle : ¬ a.toNat < b.toNat := fun hlt => hab (BitVec.lt_def.2 hlt)
    exact ⟨t, m, by rw [if_neg hab], h, fun p => by rw [if_neg (by omega), add_zero]⟩

theorem sweep_ok (n) : ∀ l {t} {m} {last},
    (∀ r ∈ l, r.Proper ∧ r.Inside total) → Represents total t m → total.lo ≤ last.toNat →
    ∃ t' m', (l.foldlM (addGap (n + 65)) (t, last) >>= fun s =>
        if s.2 < total.getEnd then s.1.addEndpoints (n + 65) s.2 total.getEnd else .ok s.1) = .ok t' ∧
      Represents total t' m' ∧ ∀ p, Range.coverage m' p = Range.coverage m p + gapCount total.hi p last.toNat l
  | [], t, m, last, _, h, hs => by
    have he := Range.toNat_getEnd h.nonWrapping
    obtain ⟨t', m', hr, hp, hc⟩ := h.addGap_between (b := total.getEnd) hs (by rw [he]) n
    exact ⟨t', m', hr, hp, fun p => by rw [hc p, he]; rfl⟩
  | r :: l, t, m, last, hl, h, hs => by
    rw [forall_mem_cons] at hl
    obtain ⟨⟨hpp, hin⟩, hl⟩ := hl
    obtain ⟨t1, m1, hr, hp, hc⟩ := h.addGap_between (b := r.start) hs (le_trans r.lo_le_hi hin.2) n
    have he := Range.toNat_getEnd hpp.2
    have hn : (if last < r.getEnd then r.getEnd else last).toNat = max last.toNat r.hi := by
      split
      · next hlt =>
        rw [BitVec.lt_def] at hlt
        omega
      · next hle =>
        rw [BitVec.lt_def] at hle
        omega
    obtain ⟨t2, m2, hr2, hp2, hc2⟩ := sweep_ok n l hl hp
      (show total.lo ≤ (if last < r.getEnd then r.getEnd else last).toNat by rw [hn]; omega)
    have hg : addGap (n + 65) (t, last) r = .ok (t1, if last < r.getEnd then r.getEnd else last) :=
      ok_bind hr _
    refine ⟨t2, m2, ?_, hp2, fun p => ?_⟩
    · rw [foldlM_cons, ok_bind hg]
      exact hr2
    · rw [hc2, hc, hn, gapCount, add_assoc]
      rfl

/-- `complement` stores disjoint ranges, and they are what the ranges of the tree leave of the total range exactly if no
    range comes after a gap that it covers a part of. -/
theorem complement_exact_iff (h : Represents total t m) (n : Nat) :
    ∃ t' m', t.complement (n + 65) = .ok t' ∧ Represents total t' m' ∧ (∀ p, Range.coverage m' p ≤ 1) ∧
      ((∀ p, (∃ r ∈ m', r.Covers p) ↔ total.Covers p ∧ ∀ r ∈ m, ¬ r.Covers p) ↔
        SweepOrdered total.lo t.getAllData) := by
  have hmem : ∀ r, r ∈ t.getAllData ↔ r ∈ m := fun r => by rw [← h.getAllData, Multiset.mem_coe]
  have hdt : ∀ r ∈ t.getAllData, r.Proper ∧ r.Inside total := fun r hr => h.mem ((hmem r).mp hr)
  obtain ⟨t', m', hrun, hrp, hcv⟩ := sweep_ok n t.getAllData hdt (make_represents h.nonWrapping) (le_refl _)
  simp only [Range.coverage, coverage_zero, zero_add] at hcv
  refine ⟨t', m', ?_, hrp, fun p => ?_, ?_⟩
  · rw [complement, h.getTotalRange]
    exact hrun
  · rw [Range.coverage, hcv]
    exact gapCount_le_one _ _
  · have hpos : ∀ p, 0 < gapCount total.hi p total.lo t.getAllData ↔ ∃ r ∈ m', r.Covers p := by
      intro p
      rw [← coverage_pos, hcv]
      rfl
    rw [← gapCount_exact_iff t.getAllData total.lo (fun r hr => ⟨(hdt r hr).1.1, (hdt r hr).2.2⟩) total.lo_le_hi]
    simp only [hmem, hpos]
    constructor
    · intro hec p hlo hhi
      rw [hec p, and_iff_right ⟨hlo, hhi⟩]
    · intro hec p
      constructor
      · rintro ⟨r, hr, hcr⟩
        have hin := (hrp.mem hr).2
        have htt : total.Covers p := ⟨le_trans hin.1 hcr.1, lt_of_lt_of_le hcr.2 hin.2⟩
        exact ⟨htt, (hec p htt.1 htt.2).mp ⟨r, hr, hcr⟩⟩
      · rintro ⟨htt, hno⟩
        exact (hec p htt.1 htt.2).mpr hno

theorem complement_exact_iff_twoRanges : ∃ t, Represents ⟨0, 10⟩ t {⟨6, 2⟩, ⟨2, 2⟩} ∧
    ∃ t' m', t.complement 65 = .ok t' ∧ Represents ⟨0, 10⟩ t' m' ∧ ∀ p, Range.coverage m' p ≤ 1 := by
  obtain ⟨t, -, ht⟩ := exists_twoRanges
  obtain ⟨t', m', hrun, hrp, hd, -⟩ := complement_exact_iff ht 0
  exact ⟨t, ht, t', m', hrun, hrp, hd⟩

/-- The range from 10 to 60 is kept at the root and comes after the one from 20 to 30: the addresses from 10 to 20 are in
    the complement. -/
theorem complement_nested :
    (do
      let (_, t) ← runOps 65 (make ⟨0, 100⟩) [.add ⟨10, 50⟩, .add ⟨20, 10⟩]
      let t' ← t.complement 65
      .ok (t.getAllData, t'.getAllData)) = .ok ([⟨20, 10⟩, ⟨10, 50⟩], [⟨0, 20⟩, ⟨60, 40⟩]) ∧
    (Range.mk 0 20).Covers 15 ∧ (Range.mk 10 50).Covers 15 :=
  ⟨rfl, by decide, by decide⟩

end IntervalTree

end Egalito
