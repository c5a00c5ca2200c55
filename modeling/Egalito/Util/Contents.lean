/-
The interval tree as a multiset of ranges: on well-formed trees `add`, `remove` and the two overlap queries are exact.

`WF` is the invariant of a tree over an interval and `contents` its ranges with multiplicity; every operation has a
lemma that says what it does to them.
-/
import Egalito.Util.IntervalTree

namespace Egalito.IntervalTreeNode

open List
open BitVec Range Bool Except

/-- The ranges of a tree, with multiplicity. -/
def contents (t : IntervalTreeNode) : Multiset Range := ↑t.inStartOrderTraversal

@[simp] theorem contents_null : contents .null = 0 := rfl

@[simp] theorem contents_make (total) : contents (make total) = 0 := rfl

theorem contents_node (total) (mid) (lower higher) (os oe) :
    contents (.node total mid lower higher os oe) = contents lower + (os : Multiset Range) + contents higher := by
  simp only [contents, inStartOrderTraversal, ← Multiset.coe_add]

/-- The invariant of a tree over `[a, b)`. -/
inductive WF : Nat → Nat → IntervalTreeNode → Prop
  | null {a b : Nat} : WF a b .null
  | node {a b : Nat} {total : Range} {mid : Address} {lower higher : IntervalTreeNode} {os oe : List Range}
      (lo : total.lo = a) (hi : total.hi = b) (bound : b < 2 ^ 64) (midpoint : mid.toNat = a + (b - a) / 2)
      (wfLower : WF a mid.toNat lower) (wfHigher : WF mid.toNat b higher)
      (above : ∀ r ∈ contents higher, mid.toNat < r.lo)
      (same : os.Perm oe) (sortedStart : os.Pairwise Range.StartLe) (sortedEnd : oe.Pairwise Range.EndLe)
      (here : ∀ r ∈ os, a ≤ r.lo ∧ r.lo ≤ mid.toNat ∧ mid.toNat < r.hi ∧ r.hi ≤ b) :
      WF a b (.node total mid lower higher os oe)

theorem make_wf {total} (h : total.NonWrapping) : WF total.lo total.hi (make total) := by
  refine .node rfl rfl h ?_ .null .null (by simp) (.refl _) .nil .nil (by simp)
  have h2 : (total.size / 2).toNat = total.size.toNat / 2 := by rw [toNat_udiv]; rfl
  unfold Range.NonWrapping hi at h
  rw [toNat_add, h2]
  simp only [lo, hi]
  omega

variable {t : IntervalTreeNode}

theorem WF.mem {a b} (hw : WF a b t) : ∀ r ∈ contents t, r.Proper ∧ a ≤ r.lo ∧ r.hi ≤ b := by
  induction hw with
  | null => simp
  | @node a b total mid lower higher os oe lo hi bound midpoint _ _ above same _ _ here ihl ihh =>
    have hle := lo ▸ hi ▸ total.lo_le_hi
    intro r hr
    rw [contents_node, Multiset.mem_add, Multiset.mem_add] at hr
    rcases hr with (hr | hr) | hr
    · obtain ⟨h1, h2, h3⟩ := ihl r hr
      exact ⟨h1, h2, by omega⟩
    · obtain ⟨h1, h2, h3, h4⟩ := here r hr
      exact ⟨⟨by omega, by omega⟩, h1, h4⟩
    · obtain ⟨h1, h2, h3⟩ := ihh r hr
      exact ⟨h1, by omega, h3⟩

/-! ## Adding a range -/

variable {child : IntervalTreeNode} {start stop : Address}

theorem childOr_spec {a b} (hw : WF a b child) (ha : start.toNat = a) (hb : stop.toNat = b) (hle : a ≤ b) :
    ∃ n, childOr child start stop = .ok n ∧ n ≠ .null ∧ WF a b n ∧ contents n = contents child := by
  cases child with
  | null =>
    have h : start ≤ stop := by rw [le_def]; omega
    refine ⟨make ⟨start, stop - start⟩, ?_, by simp [make], ?_, rfl⟩
    · simp only [childOr, fromEndpoints_eq h]; rfl
    · have hhi : (mk start (stop - start)).hi = b := by rw [hi_endpoints h, hb]
      have := @make_wf ⟨start, stop - start⟩ (by
        unfold Range.NonWrapping; rw [hhi, ← hb]; exact stop.isLt)
      rwa [hhi, lo_mk, ha] at this
  | node total mid lower higher os oe =>
    exact ⟨_, rfl, by simp, hw, rfl⟩

theorem WF.insertHere {a b total mid lower higher os oe} (hw : WF a b (.node total mid lower higher os oe)) {range}
    (hlo : a ≤ range.lo) (hm : range.Covers mid.toNat) (hhi : range.hi ≤ b) :
    let t' := IntervalTreeNode.node total mid lower higher
      ((os ++ [range]).insertionSort Range.StartLe) ((oe ++ [range]).insertionSort Range.EndLe)
    WF a b t' ∧ contents t' = range ::ₘ contents (.node total mid lower higher os oe) := by
  cases hw with
  | node lo hi bound midpoint wfl wfh above same ss se here =>
    refine ⟨.node lo hi bound midpoint wfl wfh above ?_ (pairwise_insertionSort _ _)
      (pairwise_insertionSort _ _) ?_, ?_⟩
    · exact ((perm_insertionSort _ _).trans (same.append_right _)).trans
        (perm_insertionSort _ _).symm
    · intro r hr
      rw [mem_insertionSort, mem_append, mem_singleton] at hr
      rcases hr with hr | rfl
      · exact here r hr
      · exact ⟨hlo, hm.1, hm.2, hhi⟩
    · rw [contents_node, contents_node, Multiset.coe_eq_coe.2 (perm_insertionSort _ _),
        ← Multiset.coe_add, ← Multiset.singleton_add, Multiset.coe_singleton]
      abel

/-- Adding a range inside the bounds stores one more copy of it, with fuel `n + 1` for a node over at most `2 ^ n`
    addresses. -/
theorem add_inside {range} (hr : range.Proper) : ∀ n a b t, WF a b t → t ≠ .null → b - a ≤ 2 ^ n →
      a ≤ range.lo → range.hi ≤ b → ∃ t', t.add (n + 1) range = .ok (true, t') ∧ t' ≠ .null ∧ WF a b t' ∧
        contents t' = range ::ₘ contents t := by
  intro n
  induction n with
  | zero =>
    intro a b t hw hne hf hlo hhi
    cases t with
    | null => exact absurd rfl hne
    | node total mid lower higher os oe =>
      have hw0 := hw
      cases hw0 with
      | node lo hi bound midpoint wfl wfh above same ss se here =>
      -- at most one address: the range is the whole node and contains its midpoint
      have hlt := hr.1
      have hc : total.contains range = true := by
        rw [contains_iff (by unfold Range.NonWrapping; omega) hr.2]
        exact ⟨by omega, by omega⟩
      have hm : range.Covers mid.toNat := ⟨by omega, by omega⟩
      have hb : range.before mid = false := by
        rw [eq_false_iff, Ne, before_iff hr.2]
        exact not_le.2 hm.2
      obtain ⟨hw', hc'⟩ := hw.insertHere hlo hm hhi
      exact ⟨_, by simp [add, hc, hb, (containsPoint_iff hr.2 mid).2 hm], by simp, hw', hc'⟩
  | succ n ih =>
    intro a b t hw hne hf hlo hhi
    cases t with
    | null => exact absurd rfl hne
    | node total mid lower higher os oe =>
      have hw0 := hw
      cases hw0 with
      | node lo hi bound midpoint wfl wfh above same ss se here =>
      have hle := lo ▸ hi ▸ total.lo_le_hi
      have ht : total.NonWrapping := by unfold Range.NonWrapping; omega
      have hc : total.contains range = true := by
        rw [contains_iff ht hr.2]
        exact ⟨by omega, by omega⟩
      have hs : b - a ≤ 2 * 2 ^ n := by rw [pow_succ] at hf; omega
      by_cases hb : range.hi ≤ mid.toNat
      · obtain ⟨lower0, hl0, hn0, hf0, hc0⟩ := childOr_spec wfl lo rfl (by omega)
        obtain ⟨lower', hl', -, hw', hc'⟩ := ih a mid.toNat lower0 hf0 hn0 (by omega) hlo hb
        refine ⟨.node total mid lower' higher os oe, ?_, by simp, .node lo hi bound midpoint hw' wfh above same
          ss se here, ?_⟩
        · simp [add, hc, (Range.before_iff hr.2 mid).2 hb, hl0, hl', bind, Except.bind, pure, Except.pure]
        · rw [contents_node, contents_node, hc', hc0, Multiset.cons_add, Multiset.cons_add]
      · have hb' : range.before mid = false := by rwa [eq_false_iff, Ne, before_iff hr.2]
        by_cases hm : range.Covers mid.toNat
        · obtain ⟨hw', hc'⟩ := hw.insertHere hlo hm hhi
          exact ⟨_, by simp [add, hc, hb', (containsPoint_iff hr.2 mid).2 hm], by simp, hw', hc'⟩
        · have hgt : mid.toNat < range.lo := by unfold Range.Covers at hm; omega
          have hm' : range.containsPoint mid = false := by
            rwa [eq_false_iff, Ne, containsPoint_iff hr.2]
          obtain ⟨hi0, hh0, hn0, hf0, hc0⟩ := childOr_spec wfh (rfl : mid.toNat = _)
            (by rw [toNat_getEnd ht, hi]) (by omega)
          obtain ⟨hi', hh', -, hw', hc'⟩ := ih mid.toNat b hi0 hf0 hn0 (by omega) (by omega) hhi
          refine ⟨.node total mid lower hi' os oe, ?_, by simp, .node lo hi bound midpoint wfl hw' ?_ same
            ss se here, ?_⟩
          · simp [add, hc, hb', hm', hh0, hh', bind, Except.bind, pure, Except.pure]
          · intro r hr
            rw [hc', hc0, Multiset.mem_cons] at hr
            rcases hr with rfl | hr
            · exact hgt
            · exact above r hr
          · rw [contents_node, contents_node, hc', hc0, Multiset.add_cons]

theorem add_outside (hne : t ≠ .null) {range} (hc : t.getTotalRange.contains range = false) (n) :
    t.add (n + 1) range = .ok (false, t) := by
  cases t with
  | null => exact absurd rfl hne
  | node total mid lower higher os oe => exact if_pos hc

theorem childOr_total {a b} (hw : WF a b child) (ha : start.toNat = a) (hb : stop.toNat = b) (hle : a ≤ b) :
    ∃ n, childOr child start stop = .ok n ∧ n ≠ .null ∧ WF a b n ∧
      n.getTotalRange.start = start ∧ n.getTotalRange.getEnd = stop := by
  obtain ⟨n, hn, hne, hwf, -⟩ := childOr_spec hw ha hb hle
  refine ⟨n, hn, hne, hwf, ?_⟩
  cases hwf with
  | null => exact absurd rfl hne
  | node lo hi bound =>
    refine ⟨eq_of_toNat_eq (lo.trans ha.symm), eq_of_toNat_eq ?_⟩
    exact (toNat_getEnd (lt_of_eq_of_lt hi bound)).trans (hi.trans hb.symm)

/-- A range whose computed end is not after its start contains no midpoint and passes the test of every child, so `add`
    descends for ever. -/
theorem add_diverges {range} (hr : ¬ range.Proper) : ∀ fuel a b t, WF a b t → t ≠ .null →
      t.getTotalRange.contains range = true → t.add fuel range = .error .diverged := by
  rw [Range.proper_iff_lt, BitVec.not_lt] at hr
  intro fuel
  induction fuel with
  | zero => intro a b t _ _ _; rfl
  | succ fuel ih =>
    intro a b t hw hne hc
    cases hw with
    | null => exact absurd rfl hne
    | @node _ _ total mid lower higher os oe lo hi bound midpoint wfl wfh above same ss se here =>
      have hle := lo ▸ hi ▸ total.lo_le_hi
      have ht : total.NonWrapping := by unfold Range.NonWrapping; omega
      simp only [getTotalRange] at hc
      obtain ⟨hc1, hc2⟩ : total.start ≤ range.start ∧ range.getEnd ≤ total.getEnd := by
        simpa [Range.contains] using hc
      by_cases hb : range.getEnd ≤ mid
      · obtain ⟨child, hh, hn', hw', hs, he⟩ := childOr_total wfl lo rfl (by omega)
        have := ih a mid.toNat child hw' hn' (by simp [Range.contains, hs, he, hc1, hb])
        simp [add, hc, Range.before_eq, hb, hh, this, bind, Except.bind]
      · rw [BitVec.not_le] at hb
        obtain ⟨child, hh, hn', hw', hs, he⟩ := childOr_total wfh (rfl : mid.toNat = _)
          (by rw [Range.toNat_getEnd ht, hi]) (by omega)
        have hm : mid < range.start := by rw [BitVec.lt_def] at *; rw [BitVec.le_def] at hr; omega
        have hnc : range.containsPoint mid = false := by simp [Range.containsPoint, hm]
        have hn : range.before mid = false := by simpa [Range.before_eq] using hb
        have := ih mid.toNat b child hw' hn' (by simp [Range.contains, hs, he, BitVec.le_of_lt hm, hc2])
        simp [add, hc, hn, hnc, hh, this, bind, Except.bind]

/-! ## Removing a range -/

theorem WF.placed {a b total mid lower higher os oe} (hw : WF a b (.node total mid lower higher os oe)) (r) :
    (r ∈ contents lower → r.before mid = true) ∧ (r ∈ os → r.before mid = false ∧ r.after mid = false) ∧
      (r ∈ contents higher → r.before mid = false ∧ r.after mid = true) := by
  cases hw with
  | node lo hi bound midpoint wfl wfh above same ss se here =>
    refine ⟨fun h => ?_, fun h => ?_, fun h => ?_⟩
    · obtain ⟨h1, -, h3⟩ := wfl.mem r h
      exact (before_iff h1.2 mid).2 h3
    · obtain ⟨h1, h2, h3, h4⟩ := here r h
      rw [eq_false_iff, eq_false_iff, Ne, Ne, after_iff,
        before_iff (by unfold Range.NonWrapping; omega)]
      omega
    · obtain ⟨⟨h1, h2⟩, -, -⟩ := wfh.mem r h
      have h3 := above r h
      rw [eq_false_iff, Ne, after_iff, before_iff h2]
      omega

theorem remove_spec (range) {a b} (hw : WF a b t) :
    ∃ t', t.remove range = .ok (decide (range ∈ contents t), t') ∧ WF a b t' ∧
      contents t' = (contents t).erase range ∧ (t' = .null ↔ t = .null) := by
  induction hw with
  | null => exact ⟨.null, by simp [remove], .null, by simp, Iff.rfl⟩
  | @node a b total mid lower higher os oe lo hi bound midpoint wfl wfh above same ss se here ihl ihh =>
    obtain ⟨hpw, hpr, hp⟩ :=
      (WF.node lo hi bound midpoint wfl wfh above same ss se here).placed range
    by_cases hb : range.before mid = true
    · obtain ⟨lower', hl, hwf, hc, -⟩ := ihl
      have ho : range ∉ os := fun h => by simp [hpr h] at hb
      have hn : range ∉ contents higher := fun h => by simp [hp h] at hb
      refine ⟨.node total mid lower' higher os oe, ?_, .node lo hi bound midpoint hwf wfh above same ss se here,
        ?_, by simp⟩
      · simp [remove, hb, hl, contents_node, ho, hn, bind, Except.bind, pure, Except.pure]
      · rw [contents_node, contents_node, hc, Multiset.erase_add_left_neg _ hn,
          Multiset.erase_add_left_neg _ (by simpa using ho)]
    · have hnl : range ∉ contents lower := fun h => hb (hpw h)
      by_cases ha : range.after mid = true
      · obtain ⟨hi', hh, hwf, hc, -⟩ := ihh
        have ho : range ∉ os := fun h => by simp [hpr h] at ha
        refine ⟨.node total mid lower hi' os oe, ?_, .node lo hi bound midpoint wfl hwf ?_ same ss se here,
          ?_, by simp⟩
        · simp [remove, hb, ha, hh, contents_node, ho, hnl, bind, Except.bind, pure, Except.pure]
        · intro r hr
          rw [hc] at hr
          exact above r (Multiset.mem_of_mem_erase hr)
        · rw [contents_node, contents_node, hc, Multiset.erase_add_right_neg]
          simpa using ⟨hnl, ho⟩
      · have hn : range ∉ contents higher := fun h => ha (hp h).2
        refine ⟨.node total mid lower higher (os.erase range) (oe.erase range), ?_, .node lo hi bound midpoint wfl
          wfh above (same.erase range) (ss.sublist erase_sublist) (se.sublist erase_sublist)
          (fun r hr => here r (mem_of_mem_erase hr)), ?_, by simp⟩
        · simp [remove, hb, ha, contents_node, hnl, hn, same.mem_iff]
        · rw [contents_node, contents_node, Multiset.erase_add_left_neg _ hn,
            Multiset.erase_add_right_neg _ hnl, Multiset.coe_erase]

/-! ## Overlap queries -/

/-- The scan of `overlapStart` stops early, but no later range contains the point. -/
theorem scanStart_eq_filter (point) : ∀ {l}, l.Pairwise Range.StartLe →
    scanStart point l = l.filter (·.containsPoint point)
  | [], _ => rfl
  | r :: rs, h => by
    rw [pairwise_cons] at h
    unfold scanStart
    rw [scanStart_eq_filter point h.2, filter_cons]
    by_cases ha : r.after point = true
    · have hr : rs.filter (·.containsPoint point) = [] := by
        rw [filter_eq_nil_iff]
        intro s hs hp
        have hle := (startLe_iff r s).1 (h.1 s hs)
        simp only [Range.containsPoint, Range.after, Bool.and_eq_true, decide_eq_true_iff, BitVec.le_def,
          BitVec.lt_def] at hp ha
        omega
      rw [hr, if_pos ha]
      split <;> simp
    · rw [if_neg ha]
      split <;> simp

theorem scanEnd_eq_filter (point) : ∀ {l}, l.Pairwise Range.EndLe → scanEnd point l = l.filter (·.containsPoint point)
  | [], _ => rfl
  | r :: rs, h => by
    rw [pairwise_cons] at h
    unfold scanEnd
    rw [scanEnd_eq_filter point h.2, filter_cons]
    by_cases hb : r.before point = true
    · have hr : rs.filter (·.containsPoint point) = [] := by
        rw [filter_eq_nil_iff]
        intro s hs hp
        have hle := (endLe_iff r s).1 (h.1 s hs)
        simp only [containsPoint, before_eq, and_eq_true, decide_eq_true_iff, le_def,
          lt_def] at hp hb
        omega
      rw [hr, if_pos hb]
      split <;> simp
    · rw [if_neg hb]
      split <;> simp

theorem findOverlappingPoint_spec (point) {a b} (hw : WF a b t) :
    (t.findOverlappingPoint point : Multiset Range) = (contents t).filter (·.containsPoint point = true) := by
  induction hw with
  | null => rfl
  | @node a b total mid lower higher os oe lo hi bound midpoint wfl wfh above same ss se here ihl ihh =>
    unfold findOverlappingPoint
    rw [contents_node, Multiset.filter_add, Multiset.filter_add]
    by_cases hp : point < mid
    · have hn : (contents higher).filter (·.containsPoint point = true) = 0 := by
        rw [Multiset.filter_eq_nil]
        intro r hr hc
        have h1 := above r hr
        rw [containsPoint_iff (wfh.mem r hr).1.2] at hc
        have := hc.1
        rw [lt_def] at hp
        omega
      rw [if_pos hp, ← Multiset.coe_add, ihl, scanStart_eq_filter point ss, hn, add_zero, Multiset.filter_coe]
      simp
    · have hn : (contents lower).filter (·.containsPoint point = true) = 0 := by
        rw [Multiset.filter_eq_nil]
        intro r hr hc
        obtain ⟨h1, -, h3⟩ := wfl.mem r hr
        rw [containsPoint_iff h1.2] at hc
        have := hc.2
        rw [lt_def] at hp
        omega
      rw [if_neg hp, ← Multiset.coe_add, ihh, scanEnd_eq_filter point se, hn, zero_add,
        ← Multiset.coe_eq_coe.2 same.symm, Multiset.filter_coe]
      simp

theorem findOverlapping_spec (range) {a b} (hw : WF a b t) :
    (t.findOverlapping range : Multiset Range) = (contents t).filter (·.overlaps range = true) := by
  induction hw with
  | null => rfl
  | @node a b total mid lower higher os oe lo hi bound midpoint wfl wfh above same ss se here ihl ihh =>
    -- the child that is not searched has no overlapping range
    have hlo : (range.after mid || mid == range.start) = true →
        (contents lower).filter (·.overlaps range = true) = 0 := by
      intro h
      rw [Multiset.filter_eq_nil]
      intro r hr hc
      obtain ⟨h1, -, h3⟩ := wfl.mem r hr
      have hm : mid.toNat ≤ range.start.toNat := by
        rw [or_eq_true, beq_iff_eq] at h
        rcases h with h | h
        · exact le_of_lt ((after_iff range mid).1 h)
        · exact le_of_eq (congrArg BitVec.toNat h)
      have he : r.getEnd ≤ range.start := by
        rw [le_def, toNat_getEnd h1.2]; omega
      simp [overlaps, he] at hc
    have hh : range.before mid = true → (contents higher).filter (·.overlaps range = true) = 0 := by
      intro h
      rw [Multiset.filter_eq_nil]
      intro r hr hc
      have h1 : mid.toNat < r.start.toNat := above r hr
      rw [before_eq, decide_eq_true_iff, le_def] at h
      have he : range.getEnd ≤ r.start := by rw [le_def]; omega
      simp [overlaps, he] at hc
    simp only [findOverlapping]
    rw [contents_node, Multiset.filter_add, Multiset.filter_add, ← Multiset.coe_add, ← Multiset.coe_add,
      Multiset.filter_coe]
    congr 1
    · congr 1
      · split
        · exact ihl
        · rename_i h
          rw [hlo (by simpa only [not_eq_true', not_eq_false] using h)]; rfl
      · simp
    · split
      · exact ihh
      · rename_i h
        rw [hh (by simpa using h)]; rfl

end Egalito.IntervalTreeNode
