/-
How many members of a multiset cover a point: cutting and merging members is described by the effect on the count.
-/
import Mathlib.Data.Multiset.Count
import Mathlib.Tactic

namespace Lib

open Multiset

variable {α ι : Type*} (covers : α → ι → Prop) [∀ a i, Decidable (covers a i)]

/-- The number of members of `m` that cover `i`. -/
def coverage (m : Multiset α) (i : ι) : Nat := m.countP (covers · i)

@[simp] theorem coverage_zero (i : ι) : coverage covers 0 i = 0 := countP_zero _

@[simp] theorem coverage_cons (a : α) (m) (i : ι) :
    coverage covers (a ::ₘ m) i = coverage covers m i + if covers a i then 1 else 0 :=
  countP_cons _ a m

@[simp] theorem coverage_add (m n) (i : ι) : coverage covers (m + n) i = coverage covers m i + coverage covers n i :=
  countP_add _ m n

variable {m : Multiset α} {i : ι}

theorem coverage_pos : 0 < coverage covers m i ↔ ∃ a ∈ m, covers a i :=
  countP_pos

theorem coverage_erase [DecidableEq α] {a} (h : a ∈ m) (i : ι) :
    coverage covers m i = coverage covers (m.erase a) i + if covers a i then 1 else 0 := by
  rw [← coverage_cons, cons_erase h]

theorem eq_of_coverage_le_one (h : coverage covers m i ≤ 1) {a b} (ha : a ∈ m) (hb : b ∈ m) (hi : covers a i)
    (hbi : covers b i) : a = b := by
  classical
  by_contra hne
  have hb' := (mem_erase_of_ne (Ne.symm hne)).2 hb
  rw [coverage_erase covers ha, coverage_erase covers hb', if_pos hi, if_pos hbi] at h
  omega

/-- The members of a list are pairwise disjoint exactly when no point is covered twice. -/
theorem pairwise_disjoint_iff : ∀ l : List α,
    l.Pairwise (fun a b => ∀ i, ¬ (covers a i ∧ covers b i)) ↔ ∀ i, coverage covers (l : Multiset α) i ≤ 1
  | [] => by simp [coverage]
  | a :: l => by
    rw [List.pairwise_cons, pairwise_disjoint_iff l]
    simp only [← cons_coe, coverage_cons]
    constructor
    · rintro ⟨ha, hl⟩ i
      have hi := hl i
      by_cases hai : covers a i
      · have : ¬ 0 < coverage covers (l : Multiset α) i := by
          rw [coverage_pos]
          rintro ⟨b, hb, hbi⟩
          exact ha b hb i ⟨hai, hbi⟩
        rw [if_pos hai]; omega
      · rw [if_neg hai]; omega
    · intro h
      refine ⟨fun b hb i ⟨hai, hbi⟩ => ?_, fun i => by have := h i; omega⟩
      have hp : 0 < coverage covers (l : Multiset α) i := (coverage_pos covers).2 ⟨b, hb, hbi⟩
      have := h i
      rw [if_pos hai] at this
      omega

theorem coverage_bind_le {g} (hg : ∀ a ∈ m, coverage covers (g a) i ≤ if covers a i then 1 else 0) :
    coverage covers (m.bind g) i ≤ coverage covers m i := by
  induction m using Multiset.induction_on with
  | empty => simp
  | cons a m ih =>
    rw [cons_bind, coverage_add, coverage_cons]
    have ha := hg a (mem_cons_self a m)
    have hm := ih fun b hb => hg b (mem_cons_of_mem hb)
    omega

theorem coverage_bind_pos {g} : 0 < coverage covers (m.bind g) i ↔ ∃ a ∈ m, 0 < coverage covers (g a) i := by
  simp only [coverage_pos, mem_bind]
  constructor
  · rintro ⟨b, ⟨a, ha, hb⟩, hi⟩
    exact ⟨a, ha, b, hb, hi⟩
  · rintro ⟨a, ha, b, hb, hi⟩
    exact ⟨b, ⟨a, ha, hb⟩, hi⟩

/-! ## Neighbouring cuts -/

section Consecutive

variable {β : Type*} [LinearOrder β]

/-- `x` and `y` are members of `B` with no member between them. -/
structure Consecutive (B : Set β) (x y : β) : Prop where
  left : x ∈ B
  right : y ∈ B
  lt : x < y
  none : ∀ b ∈ B, ¬ (x < b ∧ b < y)

theorem Consecutive.eq_of_mem {B} {x y x' y' c : β} (h : Consecutive B x y) (h' : Consecutive B x' y')
    (hc : x ≤ c ∧ c < y) (hc' : x' ≤ c ∧ c < y') : x = x' ∧ y = y' := by
  have h1 := h.none x' h'.left
  have h2 := h'.none x h.left
  have h3 := h.none y' h'.right
  have h4 := h'.none y h.right
  constructor
  · by_contra hne
    rcases lt_or_gt_of_ne hne with hlt | hlt
    · exact h1 ⟨hlt, hc'.1.trans_lt hc.2⟩
    · exact h2 ⟨hlt, hc.1.trans_lt hc'.2⟩
  · by_contra hne
    rcases lt_or_gt_of_ne hne with hlt | hlt
    · exact h4 ⟨hc'.1.trans_lt hc.2, hlt⟩
    · exact h3 ⟨hc.1.trans_lt hc'.2, hlt⟩

theorem consecutive_insert {B} {x y c} (h : Consecutive B x y) (hx : x < c) (hy : c < y) (u v : β) :
    Consecutive (insert c B) u v ↔ (u = x ∧ v = c) ∨ (u = c ∧ v = y) ∨ (Consecutive B u v ∧ u ≠ x) := by
  constructor
  · rintro ⟨hu, hv, hlt, hnone⟩
    have hn : ∀ b ∈ B, ¬ (u < b ∧ b < v) := fun b hb => hnone b (.inr hb)
    rcases hu with rfl | hu
    · -- from the new cut the next member is the old right neighbour
      refine .inr (.inl ⟨rfl, ?_⟩)
      rcases hv with rfl | hv
      · exact absurd hlt (lt_irrefl _)
      · rcases lt_trichotomy v y with hvy | hvy | hvy
        · exact absurd ⟨hx.trans hlt, hvy⟩ (h.none v hv)
        · exact hvy
        · exact absurd ⟨hy, hvy⟩ (hn y h.right)
    · rcases hv with rfl | hv
      · refine .inl ⟨?_, rfl⟩
        rcases lt_trichotomy u x with hux | hux | hux
        · exact absurd ⟨hux, hx⟩ (hn x h.left)
        · exact hux
        · exact absurd ⟨hux, hlt.trans hy⟩ (h.none u hu)
      · refine .inr (.inr ⟨⟨hu, hv, hlt, hn⟩, ?_⟩)
        rintro rfl
        have hc := hnone c (.inl rfl)
        have hvc : v ≤ c := not_lt.1 fun hc' => hc ⟨hx, hc'⟩
        exact h.none v hv ⟨hlt, hvc.trans_lt hy⟩
  · rintro (⟨rfl, rfl⟩ | ⟨rfl, rfl⟩ | ⟨huv, hne⟩)
    · refine ⟨.inr h.left, .inl rfl, hx, ?_⟩
      rintro b (rfl | hb) ⟨h1, h2⟩
      · exact lt_irrefl _ h2
      · exact h.none b hb ⟨h1, h2.trans hy⟩
    · refine ⟨.inl rfl, .inr h.right, hy, ?_⟩
      rintro b (rfl | hb) ⟨h1, h2⟩
      · exact lt_irrefl _ h1
      · exact h.none b hb ⟨hx.trans h1, h2⟩
    · refine ⟨.inr huv.left, .inr huv.right, huv.lt, ?_⟩
      rintro b (rfl | hb) ⟨h1, h2⟩
      · exact hne (huv.eq_of_mem h ⟨h1.le, h2⟩ ⟨hx.le, hy⟩).1
      · exact huv.none b hb ⟨h1, h2⟩

end Consecutive

end Lib
