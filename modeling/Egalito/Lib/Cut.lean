/-
Cutting a list into non-empty parts.
-/
import Mathlib.Data.List.Nodup

namespace Lib

open List

variable {α : Type}

/-- `x` is the first element of one of the parts. -/
def IsHead (B : List (List α)) (x : α) : Prop := ∃ l ∈ B, l.head? = some x

variable {B B' : List (List α)} {x : α} {l : List α}

theorem isHead_cons : IsHead (l :: B) x ↔ l.head? = some x ∨ IsHead B x := by
  simp [IsHead]

theorem isHead_append : IsHead (B ++ B') x ↔ IsHead B x ∨ IsHead B' x := by
  simp only [IsHead, mem_append]
  constructor
  · rintro ⟨l, hl | hl, hx⟩
    · exact .inl ⟨l, hl, hx⟩
    · exact .inr ⟨l, hl, hx⟩
  · rintro (⟨l, hl, hx⟩ | ⟨l, hl, hx⟩)
    · exact ⟨l, .inl hl, hx⟩
    · exact ⟨l, .inr hl, hx⟩

theorem IsHead.mem_flatten (hx : IsHead B x) : x ∈ B.flatten := by
  obtain ⟨l, hl, hx⟩ := hx
  exact List.mem_flatten.2 ⟨l, hl, List.mem_of_head? hx⟩

theorem isHead_of_flatten_eq_cons (hne : ∀ l ∈ B, l ≠ []) (hB : B.flatten = x :: l) : IsHead B x := by
  cases B with
  | nil => simp at hB
  | cons k B =>
    cases k with
    | nil => exact absurd rfl (hne [] (by simp))
    | cons y k =>
      rw [flatten_cons, cons_append, cons.injEq] at hB
      rw [isHead_cons]
      exact .inl (by rw [head?_cons, hB.1])

/-- The first part of a cut does not go beyond the first part of a cut with at least its heads. -/
theorem eq_nil_of_longer {k : List α} (hne : ∀ l ∈ B, l ≠ []) (hf : B.flatten = k ++ B'.flatten)
    (hnd : (x :: (l ++ k ++ B'.flatten)).Nodup) (hh : ∀ y, IsHead B y → y = x ∨ IsHead B' y) : k = [] := by
  cases k with
  | nil => rfl
  | cons y k =>
    have hy := hh y (isHead_of_flatten_eq_cons hne hf)
    rw [nodup_cons] at hnd
    rcases hy with rfl | hy
    · exact absurd (by simp) hnd.1
    · have := disjoint_of_nodup_append hnd.2
      exact absurd hy.mem_flatten (this (by simp))

theorem eq_of_isHead : ∀ {B B' : List (List α)}, (∀ l ∈ B, l ≠ []) → (∀ l ∈ B', l ≠ []) → B.flatten = B'.flatten →
    B.flatten.Nodup → (∀ x, IsHead B x ↔ IsHead B' x) → B = B'
  | [], [], _, _, _, _, _ => rfl
  | [], [] :: _, _, hn', _, _, _ => absurd rfl (hn' [] (by simp))
  | [], (_ :: _) :: _, _, _, hf, _, _ => by simp at hf
  | [] :: _, _, hne, _, _, _, _ => absurd rfl (hne [] (by simp))
  | (_ :: _) :: _, [], _, _, hf, _, _ => by simp at hf
  | (_ :: _) :: _, [] :: _, _, hn', _, _, _ => absurd rfl (hn' [] (by simp))
  | (x :: l) :: B, (x' :: l') :: B', hne, hn', hf, hnd, hs => by
    simp only [flatten_cons, cons_append, cons.injEq] at hf hnd
    obtain ⟨rfl, hf⟩ := hf
    have hneB : ∀ l ∈ B, l ≠ [] := fun l hl => hne l (by simp [hl])
    have hb' : ∀ l ∈ B', l ≠ [] := fun l hl => hn' l (by simp [hl])
    have hh : ∀ y, IsHead B y → y = x ∨ IsHead B' y := fun y hy => by
      have := (hs y).1 (isHead_cons.2 (.inr hy))
      rw [isHead_cons, head?_cons, Option.some.injEq] at this
      exact this.imp Eq.symm id
    have hh' : ∀ y, IsHead B' y → y = x ∨ IsHead B y := fun y hy => by
      have := (hs y).2 (isHead_cons.2 (.inr hy))
      rw [isHead_cons, head?_cons, Option.some.injEq] at this
      exact this.imp Eq.symm id
    -- neither first part is longer than the other
    have hl : l = l' := by
      rcases append_eq_append_iff.1 hf with ⟨k, hk, hB⟩ | ⟨k, hk, hB⟩
      · have hk0 := eq_nil_of_longer (x := x) (l := l) hneB hB (by rw [← hk, ← hf]; exact hnd) hh
        rw [hk, hk0, append_nil]
      · have hk0 := eq_nil_of_longer (x := x) (l := l') hb' hB (by rw [← hk]; exact hnd) hh'
        rw [hk, hk0, append_nil]
    subst hl
    have hr := append_cancel_left hf
    rw [nodup_cons, mem_append, not_or] at hnd
    have hB : B = B' := by
      refine eq_of_isHead hneB hb' hr (nodup_append.1 hnd.2).2.1 fun y => ⟨fun hy => ?_, fun hy => ?_⟩
      · rcases hh y hy with rfl | h
        · exact absurd hy.mem_flatten hnd.1.2
        · exact h
      · rcases hh' y hy with rfl | h
        · exact absurd (hr ▸ hy.mem_flatten) hnd.1.2
        · exact h
    rw [hB]

end Lib
