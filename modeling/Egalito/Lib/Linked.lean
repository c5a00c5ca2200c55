/-
Doubly linked lists: `Linked prev next before l after` says that the members of `l` point at their neighbours, the first
one back to `before` and the last one on to `after`.
-/
import Mathlib.Data.List.Basic
import Mathlib.Tactic

namespace Lib

open List

variable {α : Type*} {prev next prev' next' : α → Option α} {before after : Option α} {l l₁ l₂ : List α} {x : α}

def Linked (prev next : α → Option α) : Option α → List α → Option α → Prop
  | _, [], _ => True
  | before, x :: l, after => prev x = before ∧ next x = l.head?.or after ∧ Linked prev next (some x) l after

theorem linked_append : ∀ {l₁ before}, Linked prev next before (l₁ ++ l₂) after ↔
    Linked prev next before l₁ (l₂.head?.or after) ∧ Linked prev next (l₁.getLast?.or before) l₂ after
  | [], before => by simp [Linked]
  | x :: l₁, before => by
    have hlt : (x :: l₁).getLast?.or before = l₁.getLast?.or (some x) := by
      cases l₁ with
      | nil => rfl
      | cons y l => simp [getLast?_cons]
    rw [cons_append, Linked, Linked, linked_append, hlt, head?_append, Option.or_assoc]
    tauto

theorem Linked.frame : ∀ {l before}, Linked prev next before l after →
    (∀ y ∈ l, prev' y = prev y) → (∀ y ∈ l, next' y = next y) → Linked prev' next' before l after
  | [], _, _, _, _ => trivial
  | x :: l, before, h, hp, hn => by
    rw [forall_mem_cons] at hp hn
    exact ⟨hp.1.trans h.1, hn.1.trans h.2.1, h.2.2.frame hp.2 hn.2⟩

theorem Linked.retarget {after'} : ∀ {l before}, Linked prev next before l after →
    (∀ y ∈ l, prev' y = prev y) → (∀ y, l.getLast? = some y → next' y = after') →
    (∀ y ∈ l, l.getLast? ≠ some y → next' y = next y) → l.Nodup → Linked prev' next' before l after'
  | [], _, _, _, _, _, _ => trivial
  | [x], before, h, hp, hlt, _, _ => ⟨(hp x (by simp)).trans h.1, hlt x rfl, trivial⟩
  | x :: y :: l, before, h, hp, hlt, hn, hnd => by
    rw [forall_mem_cons] at hp
    rw [nodup_cons] at hnd
    have hne : (x :: y :: l).getLast? ≠ some x := by
      rw [getLast?_cons_cons]
      exact fun e => hnd.1 (mem_of_getLast? e)
    refine ⟨hp.1.trans h.1, (hn x (by simp) hne).trans h.2.1, h.2.2.retarget hp.2 ?_ ?_ hnd.2⟩
    · intro z hz
      exact hlt z (by rwa [getLast?_cons_cons])
    · intro z hz hl
      exact hn z (by simp [hz]) (by rwa [getLast?_cons_cons])

theorem Linked.reanchor {before'} (h : Linked prev next before l after)
    (hf : ∀ y, l.head? = some y → prev' y = before') (hp : ∀ y ∈ l, l.head? ≠ some y → prev' y = prev y)
    (hn : ∀ y ∈ l, next' y = next y) (hnd : l.Nodup) : Linked prev' next' before' l after := by
  cases l with
  | nil => trivial
  | cons x l =>
    rw [forall_mem_cons] at hp hn
    rw [nodup_cons] at hnd
    refine ⟨hf x rfl, hn.1.trans h.2.1, h.2.2.frame (fun y hy => hp.2 y hy ?_) hn.2⟩
    rintro ⟨rfl⟩
    exact hnd.1 hy

/-- Two halves whose facing ends are pointed elsewhere, every other pointer of theirs kept. -/
theorem Linked.relink {after1 after₁' before2 before₂'} (h1 : Linked prev next before l₁ after1)
    (h2 : Linked prev next before2 l₂ after) (hnd : (l₁ ++ l₂).Nodup)
    (hp : ∀ y, l₂.head? = some y → prev' y = before₂') (hn : ∀ y, l₁.getLast? = some y → next' y = after₁')
    (hp' : ∀ y ∈ l₁ ++ l₂, l₂.head? ≠ some y → prev' y = prev y)
    (hn' : ∀ y ∈ l₁ ++ l₂, l₁.getLast? ≠ some y → next' y = next y) :
    Linked prev' next' before l₁ after₁' ∧ Linked prev' next' before₂' l₂ after := by
  obtain ⟨hn1, hn2, hd⟩ := nodup_append.1 hnd
  constructor
  · refine h1.retarget (fun y hy => hp' y (mem_append_left _ hy) fun e => ?_) hn
      (fun y hy => hn' y (mem_append_left _ hy)) hn1
    exact hd y hy y (mem_of_head? e) rfl
  · refine h2.reanchor hp (fun y hy => hp' y (mem_append_right _ hy))
      (fun y hy => hn' y (mem_append_right _ hy) fun e => ?_) hn2
    exact hd y (mem_of_getLast? e) y hy rfl

theorem Linked.insert (h : Linked prev next before (l₁ ++ l₂) after) (hnd : (l₁ ++ l₂).Nodup)
    (hpx : prev' x = l₁.getLast?.or before) (hx : next' x = l₂.head?.or after)
    (hp : ∀ y, l₂.head? = some y → prev' y = some x) (hn : ∀ y, l₁.getLast? = some y → next' y = some x)
    (hp' : ∀ y ∈ l₁ ++ l₂, l₂.head? ≠ some y → prev' y = prev y)
    (hn' : ∀ y ∈ l₁ ++ l₂, l₁.getLast? ≠ some y → next' y = next y) :
    Linked prev' next' before (l₁ ++ x :: l₂) after := by
  obtain ⟨h1, h2⟩ := linked_append.1 h
  obtain ⟨h1', h2'⟩ := h1.relink h2 hnd hp hn hp' hn'
  exact linked_append.2 ⟨h1', hpx, hx, h2'⟩

theorem Linked.remove (h : Linked prev next before (l₁ ++ x :: l₂) after) (hnd : (l₁ ++ l₂).Nodup)
    (hp : ∀ y, l₂.head? = some y → prev' y = l₁.getLast?.or before)
    (hn : ∀ y, l₁.getLast? = some y → next' y = l₂.head?.or after)
    (hp' : ∀ y ∈ l₁ ++ l₂, l₂.head? ≠ some y → prev' y = prev y)
    (hn' : ∀ y ∈ l₁ ++ l₂, l₁.getLast? ≠ some y → next' y = next y) : Linked prev' next' before (l₁ ++ l₂) after := by
  obtain ⟨h1, -, -, h2⟩ := linked_append.1 h
  exact linked_append.2 (h1.relink h2 hnd hp hn hp' hn')

theorem Linked.neighbours (h : Linked prev next before (l₁ ++ x :: l₂) after) :
    prev x = l₁.getLast?.or before ∧ next x = l₂.head?.or after := by
  obtain ⟨-, h1, h2, -⟩ := linked_append.1 h
  exact ⟨h1, h2⟩

/-! ## Places in a list -/

theorem insertIdx_length_append (x : α) (l₂ : List α) : ∀ l₁ : List α, (l₁ ++ l₂).insertIdx l₁.length x = l₁ ++ x :: l₂
  | [] => by simp
  | y :: l₁ => by
    rw [cons_append, length_cons, insertIdx_succ_cons, insertIdx_length_append x l₂ l₁, cons_append]

theorem idxOf?_middle [DecidableEq α] (l₂ : List α) : ∀ {l₁}, x ∉ l₁ → (l₁ ++ x :: l₂).idxOf? x = some l₁.length
  | [], _ => by simp [idxOf?_cons]
  | y :: l₁, hx => by
    rw [mem_cons, not_or] at hx
    have hne : ¬ y = x := fun e => hx.1 e.symm
    rw [cons_append, idxOf?_cons, idxOf?_middle l₂ hx.2]
    simp [hne]

end Lib
