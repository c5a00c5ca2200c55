/-
Search in a graph with a queue that may hold an element more than once: it is marked when taken from the queue.

The search says whether an element is reached. If the edges go down in rank, what the queue can still cost bounds the
fuel.
-/
import Mathlib.Algebra.Order.Ring.GeomSum
import Mathlib.Data.List.Basic
import Mathlib.Data.Finset.Image
import Mathlib.Logic.Relation

namespace Lib

open List

variable {α : Type} [DecidableEq α]

/-- Is `dest` a successor of something that is reached from the queue? `none` if the fuel runs out. -/
def search (succ : α → List α) (dest : α) : Nat → List α → List α → Option Bool
  | 0, _, _ => none
  | _ + 1, [], _ => some false
  | n + 1, i :: queue, visited =>
    if dest ∈ succ i then some true
    else search succ dest n (queue ++ (succ i).filter (· ∉ i :: visited)) (i :: visited)

def Edge (succ : α → List α) (a b : α) : Prop := b ∈ succ a

/-- The edges go down in rank, and the successors of an element have different ranks. -/
structure Descending (succ : α → List α) (rank : α → Nat) : Prop where
  lt : ∀ {a b}, b ∈ succ a → rank b < rank a
  nodup : ∀ a, ((succ a).map rank).Nodup

variable {succ : α → List α} {rank : α → Nat} {source dest : α}

/-! ## What the search says -/

theorem search_sound : ∀ {n queue visited}, (∀ i ∈ queue, Relation.ReflTransGen (Edge succ) source i) →
    search succ dest n queue visited = some true → Relation.TransGen (Edge succ) source dest
  | 0, _, _, _, h => by cases h
  | _ + 1, [], _, _, h => by cases h
  | n + 1, i :: queue, visited, hq, h => by
    rw [search] at h
    have hi := hq i (by simp)
    split at h
    case isTrue hd => exact Relation.TransGen.tail' hi hd
    case isFalse =>
      refine search_sound (fun j hj => ?_) h
      rcases mem_append.1 hj with hj | hj
      · exact hq j (by simp [hj])
      · exact hi.tail (mem_filter.1 hj).1

/-- What is marked waits in the queue, or it does not lead to `dest` directly and its successors are marked or waiting.
    -/
def Searched (succ : α → List α) (dest : α) (queue visited : List α) : Prop :=
  ∀ i ∈ visited, i ∈ queue ∨ dest ∉ succ i ∧ ∀ j ∈ succ i, j ∈ visited ∨ j ∈ queue

theorem Searched.step {i queue visited} (h : Searched succ dest (i :: queue) visited) (hi : dest ∉ succ i) :
    Searched succ dest (queue ++ (succ i).filter (· ∉ i :: visited)) (i :: visited) := by
  have hs : ∀ j ∈ succ i, j ∈ i :: visited ∨ j ∈ queue ++ (succ i).filter (· ∉ i :: visited) := by
    intro j hj
    by_cases hv : j ∈ i :: visited
    · exact .inl hv
    · exact .inr (mem_append_right _ (mem_filter.2 ⟨hj, by simpa using hv⟩))
  rintro j (_ | ⟨_, hj⟩)
  · exact .inr ⟨hi, hs⟩
  · rcases h j hj with hq | ⟨hm, hc⟩
    · rcases mem_cons.1 hq with rfl | hq
      · exact .inr ⟨hi, hs⟩
      · exact .inl (mem_append_left _ hq)
    · refine .inr ⟨hm, fun k hk => ?_⟩
      rcases hc k hk with hk | hk
      · exact .inl (mem_cons_of_mem _ hk)
      · rcases mem_cons.1 hk with rfl | hk
        · exact .inl (by simp)
        · exact .inr (mem_append_left _ hk)

omit [DecidableEq α] in
/-- When the queue is empty, the marked elements are closed under successors. -/
theorem Searched.not_reached {visited} (h : Searched succ dest [] visited) (hs : source ∈ visited) :
    ¬ Relation.TransGen (Edge succ) source dest := by
  intro hr
  have hm : ∀ {i}, i ∈ visited → dest ∉ succ i ∧ ∀ j ∈ succ i, j ∈ visited := by
    intro i hi
    obtain ⟨hms, hc⟩ := (h i hi).resolve_left (by simp)
    exact ⟨hms, fun j hj => (hc j hj).resolve_right (by simp)⟩
  have hc : ∀ {j}, Relation.ReflTransGen (Edge succ) source j → j ∈ visited := by
    intro j hj
    induction hj with
    | refl => exact hs
    | tail _ he ih => exact (hm ih).2 _ he
  obtain ⟨j, hj, he⟩ := Relation.TransGen.tail'_iff.1 hr
  exact (hm (hc hj)).1 he

theorem search_complete : ∀ {n queue visited}, Searched succ dest queue visited →
    source ∈ visited → search succ dest n queue visited = some false → ¬ Relation.TransGen (Edge succ) source dest
  | 0, _, _, _, _, h => by cases h
  | _ + 1, [], _, hv, hs, _ => hv.not_reached hs
  | n + 1, i :: queue, visited, hv, hs, h => by
    rw [search] at h
    split at h
    case isTrue => cases h
    case isFalse hi =>
      exact search_complete (hv.step hi) (mem_cons_of_mem _ hs) h

/-! ## The search ends -/

/-- What the queue still can cost: an element of rank `r` is replaced by elements of different ranks below `r`. -/
def queueCost (rank : α → Nat) (queue : List α) : Nat := (queue.map fun i => 2 ^ rank i).sum

omit [DecidableEq α] in
theorem queueCost_append (queue queue' : List α) :
    queueCost rank (queue ++ queue') = queueCost rank queue + queueCost rank queue' := by
  simp [queueCost]

omit [DecidableEq α] in
theorem Descending.queueCost_lt (h : Descending succ rank) (i : α) (p) :
    queueCost rank ((succ i).filter p) < 2 ^ rank i := by
  have hnd : (((succ i).filter p).map rank).Nodup :=
    (h.nodup i).sublist ((filter_sublist (l := succ i)).map rank)
  have hs : queueCost rank ((succ i).filter p) = ∑ k ∈ (((succ i).filter p).map rank).toFinset, 2 ^ k := by
    rw [sum_toFinset _ hnd, map_map]
    rfl
  rw [hs]
  apply Nat.geomSum_lt le_rfl
  intro k hk
  obtain ⟨j, hj, rfl⟩ := mem_map.1 (mem_toFinset.1 hk)
  exact h.lt (mem_filter.1 hj).1

theorem Descending.search_isSome (h : Descending succ rank) :
    ∀ {n queue visited}, queueCost rank queue < n → ∃ b, search succ dest n queue visited = some b
  | 0, _, _, hn => absurd hn (Nat.not_lt_zero _)
  | _ + 1, [], _, _ => ⟨false, rfl⟩
  | n + 1, i :: queue, visited, hn => by
    rw [search]
    split
    · exact ⟨true, rfl⟩
    · apply h.search_isSome
      have hlt := h.queueCost_lt i (· ∉ i :: visited)
      rw [queueCost_append]
      simp only [queueCost, map_cons, sum_cons] at hn hlt ⊢
      omega

/-- From a single element the search returns, and says whether `dest` is reached. -/
theorem Descending.search_spec (h : Descending succ rank) {n} (hn : 2 ^ rank source < n) :
    ∃ b, search succ dest n [source] [source] = some b ∧ (b = true ↔ Relation.TransGen (Edge succ) source dest) := by
  have he : ∃ b, search succ dest n [source] [source] = some b := by
    apply h.search_isSome
    simpa [queueCost] using hn
  obtain ⟨b, hb⟩ := he
  refine ⟨b, hb, ?_⟩
  cases b with
  | true =>
    have hq : ∀ i ∈ [source], Relation.ReflTransGen (Edge succ) source i := by
      intro i hi
      rw [mem_singleton.1 hi]
    exact ⟨fun _ => search_sound hq hb, fun _ => rfl⟩
  | false =>
    have hs : Searched succ dest [source] [source] := fun i hi => .inl hi
    constructor
    · intro hf
      cases hf
    · intro hr
      exact absurd hr (search_complete hs (by simp) hb)

end Lib
