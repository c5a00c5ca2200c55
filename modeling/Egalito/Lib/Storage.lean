/-
The storage of a vector under `erase`: the later elements move down, and the cell behind the new end keeps what it held.
-/
import Mathlib.Data.List.Nodup

namespace Lib

open List

variable {α : Type}

/-- The elements of the vector and the cells behind them. -/
structure Storage (α : Type) where
  live : List α
  stale : List α

namespace Storage

def cells (s : Storage α) : List α := s.live ++ s.stale

variable {x z : α} {r i : Nat} {done : List α} {s : Storage α}

theorem cells_append {rest stale} : (⟨done ++ x :: rest, stale⟩ : Storage α).cells[done.length]? = some x := by
  simp [cells]

theorem cells_stale {live} (hl : live.length ≤ i) (hi : i < live.length + r) :
    (⟨live, replicate r z⟩ : Storage α).cells[i]? = some z := by
  rw [cells, getElem?_append_right hl, getElem?_replicate_of_lt (by omega)]

/-! ## What is left -/

section
variable (keep : α → Bool)

/-- What is left by the loop. -/
def spared : List α → List α
  | [] => []
  | [x] => [x].filter keep
  | x :: y :: l =>
    if keep x then x :: spared (y :: l)
    -- the last element is found again behind the end
    else if l = [] then [y].filter keep
    else y :: spared l

variable {keep}

/-- Of two neighbours that are not to be kept, the second is the last element. -/
def Isolated (keep : α → Bool) (l : List α) : Prop :=
  ∀ i x y, l[i]? = some x → l[i + 1]? = some y → keep x = false → keep y = false → i + 2 = l.length

theorem isolated_cons_cons {y l} :
    Isolated keep (x :: y :: l) ↔ (keep x = false → keep y = false → l = []) ∧ Isolated keep (y :: l) := by
  constructor
  · intro h
    constructor
    · intro hx hy
      have := h 0 x y rfl rfl hx hy
      exact eq_nil_of_length_eq_zero (by simpa using this.symm)
    · intro i a b ha hb hk hkb
      have := h (i + 1) a b ha hb hk hkb
      simpa using this
  · rintro ⟨hxy, h⟩ i a b ha hb hk hkb
    cases i with
    | zero =>
      obtain rfl : x = a := by simpa using ha
      obtain rfl : y = b := by simpa using hb
      rw [hxy hk hkb]
      rfl
    | succ i =>
      have := h i a b ha hb hk hkb
      simpa using this

/-- The loop leaves exactly the elements to be kept if those to be erased are apart from each other. -/
theorem spared_eq_filter : ∀ l, spared keep l = l.filter keep ↔ Isolated keep l
  | [] => by simp [spared, Isolated]
  | [x] => by simp [spared, Isolated]
  | x :: y :: l => by
    rw [spared, isolated_cons_cons]
    cases hx : keep x with
    | true =>
      rw [if_pos rfl, filter_cons_of_pos hx, cons.injEq, and_iff_right rfl, spared_eq_filter (y :: l)]
      simp
    | false =>
      have hf : (x :: y :: l).filter keep = (y :: l).filter keep := filter_cons_of_neg (by simp [hx])
      rw [if_neg (by decide), hf]
      cases l with
      | nil => simp [Isolated]
      | cons w l =>
        rw [if_neg (by simp)]
        cases hy : keep y with
        | true =>
          rw [filter_cons_of_pos hy, cons.injEq, and_iff_right rfl, spared_eq_filter (w :: l),
            isolated_cons_cons]
          simp [hy]
        | false =>
          -- `y` stays although it is not to be kept
          have hne : y :: spared keep (w :: l) ≠ (y :: w :: l).filter keep := by
            intro heq
            have hm := heq ▸ mem_cons_self
            exact absurd (mem_filter.1 hm).2 (by simp [hy])
          simp [hne]

end

/-! ## The loop -/

variable [DecidableEq α]

def erase (s : Storage α) (x : α) : Storage α :=
  if x ∈ s.live then ⟨s.live.erase x, s.live.getLast?.toList ++ s.stale⟩ else s

variable (keep : α → Bool)

def sweepCell (s : Storage α) (i : Nat) : Storage α :=
  match s.cells[i]? with
  | none => s
  | some x => if keep x then s else s.erase x

def sweep (l : List α) : Storage α := (range l.length).foldl (sweepCell keep) ⟨l, []⟩

variable {keep}

theorem live_erase (s : Storage α) (x : α) : (s.erase x).live = s.live.erase x := by
  unfold erase
  split
  · rfl
  · next hx => exact (erase_of_not_mem hx).symm

theorem length_cells_erase (s : Storage α) (x : α) : (s.erase x).cells.length = s.cells.length := by
  unfold erase
  split
  · next hx =>
    have hlt : s.live.getLast? = some (s.live.getLast (ne_nil_of_mem hx)) := getLast?_eq_some_getLast _
    have hp := length_pos_of_mem hx
    simp only [cells, length_append, length_erase_of_mem hx, hlt, Option.toList_some, length_singleton]
    omega
  · rfl

theorem length_cells_sweepCell (s) (i : Nat) : (sweepCell keep s i).cells.length = s.cells.length := by
  unfold sweepCell
  split
  · rfl
  · split
    · rfl
    · exact length_cells_erase s _

theorem erase_of_notMem (h : x ∉ s.live) : s.erase x = s := if_neg h

theorem erase_append {rest} (hx : x ∉ done) (hz : (x :: rest).getLast? = some z) :
    (⟨done ++ x :: rest, replicate r z⟩ : Storage α).erase x = ⟨done ++ rest, replicate (r + 1) z⟩ := by
  have hlt : (done ++ x :: rest).getLast? = some z := by
    rw [getLast?_append_of_ne_nil _ (cons_ne_nil x rest), hz]
  rw [erase, if_pos (mem_append_right _ mem_cons_self), erase_append_right _ hx,
    erase_cons_head, hlt]
  rfl

theorem sweepCell_of_keep (hc : s.cells[i]? = some x) (hx : keep x = true) : sweepCell keep s i = s := by
  rw [sweepCell, hc]
  exact if_pos hx

theorem sweepCell_of_not_keep (hc : s.cells[i]? = some x) (hx : keep x = false) :
    sweepCell keep s i = s.erase x := by
  rw [sweepCell, hc]
  exact if_neg (by simp [hx])

/-- Behind the end, where only the element `z` is found, nothing happens if it is to be kept or is gone. -/
theorem sweep_stale_same {live} (hz : keep z = true ∨ z ∉ live) : ∀ k i, live.length ≤ i → i + k ≤ live.length + r →
      (range' i k).foldl (sweepCell keep) ⟨live, replicate r z⟩ = ⟨live, replicate r z⟩
  | 0, _, _, _ => rfl
  | k + 1, i, hl, hi => by
    have hc := cells_stale (z := z) hl (show i < live.length + r by omega)
    have hs : sweepCell keep ⟨live, replicate r z⟩ i = ⟨live, replicate r z⟩ := by
      cases hk : keep z with
      | true => exact sweepCell_of_keep hc hk
      | false =>
        have hg := hz.resolve_left (by simp [hk])
        rw [sweepCell_of_not_keep hc hk]
        exact erase_of_notMem hg
    rw [range'_succ, foldl_cons, hs]
    exact sweep_stale_same hz k (i + 1) (by omega) (by omega)

/-- Behind the end, the last element goes if it is not to be kept. -/
theorem sweep_stale_last (hz : z ∉ done) (hr : 0 < r) :
    ((range' (done.length + 1) r).foldl (sweepCell keep) ⟨done ++ [z], replicate r z⟩).live =
      done ++ [z].filter keep := by
  cases hk : keep z with
  | true =>
    rw [sweep_stale_same (.inl hk) r _ (by simp) (by simp)]
    simp [hk]
  | false =>
    obtain ⟨r, rfl⟩ : ∃ r', r = r' + 1 := ⟨r - 1, by omega⟩
    have hc : (⟨done ++ [z], replicate (r + 1) z⟩ : Storage α).cells[done.length + 1]? = some z :=
      cells_stale (by simp) (by simp)
    rw [range'_succ, foldl_cons, sweepCell_of_not_keep hc hk, erase_append hz (show [z].getLast? = some z from rfl),
      append_nil, sweep_stale_same (.inr hz) r _ (by omega) (by omega)]
    simp [hk]

/-- The loop from an element on that it has not reached, where `z` is the last one. -/
theorem sweep_rest : ∀ rest done r, (done ++ rest).Nodup → rest.getLast? = some z →
    ((range' done.length (rest.length + r)).foldl (sweepCell keep) ⟨done ++ rest, replicate r z⟩).live =
      done ++ spared keep rest
  | [], _, _, _, hz => by simp at hz
  | [x], done, r, hnd, hz => by
    obtain rfl : x = z := by simpa using hz
    have hx : x ∉ done := fun h => (disjoint_of_nodup_append hnd) h mem_cons_self
    rw [length_singleton, Nat.add_comm 1 r, range'_succ, foldl_cons, spared]
    cases hk : keep x with
    | true =>
      rw [sweepCell_of_keep cells_append hk, sweep_stale_same (.inl hk) r _ (by simp) (by simp)]
      simp [hk]
    | false =>
      rw [sweepCell_of_not_keep cells_append hk, erase_append hx (show [x].getLast? = some x from rfl),
        append_nil, sweep_stale_same (.inr hx) r _ (by omega) (by omega)]
      simp [hk]
  | x :: y :: l, done, r, hnd, hz => by
    have hx : x ∉ done := fun h => (disjoint_of_nodup_append hnd) h mem_cons_self
    have hlt : (y :: l).getLast? = some z := by rwa [getLast?_cons_cons] at hz
    rw [length_cons, Nat.succ_add, range'_succ, foldl_cons, spared]
    cases hk : keep x with
    | true =>
      have ih := sweep_rest (y :: l) (done ++ [x]) r (by simpa using hnd) hlt
      rw [sweepCell_of_keep cells_append hk, if_pos rfl]
      simpa using ih
    | false =>
      rw [sweepCell_of_not_keep cells_append hk, erase_append hx hz, if_neg (by decide)]
      -- `y` is now at the cell that was looked at
      cases l with
      | nil =>
        obtain rfl : y = z := by simpa using hlt
        have hy : y ∉ done := fun h => (disjoint_of_nodup_append hnd) h (by simp)
        rw [if_pos rfl, length_singleton, Nat.add_comm 1 r]
        exact sweep_stale_last hy (Nat.succ_pos r)
      | cons w l =>
        have hw : (w :: l).getLast? = some z := by rwa [getLast?_cons_cons] at hlt
        have hs : (done ++ [y] ++ w :: l).Nodup := by
          refine hnd.sublist ?_
          simp
        have ih := sweep_rest (w :: l) (done ++ [y]) (r + 1) hs hw
        rw [if_neg (by simp)]
        simpa [Nat.add_assoc, Nat.add_comm, Nat.add_left_comm] using ih

theorem live_sweep {l} (h : l.Nodup) : (sweep keep l).live = spared keep l := by
  cases l with
  | nil => rfl
  | cons x l =>
    obtain ⟨z, hz⟩ : ∃ z, (x :: l).getLast? = some z := ⟨_, getLast?_eq_some_getLast (cons_ne_nil x l)⟩
    rw [sweep, range_eq_range']
    exact sweep_rest (x :: l) [] 0 h hz

end Storage

end Lib
