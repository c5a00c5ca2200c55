/-
Spans of numbers in an ordered map by their starts, and the lookup of the last one that does not start above a number.
-/
import Egalito.Lib.OrderedMap
import Egalito.Lib.Tiling

namespace Lib

open List

section

variable {α : Type} {start size : α → Nat} {l : List α} {p : Nat} {x : α}

def findContaining (start size : α → Nat) (l : List α) (p : Nat) : Option α :=
  (floor p (assignAll (l.map fun a => (start a, a)))).bind fun e => if p < start e.2 + size e.2 then some e.2 else none

theorem findContaining_eq_some (h : findContaining start size l p = some x) :
    x ∈ l ∧ start x ≤ p ∧ p < start x + size x := by
  obtain ⟨e, hf, he⟩ := Option.bind_eq_some_iff.1 h
  obtain ⟨hm, hle, -⟩ := (floor_eq_some (ranked_assignAll _)).1 hf
  obtain ⟨pre, post, hs, -⟩ := mem_assignAll.1 hm
  have hin : e ∈ l.map fun a => (start a, a) := by simp [hs]
  obtain ⟨y, hy, rfl⟩ := mem_map.1 hin
  split at he
  · next hlt =>
    cases he
    exact ⟨hy, hle, hlt⟩
  · cases he

/-- The span is found if it contains the number and no span after it in the list, and none that starts
    above it, starts below the number. -/
theorem findContaining_of_last {before after} (hb : ∀ y ∈ before, start y ≤ p → start y ≤ start x)
    (ha : ∀ y ∈ after, start y ≤ p → start y < start x) (hle : start x ≤ p) (hlt : p < start x + size x) :
    findContaining start size (before ++ x :: after) p = some x := by
  have hm : (start x, x) ∈ assignAll ((before ++ x :: after).map fun a => (start a, a)) := by
    refine mem_assignAll.2 ⟨before.map fun a => (start a, a), after.map fun a => (start a, a), by simp, ?_⟩
    -- a later span with the same start would be the one in the map
    intro e he
    obtain ⟨y, hy, rfl⟩ := mem_map.1 he
    intro heq
    exact absurd (ha y hy (heq.le.trans hle)) (by simp [show start y = start x from heq])
  have hf : floor p (assignAll ((before ++ x :: after).map fun a => (start a, a))) = some (start x, x) := by
    refine (floor_eq_some (ranked_assignAll _)).2 ⟨hm, hle, ?_⟩
    intro e he hp
    obtain ⟨b, c, hs, -⟩ := mem_assignAll.1 he
    have hin : e ∈ (before ++ x :: after).map fun a => (start a, a) := by simp [hs]
    obtain ⟨y, hy, rfl⟩ := mem_map.1 hin
    rcases mem_append.1 hy with hy | hy
    · exact hb y hy hp
    · rcases mem_cons.1 hy with rfl | hy
      · exact le_refl _
      · exact (ha y hy hp).le
  rw [findContaining, hf]
  exact if_pos hlt

theorem exists_around {R} (h : l.Pairwise R) (hx : x ∈ l) :
    ∃ pre post, l = pre ++ x :: post ∧ (∀ y ∈ pre, R y x) ∧ ∀ y ∈ post, R x y := by
  obtain ⟨pre, post, rfl⟩ := append_of_mem hx
  obtain ⟨-, ha, hb⟩ := pairwise_append.1 h
  refine ⟨pre, post, rfl, ?_, (pairwise_cons.1 ha).1⟩
  intro y hy
  exact hb y hy x mem_cons_self

theorem findContaining_of_consecutive (h : l.Pairwise fun a b => start a + size a ≤ start b) (hx : x ∈ l)
    (hle : start x ≤ p) (hlt : p < start x + size x) : findContaining start size l p = some x := by
  obtain ⟨pre, post, rfl, hb, ha⟩ := exists_around h hx
  apply findContaining_of_last _ _ hle hlt
  · intro y hy _
    exact (Nat.le_add_right _ _).trans (hb y hy)
  · intro y hy hp
    exact absurd (hlt.trans_le ((ha y hy).trans hp)) (lt_irrefl p)

/-- Without an overlap, in either order. -/
def Apart (start size : α → Nat) (a b : α) : Prop := start a + size a ≤ start b ∨ start b + size b ≤ start a

theorem findContaining_of_apart (h : l.Pairwise (Apart start size)) (hp : ∀ y ∈ l, 0 < size y) (hx : x ∈ l)
    (hle : start x ≤ p) (hlt : p < start x + size x) : findContaining start size l p = some x := by
  obtain ⟨pre, post, rfl, hb, ha⟩ := exists_around h hx
  apply findContaining_of_last _ _ hle hlt
  · intro y hy hyp
    rcases hb y hy with hyx | hxy
    · omega
    · omega
  · intro y hy hyp
    have hy0 := hp y (by simp [hy])
    rcases ha y hy with hxy | hyx
    · omega
    · omega

theorem findContaining_eq_none (h : l.Pairwise (Apart start size)) (hp : ∀ y ∈ l, 0 < size y)
    (hn : findContaining start size l p = none) (hx : x ∈ l) : p < start x ∨ start x + size x ≤ p := by
  by_contra hcover
  rw [not_or, not_lt, not_le] at hcover
  rw [findContaining_of_apart h hp hx hcover.1 hcover.2] at hn
  cases hn

end

/-! ## Layouts -/

variable {α : Type} {len : α → Nat} {l l' : List α} {w p : Nat} {e : Nat × α}

/-- Each item with its place, the first one at `w`. -/
def layout (len : α → Nat) : Nat → List α → List (Nat × α)
  | _, [] => []
  | w, x :: l => (w, x) :: layout len (w + len x) l

theorem tiles_layout : ∀ {l w}, Tiles Prod.fst (fun e => len e.2) w (layout len w l)
  | [], _ => trivial
  | _ :: _, _ => ⟨rfl, tiles_layout⟩

theorem totalLength_layout : ∀ {l w}, totalLength (fun e => len e.2) (layout len w l) = totalLength len l
  | [], _ => rfl
  | x :: l, w => by rw [layout, totalLength_cons, totalLength_cons, totalLength_layout]

theorem layout_append : ∀ {l w}, layout len w (l ++ l') = layout len w l ++ layout len (w + totalLength len l) l'
  | [], w => by simp [layout]
  | x :: l, w => by
    rw [cons_append, layout, layout, layout_append, totalLength_cons, add_assoc, cons_append]

theorem layout_flatten : ∀ {ls w},
    layout len w ls.flatten = (layout (totalLength len) w ls).flatMap fun e => layout len e.1 e.2
  | [], _ => rfl
  | l :: ls, w => by rw [flatten_cons, layout_append, layout, flatMap_cons, layout_flatten]

theorem totalLength_flatten : ∀ {ls}, totalLength len ls.flatten = totalLength (totalLength len) ls
  | [] => rfl
  | l :: ls => by rw [flatten_cons, totalLength_append, totalLength_cons, totalLength_flatten]

def itemAt (len : α → Nat) (w : Nat) (l : List α) (p : Nat) : Option (Nat × α) :=
  findContaining Prod.fst (fun e => len e.2) (layout len w l) p

theorem itemAt_eq_some : itemAt len w l p = some e ↔ e ∈ layout len w l ∧ e.1 ≤ p ∧ p < e.1 + len e.2 := by
  constructor
  · exact findContaining_eq_some
  · rintro ⟨he, hle, hlt⟩
    exact findContaining_of_consecutive tiles_layout.pairwise he hle hlt

theorem bounds_of_mem_layout (he : e ∈ layout len w l) : w ≤ e.1 ∧ e.1 + len e.2 ≤ w + totalLength len l := by
  constructor
  · exact tiles_layout.le_place e he
  · obtain ⟨pre, post, hs⟩ := append_of_mem he
    have ht := hs ▸ tiles_layout
    have hp := (tiles_append.1 ht).2.1
    have htt : totalLength len l =
        totalLength (fun e => len e.2) pre + (len e.2 + totalLength (fun e => len e.2) post) := by
      rw [← totalLength_layout (w := w), hs, totalLength_append, totalLength_cons]
    omega

theorem itemAt_eq_none : itemAt len w l p = none ↔ p < w ∨ w + totalLength len l ≤ p := by
  constructor
  · intro hn
    by_contra hin
    rw [not_or, not_lt, not_le] at hin
    have hlt : p < w + totalLength (fun e => len e.2) (layout len w l) := by rw [totalLength_layout]; exact hin.2
    obtain ⟨e, he⟩ := tiles_layout.exists_at hin.1 hlt
    rw [itemAt_eq_some.2 he] at hn
    cases hn
  · intro ho
    cases hf : itemAt len w l p with
    | none => rfl
    | some e =>
      obtain ⟨he, hle, hlt⟩ := itemAt_eq_some.1 hf
      have hb := bounds_of_mem_layout he
      omega

/-- The item found starts at the number exactly if some item does: an empty one that does shares its place
    with the next. -/
theorem itemAt_start_iff (h : itemAt len w l p = some e) : e.1 = p ↔ p ∈ (layout len w l).map Prod.fst := by
  obtain ⟨he, hle, hlt⟩ := itemAt_eq_some.1 h
  constructor
  · rintro rfl
    exact mem_map_of_mem he
  · intro hp
    obtain ⟨e', he', rfl⟩ := mem_map.1 hp
    by_contra hne
    have ht : Tiles Prod.fst (fun e => len e.2) w (layout len w l) := tiles_layout
    obtain ⟨pre, post, heq, hb, ha⟩ := exists_around ht.pairwise he
    rw [heq] at he'
    rcases mem_append.1 he' with hin | hin
    · have := hb e' hin
      omega
    · rcases mem_cons.1 hin with rfl | hin
      · exact hne rfl
      · have := ha e' hin
        omega

/-- Within the items of an item, the lookup goes on as in the layout of all of them. -/
theorem itemAt_flatten {ls b} (hb : itemAt (totalLength len) w ls p = some b) :
    itemAt len b.1 b.2 p = itemAt len w ls.flatten p := by
  obtain ⟨hm, hle, hlt⟩ := itemAt_eq_some.1 hb
  cases hin : itemAt len b.1 b.2 p with
  | none =>
    rcases itemAt_eq_none.1 hin with hlo | hh
    · omega
    · omega
  | some e =>
    obtain ⟨he, hc⟩ := itemAt_eq_some.1 hin
    refine (itemAt_eq_some.2 ⟨?_, hc⟩).symm
    rw [layout_flatten]
    exact mem_flatMap.2 ⟨b, hm, he⟩

end Lib
