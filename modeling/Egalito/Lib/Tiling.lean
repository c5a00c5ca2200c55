/-
Items laid end to end: their pieces, written one after the other, are found at the places of the items.
-/
import Egalito.Lib.Ranked
import Mathlib.Algebra.GroupWithZero.Nat

namespace Lib

open List

variable {α β : Type} {place place' len : α → Nat} {l l' : List α} {w : Nat} {x y : α}

/-- The items of the list begin at `w` and follow each other without a gap. -/
def Tiles (place len : α → Nat) : Nat → List α → Prop
  | _, [] => True
  | w, x :: l => place x = w ∧ Tiles place len (w + len x) l

def totalLength (len : α → Nat) (l : List α) : Nat := (l.map len).sum

@[simp] theorem totalLength_nil : totalLength len [] = 0 := rfl

@[simp] theorem totalLength_cons : totalLength len (x :: l) = len x + totalLength len l := sum_cons

@[simp] theorem totalLength_append : totalLength len (l ++ l') = totalLength len l + totalLength len l' := by
  simp [totalLength]

theorem totalLength_perm (h : l.Perm l') : totalLength len l = totalLength len l' := (h.map len).sum_nat

theorem tiles_append : ∀ {l w},
    Tiles place len w (l ++ l') ↔ Tiles place len w l ∧ Tiles place len (w + totalLength len l) l'
  | [], w => by simp [Tiles]
  | x :: l, w => by
    rw [cons_append, Tiles, Tiles, tiles_append, totalLength_cons, add_assoc, and_assoc]

theorem Tiles.place_eq (h : Tiles place len w (l ++ x :: l')) : place x = w + totalLength len l :=
  (tiles_append.1 h).2.1

theorem Tiles.end_le (h : Tiles place len w l) (hx : x ∈ l) : place x + len x ≤ w + totalLength len l := by
  obtain ⟨pre, post, rfl⟩ := append_of_mem hx
  rw [h.place_eq, totalLength_append, totalLength_cons]
  omega

theorem Tiles.congr : ∀ {l w}, Tiles place len w l → (∀ x ∈ l, place' x = place x) → Tiles place' len w l
  | [], _, _, _ => trivial
  | x :: l, w, ⟨hx, hl⟩, h => ⟨(h x (by simp)).trans hx, hl.congr fun y hy => h y (by simp [hy])⟩

theorem Tiles.le_place : ∀ {l w}, Tiles place len w l → ∀ x ∈ l, w ≤ place x
  | y :: l, w, ⟨hy, hl⟩, x, hx => by
    rcases mem_cons.1 hx with rfl | hx
    · exact hy.ge
    · have := hl.le_place x hx
      omega

theorem Tiles.pairwise : ∀ {l w}, Tiles place len w l → l.Pairwise fun x y => place x + len x ≤ place y
  | [], _, _ => List.Pairwise.nil
  | x :: l, w, ⟨hx, hl⟩ => by
    refine List.Pairwise.cons (fun y hy => ?_) hl.pairwise
    rw [hx]
    exact hl.le_place y hy

theorem Tiles.exists_at : ∀ {l w o}, Tiles place len w l → w ≤ o → o < w + totalLength len l →
    ∃ x ∈ l, place x ≤ o ∧ o < place x + len x
  | [], w, o, _, hle, hlt => by
    rw [totalLength_nil] at hlt
    omega
  | x :: l, w, o, ⟨hx, hl⟩, hle, hlt => by
    rw [totalLength_cons] at hlt
    by_cases ho : o < w + len x
    · exact ⟨x, by simp, by omega, by omega⟩
    · obtain ⟨y, hy, hat⟩ := hl.exists_at (by omega : w + len x ≤ o) (by omega)
      exact ⟨y, by simp [hy], hat⟩

theorem length_flatMap_piece {piece : α → List β} (hlen : ∀ x ∈ l, (piece x).length = len x) :
    (l.flatMap piece).length = totalLength len l := by
  rw [length_flatMap, totalLength, map_congr_left hlen]

theorem getElem?_flatMap_piece {piece : α → List β} (hlen : ∀ y ∈ l ++ x :: l', (piece y).length = len y) {k : Nat}
    (hk : k < len x) : ((l ++ x :: l').flatMap piece)[totalLength len l + k]? = (piece x)[k]? := by
  have hb := length_flatMap_piece fun y hy => hlen y (mem_append_left _ hy)
  rw [flatMap_append, flatMap_cons, ← hb, getElem?_append_right (Nat.le_add_right _ _),
    Nat.add_sub_cancel_left, getElem?_append_left (by rwa [hlen x (by simp)])]

section

variable {piece : α → List β} (hlen : ∀ x, (piece x).length = len x)
include hlen

theorem Tiles.piece_at : ∀ {l w}, Tiles place len w l → ∀ x ∈ l,
    ((l.flatMap piece).drop (place x - w)).take (len x) = piece x
  | y :: l, w, ⟨hy, hl⟩, x, hx => by
    rw [flatMap_cons]
    rcases mem_cons.1 hx with rfl | hx
    · rw [hy, Nat.sub_self, drop_zero, ← hlen, take_left]
    · have hle := hl.le_place x hx
      have hs : place x - w = (piece y).length + (place x - (w + len y)) := by rw [hlen]; omega
      rw [hs, drop_length_add_append, hl.piece_at x hx]

theorem flatMap_filter_pos : ∀ (l : List α), (l.filter fun x => 0 < len x).flatMap piece = l.flatMap piece
  | [] => rfl
  | x :: l => by
    by_cases hx : 0 < len x
    · rw [filter_cons_of_pos (by simpa using hx), flatMap_cons, flatMap_cons, flatMap_filter_pos l]
    · have hn : piece x = [] := length_eq_zero_iff.1 (by rw [hlen]; omega)
      rw [filter_cons_of_neg (by simpa using hx), flatMap_cons, hn, nil_append, flatMap_filter_pos l]

/-- The other items are strictly increasing, so sorting by place finds their order again. -/
theorem Tiles.flatMap_eq_of_sorted (h : Tiles place len w l) (hp : l'.Perm l)
    (hs : l'.Pairwise fun x y => place x ≤ place y) : l'.flatMap piece = l.flatMap piece := by
  have hr : Ranked place (l.filter fun x => 0 < len x) := by
    refine (h.pairwise.sublist filter_sublist).imp_of_mem fun {x y} hx _ hle => ?_
    have hps : 0 < len x := by simpa using (mem_filter.1 hx).2
    omega
  have hf : (l'.filter fun x => 0 < len x).Perm (l.filter fun x => 0 < len x) := hp.filter _
  have heq : (l'.filter fun x => 0 < len x) = l.filter fun x => 0 < len x := by
    refine List.Perm.eq_of_pairwise (fun x y hx hy hxy hyx => ?_) (hs.sublist filter_sublist)
      (hr.imp fun hlt => hlt.le) hf
    exact hr.eq_of_rank_eq (hf.mem_iff.1 hx) hy (le_antisymm hxy hyx)
  rw [← flatMap_filter_pos hlen l', heq, flatMap_filter_pos hlen l]

end

end Lib
