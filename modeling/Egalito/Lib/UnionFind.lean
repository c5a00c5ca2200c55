/-
A union-find structure without ranks: a comparison decides which of two roots becomes the parent of the other.
-/
import Mathlib.Data.Fintype.Pigeonhole
import Mathlib.Logic.Function.Iterate

namespace Lib

open Function

/-- A root is reached from the element. -/
inductive Rooted {α : Type} (parent : α → α) : α → Prop
  | root {x : α} (h : parent x = x) : Rooted parent x
  | step {x : α} (h : Rooted parent (parent x)) : Rooted parent x

theorem Rooted.exists_iterate {α : Type} {parent} {x : α} (h : Rooted parent x) :
    ∃ k, parent (parent^[k] x) = parent^[k] x := by
  induction h with
  | root h => exact ⟨0, h⟩
  | step _ ih =>
    obtain ⟨k, hk⟩ := ih
    exact ⟨k + 1, hk⟩

structure UnionFind (n : Nat) where
  parent : Fin n → Fin n
  rooted : ∀ x, Rooted parent x

namespace UnionFind

variable {n : Nat}

def new (n : Nat) : UnionFind n := ⟨id, fun _ => Rooted.root rfl⟩

/-! ## Representatives -/

def findLoop (parent : Fin n → Fin n) : Nat → Fin n → Option (Fin n)
  | 0, _ => none
  | fuel + 1, x => if parent x = x then some x else findLoop parent fuel (parent x)

variable {x y : Fin n} {compare : Fin n → Fin n → Ordering} {parent : Fin n → Fin n} {k : Nat}

theorem findLoop_eq_none : ∀ {fuel : Nat} {x : Fin n}, findLoop parent fuel x = none →
    ∀ k < fuel, parent (parent^[k] x) ≠ parent^[k] x
  | 0, _, _, _, hk => absurd hk (Nat.not_lt_zero _)
  | fuel + 1, x, h, k, hk => by
    rw [findLoop] at h
    split at h
    · cases h
    · next hne =>
      cases k with
      | zero => exact hne
      | succ k => exact findLoop_eq_none h k (Nat.lt_of_succ_lt_succ hk)

theorem findLoop_eq_some : ∀ {fuel : Nat} {x r : Fin n}, findLoop parent fuel x = some r →
    parent r = r ∧ ∃ k, r = parent^[k] x
  | fuel + 1, x, r, h => by
    rw [findLoop] at h
    split at h
    · next ht =>
      cases h
      exact ⟨ht, 0, rfl⟩
    · obtain ⟨hr, k, hk⟩ := findLoop_eq_some h
      exact ⟨hr, k + 1, hk⟩

variable (u : UnionFind n)

/-- The elements on the way to the first root are all different. -/
theorem iterate_ne {i j} (hij : i < j) (hjk : j ≤ k) (hm : ∀ l < k, u.parent (u.parent^[l] x) ≠ u.parent^[l] x)
    (hk : u.parent (u.parent^[k] x) = u.parent^[k] x) : u.parent^[i] x ≠ u.parent^[j] x := by
  intro heq
  -- going on from `i` as from `j` leads to the root too early
  have hs : u.parent^[k - j + i] x = u.parent^[k] x := by
    rw [iterate_add_apply, heq, ← iterate_add_apply, Nat.sub_add_cancel hjk]
  apply hm (k - j + i) (by omega)
  rw [hs]
  exact hk

theorem isSome_findLoop (x : Fin n) : (findLoop u.parent n x).isSome := by
  by_contra hn
  have hm := findLoop_eq_none (Option.not_isSome_iff_eq_none.1 hn)
  have hr := (u.rooted x).exists_iterate
  have hg : n ≤ Nat.find hr := by
    by_contra hlt
    exact hm _ (Nat.lt_of_not_le hlt) (Nat.find_spec hr)
  obtain ⟨i, j, hne, heq⟩ := Fintype.exists_ne_map_eq_of_card_lt (fun i : Fin (n + 1) => u.parent^[i.val] x) (by simp)
  have hd {i j : Fin (n + 1)} (hij : i < j) : u.parent^[i.val] x ≠ u.parent^[j.val] x :=
    u.iterate_ne hij ((Nat.le_of_lt_succ j.isLt).trans hg) (fun _ hl => Nat.find_min hr hl) (Nat.find_spec hr)
  rcases lt_or_gt_of_ne hne with hij | hij
  · exact hd hij heq
  · exact hd hij heq.symm

def find (x : Fin n) : Fin n := (findLoop u.parent n x).get (u.isSome_findLoop x)

theorem findLoop_eq_find (x) : findLoop u.parent n x = some (u.find x) := (Option.some_get _).symm

theorem parent_find (x) : u.parent (u.find x) = u.find x := (findLoop_eq_some (u.findLoop_eq_find x)).1

variable {u} {R : Fin n → Fin n → Prop}

/-- There is only one root on the way from an element. -/
theorem find_eq_iterate (h : u.parent (u.parent^[k] x) = u.parent^[k] x) : u.find x = u.parent^[k] x := by
  obtain ⟨hr, j, hj⟩ := findLoop_eq_some (u.findLoop_eq_find x)
  have hs {i : Nat} (hi : u.parent (u.parent^[i] x) = u.parent^[i] x) (l : Nat) : u.parent^[l + i] x = u.parent^[i] x := by
    rw [iterate_add_apply]
    exact iterate_fixed hi l
  rw [hj] at hr ⊢
  rw [← hs hr k, add_comm, hs h j]

theorem find_eq_self (h : u.parent x = x) : u.find x = x := find_eq_iterate (k := 0) h

theorem find_parent (x) : u.find (u.parent x) = u.find x := by
  obtain ⟨hr, k, hk⟩ := findLoop_eq_some (u.findLoop_eq_find (u.parent x))
  rw [hk] at hr ⊢
  exact (find_eq_iterate (k := k + 1) hr).symm

theorem find_rel (hr : ∀ x, R x x) (ht : ∀ x y z, R x y → R y z → R x z) (he : ∀ x, R x (u.parent x))
    (x) : R x (u.find x) := by
  obtain ⟨-, k, hk⟩ := findLoop_eq_some (u.findLoop_eq_find x)
  have hi : ∀ k, R x (u.parent^[k] x) := by
    intro k
    induction k with
    | zero => exact hr x
    | succ k ih =>
      rw [iterate_succ_apply']
      exact ht _ _ _ ih (he _)
  rw [hk]
  exact hi k

/-! ## Joining classes -/

def link (u : UnionFind n) (x y : Fin n) (hy : u.parent y = y) : UnionFind n where
  parent := Function.update u.parent x y
  rooted := by
    have hrootY : Rooted (update u.parent x y) y := by
      apply Rooted.root
      by_cases hxy : y = x
      · rw [hxy, update_self]
      · rw [update_of_ne hxy, hy]
    have hrootX : Rooted (update u.parent x y) x := by
      apply Rooted.step
      rwa [update_self]
    intro z
    induction u.rooted z with
    | @root z h =>
      by_cases hz : z = x
      · rwa [hz]
      · apply Rooted.root
        rw [update_of_ne hz, h]
    | @step z _ ih =>
      by_cases hz : z = x
      · rwa [hz]
      · apply Rooted.step
        rwa [update_of_ne hz]

/-- The root that compares as the smaller one gets the other one as its parent. -/
def join (u : UnionFind n) (compare : Fin n → Fin n → Ordering) (x y : Fin n) : UnionFind n :=
  match compare (u.find x) (u.find y) with
  | .lt => u.link (u.find x) (u.find y) (u.parent_find y)
  | .gt => u.link (u.find y) (u.find x) (u.parent_find x)
  | .eq => u

theorem parent_link (hy : u.parent y = y) (z) : (u.link x y hy).parent z = if z = x then y else u.parent z :=
  Function.update_apply ..

theorem link_edges {hy} (h : ∀ z, R z (u.parent z)) (hxy : R x y) (z) : R z ((u.link x y hy).parent z) := by
  rw [parent_link]
  split
  · next hz => rwa [hz]
  · exact h z

theorem join_edges (h : ∀ z, R z (u.parent z)) (hlt : compare (u.find x) (u.find y) = .lt → R (u.find x) (u.find y))
    (hgt : compare (u.find x) (u.find y) = .gt → R (u.find y) (u.find x)) (z) :
    R z ((u.join compare x y).parent z) := by
  unfold join
  split
  · next hc => exact link_edges h (hlt hc) z
  · next hc => exact link_edges h (hgt hc) z
  · exact h z

theorem find_link {hy} (hx : u.parent x = x) (z) :
    (u.link x y hy).find z = if u.find z = x then y else u.find z := by
  -- the right side is the same for an element and its parent, and is the element itself at a root
  let root (w : Fin n) : Fin n := if u.find w = x then y else u.find w
  have hs (w : Fin n) : root w = root ((u.link x y hy).parent w) := by
    rw [parent_link]
    by_cases hw : w = x
    · simp [root, hw, find_eq_self hx, find_eq_self hy]
    · simp [root, hw, find_parent]
  have hf : root z = root ((u.link x y hy).find z) :=
    find_rel (R := fun a b => root a = root b) (fun _ => rfl) (fun _ _ _ => Eq.trans) hs z
  have hr := (u.link x y hy).parent_find z
  rw [parent_link] at hr
  refine Eq.trans ?_ hf.symm
  split at hr
  · next hz =>
    have hxy := hr.trans hz
    simp only [root, hz, find_eq_self hx, if_true]
    exact hxy.symm
  · next hz => simp [root, hz, find_eq_self hr]

/-- The two classes get the root that compares as the larger one, and the others keep theirs. -/
theorem find_join (h : compare (u.find x) (u.find y) ≠ .eq) (z) :
    (u.join compare x y).find z = if u.find z = u.find x ∨ u.find z = u.find y then
      if compare (u.find x) (u.find y) = .gt then u.find x else u.find y
    else u.find z := by
  unfold join
  split
  · next hc =>
    rw [find_link (u.parent_find x), hc]
    by_cases hx : u.find z = u.find x
    · simp [hx]
    · by_cases hy : u.find z = u.find y
      · simp [hy]
      · simp [hx, hy]
  · next hc =>
    rw [find_link (u.parent_find y), hc]
    by_cases hx : u.find z = u.find x
    · simp [hx]
    · by_cases hy : u.find z = u.find y
      · simp [hy]
      · simp [hx, hy]
  · next hc => exact absurd hc h

end UnionFind

end Lib
