/-
Items placed one after the other where the size of an item may depend on where it starts, as that of
a padding does.
-/
import Mathlib.Data.List.Basic

namespace Lib

variable {α : Type} {size : α → Nat → Nat} {l l' : List α} {x : α} {start i : Nat}

def finish (size : α → Nat → Nat) : Nat → List α → Nat
  | start, [] => start
  | start, x :: l => finish size (start + size x start) l

def starts (size : α → Nat → Nat) : Nat → List α → List Nat
  | _, [] => []
  | start, x :: l => start :: starts size (start + size x start) l

@[simp] theorem finish_cons : finish size start (x :: l) = finish size (start + size x start) l := rfl

@[simp] theorem finish_append : ∀ {l start}, finish size start (l ++ l') = finish size (finish size start l) l'
  | [], _ => rfl
  | x :: l, start => by rw [List.cons_append, finish_cons, finish_cons, finish_append]

theorem getElem?_starts : ∀ {l start i}, i < l.length → (starts size start l)[i]? = some (finish size start (l.take i))
  | [], _, _, h => absurd h (Nat.not_lt_zero _)
  | x :: l, start, 0, _ => rfl
  | x :: l, start, i + 1, h => by
    rw [starts, List.getElem?_cons_succ, List.take_succ_cons, finish_cons, getElem?_starts (Nat.lt_of_succ_lt_succ h)]

theorem finish_take_append (h : i ≤ l.length) : finish size start ((l ++ l').take i) = finish size start (l.take i) := by
  rw [List.take_append_of_le_length h]

end Lib
