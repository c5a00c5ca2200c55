/-
Numbers printed in decimal inside a longer text: where no digit follows a number, the number and the
text after it can be read back.
-/
import Mathlib.Data.List.TakeWhile

namespace Lib

def decimal (n : Nat) : List Char := Nat.toDigits 10 n

def signedDecimal : Int → List Char
  | .ofNat n => decimal n
  | .negSucc n => '-' :: decimal (n + 1)

/-- The text does not go on with a digit. -/
def Delimited (s : List Char) : Prop := ∀ c ∈ s.head?, c.isDigit = false

theorem delimited_nil : Delimited [] := by simp [Delimited]

variable {s t : List Char} {n a b : Nat} {c : Char}

theorem isDigit_of_mem_decimal (h : c ∈ decimal n) : c.isDigit = true :=
  Nat.isDigit_of_mem_toDigits (by decide) (by decide) h

theorem decimal_inj (h : decimal a = decimal b) : a = b := by
  have := congrArg (fun l => Nat.ofDigitChars 10 l 0) h
  simpa [decimal, Nat.ofDigitChars_ten_toDigits] using this

theorem takeWhile_decimal_append (hs : Delimited s) : (decimal n ++ s).takeWhile Char.isDigit = decimal n := by
  rw [List.takeWhile_append_of_pos fun c hc => isDigit_of_mem_decimal hc]
  cases s with
  | nil => simp
  | cons c s => simp [hs c rfl]

theorem decimal_append_inj (hs : Delimited s) (ht : Delimited t) (h : decimal a ++ s = decimal b ++ t) :
    a = b ∧ s = t := by
  have hab : decimal a = decimal b := by
    rw [← takeWhile_decimal_append hs, h, takeWhile_decimal_append ht]
  rw [hab] at h
  exact ⟨decimal_inj hab, List.append_cancel_left h⟩

theorem head?_decimal_ne_minus (n : Nat) (s) : (decimal n ++ s).head? ≠ some '-' := by
  cases hd : decimal n with
  | nil => exact absurd hd (Nat.toDigits_ne_nil)
  | cons c l =>
    have := isDigit_of_mem_decimal (n := n) (c := c) (by simp [hd])
    rintro ⟨⟩
    exact absurd this (by decide)

theorem signedDecimal_append_inj {a b} (hs : Delimited s) (ht : Delimited t)
    (h : signedDecimal a ++ s = signedDecimal b ++ t) : a = b ∧ s = t := by
  match a, b with
  | .ofNat m, .ofNat n =>
    obtain ⟨rfl, rfl⟩ := decimal_append_inj hs ht h
    exact ⟨rfl, rfl⟩
  | .negSucc m, .negSucc n =>
    obtain ⟨hm, rfl⟩ := decimal_append_inj hs ht (List.cons.inj h).2
    exact ⟨by rw [Nat.succ.inj hm], rfl⟩
  | .ofNat m, .negSucc n => exact absurd (by rw [signedDecimal, signedDecimal] at h; rw [h]; rfl) (head?_decimal_ne_minus m s)
  | .negSucc m, .ofNat n => exact absurd (by rw [signedDecimal, signedDecimal] at h; rw [← h]; rfl) (head?_decimal_ne_minus n t)

theorem optional_append_inj {p q} [Decidable p] [Decidable q] {a b} (hs : s.head? ≠ some c)
    (ht : t.head? ≠ some c) (h : (if p then [] else c :: a) ++ s = (if q then [] else c :: b) ++ t) :
    (p ↔ q) ∧ (p → s = t) ∧ (¬p → a ++ s = b ++ t) := by
  by_cases hp : p <;> by_cases hq : q <;> simp only [hp, hq, if_true, if_false, List.nil_append, List.cons_append] at h
  · exact ⟨iff_of_true hp hq, fun _ => h, fun hn => absurd hp hn⟩
  · exact absurd (by rw [h]; rfl) hs
  · exact absurd (by rw [← h]; rfl) ht
  · exact ⟨iff_of_false hp hq, fun hp' => absurd hp' hp, fun _ => (List.cons.inj h).2⟩

end Lib
