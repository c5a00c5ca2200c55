/-
Lists that are strictly sorted by a rank in a linear order, and insertion into them with a comparison that agrees with
the rank.
-/
import Mathlib.Data.List.Perm.Basic
import Mathlib.Order.Lattice

namespace Lib

open List

variable {α β : Type} [LinearOrder β]

def Ranked (rank : α → β) (l : List α) : Prop := l.Pairwise fun a b => rank a < rank b

/-- The elements up to the first that comes after `a`, which is where `std::upper_bound` stops. -/
def notAfter (lt : α → α → Bool) (a : α) (l : List α) : List α := l.takeWhile fun b => !lt a b

def insertAt (lt : α → α → Bool) (a : α) (l : List α) : List α :=
  notAfter lt a l ++ a :: l.drop (notAfter lt a l).length

/-- Whether an element is neither before nor after `a`. -/
def containsEquivalent (lt : α → α → Bool) (a : α) (l : List α) : Bool := l.any fun b => !lt a b && !lt b a

/-- Insertion unless an equivalent element is there. -/
def insertSorted (lt : α → α → Bool) (a : α) (l : List α) : List α :=
  if containsEquivalent lt a l then l else insertAt lt a l

/-- The list that results from inserting the elements of `l` in turn. -/
def insertAll (lt : α → α → Bool) (l : List α) : List α := l.foldl (fun sorted a => insertSorted lt a sorted) []

variable {lt : α → α → Bool} {rank : α → β} {a : α} {l : List α}

/-- In a sorted list a condition that holds at the beginning selects a part that is found by going through it. -/
theorem mem_takeWhile_dropWhile {R p} (hl : l.Pairwise R) (hp : ∀ a b, R a b → p b → p a)
    (a : α) : (a ∈ l.takeWhile p ↔ a ∈ l ∧ p a) ∧ (a ∈ l.dropWhile p ↔ a ∈ l ∧ ¬ p a) := by
  induction l with
  | nil => simp
  | cons b l ih =>
    obtain ⟨hf, hl⟩ := pairwise_cons.1 hl
    by_cases hb : p b
    · rw [takeWhile_cons_of_pos hb, dropWhile_cons_of_pos hb, mem_cons, (ih hl).1, (ih hl).2]
      grind
    · have hn : ∀ x ∈ l, ¬ p x := fun x hx hpx => hb (hp b x (hf x hx) hpx)
      rw [takeWhile_cons_of_neg hb, dropWhile_cons_of_neg hb]
      grind

/-- A scan that stops at the first element without the property keeps those that have only such elements before them. -/
theorem mem_takeWhile_iff {R : α → α → Prop} {p} (hl : l.Pairwise R) (hR : ∀ a b, R a b → ¬ R b a) (a : α) :
    a ∈ l.takeWhile p ↔ a ∈ l ∧ p a ∧ ∀ b ∈ l, R b a → p b := by
  induction l with
  | nil => simp
  | cons b l ih =>
    obtain ⟨hf, hl⟩ := pairwise_cons.1 hl
    have hr := hR b b
    by_cases hb : p b
    · rw [takeWhile_cons_of_pos hb, mem_cons, ih hl]
      grind
    · rw [takeWhile_cons_of_neg hb]
      grind

/-- An element is among the last `n` if fewer than `n` come after it. -/
theorem mem_take_reverse_iff {R : α → α → Prop} [DecidableRel R] (hl : l.Pairwise R) (hR : ∀ a b, R a b → ¬ R b a)
    (ha : a ∈ l) (n) : a ∈ l.reverse.take n ↔ (l.filter (R a ·)).length < n := by
  obtain ⟨pre, post, rfl⟩ := append_of_mem ha
  obtain ⟨-, hp, hb⟩ := pairwise_append.1 hl
  have hf := (pairwise_cons.1 hp).1
  have hpre : pre.filter (R a ·) = [] := by
    simpa [filter_eq_nil_iff] using fun b h => hR b a (hb b h a mem_cons_self)
  have hpost : post.filter (R a ·) = post := by
    simpa [filter_eq_self] using hf
  have hn : a ∉ post := fun h => hR a a (hf a h) (hf a h)
  rw [filter_append, hpre, filter_cons_of_neg (by simpa using fun h => hR a a h h), hpost, reverse_append, reverse_cons,
    append_assoc, take_append, nil_append]
  constructor
  · intro h
    by_contra hle
    rw [length_reverse, Nat.sub_eq_zero_of_le (not_lt.1 hle), take_zero, append_nil] at h
    exact hn (mem_reverse.1 (mem_of_mem_take h))
  · intro h
    obtain ⟨k, hk⟩ := Nat.exists_eq_add_of_lt h
    rw [length_reverse, hk, show post.length + k + 1 - post.length = k + 1 by omega]
    simp

theorem insertAt_perm (lt) (a : α) (l) : (insertAt lt a l).Perm (a :: l) := by
  unfold insertAt
  have ht : notAfter lt a l = l.take (notAfter lt a l).length :=
    prefix_iff_eq_take.1 <| takeWhile_prefix _
  have hs : notAfter lt a l ++ l.drop (notAfter lt a l).length = l := by
    nth_rewrite 1 [ht]
    exact take_append_drop ..
  apply perm_middle.trans
  rw [hs]

theorem mem_insertAt {x} : x ∈ insertAt lt a l ↔ x = a ∨ x ∈ l := by
  rw [(insertAt_perm lt a l).mem_iff, mem_cons]

theorem map_insertSorted {γ : Type} {f : α → γ} {lt'} (h : ∀ a b, lt' (f a) (f b) = lt a b) :
    (insertSorted lt a l).map f = insertSorted lt' (f a) (l.map f) := by
  have hc : containsEquivalent lt' (f a) (l.map f) = containsEquivalent lt a l := by
    simp [containsEquivalent, any_map, Function.comp_def, h]
  have hn : notAfter lt' (f a) (l.map f) = (notAfter lt a l).map f := by
    simp [notAfter, takeWhile_map, Function.comp_def, h]
  unfold insertSorted
  rw [hc]
  split
  · rfl
  · simp [insertAt, hn]

theorem length_takeWhile_eq_countP {p} : ∀ {l : List α}, (l.Pairwise fun a b => p b = true → p a = true) →
    (l.takeWhile p).length = l.countP p
  | [], _ => rfl
  | a :: l, h => by
    obtain ⟨ha, hl⟩ := pairwise_cons.1 h
    by_cases hp : p a = true
    · rw [takeWhile_cons_of_pos hp, countP_cons_of_pos hp, length_cons, length_takeWhile_eq_countP hl]
    · have hn : ∀ b ∈ a :: l, ¬ p b = true := forall_mem_cons.2 ⟨hp, fun b hb hpb => hp (ha b hb hpb)⟩
      rw [takeWhile_cons_of_neg hp, countP_eq_zero.2 hn]
      rfl

section

variable (hlt : ∀ a b, lt a b = true ↔ rank a < rank b)
include hlt

theorem containsEquivalent_iff : containsEquivalent lt a l = true ↔ ∃ b ∈ l, rank b = rank a := by
  have hi : ∀ b, (!lt a b && !lt b a) = true ↔ rank b = rank a := by
    intro b
    rw [Bool.and_eq_true, Bool.not_eq_true', Bool.not_eq_true', ← Bool.not_eq_true, ← Bool.not_eq_true, hlt, hlt, not_lt,
      not_lt]
    exact le_antisymm_iff.symm
  unfold containsEquivalent
  rw [any_eq_true]
  exact exists_congr fun b => and_congr_right fun _ => hi b

theorem Ranked.insertAt (h : Ranked rank l) (hn : ∀ b ∈ l, rank b ≠ rank a) : Ranked rank (insertAt lt a l) := by
  induction l with
  | nil => exact pairwise_singleton ..
  | cons b l ih =>
    obtain ⟨hb, hl⟩ := pairwise_cons.1 h
    by_cases hab : lt a b = true
    · -- the first element already comes after
      have ht : Lib.insertAt lt a (b :: l) = a :: b :: l := by simp [Lib.insertAt, notAfter, hab]
      rw [ht]
      refine pairwise_cons.2 ⟨?_, h⟩
      intro x hx
      have hf := (hlt a b).1 hab
      rcases mem_cons.1 hx with rfl | hx
      · exact hf
      · exact hf.trans (hb x hx)
    · have hs : Lib.insertAt lt a (b :: l) = b :: Lib.insertAt lt a l := by simp [Lib.insertAt, notAfter, hab]
      rw [hs]
      refine pairwise_cons.2 ⟨?_, ih hl fun x hx => hn x (by simp [hx])⟩
      intro x hx
      rcases mem_insertAt.1 hx with rfl | hx
      · exact lt_of_le_of_ne (not_lt.1 fun hl' => hab ((hlt _ _).2 hl')) (hn b (by simp))
      · exact hb x hx

theorem Ranked.insertSorted (h : Ranked rank l) : Ranked rank (insertSorted lt a l) := by
  unfold Lib.insertSorted
  split
  · exact h
  · rename_i hnew
    rw [containsEquivalent_iff hlt] at hnew
    exact h.insertAt hlt fun b hb heq => hnew ⟨b, hb, heq⟩

theorem insertSorted_perm (hn : ∀ b ∈ l, rank b ≠ rank a) : (Lib.insertSorted lt a l).Perm (a :: l) := by
  have hc : ¬ containsEquivalent lt a l = true := by
    rw [containsEquivalent_iff hlt]
    rintro ⟨b, hb, heq⟩
    exact hn b hb heq
  unfold Lib.insertSorted
  rw [if_neg hc]
  exact insertAt_perm lt a l

theorem foldl_insertSorted : ∀ (l sorted : List α), Ranked rank sorted →
    (sorted ++ l).Pairwise (fun a b => rank a ≠ rank b) →
    Ranked rank (l.foldl (fun sorted a => Lib.insertSorted lt a sorted) sorted) ∧
      (l.foldl (fun sorted a => Lib.insertSorted lt a sorted) sorted).Perm (sorted ++ l)
  | [], sorted, hs, _ => by simpa using hs
  | a :: l, sorted, hs, hne => by
    have hn : ∀ b ∈ sorted, rank b ≠ rank a := fun b hb => (pairwise_append.1 hne).2.2 b hb a (by simp)
    have hp := ((insertSorted_perm hlt hn).append_right l).trans perm_middle.symm
    have hn' := (hp.pairwise_iff fun h => Ne.symm h).2 hne
    obtain ⟨hr, ht⟩ := foldl_insertSorted l _ (hs.insertSorted hlt) hn'
    exact ⟨hr, ht.trans hp⟩

theorem insertAll_spec (hne : l.Pairwise fun a b => rank a ≠ rank b) :
    Ranked rank (insertAll lt l) ∧ (insertAll lt l).Perm l :=
  foldl_insertSorted hlt l [] List.Pairwise.nil hne

end

theorem Ranked.nodup (h : Ranked rank l) : l.Nodup :=
  List.Pairwise.imp (fun hab heq => absurd (heq ▸ hab) (lt_irrefl _)) h

theorem Ranked.eq_of_rank_eq {x y} (h : Ranked rank l) (hx : x ∈ l) (hy : y ∈ l) (heq : rank x = rank y) : x = y := by
  obtain ⟨i, hi, rfl⟩ := mem_iff_getElem.1 hx
  obtain ⟨j, hj, rfl⟩ := mem_iff_getElem.1 hy
  rcases lt_trichotomy i j with hij | rfl | hij
  · exact absurd heq (pairwise_iff_getElem.1 h i j hi hj hij).ne
  · rfl
  · exact absurd heq (pairwise_iff_getElem.1 h j i hj hi hij).ne'

theorem Ranked.countP_lt (h : Ranked rank l) {i} (hi : i < l.length) :
    l.countP (fun x => decide (rank x < rank l[i])) = i := by
  have hb : (l.take i).countP (fun x => decide (rank x < rank l[i])) = i := by
    have ha : ∀ x ∈ l.take i, decide (rank x < rank l[i]) = true := by
      intro x hx
      obtain ⟨j, hj, rfl⟩ := mem_iff_getElem.1 hx
      rw [length_take] at hj
      rw [getElem_take, decide_eq_true_eq]
      exact pairwise_iff_getElem.1 h j i (by omega) hi (by omega)
    rw [countP_eq_length.2 ha, length_take]
    omega
  have hf : (l.drop i).countP (fun x => decide (rank x < rank l[i])) = 0 := by
    refine countP_eq_zero.2 ?_
    intro x hx
    obtain ⟨j, hj, rfl⟩ := mem_iff_getElem.1 hx
    rw [length_drop] at hj
    rw [getElem_drop, decide_eq_true_eq, not_lt]
    rcases Nat.eq_zero_or_pos j with rfl | hp
    · exact le_of_eq (by simp)
    · exact (pairwise_iff_getElem.1 h i (i + j) hi (by omega) (by omega)).le
  have hs : (l.take i ++ l.drop i).countP (fun x => decide (rank x < rank l[i])) = _ := countP_append
  rw [take_append_drop, hb, hf] at hs
  exact hs

/-- So an element of a sorted list is at the place that its smaller elements take up in any
permutation of the list. -/
theorem Ranked.getElem?_countP {l'} (h : Ranked rank l) (hp : l.Perm l') {x} (hx : x ∈ l') :
    l[l'.countP fun y => decide (rank y < rank x)]? = some x := by
  obtain ⟨i, hi, rfl⟩ := mem_iff_getElem.1 (hp.mem_iff.2 hx)
  rw [← hp.countP_eq, h.countP_lt hi, getElem?_eq_getElem hi]

end Lib
