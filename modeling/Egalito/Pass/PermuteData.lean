/-
The new layout of `.data` (`pass/permutedata.cpp`): the ranges between global variables are shuffled and their bytes
moved.

Bytes are followed through the copying, offsets through the map of the new layout; `permuted_consistent_iff` says when
the two agree, for every shuffle.
-/
import Egalito.Lib.OrderedMap
import Egalito.Lib.Tiling
import Egalito.Util.Range

namespace Egalito.Pass

open Lib List

namespace PermuteData

structure GlobalVariable where
  pointer : Nat
  range : Range
  deriving DecidableEq, Repr

/-- `.data`, with the bytes of the region it is in. A variable is in the section that contains its address. -/
structure DataSection where
  range : Range
  originalOffset : Nat
  globalVariables : List GlobalVariable
  dataBytes : List (BitVec 8)
  contained : ∀ gv ∈ globalVariables, range.containsPoint gv.range.start = true
  backed : originalOffset + range.size.toNat ≤ dataBytes.length

structure Span where
  start : Nat
  stop : Nat
  deriving DecidableEq, Repr

def Span.size (r : Span) : Nat := r.stop - r.start

namespace DataSection

variable (ds : DataSection) (ignore : List GlobalVariable)

def size : Nat := ds.range.size.toNat

def splitPoints : List Nat :=
  (assignAll ((ds.globalVariables.filter (· ∉ ignore)).map fun gv => (gv.range.lo, ()))).map Prod.fst

end DataSection

/-- The loop over the split points, from the end `prev` of the last range on. -/
def rangesFrom (size : Nat) : Nat → List Nat → List Span
  | prev, [] => if prev ≠ size then [⟨prev, size⟩] else []
  | prev, addr :: splitPoints => ⟨prev, addr⟩ :: rangesFrom size addr splitPoints

/-- The ranges between the split points, the first one from the start of the section. -/
def DataSection.ranges (ds : DataSection) (ignore : List GlobalVariable) : List Span :=
  rangesFrom ds.size 0 ((ds.splitPoints ignore).map (· - ds.range.lo))

/-- The entries of `newlayout` in the order of the shuffle. -/
def placesFrom : Nat → List Span → List (Nat × Span)
  | _, [] => []
  | lastend, nr :: shuffle => (nr.start, ⟨lastend, lastend + nr.size⟩) :: placesFrom (lastend + nr.size) shuffle

def newlayout (shuffle : List Span) : List (Nat × Span) := assignAll (placesFrom 0 shuffle)

def newOffset (shuffle : List Span) (offset : Nat) : Except Failure Nat :=
  match floor offset (newlayout shuffle) with
  | none => .error .assertion
  | some (key, place) => .ok (place.start + (offset - key))

variable {α : Type}

def overwrite (buffer : List α) (start : Nat) (bytes : List α) : List α :=
  buffer.take start ++ bytes ++ buffer.drop (start + bytes.length)

def moved (old : List α) (offset : Nat) (nr : Span) : List α := (old.drop (offset + nr.start)).take nr.size

def copyFrom (old : List α) (offset : Nat) : Nat → List α → List Span → List α
  | _, new, [] => new
  | lastend, new, nr :: shuffle =>
    copyFrom old offset (lastend + nr.size) (overwrite new lastend (moved old offset nr)) shuffle

/-- The bytes given to `saveDataBytes`, `zero` being the byte the buffer is filled with. -/
def newData (zero : α) (old : List α) (offset size : Nat) (shuffle : List Span) : List α :=
  copyFrom old offset 0 (replicate size zero) shuffle

/-! ## The ranges -/

theorem mem_splitPoints {ds : DataSection} {ignore : List GlobalVariable} {addr : Nat} :
    addr ∈ ds.splitPoints ignore ↔ ∃ gv ∈ ds.globalVariables, gv ∉ ignore ∧ gv.range.lo = addr := by
  simp [DataSection.splitPoints, mem_keys_assignAll, and_assoc]

theorem DataSection.offset_lt_size {ds : DataSection} {gv : GlobalVariable} (h : gv ∈ ds.globalVariables) :
    ds.range.lo ≤ gv.range.lo ∧ gv.range.lo - ds.range.lo < ds.size := by
  obtain ⟨hlo, hhi⟩ := Range.covers_of_containsPoint (ds.contained gv h)
  unfold Range.hi at hhi
  unfold Range.lo DataSection.size at *
  omega

/-- The ranges cover the section once, and only one at its start can be empty. -/
structure Covers (size : Nat) (l : List Span) : Prop where
  total : totalLength Span.size l = size
  covered : ∀ o < size, ∃ r ∈ l, r.start ≤ o ∧ o < r.start + r.size
  stop_eq : ∀ r ∈ l, r.stop = r.start + r.size ∧ r.stop ≤ size
  apart : ∀ r ∈ l, ∀ r' ∈ l, r ≠ r' → r.stop ≤ r'.start ∨ r'.stop ≤ r.start
  empty : ∀ r ∈ l, r.size = 0 → r.start = 0
  nodup : l.Nodup

variable {l : List Span} {old : List α} {offset : Nat}

theorem Covers.perm {size l'} (h : Covers size l) (hp : l'.Perm l) : Covers size l' where
  total := (totalLength_perm hp).trans h.total
  covered o ho := by
    obtain ⟨r, hr, hat⟩ := h.covered o ho
    exact ⟨r, hp.mem_iff.2 hr, hat⟩
  stop_eq r hr := h.stop_eq r (hp.mem_iff.1 hr)
  apart r hr r' hr' := h.apart r (hp.mem_iff.1 hr) r' (hp.mem_iff.1 hr')
  empty r hr := h.empty r (hp.mem_iff.1 hr)
  nodup := hp.nodup_iff.2 h.nodup

/-- What the loop adds after a range that ends at `prev`: the split points ascend from there on. -/
structure Splits (size prev : Nat) (l : List Span) : Prop where
  tiles : Tiles Span.start Span.size prev l
  total : prev + totalLength Span.size l = size
  nonempty : ∀ r ∈ l, r.start < r.stop

theorem splits_rangesFrom {size} : ∀ {splits prev}, prev ≤ size →
    (prev :: splits).Pairwise (· < ·) → (∀ a ∈ splits, a < size) → Splits size prev (rangesFrom size prev splits)
  | [], prev, hp, _, _ => by
    unfold rangesFrom
    split
    · next hne =>
      refine ⟨⟨rfl, trivial⟩, ?_, ?_⟩
      · simp only [totalLength_cons, totalLength_nil, Span.size]
        omega
      · simp only [mem_singleton, forall_eq]
        omega
    · next heq => exact ⟨trivial, not_not.1 heq, by simp⟩
  | a :: splits, prev, hp, hc, hlt => by
    obtain ⟨hv, ht⟩ := pairwise_cons.1 hc
    have hsp := hv a (by simp)
    have ha := hlt a (by simp)
    obtain ⟨hl, htt, hn⟩ := splits_rangesFrom ha.le ht fun b hb => hlt b (by simp [hb])
    have hs : prev + (Span.mk prev a).size = a := by simp only [Span.size]; omega
    unfold rangesFrom
    refine ⟨⟨rfl, ?_⟩, ?_, ?_⟩
    · rwa [hs]
    · rw [totalLength_cons, ← add_assoc, hs, htt]
    · rintro r (_ | ⟨_, hr⟩)
      · exact hsp
      · exact hn r hr

theorem Splits.stop_eq {size prev} (h : Splits size prev l) : ∀ r ∈ l, r.stop = r.start + r.size := by
  intro r hr
  have := h.nonempty r hr
  unfold Span.size
  omega

theorem Splits.covers {size} (h : Splits size 0 l) : Covers size l where
  total := by simpa using h.total
  covered o ho := h.tiles.exists_at (Nat.zero_le o) (by rwa [h.total])
  stop_eq r hr := by
    obtain ⟨pre, post, rfl⟩ := append_of_mem hr
    have hl := (tiles_append.1 h.tiles).2.1
    have ht := h.total
    rw [totalLength_append, totalLength_cons] at ht
    have := h.stop_eq r hr
    omega
  apart r hr r' hr' hne := by
    have hs : Std.Symm fun r r' : Span => r.stop ≤ r'.start ∨ r'.stop ≤ r.start := ⟨fun _ _ => Or.symm⟩
    have hp : l.Pairwise fun r r' => r.stop ≤ r'.start ∨ r'.stop ≤ r.start :=
      h.tiles.pairwise.imp_of_mem fun {x _} hx _ hle => .inl ((h.stop_eq x hx).trans_le hle)
    exact hp.forall hr hr' hne
  empty r hr hsize := by
    have := h.nonempty r hr
    unfold Span.size at hsize
    omega
  nodup := by
    refine h.tiles.pairwise.imp_of_mem fun {x y} hx _ hle heq => ?_
    subst heq
    have := h.nonempty x hx
    unfold Span.size at hle
    omega

theorem Covers.cons_empty {size} (h : Covers size l) (hn : ∀ r ∈ l, r.start < r.stop) :
    Covers size (⟨0, 0⟩ :: l) where
  total := (zero_add _).trans h.total
  covered o ho := by
    obtain ⟨r, hr, hat⟩ := h.covered o ho
    exact ⟨r, mem_cons_of_mem _ hr, hat⟩
  stop_eq := forall_mem_cons.2 ⟨⟨rfl, Nat.zero_le _⟩, h.stop_eq⟩
  apart := by
    rintro r (_ | ⟨_, hr⟩) r' (_ | ⟨_, hr'⟩) hne
    · exact absurd rfl hne
    · exact .inl (Nat.zero_le _)
    · exact .inr (Nat.zero_le _)
    · exact h.apart r hr r' hr' hne
  empty := forall_mem_cons.2 ⟨fun _ => rfl, h.empty⟩
  nodup := nodup_cons.2 ⟨fun hm => absurd (hn _ hm) (lt_irrefl 0), h.nodup⟩

theorem covers_ranges (ds : DataSection) (ignore : List GlobalVariable) : Covers ds.size (ds.ranges ignore) := by
  have hd : ∀ a ∈ ds.splitPoints ignore, ds.range.lo ≤ a ∧ a - ds.range.lo < ds.size := by
    intro a ha
    obtain ⟨gv, hg, -, rfl⟩ := mem_splitPoints.1 ha
    exact ds.offset_lt_size hg
  have hc : ((ds.splitPoints ignore).map (· - ds.range.lo)).Pairwise (· < ·) := by
    rw [pairwise_map]
    refine (pairwise_map.2 (ranked_assignAll _)).imp_of_mem fun {a b} ha hb hlt => ?_
    have := hd a ha
    have := hd b hb
    omega
  have hlt : ∀ a ∈ (ds.splitPoints ignore).map (· - ds.range.lo), a < ds.size := by
    simpa using fun a ha => (hd a ha).2
  unfold DataSection.ranges
  -- only a split point at the start makes an empty range
  cases hs : (ds.splitPoints ignore).map (· - ds.range.lo) with
  | nil => exact (splits_rangesFrom (Nat.zero_le _) (by simp) (by simp)).covers
  | cons a splits =>
    rw [hs] at hc hlt
    obtain ⟨ha, ht⟩ := forall_mem_cons.1 hlt
    rcases Nat.eq_zero_or_pos a with rfl | hpos
    · have h := splits_rangesFrom (Nat.zero_le _) hc ht
      exact h.covers.cons_empty h.nonempty
    · refine (splits_rangesFrom (Nat.zero_le _) (List.Pairwise.cons (fun b hb => ?_) hc) hlt).covers
      rcases mem_cons.1 hb with rfl | hb
      · exact hpos
      · exact hpos.trans ((pairwise_cons.1 hc).1 b hb)

/-! ## The new places -/

theorem placesFrom_append : ∀ l w l',
    placesFrom w (l ++ l') = placesFrom w l ++ placesFrom (w + totalLength Span.size l) l'
  | [], _, _ => rfl
  | r :: l, w, l' => by
    rw [cons_append, placesFrom, placesFrom_append l, placesFrom, totalLength_cons, add_assoc]
    rfl

theorem map_fst_placesFrom : ∀ l w, (placesFrom w l).map Prod.fst = l.map Span.start
  | [], _ => rfl
  | r :: l, w => by rw [placesFrom, map_cons, map_fst_placesFrom l, map_cons]

theorem placesFrom_eq_append : ∀ {before l w e after}, placesFrom w l = before ++ e :: after →
    ∃ l₁ r l₂ w', l = l₁ ++ r :: l₂ ∧ after = placesFrom w' l₂ ∧
      e = (r.start, ⟨w + totalLength Span.size l₁, w + totalLength Span.size l₁ + r.size⟩)
  | [], r :: l, w, e, after, h => by
    obtain ⟨rfl, rfl⟩ := cons.inj h
    exact ⟨[], r, l, _, rfl, rfl, rfl⟩
  | e' :: before, r :: l, w, e, after, h => by
    obtain ⟨-, h⟩ := cons.inj h
    obtain ⟨l₁, r', l₂, w', rfl, rfl, rfl⟩ := placesFrom_eq_append h
    refine ⟨r :: l₁, r', l₂, w', rfl, rfl, ?_⟩
    rw [totalLength_cons, ← add_assoc]

/-- A range has a place of its own unless a later one has the same start. -/
theorem mem_newlayout {shuffle e} : e ∈ newlayout shuffle ↔
    ∃ l₁ r l₂, shuffle = l₁ ++ r :: l₂ ∧ (∀ r' ∈ l₂, r'.start ≠ r.start) ∧
      e = (r.start, ⟨totalLength Span.size l₁, totalLength Span.size l₁ + r.size⟩) := by
  rw [newlayout, mem_assignAll]
  constructor
  · rintro ⟨pre, post, heq, ha⟩
    obtain ⟨l₁, r, l₂, w', rfl, rfl, rfl⟩ := placesFrom_eq_append heq
    rw [zero_add] at *
    refine ⟨l₁, r, l₂, rfl, fun r' hr' => ?_, rfl⟩
    have hk : r'.start ∈ (placesFrom w' l₂).map Prod.fst := by
      rw [map_fst_placesFrom]
      exact mem_map_of_mem hr'
    obtain ⟨e', he', hq'⟩ := mem_map.1 hk
    exact hq' ▸ ha e' he'
  · rintro ⟨l₁, r, l₂, rfl, hlt, rfl⟩
    refine ⟨_, _, by rw [placesFrom_append, placesFrom, zero_add], fun e' he' => ?_⟩
    have hk := map_fst_placesFrom l₂ _ ▸ mem_map_of_mem he'
    obtain ⟨r', hr', heq⟩ := mem_map.1 hk
    exact heq ▸ hlt r' hr'

section

variable {size : Nat} {shuffle l₁ l₂ : List Span} {r : Span} {o : Nat}

theorem newOffset_of_mem (h : Covers size shuffle) (heq : shuffle = l₁ ++ r :: l₂)
    (hl : ∀ r' ∈ l₂, r'.start ≠ r.start) (hle : r.start ≤ o) (hlt : o < r.start + r.size) :
    newOffset shuffle o = .ok (totalLength Span.size l₁ + (o - r.start)) := by
  have hr : r ∈ shuffle := by simp [heq]
  have hf : floor o (newlayout shuffle) =
      some (r.start, ⟨totalLength Span.size l₁, totalLength Span.size l₁ + r.size⟩) := by
    refine (floor_eq_some (ranked_assignAll _)).2 ⟨mem_newlayout.2 ⟨l₁, r, l₂, heq, hl, rfl⟩, hle, ?_⟩
    intro e he hb
    obtain ⟨l₁', r', l₂', he', -, rfl⟩ := mem_newlayout.1 he
    -- a range that begins before `o` and is not `r` ends before `r`
    by_cases hne : r' = r
    · rw [hne]
    · have hr' : r' ∈ shuffle := by simp [he']
      have := h.stop_eq r hr
      have := h.stop_eq r' hr'
      have := h.apart r' hr' r hr hne
      simp only at hb ⊢
      omega
  rw [newOffset, hf]

/-- Of two ranges with the same start, the empty one comes first in the shuffle. -/
def EmptyFirst (shuffle : List Span) : Prop := shuffle.Pairwise fun r r' => r.start = r'.start → r.size = 0

instance (shuffle : List Span) : Decidable (EmptyFirst shuffle) := inferInstanceAs (Decidable (List.Pairwise _ _))

theorem EmptyFirst.start_ne (h : EmptyFirst (l₁ ++ r :: l₂)) (hpos : 0 < r.size) : ∀ r' ∈ l₂, r'.start ≠ r.start := by
  intro r' hr' heq
  have hp := (pairwise_cons.1 (pairwise_append.1 h).2.1).1 r' hr' heq.symm
  omega

theorem length_moved (hb : offset + size ≤ old.length) (h : r.stop = r.start + r.size ∧ r.stop ≤ size) :
    (moved old offset r).length = r.size := by
  rw [moved, length_take, length_drop]
  omega

theorem copyFrom_eq : ∀ {shuffle w new},
    (∀ r ∈ shuffle, (moved old offset r).length = r.size) → w + totalLength Span.size shuffle ≤ new.length →
    copyFrom old offset w new shuffle = new.take w ++ shuffle.flatMap (moved old offset) ++
      new.drop (w + totalLength Span.size shuffle)
  | [], w, new, _, _ => by simp [copyFrom]
  | r :: shuffle, w, new, hl, hle => by
    obtain ⟨hr, ht⟩ := forall_mem_cons.1 hl
    rw [totalLength_cons, ← add_assoc] at hle
    have hwl : (overwrite new w (moved old offset r)).length = new.length := by
      simp only [overwrite, length_append, length_take, length_drop, hr]
      omega
    have hw : (new.take w).length = w := by rw [length_take]; omega
    have he : (new.take w ++ moved old offset r).length = w + r.size := by rw [length_append, hw, hr]
    rw [← hwl] at hle
    rw [copyFrom, copyFrom_eq ht hle, overwrite, ← he, take_left, drop_length_add_append, drop_drop,
      hr, flatMap_cons, totalLength_cons]
    simp only [append_assoc, add_assoc]

theorem newData_eq {zero} (h : Covers size shuffle) (hb : offset + size ≤ old.length) :
    newData zero old offset size shuffle = shuffle.flatMap (moved old offset) := by
  have hl : ∀ r ∈ shuffle, (moved old offset r).length = r.size := fun r hr => length_moved hb (h.stop_eq r hr)
  rw [newData, copyFrom_eq hl (by simp [h.total])]
  simp [h.total]

theorem getElem?_newData {zero} (h : Covers size (l₁ ++ r :: l₂)) (hb : offset + size ≤ old.length)
    (hle : r.start ≤ o) (hlt : o < r.start + r.size) :
    (newData zero old offset size (l₁ ++ r :: l₂))[totalLength Span.size l₁ + (o - r.start)]? = old[offset + o]? := by
  have hl : ∀ r' ∈ l₁ ++ r :: l₂, (moved old offset r').length = r'.size :=
    fun r' hr' => length_moved hb (h.stop_eq r' hr')
  rw [newData_eq h hb, getElem?_flatMap_piece hl (by omega), moved, getElem?_take_of_lt (by omega),
    getElem?_drop]
  congr 1
  omega

/-- Every offset has a place in the new section, and it is that of its byte. -/
theorem exists_newOffset (h : Covers size shuffle) (hf : EmptyFirst shuffle) (ho : o < size) :
    ∃ p, newOffset shuffle o = .ok p ∧ ∀ {α} zero (old : List α) (offset : Nat),
      offset + size ≤ old.length → (newData zero old offset size shuffle)[p]? = old[offset + o]? := by
  obtain ⟨r, hr, hle, hlt⟩ := h.covered o ho
  obtain ⟨l₁, l₂, rfl⟩ := append_of_mem hr
  exact ⟨_, newOffset_of_mem h rfl (hf.start_ne (by omega)) hle hlt,
    fun zero old offset hb => getElem?_newData h hb hle hlt⟩

/-- References and bytes agree on the place of every offset. -/
def Consistent (ds : DataSection) (shuffle : List Span) : Prop :=
  ∃ place : Nat → Nat, (∀ o < ds.size, newOffset shuffle o = .ok (place o)) ∧
    Set.BijOn place (Set.Iio ds.size) (Set.Iio ds.size) ∧
    ∀ o < ds.size, (newData 0 ds.dataBytes ds.originalOffset ds.size shuffle)[place o]? =
      ds.dataBytes[ds.originalOffset + o]?

theorem consistent_of_emptyFirst {ds} (h : Covers ds.size shuffle) (hf : EmptyFirst shuffle) :
    Consistent ds shuffle := by
  choose! place hplace hbytes using fun o (ho : o < ds.size) => exists_newOffset h hf ho
  -- the places of the offsets themselves, moved like bytes, show that no two share one
  have hm : ∀ o < ds.size, (newData 0 (range ds.size) 0 ds.size shuffle)[place o]? = some o := by
    intro o ho
    rw [hbytes o ho 0 (range ds.size) 0 (by simp), zero_add, getElem?_range ho]
  have hs : Set.MapsTo place (Set.Iio ds.size) (Set.Iio ds.size) := by
    intro o ho
    obtain ⟨hlt, -⟩ := List.getElem?_eq_some_iff.1 (hm o ho)
    have hb : 0 + ds.size ≤ (range ds.size).length := by simp
    rwa [newData_eq h hb, length_flatMap_piece fun r hr => length_moved hb (h.stop_eq r hr), h.total] at hlt
  have hi : Set.InjOn place (Set.Iio ds.size) := by
    intro o ho o' ho' heq
    have := (hm o ho).symm.trans (heq ▸ hm o' ho')
    exact Option.some.inj this
  refine ⟨place, hplace, ((Set.finite_Iio _).injOn_iff_bijOn_of_mapsTo hs).1 hi, fun o ho => ?_⟩
  exact hbytes o ho 0 ds.dataBytes ds.originalOffset ds.backed

theorem Covers.eq_of_start_eq {r'} (h : Covers size shuffle) (hr : r ∈ shuffle) (hr' : r' ∈ shuffle)
    (hpos : 0 < r.size) (heq : r.start = r'.start) : r' = r ∨ r' = ⟨0, 0⟩ := by
  by_cases hne : r' = r
  · exact .inl hne
  · -- the other range ends where it starts
    have := h.stop_eq r hr
    have := h.stop_eq r' hr'
    have ha := h.apart r' hr' r hr hne
    have hz := h.empty r' hr' (by omega)
    right
    rcases r' with ⟨start, stop⟩
    simp only [Span.mk.injEq] at *
    omega

section

variable (h : Covers size (l₁ ++ ⟨0, 0⟩ :: l₂)) (hr : r ∈ l₁) (hpos : 0 < r.size) (hsr : r.start = 0)
include h hr hpos hsr

theorem Covers.start_ne_zero : ∀ r' ∈ l₂, r'.start ≠ 0 := by
  intro r' hr' hz
  obtain ⟨-, hnd, hd⟩ := nodup_append.1 h.nodup
  rcases h.eq_of_start_eq (by simp [hr]) (by simp [hr']) hpos (hsr.trans hz.symm) with rfl | rfl
  · exact hd r' hr r' (by simp [hr']) rfl
  · exact (nodup_cons.1 hnd).1 hr'

/-- The layout keeps the place of an empty range that comes after another one with the same start. -/
theorem newOffset_zero : newOffset (l₁ ++ ⟨0, 0⟩ :: l₂) 0 = .ok (totalLength Span.size l₁) := by
  have hm := mem_newlayout.2 ⟨l₁, ⟨0, 0⟩, l₂, rfl, h.start_ne_zero hr hpos hsr, rfl⟩
  have hf : floor 0 (newlayout (l₁ ++ ⟨0, 0⟩ :: l₂)) = some _ :=
    (floor_eq_some (ranked_assignAll _)).2 ⟨hm, le_rfl, fun _ _ hle => hle⟩
  rw [newOffset, hf]
  rfl

/-- So the offsets of the other one are sent to the place of whatever follows the empty range. -/
theorem newOffset_collides {nr l3} (hl2 : l₂ = nr :: l3) :
    0 < nr.start ∧ nr.start < size ∧ newOffset (l₁ ++ ⟨0, 0⟩ :: l₂) nr.start = .ok (totalLength Span.size l₁) := by
  have hne := h.start_ne_zero hr hpos hsr
  subst hl2
  have hn : nr ∈ l₁ ++ ⟨0, 0⟩ :: nr :: l3 := by simp
  have hs := pos_of_ne_zero fun he => hne nr (by simp) (h.empty nr hn he)
  have hsp := h.stop_eq nr hn
  have hlt : ∀ r' ∈ l3, r'.start ≠ nr.start := by
    intro r' hr' heq
    obtain ⟨-, hnd, -⟩ := nodup_append.1 h.nodup
    rcases h.eq_of_start_eq hn (by simp [hr']) hs heq.symm with rfl | rfl
    · exact (nodup_cons.1 (nodup_cons.1 hnd).2).1 hr'
    · exact hne ⟨0, 0⟩ (by simp [hr']) rfl
  have hp := newOffset_of_mem h (append_cons l₁ ⟨0, 0⟩ (nr :: l3)) hlt le_rfl (by omega)
  refine ⟨pos_of_ne_zero (hne nr (by simp)), by omega, ?_⟩
  simpa [Span.size] using hp

end

theorem emptyFirst_of_consistent {ds} (h : Covers ds.size shuffle) (hc : Consistent ds shuffle) :
    EmptyFirst shuffle := by
  obtain ⟨place, hpc, hb, -⟩ := hc
  refine pairwise_iff_getElem.2 fun i j hi hj hij heq => ?_
  by_contra hsz
  have hpos : 0 < shuffle[i].size := pos_of_ne_zero hsz
  have hne : shuffle[j] ≠ shuffle[i] := fun he => hij.ne' (h.nodup.getElem_inj_iff.1 he)
  have hp : shuffle[j] = ⟨0, 0⟩ :=
    (h.eq_of_start_eq (getElem_mem hi) (getElem_mem hj) hpos heq).resolve_left hne
  have hsr : shuffle[i].start = 0 := by rw [heq, hp]
  have hr : shuffle[i] ∈ shuffle.take j := mem_take_iff_getElem.2 ⟨i, by omega, rfl⟩
  have hs : shuffle = shuffle.take j ++ ⟨0, 0⟩ :: shuffle.drop (j + 1) := by
    rw [← hp, getElem_cons_drop, take_append_drop]
  have hsp := h.stop_eq _ (getElem_mem hi)
  have hm : 0 < ds.size := by omega
  generalize shuffle[i] = r at hpos hsr hr hsp
  generalize shuffle.take j = l₁ at hs hr
  generalize shuffle.drop (j + 1) = l₂ at hs
  subst hs
  have hz := (hpc 0 hm).symm.trans (newOffset_zero h hr hpos hsr)
  cases hl2 : l₂ with
  | nil =>
    -- nothing follows: the first offset is sent to the end of the section
    have ht : totalLength Span.size l₁ = ds.size := by simpa [hl2, Span.size] using h.total
    have hms : place 0 < ds.size := hb.mapsTo hm
    rw [Except.ok.inj hz] at hms
    omega
  | cons nr l3 =>
    obtain ⟨hn, hlt, hl⟩ := newOffset_collides h hr hpos hsr hl2
    have ha := (hpc _ hlt).symm.trans hl
    have := hb.injOn hm hlt ((Except.ok.inj hz).trans (Except.ok.inj ha).symm)
    omega

end

/-- References and bytes move together exactly when the shuffle has no range before an empty one with
the same start, which is the range before a variable at the start of the section. -/
theorem permuted_consistent_iff (ds : DataSection) (ignore : List GlobalVariable) (shuffle : List Span)
    (hperm : shuffle.Perm (ds.ranges ignore)) : Consistent ds shuffle ↔ EmptyFirst shuffle := by
  have h := (covers_ranges ds ignore).perm hperm
  exact ⟨emptyFirst_of_consistent h, consistent_of_emptyFirst h⟩

/-- A section of eight bytes with a variable at its start and one in its middle. -/
def twoVariables : DataSection where
  range := ⟨0x4000, 8⟩
  originalOffset := 0
  globalVariables := [⟨0, ⟨0x4000, 4⟩⟩, ⟨1, ⟨0x4004, 4⟩⟩]
  dataBytes := [0, 1, 2, 3, 4, 5, 6, 7]
  contained := by decide
  backed := by decide

theorem permuted_consistent_iff_twoVariables : Consistent twoVariables [⟨4, 8⟩, ⟨0, 0⟩, ⟨0, 4⟩] :=
  (permuted_consistent_iff twoVariables [] [⟨4, 8⟩, ⟨0, 0⟩, ⟨0, 4⟩] (by decide +kernel)).2 (by decide)

/-- With the empty range after the first variable both variables are sent to the place of the second one. -/
theorem twoVariables_collide : [⟨0, 4⟩, ⟨0, 0⟩, ⟨4, 8⟩].Perm (twoVariables.ranges []) ∧
    newOffset [⟨0, 4⟩, ⟨0, 0⟩, ⟨4, 8⟩] 0 = .ok 4 ∧ newOffset [⟨0, 4⟩, ⟨0, 0⟩, ⟨4, 8⟩] 4 = .ok 4 ∧
    (newData 0 twoVariables.dataBytes 0 8 [⟨0, 4⟩, ⟨0, 0⟩, ⟨4, 8⟩])[4]? = some 4 := by
  decide +kernel

end PermuteData

end Egalito.Pass
