/-
Mapping symbols (`elf/symbol.cpp`): the searches for the next one below and above a symbol, in a list sorted by address.

The search upwards is exact. The one downwards looks at the first entry of its own address only, and never at the
first entry of the list; `findMapping_exact` says when that does not matter.
-/
import Egalito.Elf.SymbolAliases
import Egalito.Util.Queries

namespace Egalito.SymbolAliases

open Lib List

variable {l : List Symbol} {s : Symbol}

/-- The entries before std::lower_bound, from the last one down to the second. -/
def searchDown (below : List Symbol) (s : Symbol) : Option Symbol :=
  below.tail.reverse.find? fun a => a.shndx = s.shndx

/-- The entry at the lower bound if it is of the address and section, or else one further down. -/
def findMappingBelowOrAt (sortedMappingList : List Symbol) (s : Symbol) : Option Symbol :=
  let below := sortedMappingList.takeWhile fun a => a.address.toNat < s.address.toNat
  match sortedMappingList.dropWhile fun a => a.address.toNat < s.address.toNat with
  | [] => searchDown below s
  | a :: _ => if a.address.toNat = s.address.toNat ∧ a.shndx = s.shndx then some a else searchDown below s

/-- The first entry of the section behind the upper bound. -/
def findMappingAbove (sortedMappingList : List Symbol) (s : Symbol) : Option Symbol :=
  (sortedMappingList.dropWhile fun a => a.address.toNat ≤ s.address.toNat).find? fun a => a.shndx = s.shndx

/-- The answer is the one of the same section with the greatest address not above that of the symbol. -/
def IsBelowOrAt (l : List Symbol) (s : Symbol) : Option Symbol → Prop :=
  BestIn {a | a ∈ l} (fun a => a.shndx = s.shndx ∧ a.address.toNat ≤ s.address.toNat) fun a b => a.address.toNat ≤ b.address.toNat

/-- The answer is the one of the same section with the least address above that of the symbol. -/
def IsAbove (l : List Symbol) (s : Symbol) : Option Symbol → Prop :=
  BestIn {a | a ∈ l} (fun a => a.shndx = s.shndx ∧ s.address.toNat < a.address.toNat) fun a b => b.address.toNat ≤ a.address.toNat

/-- The first mapping symbol at the address is of the section if any there is, and the first entry of the list is not the
    answer unless it is at the address. -/
structure Searchable (l : List Symbol) (s : Symbol) : Prop where
  firstAt : ∀ a ∈ l.find? fun a => a.address.toNat = s.address.toNat, ∀ b ∈ l, b.address.toNat = s.address.toNat →
    b.shndx = s.shndx → a.shndx = s.shndx
  second : ∀ a ∈ l.head?, a.shndx = s.shndx → a.address.toNat < s.address.toNat →
    ∃ b ∈ l.tail, b.shndx = s.shndx ∧ b.address.toNat ≤ s.address.toNat

def Sorted (l : List Symbol) : Prop := l.Pairwise fun a b => a.address.toNat ≤ b.address.toNat

theorem findMappingAbove_exact (hr : Sorted l) (s) : IsAbove l s (findMappingAbove l s) := by
  have hm := mem_takeWhile_dropWhile (p := fun a => a.address.toNat ≤ s.address.toNat) hr fun a b hab hb => by
    simp only [decide_eq_true_eq] at hb ⊢
    exact le_trans hab hb
  have hs : {a | a ∈ l.dropWhile fun a => a.address.toNat ≤ s.address.toNat} = {a | a ∈ l ∧ s.address.toNat < a.address.toNat} := by
    ext a
    simpa using (hm a).2
  have ht : BestIn {a | a ∈ l ∧ s.address.toNat < a.address.toNat} (fun a => a.shndx = s.shndx) (fun a b => b.address.toNat ≤ a.address.toNat)
      (findMappingAbove l s) := by
    rw [← hs]
    exact bestIn_find? (hr.sublist (dropWhile_sublist _)) (fun a => le_refl _) fun a _ => decide_eq_true_iff
  rw [IsAbove]
  cases hf : findMappingAbove l s with
  | none =>
    rw [hf] at ht
    exact fun a ha hg => ht a ⟨ha, hg.2⟩ hg.1
  | some b =>
    rw [hf] at ht
    obtain ⟨⟨hb, hlt⟩, hc, hfr⟩ := ht
    exact ⟨hb, ⟨hc, hlt⟩, fun a ha hg => hfr a ⟨ha, hg.2⟩ hg.1⟩

theorem mem_tail_below {first} (hs : Sorted (first :: l)) (a) :
    a ∈ ((first :: l).takeWhile fun a => a.address.toNat < s.address.toNat).tail ↔ a ∈ l ∧ a.address.toNat < s.address.toNat := by
  obtain ⟨hl, hs⟩ := pairwise_cons.1 hs
  by_cases hf : first.address.toNat < s.address.toNat
  · rw [takeWhile_cons_of_pos (by simpa using hf), tail_cons]
    simpa using (mem_takeWhile_dropWhile (p := fun a => a.address.toNat < s.address.toNat) hs (fun a b hab hb => by
      simp only [decide_eq_true_eq] at hb ⊢
      exact lt_of_le_of_lt hab hb) a).1
  · rw [takeWhile_cons_of_neg (by simpa using hf)]
    simp only [tail_nil, not_mem_nil, false_iff, not_and]
    exact fun ha hlt => hf (lt_of_le_of_lt (hl a ha) hlt)

/-- If there is no mapping symbol of the section at the address itself, the search goes down. -/
theorem searchDown_exact (hr : Sorted l) (h : Searchable l s)
    (hn : ∀ a ∈ l, a.shndx = s.shndx → a.address.toNat ≠ s.address.toNat) :
    IsBelowOrAt l s (searchDown (l.takeWhile fun a => a.address.toNat < s.address.toNat) s) := by
  cases l with
  | nil => simp [IsBelowOrAt, BestIn, searchDown]
  | cons first rest =>
    set below := (first :: rest).takeWhile fun a => a.address.toNat < s.address.toNat with hbl
    have hs : {a | a ∈ below.tail.reverse} = {a | a ∈ rest ∧ a.address.toNat < s.address.toNat} := by
      ext a
      rw [Set.mem_ofPred_eq, mem_reverse]
      exact mem_tail_below hr a
    have ht : BestIn {a | a ∈ below.tail.reverse} (fun a => a.shndx = s.shndx) (fun a b => a.address.toNat ≤ b.address.toNat)
        (searchDown below s) := by
      have hsb : below.tail.Sublist (first :: rest) := (tail_sublist _).trans (takeWhile_sublist _)
      exact bestIn_find? (pairwise_reverse.2 (hr.sublist hsb)) (fun a => le_refl _) fun a _ => decide_eq_true_iff
    rw [hs] at ht
    have hlt {a : Symbol} (ha : a ∈ rest) (hg : a.shndx = s.shndx ∧ a.address.toNat ≤ s.address.toNat) : a.address.toNat < s.address.toNat :=
      lt_of_le_of_ne hg.2 (hn a (mem_cons_of_mem _ ha) hg.1)
    cases hf : searchDown below s with
    | none =>
      rw [hf] at ht
      intro a ha hg
      rcases mem_cons.1 ha with rfl | ha
      · obtain ⟨b, hb, hg'⟩ := h.second a rfl hg.1 (lt_of_le_of_ne hg.2 (hn a ha hg.1))
        exact ht b ⟨hb, hlt hb hg'⟩ hg'.1
      · exact ht a ⟨ha, hlt ha hg⟩ hg.1
    | some b =>
      rw [hf] at ht
      obtain ⟨⟨hb, hbs⟩, hc, hl⟩ := ht
      refine ⟨mem_cons_of_mem _ hb, ⟨hc, hbs.le⟩, fun a ha hg => ?_⟩
      rcases mem_cons.1 ha with rfl | ha
      · exact (pairwise_cons.1 hr).1 b hb
      · exact hl a ⟨ha, hlt ha hg⟩ hg.1

/-- What the search does: it takes the first entry at the address or goes down. -/
theorem findMappingBelowOrAt_cases (hs : Sorted l) (s) :
    (∃ a, l.find? (fun a => a.address.toNat = s.address.toNat) = some a ∧ a.shndx = s.shndx ∧
      findMappingBelowOrAt l s = some a) ∨
    (∀ a ∈ l.find? fun a => a.address.toNat = s.address.toNat, a.shndx ≠ s.shndx) ∧
      findMappingBelowOrAt l s = searchDown (l.takeWhile fun a => a.address.toNat < s.address.toNat) s := by
  have hm := mem_takeWhile_dropWhile (p := fun a => a.address.toNat < s.address.toNat) hs fun a b hab hb => by
    simp only [decide_eq_true_eq] at hb ⊢
    exact lt_of_le_of_lt hab hb
  have hf : l.find? (fun a => a.address.toNat = s.address.toNat) =
      (l.dropWhile fun a => a.address.toNat < s.address.toNat).find? fun a => a.address.toNat = s.address.toNat := by
    conv_lhs => rw [← takeWhile_append_dropWhile (p := fun a : Symbol => a.address.toNat < s.address.toNat) (l := l)]
    rw [find?_append, find?_eq_none.2, Option.none_or]
    intro a ha
    have hlt := ((hm a).1.1 ha).2
    simp only [decide_eq_true_eq] at hlt ⊢
    exact hlt.ne
  unfold findMappingBelowOrAt
  split
  · next he =>
    rw [hf, he]
    exact .inr ⟨by simp, rfl⟩
  · next a rest hr =>
    rw [hf, hr]
    split
    · next hc => exact .inl ⟨a, by simp [hc.1], hc.2, rfl⟩
    · next hc =>
      refine .inr ⟨?_, rfl⟩
      by_cases ha : a.address.toNat = s.address.toNat
      · simpa [ha] using fun h => hc ⟨ha, h⟩
      · -- all entries from here on are above the address
        have hle : s.address.toNat ≤ a.address.toNat := by simpa using ((hm a).2.1 (by simp [hr])).2
        have hrs := (pairwise_cons.1 (hr ▸ hs.sublist (dropWhile_sublist _))).1
        have hn : (a :: rest).find? (fun a => a.address.toNat = s.address.toNat) = none := by
          rw [find?_eq_none, forall_mem_cons]
          refine ⟨by simpa using ha, fun b hb => ?_⟩
          have := hrs b hb
          simp only [decide_eq_true_eq]
          omega
        simp [hn]

theorem findMappingBelowOrAt_exact (hs : Sorted l) (h : Searchable l s) :
    IsBelowOrAt l s (findMappingBelowOrAt l s) := by
  rcases findMappingBelowOrAt_cases hs s with ⟨a, hf, hc, heq⟩ | ⟨hn, heq⟩ <;> rw [heq]
  · have ha : a.address.toNat = s.address.toNat := by simpa using find?_some hf
    exact ⟨mem_of_find?_eq_some hf, ⟨hc, ha.le⟩, fun b _ hg => hg.2.trans ha.ge⟩
  · refine searchDown_exact hs h fun b hb hc hat => ?_
    obtain ⟨a, ha⟩ : ∃ a, l.find? (fun a => a.address.toNat = s.address.toNat) = some a :=
      Option.isSome_iff_exists.1 (find?_isSome.2 ⟨b, hb, by simpa using hat⟩)
    exact hn a ha (h.firstAt a ha b hb hat hc)

theorem mem_of_searchDown {b first} (hs : Sorted (first :: l))
    (h : searchDown ((first :: l).takeWhile fun a => a.address.toNat < s.address.toNat) s = some b) :
    b ∈ l ∧ b.address.toNat < s.address.toNat :=
  (mem_tail_below hs b).1 (mem_reverse.1 (mem_of_find?_eq_some h))

/-- A right answer leaves nothing else: the entries at the address come first, and the first entry of the list never. -/
theorem searchable_of_exact (hs : Sorted l) (h : IsBelowOrAt l s (findMappingBelowOrAt l s)) : Searchable l s := by
  cases l with
  | nil => exact ⟨by simp, by simp⟩
  | cons first l =>
    rcases findMappingBelowOrAt_cases hs s with ⟨a, hf, hc, heq⟩ | ⟨-, heq⟩
    · have ha : a.address.toNat = s.address.toNat := by simpa using find?_some hf
      refine ⟨fun a' ha' _ _ _ _ => ?_, fun a' ha' _ hlt => ⟨a, ?_, hc, ha.le⟩⟩
      · rwa [← Option.some.inj (hf.symm.trans ha')]
      · cases ha'
        refine (mem_cons.1 (mem_of_find?_eq_some hf)).resolve_left fun he => ?_
        rw [he] at ha
        exact hlt.ne ha
    · rw [heq] at h
      cases hd : searchDown ((first :: l).takeWhile fun a => a.address.toNat < s.address.toNat) s with
      | none =>
        rw [hd] at h
        refine ⟨fun _ _ b hb hat hc => absurd ⟨hc, hat.le⟩ (h b hb), fun a ha hc hlt => ?_⟩
        cases ha
        exact absurd ⟨hc, hlt.le⟩ (h first mem_cons_self)
      | some b =>
        obtain ⟨hb, hlt⟩ := mem_of_searchDown hs hd
        rw [hd] at h
        refine ⟨fun _ _ b' hb' hat hc => ?_, fun _ _ _ _ => ⟨b, hb, h.2.1.1, hlt.le⟩⟩
        have := h.2.2 b' hb' ⟨hc, hat.le⟩
        omega

/-- The search above is exact. The one below is exact if and only if an entry of the section at the address comes before
    those of other sections there, and the first entry of the list, which the loop leaves out, is not wanted. -/
theorem findMapping_exact (hsorted : Sorted l) (s : Symbol) : IsAbove l s (findMappingAbove l s) ∧
    (IsBelowOrAt l s (findMappingBelowOrAt l s) ↔ Searchable l s) :=
  ⟨findMappingAbove_exact hsorted s, searchable_of_exact hsorted, findMappingBelowOrAt_exact hsorted⟩

def sampleMapping (address : Address) (shndx : Nat) : Symbol := ⟨address, 0, "$d", .notype, .bindLocal, shndx⟩

theorem findMapping_exact_second : IsBelowOrAt [sampleMapping 0x10 1, sampleMapping 0x20 2] (sampleMapping 0x28 2)
    (findMappingBelowOrAt [sampleMapping 0x10 1, sampleMapping 0x20 2] (sampleMapping 0x28 2)) := by
  refine (findMapping_exact ?_ _).2.2 ⟨?_, ?_⟩
  · simp [Sorted, sampleMapping]
  · simp [sampleMapping]
  · simp [sampleMapping]

/-- The only mapping symbol of the section is the first entry of the list, and is not found. -/
theorem findMappingBelowOrAt_first : Sorted [sampleMapping 0x10 1, sampleMapping 0x20 2] ∧
    findMappingBelowOrAt [sampleMapping 0x10 1, sampleMapping 0x20 2] (sampleMapping 0x18 1) = none ∧
    ¬ IsBelowOrAt [sampleMapping 0x10 1, sampleMapping 0x20 2] (sampleMapping 0x18 1) none := by
  refine ⟨by simp [Sorted, sampleMapping], rfl, fun h => ?_⟩
  exact h (sampleMapping 0x10 1) mem_cons_self ⟨rfl, by decide⟩

end Egalito.SymbolAliases
