/-
SpatialChunkList (`chunk/chunklist.h`): the searches in the map from addresses to chunks.

The map is a list sorted by address (`Lib.Ranked`). Each search is a loop over it in one direction with a condition
for stopping early; `searches_exact` says for each when nothing that it should find lies beyond.
-/
import Egalito.Lib.Ranked
import Egalito.Util.Range

namespace Egalito

open Lib List

/-- The chunks in the order of the map. -/
structure SpatialChunkList {α : Type} (range : α → Range) where
  chunks : List α
  sorted : chunks.Pairwise fun c d => (range c).lo < (range d).lo
  proper : ∀ c ∈ chunks, (range c).Proper

namespace SpatialChunkList

variable {α : Type} {range : α → Range} (l : SpatialChunkList range)

/-- The chunks before `upper_bound`. -/
def upTo (address : Address) : List α := l.chunks.takeWhile fun c => (range c).start ≤ address

/-- The last chunk that does not start behind the address, if it contains it. -/
def findContaining (address : Address) : Option α :=
  (l.upTo address).getLast?.filter fun c => (range c).containsPoint address

/-- Only the last five chunks that do not start behind the address are looked at. -/
def findAllContaining (address : Address) : List α :=
  ((l.upTo address).reverse.take 5).filter fun c => (range c).containsPoint address

/-- From the upper bound of the start on, until a chunk is not within the range. -/
def findAllWithin (r : Range) : List α :=
  (l.chunks.dropWhile fun c => (range c).start ≤ r.start).takeWhile fun c => r.contains (range c)

def Disjoint : Prop := l.chunks.Pairwise fun c d => (range c).hi ≤ (range d).lo

variable {l} {c : α} {address : Address}

theorem mem_upTo (address) (c : α) : (c ∈ l.upTo address ↔ c ∈ l.chunks ∧ (range c).lo ≤ address.toNat) ∧
    (c ∈ l.chunks.dropWhile (fun c => (range c).start ≤ address) ↔ c ∈ l.chunks ∧ address.toNat < (range c).lo) := by
  have h := mem_takeWhile_dropWhile (p := fun c => (range c).start ≤ address) l.sorted (fun c d hc hd => by
    simp only [decide_eq_true_eq, BitVec.le_def] at hd ⊢
    exact hc.le.trans hd) c
  simp only [decide_eq_true_eq, BitVec.le_def, not_le] at h
  exact h

/-- A chunk that contains the address is the last one before the upper bound. -/
theorem exists_upTo_eq (hd : l.Disjoint) (hc : c ∈ l.chunks) (ha : (range c).containsPoint address = true) :
    ∃ pre, l.upTo address = pre ++ [c] := by
  rw [Range.containsPoint_iff (l.proper c hc).2] at ha
  obtain ⟨pre, post, hs⟩ := append_of_mem ((mem_upTo address c).1.2 ⟨hc, ha.1⟩)
  have hp : (pre ++ c :: post).Pairwise fun c d => (range c).hi ≤ (range d).lo :=
    hs ▸ hd.sublist (takeWhile_sublist _)
  have hn : post = [] := by
    refine eq_nil_iff_forall_not_mem.2 fun d hm => ?_
    have hle := (pairwise_cons.1 (pairwise_append.1 hp).2.1).1 d hm
    have hlo := ((mem_upTo (l := l) address d).1.1 (by simp [hs, hm])).2
    have := ha.2
    omega
  exact ⟨pre, hn ▸ hs⟩

/-- The chunks that start after `c` and not after the address. -/
def startingBetween (l : SpatialChunkList range) (c : α) (address : Address) : List α :=
  l.chunks.filter fun d => (range c).lo < (range d).lo ∧ (range d).lo ≤ address.toNat

/-- The search looks back over five chunks. -/
theorem mem_findAllContaining (address) (c : α) : c ∈ l.findAllContaining address ↔
    (c ∈ l.chunks ∧ (range c).containsPoint address = true) ∧ (l.startingBetween c address).length < 5 := by
  have hu : l.startingBetween c address = (l.upTo address).filter fun d => (range c).lo < (range d).lo := by
    have hs := takeWhile_append_dropWhile (p := fun c => (range c).start ≤ address) (l := l.chunks)
    have hd : (l.chunks.dropWhile fun c => (range c).start ≤ address).filter
        (fun d => (range c).lo < (range d).lo ∧ (range d).lo ≤ address.toNat) = [] := by
      simpa [filter_eq_nil_iff] using fun d hd _ => ((mem_upTo address d).2.1 hd).2
    rw [startingBetween, ← hs, filter_append, hd, append_nil]
    refine filter_congr fun d hd => ?_
    simp [((mem_upTo (l := l) address d).1.1 hd).2]
  rw [findAllContaining, mem_filter, hu]
  have hm {c : α} (hc : c ∈ l.upTo address) := mem_take_reverse_iff (R := fun c d => (range c).lo < (range d).lo)
    (l.sorted.sublist (takeWhile_sublist _)) (fun a b => lt_asymm) hc 5
  constructor
  · rintro ⟨ht, ha⟩
    have hc : c ∈ l.upTo address := mem_reverse.1 (mem_of_mem_take ht)
    exact ⟨⟨((mem_upTo address c).1.1 hc).1, ha⟩, (hm hc).1 ht⟩
  · rintro ⟨⟨hc, ha⟩, hn⟩
    have hlo := ((Range.containsPoint_iff (l.proper c hc).2 address).1 ha).1
    exact ⟨(hm ((mem_upTo address c).1.2 ⟨hc, hlo⟩)).2 hn, ha⟩

theorem findContaining_eq_some (hd : l.Disjoint) (address) (c : α) :
    l.findContaining address = some c ↔ c ∈ l.chunks ∧ (range c).containsPoint address = true := by
  rw [findContaining, Option.filter_eq_some_iff]
  constructor
  · rintro ⟨hlt, ha⟩
    exact ⟨((mem_upTo address c).1.1 (mem_of_getLast? hlt)).1, ha⟩
  · rintro ⟨hc, ha⟩
    obtain ⟨before, hu⟩ := exists_upTo_eq hd hc ha
    exact ⟨by simp [hu], ha⟩

/-- The search begins behind the start of the range and stops at the first chunk that is not within it. -/
theorem mem_findAllWithin (r : Range) (c : α) : c ∈ l.findAllWithin r ↔ (c ∈ l.chunks ∧ r.contains (range c) = true) ∧
    r.lo < (range c).lo ∧ ∀ d ∈ l.chunks, r.lo < (range d).lo → (range d).lo < (range c).lo → r.contains (range d) = true := by
  have hm := mem_takeWhile_iff (p := fun c => r.contains (range c))
    (l.sorted.sublist (dropWhile_sublist fun c => (range c).start ≤ r.start)) (fun a b => lt_asymm) c
  rw [findAllWithin, hm, (mem_upTo r.start c).2]
  constructor
  · rintro ⟨⟨hc, hlo⟩, ht, hd⟩
    exact ⟨⟨hc, ht⟩, hlo, fun d hd' hl => hd d ((mem_upTo r.start d).2.2 ⟨hd', hl⟩)⟩
  · rintro ⟨⟨hc, ht⟩, hlo, hd⟩
    refine ⟨⟨hc, hlo⟩, ht, fun d hd' => ?_⟩
    obtain ⟨hdc, hl⟩ := (mem_upTo r.start d).2.1 hd'
    exact hd d hdc hl

/-- When each search is exact. findAllContaining needs at most four chunks that start between a chunk with the address
    and the address; findContaining nothing more than chunks that do not overlap; findAllWithin that no chunk within the
    range starts where the range does, and that only chunks within the range start before one. -/
theorem searches_exact (l : SpatialChunkList range) :
    (∀ address, (∀ c, c ∈ l.findAllContaining address ↔ c ∈ l.chunks ∧ (range c).containsPoint address = true) ↔
      ∀ c ∈ l.chunks, (range c).containsPoint address = true → (l.startingBetween c address).length < 5) ∧
    (l.Disjoint → ∀ address c, l.findContaining address = some c ↔
      c ∈ l.chunks ∧ (range c).containsPoint address = true) ∧
    ∀ r : Range, (∀ c, c ∈ l.findAllWithin r ↔ c ∈ l.chunks ∧ r.contains (range c) = true) ↔
      ∀ c ∈ l.chunks, r.contains (range c) = true → r.lo < (range c).lo ∧
        ∀ d ∈ l.chunks, r.lo < (range d).lo → (range d).lo < (range c).lo → r.contains (range d) = true := by
  refine ⟨fun address => ?_, findContaining_eq_some, fun r => ?_⟩
  · simp only [mem_findAllContaining, and_iff_left_iff_imp, and_imp]
  · simp only [mem_findAllWithin, and_iff_left_iff_imp, and_imp]

def samplePair : SpatialChunkList id := ⟨[⟨0x10, 8⟩, ⟨0x18, 8⟩], by decide, by decide⟩

theorem searches_exact_samplePair : samplePair.findContaining 0x1a = some ⟨0x18, 8⟩ ∧
    ∀ c, c ∈ samplePair.findAllContaining 0x1a ↔ c ∈ samplePair.chunks ∧ (id c).containsPoint 0x1a = true :=
  ⟨((searches_exact samplePair).2.1 (by unfold Disjoint; decide) 0x1a ⟨0x18, 8⟩).2 (by decide),
    ((searches_exact samplePair).1 0x1a).2 (by decide)⟩

def sampleNested : SpatialChunkList id :=
  ⟨[⟨0x10, 0x100⟩, ⟨0x11, 1⟩, ⟨0x12, 1⟩, ⟨0x13, 1⟩, ⟨0x14, 1⟩, ⟨0x15, 1⟩], by decide, by decide⟩

/-- A chunk at the start of the range is missed, one with five others behind its start, and those behind one that is not
    within the range. -/
theorem searches_miss : samplePair.findAllWithin ⟨0x10, 0x10⟩ = [⟨0x18, 8⟩] ∧
    (Range.mk 0x10 0x10).contains ⟨0x10, 8⟩ = true ∧ sampleNested.findAllContaining 0x20 = [] ∧
    (Range.mk 0x10 0x100).containsPoint 0x20 = true ∧ sampleNested.findAllWithin ⟨0xf, 0x10⟩ = [] ∧
    (Range.mk 0xf 0x10).contains ⟨0x11, 1⟩ = true := by
  decide

end SpatialChunkList

end Egalito
