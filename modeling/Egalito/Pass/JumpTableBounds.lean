/-
JumpTableBounds (`pass/jumptablebounds.cpp`) on its own: the bounds that runs of relocations give.

The loop is reduced to one table: the run of relocations from its start (`runOf`). A run of fewer than five leaves the
number one behind, so `jumpTableBounds_exact_iff` excludes just these.
-/
import Egalito.Pass.JumpTables

namespace Egalito.JumpTables

open Lib List

variable {m : Module} {s : State} {t u : Table} {count : Nat} {a : Address} {relocs : List Address}
  {current : Option (Table × Nat)}

variable (m) in
/-- The relocation belongs to the next slot of the table. -/
abbrev Continues (find : Address → Option Table) (t : Table) (count : Nat) (a : Address) : Prop :=
  find a = none ∧ a = t.address + BitVec.ofNat 64 (count * (m.descriptor t.descriptor).scale)

variable (m) in
/-- How far the run of relocations for a table goes, of which `count` have been seen. -/
def runLength (find : Address → Option Table) (t : Table) : Nat → List Address → Nat
  | count, [] => count
  | count, a :: relocs => if Continues m find t count a then runLength find t (count + 1) relocs else count

variable (m) in
/-- The length of the run from the start of the table on. -/
def runOf (s : State) (t : Table) (relocs : List Address) : Nat :=
  runLength m s.find t 1 (relocs.dropWhile (· ≠ t.address)).tail

/-- What is written when the run of the current table is over. -/
def closeRun (s : State) : Option (Table × Nat) → State
  | some (t, count) => boundsSetEntries s t count
  | none => s

/-- The run in progress is not one for the table. -/
def Apart (t : Table) : Option (Table × Nat) → Prop
  | some (u, _) => u.descriptor ≠ t.descriptor
  | none => True

/-- Only the relocation at its start begins a run for the table. -/
def Owns (find : Address → Option Table) (t : Table) : Prop :=
  ∀ (a : Address) (u : Table), find a = some u → u.descriptor = t.descriptor → a = t.address

theorem find_closeRun : (closeRun s current).find = s.find := by
  unfold closeRun boundsSetEntries
  split
  · split <;> rfl
  · rfl

theorem entries_closeRun (h : Apart t current) : (closeRun s current).entries t.descriptor = s.entries t.descriptor := by
  unfold closeRun boundsSetEntries
  split
  · split
    · exact Function.update_of_ne (Ne.symm h) ..
    · rfl
  · rfl

theorem entries_closeRun_self : (closeRun s (some (t, count))).entries t.descriptor =
    if 5 ≤ count then (count : Int) else s.entries t.descriptor := by
  simp only [closeRun, boundsSetEntries, ge_iff_le]
  split
  · exact Function.update_self ..
  · rfl

theorem boundsLoop_table (h : s.find a = some u) : boundsLoop m s current (a :: relocs) =
    if (closeRun s current).entries u.descriptor ≤ 0 then
      boundsLoop m ((closeRun s current).setEntries u.descriptor 1) (some (u, 1)) relocs
    else boundsLoop m (closeRun s current) none relocs := by
  cases current <;> (simp only [boundsLoop, h, closeRun]; rfl)

theorem boundsLoop_next (h : Continues m s.find u count a) :
    boundsLoop m s (some (u, count)) (a :: relocs) = boundsLoop m s (some (u, count + 1)) relocs := by
  simp only [boundsLoop, h.1, if_pos h.2]

/-- A relocation elsewhere ends the run in progress, and the one it may begin is not one for the table. -/
theorem boundsLoop_ends (ho : Owns s.find t) (ha : t.address ≠ a)
    (h : ∀ u count, current = some (u, count) → ¬Continues m s.find u count a) : ∃ s' current',
      boundsLoop m s current (a :: relocs) = boundsLoop m s' current' relocs ∧ Apart t current' ∧ s'.find = s.find ∧
        s'.entries t.descriptor = (closeRun s current).entries t.descriptor := by
  cases hf : s.find a with
  | some u =>
    have hu : u.descriptor ≠ t.descriptor := fun hd => ha (ho a u hf hd).symm
    rw [boundsLoop_table hf]
    split
    · exact ⟨_, _, rfl, hu, find_closeRun, Function.update_of_ne hu.symm ..⟩
    · exact ⟨_, _, rfl, trivial, find_closeRun, rfl⟩
  | none =>
    refine ⟨closeRun s current, none, ?_, trivial, find_closeRun, rfl⟩
    cases current with
    | none => simp only [boundsLoop, hf, closeRun]
    | some c => simp only [boundsLoop, hf, closeRun, if_neg fun ha => h c.1 c.2 rfl ⟨hf, ha⟩]

/-- A relocation that is not its start leaves a table alone whose run is not in progress. -/
theorem boundsLoop_step (ho : Owns s.find t) (ha : t.address ≠ a) (hc : Apart t current) : ∃ s' current',
      boundsLoop m s current (a :: relocs) = boundsLoop m s' current' relocs ∧ Apart t current' ∧ s'.find = s.find ∧
        s'.entries t.descriptor = s.entries t.descriptor := by
  by_cases h : ∀ u count, current = some (u, count) → ¬Continues m s.find u count a
  · rw [← entries_closeRun hc]
    exact boundsLoop_ends ho ha h
  · push Not at h
    obtain ⟨u, count, rfl, hn⟩ := h
    exact ⟨s, some (u, count + 1), boundsLoop_next hn, hc, rfl, rfl⟩

theorem boundsLoop_other : ∀ {relocs s current}, Owns s.find t → t.address ∉ relocs → Apart t current →
      (boundsLoop m s current relocs).entries t.descriptor = s.entries t.descriptor
  | [], s, current, _, _, hc => by
    have hn : boundsLoop m s current [] = closeRun s current := by cases current <;> rfl
    rw [hn, entries_closeRun hc]
  | a :: relocs, s, current, ho, hm, hc => by
    obtain ⟨hne, hr⟩ := ne_and_not_mem_of_not_mem_cons hm
    obtain ⟨s', current', hs, ha, hf, he⟩ := boundsLoop_step (m := m) ho hne hc
    rw [hs, boundsLoop_other (hf ▸ ho) hr ha, he]

/-- The run of the current table gives its bound if it is long enough. -/
theorem boundsLoop_current : ∀ {relocs s count}, Owns s.find t → t.address ∉ relocs →
    (boundsLoop m s (some (t, count)) relocs).entries t.descriptor =
      if 5 ≤ runLength m s.find t count relocs then (runLength m s.find t count relocs : Int)
      else s.entries t.descriptor
  | [], _, _, _, _ => entries_closeRun_self
  | a :: relocs, s, count, ho, hm => by
    obtain ⟨hne, hr⟩ := ne_and_not_mem_of_not_mem_cons hm
    by_cases hn : Continues m s.find t count a
    · rw [boundsLoop_next hn, boundsLoop_current ho hr, runLength, if_pos hn]
    · have he : ∀ u k, some (t, count) = some (u, k) → ¬Continues m s.find u k a := by
        rintro u k ⟨⟩
        exact hn
      obtain ⟨s', current', hs, ha, hf, ht⟩ := boundsLoop_ends (m := m) ho hne he
      rw [hs, boundsLoop_other (hf ▸ ho) hr ha, ht, entries_closeRun_self, runLength,
        if_neg hn]

theorem boundsLoop_start (hn : Owns s.find t) (hs : s.find t.address = some t) (hr : t.address ∉ relocs)
    (hc : Apart t current) : (boundsLoop m s current (t.address :: relocs)).entries t.descriptor =
      if s.entries t.descriptor ≤ 0 then
        if 5 ≤ runLength m s.find t 1 relocs then (runLength m s.find t 1 relocs : Int) else 1
      else s.entries t.descriptor := by
  have ho' : Owns (closeRun s current).find t := by rwa [find_closeRun]
  rw [boundsLoop_table hs, entries_closeRun hc]
  split
  · have hf : ((closeRun s current).setEntries t.descriptor 1).find = s.find := find_closeRun
    have he : ((closeRun s current).setEntries t.descriptor 1).entries t.descriptor = 1 := Function.update_self ..
    rw [boundsLoop_current (s := (closeRun s current).setEntries t.descriptor 1) ho' hr, hf, he]
  · have ho : (boundsLoop m (closeRun s current) none relocs).entries t.descriptor = _ :=
      boundsLoop_other ho' hr trivial
    rw [ho, entries_closeRun hc]

/-- The whole scan, up to the run of the table and through it. -/
theorem boundsLoop_entries : ∀ {relocs s current}, Owns s.find t →
    s.find t.address = some t → relocs.Nodup → Apart t current → (boundsLoop m s current relocs).entries t.descriptor =
        if t.address ∈ relocs ∧ s.entries t.descriptor ≤ 0 then
          if 5 ≤ runOf m s t relocs then (runOf m s t relocs : Int) else 1 else s.entries t.descriptor
  | [], s, current, ho, _, _, hc => by
    rw [boundsLoop_other ho not_mem_nil hc, if_neg (by simp)]
  | a :: relocs, s, current, ho, hs, hnd, hc => by
    obtain ⟨hn, hnd⟩ := nodup_cons.1 hnd
    by_cases ha : t.address = a
    · subst ha
      rw [boundsLoop_start ho hs hn hc]
      simp [runOf]
    · obtain ⟨s', current', hp, hr, hf, he⟩ := boundsLoop_step (m := m) ho ha hc
      have hd : (a :: relocs).dropWhile (· ≠ t.address) = relocs.dropWhile (· ≠ t.address) :=
        dropWhile_cons_of_pos (by simpa using Ne.symm ha)
      rw [hp, boundsLoop_entries (hf ▸ ho) (hf ▸ hs) hnd hr, he, runOf, runOf, hf, hd]
      simp [ha]

variable (m) in
/-- The relocations that the pass goes through. -/
def boundsRelocs : List Address := if m.hasRelocations then m.relocList else []

theorem entries_jumpTableBounds (hnd : m.relocList.Nodup) (hb : (s.tables.map Table.address).Nodup)
    (ha : ∀ t ∈ s.tables, (m.descriptor t.descriptor).address = t.address) (ht : t ∈ s.tables) :
    (jumpTableBounds m s).entries t.descriptor = if t.address ∈ boundsRelocs m ∧ s.entries t.descriptor ≤ 0 then
        if 5 ≤ runOf m s t (boundsRelocs m) then (runOf m s t (boundsRelocs m) : Int) else 1
      else s.entries t.descriptor := by
  have ho : Owns s.find t := by
    intro a u hf hd
    obtain ⟨hu, rfl⟩ := find_some hf
    rw [← ha u hu, hd, ha t ht]
  have hs : s.find t.address = some t := by
    obtain ⟨u, hu⟩ := Option.ne_none_iff_exists'.1 fun hn => find_none hn t ht rfl
    obtain ⟨hm, heq⟩ := find_some hu
    rw [hu, inj_on_of_nodup_map hb hm ht heq]
  unfold jumpTableBounds boundsRelocs
  split
  · exact boundsLoop_entries ho hs hnd trivial
  · rw [if_neg (by simp)]

/-- The pass gives a table the bound of its run of relocations, or keeps its bound, except for the run of fewer than
    five relocations of a table with an unknown bound: the 1 written when it began stays. -/
theorem jumpTableBounds_exact_iff (hnodup : m.relocList.Nodup) (htables : (s.tables.map Table.address).Nodup)
    (haddress : ∀ t ∈ s.tables, (m.descriptor t.descriptor).address = t.address) (ht : t ∈ s.tables) :
    (jumpTableBounds m s).entries t.descriptor =
      (if t.address ∈ boundsRelocs m ∧ s.entries t.descriptor ≤ 0 ∧ 5 ≤ runOf m s t (boundsRelocs m) then
        (runOf m s t (boundsRelocs m) : Int)
      else s.entries t.descriptor) ↔
    ¬(t.address ∈ boundsRelocs m ∧ s.entries t.descriptor ≤ 0 ∧ runOf m s t (boundsRelocs m) < 5) := by
  rw [entries_jumpTableBounds hnodup htables haddress ht]
  by_cases hmem : t.address ∈ boundsRelocs m
  · by_cases huk : s.entries t.descriptor ≤ 0
    · by_cases hlg : 5 ≤ runOf m s t (boundsRelocs m)
      · simp [hmem, huk, hlg]
      · simp [hmem, huk, hlg]
        omega
    · simp [hmem, huk]
  · simp [hmem]

def oneTable : State := ⟨fun _ => -1, [⟨0x100, 0, []⟩], []⟩

theorem jumpTableBounds_exact_five :
    (jumpTableBounds (threeSlots [0x100, 0x104, 0x108, 0x10c, 0x110, 0x118]) oneTable).entries 0 = 5 := by
  refine ((jumpTableBounds_exact_iff (t := ⟨0x100, 0, []⟩) ?_ ?_ ?_ ?_).mpr ?_).trans ?_ <;> decide +kernel

/-- A table of two entries gets the bound 1, which JumpTableOverestimate takes for a known one. -/
theorem jumpTableBounds_short_run :
    (jumpTableBounds (threeSlots [0x100, 0x104]) oneTable).entries 0 = 1 ∧ oneTable.entries 0 = -1 ∧
      runOf (threeSlots [0x100, 0x104]) oneTable ⟨0x100, 0, []⟩ [0x100, 0x104] = 2 := by
  decide +kernel

end Egalito.JumpTables
