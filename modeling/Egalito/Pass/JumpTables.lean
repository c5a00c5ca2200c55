/-
Jump tables, as JumpTablePass has made them: JumpTableBounds deduces missing bounds from relocations, and
JumpTableOverestimate guesses the rest.

Both passes are loops over the tables of a state in which they set the number of entries of a descriptor; here are their
definitions, and what is proved about them stands in a module for each.
-/
import Egalito.Lib.Bytes
import Egalito.Lib.OrderedMap
import Egalito.Util.Range

namespace Egalito.JumpTables

open Lib

/-- What does not change in a JumpTableDescriptor. The detection asserts that the table lies in a section. -/
structure Descriptor where
  address : Address
  scale : Nat
  /-- the target address of `targetBaseLink` -/
  targetBase : Address
  /-- the range of the function with the jump -/
  functionRange : Range

structure Entry where
  address : Address
  dest : Nat
deriving DecidableEq

structure Table where
  address : Address
  descriptor : Nat
  children : List Entry
deriving DecidableEq

/-- The descriptors by number, the contents of the sections, `findInnermostInsideInstruction`, and the addresses of the
    relocations. -/
structure Module where
  descriptor : Nat → Descriptor
  memory : Address → BitVec 8
  findInstruction : Address → Option Nat
  hasRelocations : Bool
  relocList : List Address

/-- `entries` is what getEntries returns for each descriptor, `dataVariables` are the variables with the instructions
    they are linked to. -/
structure State where
  entries : Nat → Int
  tables : List Table
  dataVariables : List (Address × Nat)

variable (m : Module)

def State.setEntries (s : State) (descriptor : Nat) (n : Int) : State :=
  { s with entries := Function.update s.entries descriptor n }

def slotAddress (d : Descriptor) (i : Nat) : Address := d.address + BitVec.ofNat 64 (i * d.scale)

def slotValue (scale : Nat) (a : Address) : Int :=
  let width := if scale = 1 then 1 else if scale = 2 then 2 else 4
  signedField ((List.range width).map fun k => m.memory (a + BitVec.ofNat 64 k))

def slotTarget (descriptor i : Nat) : Option Nat :=
  let d := m.descriptor descriptor
  m.findInstruction (d.targetBase + BitVec.ofInt 64 (slotValue m d.scale (slotAddress d i)))

def State.replace (s : State) (t : Table) : State :=
  { s with tables := s.tables.map fun t' => if t'.address = t.address then t else t' }

def State.find (s : State) (a : Address) : Option Table := s.tables.find? fun t => t.address = a

/-! ## JumpTableBounds -/

def boundsSetEntries (s : State) (t : Table) (count : Nat) : State :=
  if count ≥ 5 then s.setEntries t.descriptor count else s

/-- The loop over the relocations, with `currentTable` and `count`. -/
def boundsLoop : State → Option (Table × Nat) → List Address → State
  | s, current, [] =>
    match current with
    | some (t, count) => boundsSetEntries s t count
    | none => s
  | s, current, a :: relocs =>
    match s.find a with
    | some t =>
      let s := match current with
        | some (t', count) => boundsSetEntries s t' count
        | none => s
      if s.entries t.descriptor ≤ 0 then boundsLoop (s.setEntries t.descriptor 1) (some (t, 1)) relocs
      else boundsLoop s none relocs
    | none =>
      match current with
      | none => boundsLoop s none relocs
      | some (t, count) =>
        if a = t.address + BitVec.ofNat 64 (count * (m.descriptor t.descriptor).scale) then
          boundsLoop s (some (t, count + 1)) relocs
        else boundsLoop (boundsSetEntries s t count) none relocs

def jumpTableBounds (s : State) : State := if m.hasRelocations then boundsLoop m s none m.relocList else s

/-! ## JumpTableOverestimate -/

variable {s : State} {a : Address} {t : Table}

theorem find_some (h : s.find a = some t) : t ∈ s.tables ∧ t.address = a :=
  ⟨List.mem_of_find?_eq_some h, by simpa using List.find?_some h⟩

theorem find_none (h : s.find a = none) : ∀ t ∈ s.tables, t.address ≠ a := by
  simpa [State.find] using h

-- fixes the instance by which membership in a list of addresses is decided
local instance lawfulSlots : LawfulBEq Address := inferInstance

/-- A table at 0x100 with three slots that lead to the instruction at 0x200, and others that lead nowhere. -/
def threeSlots (relocs : List Address) : Module where
  descriptor _ := ⟨0x100, 4, 0x100, ⟨0x200, 0x10⟩⟩
  memory a := if a ∈ [0x101, 0x105, 0x109] then 1 else 0
  findInstruction a := if a = 0x200 then some 7 else none
  hasRelocations := !relocs.isEmpty
  relocList := relocs

end Egalito.JumpTables
