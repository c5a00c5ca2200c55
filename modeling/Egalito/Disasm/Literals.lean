/-
Literal areas of AArch64 functions (`DisassembleAARCH64Function::processLiterals` in `disasm/disassemble.cpp`).

The loop takes words of four bytes, so a region is covered to its end exactly if its size is a multiple of four.
-/
import Egalito.Lib.Bytes
import Egalito.Util.Range

namespace Egalito.Literals

open Lib

/-- A `LiteralInstruction` with its offset in the block, which is the size of the block when it is appended. -/
structure Literal where
  offset : Nat
  data : List Byte

variable (region : List Byte) (virtualAddress : Address) (block : List Literal) (sz : Nat)

def blockSize : Nat := (block.map (·.data.length)).sum

def literalSize (readSize : Nat) : Nat :=
  if readSize - sz < 8 then 4
  else if (virtualAddress + BitVec.ofNat 64 sz) &&& 0x7 ≠ 0 then 4 else 8

/-- `raw.assign(readAddress + sz, n)`; `none` is a read outside the region. -/
def assign (n : Nat) : Option (List Byte) :=
  if sz + n ≤ region.length then some ((region.drop sz).take n) else none

theorem literalSize_eq (readSize : Nat) : literalSize virtualAddress sz readSize = 4 ∨
    literalSize virtualAddress sz readSize = 8 ∧ 8 ≤ readSize - sz := by
  unfold literalSize
  split
  · exact .inl rfl
  · split
    · exact .inl rfl
    · exact .inr ⟨rfl, by omega⟩

/-- The loop, from `sz` on, with the block built so far. -/
def literalLoop (block : List Literal) (sz : Nat) : Option (List Literal) :=
  if sz < region.length then
    match assign region sz (literalSize virtualAddress sz region.length) with
    | some raw =>
      literalLoop (block ++ [⟨blockSize block, raw⟩]) (sz + literalSize virtualAddress sz region.length)
    | none => none
  else some block
termination_by region.length - sz
decreasing_by
  have := literalSize_eq virtualAddress sz region.length
  omega

/-- The blocks of the function afterwards: an empty block is deleted. -/
def processLiterals (blocks : List (List Literal)) : Option (List (List Literal)) := do
  let block ← literalLoop region virtualAddress [] 0
  return if blockSize block > 0 then blocks ++ [block] else blocks

/-! ## Coverage -/

def contents : List Byte := (block.map (·.data)).flatten

theorem blockSize_eq : blockSize block = (contents block).length := by
  rw [blockSize, contents, List.length_flatten, List.map_map]
  rfl

theorem contents_concat (literal) : contents (block ++ [literal]) = contents block ++ literal.data := by
  simp [contents]

/-- Both literal sizes keep `sz` a multiple of four, so the last read is short exactly if the region size is not one. -/
theorem literalLoop_spec (hle : sz ≤ region.length) (hd : 4 ∣ sz) (hb : contents block = region.take sz) :
    if 4 ∣ region.length then ∃ b, literalLoop region virtualAddress block sz = some b ∧ contents b = region
    else literalLoop region virtualAddress block sz = none := by
  fun_induction literalLoop region virtualAddress block sz with
  | case1 block sz hlt raw hr ih =>
    have hs := literalSize_eq virtualAddress sz region.length
    unfold assign at hr
    split at hr
    next hf =>
      cases hr
      refine ih hf (by omega) ?_
      rw [contents_concat, hb, List.take_add]
    next => cases hr
  | case2 block sz hlt hr =>
    have hs := literalSize_eq virtualAddress sz region.length
    unfold assign at hr
    split at hr
    next => cases hr
    next hf =>
      rw [if_neg (by omega)]
  | case3 block sz hge =>
    obtain rfl : sz = region.length := by omega
    rw [if_pos hd]
    exact ⟨block, rfl, by rw [hb, List.take_length]⟩

/-- The literals cover the region, one after the other, exactly if its size is a multiple of four. -/
theorem processLiterals_covers_iff (blocks : List (List Literal)) (region : List Byte) (virtualAddress : Address) :
    (∃ block, processLiterals region virtualAddress blocks = some (if region = [] then blocks else blocks ++ [block]) ∧
      blockSize block = region.length ∧ contents block = region) ↔ 4 ∣ region.length := by
  have hlp := literalLoop_spec region virtualAddress [] 0 (Nat.zero_le _) (Nat.dvd_zero 4) rfl
  unfold processLiterals
  constructor
  · rintro ⟨block, hrun, -, -⟩
    by_contra hdvd
    rw [if_neg hdvd] at hlp
    rw [hlp] at hrun
    cases hrun
  · intro hdvd
    rw [if_pos hdvd] at hlp
    obtain ⟨block, hrun, hcn⟩ := hlp
    have hsz : blockSize block = region.length := by rw [blockSize_eq, hcn]
    refine ⟨block, ?_, hsz, hcn⟩
    rw [hrun]
    cases region with
    | nil => simp_all
    | cons byte region => simp [hsz]

/-- Six bytes: the second literal is read two bytes beyond the region. -/
theorem processLiterals_six : processLiterals (List.replicate 6 0) 0 [] = none := by
  simp [processLiterals, literalLoop, assign, literalSize]

end Egalito.Literals
