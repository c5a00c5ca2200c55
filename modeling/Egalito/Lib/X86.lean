/-
A fragment of the x86-64 instruction set: registers, flags and memory, and the decoding and effect of 64-bit moves,
`lea`, pushes and pops.
-/
import Egalito.Lib.Bytes
import Mathlib.Data.List.GetD
import Mathlib.Logic.Function.Basic

namespace Lib.X86

open List BitVec

abbrev Word := BitVec 64

/-- A general purpose register by its number: rax, rcx, rdx, rbx, rsp, rbp, rsi, rdi, r8, ... -/
abbrev Reg := Fin 16

def rsp : Reg := 4
def r8 : Reg := 8
def r11 : Reg := 11

/-- `disp(base, index, 2 ^ scale)`, where a missing register counts as zero. -/
structure Mem where
  base : Option Reg
  index : Option (Reg × Fin 4)
  disp : Word
deriving DecidableEq, Repr

inductive Operand where
  | reg (r : Reg)
  | mem (m : Mem)
deriving DecidableEq, Repr

/-- All operands have 64 bits. -/
inductive Instr where
  | mov (dst src : Operand)
  | lea (dst : Reg) (src : Mem)
  | push (r : Reg)
  | pop (r : Reg)
  | pushf
  | popf
  | ret
deriving DecidableEq, Repr

/-! ## Decoding -/

structure Rex where
  w : Bool
  r : Bool
  x : Bool
  b : Bool

def rexOf (b : Byte) : Option Rex :=
  if b.extractLsb' 4 4 = 4#4 then some ⟨b.getLsbD 3, b.getLsbD 2, b.getLsbD 1, b.getLsbD 0⟩ else none

/-- A register field of three bits with the bit that the REX prefix adds to it. -/
def extend (high : Bool) (low : BitVec 3) : Reg := (BitVec.ofBool high ++ low).toFin

def disp8 : List Byte → Option (Word × List Byte)
  | b :: rest => some (b.signExtend 64, rest)
  | [] => none

def disp32 : List Byte → Option (Word × List Byte)
  | b0 :: b1 :: b2 :: b3 :: rest => some ((b3 ++ b2 ++ b1 ++ b0).signExtend 64, rest)
  | _ => none

/-- The displacement that a ModRM byte with this `mod` field announces. -/
def displacement (mod : BitVec 2) (rest : List Byte) : Option (Word × List Byte) :=
  if mod = 0#2 then some (0, rest) else if mod = 1#2 then disp8 rest else disp32 rest

/-- The operand of a SIB byte. Number 4 in the index field is no index, and number 5 in the base field
    with `mod` 0 is no base. -/
def sibOperand (rex : Rex) (mod : BitVec 2) (sib : Byte) (rest : List Byte) : Option (Mem × List Byte) :=
  let indexReg := extend rex.x (sib.extractLsb' 3 3)
  let index := if indexReg = rsp then none else some (indexReg, (sib.extractLsb' 6 2).toFin)
  let low := sib.extractLsb' 0 3
  if mod = 0#2 ∧ low = 5#3 then (disp32 rest).map fun (d, rest) => (⟨none, index, d⟩, rest)
  else (displacement mod rest).map fun (d, rest) => (⟨some (extend rex.b low), index, d⟩, rest)

/-- The operand of the `mod` and `rm` fields. The form relative to the instruction pointer is not part of the fragment. -/
def rmOperand (rex : Rex) (mod : BitVec 2) (rm : BitVec 3) (rest : List Byte) : Option (Operand × List Byte) :=
  if mod = 3#2 then some (.reg (extend rex.b rm), rest)
  else if rm = 4#3 then
    match rest with
    | [] => none
    | sib :: rest => (sibOperand rex mod sib rest).map fun (m, rest) => (.mem m, rest)
  else if mod = 0#2 ∧ rm = 5#3 then none
  else (displacement mod rest).map fun (d, rest) => (.mem ⟨some (extend rex.b rm), none, d⟩, rest)

/-- The register of the `reg` field and the operand of the others. -/
def modRM (rex : Rex) : List Byte → Option (Reg × Operand × List Byte)
  | [] => none
  | b :: rest =>
    (rmOperand rex (b.extractLsb' 6 2) (b.extractLsb' 0 3) rest).map fun (operand, rest) =>
      (extend rex.r (b.extractLsb' 3 3), operand, rest)

/-- The instructions whose operands are in a ModRM byte. -/
def decodeModRM (rex : Rex) (op : Byte) (rest : List Byte) : Option (Instr × List Byte) :=
  match modRM rex rest with
  | none => none
  | some (r, operand, rest) =>
    if op = 0x8b#8 then some (.mov (.reg r) operand, rest)
    else if op = 0x89#8 then some (.mov operand (.reg r), rest)
    else match operand with
      | .mem m => if op = 0x8d#8 then some (.lea r m, rest) else none
      | .reg _ => none

def decodeOpcode (rex : Rex) : List Byte → Option (Instr × List Byte)
  | [] => none
  | op :: rest =>
    if op = 0x8b#8 ∨ op = 0x89#8 ∨ op = 0x8d#8 then
      if rex.w then decodeModRM rex op rest else none
    else if op.extractLsb' 3 5 = 0xa#5 then some (.push (extend rex.b (op.extractLsb' 0 3)), rest)
    else if op.extractLsb' 3 5 = 0xb#5 then some (.pop (extend rex.b (op.extractLsb' 0 3)), rest)
    else if op = 0x9c#8 then some (.pushf, rest)
    else if op = 0x9d#8 then some (.popf, rest)
    else if op = 0xc3#8 then some (.ret, rest)
    else none

/-- The first instruction of the bytes, with the bytes after it. -/
def decode : List Byte → Option (Instr × List Byte)
  | [] => none
  | b :: rest =>
    match rexOf b with
    | some rex => decodeOpcode rex rest
    | none => decodeOpcode ⟨false, false, false, false⟩ (b :: rest)

/-- The instruction that the bytes are, with nothing left over. -/
def decodeOne (bytes : List Byte) : Option Instr :=
  match decode bytes with
  | some (i, []) => some i
  | _ => none

/-- The destination, base and index of a 64-bit load with a 32-bit displacement, from the bytes before the displacement. -/
def loadHeader : List Byte → Option (Reg × Option Reg × Option (Reg × Fin 4))
  | [b, op, modrm] =>
    match rexOf b with
    | none => none
    | some rex =>
      if rex.w ∧ op = 0x8b#8 ∧ modrm.extractLsb' 6 2 = 2#2 ∧ modrm.extractLsb' 0 3 ≠ 4#3 then
        some (extend rex.r (modrm.extractLsb' 3 3), some (extend rex.b (modrm.extractLsb' 0 3)), none)
      else none
  | [b, op, modrm, sib] =>
    match rexOf b with
    | none => none
    | some rex =>
      if rex.w ∧ op = 0x8b#8 ∧ modrm.extractLsb' 6 2 = 2#2 ∧ modrm.extractLsb' 0 3 = 4#3 then
        let indexReg := extend rex.x (sib.extractLsb' 3 3)
        some (extend rex.r (modrm.extractLsb' 3 3), some (extend rex.b (sib.extractLsb' 0 3)),
          if indexReg = rsp then none else some (indexReg, (sib.extractLsb' 6 2).toFin))
      else none
  | _ => none

variable {r : Reg} {mem : Word → Byte} {a : Word}

theorem decode_of_loadHeader {header rest rest' base index}
    {d} (h : loadHeader header = some (r, base, index)) (hd : disp32 rest = some (d, rest')) :
    decode (header ++ rest) = some (.mov (.reg r) (.mem ⟨base, index, d⟩), rest') := by
  match header with
  | [b, op, modrm] =>
    cases hx : rexOf b with
    | none => simp [loadHeader, hx] at h
    | some rex =>
      simp only [loadHeader, hx, Option.ite_none_right_eq_some, Option.some.injEq, Prod.mk.injEq] at h
      obtain ⟨⟨hw, rfl, hm, hr⟩, rfl, rfl, rfl⟩ := h
      simp [decode, hx, decodeOpcode, hw, decodeModRM, modRM, rmOperand, hm, hr, displacement, hd]
  | [b, op, modrm, sib] =>
    cases hx : rexOf b with
    | none => simp [loadHeader, hx] at h
    | some rex =>
      simp only [loadHeader, hx, Option.ite_none_right_eq_some, Option.some.injEq, Prod.mk.injEq] at h
      obtain ⟨⟨hw, rfl, hm, hr⟩, rfl, rfl, rfl⟩ := h
      simp [decode, hx, decodeOpcode, hw, decodeModRM, modRM, rmOperand, hm, hr, sibOperand, displacement, hd]
  | [] | [_] | [_, _] | _ :: _ :: _ :: _ :: _ :: _ => simp [loadHeader] at h

/-! ## Execution -/

/-- `rip` is only set by instructions that branch: a run over a list of instructions goes through it in
    order. -/
structure Machine where
  regs : Reg → Word
  flags : Word
  mem : Word → Byte
  rip : Word

def readWord (mem : Word → Byte) (a : Word) : Word :=
  BitVec.ofNat 64 (fromLittleEndian ((range 8).map fun i => mem (a + BitVec.ofNat 64 i)))

def writeWord (mem : Word → Byte) (a v : Word) (b : Word) : Byte :=
  if (b - a).toNat < 8 then (littleEndian 8 v.toNat).getD (b - a).toNat 0 else mem b

def Mem.address (m : Mem) (regs : Reg → Word) : Word :=
  m.base.elim 0 regs + m.index.elim 0 (fun i => regs i.1 <<< i.2.val) + m.disp

def Operand.value (s : Machine) : Operand → Word
  | .reg r => s.regs r
  | .mem m => readWord s.mem (m.address s.regs)

namespace Machine

def setReg (s : Machine) (r : Reg) (v : Word) : Machine := { s with regs := Function.update s.regs r v }

def assign (s : Machine) (v : Word) : Operand → Machine
  | .reg r => s.setReg r v
  | .mem m => { s with mem := writeWord s.mem (m.address s.regs) v }

def push (s : Machine) (v : Word) : Machine :=
  { s.setReg rsp (s.regs rsp - 8) with mem := writeWord s.mem (s.regs rsp - 8) v }

def top (s : Machine) : Word := readWord s.mem (s.regs rsp)

def drop (s : Machine) : Machine := s.setReg rsp (s.regs rsp + 8)

def exec (s : Machine) : Instr → Machine
  | .mov dst src => s.assign (src.value s) dst
  | .lea dst src => s.setReg dst (src.address s.regs)
  | .push r => s.push (s.regs r)
  | .pop r => s.drop.setReg r s.top
  | .pushf => s.push s.flags
  | .popf => { s.drop with flags := s.top }
  | .ret => { s.drop with rip := s.top }

def run (s : Machine) (code : List Instr) : Machine := code.foldl exec s

theorem run_cons (s : Machine) (i : Instr) (code : List Instr) : s.run (i :: code) = (s.exec i).run code := rfl

theorem run_append (s : Machine) (code code' : List Instr) : s.run (code ++ code') = (s.run code).run code' :=
  foldl_append

@[simp] theorem setReg_same (s : Machine) (r : Reg) (v : Word) : (s.setReg r v).regs r = v := by
  simp [setReg]

@[simp] theorem setReg_of_ne (s : Machine) {r' : Reg} (v : Word) (h : r' ≠ r) : (s.setReg r v).regs r' = s.regs r' := by
  simp [setReg, h]

@[simp] theorem push_rsp (s : Machine) (v : Word) : (s.push v).regs rsp = s.regs rsp - 8 := by
  simp [push]

@[simp] theorem push_of_ne (s : Machine) (v : Word) (h : r ≠ rsp) : (s.push v).regs r = s.regs r := by
  simp [push, h]

@[simp] theorem push_mem (s : Machine) (v : Word) : (s.push v).mem = writeWord s.mem (s.regs rsp - 8) v := rfl

@[simp] theorem drop_rsp (s : Machine) : s.drop.regs rsp = s.regs rsp + 8 := by
  simp [drop]

@[simp] theorem drop_of_ne (s : Machine) (h : r ≠ rsp) : s.drop.regs r = s.regs r := by
  simp [drop, h]

end Machine

/-! ## Words in memory -/

theorem writeWord_of_ge {v b} (h : 8 ≤ (b - a).toNat) : writeWord mem a v b = mem b :=
  if_neg (Nat.not_lt.2 h)

theorem toNat_add_sub_self {i} (a) (h : i < 8) : (a + BitVec.ofNat 64 i - a).toNat = i := by
  rw [BitVec.add_comm, BitVec.add_sub_cancel, BitVec.toNat_ofNat]
  exact Nat.mod_eq_of_lt (by omega)

theorem map_getD_littleEndian (n d) :
    ((range n).map fun i => (littleEndian n d).getD i 0) = littleEndian n d := by
  apply ext_getElem
  · rw [length_map, length_range, length_littleEndian]
  · intro i hi hi'
    rw [getElem_map, getElem_range, getD_eq_getElem _ _ hi']

@[simp] theorem readWord_writeWord (mem) (a v) : readWord (writeWord mem a v) a = v := by
  have hb : ((range 8).map fun i => writeWord mem a v (a + BitVec.ofNat 64 i)) =
      (range 8).map fun i => (littleEndian 8 v.toNat).getD i 0 := by
    apply map_congr_left
    intro i hi
    have hlt := mem_range.1 hi
    rw [writeWord, toNat_add_sub_self a hlt, if_pos hlt]
  rw [readWord, hb, map_getD_littleEndian, from_littleEndian]
  apply eq_of_toNat_eq
  rw [toNat_ofNat]
  have := v.isLt
  omega

theorem readWord_congr {mem'} (h : ∀ i < 8, mem' (a + BitVec.ofNat 64 i) = mem (a + BitVec.ofNat 64 i)) :
    readWord mem' a = readWord mem a := by
  rw [readWord, readWord]
  congr 2
  apply map_congr_left
  intro i hi
  exact h i (mem_range.1 hi)

theorem readWord_eq_zero : readWord mem a = 0 ↔ ∀ i < 8, mem (a + BitVec.ofNat 64 i) = 0 := by
  have hlt := fromLittleEndian_lt ((range 8).map fun i => mem (a + BitVec.ofNat 64 i))
  rw [length_map, length_range] at hlt
  rw [readWord, ← BitVec.toNat_inj, toNat_ofNat, Nat.mod_eq_of_lt hlt]
  refine fromLittleEndian_eq_zero.trans ?_
  simp

/-- The words at the two addresses share no byte. -/
def Apart (a b : Word) : Prop := 8 ≤ (b - a).toNat ∧ 8 ≤ (a - b).toNat

instance (a b : Word) : Decidable (Apart a b) := inferInstanceAs (Decidable (_ ∧ _))

theorem readWord_writeWord_apart {b v} (h : Apart a b) : readWord (writeWord mem a v) b = readWord mem b := by
  obtain ⟨hba, hab⟩ := h
  apply readWord_congr
  intro i hi
  apply writeWord_of_ge
  bv_omega

def Mem.Avoids (m : Mem) (r : Reg) : Prop := m.base ≠ some r ∧ ∀ i ∈ m.index, i.1 ≠ r

theorem Mem.address_congr {m : Mem} (h : m.Avoids r) {regs regs'} (hr : ∀ r' ≠ r, regs' r' = regs r') :
    m.address regs' = m.address regs := by
  obtain ⟨hs, hd⟩ := h
  have hb : m.base.elim 0 regs' = m.base.elim 0 regs := by
    cases h : m.base with
    | none => rfl
    | some b => exact hr b fun hbr => hs (by rw [h, hbr])
  have hi : (m.index.elim 0 fun i => regs' i.1 <<< i.2.val) = m.index.elim 0 fun i => regs i.1 <<< i.2.val := by
    cases h : m.index with
    | none => rfl
    | some i => simp only [Option.elim_some, hr i.1 (hd i h)]
  rw [Mem.address, Mem.address, hb, hi]

end Lib.X86
