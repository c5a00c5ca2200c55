/-
RetpolinePass: an indirect call or jump becomes a direct one to a trampoline that returns to the operand.

The bytes that load the operand into r11 are built by hand, here and in two other passes; the decoder of `Lib.X86` says
which operands they load. The trampolines of a module are shared by name, and the name determines the bytes. A
trampoline is run on the machine of `Lib.X86`: it branches as the replaced instruction did unless the operand depends
on what the calls on the way have pushed, and then there are a memory and return addresses for which it does not.
-/
import Egalito.Lib.Decimal
import Egalito.Lib.X86
import Egalito.Util.IntervalTree
import Mathlib.Data.Fintype.Basic
import Mathlib.Data.Fintype.Option
import Mathlib.Data.Fintype.Prod

namespace Egalito.Retpoline

open List Lib Lib.X86

/-- A register of an operand as the disassembler names it. -/
inductive Register where
  | invalid
  | rip
  | gp (r : Reg)
deriving DecidableEq

def convertToPhysical : Register → Int
  | .gp r => r.val
  | _ => -1

inductive Kind where
  | jump
  | call
deriving DecidableEq

/-- IndirectControlFlowInstructionBase; `index`, `scale` and `displacement` count for memory operands
    only. -/
structure IndirectControlFlowInstruction where
  register : Register
  hasMemoryOperand : Bool
  indexRegister : Register
  scale : Nat
  displacement : BitVec 64

/-- The loop that appends the low bytes of the displacement. -/
def displacementBytes : Nat → BitVec 64 → List Byte
  | 0, _ => []
  | n + 1, displacement => displacement.setWidth 8 :: displacementBytes n (displacement.sshiftRight 8)

/-- The bytes before the displacement of `movq disp(reg, index, scale), %r11`. -/
def movHeader (reg indexReg : Int) (scale : Nat) : List Byte :=
  let rex : Byte := if reg ≥ 8 then 0x4c ||| 0b0001 else 0x4c
  if indexReg = -1 then
    if reg ≥ 8 then
      [rex, 0x8b, BitVec.ofInt 8 (0x98 + reg - 8)] ++ if reg = 12 then [0x24] else []
    else
      [rex, 0x8b, BitVec.ofInt 8 (0x98 + reg)] ++ if reg = 4 then [0x24] else []
  else
    let rex : Byte := if indexReg ≥ 8 then rex ||| 0b0010 else rex
    -- `while(scale /= 2) bits++`
    let bits := scale.log2
    let sib : Byte := BitVec.ofNat 8 (bits <<< 6)
    let sib : Byte := if reg ≥ 8 then sib ||| BitVec.ofInt 8 (reg - 8) else sib ||| BitVec.ofInt 8 reg
    let sib : Byte :=
      if indexReg > 8 then sib ||| BitVec.ofInt 8 ((indexReg - 8) * 8)
      else sib ||| BitVec.ofInt 8 (indexReg * 8)
    [rex, 0x8b, 0x9c, sib]

def movRegister (reg : Int) : List Byte :=
  let rex : Byte := if reg ≥ 8 then 0x49 ||| 0b0100 else 0x49
  let operand : Byte := if reg ≥ 8 then 0xc3 ||| BitVec.ofInt 8 ((reg - 8) * 8) else 0xc3 ||| BitVec.ofInt 8 (reg * 8)
  [rex, 0x89, operand]

/-- `movq EA, %r11`, the code that the three passes share. -/
def movEA (v : IndirectControlFlowInstruction) : List Byte :=
  if v.hasMemoryOperand then
    movHeader (convertToPhysical v.register) (convertToPhysical v.indexRegister) v.scale ++
      displacementBytes 4 v.displacement
  else movRegister (convertToPhysical v.register)

def makeMovInstruction (v : IndirectControlFlowInstruction) : Except Failure (List (List Byte)) :=
  if v.register = .rip then .error .assertion
  else .ok [movEA v, [0x4c, 0x89, 0x1c, 0x24]]

def makeMovR11Instruction (v : IndirectControlFlowInstruction) : Except Failure (List Byte) :=
  if v.register = .rip then .error .assertion else .ok (movEA v)

def rewriteIndirectCallMov (v : IndirectControlFlowInstruction) : Except Failure (List Byte) :=
  if v.register = .rip then .error .assertion else .ok (movEA v)

/-! ## Trampolines -/

/-- An instruction of a trampoline: bytes, or a control flow instruction linked to a block. -/
inductive Code where
  | bytes (b : List Byte)
  | call (block : Nat)
  | jmp (block : Nat)
deriving DecidableEq

structure Trampoline where
  name : List Char
  blocks : List (List Code)
deriving DecidableEq

def indexText (v : IndirectControlFlowInstruction) : List Char :=
  if convertToPhysical v.indexRegister = -1 then []
  else '_' :: 'r' :: signedDecimal (convertToPhysical v.indexRegister)

def scaleText (v : IndirectControlFlowInstruction) : List Char :=
  if v.scale = 1 then [] else '@' :: decimal v.scale

def displacementText (v : IndirectControlFlowInstruction) : List Char :=
  if v.displacement = 0 then [] else '$' :: signedDecimal v.displacement.toInt

def operandText (v : IndirectControlFlowInstruction) : List Char :=
  if v.hasMemoryOperand then
    'm' :: 'r' :: (signedDecimal (convertToPhysical v.register) ++
      (indexText v ++ (scaleText v ++ displacementText v)))
  else 'r' :: signedDecimal (convertToPhysical v.register)

def kindText : Kind → List Char
  | .jump => "jmp_".toList
  | .call => "call_".toList

/-- The name under which the trampoline is kept (`CONSTRUCT_NAME`). -/
def constructName (k : Kind) (v : IndirectControlFlowInstruction) : List Char :=
  "retpoline_".toList ++ (kindText k ++ operandText v)

/-- The trampoline that is built when none of the name exists. -/
def buildTrampoline (k : Kind) (v : IndirectControlFlowInstruction) : Except Failure Trampoline :=
  (makeMovInstruction v).map fun movs =>
    { name := constructName k v
      blocks := [[.call 2], [.bytes [0xf3, 0x90], .jmp 1], movs.map .bytes ++ [.bytes [0xc3]]] }

abbrev RetpolineList := List (List Char × Trampoline)

def makeOutlinedTrampoline (list : RetpolineList) (k : Kind) (v : IndirectControlFlowInstruction) :
    Except Failure (Trampoline × RetpolineList) :=
  match list.lookup (constructName k v) with
  | some t => .ok (t, list)
  | none => (buildTrampoline k v).map fun t => (t, (constructName k v, t) :: list)

/-- The trampolines that the branches of a module are sent to, in the order of the visit. -/
def visit : RetpolineList → List (Kind × IndirectControlFlowInstruction) → Except Failure (List Trampoline)
  | _, [] => .ok []
  | list, (k, v) :: rest =>
    match makeOutlinedTrampoline list k v with
    | .error e => .error e
    | .ok (t, list) => (visit list rest).map (t :: ·)

/-- Running a trampoline from an instruction of a block until it returns. A call ends its block, so it pushes the
    address of the next one. -/
def runFrom (t : Trampoline) (blockAddress : Nat → Word) : Nat → Nat → Nat → Machine → Option Machine
  | 0, _, _, _ => none
  | fuel + 1, block, i, s =>
    match t.blocks[block]? with
    | none => none
    | some code =>
      match code[i]? with
      | none => runFrom t blockAddress fuel (block + 1) 0 s
      | some (.call target) => runFrom t blockAddress fuel target 0 (s.push (blockAddress (block + 1)))
      | some (.jmp target) => runFrom t blockAddress fuel target 0 s
      | some (.bytes b) =>
        match decodeOne b with
        | none => none
        | some .ret => some (s.exec .ret)
        | some instr => runFrom t blockAddress fuel block (i + 1) (s.exec instr)

/-- The replaced instruction: a jump, or a call that pushes the address after it. -/
def enter (k : Kind) (returnAddress : Word) (s : Machine) : Machine :=
  match k with
  | .jump => s
  | .call => s.push returnAddress

def branch (k : Kind) (operand : Operand) (returnAddress : Word) (s : Machine) : Machine :=
  { enter k returnAddress s with rip := operand.value s }

/-- `disp(base, index, scale)`; rsp cannot be an index. -/
structure MemoryOperand where
  base : Option Reg
  index : Option (Reg × Fin 4)
  disp : BitVec 32
  index_ne_rsp : ∀ i ∈ index, i.1 ≠ rsp

inductive BranchOperand where
  | register (r : Reg)
  | memory (m : MemoryOperand)

namespace BranchOperand

def operand : BranchOperand → Operand
  | .register r => .reg r
  | .memory m => .mem ⟨m.base, m.index, m.disp.signExtend 64⟩

/-- The semantic of the branch with this operand. -/
def instruction : BranchOperand → IndirectControlFlowInstruction
  | .register r => ⟨.gp r, false, .invalid, 1, 0⟩
  | .memory m =>
    ⟨m.base.elim .invalid .gp, true, m.index.elim .invalid fun i => .gp i.1, m.index.elim 1 fun i => 2 ^ i.2.val,
      m.disp.signExtend 64⟩

end BranchOperand

local instance neZero16 : NeZero 16 := ⟨by decide⟩

local instance neZero4 : NeZero 4 := ⟨by decide⟩

/-- What the load can express: a base is there, and index r8 comes with a scale that has the low bit set. -/
def EncodesRegisters (base : Option Reg) (index : Option (Reg × Fin 4)) : Prop :=
  base.isSome ∧ ∀ i ∈ index, i.1 = r8 → i.2 = 1 ∨ i.2 = 3

instance (base : Option Reg) (index : Option (Reg × Fin 4)) : Decidable (EncodesRegisters base index) :=
  inferInstanceAs (Decidable (_ ∧ _))

def BranchOperand.Encodable : BranchOperand → Prop
  | .register _ => True
  | .memory m => EncodesRegisters m.base m.index

theorem decode_movRegister : ∀ r : Reg, decodeOne (movRegister r.val) = some (.mov (.reg r11) (.reg r)) := by
  decide +kernel

/-- The physical numbers of a memory operand's registers and its scale give this header. -/
def operandHeader (base : Option Reg) (index : Option (Reg × Fin 4)) : List Byte :=
  movHeader (convertToPhysical (base.elim .invalid .gp)) (convertToPhysical (index.elim .invalid fun i => .gp i.1))
    (index.elim 1 fun i => 2 ^ i.2.val)

theorem loadHeader_operandHeader : ∀ base index,
    (∀ i ∈ index, i.1 ≠ rsp) → (loadHeader (operandHeader base index)).isSome ∧
      (loadHeader (operandHeader base index) = some (r11, base, index) ↔ EncodesRegisters base index) := by
  decide +kernel

theorem disp32_displacementBytes (d : BitVec 32) :
    disp32 (displacementBytes 4 (d.signExtend 64)) = some (d.signExtend 64, []) := by
  simp only [displacementBytes, disp32, Option.some.injEq, Prod.mk.injEq, and_true]
  congr 1
  apply BitVec.eq_of_getLsbD_eq
  intro i hi
  simp only [BitVec.getLsbD_append, BitVec.getLsbD_setWidth, BitVec.getLsbD_sshiftRight, BitVec.getLsbD_signExtend]
  grind

theorem decodeOne_movEA_memory (m : MemoryOperand) : decodeOne (movEA (BranchOperand.memory m).instruction) =
        some (.mov (.reg r11) (BranchOperand.memory m).operand) ↔ EncodesRegisters m.base m.index := by
  obtain ⟨hs, hi⟩ := loadHeader_operandHeader m.base m.index m.index_ne_rsp
  obtain ⟨⟨r, base, index⟩, hh⟩ := Option.isSome_iff_exists.1 hs
  have hb : movEA (BranchOperand.memory m).instruction =
      operandHeader m.base m.index ++ displacementBytes 4 (m.disp.signExtend 64) := rfl
  rw [← hi, hh, hb, decodeOne, decode_of_loadHeader hh (disp32_displacementBytes m.disp)]
  simp [BranchOperand.operand]

theorem decodeOne_movEA (o : BranchOperand) :
    decodeOne (movEA o.instruction) = some (.mov (.reg r11) o.operand) ↔ o.Encodable := by
  cases o with
  | register r => exact iff_of_true (decode_movRegister r) trivial
  | memory m => exact decodeOne_movEA_memory m

/-! ## Trampolines are found under the name of their operand -/

variable {v v' : IndirectControlFlowInstruction} {k : Kind} {c : Char} {s : Machine} {o : BranchOperand}

theorem head?_displacementText (h : c ∈ (displacementText v).head?) : c = '$' := by
  unfold displacementText at h
  split at h
  · simp at h
  · simpa using h.symm

theorem head?_scaleText (h : c ∈ (scaleText v ++ displacementText v).head?) : c = '@' ∨ c = '$' := by
  unfold scaleText at h
  split at h
  · exact .inr (head?_displacementText h)
  · exact .inl (by simpa using h.symm)

theorem head?_indexText (h : c ∈ (indexText v ++ (scaleText v ++ displacementText v)).head?) :
    c = '_' ∨ c = '@' ∨ c = '$' := by
  unfold indexText at h
  split at h
  · exact .inr (head?_scaleText h)
  · exact .inl (by simpa using h.symm)

theorem delimited_displacementText (v) : Delimited (displacementText v) := by
  intro c hc
  rw [head?_displacementText hc]
  rfl

theorem delimited_scaleText (v) : Delimited (scaleText v ++ displacementText v) := by
  intro c hc
  obtain rfl | rfl := head?_scaleText hc <;> rfl

theorem delimited_indexText (v) : Delimited (indexText v ++ (scaleText v ++ displacementText v)) := by
  intro c hc
  obtain rfl | rfl | rfl := head?_indexText hc <;> rfl

theorem displacement_eq_of_text (h : displacementText v = displacementText v') : v.displacement = v'.displacement := by
  have hn : ([] : List Char).head? ≠ some '$' := by simp
  obtain ⟨hi, -, hne⟩ := optional_append_inj hn hn (congrArg (· ++ []) h)
  by_cases hz : v.displacement = 0
  · rw [hz, hi.1 hz]
  · exact BitVec.eq_of_toInt_eq (signedDecimal_append_inj delimited_nil delimited_nil (hne hz)).1

theorem scale_eq_of_text (h : scaleText v ++ displacementText v = scaleText v' ++ displacementText v') :
    v.scale = v'.scale ∧ displacementText v = displacementText v' := by
  have hh (v : IndirectControlFlowInstruction) : (displacementText v).head? ≠ some '@' := by
    intro hc
    exact absurd (head?_displacementText hc) (by decide)
  obtain ⟨hi, heq, hne⟩ := optional_append_inj (hh v) (hh v') h
  by_cases ho : v.scale = 1
  · exact ⟨by rw [ho, hi.1 ho], heq ho⟩
  · exact decimal_append_inj (delimited_displacementText v) (delimited_displacementText v') (hne ho)

theorem index_eq_of_text
    (h : indexText v ++ (scaleText v ++ displacementText v) = indexText v' ++ (scaleText v' ++ displacementText v')) :
    convertToPhysical v.indexRegister = convertToPhysical v'.indexRegister ∧
      scaleText v ++ displacementText v = scaleText v' ++ displacementText v' := by
  have hh (v : IndirectControlFlowInstruction) : (scaleText v ++ displacementText v).head? ≠ some '_' := by
    intro hc
    exact absurd (head?_scaleText hc) (by decide)
  obtain ⟨hi, heq, hne⟩ := optional_append_inj (hh v) (hh v') h
  by_cases hn : convertToPhysical v.indexRegister = -1
  · exact ⟨by rw [hn, hi.1 hn], heq hn⟩
  · exact signedDecimal_append_inj (delimited_scaleText v) (delimited_scaleText v') (cons.inj (hne hn)).2

theorem operandText_eq {k'} (h : constructName k v = constructName k' v') : operandText v = operandText v' := by
  have hj : kindText .jump = ['j', 'm', 'p', '_'] := rfl
  have hc : kindText .call = ['c', 'a', 'l', 'l', '_'] := rfl
  replace h := append_cancel_left h
  cases k <;> cases k'
  · exact append_cancel_left h
  · simp [hj, hc] at h
  · simp [hj, hc] at h
  · exact append_cancel_left h

/-- Operands with the same name are loaded by the same bytes. -/
theorem movEA_eq_of_operandText_eq (h : operandText v = operandText v') : movEA v = movEA v' := by
  unfold operandText at h
  cases hm : v.hasMemoryOperand with
  | false =>
    cases hm' : v'.hasMemoryOperand with
    | false =>
      rw [hm, hm'] at h
      have hg := (signedDecimal_append_inj delimited_nil delimited_nil
        (congrArg (· ++ []) (cons.inj h).2)).1
      simp [movEA, hm, hm', hg]
    | true => simp [hm, hm'] at h
  | true =>
    cases hm' : v'.hasMemoryOperand with
    | false => simp [hm, hm'] at h
    | true =>
      rw [hm, hm'] at h
      obtain ⟨hg, hr⟩ := signedDecimal_append_inj (delimited_indexText v) (delimited_indexText v')
        (cons.inj (cons.inj h).2).2
      obtain ⟨hi, hr⟩ := index_eq_of_text hr
      obtain ⟨hs, hr⟩ := scale_eq_of_text hr
      simp [movEA, hm, hm', hg, hi, hs, displacement_eq_of_text hr]

/-- The trampoline that a branch is sent to, built or found. -/
def trampolineOf (k : Kind) (v : IndirectControlFlowInstruction) : Trampoline where
  name := constructName k v
  blocks :=
    [[.call 2], [.bytes [0xf3, 0x90], .jmp 1],
      [.bytes (movEA v), .bytes [0x4c, 0x89, 0x1c, 0x24], .bytes [0xc3]]]

theorem buildTrampoline_eq (k) (h : v.register ≠ .rip) : buildTrampoline k v = .ok (trampolineOf k v) := by
  rw [buildTrampoline, makeMovInstruction, if_neg h]
  rfl

theorem trampolineOf_eq {k'} (h : constructName k v = constructName k' v') : trampolineOf k v = trampolineOf k' v' := by
  rw [trampolineOf, trampolineOf, h, movEA_eq_of_operandText_eq (operandText_eq h)]

/-- Whatever branch a trampoline of the list is found for, it is the branch's own. -/
def Named (list : RetpolineList) : Prop :=
  ∀ k v t, list.lookup (constructName k v) = some t → t = trampolineOf k v

theorem named_nil : Named [] := by
  intro k v t h
  cases h

theorem Named.cons {list} (h : Named list) (k) (v) : Named ((constructName k v, trampolineOf k v) :: list) := by
  intro k' v' t ht
  rw [lookup_cons] at ht
  split at ht
  · rename_i heq
    rw [← Option.some.inj ht, trampolineOf_eq (eq_of_beq heq)]
  · exact h k' v' t ht

theorem makeOutlinedTrampoline_spec {list} (hl : Named list) (k) (h : v.register ≠ .rip) :
    ∃ list', makeOutlinedTrampoline list k v = .ok (trampolineOf k v, list') ∧ Named list' := by
  rw [makeOutlinedTrampoline]
  cases hf : list.lookup (constructName k v) with
  | some t => exact ⟨list, by rw [hl k v t hf], hl⟩
  | none => exact ⟨_, by rw [buildTrampoline_eq k h]; rfl, hl.cons k v⟩

theorem visit_eq : ∀ {list} branches, Named list → (∀ b ∈ branches, b.2.register ≠ .rip) →
    visit list branches = .ok (branches.map fun b => trampolineOf b.1 b.2)
  | _, [], _, _ => rfl
  | list, (k, v) :: rest, hl, h => by
    obtain ⟨list', hm, hl'⟩ := makeOutlinedTrampoline_spec hl k (h (k, v) mem_cons_self)
    have ih := visit_eq rest hl' fun b hb => h b (mem_cons_of_mem _ hb)
    rw [visit, hm]
    simp only [ih]
    rfl

/-! ## Where a trampoline branches to -/

theorem decodeOne_storeTarget :
    decodeOne [0x4c#8, 0x89#8, 0x1c#8, 0x24#8] = some (.mov (.mem ⟨some rsp, none, 0⟩) (.reg r11)) := by
  decide +kernel

theorem decodeOne_ret : decodeOne [0xc3#8] = some .ret := by
  decide +kernel

/-- The state in which the trampoline loads its operand. -/
def atLoad (k : Kind) (returnAddress captureSpec : Word) (s : Machine) : Machine :=
  (enter k returnAddress s).push captureSpec

theorem runFrom_trampolineOf {op} (k) (h : decodeOne (movEA v) = some (.mov (.reg r11) op))
    (blockAddress) (s) : runFrom (trampolineOf k v) blockAddress 4 0 0 s = some ((s.push (blockAddress 1)).run
        [.mov (.reg r11) op, .mov (.mem ⟨some rsp, none, 0⟩) (.reg r11), .ret]) := by
  simp [runFrom, trampolineOf, h, decodeOne_storeTarget, decodeOne_ret, Machine.run]

theorem run_load_store_ret (s) (op : Operand) :
    let s' := s.run [.mov (.reg r11) op, .mov (.mem ⟨some rsp, none, 0⟩) (.reg r11), .ret]
    s'.rip = op.value s ∧ s'.regs rsp = s.regs rsp + 8 ∧ ∀ r ≠ r11, r ≠ rsp → s'.regs r = s.regs r := by
  have hp : rsp ≠ r11 := by decide
  have ha (regs : Reg → Word) : (Mem.mk (some rsp) none 0).address regs = regs rsp := by simp [Mem.address]
  simp only [Machine.run, foldl_cons, foldl_nil, Machine.exec, Machine.assign, Operand.value, ha,
    Machine.top, Machine.setReg_same]
  refine ⟨?_, ?_, ?_⟩
  · simp
  · simp [Machine.drop, hp]
  · intro r hr hr'
    simp [Machine.drop, hr, hr']

/-- The slots that the way into the trampoline overwrites. -/
def pushedSlots (k : Kind) (s : Machine) : List Word :=
  match k with
  | .jump => [s.regs rsp - 8]
  | .call => [s.regs rsp - 8, s.regs rsp - 16]

/-- The operand does not depend on what the pushes change: neither on rsp nor on the words that they
    write. -/
def BranchOperand.SparesStack (o : BranchOperand) (k : Kind) (s : Machine) : Prop :=
  match o.operand with
  | .reg r => r ≠ rsp
  | .mem m => m.base ≠ some rsp ∧ ∀ a ∈ pushedSlots k s, Apart a (m.address s.regs)

theorem atLoad_regs (k) (returnAddress captureSpec) (s) {r} (h : r ≠ rsp) :
    (atLoad k returnAddress captureSpec s).regs r = s.regs r := by
  cases k <;> simp [atLoad, enter, h]

theorem readWord_atLoad {a} (h : ∀ b ∈ pushedSlots k s, Apart b a) (returnAddress captureSpec) :
    readWord (atLoad k returnAddress captureSpec s).mem a = readWord s.mem a := by
  cases k with
  | jump => exact readWord_writeWord_apart (h _ (by simp [pushedSlots, enter]))
  | call =>
    have hs : s.regs rsp - 8 - 8 = s.regs rsp - 16 := by bv_omega
    rw [atLoad, enter, Machine.push_mem, Machine.push_rsp, hs, readWord_writeWord_apart (h _ (by simp [pushedSlots]))]
    exact readWord_writeWord_apart (h _ (by simp [pushedSlots]))

theorem value_atLoad (h : o.SparesStack k s) (returnAddress captureSpec) :
    o.operand.value (atLoad k returnAddress captureSpec s) = o.operand.value s := by
  cases o with
  | register r => exact atLoad_regs k returnAddress captureSpec s h
  | memory m =>
    have hv : (Mem.mk m.base m.index (m.disp.signExtend 64)).Avoids rsp := ⟨h.1, m.index_ne_rsp⟩
    have ha := Mem.address_congr hv fun r hr => atLoad_regs k returnAddress captureSpec s hr
    simp only [BranchOperand.operand, Operand.value, ha]
    exact readWord_atLoad h.2 returnAddress captureSpec

/-! ### Operands that depend on the stack -/

/-- The word whose bytes are all 1. -/
def ones : Word := 0x0101010101010101

/-- Zero in the word at the address, and 1 in all other bytes. -/
def zeroAt (a b : Word) : Byte := if (b - a).toNat < 8 then 0 else 1

theorem readWord_zeroAt (a) : readWord (zeroAt a) a = 0 := by
  refine readWord_eq_zero.2 fun i hi => if_pos ?_
  rwa [toNat_add_sub_self a hi]

theorem writeWord_ones (mem) (a b : Word) : writeWord mem a ones b = if (b - a).toNat < 8 then 1 else mem b := by
  have ho : ∀ i < 8, (littleEndian 8 ones.toNat).getD i 0 = 1 := by decide
  unfold writeWord
  split
  · next h => exact ho _ h
  · rfl

theorem atLoad_ones {b} (h : (∃ a ∈ pushedSlots k s, (b - a).toNat < 8) ∨ s.mem b = 1) :
    (atLoad k ones ones s).mem b = 1 := by
  have hs : s.regs rsp - 8 - 8 = s.regs rsp - 16 := by bv_omega
  cases k <;> simp only [atLoad, enter, Machine.push_mem, Machine.push_rsp, writeWord_ones, pushedSlots, hs] at h ⊢ <;>
    grind

/-- The stack pointer goes down by the size of the slots, and an operand that is based on it goes with it. -/
theorem address_atLoad_rsp {m : MemoryOperand} (hb : m.base = some rsp) (returnAddress captureSpec) :
    8 ≤ ((Mem.mk m.base m.index (m.disp.signExtend 64)).address (atLoad k returnAddress captureSpec s).regs -
      (Mem.mk m.base m.index (m.disp.signExtend 64)).address s.regs).toNat := by
  have hi : (m.index.elim 0 fun i => (atLoad k returnAddress captureSpec s).regs i.1 <<< i.2.val) =
      m.index.elim 0 fun i => s.regs i.1 <<< i.2.val := by
    cases hm : m.index with
    | none => rfl
    | some i => simp only [Option.elim_some, atLoad_regs k _ _ s (m.index_ne_rsp i hm)]
  have hr : (atLoad k returnAddress captureSpec s).regs rsp = s.regs rsp - 8 ∨
      (atLoad k returnAddress captureSpec s).regs rsp = s.regs rsp - 8 - 8 := by
    cases k <;> simp [atLoad, enter]
  have hd : ∀ r' r x d : Word, r' + x + d - (r + x + d) = r' - r := by
    intro r' r x d
    rw [add_sub_add_right_eq_sub, add_sub_add_right_eq_sub]
  rw [Mem.address, Mem.address, hi]
  rw [hb, Option.elim_some, Option.elim_some, hd]
  rcases hr with hr | hr <;> rw [hr] <;> bv_omega

/-- One byte of the loaded word is 1, because it was pushed or because it is not a byte of the operand. -/
theorem exists_one_atLoad {m : MemoryOperand} (hs : ¬(BranchOperand.memory m).SparesStack k s)
    (hm : s.mem = zeroAt ((Mem.mk m.base m.index (m.disp.signExtend 64)).address s.regs)) :
    ∃ i < 8, (atLoad k ones ones s).mem ((Mem.mk m.base m.index (m.disp.signExtend 64)).address
      (atLoad k ones ones s).regs + BitVec.ofNat 64 i) = 1 := by
  by_cases hb : m.base = some rsp
  · have ha := address_atLoad_rsp (k := k) (s := s) hb ones ones
    refine ⟨0, by omega, atLoad_ones (.inr ?_)⟩
    rw [hm, show BitVec.ofNat 64 0 = 0#64 from rfl, BitVec.add_zero]
    exact if_neg (Nat.not_lt.2 ha)
  · rw [Mem.address_congr (r := rsp) ⟨hb, m.index_ne_rsp⟩ fun r hr => atLoad_regs k ones ones s hr]
    have hs' : ∃ a ∈ pushedSlots k s, ¬Apart a ((Mem.mk m.base m.index (m.disp.signExtend 64)).address s.regs) := by
      by_contra hn
      push Not at hn
      exact hs ⟨hb, hn⟩
    obtain ⟨a, ha, hap⟩ := hs'
    generalize (Mem.mk m.base m.index (m.disp.signExtend 64)).address s.regs = b at hap
    by_cases h : (b - a).toNat < 8
    · exact ⟨0, by omega, atLoad_ones (.inl ⟨a, ha, by simpa using h⟩)⟩
    · have h' : (a - b).toNat < 8 := by
        by_contra hn
        exact hap ⟨by omega, by omega⟩
      refine ⟨(a - b).toNat, h', atLoad_ones (.inl ⟨a, ha, ?_⟩)⟩
      rw [BitVec.ofNat_toNat, BitVec.setWidth_eq, BitVec.add_comm, BitVec.sub_add_cancel, BitVec.sub_self]
      decide

theorem exists_value_atLoad_ne (hs : ¬o.SparesStack k s) : ∃ mem,
    o.operand.value (atLoad k ones ones { s with mem := mem }) ≠ o.operand.value { s with mem := mem } := by
  cases o with
  | register r =>
    have hr : r = rsp := of_not_not hs
    refine ⟨s.mem, ?_⟩
    subst hr
    cases k <;> simp only [BranchOperand.operand, Operand.value, atLoad, enter, Machine.push_rsp] <;> bv_omega
  | memory m =>
    refine ⟨zeroAt ((Mem.mk m.base m.index (m.disp.signExtend 64)).address s.regs), fun heq => ?_⟩
    have hz : (BranchOperand.memory m).operand.value
        { s with mem := zeroAt ((Mem.mk m.base m.index (m.disp.signExtend 64)).address s.regs) } = 0 := readWord_zeroAt _
    obtain ⟨i, hi, h1⟩ := exists_one_atLoad (k := k)
      (s := { s with mem := zeroAt ((Mem.mk m.base m.index (m.disp.signExtend 64)).address s.regs) }) hs rfl
    have h0 := readWord_eq_zero.1 (heq.trans hz) i hi
    exact absurd (h1.symm.trans h0) (by decide)

theorem register_ne_rip (o : BranchOperand) : o.instruction.register ≠ .rip := by
  cases o with
  | register r => simp [BranchOperand.instruction]
  | memory m => cases hb : m.base <;> simp [BranchOperand.instruction, hb]

/-- The trampoline does what the instruction that it stands for does, apart from the use of r11. -/
def BranchesAs (t : Trampoline) (k : Kind) (o : BranchOperand) (returnAddress : Word) (blockAddress : Nat → Word)
    (s : Machine) : Prop :=
  ∃ s', runFrom t blockAddress 4 0 0 (enter k returnAddress s) = some s' ∧
    s'.rip = (branch k o.operand returnAddress s).rip ∧
    ∀ r ≠ r11, s'.regs r = (branch k o.operand returnAddress s).regs r

theorem branchesAs_iff (he : o.Encodable) (returnAddress) (blockAddress : Nat → Word) :
    BranchesAs (trampolineOf k o.instruction) k o returnAddress blockAddress s ↔
      o.operand.value (atLoad k returnAddress (blockAddress 1) s) = o.operand.value s := by
  have hrun := runFrom_trampolineOf k ((decodeOne_movEA o).2 he) blockAddress (enter k returnAddress s)
  obtain ⟨hp, hrsp, hrs⟩ := run_load_store_ret (atLoad k returnAddress (blockAddress 1) s) o.operand
  constructor
  · rintro ⟨s', hs', hrip, -⟩
    cases hrun.symm.trans hs'
    exact hp.symm.trans hrip
  · intro hv
    refine ⟨_, hrun, hp.trans hv, fun r hr => ?_⟩
    rw [show (enter k returnAddress s).push (blockAddress 1) = atLoad k returnAddress (blockAddress 1) s from rfl]
    by_cases hr' : r = rsp
    · subst hr'
      rw [hrsp]
      simp [atLoad, branch]
    · rw [hrs r hr hr']
      simp [atLoad, branch, hr']

theorem trampolineOf_branches_iff (he : o.Encodable) : o.SparesStack k s ↔
    ∀ mem returnAddress blockAddress,
      BranchesAs (trampolineOf k o.instruction) k o returnAddress blockAddress { s with mem := mem } := by
  constructor
  · intro hs mem returnAddress blockAddress
    exact (branchesAs_iff he _ _).2 (value_atLoad (s := { s with mem := mem }) hs _ _)
  · intro h
    by_contra hs
    obtain ⟨mem, hne⟩ := exists_value_atLoad_ne hs
    exact hne ((branchesAs_iff he ones fun _ => ones).1 (h mem ones fun _ => ones))

/-- The bytes are one instruction, the 64-bit move of the operand into r11. -/
def LoadsOperand (code : Except Failure (List Byte)) (o : BranchOperand) : Prop :=
  ∃ b, code = .ok b ∧ decodeOne b = some (.mov (.reg r11) o.operand)

theorem loadsOperand_ok {b} : LoadsOperand (.ok b) o ↔ decodeOne b = some (.mov (.reg r11) o.operand) := by
  simp [LoadsOperand]

/-- The three passes load the right operand exactly for the encodable operands. The trampolines of a module, shared by
    name, then branch as the replaced instructions did, whatever the memory and the return addresses are, for exactly
    the registers with which the operand does not depend on the pushed return addresses. -/
theorem retpolines_branch (branches : List (Kind × BranchOperand)) :
    (∀ o : BranchOperand,
      (LoadsOperand ((makeMovInstruction o.instruction).map (·.headD [])) o ↔ o.Encodable) ∧
      (LoadsOperand (makeMovR11Instruction o.instruction) o ↔ o.Encodable) ∧
      (LoadsOperand (rewriteIndirectCallMov o.instruction) o ↔ o.Encodable)) ∧
    ∃ trampolines, visit [] (branches.map fun b => (b.1, b.2.instruction)) = .ok trampolines ∧
      trampolines.length = branches.length ∧
      ∀ (i : Nat) k o t, branches[i]? = some (k, o) → trampolines[i]? = some t → o.Encodable →
        ∀ s, o.SparesStack k s ↔ ∀ mem returnAddress blockAddress,
          BranchesAs t k o returnAddress blockAddress { s with mem := mem } := by
  constructor
  · intro o
    have hiff := loadsOperand_ok.trans (decodeOne_movEA o)
    have hne := register_ne_rip o
    rw [makeMovInstruction, makeMovR11Instruction, rewriteIndirectCallMov, if_neg hne, if_neg hne]
    exact ⟨hiff, hiff, hiff⟩
  · refine ⟨_, visit_eq _ named_nil ?_, by simp, ?_⟩
    · intro b hb
      obtain ⟨b', -, rfl⟩ := mem_map.mp hb
      exact register_ne_rip b'.2
    · intro i k o t hi ht he s
      have ht' : t = trampolineOf k o.instruction := by
        rw [getElem?_map, getElem?_map, hi] at ht
        exact (Option.some.inj ht).symm
      rw [ht']
      exact trampolineOf_branches_iff he

/-- `16(%rax, %r9, 2)` -/
def plainOperand : BranchOperand := .memory ⟨some 0, some (9, 1), 16, by decide⟩

/-- All registers but rsp hold 0x1000. -/
def plainState : Machine := ⟨fun r => if r = rsp then 0x8000 else 0x1000, 0, fun _ => 5, 0⟩

theorem retpolines_branch_two :
    ∃ trampolines, visit [] [(.jump, plainOperand.instruction), (.call, (BranchOperand.register 0).instruction)] =
        .ok trampolines ∧
      ∀ t, trampolines[0]? = some t → ∀ returnAddress blockAddress,
        ∃ s', runFrom t blockAddress 4 0 0 (enter .jump returnAddress plainState) = some s' ∧
          s'.rip = 0x0505050505050505 := by
  obtain ⟨ts, hvis, -, hts⟩ := (retpolines_branch [(.jump, plainOperand), (.call, .register 0)]).2
  refine ⟨ts, hvis, ?_⟩
  intro t ht returnAddress blockAddress
  have he : plainOperand.Encodable := ⟨rfl, by decide⟩
  have hs : plainOperand.SparesStack .jump plainState := ⟨by decide, forall_mem_singleton.mpr (by decide +kernel)⟩
  have hvl : plainOperand.operand.value plainState = 0x0505050505050505 := by decide +kernel
  obtain ⟨s', hrun, hrip, -⟩ := (hts 0 .jump plainOperand t rfl ht he plainState).1 hs plainState.mem returnAddress
    blockAddress
  exact ⟨s', hrun, hrip.trans hvl⟩

/-- `(%rax, %r8, 1)`, which becomes a load with scale 2. -/
def scaledOperand : BranchOperand := .memory ⟨some 0, some (r8, 0), 0, by decide⟩

/-- rax and r8 hold 16; the word at 32 is 7, and the word at 48, which the trampoline reads, is 0. -/
def scaledState : Machine := ⟨fun r => if r = rsp then 0x8000 else 0x10, 0, fun a => if a = 0x20 then 7 else 0, 0⟩

/-- `8(%rsp)`, which the trampoline reads two words further down. -/
def stackOperand : BranchOperand := .memory ⟨some rsp, none, 8, by decide⟩

def stackState : Machine := ⟨fun r => if r = rsp then 0x8000 else 0, 0, fun a => if a = 0x8008 then 7 else 0, 0⟩

/-- `jmp *(%rax, %r8, 1)` goes elsewhere, and `call *8(%rsp)` goes to its own return address. -/
theorem retpoline_wrong_target :
    decodeOne (movEA scaledOperand.instruction) = some (.mov (.reg r11) (.mem ⟨some 0, some (r8, 1), 0⟩)) ∧
    (branch .jump scaledOperand.operand 0 scaledState).rip = 7 ∧
    (runFrom (trampolineOf .jump scaledOperand.instruction) (fun _ => 0) 4 0 0
      (enter .jump 0 scaledState)).map Machine.rip = some 0 ∧
    (branch .call stackOperand.operand 0x400 stackState).rip = 7 ∧
    (runFrom (trampolineOf .call stackOperand.instruction) (fun _ => 0x500) 4 0 0
      (enter .call 0x400 stackState)).map Machine.rip = some 0x400 := by
  decide +kernel

end Egalito.Retpoline
