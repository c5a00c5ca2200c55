/-
ChunkAddInline: code inserted between pushes that save the registers it clobbers and pops that restore them.

The bytes run on the machine of `Lib.X86`, around any code that leaves the saved words alone (`Lib.SaveArea`).
`transparent_iff` says when registers, flags and stack are restored.
-/
import Egalito.Analysis.ReachingDef
import Egalito.Lib.SaveArea
import Mathlib.Data.List.FinRange
import Mathlib.Data.List.Perm.Subperm

namespace Egalito.AddInline

open List

open Lib Lib.X86
open Machine Bool

/-- A function as the scan sees it: the assembly of each instruction of each block. -/
abbrev Function := List (List (Option Analysis.Assembly))

local instance neZero16 : NeZero 16 := ⟨by decide⟩

/-- A `push`, or `sub $imm, %rsp`. -/
def setsUpFrame : Option Analysis.Assembly → Bool
  | none => false
  | some a =>
    a.id = .push ||
      (a.id = .sub &&
        match a.operands with
        | [.imm, .reg r] => r = .gp 4 .qword
        | _ => false)

/-- Some instruction sets up a frame. -/
def hasStackFrame (function : Function) : Bool := function.any fun block => block.any setsUpFrame

/-! ## Saving and restoring -/

/-- A register as the disassembler names it; `other` is every register that the tables below do not
    have. -/
inductive Register where
  | eflags
  | r64 (r : Reg)
  | other (id : Nat)
deriving DecidableEq

/-- The `push` of each general purpose register, by the number of the register. -/
def pushTable : List (List Byte) :=
  [[0x50], [0x51], [0x52], [0x53], [0x54], [0x55], [0x56], [0x57],
    [0x41, 0x50], [0x41, 0x51], [0x41, 0x52], [0x41, 0x53], [0x41, 0x54], [0x41, 0x55], [0x41, 0x56], [0x41, 0x57]]

def popTable : List (List Byte) :=
  [[0x58], [0x59], [0x5a], [0x5b], [0x5c], [0x5d], [0x5e], [0x5f],
    [0x41, 0x58], [0x41, 0x59], [0x41, 0x5a], [0x41, 0x5b], [0x41, 0x5c], [0x41, 0x5d], [0x41, 0x5e], [0x41, 0x5f]]

/-- The switch of getRegSaveCode; its default leaves the bytes empty. -/
def pushBytes : Register → List Byte
  | .eflags => [0x9c]
  | .r64 r => pushTable.getD r.val []
  | .other _ => []

def popBytes : Register → List Byte
  | .eflags => [0x9d]
  | .r64 r => popTable.getD r.val []
  | .other _ => []

/-- Made from bytes here, or by the generator, with any effect on the machine. -/
inductive Ins where
  | disassembled (bytes : List Byte)
  | generated (effect : Machine → Machine)

def getRegSaveCode (redzone : Bool) (regList : List Register) : List Ins :=
  -- lea -0x80(%rsp), %rsp
  (if redzone && regList.length > 0 then [.disassembled [0x48, 0x8d, 0x64, 0x24, 0x80]] else []) ++
    regList.map fun reg => .disassembled (pushBytes reg)

def getRegRestoreCode (redzone : Bool) (regList : List Register) : List Ins :=
  (regList.reverse.map fun reg => .disassembled (popBytes reg)) ++
    -- lea 0x80(%rsp), %rsp
    if redzone && regList.length > 0 then [.disassembled [0x48, 0x8d, 0xa4, 0x24, 0x80, 0x00, 0x00, 0x00]] else []

structure Modification where
  regList : List Register
  getNewCode : Nat → List Ins

def stackBytesAdded (redzone : Bool) (regList : List Register) : Nat :=
  regList.length * 8 + if redzone then 0x80 else 0

def getFullCode (function : Function) (modification : Modification) : List Ins :=
  let redzone := !hasStackFrame function
  let regList := modification.regList
  getRegSaveCode redzone regList ++ modification.getNewCode (stackBytesAdded redzone regList) ++
    getRegRestoreCode redzone regList

def step (s : Machine) : Ins → Option Machine
  | .disassembled bytes => (decodeOne bytes).map s.exec
  | .generated effect => some (effect s)

def run (s : Machine) : List Ins → Option Machine
  | [] => some s
  | i :: code => (step s i).bind fun s' => run s' code

theorem run_append : ∀ s code code', run s (code ++ code') = (run s code).bind fun s' => run s' code'
  | _, [], _ => rfl
  | s, i :: code, code' => by
    rw [cons_append, run, run, Option.bind_assoc]
    congr 1
    funext s'
    exact run_append s' code code'

/-- The addresses outside the words that are saved under the red zone. -/
def OutsideSaved (n : Nat) (rsp a : Word) : Prop := ¬Within (rsp - 0x80 - BitVec.ofNat 64 (8 * n)) (8 * n) a

/-- The generated code keeps the stack pointer, the saved words, and every register and the flags unless they are
    listed. -/
structure ChangesOnly (regList : List Register) (s s' : Machine) : Prop where
  rsp_eq : s'.regs rsp = s.regs rsp
  saved_eq : ∀ a, Within (s.regs rsp) (8 * regList.length) a → s'.mem a = s.mem a
  regs_eq : ∀ r, .r64 r ∉ regList → s'.regs r = s.regs r
  flags_eq : .eflags ∉ regList → s'.flags = s.flags

/-- The generated code runs at the announced distance from the stack pointer and sees the memory of `s`; and when it is
    done, the registers and flags are those of `s` and the memory is what it left. -/
def Transparent (function : Function) (modification : Modification) (s : Machine) : Prop :=
  let redzone := !hasStackFrame function
  let regList := modification.regList
  let added := stackBytesAdded redzone regList
  ∃ s₁, run s (getRegSaveCode redzone regList) = some s₁ ∧
    s₁.regs rsp + BitVec.ofNat 64 added = s.regs rsp ∧
    (∀ a, OutsideSaved regList.length (s.regs rsp) a → s₁.mem a = s.mem a) ∧
    ∀ s₂, run s₁ (modification.getNewCode added) = some s₂ → ChangesOnly regList s₁ s₂ →
      ∃ s₃, run s (getFullCode function modification) = some s₃ ∧
        s₃.regs = s.regs ∧ s₃.flags = s.flags ∧ s₃.mem = s₂.mem

/-! ## The pushes and pops -/

def ofSaved : Saved → Register
  | .reg r => .r64 r
  | .flags => .eflags

theorem ofSaved_injective : Function.Injective ofSaved := by
  rintro (r | _) (r' | _) h <;> cases h <;> rfl

theorem decodeOne_pushBytes (x) : decodeOne (pushBytes (ofSaved x)) = some x.pushInstr := by
  cases x with
  | flags => decide +kernel
  | reg r =>
    revert r
    decide +kernel

theorem decodeOne_popBytes (x) : decodeOne (popBytes (ofSaved x)) = some x.popInstr := by
  cases x with
  | flags => decide +kernel
  | reg r =>
    revert r
    decide +kernel

theorem run_disassembled {α : Type} {bytes : α → List Byte} {instr : α → Instr}
    (h : ∀ x, decodeOne (bytes x) = some (instr x)) : ∀ s (l : List α),
    run s (l.map fun x => .disassembled (bytes x)) = some (s.run (l.map instr))
  | _, [] => rfl
  | s, x :: l => by
    rw [map_cons, map_cons, run, step, h]
    exact run_disassembled h (s.exec (instr x)) l

theorem run_pushes (s : Machine) (l : List Saved) :
    run s ((l.map ofSaved).map fun reg => .disassembled (pushBytes reg)) = some (s.pushAll l) := by
  rw [map_map]
  exact run_disassembled decodeOne_pushBytes s l

theorem run_pops (s : Machine) (l : List Saved) :
    run s ((l.map ofSaved).reverse.map fun reg => .disassembled (popBytes reg)) = some (s.popAll l) := by
  rw [← map_reverse, map_map]
  exact run_disassembled decodeOne_popBytes s l.reverse

/-- `lea disp(%rsp), %rsp` -/
def moveStack (disp : Word) (s : Machine) : Machine := s.setReg rsp (s.regs rsp + disp)

theorem step_leaDown (s) : step s (.disassembled [0x48, 0x8d, 0x64, 0x24, 0x80]) = some (moveStack (-0x80) s) := by
  have h : decodeOne [0x48, 0x8d, 0x64, 0x24, 0x80] = some (.lea rsp ⟨some rsp, none, -0x80⟩) := by decide +kernel
  rw [step, h]
  simp [exec, Mem.address, moveStack]

theorem step_leaUp (s) :
    step s (.disassembled [0x48, 0x8d, 0xa4, 0x24, 0x80, 0x00, 0x00, 0x00]) = some (moveStack 0x80 s) := by
  have h : decodeOne [0x48, 0x8d, 0xa4, 0x24, 0x80, 0x00, 0x00, 0x00] = some (.lea rsp ⟨some rsp, none, 0x80⟩) := by
    decide +kernel
  rw [step, h]
  simp [exec, Mem.address, moveStack]

theorem moveStack_rsp (d) (s) : (moveStack d s).regs rsp = s.regs rsp + d :=
  setReg_same s rsp _

theorem get_moveStack {x : Saved} (h : x ≠ .reg rsp) (d : Word) (s : Machine) : x.get (moveStack d s) = x.get s := by
  cases x with
  | flags => rfl
  | reg r => exact setReg_of_ne s _ fun hr => h (by rw [hr])

/-! ## The whole sequence -/

variable {l : List Saved} {function : Function}

theorem run_save_redzone (s) (h : l ≠ []) :
    run s (getRegSaveCode true (l.map ofSaved)) = some ((moveStack (-0x80) s).pushAll l) := by
  have hl := length_pos_iff.2 h
  simp only [getRegSaveCode, length_map, Bool.true_and, decide_eq_true_eq, gt_iff_lt, hl, if_true,
    singleton_append, run, step_leaDown, Option.bind_some]
  exact run_pushes _ l

theorem run_save_frame (s l) : run s (getRegSaveCode false (l.map ofSaved)) = some (s.pushAll l) := by
  simp only [getRegSaveCode, Bool.false_and, Bool.false_eq_true, if_false, nil_append]
  exact run_pushes s l

theorem run_restore_redzone (s) (h : l ≠ []) :
    run s (getRegRestoreCode true (l.map ofSaved)) = some (moveStack 0x80 (s.popAll l)) := by
  have hl := length_pos_iff.2 h
  simp only [getRegRestoreCode, length_map, Bool.true_and, decide_eq_true_eq, gt_iff_lt, hl, if_true,
    run_append, run_pops, Option.bind_some, run, step_leaUp]

theorem ChangesOnly.keepsSaved {s s'} (h : ChangesOnly (l.map ofSaved) s s') : Machine.KeepsSaved l s s' :=
  ⟨h.rsp_eq, fun a ha => h.saved_eq a (by rwa [length_map])⟩

/-- The listed registers get their values back from the stack, and the others were kept. -/
theorem get_restored (hl : 8 * l.length < 2 ^ 64) {s s'} (h : ChangesOnly (l.map ofSaved) (s.pushAll l) s')
    {x : Saved} (hx : x ≠ .reg rsp) : x.get (s'.popAll l) = x.get s := by
  by_cases hmm : x ∈ l
  · exact get_popAll hl hmm h.keepsSaved
  · have hn : ofSaved x ∉ l.map ofSaved := fun hm => hmm ((mem_map_of_injective ofSaved_injective).1 hm)
    rw [get_popAll_of_notMem hx s' l hmm, ← get_pushAll hx s l]
    cases x with
    | flags => exact h.flags_eq hn
    | reg r => exact h.regs_eq r hn

theorem transparent_of_redzone (hf : hasStackFrame function = false) (hne : l ≠ []) (hl : 8 * l.length < 2 ^ 64)
    (getNewCode : Nat → List Ins) (s : Machine) : Transparent function ⟨l.map ofSaved, getNewCode⟩ s := by
  rw [Transparent]
  simp only [hf, Bool.not_false, length_map, stackBytesAdded, if_true]
  refine ⟨_, run_save_redzone s hne, ?_, ?_, ?_⟩
  · rw [Machine.pushAll_rsp, moveStack_rsp]
    bv_omega
  · intro a ha
    rw [OutsideSaved] at ha
    have har : s.regs rsp - 0x80 - BitVec.ofNat 64 (8 * l.length) =
        ((moveStack (-0x80) s).pushAll l).regs rsp := by
      rw [pushAll_rsp, moveStack_rsp]
      bv_omega
    rw [har] at ha
    rw [pushAll_mem _ l hl a ha]
    rfl
  · intro s2 hn hc
    refine ⟨moveStack 0x80 (s2.popAll l), ?_, ?_, ?_, ?_⟩
    · simp only [getFullCode, hf, Bool.not_false, run_append, run_save_redzone s hne, Option.bind_some,
        length_map, stackBytesAdded, if_true, hn, run_restore_redzone s2 hne]
    · funext r
      by_cases hr : r = rsp
      · subst hr
        rw [moveStack_rsp, popAll_balanced hl hc.keepsSaved, moveStack_rsp]
        bv_omega
      · have hx : Saved.reg r ≠ .reg rsp := fun h => hr (Saved.reg.inj h)
        exact (get_moveStack hx _ _).trans ((get_restored hl hc hx).trans (get_moveStack hx _ _))
    · have hx : Saved.flags ≠ .reg rsp := by simp
      exact (get_moveStack hx _ _).trans ((get_restored hl hc hx).trans (get_moveStack hx _ _))
    · exact popAll_mem s2 l

theorem transparent_of_frame_nil (hf : hasStackFrame function = true) (getNewCode) (s) :
    Transparent function ⟨[], getNewCode⟩ s := by
  rw [Transparent]
  simp only [hf, Bool.not_true]
  refine ⟨s, rfl, by simp [stackBytesAdded], fun _ _ => rfl, ?_⟩
  intro s2 hr hc
  refine ⟨s2, ?_, ?_, ?_, rfl⟩
  · simp only [getFullCode, hf, Bool.not_true, run_append]
    simp [getRegSaveCode, getRegRestoreCode, run, hr]
  · funext r
    exact hc.regs_eq r not_mem_nil
  · exact hc.flags_eq not_mem_nil

/-- With no frame and an empty list the red zone is counted although the stack pointer stays. -/
theorem not_transparent_of_redzone_nil (hf : hasStackFrame function = false) (getNewCode) (s) :
    ¬Transparent function ⟨[], getNewCode⟩ s := by
  rintro ⟨s1, hr, hp, -⟩
  simp only [hf, Bool.not_false, getRegSaveCode, length_nil, map_nil, stackBytesAdded] at hr hp
  obtain rfl : s = s1 := by simpa [run] using hr
  simp at hp

/-- All registers and the flags hold 0x8001, memory holds 0. -/
def uniformState : Machine := ⟨fun _ => 0x8001, 0x8001, fun _ => 0, 0⟩

/-- With a frame, the first push overwrites the top of the red zone. -/
theorem not_transparent_of_frame (hf : hasStackFrame function = true) (hne : l ≠ []) (hl : 8 * l.length ≤ 136)
    (getNewCode) : ¬Transparent function ⟨l.map ofSaved, getNewCode⟩ uniformState := by
  rintro ⟨s1, hr, -, hm, -⟩
  simp only [hf, Bool.not_true, run_save_frame, Option.some.injEq, length_map] at hr hm
  subst hr
  cases l with
  | nil => exact hne rfl
  | cons x l =>
    have ho : OutsideSaved (x :: l).length 0x8001 (0x8001 - 8) := by
      unfold OutsideSaved Within
      bv_omega
    have hb : ¬Within (((uniformState.push (x.get uniformState)).pushAll l).regs rsp) (8 * l.length)
        (0x8001 - 8) := by
      rw [length_cons] at hl
      rw [pushAll_rsp, push_rsp]
      simp only [uniformState, Within]
      bv_omega
    have hk := hm _ ho
    rw [length_cons] at hl
    rw [pushAll_cons, pushAll_mem _ l (by omega) _ hb] at hk
    have he : x.get uniformState = 0x8001 := by cases x <;> rfl
    rw [push_mem, he] at hk
    exact absurd hk (by decide +kernel)

/-! ## Transparency -/

/-- The registers that the inserted code may clobber. -/
def Clobberable (reg : Register) : Prop := reg = .eflags ∨ ∃ r ≠ rsp, reg = .r64 r

theorem exists_saved : ∀ {regList}, (∀ reg ∈ regList, Clobberable reg) →
    ∃ l : List Saved, regList = l.map ofSaved ∧ .reg rsp ∉ l
  | [], _ => ⟨[], rfl, not_mem_nil⟩
  | reg :: regList, h => by
    obtain ⟨l, rfl, hl⟩ := exists_saved fun r hr => h r (mem_cons_of_mem _ hr)
    obtain rfl | ⟨r, hr, rfl⟩ := h reg mem_cons_self
    · exact ⟨.flags :: l, rfl, by simp [hl]⟩
    · exact ⟨.reg r :: l, rfl, by simp [hl, Ne.symm hr]⟩

theorem length_le_of_nodup (h : l.Nodup) : l.length ≤ 17 := by
  have hs : l ⊆ .flags :: (finRange 16).map .reg := by
    intro x _
    cases x <;> simp
  have hle := (h.subperm hs).length_le
  simpa using hle

/-- Inserted code is transparent, whatever is generated, exactly if the registers are saved below the red
    zone or there is nothing to save and no red zone is counted. -/
theorem transparent_iff (function : Function) (regList : List Register) (hregs : ∀ reg ∈ regList, Clobberable reg)
    (hnodup : regList.Nodup) :
    (∀ getNewCode s, Transparent function ⟨regList, getNewCode⟩ s) ↔
      (hasStackFrame function = true ↔ regList = []) := by
  obtain ⟨l, rfl, -⟩ := exists_saved hregs
  have hlen := length_le_of_nodup (List.Nodup.of_map _ hnodup)
  rw [map_eq_nil_iff]
  cases hf : hasStackFrame function with
  | false =>
    simp only [false_eq_true, false_iff]
    constructor
    · rintro h rfl
      exact not_transparent_of_redzone_nil hf (fun _ => []) uniformState (h _ _)
    · intro hne getNewCode s
      exact transparent_of_redzone hf hne (by omega) getNewCode s
  | true =>
    simp only [true_iff]
    constructor
    · intro h
      by_contra hne
      exact not_transparent_of_frame hf hne (by omega) (fun _ => []) (h _ _)
    · rintro rfl getNewCode s
      exact transparent_of_frame_nil hf getNewCode s

/-- A leaf function without a frame whose inserted code clobbers rax and the flags. -/
theorem transparent_leaf : hasStackFrame [[some ⟨.mov, [.imm, .reg (.gp 0 .qword)]⟩], [none]] = false ∧
    ∀ getNewCode s, Transparent [[some ⟨.mov, [.imm, .reg (.gp 0 .qword)]⟩], [none]] ⟨[.r64 0, .eflags], getNewCode⟩ s :=
  ⟨by decide, (transparent_iff _ _ (by simp [Clobberable, rsp]) (by decide)).mpr (by decide)⟩

/-- With nothing to save, the generated code is told that the stack pointer has moved by 128; and with a `push` in the
    function, `push %rax` overwrites the red zone. -/
theorem addInline_not_transparent :
    (run uniformState (getRegSaveCode (!hasStackFrame [[none]]) [])).map
        (fun s => (s.regs rsp + BitVec.ofNat 64 (stackBytesAdded (!hasStackFrame [[none]]) []), uniformState.regs rsp)) =
      some (0x8081, 0x8001) ∧
    (run uniformState (getFullCode [[some ⟨.push, [.reg (.gp 3 .qword)]⟩]] ⟨[.r64 0], fun _ => []⟩)).map
        (fun s => (s.regs rsp, s.mem (uniformState.regs rsp - 8))) = some (0x8001, 1) ∧
    uniformState.mem (uniformState.regs rsp - 8) = 0 := by
  decide +kernel

end Egalito.AddInline
