/-
Registers and flags saved on the stack around other code, by pushes and by pops in the other order.
-/
import Egalito.Lib.X86

namespace Lib.X86

open List

/-- What can be saved: a general purpose register or the flags. -/
inductive Saved where
  | reg (r : Reg)
  | flags
deriving DecidableEq

namespace Saved

def get (s : Machine) : Saved → Word
  | .reg r => s.regs r
  | .flags => s.flags

def pushInstr : Saved → Instr
  | .reg r => .push r
  | .flags => .pushf

def popInstr : Saved → Instr
  | .reg r => .pop r
  | .flags => .popf

theorem exec_pushInstr (s : Machine) (x : Saved) : s.exec x.pushInstr = s.push (x.get s) := by
  cases x <;> rfl

theorem get_push {s v} {x : Saved} (h : x ≠ .reg rsp) : x.get (s.push v) = x.get s := by
  cases x with
  | flags => rfl
  | reg r => exact Machine.push_of_ne s v fun hr => h (by rw [hr])

theorem exec_popInstr_reg (s : Machine) (r : Reg) : s.exec (popInstr (.reg r)) = s.drop.setReg r s.top := rfl

theorem exec_popInstr_flags_regs (s : Machine) : (s.exec (popInstr .flags)).regs = s.drop.regs := rfl

theorem get_exec_popInstr_self (s : Machine) (x : Saved) : x.get (s.exec x.popInstr) = s.top := by
  cases x with
  | flags => rfl
  | reg r =>
    rw [exec_popInstr_reg, get]
    exact Machine.setReg_same s.drop r s.top

theorem get_exec_popInstr_of_ne {s} {x y : Saved} (hxy : x ≠ y) (hx : x ≠ .reg rsp) :
    x.get (s.exec y.popInstr) = x.get s := by
  cases x with
  | flags =>
    cases y with
    | flags => exact absurd rfl hxy
    | reg r => rfl
  | reg r =>
    have hr : r ≠ rsp := fun h => hx (by rw [h])
    cases y with
    | flags => rw [get, get, exec_popInstr_flags_regs, Machine.drop_of_ne s hr]
    | reg r' =>
      have hr' : r ≠ r' := fun h => hxy (by rw [h])
      rw [exec_popInstr_reg, get, get, Machine.setReg_of_ne s.drop s.top hr', Machine.drop_of_ne s hr]

theorem exec_popInstr_mem (s : Machine) (x : Saved) : (s.exec x.popInstr).mem = s.mem := by
  cases x <;> rfl

theorem exec_popInstr_rsp {s : Machine} {x : Saved} (h : x ≠ .reg rsp) :
    (s.exec x.popInstr).regs rsp = s.regs rsp + 8 := by
  cases x with
  | flags => rw [exec_popInstr_flags_regs, Machine.drop_rsp]
  | reg r =>
    have hr : rsp ≠ r := fun hr => h (by rw [hr])
    rw [exec_popInstr_reg, Machine.setReg_of_ne s.drop s.top hr, Machine.drop_rsp]

end Saved

/-- The `n` bytes from `lo` on. -/
def Within (lo : Word) (n : Nat) (a : Word) : Prop := (a - lo).toNat < n

instance (lo : Word) (n : Nat) (a : Word) : Decidable (Within lo n a) := inferInstanceAs (Decidable (_ < _))

namespace Machine

def pushAll (s : Machine) (l : List Saved) : Machine := s.run (l.map Saved.pushInstr)

/-- The last one that was pushed is popped first. -/
def popAll (s : Machine) (l : List Saved) : Machine := s.run (l.reverse.map Saved.popInstr)

theorem pushAll_cons (s : Machine) (x : Saved) (l : List Saved) :
    s.pushAll (x :: l) = (s.push (x.get s)).pushAll l := by
  rw [pushAll, map_cons, run_cons, Saved.exec_pushInstr, pushAll]

theorem popAll_cons (s : Machine) (x : Saved) (l : List Saved) : s.popAll (x :: l) = (s.popAll l).exec x.popInstr := by
  rw [popAll, reverse_cons, map_append, run_append]
  rfl

theorem pushAll_rsp : ∀ (s : Machine) (l : List Saved),
    (s.pushAll l).regs rsp = s.regs rsp - BitVec.ofNat 64 (8 * l.length)
  | s, [] => by simp [pushAll, run]
  | s, x :: l => by
    rw [pushAll_cons, pushAll_rsp _ l, push_rsp, length_cons]
    bv_omega

theorem get_pushAll {x : Saved} (hx : x ≠ .reg rsp) : ∀ s l, x.get (s.pushAll l) = x.get s
  | _, [] => rfl
  | s, y :: l => by rw [pushAll_cons, get_pushAll hx _ l, Saved.get_push hx]

theorem pushAll_mem : ∀ (s : Machine) (l : List Saved), 8 * l.length < 2 ^ 64 → ∀ a,
    ¬Within ((s.pushAll l).regs rsp) (8 * l.length) a → (s.pushAll l).mem a = s.mem a
  | _, [], _, _, _ => rfl
  | s, x :: l, hl, a, ha => by
    rw [length_cons] at hl ha
    rw [pushAll_rsp, length_cons] at ha
    have ho : ¬Within (((s.push (x.get s)).pushAll l).regs rsp) (8 * l.length) a := by
      rw [pushAll_rsp, push_rsp]
      unfold Within at *
      bv_omega
    have hs : 8 ≤ (a - (s.regs rsp - 8)).toNat := by
      unfold Within at ha
      bv_omega
    rw [pushAll_cons, pushAll_mem _ l (by omega) a ho, push_mem, writeWord_of_ge hs]

/-- Code between the pushes and the pops that keeps the stack pointer and the saved words. -/
structure KeepsSaved (l : List Saved) (s s' : Machine) : Prop where
  rsp_eq : s'.regs rsp = s.regs rsp
  mem_eq : ∀ a, Within (s.regs rsp) (8 * l.length) a → s'.mem a = s.mem a

variable {l : List Saved} {s' : Machine}

theorem KeepsSaved.tail {x s} (h : KeepsSaved (x :: l) s s') : KeepsSaved l s s' where
  rsp_eq := h.rsp_eq
  mem_eq a ha := by
    apply h.mem_eq
    unfold Within at *
    rw [length_cons]
    omega

theorem popAll_mem : ∀ (s : Machine) (l : List Saved), (s.popAll l).mem = s.mem
  | _, [] => rfl
  | s, x :: l => by rw [popAll_cons, Saved.exec_popInstr_mem, popAll_mem s l]

theorem get_popAll_of_notMem {x : Saved} (hx : x ≠ .reg rsp) : ∀ s l, x ∉ l → x.get (s.popAll l) = x.get s
  | _, [], _ => rfl
  | s, y :: l, hl => by
    obtain ⟨hxy, hl⟩ := not_or.1 (mt mem_cons.2 hl)
    rw [popAll_cons, Saved.get_exec_popInstr_of_ne hxy hx, get_popAll_of_notMem hx s l hl]

/-- The word that the first push wrote is on top when the other pops are done. -/
theorem top_popAll {x : Saved} (hl : 8 * (x :: l).length < 2 ^ 64) {s}
    (h : KeepsSaved (x :: l) (s.pushAll (x :: l)) s') (hr : (s'.popAll l).regs rsp = s.regs rsp - 8) :
    (s'.popAll l).top = x.get s := by
  rw [length_cons] at hl
  have hb : ∀ i < 8, s'.mem (s.regs rsp - 8 + BitVec.ofNat 64 i) =
      (s.push (x.get s)).mem (s.regs rsp - 8 + BitVec.ofNat 64 i) := by
    intro i hi
    have hin : Within ((s.pushAll (x :: l)).regs rsp) (8 * (x :: l).length) (s.regs rsp - 8 + BitVec.ofNat 64 i) := by
      rw [pushAll_rsp, length_cons]
      unfold Within
      bv_omega
    have ho : ¬Within (((s.push (x.get s)).pushAll l).regs rsp) (8 * l.length)
        (s.regs rsp - 8 + BitVec.ofNat 64 i) := by
      rw [pushAll_rsp, push_rsp]
      unfold Within
      bv_omega
    rw [h.mem_eq _ hin, pushAll_cons, pushAll_mem _ l (by omega) _ ho]
  rw [top, popAll_mem, hr, readWord_congr hb, push_mem, readWord_writeWord]

theorem KeepsSaved.of_cons {x : Saved} {s : Machine} (h : KeepsSaved (x :: l) (s.pushAll (x :: l)) s') :
    KeepsSaved l ((s.push (x.get s)).pushAll l) s' := by
  rw [← pushAll_cons]
  exact h.tail

/-- The stack pointer is back where it was, also if it is one of the registers. -/
theorem popAll_balanced : ∀ {l}, 8 * l.length < 2 ^ 64 → ∀ {s s' : Machine},
    KeepsSaved l (s.pushAll l) s' → (s'.popAll l).regs rsp = s.regs rsp
  | [], _, _, _, h => h.rsp_eq
  | x :: l, hl, s, s', h => by
    have hr : (s'.popAll l).regs rsp = s.regs rsp - 8 := by
      rw [popAll_balanced (by rw [length_cons] at hl; omega) h.of_cons, push_rsp]
    rw [popAll_cons]
    by_cases hx : x = .reg rsp
    · subst hx
      rw [Saved.exec_popInstr_reg, setReg_same, top_popAll hl h hr]
      rfl
    · rw [Saved.exec_popInstr_rsp hx, hr, BitVec.sub_add_cancel]

/-- Every listed register gets its value back. -/
theorem get_popAll {x : Saved} : ∀ {l}, 8 * l.length < 2 ^ 64 → x ∈ l →
    ∀ {s s' : Machine}, KeepsSaved l (s.pushAll l) s' → x.get (s'.popAll l) = x.get s
  | [], _, hx, _, _, _ => absurd hx not_mem_nil
  | y :: l, hl, hx, s, s', h => by
    by_cases hp : x = .reg rsp
    · rw [hp]
      exact popAll_balanced hl h
    have hl' : 8 * l.length < 2 ^ 64 := by
      rw [length_cons] at hl
      omega
    have hr : (s'.popAll l).regs rsp = s.regs rsp - 8 := by rw [popAll_balanced hl' h.of_cons, push_rsp]
    rw [popAll_cons]
    by_cases hxy : x = y
    · subst hxy
      rw [Saved.get_exec_popInstr_self, top_popAll hl h hr]
    · have hxl : x ∈ l := (mem_cons.1 hx).resolve_left hxy
      rw [Saved.get_exec_popInstr_of_ne hxy hp, get_popAll hl' hxl h.of_cons, Saved.get_push hp]

end Machine

end Lib.X86
