/-
The records of single instructions. `Form` lists the operand forms that a handler accepts, with the
calls it makes; the other modules argue over this list and not over the handlers. Only a `pop` into
the stack pointer writes a register twice.
-/
import Egalito.Analysis.ReachingDef

namespace Egalito.Analysis

namespace Records

def Writes : Records → Location → Prop
  | barrier, _ => True
  | calls l, reg => .write reg ∈ l

def Touches : Records → Location → Prop
  | barrier, _ => True
  | calls l, reg => .read reg ∈ l ∨ .write reg ∈ l

theorem Writes.touches : ∀ {r : Records} {reg : Location}, r.Writes reg → r.Touches reg
  | barrier, _, _ => trivial
  | calls _, _, h => .inr h

/-- The registers that a list of calls writes, in order. -/
def written (l : List Call) : List Location :=
  l.filterMap fun
    | .read _ => none
    | .write reg => some reg

theorem mem_written {l reg} : reg ∈ written l ↔ .write reg ∈ l := by
  unfold written
  rw [List.mem_filterMap]
  constructor
  · rintro ⟨c, hc, h⟩
    cases c with
    | read _ => cases h
    | write reg' =>
      cases h
      exact hc
  · intro h
    exact ⟨.write reg, h, rfl⟩

@[simp] theorem written_nil : written [] = [] := rfl

@[simp] theorem written_read (reg l) : written (.read reg :: l) = written l := rfl

@[simp] theorem written_write (reg l) : written (.write reg :: l) = reg :: written l := rfl

@[simp] theorem written_append (l l') : written (l ++ l') = written l ++ written l' := List.filterMap_append

def Atomic : Records → Prop
  | .barrier => True
  | .calls l => (written l).Nodup

end Records

/-! ## Addresses -/

/-- The reads that `handleMem` records for a register of an address. -/
def addressReads : Option Register → List Call
  | none => []
  | some r => (convertToPhysical r).toList.map .read

def MemOperand.reads (m : MemOperand) : List Call := addressReads m.index ++ addressReads m.base

variable {r : Register} {regs : List Call} {b : β}

theorem physical_eq_ok {p} : physical r = .ok p ↔ convertToPhysical r = some p := by
  unfold physical
  cases convertToPhysical r <;> simp

theorem handleIndex_eq : ∀ {r regs}, handleIndex r = .ok regs →
    regs = addressReads r ∧ ∀ r', r = some r' → ∃ p, convertToPhysical r' = some p
  | none, _, h => by
    cases h
    exact ⟨rfl, by simp⟩
  | some r, _, h => by
    obtain ⟨p, hp, h⟩ := Lib.bind_iff.1 h
    cases h
    rw [physical_eq_ok] at hp
    exact ⟨by simp [addressReads, hp], by simp [hp]⟩

theorem handleBase_eq {r} (h : handleBase r = .ok regs) :
    regs = addressReads r ∧ ∀ r', r = some r' → r' = .rip ∨ ∃ p, convertToPhysical r' = some p := by
  by_cases hp : r = some .rip
  · subst hp
    cases h
    exact ⟨rfl, by simp⟩
  · have hi : handleIndex r = .ok regs := by
      rw [← h]
      unfold handleIndex handleBase
      split <;> simp_all
    obtain ⟨hr, hk⟩ := handleIndex_eq hi
    exact ⟨hr, fun r' hr' => .inr (hk r' hr')⟩

theorem handleMem_eq {m} (h : handleMem m = .ok regs) :
    regs = m.reads ∧ (∀ r, m.index = some r → ∃ p, convertToPhysical r = some p) ∧
      ∀ r, m.base = some r → r = .rip ∨ ∃ p, convertToPhysical r = some p := by
  obtain ⟨index, hi, h⟩ := Lib.bind_iff.1 h
  obtain ⟨base, hb, h⟩ := Lib.bind_iff.1 h
  cases h
  obtain ⟨rfl, hk⟩ := handleIndex_eq hi
  obtain ⟨rfl, hk'⟩ := handleBase_eq hb
  exact ⟨rfl, hk, hk'⟩

theorem written_addressReads (r) : Records.written (addressReads r) = [] := by
  cases r with
  | none => rfl
  | some r => cases h : convertToPhysical r <;> simp [addressReads, h]

@[simp] theorem written_reads (m : MemOperand) : Records.written m.reads = [] := by
  rw [MemOperand.reads, Records.written_append, written_addressReads, written_addressReads]
  rfl

theorem convertToPhysical_lt {p} (h : convertToPhysical r = some p) : p.val < 16 := by
  cases r with
  | gp n w =>
    cases h
    exact n.isLt
  | ah | bh | ch | dh =>
    cases h
    decide
  | rip | segment _ | other => cases h

/-! ## Accepted forms -/

/-- The instructions that combine the operands into the second one and set the flags. -/
def InsId.IsAddOrSub (id : InsId) : Prop := id = .add ∨ id = .sub ∨ id = .xor

def InsId.IsMov (id : InsId) : Prop := id = .mov ∨ id = .movsxd ∨ id = .movzx

/-- The instructions and operands that a handler accepts, with the calls it makes. -/
inductive Form : InsId → List Operand → List Call → Prop
  | aluImmReg {id r p} (hid : id = .and ∨ id.IsAddOrSub) (hr : convertToPhysical r = some p) :
      Form id [.imm, .reg r] [.read p, .write p, .write FLAGS]
  | aluRegReg {id r r' p p'} (hid : id.IsAddOrSub) (hr : convertToPhysical r = some p) (hr' : convertToPhysical r' = some p') :
      Form id [.reg r, .reg r'] [.read p, .read p', .write p', .write FLAGS]
  | aluMemReg {id m r p} (hid : id.IsAddOrSub) (hm : handleMem m = .ok m.reads) (hr : convertToPhysical r = some p) :
      Form id [.mem m, .reg r] (m.reads ++ [setMemRead, .read p, .write p, .write FLAGS])
  | cmpRegReg {r r' p p'} (hr : convertToPhysical r = some p) (hr' : convertToPhysical r' = some p') :
      Form .cmp [.reg r, .reg r'] [.read p, .read p', .write FLAGS]
  | cmpImmReg {r p} (hr : convertToPhysical r = some p) : Form .cmp [.imm, .reg r] [.read p, .write FLAGS]
  | cmpImmMem {m} (hm : handleMem m = .ok m.reads) : Form .cmp [.imm, .mem m] (m.reads ++ [setMemRead, .write FLAGS])
  | lea {m r p} (hm : handleMem m = .ok m.reads) (hr : convertToPhysical r = some p) :
      Form .lea [.mem m, .reg r] (m.reads ++ [.write p])
  | movImmReg {id r p} (hid : id = .movabs ∨ id.IsMov) (hr : convertToPhysical r = some p) : Form id [.imm, .reg r] [.write p]
  | movRegMem {id m r p} (hid : id.IsMov) (hr : convertToPhysical r = some p) (hm : handleMem m = .ok m.reads) :
      Form id [.reg r, .mem m] (.read p :: m.reads ++ [setMemWrite])
  | movMemReg {id m r p} (hid : id.IsMov) (hm : handleMem m = .ok m.reads) (hr : convertToPhysical r = some p) :
      Form id [.mem m, .reg r] (m.reads ++ [setMemRead, .write p])
  | movRegReg {id r r' p p'} (hid : id.IsMov) (hr : convertToPhysical r = some p) (hr' : convertToPhysical r' = some p') :
      Form id [.reg r, .reg r'] [.read p, .write p']
  | pushReg {r p} (hr : convertToPhysical r = some p) : Form .push [.reg r] [.read p, setMemWrite, .read SP, .write SP]
  | pushMem {m} (hm : handleMem m = .ok m.reads) : Form .push [.mem m] (m.reads ++ [setMemWrite, .read SP, .write SP])
  | popReg {r p} (hr : convertToPhysical r = some p) : Form .pop [.reg r] [.write p, setMemRead, .read SP, .write SP]
  | popMem {m} (hm : handleMem m = .ok m.reads) : Form .pop [.mem m] (m.reads ++ [setMemRead, .read SP, .write SP])

theorem getReg_ok {f} : (getReg r >>= f) = .ok b ↔ ∃ p, convertToPhysical r = some p ∧ f p = .ok b := by
  rw [Lib.bind_iff]
  simp only [getReg, physical_eq_ok]

theorem handleMem_ok {m f} : (handleMem m >>= f) = .ok b ↔ handleMem m = .ok m.reads ∧ f m.reads = .ok b := by
  rw [Lib.bind_iff]
  constructor
  · rintro ⟨regs, hm, hf⟩
    obtain ⟨rfl, -⟩ := handleMem_eq hm
    exact ⟨hm, hf⟩
  · rintro ⟨hm, hf⟩
    exact ⟨_, hm, hf⟩

variable {operands : List Operand} {l : List Call} {id : InsId}

theorem form_fillAddOrSub (hi : id.IsAddOrSub) (h : fillAddOrSub operands = .ok (.calls l)) : Form id operands l := by
  unfold fillAddOrSub at h
  split at h
  · obtain ⟨p, hp, h⟩ := getReg_ok.1 h
    cases h
    exact .aluImmReg (.inr hi) hp
  · obtain ⟨p, hp, h⟩ := getReg_ok.1 h
    obtain ⟨p', hp', h⟩ := getReg_ok.1 h
    cases h
    exact .aluRegReg hi hp hp'
  · obtain ⟨hm, h⟩ := handleMem_ok.1 h
    obtain ⟨p, hp, h⟩ := getReg_ok.1 h
    cases h
    exact .aluMemReg hi hm hp
  · cases h

theorem form_fillAnd (h : fillAnd operands = .ok (.calls l)) : Form .and operands l := by
  unfold fillAnd at h
  split at h
  · obtain ⟨p, hp, h⟩ := getReg_ok.1 h
    cases h
    exact .aluImmReg (.inl rfl) hp
  · cases h

theorem form_fillCmp (h : fillCmp operands = .ok (.calls l)) : Form .cmp operands l := by
  unfold fillCmp at h
  split at h
  · obtain ⟨p, hp, h⟩ := getReg_ok.1 h
    obtain ⟨p', hp', h⟩ := getReg_ok.1 h
    cases h
    exact .cmpRegReg hp hp'
  · obtain ⟨p, hp, h⟩ := getReg_ok.1 h
    cases h
    exact .cmpImmReg hp
  · obtain ⟨hm, h⟩ := handleMem_ok.1 h
    cases h
    exact .cmpImmMem hm
  · cases h

theorem form_fillLea (h : fillLea operands = .ok (.calls l)) : Form .lea operands l := by
  unfold fillLea at h
  split at h
  · obtain ⟨hm, h⟩ := handleMem_ok.1 h
    obtain ⟨p, hp, h⟩ := getReg_ok.1 h
    cases h
    exact .lea hm hp
  · cases h

theorem form_fillMov (hi : id.IsMov) (h : fillMov operands = .ok (.calls l)) : Form id operands l := by
  unfold fillMov at h
  split at h
  · obtain ⟨p, hp, h⟩ := getReg_ok.1 h
    cases h
    exact .movImmReg (.inr hi) hp
  · obtain ⟨p, hp, h⟩ := getReg_ok.1 h
    obtain ⟨hm, h⟩ := handleMem_ok.1 h
    cases h
    exact .movRegMem hi hp hm
  · obtain ⟨hm, h⟩ := handleMem_ok.1 h
    obtain ⟨p, hp, h⟩ := getReg_ok.1 h
    cases h
    exact .movMemReg hi hm hp
  · obtain ⟨p, hp, h⟩ := getReg_ok.1 h
    obtain ⟨p', hp', h⟩ := getReg_ok.1 h
    cases h
    exact .movRegReg hi hp hp'
  · cases h

theorem form_fillMovabs (h : fillMovabs operands = .ok (.calls l)) : Form .movabs operands l := by
  unfold fillMovabs at h
  split at h
  · obtain ⟨p, hp, h⟩ := getReg_ok.1 h
    cases h
    exact .movImmReg (.inl rfl) hp
  · cases h

theorem form_fillPush (h : fillPush operands = .ok (.calls l)) : Form .push operands l := by
  unfold fillPush at h
  split at h
  · obtain ⟨p, hp, h⟩ := getReg_ok.1 h
    cases h
    exact .pushReg hp
  · obtain ⟨hm, h⟩ := handleMem_ok.1 h
    cases h
    exact .pushMem hm
  · cases h

theorem form_fillPop (h : fillPop operands = .ok (.calls l)) : Form .pop operands l := by
  unfold fillPop at h
  split at h
  · obtain ⟨p, hp, h⟩ := getReg_ok.1 h
    cases h
    exact .popReg hp
  · obtain ⟨hm, h⟩ := handleMem_ok.1 h
    cases h
    exact .popMem hm
  · cases h

theorem form_handle {a} (h : handle a = .ok (.calls l)) : Form a.id a.operands l := by
  unfold handle at h
  split at h <;> rename_i hid <;> rw [hid]
  · exact form_fillAnd h
  · exact form_fillAddOrSub (.inl rfl) h
  · exact form_fillAddOrSub (.inr (.inl rfl)) h
  · exact form_fillAddOrSub (.inr (.inr rfl)) h
  · exact form_fillCmp h
  · exact form_fillLea h
  · exact form_fillMov (.inl rfl) h
  · exact form_fillMovabs h
  · exact form_fillMov (.inr (.inl rfl)) h
  · exact form_fillMov (.inr (.inr rfl)) h
  · exact form_fillPush h
  · exact form_fillPop h
  · cases h

theorem Form.writes (h : Form id operands l) : ∃ reg, .write reg ∈ l := by
  cases h with
  | aluImmReg | aluRegReg | aluMemReg | cmpRegReg | cmpImmReg | cmpImmMem => exact ⟨FLAGS, by simp⟩
  | @lea m r p | @movImmReg _ r p | @movMemReg _ m r p | @movRegReg _ _ r _ p => exact ⟨p, by simp⟩
  | movRegMem => exact ⟨MEMORY_REG, by simp [setMemWrite]⟩
  | pushReg | pushMem | popReg | popMem => exact ⟨SP, by simp⟩

def PopsStackPointer (id : InsId) (operands : List Operand) : Prop :=
  id = .pop ∧ ∃ r, operands = [.reg r] ∧ convertToPhysical r = some SP

theorem ne_FLAGS {p} (h : p.val < 16) : p ≠ FLAGS := by
  rintro rfl
  exact absurd h (by decide)

theorem Form.atomic_iff (h : Form id operands l) : (Records.calls l).Atomic ↔ ¬ PopsStackPointer id operands := by
  unfold Records.Atomic PopsStackPointer
  cases h with
  | aluImmReg _ hr | aluRegReg _ _ hr | aluMemReg _ _ hr => simp [setMemRead, ne_FLAGS (convertToPhysical_lt hr)]
  | popReg hr => simp [setMemRead, hr]
  | cmpRegReg | cmpImmReg | cmpImmMem | lea | movImmReg | movRegMem | movMemReg | movRegReg | pushReg | pushMem | popMem =>
    simp [setMemRead, setMemWrite, SP, MEMORY_REG]

end Egalito.Analysis
