/-
The x86-64 half of `pass/stackextend.cpp`: room on the stack made in front of a function and released before its
epilogues.

The inserted bytes go through `Disassemble::instruction`, which keeps the one instruction that the disassembler finds in
them and throws if it finds none or more than one. `map_extendStack` says what the code of the function is afterwards;
the bytes are then decoded and executed on the machine of `Lib.X86`. `extendStack_balanced` gives the sizes for which
the two insertions cancel.
-/
import Egalito.Operation.AddInline
import Egalito.Lib.Except

namespace Egalito.StackExtend

open List Lib Lib.X86 AddInline

def pushBin (r : Reg) : List Byte :=
  if 8 ≤ r.val then [0x41, BitVec.ofNat 8 (0x50 + r.val - 8)] else [BitVec.ofNat 8 (0x50 + r.val)]

def popBin (r : Reg) : List Byte :=
  if 8 ≤ r.val then [0x41, BitVec.ofNat 8 (0x58 + r.val - 8)] else [BitVec.ofNat 8 (0x58 + r.val)]

/-- The bytes of the size that are not zero, for the shifts from `sizeof(int) * 4 - 8` down to zero. -/
def immediate (extendSize : Word) : List Byte := ([8, 0].map fun s => (extendSize >>> s).setWidth 8).filter (· ≠ 0)

def binSub (extendSize : Word) : List Byte := [0x48, 0x83, 0xec] ++ immediate extendSize

def binAdd (extendSize : Word) : List Byte := [0x48, 0x83, 0xc4] ++ immediate extendSize

/-- What `sub $imm, %rsp` and `add $imm, %rsp` with one byte of immediate add to the stack pointer. -/
def stackImmediate : List Byte → Option Word
  | [a, b, c, imm] =>
    if [a, b, c] = [0x48, 0x83, 0xec] then some (-imm.signExtend 64)
    else if [a, b, c] = [0x48, 0x83, 0xc4] then some (imm.signExtend 64)
    else none
  | _ => none

section Insertion

-- whether the disassembler finds an instruction at the start of the bytes that are left
variable (follows : List Byte → Bool)

/-- The bytes of the instruction object: `runDisassembly` wants exactly one instruction to be found, but not that it takes
    all of the bytes. -/
def instruction (bytes : List Byte) : Except String (List Byte) :=
  if (decodeOne bytes).isSome then .ok bytes
  else if (stackImmediate (bytes.take 4)).isSome ∧ (bytes.drop 4 = [] ∨ ¬follows (bytes.drop 4)) then .ok (bytes.take 4)
  else .error "Invalid instruction opcode string provided\n"

/-! ## Insertion -/

/-- An instruction object: one of the function, the i-th that is prepended, or the i-th that is inserted at an epilogue. -/
inductive Ref where
  | original (k : Nat)
  | prologue (i : Nat)
  | epilogue (k i : Nat)
deriving DecidableEq

abbrev Code := List (Ref × List Byte)

structure Function where
  instrs : List (Nat × List Byte)
  epilogueInstrs : List Nat
  nodup : epilogueInstrs.Nodup

def Function.code (function : Function) : Code := function.instrs.map fun y => (.original y.1, y.2)

def insertBefore (code : Code) (point new : Ref) (bytes : List Byte) : Code :=
  code.flatMap fun y => if y.1 = point then [(new, bytes), y] else [y]

/-- The new object comes after the point, and the two swap their bytes. -/
def insertBeforeJumpTo (code : Code) (point new : Ref) (bytes : List Byte) : Code :=
  code.flatMap fun y => if y.1 = point then [(point, bytes), (new, y.2)] else [y]

/-- The first block begins the function, so its new first instruction is that of the function. -/
def prepend (code : Code) (new : Ref) (bytes : List Byte) : Code := (new, bytes) :: code

def prependAll (code : Code) (i : Nat) : List Reg → Except String Code
  | [] => return code
  | r :: saveList => do
    let pushIns ← instruction follows (pushBin r)
    prependAll (prepend code (.prologue i) pushIns) (i + 1) saveList

/-- The pops for the epilogue instruction `k`. Each new object is the point for the next. -/
def insertPops (k : Nat) (code : Code) (i : Nat) (insPoint : Ref) : List Reg → Except String Code
  | [] => return code
  | r :: saveList => do
    let popIns ← instruction follows (popBin r)
    insertPops k (insertBeforeJumpTo code insPoint (.epilogue k i) popIns) (i + 1) (.epilogue k i) saveList

def extendStack (extendSize : Word) (saveList : List Reg) (function : Function) : Except String Code :=
  if saveList ≠ [] then do
    let code ← prependAll follows function.code 0 saveList
    function.epilogueInstrs.foldlM (fun code k => insertPops follows k code 0 (.original k) saveList) code
  else do
    let sub ← instruction follows (binSub extendSize)
    function.epilogueInstrs.foldlM (fun code k => do
      let add ← instruction follows (binAdd extendSize)
      return insertBefore code (.original k) (.epilogue k 0) add) (prepend function.code (.prologue 0) sub)

end Insertion

/-- The flags, which these two also set, are not followed. -/
def execute (s : Machine) (bytes : List Byte) : Option Machine :=
  match stackImmediate bytes with
  | some d => some (moveStack d s)
  | none => (decodeOne bytes).map s.exec

def run (s : Machine) (code : List (List Byte)) : Option Machine := code.foldlM execute s

/-! ## Where the instructions are -/

variable {follows : List Byte → Bool} {k i : Nat} {code : Code} {point : Ref} {saveList : List Reg} {extendSize : Word}

theorem instruction_decodeOne {bytes} (h : (decodeOne bytes).isSome) : instruction follows bytes = .ok bytes := if_pos h

theorem decodeOne_pushBin : ∀ r, decodeOne (pushBin r) = some (.push r) := by decide +kernel

theorem decodeOne_popBin : ∀ r, decodeOne (popBin r) = some (.pop r) := by decide +kernel

theorem instruction_pushBin (r) : instruction follows (pushBin r) = .ok (pushBin r) :=
  instruction_decodeOne (by rw [decodeOne_pushBin, Option.isSome_some])

theorem instruction_popBin (r) : instruction follows (popBin r) = .ok (popBin r) :=
  instruction_decodeOne (by rw [decodeOne_popBin, Option.isSome_some])

/-- The objects that stand for the point after the pops are inserted there. -/
def popsAt (k i : Nat) (point : Ref) (bytes : List Byte) : List Reg → Code
  | [] => [(point, bytes)]
  | r :: saveList => (point, popBin r) :: popsAt k (i + 1) (.epilogue k i) bytes saveList

theorem insertPops_eq (follows) : ∀ {saveList code i point},
    (∀ y ∈ code, ∀ j ≥ i, y.1 ≠ .epilogue k j) → (∀ j ≥ i, point ≠ .epilogue k j) →
      insertPops follows k code i point saveList =
        .ok (code.flatMap fun y => if y.1 = point then popsAt k i point y.2 saveList else [y])
  | [], code, i, point, _, _ => by
    have hs : ∀ y ∈ code, (if y.1 = point then popsAt k i point y.2 [] else [y]) = [y] := by
      intro y _
      split
      · next h => rw [popsAt, ← h]
      · rfl
    rw [insertPops, flatMap_congr hs, flatMap_singleton']
    rfl
  | r :: saveList, code, i, point, hc, hp => by
    rw [insertPops, ok_bind (instruction_popBin r), insertPops_eq follows, insertBeforeJumpTo, flatMap_assoc]
    · congr 1
      apply flatMap_congr
      intro y hy
      split
      · simp [hp i le_rfl, popsAt]
      · simp [hc y hy i le_rfl]
    · intro y hy j hj
      obtain ⟨x, hx, hy⟩ := mem_flatMap.1 hy
      split at hy
      · simp only [mem_cons, not_mem_nil, or_false] at hy
        rcases hy with rfl | rfl
        · exact hp j (by omega)
        · simp
          omega
      · cases mem_singleton.1 hy
        exact hc _ hx j (by omega)
    · intro j hj
      simp
      omega

theorem map_popsAt (bytes) : ∀ saveList i point,
    (popsAt k i point bytes saveList).map Prod.snd = saveList.map popBin ++ [bytes]
  | [], _, _ => rfl
  | r :: saveList, i, point => by rw [popsAt, map_cons, map_popsAt bytes saveList, map_cons, cons_append]

theorem fst_popsAt {bytes} : ∀ {saveList i point},
    ∀ y ∈ popsAt k i point bytes saveList, y.1 = point ∨ ∃ j, y.1 = .epilogue k j
  | [], i, point, y, hy => .inl (by rw [mem_singleton.1 hy])
  | r :: saveList, i, point, y, hy => by
    rcases mem_cons.1 hy with rfl | hy
    · exact .inl rfl
    · rcases fst_popsAt y hy with h | h
      · exact .inr ⟨i, h⟩
      · exact .inr h

/-- Insertion at one epilogue instruction after another: `place` says what is put in place of each. -/
theorem map_foldlM_epilogues {insert : Code → Nat → Except String Code} (place : Nat → List Byte → Code) (restore : List (List Byte))
    (hi : ∀ {code k}, (∀ y ∈ code, ∀ j, y.1 ≠ .epilogue k j) →
      insert code k = .ok (code.flatMap fun y => if y.1 = .original k then place k y.2 else [y]))
    (hb : ∀ k bytes, (place k bytes).map Prod.snd = restore ++ [bytes])
    (hr : ∀ k bytes, ∀ y ∈ place k bytes, y.1 = .original k ∨ ∃ j, y.1 = .epilogue k j) :
    ∀ {ks : List Nat} {code : Code}, ks.Nodup → (∀ y ∈ code, ∀ k ∈ ks, ∀ j, y.1 ≠ .epilogue k j) →
      ∃ code', ks.foldlM insert code = .ok code' ∧ code'.map Prod.snd =
        code.flatMap fun y => if y.1 ∈ ks.map Ref.original then restore ++ [y.2] else [y.2]
  | [], code, _, _ => ⟨code, rfl, by simp [map_eq_flatMap]⟩
  | k :: ks, code, hnd, hc => by
    obtain ⟨hk, hs⟩ := nodup_cons.1 hnd
    have ho : ∀ y ∈ code, y.1 ≠ .original k → (y.1 ∈ (k :: ks).map Ref.original ↔ y.1 ∈ ks.map Ref.original) := by
      intro y _ hy
      simp [hy]
    rw [foldlM_cons, ok_bind (hi fun y hy => hc y hy k mem_cons_self)]
    have hc' : ∀ y ∈ code.flatMap (fun y => if y.1 = .original k then place k y.2 else [y]),
        ∀ k' ∈ ks, ∀ j, y.1 ≠ .epilogue k' j := by
      intro y hy k' hk' j
      obtain ⟨x, hx, hy⟩ := mem_flatMap.1 hy
      have hne : k ≠ k' := fun e => hk (e ▸ hk')
      split at hy
      · rcases hr k x.2 y hy with hy | ⟨j', hy⟩ <;> simp [hy, hne]
      · cases mem_singleton.1 hy
        exact hc _ hx k' (mem_cons_of_mem _ hk') j
    obtain ⟨code', heq, hcode⟩ := map_foldlM_epilogues place restore hi hb hr hs hc'
    refine ⟨code', heq, ?_⟩
    rw [hcode, flatMap_assoc]
    apply flatMap_congr
    intro y hy
    by_cases h : y.1 = .original k
    · -- what is put here is not touched by the epilogues that follow
      have hp : ∀ z ∈ place k y.2,
          (if z.1 ∈ ks.map Ref.original then restore ++ [z.2] else [z.2]) = [z.2] := by
        intro z hz
        apply if_neg
        rcases hr k y.2 z hz with hz | ⟨j, hz⟩ <;> simp [hz, hk]
      rw [if_pos h, flatMap_congr hp, ← map_eq_flatMap, hb, if_pos (by simp [h])]
    · rw [if_neg h, flatMap_singleton, if_congr (ho y hy h).symm rfl rfl]

theorem prependAll_eq (follows) : ∀ saveList code i, ∃ pushes : Code,
    prependAll follows code i saveList = .ok (pushes ++ code) ∧ pushes.map Prod.snd = saveList.reverse.map pushBin ∧
      ∀ y ∈ pushes, ∃ j, y.1 = .prologue j
  | [], _, _ => ⟨[], rfl, rfl, by simp⟩
  | r :: saveList, code, i => by
    obtain ⟨pushes, heq, hb, hr⟩ := prependAll_eq follows saveList (prepend code (.prologue i) (pushBin r)) (i + 1)
    refine ⟨pushes ++ [(.prologue i, pushBin r)], ?_, ?_, ?_⟩
    · rw [prependAll, ok_bind (instruction_pushBin r), heq, append_assoc]
      rfl
    · rw [map_append, hb, reverse_cons, map_append]
      rfl
    · intro y hy
      rcases mem_append.1 hy with hy | hy
      · exact hr y hy
      · exact ⟨i, by rw [mem_singleton.1 hy]⟩

theorem flatMap_prepended (function : Function) {pushes : Code} (hp : ∀ y ∈ pushes, ∃ j, y.1 = .prologue j)
    (restore : List (List Byte)) : ((pushes ++ function.code).flatMap fun y =>
        if y.1 ∈ function.epilogueInstrs.map Ref.original then restore ++ [y.2] else [y.2]) =
      pushes.map Prod.snd ++ function.instrs.flatMap fun y =>
        if y.1 ∈ function.epilogueInstrs then restore ++ [y.2] else [y.2] := by
  rw [flatMap_append, Function.code, flatMap_map]
  congr 1
  · rw [map_eq_flatMap (l := pushes)]
    apply flatMap_congr
    intro y hy
    obtain ⟨j, hj⟩ := hp y hy
    simp [hj]
  · simp

theorem fst_prepended (function : Function) {pushes : Code} (hp : ∀ y ∈ pushes, ∃ j, y.1 = .prologue j) :
    ∀ y ∈ pushes ++ function.code, ∀ k ∈ function.epilogueInstrs, ∀ j, y.1 ≠ .epilogue k j := by
  intro y hy k _ j
  rcases mem_append.1 hy with hy | hy
  · obtain ⟨j', hj⟩ := hp y hy
    simp [hj]
  · obtain ⟨x, -, rfl⟩ := mem_map.1 hy
    simp

theorem map_extendStack_save (follows) (extendSize) (hs : saveList ≠ []) (function : Function) :
    ∃ code, extendStack follows extendSize saveList function = .ok code ∧
      code.map Prod.snd = saveList.reverse.map pushBin ++ function.instrs.flatMap fun y =>
        if y.1 ∈ function.epilogueInstrs then saveList.map popBin ++ [y.2] else [y.2] := by
  obtain ⟨pushes, heq, hb, hp⟩ := prependAll_eq follows saveList function.code 0
  obtain ⟨code, hcode, hmap⟩ := map_foldlM_epilogues
    (fun k bytes => popsAt k 0 (.original k) bytes saveList) (saveList.map popBin)
    (fun h => insertPops_eq follows (fun y hy j _ => h y hy j) (by simp))
    (fun k bytes => map_popsAt bytes saveList 0 (.original k)) (fun k bytes => fst_popsAt) function.nodup
    (fst_prepended function hp)
  rw [extendStack, if_pos hs, ok_bind heq]
  exact ⟨code, hcode, by rw [hmap, flatMap_prepended function hp, hb]⟩

theorem map_extendStack_size {sub add} (hsub : instruction follows (binSub extendSize) = .ok sub)
    (hadd : instruction follows (binAdd extendSize) = .ok add) (function : Function) :
    ∃ code, extendStack follows extendSize [] function = .ok code ∧
      code.map Prod.snd = [sub] ++ function.instrs.flatMap fun y =>
        if y.1 ∈ function.epilogueInstrs then [add] ++ [y.2] else [y.2] := by
  have hp : ∀ y ∈ [(Ref.prologue 0, sub)], ∃ j, y.1 = .prologue j := by simp
  have hi : ∀ (code : Code) k, (do
      let add ← instruction follows (binAdd extendSize)
      return insertBefore code (.original k) (.epilogue k 0) add) =
        Except.ok (code.flatMap fun y =>
          if y.1 = .original k then [(.epilogue k 0, add), (.original k, y.2)] else [y]) := by
    intro code k
    rw [ok_bind hadd]
    refine congrArg Except.ok (flatMap_congr fun y _ => ?_)
    split
    · next h => rw [← h]
    · rfl
  obtain ⟨code, hcode, hmap⟩ := map_foldlM_epilogues (fun k bytes => [(.epilogue k 0, add), (.original k, bytes)]) [add]
    (fun _ => hi _ _) (fun k bytes => rfl) (by simp) function.nodup (fst_prepended function hp)
  rw [extendStack, if_neg (by simp), ok_bind hsub]
  exact ⟨code, hcode, by rw [hmap, flatMap_prepended function hp]; rfl⟩

/-! ## What they do -/

theorem run_bytes {bytes} (instr) (h : ∀ r, stackImmediate (bytes r) = none ∧ decodeOne (bytes r) = some (instr r)) :
    ∀ s (l : List Reg), run s (l.map bytes) = some (s.run (l.map instr))
  | _, [] => rfl
  | s, r :: l => by
    have hs : execute s (bytes r) = some (s.exec (instr r)) := by rw [execute, (h r).1, (h r).2, Option.map_some]
    rw [map_cons, run, foldlM_cons, hs]
    exact run_bytes instr h (s.exec (instr r)) l

theorem run_pushBin (s) (l : List Reg) : run s (l.map pushBin) = some (s.pushAll (l.map .reg)) := by
  rw [run_bytes .push (by decide +kernel), Machine.pushAll, map_map]
  rfl

theorem run_popBin (s) (l : List Reg) : run s (l.map popBin) = some (s.popAll (l.reverse.map .reg)) := by
  rw [run_bytes .pop (by decide +kernel), Machine.popAll, ← map_reverse, reverse_reverse, map_map]
  rfl

theorem run_stackImmediate {bytes d} (h : stackImmediate bytes = some d) (s) :
    run s [bytes] = some (moveStack d s) := by
  rw [run, foldlM_cons, execute, h]
  rfl

/-! ## The immediate -/

theorem decodeOne_immediate (rest) : decodeOne (0x48#8 :: 0x83#8 :: rest) = none := rfl

/-- Of the bytes of the size the instruction takes the first. The disassembler then looks at what is left. -/
theorem instruction_immediate (follows) {c bytes} (hc : c = 0xec#8 ∨ c = 0xc4#8) : ∀ {l : List Byte},
    instruction follows ([0x48#8, 0x83#8, c] ++ l) = .ok bytes ↔
      ∃ imm rest, l = imm :: rest ∧ (rest = [] ∨ ¬follows rest) ∧ bytes = [0x48#8, 0x83#8, c, imm]
  | [] => by simp [instruction, decodeOne_immediate, stackImmediate]
  | imm :: rest => by
    have hs : (stackImmediate [0x48#8, 0x83#8, c, imm]).isSome := by
      rcases hc with rfl | rfl <;> rfl
    simp only [cons_append, nil_append, instruction, decodeOne_immediate, take_succ_cons, take_zero, drop_succ_cons,
      drop_zero, hs, Option.isSome_none, Bool.false_eq_true, if_false, true_and]
    split
    · next h =>
      constructor
      · rintro ⟨⟩
        exact ⟨imm, rest, rfl, h, rfl⟩
      · rintro ⟨_, _, ⟨⟩, -, rfl⟩
        rfl
    · next h =>
      refine iff_of_false nofun ?_
      rintro ⟨_, _, ⟨⟩, h', -⟩
      exact h h'

/-- The code inserted for a size moves the stack pointer by the first byte of the size that is not zero. -/
def FirstByte (follows : List Byte → Bool) (extendSize : Word) (imm : Byte) : Prop :=
  ∃ rest, immediate extendSize = imm :: rest ∧ (rest = [] ∨ ¬follows rest)

theorem immediate_small : ∀ n : Fin 128, n ≠ 0 →
    immediate (BitVec.ofNat 64 n) = [BitVec.ofNat 8 n] ∧ (BitVec.ofNat 8 n).signExtend 64 = BitVec.ofNat 64 n := by
  decide +kernel

theorem head?_immediate : ∀ imm : Byte, (immediate (imm.signExtend 64)).head? = some imm →
    (imm.signExtend 64).toNat < 128 ∨ imm = 0xff := by
  decide +kernel

/-- A byte with its sign is the size that it was taken from for the small sizes and for -1. -/
theorem firstByte_iff (hpos : 0 < extendSize.toNat) :
    (∃ imm, FirstByte follows extendSize imm ∧ imm.signExtend 64 = extendSize) ↔
      extendSize.toNat < 128 ∨ extendSize = -1 ∧ ¬follows [0xff] := by
  constructor
  · rintro ⟨imm, ⟨rest, heq, hr⟩, rfl⟩
    rcases head?_immediate imm (by rw [heq, head?_cons]) with h | rfl
    · exact .inl h
    · have himm : immediate ((0xff : Byte).signExtend 64) = [0xff, 0xff] := by decide
      cases himm.symm.trans heq
      exact .inr ⟨by decide, hr.resolve_left nofun⟩
  · rintro (h | ⟨rfl, h⟩)
    · have hn : BitVec.ofNat 64 extendSize.toNat = extendSize := by rw [BitVec.ofNat_toNat, BitVec.setWidth_eq]
      obtain ⟨himm, hs⟩ := immediate_small ⟨extendSize.toNat, h⟩ (Fin.ne_of_val_ne hpos.ne')
      rw [hn] at himm hs
      exact ⟨_, ⟨[], himm, .inl rfl⟩, hs⟩
    · exact ⟨0xff, ⟨[0xff], by decide, .inr h⟩, by decide⟩

/-! ## The balance -/

/-- The pass succeeds, its prologue lowers the stack pointer by the size, and what is in front of each epilogue
    instruction raises it by the size and restores the saved registers, if the code between keeps the stack pointer and
    the saved words. -/
def Balanced (follows : List Byte → Bool) (extendSize : Word) (saveList : List Reg) (function : Function) : Prop :=
  ∃ code prologue epilogue, extendStack follows extendSize saveList function = .ok code ∧
    prologue.length = max 1 saveList.length ∧
    code.map Prod.snd = prologue ++
      (function.instrs.flatMap fun y => if y.1 ∈ function.epilogueInstrs then epilogue ++ [y.2] else [y.2]) ∧
    ∀ s, ∃ s₁, run s prologue = some s₁ ∧ s₁.regs rsp = s.regs rsp - extendSize ∧
      ∀ s₂, Machine.KeepsSaved (saveList.map .reg) s₁ s₂ → ∃ s₃, run s₂ epilogue = some s₃ ∧
        s₃.regs rsp = s₂.regs rsp + extendSize ∧ ∀ r ∈ saveList, s₃.regs r = s.regs r

theorem balanced_save (function : Function) (hs : saveList ≠ []) (hsize : 8 * saveList.length = extendSize.toNat) :
    Balanced follows extendSize saveList function := by
  obtain ⟨code, hcode, hmap⟩ := map_extendStack_save follows extendSize hs function
  have hlen : 8 * (saveList.reverse.map Saved.reg).length = extendSize.toNat := by simp [hsize]
  have hlt : 8 * (saveList.reverse.map Saved.reg).length < 2 ^ 64 := by rw [hlen]; exact extendSize.isLt
  have hone : 1 ≤ saveList.length := length_pos_iff.2 hs
  refine ⟨code, _, _, hcode, by simp [hone], hmap, fun s => ?_⟩
  have hrsp := Machine.pushAll_rsp s (saveList.reverse.map .reg)
  rw [hlen, BitVec.ofNat_toNat, BitVec.setWidth_eq] at hrsp
  refine ⟨_, run_pushBin s saveList.reverse, hrsp, fun s₂ hks => ⟨_, run_popBin s₂ saveList, ?_, fun r hr => ?_⟩⟩
  all_goals have hks : Machine.KeepsSaved (saveList.reverse.map .reg) (s.pushAll (saveList.reverse.map .reg)) s₂ :=
      ⟨hks.rsp_eq, by simpa using hks.mem_eq⟩
  · rw [Machine.popAll_balanced hlt hks, hks.rsp_eq, hrsp, BitVec.sub_add_cancel]
  · exact Machine.get_popAll (x := .reg r) hlt (by simpa using hr) hks

theorem balanced_size_iff (function : Function) :
    Balanced follows extendSize [] function ↔
      ∃ imm, FirstByte follows extendSize imm ∧ imm.signExtend 64 = extendSize := by
  constructor
  · rintro ⟨code, prologue, epilogue, hcode, hlen, hmap, hrun⟩
    rw [extendStack, if_neg (by simp)] at hcode
    obtain ⟨sub, hsub, -⟩ := bind_iff.1 hcode
    obtain ⟨imm, rest, himm, hr, rfl⟩ := (instruction_immediate follows (.inl rfl)).1 hsub
    have hadd := (instruction_immediate follows (.inr rfl)).2 ⟨imm, rest, himm, hr, rfl⟩
    obtain ⟨code', hcode', hmap'⟩ := map_extendStack_size hsub hadd function
    rw [extendStack, if_neg (by simp)] at hcode'
    cases hcode.symm.trans hcode'
    -- the prologue is the first instruction, and one state tells what it adds
    cases append_inj_left (hmap.symm.trans hmap') hlen
    obtain ⟨s₁, hs₁, hrsp, -⟩ := hrun ⟨fun _ => 0, 0, fun _ => 0, 0⟩
    cases hs₁.symm.trans (run_stackImmediate rfl _)
    rw [moveStack_rsp, BitVec.sub_eq_add_neg, add_right_inj, neg_inj] at hrsp
    exact ⟨imm, ⟨rest, himm, hr⟩, hrsp⟩
  · rintro ⟨imm, ⟨rest, himm, hr⟩, hs⟩
    have hsub := (instruction_immediate follows (.inl rfl)).2 ⟨imm, rest, himm, hr, rfl⟩
    have hadd := (instruction_immediate follows (.inr rfl)).2 ⟨imm, rest, himm, hr, rfl⟩
    obtain ⟨code, hcode, hmap⟩ := map_extendStack_size hsub hadd function
    refine ⟨code, _, _, hcode, rfl, hmap, fun s => ⟨_, run_stackImmediate rfl s, ?_, fun s₂ _ =>
      ⟨_, run_stackImmediate rfl s₂, ?_, by simp⟩⟩⟩
    · rw [moveStack_rsp, hs, BitVec.sub_eq_add_neg]
    · rw [moveStack_rsp, hs]

/-- With registers to save the code is balanced whenever the size is that of the list. Without them the size has to fit
    a byte with a sign; the size -1, of which the disassembler keeps one byte, does so by accident. -/
theorem extendStack_balanced (follows : List Byte → Bool) (function : Function) (extendSize : Word)
    (saveList : List Reg) (hpos : 0 < extendSize.toNat)
    (hsize : saveList ≠ [] → 8 * saveList.length = extendSize.toNat) :
    Balanced follows extendSize saveList function ↔
      (saveList = [] → extendSize.toNat < 128 ∨ extendSize = -1 ∧ ¬follows [0xff]) := by
  by_cases h : saveList = []
  · subst h
    rw [balanced_size_iff, firstByte_iff hpos, forall_prop_of_true rfl]
  · exact iff_of_true (balanced_save function h (hsize h)) fun h' => absurd h' h

theorem extendStack_balanced_two :
    Balanced (fun _ => false) 16 [3, 12] ⟨[(0, [0x90]), (1, [0xc3])], [1], nodup_singleton 1⟩ ∧
      Balanced (fun _ => false) 8 [] ⟨[(0, [0x90]), (1, [0xc3])], [1], nodup_singleton 1⟩ :=
  ⟨(extendStack_balanced _ _ 16 [3, 12] (by decide) (fun _ => rfl)).2 nofun,
    (extendStack_balanced _ _ 8 [] (by decide) nofun).2 (fun _ => .inl (by decide))⟩

/-- The byte 0x80 stands for -128, of 0x100 and of 0x101 only the byte 1 is used, and 0x10000 leaves no byte. -/
theorem extendStack_unbalanced :
    (extendStack (fun _ => false) 0x80 [] ⟨[(0, [0xc3])], [0], nodup_singleton 0⟩).map (map Prod.snd) =
        .ok [[0x48, 0x83, 0xec, 0x80], [0x48, 0x83, 0xc4, 0x80], [0xc3]] ∧
      (∀ s, run s [[0x48, 0x83, 0xec, 0x80]] = some (moveStack 0x80 s)) ∧
      (extendStack (fun _ => false) 0x100 [] ⟨[(0, [0xc3])], [0], nodup_singleton 0⟩).map (map Prod.snd) =
        .ok [[0x48, 0x83, 0xec, 0x01], [0x48, 0x83, 0xc4, 0x01], [0xc3]] ∧
      (extendStack (fun _ => false) 0x101 [] ⟨[(0, [0xc3])], [0], nodup_singleton 0⟩).map (map Prod.snd) =
        .ok [[0x48, 0x83, 0xec, 0x01], [0x48, 0x83, 0xc4, 0x01], [0xc3]] ∧
      (∀ s, run s [[0x48, 0x83, 0xec, 0x01]] = some (moveStack (-1) s)) ∧
      extendStack (fun _ => false) 0x10000 [] ⟨[(0, [0xc3])], [0], nodup_singleton 0⟩ =
        .error "Invalid instruction opcode string provided\n" :=
  ⟨by decide +kernel, run_stackImmediate (by decide +kernel), by decide +kernel, by decide +kernel,
    run_stackImmediate (by decide +kernel), by decide +kernel⟩

end Egalito.StackExtend
