/-
The mode loop of `disassembleCrtBeginFunctions` (`disasm/disassemble.cpp`), with its `redo`.

The `redo` runs on fuel, of which four passes are shown to be enough; then the splits are at the instructions that
follow a `ret` and at least one `nop`.
-/
import Egalito.Disasm.Linear

namespace Egalito

open List

/-- One pass through the `switch`: the next mode, whether `splitAt` is called and the value of `redo`. -/
def crtDispatch (mode : CrtMode) (id : InsnId) : CrtMode × Bool × Bool :=
  match mode with
  | .none => (if id = .ret then .ret else .none, false, false)
  | .ret => if id = .nop then (.nop, false, false) else (.none, false, true)
  | .nop => if id = .nop then (.nop, false, false) else (.maybeFound, false, true)
  | .maybeFound => if id = .ret then (.ret, false, false) else (.found, false, true)
  | .found => (.none, true, true)

/-- The `do … while(redo)` loop, for at most `passes` passes. -/
def crtRedo (fuel : Nat) : Nat → CrtMode × IntervalTree → Insn → Except Failure (CrtMode × IntervalTree)
  | 0, _, _ => .error .diverged
  | passes + 1, (mode, splitRanges), ins => do
    let (mode, split, redo) := crtDispatch mode ins.id
    let splitRanges ← if split then do pure (← splitRanges.splitAt fuel ins.address).2 else pure splitRanges
    if redo then crtRedo fuel passes (mode, splitRanges) ins else pure (mode, splitRanges)

/-- Four passes are enough: the modes go round no cycle for one instruction. -/
theorem crtRedo_eq_crtSplit (fuel passes s ins) :
    crtRedo fuel (passes + 4) s ins = crtSplit fuel s ins := by
  obtain ⟨mode, t⟩ := s
  unfold crtSplit
  cases mode <;> cases hi : ins.id <;>
    simp [crtRedo, crtDispatch, crtStep, crtNone, crtRet, crtMaybeFound, hi] <;> rfl

/-! ## The pattern -/

def EndsInRet (pre : List Insn) : Prop := ∃ front r, pre = front ++ [r] ∧ r.id = .ret

/-- A `ret` and one or more `nop`s end the list. -/
def EndsInPadding (pre : List Insn) : Prop :=
  ∃ front r nops, pre = front ++ r :: nops ∧ r.id = .ret ∧ nops ≠ [] ∧ ∀ x ∈ nops, x.id = .nop

/-- A function ends before `ins`, which follows the instructions `pre`. -/
def FunctionEnd (pre : List Insn) (ins : Insn) : Prop := ins.id ≠ .ret ∧ ins.id ≠ .nop ∧ EndsInPadding pre

open Classical in
/-- The addresses at which a function ends, where the instructions `pre` come before the list. -/
noncomputable def functionEnds (pre : List Insn) : List Insn → List Address
  | [] => []
  | ins :: insns =>
    (if FunctionEnd pre ins then [ins.address] else []) ++ functionEnds (pre ++ [ins]) insns

theorem endsInRet_concat (pre ins) : EndsInRet (pre ++ [ins]) ↔ ins.id = .ret := by
  constructor
  · rintro ⟨front, r, heq, hr⟩
    obtain rfl := singleton_inj.1 (append_inj' heq rfl).2
    exact hr
  · exact fun h => ⟨pre, ins, rfl, h⟩

theorem endsInPadding_concat (pre ins) :
    EndsInPadding (pre ++ [ins]) ↔ ins.id = .nop ∧ (EndsInPadding pre ∨ EndsInRet pre) := by
  constructor
  · rintro ⟨front, r, nops, heq, hr, hne, hn⟩
    obtain ⟨nops, x, rfl⟩ := (eq_nil_or_concat' nops).resolve_left hne
    rw [← cons_append, ← append_assoc] at heq
    obtain ⟨rfl, hx⟩ := append_inj' heq rfl
    obtain rfl := singleton_inj.1 hx
    refine ⟨hn _ (by simp), ?_⟩
    cases nops with
    | nil => exact .inr ⟨front, r, rfl, hr⟩
    | cons y ys =>
      exact .inl ⟨front, r, y :: ys, rfl, hr, by simp, fun z hz => hn z (mem_append_left _ hz)⟩
  · rintro ⟨hi, ⟨front, r, nops, rfl, hr, hne, hn⟩ | ⟨front, r, rfl, hr⟩⟩
    · refine ⟨front, r, nops ++ [ins], by simp, hr, by simp, fun x hx => ?_⟩
      rcases mem_append.1 hx with hx | hx
      · exact hn x hx
      · rw [mem_singleton.1 hx, hi]
    · exact ⟨front, r, [ins], by simp, hr, by simp, by simpa using hi⟩

/-- What the mode says about the instructions read so far. -/
def ModeOf (pre : List Insn) : CrtMode → Prop
  | .none => ¬ EndsInRet pre ∧ ¬ EndsInPadding pre
  | .ret => EndsInRet pre ∧ ¬ EndsInPadding pre
  | .nop => EndsInPadding pre
  | .maybeFound | .found => False

theorem modeOf_nil : ModeOf [] .none := by
  constructor
  · rintro ⟨front, r, heq, -⟩
    simp at heq
  · rintro ⟨front, r, nops, heq, -⟩
    simp at heq

theorem crtStep_modeOf {pre mode} (h : ModeOf pre mode) (ins) :
    ModeOf (pre ++ [ins]) (crtStep mode ins.id).1 ∧ ((crtStep mode ins.id).2 = true ↔ FunctionEnd pre ins) := by
  unfold FunctionEnd
  cases mode <;> cases hi : ins.id <;>
    simp_all [ModeOf, crtStep, crtNone, crtRet, crtMaybeFound, endsInRet_concat, endsInPadding_concat]

theorem foldlM_crtSplit (fuel) (insns : List Insn) : ∀ pre mode t, ModeOf pre mode →
      (do return (← insns.foldlM (crtSplit fuel) (mode, t)).2) =
        (functionEnds pre insns).foldlM (fun t address => do return (← t.splitAt fuel address).2) t := by
  induction insns with
  | nil => exact fun pre mode t _ => rfl
  | cons ins insns ih =>
    intro pre mode t h
    obtain ⟨hm, hs⟩ := crtStep_modeOf h ins
    unfold functionEnds
    rw [foldlM_cons, foldlM_append]
    unfold crtSplit
    by_cases he : FunctionEnd pre ins
    · simp only [hs.2 he, he, if_true]
      simp only [bind_assoc, pure_bind, foldlM_cons, foldlM_nil, bind_pure]
      congr 1
      funext r
      exact ih _ _ _ hm
    · have hf : (crtStep mode ins.id).2 = false := by
        rw [← Bool.not_eq_true, hs]
        exact he
      simp only [hf, he, if_false, foldlM_nil, pure_bind, Bool.false_eq_true]
      exact ih _ _ _ hm

/-- With four passes of `redo` for each instruction the function is split exactly at the instructions other than
    `ret` and `nop` that come right after a `ret` and at least one `nop`. -/
theorem disassembleCrtBeginFunctions_splits (fuel passes : Nat) (insns : List Insn) (splitRanges : IntervalTree) :
    (do return (← insns.foldlM (crtRedo fuel (passes + 4)) (.none, splitRanges)).2) =
      (functionEnds [] insns).foldlM (fun t address => do return (← t.splitAt fuel address).2) splitRanges := by
  rw [funext₂ (crtRedo_eq_crtSplit fuel passes)]
  exact foldlM_crtSplit fuel insns [] .none splitRanges modeOf_nil

end Egalito
