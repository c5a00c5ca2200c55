/-
Runs of a machine whose steps may fail: the states reached by steps that are all allowed, and the
invariant rule for them; `while` loops, and what they end with.
-/
import Egalito.Lib.Except

namespace Lib

variable {ε σ α : Type} {step : σ → α → Except ε σ} {allowed : σ → α → Prop} {s₀ s : σ}

/-- The states reached from `s₀` by steps that were allowed when they were taken and returned. -/
inductive Reach (step : σ → α → Except ε σ) (allowed : σ → α → Prop) (s₀ : σ) : σ → Prop
  | start : Reach step allowed s₀ s₀
  | next {s s' : σ} {a : α} (hs : Reach step allowed s₀ s) (ha : allowed s a) (h : step s a = .ok s') :
      Reach step allowed s₀ s'

theorem Reach.invariant {I : σ → Prop} (hr : Reach step allowed s₀ s) (h0 : I s₀)
    (hs : ∀ s a s', I s → allowed s a → step s a = .ok s' → I s') : I s := by
  induction hr with
  | start => exact h0
  | next _ ha h ih => exact hs _ _ _ ih ha h

/-! ## Loops -/

variable {running : σ → Bool} {body : σ → Except ε σ} {e : ε}

/-- The state after so many rounds of a loop, or after its last one. -/
def rounds (running : σ → Bool) (body : σ → Except ε σ) : Nat → σ → Except ε σ
  | 0, s => .ok s
  | k + 1, s => if running s then body s >>= rounds running body k else .ok s

/-- The loop, which ends with the error if the fuel runs out. -/
def loop (running : σ → Bool) (body : σ → Except ε σ) (e : ε) (fuel : Nat) (s : σ) : Except ε σ :=
  rounds running body fuel s >>= fun s => if running s then .error e else .ok s

theorem loop_done (h : running s = false) (fuel : Nat) : loop running body e fuel s = .ok s := by
  have hr : rounds running body fuel s = .ok s := by cases fuel <;> simp [rounds, h]
  rw [loop, ok_bind hr, h]
  rfl

theorem loop_next {s'} (h : running s = true) (hb : body s = .ok s') (fuel : Nat) :
    loop running body e (fuel + 1) s = loop running body e fuel s' := by
  rw [loop, rounds, if_pos h, ok_bind hb]
  rfl

/-- A loop that keeps an invariant under which it goes on never ends. -/
theorem loop_forever {I : σ → Prop} (hI : ∀ s, I s → running s = true ∧ ∃ s', body s = .ok s' ∧ I s') :
    ∀ (fuel : Nat) {s : σ}, I s → loop running body e fuel s = .error e
  | 0, s, h => by
    rw [loop, rounds]
    exact if_pos (hI s h).1
  | fuel + 1, s, h => by
    obtain ⟨hr, s', hb, h'⟩ := hI s h
    rw [loop_next hr hb, loop_forever hI fuel h']

/-- The loop ends, and with this state. -/
def Ends (running : σ → Bool) (body : σ → Except ε σ) (e : ε) (s s' : σ) : Prop :=
  ∃ fuel, loop running body e fuel s = .ok s'

theorem ends_done {s'} (h : running s = false) : Ends running body e s s' ↔ s = s' := by
  simp only [Ends, loop_done h, Except.ok.injEq, exists_const]

theorem ends_next {s1 s'} (h : running s = true) (hb : body s = .ok s1) :
    Ends running body e s s' ↔ Ends running body e s1 s' := by
  constructor
  · rintro ⟨fuel, hs⟩
    cases fuel with
    | zero =>
      rw [loop, rounds, ok_bind rfl, if_pos h] at hs
      cases hs
    | succ fuel => exact ⟨fuel, (loop_next h hb fuel).symm.trans hs⟩
  · rintro ⟨fuel, hs⟩
    exact ⟨fuel + 1, (loop_next h hb fuel).trans hs⟩

end Lib
