/-
Readers that also change a state.
-/
import Egalito.Lib.Stream

namespace Lib

abbrev Builder (ε σ : Type) := StateT σ (Reader ε)

variable {ε σ τ α β : Type} {f : σ → τ}

namespace Builder

def fault (e : ε) : Builder ε σ α := fun _ _ => .error e

/-- The results of `n` rounds. -/
def times : Nat → Builder ε σ α → Builder ε σ (List α)
  | 0, _ => pure []
  | n + 1, m => do
    let v ← m
    let vs ← times n m
    pure (v :: vs)

def forEach : List α → (α → Builder ε σ Unit) → Builder ε σ Unit
  | [], _ => pure ()
  | a :: l, m => do
    m a
    forEach l m

variable {s s' : σ} {i i' : Input}

theorem bind_ok {m} {k : α → Builder ε σ β} {b : β} (h : (m >>= k) s i = .ok ((b, s'), i')) :
    ∃ a s1 i1, m s i = .ok ((a, s1), i1) ∧ k a s1 i1 = .ok ((b, s'), i') := by
  obtain ⟨⟨⟨a, s1⟩, i1⟩, h1, h2⟩ := bind_iff.1 h
  exact ⟨a, s1, i1, h1, h2⟩

theorem lift_ok {r : Reader ε α} {a : α} (h : (r : Builder ε σ α) s i = .ok ((a, s'), i')) :
    r i = .ok (a, i') ∧ s' = s := by
  obtain ⟨⟨b, i1⟩, h1, h2⟩ := bind_iff.1 h
  cases h2
  exact ⟨h1, rfl⟩

end Builder

def Keeps (f : σ → τ) (m : Builder ε σ α) : Prop := ∀ s i v s' i', m s i = .ok ((v, s'), i') → f s' = f s

theorem Keeps.pure (a : α) : Keeps f (pure a : Builder ε σ α) := by
  rintro s i v s' i' h
  cases h
  rfl

theorem Keeps.bind {m} {k : α → Builder ε σ β} (hm : Keeps f m) (hk : ∀ a, Keeps f (k a)) : Keeps f (m >>= k) := by
  intro s i v s' i' h
  obtain ⟨a, s1, i1, h1, h2⟩ := Builder.bind_ok h
  exact (hk a s1 i1 v s' i' h2).trans (hm s i a s1 i1 h1)

theorem Keeps.fault (e : ε) : Keeps f (Builder.fault e : Builder ε σ α) := by
  intro s i v s' i' h
  cases h

theorem Keeps.lift (r : Reader ε α) : Keeps f (r : Builder ε σ α) := by
  intro s i v s' i' h
  rw [(Builder.lift_ok h).2]

theorem Keeps.get : Keeps f (get : Builder ε σ σ) := by
  intro s i v s' i' h
  cases h
  rfl

theorem Keeps.modify {g} (hg : ∀ s, f (g s) = f s) : Keeps f (modify g : Builder ε σ Unit) := by
  intro s i v s' i' h
  cases h
  exact hg s

theorem Keeps.times {m : Builder ε σ α} (hm : Keeps f m) : ∀ n, Keeps f (Builder.times n m)
  | 0 => Keeps.pure []
  | n + 1 => hm.bind fun v => (Keeps.times hm n).bind fun vs => Keeps.pure (v :: vs)

theorem Keeps.forEach {m : α → Builder ε σ Unit} (hm : ∀ a, Keeps f (m a)) : ∀ l, Keeps f (Builder.forEach l m)
  | [] => Keeps.pure ()
  | a :: l => (hm a).bind fun _ => Keeps.forEach hm l

end Lib
