/-
Rules for programs in `Except`: the inversion of a bind, and invariants of `foldlM` that give
both that the fold returns and what holds of the result.
-/
import Mathlib.Data.List.Basic

namespace Lib

open List

variable {ε α β σ : Type}

variable {f : α → Except ε β} {x : Except ε α}

theorem bind_iff {b} : (x >>= f) = .ok b ↔ ∃ a, x = .ok a ∧ f a = .ok b := by
  cases x with
  | error e => simp [bind, Except.bind]
  | ok a => simp [bind, Except.bind]

theorem ok_bind {a} (h : x = .ok a) (f : α → Except ε β) : (x >>= f) = f a := by
  rw [h]; rfl

theorem error_bind {e} (h : x = .error e) (f : α → Except ε β) : (x >>= f) = .error e := by
  rw [h]; rfl

theorem mapM_getElem? : ∀ {l : List α} {l' : List β}, l.mapM f = .ok l' →
    ∀ {i : Nat} {b : β}, l'[i]? = some b → ∃ a, l[i]? = some a ∧ f a = .ok b
  | [], l', h, i, b, hi => by
    cases h
    simp at hi
  | a :: l, l', h, i, b, hi => by
    rw [mapM_cons] at h
    obtain ⟨b1, hb1, h1⟩ := bind_iff.1 h
    obtain ⟨bs, hb, h2⟩ := bind_iff.1 h1
    cases h2
    cases i with
    | zero =>
      cases hi
      exact ⟨a, rfl, hb1⟩
    | succ i => exact mapM_getElem? hb hi

theorem mapM_mem : ∀ {l : List α} {l' : List β}, l.mapM f = .ok l' →
    (∀ a ∈ l, ∃ b ∈ l', f a = .ok b) ∧ ∀ b ∈ l', ∃ a ∈ l, f a = .ok b
  | [], l', h => by
    cases h
    simp
  | a :: l, l', h => by
    rw [mapM_cons] at h
    obtain ⟨b, hb, h1⟩ := bind_iff.1 h
    obtain ⟨bs, hs, h2⟩ := bind_iff.1 h1
    cases h2
    obtain ⟨hl, hl'⟩ := mapM_mem hs
    constructor
    · refine forall_mem_cons.2 ⟨⟨b, mem_cons_self, hb⟩, fun a' ha' => ?_⟩
      obtain ⟨b', hb', hf⟩ := hl a' ha'
      exact ⟨b', mem_cons_of_mem _ hb', hf⟩
    · refine forall_mem_cons.2 ⟨⟨a, mem_cons_self, hb⟩, fun b' hb' => ?_⟩
      obtain ⟨a', ha', hf⟩ := hl' b' hb'
      exact ⟨a', mem_cons_of_mem _ ha', hf⟩

theorem mapM_ok {g : α → β} : ∀ {l : List α}, (∀ a ∈ l, f a = .ok (g a)) → l.mapM f = .ok (l.map g)
  | [], _ => rfl
  | a :: l, h => by
    rw [mapM_cons, ok_bind (h a (by simp)), ok_bind (mapM_ok fun b hb => h b (by simp [hb]))]
    rfl

/-- A fold whose steps all return keeps an invariant indexed by the processed list. -/
theorem foldlM_ok {f : σ → α → Except ε σ} {I : List α → σ → Prop} : ∀ l done s, I done s →
      (∀ pre x post, l = pre ++ x :: post → ∀ s, I (done ++ pre) s → ∃ s', f s x = .ok s' ∧ I (done ++ pre ++ [x]) s') →
      ∃ s', l.foldlM f s = .ok s' ∧ I (done ++ l) s'
  | [], done, s, hs, _ => ⟨s, rfl, by simpa using hs⟩
  | x :: l, done, s, hs, hp => by
    obtain ⟨s1, h1, hs1⟩ := hp [] x l rfl s (by simpa using hs)
    obtain ⟨s2, h2, hs2⟩ := foldlM_ok l (done ++ [x]) s1 (by simpa using hs1) (fun pre y post hl s hI => by
      have := hp (x :: pre) y post (by rw [hl]; rfl) s (by simpa using hI)
      simpa using this)
    exact ⟨s2, by rw [foldlM_cons, ok_bind h1, h2], by simpa using hs2⟩

theorem foldlM_error {f : σ → α → Except ε σ} {I : σ → Prop} : ∀ (l : List α) (s : σ), I s →
      (∀ x ∈ l, ∀ s, I s → (∃ s', f s x = .ok s' ∧ I s') ∨ ∃ e, f s x = .error e) →
      (∃ x ∈ l, ∀ s, I s → ∃ e, f s x = .error e) → ∃ e, l.foldlM f s = .error e
  | [], _, _, _, hb => by simp at hb
  | x :: l, s, hs, hp, hb => by
    rcases hp x (by simp) s hs with ⟨s1, h1, hs1⟩ | ⟨e, he⟩
    · obtain ⟨y, hy, hf⟩ := hb
      rw [mem_cons] at hy
      rcases hy with rfl | hy
      · obtain ⟨e, he⟩ := hf s hs
        rw [he] at h1
        cases h1
      · obtain ⟨e, he⟩ := foldlM_error l s1 hs1 (fun z hz => hp z (by simp [hz])) ⟨y, hy, hf⟩
        exact ⟨e, by rw [foldlM_cons, ok_bind h1, he]⟩
    · exact ⟨e, by rw [foldlM_cons, error_bind he]⟩

/-- What every returning step keeps, a fold that returns keeps. -/
theorem foldlM_keeps {f : σ → α → Except ε σ} {I : σ → Prop} :
    ∀ (l : List α) {s s' : σ}, I s → (∀ x ∈ l, ∀ s s', I s → f s x = .ok s' → I s') → l.foldlM f s = .ok s' → I s'
  | [], _, _, hs, _, h => by cases h; exact hs
  | x :: l, _, _, hs, hp, h => by
    rw [foldlM_cons, bind_iff] at h
    obtain ⟨s1, h1, h2⟩ := h
    exact foldlM_keeps l (hp x (by simp) _ s1 hs h1) (fun y hy => hp y (by simp [hy])) h2

end Lib
