/-
Steps done in another order: those that are in conflict keep theirs.

`foldl_eq_of_pairwise` is the result: two lists with the same members, in which all pairs in conflict have the same
order, lead from one state to the same state.
-/
import Mathlib.Data.List.Perm.Basic
import Mathlib.Order.Basic

namespace Lib

open List

section

variable {α σ : Type} {f : σ → α → σ} {R : α → α → Prop}

theorem foldl_comm {a : α} {l : List α} (h : ∀ b ∈ l, ∀ s, f (f s a) b = f (f s b) a) (s) :
    l.foldl f (f s a) = f (l.foldl f s) a :=
  foldl_rel (r := fun s s' => s = f s' a) rfl fun b hb s s' hs => by rw [hs, h b hb]

/-- The first step of the new order is moved to the front of the old one, past steps that come after it in the new. -/
theorem foldl_eq_of_pairwise [Preorder α] : ∀ {l l' : List α}, l' ~ l → l.Pairwise (· < ·) →
    l'.Pairwise (fun a b => R a b → a < b) → (∀ a ∈ l, ∀ b ∈ l, ¬ R a b → ∀ s, f (f s a) b = f (f s b) a) →
    ∀ s, l'.foldl f s = l.foldl f s
  | l, [], hp, _, _, _, s => by rw [nil_perm.1 hp]
  | l, a :: l', hp, hl, ho, hm, s => by
    obtain ⟨pre, post, rfl⟩ := append_of_mem (hp.subset mem_cons_self)
    have hp' := (hp.trans perm_middle).cons_inv
    obtain ⟨hn, ho⟩ := pairwise_cons.1 ho
    have hs : (pre ++ post).Sublist (pre ++ a :: post) := (sublist_cons_self a post).append_left pre
    have hv : ∀ b ∈ pre, ∀ s, f (f s a) b = f (f s b) a := by
      intro b hb
      have hlt := (pairwise_append.1 hl).2.2 b hb a mem_cons_self
      refine hm a (by simp) b (by simp [hb]) fun hR => lt_asymm hlt ?_
      exact hn b (hp'.symm.subset (mem_append_left post hb)) hR
    rw [foldl_cons, foldl_eq_of_pairwise hp' (hl.sublist hs) ho
      fun b hb c hc => hm b (hs.subset hb) c (hs.subset hc), foldl_append, foldl_append, foldl_comm hv, foldl_cons]

end

section

variable {ρ V : Type} {r w r' w' : List ρ} {f g : (ρ → V) → ρ → V}

/-- Only what is written changes, to values that are made of what is read and of what was there. -/
structure Obeys (r w : List ρ) (f : (ρ → V) → ρ → V) : Prop where
  frame : ∀ s x, x ∉ w → f s x = s x
  uses : ∀ s s', (∀ x, x ∈ r ∨ x ∈ w → s x = s' x) → ∀ x ∈ w, f s x = f s' x

theorem Obeys.comm (hf : Obeys r w f) (hg : Obeys r' w' g) (hfg : ∀ x ∈ w, ¬ (x ∈ r' ∨ x ∈ w'))
    (hgf : ∀ x ∈ w', ¬ (x ∈ r ∨ x ∈ w)) (s : ρ → V) : f (g s) = g (f s) := by
  funext x
  by_cases hx : x ∈ w
  · rw [hg.frame _ x fun h => hfg x hx (.inr h)]
    exact hf.uses _ _ (fun y hy => hg.frame s y fun h => hgf y h hy) x hx
  · rw [hf.frame _ x hx]
    by_cases hx' : x ∈ w'
    · exact hg.uses _ _ (fun y hy => (hf.frame s y fun h => hfg y h hy).symm) x hx'
    · rw [hg.frame s x hx', hg.frame _ x hx', hf.frame s x hx]

end

end Lib
