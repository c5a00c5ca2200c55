/-
What the position half of the mutator leaves alone: the chunk tree, and all but the computed sizes.
-/
import Egalito.Operation.Mutator

namespace Egalito

open Lib

variable {S : Type} {h h' h'' : Heap S} {x y c : Ref}

namespace Heap

/-- The two heaps differ in positions only. -/
def SameTree (h h' : Heap S) : Prop := ∃ p, h' = { h with position := p }

theorem SameTree.refl (h : Heap S) : SameTree h h := ⟨h.position, rfl⟩

theorem SameTree.trans (h1 : SameTree h h') (h2 : SameTree h' h'') : SameTree h h'' := by
  obtain ⟨p, rfl⟩ := h1
  obtain ⟨q, rfl⟩ := h2
  exact ⟨q, rfl⟩

theorem sameTree_setPosition (h : Heap S) (x : Ref) (p) : SameTree h (h.setPosition x p) :=
  ⟨_, rfl⟩

/-! ## Addresses -/

section
variable [Sized S] {address : Heap S → Ref → Except Failure (Address × Heap S)}

/-- An address function that keeps the tree. -/
def KeepsTree (address : Heap S → Ref → Except Failure (Address × Heap S)) : Prop :=
  ∀ h x a h', address h x = .ok (a, h') → SameTree h h'

variable {a : Address}

section

variable (ha : KeepsTree address)
include ha

theorem baseGet_sameTree {b} (hg : baseGet address h x b = .ok (a, h')) : SameTree h h' := by
  cases b with
  | absolute a' => cases hg; exact .refl h
  | offset o =>
    simp only [baseGet] at hg
    cases hp : h.parent x with
    | none => rw [hp] at hg; cases hg; exact .refl h
    | some c =>
      rw [hp] at hg
      obtain ⟨⟨a1, h1⟩, hc, hr⟩ := bind_iff.1 hg
      cases hr
      exact ha _ _ _ _ hc
  | subsequent y =>
    obtain ⟨⟨a1, h1⟩, hc, hr⟩ := bind_iff.1 hg
    cases hr
    exact ha _ _ _ _ hc

theorem baseRecalculate_sameTree {b b'} (hg : baseRecalculate address h x b = .ok (b', h')) : SameTree h h' := by
  cases b with
  | absolute a' => cases hg; exact .refl h
  | subsequent y => cases hg; exact .refl h
  | offset o =>
    simp only [baseRecalculate] at hg
    cases hp : h.parent x with
    | none => rw [hp] at hg; cases hg; exact .refl h
    | some c =>
      cases hq : h.prev x with
      | none => rw [hp, hq] at hg; cases hg; exact .refl h
      | some y =>
        rw [hp, hq] at hg
        obtain ⟨⟨a1, h1⟩, hy, hg⟩ := bind_iff.1 hg
        obtain ⟨⟨a2, h2⟩, hc, hr⟩ := bind_iff.1 hg
        cases hr
        exact (ha _ _ _ _ hy).trans (ha _ _ _ _ hc)

theorem recalculateOf_sameTree {p p'} (hg : recalculateOf address h x p = .ok (p', h')) : SameTree h h' := by
  obtain ⟨⟨b, h1⟩, hb, hg⟩ := bind_iff.1 hg
  have h01 := baseRecalculate_sameTree ha hb
  cases hd : p.decorator with
  | plain => simp only [hd] at hg; cases hg; exact h01
  | tracked g => simp only [hd] at hg; cases hg; exact h01
  | cached c' =>
    simp only [hd] at hg
    obtain ⟨⟨a, h2⟩, h12, hr⟩ := bind_iff.1 hg
    cases hr
    exact h01.trans (baseGet_sameTree ha h12)
  | generational g authority c' =>
    simp only [hd] at hg
    obtain ⟨⟨a, h2⟩, h12, hr⟩ := bind_iff.1 hg
    cases hr
    exact h01.trans (baseGet_sameTree ha h12)

theorem refresh_sameTree {p authority} (hg : refresh address h x p authority = .ok (a, h')) : SameTree h h' := by
  obtain ⟨⟨q, h1⟩, hq, hg⟩ := bind_iff.1 hg
  obtain ⟨g, -, hg⟩ := bind_iff.1 hg
  have h01 := recalculateOf_sameTree ha hq
  cases hd : q.decorator with
  | plain => simp only [hd] at hg; cases hg
  | tracked g => simp only [hd] at hg; cases hg
  | cached c' => simp only [hd] at hg; cases hg
  | generational g' authority' c' =>
    simp only [hd] at hg
    cases hg
    exact h01.trans (sameTree_setPosition _ _ _)

theorem getOf_sameTree {p} (hg : getOf address h x p = .ok (a, h')) : SameTree h h' := by
  unfold getOf at hg
  split at hg
  · exact baseGet_sameTree ha hg
  · exact baseGet_sameTree ha hg
  · cases hg; exact .refl h
  · cases hg; exact .refl h
  · obtain ⟨g, -, hg⟩ := bind_iff.1 hg
    split at hg
    · cases hg; exact .refl h
    · exact refresh_sameTree ha hg

end

theorem getAddressFuel_sameTree : ∀ n, KeepsTree (getAddressFuel (S := S) n)
  | 0 => by intro h x a h' hg; cases hg
  | n + 1 => by
    intro h x a h' hg
    simp only [getAddressFuel] at hg
    split at hg
    · cases hg
    · exact getOf_sameTree (getAddressFuel_sameTree n) hg

theorem getAddress_sameTree : KeepsTree (getAddress (S := S)) := by
  intro h x a h' hg
  exact getAddressFuel_sameTree _ h x a h' hg

theorem recalculate_sameTree (hg : h.recalculate x = .ok h') : SameTree h h' := by
  unfold recalculate at hg
  split at hg
  · cases hg
  · obtain ⟨⟨q, h1⟩, hq, hr⟩ := bind_iff.1 hg
    cases hr
    exact (recalculateOf_sameTree getAddress_sameTree hq).trans (sameTree_setPosition _ _ _)

end

end Heap

open Heap

namespace Mutator

theorem setGenerations_sameTree : ∀ (h : Heap S) (cs : List Ref) (g : Nat), SameTree h (setGenerations h cs g)
  | h, [], _ => .refl h
  | _, _ :: cs, g => (sameTree_setPosition _ _ _).trans (setGenerations_sameTree _ cs (g + 1))

theorem updateAuthority_sameTree (hg : updateAuthority h x = .ok h') : SameTree h h' := by
  unfold updateAuthority at hg
  split at hg
  · cases hg
  · obtain ⟨a, -, hr⟩ := bind_iff.1 hg
    cases hr
    exact sameTree_setPosition _ _ _

theorem updateAuthorityHelper_sameTree : ∀ n {h h' : Heap S} {x : Ref},
    updateAuthorityHelper n h x = .ok h' → SameTree h h'
  | 0, _, _, _, hg => by cases hg
  | n + 1, h, h', x, hg => by
    obtain ⟨h1, h01, hg⟩ := bind_iff.1 hg
    exact foldlM_keeps (I := SameTree h) _ (updateAuthority_sameTree h01)
      (fun y _ s s' hs hy => hs.trans (updateAuthorityHelper_sameTree n hy)) hg

theorem updateGeneration_sameTree {mode} (hg : updateGenerationCounts mode h x = .ok h') : SameTree h h' := by
  unfold updateGenerationCounts at hg
  split at hg
  · obtain ⟨cs, -, hg⟩ := bind_iff.1 hg
    exact (setGenerations_sameTree _ _ _).trans (updateAuthorityHelper_sameTree _ hg)
  · cases hg; exact .refl h

end Mutator

/-! ## Making positions -/

section
variable [Sized S] {mode : Mode}

theorem newGenerational_sameTree {b p} (hg : Mode.newGenerational h x b = .ok (p, h')) : SameTree h h' := by
  obtain ⟨a, -, hg⟩ := bind_iff.1 hg
  exact recalculateOf_sameTree getAddress_sameTree hg

variable {o : Address}

theorem newGenerationalOffset_sameTree {p} (hg : Mode.newGenerationalOffset h x o = .ok (p, h')) : SameTree h h' := by
  obtain ⟨⟨q, h1⟩, hq, hr⟩ := bind_iff.1 hg
  cases hr
  exact newGenerational_sameTree hq

theorem makePosition_sameTree {previous p} (hg : mode.makePosition h previous x o = .ok (p, h')) : SameTree h h' := by
  cases previous with
  | none =>
    simp only [Mode.makePosition] at hg
    split at hg
    · exact newGenerationalOffset_sameTree hg
    · cases hg; exact .refl h
  | some y =>
    cases mode with
    | generationOffset => exact newGenerationalOffset_sameTree hg
    | generationSubsequent => exact newGenerational_sameTree hg
    | cachedOffset =>
      obtain ⟨⟨q, h1⟩, hq, hg⟩ := bind_iff.1 hg
      exact (recalculateOf_sameTree getAddress_sameTree hq).trans (recalculateOf_sameTree getAddress_sameTree hg)
    | cachedSubsequent => exact recalculateOf_sameTree getAddress_sameTree hg
    | offset => cases hg; exact .refl h
    | subsequent => cases hg; exact .refl h

namespace Mutator

theorem positionAt_sameTree {i p} (hg : positionAt mode h c x i = .ok (p, h')) : SameTree h h' := by
  cases i with
  | zero =>
    rw [positionAt] at hg
    exact makePosition_sameTree hg
  | succ i =>
    simp only [positionAt] at hg
    split at hg
    · cases hg
    · obtain ⟨⟨a, h1⟩, ha, hg⟩ := bind_iff.1 hg
      obtain ⟨⟨b, h2⟩, hb, hg⟩ := bind_iff.1 hg
      exact ((getAddress_sameTree _ _ _ _ ha).trans (getAddress_sameTree _ _ _ _ hb)).trans (makePosition_sameTree hg)

theorem makePositionFor_sameTree (hg : makePositionFor mode h c x = .ok h') : SameTree h h' := by
  unfold makePositionFor at hg
  split at hg
  · cases hg
  · obtain ⟨⟨p, h1⟩, hp, hr⟩ := bind_iff.1 hg
    cases hr
    exact (positionAt_sameTree hp).trans (sameTree_setPosition _ _ _)

theorem ensurePosition_sameTree (hg : ensurePosition mode h c x = .ok h') : SameTree h h' := by
  unfold ensurePosition at hg
  split at hg
  · exact makePositionFor_sameTree hg
  · cases hg; exact .refl h

theorem renewNextChild_sameTree (hg : renewNextChild mode h x = .ok h') : SameTree h h' := by
  unfold renewNextChild at hg
  split at hg
  · cases hg; exact .refl h
  · split at hg
    · cases hg; exact .refl h
    · exact (sameTree_setPosition _ _ _).trans (makePositionFor_sameTree hg)

theorem demoteFirst_sameTree (hg : demoteFirst mode h y x = .ok h') : SameTree h h' := by
  unfold demoteFirst at hg
  split at hg
  · obtain ⟨⟨q, h1⟩, hq, hr⟩ := bind_iff.1 hg
    cases hr
    exact ((sameTree_setPosition _ _ _).trans (makePosition_sameTree hq)).trans (sameTree_setPosition _ _ _)
  · cases hg; exact .refl h

theorem updatePositionHelper_sameTree : ∀ n {h h' : Heap S} {x : Ref},
    updatePositionHelper n h x = .ok h' → SameTree h h'
  | 0, _, _, _, hg => by cases hg
  | n + 1, h, h', x, hg => by
    simp only [updatePositionHelper] at hg
    split at hg
    · cases hg; exact .refl h
    · obtain ⟨h1, h01, hg⟩ := bind_iff.1 hg
      exact foldlM_keeps (I := SameTree h) _ (recalculate_sameTree h01)
        (fun y _ s s' hs hy => hs.trans (updatePositionHelper_sameTree n hy)) hg

theorem updatePositions_sameTree (hg : updatePositions mode h c = .ok h') : SameTree h h' := by
  unfold updatePositions at hg
  split at hg
  · obtain ⟨cs, -, hg⟩ := bind_iff.1 hg
    refine foldlM_keeps (I := SameTree h) _ (.refl h) (fun y _ s s' hs hy => hs.trans ?_) hg
    unfold updateIfAbsolute at hy
    split at hy
    · exact updatePositionHelper_sameTree _ hy
    · cases hy; exact .refl s
  · cases hg; exact .refl h

end Mutator

end

end Egalito
