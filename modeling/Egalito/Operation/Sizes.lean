/-
Sizes of the ancestors: after a splice the loop over the parents passes the difference up, chunk by chunk.

The loop is followed up the tree by induction on the kinds, which bounds its length.
-/
import Egalito.Operation.Links

namespace Egalito

open Lib Heap Mutator
open Function (update update_of_ne update_self)
open List

variable {S : Type} {h h' : Heap S} {c d x : Ref} {add : Int}

/-- The chunk keeps a `ComputedSize`. A function list has size 0 whatever its children are. -/
def Tracked (h : Heap S) (c : Ref) : Prop := h.kind c = .block ∨ h.kind c = .function

/-- Every parent pointer from `c` upwards is that of a member of the parent's list, so a removed chunk is not rooted. -/
inductive Rooted (h : Heap S) : Ref → Prop
  | top {c : Ref} (hp : h.parent c = none) : Rooted h c
  | child {c d : Ref} (hp : h.parent c = some d) (hc : c ∈ h.children d) (hd : Rooted h d) : Rooted h c

/-- The levels from a chunk of this kind up to the module. -/
def Kind.height : Kind → Nat
  | .instruction => 5
  | .block => 4
  | .function => 3
  | .functionList => 2
  | .module => 1

theorem Kind.height_child {k k' : Kind} (hk : k.childType = some k') : k'.height = k.height + 1 := by
  cases k <;> cases hk <;> rfl

theorem Kind.exists_succ {k : Kind} {n} (hn : k.height ≤ n) : ∃ m, n = m + 1 :=
  Nat.exists_eq_add_one.2 (Nat.lt_of_lt_of_le (by cases k <;> decide) hn)

theorem Linkage.detached (hl : Linkage h) (hp : h.parent c = none) : Detached h c := by
  intro d hd
  rw [(hl.linked d).parent c hd] at hp
  cases hp

/-! ## Changing one size -/

/-- The two heaps differ in computed sizes only. -/
def SameButSizes (h h' : Heap S) : Prop := ∃ s, h' = { h with computedSize := s }

theorem SameButSizes.trans {h''} (h1 : SameButSizes h h') (h2 : SameButSizes h' h'') : SameButSizes h h'' := by
  obtain ⟨s, rfl⟩ := h1
  obtain ⟨t, rfl⟩ := h2
  exact ⟨t, rfl⟩

theorem Linkage.sameButSizes (hl : Linkage h) (hs : SameButSizes h h') : Linkage h' := by
  obtain ⟨s, rfl⟩ := hs
  exact ⟨fun c => ⟨(hl.linked c).nodup, (hl.linked c).linked, (hl.linked c).parent, (hl.linked c).kind⟩, hl.allocated⟩

theorem not_tracked_of_module (hs : SameButSizes h h') (hm : h.isModule c) : ¬ Tracked h' c := by
  obtain ⟨s, rfl⟩ := hs
  have hk : h.kind c = .module := by simpa [isModule] using hm
  rintro (ht | ht) <;> rw [show _ = h.kind c from rfl, hk] at ht <;> cases ht

theorem sum_map_change {f g} (hg : ∀ y, y ≠ c → g y = f y) (hc : g c = f c + add) :
    ∀ {l : List Ref}, l.Nodup → (l.map g).sum = (l.map f).sum + if c ∈ l then add else 0
  | [], _ => by simp
  | y :: l, hnd => by
    rw [nodup_cons] at hnd
    rw [map_cons, map_cons, sum_cons, sum_cons, sum_map_change hg hc hnd.2]
    by_cases hy : y = c
    · subst hy
      rw [hc, if_neg hnd.1, if_pos (by simp)]
      ring
    · rw [hg y hy]
      by_cases hl : c ∈ l
      · rw [if_pos hl, if_pos (by simp [hl])]
        ring
      · rw [if_neg hl, if_neg (by rw [mem_cons, not_or]; exact ⟨fun e => hy e.symm, hl⟩)]
        ring

section
variable [Sized S]

def total (h : Heap S) (c : Ref) : Int := ((h.children c).map fun x => (h.getSize x : Int)).sum

theorem total_nonneg (h : Heap S) (c : Ref) : 0 ≤ total h c :=
  sum_nonneg (by simp)

/-- Every tracked size is the sum over the children, except that `c` is short by `add`. -/
def Owes (h : Heap S) (c : Ref) (add : Int) : Prop :=
  ∀ e, Tracked h e → (h.computedSize e : Int) + (if e = c then add else 0) = total h e

/-- Every tracked size is the sum over the children. -/
def Balanced (h : Heap S) : Prop := ∀ e, Tracked h e → (h.computedSize e : Int) = total h e

theorem owes_zero : Owes h c 0 ↔ Balanced h := by simp [Owes, Balanced]

theorem Owes.of_not_tracked (ho : Owes h c add) (hc : ¬ Tracked h c) : Balanced h := by
  intro e he
  have := ho e he
  have hec : e ≠ c := by
    rintro rfl
    exact hc he
  rwa [if_neg hec, add_zero] at this

/-- What one round of a size loop does: the debt of `c` is settled and passed on to its parent. -/
structure Settles (h h' : Heap S) (c : Ref) (add : Int) : Prop where
  same : SameButSizes h h'
  parent : ∀ d, c ∈ h.children d → Owes h' d add
  top : Detached h c → Balanced h'

theorem getSize_of_tracked (hc : Tracked h c) : h.getSize c = h.computedSize c := by
  unfold getSize
  rcases hc with hc | hc <;> rw [hc]

theorem getSize_setSize_of_ne {n} (hx : x ≠ c) :
    Heap.getSize { h with computedSize := update h.computedSize c n } x = h.getSize x := by
  unfold getSize
  dsimp only
  rw [update_of_ne hx]

theorem total_setSize (hl : Linkage h) (hc : Tracked h c) {n : Nat} (hn : (n : Int) = h.computedSize c + add) (e : Ref) :
    total { h with computedSize := update h.computedSize c n } e =
      total h e + if c ∈ h.children e then add else 0 := by
  refine sum_map_change (fun y hy => by rw [getSize_setSize_of_ne hy]) ?_ (hl.linked e).nodup
  rw [getSize_of_tracked hc, getSize_of_tracked (h := { h with computedSize := update h.computedSize c n }) hc, ← hn]
  exact congrArg _ (update_self ..)

theorem addToSize_settles (hl : Linkage h) (hk : h.kind c ≠ .instruction) (ho : Owes h c add) :
    ∃ h', h.addToSize c add = .ok h' ∧ Settles h h' c add := by
  by_cases hc : Tracked h c
  · have hp := ho c hc
    rw [if_pos rfl] at hp
    have hnn : 0 ≤ (h.computedSize c : Int) + add := by rw [hp]; exact total_nonneg h c
    have hr : h.addToSize c add =
        .ok { h with computedSize := update h.computedSize c ((h.computedSize c : Int) + add).toNat } := by
      unfold addToSize
      rcases hc with hc | hc <;> rw [hc] <;> exact if_pos hnn
    have hn : ((((h.computedSize c : Int) + add).toNat : Nat) : Int) = h.computedSize c + add :=
      Int.toNat_of_nonneg hnn
    have hs : ∀ e, (update h.computedSize c ((h.computedSize c : Int) + add).toNat e : Int) =
        h.computedSize e + if e = c then add else 0 := by
      intro e
      by_cases hec : e = c
      · rw [hec, if_pos rfl, update_self, hn]
      · rw [if_neg hec, add_zero, update_of_ne hec]
    refine ⟨_, hr, ⟨_, rfl⟩, ?_, ?_⟩
    · intro d hd e he
      rw [total_setSize hl hc hn]
      rw [hs, ho e he]
      by_cases hed : e = d
      · subst hed
        rw [if_pos rfl, if_pos hd]
      · rw [if_neg hed, if_neg fun hce => hed (hl.eq_of_mem hce hd)]
    · intro hde e he
      rw [total_setSize hl hc hn]
      rw [hs, ho e he, if_neg (hde e), add_zero]
  · -- untracked: nothing is owed here, nor further up
    have hb := ho.of_not_tracked hc
    have hr : h.addToSize c add = .ok h := by
      unfold addToSize
      unfold Tracked at hc
      cases hkc : h.kind c <;> simp_all
    refine ⟨h, hr, ⟨h.computedSize, rfl⟩, ?_, fun _ => hb⟩
    intro d hd e he
    have ht : ¬ Tracked h d := by
      have hkd := (hl.linked d).kind c hd
      unfold Tracked at hc ⊢
      cases hk' : h.kind d <;> simp_all [Kind.childType]
    have hed : e ≠ d := by
      rintro rfl
      exact ht he
    rw [hb e he, if_neg hed, add_zero]

/-- A chunk whose size is 0 owes nothing that a removal would have to subtract. -/
theorem subtract_settles (hl : Linkage h) (hk : h.kind c ≠ .instruction) {removed : Nat} (ho : Owes h c (-removed)) :
    ∃ h', (if h.getSize c ≠ 0 then h.addToSize c (-removed) else .ok h) = .ok h' ∧ Settles h h' c (-removed) := by
  by_cases hz : h.getSize c = 0
  · rw [if_neg (fun hn => hn hz)]
    by_cases hc : Tracked h c
    · have hp := ho c hc
      rw [if_pos rfl, ← getSize_of_tracked hc, hz] at hp
      have ht := total_nonneg h c
      have hr : (removed : Int) = 0 := by omega
      rw [hr, neg_zero] at ho ⊢
      have hb := owes_zero.1 ho
      exact ⟨h, rfl, ⟨h.computedSize, rfl⟩, fun d _ => owes_zero.2 hb, fun _ => hb⟩
    · obtain ⟨h', hrn, hs⟩ := addToSize_settles hl hk ho
      have hi : h.addToSize c (-removed) = .ok h := by
        unfold addToSize
        unfold Tracked at hc
        cases hkc : h.kind c <;> simp_all
      rw [hi] at hrn
      cases hrn
      exact ⟨h, rfl, hs⟩
  · rw [if_pos hz]
    exact addToSize_settles hl hk ho

/-! ## The loop -/

/-- A step of a size loop that settles the debt of its chunk. -/
def SettlingStep (step : Heap S → Ref → Except Failure (Heap S)) (add : Int) : Prop :=
  ∀ h c, Linkage h → h.kind c ≠ .instruction → Owes h c add → ∃ h', step h c = .ok h' ∧ Settles h h' c add

theorem addToSize_settling (add : Int) : SettlingStep (S := S) (fun h a => h.addToSize a add) add :=
  fun _ _ hl hk ho => addToSize_settles hl hk ho

/-- Walking up from a rooted chunk with a settling step leaves every size right. -/
theorem settle_ancestors {step} (hsp : SettlingStep step add)
    (hl : Linkage h) (hr : Rooted h c) : ∀ n, (h.kind c).height ≤ n → h.kind c ≠ .instruction →
    ∃ cs, h.ancestors h.isModule n (some c) = .ok cs ∧ ∀ h1, SameButSizes h h1 → Owes h1 c add →
      ∃ h', cs.foldlM step h1 = .ok h' ∧ SameButSizes h1 h' ∧ Balanced h' := by
  induction hr with
  | @top c hp =>
    intro n hn hk
    obtain ⟨m, rfl⟩ := Kind.exists_succ hn
    by_cases hm : h.isModule c
    · refine ⟨[], by rw [ancestors, if_pos hm], fun h1 hs ho => ⟨h1, rfl, ⟨h1.computedSize, rfl⟩, ?_⟩⟩
      exact ho.of_not_tracked (not_tracked_of_module hs hm)
    · refine ⟨[c], by rw [ancestors, if_neg hm, hp]; cases m <;> rfl, fun h1 hs ho => ?_⟩
      obtain ⟨s, rfl⟩ := hs
      obtain ⟨h2, h12, ht⟩ := hsp _ c (hl.sameButSizes ⟨s, rfl⟩) hk ho
      exact ⟨h2, by rw [foldlM_cons, ok_bind h12]; rfl, ht.same, ht.top (hl.detached hp)⟩
  | @child c d hp hc _ ih =>
    intro n hn hk
    obtain ⟨m, rfl⟩ := Kind.exists_succ hn
    by_cases hm : h.isModule c
    · refine ⟨[], by rw [ancestors, if_pos hm], fun h1 hs ho => ⟨h1, rfl, ⟨h1.computedSize, rfl⟩, ?_⟩⟩
      exact ho.of_not_tracked (not_tracked_of_module hs hm)
    · have hd := (hl.linked d).kind c hc
      have hh := Kind.height_child hd
      obtain ⟨ds, hds, hf⟩ := ih m (by omega) (by intro e; rw [e] at hd; cases hd)
      refine ⟨c :: ds, by rw [ancestors, if_neg hm, hp, ok_bind hds], fun h1 hs ho => ?_⟩
      obtain ⟨s, rfl⟩ := hs
      obtain ⟨h2, h12, ht⟩ := hsp _ c (hl.sameButSizes ⟨s, rfl⟩) hk ho
      obtain ⟨h3, h23, hs23, hb⟩ := hf h2 (SameButSizes.trans ⟨s, rfl⟩ ht.same) (ht.parent d hc)
      exact ⟨h3, by rw [foldlM_cons, ok_bind h12, h23], ht.same.trans hs23, hb⟩

theorem addToSizes_spec (hl : Linkage h) (hr : Rooted h c) (hk : h.kind c ≠ .instruction) (ho : Owes h c add) :
    ∃ h', addToSizes h c add = .ok h' ∧ SameButSizes h h' ∧ Balanced h' := by
  obtain ⟨cs, hc, hf⟩ := settle_ancestors (addToSize_settling add) hl hr levels (by cases h.kind c <;> decide) hk
  obtain ⟨h', hn, hs, hb⟩ := hf h ⟨h.computedSize, rfl⟩ ho
  exact ⟨h', by rw [addToSizes, belowModule, ok_bind hc, hn], hs, hb⟩

theorem subtractFromSizes_spec {removed : Nat} (hl : Linkage h) (hr : Rooted h c) (hk : h.kind c ≠ .instruction)
    (ho : Owes h c (-removed)) : ∃ h', subtractFromSizes h c removed = .ok h' ∧ SameButSizes h h' ∧ Balanced h' := by
  obtain ⟨cs, hc, hf⟩ := settle_ancestors (fun h c hl hk ho => subtract_settles hl hk ho) hl hr levels
    (by cases h.kind c <;> decide) hk
  obtain ⟨h', hn, hs, hb⟩ := hf h ⟨h.computedSize, rfl⟩ ho
  exact ⟨h', by rw [subtractFromSizes, belowModule, ok_bind hc, hn], hs, hb⟩

end

end Egalito
