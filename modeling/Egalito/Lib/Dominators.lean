/-
Dominators of the nodes of a graph, and an iteration that finds the tree of the immediate ones from nearest common
ancestors.

Passes over the nodes in the order of their ranks move each parent up to the nearest common ancestor of the
predecessors; when nothing changes, the ancestors of a node are its dominators.
-/
import Egalito.Lib.DepthFirst

namespace Lib.Dominators

open Option

open DepthFirst (Reaches)
open Function (update update_of_ne update_self)

variable {V : Type}

section

variable (targets : V → List V) (root : V)

/-- A path from the root, the last node first. -/
inductive Path : V → List V → Prop
  | root : Path root [root]
  | link {u v : V} {l : List V} (h : Path u l) (hlink : v ∈ targets u) : Path v (v :: l)

/-- All paths from the root to `v` go through `d`. -/
def Dominates (d v : V) : Prop := ∀ l, Path targets root v l → d ∈ l

end

section

variable {targets : V → List V} {root d u v : V}

theorem Path.reaches {l} (h : Path targets root v l) : Reaches targets root v := by
  induction h with
  | root => exact .refl
  | link _ hlk ih => exact ih.tail hlk

theorem Path.root_mem {l} (h : Path targets root v l) : root ∈ l := by
  induction h with
  | root => exact List.mem_cons_self
  | link _ _ ih => exact List.mem_cons_of_mem _ ih

theorem Dominates.eq_root (h : Dominates targets root d root) : d = root := List.mem_singleton.1 (h _ .root)

theorem Dominates.pred (h : Dominates targets root d v) (hne : d ≠ v) (hlk : v ∈ targets u) :
    Dominates targets root d u := by
  intro l hl
  exact (List.mem_cons.1 (h (v :: l) (hl.link hlk))).resolve_left hne

end

/-! ## Trees -/

/-- `a` is the node or above it. -/
inductive Ancestor (parent : V → Option V) (a : V) : V → Prop
  | refl : Ancestor parent a a
  | up {x y : V} (h : parent x = some y) (hay : Ancestor parent a y) : Ancestor parent a x

/-- The ancestors of `z` are those that all the nodes have in common. -/
def Nearest (parent : V → Option V) (nodes : V → Prop) (z : V) : Prop :=
  ∀ d, Ancestor parent d z ↔ ∀ x, nodes x → Ancestor parent d x

/-- The root is its own parent; the rank falls to the parent of any other node. -/
structure Tree (root : V) (rank : V → Nat) (parent : V → Option V) : Prop where
  loop : parent root = some root
  lt : ∀ x y, x ≠ root → parent x = some y → rank y < rank x
  closed : ∀ x y, parent x = some y → parent y ≠ none

section

variable {root : V} {rank : V → Nat} {parent : V → Option V} {a b x y z : V}

theorem Ancestor.trans (hab : Ancestor parent a b) (hb : Ancestor parent b x) : Ancestor parent a x := by
  induction hb with
  | refl => exact hab
  | up h _ ih => exact .up h ih

theorem Nearest.above {nodes} (h : Nearest parent nodes z) (hx : nodes x) : Ancestor parent z x :=
  (h z).1 (.refl) x hx

theorem Nearest.single : Nearest parent (· = x) x := by
  intro d
  constructor
  · rintro h x rfl
    exact h
  · exact fun h => h x rfl

theorem Nearest.insert {nodes} (h : Nearest parent nodes b)
    (hz : ∀ d, Ancestor parent d z ↔ Ancestor parent d a ∧ Ancestor parent d b) :
    Nearest parent (fun x => nodes x ∨ x = a) z := by
  intro d
  rw [hz d, h d]
  constructor
  · rintro ⟨ha, hnd⟩ x (hx | rfl)
    · exact hnd x hx
    · exact ha
  · intro hl
    exact ⟨hl a (.inr rfl), fun x hx => hl x (.inl hx)⟩

theorem Nearest.congr {nodes nodes'} (h : Nearest parent nodes z) (hi : ∀ x, nodes x ↔ nodes' x) :
    Nearest parent nodes' z := by
  intro d
  rw [h d]
  exact forall_congr' fun x => by rw [hi x]

section

variable (h : Tree root rank parent)
include h

theorem Tree.rank_le_parent (hp : parent x = some y) : rank y ≤ rank x := by
  by_cases hx : x = root
  · rw [hx, h.loop, some.injEq] at hp
    rw [← hp, hx]
  · exact (h.lt x y hx hp).le

section

variable (ha : Ancestor parent a x)
include ha

theorem Tree.rank_le : rank a ≤ rank x := by
  induction ha with
  | refl => exact le_refl _
  | up hp _ ih => exact ih.trans (h.rank_le_parent hp)

theorem Tree.eq_root (hx : x = root) : a = root := by
  induction ha with
  | refl => exact hx
  | up hp _ ih =>
    rw [hx, h.loop, some.injEq] at hp
    exact ih hp.symm

theorem Tree.eq_of_rank_le (hle : rank x ≤ rank a) : a = x := by
  cases ha with
  | refl => rfl
  | @up _ y hp hy =>
    by_cases hx : x = root
    · rw [h.eq_root (.up hp hy) hx, hx]
    · have hlt := h.lt x y hx hp
      have hl' := h.rank_le hy
      omega

theorem Tree.linear (hb : Ancestor parent b x) (hle : rank a ≤ rank b) : Ancestor parent a b := by
  induction hb with
  | refl => exact ha
  | @up x y hp hby ih =>
    cases ha with
    | refl =>
      have hb := h.eq_of_rank_le (.up hp hby) hle
      rw [hb]
      exact .refl
    | up hp' hy =>
      obtain rfl := some.inj (hp.symm.trans hp')
      exact ih hy

theorem Tree.set_of_ancestor (hx : parent x ≠ none) : parent a ≠ none := by
  induction ha with
  | refl => exact hx
  | up hp _ ih => exact ih (h.closed _ _ hp)

end

/-- The lower of two nodes can be raised to its parent without losing a common ancestor. -/
theorem Tree.raise (hlt : rank b < rank a) (hp : parent a = some y) (d : V) :
    Ancestor parent d y ∧ Ancestor parent d b ↔ Ancestor parent d a ∧ Ancestor parent d b := by
  constructor
  · rintro ⟨hy, hb⟩
    exact ⟨.up hp hy, hb⟩
  · rintro ⟨ha, hb⟩
    refine ⟨?_, hb⟩
    cases ha with
    | refl => exact absurd (h.rank_le hb) (Nat.not_le.2 hlt)
    | up hp' hay =>
      obtain rfl := some.inj (hp.symm.trans hp')
      exact hay

end

end

section

variable [DecidableEq V] {root : V} {rank : V → Nat} {parent : V → Option V} {a u x y z : V}

theorem update_ne_none (hx : parent x ≠ none) : update parent u (some z) x ≠ none := by
  by_cases hxu : x = u
  · rw [hxu, update_self]
    exact some_ne_none z
  · rwa [update_of_ne hxu]

theorem Tree.ancestor_update (h : Tree root rank parent) (hlt : rank x < rank u) :
    Ancestor (update parent u (some z)) a x ↔ Ancestor parent a x := by
  have hne : ∀ {x}, rank x < rank u → x ≠ u := by
    rintro x hlt rfl
    exact lt_irrefl _ hlt
  constructor
  · intro ha
    induction ha with
    | refl => exact .refl
    | up hp _ ih =>
      rw [update_of_ne (hne hlt)] at hp
      exact .up hp (ih ((h.rank_le_parent hp).trans_lt hlt))
  · intro ha
    induction ha with
    | refl => exact .refl
    | up hp _ ih =>
      refine .up ?_ (ih ((h.rank_le_parent hp).trans_lt hlt))
      rw [update_of_ne (hne hlt)]
      exact hp

/-- If the new parent is an ancestor, no node gets a new ancestor. -/
theorem Tree.of_update (h : Tree root rank parent) (hz : parent u ≠ none → Ancestor parent z u)
    (ha : Ancestor (update parent u (some z)) a x) (hx : parent x ≠ none) : Ancestor parent a x := by
  induction ha with
  | refl => exact .refl
  | @up x y hp _ ih =>
    by_cases hxu : x = u
    · rw [hxu, update_self, some.injEq] at hp
      rw [hxu] at hx ⊢
      have hzu := hz hx
      rw [← hp] at ih
      exact (ih (h.set_of_ancestor hzu hx)).trans hzu
    · rw [update_of_ne hxu] at hp
      exact .up hp (ih (h.closed _ _ hp))

/-- An ancestor that is not above `u` stays one. -/
theorem Tree.keep_update (h : Tree root rank parent) (hu : u ≠ root) (ha : Ancestor parent a x) (hle : rank u ≤ rank a) :
    Ancestor (update parent u (some z)) a x := by
  induction ha with
  | refl => exact .refl
  | @up x y hp hy ih =>
    have hx : x ≠ u := by
      rintro rfl
      have hlt := h.lt x y hu hp
      have hl' := h.rank_le hy
      omega
    refine .up ?_ ih
    rw [update_of_ne hx]
    exact hp

end

/-! ## A pass -/

/-- Different ranks for the nodes that can be reached, where each of them but the root has a predecessor before it. -/
structure Numbered (targets : V → List V) (root : V) (rank : V → Nat) (before : V → V) : Prop where
  inj : ∀ u v, Reaches targets root u → Reaches targets root v → rank u = rank v → u = v
  link : ∀ v, v ≠ root → Reaches targets root v → v ∈ targets (before v)
  reach : ∀ v, v ≠ root → Reaches targets root v → Reaches targets root (before v)
  lt : ∀ v, v ≠ root → Reaches targets root v → rank (before v) < rank v

/-- The predecessors that have a parent. -/
def Preds (targets : V → List V) (parent : V → Option V) (u p : V) : Prop := u ∈ targets p ∧ parent p ≠ none

/-- The parents when a pass comes to the rank `c`. -/
structure Passing (targets : V → List V) (root : V) (rank : V → Nat) (before : V → V) (c : Nat) (parent : V → Option V) :
    Prop where
  tree : Tree root rank parent
  reach : ∀ x, parent x ≠ none → Reaches targets root x
  down : ∀ x v, parent x ≠ none → Reaches targets root v → rank v < rank x → parent v ≠ none
  sound : ∀ x y, parent x = some y → ∀ d, Dominates targets root d x → d ≠ x → Dominates targets root d y
  /-- The parent is no higher than the common ancestors of the predecessors. -/
  upper : ∀ w y, w ≠ root → parent w = some y → ∀ a, (∀ p, Preds targets parent w p → Ancestor parent a p) → rank a ≤ rank y
  near : ∀ w y, w ≠ root → parent w = some y → ∀ a, Ancestor parent a (before w) → rank a ≤ rank y → Ancestor parent a y
  /-- The parents that this pass has set, and those that it has not come to. -/
  low : ∀ w y, w ≠ root → parent w = some y → rank w < c ∨ c ≤ rank y → Ancestor parent y (before w)

section

variable {targets : V → List V} {root : V} {rank : V → Nat} {before : V → V} {c : Nat} {parent : V → Option V}
  {d u x z : V}

theorem Passing.dominates (h : Passing targets root rank before c parent) (hx : parent x ≠ none)
    (hzx : Ancestor parent z x) (hdz : Ancestor parent d z) (hd : Dominates targets root d x) :
    Dominates targets root d z := by
  induction hzx with
  | refl => exact hd
  | @up x y hp hy ih =>
    by_cases hr : x = root
    · rw [h.tree.eq_root (.up hp hy) hr]
      rwa [hr] at hd
    · have hlt := h.tree.lt x y hr hp
      have hne : d ≠ x := by
        rintro rfl
        have hle := h.tree.rank_le (hdz.trans hy)
        omega
      exact ih (h.tree.closed _ _ hp) (h.sound x y hp d hd hne)

theorem Passing.ancestor (h : Passing targets root rank before c parent) : ∀ (k : Nat) {x : V}, rank x = k →
    parent x ≠ none → Dominates targets root d x → Ancestor parent d x := by
  intro k
  induction k using Nat.strong_induction_on with
  | _ k ih =>
    intro x hk hx hd
    by_cases hdx : d = x
    · rw [hdx]
      exact .refl
    · obtain ⟨y, hp⟩ := ne_none_iff_exists'.1 hx
      have hr : x ≠ root := by
        rintro rfl
        exact hdx hd.eq_root
      have hlt := h.tree.lt x y hr hp
      exact .up hp (ih (rank y) (hk ▸ hlt) rfl (h.tree.closed _ _ hp) (h.sound x y hp d hd hdx))

theorem Passing.start [DecidableEq V] (targets) (root : V) (rank) (before)
    (hr : ∀ v, ¬ rank v < rank root) (c) :
    Passing targets root rank before c (update (fun _ => none) root (some root)) := by
  have hs : ∀ {x y}, update (fun _ => none) root (some root) x = some y → x = root ∧ y = root := by
    intro x y hp
    by_cases hx : x = root
    · rw [hx, update_self, some.injEq] at hp
      exact ⟨hx, hp.symm⟩
    · rw [update_of_ne hx] at hp
      cases hp
  have hnn : ∀ {x}, update (fun _ => none) root (some root) x ≠ none → x = root := by
    intro x hx
    obtain ⟨y, hy⟩ := ne_none_iff_exists'.1 hx
    exact (hs hy).1
  refine ⟨⟨update_self .., ?_, ?_⟩, ?_, ?_, ?_, ?_, ?_, ?_⟩
  · intro x y hx hp
    exact absurd (hs hp).1 hx
  · intro x y hp
    rw [(hs hp).2, update_self]
    exact some_ne_none root
  · intro x hx
    rw [hnn hx]
    exact .refl
  · intro x v hx _ hlt
    rw [hnn hx] at hlt
    exact absurd hlt (hr v)
  · intro x y hp d hd hne
    obtain ⟨rfl, rfl⟩ := hs hp
    exact hd
  · intro w y hw hp
    exact absurd (hs hp).1 hw
  · intro w y hw hp
    exact absurd (hs hp).1 hw
  · intro w y hw hp
    exact absurd (hs hp).1 hw

theorem Passing.restart {c'} (h : Passing targets root rank before c parent)
    (hl : ∀ x, Reaches targets root x → rank x < c) : Passing targets root rank before c' parent := by
  refine ⟨h.tree, h.reach, h.down, h.sound, h.upper, h.near, ?_⟩
  intro w y hw hp _
  exact h.low w y hw hp (.inl (hl w (h.reach w (by simp [hp]))))

section Set

variable (hn : Numbered targets root rank before) (hu : u ≠ root) (hrh : Reaches targets root u) (hc : rank u = c)
  (hdn : ∀ v, Reaches targets root v → rank v < c → parent v ≠ none)
include hn hu hrh hc hdn

theorem preds_before : Preds targets parent u (before u) := by
  have hlt := hn.lt u hu hrh
  exact ⟨hn.link u hu hrh, hdn _ (hn.reach u hu hrh) (hc ▸ hlt)⟩

variable (h : Passing targets root rank before c parent) (hz : Nearest parent (Preds targets parent u) z)
include h hz

theorem Passing.above_old {y} (hp : parent u = some y) : Ancestor parent z y := by
  have hle := h.upper u y hu hp z fun p hd => hz.above hd
  exact h.near u y hu hp z (hz.above (preds_before hn hu hrh hc hdn)) hle

theorem Passing.rank_lt : rank z < rank u :=
  (h.tree.rank_le (hz.above (preds_before hn hu hrh hc hdn))).trans_lt (hn.lt u hu hrh)

variable [DecidableEq V]

theorem Passing.tree_set : Tree root rank (update parent u (some z)) := by
  have hb := preds_before hn hu hrh hc hdn
  have hlt := Passing.rank_lt hn hu hrh hc hdn h hz
  constructor
  · rw [update_of_ne (Ne.symm hu)]
    exact h.tree.loop
  · intro x y hx hp
    by_cases hxu : x = u
    · rw [hxu, update_self, some.injEq] at hp
      rw [hxu, ← hp]
      exact hlt
    · rw [update_of_ne hxu] at hp
      exact h.tree.lt x y hx hp
  · intro x y hp
    by_cases hxu : x = u
    · rw [hxu, update_self, some.injEq] at hp
      rw [← hp]
      exact update_ne_none (h.tree.set_of_ancestor (hz.above hb) hb.2)
    · rw [update_of_ne hxu] at hp
      exact update_ne_none (h.tree.closed x y hp)

/-- After the node was set the pass is at the next rank. -/
theorem Passing.set : Passing targets root rank before (c + 1) (update parent u (some z)) := by
  have hb := preds_before hn hu hrh hc hdn
  have hlt := Passing.rank_lt hn hu hrh hc hdn h hz
  have hzb := hz.above hb
  have ht := Passing.tree_set hn hu hrh hc hdn h hz
  have ho : parent u ≠ none → Ancestor parent z u := by
    intro hs
    obtain ⟨y, hp⟩ := ne_none_iff_exists'.1 hs
    exact .up hp (Passing.above_old hn hu hrh hc hdn h hz hp)
  have hsr : ∀ {a x}, Ancestor (update parent u (some z)) a x → parent x ≠ none → Ancestor parent a x :=
    fun ha hx => h.tree.of_update ho ha hx
  -- what is known of the parent of a node and of the predecessor before it
  have hr : ∀ {w y}, w ≠ root → update parent u (some z) w = some y →
      (rank w < c + 1 ∨ c + 1 ≤ rank y → Ancestor (update parent u (some z)) y (before w)) ∧
      ∀ a, Ancestor (update parent u (some z)) a (before w) → rank a ≤ rank y →
        Ancestor (update parent u (some z)) a y := by
    intro w y hw hp
    by_cases hwu : w = u
    · rw [hwu, update_self, some.injEq] at hp
      have hz' : Ancestor (update parent u (some z)) z (before u) :=
        (h.tree.ancestor_update (hn.lt u hu hrh)).2 hzb
      rw [hwu, ← hp]
      exact ⟨fun _ => hz', fun a ha hle => ht.linear ha hz' hle⟩
    · rw [update_of_ne hwu] at hp
      have hwt : parent w ≠ none := by simp [hp]
      have hwc := h.reach w hwt
      have hbw := h.down w _ hwt (hn.reach w hw hwc) (hn.lt w hw hwc)
      have hwl := hn.lt w hw hwc
      have hne : rank w ≠ rank u := fun heq => hwu (hn.inj w u hwc hrh heq)
      rcases Nat.lt_or_gt_of_ne hne with hl | hav
      · -- the pass has been at this node
        have hlo : Ancestor (update parent u (some z)) y (before w) :=
          (h.tree.ancestor_update (by omega)).2 (h.low w y hw hp (.inl (by omega)))
        exact ⟨fun _ => hlo, fun a ha hle => ht.linear ha hlo hle⟩
      · by_cases hy : c ≤ rank y
        · have hlo : Ancestor (update parent u (some z)) y (before w) :=
            h.tree.keep_update hu (h.low w y hw hp (.inr hy)) (by omega)
          exact ⟨fun _ => hlo, fun a ha hle => ht.linear ha hlo hle⟩
        · -- the ancestors of the parent stay as they are
          refine ⟨fun hcs => by omega, fun a ha hle => ?_⟩
          exact (h.tree.ancestor_update (by omega)).2 (h.near w y hw hp a (hsr ha hbw) hle)
  refine ⟨ht, ?_, ?_, ?_, ?_, ?_, ?_⟩
  · intro x hx
    by_cases hxu : x = u
    · rw [hxu]
      exact hrh
    · rw [update_of_ne hxu] at hx
      exact h.reach x hx
  · intro x v hx hv hvx
    by_cases hxu : x = u
    · exact update_ne_none (hdn v hv (by rw [← hc, ← hxu]; exact hvx))
    · rw [update_of_ne hxu] at hx
      exact update_ne_none (h.down x v hx hv hvx)
  · intro x y hp d hd hne
    by_cases hxu : x = u
    · rw [hxu, update_self, some.injEq] at hp
      rw [hxu] at hd hne
      have hdp : ∀ p, Preds targets parent u p → Ancestor parent d p :=
        fun p hpd => h.ancestor (rank p) rfl hpd.2 (hd.pred hne hpd.1)
      rw [← hp]
      exact h.dominates hb.2 hzb ((hz d).2 hdp) (hd.pred hne hb.1)
    · rw [update_of_ne hxu] at hp
      exact h.sound x y hp d hd hne
  · intro w y hw hp a ha
    have he : ∀ p, Preds targets parent w p → Ancestor parent a p :=
      fun p hpd => hsr (ha p ⟨hpd.1, update_ne_none hpd.2⟩) hpd.2
    by_cases hwu : w = u
    · rw [hwu, update_self, some.injEq] at hp
      rw [hwu] at he
      rw [← hp]
      exact h.tree.rank_le ((hz a).2 he)
    · rw [update_of_ne hwu] at hp
      exact h.upper w y hw hp a he
  · intro w y hw hp
    exact (hr hw hp).2
  · intro w y hw hp
    exact (hr hw hp).1

end Set

theorem Passing.mem_path {l} (h : Passing targets root rank before c parent)
    (hs : ∀ x, Reaches targets root x → parent x ≠ none)
    (hf : ∀ x y, x ≠ root → parent x = some y → ∀ p, Preds targets parent x p → Ancestor parent y p)
    (hl : Path targets root x l) : ∀ a, Ancestor parent a x → a ∈ l := by
  induction hl with
  | root =>
    intro a ha
    rw [h.tree.eq_root ha rfl]
    exact List.mem_cons_self
  | @link u v l hu hlk ih =>
    intro a ha
    by_cases hv : v = root
    · rw [h.tree.eq_root ha hv]
      exact List.mem_cons_of_mem v hu.root_mem
    · cases ha with
      | refl => exact List.mem_cons_self
      | up hp hy => exact List.mem_cons_of_mem v (ih a (hy.trans (hf v _ hv hp u ⟨hlk, hs u hu.reaches⟩)))

theorem Passing.exact (h : Passing targets root rank before c parent)
    (hs : ∀ x, Reaches targets root x → parent x ≠ none)
    (hf : ∀ x y, x ≠ root → parent x = some y → ∀ p, Preds targets parent x p → Ancestor parent y p)
    (hx : Reaches targets root x) : Ancestor parent d x ↔ Dominates targets root d x := by
  constructor
  · intro ha l hl
    exact h.mem_path hs hf hl d ha
  · exact h.ancestor (rank x) rfl (hs x hx)

end

end Lib.Dominators
