/-
Dominance (`analysis/dominance.cpp`): immediate dominators by passes in reverse postorder until nothing changes.

The passes are the iteration of `Lib.Dominators`, whose fixed point is the tree of the immediate dominators. What is
left is that the fuel of each loop suffices and that the order is a reverse postorder (`Analysis.Components`), so that
`new_getDominators_exact` holds of every graph.
-/
import Egalito.Analysis.Components
import Egalito.Analysis.ControlFlow
import Egalito.Lib.Dominators
import Mathlib.Algebra.Order.BigOperators.Group.Finset

namespace Egalito

open Option

/-- `none` is −1 in idoms. -/
structure Dominance (n : Nat) where
  idoms : Fin n → Option (Fin n)
  idMap : Fin n → Int

namespace Dominance

open Lib Lib.DepthFirst Lib.Dominators FlowGraph List
open Function (update update_eq_self update_of_ne update_self)

variable {n : Nat}

/-! ## The constructor -/

/-- The inner loops of intersect: the finger goes up while it is behind the limit. -/
def raise (d : Dominance n) (limit : Fin n) : Nat → Fin n → Except Failure (Fin n)
  | 0, _ => .error .diverged
  | fuel + 1, finger =>
    match d.idoms finger with
    | none => .ok finger
    | some idom => if d.idMap limit < d.idMap finger then raise d limit fuel idom else .ok finger

def intersectLoop (d : Dominance n) : Nat → Fin n → Fin n → Except Failure (Fin n)
  | 0, _, _ => .error .diverged
  | fuel + 1, finger1, finger2 =>
    if finger1 = finger2 then .ok finger1
    else if d.idoms finger1 = none then .ok finger2
    else if d.idoms finger2 = none then .ok finger1
    else do
      let finger1 ← raise d finger2 n finger1
      let finger2 ← raise d finger1 n finger2
      intersectLoop d fuel finger1 finger2

def intersect (d : Dominance n) (i1 i2 : Fin n) : Except Failure (Fin n) := intersectLoop d (2 * n) i1 i2

/-- The loop over the backward links, for one of them; `none` while it is the first one. -/
def intersectLink (d : Dominance n) (idom : Option (Fin n)) (pred : Fin n) : Except Failure (Option (Fin n)) :=
  if d.idoms pred = none then .ok idom
  else
    match idom with
    | none => .ok (some pred)
    | some idom => do
      let idom ← intersect d pred idom
      .ok (some idom)

/-- The loop over the order, for one node. The flag is `changed`. -/
def visit [NeZero n] (g : ControlFlowGraph n) (idMap : Fin n → Int) (s : (Fin n → Option (Fin n)) × Bool) (id : Fin n) :
    Except Failure ((Fin n → Option (Fin n)) × Bool) :=
  if id = 0 then .ok (update s.1 0 (some 0), s.2)
  else do
    let idom ← (g.sources id).foldlM (intersectLink ⟨s.1, idMap⟩) none
    if s.1 id ≠ idom then .ok (update s.1 id idom, true) else .ok s

def iterate [NeZero n] (g : ControlFlowGraph n) (idMap : Fin n → Int) (order : List (Fin n)) :
    Nat → (Fin n → Option (Fin n)) → Except Failure (Fin n → Option (Fin n))
  | 0, _ => .error .diverged
  | fuel + 1, idoms => do
    let s ← order.foldlM (visit g idMap) (idoms, false)
    if s.2 then iterate g idMap order fuel s.1 else .ok s.1

/-- The loop that numbers the nodes of an order. -/
def number (order : List (Fin n)) (idMap : Fin n → Int) : Fin n → Int :=
  order.zipIdx.foldl (fun idMap x => update idMap x.1 (x.2 : Int)) idMap

/-- The constructor: passes over the reverse postorder until nothing changes. -/
def new [NeZero n] (g : ControlFlowGraph n) : Except Failure (Dominance n) := do
  let _ ← SccOrder.gen g.targets 0
  let laps ← Walker.gen .postorder .reverse g.targets 0
  match laps with
  | [] => .error .assertion
  | order :: _ =>
    let idMap := number order fun _ => -1
    let idoms ← iterate g idMap order (n * n + 1) fun _ => none
    .ok ⟨idoms, idMap⟩

/-- The loop of getDominators. With −1 as the next node it reads outside of idoms. -/
def dominators [NeZero n] (idoms : Fin n → Option (Fin n)) : Nat → Fin n → Except Failure (List (Fin n))
  | 0, _ => .error .diverged
  | fuel + 1, id =>
    if id = 0 then .ok [0]
    else
      match idoms id with
      | none => .error .assertion
      | some idom => do
        let doms ← dominators idoms fuel idom
        .ok (id :: doms)

/-- The way up from a node, with the node itself and 0. -/
def getDominators [NeZero n] (d : Dominance n) (id : Fin n) : Except Failure (List (Fin n)) :=
  dominators d.idoms n id

/-! ## The order -/

/-- A reverse postorder from the node 0, and what was numbered by it. -/
structure Ordered [NeZero n] (targets : Fin n → List (Fin n)) (order : List (Fin n)) : Prop where
  nodup : order.Nodup
  mem : ∀ v, v ∈ order ↔ Reaches targets 0 v
  before : ∀ v ∈ order, v = 0 ∨ ∃ u, v ∈ targets u ∧ [u, v].Sublist order

theorem idxOf_lt_of_sublist {u v : Fin n} {l} (hnd : l.Nodup) (hs : [u, v].Sublist l) : l.idxOf u < l.idxOf v := by
  obtain ⟨l1, l2, rfl, hu, hv⟩ := cons_sublist_iff.1 hs
  have hn : v ∉ l1 := fun hm => disjoint_of_nodup_append hnd hm (singleton_sublist.1 hv)
  rw [idxOf_append_of_mem hu, idxOf_append_of_notMem hn]
  exact Nat.lt_add_right _ (idxOf_lt_length_of_mem hu)

section

variable [NeZero n] {targets : Fin n → List (Fin n)} {order : List (Fin n)}

theorem exists_order (targets : Fin n → List (Fin n)) :
    ∃ order, Walker.gen .postorder .reverse targets 0 = .ok [order] ∧ Ordered targets order := by
  obtain ⟨es, hr, hin, ht, hrn⟩ := Walker.exists_history_gen targets 0
  refine ⟨_, Walker.gen_eq .postorder .reverse ht hrn, ?_⟩
  have hl : leaving [] es = left es := nil_append _
  rw [Walker.collected_postorder]
  constructor
  · exact hr.shape.nodup_left
  · intro v
    rw [hr.mem_left]
    constructor
    · intro hv
      obtain ⟨r, rfl, ha⟩ := hr.reaches v hv
      exact ha
    · exact hr.closed hin
  · intro v hv
    rw [← hl]
    exact hr.parent v (hr.mem_left.1 hv)

section

variable (h : Ordered targets order)
include h

theorem Ordered.zero_mem : 0 ∈ order := (h.mem 0).2 .refl

/-- The first node is 0, since every other one has a predecessor before it. -/
theorem Ordered.eq_cons : ∃ rest, order = 0 :: rest := by
  have hm := h.zero_mem
  obtain ⟨nodup, -, before⟩ := h
  match order, nodup, before, hm with
  | v :: rest, nodup, before, _ =>
    rcases before v mem_cons_self with rfl | ⟨u, -, hs⟩
    · exact ⟨rest, rfl⟩
    · have ht : v ∉ rest := (nodup_cons.1 nodup).1
      cases hs with
      | cons _ hs => exact absurd (hs.subset (by simp)) ht
      | cons_cons _ hs => exact absurd (hs.subset (by simp)) ht

theorem Ordered.numbered : ∃ before, Numbered targets 0 (order.idxOf ·) before := by
  have hb : ∀ v, ∃ u, v ≠ 0 → Reaches targets 0 v → v ∈ targets u ∧ [u, v].Sublist order := by
    intro v
    by_cases hv : v ≠ 0 ∧ Reaches targets 0 v
    · obtain ⟨u, hu⟩ := (h.before v ((h.mem v).2 hv.2)).resolve_left hv.1
      exact ⟨u, fun _ _ => hu⟩
    · exact ⟨0, fun hne hr => absurd ⟨hne, hr⟩ hv⟩
  choose before hb using hb
  refine ⟨before, ?_, ?_, ?_, ?_⟩
  · intro u v hu _ heq
    exact (idxOf_inj ((h.mem u).2 hu)).1 heq
  · intro v hv hr
    exact (hb v hv hr).1
  · intro v hv hr
    exact (h.mem _).1 ((hb v hv hr).2.subset (by simp))
  · intro v hv hr
    exact idxOf_lt_of_sublist h.nodup (hb v hv hr).2

theorem Ordered.rank_zero : order.idxOf 0 = 0 := by
  obtain ⟨rest, rfl⟩ := h.eq_cons
  exact idxOf_cons_self

theorem Ordered.length_le : order.length ≤ n :=
  (List.Nodup.length_le_card h.nodup).trans (Fintype.card_fin n).le

end

end

theorem foldl_number_of_not_mem {v} : ∀ {l : List (Fin n)} (k : Nat) (m : Fin n → Int), v ∉ l →
    (l.zipIdx k).foldl (fun m x => update m x.1 (x.2 : Int)) m v = m v
  | [], _, _, _ => rfl
  | a :: l, k, m, hv => by
    rw [mem_cons, not_or] at hv
    rw [zipIdx_cons, foldl_cons, foldl_number_of_not_mem (k + 1) _ hv.2]
    exact update_of_ne hv.1 ..

theorem foldl_number {v} : ∀ {l : List (Fin n)} (k : Nat) (m : Fin n → Int), l.Nodup → v ∈ l →
    (l.zipIdx k).foldl (fun m x => update m x.1 (x.2 : Int)) m v = (k + l.idxOf v : Nat)
  | a :: l, k, m, hnd, hv => by
    obtain ⟨ht, hnd⟩ := nodup_cons.1 hnd
    rw [zipIdx_cons, foldl_cons]
    by_cases ha : v = a
    · rw [ha, foldl_number_of_not_mem (k + 1) _ ht, update_self, idxOf_cons_self]
      rfl
    · rw [foldl_number (k + 1) _ hnd ((mem_cons.1 hv).resolve_left ha), idxOf_cons_ne l (Ne.symm ha)]
      congr 1
      omega

theorem number_eq {order v} (hnd : order.Nodup) (hv : v ∈ order) (m : Fin n → Int) :
    number order m v = order.idxOf v := by
  rw [number, foldl_number 0 m hnd hv, zero_add]

/-! ## The fingers -/

section

variable {root : Fin n} {rank : Fin n → Nat} {d : Dominance n} {a b : Fin n}

/-- The nodes with a parent are numbered by their rank. -/
structure Ranked (root : Fin n) (rank : Fin n → Nat) (d : Dominance n) : Prop where
  tree : Tree root rank d.idoms
  rank_root : rank root = 0
  idMap : ∀ v, d.idoms v ≠ none → d.idMap v = rank v
  lt : ∀ v, d.idoms v ≠ none → rank v < n
  inj : ∀ u v, d.idoms u ≠ none → d.idoms v ≠ none → rank u = rank v → u = v

/-- What a loop of intersect leaves: the common ancestors of the fingers are the same. -/
structure Raised (rank : Fin n → Nat) (d : Dominance n) (limit a a' : Fin n) : Prop where
  set : d.idoms a' ≠ none
  le : rank a' ≤ rank a
  lt : rank limit < rank a → rank a' < rank a
  common : ∀ e, Ancestor d.idoms e a' ∧ Ancestor d.idoms e limit ↔ Ancestor d.idoms e a ∧ Ancestor d.idoms e limit

theorem raise_ok (h : Ranked root rank d) {limit} (hl : d.idoms limit ≠ none) : ∀ fuel a,
    d.idoms a ≠ none → rank a < fuel → ∃ a', raise d limit fuel a = .ok a' ∧ Raised rank d limit a a'
  | fuel + 1, a, ha, hf => by
    obtain ⟨y, hy⟩ := ne_none_iff_exists'.1 ha
    have hrs : raise d limit (fuel + 1) a =
        if d.idMap limit < d.idMap a then raise d limit fuel y else .ok a := by
      rw [raise, hy]
    rw [hrs, h.idMap limit hl, h.idMap a ha]
    by_cases hlt : rank limit < rank a
    · have ht : a ≠ root := by
        rintro rfl
        rw [h.rank_root] at hlt
        exact Nat.not_lt_zero _ hlt
      have hy_lt := h.tree.lt a y ht hy
      obtain ⟨a', hr, hs, hle, -, hc⟩ := raise_ok h hl fuel y (h.tree.closed _ _ hy) (by omega)
      rw [if_pos (by exact_mod_cast hlt)]
      refine ⟨a', hr, hs, by omega, fun _ => by omega, fun e => ?_⟩
      rw [hc e]
      exact h.tree.raise hlt hy e
    · rw [if_neg (by exact_mod_cast hlt)]
      exact ⟨a, rfl, ha, le_refl _, fun hl' => absurd hl' hlt, fun _ => Iff.rfl⟩

theorem intersectLoop_ok (h : Ranked root rank d) : ∀ fuel a b, d.idoms a ≠ none → d.idoms b ≠ none →
    rank a + rank b < fuel → ∃ z, intersectLoop d fuel a b = .ok z ∧ d.idoms z ≠ none ∧
      ∀ e, Ancestor d.idoms e z ↔ Ancestor d.idoms e a ∧ Ancestor d.idoms e b
  | fuel + 1, a, b, ha, hb, hf => by
    rw [intersectLoop]
    by_cases hab : a = b
    · rw [if_pos hab, hab]
      exact ⟨b, rfl, hb, fun e => (and_self_iff).symm⟩
    · rw [if_neg hab, if_neg ha, if_neg hb]
      obtain ⟨a', hr, ra⟩ := raise_ok h hb n a ha (h.lt a ha)
      obtain ⟨b', hr', rb⟩ := raise_ok h ra.set n b hb (h.lt b hb)
      have hne : rank a ≠ rank b := fun heq => hab (h.inj a b ha hb heq)
      -- the finger that was behind has moved
      have hm : rank a' + rank b' < rank a + rank b := by
        have hle := ra.le
        have he' := rb.le
        rcases Nat.lt_or_gt_of_ne hne with hlt | hlt
        · have hl' := rb.lt (by omega)
          omega
        · have hl' := ra.lt hlt
          omega
      obtain ⟨z, hr'', hz, hc⟩ := intersectLoop_ok h fuel a' b' ra.set rb.set (by omega)
      refine ⟨z, ?_, hz, fun e => ?_⟩
      · rw [ok_bind hr, ok_bind hr', hr'']
      · rw [hc e, ← ra.common e, and_comm, rb.common e, and_comm]

theorem intersect_ok (h : Ranked root rank d) (ha : d.idoms a ≠ none) (hb : d.idoms b ≠ none) :
    ∃ z, intersect d a b = .ok z ∧ d.idoms z ≠ none ∧
      ∀ e, Ancestor d.idoms e z ↔ Ancestor d.idoms e a ∧ Ancestor d.idoms e b := by
  have hlt := h.lt a ha
  have hl' := h.lt b hb
  exact intersectLoop_ok h (2 * n) a b ha hb (by omega)

/-- What the loop over the backward links has found for those that are done. -/
def Met (d : Dominance n) (done : List (Fin n)) : Option (Fin n) → Prop
  | none => ∀ p ∈ done, d.idoms p = none
  | some z => d.idoms z ≠ none ∧ Nearest d.idoms (fun p => p ∈ done ∧ d.idoms p ≠ none) z

theorem met_step (h : Ranked root rank d) {done} {idom} (ht : Met d done idom)
    (pred) : ∃ idom', intersectLink d idom pred = .ok idom' ∧ Met d (done ++ [pred]) idom' := by
  have hm : ∀ p, p ∈ done ++ [pred] ↔ p ∈ done ∨ p = pred := by simp
  unfold intersectLink
  by_cases hd : d.idoms pred = none
  · rw [if_pos hd]
    refine ⟨idom, rfl, ?_⟩
    cases idom with
    | none =>
      intro p hp
      rcases (hm p).1 hp with hp | rfl
      · exact ht p hp
      · exact hd
    | some z =>
      refine ⟨ht.1, ht.2.congr fun p => ?_⟩
      rw [hm p]
      constructor
      · exact fun hp => ⟨.inl hp.1, hp.2⟩
      · rintro ⟨hp | rfl, hs⟩
        · exact ⟨hp, hs⟩
        · exact absurd hd hs
  · rw [if_neg hd]
    cases idom with
    | none =>
      refine ⟨some pred, rfl, hd, Nearest.single.congr fun p => ?_⟩
      rw [hm p]
      constructor
      · rintro rfl
        exact ⟨.inr rfl, hd⟩
      · rintro ⟨hp | rfl, hs⟩
        · exact absurd (ht p hp) hs
        · rfl
    | some b =>
      obtain ⟨z, hr, hz, hc⟩ := intersect_ok h hd ht.1
      refine ⟨some z, ok_bind hr _, hz, (ht.2.insert hc).congr fun p => ?_⟩
      rw [hm p]
      constructor
      · rintro (hp | rfl)
        · exact ⟨.inl hp.1, hp.2⟩
        · exact ⟨.inr rfl, hd⟩
      · rintro ⟨hp | rfl, hs⟩
        · exact .inl ⟨hp, hs⟩
        · exact .inr rfl

theorem foldlM_intersectLink (h : Ranked root rank d) {preds : List (Fin n)} {p : Fin n} (hp : p ∈ preds)
    (ht : d.idoms p ≠ none) : ∃ z, preds.foldlM (intersectLink d) none = .ok (some z) ∧
      Nearest d.idoms (fun p => p ∈ preds ∧ d.idoms p ≠ none) z := by
  obtain ⟨idom, hr, hm⟩ := foldlM_ok (f := intersectLink d) (I := Met d) preds [] none
    (fun p hp => absurd hp not_mem_nil) fun pre x _ _ s hs => met_step h hs x
  rw [nil_append] at hm
  cases idom with
  | none => exact absurd (hm p hp) ht
  | some z => exact ⟨z, hr, hm.2⟩

end

/-! ## A pass -/

section Pass

variable [NeZero n]

/-- The parents during a pass, when it comes to the rank `c`. -/
structure Invariant (g : ControlFlowGraph n) (order : List (Fin n)) (before : Fin n → Fin n) (c : Nat)
    (idoms : Fin n → Option (Fin n)) : Prop where
  passing : Passing g.targets 0 (order.idxOf ·) before c idoms
  set : ∀ v ∈ order, order.idxOf v < c → idoms v ≠ none

/-- The parent of the node is what a visit would set. -/
def Settled (g : ControlFlowGraph n) (idoms : Fin n → Option (Fin n)) (u : Fin n) : Prop :=
  ∃ z, idoms u = some z ∧ Nearest idoms (Preds g.targets idoms u) z

def height (order : List (Fin n)) : Option (Fin n) → Nat
  | none => n
  | some y => order.idxOf y

/-- What every change lowers. -/
def weight (order : List (Fin n)) (idoms : Fin n → Option (Fin n)) : Nat := ∑ v, height order (idoms v)

variable {g : ControlFlowGraph n} {order : List (Fin n)} {before : Fin n → Fin n} {c : Nat}
  {idoms idoms' : Fin n → Option (Fin n)} {changed : Bool} {u z : Fin n}

omit [NeZero n] in
theorem weight_update_lt (h : height order (some z) < height order (idoms u)) :
    weight order (update idoms u (some z)) < weight order idoms := by
  refine Finset.sum_lt_sum (fun v _ => ?_) ⟨u, Finset.mem_univ u, ?_⟩
  · by_cases hv : v = u
    · rw [hv, update_self]
      exact h.le
    · rw [update_of_ne hv]
  · rw [update_self]
    exact h

theorem weight_start_le (order : List (Fin n)) (hle : order.length ≤ n) :
    weight order (update (fun _ => none) 0 (some 0)) ≤ n * n := by
  calc weight order (update (fun _ => none) 0 (some 0))
    _ ≤ ∑ _v : Fin n, n := by
      refine Finset.sum_le_sum fun v _ => ?_
      by_cases hv : v = 0
      · rw [hv, update_self]
        exact idxOf_le_length.trans hle
      · rw [update_of_ne hv]
        exact le_refl n
    _ = n * n := by simp

variable (ho : Ordered g.targets order) (hn : Numbered g.targets 0 (order.idxOf ·) before)
include ho hn

theorem Invariant.ranked (h : Invariant g order before c idoms) :
    Ranked 0 (order.idxOf ·) ⟨idoms, number order fun _ => -1⟩ := by
  have hm : ∀ v, idoms v ≠ none → v ∈ order := fun v hv => (ho.mem v).2 (h.passing.reach v hv)
  refine ⟨h.passing.tree, ho.rank_zero, ?_, ?_, ?_⟩
  · intro v hv
    exact number_eq ho.nodup (hm v hv) _
  · intro v hv
    exact (idxOf_lt_length_of_mem (hm v hv)).trans_le ho.length_le
  · intro u v hu hv heq
    exact hn.inj u v (h.passing.reach u hu) (h.passing.reach v hv) heq

/-- A visit leaves a settled parent as it is, and any other one it changes and lowers. -/
theorem visit_ok (h : Invariant g order before c idoms) (hu : u ∈ order) (hne : u ≠ 0) (hc : order.idxOf u = c)
    (changed : Bool) : ∃ idoms' changed', visit g (number order fun _ => -1) (idoms, changed) u = .ok (idoms', changed') ∧
      Invariant g order before (c + 1) idoms' ∧ (changed' = changed ∧ idoms' = idoms ∧ Settled g idoms u ∨
        changed' = true ∧ weight order idoms' < weight order idoms) := by
  have hr : Reaches g.targets 0 u := (ho.mem u).1 hu
  have hd : ∀ v, Reaches g.targets 0 v → order.idxOf v < c → idoms v ≠ none :=
    fun v hv hlt => h.set v ((ho.mem v).2 hv) hlt
  have hb := preds_before hn hne hr hc hd
  have hrn := h.ranked ho hn
  obtain ⟨z, hrun, hm⟩ := foldlM_intersectLink hrn ((g.mem_targets _ _).1 hb.1) hb.2
  have hz : Nearest idoms (Preds g.targets idoms u) z := by
    refine hm.congr fun p => ?_
    rw [Preds, g.mem_targets]
  have hi : Invariant g order before (c + 1) (update idoms u (some z)) := by
    refine ⟨Passing.set hn hne hr hc hd h.passing hz, fun v hv hlt => ?_⟩
    by_cases hvu : v = u
    · rw [hvu, update_self]
      exact some_ne_none z
    · have hvc : order.idxOf v ≠ c := by
        intro heq
        exact hvu ((idxOf_inj hv).1 (heq.trans hc.symm))
      exact update_ne_none (h.set v hv (by omega))
  have hlo : idoms u ≠ some z → height order (some z) < height order (idoms u) := by
    intro hs
    cases hold : idoms u with
    | none =>
      have hlt := Passing.rank_lt hn hne hr hc hd h.passing hz
      exact hlt.trans ((idxOf_lt_length_of_mem hu).trans_le ho.length_le)
    | some y =>
      have ha := Passing.above_old hn hne hr hc hd h.passing hz hold
      refine lt_of_le_of_ne (h.passing.tree.rank_le ha) fun heq => ?_
      have hy := h.passing.tree.eq_of_rank_le ha heq.symm.le
      exact hs (hold.trans (congrArg some hy.symm))
  rw [visit, if_neg hne, ok_bind hrun]
  by_cases hs : idoms u = some z
  · refine ⟨idoms, changed, if_neg (not_not.2 hs), ?_, .inl ⟨rfl, rfl, z, hs, hz⟩⟩
    have hud : update idoms u (some z) = idoms := by
      rw [← hs]
      exact update_eq_self u idoms
    rwa [hud] at hi
  · exact ⟨_, true, if_pos hs, hi, .inr ⟨rfl, weight_update_lt (hlo hs)⟩⟩

/-- What a pass has done with the parents when it comes to the rank `c`. -/
structure Progress (g : ControlFlowGraph n) (order : List (Fin n)) (before : Fin n → Fin n)
    (idoms : Fin n → Option (Fin n)) (done : List (Fin n)) (s : (Fin n → Option (Fin n)) × Bool) : Prop where
  invariant : Invariant g order before done.length s.1
  same : s.2 = false → s.1 = idoms ∧ ∀ u ∈ done, u ≠ 0 → Settled g idoms u
  lower : s.2 = true → weight order s.1 < weight order idoms

theorem foldlM_visit {rest} (heq : order = 0 :: rest) (h : Invariant g order before 1 idoms) :
    ∃ s, rest.foldlM (visit g (number order fun _ => -1)) (idoms, false) = .ok s ∧
      Progress g order before idoms order s := by
  have hsr : Progress g order before idoms [0] (idoms, false) := by
    refine ⟨h, fun _ => ⟨rfl, fun u hu hne => ?_⟩, fun hf => by cases hf⟩
    exact absurd (mem_singleton.1 hu) hne
  obtain ⟨s, hr, hs⟩ := foldlM_ok (f := visit g (number order fun _ => -1)) (I := Progress g order before idoms) rest [0]
    (idoms, false) hsr fun pre x post ht s hs => by
      obtain ⟨idoms1, changed⟩ := s
      have hsl : order = ([0] ++ pre) ++ x :: post := by rw [heq, ht, append_assoc]; rfl
      have hnd := ho.nodup
      rw [hsl] at hnd
      have hx : x ∉ [0] ++ pre := by
        intro hm
        exact (nodup_append.1 hnd).2.2 x hm x mem_cons_self rfl
      have hc : order.idxOf x = ([0] ++ pre).length := by
        rw [hsl, idxOf_append_of_notMem hx, idxOf_cons_self, add_zero]
      have hne : x ≠ 0 := fun hx0 => hx (by simp [hx0])
      have hm : x ∈ order := by simp [hsl]
      obtain ⟨idoms2, changed2, hr, hi, hcs⟩ := visit_ok ho hn hs.invariant hm hne hc changed
      refine ⟨(idoms2, changed2), hr, ?_⟩
      have hl : ([0] ++ pre ++ [x]).length = ([0] ++ pre).length + 1 := by simp
      rcases hcs with ⟨rfl, rfl, hst⟩ | ⟨rfl, hlo⟩
      · refine ⟨hl ▸ hi, fun hf => ?_, hs.lower⟩
        obtain ⟨hsm, ha⟩ := hs.same hf
        refine ⟨hsm, fun u hu hu0 => ?_⟩
        rcases mem_append.1 hu with hu | hu
        · exact ha u hu hu0
        · rw [mem_singleton.1 hu]
          exact hsm ▸ hst
      · refine ⟨hl ▸ hi, fun hf => (Bool.noConfusion hf), fun _ => ?_⟩
        cases changed with
        | true => exact hlo.trans (hs.lower rfl)
        | false => exact (hs.same rfl).1 ▸ hlo
  rw [singleton_append, ← heq] at hs
  exact ⟨s, hr, hs⟩

theorem iterate_ok : ∀ fuel idoms, Invariant g order before 1 (update idoms 0 (some 0)) →
    weight order (update idoms 0 (some 0)) < fuel →
    ∃ idoms', iterate g (number order fun _ => -1) order fuel idoms = .ok idoms' ∧
      Invariant g order before order.length idoms' ∧ ∀ u ∈ order, u ≠ 0 → Settled g idoms' u
  | fuel + 1, idoms, h, hf => by
    obtain ⟨rest, heq⟩ := ho.eq_cons
    obtain ⟨⟨idoms1, changed⟩, hr, hs⟩ := foldlM_visit ho hn heq h
    have hp : order.foldlM (visit g (number order fun _ => -1)) (idoms, false) = .ok (idoms1, changed) := by
      rw [heq, foldlM_cons, visit, if_pos rfl, ← heq]
      exact hr
    rw [iterate, ok_bind hp]
    cases changed with
    | false =>
      obtain ⟨hm, ha⟩ : idoms1 = _ ∧ _ := hs.same rfl
      refine ⟨idoms1, rfl, hs.invariant, ?_⟩
      rw [hm]
      exact ha
    | true =>
      have hl : update idoms1 0 (some 0) = idoms1 := by
        rw [← hs.invariant.passing.tree.loop]
        exact update_eq_self 0 idoms1
      have hlt : ∀ v ∈ order, order.idxOf v < order.length := fun v hv => idxOf_lt_length_of_mem hv
      have ht : Invariant g order before 1 idoms1 := by
        constructor
        · exact hs.invariant.passing.restart fun v hv => hlt v ((ho.mem v).2 hv)
        · exact fun v hv _ => hs.invariant.set v hv (hlt v hv)
      have hlo := hs.lower rfl
      refine iterate_ok fuel idoms1 ?_ ?_
      · rwa [hl]
      · rw [hl]
        exact hlo.trans_le (Nat.le_of_lt_succ hf)

end Pass

/-! ## Dominators -/

section

variable [NeZero n]

/-- All dominators of the node, from it up to the root, each the immediate one of the node before. -/
structure DominatorChain (targets : Fin n → List (Fin n)) (id : Fin n) (doms : List (Fin n)) : Prop where
  mem : ∀ a, a ∈ doms ↔ Dominates targets 0 a id
  head : doms.head? = some id
  last : doms.getLast? = some 0
  immediate : doms.IsChain fun a b =>
    b ≠ a ∧ Dominates targets 0 b a ∧ ∀ e, Dominates targets 0 e a → e ≠ a → Dominates targets 0 e b

/-- The parents are the immediate dominators. -/
structure Exact (g : ControlFlowGraph n) (d : Dominance n) : Prop where
  set : ∀ v, Reaches g.targets 0 v → d.idoms v ≠ none
  reach : ∀ v y, d.idoms v = some y → Reaches g.targets 0 y
  ancestor : ∀ v, Reaches g.targets 0 v → ∀ a, Ancestor d.idoms a v ↔ Dominates g.targets 0 a v
  loop : d.idoms 0 = some 0
  immediate : ∀ v y, v ≠ 0 → d.idoms v = some y → y ≠ v ∧ Dominates g.targets 0 y v ∧
    ∀ e, Dominates g.targets 0 e v → e ≠ v → Dominates g.targets 0 e y
  rank : ∃ rank : Fin n → Nat, (∀ v, Reaches g.targets 0 v → rank v < n) ∧
    ∀ v y, v ≠ 0 → d.idoms v = some y → rank y < rank v

theorem new_exact (g : ControlFlowGraph n) : ∃ d, new g = .ok d ∧ Exact g d := by
  obtain ⟨order, hg, ho⟩ := exists_order g.targets
  obtain ⟨before, hn⟩ := ho.numbered
  obtain ⟨_, -, -, hc, -⟩ := SccOrder.gen_ok g.targets 0
  have ht : ∀ v, ¬ order.idxOf v < order.idxOf 0 := by
    intro v
    rw [ho.rank_zero]
    exact Nat.not_lt_zero _
  have hsr : Invariant g order before 1 (update (fun _ => none) 0 (some 0)) := by
    refine ⟨Passing.start g.targets 0 (order.idxOf ·) before ht 1, fun v hv hlt => ?_⟩
    have hv0 : v = 0 := by
      refine (idxOf_inj hv).1 ?_
      rw [ho.rank_zero]
      omega
    rw [hv0, update_self]
    exact some_ne_none 0
  have hw := weight_start_le order ho.length_le
  obtain ⟨idoms, hrn, hi, hl⟩ := iterate_ok ho hn (n * n + 1) (fun _ => none) hsr (by omega)
  refine ⟨⟨idoms, number order fun _ => -1⟩, ?_, ?_⟩
  · rw [new, ok_bind hc, ok_bind hg]
    exact ok_bind hrn _
  have hs := hi.passing
  have hlt : ∀ v, Reaches g.targets 0 v → order.idxOf v < order.length :=
    fun v hv => idxOf_lt_length_of_mem ((ho.mem v).2 hv)
  have hst : ∀ v, Reaches g.targets 0 v → idoms v ≠ none :=
    fun v hv => hi.set v ((ho.mem v).2 hv) (hlt v hv)
  have hf : ∀ v y, v ≠ 0 → idoms v = some y → ∀ p, Preds g.targets idoms v p → Ancestor idoms y p := by
    intro v y hv hy p hp
    have hr := hs.reach v (by simp [hy])
    obtain ⟨z, hz, hns⟩ := hl v ((ho.mem v).2 hr) hv
    obtain rfl := some.inj (hy.symm.trans hz)
    exact hns.above hp
  have ha : ∀ v, Reaches g.targets 0 v → ∀ a, Ancestor idoms a v ↔ Dominates g.targets 0 a v :=
    fun v hv a => hs.exact hst hf hv
  refine ⟨hst, ?_, ha, hs.tree.loop, ?_, ?_⟩
  · intro v y hy
    exact hs.reach y (hs.tree.closed v y hy)
  · intro v y hv (hy : idoms v = some y)
    have hr := hs.reach v (by simp [hy])
    refine ⟨?_, (ha v hr y).1 (.up hy .refl), hs.sound v y hy⟩
    rintro rfl
    exact lt_irrefl _ (hs.tree.lt y y hv hy)
  · exact ⟨(order.idxOf ·), fun v hv => (hlt v hv).trans_le ho.length_le, hs.tree.lt⟩

theorem Exact.dominators_ok {g d} (h : Exact g d) (rank : Fin n → Nat)
    (hk : ∀ v y, v ≠ 0 → d.idoms v = some y → rank y < rank v) : ∀ fuel id, rank id < fuel →
    Reaches g.targets 0 id → ∃ doms, dominators d.idoms fuel id = .ok doms ∧ (∀ a, a ∈ doms ↔ Ancestor d.idoms a id) ∧
      doms.head? = some id ∧ doms.getLast? = some 0 ∧ doms.IsChain (fun a b => a ≠ 0 ∧ d.idoms a = some b)
  | fuel + 1, id, hf, hrh => by
    rw [dominators]
    by_cases hi : id = 0
    · rw [if_pos hi, hi]
      refine ⟨[0], rfl, fun a => ?_, rfl, rfl, .singleton 0⟩
      rw [mem_singleton, h.ancestor 0 .refl]
      constructor
      · rintro rfl
        exact fun l hl => hl.root_mem
      · exact Dominates.eq_root
    · obtain ⟨y, hy⟩ := ne_none_iff_exists'.1 (h.set id hrh)
      have hlt := hk id y hi hy
      obtain ⟨doms, hr, hm, hh, hs, hc⟩ :=
        Exact.dominators_ok h rank hk fuel y (by omega) (h.reach id y hy)
      rw [if_neg hi, hy]
      refine ⟨id :: doms, ok_bind hr _, fun a => ?_, rfl, ?_, ?_⟩
      · rw [mem_cons, hm a]
        constructor
        · rintro (rfl | ha)
          · exact .refl
          · exact .up hy ha
        · intro ha
          cases ha with
          | refl => exact .inl rfl
          | up hp hay =>
            obtain rfl := some.inj (hy.symm.trans hp)
            exact .inr hay
      · cases doms with
        | nil => cases hh
        | cons b l => rwa [getLast?_cons_cons]
      · cases doms with
        | nil => cases hh
        | cons b l =>
          obtain rfl : b = y := some.inj hh
          exact .cons_cons ⟨hi, hy⟩ hc

theorem Exact.getDominators_ok {g d} (h : Exact g d) {id : Fin n}
    (hi : Reaches g.targets 0 id) : ∃ doms, d.getDominators id = .ok doms ∧ DominatorChain g.targets id doms := by
  obtain ⟨rank, hlt, hk⟩ := h.rank
  obtain ⟨doms, hr, hm, hh, hl, hc⟩ := h.dominators_ok rank hk n id (hlt id hi) hi
  refine ⟨doms, hr, fun a => ?_, hh, hl, ?_⟩
  · rw [hm a, h.ancestor id hi a]
  · exact hc.imp fun a b hab => h.immediate a b hab.1 hab.2

end

/-- The constructor ends, and getDominators lists the dominators of each node that can be reached. -/
theorem new_getDominators_exact (g : ControlFlowGraph (n + 1)) : ∃ d, new g = .ok d ∧
    ∀ id, Reaches g.targets 0 id → ∃ doms, d.getDominators id = .ok doms ∧ DominatorChain g.targets id doms := by
  obtain ⟨d, hnew, hec⟩ := new_exact g
  exact ⟨d, hnew, fun id hid => hec.getDominators_ok hid⟩

end Dominance

end Egalito
