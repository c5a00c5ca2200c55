/-
getPostDominators (`analysis/dominance.cpp`): the dominators of the exits, intersected.

The lists are intersected as if they were sorted, which loses nodes, so the result is exact if and only if no
intersection is made: there is one exit.
-/
import Egalito.Analysis.Dominance
import Egalito.Lib.Ranked

namespace Egalito.Dominance

open Lib Lib.DepthFirst Lib.Dominators FlowGraph List

variable {n : Nat}

/-- The loop of set_intersection: the second range goes on to what is not smaller, and where that is equal it is kept. -/
def setIntersection : List (Fin n) → List (Fin n) → List (Fin n)
  | [], _ => []
  | a :: l, m =>
    match m.dropWhile (· < a) with
    | [] => []
    | b :: m => if a < b then setIntersection l (b :: m) else a :: setIntersection l m

def exitNodes (g : ControlFlowGraph n) (order : List (Fin n)) : List (Fin n) :=
  order.filter fun nid => (g.forwardLinks nid).isEmpty

/-- The loop over the further exits; it stops when nothing is left. -/
def capExits [NeZero n] (d : Dominance n) : List (Fin n) → List (Fin n) → Except Failure (List (Fin n))
  | pdom, [] => .ok pdom
  | pdom, exit :: exits => do
    let pdom2 ← d.getDominators exit
    let pdom := setIntersection pdom (pdom2.insertionSort (· ≤ ·))
    if pdom.isEmpty then .ok pdom else capExits d pdom exits

/-- The argument is not used; idMap is left with the numbers of the preorder. -/
def getPostDominators [NeZero n] (d : Dominance n) (g : ControlFlowGraph n) (_id : Fin n) :
    Except Failure (List (Fin n) × Dominance n) := do
  let laps ← Walker.gen .preorder .empty g.targets 0
  match laps with
  | [] => .error .assertion
  | order :: _ =>
    let d := { d with idMap := number order d.idMap }
    match exitNodes g order with
    | [] => .ok ([], d)
    | exit :: exits => do
      let pdom ← d.getDominators exit
      let pdom ← capExits d pdom exits
      .ok (pdom, d)

/-- A node that can be reached and has no successors. -/
def Exit [NeZero n] (g : ControlFlowGraph n) (e : Fin n) : Prop := Reaches g.targets 0 e ∧ g.forwardLinks e = []

/-- The node lies on every path to every exit. -/
def PostDominates [NeZero n] (g : ControlFlowGraph n) (a : Fin n) : Prop := ∀ e, Exit g e → Dominates g.targets 0 a e

/-! ## The intersection -/

theorem mem_dropWhile_lt {a x} {m : List (Fin n)} (hm : m.Pairwise (· ≤ ·)) :
    x ∈ m.dropWhile (· < a) ↔ x ∈ m ∧ a ≤ x := by
  have hp : ∀ b c : Fin n, b ≤ c → decide (c < a) → decide (b < a) := by
    simpa using fun b c hbc => lt_of_le_of_lt hbc
  rw [(mem_takeWhile_dropWhile hm hp x).2, decide_eq_true_iff, not_lt]

/-- The node is in the list, and what comes before it is smaller. -/
def Leads (x : Fin n) : List (Fin n) → Prop
  | [] => False
  | a :: l => x = a ∨ a < x ∧ Leads x l

theorem Leads.mem {x : Fin n} : ∀ {l}, Leads x l → x ∈ l
  | _ :: _, .inl heq => heq ▸ mem_cons_self
  | _ :: _, .inr h => mem_cons_of_mem _ h.2.mem

/-- From a list in any order only what is greater than all before it is kept. -/
theorem mem_setIntersection {x} : ∀ {l m : List (Fin n)}, m.Pairwise (· ≤ ·) →
    (x ∈ setIntersection l m ↔ x ∈ m ∧ Leads x l)
  | [], m, _ => by simp [setIntersection, Leads]
  | a :: l, m, hm => by
    have hd : x ∈ m.dropWhile (· < a) ↔ x ∈ m ∧ a ≤ x := mem_dropWhile_lt hm
    have hs : a ∈ m.dropWhile (· < a) ↔ a ∈ m ∧ a ≤ a := mem_dropWhile_lt hm
    have hr : (m.dropWhile (· < a)).Pairwise (· ≤ ·) := hm.sublist (dropWhile_sublist _)
    have hh : ∀ b ∈ m.dropWhile (· < a), a ≤ b := fun b hb => ((mem_dropWhile_lt hm).1 hb).2
    rw [setIntersection, Leads]
    match m.dropWhile (· < a), hd, hs, hr, hh with
    | [], hd, _, _, _ =>
      refine iff_of_false not_mem_nil ?_
      rintro ⟨hx, rfl | ⟨hlt, -⟩⟩
      · exact not_mem_nil (hd.2 ⟨hx, le_refl x⟩)
      · exact not_mem_nil (hd.2 ⟨hx, hlt.le⟩)
    | b :: m', hd, hs, hr, hh =>
      obtain ⟨hb, hm'⟩ := pairwise_cons.1 hr
      show x ∈ (if a < b then setIntersection l (b :: m') else a :: setIntersection l m') ↔ _
      by_cases hab : a < b
      · have hn : a ∉ b :: m' := by
          intro ha
          rcases mem_cons.1 ha with rfl | ha
          · exact lt_irrefl _ hab
          · exact absurd (hb a ha) (not_le.2 hab)
        rw [if_pos hab, mem_setIntersection hr, hd]
        constructor
        · rintro ⟨⟨hx, hle⟩, hl⟩
          refine ⟨hx, .inr ⟨lt_of_le_of_ne hle fun heq => ?_, hl⟩⟩
          exact hn (hs.2 ⟨heq ▸ hx, le_refl a⟩)
        · rintro ⟨hx, rfl | ⟨hlt, hl⟩⟩
          · exact absurd (hs.2 ⟨hx, le_refl x⟩) hn
          · exact ⟨⟨hx, hlt.le⟩, hl⟩
      · have heq : a = b := le_antisymm (hh b mem_cons_self) (not_lt.1 hab)
        rw [if_neg hab, mem_cons, mem_setIntersection hm']
        constructor
        · rintro (rfl | ⟨hx, hl⟩)
          · exact ⟨(hs.1 (heq ▸ mem_cons_self)).1, .inl rfl⟩
          · obtain ⟨hxm, hle⟩ := hd.1 (mem_cons_of_mem b hx)
            rcases hle.eq_or_lt with hax | hax
            · exact ⟨hxm, .inl hax.symm⟩
            · exact ⟨hxm, .inr ⟨hax, hl⟩⟩
        · rintro ⟨hx, rfl | ⟨hlt, hl⟩⟩
          · exact .inl rfl
          · have hmm := (mem_cons.1 (hd.2 ⟨hx, hlt.le⟩)).resolve_left (fun hxb => hlt.ne (heq.trans hxb.symm))
            exact .inr ⟨hmm, hl⟩

/-! ## The result -/

section

variable [NeZero n] {g : ControlFlowGraph n} {d : Dominance n}

theorem exists_exitNodes (g : ControlFlowGraph n) : ∃ order, Walker.gen .preorder .empty g.targets 0 = .ok [order] ∧
    (exitNodes g order).Nodup ∧ ∀ e, e ∈ exitNodes g order ↔ Exit g e := by
  obtain ⟨es, hr, hin, ht, hn⟩ := Walker.exists_history_gen g.targets 0
  refine ⟨_, Walker.gen_eq .preorder .empty ht hn, ?_, ?_⟩
  · rw [Walker.collected_preorder]
    exact (nodup_reverse.2 hr.shape.nodup_entered).filter _
  · intro e
    rw [exitNodes, mem_filter, Walker.collected_preorder, mem_reverse, List.isEmpty_iff, Exit]
    refine and_congr_left fun _ => ?_
    constructor
    · intro he
      obtain ⟨r, rfl, ha⟩ := hr.reaches e he
      exact ha
    · exact hr.closed hin

theorem Exact.setIdMap (h : Exact g d) (idMap) : Exact g { d with idMap := idMap } :=
  ⟨h.set, h.reach, h.ancestor, h.loop, h.immediate, h.rank⟩

theorem capExits_ok (h : Exact g d) : ∀ exits pdom, (∀ e ∈ exits, Reaches g.targets 0 e) →
    ∃ pdom', capExits d pdom exits = .ok pdom' ∧ pdom' ⊆ pdom ∧ (exits ≠ [] → ∀ a ∈ pdom', Leads a pdom)
  | [], pdom, _ => ⟨pdom, rfl, List.Subset.refl pdom, fun hne => absurd rfl hne⟩
  | exit :: exits, pdom, hh => by
    obtain ⟨pdom2, hr, -⟩ := h.getDominators_ok (hh exit mem_cons_self)
    have hl : ∀ a ∈ setIntersection pdom (pdom2.insertionSort (· ≤ ·)), Leads a pdom :=
      fun a ha => ((mem_setIntersection (pairwise_insertionSort (· ≤ ·) pdom2)).1 ha).2
    rw [capExits, ok_bind hr]
    dsimp only
    split
    · exact ⟨_, rfl, fun a ha => (hl a ha).mem, fun _ => hl⟩
    · obtain ⟨pdom', hr', hs, -⟩ := capExits_ok h exits _ fun e he => hh e (mem_cons_of_mem exit he)
      exact ⟨pdom', hr', fun a ha => (hl a (hs ha)).mem, fun _ a ha => hl a (hs ha)⟩

theorem Exit.eq_zero {e} (h0 : Exit g 0) (he : Exit g e) : e = 0 := by
  obtain ⟨-, hn⟩ := h0
  rcases Relation.ReflTransGen.cases_head he.1 with h | ⟨b, hb, -⟩
  · exact h.symm
  · rw [ControlFlowGraph.targets, hn] at hb
    exact absurd hb not_mem_nil

theorem postDominates_zero (g : ControlFlowGraph n) : PostDominates g 0 := fun _ _ _ hl => hl.root_mem

theorem Exact.getPostDominators_ok (h : Exact g d) (id : Fin n) : ∃ pdom d', d.getPostDominators g id = .ok (pdom, d') ∧
    Exact g d' ∧ ((∀ a, a ∈ pdom ↔ PostDominates g a) ↔ ∃! e, Exit g e) := by
  obtain ⟨order, hg, hnd, hm⟩ := exists_exitNodes g
  have hd := h.setIdMap (number order d.idMap)
  rw [getPostDominators, ok_bind hg]
  dsimp only
  match exitNodes g order, hnd, hm with
  | [], _, hm =>
    refine ⟨[], _, rfl, hd, iff_of_false ?_ ?_⟩
    · intro hec
      exact not_mem_nil ((hec 0).2 (postDominates_zero g))
    · rintro ⟨e, he, -⟩
      exact not_mem_nil ((hm e).2 he)
  | [exit], _, hm =>
    have ht := (hm exit).1 mem_cons_self
    have hu : ∀ e, Exit g e → e = exit := fun e he => mem_singleton.1 ((hm e).2 he)
    obtain ⟨pdom, hr, hc⟩ := hd.getDominators_ok ht.1
    refine ⟨pdom, _, ok_bind hr _, hd, iff_of_true (fun a => ?_) ⟨exit, ht, hu⟩⟩
    rw [hc.mem a]
    constructor
    · intro ha e he
      rw [hu e he]
      exact ha
    · exact fun ha => ha exit ht
  | exit :: exit2 :: exits, hnd, hm =>
    have ht := (hm exit).1 mem_cons_self
    have he2 := (hm exit2).1 (by simp)
    have hne : exit ≠ exit2 := fun heq => (nodup_cons.1 hnd).1 (by simp [heq])
    obtain ⟨pdom, hr, hc⟩ := hd.getDominators_ok ht.1
    obtain ⟨pdom', hr', -, hl⟩ := capExits_ok hd (exit2 :: exits) pdom fun e he =>
      ((hm e).1 (mem_cons_of_mem exit he)).1
    refine ⟨pdom', _, (ok_bind hr _).trans (ok_bind hr' _), hd, iff_of_false ?_ ?_⟩
    · -- the node 0 is lost, since the exit comes before it
      intro hec
      have hz := hl (cons_ne_nil _ _) 0 ((hec 0).2 (postDominates_zero g))
      obtain ⟨l, rfl⟩ : ∃ l, pdom = exit :: l := head?_eq_some_iff.1 hc.head
      rcases hz with h0 | ⟨hlt, -⟩
      · rw [← h0] at ht hne
        exact hne (ht.eq_zero he2).symm
      · exact absurd hlt (Fin.not_lt_zero exit)
    · rintro ⟨e, -, hu⟩
      exact hne ((hu exit ht).trans (hu exit2 he2).symm)

end

/-- The post-dominators of the entry are right exactly if there is one exit. -/
theorem getPostDominators_exact_iff (g : ControlFlowGraph (n + 1)) : ∃ d pdom d', new g = .ok d ∧
    d.getPostDominators g 0 = .ok (pdom, d') ∧ ((∀ a, a ∈ pdom ↔ PostDominates g a) ↔ ∃! e, Exit g e) := by
  obtain ⟨d, hnew, hec⟩ := new_exact g
  obtain ⟨pdom, d', hrun, -, hiff⟩ := hec.getPostDominators_ok 0
  exact ⟨d, pdom, d', hnew, hrun, hiff⟩

/-- A block that ends with a branch to the last one of three. -/
def fork : ControlFlowGraph 3 := ((ControlFlowGraph.new 3).connect 0 0 ⟨2, 0, true⟩).connect 0 0 ⟨1, 0, false⟩

/-- With two exits nothing is left, although the entry lies on every path. -/
theorem getPostDominators_fork : (∃ d d', new fork = .ok d ∧ d.getPostDominators fork 0 = .ok ([], d')) ∧
    Exit fork 1 ∧ PostDominates fork 0 := by
  refine ⟨?_, ⟨.single (by decide), by decide⟩, postDominates_zero fork⟩
  have hrun : (new fork >>= fun d => d.getPostDominators fork 0 >>= fun r => .ok r.1) = .ok [] := by decide
  obtain ⟨d, hnew, hrun⟩ := bind_iff.mp hrun
  obtain ⟨⟨pdom, d'⟩, hpt, hep⟩ := bind_iff.mp hrun
  obtain rfl : pdom = [] := Except.ok.inj hep
  exact ⟨d, d', hnew, hpt⟩

end Egalito.Dominance
