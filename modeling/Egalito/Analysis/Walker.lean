/-
The orders of the nodes of a graph (`analysis/walker.h`): the nodes when they are entered, left, or both.

Every walk is a run over one history (`Lib.DepthFirst`), from which the orders are read off. With a prune function the
visits are scanned and what is below a pruned node is skipped, so a node is found exactly if no node above it in the
tree of the walk is pruned.
-/
import Egalito.Lib.DepthFirst
import Egalito.Util.Range
import Mathlib.Data.List.FinRange

namespace Egalito.Walker

open Lib Lib.DepthFirst List

variable {n : Nat}

/-! ## Collecting nodes -/

/-- PreorderVisitor, PostorderVisitor and PrePostorderVisitor. -/
inductive VisitType where
  | preorder
  | postorder
  | prePostorder

def VisitType.collectsEntered : VisitType → Bool
  | .preorder | .prePostorder => true
  | .postorder => false

def VisitType.collectsLeft : VisitType → Bool
  | .postorder | .prePostorder => true
  | .preorder => false

/-- EmptyFinisher and ReverseFinisher. -/
inductive FinishType where
  | empty
  | reverse

/-- The state of DFSWalkerBase and NodeCollection. The current lap and the node that was collected last come first. -/
structure Collection (n : Nat) where
  visited : Fin n → Bool
  lap : List (Fin n)
  laps : List (List (Fin n))

def Collection.new (n : Nat) : Collection n := ⟨fun _ => false, [], []⟩

def Collection.push (c : Collection n) (id : Fin n) : Collection n := { c with lap := id :: c.lap }

def tick (c : Collection n) : Collection n := { c with lap := [], laps := c.lap :: c.laps }

def preVisit (visit : VisitType) (c : Collection n) (id : Fin n) : Collection n :=
  if visit.collectsEntered then c.push id else c

def postVisit (visit : VisitType) (c : Collection n) (id : Fin n) : Collection n :=
  if visit.collectsLeft then c.push id else c

/-- The order of each lap, the first lap first. -/
def Collection.finish (c : Collection n) : FinishType → List (List (Fin n))
  | .empty => ((c.lap :: c.laps).map reverse).reverse
  | .reverse => (c.lap :: c.laps).reverse

theorem preVisit_visited (visit : VisitType) (c) (id : Fin n) : (preVisit visit c id).visited = c.visited := by
  unfold preVisit
  split
  · rfl
  · rfl

theorem postVisit_visited (visit : VisitType) (c) (id : Fin n) : (postVisit visit c id).visited = c.visited := by
  unfold postVisit
  split
  · rfl
  · rfl

def collect (visit : VisitType) (c : Collection n) : Event (Fin n) → Collection n
  | .tick => tick c
  | .enter id => preVisit visit { c with visited := Function.update c.visited id true } id
  | .late _ _ => c
  | .leave id => postVisit visit c id

/-- The walk of DFSWalkerBase, with the visits of NodeCollection. -/
def collector (n : Nat) (visit : VisitType) : DepthFirst.Walker (Fin n) (Collection n) where
  visited := Collection.visited
  step := collect visit
  visited_step c e := by
    cases e with
    | tick => rfl
    | late => rfl
    | enter id => exact preVisit_visited visit _ id
    | leave id => exact postVisit_visited visit c id

section

variable (visit : VisitType) (finish : FinishType) (targets : Fin n → List (Fin n))

def walkHelper (fuel : Nat) (c : Collection n) (id : Fin n) : Except Failure (Collection n) :=
  walk (collector n visit) targets .diverged fuel c id

def gen (id : Fin n) : Except Failure (List (List (Fin n))) := do
  let c ← walkHelper visit targets n (Collection.new n) id
  .ok (c.finish finish)

def genFull (id : Fin n) : Except Failure (List (List (Fin n))) := do
  let c ← walkHelper visit targets n (Collection.new n) id
  let c ← (finRange n).tail.foldlM (walkRoot (collector n visit) targets .diverged n) c
  .ok (c.finish finish)

end

section

variable (targets : Fin n → List (Fin n))

/-- isReachable for the order that collects the nodes in this way. -/
def isReachable (visit : VisitType) (finish : FinishType) (src dest : Fin n) : Except Failure Bool := do
  let order ← gen visit finish targets src
  match order with
  | [] => .error .assertion
  | l :: _ => .ok (l.any (· = dest))

/-- The loop of isReachable with a prune function; the first argument is `pruneRoot` while pruning. -/
def findUnpruned (prune : Fin n → Bool) (dest : Fin n) : Option (Fin n) → List (Fin n) → Bool
  | _, [] => false
  | some root, id :: l => findUnpruned prune dest (if id = root then none else some root) l
  | none, id :: l => if id = dest then true else findUnpruned prune dest (if prune id then some id else none) l

/-- isReachable with a prune function, which scans the visits of one walk. -/
def isReachablePruned (src dest : Fin n) (prune : Fin n → Bool) : Except Failure Bool := do
  let order ← gen .prePostorder .empty targets src
  match order with
  | [] => .error .assertion
  | l :: _ => .ok (findUnpruned prune dest none l)

/-- The path of the walk's tree from above `dest` to `src`. -/
def treePath (src dest : Fin n) : Option (List (Fin n)) :=
  match walk recorder targets Failure.diverged n (fun _ => false, []) src with
  | .error _ => none
  | .ok s => ancestors dest s.2

/-- There is a path that is not pruned before it ends. -/
def ReachesUnpruned (prune : Fin n → Bool) : Fin n → Fin n → Prop :=
  Relation.ReflTransGen fun a b => b ∈ targets a ∧ prune a = false

end

/-! ## The history of the walk -/

variable {targets : Fin n → List (Fin n)} {roots : Fin n → Prop} {src dest : Fin n}

theorem exists_history_gen (targets) (src : Fin n) : ∃ es, Reached targets (· = src) [] es ∧
    src ∈ entered es ∧ .tick ∉ es ∧ ∀ {σ ε} W (out : ε) (s0 : σ), W.Blank s0 →
      walk W targets out n s0 src = .ok (W.run s0 es) := by
  have hs : Reached targets (· = src) [] [] := .start
  have hf := (Fintype.card_fin n).le
  obtain ⟨new, ⟨hh, hr⟩, ht⟩ := exists_history_root hf hs rfl not_mem_nil
  refine ⟨new ++ [.enter src], hh, mem_entered_append, by simpa using ht, ?_⟩
  exact fun W out s0 hb => hr W out s0 hb

/-- What is collected of a history in one lap, the last node first. -/
def collected (visit : VisitType) : List (Event (Fin n)) → List (Fin n)
  | [] => []
  | .tick :: es | .late _ _ :: es => collected visit es
  | .enter id :: es => if visit.collectsEntered then id :: collected visit es else collected visit es
  | .leave id :: es => if visit.collectsLeft then id :: collected visit es else collected visit es

theorem collector_run_from (visit : VisitType) (c) : ∀ es, .tick ∉ es →
    ((collector n visit).run c es).lap = collected visit es ++ c.lap ∧ ((collector n visit).run c es).laps = c.laps
  | [], _ => ⟨rfl, rfl⟩
  | e :: es, ht => by
    rw [mem_cons, not_or] at ht
    obtain ⟨hl, hs⟩ := collector_run_from visit c es ht.2
    cases e with
    | tick => exact absurd rfl ht.1
    | late u t => exact ⟨hl, hs⟩
    | enter id =>
      show (preVisit visit _ id).lap = _ ∧ (preVisit visit _ id).laps = _
      unfold preVisit collected
      split
      · exact ⟨congrArg (id :: ·) hl, hs⟩
      · exact ⟨hl, hs⟩
    | leave id =>
      show (postVisit visit _ id).lap = _ ∧ (postVisit visit _ id).laps = _
      unfold postVisit collected
      split
      · exact ⟨congrArg (id :: ·) hl, hs⟩
      · exact ⟨hl, hs⟩

variable {es : List (Event (Fin n))} {F : Frames (Fin n)}

theorem collector_run (visit : VisitType) (ht : .tick ∉ es) :
    ((collector n visit).run (Collection.new n) es).lap = collected visit es ∧
      ((collector n visit).run (Collection.new n) es).laps = [] := by
  obtain ⟨hl, hs⟩ := collector_run_from visit (Collection.new n) es ht
  exact ⟨hl.trans (append_nil _), hs⟩

theorem gen_eq (visit : VisitType) (finish : FinishType) (ht : .tick ∉ es)
    (hr : ∀ {σ ε} W (out : ε) (s0 : σ), W.Blank s0 → walk W targets out n s0 src = .ok (W.run s0 es)) :
    gen visit finish targets src = .ok [match finish with
      | .empty => (collected visit es).reverse
      | .reverse => collected visit es] := by
  obtain ⟨hl, hs⟩ := collector_run visit ht
  have hw := hr (collector n visit) Failure.diverged (Collection.new n) fun _ => rfl
  rw [gen, walkHelper, ok_bind hw]
  cases finish with
  | empty => rw [Collection.finish, hl, hs]; rfl
  | reverse => rw [Collection.finish, hl, hs]; rfl

theorem collected_preorder : ∀ (es : List (Event (Fin n))), collected .preorder es = entered es
  | [] => rfl
  | .tick :: es => collected_preorder es
  | .late _ _ :: es => collected_preorder es
  | .leave _ :: es => collected_preorder es
  | .enter id :: es => congrArg (id :: ·) (collected_preorder es)

theorem collected_postorder : ∀ (es : List (Event (Fin n))), collected .postorder es = left es
  | [] => rfl
  | .tick :: es => collected_postorder es
  | .late _ _ :: es => collected_postorder es
  | .leave id :: es => congrArg (id :: ·) (collected_postorder es)
  | .enter _ :: es => collected_postorder es

theorem mem_collected_prePostorder {v : Fin n} : ∀ es, v ∈ collected .prePostorder es ↔ v ∈ entered es ∨ v ∈ left es
  | [] => by simp [collected, entered, left]
  | .tick :: es => mem_collected_prePostorder es
  | .late _ _ :: es => mem_collected_prePostorder es
  | .leave id :: es => by
    show v ∈ id :: collected .prePostorder es ↔ v ∈ entered es ∨ v ∈ id :: left es
    rw [mem_cons, mem_cons, mem_collected_prePostorder es, or_left_comm]
  | .enter id :: es => by
    show v ∈ id :: collected .prePostorder es ↔ v ∈ id :: entered es ∨ v ∈ left es
    rw [mem_cons, mem_cons, mem_collected_prePostorder es, or_assoc]

theorem mem_collected (visit : VisitType) (h : Reached targets roots [] es) {v : Fin n} :
    v ∈ collected visit es ↔ v ∈ entered es := by
  cases visit with
  | preorder => rw [collected_preorder]
  | postorder => rw [collected_postorder, h.mem_left]
  | prePostorder => rw [mem_collected_prePostorder, h.mem_left, or_self]

/-- Without a prune function the nodes found are those that can be reached, in each of the orders. -/
theorem isReachable_iff (visit : VisitType) (finish : FinishType) (targets) (src dest : Fin n) :
    ∃ b, isReachable targets visit finish src dest = .ok b ∧ (b = true ↔ Reaches targets src dest) := by
  obtain ⟨es, hr, hin, ht, hn⟩ := exists_history_gen targets src
  have hm : dest ∈ collected visit es ↔ Reaches targets src dest := by
    rw [mem_collected visit hr]
    constructor
    · intro he
      obtain ⟨r, rfl, ha⟩ := hr.reaches dest he
      exact ha
    · exact hr.closed hin
  rw [isReachable, ok_bind (gen_eq visit finish ht hn)]
  refine ⟨_, rfl, ?_⟩
  rw [← hm]
  cases finish with
  | empty => simp
  | reverse => simp

/-! ## The laps of a full walk -/

theorem exists_trees {starts new} (h : Laps starts new) :
    ∀ c : Collection n, ∃ trees, ((collector n .preorder).run c new).finish .empty = c.finish .empty ++ trees ∧
      trees.map head? = starts.map some ∧ ∀ v, v ∈ trees.flatten ↔ v ∈ entered new := by
  induction h with
  | nil => exact fun c => ⟨[], (append_nil _).symm, rfl, by simp [entered]⟩
  | @cons r rs new es hn _ ih =>
    intro c
    set c' := (collector n .preorder).run c (new ++ [.enter r, .tick]) with hc'
    obtain ⟨hl, hs⟩ : c'.lap = entered new ++ [r] ∧ c'.laps = c.lap :: c.laps := by
      rw [hc', DepthFirst.Walker.run_append, ← collected_preorder]
      exact collector_run_from .preorder _ new hn
    have hf : c'.finish .empty = c.finish .empty ++ [r :: (entered new).reverse] := by
      rw [Collection.finish, hl, hs]
      simp [Collection.finish]
    obtain ⟨trees, hr, hh, hm⟩ := ih c'
    refine ⟨(r :: (entered new).reverse) :: trees, ?_, ?_, ?_⟩
    · rw [DepthFirst.Walker.run_append, ← hc', hr, hf]
      simp
    · rw [map_cons, hh]
      rfl
    · intro v
      rw [flatten_cons, mem_append, hm, entered_append, entered_append]
      simp [entered, or_comm]

/-- The first lap of a full walk from 0 has the nodes that can be reached; there is a lap for each node. -/
theorem genFull_laps [NeZero n] (targets) : ∃ first laps, ∃ starts : List (Fin n),
    genFull .preorder .empty targets 0 = .ok (first :: laps) ∧ (∀ v, v ∈ first ↔ Reaches targets 0 v) ∧
      laps.map head? = starts.map some ∧ starts.Sublist (finRange n).tail ∧ ∀ v, v ∈ first ∨ v ∈ laps.flatten := by
  obtain ⟨es, new, starts, ⟨-, hr⟩, ⟨hh, -⟩, ht, hls, hs, hin⟩ := exists_history_full targets
  have hcl := hr (collector n .preorder) Failure.diverged (Collection.new n) fun _ => rfl
  have ht' : .tick ∉ es ++ [.enter (0 : Fin n)] := by simpa using ht
  obtain ⟨hl, hn⟩ := collector_run .preorder ht'
  set c := (collector n .preorder).run (Collection.new n) (es ++ [.enter 0]) with hc
  have hfr : c.finish .empty = [(entered (es ++ [.enter 0])).reverse] := by
    rw [Collection.finish, hl, hn, collected_preorder]
    rfl
  obtain ⟨trees, hf, hhs, hm⟩ := exists_trees hls c
  rw [hc, ← DepthFirst.Walker.run_append, ← hc, hfr] at hf
  refine ⟨(entered (es ++ [.enter 0])).reverse, trees, starts, ?_, ?_, hhs, hs, ?_⟩
  · rw [genFull, walkHelper, ← bind_assoc]
    exact (ok_bind hcl _).trans (congrArg Except.ok hf)
  · intro v
    rw [mem_reverse]
    constructor
    · intro hv
      obtain ⟨r, rfl, ha⟩ := hh.reaches v hv
      exact ha
    · exact hh.closed mem_entered_append
  · intro v
    have hv := hin v
    rw [entered_append, mem_append] at hv
    rw [mem_reverse, hm]
    exact hv.symm

/-! ## The scan -/

/-- The state of the scan: whether the destination was found, and the root of what is pruned. -/
def scanStep (prune : Fin n → Bool) (dest : Fin n) : Bool × Option (Fin n) → Fin n → Bool × Option (Fin n)
  | (true, root), _ => (true, root)
  | (false, some root), id => (false, if id = root then none else some root)
  | (false, none), id => if id = dest then (true, none) else (false, if prune id then some id else none)

variable {prune : Fin n → Bool}

theorem foldl_scanStep_true (root) : ∀ (l : List (Fin n)), (l.foldl (scanStep prune dest) (true, root)).1 = true
  | [] => rfl
  | _ :: l => foldl_scanStep_true root l

theorem findUnpruned_eq_foldl : ∀ l (root : Option (Fin n)),
    findUnpruned prune dest root l = (l.foldl (scanStep prune dest) (false, root)).1
  | [], root => by cases root <;> rfl
  | id :: l, some root => by
    rw [findUnpruned, foldl_cons, scanStep]
    exact findUnpruned_eq_foldl l _
  | id :: l, none => by
    rw [findUnpruned, foldl_cons, scanStep]
    split
    · exact (foldl_scanStep_true none l).symm
    · exact findUnpruned_eq_foldl l _

/-- The scan of the visits of a history. -/
def scanned (prune : Fin n → Bool) (dest : Fin n) (es : List (Event (Fin n))) : Bool × Option (Fin n) :=
  (collected .prePostorder es).foldr (fun id s => scanStep prune dest s id) (false, none)

/-- Nothing on the path of the destination is pruned. -/
def FreePath (prune : Fin n → Bool) (path : Option (List (Fin n))) : Prop :=
  ∃ l, path = some l ∧ ∀ u ∈ l, prune u = false

/-- The destination was found if nothing above it is pruned; until then the scan prunes at the first pruned node from
    the root. -/
structure Scanned (prune : Fin n → Bool) (s : Bool × Option (Fin n)) (path : Option (List (Fin n)))
    (above : List (Fin n)) : Prop where
  found : s.1 = true ↔ FreePath prune path
  pruning : s.1 = false → s.2 = above.reverse.find? prune

variable {s : Bool × Option (Fin n)} {path : Option (List (Fin n))} {above : List (Fin n)} {v : Fin n}

theorem Scanned.enter (dest) (h : Scanned prune s path above) (hv : v ∉ above) (hw : v = dest → path = none) :
    Scanned prune (scanStep prune dest s v) (if v = dest then some above else path) (v :: above) := by
  obtain ⟨hf, hn⟩ := h
  have hfn : (v :: above).reverse.find? prune = (above.reverse.find? prune).or ([v].find? prune) := by
    rw [reverse_cons, find?_append]
  match s, hf, hn with
  | (true, root), hf, _ =>
    have hne : v ≠ dest := by
      intro heq
      obtain ⟨l, hl, -⟩ := hf.1 rfl
      rw [hw heq] at hl
      cases hl
    rw [if_neg hne]
    exact ⟨hf, fun hfl => by cases hfl⟩
  | (false, some r), hf, hn =>
    have hr := (hn rfl).symm
    have hm := mem_reverse.1 (mem_of_find?_eq_some hr)
    have hne : v ≠ r := fun heq => hv (heq ▸ hm)
    rw [scanStep, if_neg hne]
    constructor
    · refine iff_of_false Bool.false_ne_true ?_
      split
      · rintro ⟨l, hl, hfr⟩
        cases hl
        exact Bool.false_ne_true ((hfr r hm).symm.trans (find?_some hr))
      · exact fun hfr => Bool.false_ne_true (hf.2 hfr)
    · intro _
      rw [hfn, hr]
      rfl
  | (false, none), hf, hn =>
    have hnn := (hn rfl).symm
    rw [scanStep]
    by_cases heq : v = dest
    · rw [if_pos heq, if_pos heq]
      refine ⟨iff_of_true rfl ⟨above, rfl, ?_⟩, fun hfl => by cases hfl⟩
      intro u hu
      simpa using find?_eq_none.1 hnn u (mem_reverse.2 hu)
    · rw [if_neg heq, if_neg heq]
      refine ⟨iff_of_false Bool.false_ne_true fun hfr => Bool.false_ne_true (hf.2 hfr), ?_⟩
      intro _
      rw [hfn, hnn, Option.none_or]
      cases hp : prune v with
      | true => simp [hp]
      | false => simp [hp]

theorem Scanned.leave (dest) (h : Scanned prune s path (v :: above)) (hv : v ∉ above)
    (hh : v = dest → path = some above) : Scanned prune (scanStep prune dest s v) path above := by
  obtain ⟨hf, hp⟩ := h
  have hfn : (v :: above).reverse.find? prune = (above.reverse.find? prune).or ([v].find? prune) := by
    rw [reverse_cons, find?_append]
  rw [hfn] at hp
  match s, hf, hp with
  | (true, root), hf, _ => exact ⟨hf, fun hl => by cases hl⟩
  | (false, some r), hf, hp =>
    have hr := (hp rfl).symm
    rw [scanStep]
    refine ⟨hf, fun _ => ?_⟩
    cases ha : above.reverse.find? prune with
    | some r' =>
      rw [ha] at hr
      obtain rfl := Option.some.inj hr
      have hm := mem_reverse.1 (mem_of_find?_eq_some ha)
      have hne : v ≠ r' := fun heq => hv (heq ▸ hm)
      exact if_neg hne
    | none =>
      rw [ha, Option.none_or] at hr
      exact if_pos (mem_singleton.1 (mem_of_find?_eq_some hr)).symm
  | (false, none), hf, hp =>
    have hn := Option.or_eq_none_iff.1 (hp rfl).symm
    have hpu : prune v = false := by simpa using find?_eq_none.1 hn.2 v (by simp)
    have hne : v ≠ dest := by
      intro heq
      refine Bool.false_ne_true (hf.2 ⟨above, hh heq, ?_⟩)
      intro u hu
      simpa using find?_eq_none.1 hn.1 u (mem_reverse.2 hu)
    rw [scanStep, if_neg hne, hpu]
    exact ⟨hf, fun _ => hn.1.symm⟩

theorem scanned_of_reached (prune) (dest) (h : Reached targets roots F es) :
    Scanned prune (scanned prune dest es) (ancestors dest es) (F.map Prod.fst) := by
  induction h with
  | start =>
    refine ⟨iff_of_false Bool.false_ne_true ?_, fun _ => rfl⟩
    rintro ⟨l, hl, -⟩
    cases hl
  | tick _ ih => exact ih
  | @enter F es v h ht hn ih =>
    have hv : v ∉ F.map Prod.fst := fun hm => hn ((h.shape.mem_frames v).1 hm).1
    have hs := ih.enter dest hv fun heq => h.ancestors_none (heq ▸ hn)
    rw [ancestors, h.opened_eq]
    exact hs
  | late _ _ _ ih => exact ih
  | @leave F es v h ih =>
    have hv := (nodup_cons.1 h.shape.nodup).1
    rw [advance_fst]
    exact ih.leave dest hv fun heq => heq ▸ h.ancestors_frame [] v (F.map Prod.fst) rfl

/-! ## Pruned reachability -/

theorem reachesUnpruned_of_free (h : Reached targets (· = src) F es) (hf : FreePath prune (ancestors dest es)) :
    ReachesUnpruned targets prune src dest := by
  obtain ⟨l, hl, hf⟩ := hf
  obtain ⟨-, F0, es0, h0, hn, rfl⟩ := h.ancestors_eq hl
  cases hn with
  | root hs =>
    rw [hs]
    exact .refl
  | @link u _ done rest F0 hlk =>
    obtain ⟨r, rfl, hp⟩ := h0.path (p := fun u => prune u = false) [] u (F0.map Prod.fst) rfl
      fun w hw => hf w (mem_cons_of_mem u hw)
    exact hp.tail ⟨by simp [hlk], hf u mem_cons_self⟩

/-- isReachable is right for a destination exactly if a path around the pruned nodes implies that there is none on the
    path by which the walk first came to it. -/
theorem isReachablePruned_iff (targets : Fin n → List (Fin n)) (src dest : Fin n) (prune : Fin n → Bool) :
    ∃ b, isReachablePruned targets src dest prune = .ok b ∧
      (b = true ↔ FreePath prune (treePath targets src dest)) ∧
      ((b = true ↔ ReachesUnpruned targets prune src dest) ↔
        (ReachesUnpruned targets prune src dest → FreePath prune (treePath targets src dest))) := by
  obtain ⟨es, hrh, hin, htk, hrun⟩ := exists_history_gen targets src
  have hsn := scanned_of_reached prune dest hrh
  have htr : treePath targets src dest = ancestors dest es := by
    rw [treePath, hrun recorder Failure.diverged (fun _ => false, []) fun _ => rfl]
    show ancestors dest (recorder.run (fun _ => false, []) es).2 = _
    rw [recorder_run]
  refine ⟨(scanned prune dest es).1, ?_, ?_, ?_⟩
  · rw [isReachablePruned, ok_bind (gen_eq .prePostorder .empty htk hrun)]
    dsimp only
    rw [findUnpruned_eq_foldl, foldl_reverse]
    rfl
  · rw [htr]
    exact hsn.found
  · rw [htr, hsn.found]
    constructor
    · exact fun h => h.mpr
    · exact fun h => ⟨reachesUnpruned_of_free hrh, h⟩

/-- A node with two links, the first of them to a node that is pruned, and both lead on to the same node. -/
def diamond : Fin 4 → List (Fin 4)
  | 0 => [1, 2]
  | 1 => [3]
  | 2 => [3]
  | 3 => []

/-- The walk comes to 3 through 1, so it is not found, though 0, 2, 3 is a path. -/
theorem isReachablePruned_diamond : isReachablePruned diamond 0 3 (· = 1) = .ok false ∧
    treePath diamond 0 3 = some [1, 0] ∧ ReachesUnpruned diamond (· = 1) 0 3 := by
  refine ⟨by decide +kernel, by decide +kernel, ?_⟩
  have hfr : ReachesUnpruned diamond (· = 1) 0 2 := .single (by decide)
  exact hfr.tail (by decide)

end Egalito.Walker
