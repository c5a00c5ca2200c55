/-
SplitFunction (`pass/splitfunction.cpp`): a function without a symbol is split before the first block of each part that
a walk from the first block does not come to.

The parts of the depth-first cover are compared with reachability. A round either finds nothing to split, or fails in
the first split that it tries, so `visit_splits_nothing` describes all runs that return.
-/
import Egalito.Analysis.ControlFlow
import Egalito.Analysis.Walker
import Egalito.Operation.SplitFunction
import Mathlib.Data.List.ReduceOption

namespace Egalito.SplitFunction

open Heap Mutator FlowGraph Walker Lib List

/-- The functions of the list in their order, and those among them that have a symbol. -/
structure State where
  heap : Heap Semantic
  functions : List Ref
  named : List Ref

structure Env where
  arch : Arch
  /-- Whether the id of an instruction is ARM64_INS_NOP, if its semantic has an assembly. -/
  isNop : Ref → Option Bool

variable (env : Env)

/-- The block to split before, for a part after the first one. -/
def splitPoint (h : Heap Semantic) {blocks : List Ref} (part : List (Fin blocks.length)) :
    Except Failure (Option Ref) :=
  match part with
  | [] => .error .assertion
  | id :: rest =>
    let block := blocks.get id
    match h.children block with
    | [] => .error .assertion
    | [instr] =>
      if rest = [] then
        match env.isNop instr with
        | none => .error .assertion
        | some true => .ok none
        | some false => .ok (some block)
      else .ok (some block)
    | _ :: _ :: _ => .ok (some block)

def orders {n : Nat} (targets : Fin n → List (Fin n)) : Except Failure (List (List (Fin n))) :=
  if hn : 0 < n then genFull .preorder .empty targets ⟨0, hn⟩ else .error .assertion

def visitFunction (s : State) (f : Ref) : Except Failure (List (Ref × Ref)) :=
  if f ∈ s.named then .ok []
  else do
    let cfg ← construct env.arch s.heap (s.heap.children f)
    let v ← orders cfg.targets
    let points ← v.tail.reverse.mapM (splitPoint env s.heap)
    .ok (points.reduceOption.map fun block => (f, block))

/-- The functions to split, with the block that each split is made before. -/
def splitPoints (s : State) : Except Failure (List (Ref × Ref)) := do
  let points ← s.functions.mapM (visitFunction env s)
  .ok points.flatten

def split (s : State) (point : Ref × Ref) : Except Failure State := do
  let (function2, h) ← splitFunctionBefore .offset s.heap point.2
  .ok { s with heap := h, functions := s.functions ++ [function2] }

/-- Rounds of splitting until there is nothing to split. -/
def visit (nonReturnPass : State → Except Failure State) : Nat → State → Except Failure State
  | 0, _ => .error .diverged
  | fuel + 1, s => do
    let points ← splitPoints env s
    let s ← points.foldlM split s
    if points = [] then .ok s
    else do
      let s ← nonReturnPass s
      visit nonReturnPass fuel s

/-! ## Rounds -/

/-- The functions are laid out and their control flow graphs can be built. -/
structure Prepared (s : State) : Prop where
  wellFormed : WellFormed s.heap
  positioned : Positioned s.heap
  top : ∀ f ∈ s.functions, ∃ a, TopFunction s.heap f a
  nonempty : ∀ f ∈ s.functions, s.heap.children f ≠ []
  blocks : ∀ f ∈ s.functions, BlocksOK s.heap (s.heap.children f)

def SingleNop (h : Heap Semantic) (b : Ref) : Prop := ∃ i, h.children b = [i] ∧ env.isNop i = some true

/-- The control flow graph of each function without a symbol leads from the first block to all others but single nops. -/
def Connected (s : State) : Prop :=
  ∀ f ∈ s.functions, f ∉ s.named → ∃ cfg, construct env.arch s.heap (s.heap.children f) = .ok cfg ∧
    ∀ root, root.val = 0 → ∀ id,
      DepthFirst.Reaches cfg.targets root id ∨ SingleNop env s.heap ((s.heap.children f).get id)

variable {env} {s : State} {f b : Ref}

theorem orders_laps {n} (targets : Fin n → List (Fin n)) (hn : n ≠ 0) : ∃ first laps,
    orders targets = .ok (first :: laps) ∧ (∀ root, root.val = 0 → ∀ v, v ∈ first ↔ DepthFirst.Reaches targets root v) ∧
      ∀ v, v ∈ first ∨ v ∈ laps.flatten := by
  have : NeZero n := ⟨hn⟩
  obtain ⟨first, laps, starts, hr, hf, -, -, ha⟩ := genFull_laps targets
  refine ⟨first, laps, ?_, fun root ht => ?_, ha⟩
  · rw [orders, dif_pos (pos_of_ne_zero hn)]
    exact hr
  · rwa [show root = 0 from Fin.ext ht]

variable {h : Heap Semantic} {blocks : List Ref} {part : List (Fin blocks.length)}

theorem splitPoint_none (hp : splitPoint env h part = .ok none) :
    ∃ id, part = [id] ∧ SingleNop env h (blocks.get id) := by
  unfold splitPoint at hp
  split at hp
  · cases hp
  · next id rest =>
    dsimp only at hp
    split at hp
    · cases hp
    · next instr hb =>
      split at hp
      · next hr =>
        split at hp
        · cases hp
        · next hn => exact ⟨id, by rw [hr], instr, hb, hn⟩
        · cases hp
      · cases hp
    · cases hp

theorem splitPoint_some (hp : splitPoint env h part = .ok (some b)) : b ∈ blocks := by
  unfold splitPoint at hp
  split at hp
  · cases hp
  · next id rest =>
    have hm := get_mem blocks id
    dsimp only at hp
    split at hp
    · cases hp
    · split at hp
      · split at hp
        · cases hp
        · cases hp
        · rwa [← Option.some.inj (Except.ok.inj hp)]
      · rwa [← Option.some.inj (Except.ok.inj hp)]
    · rwa [← Option.some.inj (Except.ok.inj hp)]

theorem visitFunction_eq (env : Env) (hs : Prepared s) (hf : f ∈ s.functions) (hm : f ∉ s.named) :
    ∃ cfg, ∃ first : List (Fin (s.heap.children f).length), ∃ laps : List (List (Fin (s.heap.children f).length)),
      construct env.arch s.heap (s.heap.children f) = .ok cfg ∧
      visitFunction env s f = (laps.reverse.mapM (splitPoint env s.heap) >>= fun points =>
        .ok (points.reduceOption.map fun block => (f, block))) ∧
      (∀ root, root.val = 0 → ∀ v, v ∈ first ↔ DepthFirst.Reaches cfg.targets root v) ∧
      ∀ v, v ∈ first ∨ v ∈ laps.flatten := by
  obtain ⟨cfg, hc⟩ := construct_ok env.arch hs.wellFormed.toLinkage (hs.blocks f hf)
  have hn := length_eq_zero_iff.not.2 (hs.nonempty f hf)
  obtain ⟨first, laps, hr, hfr, ha⟩ := orders_laps cfg.targets hn
  refine ⟨cfg, first, laps, hc, ?_, hfr, ha⟩
  rw [visitFunction, if_neg hm, ok_bind hc, ok_bind hr]
  rfl

theorem splitPoints_mem (hs : Prepared s) {points} (hr : splitPoints env s = .ok points) :
    ∀ p ∈ points, p.1 ∈ s.functions ∧ p.2 ∈ s.heap.children p.1 := by
  obtain ⟨lists, hl, ht⟩ := bind_iff.1 hr
  cases ht
  intro p hp
  obtain ⟨list, hlt, hp⟩ := mem_flatten.1 hp
  obtain ⟨f, hf, hv⟩ := (mapM_mem hl).2 list hlt
  by_cases hn : f ∈ s.named
  · rw [visitFunction, if_pos hn] at hv
    cases hv
    cases hp
  · obtain ⟨cfg, first, laps, -, heq, -⟩ := visitFunction_eq env hs hf hn
    rw [heq] at hv
    obtain ⟨found, hd, hm⟩ := bind_iff.1 hv
    cases hm
    obtain ⟨block, hb, rfl⟩ := mem_map.1 hp
    obtain ⟨part, -, hpt⟩ := (mapM_mem hd).2 _ (reduceOption_mem_iff.1 hb)
    exact ⟨hf, splitPoint_some hpt⟩

/-- Without a split point, all parts after the first are single nops. -/
theorem connected_of_splitPoints (hs : Prepared s) (hr : splitPoints env s = .ok []) : Connected env s := by
  obtain ⟨lists, hl, ht⟩ := bind_iff.1 hr
  have he := flatten_eq_nil_iff.1 (Except.ok.inj ht)
  intro f hf hn
  obtain ⟨cfg, first, laps, hc, heq, hfr, ha⟩ := visitFunction_eq env hs hf hn
  obtain ⟨list, hlt, hv⟩ := (mapM_mem hl).1 f hf
  rw [heq, he list hlt] at hv
  obtain ⟨found, hd, hmp⟩ := bind_iff.1 hv
  have hnn := map_eq_nil_iff.1 (Except.ok.inj hmp)
  refine ⟨cfg, hc, fun root hrt id => ?_⟩
  rcases ha id with hin | hin
  · exact .inl ((hfr root hrt id).1 hin)
  · obtain ⟨part, hpr, hi⟩ := mem_flatten.1 hin
    obtain ⟨point, hpt, hsl⟩ := (mapM_mem hd).1 part (mem_reverse.2 hpr)
    cases point with
    | none =>
      obtain ⟨id', rfl, hp⟩ := splitPoint_none hsl
      rw [mem_singleton.1 hi]
      exact .inr hp
    | some block =>
      have hm := reduceOption_mem_iff.2 hpt
      rw [hnn] at hm
      cases hm

theorem split_fails (hs : Prepared s) (hf : f ∈ s.functions) (hb : b ∈ s.heap.children f) :
    split s (f, b) = .error .assertion := by
  obtain ⟨a, ht⟩ := hs.top f hf
  obtain ⟨a', hat⟩ := (hs.blocks f hf).address b hb
  obtain ⟨B1, B2, hB⟩ := append_of_mem hb
  exact error_bind (splitFunctionBefore_fails hs.wellFormed hs.positioned ht hB hat) _

/-! ## The whole pass -/

/-- The pass returns exactly if there is nothing to split. Then no block has moved, and what the walk over a function
    does not reach are single nops. -/
theorem visit_splits_nothing (hs : Prepared s) (nonReturnPass : State → Except Failure State) (fuel : Nat) :
    visit env nonReturnPass (fuel + 1) s = (match splitPoints env s with
      | .ok [] => .ok s
      | .ok (_ :: _) => .error .assertion
      | .error e => .error e) ∧
    (visit env nonReturnPass (fuel + 1) s = .ok s → Connected env s) := by
  cases hpt : splitPoints env s with
  | error e =>
    have hvis : visit env nonReturnPass (fuel + 1) s = .error e := error_bind hpt _
    rw [hvis]
    exact ⟨rfl, fun h => by cases h⟩
  | ok points =>
    cases points with
    | nil => exact ⟨ok_bind hpt _, fun _ => connected_of_splitPoints hs hpt⟩
    | cons p rest =>
      obtain ⟨hf, hb⟩ := splitPoints_mem hs hpt p mem_cons_self
      have hfd : (p :: rest).foldlM split s = .error .assertion := by
        rw [foldlM_cons]
        exact error_bind (split_fails hs hf hb) _
      have hvis : visit env nonReturnPass (fuel + 1) s = .error .assertion :=
        (ok_bind hpt _).trans (error_bind hfd _)
      rw [hvis]
      exact ⟨rfl, fun h => by cases h⟩

/-- A function of two blocks, of one instruction each. -/
def twoBlocks (first : Semantic) : Heap Semantic where
  kind
    | 0 => .function
    | 1 | 2 => .block
    | _ => .instruction
  parent
    | 1 | 2 => some 0
    | 3 => some 1
    | 4 => some 2
    | _ => none
  prev
    | 2 => some 1
    | _ => none
  next
    | 1 => some 2
    | _ => none
  children
    | 0 => [1, 2]
    | 1 => [3]
    | 2 => [4]
    | _ => []
  computedSize
    | 0 => 8
    | 1 | 2 => 4
    | _ => 0
  semantic
    | 3 => first
    | _ => .isolated 4
  position
    | 0 => some ⟨.absolute 0x1000, .plain⟩
    | 2 => some (offsetPosition 4)
    | 1 | 3 | 4 => some (offsetPosition 0)
    | _ => none
  fresh := 5

theorem twoBlocks_wellFormed {first} (hs : Sized.size first = 4) : WellFormed (twoBlocks first) where
  linked
    | 0 | 1 | 2 => ⟨by simp [twoBlocks], by simp [twoBlocks, Linked], by simp [twoBlocks],
        by simp [twoBlocks, Kind.childType]⟩
    | _ + 3 => ⟨nodup_nil, trivial, nofun, nofun⟩
  allocated
    | 0 | 1 | 2 => by simp [twoBlocks]
    | _ + 3 => nofun
  balanced
    | 0, _ => rfl
    | 1, _ => by simp [twoBlocks, total, getSize, hs]
    | 2, _ => rfl
    | _ + 3, ht => by rcases ht with ht | ht <;> cases ht

theorem twoBlocks_positioned (first) : Positioned (twoBlocks first) where
  shape
    | 0 => .inr (.inr ⟨0x1000, rfl⟩)
    | 1 | 3 | 4 => .inr ⟨0, rfl⟩
    | 2 => .inr ⟨4, rfl⟩
    | _ + 5 => .inl rfl
  child
    | 0, _ | 1, _ | 2, _ => by simp [twoBlocks]
    | _ + 3, _ => nofun

theorem twoBlocks_prepared (first) (hs : Sized.size first = 4) (hok : SemanticOK (twoBlocks first) first) :
    Prepared ⟨twoBlocks first, [0], []⟩ := by
  have h0 : At (twoBlocks first) 0 0x1000 := .absolute rfl
  have h1 : At (twoBlocks first) 1 0x1000 := .child (o := 0) rfl (c := 0) mem_cons_self h0
  have h2 : At (twoBlocks first) 2 0x1004 := .child (o := 4) rfl (c := 0) (mem_cons_of_mem _ mem_cons_self) h0
  have h3 : At (twoBlocks first) 3 0x1000 := .child (o := 0) rfl (c := 1) mem_cons_self h1
  have h4 : At (twoBlocks first) 4 0x1004 := .child (o := 0) rfl (c := 2) mem_cons_self h2
  refine ⟨twoBlocks_wellFormed hs, twoBlocks_positioned first, ?_, ?_, ?_⟩
  all_goals
    intro f hf
    obtain rfl := mem_singleton.1 hf
  · exact ⟨0x1000, rfl, rfl, rfl⟩
  · exact cons_ne_nil _ _
  · have hlt : (twoBlocks first).children 0 = [1, 2] := rfl
    have hl1 : (twoBlocks first).children 1 = [3] := rfl
    have hl2 : (twoBlocks first).children 2 = [4] := rfl
    constructor
    · simp only [hlt, forall_mem_cons]
      exact ⟨⟨_, h1⟩, ⟨_, h2⟩, by simp⟩
    · simp [hlt, hl1, hl2]
    · simp only [hlt, hl1, hl2, forall_mem_cons]
      exact ⟨⟨⟨⟨_, h3⟩, hok⟩, by simp⟩, ⟨⟨⟨_, h4⟩, trivial⟩, by simp⟩, by simp⟩

theorem visit_splits_nothing_fallThrough :
    visit ⟨.aarch64, fun _ => some false⟩ .ok 1 ⟨twoBlocks (.isolated 4), [0], []⟩ =
      .ok ⟨twoBlocks (.isolated 4), [0], []⟩ :=
  (visit_splits_nothing (twoBlocks_prepared (.isolated 4) rfl trivial) .ok 0).1

/-- The first block returns, so the second is to be a function of its own. -/
theorem visit_fails_at_split :
    splitPoints ⟨.aarch64, fun _ => some false⟩ ⟨twoBlocks (.ret 4), [0], []⟩ = .ok [(0, 2)] ∧
      visit ⟨.aarch64, fun _ => some false⟩ .ok 3 ⟨twoBlocks (.ret 4), [0], []⟩ = .error .assertion := by
  have hpt : splitPoints ⟨.aarch64, fun _ => some false⟩ ⟨twoBlocks (.ret 4), [0], []⟩ = .ok [(0, 2)] := rfl
  have hsl := split_fails (twoBlocks_prepared (.ret 4) rfl trivial) mem_cons_self (mem_cons_of_mem _ mem_cons_self)
  exact ⟨hpt, (ok_bind hpt _).trans (error_bind (error_bind hsl _) _)⟩

end Egalito.SplitFunction
