/-
The use-def analysis of registers (UseDef::analyze): the components of SccOrder are swept once, or twice if they have
several nodes.

A sweep moves a definition along the links between the blocks it visits in turn, so a definition that reaches a use is
found exactly if a path occurs among the visits (`Scheduled`). `analyze_complete_iff` gives this for every order, and
`analyze_exact` that the references are reaching definitions, and without cycles all of them.
-/
import Egalito.Analysis.Components
import Egalito.Lib.DefUse

namespace Egalito.UseDef

open Lib List
open Function (update update_of_ne update_self)

/-- What a handler does with a register. -/
inductive Action (ρ : Type)
  | useReg (reg : ρ)
  | defReg (reg : ρ)
deriving DecidableEq

/-- A link, with the number of the instruction that it leads to in the target. -/
structure ControlFlowLink (n : Nat) where
  target : Fin n
  offset : Nat

abbrev UDState (n : Nat) := Fin n × Nat

/-- The nodes with the links and, for each instruction of a block, the actions of its handler, if it has one. -/
structure ControlFlowGraph (n : Nat) (ρ : Type) where
  block : Fin n → List (List (Action ρ))
  links : Fin n → List (ControlFlowLink n)

namespace ControlFlowGraph

variable {n : Nat} {ρ : Type} (g : ControlFlowGraph n ρ)

/-- The actions of a block one after the other, each with its state. -/
def steps (b : Fin n) : List (UDState n × Action ρ) :=
  (g.block b).zipIdx.flatMap fun instr => instr.1.map fun action => ((b, instr.2), action)

/-- The number of the first action from an instruction on. -/
def start (link : ControlFlowLink n) : Nat :=
  ((g.block link.target).take link.offset).flatten.length

def targets (b : Fin n) : List (Fin n) := (g.links b).map ControlFlowLink.target

def backwardLinks (b : Fin n) : List (Fin n) :=
  (finRange n).flatMap fun a => ((g.targets a).filter (· = b)).map fun _ => a

/-- The control flow from action to action. The point after the last action is the end of the block. -/
def flow : Flow (Fin n × Nat) ρ where
  next p q :=
    p.2 < (g.steps p.1).length ∧ q = (p.1, p.2 + 1) ∨
      p.2 = (g.steps p.1).length ∧ ∃ link ∈ g.links p.1, q = (link.target, g.start link)
  defines p r := ∃ s, (g.steps p.1)[p.2]? = some (s, .defReg r)

/-- The definition of the register in `d` reaches a use in `s` along a path of the graph. -/
def ReachesUse (r : ρ) (d s : UDState n) : Prop :=
  ∃ p q, (g.steps p.1)[p.2]? = some (d, .defReg r) ∧ (g.steps q.1)[q.2]? = some (s, .useReg r) ∧ g.flow.Clear r p q

end ControlFlowGraph

section Model

variable {n : Nat} {ρ : Type} [DecidableEq ρ]

def addRef (l : List (UDState n)) (origin : UDState n) : List (UDState n) := if origin ∈ l then l else l ++ [origin]

/-- The exposed set of each node, and the reference lists of the states. -/
structure Working (n : Nat) (ρ : Type) where
  exposed : Fin n → ρ → List (UDState n)
  regRef : UDState n → ρ → List (UDState n)

def Working.new (n : Nat) (ρ : Type) : Working n ρ := ⟨fun _ _ => [], fun _ _ => []⟩

variable (g : ControlFlowGraph n ρ)

/-- The exposed set of `a` is added to that of `b`. -/
def mergeFrom (b : Fin n) (exposed : Fin n → ρ → List (UDState n)) (a : Fin n) : Fin n → ρ → List (UDState n) :=
  update exposed b fun r => (exposed a r).foldl addRef (exposed b r)

def transitionTo (w : Working n ρ) (b : Fin n) : Working n ρ :=
  { w with exposed := (g.backwardLinks b).foldl (mergeFrom b) (update w.exposed b fun _ => []) }

/-- useReg and defReg in the block `b`, where partial chains are not tracked. -/
def fillState (b : Fin n) (w : Working n ρ) (step : UDState n × Action ρ) : Working n ρ :=
  match step.2 with
  | .useReg r =>
    { w with
      regRef := update w.regRef step.1
        (update (w.regRef step.1) r ((w.exposed b r).foldl addRef (w.regRef step.1 r))) }
  | .defReg r => { w with exposed := update w.exposed b (update (w.exposed b) r [step.1]) }

def analyzeNode (w : Working n ρ) (b : Fin n) : Working n ρ := (g.steps b).foldl (fillState b) (transitionTo g w b)

def analyzeGraph (w : Working n ρ) (order : List (Fin n)) : Working n ρ := order.foldl (analyzeNode g) w

/-- A component of one node is swept once, any other one twice. -/
def analyze (order : List (List (Fin n))) : Working n ρ :=
  order.foldl (fun w o =>
    let w := analyzeGraph g w o
    if o.length > 1 then analyzeGraph g w o else w) (Working.new n ρ)

/-- Every definition that reaches a use is in the reference list. -/
def Complete (w : Working n ρ) : Prop := ∀ r d s, g.ReachesUse r d s → d ∈ w.regRef s r

end Model

/-! ## One visit -/

section Visit

variable {n : Nat} {ρ : Type} {g : ControlFlowGraph n ρ} {w : Working n ρ} {a b : Fin n} {r : ρ} {d s : UDState n}

theorem mem_addRef {l origin} : d ∈ addRef l origin ↔ d ∈ l ∨ d = origin := by
  unfold addRef
  split
  · next h =>
    refine (or_iff_left_of_imp ?_).symm
    rintro rfl
    exact h
  · simp

theorem mem_foldl_addRef : ∀ {l' l : List (UDState n)}, d ∈ l'.foldl addRef l ↔ d ∈ l ∨ d ∈ l'
  | [], _ => by simp
  | o :: l', l => by rw [foldl_cons, mem_foldl_addRef, mem_addRef, mem_cons, or_assoc]

theorem foldl_mergeFrom_of_ne (h : a ≠ b) : ∀ (l : List (Fin n)) (exposed : Fin n → ρ → List (UDState n)),
    l.foldl (mergeFrom b) exposed a = exposed a
  | [], _ => rfl
  | c :: l, exposed => by
    rw [foldl_cons, foldl_mergeFrom_of_ne h l, mergeFrom, update_of_ne h]

theorem mem_foldl_mergeFrom : ∀ {l : List (Fin n)} {exposed : Fin n → ρ → List (UDState n)},
    d ∈ l.foldl (mergeFrom b) exposed b r ↔ d ∈ exposed b r ∨ ∃ a ∈ l, a ≠ b ∧ d ∈ exposed a r
  | [], _ => by simp
  | c :: l, exposed => by
    have hs : d ∈ mergeFrom b exposed c b r ↔ d ∈ exposed b r ∨ d ∈ exposed c r := by
      rw [mergeFrom, update_self, mem_foldl_addRef]
    have hk {a : Fin n} (h : a ≠ b) : mergeFrom b exposed c a r = exposed a r := by
      rw [mergeFrom, update_of_ne h]
    rw [foldl_cons, mem_foldl_mergeFrom, hs]
    constructor
    · rintro ((h | h) | ⟨a, ha, hne, h⟩)
      · exact .inl h
      · by_cases hc : c = b
        · exact .inl (hc ▸ h)
        · exact .inr ⟨c, mem_cons_self, hc, h⟩
      · exact .inr ⟨a, mem_cons_of_mem c ha, hne, by rwa [hk hne] at h⟩
    · rintro (h | ⟨a, ha, hne, h⟩)
      · exact .inl (.inl h)
      · rcases mem_cons.1 ha with rfl | ha
        · exact .inl (.inr h)
        · exact .inr ⟨a, ha, hne, by rwa [hk hne]⟩

theorem mem_backwardLinks : a ∈ g.backwardLinks b ↔ b ∈ g.targets a := by
  simp [ControlFlowGraph.backwardLinks]

theorem mem_transitionTo : d ∈ (transitionTo g w b).exposed b r ↔ ∃ a, b ∈ g.targets a ∧ a ≠ b ∧ d ∈ w.exposed a r := by
  unfold transitionTo
  rw [mem_foldl_mergeFrom, update_self, or_iff_right (by simp)]
  constructor
  · rintro ⟨a, ha, hne, h⟩
    rw [update_of_ne hne] at h
    exact ⟨a, mem_backwardLinks.1 ha, hne, h⟩
  · rintro ⟨a, ha, hne, h⟩
    refine ⟨a, mem_backwardLinks.2 ha, hne, ?_⟩
    rwa [update_of_ne hne]

theorem transitionTo_of_ne (h : a ≠ b) : (transitionTo g w b).exposed a = w.exposed a := by
  unfold transitionTo
  dsimp only
  rw [foldl_mergeFrom_of_ne h, update_of_ne h]

variable [DecidableEq ρ]

/-- The state of the last definition of the register. -/
def lastDef (r : ρ) (l : List (UDState n × Action ρ)) : Option (UDState n) :=
  l.foldl (fun last step => if step.2 = .defReg r then some step.1 else last) none

theorem lastDef_concat (l) (step : UDState n × Action ρ) :
    lastDef r (l ++ [step]) = if step.2 = .defReg r then some step.1 else lastDef r l := by
  rw [lastDef, foldl_append]
  rfl

theorem lastDef_take_succ {l : List (UDState n × Action ρ)} {k : Nat} {step : UDState n × Action ρ} (h : l[k]? = some step) :
    lastDef r (l.take (k + 1)) = if step.2 = .defReg r then some step.1 else lastDef r (l.take k) := by
  rw [take_add_one, h]
  exact lastDef_concat _ _

/-- What a set has become after the actions. -/
def afterSteps (r : ρ) (l : List (UDState n × Action ρ)) (set : List (UDState n)) : List (UDState n) :=
  match lastDef r l with
  | some d => [d]
  | none => set

theorem mem_afterSteps {l set} : d ∈ afterSteps r l set ↔ lastDef r l = some d ∨ lastDef r l = none ∧ d ∈ set := by
  unfold afterSteps
  split
  · next d' h => simp [h, eq_comm]
  · next h => simp [h]

theorem fillState_exposed_of_ne (h : a ≠ b) (step) : (fillState b w step).exposed a = w.exposed a := by
  unfold fillState
  split
  · rfl
  · exact update_of_ne h _ _

theorem fillState_exposed (l set) (step : UDState n × Action ρ)
    (h : w.exposed b r = afterSteps r l set) : (fillState b w step).exposed b r = afterSteps r (l ++ [step]) set := by
  obtain ⟨state, action⟩ := step
  unfold afterSteps
  rw [lastDef_concat]
  cases action with
  | useReg r' => exact h
  | defReg r' =>
    simp only [fillState, update_self, Action.defReg.injEq]
    by_cases hr : r' = r
    · rw [if_pos hr, hr, update_self]
    · rw [if_neg hr, update_of_ne (Ne.symm hr)]
      exact h

theorem mem_fillState_regRef (step) :
    d ∈ (fillState b w step).regRef s r ↔ d ∈ w.regRef s r ∨ step = (s, .useReg r) ∧ d ∈ w.exposed b r := by
  obtain ⟨state, action⟩ := step
  cases action with
  | defReg r' => simp [fillState]
  | useReg r' =>
    simp only [fillState, Prod.mk.injEq, Action.useReg.injEq]
    by_cases hs : s = state
    · subst hs
      rw [update_self]
      by_cases hr : r = r'
      · subst hr
        rw [update_self, mem_foldl_addRef]
        simp
      · rw [update_of_ne hr]
        simp [Ne.symm hr]
    · rw [update_of_ne hs]
      simp [Ne.symm hs]

theorem foldl_fillState_exposed_of_ne (h : a ≠ b) : ∀ (l : List (UDState n × Action ρ)) (w : Working n ρ),
    (l.foldl (fillState b) w).exposed a = w.exposed a
  | [], _ => rfl
  | step :: l, w => by rw [foldl_cons, foldl_fillState_exposed_of_ne h l, fillState_exposed_of_ne h]

theorem foldl_fillState_exposed (w l) : (l.foldl (fillState b) w).exposed b r = afterSteps r l (w.exposed b r) := by
  induction l using reverseRecOn with
  | nil => rfl
  | append_singleton l step ih =>
    rw [foldl_append, foldl_cons, foldl_nil]
    exact fillState_exposed l _ step ih

theorem mem_foldl_fillState_regRef (w) (l : List (UDState n × Action ρ)) : d ∈ (l.foldl (fillState b) w).regRef s r ↔
      d ∈ w.regRef s r ∨ ∃ k : Nat, l[k]? = some (s, .useReg r) ∧ d ∈ afterSteps r (l.take k) (w.exposed b r) := by
  induction l using reverseRecOn with
  | nil => simp
  | append_singleton l step ih =>
    rw [foldl_append, foldl_cons, foldl_nil, mem_fillState_regRef, ih, foldl_fillState_exposed, or_assoc]
    apply or_congr_right
    constructor
    · rintro (⟨k, hk, hd⟩ | ⟨rfl, hd⟩)
      · have hlt : k < l.length := (List.getElem?_eq_some_iff.1 hk).1
        refine ⟨k, by rwa [getElem?_append_left hlt], ?_⟩
        rwa [take_append_of_le_length hlt.le]
      · exact ⟨l.length, by simp, by simpa using hd⟩
    · rintro ⟨k, hk, hd⟩
      rcases Nat.lt_or_ge k l.length with hlt | hge
      · rw [getElem?_append_left hlt] at hk
        rw [take_append_of_le_length hlt.le] at hd
        exact .inl ⟨k, hk, hd⟩
      · have hl : k = l.length := by
          have hb := (List.getElem?_eq_some_iff.1 hk).1
          rw [length_append, length_singleton] at hb
          omega
        subst hl
        right
        simpa using And.intro hk hd

end Visit

/-! ## All visits -/

section Run

variable {n : Nat} {ρ : Type} [DecidableEq ρ] (g : ControlFlowGraph n ρ)

/-- The definition in `d` is carried to the end of a block along a path, the last block first, without another
    definition and without a step from a block to itself. -/
inductive Carries (r : ρ) (d : UDState n) : List (Fin n) → Fin n → Prop
  | leave {b : Fin n} (h : lastDef r (g.steps b) = some d) : Carries r d [b] b
  | pass {a b : Fin n} {path : List (Fin n)} (h : Carries r d path a) (hlink : b ∈ g.targets a) (hne : a ≠ b)
      (hpass : lastDef r (g.steps b) = none) : Carries r d (b :: path) b

/-- The use in `s` is reached by the definition in `d`, in the block or along a path of blocks that were visited in this
    order. -/
def Scheduled (trace : List (Fin n)) (r : ρ) (d s : UDState n) : Prop :=
  ∃ b k, (g.steps b)[k]? = some (s, .useReg r) ∧
    (lastDef r ((g.steps b).take k) = some d ∧ b ∈ trace ∨
      lastDef r ((g.steps b).take k) = none ∧ ∃ a path, Carries g r d path a ∧ b ∈ g.targets a ∧ a ≠ b ∧
        (b :: path).Sublist trace)

/-- The working set after visits, the last one first. -/
def after : List (Fin n) → Working n ρ
  | [] => Working.new n ρ
  | b :: trace => analyzeNode g (after trace) b

variable {g} {trace : List (Fin n)} {a b : Fin n} {r : ρ} {d s : UDState n}

theorem Carries.head {path} (h : Carries g r d path b) : ∃ rest, path = b :: rest := by
  cases h with
  | leave _ => exact ⟨[], rfl⟩
  | pass _ _ _ _ => exact ⟨_, rfl⟩

theorem mem_exposed : ∀ {trace : List (Fin n)} {b : Fin n},
    d ∈ (after g trace).exposed b r ↔ ∃ path, Carries g r d path b ∧ path.Sublist trace
  | [], b => by
    constructor
    · intro h
      simp [after, Working.new] at h
    · rintro ⟨path, h, hs⟩
      obtain ⟨rest, rfl⟩ := h.head
      simp at hs
  | v :: trace, b => by
    rw [after, analyzeNode]
    by_cases hb : b = v
    · subst hb
      rw [foldl_fillState_exposed, mem_afterSteps, mem_transitionTo]
      constructor
      · rintro (h | ⟨hp, a, hlk, hne, h⟩)
        · exact ⟨[b], .leave h, singleton_sublist.2 mem_cons_self⟩
        · obtain ⟨path, hh, hs⟩ := mem_exposed.1 h
          exact ⟨b :: path, .pass hh hlk hne hp, hs.cons_cons b⟩
      · rintro ⟨path, h, hs⟩
        cases h with
        | leave h => exact .inl h
        | pass h hlk hne hp =>
          exact .inr ⟨hp, _, hlk, hne, mem_exposed.2 ⟨_, h, cons_sublist_cons.1 hs⟩⟩
    · rw [foldl_fillState_exposed_of_ne hb, transitionTo_of_ne hb, mem_exposed]
      -- a path to another block does not use the last visit
      apply exists_congr
      intro path
      apply and_congr_right
      intro h
      obtain ⟨rest, rfl⟩ := h.head
      constructor
      · exact fun hs => hs.cons v
      · intro hs
        cases hs with
        | cons _ hs => exact hs
        | cons_cons _ _ => exact absurd rfl hb

theorem mem_regRef : ∀ {trace}, d ∈ (after g trace).regRef s r ↔ Scheduled g trace r d s
  | [] => by
    constructor
    · intro h
      simp [after, Working.new] at h
    · rintro ⟨b, k, -, ⟨-, hm⟩ | ⟨-, a, path, -, -, -, hs⟩⟩
      · simp at hm
      · simp at hs
  | v :: trace => by
    rw [after, analyzeNode, mem_foldl_fillState_regRef]
    change d ∈ (after g trace).regRef s r ∨ _ ↔ _
    rw [mem_regRef]
    constructor
    · rintro (⟨b, k, hu, h⟩ | ⟨k, hu, h⟩)
      · refine ⟨b, k, hu, h.imp ?_ ?_⟩
        · exact fun h => ⟨h.1, mem_cons_of_mem v h.2⟩
        · rintro ⟨hn, a, path, hp, hlk, hne, hs⟩
          exact ⟨hn, a, path, hp, hlk, hne, hs.cons v⟩
      · refine ⟨v, k, hu, (mem_afterSteps.1 h).imp ?_ ?_⟩
        · exact fun h => ⟨h, mem_cons_self⟩
        · rintro ⟨hn, h⟩
          obtain ⟨a, hlk, hne, h⟩ := mem_transitionTo.1 h
          obtain ⟨path, hp, hs⟩ := mem_exposed.1 h
          exact ⟨hn, a, path, hp, hlk, hne, hs.cons_cons v⟩
    · rintro ⟨b, k, hu, ⟨hlt, hm⟩ | ⟨hn, a, path, hp, hlk, hne, hs⟩⟩
      · rcases mem_cons.1 hm with rfl | hm
        · exact .inr ⟨k, hu, mem_afterSteps.2 (.inl hlt)⟩
        · exact .inl ⟨b, k, hu, .inl ⟨hlt, hm⟩⟩
      · cases hs with
        | cons _ hs => exact .inl ⟨b, k, hu, .inr ⟨hn, a, path, hp, hlk, hne, hs⟩⟩
        | cons_cons _ hs =>
          refine .inr ⟨k, hu, mem_afterSteps.2 (.inr ⟨hn, mem_transitionTo.2 ?_⟩)⟩
          exact ⟨a, hlk, hne, mem_exposed.2 ⟨path, hp, hs⟩⟩

/-- The visits of `analyze` one after the other. -/
def visits (order : List (List (Fin n))) : List (Fin n) :=
  order.flatMap fun o => if o.length > 1 then o ++ o else o

theorem foldl_analyzeNode : ∀ (l trace : List (Fin n)), l.foldl (analyzeNode g) (after g trace) = after g (l.reverse ++ trace)
  | [], _ => rfl
  | b :: l, trace => by
    rw [foldl_cons]
    change l.foldl (analyzeNode g) (after g (b :: trace)) = _
    rw [foldl_analyzeNode l]
    simp

theorem analyze_eq (order) : analyze g order = after g (visits order).reverse := by
  have hl : ∀ order (trace : List (Fin n)),
      order.foldl (fun w o =>
        let w := analyzeGraph g w o
        if o.length > 1 then analyzeGraph g w o else w) (after g trace) = after g ((visits order).reverse ++ trace) := by
    intro order
    induction order with
    | nil => exact fun _ => rfl
    | cons o order ih =>
      intro trace
      have hs : (if o.length > 1 then analyzeGraph g (analyzeGraph g (after g trace) o) o
          else analyzeGraph g (after g trace) o) =
            after g ((if o.length > 1 then o ++ o else o).reverse ++ trace) := by
        unfold analyzeGraph
        split
        · rw [foldl_analyzeNode, foldl_analyzeNode]
          simp
        · rw [foldl_analyzeNode]
      rw [foldl_cons]
      rw [hs, ih]
      simp [visits]
  rw [analyze]
  have h := hl order []
  rwa [append_nil] at h

/-- Exactly the definitions along scheduled paths are found. -/
theorem mem_analyze (order) : d ∈ (analyze g order).regRef s r ↔ Scheduled g (visits order).reverse r d s := by
  rw [analyze_eq, mem_regRef]

/-- The analysis finds every definition that reaches a use if and only if each of them does so along a path
    that the sweeps follow. -/
theorem analyze_complete_iff [NeZero n] (g : ControlFlowGraph n ρ) : ∃ order, SccOrder.genFull g.targets = .ok order ∧
    (Complete g (analyze g order) ↔ ∀ r d s, g.ReachesUse r d s → Scheduled g (visits order).reverse r d s) := by
  obtain ⟨order, -, hod, -⟩ := SccOrder.genFull_components g.targets
  refine ⟨order, hod, ?_⟩
  unfold Complete
  simp only [mem_analyze]

end Run

/-! ## Graphs without loops -/

section Acyclic

variable {n : Nat} [DecidableEq ρ] {g : ControlFlowGraph n ρ} {r : ρ} {d : UDState n} {p q : Fin n × Nat}

/-- How a definition gets to a point: it is the last one before it in the block, or is carried to the end of a block
    before. -/
theorem clear_cases (ho : ∀ b, ∀ link ∈ g.links b, link.offset = 0) (hf : ∀ b, b ∉ g.targets b)
    (hdf : (g.steps p.1)[p.2]? = some (d, .defReg r)) (h : g.flow.Clear r p q) :
    q.2 ≤ (g.steps q.1).length ∧ (lastDef r ((g.steps q.1).take q.2) = some d ∨
      lastDef r ((g.steps q.1).take q.2) = none ∧ ∃ a path, Carries g r d path a ∧ q.1 ∈ g.targets a) := by
  induction h with
  | step h =>
    rcases h with ⟨hlt, rfl⟩ | ⟨he, -⟩
    · refine ⟨hlt, .inl ?_⟩
      rw [lastDef_take_succ hdf]
      exact if_pos rfl
    · rw [getElem?_eq_none he.ge] at hdf
      cases hdf
  | @pass t t' _ hd hnt ih =>
    obtain ⟨-, hc⟩ := ih
    rcases hnt with ⟨hlt, rfl⟩ | ⟨he, link, hlk, rfl⟩
    · -- on to the next action, which does not define the register
      have hs := getElem?_eq_getElem hlt
      have hm : lastDef r ((g.steps t.1).take (t.2 + 1)) = lastDef r ((g.steps t.1).take t.2) := by
        rw [lastDef_take_succ hs]
        refine if_neg fun hg => hd ⟨(g.steps t.1)[t.2].1, ?_⟩
        rw [hs, ← hg]
      refine ⟨hlt, ?_⟩
      rwa [hm]
    · -- over a link to the start of a block
      have hr : g.start link = 0 := by simp [ControlFlowGraph.start, ho t.1 link hlk]
      have ht : link.target ∈ g.targets t.1 := mem_map_of_mem hlk
      rw [he, take_length] at hc
      rw [hr]
      refine ⟨Nat.zero_le _, .inr ⟨rfl, ?_⟩⟩
      rcases hc with hl | ⟨hn, a, path, hp, hl'⟩
      · exact ⟨t.1, [t.1], .leave hl, ht⟩
      · refine ⟨t.1, t.1 :: path, .pass hp hl' ?_ hn, ht⟩
        rintro rfl
        exact hf _ hl'

theorem Topological.suffix {targets : Fin n → List (Fin n)} : ∀ {l1 l2},
    SccOrder.Topological targets (l1 ++ l2) → SccOrder.Topological targets l2
  | [], _, h => h
  | _ :: _, _, h => Topological.suffix h.2

theorem Carries.split {l} (hl : SccOrder.Topological g.targets l) (ha : ∀ b, b ∈ l) {path}
    {a : Fin n} (h : Carries g r d path a) :
    ∃ l1 l2, l = l1 ++ l2 ∧ path.reverse.Sublist l1 ∧ SccOrder.Topological g.targets l2 ∧ ∀ b ∈ g.targets a, b ∈ l2 := by
  induction h with
  | @leave b _ =>
    obtain ⟨pre, post, rfl⟩ := append_of_mem (ha b)
    have hp := Topological.suffix hl
    refine ⟨pre ++ [b], post, by simp, ?_, hp.2, hp.1⟩
    exact sublist_append_right pre [b]
  | @pass a b path _ hlk _ _ ih =>
    obtain ⟨l1, l2, rfl, hs, htp, ht⟩ := ih
    obtain ⟨pre, post, rfl⟩ := append_of_mem (ht b hlk)
    have hp := Topological.suffix htp
    refine ⟨l1 ++ pre ++ [b], post, by simp, ?_, hp.2, hp.1⟩
    rw [reverse_cons]
    exact (hs.trans (sublist_append_left l1 pre)).append (List.Sublist.refl [b])

theorem visits_map_singleton (l : List (Fin n)) : visits (l.map fun b => [b]) = l := by
  simp [visits, flatMap_map]

/-- Without loops and without jumps into blocks nothing is missed. -/
theorem complete_of_acyclic [NeZero n] {rank : Fin n → Nat} (hr : ∀ a, ∀ b ∈ g.targets a, rank b < rank a)
    (hos : ∀ b, ∀ link ∈ g.links b, link.offset = 0) :
    ∃ order, SccOrder.genFull g.targets = .ok order ∧ Complete g (analyze g order) := by
  obtain ⟨l, ho, htp, ha⟩ := SccOrder.genFull_topological hr
  refine ⟨_, ho, ?_⟩
  rintro r d s ⟨p, q, hd, hu, hc⟩
  have hf (b : Fin n) : b ∉ g.targets b := fun hb => lt_irrefl _ (hr b b hb)
  rw [mem_analyze, visits_map_singleton]
  refine ⟨q.1, q.2, hu, ?_⟩
  obtain ⟨-, hlt | ⟨hn, a, path, hp, hlk⟩⟩ := clear_cases hos hf hd hc
  · exact .inl ⟨hlt, by simp [ha]⟩
  · refine .inr ⟨hn, a, path, hp, hlk, ?_, ?_⟩
    · rintro rfl
      exact hf _ hlk
    · obtain ⟨l1, l2, rfl, hs, -, ht⟩ := hp.split htp ha
      rw [← reverse_sublist, reverse_reverse, reverse_cons]
      exact hs.append (singleton_sublist.2 (ht _ hlk))

end Acyclic

/-- A block that defines a register, before one that uses it. -/
def twoBlocks : ControlFlowGraph 2 Nat where
  block := ![[[.defReg 0]], [[.useReg 0]]]
  links := ![[⟨1, 0⟩], []]

theorem complete_twoBlocks :
    ∃ order, SccOrder.genFull twoBlocks.targets = .ok order ∧ Complete twoBlocks (analyze twoBlocks order) := by
  have hrk : ∀ a, ∀ b ∈ twoBlocks.targets a, (fun b : Fin 2 => 1 - b.val) b < 1 - a.val := by decide +kernel
  have hos : ∀ b, ∀ link ∈ twoBlocks.links b, link.offset = 0 := by
    intro b
    fin_cases b
    · exact forall_mem_singleton.mpr rfl
    · exact forall_mem_nil _
  obtain ⟨order', hor', hcm⟩ := complete_of_acyclic hrk hos
  obtain ⟨order, hod, hiff⟩ := analyze_complete_iff twoBlocks
  obtain rfl := Except.ok.inj (hod.symm.trans hor')
  refine ⟨order, hod, hiff.mpr ?_⟩
  intro r d s hrh
  exact (mem_analyze order).mp (hcm r d s hrh)

/-- A block that uses a register, defines it and jumps to itself. -/
def selfLoop : ControlFlowGraph 1 Nat where
  block := ![[[.useReg 0], [.defReg 0]]]
  links := ![[⟨0, 0⟩]]

local instance neZero4 : NeZero 4 := ⟨by decide⟩

/-- A loop in a loop: the outer test 1 uses the register, the inner test 2 goes back to it, and the inner
    body 3 defines the register. -/
def nestedLoop : ControlFlowGraph 4 Nat where
  block := ![[], [[.useReg 0]], [], [[.defReg 0]]]
  links := ![[⟨1, 0⟩], [⟨2, 0⟩], [⟨3, 0⟩, ⟨1, 0⟩], [⟨2, 0⟩]]

theorem not_complete_loops :
    (SccOrder.genFull selfLoop.targets = .ok [[0]] ∧ ¬Complete selfLoop (analyze selfLoop [[0]])) ∧
    SccOrder.genFull nestedLoop.targets = .ok [[0], [1, 2, 3]] ∧
      ¬Complete nestedLoop (analyze nestedLoop [[0], [1, 2, 3]]) := by
  refine ⟨⟨by decide +kernel, ?_⟩, by decide +kernel, ?_⟩
  · intro h
    have hbk : selfLoop.flow.Clear 0 (0, 1) (0, 0) := by
      apply Flow.Clear.pass (t := (0, 2)) (.step (Or.inl ⟨by decide +kernel, rfl⟩))
      · rintro ⟨_, ⟨⟩⟩
      · exact Or.inr ⟨rfl, ⟨0, 0⟩, mem_singleton_self _, rfl⟩
    exact absurd (h 0 (0, 1) (0, 0) ⟨_, _, rfl, rfl, hbk⟩) (by decide +kernel)
  · intro h
    have hbk : nestedLoop.flow.Clear 0 (3, 0) (1, 0) := by
      apply Flow.Clear.pass (t := (2, 0))
      · apply Flow.Clear.pass (t := (3, 1)) (.step (Or.inl ⟨by decide +kernel, rfl⟩))
        · rintro ⟨_, ⟨⟩⟩
        · exact Or.inr ⟨rfl, ⟨2, 0⟩, mem_singleton_self _, rfl⟩
      · rintro ⟨_, ⟨⟩⟩
      · exact Or.inr ⟨rfl, ⟨1, 0⟩, mem_cons_of_mem _ (mem_singleton_self _), rfl⟩
    exact absurd (h 0 (3, 0) (1, 0) ⟨_, _, rfl, rfl, hbk⟩) (by decide +kernel)

/-! ## Nothing else is found -/

section Sound

variable {n : Nat} {ρ : Type} {g : ControlFlowGraph n ρ} {r : ρ} {b : Fin n} {d s : UDState n} {p : Fin n × Nat} {k : Nat}

theorem clear_succ (hk : k < (g.steps b).length) (hd : (g.steps b)[k].2 ≠ .defReg r) (h : g.flow.Clear r p (b, k)) :
    g.flow.Clear r p (b, k + 1) := by
  refine h.pass ?_ (.inl ⟨hk, rfl⟩)
  rintro ⟨t, ht⟩
  rw [getElem?_eq_getElem hk] at ht
  exact hd (congrArg Prod.snd (Option.some.inj ht))

variable [DecidableEq ρ]

theorem exists_of_lastDef (hk : k ≤ (g.steps b).length) (h : lastDef r ((g.steps b).take k) = some d) :
    ∃ j, (g.steps b)[j]? = some (d, .defReg r) ∧ g.flow.Clear r (b, j) (b, k) := by
  induction k with
  | zero => simp [lastDef] at h
  | succ k ih =>
    have hs := getElem?_eq_getElem hk
    rw [lastDef_take_succ hs] at h
    split at h
    · next hd =>
      refine ⟨k, ?_, .step (.inl ⟨hk, rfl⟩)⟩
      rw [hs, ← hd, ← Option.some.inj h]
    · next hd =>
      obtain ⟨j, hj, hc⟩ := ih (Nat.le_of_succ_le hk) h
      exact ⟨j, hj, clear_succ hk hd hc⟩

theorem clear_of_lastDef (hp : g.flow.Clear r p (b, 0)) (hk : k ≤ (g.steps b).length)
    (h : lastDef r ((g.steps b).take k) = none) : g.flow.Clear r p (b, k) := by
  induction k with
  | zero => exact hp
  | succ k ih =>
    rw [lastDef_take_succ (getElem?_eq_getElem hk)] at h
    split at h
    · cases h
    · next hd => exact clear_succ hk hd (ih (Nat.le_of_succ_le hk) h)

section

variable (ho : ∀ b, ∀ link ∈ g.links b, link.offset = 0)
include ho

omit [DecidableEq ρ] in
theorem clear_link {a : Fin n} (hb : b ∈ g.targets a)
    (h : g.flow.Clear r p (a, (g.steps a).length)) : g.flow.Clear r p (b, 0) := by
  obtain ⟨link, hl, rfl⟩ := mem_map.1 hb
  refine h.pass ?_ (.inr ⟨rfl, link, hl, by simp [ControlFlowGraph.start, ho a link hl]⟩)
  -- the end of a block defines nothing
  rintro ⟨t, ht⟩
  simp at ht

theorem Carries.clear {path} (h : Carries g r d path b) :
    ∃ p, (g.steps p.1)[p.2]? = some (d, .defReg r) ∧ g.flow.Clear r p (b, (g.steps b).length) := by
  induction h with
  | @leave b h =>
    obtain ⟨j, hj, hc⟩ := exists_of_lastDef (g := g) le_rfl (by rwa [take_length])
    exact ⟨(b, j), hj, hc⟩
  | pass _ hlink _ hp ih =>
    obtain ⟨p, hd, hc⟩ := ih
    exact ⟨p, hd, clear_of_lastDef (clear_link ho hlink hc) le_rfl (by rwa [take_length])⟩

theorem reachesUse_of_mem {order} (h : d ∈ (analyze g order).regRef s r) : g.ReachesUse r d s := by
  obtain ⟨b, k, hu, hl⟩ := (mem_analyze order).1 h
  have hk : k ≤ (g.steps b).length := (List.getElem?_eq_some_iff.1 hu).1.le
  rcases hl with ⟨hl, -⟩ | ⟨hn, a, path, hp, hlk, -, -⟩
  · obtain ⟨j, hj, hc⟩ := exists_of_lastDef hk hl
    exact ⟨(b, j), (b, k), hj, hu, hc⟩
  · obtain ⟨p, hd, hc⟩ := hp.clear ho
    exact ⟨p, (b, k), hd, hu, clear_of_lastDef (clear_link ho hlk hc) hk hn⟩

end

/-- Without jumps into blocks, a definition that is found reaches the use whatever the order of the sweeps. Without
    loops the analysis finds exactly these. -/
theorem analyze_exact [NeZero n] (g : ControlFlowGraph n ρ) (ho : ∀ b, ∀ link ∈ g.links b, link.offset = 0) :
    (∀ order r d s, d ∈ (analyze g order).regRef s r → g.ReachesUse r d s) ∧
      ∀ rank : Fin n → Nat, (∀ a, ∀ b ∈ g.targets a, rank b < rank a) → ∃ order, SccOrder.genFull g.targets = .ok order ∧
        ∀ r d s, d ∈ (analyze g order).regRef s r ↔ g.ReachesUse r d s := by
  refine ⟨fun _ _ _ _ => reachesUse_of_mem ho, ?_⟩
  intro rank hr
  obtain ⟨order, hor, hc⟩ := complete_of_acyclic hr ho
  exact ⟨order, hor, fun r d s => ⟨reachesUse_of_mem ho, hc r d s⟩⟩

theorem analyze_exact_twoBlocks : ∃ order, SccOrder.genFull twoBlocks.targets = .ok order ∧
    ∀ r d s, d ∈ (analyze twoBlocks order).regRef s r ↔ twoBlocks.ReachesUse r d s := by
  exact (analyze_exact twoBlocks (by decide +kernel)).2 (fun b => 1 - b.val) (by decide +kernel)

end Sound

end Egalito.UseDef
