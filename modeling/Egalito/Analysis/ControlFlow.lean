/-
The control flow graph of a function (`analysis/controlflow.cpp`): a node for each block, with the links of its last
instruction.

`construct` is shown to return on every well-formed heap, and its backward links to be the converse of its forward
ones, which the graph carries as a field.
-/
import Egalito.Operation.Offsets
import Egalito.Instr.Semantic
import Mathlib.Data.List.FinRange

namespace Egalito.FlowGraph

open Lib List

/-! ## Graphs -/

structure ControlFlowLink (n : Nat) where
  id : Fin n
  offset : BitVec 32
  followJump : Bool
  deriving DecidableEq, Repr

structure ControlFlowGraph (n : Nat) where
  forwardLinks : Fin n → List (ControlFlowLink n)
  backwardLinks : Fin n → List (ControlFlowLink n)
  converse : ∀ a b, b ∈ (forwardLinks a).map (·.id) ↔ a ∈ (backwardLinks b).map (·.id)

variable {n : Nat}

namespace ControlFlowGraph

def new (n : Nat) : ControlFlowGraph n where
  forwardLinks _ := []
  backwardLinks _ := []
  converse _ _ := by simp

/-- The nodes that the forward links lead to. -/
def targets (g : ControlFlowGraph n) (id : Fin n) : List (Fin n) := (g.forwardLinks id).map (·.id)

/-- The nodes that the backward links lead to. -/
def sources (g : ControlFlowGraph n) (id : Fin n) : List (Fin n) := (g.backwardLinks id).map (·.id)

theorem mem_targets (g : ControlFlowGraph n) (a b : Fin n) : b ∈ g.targets a ↔ a ∈ g.sources b := g.converse a b

theorem mem_update_append {α β : Type} [DecidableEq α] {f} {a b : α} {l : List β} {x : β} :
    x ∈ Function.update f a (f a ++ l) b ↔ x ∈ f b ∨ b = a ∧ x ∈ l := by
  by_cases hb : b = a
  · simp [hb]
  · simp [hb]

/-- addLink at the source and addReverseLink at the target. -/
def connect (g : ControlFlowGraph n) (id : Fin n) (offset : BitVec 32) (link : ControlFlowLink n) :
    ControlFlowGraph n where
  forwardLinks := Function.update g.forwardLinks id (g.forwardLinks id ++ [link])
  backwardLinks :=
    Function.update g.backwardLinks link.id (g.backwardLinks link.id ++ [⟨id, offset, link.followJump⟩])
  converse a b := by
    have hold := g.converse a b
    simp only [mem_map] at hold ⊢
    constructor
    · rintro ⟨l, hl, rfl⟩
      rcases mem_update_append.mp hl with hold' | ⟨rfl, hnew⟩
      · obtain ⟨r, hr, hid⟩ := hold.mp ⟨l, hold', rfl⟩
        exact ⟨r, mem_update_append.mpr (.inl hr), hid⟩
      · rw [mem_singleton.mp hnew]
        exact ⟨_, mem_update_append.mpr (.inr ⟨rfl, mem_singleton_self _⟩), rfl⟩
    · rintro ⟨r, hr, rfl⟩
      rcases mem_update_append.mp hr with hold' | ⟨rfl, hnew⟩
      · obtain ⟨l, hl, hid⟩ := hold.mpr ⟨r, hold', rfl⟩
        exact ⟨l, mem_update_append.mpr (.inl hl), hid⟩
      · rw [mem_singleton.mp hnew]
        exact ⟨_, mem_update_append.mpr (.inr ⟨rfl, mem_singleton_self _⟩), rfl⟩

end ControlFlowGraph

/-! ## The links of a block -/

inductive Arch where
  | x86_64
  | aarch64
  | arm
  | riscv
  deriving DecidableEq, Repr

/-- Whether the next block may follow a ControlFlowInstruction. -/
def fallsThrough : Arch → String → Bool → Bool
  | .x86_64, mnemonic, returns => mnemonic ≠ "jmp" && !(mnemonic = "callq" && !returns)
  | .aarch64, mnemonic, returns => mnemonic ≠ "b" && !(mnemonic = "bl" && !returns)
  | .arm, _, _ => false
  | .riscv, mnemonic, returns =>
    if mnemonic ∈ ["j", "jr", "c.j", "c.jr"] then false
    else if mnemonic ∈ ["jal", "jalr", "c.jal", "c.jalr"] then returns
    else true

/-- Whether the link of a ControlFlowInstruction is no call. -/
def followsLink : Arch → String → Bool
  | .x86_64, mnemonic => mnemonic ≠ "callq"
  | .aarch64, mnemonic | .arm, mnemonic => mnemonic ≠ "bl"
  | .riscv, mnemonic => mnemonic ≠ "jalr" && mnemonic ≠ "jal"

def isIndirectCall : Arch → String → Bool
  | .x86_64, mnemonic => mnemonic = "callq"
  | .aarch64, mnemonic | .arm, mnemonic => mnemonic = "blr"
  | .riscv, mnemonic => mnemonic = "jalr"

def addressOf (h : Heap Semantic) (x : Ref) : Except Failure Address := do
  let (a, _) ← h.getAddress x
  .ok a

def targetAddressOf (h : Heap Semantic) (link : Link) : Except Failure Address := do
  let (a, _) ← link.getTargetAddress h
  .ok a

def blockMapping (blocks : List Ref) (b : Ref) : Option (Fin blocks.length) :=
  (finRange blocks.length).find? fun i => blocks.get i = b

section

variable (arch : Arch) (h : Heap Semantic) (blocks : List Ref)

/-- A link to an instruction `v`, which may be in the middle of a block, if the block is one of the function. -/
def instructionLinks (v : Ref) (link : Link) : Except Failure (List (ControlFlowLink blocks.length)) :=
  match h.parent v with
  | none => .ok []
  | some parent =>
    match blockMapping blocks parent with
    | none => .ok []
    | some id => do
      let target ← targetAddressOf h link
      let start ← addressOf h parent
      .ok [⟨id, (target - start).setWidth 32, true⟩]

/-- The link of a ControlFlowInstruction that is no call. -/
def targetLinks (link : Link) : Except Failure (List (ControlFlowLink blocks.length)) := do
  let target ← link.getTarget
  match target with
  | none => .ok []
  | some t =>
    match h.kind t with
    | .block =>
      match blockMapping blocks t with
      | none => .error .assertion
      | some other =>
        -- it throws "this case breaks splitbasicblock pass"
        if arch = .aarch64 then .error .assertion else .ok [⟨other, 0, true⟩]
    | .instruction => instructionLinks h blocks t link
    | _ => .ok []

local instance lawfulAddress : LawfulBEq Address := inferInstance

/-- The loop over the entries of a jump table; an address is added once. -/
def jumpTableLinks : List Address → List (Option Link) → Except Failure (List (ControlFlowLink blocks.length))
  | _, [] => .ok []
  | added, some (.normal (some t) scope) :: entries => do
    let target ← targetAddressOf h (.normal (some t) scope)
    if target ∈ added then jumpTableLinks added entries
    else do
      let links ← if h.kind t = .instruction then instructionLinks h blocks t (.normal (some t) scope) else .ok []
      let rest ← jumpTableLinks (target :: added) entries
      .ok (links ++ rest)
  | added, _ :: entries => jumpTableLinks added entries

/-- The links that the last instruction gives, and whether the next block may follow. -/
def semanticLinks : Semantic → Except Failure (List (ControlFlowLink blocks.length) × Bool)
  | .controlFlow v => do
    let links ← match v.link with
      | none => .ok []
      | some link => if followsLink arch v.mnemonic then targetLinks arch h blocks link else .ok []
    .ok (links, fallsThrough arch v.mnemonic v.returns)
  | .indirectJump _ mnemonic jumpTables =>
    if isIndirectCall arch mnemonic then .ok ([], true)
    else do
      let links ← jumpTables.mapM fun jt => jumpTableLinks h blocks [] jt.entries
      .ok (links.flatten, false)
  | .ret _ | .breakpoint _ => .ok ([], false)
  | .isolated _ | .linked .. | .dataLinkedControlFlow .. | .indirectCall _ => .ok ([], true)

/-- The fall-through to the next block of the function. -/
def nextLinks {n : Nat} (id : Fin n) : List (ControlFlowLink n) :=
  if h : id.val + 1 < n then [⟨⟨id.val + 1, h⟩, 0, false⟩] else []

/-- The links of a block, and the offset of its last instruction. -/
def blockLinks (id : Fin blocks.length) : Except Failure (List (ControlFlowLink blocks.length) × BitVec 32) :=
  match (h.children (blocks.get id)).getLast? with
  | none => .error .assertion
  | some i => do
    let (links, fallThrough) ← semanticLinks arch h blocks (h.semantic i)
    let a ← addressOf h i
    let start ← addressOf h (blocks.get id)
    .ok (links ++ (if fallThrough then nextLinks id else []), (a - start).setWidth 32)

def constructBlock (g : ControlFlowGraph blocks.length) (id : Fin blocks.length) :
    Except Failure (ControlFlowGraph blocks.length) := do
  let (links, offset) ← blockLinks arch h blocks id
  .ok (links.foldl (fun g link => g.connect id offset link) g)

def construct : Except Failure (ControlFlowGraph blocks.length) :=
  (finRange blocks.length).foldlM (constructBlock arch h blocks) (ControlFlowGraph.new blocks.length)

end

/-! ## The construction returns -/

variable {h : Heap Semantic} {blocks : List Ref} {x : Ref}

/-- A link that can be followed: its target, if it has one, has an address and is no block. -/
def LinkOK (h : Heap Semantic) (link : Link) : Prop :=
  ∃ target, link.getTarget = .ok target ∧ ∀ t, target = some t → h.kind t ≠ .block ∧ ∃ a, At h t a

/-- A ControlFlowInstruction has a link, and this and those of jump tables can be followed. -/
def SemanticOK (h : Heap Semantic) : Semantic → Prop
  | .controlFlow v => ∃ link, v.link = some link ∧ LinkOK h link
  | .indirectJump _ _ jumpTables => ∀ jt ∈ jumpTables, ∀ link, some link ∈ jt.entries → LinkOK h link
  | _ => True

/-- What is needed of the blocks of a function. -/
structure BlocksOK (h : Heap Semantic) (blocks : List Ref) : Prop where
  address : ∀ b ∈ blocks, ∃ a, At h b a
  nonempty : ∀ b ∈ blocks, h.children b ≠ []
  instruction : ∀ b ∈ blocks, ∀ i ∈ h.children b, (∃ a, At h i a) ∧ SemanticOK h (h.semantic i)

theorem addressOf_ok (hl : Linkage h) (hx : ∃ a, At h x a) : ∃ a, addressOf h x = .ok a := by
  obtain ⟨a, ha⟩ := hx
  exact ⟨a, ok_bind (ha.getAddress hl) _⟩

theorem targetAddressOf_ok (hl : Linkage h) {link} {t} (hlk : link.getTarget = .ok (some t))
    (ht : ∃ a, At h t a) : ∃ a, targetAddressOf h link = .ok a := by
  obtain ⟨a, ha⟩ := ht
  have hg := ha.getAddress hl
  cases link with
  | normal t' scope | absoluteNormal t' scope =>
    obtain rfl : t' = some t := Except.ok.inj hlk
    exact ⟨a, ok_bind hg _⟩
  | offset t' o scope =>
    obtain rfl : t' = some t := Except.ok.inj hlk
    refine ⟨a + o, ok_bind (a := (a + o, h)) ?_ _⟩
    exact ok_bind hg _
  | externalSymbol t' o =>
    obtain rfl : t' = some t := Except.ok.inj hlk
    refine ⟨a + o, ok_bind (a := (a + o, h)) ?_ _⟩
    exact ok_bind hg _
  | plt | jumpTable | symbolOnly | loader | unresolved | unresolvedRelative => cases Except.ok.inj hlk
  | immAndDisp => cases hlk

theorem mem_of_blockMapping {b id} (hi : blockMapping blocks b = some id) : b ∈ blocks := by
  have hf := find?_some hi
  rw [decide_eq_true_eq] at hf
  rw [← hf]
  exact get_mem blocks id

theorem instructionLinks_ok (hl : Linkage h) (hb : BlocksOK h blocks) {link} {v}
    (hlk : link.getTarget = .ok (some v)) (hv : ∃ a, At h v a) :
    ∃ links, instructionLinks h blocks v link = .ok links := by
  unfold instructionLinks
  split
  · exact ⟨[], rfl⟩
  · next parent _ =>
    split
    · exact ⟨[], rfl⟩
    · next id hi =>
      obtain ⟨a, ha⟩ := targetAddressOf_ok hl hlk hv
      obtain ⟨start, hs⟩ := addressOf_ok hl (hb.address parent (mem_of_blockMapping hi))
      rw [ok_bind ha, ok_bind hs]
      exact ⟨_, rfl⟩

theorem targetLinks_ok (arch) (hl : Linkage h) (hb : BlocksOK h blocks) {link} (hlk : LinkOK h link) :
    ∃ links, targetLinks arch h blocks link = .ok links := by
  obtain ⟨target, ht, hok⟩ := hlk
  unfold targetLinks
  rw [ok_bind ht]
  cases target with
  | none => exact ⟨[], rfl⟩
  | some t =>
    obtain ⟨hk, hat⟩ := hok t rfl
    dsimp only
    split
    · next hc => exact absurd hc hk
    · exact instructionLinks_ok hl hb ht hat
    · exact ⟨[], rfl⟩

theorem jumpTableLinks_ok (hl : Linkage h) (hb : BlocksOK h blocks) (entries) :
    ∀ (added : List Address), (∀ link, some link ∈ entries → LinkOK h link) →
      ∃ links, jumpTableLinks h blocks added entries = .ok links := by
  induction entries with
  | nil => exact fun _ _ => ⟨[], rfl⟩
  | cons entry entries ih =>
    intro added hok
    have hr := fun added => ih added fun link hlk => hok link (mem_cons_of_mem _ hlk)
    by_cases hn : ∃ t scope, entry = some (.normal (some t) scope)
    · obtain ⟨t, scope, rfl⟩ := hn
      obtain ⟨target, ht, hlk⟩ := hok _ mem_cons_self
      obtain rfl : some t = target := Except.ok.inj ht
      obtain ⟨-, hat⟩ := hlk t rfl
      obtain ⟨a, ha⟩ := targetAddressOf_ok hl ht hat
      obtain ⟨rest, hr'⟩ := hr (a :: added)
      rw [jumpTableLinks, ok_bind ha]
      split
      · exact hr added
      · split
        · obtain ⟨links, hln⟩ := instructionLinks_ok hl hb ht hat
          exact ⟨_, (ok_bind hln _).trans (ok_bind hr' _)⟩
        · exact ⟨_, ok_bind hr' _⟩
    · rw [jumpTableLinks]
      · exact hr added
      · exact fun t scope heq => hn ⟨t, scope, heq⟩

theorem semanticLinks_ok (arch) (hl : Linkage h) (hb : BlocksOK h blocks) {s} (hs : SemanticOK h s) :
    ∃ r, semanticLinks arch h blocks s = .ok r := by
  cases s with
  | controlFlow v =>
    obtain ⟨link, hlk, hok⟩ := hs
    rw [semanticLinks, hlk]
    dsimp only
    split
    · obtain ⟨links, hn⟩ := targetLinks_ok arch hl hb hok
      exact ⟨_, ok_bind hn _⟩
    · exact ⟨_, rfl⟩
  | indirectJump size mnemonic jumpTables =>
    rw [semanticLinks]
    split
    · exact ⟨_, rfl⟩
    · have ht : ∀ jt ∈ jumpTables, ∃ links, jumpTableLinks h blocks [] jt.entries = .ok links :=
        fun jt hj => jumpTableLinks_ok hl hb jt.entries [] (hs jt hj)
      choose! links hn using ht
      exact ⟨_, ok_bind (mapM_ok hn) _⟩
  | isolated | linked | dataLinkedControlFlow | ret | breakpoint | indirectCall => exact ⟨_, rfl⟩

theorem construct_ok (arch) (hl : Linkage h) (hb : BlocksOK h blocks) : ∃ g, construct arch h blocks = .ok g := by
  obtain ⟨g, hrn, -⟩ := foldlM_ok (f := constructBlock arch h blocks) (I := fun _ _ => True)
    (finRange blocks.length) [] (ControlFlowGraph.new blocks.length) trivial fun _ id _ _ g _ => by
      have hm := get_mem blocks id
      obtain ⟨i, hi⟩ : ∃ i, (h.children (blocks.get id)).getLast? = some i :=
        Option.ne_none_iff_exists'.1 fun hnn => hb.nonempty _ hm (getLast?_eq_none_iff.1 hnn)
      obtain ⟨hat, hok⟩ := hb.instruction _ hm i (mem_of_getLast? hi)
      obtain ⟨r, hr⟩ := semanticLinks_ok arch hl hb hok
      obtain ⟨a, ha⟩ := addressOf_ok hl hat
      obtain ⟨start, hs⟩ := addressOf_ok hl (hb.address _ hm)
      have hn : ∃ l, blockLinks arch h blocks id = .ok l := by
        unfold blockLinks
        rw [hi]
        dsimp only
        rw [ok_bind hr, ok_bind ha, ok_bind hs]
        exact ⟨_, rfl⟩
      obtain ⟨l, hn⟩ := hn
      exact ⟨_, ok_bind hn _, trivial⟩
  exact ⟨g, hrn⟩

end Egalito.FlowGraph
