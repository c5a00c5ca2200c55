/-
What the accepted instructions do on the processor, against what their handlers record.

Each accepted form is given the resources that it reads and writes. `effects_recorded_iff` says for which instructions
all of them are recorded, and `reorder_preserves` that in a block of such instructions every order that the traversal
produces computes what the block did, for any meaning that respects the resources.
-/
import Egalito.Analysis.Reorder
import Egalito.Lib.Commute

namespace Egalito.Analysis

open Lib List

/-! ## Effects -/

inductive Resource
  | gpr (n : Fin 16)
  | flags
  | memory
  | segmentBase (s : Segment)
  | special
  deriving DecidableEq, Repr

local instance neZeroResource : NeZero 16 := ⟨by decide⟩

/-- The register that an operand names a part of; `rax`, `rcx`, `rdx`, `rbx` have the numbers 0 to 3. -/
def Register.resource : Register → Resource
  | .gp n _ => .gpr n
  | .ah => .gpr 0
  | .ch => .gpr 1
  | .dh => .gpr 2
  | .bh => .gpr 3
  | .segment s => .segmentBase s
  | .rip | .other => .special

def rsp : Resource := .gpr 4

structure Effects where
  reads : List Resource
  writes : List Resource

/-- The registers that the address is computed from. -/
def MemOperand.address (m : MemOperand) : List Resource :=
  ((m.index.toList ++ m.base.toList).filter (· ≠ .rip)).map Register.resource

/-- Only these two segments have a base in 64-bit mode. -/
def MemOperand.segmentBase (m : MemOperand) : List Resource :=
  match m.segment with
  | some .fs => [.segmentBase .fs]
  | some .gs => [.segmentBase .gs]
  | _ => []

/-- What is read to find the place in memory. -/
def MemOperand.place (m : MemOperand) : List Resource := m.segmentBase ++ m.address

/-- The effects of the forms that a handler accepts. -/
def effects : InsId → List Operand → Effects
  | .cmp, [.reg r, .reg r'] => ⟨[r.resource, r'.resource], [.flags]⟩
  | .cmp, [.imm, .reg r] => ⟨[r.resource], [.flags]⟩
  | .cmp, [.imm, .mem m] => ⟨.memory :: m.place, [.flags]⟩
  | .lea, [.mem m, .reg r] => ⟨m.address, [r.resource]⟩
  | .mov, [.imm, .reg r] | .movabs, [.imm, .reg r] | .movsxd, [.imm, .reg r] | .movzx, [.imm, .reg r] => ⟨[], [r.resource]⟩
  | .mov, [.reg r, .mem m] | .movsxd, [.reg r, .mem m] | .movzx, [.reg r, .mem m] => ⟨r.resource :: m.place, [.memory]⟩
  | .mov, [.mem m, .reg r] | .movsxd, [.mem m, .reg r] | .movzx, [.mem m, .reg r] => ⟨.memory :: m.place, [r.resource]⟩
  | .mov, [.reg r, .reg r'] | .movsxd, [.reg r, .reg r'] | .movzx, [.reg r, .reg r'] => ⟨[r.resource], [r'.resource]⟩
  | .push, [.reg r] => ⟨[r.resource, rsp], [.memory, rsp]⟩
  | .push, [.mem m] => ⟨.memory :: rsp :: m.place, [.memory, rsp]⟩
  | .pop, [.reg r] => ⟨[.memory, rsp], [r.resource, rsp]⟩
  | .pop, [.mem m] => ⟨.memory :: rsp :: m.place, [.memory, rsp]⟩
  -- and, add, sub, xor
  | _, [.imm, .reg r] => ⟨[r.resource], [r.resource, .flags]⟩
  | _, [.reg r, .reg r'] => ⟨[r.resource, r'.resource], [r'.resource, .flags]⟩
  | _, [.mem m, .reg r] => ⟨.memory :: r.resource :: m.place, [r.resource, .flags]⟩
  | _, _ => ⟨[], []⟩

/-! ## Recorded effects -/

/-- What a register of the analysis stands for. -/
def Location.resource (reg : Location) : Resource :=
  if h : reg.val < 16 then .gpr ⟨reg.val, h⟩ else if reg = FLAGS then .flags else .memory

def Reads (l : List Call) (x : Resource) : Prop := ∃ reg, .read reg ∈ l ∧ Location.resource reg = x

def Writes (l : List Call) (x : Resource) : Prop := ∃ reg, .write reg ∈ l ∧ Location.resource reg = x

/-- All effects are recorded. -/
def Covers (e : Effects) (l : List Call) : Prop := (∀ x ∈ e.reads, Reads l x) ∧ ∀ x ∈ e.writes, Writes l x

/-- An access through `fs` or `gs`; the address that `lea` computes has no segment. -/
def UsesSegmentBase (id : InsId) (operands : List Operand) : Prop :=
  id ≠ .lea ∧ ∃ m, .mem m ∈ operands ∧ m.segmentBase ≠ []

/-- A push or pop of a memory operand. -/
def StackMemory (id : InsId) (operands : List Operand) : Prop := (id = .push ∨ id = .pop) ∧ ∃ m, operands = [.mem m]

theorem physical_resource {r p} (h : convertToPhysical r = some p) : Location.resource p = r.resource := by
  cases r with
  | gp n w =>
    cases h
    simp [Location.resource, Register.resource]
  | ah | bh | ch | dh =>
    cases h
    rfl
  | rip | segment _ | other => cases h

@[simp] theorem resource_FLAGS : Location.resource FLAGS = .flags := by decide

@[simp] theorem resource_MEMORY_REG : Location.resource MEMORY_REG = .memory := by decide

@[simp] theorem resource_SP : Location.resource SP = rsp := by decide

theorem resource_ne_segmentBase (reg s) : Location.resource reg ≠ .segmentBase s := by
  unfold Location.resource
  split
  · simp
  · split <;> simp

section Calls

variable {l l' : List Call} {x : Resource} {reg : Location} {m : MemOperand}

@[simp] theorem not_reads_nil : ¬ Reads [] x := by simp [Reads]

@[simp] theorem not_writes_nil : ¬ Writes [] x := by simp [Writes]

@[simp] theorem reads_read : Reads (.read reg :: l) x ↔ Location.resource reg = x ∨ Reads l x := by
  simp [Reads, or_and_right, exists_or]

@[simp] theorem reads_write : Reads (.write reg :: l) x ↔ Reads l x := by simp [Reads]

@[simp] theorem writes_read : Writes (.read reg :: l) x ↔ Writes l x := by simp [Writes]

@[simp] theorem writes_write : Writes (.write reg :: l) x ↔ Location.resource reg = x ∨ Writes l x := by
  simp [Writes, or_and_right, exists_or]

@[simp] theorem reads_append : Reads (l ++ l') x ↔ Reads l x ∨ Reads l' x := by
  simp [Reads, or_and_right, exists_or]

@[simp] theorem writes_append : Writes (l ++ l') x ↔ Writes l x ∨ Writes l' x := by
  simp [Writes, or_and_right, exists_or]

@[simp] theorem not_writes_reads : ¬ Writes m.reads x := by
  rintro ⟨reg, hr, -⟩
  have := Records.mem_written.2 hr
  simp at this

theorem reads_addressReads {r} (hr : ∀ r', r = some r' → r' = .rip ∨ ∃ p, convertToPhysical r' = some p) :
    Reads (addressReads r) x ↔ ∃ r', r = some r' ∧ r' ≠ .rip ∧ r'.resource = x := by
  cases r with
  | none => simp [addressReads]
  | some r' =>
    rcases hr r' rfl with rfl | ⟨p, hp⟩
    · simp [addressReads, convertToPhysical]
    · have hne : r' ≠ .rip := by
        rintro rfl
        cases hp
      simp [addressReads, hp, physical_resource hp, hne]

theorem reads_address (hm : handleMem m = .ok m.reads) : Reads m.reads x ↔ x ∈ m.address := by
  obtain ⟨-, hi, hb⟩ := handleMem_eq hm
  rw [MemOperand.reads, reads_append, reads_addressReads fun r hr => .inr (hi r hr), reads_addressReads hb]
  simp only [MemOperand.address, mem_map, mem_filter, mem_append, Option.mem_toList,
    decide_eq_true_eq]
  constructor
  · rintro (⟨r, hr, hne, rfl⟩ | ⟨r, hr, hne, rfl⟩)
    · exact ⟨r, ⟨.inl hr, hne⟩, rfl⟩
    · exact ⟨r, ⟨.inr hr, hne⟩, rfl⟩
  · rintro ⟨r, ⟨hr | hr, hne⟩, rfl⟩
    · exact .inl ⟨r, hr, hne, rfl⟩
    · exact .inr ⟨r, hr, hne, rfl⟩

theorem memory_notMem_address : .memory ∉ m.address := by
  intro h
  obtain ⟨r, -, hr⟩ := mem_map.1 h
  cases r <;> cases hr

/-- A segment base is never recorded. -/
theorem forall_place_iff : (∀ x ∈ m.place, Reads l x) ↔ m.segmentBase = [] ∧ ∀ x ∈ m.address, Reads l x := by
  have hn : ∀ x ∈ m.segmentBase, ¬ Reads l x := by
    rintro x hx ⟨reg, -, rfl⟩
    unfold MemOperand.segmentBase at hx
    split at hx
    · exact resource_ne_segmentBase reg .fs (mem_singleton.1 hx)
    · exact resource_ne_segmentBase reg .gs (mem_singleton.1 hx)
    · cases hx
  rw [MemOperand.place, forall_mem_append]
  refine and_congr_left fun _ => ⟨fun h => ?_, fun h => by simp [h]⟩
  exact eq_nil_iff_forall_not_mem.2 fun x hx => hn x hx (h x hx)

/-- Once the registers of the address are recorded, the segment is all that can be missing. -/
theorem forall_place_of_reads (hm : handleMem m = .ok m.reads) (hl : ∀ x, Reads m.reads x → Reads l x) :
    (∀ x ∈ m.place, Reads l x) ↔ m.segmentBase = [] := by
  rw [forall_place_iff]
  exact and_iff_left fun x hx => hl x ((reads_address hm).2 hx)

end Calls

/-! ## Forms with all effects recorded -/

variable {id : InsId} {operands : List Operand} {l : List Call}

theorem Form.covers_iff (h : Form id operands l) :
    Covers (effects id operands) l ↔ ¬ StackMemory id operands ∧ ¬ UsesSegmentBase id operands := by
  unfold Covers StackMemory UsesSegmentBase
  cases h with
  | aluImmReg hi hr =>
    rcases hi with rfl | rfl | rfl | rfl <;> simp [effects, physical_resource hr]
  | aluRegReg hi hr hr' =>
    rcases hi with rfl | rfl | rfl <;> simp [effects, physical_resource hr, physical_resource hr']
  | @aluMemReg _ m r p hi hm hr =>
    have hp := forall_place_of_reads (l := m.reads ++ [setMemRead, .read p, .write p, .write FLAGS]) hm (by simp_all)
    rcases hi with rfl | rfl | rfl <;> simp only [effects, forall_mem_cons, hp] <;>
      simp [setMemRead, physical_resource hr]
  | cmpRegReg hr hr' => simp [effects, physical_resource hr, physical_resource hr']
  | cmpImmReg hr => simp [effects, physical_resource hr]
  | @cmpImmMem m hm =>
    have hp := forall_place_of_reads (l := m.reads ++ [setMemRead, .write FLAGS]) hm (by simp_all)
    simp only [effects, forall_mem_cons, hp]
    simp [setMemRead]
  | lea hm hr => simp [effects, physical_resource hr, reads_address hm]
  | movImmReg hi hr =>
    rcases hi with rfl | rfl | rfl | rfl <;> simp [effects, physical_resource hr]
  | @movRegMem _ m r p hi hr hm =>
    have hp := forall_place_of_reads (l := .read p :: m.reads ++ [setMemWrite]) hm (by simp_all)
    rcases hi with rfl | rfl | rfl <;> simp only [effects, forall_mem_cons, hp] <;>
      simp [setMemWrite, physical_resource hr]
  | @movMemReg _ m r p hi hm hr =>
    have hp := forall_place_of_reads (l := m.reads ++ [setMemRead, .write p]) hm (by simp_all)
    rcases hi with rfl | rfl | rfl <;> simp only [effects, forall_mem_cons, hp] <;>
      simp [setMemRead, physical_resource hr]
  | movRegReg hi hr hr' =>
    rcases hi with rfl | rfl | rfl <;> simp [effects, physical_resource hr, physical_resource hr']
  | pushReg hr => simp [effects, setMemWrite, physical_resource hr]
  | pushMem hm => simp [effects, setMemWrite, rsp, reads_address hm, memory_notMem_address]
  | popReg hr => simp [effects, setMemRead, physical_resource hr]
  | popMem hm => simp [effects, setMemRead, rsp]

/-- The analysis goes on after the instruction, wherever in a block it stands. -/
def NeverFails (a : Assembly) : Prop :=
  ∀ block s, ReachingDef.analyze block = .ok s → ∃ s', ReachingDef.analyze (block ++ [some a]) = .ok s'

theorem neverFails_iff {a} (h : handle a = .ok (.calls l)) : NeverFails a ↔ ¬ PopsStackPointer a.id a.operands := by
  have hl : Analyzable (some a) ↔ ¬ PopsStackPointer a.id a.operands := by
    rw [analyzable_iff]
    constructor
    · rintro ⟨-, hp⟩
      exact hp a rfl
    · intro hp
      exact ⟨⟨_, h⟩, by rintro b ⟨⟩; exact hp⟩
  rw [← hl]
  constructor
  · intro hn
    obtain ⟨s, hs⟩ := hn [] _ rfl
    exact tracks_empty.analyzable_of_ok _ hs _ (by simp)
  · intro ha block s hs
    have hc := tracks_empty.analyzable_of_ok block hs
    obtain ⟨s', -, hs', -⟩ := tracks_empty.analyzeFrom (block ++ [some a]) (fun b hb => by
      rcases mem_append.1 hb with hb | hb
      · exact hc b hb
      · exact mem_singleton.1 hb ▸ ha)
    exact ⟨s', hs'⟩

/-- The handler records all effects of the instruction without failing its assertion, except for a `push` or `pop` of
    memory, a `pop` into the stack pointer and accesses through `fs` or `gs`. -/
theorem effects_recorded_iff (a : Assembly) (l : List Call) (h : handle a = .ok (.calls l)) :
    Covers (effects a.id a.operands) l ∧ NeverFails a ↔
      ¬ StackMemory a.id a.operands ∧ ¬ UsesSegmentBase a.id a.operands ∧ ¬ PopsStackPointer a.id a.operands := by
  rw [(form_handle h).covers_iff, neverFails_iff h, and_assoc]

/-- `mov %rbx, 8(%rsp,%rcx)` -/
theorem effects_recorded_iff_mov :
    handle ⟨.mov, [.reg (.gp 3 .qword), .mem ⟨none, some (.gp 4 .qword), some (.gp 1 .qword)⟩]⟩ =
      .ok (.calls [.read 3, .read 1, .read 4, .write 17]) ∧
    Covers (effects .mov [.reg (.gp 3 .qword), .mem ⟨none, some (.gp 4 .qword), some (.gp 1 .qword)⟩])
      [.read 3, .read 1, .read 4, .write 17] ∧
    NeverFails ⟨.mov, [.reg (.gp 3 .qword), .mem ⟨none, some (.gp 4 .qword), some (.gp 1 .qword)⟩]⟩ := by
  refine ⟨rfl, (effects_recorded_iff ⟨.mov, _⟩ _ rfl).2 ⟨?_, ?_, ?_⟩⟩
  · simp [StackMemory]
  · simp [UsesSegmentBase, MemOperand.segmentBase]
  · simp [PopsStackPointer]

/-- `pop 8(%rax)` writes memory and `push 8(%rax)` reads it, which is not recorded. -/
theorem stackMemory_not_recorded :
    handle ⟨.pop, [.mem ⟨none, some (.gp 0 .qword), none⟩]⟩ = .ok (.calls [.read 0, .read 17, .read 4, .write 4]) ∧
    .memory ∈ (effects .pop [.mem ⟨none, some (.gp 0 .qword), none⟩]).writes ∧
    ¬ Writes [.read 0, .read 17, .read 4, .write 4] .memory ∧
    handle ⟨.push, [.mem ⟨none, some (.gp 0 .qword), none⟩]⟩ = .ok (.calls [.read 0, .write 17, .read 4, .write 4]) ∧
    .memory ∈ (effects .push [.mem ⟨none, some (.gp 0 .qword), none⟩]).reads ∧
    ¬ Reads [.read 0, .write 17, .read 4, .write 4] .memory := by
  refine ⟨rfl, by decide, ?_, rfl, by decide, ?_⟩
  · simp [Location.resource]
  · simp [Location.resource]

/-! ## Reordered blocks -/

/-- Each resource holds a value. -/
abbrev Contents (V : Type) := Resource → V

/-- The analysis accepts the instruction and records all that it does, or takes it for a barrier. -/
structure Supported (a : Assembly) : Prop where
  accepted : ∃ r, handle a = .ok r
  pop : ¬ PopsStackPointer a.id a.operands
  stack : ¬ StackMemory a.id a.operands
  segment : ¬ UsesSegmentBase a.id a.operands

section Meaning

variable {V : Type} {block : List (Option Assembly)} {meaning : Nat → Contents V → Contents V}

/-- What the instructions of the block do obeys their effects; barriers may do anything. -/
def IsMeaning (block : List (Option Assembly)) (meaning : Nat → Contents V → Contents V) : Prop :=
  ∀ i a l, block[i]? = some (some a) → handle a = .ok (.calls l) →
    Obeys (effects a.id a.operands).reads (effects a.id a.operands).writes (meaning i)

/-- The instructions of a block done in the given order. -/
def runBlock (meaning : Nat → Contents V → Contents V) (order : List Nat) (s : Contents V) : Contents V :=
  order.foldl (fun s i => meaning i s) s

theorem resource_inj : ∀ {reg reg'}, Location.resource reg = Location.resource reg' → reg = reg' := by decide

theorem conflict_of_writes {l l' e e' x} (h : Covers e l) (h' : Covers e' l') (hw : x ∈ e.writes)
    (hx : x ∈ e'.reads ∨ x ∈ e'.writes) : ∃ reg, .write reg ∈ l ∧ (Records.calls l').Touches reg := by
  obtain ⟨reg, hr, rfl⟩ := h.2 x hw
  refine ⟨reg, hr, ?_⟩
  rcases hx with hx | hx
  · obtain ⟨reg', hd, heq⟩ := h'.1 _ hx
    exact .inl (resource_inj heq ▸ hd)
  · obtain ⟨reg', hwr, heq⟩ := h'.2 _ hx
    exact .inr (resource_inj heq ▸ hwr)

variable (hb : ∀ a, some a ∈ block → Supported a)
include hb

theorem exists_records {i} (hi : i < block.length) : ∃ a r, block[i]? = some a ∧ recordsOf a = .ok r ∧
    ∀ l, r = .calls l → ∃ b, a = some b ∧ Covers (effects b.id b.operands) l := by
  have hmm := getElem_mem hi
  rw [getElem?_eq_getElem hi]
  cases ha : block[i] with
  | none => exact ⟨none, .barrier, rfl, rfl, fun l hl => by cases hl⟩
  | some b =>
    have hs := hb b (ha ▸ hmm)
    obtain ⟨r, hr⟩ := hs.accepted
    refine ⟨some b, r, rfl, hr, ?_⟩
    rintro l rfl
    exact ⟨b, rfl, (form_handle hr).covers_iff.2 ⟨hs.stack, hs.segment⟩⟩

variable (hm : IsMeaning block meaning)
include hm

theorem meaning_comm {i j} (hi : i < block.length) (hj : j < block.length) (hn : ¬ Conflicts block i j) (s) :
    meaning j (meaning i s) = meaning i (meaning j s) := by
  obtain ⟨a, r, ha, hr, hv⟩ := exists_records hb hi
  obtain ⟨a', r', ha', hr', hv'⟩ := exists_records hb hj
  have hnc : ¬ (r = .barrier ∨ r' = .barrier ∨ r.Conflict r') := fun h => hn ⟨a, a', r, r', ha, ha', hr, hr', h⟩
  cases r with
  | barrier => exact absurd (.inl rfl) hnc
  | calls l =>
    cases r' with
    | barrier => exact absurd (.inr (.inl rfl)) hnc
    | calls l' =>
      obtain ⟨b, rfl, hc⟩ := hv l rfl
      obtain ⟨b', rfl, hc'⟩ := hv' l' rfl
      refine (hm j b' l' ha' hr').comm (hm i b l ha hr) (fun x hw hx => ?_) (fun x hw hx => ?_) s
      · obtain ⟨reg, hwr, ht⟩ := conflict_of_writes hc' hc hw hx
        exact hnc (.inr (.inr ⟨reg, .inr ⟨ht, hwr⟩⟩))
      · obtain ⟨reg, hwr, ht⟩ := conflict_of_writes hc hc' hw hx
        exact hnc (.inr (.inr ⟨reg, .inl ⟨hwr, ht⟩⟩))

/-- Whatever the callback chooses, the reordered block computes what the block did. -/
theorem reorder_preserves (pointers : List Nat) (hp : pointers.Perm (range block.length)) {σ : Type}
    (callback : Callback σ) (st : σ) : ∃ order, reorder block false pointers callback st = .ok order ∧
      ∀ s, runBlock meaning order s = runBlock meaning (range block.length) s := by
  have hc : ∀ a ∈ block, Analyzable a := by
    intro a ha
    refine analyzable_iff.2 ⟨?_, fun b hab => (hb b (hab ▸ ha)).pop⟩
    cases a with
    | none => exact ⟨_, rfl⟩
    | some b => exact (hb b ha).accepted
  obtain ⟨order, ho, hpm, hr⟩ := reorder_respects hc hp callback st
  refine ⟨order, ho, foldl_eq_of_pairwise hpm pairwise_lt_range hr fun i hi j hj hn s => ?_⟩
  exact meaning_comm hb hm (mem_range.1 hi) (mem_range.1 hj) hn s

end Meaning

/-- An instruction writes the sum of what it reads and of its place. -/
def sums (block : List (Option Assembly)) (i : Nat) (s : Contents Nat) : Contents Nat :=
  match block[i]? with
  | some (some a) => fun x =>
    if x ∈ (effects a.id a.operands).writes then ((effects a.id a.operands).reads.map s).sum + i else s x
  | _ => fun x => s x + i

theorem isMeaning_sums (block) : IsMeaning block (sums block) := by
  intro i a l ha _
  unfold sums
  rw [ha]
  refine ⟨fun s x hx => if_neg hx, fun s s' hs x hx => ?_⟩
  dsimp only
  rw [if_pos hx, if_pos hx, map_congr_left fun y hy => hs y (.inl hy)]

theorem reorder_preserves_prologue : reorder prologue false [0, 1, 2, 3, 4] chooseLast () = .ok [3, 0, 1, 2, 4] ∧
    runBlock (sums prologue) [3, 0, 1, 2, 4] = runBlock (sums prologue) [0, 1, 2, 3, 4] := by
  have hb : ∀ a, some a ∈ prologue → Supported a := by
    intro a ha
    simp only [prologue, mem_cons, not_mem_nil, or_false, Option.some.injEq, reduceCtorEq] at ha
    rcases ha with rfl | rfl | rfl | rfl <;>
      exact ⟨⟨_, rfl⟩, by simp [PopsStackPointer], by simp [StackMemory], by simp [UsesSegmentBase, MemOperand.segmentBase]⟩
  have hr : reorder prologue false [0, 1, 2, 3, 4] chooseLast () = .ok [3, 0, 1, 2, 4] := by decide +kernel
  obtain ⟨order, ho, h⟩ := reorder_preserves hb (isMeaning_sums prologue) [0, 1, 2, 3, 4] (by decide) chooseLast ()
  rw [hr] at ho
  cases ho
  exact ⟨hr, funext h⟩

end Egalito.Analysis
