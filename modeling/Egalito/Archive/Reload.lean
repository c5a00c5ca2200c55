/-
What comes back when an archive is written and read again.

The encoding table lacks three types, so the types behind them come back as others, functions and data regions among
them. Nothing but a program without functions, or without regions, is restored.
-/
import Egalito.Archive.Deserialize

namespace Egalito.Archive

open Lib List

/-- The class of the object that a record of the given type is read into. -/
def reloadedClass (type : EgalitoChunkType) : Option EgalitoChunkType :=
  constructors[(decodeChunkType (codeOf type)).ctorIdx]?.join

def Archiver.idOf (s : Archiver) (c : Object) : Nat := ((s.assignment.lookup c).getD noneID).toNat

variable {cx : Context} {others : EgalitoChunkType → Nat → Build Unit} {unset : BitVec 32} {root : Root} {s : Archiver}
  {heap : Heap} {inputs : List Input} {chunks : List FlatChunk} {keys : List Key} {made : Object → Prop}

/-! ## The file -/

theorem placed_type : ∀ t l (i : Nat), (place t l)[i]?.map FlatChunk.type = l[i]?.map FlatChunk.type
  | _, [], _ => rfl
  | _, _ :: _, 0 => rfl
  | _, _ :: l, i + 1 => placed_type _ l i

theorem exists_chunks_of_complete (h : s.complete = true) : ∃ chunks : List FlatChunk, s.flatList = chunks.map some := by
  refine ⟨s.flatList.filterMap id, ?_⟩
  have ha := all_eq_true.1 h
  generalize s.flatList = l at ha
  induction l with
  | nil => rfl
  | cons x l ih =>
    obtain ⟨flat, rfl⟩ := Option.isSome_iff_exists.1 (ha x (by simp))
    have hr := ih fun y hy => ha y (by simp [hy])
    rw [filterMap_cons, id_eq, map_cons, ← hr]

theorem flatAt_map_some (chunks : List FlatChunk) (i : Nat) : flatAt (chunks.map some) i = chunks[i]? := by
  rw [flatAt, getElem?_map]
  cases chunks[i]? <;> rfl

theorem Tracks.dense (h : Tracks keys made s) (hlt : keys.length < 2 ^ 32) (hc : s.flatList = chunks.map some) :
    Dense chunks ∧ chunks.length < 2 ^ 32 := by
  have hy : ∀ i (hi : i < chunks.length), i < keys.length := by
    intro i hi
    have hf : flatAt s.flatList i = some chunks[i] := by rw [hc, flatAt_map_some, getElem?_eq_getElem hi]
    obtain ⟨k, hk, -⟩ := Option.map_eq_some_iff.1 (h.listed.type i _ hf)
    exact (List.getElem?_eq_some_iff.1 hk).1
  constructor
  · intro i hi
    have hf : flatAt s.flatList i = some chunks[i] := by rw [hc, flatAt_map_some, getElem?_eq_getElem hi]
    rw [h.listed.id i _ hf, BitVec.toNat_ofNat]
    have := hy i hi
    exact Nat.mod_eq_of_lt (by omega)
  · rcases hl : chunks.length with _ | n
    · decide
    · have := hy n (by omega)
      omega

theorem Tracks.type_of_assigned (h : Tracks keys made s) (hlt : keys.length < 2 ^ 32) {c} {id}
    (hd : s.assignment.lookup c = some id) {flat} (hf : flatAt s.flatList id.toNat = some flat) :
    flat.type = c.type := by
  have hlk := h.numbered.assignment c
  rw [hd] at hlk
  split at hlk
  · next hm =>
    have hi := idxOf_lt_length_of_mem hm
    have hn : id.toNat = keys.idxOf (.chunk c) := by
      rw [Option.some.inj hlk, BitVec.toNat_ofNat]
      exact Nat.mod_eq_of_lt (by omega)
    have ht := h.listed.type _ _ hf
    rw [hn, getElem?_eq_getElem hi, getElem_idxOf hi] at ht
    exact (Option.some.inj ht).symm
  · cases hlk

/-! ## The objects -/

theorem instantiate_type {flat x} (h : instantiate flat = .ok (some x)) :
    ∃ f, flat = some f ∧ constructors[f.type.ctorIdx]? = some (some x.type) := by
  cases flat with
  | none => cases h
  | some f =>
    refine ⟨f, rfl, ?_⟩
    rw [instantiate] at h
    split at h
    · cases h
    · next type ht =>
      rcases type with _ | type
      · cases h
      · cases h
        exact ht

theorem types_getElem? {he' : Heap} (h : he'.types = heap.types) {i : Nat} {x}
    (hx : he'[i]? = some (some x)) : ∃ y, heap[i]? = some (some y) ∧ y.type = x.type := by
  have hi : heap.types[i]? = some (some x.type) := by
    rw [← h, Heap.types, getElem?_map, hx]
    rfl
  rw [Heap.types, getElem?_map] at hi
  obtain ⟨y, hy, hm⟩ := Option.map_eq_some_iff.1 hi
  obtain ⟨z, rfl, hz⟩ := Option.map_eq_some_iff.1 hm
  exact ⟨z, hy, hz⟩

section Reload

variable (hoh : ∀ type i, Keeps Heap.types (others type i))
include hoh

theorem deserialize_type (hd : Dense chunks) (hl : chunks.length < 2 ^ 32)
    (h : deserialize cx others unset (fileOf chunks) = .ok (heap, inputs)) {i : Nat} {x}
    (hx : heap[i]? = some (some x)) : ∃ flat, chunks[i]? = some flat ∧ reloadedClass flat.type = some x.type := by
  rw [deserialize, ok_bind (read_fileOf hd hl unset)] at h
  obtain ⟨he0, hn, h1⟩ := bind_iff.1 h
  obtain ⟨⟨he1, inputs1⟩, ha, h2⟩ := bind_iff.1 h1
  split at h2
  · cases h2
  · cases h2
    obtain ⟨y, hy, ht⟩ := types_getElem? (deserializeAll_types hoh ha) hx
    obtain ⟨flat, hf, hi⟩ := mapM_getElem? hn hy
    obtain ⟨f, rfl, hs⟩ := instantiate_type hi
    rw [getElem?_map, getElem?_map, Option.map_map] at hf
    obtain ⟨g, hg, hr⟩ := Option.map_eq_some_iff.1 hf
    have hp : chunks[i]?.map FlatChunk.type = some g.type := by
      rw [← placed_type (BitVec.ofNat 32 (signature.length + 4 + 4)) chunks i]
      exact congrArg (Option.map FlatChunk.type) hg
    obtain ⟨flat, hc, hgt⟩ := Option.map_eq_some_iff.1 hp
    refine ⟨flat, hc, ?_⟩
    rw [hgt, ← ht, reloadedClass]
    cases hr
    show constructors[(stored g).type.ctorIdx]?.join = _
    rw [hs]
    rfl

/-- The object under the ID of a chunk has the class that the chunk's type is read into. -/
theorem reload_class (hlt : (allIDs root.type (root.script cx)).length < 2 ^ 32)
    (h : root.reload cx others unset = .ok (some (s, heap, inputs))) {c} {x}
    (hx : heap[s.idOf c]? = some (some x)) : reloadedClass c.type = some x.type := by
  obtain ⟨s1, ha, h1⟩ := bind_iff.1 h
  split at h1
  · next hm =>
    obtain ⟨file, hw, h2⟩ := bind_iff.1 h1
    obtain ⟨⟨he2, inputs2⟩, hr, h3⟩ := bind_iff.1 h2
    cases h3
    have ht := serializeRoot_tracks hlt ha
    obtain ⟨chunks, hc⟩ := exists_chunks_of_complete hm
    obtain ⟨hd, hl⟩ := ht.dense hlt hc
    have he : ∀ flat ∈ chunks, Encodable flat.type := by
      by_contra hbad
      push Not at hbad
      rw [hc, write_error hbad] at hw
      cases hw
    rw [hc, write_eq he] at hw
    cases hw
    obtain ⟨flat, hf, hs⟩ := deserialize_type hoh hd hl hr hx
    cases hi : s.assignment.lookup c with
    | none =>
      -- an ID that was never assigned is past the end
      have hla : chunks.length ≤ s.idOf c := by
        rw [Archiver.idOf, hi]
        show chunks.length ≤ (BitVec.allOnes 32).toNat
        rw [BitVec.toNat_allOnes]
        omega
      rw [getElem?_eq_none hla] at hf
      cases hf
    | some id =>
      have hn : s.idOf c = id.toNat := by rw [Archiver.idOf, hi, Option.getD_some]
      rw [← ht.type_of_assigned hlt hi (by rw [hc, flatAt_map_some, ← hn, hf])]
      exact hs
  · cases h1

end Reload

/-! ## Functions -/

section Restored

variable (cx s heap)

/-- The instruction is there again, with the semantic that its bytes describe. -/
def Instruction.Restored (instr : Instruction) : Prop :=
  ∃ x b, heap[s.idOf ⟨.instruction, instr.object⟩]? = some (some x) ∧ x.type = .instruction ∧
    instr.semantic.serialize { cx with op := s.operations cx.op.address } instr.address = .ok b ∧
    Parses (Semantic.deserialize { cx with op := heap.operations }) b x.semantic ∧
    x.instructionSize = .ok instr.semantic.getSize

/-- The block of a function is there again, with the same instructions in the same order. -/
def Block.Restored (block : Block) : Prop :=
  ∃ x, heap[s.idOf ⟨.block, block.object⟩]? = some (some x) ∧ x.type = .block ∧ x.size = block.size ∧
    x.children = block.instructions.map (fun instr => s.idOf ⟨.instruction, instr.object⟩) ∧
    ∀ instr ∈ block.instructions, instr.Restored cx s heap

/-- The object with the ID of the function is a function with its blocks and instructions. -/
def Function.Restored (f : Function) : Prop :=
  ∃ x, heap[s.idOf ⟨.function, f.object⟩]? = some (some x) ∧ x.type = .function ∧ x.size = (f.blocks.map Block.size).sum ∧
    x.children = f.blocks.map (fun block => s.idOf ⟨.block, block.object⟩) ∧ ∀ block ∈ f.blocks, block.Restored cx s heap

end Restored

def Module.functions (m : Module) : List Function := m.functionList.getD []

def Program.functions (program : Program) : List Function := program.modules.flatMap Module.functions

theorem reloadedClass_function : reloadedClass .function = some .instruction := by decide

theorem not_restored_function (hoh : ∀ type i, Keeps Heap.types (others type i))
    (hlt : (allIDs root.type (root.script cx)).length < 2 ^ 32)
    (h : root.reload cx others unset = .ok (some (s, heap, inputs))) (f : Function) : ¬ f.Restored cx s heap := by
  rintro ⟨x, hx, ht, -⟩
  have hc := reload_class hoh hlt h hx
  rw [reloadedClass_function, ht] at hc
  cases hc

/-- Every function of a program comes back exactly if there are none, whatever the classes that are
not modelled do with the fields of their objects. -/
theorem functions_restored_iff {program : Program} (hothers : ∀ type i, Keeps Heap.types (others type i))
    (hlt : (allIDs .program (program.serialize cx false)).length < 2 ^ 32) :
    (∀ f ∈ program.functions, ∃ s heap inputs,
      (Root.program program).reload cx others unset = .ok (some (s, heap, inputs)) ∧ f.Restored cx s heap) ↔
    program.functions = [] := by
  constructor
  · intro h
    by_contra hne
    obtain ⟨f, hf⟩ := exists_mem_of_ne_nil _ hne
    obtain ⟨s, heap, inputs, hrl, hrs⟩ := h f hf
    have hlt' : (allIDs (Root.program program).type ((Root.program program).script cx)).length < 2 ^ 32 := hlt
    exact not_restored_function hothers hlt' hrl f hrs
  · intro h f hf
    rw [h] at hf
    cases hf

/-- A program with one module, which has nothing but the given functions and regions. -/
def oneModule (functions : List Function) (regions : List DataRegion) : Program :=
  ⟨some ⟨[], []⟩, [{ emptyModule none with functionList := some functions, dataRegionList := some ⟨none, regions⟩ }], none⟩

/-- The classes of the objects, before their records are read. -/
def Root.classes (cx : Context) (root : Root) : Except Fault (List (Option EgalitoChunkType)) := do
  let s ← root.archive cx
  let file ← write ⟨s.flatList, BitVec.ofNat 32 currentVersion⟩
  match ← read 0 file with
  | none => .error .nullPointer
  | some archive => do
    let heap ← archive.flatList.mapM instantiate
    .ok (Heap.types heap)

theorem functions_restored_iff_return :
    (∀ f ∈ (oneModule [] []).functions, ∃ s heap inputs, (Root.program (oneModule [] [])).reload Semantic.sampleContext
      (fun _ _ => pure ()) 0 = .ok (some (s, heap, inputs)) ∧ f.Restored Semantic.sampleContext s heap) ∧
    ¬ ∀ f ∈ (oneModule [returnOnly] []).functions, ∃ s heap inputs, (Root.program (oneModule [returnOnly] [])).reload
      Semantic.sampleContext (fun _ _ => pure ()) 0 = .ok (some (s, heap, inputs)) ∧
      f.Restored Semantic.sampleContext s heap := by
  constructor
  · exact (functions_restored_iff (fun _ _ => Keeps.pure ()) (by decide +kernel)).2 rfl
  · rw [functions_restored_iff (fun _ _ => Keeps.pure ()) (by decide +kernel)]
    simp [oneModule, Program.functions, Module.functions]

/-- The function has ID 5 and the block and the instruction have 6 and 7. They come back as an
instruction, a PLT trampoline and a jump table. -/
theorem function_not_restored :
    (Root.program (oneModule [returnOnly] [])).classes Semantic.sampleContext = .ok [some .program, some .function,
      some .module, some .pltList, some .functionList, some .instruction, some .pltTrampoline, some .jumpTable,
      some .jumpTableList, some .dataRegionList, some .vTableList] ∧
    returnOnly ∈ (oneModule [returnOnly] []).functions ∧
    ∀ others s heap inputs, (∀ type i, Keeps Heap.types (others type i)) →
      (Root.program (oneModule [returnOnly] [])).reload Semantic.sampleContext others 0 = .ok (some (s, heap, inputs)) →
      ¬ returnOnly.Restored Semantic.sampleContext s heap := by
  refine ⟨by decide +kernel, by simp [oneModule, Program.functions, Module.functions], ?_⟩
  intro others s heap inputs hoh h
  exact not_restored_function hoh (by decide +kernel) h returnOnly

/-! ## Data regions -/

section Restored

variable (s heap) (localModuleOnly : Bool)

/-- The variable is there again; its link is compared when it is written. -/
def DataVariable.Restored (address : Object → Address) (var : DataVariable) : Prop :=
  ∃ x, heap[s.idOf ⟨.dataVariable, var.object⟩]? = some (some x) ∧ x.type = .dataVariable ∧ x.name = var.name ∧
    x.size = var.size ∧ x.position = var.offset ∧
    (localModuleOnly = false →
      if var.dest = .other then x.dest = none
      else ∃ b, var.dest.serialize (s.operations address) = .ok b ∧ Parses (Link.deserialize heap.operations) b x.dest)

/-- The object with the ID of the section has its fields and variables. -/
def DataSection.Restored (address : Object → Address) (ds : DataSection) : Prop :=
  ∃ x, heap[s.idOf ⟨.dataSection, ds.object⟩]? = some (some x) ∧ x.type = .dataSection ∧ x.name = ds.name ∧
    x.size = ds.size ∧ x.originalOffset = ds.originalOffset ∧ x.sectionType = ds.type ∧ x.permissions = ds.permissions ∧
    x.children = ds.dataVariables.map (fun var => s.idOf ⟨.dataVariable, var.object⟩) ∧
    ∀ var ∈ ds.dataVariables, var.Restored s heap localModuleOnly address

/-- The object with the ID of the region is one with its sections. -/
def DataRegion.Restored (address : Object → Address) (region : DataRegion) : Prop :=
  ∃ x, heap[s.idOf region.chunk]? = some (some x) ∧ x.type = region.chunk.type ∧
    x.children = region.sections.map (fun ds => s.idOf ⟨.dataSection, ds.object⟩) ∧
    ∀ ds ∈ region.sections, ds.Restored s heap localModuleOnly address

end Restored

def Module.regions (m : Module) : List DataRegion := m.dataRegionList.elim [] DataRegionList.regions

def Root.regions : Root → List DataRegion
  | program p => p.modules.flatMap Module.regions
  | module m => m.regions

def Root.localModuleOnly : Root → Bool
  | program _ => false
  | module _ => true

theorem reloadedClass_region (region : DataRegion) : reloadedClass region.chunk.type ≠ some region.chunk.type := by
  unfold DataRegion.chunk
  split
  · exact show reloadedClass .tlsDataRegion ≠ some .tlsDataRegion by decide
  · exact show reloadedClass .dataRegion ≠ some .dataRegion by decide

theorem not_restored_region (hoh : ∀ type i, Keeps Heap.types (others type i))
    (hlt : (allIDs root.type (root.script cx)).length < 2 ^ 32)
    (h : root.reload cx others unset = .ok (some (s, heap, inputs))) (localModuleOnly) (region : DataRegion) :
    ¬ region.Restored s heap localModuleOnly cx.op.address := by
  rintro ⟨x, hx, ht, -⟩
  have hc := reload_class hoh hlt h hx
  rw [ht] at hc
  exact reloadedClass_region region hc

/-- Every data region of a program or of a module that is serialized alone comes back, from records
that are read to their ends, exactly if there are none. -/
theorem regions_restored_iff (root : Root) (hothers : ∀ type i, Keeps Heap.types (others type i))
    (hlt : (allIDs root.type (root.script cx)).length < 2 ^ 32) :
    (∀ region ∈ root.regions, ∃ s heap inputs, root.reload cx others unset = .ok (some (s, heap, inputs)) ∧
      (∀ input ∈ inputs, input = ⟨[], .good⟩) ∧ region.Restored s heap root.localModuleOnly cx.op.address) ↔
    root.regions = [] := by
  constructor
  · intro h
    by_contra hne
    obtain ⟨region, hreg⟩ := exists_mem_of_ne_nil _ hne
    obtain ⟨s, heap, inputs, hrl, -, hrs⟩ := h region hreg
    exact not_restored_region hothers hlt hrl _ region hrs
  · intro h region hreg
    rw [h] at hreg
    cases hreg

/-- A region of 16 bytes with one section and, in it, one variable without a link. -/
def sampleRegion : DataRegion :=
  ⟨0, none, 0x2000, 16, 0x2000, 6, 0x1000, [], [⟨0, 16, ⟨[0x64], by decide⟩, 8, 0, 3, 2,
    [⟨0, some 0, 8, ⟨[0x76], by decide⟩, .other, 8⟩]⟩]⟩

theorem regions_restored_iff_sample :
    (∀ region ∈ (Root.module (emptyModule none)).regions, ∃ s heap inputs,
      (Root.module (emptyModule none)).reload Semantic.sampleContext (fun _ _ => pure ()) 0 = .ok (some (s, heap, inputs)) ∧
      (∀ input ∈ inputs, input = ⟨[], .good⟩) ∧ region.Restored s heap true Semantic.sampleContext.op.address) ∧
    ¬ ∀ region ∈ (Root.program (oneModule [] [sampleRegion])).regions, ∃ s heap inputs,
      (Root.program (oneModule [] [sampleRegion])).reload Semantic.sampleContext (fun _ _ => pure ()) 0 =
        .ok (some (s, heap, inputs)) ∧
      (∀ input ∈ inputs, input = ⟨[], .good⟩) ∧ region.Restored s heap false Semantic.sampleContext.op.address := by
  constructor
  · exact (regions_restored_iff (.module (emptyModule none)) (fun _ _ => Keeps.pure ()) (by decide +kernel)).2 rfl
  · intro h
    have := (regions_restored_iff (.program (oneModule [] [sampleRegion])) (fun _ _ => Keeps.pure ())
      (by decide +kernel)).1 h
    cases this

/-- The region has ID 7 and the section and the variable have 8 and 9. They come back as a section,
as nothing and as a virtual table. -/
theorem region_not_restored :
    (Root.program (oneModule [] [sampleRegion])).classes Semantic.sampleContext = .ok [some .program, some .function,
      some .module, some .pltList, some .functionList, some .jumpTableList, some .dataRegionList, some .dataSection, none,
      some .vTable, some .vTableList] ∧
    sampleRegion ∈ (Root.program (oneModule [] [sampleRegion])).regions ∧
    ∀ others s heap inputs, (∀ type i, Keeps Heap.types (others type i)) →
      (Root.program (oneModule [] [sampleRegion])).reload Semantic.sampleContext others 0 = .ok (some (s, heap, inputs)) →
      ¬ sampleRegion.Restored s heap false Semantic.sampleContext.op.address := by
  refine ⟨by decide +kernel, by simp [oneModule, Root.regions, Module.regions], ?_⟩
  intro others s heap inputs hoh h
  exact not_restored_region hoh (by decide +kernel) h false sampleRegion

end Egalito.Archive
