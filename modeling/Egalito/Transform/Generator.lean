/-
Generation of code into a sandbox (`transform/generator.cpp`).

Slots are handed out one after the other, the sizes are those of the encodings, and the bytes written to a slot are
not touched by the later ones (`Lib.Tiling`); `generated_code_lands` puts this together for every program that fits.
-/
import Egalito.Lib.Tiling
import Egalito.Archive.SemanticCodec
import Egalito.Transform.Sandbox

namespace Egalito

open Lib List

open Archive (Fault Context)
open Except

/-! ## Encodings -/

namespace Archive.Semantic

def byteSize : Semantic → Nat
  | isolated data | ret data | indirectJump _ _ _ data _ | indirectCall _ _ data | literal data => data.length
  | linked data _ _ _ _ | dataLinked data _ _ _ _ _ => data.length
  | controlFlow _ _ opcode _ dispSize _ _ => opcode.length + dispSize.toNat
  | stackFrame _ opCodeSize dispSize _ => opCodeSize + dispSize

/-- The displacement is within the encoding that the disassembler knows. -/
def WellFormed : Semantic → Prop
  | linked data _ _ dispSize dispOffset | dataLinked data _ _ dispSize dispOffset _ =>
    0 ≤ dispOffset ∧ dispOffset + dispSize ≤ data.length
  | controlFlow _ _ _ _ dispSize _ _ => 0 ≤ dispSize
  | stackFrame data opCodeSize _ _ => opCodeSize ≤ data.length
  | isolated _ | ret _ | indirectJump .. | indirectCall .. | literal _ => True

theorem length_encoding {cx position} {s : Semantic} {bytes : List Byte} (hwf : s.WellFormed)
    (h : s.encoding cx position = .ok bytes) : bytes.length = s.byteSize := by
  cases s with
  | isolated data | ret data | indirectJump _ _ _ data _ | indirectCall _ _ data | literal data =>
    cases h
    rfl
  | linked data link index dispSize dispOffset | dataLinked data link index dispSize dispOffset isRelative =>
    obtain ⟨disp, -, h⟩ := bind_iff.1 h
    cases h
    obtain ⟨h0, hle⟩ : 0 ≤ dispOffset ∧ dispOffset + dispSize ≤ data.length := hwf
    exact length_writeTo (by omega) disp
  | controlFlow id source opcode mnemonic dispSize nonreturn link =>
    rw [encoding] at h
    split_ifs at h
    obtain ⟨a, -, h⟩ := bind_iff.1 h
    obtain ⟨disp, -, h⟩ := bind_iff.1 h
    cases h
    rw [length_append, length_littleEndian]
    rfl
  | stackFrame data opCodeSize dispSize displacement =>
    cases h
    have hle := hwf
    rw [length_append, length_take, length_littleEndian, Nat.min_eq_left hle]
    rfl

end Archive.Semantic

namespace Transform

structure Instruction where
  self : Archive.Object
  semantic : Archive.Semantic
  wellFormed : semantic.WellFormed

/-- A function or a PLT trampoline: blocks of instructions, with the size that the mutator keeps. -/
structure Chunk where
  id : Nat
  originalAddress : Address
  blocks : List (List Instruction)
  size : Nat
  size_eq : size = totalLength (fun i => i.semantic.byteSize) blocks.flatten

structure Module where
  functions : List Chunk
  pltList : Option (List Chunk)

def Module.plts (m : Module) : List Chunk := m.pltList.getD []

def Module.chunks (m : Module) : List Chunk := m.functions ++ m.plts

/-- A program, whose chunks are different objects. -/
structure Program where
  modules : List Module
  distinct : ((modules.flatMap Module.chunks).map Chunk.id).Nodup

def Program.chunks (p : Program) : List Chunk := p.modules.flatMap Module.chunks

abbrev Slots := Nat → Option Slot

def Slots.getAddress (slots : Slots) (c : Chunk) : Address :=
  match slots c.id with
  | some slot => slot.address
  | none => c.originalAddress

structure State where
  sandbox : Sandbox
  slots : Slots

/-- `std::sort` by address. What it does with equal addresses is not specified. -/
structure StdSort where
  sort : (Chunk → Address) → List Chunk → List Chunk
  perm : ∀ key l, (sort key l).Perm l
  sorted : ∀ key l, (sort key l).Pairwise fun c d => key c ≤ key d

def pickFunctionOrder (std : StdSort) (slots : Slots) (m : Module) : List Chunk :=
  std.sort slots.getAddress m.functions

def assignAddress (slots : Slots) (c : Chunk) (slot : Slot) : Slots :=
  fun n => if n = c.id then some slot else slots n

def assignChunks : List Chunk → State → Option State
  | [], st => some st
  | c :: l, st => do
    let (slot, sandbox) ← st.sandbox.allocate (BitVec.ofNat 64 c.size)
    assignChunks l ⟨sandbox, assignAddress st.slots c slot⟩

def assignModule (std : StdSort) (m : Module) (st : State) : Option State := do
  let st ← assignChunks (pickFunctionOrder std st.slots m) st
  match m.pltList with
  | none => some st
  | some plts => assignChunks plts st

def assignModules (std : StdSort) : List Module → State → Option State
  | [], st => some st
  | m :: l, st => do
    let st ← assignModule std m st
    assignModules std l st

/-- A slot for each chunk of each module, in the order of the sort. -/
def assignAddresses (std : StdSort) (p : Program) (st : State) : Option State := assignModules std p.modules st

/-! ## Generating code -/

/-- The bytes of an instruction, written at its own address. -/
def Instruction.encoding (cx : Context) (i : Instruction) : Except Fault (List Byte) :=
  i.semantic.encoding cx (cx.op.address i.self)

/-- The loop over the instructions of a block, with an `InstrWriterCppString`. -/
def writeInstructions (cx : Context) : List Instruction → List Byte → Except Fault (List Byte)
  | [], buffer => .ok buffer
  | i :: l, buffer => do
    let bytes ← i.encoding cx
    writeInstructions cx l (buffer ++ bytes)

def writeBlocks (cx : Context) : List (List Instruction) → List Byte → Except Fault (List Byte)
  | [], buffer => .ok buffer
  | b :: l, buffer => do
    let buffer ← writeInstructions cx b buffer
    writeBlocks cx l buffer

/-- `addPaddingBytes`; a slot that is too small is only logged. -/
def addPaddingBytes (slots : Slots) (c : Chunk) (buffer : List Byte) : Except Fault (List Byte) :=
  match slots c.id with
  | none => .error .nullPointer
  | some slot =>
    .ok (if slot.size.toNat > c.size then buffer ++ replicate (slot.size.toNat - c.size) 0x90 else buffer)

def copyFunction (cx : Context) (slots : Slots) (c : Chunk) (buffer : List Byte) : Except Fault (List Byte) := do
  let buffer ← writeBlocks cx c.blocks buffer
  addPaddingBytes slots c buffer

/-- `copyToSandbox` of a trampoline, which is filled up to its size. -/
def copyTrampoline (cx : Context) (slots : Slots) (c : Chunk) (buffer : List Byte) : Except Fault (List Byte) := do
  let expectedSize := buffer.length + c.size
  let buffer ← writeBlocks cx c.blocks buffer
  let buffer := if buffer.length > expectedSize then buffer
    else buffer ++ replicate (expectedSize - buffer.length) 0xf4
  addPaddingBytes slots c buffer

def copyChunks (copy : Chunk → List Byte → Except Fault (List Byte)) :
    List Chunk → List Byte → Except Fault (List Byte)
  | [], buffer => .ok buffer
  | c :: l, buffer => do
    let buffer ← copy c buffer
    copyChunks copy l buffer

def generateModule (std : StdSort) (cx : Context) (slots : Slots) (m : Module) (buffer : List Byte) :
    Except Fault (List Byte) := do
  let buffer ← copyChunks (copyFunction cx slots) (pickFunctionOrder std slots m) buffer
  match m.pltList with
  | none => .ok buffer
  | some plts => copyChunks (copyTrampoline cx slots) plts buffer

def generateModules (std : StdSort) (cx : Context) (slots : Slots) : List Module → List Byte → Except Fault (List Byte)
  | [], buffer => .ok buffer
  | m :: l, buffer => do
    let buffer ← generateModule std cx slots m buffer
    generateModules std cx slots l buffer

/-- `Generator::generateCode`, with the buffer it leaves. `cx` gives the addresses with the assigned positions. -/
def generateCode (std : StdSort) (cx : Slots → Context) (p : Program) (st : State) : Except Fault (List Byte) :=
  generateModules std (cx st.slots) st.slots p.modules st.sandbox.buffer

/-! ## What is written -/

variable {cx : Context} {a : Alignment} {slots : Slots} {c : Chunk} {buffer b : List Byte}

/-- The concatenated encodings of the instructions. -/
def Chunk.encoding (cx : Context) (c : Chunk) : Except Fault (List Byte) :=
  (c.blocks.flatten.mapM (Instruction.encoding cx)).map flatten

theorem writeInstructions_eq : ∀ l buffer, writeInstructions cx l buffer =
    (l.mapM (Instruction.encoding cx)).map fun pieces => buffer ++ pieces.flatten
  | [], buffer => by
    rw [writeInstructions, mapM_nil]
    exact congrArg ok (append_nil buffer).symm
  | i :: l, buffer => by
    rw [writeInstructions, mapM_cons]
    cases hi : i.encoding cx with
    | error e => rfl
    | ok bytes =>
      rw [ok_bind rfl, ok_bind rfl, writeInstructions_eq l]
      cases l.mapM (Instruction.encoding cx) with
      | error e => rfl
      | ok pieces => exact congrArg ok (append_assoc ..)

theorem writeBlocks_eq : ∀ blocks buffer, writeBlocks cx blocks buffer =
    (blocks.flatten.mapM (Instruction.encoding cx)).map fun pieces => buffer ++ pieces.flatten
  | [], buffer => writeInstructions_eq [] buffer
  | block :: blocks, buffer => by
    rw [writeBlocks, writeInstructions_eq, flatten_cons, mapM_append]
    cases block.mapM (Instruction.encoding cx) with
    | error e => rfl
    | ok pieces =>
      rw [ok_bind rfl, show (ok pieces).map _ = ok (buffer ++ pieces.flatten) from rfl,
        ok_bind rfl, writeBlocks_eq blocks]
      cases blocks.flatten.mapM (Instruction.encoding cx) with
      | error e => rfl
      | ok rest =>
        refine congrArg ok ?_
        show buffer ++ pieces.flatten ++ rest.flatten = buffer ++ (pieces ++ rest).flatten
        rw [flatten_append, append_assoc]

theorem length_mapM_encoding : ∀ {l pieces},
    l.mapM (Instruction.encoding cx) = .ok pieces → pieces.flatten.length = totalLength (fun i => i.semantic.byteSize) l
  | [], pieces, h => by
    cases h
    rfl
  | i :: l, pieces, h => by
    rw [mapM_cons] at h
    obtain ⟨bytes, hi, h⟩ := bind_iff.1 h
    obtain ⟨rest, hl, h⟩ := bind_iff.1 h
    cases h
    rw [flatten_cons, length_append, length_mapM_encoding hl, totalLength_cons]
    exact congrArg (· + _) (Archive.Semantic.length_encoding i.wellFormed hi)

theorem Chunk.length_encoding {bytes} (h : c.encoding cx = .ok bytes) : bytes.length = c.size := by
  unfold Chunk.encoding at h
  cases hl : c.blocks.flatten.mapM (Instruction.encoding cx) with
  | error e =>
    rw [hl] at h
    cases h
  | ok pieces =>
    rw [hl] at h
    cases h
    rw [length_mapM_encoding hl, c.size_eq]

def padding (a : Alignment) (c : Chunk) : List Byte := replicate (a.roundUp c.size - c.size) 0x90

/-- The chunk has a slot of its rounded size. -/
def Slotted (a : Alignment) (slots : Slots) (c : Chunk) : Prop :=
  ∃ slot, slots c.id = some slot ∧ slot.size.toNat = a.roundUp c.size

theorem addPaddingBytes_eq (h : Slotted a slots c) (buffer) :
    addPaddingBytes slots c buffer = .ok (buffer ++ padding a c) := by
  obtain ⟨slot, hs, hz⟩ := h
  unfold addPaddingBytes padding
  rw [hs]
  simp only [hz]
  split
  · rfl
  · rename_i hle
    rw [Nat.sub_eq_zero_of_le (not_lt.1 hle), replicate_zero, append_nil]

theorem writeBlocks_chunk (cx) (c : Chunk) (buffer) :
    writeBlocks cx c.blocks buffer = (c.encoding cx).map (buffer ++ ·) := by
  rw [writeBlocks_eq, Chunk.encoding]
  cases c.blocks.flatten.mapM (Instruction.encoding cx) <;> rfl

/-- What a copy of a chunk does: it appends the code and the padding. -/
def Copies (cx : Context) (a : Alignment) (copy : Chunk → List Byte → Except Fault (List Byte)) (c : Chunk) : Prop :=
  ∀ buffer, copy c buffer = (c.encoding cx).map fun bytes => buffer ++ (bytes ++ padding a c)

theorem copyFunction_copies (h : Slotted a slots c) : Copies cx a (copyFunction cx slots) c := by
  intro buffer
  unfold copyFunction
  rw [writeBlocks_chunk]
  cases c.encoding cx with
  | error e => rfl
  | ok bytes =>
    rw [show (ok bytes).map _ = ok (buffer ++ bytes) from rfl, ok_bind rfl, addPaddingBytes_eq h,
      append_assoc]
    rfl

/-- A trampoline has no room to fill, its size being that of its instructions. -/
theorem copyTrampoline_copies (h : Slotted a slots c) : Copies cx a (copyTrampoline cx slots) c := by
  intro buffer
  unfold copyTrampoline
  simp only
  rw [writeBlocks_chunk]
  cases hb : c.encoding cx with
  | error e => rfl
  | ok bytes =>
    have hl : (buffer ++ bytes).length = buffer.length + c.size := by
      rw [length_append, Chunk.length_encoding hb]
    rw [show (ok bytes).map _ = ok (buffer ++ bytes) from rfl, ok_bind rfl, hl,
      if_neg (lt_irrefl _), Nat.sub_self, replicate_zero, append_nil, addPaddingBytes_eq h, append_assoc]
    rfl

/-- Every instruction of the chunk can be written. -/
def Encodable (cx : Context) (c : Chunk) : Prop := ∃ bytes, c.encoding cx = .ok bytes

/-- What a chunk contributes to the buffer; where its code cannot be written, some bytes of its size. -/
def piece (cx : Context) (a : Alignment) (c : Chunk) : List Byte :=
  (match c.encoding cx with
    | .ok bytes => bytes
    | .error _ => replicate c.size 0) ++ padding a c

theorem piece_eq {bytes} (h : c.encoding cx = .ok bytes) : piece cx a c = bytes ++ padding a c := by
  rw [piece, h]

theorem length_piece (cx a) (c) : (piece cx a c).length = a.roundUp c.size := by
  have hle := a.le_roundUp c.size
  unfold piece padding
  rw [length_append, length_replicate]
  cases h : c.encoding cx with
  | error e =>
    rw [length_replicate]
    omega
  | ok bytes =>
    rw [Chunk.length_encoding h]
    omega

theorem copyChunks_iff {copy} : ∀ {l buffer}, (∀ c ∈ l, Copies cx a copy c) →
    (copyChunks copy l buffer = .ok b ↔ (∀ c ∈ l, Encodable cx c) ∧ b = buffer ++ l.flatMap (piece cx a))
  | [], buffer, _ => by
    rw [copyChunks, ok.injEq, flatMap_nil, append_nil]
    constructor
    · rintro rfl
      exact ⟨by simp, rfl⟩
    · rintro ⟨-, rfl⟩
      rfl
  | c :: l, buffer, h => by
    have hl : ∀ c ∈ l, Copies cx a copy c := fun d hd => h d (mem_cons_of_mem _ hd)
    rw [copyChunks, h c mem_cons_self buffer]
    cases hc : c.encoding cx with
    | error e =>
      constructor
      · intro hr
        cases hr
      · rintro ⟨he, -⟩
        obtain ⟨bytes, ht⟩ := he c mem_cons_self
        rw [hc] at ht
        cases ht
    | ok bytes =>
      rw [show (ok bytes).map _ = ok (buffer ++ (bytes ++ padding a c)) from rfl, ok_bind rfl,
        copyChunks_iff hl, forall_mem_cons, flatMap_cons, piece_eq hc, append_assoc]
      exact ⟨fun ⟨he, hb⟩ => ⟨⟨⟨bytes, hc⟩, he⟩, hb⟩, fun ⟨⟨_, he⟩, hb⟩ => ⟨he, hb⟩⟩

/-! ## Where the slots are -/

def need (a : Alignment) (c : Chunk) : Nat := a.roundUp c.size

def place (slots : Slots) (c : Chunk) : Nat := (slots.getAddress c).toNat

/-- The state after slots for `l` were allocated: they follow each other from the watermark on, and
nothing else has changed. -/
structure Assigned (l : List Chunk) (st st' : State) : Prop where
  slotted : ∀ c ∈ l, Slotted st.sandbox.alignment st'.slots c
  others : ∀ n, n ∉ l.map Chunk.id → st'.slots n = st.slots n
  tiles : Tiles (place st'.slots) (need st.sandbox.alignment) st.sandbox.watermark.toNat l
  watermark : st'.sandbox.watermark.toNat = st.sandbox.watermark.toNat + totalLength (need st.sandbox.alignment) l
  sandbox : st'.sandbox = { st.sandbox with watermark := st'.sandbox.watermark }

variable {st : State} {l : List Chunk}

variable {st' : State} {m : Module} {w : Nat} {L : List Chunk}

theorem Assigned.alignment (h : Assigned l st st') : st'.sandbox.alignment = st.sandbox.alignment := by rw [h.sandbox]

theorem Assigned.backing (h : Assigned l st st') : st'.sandbox.backing = st.sandbox.backing := by rw [h.sandbox]

theorem Assigned.nil (st) : Assigned [] st st := ⟨by simp, fun _ _ => rfl, trivial, rfl, rfl⟩

theorem place_congr {slots'} (h : slots' c.id = slots c.id) : place slots' c = place slots c := by
  unfold place Slots.getAddress
  rw [h]

theorem Assigned.append {l' st1 st2} (h : Assigned l st st1) (h' : Assigned l' st1 st2)
    (hd : ∀ c ∈ l, c.id ∉ l'.map Chunk.id) : Assigned (l ++ l') st st2 := by
  have hs : ∀ c ∈ l, st2.slots c.id = st1.slots c.id := fun c hc => h'.others c.id (hd c hc)
  refine ⟨fun c hc => ?_, fun n hn => ?_, ?_, ?_, ?_⟩
  · rcases mem_append.1 hc with hc | hc
    · obtain ⟨slot, ht, hz⟩ := h.slotted c hc
      exact ⟨slot, (hs c hc).trans ht, hz⟩
    · exact h.alignment ▸ h'.slotted c hc
  · rw [map_append, mem_append, not_or] at hn
    rw [h'.others n hn.2, h.others n hn.1]
  · refine tiles_append.2 ⟨h.tiles.congr fun c hc => place_congr (hs c hc), ?_⟩
    rw [← h.watermark, ← h.alignment]
    exact h'.tiles
  · rw [h'.watermark, h.watermark, h.alignment, totalLength_append, add_assoc]
  · rw [h'.sandbox, h.sandbox]

def limit (st : State) : Nat := st.sandbox.backing.base.toNat + st.sandbox.backing.size.toNat

theorem assignChunks_spec : ∀ {l st}, (l.map Chunk.id).Nodup →
    st.sandbox.watermark.toNat + totalLength (need st.sandbox.alignment) l ≤ limit st →
    ∃ st', assignChunks l st = some st' ∧ Assigned l st st'
  | [], st, _, _ => ⟨st, rfl, .nil st⟩
  | c :: l, st, hnd, hf => by
    obtain ⟨hc, hl⟩ := nodup_cons.1 hnd
    rw [totalLength_cons] at hf
    have hm : st.sandbox.watermark.toNat + st.sandbox.alignment.roundUp c.size ≤
        st.sandbox.backing.base.toNat + st.sandbox.backing.size.toNat := by
      unfold limit need at hf
      omega
    obtain ⟨slot, watermark, ha, har, hz, hw⟩ := Sandbox.allocate_ok hm
    let st1 : State := ⟨{ st.sandbox with watermark := watermark }, assignAddress st.slots c slot⟩
    have hs : st1.slots c.id = some slot := if_pos rfl
    have hfr : Assigned [c] st st1 := by
      refine ⟨fun d hd => ?_, fun n hn => ?_, ⟨?_, trivial⟩, ?_, rfl⟩
      · rw [mem_singleton.1 hd]
        exact ⟨slot, hs, hz⟩
      · exact if_neg (by simpa using hn)
      · unfold place Slots.getAddress
        rw [hs]
        exact congrArg BitVec.toNat har
      · rw [totalLength_cons, totalLength_nil]
        exact hw
    have ht : st1.sandbox.watermark.toNat + totalLength (need st1.sandbox.alignment) l ≤ limit st1 := by
      rw [hw, add_assoc]
      exact hf
    obtain ⟨st', hr, hg⟩ := assignChunks_spec hl ht
    refine ⟨st', ?_, hfr.append hg fun d hd => mem_singleton.1 hd ▸ hc⟩
    rw [assignChunks, ha]
    exact hr

theorem assignModule_eq (std) (m) (st) : assignModule std m st =
    (assignChunks (pickFunctionOrder std st.slots m) st).bind (assignChunks m.plts) := by
  unfold assignModule Module.plts
  cases m.pltList <;> rfl

/-- The chunks in the order of the slots, module by module. -/
def LaidOut (slots : Slots) (a : Alignment) : Nat → List Module → Prop
  | _, [] => True
  | w, m :: l => ∃ order, order.Perm m.functions ∧ Tiles (place slots) (need a) w (order ++ m.plts) ∧
      LaidOut slots a (w + totalLength (need a) m.chunks) l

/-- One module: the slots are in the order of the old addresses, then of the trampolines. -/
theorem assignModule_spec (std) (hnd : (m.chunks.map Chunk.id).Nodup)
    (hf : st.sandbox.watermark.toNat + totalLength (need st.sandbox.alignment) m.chunks ≤ limit st) :
    ∃ st' order, assignModule std m st = some st' ∧ order.Perm m.functions ∧ Assigned (order ++ m.plts) st st' := by
  have hp : (pickFunctionOrder std st.slots m).Perm m.functions := std.perm _ _
  rw [Module.chunks, map_append] at hnd
  obtain ⟨hn, ht, hd⟩ := nodup_append.1 hnd
  rw [Module.chunks, totalLength_append] at hf
  have hm : st.sandbox.watermark.toNat + totalLength (need st.sandbox.alignment) (pickFunctionOrder std st.slots m) ≤
      limit st := by
    rw [totalLength_perm hp]
    omega
  obtain ⟨st1, hr, h⟩ := assignChunks_spec ((hp.map Chunk.id).nodup_iff.2 hn) hm
  have hr' : st1.sandbox.watermark.toNat + totalLength (need st1.sandbox.alignment) m.plts ≤ limit st1 := by
    rw [limit, h.backing, h.watermark, h.alignment, totalLength_perm hp, add_assoc]
    exact hf
  obtain ⟨st2, hn', h'⟩ := assignChunks_spec ht hr'
  refine ⟨st2, _, ?_, hp, h.append h' fun c hc hin => ?_⟩
  · rw [assignModule_eq, hr]
    exact hn'
  · exact hd c.id (mem_map_of_mem (hp.mem_iff.1 hc)) c.id hin rfl

/-- The state after all modules were assigned. -/
structure AssignedModules (l : List Module) (st st' : State) : Prop where
  slotted : ∀ c ∈ l.flatMap Module.chunks, Slotted st.sandbox.alignment st'.slots c
  others : ∀ n, n ∉ (l.flatMap Module.chunks).map Chunk.id → st'.slots n = st.slots n
  laidOut : LaidOut st'.slots st.sandbox.alignment st.sandbox.watermark.toNat l
  sandbox : st'.sandbox = { st.sandbox with watermark := st'.sandbox.watermark }

theorem assignModules_spec (std) : ∀ {l st}, ((l.flatMap Module.chunks).map Chunk.id).Nodup →
    st.sandbox.watermark.toNat + totalLength (need st.sandbox.alignment) (l.flatMap Module.chunks) ≤ limit st →
    ∃ st', assignModules std l st = some st' ∧ AssignedModules l st st'
  | [], st, _, _ => ⟨st, rfl, by simp, fun _ _ => rfl, trivial, rfl⟩
  | m :: l, st, hnd, hf => by
    rw [flatMap_cons, map_append] at hnd
    obtain ⟨hm, hl, hd⟩ := nodup_append.1 hnd
    rw [flatMap_cons, totalLength_append] at hf
    have hrm : st.sandbox.watermark.toNat + totalLength (need st.sandbox.alignment) m.chunks ≤ limit st := by omega
    obtain ⟨st1, order, hr, hp, h⟩ := assignModule_spec std hm hrm
    have hcn : (order ++ m.plts).Perm m.chunks := hp.append_right _
    have hw := h.watermark
    rw [totalLength_perm hcn] at hw
    have hr' : st1.sandbox.watermark.toNat + totalLength (need st1.sandbox.alignment) (l.flatMap Module.chunks) ≤
        limit st1 := by
      rw [limit, h.backing, hw, h.alignment, add_assoc]
      exact hf
    obtain ⟨st2, hn', h'⟩ := assignModules_spec std hl hr'
    have hs : ∀ c ∈ m.chunks, st2.slots c.id = st1.slots c.id := by
      intro c hc
      refine h'.others c.id fun hin => ?_
      exact hd c.id (mem_map_of_mem hc) c.id hin rfl
    refine ⟨st2, ?_, fun c hc => ?_, fun n hn => ?_, ⟨order, hp, ?_, ?_⟩, ?_⟩
    · rw [assignModules, hr]
      exact hn'
    · rcases mem_append.1 (flatMap_cons ▸ hc) with hc | hc
      · obtain ⟨slot, ht, hz⟩ := h.slotted c (hcn.mem_iff.2 hc)
        exact ⟨slot, (hs c hc).trans ht, hz⟩
      · exact h.alignment ▸ h'.slotted c hc
    · rw [flatMap_cons, map_append, mem_append, not_or] at hn
      rw [h'.others n hn.2, h.others n (mt (hcn.map Chunk.id).mem_iff.1 hn.1)]
    · exact h.tiles.congr fun c hc => place_congr (hs c (hcn.mem_iff.1 hc))
    · rw [← hw, ← h.alignment]
      exact h'.laidOut
    · rw [h'.sandbox, h.sandbox]

/-! ## Where the code is -/

/-- The second sort finds the order of the slots again, up to functions that write nothing. -/
theorem generateModule_iff (std) {order} (hs : ∀ c ∈ m.chunks, Slotted a slots c)
    (hm : order.Perm m.functions) (hl : Tiles (place slots) (need a) w (order ++ m.plts)) :
    generateModule std cx slots m buffer = .ok b ↔
      (∀ c ∈ m.chunks, Encodable cx c) ∧ b = buffer ++ (order ++ m.plts).flatMap (piece cx a) := by
  have hp : (pickFunctionOrder std slots m).Perm m.functions := std.perm _ _
  have hsr : (pickFunctionOrder std slots m).Pairwise fun c d => place slots c ≤ place slots d := std.sorted _ _
  have ht := (tiles_append.1 hl).1.flatMap_eq_of_sorted (length_piece cx a) (hp.trans hm.symm) hsr
  have hf : ∀ c ∈ pickFunctionOrder std slots m, Copies cx a (copyFunction cx slots) c := fun c hc =>
    copyFunction_copies (hs c (mem_append_left _ (hp.mem_iff.1 hc)))
  have hpt : ∀ c ∈ m.plts, Copies cx a (copyTrampoline cx slots) c := fun c hc =>
    copyTrampoline_copies (hs c (mem_append_right _ hc))
  have hr : generateModule std cx slots m buffer =
      (copyChunks (copyFunction cx slots) (pickFunctionOrder std slots m) buffer >>=
        copyChunks (copyTrampoline cx slots) m.plts) := by
    unfold generateModule Module.plts
    cases m.pltList <;> rfl
  rw [hr, bind_iff]
  simp only [copyChunks_iff hf, copyChunks_iff hpt, ht]
  constructor
  · rintro ⟨_, ⟨he, rfl⟩, he', rfl⟩
    refine ⟨fun c hc => ?_, by rw [flatMap_append, append_assoc]⟩
    rcases mem_append.1 hc with hc | hc
    · exact he c (hp.mem_iff.2 hc)
    · exact he' c hc
  · rintro ⟨he, rfl⟩
    refine ⟨_, ⟨fun c hc => he c (mem_append_left _ (hp.mem_iff.1 hc)), rfl⟩,
      fun c hc => he c (mem_append_right _ hc), ?_⟩
    rw [flatMap_append, append_assoc]

theorem generateModules_iff (std cx) : ∀ {l w}, LaidOut slots a w l →
    (∀ c ∈ l.flatMap Module.chunks, Slotted a slots c) →
    ∃ L, L.Perm (l.flatMap Module.chunks) ∧ Tiles (place slots) (need a) w L ∧ ∀ {buffer b},
      generateModules std cx slots l buffer = .ok b ↔
        (∀ c ∈ l.flatMap Module.chunks, Encodable cx c) ∧ b = buffer ++ L.flatMap (piece cx a)
  | [], w, _, _ => by
    refine ⟨[], List.Perm.refl _, trivial, fun {buffer b} => ?_⟩
    rw [generateModules, ok.injEq, flatMap_nil, flatMap_nil, append_nil]
    simp [eq_comm]
  | m :: l, w, ⟨order, hp, ht, hl⟩, hs => by
    have hn : (order ++ m.plts).Perm m.chunks := hp.append_right _
    rw [flatMap_cons] at hs
    obtain ⟨L, hL, hts, hr⟩ := generateModules_iff std cx hl fun c hc => hs c (mem_append_right _ hc)
    refine ⟨(order ++ m.plts) ++ L, hn.append hL, tiles_append.2 ⟨ht, ?_⟩, fun {buffer b} => ?_⟩
    · rw [totalLength_perm hn]
      exact hts
    · have hps : buffer ++ ((order ++ m.plts) ++ L).flatMap (piece cx a) =
          buffer ++ (order ++ m.plts).flatMap (piece cx a) ++ L.flatMap (piece cx a) := by
        rw [append_assoc buffer, ← flatMap_append]
      rw [generateModules, bind_iff, flatMap_cons, forall_mem_append, hps]
      simp only [generateModule_iff std (fun c hc => hs c (mem_append_left _ hc)) hp ht, hr]
      constructor
      · rintro ⟨_, ⟨he, rfl⟩, he', rfl⟩
        exact ⟨⟨he, he'⟩, rfl⟩
      · rintro ⟨⟨he, he'⟩, rfl⟩
        exact ⟨_, ⟨he, rfl⟩, he', rfl⟩

/-! ## Code lands at its address -/

def Slot.Disjoint (s t : Slot) : Prop :=
  s.address.toNat + s.size.toNat ≤ t.address.toNat ∨ t.address.toNat + t.size.toNat ≤ s.address.toNat

/-- The chunk has a slot that is large enough, and the buffer has its encoding there, with padding to the end of the
    slot. -/
def Lands (cx : Context) (base : Address) (slots : Slots) (buffer : List Byte) (c : Chunk) : Prop :=
  ∃ slot bytes, slots c.id = some slot ∧ c.size ≤ slot.size.toNat ∧ c.encoding cx = .ok bytes ∧ bytes.length = c.size ∧
    (buffer.drop (slots.getAddress c - base).toNat).take c.size = bytes ∧
    (buffer.drop ((slots.getAddress c - base).toNat + c.size)).take (slot.size.toNat - c.size) =
      replicate (slot.size.toNat - c.size) 0x90

theorem lands_of_tiles {base} (htl : Tiles (place slots) (need a) base.toNat L) (hc : c ∈ L)
    (hst : Slotted a slots c) (he : Encodable cx c) : Lands cx base slots (L.flatMap (piece cx a)) c := by
  obtain ⟨slot, hso, hs⟩ := hst
  obtain ⟨bytes, hb⟩ := he
  have hl := Chunk.length_encoding hb
  have hge := htl.le_place c hc
  have ho : (slots.getAddress c - base).toNat = place slots c - base.toNat := by
    unfold place at *
    rw [BitVec.toNat_sub]
    omega
  have hp := htl.piece_at (length_piece cx a) c hc
  rw [piece_eq hb] at hp
  refine ⟨slot, bytes, hso, hs ▸ a.le_roundUp c.size, hb, hl, ?_, ?_⟩
  · have ht := congrArg (take c.size) hp
    rw [take_take, Nat.min_eq_left (a.le_roundUp c.size), ← hl, take_left, hl] at ht
    rw [ho, ht]
  · have hd := congrArg (drop c.size) hp
    rw [drop_take, drop_drop, ← hl, drop_left, hl] at hd
    rw [ho, hs]
    exact hd

theorem disjoint_of_tiles {L'} (hl : Tiles (place slots) (need a) w L) (hp : L.Perm L')
    (hst : ∀ c ∈ L', Slotted a slots c) :
    L'.Pairwise fun c d => ∃ s t, slots c.id = some s ∧ slots d.id = some t ∧ s.Disjoint t := by
  have ha := (hp.pairwise_iff fun h => h.symm).1 (hl.pairwise.imp Or.inl)
  refine ha.imp_of_mem fun {c d} hc hd h => ?_
  obtain ⟨s, hs, hz⟩ := hst c hc
  obtain ⟨t, ht, hs'⟩ := hst d hd
  refine ⟨s, t, hs, ht, ?_⟩
  unfold place Slots.getAddress at h
  rw [hs, ht, need, need, ← hz, ← hs'] at h
  exact h

/-- The rounded sizes of all chunks fit into the backing. -/
def Program.Fits (p : Program) (backing : Backing) (a : Alignment) : Prop :=
  totalLength (need a) p.chunks ≤ backing.size.toNat

/-- For every program that fits: addresses are assigned, to disjoint slots, whatever positions were
assigned before; code is generated exactly if every instruction can be written; and then each
function and each trampoline lies at its address, with padding up to the end of its slot. -/
theorem generated_code_lands (std : StdSort) (cx : Slots → Context) (p : Program) (backing : Backing) (a : Alignment)
    (slots : Slots) (hfits : p.Fits backing a) :
    ∃ st, assignAddresses std p ⟨Sandbox.make backing a, slots⟩ = some st ∧
      (p.chunks.Pairwise fun c d => ∃ s t, st.slots c.id = some s ∧ st.slots d.id = some t ∧ s.Disjoint t) ∧
      ((∃ buffer, generateCode std cx p st = .ok buffer) ↔ ∀ c ∈ p.chunks, Encodable (cx st.slots) c) ∧
      ∀ buffer, generateCode std cx p st = .ok buffer →
        ∀ c ∈ p.chunks, Lands (cx st.slots) backing.base st.slots buffer c := by
  let start : State := ⟨Sandbox.make backing a, slots⟩
  have hrm : start.sandbox.watermark.toNat + totalLength (need start.sandbox.alignment)
      (p.modules.flatMap Module.chunks) ≤ limit start := Nat.add_le_add_left hfits backing.base.toNat
  obtain ⟨st, hrun, h⟩ := assignModules_spec std p.distinct hrm
  obtain ⟨L, hpm, htl, hgn⟩ := generateModules_iff std (cx st.slots) h.laidOut h.slotted
  have hbf : st.sandbox.buffer = [] := by rw [h.sandbox]; rfl
  refine ⟨st, hrun, disjoint_of_tiles htl hpm h.slotted, ?_, fun buffer hok c hc => ?_⟩
  · unfold generateCode
    constructor
    · rintro ⟨buffer, hok⟩
      exact (hgn.1 hok).1
    · intro hec
      exact ⟨_, hgn.2 ⟨hec, rfl⟩⟩
  · unfold generateCode at hok
    obtain ⟨hec, rfl⟩ := hgn.1 hok
    rw [hbf, nil_append]
    exact lands_of_tiles htl (hpm.mem_iff.2 hc) (h.slotted c hc) (hec c hc)

/-- A sort that keeps the order of functions at one address. -/
def insertionSort : StdSort where
  sort key l := l.insertionSort fun c d => key c ≤ key d
  perm _ l := perm_insertionSort _ l
  sorted key l := by
    have : Std.Total fun c d : Chunk => key c ≤ key d := ⟨fun c d => Nat.le_total (key c).toNat (key d).toNat⟩
    have : IsTrans Chunk fun c d => key c ≤ key d := ⟨fun _ _ _ => Nat.le_trans⟩
    exact pairwise_insertionSort _ l

/-- Two functions, the one with the higher address first, and a trampoline. -/
def twoFunctions : Program where
  modules := [⟨[⟨0, 0x2000, [[⟨⟨.instruction, 0⟩, .ret [0xc3], trivial⟩]], 1, rfl⟩,
    ⟨1, 0x1000, [[⟨⟨.instruction, 1⟩, .isolated [0x55], trivial⟩, ⟨⟨.instruction, 2⟩, .ret [0xc3], trivial⟩]], 2, rfl⟩],
    some [⟨2, 0x3000, [[⟨⟨.instruction, 3⟩, .isolated [0x66, 0x90], trivial⟩]], 2, rfl⟩]⟩]
  distinct := by decide

theorem generated_code_lands_twoFunctions :
    ∃ st buffer, assignAddresses insertionSort twoFunctions
        ⟨Sandbox.make ⟨0x40000000, 0x1000, by decide⟩ .default, fun _ => none⟩ = some st ∧
      generateCode insertionSort (fun _ => Archive.Semantic.sampleContext) twoFunctions st = .ok buffer ∧
      ∀ c ∈ twoFunctions.chunks, Lands Archive.Semantic.sampleContext 0x40000000 st.slots buffer c := by
  have hfs : twoFunctions.Fits ⟨0x40000000, 0x1000, by decide⟩ .default := by
    unfold Program.Fits
    decide
  obtain ⟨st, hrun, -, hok, hln⟩ := generated_code_lands insertionSort (fun _ => Archive.Semantic.sampleContext)
    twoFunctions ⟨0x40000000, 0x1000, by decide⟩ .default (fun _ => none) hfs
  have hec : ∀ c ∈ twoFunctions.chunks, Encodable Archive.Semantic.sampleContext c := by
    intro c hc
    rcases hc with _ | ⟨_, _ | ⟨_, _ | ⟨_, hc⟩⟩⟩
    · exact ⟨_, rfl⟩
    · exact ⟨_, rfl⟩
    · exact ⟨_, rfl⟩
    · cases hc
  obtain ⟨buffer, hbf⟩ := hok.2 hec
  exact ⟨st, buffer, hrun, hbf, hln buffer hbf⟩

end Transform

end Egalito
