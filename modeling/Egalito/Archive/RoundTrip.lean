/-
What the reader makes of a written archive: IDs and bytes come back, but the encoding table lacks three types.

The reader is run on what the writer has written, record by record; `roundtrips_iff` has the archives that come back,
and `offset_eq_position_iff` the one record whose offset field is right.
-/
import Egalito.Archive.Container
import Mathlib.Data.List.TakeDrop

namespace Egalito.Archive

open Lib List

variable {chunks done l : List FlatChunk} {flat : FlatChunk} {code : Byte} {t : BitVec 32} {type : EgalitoChunkType}

/-! ## What is written -/

/-- The chunks with the offsets `assignOffsets` gives them. -/
def place : BitVec 32 → List FlatChunk → List FlatChunk
  | _, [] => []
  | totalSize, flat :: l => { flat with offset := totalSize } :: place (totalSize + (2 + 4 * 3) + flat.getSize) l

theorem assignOffsetsFrom_eq : ∀ t l, assignOffsetsFrom t (l.map some) = .ok (place t l)
  | _, [] => rfl
  | t, flat :: l => by
    rw [map_cons, assignOffsetsFrom, assignOffsetsFrom_eq]
    rfl

theorem length_place : ∀ t l, (place t l).length = l.length
  | _, [] => rfl
  | t, flat :: l => by rw [place, length_cons, length_place, length_cons]

def Encodable (type : EgalitoChunkType) : Prop := type.ctorIdx < encodeTable.length

instance : Decidable (Encodable type) := inferInstanceAs (Decidable (_ < _))

def codeOf (type : EgalitoChunkType) : Byte := encodeTable.getD type.ctorIdx 0

theorem encodeChunkType_eq (ht : Encodable type) : encodeChunkType type = .ok (codeOf type) := by
  rw [encodeChunkType, codeOf, getD_eq_getElem?_getD, getElem?_eq_getElem ht]
  rfl

theorem encodeChunkType_error (ht : ¬ Encodable type) : encodeChunkType type = .error .outOfBounds := by
  rw [encodeChunkType, getElem?_eq_none (Nat.le_of_not_lt ht)]

def recordOf (flat : FlatChunk) : List Byte := record (codeOf flat.type) flat

theorem mapM_writeRecord : ∀ {l : List FlatChunk}, (∀ flat ∈ l, Encodable flat.type) →
    l.mapM writeRecord = .ok (l.map recordOf)
  | [], _ => rfl
  | flat :: l, hl => by
    have hh : writeRecord flat = .ok (recordOf flat) := by
      rw [writeRecord, encodeChunkType_eq (hl flat (by simp))]
      rfl
    rw [mapM_cons, ok_bind hh, mapM_writeRecord fun x hx => hl x (by simp [hx])]
    rfl

theorem mapM_writeRecord_error : ∀ {l : List FlatChunk}, (∃ flat ∈ l, ¬ Encodable flat.type) →
    l.mapM writeRecord = .error .outOfBounds
  | [], hl => by simp at hl
  | flat :: l, hl => by
    rw [mapM_cons]
    by_cases hf : Encodable flat.type
    · have hh : writeRecord flat = .ok (recordOf flat) := by
        rw [writeRecord, encodeChunkType_eq hf]
        rfl
      have hr : ∃ x ∈ l, ¬ Encodable x.type := by
        obtain ⟨x, hx, hb⟩ := hl
        rcases mem_cons.1 hx with rfl | hx
        · exact absurd hf hb
        · exact ⟨x, hx, hb⟩
      rw [ok_bind hh, mapM_writeRecord_error hr]
      rfl
    · have hh : writeRecord flat = .error .outOfBounds := by
        rw [writeRecord, encodeChunkType_error hf]
        rfl
      exact error_bind hh _

theorem type_of_mem_place : ∀ {t l}, flat ∈ place t l → ∃ x ∈ l, x.type = flat.type
  | _, [], hx => by cases hx
  | t, y :: l, hx => by
    rcases mem_cons.1 hx with rfl | hx
    · exact ⟨y, by simp, rfl⟩
    · obtain ⟨x, hl, ht⟩ := type_of_mem_place hx
      exact ⟨x, by simp [hl], ht⟩

theorem mem_place_of_mem : ∀ {t l x}, x ∈ l → ∃ y ∈ place t l, y.type = x.type
  | _, [], _, hx => by cases hx
  | t, z :: l, x, hx => by
    rcases mem_cons.1 hx with rfl | hx
    · exact ⟨_, mem_cons_self, rfl⟩
    · obtain ⟨y, hy, ht⟩ := mem_place_of_mem (t := t + (2 + 4 * 3) + z.getSize) hx
      exact ⟨y, mem_cons_of_mem _ hy, ht⟩

def placed (chunks : List FlatChunk) : List FlatChunk := place (BitVec.ofNat 32 (signature.length + 4 + 4)) chunks

def fileOf (chunks : List FlatChunk) : List Byte :=
  header chunks.length ++ ((placed chunks).map recordOf).flatten

theorem write_eq {version} (ht : ∀ flat ∈ chunks, Encodable flat.type) :
    write ⟨chunks.map some, version⟩ = .ok (fileOf chunks) := by
  have hp : ∀ flat ∈ placed chunks, Encodable flat.type := by
    intro flat hf
    obtain ⟨x, hx, he⟩ := type_of_mem_place hf
    rw [← he]
    exact ht x hx
  unfold write writeData assignOffsets
  rw [assignOffsetsFrom_eq, length_map]
  show ((placed chunks).mapM writeRecord >>= _) = _
  rw [ok_bind (mapM_writeRecord hp)]
  rfl

theorem write_error {version} (ht : ∃ flat ∈ chunks, ¬ Encodable flat.type) :
    write ⟨chunks.map some, version⟩ = .error .outOfBounds := by
  obtain ⟨x, hx, hb⟩ := ht
  obtain ⟨y, hy, he⟩ := mem_place_of_mem (t := BitVec.ofNat 32 (signature.length + 4 + 4)) hx
  unfold write writeData assignOffsets
  rw [assignOffsetsFrom_eq, length_map]
  exact error_bind (mapM_writeRecord_error ⟨y, hy, by rwa [he]⟩) _

/-! ## What is read back -/

/-- What the reader stores for a record. -/
def stored (flat : FlatChunk) : FlatChunk :=
  { flat with type := decodeChunkType (codeOf flat.type), data := flat.data.take flat.getSize.toNat }

theorem getSize_le (flat : FlatChunk) : flat.getSize.toNat ≤ flat.data.length := by
  rw [FlatChunk.getSize, BitVec.toNat_ofNat]
  exact Nat.mod_le ..

theorem parses_readRecord (flat : FlatChunk) : Parses readRecord (recordOf flat) (stored flat) := by
  have hc : [codeOf flat.type] = littleEndian 1 (codeOf flat.type).toNat := by simp [littleEndian]
  have hl : (flat.data.take flat.getSize.toNat).length = flat.getSize.toNat := by
    rw [length_take, Nat.min_eq_left (getSize_le flat)]
  have hd := parses_readFixed (ε := Fault) (flat.data.take flat.getSize.toNat)
  rw [hl] at hd
  have hr : stored flat = ⟨decodeChunkType (BitVec.ofNat 8 (codeOf flat.type).toNat), BitVec.ofNat 32 flat.id.toNat,
      BitVec.ofNat 32 flat.offset.toNat, flat.data.take flat.getSize.toNat⟩ := by simp [stored]
  rw [recordOf, record, hc, hr]
  apply (parses_readNat (codeOf flat.type).isLt).bind
  apply (parses_readNat flat.id.isLt).bind
  apply (parses_readNat flat.offset.isLt).bind
  apply (parses_readNat flat.getSize.isLt).bind
  exact hd.map

theorem parses_failed : Parses failed [] false := fun _ => rfl

theorem addFlatChunk_next (hi : flat.id.toNat = done.length) (hlt : done.length + 1 < 2 ^ 32) :
    addFlatChunk (done.map some) flat = .ok ((done ++ [flat]).map some) := by
  have hs : (flat.id + 1).toNat = done.length + 1 := by
    rw [BitVec.toNat_add, hi]
    exact Nat.mod_eq_of_lt hlt
  have hg : grow (done.map some) (done.length + 1) = done.map some ++ [none] := by simp [grow]
  simp only [addFlatChunk, hs, hi, length_map, Nat.lt_succ_self, if_true, hg, length_append,
    length_singleton]
  congr 1
  simp

theorem parses_readRecords : ∀ (l done : List FlatChunk), (∀ i (hi : i < l.length), l[i].id.toNat = done.length + i) →
    done.length + l.length < 2 ^ 32 →
    Parses (readRecords l.length (done.map some)) (l.map recordOf).flatten (some ((done ++ l.map stored).map some))
  | [], done, _, _ => by
    rw [map_nil (f := stored), append_nil]
    exact Parses.pure _
  | flat :: l, done, hd, hlt => by
    have hid : (stored flat).id.toNat = done.length := hd 0 (by simp)
    rw [length_cons] at hlt
    have ha := addFlatChunk_next hid (by omega)
    have hr := parses_readRecords l (done ++ [stored flat]) (fun i hi => by
      have := hd (i + 1) (by simpa using hi)
      rw [getElem_cons_succ] at this
      rw [this, length_append, length_singleton]
      omega) (by rw [length_append, length_singleton]; omega)
    rw [map_cons, flatten_cons, map_cons, append_cons]
    apply (parses_readRecord flat).bind
    exact parses_failed.bind ((Parses.of_ok ha).bind hr)

theorem parses_readHeader (unset) (count) :
    Parses (readHeader unset) (header count) (some (count % 2 ^ 32, currentVersion)) := by
  have hc := (parses_readSome (ε := Fault) (littleEndian 4 count)).map
    (f := fun b : List Byte => some (fromLittleEndian (b ++ (littleEndian 4 unset.toNat).drop b.length), currentVersion))
  have ho : (littleEndian 4 unset.toNat).drop (littleEndian 4 count).length = [] := by
    simp [length_littleEndian]
  rw [ho, append_nil, from_littleEndian, length_littleEndian] at hc
  rw [header, append_assoc]
  apply (parses_readFixed signature).bind
  apply Parses.stillGood
  apply (parses_readNat (n := 4) (d := currentVersion) (by decide)).bind
  exact parses_failed.bind hc

theorem placed_id : ∀ t l i (hi : i < (place t l).length) (hi' : i < l.length), (place t l)[i].id = l[i].id
  | _, _ :: _, 0, _, _ => rfl
  | t, flat :: l, i + 1, hi, hi' => placed_id _ l i (by simpa [place] using hi) (by simpa using hi')

/-- An archive without holes whose IDs are the positions. -/
def Dense (chunks : List FlatChunk) : Prop := ∀ i (hi : i < chunks.length), chunks[i].id.toNat = i

theorem Dense.length_le (h : Dense chunks) : chunks.length ≤ 2 ^ 32 := by
  by_contra hlt
  have hi := h (2 ^ 32) (by omega)
  have hb := chunks[2 ^ 32].id.isLt
  omega

theorem Dense.placed (hd : Dense chunks) : ∀ i (hi : i < (placed chunks).length),
    (Archive.placed chunks)[i].id.toNat = ([] : List FlatChunk).length + i := by
  intro i hi
  have hi' : i < chunks.length := by rwa [Archive.placed, length_place] at hi
  rw [length_nil, zero_add]
  exact (congrArg BitVec.toNat (placed_id _ chunks i hi hi')).trans (hd i hi')

theorem read_fileOf (hd : Dense chunks) (hlt : chunks.length < 2 ^ 32) (unset) :
    read unset (fileOf chunks) = .ok (some ⟨((placed chunks).map stored).map some, BitVec.ofNat 32 currentVersion⟩) := by
  have hl : (placed chunks).length = chunks.length := length_place ..
  have hr := parses_readRecords (placed chunks) [] hd.placed (by rw [hl]; simpa using hlt)
  rw [hl] at hr
  have hh := parses_readHeader unset chunks.length
  rw [Nat.mod_eq_of_lt hlt] at hh
  have ha : Parses (readArchive unset) (fileOf chunks)
      (some ⟨((placed chunks).map stored).map some, BitVec.ofNat 32 currentVersion⟩) := by
    apply hh.bind
    rw [← append_nil ((placed chunks).map recordOf).flatten]
    exact hr.bind (Parses.pure _)
  have := ha []
  rw [append_nil] at this
  exact ok_bind this _

/-- A count of 2^32 is written as 0, and the records are never read. -/
theorem read_fileOf_full (hf : chunks.length = 2 ^ 32) (unset) :
    read unset (fileOf chunks) = .ok (some ⟨[], BitVec.ofNat 32 currentVersion⟩) := by
  have hh := parses_readHeader unset chunks.length
  rw [hf, Nat.mod_self] at hh
  have ha : Parses (readArchive unset) (header (2 ^ 32) ++ []) (some ⟨[], BitVec.ofNat 32 currentVersion⟩) :=
    hh.bind (Parses.pure _)
  rw [fileOf, hf, ← append_nil (header _)]
  exact ok_bind (ha _) _

/-! ## The round trip -/

/-- What a flat chunk is for: its offset only serves the file. -/
def FlatChunk.content (flat : FlatChunk) : EgalitoChunkType × BitVec 32 × List Byte := (flat.type, flat.id, flat.data)

/-- Writing the chunks and reading the file gives back as many chunks with the same contents. -/
def Roundtrips (chunks : List FlatChunk) : Prop :=
  ∀ version unset, ∃ file archive, write ⟨chunks.map some, version⟩ = .ok file ∧ read unset file = .ok (some archive) ∧
    archive.flatList.map (Option.map FlatChunk.content) = chunks.map (some ∘ FlatChunk.content)

/-- The types with smaller numbers than the first that the encoding table lacks. -/
def keptTypes : List EgalitoChunkType :=
  [.unknown, .program, .module, .functionList, .pltList, .jumpTableList, .dataRegionList]

theorem decode_codeOf (type : EgalitoChunkType) (ht : Encodable type) :
    decodeChunkType (codeOf type) = type ↔ type ∈ keptTypes := by
  revert ht
  cases type <;> decide

theorem encodable_of_kept (ht : type ∈ keptTypes) : Encodable type := by
  revert ht
  cases type <;> decide

theorem stored_content (ht : Encodable flat.type) :
    (stored flat).content = flat.content ↔ flat.type ∈ keptTypes ∧ flat.data.length < 2 ^ 32 := by
  have hs : flat.data.take flat.getSize.toNat = flat.data ↔ flat.data.length < 2 ^ 32 := by
    rw [take_eq_self_iff, FlatChunk.getSize, BitVec.toNat_ofNat]
    constructor
    · intro h
      exact lt_of_le_of_lt h (Nat.mod_lt _ (by decide))
    · intro h
      rw [Nat.mod_eq_of_lt h]
  simp only [stored, FlatChunk.content, Prod.mk.injEq, true_and, decode_codeOf flat.type ht, hs]

theorem map_stored_place : ∀ t l,
    ((place t l).map stored).map FlatChunk.content = l.map fun flat => (stored flat).content
  | _, [] => rfl
  | t, flat :: l => by
    rw [place, map_cons, map_cons, map_stored_place, map_cons]
    rfl

/-- An archive is written and comes back as it was exactly if it has fewer than `2 ^ 32` flat chunks, each with a
    type in front of those that the encoding table lacks and fewer than `2 ^ 32` bytes. -/
theorem roundtrips_iff (hd : Dense chunks) : Roundtrips chunks ↔
    chunks.length < 2 ^ 32 ∧ ∀ flat ∈ chunks, flat.type ∈ keptTypes ∧ flat.data.length < 2 ^ 32 := by
  by_cases ht : ∀ flat ∈ chunks, Encodable flat.type
  case neg =>
    push Not at ht
    obtain ⟨x, hx, hbad⟩ := ht
    constructor
    · intro h
      obtain ⟨file, archive, hw, -⟩ := h 0 0
      rw [write_error ⟨x, hx, hbad⟩] at hw
      cases hw
    · intro h
      exact absurd (encodable_of_kept (h.2 x hx).1) hbad
  by_cases hlt : chunks.length < 2 ^ 32
  case neg =>
    have hfl := le_antisymm hd.length_le (Nat.le_of_not_lt hlt)
    refine ⟨fun h => ?_, fun h => absurd h.1 hlt⟩
    obtain ⟨file, archive, hw, hr, hsm⟩ := h 0 0
    rw [write_eq ht] at hw
    cases hw
    rw [read_fileOf_full hfl] at hr
    cases hr
    have := congrArg length hsm
    rw [length_map, length_map, hfl] at this
    exact absurd this (by decide)
  have hsm : (((placed chunks).map stored).map some).map (Option.map FlatChunk.content) =
      chunks.map (some ∘ FlatChunk.content) ↔ ∀ flat ∈ chunks, flat.type ∈ keptTypes ∧ flat.data.length < 2 ^ 32 := by
    have hlf : (((placed chunks).map stored).map some).map (Option.map FlatChunk.content) =
        (chunks.map fun flat => (stored flat).content).map some := by
      rw [← map_stored_place, placed, map_map, map_map, map_map, map_map]
      rfl
    rw [hlf, map_map, map_inj_left]
    refine forall₂_congr fun flat hf => ?_
    rw [← stored_content (ht flat hf)]
    exact Option.some_inj
  constructor
  · intro h
    obtain ⟨file, archive, hw, hr, hsm'⟩ := h 0 0
    rw [write_eq ht] at hw
    cases hw
    rw [read_fileOf hd hlt] at hr
    cases hr
    exact ⟨hlt, hsm.1 hsm'⟩
  · intro h version unset
    exact ⟨_, _, write_eq ht, read_fileOf hd hlt unset, hsm.2 h.2⟩

theorem roundtrips_iff_module : Roundtrips [⟨.module, 0, 0, [0, 1, 0]⟩] := by
  refine (roundtrips_iff ?_).2 ⟨by decide, by decide⟩
  intro i hi
  obtain rfl : i = 0 := by simpa using hi
  rfl

/-- A function is written with the code of a block. -/
theorem not_roundtrips_function : Dense [⟨.function, 0, 0, []⟩] ∧
    write ⟨[some ⟨.function, 0, 0, []⟩], 0⟩ = .ok (fileOf [⟨.function, 0, 0, []⟩]) ∧
    read 0 (fileOf [⟨.function, 0, 0, []⟩]) = .ok (some ⟨[some ⟨.block, 0, 16, []⟩], 24⟩) ∧
    ¬ Roundtrips [⟨.function, 0, 0, []⟩] := by
  have hwt : write ⟨[some ⟨.function, 0, 0, []⟩], 0⟩ = .ok (fileOf [⟨.function, 0, 0, []⟩]) := by decide
  have hrd : read 0 (fileOf [⟨.function, 0, 0, []⟩]) = .ok (some ⟨[some ⟨.block, 0, 16, []⟩], 24⟩) := by decide
  refine ⟨?_, hwt, hrd, ?_⟩
  · intro i hi
    obtain rfl : i = 0 := by simpa using hi
    rfl
  · intro h
    obtain ⟨file, archive, hw, hr, hsm⟩ := h 0 0
    obtain rfl := Except.ok.inj (hw.symm.trans hwt)
    obtain rfl := Option.some.inj (Except.ok.inj (hr.symm.trans hrd))
    exact absurd hsm (by decide)

/-! ## Offsets -/

theorem length_recordOf (flat : FlatChunk) : (recordOf flat).length = 13 + flat.getSize.toNat := by
  rw [recordOf, record]
  simp only [length_append, length_singleton, length_littleEndian, length_take,
    Nat.min_eq_left (getSize_le flat)]
  omega

/-- The records in front of the one with the number `k`. -/
def recordsBefore (l : List FlatChunk) (k : Nat) : List Byte := ((l.take k).map recordOf).flatten

theorem length_recordsBefore_ge : ∀ l k, k ≤ l.length → 13 * k ≤ (recordsBefore l k).length
  | _, 0, _ => by simp
  | flat :: l, k + 1, hk => by
    have ih := length_recordsBefore_ge l k (by simpa using hk)
    rw [recordsBefore, take_succ_cons, map_cons, flatten_cons, length_append, length_recordOf,
      ← recordsBefore]
    omega

/-- One byte too many is counted for each record. -/
theorem place_offset : ∀ t l k hk,
    (place t l)[k].offset.toNat = (t.toNat + (recordsBefore (place t l) k).length + k) % 2 ^ 32
  | t, _ :: _, 0, _ => by simp [place, recordsBefore, Nat.mod_eq_of_lt t.isLt]
  | t, flat :: l, k + 1, hk => by
    have ih := place_offset (t + (2 + 4 * 3) + flat.getSize) l k (by simpa [place] using hk)
    have hl := length_recordOf { flat with offset := t }
    have hs : ({ flat with offset := t } : FlatChunk).getSize = flat.getSize := rfl
    have ht : (t + (2 + 4 * 3) + flat.getSize).toNat = (t.toNat + 14 + flat.getSize.toNat) % 2 ^ 32 := by
      rw [BitVec.toNat_add, BitVec.toNat_add]
      exact Nat.mod_add_mod ..
    simp only [place, getElem_cons_succ, ih, ht, recordsBefore, take_succ_cons, map_cons,
      flatten_cons, length_append, hl, hs]
    omega

theorem assignOffsetsFrom_ok : ∀ {t x l}, assignOffsetsFrom t x = .ok l → ∃ chunks : List FlatChunk, x = chunks.map some
  | _, [], _, _ => ⟨[], rfl⟩
  | _, some flat :: x, l, h => by
    obtain ⟨l', hl', -⟩ := bind_iff.1 h
    obtain ⟨chunks, rfl⟩ := assignOffsetsFrom_ok hl'
    exact ⟨flat :: chunks, rfl⟩

theorem write_ok {a file} (h : write a = .ok file) : ∃ chunks, a.flatList = chunks.map some ∧ file = fileOf chunks := by
  obtain ⟨l, hl, -⟩ := bind_iff.1 h
  obtain ⟨chunks, hc⟩ := assignOffsetsFrom_ok hl
  refine ⟨chunks, hc, ?_⟩
  obtain ⟨list, version⟩ := a
  cases hc
  by_cases ht : ∀ flat ∈ chunks, Encodable flat.type
  · rw [write_eq ht] at h
    exact (Except.ok.inj h).symm
  · push Not at ht
    rw [write_error ht] at h
    cases h

/-- The recorded offset of a record is its position in the file for the first record only. -/
theorem offset_eq_position_iff {a : EgalitoArchive} {file : List Byte} (h : write a = .ok file) :
    ∃ l, assignOffsets a.flatList = .ok l ∧ ∀ k (hk : k < l.length),
      file = (header l.length ++ recordsBefore l k) ++ (recordOf l[k] ++ ((l.drop (k + 1)).map recordOf).flatten) ∧
      (l[k].offset.toNat = (header l.length ++ recordsBefore l k).length ↔ k = 0) := by
  obtain ⟨chunks, hcn, rfl⟩ := write_ok h
  refine ⟨placed chunks, by rw [hcn]; exact assignOffsetsFrom_eq .., ?_⟩
  intro k hk
  have hlen : (placed chunks).length = chunks.length := length_place ..
  have hhr : (header (placed chunks).length).length = 16 := by
    simp [header, signature, length_littleEndian]
  constructor
  · rw [fileOf, hlen, append_assoc]
    congr 1
    conv_lhs => rw [← take_append_drop k (placed chunks), drop_eq_getElem_cons hk]
    rw [map_append, flatten_append, map_cons, flatten_cons, recordsBefore]
  · have hos : (placed chunks)[k].offset.toNat = (16 + (recordsBefore (placed chunks) k).length + k) % 2 ^ 32 :=
      place_offset ..
    have hmy := length_recordsBefore_ge (placed chunks) k hk.le
    rw [length_append, hhr]
    -- the recorded offset is the position plus `k`, modulo 2^32, and the position is at least `13 * k`
    constructor
    · intro heq
      rw [hos] at heq
      omega
    · rintro rfl
      rw [hos]
      rfl

theorem offset_eq_position_iff_two : ∃ l, assignOffsets [some ⟨.program, 0, 0, []⟩, some ⟨.module, 1, 0, [7]⟩] = .ok l ∧
    ∀ k (hk : k < l.length), fileOf [⟨.program, 0, 0, []⟩, ⟨.module, 1, 0, [7]⟩] =
      (header l.length ++ recordsBefore l k) ++ (recordOf l[k] ++ ((l.drop (k + 1)).map recordOf).flatten) ∧
      (l[k].offset.toNat = (header l.length ++ recordsBefore l k).length ↔ k = 0) :=
  offset_eq_position_iff (a := ⟨[some ⟨.program, 0, 0, []⟩, some ⟨.module, 1, 0, [7]⟩], 24⟩) (by decide)

/-- The second record of this file starts at byte 29 and says 30. -/
theorem second_record_offset : write ⟨[some ⟨.program, 0, 0, []⟩, some ⟨.module, 1, 0, [7]⟩], 24⟩ =
    .ok (header 2 ++ recordOf ⟨.program, 0, 16, []⟩ ++ recordOf ⟨.module, 1, 30, [7]⟩) ∧
    (header 2 ++ recordOf ⟨.program, 0, 16, []⟩).length = 29 := by
  constructor <;> decide

end Egalito.Archive
