/-
How a tree of chunks becomes records (`ChunkSerializerOperations`, `ArchiveIDOperations`).

A script lists the references and records that serializing a chunk makes. `Tracks` relates the archiver to the IDs
handed out and the chunks that have a record, each operation keeps it, and so does a whole script.
-/
import Egalito.Archive.SemanticCodec
import Mathlib.Data.List.Infix

namespace Egalito.Archive

open Lib List

/-! ## Scripts -/

/-- What the `serialize` function of a chunk does, in order. -/
inductive Script
  | done
  /-- Bytes that may depend on the IDs of the given chunks, which are assigned in this order. -/
  | write (refs : List Object) (bytes : Operations → Except Fault (List Byte)) (next : Script)
  /-- An empty record for the chunk and then its ID, as `serializeChildrenIDsOnly` makes them. -/
  | blank (c : Object) (next : Script)
  /-- `op.serialize(chunk)`, which takes a new ID that is not assigned to the chunk; then the ID. -/
  | own (type : EgalitoChunkType) (script : Script) (next : Script)
  /-- `op.serialize(c, op.assign(c))`. -/
  | record (c : Object) (script : Script) (next : Script)

/-- The archive being built and the `assignment` of `ArchiveIDOperations`. `written` are the IDs in records, which the
    source does not keep. -/
structure Archiver where
  assignment : List (Object × BitVec 32)
  nextID : BitVec 32
  flatList : FlatList
  written : List (BitVec 32)

namespace Archiver

def empty : Archiver := ⟨[], 0, [], []⟩

def getNextID (s : Archiver) : BitVec 32 × Archiver := (s.nextID, { s with nextID := s.nextID + 1 })

def assign (c : Object) (s : Archiver) : BitVec 32 × Archiver :=
  match s.assignment.lookup c with
  | some id => (id, s)
  | none => (s.nextID, { s with assignment := (c, s.nextID) :: s.assignment, nextID := s.nextID + 1 })

def note (id : BitVec 32) (s : Archiver) : Archiver := { s with written := id :: s.written }

def assignAll : List Object → Archiver → Archiver
  | [], s => s
  | c :: refs, s => assignAll refs ((s.assign c).2.note (s.assign c).1)

/-- The operations as the writer of a link or a semantic sees them; it looks nothing up. -/
def operations (address : Object → Address) (s : Archiver) : Operations where
  id c := (s.assignment.lookup c).getD noneID
  lookup i := if i = noneID then .ok none else .error .assertion
  address := address
  assigned := []
  lookup_id := by simp
  lookup_noneID := if_pos rfl

def newFlatChunk (type : EgalitoChunkType) (id : BitVec 32) (s : Archiver) : Except Fault Archiver := do
  let l ← addFlatChunk s.flatList ⟨type, id, 0, []⟩
  .ok { s with flatList := l }

/-- What the writer of a record leaves in it. -/
def appendData (id : BitVec 32) (data : List Byte) (s : Archiver) : Archiver :=
  { s with flatList := s.flatList.modify id.toNat (Option.map fun flat => { flat with data := flat.data ++ data }) }

end Archiver

/-- Runs a script for a record that so far has the bytes `data`. -/
def Script.run (address : Object → Address) : Script → List Byte → Archiver → Except Fault (List Byte × Archiver)
  | done, data, s => .ok (data, s)
  | write refs bytes next, data, s => do
    let s := s.assignAll refs
    let b ← bytes (s.operations address)
    run address next (data ++ b) s
  | blank c next, data, s => do
    let (id, s) := s.assign c
    let s ← s.newFlatChunk c.type id
    run address next (data ++ littleEndian 4 id.toNat) (s.note id)
  | own type script next, data, s => do
    let (id, s) := s.getNextID
    let s ← s.newFlatChunk type id
    let (d, s) ← run address script [] s
    run address next (data ++ littleEndian 4 id.toNat) ((s.appendData id d).note id)
  | record c script next, data, s => do
    let (id, s) := s.assign c
    let s ← s.newFlatChunk c.type id
    let (d, s) ← run address script [] s
    run address next data (s.appendData id d)

/-- `op.serialize` of the root of a tree, on an empty archive. -/
def serializeRoot (address : Object → Address) (type : EgalitoChunkType) (script : Script) : Except Fault Archiver := do
  let (id, s) := Archiver.empty.getNextID
  let s ← s.newFlatChunk type id
  let (d, s) ← script.run address [] s
  .ok (s.appendData id d)

/-- The check of `ChunkSerializer::serialize` for chunks that were not serialized. -/
def Archiver.complete (s : Archiver) : Bool := s.flatList.all Option.isSome

/-- What an ID is handed out for. -/
inductive Key
  | own (type : EgalitoChunkType)
  | chunk (c : Object)
  deriving DecidableEq

def Key.type : Key → EgalitoChunkType
  | own type => type
  | chunk c => c.type

def intern (keys : List Key) (c : Object) : List Key := if .chunk c ∈ keys then keys else keys ++ [.chunk c]

namespace Script

/-- All that IDs are handed out for, in order, when the script is run after the given ones. -/
def allocate : Script → List Key → List Key
  | done, keys => keys
  | write refs _ next, keys => allocate next (refs.foldl intern keys)
  | blank c next, keys => allocate next (intern keys c)
  | own type script next, keys => allocate next (allocate script (keys ++ [.own type]))
  | record c script next, keys => allocate next (allocate script (intern keys c))

def recorded : Script → List Object
  | done => []
  | write _ _ next => recorded next
  | blank c next => c :: recorded next
  | own _ script next => recorded script ++ recorded next
  | record c script next => c :: (recorded script ++ recorded next)

end Script

variable {keys : List Key} {c x : Object} {made : Object → Prop} {s : Archiver} {address : Object → Address}

theorem prefix_intern (keys) (c) : keys <+: intern keys c := by
  unfold intern
  split
  · exact prefix_rfl
  · exact prefix_append ..

theorem mem_intern (keys) (c) : .chunk c ∈ intern keys c := by
  unfold intern
  split
  · assumption
  · simp

theorem prefix_foldl_intern : ∀ (refs : List Object) (keys : List Key), keys <+: refs.foldl intern keys
  | [], _ => prefix_rfl
  | c :: refs, keys => (prefix_intern keys c).trans (prefix_foldl_intern refs (intern keys c))

theorem Script.prefix_allocate : ∀ (script : Script) (keys : List Key), keys <+: script.allocate keys
  | done, _ => prefix_rfl
  | write refs _ next, keys => (prefix_foldl_intern refs keys).trans (prefix_allocate next _)
  | blank c next, keys => (prefix_intern keys c).trans (prefix_allocate next _)
  | own _ script next, _ =>
    (prefix_append ..).trans ((prefix_allocate script _).trans (prefix_allocate next _))
  | record c script next, keys => (prefix_intern keys c).trans ((prefix_allocate script _).trans (prefix_allocate next _))

/-! ## Assigned IDs -/

/-- The assignment agrees with the order of the keys. -/
structure Numbered (keys : List Key) (s : Archiver) : Prop where
  next : s.nextID = BitVec.ofNat 32 keys.length
  assignment : ∀ c, s.assignment.lookup c =
    if .chunk c ∈ keys then some (BitVec.ofNat 32 (keys.idxOf (.chunk c))) else none
  /-- A chunk has one ID. -/
  unique : ∀ i c, keys[i]? = some (.chunk c) → i = keys.idxOf (.chunk c)

theorem Numbered.own (h : Numbered keys s) (type : EgalitoChunkType) : Numbered (keys ++ [.own type]) s.getNextID.2 where
  next := by
    show s.nextID + 1 = _
    rw [h.next, length_append, length_singleton, BitVec.ofNat_add]
    rfl
  assignment c := by
    show s.assignment.lookup c = _
    rw [h.assignment]
    by_cases hc : Key.chunk c ∈ keys
    · rw [if_pos hc, if_pos (by simp [hc]), idxOf_append_of_mem hc]
    · rw [if_neg hc, if_neg (by simp [hc])]
  unique i c hi := by
    rcases Nat.lt_or_ge i keys.length with hlt | hge
    · rw [getElem?_append_left hlt] at hi
      rw [idxOf_append_of_mem (mem_of_getElem? hi)]
      exact h.unique i c hi
    · rw [getElem?_append_right hge] at hi
      have := mem_of_getElem? hi
      simp at this

theorem Numbered.assign (h : Numbered keys s) (c : Object) :
    (s.assign c).1 = BitVec.ofNat 32 ((intern keys c).idxOf (.chunk c)) ∧ Numbered (intern keys c) (s.assign c).2 := by
  have hlk := h.assignment c
  by_cases hc : Key.chunk c ∈ keys
  · rw [if_pos hc] at hlk
    have ht : intern keys c = keys := if_pos hc
    have ha : s.assign c = (BitVec.ofNat 32 (keys.idxOf (.chunk c)), s) := by rw [Archiver.assign, hlk]
    rw [ha, ht]
    exact ⟨rfl, h⟩
  · rw [if_neg hc] at hlk
    have ht : intern keys c = keys ++ [.chunk c] := if_neg hc
    have ha : s.assign c =
        (s.nextID, { s with assignment := (c, s.nextID) :: s.assignment, nextID := s.nextID + 1 }) := by
      rw [Archiver.assign, hlk]
    have hix : (keys ++ [Key.chunk c]).idxOf (.chunk c) = keys.length := by
      rw [idxOf_append_of_notMem hc, idxOf_cons_self, add_zero]
    rw [ha, ht, hix]
    refine ⟨h.next, ?_, fun x => ?_, fun i x hi => ?_⟩
    · rw [h.next, length_append, length_singleton, BitVec.ofNat_add]
      rfl
    · rw [lookup_cons]
      by_cases hx : x = c
      · rw [hx, if_pos (by simp), hix, beq_self_eq_true, h.next]
      · rw [beq_eq_false_iff_ne.2 hx, h.assignment x]
        by_cases hm : Key.chunk x ∈ keys
        · rw [if_pos hm, if_pos (by simp [hm]), idxOf_append_of_mem hm]
        · rw [if_neg hm, if_neg (by simp [hm, hx])]
    · rcases Nat.lt_or_ge i keys.length with hlt | hge
      · rw [getElem?_append_left hlt] at hi
        rw [idxOf_append_of_mem (mem_of_getElem? hi)]
        exact h.unique i x hi
      · rw [getElem?_append_right hge] at hi
        obtain ⟨hz, hx⟩ := List.getElem?_eq_some_iff.1 hi
        have hi0 : i - keys.length = 0 := by simpa using hz
        have hxc : x = c := by simpa [hi0] using hx.symm
        rw [hxc, hix]
        omega

/-! ## Records -/

/-- The record at a place of the flat list. -/
def flatAt (l : FlatList) (i : Nat) : Option FlatChunk := l[i]?.join

theorem flatAt_grow (l) (n i) : flatAt (grow l n) i = flatAt l i := by
  unfold flatAt grow
  rcases Nat.lt_or_ge i l.length with hlt | hge
  · rw [getElem?_append_left hlt]
  · rw [getElem?_append_right hge, getElem?_eq_none hge, getElem?_replicate]
    split <;> rfl

theorem addFlatChunk_flatAt (l) {flat} (hi : flat.id.toNat + 1 < 2 ^ 32) :
    ∃ l', addFlatChunk l flat = .ok l' ∧ l'.length = max l.length (flat.id.toNat + 1) ∧
      ∀ i, flatAt l' i = if i = flat.id.toNat then some flat else flatAt l i := by
  have hs : (flat.id + 1).toNat = flat.id.toNat + 1 := by
    rw [BitVec.toNat_add]
    exact Nat.mod_eq_of_lt hi
  -- the list once it is long enough
  obtain ⟨g, hg, hl, hf⟩ : ∃ g, (if l.length < flat.id.toNat + 1 then grow l (flat.id.toNat + 1) else l) = g ∧
      g.length = max l.length (flat.id.toNat + 1) ∧ ∀ i, flatAt g i = flatAt l i := by
    split
    · refine ⟨_, rfl, ?_, flatAt_grow l _⟩
      rw [grow, length_append, length_replicate]
      omega
    · exact ⟨l, rfl, by omega, fun _ => rfl⟩
  have hlt : flat.id.toNat < g.length := by omega
  refine ⟨g.set flat.id.toNat (some flat), ?_, by rw [length_set, hl], fun i => ?_⟩
  · simp only [addFlatChunk, hs, hg, if_pos hlt]
  · split
    · next h =>
      rw [flatAt, h, getElem?_set_self hlt]
      rfl
    · next h => rw [flatAt, getElem?_set_ne (Ne.symm h), ← hf, flatAt]

/-- The flat list has records at exactly the given places, under their IDs and with their types, and
it ends with a record. -/
structure Listed (keys : List Key) (P : Nat → Prop) (l : FlatList) : Prop where
  isSome_iff : ∀ i, (flatAt l i).isSome ↔ P i
  id : ∀ i flat, flatAt l i = some flat → flat.id = BitVec.ofNat 32 i
  type : ∀ i flat, flatAt l i = some flat → keys[i]?.map Key.type = some flat.type
  last : ∀ n, l.length = n + 1 → (flatAt l n).isSome

variable {P : Nat → Prop} {l : FlatList}

theorem Listed.mono {keys'} (h : Listed keys P l) (hk : keys <+: keys') : Listed keys' P l where
  isSome_iff := h.isSome_iff
  id := h.id
  type i flat hf := by
    obtain ⟨k, hki, ht⟩ := Option.map_eq_some_iff.1 (h.type i flat hf)
    rw [prefix_iff_getElem?.1 hk i (List.getElem?_eq_some_iff.1 hki).1]
    rw [List.getElem?_eq_some_iff] at hki
    rw [hki.2, Option.map_some, ht]
  last := h.last

variable {i : Nat} {type : EgalitoChunkType} {script : Script}

theorem Listed.add (h : Listed keys P l) {k} (hk : keys[i]? = some k) (hi : i + 1 < 2 ^ 32) :
    ∃ l', addFlatChunk l ⟨k.type, BitVec.ofNat 32 i, 0, []⟩ = .ok l' ∧ Listed keys (fun j => j = i ∨ P j) l' := by
  have hd : (BitVec.ofNat 32 i).toNat = i := by
    rw [BitVec.toNat_ofNat]
    exact Nat.mod_eq_of_lt (by omega)
  have hb : (⟨k.type, BitVec.ofNat 32 i, 0, []⟩ : FlatChunk).id.toNat + 1 < 2 ^ 32 := by rwa [hd]
  obtain ⟨l', ha, hl, hf⟩ := addFlatChunk_flatAt l hb
  simp only [hd] at hl hf
  refine ⟨l', ha, fun j => ?_, fun j flat hj => ?_, fun j flat hj => ?_, fun n hn => ?_⟩
  · rw [hf]
    split
    · next hji => simp [hji]
    · next hji => simp [hji, h.isSome_iff]
  · rw [hf] at hj
    split at hj
    · next hji => rw [hji, ← Option.some.inj hj]
    · exact h.id j flat hj
  · rw [hf] at hj
    split at hj
    · next hji => rw [hji, hk, Option.map_some, ← Option.some.inj hj]
    · exact h.type j flat hj
  · rw [hf]
    split
    · rfl
    · exact h.last n (by omega)

theorem Listed.appendData (h : Listed keys P s.flatList) (id) (data) :
    Listed keys P (s.appendData id data).flatList := by
  have ht : ∀ i, flatAt (s.appendData id data).flatList i = if id.toNat = i then
      (flatAt s.flatList i).map fun flat => { flat with data := flat.data ++ data } else flatAt s.flatList i := by
    intro i
    unfold flatAt Archiver.appendData
    rw [getElem?_modify]
    split
    · rcases s.flatList[i]? with _ | _ | flat <;> rfl
    · rcases s.flatList[i]? with _ | flat <;> rfl
  refine ⟨fun i => ?_, fun i flat hi => ?_, fun i flat hi => ?_, fun n hn => ?_⟩
  · rw [ht, ← h.isSome_iff]
    split <;> simp
  · rw [ht] at hi
    split at hi
    · obtain ⟨flat', hf, rfl⟩ := Option.map_eq_some_iff.1 hi
      exact h.id i flat' hf
    · exact h.id i flat hi
  · rw [ht] at hi
    split at hi
    · obtain ⟨flat', hf, rfl⟩ := Option.map_eq_some_iff.1 hi
      exact h.type i flat' hf
    · exact h.type i flat hi
  · rw [ht]
    have := h.last n (by rw [← hn, Archiver.appendData, length_modify])
    split
    · rwa [Option.isSome_map]
    · exact this

/-! ## Runs -/

/-- Whether the record of an ID has been made: an ID of its own always comes with its record. -/
def Key.Made (made : Object → Prop) : Key → Prop
  | own _ => True
  | chunk c => made c

def MadeAt (keys : List Key) (made : Object → Prop) (i : Nat) : Prop := ∃ k, keys[i]? = some k ∧ k.Made made

/-- IDs have been handed out for `keys`, and the chunks in `made` have records. -/
structure Tracks (keys : List Key) (made : Object → Prop) (s : Archiver) : Prop where
  numbered : Numbered keys s
  listed : Listed keys (MadeAt keys made) s.flatList
  keyed : ∀ c, made c → .chunk c ∈ keys
  lt_of_written : ∀ id ∈ s.written, id.toNat < keys.length
  written_of_not_made : ∀ i < keys.length, ¬ MadeAt keys made i → BitVec.ofNat 32 i ∈ s.written

theorem Tracks.empty : Tracks [] (fun _ => False) Archiver.empty where
  numbered := ⟨rfl, fun _ => rfl, fun i c h => by simp at h⟩
  listed := ⟨fun i => by simp [flatAt, MadeAt, Archiver.empty], fun i _ h => by simp [flatAt, Archiver.empty] at h,
    fun i _ h => by simp [flatAt, Archiver.empty] at h, fun n h => by simp [Archiver.empty] at h⟩
  keyed := fun _ h => h.elim
  lt_of_written := fun _ h => by simp [Archiver.empty] at h
  written_of_not_made := fun i h => by simp at h

theorem Tracks.congr {made'} (h : Tracks keys made s) (he : ∀ c, made c ↔ made' c) : Tracks keys made' s := by
  have : made = made' := funext fun c => propext (he c)
  rwa [← this]

theorem getElem?_intern (keys) (c) (i) :
    (intern keys c)[i]? = keys[i]? ∨ .chunk c ∉ keys ∧ i = keys.length ∧ (intern keys c)[i]? = some (.chunk c) := by
  unfold intern
  split
  · exact .inl rfl
  · next hc =>
    rcases Nat.lt_trichotomy i keys.length with hlt | heq | hgt
    · exact .inl (getElem?_append_left hlt)
    · exact .inr ⟨hc, heq, by simp [heq]⟩
    · left
      rw [getElem?_eq_none (by simp; omega), getElem?_eq_none (by omega)]

theorem Tracks.madeAt_intern (h : Tracks keys made s) (c) (i) :
    MadeAt (intern keys c) made i ↔ MadeAt keys made i := by
  unfold MadeAt
  rcases getElem?_intern keys c i with heq | ⟨hc, hi, heq⟩
  · rw [heq]
  · have hn : keys[i]? = none := getElem?_eq_none (by omega)
    rw [heq, hn]
    constructor
    · rintro ⟨k, hk, hm⟩
      cases hk
      exact absurd (h.keyed c hm) hc
    · rintro ⟨k, hk, -⟩
      cases hk

theorem assign_flatList (c) (s : Archiver) : (s.assign c).2.flatList = s.flatList := by
  unfold Archiver.assign
  split <;> rfl

theorem assign_written (c) (s : Archiver) : (s.assign c).2.written = s.written := by
  unfold Archiver.assign
  split <;> rfl

theorem Tracks.refer (h : Tracks keys made s) (c : Object) :
    Tracks (intern keys c) made ((s.assign c).2.note (s.assign c).1) := by
  obtain ⟨hd, hnm⟩ := h.numbered.assign c
  have hlt := idxOf_lt_length_of_mem (mem_intern keys c)
  refine ⟨⟨hnm.next, hnm.assignment, hnm.unique⟩, ?_, fun x hx => (prefix_intern keys c).subset (h.keyed x hx), ?_, ?_⟩
  · have hs := funext fun i => propext (h.madeAt_intern c i)
    show Listed _ _ (s.assign c).2.flatList
    rw [hs, assign_flatList]
    exact h.listed.mono (prefix_intern keys c)
  · intro id hm
    rcases mem_cons.1 hm with rfl | hm
    · rw [hd, BitVec.toNat_ofNat]
      exact lt_of_le_of_lt (Nat.mod_le ..) hlt
    · rw [assign_written] at hm
      exact (h.lt_of_written id hm).trans_le (prefix_intern keys c).length_le
  · intro i hi hn
    rw [h.madeAt_intern] at hn
    by_cases hik : i < keys.length
    · have := h.written_of_not_made i hik hn
      exact mem_cons_of_mem _ (by rwa [assign_written])
    · -- the new ID
      rcases getElem?_intern keys c i with heq | ⟨-, -, heq⟩
      · rw [getElem?_eq_none (Nat.le_of_not_lt hik), List.getElem?_eq_none_iff] at heq
        omega
      · rw [hnm.unique i c heq, hd.symm]
        exact mem_cons_self

theorem Tracks.assignAll : ∀ refs {keys} {s}, Tracks keys made s →
    Tracks (refs.foldl intern keys) made (s.assignAll refs)
  | [], _, _, h => h
  | c :: refs, _, _, h => Tracks.assignAll refs (h.refer c)

section

variable (h : Tracks keys made s)
include h

theorem Tracks.create (c : Object) (hlt : (intern keys c).length < 2 ^ 32) :
    ∃ s', (s.assign c).2.newFlatChunk c.type (s.assign c).1 = .ok s' ∧
      Tracks (intern keys c) (fun x => x = c ∨ made x) s' := by
  obtain ⟨hd, hnm⟩ := h.numbered.assign c
  have hmm := mem_intern keys c
  have hix := idxOf_lt_length_of_mem hmm
  have hy : (intern keys c)[(intern keys c).idxOf (.chunk c)]? = some (.chunk c) := by
    rw [getElem?_eq_getElem hix, getElem_idxOf hix]
  obtain ⟨l, ha, hl⟩ := (h.listed.mono (prefix_intern keys c)).add hy (by omega)
  -- the places with a record are the old ones and that of the chunk
  have hp : (fun j => j = (intern keys c).idxOf (.chunk c) ∨ MadeAt keys made j) =
      MadeAt (intern keys c) fun x => x = c ∨ made x := by
    funext j
    rw [← h.madeAt_intern c j]
    refine propext ⟨?_, ?_⟩
    · rintro (rfl | ⟨k, hk, hm⟩)
      · exact ⟨_, hy, .inl rfl⟩
      · refine ⟨k, hk, ?_⟩
        cases k with
        | own => trivial
        | chunk x => exact .inr hm
    · rintro ⟨k, hk, hm⟩
      cases k with
      | own type => exact .inr ⟨_, hk, trivial⟩
      | chunk x =>
        rcases hm with rfl | hm
        · exact .inl (hnm.unique j x hk)
        · exact .inr ⟨_, hk, hm⟩
  rw [hp] at hl
  refine ⟨{ (s.assign c).2 with flatList := l }, ?_, ⟨hnm.next, hnm.assignment, hnm.unique⟩, hl, ?_, ?_, ?_⟩
  · rw [Archiver.newFlatChunk, assign_flatList, hd]
    exact ok_bind ha _
  · rintro x (rfl | hx)
    · exact hmm
    · exact (prefix_intern keys c).subset (h.keyed x hx)
  · intro id hi'
    rw [assign_written] at hi'
    exact (h.lt_of_written id hi').trans_le (prefix_intern keys c).length_le
  · intro i hi hn
    rw [← hp, not_or] at hn
    rw [assign_written]
    refine h.written_of_not_made i ?_ hn.2
    by_contra hik
    rcases getElem?_intern keys c i with heq | ⟨-, -, heq⟩
    · rw [getElem?_eq_none (Nat.le_of_not_lt hik), List.getElem?_eq_none_iff] at heq
      omega
    · exact hn.1 (hnm.unique i c heq)

theorem Tracks.createOwn (type : EgalitoChunkType) (hlt : keys.length + 1 < 2 ^ 32) :
    s.getNextID.1 = BitVec.ofNat 32 keys.length ∧
    ∃ s', s.getNextID.2.newFlatChunk type s.getNextID.1 = .ok s' ∧ Tracks (keys ++ [.own type]) made s' := by
  have hnm := h.numbered.own type
  have hp : keys <+: keys ++ [.own type] := prefix_append ..
  have hy : (keys ++ [Key.own type])[keys.length]? = some (.own type) := by simp
  obtain ⟨l, ha, hl⟩ := (h.listed.mono hp).add hy hlt
  have hc : (fun j => j = keys.length ∨ MadeAt keys made j) = MadeAt (keys ++ [.own type]) made := by
    funext j
    unfold MadeAt
    refine propext ⟨?_, ?_⟩
    · rintro (rfl | ⟨k, hk, hm⟩)
      · exact ⟨_, hy, trivial⟩
      · exact ⟨k, by rw [getElem?_append_left (List.getElem?_eq_some_iff.1 hk).1, hk], hm⟩
    · rintro ⟨k, hk, hm⟩
      rcases Nat.lt_or_ge j keys.length with hj | hj
      · exact .inr ⟨k, by rwa [getElem?_append_left hj] at hk, hm⟩
      · have := (List.getElem?_eq_some_iff.1 hk).1
        rw [length_append, length_singleton] at this
        exact .inl (by omega)
  rw [hc] at hl
  refine ⟨h.numbered.next, { s.getNextID.2 with flatList := l }, ?_, ⟨hnm.next, hnm.assignment, hnm.unique⟩, hl,
    ?_, ?_, ?_⟩
  · rw [Archiver.newFlatChunk]
    show (addFlatChunk s.flatList ⟨type, s.nextID, 0, []⟩ >>= _) = _
    rw [h.numbered.next]
    exact ok_bind ha _
  · exact fun x hx => hp.subset (h.keyed x hx)
  · exact fun id hd => (h.lt_of_written id hd).trans_le hp.length_le
  · intro i hi hn
    rw [← hc, not_or] at hn
    rw [length_append, length_singleton] at hi
    exact h.written_of_not_made i (by omega) hn.2

theorem Tracks.appendData (id data) : Tracks keys made (s.appendData id data) :=
  ⟨⟨h.numbered.next, h.numbered.assignment, h.numbered.unique⟩, h.listed.appendData id data, h.keyed, h.lt_of_written,
    h.written_of_not_made⟩

theorem Tracks.note {id} (hd : id.toNat < keys.length) : Tracks keys made (s.note id) where
  numbered := ⟨h.numbered.next, h.numbered.assignment, h.numbered.unique⟩
  listed := h.listed
  keyed := h.keyed
  lt_of_written x hx := by
    rcases mem_cons.1 hx with rfl | hx
    · exact hd
    · exact h.lt_of_written x hx
  written_of_not_made i hi hnot := mem_cons_of_mem _ (h.written_of_not_made i hi hnot)

end

theorem toNat_ofNat_lt {n} (h : i < n) : (BitVec.ofNat 32 i).toNat < n := by
  rw [BitVec.toNat_ofNat]
  exact lt_of_le_of_lt (Nat.mod_le ..) h

/-- Every run that ends has handed out the IDs in the order of the script and made its records, while there are enough
    IDs. -/
theorem Script.run_tracks : ∀ (script : Script) {keys : List Key} {made : Object → Prop} {data d : List Byte} {s s' : Archiver},
    Tracks keys made s → (script.allocate keys).length < 2 ^ 32 → script.run address data s = .ok (d, s') →
    Tracks (script.allocate keys) (fun x => x ∈ script.recorded ∨ made x) s'
  | done, keys, made, data, d, s, s', h, _, hr => by
    cases hr
    exact h.congr fun x => by simp [recorded]
  | write refs bytes next, keys, made, data, d, s, s', h, hlt, hr => by
    obtain ⟨b, -, hx⟩ := bind_iff.1 hr
    exact run_tracks next (h.assignAll refs) hlt hx
  | blank c next, keys, made, data, d, s, s', h, hlt, hr => by
    have hp := prefix_allocate next (intern keys c)
    obtain ⟨s1, hn, h1⟩ := h.create c (hp.length_le.trans_lt hlt)
    obtain ⟨s2, hs2, hx⟩ := bind_iff.1 hr
    obtain rfl := Except.ok.inj (hn.symm.trans hs2)
    have hd : (s.assign c).1.toNat < (intern keys c).length := by
      rw [(h.numbered.assign c).1]
      exact toNat_ofNat_lt (idxOf_lt_length_of_mem (mem_intern keys c))
    refine (run_tracks next (h1.note hd) hlt hx).congr fun x => ?_
    simp only [recorded, mem_cons]
    tauto
  | own type script next, keys, made, data, d, s, s', h, hlt, hr => by
    have hin := prefix_allocate script (keys ++ [.own type])
    have ho := prefix_allocate next (script.allocate (keys ++ [.own type]))
    have hi := ho.length_le.trans_lt hlt
    have hl : keys.length < (script.allocate (keys ++ [.own type])).length := by
      have := hin.length_le
      rw [length_append, length_singleton] at this
      omega
    obtain ⟨hd, s1, hn, h1⟩ := h.createOwn type (by omega)
    obtain ⟨s2, hs2, ht⟩ := bind_iff.1 hr
    obtain rfl := Except.ok.inj (hn.symm.trans hs2)
    obtain ⟨⟨d3, s3⟩, hs3, hx⟩ := bind_iff.1 ht
    have h3 := run_tracks script h1 hi hs3
    have hnt : s.getNextID.1.toNat < (script.allocate (keys ++ [.own type])).length := by
      rw [hd]
      exact toNat_ofNat_lt hl
    refine (run_tracks next ((h3.appendData s.getNextID.1 d3).note hnt) hlt hx).congr fun x => ?_
    simp only [recorded, mem_append]
    tauto
  | record c script next, keys, made, data, d, s, s', h, hlt, hr => by
    have hin := prefix_allocate script (intern keys c)
    have ho := prefix_allocate next (script.allocate (intern keys c))
    have hi := ho.length_le.trans_lt hlt
    obtain ⟨s1, hn, h1⟩ := h.create c (hin.length_le.trans_lt hi)
    obtain ⟨s2, hs2, ht⟩ := bind_iff.1 hr
    obtain rfl := Except.ok.inj (hn.symm.trans hs2)
    obtain ⟨⟨d3, s3⟩, hs3, hx⟩ := bind_iff.1 ht
    have h3 := run_tracks script h1 hi hs3
    refine (run_tracks next (h3.appendData (s.assign c).1 d3) hlt hx).congr fun x => ?_
    simp only [recorded, mem_append, mem_cons]
    tauto

def allIDs (type : EgalitoChunkType) (script : Script) : List Key := script.allocate [.own type]

theorem serializeRoot_tracks (hlt : (allIDs type script).length < 2 ^ 32)
    (h : serializeRoot address type script = .ok s) : Tracks (allIDs type script) (fun x => x ∈ script.recorded) s := by
  obtain ⟨-, s1, hn, h1⟩ := Tracks.empty.createOwn type (by decide)
  obtain ⟨s2, hs2, hr⟩ := bind_iff.1 h
  obtain rfl := Except.ok.inj (hn.symm.trans hs2)
  obtain ⟨⟨d3, s3⟩, hs3, he⟩ := bind_iff.1 hr
  cases he
  refine ((script.run_tracks h1 hlt hs3).appendData _ d3).congr fun x => ?_
  simp

/-! ## Dangling references -/

/-- Every ID in a record has a record under that ID. -/
def Archiver.NoDangling (s : Archiver) : Prop := ∀ id ∈ s.written, ∃ flat, flatAt s.flatList id.toNat = some flat ∧ flat.id = id

/-- Whether the ID has a record when the tree has been serialized. -/
def Script.Serialized (script : Script) (k : Key) : Prop := k.Made fun c => c ∈ script.recorded

/-- The last IDs, and only they, are of chunks that are never serialized. -/
def EndsUnserialized (type : EgalitoChunkType) (script : Script) : Prop :=
  ∃ front back, allIDs type script = front ++ back ∧ back ≠ [] ∧ (∀ k ∈ front, script.Serialized k) ∧
    ∀ k ∈ back, ¬ script.Serialized k

theorem complete_iff : s.complete = true ↔ ∀ i < s.flatList.length, (flatAt s.flatList i).isSome := by
  unfold Archiver.complete flatAt
  rw [all_eq_true, forall_mem_iff_getElem]
  refine forall₂_congr fun i hi => ?_
  rw [getElem?_eq_getElem hi]
  rfl

theorem lt_length_of_flatAt (h : (flatAt l i).isSome) : i < l.length := by
  by_contra hge
  rw [flatAt, getElem?_eq_none (Nat.le_of_not_lt hge)] at h
  cases h

/-- The check for missing chunks finds all of them unless they have the last IDs. -/
theorem Tracks.noDangling_iff (hlt : (allIDs type script).length < 2 ^ 32)
    (h : Tracks (allIDs type script) (fun x => x ∈ script.recorded) s) :
    (s.complete = true → s.NoDangling) ↔ ¬ EndsUnserialized type script := by
  have hd : ∀ i (hi : i < (allIDs type script).length),
      (flatAt s.flatList i).isSome ↔ script.Serialized (allIDs type script)[i] := by
    intro i hi
    rw [h.listed.isSome_iff, MadeAt, getElem?_eq_getElem hi]
    simp [Script.Serialized]
  have his : s.flatList.length ≤ (allIDs type script).length := by
    rcases hl : s.flatList.length with _ | n
    · omega
    · obtain ⟨k, hk, -⟩ := (h.listed.isSome_iff n).1 (h.listed.last n hl)
      exact (List.getElem?_eq_some_iff.1 hk).1
  constructor
  · rintro hsd ⟨front, back, ha, hb, hfn, hr⟩
    have hi : front.length < (allIDs type script).length := by
      rw [ha, length_append]
      have := length_pos_iff.2 hb
      omega
    -- the list ends before the first chunk without a record
    have hl : s.flatList.length ≤ front.length := by
      rcases hl : s.flatList.length with _ | n
      · omega
      · by_contra hgt
        have hn : n < (allIDs type script).length := by omega
        refine hr _ ?_ ((hd n hn).1 (h.listed.last n hl))
        simp only [ha]
        rw [getElem_append_right (by omega)]
        exact getElem_mem _
    have hc : s.complete = true := by
      refine complete_iff.2 fun i hi' => (hd i (by omega)).2 (hfn _ ?_)
      simp only [ha]
      rw [getElem_append_left (by omega)]
      exact getElem_mem _
    have ht : ¬ (flatAt s.flatList front.length).isSome := fun hs => by
      have := lt_length_of_flatAt hs
      omega
    have hw := h.written_of_not_made front.length hi fun hm => ht ((h.listed.isSome_iff _).2 hm)
    obtain ⟨flat, hf, -⟩ := hsd hc _ hw
    rw [BitVec.toNat_ofNat, Nat.mod_eq_of_lt (by omega)] at hf
    exact ht (by rw [hf]; rfl)
  · intro he hc id hid
    have hil := h.lt_of_written id hid
    by_cases hs : (flatAt s.flatList id.toNat).isSome
    · obtain ⟨flat, hf⟩ := Option.isSome_iff_exists.1 hs
      refine ⟨flat, hf, ?_⟩
      rw [h.listed.id _ _ hf, BitVec.ofNat_toNat, BitVec.setWidth_eq]
    · exfalso
      refine he ⟨(allIDs type script).take s.flatList.length, (allIDs type script).drop s.flatList.length,
        (take_append_drop ..).symm, ?_, ?_, ?_⟩
      · intro hnl
        have : (allIDs type script).length ≤ s.flatList.length := drop_eq_nil_iff.1 hnl
        exact hs (complete_iff.1 hc _ (by omega))
      · intro k hk
        obtain ⟨i, hi, rfl⟩ := mem_iff_getElem.1 hk
        rw [length_take] at hi
        rw [getElem_take]
        exact (hd i (by omega)).1 (complete_iff.1 hc i (by omega))
      · intro k hk
        obtain ⟨i, hi, rfl⟩ := mem_iff_getElem.1 hk
        rw [length_drop] at hi
        rw [getElem_drop, ← hd _ (by omega)]
        intro hla
        have := lt_length_of_flatAt hla
        omega

end Egalito.Archive
