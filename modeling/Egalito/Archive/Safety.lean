/-
The reader on arbitrary bytes: it rejects them or returns what the header announces, up to three flaws.

The reader is followed through the header, the announced records and the table of IDs. `read_safe_iff` gives the files
for which no write leaves the table, the count is the announced one and an unset variable makes no difference.
-/
import Egalito.Archive.RoundTrip

namespace Egalito.Archive

open Lib List

variable {b r p file : List Byte} {l l' : FlatList} {n : Nat} {flat : FlatChunk} {unset : BitVec 32}

/-! ## One record in arbitrary bytes -/

def recordId (b : List Byte) : Nat := fromLittleEndian ((b.drop 1).take 4)

/-- The size of a record: 13 bytes of fields, and the data that the last of them announces. -/
def recordSize (b : List Byte) : Nat := 13 + fromLittleEndian ((b.drop 9).take 4)

theorem record_fields (hr : r.length = recordSize r) : ∃ type id offset size data, r = type ++ (id ++ (offset ++ (size ++ data))) ∧
    type.length = 1 ∧ id.length = 4 ∧ offset.length = 4 ∧ size.length = 4 ∧ data.length = fromLittleEndian size ∧
    recordId r = fromLittleEndian id := by
  unfold recordSize at hr
  refine ⟨r.take 1, (r.drop 1).take 4, (r.drop 5).take 4, (r.drop 9).take 4, r.drop 13, ?_, ?_, ?_, ?_, ?_, ?_, rfl⟩
  · have h9 : (r.drop 9).take 4 ++ r.drop 13 = r.drop 9 := by
      rw [← drop_drop (i := 4) (j := 9)]
      exact take_append_drop ..
    have h5 : (r.drop 5).take 4 ++ r.drop 9 = r.drop 5 := by
      rw [← drop_drop (i := 4) (j := 5)]
      exact take_append_drop ..
    have h1 : (r.drop 1).take 4 ++ r.drop 5 = r.drop 1 := by
      rw [← drop_drop (i := 4) (j := 1)]
      exact take_append_drop ..
    rw [h9, h5, h1, take_append_drop]
  all_goals simp only [length_take, length_drop]; omega

theorem parses_record (hr : r.length = recordSize r) :
    ∃ flat, flat.id = BitVec.ofNat 32 (recordId r) ∧ Parses readRecord r flat := by
  obtain ⟨type, id, offset, size, data, rfl, ht, hi, ho, hs, hd, hid⟩ := record_fields hr
  rw [hid]
  have hp := parses_readNat_bytes (ε := Fault) type
  have hi' := parses_readNat_bytes (ε := Fault) id
  have hos := parses_readNat_bytes (ε := Fault) offset
  have hz := parses_readNat_bytes (ε := Fault) size
  have hdt := parses_readFixed (ε := Fault) data
  rw [ht] at hp
  rw [hi] at hi'
  rw [ho] at hos
  rw [hs] at hz
  rw [hd] at hdt
  refine ⟨⟨decodeChunkType (BitVec.ofNat 8 (fromLittleEndian type)), _,
    BitVec.ofNat 32 (fromLittleEndian offset), data⟩, rfl, ?_⟩
  exact hp.bind (hi'.bind (hos.bind (hz.bind hdt.map)))

theorem sticky_readRecord : Sticky readRecord := by
  refine (sticky_readNat 1).bind fun _ => (sticky_readNat 4).bind fun _ => ?_
  refine (sticky_readNat 4).bind fun _ => (sticky_readNat 4).bind fun size => ?_
  exact (sticky_readFixed size).bind fun _ => Sticky.pure _

theorem starves_record (hr : r.length = recordSize r) : Starves readRecord r := by
  obtain ⟨type, id, offset, size, data, rfl, ht, hi, ho, hs, hd, -⟩ := record_fields hr
  have hp := parses_readNat_bytes (ε := Fault) type
  have hid := parses_readNat_bytes (ε := Fault) id
  have hos := parses_readNat_bytes (ε := Fault) offset
  have hz := parses_readNat_bytes (ε := Fault) size
  have ht' := starves_readNat (ε := Fault) type
  have hi' := starves_readNat (ε := Fault) id
  have ho' := starves_readNat (ε := Fault) offset
  have hs' := starves_readNat (ε := Fault) size
  have hdt := starves_readFixed (ε := Fault) data
  rw [ht] at hp ht'
  rw [hi] at hid hi'
  rw [ho] at hos ho'
  rw [hs] at hz hs'
  rw [hd] at hdt
  refine .bind hp ht' (fun _ => ?_) (.bind hid hi' (fun _ => ?_) (.bind hos ho' (fun _ => ?_)
    (.bind hz hs' (fun _ => ?_) hdt.map)))
  · refine (sticky_readNat 4).bind fun _ => (sticky_readNat 4).bind fun _ => ?_
    exact (sticky_readNat 4).bind fun size => (sticky_readFixed size).bind fun _ => Sticky.pure _
  · refine (sticky_readNat 4).bind fun _ => (sticky_readNat 4).bind fun size => ?_
    exact (sticky_readFixed size).bind fun _ => Sticky.pure _
  · exact (sticky_readNat 4).bind fun size => (sticky_readFixed size).bind fun _ => Sticky.pure _
  · exact (sticky_readFixed _).bind fun _ => Sticky.pure _

theorem recordSize_append (hb : 13 ≤ b.length) (t) : recordSize (b ++ t) = recordSize b := by
  unfold recordSize
  rw [drop_append_of_le_length (by omega), take_append_of_le_length (by rw [length_drop]; omega)]

/-- Bytes that are no complete record are the beginning of one. -/
theorem exists_record (hb : b.length < recordSize b) : ∃ r, r.length = recordSize r ∧ b <+: r ∧ b ≠ r := by
  -- first all the fields, then the data they announce
  let fields := b ++ replicate (13 - b.length) 0
  have hf : 13 ≤ fields.length := by
    rw [length_append, length_replicate]
    omega
  have hs : b.length < recordSize fields := by
    by_cases hlt : b.length < 13
    · unfold recordSize
      omega
    · have : fields = b := by simp [fields, Nat.sub_eq_zero_of_le (Nat.le_of_not_lt hlt)]
      rwa [this]
  have hle : fields.length ≤ recordSize fields := by
    rw [length_append, length_replicate]
    unfold recordSize at hs ⊢
    omega
  refine ⟨fields ++ replicate (recordSize fields - fields.length) 0, ?_, ?_, ?_⟩
  · rw [recordSize_append hf, length_append, length_replicate]
    omega
  · exact (prefix_append b _).trans (prefix_append _ _)
  · intro he
    have := congrArg length he
    rw [length_append, length_replicate] at this
    omega

theorem readRecord_cases (b) : (recordSize b ≤ b.length ∧ ∃ flat, flat.id = BitVec.ofNat 32 (recordId b) ∧
      readRecord ⟨b, .good⟩ = .ok (flat, ⟨b.drop (recordSize b), .good⟩)) ∨
    (b.length < recordSize b ∧ ∃ flat s, readRecord ⟨b, .good⟩ = .ok (flat, s) ∧ s.status = .fail) := by
  by_cases hle : recordSize b ≤ b.length
  · refine .inl ⟨hle, ?_⟩
    have h13 : 13 ≤ recordSize b := by unfold recordSize; omega
    have hb : b.take (recordSize b) ++ b.drop (recordSize b) = b := take_append_drop ..
    have hl : (b.take (recordSize b)).length = recordSize b := by rw [length_take]; omega
    have hs := recordSize_append (b := b.take (recordSize b)) (by omega) (b.drop (recordSize b))
    rw [hb] at hs
    have hi : recordId (b.take (recordSize b)) = recordId b := by
      unfold recordId
      rw [drop_take, take_take, Nat.min_eq_left (by omega)]
    obtain ⟨flat, hf, hpr⟩ := parses_record (hl.trans hs)
    refine ⟨flat, by rw [hf, hi], ?_⟩
    have := hpr (b.drop (recordSize b))
    rwa [hb] at this
  · obtain ⟨r, hr, hp, hne⟩ := exists_record (Nat.lt_of_not_le hle)
    exact .inr ⟨by omega, starves_record hr b hp hne⟩

/-! ## The records after the header -/

/-- The IDs of the first `n` records as far as they are complete, and whether all of them are. -/
def recordIds : Nat → List Byte → List Nat × Bool
  | 0, _ => ([], true)
  | n + 1, b =>
    if recordSize b ≤ b.length then
      let rest := recordIds n (b.drop (recordSize b))
      (recordId b :: rest.1, rest.2)
    else ([], false)

/-- The last ID of the 32-bit range, for which the new size of the list wraps. -/
def lastId : Nat := 2 ^ 32 - 1

def Filled (l : FlatList) (i : Nat) : Prop := ∃ flat, l[i]? = some (some flat)

def records (l : FlatList) : Nat := l.countP Option.isSome

theorem recordId_lt (b) : recordId b < 2 ^ 32 := by
  have h := fromLittleEndian_lt ((b.drop 1).take 4)
  refine lt_of_lt_of_le h (Nat.pow_le_pow_right (by decide) ?_)
  rw [length_take]
  omega

theorem records_grow (l) (k) : records (grow l k) = records l := by
  simp [records, grow, countP_append, countP_replicate]

theorem filled_grow (l) (k i) : Filled (grow l k) i ↔ Filled l i := by
  unfold Filled grow
  refine exists_congr fun flat => ?_
  rw [getElem?_append]
  split
  · rfl
  · rename_i hi
    rw [getElem?_eq_none (Nat.le_of_not_lt hi), getElem?_replicate]
    split <;> simp

theorem records_set {i} (hi : i < l.length) : (¬ Filled l i → records (l.set i (some flat)) = records l + 1) ∧
    (Filled l i → records (l.set i (some flat)) = records l) := by
  have hc := countP_set (p := Option.isSome) (l := l) (i := i) (a := some flat) hi
  have hp : l[i].isSome = true → 0 < records l := fun h => countP_pos_iff.2 ⟨_, getElem_mem hi, h⟩
  unfold Filled
  rw [getElem?_eq_getElem hi]
  unfold records at hp ⊢
  cases hx : l[i] with
  | none =>
    rw [hx] at hc
    simp only [Option.isSome_none, Option.isSome_some, if_true, Bool.false_eq_true, if_false, Nat.sub_zero] at hc
    exact ⟨fun _ => hc, fun h => by obtain ⟨_, h⟩ := h; cases h⟩
  | some old =>
    rw [hx] at hc hp
    have := hp rfl
    simp only [Option.isSome_some, if_true] at hc
    exact ⟨fun h => absurd ⟨old, rfl⟩ h, fun _ => by omega⟩

theorem filled_set {i} (hi : i < l.length) (j) : Filled (l.set i (some flat)) j ↔ j = i ∨ Filled l j := by
  unfold Filled
  rw [getElem?_set]
  by_cases hj : i = j
  · subst hj
    simp [hi]
  · simp [hj, Ne.symm hj]

theorem addFlatChunk_ok (hi : flat.id.toNat < lastId) (hl : l.length ≤ lastId) : ∃ l', addFlatChunk l flat = .ok l' ∧
    l'.length ≤ lastId ∧ (∀ j, Filled l' j ↔ j = flat.id.toNat ∨ Filled l j) ∧
    (¬ Filled l flat.id.toNat → records l' = records l + 1) ∧ (Filled l flat.id.toNat → records l' = records l) := by
  have hs : (flat.id + 1).toNat = flat.id.toNat + 1 := by
    rw [BitVec.toNat_add]
    exact Nat.mod_eq_of_lt (by unfold lastId at hi; simp; omega)
  -- the list after the resize
  obtain ⟨g, hg, hn, hd, hf, hr⟩ : ∃ g, (if l.length < flat.id.toNat + 1 then grow l (flat.id.toNat + 1) else l) = g ∧
      g.length ≤ lastId ∧ flat.id.toNat < g.length ∧ (∀ j, Filled g j ↔ Filled l j) ∧ records g = records l := by
    split
    · refine ⟨_, rfl, ?_, ?_, filled_grow l _, records_grow l _⟩ <;>
        rw [grow, length_append, length_replicate] <;> omega
    · exact ⟨l, rfl, hl, by omega, fun _ => Iff.rfl, rfl⟩
  have ha : addFlatChunk l flat = .ok (g.set flat.id.toNat (some flat)) := by
    simp only [addFlatChunk, hs, hg, if_pos hd]
  refine ⟨_, ha, by rwa [length_set], fun j => ?_, ?_, ?_⟩
  · rw [filled_set hd, hf]
  · intro h
    rw [(records_set hd).1 (by rwa [hf]), hr]
  · intro h
    rw [(records_set hd).2 (by rwa [hf]), hr]

theorem addFlatChunk_last (hi : flat.id.toNat = lastId) (hl : l.length ≤ lastId) :
    addFlatChunk l flat = .error .outOfBounds := by
  have hs : (flat.id + 1).toNat = 0 := by
    rw [BitVec.toNat_add, hi]
    rfl
  simp only [addFlatChunk, hs, hi, Nat.not_lt_zero, if_false]
  exact if_neg (Nat.not_lt.2 hl)

theorem readRecords_of_fail {t s} (hr : readRecord t = .ok (flat, s)) (hs : s.status = .fail) :
    readRecords (n + 1) l t = .ok (none, s) := by
  have hf : failed s = .ok (true, s) := by
    simp only [failed, hs]
    rfl
  rw [readRecords, bind_run_ok hr, bind_run_ok hf]
  rfl

theorem readRecords_succ (n) (l) (b) :
    (recordSize b ≤ b.length ∧ ∃ flat, flat.id.toNat = recordId b ∧ readRecords (n + 1) l ⟨b, .good⟩ =
      addFlatChunk l flat >>= fun l' => readRecords n l' ⟨b.drop (recordSize b), .good⟩) ∨
    (b.length < recordSize b ∧ ∃ s, readRecords (n + 1) l ⟨b, .good⟩ = .ok (none, s)) := by
  rcases readRecord_cases b with ⟨hle, flat, hi, hr⟩ | ⟨hlt, flat, s, hr, hs⟩
  · refine .inl ⟨hle, flat, ?_, ?_⟩
    · rw [hi, BitVec.toNat_ofNat, Nat.mod_eq_of_lt (recordId_lt b)]
    · have hg : failed ⟨b.drop (recordSize b), .good⟩ = .ok (false, ⟨b.drop (recordSize b), .good⟩) := rfl
      rw [readRecords, bind_run_ok hr, bind_run_ok hg]
      cases addFlatChunk l flat <;> rfl
  · exact .inr ⟨hlt, s, readRecords_of_fail hr hs⟩

/-- What the loop makes of the records, by the IDs they have. -/
structure LoopResult (n : Nat) (l : FlatList) (b : List Byte) : Prop where
  last : lastId ∈ (recordIds n b).1 → readRecords n l ⟨b, .good⟩ = .error .outOfBounds
  short : lastId ∉ (recordIds n b).1 → (recordIds n b).2 = false → ∃ s, readRecords n l ⟨b, .good⟩ = .ok (none, s)
  full : lastId ∉ (recordIds n b).1 → (recordIds n b).2 = true → ∃ l' s, readRecords n l ⟨b, .good⟩ = .ok (some l', s) ∧
    records l' ≤ records l + n ∧
    (records l' = records l + n ↔ (recordIds n b).1.Nodup ∧ ∀ i ∈ (recordIds n b).1, ¬ Filled l i)

theorem recordIds_succ (hle : recordSize b ≤ b.length) :
    recordIds (n + 1) b = (recordId b :: (recordIds n (b.drop (recordSize b))).1, (recordIds n (b.drop (recordSize b))).2) :=
  if_pos hle

theorem loopResult : ∀ n l b, l.length ≤ lastId → LoopResult n l b
  | 0, l, b, _ => by
    refine ⟨fun h => ?_, fun _ h => ?_, fun _ _ => ⟨l, ⟨b, .good⟩, rfl, le_rfl, ?_⟩⟩
    · cases h
    · cases h
    · simp [recordIds]
  | n + 1, l, b, hl => by
    rcases readRecords_succ n l b with ⟨hle, flat, hid, hr⟩ | ⟨hlt, s, hr⟩
    · by_cases hls : recordId b = lastId
      · have hrr : readRecords (n + 1) l ⟨b, .good⟩ = .error .outOfBounds := by
          rw [hr, error_bind (addFlatChunk_last (hid.trans hls) hl)]
        have hmm : lastId ∈ (recordIds (n + 1) b).1 := by
          rw [recordIds_succ hle, hls]
          exact mem_cons_self
        exact ⟨fun _ => hrr, fun h => absurd hmm h, fun h => absurd hmm h⟩
      · have hi' : flat.id.toNat < lastId := by
          have := recordId_lt b
          unfold lastId at hls ⊢
          omega
        obtain ⟨l1, had, hl1, hfl, hn, ho⟩ := addFlatChunk_ok hi' hl
        rw [hid] at hfl hn ho
        obtain ⟨ihlast, ihshort, ihfull⟩ := loopResult n l1 (b.drop (recordSize b)) hl1
        rw [ok_bind had] at hr
        have hmm : lastId ∈ (recordIds (n + 1) b).1 ↔ lastId ∈ (recordIds n (b.drop (recordSize b))).1 := by
          rw [recordIds_succ hle, mem_cons]
          exact or_iff_right (Ne.symm hls)
        refine ⟨fun h => hr.trans (ihlast (hmm.1 h)), fun h hs => ?_, fun h hs => ?_⟩
        · rw [recordIds_succ hle] at hs
          rw [hr]
          exact ihshort (fun hm => h (hmm.2 hm)) hs
        · rw [recordIds_succ hle] at hs
          obtain ⟨l', s, ht, hb, hif⟩ := ihfull (fun hm => h (hmm.2 hm)) hs
          refine ⟨l', s, hr.trans ht, ?_, ?_⟩
          · by_cases hf : Filled l (recordId b)
            · rw [ho hf] at hb
              omega
            · rw [hn hf] at hb
              omega
          · rw [recordIds_succ hle, nodup_cons, forall_mem_cons]
            by_cases hf : Filled l (recordId b)
            · -- the record replaces an older one, and one is missing at the end
              rw [ho hf] at hb
              refine ⟨fun h => absurd h (by omega), fun h => absurd hf h.2.1⟩
            · rw [hn hf] at hif
              rw [← add_assoc, add_right_comm, hif]
              simp only [hfl, not_or]
              constructor
              · rintro ⟨hnd, ha⟩
                exact ⟨⟨fun hm => (ha _ hm).1 rfl, hnd⟩, hf, fun i hi => (ha i hi).2⟩
              · rintro ⟨⟨hnt, hnd⟩, -, ha⟩
                exact ⟨hnd, fun i hi => ⟨fun he => hnt (he ▸ hi), ha i hi⟩⟩
    · have hd : recordIds (n + 1) b = ([], false) := if_neg (Nat.not_le.2 hlt)
      refine ⟨fun h => ?_, fun _ _ => ⟨s, hr⟩, fun _ h => ?_⟩
      · rw [hd] at h
        cases h
      · rw [hd] at h
        cases h

/-! ## The header in arbitrary bytes -/

/-- The checks of `readHeader` that reject a file. -/
def headerAccepted (file : List Byte) : Bool :=
  12 ≤ file.length && file.take 8 = signature && fromLittleEndian ((file.drop 8).take 4) ≤ currentVersion

def countBytes (file : List Byte) : List Byte := (file.drop 12).take 4

def announced (file : List Byte) : Nat := fromLittleEndian (countBytes file)

theorem readFixed_long (h : n ≤ b.length) :
    (readFixed n : Reader Fault _) ⟨b, .good⟩ = .ok (b.take n, ⟨b.drop n, .good⟩) := by
  rw [readFixed, bind_run_ok (readSome_long h), length_take, Nat.min_eq_left h, Nat.sub_self,
    replicate_zero, append_nil]
  rfl

theorem readNat_long (h : n ≤ b.length) :
    (readNat n : Reader Fault _) ⟨b, .good⟩ = .ok (fromLittleEndian (b.take n), ⟨b.drop n, .good⟩) := by
  rw [readNat, bind_run_ok (readSome_long h)]
  rfl

/-- The count that the loop uses: what the file has of it, over what was in the variable. -/
def usedCount (unset : BitVec 32) (file : List Byte) : Nat :=
  fromLittleEndian (countBytes file ++ (littleEndian 4 unset.toNat).drop (countBytes file).length)

def fileVersion (file : List Byte) : Nat := fromLittleEndian ((file.drop 8).take 4)

theorem length_signature : signature.length = 8 := rfl

theorem stillGood_drop :
    (stillGood : Reader Fault _) ⟨file.drop signature.length, .good⟩ = .ok (true, ⟨file.drop 8, .good⟩) := rfl

theorem readHeader_accepted (h : headerAccepted file = true) : readHeader unset ⟨file, .good⟩ =
    .ok (some (usedCount unset file, fileVersion file), ⟨file.drop 16, if 16 ≤ file.length then .good else .fail⟩) := by
  unfold headerAccepted at h
  simp only [Bool.and_eq_true, decide_eq_true_eq] at h
  obtain ⟨⟨h12, hs⟩, hv⟩ := h
  have hl := readFixed_long (b := file) (n := signature.length) (show 8 ≤ file.length by omega)
  have hr := readNat_long (b := file.drop 8) (n := 4) (by rw [length_drop]; omega)
  have hok : failed ⟨(file.drop 8).drop 4, .good⟩ = .ok (false, ⟨file.drop 12, .good⟩) := by
    rw [drop_drop]
    rfl
  have hc : (readSome 4 : Reader Fault _) ⟨file.drop 12, .good⟩ =
      .ok (countBytes file, ⟨file.drop 16, if 16 ≤ file.length then .good else .fail⟩) := by
    by_cases h16 : 16 ≤ file.length
    · rw [readSome_long (by rw [length_drop]; omega), drop_drop, if_pos h16]
      rfl
    · have ha : countBytes file = file.drop 12 := take_of_length_le (by rw [length_drop]; omega)
      rw [readSome_short (by rw [length_drop]; omega), if_neg h16, ha, drop_eq_nil_of_le (i := 16) (by omega)]
  rw [readHeader, bind_run_ok hl, bind_run_ok stillGood_drop, if_neg (by simp [length_signature, hs]),
    bind_run_ok hr, bind_run_ok hok, if_neg (by simp), if_neg (Nat.not_lt.2 hv), bind_run_ok hc]
  rfl

theorem readHeader_rejected (unset) (h : headerAccepted file = false) :
    ∃ s, readHeader unset ⟨file, .good⟩ = .ok (none, s) := by
  unfold headerAccepted at h
  simp only [Bool.and_eq_false_iff, decide_eq_false_iff_not] at h
  by_cases h8 : 8 ≤ file.length
  case neg =>
    have hl := readSome_short (ε := Fault) (b := file) (n := signature.length) (Nat.lt_of_not_le h8)
    have hb : (stillGood : Reader Fault _) ⟨[], .fail⟩ = .ok (false, ⟨[], .fail⟩) := rfl
    refine ⟨⟨[], .fail⟩, ?_⟩
    rw [readHeader, readFixed, bind_assoc, bind_run_ok hl, pure_bind, bind_run_ok hb, if_pos (by simp)]
    rfl
  have hl := readFixed_long (b := file) (n := signature.length) h8
  by_cases hs : file.take 8 = signature
  case neg =>
    refine ⟨⟨file.drop 8, .good⟩, ?_⟩
    rw [readHeader, bind_run_ok hl, bind_run_ok stillGood_drop, if_pos (by simp [length_signature, hs])]
    rfl
  by_cases h12 : 12 ≤ file.length
  · have hv : ¬ fromLittleEndian ((file.drop 8).take 4) ≤ currentVersion := by
      rcases h with (h | h) | h
      · exact absurd h12 h
      · exact absurd hs h
      · exact h
    have hr := readNat_long (b := file.drop 8) (n := 4) (by rw [length_drop]; omega)
    have hok : failed ⟨(file.drop 8).drop 4, .good⟩ = .ok (false, ⟨(file.drop 8).drop 4, .good⟩) := rfl
    refine ⟨⟨(file.drop 8).drop 4, .good⟩, ?_⟩
    rw [readHeader, bind_run_ok hl, bind_run_ok stillGood_drop, if_neg (by simp [length_signature, hs]),
      bind_run_ok hr, bind_run_ok hok, if_neg (by simp), if_pos (Nat.lt_of_not_le hv)]
    rfl
  · have hr := readSome_short (ε := Fault) (b := file.drop 8) (n := 4) (by rw [length_drop]; omega)
    have hb : failed ⟨[], .fail⟩ = .ok (true, ⟨[], .fail⟩) := rfl
    refine ⟨⟨[], .fail⟩, ?_⟩
    rw [readHeader, bind_run_ok hl, bind_run_ok stillGood_drop, if_neg (by simp [length_signature, hs]),
      readNat, bind_assoc, bind_run_ok hr, pure_bind, bind_run_ok hb, if_pos rfl]
    rfl

/-! ## The whole file -/

theorem usedCount_complete (h : 16 ≤ file.length) : usedCount unset file = announced file := by
  have hl : (countBytes file).length = 4 := by
    rw [countBytes, length_take, length_drop]
    omega
  rw [usedCount, hl, drop_eq_nil_of_le (by rw [length_littleEndian]), append_nil, announced]

theorem usedCount_ne_zero {b} (hb : b ∈ countBytes file) (h0 : b ≠ 0) : usedCount unset file ≠ 0 := by
  intro h
  exact h0 (fromLittleEndian_eq_zero.1 h b (mem_append_left _ hb))

theorem usedCount_zero (hb : ∀ b ∈ countBytes file, b = 0) : usedCount 0 file = 0 := by
  rw [usedCount, fromLittleEndian_eq_zero]
  intro b hm
  rcases mem_append.1 hm with hm | hm
  · exact hb b hm
  · have ho : ∀ x ∈ littleEndian 4 (0 : BitVec 32).toNat, x = 0 := by decide
    exact ho b (mem_of_mem_drop hm)

theorem read_rejected (h : headerAccepted file = false) : read unset file = .ok none := by
  obtain ⟨s, hs⟩ := readHeader_rejected unset h
  have : readArchive unset ⟨file, .good⟩ = .ok (none, s) := by
    rw [readArchive, bind_run_ok hs]
    rfl
  exact ok_bind this _

section

variable (h : headerAccepted file = true)
include h

theorem read_accepted {s result}
    (hr : readRecords (usedCount unset file) [] ⟨file.drop 16, if 16 ≤ file.length then .good else .fail⟩ = .ok (result, s)) :
    read unset file = .ok (result.map fun l => ⟨l, BitVec.ofNat 32 (fileVersion file)⟩) := by
  have : readArchive unset ⟨file, .good⟩ = .ok (result.map fun l => ⟨l, BitVec.ofNat 32 (fileVersion file)⟩, s) := by
    rw [readArchive, bind_run_ok (readHeader_accepted h)]
    dsimp only
    rw [bind_run_ok hr]
    cases result <;> rfl
  exact ok_bind this _

theorem read_error {e} (h16 : 16 ≤ file.length)
    (hr : readRecords (announced file) [] ⟨file.drop 16, .good⟩ = .error e) : read unset file = .error e := by
  have : readArchive unset ⟨file, .good⟩ = .error e := by
    rw [readArchive, bind_run_ok (readHeader_accepted h), usedCount_complete h16, if_pos h16]
    exact error_bind hr _
  exact error_bind this _

theorem read_empty (h0 : usedCount unset file = 0) :
    read unset file = .ok (some ⟨[], BitVec.ofNat 32 (fileVersion file)⟩) := by
  have hr : readRecords (usedCount unset file) [] ⟨file.drop 16, if 16 ≤ file.length then .good else .fail⟩ =
      .ok (some [], ⟨file.drop 16, if 16 ≤ file.length then .good else .fail⟩) := by
    rw [h0]
    rfl
  exact read_accepted h hr

/-- With a count that is cut off and not 0, the first record is missing. -/
theorem read_truncated (h16 : ¬ 16 ≤ file.length) (h0 : usedCount unset file ≠ 0) : read unset file = .ok none := by
  obtain ⟨n, hn⟩ := Nat.exists_eq_succ_of_ne_zero h0
  obtain ⟨flat, s, hd, hs⟩ := sticky_readRecord ⟨file.drop 16, .fail⟩ rfl
  have hr : readRecords (usedCount unset file) [] ⟨file.drop 16, if 16 ≤ file.length then .good else .fail⟩ =
      .ok (none, s) := by
    rw [hn, if_neg h16]
    exact readRecords_of_fail hd hs
  exact read_accepted h hr

end

/-- Reading the file returns, does not depend on the unset count, and an archive that is returned has
as many records as the header announces. -/
def Safe (file : List Byte) : Prop :=
  ∃ result, (∀ unset, read unset file = .ok result) ∧
    ∀ archive, result = some archive → records archive.flatList = announced file

/-- What a file must be like for that, if its header is accepted. -/
structure Harmless (file : List Byte) : Prop where
  count : 16 ≤ file.length ∨ ∃ b ∈ countBytes file, b ≠ 0
  ids : lastId ∉ (recordIds (announced file) (file.drop 16)).1
  once : (recordIds (announced file) (file.drop 16)).2 = true → (recordIds (announced file) (file.drop 16)).1.Nodup

theorem safe_complete (h : headerAccepted file = true) (h16 : 16 ≤ file.length) : Safe file ↔ Harmless file := by
  obtain ⟨hlt, hsr, hf⟩ := loopResult (announced file) [] (file.drop 16) (Nat.zero_le _)
  have hd : ∀ {result s},
      readRecords (announced file) [] ⟨file.drop 16, .good⟩ = .ok (result, s) → ∀ unset, read unset file =
        .ok (result.map fun l => ⟨l, BitVec.ofNat 32 (fileVersion file)⟩) := by
    intro result s hr unset
    refine read_accepted (s := s) h ?_
    rwa [usedCount_complete h16, if_pos h16]
  by_cases hm : lastId ∈ (recordIds (announced file) (file.drop 16)).1
  · refine ⟨fun hs => ?_, fun hh => absurd hm hh.ids⟩
    obtain ⟨result, hrs, -⟩ := hs
    have := hrs 0
    rw [read_error h h16 (hlt hm)] at this
    cases this
  · cases ha : (recordIds (announced file) (file.drop 16)).2 with
    | false =>
      obtain ⟨s, hr⟩ := hsr hm ha
      refine ⟨fun _ => ⟨.inl h16, hm, fun h => ?_⟩, fun _ => ⟨none, hd hr, fun _ he => by cases he⟩⟩
      rw [ha] at h
      cases h
    | true =>
      obtain ⟨l', s, hr, -, hif⟩ := hf hm ha
      have hp : records [] = 0 := rfl
      have hn : ∀ i, ¬ Filled [] i := fun i ⟨_, hi⟩ => by cases hi
      simp only [hp, zero_add, hn, not_false_eq_true, implies_true, and_true] at hif
      constructor
      · rintro ⟨result, hrs, hc⟩
        have he := Except.ok.inj ((hrs 0).symm.trans (hd hr 0))
        exact ⟨.inl h16, hm, fun _ => hif.1 (hc _ he)⟩
      · intro hh
        refine ⟨_, hd hr, fun archive he => ?_⟩
        cases he
        exact hif.2 (hh.once ha)

theorem safe_truncated (h : headerAccepted file = true) (h16 : ¬ 16 ≤ file.length) : Safe file ↔ Harmless file := by
  have hi : announced file ≠ 0 → recordIds (announced file) (file.drop 16) = ([], false) := by
    intro h0
    obtain ⟨n, hn⟩ := Nat.exists_eq_succ_of_ne_zero h0
    rw [hn, drop_eq_nil_of_le (by omega)]
    rfl
  by_cases hb : ∃ b ∈ countBytes file, b ≠ 0
  · obtain ⟨b, hm, hne⟩ := hb
    have h0 : announced file ≠ 0 := fun h => hne (fromLittleEndian_eq_zero.1 h b hm)
    refine ⟨fun _ => ⟨.inr ⟨b, hm, hne⟩, ?_, ?_⟩, fun _ => ⟨none, fun unset => ?_, fun _ he => by cases he⟩⟩
    · rw [hi h0]
      exact not_mem_nil
    · rw [hi h0]
      exact fun h => by cases h
    · exact read_truncated h h16 (usedCount_ne_zero hm hne)
  · refine ⟨fun hs => ?_, fun hh => absurd (hh.count.resolve_left h16) hb⟩
    -- all that is there of the count is 0: the result depends on the rest
    push Not at hb
    obtain ⟨result, hr, -⟩ := hs
    have hos : usedCount (BitVec.allOnes 32) file ≠ 0 := by
      intro he
      rw [usedCount, fromLittleEndian_eq_zero] at he
      have hl : (countBytes file).length < 4 := by
        rw [countBytes, length_take, length_drop]
        omega
      have hx : ((littleEndian 4 (BitVec.allOnes 32).toNat).drop (countBytes file).length) ≠ [] := by
        rw [Ne, drop_eq_nil_iff, length_littleEndian]
        omega
      obtain ⟨x, hx⟩ := exists_mem_of_ne_nil _ hx
      have ho : ∀ x ∈ littleEndian 4 (BitVec.allOnes 32).toNat, x ≠ 0 := by decide
      exact ho x (mem_of_mem_drop hx) (he x (mem_append_right _ hx))
    have hsm := (hr 0).symm.trans (read_empty h (usedCount_zero hb))
    have hnn := (hr (BitVec.allOnes 32)).symm.trans (read_truncated h h16 hos)
    rw [hsm] at hnn
    cases hnn

theorem safe_iff_harmless (file) : Safe file ↔ (headerAccepted file = true → Harmless file) := by
  cases h : headerAccepted file with
  | false =>
    constructor
    · intro _ h
      cases h
    · intro _
      refine ⟨none, fun unset => read_rejected h, fun _ he => ?_⟩
      cases he
  | true =>
    rw [forall_prop_of_true rfl]
    by_cases h16 : 16 ≤ file.length
    · exact safe_complete h h16
    · exact safe_truncated h h16

/-! ## Truncated archives -/

theorem recordSize_recordOf (flat) : (recordOf flat).length = recordSize (recordOf flat) := by
  have hs : recordOf flat = ([codeOf flat.type] ++ littleEndian 4 flat.id.toNat ++ littleEndian 4 flat.offset.toNat) ++
      (littleEndian 4 flat.getSize.toNat ++ flat.data.take flat.getSize.toNat) := by
    simp [recordOf, record]
  have hz : ((recordOf flat).drop 9).take 4 = littleEndian 4 flat.getSize.toNat := by
    rw [hs, drop_left' (by simp [length_littleEndian]), take_left' (length_littleEndian ..)]
  rw [length_recordOf, recordSize, hz, from_littleEndian, Nat.mod_eq_of_lt flat.getSize.isLt]

theorem readRecords_cut : ∀ (l done : List FlatChunk), (∀ i (hi : i < l.length), l[i].id.toNat = done.length + i) →
    done.length + l.length < 2 ^ 32 → ∀ q, q <+: (l.map recordOf).flatten → q ≠ (l.map recordOf).flatten →
    ∃ s, readRecords l.length (done.map some) ⟨q, .good⟩ = .ok (none, s)
  | [], _, _, _, q, hq, hne => by
    rw [map_nil, flatten_nil] at hq hne
    exact absurd (prefix_nil.1 hq) hne
  | flat :: l, done, hd, hlt, q, hq, hne => by
    rw [map_cons, flatten_cons] at hq hne
    rw [length_cons] at hlt
    by_cases hc : q <+: recordOf flat ∧ q ≠ recordOf flat
    · obtain ⟨x, s, hr, hs⟩ := starves_record (recordSize_recordOf flat) q hc.1 hc.2
      exact ⟨s, readRecords_of_fail hr hs⟩
    · obtain ⟨t, rfl⟩ : recordOf flat <+: q := by
        rcases prefix_or_prefix_of_prefix hq (prefix_append _ _) with h | h
        · by_cases he : q = recordOf flat
          · exact he ▸ prefix_rfl
          · exact absurd ⟨h, he⟩ hc
        · exact h
      have hid : (stored flat).id.toNat = done.length := hd 0 (by simp)
      have ha := addFlatChunk_next hid (by omega)
      obtain ⟨s, hs⟩ := readRecords_cut l (done ++ [stored flat]) (fun i hi => by
        have := hd (i + 1) (by simpa using hi)
        rw [getElem_cons_succ] at this
        rw [this, length_append, length_singleton]
        omega) (by rw [length_append, length_singleton]; omega) t
        ((prefix_append_right_inj _).1 hq) (fun e => hne (by rw [e]))
      refine ⟨s, ?_⟩
      have hg : failed ⟨t, .good⟩ = .ok (false, ⟨t, .good⟩) := rfl
      rw [length_cons, readRecords, bind_run_ok (parses_readRecord flat t), bind_run_ok hg, if_neg (by simp)]
      rw [ha]
      exact hs

theorem headerAccepted_append (t) : headerAccepted (signature ++ littleEndian 4 currentVersion ++ t) = true := by
  have hv : fromLittleEndian (littleEndian 4 currentVersion) ≤ currentVersion := by decide
  simp only [headerAccepted, Bool.and_eq_true, decide_eq_true_eq]
  refine ⟨⟨?_, ?_⟩, ?_⟩
  · simp [signature, length_littleEndian]
  · rw [append_assoc]
    exact take_left' rfl
  · rw [append_assoc, drop_left' length_signature, take_left' (length_littleEndian ..)]
    exact hv

/-- A prefix of a written archive is rejected if it ends before the count or has a byte of the
count that is not 0, and only then. -/
theorem read_prefix_iff {chunks} (hd : Dense chunks) (hp : p <+: fileOf chunks)
    (hne : p ≠ fileOf chunks) : (∀ unset, read unset p = .ok none) ↔ p.length < 12 ∨ ∃ b ∈ countBytes p, b ≠ 0 := by
  by_cases h12 : p.length < 12
  · refine ⟨fun _ => .inl h12, fun _ unset => read_rejected ?_⟩
    simp [headerAccepted, Nat.not_le.2 h12]
  have hsr : (signature ++ littleEndian 4 currentVersion).length = 12 := by
    simp [signature, length_littleEndian]
  obtain ⟨t, rfl⟩ : signature ++ littleEndian 4 currentVersion <+: p := by
    refine prefix_of_prefix_length_le ?_ hp (by omega)
    rw [fileOf, header, append_assoc]
    exact prefix_append _ _
  have ha := headerAccepted_append t
  have hc : countBytes (signature ++ littleEndian 4 currentVersion ++ t) = t.take 4 := by
    rw [countBytes, drop_left' hsr]
  have ht : t <+: littleEndian 4 chunks.length ++ ((placed chunks).map recordOf).flatten := by
    rw [fileOf, header, append_assoc _ _ (flatten _)] at hp
    exact (prefix_append_right_inj _).1 hp
  constructor
  · intro hnn
    by_contra hzero
    push Not at hzero
    have := hnn 0
    rw [read_empty ha (usedCount_zero hzero.2)] at this
    cases this
  · rintro (h | ⟨b, hb, h0⟩) unset
    · exact absurd h h12
    by_cases h16 : 16 ≤ (signature ++ littleEndian 4 currentVersion ++ t).length
    · -- the count is complete and the records are cut off
      obtain ⟨q, rfl⟩ : littleEndian 4 chunks.length <+: t := by
        refine prefix_of_prefix_length_le (prefix_append _ _) ht ?_
        rw [length_littleEndian]
        rw [length_append, hsr] at h16
        omega
      have hn : announced (signature ++ littleEndian 4 currentVersion ++ (littleEndian 4 chunks.length ++ q)) =
          chunks.length % 2 ^ 32 := by
        rw [announced, hc, take_left' (length_littleEndian ..), from_littleEndian]
      have hlt : chunks.length < 2 ^ 32 := by
        have hle := hd.length_le
        have hps : announced (signature ++ littleEndian 4 currentVersion ++ (littleEndian 4 chunks.length ++ q)) ≠ 0 :=
          fun h => h0 (fromLittleEndian_eq_zero.1 h b hb)
        rw [hn] at hps
        omega
      have hl : (placed chunks).length = chunks.length := length_place ..
      obtain ⟨s, hs⟩ := readRecords_cut (placed chunks) [] (hd.placed) (by rw [hl]; simpa using hlt) q
        ((prefix_append_right_inj _).1 ht) (fun e => hne (by rw [e, fileOf, header]; simp only [append_assoc]))
      have hdp : (signature ++ littleEndian 4 currentVersion ++ (littleEndian 4 chunks.length ++ q)).drop 16 = q := by
        rw [← append_assoc]
        exact drop_left' (by rw [length_append, hsr, length_littleEndian])
      have hr : readRecords (usedCount unset (signature ++ littleEndian 4 currentVersion ++ (littleEndian 4 chunks.length ++ q)))
          [] ⟨(signature ++ littleEndian 4 currentVersion ++ (littleEndian 4 chunks.length ++ q)).drop 16,
            if 16 ≤ (signature ++ littleEndian 4 currentVersion ++ (littleEndian 4 chunks.length ++ q)).length then .good
            else .fail⟩ = .ok (none, s) := by
        rw [usedCount_complete h16, hn, Nat.mod_eq_of_lt hlt, if_pos h16, hdp, ← hl]
        exact hs
      exact read_accepted ha hr
    · exact read_truncated ha h16 (usedCount_ne_zero hb h0)

/-- When reading is safe, and when a strict prefix of a written archive is rejected. -/
theorem read_safe_iff (file : List Byte) : (Safe file ↔ (headerAccepted file = true → Harmless file)) ∧
    ∀ (chunks : List FlatChunk) (version : BitVec 32) (p : List Byte), Dense chunks → chunks ≠ [] →
      write ⟨chunks.map some, version⟩ = .ok file → p <+: file → p ≠ file →
      ((∀ unset, read unset p = .ok none) ↔ p.length < 12 ∨ ∃ b ∈ countBytes p, b ≠ 0) := by
  refine ⟨safe_iff_harmless file, fun chunks version p hd _ hw hp hne => ?_⟩
  obtain ⟨chunks', hcn, rfl⟩ := write_ok hw
  obtain rfl : chunks = chunks' := (map_injective_iff.2 (Option.some_injective _)) hcn
  exact read_prefix_iff hd hp hne

theorem read_safe_iff_module : Safe (fileOf [⟨.module, 0, 0, [1]⟩]) ∧
    ∀ unset, read unset ((fileOf [⟨.module, 0, 0, [1]⟩]).take 29) = .ok none := by
  have hdn : Dense [⟨.module, 0, 0, [1]⟩] := by
    intro i hi
    obtain rfl : i = 0 := by simpa using hi
    rfl
  constructor
  · exact (read_safe_iff _).1.2 fun _ => ⟨.inl (by decide), by decide, by decide⟩
  · exact ((read_safe_iff _).2 [⟨.module, 0, 0, [1]⟩] 24 _ hdn (by decide) (by decide) ( take_prefix ..) (by decide)).2
      (.inr ⟨1, by decide, by decide⟩)

/-- A record with the last ID is stored out of bounds, and a header without its count is taken for an
empty archive or not, by what the unset variable holds. -/
theorem read_unsafe : read 0 (header 1 ++ recordOf ⟨.module, 0xffffffff, 16, []⟩) = .error .outOfBounds ∧
    (fileOf [⟨.module, 0, 0, []⟩]).take 12 <+: fileOf [⟨.module, 0, 0, []⟩] ∧
    read 0 ((fileOf [⟨.module, 0, 0, []⟩]).take 12) = .ok (some ⟨[], 24⟩) ∧
    read 1 ((fileOf [⟨.module, 0, 0, []⟩]).take 12) = .ok none := by
  refine ⟨?_, take_prefix .., ?_, ?_⟩ <;> decide

end Egalito.Archive
