/-
The `.gnu.hash` section (`MakeDynsymHash` in `generate/concrete.cpp`), and the lookup of the dynamic loader.

The table is built for the symbols in bucket order, and the lookup is that of the loader: filter, bucket, chain.
`lookup_finds_iff` says when every hashed name is found at its own index.
-/
import Egalito.Generate.SymbolTable

namespace Egalito

open List

open Lib (Byte Ranked)

namespace Generate

/-! ## The section -/

/-- `bfd_elf_gnu_hash`, computed in 64 bits. -/
def bfdElfGnuHash (name : List Byte) : BitVec 32 :=
  (name.foldl (fun (h : BitVec 64) ch => (h <<< 5) + h + ch.setWidth 64) 5381).setWidth 32

def bucketCount : Nat := 1011

def bucketOf (name : List Byte) : Nat := (bfdElfGnuHash name).toNat % bucketCount

def addToBuckets (bucketList : List (List (List Byte))) (name : List Byte) : List (List (List Byte)) :=
  bucketList.modify (bucketOf name) (· ++ [name])

def fillBuckets (names : List (List Byte)) : List (List (List Byte)) :=
  names.foldl addToBuckets (replicate bucketCount [])

/-- `indexMap`, a later index replacing an earlier one of the same name. -/
def indexFrom : Nat → List (List Byte) → (List Byte → Option Nat) → List Byte → Option Nat
  | _, [], indexMap => indexMap
  | i, name :: names, indexMap => indexFrom (i + 1) names fun n => if n = name then some i else indexMap n

def indexOf (names : List (List Byte)) : List Byte → Option Nat := indexFrom 0 names fun _ => none

structure GnuHashSection where
  nbuckets : BitVec 32
  symoffset : BitVec 32
  bloomSize : BitVec 32
  bloomShift : BitVec 32
  bloomList : List (BitVec 64)
  buckets : List (BitVec 32)
  chain : List (BitVec 32)

def bucketWords : Nat → List (List (List Byte)) → List (BitVec 32)
  | _, [] => []
  | symIndex, bucket :: bucketList =>
    (if bucket = [] then 0 else BitVec.ofNat 32 symIndex) :: bucketWords (symIndex + bucket.length) bucketList

def chainWord (bucket : List (List Byte)) (name : List Byte) : BitVec 32 :=
  (bfdElfGnuHash name &&& ~~~1) + if bucket.getLast? = some name then 1 else 0

def chainWords (bucketList : List (List (List Byte))) : List (BitVec 32) :=
  (bucketList.map fun bucket => bucket.map (chainWord bucket)).flatten

namespace SymbolTableContent

/-- The symbols before the first one with a value. -/
def unhashed (t : SymbolTableContent) : List Entry := t.entries.takeWhile fun e => e.st_value = 0

/-- The symbols from the first one with a value on. -/
def hashed (t : SymbolTableContent) : List Entry := t.entries.dropWhile fun e => e.st_value = 0

def hashedNames (t : SymbolTableContent) : List (List Byte) := t.hashed.map t.nameOf

def bucketList (t : SymbolTableContent) : List (List (List Byte)) := fillBuckets t.hashedNames

/-- The names in the order of the chain. -/
def chainNames (t : SymbolTableContent) : List (List Byte) := t.bucketList.flatten

/-- `setTableIndex`, by the name of the key. -/
def relabel (t : SymbolTableContent) (e : Entry) : Entry :=
  match indexOf t.chainNames e.key.getName.bytes with
  | some i => { e with key := { e.key with tableIndex := i } }
  | none => e

def gnuHash (t : SymbolTableContent) : GnuHashSection where
  nbuckets := BitVec.ofNat 32 bucketCount
  symoffset := BitVec.ofNat 32 t.unhashed.length
  bloomSize := 0x100
  bloomShift := 5
  bloomList := replicate 0x100 (-1)
  buckets := bucketWords t.unhashed.length t.bucketList
  chain := chainWords t.bucketList

def resorted (t : SymbolTableContent) : SymbolTableContent :=
  { t with entries := Lib.insertAll Entry.less (t.entries.map t.relabel) }

def execute (t : SymbolTableContent) : GnuHashSection × SymbolTableContent := (t.gnuHash, t.resorted)

def nameAt (t : SymbolTableContent) (i : Nat) : Option (List Byte) := t.entries[i]?.map t.nameOf

/-- The walk along the chain words, `i` being the symbol of the first one. -/
def walk (t : SymbolTableContent) (name : List Byte) : Nat → List (BitVec 32) → Option Nat
  | _, [] => none
  | i, word :: chain =>
    if (word ||| 1) = (bfdElfGnuHash name ||| 1) ∧ t.nameAt i = some name then some i
    else if word &&& 1 = 1 then none
    else walk t name (i + 1) chain

end SymbolTableContent

/-- The two bits that the Bloom filter must have for a hash. -/
def GnuHashSection.mayContain (g : GnuHashSection) (h : BitVec 32) : Bool :=
  match g.bloomList[(h.toNat / 64) % g.bloomSize.toNat]? with
  | none => false
  | some word => word.getLsbD (h.toNat % 64) && word.getLsbD ((h >>> g.bloomShift.toNat).toNat % 64)

def GnuHashSection.lookup (g : GnuHashSection) (t : SymbolTableContent) (name : List Byte) : Option Nat :=
  let h := bfdElfGnuHash name
  if g.mayContain h then
    match g.buckets[h.toNat % g.nbuckets.toNat]? with
    | none => none
    | some start =>
      if start = 0 then none else t.walk name start.toNat (g.chain.drop (start.toNat - g.symoffset.toNat))
  else none

/-! ## Buckets -/

theorem bucketOf_lt (name) : bucketOf name < bucketCount := Nat.mod_lt _ (by decide)

theorem getElem?_foldl_addToBuckets (b) : ∀ (names : List (List Byte)) (bucketList : List (List (List Byte))),
    (names.foldl addToBuckets bucketList)[b]? =
      bucketList[b]?.map fun bucket => bucket ++ names.filter fun name => bucketOf name = b
  | [], bucketList => by simp
  | name :: names, bucketList => by
    rw [foldl_cons, getElem?_foldl_addToBuckets b names, addToBuckets, getElem?_modify]
    by_cases hb : bucketOf name = b
    · simp [hb, Function.comp_def]
    · simp [hb]

theorem getElem?_fillBuckets (names) {b} (hb : b < bucketCount) :
    (fillBuckets names)[b]? = some (names.filter fun name => bucketOf name = b) := by
  rw [fillBuckets, getElem?_foldl_addToBuckets, getElem?_replicate, if_pos hb]
  simp

theorem flatten_modify_perm (name) : ∀ (bucketList : List (List (List Byte))) (b : Nat),
    b < bucketList.length → (bucketList.modify b (· ++ [name])).flatten.Perm (name :: bucketList.flatten)
  | bucket :: bucketList, 0, _ => by
    rw [modify_zero_cons, flatten_cons, flatten_cons, append_assoc]
    exact perm_middle
  | bucket :: bucketList, b + 1, hb => by
    rw [modify_succ_cons, flatten_cons, flatten_cons]
    have ih := flatten_modify_perm name bucketList b (by simpa using hb)
    exact (ih.append_left bucket).trans perm_middle

theorem flatten_foldl_perm : ∀ (names : List (List Byte)) (bucketList : List (List (List Byte))),
    bucketList.length = bucketCount → (names.foldl addToBuckets bucketList).flatten.Perm (names ++ bucketList.flatten)
  | [], _, _ => List.Perm.refl _
  | name :: names, bucketList, hl => by
    have hs := flatten_modify_perm name bucketList (bucketOf name) (hl ▸ bucketOf_lt name)
    have ih := flatten_foldl_perm names (addToBuckets bucketList name) (by rw [addToBuckets, length_modify, hl])
    exact ih.trans ((hs.append_left names).trans perm_middle)

/-- Every hashed name is in the chain once for each symbol that has it. -/
theorem flatten_fillBuckets_perm (names) : (fillBuckets names).flatten.Perm names := by
  have h := flatten_foldl_perm names (replicate bucketCount []) length_replicate
  rw [flatten_replicate_nil, append_nil] at h
  exact h

variable {name : List Byte} {k : Nat} {names bucket : List (List Byte)}

theorem indexFrom_of_notMem : ∀ {names i indexMap}, name ∉ names → indexFrom i names indexMap name = indexMap name
  | [], _, _, _ => rfl
  | n :: names, i, indexMap, h => by
    obtain ⟨hne, hn⟩ := not_or.1 (mt mem_cons.2 h)
    rw [indexFrom, indexFrom_of_notMem hn, if_neg hne]

theorem indexFrom_getElem : ∀ {names i indexMap},
    names.Nodup → ∀ {k} hk, indexFrom i names indexMap names[k] = some (i + k)
  | n :: names, i, indexMap, hnd, 0, _ => by
    rw [indexFrom, getElem_cons_zero, indexFrom_of_notMem (nodup_cons.1 hnd).1, if_pos rfl]
    rfl
  | n :: names, i, indexMap, hnd, k + 1, hk => by
    rw [indexFrom, getElem_cons_succ, indexFrom_getElem (nodup_cons.1 hnd).2 (by simpa using hk)]
    congr 1
    omega

theorem indexOf_getElem (hnd : names.Nodup) (hk : k < names.length) : indexOf names names[k] = some k := by
  rw [indexOf, indexFrom_getElem hnd hk, zero_add]

theorem indexOf_eq_none (h : name ∉ names) : indexOf names name = none :=
  indexFrom_of_notMem h

/-! ## The words -/

theorem getElem?_bucketWords : ∀ {bucketList symIndex b bucket}, bucketList[b]? = some bucket → bucket ≠ [] →
    (bucketWords symIndex bucketList)[b]? = some (BitVec.ofNat 32 (symIndex + (bucketList.take b).flatten.length))
  | first :: bucketList, symIndex, 0, bucket, hg, hne => by
    rw [getElem?_cons_zero, Option.some.injEq] at hg
    rw [bucketWords, getElem?_cons_zero, hg, if_neg hne]
    simp
  | first :: bucketList, symIndex, b + 1, bucket, hg, hne => by
    rw [getElem?_cons_succ] at hg
    rw [bucketWords, getElem?_cons_succ, getElem?_bucketWords hg hne, take_succ_cons, flatten_cons,
      length_append, add_assoc]

theorem length_chainWords (bucketList) : (chainWords bucketList).length = bucketList.flatten.length := by
  rw [chainWords, length_flatten, length_flatten, map_map]
  simp [Function.comp_def]

theorem chainWords_append (l l') : chainWords (l ++ l') = chainWords l ++ chainWords l' := by
  simp [chainWords]

theorem drop_chainWords {bucketList b} (hg : bucketList[b]? = some bucket) :
    ∃ rest, (chainWords bucketList).drop (bucketList.take b).flatten.length = bucket.map (chainWord bucket) ++ rest := by
  obtain ⟨hb, rfl⟩ := List.getElem?_eq_some_iff.1 hg
  have hlt : bucketList = bucketList.take b ++ bucketList[b] :: bucketList.drop (b + 1) := by
    rw [← drop_eq_getElem_cons hb, take_append_drop]
  have hs := (congrArg chainWords hlt).trans (chainWords_append ..)
  rw [hs, ← length_chainWords, drop_left]
  exact ⟨_, rfl⟩

theorem and_not_and (h m : BitVec 32) : (h &&& ~~~m) &&& m = 0#32 := by
  simp [BitVec.and_assoc]

theorem and_not_or (h m : BitVec 32) : (h &&& ~~~m) ||| m = h ||| m := by
  ext i hi
  simp only [BitVec.getElem_or, BitVec.getElem_and, BitVec.getElem_not]
  cases h[i] <;> cases m[i] <;> rfl

theorem chainWord_of_ne (h : bucket.getLast? ≠ some name) : chainWord bucket name = bfdElfGnuHash name &&& ~~~1 := by
  unfold chainWord
  rw [if_neg h]
  exact BitVec.add_zero _

theorem chainWord_of_last (h : bucket.getLast? = some name) : chainWord bucket name = bfdElfGnuHash name ||| 1 := by
  unfold chainWord
  rw [if_pos h, BitVec.add_eq_or_of_and_eq_zero _ _ (and_not_and _ 1), and_not_or]

theorem chainWord_or_one (bucket name) : chainWord bucket name ||| 1 = bfdElfGnuHash name ||| 1 := by
  by_cases h : bucket.getLast? = some name
  · rw [chainWord_of_last h, BitVec.or_assoc, BitVec.or_self]
  · rw [chainWord_of_ne h, and_not_or]

theorem chainWord_and_one (h : bucket.getLast? ≠ some name) : chainWord bucket name &&& 1 ≠ 1 := by
  rw [chainWord_of_ne h, and_not_and]
  decide

/-! ## The new order -/

def Entry.unindexed (e : Entry) : Entry := { e with key := { e.key with tableIndex := 0 } }

namespace SymbolTableContent

/-- The offsets and the indices fit their 32-bit fields. -/
structure Fits (t : SymbolTableContent) : Prop where
  names : t.strtab.length < 2 ^ 32
  symbols : t.entries.length < 2 ^ 32

variable {t : SymbolTableContent} {e s : Entry}

theorem unhashed_append_hashed (t : SymbolTableContent) : t.unhashed ++ t.hashed = t.entries :=
  takeWhile_append_dropWhile

theorem mem_of_unhashed (h : e ∈ t.unhashed) : e ∈ t.entries := takeWhile_subset _ h

theorem mem_of_hashed (h : e ∈ t.hashed) : e ∈ t.entries := (dropWhile_suffix _).subset h

theorem chainNames_perm (t : SymbolTableContent) : t.chainNames.Perm t.hashedNames := flatten_fillBuckets_perm _

theorem relabel_eq (t : SymbolTableContent) (e : Entry) : t.relabel e =
    { e with key := { e.key with tableIndex := (indexOf t.chainNames e.key.getName.bytes).getD e.key.tableIndex } } := by
  unfold relabel
  cases indexOf t.chainNames e.key.getName.bytes <;> rfl

theorem nameOf_relabel (e : Entry) : t.nameOf (t.relabel e) = t.nameOf e := by
  rw [relabel_eq]
  rfl

theorem WellFormed.unindexed_relabel (h : t.WellFormed) (he : e ∈ t.entries) : (t.relabel e).unindexed = e := by
  have hi := (h.entryOk e he).unindexed
  rw [relabel_eq, Entry.unindexed]
  obtain ⟨⟨type, sym, tableIndex⟩, st_name, st_value⟩ := e
  cases hi
  rfl

/-- What decides between two entries of one index. -/
theorem rank_lt_iff (e s : Entry) : e.rank < s.rank ↔ e.key.tableIndex < s.key.tableIndex ∨
    e.key.tableIndex = s.key.tableIndex ∧ e.unindexed.rank < s.unindexed.rank := by
  unfold Entry.rank SymbolInTable.rank Entry.unindexed
  simp [Prod.Lex.toLex_lt_toLex]

theorem rank_unindexed (h : e.rank = s.rank) : e.unindexed.rank = s.unindexed.rank := by
  unfold Entry.rank SymbolInTable.rank Entry.unindexed at *
  simp_all

theorem WellFormed.rank_relabel_lt (h : t.WellFormed) (he : e ∈ t.entries) (hs : s ∈ t.entries) :
    (t.relabel e).rank < (t.relabel s).rank ↔ (t.relabel e).key.tableIndex < (t.relabel s).key.tableIndex ∨
      (t.relabel e).key.tableIndex = (t.relabel s).key.tableIndex ∧ e.rank < s.rank := by
  rw [rank_lt_iff, h.unindexed_relabel he, h.unindexed_relabel hs]

theorem WellFormed.resorted_spec (h : t.WellFormed) :
    Ranked Entry.rank t.resorted.entries ∧ t.resorted.entries.Perm (t.entries.map t.relabel) := by
  apply Lib.insertAll_spec Entry.less_iff
  rw [pairwise_map]
  refine h.sorted.imp_of_mem fun {a b} ha hb hlt heq => ?_
  have hr := rank_unindexed heq
  rw [h.unindexed_relabel ha, h.unindexed_relabel hb] at hr
  exact hlt.ne hr

/-- The number of entries that come before `s` in the new order. -/
def place (t : SymbolTableContent) (s : Entry) : Nat :=
  t.entries.countP fun e => decide ((t.relabel e).rank < (t.relabel s).rank)

section

variable (h : t.WellFormed)
include h

theorem WellFormed.getElem?_place (hs : s ∈ t.entries) : t.resorted.entries[t.place s]? = some (t.relabel s) := by
  obtain ⟨hr, hm⟩ := h.resorted_spec
  have hp := hr.getElem?_countP hm (mem_map_of_mem hs)
  rw [countP_map] at hp
  exact hp

theorem WellFormed.eq_place (hs : s ∈ t.entries) {i} (hi : t.resorted.entries[i]?.map Entry.unindexed = some s) :
    i = t.place s := by
  obtain ⟨hr, hm⟩ := h.resorted_spec
  obtain ⟨x, hx, hxs⟩ := Option.map_eq_some_iff.1 hi
  obtain ⟨y, hy, rfl⟩ := mem_map.1 (hm.mem_iff.1 (mem_of_getElem? hx))
  rw [h.unindexed_relabel hy] at hxs
  subst hxs
  have hp := h.getElem?_place hs
  obtain ⟨hlt, hg⟩ := List.getElem?_eq_some_iff.1 hx
  obtain ⟨hl', hg'⟩ := List.getElem?_eq_some_iff.1 hp
  exact (hr.nodup.getElem_inj_iff).1 (hg.trans hg'.symm)

/-- Null and section symbols are never hashed: they come first and have no value. -/
theorem WellFormed.type_of_hashed (he : e ∈ t.hashed) : 1 < e.key.type.ctorIdx := by
  have hs : Ranked Entry.rank t.hashed := h.sorted.sublist (dropWhile_suffix _).sublist
  have hv : ∀ x ∈ t.hashed.head?, x.st_value ≠ 0 := by
    intro x hx
    have hn := head?_dropWhile_not (fun e : Entry => decide (e.st_value = 0)) t.entries
    unfold hashed at hx
    rw [hx] at hn
    simpa using hn
  cases hl : t.hashed with
  | nil => simp [hl] at he
  | cons first rest =>
    have hf : first ∈ t.hashed := by simp [hl]
    have ht : 1 < first.key.type.ctorIdx := by
      by_contra hle
      exact hv first (by simp [hl]) ((h.entryOk first (mem_of_hashed hf)).unplaced (not_lt.1 hle))
    rw [hl] at he hs
    rcases mem_cons.1 he with rfl | hr
    · exact ht
    · have hlt := (pairwise_cons.1 hs).1 e hr
      have hin : e ∈ t.entries := mem_of_hashed (by simp [hl, hr])
      have h0 := (h.entryOk first (mem_of_hashed hf)).unindexed
      have h0' := (h.entryOk e hin).unindexed
      unfold Entry.rank SymbolInTable.rank at hlt
      simp only [Prod.Lex.toLex_lt_toLex, h0, h0', lt_irrefl, true_and, false_or] at hlt
      omega

theorem WellFormed.nameOf_hashed (hfs : t.Fits) (he : e ∈ t.hashed) : t.nameOf e = e.key.getName.bytes :=
  h.nameOf_eq hfs.names (mem_of_hashed he) (h.type_of_hashed he)

end

end SymbolTableContent

/-! ## The first name of the chain -/

/-- The name is in the least bucket that is used, and before the other names of it. -/
def IsFirst (names : List (List Byte)) (name : List Byte) : Prop :=
  (∀ n ∈ names, bucketOf name ≤ bucketOf n) ∧ names.find? (fun n => bucketOf n = bucketOf name) = some name

instance (names : List (List Byte)) (name : List Byte) : Decidable (IsFirst names name) :=
  inferInstanceAs (Decidable (_ ∧ _))

theorem IsFirst.head?_flatten (h : IsFirst names name) : (fillBuckets names).flatten.head? = some name := by
  obtain ⟨hlt, hf⟩ := h
  have hg := getElem?_fillBuckets names (bucketOf_lt name)
  obtain ⟨hb, hc⟩ := List.getElem?_eq_some_iff.1 hg
  -- the buckets below are empty
  have hl : ((fillBuckets names).take (bucketOf name)).flatten = [] := by
    rw [flatten_eq_nil_iff]
    intro bucket hm
    obtain ⟨i, hi, rfl⟩ := mem_iff_getElem.1 hm
    rw [length_take] at hi
    have hi' := getElem?_fillBuckets names (lt_trans (lt_of_lt_of_le hi (Nat.min_le_left ..)) (bucketOf_lt name))
    rw [getElem_take, (List.getElem?_eq_some_iff.1 hi').2, filter_eq_nil_iff]
    intro n hn
    have := hlt n hn
    rw [decide_eq_true_eq]
    omega
  rw [← take_append_drop (bucketOf name) (fillBuckets names), flatten_append, hl, nil_append,
    drop_eq_getElem_cons hb, flatten_cons, hc, head?_append, head?_filter, hf]
  rfl

theorem exists_isFirst (h : names ≠ []) : ∃ name ∈ names, IsFirst names name := by
  have hu : ∃ b, ∃ n ∈ names, bucketOf n = b := by
    obtain ⟨n, hn⟩ := exists_mem_of_ne_nil names h
    exact ⟨_, n, hn, rfl⟩
  classical
  obtain ⟨n, hn, hb⟩ := Nat.find_spec hu
  have hs : (names.find? fun n => bucketOf n = Nat.find hu).isSome := by
    rw [find?_isSome]
    exact ⟨n, hn, by simpa using hb⟩
  obtain ⟨name, hm⟩ := Option.isSome_iff_exists.1 hs
  have hc : bucketOf name = Nat.find hu := by simpa using find?_some hm
  refine ⟨name, mem_of_find?_eq_some hm, fun n' hn' => ?_, ?_⟩
  · rw [hc]
    exact Nat.find_min' hu ⟨n', hn', rfl⟩
  · rw [hc]
    exact hm

theorem head?_flatten_iff : (fillBuckets names).flatten.head? = some name ↔ IsFirst names name := by
  constructor
  · intro hh
    have hne : names ≠ [] := by
      rintro rfl
      have hn := (flatten_fillBuckets_perm []).eq_nil
      rw [hn] at hh
      cases hh
    obtain ⟨first, -, hf⟩ := exists_isFirst hne
    rw [hf.head?_flatten, Option.some.injEq] at hh
    exact hh ▸ hf
  · exact IsFirst.head?_flatten

namespace SymbolTableContent

variable {t : SymbolTableContent} {e s : Entry}

/-! ## When the three tables agree -/

/-- The condition on the table before. -/
structure Aligned (t : SymbolTableContent) : Prop where
  distinct : t.hashedNames.Nodup
  unmoved : ∀ e ∈ t.unhashed, e.key.getName.bytes ∈ t.hashedNames → IsFirst t.hashedNames e.key.getName.bytes
  preceded : t.hashed ≠ [] → t.unhashed ≠ []

theorem tableIndex_relabel (hnd : t.hashedNames.Nodup) (hk : t.chainNames[k]? = some e.key.getName.bytes) :
    (t.relabel e).key.tableIndex = k := by
  obtain ⟨hlt, hg⟩ := List.getElem?_eq_some_iff.1 hk
  rw [relabel_eq, ← hg, indexOf_getElem (t.chainNames_perm.nodup_iff.2 hnd) hlt]
  rfl

theorem WellFormed.tableIndex_unhashed (h : t.WellFormed) (ha : t.Aligned) (he : e ∈ t.unhashed) :
    (t.relabel e).key.tableIndex = 0 := by
  by_cases hn : e.key.getName.bytes ∈ t.hashedNames
  · have hh := (ha.unmoved e he hn).head?_flatten
    rw [head?_eq_getElem?] at hh
    exact tableIndex_relabel ha.distinct hh
  · rw [relabel_eq, indexOf_eq_none (mt t.chainNames_perm.mem_iff.1 hn)]
    exact (h.entryOk e (mem_of_unhashed he)).unindexed

theorem exists_chain (he : e ∈ t.hashed) : ∃ k : Nat, t.chainNames[k]? = some (t.nameOf e) := by
  have hm : t.nameOf e ∈ t.chainNames := t.chainNames_perm.mem_iff.2 (mem_map_of_mem he)
  exact mem_iff_getElem?.1 hm

theorem WellFormed.rank_hashed_lt (h : t.WellFormed) (hfs : t.Fits) (hnd : t.hashedNames.Nodup) {j}
    (he : e ∈ t.hashed) (hs : s ∈ t.hashed) (hj : t.chainNames[j]? = some (t.nameOf e))
    (hk : t.chainNames[k]? = some (t.nameOf s)) : (t.relabel e).rank < (t.relabel s).rank ↔ j < k := by
  have hin := tableIndex_relabel hnd (h.nameOf_hashed hfs he ▸ hj)
  have hi := tableIndex_relabel hnd (h.nameOf_hashed hfs hs ▸ hk)
  rw [h.rank_relabel_lt (mem_of_hashed he) (mem_of_hashed hs), hin, hi]
  constructor
  · rintro (hlt | ⟨rfl, hlt⟩)
    · exact hlt
    · have hm := inj_on_of_nodup_map hnd he hs (Option.some.inj (hj.symm.trans hk))
      exact absurd (hm ▸ hlt) (lt_irrefl _)
  · exact .inl

/-- The hashed symbols before one of them are as many as the names before it in the chain. -/
theorem WellFormed.countP_hashed (h : t.WellFormed) (hfs : t.Fits) (hnd : t.hashedNames.Nodup) (hs : s ∈ t.hashed)
    (hk : t.chainNames[k]? = some (t.nameOf s)) :
    t.hashed.countP (fun e => decide ((t.relabel e).rank < (t.relabel s).rank)) = k := by
  have hc : t.chainNames.Nodup := t.chainNames_perm.nodup_iff.2 hnd
  have hr : Ranked (fun n => t.chainNames.idxOf n) t.chainNames := by
    refine pairwise_iff_getElem.2 fun i j hi hj hij => ?_
    show t.chainNames.idxOf t.chainNames[i] < t.chainNames.idxOf t.chainNames[j]
    rw [hc.idxOf_getElem i hi, hc.idxOf_getElem j hj]
    exact hij
  obtain ⟨hlt, hgt⟩ := List.getElem?_eq_some_iff.1 hk
  have ht := hr.countP_lt hlt
  rw [t.chainNames_perm.countP_eq, hashedNames, countP_map, hc.idxOf_getElem k hlt] at ht
  rw [← ht]
  refine countP_congr fun e he => ?_
  obtain ⟨j, hj⟩ := exists_chain he
  obtain ⟨hjt, hg⟩ := List.getElem?_eq_some_iff.1 hj
  have hx := hg ▸ hc.idxOf_getElem j hjt
  simp only [decide_eq_true_eq, Function.comp_apply, hx]
  exact h.rank_hashed_lt hfs hnd he hs hj hk

theorem place_eq_add (t : SymbolTableContent) (s : Entry) : t.place s =
    t.unhashed.countP (fun e => decide ((t.relabel e).rank < (t.relabel s).rank)) +
      t.hashed.countP (fun e => decide ((t.relabel e).rank < (t.relabel s).rank)) := by
  rw [place, ← t.unhashed_append_hashed, countP_append]

/-- So in an aligned table a symbol is where the chain has its word. -/
theorem WellFormed.place_hashed (h : t.WellFormed) (hfs : t.Fits) (ha : t.Aligned) (hs : s ∈ t.hashed)
    (hk : t.chainNames[k]? = some (t.nameOf s)) : t.place s = t.unhashed.length + k := by
  have hi : (t.relabel s).key.tableIndex = k := tableIndex_relabel ha.distinct (h.nameOf_hashed hfs hs ▸ hk)
  have hl : ∀ e ∈ t.unhashed, decide ((t.relabel e).rank < (t.relabel s).rank) = true := by
    intro e he
    have hb : e.rank < s.rank := by
      have hr := h.sorted
      rw [← t.unhashed_append_hashed] at hr
      exact (pairwise_append.1 hr).2.2 e he s hs
    rw [decide_eq_true_eq, h.rank_relabel_lt (mem_of_unhashed he) (mem_of_hashed hs), h.tableIndex_unhashed ha he, hi]
    rcases Nat.eq_zero_or_pos k with rfl | hp
    · exact .inr ⟨rfl, hb⟩
    · exact .inl hp
  rw [place_eq_add, countP_eq_length.2 hl, h.countP_hashed hfs ha.distinct hs hk]

theorem WellFormed.nameAt_chain (h : t.WellFormed) (hfs : t.Fits) (ha : t.Aligned) (hk : t.chainNames[k]? = some name) :
    t.resorted.nameAt (t.unhashed.length + k) = some name := by
  obtain ⟨s, hs, rfl⟩ := mem_map.1 (t.chainNames_perm.mem_iff.1 (mem_of_getElem? hk))
  rw [nameAt, ← h.place_hashed hfs ha hs hk, h.getElem?_place (mem_of_hashed hs)]
  exact congrArg some (nameOf_relabel s)

theorem walk_ge : ∀ {chain i j}, t.walk name i chain = some j → i ≤ j
  | [], _, _, h => by cases h
  | word :: chain, i, j, h => by
    unfold walk at h
    split at h
    · exact (Option.some.inj h).le
    · split at h
      · cases h
      · exact Nat.le_of_succ_le (walk_ge h)

theorem walk_finds {after rest} : ∀ {before i}, (∀ {j n}, (before ++ [name])[j]? = some n → t.nameAt (i + j) = some n) →
    name ∉ before → (∀ n ∈ before, bucket.getLast? ≠ some n) →
    t.walk name i ((before ++ name :: after).map (chainWord bucket) ++ rest) = some (i + before.length)
  | [], i, hnm, _, _ => by
    have hh := hnm (j := 0) rfl
    rw [nil_append, map_cons, cons_append, walk, if_pos ⟨chainWord_or_one bucket name, hh⟩]
    rfl
  | n :: before, i, hnm, hn, hlt => by
    obtain ⟨hne, hn⟩ := not_or.1 (mt mem_cons.2 hn)
    have hh := hnm (j := 0) rfl
    have hs : ¬ ((chainWord bucket n ||| 1) = (bfdElfGnuHash name ||| 1) ∧ t.nameAt i = some name) := by
      rintro ⟨-, heq⟩
      exact hne (Option.some.inj (heq.symm.trans hh))
    have ht : ∀ {j m}, (before ++ [name])[j]? = some m → t.nameAt (i + 1 + j) = some m := by
      intro j m hj
      rw [add_assoc, add_comm 1 j]
      exact hnm (j := j + 1) hj
    rw [cons_append, map_cons, cons_append, walk, if_neg hs,
      if_neg (chainWord_and_one (hlt n mem_cons_self)),
      walk_finds ht hn fun m hm => hlt m (mem_cons_of_mem _ hm), length_cons]
    congr 1
    omega

/-! ## The lookup -/

theorem mayContain_gnuHash (t : SymbolTableContent) (h : BitVec 32) : t.gnuHash.mayContain h = true := by
  have hw : t.gnuHash.bloomList[(h.toNat / 64) % t.gnuHash.bloomSize.toNat]? = some (-1) := by
    have hlt : (h.toNat / 64) % (0x100 : BitVec 32).toNat < 0x100 := Nat.mod_lt _ (by decide)
    exact (getElem?_replicate ..).trans (if_pos hlt)
  have ho : ∀ i, i < 64 → (-1 : BitVec 64).getLsbD i = true := by decide
  unfold GnuHashSection.mayContain
  rw [hw]
  simp only [Bool.and_eq_true]
  exact ⟨ho _ (Nat.mod_lt _ (by decide)), ho _ (Nat.mod_lt _ (by decide))⟩

/-- The names in the buckets before the one of `name`. -/
def offsetOf (t : SymbolTableContent) (name : List Byte) : Nat := (t.bucketList.take (bucketOf name)).flatten.length

def bucketFor (t : SymbolTableContent) (name : List Byte) : List (List Byte) :=
  t.hashedNames.filter fun n => bucketOf n = bucketOf name

theorem getElem?_bucketList (t : SymbolTableContent) (name : List Byte) :
    t.bucketList[bucketOf name]? = some (t.bucketFor name) := getElem?_fillBuckets _ (bucketOf_lt name)

theorem mem_bucketFor (h : name ∈ t.hashedNames) : name ∈ t.bucketFor name :=
  mem_filter.2 ⟨h, by simp⟩

theorem chainNames_split (t : SymbolTableContent) (name : List Byte) : ∃ pre post,
    t.chainNames = pre ++ (t.bucketFor name ++ post) ∧ pre.length = t.offsetOf name := by
  obtain ⟨hb, hc⟩ := List.getElem?_eq_some_iff.1 (t.getElem?_bucketList name)
  refine ⟨(t.bucketList.take (bucketOf name)).flatten, (t.bucketList.drop (bucketOf name + 1)).flatten, ?_, rfl⟩
  rw [← hc, ← flatten_cons, ← drop_eq_getElem_cons hb, ← flatten_append, take_append_drop]
  rfl

theorem length_chainNames (t : SymbolTableContent) : t.unhashed.length + t.chainNames.length = t.entries.length := by
  rw [t.chainNames_perm.length_eq, hashedNames, length_map, ← length_append, t.unhashed_append_hashed]

/-- The lookup of a hashed name walks the words of its bucket, unless the bucket word is the zero of
an empty bucket. -/
theorem lookup_eq (hfs : t.Fits) (hn : name ∈ t.hashedNames) (t' : SymbolTableContent) :
    ∃ rest, t.gnuHash.lookup t' name = if t.unhashed.length + t.offsetOf name = 0 then none
      else t'.walk name (t.unhashed.length + t.offsetOf name)
        ((t.bucketFor name).map (chainWord (t.bucketFor name)) ++ rest) := by
  have hy := hfs.symbols
  have hl := t.length_chainNames
  obtain ⟨pre, post, hsl, hb⟩ := t.chainNames_split name
  have hs : t.unhashed.length + t.offsetOf name < 2 ^ 32 := by
    rw [hsl, length_append] at hl
    omega
  have ho : t.unhashed.length < 2 ^ 32 := by omega
  have hg := t.getElem?_bucketList name
  obtain ⟨rest, hr⟩ := drop_chainWords hg
  have hw : t.gnuHash.buckets[(bfdElfGnuHash name).toNat % t.gnuHash.nbuckets.toNat]? =
      some (BitVec.ofNat 32 (t.unhashed.length + t.offsetOf name)) :=
    getElem?_bucketWords hg (ne_nil_of_mem (mem_bucketFor hn))
  have hz : BitVec.ofNat 32 (t.unhashed.length + t.offsetOf name) = 0 ↔ t.unhashed.length + t.offsetOf name = 0 := by
    rw [← BitVec.toNat_inj, BitVec.toNat_ofNat, Nat.mod_eq_of_lt hs]
    rfl
  have hm : t.gnuHash.symoffset.toNat = t.unhashed.length := by
    show (BitVec.ofNat 32 t.unhashed.length).toNat = _
    rw [BitVec.toNat_ofNat, Nat.mod_eq_of_lt ho]
  refine ⟨rest, ?_⟩
  unfold GnuHashSection.lookup
  simp only [mayContain_gnuHash, if_true, hw, hz]
  rw [BitVec.toNat_ofNat, Nat.mod_eq_of_lt hs, hm, Nat.add_sub_cancel_left]
  exact congrArg _ (congrArg _ hr)

/-- The loader finds every hashed symbol under its name. -/
def Finds (t : SymbolTableContent) : Prop :=
  ∀ e ∈ t.hashed, e.st_value ≠ 0 → ∃ i, t.execute.1.lookup t.execute.2 (t.nameOf e) = some i ∧
    t.execute.2.entries[i]?.map Entry.unindexed = some e

theorem bucketFor_split (hnd : t.hashedNames.Nodup) (hm : name ∈ t.hashedNames) :
    ∃ pre after, t.bucketFor name = pre ++ name :: after ∧ name ∉ pre ∧
      ∀ n ∈ pre, (t.bucketFor name).getLast? ≠ some n := by
  obtain ⟨pre, after, hs⟩ := append_of_mem (mem_bucketFor hm)
  have hb : (pre ++ name :: after).Nodup := hs ▸ hnd.filter _
  have hd : ∀ n ∈ pre, n ∉ name :: after := fun n hn hn' => (nodup_append.1 hb).2.2 n hn n hn' rfl
  refine ⟨pre, after, hs, fun hin => hd name hin mem_cons_self, fun n hn hlt => ?_⟩
  rw [hs, getLast?_append_of_ne_nil _ (cons_ne_nil _ _)] at hlt
  exact hd n hn (mem_of_getLast? hlt)

theorem WellFormed.finds_of_aligned (h : t.WellFormed) (hfs : t.Fits) (ha : t.Aligned) : t.Finds := by
  intro e he _
  have hm : t.nameOf e ∈ t.hashedNames := mem_map_of_mem he
  obtain ⟨rest, hlp⟩ := t.lookup_eq hfs hm t.resorted
  obtain ⟨pre, post, hs, hn, hlt⟩ := bucketFor_split ha.distinct hm
  obtain ⟨front, back, hc, hfn⟩ := t.chainNames_split (t.nameOf e)
  have hg : ∀ {j n}, (pre ++ [t.nameOf e])[j]? = some n →
      t.chainNames[t.offsetOf (t.nameOf e) + j]? = some n := by
    intro j n hj
    have ht : t.bucketFor (t.nameOf e) ++ back = (pre ++ [t.nameOf e]) ++ (post ++ back) := by simp [hs]
    rw [hc, ← hfn, getElem?_append_right (Nat.le_add_right ..), Nat.add_sub_cancel_left, ht,
      getElem?_append_left (List.getElem?_eq_some_iff.1 hj).1]
    exact hj
  have hk : t.chainNames[t.offsetOf (t.nameOf e) + pre.length]? = some (t.nameOf e) := hg (by simp)
  have hpt : t.unhashed.length + t.offsetOf (t.nameOf e) ≠ 0 := by
    have hl := length_pos_iff.2 (ha.preceded (ne_nil_of_mem he))
    omega
  have hw : t.resorted.walk (t.nameOf e) (t.unhashed.length + t.offsetOf (t.nameOf e))
      ((t.bucketFor (t.nameOf e)).map (chainWord (t.bucketFor (t.nameOf e))) ++ rest) =
      some (t.unhashed.length + t.offsetOf (t.nameOf e) + pre.length) := by
    nth_rewrite 2 [hs]
    refine walk_finds (fun {j n} hj => ?_) hn hlt
    rw [add_assoc]
    exact h.nameAt_chain hfs ha (hg hj)
  refine ⟨_, hlp.trans ((if_neg hpt).trans hw), ?_⟩
  have hp := h.getElem?_place (mem_of_hashed he)
  rw [h.place_hashed hfs ha he hk, ← add_assoc] at hp
  show t.resorted.entries[_]?.map Entry.unindexed = some e
  rw [hp]
  exact congrArg some (h.unindexed_relabel (mem_of_hashed he))

section

variable (h : t.WellFormed) (hfs : t.Fits) (hdef : ∀ e ∈ t.hashed, e.st_value ≠ 0) (hfn : t.Finds)
include h hdef hfn

theorem distinct_of_finds : t.hashedNames.Nodup := by
  have hnd := (h.sorted.sublist (dropWhile_suffix _).sublist : Ranked Entry.rank t.hashed).nodup
  refine List.Nodup.map_on (fun e he s hs hn => ?_) hnd
  obtain ⟨i, hi, ht⟩ := hfn e he (hdef e he)
  obtain ⟨j, hj, he'⟩ := hfn s hs (hdef s hs)
  rw [hn, hj] at hi
  cases hi
  exact Option.some.inj (ht.symm.trans he')

theorem exists_first (hne : t.hashed ≠ []) :
    ∃ s ∈ t.hashed, t.chainNames[0]? = some (t.nameOf s) ∧ t.offsetOf (t.nameOf s) = 0 := by
  have ha : t.hashedNames ≠ [] := by simpa [hashedNames] using hne
  obtain ⟨name, hn, hr⟩ := exists_isFirst ha
  obtain ⟨s, hs, rfl⟩ := mem_map.1 hn
  have hh : t.chainNames[0]? = some (t.nameOf s) := by
    rw [← head?_eq_getElem?]
    exact hr.head?_flatten
  have hnd := t.chainNames_perm.nodup_iff.2 (distinct_of_finds h hdef hfn)
  obtain ⟨front, back, hc, hf⟩ := t.chainNames_split (t.nameOf s)
  refine ⟨s, hs, hh, ?_⟩
  -- a name before the bucket would be the first one, which is in the bucket
  cases front with
  | nil => exact hf.symm
  | cons n front =>
    rw [hc, cons_append, getElem?_cons_zero, Option.some.injEq] at hh
    rw [hc, cons_append, hh] at hnd
    have hin : t.nameOf s ∈ front ++ (t.bucketFor (t.nameOf s) ++ back) := by simp [mem_bucketFor hn]
    exact absurd hin (nodup_cons.1 hnd).1

include hfs

/-- A symbol that is found is not before the hashed part, whose first bucket word is not zero. -/
theorem le_place_of_finds (he : e ∈ t.hashed) :
    t.unhashed.length + t.offsetOf (t.nameOf e) ≠ 0 ∧ t.unhashed.length ≤ t.place e := by
  obtain ⟨i, hi, ht⟩ := hfn e he (hdef e he)
  obtain ⟨rest, hl⟩ := t.lookup_eq hfs (mem_map_of_mem he) t.resorted
  rw [show t.execute.1.lookup t.execute.2 (t.nameOf e) = _ from hl] at hi
  split at hi
  · cases hi
  · rename_i hne
    have hge := walk_ge hi
    rw [h.eq_place (mem_of_hashed he) ht] at hge
    exact ⟨hne, by omega⟩

theorem preceded_of_finds (hne : t.hashed ≠ []) : t.unhashed ≠ [] := by
  intro hn
  obtain ⟨s, hs, -, ho⟩ := exists_first h hdef hfn hne
  have hz := (le_place_of_finds h hfs hdef hfn hs).1
  rw [hn, ho] at hz
  exact hz rfl

/-- A symbol that moves behind the first hashed one leaves it a place too early. -/
theorem unmoved_of_finds (he : e ∈ t.unhashed) (hn : e.key.getName.bytes ∈ t.hashedNames) :
    IsFirst t.hashedNames e.key.getName.bytes := by
  have hnd := distinct_of_finds h hdef hfn
  have hne : t.hashed ≠ [] := by
    rintro hl
    rw [hashedNames, hl] at hn
    cases hn
  obtain ⟨s, hs, hh, -⟩ := exists_first h hdef hfn hne
  obtain ⟨k, hk⟩ := mem_iff_getElem?.1 (t.chainNames_perm.mem_iff.2 hn)
  rcases Nat.eq_zero_or_pos k with rfl | hps
  · rw [← head?_eq_getElem?] at hk
    exact head?_flatten_iff.1 hk
  · exfalso
    have hin : (t.relabel e).key.tableIndex = k := tableIndex_relabel hnd hk
    have hi : (t.relabel s).key.tableIndex = 0 := tableIndex_relabel hnd (h.nameOf_hashed hfs hs ▸ hh)
    have ht : ¬ decide ((t.relabel e).rank < (t.relabel s).rank) = true := by
      rw [decide_eq_true_eq, h.rank_relabel_lt (mem_of_unhashed he) (mem_of_hashed hs), hin, hi]
      omega
    have hf : t.unhashed.countP (fun e => decide ((t.relabel e).rank < (t.relabel s).rank)) < t.unhashed.length := by
      refine lt_of_le_of_ne countP_le_length fun heq => ?_
      exact ht (countP_eq_length.1 heq e he)
    have hp := (le_place_of_finds h hfs hdef hfn hs).2
    rw [place_eq_add, h.countP_hashed hfs hnd hs hh] at hp
    omega

end

/-- For every table that the add functions build and whose offsets and indices fit their fields: the
lookup finds every defined hashed symbol if the table is aligned, and, where all hashed symbols are
defined, only then. -/
theorem lookup_finds_iff (calls : List Call) (hfits : (build calls).Fits) :
    ((build calls).Aligned → (build calls).Finds) ∧
      ((∀ e ∈ (build calls).hashed, e.st_value ≠ 0) → ((build calls).Finds ↔ (build calls).Aligned)) := by
  have h := wellFormed_build calls
  refine ⟨h.finds_of_aligned hfits, fun hdef => ⟨fun hfn => ?_, h.finds_of_aligned hfits⟩⟩
  exact ⟨distinct_of_finds h hdef hfn, fun e he hnm => unmoved_of_finds h hfits hdef hfn he hnm,
    preceded_of_finds h hfits hdef hfn⟩

/-- The names `foo`, `bar` and `printf`; `printf` is in a bucket before the one of `foo`. -/
def foo : CString := ⟨[0x66, 0x6f, 0x6f], by decide⟩

def bar : CString := ⟨[0x62, 0x61, 0x72], by decide⟩

def printf : CString := ⟨[0x70, 0x72, 0x69, 0x6e, 0x74, 0x66], by decide⟩

/-- A library that uses `bar` and defines the other two. -/
def usesBar : List Call :=
  [.nullSymbol, .undefinedSymbol ⟨bar, .bindGlobal, 0⟩, .symbol ⟨foo, 0x1000⟩ none, .symbol ⟨printf, 0x2000⟩ none]

theorem lookup_finds_iff_usesBar : (build usesBar).Fits ∧ (build usesBar).Aligned ∧ (build usesBar).Finds := by
  have hfs : (build usesBar).Fits := ⟨by decide +kernel, by decide +kernel⟩
  have ha : (build usesBar).Aligned := ⟨by decide +kernel, by decide +kernel, by decide +kernel⟩
  exact ⟨hfs, ha, (lookup_finds_iff usesBar hfs).1 ha⟩

/-- The undefined `foo` is given the index of the hashed one and moves behind `printf`, which is not found. -/
theorem undefined_symbol_hides : ∃ calls, (build calls).Fits ∧ ∃ e ∈ (build calls).hashed, e.st_value ≠ 0 ∧
    (build calls).execute.1.lookup (build calls).execute.2 ((build calls).nameOf e) = none := by
  refine ⟨[.nullSymbol, .undefinedSymbol ⟨foo, .bindGlobal, 0⟩, .symbol ⟨foo, 0x1000⟩ none,
    .symbol ⟨printf, 0x2000⟩ none], ⟨by decide +kernel, by decide +kernel⟩, ?_⟩
  decide +kernel

end SymbolTableContent

end Generate

end Egalito
