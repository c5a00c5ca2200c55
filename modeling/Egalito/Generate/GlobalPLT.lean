/-
The PLT of the generated file (`MakeGlobalPLT`, `UpdatePLTLinks`, `addPLTRef` and `addEntry`), whose entries are
numbered four times.

Stub, GOT slot, relocation and pushed index of an entry are counted by different loops. `plt_agrees_iff` says when the
four numbers of every entry are those of one index.
-/
import Egalito.Generate.GnuHash
import Egalito.Generate.SymbolIndex

namespace Egalito.Generate

open Lib List
open SymbolTableContent (Call)
open SymbolTableContent

structure ExternalSymbol where
  name : CString
  bind : BindingType
  deriving DecidableEq

def ExternalSymbol.symbol (s : ExternalSymbol) : Symbol := ⟨s.name, s.bind, 0⟩

structure PLTTrampoline where
  pointer : Nat
  externalSymbol : Option ExternalSymbol
  hasTarget : Bool
  isPltGot : Bool
  deriving DecidableEq

/-- A trampoline that is an entry of the global PLT. -/
structure PLTEntry where
  pointer : Nat
  symbol : ExternalSymbol
  isPltGot : Bool
  deriving DecidableEq

def PLTTrampoline.unresolved? (plt : PLTTrampoline) : Option PLTEntry :=
  if plt.hasTarget then none else plt.externalSymbol.map fun symbol => ⟨plt.pointer, symbol, plt.isPltGot⟩

structure Program where
  modules : List (List PLTTrampoline)
  distinct : (modules.flatten.map PLTTrampoline.pointer).Nodup

/-- The addresses that `AssignSectionsToSegments` gives `.g.got.plt` and `.plt`. -/
def gotpltAddress : Address := 0x500000

def pltAddress : Address := 0x600000

namespace Program

variable (p : Program)

/-- The unresolved trampolines in the order of the modules. -/
def entries : List PLTEntry := p.modules.flatten.filterMap PLTTrampoline.unresolved?

/-- `entryMap[plt] = entries.size()`, after the entry was added. -/
def entryMap : List (Nat × Nat) := assignAll (p.entries.mapIdx fun i entry => (entry.pointer, i + 1))

/-- `operator []` of the map, which is zero for a trampoline without an entry. -/
def entryIndex (plt : Nat) : Nat := ((p.entryMap.find? fun e => e.1 = plt).map Prod.snd).getD 0

def redirect (plt : Nat) : Option Address :=
  if p.entryIndex plt = 0 then none else some (0x600000 + BitVec.ofNat 64 (p.entryIndex plt * 0x10))

end Program

/-- What `addPLTRef` captures: the trampoline, the slot and the symbol in `.dynsym`. -/
structure PLTRef where
  entry : PLTEntry
  pltIndex : Nat
  elfSym : Nat
  deriving DecidableEq

def addPLTRef (dynsym : IndexedTable) (entry : PLTEntry) (pltIndex : Nat) : IndexedTable × PLTRef :=
  let (dynsym, elfSym) := dynsym.addUndefinedSymbol entry.symbol.symbol
  (dynsym, ⟨entry, pltIndex, elfSym⟩)

/-- The loop over the entries that adds those of one kind. -/
def addPLTRefs (isPltGot : Bool) : IndexedTable → Nat → List PLTEntry → IndexedTable × List PLTRef
  | dynsym, _, [] => (dynsym, [])
  | dynsym, index, entry :: entries =>
    if entry.isPltGot = isPltGot then
      let (dynsym, ref) := addPLTRef dynsym entry index
      let (dynsym, refs) := addPLTRefs isPltGot dynsym (index + 1) entries
      (dynsym, ref :: refs)
    else addPLTRefs isPltGot dynsym (index + 1) entries

structure Rela where
  r_offset : Address
  r_info : BitVec 64
  deriving DecidableEq

/-- The deferred function of a reference, with `R_X86_64_GLOB_DAT` and `R_X86_64_JUMP_SLOT`. -/
def PLTRef.rela (ref : PLTRef) (dynsym : IndexedTable) : Rela where
  r_offset := gotpltAddress + BitVec.ofNat 64 (ref.pltIndex * 8)
  r_info := (BitVec.ofNat 64 (dynsym.indexOf ref.elfSym) <<< 32) + if ref.entry.isPltGot then 6 else 7

/-- The relocation names the symbol: `ELF64_R_SYM` is the index of an entry with this name. -/
def Rela.Names (rela : Rela) (dynsym : IndexedTable) (name : CString) : Prop :=
  ∃ d, dynsym.entries[(rela.r_info >>> 32).toNat]? = some d ∧ d.entry.key.getName.bytes = name.bytes

/-! ## The stubs -/

/-- `PLTCodeContent::addEntry`, after its deferred function. -/
def addEntry (index : Nat) : List Byte :=
  if index = 0 then
    [0xff, 0x35] ++ littleEndian 4 (gotpltAddress + 1 * 8 - (pltAddress + 6)).toNat ++
      [0xff, 0x25] ++ littleEndian 4 (gotpltAddress + 2 * 8 - (pltAddress + 6 + 6)).toNat ++ [0x0f, 0x1f, 0x40, 0x00]
  else
    [0xff, 0x25] ++ littleEndian 4 (gotpltAddress + BitVec.ofNat 64 ((index - 1 + 3) * 8) -
        (pltAddress + BitVec.ofNat 64 (index * 0x10) + 6)).toNat ++
      [0x68] ++ littleEndian 4 (BitVec.ofNat 64 (index - 1)).toNat ++
      [0xe9] ++ littleEndian 4 (pltAddress - (pltAddress + BitVec.ofNat 64 (index * 0x10) + 6 + 5 + 5)).toNat

def Program.pltCode (p : Program) : List (List Byte) := addEntry 0 :: p.entries.mapIdx fun i _ => addEntry (i + 1)

/-- The address through which the stub at this address jumps: `jmp *disp(%rip)`. -/
def jumpSlot (address : Address) (stub : List Byte) : Address :=
  address + 6 + BitVec.ofInt 64 (signedField ((stub.drop 2).take 4))

def pushed (stub : List Byte) : Int := signedField ((stub.drop 7).take 4)

theorem field_jump {index} (h : index ≠ 0) : ((addEntry index).drop 2).take 4 =
    littleEndian 4 (gotpltAddress + BitVec.ofNat 64 ((index - 1 + 3) * 8) -
        (pltAddress + BitVec.ofNat 64 (index * 0x10) + 6)).toNat := by
  rw [addEntry, if_neg h]
  simp only [append_assoc, cons_append, nil_append, drop_succ_cons, drop_zero]
  exact take_left' (length_littleEndian ..)

theorem field_push {index} (h : index ≠ 0) : ((addEntry index).drop 7).take 4 =
    littleEndian 4 (BitVec.ofNat 64 (index - 1)).toNat := by
  rw [addEntry, if_neg h]
  have hs : ∀ d rest,
      (0xff :: 0x25 :: (littleEndian 4 d ++ 0x68 :: rest)).drop 7 = rest := by
    intro d rest
    rfl
  simp only [append_assoc, cons_append, nil_append, hs]
  exact take_left' (length_littleEndian ..)

@[simp] theorem toNat_gotpltAddress : gotpltAddress.toNat = 0x500000 := rfl

@[simp] theorem toNat_pltAddress : pltAddress.toNat = 0x600000 := rfl

theorem jumpSlot_addEntry {index} (hne : index ≠ 0) (hle : index ≤ 268304385) :
    jumpSlot (pltAddress + BitVec.ofNat 64 (index * 0x10)) (addEntry index) =
      gotpltAddress + BitVec.ofNat 64 ((index - 1 + 3) * 8) := by
  have hs : (6 : Address).toNat = 6 := rfl
  have ho : (gotpltAddress + BitVec.ofNat 64 ((index - 1 + 3) * 8) -
      (pltAddress + BitVec.ofNat 64 (index * 0x10) + 6)).toNat = 2 ^ 64 - (0xffff6 + 8 * index) := by
    rw [BitVec.toNat_sub, BitVec.toNat_add, BitVec.toNat_add, BitVec.toNat_add, BitVec.toNat_ofNat, BitVec.toNat_ofNat,
      toNat_gotpltAddress, toNat_pltAddress, hs]
    omega
  rw [jumpSlot, field_jump hne, signedField_littleEndian, BitVec.toInt_setWidth, ho]
  apply BitVec.eq_of_toNat_eq
  have hf : Int.bmod ((2 ^ 64 - (0xffff6 + 8 * index) : Nat) : Int) (2 ^ (8 * 4)) = -(0xffff6 + 8 * index : Int) := by
    rw [Int.bmod_def]
    omega
  rw [hf]
  simp only [BitVec.toNat_add, BitVec.toNat_ofNat, BitVec.toNat_ofInt, toNat_gotpltAddress, toNat_pltAddress, hs]
  omega

theorem jumpSlot_addEntry_ne : jumpSlot (pltAddress + BitVec.ofNat 64 (268304386 * 0x10)) (addEntry 268304386) ≠
      gotpltAddress + BitVec.ofNat 64 ((268304386 - 1 + 3) * 8) := by
  decide +kernel

theorem pushed_addEntry {index} (hne : index ≠ 0) (hlt : index - 1 < 2 ^ 31) :
    pushed (addEntry index) = ((index - 1 : Nat) : Int) := by
  rw [pushed, field_push hne, signedField_littleEndian, BitVec.toInt_setWidth, BitVec.toNat_ofNat, Int.bmod_def]
  omega

/-- The second order of `.dynsym`, in `MakeDynsymHash`. -/
def IndexedTable.resort (t : IndexedTable) : IndexedTable :=
  { t with entries := insertAll Deferred.less (t.entries.map fun d => { d with entry := t.forget.relabel d.entry }) }

/-- What becomes of `.dynsym` after the PLT is made: more symbols, perhaps a hash table, and new indices. -/
def IndexedTable.finish (t : IndexedTable) (after : List Call) (hash : Bool) : IndexedTable :=
  let t := after.foldl (fun t c => (t.call c).1) t
  (if hash then t.resort else t).recalculateIndices

namespace Program

variable (p : Program) (before after : List Call) (hash : Bool)

/-- `.rela.plt`, from a `.dynsym` that was made by the calls `before`. -/
def relaPlt : IndexedTable × List PLTRef := addPLTRefs false (IndexedTable.run before).1 3 p.entries

def relaDyn : IndexedTable × List PLTRef := addPLTRefs true (p.relaPlt before).1 3 p.entries

def dynsym : IndexedTable := (p.relaDyn before).1.finish after hash

/-- The stub of the entry jumps through the slot that the relocation of the entry fills, with its
symbol, and pushes the position of that relocation if it is in `.rela.plt`. -/
def Agrees (entry : PLTEntry) : Prop :=
  ∃ (stub : List Byte) (position : Nat) (ref : PLTRef),
    p.redirect entry.pointer = some (pltAddress + BitVec.ofNat 64 (p.entryIndex entry.pointer * 0x10)) ∧
    p.pltCode[p.entryIndex entry.pointer]? = some stub ∧
    (if entry.isPltGot then (p.relaDyn before).2 else (p.relaPlt before).2)[position]? = some ref ∧ ref.entry = entry ∧
    (ref.rela (p.dynsym before after hash)).r_offset =
      jumpSlot (pltAddress + BitVec.ofNat 64 (p.entryIndex entry.pointer * 0x10)) stub ∧
    (ref.rela (p.dynsym before after hash)).Names (p.dynsym before after hash) entry.symbol.name ∧
    (entry.isPltGot = false → pushed stub = position)

end Program

/-! ## The numbers of an entry -/

theorem Program.nodup_entries (p : Program) : (p.entries.map PLTEntry.pointer).Nodup := by
  refine pairwise_map.2 ((pairwise_map.1 p.distinct).filterMap _ fun plt plt' hne entry he entry' he' => ?_)
  unfold PLTTrampoline.unresolved? at he he'
  split at he
  · cases he
  · split at he'
    · cases he'
    · obtain ⟨symbol, -, rfl⟩ := Option.map_eq_some_iff.1 (Option.mem_def.1 he)
      obtain ⟨symbol', -, rfl⟩ := Option.map_eq_some_iff.1 (Option.mem_def.1 he')
      exact hne

theorem Program.entryIndex_eq {p : Program} {k : Nat} {entry : PLTEntry} (hk : p.entries[k]? = some entry) :
    p.entryIndex entry.pointer = k + 1 := by
  unfold entryIndex entryMap
  rw [find?_assignAll_mapIdx p.nodup_entries hk]
  rfl

theorem Program.pltCode_eq {p : Program} {k : Nat} {entry : PLTEntry} (hk : p.entries[k]? = some entry) :
    p.pltCode[k + 1]? = some (addEntry (k + 1)) := by
  unfold pltCode
  rw [getElem?_cons_succ, getElem?_mapIdx, hk]
  rfl

section

variable {kind : Bool} {t : IndexedTable} {entry : PLTEntry} {entries : List PLTEntry} {index : Nat}

theorem addPLTRefs_cons_of_eq (h : entry.isPltGot = kind) : addPLTRefs kind t index (entry :: entries) =
    ((addPLTRefs kind (addPLTRef t entry index).1 (index + 1) entries).1,
      (addPLTRef t entry index).2 :: (addPLTRefs kind (addPLTRef t entry index).1 (index + 1) entries).2) := by
  rw [addPLTRefs, if_pos h]

theorem addPLTRefs_cons_of_ne (h : ¬ entry.isPltGot = kind) :
    addPLTRefs kind t index (entry :: entries) = addPLTRefs kind t (index + 1) entries := by
  rw [addPLTRefs, if_neg h]

end

theorem map_entry_addPLTRefs (kind) : ∀ entries t index,
    (addPLTRefs kind t index entries).2.map PLTRef.entry = entries.filter fun entry => entry.isPltGot = kind
  | [], _, _ => rfl
  | entry :: entries, t, index => by
    by_cases hk : entry.isPltGot = kind
    · rw [addPLTRefs_cons_of_eq hk, map_cons, map_entry_addPLTRefs kind entries,
        filter_cons_of_pos (by simpa using hk)]
      rfl
    · rw [addPLTRefs_cons_of_ne hk, map_entry_addPLTRefs kind entries, filter_cons_of_neg (by simpa using hk)]

theorem pltIndex_addPLTRefs (kind) : ∀ entries t index,
    ∀ ref ∈ (addPLTRefs kind t index entries).2, ∃ k, entries[k]? = some ref.entry ∧ ref.pltIndex = index + k
  | [], _, _, ref, hr => by cases hr
  | entry :: entries, t, index, ref, hr => by
    have hlt : ∀ t', ref ∈ (addPLTRefs kind t' (index + 1) entries).2 →
        ∃ k, (entry :: entries)[k]? = some ref.entry ∧ ref.pltIndex = index + k := by
      intro t' hr
      obtain ⟨k, hk, hi⟩ := pltIndex_addPLTRefs kind entries t' (index + 1) ref hr
      exact ⟨k + 1, hk, by omega⟩
    by_cases hd : entry.isPltGot = kind
    · rw [addPLTRefs_cons_of_eq hd] at hr
      rcases mem_cons.1 hr with rfl | hr
      · exact ⟨0, rfl, rfl⟩
      · exact hlt _ hr
    · rw [addPLTRefs_cons_of_ne hd] at hr
      exact hlt _ hr

def refCalls (kind : Bool) (entries : List PLTEntry) : List Call :=
  (entries.filter fun entry => entry.isPltGot = kind).map fun entry => .undefinedSymbol entry.symbol.symbol

theorem addPLTRefs_table (kind) : ∀ entries t index,
    (addPLTRefs kind t index entries).1 = (refCalls kind entries).foldl (fun t c => (t.call c).1) t
  | [], _, _ => rfl
  | entry :: entries, t, index => by
    by_cases hk : entry.isPltGot = kind
    · rw [addPLTRefs_cons_of_eq hk, addPLTRefs_table kind entries, refCalls, refCalls,
        filter_cons_of_pos (by simpa using hk)]
      rfl
    · rw [addPLTRefs_cons_of_ne hk, addPLTRefs_table kind entries, refCalls, refCalls,
        filter_cons_of_neg (by simpa using hk)]

namespace IndexedTable

variable {t : IndexedTable}

theorem subset_foldl : ∀ (calls : List Call) {t : IndexedTable}, t.entries ⊆ (calls.foldl (fun t c => (t.call c).1) t).entries
  | [], _ => List.Subset.refl _
  | c :: calls, _ => fun _ hd => subset_foldl calls (subset_call c hd)

theorem foldl_run (calls after) : after.foldl (fun t c => (t.call c).1) (run calls).1 = (run (calls ++ after)).1 := by
  induction after using reverseRecOn with
  | nil => simp
  | append_singleton after c ih =>
    rw [foldl_append, ih, ← append_assoc, run_append]
    rfl

theorem name_eq_of_rank_eq {key : SymbolInTable} {type : SymbolInTableType} {sym : Symbol}
    (h : key.rank = SymbolInTable.rank ⟨type, some sym, 0⟩) : key.getName.bytes = sym.name.bytes := by
  have hs : symbolRank key.sym = symbolRank (some sym) := congrArg (fun r => (ofLex (ofLex r).2).2) h
  unfold SymbolInTable.getName
  cases hk : key.sym with
  | none =>
    rw [hk] at hs
    have := congrArg (fun r => (ofLex r).1) hs
    cases this
  | some s =>
    rw [hk] at hs
    have hb : s.name.bytes.map BitVec.toNat = sym.name.bytes.map BitVec.toNat :=
      congrArg (fun r => (ofLex (ofLex r).2).1) hs
    exact (map_injective_iff.2 fun a b hab => BitVec.eq_of_toNat_eq hab) hb

theorem resort_perm (calls) : (run calls).1.resort.entries.Perm
    ((run calls).1.entries.map fun d => { d with entry := (run calls).1.forget.relabel d.entry }) := by
  have hl : ∀ a b : Deferred, a.less b = true ↔ a.entry.rank < b.entry.rank := fun a b => a.entry.less_iff b.entry
  have hwf := wellFormed_build calls
  rw [← forget_run] at hwf
  refine (insertAll_spec hl ?_).2
  rw [pairwise_map]
  refine (ranked_run calls).1.imp_of_mem fun {d d'} hd hd' hlt heq => ?_
  -- the order without the new indices is the old one
  have hr := rank_unindexed heq
  rw [hwf.unindexed_relabel (mem_map_of_mem hd), hwf.unindexed_relabel (mem_map_of_mem hd')] at hr
  exact hlt.ne hr

theorem indexOf_finish (calls after) (hash : Bool) {d} (hd : d ∈ (run calls).1.entries) :
    ∃ d', ((run calls).1.finish after hash).entries[((run calls).1.finish after hash).indexOf d.pointer]? = some d' ∧
      d'.entry.key.getName = d.entry.key.getName := by
  unfold finish
  have hm := foldl_run calls after ▸ subset_foldl after hd
  rw [foldl_run]
  have hnd := (counted_run (calls ++ after)).nodup
  have hf : ∀ {t : IndexedTable} {d' : Deferred}, (t.entries.map Deferred.pointer).Nodup → d' ∈ t.entries →
      d'.pointer = d.pointer → t.recalculateIndices.entries[t.recalculateIndices.indexOf d.pointer]? = some d' := by
    intro t d' hnd hd' ht
    obtain ⟨i, hi⟩ := mem_iff_getElem?.1 hd'
    rw [← ht, indexOf_recalculateIndices hnd hi]
    exact hi
  cases hash with
  | false => exact ⟨d, hf hnd hm rfl, rfl⟩
  | true =>
    have hp := resort_perm (calls ++ after)
    refine ⟨_, hf ?_ (hp.mem_iff.2 (mem_map_of_mem hm)) rfl, ?_⟩
    · rw [if_pos rfl, (hp.map _).nodup_iff, map_map]
      exact hnd
    · rw [relabel_eq]
      rfl

end IndexedTable

theorem elfSym_addPLTRefs (kind : Bool) : ∀ entries t (index : Nat),
    ∀ ref ∈ (addPLTRefs kind t index entries).2, ∃ d ∈ (addPLTRefs kind t index entries).1.entries,
      d.pointer = ref.elfSym ∧ d.entry.key.getName.bytes = ref.entry.symbol.name.bytes
  | [], _, _, ref, hr => by cases hr
  | entry :: entries, t, index, ref, hr => by
    by_cases hk : entry.isPltGot = kind
    · rw [addPLTRefs_cons_of_eq hk] at hr ⊢
      rcases mem_cons.1 hr with rfl | hr
      · obtain ⟨-, d, hd, hp, hrk⟩ := @IndexedTable.addOnce_spec t
          (typeOr entry.symbol.symbol .typeUndef) entry.symbol.symbol 0
        refine ⟨d, ?_, hp, IndexedTable.name_eq_of_rank_eq hrk⟩
        rw [addPLTRefs_table]
        exact IndexedTable.subset_foldl _ hd
      · exact elfSym_addPLTRefs kind entries _ _ ref hr
    · rw [addPLTRefs_cons_of_ne hk] at hr ⊢
      exact elfSym_addPLTRefs kind entries _ _ ref hr

theorem symbol_of_info {index} (h : index < 2 ^ 32) (isPltGot : Bool) :
    (((BitVec.ofNat 64 index <<< 32) + if isPltGot then (6 : BitVec 64) else 7) >>> 32).toNat = index := by
  have ht : (if isPltGot then (6 : BitVec 64) else 7).toNat < 8 := by cases isPltGot <;> decide
  rw [BitVec.toNat_ushiftRight, BitVec.toNat_add, BitVec.toNat_shiftLeft, BitVec.toNat_ofNat, Nat.shiftRight_eq_div_pow,
    Nat.shiftLeft_eq]
  omega

theorem getElem?_filter_countP {α : Type} {f} {l : List α} {k : Nat} {x : α} (hk : l[k]? = some x) (hx : f x = true) :
    (l.filter f)[(l.take k).countP f]? = some x := by
  obtain ⟨hlt, rfl⟩ := List.getElem?_eq_some_iff.1 hk
  have hs : l = l.take k ++ l[k] :: l.drop (k + 1) := by rw [getElem_cons_drop, take_append_drop]
  have hf : l.filter f = (l.take k).filter f ++ l[k] :: (l.drop (k + 1)).filter f := by
    rw [← filter_cons_of_pos hx, ← filter_append, ← hs]
  rw [hf, countP_eq_length_filter, getElem?_append_right le_rfl, Nat.sub_self, getElem?_cons_zero]

namespace Program

variable {p : Program} {before after : List Call} {hash : Bool} {k : Nat} {entry : PLTEntry} {t : IndexedTable}

theorem nodup_entries' (p : Program) : p.entries.Nodup := p.nodup_entries.of_map _

theorem index_unique {i j : Nat} (hi : p.entries[i]? = some entry) (hj : p.entries[j]? = some entry) : i = j := by
  obtain ⟨hi, rfl⟩ := List.getElem?_eq_some_iff.1 hi
  obtain ⟨hj, heq⟩ := List.getElem?_eq_some_iff.1 hj
  exact p.nodup_entries'.getElem_inj_iff.1 heq.symm

theorem exists_ref (hk : p.entries[k]? = some entry) (t : IndexedTable) :
    ∃ ref, (addPLTRefs entry.isPltGot t 3 p.entries).2[(p.entries.take k).countP fun e => e.isPltGot = entry.isPltGot]? =
      some ref ∧ ref.entry = entry := by
  have hf := getElem?_filter_countP (f := fun e : PLTEntry => e.isPltGot = entry.isPltGot) hk (by simp)
  rw [← map_entry_addPLTRefs _ _ t 3, getElem?_map] at hf
  exact Option.map_eq_some_iff.1 hf

/-- The relocation of an entry has the slot of the entry, and a position that counts its own kind only. -/
theorem ref_unique {ref : PLTRef} {position : Nat} (hk : p.entries[k]? = some entry)
    (hr : (addPLTRefs entry.isPltGot t 3 p.entries).2[position]? = some ref) (he : ref.entry = entry) :
    position = ((p.entries.take k).countP fun e => e.isPltGot = entry.isPltGot) ∧ ref.pltIndex = k + 3 := by
  constructor
  · have hp := congrArg (Option.map PLTRef.entry) hr
    rw [← getElem?_map, map_entry_addPLTRefs, Option.map_some, he] at hp
    have hf := getElem?_filter_countP (f := fun e : PLTEntry => e.isPltGot = entry.isPltGot) hk (by simp)
    obtain ⟨hi, hg⟩ := List.getElem?_eq_some_iff.1 hp
    obtain ⟨hj, hg'⟩ := List.getElem?_eq_some_iff.1 hf
    exact (p.nodup_entries'.filter _).getElem_inj_iff.1 (hg.trans hg'.symm)
  · obtain ⟨k', hk', hd⟩ := pltIndex_addPLTRefs _ _ _ _ ref (mem_of_getElem? hr)
    rw [he] at hk'
    rw [hd, index_unique hk' hk, add_comm]

/-- `.rela.plt` and the new part of `.rela.dyn` are made by the same loop. -/
theorem refs_eq (kind) : ∃ t, (if kind then (p.relaDyn before).2 else (p.relaPlt before).2) = (addPLTRefs kind t 3 p.entries).2 := by
  cases kind with
  | true => exact ⟨_, rfl⟩
  | false => exact ⟨_, rfl⟩

theorem relaDyn_table (p : Program) (before : List Call) : (p.relaDyn before).1 =
    (IndexedTable.run (before ++ refCalls false p.entries ++ refCalls true p.entries)).1 := by
  rw [relaDyn, addPLTRefs_table, relaPlt, addPLTRefs_table, IndexedTable.foldl_run, IndexedTable.foldl_run]

theorem names_rela (hf : (p.dynsym before after hash).entries.length ≤ 2 ^ 32) {kind : Bool} {ref}
    (hr : ref ∈ if kind then (p.relaDyn before).2 else (p.relaPlt before).2) :
    (ref.rela (p.dynsym before after hash)).Names (p.dynsym before after hash) ref.entry.symbol.name := by
  have hs : ∃ d ∈ (p.relaDyn before).1.entries, d.pointer = ref.elfSym ∧
      d.entry.key.getName.bytes = ref.entry.symbol.name.bytes := by
    cases kind with
    | true => exact elfSym_addPLTRefs true p.entries _ _ ref hr
    | false =>
      obtain ⟨d, hd, heq⟩ := elfSym_addPLTRefs false p.entries _ _ ref hr
      refine ⟨d, ?_, heq⟩
      rw [relaDyn, addPLTRefs_table]
      exact IndexedTable.subset_foldl _ hd
  obtain ⟨d, hd, hp, hn⟩ := hs
  rw [relaDyn_table] at hd
  obtain ⟨d', hd', hn'⟩ := IndexedTable.indexOf_finish _ after hash hd
  rw [← relaDyn_table, hp] at hd'
  have hlt : (p.dynsym before after hash).indexOf ref.elfSym < 2 ^ 32 :=
    (List.getElem?_eq_some_iff.1 hd').1.trans_le hf
  refine ⟨d', ?_, by rw [hn', hn]⟩
  rw [PLTRef.rela, symbol_of_info hlt]
  exact hd'

theorem agrees_iff (hf : (p.dynsym before after hash).entries.length ≤ 2 ^ 32) (hk : p.entries[k]? = some entry) :
    p.Agrees before after hash entry ↔ jumpSlot (pltAddress + BitVec.ofNat 64 ((k + 1) * 0x10)) (addEntry (k + 1)) =
        gotpltAddress + BitVec.ofNat 64 ((k + 3) * 8) ∧
      (entry.isPltGot = false → pushed (addEntry (k + 1)) = ((p.entries.take k).countP fun e => e.isPltGot = false)) := by
  have hi := entryIndex_eq hk
  obtain ⟨t, hrs⟩ := @refs_eq p before entry.isPltGot
  unfold Agrees
  rw [hi, pltCode_eq hk, hrs]
  constructor
  · rintro ⟨stub, position, ref, -, hb, hr, he, hs, -, hp⟩
    cases hb
    obtain ⟨ht, hpt⟩ := ref_unique hk hr he
    refine ⟨?_, fun hd => ?_⟩
    · rw [← hs, PLTRef.rela, hpt]
    · rw [hp hd, ht, hd]
  · rintro ⟨hs, hp⟩
    obtain ⟨ref, hr, he⟩ := exists_ref hk t
    obtain ⟨-, hpt⟩ := ref_unique hk hr he
    have hm : ref ∈ if entry.isPltGot then (p.relaDyn before).2 else (p.relaPlt before).2 := by
      rw [hrs]
      exact mem_of_getElem? hr
    refine ⟨_, _, ref, ?_, rfl, hr, he, ?_, he ▸ names_rela hf hm, fun hd => ?_⟩
    · rw [redirect, hi, if_neg (Nat.succ_ne_zero k)]
      rfl
    · rw [hs, PLTRef.rela, hpt]
    · rw [hp hd, hd]

/-- The tables agree on every entry exactly when no `.plt.got` entry comes before an ordinary one, and
the stubs are close enough to their slots for a 32-bit displacement. -/
theorem plt_agrees_iff (p : Program) (before after : List Call) (hash : Bool)
    (hfits : (p.dynsym before after hash).entries.length ≤ 2 ^ 32) :
    (∀ entry ∈ p.entries, p.Agrees before after hash entry) ↔
      p.entries.length ≤ 268304385 ∧ p.entries.Pairwise fun e e' => e.isPltGot = true → e'.isPltGot = true := by
  constructor
  · intro h
    have har : ∀ {k entry}, p.entries[k]? = some entry → _ :=
      fun hk => (agrees_iff hfits hk).1 (h _ (mem_of_getElem? hk))
    have hlg : p.entries.length ≤ 268304385 := by
      by_contra hlong
      exact jumpSlot_addEntry_ne (har (getElem?_eq_getElem (by omega : 268304385 < p.entries.length))).1
    refine ⟨hlg, pairwise_iff_getElem.2 fun i j hi hj hij hplt => ?_⟩
    by_contra hod
    -- the stub pushes the number of all entries before, and so many relocations come before
    have hps := (har (getElem?_eq_getElem hj)).2 (by simpa using hod)
    rw [pushed_addEntry (Nat.succ_ne_zero j) (by omega), Nat.succ_sub_one] at hps
    have hct : ((p.entries.take j).countP fun e => e.isPltGot = false) = (p.entries.take j).length := by
      rw [length_take, Nat.min_eq_left hj.le]
      omega
    have hall := countP_eq_length.1 hct p.entries[i] (mem_take_iff_getElem.2 ⟨i, by omega, rfl⟩)
    simp [hplt] at hall
  · rintro ⟨hlg, hor⟩ entry het
    obtain ⟨k, hlt, rfl⟩ := mem_iff_getElem.1 het
    refine (agrees_iff hfits (getElem?_eq_getElem hlt)).2 ⟨?_, fun hod => ?_⟩
    · exact jumpSlot_addEntry (Nat.succ_ne_zero k) (by omega)
    · have hall : ((p.entries.take k).countP fun e => e.isPltGot = false) = (p.entries.take k).length := by
        refine countP_eq_length.2 fun e he => ?_
        obtain ⟨i, hi, rfl⟩ := mem_take_iff_getElem.1 he
        have hip := pairwise_iff_getElem.1 hor i k (by omega) hlt (by omega)
        rw [hod] at hip
        simpa using hip
      rw [pushed_addEntry (Nat.succ_ne_zero k) (by omega), hall, length_take, Nat.min_eq_left hlt.le]
      rfl

end Program

def putsSymbol : ExternalSymbol := ⟨IndexedTable.puts.name, .bindGlobal⟩

def exitSymbol : ExternalSymbol := ⟨⟨[0x65, 0x78, 0x69, 0x74], by decide⟩, .bindGlobal⟩

/-- One module, with an ordinary entry before one of its `.plt.got`. -/
def oneModule : Program := ⟨[[⟨0, some putsSymbol, false, false⟩, ⟨1, some exitSymbol, false, true⟩]], by decide⟩

theorem plt_agrees_iff_oneModule : oneModule.entries.length = 2 ∧
    ∀ entry ∈ oneModule.entries, oneModule.Agrees [.nullSymbol] [] false entry :=
  ⟨by decide +kernel,
    (oneModule.plt_agrees_iff [.nullSymbol] [] false (by decide +kernel)).2 ⟨by decide +kernel, by decide +kernel⟩⟩

/-- Two modules, the first with a `.plt.got` entry and the second with an ordinary one. -/
def twoModules : Program := ⟨[[⟨0, some exitSymbol, false, true⟩], [⟨1, some putsSymbol, false, false⟩]], by decide⟩

/-- The stub of the second entry pushes one, and its relocation is the first in `.rela.plt`. -/
theorem twoModules_push_other : twoModules.entryIndex 1 = 2 ∧ twoModules.pltCode[2]?.map pushed = some 1 ∧
    (twoModules.relaPlt [.nullSymbol]).2.map PLTRef.entry = [⟨1, putsSymbol, false⟩] := by
  decide +kernel

end Egalito.Generate
