/-
The symbol table with the values it hands out (`generate/concretedeferred.cpp`, `generate/deferred.h`).

Indices are values that are filled in when the table is complete. `ordered_iff` says for which sequences of calls the
entries stay sorted and every index handed out is the place of its entry.
-/
import Egalito.Generate.SymbolTable
import Egalito.Lib.OrderedMap

namespace Egalito.Generate

open Lib
open List SymbolInTable SymbolTableContent

/-- A `DeferredType *`: the pointer, and the key and symbol that belong to it. -/
structure Deferred where
  pointer : Nat
  entry : Entry
  deriving DecidableEq

def Deferred.less (d other : Deferred) : Bool := d.entry.less other.entry

/-- `next` is the pointer of the next value. -/
structure IndexedTable where
  strtab : List Byte
  entries : List Deferred
  indexMap : List (Nat × Nat)
  firstGlobalIndex : Nat
  next : Nat
  deriving DecidableEq

namespace IndexedTable

open SymbolTableContent (Func typeOr Call)

def empty : IndexedTable := ⟨[], [], [], 0, 0⟩

def insertSorted (t : IndexedTable) (entry : Entry) : IndexedTable :=
  if containsEquivalent Deferred.less ⟨t.next, entry⟩ t.entries then { t with next := t.next + 1 }
  else
    { t with
      entries := insertAt Deferred.less ⟨t.next, entry⟩ t.entries
      indexMap := assign t.next (notAfter Deferred.less ⟨t.next, entry⟩ t.entries).length t.indexMap
      next := t.next + 1 }

def addString (t : IndexedTable) (data : List Byte) : IndexedTable := { t with strtab := t.strtab ++ data }

def count (t : IndexedTable) : IndexedTable := { t with firstGlobalIndex := t.firstGlobalIndex + 1 }

def find? (t : IndexedTable) (key : SymbolInTable) : Option Nat :=
  (t.entries.find? fun d => !key.less d.entry.key && !d.entry.key.less key).map Deferred.pointer

/-- The entry of a symbol whose name was added to the string table at the end of `strtab`. -/
def named (strtab : List Byte) (type : SymbolInTableType) (sym : Option Symbol) (value : Address) : Entry :=
  ⟨⟨type, sym, 0⟩, BitVec.ofNat 32 strtab.length, value⟩

def addNullSymbol (t : IndexedTable) : IndexedTable :=
  ((t.addString [0]).insertSorted (named t.strtab .typeNull none 0)).count

def addSectionSymbol (t : IndexedTable) (sym : Symbol) : IndexedTable :=
  (t.insertSorted ⟨⟨.typeSection, some sym, 0⟩, 0, 0⟩).count

/-- The common course of the functions that first look whether the key is there, with the value that
they return. -/
def addOnce (t : IndexedTable) (type : SymbolInTableType) (sym : Symbol) (value : Address) : IndexedTable × Nat :=
  match t.find? ⟨type, some sym, 0⟩ with
  | some pointer => (t, pointer)
  | none =>
    let inserted := (t.addString (sym.name.bytes ++ [0])).insertSorted (named t.strtab type (some sym) value)
    (if sym.bind = .bindLocal then inserted.count else inserted, t.next)

def addSymbol (t : IndexedTable) (func : Option Func) (sym : Symbol) : IndexedTable × Nat :=
  t.addOnce (typeOr sym (if func.isSome then .typeGlobal else .typeUndef)) sym ((func.map Func.address).getD 0)

def addDataVarSymbol (t : IndexedTable) (sym : Symbol) (address : Address) : IndexedTable × Nat :=
  t.addOnce (typeOr sym .typeGlobal) sym address

def addGlobalVarSymbol (t : IndexedTable) (sym : Symbol) (address : Address) : IndexedTable × Nat :=
  t.addOnce (typeOr sym .typeGlobal) sym address

def addPLTSymbol (t : IndexedTable) (plt : Option Address) (sym : Symbol) : IndexedTable × Nat :=
  (((t.addString (sym.name.bytes ++ [0])).insertSorted (named t.strtab .typePLT (some sym) (plt.getD 0))).count, t.next)

def addUndefinedSymbol (t : IndexedTable) (sym : Symbol) : IndexedTable × Nat := t.addSymbol none sym

def call (t : IndexedTable) : Call → IndexedTable × List Nat
  | .nullSymbol => (t.addNullSymbol, [])
  | .sectionSymbol sym => (t.addSectionSymbol sym, [])
  | .symbol func sym => (t.addSymbol (some func) (sym.getD func.symbol)).map id (fun pointer => [pointer])
  | .dataVarSymbol sym address => (t.addDataVarSymbol sym address).map id (fun pointer => [pointer])
  | .globalVarSymbol sym address => (t.addGlobalVarSymbol sym address).map id (fun pointer => [pointer])
  | .pltSymbol plt sym => (t.addPLTSymbol plt sym).map id (fun pointer => [pointer])
  | .undefinedSymbol sym => (t.addUndefinedSymbol sym).map id (fun pointer => [pointer])
  | .otherString data => (t.addString data, [])

/-- The calls in turn, with the values that were handed out. -/
def run (calls : List Call) : IndexedTable × List Nat :=
  calls.foldl (fun s c => ((s.1.call c).1, s.2 ++ (s.1.call c).2)) (empty, [])

def recalculateIndices (t : IndexedTable) : IndexedTable :=
  { t with indexMap := assignAll (t.entries.mapIdx fun index d => (d.pointer, index)) }

/-- `indexOf`, which is `(size_t) -1` for a value that is not in the map. -/
def indexOf (t : IndexedTable) (pointer : Nat) : Nat :=
  match t.indexMap.find? fun e => e.1 = pointer with
  | some (_, index) => index
  | none => 2 ^ 64 - 1

/-! ## The table without the pointers -/

variable {t : IndexedTable} {entry : Entry}

def forget (t : IndexedTable) : SymbolTableContent := ⟨t.strtab, t.entries.map Deferred.entry⟩

theorem forget_insertSorted : (t.insertSorted entry).forget = ⟨t.strtab, Lib.insertSorted Entry.less entry (t.forget).entries⟩ := by
  have hm : (Lib.insertSorted Deferred.less ⟨t.next, entry⟩ t.entries).map Deferred.entry =
      Lib.insertSorted Entry.less entry (t.entries.map Deferred.entry) := Lib.map_insertSorted fun _ _ => rfl
  unfold insertSorted forget
  rw [← hm, Lib.insertSorted]
  split
  · rfl
  · rfl

variable {key : SymbolInTable} {type : SymbolInTableType}

theorem find?_eq_none : t.find? key = none ↔ ∀ d ∈ t.entries, d.entry.rank ≠ key.rank := by
  simp only [find?, Option.map_eq_none_iff, List.find?_eq_none, Bool.and_eq_true, Bool.not_eq_true', ← Bool.not_eq_true,
    SymbolInTable.less_iff, not_lt]
  exact forall₂_congr fun d _ => not_congr le_antisymm_iff.symm

theorem contains_forget : t.forget.contains key = (t.find? key).isSome := by
  rw [Bool.eq_iff_iff, SymbolTableContent.contains, containsEquivalent_iff Entry.less_iff,
    ← Option.ne_none_iff_isSome, ne_eq, find?_eq_none]
  simp [forget, Entry.rank]

theorem forget_addOnce (type : SymbolInTableType) (sym) (value) :
    (t.addOnce type sym value).1.forget = t.forget.addOnce type sym value := by
  unfold addOnce SymbolTableContent.addOnce
  rw [contains_forget]
  cases hd : t.find? ⟨type, some sym, 0⟩ with
  | some pointer => rfl
  | none =>
    have hf : ∀ t' : IndexedTable, (if sym.bind = .bindLocal then t'.count else t').forget = t'.forget := by
      intro t'
      split
      · rfl
      · rfl
    simp only [hf, forget_insertSorted]
    rfl

theorem forget_call (c) : (t.call c).1.forget = t.forget.call c := by
  cases c with
  | nullSymbol => exact forget_insertSorted
  | sectionSymbol sym => exact forget_insertSorted
  | symbol func sym => exact forget_addOnce ..
  | dataVarSymbol sym address => exact forget_addOnce ..
  | globalVarSymbol sym address => exact forget_addOnce ..
  | pltSymbol plt sym => exact forget_insertSorted
  | undefinedSymbol sym => exact forget_addOnce ..
  | otherString data => rfl

theorem run_append (calls) (c) :
    run (calls ++ [c]) = (((run calls).1.call c).1, (run calls).2 ++ ((run calls).1.call c).2) := by
  simp [run]

theorem forget_run (calls) : (run calls).1.forget = build calls := by
  induction calls using reverseRecOn with
  | nil => rfl
  | append_singleton calls c ih =>
    rw [run_append, forget_call, ih]
    simp [build]

/-! ## One call -/

theorem insertSorted_entries :
    (∃ d ∈ t.entries, d.entry.rank = entry.rank) ∧ (t.insertSorted entry).entries = t.entries ∨
    (∀ d ∈ t.entries, d.entry.rank ≠ entry.rank) ∧ (t.insertSorted entry).entries.Perm (⟨t.next, entry⟩ :: t.entries) := by
  have hl : ∀ a b : Deferred, a.less b = true ↔ a.entry.rank < b.entry.rank := fun a b => a.entry.less_iff b.entry
  have hc : containsEquivalent Deferred.less ⟨t.next, entry⟩ t.entries = true ↔
      ∃ d ∈ t.entries, d.entry.rank = entry.rank := containsEquivalent_iff hl
  unfold insertSorted
  split
  · next h => exact .inl ⟨hc.1 h, rfl⟩
  · next h => exact .inr ⟨fun d hd heq => h (hc.2 ⟨d, hd, heq⟩), insertAt_perm ..⟩

@[simp] theorem next_insertSorted : (t.insertSorted entry).next = t.next + 1 := by
  unfold insertSorted
  split
  · rfl
  · rfl

@[simp] theorem firstGlobal_insertSorted : (t.insertSorted entry).firstGlobalIndex = t.firstGlobalIndex := by
  unfold insertSorted
  split
  · rfl
  · rfl

@[simp] theorem entries_count : t.count.entries = t.entries := rfl

@[simp] theorem next_count : t.count.next = t.next := rfl

@[simp] theorem firstGlobalIndex_count : t.count.firstGlobalIndex = t.firstGlobalIndex + 1 := rfl

theorem subset_insertSorted : t.entries ⊆ (t.insertSorted entry).entries := by
  obtain ⟨-, he⟩ | ⟨-, hp⟩ := @insertSorted_entries t entry
  · rw [he]
    exact List.Subset.refl _
  · exact fun d hd => hp.mem_iff.2 (mem_cons_of_mem _ hd)

theorem addOnce_cases (type : SymbolInTableType) (sym) (value) :
    (∃ d ∈ t.entries, d.entry.rank = rank ⟨type, some sym, 0⟩ ∧
      t.addOnce type sym value = (t, d.pointer)) ∨
    (t.addOnce type sym value).1.entries.Perm (⟨t.next, named t.strtab type (some sym) value⟩ :: t.entries) ∧
      (t.addOnce type sym value).2 = t.next := by
  unfold addOnce
  cases hf : t.find? ⟨type, some sym, 0⟩ with
  | some pointer =>
    obtain ⟨d, hd, rfl⟩ := Option.map_eq_some_iff.1 hf
    have he := find?_some hd
    simp only [Bool.and_eq_true, Bool.not_eq_true', ← Bool.not_eq_true, less_iff, not_lt] at he
    exact .inl ⟨d, mem_of_find?_eq_some hd, le_antisymm he.1 he.2, rfl⟩
  | none =>
    have ht : ∀ t' : IndexedTable, (if sym.bind = .bindLocal then t'.count else t').entries = t'.entries := by
      intro t'
      split
      · rfl
      · rfl
    obtain ⟨⟨d, hd, heq⟩, -⟩ | ⟨-, hp⟩ :=
      @insertSorted_entries (t.addString (sym.name.bytes ++ [0])) (named t.strtab type (some sym) value)
    · exact absurd heq (find?_eq_none.1 hf d hd)
    · refine .inr ⟨?_, rfl⟩
      simp only [ht]
      exact hp

theorem addOnce_spec (type : SymbolInTableType) (sym) (value) :
    t.entries ⊆ (t.addOnce type sym value).1.entries ∧ ∃ d ∈ (t.addOnce type sym value).1.entries,
      d.pointer = (t.addOnce type sym value).2 ∧ d.entry.rank = rank ⟨type, some sym, 0⟩ := by
  obtain ⟨d, hd, hr, heq⟩ | ⟨hp, ht⟩ := @addOnce_cases t type sym value
  · rw [heq]
    exact ⟨List.Subset.refl _, d, hd, rfl, hr⟩
  · refine ⟨fun d hd => hp.mem_iff.2 (mem_cons_of_mem _ hd), ⟨t.next, named t.strtab type (some sym) value⟩, ?_⟩
    exact ⟨hp.mem_iff.2 mem_cons_self, ht.symm, rfl⟩

theorem mem_addOnce {sym value d} (hd : d ∈ (t.addOnce type sym value).1.entries) :
    d ∈ t.entries ∨ d.entry.rank = rank ⟨type, some sym, 0⟩ ∧ d.entry.st_value = value := by
  obtain ⟨d', hd', hr, heq⟩ | ⟨hp, -⟩ := @addOnce_cases t type sym value
  · exact .inl (by rwa [heq] at hd)
  · rcases mem_cons.1 (hp.mem_iff.1 hd) with rfl | hd
    · exact .inr ⟨rfl, rfl⟩
    · exact .inl hd

theorem subset_call (c) : t.entries ⊆ (t.call c).1.entries := by
  cases c with
  | nullSymbol => exact @subset_insertSorted (t.addString _) _
  | sectionSymbol sym => exact subset_insertSorted
  | pltSymbol plt sym => exact @subset_insertSorted (t.addString _) _
  | symbol func sym => exact (addOnce_spec ..).1
  | dataVarSymbol sym address => exact (addOnce_spec ..).1
  | globalVarSymbol sym address => exact (addOnce_spec ..).1
  | undefinedSymbol sym => exact (addOnce_spec ..).1
  | otherString data => exact List.Subset.refl _

/-- The key that a call inserts without looking whether it is there. -/
def uncheckedKey : Call → Option SymbolInTable
  | .nullSymbol => some ⟨.typeNull, none, 0⟩
  | .sectionSymbol sym => some ⟨.typeSection, some sym, 0⟩
  | .pltSymbol _ sym => some ⟨.typePLT, some sym, 0⟩
  | _ => none

/-- The table after calls with the unchecked keys `keys`. -/
structure Counted (keys : List SymbolInTable) (t : IndexedTable) (returned : List Nat) : Prop where
  old : ∀ d ∈ t.entries, d.pointer < t.next
  nodup : (t.entries.map Deferred.pointer).Nodup
  total : t.firstGlobalIndex = keys.length + t.entries.countP fun d => d.entry.key.type = .typeLocal
  unchecked : ∀ rank, rank ∈ keys.map SymbolInTable.rank ↔
    ∃ d ∈ t.entries, d.entry.key.type.ctorIdx < 3 ∧ d.entry.rank = rank
  returned : (keys.map SymbolInTable.rank).Nodup → ∀ p ∈ returned, p ∈ t.entries.map Deferred.pointer

theorem type_eq_of_rank_eq {key' : SymbolInTable} (h : key.rank = key'.rank) :
    key.type.ctorIdx = key'.type.ctorIdx := by
  have h' := congrArg (fun r => (ofLex (ofLex r).2).1) h
  exact h'

section

variable {keys : List SymbolInTable} {returned : List Nat} (h : Counted keys t returned)
include h

theorem Counted.addString (data) : Counted keys (t.addString data) returned :=
  ⟨h.old, h.nodup, h.total, h.unchecked, h.returned⟩

theorem Counted.nodup_of_perm {entries : List Deferred} (hp : entries.Perm (⟨t.next, entry⟩ :: t.entries)) :
    (∀ d ∈ entries, d.pointer < t.next + 1) ∧ (entries.map Deferred.pointer).Nodup := by
  constructor
  · intro d hd
    rcases mem_cons.1 (hp.mem_iff.1 hd) with rfl | hd
    · exact Nat.lt_succ_self _
    · exact (h.old d hd).trans (Nat.lt_succ_self _)
  · refine (hp.map _).nodup_iff.2 (nodup_cons.2 ⟨fun hm => ?_, h.nodup⟩)
    obtain ⟨d, hd, heq⟩ := mem_map.1 hm
    exact (h.old d hd).ne heq

theorem Counted.insertUnchecked (entry) (hentr : entry.key.type.ctorIdx < 3) (new : List Nat) (hn : ∀ p ∈ new, p = t.next) :
    Counted (keys ++ [entry.key]) (t.insertSorted entry).count (returned ++ new) := by
  have hl : ¬ (entry.key.type = .typeLocal) := fun heq => by
    rw [heq] at hentr
    exact absurd hentr (by decide)
  have hs : ∀ rank, rank ∈ (keys ++ [entry.key]).map SymbolInTable.rank ↔
      rank ∈ keys.map SymbolInTable.rank ∨ rank = entry.rank := by
    intro rank
    simp [Entry.rank]
  obtain ⟨⟨d, hd, heq⟩, he⟩ | ⟨-, hm⟩ := @insertSorted_entries t entry
  · -- dropped: the key was counted before
    have ht : entry.rank ∈ keys.map rank :=
      (h.unchecked _).2 ⟨d, hd, (type_eq_of_rank_eq heq).trans_lt hentr, heq⟩
    refine ⟨?_, ?_, ?_, ?_, ?_⟩
    · rw [entries_count, he, next_count, next_insertSorted]
      exact fun d hd => (h.old d hd).trans (Nat.lt_succ_self _)
    · rw [entries_count, he]
      exact h.nodup
    · rw [entries_count, he, firstGlobalIndex_count, firstGlobal_insertSorted, h.total, length_append,
        length_singleton]
      omega
    · intro rank
      rw [hs, entries_count, he, ← h.unchecked]
      exact or_iff_left_of_imp fun heq => heq ▸ ht
    · rw [map_append, map_singleton]
      exact fun hnd => absurd (disjoint_of_nodup_append hnd ht (by simp [Entry.rank])) id
  · obtain ⟨ho, hnd⟩ := h.nodup_of_perm hm
    refine ⟨?_, hnd, ?_, ?_, ?_⟩
    · rwa [entries_count, next_count, next_insertSorted]
    · rw [entries_count, hm.countP_eq, countP_cons_of_neg (by simpa using hl), firstGlobalIndex_count,
        firstGlobal_insertSorted, h.total, length_append, length_singleton]
      omega
    · intro rank
      simp only [entries_count, hm.mem_iff, mem_cons, exists_eq_or_imp]
      rw [hs, h.unchecked, or_comm, eq_comm]
      exact or_congr_left (by simp [hentr])
    · rw [map_append]
      intro hk p hp
      rw [entries_count, (hm.map _).mem_iff]
      rcases mem_append.1 hp with hp | hp
      · exact mem_cons_of_mem _ (h.returned hk.of_append_left p hp)
      · rw [hn p hp]
        exact mem_cons_self

theorem Counted.insertChecked (entry : Entry) (he : 3 ≤ entry.key.type.ctorIdx) (hf : ∀ d ∈ t.entries, d.entry.rank ≠ entry.rank) :
    Counted keys (if entry.key.type = .typeLocal then (t.insertSorted entry).count else t.insertSorted entry)
      (returned ++ [t.next]) := by
  obtain ⟨⟨d, hd, heq⟩, -⟩ | ⟨-, hm⟩ := @insertSorted_entries t entry
  · exact absurd heq (hf d hd)
  · obtain ⟨ho, hnd⟩ := h.nodup_of_perm hm
    have hu : ∀ rank, rank ∈ keys.map SymbolInTable.rank ↔
        ∃ d ∈ (t.insertSorted entry).entries, d.entry.key.type.ctorIdx < 3 ∧ d.entry.rank = rank := by
      intro rank
      simp only [hm.mem_iff, mem_cons, exists_eq_or_imp]
      rw [h.unchecked]
      exact (or_iff_right (fun hlt => absurd hlt.1 (Nat.not_lt.2 he))).symm
    have hr : (keys.map rank).Nodup → ∀ p ∈ returned ++ [t.next],
        p ∈ (t.insertSorted entry).entries.map Deferred.pointer := by
      intro hk p hp
      rw [(hm.map _).mem_iff]
      rcases mem_append.1 hp with hp | hp
      · exact mem_cons_of_mem _ (h.returned hk p hp)
      · rw [mem_singleton.1 hp]
        exact mem_cons_self
    split
    · next hl =>
      refine ⟨by rwa [entries_count, next_count, next_insertSorted], hnd, ?_, hu, hr⟩
      rw [entries_count, hm.countP_eq, countP_cons_of_pos (by simpa using hl), firstGlobalIndex_count,
        firstGlobal_insertSorted, h.total, add_assoc]
    · next hl =>
      refine ⟨by rwa [next_insertSorted], hnd, ?_, hu, hr⟩
      rw [hm.countP_eq, countP_cons_of_neg (by simpa using hl), firstGlobal_insertSorted, h.total]

theorem Counted.addOnce (sym) (value) (ht : 3 ≤ type.ctorIdx)
    (hl : type = .typeLocal ↔ sym.bind = .bindLocal) :
    Counted keys (t.addOnce type sym value).1 (returned ++ [(t.addOnce type sym value).2]) := by
  unfold IndexedTable.addOnce
  cases hf : t.find? ⟨type, some sym, 0⟩ with
  | some pointer =>
    obtain ⟨d, hd, rfl⟩ := Option.map_eq_some_iff.1 hf
    refine ⟨h.old, h.nodup, h.total, h.unchecked, fun hnd p hp => ?_⟩
    rcases mem_append.1 hp with hp | hp
    · exact h.returned hnd p hp
    · rw [mem_singleton.1 hp]
      exact mem_map_of_mem (mem_of_find?_eq_some hd)
  | none =>
    have hs := (h.addString (sym.name.bytes ++ [0])).insertChecked (named t.strtab type (some sym) value) ht
      (find?_eq_none.1 hf)
    simp only [named, hl] at hs
    exact hs

theorem Counted.addOnce_typeOr (sym) (value) (ht : 4 ≤ type.ctorIdx) :
    Counted keys (t.addOnce (typeOr sym type) sym value).1 (returned ++ [(t.addOnce (typeOr sym type) sym value).2]) := by
  unfold typeOr
  by_cases hb : sym.bind = .bindLocal
  · rw [if_pos hb]
    exact h.addOnce sym value (by decide) (iff_of_true rfl hb)
  · rw [if_neg hb]
    refine h.addOnce sym value (by omega) (iff_of_false (fun heq => ?_) hb)
    rw [heq] at ht
    exact absurd ht (by decide)

theorem Counted.call (c) : Counted (keys ++ (uncheckedKey c).toList) (t.call c).1 (returned ++ (t.call c).2) := by
  have hc : ∀ {t' : IndexedTable} {returned' : List Nat}, Counted keys t' returned' → Counted (keys ++ []) t' returned' := by
    intro t' returned' h'
    rwa [append_nil]
  cases c with
  | nullSymbol =>
    exact (h.addString [0]).insertUnchecked (named t.strtab .typeNull none 0) (by decide : 0 < 3) [] (by simp)
  | sectionSymbol sym =>
    exact h.insertUnchecked ⟨⟨.typeSection, some sym, 0⟩, 0, 0⟩ (by decide : 1 < 3) [] (by simp)
  | pltSymbol plt sym =>
    exact (h.addString (sym.name.bytes ++ [0])).insertUnchecked (named t.strtab .typePLT (some sym) (plt.getD 0))
      (by decide : 2 < 3) [t.next] (by simp [IndexedTable.addString])
  | symbol func sym => exact hc (h.addOnce_typeOr _ _ (by decide : 4 ≤ 5))
  | dataVarSymbol sym address => exact hc (h.addOnce_typeOr sym address (by decide))
  | globalVarSymbol sym address => exact hc (h.addOnce_typeOr sym address (by decide))
  | undefinedSymbol sym => exact hc (h.addOnce_typeOr sym _ (by decide : 4 ≤ 4))
  | otherString data => simpa [uncheckedKey, IndexedTable.call] using h.addString data

end

theorem counted_run (calls) : Counted (calls.filterMap uncheckedKey) (run calls).1 (run calls).2 := by
  induction calls using reverseRecOn with
  | nil => exact ⟨by simp [run, empty], by simp [run, empty], rfl, by simp [run, empty], by simp [run, empty]⟩
  | append_singleton calls c ih =>
    rw [run_append, filterMap_append]
    have hs := ih.call c
    cases hk : uncheckedKey c <;> simpa [hk] using hs

/-! ## Whole runs -/

theorem ranked_run (calls) : (run calls).1.entries.Pairwise (fun d d' => d.entry.rank < d'.entry.rank) ∧
      ∀ d ∈ (run calls).1.entries, d.entry.key.tableIndex = 0 := by
  have hwf := wellFormed_build calls
  rw [← forget_run] at hwf
  have hs : ((run calls).1.entries.map Deferred.entry).Pairwise fun e e' => e.rank < e'.rank := hwf.sorted
  rw [pairwise_map] at hs
  exact ⟨hs, fun d hd => (hwf.entryOk d.entry (mem_map_of_mem hd)).unindexed⟩

theorem type_le_of_rank_lt {key' : SymbolInTable} (hi : key.tableIndex = 0) (hi' : key'.tableIndex = 0)
    (h : key.rank < key'.rank) : key.type.ctorIdx ≤ key'.type.ctorIdx := by
  simp only [rank, Prod.Lex.toLex_lt_toLex, hi, hi', lt_irrefl, true_and, false_or] at h
  omega

/-- The types that come before the global symbols. -/
def beforeGlobal (d : Deferred) : Bool := d.entry.key.type ≠ .typeUndef && d.entry.key.type ≠ .typeGlobal

theorem beforeGlobal_iff (d) : beforeGlobal d = true ↔ d.entry.key.type.ctorIdx < 4 := by
  unfold beforeGlobal
  cases d.entry.key.type <;> decide

/-- The entries before the global ones are those inserted without looking, and the local ones. -/
theorem length_beforeGlobal (calls) : ((run calls).1.entries.takeWhile beforeGlobal).length =
    (run calls).1.entries.countP (fun d => d.entry.key.type.ctorIdx < 3) +
      (run calls).1.entries.countP fun d => d.entry.key.type = .typeLocal := by
  obtain ⟨hr, hi⟩ := ranked_run calls
  rw [length_takeWhile_eq_countP, countP_eq_countP_filter_add _ _ fun d : Deferred => d.entry.key.type.ctorIdx < 3,
    countP_filter, countP_filter]
  · congr 1
    · refine countP_congr fun d _ => ?_
      rw [Bool.and_eq_true, beforeGlobal_iff, decide_eq_true_eq]
      omega
    · refine countP_congr fun d _ => ?_
      rw [Bool.and_eq_true, beforeGlobal_iff]
      cases d.entry.key.type <;> decide
  · refine hr.imp_of_mem fun {d d'} hd hd' hlt => ?_
    have := type_le_of_rank_lt (hi d hd) (hi d' hd') hlt
    rw [beforeGlobal_iff, beforeGlobal_iff]
    omega

/-- The keys that stay are the distinct ones. -/
theorem countP_unchecked_iff (calls) :
    ((run calls).1.entries.countP fun d => d.entry.key.type.ctorIdx < 3) = (calls.filterMap uncheckedKey).length ↔
      ((calls.filterMap uncheckedKey).map rank).Nodup := by
  have hc := counted_run calls
  obtain ⟨hr, -⟩ := ranked_run calls
  generalize hk : (calls.filterMap uncheckedKey).map rank = ranks
  have hnd : (((run calls).1.entries.filter fun d => d.entry.key.type.ctorIdx < 3).map fun d => d.entry.rank).Nodup :=
    pairwise_map.2 ((hr.sublist filter_sublist).imp fun hlt => hlt.ne)
  have hp : (((run calls).1.entries.filter fun d => d.entry.key.type.ctorIdx < 3).map fun d => d.entry.rank).Perm
      ranks.dedup := by
    refine (perm_ext_iff_of_nodup hnd (nodup_dedup _)).2 fun rank => ?_
    rw [mem_dedup, ← hk, hc.unchecked]
    simp [and_assoc]
  have hl : (calls.filterMap uncheckedKey).length = ranks.length := by rw [← hk, length_map]
  rw [countP_eq_length_filter, ← length_map fun d : Deferred => d.entry.rank, hp.length_eq, hl]
  constructor
  · intro heq
    rw [← (dedup_sublist ranks).eq_of_length heq]
    exact nodup_dedup ranks
  · intro h
    rw [h.dedup]

theorem indexOf_recalculateIndices {i d} (hnd : (t.entries.map Deferred.pointer).Nodup)
    (hd : t.entries[i]? = some d) : t.recalculateIndices.indexOf d.pointer = i := by
  unfold indexOf recalculateIndices
  rw [find?_assignAll_mapIdx hnd hd]

/-- What users of the table rely on. -/
structure Ordered (t : IndexedTable) (returned : List Nat) : Prop where
  sorted : t.entries.Pairwise fun d d' => d.less d' = true
  firstGlobal : t.firstGlobalIndex = (t.entries.takeWhile beforeGlobal).length
  returned : ∀ p ∈ returned, p ∈ t.entries.map Deferred.pointer
  indexed : ∀ i d, t.entries[i]? = some d → t.recalculateIndices.indexOf d.pointer = i

/-- It holds exactly when no two null, section or PLT symbols have equivalent keys. -/
theorem ordered_iff (calls : List Call) : Ordered (run calls).1 (run calls).2 ↔
    ((calls.filterMap uncheckedKey).map SymbolInTable.rank).Nodup := by
  have hct := counted_run calls
  have htt := hct.total
  rw [← countP_unchecked_iff]
  constructor
  · intro h
    have := h.firstGlobal
    rw [length_beforeGlobal] at this
    omega
  · intro h
    refine ⟨?_, ?_, ?_, ?_⟩
    · exact (ranked_run calls).1.imp fun {d d'} hlt => (d.entry.less_iff d'.entry).2 hlt
    · rw [length_beforeGlobal, htt, h]
    · exact hct.returned ((countP_unchecked_iff calls).1 h)
    · intro i d hd
      exact indexOf_recalculateIndices hct.nodup hd

def puts : Symbol := ⟨⟨[0x70, 0x75, 0x74, 0x73], by decide⟩, .bindGlobal, 0⟩

/-- Two PLT symbols of one name: the second value is not in the table, and both are counted. -/
theorem second_plt_symbol_dropped :
    (run [.nullSymbol, .pltSymbol none puts, .pltSymbol none puts]).1.firstGlobalIndex = 3 ∧
    (run [.nullSymbol, .pltSymbol none puts, .pltSymbol none puts]).1.entries.map Deferred.pointer = [0, 1] ∧
    (run [.nullSymbol, .pltSymbol none puts, .pltSymbol none puts]).2 = [1, 2] ∧
    (run [.nullSymbol, .pltSymbol none puts, .pltSymbol none puts]).1.recalculateIndices.indexOf 2 = 2 ^ 64 - 1 := by
  decide +kernel

end IndexedTable

end Egalito.Generate
