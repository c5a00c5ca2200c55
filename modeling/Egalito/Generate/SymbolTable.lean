/-
The symbol table under construction (`generate/concretedeferred.cpp`, `generate/deferred.h`): keys with their order,
entries sorted by key, the string table, and the functions that add symbols.
-/
import Egalito.Lib.Ranked
import Egalito.Lib.Stream
import Egalito.Util.Range
import Mathlib.Data.Prod.Lex
import Mathlib.Data.List.Lex

namespace Egalito.Generate

open Lib List

/-! ## Symbols and their order -/

/-- The bytes of a `const char *` up to its terminator. -/
structure CString where
  bytes : List Byte
  noNull : 0 ∉ bytes
  deriving DecidableEq

inductive SymbolInTableType
  | typeNull
  | typeSection
  | typePLT
  | typeLocal
  | typeUndef
  | typeGlobal
  deriving DecidableEq, Repr

inductive BindingType
  | bindLocal
  | bindGlobal
  | bindWeak
  deriving DecidableEq, Repr

structure Symbol where
  name : CString
  bind : BindingType
  shndx : BitVec 64
  deriving DecidableEq

/-- `getSectionIndex` as the comparison reads it, into an `int`. -/
def Symbol.section32 (sym : Symbol) : Int := (sym.shndx.setWidth 32).toInt

structure SymbolInTable where
  type : SymbolInTableType
  sym : Option Symbol
  tableIndex : Nat
  deriving DecidableEq

/-- What `getName` says of a key without a symbol. -/
def nullName : CString := ⟨[0x28, 0x6e, 0x75, 0x6c, 0x6c, 0x29], by decide⟩

def SymbolInTable.getName (key : SymbolInTable) : CString :=
  match key.sym with
  | some sym => sym.name
  | none => nullName

def strcmp : List Byte → List Byte → Ordering
  | [], [] => .eq
  | [], _ :: _ => .lt
  | _ :: _, [] => .gt
  | a :: s, b :: t => if a.toNat < b.toNat then .lt else if b.toNat < a.toNat then .gt else strcmp s t

/-- The end of `operator <`, for two symbols. -/
def Symbol.less (sym other : Symbol) : Bool :=
  match strcmp sym.name.bytes other.name.bytes with
  | .lt => true
  | .gt => false
  | .eq => decide (sym.section32 < other.section32)

def SymbolInTable.less (key other : SymbolInTable) : Bool :=
  if key.tableIndex < other.tableIndex then true
  else if other.tableIndex < key.tableIndex then false
  else if key.type.ctorIdx < other.type.ctorIdx then true
  else if other.type.ctorIdx < key.type.ctorIdx then false
  else
    match key.sym, other.sym with
    | none, some _ => true
    | some _, none => false
    | none, none => false
    | some sym, some sym' => sym.less sym'

/-- The order of symbols, a missing one first. -/
def symbolRank : Option Symbol → Nat ×ₗ List Nat ×ₗ Int
  | none => toLex (0, toLex ([], 0))
  | some sym => toLex (1, toLex (sym.name.bytes.map BitVec.toNat, sym.section32))

/-- The linear order that `operator <` decides. -/
def SymbolInTable.rank (key : SymbolInTable) : Nat ×ₗ Nat ×ₗ Nat ×ₗ List Nat ×ₗ Int :=
  toLex (key.tableIndex, toLex (key.type.ctorIdx, symbolRank key.sym))

theorem strcmp_lt_iff : ∀ {s t}, strcmp s t = .lt ↔ s.map BitVec.toNat < t.map BitVec.toNat
  | [], [] => by simp [strcmp]
  | [], _ :: _ => by simp [strcmp]
  | _ :: _, [] => by simp [strcmp]
  | a :: s, b :: t => by
    rw [strcmp, map_cons, map_cons, cons_lt_cons_iff, ← strcmp_lt_iff]
    split
    · simp_all
    · split
      · rename_i h1 h2
        simp [h1, h2.ne']
      · have heq : a.toNat = b.toNat := by omega
        simp [heq]

theorem strcmp_eq_iff : ∀ {s t}, strcmp s t = .eq ↔ s.map BitVec.toNat = t.map BitVec.toNat
  | [], [] => by simp [strcmp]
  | [], _ :: _ => by simp [strcmp]
  | _ :: _, [] => by simp [strcmp]
  | a :: s, b :: t => by
    rw [strcmp, map_cons, map_cons, cons_eq_cons, ← strcmp_eq_iff]
    split
    · rename_i h1
      simp [h1.ne]
    · split
      · rename_i h1 h2
        simp [h2.ne']
      · have heq : a.toNat = b.toNat := by omega
        simp [heq]

theorem Symbol.less_iff (sym other) :
    sym.less other = true ↔ symbolRank (some sym) < symbolRank (some other) := by
  unfold Symbol.less symbolRank
  rw [Prod.Lex.toLex_lt_toLex, Prod.Lex.toLex_lt_toLex, ← strcmp_lt_iff, ← strcmp_eq_iff]
  cases strcmp sym.name.bytes other.name.bytes <;> simp

theorem SymbolInTable.less_iff (key other : SymbolInTable) : key.less other = true ↔ key.rank < other.rank := by
  unfold SymbolInTable.less SymbolInTable.rank
  rw [Prod.Lex.toLex_lt_toLex, Prod.Lex.toLex_lt_toLex]
  have hs : (match key.sym, other.sym with
      | none, some _ => true
      | some _, none => false
      | none, none => false
      | some sym, some sym' => sym.less sym') = true ↔ symbolRank key.sym < symbolRank other.sym := by
    cases hk : key.sym with
    | none => cases ho : other.sym <;> simp [symbolRank, Prod.Lex.toLex_lt_toLex]
    | some sym =>
      cases ho : other.sym with
      | none => simp [symbolRank, Prod.Lex.toLex_lt_toLex]
      | some sym' => exact sym.less_iff sym'
  rw [← hs]
  split
  · simp_all
  · split
    · rename_i h1 h2
      simp [h1, h2.ne']
    · rename_i h1 h2
      have hi : key.tableIndex = other.tableIndex := by omega
      split
      · simp_all
      · split
        · rename_i h3 h4
          simp [hi, h3, h4.ne']
        · rename_i h3 h4
          have ht : key.type.ctorIdx = other.type.ctorIdx := by omega
          simp [hi, ht]

/-! ## The table -/

structure Entry where
  key : SymbolInTable
  st_name : BitVec 32
  st_value : Address
  deriving DecidableEq

def Entry.less (e other : Entry) : Bool := e.key.less other.key

def Entry.rank (e : Entry) : Nat ×ₗ Nat ×ₗ Nat ×ₗ List Nat ×ₗ Int := e.key.rank

theorem Entry.less_iff (e other : Entry) : e.less other = true ↔ e.rank < other.rank := e.key.less_iff other.key

structure SymbolTableContent where
  strtab : List Byte
  entries : List Entry
  deriving DecidableEq

namespace SymbolTableContent

def empty : SymbolTableContent := ⟨[], []⟩

/-- `insertSorted` of a new value whose name was added to the string table just before. -/
def insertNamed (t : SymbolTableContent) (type : SymbolInTableType) (sym : Option Symbol) (name : List Byte)
    (value : Address) : SymbolTableContent :=
  ⟨t.strtab ++ (name ++ [0]),
    insertSorted Entry.less ⟨⟨type, sym, 0⟩, BitVec.ofNat 32 t.strtab.length, value⟩ t.entries⟩

def contains (t : SymbolTableContent) (key : SymbolInTable) : Bool :=
  containsEquivalent Entry.less ⟨key, 0, 0⟩ t.entries

def addNullSymbol (t : SymbolTableContent) : SymbolTableContent := t.insertNamed .typeNull none [] 0

/-- A section symbol has the name at offset zero, whatever that is. -/
def addSectionSymbol (t : SymbolTableContent) (sym : Symbol) : SymbolTableContent :=
  { t with entries := insertSorted Entry.less ⟨⟨.typeSection, some sym, 0⟩, 0, 0⟩ t.entries }

/-- The common course of the functions that first look whether the key is there. -/
def addOnce (t : SymbolTableContent) (type : SymbolInTableType) (sym : Symbol) (value : Address) : SymbolTableContent :=
  if t.contains ⟨type, some sym, 0⟩ then t else t.insertNamed type (some sym) sym.name.bytes value

/-- The type under which a symbol is entered that is not local. -/
def typeOr (sym : Symbol) (type : SymbolInTableType) : SymbolInTableType :=
  if sym.bind = .bindLocal then .typeLocal else type

/-- What `addSymbol` reads of a function. -/
structure Func where
  name : CString
  address : Address
  deriving DecidableEq

/-- The symbol that is made for a function without one. -/
def Func.symbol (func : Func) : Symbol := ⟨func.name, .bindGlobal, 0⟩

/-- `addSymbol` once there is a symbol; without a function and without a symbol the source follows
a null pointer. -/
def addSymbol (t : SymbolTableContent) (func : Option Func) (sym : Symbol) : SymbolTableContent :=
  t.addOnce (typeOr sym (if func.isSome then .typeGlobal else .typeUndef)) sym ((func.map Func.address).getD 0)

def addDataVarSymbol (t : SymbolTableContent) (sym : Symbol) (address : Address) : SymbolTableContent :=
  t.addOnce (typeOr sym .typeGlobal) sym address

def addGlobalVarSymbol (t : SymbolTableContent) (sym : Symbol) (address : Address) : SymbolTableContent :=
  t.addOnce (typeOr sym .typeGlobal) sym address

/-- `addPLTSymbol` does not look first: the name is added even where the entry then is not. -/
def addPLTSymbol (t : SymbolTableContent) (plt : Option Address) (sym : Symbol) : SymbolTableContent :=
  t.insertNamed .typePLT (some sym) sym.name.bytes (plt.getD 0)

def addUndefinedSymbol (t : SymbolTableContent) (sym : Symbol) : SymbolTableContent := t.addSymbol none sym

/-- The calls that build a table. The string table has other users, which append what they like. -/
inductive Call
  | nullSymbol
  | sectionSymbol (sym : Symbol)
  | symbol (func : Func) (sym : Option Symbol)
  | dataVarSymbol (sym : Symbol) (address : Address)
  | globalVarSymbol (sym : Symbol) (address : Address)
  | pltSymbol (plt : Option Address) (sym : Symbol)
  | undefinedSymbol (sym : Symbol)
  | otherString (data : List Byte)

def call (t : SymbolTableContent) : Call → SymbolTableContent
  | .nullSymbol => t.addNullSymbol
  | .sectionSymbol sym => t.addSectionSymbol sym
  | .symbol func sym => t.addSymbol (some func) (sym.getD func.symbol)
  | .dataVarSymbol sym address => t.addDataVarSymbol sym address
  | .globalVarSymbol sym address => t.addGlobalVarSymbol sym address
  | .pltSymbol plt sym => t.addPLTSymbol plt sym
  | .undefinedSymbol sym => t.addUndefinedSymbol sym
  | .otherString data => { t with strtab := t.strtab ++ data }

def build (calls : List Call) : SymbolTableContent := calls.foldl call empty

/-- `dynstrData.c_str() + st_name`. -/
def nameOf (t : SymbolTableContent) (e : Entry) : List Byte :=
  (t.strtab.drop e.st_name.toNat).takeWhile (· ≠ 0)

/-! ## What holds of every table -/

/-- The name was added to the string table at the offset that the entry has. -/
def Holds (strtab : List Byte) (e : Entry) : Prop :=
  ∃ before after, strtab = before ++ (e.key.getName.bytes ++ 0 :: after) ∧ e.st_name = BitVec.ofNat 32 before.length

/-- What an entry looks like, by its type. -/
structure EntryOk (strtab : List Byte) (e : Entry) : Prop where
  unindexed : e.key.tableIndex = 0
  unplaced : e.key.type.ctorIdx ≤ 1 → e.st_value = 0
  named : 1 < e.key.type.ctorIdx → e.key.sym ≠ none ∧ Holds strtab e
  nullSymbol : e.key.sym = none → e.key.type = .typeNull

structure WellFormed (t : SymbolTableContent) : Prop where
  sorted : Ranked Entry.rank t.entries
  entryOk : ∀ e ∈ t.entries, EntryOk t.strtab e

variable {e : Entry} {type : SymbolInTableType}

theorem EntryOk.append {strtab} (h : EntryOk strtab e) (data) : EntryOk (strtab ++ data) e := by
  refine ⟨h.unindexed, h.unplaced, fun ht => ?_, h.nullSymbol⟩
  obtain ⟨hs, pre, post, heq, hn⟩ := h.named ht
  exact ⟨hs, pre, post ++ data, by simp [heq], hn⟩

theorem mem_insertSorted {x l} (h : x ∈ insertSorted Entry.less e l) : x = e ∨ x ∈ l := by
  unfold insertSorted at h
  split at h
  · exact .inr h
  · exact mem_insertAt.1 h

variable {t : SymbolTableContent}

/-- The step: the old entries are kept, and the new one is described at the longer string table. -/
theorem WellFormed.insert (h : t.WellFormed) (data) (he : EntryOk (t.strtab ++ data) e) :
    WellFormed ⟨t.strtab ++ data, insertSorted Entry.less e t.entries⟩ := by
  refine ⟨h.sorted.insertSorted Entry.less_iff, fun x hx => ?_⟩
  rcases mem_insertSorted hx with rfl | hx
  · exact he
  · exact (h.entryOk x hx).append data

theorem WellFormed.insertNamed (h : t.WellFormed) (ht : 1 < type.ctorIdx) (sym) (value) :
    (t.insertNamed type (some sym) sym.name.bytes value).WellFormed := by
  apply h.insert
  refine ⟨rfl, fun hle => absurd ht (by simpa using hle), fun _ => ⟨by simp, ?_⟩, by simp⟩
  exact ⟨t.strtab, [], rfl, rfl⟩

theorem WellFormed.addOnce (h : t.WellFormed) (ht : 1 < type.ctorIdx) (sym) (value) :
    (t.addOnce type sym value).WellFormed := by
  unfold SymbolTableContent.addOnce
  split
  · exact h
  · exact h.insertNamed ht sym value

theorem one_lt_typeOr (ht : 1 < type.ctorIdx) (sym) : 1 < (typeOr sym type).ctorIdx := by
  unfold typeOr
  split
  · decide
  · exact ht

theorem WellFormed.addSymbol (h : t.WellFormed) (func) (sym) : (t.addSymbol func sym).WellFormed := by
  apply h.addOnce
  apply one_lt_typeOr
  split
  · decide
  · decide

theorem WellFormed.call (h : t.WellFormed) (c) : (t.call c).WellFormed := by
  cases c with
  | nullSymbol =>
    exact h.insert _ ⟨rfl, fun _ => rfl, fun hlt => absurd hlt (Nat.not_lt_zero _ ∘ Nat.lt_of_succ_lt), fun _ => rfl⟩
  | sectionSymbol sym =>
    have hs := h.insert (e := ⟨⟨.typeSection, some sym, 0⟩, 0, 0⟩) []
      ⟨rfl, fun _ => rfl, fun hlt => absurd hlt (lt_irrefl 1), by simp⟩
    rw [append_nil] at hs
    exact hs
  | symbol func sym => exact h.addSymbol (some func) _
  | dataVarSymbol sym address => exact h.addOnce (one_lt_typeOr (by decide) sym) sym address
  | globalVarSymbol sym address => exact h.addOnce (one_lt_typeOr (by decide) sym) sym address
  | pltSymbol plt sym => exact h.insertNamed (by decide) sym _
  | undefinedSymbol sym => exact h.addSymbol none sym
  | otherString data => exact ⟨h.sorted, fun e he => (h.entryOk e he).append data⟩

theorem wellFormed_foldl : ∀ (calls : List Call) {t : SymbolTableContent}, t.WellFormed →
    (calls.foldl call t).WellFormed
  | [], _, h => h
  | c :: calls, _, h => wellFormed_foldl calls (h.call c)

theorem wellFormed_build (calls) : (build calls).WellFormed :=
  wellFormed_foldl calls ⟨List.Pairwise.nil, by simp [empty]⟩

/-- The name that the hash sees is the one of the key, while the offsets fit their field. -/
theorem WellFormed.nameOf_eq (h : t.WellFormed) (hf : t.strtab.length < 2 ^ 32) (he : e ∈ t.entries)
    (ht : 1 < e.key.type.ctorIdx) : t.nameOf e = e.key.getName.bytes := by
  obtain ⟨-, pre, post, heq, hn⟩ := (h.entryOk e he).named ht
  have hlt : pre.length < 2 ^ 32 := by
    rw [heq, length_append] at hf
    omega
  have ha : ∀ b ∈ e.key.getName.bytes, decide (b ≠ 0) = true := fun b hb => by
    rw [decide_eq_true_eq]
    rintro rfl
    exact e.key.getName.noNull hb
  unfold nameOf
  rw [hn, BitVec.toNat_ofNat, Nat.mod_eq_of_lt hlt, heq, drop_left, takeWhile_append_of_pos ha]
  simp

end SymbolTableContent

end Egalito.Generate
