/-
The code of a module in the output file (`ModuleGen::makeText` and what it calls in `generate/modulegen.cpp`).

The pages that the functions use are merged into regions, each of which becomes a section (`Lib.Merge` gives that they
are maximal and apart). The loops over regions, functions and symbols are one list of additions to the symbol table, of
which the first one with a key makes the entry and the last one names its section. `emitted_iff` says from this, for
every module, when each function has its symbol, and for every content of the backing, when the sections have its
bytes.
-/
import Egalito.Generate.SymbolIndex
import Egalito.Lib.Merge

namespace Egalito.Generate

open Lib List
open IndexedTable

/-! ## Functions and the pages they use -/

/-- A symbol at the address of another one, and whether it has the type of that. -/
structure Alias where
  sym : Symbol
  sameType : Bool
  deriving DecidableEq

structure FunctionSymbol where
  sym : Symbol
  aliases : List Alias
  deriving DecidableEq

structure TextFunction where
  name : CString
  address : Address
  size : BitVec 64
  symbol : Option FunctionSymbol
  deriving DecidableEq

def pageOf (a : Address) : Nat := a.toNat / 0x1000 * 0x1000

namespace TextFunction

open SymbolTableContent (Func typeOr)

def stop (f : TextFunction) : Address := f.address + f.size

def pages (f : TextFunction) : List Nat :=
  range' (pageOf f.address) ((pageOf (f.stop + 0xfff) - pageOf f.address) / 0x1000) 0x1000

/-- The test for a function that is not in the section. -/
def outside (f : TextFunction) (range : Interval) : Bool :=
  f.address.toNat < range.start || (range.start + range.size) % 2 ^ 64 ≤ f.stop.toNat

def func (f : TextFunction) : Func := ⟨f.name, f.address⟩

/-- The symbols that are added for the function: its own, which may be null, and its aliases. -/
def symbols (f : TextFunction) : List (Option Symbol) :=
  match f.symbol with
  | none => [none]
  | some s => some s.sym :: (s.aliases.filter fun a => a.sym.name ≠ f.name && a.sameType).map fun a => some a.sym

def keyOf (f : TextFunction) (sym : Option Symbol) : SymbolInTable :=
  ⟨typeOr (sym.getD f.func.symbol) .typeGlobal, some (sym.getD f.func.symbol), 0⟩

def key (f : TextFunction) : SymbolInTable := f.keyOf (f.symbol.map FunctionSymbol.sym)

end TextFunction

/-- The set of pages, in its order. -/
def pagesUsed (functions : List TextFunction) : List Nat :=
  (assignAll ((functions.flatMap TextFunction.pages).map fun page => (page, ()))).map Prod.fst

/-- The maximal runs of used pages. -/
def codeRegions (functions : List TextFunction) : List Interval := merge 0x1000 (pagesUsed functions)

/-- `.text`, or `.text.0x` with the address in hexadecimal digits. -/
inductive SectionName
  | text
  | textAt (address : Nat)
  deriving DecidableEq, Repr

/-- The symbol table, and the callbacks on its values, which run in their order. -/
structure TextSymbols where
  symtab : IndexedTable
  callbacks : List (Nat × SectionName)

/-- `addSymbol`, and `addFunction` on the value it returns. -/
structure Addition where
  func : TextFunction
  sym : Option Symbol
  textSection : SectionName

def Addition.key (x : Addition) : SymbolInTable := x.func.keyOf x.sym

namespace TextSymbols

def add (s : TextSymbols) (x : Addition) : TextSymbols :=
  let added := s.symtab.addSymbol (some x.func.func) (x.sym.getD x.func.func.symbol)
  ⟨added.1, s.callbacks ++ [(added.2, x.textSection)]⟩

/-- The section that `st_shndx` names after the callbacks: the last one counts. -/
def stShndx (s : TextSymbols) (pointer : Nat) : Option SectionName :=
  (s.callbacks.filter fun c => c.1 = pointer).getLast?.map Prod.snd

def makeSymbolInText (s : TextSymbols) (f : TextFunction) (textSection : SectionName) : TextSymbols :=
  f.symbols.foldl (fun s sym => s.add ⟨f, sym, textSection⟩) s

def makeSymbolsAndRelocs (s : TextSymbols) (functions : List TextFunction) (range : Interval)
    (textSection : SectionName) : TextSymbols :=
  functions.foldl (fun s f => if f.outside range then s else s.makeSymbolInText f textSection) s

end TextSymbols

structure CodeBacking where
  base : Address
  buffer : List Byte

structure TextConfig where
  uniqueSectionNames : Bool
  backing : Option CodeBacking

/-- A byte past the end of the buffer is `none`. -/
structure TextSection where
  name : SectionName
  address : Nat
  content : List (Option Byte)

namespace TextSection

def stop (s : TextSection) : Nat := s.address + s.content.length

def Contains (s : TextSection) (a : Nat) : Prop := s.address ≤ a ∧ a < s.stop

end TextSection

structure Text where
  sections : List TextSection
  symbols : TextSymbols

def sectionName (config : TextConfig) (regions : List Interval) (range : Interval) : SectionName :=
  if regions.length = 1 && !config.uniqueSectionNames then .text else .textAt range.start

/-- With a backing, every region is copied from the start of the buffer. -/
def textValue (config : TextConfig) (memory : Nat → Option Byte) (range : Interval) : List (Option Byte) :=
  match config.backing with
  | some backing => (List.range range.size).map fun k => backing.buffer[k]?
  | none => (List.range range.size).map fun k => memory (range.start + k)

/-- A section for each region, with the symbols of the functions in it. -/
def makeText (config : TextConfig) (memory : Nat → Option Byte) (symtab : IndexedTable)
    (functions : List TextFunction) : Text :=
  (codeRegions functions).foldl
    (fun text range =>
      let name := sectionName config (codeRegions functions) range
      ⟨text.sections ++ [⟨name, range.start, textValue config memory range⟩],
        text.symbols.makeSymbolsAndRelocs functions range name⟩)
    ⟨[], ⟨symtab, []⟩⟩

/-- The symbol table to which `AnyGen` adds the text. -/
def makeSymtabSection : IndexedTable := IndexedTable.empty.addNullSymbol

variable {f g : TextFunction} {functions : List TextFunction} {config : TextConfig} {memory : Nat → Option Byte}
  {symtab : IndexedTable} {range : Interval} {p : Nat}

/-! ## Pages and regions -/

/-- The page has a byte between the ends of the function. -/
def TextFunction.Uses (f : TextFunction) (page : Nat) : Prop :=
  page < f.address.toNat + f.size.toNat ∧ f.address.toNat < page + 0x1000

/-- Neither the end of the function nor its rounding wraps around. -/
def TextFunction.NonWrapping (f : TextFunction) : Prop := f.address.toNat + f.size.toNat + 0xfff < 2 ^ 64

namespace TextFunction.NonWrapping

variable (hf : f.NonWrapping)
include hf

theorem toNat_stop : f.stop.toNat = f.address.toNat + f.size.toNat := by
  unfold NonWrapping at hf
  rw [stop, BitVec.toNat_add, Nat.mod_eq_of_lt (by omega)]

theorem mem_pages : p ∈ f.pages ↔ 0x1000 ∣ p ∧ f.Uses p := by
  have hr : (f.stop + 0xfff).toNat = f.address.toNat + f.size.toNat + 0xfff := by
    rw [BitVec.toNat_add, hf.toNat_stop]
    exact Nat.mod_eq_of_lt hf
  unfold pages pageOf Uses
  rw [mem_range', hr]
  constructor
  · rintro ⟨i, hi, rfl⟩
    omega
  · rintro ⟨⟨k, rfl⟩, hlo, hhi⟩
    exact ⟨k - f.address.toNat / 0x1000, by omega, by omega⟩

end TextFunction.NonWrapping

section

variable (hwp : ∀ f ∈ functions, f.NonWrapping)
include hwp

theorem mem_pagesUsed : p ∈ pagesUsed functions ↔ 0x1000 ∣ p ∧ ∃ f ∈ functions, f.Uses p := by
  unfold pagesUsed
  rw [mem_keys_assignAll, map_map, mem_map]
  simp only [mem_flatMap, Function.comp_apply, exists_eq_right]
  constructor
  · rintro ⟨f, hf, hp⟩
    obtain ⟨hd, hu⟩ := (hwp f hf).mem_pages.1 hp
    exact ⟨hd, f, hf, hu⟩
  · rintro ⟨hd, f, hf, hu⟩
    exact ⟨f, hf, (hwp f hf).mem_pages.2 ⟨hd, hu⟩⟩

theorem cells_pagesUsed : Cells 0x1000 (pagesUsed functions) := by
  constructor
  · exact pairwise_map.2 (ranked_assignAll _)
  · exact fun p hp => ((mem_pagesUsed hwp).1 hp).1

theorem merged_codeRegions : Merged 0x1000 (pagesUsed functions) (codeRegions functions) :=
  merge_spec (by decide) (cells_pagesUsed hwp)

theorem codeRegions_stop_lt (hr : range ∈ codeRegions functions) : range.stop < 2 ^ 64 := by
  obtain ⟨p, hp, hs⟩ := (merged_codeRegions hwp).last_mem hr
  obtain ⟨-, f, hf, hlt, -⟩ := (mem_pagesUsed hwp).1 hp
  have := hwp f hf
  unfold TextFunction.NonWrapping at this
  omega

theorem not_outside_iff (hr : range ∈ codeRegions functions) (hf : f ∈ functions) :
    f.outside range = false ↔ range.start ≤ f.address.toNat ∧ f.address.toNat + f.size.toNat < range.stop := by
  have hs := Nat.mod_eq_of_lt (codeRegions_stop_lt hwp hr)
  unfold Interval.stop at hs ⊢
  rw [TextFunction.outside, hs, (hwp f hf).toNat_stop]
  simp

theorem exists_region (hf : f ∈ functions) (he : ∃ g ∈ functions, g.Uses (pageOf f.stop)) :
    ∃ range ∈ codeRegions functions, f.outside range = false := by
  have hs := (hwp f hf).toNat_stop
  obtain ⟨range, hr, hlo, hhi⟩ := (merged_codeRegions hwp).exists_span (a := pageOf f.address)
    (b := pageOf f.stop + 0x1000) (Nat.dvd_mul_left ..) (by unfold pageOf; omega) fun q hq hlo hhi => by
      refine (mem_pagesUsed hwp).2 ⟨hq, ?_⟩
      by_cases hlt : q = pageOf f.stop
      · exact hlt ▸ he
      · refine ⟨f, hf, ?_, ?_⟩
        · unfold pageOf at *
          omega
        · unfold pageOf at *
          omega
  refine ⟨range, hr, (not_outside_iff hwp hr hf).2 ⟨?_, ?_⟩⟩
  · unfold pageOf at hlo
    omega
  · unfold pageOf at hhi
    omega

theorem uses_of_not_outside (hr : range ∈ codeRegions functions) (hf : f ∈ functions)
    (hin : f.outside range = false) : ∃ g ∈ functions, g.Uses (pageOf f.stop) := by
  obtain ⟨hlo, hhi⟩ := (not_outside_iff hwp hr hf).1 hin
  have hs := (hwp f hf).toNat_stop
  have hm := merged_codeRegions hwp
  obtain ⟨k, hk⟩ := (hm.whole range hr).start
  have hp : pageOf f.stop ∈ pagesUsed functions := by
    refine (hm.cover (pageOf f.stop) (Nat.dvd_mul_left ..)).1 ⟨range, hr, ?_, ?_⟩
    · unfold pageOf
      omega
    · unfold pageOf
      omega
  exact ((mem_pagesUsed hwp).1 hp).2

end

/-! ## The loops as lists -/

def regionSection (config : TextConfig) (memory : Nat → Option Byte) (regions : List Interval) (range : Interval) :
    TextSection :=
  ⟨sectionName config regions range, range.start, textValue config memory range⟩

def additions (config : TextConfig) (functions : List TextFunction) : List Addition :=
  (codeRegions functions).flatMap fun range =>
    (functions.filter fun f => !f.outside range).flatMap fun f =>
      f.symbols.map fun sym => ⟨f, sym, sectionName config (codeRegions functions) range⟩

theorem makeText_fold (regions ranges : List Interval) (text : Text) : ranges.foldl (fun text range =>
        ⟨text.sections ++ [regionSection config memory regions range],
          text.symbols.makeSymbolsAndRelocs functions range (sectionName config regions range)⟩) text =
      ⟨text.sections ++ ranges.map (regionSection config memory regions),
        ranges.foldl (fun s range => s.makeSymbolsAndRelocs functions range (sectionName config regions range))
          text.symbols⟩ := by
  induction ranges generalizing text with
  | nil => simp
  | cons range ranges ih =>
    rw [foldl_cons, ih]
    simp

theorem makeText_sections : (makeText config memory symtab functions).sections =
    (codeRegions functions).map (regionSection config memory (codeRegions functions)) :=
  congrArg Text.sections (makeText_fold ..)

theorem makeSymbolsAndRelocs_eq (s textSection) : s.makeSymbolsAndRelocs functions range textSection =
      ((functions.filter fun f => !f.outside range).flatMap fun f =>
        f.symbols.map fun sym => ⟨f, sym, textSection⟩).foldl TextSymbols.add s := by
  rw [foldl_flatMap, foldl_filter]
  simp only [foldl_map, Bool.not_eq_true']
  unfold TextSymbols.makeSymbolsAndRelocs TextSymbols.makeSymbolInText
  congr 1
  funext s f
  cases f.outside range <;> rfl

theorem makeText_symbols : (makeText config memory symtab functions).symbols =
    (additions config functions).foldl TextSymbols.add ⟨symtab, []⟩ := by
  refine (congrArg Text.symbols (makeText_fold ..)).trans ?_
  rw [additions, foldl_flatMap]
  simp only [makeSymbolsAndRelocs_eq]

variable {x : Addition} {regions : List Interval}

theorem mem_additions : x ∈ additions config functions ↔
    ∃ range ∈ codeRegions functions, x.func ∈ functions ∧ x.func.outside range = false ∧ x.sym ∈ x.func.symbols ∧
      x.textSection = sectionName config (codeRegions functions) range := by
  unfold additions
  simp only [mem_flatMap, mem_filter, mem_map, Bool.not_eq_true']
  constructor
  · rintro ⟨range, hr, f, ⟨hf, hin⟩, sym, hs, rfl⟩
    exact ⟨range, hr, hf, hin, hs, rfl⟩
  · rintro ⟨range, hr, hf, hin, hs, hn⟩
    exact ⟨range, hr, x.func, ⟨hf, hin⟩, x.sym, hs, by rw [← hn]⟩

/-! ## The symbol table -/

/-- The additions with a key, in their order. -/
def withRank (xs : List Addition) (d : Deferred) : List Addition := xs.filter fun x => x.key.rank = d.entry.rank

/-- What the additions leave: each entry that was not there before has the address of the first addition with its key,
    and the callbacks on it are those of all additions with its key. -/
structure Added (symtab : IndexedTable) (xs : List Addition) (s : TextSymbols) : Prop where
  first : ∀ d ∈ s.symtab.entries, d ∈ symtab.entries ∨
    ∃ x, (withRank xs d).head? = some x ∧ d.entry.st_value = x.func.address
  assigned : ∀ d ∈ s.symtab.entries,
    (s.callbacks.filter fun c => c.1 = d.pointer).map Prod.snd = (withRank xs d).map Addition.textSection
  pointer : ∀ c ∈ s.callbacks, ∃ d ∈ s.symtab.entries, d.pointer = c.1
  present : ∀ x ∈ xs, ∃ d ∈ s.symtab.entries, d.entry.rank = x.key.rank

/-- In a table the pointers and the keys tell the entries apart. -/
structure Keyed (t : IndexedTable) : Prop where
  pointer : ∀ d ∈ t.entries, ∀ d' ∈ t.entries, d.pointer = d'.pointer → d = d'
  rank : ∀ d ∈ t.entries, ∀ d' ∈ t.entries, d.entry.rank = d'.entry.rank → d = d'

theorem Added.add {xs s} (h : Added symtab xs s) (x : Addition) (hk : Keyed (s.add x).symtab) :
    Added symtab (xs ++ [x]) (s.add x) := by
  obtain ⟨hs, new, hn, hp, hr⟩ := @addOnce_spec s.symtab
    (SymbolTableContent.typeOr (x.sym.getD x.func.func.symbol) .typeGlobal) (x.sym.getD x.func.func.symbol)
    x.func.address
  -- an entry that is new has neither additions nor callbacks before this one
  have hfresh : ∀ d ∈ (s.add x).symtab.entries, d ∉ s.symtab.entries → withRank xs d = [] ∧
      (s.callbacks.filter fun c => c.1 = d.pointer) = [] := by
    intro d hd hold
    constructor
    · refine filter_eq_nil_iff.2 fun y hy hyd => ?_
      obtain ⟨d', hd', heq⟩ := h.present y hy
      exact hold (hk.rank d' (hs hd') d hd (heq.trans (of_decide_eq_true hyd)) ▸ hd')
    · refine filter_eq_nil_iff.2 fun c hc hcd => ?_
      obtain ⟨d', hd', heq⟩ := h.pointer c hc
      exact hold (hk.pointer d' (hs hd') d hd (heq.trans (of_decide_eq_true hcd)) ▸ hd')
  have hlast : ∀ d ∈ (s.add x).symtab.entries, (new.pointer = d.pointer ↔ x.key.rank = d.entry.rank) := by
    intro d hd
    constructor
    · intro heq
      rw [← hk.pointer new hn d hd heq]
      exact hr.symm
    · intro heq
      rw [hk.rank new hn d hd (hr.trans heq)]
  constructor
  · intro d hd
    unfold withRank
    rw [filter_append]
    by_cases hold : d ∈ s.symtab.entries
    · rcases h.first d hold with hd | ⟨y, hy, hv⟩
      · exact .inl hd
      · exact .inr ⟨y, by rw [head?_append, ← withRank, hy, Option.some_or], hv⟩
    · obtain ⟨hrank, hvalue⟩ := (mem_addOnce hd).resolve_left hold
      refine .inr ⟨x, ?_, hvalue⟩
      rw [← withRank, (hfresh d hd hold).1]
      simp [Addition.key, TextFunction.keyOf, hrank]
  · intro d hd
    have hcs : (s.add x).callbacks = s.callbacks ++ [(new.pointer, x.textSection)] := by rw [hp]; rfl
    unfold withRank
    rw [hcs, filter_append, filter_append, map_append, map_append, ← withRank]
    congr 1
    · by_cases hold : d ∈ s.symtab.entries
      · exact h.assigned d hold
      · rw [(hfresh d hd hold).1, (hfresh d hd hold).2]
        rfl
    · by_cases hx : x.key.rank = d.entry.rank <;> simp [hx, (hlast d hd)]
  · intro c hc
    rcases mem_append.1 hc with hc | hc
    · obtain ⟨d, hd, heq⟩ := h.pointer c hc
      exact ⟨d, hs hd, heq⟩
    · rw [mem_singleton.1 hc]
      exact ⟨new, hn, hp⟩
  · intro y hy
    rcases mem_append.1 hy with hy | hy
    · obtain ⟨d, hd, heq⟩ := h.present y hy
      exact ⟨d, hs hd, heq⟩
    · rw [mem_singleton.1 hy]
      exact ⟨new, hn, hr⟩

/-- The table is one that calls of the table's functions make. -/
theorem symtab_foldl (calls) (xs : List Addition) : (xs.foldl TextSymbols.add ⟨(run calls).1, []⟩).symtab =
      (run (calls ++ xs.map fun x => .symbol x.func.func x.sym)).1 := by
  induction xs using reverseRecOn with
  | nil => simp
  | append_singleton xs x ih =>
    rw [foldl_append, map_append, ← append_assoc, map_singleton, run_append, ← ih]
    rfl

theorem keyed_foldl (calls) (xs : List Addition) : Keyed (xs.foldl TextSymbols.add ⟨(run calls).1, []⟩).symtab := by
  rw [symtab_foldl]
  constructor
  · exact fun d hd d' hd' => inj_on_of_nodup_map (counted_run _).nodup hd hd'
  · have hr := (pairwise_map.2 (ranked_run (calls ++ xs.map fun x => .symbol x.func.func x.sym)).1).imp
      fun hlt => ne_of_lt hlt
    exact fun d hd d' hd' => inj_on_of_nodup_map (f := fun d : Deferred => d.entry.rank) hr hd hd'

theorem added_foldl (calls) (xs : List Addition) :
    Added (run calls).1 xs (xs.foldl TextSymbols.add ⟨(run calls).1, []⟩) := by
  induction xs using reverseRecOn with
  | nil => exact ⟨fun d hd => .inl hd, by simp [withRank], by simp, by simp⟩
  | append_singleton xs x ih =>
    have hk := keyed_foldl calls (xs ++ [x])
    rw [foldl_append] at hk ⊢
    exact ih.add x hk

/-- The additions with the key of the function. -/
def TextFunction.ownKey (f : TextFunction) (xs : List Addition) : List Addition :=
  xs.filter fun x => x.key.rank = f.key.rank

/-- An entry with the key of the function has its address and names the section if the first addition with the key has
    the address and the last one the section. -/
theorem Added.symbol_iff {xs s name} (h : Added symtab xs s) (ho : ∀ d ∈ symtab.entries, d.entry.rank ≠ f.key.rank) :
    (∃ d ∈ s.symtab.entries, d.entry.rank = f.key.rank ∧ d.entry.st_value = f.address ∧
      s.stShndx d.pointer = some name) ↔
    (f.ownKey xs).head?.map (fun x => x.func.address) = some f.address ∧
      (f.ownKey xs).getLast?.map Addition.textSection = some name := by
  have hown : ∀ d : Deferred, d.entry.rank = f.key.rank → withRank xs d = f.ownKey xs := by
    intro d hd
    rw [withRank, hd]
    rfl
  have hstate : ∀ d ∈ s.symtab.entries, d.entry.rank = f.key.rank →
      (∃ x, (f.ownKey xs).head? = some x ∧ d.entry.st_value = x.func.address) ∧
        s.stShndx d.pointer = (f.ownKey xs).getLast?.map Addition.textSection := by
    intro d hd hk
    constructor
    · rw [← hown d hk]
      exact (h.first d hd).resolve_left fun hd => ho d hd hk
    · rw [TextSymbols.stShndx, ← getLast?_map, h.assigned d hd, hown d hk, getLast?_map]
  constructor
  · rintro ⟨d, hd, hk, hv, hn⟩
    obtain ⟨⟨x, hx, hvx⟩, hs⟩ := hstate d hd hk
    exact ⟨by rw [hx, Option.map_some, ← hvx, hv], hs ▸ hn⟩
  · rintro ⟨hv, hn⟩
    obtain ⟨x, hx, hxv⟩ := Option.map_eq_some_iff.1 hv
    obtain ⟨hm, hk⟩ := mem_filter.1 (mem_of_head? hx)
    obtain ⟨d, hd, hdk⟩ := h.present x hm
    have hdk := hdk.trans (of_decide_eq_true hk)
    obtain ⟨⟨x', hx', hvx⟩, hs⟩ := hstate d hd hdk
    cases hx.symm.trans hx'
    exact ⟨d, hd, hdk, hvx.trans hxv, hs.trans hn⟩

/-! ## What is emitted -/

def TextSection.Holds (s : TextSection) (f : TextFunction) : Prop :=
  s.address ≤ f.address.toNat ∧ f.address.toNat + f.size.toNat ≤ s.stop

/-- The sections are the used pages, in whole pages with a page between two of them, and each function has one
section with its symbol. A byte of the backing stands where its address is in the section. -/
structure Emitted (config : TextConfig) (functions : List TextFunction) (text : Text) : Prop where
  pages : ∀ p, 0x1000 ∣ p → ((∃ s ∈ text.sections, s.Contains p) ↔ ∃ f ∈ functions, f.Uses p)
  whole : ∀ s ∈ text.sections, 0x1000 ∣ s.address ∧ 0x1000 ∣ s.stop
  apart : text.sections.Pairwise fun s s' => s.stop < s'.address
  named : (text.sections.map TextSection.name).Nodup
  lies : ∀ f ∈ functions, ∃! s, s ∈ text.sections ∧ s.Holds f
  symbol : ∀ f ∈ functions, ∀ s ∈ text.sections, s.Holds f →
    ∃ d ∈ text.symbols.symtab.entries, d.entry.rank = f.key.rank ∧ d.entry.st_value = f.address ∧
      text.symbols.stShndx d.pointer = some s.name
  content : ∀ backing, config.backing = some backing → ∀ s ∈ text.sections, ∀ a, s.Contains a →
    backing.base.toNat ≤ a → a < backing.base.toNat + backing.buffer.length →
    s.content[a - s.address]? = some backing.buffer[a - backing.base.toNat]?

/-- The region that the function lies in. -/
def TextFunction.In (f : TextFunction) (range : Interval) : Prop :=
  range.start ≤ f.address.toNat ∧ f.address.toNat + f.size.toNat ≤ range.stop

/-- Of all symbols that are added under the key of the function, the first one is at its address and the last one in its
    section. -/
def TextFunction.HasSymbol (f : TextFunction) (config : TextConfig) (functions : List TextFunction) (range : Interval) :
    Prop :=
  (f.ownKey (additions config functions)).head?.map (fun x => x.func.address) = some f.address ∧
    (f.ownKey (additions config functions)).getLast?.map Addition.textSection =
      some (sectionName config (codeRegions functions) range)

/-- The configurations that differ in the bytes of the backing only. -/
def TextConfig.SameShape (config config' : TextConfig) : Prop :=
  config'.uniqueSectionNames = config.uniqueSectionNames ∧
    config'.backing.map (fun b => (b.base, b.buffer.length)) = config.backing.map fun b => (b.base, b.buffer.length)

theorem TextFunction.mem_symbols (f : TextFunction) : f.symbol.map FunctionSymbol.sym ∈ f.symbols := by
  unfold symbols
  cases f.symbol with
  | none => exact mem_cons_self
  | some s => exact mem_cons_self

theorem TextFunction.key_type (f : TextFunction) : f.key.type = .typeLocal ∨ f.key.type = .typeGlobal := by
  unfold key keyOf SymbolTableContent.typeOr
  split
  · exact .inl rfl
  · exact .inr rfl

@[simp] theorem regionSection_stop : (regionSection config memory regions range).stop = range.stop := by
  unfold TextSection.stop regionSection textValue
  split
  · simp [Interval.stop]
  · simp [Interval.stop]

theorem regionSection_contains {a} : (regionSection config memory regions range).Contains a ↔ range.Contains a := by
  rw [TextSection.Contains, regionSection_stop]
  exact Iff.rfl

theorem regionSection_holds : (regionSection config memory regions range).Holds f ↔ f.In range := by
  rw [TextSection.Holds, regionSection_stop]
  exact Iff.rfl

theorem makeSymtabSection_rank {d} (hd : d ∈ makeSymtabSection.entries) : d.entry.rank ≠ f.key.rank := by
  have hn : d.entry.key.type = .typeNull := by
    obtain rfl : d = ⟨0, named [] .typeNull none 0⟩ := mem_singleton.1 hd
    rfl
  intro heq
  have ht := type_eq_of_rank_eq heq
  rw [hn] at ht
  rcases f.key_type with hk | hk
  · rw [hk] at ht
    exact absurd ht (by decide)
  · rw [hk] at ht
    exact absurd ht (by decide)

section

variable (hwp : ∀ f ∈ functions, f.NonWrapping)
include hwp

theorem nodup_names : ((codeRegions functions).map (sectionName config (codeRegions functions))).Nodup := by
  have ha := (merged_codeRegions hwp).apart
  have hw := (merged_codeRegions hwp).whole
  unfold sectionName
  split
  · next ho =>
    obtain ⟨range, hg⟩ := length_eq_one_iff.1 (by simpa using (Bool.and_eq_true_iff.1 ho).1)
    simp [hg]
  · refine pairwise_map.2 (ha.imp_of_mem fun {r r'} hr _ hlt heq => ?_)
    have := (hw r hr).start_lt_stop
    have := SectionName.textAt.inj heq
    omega

theorem region_unique {range'} (hr : range ∈ codeRegions functions) (hr' : range' ∈ codeRegions functions)
    (hin : f.In range) (hi' : f.In range') : range' = range := by
  unfold TextFunction.In at hin hi'
  rcases (merged_codeRegions hwp).eq_or_apart hr' hr with heq | hlt | hlt
  · exact heq
  · omega
  · omega

theorem pages_iff (p) (hp : 0x1000 ∣ p) :
    (∃ s ∈ (makeText config memory symtab functions).sections, s.Contains p) ↔ ∃ f ∈ functions, f.Uses p := by
  rw [makeText_sections]
  simp only [mem_map, exists_exists_and_eq_and, regionSection_contains]
  rw [(merged_codeRegions hwp).cover p hp, mem_pagesUsed hwp]
  exact and_iff_right hp

/-- A function whose key nothing else has gets its symbol exactly if it does not end with its region: the page of its
    end is used too. -/
theorem hasSymbol_iff (hf : f ∈ functions) (hr : range ∈ codeRegions functions) (hin : f.In range)
    (hd : ∀ g ∈ functions, f.key.rank ∈ g.symbols.map (fun sym => (g.keyOf sym).rank) → g = f) :
    f.HasSymbol config functions range ↔ ∃ g ∈ functions, g.Uses (pageOf f.stop) := by
  have hown : ∀ x ∈ f.ownKey (additions config functions), x.func = f ∧ ∃ range' ∈ codeRegions functions,
      f.outside range' = false ∧ x.textSection = sectionName config (codeRegions functions) range' := by
    intro x hx
    obtain ⟨hx, hk⟩ := mem_filter.1 hx
    obtain ⟨range', hr', hc, hout, hs, hn⟩ := mem_additions.1 hx
    have heq := hd x.func hc (mem_map.2 ⟨x.sym, hs, of_decide_eq_true hk⟩)
    exact ⟨heq, range', hr', heq ▸ hout, hn⟩
  constructor
  · rintro ⟨hv, -⟩
    obtain ⟨x, hx, -⟩ := Option.map_eq_some_iff.1 hv
    obtain ⟨-, range', hr', hout, -⟩ := hown x (mem_of_head? hx)
    exact uses_of_not_outside hwp hr' hf hout
  · intro he
    obtain ⟨range', hr', hout⟩ := exists_region hwp hf he
    have hm : ⟨f, f.symbol.map FunctionSymbol.sym, sectionName config (codeRegions functions) range'⟩ ∈
        f.ownKey (additions config functions) :=
      mem_filter.2 ⟨mem_additions.2 ⟨range', hr', hf, hout, f.mem_symbols, rfl⟩, decide_eq_true rfl⟩
    obtain ⟨x, hx⟩ := Option.ne_none_iff_exists'.1 (mt head?_eq_none_iff.1 (ne_nil_of_mem hm))
    obtain ⟨y, hy⟩ := Option.isSome_iff_exists.1 (getLast?_isSome.2 (ne_nil_of_mem hm))
    obtain ⟨-, range2, hr2, hout2, hn⟩ := hown y (mem_of_getLast? hy)
    obtain ⟨hlo, hhi⟩ := (not_outside_iff hwp hr2 hf).1 hout2
    refine ⟨?_, ?_⟩
    · rw [hx, Option.map_some, (hown x (mem_of_head? hx)).1]
    · rw [hy, Option.map_some, hn, region_unique hwp hr hr2 hin ⟨hlo, hhi.le⟩]

end

/-! ### The backing -/

/-- A region with an address of the backing begins at its base. -/
def Aligned (range : Interval) (base len : Nat) : Prop :=
  ∀ a, range.Contains a → base ≤ a → a < base + len → range.start = base

theorem content_iff (memory regions unique) {base : Address} {len} :
    (∀ buffer : List Byte, buffer.length = len → ∀ a, range.Contains a → base.toNat ≤ a → a < base.toNat + len →
      (regionSection ⟨unique, some ⟨base, buffer⟩⟩ memory regions range).content[a - range.start]? =
        some buffer[a - base.toNat]?) ↔ Aligned range base.toNat len := by
  have hread : ∀ (buffer : List Byte) a, range.Contains a →
      (regionSection ⟨unique, some ⟨base, buffer⟩⟩ memory regions range).content[a - range.start]? =
        some buffer[a - range.start]? := by
    rintro buffer a ⟨hlo, hhi⟩
    unfold Interval.stop at hhi
    have hlt : a - range.start < range.size := by omega
    simp [regionSection, textValue, hlt]
  constructor
  · intro h a hc hlo hhi
    by_contra hne
    -- the byte of one address is marked, and is not where the section has that address
    have hm := h ((replicate len 0).set (a - base.toNat) 1) (by simp) a hc hlo hhi
    have hlt : a - base.toNat < (replicate len (0 : Byte)).length := by
      rw [length_replicate]
      omega
    have hne' : a - base.toNat ≠ a - range.start := by
      have := hc.1
      omega
    rw [hread _ _ hc, Option.some.injEq, getElem?_set_self hlt, getElem?_set_ne hne'] at hm
    exact absurd (eq_of_mem_replicate (mem_of_getElem? hm)) (by decide)
  · intro h buffer _ a ha hlo hhi
    rw [hread buffer a ha, h a ha hlo hhi]

theorem additions_congr (functions) {config'} (h : config.SameShape config') :
    additions config' functions = additions config functions ∧ sectionName config' = sectionName config := by
  have hn : sectionName config' = sectionName config := by
    funext regions range
    rw [sectionName, sectionName, h.1]
  exact ⟨by rw [additions, additions, hn], hn⟩

/-- An entry with the key of the function, its address and the name of the section. -/
theorem symbol_iff : (∃ d ∈ (makeText config memory makeSymtabSection functions).symbols.symtab.entries,
      d.entry.rank = f.key.rank ∧ d.entry.st_value = f.address ∧
        (makeText config memory makeSymtabSection functions).symbols.stShndx d.pointer =
          some (sectionName config (codeRegions functions) range)) ↔ f.HasSymbol config functions range := by
  rw [makeText_symbols]
  exact (added_foldl [.nullSymbol] (additions config functions)).symbol_iff fun d hd => makeSymtabSection_rank hd

/-- Whatever bytes the backing has, everything is emitted exactly when each function lies in a region and has its
symbol there, and each region with an address of the backing begins at its base. A function that shares its
key with no other one has its symbol exactly when it does not end with its region. -/
theorem emitted_iff (hwp : ∀ f ∈ functions, f.NonWrapping) :
    ((∀ config', config.SameShape config' →
        Emitted config' functions (makeText config' memory makeSymtabSection functions)) ↔
      (∀ f ∈ functions, ∃ range ∈ codeRegions functions, f.In range ∧ f.HasSymbol config functions range) ∧
        ∀ backing ∈ config.backing, ∀ range ∈ codeRegions functions,
          Aligned range backing.base.toNat backing.buffer.length) ∧
    ∀ f ∈ functions, (∀ g ∈ functions, f.key.rank ∈ g.symbols.map (fun sym => (g.keyOf sym).rank) → g = f) →
      ∀ range ∈ codeRegions functions, f.In range →
        (f.HasSymbol config functions range ↔ ∃ g ∈ functions, g.Uses (pageOf f.stop)) := by
  have hmr := merged_codeRegions hwp
  refine ⟨⟨fun h => ⟨?_, ?_⟩, ?_⟩, fun f hf hd range hr hin => hasSymbol_iff hwp hf hr hin hd⟩
  · intro f hf
    have het := h config ⟨rfl, rfl⟩
    obtain ⟨s, ⟨hs, hhl⟩, -⟩ := het.lies f hf
    have hsy := het.symbol f hf s hs hhl
    rw [makeText_sections] at hs
    obtain ⟨range, hr, rfl⟩ := mem_map.1 hs
    exact ⟨range, hr, regionSection_holds.1 hhl, symbol_iff.1 hsy⟩
  · intro backing hb range hr
    refine (content_iff memory (codeRegions functions) config.uniqueSectionNames).1 fun buffer hlen a ha hlo hhi => ?_
    have het := h ⟨config.uniqueSectionNames, some ⟨backing.base, buffer⟩⟩ ⟨rfl, by rw [hb, Option.map_some, hlen]; rfl⟩
    refine het.content _ rfl _ ?_ a (regionSection_contains.2 ha) hlo (hlen ▸ hhi)
    rw [makeText_sections]
    exact mem_map_of_mem hr
  · rintro ⟨hsy, hbk⟩ config' hshape
    obtain ⟨had, hnm⟩ := additions_congr functions hshape
    have hsy' : ∀ f ∈ functions, ∃ range ∈ codeRegions functions, f.In range ∧ f.HasSymbol config' functions range := by
      unfold TextFunction.HasSymbol
      rw [had, hnm]
      exact hsy
    constructor
    · exact pages_iff hwp
    · rw [makeText_sections, forall_mem_map]
      intro range hrn
      rw [regionSection_stop]
      exact ⟨(hmr.whole range hrn).start, (hmr.whole range hrn).stop⟩
    · rw [makeText_sections, pairwise_map]
      simp only [regionSection_stop]
      exact hmr.apart
    · rw [makeText_sections, map_map]
      exact nodup_names hwp
    · intro f hf
      obtain ⟨range, hrn, hin, -⟩ := hsy' f hf
      refine ⟨regionSection config' memory (codeRegions functions) range, ⟨?_, regionSection_holds.2 hin⟩, ?_⟩
      · rw [makeText_sections]
        exact mem_map_of_mem hrn
      · rintro s ⟨hs, hhl⟩
        rw [makeText_sections] at hs
        obtain ⟨range', hrn', rfl⟩ := mem_map.1 hs
        rw [region_unique hwp hrn hrn' hin (regionSection_holds.1 hhl)]
    · rw [makeText_sections]
      intro f hf s hs hhl
      obtain ⟨range, hrn, rfl⟩ := mem_map.1 hs
      obtain ⟨range', hrn', hin, hs'⟩ := hsy' f hf
      rw [region_unique hwp hrn' hrn hin (regionSection_holds.1 hhl)]
      exact symbol_iff.2 hs'
    · intro backing hbc s hs a ha
      rw [makeText_sections] at hs
      obtain ⟨range, hr, rfl⟩ := mem_map.1 hs
      have hal : Aligned range backing.base.toNat backing.buffer.length := by
        have hm := hshape.2
        rw [hbc] at hm
        obtain ⟨b, hb, heq⟩ := Option.map_eq_some_iff.1 hm.symm
        obtain ⟨hbase, hlen⟩ := Prod.mk.inj heq
        rw [← hbase, ← hlen]
        exact hbk b hb range hr
      have hcf : config' = ⟨config'.uniqueSectionNames, some ⟨backing.base, backing.buffer⟩⟩ := by rw [← hbc]
      rw [hcf] at ha ⊢
      exact (content_iff ..).2 hal backing.buffer rfl a (regionSection_contains.1 ha)

/-- A function of two bytes, in a backing that begins with it, and one that has the key of the first as an alias. -/
def shortFunction : TextFunction := ⟨⟨[0x67], by decide⟩, 0x1000, 2, none⟩

def aliasFunction : TextFunction :=
  ⟨⟨[0x68], by decide⟩, 0x1010, 2, some ⟨(SymbolTableContent.Func.mk ⟨[0x68], by decide⟩ 0x1010).symbol,
    [⟨shortFunction.func.symbol, true⟩]⟩⟩

def shortConfig : TextConfig := ⟨false, some ⟨0x1000, replicate 0x10 0x90 ++ [0x31, 0xc3]⟩⟩

theorem emitted_iff_shortFunction : Emitted shortConfig [shortFunction, aliasFunction]
    (makeText shortConfig (fun _ => none) makeSymtabSection [shortFunction, aliasFunction]) := by
  have hwp : ∀ f ∈ [shortFunction, aliasFunction], f.NonWrapping := by
    simp only [forall_mem_cons]
    unfold TextFunction.NonWrapping
    decide
  have hregions : codeRegions [shortFunction, aliasFunction] = [⟨0x1000, 0x1000⟩] := by decide +kernel
  refine (emitted_iff hwp).1.2 ⟨?_, ?_⟩ shortConfig ⟨rfl, rfl⟩
  · rw [hregions]
    refine forall_mem_cons.2 ⟨⟨_, mem_singleton_self _, ⟨by decide, by decide⟩, ?_⟩,
      forall_mem_singleton.2 ⟨_, mem_singleton_self _, ⟨by decide, by decide⟩, ?_⟩⟩
    all_goals
      unfold TextFunction.HasSymbol
      decide +kernel
  · rintro backing hb
    cases hb
    rw [hregions, forall_mem_singleton]
    exact fun _ _ _ _ => rfl

theorem nul_notMem_f : (0 : Byte) ∉ [0x66] := by decide

/-- A function of a whole page, and one two pages later. -/
def pageFunction : TextFunction := ⟨⟨[0x66], nul_notMem_f⟩, 0x1000, 0x1000, none⟩

def laterFunction : TextFunction := ⟨⟨[0x67], by decide⟩, 0x3000, 2, none⟩

def twoRegionsBacking : CodeBacking :=
  ⟨0x1000, replicate 0x1000 0x90 ++ (replicate 0x1000 0xcc ++ [0x31, 0xc3])⟩

def twoRegions : Text :=
  makeText ⟨false, some twoRegionsBacking⟩ (fun _ => none) makeSymtabSection [pageFunction, laterFunction]

/-- The first one ends with its region and has no symbol; the section of the second one begins with the bytes of
the first. -/
theorem twoRegions_not_emitted :
    (∀ d ∈ twoRegions.symbols.symtab.entries, d.entry.rank ≠ pageFunction.key.rank) ∧
      twoRegions.sections.map (fun s => (s.address, s.content[0]?)) =
        [(0x1000, some (some 0x90)), (0x3000, some (some 0x90))] ∧
      twoRegionsBacking.buffer[0x3000 - 0x1000]? = some 0x31 ∧
      ¬ Emitted ⟨false, some twoRegionsBacking⟩ [pageFunction, laterFunction] twoRegions := by
  have hrn : ∀ d ∈ twoRegions.symbols.symtab.entries, d.entry.rank ≠ pageFunction.key.rank := by decide +kernel
  refine ⟨hrn, by decide +kernel, by decide +kernel, fun het => ?_⟩
  obtain ⟨s, ⟨hs, hhl⟩, -⟩ := het.lies pageFunction (by simp)
  obtain ⟨d, hd, hkey, -⟩ := het.symbol pageFunction (by simp) s hs hhl
  exact hrn d hd hkey

end Egalito.Generate
