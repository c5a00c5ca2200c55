/-
The sections that every generator starts from and the segments they are put in (`generate/concrete.cpp`).

The layout is a sequence of sections with fixed bases; the loadable segments are apart exactly if each group of
sections fits between its base and the next one.
-/
import Egalito.Generate.Section
import Egalito.Generate.GlobalPLT
import Mathlib.Order.CompletePartialOrder
import Mathlib.Order.Interval.Set.Disjoint

namespace Egalito.Generate

open Lib (Byte)
open SegmentInfo

/-! ## The sections -/

/-- `isMusl` is the build option `USE_MUSL`. -/
structure ElfConfig where
  isDynamicallyLinked : Bool
  isUnionOutput : Bool
  isPositionIndependent : Bool
  makeInitArray : Bool
  isMusl : Bool
  deriving DecidableEq, Repr

/-- How much the tables hold when the file is written; string tables and the hash table are counted in bytes. -/
structure Tables where
  initArray : Nat
  finiArray : Nat
  phdrTable : Nat
  strtab : Nat
  shstrtab : Nat
  dynstr : Nat
  symtab : Nat
  dynsym : Nat
  gnuHash : Nat
  relaDyn : Nat
  dependencies : Nat
  program : Program

def interpreter (config : ElfConfig) : String :=
  if config.isMusl then "/lib/ld-musl-x86_64.so.1" else "/lib64/ld-linux-x86-64.so.2"

/-- The interpreter with its terminator. -/
def interpContent (config : ElfConfig) : List Byte :=
  (interpreter config).toList.map (fun c => BitVec.ofNat 8 c.toNat) ++ [0]

def dynamicPairs (config : ElfConfig) (t : Tables) : Nat :=
  t.dependencies + 16 + if config.isUnionOutput then 0 else 1

/-- The entries that `.rela.plt` is made for. -/
def ordinaryEntries (p : Program) : List PLTEntry := p.entries.filter fun entry => !entry.isPltGot

def makePaddingSection (desiredAlignment : Nat) : Section := ⟨"=padding", none, .padding desiredAlignment true⟩

def withHeader (name : String) (content : Content) : Section := ⟨name, some 0, content⟩

/-- `BasicElfCreator`, with the contents that are set later, and the section that `makePLTCode` adds. -/
def basicSections (config : ElfConfig) (t : Tables) : List Section :=
  [⟨"=elfheader", none, .table 64 1⟩, withHeader ".interp" (.bytes (interpContent config))]
  ++ (if config.makeInitArray then
    [withHeader ".init_array" (.table 8 t.initArray), withHeader ".fini_array" (.table 8 t.finiArray)] else [])
  ++ [⟨"=phdr_table", none, .table 56 t.phdrTable⟩, withHeader ".strtab" (.table 1 t.strtab),
    withHeader ".shstrtab" (.table 1 t.shstrtab)]
  ++ if config.isDynamicallyLinked then
    [makePaddingSection 0, withHeader ".dynstr" (.table 1 t.dynstr), withHeader ".symtab" (.table 24 t.symtab),
      withHeader ".dynsym" (.table 24 t.dynsym)]
    ++ (if config.isUnionOutput then [] else [withHeader ".gnu.hash" (.table 1 t.gnuHash)])
    ++ [withHeader ".rela.dyn" (.table 24 t.relaDyn), withHeader ".dynamic" (.table 16 (dynamicPairs config t)),
      makePaddingSection 0, withHeader ".g.got.plt" (.table 8 (t.program.entries.length + 3)),
      withHeader ".rela.plt" (.table 24 (ordinaryEntries t.program).length), makePaddingSection 0,
      withHeader ".plt" (.table 16 (t.program.entries.length + 1))]
  else []

/-! ## The segments -/

/-- `getSection`; the names asked for are given to one section each. -/
def getSection (sections : List Section) (name : String) : Option Nat := sections.findIdx? fun s => s.name == name

/-- The sections with the given names, without those that were not made. -/
def containing (sections : List Section) (names : List String) : List Nat := names.filterMap (getSection sections)

def headerNames : List String := ["=elfheader", ".interp", ".init_array", ".fini_array", "=phdr_table"]

def dynamicNames (config : ElfConfig) : List String :=
  [".dynstr", ".symtab", ".dynsym"] ++ (if config.isUnionOutput then [] else [".gnu.hash"])
    ++ [".rela.dyn", ".dynamic"]

def gotpltNames : List String := [".g.got.plt", ".rela.plt"]

/-- The segments in the order they are added, those with a fixed address with the address. -/
def assignSectionsToSegments (config : ElfConfig) (sections : List Section) : List (SegmentInfo × Option Nat) :=
  (⟨.load, PF_R ||| PF_W, 0x200000, containing sections headerNames, 0⟩, some 0x200000) ::
  if config.isDynamicallyLinked then
    [(⟨.load, PF_R ||| PF_W, 0x1000, containing sections (dynamicNames config), 0⟩, some 0x400000),
      (⟨.load, PF_R ||| PF_W, 0x1000, containing sections gotpltNames, 0⟩, some 0x500000),
      (⟨.load, PF_R ||| PF_X, 0x1000, containing sections [".plt"], 0⟩, some 0x600000),
      (⟨.dynamic, PF_R ||| PF_W, 0x8, containing sections [".dynamic"], 0⟩, none)]
  else []

/-- The address that a section of the first segment is given. -/
def headerAddress (config : ElfConfig) (t : Tables) (name : String) : Option Nat :=
  let sections := basicSections config t
  let segment : SegmentInfo := ⟨.load, PF_R ||| PF_W, 0x200000, containing sections headerNames, 0⟩
  (getSection sections name).bind fun i =>
    ((segment.assignAddressesToSections sections 0x200000).find? fun e => e.1 = i).map Prod.snd

def phdrOf (sections : List Section) (entry : SegmentInfo × Option Nat) : Phdr :=
  match entry.2 with
  | some address => entry.1.phdrAt sections address
  | none => entry.1.phdr sections

/-- The segments that are loaded, in a file whose section list begins with the basic sections. -/
def loadSegments (config : ElfConfig) (t : Tables) (later : List Section) : List Phdr :=
  ((assignSectionsToSegments config (basicSections config t)).map (phdrOf (basicSections config t ++ later))).filter
    fun phdr => phdr.p_type = .load

/-- The addresses that are mapped. -/
def Phdr.memory (phdr : Phdr) : Set Nat := Set.Ico phdr.p_vaddr (phdr.p_vaddr + phdr.p_memsz)

/-! ## Their sizes -/

variable (config : ElfConfig) (t : Tables)

/-- The bytes of the header segment. -/
def headerSize : Nat :=
  64 + (interpContent config).length + (if config.makeInitArray then 8 * t.initArray + 8 * t.finiArray else 0)
    + 56 * t.phdrTable

/-- The bytes of the dynamic tables. -/
def dynamicSize : Nat :=
  t.dynstr + 24 * t.symtab + 24 * t.dynsym + (if config.isUnionOutput then 0 else t.gnuHash) + 24 * t.relaDyn
    + 16 * dynamicPairs config t

def gotpltSize : Nat := 8 * (t.program.entries.length + 3) + 24 * (ordinaryEntries t.program).length

def pltSize : Nat := 16 * (t.program.entries.length + 1)

def namedSize (sections : List Section) (name : String) : Nat :=
  ((getSection sections name).map (sizeOf sections)).getD 0

theorem fileSize_containing (sections later) (type : SegmentType) (flags alignment) :
    ∀ names : List String, (mk type flags alignment (containing sections names) 0).fileSize (sections ++ later) =
      (names.map (namedSize sections)).sum
  | [] => rfl
  | name :: names => by
    have ih := fileSize_containing sections later type flags alignment names
    unfold fileSize at ih ⊢
    rw [List.map_cons, List.sum_cons, ← ih, containing, List.filterMap_cons, namedSize]
    cases hn : getSection sections name with
    | none => simp [containing]
    | some i => simp [containing, sizeOf_append (List.findIdx?_eq_some_iff_findIdx_eq.1 hn).1]

theorem sum_namedSize : (headerNames.map (namedSize (basicSections config t))).sum = headerSize config t ∧
    (config.isDynamicallyLinked = true →
      ((dynamicNames config).map (namedSize (basicSections config t))).sum = dynamicSize config t ∧
      (gotpltNames.map (namedSize (basicSections config t))).sum = gotpltSize t ∧
      namedSize (basicSections config t) ".plt" = pltSize t) := by
  obtain ⟨dynamicallyLinked, unionOutput, _, makeInitArray, _⟩ := config
  cases makeInitArray <;> cases dynamicallyLinked <;> cases unionOutput <;>
    simp [headerNames, dynamicNames, gotpltNames, namedSize, getSection, basicSections, withHeader, makePaddingSection,
      List.findIdx?_cons, sizeOf, Section.size, Content.getSize, headerSize, dynamicSize, gotpltSize, pltSize] <;>
    omega

theorem headerAddress_arrays (h : config.makeInitArray = true) :
    headerAddress config t ".init_array" = some (0x200040 + (interpContent config).length) ∧
      headerAddress config t ".fini_array" = some (0x200040 + (interpContent config).length + 8 * t.initArray) := by
  obtain ⟨dynamicallyLinked, unionOutput, _, makeInitArray, _⟩ := config
  cases h
  simp [headerAddress, assignAddressesToSections, containing, headerNames, getSection, basicSections,
    withHeader, List.findIdx?_cons, sizeOf, Section.size, Content.getSize, Lib.starts]
  omega

theorem length_interpContent (h : config.isMusl = false) : (interpContent config).length = 28 := by
  simp [interpContent, interpreter, h]

/-! ## The segments in memory -/

theorem map_loadSegments (later) :
    (loadSegments config t later).map (fun phdr => (phdr.p_vaddr, phdr.p_memsz)) =
      (0x200000, headerSize config t) :: if config.isDynamicallyLinked then
        [(0x400000, dynamicSize config t), (0x500000, gotpltSize t), (0x600000, pltSize t)] else [] := by
  unfold loadSegments assignSectionsToSegments
  obtain ⟨hh, hy⟩ := sum_namedSize config t
  cases h : config.isDynamicallyLinked with
  | false => simp [phdrOf, phdrAt, fileSize_containing, hh]
  | true =>
    obtain ⟨hd, hg, hp⟩ := hy h
    simp [phdrOf, phdrAt, phdr, fileSize_containing, hh, hd, hg, hp]

theorem dynamicSize_pos : 0 < dynamicSize config t := by
  unfold dynamicSize dynamicPairs
  omega

theorem gotpltSize_pos : 0 < gotpltSize t := by
  unfold gotpltSize
  omega

theorem pltSize_pos : 0 < pltSize t := by
  unfold pltSize
  omega

theorem disjoint_Ico_iff {a b n m} (hab : a < b) (hm : 0 < m) :
    Disjoint (Set.Ico a (a + n)) (Set.Ico b (b + m)) ↔ n ≤ b - a := by
  rw [Set.Ico_disjoint_Ico]
  omega

/-- The segments at fixed addresses do not meet if and only if each of them ends before the next one
starts; only the last, `.plt`, may be of any size. -/
theorem loadSegments_disjoint_iff (later : List Section) :
    (loadSegments config t later).Pairwise (fun phdr phdr' => Disjoint phdr.memory phdr'.memory) ↔
      (config.isDynamicallyLinked = true →
        headerSize config t ≤ 0x200000 ∧ dynamicSize config t ≤ 0x100000 ∧ gotpltSize t ≤ 0x100000) := by
  have hmap := List.pairwise_map (f := fun phdr : Phdr => (phdr.p_vaddr, phdr.p_memsz))
    (l := loadSegments config t later) (R := fun r r' => Disjoint (Set.Ico r.1 (r.1 + r.2)) (Set.Ico r'.1 (r'.1 + r'.2)))
  rw [map_loadSegments] at hmap
  have hdn := dynamicSize_pos config t
  have hgot := gotpltSize_pos t
  have hplt := pltSize_pos t
  unfold Phdr.memory
  rw [← hmap]
  cases config.isDynamicallyLinked with
  | false => simp
  | true =>
    simp only [if_true, List.pairwise_cons, List.mem_cons, List.not_mem_nil, or_false, forall_eq_or_imp, forall_eq,
      forall_const, IsEmpty.forall_iff, List.Pairwise.nil, and_true]
    rw [disjoint_Ico_iff (by decide) hdn, disjoint_Ico_iff (by decide) hgot, disjoint_Ico_iff (by decide) hplt,
      disjoint_Ico_iff (by decide) hgot, disjoint_Ico_iff (by decide) hplt, disjoint_Ico_iff (by decide) hplt]
    omega

/-! ### A program with many imports -/

/-- A module with `n` unresolved trampolines. -/
def imports (n : Nat) : Program where
  modules := [(List.range n).map fun pointer => ⟨pointer, some putsSymbol, false, false⟩]
  distinct := by simpa [Function.comp_def] using List.nodup_range

theorem entries_imports (n) :
    (imports n).entries = (List.range n).map fun pointer => ⟨pointer, putsSymbol, false⟩ := by
  simp [imports, Program.entries, PLTTrampoline.unresolved?, List.filterMap_map, Function.comp_def]

theorem gotpltSize_imports (t) {n} (h : t.program = imports n) : gotpltSize t = 32 * n + 24 := by
  have he : t.program.entries.length = n := by simp [h, entries_imports]
  have ho : (ordinaryEntries t.program).length = n := by
    simp [ordinaryEntries, h, entries_imports, List.filter_map, Function.comp_def]
  unfold gotpltSize
  omega

/-- The tables of a union output whose code calls 32768 functions of other libraries. -/
def manyImports : Tables where
  initArray := 1
  finiArray := 1
  phdrTable := 10
  strtab := 1
  shstrtab := 1
  dynstr := 8
  symtab := 1
  dynsym := 2
  gnuHash := 0
  relaDyn := 0
  dependencies := 1
  program := imports 32768

def unionConfig : ElfConfig where
  isDynamicallyLinked := true
  isUnionOutput := true
  isPositionIndependent := false
  makeInitArray := true
  isMusl := false

/-- The segment of `.g.got.plt` and `.rela.plt` reaches into that of `.plt`. -/
theorem manyImports_overlap : ∃ phdr ∈ loadSegments unionConfig manyImports [],
    ∃ phdr' ∈ loadSegments unionConfig manyImports [],
      phdr.p_vaddr = 0x500000 ∧ phdr'.p_vaddr = 0x600000 ∧ ¬ Disjoint phdr.memory phdr'.memory := by
  have hmap := map_loadSegments unionConfig manyImports []
  have hgot : (0x500000, gotpltSize manyImports) ∈
      (loadSegments unionConfig manyImports []).map fun phdr => (phdr.p_vaddr, phdr.p_memsz) := by
    rw [hmap]
    simp [unionConfig]
  have hplt : (0x600000, pltSize manyImports) ∈
      (loadSegments unionConfig manyImports []).map fun phdr => (phdr.p_vaddr, phdr.p_memsz) := by
    rw [hmap]
    simp [unionConfig]
  obtain ⟨phdr, hmem, hpd⟩ := List.mem_map.1 hgot
  obtain ⟨phdr', hm', hph'⟩ := List.mem_map.1 hplt
  rw [Prod.mk.injEq] at hpd hph'
  refine ⟨phdr, hmem, phdr', hm', hpd.1, hph'.1, ?_⟩
  have hsz := gotpltSize_imports manyImports rfl
  unfold Phdr.memory
  rw [hpd.1, hpd.2, hph'.1, hph'.2, disjoint_Ico_iff (by decide) (pltSize_pos manyImports), hsz]
  decide

end Egalito.Generate
