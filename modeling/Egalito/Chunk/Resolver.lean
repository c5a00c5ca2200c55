/-
Relocations inside a module: PerfectLinkResolver::resolveInternally (`chunk/resolver.cpp`).

The lookup of a target may grow the function in front of it by a nop. What it can return is the relation `Expansion`,
from which it follows that chunks keep their addresses and functions stay apart. `resolveInternally_exact` compares the
link with the address that the relocation denotes, which is stated on its type and place alone: the link is exact if the
type is resolved as what it is and the address is one where an instruction starts, or data, or the end of a function.
-/
import Egalito.Chunk.Lookup
import Egalito.Elf.SymbolAliases
import Egalito.Lib.Except

namespace Egalito.Resolver

open Lib Lookup List BitVec Function
open SymbolAliases (SymbolType BindingType)

inductive RelocType where
  | pc32 | gotpc32 | globDat
  | pc64 | gotpcrel64 | gotpc64 | pltoff64 | gotpcrel | gotpcrelx | rexGotpcrelx | pc16 | pc8
  | plt32 | tlsgd | tlsld | gottpoff
  | other
deriving DecidableEq

/-- The types that the assertion rules out. -/
def RelocType.refused : RelocType → Bool
  | .pc64 | .gotpcrel64 | .gotpc64 | .pltoff64 | .gotpcrel | .gotpcrelx | .rexGotpcrelx | .pc16 | .pc8 => true
  | .pc32 | .gotpc32 | .globDat | .plt32 | .tlsgd | .tlsld | .gottpoff | .other => false

/-- The types whose value is a distance from the relocated place. -/
def RelocType.pcRelative : RelocType → Bool
  | .pc32 | .gotpc32 | .pc64 | .gotpcrel64 | .gotpc64 | .gotpcrel | .gotpcrelx | .rexGotpcrelx | .pc16 | .pc8
  | .plt32 | .tlsgd | .tlsld | .gottpoff => true
  | .globDat | .pltoff64 | .other => false

structure Symbol extends SymbolAliases.Symbol where
  version : Option String

structure Reloc where
  address : Address
  type : RelocType
  symbol : Option Symbol
  addend : Address

structure Module where
  functions : List Function
  data : DataRegionList
  /-- The alias map, from names to places in the function list. -/
  aliases : List (String × Nat)

/-- The main module, whose symbol lists give the address for a name. -/
structure Executable where
  baseAddress : Address
  data : DataRegionList
  symbolList : Option (String → Option Address)
  dynamicSymbolList : Option (String → Option Address)

/-- redirectCopyRelocs, for one symbol list. -/
def redirectCopyRelocs (main : Executable) (symbol : Symbol) (list : String → Option Address) (relative : Bool) :
    Option Link :=
  let s := list symbol.name <|> symbol.version.bind fun version =>
    list (symbol.name ++ "@" ++ version) <|> list (symbol.name ++ "@@" ++ version)
  s.bind fun address => createDataLink main.data (main.baseAddress + address) relative

/-- The copy of the symbol in the executable. -/
def copyInMain (main : Option Executable) (symbol : Symbol) (relative : Bool) : Option Link :=
  main.bind fun main =>
    (main.symbolList.bind fun list => redirectCopyRelocs main symbol list relative) <|>
      main.dynamicSymbolList.bind fun list => redirectCopyRelocs main symbol list relative

/-! ## Growing a function -/

def nop : Nat → Option (List Byte)
  | 1 => some [0x90]
  | 2 => some [0x66, 0x90]
  | 3 => some [0x0f, 0x1f, 0x00]
  | 4 => some [0x0f, 0x1f, 0x40, 0x00]
  | 5 => some [0x0f, 0x1f, 0x44, 0x00, 0x00]
  | 6 => some [0x66, 0x0f, 0x1f, 0x44, 0x00, 0x00]
  | 7 => some [0x0f, 0x1f, 0x80, 0x00, 0x00, 0x00, 0x00]
  | 8 => some [0x0f, 0x1f, 0x84, 0x00, 0x00, 0x00, 0x00, 0x00]
  | 9 => some [0x66, 0x0f, 0x1f, 0x84, 0x00, 0x00, 0x00, 0x00, 0x00]
  | 10 => some [0x66, 0x66, 0x0f, 0x1f, 0x84, 0x00, 0x00, 0x00, 0x00, 0x00]
  | 11 => some [0x66, 0x66, 0x66, 0x0f, 0x1f, 0x84, 0x00, 0x00, 0x00, 0x00, 0x00]
  | _ => none

theorem length_nop {n bytes} (h : nop n = some bytes) : bytes.length = n ∧ 0 < n ∧ n ≤ 11 := by
  unfold nop at h
  split at h
  all_goals cases h
  all_goals decide

def grow (f : Function) (bytes : List Byte) : Function := { f with blocks := f.blocks ++ [[⟨bytes⟩]] }

def appendNop (f : Function) (size : Address) : Except Failure Function :=
  match nop size.toNat with
  | some bytes => .ok (grow f bytes)
  | none => .error .assertion

/-- The address is in a section of data in an executable region. -/
def isDataInCode (d : DataRegionList) (address : Address) : Bool :=
  match d.findRegionContaining address.toNat with
  | some region =>
    region.executable && ((region.findDataSectionContaining address.toNat).any fun s => !s.isCode)
  | none => false

/-- "hack for functions aligned to 16B or less": the function that contains the nearest of the 15 addresses
    before. -/
def functionBefore (functions : List Function) (address : Address) : Option (Function × Nat) :=
  (range' 1 15).findSome? fun i => functionContaining functions (address - BitVec.ofNat 64 i).toNat

/-- The size of the nop that ends behind the address. -/
def nopSize (f : Function) (address : Address) : Address := address - (BitVec.ofNat 64 f.stop - 1)

/-- getFunctionWithExpansion, with the function list afterwards. -/
def getFunctionWithExpansion (m : Module) (address : Address) :
    Except Failure (Option (Function × Nat) × List Function) :=
  match functionContaining m.functions address.toNat with
  | some e => .ok (some e, m.functions)
  | none =>
    if isDataInCode m.data address then .ok (none, m.functions)
    else
      match functionBefore m.functions address with
      | some (f, k) => do
        let f ← appendNop f (nopSize f address)
        .ok (some (f, k), m.functions.set k f)
      | none => .ok (none, m.functions)

/-- ChunkFind2::findFunctionInModule: the last function added under the name, or the one it is an alias
    of. -/
def findFunctionInModule (m : Module) (name : String) : Option Function :=
  (m.functions.reverse.find? fun f => f.name = name) <|> (m.aliases.lookup name).bind fun k => m.functions[k]?

def createMarkerLink (m : Module) (symbol : Option Symbol) (addend : Address) (isRelative : Bool) :
    Except Failure (Option Link) :=
  match symbol with
  | none => .ok none
  | some s =>
    if s.shndx = 0 then .error .assertion
    else if s.symbolType = .tls then .ok none
    else if s.symbolType = .sectionType then
      match m.data.findRegionContaining s.address.toNat with
      | none => .error .assertion
      | some region =>
        -- "shouldn't this be a DataOffsetLink?"
        if s.address + addend = region.address then .error .assertion
        else if s.address + addend = region.address + BitVec.ofNat 64 region.size then
          .ok (some (.marker (.sectionEnd (region.findDataSectionContaining s.address.toNat)) isRelative))
        else
          match region.findDataSectionContaining s.address.toNat with
          | none => .error .assertion
          | some d => .ok (some (.marker (.general d.address (addend + (s.address - d.address))) isRelative))
    else
      match findFunctionInModule m s.name with
      | some f => .ok (some (.marker (.general f.address addend) isRelative))
      -- "couldn't find the base of marker..."
      | none => .error .assertion

/-! ## resolveInternally -/

def asInstruction : Option Chunk → Option Chunk
  | some (.instruction index address i) => some (.instruction index address i)
  | _ => none

/-- The instruction that the address is in, with its function and its own address. -/
def instructionAt (m : Module) (address : Address) : Option (Nat × Nat × Instruction) :=
  match findInFunctionList m.functions address.toNat false true with
  | some (.instruction index a i) => some (index, a, i)
  | _ => none

def functionTarget (f : Function) (k : Nat) (addr : Address) : Option Chunk :=
  if f.address = addr then some (.function k f.start) else asInstruction (findInFunction k f addr.toNat false true)

/-- From the search for the address on. -/
def resolveAddress (m : Module) (r : Reloc) (addr : Address) (relative : Bool) :
    Except Failure (Option Link × Module) := do
  let (func, functions) ← getFunctionWithExpansion m addr
  match func with
  | some (f, k) =>
    let external := (instructionAt m r.address).map Prod.fst ≠ some k
    .ok (some (makeNormalLink (functionTarget f k addr) relative external), { m with functions })
  | none =>
    match createDataLink m.data addr relative with
    | some link => .ok (some link, { m with functions })
    | none => do
      let link ← createMarkerLink m r.symbol r.addend relative
      .ok (link, { m with functions })

/-- The link for a relocation, and the module, which may have grown by a nop. -/
def resolveInternally (main : Option Executable) (m : Module) (r : Reloc) (weak relative : Bool) :
    Except Failure (Option Link × Module) :=
  match r.symbol with
  | none => resolveAddress m r r.addend relative
  | some s =>
    -- points to an external module
    if s.shndx = 0 then .ok (none, m)
    -- should be resolved later
    else if weak = false ∧ s.bindingType = .bindWeak then .ok (none, m)
    else if r.type.refused then .error .assertion
    else if r.type = .pc32 ∨ r.type = .gotpc32 then
      match instructionAt m r.address with
      -- "maybe from .eh_frame?"
      | none => .ok (none, m)
      | some (_, a, i) =>
        let offset := r.address - BitVec.ofNat 64 a
        resolveAddress m r (r.addend + (s.address + BitVec.ofNat 64 i.size - offset)) relative
    else if r.type = .globDat then
      match copyInMain main s relative with
      | some link => .ok (some link, m)
      | none => resolveAddress m r s.address relative
    else resolveAddress m r (r.addend + s.address) relative

/-- The address that the code looks for, unless it returns early. -/
def searched (m : Module) (r : Reloc) : Address :=
  match r.symbol with
  | none => r.addend
  | some s =>
    if r.type = .pc32 ∨ r.type = .gotpc32 then
      match instructionAt m r.address with
      | some (_, a, i) => r.addend + (s.address + BitVec.ofNat 64 i.size - (r.address - BitVec.ofNat 64 a))
      | none => r.addend + s.address
    else r.addend + s.address

/-- What the relocated field denotes: S + A, where S is 0 without a symbol, or, for a distance that is stored in an
    instruction, the address at that distance from the next instruction. -/
def denoted (m : Module) (r : Reloc) : Address :=
  match r.type.pcRelative, instructionAt m r.address with
  | true, some (_, a, i) => BitVec.ofNat 64 (a + i.size) + (r.symbol.elim 0 (·.address) + r.addend - r.address)
  | _, _ => r.symbol.elim 0 (·.address) + r.addend

/-- A distance that is stored in an instruction is resolved as one for two types, and with a symbol only. -/
def ResolvedAsDistance (m : Module) (r : Reloc) : Prop :=
  r.type.pcRelative → (instructionAt m r.address).isSome → r.symbol.isSome ∧ (r.type = .pc32 ∨ r.type = .gotpc32)

/-- The processor's limit on the length of an instruction. -/
def ShortInstructions (functions : List Function) : Prop := ∀ f ∈ functions, ∀ e ∈ f.placedInstructions, e.2.size ≤ 15

variable {m : Module} {functions : List Function} {f : Function} {addr address : Address} {relative : Bool}
  {link : Link} {found : Option (Function × Nat)} {k : Nat}

theorem resolveInternally_eq_some {main m' r weak}
    (ht : r.type ≠ .globDat) (h : resolveInternally main m r weak relative = .ok (some link, m')) :
    resolveAddress m r (searched m r) relative = .ok (some link, m') := by
  unfold searched
  cases hs : r.symbol with
  | none =>
    rw [resolveInternally, hs] at h
    exact h
  | some s =>
    simp only [resolveInternally, hs] at h
    -- the early returns give no link, the refused types fail
    split at h
    · cases h
    split at h
    · cases h
    split at h
    · cases h
    by_cases hp : r.type = .pc32 ∨ r.type = .gotpc32
    · rw [if_pos hp] at h
      dsimp only
      rw [if_pos hp]
      cases hi : instructionAt m r.address with
      | none =>
        rw [hi] at h
        cases h
      | some e =>
        rw [hi] at h
        exact h
    · rw [if_neg hp] at h
      dsimp only
      rw [if_neg hp]
      exact h

theorem denoted_of_not {r} (h : ¬(r.type.pcRelative ∧ (instructionAt m r.address).isSome)) :
    denoted m r = r.symbol.elim 0 (·.address) + r.addend := by
  unfold denoted
  split
  · next hp he => exact absurd ⟨hp, by rw [he]; rfl⟩ h
  · rfl

theorem searched_eq_denoted {r} (h : ResolvedAsDistance m r) : searched m r = denoted m r := by
  by_cases hd : r.type.pcRelative ∧ (instructionAt m r.address).isSome
  · obtain ⟨hs, ht⟩ := h hd.1 hd.2
    obtain ⟨s, hs⟩ := Option.isSome_iff_exists.1 hs
    obtain ⟨e, he⟩ := Option.isSome_iff_exists.1 hd.2
    simp only [searched, denoted, hs, he, hd.1, ht, if_true, Option.elim_some, ofNat_add]
    ring
  · rw [denoted_of_not hd]
    unfold searched
    cases hs : r.symbol with
    | none => simp
    | some s =>
      by_cases ht : r.type = .pc32 ∨ r.type = .gotpc32
      · have hn : instructionAt m r.address = none := by
          rcases ht with ht | ht <;> simpa [ht, RelocType.pcRelative] using hd
        simp [hn, add_comm]
      · simp [ht, add_comm]

theorem instructionAt_eq_some {e} (h : instructionAt m address = some e) :
    (e.2.1 ≤ address.toNat ∧ address.toNat < e.2.1 + e.2.2.size) ∧ ∃ f ∈ m.functions, e.2 ∈ f.placedInstructions := by
  unfold instructionAt findInFunctionList at h
  cases hc : functionContaining m.functions address.toNat with
  | none => simp [hc] at h
  | some g =>
    obtain ⟨hk, hle, hlt⟩ := containing_eq_some hc
    obtain ⟨e', hi, hf⟩ := findInFunction_inside g.2 hle hlt
    obtain ⟨hm, hb⟩ := itemAt_eq_some.1 hi
    simp only [hc, Option.bind_some, hf] at h
    cases h
    exact ⟨hb, g.1, mem_of_getElem? hk, hm⟩

/-- Otherwise the code is off by the rest of the instruction, from the relocated place on. -/
theorem denoted_sub_searched {r} (hsh : ShortInstructions m.functions) (h : ¬ResolvedAsDistance m r) :
    0 < (denoted m r - searched m r).toNat ∧ (denoted m r - searched m r).toNat ≤ 15 := by
  unfold ResolvedAsDistance at h
  push Not at h
  obtain ⟨hp, hi, hn⟩ := h
  obtain ⟨e, he⟩ := Option.isSome_iff_exists.1 hi
  obtain ⟨⟨hle, hlt⟩, f, hf, hm⟩ := instructionAt_eq_some he
  have hsz := hsh f hf e.2 hm
  have hs : searched m r = r.symbol.elim 0 (·.address) + r.addend := by
    unfold searched
    cases hs : r.symbol with
    | none => simp
    | some s =>
      have ht := hn (by simp [hs])
      simp [ht, add_comm]
  have hd : denoted m r - searched m r = BitVec.ofNat 64 (e.2.1 + e.2.2.size) - r.address := by
    rw [hs]
    simp only [denoted, hp, he]
    ring
  rw [hd, toNat_sub, toNat_ofNat]
  have := r.address.isLt
  omega

/-! ## What the expansion does -/

theorem functionBefore_eq_some {e} (h : functionBefore functions address = some e) :
    ∃ i, 0 < i ∧ i ≤ 15 ∧ functionContaining functions (address - BitVec.ofNat 64 i).toNat = some e ∧
      ∀ j, 0 < j → j < i → functionContaining functions (address - BitVec.ofNat 64 j).toNat = none := by
  obtain ⟨pre, i, after, hs, hi, hb⟩ := findSome?_eq_some_iff.1 h
  have hm : i ∈ range' 1 15 := by simp [hs]
  rw [mem_range'_1] at hm
  refine ⟨i, by omega, by omega, hi, ?_⟩
  intro j hp hj
  have hjm : j ∈ pre ++ i :: after := by
    rw [← hs, mem_range'_1]
    omega
  have hr := hs ▸ pairwise_lt_range'
  rcases mem_append.1 hjm with hin | hin
  · exact hb j hin
  · -- the loop counts upwards
    rcases mem_cons.1 hin with rfl | hin
    · exact absurd hj (lt_irrefl j)
    · have := (pairwise_cons.1 (pairwise_append.1 hr).2.1).1 j hin
      omega

/-- What getFunctionWithExpansion can return: a function that contains the address, none, or one that was
    grown. -/
inductive Expansion (m : Module) (address : Address) : Option (Function × Nat) → List Function → Prop
  | containing {f : Function} {k : Nat} (h : functionContaining m.functions address.toNat = some (f, k)) :
      Expansion m address (some (f, k)) m.functions
  | nothing (h : functionContaining m.functions address.toNat = none)
      (hout : isDataInCode m.data address ∨ functionBefore m.functions address = none) :
      Expansion m address none m.functions
  | grown {f : Function} {k : Nat} {bytes : List Byte} (h : functionContaining m.functions address.toNat = none)
      (hcode : isDataInCode m.data address = false) (hbefore : functionBefore m.functions address = some (f, k))
      (hnop : nop (nopSize f address).toNat = some bytes) :
      Expansion m address (some (grow f bytes, k)) (m.functions.set k (grow f bytes))

theorem getFunctionWithExpansion_ok (h : getFunctionWithExpansion m address = .ok (found, functions)) :
    Expansion m address found functions := by
  unfold getFunctionWithExpansion at h
  cases hin : functionContaining m.functions address.toNat with
  | some e =>
    rw [hin] at h
    cases h
    exact .containing hin
  | none =>
    simp only [hin] at h
    split at h
    · next hc =>
      cases h
      exact .nothing hin (.inl hc)
    · next hc =>
      cases hb : functionBefore m.functions address with
      | none =>
        rw [hb] at h
        cases h
        exact .nothing hin (.inr hb)
      | some e =>
        simp only [hb] at h
        obtain ⟨f', hg, h⟩ := bind_iff.1 h
        cases h
        unfold appendNop at hg
        split at hg
        · next bytes hn =>
          cases hg
          exact .grown hin (Bool.not_eq_true _ ▸ hc) hb hn
        · cases hg

/-- The function has kept its address and those of all its chunks, and may have new ones behind them. -/
structure Extends (f f' : Function) : Prop where
  address : f'.address = f.address
  blocks : f.placedBlocks <+: f'.placedBlocks
  instructions : f.placedInstructions <+: f'.placedInstructions

theorem Extends.refl (f) : Extends f f := ⟨rfl, prefix_rfl, prefix_rfl⟩

theorem start_grow (f bytes) : (grow f bytes).start = f.start := rfl

theorem placedBlocks_grow (f bytes) : (grow f bytes).placedBlocks = f.placedBlocks ++ [(f.stop, [⟨bytes⟩])] := by
  rw [placedBlocks, start_grow, grow, layout_append]
  rfl

theorem placedInstructions_grow (f bytes) :
    (grow f bytes).placedInstructions = f.placedInstructions ++ [(f.stop, ⟨bytes⟩)] := by
  rw [placedInstructions, start_grow, grow, flatten_append, layout_append, ← f.size_eq]
  rfl

theorem stop_grow (f bytes) : (grow f bytes).stop = f.stop + bytes.length := by
  have hs : (grow f bytes).size = f.size + bytes.length := by
    rw [size, grow, totalLength_append]
    rfl
  rw [stop, start_grow, hs, ← add_assoc]
  rfl

theorem extends_grow (f bytes) : Extends f (grow f bytes) where
  address := rfl
  blocks := ⟨_, (placedBlocks_grow f bytes).symm⟩
  instructions := ⟨_, (placedInstructions_grow f bytes).symm⟩

theorem Expansion.functions_extend (h : Expansion m address found functions) :
    List.Forall₂ Extends m.functions functions := by
  have hs : List.Forall₂ Extends m.functions m.functions := forall₂_same.2 fun f _ => Extends.refl f
  cases h with
  | containing h => exact hs
  | nothing h ho => exact hs
  | @grown f k bytes h hc hb hn =>
    obtain ⟨i, -, -, hi, -⟩ := functionBefore_eq_some hb
    obtain ⟨hk, -⟩ := containing_eq_some hi
    rw [forall₂_iff_get]
    refine ⟨length_set.symm, ?_⟩
    intro j hj hj'
    by_cases hjk : j = k
    · subst hjk
      have hf := (List.getElem?_eq_some_iff.1 hk).2
      rw [get_eq_getElem, get_eq_getElem, getElem_set_self, hf]
      exact extends_grow f bytes
    · rw [get_eq_getElem, get_eq_getElem, getElem_set_ne (Ne.symm hjk)]
      exact Extends.refl _

/-! ## Functions stay apart -/

/-- The functions are not empty and do not overlap. -/
structure Separate (functions : List Function) : Prop where
  size_pos : ∀ f ∈ functions, 0 < f.size
  apart : functions.Pairwise (Apart Function.start Function.size)

theorem Separate.containing_eq_none {p} (h : Separate functions)
    (hn : functionContaining functions p = none) (hf : f ∈ functions) : p < f.start ∨ f.stop ≤ p := by
  obtain ⟨k, hk⟩ := mem_iff_getElem?.1 hf
  have ht := zipIdx_map_fst 0 functions
  have ha : functions.zipIdx.Pairwise (Apart (fun e => e.1.start) fun e => e.1.size) := by
    have hmp := h.apart
    rw [← ht, pairwise_map] at hmp
    exact hmp
  have hp : ∀ e ∈ functions.zipIdx, 0 < e.1.size := by
    intro e he
    exact h.size_pos e.1 (mem_of_getElem? (mem_zipIdx_iff_getElem?.1 he))
  have hm : (f, k) ∈ functions.zipIdx := mem_zipIdx_iff_getElem?.2 hk
  have ho := findContaining_eq_none ha hp hn hm
  exact ho

theorem toNat_nopSize (f address) :
    (nopSize f address).toNat = (address.toNat + 1 + (2 ^ 64 - f.stop % 2 ^ 64)) % 2 ^ 64 := by
  have ho : (1 : Address).toNat = 1 := rfl
  rw [nopSize, toNat_sub, toNat_sub, toNat_ofNat, ho]
  omega

/-- A function behind the one that is grown starts behind the nop as well: the addresses up to the one asked for have
    been looked up before. -/
theorem Separate.grow_le {g bytes} (h : Separate functions) (hn : functionContaining functions address.toNat = none)
    (hb : functionBefore functions address = some (f, k)) (hp : nop (nopSize f address).toNat = some bytes)
    (hg : g ∈ functions) (hf : f.stop ≤ g.start) : (grow f bytes).stop ≤ g.start := by
  obtain ⟨i, hps, hi, hin, ht⟩ := functionBefore_eq_some hb
  obtain ⟨hk, hle, hlt⟩ := containing_eq_some hin
  obtain ⟨hl, hs0, hs⟩ := length_nop hp
  have ho := h.containing_eq_none hn (mem_of_getElem? hk)
  by_contra hover
  rw [stop_grow, hl, not_le] at hover
  -- `g` starts `j` addresses before the one asked for, and is not empty
  set j := (address - g.address).toNat with hj
  have hd : address - BitVec.ofNat 64 j = g.address := by
    rw [hj, ofNat_toNat, setWidth_eq]
    ring
  have hm : functionContaining functions (address - BitVec.ofNat 64 j).toNat = none := by
    by_cases hj0 : j = 0
    · rw [hj0]
      simpa using hn
    · refine ht j (pos_of_ne_zero hj0) ?_
      have hr : g.start = g.address.toNat := rfl
      have ha := address.isLt
      have hgd := g.address.isLt
      rw [toNat_nopSize] at hover hs0 hs
      rw [toNat_sub, toNat_ofNat] at hle hlt
      rw [hj, toNat_sub]
      omega
  rw [hd] at hm
  have hz := h.size_pos g hg
  have := h.containing_eq_none hm hg
  rw [stop, start] at this
  omega

theorem Expansion.separate (h : Expansion m address found functions) (hs : Separate m.functions) :
    Separate functions := by
  cases h with
  | containing h => exact hs
  | nothing h ho => exact hs
  | @grown f k bytes h hc hbf hn =>
    obtain ⟨i, -, -, hi, -⟩ := functionBefore_eq_some hbf
    obtain ⟨hk, -⟩ := containing_eq_some hi
    obtain ⟨hkt, hfk⟩ := List.getElem?_eq_some_iff.1 hk
    have hp := pairwise_iff_getElem.1 hs.apart
    have hh {g : Function} (hg : g ∈ m.functions) (hf : f.stop ≤ g.start) : (grow f bytes).stop ≤ g.start :=
      hs.grow_le h hbf hn hg hf
    constructor
    · intro g hg
      rcases mem_or_eq_of_mem_set hg with hg | rfl
      · exact hs.size_pos g hg
      · have ht := stop_grow f bytes
        have hps := hs.size_pos f (mem_of_getElem? hk)
        rw [stop, stop, start_grow] at ht
        omega
    · rw [pairwise_iff_getElem]
      intro a b ha hb hab
      rw [length_set] at ha hb
      have hr := hp a b ha hb hab
      -- only the pairs with the function that has grown are new
      rw [getElem_set, getElem_set]
      split
      · next hka =>
        subst hka
        rw [if_neg (ne_of_lt hab)]
        rw [hfk] at hr
        rcases hr with hf | hgf
        · exact .inl (hh (getElem_mem hb) hf)
        · exact .inr hgf
      · split
        · next hkb =>
          subst hkb
          rw [hfk] at hr
          rcases hr with hgf | hf
          · exact .inl hgf
          · exact .inr (hh (getElem_mem ha) hf)
        · exact hr

/-! ## Exact links -/

/-- Where the link is exact: at the start of an instruction, in the data of an executable region, and behind a function
    only at its end. -/
def OnBoundary (m : Module) (address : Address) : Prop :=
  match functionContaining m.functions address.toNat with
  | some (f, _) => f.StartsAt address.toNat
  | none =>
    isDataInCode m.data address ∨
      match functionBefore m.functions address with
      | some (f, _) => f.stop = address.toNat
      | none => True

theorem createMarkerLink_isMarker {symbol addend}
    (h : createMarkerLink m symbol addend relative = .ok (some link)) : link.isMarker = true := by
  unfold createMarkerLink at h
  repeat' split at h
  all_goals cases h
  all_goals rfl

/-- The links that are made for the outcome of the expansion. -/
def LinkFor (m : Module) (addr : Address) (relative : Bool) (link : Link) : Option (Function × Nat) → Prop
  | some (f, k) => ∃ scope, link = .normal (functionTarget f k addr) relative scope
  | none => createDataLink m.data addr relative = some link ∨ link.isMarker = true

theorem resolveAddress_eq_some {m' r} (h : resolveAddress m r addr relative = .ok (some link, m')) :
    ∃ found functions, Expansion m addr found functions ∧ m' = { m with functions } ∧
      LinkFor m addr relative link found := by
  obtain ⟨⟨found, functions⟩, he, h⟩ := bind_iff.1 h
  refine ⟨found, functions, getFunctionWithExpansion_ok he, ?_⟩
  cases found with
  | some e =>
    cases h
    exact ⟨rfl, _, rfl⟩
  | none =>
    cases hd : createDataLink m.data addr relative with
    | some l =>
      rw [hd] at h
      cases h
      exact ⟨rfl, .inl hd⟩
    | none =>
      rw [hd] at h
      obtain ⟨l, hm, h⟩ := bind_iff.1 h
      cases h
      exact ⟨rfl, .inr (createMarkerLink_isMarker hm)⟩

theorem functionTarget_exact_iff (hle : f.start ≤ addr.toNat) (hlt : addr.toNat < f.stop) (k) (relative)
    (scope) :
    (Link.normal (functionTarget f k addr) relative scope).getTargetAddress = .ok addr ↔ f.StartsAt addr.toNat := by
  have hc : functionTarget f k addr = chunkAt f k addr := by
    obtain ⟨e, -, hf⟩ := findInFunction_inside k hle hlt
    rw [functionTarget, chunkAt, hf]
    rfl
  rw [hc]
  exact chunkAt_exact_iff hle hlt k relative scope

theorem startsAt_grow (f bytes) : (grow f bytes).StartsAt f.stop := by
  rw [Function.StartsAt, placedInstructions_grow]
  simp

theorem Expansion.exact (h : Expansion m addr (some (f, k)) functions) (hb : OnBoundary m addr) (relative)
    (scope) : (Link.normal (functionTarget f k addr) relative scope).getTargetAddress = .ok addr := by
  unfold OnBoundary at hb
  cases h with
  | containing h =>
    obtain ⟨-, hle, hlt⟩ := containing_eq_some h
    simp only [h] at hb
    exact (functionTarget_exact_iff hle hlt k relative scope).2 hb
  | @grown f k bytes h hc hf hn =>
    simp only [h, hc, hf, Bool.false_eq_true, false_or] at hb
    -- a nop of one byte at the end of the function
    obtain ⟨hl, hp, -⟩ := length_nop hn
    have hle : (grow f bytes).start ≤ addr.toNat := by
      rw [start_grow, ← hb]
      exact Nat.le_add_right _ _
    have hlt : addr.toNat < (grow f bytes).stop := by
      rw [stop_grow]
      omega
    exact (functionTarget_exact_iff hle hlt k relative scope).2 (hb ▸ startsAt_grow f bytes)

theorem functionTarget_below (hlt : addr.toNat < f.start) (k : Nat) : functionTarget f k addr = none := by
  have hne : f.address ≠ addr := by
    rintro rfl
    exact lt_irrefl _ hlt
  have hb : itemAt Block.size f.start f.blocks addr.toNat = none := itemAt_eq_none.2 (.inl hlt)
  have hs : findSelf (.function k f.start) f.start f.size addr.toNat false = none := if_neg hlt.ne'
  rw [functionTarget, if_neg hne, findInFunction, hb]
  exact congrArg asInstruction hs

/-- A function that gives a target for the address has it inside once it has been grown. -/
theorem Expansion.inside (h : Expansion m addr (some (f, k)) functions) (hsp : Separate m.functions)
    (ht : functionTarget f k addr ≠ none) : f.start ≤ addr.toNat ∧ addr.toNat < f.stop := by
  cases h with
  | containing h => exact (containing_eq_some h).2
  | @grown f k bytes h hcd hb hnp =>
    obtain ⟨i, -, -, hi, -⟩ := functionBefore_eq_some hb
    obtain ⟨hk, -⟩ := containing_eq_some hi
    obtain ⟨hl, hp, -⟩ := length_nop hnp
    rcases hsp.containing_eq_none h (mem_of_getElem? hk) with hlo | hh
    · -- the loop went below address 0 and came to a function at the other end
      exact absurd (functionTarget_below (start_grow f bytes ▸ hlo) k) ht
    · refine ⟨(Nat.le_add_right _ _).trans hh, ?_⟩
      have ha := addr.isLt
      rw [toNat_nopSize] at hp
      rw [stop_grow, hl, toNat_nopSize]
      omega

theorem Expansion.onBoundary {scope} (h : Expansion m addr (some (f, k)) functions) (hsp : Separate m.functions)
    (hc : (Link.normal (functionTarget f k addr) relative scope).getTargetAddress = .ok addr) :
    OnBoundary m addr := by
  have ht : functionTarget f k addr ≠ none := by
    intro ht
    rw [ht] at hc
    cases hc
  obtain ⟨hle, hlt⟩ := h.inside hsp ht
  have hs := (functionTarget_exact_iff hle hlt k relative scope).1 hc
  unfold OnBoundary
  cases h with
  | containing h =>
    simp only [h]
    exact hs
  | @grown f k bytes h hcd hb hnp =>
    simp only [h, hcd, hb, Bool.false_eq_true, false_or]
    obtain ⟨i, -, -, hi, -⟩ := functionBefore_eq_some hb
    have hout := hsp.containing_eq_none h (mem_of_getElem? (containing_eq_some hi).1)
    rw [Function.StartsAt, placedInstructions_grow, map_append, mem_append] at hs
    rcases hs with ho | hn
    · obtain ⟨e, he, heq⟩ := mem_map.1 ho
      have hd := bounds_of_mem_layout he
      rw [← f.size_eq, ← stop] at hd
      omega
    · exact (mem_singleton.1 hn).symm

theorem Expansion.short (h : Expansion m addr (some (f, k)) functions) (hsh : ShortInstructions m.functions) :
    ∀ e ∈ f.placedInstructions, e.2.size ≤ 15 := by
  cases h with
  | containing h => exact hsh f (mem_of_getElem? (containing_eq_some h).1)
  | @grown f k bytes h hcd hb hnp =>
    obtain ⟨i, -, -, hi, -⟩ := functionBefore_eq_some hb
    obtain ⟨hl, -, hle⟩ := length_nop hnp
    rw [placedInstructions_grow]
    refine forall_mem_append.2 ⟨hsh f (mem_of_getElem? (containing_eq_some hi).1), forall_mem_singleton.2 ?_⟩
    exact (hl.trans_le hle).trans (by omega)

/-- The target of a link starts at the address or a few bytes before it. -/
theorem Expansion.target_near {c} (h : Expansion m addr (some (f, k)) functions) (hsp : Separate m.functions)
    (hsh : ShortInstructions m.functions) (ht : functionTarget f k addr = some c) :
    c.address ≤ addr.toNat ∧ addr.toNat < c.address + 15 := by
  obtain ⟨hle, hlt⟩ := h.inside hsp (by simp [ht])
  obtain ⟨e, hi, hf⟩ := findInFunction_inside k hle hlt
  obtain ⟨hm, hb⟩ := itemAt_eq_some.1 hi
  have hz := h.short hsh e hm
  unfold functionTarget at ht
  split at ht
  · next ha =>
    cases ht
    rw [Chunk.address, Function.start, ha]
    omega
  · rw [hf] at ht
    cases ht
    rw [Chunk.address]
    omega

theorem Expansion.onBoundary_of_none (h : Expansion m addr none functions) : OnBoundary m addr := by
  unfold OnBoundary
  cases h with
  | nothing h ho =>
    simp only [h]
    rcases ho with hc | hb
    · exact .inl hc
    · simp only [hb, or_true]

/-- A link refers to no address that is up to 15 bytes behind the one that was searched. -/
theorem Expansion.exact_searched {denoted : Address} (h : Expansion m addr found functions) (hsp : Separate m.functions)
    (hsh : ShortInstructions m.functions) (hm : link.isMarker = false)
    (hl : LinkFor m addr relative link found) (hd : link.getTargetAddress = .ok denoted)
    (hz : (denoted - addr).toNat ≤ 15) : addr = denoted := by
  cases found with
  | some e =>
    obtain ⟨scope, rfl⟩ := hl
    cases ht : functionTarget e.1 e.2 addr with
    | none =>
      rw [ht] at hd
      cases hd
    | some c =>
      have hn := h.target_near hsp hsh ht
      rw [ht] at hd
      cases hd
      have ha := addr.isLt
      rw [toNat_sub, toNat_ofNat] at hz
      rw [← BitVec.toNat_inj, toNat_ofNat]
      omega
  | none =>
    rcases hl with hdt | hmr
    · exact Except.ok.inj ((createDataLink_exact hdt).1.symm.trans hd)
    · exact absurd (hmr.symm.trans hm) (by decide)

/-- If resolveInternally returns a link, all chunks are where they were, and functions that did not overlap still do
    not. A link to a function, instruction or data section refers to the denoted address if a distance in an instruction
    is resolved as such and the address is on a boundary; among functions that do not overlap, and with instructions as
    short as the processor wants them, only then. -/
theorem resolveInternally_exact {main : Option Executable} {m m' : Module} {r : Reloc} {weak relative : Bool}
    {link : Link} (htype : r.type ≠ .globDat)
    (hrun : resolveInternally main m r weak relative = .ok (some link, m')) :
    (List.Forall₂ Extends m.functions m'.functions ∧ m'.data = m.data) ∧
      (Separate m.functions → Separate m'.functions) ∧
      (link.isMarker = false →
        (ResolvedAsDistance m r → OnBoundary m (denoted m r) → link.getTargetAddress = .ok (denoted m r)) ∧
        (Separate m.functions → ShortInstructions m.functions → link.getTargetAddress = .ok (denoted m r) →
          ResolvedAsDistance m r ∧ OnBoundary m (denoted m r))) := by
  obtain ⟨found, functions, hep, rfl, hlk⟩ := resolveAddress_eq_some (resolveInternally_eq_some htype hrun)
  refine ⟨⟨hep.functions_extend, rfl⟩, hep.separate, fun hmr => ⟨?_, ?_⟩⟩
  · intro hdist hbd
    rw [← searched_eq_denoted hdist] at hbd ⊢
    cases found with
    | some e =>
      obtain ⟨scope, rfl⟩ := hlk
      exact hep.exact hbd relative scope
    | none =>
      rcases hlk with hdt | hm
      · exact (createDataLink_exact hdt).1
      · exact absurd (hm.symm.trans hmr) (by decide)
  · intro hsp hsh hec
    have hdist : ResolvedAsDistance m r := by
      by_contra hn
      obtain ⟨hpos, hle⟩ := denoted_sub_searched hsh hn
      have heq := hep.exact_searched hsp hsh hmr hlk hec hle
      rw [← heq, sub_self] at hpos
      exact absurd hpos (by decide)
    refine ⟨hdist, ?_⟩
    rw [← searched_eq_denoted hdist] at hec ⊢
    cases found with
    | some e =>
      obtain ⟨scope, rfl⟩ := hlk
      exact hep.onBoundary hsp hec
    | none => exact hep.onBoundary_of_none

def symbolNamed (name : String) (address : Address) : Symbol where
  address := address
  size := 4
  name := name
  symbolType := .func
  bindingType := .bindGlobal
  shndx := 1
  version := none

/-- Four bytes at 0x1000, `push %rbp; mov %rsp, %rbp`, and behind them a function that calls itself. -/
def twoFunctions : Module where
  functions := [⟨"f", 0x1000, [[⟨[0x55]⟩, ⟨[0x48, 0x89, 0xe5]⟩]]⟩, ⟨"g", 0x1004, [[⟨[0xe8, 0, 0, 0, 0]⟩]]⟩]
  data := ⟨[], none⟩
  aliases := []

/-- A relocation `R_X86_64_64` of data to `g + addend`. -/
def relocG (addend : Address) : Reloc := ⟨0x5000, .other, some (symbolNamed "g" 0x1004), addend⟩

/-- The relocation of the call in `g`. -/
def relocCall (type : RelocType) : Reloc := ⟨0x1005, type, some (symbolNamed "g" 0x1004), -4⟩

theorem resolveInternally_exact_two :
    (∃ link m', resolveInternally none twoFunctions (relocG 5) true false = .ok (some link, m') ∧
      link.getTargetAddress = .ok 0x1009) ∧
    ∃ link m', resolveInternally none twoFunctions (relocCall .pc32) true true = .ok (some link, m') ∧
      link.getTargetAddress = .ok 0x1004 := by
  have hend : resolveInternally none twoFunctions (relocG 5) true false = .ok (_, _) := rfl
  have hcall : resolveInternally none twoFunctions (relocCall .pc32) true true = .ok (_, _) := rfl
  refine ⟨⟨_, _, hend, ((resolveInternally_exact (by decide) hend).2.2 rfl).1 nofun ?_⟩,
    ⟨_, _, hcall, ((resolveInternally_exact (by decide) hcall).2.2 rfl).1 (fun _ _ => ⟨rfl, .inl rfl⟩) ?_⟩⟩
  · exact .inr rfl
  · show 0x1004 ∈ _
    decide

/-- In the middle of an instruction; behind the end by one, and by eleven, where the function cannot be grown; and a
    call of `g` by itself through `R_X86_64_PLT32`, which goes to `f`. -/
theorem resolveInternally_not_exact :
    Separate twoFunctions.functions ∧
      (∃ link, resolveInternally none twoFunctions (relocG 2) true false = .ok (some link, twoFunctions) ∧
        denoted twoFunctions (relocG 2) = 0x1006 ∧ link.getTargetAddress = .ok 0x1004) ∧
      (∃ link m', resolveInternally none twoFunctions (relocG 6) true false = .ok (some link, m') ∧
        denoted twoFunctions (relocG 6) = 0x100a ∧ link.getTargetAddress = .ok 0x1009) ∧
      resolveInternally none twoFunctions (relocG 16) true false = .error .assertion ∧
      ∃ link, resolveInternally none twoFunctions (relocCall .plt32) true true = .ok (some link, twoFunctions) ∧
        denoted twoFunctions (relocCall .plt32) = 0x1004 ∧ link.getTargetAddress = .ok 0x1000 := by
  have ha : twoFunctions.functions.Pairwise (Apart Function.start Function.size) :=
    pairwise_pair.2 (.inl (by decide))
  refine ⟨⟨by decide, ha⟩, ⟨_, rfl, rfl, rfl⟩, ⟨_, _, rfl, rfl, rfl⟩, rfl, ⟨_, rfl, rfl, rfl⟩⟩

end Egalito.Resolver
