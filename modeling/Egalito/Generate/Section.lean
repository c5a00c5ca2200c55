/-
The sections and segments of the output file (`generate/section.h`, `generate/sectionlist.h`). Offsets and addresses are
natural numbers.

`getSize_congruent` is about the padding as the code computes it, on words that wrap.
-/
import Egalito.Lib.Placement
import Egalito.Lib.Stream

namespace Egalito.Generate

open Lib List

/-- What a section writes: a `DeferredString`, a table of entries of one size, or a `PagePaddingContent`. -/
inductive Content
  | bytes (data : List Byte)
  | table (entrySize count : Nat)
  | padding (desiredOffset : Nat) (isIsolatedPadding : Bool)

/-- `PagePaddingContent::getSize`. The previous section is the one before the padding in the list. -/
def paddingSize (desiredOffset : Nat) (isIsolatedPadding : Bool) (lastByte : Nat) : Nat :=
  if isIsolatedPadding then
    ((lastByte + 0xfff) / 0x1000 * 0x1000 - lastByte + desiredOffset) % 0x1000
  else
    (desiredOffset + 0x1000 - lastByte % 0x1000) % 0x1000

def Content.getSize : Content → Nat → Nat
  | .bytes data, _ => data.length
  | .table entrySize count, _ => count * entrySize
  | .padding desiredOffset isIsolatedPadding, lastByte => paddingSize desiredOffset isIsolatedPadding lastByte

/-- A section without an address is one without a header. -/
structure Section where
  name : String
  address : Option Nat
  content : Content

def Section.size (s : Section) (offset : Nat) : Nat := s.content.getSize offset

def fileEnd (sections : List Section) : Nat := finish Section.size 0 sections

def updateOffsets (sections : List Section) : List Nat := starts Section.size 0 sections

def offsetOf (sections : List Section) (i : Nat) : Nat := (updateOffsets sections)[i]?.getD 0

/-- `getContent()->getSize()` once the offsets are set. -/
def sizeOf (sections : List Section) (i : Nat) : Nat := (sections[i]?.map fun s => s.size (offsetOf sections i)).getD 0

/-! ## Segments -/

inductive SegmentType
  | load
  | dynamic
  | interp
  | phdr
  | tls
  deriving DecidableEq, Repr

def PF_X : Nat := 1

def PF_W : Nat := 2

def PF_R : Nat := 4

structure SegmentInfo where
  type : SegmentType
  flags : Nat
  alignment : Nat
  containsList : List Nat
  additionalMemSize : Nat := 0
  deriving DecidableEq, Repr

def SegmentInfo.addContains (segment : SegmentInfo) (i : Nat) : SegmentInfo :=
  { segment with containsList := segment.containsList ++ [i] }

structure Phdr where
  p_type : SegmentType
  p_flags : Nat
  p_offset : Nat
  p_vaddr : Nat
  p_filesz : Nat
  p_memsz : Nat
  p_align : Nat
  deriving DecidableEq, Repr

namespace SegmentInfo

variable (segment : SegmentInfo) (sections : List Section)

def fileSize : Nat := (segment.containsList.map (sizeOf sections)).sum

def offset : Nat := (segment.containsList.head?.map (offsetOf sections)).getD 0

/-- The address that the header of the first section has, zero without a header. -/
def firstAddress : Nat :=
  ((segment.containsList.head?.bind fun i => sections[i]?).bind Section.address).getD 0

def phdrAt (address : Nat) : Phdr where
  p_type := segment.type
  p_flags := segment.flags
  p_offset := segment.offset sections
  p_vaddr := address
  p_filesz := segment.fileSize sections
  p_memsz := segment.fileSize sections + segment.additionalMemSize
  p_align := segment.alignment

def phdr : Phdr := segment.phdrAt sections (segment.firstAddress sections)

/-- `PhdrTableContent::assignAddressesToSections`: the address of each section that is contained. -/
def assignAddressesToSections (address : Nat) : List (Nat × Nat) :=
  segment.containsList.zip (starts (fun i _ => sizeOf sections i) address segment.containsList)

end SegmentInfo

variable {sections before after : List Section} {s : Section} {i : Nat}

@[simp] theorem fileEnd_append_singleton : fileEnd (sections ++ [s]) = fileEnd sections + s.size (fileEnd sections) :=
  finish_append

theorem offsetOf_eq (h : i < sections.length) : offsetOf sections i = fileEnd (sections.take i) := by
  rw [offsetOf, updateOffsets, getElem?_starts h, Option.getD_some, fileEnd]

theorem offsetOf_append (h : i < before.length) : offsetOf (before ++ after) i = offsetOf before i := by
  rw [offsetOf_eq (by simp; omega), offsetOf_eq h, fileEnd, finish_take_append h.le, fileEnd]

theorem sizeOf_append (h : i < before.length) : sizeOf (before ++ after) i = sizeOf before i := by
  rw [sizeOf, sizeOf, getElem?_append_left h, offsetOf_append h]

theorem offsetOf_length : offsetOf (before ++ s :: after) before.length = fileEnd before := by
  rw [offsetOf_eq (by simp), take_left]

theorem fileEnd_take_succ (h : i < sections.length) :
    fileEnd (sections.take (i + 1)) = offsetOf sections i + sizeOf sections i := by
  rw [take_succ_eq_append_getElem h, fileEnd_append_singleton, sizeOf, getElem?_eq_getElem h, offsetOf_eq h]
  rfl

theorem offsetOf_add_sum : ∀ {n p : Nat}, p + n ≤ sections.length → p < sections.length →
    offsetOf sections p + ((range' p n).map (sizeOf sections)).sum = fileEnd (sections.take (p + n))
  | 0, p, _, hp => by rw [range'_zero, map_nil, sum_nil, add_zero, add_zero, offsetOf_eq hp]
  | n + 1, p, h, hp => by
    rw [range'_concat, map_append, sum_append, ← add_assoc, offsetOf_add_sum (by omega) hp,
      ← add_assoc p n 1, fileEnd_take_succ (by omega), offsetOf_eq (by omega)]
    simp

variable {segment : SegmentInfo} {p : Nat}

/-- The address in the header of a section, zero without one. -/
def addressAt (sections : List Section) (i : Nat) : Nat := ((sections[i]?).bind Section.address).getD 0

theorem addressAt_append (h : i < before.length) : addressAt (before ++ after) i = addressAt before i := by
  rw [addressAt, addressAt, getElem?_append_left h]

theorem p_offset_phdr (h : segment.containsList.head? = some p) : (segment.phdr sections).p_offset = offsetOf sections p := by
  simp [SegmentInfo.phdr, SegmentInfo.phdrAt, SegmentInfo.offset, h]

theorem p_vaddr_phdr (h : segment.containsList.head? = some p) : (segment.phdr sections).p_vaddr = addressAt sections p := by
  simp [SegmentInfo.phdr, SegmentInfo.phdrAt, SegmentInfo.firstAddress, addressAt, h]

theorem p_filesz_phdr : (segment.phdr sections).p_filesz = (segment.containsList.map (sizeOf sections)).sum := rfl

/-! ## Padding in machine words -/

def PAGE_SIZE : BitVec 64 := 0x1000

/-- A `PagePaddingContent` with what it reads of the previous section: its offset and, if it has content, the size. -/
structure PagePaddingContent where
  previousOffset : BitVec 64
  previousContent : Option (BitVec 64)
  desiredOffset : BitVec 64
  isIsolatedPadding : Bool

namespace PagePaddingContent

def lastByte (p : PagePaddingContent) : BitVec 64 :=
  match p.previousContent with
  | some size => p.previousOffset + size
  | none => p.previousOffset

def getSize (p : PagePaddingContent) : BitVec 64 :=
  if p.isIsolatedPadding then
    let roundToPageBoundary := ((p.lastByte + PAGE_SIZE - 1) &&& ~~~(PAGE_SIZE - 1)) - p.lastByte
    (roundToPageBoundary + p.desiredOffset) &&& (PAGE_SIZE - 1)
  else
    (p.desiredOffset - (p.lastByte &&& (PAGE_SIZE - 1)) + PAGE_SIZE) &&& (PAGE_SIZE - 1)

/-- The end of the previous section in the file. -/
def previousEnd (p : PagePaddingContent) : Nat := p.previousOffset.toNat + (p.previousContent.map (·.toNat)).getD 0

theorem previousEnd_mod (p : PagePaddingContent) : p.previousEnd % 0x1000 = p.lastByte.toNat % 0x1000 := by
  unfold previousEnd lastByte
  cases p.previousContent with
  | none => rfl
  | some size =>
    simp only [Option.map_some, Option.getD_some, BitVec.toNat_add]
    omega

theorem toNat_and_page (x : BitVec 64) : (x &&& (PAGE_SIZE - 1)).toNat = x.toNat % 0x1000 := by
  rw [BitVec.toNat_and]
  exact Nat.and_two_pow_sub_one_eq_mod _ 12

theorem toNat_and_not_page (x : BitVec 64) : (x &&& ~~~(PAGE_SIZE - 1)).toNat % 0x1000 = 0 := by
  have hm : (~~~(PAGE_SIZE - 1)).toNat % 2 ^ 12 = 0 := by decide
  rw [BitVec.toNat_and, show 0x1000 = 2 ^ 12 from rfl, Nat.and_mod_two_pow, hm, Nat.and_zero]

/-- Both formulas are the distance from the last byte to the desired offset, modulo a page. -/
theorem getSize_mod (p : PagePaddingContent) :
    p.getSize.toNat = (p.desiredOffset.toNat + (0x1000 - p.lastByte.toNat % 0x1000)) % 0x1000 := by
  have hr := toNat_and_not_page (p.lastByte + PAGE_SIZE - 1)
  unfold getSize
  split
  · rw [toNat_and_page, BitVec.toNat_add, BitVec.toNat_sub]
    omega
  · rw [toNat_and_page, BitVec.toNat_add, BitVec.toNat_sub, toNat_and_page, show PAGE_SIZE.toNat = 0x1000 from rfl]
    omega

/-- The padding is shorter than a page, brings the end of the previous section to the desired offset, and has the
    same size in both variants. -/
theorem getSize_congruent (p : PagePaddingContent) (h : p.desiredOffset.toNat < 0x1000) :
    p.getSize.toNat < 0x1000 ∧ (p.previousEnd + p.getSize.toNat) % 0x1000 = p.desiredOffset.toNat ∧
      { p with isIsolatedPadding := true }.getSize = { p with isIsolatedPadding := false }.getSize := by
  have hsz := getSize_mod p
  have hend := previousEnd_mod p
  refine ⟨by omega, by omega, BitVec.eq_of_toNat_eq ?_⟩
  rw [getSize_mod, getSize_mod]
  rfl

theorem getSize_congruent_full_page : (0x1000 + (getSize ⟨0xfff, some 1, 0x10, true⟩).toNat) % 0x1000 = 0x10 :=
  (getSize_congruent ⟨0xfff, some 1, 0x10, true⟩ (by decide)).2.1

end PagePaddingContent

end Egalito.Generate
