/-
The data of a module in the output file (`ModuleGen::makeDataSections` in `generate/modulegen.cpp`).

The writer turns each section of a region into content with padding before it. `dataSections_mapped_iff` follows
addresses, file offsets and bytes through the loops, for every module.
-/
import Egalito.Generate.Segments

namespace Egalito

open List

open Lib (Byte)

namespace Generate

inductive DataSectionType
  | unknown
  | bss
  | data
  | code
  | initArray
  | finiArray
  | dynamic
  deriving DecidableEq, Repr

structure DataSection where
  name : String
  address : Nat
  size : Nat
  originalOffset : Nat
  permissions : Nat
  type : DataSectionType
  deriving DecidableEq

def SHF_WRITE : Nat := 1

def SHF_ALLOC : Nat := 2

namespace DataSection

def stop (d : DataSection) : Nat := d.address + d.size

def isWritable (d : DataSection) : Bool := d.permissions &&& SHF_WRITE ≠ 0

def flags (d : DataSection) : Nat := if d.isWritable then SHF_ALLOC ||| SHF_WRITE else SHF_ALLOC

def segmentFlags (d : DataSection) : Nat := if d.isWritable then PF_R ||| PF_W else PF_R

end DataSection

structure DataRegion where
  address : Nat
  size : Nat
  sections : List DataSection
  dataBytes : List Byte

/-- `getRange().overlaps`. -/
def DataRegion.overlaps (region other : DataRegion) : Bool :=
  !(region.address + region.size ≤ other.address || other.address + other.size ≤ region.address)

/-- The regions without the one for thread-local storage, and that one. -/
structure DataRegionList where
  regions : List DataRegion
  tls : Option DataRegion

/-- An entry of `sectionMap`: a section, and whether its parent is the region for thread-local storage. -/
structure Mapped where
  dataSection : DataSection
  inTLS : Bool
  deriving DecidableEq

/-- The thread-local sections that lie in the region as well. -/
def overlapping (tls : Option DataRegion) (region : DataRegion) : List DataSection :=
  match tls with
  | some t => if region.overlaps t then t.sections else []
  | none => []

/-- The values of `sectionMap`, by address; of two sections with one address the later is kept. -/
def sectionMap (tls : Option DataRegion) (region : DataRegion) : List Mapped :=
  (Lib.assignAll (region.sections.map (fun d => (d.address, (⟨d, false⟩ : Mapped)))
    ++ (overlapping tls region).map (fun d => (d.address, (⟨d, true⟩ : Mapped))))).map Prod.snd

/-- The cases of the `switch` that write the section. -/
def Mapped.written (m : Mapped) : Bool :=
  match m.dataSection.type with
  | .data => true
  | .bss => !m.inTLS
  | _ => false

/-! ## The loop over the sections of a region -/

/-- The variables of the loop, with the section list, the segments so far, and the positions of the sections that were
    made. -/
structure DataState where
  sections : List Section
  phdrs : List SegmentInfo
  loadSegment : Option SegmentInfo
  previousEndAddress : Nat
  previousFlags : Nat
  made : List (Nat × DataSection)

/-- An empty segment is deleted. -/
def nonEmpty (loadSegment : Option SegmentInfo) : List SegmentInfo :=
  loadSegment.toList.filter fun segment => segment.containsList ≠ []

def makeIntraPaddingSection (desiredAlignment : Nat) : Section :=
  ⟨"=intra-padding", none, .padding desiredAlignment false⟩

namespace DataState

def segments (st : DataState) : List SegmentInfo := st.phdrs ++ nonEmpty st.loadSegment

def startSegment (st : DataState) (d : DataSection) : DataState :=
  if st.previousFlags = 0 ∨ d.flags ≠ st.previousFlags then
    { st with
      phdrs := st.segments
      loadSegment := some ⟨.load, d.segmentFlags, 0x1000, [], 0⟩
      previousFlags := d.flags }
  else st

/-- The segment with the next section, and with the padding before it unless it is the first. -/
def extend (st : DataState) (segment : SegmentInfo) : SegmentInfo :=
  (if st.previousEndAddress ≠ 0 then segment.addContains st.sections.length else segment).addContains
    (st.sections.length + 1)

/-- The common course of the cases for data and bss. -/
def addSection (st : DataState) (d : DataSection) (content : List Byte) : DataState where
  sections := st.sections ++ [makeIntraPaddingSection (d.address % 0x1000), ⟨d.name, some d.address, .bytes content⟩]
  phdrs := st.phdrs
  loadSegment := st.loadSegment.map st.extend
  previousEndAddress := d.stop
  previousFlags := d.flags
  made := st.made ++ [(st.sections.length + 1, d)]

end DataState

/-- `std::string::substr`, which throws if the position is past the end. -/
def substr (data : List Byte) (pos length : Nat) : Option (List Byte) :=
  if pos ≤ data.length then some ((data.drop pos).take length) else none

def visitSection (dataBytes : List Byte) (st : DataState) (m : Mapped) : Option DataState :=
  let st := st.startSegment m.dataSection
  if m.written then do
    let content ← substr dataBytes m.dataSection.originalOffset m.dataSection.size
    return st.addSection m.dataSection content
  else some st

/-- The segments of a region and the sections that were made for it. -/
structure RegionOutput where
  segments : List SegmentInfo
  made : List (Nat × DataSection)

def DataState.output (st : DataState) : RegionOutput := ⟨st.segments, st.made⟩

/-- The state before the first section of a region. -/
def startState (sections : List Section) (first : Mapped) : DataState where
  sections := sections ++ [makePaddingSection (first.dataSection.address % 0x200000)]
  phdrs := []
  loadSegment := none
  previousEndAddress := 0
  previousFlags := 0
  made := []

def makeRegion (tls : Option DataRegion) (sections : List Section) (region : DataRegion) :
    Option (List Section × RegionOutput) :=
  match sectionMap tls region with
  | [] => some (sections, ⟨[], []⟩)
  | first :: rest => do
    let st ← (first :: rest).foldlM (visitSection region.dataBytes) (startState sections first)
    return (st.sections, st.output)

/-- The sections after the regions, with what each region gave. -/
def makeRegions (tls : Option DataRegion) : List Section → List DataRegion → Option (List Section × List RegionOutput)
  | sections, [] => some (sections, [])
  | sections, region :: regions => do
    let (sections, output) ← makeRegion tls sections region
    let (sections, outputs) ← makeRegions tls sections regions
    return (sections, output :: outputs)

/-- All regions in turn, behind a first padding. -/
def makeDataSections (list : DataRegionList) (sections : List Section) : Option (List Section × List RegionOutput) :=
  makeRegions list.tls (sections ++ [makePaddingSection 0]) list.regions

/-- The section is as far from the start of the segment in the file as in memory, and it lies in the part of
the segment that comes from the file. -/
structure Maps (sections : List Section) (segment : SegmentInfo) (i : Nat) (d : DataSection) : Prop where
  offset : (offsetOf sections i : Int) - (segment.phdr sections).p_offset = d.address - (segment.phdr sections).p_vaddr
  start : (segment.phdr sections).p_vaddr ≤ d.address
  stop : d.stop ≤ (segment.phdr sections).p_vaddr + (segment.phdr sections).p_filesz

def RegionOutput.IsMapped (output : RegionOutput) (sections : List Section) : Prop :=
  ∀ segment ∈ output.segments, ∀ e ∈ output.made, e.1 ∈ segment.containsList → Maps sections segment e.1 e.2

/-- The sections of a region do not overlap, their bytes are stored with it, and none is an empty one at address zero.
    -/
structure Laid (dataBytes : List Byte) (map : List Mapped) : Prop where
  disjoint : map.Pairwise fun m m' => m.written → m'.written → m.dataSection.stop ≤ m'.dataSection.address
  stored : ∀ m ∈ map, m.written → m.dataSection.originalOffset + m.dataSection.size ≤ dataBytes.length
  placed : ∀ m ∈ map, m.written → m.dataSection.stop ≠ 0

def writtenSections (ms : List Mapped) : List DataSection := (ms.filter Mapped.written).map Mapped.dataSection

/-- Less than a page lies between a written section and the next, and the permissions do not change in between. -/
structure Regular (map : List Mapped) : Prop where
  near : (writtenSections map).IsChain fun d d' => d'.address < d.stop + 0x1000
  steady : ∀ before m between m' after, map = before ++ m :: (between ++ m' :: after) → m.written → m'.written →
    ∀ t ∈ between ++ [m'], t.dataSection.flags = m.dataSection.flags

/-! ## One section -/

variable {dataBytes : List Byte} {st : DataState} {m : Mapped} {ms : List Mapped} {d : DataSection}

def contentOf (dataBytes : List Byte) (d : DataSection) : List Byte := (dataBytes.drop d.originalOffset).take d.size

def Stored (dataBytes : List Byte) (m : Mapped) : Prop :=
  m.written → m.dataSection.originalOffset + m.dataSection.size ≤ dataBytes.length

theorem length_contentOf (h : d.originalOffset + d.size ≤ dataBytes.length) : (contentOf dataBytes d).length = d.size := by
  rw [contentOf, length_take, length_drop]
  omega

def next (dataBytes : List Byte) (st : DataState) (m : Mapped) : DataState :=
  if m.written then (st.startSegment m.dataSection).addSection m.dataSection (contentOf dataBytes m.dataSection)
  else st.startSegment m.dataSection

theorem visitSection_eq (h : Stored dataBytes m) : visitSection dataBytes st m = some (next dataBytes st m) := by
  unfold visitSection next substr
  cases hw : m.written with
  | false => rfl
  | true =>
    rw [if_pos rfl, if_pos rfl, if_pos (Nat.le_of_add_right_le (h hw))]
    rfl

theorem foldlM_visitSection : ∀ {ms : List Mapped} {st : DataState}, (∀ m ∈ ms, Stored dataBytes m) →
    ms.foldlM (visitSection dataBytes) st = some (ms.foldl (next dataBytes) st)
  | [], _, _ => rfl
  | m :: ms, st, h => by
    rw [foldlM_cons, visitSection_eq (h m (by simp)), foldl_cons]
    exact foldlM_visitSection fun m' hm' => h m' (by simp [hm'])

theorem flags_ne_zero (d : DataSection) : d.flags ≠ 0 := by
  unfold DataSection.flags
  split
  · decide
  · decide

def padding (sections : List Section) (d : DataSection) : Nat := paddingSize (d.address % 0x1000) false (fileEnd sections)

theorem padding_lt (sections d) : padding sections d < 0x1000 := by
  rw [padding, paddingSize, if_neg Bool.false_ne_true]
  omega

theorem fileEnd_add_padding (sections d) : (fileEnd sections + padding sections d) % 0x1000 = d.address % 0x1000 := by
  rw [padding, paddingSize, if_neg Bool.false_ne_true]
  omega

theorem padding_eq_iff {sections stop} (ha : fileEnd sections % 0x1000 = stop % 0x1000)
    (hle : stop ≤ d.address) : padding sections d = d.address - stop ↔ d.address < stop + 0x1000 := by
  rw [padding, paddingSize, if_neg Bool.false_ne_true]
  omega

namespace DataState

variable {content : List Byte} {i : Nat}

theorem sections_addSection : (st.addSection d content).sections =
    (st.sections ++ [makeIntraPaddingSection (d.address % 0x1000)]) ++ [⟨d.name, some d.address, .bytes content⟩] := by
  simp [addSection]

theorem length_addSection : (st.addSection d content).sections.length = st.sections.length + 2 := by
  simp [addSection]

theorem offsetOf_addSection (h : i < st.sections.length) :
    offsetOf (st.addSection d content).sections i = offsetOf st.sections i := offsetOf_append h

theorem addressAt_addSection (h : i < st.sections.length) :
    addressAt (st.addSection d content).sections i = addressAt st.sections i := addressAt_append h

theorem addressAt_padding : addressAt (st.addSection d content).sections st.sections.length = 0 := by
  simp [addressAt, addSection, makeIntraPaddingSection]

theorem offsetOf_added : offsetOf (st.addSection d content).sections (st.sections.length + 1) =
    fileEnd st.sections + padding st.sections d := by
  have h := @offsetOf_length (st.sections ++ [makeIntraPaddingSection (d.address % 0x1000)]) []
    ⟨d.name, some d.address, .bytes content⟩
  rw [length_append, length_singleton, fileEnd_append_singleton] at h
  rw [sections_addSection, h]
  rfl

theorem addressAt_added : addressAt (st.addSection d content).sections (st.sections.length + 1) = d.address := by
  simp [addressAt, addSection]

theorem fileEnd_addSection : fileEnd (st.addSection d content).sections =
    fileEnd st.sections + padding st.sections d + content.length := by
  rw [sections_addSection, fileEnd_append_singleton, fileEnd_append_singleton]
  rfl

@[simp] theorem sections_startSegment : (st.startSegment d).sections = st.sections := by
  unfold startSegment
  split <;> rfl

@[simp] theorem made_startSegment : (st.startSegment d).made = st.made := by
  unfold startSegment
  split <;> rfl

@[simp] theorem previousEnd_startSegment : (st.startSegment d).previousEndAddress = st.previousEndAddress := by
  unfold startSegment
  split <;> rfl

@[simp] theorem previousFlags_startSegment : (st.startSegment d).previousFlags = d.flags := by
  unfold startSegment
  split
  · rfl
  · omega

/-- A new segment is empty, and the old one is added unless it is empty. -/
@[simp] theorem segments_startSegment : (st.startSegment d).segments = st.segments := by
  unfold startSegment
  split
  · simp [segments, nonEmpty]
  · rfl

theorem startSegment_of_flags_eq (h : d.flags = st.previousFlags) : st.startSegment d = st := by
  have := flags_ne_zero d
  rw [startSegment, if_neg]
  omega

theorem containsList_extend (segment) : (st.extend segment).containsList =
    segment.containsList ++ (if st.previousEndAddress ≠ 0 then [st.sections.length] else []) ++
      [st.sections.length + 1] := by
  unfold extend
  split <;> simp [SegmentInfo.addContains]

theorem nonEmpty_some {segment} (h : segment.containsList ≠ []) : nonEmpty (some segment) = [segment] := by
  simp [nonEmpty, h]

theorem segments_addSection {segment} (h : segment ∈ st.segments) :
    ∃ segment' ∈ (st.addSection d content).segments, segment.containsList <+: segment'.containsList := by
  rcases mem_append.1 h with h | h
  · exact ⟨segment, mem_append_left _ h, prefix_refl _⟩
  · obtain ⟨ho, hne⟩ := mem_filter.1 h
    have hl : st.loadSegment = some segment := by simpa using ho
    have hc := @containsList_extend st segment
    refine ⟨st.extend segment, mem_append_right _ ?_, ?_⟩
    · simp [nonEmpty, addSection, hl, hc]
    · rw [hc, append_assoc]
      exact prefix_append _ _

end DataState

open DataState hiding sections

/-- A section that is in a segment, but not as far from its start in the file as in memory. -/
def Broken (st : DataState) : Prop :=
  ∃ segment ∈ st.segments, ∃ p < st.sections.length, segment.containsList.head? = some p ∧
    ∃ e ∈ st.made, e.1 < st.sections.length ∧ e.1 ∈ segment.containsList ∧
      (offsetOf st.sections e.1 : Int) - offsetOf st.sections p ≠ e.2.address - addressAt st.sections p

theorem Broken.not_isMapped (h : Broken st) (later) : ¬ st.output.IsMapped (st.sections ++ later) := by
  obtain ⟨segment, hs, p, hp, hh, e, he, hlt, hm, hne⟩ := h
  intro hmp
  have ho := (hmp segment hs e he hm).offset
  rw [p_offset_phdr hh, p_vaddr_phdr hh, offsetOf_append hlt, offsetOf_append hp, addressAt_append hp] at ho
  exact hne ho

theorem Broken.startSegment (h : Broken st) : Broken (st.startSegment d) := by
  unfold Broken at h ⊢
  simpa using h

theorem Broken.addSection {content} (h : Broken st) : Broken (st.addSection d content) := by
  obtain ⟨segment, hs, p, hp, hh, e, he, hlt, hm, hne⟩ := h
  obtain ⟨segment', hs', more, hr⟩ := @DataState.segments_addSection st d content segment hs
  have hl := @DataState.length_addSection st d content
  refine ⟨segment', hs', p, by omega, ?_, e, mem_append_left _ he, by omega, ?_, ?_⟩
  · rw [← hr, head?_append, hh]
    rfl
  · rw [← hr]
    exact mem_append_left _ hm
  · rwa [offsetOf_addSection hlt, offsetOf_addSection hp, addressAt_addSection hp]

theorem Broken.next (h : Broken st) : Broken (next dataBytes st m) := by
  unfold Generate.next
  split
  · exact h.startSegment.addSection
  · exact h.startSegment

theorem Broken.foldl : ∀ {ms : List Mapped} {st : DataState}, Broken st → Broken (ms.foldl (Generate.next dataBytes) st)
  | [], _, h => h
  | _ :: _, _, h => by
    rw [foldl_cons]
    exact Broken.foldl h.next

/-! ## A segment that is mapped so far -/

/-- The segment has all sections from position `p` on, which is a section at address `a`. The file has come as far as
    the addresses. -/
structure InSync (st : DataState) (segment : SegmentInfo) (p a : Nat) : Prop where
  contains : segment.containsList = range' p (st.sections.length - p)
  first : p < st.sections.length
  address : addressAt st.sections p = a
  aligned : offsetOf st.sections p % 0x1000 = a % 0x1000
  le : a ≤ st.previousEndAddress
  finish : fileEnd st.sections = offsetOf st.sections p + (st.previousEndAddress - a)
  made : ∀ e ∈ st.made, e.1 < st.sections.length ∧ a ≤ e.2.address ∧ e.2.stop ≤ st.previousEndAddress ∧
    offsetOf st.sections e.1 = offsetOf st.sections p + (e.2.address - a)

variable {segment : SegmentInfo} {p a : Nat}

theorem InSync.head? (h : InSync st segment p a) : segment.containsList.head? = some p := by
  have hp := Nat.sub_ne_zero_of_lt h.first
  rw [h.contains, head?_range', if_neg hp]

theorem InSync.containsList_ne_nil (h : InSync st segment p a) : segment.containsList ≠ [] := by
  intro hn
  have := h.head?
  rw [hn] at this
  cases this

theorem InSync.maps (h : InSync st segment p a) (later) :
    ∀ e ∈ st.made, Maps (st.sections ++ later) segment e.1 e.2 := by
  intro e he
  obtain ⟨hlt, hle, hsp, ho⟩ := h.made e he
  have hf := h.first
  have hp_offset : (segment.phdr (st.sections ++ later)).p_offset = offsetOf st.sections p := by
    rw [p_offset_phdr h.head?, offsetOf_append hf]
  have hp_vaddr : (segment.phdr (st.sections ++ later)).p_vaddr = a := by
    rw [p_vaddr_phdr h.head?, addressAt_append hf, h.address]
  -- the sections from `p` on are all there is before `later`
  have hp_filesz : offsetOf st.sections p + (segment.phdr (st.sections ++ later)).p_filesz = fileEnd st.sections := by
    have hs := @offsetOf_add_sum (st.sections ++ later) (st.sections.length - p) p (by simp; omega) (by simp; omega)
    rw [p_filesz_phdr, h.contains, ← @offsetOf_append st.sections later p hf, hs, Nat.add_sub_of_le hf.le,
      take_left]
  have hn := h.finish
  have hp := h.le
  constructor
  · rw [hp_offset, hp_vaddr, offsetOf_append hlt, ho]
    omega
  · rw [hp_vaddr]
    exact hle
  · rw [hp_vaddr]
    omega

theorem InSync.fileEnd_mod (h : InSync st segment p a) : fileEnd st.sections % 0x1000 = st.previousEndAddress % 0x1000 := by
  have hf := h.finish
  have ha := h.aligned
  have hle := h.le
  omega

theorem InSync.addSection {content} (h : InSync st segment p a) (hn : st.previousEndAddress ≠ 0)
    (hc : content.length = d.size) (hle : st.previousEndAddress ≤ d.address)
    (hr : d.address < st.previousEndAddress + 0x1000) :
    InSync (st.addSection d content) (st.extend segment) p a := by
  have hl := @DataState.length_addSection st d content
  have ho := @DataState.offsetOf_addSection st d content p h.first
  have hp := (padding_eq_iff h.fileEnd_mod hle).2 hr
  have hf := h.first
  have hfn := h.finish
  have hv := h.le
  have hsp : (st.addSection d content).previousEndAddress = d.address + d.size := rfl
  constructor
  · rw [containsList_extend, if_pos hn, h.contains, hl]
    have ht : st.sections.length + 2 - p = st.sections.length - p + 1 + 1 := by omega
    rw [ht, range'_concat, range'_concat]
    have hsc : p + 1 * (st.sections.length - p) = st.sections.length := by omega
    have htr : p + 1 * (st.sections.length - p + 1) = st.sections.length + 1 := by omega
    rw [hsc, htr]
  · omega
  · rw [addressAt_addSection hf, h.address]
  · rw [ho]
    exact h.aligned
  · omega
  · rw [fileEnd_addSection, ho, hp, hc, hsp]
    omega
  · intro e he
    rcases mem_append.1 he with he | he
    · obtain ⟨hlt, hlo, hhi, hs⟩ := h.made e he
      refine ⟨by omega, hlo, by omega, ?_⟩
      rw [offsetOf_addSection hlt, ho, hs]
    · obtain rfl := mem_singleton.1 he
      refine ⟨by omega, hv.trans hle, le_refl _, ?_⟩
      rw [offsetOf_added, ho, hp]
      dsimp only
      omega

theorem InSync.broken {content} (h : InSync st segment p a) (hl : st.loadSegment = some segment)
    (hle : st.previousEndAddress ≤ d.address) (hn : ¬ d.address < st.previousEndAddress + 0x1000) :
    Broken (st.addSection d content) := by
  have hg := @DataState.length_addSection st d content
  have hp := mt (padding_eq_iff h.fileEnd_mod hle).1 hn
  have hf := h.first
  have hfn := h.finish
  have hv := h.le
  have hc := @DataState.containsList_extend st segment
  refine ⟨st.extend segment, mem_append_right _ ?_, p, by omega, ?_, (st.sections.length + 1, d),
    mem_append_right _ (mem_singleton_self _), by simp [hg], by simp [hc], ?_⟩
  · simp [nonEmpty, DataState.addSection, hl, hc]
  · rw [hc, append_assoc, head?_append, h.head?]
    rfl
  · rw [offsetOf_added, offsetOf_addSection hf, addressAt_addSection hf, h.address]
    dsimp only
    omega

/-- A segment that begins with a padding has no address. -/
theorem broken_of_padding_first {content} (hl : st.loadSegment = some segment)
    (he : segment.containsList = []) (ha : fileEnd st.sections % 0x1000 = st.previousEndAddress % 0x1000)
    (hn : st.previousEndAddress ≠ 0) (hle : st.previousEndAddress ≤ d.address) :
    Broken (st.addSection d content) := by
  have hg := @DataState.length_addSection st d content
  have hc := @DataState.containsList_extend st segment
  rw [he, if_pos hn] at hc
  refine ⟨st.extend segment, mem_append_right _ ?_, st.sections.length, by omega, by rw [hc]; rfl,
    (st.sections.length + 1, d), mem_append_right _ (mem_singleton_self _), by simp [hg],
    by simp [hc], ?_⟩
  · simp [nonEmpty, DataState.addSection, hl, hc]
  · rw [offsetOf_added, addressAt_padding, DataState.addSection, offsetOf_length]
    have hr := padding_eq_iff ha hle
    have hlt := padding_lt st.sections d
    dsimp only
    omega

structure Fresh (st : DataState) : Prop where
  previousEndAddress : st.previousEndAddress = 0
  phdrs : st.phdrs = []
  made : st.made = []
  unstarted : st.previousFlags = 0 → st.loadSegment = none
  started : st.previousFlags ≠ 0 → ∃ segment, st.loadSegment = some segment ∧ segment.containsList = []

theorem Fresh.segments (h : Fresh st) : st.segments = [] := by
  rw [DataState.segments, h.phdrs]
  by_cases hf : st.previousFlags = 0
  · rw [h.unstarted hf]
    rfl
  · obtain ⟨segment, hl, he⟩ := h.started hf
    simp [hl, nonEmpty, he]

theorem Fresh.startSegment (h : Fresh st) : Fresh (st.startSegment d) := by
  unfold DataState.startSegment
  split
  · exact ⟨h.previousEndAddress, h.segments, h.made, fun hz => absurd hz (flags_ne_zero d),
      fun _ => ⟨_, rfl, rfl⟩⟩
  · exact h

/-- The first section starts the segment; its padding is not part of it. -/
theorem Fresh.addSection {content} (h : Fresh st)
    (hp : segment.containsList = []) (hc : content.length = d.size) :
    InSync (st.addSection d content) (st.extend segment) (st.sections.length + 1) d.address := by
  have hl := @DataState.length_addSection st d content
  have hs : (st.addSection d content).previousEndAddress = d.address + d.size := rfl
  constructor
  · rw [containsList_extend, h.previousEndAddress, hp, hl]
    have ht : st.sections.length + 2 - (st.sections.length + 1) = 1 := by omega
    rw [ht]
    rfl
  · omega
  · exact addressAt_added
  · rw [offsetOf_added, fileEnd_add_padding]
  · omega
  · rw [fileEnd_addSection, offsetOf_added, hc, hs]
    omega
  · intro e he
    have hm : (st.addSection d content).made = [(st.sections.length + 1, d)] := by simp [DataState.addSection, h.made]
    rw [hm] at he
    obtain rfl := mem_singleton.1 he
    refine ⟨by omega, le_refl _, le_refl _, ?_⟩
    dsimp only
    omega

/-! ## All sections of a region -/

def Continues (flags stop : Nat) : List Mapped → Prop
  | [] => True
  | m :: ms =>
    if m.dataSection.flags = flags then
      if m.written then m.dataSection.address < stop + 0x1000 ∧ Continues flags m.dataSection.stop ms
      else Continues flags stop ms
    else ∀ m' ∈ m :: ms, m'.written = false

def Begins : List Mapped → Prop
  | [] => True
  | m :: ms => if m.written then Continues m.dataSection.flags m.dataSection.stop ms else Begins ms

def DataState.IsMapped (st : DataState) (later : List Section) : Prop :=
  st.output.IsMapped (st.sections ++ later)

/-- The segment is in the table, and the open one is empty. -/
structure Closed (st : DataState) (segment : SegmentInfo) : Prop where
  phdrs : st.phdrs = [segment]
  empty : ∃ segment', st.loadSegment = some segment' ∧ segment'.containsList = []

theorem InSync.startSegment (h : InSync st segment p a) : InSync (st.startSegment d) segment p a := by
  constructor
  · rw [sections_startSegment]
    exact h.contains
  · rw [sections_startSegment]
    exact h.first
  · rw [sections_startSegment]
    exact h.address
  · rw [sections_startSegment]
    exact h.aligned
  · rw [previousEnd_startSegment]
    exact h.le
  · rw [sections_startSegment, previousEnd_startSegment]
    exact h.finish
  · rw [made_startSegment, sections_startSegment, previousEnd_startSegment]
    exact h.made

theorem InSync.isMapped {later} (h : InSync st segment p a) (hs : st.segments = [segment]) :
    st.IsMapped later := by
  intro segment' hs' e he _
  rw [DataState.output, hs, mem_singleton] at hs'
  subst hs'
  exact h.maps later e he

theorem Closed.segments (h : Closed st segment) : st.segments = [segment] := by
  obtain ⟨segment', hl, he⟩ := h.empty
  simp [DataState.segments, h.phdrs, hl, nonEmpty, he]

theorem Closed.startSegment (h : Closed st segment) : Closed (st.startSegment d) segment := by
  unfold DataState.startSegment
  split
  · exact ⟨h.segments, _, rfl, rfl⟩
  · exact h

theorem Laid.cons (h : Laid dataBytes (m :: ms)) :
    (∀ m' ∈ ms, m.written → m'.written → m.dataSection.stop ≤ m'.dataSection.address) ∧ Laid dataBytes ms := by
  obtain ⟨hh, ht⟩ := pairwise_cons.1 h.disjoint
  exact ⟨hh, ht, fun m' hm' => h.stored m' (by simp [hm']), fun m' hm' => h.placed m' (by simp [hm'])⟩

theorem next_of_not_written (h : m.written = false) : next dataBytes st m = st.startSegment m.dataSection := by
  rw [next, h, if_neg Bool.false_ne_true]

theorem next_of_written (h : m.written = true) : next dataBytes st m =
    (st.startSegment m.dataSection).addSection m.dataSection (contentOf dataBytes m.dataSection) := by
  rw [next, h, if_pos rfl]

/-- Once a segment is closed, nothing more may be written. -/
theorem isMapped_of_closed {later} : ∀ {ms : List Mapped} {st : DataState}, InSync st segment p a →
    Closed st segment → st.previousEndAddress ≠ 0 →
    (∀ m ∈ ms, m.written → st.previousEndAddress ≤ m.dataSection.address) →
    ((ms.foldl (next dataBytes) st).IsMapped later ↔ ∀ m ∈ ms, m.written = false)
  | [], st, hs, hc, _, _ => by
    simp only [foldl_nil, not_mem_nil, IsEmpty.forall_iff, implies_true, iff_true]
    exact hs.isMapped hc.segments
  | m :: ms, st, hs, hc, hn, hle => by
    rw [foldl_cons]
    have hs' := @InSync.startSegment st m.dataSection segment p a hs
    have hc' := @Closed.startSegment st m.dataSection segment hc
    have hp := @DataState.previousEnd_startSegment st m.dataSection
    cases hw : m.written with
    | true =>
      obtain ⟨segment', hl, he⟩ := hc'.empty
      have hb : Broken (next dataBytes st m) := by
        rw [next_of_written hw]
        apply broken_of_padding_first hl he hs'.fileEnd_mod (by rwa [hp])
        rw [hp]
        exact hle m (by simp) hw
      constructor
      · intro h
        exact absurd h (hb.foldl.not_isMapped later)
      · intro h
        have := h m (by simp)
        rw [hw] at this
        cases this
    | false =>
      rw [next_of_not_written hw, isMapped_of_closed hs' hc' (by rwa [hp])
        (by rw [hp]; exact fun m' hm' => hle m' (by simp [hm']))]
      simp [hw]

theorem startSegment_startSegment : (st.startSegment d).startSegment d = st.startSegment d := by
  apply startSegment_of_flags_eq
  rw [previousFlags_startSegment]

theorem next_startSegment : next dataBytes (st.startSegment m.dataSection) m = next dataBytes st m := by
  rw [next, next, startSegment_startSegment]

theorem isMapped_of_open {later} : ∀ {ms} {st : DataState} {segment : SegmentInfo},
    InSync st segment p a → st.loadSegment = some segment → st.phdrs = [] → st.previousEndAddress ≠ 0 →
    (∀ m ∈ ms, m.written → st.previousEndAddress ≤ m.dataSection.address) → Laid dataBytes ms →
    ((ms.foldl (next dataBytes) st).IsMapped later ↔ Continues st.previousFlags st.previousEndAddress ms)
  | [], st, segment, hs, hl, hp, _, _, _ => by
    simp only [foldl_nil, Continues, iff_true]
    apply hs.isMapped
    rw [DataState.segments, hp, hl, nonEmpty_some hs.containsList_ne_nil]
    rfl
  | m :: ms, st, segment, hs, hl, hp, hnn, hle, hi => by
    obtain ⟨hd, hr⟩ := hi.cons
    rw [Continues]
    by_cases hf : m.dataSection.flags = st.previousFlags
    · rw [if_pos hf, foldl_cons]
      have hsr := startSegment_of_flags_eq hf
      cases hw : m.written with
      | false =>
        rw [next_of_not_written hw, hsr, if_neg Bool.false_ne_true]
        exact isMapped_of_open hs hl hp hnn (fun m' hm' => hle m' (by simp [hm'])) hr
      | true =>
        rw [next_of_written hw, hsr, if_pos rfl]
        have hm := hle m (by simp) hw
        by_cases hn : m.dataSection.address < st.previousEndAddress + 0x1000
        · have hs' := hs.addSection hnn (length_contentOf (hi.stored m (by simp) hw)) hm hn
          have ih := @isMapped_of_open later ms _ _ hs' (by simp [DataState.addSection, hl]) hp
            (hi.placed m (by simp) hw) (fun m' hm' => hd m' hm' hw) hr
          rw [ih, ← hf]
          exact (and_iff_right hn).symm
        · have hb := @InSync.broken st m.dataSection segment p a (contentOf dataBytes m.dataSection) hs hl hm hn
          exact ⟨fun h => absurd h (hb.foldl.not_isMapped later), fun h => absurd h.1 hn⟩
    · rw [if_neg hf]
      -- the segment is closed whether the section is written or not
      have hc : Closed (st.startSegment m.dataSection) segment := by
        rw [DataState.startSegment, if_pos (.inr hf)]
        refine ⟨?_, _, rfl, rfl⟩
        rw [DataState.segments, hp, hl, nonEmpty_some hs.containsList_ne_nil]
        rfl
      have hv := @DataState.previousEnd_startSegment st m.dataSection
      have := @isMapped_of_closed dataBytes segment p a later (m :: ms) _ hs.startSegment hc (by rwa [hv])
        (by rwa [hv])
      rwa [foldl_cons, next_startSegment, ← foldl_cons] at this

theorem isMapped_of_fresh {later} : ∀ {ms st}, Fresh st → Laid dataBytes ms →
    ((ms.foldl (next dataBytes) st).IsMapped later ↔ Begins ms)
  | [], st, hf, _ => by
    simp only [foldl_nil, Begins, iff_true]
    intro segment hg
    rw [DataState.output, hf.segments] at hg
    cases hg
  | m :: ms, st, hf, hl => by
    obtain ⟨hd, hr⟩ := hl.cons
    have hf' := @Fresh.startSegment st m.dataSection hf
    rw [foldl_cons, Begins]
    cases hw : m.written with
    | false =>
      rw [next_of_not_written hw, if_neg Bool.false_ne_true]
      exact isMapped_of_fresh hf' hr
    | true =>
      rw [next_of_written hw, if_pos rfl]
      obtain ⟨segment, ha, he⟩ := hf'.started (by simp [flags_ne_zero])
      have hs := hf'.addSection he (length_contentOf (hl.stored m (by simp) hw))
      exact isMapped_of_open hs (by simp [DataState.addSection, ha]) hf'.phdrs
        (hl.placed m (by simp) hw) (fun m' hm' => hd m' hm' hw) hr

/-! ## The condition on the map -/

/-- The permissions stay the same up to each section that is written. -/
def SteadyFrom (flags : Nat) (ms : List Mapped) : Prop :=
  ∀ between m' after, ms = between ++ m' :: after → m'.written → ∀ t ∈ between ++ [m'], t.dataSection.flags = flags

theorem writtenSections_cons_of_written (h : m.written = true) :
    writtenSections (m :: ms) = m.dataSection :: writtenSections ms := by
  simp [writtenSections, h]

theorem writtenSections_cons_none (h : m.written = false) :
    writtenSections (m :: ms) = writtenSections ms := by
  simp [writtenSections, h]

variable {flags : Nat}

theorem steadyFrom_nil : SteadyFrom flags [] := by
  intro between m' after heq
  simp at heq

theorem steadyFrom_cons (h : m.dataSection.flags = flags) : SteadyFrom flags (m :: ms) ↔ SteadyFrom flags ms := by
  constructor
  · intro hs between m' after heq hw t ht
    exact hs (m :: between) m' after (by rw [heq, cons_append]) hw t (by simp_all)
  · intro hs between m' after heq hw t ht
    cases between with
    | nil =>
      obtain ⟨rfl, -⟩ := cons.inj heq
      obtain rfl : t = m := by simpa using ht
      exact h
    | cons b between =>
      obtain ⟨rfl, hm⟩ := cons.inj heq
      rcases mem_cons.1 ht with rfl | ht
      · exact h
      · exact hs between m' after hm hw t ht

/-- After a change of permissions nothing may be written. -/
theorem steadyFrom_cons_of_ne (h : m.dataSection.flags ≠ flags) :
    SteadyFrom flags (m :: ms) ↔ ∀ m' ∈ m :: ms, m'.written = false := by
  constructor
  · intro hs m' hm'
    by_contra hw
    obtain ⟨between, after, heq⟩ := append_of_mem hm'
    have hm : m ∈ between ++ [m'] := by
      cases between with
      | nil =>
        obtain ⟨rfl, -⟩ := cons.inj heq
        simp
      | cons b between =>
        obtain ⟨rfl, -⟩ := cons.inj heq
        simp
    exact h (hs between m' after heq (by simpa using hw) m hm)
  · intro hn between m' after heq hw
    have := hn m' (by simp [heq])
    rw [hw] at this
    cases this

theorem continues_iff : ∀ {ms d flags}, Continues flags d.stop ms ↔
    (d :: writtenSections ms).IsChain (fun d d' => d'.address < d.stop + 0x1000) ∧ SteadyFrom flags ms
  | [], d, flags => by simp [Continues, writtenSections, steadyFrom_nil]
  | m :: ms, d, flags => by
    rw [Continues]
    by_cases hf : m.dataSection.flags = flags
    · rw [if_pos hf, steadyFrom_cons hf]
      cases hw : m.written with
      | true => rw [if_pos rfl, writtenSections_cons_of_written hw, continues_iff, isChain_cons_cons, and_assoc]
      | false => rw [if_neg Bool.false_ne_true, writtenSections_cons_none hw, continues_iff]
    · rw [if_neg hf, steadyFrom_cons_of_ne hf]
      refine (and_iff_right_of_imp fun hn => ?_).symm
      have hl : writtenSections (m :: ms) = [] := by
        rw [writtenSections, map_eq_nil_iff, filter_eq_nil_iff]
        intro m' hm'
        rw [hn m' hm']
        exact Bool.false_ne_true
      rw [hl]
      exact isChain_singleton _

theorem steady_cons_iff (h : m.written = true) :
    (∀ pre m1 between m' post, m :: ms = pre ++ m1 :: (between ++ m' :: post) → m1.written → m'.written →
      ∀ t ∈ between ++ [m'], t.dataSection.flags = m1.dataSection.flags) ↔ SteadyFrom m.dataSection.flags ms := by
  constructor
  · intro hs between m' post heq hw
    exact hs [] m between m' post (by rw [heq, nil_append]) h hw
  · intro hs pre m1 between m' post heq hw hw' t ht
    cases pre with
    | nil =>
      obtain ⟨rfl, hm⟩ := cons.inj heq
      exact hs between m' post hm hw' t ht
    | cons b pre =>
      obtain ⟨rfl, hm⟩ := cons.inj heq
      -- both are compared with the first section
      have ha := hs (pre ++ m1 :: between) m' post (by rw [append_assoc]; exact hm) hw'
      rw [ha t (by simp_all), ha m1 (by simp)]

theorem begins_iff : ∀ {ms}, Begins ms ↔ Regular ms
  | [] => by
    simp only [Begins, true_iff]
    exact ⟨isChain_nil, fun pre m between m' post heq => by simp at heq⟩
  | m :: ms => by
    rw [Begins]
    cases hi : m.written with
    | true =>
      rw [if_pos rfl, continues_iff, ← steady_cons_iff hi]
      have hw := @writtenSections_cons_of_written m ms hi
      constructor
      · rintro ⟨hn, hs⟩
        exact ⟨by rwa [← hw] at hn, hs⟩
      · rintro ⟨hn, hs⟩
        exact ⟨by rwa [← hw], hs⟩
    | false =>
      rw [if_neg Bool.false_ne_true, begins_iff]
      have hw := @writtenSections_cons_none m ms hi
      constructor
      · rintro ⟨hn, hs⟩
        refine ⟨by rwa [← hw] at hn, fun pre m1 between m' post heq hm1 => ?_⟩
        cases pre with
        | nil =>
          obtain ⟨rfl, -⟩ := cons.inj heq
          rw [hi] at hm1
          cases hm1
        | cons b pre => exact hs pre m1 between m' post (cons.inj heq).2 hm1
      · rintro ⟨hn, hs⟩
        refine ⟨by rwa [← hw], fun pre m1 between m' post heq => ?_⟩
        exact hs (m :: pre) m1 between m' post (by rw [heq, cons_append])

instance decidableContinues : ∀ (flags stop : Nat) (ms : List Mapped), Decidable (Continues flags stop ms)
  | _, _, [] => inferInstanceAs (Decidable True)
  | flags, stop, m :: ms =>
    have := decidableContinues flags m.dataSection.stop ms
    have := decidableContinues flags stop ms
    inferInstanceAs (Decidable (if m.dataSection.flags = flags then
      if m.written then m.dataSection.address < stop + 0x1000 ∧ Continues flags m.dataSection.stop ms
      else Continues flags stop ms
    else ∀ m' ∈ m :: ms, m'.written = false))

instance decidableBegins : ∀ ms : List Mapped, Decidable (Begins ms)
  | [] => inferInstanceAs (Decidable True)
  | m :: ms =>
    have := decidableBegins ms
    inferInstanceAs (Decidable
      (if m.written then Continues m.dataSection.flags m.dataSection.stop ms else Begins ms))

instance (ms : List Mapped) : Decidable (Regular ms) := decidable_of_iff (Begins ms) begins_iff

/-! ## All regions -/

theorem sections_next (dataBytes st) (m) : ∃ more, (next dataBytes st m).sections = st.sections ++ more := by
  unfold next
  split
  · exact ⟨_, by rw [DataState.addSection, sections_startSegment]⟩
  · exact ⟨[], by rw [sections_startSegment, append_nil]⟩

theorem sections_foldl : ∀ (ms : List Mapped) (st : DataState),
    ∃ more, (ms.foldl (next dataBytes) st).sections = st.sections ++ more
  | [], st => ⟨[], by rw [foldl_nil, append_nil]⟩
  | m :: ms, st => by
    obtain ⟨more, hm⟩ := sections_next dataBytes st m
    obtain ⟨rest, hr⟩ := sections_foldl ms (next dataBytes st m)
    exact ⟨more ++ rest, by rw [foldl_cons, hr, hm, append_assoc]⟩

variable {tls : Option DataRegion}

/-- A region adds sections at the end of the list, and its segments are mapped if and only if its map is regular. -/
theorem makeRegion_spec {region} (h : Laid region.dataBytes (sectionMap tls region))
    (sections) : ∃ more output, makeRegion tls sections region = some (sections ++ more, output) ∧
      ∀ later, output.IsMapped (sections ++ more ++ later) ↔ Regular (sectionMap tls region) := by
  unfold makeRegion
  cases hp : sectionMap tls region with
  | nil =>
    refine ⟨[], ⟨[], []⟩, by rw [append_nil], fun later => ?_⟩
    rw [← begins_iff]
    exact ⟨fun _ => trivial, fun _ segment hg => by cases hg⟩
  | cons first rest =>
    rw [hp] at h
    have hs : Fresh (startState sections first) := ⟨rfl, rfl, rfl, fun _ => rfl, fun hf => absurd rfl hf⟩
    obtain ⟨more, hm⟩ := @sections_foldl region.dataBytes (first :: rest) (startState sections first)
    have hc : (startState sections first).sections ++ more =
        sections ++ ([makePaddingSection (first.dataSection.address % 0x200000)] ++ more) := append_assoc ..
    rw [hc] at hm
    refine ⟨[makePaddingSection (first.dataSection.address % 0x200000)] ++ more,
      ((first :: rest).foldl (next region.dataBytes) (startState sections first)).output, ?_, fun later => ?_⟩
    · dsimp only
      rw [foldlM_visitSection h.stored, ← hm]
      rfl
    · rw [← begins_iff, ← hm]
      exact isMapped_of_fresh hs h

theorem makeRegions_spec : ∀ {regions},
    (∀ region ∈ regions, Laid region.dataBytes (sectionMap tls region)) → ∀ sections : List Section,
    ∃ more outputs, makeRegions tls sections regions = some (sections ++ more, outputs) ∧
      ∀ later, (∀ output ∈ outputs, output.IsMapped (sections ++ more ++ later)) ↔
        ∀ region ∈ regions, Regular (sectionMap tls region)
  | [], _, sections => ⟨[], [], by rw [makeRegions, append_nil], by simp⟩
  | region :: regions, h, sections => by
    obtain ⟨more, output, hn, hm⟩ := makeRegion_spec (h region (by simp)) sections
    have hl : ∀ r ∈ regions, Laid r.dataBytes (sectionMap tls r) := fun r hr => h r (by simp [hr])
    obtain ⟨rest, outputs, hg, ht⟩ := makeRegions_spec hl (sections ++ more)
    refine ⟨more ++ rest, output :: outputs, ?_, fun later => ?_⟩
    · rw [makeRegions, hn, ← append_assoc]
      simp [hg]
    · rw [forall_mem_cons, forall_mem_cons, ← hm (rest ++ later), ← ht later]
      simp only [append_assoc]

/-- The data sections of a module are mapped to their addresses by the segments they are in if and only if, in each
region, less than a page lies between a section that is written and the next one, and the permissions do not change
in between. -/
theorem dataSections_mapped_iff (list : DataRegionList) (sections later : List Section)
    (hlaid : ∀ region ∈ list.regions, Laid region.dataBytes (sectionMap list.tls region)) :
    (∃ result outputs, makeDataSections list sections = some (result, outputs) ∧
      ∀ output ∈ outputs, output.IsMapped (result ++ later)) ↔
    ∀ region ∈ list.regions, Regular (sectionMap list.tls region) := by
  obtain ⟨more, outputs, hmk, hmap⟩ := makeRegions_spec hlaid (sections ++ [makePaddingSection 0])
  rw [makeDataSections, hmk, ← hmap later]
  constructor
  · rintro ⟨_, _, heq, h⟩
    cases heq
    exact h
  · intro h
    exact ⟨_, _, rfl, h⟩

def elfHeader : Section := ⟨"=elfheader", none, .table 64 1⟩

/-- A region with a data section of two bytes and a bss section of two bytes some way after it. -/
def dataAndBss : DataRegionList where
  regions := [⟨0x4000, 8, [⟨".data", 0x4000, 2, 0, 3, .data⟩, ⟨".bss", 0x4006, 2, 6, 3, .bss⟩],
    [1, 2, 0, 0, 0, 0, 0, 0]⟩]
  tls := none

theorem dataSections_mapped_dataAndBss : ∃ result outputs, makeDataSections dataAndBss [elfHeader] = some (result, outputs) ∧
    ∀ output ∈ outputs, output.IsMapped (result ++ []) := by
  apply (dataSections_mapped_iff dataAndBss [elfHeader] [] ?_).2
  · decide +kernel
  · intro region hreg
    obtain rfl := mem_singleton.1 hreg
    exact ⟨by decide +kernel, by decide +kernel, by decide +kernel⟩

/-- A region with read-only data and, right after it, data that can be written. -/
def twoPermissions : DataRegionList where
  regions := [⟨0x1000, 4, [⟨".rodata", 0x1000, 2, 0, 2, .data⟩, ⟨".data", 0x1002, 2, 2, 3, .data⟩], [1, 2, 3, 4]⟩]
  tls := none

/-- The second segment begins with the padding before `.data`, and is mapped at address zero. -/
theorem twoPermissions_at_zero : ∃ result outputs, makeDataSections twoPermissions [elfHeader] = some (result, outputs) ∧
    ∃ output ∈ outputs, ∃ segment ∈ output.segments, ∃ e ∈ output.made, e.1 ∈ segment.containsList ∧
      e.2.address = 0x1002 ∧ (segment.phdr result).p_vaddr = 0 ∧ ¬ Maps result segment e.1 e.2 := by
  refine ⟨_, _, rfl, _, mem_singleton_self _, ⟨.load, PF_R ||| PF_W, 0x1000, [5, 6], 0⟩, by decide +kernel,
    (6, ⟨".data", 0x1002, 2, 2, 3, .data⟩), by decide +kernel, by decide, rfl, by decide +kernel, fun h => ?_⟩
  exact absurd h.offset (by decide +kernel)

end Generate

end Egalito
