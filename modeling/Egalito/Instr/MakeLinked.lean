/-
LinkedInstruction::makeLinked and LinkedInstructionBase::writeTo (`instr/linked-x86_64.cpp`): the target of a
RIP-relative operand becomes a link, and the link is written back as the displacement of the operand.

The link that is chosen depends on what the lookup finds at the target. `makeLinked_writeTo` says when it leads back
to the target, so that the bytes are those read.
-/
import Egalito.Chunk.Lookup
import Egalito.Disasm.DispOffset
import Egalito.Lib.Except

namespace Egalito.MakeLinked

open Lib Lookup

inductive Operand where
  | mem (baseIsRIP hasIndex : Bool) (scale : Nat) (disp : BitVec 64)
  | imm (value : BitVec 64)
  | other
deriving DecidableEq

def Operand.isRIPRelative : Operand → Bool
  | .mem baseIsRIP hasIndex scale _ => baseIsRIP && !hasIndex && scale == 1
  | .imm _ => false
  | .other => false

def Operand.toCs : Operand → DispOffset.CsOperand
  | .mem _ _ _ disp => .mem disp
  | .imm value => .imm value
  | .other => .other

/-- An instruction with its assembly, in the function at a place of the function list. -/
structure Instruction where
  address : Address
  function : Nat
  bytes : List Byte
  operands : List Operand
  distorm : Option DispOffset.DInst

namespace Instruction

def assembly (i : Instruction) : DispOffset.Assembly := ⟨i.bytes, i.operands.map Operand.toCs, i.distorm⟩

def next (i : Instruction) : Address := i.address + BitVec.ofNat 64 i.bytes.length

end Instruction

structure Module where
  functions : List Function
  data : DataRegionList
  pltList : Option (List Address)
  isExecutable : Bool
  hasRelocations : Bool

/-! ## The link of a displacement -/

/-- findPLTTrampoline, the entry at the address. -/
def findPLTTrampoline (m : Module) (target : Address) : Option Chunk :=
  match m.pltList with
  | some entries => if target ∈ entries then some (.pltTrampoline target.toNat) else none
  | none => none

/-- The region that an inferred marker is in: the one of the address, or one that ends there. -/
def inferredRegion (d : DataRegionList) (address : Address) : Option DataRegion :=
  d.findRegionContaining address.toNat <|> d.findRegionContaining (address - 1).toNat

/-- The last section, in the order of the list, before the first one that starts above the address. -/
def inferredBase (d : DataRegionList) (address : Address) : Option DataSection :=
  (inferredRegion d address).bind fun region =>
    (region.sections.takeWhile fun s => decide (s.address ≤ address)).getLast?

def createInferredMarkerLink (d : DataRegionList) (address : Address) (isRelative : Bool) :
    Except Failure (Option Link) :=
  -- "if found, it's usually a gap inside a region"
  if (d.findRegionContaining address.toNat).any fun region =>
      (region.findDataSectionContaining address.toNat).isSome then .error .assertion
  else .ok ((inferredBase d address).map fun base => .marker (.general base.address (address - base.address)) isRelative)

/-- A target that is in no function and no PLT entry. -/
def makeDataOrMarker (m : Module) (target : Address) : Except Failure Link :=
  match createDataLink m.data target true with
  | some link => .ok link
  | none => do
    match ← createInferredMarkerLink m.data target true with
    | some link => .ok link
    | none => .ok (.unresolved target)

def makeDispLink (m : Module) (i : Instruction) (target : Address) : Except Failure Link :=
  match functionContaining m.functions target.toNat with
  | some (f, k) =>
    .ok (.normal (chunkAt f k target) true (if k = i.function then .internalJump else .externalJump))
  | none =>
    match findPLTTrampoline m target with
    | some plt => .ok (.normal (some plt) true .externalJump)
    | none =>
      -- no function contains the target and there is no PLT entry, so these two find nothing
      match findInFunctionList m.functions target.toNat false false with
      | some (.instruction k a j) => .ok (.normal (some (.instruction k a j)) true .internalJump)
      | _ =>
        match findPLTTrampoline m target with
        | some plt => .ok (.normal (some plt) true .withinModule)
        | none => makeDataOrMarker m target

/-- The links found so far, with the operands they are for. -/
structure Links where
  imm : Option (Nat × Link)
  disp : Option (Nat × Link)

/-- The function at the address that an immediate has, in an executable without relocations. -/
def functionOfImmediate (m : Module) (value : BitVec 64) : Option (Function × Nat) :=
  if m.isExecutable ∧ m.hasRelocations = false then
    findKey value.toNat (assignAll (m.functions.zipIdx.map fun e => (e.1.start, e)))
  else none

/-- One round of the loop over the operands. -/
def linkOperand (m : Module) (i : Instruction) (links : Links) (e : Operand × Nat) : Except Failure Links :=
  match e.1 with
  | .mem baseIsRIP hasIndex scale disp =>
    if Operand.isRIPRelative (.mem baseIsRIP hasIndex scale disp) then
      match links.disp with
      | some _ => .error .assertion
      | none => do
        let link ← makeDispLink m i (i.next + disp)
        .ok { links with disp := some (e.2, link) }
    else .ok links
  | .imm value =>
    match functionOfImmediate m value with
    | some (f, k) => .ok { links with imm := some (e.2, .normal (some (.function k f.start)) false .withinModule) }
    | none => .ok links
  | .other => .ok links

structure Linked where
  instruction : Instruction
  opIndex : Nat
  link : Link

/-- The link of the one operand that has a target. -/
def makeLinked (m : Module) (i : Instruction) : Except Failure (Option Linked) := do
  let links ← i.operands.zipIdx.foldlM (linkOperand m i) ⟨none, none⟩
  match links.imm, links.disp with
  | none, none => .ok none
  -- an ImmAndDispLink gets the index -1, which makeDisplacementInfo does not accept
  | some _, some _ => .error .assertion
  | some (k, link), none => .ok (some ⟨i, k, link⟩)
  | none, some (k, link) => .ok (some ⟨i, k, link⟩)

namespace Linked

def calculateDisplacement (l : Linked) : Except Failure Address := do
  let target ← l.link.getTargetAddress
  .ok (if l.link.isRIPRelative then target - l.instruction.next else target)

/-- The bytes with the displacement to the target of the link. -/
def writeTo (l : Linked) : Except Failure (List Byte) := do
  let disp ← l.calculateDisplacement
  .ok (DispOffset.writeTo (DispOffset.makeDisplacementInfo l.instruction.assembly l.opIndex) disp)

end Linked

/-! ## Which targets are kept -/

/-- The target is the start of an instruction of the function that contains it, or, in no function, a PLT entry, a data
    section or the base of a marker. -/
def Resolved (m : Module) (target : Address) : Prop :=
  match functionContaining m.functions target.toNat with
  | some (f, _) => f.StartsAt target.toNat
  | none =>
    (findPLTTrampoline m target).isSome ∨ (createDataLink m.data target true).isSome ∨
      (inferredBase m.data target).isSome

/-- The link leads to the target, relative to the next instruction. -/
def Keeps (link : Link) (target : Address) : Prop :=
  link.getTargetAddress = .ok target ∧ link.isRIPRelative = true

variable {m : Module} {target : Address} {i : Instruction}

theorem keeps_pltTrampoline {plt scope} (h : findPLTTrampoline m target = some plt) :
    Keeps (.normal (some plt) true scope) target := by
  unfold findPLTTrampoline at h
  split at h
  · split at h
    · cases h
      exact ⟨congrArg Except.ok (by rw [Chunk.address, BitVec.ofNat_toNat, BitVec.setWidth_eq]), rfl⟩
    · cases h
  · cases h

theorem makeDataOrMarker_keeps_iff {link} (h : makeDataOrMarker m target = .ok link) :
    Keeps link target ↔ (createDataLink m.data target true).isSome ∨ (inferredBase m.data target).isSome := by
  unfold makeDataOrMarker at h
  cases hd : createDataLink m.data target true with
  | some l =>
    rw [hd] at h
    cases h
    exact iff_of_true (createDataLink_exact hd) (.inl rfl)
  | none =>
    rw [hd] at h
    obtain ⟨marker, hm, h⟩ := bind_iff.1 h
    unfold createInferredMarkerLink at hm
    split at hm
    · cases hm
    cases hb : inferredBase m.data target with
    | some base =>
      rw [hb] at hm
      cases hm
      cases h
      have ha : base.address + (target - base.address) = target := by ring
      exact iff_of_true ⟨congrArg Except.ok ha, rfl⟩ (.inr rfl)
    | none =>
      rw [hb] at hm
      cases hm
      cases h
      -- an UnresolvedLink is not RIP-relative
      refine iff_of_false ?_ (by simp)
      rintro ⟨-, hr⟩
      cases hr

theorem makeDispLink_keeps_iff {link} (h : makeDispLink m i target = .ok link) :
    Keeps link target ↔ Resolved m target := by
  unfold makeDispLink at h
  unfold Resolved
  cases hin : functionContaining m.functions target.toNat with
  | some e =>
    obtain ⟨-, hle, hlt⟩ := containing_eq_some hin
    rw [hin] at h
    cases h
    have he := chunkAt_exact_iff hle hlt e.2 true (if e.2 = i.function then .internalJump else .externalJump)
    constructor
    · exact fun hk => he.1 hk.1
    · exact fun hs => ⟨he.2 hs, rfl⟩
  | none =>
    have hl : findInFunctionList m.functions target.toNat false false = none := by rw [findInFunctionList, hin]; rfl
    rw [hin] at h
    cases hp : findPLTTrampoline m target with
    | some plt =>
      simp only [hp] at h
      cases h
      exact iff_of_true (keeps_pltTrampoline hp) (.inl rfl)
    | none =>
      simp only [hp, hl] at h
      rw [makeDataOrMarker_keeps_iff h]
      simp

/-! ## The operand -/

/-- Once there is a link for a displacement, the other operands leave it. -/
theorem linkOperand_disp {links links' e d} (hd : links.disp = some d)
    (h : linkOperand m i links e = .ok links') : links'.disp = some d := by
  unfold linkOperand at h
  split at h
  · split at h
    · rw [hd] at h
      cases h
    · cases h
      exact hd
  · split at h
    · cases h
      exact hd
    · cases h
      exact hd
  · cases h
    exact hd

/-- The link is that of the RIP-relative operand. -/
theorem makeLinked_eq_some {linked k scale baseIsRIP ha disp}
    (ho : i.operands[k]? = some (.mem baseIsRIP ha scale disp))
    (hrp : Operand.isRIPRelative (.mem baseIsRIP ha scale disp) = true)
    (hr : makeLinked m i = .ok (some linked)) :
    ∃ link, linked = ⟨i, k, link⟩ ∧ makeDispLink m i (i.next + disp) = .ok link := by
  obtain ⟨links, hf, hr⟩ := bind_iff.1 hr
  have hm : (Operand.mem baseIsRIP ha scale disp, k) ∈ i.operands.zipIdx := List.mem_zipIdx_iff_getElem?.2 ho
  obtain ⟨pre, post, hl⟩ := List.append_of_mem hm
  -- the loop up to the operand, its round, and the rest
  rw [hl, List.foldlM_append] at hf
  obtain ⟨links1, -, hf⟩ := bind_iff.1 hf
  rw [List.foldlM_cons] at hf
  obtain ⟨links2, hd, haf⟩ := bind_iff.1 hf
  simp only [linkOperand, hrp, if_true] at hd
  split at hd
  · cases hd
  · obtain ⟨link, hlk, hd⟩ := bind_iff.1 hd
    cases hd
    have hp : links.disp = some (k, link) :=
      foldlM_keeps (I := fun s => s.disp = some (k, link)) post rfl
        (fun e _ s s' hs hsp => linkOperand_disp hs hsp) haf
    refine ⟨link, ?_, hlk⟩
    cases hmm : links.imm with
    | some _ =>
      simp only [hmm, hp] at hr
      cases hr
    | none =>
      simp only [hmm, hp] at hr
      cases hr
      rfl

/-- The RIP-relative operand is in the displacement of an encoding of the instruction, which holds its value. -/
structure Decoded (i : Instruction) (k : Nat) (e : DispOffset.Encoding) (disp : BitVec 64) : Prop where
  describes : DispOffset.Describes i.assembly k e .disp disp
  value : e.disp = littleEndian e.disp.length disp.toNat

/-- The link of a RIP-relative operand refers to its target, relative to the next instruction, exactly if
    the target is resolved; and then the instruction is written as it was. -/
theorem makeLinked_writeTo {m : Module} {i : Instruction} {linked : Linked} {k scale : Nat} {baseIsRIP hasIndex : Bool}
    {disp : BitVec 64} {e : DispOffset.Encoding} (hop : i.operands[k]? = some (.mem baseIsRIP hasIndex scale disp))
    (hrip : Operand.isRIPRelative (.mem baseIsRIP hasIndex scale disp) = true) (hdecoded : Decoded i k e disp)
    (hrun : makeLinked m i = .ok (some linked)) :
    (Keeps linked.link (i.next + disp) ↔ Resolved m (i.next + disp)) ∧
      (Resolved m (i.next + disp) → linked.writeTo = .ok i.bytes) := by
  obtain ⟨link, rfl, hlk⟩ := makeLinked_eq_some hop hrip hrun
  have hks := makeDispLink_keeps_iff hlk
  refine ⟨hks, ?_⟩
  intro hrs
  obtain ⟨htr, hrl⟩ := hks.mpr hrs
  have hdp : Linked.calculateDisplacement ⟨i, k, link⟩ = .ok disp := by
    have hdf : i.next + disp - i.next = disp := by ring
    rw [Linked.calculateDisplacement, ok_bind htr, if_pos hrl, hdf]
  rw [Linked.writeTo, ok_bind hdp]
  exact congrArg Except.ok (hdecoded.describes.writeTo_value hdecoded.value)

/-! ## `lea disp(%rip), %rax` -/

def lea (disp : List Byte) : DispOffset.Encoding where
  prefixes := [0x48]
  opcode := [0x8d]
  modrm := some 0x05
  sib := none
  disp := disp
  imms := []
  opcode_ne_nil := by decide

/-- At 0x2000, with the displacement to a target. -/
def leaTo (target : Address) : Instruction where
  address := 0x2000
  function := 1
  bytes := (lea (littleEndian 4 (target - 0x2007).toNat)).bytes
  operands := [.mem true false 1 (target - 0x2007), .other]
  distorm := some ⟨true, 32, [⟨.reg, 64⟩, ⟨.smem, 64⟩]⟩

/-- `push %rbp; mov %rsp, %rbp` at 0x1000, and the function of the `lea`. -/
def twoFunctions (target : Address) : Module where
  functions := [⟨"f", 0x1000, [[⟨[0x55]⟩, ⟨[0x48, 0x89, 0xe5]⟩]]⟩, ⟨"g", 0x2000, [[⟨(leaTo target).bytes⟩]]⟩]
  data := ⟨[], none⟩
  pltList := none
  isExecutable := true
  hasRelocations := false

/-- To the second instruction of `f`. -/
theorem makeLinked_writeTo_lea :
    ∃ linked, makeLinked (twoFunctions 0x1001) (leaTo 0x1001) = .ok (some linked) ∧
      linked.writeTo = .ok (leaTo 0x1001).bytes := by
  have hrun : makeLinked (twoFunctions 0x1001) (leaTo 0x1001) =
      .ok (some ⟨leaTo 0x1001, 0, .normal (some (.instruction 0 0x1001 ⟨[0x48, 0x89, 0xe5]⟩)) true .externalJump⟩) := rfl
  have hdc : Decoded (leaTo 0x1001) 0 (lea (littleEndian 4 (0x1001 - 0x2007 : Address).toNat))
      (0x1001 - 0x2007) := ⟨⟨rfl, rfl, rfl, by decide⟩, rfl⟩
  have hrs : Resolved (twoFunctions 0x1001) ((leaTo 0x1001).next + (0x1001 - 0x2007)) := by
    show 0x1001 ∈ _
    decide
  exact ⟨_, hrun, (makeLinked_writeTo rfl rfl hdc hrun).2 hrs⟩

/-- The middle of an instruction becomes its start, and an address of which nothing is known is written itself. -/
theorem makeLinked_changes :
    (∃ linked, makeLinked (twoFunctions 0x1002) (leaTo 0x1002) = .ok (some linked) ∧
      linked.link.getTargetAddress = .ok 0x1001 ∧
      (leaTo 0x1002).bytes = [0x48, 0x8d, 0x05, 0xfb, 0xef, 0xff, 0xff] ∧
      linked.writeTo = .ok [0x48, 0x8d, 0x05, 0xfa, 0xef, 0xff, 0xff]) ∧
    (∃ linked, makeLinked (twoFunctions 0x9000) (leaTo 0x9000) = .ok (some linked) ∧
      linked.link = .unresolved 0x9000 ∧
      (leaTo 0x9000).bytes = [0x48, 0x8d, 0x05, 0xf9, 0x6f, 0x00, 0x00] ∧
      linked.writeTo = .ok [0x48, 0x8d, 0x05, 0x00, 0x90, 0x00, 0x00]) :=
  ⟨⟨_, rfl, rfl, by decide, rfl⟩, ⟨_, rfl, rfl, by decide, rfl⟩⟩

end Egalito.MakeLinked
