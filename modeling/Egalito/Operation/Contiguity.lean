/-
Addresses after mutation in the default mode: the instructions of a function lie one after another.

The layout of `Operation.Layout` holds after every run of `Operation.Runs`, and gives the addresses.
-/
import Egalito.Operation.Runs

namespace Egalito

open Heap Mutator List

variable {S : Type} [Sized S] {h h1 h' : Heap S} {b c f : Ref} {a : Address}

def instructions (h : Heap S) (f : Ref) : List Ref := (h.children f).flatMap h.children

theorem flatMap_split {α β : Type} (g : α → List β) : ∀ B {l₁} {i} {l₂}, B.flatMap g = l₁ ++ i :: l₂ →
      ∃ B₁ b B₂ k1 k2, B = B₁ ++ b :: B₂ ∧ g b = k1 ++ i :: k2 ∧ l₁ = B₁.flatMap g ++ k1
  | [], l₁, i, l₂, hB => by simp at hB
  | b :: B, l₁, i, l₂, hB => by
    rw [flatMap_cons, append_eq_append_iff] at hB
    rcases hB with ⟨k, rfl, hk⟩ | ⟨k, hb, hk⟩
    · obtain ⟨B₁, d, B₂, k1, k2, rfl, hd, rfl⟩ := flatMap_split g B hk
      exact ⟨b :: B₁, d, B₂, k1, k2, rfl, hd, by simp⟩
    · cases k with
      | nil =>
        -- the element is the first of the rest
        rw [nil_append] at hk
        obtain ⟨B₁, d, B₂, k1, k2, rfl, hd, hn⟩ := flatMap_split g B (show B.flatMap g = [] ++ i :: l₂ from hk.symm)
        rw [append_nil] at hb
        exact ⟨b :: B₁, d, B₂, k1, k2, rfl, hd, by rw [flatMap_cons, append_assoc, ← hn, append_nil, hb]⟩
      | cons j k =>
        obtain ⟨rfl, rfl⟩ := cons.inj hk
        exact ⟨[], b, B, l₁, k, rfl, hb, by simp⟩

/-! ## Contiguous addresses -/

/-- Every instruction of `f` lies at `a` plus the sizes of those before it in tree order, and every
block where its first instruction goes. -/
structure Contiguous (h : Heap S) (f : Ref) (a : Address) : Prop where
  instruction : ∀ l₁ i l₂, instructions h f = l₁ ++ i :: l₂ → h.getAddress i = .ok (past h a l₁, h)
  block : ∀ B₁ b B₂, h.children f = B₁ ++ b :: B₂ → h.getAddress b = .ok (past h a (B₁.flatMap h.children), h)

theorem getSize_block (hw : WellFormed h) (hb : h.kind b = .block) : h.getSize b = extent h (h.children b) := by
  have hl := hw.balanced b (.inl hb)
  rw [total] at hl
  have hs : h.getSize b = h.computedSize b := by rw [getSize, hb]
  rw [hs, extent]
  have hc : (((h.children b).map h.getSize).sum : Int) = ((h.children b).map fun x => (h.getSize x : Int)).sum := by
    rw [Nat.cast_list_sum, map_map]
    rfl
  omega

theorem extent_blocks (hw : WellFormed h) : ∀ B, (∀ b ∈ B, h.kind b = .block) →
    extent h B = extent h (B.flatMap h.children)
  | [], _ => rfl
  | b :: B, hB => by
    have ih := extent_blocks hw B fun d hd => hB d (by simp [hd])
    have hb := getSize_block hw (hB b (by simp))
    simp only [extent, map_cons, sum_cons, flatMap_cons, map_append, sum_append] at ih hb ⊢
    rw [ih, hb]

/-- The bytes of a function are those of its instructions. -/
theorem getSize_function (hw : WellFormed h) (hf : h.kind f = .function) : h.getSize f = extent h (instructions h f) := by
  have hl := hw.balanced f (.inr hf)
  have hs : h.getSize f = h.computedSize f := by rw [getSize, hf]
  have hc : ((extent h (h.children f) : Nat) : Int) = total h f := by
    rw [extent, total, Nat.cast_list_sum, map_map]
    rfl
  rw [instructions, ← extent_blocks hw _ fun b hb => block_of_mem hw.toLinkage hf hb]
  omega

theorem getSize_instruction {i} (hl : Linkage h) (hf : h.kind f = .function) (hi : i ∈ instructions h f) :
    h.getSize i = Sized.size (h.semantic i) := by
  obtain ⟨b, hb, hib⟩ := mem_flatMap.1 hi
  rw [getSize, instruction_of_mem hl (block_of_mem hl hf hb) hib]

omit [Sized S] in
theorem instructions_nodup (hl : Linkage h) (f : Ref) : (instructions h f).Nodup := by
  rw [instructions, nodup_flatMap]
  refine ⟨fun b _ => (hl.linked b).nodup, (hl.linked f).nodup.imp fun {b d} hbd => ?_⟩
  exact fun x hb hd => hbd (hl.eq_of_mem hb hd)

theorem past_append (h : Heap S) (a) (l₁ l₂) : past h a (l₁ ++ l₂) = past h (past h a l₁) l₂ := by
  rw [past, past, past, extent, extent, extent, map_append, sum_append, BitVec.ofNat_add, BitVec.add_assoc]

theorem FunctionLaidOut.contiguous (hw : WellFormed h) (hf : h.kind f = .function) (hl : FunctionLaidOut h f a) :
    Contiguous h f a := by
  have hp : ∀ B₁ b B₂, h.children f = B₁ ++ b :: B₂ → past h a B₁ = past h a (B₁.flatMap h.children) := by
    intro B₁ b B₂ hB
    rw [past, past, extent_blocks hw B₁ fun d hd => block_of_mem hw.toLinkage hf (by rw [hB]; simp [hd])]
  refine ⟨fun l₁ i l₂ hi => ?_, fun B₁ b B₂ hB => ?_⟩
  · obtain ⟨B₁, b, B₂, k1, k2, hB, hb, rfl⟩ := flatMap_split h.children _ hi
    have hat := (hl.block B₁ b B₂ hB).instruction k1 i k2 hb
    rw [past_append, ← hp B₁ b B₂ hB]
    exact hat.getAddress hw.toLinkage
  · rw [← hp B₁ b B₂ hB]
    exact (hl.block B₁ b B₂ hB).start.getAddress hw.toLinkage

/-- For a function at an absolute position, after any run whose steps are allowed, the destructor of
a mutator of the function or of one of its blocks makes the addresses contiguous. -/
theorem addresses_contiguous (hw : WellFormed h) (hp : Positioned h) (hf : f < h.fresh) (hkf : h.kind f = .function)
    (ha : h.position f = some ⟨.absolute a, .plain⟩) (hr : Reaches .offset h h1) (hroot : Rooted h1 f)
    (hc : c = f ∨ c ∈ h1.children f) :
    ∃ h', updatePositions .offset h1 c = .ok h' ∧ SameTree h1 h' ∧ Contiguous h' f a := by
  obtain ⟨hk, hq⟩ := hr.positions hw hp
  have hl1 := hk.wellFormed.toLinkage
  have hkf1 : h1.kind f = .function := by rw [hk.kind f hf, hkf]
  have hrc : Rooted h1 c := by
    rcases hc with rfl | hc
    · exact hroot
    · exact .child ((hl1.linked f).parent c hc) hc hroot
  obtain ⟨h', hrun, hs, -, -, -, hly⟩ := updatePositions_ok hl1 hq.positioned hrc
  refine ⟨h', hrun, hs, (hly f a hc (by rw [hq.functions f hf hkf, ha])).contiguous (hk.wellFormed.sameTree hs) ?_⟩
  rw [hs.agree.kind, hkf1]

/-- The function of `sampleHeap` with the block in it and instructions 3 and 4 in the block. -/
def filledHeap : Heap Nat where
  kind := sampleHeap.kind
  parent
    | 1 => some 0
    | 3 | 4 => some 1
    | _ => none
  prev
    | 4 => some 3
    | _ => none
  next
    | 3 => some 4
    | _ => none
  children
    | 0 => [1]
    | 1 => [3, 4]
    | _ => []
  computedSize
    | 0 | 1 => 7
    | _ => 0
  semantic := sampleHeap.semantic
  position
    | 0 => some ⟨.absolute 0x1000, .plain⟩
    | 1 | 3 => some (offsetPosition 0)
    | 4 => some (offsetPosition 3)
    | _ => none
  fresh := 8

theorem filledHeap_wellFormed : WellFormed filledHeap where
  linked
    | 0 | 1 => ⟨by decide, by simp [filledHeap, Lib.Linked], by decide, by decide⟩
    | _ + 2 => ⟨nodup_nil, trivial, nofun, nofun⟩
  allocated
    | 0 | 1 => by decide
    | _ + 2 => nofun
  balanced
    | 0, _ | 1, _ | _ + 2, _ => rfl

theorem filledHeap_positioned : Positioned filledHeap where
  shape
    | 0 => .inr (.inr ⟨0x1000, rfl⟩)
    | 1 => .inr ⟨0, rfl⟩
    | 2 => rfl
    | 3 => .inr ⟨0, rfl⟩
    | 4 => .inr ⟨3, rfl⟩
    | _ + 5 => .inl rfl
  child
    | 0, _ | 1, _ => by decide
    | _ + 2, _ => nofun

theorem filledHeap_allowed : Allowed filledHeap (.remove 1 3) :=
  ⟨⟨.child (d := 0) rfl (by decide) (.top rfl), by decide⟩, trivial⟩

theorem addresses_contiguous_filled :
    ∃ h1 h', step .offset filledHeap (.remove 1 3) = .ok h1 ∧ updatePositions .offset h1 1 = .ok h' ∧
      instructions h' 0 = [4] ∧ Contiguous h' 0 0x1000 := by
  obtain ⟨h1, hrun, -⟩ := step_ok filledHeap_wellFormed filledHeap_positioned filledHeap_allowed
  obtain ⟨⟨h2, hrm, hag⟩, -⟩ := remove_spec filledHeap_wellFormed filledHeap_allowed.1.1
    (show filledHeap.children 1 = [] ++ 3 :: [4] from rfl) hrun
  have hch := hag.children.trans hrm.children
  have hrt : Rooted h1 0 := .top (by rw [hag.parent, hrm.parent]; rfl)
  have hmem : (1 : Ref) ∈ h1.children 0 := by rw [hch]; decide
  obtain ⟨h', hud, hs, hct⟩ := addresses_contiguous filledHeap_wellFormed filledHeap_positioned (f := 0) (by decide) rfl
    rfl (.next .start filledHeap_allowed hrun) hrt (.inr hmem)
  refine ⟨h1, h', hrun, hud, ?_, hct⟩
  rw [instructions, hs.agree.children, hch]
  rfl

/-- Instruction 4 is removed and appended again, with its next pointer still at 5. The list becomes 3, 5, 4, 6, and 5 is
    not at `0x1003`. -/
theorem not_contiguous_append_removed :
    ((run .offset sampleHeap [.append 0 1, .append 1 3, .append 1 4, .append 1 5, .remove 1 4, .append 1 4,
      .insertAfter 1 (some 4) 6, .updatePositions 1]).toOption.bind
      fun h => (h.getAddress 5).toOption.map fun r => (instructions h 0, r.1)) =
      some ([3, 5, 4, 6], 0x1006) := by
  decide

end Egalito
