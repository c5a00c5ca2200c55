/-
Equality of expression trees (`analysis/slicingtree.cpp`) and memory locations (`analysis/usedef.cpp`).

`equal` is structural, but compares operators by name only, tries binary operands crosswise as well, and takes `rip` with
and without its value for one register. Trees denote words. Reflexivity holds on all trees; `equal_denotes` is about the
trees over a vocabulary: equality is symmetric and equal trees denote the same on them exactly if the vocabulary is
consistent, that is, has one meaning for each name, and an order for the operands of what does not commute.
-/
import Egalito.Lib.Bytes

namespace Egalito.SlicingTree

open Lib List

abbrev Word := BitVec 64

inductive UnaryOp
  | deref (width : Nat)
  | jump
  | sxtb
  | sxth
  | sxtw
  | uxtw
  | not
deriving DecidableEq

inductive BinaryOp
  | add
  | sub
  | mul
  | shl
  | shr
  | ror
  | asr
  | and
  | or
  | xor
  | derefWithValue (width : Nat)
deriving DecidableEq

def UnaryOp.name : UnaryOp → String
  | deref _ => "deref"
  | jump => "jump"
  | sxtb => "sxtb"
  | sxth => "sxth"
  | sxtw => "sxtw"
  | uxtw => "uxtw"
  | not => "~"

def BinaryOp.name : BinaryOp → String
  | add => "+"
  | sub => "-"
  | mul => "*"
  | shl => "<<"
  | shr => ">>"
  | ror => "r>>"
  | asr => "a>>"
  | and => "&"
  | or => "|"
  | xor => "^"
  | derefWithValue _ => "deref="

inductive TreeNode
  | constant (value : Word)
  | address (address : Word)
  | register (reg : Nat)
  | registerRIP (value : Word)
  | physicalRegister (reg width : Nat)
  | unary (op : UnaryOp) (node : TreeNode)
  | binary (op : BinaryOp) (left right : TreeNode)
  | comparison (left right : TreeNode)
  | multipleParents (parentList : List TreeNode)

/-- `choose` picks the value of a node with several parents. Nothing makes or reads a dereference with a value, so that it
    can be any function of its operands and its width. -/
structure Assignment where
  register : Nat → Word
  physical : Nat → Word
  memory : Word → Byte
  choose : List Word → Word
  derefWithValue : Nat → Word → Word → Word

/-- The low bytes of a word. -/
def cut (width : Nat) (x : Word) : Word := BitVec.ofNat 64 (x.toNat % 2 ^ (8 * width))

def UnaryOp.value (σ : Assignment) (x : Word) : UnaryOp → Word
  | deref width => BitVec.ofNat 64 (fromLittleEndian ((range width).map fun k => σ.memory (x + BitVec.ofNat 64 k)))
  | jump => x
  | sxtb => (x.setWidth 8).signExtend 64
  | sxth => (x.setWidth 16).signExtend 64
  | sxtw => (x.setWidth 32).signExtend 64
  | uxtw => (x.setWidth 32).setWidth 64
  | not => ~~~x

def BinaryOp.value (σ : Assignment) (x y : Word) : BinaryOp → Word
  | add => x + y
  | sub => x - y
  | mul => x * y
  | shl => x <<< y
  | shr => x >>> y
  | ror => x.rotateRight y.toNat
  | asr => x.sshiftRight y.toNat
  | and => x &&& y
  | or => x ||| y
  | xor => x ^^^ y
  | derefWithValue width => σ.derefWithValue width x y

def X86_REG_RIP : Nat := 41

namespace TreeNode

mutual

/-- A TreeNodeRegisterRIP is a TreeNodeRegister as well. -/
def equal : TreeNode → TreeNode → Bool
  | constant v, constant w => v = w
  | address a, address b => a = b
  | register r, register q => r = q
  | register r, registerRIP _ => r = X86_REG_RIP
  | registerRIP v, registerRIP w => v = w
  | physicalRegister r _, physicalRegister q _ => r = q
  | unary o c, unary p d => o.name = p.name && equal c d
  | binary o l r, binary p l' r' => o.name = p.name && (equal l l' && equal r r' || equal r l' && equal l r')
  | comparison l r, comparison l' r' => equal l l' && equal r r' || equal r l' && equal l r'
  | multipleParents ps, multipleParents qs => equalParents ps qs
  | _, _ => false
termination_by a b => sizeOf a + sizeOf b

/-- Each parent of the other node is asked. -/
def equalParents : List TreeNode → List TreeNode → Bool
  | [], [] => true
  | p :: ps, q :: qs => equal q p && equalParents ps qs
  | _, _ => false
termination_by ps qs => sizeOf ps + sizeOf qs

end

mutual

def value (σ : Assignment) : TreeNode → Word
  | constant v => v
  | address a => a
  | register r => σ.register r
  | registerRIP v => v
  | physicalRegister r width => cut width (σ.physical r)
  | unary op c => op.value σ (value σ c)
  | binary op l r => op.value σ (value σ l) (value σ r)
  | comparison l r => value σ l - value σ r
  | multipleParents ps => σ.choose (values σ ps)

def values (σ : Assignment) : List TreeNode → List Word
  | [] => []
  | p :: ps => value σ p :: values σ ps

end

def isConstant : TreeNode → Bool
  | constant _ => true
  | _ => false

/-- Operands in an order that no other operands with one can match crosswise. -/
def inOrder (l r : TreeNode) : Bool := !l.isConstant && r.isConstant

end TreeNode

/-- What trees are made of. The operands of a binary operator and of a comparison are in order, unless they are free. -/
structure Vocabulary where
  rip : Prop
  ripValue : Prop
  physical : Nat → Nat → Prop
  unary : UnaryOp → Prop
  binary : BinaryOp → Prop
  free : BinaryOp → Prop
  freeComparison : Prop

namespace Vocabulary

mutual

/-- The trees over the vocabulary. -/
def Has (V : Vocabulary) : TreeNode → Prop
  | .constant _ | .address _ => True
  | .register r => r = X86_REG_RIP → V.rip
  | .registerRIP _ => V.ripValue
  | .physicalRegister r width => V.physical r width
  | .unary op c => V.unary op ∧ V.Has c
  | .binary op l r => (V.binary op ∧ (V.free op ∨ TreeNode.inOrder l r)) ∧ V.Has l ∧ V.Has r
  | .comparison l r => (V.freeComparison ∨ TreeNode.inOrder l r) ∧ V.Has l ∧ V.Has r
  | .multipleParents ps => V.HasAll ps

def HasAll (V : Vocabulary) : List TreeNode → Prop
  | [] => True
  | p :: ps => V.Has p ∧ V.HasAll ps

end

/-- `rip` occurs in one form, physical registers and operators have one meaning for each name, and free operators
    commute. -/
structure Consistent (V : Vocabulary) : Prop where
  rip : ¬(V.rip ∧ V.ripValue)
  physical : ∀ r w w', V.physical r w → V.physical r w' → ∀ x, cut w x = cut w' x
  unary : ∀ o p, V.unary o → V.unary p → o.name = p.name → ∀ σ x, o.value σ x = p.value σ x
  binary : ∀ o p, V.binary o → V.binary p → o.name = p.name → ∀ σ x y, o.value σ x y = p.value σ x y
  free : ∀ o p, V.binary o → V.binary p → V.free o → o.name = p.name → ∀ σ x y, o.value σ x y = p.value σ y x
  comparison : ¬V.freeComparison

end Vocabulary

namespace TreeNode

open Vocabulary (Consistent)

variable {V : Vocabulary} {a b l l' r r' : TreeNode} {σ : Assignment}

mutual

theorem equal_refl : ∀ t, equal t t = true
  | constant _ | address _ | register _ | registerRIP _ | physicalRegister .. => by simp [equal]
  | unary _ c => by simp [equal, equal_refl c]
  | binary _ l r | comparison l r => by simp [equal, equal_refl l, equal_refl r]
  | multipleParents ps => by rw [equal, equalParents_refl ps]

theorem equalParents_refl : ∀ ps, equalParents ps ps = true
  | [] => by rw [equalParents]
  | p :: ps => by
    rw [equalParents, equal_refl p, equalParents_refl ps]
    rfl

end

/-- A constant is equal to constants alone. -/
theorem isConstant_eq (h : equal a b = true) : a.isConstant = b.isConstant := by
  cases a <;> cases b <;> simp_all [equal, isConstant]

/-- A crosswise match of ordered operands would take a constant for another node. -/
theorem not_crosswise (h : inOrder l r) (h' : inOrder l' r') : equal r l' = false := by
  by_contra heq
  have := isConstant_eq (Bool.eq_true_of_not_eq_false heq)
  simp_all [inOrder]

mutual

theorem equal_sound (hV : V.Consistent) :
    ∀ {a b}, V.Has a → V.Has b → equal a b = true → equal b a = true ∧ value σ a = value σ b := by
  intro a b ha hb h
  cases a <;> cases b <;> simp only [equal, Bool.false_eq_true, decide_eq_true_eq, Bool.and_eq_true, Bool.or_eq_true] at h
  case constant.constant | address.address | register.register | registerRIP.registerRIP =>
    rw [h]
    exact ⟨equal_refl _, rfl⟩
  case register.registerRIP => exact absurd ⟨ha h, hb⟩ hV.rip
  case physicalRegister.physicalRegister r w r' w' =>
    subst h
    simp [equal, value, hV.physical r w w' ha hb]
  case unary.unary op c op' d =>
    obtain ⟨hn, h⟩ := h
    simp only [Vocabulary.Has] at ha hb
    obtain ⟨hm, hva⟩ := equal_sound hV ha.2 hb.2 h
    simp [equal, value, hm, hva, hn, hV.unary op op' ha.1 hb.1 hn]
  case binary.binary op l r op' l' r' =>
    obtain ⟨hn, h⟩ := h
    simp only [Vocabulary.Has] at ha hb
    obtain ⟨⟨ho, hf⟩, hal, har⟩ := ha
    obtain ⟨⟨ho', hf'⟩, hbl, hbr⟩ := hb
    rcases h with ⟨hl, hr⟩ | ⟨hl, hr⟩
    · obtain ⟨hs, hv⟩ := equal_sound hV hal hbl hl
      obtain ⟨hsr, hvr⟩ := equal_sound hV har hbr hr
      simp [equal, value, hs, hsr, hv, hvr, hn, hV.binary op op' ho ho' hn]
    · obtain ⟨hs, hv⟩ := equal_sound hV har hbl hl
      obtain ⟨hsr, hvr⟩ := equal_sound hV hal hbr hr
      refine ⟨by simp [equal, hs, hsr, hn], ?_⟩
      rw [value, value, hv, hvr]
      rcases hf with hf | hd
      · exact hV.free op op' ho ho' hf hn σ _ _
      · rcases hf' with hf' | hd'
        · exact (hV.free op' op ho' ho hf' hn.symm σ _ _).symm
        · rw [not_crosswise hd hd'] at hl
          cases hl
  case comparison.comparison l r l' r' =>
    simp only [Vocabulary.Has] at ha hb
    rcases h with ⟨hl, hr⟩ | ⟨hl, hr⟩
    · obtain ⟨hs, hv⟩ := equal_sound hV ha.2.1 hb.2.1 hl
      obtain ⟨hsr, hvr⟩ := equal_sound hV ha.2.2 hb.2.2 hr
      simp [equal, value, hs, hsr, hv, hvr]
    · rw [not_crosswise (ha.1.resolve_left hV.comparison) (hb.1.resolve_left hV.comparison)] at hl
      cases hl
  case multipleParents.multipleParents ps qs =>
    simp only [Vocabulary.Has] at ha hb
    obtain ⟨hm, hvs⟩ := equalParents_sound hV ha hb h
    rw [equal, value, value, hvs]
    exact ⟨hm, rfl⟩
termination_by a b => sizeOf a + sizeOf b

theorem equalParents_sound (hV : V.Consistent) : ∀ {ps qs}, V.HasAll ps → V.HasAll qs → equalParents ps qs = true →
    equalParents qs ps = true ∧ values σ ps = values σ qs
  | [], [], _, _, _ => by simp [equalParents]
  | p :: ps, q :: qs, hp, hq, h => by
    simp only [equalParents, Vocabulary.HasAll, Bool.and_eq_true] at h hp hq
    obtain ⟨hs, hl⟩ := equal_sound hV hq.1 hp.1 h.1
    obtain ⟨hm, hv⟩ := equalParents_sound hV hp.2 hq.2 h.2
    simp [equalParents, values, hs, hl, hm, hv]
  | [], _ :: _, _, _, h | _ :: _, [], _, _, h => by simp [equalParents] at h
termination_by ps qs => sizeOf ps + sizeOf qs

end

/-! ## Memory locations -/

/-- The register and the offset of the form that `extract` looks for: constants added to a register. -/
def memoryForm : TreeNode → Option (TreeNode × Word)
  | binary .add (physicalRegister reg width) (constant c) => some (physicalRegister reg width, c)
  | binary .add l (constant c) => (memoryForm l).map fun form => (form.1, form.2 + c)
  | _ => none

def memLocation (tree : TreeNode) : TreeNode × Word := (memoryForm tree).getD (tree, 0)

/-- operator== of MemLocation -/
def sameLocation (a b : TreeNode) : Bool := equal (memLocation a).1 (memLocation b).1 && (memLocation a).2 = (memLocation b).2

/-- Equality is symmetric on the two trees, and what is equal denotes the same. -/
def Sound (a b : TreeNode) : Prop :=
  equal a b = equal b a ∧ (equal a b = true → ∀ σ, value σ a = value σ b) ∧
    (sameLocation a b = true → ∀ σ, value σ a = value σ b)

end TreeNode

end Egalito.SlicingTree
