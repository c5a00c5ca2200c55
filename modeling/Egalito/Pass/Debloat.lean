/-
`DebloatPass::visit` (`pass/debloat.cpp`): a loop over the function list removes the functions that are not in
`usedList`, and every removal erases an element of the vector that the loop goes through.

The vector under erasure is `Lib.Storage`: the loop reads cells that have moved. `visit_children_iff` says when the
functions that remain are those of `usedList`.
-/
import Egalito.Operation.Mutator
import Egalito.Lib.Storage
import Mathlib.Data.Finset.Basic

namespace Egalito.Debloat

open Lib Mutator List Storage

variable {S : Type}

/-- The heap, and the cells of the list's vector behind its end. -/
structure Iteration (S : Type) where
  heap : Heap S
  stale : List Ref

def Iteration.storage (it : Iteration S) (list : Ref) : Storage Ref := ⟨it.heap.children list, it.stale⟩

section
variable [Sized S]

/-- The body of the loop at the cell `i`: `m.remove(f)` unless `f` is used. -/
def visitCell (usedList : Finset Ref) (list : Ref) (it : Iteration S) (i : Nat) : Except Failure (Iteration S) :=
  match (it.storage list).cells[i]? with
  | none => .error .assertion
  | some f =>
    if f ∈ usedList then .ok it else do
      let h ← remove .offset it.heap list f
      .ok ⟨h, ((it.storage list).erase f).stale⟩

/-- `DebloatPass::visit` on a module with this function list; the mutator's destructor runs at the end. -/
def visit (usedList : Finset Ref) (list : Ref) (h : Heap S) : Except Failure (Heap S) := do
  let it ← (List.range (h.children list).length).foldlM (visitCell usedList list) ⟨h, []⟩
  updatePositions .offset it.heap list

end

/-! ## Removal from a function list -/

/-- The function list of a module at the top of the heap. Neither has a position. -/
structure IsFunctionList (h : Heap S) (list module : Ref) : Prop where
  kind : h.kind list = .functionList
  parent : h.parent list = some module
  position : h.position list = none
  moduleKind : h.kind module = .module
  moduleParent : h.parent module = none
  modulePosition : h.position module = none

/-- Only sibling pointers differ, and positions of chunks that have one. -/
structure SameLists (h h' : Heap S) : Prop where
  children : h'.children = h.children
  kind : h'.kind = h.kind
  parent : h'.parent = h.parent
  position : ∀ z, h.position z = none → h'.position z = none

variable {h h' h'' : Heap S} {list module f : Ref}

theorem SameLists.refl (h : Heap S) : SameLists h h := ⟨rfl, rfl, rfl, fun _ hz => hz⟩

theorem SameLists.trans (h1 : SameLists h h') (h2 : SameLists h' h'') : SameLists h h'' where
  children := h2.children.trans h1.children
  kind := h2.kind.trans h1.kind
  parent := h2.parent.trans h1.parent
  position z hz := h2.position z (h1.position z hz)

theorem sameLists_follow (h : Heap S) (x y) : SameLists h (follow h x y) where
  children := rfl
  kind := rfl
  parent := rfl
  position z hz := by
    change Function.update h.position x ((h.position x).map (·.setAfterThis y)) z = none
    by_cases hx : z = x
    · rw [hx, Function.update_self, ← hx, hz]
      rfl
    · rw [Function.update_of_ne hx, hz]

theorem sameLists_setNextSibling (h : Heap S) (c) (next) : SameLists h (setNextSibling h c next) := by
  cases next with
  | none => exact ⟨rfl, rfl, rfl, fun _ hz => hz⟩
  | some n =>
    have hs : SameLists h (h.setNext c (some n)) := ⟨rfl, rfl, rfl, fun _ hz => hz⟩
    exact hs.trans (sameLists_follow _ n c)

theorem sameLists_setPreviousSibling (h : Heap S) (c) (prev) : SameLists h (setPreviousSibling h c prev) := by
  cases prev with
  | none => exact ⟨rfl, rfl, rfl, fun _ hz => hz⟩
  | some p =>
    have hs : SameLists h (h.setPrev c (some p)) := ⟨rfl, rfl, rfl, fun _ hz => hz⟩
    exact hs.trans (sameLists_follow _ c p)

/-- Removal takes the chunk out of the list, whatever its sibling pointers are. -/
theorem removeLinks_eq (h : Heap S) (c x) :
    ∃ h', SameLists h h' ∧ removeLinks h c x = h'.setChildren c ((h'.children c).erase x) := by
  unfold removeLinks
  refine ⟨_, ?_, rfl⟩
  generalize h.next x = next
  cases h.prev x with
  | none =>
    cases next with
    | none => exact .refl h
    | some n => exact sameLists_setPreviousSibling _ n _
  | some p =>
    have hp := sameLists_setNextSibling h p next
    cases next with
    | none => exact hp
    | some n => exact hp.trans (sameLists_setPreviousSibling _ n _)

theorem removeLinks_children (h : Heap S) (c x) : (removeLinks h c x).children c = (h.children c).erase x := by
  obtain ⟨h', hs, heq⟩ := removeLinks_eq h c x
  rw [heq, ← hs.children]
  exact Function.update_self ..

theorem IsFunctionList.removeLinks (hl : IsFunctionList h list module) : IsFunctionList (removeLinks h list f) list module := by
  obtain ⟨h', hs, heq⟩ := removeLinks_eq h list f
  rw [heq]
  constructor
  · exact (congrFun hs.kind list).trans hl.kind
  · exact (congrFun hs.parent list).trans hl.parent
  · exact hs.position list hl.position
  · exact (congrFun hs.kind module).trans hl.moduleKind
  · exact (congrFun hs.parent module).trans hl.moduleParent
  · exact hs.position module hl.modulePosition

variable [Sized S]

/-- A function list has no size to bring up to date. -/
theorem remove_eq (hl : IsFunctionList h list module) : remove .offset h list f = .ok (removeLinks h list f) := by
  have hl' := hl.removeLinks (f := f)
  have hb : (removeLinks h list f).belowModule list = .ok [list] := by
    simp only [Heap.belowModule, Heap.levels, Heap.ancestors, Heap.isModule, hl'.kind, hl'.parent, hl'.moduleKind]
    rfl
  have hs : subtractFromSizes (removeLinks h list f) list (h.getSize f) = .ok (removeLinks h list f) := by
    have hz : (removeLinks h list f).getSize list = 0 := by simp only [Heap.getSize, hl'.kind]
    rw [subtractFromSizes, ok_bind hb, foldlM_cons, if_neg (by simp [hz])]
    rfl
  have hc : checkChildren h list = .ok () := by simp only [checkChildren, hl.kind]; rfl
  rw [remove, ok_bind hc, ok_bind hs]
  rfl

theorem updatePositions_eq (hl : IsFunctionList h list module) : updatePositions .offset h list = .ok h := by
  have hu : h.ancestors (fun _ => false) Heap.levels (some list) = .ok [list, module] := by
    simp only [Heap.levels, Heap.ancestors, hl.parent, hl.moduleParent]
    rfl
  have hlt : updateIfAbsolute h list = .ok h := if_neg (by simp [hl.position])
  have hm : updateIfAbsolute h module = .ok h := if_neg (by simp [hl.modulePosition])
  rw [updatePositions, if_pos (show Mode.offset.needsUpdatePasses = true from rfl), ok_bind hu, foldlM_cons, ok_bind hlt, foldlM_cons,
    ok_bind hm]
  rfl

/-! ## The whole loop -/

variable (usedList : Finset Ref) {it : Iteration S}

/-- One round is one step of the loop through the vector's storage. -/
theorem visitCell_eq (hl : IsFunctionList it.heap list module) {i} (hi : i < (it.storage list).cells.length) :
    ∃ it', visitCell usedList list it i = .ok it' ∧ IsFunctionList it'.heap list module ∧
      it'.storage list = sweepCell (fun f => decide (f ∈ usedList)) (it.storage list) i := by
  have hc := getElem?_eq_getElem hi
  generalize (it.storage list).cells[i] = f at hc
  unfold visitCell
  rw [hc]
  dsimp only
  by_cases hf : f ∈ usedList
  · refine ⟨it, if_pos hf, hl, ?_⟩
    rw [sweepCell_of_keep hc (by simp [hf])]
  · refine ⟨⟨removeLinks it.heap list f, ((it.storage list).erase f).stale⟩, ?_, hl.removeLinks, ?_⟩
    · rw [if_neg hf, ok_bind (remove_eq hl)]
    · rw [sweepCell_of_not_keep hc (by simp [hf]), Iteration.storage, removeLinks_children]
      exact congrArg (mk · _) ((it.storage list).live_erase f).symm

theorem foldlM_visitCell : ∀ (l : List Nat) (it : Iteration S), IsFunctionList it.heap list module →
    (∀ i ∈ l, i < (it.storage list).cells.length) →
      ∃ it', l.foldlM (visitCell usedList list) it = .ok it' ∧ IsFunctionList it'.heap list module ∧
        it'.storage list = l.foldl (sweepCell fun f => decide (f ∈ usedList)) (it.storage list)
  | [], it, hl, _ => ⟨it, rfl, hl, rfl⟩
  | i :: l, it, hl, hlt => by
    obtain ⟨it1, hc, hl1, hs1⟩ := visitCell_eq usedList hl (hlt i mem_cons_self)
    have ht1 : ∀ j ∈ l, j < (it1.storage list).cells.length := by
      intro j hj
      rw [hs1, length_cells_sweepCell]
      exact hlt j (mem_cons_of_mem i hj)
    obtain ⟨it2, hr, hl2, hs2⟩ := foldlM_visitCell l it1 hl1 ht1
    refine ⟨it2, ?_, hl2, ?_⟩
    · rw [foldlM_cons, ok_bind hc, hr]
    · rw [hs2, hs1, foldl_cons]

theorem visit_eq (hl : IsFunctionList h list module) : ∃ h', visit usedList list h = .ok h' ∧
      h'.children list = (sweep (fun f => decide (f ∈ usedList)) (h.children list)).live := by
  have hlt : ∀ i ∈ range (h.children list).length, i < (Iteration.storage ⟨h, []⟩ list).cells.length := by
    intro i hi
    simpa [Iteration.storage, cells] using hi
  obtain ⟨it, hr, hs, hsr⟩ := foldlM_visitCell usedList _ ⟨h, []⟩ hl hlt
  refine ⟨it.heap, ?_, congrArg live hsr⟩
  rw [visit, ok_bind hr, updatePositions_eq hs]

/-- The functions that are left are those in use, in their order, exactly if no two neighbours are unused, except
    for the last two. -/
theorem visit_children_iff (h : Heap S) (list module : Ref) (usedList : Finset Ref)
    (hl : IsFunctionList h list module) (hnodup : (h.children list).Nodup) :
    ∃ h', visit usedList list h = .ok h' ∧
      (h'.children list = (h.children list).filter (fun f => decide (f ∈ usedList)) ↔
        Storage.Isolated (fun f => decide (f ∈ usedList)) (h.children list)) := by
  obtain ⟨h', hrun, hcl⟩ := visit_eq usedList hl
  refine ⟨h', hrun, ?_⟩
  rw [hcl, live_sweep hnodup, spared_eq_filter]

/-- A function list (10) with the functions 1 to 3 in the module 11. -/
def threeFunctions : Heap Unit where
  kind c := if c = 10 then .functionList else if c = 11 then .module else .function
  parent c := if c = 10 then some 11 else if c = 11 then none else some 10
  prev c := if c = 2 then some 1 else if c = 3 then some 2 else none
  next c := if c = 1 then some 2 else if c = 2 then some 3 else none
  children c := if c = 10 then [1, 2, 3] else if c = 11 then [10] else []
  computedSize _ := 0
  semantic _ := ()
  position c := if c < 10 then some ⟨.absolute (16 * c), .plain⟩ else none
  fresh := 12

instance : Sized Unit := ⟨fun _ => 0⟩

theorem isFunctionList_threeFunctions : IsFunctionList threeFunctions 10 11 := ⟨rfl, rfl, rfl, rfl, rfl, rfl⟩

theorem visit_children_iff_threeFunctions : IsFunctionList threeFunctions 10 11 ∧ (threeFunctions.children 10).Nodup ∧
    ∃ h', visit {2} 10 threeFunctions = .ok h' ∧
      (h'.children 10 = (threeFunctions.children 10).filter (fun f => decide (f ∈ ({2} : Finset Ref))) ↔
        Storage.Isolated (fun f => decide (f ∈ ({2} : Finset Ref))) (threeFunctions.children 10)) :=
  ⟨isFunctionList_threeFunctions, by decide,
    visit_children_iff threeFunctions 10 11 {2} isFunctionList_threeFunctions (by decide)⟩

/-- Of three unused functions the second stays. -/
theorem visit_leaves_unused :
    (visit ∅ 10 threeFunctions).map (·.children 10) = .ok [2] := by
  rfl

end Egalito.Debloat
