/-
Runs of the mutator: any sequence of its operations, on chunks that are where the operation expects them, without a
pointer left over from an earlier removal.

One step is shown to keep the structure of the tree in every mode (`step_keeps`), and in the default mode to return and to
keep the positions (`step_ok`), for which the mutated chunk needs an address; both are then carried over whole runs. The
two operations that break the structure are those that `Sound` leaves out: `append` of a chunk with a next pointer, and
`insertAfter(NULL)` into a list that is not empty.
-/
import Egalito.Lib.Run
import Egalito.Operation.Layout

namespace Egalito

open Heap Mutator List

variable {S : Type} [Sized S] {h h1 h' : Heap S} {mode : Mode} {b c x p : Ref} {l₁ l₂ : List Ref} {a : Address}

/-! ## Operations -/

/-- A call of the mutator of chunk `c`; `updatePositions` is its destructor. -/
inductive Op (S : Type)
  | append (c x : Ref)
  | prepend (c x : Ref)
  | insertAfter (c : Ref) (point : Option Ref) (x : Ref)
  | insertBefore (c : Ref) (point : Option Ref) (x : Ref)
  | insertBeforeJumpTo (c : Ref) (point : Option Ref) (x : Ref)
  | remove (c x : Ref)
  | removeLast (c : Ref) (n : Nat)
  | resize (c x : Ref) (s : S)
  | splitBlockBefore (c point : Ref)
  | updatePositions (c : Ref)

/-- One call of the mutator. -/
def step (mode : Mode) (h : Heap S) : Op S → Except Failure (Heap S)
  | .append c x => append mode h c x
  | .prepend c x => prepend mode h c x
  | .insertAfter c point x => insertAfter mode h c point x
  | .insertBefore c point x => insertBefore mode h c point x
  | .insertBeforeJumpTo c point x => insertBeforeJumpTo mode h c point x
  | .remove c x => remove mode h c x
  | .removeLast c n => removeLast mode h c n
  | .resize c x s => resize mode h c x s
  | .splitBlockBefore c point => splitBlockBefore mode h c point
  | .updatePositions c => updatePositions mode h c

/-- `x` may be put into the list of `c`, a block or function. -/
structure Addable (h : Heap S) (c x : Ref) : Prop where
  insertable : Insertable h c x
  tracked : Tracked h c

/-- `append` leaves the next pointer of its argument alone unless the list is empty. -/
def NoStaleNext (h : Heap S) (c x : Ref) : Prop := h.children c = [] ∨ h.next x = none

/-- What the structure of the tree asks of a call. -/
def Sound (h : Heap S) : Op S → Prop
  | .append c x => Addable h c x ∧ NoStaleNext h c x
  | .prepend c x => Addable h c x
  | .insertAfter c (some p) x => Addable h c x ∧ p ∈ h.children c
  -- the old first child is not linked to the new one
  | .insertAfter c none x => Addable h c x ∧ h.children c = []
  | .insertBefore c (some p) x => Addable h c x ∧ p ∈ h.children c
  | .insertBefore c none x => Addable h c x ∧ NoStaleNext h c x
  | .insertBeforeJumpTo c (some p) x => Addable h c x ∧ h.kind c = .block ∧ p ∈ h.children c
  | .insertBeforeJumpTo c none x => Addable h c x ∧ NoStaleNext h c x
  | .remove c x => Rooted h c ∧ x ∈ h.children c
  | .removeLast c n => Rooted h c ∧ Tracked h c ∧ n ≤ (h.children c).length
  | .resize c x _ => Rooted h c ∧ h.kind c = .block ∧ x ∈ h.children c
  | .splitBlockBefore c p => Rooted h c ∧ h.kind c = .function ∧ ∃ b ∈ h.children c, p ∈ h.children b
  | .updatePositions c => Rooted h c

/-- What new positions ask of a call: the mutated chunk has an address. -/
def Addressed (h : Heap S) : Op S → Prop
  | .append c _ | .prepend c _ | .insertAfter c _ _ | .insertBefore c _ _ | .insertBeforeJumpTo c _ _
  | .splitBlockBefore c _ => ∃ a, At h c a
  | .remove _ _ | .removeLast _ _ | .resize _ _ _ | .updatePositions _ => True

/-- The conditions of the default mode. -/
def Allowed (h : Heap S) (op : Op S) : Prop := Sound h op ∧ Addressed h op

/-! ## One step -/

omit [Sized S] in
theorem Tracked.childType (ht : Tracked h c) : (h.kind c).childType.isSome := by
  rcases ht with ht | ht <;> rw [ht] <;> rfl

theorem exists_suffix {l : List Ref} {n : Nat} (hn : n ≤ l.length) : ∃ l₁ l₂, l = l₁ ++ l₂ ∧ n = l₂.length :=
  ⟨l.take (l.length - n), l.drop (l.length - n), (take_append_drop ..).symm, by
    rw [length_drop]
    omega⟩

omit [Sized S] in
theorem instruction_of_mem (hl : Linkage h) (hb : h.kind b = .block) (hx : x ∈ h.children b) :
    h.kind x = .instruction := by
  have := (hl.linked b).kind x hx
  rw [hb] at this
  exact (Option.some.inj this).symm

/-- What a sound step keeps, whatever the mode: the structure of the tree, and the kinds of the
chunks there are. -/
structure StepKeeps (h h' : Heap S) : Prop where
  wellFormed : WellFormed h'
  kind : ∀ z, z < h.fresh → h'.kind z = h.kind z
  fresh : h.fresh ≤ h'.fresh

theorem StepKeeps.of_kind (hw : WellFormed h') (hk : h'.kind = h.kind) (hf : h'.fresh = h.fresh) : StepKeeps h h' :=
  ⟨hw, fun z _ => by rw [hk], hf.ge⟩

theorem InsertedWF.keeps (hi : InsertedWF h h' c l₁ x l₂) : StepKeeps h h' := by
  obtain ⟨⟨h1, hi, ha⟩, hw⟩ := hi
  exact .of_kind hw (ha.kind.trans hi.payload.kind) (ha.fresh.trans hi.payload.fresh)

theorem RemovedWF.keeps (hr : RemovedWF h h' c l₁ x l₂) : StepKeeps h h' := by
  obtain ⟨⟨h1, hr, ha⟩, hw⟩ := hr
  exact .of_kind hw (ha.kind.trans hr.payload.kind) (ha.fresh.trans hr.payload.fresh)

theorem SplitWF.keeps {B1 B2} (hs : SplitWF h h' c b l₁ l₂ B1 B2) : StepKeeps h h' :=
  ⟨hs.wellFormed, fun z hz => by rw [hs.kind, Function.update_of_ne (ne_of_lt hz)], by
    rw [hs.fresh]
    exact Nat.le_succ _⟩

theorem insertBeforeJumpTo_keeps (hw : WellFormed h) (hx : Insertable h c x) (hb : h.kind c = .block)
    (hc : h.children c = l₁ ++ p :: l₂) (hr : insertAfter mode h c (some p) x = .ok h') :
    StepKeeps h (swapSemantics h' p x) := by
  have hk := (insertAfter_spec hw hx hc hr).keeps
  obtain ⟨⟨h1, hi, ha⟩, hw'⟩ := insertAfter_spec hw hx hc hr
  have hh : h'.children c = l₁ ++ [p] ++ x :: l₂ := by rw [ha.children, hi.children, Function.update_self]
  have hb' : h'.kind c = .block := by rw [ha.kind, hi.payload.kind, hb]
  have hp : p ∈ h'.children c := by rw [hh]; simp
  have hx' : x ∈ h'.children c := by rw [hh]; simp
  have hs := swapSemantics_wellFormed hw' hp hx' (instruction_of_mem hw'.toLinkage hb' hp)
    (instruction_of_mem hw'.toLinkage hb' hx')
  exact ⟨hs, hk.kind, hk.fresh⟩

theorem step_keeps (hw : WellFormed h) : ∀ {op : Op S}, Sound h op → step mode h op = .ok h' → StepKeeps h h'
  | .append c x, ⟨hx, hs⟩, hrn => (append_spec hw hx.insertable hs hrn).keeps
  | .prepend c x, hx, hrn => by
    rw [step, prepend] at hrn
    split at hrn
    · rename_i hc
      exact (append_spec hw hx.insertable (.inl hc) hrn).keeps
    · rename_i q l hc
      exact (insertBefore_spec hw hx.insertable (show h.children c = [] ++ q :: l from hc) hrn).keeps
  | .insertAfter c (some p) x, ⟨hx, hp⟩, hrn => by
    obtain ⟨l₁, l₂, hc⟩ := append_of_mem hp
    exact (insertAfter_spec hw hx.insertable hc hrn).keeps
  | .insertAfter c none x, ⟨hx, hc⟩, hrn => (insertAfter_null_spec hw hx.insertable hc hrn).keeps
  | .insertBefore c (some p) x, ⟨hx, hp⟩, hrn => by
    obtain ⟨l₁, l₂, hc⟩ := append_of_mem hp
    exact (insertBefore_spec hw hx.insertable hc hrn).keeps
  | .insertBefore c none x, ⟨hx, hs⟩, hrn => (append_spec hw hx.insertable hs hrn).keeps
  | .insertBeforeJumpTo c (some p) x, ⟨hx, hb, hp⟩, hrn => by
    obtain ⟨l₁, l₂, hc⟩ := append_of_mem hp
    obtain ⟨h1, h01, hsp⟩ := Lib.bind_iff.1 hrn
    cases hsp
    exact insertBeforeJumpTo_keeps hw hx.insertable hb hc h01
  | .insertBeforeJumpTo c none x, ⟨hx, hs⟩, hrn => (append_spec hw hx.insertable hs hrn).keeps
  | .remove c x, ⟨hr, hx⟩, hrn => by
    obtain ⟨l₁, l₂, hc⟩ := append_of_mem hx
    exact (remove_spec hw hr hc hrn).keeps
  | .removeLast c n, ⟨hr, ht, hn⟩, hrn => by
    obtain ⟨l₁, l₂, hc, rfl⟩ := exists_suffix hn
    obtain ⟨htr, hw'⟩ := removeLast_spec hw hr ht.childType hc hrn
    exact .of_kind hw' htr.kind htr.fresh
  | .resize c x s, ⟨hr, hb, hx⟩, hrn => by
    obtain ⟨ha, hw'⟩ := resize_spec hw hr hx (instruction_of_mem hw.toLinkage hb hx) hrn
    exact .of_kind hw' ha.kind ha.fresh
  | .splitBlockBefore c p, ⟨hr, hk, b, hb, hp⟩, hrn => by
    obtain ⟨B1, B2, hB⟩ := append_of_mem hb
    obtain ⟨l₁, l₂, hc⟩ := append_of_mem hp
    exact (splitBlockBefore_spec hw hr hk hB hc hrn).keeps
  | .updatePositions c, _, hrn => by
    have hs := updatePositions_sameTree hrn
    exact .of_kind (hw.sameTree hs) hs.agree.kind hs.agree.fresh

/-! ## One step in the default mode -/

/-- What an allowed step keeps of the positions: their shape, and where the functions are. -/
structure StepPositions (h h' : Heap S) : Prop where
  positioned : Positioned h'
  functions : ∀ z, z < h.fresh → h.kind z = .function → h'.position z = h.position z

omit [Sized S] in
theorem KeepsAbove.functions (ht : Tracked h c) (hk : KeepsAbove h h' c) (z : Ref) (hz : h.kind z = .function) :
    h'.position z = h.position z := by
  refine hk z ?_
  rw [hz]
  rcases ht with ht | ht
  · rw [ht]; decide
  · rw [ht]

omit [Sized S] in
theorem StepPositions.of_above (hp : Positioned h') (ht : Tracked h c) (hk : KeepsAbove h h' c) : StepPositions h h' :=
  ⟨hp, fun z _ => hk.functions ht z⟩

omit [Sized S] in
theorem StepPositions.of_eq (hp : Positioned h') (he : h'.position = h.position) : StepPositions h h' :=
  ⟨hp, fun z _ _ => by rw [he]⟩

section

variable (hw : WellFormed h) (hp : Positioned h)
include hw hp

section

variable (hx : Addable h c x) (ha : ∃ a, At h c a)
include hx ha

theorem append_addable_ok (hs : NoStaleNext h c x) : ∃ h', append .offset h c x = .ok h' ∧ StepPositions h h' := by
  obtain ⟨a, ha⟩ := ha
  obtain ⟨h', hr, hp', hk⟩ := append_ok hw hx.insertable hs hx.tracked hp ha
  exact ⟨h', hr, .of_above hp' hx.tracked hk⟩

theorem insertAfter_addable_ok {q} (hi : Inserted h (insertAfterLinks h c q x) c l₁ x l₂) :
    ∃ h', insertAfter .offset h c q x = .ok h' ∧ StepPositions h h' := by
  obtain ⟨a, ha⟩ := ha
  obtain ⟨h', hr, hp', hk⟩ := insertAfter_ok hw hx.insertable hx.tracked hp ha hi
  exact ⟨h', hr, .of_above hp' hx.tracked hk⟩

theorem insertAfter_point_ok (hc : p ∈ h.children c) :
    ∃ h', insertAfter .offset h c (some p) x = .ok h' ∧ StepPositions h h' := by
  obtain ⟨l₁, l₂, hc⟩ := append_of_mem hc
  exact insertAfter_addable_ok hw hp hx ha
    (insertAfterLinks_inserted hw.toLinkage hx.insertable.kind hx.insertable.detached hc)

theorem insertBefore_point_ok (hc : h.children c = l₁ ++ p :: l₂) :
    ∃ h', insertBefore .offset h c (some p) x = .ok h' ∧ StepPositions h h' := by
  obtain ⟨a, ha⟩ := ha
  obtain ⟨h', hr, hp', hk⟩ := insertBefore_ok hw hx.insertable hx.tracked hp ha hc
  exact ⟨h', hr, .of_above hp' hx.tracked hk⟩

end

theorem step_ok : ∀ {op : Op S}, Allowed h op → ∃ h', step .offset h op = .ok h' ∧ StepPositions h h'
  | .append c x, ⟨⟨hx, hs⟩, ha⟩ => append_addable_ok hw hp hx ha hs
  | .prepend c x, ⟨hx, ha⟩ => by
    rw [step, prepend]
    split
    · rename_i hc
      exact append_addable_ok hw hp hx ha (.inl hc)
    · rename_i q l hc
      exact insertBefore_point_ok hw hp hx ha (show h.children c = [] ++ q :: l from hc)
  | .insertAfter c (some p) x, ⟨⟨hx, hc⟩, ha⟩ => insertAfter_point_ok hw hp hx ha hc
  | .insertAfter c none x, ⟨⟨hx, hc⟩, ha⟩ =>
    insertAfter_addable_ok hw hp hx ha (insertAfterLinks_null hx.insertable.kind hc)
  | .insertBefore c (some p) x, ⟨⟨hx, hc⟩, ha⟩ => by
    obtain ⟨l₁, l₂, hc⟩ := append_of_mem hc
    exact insertBefore_point_ok hw hp hx ha hc
  | .insertBefore c none x, ⟨⟨hx, hs⟩, ha⟩ => append_addable_ok hw hp hx ha hs
  | .insertBeforeJumpTo c (some p) x, ⟨⟨hx, _, hc⟩, ha⟩ => by
    obtain ⟨h1, h01, hp1, hf1⟩ := insertAfter_point_ok hw hp hx ha hc
    exact ⟨swapSemantics h1 p x, by rw [step, insertBeforeJumpTo, Lib.ok_bind h01], ⟨hp1.shape, hp1.child⟩, hf1⟩
  | .insertBeforeJumpTo c none x, ⟨⟨hx, hs⟩, ha⟩ => append_addable_ok hw hp hx ha hs
  | .remove c x, ⟨⟨hr, hx⟩, _⟩ => by
    obtain ⟨l₁, l₂, hc⟩ := append_of_mem hx
    obtain ⟨h', hrn, hp', he⟩ := remove_ok hw hr hp hc
    exact ⟨h', hrn, .of_eq hp' he⟩
  | .removeLast c n, ⟨⟨hr, ht, hn⟩, _⟩ => by
    obtain ⟨l₁, l₂, hc, rfl⟩ := exists_suffix hn
    obtain ⟨h', hrn, hp', he⟩ := removeLast_ok hw hr ht.childType hp hc
    exact ⟨h', hrn, .of_eq hp' he⟩
  | .resize c x s, ⟨⟨hr, hb, hx⟩, _⟩ => by
    obtain ⟨h', hrn, hp', he⟩ := resize_ok s hw hr hp hx (instruction_of_mem hw.toLinkage hb hx)
    exact ⟨h', hrn, .of_eq hp' he⟩
  | .splitBlockBefore c p, ⟨⟨hr, hk, b, hb, hpb⟩, a, ha⟩ => by
    obtain ⟨B1, B2, hB⟩ := append_of_mem hb
    obtain ⟨l₁, l₂, hc⟩ := append_of_mem hpb
    obtain ⟨h', hrn, hp', hf⟩ := splitBlockBefore_ok hw hr hk hp ha hB hc
    exact ⟨h', hrn, hp', fun z hz hkz => hf z hz (by rw [hkz, hk])⟩
  | .updatePositions c, ⟨hr, _⟩ => by
    obtain ⟨h', hrn, -, hp', hf, -, -⟩ := updatePositions_ok hw.toLinkage hp hr
    exact ⟨h', hrn, hp', fun z _ hkz => hf z (by rw [hkz])⟩

theorem step_positions {op} (ha : Allowed h op) (hr : step .offset h op = .ok h') : StepPositions h h' := by
  obtain ⟨h1, h01, hp1⟩ := step_ok hw hp ha
  rw [hr] at h01
  cases h01
  exact hp1

end

/-- The states of the runs whose steps are all sound. -/
def SoundRun (mode : Mode) (h h' : Heap S) : Prop := Lib.Reach (step mode) Sound h h'

/-- The states of the runs whose steps are all allowed. -/
def Reaches (mode : Mode) (h h' : Heap S) : Prop := Lib.Reach (step mode) Allowed h h'

theorem SoundRun.keeps (hr : SoundRun mode h h') (hw : WellFormed h) : StepKeeps h h' := by
  refine hr.invariant (I := StepKeeps h) ⟨hw, fun _ _ => rfl, le_rfl⟩ fun s op s' hs ha hn => ?_
  have hk := step_keeps hs.wellFormed ha hn
  exact ⟨hk.wellFormed, fun z hz => by rw [hk.kind z (lt_of_lt_of_le hz hs.fresh), hs.kind z hz], hs.fresh.trans hk.fresh⟩

theorem Reaches.sound (hr : Reaches mode h h') : SoundRun mode h h' := by
  induction hr with
  | start => exact .start
  | next _ ha hn ih => exact .next ih ha.1 hn

theorem Reaches.positions (hr : Reaches .offset h h') (hw : WellFormed h) (hp : Positioned h) :
    StepKeeps h h' ∧ StepPositions h h' := by
  induction hr with
  | start => exact ⟨⟨hw, fun _ _ => rfl, le_rfl⟩, hp, fun _ _ _ => rfl⟩
  | @next s s' op hs ha hn ih =>
    obtain ⟨hk, hq⟩ := ih
    have hq' := step_positions hk.wellFormed hq.positioned ha hn
    refine ⟨(Reaches.sound (.next hs ha hn)).keeps hw, hq'.positioned, fun z hz hkz => ?_⟩
    rw [hq'.functions z (lt_of_lt_of_le hz hk.fresh) (by rw [hk.kind z hz, hkz]), hq.functions z hz hkz]

/-- Structural invariant of the mutator: in every mode, in every state that sound steps reach, the sibling pointers are
the neighbours in the lists, the parents are right and the size of every block and function is the sum of the sizes of its
children. In the default mode no sound call of the mutator of a chunk with an address fails. -/
theorem mutator_keeps_structure (hw : WellFormed h) : (∀ h', SoundRun mode h h' → WellFormed h') ∧
    (Positioned h → ∀ h', Reaches .offset h h' → ∀ op, Allowed h' op → ∃ h'', step .offset h' op = .ok h'') := by
  refine ⟨fun h' hr => (hr.keeps hw).wellFormed, fun hp h' hr op ha => ?_⟩
  obtain ⟨hk, hq⟩ := hr.positions hw hp
  obtain ⟨h'', hrun, -⟩ := step_ok hk.wellFormed hq.positioned ha
  exact ⟨h'', hrun⟩

/-! ## A small heap -/

/-- Semantics that are nothing but a size. -/
instance : Sized Nat := ⟨id⟩

/-- A function 0 at `0x1000`, a block 1, a function list 2 and instructions as large as their numbers. -/
def sampleHeap : Heap Nat where
  kind
    | 0 => .function
    | 1 => .block
    | 2 => .functionList
    | _ => .instruction
  parent _ := none
  prev _ := none
  next _ := none
  children _ := []
  computedSize _ := 0
  semantic x := x
  position
    | 0 => some ⟨.absolute 0x1000, .plain⟩
    | _ => none
  fresh := 8

theorem wellFormed_of_empty (hc : ∀ c, h.children c = []) (hs : ∀ c, h.computedSize c = 0) : WellFormed h where
  linked c := by
    refine ⟨?_, ?_, ?_, ?_⟩ <;> rw [hc]
    · exact nodup_nil
    · trivial
    · simp
    · simp
  allocated c x hx := by
    rw [hc] at hx
    cases hx
  balanced c _ := by
    rw [total, hc, hs]
    rfl

theorem sampleHeap_wellFormed : WellFormed sampleHeap := wellFormed_of_empty (fun _ => rfl) (fun _ => rfl)

theorem sampleHeap_positioned : Positioned sampleHeap where
  shape
    | 0 => .inr (.inr ⟨0x1000, rfl⟩)
    | 1 => .inl rfl
    | 2 => rfl
    | _ + 3 => .inl rfl
  child _ _ x hx := by cases hx

theorem sampleHeap_allowed : Allowed sampleHeap (.append 0 1) :=
  ⟨⟨⟨⟨.top rfl, rfl, nofun, by decide⟩, .inr rfl⟩, .inl rfl⟩, 0x1000, .absolute rfl⟩

theorem mutator_keeps_structure_sample :
    ∃ h', step .offset sampleHeap (.append 0 1) = .ok h' ∧ h'.children 0 = [1] ∧ WellFormed h' ∧
      ∃ h'', step .offset h' (.updatePositions 0) = .ok h'' := by
  obtain ⟨h', hrun, -⟩ := step_ok sampleHeap_wellFormed sampleHeap_positioned sampleHeap_allowed
  have hr : Reaches .offset sampleHeap h' := .next .start sampleHeap_allowed hrun
  obtain ⟨hw, hpg⟩ := @mutator_keeps_structure Nat _ sampleHeap .offset sampleHeap_wellFormed
  obtain ⟨⟨h1, hi, hag⟩, -⟩ := append_spec sampleHeap_wellFormed sampleHeap_allowed.1.1.insertable (.inl rfl) hrun
  refine ⟨h', hrun, ?_, hw h' hr.sound, hpg sampleHeap_positioned h' hr _ ⟨.top ?_, trivial⟩⟩
  · rw [hag.children, hi.children, Function.update_self]
    rfl
  · rw [hag.parent, hi.parent]
    rfl

def run (mode : Mode) (h : Heap S) (ops : List (Op S)) : Except Failure (Heap S) := ops.foldlM (step mode) h

def listedHeap : Heap Nat := (sampleHeap.setChildren 2 [0]).setParent 0 (some 2)

/-- Instruction 3 is removed and appended again, and its next sibling is still the instruction before it; instruction 4 is
    inserted after NULL, and the old first instruction has no previous sibling. The function list has size 0 with a function
    of 7 bytes in it. -/
theorem not_structure_append_removed :
    (run .offset listedHeap [.append 0 1, .append 1 3, .append 1 4, .remove 1 3, .append 1 3]).toOption.map
      (fun h => (h.children 1, h.next 3, h.children 2, h.getSize 0, h.getSize 2)) =
      some ([4, 3], some 4, [0], 7, 0) ∧
    (run .offset sampleHeap [.append 0 1, .append 1 3, .insertAfter 1 none 4]).toOption.map
      (fun h => (h.children 1, h.prev 3, h.next 4)) = some ([4, 3], none, none) := by
  decide

end Egalito
