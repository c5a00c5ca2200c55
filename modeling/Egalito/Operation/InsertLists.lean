/-
Inserting lists of instructions (`operation/mutator.cpp`): `insertAfter` and `insertBefore` for vectors, and
`insertBeforeJumpTo` with the pointers from semantics back to their instructions.

An insertion of a list is a fold of single ones. Its effect on the list of children is stated for all of them, and
`insertListBefore_iff` adds when each new instruction is the source of its own semantic.
-/
import Egalito.Operation.Runs

namespace Egalito.InsertLists

open Lib Heap Mutator List
open Function (update update_of_ne update_self)
open InsertedWF Equiv

/-- The classes `LinkedInstructionBase` and `ControlFlowInstructionBase`, and the others. -/
inductive Form where
  | linked
  | controlFlow
  | other
  deriving DecidableEq

/-- A semantic object; the identity stands for its address. -/
structure Semantic where
  id : Nat
  form : Form
  size : Nat
  deriving DecidableEq

instance : Sized Semantic := ⟨Semantic.size⟩

structure State where
  heap : Heap Semantic
  /-- The `instruction` of a linked semantic and the `source` of a control flow one. -/
  source : Nat → Option Ref

/-- `setInstruction` or `setSource`, for a semantic that has one. -/
def setSource (source : Nat → Option Ref) (s : Semantic) (x : Ref) : Nat → Option Ref :=
  match s.form with
  | .linked | .controlFlow => update source s.id (some x)
  | .other => source

def insertBefore (mode : Mode) (c : Ref) (point : Option Ref) (t : State) (x : Ref) : Except Failure State := do
  let h ← Mutator.insertBefore mode t.heap c point x
  .ok { t with heap := h }

def insertAfter (mode : Mode) (c : Ref) (point : Option Ref) (t : State) (x : Ref) : Except Failure State := do
  let h ← Mutator.insertAfter mode t.heap c point x
  .ok { t with heap := h }

def insertBeforeJumpTo (mode : Mode) (c : Ref) (point : Option Ref) (t : State) (x : Ref) : Except Failure State :=
  match point with
  | none => insertBefore mode c none t x
  | some p => do
    let t ← insertAfter mode c (some p) t x
    let sem1 := t.heap.semantic p
    let sem2 := t.heap.semantic x
    .ok ⟨swapSemantics t.heap p x, setSource (setSource t.source sem1 x) sem2 p⟩

/-- Each instruction is inserted after the one before. -/
def insertListAfter (mode : Mode) (c : Ref) : Option Ref → State → List Ref → Except Failure State
  | _, t, [] => .ok t
  | point, t, x :: l => do
    let t ← insertAfter mode c point t x
    insertListAfter mode c (some x) t l

/-- With `beforeJumpTo` the list is inserted from its end. -/
def insertListBefore (mode : Mode) (c : Ref) (point : Option Ref) (t : State) (l : List Ref) (beforeJumpTo : Bool) :
    Except Failure State :=
  if beforeJumpTo then l.reverse.foldlM (insertBeforeJumpTo mode c point) t else l.foldlM (insertBefore mode c point) t

/-! ## New instructions -/

variable {mode : Mode} {h h' : Heap Semantic} {t t' : State} {c p x : Ref} {point : Option Ref}
  {l l' l₂ A B : List Ref}

/-- The instructions of the list are new: different, and in no list. -/
structure Ready (h : Heap Semantic) (c : Ref) (l : List Ref) : Prop where
  wellFormed : WellFormed h
  block : h.kind c = .block
  rooted : Rooted h c
  allocated : c < h.fresh
  nodup : l.Nodup
  kind : ∀ x ∈ l, h.kind x = .instruction
  detached : ∀ x ∈ l, Detached h x
  next : ∀ x ∈ l, h.next x = none
  fresh : ∀ x ∈ l, x < h.fresh

theorem Ready.insertable (hr : Ready h c (x :: l)) : Insertable h c x := by
  constructor
  · exact hr.rooted
  · rw [hr.block, hr.kind x mem_cons_self]
    rfl
  · exact hr.detached x mem_cons_self
  · exact ⟨hr.fresh x mem_cons_self, hr.allocated⟩

theorem Ready.tail (hr : Ready h c (x :: l)) : Ready h c l :=
  ⟨hr.wellFormed, hr.block, hr.rooted, hr.allocated, (nodup_cons.1 hr.nodup).2,
    fun y hy => hr.kind y (mem_cons_of_mem x hy), fun y hy => hr.detached y (mem_cons_of_mem x hy),
    fun y hy => hr.next y (mem_cons_of_mem x hy), fun y hy => hr.fresh y (mem_cons_of_mem x hy)⟩

theorem Ready.perm (hr : Ready h c l) (hp : l'.Perm l) : Ready h c l' :=
  ⟨hr.wellFormed, hr.block, hr.rooted, hr.allocated, hp.nodup_iff.2 hr.nodup,
    fun y hy => hr.kind y (hp.mem_iff.1 hy), fun y hy => hr.detached y (hp.mem_iff.1 hy),
    fun y hy => hr.next y (hp.mem_iff.1 hy), fun y hy => hr.fresh y (hp.mem_iff.1 hy)⟩

/-- What an insertion leaves alone. -/
structure Spliced (h h' : Heap Semantic) (c : Ref) (A : List Ref) (x : Ref) (B : List Ref) : Prop where
  kind : h'.kind = h.kind
  semantic : h'.semantic = h.semantic
  fresh : h'.fresh = h.fresh
  children : h'.children = update h.children c (A ++ x :: B)
  keptAbove : KeptAbove h h' c

theorem InsertedWF.spliced (hr : Ready h c (x :: l)) (hi : InsertedWF h h' c A x B) : Spliced h h' c A x B := by
  obtain ⟨⟨h1, hi, ha⟩, -⟩ := hi
  have hv := hi.keptAbove hr.insertable.kind
  constructor
  · exact ha.kind.trans hi.payload.kind
  · exact ha.semantic.trans hi.payload.semantic
  · exact ha.fresh.trans hi.payload.fresh
  · exact ha.children.trans hi.children
  · constructor
    · intro y hy
      rw [ha.parent, hv.parent y hy]
    · intro y d hy hd
      rw [ha.children]
      exact hv.child y d hy hd

theorem Ready.inserted (hr : Ready h c (x :: l)) (hi : InsertedWF h h' c A x B) : Ready h' c l := by
  have hs := InsertedWF.spliced hr hi
  obtain ⟨⟨h1, hi, ha⟩, hw⟩ := hi
  obtain ⟨hx, hnd⟩ := nodup_cons.1 hr.nodup
  have ho := hr.tail
  have hne : ∀ y ∈ l, y ≠ x := fun y hy heq => hx (heq ▸ hy)
  constructor
  · exact hw
  · rw [hs.kind, hr.block]
  · exact hr.rooted.frame hr.wellFormed.toLinkage hs.keptAbove
  · rw [hs.fresh]
    exact hr.allocated
  · exact hnd
  · intro y hy
    rw [hs.kind, ho.kind y hy]
  · intro y hy d hd
    rw [hs.children] at hd
    by_cases hc : d = c
    · rw [hc, update_self] at hd
      have hold : y ∈ h.children c := by
        rw [hi.before]
        simpa [hne y hy] using hd
      exact ho.detached y hy c hold
    · rw [update_of_ne hc] at hd
      exact ho.detached y hy d hd
  · intro y hy
    -- only the neighbours of `x` get another next pointer
    have hlt : A.getLast? ≠ some y := by
      intro hlt
      exact ho.detached y hy c (by rw [hi.before]; exact mem_append_left _ (mem_of_getLast? hlt))
    rw [ha.next, hi.otherNext y (hne y hy) hlt, ho.next y hy]
  · intro y hy
    rw [hs.fresh]
    exact ho.fresh y hy

/-- The block has an address, and the chunks in it have positions. -/
structure Located (h : Heap Semantic) (c : Ref) : Prop where
  positioned : Positioned h
  address : ∃ a, At h c a

theorem Located.inserted (hr : Ready h c (x :: l)) (hl : Located h c) (hs : Spliced h h' c A x B)
    (hp : Positioned h') (hk : KeepsAbove h h' c) : Located h' c := by
  obtain ⟨a, ha⟩ := hl.address
  exact ⟨hp, a, ha.above hr.wellFormed.toLinkage hs.keptAbove hk⟩

/-! ## Insertion without a jump -/

/-- The point is what the list goes on with behind the new instruction. -/
theorem insertBefore_inserted (hr : Ready h c (x :: l)) (hc : h.children c = A ++ B) (hp : B.head? = point)
    (hn : Mutator.insertBefore mode h c point x = .ok h') : InsertedWF h h' c A x B := by
  cases B with
  | nil =>
    cases hp
    have ha := append_spec hr.wellFormed hr.insertable (.inr (hr.next x mem_cons_self)) hn
    rwa [hc, append_nil] at ha
  | cons p l₂ =>
    cases hp
    exact insertBefore_spec hr.wellFormed hr.insertable hc hn

theorem insertBefore_returns (hr : Ready h c (x :: l)) (hl : Located h c) (hc : h.children c = A ++ B)
    (ht : B.head? = point) : ∃ h', Mutator.insertBefore .offset h c point x = .ok h' ∧ Located h' c := by
  obtain ⟨a, ha⟩ := hl.address
  have htc : Tracked h c := .inl hr.block
  cases B with
  | nil =>
    cases ht
    obtain ⟨h', hn, hp, hk⟩ := append_ok hr.wellFormed hr.insertable (.inr (hr.next x mem_cons_self)) htc
      hl.positioned ha
    exact ⟨h', hn, hl.inserted hr (InsertedWF.spliced hr (insertBefore_inserted hr hc rfl hn)) hp hk⟩
  | cons p l₂ =>
    cases ht
    obtain ⟨h', hn, hp, hk⟩ := insertBefore_ok hr.wellFormed hr.insertable htc hl.positioned ha hc
    exact ⟨h', hn, hl.inserted hr (InsertedWF.spliced hr (insertBefore_inserted hr hc rfl hn)) hp hk⟩

variable {s : Semantic}

theorem insertBefore_eq_ok (h : insertBefore mode c point t x = .ok t') :
    ∃ h', Mutator.insertBefore mode t.heap c point x = .ok h' ∧ t' = { t with heap := h' } := by
  obtain ⟨h', hr, hok⟩ := bind_iff.1 h
  exact ⟨h', hr, (Except.ok.inj hok).symm⟩

/-- The list stands in front of the point, and each object keeps its semantic. -/
structure Plain (t t' : State) (c : Ref) (A l B : List Ref) : Prop where
  children : t'.heap.children c = A ++ l ++ B
  kind : t'.heap.kind = t.heap.kind
  fresh : t'.heap.fresh = t.heap.fresh
  semantic : t'.heap.semantic = t.heap.semantic
  source : t'.source = t.source

theorem foldlM_insertBefore : ∀ l {t t'} {A}, Ready t.heap c l →
    t.heap.children c = A ++ B → B.head? = point → l.foldlM (insertBefore mode c point) t = .ok t' → Plain t t' c A l B
  | [], t, t', A, _, hc, _, hn => by
    cases hn
    exact ⟨by rw [hc, append_nil], rfl, rfl, rfl, rfl⟩
  | x :: l, t, t', A, hr, hc, hp, hn => by
    rw [foldlM_cons] at hn
    obtain ⟨t1, hsp, ht⟩ := bind_iff.1 hn
    obtain ⟨h₁, hh, rfl⟩ := insertBefore_eq_ok hsp
    have hi := insertBefore_inserted hr hc hp hh
    have hs := InsertedWF.spliced hr hi
    have hc1 : h₁.children c = (A ++ [x]) ++ B := by
      rw [hs.children, update_self, append_assoc, singleton_append]
    have ih := foldlM_insertBefore l (hr.inserted hi) hc1 hp ht
    constructor
    · rw [ih.children, append_assoc A, singleton_append]
    · exact ih.kind.trans hs.kind
    · exact ih.fresh.trans hs.fresh
    · exact ih.semantic.trans hs.semantic
    · exact ih.source

theorem foldlM_insertBefore_returns : ∀ l {t} {A}, Ready t.heap c l →
    Located t.heap c → t.heap.children c = A ++ B → B.head? = point →
      ∃ t', l.foldlM (insertBefore .offset c point) t = .ok t'
  | [], t, _, _, _, _, _ => ⟨t, rfl⟩
  | x :: l, t, A, hr, hl, hc, hp => by
    obtain ⟨h₁, hs, hl1⟩ := insertBefore_returns hr hl hc hp
    have hi := insertBefore_inserted hr hc hp hs
    have hc1 : h₁.children c = (A ++ [x]) ++ B := by
      rw [(InsertedWF.spliced hr hi).children, update_self, append_assoc, singleton_append]
    obtain ⟨t', ht⟩ := foldlM_insertBefore_returns l (t := { t with heap := h₁ }) (hr.inserted hi) hl1 hc1 hp
    refine ⟨t', ?_⟩
    rw [foldlM_cons, insertBefore, ok_bind hs]
    exact ht

theorem insertAfter_eq_ok (h : insertAfter mode c point t x = .ok t') :
    ∃ h', Mutator.insertAfter mode t.heap c point x = .ok h' ∧ t' = { t with heap := h' } := by
  obtain ⟨h', hr, hok⟩ := bind_iff.1 h
  exact ⟨h', hr, (Except.ok.inj hok).symm⟩

/-! ## Insertion where jumps arrive -/

theorem swapSemantics_point (h : Heap Semantic) (hne : p ≠ x) : (swapSemantics h p x).semantic p = h.semantic x := by
  show update (update h.semantic p _) x _ p = _
  rw [update_of_ne hne, update_self]

theorem swapSemantics_other (h : Heap Semantic) {y} (hp : y ≠ p) (hx : y ≠ x) :
    (swapSemantics h p x).semantic y = h.semantic y := by
  show update (update h.semantic p _) x _ y = _
  rw [update_of_ne hx, update_of_ne hp]

theorem Ready.swap (hr : Ready h c l) (hp : p ∈ h.children c) (hx : x ∈ h.children c) :
    Ready (swapSemantics h p x) c l where
  wellFormed := swapSemantics_wellFormed hr.wellFormed hp hx
    (instruction_of_mem hr.wellFormed.toLinkage hr.block hp)
    (instruction_of_mem hr.wellFormed.toLinkage hr.block hx)
  block := hr.block
  rooted := hr.rooted.transfer (P := fun _ => True) trivial (fun _ _ _ _ => trivial) (fun _ _ => rfl) fun _ _ _ hy => hy
  allocated := hr.allocated
  nodup := hr.nodup
  kind := hr.kind
  detached := hr.detached
  next := hr.next
  fresh := hr.fresh

theorem Located.swap (hl : Located h c) (p x) : Located (swapSemantics h p x) c := by
  obtain ⟨a, ha⟩ := hl.address
  constructor
  · exact ⟨hl.positioned.shape, hl.positioned.child⟩
  · exact ⟨a, ha.transfer (P := fun _ => True) trivial (fun _ _ _ _ => trivial) (fun _ _ => rfl) (fun _ _ => rfl)
      fun _ _ _ hy => hy⟩

/-- One step: the object stands behind the point, and the two have exchanged their semantics. -/
structure Jumped (t t' : State) (c : Ref) (A : List Ref) (p x : Ref) (B l : List Ref) : Prop where
  children : t'.heap.children c = A ++ p :: x :: B
  kind : t'.heap.kind = t.heap.kind
  fresh : t'.heap.fresh = t.heap.fresh
  point : t'.heap.semantic p = t.heap.semantic x
  new : t'.heap.semantic x = t.heap.semantic p
  other : ∀ y, y ≠ p → y ≠ x → t'.heap.semantic y = t.heap.semantic y
  source : t'.source = setSource (setSource t.source (t.heap.semantic p) x) (t.heap.semantic x) p
  ready : Ready t'.heap c l

theorem Ready.ne (hr : Ready h c (x :: l)) (hp : p ∈ h.children c) : p ≠ x :=
  fun heq => hr.detached x mem_cons_self c (heq ▸ hp)

theorem jumped_of_insertAfter {h₁} (hr : Ready t.heap c (x :: l)) (hc : t.heap.children c = A ++ p :: B)
    (hn : Mutator.insertAfter mode t.heap c (some p) x = .ok h₁) :
    Jumped t ⟨swapSemantics h₁ p x, setSource (setSource t.source (h₁.semantic p) x) (h₁.semantic x) p⟩ c A p x B l := by
  have hi := insertAfter_spec hr.wellFormed hr.insertable hc hn
  have hs := InsertedWF.spliced hr hi
  have hne : p ≠ x := hr.ne (by rw [hc]; simp)
  have hc1 : h₁.children c = A ++ p :: x :: B := by
    rw [hs.children, update_self]
    simp
  constructor
  · exact hc1
  · exact hs.kind
  · exact hs.fresh
  · exact (swapSemantics_point h₁ hne).trans (by rw [hs.semantic])
  · exact (update_self ..).trans (by rw [hs.semantic])
  · intro y hy hyx
    exact (swapSemantics_other h₁ hy hyx).trans (by rw [hs.semantic])
  · rw [hs.semantic]
  · exact (hr.inserted hi).swap (by rw [hc1]; simp) (by rw [hc1]; simp)

theorem insertBeforeJumpTo_jumped (hr : Ready t.heap c (x :: l)) (hc : t.heap.children c = A ++ p :: B)
    (hn : insertBeforeJumpTo mode c (some p) t x = .ok t') : Jumped t t' c A p x B l := by
  obtain ⟨t1, hs, hok⟩ := bind_iff.1 hn
  obtain ⟨h₁, hh, rfl⟩ := insertAfter_eq_ok hs
  cases hok
  exact jumped_of_insertAfter hr hc hh

theorem insertAfter_returns (hr : Ready h c (x :: l)) (hl : Located h c) (hc : h.children c = A ++ p :: B) :
    ∃ h', Mutator.insertAfter .offset h c (some p) x = .ok h' ∧ Located h' c := by
  obtain ⟨a, ha⟩ := hl.address
  have hn := insertAfterLinks_inserted hr.wellFormed.toLinkage hr.insertable.kind hr.insertable.detached hc
  obtain ⟨h', hrn, hp, hk⟩ := insertAfter_ok hr.wellFormed hr.insertable (.inl hr.block) hl.positioned ha hn
  have hs := InsertedWF.spliced hr (insertAfter_spec hr.wellFormed hr.insertable hc hrn)
  exact ⟨h', hrn, hl.inserted hr hs hp hk⟩

theorem insertBeforeJumpTo_returns (hr : Ready t.heap c (x :: l)) (hl : Located t.heap c)
    (hc : t.heap.children c = A ++ p :: B) :
    ∃ t', insertBeforeJumpTo .offset c (some p) t x = .ok t' ∧ Located t'.heap c := by
  obtain ⟨h₁, hrn, hl1⟩ := insertAfter_returns hr hl hc
  refine ⟨⟨swapSemantics h₁ p x, setSource (setSource t.source (h₁.semantic p) x) (h₁.semantic x) p⟩, ?_, hl1.swap p x⟩
  simp only [insertBeforeJumpTo, insertAfter]
  rw [ok_bind hrn]
  rfl

/-- The whole loop, in the order of the list. The semantics have moved one object back, that of the point to the last
    one. -/
structure JumpedAll (t t' : State) (c : Ref) (A : List Ref) (p : Ref) (B l : List Ref) : Prop where
  children : t'.heap.children c = A ++ p :: (l.reverse ++ B)
  kind : t'.heap.kind = t.heap.kind
  fresh : t'.heap.fresh = t.heap.fresh
  moved : (p :: l.reverse).map t'.heap.semantic = l.reverse.map t.heap.semantic ++ [t.heap.semantic p]
  other : ∀ y, y ≠ p → y ∉ l → t'.heap.semantic y = t.heap.semantic y

theorem foldlM_insertBeforeJumpTo : ∀ l {t t'} {B}, Ready t.heap c l →
    t.heap.children c = A ++ p :: B → l.foldlM (insertBeforeJumpTo mode c (some p)) t = .ok t' →
      JumpedAll t t' c A p B l
  | [], t, t', B, _, hc, hn => by
    cases hn
    exact ⟨hc, rfl, rfl, rfl, fun _ _ _ => rfl⟩
  | x :: l, t, t', B, hr, hc, hn => by
    rw [foldlM_cons] at hn
    obtain ⟨t1, hsp, ht⟩ := bind_iff.1 hn
    have hj := insertBeforeJumpTo_jumped hr hc hsp
    have ih := foldlM_insertBeforeJumpTo l hj.ready hj.children ht
    have hnd := nodup_cons.1 hr.nodup
    have hm : p ∈ t.heap.children c := by rw [hc]; simp
    have hx := (hr.ne hm).symm
    -- the instructions still to come have their own semantics
    have hs : ∀ y ∈ l, t1.heap.semantic y = t.heap.semantic y := by
      intro y hy
      refine hj.other y ?_ (fun heq => hnd.1 (heq ▸ hy))
      rintro rfl
      exact hr.tail.detached y hy c hm
    have hmp := map_congr_left fun y hy => hs y (mem_reverse.1 hy)
    constructor
    · rw [ih.children, reverse_cons]
      simp
    · exact ih.kind.trans hj.kind
    · exact ih.fresh.trans hj.fresh
    · rw [reverse_cons, ← cons_append, map_append, ih.moved, hmp, hj.point, map_append,
        map_singleton, map_singleton, ih.other x hx hnd.1, hj.new]
    · intro y hp hy
      rw [mem_cons, not_or] at hy
      rw [ih.other y hp hy.2, hj.other y hp hy.1]

theorem foldlM_insertBeforeJumpTo_returns : ∀ l {t} {B}, Ready t.heap c l →
    Located t.heap c → t.heap.children c = A ++ p :: B →
      ∃ t', l.foldlM (insertBeforeJumpTo .offset c (some p)) t = .ok t'
  | [], t, _, _, _, _ => ⟨t, rfl⟩
  | x :: l, t, B, hr, hl, hc => by
    obtain ⟨t1, hs, hl1⟩ := insertBeforeJumpTo_returns hr hl hc
    have hj := insertBeforeJumpTo_jumped hr hc hs
    obtain ⟨t', ht⟩ := foldlM_insertBeforeJumpTo_returns l hj.ready hl1 hj.children
    exact ⟨t', by rw [foldlM_cons, ok_bind hs, ht]⟩

/-! ## Sources -/

def Instr (h : Heap Semantic) (x : Ref) : Prop := h.kind x = .instruction ∧ x < h.fresh

/-- No two instructions share a semantic, and a semantic with a source has the instruction that holds it. -/
structure Consistent (t : State) : Prop where
  own : ∀ x y, Instr t.heap x → Instr t.heap y → (t.heap.semantic x).id = (t.heap.semantic y).id → x = y
  source : ∀ x, Instr t.heap x → (t.heap.semantic x).form ≠ .other → t.source (t.heap.semantic x).id = some x

theorem setSource_self (source) (x) (h : s.form ≠ .other) : setSource source s x s.id = some x := by
  cases hf : s.form with
  | linked => simp [setSource, hf]
  | controlFlow => simp [setSource, hf]
  | other => exact absurd hf h

theorem setSource_other (source) (x) {id} (h : id ≠ s.id) : setSource source s x id = source id := by
  cases hf : s.form with
  | linked => simp [setSource, hf, update_of_ne h]
  | controlFlow => simp [setSource, hf, update_of_ne h]
  | other => simp [setSource, hf]

theorem Consistent.jumped (ht : Consistent t) (hj : Jumped t t' c A p x B l) (hp : Instr t.heap p) (hx : Instr t.heap x)
    (hne : p ≠ x) : Consistent t' := by
  have his : ∀ y, Instr t'.heap y ↔ Instr t.heap y := by
    intro y
    rw [Instr, Instr, hj.kind, hj.fresh]
  have hi : (t.heap.semantic p).id ≠ (t.heap.semantic x).id := fun heq => hne (ht.own p x hp hx heq)
  -- who held a semantic before the exchange
  have hh : ∀ y, t'.heap.semantic y = t.heap.semantic (swap p x y) := by
    intro y
    by_cases hyp : y = p
    · rw [hyp, swap_apply_left, hj.point]
    · by_cases hyx : y = x
      · rw [hyx, swap_apply_right, hj.new]
      · rw [swap_apply_of_ne_of_ne hyp hyx, hj.other y hyp hyx]
  have hs : ∀ y, Instr t.heap y → Instr t.heap (swap p x y) := by
    intro y hy
    by_cases hyp : y = p
    · rwa [hyp, swap_apply_left]
    · by_cases hyx : y = x
      · rwa [hyx, swap_apply_right]
      · rwa [swap_apply_of_ne_of_ne hyp hyx]
  constructor
  · intro y z hy hz heq
    rw [hh y, hh z] at heq
    have hm := ht.own _ _ (hs y ((his y).1 hy)) (hs z ((his z).1 hz)) heq
    exact (swap p x).injective hm
  · intro y hy hf
    have hy := (his y).1 hy
    by_cases hyp : y = p
    · rw [hyp, hj.point] at hf ⊢
      rw [hj.source, setSource_self _ _ hf]
    · by_cases hyx : y = x
      · rw [hyx, hj.new] at hf ⊢
        rw [hj.source, setSource_other _ _ hi, setSource_self _ _ hf]
      · rw [hj.other y hyp hyx] at hf ⊢
        have hix : (t.heap.semantic y).id ≠ (t.heap.semantic x).id := fun heq => hyx (ht.own y x hy hx heq)
        have hip : (t.heap.semantic y).id ≠ (t.heap.semantic p).id := fun heq => hyp (ht.own y p hy hp heq)
        rw [hj.source, setSource_other _ _ hix, setSource_other _ _ hip, ht.source y hy hf]

theorem Ready.instr_child (hr : Ready h c l) (hp : p ∈ h.children c) : Instr h p :=
  ⟨instruction_of_mem hr.wellFormed.toLinkage hr.block hp, (hr.wellFormed.toLinkage.allocated c p hp).1⟩

theorem consistent_foldlM : ∀ l {t t'} {B}, Ready t.heap c l →
    t.heap.children c = A ++ p :: B → Consistent t → l.foldlM (insertBeforeJumpTo mode c (some p)) t = .ok t' →
      Consistent t'
  | [], t, t', B, _, _, ht, hn => by
    cases hn
    exact ht
  | x :: l, t, t', B, hr, hc, ht, hn => by
    rw [foldlM_cons] at hn
    obtain ⟨t1, hs, hrt⟩ := bind_iff.1 hn
    have hj := insertBeforeJumpTo_jumped hr hc hs
    have hm : p ∈ t.heap.children c := by rw [hc]; simp
    have hx : Instr t.heap x := ⟨hr.kind x mem_cons_self, hr.fresh x mem_cons_self⟩
    exact consistent_foldlM l hj.ready hj.children (ht.jumped hj (hr.instr_child hm) hx (hr.ne hm)) hrt

theorem Consistent.plain (ht : Consistent t) (hp : Plain t t' c A l B) : Consistent t' := by
  have hi : ∀ y, Instr t'.heap y ↔ Instr t.heap y := by
    intro y
    rw [Instr, Instr, hp.kind, hp.fresh]
  constructor
  · intro y z hy hz heq
    rw [hp.semantic] at heq
    exact ht.own y z ((hi y).1 hy) ((hi z).1 hz) heq
  · intro y hy hf
    rw [hp.semantic] at hf ⊢
    rw [hp.source]
    exact ht.source y ((hi y).1 hy) hf

/-! ## The list in the block -/

/-- The semantics of the list stand in front of that of the point, or at the end; with `beforeJumpTo` the object of the
    point holds the first of them; and the sources are the objects that hold the semantics. -/
structure ListInserted (t t' : State) (c : Ref) (point : Option Ref) (l : List Ref) (beforeJumpTo : Bool) : Prop where
  semantics : ∀ A B, t.heap.children c = A ++ B → B.head? = point →
    (t'.heap.children c).map t'.heap.semantic = (A ++ l ++ B).map t.heap.semantic
  entry : beforeJumpTo = true → ∀ p x, point = some p → l.head? = some x → t'.heap.semantic p = t.heap.semantic x
  source : ∀ y ∈ t'.heap.children c, (t'.heap.semantic y).form ≠ .other → t'.source (t'.heap.semantic y).id = some y

theorem length_le_one_of_reverse {α : Type} {l : List α} (hnd : l.Nodup) (h : l.reverse = l) : l.length ≤ 1 := by
  cases l with
  | nil => exact Nat.zero_le 1
  | cons a l =>
    rw [reverse_cons] at h
    cases hl : l.reverse with
    | nil => simp [reverse_eq_nil_iff.1 hl]
    | cons b l' =>
      -- the first element would be the last one of the rest
      rw [hl, cons_append] at h
      have hm := mem_reverse.1 (by rw [hl, (cons.inj h).1]; exact mem_cons_self)
      exact absurd hm (nodup_cons.1 hnd).1

theorem Consistent.nodup_map (ht : Consistent t) (hr : Ready t.heap c l) : (l.map t.heap.semantic).Nodup := by
  refine hr.nodup.map_on fun x hx y hy heq => ht.own x y ?_ ?_ (by rw [heq])
  · exact ⟨hr.kind x hx, hr.fresh x hx⟩
  · exact ⟨hr.kind y hy, hr.fresh y hy⟩

theorem Ready.instr_of_plain (hr : Ready t.heap c l) (hc : t.heap.children c = A ++ B) (hp : Plain t t' c A l B) :
    ∀ y ∈ t'.heap.children c, Instr t'.heap y := by
  intro y hy
  rw [Instr, hp.kind, hp.fresh]
  rw [hp.children, mem_append, mem_append] at hy
  rcases hy with (hy | hy) | hy
  · exact hr.instr_child (by rw [hc]; exact mem_append_left _ hy)
  · exact ⟨hr.kind y hy, hr.fresh y hy⟩
  · exact hr.instr_child (by rw [hc]; exact mem_append_right _ hy)

theorem Ready.instr_of_jumped (hr : Ready t.heap c l) (hc : t.heap.children c = A ++ p :: B)
    (hj : JumpedAll t t' c A p B l) : ∀ y ∈ t'.heap.children c, Instr t'.heap y := by
  intro y hy
  rw [Instr, hj.kind, hj.fresh]
  rw [hj.children, mem_append, mem_cons, mem_append, mem_reverse] at hy
  rcases hy with hy | rfl | hy | hy
  · exact hr.instr_child (by rw [hc]; exact mem_append_left _ hy)
  · exact hr.instr_child (by rw [hc]; simp)
  · exact ⟨hr.kind y hy, hr.fresh y hy⟩
  · exact hr.instr_child (by rw [hc]; simp [hy])

theorem split_unique {C D} (hnd : (A ++ B).Nodup) (h : A ++ B = C ++ D) (hB : B.head? = point)
    (hD : D.head? = point) : A = C ∧ B = D := by
  cases B with
  | nil =>
    cases hB
    obtain rfl := head?_eq_none_iff.1 hD
    simpa using h
  | cons p B =>
    cases hB
    obtain ⟨D, rfl⟩ := head?_eq_some_iff.1 hD
    have hn := nodup_middle.1 hnd
    rw [nodup_cons, mem_append, not_or] at hn
    obtain ⟨hA, -, hB⟩ := (append_cons_inj_of_notMem hn.1.1 hn.1.2).1 h
    exact ⟨hA, by rw [hB]⟩

theorem listInserted_of_plain {beforeJumpTo} (hr : Ready t.heap c l) (ht : Consistent t)
    (hc : t.heap.children c = A ++ B) (hpt : B.head? = point) (he : beforeJumpTo = true → point = none)
    (hp : Plain t t' c A l B) : ListInserted t t' c point l beforeJumpTo := by
  constructor
  · intro C D hCD hD
    have hnd := hc ▸ (hr.wellFormed.linked c).nodup
    obtain ⟨rfl, rfl⟩ := split_unique hnd (hc.symm.trans hCD) hpt hD
    rw [hp.children, hp.semantic]
  · intro hj p x hp'
    rw [he hj] at hp'
    cases hp'
  · intro y hy hf
    exact (ht.plain hp).source y (hr.instr_of_plain hc hp y hy) hf

theorem listInserted_of_jumped (hr : Ready t.heap c l) (hc : t.heap.children c = A ++ p :: B) (ht' : Consistent t')
    (hj : JumpedAll t t' c A p B l.reverse) : ListInserted t t' c (some p) l true := by
  have hnd := hc ▸ (hr.wellFormed.linked c).nodup
  have hn := nodup_middle.1 hnd
  rw [nodup_cons, mem_append, not_or] at hn
  have hv := hj.moved
  rw [reverse_reverse] at hv
  constructor
  · intro C D hCD hD
    obtain ⟨rfl, rfl⟩ := split_unique hnd (hc.symm.trans hCD) rfl hD
    -- what was in the block before, apart from the point, keeps its semantic
    have hk : ∀ y ∈ A ++ B, t'.heap.semantic y = t.heap.semantic y := by
      intro y hy
      have hl : y ∈ t.heap.children c := by
        rw [hc, mem_append, mem_cons]
        rcases mem_append.1 hy with hy | hy
        · exact .inl hy
        · exact .inr (.inr hy)
      refine hj.other y ?_ fun hm => hr.detached y (mem_reverse.1 hm) c hl
      rintro rfl
      exact (mem_append.1 hy).elim hn.1.1 hn.1.2
    have hA := map_congr_left fun y hy => hk y (mem_append_left _ hy)
    have hB := map_congr_left fun y hy => hk y (mem_append_right _ hy)
    rw [hj.children, reverse_reverse, ← cons_append, map_append, map_append, hv, hA, hB]
    simp
  · intro _ q x hq hx
    cases hq
    obtain ⟨l', rfl⟩ := head?_eq_some_iff.1 hx
    exact (cons.inj hv).1
  · intro y hy hf
    exact ht'.source y ((hr.perm (reverse_perm l)).instr_of_jumped hc hj y hy) hf

/-- A list of new instructions is inserted in order, in both ways, exactly if there is a point or no jump to be
    redirected or the list has at most one instruction. In the default mode every insertion returns. -/
theorem insertListBefore_iff {mode : Mode} {t : State} {c : Ref} {point : Option Ref} {l : List Ref}
    {beforeJumpTo : Bool} (hr : Ready t.heap c l) (ht : Consistent t)
    (hpoint : ∀ p, point = some p → p ∈ t.heap.children c) :
    (∀ t', insertListBefore mode c point t l beforeJumpTo = .ok t' →
      (ListInserted t t' c point l beforeJumpTo ↔ (beforeJumpTo = true → point = none → l.length ≤ 1))) ∧
    (mode = .offset → Located t.heap c → ∃ t', insertListBefore mode c point t l beforeJumpTo = .ok t') := by
  obtain ⟨A, B, hc, hB⟩ : ∃ A B, t.heap.children c = A ++ B ∧ B.head? = point := by
    cases point with
    | none => exact ⟨_, [], (append_nil _).symm, rfl⟩
    | some p =>
      obtain ⟨A, B, hc⟩ := append_of_mem (hpoint p rfl)
      exact ⟨A, p :: B, hc, rfl⟩
  have hrv := hr.perm (reverse_perm l)
  cases beforeJumpTo with
  | false =>
    constructor
    · intro t' hrun
      have hp := foldlM_insertBefore l hr hc hB hrun
      constructor
      · intro _ hjp
        cases hjp
      · intro _
        exact listInserted_of_plain hr ht hc hB (fun hjp => by cases hjp) hp
    · rintro rfl hl
      exact foldlM_insertBefore_returns l hr hl hc hB
  | true =>
    cases point with
    | some p =>
      obtain ⟨B', rfl⟩ := head?_eq_some_iff.mp hB
      constructor
      · intro t' hrun
        constructor
        · intro _ _ hnn
          cases hnn
        · intro _
          exact listInserted_of_jumped hr hc (consistent_foldlM l.reverse hrv hc ht hrun)
            (foldlM_insertBeforeJumpTo l.reverse hrv hc hrun)
      · rintro rfl hl
        exact foldlM_insertBeforeJumpTo_returns l.reverse hrv hl hc
    | none =>
      obtain rfl := head?_eq_none_iff.mp hB
      constructor
      · intro t' hrun
        have hp : Plain t t' c A l.reverse [] := foldlM_insertBefore l.reverse hrv hc hB hrun
        constructor
        · intro hlt _ _
          have hse := hlt.semantics A [] hc rfl
          rw [hp.children, hp.semantic, append_nil, append_nil, map_append, map_append,
            append_cancel_left_eq, map_reverse] at hse
          have hlen := length_le_one_of_reverse (ht.nodup_map hr) hse
          rwa [length_map] at hlen
        · intro hlen
          have hsm : l.reverse = l := by
            match l, hlen rfl rfl with
            | [], _ => rfl
            | [x], _ => rfl
          rw [hsm] at hp
          exact listInserted_of_plain hr ht hc rfl (fun _ => rfl) hp
      · rintro rfl hl
        exact foldlM_insertBefore_returns l.reverse hrv hl hc hB

/-- The block 0 with the instruction 1, and the new instructions 2 and 3, all with control flow semantics. -/
def sampleBlock : State where
  heap := {
    kind := fun x => if x = 0 then .block else .instruction
    parent := fun x => if x = 1 then some 0 else none
    prev := fun _ => none
    next := fun _ => none
    children := fun x => if x = 0 then [1] else []
    computedSize := fun x => if x = 0 then 5 else 0
    semantic := fun x => ⟨x, .controlFlow, 5⟩
    position := fun x => if x = 0 ∨ x = 1 then some (offsetPosition 0) else none
    fresh := 4 }
  source := some

theorem sampleBlock_children (h : x ∈ sampleBlock.heap.children c) : c = 0 ∧ x = 1 := by
  by_cases hc : c = 0
  · subst hc
    exact ⟨rfl, mem_singleton.1 h⟩
  · rw [show sampleBlock.heap.children c = [] from if_neg hc] at h
    cases h

theorem sampleBlock_wellFormed : WellFormed sampleBlock.heap where
  linked c := by
    constructor
    · by_cases hc : c = 0
      · subst hc
        decide
      · rw [show sampleBlock.heap.children c = [] from if_neg hc]
        exact nodup_nil
    · by_cases hc : c = 0
      · subst hc
        exact ⟨rfl, rfl, trivial⟩
      · rw [show sampleBlock.heap.children c = [] from if_neg hc]
        trivial
    · intro x hx
      obtain ⟨rfl, rfl⟩ := sampleBlock_children hx
      rfl
    · intro x hx
      obtain ⟨rfl, rfl⟩ := sampleBlock_children hx
      rfl
  allocated c x hx := by
    obtain ⟨rfl, rfl⟩ := sampleBlock_children hx
    decide
  balanced c hc := by
    by_cases h0 : c = 0
    · subst h0
      decide
    · rcases hc with hc | hc
      · rw [show sampleBlock.heap.kind c = .instruction from if_neg h0] at hc
        cases hc
      · rw [show sampleBlock.heap.kind c = .instruction from if_neg h0] at hc
        cases hc

theorem sampleBlock_ready : Ready sampleBlock.heap 0 [2, 3] where
  wellFormed := sampleBlock_wellFormed
  block := rfl
  rooted := .top rfl
  allocated := by decide
  nodup := by decide
  kind := by decide
  detached x hx c hc := by
    obtain ⟨-, rfl⟩ := sampleBlock_children hc
    revert hx
    decide
  next _ _ := rfl
  fresh := by decide

theorem sampleBlock_consistent : Consistent sampleBlock where
  own _ _ _ _ h := h
  source _ _ _ := rfl

theorem sampleBlock_located : Located sampleBlock.heap 0 where
  positioned :=
    { shape := fun x => by
        by_cases hx : x = 0 ∨ x = 1
        · rw [show sampleBlock.heap.position x = some (offsetPosition 0) from if_pos hx]
          rcases hx with rfl | rfl
          · exact .inr ⟨0, rfl⟩
          · exact .inr ⟨0, rfl⟩
        · rw [show sampleBlock.heap.position x = none from if_neg hx,
            show sampleBlock.heap.kind x = .instruction from if_neg fun h => hx (.inl h)]
          exact .inl rfl
      child := fun c _ x hx => by
        obtain ⟨rfl, rfl⟩ := sampleBlock_children hx
        decide }
  address := ⟨0, .top rfl rfl⟩

/-- Both instructions in front of the one in the block, for jumps to it. -/
theorem insertListBefore_sampleBlock : ∃ t', insertListBefore .offset 0 (some 1) sampleBlock [2, 3] true = .ok t' ∧
    ListInserted sampleBlock t' 0 (some 1) [2, 3] true := by
  have hpt : ∀ p, some 1 = some p → p ∈ sampleBlock.heap.children 0 := by
    rintro p hp
    cases hp
    decide
  obtain ⟨t', hrun⟩ : ∃ t', insertListBefore .offset 0 (some 1) sampleBlock [2, 3] true = .ok t' :=
    (insertListBefore_iff sampleBlock_ready sampleBlock_consistent hpt).2 rfl sampleBlock_located
  refine ⟨t', hrun, ((insertListBefore_iff sampleBlock_ready sampleBlock_consistent hpt).1 t' hrun).mpr ?_⟩
  intro _ hnn
  cases hnn

/-- At the end of the block the list is turned around. -/
theorem insertListBefore_reversed : ∃ t', insertListBefore .offset 0 none sampleBlock [2, 3] true = .ok t' ∧
    (t'.heap.children 0).map (fun x => (t'.heap.semantic x).id) = [1, 3, 2] ∧
    ¬ ListInserted sampleBlock t' 0 none [2, 3] true := by
  refine ⟨_, rfl, by decide, ?_⟩
  intro hlt
  have hsm := hlt.semantics [1] [] rfl rfl
  revert hsm
  decide

/-! ## Insertion behind the point -/

/-- New instructions come right behind the point, in their order. -/
theorem insertListAfter_inserts : ∀ l {t} {A p}, Ready t.heap c l → Located t.heap c →
    t.heap.children c = A ++ p :: B → ∃ t', insertListAfter .offset c (some p) t l = .ok t' ∧
      Plain t t' c (A ++ [p]) l B ∧ WellFormed t'.heap
  | [], t, _, _, hr, _, hc => ⟨t, rfl, ⟨by simp [hc], rfl, rfl, rfl, rfl⟩, hr.wellFormed⟩
  | x :: l, t, A, p, hr, hl, hc => by
    obtain ⟨h₁, hrn, hl1⟩ := insertAfter_returns hr hl hc
    have hi := insertAfter_spec hr.wellFormed hr.insertable hc hrn
    have hs := InsertedWF.spliced hr hi
    obtain ⟨t', ht, hp, hw⟩ := insertListAfter_inserts l (t := { t with heap := h₁ }) (hr.inserted hi) hl1
      (by rw [hs.children, update_self])
    refine ⟨t', ?_, ⟨?_, hp.kind.trans hs.kind, hp.fresh.trans hs.fresh, hp.semantic.trans hs.semantic, hp.source⟩, hw⟩
    · rw [insertListAfter, insertAfter, ok_bind hrn]
      exact ht
    · rw [hp.children]
      simp

theorem insertListAfter_sampleBlock : ∃ t', insertListAfter .offset 0 (some 1) sampleBlock [2, 3] = .ok t' ∧
    t'.heap.children 0 = [1, 2, 3] := by
  obtain ⟨t', hn, hp, -⟩ := insertListAfter_inserts [2, 3] (A := []) sampleBlock_ready sampleBlock_located rfl
  exact ⟨t', hn, hp.children⟩

end Egalito.InsertLists
