/-
The default mode, `MODE_OFFSET`, where asking for an address leaves the heap alone, so that the addresses are a relation
`At` on heaps.
-/
import Egalito.Operation.Split

namespace Egalito

open Lib Heap Mutator List
open Function (update update_eq_self update_of_ne update_self)

variable {S : Type} {h h1 h' : Heap S} {b c x p : Ref} {l₁ l₂ : List Ref} {a o : Address}

def offsetPosition (o : Address) : Position := ⟨.offset o, .plain⟩

/-- `x` has the address `a`. -/
inductive At (h : Heap S) : Ref → Address → Prop
  | absolute {x : Ref} {a : Address} (hp : h.position x = some ⟨.absolute a, .plain⟩) : At h x a
  | top {x : Ref} {o : Address} (hp : h.position x = some (offsetPosition o)) (hpar : h.parent x = none) : At h x 0
  | child {x c : Ref} {o a : Address} (hp : h.position x = some (offsetPosition o)) (hc : x ∈ h.children c)
      (ha : At h c a) : At h x (a + o)

theorem At.transfer (ha : At h x a) {P : Ref → Prop} (hP : P x) (hu : ∀ y d, P y → y ∈ h.children d → P d)
    (hs : ∀ y, P y → h'.position y = h.position y) (hr : ∀ y, P y → h'.parent y = h.parent y)
    (hc : ∀ y d, P y → y ∈ h.children d → y ∈ h'.children d) : At h' x a := by
  induction ha with
  | absolute hp => exact .absolute (by rw [hs _ hP]; exact hp)
  | top hp hp' => exact .top (by rw [hs _ hP]; exact hp) (by rw [hr _ hP]; exact hp')
  | child hp hd _ ih => exact .child (by rw [hs _ hP]; exact hp) (hc _ _ hP hd) (ih (hu _ _ hP hd))

section
variable [Sized S]

theorem At.getAddressFuel (hl : Linkage h) (ha : At h x a) :
    ∀ n, (h.kind x).height ≤ n → Heap.getAddressFuel n h x = .ok (a, h) := by
  induction ha with
  | @absolute x a hp =>
    intro n hn
    obtain ⟨m, rfl⟩ := Kind.exists_succ hn
    simp only [Heap.getAddressFuel, hp]
    rfl
  | @top x o hp hr =>
    intro n hn
    obtain ⟨m, rfl⟩ := Kind.exists_succ hn
    simp only [Heap.getAddressFuel, hp, getOf, offsetPosition, baseGet, hr]
  | @child x c o a hp hc _ ih =>
    intro n hn
    have hh := Kind.height_child ((hl.linked c).kind x hc)
    obtain ⟨m, rfl⟩ := Kind.exists_succ hn
    simp only [Heap.getAddressFuel, hp, getOf, offsetPosition, baseGet, (hl.linked c).parent x hc]
    rw [ok_bind (ih m (by omega))]

theorem At.getAddress (hl : Linkage h) (ha : At h x a) : h.getAddress x = .ok (a, h) := by
  refine ha.getAddressFuel hl _ ?_
  have : (h.kind x).height ≤ levels := by cases h.kind x <;> decide
  exact this.trans (Nat.le_add_left ..)

end

/-! ## Positions in the default mode -/

/-- The positions a chunk of each kind may have. -/
def PositionOK (p : Option Position) : Kind → Prop
  | .instruction | .block => p = none ∨ ∃ o, p = some (offsetPosition o)
  | .function => p = none ∨ (∃ o, p = some (offsetPosition o)) ∨ ∃ a, p = some ⟨.absolute a, .plain⟩
  | .functionList | .module => p = none

structure Positioned (h : Heap S) : Prop where
  shape : ∀ x, PositionOK (h.position x) (h.kind x)
  child : ∀ c, Tracked h c → ∀ x ∈ h.children c, h.position x ≠ none

variable {q : Option Position} {k : Kind}

theorem PositionOK.setAfterThis (hq : PositionOK q k) (y) : q.map (·.setAfterThis y) = q := by
  cases k with
  | instruction | block => rcases hq with rfl | ⟨o, rfl⟩ <;> rfl
  | function => rcases hq with rfl | ⟨o, rfl⟩ | ⟨a, rfl⟩ <;> rfl
  | functionList | module => cases hq; rfl

/-- No position follows a sibling. -/
def Steady (h : Heap S) : Prop := ∀ x y, (h.position x).map (·.setAfterThis y) = h.position x

theorem Positioned.steady (hp : Positioned h) : Steady h := fun x y => (hp.shape x).setAfterThis y

theorem follow_position (hs : Steady h) (y z) : (follow h y z).position = h.position := by
  show update h.position y _ = _
  rw [hs y z, update_eq_self]

theorem setPrevious_position (hs : Steady h) (y) (q) :
    (setPreviousSibling h y q).position = h.position := by
  cases q with
  | none => rfl
  | some z => exact follow_position (h := h.setPrev y (some z)) hs y z

theorem setNext_position (hs : Steady h) (y) (q) : (setNextSibling h y q).position = h.position := by
  cases q with
  | none => rfl
  | some z => exact follow_position (h := h.setNext y (some z)) hs z y

theorem Steady.of_position (hs : Steady h) (he : h'.position = h.position) : Steady h' := by
  unfold Steady
  rw [he]
  exact hs

theorem insertChild_position (h : Heap S) (c x) (i) : (insertChild h c i x).position = h.position := by
  unfold insertChild
  split <;> rfl

theorem appendLinks_position (hs : Steady h) (c x) : (appendLinks h c x).position = h.position := by
  rw [appendLinks, insertChild_position]
  cases (h.children c).getLast? with
  | none => rfl
  | some q =>
    have hq := setPrevious_position hs x (some q)
    exact (setNext_position (hs.of_position hq) q (some x)).trans hq

theorem insertAfterLinks_position (hs : Steady h) (c x) (q) :
    (insertAfterLinks h c q x).position = h.position := by
  have h1 := setPrevious_position hs x q
  show (insertChild _ c _ x).position = _
  rw [insertChild_position]
  cases q with
  | none => exact h1
  | some p =>
    dsimp only
    cases (setPreviousSibling h x (some p)).next p with
    | none =>
      have h2 := setNext_position (hs.of_position h1) x none
      exact (setNext_position ((hs.of_position h1).of_position h2) p (some x)).trans (h2.trans h1)
    | some n =>
      have hs1 := hs.of_position h1
      have h2 := setPrevious_position hs1 n (some x)
      have h3 := setNext_position (hs1.of_position h2) x (some n)
      exact (setNext_position ((hs1.of_position h2).of_position h3) p (some x)).trans (h3.trans (h2.trans h1))

theorem insertBeforeLinks_position (hs : Steady h) (c x p) (i) :
    (insertBeforeLinks h c p i x).position = h.position := by
  show (insertChild _ c _ x).position = _
  rw [insertChild_position]
  -- the four sibling assignments in order, the first one only with a previous sibling
  have key : ∀ h1 : Heap S, h1.position = h.position → (setPreviousSibling (setPreviousSibling
      (setNextSibling h1 x (some p)) x (h.prev p)) p (some x)).position = h.position := by
    intro h1 h1p
    have hs1 := hs.of_position h1p
    have h2 := setNext_position hs1 x (some p)
    have hs2 := hs1.of_position h2
    have h3 := setPrevious_position hs2 x (h.prev p)
    exact (setPrevious_position (hs2.of_position h3) p (some x)).trans (h3.trans (h2.trans h1p))
  cases hq : h.prev p with
  | none =>
    have := key h rfl
    rwa [hq] at this
  | some q =>
    have := key (setNextSibling h q (some x)) (setNext_position hs q (some x))
    rwa [hq] at this

theorem removeLinks_position (hs : Steady h) (c x) : (removeLinks h c x).position = h.position := by
  unfold removeLinks
  cases h.prev x with
  | none =>
    cases h.next x with
    | none => rfl
    | some n => exact setPrevious_position hs n none
  | some q =>
    cases h.next x with
    | none => exact setNext_position hs q none
    | some n =>
      have h1 := setNext_position hs q (some n)
      exact (setPrevious_position (hs.of_position h1) n (some q)).trans h1

/-! ## The operations in the default mode -/

theorem updateGeneration_offset (h : Heap S) (x) : updateGenerationCounts .offset h x = .ok h := rfl

/-- What an operation on `c` may do to positions: those of chunks as high as `c` are kept. -/
def KeepsAbove (h h' : Heap S) (c : Ref) : Prop :=
  ∀ z, (h.kind z).height ≤ (h.kind c).height → h'.position z = h.position z

theorem keepsAbove_setPosition (hk : (h.kind c).childType = some (h.kind x)) : KeepsAbove h (h.setPosition x q) c := by
  intro z hz
  have hh := Kind.height_child hk
  have hx : z ≠ x := by
    rintro rfl
    omega
  exact update_of_ne hx ..

theorem At.above (hl : Linkage h) (ha : At h c a) (hk : KeptAbove h h' c) (hp : KeepsAbove h h' c) : At h' c a :=
  ha.transfer (P := fun y => (h.kind y).height ≤ (h.kind c).height) le_rfl (fun _ _ => hl.height_le) hp hk.parent hk.child

theorem KeepsAbove.trans {h2} (h01 : KeepsAbove h h1 c) (hk : h1.kind = h.kind) (h12 : KeepsAbove h1 h2 c) :
    KeepsAbove h h2 c := by
  intro z hz
  rw [h12 z (by rw [hk]; exact hz), h01 z hz]

/-- Instructions and blocks, the chunks a mutator of a `Block` or `Function` handles. -/
def Low (k : Kind) : Prop := k = .instruction ∨ k = .block

theorem low_of_childType (ht : Tracked h c) (hk : (h.kind c).childType = some k) : Low k := by
  rcases ht with ht | ht
  · rw [ht] at hk; cases hk; exact .inl rfl
  · rw [ht] at hk; cases hk; exact .inr rfl

theorem positionOK_low (hk : Low k) : PositionOK q k ↔ q = none ∨ ∃ o, q = some (offsetPosition o) := by
  rcases hk with rfl | rfl <;> rfl

theorem Positioned.offset (hp : Positioned h) (hl : Linkage h) (ht : Tracked h c) (hx : x ∈ h.children c) :
    ∃ o, h.position x = some (offsetPosition o) := by
  have hlo := low_of_childType ht ((hl.linked c).kind x hx)
  rcases (positionOK_low hlo).1 (hp.shape x) with hn | ho
  · exact absurd hn (hp.child c ht x hx)
  · exact ho

theorem update_position_ne_none {position} {q : Position} {y : Ref}
    (h : y ≠ x → position y ≠ none) : update position x (some q) y ≠ none := by
  by_cases hyx : y = x
  · rw [hyx, update_self]
    exact Option.some_ne_none q
  · rw [update_of_ne hyx]
    exact h hyx

theorem Positioned.setPosition (hp : Positioned h) (hx : Low (h.kind x)) (o : Address) :
    Positioned (h.setPosition x (some (offsetPosition o))) := by
  refine ⟨fun y => ?_, fun d hd y hy => ?_⟩
  · show PositionOK (update h.position x _ y) (h.kind y)
    by_cases hyx : y = x
    · rw [hyx, update_self]
      exact (positionOK_low hx).2 (.inr ⟨o, rfl⟩)
    · rw [update_of_ne hyx]
      exact hp.shape y
  · exact update_position_ne_none fun _ => hp.child d hd y hy

theorem Positioned.of_children (hp : Positioned h) (hk : h'.kind = h.kind) (hs : h'.position = h.position)
    (hc : ∀ d, Tracked h d → ∀ y ∈ h'.children d, h.position y ≠ none) : Positioned h' := by
  refine ⟨fun y => by rw [hs, hk]; exact hp.shape y, fun d hd y hy => ?_⟩
  rw [hs]
  exact hc d (by unfold Tracked at hd ⊢; rwa [hk] at hd) y hy

/-! ## New chunks -/

theorem At.newChunk (hl : Linkage h) (k) (q : Option Position) (ha : At h x a) (hx : x < h.fresh) :
    At (h.newChunk k q) x a := by
  refine ha.transfer (P := (· < h.fresh)) hx (fun y d _ hd => (hl.allocated d y hd).2) (fun y hy => ?_) (fun y hy => ?_)
    (fun y d hy hd => ?_)
  · exact update_of_ne (ne_of_lt hy) ..
  · exact update_of_ne (ne_of_lt hy) ..
  · show y ∈ update h.children h.fresh [] d
    rwa [update_of_ne (Nat.ne_of_lt (hl.allocated d y hd).2)]

theorem Positioned.newChunk (hp : Positioned h) (hl : Linkage h) (hq : PositionOK q k) :
    Positioned (h.newChunk k q) := by
  refine ⟨fun y => ?_, fun d hd y hy => ?_⟩
  · show PositionOK (update h.position h.fresh q y) (update h.kind h.fresh k y)
    by_cases hy : y = h.fresh
    · rw [hy, update_self, update_self]
      exact hq
    · rw [update_of_ne hy, update_of_ne hy]
      exact hp.shape y
  · have hf : d ≠ h.fresh := by
      rintro rfl
      rw [show (h.newChunk k q).children h.fresh = [] from update_self ..] at hy
      cases hy
    rw [show (h.newChunk k q).children d = h.children d from update_of_ne hf ..] at hy
    unfold Tracked at hd
    rw [show (h.newChunk k q).kind d = h.kind d from update_of_ne hf ..] at hd
    rw [show (h.newChunk k q).position y = h.position y from
      update_of_ne (ne_of_lt (hl.allocated d y hy).1) ..]
    exact hp.child d hd y hy

theorem At.newBlock (hl : Linkage h) (ha : At h x a) (hx : x < h.fresh) : At (newBlock h).2 x a :=
  ha.newChunk hl .block none hx

theorem Positioned.newBlock (hp : Positioned h) (hl : Linkage h) : Positioned (newBlock h).2 :=
  hp.newChunk (k := .block) (q := none) hl (.inl rfl)

section
variable [Sized S]

theorem demoteFirst_offset (h : Heap S) (p x) : demoteFirst .offset h p x = .ok h := rfl

theorem makePositionFor_first (hc : h.children c = x :: l₂) :
    makePositionFor .offset h c x = .ok (h.setPosition x (some (offsetPosition 0))) := by
  have hi : (h.children c).idxOf? x = some 0 := by
    rw [hc, idxOf?_cons, if_pos (beq_self_eq_true x)]
  simp only [makePositionFor, hi]
  rfl

/-- `makePositionFor` asks for the addresses of the previous child and of the chunk itself. -/
theorem makePositionFor_ok (hl : Linkage h) (hx : x ∈ h.children c) (ha : At h c a)
    (hs : ∀ y ∈ h.children c, y ≠ x → ∃ o, h.position y = some (offsetPosition o)) :
    ∃ o, makePositionFor .offset h c x = .ok (h.setPosition x (some (offsetPosition o))) := by
  obtain ⟨l₁, l₂, hc⟩ := append_of_mem hx
  rcases eq_nil_or_concat l₁ with rfl | ⟨l, y, rfl⟩
  · exact ⟨0, makePositionFor_first hc⟩
  · rw [concat_eq_append] at hc
    have hi := hl.idxOf? hc
    rw [length_append, length_singleton] at hi
    have hy : y ∈ h.children c := by rw [hc]; simp
    have hyx : y ≠ x := by
      rintro rfl
      have hnd := (hl.linked c).nodup
      rw [hc, nodup_middle, nodup_cons] at hnd
      exact hnd.1 (by simp)
    obtain ⟨o, ho⟩ := hs y hy hyx
    have hg : (h.children c)[l.length]? = some y := by rw [hc]; simp
    refine ⟨a + o - a, ?_⟩
    simp only [makePositionFor, hi, positionAt, hg]
    rw [ok_bind ((At.child ho hy ha).getAddress hl)]
    rw [ok_bind (ha.getAddress hl)]
    rfl

theorem ensurePosition_ok (hl : Linkage h) (hx : x ∈ h.children c) (ha : At h c a)
    (hp : h.position x = none ∨ ∃ o, h.position x = some (offsetPosition o))
    (hb : ∀ y ∈ h.children c, y ≠ x → ∃ o, h.position y = some (offsetPosition o)) :
    ∃ o, ensurePosition .offset h c x = .ok (h.setPosition x (some (offsetPosition o))) := by
  unfold ensurePosition
  rcases hp with hp | ⟨o, hp⟩
  · rw [hp]
    exact makePositionFor_ok hl hx ha hb
  · have hs : h.setPosition x (some (offsetPosition o)) = h := by
      rw [setPosition, ← hp, update_eq_self]
    exact ⟨o, by rw [hs, hp]⟩

theorem insert_ok (hw : WellFormed h) (hx : Insertable h c x) (ht : Tracked h c) (hp : Positioned h) (ha : At h c a)
    (hi : Inserted h h1 c l₁ x l₂) (hps : h1.position = h.position) :
    ∃ h2 h3, ensurePosition .offset h1 c x = .ok h2 ∧ updateSizesAndAuthorities .offset h2 c x = .ok h3 ∧
      Positioned h3 ∧ KeepsAbove h h3 c := by
  have hl1 := hw.toLinkage.inserted hi hx.detached hx.kind hx.allocated.1 hx.allocated.2
  have hh : h1.children c = l₁ ++ x :: l₂ := by rw [hi.children, update_self]
  have hlo : Low (h.kind x) := low_of_childType ht hx.kind
  have ha1 : At h1 c a := ha.above hw.toLinkage (hi.keptAbove hx.kind) (fun z _ => by rw [hps])
  have ho : ∀ d, ∀ y ∈ h1.children d, y ≠ x → y ∈ h.children d := by
    intro d y hy hyx
    rw [hi.children] at hy
    by_cases hc : d = c
    · subst hc
      rw [update_self, mem_append, mem_cons] at hy
      rw [hi.before, mem_append]
      tauto
    · rwa [update_of_ne hc] at hy
  obtain ⟨o, he⟩ := ensurePosition_ok (x := x) hl1 (by rw [hh]; simp) ha1
    (by rw [hps]; exact (positionOK_low hlo).1 (hp.shape x))
    (fun y hy hyx => by rw [hps]; exact hp.offset hw.toLinkage ht (ho c y hy hyx))
  obtain ⟨h3, h23, hs, -⟩ := hi.sizes hw hx (sameTree_setPosition h1 x (some (offsetPosition o)))
  refine ⟨_, h3, he, by rw [updateSizesAndAuthorities, ok_bind h23, updateGeneration_offset], ?_, ?_⟩
  · obtain ⟨s, rfl⟩ := hs
    refine (hp.setPosition hlo o).of_children hi.payload.kind ?_ (fun d hd y hy => ?_)
    · show update h1.position x _ = _
      rw [hps]
      rfl
    · exact update_position_ne_none fun hyx => hp.child d hd y (ho d y hy hyx)
  · obtain ⟨s, rfl⟩ := hs
    intro z hz
    show update h1.position x _ z = _
    rw [hps]
    exact keepsAbove_setPosition hx.kind z hz

theorem append_ok (hw : WellFormed h) (hx : Insertable h c x) (hs : h.children c = [] ∨ h.next x = none)
    (ht : Tracked h c) (hp : Positioned h) (ha : At h c a) :
    ∃ h', append .offset h c x = .ok h' ∧ Positioned h' ∧ KeepsAbove h h' c := by
  obtain ⟨h2, h3, h12, h23, hp3, hk3⟩ := insert_ok hw hx ht hp ha (appendLinks_inserted hx.kind hx.detached hs)
    (appendLinks_position hp.steady c x)
  exact ⟨h3, by rw [append, ok_bind hx.checkChildren, ok_bind h12, h23], hp3, hk3⟩

theorem renewNextChild_ok (hl : Linkage h) (ht : Tracked h c) (hx : x ∈ h.children c) (hp : Positioned h) :
    ∃ h', renewNextChild .offset h x = .ok h' ∧ Positioned h' ∧ KeepsAbove h h' c := by
  unfold renewNextChild
  cases hn : h.next x with
  | none => exact ⟨h, rfl, hp, fun _ _ => rfl⟩
  | some n =>
    dsimp only
    cases hh : h.children n with
    | nil => exact ⟨h, rfl, hp, fun _ _ => rfl⟩
    | cons y l =>
      obtain ⟨l₁, l₂, hc⟩ := append_of_mem hx
      have hnc : n ∈ h.children c := by
        have hd := (hl.neighbours hc).2
        rw [hn] at hd
        rw [hc, mem_append, mem_cons]
        exact .inr (.inr (mem_of_head? hd.symm))
      have hy : y ∈ h.children n := by rw [hh]; simp
      have hkn := (hl.linked c).kind n hnc
      have hk := (hl.linked n).kind y hy
      have hb : h.kind n = .block := by
        rcases low_of_childType ht hkn with e | e
        · rw [e] at hk; cases hk
        · exact e
      have hlo := low_of_childType (.inl hb) hk
      refine ⟨h.setPosition y (some (offsetPosition 0)), ?_, hp.setPosition hlo 0, fun z hz => ?_⟩
      · dsimp only
        rw [makePositionFor_first (h := h.setPosition y none) hh, Heap.setPosition, Heap.setPosition, Heap.setPosition]
        rw [Function.update_idem]
      · have h1 := Kind.height_child hkn
        have h2 := Kind.height_child hk
        have hzy : z ≠ y := by
          rintro rfl
          omega
        exact update_of_ne hzy ..

theorem insertAfter_ok {q} (hw : WellFormed h) (hx : Insertable h c x) (ht : Tracked h c)
    (hp : Positioned h) (ha : At h c a) (hi : Inserted h (insertAfterLinks h c q x) c l₁ x l₂) :
    ∃ h', insertAfter .offset h c q x = .ok h' ∧ Positioned h' ∧ KeepsAbove h h' c := by
  obtain ⟨h2, h3, h12, h23, hp3, hk3⟩ := insert_ok hw hx ht hp ha hi (insertAfterLinks_position hp.steady c x q)
  obtain ⟨⟨h1, hi1, hg⟩, hw3⟩ := hi.finish hw hx (ensurePosition_sameTree h12) h23
  have hk := hg.kind.trans hi1.payload.kind
  have hc : x ∈ h3.children c := by rw [hg.children, hi1.children, update_self]; simp
  obtain ⟨h4, h34, hp4, hk4⟩ := renewNextChild_ok hw3.toLinkage (by unfold Tracked at ht ⊢; rwa [hk]) hc hp3
  refine ⟨h4, ?_, hp4, hk3.trans hk hk4⟩
  rw [insertAfter, ok_bind hx.checkChildren, ok_bind h12, ok_bind h23, h34]

theorem insertBefore_ok (hw : WellFormed h) (hx : Insertable h c x) (ht : Tracked h c) (hp : Positioned h)
    (ha : At h c a) (hc : h.children c = l₁ ++ p :: l₂) :
    ∃ h', insertBefore .offset h c (some p) x = .ok h' ∧ Positioned h' ∧ KeepsAbove h h' c := by
  obtain ⟨h2, h3, h12, h23, hp3, hk3⟩ := insert_ok hw hx ht hp ha
    (insertBeforeLinks_inserted hw.toLinkage hx.kind hx.detached hc) (insertBeforeLinks_position hp.steady c x p l₁.length)
  refine ⟨h3, ?_, hp3, hk3⟩
  simp only [insertBefore, hw.toLinkage.idxOf? hc]
  rw [ok_bind hx.checkChildren, ok_bind h12, ok_bind (demoteFirst_offset h2 p x), h23]

theorem remove_ok (hw : WellFormed h) (hr : Rooted h c) (hp : Positioned h) (hc : h.children c = l₁ ++ x :: l₂) :
    ∃ h', remove .offset h c x = .ok h' ∧ Positioned h' ∧ h'.position = h.position := by
  have hx : x ∈ h.children c := by rw [hc]; simp
  obtain ⟨h2, h12, hs, -⟩ := remove_sizes hw hr hc
  have hm := removeLinks_removed hw.toLinkage hc
  have hps : h2.position = h.position := by
    obtain ⟨s, rfl⟩ := hs
    exact removeLinks_position hp.steady c x
  refine ⟨h2, ?_, ?_, hps⟩
  · rw [remove, ok_bind (checkChildren_of_mem hw.toLinkage hx), ok_bind h12, updateGeneration_offset]
  · refine hp.of_children (hs.agree.kind.trans hm.payload.kind) hps (fun d hd y hy => hp.child d hd y ?_)
    rw [hs.agree.children, hm.children] at hy
    by_cases hdc : d = c
    · subst hdc
      rw [update_self, mem_append] at hy
      rw [hc, mem_append, mem_cons]
      tauto
    · rwa [update_of_ne hdc] at hy

theorem removeLast_ok (hw : WellFormed h) (hr : Rooted h c) (hk : (h.kind c).childType.isSome) (hp : Positioned h)
    (hc : h.children c = l₁ ++ l₂) :
    ∃ h', removeLast .offset h c l₂.length = .ok h' ∧ Positioned h' ∧ h'.position = h.position := by
  obtain ⟨h1, r, h2, hpp, hp1, ht, h12, hs, -⟩ := removeLast_sizes hw hr hk hc
  have hps : h2.position = h.position := by
    obtain ⟨s, rfl⟩ := hs
    exact hp1
  refine ⟨h2, by rw [removeLast_eq hk hpp h12, updateGeneration_offset], ?_, hps⟩
  refine hp.of_children (hs.agree.kind.trans ht.kind) hps (fun d hd y hy => hp.child d hd y (ht.mem hc ?_))
  rwa [hs.agree.children] at hy

theorem resize_ok (s : S) (hw : WellFormed h) (hr : Rooted h c) (hp : Positioned h) (hx : x ∈ h.children c)
    (hk : h.kind x = .instruction) :
    ∃ h', resize .offset h c x s = .ok h' ∧ Positioned h' ∧ h'.position = h.position := by
  obtain ⟨h2, h12, hs, -⟩ := resize_sizes s hw hr hx hk
  have hps : h2.position = h.position := by
    obtain ⟨t, rfl⟩ := hs
    rfl
  refine ⟨h2, by rw [resize, modifiedChildSize, ok_bind h12, updateGeneration_offset], ?_, hps⟩
  refine hp.of_children hs.agree.kind hps (fun d hd y hy => hp.child d hd y ?_)
  rwa [hs.agree.children] at hy

/-! ## Splitting in the default mode -/

theorem placeNewBlock_ok {a'} (hw : WellFormed h) (hc : At h c a) (hf : c < h.fresh) (ht : At h p a')
    (hp : p < h.fresh) : placeNewBlock .offset h c b p =
      .ok (h.fresh, (newBlock h).2.setPosition h.fresh (some (offsetPosition (a' - a)))) := by
  have hl1 := (newBlock_wellFormed hw).toLinkage
  unfold placeNewBlock
  dsimp only
  rw [ok_bind ((ht.newBlock hw.toLinkage hp).getAddress hl1)]
  rw [ok_bind ((hc.newBlock hw.toLinkage hf).getAddress hl1)]
  rfl

/-- Moving the instructions one by one does not fail, the new block being at the top with a position. -/
theorem moveAll_ok : ∀ (rest done : List Ref) {h1 : Heap S}, Moving h h1 c done rest → AllMovable h c done rest →
    Positioned h1 → (∃ o, h1.position c = some (offsetPosition o)) →
    ∃ h2, rest.foldlM (moveTo .offset c) h1 = .ok h2 ∧ Positioned h2 ∧ KeepsAbove h1 h2 c
  | [], _, h1, _, _, hp, _ => ⟨h1, rfl, hp, fun _ _ => rfl⟩
  | x :: rest, done, h1, hm, ham, hp, ⟨o, ho⟩ => by
    have hmo := ham.head
    have hs := hm.insertable hmo
    have hk : h1.kind c = .block := by rw [hm.kind]; exact hmo.newKind
    have hpr : h1.parent c = none := by rw [hm.parent c hmo.fresh.1]; exact hmo.newParent
    obtain ⟨h3, h13, hp3, hk3⟩ := append_ok hm.wellFormed hs (.inr (hm.loose x (by simp))) (.inl hk) hp (.top ho hpr)
    obtain ⟨⟨h4, hi, ha⟩, hw3⟩ := append_spec hm.wellFormed hs (.inr (hm.loose x (by simp))) h13
    have hn3 : h3.kind = h1.kind := ha.kind.trans hi.payload.kind
    have hcx : c ≠ x := by
      rintro rfl
      have := hmo.newKind
      rw [hmo.kind] at this
      cases this
    have hr3 : h3.parent c = none := by rw [ha.parent, hi.parent, update_of_ne hcx, hpr]
    have ho3 : h3.position c = some (offsetPosition o) := by rw [hk3 c le_rfl, ho]
    have hc : x ∈ h3.children c := by rw [ha.children, hi.children, update_self]; simp
    have ht3 : Tracked h3 c := .inl (by rw [hn3, hk])
    obtain ⟨o', hmk⟩ := makePositionFor_ok hw3.toLinkage hc (.top ho3 hr3)
      (fun y hy _ => hp3.offset hw3.toLinkage ht3 hy)
    have hv : moveTo .offset c h1 x = .ok (h3.setPosition x (some (offsetPosition o'))) := by
      rw [moveTo, ok_bind h13, hmk]
    have hx := (hw3.linked c).kind x hc
    have hk5 : KeepsAbove h1 (h3.setPosition x (some (offsetPosition o'))) c :=
      hk3.trans hn3 (keepsAbove_setPosition hx)
    have hp5 := hp3.setPosition (low_of_childType ht3 hx) o'
    obtain ⟨h2, hr, hp2, hk2⟩ := moveAll_ok rest (done ++ [x]) (moveTo_spec hm hmo hv) ham.tail hp5
      ⟨o, by rw [hk5 c le_rfl, ho]⟩
    exact ⟨h2, by rw [foldlM_cons, ok_bind hv, hr], hp2, hk5.trans hn3 hk2⟩

theorem moveSuffix_ok {nb B1 B2} (hs : Splittable h c b nb l₁ l₂ B1 B2) (hk : h.kind c = .function)
    (hp : Positioned h) (ha : At h c a) (hn : h.position nb = some (offsetPosition o)) :
    ∃ h', moveSuffix .offset h c b nb l₂ = .ok h' ∧ Positioned h' ∧ KeepsAbove h h' c := by
  have hb : (h.kind b).childType.isSome := by rw [hs.kind]; rfl
  obtain ⟨h1, h01, hp1, hs1⟩ := removeLast_ok hs.wellFormed hs.rootedBlock hb hp hs.list
  obtain ⟨ht, hw1⟩ := removeLast_spec hs.wellFormed hs.rootedBlock hb hs.list h01
  have hl := cleared_foldl l₂ h1
  have hc := hs.cut ht hw1 hl
  set h2 := l₂.foldl detach h1
  -- the cleared instructions are in no list, so they need no position
  have hp2 : Positioned h2 := by
    refine ⟨fun y => ?_, fun d hd y hy => ?_⟩
    · by_cases hy : y ∈ l₂
      · rw [(hl.clear y hy).2.2, hc.kind, hs.instruction (hs.mem_list hy)]
        exact .inl rfl
      · rw [hl.position y hy, hl.payload.kind]
        exact hp1.shape y
    · rw [hl.position y fun hyl => hc.detached y hyl d hy]
      unfold Tracked at hd
      rw [hl.payload.kind] at hd
      rw [hl.children] at hy
      exact hp1.child d hd y hy
  have hn2 : h2.position nb = some (offsetPosition o) := by rw [hl.position nb hs.not_moved, hs1, hn]
  obtain ⟨h3, h23, hp3, hk3⟩ := moveAll_ok l₂ [] hc.start (hs.allMovable hc) hp2 ⟨o, hn2⟩
  have hm := hs.moved hc h23
  have hn3 := hm.kind.trans hc.kind
  have hv : KeepsAbove h h3 c := by
    intro z hz
    have hi : z ∉ l₂ := fun hzl => by
      rw [hs.instruction (hs.mem_list hzl), hk] at hz
      exact absurd hz (by decide)
    have hzb : (h2.kind z).height ≤ (h2.kind nb).height := by
      rw [hc.kind, hs.newKind]
      rw [hk] at hz
      exact hz.trans (by decide)
    rw [hk3 z hzb, hl.position z hi, hs1]
  have ha3 := ha.above hs.wellFormed.toLinkage (hs.keptAbove hc hm) hv
  have his := hs.insertable hc hm
  obtain ⟨h4, h34, hp4, hk4⟩ := insertAfter_ok hm.wellFormed his (.inr (by rw [hn3, hk])) hp3 ha3
    (insertAfterLinks_inserted hm.wellFormed.toLinkage his.kind his.detached (hs.blocks_moved hc hm))
  refine ⟨h4, ?_, hp4, hv.trans hn3 hk4⟩
  rw [moveSuffix, ok_bind h01, ok_bind h23, h34]

theorem splitBlockBefore_ok {B1 B2 : List Ref} (hw : WellFormed h) (hr : Rooted h c) (hk : h.kind c = .function)
    (hp : Positioned h) (ha : At h c a) (hB : h.children c = B1 ++ b :: B2) (hb : h.children b = l₁ ++ p :: l₂) :
    ∃ h', splitBlockBefore .offset h c p = .ok h' ∧ Positioned h' ∧
      ∀ z, z < h.fresh → (h.kind z).height ≤ (h.kind c).height → h'.position z = h.position z := by
  have hl := hw.toLinkage
  have hc : b ∈ h.children c := by rw [hB]; simp
  have hpb : p ∈ h.children b := by rw [hb]; simp
  have hkb : h.kind b = .block := by
    have := (hl.linked c).kind b hc
    rw [hk] at this
    exact (Option.some.inj this).symm
  obtain ⟨ob, ho⟩ := hp.offset hl (.inr hk) hc
  obtain ⟨op, hop⟩ := hp.offset hl (.inl hkb) hpb
  have hpc := placeNewBlock_ok (b := b) hw ha (hl.allocated c b hc).2 (.child hop hpb (.child ho hc ha))
    (hl.allocated b p hpb).1
  set h1 := (newBlock h).2.setPosition h.fresh (some (offsetPosition (a + ob + op - a))) with hh1
  have ht : SameTree (newBlock h).2 h1 := sameTree_setPosition _ _ _
  have hs := newBlock_splittable hw hr hk hB hb ht
  have hp1 : Positioned h1 := (hp.newBlock hl).setPosition (.inr (update_self ..)) _
  have ha1 : At h1 c a := by
    refine (ha.newBlock hl (hl.allocated c b hc).2).transfer (P := (· < h.fresh)) (hl.allocated c b hc).2
      (fun y d hy hd => ?_) (fun y hy => update_of_ne (ne_of_lt hy) ..) (fun _ _ => rfl) (fun _ _ _ hd => hd)
    have hdf : d ≠ h.fresh := by
      rintro rfl
      rw [show (newBlock h).2.children h.fresh = [] from update_self ..] at hd
      cases hd
    rw [show (newBlock h).2.children d = h.children d from update_of_ne hdf ..] at hd
    exact (hl.allocated d y hd).2
  have hk1 : ∀ z, z < h.fresh → h1.kind z = h.kind z := fun z hz => update_of_ne (ne_of_lt hz) ..
  have hf := (hl.allocated c b hc).2
  obtain ⟨h', hn, hp', hk'⟩ := moveSuffix_ok hs (by rw [hk1 c hf, hk]) hp1 ha1 (update_self ..)
  refine ⟨h', ?_, hp', fun z hz hzc => ?_⟩
  · rw [splitBlockBefore_eq hl hkb hb, ok_bind hpc]
    dsimp only
    rw [hs.list, drop_left, hn]
  · rw [hk' z (by rwa [hk1 z hz, hk1 c hf])]
    exact (update_of_ne (ne_of_lt hz) ..).trans (update_of_ne (ne_of_lt hz) ..)

end

end Egalito
