/-
The linkage of the chunk tree: a chunk's child list, the sibling pointers and the parent pointers say the same.
-/
import Egalito.Operation.Frame
import Egalito.Lib.Linked

namespace Egalito

open Heap Mutator List
open Function (update update_of_ne update_self)

variable {S : Type} {h h' : Heap S} {c x p : Ref} {l₁ l₂ : List Ref}

/-- The sibling pointers of the children of `c` are the neighbours in the list, null at both ends,
and their parent is `c`. -/
structure WellLinked (h : Heap S) (c : Ref) : Prop where
  nodup : (h.children c).Nodup
  linked : Lib.Linked h.prev h.next none (h.children c) none
  parent : ∀ x ∈ h.children c, h.parent x = some c
  kind : ∀ x ∈ h.children c, (h.kind c).childType = some (h.kind x)

structure Linkage (h : Heap S) : Prop where
  linked : ∀ c, WellLinked h c
  allocated : ∀ c, ∀ x ∈ h.children c, x < h.fresh ∧ c < h.fresh

def Detached (h : Heap S) (x : Ref) : Prop := ∀ c, x ∉ h.children c

theorem Linkage.eq_of_mem (hl : Linkage h) {d} (hc : x ∈ h.children c) (hd : x ∈ h.children d) : c = d := by
  have := (hl.linked c).parent x hc
  rw [(hl.linked d).parent x hd] at this
  cases this
  rfl

theorem Linkage.neighbours (hl : Linkage h) (hc : h.children c = l₁ ++ x :: l₂) :
    h.prev x = l₁.getLast? ∧ h.next x = l₂.head? := by
  have hlk := (hl.linked c).linked
  rw [hc] at hlk
  simpa using hlk.neighbours

theorem Linkage.sameTree (hl : Linkage h) (hs : SameTree h h') : Linkage h' := by
  obtain ⟨q, rfl⟩ := hs
  exact ⟨fun c => ⟨(hl.linked c).nodup, (hl.linked c).linked, (hl.linked c).parent, (hl.linked c).kind⟩, hl.allocated⟩

/-! ## Splicing -/

/-- Everything but pointers, lists and positions is as before. -/
structure SamePayload (h h' : Heap S) : Prop where
  kind : h'.kind = h.kind
  computedSize : h'.computedSize = h.computedSize
  semantic : h'.semantic = h.semantic
  fresh : h'.fresh = h.fresh

theorem SamePayload.refl (h : Heap S) : SamePayload h h := ⟨rfl, rfl, rfl, rfl⟩

theorem SamePayload.trans {h''} (h1 : SamePayload h h') (h2 : SamePayload h' h'') : SamePayload h h'' :=
  ⟨h2.kind.trans h1.kind, h2.computedSize.trans h1.computedSize, h2.semantic.trans h1.semantic, h2.fresh.trans h1.fresh⟩

theorem SamePayload.getSize [Sized S] (hs : SamePayload h h') (x) : h'.getSize x = h.getSize x := by
  unfold Heap.getSize
  rw [hs.kind, hs.computedSize, hs.semantic]

/-- `x` now stands between `l₁` and `l₂`, which were the children of `c`. -/
structure Inserted (h h' : Heap S) (c : Ref) (l₁ : List Ref) (x : Ref) (l₂ : List Ref) : Prop where
  payload : SamePayload h h'
  before : h.children c = l₁ ++ l₂
  children : h'.children = update h.children c (l₁ ++ x :: l₂)
  parent : h'.parent = update h.parent x (some c)
  prev : h'.prev x = l₁.getLast?
  next : h'.next x = l₂.head?
  nextPrev : ∀ y, l₂.head? = some y → h'.prev y = some x
  prevNext : ∀ y, l₁.getLast? = some y → h'.next y = some x
  otherPrev : ∀ y, y ≠ x → l₂.head? ≠ some y → h'.prev y = h.prev y
  otherNext : ∀ y, y ≠ x → l₁.getLast? ≠ some y → h'.next y = h.next y

/-- `x`, which stood between `l₁` and `l₂`, is no longer a child of `c`. -/
structure Removed (h h' : Heap S) (c : Ref) (l₁ : List Ref) (x : Ref) (l₂ : List Ref) : Prop where
  payload : SamePayload h h'
  before : h.children c = l₁ ++ x :: l₂
  children : h'.children = update h.children c (l₁ ++ l₂)
  parent : h'.parent = h.parent
  nextPrev : ∀ y, l₂.head? = some y → h'.prev y = l₁.getLast?
  prevNext : ∀ y, l₁.getLast? = some y → h'.next y = l₂.head?
  otherPrev : ∀ y, l₂.head? ≠ some y → h'.prev y = h.prev y
  otherNext : ∀ y, l₁.getLast? ≠ some y → h'.next y = h.next y

theorem WellLinked.of_frame (hl : WellLinked h c) (hk : h'.kind = h.kind) (hc : h'.children c = h.children c)
    (hr : ∀ y ∈ h.children c, h'.parent y = h.parent y) (hp : ∀ y ∈ h.children c, h'.prev y = h.prev y)
    (hn : ∀ y ∈ h.children c, h'.next y = h.next y) : WellLinked h' c := by
  refine ⟨by rw [hc]; exact hl.nodup, by rw [hc]; exact hl.linked.frame hp hn, ?_, ?_⟩
  · intro y hy
    rw [hc] at hy
    rw [hr y hy, hl.parent y hy]
  · intro y hy
    rw [hc] at hy
    rw [hk, hl.kind y hy]

theorem Linkage.inserted (hl : Linkage h) (hi : Inserted h h' c l₁ x l₂) (hd : Detached h x)
    (hk : (h.kind c).childType = some (h.kind x)) (hx : x < h.fresh) (hc : c < h.fresh) : Linkage h' := by
  have hm : ∀ y ∈ l₁ ++ l₂, y ∈ h.children c := by rw [hi.before]; exact fun y hy => hy
  have hne : ∀ y ∈ l₁ ++ l₂, y ≠ x := by
    rintro y hy rfl
    exact hd c (hm y hy)
  have hn : h'.children c = l₁ ++ x :: l₂ := by rw [hi.children, update_self]
  have ho : ∀ d, d ≠ c → h'.children d = h.children d := by
    intro d hdc
    rw [hi.children, update_of_ne hdc]
  have hkd := hi.payload.kind
  refine ⟨fun d => ?_, fun d y hy => ?_⟩
  · by_cases hdc : d = c
    · -- the list itself: a splice of a linked list
      subst hdc
      have hnd := (hl.linked d).nodup
      have hlk := (hl.linked d).linked
      rw [hi.before] at hnd hlk
      refine ⟨?_, ?_, ?_, ?_⟩
      · rw [hn, nodup_middle, nodup_cons]
        exact ⟨fun hx => hne x hx rfl, hnd⟩
      · rw [hn]
        exact hlk.insert hnd (by simpa using hi.prev) (by simpa using hi.next) hi.nextPrev hi.prevNext
          (fun y hy => hi.otherPrev y (hne y hy)) (fun y hy => hi.otherNext y (hne y hy))
      · intro y hy
        rw [hi.parent]
        by_cases hyx : y = x
        · rw [hyx, update_self]
        · rw [update_of_ne hyx]
          rw [hn, mem_append, mem_cons] at hy
          exact (hl.linked d).parent y (hm y (by rw [mem_append]; tauto))
      · intro y hy
        rw [hkd]
        by_cases hyx : y = x
        · rw [hyx]; exact hk
        · rw [hn, mem_append, mem_cons] at hy
          exact (hl.linked d).kind y (hm y (by rw [mem_append]; tauto))
    · -- another list: none of its members is `x` or next to it
      have hyx : ∀ y ∈ h.children d, y ≠ x := by
        rintro y hy rfl
        exact hd d hy
      have ht : ∀ y ∈ h.children d, y ∉ l₁ ++ l₂ := fun y hy hy' => hdc (hl.eq_of_mem hy (hm y hy'))
      refine (hl.linked d).of_frame hkd (ho d hdc) ?_ ?_ ?_
      · intro y hy
        rw [hi.parent, update_of_ne (hyx y hy)]
      · intro y hy
        exact hi.otherPrev y (hyx y hy) fun e => ht y hy (mem_append_right _ (mem_of_head? e))
      · intro y hy
        exact hi.otherNext y (hyx y hy) fun e => ht y hy (mem_append_left _ (mem_of_getLast? e))
  · rw [hi.payload.fresh]
    by_cases hdc : d = c
    · subst hdc
      rw [hn, mem_append, mem_cons] at hy
      refine ⟨?_, hc⟩
      rcases hy with hy | rfl | hy
      · exact (hl.allocated d y (hm y (mem_append_left _ hy))).1
      · exact hx
      · exact (hl.allocated d y (hm y (mem_append_right _ hy))).1
    · rw [ho d hdc] at hy
      exact hl.allocated d y hy

theorem Linkage.removed (hl : Linkage h) (hr : Removed h h' c l₁ x l₂) : Linkage h' := by
  have hm : ∀ y ∈ l₁ ++ l₂, y ∈ h.children c := by
    intro y hy
    rw [hr.before, mem_append, mem_cons]
    rw [mem_append] at hy
    tauto
  have hn : h'.children c = l₁ ++ l₂ := by rw [hr.children, update_self]
  have ho : ∀ d, d ≠ c → h'.children d = h.children d := by
    intro d hd
    rw [hr.children, update_of_ne hd]
  have hk := hr.payload.kind
  refine ⟨fun d => ?_, fun d y hy => ?_⟩
  · by_cases hd : d = c
    · subst hd
      have hnd := (hl.linked d).nodup
      have hlk := (hl.linked d).linked
      rw [hr.before] at hnd hlk
      rw [nodup_middle, nodup_cons] at hnd
      refine ⟨by rw [hn]; exact hnd.2, ?_, ?_, ?_⟩
      · rw [hn]
        exact hlk.remove hnd.2 (by simpa using hr.nextPrev) (by simpa using hr.prevNext)
          (fun y _ => hr.otherPrev y) (fun y _ => hr.otherNext y)
      · intro y hy
        rw [hn] at hy
        rw [hr.parent]
        exact (hl.linked d).parent y (hm y hy)
      · intro y hy
        rw [hn] at hy
        rw [hk]
        exact (hl.linked d).kind y (hm y hy)
    · have ht : ∀ y ∈ h.children d, y ∉ l₁ ++ l₂ := fun y hy hy' => hd (hl.eq_of_mem hy (hm y hy'))
      refine (hl.linked d).of_frame hk (ho d hd) (fun y _ => by rw [hr.parent]) ?_ ?_
      · intro y hy
        exact hr.otherPrev y fun e => ht y hy (mem_append_right _ (mem_of_head? e))
      · intro y hy
        exact hr.otherNext y fun e => ht y hy (mem_append_left _ (mem_of_getLast? e))
  · rw [hr.payload.fresh]
    by_cases hd : d = c
    · subst hd
      rw [hn] at hy
      exact hl.allocated d y (hm y hy)
    · rw [ho d hd] at hy
      exact hl.allocated d y hy

/-! ## The operations splice -/

namespace Mutator

section
variable (q : Option Ref)

@[simp] theorem setPreviousSibling_prev : (setPreviousSibling h c q).prev = update h.prev c q := by
  cases q <;> rfl

@[simp] theorem setPreviousSibling_next : (setPreviousSibling h c q).next = h.next := by cases q <;> rfl

@[simp] theorem setPreviousSibling_children : (setPreviousSibling h c q).children = h.children := by cases q <;> rfl

@[simp] theorem setPreviousSibling_parent : (setPreviousSibling h c q).parent = h.parent := by cases q <;> rfl

@[simp] theorem setNextSibling_next : (setNextSibling h c q).next = update h.next c q := by cases q <;> rfl

@[simp] theorem setNextSibling_prev : (setNextSibling h c q).prev = h.prev := by cases q <;> rfl

@[simp] theorem setNextSibling_children : (setNextSibling h c q).children = h.children := by cases q <;> rfl

@[simp] theorem setNextSibling_parent : (setNextSibling h c q).parent = h.parent := by cases q <;> rfl

theorem setPrevious_payload : SamePayload h (setPreviousSibling h c q) := by
  cases q <;> exact ⟨rfl, rfl, rfl, rfl⟩

theorem setNext_payload : SamePayload h (setNextSibling h c q) := by
  cases q <;> exact ⟨rfl, rfl, rfl, rfl⟩

end

def linkBack (h : Heap S) (n q : Option Ref) : Heap S :=
  match n with
  | some n => setPreviousSibling h n q
  | none => h

def linkOn (h : Heap S) (p q : Option Ref) : Heap S :=
  match p with
  | some p => setNextSibling h p q
  | none => h

section
variable (n q : Option Ref)

@[simp] theorem linkBack_prev (y) : (linkBack h n q).prev y = if n = some y then q else h.prev y := by
  cases n with
  | none => rfl
  | some n => simp [linkBack, Function.update_apply, eq_comm]

@[simp] theorem linkBack_next : (linkBack h n q).next = h.next := by cases n <;> simp [linkBack]

@[simp] theorem linkBack_children : (linkBack h n q).children = h.children := by cases n <;> simp [linkBack]

@[simp] theorem linkBack_parent : (linkBack h n q).parent = h.parent := by cases n <;> simp [linkBack]

theorem linkBack_payload : SamePayload h (linkBack h n q) := by
  cases n with
  | none => exact .refl h
  | some n => exact setPrevious_payload q

@[simp] theorem linkOn_next (y) : (linkOn h n q).next y = if n = some y then q else h.next y := by
  cases n with
  | none => rfl
  | some n => simp [linkOn, Function.update_apply, eq_comm]

@[simp] theorem linkOn_prev : (linkOn h n q).prev = h.prev := by cases n <;> simp [linkOn]

@[simp] theorem linkOn_children : (linkOn h n q).children = h.children := by cases n <;> simp [linkOn]

@[simp] theorem linkOn_parent : (linkOn h n q).parent = h.parent := by cases n <;> simp [linkOn]

theorem linkOn_payload : SamePayload h (linkOn h n q) := by
  cases n with
  | none => exact .refl h
  | some n => exact setNext_payload q

end

theorem insertChild_of_kind (hk : (h.kind c).childType = some (h.kind x)) (i) :
    insertChild h c i x = h.setChildren c ((h.children c).insertIdx i x) := if_pos hk

theorem inserted_of_links {h1} (hk : (h.kind c).childType = some (h.kind x)) (hs : SamePayload h h1)
    (hc : h1.children = h.children) (hr : h1.parent = h.parent) (hb : h.children c = l₁ ++ l₂)
    (hv : h1.prev x = l₁.getLast?) (ht : h1.next x = l₂.head?)
    (hp : ∀ y, l₂.head? = some y → h1.prev y = some x) (hn : ∀ y, l₁.getLast? = some y → h1.next y = some x)
    (hp' : ∀ y, y ≠ x → l₂.head? ≠ some y → h1.prev y = h.prev y)
    (hn' : ∀ y, y ≠ x → l₁.getLast? ≠ some y → h1.next y = h.next y) :
    Inserted h ((insertChild h1 c l₁.length x).setParent x (some c)) c l₁ x l₂ := by
  have hk1 : (h1.kind c).childType = some (h1.kind x) := by rw [hs.kind]; exact hk
  rw [insertChild_of_kind hk1]
  refine ⟨hs.trans ⟨rfl, rfl, rfl, rfl⟩, hb, ?_, ?_, hv, ht, hp, hn, hp', hn'⟩
  · show update h1.children c ((h1.children c).insertIdx l₁.length x) = _
    rw [hc, hb, Lib.insertIdx_length_append]
  · show update h1.parent x (some c) = _
    rw [hr]

/-- Where the old `next` of the appended chunk is null, or the list was empty, `append` splices at
the end; otherwise the old pointer stays. -/
theorem appendLinks_inserted (hk : (h.kind c).childType = some (h.kind x)) (hd : Detached h x)
    (hl : h.children c = [] ∨ h.next x = none) : Inserted h (appendLinks h c x) c (h.children c) x [] := by
  have ht : ∀ h1 : Heap S, h1.kind = h.kind → insertChild (h1.setParent x (some c)) c (h.children c).length x =
      (insertChild h1 c (h.children c).length x).setParent x (some c) := by
    intro h1 h1k
    have hk1 : (h1.kind c).childType = some (h1.kind x) := by rw [h1k]; exact hk
    rw [insertChild_of_kind hk1, insertChild_of_kind (h := h1.setParent x (some c)) hk1]
    rfl
  rw [appendLinks]
  cases hlt : (h.children c).getLast? with
  | none =>
    rw [ht ((h.setPrev x none).setNext x none) rfl]
    refine inserted_of_links hk ⟨rfl, rfl, rfl, rfl⟩ rfl rfl (by simp) ?_ ?_ (by simp) (by simp [hlt]) ?_ ?_
    · rw [hlt]; simp [setPrev, setNext]
    · simp [setPrev, setNext]
    · intro y hy _; simp [setPrev, setNext, hy]
    · intro y hy _; simp [setPrev, setNext, hy]
  | some q =>
    have hq := mem_of_getLast? hlt
    have hx : x ≠ q := by
      rintro rfl
      exact hd c hq
    have hn : h.next x = none := by
      rcases hl with hnl | hn
      · rw [hnl] at hq; cases hq
      · exact hn
    have hs := (setPrevious_payload (h := h) (c := x) (some q)).trans
      (setNext_payload (c := q) (some x))
    rw [ht _ hs.kind]
    refine inserted_of_links hk hs (by simp) (by simp) (by simp) ?_ ?_ (by simp) ?_ ?_ ?_
    · rw [hlt]; simp
    · simp [update_of_ne hx, hn]
    · intro y hy
      rw [hlt] at hy
      cases hy
      simp
    · intro y hy _
      simp [hy]
    · intro y _ hy
      rw [hlt] at hy
      have hyq : y ≠ q := fun e => hy (by rw [e])
      simp [hyq]

theorem insertAfterLinks_inserted (hl : Linkage h) (hk : (h.kind c).childType = some (h.kind x)) (hd : Detached h x)
    (hc : h.children c = l₁ ++ p :: l₂) : Inserted h (insertAfterLinks h c (some p) x) c (l₁ ++ [p]) x l₂ := by
  have hp : p ≠ x := by
    rintro rfl
    exact hd c (by rw [hc]; simp)
  have hh : l₂.head? ≠ some x := fun e => hd c (by rw [hc]; simp [mem_of_head? e])
  have hnd := (hl.linked c).nodup
  rw [hc, nodup_middle, nodup_cons, mem_append, not_or] at hnd
  have hi : (h.children c).idxOf? p = some l₁.length := by rw [hc, Lib.idxOf?_middle _ hnd.1.1]
  have hn : insertAfterLinks h c (some p) x = (insertChild (setNextSibling (setNextSibling
      (linkBack (setPreviousSibling h x (some p)) l₂.head? (some x)) x l₂.head?) p (some x)) c (l₁ ++ [p]).length x).setParent
      x (some c) := by
    simp only [insertAfterLinks, setPreviousSibling_next, (hl.neighbours hc).2, hi, length_append, length_singleton]
    rfl
  rw [hn]
  refine inserted_of_links hk ((setPrevious_payload _).trans ((linkBack_payload _ _).trans
    ((setNext_payload _).trans (setNext_payload _)))) (by simp) (by simp) (by simpa using hc) ?_ ?_ ?_ ?_ ?_ ?_
  · simp [hh]
  · simp [update_of_ne hp.symm]
  · intro y hy; simp [hy]
  · intro y hy; simp at hy; simp [hy]
  · intro y hy hyn; simp [hy, hyn]
  · intro y hy hyl
    have hyp : y ≠ p := by rintro rfl; simp at hyl
    simp [hy, hyp]

/-- With a null point `insertAfter` leaves the old first child alone, which is right for an empty list only. -/
theorem insertAfterLinks_null (hk : (h.kind c).childType = some (h.kind x)) (hc : h.children c = []) :
    Inserted h (insertAfterLinks h c none x) c [] x [] := by
  simp only [insertAfterLinks]
  have hb := hc
  show Inserted h ((insertChild _ c ([] : List Ref).length x).setParent x (some c)) c [] x []
  refine inserted_of_links hk ((setPrevious_payload _).trans ⟨rfl, rfl, rfl, rfl⟩)
    (by simp [setNext]) (by simp [setNext]) hb ?_ ?_ (by simp) (by simp) ?_ ?_
  · simp [setNext]
  · simp [setNext]
  · intro y hy _; simp [setNext, hy]
  · intro y hy _; simp [setNext, hy]

theorem insertBeforeLinks_inserted (hl : Linkage h) (hk : (h.kind c).childType = some (h.kind x)) (hd : Detached h x)
    (hc : h.children c = l₁ ++ p :: l₂) : Inserted h (insertBeforeLinks h c p l₁.length x) c l₁ x (p :: l₂) := by
  have hp : p ≠ x := by
    rintro rfl
    exact hd c (by rw [hc]; simp)
  have hlt : l₁.getLast? ≠ some x := fun e => hd c (by rw [hc]; simp [mem_of_getLast? e])
  have hn : insertBeforeLinks h c p l₁.length x = (insertChild (setPreviousSibling (setPreviousSibling (setNextSibling
      (linkOn h l₁.getLast? (some x)) x (some p)) x l₁.getLast?) p (some x)) c l₁.length x).setParent x (some c) := by
    simp only [insertBeforeLinks, (hl.neighbours hc).1]
    rfl
  rw [hn]
  refine inserted_of_links hk ((linkOn_payload _ _).trans ((setNext_payload _).trans
    ((setPrevious_payload _).trans (setPrevious_payload _)))) (by simp) (by simp) hc ?_ ?_ ?_ ?_ ?_ ?_
  · simp [update_of_ne hp.symm]
  · simp
  · intro y hy; simp at hy; simp [hy]
  · intro y hy
    have hyx : y ≠ x := by rintro rfl; exact hlt hy
    simp [hyx, hy]
  · intro y hy hyp
    have hy' : y ≠ p := by rintro rfl; simp at hyp
    simp [hy, hy']
  · intro y hy hyl; simp [hy, hyl]

theorem removeLinks_removed (hl : Linkage h) (hc : h.children c = l₁ ++ x :: l₂) :
    Removed h (removeLinks h c x) c l₁ x l₂ := by
  have hnd := (hl.linked c).nodup
  rw [hc, nodup_middle, nodup_cons, mem_append, not_or] at hnd
  have he : (h.children c).erase x = l₁ ++ l₂ := by
    rw [hc, erase_append_right _ hnd.1.1, erase_cons_head]
  have hn : removeLinks h c x =
      (linkBack (linkOn h l₁.getLast? l₂.head?) l₂.head? l₁.getLast?).setChildren c (l₁ ++ l₂) := by
    rw [← he]
    simp only [removeLinks, (hl.neighbours hc).1, (hl.neighbours hc).2]
    show Heap.setChildren (linkBack (linkOn h _ _) _ _) c ((linkBack (linkOn h _ _) _ _).children c |>.erase x) = _
    rw [linkBack_children, linkOn_children]
  rw [hn]
  refine ⟨(linkOn_payload _ _).trans ((linkBack_payload _ _).trans ⟨rfl, rfl, rfl, rfl⟩), hc, by simp [setChildren],
    by simp [setChildren], ?_, ?_, ?_, ?_⟩
  · intro y hy; simp [setChildren, hy]
  · intro y hy; simp [setChildren, hy]
  · intro y hy; simp [setChildren, hy]
  · intro y hy; simp [setChildren, hy]

theorem popLast_removed (hl : Linkage h) (hc : h.children c = l₁ ++ [x]) :
    ∃ h', popLast h c = .ok (x, h') ∧ Removed h h' c l₁ x [] ∧ h'.position = h.position := by
  have hp := (hl.neighbours hc).1
  have hlt : (h.children c).getLast? = some x := by rw [hc]; simp
  refine ⟨_, by rw [popLast, hlt], ?_, ?_⟩
  · rw [hp]
    cases hq : l₁.getLast? with
    | none => exact ⟨⟨rfl, rfl, rfl, rfl⟩, hc, by simp [setChildren, hc], rfl, by simp, by simp [hq], fun y _ => rfl,
        fun y _ => rfl⟩
    | some q =>
      refine ⟨⟨rfl, rfl, rfl, rfl⟩, hc, by simp [setChildren, setNext, hc], rfl, by simp, ?_, fun y _ => rfl, ?_⟩
      · intro y hy
        rw [hq] at hy
        cases hy
        simp [setChildren, setNext]
      · intro y hy
        have hyq : y ≠ q := by rintro rfl; exact hy hq
        simp [setChildren, setNext, hyq]
  · rw [hp]
    cases l₁.getLast? <;> rfl

end Mutator

end Egalito
