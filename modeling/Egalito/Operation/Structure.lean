/-
The structural invariant of the chunk tree under the mutator: linkage plus sizes.

Each splice is shown to keep `Linkage`, each update of sizes to restore the balance of sums, and so each operation to
keep `WellFormed`.
-/
import Egalito.Operation.Sizes

namespace Egalito

open Lib Heap Mutator List
open Function (update update_of_ne update_self)
open Sized

variable {S : Type} {h h1 h2 h' : Heap S} {c d x p : Ref} {l₁ l₂ : List Ref}

theorem Linkage.idxOf? (hl : Linkage h) (hc : h.children c = l₁ ++ p :: l₂) : (h.children c).idxOf? p = some l₁.length := by
  have hnd := (hl.linked c).nodup
  rw [hc, nodup_middle, nodup_cons, mem_append, not_or] at hnd
  rw [hc, idxOf?_middle _ hnd.1.1]

/-! ## The same tree up to sizes -/

/-- The two heaps differ in computed sizes and positions only. -/
structure Agree (h h' : Heap S) : Prop where
  kind : h'.kind = h.kind
  parent : h'.parent = h.parent
  prev : h'.prev = h.prev
  next : h'.next = h.next
  children : h'.children = h.children
  semantic : h'.semantic = h.semantic
  fresh : h'.fresh = h.fresh

theorem Agree.trans (h01 : Agree h h1) (h12 : Agree h1 h2) : Agree h h2 :=
  ⟨h12.kind.trans h01.kind, h12.parent.trans h01.parent, h12.prev.trans h01.prev, h12.next.trans h01.next,
    h12.children.trans h01.children, h12.semantic.trans h01.semantic, h12.fresh.trans h01.fresh⟩

theorem Heap.SameTree.agree (hs : SameTree h h') : Agree h h' := by
  obtain ⟨q, rfl⟩ := hs
  exact ⟨rfl, rfl, rfl, rfl, rfl, rfl, rfl⟩

theorem SameButSizes.agree (hs : SameButSizes h h') : Agree h h' := by
  obtain ⟨s, rfl⟩ := hs
  exact ⟨rfl, rfl, rfl, rfl, rfl, rfl, rfl⟩

theorem Rooted.agree (hr : Rooted h c) (ha : Agree h h') : Rooted h' c := by
  induction hr with
  | top hp => exact .top (by rw [ha.parent]; exact hp)
  | child hp hc _ ih => exact .child (by rw [ha.parent]; exact hp) (by rw [ha.children]; exact hc) ih

theorem Rooted.transfer (hr : Rooted h c) {P : Ref → Prop} (hP : P c) (hu : ∀ y d, P y → y ∈ h.children d → P d)
    (hp : ∀ y, P y → h'.parent y = h.parent y) (hc : ∀ y d, P y → y ∈ h.children d → y ∈ h'.children d) :
    Rooted h' c := by
  induction hr with
  | top hpr => exact .top (by rw [hp _ hP]; exact hpr)
  | child hpr hd _ ih => exact .child (by rw [hp _ hP]; exact hpr) (hc _ _ hP hd) (ih (hu _ _ hP hd))

/-- A change that leaves alone the pointers of the chunks at least as high as `c`. -/
structure KeptAbove (h h' : Heap S) (c : Ref) : Prop where
  parent : ∀ y, (h.kind y).height ≤ (h.kind c).height → h'.parent y = h.parent y
  child : ∀ y d, (h.kind y).height ≤ (h.kind c).height → y ∈ h.children d → y ∈ h'.children d

theorem Linkage.height_le (hl : Linkage h) {y d} (hy : (h.kind y).height ≤ (h.kind c).height)
    (hd : y ∈ h.children d) : (h.kind d).height ≤ (h.kind c).height := by
  have := Kind.height_child ((hl.linked d).kind y hd)
  omega

theorem Rooted.frame (hl : Linkage h) (hr : Rooted h c) (hk : KeptAbove h h' c) : Rooted h' c :=
  hr.transfer (P := fun y => (h.kind y).height ≤ (h.kind c).height) le_rfl (fun _ _ => hl.height_le) hk.parent hk.child

section
variable [Sized S]

/-- The structural invariant: lists, sibling and parent pointers agree, and the size of every
`Block` and `Function` is the sum of the sizes of its children. -/
structure WellFormed (h : Heap S) : Prop extends Linkage h where
  balanced : Balanced h

theorem Balanced.sameTree (hb : Balanced h) (hs : SameTree h h') : Balanced h' := by
  obtain ⟨q, rfl⟩ := hs
  exact hb

theorem Owes.sameTree {add} (ho : Owes h c add) (hs : SameTree h h') : Owes h' c add := by
  obtain ⟨q, rfl⟩ := hs
  exact ho

theorem WellFormed.sameTree (hw : WellFormed h) (hs : SameTree h h') : WellFormed h' :=
  ⟨hw.toLinkage.sameTree hs, hw.balanced.sameTree hs⟩

/-! ## Splices and sizes -/

theorem total_of_payload (hs : SamePayload h h') (e) :
    total h' e = ((h'.children e).map fun x => (h.getSize x : Int)).sum := by
  unfold total
  simp only [hs.getSize]

theorem Inserted.owes (hb : Balanced h) (hi : Inserted h h' c l₁ x l₂) : Owes h' c (h.getSize x) := by
  intro e he
  have ht : Tracked h e := by unfold Tracked at he ⊢; rwa [hi.payload.kind] at he
  rw [total_of_payload hi.payload, hi.payload.computedSize, hb e ht]
  by_cases hc : e = c
  · subst hc
    rw [if_pos rfl, hi.children, update_self, total, hi.before]
    simp only [map_append, map_cons, sum_append, sum_cons]
    ring
  · rw [if_neg hc, hi.children, update_of_ne hc, add_zero, total]

theorem Removed.owes {add} (ho : Owes h c add) (hr : Removed h h' c l₁ x l₂) : Owes h' c (add - h.getSize x) := by
  intro e he
  have ht : Tracked h e := by unfold Tracked at he ⊢; rwa [hr.payload.kind] at he
  have hp := ho e ht
  rw [total_of_payload hr.payload, hr.payload.computedSize]
  by_cases hc : e = c
  · subst hc
    rw [if_pos rfl, total, hr.before] at hp
    simp only [map_append, map_cons, sum_append, sum_cons] at hp
    rw [if_pos rfl, hr.children, update_self, map_append, sum_append]
    omega
  · rw [if_neg hc] at hp ⊢
    rw [hp, hr.children, update_of_ne hc, total]

end

theorem Inserted.keptAbove (hi : Inserted h h' c l₁ x l₂) (hk : (h.kind c).childType = some (h.kind x)) :
    KeptAbove h h' c := by
  have hh := Kind.height_child hk
  refine ⟨fun y hy => ?_, fun y d hy hyd => ?_⟩
  · -- `x` is lower than `c`, so it is none of the chunks above
    have hyx : y ≠ x := by
      rintro rfl
      omega
    rw [hi.parent, update_of_ne hyx]
  · rw [hi.children]
    by_cases hd : d = c
    · subst hd
      rw [update_self]
      rw [hi.before, mem_append] at hyd
      rw [mem_append, mem_cons]
      tauto
    · rwa [update_of_ne hd]

section

variable (hl : Linkage h)
include hl

theorem Removed.keptAbove (hr : Removed h h' c l₁ x l₂) : KeptAbove h h' c := by
  have hc : x ∈ h.children c := by rw [hr.before]; simp
  have hh := Kind.height_child ((hl.linked c).kind x hc)
  refine ⟨fun y _ => by rw [hr.parent], fun y d hy hyd => ?_⟩
  have hyx : y ≠ x := by
    rintro rfl
    omega
  rw [hr.children]
  by_cases hd : d = c
  · subst hd
    rw [update_self]
    rw [hr.before, mem_append, mem_cons] at hyd
    rw [mem_append]
    tauto
  · rwa [update_of_ne hd]

theorem checkChildren_of_mem (hx : x ∈ h.children c) : checkChildren h c = .ok () := by
  rw [checkChildren, (hl.linked c).kind x hx]
  rfl

theorem kind_ne_of_mem (hx : x ∈ h.children c) : h.kind c ≠ .instruction := by
  intro e
  have := (hl.linked c).kind x hx
  rw [e] at this
  cases this

theorem Linkage.setSemantic (x) (s : S) : Linkage (h.setSemantic x s) :=
  ⟨fun c => ⟨(hl.linked c).nodup, (hl.linked c).linked, (hl.linked c).parent, (hl.linked c).kind⟩, hl.allocated⟩

end

/-- The children of `c` cut down to `l₁`; sizes and the cut pointers apart, all else is as before. -/
structure Truncated (h h' : Heap S) (c : Ref) (l₁ : List Ref) : Prop where
  kind : h'.kind = h.kind
  parent : h'.parent = h.parent
  semantic : h'.semantic = h.semantic
  fresh : h'.fresh = h.fresh
  children : h'.children = update h.children c l₁
  linkage : Linkage h'
  rooted : Rooted h' c

theorem Truncated.agree (ht : Truncated h h1 c l₁) (ha : Agree h1 h') (hl : Linkage h') : Truncated h h' c l₁ :=
  ⟨ha.kind.trans ht.kind, ha.parent.trans ht.parent, ha.semantic.trans ht.semantic, ha.fresh.trans ht.fresh,
    ha.children.trans ht.children, hl, ht.rooted.agree ha⟩

theorem Truncated.mem (ht : Truncated h h' c l₁) (hc : h.children c = l₁ ++ l₂) {d y} (hy : y ∈ h'.children d) :
    y ∈ h.children d := by
  rw [ht.children] at hy
  by_cases hd : d = c
  · subst hd
    rw [update_self] at hy
    rw [hc]
    exact mem_append_left _ hy
  · rwa [update_of_ne hd] at hy

/-! ## Insertion -/

/-- What every insertion of `x` into `c` needs. -/
structure Insertable (h : Heap S) (c x : Ref) : Prop where
  rooted : Rooted h c
  kind : (h.kind c).childType = some (h.kind x)
  detached : Detached h x
  allocated : x < h.fresh ∧ c < h.fresh

theorem Insertable.checkChildren (hi : Insertable h c x) : checkChildren h c = .ok () := by
  rw [Mutator.checkChildren, hi.kind]
  rfl

theorem Insertable.kind_ne (hi : Insertable h c x) : h.kind c ≠ .instruction := by
  intro e
  have := hi.kind
  rw [e] at this
  cases this

section
variable [Sized S] {mode : Mode}

/-- The outcome of an insertion: a splice up to sizes and positions, well formed again. -/
structure InsertedWF (h h' : Heap S) (c : Ref) (l₁ : List Ref) (x : Ref) (l₂ : List Ref) : Prop where
  splice : ∃ h1, Inserted h h1 c l₁ x l₂ ∧ Agree h1 h'
  wellFormed : WellFormed h'

section

variable (hw : WellFormed h) (hx : Insertable h c x)
include hw hx

theorem Inserted.sizes (hi : Inserted h h1 c l₁ x l₂) (hs : SameTree h1 h2) :
    ∃ h3, addToSizes h2 c (h2.getSize x) = .ok h3 ∧ SameButSizes h2 h3 ∧ WellFormed h3 := by
  have hl2 := (hw.toLinkage.inserted hi hx.detached hx.kind hx.allocated.1 hx.allocated.2).sameTree hs
  have hr2 := (hx.rooted.frame hw.toLinkage (hi.keptAbove hx.kind)).agree hs.agree
  have hz : h2.getSize x = h.getSize x := by
    obtain ⟨q, rfl⟩ := hs
    exact hi.payload.getSize x
  have ho : Owes h2 c (h2.getSize x) := by
    rw [hz]
    exact (hi.owes hw.balanced).sameTree hs
  have hk2 : h2.kind c ≠ .instruction := by
    rw [hs.agree.kind, hi.payload.kind]
    exact hx.kind_ne
  obtain ⟨h3, h23, hss, hb3⟩ := addToSizes_spec hl2 hr2 hk2 ho
  exact ⟨h3, h23, hss, ⟨hl2.sameButSizes hss, hb3⟩⟩

/-- A splice followed by position work and `updateSizesAndAuthorities`. -/
theorem Inserted.finish (hi : Inserted h h1 c l₁ x l₂) (hs : SameTree h1 h2)
    (hu : updateSizesAndAuthorities mode h2 c x = .ok h') : InsertedWF h h' c l₁ x l₂ := by
  obtain ⟨h3, h23, hss, hw3⟩ := hi.sizes hw hx hs
  rw [updateSizesAndAuthorities, ok_bind h23] at hu
  have ht := updateGeneration_sameTree hu
  exact ⟨⟨h1, hi, (hs.agree.trans hss.agree).trans ht.agree⟩, hw3.sameTree ht⟩

theorem append_spec (hs : h.children c = [] ∨ h.next x = none) (hr : append mode h c x = .ok h') :
    InsertedWF h h' c (h.children c) x [] := by
  rw [append, ok_bind hx.checkChildren] at hr
  obtain ⟨h2, h12, hu⟩ := bind_iff.1 hr
  exact (appendLinks_inserted hx.kind hx.detached hs).finish hw hx (ensurePosition_sameTree h12) hu

theorem insertAfter_of_inserted {point} (hi : Inserted h (insertAfterLinks h c point x) c l₁ x l₂)
    (hr : insertAfter mode h c point x = .ok h') : InsertedWF h h' c l₁ x l₂ := by
  rw [insertAfter, ok_bind hx.checkChildren] at hr
  obtain ⟨h2, h12, hr⟩ := bind_iff.1 hr
  obtain ⟨h3, h23, hn⟩ := bind_iff.1 hr
  obtain ⟨⟨h1, hi1, ha⟩, hw3⟩ := hi.finish hw hx (ensurePosition_sameTree h12) h23
  have hs := renewNextChild_sameTree hn
  exact ⟨⟨h1, hi1, ha.trans hs.agree⟩, hw3.sameTree hs⟩

theorem insertAfter_spec (hc : h.children c = l₁ ++ p :: l₂) (hr : insertAfter mode h c (some p) x = .ok h') :
    InsertedWF h h' c (l₁ ++ [p]) x l₂ :=
  insertAfter_of_inserted hw hx (insertAfterLinks_inserted hw.toLinkage hx.kind hx.detached hc) hr

theorem insertAfter_null_spec (hc : h.children c = []) (hr : insertAfter mode h c none x = .ok h') :
    InsertedWF h h' c [] x [] :=
  insertAfter_of_inserted hw hx (insertAfterLinks_null hx.kind hc) hr

theorem insertBefore_spec (hc : h.children c = l₁ ++ p :: l₂) (hr : insertBefore mode h c (some p) x = .ok h') :
    InsertedWF h h' c l₁ x (p :: l₂) := by
  simp only [insertBefore, hw.toLinkage.idxOf? hc] at hr
  rw [ok_bind hx.checkChildren] at hr
  obtain ⟨h2, h12, hr⟩ := bind_iff.1 hr
  obtain ⟨h3, h23, hu⟩ := bind_iff.1 hr
  exact (insertBeforeLinks_inserted hw.toLinkage hx.kind hx.detached hc).finish hw hx
    ((ensurePosition_sameTree h12).trans (demoteFirst_sameTree h23)) hu

end

/-! ## Removal -/

structure RemovedWF (h h' : Heap S) (c : Ref) (l₁ : List Ref) (x : Ref) (l₂ : List Ref) : Prop where
  splice : ∃ h1, Removed h h1 c l₁ x l₂ ∧ Agree h1 h'
  wellFormed : WellFormed h'

theorem remove_sizes (hw : WellFormed h) (hr : Rooted h c) (hc : h.children c = l₁ ++ x :: l₂) :
    ∃ h2, subtractFromSizes (removeLinks h c x) c (h.getSize x) = .ok h2 ∧ SameButSizes (removeLinks h c x) h2 ∧
      WellFormed h2 := by
  have hm := removeLinks_removed hw.toLinkage hc
  have hl1 := hw.toLinkage.removed hm
  have hk1 : (removeLinks h c x).kind c ≠ .instruction := by
    rw [hm.payload.kind]
    exact kind_ne_of_mem hw.toLinkage (show x ∈ h.children c by rw [hc]; simp)
  have ho : Owes (removeLinks h c x) c (-(h.getSize x)) := by
    simpa using hm.owes (owes_zero.2 hw.balanced)
  obtain ⟨h2, h12, hs, hb⟩ := subtractFromSizes_spec hl1 (hr.frame hw.toLinkage (hm.keptAbove hw.toLinkage)) hk1 ho
  exact ⟨h2, h12, hs, ⟨hl1.sameButSizes hs, hb⟩⟩

theorem remove_spec (hw : WellFormed h) (hr : Rooted h c) (hc : h.children c = l₁ ++ x :: l₂)
    (hn : remove mode h c x = .ok h') : RemovedWF h h' c l₁ x l₂ := by
  have hx : x ∈ h.children c := by rw [hc]; simp
  obtain ⟨h2, h12, hss, hw2⟩ := remove_sizes hw hr hc
  rw [remove, ok_bind (checkChildren_of_mem hw.toLinkage hx), ok_bind h12] at hn
  have hs := updateGeneration_sameTree hn
  exact ⟨⟨_, removeLinks_removed hw.toLinkage hc, hss.agree.trans hs.agree⟩, hw2.sameTree hs⟩

theorem popMany_spec : ∀ l₂ {h : Heap S} (removed : Nat), Linkage h → Rooted h c → Owes h c (-removed) →
    h.children c = l₁ ++ l₂ → ∃ h' r, popMany l₂.length h c removed = .ok (r, h') ∧ Truncated h h' c l₁ ∧
      Owes h' c (-r) ∧ h'.position = h.position := by
  intro l₂
  induction l₂ using reverseRecOn with
  | nil =>
    intro h removed hl hr ho hc
    have hs : update h.children c l₁ = h.children := by
      rw [show l₁ = h.children c by rw [hc, append_nil], Function.update_eq_self]
    exact ⟨h, removed, rfl, ⟨rfl, rfl, rfl, rfl, hs.symm, hl, hr⟩, ho, rfl⟩
  | append_singleton l₂ x ih =>
    intro h removed hl hr ho hc
    rw [← append_assoc] at hc
    obtain ⟨h1, hpp, hm, hp⟩ := popLast_removed hl hc
    have ho1 : Owes h1 c (-((removed + h1.getSize x : Nat) : Int)) := by
      have := hm.owes ho
      rw [hm.payload.getSize]
      rwa [Nat.cast_add, neg_add, ← sub_eq_add_neg]
    have hc1 : h1.children c = l₁ ++ l₂ := by rw [hm.children, update_self, append_nil]
    obtain ⟨h2, r, hn, ht, ho2, hp2⟩ := ih _ (hl.removed hm) (hr.frame hl (hm.keptAbove hl)) ho1 hc1
    refine ⟨h2, r, ?_, ⟨ht.kind.trans hm.payload.kind, ht.parent.trans hm.parent,
      ht.semantic.trans hm.payload.semantic, ht.fresh.trans hm.payload.fresh, ?_, ht.linkage, ht.rooted⟩, ho2,
      hp2.trans hp⟩
    · rw [length_append, length_singleton, popMany, ok_bind hpp]
      exact hn
    · rw [ht.children, hm.children, Function.update_idem]

theorem removeLast_sizes (hw : WellFormed h) (hr : Rooted h c) (hk : (h.kind c).childType.isSome)
    (hc : h.children c = l₁ ++ l₂) :
    ∃ h1 r h2, popMany l₂.length h c 0 = .ok (r, h1) ∧ h1.position = h.position ∧ Truncated h h1 c l₁ ∧
      subtractFromSizes h1 c r = .ok h2 ∧ SameButSizes h1 h2 ∧ WellFormed h2 := by
  obtain ⟨h1, r, hpp, ht, ho, hp⟩ := popMany_spec l₂ 0 hw.toLinkage hr
    (by simpa using owes_zero.2 hw.balanced) hc
  have hk1 : h1.kind c ≠ .instruction := by
    rw [ht.kind]
    intro e
    rw [e] at hk
    cases hk
  obtain ⟨h2, h12, hs, hb⟩ := subtractFromSizes_spec ht.linkage ht.rooted hk1 ho
  exact ⟨h1, r, h2, hpp, hp, ht, h12, hs, ⟨ht.linkage.sameButSizes hs, hb⟩⟩

theorem removeLast_eq {n r} (hk : (h.kind c).childType.isSome) (hp : popMany n h c 0 = .ok (r, h1))
    (hs : subtractFromSizes h1 c r = .ok h2) : removeLast mode h c n = updateGenerationCounts mode h2 c := by
  have hc : checkChildren h c = .ok () := by rw [checkChildren, if_pos hk]
  rw [removeLast, ok_bind hc, ok_bind hp]
  dsimp only
  rw [ok_bind hs]

theorem removeLast_spec (hw : WellFormed h) (hr : Rooted h c) (hk : (h.kind c).childType.isSome)
    (hc : h.children c = l₁ ++ l₂) (hn : removeLast mode h c l₂.length = .ok h') :
    Truncated h h' c l₁ ∧ WellFormed h' := by
  obtain ⟨h1, r, h2, hp, -, ht, h12, hss, hw2⟩ := removeLast_sizes hw hr hk hc
  rw [removeLast_eq hk hp h12] at hn
  have hs := updateGeneration_sameTree hn
  exact ⟨ht.agree (hss.agree.trans hs.agree) (hw2.sameTree hs).toLinkage, hw2.sameTree hs⟩

/-! ## Semantics -/

theorem total_setSemantic (hl : Linkage h) (hk : h.kind x = .instruction) (s : S) (e) :
    total (h.setSemantic x s) e =
      total h e + if x ∈ h.children e then (size s : Int) - size (h.semantic x) else 0 := by
  refine sum_map_change (fun y hy => ?_) ?_ (hl.linked e).nodup
  · show ((Heap.getSize { h with semantic := update h.semantic x s } y : Nat) : Int) = _
    unfold Heap.getSize
    dsimp only
    rw [update_of_ne hy]
  · show ((Heap.getSize { h with semantic := update h.semantic x s } x : Nat) : Int) = _
    unfold Heap.getSize
    dsimp only
    rw [hk]
    dsimp only
    rw [update_self]
    ring

theorem resize_sizes (s : S) (hw : WellFormed h) (hr : Rooted h c) (hx : x ∈ h.children c)
    (hk : h.kind x = .instruction) :
    ∃ h2, addToSizes (h.setSemantic x s) c ((size s : Int) - size (h.semantic x)) = .ok h2 ∧
      SameButSizes (h.setSemantic x s) h2 ∧ WellFormed h2 := by
  have hl1 := hw.toLinkage.setSemantic x s
  have ho : Owes (h.setSemantic x s) c ((size s : Int) - size (h.semantic x)) := by
    intro e he
    have hb := hw.balanced e he
    show (h.computedSize e : Int) + _ = _
    rw [total_setSemantic hw.toLinkage hk, hb]
    by_cases hc : e = c
    · subst hc
      rw [if_pos rfl, if_pos hx]
    · rw [if_neg hc, if_neg fun hxe => hc (hw.toLinkage.eq_of_mem hxe hx)]
  have hr1 : Rooted (h.setSemantic x s) c := hr.frame hw.toLinkage ⟨fun _ _ => rfl, fun _ _ _ hy => hy⟩
  obtain ⟨h2, h12, hs, hb⟩ := addToSizes_spec hl1 hr1 (kind_ne_of_mem hl1 hx) ho
  exact ⟨h2, h12, hs, ⟨hl1.sameButSizes hs, hb⟩⟩

theorem resize_spec {s} (hw : WellFormed h) (hr : Rooted h c) (hx : x ∈ h.children c) (hk : h.kind x = .instruction)
    (hn : resize mode h c x s = .ok h') : Agree (h.setSemantic x s) h' ∧ WellFormed h' := by
  obtain ⟨h2, h12, hss, hw2⟩ := resize_sizes s hw hr hx hk
  rw [resize, modifiedChildSize, ok_bind h12] at hn
  have hs := updateGeneration_sameTree hn
  exact ⟨hss.agree.trans hs.agree, hw2.sameTree hs⟩

theorem swapSemantics_wellFormed (hw : WellFormed h) (hp : p ∈ h.children c) (hx : x ∈ h.children c)
    (hk : h.kind p = .instruction) (hkx : h.kind x = .instruction) : WellFormed (swapSemantics h p x) := by
  have hl1 := hw.toLinkage.setSemantic p (h.semantic x)
  refine ⟨hl1.setSemantic x (h.semantic p), fun e he => ?_⟩
  have hb := hw.balanced e he
  have h1 := total_setSemantic hw.toLinkage hk (h.semantic x) e
  have h2 := total_setSemantic hl1 hkx (h.semantic p) e
  have hs : size ((h.setSemantic p (h.semantic x)).semantic x) = size (h.semantic x) := by
    show size (update h.semantic p (h.semantic x) x) = _
    by_cases hxp : x = p
    · rw [hxp, update_self]
    · rw [update_of_ne hxp]
  show (h.computedSize e : Int) = total ((h.setSemantic p (h.semantic x)).setSemantic x (h.semantic p)) e
  rw [h2, h1, hs, hb]
  -- both are in the list of `c` and in no other, so what one gains the other loses
  by_cases hc : e = c
  · subst hc
    rw [if_pos hp, if_pos (show x ∈ (h.setSemantic p (h.semantic x)).children e from hx)]
    ring
  · rw [if_neg fun hpe => hc (hw.toLinkage.eq_of_mem hpe hp),
      if_neg (show x ∉ (h.setSemantic p (h.semantic x)).children e from fun hxe => hc (hw.toLinkage.eq_of_mem hxe hx))]
    ring

end

end Egalito
