/-
Splitting a block: the instructions from the split point on move to a new block that follows the
old one in the function.
-/
import Egalito.Operation.Structure

namespace Egalito

open Lib Heap Mutator List
open Function (update update_idem update_of_ne update_self)

variable {S : Type} {h h' : Heap S} {b c nb x p : Ref} {l₁ l₂ : List Ref}

theorem Linkage.children_fresh (hl : Linkage h) : h.children h.fresh = [] := by
  rw [eq_nil_iff_forall_not_mem]
  intro x hx
  exact absurd (hl.allocated _ x hx).2 (lt_irrefl _)

/-- The heap with a new chunk that has no children and is nowhere. -/
def Heap.newChunk (h : Heap S) (k : Kind) (q : Option Position) : Heap S :=
  { h with
    kind := update h.kind h.fresh k
    parent := update h.parent h.fresh none
    prev := update h.prev h.fresh none
    next := update h.next h.fresh none
    children := update h.children h.fresh []
    computedSize := update h.computedSize h.fresh 0
    position := update h.position h.fresh q
    fresh := h.fresh + 1 }

/-- The clearing of the moved instructions: they point nowhere, everything else is as before. -/
structure Cleared (h h' : Heap S) (moved : List Ref) : Prop where
  payload : SamePayload h h'
  children : h'.children = h.children
  parent : ∀ y, y ∉ moved → h'.parent y = h.parent y
  prev : ∀ y, y ∉ moved → h'.prev y = h.prev y
  next : ∀ y, y ∉ moved → h'.next y = h.next y
  position : ∀ y, y ∉ moved → h'.position y = h.position y
  clear : ∀ y ∈ moved, h'.parent y = none ∧ h'.next y = none ∧ h'.position y = none

theorem cleared_foldl : ∀ moved (h : Heap S), Cleared h (moved.foldl detach h) moved
  | [], h => ⟨.refl h, rfl, fun _ _ => rfl, fun _ _ => rfl, fun _ _ => rfl, fun _ _ => rfl, by simp⟩
  | x :: moved, h => by
    have ih := cleared_foldl moved (detach h x)
    have ho : ∀ y, y ∉ x :: moved → y ≠ x ∧ y ∉ moved := by
      intro y hy
      rwa [mem_cons, not_or] at hy
    have h0 : SamePayload h (detach h x) := ⟨rfl, rfl, rfl, rfl⟩
    refine ⟨h0.trans ih.payload, ih.children, ?_, ?_, ?_, ?_, ?_⟩
    · intro y hy
      rw [foldl_cons, ih.parent y (ho y hy).2]
      exact update_of_ne (ho y hy).1 ..
    · intro y hy
      rw [foldl_cons, ih.prev y (ho y hy).2]
      exact update_of_ne (ho y hy).1 ..
    · intro y hy
      rw [foldl_cons, ih.next y (ho y hy).2]
      exact update_of_ne (ho y hy).1 ..
    · intro y hy
      rw [foldl_cons, ih.position y (ho y hy).2]
      exact update_of_ne (ho y hy).1 ..
    · intro y hy
      by_cases hm : y ∈ moved
      · exact ih.clear y hm
      · have hyx : y = x := by simpa [hm] using hy
        subst hyx
        refine ⟨?_, ?_, ?_⟩
        · rw [foldl_cons, ih.parent y hm]; exact update_self ..
        · rw [foldl_cons, ih.next y hm]; exact update_self ..
        · rw [foldl_cons, ih.position y hm]; exact update_self ..

theorem Cleared.linkage {moved} (hl : Linkage h) (hc : Cleared h h' moved) (hd : ∀ y ∈ moved, Detached h y) :
    Linkage h' := by
  have ho : ∀ c, ∀ y ∈ h.children c, y ∉ moved := fun c y hy hm => hd y hm c hy
  refine ⟨fun c => (hl.linked c).of_frame hc.payload.kind (by rw [hc.children]) (fun y hy => hc.parent y (ho c y hy))
    (fun y hy => hc.prev y (ho c y hy)) (fun y hy => hc.next y (ho c y hy)), fun c y hy => ?_⟩
  rw [hc.children] at hy
  rw [hc.payload.fresh]
  exact hl.allocated c y hy

/-- What holds of the next instruction to be moved. -/
structure Movable (h : Heap S) (nb x : Ref) (done rest : List Ref) : Prop where
  newKind : h.kind nb = .block
  newParent : h.parent nb = none
  kind : h.kind x = .instruction
  detached : Detached h x
  allocated : x < h.fresh ∧ nb < h.fresh
  fresh : nb ∉ done ∧ x ∉ done ∧ x ∉ rest
  disjoint : ∀ y ∈ rest, y ∉ done

/-- What holds of all instructions to be moved, `done` being the ones that have been. -/
structure AllMovable (h : Heap S) (nb : Ref) (done rest : List Ref) : Prop where
  newKind : h.kind nb = .block
  newParent : h.parent nb = none
  nodup : (done ++ rest).Nodup
  fresh : nb ∉ done ++ rest
  each : ∀ y ∈ rest, h.kind y = .instruction ∧ Detached h y ∧ y < h.fresh ∧ nb < h.fresh

variable {done rest : List Ref}

theorem AllMovable.head (ha : AllMovable h nb done (x :: rest)) : Movable h nb x done rest := by
  obtain ⟨hk, hd, hc⟩ := ha.each x (by simp)
  have hnd := ha.nodup
  rw [nodup_middle, nodup_cons, mem_append, not_or] at hnd
  refine ⟨ha.newKind, ha.newParent, hk, hd, hc, ⟨fun hn => ha.fresh (mem_append_left _ hn), hnd.1⟩, ?_⟩
  exact fun y hy hyd => (nodup_append.1 ha.nodup).2.2 y hyd y (by simp [hy]) rfl

theorem AllMovable.tail (ha : AllMovable h nb done (x :: rest)) : AllMovable h nb (done ++ [x]) rest := by
  have hc : done ++ x :: rest = done ++ [x] ++ rest := by simp
  exact ⟨ha.newKind, ha.newParent, hc ▸ ha.nodup, hc ▸ ha.fresh, fun y hy => ha.each y (by simp [hy])⟩

section
variable [Sized S] {mode : Mode}

theorem newChunk_wellFormed (hw : WellFormed h) (k) (q) : WellFormed (h.newChunk k q) := by
  have hne : ∀ c, ∀ y ∈ h.children c, y ≠ h.fresh ∧ c ≠ h.fresh := by
    intro c y hy
    have := hw.allocated c y hy
    exact ⟨ne_of_lt this.1, ne_of_lt this.2⟩
  have hl : ∀ c, (h.newChunk k q).children c = h.children c := by
    intro c
    show update h.children h.fresh [] c = _
    by_cases hc : c = h.fresh
    · rw [hc, update_self, hw.toLinkage.children_fresh]
    · rw [update_of_ne hc]
  refine ⟨⟨fun c => ?_, fun c y hy => ?_⟩, fun e he => ?_⟩
  · refine ⟨?_, ?_, ?_, ?_⟩
    · rw [hl]; exact (hw.linked c).nodup
    · rw [hl]
      exact (hw.linked c).linked.frame (fun y hy => update_of_ne (hne c y hy).1 ..)
        (fun y hy => update_of_ne (hne c y hy).1 ..)
    · intro y hy
      rw [hl] at hy
      exact (update_of_ne (hne c y hy).1 ..).trans ((hw.linked c).parent y hy)
    · intro y hy
      rw [hl] at hy
      show ((update h.kind h.fresh k) c).childType = some (update h.kind h.fresh k y)
      rw [update_of_ne (hne c y hy).1, update_of_ne (hne c y hy).2]
      exact (hw.linked c).kind y hy
  · rw [hl] at hy
    have := hw.allocated c y hy
    exact ⟨Nat.lt_succ_of_lt this.1, Nat.lt_succ_of_lt this.2⟩
  · rw [total, hl]
    by_cases hf : e = h.fresh
    · show ((update h.computedSize h.fresh 0 e : Nat) : Int) = _
      rw [hf, update_self, hw.toLinkage.children_fresh]
      rfl
    · have ht : Tracked h e := by
        unfold Tracked at he ⊢
        rwa [show (h.newChunk k q).kind e = h.kind e from update_of_ne hf ..] at he
      show ((update h.computedSize h.fresh 0 e : Nat) : Int) = _
      rw [update_of_ne hf, hw.balanced e ht, total]
      congr 1
      refine map_congr_left fun y hy => ?_
      have hy' := (hne e y hy).1
      unfold Heap.getSize
      rw [show (h.newChunk k q).kind y = h.kind y from update_of_ne hy' ..,
        show (h.newChunk k q).computedSize y = h.computedSize y from update_of_ne hy' ..]
      rfl

theorem newBlock_wellFormed (hw : WellFormed h) : WellFormed (newBlock h).2 := newChunk_wellFormed hw .block none

theorem Cleared.wellFormed {moved} (hw : WellFormed h) (hc : Cleared h h' moved)
    (hd : ∀ y ∈ moved, Detached h y) : WellFormed h' := by
  refine ⟨hc.linkage hw.toLinkage hd, fun e he => ?_⟩
  have ht : Tracked h e := by unfold Tracked at he ⊢; rwa [hc.payload.kind] at he
  rw [total_of_payload hc.payload, hc.payload.computedSize, hc.children, hw.balanced e ht, total]

/-! ## Moving the instructions -/

/-- The heap while instructions are moved to `nb`: those in `done` are its children, the others of
the list still point nowhere. -/
structure Moving (h h' : Heap S) (nb : Ref) (done rest : List Ref) : Prop where
  wellFormed : WellFormed h'
  kind : h'.kind = h.kind
  semantic : h'.semantic = h.semantic
  fresh : h'.fresh = h.fresh
  children : h'.children = update h.children nb done
  parent : ∀ y, y ∉ done → h'.parent y = h.parent y
  loose : ∀ y ∈ rest, h'.next y = none

theorem Moving.insertable {h1} (hm : Moving h h1 nb done (x :: rest)) (hx : Movable h nb x done rest) :
    Insertable h1 nb x := by
  refine ⟨.top (by rw [hm.parent nb hx.fresh.1]; exact hx.newParent), by rw [hm.kind, hx.newKind, hx.kind]; rfl, ?_,
    by rw [hm.fresh]; exact hx.allocated⟩
  intro e he
  rw [hm.children] at he
  by_cases hn : e = nb
  · subst hn
    rw [update_self] at he
    exact hx.fresh.2.1 he
  · rw [update_of_ne hn] at he
    exact hx.detached e he

theorem moveTo_spec {h1 h2} (hm : Moving h h1 nb done (x :: rest)) (hx : Movable h nb x done rest)
    (hr : moveTo mode nb h1 x = .ok h2) : Moving h h2 nb (done ++ [x]) rest := by
  obtain ⟨h3, hap, hp⟩ := bind_iff.1 hr
  have hc : h1.children nb = done := by rw [hm.children, update_self]
  obtain ⟨⟨h4, hi, ha⟩, hw3⟩ := append_spec hm.wellFormed (hm.insertable hx) (.inr (hm.loose x (by simp))) hap
  have hs := makePositionFor_sameTree hp
  have ha2 := ha.trans hs.agree
  rw [hc] at hi
  refine ⟨hw3.sameTree hs, ?_, ?_, ?_, ?_, ?_, ?_⟩
  · rw [ha2.kind, hi.payload.kind, hm.kind]
  · rw [ha2.semantic, hi.payload.semantic, hm.semantic]
  · rw [ha2.fresh, hi.payload.fresh, hm.fresh]
  · rw [ha2.children, hi.children, hm.children, update_idem]
  · intro y hy
    rw [mem_append, not_or, mem_singleton] at hy
    rw [ha2.parent, hi.parent, update_of_ne hy.2, hm.parent y hy.1]
  · intro y hy
    have hyx : y ≠ x := by
      rintro rfl
      exact hx.fresh.2.2 hy
    rw [ha2.next, hi.otherNext y hyx fun e => hx.disjoint y hy (mem_of_getLast? e)]
    exact hm.loose y (by simp [hy])

theorem moveAll_spec : ∀ rest done {h1 h2}, Moving h h1 nb done rest → AllMovable h nb done rest →
    rest.foldlM (moveTo mode nb) h1 = .ok h2 → Moving h h2 nb (done ++ rest) []
  | [], done, _, _, hm, _, hr => by
    cases hr
    rwa [append_nil]
  | x :: rest, done, h1, h2, hm, ha, hr => by
    rw [foldlM_cons] at hr
    obtain ⟨h3, h13, hr⟩ := bind_iff.1 hr
    have := moveAll_spec rest (done ++ [x]) (moveTo_spec hm ha.head h13) ha.tail hr
    rwa [append_assoc] at this

/-! ## The split -/

/-- The outcome of splitting `b`, a child of `c`, before the first of `l₂`. -/
structure SplitWF (h h' : Heap S) (c b : Ref) (l₁ l₂ B₁ B₂ : List Ref) : Prop where
  wellFormed : WellFormed h'
  kind : h'.kind = update h.kind h.fresh .block
  semantic : h'.semantic = h.semantic
  fresh : h'.fresh = h.fresh + 1
  rooted : Rooted h' c
  children : h'.children = update (update (update h.children b l₁) h.fresh l₂) c
    (B₁ ++ b :: h.fresh :: B₂)

theorem placeNewBlock_spec {n} (hn : placeNewBlock mode h c b p = .ok (n, h')) :
    n = h.fresh ∧ SameTree (newBlock h).2 h' := by
  obtain ⟨⟨a1, h1⟩, h01, hn⟩ := bind_iff.1 hn
  obtain ⟨⟨a2, h2⟩, h12, hn⟩ := bind_iff.1 hn
  obtain ⟨⟨q, h3⟩, h23, hr⟩ := bind_iff.1 hn
  cases hr
  exact ⟨rfl, (((getAddress_sameTree _ _ _ _ h01).trans (getAddress_sameTree _ _ _ _ h12)).trans
    (makePosition_sameTree h23)).trans (sameTree_setPosition ..)⟩

/-- The block `b` of `c` before its end `l₂` moves to `nb`, a block that is nowhere yet. -/
structure Splittable (h : Heap S) (c b nb : Ref) (l₁ l₂ B₁ B₂ : List Ref) : Prop where
  wellFormed : WellFormed h
  rooted : Rooted h c
  blocks : h.children c = B₁ ++ b :: B₂
  list : h.children b = l₁ ++ l₂
  kind : h.kind b = .block
  newKind : h.kind nb = .block
  newParent : h.parent nb = none
  newChildren : h.children nb = []
  allocated : nb < h.fresh

namespace Splittable

variable {B₁ B₂ : List Ref} {h1 h2 h3 : Heap S}

section

variable (hs : Splittable h c b nb l₁ l₂ B₁ B₂)
include hs

theorem mem : b ∈ h.children c := by rw [hs.blocks]; simp

theorem childType : (h.kind c).childType = some .block := by
  rw [(hs.wellFormed.linked c).kind b hs.mem, hs.kind]

theorem rootedBlock : Rooted h b :=
  .child ((hs.wellFormed.linked c).parent b hs.mem) hs.mem hs.rooted

theorem instruction {y} (hy : y ∈ h.children b) : h.kind y = .instruction := by
  have := (hs.wellFormed.linked b).kind y hy
  rw [hs.kind] at this
  exact (Option.some.inj this).symm

theorem mem_list {y} (hy : y ∈ l₂) : y ∈ h.children b := by
  rw [hs.list]
  exact mem_append_right _ hy

theorem ne_block : nb ≠ b := by
  rintro rfl
  have := (hs.wellFormed.linked c).parent _ hs.mem
  rw [hs.newParent] at this
  cases this

theorem not_moved : nb ∉ l₂ := fun hn => by
  have := hs.instruction (hs.mem_list hn)
  rw [hs.newKind] at this
  cases this

theorem function_ne {e} (he : h.kind e = .block) : c ≠ e := by
  rintro rfl
  have := hs.childType
  rw [he] at this
  cases this

theorem nodup : (l₁ ++ l₂).Nodup := by
  have := (hs.wellFormed.linked b).nodup
  rwa [hs.list] at this

theorem detached (ht : Truncated h h1 b l₁) : ∀ y ∈ l₂, Detached h1 y := by
  intro y hy e he
  rw [ht.children] at he
  by_cases hb : e = b
  · subst hb
    rw [update_self] at he
    exact (nodup_append.1 hs.nodup).2.2 y he y hy rfl
  · rw [update_of_ne hb] at he
    exact hb (hs.wellFormed.toLinkage.eq_of_mem he (hs.mem_list hy))

end

/-- The heap from which the instructions are moved: `l₂` cut off and cleared. -/
structure Cut (h h2 : Heap S) (b nb : Ref) (l₁ l₂ : List Ref) : Prop where
  start : Moving h2 h2 nb [] l₂
  children : h2.children = update h.children b l₁
  kind : h2.kind = h.kind
  semantic : h2.semantic = h.semantic
  fresh : h2.fresh = h.fresh
  parent : ∀ y, y ∉ l₂ → h2.parent y = h.parent y
  detached : ∀ y ∈ l₂, Detached h2 y

theorem cut (hs : Splittable h c b nb l₁ l₂ B₁ B₂) (ht : Truncated h h1 b l₁) (hw : WellFormed h1)
    (hc : Cleared h1 h2 l₂) : Cut h h2 b nb l₁ l₂ := by
  have hh := hc.children.trans ht.children
  have hn : h2.children nb = [] := by rw [hh, update_of_ne hs.ne_block, hs.newChildren]
  refine ⟨⟨hc.wellFormed hw (hs.detached ht), rfl, rfl, rfl, by rw [← hn, Function.update_eq_self], fun _ _ => rfl,
      fun y hy => (hc.clear y hy).2.1⟩, hh, hc.payload.kind.trans ht.kind, hc.payload.semantic.trans ht.semantic,
    hc.payload.fresh.trans ht.fresh, fun y hy => by rw [hc.parent y hy, ht.parent], fun y hy e he => ?_⟩
  rw [hc.children] at he
  exact hs.detached ht y hy e he

theorem allMovable (hs : Splittable h c b nb l₁ l₂ B₁ B₂) (hc : Cut h h2 b nb l₁ l₂) : AllMovable h2 nb [] l₂ := by
  refine ⟨by rw [hc.kind]; exact hs.newKind, by rw [hc.parent nb hs.not_moved]; exact hs.newParent,
    by simpa using (nodup_append.1 hs.nodup).2.1, by simpa using hs.not_moved,
    fun y hy => ⟨?_, hc.detached y hy, ?_, ?_⟩⟩
  · rw [hc.kind]; exact hs.instruction (hs.mem_list hy)
  · rw [hc.fresh]; exact (hs.wellFormed.allocated b y (hs.mem_list hy)).1
  · rw [hc.fresh]; exact hs.allocated

theorem moved (hs : Splittable h c b nb l₁ l₂ B₁ B₂) (hc : Cut h h2 b nb l₁ l₂)
    (hr : l₂.foldlM (moveTo mode nb) h2 = .ok h3) : Moving h2 h3 nb l₂ [] := by
  simpa using moveAll_spec l₂ [] hc.start (hs.allMovable hc) hr

theorem children_moved (hc : Cut h h2 b nb l₁ l₂) (hm : Moving h2 h3 nb l₂ []) :
    h3.children = update (update h.children b l₁) nb l₂ := by rw [hm.children, hc.children]

theorem keptAbove (hs : Splittable h c b nb l₁ l₂ B₁ B₂) (hc : Cut h h2 b nb l₁ l₂) (hm : Moving h2 h3 nb l₂ []) :
    KeptAbove h h3 c := by
  -- what is moved is lower than the function
  have hh : ∀ y, (h.kind y).height ≤ (h.kind c).height → h.kind y ≠ .instruction := by
    intro y hy e
    have := Kind.height_child hs.childType
    rw [e] at hy
    simp only [Kind.height] at hy this
    omega
  refine ⟨fun y hy => ?_, fun y e hy he => ?_⟩
  · have hl : y ∉ l₂ := fun hl => hh y hy (hs.instruction (hs.mem_list hl))
    rw [hm.parent y hl, hc.parent y hl]
  · have hb : e ≠ b := by
      rintro rfl
      exact hh y hy (hs.instruction he)
    have hn : e ≠ nb := by
      rintro rfl
      rw [hs.newChildren] at he
      cases he
    rw [children_moved hc hm, update_of_ne hn, update_of_ne hb]
    exact he

theorem blocks_moved (hs : Splittable h c b nb l₁ l₂ B₁ B₂) (hc : Cut h h2 b nb l₁ l₂) (hm : Moving h2 h3 nb l₂ []) :
    h3.children c = B₁ ++ b :: B₂ := by
  rw [children_moved hc hm, update_of_ne (hs.function_ne hs.newKind), update_of_ne (hs.function_ne hs.kind),
    hs.blocks]

theorem insertable (hs : Splittable h c b nb l₁ l₂ B₁ B₂) (hc : Cut h h2 b nb l₁ l₂) (hm : Moving h2 h3 nb l₂ []) :
    Insertable h3 c nb := by
  refine ⟨hs.rooted.frame hs.wellFormed.toLinkage (hs.keptAbove hc hm), ?_, fun e he => ?_, ?_⟩
  · rw [hm.kind, hc.kind, hs.childType, hs.newKind]
  · have := (hm.wellFormed.linked e).parent nb he
    rw [hm.parent nb hs.not_moved, hc.parent nb hs.not_moved, hs.newParent] at this
    cases this
  · rw [hm.fresh, hc.fresh]
    exact ⟨hs.allocated, (hs.wellFormed.allocated c b hs.mem).2⟩

end Splittable

/-- Moving the end of the list of `b` to `nb` and putting `nb` after `b`. -/
theorem moveSuffix_spec {B₁ B₂} (hs : Splittable h c b nb l₁ l₂ B₁ B₂) (hr : moveSuffix mode h c b nb l₂ = .ok h') :
    WellFormed h' ∧ h'.kind = h.kind ∧ h'.semantic = h.semantic ∧ h'.fresh = h.fresh ∧ Rooted h' c ∧
      h'.children = update (update (update h.children b l₁) nb l₂) c (B₁ ++ b :: nb :: B₂) := by
  obtain ⟨h1, h01, hr⟩ := bind_iff.1 hr
  obtain ⟨h3, h23, his⟩ := bind_iff.1 hr
  obtain ⟨htr, hw1⟩ := removeLast_spec hs.wellFormed hs.rootedBlock (by rw [hs.kind]; rfl) hs.list h01
  have hc := hs.cut htr hw1 (cleared_foldl l₂ h1)
  have hm := hs.moved hc h23
  have hn := hs.insertable hc hm
  obtain ⟨⟨h4, hi, ha⟩, hw'⟩ := insertAfter_spec hm.wellFormed hn (hs.blocks_moved hc hm) his
  have ht := (hn.rooted.frame hm.wellFormed.toLinkage (hi.keptAbove hn.kind)).agree ha
  refine ⟨hw', ?_, ?_, ?_, ht, ?_⟩
  · rw [ha.kind, hi.payload.kind, hm.kind, hc.kind]
  · rw [ha.semantic, hi.payload.semantic, hm.semantic, hc.semantic]
  · rw [ha.fresh, hi.payload.fresh, hm.fresh, hc.fresh]
  · rw [ha.children, hi.children, Splittable.children_moved hc hm]
    simp

theorem newBlock_splittable {B₁ B₂ h1} (hw : WellFormed h) (hc : Rooted h c)
    (hkc : h.kind c = .function) (hB : h.children c = B₁ ++ b :: B₂) (hb : h.children b = l₁ ++ l₂)
    (hs : SameTree (newBlock h).2 h1) : Splittable h1 c b h.fresh l₁ l₂ B₁ B₂ := by
  have hl := hw.toLinkage
  have hbc : b ∈ h.children c := by rw [hB]; simp
  have hkb : h.kind b = .block := by
    have := (hl.linked c).kind b hbc
    rw [hkc] at this
    exact (Option.some.inj this).symm
  have hcf := ne_of_lt (hl.allocated c b hbc).2
  have hf := ne_of_lt (hl.allocated c b hbc).1
  have ha := hs.agree
  have hk : h1.kind = update h.kind h.fresh .block := ha.kind
  have hp : h1.parent = update h.parent h.fresh none := ha.parent
  have hcl : h1.children = update h.children h.fresh [] := ha.children
  have hr : Rooted h1 c := by
    refine hc.transfer (P := (· < h.fresh)) (hl.allocated c b hbc).2 (fun y d _ hd => (hl.allocated d y hd).2)
      (fun y hy => ?_) (fun y e hy he => ?_)
    · rw [hp, update_of_ne (ne_of_lt hy)]
    · rw [hcl, update_of_ne (ne_of_lt (hl.allocated e y he).2)]
      exact he
  exact ⟨(newBlock_wellFormed hw).sameTree hs, hr, by rw [hcl, update_of_ne hcf, hB],
    by rw [hcl, update_of_ne hf, hb], by rw [hk, update_of_ne hf, hkb],
    by rw [hk, update_self], by rw [hp, update_self], by rw [hcl, update_self],
    by rw [ha.fresh]; exact Nat.lt_succ_self _⟩

theorem splitBlockBefore_eq (hl : Linkage h) (hk : h.kind b = .block) (hb : h.children b = l₁ ++ p :: l₂) :
    splitBlockBefore mode h c p = (do
      let (nb, h1) ← placeNewBlock mode h c b p
      moveSuffix mode h1 c b nb ((h1.children b).drop l₁.length)) := by
  have hp : p ∈ h.children b := by rw [hb]; simp
  simp only [splitBlockBefore, (hl.linked b).parent p hp, hk, hl.idxOf? hb]
  rw [if_neg (by simp), if_neg (by rw [hb]; simp)]

theorem splitBlockBefore_spec {B₁ B₂} (hw : WellFormed h) (hc : Rooted h c) (hk : h.kind c = .function)
    (hB : h.children c = B₁ ++ b :: B₂) (hb : h.children b = l₁ ++ p :: l₂)
    (hr : splitBlockBefore mode h c p = .ok h') : SplitWF h h' c b l₁ (p :: l₂) B₁ B₂ := by
  have hbc : b ∈ h.children c := by rw [hB]; simp
  have hf := ne_of_lt (hw.allocated c b hbc).1
  have hkb : h.kind b = .block := by
    have := (hw.linked c).kind b hbc
    rw [hk] at this
    exact (Option.some.inj this).symm
  rw [splitBlockBefore_eq hw.toLinkage hkb hb] at hr
  obtain ⟨⟨n, h1⟩, hpc, hm⟩ := bind_iff.1 hr
  obtain ⟨rfl, hs⟩ := placeNewBlock_spec hpc
  have hp := newBlock_splittable hw hc hk hB hb hs
  dsimp only at hm
  rw [hp.list, drop_left] at hm
  obtain ⟨hw', hk', hsm, hfs, ht, hc'⟩ := moveSuffix_spec hp hm
  have ha := hs.agree
  refine ⟨hw', hk'.trans ha.kind, hsm.trans ha.semantic, hfs.trans ha.fresh, ht, ?_⟩
  rw [hc', show h1.children = update h.children h.fresh [] from ha.children, Function.update_comm hf.symm,
    update_idem]

end

end Egalito
