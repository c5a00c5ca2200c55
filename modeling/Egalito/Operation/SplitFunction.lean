/-
`splitFunctionBefore` (`operation/mutator.cpp`): the blocks from a point on move to a new function.
-/
import Egalito.Operation.Contiguity

namespace Egalito

open Lib Heap Mutator List
open Function (update update_of_ne update_self)

variable {S : Type}

/-! ## The operation -/

/-- The heap, and the chunks that point to a position which was deleted. -/
structure Memory (S : Type) where
  heap : Heap S
  dangling : List Ref

namespace Mutator

def deletePosition (m : Memory S) (x : Ref) : Except Failure (Memory S) :=
  match m.heap.position x with
  | none => .ok m
  | some _ => if x ∈ m.dangling then .error .assertion else .ok { m with dangling := x :: m.dangling }

def newFunction (mode : Mode) (h : Heap S) (a : Address) : Ref × Heap S :=
  (h.fresh, h.newChunk .function (some (mode.makeAbsolutePosition a)))

section
variable [Sized S] (mode : Mode)

/-- The body of the first loop; the destructor of the mutator runs at once. -/
def takeOut (function : Ref) (m : Memory S) (child : Ref) : Except Failure (Memory S) := do
  let h ← remove mode m.heap function child
  let h ← updatePositions mode h function
  deletePosition { m with heap := h } child

/-- The body of the second loop, which also hands on `prevChunk`. -/
def putIn (function2 : Ref) (m : Memory S × Ref) (child : Ref) : Except Failure (Memory S × Ref) := do
  let (m, prevChunk) := m
  let m ← deletePosition m child
  let (p, h) ← mode.makePosition m.heap (some prevChunk) child (BitVec.ofNat 64 (m.heap.getSize function2))
  let h ← append mode (h.setPosition child (some p)) function2 child
  let h ← updatePositions mode h function2
  .ok (⟨h, m.dangling.erase child⟩, child)

/-- The new function and the heap. Without a function around the point, or a point in it, null pointers are used. -/
def splitFunctionBefore (h : Heap S) (point : Ref) : Except Failure (Ref × Heap S) :=
  match h.parent point with
  | none => .error .assertion
  | some function =>
    if h.kind function ≠ .function then .error .assertion
    else match (h.children function).idxOf? point with
      | none => .error .assertion
      | some i => do
        let moveList := (h.children function).drop i
        let (a, h) ← h.getAddress point
        let (function2, h) := newFunction mode h a
        let m ← moveList.foldlM (takeOut mode function) ⟨h, []⟩
        let (m, _) ← moveList.foldlM (putIn mode function2) (m, function)
        -- the destructor of the mutator that the pass has made
        let h ← updatePositions mode m.heap function
        .ok (function2, h)

end

end Mutator

variable [Sized S] {h g : Heap S} {f b x y : Ref} {a a' : Address} {B₁ B₂ done rest : List Ref}

omit [Sized S] in
theorem not_mem_blockOwn (hl : Linkage h) (hy : h.kind y ≠ .instruction) (hb : h.kind b = .block) (hne : y ≠ b) :
    y ∉ blockOwn h b := by
  intro hm
  rcases mem_cons.1 hm with heq | hm
  · exact hne heq
  · exact hy (instruction_of_mem hl hb hm)

omit [Sized S] in
theorem function_not_mem_blockOwn (hl : Linkage h) (hf : h.kind f = .function) (hb : h.kind b = .block) :
    f ∉ blockOwn h b := by
  refine not_mem_blockOwn hl (by rw [hf]; exact Kind.noConfusion) hb ?_
  rintro rfl
  rw [hf] at hb
  cases hb

/-! ## Taking blocks out -/

/-- The function `f` is at the top of the heap, at an absolute position. -/
structure TopFunction (h : Heap S) (f : Ref) (a : Address) : Prop where
  kind : h.kind f = .function
  top : h.parent f = none
  absolute : h.position f = some ⟨.absolute a, .plain⟩

/-- The heap while the blocks after `B₁` are taken out of `f`. The blocks that were keep a position. -/
structure TakenOut (h g : Heap S) (f : Ref) (B₁ done rest : List Ref) : Prop where
  wellFormed : WellFormed g
  positioned : Positioned g
  kind : g.kind = h.kind
  children : g.children = update h.children f (B₁ ++ rest)
  parent : g.parent = h.parent
  frame : ∀ z, (∀ b ∈ h.children f, z ∉ blockOwn h b) → g.position z = h.position z
  placed : ∀ y ∈ done, g.position y ≠ none

theorem TakenOut.start (hw : WellFormed h) (hp : Positioned h) (hB : h.children f = B₁ ++ rest) :
    TakenOut h h f B₁ [] rest := by
  refine ⟨hw, hp, rfl, ?_, rfl, fun _ _ => rfl, by simp⟩
  rw [← hB, Function.update_eq_self]

theorem TakenOut.topFunction (ht : TakenOut h g f B₁ done rest) (hl : Linkage h) (hf : TopFunction h f a) :
    TopFunction g f a := by
  refine ⟨by rw [ht.kind, hf.kind], by rw [ht.parent, hf.top], ?_⟩
  rw [ht.frame f fun b hb => ?_, hf.absolute]
  exact function_not_mem_blockOwn hl hf.kind (block_of_mem hl hf.kind hb)

theorem takeOut_ok (hw : WellFormed h) (hf : TopFunction h f a)
    (hB : h.children f = B₁ ++ (done ++ x :: rest)) {dangling} (hx : x ∉ dangling) (ht : TakenOut h g f B₁ done (x :: rest)) :
    ∃ g', takeOut .offset f ⟨g, dangling⟩ x = .ok ⟨g', x :: dangling⟩ ∧ TakenOut h g' f B₁ (done ++ [x]) rest := by
  have hl := hw.toLinkage
  have htp := ht.topFunction hl hf
  have hlt : g.children f = B₁ ++ x :: rest := by rw [ht.children, update_self]
  obtain ⟨g1, hv, hp1, hs1⟩ := remove_ok ht.wellFormed (.top htp.top) ht.positioned hlt
  obtain ⟨⟨g0, hr, ha⟩, hw1⟩ := remove_spec ht.wellFormed (.top htp.top) hlt hv
  have hk1 : g1.kind = h.kind := by rw [ha.kind, hr.payload.kind, ht.kind]
  have hr1 : g1.parent = h.parent := by rw [ha.parent, hr.parent, ht.parent]
  have hc1 : g1.children = update h.children f (B₁ ++ rest) := by
    rw [ha.children, hr.children, ht.children, Function.update_idem]
  obtain ⟨g2, hu, hs, hp2, hm, -⟩ := updatePositions_top hw1.toLinkage hp1 (by rw [hk1, hf.kind])
    (by rw [hr1, hf.top]) (by rw [hs1, htp.absolute])
  have hc : ∀ b ∈ h.children f, h.kind b = .block := fun b hb => block_of_mem hl hf.kind hb
  have hl1 : ∀ b ∈ g1.children f, b ∈ B₁ ++ rest := by
    intro b hb
    rwa [hc1, update_self] at hb
  have hin : ∀ b ∈ B₁ ++ rest, b ∈ h.children f := by
    intro b hb
    rw [hB]
    simp only [mem_append, mem_cons] at hb ⊢
    tauto
  have ho : ∀ b ∈ B₁ ++ rest, blockOwn g1 b = blockOwn h b := by
    intro b hb
    have hbf : b ≠ f := by
      rintro rfl
      have := hc b (hin b hb)
      rw [hf.kind] at this
      cases this
    rw [blockOwn, blockOwn, hc1, update_of_ne hbf]
  have hnd := (hl.linked f).nodup
  rw [hB] at hnd
  -- the blocks that are out are none of those that are laid out now
  have hk : ∀ y ∈ done ++ [x], g2.position y = g.position y := by
    intro y hy
    have hyB : y ∈ h.children f := by
      rw [hB]
      simp only [mem_append, mem_cons] at hy ⊢
      tauto
    rw [hm y fun b hb => ?_, hs1]
    have hb' := hl1 b hb
    rw [ho b hb']
    refine not_mem_blockOwn hl (by rw [hc y hyB]; exact Kind.noConfusion) (hc b (hin b hb')) ?_
    rintro rfl
    simp only [nodup_append, nodup_cons, mem_append, mem_cons] at hnd hy hb'
    grind
  have hxs : g2.position x ≠ none := by
    rw [hk x (by simp)]
    exact ht.positioned.child f (.inr htp.kind) x (by rw [hlt]; simp)
  refine ⟨g2, ?_, hw1.sameTree hs, hp2, ?_, ?_, ?_, ?_, ?_⟩
  · obtain ⟨q, hq⟩ := Option.ne_none_iff_exists'.1 hxs
    have hd : deletePosition ⟨g2, dangling⟩ x = .ok ⟨g2, x :: dangling⟩ := by
      unfold deletePosition
      rw [hq]
      exact if_neg hx
    rw [takeOut, ok_bind hv, ok_bind hu, hd]
  · rw [hs.agree.kind, hk1]
  · rw [hs.agree.children, hc1]
  · rw [hs.agree.parent, hr1]
  · intro z hz
    rw [hm z fun b hb => ?_, hs1, ht.frame z hz]
    have hb' := hl1 b hb
    rw [ho b hb']
    exact hz b (hin b hb')
  · intro y hy
    rw [hk y hy]
    rcases mem_append.1 hy with hy | hy
    · exact ht.placed y hy
    · rw [mem_singleton.1 hy]
      exact ht.positioned.child f (.inr htp.kind) x (by rw [hlt]; simp)

theorem takeAll_ok (hw : WellFormed h) (hf : TopFunction h f a) :
    ∀ rest {done dangling} {g}, h.children f = B₁ ++ (done ++ rest) → (∀ y ∈ rest, y ∉ dangling) → TakenOut h g f B₁ done rest →
      ∃ g', rest.foldlM (takeOut .offset f) ⟨g, dangling⟩ = .ok ⟨g', rest.reverse ++ dangling⟩ ∧
        TakenOut h g' f B₁ (done ++ rest) []
  | [], done, dangling, g, _, _, ht => ⟨g, rfl, by rwa [append_nil]⟩
  | x :: rest, done, dangling, g, hB, hd, ht => by
    obtain ⟨g1, hx, ht1⟩ := takeOut_ok hw hf hB (hd x mem_cons_self) ht
    have ha : done ++ x :: rest = done ++ [x] ++ rest := by simp
    rw [ha] at hB
    have hnd := (hw.linked f).nodup
    have hd' : ∀ y ∈ rest, y ∉ x :: dangling := by
      intro y hy hm
      rcases mem_cons.1 hm with rfl | hm
      · rw [hB, append_assoc, nodup_append] at hnd
        have := hnd.2.1
        simp only [singleton_append, nodup_append, nodup_cons] at this
        exact this.2.1.1 hy
      · exact hd y (mem_cons_of_mem x hy) hm
    obtain ⟨g2, hr, ht2⟩ := takeAll_ok hw hf rest hB hd' ht1
    refine ⟨g2, ?_, by rwa [ha]⟩
    rw [foldlM_cons, ok_bind hx, hr]
    simp

/-! ## The split -/

theorem splitFunctionBefore_eq (hl : Linkage h) (hf : h.kind f = .function) (hB : h.children f = B₁ ++ b :: B₂)
    (hb : At h b a) : splitFunctionBefore .offset h b = (do
      let m ← (b :: B₂).foldlM (takeOut .offset f) ⟨h.newChunk .function (some ⟨.absolute a, .plain⟩), []⟩
      let (m, _) ← (b :: B₂).foldlM (putIn .offset h.fresh) (m, f)
      let h' ← updatePositions .offset m.heap f
      .ok (h.fresh, h')) := by
  have hr := (hl.linked f).parent b (by rw [hB]; simp)
  have hd : (h.children f).drop B₁.length = b :: B₂ := by rw [hB, drop_left]
  unfold splitFunctionBefore
  rw [hr]
  dsimp only
  rw [if_neg (fun hne => hne hf), hl.idxOf? hB]
  dsimp only
  rw [hd]
  exact ok_bind (hb.getAddress hl) _

section
variable (hw : WellFormed h) (hp : Positioned h) (hf : TopFunction h f a)
  (hB : h.children f = B₁ ++ b :: B₂)

include hw hp hf hB

theorem takeAll_newFunction (a' : Address) : ∃ g,
    (b :: B₂).foldlM (takeOut .offset f) ⟨h.newChunk .function (some ⟨.absolute a', .plain⟩), []⟩ =
      .ok ⟨g, (b :: B₂).reverse⟩ ∧
    TakenOut (h.newChunk .function (some ⟨.absolute a', .plain⟩)) g f B₁ (b :: B₂) [] := by
  have hl := hw.toLinkage
  have he : f ≠ h.fresh := ne_of_lt (hl.allocated f b (by rw [hB]; simp)).2
  set h1 := h.newChunk .function (some ⟨.absolute a', .plain⟩) with hh1
  have hw1 : WellFormed h1 := newChunk_wellFormed hw _ _
  have hp1 : Positioned h1 := hp.newChunk hl (.inr (.inr ⟨a', rfl⟩))
  have hf1 : TopFunction h1 f a := ⟨(update_of_ne he ..).trans hf.kind,
    (update_of_ne he ..).trans hf.top, (update_of_ne he ..).trans hf.absolute⟩
  have hB1 : h1.children f = B₁ ++ b :: B₂ := (update_of_ne he ..).trans hB
  have hn : ∀ y ∈ b :: B₂, y ∉ ([] : List Ref) := fun _ _ => not_mem_nil
  obtain ⟨g, hr, ht⟩ := takeAll_ok hw1 hf1 (b :: B₂) hB1 hn (.start hw1 hp1 hB1)
  rw [append_nil] at hr
  exact ⟨g, hr, ht⟩

/-- There is no split: the first moved block has lost its position already. -/
theorem splitFunctionBefore_fails (hb : At h b a') : splitFunctionBefore .offset h b = .error .assertion := by
  obtain ⟨g, hk, ht⟩ := takeAll_newFunction hw hp hf hB a'
  obtain ⟨q, hq⟩ := Option.ne_none_iff_exists'.1 (ht.placed b mem_cons_self)
  have hd : deletePosition ⟨g, (b :: B₂).reverse⟩ b = .error .assertion := by
    unfold deletePosition
    rw [hq]
    exact if_pos (by simp)
  have hpt : (b :: B₂).foldlM (putIn .offset h.fresh) (⟨g, (b :: B₂).reverse⟩, f) = .error .assertion := by
    rw [foldlM_cons]
    refine error_bind ?_ _
    exact error_bind hd _
  rw [splitFunctionBefore_eq hw.toLinkage hf.kind hB hb, ok_bind hk]
  exact error_bind hpt _

end

end Egalito
