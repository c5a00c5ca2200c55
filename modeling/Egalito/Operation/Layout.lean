/-
What `updatePositions` achieves in the default mode: the children of every function at an absolute position are laid out
one after another, and so are the instructions of each block.
-/
import Egalito.Operation.Offsets

namespace Egalito

open Lib Heap Mutator List Option

variable {S : Type} [Sized S] {h h1 h' : Heap S} {b c f x y : Ref} {l₁ l₂ : List Ref} {a o : Address}

def extent (h : Heap S) (l : List Ref) : Nat := (l.map h.getSize).sum

theorem extent_snoc (h : Heap S) (l) (y) : extent h (l ++ [y]) = extent h l + h.getSize y := by
  simp [extent]

theorem extent_sameTree (hs : SameTree h h') (l) : extent h' l = extent h l := by
  obtain ⟨q, rfl⟩ := hs
  rfl

/-- The address after `l`, when `l` starts at `a`. -/
def past (h : Heap S) (a : Address) (l : List Ref) : Address := a + BitVec.ofNat 64 (extent h l)

theorem past_nil (h : Heap S) (a) : past h a [] = a := by simp [past, extent]

theorem past_snoc (h : Heap S) (a) (l) (y) :
    past h a (l ++ [y]) = past h a l + BitVec.ofNat 64 (h.getSize y) := by
  rw [past, past, extent_snoc, BitVec.ofNat_add, BitVec.add_assoc]

theorem past_sameTree (hs : SameTree h h') (a) (l) : past h' a l = past h a l := by
  rw [past, past, extent_sameTree hs]

/-- A block at `a` whose instructions follow one another. -/
structure BlockLaidOut (h : Heap S) (b : Ref) (a : Address) : Prop where
  start : At h b a
  instruction : ∀ l₁ i l₂, h.children b = l₁ ++ i :: l₂ → At h i (past h a l₁)

/-- A function at `a` whose blocks follow one another and are laid out. -/
structure FunctionLaidOut (h : Heap S) (f : Ref) (a : Address) : Prop where
  start : At h f a
  block : ∀ B₁ b B₂, h.children f = B₁ ++ b :: B₂ → BlockLaidOut h b (past h a B₁)

omit [Sized S] in
theorem At.setPosition_child (hl : Linkage h) (ha : At h c a) (hx : x ∈ h.children c) (q) :
    At (h.setPosition x q) c a :=
  ha.above hl ⟨fun _ _ => rfl, fun _ _ _ hy => hy⟩ (keepsAbove_setPosition ((hl.linked c).kind x hx))

/-- A child is put right after its previous sibling. -/
theorem recalculate_ok (hl : Linkage h) (hc : h.children c = l₁ ++ x :: l₂) (ha : At h c a)
    (hx : h.position x = some (offsetPosition o)) (hv : ∀ l y, l₁ = l ++ [y] → At h y (past h a l)) :
    ∃ o', h.recalculate x = .ok (h.setPosition x (some (offsetPosition o'))) ∧
      At (h.setPosition x (some (offsetPosition o'))) x (past h a l₁) := by
  have hxc : x ∈ h.children c := by rw [hc]; simp
  have hpa := (hl.linked c).parent x hxc
  have hp := (hl.neighbours hc).1
  have hs : ∀ o', At (h.setPosition x (some (offsetPosition o'))) x (a + o') := fun o' =>
    .child (Function.update_self ..) hxc (ha.setPosition_child hl hxc _)
  rcases eq_nil_or_concat l₁ with rfl | ⟨l, y, rfl⟩
  · refine ⟨0, ?_, ?_⟩
    · simp only [recalculate, hx, recalculateOf, offsetPosition, baseRecalculate, hpa, hp, getLast?_nil]
      rfl
    · have := hs 0
      rwa [past_nil, ← BitVec.add_zero a]
  · rw [concat_eq_append] at hp hv ⊢
    rw [getLast?_append, getLast?_singleton, some_or] at hp
    have hy := hv l y rfl
    refine ⟨past h a l - a + BitVec.ofNat 64 (h.getSize y), ?_, ?_⟩
    · simp only [recalculate, hx, recalculateOf, offsetPosition, baseRecalculate, hpa, hp]
      rw [ok_bind (hy.getAddress hl)]
      rw [ok_bind (ha.getAddress hl)]
      rfl
    · have hm : a + (past h a l - a + BitVec.ofNat 64 (h.getSize y)) = past h a (l ++ [y]) := by
        rw [past_snoc]
        ring
      rw [← hm]
      exact hs _

/-! ## The loop over a child list -/

/-- What a pass over the children of `c` has done after `pre`: `own y` are the chunks whose
positions the step for `y` may change, `Q` is what it establishes. -/
structure Pass (h : Heap S) (c : Ref) (a : Address) (own : Ref → List Ref) (Q : Heap S → Ref → Address → Prop)
    (pre : List Ref) (s : Heap S) : Prop where
  same : SameTree h s
  positioned : Positioned s
  frame : ∀ z, (∀ y ∈ pre, z ∉ own y) → s.position z = h.position z
  placed : ∀ l₁ y l₂, pre = l₁ ++ y :: l₂ → Q s y (past h a l₁)

/-- The step for one child, with its parent and its previous sibling in place. -/
def PassStep (h : Heap S) (c : Ref) (a : Address) (own : Ref → List Ref) (Q : Heap S → Ref → Address → Prop)
    (step : Heap S → Ref → Except Failure (Heap S)) : Prop :=
  ∀ l₁ y l₂, h.children c = l₁ ++ y :: l₂ → ∀ s, SameTree h s → Positioned s → At s c a →
    (∀ l w, l₁ = l ++ [w] → At s w (past h a l)) →
    ∃ s', step s y = .ok s' ∧ SameTree s s' ∧ Positioned s' ∧ (∀ z, z ∉ own y → s'.position z = s.position z) ∧
      Q s' y (past h a l₁)

/-- A layout property that only depends on the positions of its own chunks and of those above. -/
structure Local (h : Heap S) (c : Ref) (own : Ref → List Ref) (Q : Heap S → Ref → Address → Prop) : Prop where
  start : ∀ s y a, Q s y a → At s y a
  frame : ∀ s s' y a, y ∈ h.children c → SameTree h s → SameTree s s' → KeepsAbove s s' c →
    (∀ z ∈ own y, s'.position z = s.position z) → Q s y a → Q s' y a
  low : ∀ y ∈ h.children c, ∀ z ∈ own y, (h.kind c).height < (h.kind z).height
  disjoint : ∀ y ∈ h.children c, ∀ y' ∈ h.children c, y ≠ y' → ∀ z ∈ own y, z ∉ own y'

theorem pass_children {own Q step} (hl : Linkage h) (hp : Positioned h) (ha : At h c a)
    (hlc : Local h c own Q) (hs : PassStep h c a own Q step) :
    ∃ s, (h.children c).foldlM step h = .ok s ∧ Pass h c a own Q (h.children c) s := by
  have hnd := (hl.linked c).nodup
  have hk : ∀ pre post s, h.children c = pre ++ post → Pass h c a own Q pre s → KeepsAbove h s c := by
    intro pre post s he hI z hz
    refine hI.frame z fun y hy hzy => ?_
    have := hlc.low y (by rw [he]; exact mem_append_left _ hy) z hzy
    omega
  have hr := foldlM_ok (f := step) (I := Pass h c a own Q) (h.children c) [] h
    ⟨.refl h, hp, fun _ _ => rfl, by simp⟩ ?_
  · simpa using hr
  · intro pre y post hc s hI
    rw [nil_append] at hI ⊢
    have has : At s c a := by
      obtain ⟨q, rfl⟩ := hI.same
      exact ha.above hl ⟨fun _ _ => rfl, fun _ _ _ hy => hy⟩ (hk pre (y :: post) _ hc hI)
    have hv : ∀ l w, pre = l ++ [w] → At s w (past h a l) :=
      fun l w hw => hlc.start _ _ _ (hI.placed l w [] hw)
    obtain ⟨s', hy, hs', hp', hf, hQ⟩ := hs pre y post hc s hI.same hI.positioned has hv
    have hyc : y ∈ h.children c := by rw [hc]; simp
    refine ⟨s', hy, hI.same.trans hs', hp', fun z hz => ?_, fun l₁ w l₂ hw => ?_⟩
    · rw [hf z (hz y (by simp)), hI.frame z fun w hw => hz w (by simp [hw])]
    · rcases eq_nil_or_concat l₂ with rfl | ⟨l, v, rfl⟩
      · obtain ⟨rfl, rfl⟩ : pre = l₁ ∧ y = w := by
          have := append_inj' hw rfl
          exact ⟨this.1, by simpa using this.2⟩
        exact hQ
      · -- an earlier child: its own chunks and those above are not touched by this step
        rw [concat_eq_append, ← cons_append, ← append_assoc] at hw
        obtain ⟨he, -⟩ := append_inj' hw rfl
        have hwc : w ∈ h.children c := by rw [hc, he]; simp
        have hwy : w ≠ y := by
          rintro rfl
          rw [hc, he, nodup_middle, nodup_cons] at hnd
          exact hnd.1 (by simp)
        refine hlc.frame s s' w _ hwc hI.same hs' (fun z hz => ?_) (fun z hz => ?_) (hI.placed l₁ w l he)
        · refine hf z fun hzy => ?_
          have := hlc.low y hyc z hzy
          rw [hI.same.agree.kind] at hz
          omega
        · exact hf z (hlc.disjoint w hwc y hyc hwy z hz)

/-! ## Blocks -/

omit [Sized S] in
theorem Linkage.children_instruction (hl : Linkage h) (hx : h.kind x = .instruction) : h.children x = [] := by
  refine eq_nil_iff_forall_not_mem.2 fun y hy => ?_
  have := (hl.linked x).kind y hy
  rw [hx] at this
  cases this

omit [Sized S] in
/-- An address depends on the positions of the chunk and of those at least as high as its parent. -/
theorem At.child_frame (hl : Linkage h) (hs : SameTree h h') (hx : x ∈ h.children c) (hk : KeepsAbove h h' c)
    (hp : h'.position x = h.position x) (ha : At h x a) : At h' x a := by
  obtain ⟨q, rfl⟩ := hs
  refine ha.transfer (P := fun z => z = x ∨ (h.kind z).height ≤ (h.kind c).height) (.inl rfl) ?_ ?_ (fun _ _ => rfl)
    (fun _ _ _ hy => hy)
  · rintro z d (rfl | hz) hd
    · exact .inr (by rw [hl.eq_of_mem hd hx])
    · exact .inr (hl.height_le hz hd)
  · rintro z (rfl | hz)
    · exact hp
    · exact hk z hz

omit [Sized S] in
theorem local_at (hl : Linkage h) : Local h c (fun y => [y]) At where
  start _ _ _ ha := ha
  frame s s' y a hy hs hs' hk hown ha := by
    refine ha.child_frame (hl.sameTree hs) hs' ?_ hk (hown y (by simp))
    rwa [hs.agree.children]
  low y hy z hz := by
    rw [mem_singleton] at hz
    rw [hz]
    exact Nat.lt_of_succ_le (Kind.height_child ((hl.linked c).kind y hy)).ge
  disjoint y _ y' _ hne z hz hz' := by
    rw [mem_singleton] at hz hz'
    exact hne (hz.symm.trans hz')

theorem recalculate_child (hl : Linkage h) (ht : Tracked h c) (hc : h.children c = l₁ ++ y :: l₂) {s}
    (hs : SameTree h s) (hp : Positioned s) (ha : At s c a) (hv : ∀ l w, l₁ = l ++ [w] → At s w (past h a l)) :
    ∃ o, s.position y ≠ none ∧ s.recalculate y = .ok (s.setPosition y (some (offsetPosition o))) ∧
      Positioned (s.setPosition y (some (offsetPosition o))) ∧
      At (s.setPosition y (some (offsetPosition o))) y (past h a l₁) := by
  have hls := hl.sameTree hs
  have hts : Tracked s c := by unfold Tracked at ht ⊢; rwa [hs.agree.kind]
  rw [← hs.agree.children] at hc
  have hy : y ∈ s.children c := by rw [hc]; simp
  obtain ⟨o, ho⟩ := hp.offset hls hts hy
  obtain ⟨o', hr, hat⟩ := recalculate_ok hls hc ha ho fun l w hw => by
    rw [past_sameTree hs]
    exact hv l w hw
  rw [past_sameTree hs] at hat
  exact ⟨o', hp.child c hts y hy, hr, hp.setPosition (low_of_childType hts ((hls.linked c).kind y hy)) o', hat⟩

theorem updatePositionHelper_eq {n} (hne : h.position x ≠ none) (hr : h.recalculate x = .ok h1) :
    updatePositionHelper (n + 1) h x = (h1.children x).foldlM (updatePositionHelper n) h1 := by
  obtain ⟨q, hq⟩ := ne_none_iff_exists'.1 hne
  rw [updatePositionHelper, hq]
  exact ok_bind hr _

theorem instruction_step (hl : Linkage h) (hb : h.kind b = .block) (n) :
    PassStep h b a (fun y => [y]) At (updatePositionHelper (n + 1)) := by
  intro l₁ y l₂ hc s hs hp ha hv
  obtain ⟨o, hne, hr, hp', hat⟩ := recalculate_child hl (.inl hb) hc hs hp ha hv
  have hy : y ∈ h.children b := by rw [hc]; simp
  have hk : h.kind y = .instruction := by
    have := (hl.linked b).kind y hy
    rw [hb] at this
    exact (some.inj this).symm
  have hn : s.children y = [] := by rw [hs.agree.children, hl.children_instruction hk]
  refine ⟨_, ?_, sameTree_setPosition .., hp', fun z hz => ?_, hat⟩
  · rw [updatePositionHelper_eq hne hr]
    show (s.children y).foldlM _ _ = _
    rw [hn]
    rfl
  · exact Function.update_of_ne (by simpa using hz) ..

/-! ## Functions -/

/-- The chunks whose positions the layout of block `b` is made of. -/
def blockOwn (h : Heap S) (b : Ref) : List Ref := b :: h.children b

omit [Sized S] in
theorem block_of_mem (hl : Linkage h) (hf : h.kind f = .function) (hb : b ∈ h.children f) : h.kind b = .block := by
  have := (hl.linked f).kind b hb
  rw [hf] at this
  exact (some.inj this).symm

omit [Sized S] in
/-- The address of a block or instruction depends on the positions of that block, of its instructions and of the chunks
    above it. -/
theorem At.own_frame (hl : Linkage h) (hs : SameTree h h') (hb : b ∈ h.children f) (hk : KeepsAbove h h' f)
    (ho : ∀ z ∈ blockOwn h b, h'.position z = h.position z) (hx : x ∈ blockOwn h b) (ha : At h x a) : At h' x a := by
  obtain ⟨q, rfl⟩ := hs
  refine ha.transfer (P := fun z => z ∈ blockOwn h b ∨ (h.kind z).height ≤ (h.kind f).height) (.inl hx) ?_ ?_
    (fun _ _ => rfl) (fun _ _ _ hy => hy)
  · rintro z d (hz | hz) hd
    · rcases mem_cons.1 hz with rfl | hz
      · exact .inr (by rw [hl.eq_of_mem hd hb])
      · exact .inl (by rw [hl.eq_of_mem hd hz]; exact mem_cons_self)
    · exact .inr (hl.height_le hz hd)
  · rintro z (hz | hz)
    · exact ho z hz
    · exact hk z hz

theorem BlockLaidOut.frame (hl : Linkage h) (hs : SameTree h h') (hb : b ∈ h.children f) (hk : KeepsAbove h h' f)
    (ho : ∀ z ∈ blockOwn h b, h'.position z = h.position z) (hy : BlockLaidOut h b a) : BlockLaidOut h' b a := by
  refine ⟨hy.start.own_frame hl hs hb hk ho mem_cons_self, fun l₁ i l₂ hc => ?_⟩
  rw [hs.agree.children] at hc
  rw [past_sameTree hs]
  have hi : i ∈ blockOwn h b := mem_cons_of_mem _ (by rw [hc]; simp)
  exact (hy.instruction l₁ i l₂ hc).own_frame hl hs hb hk ho hi

omit [Sized S] in
theorem blockOwn_disjoint {b' z} (hl : Linkage h) (hb : h.kind b = .block) (hb' : h.kind b' = .block) (hne : b ≠ b')
    (hz : z ∈ blockOwn h b) : z ∉ blockOwn h b' := by
  intro hz'
  rcases mem_cons.1 hz with rfl | hz <;> rcases mem_cons.1 hz' with rfl | hz'
  · exact hne rfl
  · have := (hl.linked b').kind z hz'
    rw [hb, hb'] at this
    cases this
  · have := (hl.linked b).kind z hz
    rw [hb, hb'] at this
    cases this
  · exact hne (hl.eq_of_mem hz hz')

theorem local_block (hl : Linkage h) (hf : h.kind f = .function) : Local h f (blockOwn h) BlockLaidOut where
  start _ _ _ hlay := hlay.start
  frame s s' b a hb hs hs' hk hown hlay := by
    have ha := hs.agree
    refine hlay.frame (hl.sameTree hs) hs' (f := f) (by rwa [ha.children]) hk fun z hz => hown z ?_
    rwa [blockOwn, ha.children] at hz
  low b hb z hz := by
    have hkb := block_of_mem hl hf hb
    rw [hf]
    rcases mem_cons.1 hz with rfl | hz
    · rw [hkb]; decide
    · have := Kind.height_child ((hl.linked b).kind z hz)
      rw [this, hkb]; decide
  disjoint b hb b' hb' hne _ hz hz' :=
    blockOwn_disjoint hl (block_of_mem hl hf hb) (block_of_mem hl hf hb') hne hz hz'

theorem block_step (hl : Linkage h) (hf : h.kind f = .function) (n : Nat) :
    PassStep h f a (blockOwn h) BlockLaidOut (updatePositionHelper (n + 2)) := by
  intro B₁ b B₂ hc s hs hp ha hv
  obtain ⟨o, hne, hrc, hp1, ha1⟩ := recalculate_child hl (.inr hf) hc hs hp ha hv
  have hb : b ∈ h.children f := by rw [hc]; simp
  have hs1 : SameTree s (s.setPosition b (some (offsetPosition o))) := sameTree_setPosition ..
  have hl1 := (hl.sameTree hs).sameTree hs1
  have hk : (s.setPosition b (some (offsetPosition o))).kind b = .block := by
    rw [hs1.agree.kind, hs.agree.kind, block_of_mem hl hf hb]
  obtain ⟨s2, hr, hps⟩ := pass_children hl1 hp1 ha1 (local_at hl1) (instruction_step hl1 hk n)
  have hcl : (s.setPosition b (some (offsetPosition o))).children b = h.children b := by
    rw [hs1.agree.children, hs.agree.children]
  refine ⟨s2, by rw [updatePositionHelper_eq hne hrc]; exact hr, hs1.trans hps.same, hps.positioned, ?_, ?_, ?_⟩
  · intro z hz
    rw [blockOwn, mem_cons, not_or] at hz
    rw [hps.frame z fun y hy hzy => ?_]
    · exact Function.update_of_ne hz.1 ..
    · rw [mem_singleton] at hzy
      rw [hcl] at hy
      exact hz.2 (hzy ▸ hy)
  · -- the block's own position is not among those of its instructions
    refine ha1.above hl1 ?_ fun z hz => hps.frame z fun y hy hzy => ?_
    · obtain ⟨q, hq⟩ := hps.same
      rw [hq]
      exact ⟨fun _ _ => rfl, fun _ _ _ hy => hy⟩
    · rw [mem_singleton] at hzy
      have := Kind.height_child ((hl1.linked b).kind y hy)
      rw [hzy] at hz
      omega
  · intro l₁ i l₂ hi
    have := hps.placed l₁ i l₂ (by rw [← hps.same.agree.children]; exact hi)
    rwa [← past_sameTree hps.same] at this

/-- A chunk that has a position keeps one. -/
def KeepsPlaced (h h' : Heap S) : Prop := ∀ z, h.position z ≠ none → h'.position z ≠ none

omit [Sized S] in
theorem At.position_ne_none (ha : At h x a) : h.position x ≠ none := by
  cases ha with
  | absolute hp => rw [hp]; exact some_ne_none _
  | top hp _ => rw [hp]; exact some_ne_none _
  | child hp _ _ => rw [hp]; exact some_ne_none _

theorem updateFunction_ok (hl : Linkage h) (hp : Positioned h) (hf : h.kind f = .function)
    (ha : h.position f = some ⟨.absolute a, .plain⟩) (n) :
    ∃ h', updatePositionHelper (n + 3) h f = .ok h' ∧ SameTree h h' ∧ Positioned h' ∧
      (∀ z, (∀ b ∈ h.children f, z ∉ blockOwn h b) → h'.position z = h.position z) ∧ KeepsAbove h h' f ∧
      KeepsPlaced h h' ∧ FunctionLaidOut h' f a := by
  have hne : h.position f ≠ none := by rw [ha]; exact some_ne_none _
  have hrc : h.recalculate f = .ok (h.setPosition f (some ⟨.absolute a, .plain⟩)) := by
    simp only [recalculate, ha, recalculateOf, baseRecalculate]
    rfl
  have hsf : h.setPosition f (some ⟨.absolute a, .plain⟩) = h := by
    rw [Heap.setPosition, ← ha, Function.update_eq_self]
  rw [hsf] at hrc
  obtain ⟨h', hr, hs⟩ := pass_children hl hp (.absolute ha) (local_block hl hf) (block_step hl hf n)
  have hk : KeepsAbove h h' f := fun z hz => hs.frame z fun b hb hzb => by
    have := (local_block hl hf).low b hb z hzb
    omega
  refine ⟨h', by rw [updatePositionHelper_eq hne hrc, hr], hs.same, hs.positioned, hs.frame, hk,
    fun z hz => ?_, ?_, ?_⟩
  · by_cases ho : ∃ b ∈ h.children f, z ∈ blockOwn h b
    · -- the chunk was laid out, so it has a position
      obtain ⟨b, hb, hzb⟩ := ho
      obtain ⟨B₁, B₂, hB⟩ := append_of_mem hb
      have hy := hs.placed B₁ b B₂ hB
      rcases mem_cons.1 hzb with rfl | hzb
      · exact hy.start.position_ne_none
      · obtain ⟨l₁, l₂, hl⟩ := append_of_mem hzb
        exact (hy.instruction l₁ z l₂ (by rw [hs.same.agree.children, hl])).position_ne_none
    · rw [hs.frame z fun b hb hzb => ho ⟨b, hb, hzb⟩]
      exact hz
  · exact .absolute (by rw [hk f le_rfl, ha])
  · intro B₁ b B₂ hc
    rw [hs.same.agree.children] at hc
    rw [past_sameTree hs.same]
    exact hs.placed B₁ b B₂ hc

/-! ## The pass of the destructor -/

omit [Sized S] in
theorem ancestors_ok (hl : Linkage h) (hr : Rooted h c) : ∀ n, (h.kind c).height ≤ n →
    ∃ cs, h.ancestors (fun _ => false) n (some c) = .ok cs ∧ c ∈ cs ∧ (∀ d, h.parent c = some d → d ∈ cs) ∧
      (∀ d ∈ cs, (h.kind d).height ≤ (h.kind c).height) ∧ ∀ d ∈ cs, ∀ e ∈ cs, h.kind d = h.kind e → d = e := by
  induction hr with
  | @top c hp =>
    intro n hn
    obtain ⟨m, rfl⟩ := Kind.exists_succ hn
    refine ⟨[c], by rw [ancestors, hp]; cases m <;> rfl, by simp, by simp [hp], by simp, by simp⟩
  | @child c d hp hc _ ih =>
    intro n hn
    have hh := Kind.height_child ((hl.linked d).kind c hc)
    obtain ⟨m, rfl⟩ := Kind.exists_succ hn
    obtain ⟨ds, hs, hd, -, hle, hu⟩ := ih m (by omega)
    have hlt : ∀ e ∈ ds, (h.kind e).height < (h.kind c).height := fun e he => by
      have := hle e he
      omega
    refine ⟨c :: ds, ?_, by simp, fun e he => ?_, fun e he => ?_, fun e he e' he' hk => ?_⟩
    · rw [ancestors, hp, ok_bind hs]
      rfl
    · rw [hp] at he
      cases he
      exact mem_cons_of_mem _ hd
    · rcases mem_cons.1 he with rfl | he
      · exact le_rfl
      · exact (hlt e he).le
    · rcases mem_cons.1 he with rfl | hed <;> rcases mem_cons.1 he' with rfl | hd'
      · rfl
      · exact absurd (hlt e' hd') (by rw [hk]; exact lt_irrefl _)
      · exact absurd (hlt e hed) (by rw [hk]; exact lt_irrefl _)
      · exact hu e hed e' hd' hk

omit [Sized S] in
theorem Positioned.absolute (hp : Positioned h) (hx : (h.position x).any Position.isAbsolute = true) :
    h.kind x = .function ∧ ∃ a, h.position x = some ⟨.absolute a, .plain⟩ := by
  have hs := hp.shape x
  cases hk : h.kind x with
  | instruction | block =>
    rw [hk] at hs
    rcases hs with hn | ⟨o, ho⟩
    · rw [hn] at hx; cases hx
    · rw [ho] at hx; cases hx
  | function =>
    rw [hk] at hs
    rcases hs with hn | ⟨o, ho⟩ | ha
    · rw [hn] at hx; cases hx
    · rw [ho] at hx; cases hx
    · exact ⟨rfl, ha⟩
  | functionList | module =>
    rw [hk] at hs
    have hn := hs
    rw [hn] at hx; cases hx

/-- What `updatePositions` has done after the chunks `pre`. -/
structure Updated (h : Heap S) (pre : List Ref) (s : Heap S) : Prop where
  same : SameTree h s
  positioned : Positioned s
  functions : ∀ z, (h.kind z).height ≤ Kind.function.height → s.position z = h.position z
  placed : KeepsPlaced h s
  laidOut : ∀ f ∈ pre, ∀ a, h.position f = some ⟨.absolute a, .plain⟩ → FunctionLaidOut s f a

theorem updateIfAbsolute_ok {pre s} (hl : Linkage h) (hp : Positioned h) (hu : Updated h pre s)
    (hq : ∀ d ∈ pre, h.kind d = h.kind c → d = c) :
    ∃ s', updateIfAbsolute s c = .ok s' ∧ Updated h (pre ++ [c]) s' := by
  have hn : ∀ f a, h.position f = some ⟨.absolute a, .plain⟩ → h.kind f = .function := fun f a hf =>
    (hp.absolute (x := f) (by rw [hf]; rfl)).1
  by_cases hc : (s.position c).any Position.isAbsolute = true
  · obtain ⟨hk, a, ha⟩ := hu.positioned.absolute hc
    obtain ⟨s', hr, hs', hp', -, hkp, hpc, hy⟩ := updateFunction_ok (hl.sameTree hu.same) hu.positioned hk ha 5
    rw [hu.same.agree.kind] at hk
    refine ⟨s', by rw [updateIfAbsolute, if_pos hc]; exact hr, hu.same.trans hs', hp', fun z hz => ?_,
      fun z hz => hpc z (hu.placed z hz), fun f hf b hb => ?_⟩
    · rw [hkp z (by rwa [hu.same.agree.kind, hk]), hu.functions z hz]
    · -- only functions are at absolute positions, and `c` is the one function of the list
      obtain rfl : f = c := by
        rcases mem_append.1 hf with hf | hf
        · exact hq f hf (by rw [hk, hn f b hb])
        · simpa using hf
      rw [hu.functions f (by rw [hk]), hb] at ha
      cases ha
      exact hy
  · refine ⟨s, by rw [updateIfAbsolute, if_neg hc], hu.same, hu.positioned, hu.functions, hu.placed,
      fun f hf b hb => ?_⟩
    rcases mem_append.1 hf with hf | hf
    · exact hu.laidOut f hf b hb
    · obtain rfl : f = c := by simpa using hf
      rw [hu.functions f (by rw [hn f b hb]), hb] at hc
      exact absurd rfl hc

theorem updatePositions_ok (hl : Linkage h) (hp : Positioned h) (hr : Rooted h c) :
    ∃ h', updatePositions .offset h c = .ok h' ∧ SameTree h h' ∧ Positioned h' ∧
      (∀ z, (h.kind z).height ≤ Kind.function.height → h'.position z = h.position z) ∧ KeepsPlaced h h' ∧
      ∀ f a, c = f ∨ c ∈ h.children f → h.position f = some ⟨.absolute a, .plain⟩ → FunctionLaidOut h' f a := by
  obtain ⟨cs, hcs, hc, hpr, -, hq⟩ := ancestors_ok hl hr levels (by cases h.kind c <;> decide)
  obtain ⟨h', hn, hu⟩ := foldlM_ok (f := updateIfAbsolute) (I := Updated h) cs [] h
    ⟨.refl h, hp, fun _ _ => rfl, fun _ hz => hz, by simp⟩ fun pre d post hs s hI =>
      updateIfAbsolute_ok hl hp hI fun e he hk =>
        hq e (by rw [hs]; exact mem_append_left _ (by simpa using he)) d (by rw [hs]; simp) hk
  refine ⟨h', ?_, hu.same, hu.positioned, hu.functions, hu.placed, fun f a hf ha => hu.laidOut f ?_ a ha⟩
  · rw [updatePositions, if_pos (by rfl), ok_bind hcs, hn]
  · rw [nil_append]
    rcases hf with rfl | hf
    · exact hc
    · exact hpr f ((hl.linked f).parent c hf)

/-- For a function without parent only the positions of its blocks and of their instructions are set. -/
theorem updatePositions_top (hl : Linkage h) (hp : Positioned h) (hf : h.kind f = .function) (hpr : h.parent f = none)
    (ha : h.position f = some ⟨.absolute a, .plain⟩) :
    ∃ h', updatePositions .offset h f = .ok h' ∧ SameTree h h' ∧ Positioned h' ∧
      (∀ z, (∀ b ∈ h.children f, z ∉ blockOwn h b) → h'.position z = h.position z) ∧ FunctionLaidOut h' f a := by
  obtain ⟨h', hr, hs, hp', hm, -, -, hy⟩ := updateFunction_ok hl hp hf ha 5
  have hc : h.ancestors (fun _ => false) levels (some f) = .ok [f] := by
    unfold levels ancestors
    rw [hpr]
    rfl
  have hu : updateIfAbsolute h f = .ok h' := by
    unfold updateIfAbsolute
    rw [ha]
    exact hr
  refine ⟨h', ?_, hs, hp', hm, hy⟩
  rw [updatePositions, if_pos (by rfl), ok_bind hc, foldlM_cons, ok_bind hu]
  rfl

end Egalito
