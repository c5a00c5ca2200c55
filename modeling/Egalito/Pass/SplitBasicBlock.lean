/-
`SplitBasicBlock`: every instruction that a normal link of the function or of a jump table points at becomes the first
of its block.

A split keeps the instructions and their order and adds one leader (`Operation.Split`). The loop over the links is a
fold of splits, and `visit_makes_leaders` collects the leaders for every order of the set of links.
-/
import Egalito.Instr.Semantic
import Egalito.Lib.Cut
import Egalito.Operation.Contiguity

namespace Egalito.SplitBasicBlock

open Lib Heap Mutator List
open Function (update_of_ne update_self)

def considerSplittingFor (h : Heap Semantic) (f : Ref) (points : List Ref) : Option Link → Except Failure (List Ref)
  | some (.normal (some t) _) =>
    if h.kind t ≠ .instruction then .ok points
    else match h.parent t with
      | none => .error .assertion
      | some b =>
        if h.parent b ≠ some f then .ok points
        else if h.kind b ≠ .block then .error .assertion
        else match h.children b with
          | [] => .error .assertion
          | y :: _ => if y = t then .ok points else .ok (points.insert t)
  | _ => .ok points

/-- The links of the instructions, in the order in which the pass looks at them. -/
def instructionLinks (h : Heap Semantic) (f : Ref) : List (Option Link) :=
  (instructions h f).flatMap fun i => [(h.semantic i).linkedLink, (h.semantic i).controlFlowLink]

/-- The links of the jump tables of `f`, if `f` is in a module. -/
def tableLinks (h : Heap Semantic) (f : Ref) (tables : List JumpTable) : Except Failure (List (Option Link)) :=
  match h.parent f with
  | none => .error .assertion
  | some l =>
    match h.parent l with
    | none => .ok []
    | some m => .ok (if h.kind m = .module then (tables.filter (·.function = some f)).flatMap (·.entries) else [])

def splitPoints (h : Heap Semantic) (f : Ref) (tables : List JumpTable) : Except Failure (List Ref) := do
  let points ← (instructionLinks h f).foldlM (considerSplittingFor h f) []
  let links ← tableLinks h f tables
  links.foldlM (considerSplittingFor h f) points

/-- From the greatest pointer to the least. -/
def backwards (pointer : Ref → Nat) (points : List Ref) : List Ref :=
  points.insertionSort fun x y => pointer y ≤ pointer x

/-- The points are found first, and then the blocks are split at them. -/
def visit (mode : Mode) (pointer : Ref → Nat) (tables : List JumpTable) (h : Heap Semantic) (f : Ref) :
    Except Failure (Heap Semantic) := do
  let points ← splitPoints h f tables
  let h ← (backwards pointer points).foldlM (fun h p => splitBlockBefore mode h f p) h
  updatePositions mode h f

variable {h h1 h' s : Heap Semantic} {b f t p : Ref} {l₁ l₂ : List Ref} {links : List (Option Link)} {tables : List JumpTable}
  {a : Address}

/-! ## The split points -/

/-- `t` is the target of a normal link among `links`. -/
def IsTarget (links : List (Option Link)) (t : Ref) : Prop := ∃ scope, some (Link.normal (some t) scope) ∈ links

/-- `t` is in a block of `f` and not the first there. -/
def Inner (h : Heap Semantic) (f t : Ref) : Prop :=
  ∃ b ∈ h.children f, t ∈ h.children b ∧ (h.children b).head? ≠ some t

/-- The instructions that links point at are in the tree. -/
def TargetsAttached (h : Heap Semantic) (links : List (Option Link)) : Prop :=
  ∀ t, IsTarget links t → h.kind t = .instruction → ∃ b, t ∈ h.children b ∧ Rooted h b

theorem kind_block_of_child (hl : Linkage h) (ht : h.kind t = .instruction) (hb : t ∈ h.children b) : h.kind b = .block := by
  have := (hl.linked b).kind t hb
  rw [ht] at this
  cases hk : h.kind b <;> rw [hk] at this <;> first | rfl | cases this

theorem Inner.kind (hl : Linkage h) (hf : h.kind f = .function) (ht : Inner h f t) : h.kind t = .instruction := by
  obtain ⟨b, hb, htb, -⟩ := ht
  exact instruction_of_mem hl (block_of_mem hl hf hb) htb

theorem considerSplittingFor_target (hl : Linkage h) (points) (scope)
    (ht : h.kind t = .instruction) (hb : t ∈ h.children b) (hr : Rooted h b) :
    (Inner h f t ∧ considerSplittingFor h f points (some (.normal (some t) scope)) = .ok (points.insert t)) ∨
      (¬ Inner h f t ∧ considerSplittingFor h f points (some (.normal (some t) scope)) = .ok points) := by
  have hpr := (hl.linked b).parent t hb
  have hk := kind_block_of_child hl ht hb
  simp only [considerSplittingFor, ht, hpr, hk]
  by_cases hf : h.parent b = some f
  · have hm : b ∈ h.children f := by
      cases hr with
      | top hp => rw [hp] at hf; cases hf
      | child hp hc _ => rw [hp] at hf; cases hf; exact hc
    cases hh : h.children b with
    | nil => rw [hh] at hb; cases hb
    | cons y l =>
      by_cases hy : y = t
      · refine .inr ⟨?_, by simp [hf, hy]⟩
        rintro ⟨d, -, htd, hhd⟩
        rw [hl.eq_of_mem htd hb, hh, head?_cons, hy] at hhd
        exact hhd rfl
      · refine .inl ⟨⟨b, hm, hb, ?_⟩, by simp [hf, hy]⟩
        rw [hh, head?_cons]
        exact fun e => hy (Option.some.inj e)
  · refine .inr ⟨?_, by simp [hf]⟩
    rintro ⟨d, hd, htd, -⟩
    rw [hl.eq_of_mem htd hb] at hd
    exact hf ((hl.linked f).parent b hd)

theorem considerSplittingFor_ok (hl : Linkage h) (hf : h.kind f = .function) (htt : TargetsAttached h links)
    {link} (hn : link ∈ links) {points} (hnd : points.Nodup) :
    ∃ points', considerSplittingFor h f points link = .ok points' ∧ points'.Nodup ∧
      ∀ x, x ∈ points' ↔ x ∈ points ∨ (IsTarget [link] x ∧ Inner h f x) := by
  by_cases hlk : ∃ t scope, link = some (.normal (some t) scope) ∧ h.kind t = .instruction
  · obtain ⟨t, scope, rfl, ht⟩ := hlk
    have htr : ∀ x, IsTarget [some (Link.normal (some t) scope)] x ↔ x = t := fun x => by
      simp [IsTarget]
    obtain ⟨b, hb, hr⟩ := htt t ⟨scope, hn⟩ ht
    rcases considerSplittingFor_target (f := f) hl points scope ht hb hr with ⟨hin, hrn⟩ | ⟨hin, hrn⟩
    · refine ⟨_, hrn, hnd.insert, fun x => ?_⟩
      rw [mem_insert_iff, htr]
      constructor
      · rintro (rfl | hx)
        · exact .inr ⟨rfl, hin⟩
        · exact .inl hx
      · rintro (hx | ⟨rfl, -⟩)
        · exact .inr hx
        · exact .inl rfl
    · refine ⟨_, hrn, hnd, fun x => ⟨.inl, ?_⟩⟩
      rintro (hx | ⟨hx, hi⟩)
      · exact hx
      · rw [htr] at hx
        exact absurd (hx ▸ hi) hin
  · -- no link, a link of another kind or one whose target is no instruction
    have hrn : considerSplittingFor h f points link = .ok points := by
      unfold considerSplittingFor
      split
      · rename_i t scope
        rw [if_pos fun e => hlk ⟨t, scope, rfl, e⟩]
      · rfl
    refine ⟨points, hrn, hnd, fun x => ⟨.inl, ?_⟩⟩
    rintro (hx | ⟨⟨scope, hx⟩, hin⟩)
    · exact hx
    · exact absurd ⟨x, scope, (mem_singleton.1 hx).symm, hin.kind hl hf⟩ hlk

theorem isTarget_append {links'} : IsTarget (links ++ links') t ↔ IsTarget links t ∨ IsTarget links' t := by
  simp only [IsTarget, mem_append, exists_or]

theorem considerAll_ok (points) (hl : Linkage h) (hf : h.kind f = .function) (ht : TargetsAttached h links)
    (hnd : points.Nodup) : ∃ points', links.foldlM (considerSplittingFor h f) points = .ok points' ∧ points'.Nodup ∧
      ∀ x, x ∈ points' ↔ x ∈ points ∨ (IsTarget links x ∧ Inner h f x) := by
  have hr := foldlM_ok (f := considerSplittingFor h f)
    (I := fun done pts => pts.Nodup ∧ ∀ x, x ∈ pts ↔ x ∈ points ∨ (IsTarget done x ∧ Inner h f x)) links [] points
    ⟨hnd, fun x => by simp [IsTarget]⟩ fun pre link post hs pts hI => ?_
  · simpa using hr
  · rw [nil_append] at hI ⊢
    have hlk : link ∈ links := by rw [hs]; simp
    obtain ⟨pts', hp, hn', hm⟩ := considerSplittingFor_ok hl hf ht hlk hI.1
    refine ⟨pts', hp, hn', fun x => ?_⟩
    rw [hm, hI.2, isTarget_append, or_assoc, or_and_right]

def allLinks (h : Heap Semantic) (f : Ref) (tables : List JumpTable) : List (Option Link) :=
  instructionLinks h f ++ (tableLinks h f tables).toOption.getD []

theorem splitPoints_ok (hl : Linkage h) (hf : h.kind f = .function) (hp : h.parent f ≠ none)
    (htt : TargetsAttached h (allLinks h f tables)) : ∃ points, splitPoints h f tables = .ok points ∧ points.Nodup ∧
      ∀ x, x ∈ points ↔ IsTarget (allLinks h f tables) x ∧ Inner h f x := by
  obtain ⟨ts, hs⟩ : ∃ ts, tableLinks h f tables = .ok ts := by
    obtain ⟨l, hl⟩ := Option.ne_none_iff_exists'.1 hp
    unfold tableLinks
    rw [hl]
    dsimp only
    cases h.parent l with
    | none => exact ⟨_, rfl⟩
    | some m => exact ⟨_, rfl⟩
  have ha : allLinks h f tables = instructionLinks h f ++ ts := by rw [allLinks, hs]; rfl
  rw [ha] at htt ⊢
  obtain ⟨pts, h1, hnd, hm⟩ := considerAll_ok [] hl hf
    (fun t ht => htt t (isTarget_append.2 (.inl ht))) nodup_nil
  obtain ⟨pts', h2, hn', hm'⟩ := considerAll_ok pts hl hf (fun t ht => htt t (isTarget_append.2 (.inr ht))) hnd
  refine ⟨pts', ?_, hn', fun x => ?_⟩
  · rw [splitPoints, ok_bind h1, ok_bind hs, h2]
  · rw [hm', hm, isTarget_append, or_and_right]
    simp

/-! ## Splitting -/

/-- The blocks of `f`, each as its list of instructions. -/
def blocks (h : Heap Semantic) (f : Ref) : List (List Ref) := (h.children f).map h.children

theorem flatten_blocks (h : Heap Semantic) (f) : (blocks h f).flatten = instructions h f := by
  rw [blocks, instructions, flatMap_def]

/-- What the loop over the split points keeps: `f` is still a function at `a` with the same instructions, no block is
    empty, and the leaders are the old ones and `done`. -/
structure Split (h : Heap Semantic) (f : Ref) (a : Address) (done : List Ref) (s : Heap Semantic) : Prop where
  wellFormed : WellFormed s
  positioned : Positioned s
  rooted : Rooted s f
  kind : s.kind f = .function
  allocated : f < s.fresh
  position : s.position f = some ⟨.absolute a, .plain⟩
  semantic : s.semantic = h.semantic
  sequence : instructions s f = instructions h f
  nonempty : ∀ l ∈ blocks s f, l ≠ []
  leaders : ∀ x, IsHead (blocks s f) x ↔ IsHead (blocks h f) x ∨ x ∈ done

theorem blocks_split {B1 B2} (hl : Linkage s) (hf : s.kind f = .function) (hB : s.children f = B1 ++ b :: B2)
    (hs : SplitWF s h' f b l₁ l₂ B1 B2) : blocks h' f = B1.map s.children ++ l₁ :: l₂ :: B2.map s.children := by
  have hb : b ∈ s.children f := by rw [hB]; simp
  have hnd := (hl.linked f).nodup
  rw [hB, nodup_middle, nodup_cons, mem_append, not_or] at hnd
  -- the other blocks keep their lists
  have ho : ∀ d ∈ s.children f, d ≠ b → h'.children d = s.children d := by
    intro d hd hdb
    have hdf : d ≠ f := by
      rintro rfl
      rw [block_of_mem hl hf hd] at hf
      cases hf
    rw [hs.children, update_of_ne hdf, update_of_ne (ne_of_lt (hl.allocated f d hd).1),
      update_of_ne hdb]
  have hm : ∀ B : List Ref, (∀ d ∈ B, d ∈ s.children f ∧ d ≠ b) → B.map h'.children = B.map s.children := fun B hB =>
    map_congr_left fun d hd => ho d (hB d hd).1 (hB d hd).2
  have hbf' : b ≠ f := by
    rintro rfl
    rw [block_of_mem hl hf hb] at hf
    cases hf
  have hfs := ne_of_lt (hl.allocated f b hb).1
  have hff := (ne_of_lt (hl.allocated f b hb).2).symm
  have hb' : h'.children b = l₁ := by
    rw [hs.children, update_of_ne hbf', update_of_ne hfs, update_self]
  have hn' : h'.children s.fresh = l₂ := by
    rw [hs.children, update_of_ne hff, update_self]
  have hf' : h'.children f = B1 ++ b :: s.fresh :: B2 := by rw [hs.children, update_self]
  rw [blocks, hf', map_append, map_cons, map_cons, hb', hn', hm B1 ?_, hm B2 ?_]
  · exact fun d hd => ⟨by rw [hB]; simp [hd], fun e => hnd.1.2 (e ▸ hd)⟩
  · exact fun d hd => ⟨by rw [hB]; simp [hd], fun e => hnd.1.1 (e ▸ hd)⟩

theorem split_step {done} (hs : Split h f a done s) (hp : Inner h f p) (hd : p ∉ done)
    (hh : ¬ IsHead (blocks h f) p) :
    ∃ s', splitBlockBefore .offset s f p = .ok s' ∧ Split h f a (done ++ [p]) s' := by
  have hl := hs.wellFormed.toLinkage
  -- `p` is in some block of the current function, and not first there
  have hi : p ∈ instructions s f := by
    rw [hs.sequence]
    obtain ⟨b, hb, hpb, -⟩ := hp
    exact mem_flatMap.2 ⟨b, hb, hpb⟩
  obtain ⟨b, hb, hpb⟩ := mem_flatMap.1 hi
  obtain ⟨B1, B2, hB⟩ := append_of_mem hb
  obtain ⟨l₁, l₂, hc⟩ := append_of_mem hpb
  have hl1 : l₁ ≠ [] := by
    rintro rfl
    have : IsHead (blocks s f) p := ⟨s.children b, mem_map_of_mem hb, by rw [hc]; rfl⟩
    rcases (hs.leaders p).1 this with h1 | h1
    · exact hh h1
    · exact hd h1
  obtain ⟨s', hr, hp', hkp⟩ := splitBlockBefore_ok hs.wellFormed hs.rooted hs.kind hs.positioned
    (.absolute hs.position) hB hc
  have hsc := splitBlockBefore_spec hs.wellFormed hs.rooted hs.kind hB hc hr
  have hbc := blocks_split hl hs.kind hB hsc
  have ho : blocks s f = B1.map s.children ++ (l₁ ++ p :: l₂) :: B2.map s.children := by
    rw [blocks, hB, map_append, map_cons, hc]
  have hk : s'.kind f = .function := by
    rw [hsc.kind, update_of_ne (ne_of_lt hs.allocated), hs.kind]
  refine ⟨s', hr, hsc.wellFormed, hp', hsc.rooted, hk, ?_, ?_, hsc.semantic.trans hs.semantic, ?_, ?_, ?_⟩
  · rw [hsc.fresh]
    exact Nat.lt_succ_of_lt hs.allocated
  · rw [hkp f hs.allocated le_rfl, hs.position]
  · rw [← hs.sequence, ← flatten_blocks, ← flatten_blocks, hbc, ho]
    simp
  · intro l hl
    have hne := hs.nonempty
    rw [ho] at hne
    rw [hbc, mem_append, mem_cons, mem_cons] at hl
    rcases hl with hl | rfl | rfl | hl
    · exact hne l (by simp only [mem_append]; exact .inl hl)
    · exact hl1
    · exact cons_ne_nil _ _
    · exact hne l (by simp only [mem_append, mem_cons]; exact .inr (.inr hl))
  · intro x
    obtain ⟨y, k, rfl⟩ := exists_cons_of_ne_nil hl1
    have hx := hs.leaders x
    rw [ho] at hx
    simp only [isHead_append, isHead_cons, cons_append, head?_cons] at hx
    simp only [hbc, isHead_append, isHead_cons, head?_cons, mem_append, mem_singleton,
      Option.some.injEq] at hx ⊢
    rw [← or_assoc (a := IsHead (blocks h f) x), ← hx]
    -- the cut adds its own first element and keeps the others
    constructor
    · rintro (hf | hfr | ht | ha)
      · exact .inl (.inl hf)
      · exact .inl (.inr (.inl hfr))
      · exact .inr ht.symm
      · exact .inl (.inr (.inr ha))
    · rintro ((hf | hfr | ha) | ht)
      · exact .inl hf
      · exact .inr (.inl hfr)
      · exact .inr (.inr (.inr ha))
      · exact .inr (.inr (.inl ht.symm))

theorem isHead_blocks {x} : IsHead (blocks h f) x ↔ ∃ b ∈ h.children f, (h.children b).head? = some x := by
  simp [IsHead, blocks]

theorem Inner.not_isHead (hl : Linkage h) (hp : Inner h f p) : ¬ IsHead (blocks h f) p := by
  rw [isHead_blocks]
  rintro ⟨d, -, hd⟩
  obtain ⟨b, -, hb, hh⟩ := hp
  rw [hl.eq_of_mem hb (mem_of_head? hd)] at hh
  exact hh hd

theorem splitAll_ok {points} (h0 : Split h f a [] h) (hnd : points.Nodup) (hin : ∀ p ∈ points, Inner h f p) :
    ∃ s, points.foldlM (fun h p => splitBlockBefore .offset h f p) h = .ok s ∧ Split h f a points s := by
  have hr := foldlM_ok (f := fun h p => splitBlockBefore .offset h f p) (I := Split h f a) points [] h h0
    fun pre p post hs s hI => ?_
  · simpa using hr
  · rw [nil_append] at hI ⊢
    have hp := hin p (by rw [hs]; simp)
    rw [hs, nodup_middle, nodup_cons, mem_append, not_or] at hnd
    exact split_step hI hp hnd.1.1 (hp.not_isHead h0.wellFormed.toLinkage)

/-- Laid out from an absolute position, without empty blocks, in a list, its links leading into the tree. -/
structure Ready (h : Heap Semantic) (f : Ref) (a : Address) (tables : List JumpTable) : Prop where
  wellFormed : WellFormed h
  positioned : Positioned h
  rooted : Rooted h f
  kind : h.kind f = .function
  allocated : f < h.fresh
  position : h.position f = some ⟨.absolute a, .plain⟩
  contiguous : Contiguous h f a
  nonempty : ∀ b ∈ h.children f, h.children b ≠ []
  listed : h.parent f ≠ none
  attached : TargetsAttached h (allLinks h f tables)

theorem Ready.start (hr : Ready h f a tables) : Split h f a [] h := by
  refine ⟨hr.wellFormed, hr.positioned, hr.rooted, hr.kind, hr.allocated, hr.position, rfl, rfl, fun l hl => ?_, by simp⟩
  obtain ⟨b, hb, rfl⟩ := mem_map.1 hl
  exact hr.nonempty b hb

/-- The pass returns, having split at the inner targets, and the function is laid out again. -/
theorem Ready.visit_split (hr : Ready h f a tables) (pointer) :
    ∃ points s h', visit .offset pointer tables h f = .ok h' ∧ Split h f a points s ∧ SameTree s h' ∧ Contiguous h' f a ∧
      ∀ x, x ∈ points ↔ IsTarget (allLinks h f tables) x ∧ Inner h f x := by
  obtain ⟨points, ht, hnd, hm⟩ := splitPoints_ok hr.wellFormed.toLinkage hr.kind hr.listed hr.attached
  have hpm : (backwards pointer points).Perm points := perm_insertionSort ..
  obtain ⟨s, hsl, hs⟩ := splitAll_ok hr.start (hpm.nodup_iff.2 hnd)
    fun p hp => ((hm p).1 (hpm.mem_iff.1 hp)).2
  obtain ⟨h', hu, hsm, -, -, -, hl⟩ := updatePositions_ok hs.wellFormed.toLinkage hs.positioned hs.rooted
  have hk : h'.kind f = .function := by rw [hsm.agree.kind, hs.kind]
  refine ⟨backwards pointer points, s, h', ?_, hs, hsm,
    (hl f a (.inl rfl) hs.position).contiguous (hs.wellFormed.sameTree hsm) hk, fun x => ?_⟩
  · rw [visit, ok_bind ht, ok_bind hsl, hu]
  · rw [hpm.mem_iff, hm]

theorem Split.extent_eq {done l} (hs : Split h f a done s) (hm : SameTree s h') (hw : WellFormed h)
    (hf : h.kind f = .function) (hl : ∀ i ∈ l, i ∈ instructions h f) : extent h' l = extent h l := by
  rw [extent_sameTree hm, extent, extent]
  refine congrArg sum (map_congr_left fun i hi => ?_)
  rw [getSize_instruction hs.wellFormed.toLinkage hs.kind (by rw [hs.sequence]; exact hl i hi),
    getSize_instruction hw.toLinkage hf (hl i hi), hs.semantic]

/-- The pass does not change the code: the instructions, their addresses and the size of the
function are as before, no block is empty, every target of a normal link of the function or of its
jump tables leads its block, and the blocks do not depend on the order of the split points. -/
theorem visit_makes_leaders (hr : Ready h f a tables) (pointer : Ref → Nat) :
    ∃ h', visit .offset pointer tables h f = .ok h' ∧ instructions h' f = instructions h f ∧
      (∀ i ∈ instructions h f, ∃ x, h.getAddress i = .ok (x, h) ∧ h'.getAddress i = .ok (x, h')) ∧
      h'.getSize f = h.getSize f ∧ (∀ b ∈ h'.children f, h'.children b ≠ []) ∧
      (∀ t ∈ instructions h f, IsTarget (allLinks h f tables) t → ∃ b ∈ h'.children f, (h'.children b).head? = some t) ∧
      ∀ pointer' h'', visit .offset pointer' tables h f = .ok h'' → blocks h'' f = blocks h' f := by
  obtain ⟨points, s, h', hrun, hs, hsm, hct, hmem⟩ := hr.visit_split pointer
  have hbc : blocks h' f = blocks s f := by rw [blocks, blocks, hsm.agree.children]
  have hins : instructions h' f = instructions h f := by
    rw [← flatten_blocks, hbc, flatten_blocks, hs.sequence]
  refine ⟨h', hrun, hins, fun i hi => ?_, ?_, fun b hb => ?_, fun t ht htr => ?_, fun pointer' h'' hrn' => ?_⟩
  · -- what stands before the instruction is the same in both heaps
    obtain ⟨l₁, l₂, hl⟩ := append_of_mem hi
    refine ⟨past h a l₁, hr.contiguous.instruction l₁ i l₂ hl, ?_⟩
    rw [hct.instruction l₁ i l₂ (hins.trans hl), past, past,
      hs.extent_eq hsm hr.wellFormed hr.kind fun j hj => by rw [hl]; simp [hj]]
  · have hkd : h'.kind f = .function := by rw [hsm.agree.kind, hs.kind]
    rw [getSize_function (hs.wellFormed.sameTree hsm) hkd, getSize_function hr.wellFormed hr.kind, hins,
      hs.extent_eq hsm hr.wellFormed hr.kind fun j hj => hj]
  · rw [hsm.agree.children] at hb ⊢
    exact hs.nonempty _ (mem_map_of_mem hb)
  · rw [← isHead_blocks, hbc, hs.leaders, hmem]
    obtain ⟨b, hb, htb⟩ := mem_flatMap.1 ht
    by_cases hhd : (h.children b).head? = some t
    · exact .inl (isHead_blocks.2 ⟨b, hb, hhd⟩)
    · exact .inr ⟨htr, b, hb, htb, hhd⟩
  · obtain ⟨points', s', h2, hrn2, hs', hsm', -, hm'⟩ := hr.visit_split pointer'
    rw [hrn'] at hrn2
    cases hrn2
    have hbl' : blocks h'' f = blocks s' f := by rw [blocks, blocks, hsm'.agree.children]
    rw [hbc, hbl']
    refine eq_of_isHead hs'.nonempty hs.nonempty ?_ ?_ fun x => ?_
    · rw [flatten_blocks, flatten_blocks, hs'.sequence, hs.sequence]
    · rw [flatten_blocks]
      exact instructions_nodup hs'.wellFormed.toLinkage f
    · rw [hs'.leaders, hs.leaders, hm', hmem]

/-! ## A small function -/

def shortJump (link : Link) : ControlFlow := ⟨.jmp, [0xeb], "jmp", 1, false, some link⟩

/-- A function 0 at `0x1000`, in the list 2 of the module 3, with a short jump 4 and a `lock`-prefixed instruction 5 in
    its block 1. -/
def jumpHeap (link : Link) : Heap Semantic where
  kind
    | 0 => .function
    | 1 => .block
    | 2 => .functionList
    | 3 => .module
    | _ => .instruction
  parent
    | 0 => some 2
    | 1 => some 0
    | 2 => some 3
    | 4 | 5 => some 1
    | _ => none
  prev
    | 5 => some 4
    | _ => none
  next
    | 4 => some 5
    | _ => none
  children
    | 0 => [1]
    | 1 => [4, 5]
    | 2 => [0]
    | 3 => [2]
    | _ => []
  computedSize
    | 0 | 1 => 6
    | _ => 0
  semantic
    | 4 => .controlFlow (shortJump link)
    | _ => .isolated 4
  position
    | 0 => some ⟨.absolute 0x1000, .plain⟩
    | 1 | 4 => some (offsetPosition 0)
    | 5 => some (offsetPosition 2)
    | _ => none
  fresh := 6

theorem jumpHeap_wellFormed (link) : WellFormed (jumpHeap link) where
  linked
    | 0 | 1 | 2 | 3 => ⟨by simp [jumpHeap], by simp [jumpHeap, Linked], by simp [jumpHeap], by simp [jumpHeap, Kind.childType]⟩
    | _ + 4 => ⟨nodup_nil, trivial, nofun, nofun⟩
  allocated
    | 0 | 1 | 2 | 3 => by simp [jumpHeap]
    | _ + 4 => nofun
  balanced
    | 0, _ => rfl
    | 1, _ => rfl
    | 2, ht | 3, ht | _ + 4, ht => by rcases ht with ht | ht <;> cases ht

theorem jumpHeap_positioned (link) : Positioned (jumpHeap link) where
  shape
    | 0 => .inr (.inr ⟨0x1000, rfl⟩)
    | 1 => .inr ⟨0, rfl⟩
    | 2 | 3 => rfl
    | 4 => .inr ⟨0, rfl⟩
    | 5 => .inr ⟨2, rfl⟩
    | _ + 6 => .inl rfl
  child
    | 0, _ | 1, _ => by simp [jumpHeap]
    | 2, ht | 3, ht => by rcases ht with ht | ht <;> cases ht
    | _ + 4, _ => nofun

theorem jumpHeap_rooted (link) : Rooted (jumpHeap link) 0 :=
  .child (d := 2) rfl mem_cons_self (.child (d := 3) rfl mem_cons_self (.top rfl))

theorem jumpHeap_laidOut (link : Link) : FunctionLaidOut (jumpHeap link) 0 0x1000 := by
  have h0 : At (jumpHeap link) 0 0x1000 := .absolute rfl
  have h1 : At (jumpHeap link) 1 0x1000 := .child (o := 0) rfl (c := 0) mem_cons_self h0
  have h4 : At (jumpHeap link) 4 0x1000 := .child (o := 0) rfl (c := 1) mem_cons_self h1
  have h5 : At (jumpHeap link) 5 0x1002 := .child (o := 2) rfl (c := 1) (mem_cons_of_mem _ mem_cons_self) h1
  refine ⟨h0, fun B1 b B2 hB => ?_⟩
  obtain ⟨rfl, rfl, rfl⟩ : B1 = [] ∧ b = 1 ∧ B2 = [] := by
    have hB : [1] = B1 ++ b :: B2 := hB
    cases B1 with
    | nil => simpa using hB.symm
    | cons y B1 => simp at hB
  refine ⟨h1, fun l₁ i l₂ hl => ?_⟩
  have hl : [4, 5] = l₁ ++ i :: l₂ := hl
  rcases l₁ with _ | ⟨y, _ | ⟨z, l₁⟩⟩
  · obtain ⟨rfl, rfl⟩ : i = 4 ∧ l₂ = [5] := by simpa [eq_comm] using hl
    exact h4
  · obtain ⟨rfl, rfl, rfl⟩ : y = 4 ∧ i = 5 ∧ l₂ = [] := by simpa [eq_comm] using hl
    exact h5
  · simp at hl

theorem jumpHeap_ready (scope) : Ready (jumpHeap (.normal (some 5) scope)) 0 0x1000 [] := by
  have hw := jumpHeap_wellFormed (.normal (some 5) scope)
  refine ⟨hw, jumpHeap_positioned _, jumpHeap_rooted _, rfl, show 0 < 6 by decide, rfl, (jumpHeap_laidOut _).contiguous hw rfl, ?_,
    Option.some_ne_none _, fun t ht _ => ?_⟩
  · simp [jumpHeap]
  · obtain ⟨s, hs⟩ := ht
    have ht : t = 5 := by
      simp [allLinks, instructionLinks, tableLinks, instructions, jumpHeap, shortJump, Semantic.linkedLink,
        Semantic.controlFlowLink, Semantic.controlFlow?, Except.toOption] at hs
      exact hs.1
    subst ht
    exact ⟨1, mem_cons_of_mem _ mem_cons_self, .child (d := 0) rfl mem_cons_self (jumpHeap_rooted _)⟩

theorem visit_makes_leaders_jump :
    ∃ h', visit .offset id [] (jumpHeap (.normal (some 5) 7)) 0 = .ok h' ∧
      instructions h' 0 = instructions (jumpHeap (.normal (some 5) 7)) 0 ∧
      ∃ b ∈ h'.children 0, (h'.children b).head? = some 5 := by
  obtain ⟨h', hrun, hins, -, -, -, hld, -⟩ := visit_makes_leaders (jumpHeap_ready 7) id
  exact ⟨h', hrun, hins, hld 5 (by decide) ⟨7, by decide⟩⟩

/-- A jump past the `lock` prefix has an offset link: its target stays inside the block. -/
theorem not_leader_offset_link :
    ((jumpHeap (.offset (some 5) 1 7)).semantic 4).controlFlowLink = some (.offset (some 5) 1 7) ∧
      (visit .offset id [] (jumpHeap (.offset (some 5) 1 7)) 0).toOption.map (fun h => blocks h 0) = some [[4, 5]] := by
  decide

end Egalito.SplitBasicBlock
