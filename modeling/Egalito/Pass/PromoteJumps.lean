/-
`PromoteJumpsPass`: jumps with a one-byte displacement are widened until a sweep over the function changes nothing.

A change widens a jump for good, so the number of narrow ones bounds the sweeps, and a sweep without a change leaves
every jump settled. `visit_in_range_iff` has the exact condition for all jumps to reach their targets, and
`visit_visit` that a second run changes nothing.
-/
import Egalito.Lib.Bytes
import Egalito.Pass.SplitBasicBlock

namespace Egalito

open Lib Heap Mutator List Function BitVec

def fitsIn (n : Nat) (d : Address) : Bool := (d.setWidth n).toInt == d.toInt

namespace ControlFlow

/-- `calculateDisplacement` of the instruction `i` with semantic `v` and link `link`. -/
def calculateDisplacement (h : Heap Semantic) (i : Ref) (v : ControlFlow) (link : Link) :
    Except Failure (Address × Heap Semantic) := do
  let (disp, h) ← link.getTargetAddress h
  if link.isRIPRelative then do
    let (a, h) ← h.getAddress i
    .ok (disp - (a + BitVec.ofNat 64 v.getSize), h)
  else .ok (disp, h)

def writeTo (h : Heap Semantic) (i : Ref) (v : ControlFlow) (link : Link) : Except Failure (List (BitVec 8)) := do
  let (disp, _) ← v.calculateDisplacement h i link
  .ok (v.opcode ++ littleEndian v.displacementSize disp.toNat)

end ControlFlow

namespace PromoteJumps

/-! ## The pass -/

/-- `getWiderOpcode`: nothing is written for the jumps that only exist in short form and for unknown
ids; the source logs these. -/
def getWiderOpcode : InstrId → List (BitVec 8)
  | .jmp => [0xe9]
  | .ja => [0x0f, 0x87]
  | .jae => [0x0f, 0x83]
  | .jb => [0x0f, 0x82]
  | .jbe => [0x0f, 0x86]
  | .jg => [0x0f, 0x8f]
  | .jge => [0x0f, 0x8d]
  | .jl => [0x0f, 0x8c]
  | .jle => [0x0f, 0x8e]
  | .jno => [0x0f, 0x81]
  | .jnp => [0x0f, 0x8b]
  | .jns => [0x0f, 0x89]
  | .jo => [0x0f, 0x80]
  | .jp => [0x0f, 0x8a]
  | .js => [0x0f, 0x88]
  | .je => [0x0f, 0x84]
  | .jne => [0x0f, 0x85]
  | .jcxz | .jrcxz | .jecxz | .call | .other _ => []

def widen (v : ControlFlow) : ControlFlow := { v with opcode := getWiderOpcode v.id, displacementSize := 4 }

def promote (mode : Mode) (h : Heap Semantic) (i : Ref) (v : ControlFlow) : Except Failure (Heap Semantic) :=
  match h.parent i with
  | none => .ok (h.setSemantic i (.controlFlow (widen v)))
  | some b => do
    let h ← resize mode h b i (.controlFlow (widen v))
    updatePositions mode h b

/-- Whether a jump is widened, `disp` being its displacement. -/
def needsPromotion (v : ControlFlow) (link : Link) (disp : Address) : Except Failure Bool :=
  if v.displacementSize = 1 then
    if fitsIn 8 disp then link.isExternalJump else .ok true
  else .ok false

def visitLinked (mode : Mode) (changed : Bool) (h : Heap Semantic) (i : Ref) (v : ControlFlow) (link : Link) :
    Except Failure (Bool × Heap Semantic) := do
  let (disp, h) ← v.calculateDisplacement h i link
  let wide ← needsPromotion v link disp
  let h ← (if wide then promote mode h i v else .ok h)
  -- "displacement is too large for 32-bit reach"
  if fitsIn 32 disp then .ok (changed || wide, h) else .error .assertion

def visitInstruction (mode : Mode) (st : Bool × Heap Semantic) (i : Ref) : Except Failure (Bool × Heap Semantic) :=
  match (st.2.semantic i).controlFlow? with
  | none => .ok st
  | some v =>
    match v.link with
    | none => .ok st
    | some link => visitLinked mode st.1 st.2 i v link

def sweep (mode : Mode) (h : Heap Semantic) (f : Ref) : Except Failure (Bool × Heap Semantic) :=
  (instructions h f).foldlM (visitInstruction mode) (false, h)

def sweeps (mode : Mode) : Nat → Heap Semantic → Ref → Except Failure (Heap Semantic)
  | 0, _, _ => .error .diverged
  | n + 1, h, f => do
    let (changed, h) ← sweep mode h f
    if changed then sweeps mode n h f else .ok h

/-- `visit(Function *)`. The bound on the sweeps is never reached. -/
def visit (mode : Mode) (h : Heap Semantic) (f : Ref) : Except Failure (Heap Semantic) :=
  sweeps mode ((instructions h f).length + 1) h f

variable {h h0 h1 h' s s' : Heap Semantic} {b f i t : Ref} {v : ControlFlow} {link : Link} {a : Address}

/-! ## Addresses of targets -/

def Addressed (h : Heap Semantic) (t : Ref) : Prop := ∃ x, At h t x

def TargetAddressed (h : Heap Semantic) (link : Link) : Prop := ∀ t, link.getTarget = .ok (some t) → Addressed h t

theorem Addressed.transfer (ha : Addressed h t) (hp0 : Positioned h) (hp : Positioned h') (hk : h'.kind = h.kind) (hr : h'.parent = h.parent)
    (hc : h'.children = h.children) (hpc : KeepsPlaced h h')
    (hf : ∀ z, (h.kind z).height ≤ Kind.function.height → h'.position z = h.position z) : Addressed h' t := by
  have ho : ∀ z o, h.position z = some (offsetPosition o) → ∃ o', h'.position z = some (offsetPosition o') := by
    intro z o hz
    by_cases hlo : Low (h.kind z)
    · have hsp := hp.shape z
      rw [hk, positionOK_low hlo] at hsp
      exact hsp.resolve_left (hpc z (by rw [hz]; exact Option.some_ne_none _))
    · refine ⟨o, ?_⟩
      rw [hf z, hz]
      cases hkz : h.kind z with
      | instruction => exact absurd (.inl hkz) hlo
      | block => exact absurd (.inr hkz) hlo
      | function | functionList | module => decide
  obtain ⟨x, hx⟩ := ha
  induction hx with
  | @absolute z b hz =>
    have hkz := (hp0.absolute (x := z) (by rw [hz]; rfl)).1
    exact ⟨b, .absolute (by rw [hf z (by rw [hkz]), hz])⟩
  | @top z o hz hpz =>
    obtain ⟨o', ho'⟩ := ho z o hz
    exact ⟨0, .top ho' (by rw [hr]; exact hpz)⟩
  | @child z c o b hz hzc _ ih =>
    obtain ⟨o', ho'⟩ := ho z o hz
    obtain ⟨b', hb'⟩ := ih
    exact ⟨b' + o', .child ho' (by rw [hc]; exact hzc) hb'⟩

theorem chunkAddress_cases (hl : Linkage h) {o} (ho : ∀ t, o = some t → Addressed h t) :
    (∃ x, Link.chunkAddress h o = .ok (x, h)) ∨ Link.chunkAddress h o = .error .assertion := by
  cases o with
  | none => exact .inr rfl
  | some t =>
    obtain ⟨x, hx⟩ := ho t rfl
    exact .inl ⟨x, hx.getAddress hl⟩

theorem getTargetAddress_cases (hl : Linkage h) (hlk : TargetAddressed h link) :
    (∃ x, link.getTargetAddress h = .ok (x, h)) ∨ link.getTargetAddress h = .error .assertion := by
  cases link with
  | normal o _ | absoluteNormal o _ => exact chunkAddress_cases hl fun t ht => hlk t (by rw [ht]; rfl)
  | offset o off _ =>
    rcases chunkAddress_cases hl (o := o) fun t ht => hlk t (by rw [ht]; rfl) with ⟨x, hx⟩ | hx
    · exact .inl ⟨x + off, by rw [Link.getTargetAddress, ok_bind hx]⟩
    · exact .inr (by rw [Link.getTargetAddress, error_bind hx])
  | externalSymbol o off =>
    cases o with
    | none => exact .inl ⟨0, rfl⟩
    | some t =>
      obtain ⟨x, hx⟩ := hlk t rfl
      exact .inl ⟨x + off, by rw [Link.getTargetAddress, ok_bind (hx.getAddress hl)]⟩
  | plt x _ | jumpTable x | symbolOnly x | loader x | unresolved x | unresolvedRelative x => exact .inl ⟨x, rfl⟩
  | immAndDisp => exact .inr rfl

/-! ## The state of the pass -/

/-- What the visits keep: the function is laid out at `a`, with its instructions, and a semantic is the old one or that
    of a widened jump. -/
structure Laid (h0 : Heap Semantic) (f : Ref) (a : Address) (s : Heap Semantic) : Prop where
  wellFormed : WellFormed s
  positioned : Positioned s
  rooted : Rooted s f
  kind : s.kind f = .function
  position : s.position f = some ⟨.absolute a, .plain⟩
  laidOut : FunctionLaidOut s f a
  sequence : instructions s f = instructions h0 f
  semantic : ∀ i, s.semantic i = h0.semantic i ∨
    ∃ v, h0.semantic i = .controlFlow v ∧ v.displacementSize = 1 ∧ s.semantic i = .controlFlow (widen v)
  addressed : ∀ t, Addressed h0 t → Addressed s t

theorem Laid.mem_block (hs : Laid h0 f a s) (hi : i ∈ instructions s f) :
    ∃ b ∈ s.children f, i ∈ s.children b ∧ s.kind i = .instruction ∧ s.parent i = some b := by
  obtain ⟨b, hb, hib⟩ := mem_flatMap.1 hi
  have hl := hs.wellFormed.toLinkage
  exact ⟨b, hb, hib, instruction_of_mem hl (block_of_mem hl hs.kind hb) hib, (hl.linked b).parent i hib⟩

theorem promote_ok (hs : Laid h0 f a s) (hi : i ∈ instructions s f) (hv : s.semantic i = .controlFlow v)
    (hsr : v.displacementSize = 1) : ∃ s', promote .offset s i v = .ok s' ∧ Laid h0 f a s' ∧
      s'.semantic = update s.semantic i (.controlFlow (widen v)) := by
  obtain ⟨b, hb, hib, hki, hpr⟩ := hs.mem_block hi
  have hl := hs.wellFormed.toLinkage
  have hr : Rooted s b := .child ((hl.linked f).parent b hb) hb hs.rooted
  obtain ⟨s1, h01, hp1, hs1⟩ := resize_ok (.controlFlow (widen v)) hs.wellFormed hr hs.positioned hib hki
  obtain ⟨ha, hw1⟩ := resize_spec hs.wellFormed hr hib hki h01
  have hc1 := ha.children
  have hk1 : s1.kind = s.kind := ha.kind
  have hr1 : s1.parent = s.parent := ha.parent
  have ht1 : ∀ c, Rooted s c → Rooted s1 c := fun c hc =>
    hc.transfer (P := fun _ => True) trivial (fun _ _ _ _ => trivial) (fun y _ => by rw [hr1])
      (fun y d _ hy => by rw [hc1]; exact hy)
  obtain ⟨s2, h12, hm, hp2, hf, hp, hly⟩ := updatePositions_ok hw1.toLinkage hp1 (ht1 b hr)
  have he : s2.semantic = update s.semantic i (.controlFlow (widen v)) := hm.agree.semantic.trans ha.semantic
  have hf2 : ∀ z, (s.kind z).height ≤ Kind.function.height → s2.position z = s.position z := fun z hz => by
    rw [hf z (by rwa [hk1]), hs1]
  have hpf : s2.position f = some ⟨.absolute a, .plain⟩ := by rw [hf2 f (by rw [hs.kind]), hs.position]
  refine ⟨s2, by rw [promote, hpr]; exact (ok_bind h01 _).trans h12, ⟨hw1.sameTree hm, hp2,
    (ht1 f hs.rooted).agree hm.agree, ?_, hpf, ?_, ?_, fun j => ?_, fun t ht => ?_⟩, he⟩
  · rw [hm.agree.kind, hk1, hs.kind]
  · exact hly f a (.inr (by rw [hc1]; exact hb)) (by rw [hs1, hs.position])
  · rw [instructions, hm.agree.children, hc1]
    exact hs.sequence
  · rw [he]
    by_cases hj : j = i
    · subst hj
      rw [update_self]
      rcases hs.semantic j with ho | ⟨w, -, -, hw⟩
      · exact .inr ⟨v, ho ▸ hv, hsr, rfl⟩
      · -- a widened jump is not short
        rw [hv] at hw
        cases hw
        cases hsr
    · rw [update_of_ne hj]
      exact hs.semantic j
  · refine (hs.addressed t ht).transfer hs.positioned hp2 (hm.agree.kind.trans hk1)
      (hm.agree.parent.trans hr1) (hm.agree.children.trans hc1) (fun z hz => hp z ?_) hf2
    rwa [hs1]

def isShort : Semantic → Bool
  | .controlFlow v => v.displacementSize == 1
  | _ => false

/-- The number of jumps that can still be widened. -/
def shorts (s : Heap Semantic) (f : Ref) : Nat := (instructions s f).countP fun i => isShort (s.semantic i)

theorem countP_lt {p q} : ∀ {l : List Ref}, (∀ x, q x → p x) → i ∈ l → p i = true → q i = false →
    l.countP q < l.countP p
  | x :: l, hqp, hi, hp, hq => by
    rw [countP_cons, countP_cons]
    have hle : l.countP q ≤ l.countP p := countP_mono_left fun y _ => hqp y
    rcases mem_cons.1 hi with rfl | hi
    · rw [if_pos hp, if_neg (by rw [hq]; exact Bool.false_ne_true)]
      omega
    · have ih := countP_lt hqp hi hp hq
      have hx := hqp x
      split <;> split <;> first | omega | (rename_i hx1 hx2; exact absurd (hx hx1) hx2)

theorem shorts_lt (hs : Laid h0 f a s) (hs' : Laid h0 f a s') (hi : i ∈ instructions s f)
    (hv : s.semantic i = .controlFlow v) (hr : v.displacementSize = 1)
    (hm : s'.semantic = update s.semantic i (.controlFlow (widen v))) : shorts s' f < shorts s f := by
  unfold shorts
  rw [hs'.sequence, ← hs.sequence]
  refine countP_lt (fun x hx => ?_) hi (by simp [hv, isShort, hr]) (by simp [hm, isShort, widen])
  rw [hm] at hx
  by_cases hxi : x = i
  · subst hxi
    simp [hv, isShort, hr]
  · rwa [update_of_ne hxi] at hx

/-! ## Visits -/

/-- The instruction needs no change where it is: what a visit that changes nothing has seen. -/
def Settled (s : Heap Semantic) (i : Ref) : Prop :=
  ∀ v link, s.semantic i = .controlFlow v → v.link = some link → ∃ disp, v.calculateDisplacement s i link = .ok (disp, s) ∧
    needsPromotion v link disp = .ok false ∧ fitsIn 32 disp = true

def LinksAddressed (h : Heap Semantic) (f : Ref) : Prop :=
  ∀ i ∈ instructions h f, ∀ v link, h.semantic i = .controlFlow v → v.link = some link → TargetAddressed h link

section

variable (hs : Laid h0 f a s)
include hs

theorem Laid.address (hi : i ∈ instructions s f) :
    ∃ l1 l2, instructions s f = l1 ++ i :: l2 ∧ s.getAddress i = .ok (past s a l1, s) := by
  obtain ⟨l1, l2, hl⟩ := append_of_mem hi
  exact ⟨l1, l2, hl, (hs.laidOut.contiguous hs.wellFormed hs.kind).instruction l1 i l2 hl⟩

theorem Laid.link_eq (hv : s.semantic i = .controlFlow v) :
    ∃ w, h0.semantic i = .controlFlow w ∧ w.link = v.link ∧ (v = w ∨ (w.displacementSize = 1 ∧ v = widen w)) := by
  rcases hs.semantic i with ho | ⟨w, hw, hr, hd⟩
  · exact ⟨v, ho ▸ hv, rfl, .inl rfl⟩
  · rw [hv] at hd
    cases hd
    exact ⟨w, hw, rfl, .inr ⟨hr, rfl⟩⟩

theorem Laid.targetAddressed (hl : LinksAddressed h0 f) (hi : i ∈ instructions s f)
    (hv : s.semantic i = .controlFlow v) (hlk : v.link = some link) : TargetAddressed s link := by
  obtain ⟨w, hw, hwl, -⟩ := hs.link_eq hv
  exact fun t ht => hs.addressed t (hl i (hs.sequence ▸ hi) w link hw (hwl.trans hlk) t ht)

theorem calculateDisplacement_cases (hl : LinksAddressed h0 f) (hi : i ∈ instructions s f)
    (hv : s.semantic i = .controlFlow v) (hlk : v.link = some link) :
    (∃ disp, v.calculateDisplacement s i link = .ok (disp, s)) ∨ v.calculateDisplacement s i link = .error .assertion := by
  obtain ⟨l1, -, -, ha⟩ := hs.address hi
  rw [ControlFlow.calculateDisplacement]
  rcases getTargetAddress_cases hs.wellFormed.toLinkage (hs.targetAddressed hl hi hv hlk) with ⟨x, hx⟩ | hx
  · rw [ok_bind hx]
    dsimp only
    split
    · exact .inl ⟨_, by rw [ok_bind ha]⟩
    · exact .inl ⟨x, rfl⟩
  · exact .inr (by rw [error_bind hx])

end

theorem needsPromotion_cases (v) (link) (disp) :
    needsPromotion v link disp = .error .assertion ∨ needsPromotion v link disp = .ok false ∨
      (needsPromotion v link disp = .ok true ∧ v.displacementSize = 1) := by
  unfold needsPromotion
  split
  · rename_i h1
    split
    · have he : ∀ b : Bool, (Except.ok b : Except Failure Bool) = .ok false ∨ (Except.ok b : Except Failure Bool) = .ok true :=
        fun b => by cases b <;> simp
      cases link with
      | immAndDisp => exact .inl rfl
      | normal _ s | absoluteNormal _ s | offset _ _ s => exact .inr ((he _).imp id fun h => ⟨h, h1⟩)
      | plt | externalSymbol | jumpTable | symbolOnly | loader | unresolved | unresolvedRelative =>
        exact .inr (.inr ⟨rfl, h1⟩)
    · exact .inr (.inr ⟨rfl, h1⟩)
  · exact .inr (.inl rfl)

/-- A visit fails, or finds nothing to do, or widens a short jump. -/
inductive Visited (h0 : Heap Semantic) (f : Ref) (a : Address) (changed : Bool) (s : Heap Semantic) (i : Ref) :
    Except Failure (Bool × Heap Semantic) → Prop
  | failed : Visited h0 f a changed s i (.error .assertion)
  | settled (hi : Settled s i) : Visited h0 f a changed s i (.ok (changed, s))
  | promoted {v : ControlFlow} {link : Link} {disp : Address} {s' : Heap Semantic} (hv : s.semantic i = .controlFlow v)
      (hlink : v.link = some link) (hd : v.calculateDisplacement s i link = .ok (disp, s))
      (hn : needsPromotion v link disp = .ok true) (hshort : v.displacementSize = 1) (hs : Laid h0 f a s')
      (hsem : s'.semantic = Function.update s.semantic i (.controlFlow (widen v))) :
      Visited h0 f a changed s i (.ok (true, s'))

theorem visitInstruction_visited (hs : Laid h0 f a s) (hln : LinksAddressed h0 f) (hi : i ∈ instructions s f)
    (changed) : Visited h0 f a changed s i (visitInstruction .offset (changed, s) i) := by
  unfold visitInstruction
  cases hm : s.semantic i with
  | controlFlow v =>
    show Visited h0 f a changed s i (match v.link with
      | none => .ok (changed, s)
      | some link => visitLinked .offset changed s i v link)
    cases hlk : v.link with
    | none =>
      refine .settled fun w link hw hl => ?_
      rw [hm] at hw
      cases hw
      rw [hlk] at hl
      cases hl
    | some link =>
      show Visited h0 f a changed s i (visitLinked .offset changed s i v link)
      unfold visitLinked
      rcases calculateDisplacement_cases hs hln hi hm hlk with ⟨disp, hd⟩ | hd
      · rw [ok_bind hd]
        dsimp only
        rcases needsPromotion_cases v link disp with hn | hn | ⟨hn, hsr⟩
        · rw [error_bind hn]
          exact .failed
        · rw [ok_bind hn]
          show Visited h0 f a changed s i (if fitsIn 32 disp then .ok (changed || false, s) else .error .assertion)
          split
          · rename_i hfit
            rw [Bool.or_false]
            refine .settled fun w link' hw hl => ?_
            rw [hm] at hw
            cases hw
            rw [hlk] at hl
            cases hl
            exact ⟨disp, hd, hn, hfit⟩
          · exact .failed
        · obtain ⟨s', hr, hs', hm'⟩ := promote_ok hs hi hm hsr
          rw [ok_bind hn]
          show Visited h0 f a changed s i (promote .offset s i v >>= fun h =>
            if fitsIn 32 disp then .ok (changed || true, h) else .error .assertion)
          rw [ok_bind hr]
          split
          · rw [Bool.or_true]
            exact .promoted hm hlk hd hn hsr hs' hm'
          · exact .failed
      · rw [error_bind hd]
        exact .failed
  | isolated | linked | dataLinkedControlFlow | ret | breakpoint | indirectJump | indirectCall =>
    exact .settled fun w link hw _ => by rw [hm] at hw; cases hw

/-! ## Sweeps -/

/-- A sweep over `l` fails, or changes nothing with every instruction settled, or widens something. -/
inductive Swept (h0 : Heap Semantic) (f : Ref) (a : Address) (l : List Ref) (changed : Bool) (s : Heap Semantic) :
    Except Failure (Bool × Heap Semantic) → Prop
  | failed : Swept h0 f a l changed s (.error .assertion)
  | settled (hl : ∀ i ∈ l, Settled s i) : Swept h0 f a l changed s (.ok (changed, s))
  | changed {s' : Heap Semantic} (hs : Laid h0 f a s') (hlt : shorts s' f < shorts s f) :
      Swept h0 f a l changed s (.ok (true, s'))

theorem sweep_swept (hln : LinksAddressed h0 f) : ∀ l changed {s}, (∀ i ∈ l, i ∈ instructions h0 f) → Laid h0 f a s →
      Swept h0 f a l changed s (l.foldlM (visitInstruction .offset) (changed, s))
  | [], changed, s, _, _ => .settled (by simp)
  | i :: l, changed, s, hl, hs => by
    rw [foldlM_cons]
    have hi := hs.sequence ▸ hl i (by simp)
    have ht : ∀ j ∈ l, j ∈ instructions h0 f := fun j hj => hl j (by simp [hj])
    generalize hr : visitInstruction .offset (changed, s) i = r
    have hv := visitInstruction_visited hs hln hi changed
    rw [hr] at hv
    cases hv with
    | failed => exact .failed
    | settled hst =>
      show Swept h0 f a (i :: l) changed s (l.foldlM (visitInstruction .offset) (changed, s))
      generalize hr' : l.foldlM (visitInstruction .offset) (changed, s) = r'
      have ih := sweep_swept hln l changed ht hs
      rw [hr'] at ih
      cases ih with
      | failed => exact .failed
      | settled ha => exact .settled (forall_mem_cons.2 ⟨hst, ha⟩)
      | changed hs' hlt => exact .changed hs' hlt
    | @promoted v link disp s' hm hlk hd hn hsr hs' hm' =>
      have hlt := shorts_lt hs hs' hi hm hsr hm'
      show Swept h0 f a (i :: l) changed s (l.foldlM (visitInstruction .offset) (true, s'))
      generalize hr' : l.foldlM (visitInstruction .offset) (true, s') = r'
      have ih := sweep_swept hln l true ht hs'
      rw [hr'] at ih
      cases ih with
      | failed => exact .failed
      | settled _ => exact .changed hs' hlt
      | changed hs'' hl' => exact .changed hs'' (hl'.trans hlt)

/-- With more sweeps allowed than there are short jumps, the pass fails or ends settled. -/
theorem sweeps_settled (hl : LinksAddressed h0 f) : ∀ n {s}, Laid h0 f a s → shorts s f < n →
    sweeps .offset n s f = .error .assertion ∨
      ∃ h', sweeps .offset n s f = .ok h' ∧ Laid h0 f a h' ∧ ∀ i ∈ instructions h' f, Settled h' i
  | 0, _, _, hn => absurd hn (Nat.not_lt_zero _)
  | n + 1, s, hs, hn => by
    rw [sweeps, sweep]
    generalize hr : (instructions s f).foldlM (visitInstruction .offset) (false, s) = r
    have hw := sweep_swept hl (instructions s f) false (fun i hi => hs.sequence ▸ hi) hs
    rw [hr] at hw
    cases hw with
    | failed => exact .inl rfl
    | settled ha => exact .inr ⟨s, rfl, hs, ha⟩
    | changed hs' hlt => exact sweeps_settled hl n hs' (by omega)

/-- Laid out from an absolute position, the targets of its jumps with addresses, its jumps with displacements of one or
    four bytes. -/
structure Ready (h : Heap Semantic) (f : Ref) (a : Address) : Prop where
  wellFormed : WellFormed h
  positioned : Positioned h
  rooted : Rooted h f
  kind : h.kind f = .function
  position : h.position f = some ⟨.absolute a, .plain⟩
  laidOut : FunctionLaidOut h f a
  links : LinksAddressed h f
  sizes : ∀ i ∈ instructions h f, ∀ v, h.semantic i = .controlFlow v → v.displacementSize = 1 ∨ v.displacementSize = 4

theorem Ready.laid (hr : Ready h f a) : Laid h f a h :=
  ⟨hr.wellFormed, hr.positioned, hr.rooted, hr.kind, hr.position, hr.laidOut, rfl, fun _ => .inl rfl, fun _ ht => ht⟩

theorem Ready.visit_settled (hr : Ready h f a) : visit .offset h f = .error .assertion ∨
    ∃ h', visit .offset h f = .ok h' ∧ Laid h f a h' ∧ ∀ i ∈ instructions h' f, Settled h' i :=
  sweeps_settled hr.links _ hr.laid (Nat.lt_succ_of_le countP_le_length)

/-! ## Jumps in range -/

/-- The displacement of the jump to `target` from `next`, the address after it, fits its field, and its bytes lead to
    the target. -/
structure Reaching (h : Heap Semantic) (i : Ref) (v : ControlFlow) (link : Link) (target next : Address) : Prop where
  resolves : link.getTargetAddress h = .ok (target, h)
  follows : ∃ x, h.getAddress i = .ok (x, h) ∧ next = x + BitVec.ofNat 64 v.getSize
  short : v.displacementSize = 1 → fitsIn 8 (target - next) = true ∧ link.isExternalJump = .ok false
  near : v.displacementSize ≠ 1 → fitsIn 32 (target - next) = true
  written : ∃ field, v.writeTo h i link = .ok (v.opcode ++ field) ∧ field.length = v.displacementSize ∧
    next + BitVec.ofInt 64 (signedField field) = target

/-- The jump is written with a displacement that leads to its target. -/
def InRange (h : Heap Semantic) (i : Ref) (v : ControlFlow) (link : Link) : Prop :=
  ∃ target next, Reaching h i v link target next

theorem ofInt_setWidth {n d} (hd : fitsIn n d = true) : BitVec.ofInt 64 (d.setWidth n).toInt = d := by
  rw [fitsIn, beq_iff_eq] at hd
  rw [hd, ofInt_toInt]

variable {disp x : Address}

theorem field_fits (hz : v.displacementSize = 1 ∨ v.displacementSize = 4)
    (hn : needsPromotion v link disp = .ok false) (hf : fitsIn 32 disp = true) :
    fitsIn (8 * v.displacementSize) disp = true ∧ (v.displacementSize = 1 → link.isExternalJump = .ok false) := by
  rcases hz with h1 | h4
  · rw [needsPromotion, if_pos h1] at hn
    split at hn
    · rename_i h8
      exact ⟨by rw [h1]; exact h8, fun _ => hn⟩
    · cases hn
  · exact ⟨by rw [h4]; exact hf, fun h1 => by rw [h1] at h4; cases h4⟩

theorem writeTo_eq (hd : v.calculateDisplacement h i link = .ok (disp, h)) :
    v.writeTo h i link = .ok (v.opcode ++ littleEndian v.displacementSize disp.toNat) := by
  rw [ControlFlow.writeTo, ok_bind hd]

theorem read_field (hf : fitsIn (8 * v.displacementSize) disp = true) :
    BitVec.ofInt 64 (signedField (littleEndian v.displacementSize disp.toNat)) = disp := by
  rw [signedField_littleEndian, ofInt_setWidth hf]

theorem calculateDisplacement_eq (ha : h.getAddress i = .ok (x, h))
    (ht : ∀ r, link.getTargetAddress h = .ok r → r.2 = h) (hd : v.calculateDisplacement h i link = .ok (disp, h)) :
    ∃ t, link.getTargetAddress h = .ok (t, h) ∧
      disp = if link.isRIPRelative then t - (x + BitVec.ofNat 64 v.getSize) else t := by
  obtain ⟨⟨t, h1⟩, h01, hd⟩ := bind_iff.1 hd
  obtain rfl : h1 = h := ht _ h01
  refine ⟨t, h01, ?_⟩
  dsimp only at hd
  split at hd
  · rename_i hrip
    rw [ok_bind ha] at hd
    cases hd
    rw [if_pos hrip]
  · rename_i hrip
    cases hd
    rw [if_neg hrip]

theorem getTargetAddress_heap (hl : Linkage h) (hlk : TargetAddressed h link) (r)
    (hr : link.getTargetAddress h = .ok r) : r.2 = h := by
  rcases getTargetAddress_cases hl hlk with ⟨x, hx⟩ | hx
  · rw [hx] at hr
    cases hr
    rfl
  · rw [hx] at hr
    cases hr

/-- A settled jump with a link relative to the instruction pointer is in range. -/
theorem Settled.inRange (hl : Linkage h) (hlk : TargetAddressed h link) (hst : Settled h i)
    (hv : h.semantic i = .controlFlow v) (hvl : v.link = some link)
    (hz : v.displacementSize = 1 ∨ v.displacementSize = 4) (ha : h.getAddress i = .ok (x, h))
    (hr : link.isRIPRelative = true) : InRange h i v link := by
  obtain ⟨disp, hd, hn, hft⟩ := hst v link hv hvl
  obtain ⟨t, ht, rfl⟩ := calculateDisplacement_eq ha (getTargetAddress_heap hl hlk) hd
  rw [if_pos hr] at hd hn hft
  obtain ⟨hf, he⟩ := field_fits hz hn hft
  refine ⟨t, x + BitVec.ofNat 64 v.getSize, ht, ⟨x, ha, rfl⟩, fun h1 => ⟨?_, he h1⟩, fun _ => hft,
    _, writeTo_eq hd, length_littleEndian _ _, ?_⟩
  · rw [h1] at hf
    exact hf
  · rw [read_field hf]
    ring

/-- A settled jump with another link is written with the target in place of a displacement. -/
theorem Settled.not_inRange (hl : Linkage h) (hlk : TargetAddressed h link) (hst : Settled h i)
    (hv : h.semantic i = .controlFlow v) (hvl : v.link = some link)
    (hz : v.displacementSize = 1 ∨ v.displacementSize = 4) (ha : h.getAddress i = .ok (x, h))
    (hp : link.isRIPRelative = false) (hnt : x + BitVec.ofNat 64 v.getSize ≠ 0) : ¬ InRange h i v link := by
  obtain ⟨disp, hd, hn, hft⟩ := hst v link hv hvl
  obtain ⟨t, ht, rfl⟩ := calculateDisplacement_eq ha (getTargetAddress_heap hl hlk) hd
  rw [if_neg (by rw [hp]; exact Bool.false_ne_true)] at hd hn hft
  obtain ⟨hf, -⟩ := field_fits hz hn hft
  rintro ⟨t', next, hr⟩
  obtain rfl : t = t' := by
    have := hr.resolves
    rw [ht] at this
    cases this
    rfl
  obtain ⟨x', hx', rfl⟩ := hr.follows
  rw [ha] at hx'
  cases hx'
  obtain ⟨field, hw, -, hrd⟩ := hr.written
  rw [writeTo_eq hd] at hw
  obtain rfl : littleEndian v.displacementSize t.toNat = field := by simpa using hw
  rw [read_field hf] at hrd
  exact hnt (by simpa using hrd)

/-! ## The room a function takes -/

theorem getWiderOpcode_length (id) : (getWiderOpcode id).length ≤ 2 := by
  cases id with
  | other n => exact Nat.zero_le _
  | _ => decide

theorem Laid.size_le (hs : Laid h0 f a s) (j) : (s.semantic j).getSize ≤ (h0.semantic j).getSize + 5 := by
  rcases hs.semantic j with ho | ⟨v, hv, hr, hw⟩
  · rw [ho]
    exact Nat.le_add_right _ _
  · rw [hv, hw]
    have := getWiderOpcode_length v.id
    simp only [Semantic.getSize, ControlFlow.getSize, widen, hr]
    omega

theorem extent_le {l} (hle : ∀ j ∈ l, s.getSize j ≤ h0.getSize j + 5) : extent s l ≤ extent h0 l + 5 * l.length := by
  induction l with
  | nil => exact Nat.zero_le _
  | cons j l ih =>
    have hj := hle j (by simp)
    have := ih fun k hk => hle k (by simp [hk])
    simp only [extent, map_cons, sum_cons, length_cons] at this ⊢
    omega

/-- With room for every instruction to grow, no instruction ends at address 0. -/
theorem Laid.next_ne_zero {l1 l2} (hr : Ready h f a) (hs : Laid h f a s)
    (hm : a.toNat + h.getSize f + 5 * (instructions h f).length < 2 ^ 64) (hl : instructions s f = l1 ++ i :: l2)
    (hv : s.semantic i = .controlFlow v) (hsi : v.displacementSize = 1 ∨ v.displacementSize = 4) :
    past s a l1 + BitVec.ofNat 64 v.getSize ≠ 0 := by
  have hls := hs.wellFormed.toLinkage
  have hz : ∀ j ∈ instructions s f, s.getSize j ≤ h.getSize j + 5 := fun j hj => by
    rw [getSize_instruction hls hs.kind hj, getSize_instruction hr.wellFormed.toLinkage hr.kind (hs.sequence ▸ hj)]
    exact hs.size_le j
  have ha := extent_le hz
  rw [hs.sequence, ← getSize_function hr.wellFormed hr.kind, ← hs.sequence, hl] at ha
  have hi : s.getSize i = v.getSize := by
    rw [getSize_instruction hls hs.kind (by rw [hl]; simp), hv]
    rfl
  have hsl : extent s (l1 ++ i :: l2) = extent s l1 + (v.getSize + extent s l2) := by
    rw [← hi]
    simp [extent]
  have hp : 0 < v.getSize := by
    rw [ControlFlow.getSize]
    omega
  have hn : (instructions h f).length = (l1 ++ i :: l2).length := by rw [← hs.sequence, hl]
  rw [hn] at hm
  rw [hsl] at ha
  intro hzr
  have : (past s a l1 + BitVec.ofNat 64 v.getSize).toNat = 0 := by rw [hzr]; rfl
  rw [past, toNat_add, toNat_add, toNat_ofNat, toNat_ofNat] at this
  simp only [Nat.add_mod_mod, Nat.mod_add_mod] at this
  rw [Nat.mod_eq_of_lt (by omega)] at this
  omega

/-! ## The result of the pass -/

/-- Every linked jump of `f` satisfies `P`. -/
def EveryJump (h : Heap Semantic) (f : Ref) (P : Ref → ControlFlow → Link → Prop) : Prop :=
  ∀ i ∈ instructions h f, ∀ v link, h.semantic i = .controlFlow v → v.link = some link → P i v link

theorem Laid.size_cases (hr : Ready h f a) (hs : Laid h f a s) (hi : i ∈ instructions s f)
    (hv : s.semantic i = .controlFlow v) : v.displacementSize = 1 ∨ v.displacementSize = 4 := by
  obtain ⟨w, hw, -, rfl | ⟨-, rfl⟩⟩ := hs.link_eq hv
  · exact hr.sizes i (hs.sequence ▸ hi) v hw
  · exact .inr rfl

theorem Laid.jump_iff (hs : Laid h f a s) (P : Link → Prop) :
    EveryJump s f (fun _ _ link => P link) ↔ EveryJump h f (fun _ _ link => P link) := by
  constructor
  · intro hP i hi v link hv hlk
    rcases hs.semantic i with ho | ⟨w, hw, -, hd⟩
    · exact hP i (hs.sequence.symm ▸ hi) v link (ho.trans hv) hlk
    · rw [hv] at hw
      cases hw
      exact hP i (hs.sequence.symm ▸ hi) (widen v) link hd hlk
  · intro hP i hi v link hv hlk
    obtain ⟨w, hw, hl, -⟩ := hs.link_eq hv
    exact hP i (hs.sequence ▸ hi) w link hw (hl.trans hlk)

theorem Ready.inRange_iff (hr : Ready h f a) (hm : a.toNat + h.getSize f + 5 * (instructions h f).length < 2 ^ 64)
    (hs : Laid h f a h') (ht : ∀ i ∈ instructions h' f, Settled h' i) :
    EveryJump h' f (InRange h') ↔ EveryJump h f fun _ _ link => link.isRIPRelative = true := by
  have hl := hs.wellFormed.toLinkage
  rw [← hs.jump_iff]
  constructor
  · intro hn i hi v link hv hlk
    obtain ⟨l1, l2, hsl, ha⟩ := hs.address hi
    have hz := hs.size_cases hr hi hv
    by_contra hp
    exact (ht i hi).not_inRange hl (hs.targetAddressed hr.links hi hv hlk) hv hlk hz ha
      (Bool.eq_false_iff.2 hp) (hs.next_ne_zero hr hm hsl hv hz) (hn i hi v link hv hlk)
  · intro hp i hi v link hv hlk
    obtain ⟨l1, l2, hsl, ha⟩ := hs.address hi
    exact (ht i hi).inRange hl (hs.targetAddressed hr.links hi hv hlk) hv hlk (hs.size_cases hr hi hv) ha
      (hp i hi v link hv hlk)

theorem Ready.visit_eq_ok (hr : Ready h f a) (hn : visit .offset h f = .ok h') :
    Laid h f a h' ∧ ∀ i ∈ instructions h' f, Settled h' i := by
  obtain hf | ⟨h1, hr1, hs, ht⟩ := hr.visit_settled
  · rw [hn] at hf
    cases hf
  · rw [hn] at hr1
    cases hr1
    exact ⟨hs, ht⟩

/-- The pass ends. Where it returns, all jumps are in range and written with their targets exactly
if all their links are relative to the instruction pointer. -/
theorem visit_in_range_iff (hr : Ready h f a) (hroom : a.toNat + h.getSize f + 5 * (instructions h f).length < 2 ^ 64) :
    (visit .offset h f = .error .assertion ∨ ∃ h', visit .offset h f = .ok h') ∧
      ∀ h', visit .offset h f = .ok h' →
        (EveryJump h' f (InRange h') ↔ EveryJump h f fun _ _ link => link.isRIPRelative = true) := by
  refine ⟨hr.visit_settled.imp id fun ⟨h', hrun, _⟩ => ⟨h', hrun⟩, fun h' hrun => ?_⟩
  obtain ⟨hs, hset⟩ := hr.visit_eq_ok hrun
  exact hr.inRange_iff hroom hs hset

open SplitBasicBlock (jumpHeap jumpHeap_wellFormed jumpHeap_positioned jumpHeap_rooted jumpHeap_laidOut shortJump)

theorem jumpHeap_jump {link'} (hi : i ∈ instructions (jumpHeap link) 0)
    (hv : (jumpHeap link).semantic i = .controlFlow v) (hlk : v.link = some link') :
    v = shortJump link ∧ link' = link := by
  have hi : i = 4 ∨ i = 5 := by simpa [instructions, jumpHeap] using hi
  rcases hi with rfl | rfl
  · cases hv
    cases hlk
    exact ⟨rfl, rfl⟩
  · cases hv

theorem jumpHeap_ready (scope) : Ready (jumpHeap (.normal (some 5) scope)) 0 0x1000 := by
  have hl := jumpHeap_laidOut (.normal (some 5) scope)
  refine ⟨jumpHeap_wellFormed _, jumpHeap_positioned _, jumpHeap_rooted _, rfl, rfl, hl, fun i hi v link hv hlk t ht => ?_,
    fun i hi v hv => ?_⟩
  · obtain ⟨-, rfl⟩ := jumpHeap_jump hi hv hlk
    cases ht
    exact ⟨_, (hl.block [] 1 [] rfl).instruction [4] 5 [] rfl⟩
  · have hi : i = 4 ∨ i = 5 := by simpa [instructions, jumpHeap] using hi
    rcases hi with rfl | rfl
    · cases hv
      exact .inl rfl
    · cases hv

theorem visit_in_range_iff_jump :
    ∃ h', visit .offset (jumpHeap (.normal (some 5) 7)) 0 = .ok h' ∧ EveryJump h' 0 (InRange h') := by
  obtain ⟨hend, hiff⟩ := visit_in_range_iff (jumpHeap_ready 7) (by decide)
  have hrt : (visit .offset (jumpHeap (.normal (some 5) 7)) 0).toOption.isSome = true := by decide
  rcases hend with hfl | ⟨h', hrun⟩
  · rw [hfl] at hrt
    cases hrt
  · refine ⟨h', hrun, (hiff h' hrun).2 fun i hi v link hv hlk => ?_⟩
    obtain ⟨-, rfl⟩ := jumpHeap_jump hi hv hlk
    rfl

/-- Where the bytes written for the jump 4 of function 0 lead. -/
def writtenTarget (h : Heap Semantic) (link : Link) : Option Address := do
  let v ← (h.semantic 4).controlFlow?
  let bytes ← (v.writeTo h 4 link).toOption
  let (x, _) ← (h.getAddress 4).toOption
  some (x + BitVec.ofNat 64 v.getSize + BitVec.ofInt 64 (signedField (bytes.drop v.opcode.length)))

/-- An unresolved link to `0x2000`: the pass returns and the jump is written with `0x2000` as its
displacement, so that it leads to `0x3005`. -/
theorem not_in_range_unresolved :
    Link.getTargetAddress (jumpHeap (.unresolved 0x2000)) (.unresolved 0x2000) =
        .ok (0x2000, jumpHeap (.unresolved 0x2000)) ∧
      (visit .offset (jumpHeap (.unresolved 0x2000)) 0).toOption.bind
        (writtenTarget · (.unresolved 0x2000)) = some 0x3005 :=
  ⟨rfl, by decide⟩

/-! ## Another run -/

theorem visitInstruction_of_settled (hi : Settled s i) (mode changed) :
    visitInstruction mode (changed, s) i = .ok (changed, s) := by
  unfold visitInstruction
  cases hm : s.semantic i with
  | controlFlow v =>
    cases hlk : v.link with
    | none => simp [Semantic.controlFlow?, hlk]
    | some link =>
      obtain ⟨disp, hd, hn, hf⟩ := hi v link hm hlk
      simp only [Semantic.controlFlow?, hlk]
      rw [visitLinked, ok_bind hd]
      dsimp only
      rw [ok_bind hn, hf, Bool.or_false]
      rfl
  | isolated | linked | dataLinkedControlFlow | ret | breakpoint | indirectJump | indirectCall => rfl

theorem sweep_of_settled (mode) : ∀ {l : List Ref}, (∀ i ∈ l, Settled s i) →
    l.foldlM (visitInstruction mode) (false, s) = .ok (false, s)
  | [], _ => rfl
  | i :: l, hl => by
    rw [foldlM_cons, ok_bind (visitInstruction_of_settled (hl i mem_cons_self) mode false)]
    exact sweep_of_settled mode fun j hj => hl j (mem_cons_of_mem i hj)

/-- The pass keeps the function laid out with its instructions, of which only short jumps change, and another run finds
    nothing to do. -/
theorem visit_visit (hr : Ready h f a) (hrn : visit .offset h f = .ok h') :
    Laid h f a h' ∧ visit .offset h' f = .ok h' := by
  obtain ⟨hs, ht⟩ := hr.visit_eq_ok hrn
  refine ⟨hs, ?_⟩
  rw [visit, sweeps, sweep, ok_bind (sweep_of_settled .offset ht)]
  rfl

theorem visit_visit_jump :
    ∃ h', visit .offset (jumpHeap (.normal (some 5) 7)) 0 = .ok h' ∧ visit .offset h' 0 = .ok h' := by
  have ht : (visit .offset (jumpHeap (.normal (some 5) 7)) 0).toOption.isSome = true := by decide
  cases hr : visit .offset (jumpHeap (.normal (some 5) 7)) 0 with
  | error e =>
    rw [hr] at ht
    cases ht
  | ok h' => exact ⟨h', rfl, (visit_visit (jumpHeap_ready 7) hr).2⟩

end PromoteJumps

end Egalito
