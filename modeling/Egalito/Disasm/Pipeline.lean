/-
The interval arithmetic of `linearDisassembly` after the first pass: how often an address of the section is in the
result, and when the run fails.

Each stage is described by its effect on the coverage of a point (`Lib.Cover`), and the stages are composed.
-/
import Egalito.Disasm.Segments

namespace Egalito

open Lib IntervalTree Range Multiset List

/-- The FDE and dynamic symbol ranges that pass the containment test of the section. -/
def Image.known (img : Image) : List Range :=
  (img.fdes ++ img.dynamicFunctions).filter (img.text.range.contains ·)

theorem knownFunctions_eq (fuel) (img) : knownFunctions fuel img =
    (make img.text.range).addAll fuel (img.fdes ++ img.dynamicFunctions) := by
  unfold knownFunctions addAll
  rw [foldlM_append]

theorem known_storable {img : Image} (h : ∀ r ∈ img.known, r.Proper) :
    ∀ r ∈ img.fdes ++ img.dynamicFunctions, r.Proper ∨ img.text.range.contains r = false := by
  intro r hr
  by_cases hc : img.text.range.contains r = true
  · exact .inl (h r (mem_filter.2 ⟨hr, hc⟩))
  · exact .inr (by simpa using hc)

theorem knownFunctions_spec {img} (h : ∀ r ∈ img.known, r.Proper) (n : Nat) :
    ∃ t, knownFunctions (n + 65) img = .ok t ∧ Represents img.text.range t img.known := by
  rw [knownFunctions_eq]
  obtain ⟨t, ht, hr⟩ := (make_represents img.text.proper.2).addAll n _ (known_storable h)
  exact ⟨t, ht, by rwa [add_zero] at hr⟩

theorem knownFunctions_error {img} (h : ∃ r ∈ img.known, ¬ r.Proper) (n) :
    ∃ e, knownFunctions (n + 65) img = .error e := by
  rw [knownFunctions_eq]
  obtain ⟨r, hr, hb⟩ := h
  obtain ⟨hm, hc⟩ := mem_filter.1 hr
  refine foldlM_error (I := fun t => ∃ m, Represents img.text.range t m) _ _
    ⟨0, make_represents img.text.proper.2⟩ ?_ ⟨r, hm, ?_⟩
  · rintro s - t ⟨m, hp⟩
    by_cases hs : s.Proper ∨ img.text.range.contains s = false
    · obtain ⟨t', ht', hr'⟩ := hp.add hs n
      exact .inl ⟨t', by rw [ok_bind ht']; rfl, _, hr'⟩
    · rw [not_or, Bool.not_eq_false] at hs
      exact .inr ⟨_, error_bind (hp.add_diverges hs.1 hs.2 _) _⟩
  · rintro t ⟨m, hp⟩
    exact ⟨_, error_bind (hp.add_diverges hb hc _) _⟩

/-! ## Shrinking the segments -/

variable {func : Range} {t : IntervalTree} {m : Multiset Range}

theorem endsInPadding_iff {bound} (hf : func.NonWrapping) (hb : bound.NonWrapping) (hle : bound.lo ≤ func.hi) :
    endsInPadding func bound = true ↔ func.hi ≤ bound.hi := by
  have he : func.getEnd = bound.getEnd ↔ func.hi = bound.hi := by
    rw [BitVec.toNat_eq, toNat_getEnd hf, toNat_getEnd hb]
  rw [endsInPadding, Bool.or_eq_true, beq_iff_eq, he, containsPoint_iff hb, toNat_getEnd hf]
  unfold Range.Covers
  omega

/-- What the shrinking step keeps of a segment, given the padding found for its end. -/
def keptPart (bound : Option Range) (func : Range) : Multiset Range :=
  match bound with
  | some b => if func.hi ≤ b.hi then {Range.between func.start b.start} else {func}
  | none => 0

theorem coverage_keptPart {bound} (h : ∀ b, bound = some b → func.hi ≤ b.hi → func.lo < b.lo)
    (hle : ∀ b, bound = some b → b.lo ≤ func.hi) (p) : coverage (keptPart bound func) p =
      if func.Covers p ∧ ∃ b, bound = some b ∧ (func.hi ≤ b.hi → p < b.lo) then 1 else 0 := by
  cases bound with
  | none => simp [keptPart, Range.coverage]
  | some b =>
    have hl' := hle b rfl
    simp only [keptPart, Option.some.injEq, exists_eq_left']
    by_cases hb : func.hi ≤ b.hi
    · have hlt : func.start.toNat < b.start.toNat := h b rfl hb
      have hl2 : b.start.toNat ≤ func.hi := hl'
      rw [if_pos hb, ← Multiset.cons_zero, Range.coverage, coverage_cons, coverage_zero, zero_add]
      simp only [covers_between (le_of_lt hlt), hb, true_implies]
      have hc : (func.start.toNat ≤ p ∧ p < b.start.toNat) ↔ (func.Covers p ∧ p < b.lo) := by
        unfold Range.Covers lo
        omega
      simp only [hc]
    · rw [if_neg hb, ← Multiset.cons_zero, Range.coverage, coverage_cons, coverage_zero, zero_add]
      simp only [hb, false_implies, and_true]

section Shrink

variable {sec : Range} {tp : IntervalTree} {mp : Multiset Range}

/-- A segment does not start inside the padding at its end. -/
def Shrinkable (tp : IntervalTree) (func : Range) : Prop :=
  ∀ b, tp.findLowerBoundOrOverlapping func.getEnd = some b → func.hi ≤ b.hi → func.lo < b.lo

section

variable (hP : Represents sec tp mp) (hd : ∀ p, Range.coverage mp p ≤ 1)
include hP hd

theorem bound_spec (hf : func.NonWrapping) :
    LowerBoundIn {r | r ∈ mp} func.hi (tp.findLowerBoundOrOverlapping func.getEnd) := by
  rw [← toNat_getEnd hf]
  exact hP.findLowerBoundOrOverlapping hd func.getEnd

theorem shrinkFunction_spec (h : Represents sec t m) (hf : func.Proper) (hin : func.Inside sec)
    (hs : Shrinkable tp func) (n) : ∃ t', shrinkFunction (n + 65) tp t func = .ok t' ∧
      Represents sec t' (keptPart (tp.findLowerBoundOrOverlapping func.getEnd) func + m) := by
  have hb := bound_spec hP hd hf.2
  unfold shrinkFunction
  cases ho : tp.findLowerBoundOrOverlapping func.getEnd with
  | none => exact ⟨t, rfl, by simpa [keptPart] using h⟩
  | some b =>
    rw [ho] at hb
    obtain ⟨hp, hn⟩ := hP.mem hb.mem
    have he := endsInPadding_iff hf.2 hp.2 hb.le
    dsimp only [keptPart]
    by_cases hle : func.hi ≤ b.hi
    · have hlt := hs b ho hle
      obtain ⟨t', ht', hr⟩ := h.add_between (a := func.start) (b := b.start) hlt hin.1
        (Nat.le_trans (Nat.le_of_lt hp.1) hn.2) n
      rw [if_pos (he.2 hle), if_pos hle, singleton_add]
      exact ⟨t', ht', hr⟩
    · obtain ⟨t', ht', hr⟩ := h.add (.inl hf) n
      rw [if_pos ((contains_iff h.nonWrapping hf.2).2 hin)] at hr
      rw [if_neg (fun e => hle (he.1 e)), if_neg hle, singleton_add, ok_bind ht']
      exact ⟨t', rfl, hr⟩

theorem shrinkFunction_error (h : Represents sec t m) (hf : func.Proper) (hs : ¬ Shrinkable tp func) (n : Nat) :
    ∃ e, shrinkFunction (n + 65) tp t func = .error e := by
  unfold Shrinkable at hs
  push Not at hs
  obtain ⟨b, ho, hle, hge⟩ := hs
  have hb := bound_spec hP hd hf.2
  rw [ho] at hb
  obtain ⟨hp, hn⟩ := hP.mem hb.mem
  unfold shrinkFunction
  rw [ho]
  dsimp only
  rw [if_pos ((endsInPadding_iff hf.2 hp.2 hb.le).2 hle), addEndpoints]
  by_cases heq : func.start = b.start
  · -- the empty range passes the containment test
    have he : ¬ (between b.start b.start).Proper := by
      rw [proper_iff_lt]
      simp [between, getEnd]
    have hc : sec.contains (between b.start b.start) = true := by
      have hw : (between b.start b.start).NonWrapping := by
        rw [Range.NonWrapping, between_hi le_rfl]; exact b.start.isLt
      rw [contains_iff h.nonWrapping hw, Range.Inside, between_hi le_rfl, between_lo]
      exact ⟨hn.1, le_trans (le_of_lt hp.1) hn.2⟩
    rw [heq, ok_bind (fromEndpoints_between le_rfl), error_bind (h.add_diverges he hc _)]
    exact ⟨_, rfl⟩
  · have hlt : ¬ func.start ≤ b.start := by
      rw [BitVec.le_def]
      have : func.start.toNat ≠ b.start.toNat := fun e => heq (BitVec.eq_of_toNat_eq e)
      unfold lo at hge
      omega
    have ha : fromEndpoints func.start b.start = .error .assertion := if_neg hlt
    rw [error_bind ha]
    exact ⟨_, rfl⟩

theorem shrinkAll_spec (hsc : sec.NonWrapping) {l : List Range} (hl : ∀ f ∈ l, f.Proper ∧ f.Inside sec)
    (hs : ∀ f ∈ l, Shrinkable tp f) (n : Nat) :
    ∃ t', l.foldlM (shrinkFunction (n + 65) tp) (make sec) = .ok t' ∧
      Represents sec t' ((l : Multiset Range).bind fun f => keptPart (tp.findLowerBoundOrOverlapping f.getEnd) f) := by
  refine foldlM_ok (I := fun done t => Represents sec t ((done : Multiset Range).bind fun f =>
    keptPart (tp.findLowerBoundOrOverlapping f.getEnd) f)) l [] _ (make_represents hsc) ?_
  rintro pre f post rfl t hr
  have hf : f ∈ pre ++ f :: post := by simp
  obtain ⟨t', ht', hr'⟩ := shrinkFunction_spec hP hd hr (hl f hf).1 (hl f hf).2 (hs f hf) n
  refine ⟨t', ht', ?_⟩
  have hc : ((([] ++ pre ++ [f] : List Range) : Multiset Range)) = f ::ₘ ((pre : List Range) : Multiset Range) := by
    rw [nil_append, ← coe_add, coe_singleton, add_comm, singleton_add]
  rw [hc, cons_bind]
  simpa using hr'

theorem shrinkAll_error (hc : sec.NonWrapping) {l : List Range} (hl : ∀ f ∈ l, f.Proper ∧ f.Inside sec)
    (hs : ∃ f ∈ l, ¬ Shrinkable tp f) (n : Nat) :
    ∃ e, l.foldlM (shrinkFunction (n + 65) tp) (make sec) = .error e := by
  obtain ⟨f, hf, hb⟩ := hs
  refine foldlM_error (I := fun t => ∃ m, Represents sec t m) l _ ⟨0, make_represents hc⟩ ?_ ⟨f, hf, ?_⟩
  · rintro g hg t ⟨m, hr⟩
    by_cases hgs : Shrinkable tp g
    · obtain ⟨t', ht', hr'⟩ := shrinkFunction_spec hP hd hr (hl g hg).1 (hl g hg).2 hgs n
      exact .inl ⟨t', ht', _, hr'⟩
    · exact .inr (shrinkFunction_error hP hd hr (hl g hg).1 hgs n)
  · rintro t ⟨m, hr⟩
    exact shrinkFunction_error hP hd hr (hl f hf).1 hb n

/-! ## Subtracting the known functions -/

/-- A known function is cut out together with the padding at its end. -/
theorem subtractKnown_spec (h : Represents sec t m) (hf : func.Proper) (n) :
    ∃ t' m', subtractKnown (n + 65) tp t func = .ok t' ∧ Represents sec t' m' ∧
      (∀ p, coverage m' p ≤ coverage m p) ∧ (∀ p, func.Covers p → coverage m' p = 0) ∧
      (∀ p, ¬ func.Covers p → (∀ r ∈ mp, ¬ r.Covers p) → coverage m' p = coverage m p) := by
  have hb := bound_spec hP hd hf.2
  have he := toNat_getEnd hf.2
  -- without padding at the end the window is the function itself
  have hn : ∃ t' m', t.subtract (n + 65) func = .ok t' ∧ Represents sec t' m' ∧
      (∀ p, coverage m' p ≤ coverage m p) ∧
      (∀ p, func.Covers p → coverage m' p = 0) ∧
      (∀ p, ¬ func.Covers p → (∀ r ∈ mp, ¬ r.Covers p) → coverage m' p = coverage m p) := by
    obtain ⟨t', m', ht', hr, h1, h2, h3⟩ := h.subtractWindow hf func.getEnd he.ge n
    exact ⟨t', m', ht', hr, h1, h2, fun p hp _ => h3 p (fun hw => hp ⟨hw.1, he ▸ hw.2⟩)⟩
  unfold subtractKnown
  cases ho : tp.findLowerBoundOrOverlapping func.getEnd with
  | none => exact hn
  | some b =>
    rw [ho] at hb
    have hbp := (hP.mem hb.mem).1
    have hends := endsInPadding_iff hf.2 hbp.2 hb.le
    dsimp only
    by_cases hle : func.hi ≤ b.hi
    · rw [if_pos (hends.2 hle)]
      have hbn := toNat_getEnd hbp.2
      obtain ⟨t', m', ht', hr, h1, h2, h3⟩ := h.subtractWindow hf b.getEnd (by omega) n
      refine ⟨t', m', ht', hr, h1, h2, fun p hp hpd => h3 p ?_⟩
      rintro ⟨hlo, hhi⟩
      refine hpd b hb.mem ⟨?_, by omega⟩
      have := hb.le
      unfold Range.Covers at hp
      omega
    · rw [if_neg (fun e => hle (hends.1 e))]
      exact hn

theorem subtractAllKnown_spec (h : Represents sec t m) {known : List Range} (hk : ∀ g ∈ known, g.Proper) (n : Nat) :
    ∃ t' m', known.foldlM (subtractKnown (n + 65) tp) t = .ok t' ∧ Represents sec t' m' ∧
      (∀ p, coverage m' p ≤ coverage m p) ∧ (∀ p, (∃ g ∈ known, g.Covers p) → coverage m' p = 0) ∧
      (∀ p, (∀ g ∈ known, ¬ g.Covers p) → (∀ r ∈ mp, ¬ r.Covers p) → coverage m' p = coverage m p) := by
  obtain ⟨t', ht', m', hr, h1, h2, h3⟩ := foldlM_ok (f := subtractKnown (n + 65) tp) (I := fun done t =>
    ∃ m', Represents sec t m' ∧ (∀ p, coverage m' p ≤ coverage m p) ∧
      (∀ p, (∃ g ∈ done, g.Covers p) → coverage m' p = 0) ∧
      (∀ p, (∀ g ∈ done, ¬ g.Covers p) → (∀ r ∈ mp, ¬ r.Covers p) → coverage m' p = coverage m p))
    known [] t ⟨m, h, fun _ => le_rfl, by simp, by simp⟩ (by
      rintro pre g post rfl t1 ⟨m1, hr1, h1, h2, h3⟩
      obtain ⟨t2, m2, ht2, hr2, k1, k2, k3⟩ := subtractKnown_spec hP hd hr1 (hk g (by simp)) n
      refine ⟨t2, ht2, m2, hr2, fun p => (k1 p).trans (h1 p), ?_, ?_⟩
      · rintro p ⟨g', hg', hp⟩
        rw [List.mem_append, List.mem_singleton] at hg'
        rcases hg' with hg' | rfl
        · exact Nat.eq_zero_of_le_zero ((k1 p).trans (h2 p ⟨g', hg', hp⟩).le)
        · exact k2 p hp
      · intro p hp hpd
        simp only [List.mem_append, List.mem_singleton] at hp
        rw [k3 p (hp g (.inr rfl)) hpd]
        exact h3 p (fun g' hg' => hp g' (.inl (mem_append.1 hg'))) hpd)
  exact ⟨t', m', ht', hr, h1, by simpa using h2, by simpa using h3⟩

end

end Shrink

theorem crtSplit_spec {sec} {c : Nat → Nat} {s : CrtMode × IntervalTree}
    (h : ∃ m, Represents sec s.2 m ∧ ∀ p, coverage m p = c p) (ins : Insn) (n : Nat) :
    ∃ s', crtSplit (n + 65) s ins = .ok s' ∧ ∃ m, Represents sec s'.2 m ∧ ∀ p, coverage m p = c p := by
  obtain ⟨m, hr, hc⟩ := h
  unfold crtSplit
  dsimp only
  by_cases hs : (crtStep s.1 ins.id).2 = true
  · obtain ⟨b, t', m', ht', hr', hv⟩ := hr.splitAt_coverage ins.address n
    rw [if_pos hs, ok_bind ht']
    exact ⟨_, rfl, m', hr', fun p => by rw [hv, hc]⟩
  · rw [if_neg hs]
    exact ⟨_, rfl, m, hr, hc⟩

theorem disassembleCrtBeginFunctions_spec {sec : Range} (h : Represents sec t m) (insns : List Insn) (n : Nat) :
    ∃ t' m', disassembleCrtBeginFunctions (n + 65) insns t = .ok t' ∧ Represents sec t' m' ∧
      ∀ p, coverage m' p = coverage m p := by
  obtain ⟨s, hs, m', hr, hc⟩ := foldlM_ok (f := crtSplit (n + 65))
    (I := fun _ s => ∃ m', Represents sec s.2 m' ∧ ∀ p, coverage m' p = coverage m p)
    insns [] (.none, t) ⟨m, h, fun _ => rfl⟩ (fun pre ins post _ s hI => crtSplit_spec hI ins n)
  exact ⟨s.2, m', by rw [disassembleCrtBeginFunctions, ok_bind hs]; rfl, hr, hc⟩

theorem splitCrtBegin_spec (img) {sec} (h : Represents sec t m) (n) :
    ∃ t' m', splitCrtBegin (n + 65) img t = .ok t' ∧ Represents sec t' m' ∧
      ∀ p, coverage m' p = coverage m p := by
  unfold splitCrtBegin
  cases t.findUpperBound img.entryPoint with
  | some crtbegin => exact disassembleCrtBeginFunctions_spec h (img.crtInsns crtbegin) n
  | none => exact ⟨t, m, rfl, h, fun _ => rfl⟩

/-! ## The whole pipeline -/

/-- Every known range inside the section is non-empty and does not wrap. -/
def Image.KnownProper (img : Image) : Prop := ∀ r ∈ img.known, r.Proper

/-- No segment starts inside the padding that its end touches. -/
def Image.CodeBeforePadding (img : Image) : Prop :=
  ∀ f b, Segment img.text.range img.cuts f → IsLowerBound {r | img.text.Padding r} f.hi b → f.hi ≤ b.hi → f.lo < b.lo

/-- The shrinking step keeps the address: some padding starts at or below the end of its segment, and does not contain
    it. -/
def Image.Kept (img : Image) (p : Nat) : Prop :=
  ∃ f b, Segment img.text.range img.cuts f ∧ f.Covers p ∧ IsLowerBound {r | img.text.Padding r} f.hi b ∧
    (f.hi ≤ b.hi → p < b.lo)

theorem findBound_iff {text tp mp} (hP : Represents text.range tp mp)
    (hp : Padded text mp) (hf : func.NonWrapping) (b) :
    tp.findLowerBoundOrOverlapping func.getEnd = some b ↔ IsLowerBound {r | text.Padding r} func.hi b := by
  have hbd := bound_spec hP hp.disjoint hf
  have hs : {r | r ∈ mp} = {r | text.Padding r} := Set.ext fun r => hp.recorded r
  rw [hs] at hbd
  constructor
  · intro ho
    rwa [ho] at hbd
  · intro hb
    cases ho : tp.findLowerBoundOrOverlapping func.getEnd with
    | none =>
      rw [ho] at hbd
      exact absurd (hbd b hb.mem) (not_lt.2 hb.le)
    | some b' =>
      rw [ho] at hbd
      have hm := (hp.recorded b).2 hb.mem
      have hm' := (hp.recorded b').2 hbd.mem
      have hlo := le_antisymm (hb.last b' hbd.mem hbd.le) (hbd.last b hb.mem hb.le)
      -- disjoint padding that starts at the same address is the same
      have heq := eq_of_coverage_le_one Range.Covers (hp.disjoint b.lo) hm' hm
        ⟨hlo.le, hlo ▸ (hP.mem hm').1.1⟩ ⟨le_rfl, (hP.mem hm).1.1⟩
      rw [heq]

section Segments

variable {img : Image} {ts tp : IntervalTree} {ms mp : Multiset Range}

theorem mem_segments (hS : Represents img.text.range ts ms) (ht : Tiles img.text.range img.cuts ms) (f) :
    f ∈ ts.getAllData ↔ Segment img.text.range img.cuts f := by
  rw [← ht.segments, ← mem_coe, hS.getAllData]

theorem shrinkable_iff (hS : Represents img.text.range ts ms) (ht : Tiles img.text.range img.cuts ms)
    (hP : Represents img.text.range tp mp) (hp : Padded img.text mp) :
    (∀ f ∈ ts.getAllData, Shrinkable tp f) ↔ img.CodeBeforePadding := by
  have hw : ∀ f, Segment img.text.range img.cuts f → f.NonWrapping :=
    fun f hf => (hS.mem ((ht.segments f).2 hf)).1.2
  constructor
  · intro h f b hf hb hle
    exact h f ((mem_segments hS ht f).2 hf) b ((findBound_iff hP hp (hw f hf) b).2 hb) hle
  · intro h f hf b ho hle
    have hs := (mem_segments hS ht f).1 hf
    exact h f b hs ((findBound_iff hP hp (hw f hs) b).1 ho) hle

/-- The shrunk segments cover exactly the kept addresses, each once. -/
theorem shrunk_coverage (hS : Represents img.text.range ts ms) (ht : Tiles img.text.range img.cuts ms)
    (hP : Represents img.text.range tp mp) (hpd : Padded img.text mp) (hcd : img.CodeBeforePadding) (p) :
    let shrunk := (ts.getAllData : Multiset Range).bind fun f => keptPart (tp.findLowerBoundOrOverlapping f.getEnd) f
    coverage shrunk p ≤ 1 ∧ (0 < coverage shrunk p ↔ img.Kept p) := by
  intro shrunk
  have hs : shrunk = ms.bind fun f => keptPart (tp.findLowerBoundOrOverlapping f.getEnd) f := by
    rw [← hS.getAllData]
  have hfd : ∀ f ∈ ms, ∀ b, tp.findLowerBoundOrOverlapping f.getEnd = some b ↔
      IsLowerBound {r | img.text.Padding r} f.hi b := fun f hf => findBound_iff hP hpd (hS.mem hf).1.2
  have hpt : ∀ f ∈ ms, coverage (keptPart (tp.findLowerBoundOrOverlapping f.getEnd) f) p =
      if f.Covers p ∧ ∃ b, tp.findLowerBoundOrOverlapping f.getEnd = some b ∧ (f.hi ≤ b.hi → p < b.lo) then 1 else 0 := by
    intro f hf
    refine coverage_keptPart ?_ (fun b hb => ((hfd f hf b).1 hb).le) p
    exact (shrinkable_iff hS ht hP hpd).2 hcd f ((mem_segments hS ht f).2 ((ht.segments f).1 hf))
  rw [hs]
  constructor
  · refine (coverage_bind_le Range.Covers fun f hf => ?_).trans ?_
    · refine (hpt f hf).le.trans ?_
      split_ifs with h1 h2 h2
      · exact le_rfl
      · exact absurd h1.1 h2
      · exact Nat.zero_le _
      · exact le_rfl
    · refine (ht.exact p).le.trans ?_
      split_ifs <;> omega
  · have hp : ∀ f ∈ ms, 0 < coverage (keptPart (tp.findLowerBoundOrOverlapping f.getEnd) f) p ↔
        f.Covers p ∧ ∃ b, IsLowerBound {r | img.text.Padding r} f.hi b ∧ (f.hi ≤ b.hi → p < b.lo) := by
      intro f hf
      rw [hpt f hf]
      split_ifs with hn
      · obtain ⟨hc, b, hb, hlt⟩ := hn
        exact ⟨fun _ => ⟨hc, b, (hfd f hf b).1 hb, hlt⟩, fun _ => Nat.one_pos⟩
      · refine ⟨fun h => absurd h (lt_irrefl 0), ?_⟩
        rintro ⟨hc, b, hb, hlt⟩
        exact absurd ⟨hc, b, (hfd f hf b).2 hb, hlt⟩ hn
    rw [Range.coverage, coverage_bind_pos]
    constructor
    · rintro ⟨f, hf, h⟩
      obtain ⟨hc, b, hb, hlt⟩ := (hp f hf).1 h
      exact ⟨f, b, (ht.segments f).1 hf, hc, hb, hlt⟩
    · rintro ⟨f, b, hg, hc, hb, hlt⟩
      have hf := (ht.segments f).2 hg
      exact ⟨f, hf, (hp f hf).2 ⟨hc, b, hb, hlt⟩⟩

end Segments

/-- The functions of the section, by how often they contain an address: `rest` is what remains
of the segments once padding and known functions are out. -/
theorem textIntervals_spec {img} (hw : img.KnownProper) (hc : img.CodeBeforePadding) (n : Nat) :
    ∃ l rest, textIntervals (n + 65) img = .ok l ∧
      (∀ p, coverage l p = coverage rest p + coverage img.known p) ∧
      (∀ p, coverage rest p ≤ 1) ∧ (∀ p, 0 < coverage rest p → img.Kept p) ∧
      (∀ p, (∃ g ∈ img.known, g.Covers p) → coverage rest p = 0) ∧
      (∀ p, img.Kept p → (∀ g ∈ img.known, ¬ g.Covers p) → (∀ r, img.text.Padding r → ¬ r.Covers p) →
        0 < coverage rest p) := by
  have hwp : img.text.range.NonWrapping := img.text.proper.2
  obtain ⟨tk, hk, hK⟩ := knownFunctions_spec hw n
  obtain ⟨ts, tp, ms, mp, hdc, hS, ht, hP, hpd⟩ := discover_spec img n
  have hsg : ∀ f ∈ ts.getAllData, f.Proper ∧ f.Inside img.text.range := fun f hf =>
    hS.mem ((ht.segments f).2 ((mem_segments hS ht f).1 hf))
  obtain ⟨t1, h1, hr1⟩ := shrinkAll_spec hP hpd.disjoint hwp hsg
    ((shrinkable_iff hS ht hP hpd).2 hc) n
  have hm : ∀ g, g ∈ tk.getAllData ↔ g ∈ img.known := fun g => by
    rw [← mem_coe, hK.getAllData, mem_coe]
  obtain ⟨t2, rest, h2, hr2, hle, hz, hsm⟩ := subtractAllKnown_spec hP hpd.disjoint hr1
    (fun g hg => hw g ((hm g).1 hg)) n
  obtain ⟨t3, h3, hr3⟩ : ∃ t3, t2.unionWith (n + 65) tk = .ok t3 ∧ Represents img.text.range t3 _ :=
    hr2.addAll n tk.getAllData (fun g hg => .inl (hw g ((hm g).1 hg)))
  -- every known range passes the containment test again
  have ha : tk.getAllData.filter (img.text.range.contains ·) = tk.getAllData := by
    rw [filter_eq_self]
    exact fun g hg => (mem_filter.1 ((hm g).1 hg)).2
  rw [ha, hK.getAllData] at hr3
  obtain ⟨t4, m4, h4, hr4, hc4⟩ := splitCrtBegin_spec img hr3 n
  refine ⟨t4.getAllData, rest, ?_, fun p => ?_, fun p => ?_, fun p hp => ?_, fun p hp => ?_, fun p hp hn hs => ?_⟩
  · rw [textIntervals, ok_bind hk, ok_bind hdc]
    dsimp only
    rw [ok_bind h1, ok_bind h2, ok_bind h3, ok_bind h4]
    rfl
  · rw [hr4.getAllData, hc4, Range.coverage, coverage_add, add_comm]
  · exact (hle p).trans (shrunk_coverage hS ht hP hpd hc p).1
  · exact (shrunk_coverage hS ht hP hpd hc p).2.1 (lt_of_lt_of_le hp (hle p))
  · obtain ⟨g, hg, hgp⟩ := hp
    exact hz p ⟨g, (hm g).2 hg, hgp⟩
  · rw [hsm p (fun g hg => hn g ((hm g).1 hg)) (fun r hr => hs r ((hpd.recorded r).1 hr))]
    exact (shrunk_coverage hS ht hP hpd hc p).2.2 hp

/-- The run fails when a known range cannot be stored or a segment starts inside its padding. -/
theorem textIntervals_error {img} (h : ¬ (img.KnownProper ∧ img.CodeBeforePadding)) (n : Nat) :
    ∃ e, textIntervals (n + 65) img = .error e := by
  by_cases hw : img.KnownProper
  · obtain ⟨tk, hk, -⟩ := knownFunctions_spec hw n
    obtain ⟨ts, tp, ms, mp, hdc, hS, ht, hP, hp⟩ := discover_spec img n
    have hs : ∀ f ∈ ts.getAllData, f.Proper ∧ f.Inside img.text.range := fun f hf =>
      hS.mem ((ht.segments f).2 ((mem_segments hS ht f).1 hf))
    have hb : ∃ f ∈ ts.getAllData, ¬ Shrinkable tp f := by
      by_contra hc
      push Not at hc
      exact h ⟨hw, (shrinkable_iff hS ht hP hp).1 hc⟩
    obtain ⟨e, he⟩ := shrinkAll_error hP hp.disjoint img.text.proper.2 hs hb n
    refine ⟨e, ?_⟩
    rw [textIntervals, ok_bind hk, ok_bind hdc]
    dsimp only
    rw [error_bind he]
  · unfold Image.KnownProper at hw
    push Not at hw
    obtain ⟨e, he⟩ := knownFunctions_error hw n
    exact ⟨e, by rw [textIntervals, error_bind he]⟩

end Egalito
