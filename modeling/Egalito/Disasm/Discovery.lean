/-
Two guarantees of symbol-less function discovery: every byte outside the recorded runs of nops is in some function, and
functions do not overlap.

`Disasm.Pipeline` counts how often an address is in the result. The two results turn the count into conditions on the
image, each of them necessary as well.
-/
import Egalito.Disasm.Pipeline

namespace Egalito

open Lib IntervalTree List Range

/-! ## No byte of code is lost -/

/-- With enough fuel discovery returns, and every byte of the section outside the maximal runs
of nops recorded in the padding tree is in one of the ranges. -/
def Lossless (img : Image) : Prop :=
  ∃ n, ∀ fuel, n ≤ fuel → ∃ splitRanges padding l,
    discover fuel img = .ok (splitRanges, padding) ∧ linearDisassembly fuel img = .ok l ∧
    ∀ p, img.text.range.Covers p → (∀ r ∈ padding.getAllData, NopRun img.text.insns r → ¬ r.Covers p) →
      ∃ r ∈ l, r.Covers p

/-- The byte is in a known function or in `.init` or `.fini`. -/
def Image.Accounted (img : Image) (p : Nat) : Prop :=
  (∃ g ∈ img.known, g.Covers p) ∨ ∃ r, (img.init = some r ∨ img.fini = some r) ∧ r.Covers p

/-- Segments that end below all padding lie in known functions. -/
def Image.UnpaddedAccounted (img : Image) : Prop :=
  ∀ f, Segment img.text.range img.cuts f → (∀ r, img.text.Padding r → f.hi < r.lo) →
    ∀ p, f.Covers p → img.Accounted p

/-- If decoding stops early inside a run of nops, as many bytes at the end of the section lie in
known functions. -/
def Image.UndecodedAccounted (img : Image) : Prop :=
  img.text.decodedEnd < img.text.range.hi → ∀ s, NopRun img.text.insns s → s.hi = img.text.decodedEnd →
    ∀ p, img.text.range.hi ≤ p + (s.hi - s.lo) → p < img.text.range.hi → img.Accounted p

variable {img : Image} {p : Nat}

theorem exists_segment (img : Image) (hp : img.text.range.Covers p) :
    ∃ f, Segment img.text.range img.cuts f ∧ f.Covers p ∧
      ((∃ b, IsLowerBound {r | img.text.Padding r} f.hi b) ∨ ∀ r, img.text.Padding r → f.hi < r.lo) := by
  obtain ⟨ts, tp, ms, mp, -, hS, ht, hP, hd⟩ := discover_spec img 0
  have he := ht.exact p
  rw [if_pos hp] at he
  obtain ⟨f, hf, hfp⟩ := (coverage_pos Range.Covers).1 (he ▸ Nat.one_pos)
  refine ⟨f, (ht.segments f).1 hf, hfp, ?_⟩
  have hw := (hS.mem hf).1.2
  cases ho : tp.findLowerBoundOrOverlapping f.getEnd with
  | some b => exact .inl ⟨b, (findBound_iff hP hd hw b).1 ho⟩
  | none =>
    have hb := bound_spec hP hd.disjoint hw
    rw [ho] at hb
    exact .inr fun r hr => hb r ((hd.recorded r).2 hr)

theorem nopByte_lt : ∀ {a : Nat} {insns : List Insn}, Decoded a insns → NopByte insns p → p < a + byteCount insns
  | _, [], _, h => by obtain ⟨i, hi, -⟩ := h; cases hi
  | a, ins :: insns, hd, h => by
    obtain ⟨i, hi, hid, hc⟩ := h
    rw [byteCount]
    rcases mem_cons.1 hi with rfl | hi
    · have := hc.2
      have := hd.1
      omega
    · have := nopByte_lt hd.2.2 ⟨i, hi, hid, hc⟩
      omega

theorem NopRun.hi_le_lo {insns r s} (hr : NopRun insns r) (hs : NopRun insns s) (hlt : r.hi < s.hi) : r.hi ≤ s.lo := by
  by_contra hc
  have hr1 := hr.proper.1
  have heq := hr.eq_of_covers hs (p := max r.lo s.lo) ⟨by omega, by omega⟩ ⟨by omega, by omega⟩
  rw [heq] at hlt
  exact lt_irrefl _ hlt

/-- The recorded padding that is not a run of nops is where decoding stopped early. -/
theorem padding_cases {text : TextSection} {r : Range} (h : text.Padding r) :
    NopRun text.insns r ∨ (text.decodedEnd < text.range.hi ∧ ∃ s, NopRun text.insns s ∧ s.hi = text.decodedEnd ∧
      r.hi = text.range.hi ∧ r.lo + (s.hi - s.lo) = r.hi) := by
  rcases h with ⟨hr, -⟩ | ⟨s, hs, he, hhi, hlo⟩
  · exact .inl hr
  · have hf : text.decodedEnd ≤ text.range.hi := text.fits
    by_cases hlt : text.decodedEnd < text.range.hi
    · exact .inr ⟨hlt, s, hs, he, hhi, hlo⟩
    · have hs1 := hs.proper.1
      have heq : r = s := ext_lo_hi (by omega) (by omega)
      exact .inl (heq ▸ hs)

/-- The bytes taken for padding instead, when decoding stopped early inside a run of nops, are in no recorded run and
    are not kept. -/
theorem undecoded_spec (hlt : img.text.decodedEnd < img.text.range.hi) {s} (hs : NopRun img.text.insns s)
    (he : s.hi = img.text.decodedEnd) (hp : img.text.range.hi ≤ p + (s.hi - s.lo)) (hp' : p < img.text.range.hi) :
    (∀ r, img.text.Padding r → NopRun img.text.insns r → ¬ r.Covers p) ∧ ¬ img.Kept p := by
  have hs1 := hs.proper.1
  have hw : img.text.range.hi < 2 ^ 64 := img.text.proper.2
  -- other runs end before the last one, hence before the moved padding
  have ho : ∀ r, NopRun img.text.insns r → r.hi < img.text.decodedEnd → r.hi ≤ s.lo :=
    fun r hr ht => hr.hi_le_lo hs (by omega)
  have hl : ∀ r, NopRun img.text.insns r → r.hi = img.text.decodedEnd → r = s := fun r hr hri =>
    hr.eq_of_covers hs (p := s.hi - 1) ⟨by have := hr.proper.1; omega, by omega⟩ ⟨by omega, by omega⟩
  refine ⟨fun r hr hn hc => ?_, ?_⟩
  · rcases hr with ⟨-, ht⟩ | ⟨s', hs', he', hhi, hlo⟩
    · have := ho r hn ht
      have := hc.2
      omega
    · have hbt := nopByte_lt img.text.decoded (hn.nops (r.hi - 1) ⟨by have := hn.proper.1; omega,
        by have := hn.proper.1; omega⟩)
      unfold TextSection.decodedEnd at hlt
      omega
  · rintro ⟨f, b, hg, hf, hb, hk⟩
    have hfi := (bounds_range hg.right).2
    obtain ⟨r0, hr0l, hr0h⟩ := exists_lo_hi (Nat.sub_le img.text.range.hi (s.hi - s.lo)) hw
    have hr0 : img.text.Padding r0 := .inr ⟨s, hs, he, hr0h, by
      have : s.hi - s.lo ≤ img.text.range.hi := by omega
      omega⟩
    have hle := hb.last r0 hr0 (by have := hf.2; omega)
    rcases hb.mem with ⟨hn, ht⟩ | ⟨s', hs', he', hbi, hbo⟩
    · have := ho b hn ht
      have := hn.proper.1
      omega
    · rw [hl s' hs' he'] at hbo
      have := hk (by omega)
      omega

theorem mem_linear {l} : (∃ r ∈ l ++ img.init.toList ++ img.fini.toList, r.Covers p) ↔
      0 < Range.coverage l p ∨ ∃ r, (img.init = some r ∨ img.fini = some r) ∧ r.Covers p := by
  simp only [Range.coverage, coverage_pos, mem_append, Option.mem_toList, Multiset.mem_coe]
  constructor
  · rintro ⟨r, (hr | hr) | hr, hp⟩
    · exact .inl ⟨r, hr, hp⟩
    · exact .inr ⟨r, .inl hr, hp⟩
    · exact .inr ⟨r, .inr hr, hp⟩
  · rintro (⟨r, hr, hp⟩ | ⟨r, hr | hr, hp⟩)
    · exact ⟨r, .inl (.inl hr), hp⟩
    · exact ⟨r, .inl (.inr hr), hp⟩
    · exact ⟨r, .inr hr, hp⟩

theorem Lossless.spec (h : Lossless img) : (img.KnownProper ∧ img.CodeBeforePadding) ∧
      ∀ p, img.text.range.Covers p → (∀ r, img.text.Padding r → NopRun img.text.insns r → ¬ r.Covers p) →
        img.Kept p ∨ img.Accounted p := by
  obtain ⟨n, hn⟩ := h
  obtain ⟨ts, tp, l, hd, hl, hv⟩ := hn (n + 65) (by omega)
  have hok : img.KnownProper ∧ img.CodeBeforePadding := by
    by_contra hc
    obtain ⟨e, he⟩ := textIntervals_error hc n
    rw [linearDisassembly, error_bind he] at hl
    cases hl
  refine ⟨hok, fun p hp hpad => ?_⟩
  obtain ⟨ts', tp', ms, mp, hd', -, -, hP, hpd⟩ := discover_spec img n
  rw [hd] at hd'
  cases hd'
  obtain ⟨l', rest, htt, hs, -, hk, -, -⟩ := textIntervals_spec hok.1 hok.2 n
  rw [linearDisassembly, ok_bind htt] at hl
  cases hl
  have hm : ∀ r ∈ tp.getAllData, img.text.Padding r := fun r hr => by
    rw [← Multiset.mem_coe, hP.getAllData] at hr
    exact (hpd.recorded r).1 hr
  rcases mem_linear.1 (hv p hp fun r hr => hpad r (hm r hr)) with hps | hi
  · rw [hs] at hps
    by_cases ht : 0 < coverage rest p
    · exact .inl (hk p ht)
    · exact .inr (.inl ((coverage_pos Range.Covers).1 (show 0 < coverage img.known p by omega)))
  · exact .inr (.inr hi)

theorem Lossless.unpadded (h : Lossless img) : img.UnpaddedAccounted := by
  intro f hs hl p hp
  have hc : img.text.range.Covers p :=
    ⟨(bounds_range hs.left).1.trans hp.1, lt_of_lt_of_le hp.2 (bounds_range hs.right).2⟩
  have ho : ∀ r, img.text.Padding r → ¬ r.Covers p := fun r hr hrp => by
    have := hl r hr
    have := hrp.1
    have := hp.2
    omega
  rcases h.spec.2 p hc (fun r hr _ => ho r hr) with ⟨f', b, hs', hp', hb, -⟩ | ha
  · -- the segment around the address is the one without padding
    have heq := hs.eq_of_mem hs' hp hp'
    have := hl b hb.mem
    have := hb.le
    omega
  · exact ha

theorem Lossless.undecoded (h : Lossless img) : img.UndecodedAccounted := by
  intro hlt s hs he p hp hp'
  obtain ⟨ho, hk⟩ := undecoded_spec hlt hs he hp hp'
  have hlo : img.text.range.lo ≤ s.lo := by
    obtain ⟨ins, hi, -, hv⟩ := hs.nops s.lo ⟨le_rfl, hs.proper.1⟩
    obtain ⟨pre, post, hl⟩ := append_of_mem hi
    have ha := (decoded_mid pre (hl ▸ img.text.decoded)).1
    by_contra hc
    have := (show ins.address.toNat ≤ s.lo from hv.1)
    omega
  have hs1 := hs.proper.1
  exact (h.spec.2 p ⟨by omega, hp'⟩ ho).resolve_left hk

/-- Discovery loses no byte exactly when the known ranges inside the section can be stored, no
segment starts inside the padding at its end, and the segments and undecoded bytes that it drops
lie in known functions. -/
theorem lossless_iff (img : Image) :
    Lossless img ↔ img.KnownProper ∧ img.CodeBeforePadding ∧ img.UnpaddedAccounted ∧ img.UndecodedAccounted := by
  refine ⟨fun h => ⟨h.spec.1.1, h.spec.1.2, h.unpadded, h.undecoded⟩, ?_⟩
  rintro ⟨hkw, hcd, hup, hud⟩
  refine ⟨65, fun fuel hfl => ?_⟩
  obtain ⟨n, rfl⟩ : ∃ n, fuel = n + 65 := ⟨fuel - 65, by omega⟩
  obtain ⟨ts, tp, ms, mp, hdc, -, -, hP, hpd⟩ := discover_spec img n
  obtain ⟨l, rest, htt, hsm, -, -, -, hkp⟩ := textIntervals_spec hkw hcd n
  refine ⟨ts, tp, _, hdc, by rw [linearDisassembly, ok_bind htt]; rfl, fun p hp hpad => ?_⟩
  rw [mem_linear]
  have han : img.Accounted p → 0 < coverage l p ∨
      ∃ r, (img.init = some r ∨ img.fini = some r) ∧ r.Covers p := by
    rintro (hg | hr)
    · have : 0 < coverage img.known p := (coverage_pos Range.Covers).2 hg
      exact .inl (by rw [hsm]; omega)
    · exact .inr hr
  by_cases hin : ∃ r, img.text.Padding r ∧ r.Covers p
  · -- padding that is not a run of nops are the undecoded bytes
    obtain ⟨r, hr, hrp⟩ := hin
    rcases padding_cases hr with hrun | ⟨hlt, s, hs, hend, hhi, hlo⟩
    · refine absurd hrp (hpad r ?_ hrun)
      rw [← Multiset.mem_coe, hP.getAllData]
      exact (hpd.recorded r).2 hr
    · have := hrp.1
      exact han (hud hlt s hs hend p (by omega) hp.2)
  · push Not at hin
    obtain ⟨f, hseg, hfp, ⟨b, hb⟩ | hnn⟩ := exists_segment img hp
    · have hkt : img.Kept p := ⟨f, b, hseg, hfp, hb, fun hle => by
        by_contra hge
        exact hin b hb.mem ⟨not_lt.1 hge, lt_of_lt_of_le hfp.2 hle⟩⟩
      by_cases hg : ∃ g ∈ img.known, g.Covers p
      · exact han (.inl hg)
      · push Not at hg
        have := hkp p hkt hg hin
        exact .inl (by rw [hsm]; omega)
    · exact han (hup f hseg hnn p hfp)

/-- Four bytes of code without a nop, no known function, and the entry point at the start. -/
def unpaddedImage : Image where
  text := {
    range := ⟨0x1000, 4⟩
    insns := [⟨0x1000, 3, .other, false, none⟩, ⟨0x1003, 1, .ret, false, none⟩]
    proper := by decide
    decoded := by simp [Decoded, Range.lo]
    fits := by decide }
  fdes := []
  symbols := []
  entryPoint := 0x1000
  initArray := []
  finiArray := []
  crtInsns := fun _ => []
  init := none
  fini := none

/-- With no run of nops at or below its end the only segment is dropped: no function is found
and every byte is lost. -/
theorem not_lossless_unpadded :
    linearDisassembly 65 unpaddedImage = .ok [] ∧ ¬ Lossless unpaddedImage := by
  refine ⟨by decide +kernel, fun h => ?_⟩
  have hnp : ∀ p, ¬ NopByte unpaddedImage.text.insns p := by
    rintro p ⟨i, hi, hid, -⟩
    simp only [unpaddedImage, mem_cons, not_mem_nil, or_false] at hi
    rcases hi with rfl | rfl <;> cases hid
  have hpd : ∀ r, ¬ unpaddedImage.text.Padding r := by
    rintro r (⟨hr, -⟩ | ⟨s, hs, -⟩)
    · exact hnp _ (hr.nops r.lo ⟨le_rfl, hr.proper.1⟩)
    · exact hnp _ (hs.nops s.lo ⟨le_rfl, hs.proper.1⟩)
  obtain ⟨f, hseg, hfp, -⟩ := exists_segment unpaddedImage (p := 0x1000) (by decide)
  rcases h.unpadded f hseg (fun r hr => absurd hr (hpd r)) _ hfp with ⟨g, hg, -⟩ | ⟨r, hr | hr, -⟩
  · simp [Image.known, unpaddedImage, Image.dynamicFunctions] at hg
  · simp [unpaddedImage] at hr
  · simp [unpaddedImage] at hr

/-! ## Functions do not overlap -/

def Range.Apart (r s : Range) : Prop := ∀ p, ¬ (r.Covers p ∧ s.Covers p)

/-- With enough fuel discovery returns pairwise disjoint ranges inside the section. -/
def DisjointFunctions (img : Image) : Prop :=
  ∃ n, ∀ fuel, n ≤ fuel → ∃ l, textIntervals fuel img = .ok l ∧ l.Pairwise Range.Apart

/-- A dynamic function symbol inside the section does not repeat an FDE. -/
def Image.NoAlias (img : Image) : Prop :=
  ∀ d ∈ img.dynamicFunctions, d ∈ img.fdes → img.text.range.contains d = false

theorem known_apart (hf : img.fdes.Pairwise Range.Apart)
    (hs : ∀ d ∈ img.dynamicFunctions, d ∈ img.fdes ∨ ∀ f ∈ img.fdes, d.Apart f)
    (hd : (img.dynamicFunctions.filter (· ∉ img.fdes)).Pairwise Range.Apart) (ho : img.NoAlias) :
    img.known.Pairwise Range.Apart := by
  have hn : ∀ d ∈ img.dynamicFunctions, img.text.range.contains d = true → d ∉ img.fdes := by
    intro d hm hc hmm
    rw [ho d hm hmm] at hc
    cases hc
  rw [Image.known, filter_append, pairwise_append]
  refine ⟨hf.sublist filter_sublist, ?_, ?_⟩
  · have hb : img.dynamicFunctions.filter (img.text.range.contains ·) =
        (img.dynamicFunctions.filter (· ∉ img.fdes)).filter (img.text.range.contains ·) := by
      rw [filter_filter]
      refine filter_congr fun d hm => ?_
      by_cases hc : img.text.range.contains d = true
      · simp [hc, hn d hm hc]
      · simp [hc]
    rw [hb]
    exact hd.sublist filter_sublist
  · intro f hfm d hm p ⟨hfp, hp⟩
    obtain ⟨hm, hc⟩ := mem_filter.1 hm
    rcases hs d hm with hmm | ha
    · exact hn d hm hc hmm
    · exact ha f (mem_filter.1 hfm).1 p ⟨hp, hfp⟩

/-- A function symbol that repeats an FDE inside the section puts its range into the result twice. -/
theorem DisjointFunctions.noAlias (h : DisjointFunctions img) :
    (img.KnownProper ∧ img.CodeBeforePadding) ∧ img.NoAlias := by
  obtain ⟨n, hn⟩ := h
  obtain ⟨l, hr, hd⟩ := hn (n + 65) (by omega)
  have hok : img.KnownProper ∧ img.CodeBeforePadding := by
    by_contra hc
    obtain ⟨e, he⟩ := textIntervals_error hc n
    rw [he] at hr
    cases hr
  refine ⟨hok, fun d hm hf => ?_⟩
  by_contra hc
  rw [Bool.not_eq_false] at hc
  obtain ⟨l', rest, htt, hs, -⟩ := textIntervals_spec hok.1 hok.2 n
  rw [hr] at htt
  cases htt
  have hv : d.Covers d.lo := ⟨le_rfl, (hok.1 d (mem_filter.2 ⟨mem_append_left _ hf, hc⟩)).1⟩
  have hle := (pairwise_disjoint_iff Range.Covers l).1 hd d.lo
  have ht := hs d.lo
  rw [Image.known, filter_append, ← Multiset.coe_add] at ht
  simp only [Range.coverage, coverage_add] at ht
  have hp : ∀ l : List Range, d ∈ l →
      0 < coverage Range.Covers (l.filter (img.text.range.contains ·) : Multiset Range) d.lo :=
    fun l hl => (coverage_pos Range.Covers).2 ⟨d, Multiset.mem_coe.2 (mem_filter.2 ⟨hl, hc⟩), hv⟩
  have := hp img.fdes hf
  have := hp img.dynamicFunctions hm
  omega

/-- For disjoint FDEs, and function symbols that each repeat an FDE or lie apart from all FDEs and
from each other, the functions found are disjoint exactly when the run succeeds and no function
symbol inside the section repeats an FDE. -/
theorem disjointFunctions_iff {img : Image} (hf : img.fdes.Pairwise Range.Apart)
    (hs : ∀ d ∈ img.dynamicFunctions, d ∈ img.fdes ∨ ∀ f ∈ img.fdes, d.Apart f)
    (hd : (img.dynamicFunctions.filter (· ∉ img.fdes)).Pairwise Range.Apart) :
    DisjointFunctions img ↔ img.KnownProper ∧ img.CodeBeforePadding ∧ img.NoAlias := by
  refine ⟨fun h => ⟨h.noAlias.1.1, h.noAlias.1.2, h.noAlias.2⟩, ?_⟩
  rintro ⟨hkw, hcd, hno⟩
  refine ⟨65, fun fuel hfl => ?_⟩
  obtain ⟨n, rfl⟩ : ∃ n, fuel = n + 65 := ⟨fuel - 65, by omega⟩
  obtain ⟨l, rest, htt, hsm, hone, -, hzr, -⟩ := textIntervals_spec hkw hcd n
  refine ⟨l, htt, (pairwise_disjoint_iff Range.Covers l).2 fun p => ?_⟩
  have hk := (pairwise_disjoint_iff Range.Covers img.known).1 (known_apart hf hs hd hno) p
  have hsm := hsm p
  have hone := hone p
  by_cases hg : ∃ g ∈ img.known, g.Covers p
  · have := hzr p hg
    simp only [Range.coverage] at *
    omega
  · have : ¬ 0 < coverage Range.Covers (img.known : Multiset Range) p := fun h =>
      hg ((coverage_pos Range.Covers).1 h)
    simp only [Range.coverage] at *
    omega

/-- One function of eight bytes, known from an FDE and from a dynamic symbol. -/
def aliasedImage : Image where
  text := {
    range := ⟨0x1000, 16⟩
    insns := []
    proper := by decide
    decoded := trivial
    fits := by decide }
  fdes := [⟨0x1000, 8⟩]
  symbols := [⟨.func, 0x1000, 8⟩]
  entryPoint := 0x1000
  initArray := []
  finiArray := []
  crtInsns := fun _ => []
  init := none
  fini := none

theorem disjointFunctions_iff_aliased :
    DisjointFunctions aliasedImage ↔ aliasedImage.KnownProper ∧ aliasedImage.CodeBeforePadding ∧ aliasedImage.NoAlias :=
  disjointFunctions_iff (by simp [aliasedImage])
    (by simp [aliasedImage, Image.dynamicFunctions, Symbol.functionRange])
    (by simp [aliasedImage, Image.dynamicFunctions, Symbol.functionRange])

/-- The function becomes two functions with the same range. -/
theorem not_disjointFunctions_aliased :
    textIntervals 65 aliasedImage = .ok [⟨0x1000, 8⟩, ⟨0x1000, 8⟩] ∧ ¬ DisjointFunctions aliasedImage := by
  refine ⟨by decide +kernel, fun h => ?_⟩
  have := h.noAlias.2 ⟨0x1000, 8⟩ (by simp [aliasedImage, Image.dynamicFunctions, Symbol.functionRange])
    (by simp [aliasedImage])
  revert this
  decide

end Egalito
