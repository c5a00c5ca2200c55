/-
What the first pass over a section computes: the split ranges are the segments between neighbouring cuts, which tile the
section, and the padding is the maximal runs of nops, up to a run that is open when decoding stops.

The scan is an induction over the instructions; cutting at a list of points does not depend on their order
(`splitAll_confluent`).
-/
import Egalito.Util.Queries
import Egalito.Disasm.Linear

namespace Egalito

open Lib IntervalTree Range Multiset

/-! ## Segments -/

/-- The ends of the section and the cuts inside it. -/
def bounds (sec : Range) (cuts : List Address) : Set Nat :=
  {x | x = sec.lo ∨ x = sec.hi ∨ (sec.Covers x ∧ ∃ c ∈ cuts, c.toNat = x)}

/-- A stretch between two neighbouring cuts. -/
def Segment (sec : Range) (cuts : List Address) (r : Range) : Prop := Consecutive (bounds sec cuts) r.lo r.hi

theorem bounds_snoc_of_covers {sec cuts c} (h : sec.Covers c.toNat) :
    bounds sec (cuts ++ [c]) = insert c.toNat (bounds sec cuts) := by
  ext x
  simp only [bounds, List.mem_append, List.mem_singleton, Set.mem_insert_iff, Set.mem_ofPred_eq]
  constructor
  · rintro (hx | hx | ⟨hx, d, hd | rfl, rfl⟩)
    · exact .inr (.inl hx)
    · exact .inr (.inr (.inl hx))
    · exact .inr (.inr (.inr ⟨hx, d, hd, rfl⟩))
    · exact .inl rfl
  · rintro (rfl | hx | hx | ⟨hx, d, hd, rfl⟩)
    · exact .inr (.inr ⟨h, c, .inr rfl, rfl⟩)
    · exact .inl hx
    · exact .inr (.inl hx)
    · exact .inr (.inr ⟨hx, d, .inl hd, rfl⟩)

theorem bounds_snoc_of_not_covers {sec cuts c} (h : ¬ sec.Covers c.toNat) :
    bounds sec (cuts ++ [c]) = bounds sec cuts := by
  ext x
  simp only [bounds, List.mem_append, List.mem_singleton, Set.mem_ofPred_eq]
  constructor
  · rintro (hx | hx | ⟨hx, d, hd | rfl, rfl⟩)
    · exact .inl hx
    · exact .inr (.inl hx)
    · exact .inr (.inr ⟨hx, d, hd, rfl⟩)
    · exact absurd hx h
  · rintro (hx | hx | ⟨hx, d, hd, rfl⟩)
    · exact .inl hx
    · exact .inr (.inl hx)
    · exact .inr (.inr ⟨hx, d, .inl hd, rfl⟩)

variable {nopBytes x : Nat} {done : List Insn} {r : Range} {ins : Insn} {t : IntervalTree}

theorem bounds_range {sec cuts} (hx : x ∈ bounds sec cuts) : sec.lo ≤ x ∧ x ≤ sec.hi := by
  have := sec.lo_le_hi
  rcases hx with rfl | rfl | ⟨h, -⟩
  · exact ⟨le_rfl, this⟩
  · exact ⟨this, le_rfl⟩
  · exact ⟨h.1, le_of_lt h.2⟩

/-- The tree holds exactly the segments, and they tile the section. -/
structure Tiles (sec : Range) (cuts : List Address) (m : Multiset Range) : Prop where
  segments : ∀ r, r ∈ m ↔ Segment sec cuts r
  exact : ∀ p, Range.coverage m p = if sec.Covers p then 1 else 0

theorem tiles_whole {sec} (h : sec.Proper) : Tiles sec [] {sec} := by
  refine ⟨fun r => ?_, fun p => ?_⟩
  · have hb : bounds sec [] = {sec.lo, sec.hi} := by
      ext x; simp [bounds]
    rw [mem_singleton, Segment, hb]
    constructor
    · rintro rfl
      refine ⟨by simp, by simp, h.1, ?_⟩
      rintro b (rfl | rfl) ⟨h1, h2⟩
      · omega
      · exact lt_irrefl _ h2
    · rintro ⟨hl, hr, hlt, -⟩
      have := h.1
      simp only [Set.mem_insert_iff, Set.mem_singleton_iff] at hl hr
      exact ext_lo_hi (by omega) (by omega)
  · rw [← Multiset.cons_zero, Range.coverage, coverage_cons, coverage_zero, zero_add]

theorem Tiles.splitAt {sec cuts m} (hp : Represents sec t m) (ht : Tiles sec cuts m) (c) (n) :
    ∃ b t' m', t.splitAt (n + 65) c = .ok (b, t') ∧ Represents sec t' m' ∧ Tiles sec (cuts ++ [c]) m' := by
  obtain ⟨b, t', m', hn, hr', hcs⟩ := hp.splitAt c n
  obtain ⟨b2, t2, m2, hr2, hp2, hv⟩ := hp.splitAt_coverage c n
  obtain rfl : t' = t2 := by
    rw [hn] at hr2; cases hr2; rfl
  obtain rfl : m' = m2 := by rw [← hr'.contents, ← hp2.contents]
  refine ⟨b, t', m', hn, hr', ?_, fun p => by rw [hv, ht.exact]⟩
  intro r
  rcases hcs with ⟨hm, hk⟩ | ⟨r0, hr0, hlo, hhi, rfl⟩
  · rw [hm, ht.segments, Segment, Segment]
    by_cases hc : sec.Covers c.toNat
    · -- the only segment around the cut starts there: it is a bound already
      have ho : card (m.filter (·.Covers c.toNat)) = 1 := by
        rw [← countP_eq_card_filter]
        exact (ht.exact c.toNat).trans (if_pos hc)
      obtain ⟨s, hs⟩ := card_eq_one.1 ho
      have hmm : s ∈ m.filter (·.Covers c.toNat) := by rw [hs]; simp
      have hg := (ht.segments s).1 (mem_filter.1 hmm).1
      rw [bounds_snoc_of_covers hc, Set.insert_eq_of_mem]
      rw [← hk hc s hs]
      exact hg.left
    · rw [bounds_snoc_of_not_covers hc]
  · have hpp := (hp.mem hr0).1
    have hs0 := (ht.segments r0).1 hr0
    have he := toNat_getEnd hpp.2
    have hc : sec.Covers c.toNat :=
      ⟨(bounds_range hs0.left).1.trans (le_of_lt hlo), lt_of_lt_of_le hhi (bounds_range hs0.right).2⟩
    have hl' := le_of_lt hlo
    have hh' : c.toNat ≤ r0.getEnd.toNat := by omega
    rw [Segment, bounds_snoc_of_covers hc, consecutive_insert hs0 hlo hhi, mem_cons, mem_cons]
    constructor
    · rintro (rfl | rfl | hr)
      · exact .inr (.inl ⟨rfl, by rw [between_hi hh', he]⟩)
      · exact .inl ⟨rfl, between_hi hl'⟩
      · have hg := (ht.segments r).1 (mem_of_mem_erase hr)
        refine .inr (.inr ⟨hg, fun heq => ?_⟩)
        -- a second copy of the segment would cover the cut twice
        have hb := hg.eq_of_mem hs0 ⟨le_rfl, hg.lt⟩ ⟨heq.ge, by rw [heq]; exact hs0.lt⟩
        have hrr := ext_lo_hi hb.1 hb.2
        have hps := (coverage_pos Range.Covers).2 ⟨r, hr, (show r.Covers c.toNat from hrr ▸ ⟨le_of_lt hlo, hhi⟩)⟩
        have hsm := coverage_erase Range.Covers hr0 c.toNat
        have ho := ht.exact c.toNat
        rw [if_pos hc] at ho
        rw [if_pos (show r0.Covers c.toNat from ⟨le_of_lt hlo, hhi⟩)] at hsm
        unfold Range.coverage at ho
        omega
    · rintro (⟨h1, h2⟩ | ⟨h1, h2⟩ | ⟨h1, h2⟩)
      · refine .inr (.inl (ext_lo_hi h1 ?_))
        rw [h2, between_hi hl']
      · refine .inl (ext_lo_hi h1 ?_)
        rw [h2, between_hi hh', he]
      · have hne : r ≠ r0 := fun e => h2 (by rw [e])
        exact .inr (.inr ((mem_erase_of_ne hne).2 ((ht.segments r).2 h1)))

theorem Tiles.splitAll {sec} (n) : ∀ points {cuts} {t} {m}, Represents sec t m → Tiles sec cuts m →
      ∃ t' m', splitAll (n + 65) t points = .ok t' ∧ Represents sec t' m' ∧ Tiles sec (cuts ++ points) m'
  | [], cuts, t, m, hr, ht => ⟨t, m, rfl, hr, by simpa using ht⟩
  | c :: points, cuts, t, m, hr, ht => by
    obtain ⟨b, t1, m1, h1, hr1, ht1⟩ := ht.splitAt hr c n
    obtain ⟨t2, m2, h2, hr2, ht2⟩ := Tiles.splitAll n points hr1 ht1
    refine ⟨t2, m2, ?_, hr2, by simpa using ht2⟩
    unfold Egalito.splitAll at *
    rw [List.foldlM_cons, h1]
    exact h2

section

variable {sec : Range} {cuts cuts' : List Address} {m m' : Multiset Range}

theorem Tiles.nodup (h : Tiles sec cuts m) : m.Nodup := by
  rw [Multiset.nodup_iff_ne_cons_cons]
  rintro r m' rfl
  have hlt := ((h.segments r).1 (mem_cons_self ..)).lt
  have hc := h.exact r.lo
  rw [Range.coverage, coverage_cons, coverage_cons, if_pos ⟨le_refl _, hlt⟩] at hc
  split_ifs at hc
  omega

theorem Tiles.eq (h : Tiles sec cuts m) (h' : Tiles sec cuts' m') (hc : ∀ c, c ∈ cuts ↔ c ∈ cuts') : m = m' := by
  rw [Multiset.Nodup.ext h.nodup h'.nodup]
  intro r
  rw [h.segments, h'.segments, Segment, Segment, bounds, bounds]
  simp only [hc]

theorem Tiles.starts (h : Tiles sec cuts m) (hsc : sec.lo < sec.hi) (x) :
    (∃ r ∈ m, r.lo = x) ↔ x = sec.lo ∨ sec.Covers x ∧ ∃ c ∈ cuts, c.toNat = x := by
  constructor
  · rintro ⟨r, hr, rfl⟩
    have hs := (h.segments r).1 hr
    rcases hs.left with hlo | hhi | hc
    · exact .inl hlo
    · have := (bounds_range hs.right).2
      have := hs.lt
      omega
    · exact .inr hc
  · intro hx
    have hv : sec.Covers x := by
      rcases hx with rfl | hx
      · exact ⟨le_refl _, hsc⟩
      · exact hx.1
    have hp : 0 < coverage m x := by
      rw [h.exact, if_pos hv]
      exact Nat.one_pos
    obtain ⟨r, hr, hrx⟩ := (coverage_pos Range.Covers).1 hp
    -- the range around a bound starts there
    have hn := ((h.segments r).1 hr).none x (hx.imp_right .inr)
    exact ⟨r, hr, by unfold Range.Covers at hrx; omega⟩

end

/-- Splitting the whole range, in any order of the points, gives the partition with these starts. -/
theorem splitAll_confluent {sec : Range} {t : IntervalTree} (hsec : sec.NonEmpty) (h : Represents sec t {sec})
    (points : List Address) (n : Nat) :
    ∃ t', splitAll (n + 65) t points = .ok t' ∧ Represents sec t' t'.getAllData ∧
      (∀ p, Range.coverage t'.getAllData p = if sec.Covers p then 1 else 0) ∧
      (∀ x, (∃ r ∈ t'.getAllData, r.lo = x) ↔ x = sec.lo ∨ sec.Covers x ∧ ∃ c ∈ points, c.toNat = x) ∧
      ∀ points' t'', (∀ c, c ∈ points ↔ c ∈ points') → splitAll (n + 65) t points' = .ok t'' →
        (t''.getAllData : Multiset Range) = t'.getAllData := by
  have hpp := (proper_iff sec).mpr ⟨hsec, h.nonWrapping⟩
  obtain ⟨t', m', ht', hrp, htl⟩ := Tiles.splitAll n points h (tiles_whole hpp)
  obtain rfl := hrp.getAllData
  refine ⟨t', ht', hrp, htl.exact, htl.starts hpp.1, ?_⟩
  intro points' t'' hsm ht''
  obtain ⟨t₂, m₂, ht₂, hrp₂, htl₂⟩ := Tiles.splitAll n points' h (tiles_whole hpp)
  obtain rfl := Except.ok.inj (ht''.symm.trans ht₂)
  rw [hrp₂.getAllData]
  exact htl₂.eq htl fun c => (hsm c).symm

theorem splitAll_confluent_two : ∃ t t' : IntervalTree, splitAll 65 t [3, 7, 3, 20] = .ok t' ∧
    ∀ x, (∃ r ∈ t'.getAllData, r.lo = x) ↔
      x = 0 ∨ (Range.mk 0 10).Covers x ∧ ∃ c ∈ [(3 : Address), 7, 3, 20], c.toNat = x := by
  have hnew : Represents ⟨0, 10⟩ (make ⟨0, 10⟩) 0 := make_represents (by decide)
  obtain ⟨t, -, ht⟩ := hnew.add (r := ⟨0, 10⟩) (.inl (by decide)) 0
  obtain ⟨t', ht', -, -, hsr, -⟩ := splitAll_confluent (by decide) ht [3, 7, 3, 20] 0
  exact ⟨t, t', ht', hsr⟩

/-! ## Runs of nops -/

def Insn.Covers (ins : Insn) (p : Nat) : Prop := ins.address.toNat ≤ p ∧ p < ins.address.toNat + ins.size

def NopByte (insns : List Insn) (p : Nat) : Prop := ∃ ins ∈ insns, ins.id = .nop ∧ ins.Covers p

/-- A maximal run of nops. -/
structure NopRun (insns : List Insn) (r : Range) : Prop where
  proper : r.Proper
  nops : ∀ p, r.Covers p → NopByte insns p
  left : ∀ p, p + 1 = r.lo → ¬ NopByte insns p
  right : ¬ NopByte insns r.hi

def TextSection.decodedEnd (text : TextSection) : Nat := text.range.lo + byteCount text.insns

/-- The ranges recorded as padding: the runs of nops that an instruction follows, and the last run, moved to the end of
    the section. -/
def TextSection.Padding (text : TextSection) (r : Range) : Prop :=
  (NopRun text.insns r ∧ r.hi < text.decodedEnd) ∨
    ∃ s, NopRun text.insns s ∧ s.hi = text.decodedEnd ∧ r.hi = text.range.hi ∧ r.lo + (s.hi - s.lo) = r.hi

theorem nopByte_snoc {insns p} : NopByte (insns ++ [ins]) p ↔ NopByte insns p ∨ (ins.id = .nop ∧ ins.Covers p) := by
  unfold NopByte
  simp only [List.mem_append, List.mem_singleton]
  constructor
  · rintro ⟨i, hi | rfl, h⟩
    · exact .inl ⟨i, hi, h⟩
    · exact .inr h
  · rintro (⟨i, hi, h⟩ | h)
    · exact ⟨i, .inl hi, h⟩
    · exact ⟨ins, .inr rfl, h⟩

theorem NopRun.eq_of_covers {insns s} (hr : NopRun insns r) (hs : NopRun insns s) {p}
    (hp : r.Covers p) (hsp : s.Covers p) : r = s := by
  obtain ⟨hr1, hr2⟩ := hp
  obtain ⟨hs1, hs2⟩ := hsp
  refine ext_lo_hi ?_ ?_
  · by_contra hne
    rcases Nat.lt_or_gt_of_ne hne with hlt | hlt
    · exact hs.left (s.lo - 1) (by omega) (hr.nops _ ⟨by omega, by omega⟩)
    · exact hr.left (r.lo - 1) (by omega) (hs.nops _ ⟨by omega, by omega⟩)
  · by_contra hne
    rcases Nat.lt_or_gt_of_ne hne with hlt | hlt
    · exact hr.right (hs.nops _ ⟨by omega, hlt⟩)
    · exact hs.right (hr.nops _ ⟨by omega, hlt⟩)

/-- The scan for nops after `done`, which ends at `x`: the last `nopBytes` bytes are an open run, and the closed runs
    are recorded. -/
structure Scanned (done : List Insn) (x nopBytes : Nat) (m : Multiset Range) : Prop where
  le : nopBytes ≤ x
  below : ∀ p, NopByte done p → p < x
  pending : ∀ p, x - nopBytes ≤ p → p < x → NopByte done p
  closed : ∀ p, p + 1 = x - nopBytes → ¬ NopByte done p
  recorded : ∀ r, r ∈ m ↔ NopRun done r ∧ r.hi < x
  disjoint : ∀ p, Range.coverage m p ≤ 1

theorem Scanned.hi_le {m} (h : Scanned done x nopBytes m) (hr : r ∈ m) :
    r.hi < x - nopBytes ∨ (nopBytes = 0 ∧ r.hi < x) := by
  obtain ⟨hrn, hlt⟩ := (h.recorded r).1 hr
  by_cases hn : nopBytes = 0
  · exact .inr ⟨hn, hlt⟩
  · refine .inl (Nat.lt_of_not_le fun hle => ?_)
    exact hrn.right (h.pending r.hi hle hlt)

theorem scanned_nil (x) : Scanned [] x 0 0 := by
  refine ⟨Nat.zero_le _, ?_, ?_, ?_, fun r => ?_, fun p => by simp [Range.coverage]⟩
  · rintro p ⟨i, hi, -⟩; cases hi
  · intro p h1 h2; omega
  · rintro p - ⟨i, hi, -⟩; cases hi
  · refine ⟨fun h => absurd h (notMem_zero r), fun h => ?_⟩
    obtain ⟨i, hi, -⟩ := h.1.nops r.lo ⟨le_rfl, h.1.proper.1⟩
    cases hi

section

variable {m : Multiset Range} (h : Scanned done x nopBytes m)
include h

theorem Scanned.nop (hd : ins.id = .nop) (ha : ins.address.toNat = x) :
    Scanned (done ++ [ins]) (x + ins.size) (nopBytes + ins.size) m := by
  have ht : ∀ p, NopByte (done ++ [ins]) p ↔ NopByte done p ∨ (x ≤ p ∧ p < x + ins.size) := by
    intro p
    rw [nopByte_snoc, Insn.Covers, ha]
    simp [hd]
  have hle := h.le
  refine ⟨by omega, ?_, ?_, ?_, fun r => ?_, h.disjoint⟩
  · intro p hp
    rcases (ht p).1 hp with hp | hp
    · have := h.below p hp; omega
    · exact hp.2
  · intro p h1 h2
    rw [ht]
    by_cases hp : p < x
    · exact .inl (h.pending p (by omega) hp)
    · exact .inr ⟨by omega, h2⟩
  · intro p hp
    rw [ht, not_or]
    exact ⟨h.closed p (by omega), by omega⟩
  · rw [h.recorded]
    constructor
    · rintro ⟨hr, hlt⟩
      refine ⟨⟨hr.proper, fun p hp => (ht p).2 (.inl (hr.nops p hp)), fun p hp => ?_, ?_⟩, by omega⟩
      · rw [ht, not_or]
        have := hr.proper.1
        exact ⟨hr.left p hp, by omega⟩
      · rw [ht, not_or]
        exact ⟨hr.right, by omega⟩
    · rintro ⟨hr, hlt⟩
      have hg := hr.right
      rw [ht, not_or] at hg
      have hx : r.hi < x := by omega
      refine ⟨⟨hr.proper, fun p hp => ?_, fun p hp hb => hr.left p hp ((ht p).2 (.inl hb)), hg.1⟩, hx⟩
      rcases (ht p).1 (hr.nops p hp) with hb | hb
      · exact hb
      · have := hp.2; omega

theorem Scanned.run_end (hr : NopRun done r) : r.hi < x ∨ (0 < nopBytes ∧ r.lo = x - nopBytes ∧ r.hi = x) := by
  have hlt := hr.proper.1
  have hle := h.le
  have hs := h.below _ (hr.nops (r.hi - 1) ⟨by omega, by omega⟩)
  by_cases hx : r.hi < x
  · exact .inl hx
  · have hhi : r.hi = x := by omega
    have hp : 0 < nopBytes := pos_of_ne_zero fun h0 =>
      h.closed (x - 1) (by omega) (hr.nops _ ⟨by omega, by omega⟩)
    refine .inr ⟨hp, ?_, hhi⟩
    by_contra hne
    rcases Nat.lt_or_gt_of_ne hne with hl | hl
    · exact h.closed (x - nopBytes - 1) (by omega) (hr.nops _ ⟨by omega, by omega⟩)
    · exact hr.left (r.lo - 1) (by omega) (h.pending _ (by omega) (by omega))

theorem Scanned.openRun (hs : 0 < nopBytes) (hlo : r.lo = x - nopBytes) (hhi : r.hi = x) (hx : x < 2 ^ 64) :
    NopRun done r := by
  have hle := h.le
  refine ⟨⟨by omega, by omega⟩, fun p hp => h.pending p (hlo ▸ hp.1) (hhi ▸ hp.2), fun p hp => ?_, fun hb => ?_⟩
  · exact h.closed p (by omega)
  · have := h.below _ hb; omega

theorem Scanned.disjoint_cons (hps : 0 < nopBytes) (hlo : x - nopBytes ≤ r.lo) (p) :
    Range.coverage (r ::ₘ m) p ≤ 1 := by
  have hm := h.disjoint p
  rw [Range.coverage, coverage_cons]
  split_ifs with hp
  · have hn : ¬ 0 < coverage Range.Covers m p := by
      rw [coverage_pos]
      rintro ⟨s, hs, hsp⟩
      have := hp.1
      have := hsp.2
      rcases h.hi_le hs with hlt | ⟨h0, -⟩ <;> omega
    omega
  · exact hm

theorem Scanned.other (hd : ins.id ≠ .nop) (hz : 0 < ins.size) {m'}
    (hm : (nopBytes = 0 ∧ m' = m) ∨ (0 < nopBytes ∧ x < 2 ^ 64 ∧ ∃ r, r.lo = x - nopBytes ∧ r.hi = x ∧ m' = r ::ₘ m)) :
    Scanned (done ++ [ins]) (x + ins.size) 0 m' := by
  have ht : ∀ p, NopByte (done ++ [ins]) p ↔ NopByte done p := by
    intro p
    rw [nopByte_snoc]
    simp [hd]
  have hs : ∀ r, NopRun (done ++ [ins]) r ↔ NopRun done r := fun r =>
    ⟨fun hr => ⟨hr.proper, fun p hp => (ht p).1 (hr.nops p hp), fun p hp => fun hb => hr.left p hp ((ht p).2 hb),
      fun hb => hr.right ((ht _).2 hb)⟩,
    fun hr => ⟨hr.proper, fun p hp => (ht p).2 (hr.nops p hp), fun p hp => fun hb => hr.left p hp ((ht p).1 hb),
      fun hb => hr.right ((ht _).1 hb)⟩⟩
  refine ⟨Nat.zero_le _, fun p hp => ?_, fun p h1 h2 => by omega, fun p hp hb => ?_, fun r => ?_, ?_⟩
  · have := h.below p ((ht p).1 hp); omega
  · have := h.below p ((ht p).1 hb); omega
  · rw [hs]
    rcases hm with ⟨h0, rfl⟩ | ⟨hps, hx, s, hlo, hhi, rfl⟩
    · rw [h.recorded]
      refine and_congr_right fun hr => ?_
      rcases h.run_end hr with hlt | ⟨hps, -⟩ <;> omega
    · rw [mem_cons, h.recorded]
      constructor
      · rintro (rfl | ⟨hr, hlt⟩)
        · exact ⟨h.openRun hps hlo hhi hx, by omega⟩
        · exact ⟨hr, by omega⟩
      · rintro ⟨hr, -⟩
        rcases h.run_end hr with hlt | ⟨-, ho, hri⟩
        · exact .inr ⟨hr, hlt⟩
        · exact .inl (ext_lo_hi (ho.trans hlo.symm) (hri.trans hhi.symm))
  · rcases hm with ⟨-, rfl⟩ | ⟨hps, -, s, hlo, -, rfl⟩
    · exact h.disjoint
    · exact h.disjoint_cons hps hlo.ge

end

/-! ## The pass -/

theorem byteCount_append (l1 l2) : byteCount (l1 ++ l2) = byteCount l1 + byteCount l2 := by
  induction l1 with
  | nil => simp [byteCount]
  | cons ins l1 ih => simp [byteCount, ih, add_assoc]

theorem decoded_mid : ∀ {a} pre {ins} {post}, Decoded a (pre ++ ins :: post) →
    ins.address.toNat = a + byteCount pre ∧ 0 < ins.size
  | _, [], _, _, h => ⟨h.1, h.2.1⟩
  | a, i :: pre, ins, post, h => by
    have := decoded_mid pre h.2.2
    rw [byteCount]
    exact ⟨by omega, this.2⟩

def callTargets (insns : List Insn) : List Address := insns.filterMap shouldSplitFunctionDueTo

theorem addPadding_spec {sec m} (h : Represents sec t m) (stop)
    (hps : 0 < nopBytes) (hlo : sec.lo + nopBytes ≤ stop.toNat) (hhi : stop.toNat ≤ sec.hi) (n) :
    ∃ t' r, addPadding (n + 65) t stop nopBytes = .ok t' ∧ Represents sec t' (r ::ₘ m) ∧
      r.lo = stop.toNat - nopBytes ∧ r.hi = stop.toNat := by
  have hsp := stop.isLt
  have hs : (BitVec.ofNat 64 nopBytes).toNat = nopBytes := by
    rw [BitVec.toNat_ofNat, Nat.mod_eq_of_lt (by omega)]
  have hr : (stop - BitVec.ofNat 64 nopBytes).toNat = stop.toNat - nopBytes := by
    rw [BitVec.toNat_sub_of_le (by rw [BitVec.le_def]; omega), hs]
  have hl' : (mk (stop - BitVec.ofNat 64 nopBytes) (BitVec.ofNat 64 nopBytes)).lo = stop.toNat - nopBytes := hr
  have hh' : (mk (stop - BitVec.ofNat 64 nopBytes) (BitVec.ofNat 64 nopBytes)).hi = stop.toNat := by
    unfold hi
    rw [hr, hs]
    omega
  have hp : (mk (stop - BitVec.ofNat 64 nopBytes) (BitVec.ofNat 64 nopBytes)).Proper :=
    ⟨by omega, by omega⟩
  obtain ⟨t', ht, hrp⟩ := h.add (.inl hp) n
  rw [if_pos ((contains_iff h.nonWrapping hp.2).2 ⟨by omega, by omega⟩)] at hrp
  refine ⟨t', _, ?_, hrp, hl', hh'⟩
  rw [addPadding, ok_bind ht]
  rfl

/-- The state of the pass after the instructions `done`. -/
structure PassInv (text : TextSection) (cuts : List Address) (done : List Insn) (s : PassState) : Prop where
  splits : ∃ m, Represents text.range s.splitRanges m ∧ Tiles text.range (cuts ++ callTargets done) m
  padding : ∃ m, Represents text.range s.functionPadding m ∧
    Scanned done (text.range.lo + byteCount done) s.nopBytes m
  count : s.nopBytes ≤ byteCount done

theorem splitDueTo_spec {sec cuts m} (hr : Represents sec t m) (ht : Tiles sec cuts m) (ins) (n) :
    ∃ t' m', splitDueTo (n + 65) t ins = .ok t' ∧ Represents sec t' m' ∧ Tiles sec (cuts ++ callTargets [ins]) m' := by
  unfold splitDueTo callTargets
  cases hs : shouldSplitFunctionDueTo ins with
  | none => exact ⟨t, m, rfl, hr, by simpa [hs] using ht⟩
  | some target =>
    obtain ⟨b, t', m', h, hr', ht'⟩ := ht.splitAt hr target n
    refine ⟨t', m', ?_, hr', by simpa [hs] using ht'⟩
    dsimp only
    rw [ok_bind h]
    rfl

theorem passStep_spec {text cuts pre post}
    (hl : text.insns = pre ++ ins :: post) {s} (h : PassInv text cuts pre s) (n) :
    ∃ s', passStep (n + 65) s ins = .ok s' ∧ PassInv text cuts (pre ++ [ins]) s' := by
  obtain ⟨⟨ms, hrs, ht⟩, ⟨mp, hr, hs⟩, hc⟩ := h
  obtain ⟨ha, hz⟩ := decoded_mid pre (hl ▸ text.decoded)
  have hb : byteCount (pre ++ [ins]) = byteCount pre + ins.size := by rw [byteCount_append]; rfl
  have hf := text.fits
  rw [hl, byteCount_append, byteCount] at hf
  have hw := text.proper.2
  obtain ⟨ts, ms', hsl, hr', ht'⟩ := splitDueTo_spec hrs ht ins n
  have htr : cuts ++ callTargets (pre ++ [ins]) = cuts ++ callTargets pre ++ callTargets [ins] := by
    simp [callTargets]
  rw [← htr] at ht'
  have hx : text.range.lo + byteCount (pre ++ [ins]) = text.range.lo + byteCount pre + ins.size := by omega
  rw [passStep, ok_bind hsl]
  by_cases hi : ins.id = .nop
  · rw [if_pos hi]
    refine ⟨_, rfl, ⟨ms', hr', ht'⟩, ⟨mp, hr, ?_⟩, by simp only; omega⟩
    rw [hx]
    exact hs.nop hi ha
  · rw [if_neg hi]
    by_cases hn : s.nopBytes = 0
    · rw [if_neg (not_not.2 hn)]
      refine ⟨_, rfl, ⟨ms', hr', ht'⟩, ⟨mp, hr, ?_⟩, by simp only; omega⟩
      rw [hx]
      simp only [hn]
      exact hs.other hi hz (.inl ⟨hn, rfl⟩)
    · rw [if_pos hn]
      obtain ⟨tp, r, had, hp', ho, hri⟩ :=
        addPadding_spec hr ins.address (pos_of_ne_zero hn) (by omega) (by omega) n
      rw [ok_bind had]
      refine ⟨_, rfl, ⟨ms', hr', ht'⟩, ⟨r ::ₘ mp, hp', ?_⟩, Nat.zero_le _⟩
      rw [hx]
      exact hs.other hi hz
        (.inr ⟨pos_of_ne_zero hn, by omega, r, by rw [ho, ha], by rw [hri, ha], rfl⟩)

/-- The split points of the whole discovery. -/
def Image.cuts (img : Image) : List Address :=
  img.entryPoint :: (img.initArray ++ img.finiArray) ++ callTargets img.text.insns

/-- The padding tree holds the padding of the section. -/
structure Padded (text : TextSection) (m : Multiset Range) : Prop where
  recorded : ∀ r, r ∈ m ↔ text.Padding r
  disjoint : ∀ p, Range.coverage m p ≤ 1

/-- At the end of the instructions a run of nops that is still open is moved to the end of the
section. -/
theorem Scanned.padded {text m} (h : Scanned text.insns text.decodedEnd nopBytes m) {m'}
    (hm : (nopBytes = 0 ∧ m' = m) ∨ (0 < nopBytes ∧ ∃ r, r.lo = text.range.hi - nopBytes ∧ r.hi = text.range.hi ∧ m' = r ::ₘ m)) :
    Padded text m' := by
  have hf : text.decodedEnd ≤ text.range.hi := text.fits
  have hw : text.range.hi < 2 ^ 64 := text.proper.2
  have hle := h.le
  rcases hm with ⟨h0, rfl⟩ | ⟨hp, s, hlo, hhi, rfl⟩
  · refine ⟨fun r => ?_, h.disjoint⟩
    rw [h.recorded, TextSection.Padding]
    refine ⟨.inl, ?_⟩
    rintro (hr | ⟨s, hs, he, -⟩)
    · exact hr
    · rcases h.run_end hs with hlt | ⟨hp, -⟩ <;> omega
  · refine ⟨fun r => ?_, h.disjoint_cons hp (by omega)⟩
    rw [mem_cons, h.recorded, TextSection.Padding]
    constructor
    · rintro (rfl | hr)
      · -- the open run itself is where decoding stopped
        obtain ⟨s, ho, hsi⟩ := exists_lo_hi (Nat.sub_le text.decodedEnd nopBytes) (by omega)
        exact .inr ⟨s, h.openRun hp ho hsi (by omega), hsi, hhi, by omega⟩
      · exact .inl hr
    · rintro (hr | ⟨s', hs', he, hri, hro⟩)
      · exact .inr hr
      · rcases h.run_end hs' with hlt | ⟨-, ho, hsi⟩
        · omega
        · exact .inl (ext_lo_hi (by omega) (by omega))

/-- What the first pass leaves: the segments of the section and its padding. -/
theorem discover_spec (img) (n) : ∃ ts tp ms mp, discover (n + 65) img = .ok (ts, tp) ∧
      Represents img.text.range ts ms ∧ Tiles img.text.range img.cuts ms ∧
      Represents img.text.range tp mp ∧ Padded img.text mp := by
  have hw := img.text.proper.2
  have hf := (contains_iff hw hw).2 ⟨le_rfl, le_rfl⟩
  obtain ⟨t0, h0, hr0⟩ := (make_represents hw).add (.inl img.text.proper) n
  rw [if_pos hf, cons_zero] at hr0
  obtain ⟨t1, m1, h1, hr1, ht1⟩ :=
    (tiles_whole img.text.proper).splitAll n (img.entryPoint :: (img.initArray ++ img.finiArray)) hr0
  have hit : PassInv img.text (img.entryPoint :: (img.initArray ++ img.finiArray)) []
      ⟨t1, IntervalTree.make img.text.range, 0⟩ := by
    refine ⟨⟨m1, hr1, by simpa [callTargets] using ht1⟩, ⟨0, make_represents hw, ?_⟩, Nat.zero_le _⟩
    exact scanned_nil _
  obtain ⟨s, hs, hi⟩ := foldlM_ok (f := passStep (n + 65))
    (I := PassInv img.text (img.entryPoint :: (img.initArray ++ img.finiArray))) img.text.insns [] _ hit
    (fun pre ins post hl s hI => passStep_spec hl hI n)
  rw [List.nil_append] at hi
  obtain ⟨⟨ms, hrs, ht⟩, ⟨mp, hp, hsn⟩, hc⟩ := hi
  have hr : discover (n + 65) img = (do
      if s.nopBytes ≠ 0 then do
        let functionPadding ← addPadding (n + 65) s.functionPadding (img.text.range.start + img.text.range.size) s.nopBytes
        return (s.splitRanges, functionPadding)
      else
        return (s.splitRanges, s.functionPadding)) := by
    rw [discover, initialSplit, ok_bind h0]
    rw [ok_bind h1, firstDisassemblyPass, ok_bind hs]
  rw [hr]
  have hfs := img.text.fits
  by_cases hn : s.nopBytes = 0
  · rw [if_neg (not_not.2 hn)]
    exact ⟨_, _, ms, mp, rfl, hrs, ht, hp, hsn.padded (.inl ⟨hn, rfl⟩)⟩
  · rw [if_pos hn]
    have he := toNat_start_add hw
    obtain ⟨tp, r, ha, hr', ho, hri⟩ :=
      addPadding_spec hp (img.text.range.start + img.text.range.size) (pos_of_ne_zero hn)
        (by omega) (by omega) n
    rw [ok_bind ha]
    refine ⟨_, _, ms, _, rfl, hrs, ht, hr', hsn.padded (.inr ⟨pos_of_ne_zero hn, r, ?_, ?_, rfl⟩)⟩
    · rw [ho, he]
    · rw [hri, he]

end Egalito
