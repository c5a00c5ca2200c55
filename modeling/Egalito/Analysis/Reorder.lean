/-
Reordering a block by its recorded dependencies, which are kept only against the latest writer of a register and the
readers since then.

`Tracks` relates the state of the analysis to the records so far: an earlier instruction in conflict with a later one
is depended on, directly or through the writers that shield it. Each call keeps this. `reorder_respects_iff` says when
every order that the traversal can produce keeps all conflicting pairs in their order.
-/
import Egalito.Analysis.Handlers

namespace Egalito.Analysis

open Lib List
open ReachingDef

/-- One writes what the other reads or writes. -/
def Records.Conflict (r r' : Records) : Prop :=
  ∃ reg, r.Writes reg ∧ r'.Touches reg ∨ r.Touches reg ∧ r'.Writes reg

/-! ## What the analysis knows -/

/-- `b` comes before `a`, directly or through others. -/
def Depends (s : ReachingDef) (a b : Nat) : Prop := Relation.TransGen (Edge s.killMap) a b

/-- The current writer of the register is the instruction or depends on it. -/
def Shielded (s : ReachingDef) (reg : Location) (i : Nat) : Prop :=
  ∃ w, s.currentWriteMap reg = some w ∧ (w = i ∨ Depends s w i)

/-- The state after instructions with the given records. -/
structure Tracks (rs : List Records) (s : ReachingDef) : Prop where
  lt : ∀ {i j}, j ∈ s.killMap i → j < i
  nodup : ∀ i, (s.killMap i).Nodup
  later : ∀ i, rs.length ≤ i → s.killMap i = []
  writer : ∀ {reg w}, s.currentWriteMap reg = some w → ∃ r, rs[w]? = some r ∧ r.Writes reg
  reader : ∀ {reg i}, i ∈ s.currentReadMap reg → i < rs.length
  written : ∀ {reg i r}, rs[i]? = some r → r.Writes reg → Shielded s reg i
  touched : ∀ {reg i r}, rs[i]? = some r → r.Touches reg → i ∈ s.currentReadMap reg ∨ Shielded s reg i
  ordered : ∀ {i j r r'}, i < j → rs[i]? = some r → rs[j]? = some r' → r.Conflict r' → Depends s j i

variable {rs : List Records} {s s' : ReachingDef} {l done : List Call} {reg : Location}

theorem tracks_empty : Tracks [] empty := by
  constructor <;> simp [empty]

theorem Depends.mono (h : ∀ {i j}, j ∈ s.killMap i → j ∈ s'.killMap i) {a b} (hd : Depends s a b) : Depends s' a b := by
  have hle : Edge s.killMap ≤ Edge s'.killMap := fun _ _ he => h he
  exact Relation.TransGen.mono hle _ _ hd

variable {i instr j : Nat} {r x : Records} {reg' : Location} {block : List (Option Assembly)}
  {killMap : List (List Nat)}

theorem Shielded.mono (h : ∀ {i j}, j ∈ s.killMap i → j ∈ s'.killMap i)
    (hw : s'.currentWriteMap reg = s.currentWriteMap reg) (hi : Shielded s reg i) : Shielded s' reg i := by
  obtain ⟨w, hc, hr⟩ := hi
  refine ⟨w, hw.trans hc, ?_⟩
  rcases hr with rfl | hr
  · exact .inl rfl
  · exact .inr (hr.mono h)

theorem mem_kill {l} : j ∈ (s.kill instr l).killMap i ↔ i = instr ∧ j ∈ l ∨ j ∈ s.killMap i := by
  unfold kill
  by_cases hi : i = instr
  · subst hi
    simp
  · simp [hi]

theorem nodup_kill (hs : ∀ i, (s.killMap i).Nodup) (instr) (l) (i) :
    ((s.kill instr l).killMap i).Nodup := by
  unfold kill
  by_cases hi : i = instr
  · subst hi
    simpa using (hs i).union l
  · simpa [hi] using hs i

theorem getElem?_snoc (h : (rs ++ [x])[i]? = some r) : rs[i]? = some r ∨ i = rs.length ∧ r = x := by
  rcases Nat.lt_or_ge i rs.length with hi | hi
  · rw [getElem?_append_left hi] at h
    exact .inl h
  · rw [getElem?_append_right hi] at h
    obtain ⟨hi', hx⟩ := List.getElem?_eq_some_iff.1 h
    rw [length_singleton] at hi'
    refine .inr ⟨by omega, ?_⟩
    simpa using hx.symm

theorem getElem?_lt (h : rs[i]? = some r) : i < rs.length := (List.getElem?_eq_some_iff.1 h).1

theorem Tracks.descending (h : Tracks rs s) : Descending s.killMap id where
  lt := h.lt
  nodup i := by simpa using h.nodup i

theorem Tracks.begin (h : Tracks rs s) : Tracks (rs ++ [.calls []]) s where
  lt := h.lt
  nodup := h.nodup
  later i hi := h.later i (by rw [length_append] at hi; omega)
  writer hw := by
    obtain ⟨r, hr, ht⟩ := h.writer hw
    exact ⟨r, by rw [getElem?_append_left (getElem?_lt hr), hr], ht⟩
  reader hi := by
    have := h.reader hi
    rw [length_append]
    omega
  written hr ht := by
    rcases getElem?_snoc hr with hr | ⟨-, rfl⟩
    · exact h.written hr ht
    · cases ht
  touched hr hh := by
    rcases getElem?_snoc hr with hr | ⟨-, rfl⟩
    · exact h.touched hr hh
    · rcases hh with h | h <;> cases h
  ordered {i j r r'} hlt hr hr' hc := by
    rcases getElem?_snoc hr' with hr' | ⟨rfl, rfl⟩
    · rcases getElem?_snoc hr with hr | ⟨rfl, -⟩
      · exact h.ordered hlt hr hr' hc
      · have := getElem?_lt hr'
        omega
    · obtain ⟨reg, ⟨-, h⟩ | ⟨-, h⟩⟩ := hc
      · rcases h with h | h <;> cases h
      · cases h

/-- The records of the last instruction change: its dependencies are added to, and what it now touches is accounted for.
    -/
theorem Tracks.replace {x'} (h : Tracks (rs ++ [x]) s) (hkill : ∀ {i j}, j ∈ s.killMap i → j ∈ s'.killMap i)
    (hnew : ∀ {i j}, j ∈ s'.killMap i → j ∈ s.killMap i ∨ i = rs.length ∧ j < i) (hnodup : ∀ i, (s'.killMap i).Nodup)
    (hwriter : ∀ {reg w}, s'.currentWriteMap reg = some w → ∃ r, (rs ++ [x'])[w]? = some r ∧ r.Writes reg)
    (hreader : ∀ {reg i}, i ∈ s'.currentReadMap reg → i < rs.length + 1)
    (hwritten : ∀ {reg i r}, (rs ++ [x'])[i]? = some r → r.Writes reg → Shielded s' reg i)
    (htouched : ∀ {reg i r}, (rs ++ [x'])[i]? = some r → r.Touches reg → i ∈ s'.currentReadMap reg ∨ Shielded s' reg i)
    (hordered : ∀ {i r}, rs[i]? = some r → r.Conflict x' → Depends s' rs.length i) : Tracks (rs ++ [x']) s' where
  lt hj := by
    rcases hnew hj with hj | ⟨-, hlt⟩
    · exact h.lt hj
    · exact hlt
  nodup := hnodup
  later i hi := by
    rw [length_append, length_singleton] at hi
    apply eq_nil_iff_forall_not_mem.2
    intro j hj
    rcases hnew hj with hj | ⟨rfl, -⟩
    · rw [h.later i (by simpa using hi)] at hj
      cases hj
    · omega
  writer := hwriter
  reader hi := by simpa using hreader hi
  written := hwritten
  touched := htouched
  ordered {i j r r'} hlt hr hr' hconflict := by
    have hi : i < rs.length := by
      have := getElem?_lt hr'
      rw [length_append, length_singleton] at this
      omega
    have hri : rs[i]? = some r := by
      rcases getElem?_snoc hr with hr | ⟨rfl, -⟩
      · exact hr
      · omega
    rcases getElem?_snoc hr' with hr' | ⟨rfl, rfl⟩
    · have ho : ∀ {k r}, rs[k]? = some r → (rs ++ [x])[k]? = some r := fun hk => by
        rw [getElem?_append_left (getElem?_lt hk), hk]
      exact (h.ordered hlt (ho hri) (ho hr') hconflict).mono hkill
    · exact hordered hri hconflict

/-! ## One call -/

theorem mem_setRegRead : j ∈ (s.setRegRead reg instr).killMap i ↔
    i = instr ∧ s.currentWriteMap reg = some j ∧ j ≠ instr ∨ j ∈ s.killMap i := by
  have hkill : (s.setRegRead reg instr).killMap =
      (s.kill instr ((s.currentWriteMap reg).toList.filter (· ≠ instr))).killMap := rfl
  rw [hkill, mem_kill, mem_filter, Option.mem_toList, decide_eq_true_eq]

theorem mem_currentReadMap_setRegRead :
    i ∈ (s.setRegRead reg instr).currentReadMap reg' ↔ reg' = reg ∧ i = instr ∨ i ∈ s.currentReadMap reg' := by
  unfold setRegRead kill
  by_cases h : reg' = reg
  · subst h
    simp
  · simp [h]

theorem touches_snoc {c} (h : (Records.calls (l ++ [c])).Touches reg') :
    (Records.calls l).Touches reg' ∨ c = .read reg' ∨ c = .write reg' := by
  simp only [Records.Touches, mem_append, mem_singleton] at h ⊢
  grind

theorem writes_snoc {c} (h : (Records.calls (l ++ [c])).Writes reg') :
    (Records.calls l).Writes reg' ∨ c = .write reg' := by
  simp only [Records.Writes, mem_append, mem_singleton] at h ⊢
  grind

theorem getElem?_replace (x') (hr : (rs ++ [x])[i]? = some r) :
    (rs ++ [x'])[i]? = some r ∨ i = rs.length ∧ r = x ∧ (rs ++ [x'])[i]? = some x' := by
  rcases getElem?_snoc hr with hr | ⟨rfl, rfl⟩
  · rw [getElem?_append_left (getElem?_lt hr)]
    exact .inl hr
  · exact .inr ⟨rfl, rfl, by simp⟩

theorem Tracks.writer_snoc {x'} (h : Tracks (rs ++ [.calls done]) s) (hx : ∀ reg, (Records.calls done).Writes reg → x'.Writes reg)
    {w} (hw : s.currentWriteMap reg = some w) : ∃ r, (rs ++ [x'])[w]? = some r ∧ r.Writes reg := by
  obtain ⟨r, hr, ht⟩ := h.writer hw
  rcases getElem?_replace x' hr with hr | ⟨-, rfl, hlt⟩
  · exact ⟨r, hr, ht⟩
  · exact ⟨x', hlt, hx reg ht⟩

section

variable {c : Call} (h : Tracks (rs ++ [.calls done]) s)
include h

theorem Tracks.written_snoc (hr : (rs ++ [.calls (done ++ [c])])[i]? = some r) (hw : r.Writes reg') :
    Shielded s reg' i ∨ c = .write reg' := by
  rcases getElem?_replace (.calls done) hr with hr | ⟨-, rfl, hlt⟩
  · exact .inl (h.written hr hw)
  · rcases writes_snoc hw with hw | hc
    · exact .inl (h.written hlt hw)
    · exact .inr hc

theorem Tracks.touched_snoc (hr : (rs ++ [.calls (done ++ [c])])[i]? = some r) (ht : r.Touches reg') :
    (i ∈ s.currentReadMap reg' ∨ Shielded s reg' i) ∨ i = rs.length ∧ (c = .read reg' ∨ c = .write reg') := by
  rcases getElem?_replace (.calls done) hr with hr | ⟨hi, rfl, hlt⟩
  · exact .inl (h.touched hr ht)
  · rcases touches_snoc ht with ht | hc
    · exact .inl (h.touched hlt ht)
    · exact .inr ⟨hi, hc⟩

/-- A conflict with the last instruction was one before the call, or is one with the call. -/
theorem Tracks.ordered_snoc (hr : rs[i]? = some r) (hn : r.Conflict (.calls (done ++ [c]))) :
    Depends s rs.length i ∨ ∃ reg', r.Writes reg' ∧ c = .read reg' ∨ r.Touches reg' ∧ c = .write reg' := by
  have hi := getElem?_lt hr
  have hri : (rs ++ [.calls done])[i]? = some r := by rw [getElem?_append_left hi, hr]
  have hlt : (rs ++ [.calls done])[rs.length]? = some (.calls done) := by simp
  obtain ⟨reg', ⟨hw, ht⟩ | ⟨ht, hw⟩⟩ := hn
  · rcases touches_snoc ht with ht | hc | hc
    · exact .inl (h.ordered hi hri hlt ⟨reg', .inl ⟨hw, ht⟩⟩)
    · exact .inr ⟨reg', .inl ⟨hw, hc⟩⟩
    · exact .inr ⟨reg', .inr ⟨hw.touches, hc⟩⟩
  · rcases writes_snoc hw with hw | hc
    · exact .inl (h.ordered hi hri hlt ⟨reg', .inr ⟨ht, hw⟩⟩)
    · exact .inr ⟨reg', .inr ⟨ht, hc⟩⟩

end

/-- An instruction that depends on the writer comes after all that the writer shields. -/
theorem Shielded.depends (h : Shielded s reg i) (hlt : i ≠ instr)
    (he : ∀ {w}, s.currentWriteMap reg = some w → w ≠ instr → w ∈ s'.killMap instr)
    (hkill : ∀ {i j}, j ∈ s.killMap i → j ∈ s'.killMap i) : Depends s' instr i := by
  obtain ⟨w, hw, hr⟩ := h
  by_cases hs : w = instr
  · subst hs
    exact (hr.resolve_left (Ne.symm hlt)).mono hkill
  · have hp : Depends s' instr w := Relation.TransGen.single (he hw hs)
    rcases hr with rfl | hr
    · exact hp
    · exact hp.trans (hr.mono hkill)

theorem Tracks.read (h : Tracks (rs ++ [.calls done]) s) (reg) :
    Tracks (rs ++ [.calls (done ++ [.read reg])]) (s.setRegRead reg rs.length) := by
  have hkill : ∀ {i j}, j ∈ s.killMap i → j ∈ (s.setRegRead reg rs.length).killMap i := fun hj => mem_setRegRead.2 (.inr hj)
  have he : ∀ {w}, s.currentWriteMap reg = some w → w ≠ rs.length → w ∈ (s.setRegRead reg rs.length).killMap rs.length :=
    fun hw hne => mem_setRegRead.2 (.inl ⟨rfl, hw, hne⟩)
  apply h.replace hkill
  case hnew =>
    intro i j hj
    rcases mem_setRegRead.1 hj with ⟨rfl, hw, hne⟩ | hj
    · obtain ⟨r, hr, -⟩ := h.writer hw
      have := getElem?_lt hr
      rw [length_append, length_singleton] at this
      exact .inr ⟨rfl, by omega⟩
    · exact .inl hj
  case hnodup => exact nodup_kill h.nodup _ _
  case hwriter => exact fun hw => h.writer_snoc (fun _ => mem_append_left _) hw
  case hreader =>
    intro reg' i hi
    rcases mem_currentReadMap_setRegRead.1 hi with ⟨-, rfl⟩ | hi
    · omega
    · simpa using h.reader hi
  case hwritten =>
    intro reg' i r hr hwt
    rcases h.written_snoc hr hwt with hs | hc
    · exact hs.mono hkill rfl
    · cases hc
  case htouched =>
    intro reg' i r hr ht
    rcases h.touched_snoc hr ht with (hrd | hs) | ⟨rfl, hc | hc⟩
    · exact .inl (mem_currentReadMap_setRegRead.2 (.inr hrd))
    · exact .inr (hs.mono hkill rfl)
    · cases hc
      exact .inl (mem_currentReadMap_setRegRead.2 (.inl ⟨rfl, rfl⟩))
    · cases hc
  case hordered =>
    intro i r hr hn
    have hi := getElem?_lt hr
    rcases h.ordered_snoc hr hn with hd | ⟨reg', ⟨hw, hc⟩ | ⟨-, hc⟩⟩
    · exact hd.mono hkill
    · cases hc
      have hri : (rs ++ [.calls done])[i]? = some r := by rw [getElem?_append_left hi, hr]
      exact (h.written hri hw).depends (by omega) he hkill
    · cases hc

/-- What `setRegWrite` has done where it returns. -/
structure Overwrites (s : ReachingDef) (reg : Location) (instr : Nat) (s' : ReachingDef) : Prop where
  mem_kill : ∀ {i j}, j ∈ s'.killMap i ↔
    i = instr ∧ (s.currentWriteMap reg = some j ∨ j ∈ s.currentReadMap reg ∧ j ≠ instr) ∨ j ∈ s.killMap i
  nodup : (∀ i, (s.killMap i).Nodup) → ∀ i, (s'.killMap i).Nodup
  writeMap : s'.currentWriteMap = Function.update s.currentWriteMap reg (some instr)
  mem_readMap : ∀ {reg' i}, i ∈ s'.currentReadMap reg' → i ∈ s.currentReadMap reg'
  readMap_ne : ∀ {reg'}, reg' ≠ reg → s'.currentReadMap reg' = s.currentReadMap reg'

theorem setRegWrite_cases (s reg) (instr) (hf : instr ∉ s.killMap instr) :
    s.currentWriteMap reg = some instr ∧ s.setRegWrite reg instr = .error .assertion ∨
    s.currentWriteMap reg ≠ some instr ∧ ∃ s', s.setRegWrite reg instr = .ok s' ∧ Overwrites s reg instr s' := by
  let killed := (s.kill instr (s.currentWriteMap reg).toList).kill instr ((s.currentReadMap reg).filter (· ≠ instr))
  have hk : ∀ {i j}, j ∈ killed.killMap i ↔
      i = instr ∧ (s.currentWriteMap reg = some j ∨ j ∈ s.currentReadMap reg ∧ j ≠ instr) ∨ j ∈ s.killMap i := by
    intro i j
    rw [mem_kill, mem_kill, mem_filter, Option.mem_toList, decide_eq_true_eq]
    grind
  by_cases hw : s.currentWriteMap reg = some instr
  · refine .inl ⟨hw, if_pos ?_⟩
    exact hk.2 (.inl ⟨rfl, .inl hw⟩)
  · refine .inr ⟨hw, _, if_neg ?_, ?_⟩
    · intro hm
      rcases hk.1 hm with ⟨-, hc | ⟨-, hne⟩⟩ | hm
      · exact hw hc
      · exact hne rfl
      · exact hf hm
    · refine ⟨hk, fun hs => nodup_kill (nodup_kill hs _ _) _ _, rfl, fun {reg' i} hi => ?_, fun hne => ?_⟩
      · by_cases hr : reg' = reg
        · subst hr
          simp only [Function.update_self] at hi
          exact (mem_filter.1 hi).1
        · simpa [hr, kill] using hi
      · exact Function.update_of_ne hne _ _

theorem Tracks.write (h : Tracks (rs ++ [.calls done]) s) (hs : Overwrites s reg rs.length s')
    (hw : s.currentWriteMap reg ≠ some rs.length) : Tracks (rs ++ [.calls (done ++ [.write reg])]) s' := by
  have hkill : ∀ {i j}, j ∈ s.killMap i → j ∈ s'.killMap i := fun hj => hs.mem_kill.2 (.inr hj)
  have hf : s'.currentWriteMap reg = some rs.length := by rw [hs.writeMap, Function.update_self]
  have ho : ∀ {reg'}, reg' ≠ reg → s'.currentWriteMap reg' = s.currentWriteMap reg' := fun hne => by
    rw [hs.writeMap, Function.update_of_ne hne]
  -- whatever touched the register before is the latest writer, shielded by it, or a reader since then
  have hb : ∀ {i r}, rs[i]? = some r → r.Touches reg → Depends s' rs.length i := by
    intro i r hr ht
    have hi := getElem?_lt hr
    have hri : (rs ++ [.calls done])[i]? = some r := by rw [getElem?_append_left hi, hr]
    rcases h.touched hri ht with hd | hl
    · exact Relation.TransGen.single (hs.mem_kill.2 (.inl ⟨rfl, .inr ⟨hd, by omega⟩⟩))
    · exact hl.depends (by omega) (fun hcr _ => hs.mem_kill.2 (.inl ⟨rfl, .inl hcr⟩)) hkill
  have hsi : ∀ {i r}, (rs ++ [.calls (done ++ [.write reg])])[i]? = some r → r.Touches reg → Shielded s' reg i := by
    intro i r hr ht
    refine ⟨rs.length, hf, ?_⟩
    rcases getElem?_snoc hr with hr | ⟨rfl, -⟩
    · exact .inr (hb hr ht)
    · exact .inl rfl
  apply h.replace hkill
  case hnew =>
    intro i j hj
    rcases hs.mem_kill.1 hj with ⟨rfl, hcr | ⟨hd, hne⟩⟩ | hj
    · obtain ⟨r, hr, -⟩ := h.writer hcr
      have hlt := getElem?_lt hr
      have hne : j ≠ rs.length := fun he => hw (he ▸ hcr)
      rw [length_append, length_singleton] at hlt
      exact .inr ⟨rfl, by omega⟩
    · have hlt := h.reader hd
      rw [length_append, length_singleton] at hlt
      exact .inr ⟨rfl, by omega⟩
    · exact .inl hj
  case hnodup => exact hs.nodup h.nodup
  case hwriter =>
    intro reg' w hcr
    by_cases hr : reg' = reg
    · subst hr
      rw [hf] at hcr
      cases hcr
      exact ⟨.calls (done ++ [.write reg']), by simp, mem_append_right _ (by simp)⟩
    · rw [ho hr] at hcr
      exact h.writer_snoc (fun _ => mem_append_left _) hcr
  case hreader =>
    intro reg' i hi
    simpa using h.reader (hs.mem_readMap hi)
  case hwritten =>
    intro reg' i r hr hwt
    by_cases hg : reg' = reg
    · subst hg
      exact hsi hr hwt.touches
    · rcases h.written_snoc hr hwt with hl | hc
      · exact hl.mono hkill (ho hg)
      · cases hc
        exact absurd rfl hg
  case htouched =>
    intro reg' i r hr hh
    by_cases hg : reg' = reg
    · subst hg
      exact .inr (hsi hr hh)
    · rcases h.touched_snoc hr hh with (hd | hl) | ⟨-, hc | hc⟩
      · rw [hs.readMap_ne hg]
        exact .inl hd
      · exact .inr (hl.mono hkill (ho hg))
      · cases hc
      · cases hc
        exact absurd rfl hg
  case hordered =>
    intro i r hr hn
    rcases h.ordered_snoc hr hn with hp | ⟨reg', ⟨-, hc⟩ | ⟨ht, hc⟩⟩
    · exact hp.mono hkill
    · cases hc
    · cases hc
      exact hb hr ht

/-! ## One instruction, and the block -/

theorem Tracks.barrier (h : Tracks rs s) : Tracks (rs ++ [.barrier]) (s.setBarrier rs.length) := by
  have hm : ∀ {i j}, j ∈ (s.setBarrier rs.length).killMap i ↔ i = rs.length ∧ j < rs.length ∨ j ∈ s.killMap i := by
    intro i j
    have hkill : (s.setBarrier rs.length).killMap = (s.kill rs.length (range rs.length)).killMap := rfl
    rw [hkill, mem_kill, mem_range]
  have hb : ∀ {i}, i < rs.length → Depends (s.setBarrier rs.length) rs.length i := fun hi =>
    Relation.TransGen.single (hm.2 (.inl ⟨rfl, hi⟩))
  have hs : ∀ {reg i}, i < rs.length + 1 → Shielded (s.setBarrier rs.length) reg i := by
    intro reg i hi
    refine ⟨rs.length, rfl, ?_⟩
    rcases Nat.lt_or_ge i rs.length with hlt | hge
    · exact .inr (hb hlt)
    · exact .inl (by omega)
  apply h.begin.replace
  case hkill => exact fun hj => hm.2 (.inr hj)
  case hnew =>
    intro i j hj
    rcases hm.1 hj with ⟨rfl, hlt⟩ | hj
    · exact .inr ⟨rfl, hlt⟩
    · exact .inl hj
  case hnodup => exact nodup_kill h.nodup _ _
  case hwriter =>
    intro reg w hw
    cases hw
    exact ⟨.barrier, by simp, trivial⟩
  case hreader =>
    intro reg i hi
    have := h.reader hi
    omega
  case hwritten =>
    intro reg i r hr _
    exact hs (by simpa using getElem?_lt hr)
  case htouched =>
    intro reg i r hr _
    exact .inr (hs (by simpa using getElem?_lt hr))
  case hordered => exact fun hr _ => hb (getElem?_lt hr)

theorem Tracks.not_self (h : Tracks rs s) (i) : i ∉ s.killMap i := fun hi => lt_irrefl i (h.lt hi)

/-- Inside an instruction the current writer is the instruction itself if it has written before. -/
theorem Tracks.writes_of_self (h : Tracks (rs ++ [.calls done]) s) (hw : s.currentWriteMap reg = some rs.length) :
    reg ∈ Records.written done := by
  obtain ⟨r, hr, ht⟩ := h.writer hw
  rw [getElem?_append_right le_rfl, Nat.sub_self] at hr
  cases hr
  exact Records.mem_written.2 ht

theorem Tracks.depends_lt (h : Tracks rs s) (hd : Depends s i j) : j < i := by
  induction hd with
  | single he => exact h.lt he
  | tail _ he ih => exact lt_trans (h.lt he) ih

theorem Tracks.self_of_writes (h : Tracks (rs ++ [.calls done]) s) (hw : reg ∈ Records.written done) :
    s.currentWriteMap reg = some rs.length := by
  have hl : (rs ++ [.calls done])[rs.length]? = some (.calls done) := by simp
  have ht := Records.mem_written.1 hw
  obtain ⟨w, hc, rfl | hd⟩ := h.written hl ht
  · exact hc
  · -- an instruction after the last one does not exist
    obtain ⟨r, hr, -⟩ := h.writer hc
    have hlt := getElem?_lt hr
    have hle := h.depends_lt hd
    rw [length_append, length_singleton] at hlt
    omega

/-- All calls of an instruction: they return exactly if no register is written twice. -/
theorem Tracks.calls : ∀ l {done} {s}, Tracks (rs ++ [.calls done]) s → (Records.written done).Nodup →
    (Records.written (done ++ l)).Nodup ∧ (∃ s', l.foldlM (perform rs.length) s = .ok s' ∧
      Tracks (rs ++ [.calls (done ++ l)]) s') ∨
    ¬ (Records.written (done ++ l)).Nodup ∧ l.foldlM (perform rs.length) s = .error .assertion
  | [], done, s, h, hd => by
    rw [append_nil]
    exact .inl ⟨hd, s, rfl, h⟩
  | .read reg :: l, done, s, h, hd => by
    have hd' : (Records.written (done ++ [.read reg])).Nodup := by
      rw [Records.written_append]
      simpa [Records.written] using hd
    have hs := Tracks.calls l (h.read reg) hd'
    rw [append_assoc, singleton_append] at hs
    exact hs
  | .write reg :: l, done, s, h, hd => by
    rcases setRegWrite_cases s reg rs.length (h.not_self _) with ⟨hw, hr⟩ | ⟨hw, s', hok, hs'⟩
    · refine .inr ⟨fun hnodup => ?_, by rw [foldlM_cons]; exact error_bind hr _⟩
      rw [Records.written_append] at hnodup
      exact disjoint_of_nodup_append hnodup (h.writes_of_self hw) (by simp [Records.written])
    · have hd' : (Records.written (done ++ [.write reg])).Nodup := by
        rw [Records.written_append]
        refine List.Nodup.append hd (by simp [Records.written]) ?_
        intro x hx hx'
        obtain rfl : x = reg := by simpa [Records.written] using hx'
        exact hw (h.self_of_writes hx)
      have hs := Tracks.calls l (h.write hs' hw) hd'
      rw [append_assoc, singleton_append] at hs
      rw [foldlM_cons, ok_bind (show perform rs.length s (.write reg) = .ok s' from hok)]
      exact hs

theorem Tracks.record (h : Tracks rs s) (r) : r.Atomic ∧ (∃ s', s.record rs.length r = .ok s' ∧ Tracks (rs ++ [r]) s') ∨
    ¬ r.Atomic ∧ s.record rs.length r = .error .assertion := by
  cases r with
  | barrier => exact .inl ⟨trivial, _, rfl, h.barrier⟩
  | calls l => exact Tracks.calls l h.begin nodup_nil

def Analyzable (a : Option Assembly) : Prop := ∃ r, recordsOf a = .ok r ∧ r.Atomic

/-- The records of a block whose instructions are analyzable. -/
def HasRecords (block : List (Option Assembly)) (rs : List Records) : Prop :=
  List.Forall₂ (fun a r => recordsOf a = .ok r) block rs

theorem Tracks.analyzeFrom : ∀ block {rs} {s}, Tracks rs s → (∀ a ∈ block, Analyzable a) →
    ∃ s' rs', s.analyzeFrom rs.length block = .ok s' ∧ HasRecords block rs' ∧ Tracks (rs ++ rs') s'
  | [], rs, s, h, _ => ⟨s, [], rfl, List.Forall₂.nil, by rwa [append_nil]⟩
  | a :: block, rs, s, h, hc => by
    obtain ⟨r, hr, ha⟩ := hc a (by simp)
    obtain ⟨-, s1, hs1, h1⟩ := (h.record r).resolve_right (fun hd => hd.1 ha)
    obtain ⟨s2, rs', hs2, hr', h2⟩ := Tracks.analyzeFrom block h1 (fun b hb => hc b (by simp [hb]))
    rw [length_append, length_singleton] at hs2
    rw [append_assoc, singleton_append] at h2
    refine ⟨s2, r :: rs', ?_, List.Forall₂.cons hr hr', h2⟩
    rw [ReachingDef.analyzeFrom, ok_bind hr, ok_bind hs1, hs2]

theorem Tracks.analyzable_of_ok : ∀ block {rs} {s s'}, Tracks rs s →
    s.analyzeFrom rs.length block = .ok s' → ∀ a ∈ block, Analyzable a
  | [], _, _, _, _, _ => by simp
  | a :: block, rs, s, s', h, hok => by
    rw [ReachingDef.analyzeFrom] at hok
    obtain ⟨r, hr, hok⟩ := bind_iff.1 hok
    obtain ⟨s1, hs1, hok⟩ := bind_iff.1 hok
    rcases h.record r with ⟨ha, s2, hs2, h2⟩ | ⟨-, hrr⟩
    · rw [hs2] at hs1
      cases hs1
      have ht := Tracks.analyzable_of_ok block h2 (by rw [length_append]; exact hok)
      rintro b (_ | ⟨_, hb⟩)
      · exact ⟨r, hr, ha⟩
      · exact ht b hb
    · rw [hrr] at hs1
      cases hs1

/-- Only a `pop` into the stack pointer and operands that an assertion of a handler refuses stop the
analysis. -/
theorem analyzable_iff {a} : Analyzable a ↔
    (∃ r, recordsOf a = .ok r) ∧ ∀ b, a = some b → ¬ PopsStackPointer b.id b.operands := by
  constructor
  · rintro ⟨r, hr, ha⟩
    refine ⟨⟨r, hr⟩, ?_⟩
    rintro b rfl hp
    cases r with
    | barrier =>
      obtain ⟨hi, r, ho, hr'⟩ := hp
      simp [recordsOf, handle, hi, ho, fillPop, getReg, physical, hr', bind, Except.bind] at hr
    | calls l => exact (form_handle hr).atomic_iff.1 ha hp
  · rintro ⟨⟨r, hr⟩, hp⟩
    refine ⟨r, hr, ?_⟩
    cases r with
    | barrier => trivial
    | calls l =>
      cases a with
      | none => cases hr
      | some b => exact (form_handle hr).atomic_iff.2 (hp b rfl)

theorem Tracks.inKillClosure (h : Tracks rs s) {source} (hs : source ≤ rs.length) (dest : Nat) :
    ∃ b, s.inKillClosure rs.length source dest = .ok b ∧ (b = true ↔ Depends s source dest) := by
  have hf : 2 ^ id source < 2 ^ (rs.length + 1) := Nat.pow_lt_pow_right (by decide) (by simp only [id]; omega)
  have hc : ∃ b, search s.killMap dest (2 ^ (rs.length + 1)) [source] [source] = some b ∧
      (b = true ↔ Depends s source dest) := h.descending.search_spec hf
  obtain ⟨b, hb, hi⟩ := hc
  refine ⟨b, ?_, hi⟩
  unfold ReachingDef.inKillClosure
  rw [hb]

theorem Tracks.closureOf (h : Tracks rs s) (hl : block.length = rs.length) {source} (hs : source < rs.length) :
    ∃ l, s.closureOf block false source = .ok l ∧ ∀ dest, dest ∈ l ↔ Depends s source dest := by
  classical
  let row := fun dest => if Depends s source dest then [dest] else []
  have hr : ∀ dest ∈ range block.length, s.closureAt block false source dest = .ok (row dest) := by
    intro dest _
    obtain ⟨b, hb, hi⟩ := h.inKillClosure (le_of_lt hs) dest
    unfold closureAt
    rw [Bool.false_and, if_neg (by simp), hl, ok_bind hb]
    simp only [hi, row]
  refine ⟨_, ok_bind (mapM_ok hr) _, fun dest => ?_⟩
  rw [← flatMap_def, mem_flatMap]
  constructor
  · rintro ⟨d, -, hd⟩
    by_cases hp : Depends s source d
    · simp only [row, if_pos hp, mem_singleton] at hd
      exact hd ▸ hp
    · simp only [row, if_neg hp] at hd
      cases hd
  · intro hp
    have hlt := h.depends_lt hp
    exact ⟨dest, mem_range.2 (by omega), by simp only [row, if_pos hp, mem_singleton]⟩

theorem Tracks.computeDependencyClosure (h : Tracks rs s) (hl : block.length = rs.length) :
    ∃ killMap, s.computeDependencyClosure block false = .ok killMap ∧ killMap.length = rs.length ∧
      ∀ source < rs.length, ∀ dest, dest ∈ killMap[source]?.getD [] ↔ Depends s source dest := by
  choose! row hrow hmem using fun (source : Nat) hs => h.closureOf hl hs
  refine ⟨(range block.length).map row, mapM_ok fun source hs => ?_, by simpa using hl, fun source hs dest => ?_⟩
  · exact hrow source (by rw [mem_range, hl] at hs; exact hs)
  · rw [getElem?_map, getElem?_range (by omega)]
    exact hmem source hs dest

/-! ## The traversal -/

/-- A map whose dependencies are all earlier instructions. -/
def Earlier (killMap : List (List Nat)) : Prop := ∀ i j : Nat, j ∈ killMap[i]?.getD [] → j < i

theorem covered_iff {covered} :
    areDependenciesCovered killMap instr covered = true ↔ ∀ j ∈ killMap[instr]?.getD [], j ∈ covered := by
  simp [areDependenciesCovered]

/-- The first of the available instructions can always be visited, so that the loop does not get
stuck. -/
theorem group_ne_nil (hk : Earlier killMap) {available visited} (hne : available ≠ [])
    (ha : ∀ i ∈ available, ∀ j < i, j ∈ available ∨ j ∈ visited) :
    available.filter (areDependenciesCovered killMap · visited) ≠ [] := by
  obtain ⟨i, hi, hm⟩ := available.toFinset.exists_minimal (by simpa using hne)
  rw [mem_toFinset] at hi
  apply ne_nil_of_mem (a := i)
  rw [mem_filter, covered_iff]
  refine ⟨hi, fun j hj => ?_⟩
  have hlt := hk i j hj
  refine (ha i hi j hlt).resolve_left fun hj => ?_
  have hle := hm (mem_toFinset.2 hj) (le_of_lt hlt)
  exact absurd hlt (Nat.not_lt.2 hle)

theorem visitFrom_spec {σ : Type} (hk : Earlier killMap) (callback : Callback σ) :
    ∀ n available visited s, available.length < n → available.Nodup →
      (∀ i ∈ available, i ∉ visited) → (∀ i ∈ available, ∀ j < i, j ∈ available ∨ j ∈ visited) →
      ∃ order, visitFrom killMap callback n available visited s = .ok order ∧ order.Perm available ∧
        order.Pairwise fun i j => j ∉ killMap[i]?.getD []
  | 0, _, _, _, hn, _, _, _ => absurd hn (Nat.not_lt_zero _)
  | n + 1, available, visited, s, hn, hnodup, hf, ha => by
    by_cases hne : available = []
    · subst hne
      exact ⟨[], rfl, List.Perm.nil, List.Pairwise.nil⟩
    have hg := group_ne_nil hk hne ha
    obtain ⟨hm, hc⟩ := mem_filter.1 (callback.mem s hg)
    let chosen := (callback.choose s (available.filter (areDependenciesCovered killMap · visited))).1
    have hl : (available.erase chosen).length = available.length - 1 := length_erase_of_mem hm
    have hs := length_pos_of_mem hm
    obtain ⟨rest, ht, hp, hr⟩ := visitFrom_spec hk callback n (available.erase chosen) (chosen :: visited)
      (callback.choose s (available.filter (areDependenciesCovered killMap · visited))).2 (by omega) (hnodup.erase _)
      (fun i hi => by
        rw [hnodup.mem_erase_iff] at hi
        simp only [mem_cons, not_or]
        exact ⟨hi.1, hf i hi.2⟩)
      (fun i hi j hj => by
        rw [hnodup.mem_erase_iff] at hi
        rcases ha i hi.2 j hj with hj | hj
        · by_cases he : j = chosen
          · exact .inr (by simp [he])
          · exact .inl (hnodup.mem_erase_iff.2 ⟨he, hj⟩)
        · exact .inr (mem_cons_of_mem _ hj))
    refine ⟨chosen :: rest, ?_, ?_, List.Pairwise.cons (fun j hj hd => ?_) hr⟩
    · simp only [visitFrom, if_neg hg]
      exact ok_bind ht _
    · exact (List.Perm.cons chosen hp).trans (perm_cons_erase hm).symm
    · -- what is visited later was not visited when its dependent was chosen
      have hj' := mem_of_mem_erase (hp.mem_iff.1 hj)
      exact hf j hj' (covered_iff.1 hc j hd)

/-! ## The whole reordering -/

/-- Two instructions of the block whose order matters: either is a barrier, or one records a write of
what the other reads or writes. -/
def Conflicts (block : List (Option Assembly)) (i j : Nat) : Prop :=
  ∃ a b r r', block[i]? = some a ∧ block[j]? = some b ∧ recordsOf a = .ok r ∧ recordsOf b = .ok r' ∧
    (r = .barrier ∨ r' = .barrier ∨ r.Conflict r')

/-- Every instruction records something, so a barrier is in conflict with every other. -/
theorem touches_of_recordsOf {a} (h : recordsOf a = .ok r) : ∃ reg, r.Touches reg := by
  cases r with
  | barrier => exact ⟨0, trivial⟩
  | calls l =>
    cases a with
    | none => cases h
    | some b =>
      obtain ⟨reg, hr⟩ := (form_handle h).writes
      exact ⟨reg, .inr hr⟩

theorem Tracks.depends_of_conflicts (h : Tracks rs s) (hr : HasRecords block rs) (hlt : i < j)
    (hc : Conflicts block i j ∨ Conflicts block j i) : Depends s j i := by
  have hrc : ∀ {k : Nat} {a r}, block[k]? = some a → recordsOf a = .ok r → rs[k]? = some r := by
    intro k a r hk ha
    obtain ⟨hk', rfl⟩ := List.getElem?_eq_some_iff.1 hk
    have hk'' := hr.length_eq ▸ hk'
    have hg := hr.get hk' hk''
    rw [get_eq_getElem, get_eq_getElem, ha] at hg
    rw [getElem?_eq_getElem hk'', Except.ok.inj hg]
  have hn : ∀ {r r' : Records} {a b}, recordsOf a = .ok r → recordsOf b = .ok r' →
      r = .barrier ∨ r' = .barrier ∨ r.Conflict r' → r.Conflict r' := by
    rintro r r' a b ha hb (rfl | rfl | hc)
    · obtain ⟨reg, hrg⟩ := touches_of_recordsOf hb
      exact ⟨reg, .inl ⟨trivial, hrg⟩⟩
    · obtain ⟨reg, hrg⟩ := touches_of_recordsOf ha
      exact ⟨reg, .inr ⟨hrg, trivial⟩⟩
    · exact hc
  rcases hc with ⟨a, b, r, r', hi, hj, ha, hb, hc⟩ | ⟨a, b, r, r', hj, hi, ha, hb, hc⟩
  · exact h.ordered hlt (hrc hi ha) (hrc hj hb) (hn ha hb hc)
  · obtain ⟨reg, hrg⟩ := hn ha hb hc
    exact h.ordered hlt (hrc hi hb) (hrc hj ha) ⟨reg, by tauto⟩

/-- The result of a reordering is a permutation that keeps the order of conflicting instructions. -/
def Respects (block : List (Option Assembly)) (order : List Nat) : Prop :=
  order.Perm (range block.length) ∧ order.Pairwise fun i j => Conflicts block i j → i < j

theorem reorder_respects (hb : ∀ a ∈ block, Analyzable a) {pointers}
    (hp : pointers.Perm (range block.length)) {σ : Type} (callback) (st : σ) :
    ∃ order, reorder block false pointers callback st = .ok order ∧ Respects block order := by
  obtain ⟨s, rs, hs, hr, h⟩ := tracks_empty.analyzeFrom block hb
  rw [nil_append] at h
  have hl := hr.length_eq
  obtain ⟨killMap, hkill, hkl, hm⟩ := h.computeDependencyClosure hl
  have hk : Earlier killMap := by
    intro i j hj
    by_cases hi : i < rs.length
    · exact h.depends_lt ((hm i hi j).1 hj)
    · rw [getElem?_eq_none (by omega)] at hj
      cases hj
  have hnodup : pointers.Nodup := hp.nodup_iff.2 nodup_range
  have ha : ∀ i ∈ pointers, ∀ j < i, j ∈ pointers ∨ j ∈ [] := by
    intro i hi j hj
    rw [hp.mem_iff, mem_range] at hi ⊢
    exact .inl (lt_trans hj hi)
  obtain ⟨order, ho, hpm, hpr⟩ := visitFrom_spec hk callback (pointers.length + 1) pointers [] st
    (Nat.lt_succ_self _) hnodup (by simp) ha
  refine ⟨order, ?_, hpm.trans hp, ?_⟩
  · unfold reorder
    rw [ok_bind (show analyze block = .ok s from hs), ok_bind hkill]
    exact ho
  · have hne : order.Pairwise (· ≠ ·) := hpm.nodup_iff.2 hnodup
    refine (hpr.and hne).imp_of_mem fun {i j} hi _ hij hc => ?_
    obtain ⟨hd, hij⟩ := hij
    by_contra hge
    have hi' : i < rs.length := by
      rw [hpm.mem_iff, hp.mem_iff, mem_range] at hi
      omega
    exact hd ((hm i hi' j).2 (h.depends_of_conflicts hr (by omega) (.inr hc)))

/-- Whatever the callback chooses, all instructions are emitted and conflicting ones keep their order,
exactly for the blocks in which no handler refuses its operands and nothing is popped into the stack
pointer. -/
theorem reorder_respects_iff (block : List (Option Assembly)) (pointers : List Nat)
    (hp : pointers.Perm (range block.length)) :
    (∀ (σ : Type) (callback : Callback σ) (st : σ), ∃ order,
      reorder block false pointers callback st = .ok order ∧ Respects block order) ↔
    ∀ a ∈ block, (∃ r, recordsOf a = .ok r) ∧ ∀ b, a = some b → ¬ PopsStackPointer b.id b.operands := by
  constructor
  · intro h a ha
    let first : Callback Unit := ⟨fun _ group => (group.headD 0, ()), fun _ {group} hne => by
      cases group with
      | nil => exact absurd rfl hne
      | cons i group => simp⟩
    obtain ⟨order, hod, -⟩ := h Unit first ()
    unfold reorder at hod
    obtain ⟨s, hs, -⟩ := bind_iff.1 hod
    exact analyzable_iff.1 (tracks_empty.analyzable_of_ok block hs a ha)
  · intro h σ callback st
    exact reorder_respects (fun a ha => analyzable_iff.2 (h a ha)) hp callback st

local instance neZero16 : NeZero 16 := ⟨by decide⟩

/-- `push %rbx; mov %rsp, %rbp; sub $16, %rsp; lea 8(%rax), %rcx` and a call. -/
def prologue : List (Option Assembly) :=
  [some ⟨.push, [.reg (.gp 3 .qword)]⟩, some ⟨.mov, [.reg (.gp 4 .qword), .reg (.gp 5 .qword)]⟩,
    some ⟨.sub, [.imm, .reg (.gp 4 .qword)]⟩, some ⟨.lea, [.mem ⟨none, some (.gp 0 .qword), none⟩, .reg (.gp 1 .qword)]⟩, none]

def chooseLast : Callback Unit :=
  ⟨fun _ group => (group.getLastD 0, ()), fun _ {group} hne => by
    rw [getLastD_eq_getLast?, getLast?_eq_some_getLast hne]
    exact getLast_mem hne⟩

theorem reorder_respects_iff_prologue : reorder prologue false [0, 1, 2, 3, 4] chooseLast () = .ok [3, 0, 1, 2, 4] ∧
    Respects prologue [3, 0, 1, 2, 4] := by
  have hrun : reorder prologue false [0, 1, 2, 3, 4] chooseLast () = .ok [3, 0, 1, 2, 4] := by decide +kernel
  have hbc : ∀ a ∈ prologue, (∃ r, recordsOf a = .ok r) ∧ ∀ b, a = some b → ¬ PopsStackPointer b.id b.operands := by
    intro a ha
    simp only [prologue, mem_cons, not_mem_nil, or_false] at ha
    rcases ha with rfl | rfl | rfl | rfl | rfl <;>
      exact ⟨⟨_, rfl⟩, by rintro b hb ⟨hid, -⟩; cases hb <;> cases hid⟩
  obtain ⟨order, hod, hrs⟩ :=
    (reorder_respects_iff prologue [0, 1, 2, 3, 4] (by decide)).2 hbc Unit chooseLast ()
  rw [hrun] at hod
  cases hod
  exact ⟨hrun, hrs⟩

/-- The analysis of `pop %rsp; pop %rax` fails: the first instruction is recorded as depending on itself. -/
theorem reorder_pop_stackPointer :
    reorder [some ⟨.pop, [.reg (.gp 4 .qword)]⟩, some ⟨.pop, [.reg (.gp 0 .qword)]⟩] false [0, 1] chooseLast () =
      .error .assertion := by
  have hfl : analyze [some ⟨.pop, [.reg (.gp 4 .qword)]⟩, some ⟨.pop, [.reg (.gp 0 .qword)]⟩] = .error .assertion := rfl
  exact error_bind hfl _

end Egalito.Analysis
