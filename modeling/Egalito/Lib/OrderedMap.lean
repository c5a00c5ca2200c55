/-
An ordered map as the list of its entries in ascending order of the keys. Assigning to a key that is
there replaces its entry, so of the entries assigned to one key the last one stays. `floor k` is the
entry before the upper bound of `k`: the one with the greatest key that is not above `k`.
-/
import Egalito.Lib.Ranked
import Mathlib.Data.List.Induction

namespace Lib

open List

variable {κ α : Type} [LinearOrder κ] {k : κ} {v : α} {e : κ × α} {m entries : List (κ × α)}

def assign (k : κ) (v : α) : List (κ × α) → List (κ × α)
  | [] => [(k, v)]
  | e :: m => if k < e.1 then (k, v) :: e :: m else if e.1 < k then e :: assign k v m else (k, v) :: m

def assignAll (entries : List (κ × α)) : List (κ × α) := entries.foldl (fun m e => assign e.1 e.2 m) []

/-- Taking out the entry of a key, if there is one. -/
def removeKey (k : κ) (m : List (κ × α)) : List (κ × α) := m.filter fun e => e.1 ≠ k

def findKey (k : κ) (m : List (κ × α)) : Option α := (m.find? fun e => e.1 = k).map Prod.snd

def floor (k : κ) : List (κ × α) → Option (κ × α)
  | [] => none
  | e :: m => if k < e.1 then none else (floor k m).or (some e)

theorem mem_assign : ∀ {m}, Ranked Prod.fst m → (e ∈ assign k v m ↔ e = (k, v) ∨ e.1 ≠ k ∧ e ∈ m)
  | [], _ => by simp [assign]
  | e' :: m, h => by
    obtain ⟨ha, hm⟩ := pairwise_cons.1 h
    unfold assign
    split
    · next hlt =>
      -- every key of the map is above `k`
      have hne : e ∈ e' :: m → e.1 ≠ k := by
        intro he
        rcases mem_cons.1 he with rfl | he
        · exact hlt.ne'
        · exact (hlt.trans (ha e he)).ne'
      rw [mem_cons]
      exact or_congr_right ⟨fun he => ⟨hne he, he⟩, And.right⟩
    · split
      · next hlt =>
        rw [mem_cons, mem_assign hm, mem_cons]
        have hne : e = e' → e.1 ≠ k := by rintro rfl; exact hlt.ne
        tauto
      · next hge hle =>
        have heq := le_antisymm (not_lt.1 hge) (not_lt.1 hle)
        have hne : e ∈ m → e.1 ≠ k := fun he => heq ▸ (ha e he).ne'
        rw [mem_cons, mem_cons]
        have hs : e = e' → e.1 = k := by rintro rfl; exact heq
        tauto

theorem Ranked.assign : ∀ {m}, Ranked Prod.fst m → Ranked Prod.fst (assign k v m)
  | [], _ => pairwise_singleton _ _
  | e' :: m, h => by
    obtain ⟨ha, hm⟩ := pairwise_cons.1 h
    unfold Lib.assign
    split
    · next hlt =>
      refine List.Pairwise.cons (fun e he => ?_) h
      rcases mem_cons.1 he with rfl | he
      · exact hlt
      · exact hlt.trans (ha e he)
    · split
      · next hlt =>
        refine List.Pairwise.cons (fun e he => ?_) (Ranked.assign hm)
        rcases (mem_assign hm).1 he with rfl | ⟨-, he⟩
        · exact hlt
        · exact ha e he
      · next hge hle =>
        have heq := le_antisymm (not_lt.1 hge) (not_lt.1 hle)
        exact List.Pairwise.cons (fun e he => heq ▸ ha e he) hm

theorem mem_removeKey : e ∈ removeKey k m ↔ e ∈ m ∧ e.1 ≠ k := by
  simp [removeKey]

theorem Ranked.removeKey (h : Ranked Prod.fst m) : Ranked Prod.fst (removeKey k m) :=
  List.Pairwise.filter _ h

theorem isSome_findKey : (findKey k m).isSome ↔ ∃ e ∈ m, e.1 = k := by
  simp [findKey]

theorem assignAll_append (entries) (e : κ × α) : assignAll (entries ++ [e]) = assign e.1 e.2 (assignAll entries) := by
  simp [assignAll]

theorem ranked_assignAll (entries : List (κ × α)) : Ranked Prod.fst (assignAll entries) := by
  induction entries using reverseRecOn with
  | nil => exact List.Pairwise.nil
  | append_singleton entries e ih =>
    rw [assignAll_append]
    exact ih.assign

/-- The entries of the map are those that no later one of the same key replaces. -/
theorem mem_assignAll : e ∈ assignAll entries ↔
    ∃ pre post, entries = pre ++ e :: post ∧ ∀ e' ∈ post, e'.1 ≠ e.1 := by
  induction entries using reverseRecOn with
  | nil => simp [assignAll]
  | append_singleton entries last ih =>
    rw [assignAll_append, mem_assign (ranked_assignAll entries), ih]
    constructor
    · rintro (rfl | ⟨hne, pre, post, rfl, ha⟩)
      · exact ⟨entries, [], rfl, by simp⟩
      · refine ⟨pre, post ++ [last], by simp, fun e' he' => ?_⟩
        rcases mem_append.1 he' with he' | he'
        · exact ha e' he'
        · exact mem_singleton.1 he' ▸ hne.symm
    · rintro ⟨pre, post, heq, ha⟩
      rcases eq_nil_or_concat post with rfl | ⟨post, last', rfl⟩
      · exact .inl (append_inj_right' heq rfl |> singleton_inj.1).symm
      · rw [concat_eq_append] at heq ha
        rw [← cons_append, ← append_assoc] at heq
        obtain ⟨rfl, hlt⟩ := append_inj' heq rfl
        obtain rfl := singleton_inj.1 hlt
        exact .inr ⟨(ha last (by simp)).symm, pre, post, rfl, fun e' he' => ha e' (by simp [he'])⟩

variable {l : List β} {x : β} {key : β → κ} {i : Nat}

theorem find?_eq_some_of_unique {p} (hx : x ∈ l) (hp : p x = true) (hu : ∀ y ∈ l, p y = true → y = x) :
    l.find? p = some x := by
  cases hf : l.find? p with
  | none => exact absurd hp (find?_eq_none.1 hf x hx)
  | some y => rw [hu y (mem_of_find?_eq_some hf) (find?_some hf)]

theorem mem_assignAll_of_nodup (h : (entries.map Prod.fst).Nodup) (he : e ∈ entries) : e ∈ assignAll entries := by
  obtain ⟨pre, post, rfl⟩ := append_of_mem he
  refine mem_assignAll.2 ⟨pre, post, rfl, fun e' he' heq => ?_⟩
  rw [map_append, map_cons] at h
  have hn := (nodup_cons.1 (nodup_append.1 h).2.1).1
  exact hn (mem_map.2 ⟨e', he', heq⟩)

theorem Ranked.find?_key (h : Ranked Prod.fst m) (he : e ∈ m) : (m.find? fun e' => e'.1 = e.1) = some e := by
  apply find?_eq_some_of_unique he (by simp)
  intro e' he' hk
  exact h.eq_of_rank_eq he' he (by simpa using hk)

theorem find?_assignAll_mapIdx {value : Nat → α} (h : (l.map key).Nodup) (hx : l[i]? = some x) :
    ((assignAll (l.mapIdx fun i x => (key x, value i))).find? fun e => e.1 = key x) = some (key x, value i) := by
  have hk : (l.mapIdx fun i x => (key x, value i)).map Prod.fst = l.map key := by
    refine ext_getElem? fun i => ?_
    simp [getElem?_map, getElem?_mapIdx, Function.comp_def]
  have hm : (l.mapIdx fun i x => (key x, value i))[i]? = some (key x, value i) := by rw [getElem?_mapIdx, hx]; rfl
  exact (ranked_assignAll _).find?_key (mem_assignAll_of_nodup (hk ▸ h) (mem_of_getElem? hm))

theorem mem_keys_assignAll : k ∈ (assignAll entries).map Prod.fst ↔ k ∈ entries.map Prod.fst := by
  induction entries using reverseRecOn with
  | nil => rfl
  | append_singleton entries last ih =>
    simp only [mem_map, assignAll_append, mem_assign (ranked_assignAll entries)] at ih ⊢
    constructor
    · rintro ⟨e, rfl | ⟨-, he⟩, rfl⟩
      · exact ⟨last, by simp⟩
      · obtain ⟨e', he', heq⟩ := ih.1 ⟨e, he, rfl⟩
        exact ⟨e', by simp [he'], heq⟩
    · rintro ⟨e, he, rfl⟩
      by_cases hlt : e.1 = last.1
      · exact ⟨last, .inl rfl, hlt.symm⟩
      · rcases mem_append.1 he with he | he
        · obtain ⟨e', he', heq⟩ := ih.2 ⟨e, he, rfl⟩
          exact ⟨e', .inr ⟨heq ▸ hlt, he'⟩, heq⟩
        · exact absurd (congrArg Prod.fst (mem_singleton.1 he)) hlt

theorem floor_eq_none (h : Ranked Prod.fst m) : floor k m = none ↔ ∀ e ∈ m, k < e.1 := by
  cases m with
  | nil => simp [floor]
  | cons e' m =>
    obtain ⟨ha, -⟩ := pairwise_cons.1 h
    unfold floor
    split
    · next hlt => simpa [hlt] using fun a b he => hlt.trans (ha (a, b) he)
    · next hge => simp [hge]

theorem floor_eq_some : ∀ {m} {e : κ × α}, Ranked Prod.fst m →
    (floor k m = some e ↔ e ∈ m ∧ e.1 ≤ k ∧ ∀ e' ∈ m, e'.1 ≤ k → e'.1 ≤ e.1)
  | [], _, _ => by simp [floor]
  | e' :: m, e, h => by
    obtain ⟨ha, hm⟩ := pairwise_cons.1 h
    unfold floor
    split
    · next hlt =>
      have hn : ∀ e ∈ e' :: m, ¬ e.1 ≤ k := by
        intro e he
        rcases mem_cons.1 he with rfl | he
        · exact hlt.not_ge
        · exact (hlt.trans (ha e he)).not_ge
      simp only [reduceCtorEq, false_iff, not_and]
      exact fun he hle => absurd hle (hn e he)
    · next hge =>
      cases hr : floor k m with
      | none =>
        -- the first entry is the only one that is not above `k`
        have hn := (floor_eq_none hm).1 hr
        simp only [Option.none_or, Option.some.injEq]
        constructor
        · rintro rfl
          refine ⟨mem_cons_self, not_lt.1 hge, fun e he hle => ?_⟩
          rcases mem_cons.1 he with rfl | he
          · exact le_rfl
          · exact absurd hle (hn e he).not_ge
        · rintro ⟨he, hle, -⟩
          rcases mem_cons.1 he with rfl | he
          · rfl
          · exact absurd hle (hn e he).not_ge
      | some f =>
        obtain ⟨hf, hk, hx⟩ := (floor_eq_some hm).1 hr
        rw [Option.some_or, ← hr, floor_eq_some hm]
        constructor
        · rintro ⟨he, hle, hb⟩
          refine ⟨mem_cons_of_mem _ he, hle, fun e'' he'' hl'' => ?_⟩
          rcases mem_cons.1 he'' with rfl | he''
          · exact (ha e he).le
          · exact hb e'' he'' hl''
        · rintro ⟨he, hle, hb⟩
          rcases mem_cons.1 he with rfl | he
          · exact absurd (hb f (mem_cons_of_mem _ hf) hk) (ha f hf).not_ge
          · exact ⟨he, hle, fun e'' he'' => hb e'' (mem_cons_of_mem _ he'')⟩

end Lib
