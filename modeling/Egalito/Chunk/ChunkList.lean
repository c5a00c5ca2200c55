/-
ChunkListImpl: the children of a chunk with a map from addresses and a map from names, made when they are first asked
for and maintained by some of the operations.

The two maps are views of the list of children. For each operation there is an exact condition under which the views
that exist go on agreeing with the list, and `agreeThroughout_new_iff` carries it over all runs from an empty list.
-/
import Egalito.Lib.OrderedMap
import Mathlib.Data.List.Nodup
import Mathlib.Data.List.InsertIdx

namespace Egalito.ChunkList

open Lib List Option

variable {α κ ν : Type} [LinearOrder κ] [LinearOrder ν]

/-- `spatial` and `named` are `none` until they are created. -/
structure ChunkListImpl (α κ ν : Type) where
  iterable : List α
  spatial : Option (List (κ × α))
  named : Option (List (ν × α))
deriving DecidableEq

/-- What is asked of a list, including the first use of a view. -/
inductive Op (α : Type) where
  | add (child : α)
  | remove (child : α)
  | removeLast
  | insertAt (index : Nat) (child : α)
  | getSpatial
  | getNamed
  | clearSpatial
  | clearNamed

namespace ChunkListImpl

def new : ChunkListImpl α κ ν := ⟨[], none, none⟩

/-- The loop of createSpatial and createNamed, with the key by which the view is ordered. -/
def createView {β : Type} [LinearOrder β] (key : α → β) (iterable : List α) : List (β × α) :=
  assignAll (iterable.map fun c => (key c, c))

variable (address : α → κ) (name : α → ν) (l : ChunkListImpl α κ ν)

def add (child : α) : ChunkListImpl α κ ν where
  iterable := l.iterable ++ [child]
  spatial := l.spatial.map (assign (address child) child)
  named := l.named.map (assign (name child) child)

def remove [DecidableEq α] (child : α) : ChunkListImpl α κ ν where
  iterable := l.iterable.erase child
  spatial := l.spatial.map (removeKey (address child))
  named := l.named.map (removeKey (name child))

def removeLast : ChunkListImpl α κ ν :=
  match l.iterable.getLast? with
  | none => l
  | some last =>
    { iterable := l.iterable.dropLast
      spatial := l.spatial.map (removeKey (address last))
      named := l.named.map (removeKey (name last)) }

def genericInsertAt (index : Nat) (child : α) : ChunkListImpl α κ ν :=
  { l with iterable := l.iterable.insertIdx index child }

def getSpatial : List (κ × α) := l.spatial.getD (createView address l.iterable)

def getNamed : List (ν × α) := l.named.getD (createView name l.iterable)

def step [DecidableEq α] : Op α → ChunkListImpl α κ ν
  | .add child => l.add address name child
  | .remove child => l.remove address name child
  | .removeLast => l.removeLast address name
  | .insertAt index child => l.genericInsertAt index child
  | .getSpatial => { l with spatial := some (l.getSpatial address) }
  | .getNamed => { l with named := some (l.getNamed name) }
  | .clearSpatial => { l with spatial := none }
  | .clearNamed => { l with named := none }

/-! ## Agreement of the views -/

/-- The spatial view holds exactly the children under their addresses, and the named view finds something for a name
    exactly if a child has it. -/
structure Agree : Prop where
  spatial : ∀ a c, (a, c) ∈ l.getSpatial address ↔ c ∈ l.iterable ∧ address c = a
  named : ∀ n, (findKey n (l.getNamed name)).isSome ↔ ∃ c ∈ l.iterable, name c = n

/-- The addresses of the children are distinct after the operation, and a child is inserted at a place of
    the list. -/
def Admissible [DecidableEq α] (op : Op α) : Prop :=
  ((l.step address name op).iterable.map address).Nodup ∧
    match op with
    | .insertAt index _ => index ≤ l.iterable.length
    | _ => True

/-- The operation keeps the views that exist: no other child goes by the address or name that is taken out, and an
    inserted child is missed in none. -/
def KeepsViews [DecidableEq α] : Op α → Prop
  | .remove child =>
    (l.spatial.isSome → ∀ c ∈ l.iterable.erase child, address c ≠ address child) ∧
      (l.named.isSome → ∀ c ∈ l.iterable.erase child, name c ≠ name child)
  | .removeLast => ∀ last ∈ l.iterable.getLast?, l.named.isSome → ∀ c ∈ l.iterable.dropLast, name c ≠ name last
  | .insertAt _ child => l.spatial = none ∧ (l.named.isSome → ∃ c ∈ l.iterable, name c = name child)
  | _ => True

/-- A view of the children by a key: all its entries are children under their keys, and every key of a
    child is there. -/
structure ViewOf {β : Type} [LinearOrder β] (key : α → β) (iterable : List α) (m : List (β × α)) : Prop where
  ranked : Ranked Prod.fst m
  sound : ∀ e ∈ m, e.2 ∈ iterable ∧ key e.2 = e.1
  complete : ∀ c ∈ iterable, ∃ e ∈ m, e.1 = key c

namespace ViewOf

variable {β : Type} [LinearOrder β] {key : α → β} {iterable iterable' : List α} {m : List (β × α)} {child : α}

theorem createView (key : α → β) (iterable : List α) : ViewOf key iterable (createView key iterable) where
  ranked := ranked_assignAll _
  sound e he := by
    obtain ⟨pre, post, heq, -⟩ := mem_assignAll.1 he
    have hm : e ∈ iterable.map fun c => (key c, c) := by
      rw [heq]
      exact mem_append_right _ mem_cons_self
    obtain ⟨c, hc, rfl⟩ := mem_map.1 hm
    exact ⟨hc, rfl⟩
  complete c hc := by
    have hk : key c ∈ (assignAll (iterable.map fun c => (key c, c))).map Prod.fst :=
      mem_keys_assignAll.2 (mem_map.2 ⟨(key c, c), mem_map_of_mem hc, rfl⟩)
    exact mem_map.1 hk

section

variable (h : ViewOf key iterable m)
include h

theorem add (child : α) : ViewOf key (iterable ++ [child]) (assign (key child) child m) where
  ranked := h.ranked.assign
  sound e he := by
    rcases (mem_assign h.ranked).1 he with rfl | ⟨-, he⟩
    · exact ⟨by simp, rfl⟩
    · obtain ⟨hm, hk⟩ := h.sound e he
      exact ⟨mem_append_left _ hm, hk⟩
  complete c hc := by
    by_cases hk : key c = key child
    · exact ⟨(key child, child), (mem_assign h.ranked).2 (.inl rfl), hk.symm⟩
    · have hm : c ∈ iterable := by
        rcases mem_append.1 hc with hc | hc
        · exact hc
        · exact absurd (by rw [mem_singleton.1 hc]) hk
      obtain ⟨e, he, hek⟩ := h.complete c hm
      exact ⟨e, (mem_assign h.ranked).2 (.inr ⟨hek ▸ hk, he⟩), hek⟩

theorem removeKey (ht : ∀ c ∈ iterable, c ≠ child → c ∈ iterable') (hs : iterable' ⊆ iterable)
    (hy : ∀ c ∈ iterable', key c ≠ key child) : ViewOf key iterable' (removeKey (key child) m) where
  ranked := h.ranked.removeKey
  sound e he := by
    obtain ⟨he, hne⟩ := mem_removeKey.1 he
    obtain ⟨hm, hk⟩ := h.sound e he
    exact ⟨ht e.2 hm fun heq => hne (by rw [← hk, heq]), hk⟩
  complete c hc := by
    obtain ⟨e, he, hk⟩ := h.complete c (hs hc)
    exact ⟨e, mem_removeKey.2 ⟨he, hk ▸ hy c hc⟩, hk⟩

/-- A new child is not missed if another one has its key. -/
theorem insert (hm : ∀ c, c ∈ iterable' ↔ c = child ∨ c ∈ iterable) (hy : ∃ c ∈ iterable, key c = key child) :
    ViewOf key iterable' m where
  ranked := h.ranked
  sound e he := by
    obtain ⟨hin, hk⟩ := h.sound e he
    exact ⟨(hm e.2).2 (.inr hin), hk⟩
  complete c hc := by
    rcases (hm c).1 hc with rfl | hc
    · obtain ⟨c', hc', heq⟩ := hy
      obtain ⟨e, he, hk⟩ := h.complete c' hc'
      exact ⟨e, he, hk.trans heq⟩
    · exact h.complete c hc

theorem isSome_findKey (k : β) : (findKey k m).isSome ↔ ∃ c ∈ iterable, key c = k := by
  rw [Lib.isSome_findKey]
  constructor
  · rintro ⟨e, he, rfl⟩
    exact ⟨e.2, h.sound e he⟩
  · rintro ⟨c, hc, rfl⟩
    exact h.complete c hc

theorem mem_iff (hd : (iterable.map key).Nodup) (k : β) (c : α) : (k, c) ∈ m ↔ c ∈ iterable ∧ key c = k := by
  constructor
  · exact h.sound (k, c)
  · rintro ⟨hc, rfl⟩
    obtain ⟨e, he, hek⟩ := h.complete c hc
    obtain ⟨hin, hk⟩ := h.sound e he
    have hec : e = (key c, c) := Prod.ext hek (inj_on_of_nodup_map hd hin hc (hk.trans hek))
    exact hec ▸ he

end

end ViewOf

/-- The views that exist are views of the children, whose addresses are distinct. -/
structure Sound : Prop where
  distinct : (l.iterable.map address).Nodup
  spatial : ∀ m ∈ l.spatial, ViewOf address l.iterable m
  named : ∀ m ∈ l.named, ViewOf name l.iterable m

theorem sound_new : (new : ChunkListImpl α κ ν).Sound address name where
  distinct := nodup_nil
  spatial := by simp [new]
  named := by simp [new]

variable {address name l}

theorem Sound.getSpatial (h : l.Sound address name) : ViewOf address l.iterable (l.getSpatial address) := by
  rw [ChunkListImpl.getSpatial]
  cases hs : l.spatial with
  | none => exact ViewOf.createView address l.iterable
  | some m => exact h.spatial m hs

theorem Sound.getNamed (h : l.Sound address name) : ViewOf name l.iterable (l.getNamed name) := by
  rw [ChunkListImpl.getNamed]
  cases hn : l.named with
  | none => exact ViewOf.createView name l.iterable
  | some m => exact h.named m hn

theorem Sound.agree (h : l.Sound address name) : l.Agree address name where
  spatial := h.getSpatial.mem_iff h.distinct
  named := h.getNamed.isSome_findKey

/-! ## One operation -/

theorem forall_mem_map {β γ : Type} {f} {o : Option β} {p : γ → Prop} (h : ∀ b ∈ o, p (f b)) : ∀ c ∈ o.map f, p c := by
  intro c hc
  obtain ⟨b, hb, rfl⟩ := map_eq_some_iff.1 hc
  exact h b hb

theorem Sound.add (h : l.Sound address name) (child : α)
    (hd : ((l.add address name child).iterable.map address).Nodup) : (l.add address name child).Sound address name where
  distinct := hd
  spatial := forall_mem_map fun m hm => (h.spatial m hm).add child
  named := forall_mem_map fun m hm => (h.named m hm).add child

variable {l' : ChunkListImpl α κ ν} {index : Nat} {op : Op α} {ops : List (Op α)}

/-- What is taken out of the views is the key of a child that is not in the list any more. -/
theorem Sound.removed (h : l.Sound address name) {child : α}
    (ht : l'.spatial = l.spatial.map (removeKey (address child)))
    (hnm : l'.named = l.named.map (removeKey (name child))) (hk : ∀ c ∈ l.iterable, c ≠ child → c ∈ l'.iterable)
    (hb : l'.iterable.Sublist l.iterable) (hs : l.spatial.isSome → ∀ c ∈ l'.iterable, address c ≠ address child)
    (hn : l.named.isSome → ∀ c ∈ l'.iterable, name c ≠ name child) : l'.Sound address name where
  distinct := h.distinct.sublist (hb.map address)
  spatial := by
    rw [ht]
    apply forall_mem_map
    intro m hm
    exact (h.spatial m hm).removeKey hk hb.subset (hs (isSome_of_mem hm))
  named := by
    rw [hnm]
    apply forall_mem_map
    intro m hm
    exact (h.named m hm).removeKey hk hb.subset (hn (isSome_of_mem hm))

/-- If the views agree after a key has been taken out, no child has the key. -/
theorem Agree.spatial_removed {child} (h : l'.Agree address name)
    (ht : l'.spatial = l.spatial.map (removeKey (address child))) (hs : l.spatial.isSome) :
    ∀ c ∈ l'.iterable, address c ≠ address child := by
  intro c hc heq
  obtain ⟨m, hm⟩ := isSome_iff_exists.1 hs
  have hmm := (h.spatial (address c) c).2 ⟨hc, rfl⟩
  rw [ChunkListImpl.getSpatial, ht, hm] at hmm
  exact (mem_removeKey.1 hmm).2 heq

theorem Agree.named_removed {child} (h : l'.Agree address name)
    (hnm : l'.named = l.named.map (removeKey (name child))) (hn : l.named.isSome) :
    ∀ c ∈ l'.iterable, name c ≠ name child := by
  intro c hc heq
  obtain ⟨m, hm⟩ := isSome_iff_exists.1 hn
  have hf := (h.named (name child)).2 ⟨c, hc, heq⟩
  rw [ChunkListImpl.getNamed, hnm, hm] at hf
  obtain ⟨e, he, hk⟩ := isSome_findKey.1 hf
  exact (mem_removeKey.1 he).2 hk

/-- The last child is not there twice, so its address goes with it. -/
theorem Sound.address_ne_last (h : l.Sound address name) {last} (hlt : l.iterable.getLast? = some last) :
    ∀ c ∈ l.iterable.dropLast, address c ≠ address last := by
  intro c hc heq
  have hnd := h.distinct
  rw [← dropLast_append_getLast? last hlt, map_append] at hnd
  exact (nodup_append.1 hnd).2.2 (address c) (mem_map_of_mem hc) (address last) (by simp) heq

theorem Sound.insert (h : l.Sound address name) {child} (hi : index ≤ l.iterable.length)
    (hd : ((l.genericInsertAt index child).iterable.map address).Nodup) (hs : l.spatial = none)
    (hn : l.named.isSome → ∃ c ∈ l.iterable, name c = name child) :
    (l.genericInsertAt index child).Sound address name where
  distinct := hd
  spatial := by simp [genericInsertAt, hs]
  named m hm := (h.named m hm).insert (fun _ => mem_insertIdx hi) (hn (isSome_of_mem hm))

/-- An inserted child is missed in a spatial view, and in a named view unless its name is there. -/
theorem Sound.of_agree_insert (h : l.Sound address name) {child} (hi : index ≤ l.iterable.length)
    (hd : ((l.genericInsertAt index child).iterable.map address).Nodup)
    (ha : (l.genericInsertAt index child).Agree address name) :
    l.spatial = none ∧ (l.named.isSome → ∃ c ∈ l.iterable, name c = name child) := by
  have hc : child ∈ l.iterable.insertIdx index child := (mem_insertIdx hi).2 (.inl rfl)
  constructor
  · rw [eq_none_iff_forall_ne_some]
    intro m hm
    have hmm := (ha.spatial (address child) child).2 ⟨hc, rfl⟩
    simp only [genericInsertAt, ChunkListImpl.getSpatial, hm, getD_some] at hmm
    -- the child would have been in the list before
    have hin := ((h.spatial m hm).sound _ hmm).1
    have hp := (perm_insertIdx child l.iterable hi).map address
    exact (nodup_cons.1 (hp.nodup_iff.1 hd)).1 (mem_map_of_mem hin)
  · intro hn
    obtain ⟨m, hm⟩ := isSome_iff_exists.1 hn
    have hf := (ha.named (name child)).2 ⟨child, hc, rfl⟩
    simp only [genericInsertAt, ChunkListImpl.getNamed, hm, getD_some] at hf
    exact ((h.named m hm).isSome_findKey (name child)).1 hf

variable [DecidableEq α]

theorem Sound.step (h : l.Sound address name) (ho : l.Admissible address name op)
    (hk : l.KeepsViews address name op) : (l.step address name op).Sound address name := by
  obtain ⟨hd, hp⟩ := ho
  cases op with
  | add child => exact h.add child hd
  | remove child =>
    exact h.removed rfl rfl (fun c hc hne => (mem_erase_of_ne hne).2 hc) erase_sublist hk.1 hk.2
  | removeLast =>
    rw [ChunkListImpl.step, ChunkListImpl.removeLast]
    cases hlt : l.iterable.getLast? with
    | none => exact h
    | some last =>
      exact h.removed rfl rfl (fun c hc hne => mem_dropLast_of_mem_of_ne_getLast? hc (by simpa [hlt] using hne))
        (dropLast_sublist _) (fun _ => h.address_ne_last hlt) (hk last hlt)
  | insertAt index child => exact h.insert hp hd hk.1 hk.2
  | getSpatial => exact ⟨h.distinct, fun m hm => some.inj hm ▸ h.getSpatial, h.named⟩
  | getNamed => exact ⟨h.distinct, h.spatial, fun m hm => some.inj hm ▸ h.getNamed⟩
  | clearSpatial => exact ⟨h.distinct, nofun, h.named⟩
  | clearNamed => exact ⟨h.distinct, h.spatial, nofun⟩

theorem Sound.keepsViews_of_agree (h : l.Sound address name) (ho : l.Admissible address name op)
    (ha : (l.step address name op).Agree address name) : l.KeepsViews address name op := by
  obtain ⟨hd, hp⟩ := ho
  cases op with
  | remove child => exact ⟨ha.spatial_removed rfl, ha.named_removed rfl⟩
  | removeLast =>
    intro last hlt
    rw [ChunkListImpl.step, ChunkListImpl.removeLast, hlt] at ha
    exact ha.named_removed rfl
  | insertAt index child => exact h.of_agree_insert hp hd ha
  | add | getSpatial | getNamed | clearSpatial | clearNamed => trivial

/-! ## Runs -/

variable (address name)

/-- The addresses stay different, and insertions are within the list. -/
def AdmissibleRun (l : ChunkListImpl α κ ν) : List (Op α) → Prop
  | [] => True
  | op :: ops => l.Admissible address name op ∧ AdmissibleRun (l.step address name op) ops

/-- The views agree with the children before and after every operation of the run. -/
def AgreeThroughout (l : ChunkListImpl α κ ν) : List (Op α) → Prop
  | [] => l.Agree address name
  | op :: ops => l.Agree address name ∧ AgreeThroughout (l.step address name op) ops

/-- Every operation of the run keeps the views that there are. -/
def KeepsViewsThroughout (l : ChunkListImpl α κ ν) : List (Op α) → Prop
  | [] => True
  | op :: ops => l.KeepsViews address name op ∧ KeepsViewsThroughout (l.step address name op) ops

variable {address name}

theorem AgreeThroughout.head {l : ChunkListImpl α κ ν} (h : l.AgreeThroughout address name ops) :
    l.Agree address name := by
  cases ops with
  | nil => exact h
  | cons op ops => exact h.1

theorem Sound.agreeThroughout_iff {l : ChunkListImpl α κ ν} (h : l.Sound address name)
    (hs : l.AdmissibleRun address name ops) :
    l.AgreeThroughout address name ops ↔ l.KeepsViewsThroughout address name ops := by
  induction ops generalizing l with
  | nil => exact iff_of_true h.agree trivial
  | cons op ops ih =>
    obtain ⟨ho, hr⟩ := hs
    constructor
    · rintro ⟨-, ha⟩
      have hk := h.keepsViews_of_agree ho ha.head
      exact ⟨hk, (ih (h.step ho hk) hr).1 ha⟩
    · rintro ⟨hk, ht⟩
      exact ⟨h.agree, (ih (h.step ho hk) hr).2 ht⟩

/-- From a new list, the three views agree all along a run exactly if every operation of it keeps the
    views that exist when it is made. -/
theorem agreeThroughout_new_iff {α κ ν : Type} [LinearOrder κ] [LinearOrder ν] [DecidableEq α] (address : α → κ)
    (name : α → ν) (ops : List (Op α)) (hops : (new : ChunkListImpl α κ ν).AdmissibleRun address name ops) :
    (new : ChunkListImpl α κ ν).AgreeThroughout address name ops ↔
      (new : ChunkListImpl α κ ν).KeepsViewsThroughout address name ops :=
  (sound_new address name).agreeThroughout_iff hops

/-- Children are pairs of an address and a name. -/
theorem agreeThroughout_example :
    (new : ChunkListImpl (Nat × Nat) Nat Nat).AgreeThroughout Prod.fst Prod.snd
      [.add (1, 7), .insertAt 0 (2, 8), .getSpatial, .getNamed, .add (3, 7), .remove (2, 8)] := by
  refine (agreeThroughout_new_iff _ _ _ ?_).2 ?_
  · simp only [AdmissibleRun, Admissible]
    decide
  · simp only [KeepsViewsThroughout, KeepsViews]
    decide

/-- A child inserted after the first use of the spatial view is missed in it; and of two children of one name, the
    removal of one hides the other. -/
theorem views_disagree :
    (let l := ((new : ChunkListImpl (Nat × Nat) Nat Nat).step Prod.fst Prod.snd .getSpatial).step Prod.fst Prod.snd
        (.insertAt 0 (1, 7))
     l.iterable = [(1, 7)] ∧ l.getSpatial Prod.fst = []) ∧
    (let l := (((new : ChunkListImpl (Nat × Nat) Nat Nat).add Prod.fst Prod.snd (1, 7)).add Prod.fst Prod.snd (2, 7))
     let l := (l.step Prod.fst Prod.snd .getNamed).remove Prod.fst Prod.snd (1, 7)
     l.iterable = [(2, 7)] ∧ findKey 7 (l.getNamed Prod.snd) = none) := by
  decide

end ChunkListImpl

end Egalito.ChunkList
