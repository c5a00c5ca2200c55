/-
The components that SccOrder lists (`analysis/walker.h`) are the strongly connected ones, in the order of the links
between them.

The walk is a machine of `Lib.DepthFirst`. Three invariants follow its histories: which nodes are on the stack
(`Stacked`), what the low links say of them (`Lowered`), and that the links looked at lead to visited nodes
(`Explored`). They make a component of the segment that is taken off the stack; `gen_genFull_components` collects
these for every graph and start.
-/
import Egalito.Analysis.SccOrder
import Egalito.Analysis.Walker

namespace Egalito.SccOrder

open Lib Lib.DepthFirst List Prod
open Function (update update_of_ne update_self)
open Walker

variable {n : Nat}

def visit (targets : Fin n → List (Fin n)) (w : Walk n) : Event (Fin n) → Walk n
  | .tick => w
  | .enter id => enter w id
  | .late source target => lateVisit w source target
  | .leave id => postVisit targets w id

def walker (targets : Fin n → List (Fin n)) : DepthFirst.Walker (Fin n) (Walk n) where
  visited := Walk.visited
  step := visit targets
  visited_step w e := by
    cases e with
    | tick => rfl
    | enter id => rfl
    | late source target => exact lateVisit_visited source target
    | leave id => exact postVisit_visited

theorem walkHelper_eq_walk (targets : Fin n → List (Fin n)) : ∀ fuel w id,
    walkHelper targets fuel w id = walk (walker targets) targets .diverged fuel w id
  | 0, _, _ => rfl
  | fuel + 1, w, id => by
    have hlk : walkLink (walkHelper targets fuel) id =
        DepthFirst.walkLink (walker targets) (walk (walker targets) targets .diverged fuel) id := by
      funext w target
      rw [walkLink, DepthFirst.walkLink, walkHelper_eq_walk targets fuel]
      rfl
    rw [walkHelper, walk, hlk]
    rfl

theorem walkRoot_eq_walkRoot (targets : Fin n → List (Fin n)) (fuel : Nat) :
    walkRoot targets fuel = DepthFirst.walkRoot (walker targets) targets .diverged fuel := by
  funext w id
  rw [walkRoot, DepthFirst.walkRoot, walkHelper_eq_walk]
  rfl

/-! ## The stack -/

variable {targets : Fin n → List (Fin n)} {F : Frames (Fin n)} {w : Walk n} {v : Fin n} {done : List (Fin n)}

/-- The nodes whose component was found. -/
def Walk.closed (w : Walk n) : List (Fin n) := w.sccOrder.flatten

/-- The visited nodes are on the stack, the last one discovered first, or their component was found. The nodes of the
    frames are on the stack, the lowest one among them. -/
structure Stacked (F : Frames (Fin n)) (w : Walk n) : Prop where
  visited : ∀ a, w.visited a = true ↔ a ∈ w.stack ∨ a ∈ w.closed
  onStack : ∀ a, w.onStack a = true ↔ a ∈ w.stack
  nodup : (w.stack ++ w.closed).Nodup
  descending : w.stack.Pairwise fun a b => w.discovery b < w.discovery a
  before : ∀ a, w.visited a = true → w.discovery a < w.disc
  frames : (F.map Prod.fst).Sublist w.stack
  bottom : ∀ a ∈ w.stack, ∃ g ∈ F.map Prod.fst, w.discovery g ≤ w.discovery a

variable {a t g : Fin n}

theorem Stacked.mem_stack (h : Stacked F w) (hg : g ∈ F.map fst) : g ∈ w.stack := h.frames.subset hg

theorem Stacked.visited_of_mem (h : Stacked F w) (ha : a ∈ w.stack) : w.visited a = true :=
  (h.visited a).2 (.inl ha)

theorem Stacked.not_closed (h : Stacked F w) (ha : a ∈ w.stack) : a ∉ w.closed :=
  fun hc => (nodup_append.1 h.nodup).2.2 a ha a hc rfl

theorem Stacked.lt_top (h : Stacked ((v, done) :: F) w) (hg : g ∈ F.map fst) : w.discovery g < w.discovery v :=
  (pairwise_cons.1 (h.descending.sublist h.frames)).1 g hg

theorem Stacked.top_mem (h : Stacked ((v, done) :: F) w) : v ∈ w.stack := h.mem_stack mem_cons_self

/-- The stack above and below a node of it. -/
structure Cut (w : Walk n) (v : Fin n) (A B : List (Fin n)) : Prop where
  stack : w.stack = A ++ v :: B
  above : ∀ a ∈ A, w.discovery v < w.discovery a
  below : ∀ b ∈ B, w.discovery b < w.discovery v

theorem Stacked.exists_cut (h : Stacked F w) (hv : v ∈ w.stack) : ∃ A B, Cut w v A B := by
  obtain ⟨A, B, hs⟩ := append_of_mem hv
  have hd := h.descending
  rw [hs, pairwise_append] at hd
  obtain ⟨-, hb, hav⟩ := hd
  refine ⟨A, B, hs, ?_, (pairwise_cons.1 hb).1⟩
  intro a ha
  exact hav a ha v mem_cons_self

theorem Cut.mem_segment {A B} (h : Cut w v A B) (ha : a ∈ w.stack) : a ∈ v :: A ↔ w.discovery v ≤ w.discovery a := by
  constructor
  · intro hm
    rcases mem_cons.1 hm with rfl | hm
    · exact le_refl _
    · exact (h.above a hm).le
  · intro hle
    rw [h.stack] at ha
    rcases mem_append.1 ha with ha | ha
    · exact mem_cons_of_mem v ha
    · rcases mem_cons.1 ha with rfl | ha
      · exact mem_cons_self
      · exact absurd (h.below a ha) (Nat.not_lt.2 hle)

theorem Cut.mem_rest {A B} (h : Cut w v A B) (ha : a ∈ w.stack) : a ∈ B ↔ w.discovery a < w.discovery v := by
  constructor
  · exact h.below a
  · intro hlt
    rw [h.stack] at ha
    rcases mem_append.1 ha with ha | ha
    · exact absurd (h.above a ha) (Nat.not_lt.2 hlt.le)
    · rcases mem_cons.1 ha with rfl | ha
      · exact absurd hlt (lt_irrefl _)
      · exact ha

theorem Cut.segment_subset {A B} (h : Cut w v A B) (ha : a ∈ v :: A) : a ∈ w.stack := by
  rw [h.stack, mem_append, mem_cons]
  rcases mem_cons.1 ha with rfl | ha
  · exact .inr (.inl rfl)
  · exact .inl ha

theorem Cut.rest_subset {A B} (h : Cut w v A B) (ha : a ∈ B) : a ∈ w.stack := by
  rw [h.stack]
  exact mem_append_right _ (mem_cons_of_mem v ha)

/-! ## The low links -/

/-- What is known of the low links, in a state where the nodes on the stack that are not in the frames have been left. -/
structure Lowered (targets : Fin n → List (Fin n)) (F : Frames (Fin n)) (w : Walk n) : Prop where
  /-- An open node reaches all nodes above it on the stack. -/
  reach : ∀ g ∈ F.map Prod.fst, ∀ a ∈ w.stack, w.discovery g ≤ w.discovery a → Reaches targets g a
  le : ∀ a ∈ w.stack, w.lowLink a ≤ w.discovery a
  /-- A low link is the discovery of a node on the stack that can be reached. -/
  low : ∀ a ∈ w.stack, ∃ b ∈ w.stack, w.lowLink a = w.discovery b ∧ Reaches targets a b
  lt : ∀ a ∈ w.stack, a ∉ F.map Prod.fst → w.lowLink a < w.discovery a
  /-- Above an open node each node on the stack has a link to it from one below it that is not below the open one. -/
  parent : ∀ a ∈ w.stack, ∀ g ∈ F.map Prod.fst, w.discovery g < w.discovery a →
    ∃ p ∈ w.stack, a ∈ targets p ∧ w.discovery g ≤ w.discovery p ∧ w.discovery p < w.discovery a
  later : ∀ a ∈ w.stack, a ∉ F.map Prod.fst → ∀ t ∈ targets a, w.discovery a < w.discovery t →
    t ∉ F.map Prod.fst ∧ w.lowLink a ≤ w.lowLink t
  earlier : ∀ a ∈ w.stack, a ∉ F.map Prod.fst → ∀ t ∈ targets a, t ∈ w.stack → w.discovery t < w.discovery a →
    w.lowLink a ≤ w.discovery t
  done : ∀ f ∈ F, ∀ t ∈ f.2, t ∈ w.stack → w.discovery t < w.discovery f.1 → w.lowLink f.1 ≤ w.discovery t
  closed : ∀ t ∈ w.closed, ∀ g ∈ F.map Prod.fst, w.discovery g < w.discovery t → w.discovery g < w.lowLink t

/-- The links that were looked at lead to nodes that were visited. -/
structure Explored (targets : Fin n → List (Fin n)) (F : Frames (Fin n)) (w : Walk n) : Prop where
  left : ∀ a, w.visited a = true → a ∉ F.map Prod.fst → ∀ t ∈ targets a, w.visited t = true
  done : ∀ f ∈ F, ∀ t ∈ f.2, w.visited t = true

/-- The node that is entered has a link from the top frame, if there are frames. -/
theorem Stacked.exists_top {roots} (h : Stacked F w) (hn : Next targets roots F v)
    (hg : g ∈ F.map fst) : ∃ u ∈ w.stack, v ∈ targets u ∧ w.discovery g ≤ w.discovery u := by
  cases hn with
  | root => simp at hg
  | @link u _ done rest F hlk =>
    refine ⟨u, h.top_mem, by simp [hlk], ?_⟩
    rcases mem_cons.1 hg with rfl | hb
    · exact le_refl _
    · exact (h.lt_top hb).le

/-! ## Entering -/

section Enter

variable (hnew : w.visited v = false)
include hnew

theorem enter_discovery (ha : w.visited a = true) : (enter w v).discovery a = w.discovery a := by
  refine update_of_ne ?_ _ _
  rintro rfl
  rw [hnew] at ha
  cases ha

theorem enter_lowLink (ha : w.visited a = true) : (enter w v).lowLink a = w.lowLink a := by
  refine update_of_ne ?_ _ _
  rintro rfl
  rw [hnew] at ha
  cases ha

omit hnew in
theorem enter_discovery_self : (enter w v).discovery v = w.disc := update_self ..

omit hnew in
theorem enter_lowLink_self : (enter w v).lowLink v = w.disc := update_self ..

theorem Stacked.enter (h : Stacked F w) : Stacked ((v, []) :: F) (enter w v) := by
  have hf : v ∉ w.stack ∧ v ∉ w.closed := by
    constructor
    · intro hv
      rw [h.visited_of_mem hv] at hnew
      cases hnew
    · intro hv
      rw [(h.visited v).2 (.inr hv)] at hnew
      cases hnew
  constructor
  · intro a
    show update w.visited v true a = true ↔ a ∈ v :: w.stack ∨ a ∈ w.closed
    by_cases ha : a = v
    · simp [ha]
    · rw [update_of_ne ha, h.visited a, mem_cons, or_iff_right ha]
  · intro a
    show update w.onStack v true a = true ↔ a ∈ v :: w.stack
    by_cases ha : a = v
    · simp [ha]
    · rw [update_of_ne ha, h.onStack a, mem_cons, or_iff_right ha]
  · show (v :: (w.stack ++ w.closed)).Nodup
    refine nodup_cons.2 ⟨?_, h.nodup⟩
    rw [mem_append, not_or]
    exact hf
  · refine List.Pairwise.cons ?_ (h.descending.imp_of_mem fun {a b} ha hb hlt => ?_)
    · intro b hb
      rw [enter_discovery hnew (h.visited_of_mem hb), enter_discovery_self]
      exact h.before b (h.visited_of_mem hb)
    · rwa [enter_discovery hnew (h.visited_of_mem ha), enter_discovery hnew (h.visited_of_mem hb)]
  · intro a ha
    by_cases hav : a = v
    · rw [hav, enter_discovery_self]
      exact Nat.lt_succ_self _
    · have ha' : w.visited a = true := (update_of_ne hav _ _).symm.trans ha
      rw [enter_discovery hnew ha']
      exact Nat.lt_succ_of_lt (h.before a ha')
  · exact h.frames.cons_cons v
  · intro a ha
    rcases mem_cons.1 ha with rfl | ha
    · exact ⟨a, mem_cons_self, le_refl _⟩
    · obtain ⟨g, hg, hle⟩ := h.bottom a ha
      refine ⟨g, mem_cons_of_mem v hg, ?_⟩
      rwa [enter_discovery hnew (h.visited_of_mem (h.mem_stack hg)), enter_discovery hnew (h.visited_of_mem ha)]

theorem Lowered.enter {roots} (hs : Stacked F w) (he : Explored targets F w) (h : Lowered targets F w)
    (hn : Next targets roots F v) : Lowered targets ((v, []) :: F) (enter w v) := by
  have ho : ∀ {a}, a ∈ w.stack → (SccOrder.enter w v).discovery a = w.discovery a :=
    fun ha => enter_discovery hnew (hs.visited_of_mem ha)
  have hlo : ∀ {a}, a ∈ w.stack → (SccOrder.enter w v).lowLink a = w.lowLink a :=
    fun ha => enter_lowLink hnew (hs.visited_of_mem ha)
  have hm : ∀ {g}, g ∈ F.map fst → (SccOrder.enter w v).discovery g = w.discovery g :=
    fun hg => ho (hs.mem_stack hg)
  have hlt : ∀ {a}, a ∈ w.stack → w.discovery a < w.disc := fun ha => hs.before _ (hs.visited_of_mem ha)
  constructor
  case reach =>
    intro g hg a ha hle
    rcases mem_cons.1 hg with rfl | hgF
    · rcases mem_cons.1 ha with rfl | has
      · exact .refl
      · rw [enter_discovery_self, ho has] at hle
        exact absurd (hlt has) (Nat.not_lt.2 hle)
    · rcases mem_cons.1 ha with rfl | has
      · obtain ⟨u, hu, hlk, hgu⟩ := hs.exists_top hn hgF
        exact (h.reach g hgF u hu hgu).tail hlk
      · rw [hm hgF, ho has] at hle
        exact h.reach g hgF a has hle
  case le =>
    intro a ha
    rcases mem_cons.1 ha with rfl | ha
    · rw [enter_lowLink_self, enter_discovery_self]
    · rw [hlo ha, ho ha]
      exact h.le a ha
  case low =>
    intro a ha
    rcases mem_cons.1 ha with rfl | ha
    · exact ⟨a, mem_cons_self, by rw [enter_lowLink_self, enter_discovery_self], .refl⟩
    · obtain ⟨b, hb, heq, hr⟩ := h.low a ha
      exact ⟨b, mem_cons_of_mem v hb, by rw [hlo ha, ho hb, heq], hr⟩
  case lt =>
    intro a ha hot
    rw [map_cons, mem_cons, not_or] at hot
    have ha := (mem_cons.1 ha).resolve_left hot.1
    rw [hlo ha, ho ha]
    exact h.lt a ha hot.2
  case parent =>
    intro a ha g hg hga
    rcases mem_cons.1 ha with rfl | has
    · rcases mem_cons.1 hg with rfl | hgF
      · exact absurd hga (lt_irrefl _)
      · obtain ⟨u, hu, hlk, hgu⟩ := hs.exists_top hn hgF
        refine ⟨u, mem_cons_of_mem a hu, hlk, by rwa [hm hgF, ho hu], ?_⟩
        rw [ho hu, enter_discovery_self]
        exact hlt hu
    · rcases mem_cons.1 hg with rfl | hgF
      · rw [enter_discovery_self, ho has] at hga
        exact absurd (hlt has) (Nat.not_lt.2 hga.le)
      · rw [hm hgF, ho has] at hga
        obtain ⟨p, hp, hlk, hgp, hpa⟩ := h.parent a has g hgF hga
        exact ⟨p, mem_cons_of_mem v hp, hlk, by rwa [hm hgF, ho hp], by rwa [ho hp, ho has]⟩
  case later =>
    intro a ha hot t ht hat
    rw [map_cons, mem_cons, not_or] at hot
    have ha := (mem_cons.1 ha).resolve_left hot.1
    -- the targets of a node that was left were visited before
    have hv := he.left a (hs.visited_of_mem ha) hot.2 t ht
    rw [ho ha, enter_discovery hnew hv] at hat
    obtain ⟨hy, hle⟩ := h.later a ha hot.2 t ht hat
    rw [map_cons, mem_cons, not_or, hlo ha, enter_lowLink hnew hv]
    refine ⟨⟨?_, hy⟩, hle⟩
    rintro rfl
    rw [hnew] at hv
    cases hv
  case earlier =>
    intro a ha hot t ht hts hta
    rw [map_cons, mem_cons, not_or] at hot
    have ha := (mem_cons.1 ha).resolve_left hot.1
    have hv := he.left a (hs.visited_of_mem ha) hot.2 t ht
    rcases mem_cons.1 hts with rfl | hts
    · rw [hnew] at hv
      cases hv
    · rw [ho ha, ho hts] at hta
      rw [hlo ha, ho hts]
      exact h.earlier a ha hot.2 t ht hts hta
  case done =>
    intro f hf t ht hts htf
    rcases mem_cons.1 hf with rfl | hfF
    · cases ht
    · have hfs : f.1 ∈ F.map fst := mem_map_of_mem hfF
      have hv := he.done f hfF t ht
      rcases mem_cons.1 hts with rfl | hw
      · rw [hnew] at hv
        cases hv
      · rw [hm hfs, ho hw] at htf
        rw [hlo (hs.mem_stack hfs), ho hw]
        exact h.done f hfF t ht hw htf
  case closed =>
    intro t ht g hg hgt
    have hv := (hs.visited t).2 (.inr ht)
    rw [enter_discovery hnew hv] at hgt
    rcases mem_cons.1 hg with rfl | hg
    · rw [enter_discovery_self] at hgt
      exact absurd (hs.before t hv) (Nat.not_lt.2 hgt.le)
    · rw [hm hg] at hgt ⊢
      rw [enter_lowLink hnew hv]
      exact h.closed t ht g hg hgt

end Enter

/-! ## A smaller low link for the top frame -/

def Walk.setLow (w : Walk n) (v : Fin n) (m : Nat) : Walk n := { w with lowLink := update w.lowLink v m }

theorem setLow_self (m) : (w.setLow v m).lowLink v = m := update_self ..

theorem setLow_other (m) (h : a ≠ v) : (w.setLow v m).lowLink a = w.lowLink a :=
  update_of_ne h ..

theorem Stacked.setLow (h : Stacked F w) (m) : Stacked F (w.setLow v m) :=
  ⟨h.visited, h.onStack, h.nodup, h.descending, h.before, h.frames, h.bottom⟩

theorem Lowered.setLow {m} (hs : Stacked ((v, done) :: F) w) (hnd : (((v, done) :: F).map fst).Nodup)
    (h : Lowered targets ((v, done) :: F) w) (hm : m ≤ w.lowLink v)
    (hb : ∃ b ∈ w.stack, m = w.discovery b ∧ Reaches targets v b) :
    Lowered targets ((v, done) :: F) (w.setLow v m) := by
  have hy : ∀ {a}, a ∉ ((v, done) :: F).map fst → a ≠ v := by
    rintro a ha rfl
    exact ha mem_cons_self
  constructor
  case reach => exact h.reach
  case parent => exact h.parent
  case le =>
    intro a ha
    by_cases hv : a = v
    · subst hv
      rw [setLow_self]
      exact hm.trans (h.le a ha)
    · rw [setLow_other m hv]
      exact h.le a ha
  case low =>
    intro a ha
    by_cases hv : a = v
    · subst hv
      rw [setLow_self]
      exact hb
    · rw [setLow_other m hv]
      exact h.low a ha
  case lt =>
    intro a ha ho
    rw [setLow_other m (hy ho)]
    exact h.lt a ha ho
  case later =>
    intro a ha ho t ht hat
    obtain ⟨hr, hle⟩ := h.later a ha ho t ht hat
    rw [setLow_other m (hy ho), setLow_other m (hy hr)]
    exact ⟨hr, hle⟩
  case earlier =>
    intro a ha ho t ht hts hta
    rw [setLow_other m (hy ho)]
    exact h.earlier a ha ho t ht hts hta
  case done =>
    intro f hf t ht hts htf
    rcases mem_cons.1 hf with rfl | hf
    · rw [setLow_self]
      exact hm.trans (h.done _ mem_cons_self t ht hts htf)
    · have hfs : f.1 ∈ F.map fst := mem_map_of_mem hf
      have hne : f.1 ≠ v := fun heq => (nodup_cons.1 hnd).1 (heq ▸ hfs)
      rw [setLow_other m hne]
      exact h.done f (mem_cons_of_mem _ hf) t ht hts htf
  case closed =>
    intro t ht g hg hgt
    have hne : t ≠ v := by
      rintro rfl
      exact hs.not_closed hs.top_mem ht
    rw [setLow_other m hne]
    exact h.closed t ht g hg hgt

theorem Lowered.late {rest} (hs : Stacked ((v, done) :: F) w)
    (hnd : (((v, done) :: F).map fst).Nodup) (h : Lowered targets ((v, done) :: F) w)
    (hlk : targets v = done ++ t :: rest) : Lowered targets ((v, done ++ [t]) :: F) (lateVisit w v t) := by
  have hm : ∀ w' : Walk n, Lowered targets ((v, done) :: F) w' →
      (t ∈ w'.stack → w'.discovery t < w'.discovery v → w'.lowLink v ≤ w'.discovery t) →
        Lowered targets ((v, done ++ [t]) :: F) w' := by
    intro w' h' ht
    refine ⟨h'.reach, h'.le, h'.low, h'.lt, h'.parent, h'.later, h'.earlier, ?_, h'.closed⟩
    intro f hf t' ht'
    rcases mem_cons.1 hf with rfl | hf
    · rcases mem_append.1 ht' with ht' | ht'
      · exact h'.done _ mem_cons_self t' ht'
      · rw [mem_singleton.1 ht']
        exact ht
    · exact h'.done f (mem_cons_of_mem _ hf) t' ht'
  unfold lateVisit
  split
  · next ho =>
    have hts := (hs.onStack t).1 ho
    have hlo : Lowered targets ((v, done) :: F) (w.setLow v (min (w.lowLink v) (w.discovery t))) := by
      refine h.setLow hs hnd (Nat.min_le_left _ _) ?_
      rcases Nat.le_total (w.lowLink v) (w.discovery t) with hle | hle
      · rw [Nat.min_eq_left hle]
        exact h.low v hs.top_mem
      · rw [Nat.min_eq_right hle]
        exact ⟨t, hts, rfl, .single (by simp [hlk])⟩
    refine hm _ hlo ?_
    intro _ _
    show (w.setLow v _).lowLink v ≤ w.discovery t
    rw [setLow_self]
    exact Nat.min_le_right _ _
  · next ho =>
    refine hm w h ?_
    intro hts
    exact absurd ((hs.onStack t).2 hts) ho

theorem Stacked.late (h : Stacked ((v, done) :: F) w) : Stacked ((v, done ++ [t]) :: F) (lateVisit w v t) := by
  have hf : ∀ w' : Walk n, Stacked ((v, done) :: F) w' → Stacked ((v, done ++ [t]) :: F) w' :=
    fun w' h' => ⟨h'.visited, h'.onStack, h'.nodup, h'.descending, h'.before, h'.frames, h'.bottom⟩
  unfold lateVisit
  split
  · exact hf _ (h.setLow _)
  · exact hf w h

theorem foldl_lowerLink_eq : ∀ (l : List (Fin n)) (w : Walk n), ∃ m, l.foldl (lowerLink v) w = w.setLow v m ∧
    m ≤ w.lowLink v ∧ (∀ t ∈ l, w.discovery v < w.discovery t → m ≤ w.lowLink t) ∧
    (m = w.lowLink v ∨ ∃ t ∈ l, w.discovery v < w.discovery t ∧ m = w.lowLink t)
  | [], w => ⟨w.lowLink v, by rw [Walk.setLow, Function.update_eq_self]; rfl, le_refl _, by simp, .inl rfl⟩
  | t :: l, w => by
    by_cases hlt : w.discovery v < w.discovery t
    · have hp : lowerLink v w t = w.setLow v (min (w.lowLink v) (w.lowLink t)) := if_pos hlt
      have hne : ∀ {t'}, w.discovery v < w.discovery t' → t' ≠ v := by
        rintro t' hl' rfl
        exact lt_irrefl _ hl'
      obtain ⟨m, heq, hle, ha, hs⟩ := foldl_lowerLink_eq l (w.setLow v (min (w.lowLink v) (w.lowLink t)))
      rw [setLow_self] at hle hs
      refine ⟨m, ?_, hle.trans (Nat.min_le_left _ _), ?_, ?_⟩
      · rw [foldl_cons, hp, heq, Walk.setLow, Walk.setLow, Walk.setLow]
        simp
      · intro t' ht' hl'
        rcases mem_cons.1 ht' with rfl | ht'
        · exact hle.trans (Nat.min_le_right _ _)
        · have hm := ha t' ht' hl'
          rwa [setLow_other _ (hne hl')] at hm
      · rcases hs with rfl | ⟨t', ht', hl', hm⟩
        · rcases Nat.le_total (w.lowLink v) (w.lowLink t) with hn | hn
          · exact .inl (Nat.min_eq_left hn)
          · exact .inr ⟨t, mem_cons_self, hlt, Nat.min_eq_right hn⟩
        · rw [setLow_other _ (hne hl')] at hm
          exact .inr ⟨t', mem_cons_of_mem t ht', hl', hm⟩
    · have hp : lowerLink v w t = w := if_neg hlt
      obtain ⟨m, heq, hle, ha, hs⟩ := foldl_lowerLink_eq l w
      refine ⟨m, by rw [foldl_cons, hp, heq], hle, ?_, ?_⟩
      · intro t' ht' hl'
        rcases mem_cons.1 ht' with rfl | ht'
        · exact absurd hl' hlt
        · exact ha t' ht' hl'
      · exact hs.imp_right fun ⟨t', ht', hl', hm⟩ => ⟨t', mem_cons_of_mem t ht', hl', hm⟩

/-- The state before the node is taken off: its low link takes those of later targets into account. -/
structure Ready (targets : Fin n → List (Fin n)) (F : Frames (Fin n)) (v : Fin n) (w : Walk n) : Prop where
  stacked : Stacked ((v, targets v) :: F) w
  lowered : Lowered targets ((v, targets v) :: F) w
  explored : Explored targets ((v, targets v) :: F) w
  nodup : (((v, targets v) :: F).map Prod.fst).Nodup
  top : ∀ t ∈ targets v, w.discovery v < w.discovery t → w.lowLink v ≤ w.lowLink t

theorem ready_foldl (hs : Stacked ((v, targets v) :: F) w) (hnd : (((v, targets v) :: F).map fst).Nodup)
    (he : Explored targets ((v, targets v) :: F) w) (h : Lowered targets ((v, targets v) :: F) w) :
    ∃ m, (targets v).foldl (lowerLink v) w = w.setLow v m ∧ Ready targets F v (w.setLow v m) := by
  obtain ⟨m, heq, hle, ha, hm⟩ := foldl_lowerLink_eq (v := v) (targets v) w
  have hb : ∃ b ∈ w.stack, m = w.discovery b ∧ Reaches targets v b := by
    rcases hm with rfl | ⟨t, ht, hlt, rfl⟩
    · exact h.low v hs.top_mem
    · rcases (hs.visited t).1 (he.done _ mem_cons_self t ht) with hts | hc
      · obtain ⟨b, hb, hlo, hr⟩ := h.low t hts
        exact ⟨b, hb, hlo, .head ht hr⟩
      · -- the low link of a node whose component was found is no smaller
        have ht' := h.closed t hc v mem_cons_self hlt
        have hl' := h.le v hs.top_mem
        omega
  refine ⟨m, heq, hs.setLow m, h.setLow hs hnd hle hb, ⟨he.left, he.done⟩, hnd, ?_⟩
  intro t ht hlt
  have hne : t ≠ v := by
    rintro rfl
    exact lt_irrefl _ hlt
  rw [setLow_self, setLow_other m hne]
  exact ha t ht hlt

/-! ## Leaving a node that stays on the stack -/

theorem Stacked.leave (h : Ready targets F v w) (hne : w.discovery v ≠ w.lowLink v) (l) :
    Stacked (advance v F) { w with poStack := l } := by
  have hs := h.stacked
  refine ⟨hs.visited, hs.onStack, hs.nodup, hs.descending, hs.before, ?_, ?_⟩
  · rw [advance_fst]
    exact (sublist_cons_self v _).trans hs.frames
  · intro a ha
    rw [advance_fst]
    obtain ⟨g, hg, hga⟩ := hs.bottom a ha
    by_cases hv : g = v
    · -- the low link of the node leads below it
      obtain ⟨b, hb, hlo, -⟩ := h.lowered.low v hs.top_mem
      have hle := h.lowered.le v hs.top_mem
      obtain ⟨g', hg', hgb⟩ := hs.bottom b hb
      have hlt : w.discovery g' < w.discovery v := by omega
      have hg'v : g' ≠ v := by
        rintro rfl
        exact lt_irrefl _ hlt
      refine ⟨g', (mem_cons.1 hg').resolve_left hg'v, ?_⟩
      rw [hv] at hga
      exact hlt.le.trans hga
    · exact ⟨g, (mem_cons.1 hg).resolve_left hv, hga⟩

theorem Lowered.leave (h : Ready targets F v w) (hne : w.discovery v ≠ w.lowLink v) (l) :
    Lowered targets (advance v F) { w with poStack := l } := by
  have hl := h.lowered
  have hs := h.stacked
  have hfm : ∀ {g}, g ∈ (advance v F).map fst → g ∈ F.map fst := by
    intro g hg
    rwa [advance_fst] at hg
  have ho : ∀ {a}, a ∉ (advance v F).map fst → a = v ∨ a ∉ ((v, targets v) :: F).map fst := by
    intro a ha
    rw [advance_fst] at ha
    by_cases hv : a = v
    · exact .inl hv
    · exact .inr fun hm => ha ((mem_cons.1 hm).resolve_left hv)
  have hp := hs.top_mem
  refine ⟨?_, hl.le, hl.low, ?_, ?_, ?_, ?_, ?_, ?_⟩
  · intro g hg
    exact hl.reach g (mem_cons_of_mem v (hfm hg))
  · intro a ha hn
    rcases ho hn with rfl | hn
    · exact lt_of_le_of_ne (hl.le a ha) (Ne.symm hne)
    · exact hl.lt a ha hn
  · intro a ha g hg
    exact hl.parent a ha g (mem_cons_of_mem v (hfm hg))
  · intro a ha hn t ht hat
    rcases ho hn with rfl | hn
    · refine ⟨?_, h.top t ht hat⟩
      intro hm
      exact absurd (hs.lt_top (hfm hm)) (Nat.not_lt.2 (le_of_lt hat))
    · obtain ⟨hy, hle⟩ := hl.later a ha hn t ht hat
      exact ⟨fun hm => hy (mem_cons_of_mem v (hfm hm)), hle⟩
  · intro a ha hn t ht
    rcases ho hn with rfl | hn
    · exact hl.done _ mem_cons_self t ht
    · exact hl.earlier a ha hn t ht
  · intro f hf t ht hts htf
    match F, hs, hl, hf with
    | (u, done) :: F, hs, hl, hf =>
      rcases mem_cons.1 hf with rfl | hfF
      · rcases mem_append.1 ht with ht | ht
        · exact hl.done (u, done) (by simp) t ht hts htf
        · -- the node itself was discovered after its parent
          rw [mem_singleton.1 ht] at htf
          exact absurd (hs.lt_top mem_cons_self) (Nat.not_lt.2 (le_of_lt htf))
      · exact hl.done f (by simp [hfF]) t ht hts htf
  · intro t ht g hg
    exact hl.closed t ht g (mem_cons_of_mem v (hfm hg))

/-! ## The component of a node whose low link is its own discovery -/

def Mutual (targets : Fin n → List (Fin n)) (a b : Fin n) : Prop := Reaches targets a b ∧ Reaches targets b a

/-- The links of a component lead to itself or to components behind it. -/
def Ordered (targets : Fin n → List (Fin n)) : List (List (Fin n)) → Prop
  | [] => True
  | C :: L => (∀ a ∈ C, ∀ t ∈ targets a, t ∈ C ∨ t ∈ L.flatten) ∧ Ordered targets L

structure Found (targets : Fin n → List (Fin n)) (comps : List (List (Fin n))) : Prop where
  exact : ∀ C ∈ comps, C ≠ [] ∧ ∀ a ∈ C, ∀ b, b ∈ C ↔ Mutual targets a b
  ordered : Ordered targets comps

theorem Ordered.target : ∀ {comps}, Ordered targets comps → ∀ a ∈ comps.flatten, ∀ t ∈ targets a, t ∈ comps.flatten
  | C :: L, h, a, ha, t, ht => by
    rw [flatten_cons, mem_append] at ha ⊢
    rcases ha with ha | ha
    · exact h.1 a ha t ht
    · exact .inr (Ordered.target h.2 a ha t ht)

theorem Ordered.reaches {comps b} (h : Ordered targets comps) (ha : a ∈ comps.flatten)
    (hab : Reaches targets a b) : b ∈ comps.flatten := by
  induction hab with
  | refl => exact ha
  | tail _ hlk ih => exact h.target _ ih _ hlk

section Segment

variable {A B : List (Fin n)} (h : Ready targets F v w) (hct : Cut w v A B) (hrt : w.discovery v = w.lowLink v)
include h hct

theorem Ready.left_of_mem (ha : a ∈ A) : a ∉ ((v, targets v) :: F).map fst := by
  have hlt := hct.above a ha
  intro hm
  rcases mem_cons.1 hm with rfl | hm
  · exact lt_irrefl _ hlt
  · exact Nat.lt_asymm hlt (h.stacked.lt_top hm)

include hrt

theorem Ready.segment_low : ∀ k {a}, w.discovery a = k → a ∈ v :: A → w.discovery v ≤ w.lowLink a := by
  intro k
  induction k using Nat.strong_induction_on with
  | _ k ih =>
    intro a hk ha
    rcases mem_cons.1 ha with rfl | haA
    · exact hrt.le
    · have has := hct.segment_subset ha
      obtain ⟨p, hp, hlk, hv, hpa⟩ := h.lowered.parent a has v mem_cons_self (hct.above a haA)
      have hg := (hct.mem_segment hp).2 hv
      have hlo := ih (w.discovery p) (hk ▸ hpa) rfl hg
      rcases mem_cons.1 hg with rfl | hpA
      · exact hlo.trans (h.top a hlk (hct.above a haA))
      · exact hlo.trans (h.lowered.later p hp (h.left_of_mem hct hpA) a hlk hpa).2

theorem Ready.segment_reaches : ∀ k {a}, w.discovery a = k → a ∈ v :: A → Reaches targets a v := by
  intro k
  induction k using Nat.strong_induction_on with
  | _ k ih =>
    intro a hk ha
    rcases mem_cons.1 ha with rfl | haA
    · exact .refl
    · have has := hct.segment_subset ha
      obtain ⟨b, hb, hlo, hr⟩ := h.lowered.low a has
      have hlt := h.lowered.lt a has (h.left_of_mem hct haA)
      have hge := h.segment_low hct hrt _ rfl ha
      have hg := (hct.mem_segment hb).2 (hlo ▸ hge)
      exact hr.trans (ih (w.discovery b) (by omega) rfl hg)

theorem Ready.segment_target (ha : a ∈ v :: A) (ht : t ∈ targets a) : t ∈ v :: A ∨ t ∈ w.closed := by
  have has := hct.segment_subset ha
  have hlo := h.segment_low hct hrt _ rfl ha
  have hv := (hct.mem_segment has).1 ha
  have hvs : w.visited t = true := by
    rcases mem_cons.1 ha with rfl | haA
    · exact h.explored.done _ mem_cons_self t ht
    · exact h.explored.left a (h.stacked.visited_of_mem has) (h.left_of_mem hct haA) t ht
  rcases (h.stacked.visited t).1 hvs with hs | hc
  · refine .inl ((hct.mem_segment hs).2 ?_)
    by_contra hbelow
    have hta : w.discovery t < w.discovery a := by omega
    have hle : w.lowLink a ≤ w.discovery t := by
      rcases mem_cons.1 ha with rfl | haA
      · exact h.lowered.done _ mem_cons_self t ht hs hta
      · exact h.lowered.earlier a has (h.left_of_mem hct haA) t ht hs hta
    omega
  · exact .inr hc

/-- The segment is a strongly connected component. -/
theorem Ready.segment_mutual (hf : Found targets w.sccOrder) {b} (ha : a ∈ v :: A) :
    b ∈ v :: A ↔ Mutual targets a b := by
  have hd : ∀ {a}, a ∈ v :: A → Reaches targets v a := by
    intro a ha
    have has := hct.segment_subset ha
    exact h.lowered.reach v mem_cons_self a has ((hct.mem_segment has).1 ha)
  constructor
  · intro hb
    constructor
    · exact (h.segment_reaches hct hrt _ rfl ha).trans (hd hb)
    · exact (h.segment_reaches hct hrt _ rfl hb).trans (hd ha)
  · rintro ⟨hab, hba⟩
    have hr : b ∈ v :: A ∨ b ∈ w.closed := by
      induction hab with
      | refl => exact .inl ha
      | tail _ hlk ih =>
        rcases ih (.head hlk hba) with hin | hc
        · exact h.segment_target hct hrt hin hlk
        · exact .inr (hf.ordered.target _ hc _ hlk)
    refine hr.resolve_right fun hc => ?_
    exact h.stacked.not_closed (hct.segment_subset ha) (hf.ordered.reaches hc hba)

end Segment

/-! ## The second stack -/

/-- The second stack has the nodes of the first one that were left; those above an open node come before those below. -/
structure Posted (F : Frames (Fin n)) (w : Walk n) : Prop where
  mem : ∀ a, a ∈ w.poStack ↔ a ∈ w.stack ∧ a ∉ F.map Prod.fst
  nodup : w.poStack.Nodup
  split : w.poStack.Pairwise fun a b => ∀ g ∈ F.map Prod.fst, w.discovery a < w.discovery g → w.discovery b < w.discovery g

theorem Posted.enter (hs : Stacked F w) (hnew : w.visited v = false) (h : Posted F w) :
    Posted ((v, []) :: F) (enter w v) := by
  have hf : v ∉ w.stack := by
    intro hv
    rw [hs.visited_of_mem hv] at hnew
    cases hnew
  have hvs : ∀ {a}, a ∈ w.poStack → w.visited a = true := fun ha => hs.visited_of_mem ((h.mem _).1 ha).1
  constructor
  · intro a
    show a ∈ w.poStack ↔ a ∈ v :: w.stack ∧ a ∉ v :: F.map fst
    rw [h.mem a, mem_cons, mem_cons, not_or]
    constructor
    · rintro ⟨ha, ho⟩
      exact ⟨.inr ha, fun heq => hf (heq ▸ ha), ho⟩
    · rintro ⟨ha, hne, ho⟩
      exact ⟨ha.resolve_left hne, ho⟩
  · exact h.nodup
  · refine h.split.imp_of_mem fun {a b} ha hb hab g hg => ?_
    rw [enter_discovery hnew (hvs ha), enter_discovery hnew (hvs hb)]
    rcases mem_cons.1 hg with rfl | hgF
    · intro _
      rw [enter_discovery_self]
      exact hs.before b (hvs hb)
    · rw [enter_discovery hnew (hs.visited_of_mem (hs.mem_stack hgF))]
      exact hab g hgF

theorem Posted.setLow (h : Posted F w) (m) : Posted F (w.setLow v m) := ⟨h.mem, h.nodup, h.split⟩

theorem Posted.late (h : Posted ((v, done) :: F) w) : Posted ((v, done ++ [t]) :: F) (lateVisit w v t) := by
  have hf : ∀ w' : Walk n, Posted ((v, done) :: F) w' → Posted ((v, done ++ [t]) :: F) w' :=
    fun w' h' => ⟨h'.mem, h'.nodup, h'.split⟩
  unfold lateVisit
  split
  · exact hf _ (h.setLow _)
  · exact hf w h

theorem Posted.leave (hr : Ready targets F v w) (h : Posted ((v, targets v) :: F) w) :
    Posted (advance v F) { w with poStack := v :: w.poStack } := by
  have hv := (nodup_cons.1 hr.nodup).1
  have hm : ∀ a, a ∈ w.poStack ↔ a ∈ w.stack ∧ a ∉ v :: F.map fst := h.mem
  constructor
  · intro a
    rw [advance_fst, mem_cons, hm a, mem_cons, not_or]
    constructor
    · rintro (rfl | ⟨ha, -, ho⟩)
      · exact ⟨hr.stacked.top_mem, hv⟩
      · exact ⟨ha, ho⟩
    · rintro ⟨ha, ho⟩
      by_cases hav : a = v
      · exact .inl hav
      · exact .inr ⟨ha, hav, ho⟩
  · exact nodup_cons.2 ⟨fun ha => ((hm v).1 ha).2 mem_cons_self, h.nodup⟩
  · rw [advance_fst]
    refine List.Pairwise.cons ?_ (h.split.imp fun {a b} hab g hg => hab g (mem_cons_of_mem v hg))
    intro b _ g hg hvg
    exact absurd (hr.stacked.lt_top hg) (Nat.lt_asymm hvg)

theorem eq_filter_append {α : Type} {p} : ∀ {l : List α}, l.Pairwise (fun a b => p a = false → p b = false) →
    l = l.filter p ++ l.filter fun a => !p a
  | [], _ => rfl
  | a :: l, h => by
    obtain ⟨ha, hl⟩ := pairwise_cons.1 h
    cases hp : p a with
    | true =>
      rw [filter_cons_of_pos hp, filter_cons_of_neg (by simp [hp]), cons_append, ← eq_filter_append hl]
    | false =>
      have hn : l.filter p = [] := filter_eq_nil_iff.2 fun b hb => by simp [ha b hb hp]
      have hal : (l.filter fun b => !p b) = l := filter_eq_self.2 fun b hb => by simp [ha b hb hp]
      rw [filter_cons_of_neg (by simp [hp]), filter_cons_of_pos (by simp [hp]), hn, hal, nil_append]

/-- The nodes of the segment are on top of the second stack. -/
theorem Posted.exists_cut {A B} (hr : Ready targets F v w) (hct : Cut w v A B) (h : Posted ((v, targets v) :: F) w) :
    ∃ P Q, w.poStack = P ++ Q ∧ P.Perm A ∧ ∀ a, a ∈ Q ↔ a ∈ B ∧ a ∉ F.map fst := by
  have hm := h.mem
  have hA : A.Nodup := by
    have hnd := (nodup_append.1 hr.stacked.nodup).1
    rw [hct.stack] at hnd
    exact (nodup_append.1 hnd).1
  refine ⟨w.poStack.filter fun a => ¬ w.discovery a < w.discovery v,
    w.poStack.filter fun a => !decide (¬ w.discovery a < w.discovery v), ?_, ?_, ?_⟩
  · refine eq_filter_append (h.split.imp fun {a b} hab => ?_)
    simpa using hab v mem_cons_self
  · refine (perm_ext_iff_of_nodup (h.nodup.filter _) hA).2 fun a => ?_
    rw [mem_filter, decide_eq_true_eq, not_lt, hm a]
    constructor
    · rintro ⟨⟨ha, ho⟩, hle⟩
      rcases mem_cons.1 ((hct.mem_segment ha).2 hle) with rfl | haA
      · exact absurd mem_cons_self ho
      · exact haA
    · intro ha
      have hs := mem_cons_of_mem v ha
      exact ⟨⟨hct.segment_subset hs, hr.left_of_mem hct ha⟩, (hct.above a ha).le⟩
  · intro a
    rw [mem_filter, hm a]
    constructor
    · rintro ⟨⟨ha, ho⟩, hlt⟩
      refine ⟨(hct.mem_rest ha).2 (by simpa using hlt), fun hm => ho (mem_cons_of_mem v hm)⟩
    · rintro ⟨ha, ho⟩
      have hlt := hct.below a ha
      refine ⟨⟨hct.rest_subset ha, fun hm => ?_⟩, by simpa using hlt⟩
      rcases mem_cons.1 hm with rfl | hm
      · exact lt_irrefl _ hlt
      · exact ho hm

/-! ## Taking a component off the stacks -/

local instance lawfulNodes : LawfulBEq (Fin n) := inferInstance

/-- The state after the segment `v :: A` of the stack and the nodes `P` of the second one were taken off. -/
def Walk.close (w : Walk n) (v : Fin n) (A B P Q : List (Fin n)) : Walk n :=
  { w with
    onStack := fun b => if b ∈ A ++ [v] then false else w.onStack b
    stack := B
    poStack := Q
    sccOrder := (v :: P) :: w.sccOrder }

theorem postVisit_stays {w0} (hf : (targets v).foldl (lowerLink v) w0 = w)
    (hne : w.discovery v ≠ w.lowLink v) : postVisit targets w0 v = { w with poStack := v :: w.poStack } := by
  unfold postVisit
  rw [hf]
  exact if_neg hne

theorem postVisit_closes {w0 A B P Q} (hf : (targets v).foldl (lowerLink v) w0 = w)
    (hrt : w.discovery v = w.lowLink v) (hc : Cut w v A B) (ht : w.poStack = P ++ Q) (hl : P.length = A.length) :
    postVisit targets w0 v = w.close v A B P Q := by
  have hw : w.stack.takeWhile (· ≠ v) = A := by
    have hA : ∀ a ∈ A, decide (a ≠ v) = true := by
      intro a ha
      refine decide_eq_true fun heq => ?_
      exact lt_irrefl _ (heq ▸ hc.above a ha)
    rw [hc.stack, takeWhile_append_of_pos hA, takeWhile_cons_of_neg (by simp), append_nil]
  have hs : w.stack = (A ++ [v]) ++ B := by rw [hc.stack, append_assoc, singleton_append]
  have hct : A.length + 1 = (A ++ [v]).length := by simp
  have hp : (A.length + 1) = (v :: P).length := by simp [hl]
  unfold postVisit
  rw [hf]
  dsimp only
  rw [if_pos hrt, hw, Walk.close, ht, ← cons_append]
  congr 1
  · rw [hs, hct, take_left]
  · rw [hs, hct, drop_left]
  · rw [hp, drop_left]
  · rw [hp, take_left]

section Close

variable {A B P Q : List (Fin n)} (h : Ready targets F v w) (hct : Cut w v A B) (hpm : P.Perm A)
include h hct hpm

theorem Stacked.close : Stacked (advance v F) (w.close v A B P Q) := by
  have hs := h.stacked
  have hc : (w.close v A B P Q).closed = (v :: P) ++ w.closed := flatten_cons
  have hsc : ∀ a, a ∈ w.stack ↔ a ∈ v :: A ∨ a ∈ B := by
    intro a
    rw [hct.stack, mem_append, mem_cons, mem_cons]
    tauto
  have hnd := hs.nodup
  rw [hct.stack] at hnd
  constructor
  · intro a
    rw [hc, mem_append, (hpm.cons v).mem_iff, show (w.close v A B P Q).stack = B from rfl]
    refine (hs.visited a).trans ?_
    rw [hsc a]
    tauto
  · intro a
    show (if a ∈ A ++ [v] then false else w.onStack a) = true ↔ a ∈ B
    have hsg : a ∈ A ++ [v] ↔ a ∈ v :: A := by
      rw [mem_append, mem_singleton, mem_cons]
      exact or_comm
    by_cases ha : a ∈ v :: A
    · rw [if_pos (hsg.2 ha)]
      refine iff_of_false Bool.false_ne_true fun haB => ?_
      have hle := (hct.mem_segment (hct.segment_subset ha)).1 ha
      exact absurd (hct.below a haB) (Nat.not_lt.2 hle)
    · rw [if_neg fun hm => ha (hsg.1 hm), hs.onStack a, hsc a, or_iff_right ha]
  · rw [hc]
    refine (List.Perm.nodup_iff ?_).1 hnd
    have hmv : (A ++ v :: B).Perm (B ++ v :: P) := by
      refine perm_middle.trans ?_
      refine ((hpm.symm.append_right B).cons v).trans ?_
      exact @perm_append_comm _ (v :: P) B
    rw [← append_assoc]
    exact hmv.append_right w.closed
  · have hd := hs.descending
    rw [hct.stack, pairwise_append] at hd
    exact (pairwise_cons.1 hd.2.1).2
  · exact hs.before
  · rw [advance_fst]
    have hb : (F.map fst).Sublist ((A ++ [v]) ++ B) := by
      have hf := (sublist_cons_self v (F.map fst)).trans hs.frames
      rwa [hct.stack, append_cons] at hf
    obtain ⟨l1, l2, hl, h1, h2⟩ := sublist_append_iff.1 hb
    -- the frames that are left are below the node
    have hn : l1 = [] := by
      refine eq_nil_iff_forall_not_mem.2 fun g hg => ?_
      have hgF : g ∈ F.map fst := by rw [hl]; exact mem_append_left _ hg
      have hlt := hs.lt_top hgF
      rcases mem_append.1 (h1.subset hg) with hgA | hv
      · exact Nat.lt_asymm hlt (hct.above g hgA)
      · rw [mem_singleton.1 hv] at hlt
        exact lt_irrefl _ hlt
    rw [hl, hn, nil_append]
    exact h2
  · intro a ha
    rw [advance_fst]
    obtain ⟨g, hg, hle⟩ := hs.bottom a (hct.rest_subset ha)
    refine ⟨g, (mem_cons.1 hg).resolve_left ?_, hle⟩
    rintro rfl
    exact absurd (hct.below a ha) (Nat.not_lt.2 hle)

theorem Lowered.close (hrt : w.discovery v = w.lowLink v) : Lowered targets (advance v F) (w.close v A B P Q) := by
  have hl := h.lowered
  have hs := h.stacked
  have hc : ∀ {a}, a ∈ (w.close v A B P Q).stack → a ∈ w.stack := fun ha => hct.rest_subset ha
  have hr : ∀ {a}, a ∈ w.stack → w.discovery a < w.discovery v → a ∈ (w.close v A B P Q).stack :=
    fun ha hlt => (hct.mem_rest ha).2 hlt
  have hfm : ∀ {g}, g ∈ (advance v F).map fst → g ∈ F.map fst := by
    intro g hg
    rwa [advance_fst] at hg
  have ho : ∀ {a}, a ∈ (w.close v A B P Q).stack → a ∉ (advance v F).map fst →
      a ∉ ((v, targets v) :: F).map fst := by
    intro a ha hn hm
    rw [advance_fst] at hn
    rcases mem_cons.1 hm with rfl | hm
    · exact lt_irrefl _ (hct.below _ ha)
    · exact hn hm
  refine ⟨?_, ?_, ?_, ?_, ?_, ?_, ?_, ?_, ?_⟩
  · intro g hg a ha
    exact hl.reach g (mem_cons_of_mem v (hfm hg)) a (hc ha)
  · intro a ha
    exact hl.le a (hc ha)
  · intro a ha
    obtain ⟨b, hb, hlo, hh⟩ := hl.low a (hc ha)
    have hle := hl.le a (hc ha)
    have hlt := hct.below a ha
    exact ⟨b, hr hb (by omega), hlo, hh⟩
  · intro a ha hn
    exact hl.lt a (hc ha) (ho ha hn)
  · intro a ha g hg hga
    obtain ⟨p, hp, hlk, hgp, hpa⟩ := hl.parent a (hc ha) g (mem_cons_of_mem v (hfm hg)) hga
    exact ⟨p, hr hp (lt_trans hpa (hct.below a ha)), hlk, hgp, hpa⟩
  · intro a ha hn t ht hat
    obtain ⟨hy, hle⟩ := hl.later a (hc ha) (ho ha hn) t ht hat
    exact ⟨fun hm => hy (mem_cons_of_mem v (hfm hm)), hle⟩
  · intro a ha hn t ht hts
    exact hl.earlier a (hc ha) (ho ha hn) t ht (hc hts)
  · intro f hf t ht hts htf
    match F, hs, hl, hf with
    | (u, done) :: F, hs, hl, hf =>
      rcases mem_cons.1 hf with rfl | hfF
      · rcases mem_append.1 ht with ht | ht
        · exact hl.done (u, done) (by simp) t ht (hc hts) htf
        · rw [mem_singleton.1 ht] at htf
          exact absurd (hs.lt_top mem_cons_self) (Nat.not_lt.2 (le_of_lt htf))
      · exact hl.done f (by simp [hfF]) t ht (hc hts) htf
  · intro t ht g hg hgt
    have hcs := ht
    rcases mem_append.1 hcs with hnew | hold
    · have hsg := (hpm.cons v).mem_iff.1 hnew
      exact lt_of_lt_of_le (hs.lt_top (hfm hg)) (h.segment_low hct hrt _ rfl hsg)
    · exact hl.closed t hold g (mem_cons_of_mem v (hfm hg)) hgt

theorem Found.close (hrt : w.discovery v = w.lowLink v) (hf : Found targets w.sccOrder) :
    Found targets (w.close v A B P Q).sccOrder := by
  have hm : ∀ {a}, a ∈ v :: P ↔ a ∈ v :: A := (hpm.cons v).mem_iff
  constructor
  · intro C hC
    rcases mem_cons.1 hC with rfl | hC
    · refine ⟨cons_ne_nil v P, fun a ha b => ?_⟩
      rw [hm]
      exact h.segment_mutual hct hrt hf (hm.1 ha)
    · exact hf.exact C hC
  · refine ⟨fun a ha t ht => ?_, hf.ordered⟩
    rw [hm]
    exact h.segment_target hct hrt (hm.1 ha) ht

end Close

theorem Posted.close {A B P Q} (hp : w.poStack = P ++ Q)
    (hQ : ∀ a, a ∈ Q ↔ a ∈ B ∧ a ∉ F.map fst) (h : Posted ((v, targets v) :: F) w) :
    Posted (advance v F) (w.close v A B P Q) := by
  have hs := hp ▸ sublist_append_right P Q
  constructor
  · intro a
    rw [advance_fst]
    exact hQ a
  · exact h.nodup.sublist hs
  · rw [advance_fst]
    exact (h.split.sublist hs).imp fun {a b} hab g hg => hab g (mem_cons_of_mem v hg)

/-! ## The whole walk -/

/-- The state of the walk at any time. -/
structure Sound (targets : Fin n → List (Fin n)) (F : Frames (Fin n)) (w : Walk n) : Prop where
  stacked : Stacked F w
  lowered : Lowered targets F w
  posted : Posted F w
  found : Found targets w.sccOrder

/-- What leaving a node does with the second stack and the components. -/
inductive Left (w : Walk n) (v : Fin n) (w' : Walk n) : Prop
  | stays (hpost : w'.poStack = v :: w.poStack) (hscc : w'.sccOrder = w.sccOrder)
  | closes {P : List (Fin n)} (hpost : w.poStack = P ++ w'.poStack) (hscc : w'.sccOrder = (v :: P) :: w.sccOrder)

theorem Sound.new (targets) : Sound targets [] (Walk.new n) := by
  refine ⟨?_, ?_, ?_, ?_⟩
  · constructor <;> simp [Walk.new, Walk.closed]
  · constructor <;> simp [Walk.new, Walk.closed]
  · constructor <;> simp [Walk.new]
  · constructor <;> simp [Walk.new, Ordered]

theorem Sound.enter {roots} (h : Sound targets F w) (he : Explored targets F w)
    (hn : Next targets roots F v) (hnew : w.visited v = false) : Sound targets ((v, []) :: F) (enter w v) :=
  ⟨h.stacked.enter hnew, h.lowered.enter hnew h.stacked he hn, h.posted.enter h.stacked hnew, h.found⟩

theorem lateVisit_sccOrder (u t) : (lateVisit w u t).sccOrder = w.sccOrder := by
  unfold lateVisit
  split
  · rfl
  · rfl

theorem lateVisit_poStack (u t) : (lateVisit w u t).poStack = w.poStack := by
  unfold lateVisit
  split
  · rfl
  · rfl

theorem Sound.late {rest} (h : Sound targets ((v, done) :: F) w)
    (hnd : (((v, done) :: F).map fst).Nodup) (hlk : targets v = done ++ t :: rest) :
    Sound targets ((v, done ++ [t]) :: F) (lateVisit w v t) := by
  refine ⟨h.stacked.late, h.lowered.late h.stacked hnd hlk, h.posted.late, ?_⟩
  rw [lateVisit_sccOrder]
  exact h.found

theorem Sound.leave (h : Sound targets ((v, targets v) :: F) w) (hnd : (((v, targets v) :: F).map fst).Nodup)
    (he : Explored targets ((v, targets v) :: F) w) :
    Sound targets (advance v F) (postVisit targets w v) ∧ Left w v (postVisit targets w v) := by
  obtain ⟨m, hf, hr⟩ := ready_foldl h.stacked hnd he h.lowered
  have ht : Posted ((v, targets v) :: F) (w.setLow v m) := h.posted.setLow m
  by_cases hrt : (w.setLow v m).discovery v = (w.setLow v m).lowLink v
  · obtain ⟨A, B, hct⟩ := hr.stacked.exists_cut hr.stacked.top_mem
    obtain ⟨P, Q, hp, hpm, hQ⟩ := ht.exists_cut hr hct
    rw [postVisit_closes hf hrt hct hp hpm.length_eq]
    refine ⟨⟨?_, ?_, ?_, ?_⟩, .closes hp rfl⟩
    · exact Stacked.close hr hct hpm
    · exact Lowered.close hr hct hpm hrt
    · exact ht.close hp hQ
    · exact Found.close hr hct hpm hrt h.found
  · rw [postVisit_stays hf hrt]
    refine ⟨⟨?_, ?_, ?_, h.found⟩, .stays rfl rfl⟩
    · exact Stacked.leave hr hrt _
    · exact Lowered.leave hr hrt _
    · exact ht.leave hr

section History

variable {roots : Fin n → Prop} {es : List (Event (Fin n))}

/-- The state of the walk after a history. -/
def after (targets : Fin n → List (Fin n)) (es : List (Event (Fin n))) : Walk n := (walker targets).run (Walk.new n) es

theorem after_visited (targets es) (a : Fin n) : (after targets es).visited a = true ↔ a ∈ entered es :=
  visited_run (W := walker targets) (fun _ => rfl) es a

theorem after_not_visited (h : v ∉ entered es) : (after targets es).visited v = false := by
  rw [← Bool.not_eq_true, after_visited]
  exact h

theorem explored_after (h : Reached targets roots F es) : Explored targets F (after targets es) := by
  have hs := h.shape
  constructor
  · intro a ha ho t ht
    rw [after_visited] at ha ⊢
    have hlt : a ∈ left es := by
      by_contra hnot
      exact ho ((hs.mem_frames a).2 ⟨ha, hnot⟩)
    exact hs.targets_left a hlt t ht
  · intro f hf t ht
    rw [after_visited]
    exact (hs.done f hf).2 t ht

theorem sound_after (h : Reached targets roots F es) : Sound targets F (after targets es) := by
  induction h with
  | start => exact Sound.new targets
  | tick _ ih => exact ih
  | enter h hn hnew ih => exact ih.enter (explored_after h) hn (after_not_visited hnew)
  | late h hlk _ ih => exact ih.late h.shape.nodup hlk
  | leave h ih => exact (ih.leave h.shape.nodup (explored_after h)).1

/-- The second stack and the components are in the order of the laps of the same walk, which have the node that was left
    last first. -/
structure Lapped (w : Walk n) (c : Walker.Collection n) : Prop where
  poStack : w.poStack.Sublist c.lap
  comps : ∀ C ∈ w.sccOrder, ∃ l ∈ c.lap :: c.laps, C.Sublist l

theorem Lapped.leave {w' c} (h : Lapped w c) (hlt : Left w v w') : Lapped w' (c.push v) := by
  have hm : ∀ C ∈ w.sccOrder, ∃ l ∈ (v :: c.lap) :: c.laps, C.Sublist l := by
    intro C hC
    obtain ⟨l, hl, hs⟩ := h.comps C hC
    rcases mem_cons.1 hl with rfl | hl
    · exact ⟨v :: c.lap, mem_cons_self, hs.cons v⟩
    · exact ⟨l, mem_cons_of_mem _ hl, hs⟩
  cases hlt with
  | stays hp hc =>
    constructor
    · rw [hp]
      exact h.poStack.cons_cons v
    · rw [hc]
      exact hm
  | @closes P hp hc =>
    have hs := h.poStack
    rw [hp] at hs
    constructor
    · exact ((sublist_append_right P _).trans hs).cons v
    · rw [hc]
      intro C hC
      rcases mem_cons.1 hC with rfl | hC
      · exact ⟨v :: c.lap, mem_cons_self, ((sublist_append_left P _).trans hs).cons_cons v⟩
      · exact hm C hC

theorem Sound.stack_eq_nil (h : Sound targets [] w) : w.stack = [] := by
  refine eq_nil_iff_forall_not_mem.2 fun a ha => ?_
  obtain ⟨g, hg, -⟩ := h.stacked.bottom a ha
  exact not_mem_nil hg

theorem Sound.poStack_eq_nil (h : Sound targets [] w) : w.poStack = [] := by
  refine eq_nil_iff_forall_not_mem.2 fun a ha => ?_
  have hs := ((h.posted.mem a).1 ha).1
  rw [h.stack_eq_nil] at hs
  exact not_mem_nil hs

theorem lapped_after (h : Reached targets roots F es) :
    Lapped (after targets es) ((collector n .postorder).run (Walker.Collection.new n) es) := by
  induction h with
  | start => exact ⟨List.Sublist.refl _, fun C hC => absurd hC not_mem_nil⟩
  | @tick es h ih =>
    constructor
    · show (after targets es).poStack.Sublist []
      rw [(sound_after h).poStack_eq_nil]
    · intro C hC
      obtain ⟨l, hl, hs⟩ := ih.comps C hC
      exact ⟨l, mem_cons_of_mem _ hl, hs⟩
  | enter h _ hnew ih => exact ⟨ih.poStack, ih.comps⟩
  | @late F es u t done rest h hlk _ ih =>
    constructor
    · show (lateVisit (after targets es) u t).poStack.Sublist _
      rw [lateVisit_poStack]
      exact ih.poStack
    · show ∀ C ∈ (lateVisit (after targets es) u t).sccOrder, _
      rw [lateVisit_sccOrder]
      exact ih.comps
  | leave h ih => exact ih.leave ((sound_after h).leave h.shape.nodup (explored_after h)).2

/-! ## What is listed -/

/-- The strongly connected components of the nodes, each node once. No link leads to an earlier component, and the nodes
    of one are in the order of a lap. -/
structure Components (targets : Fin n → List (Fin n)) (nodes : Fin n → Prop) (laps comps : List (List (Fin n))) : Prop where
  mem : ∀ a, a ∈ comps.flatten ↔ nodes a
  nodup : comps.flatten.Nodup
  exact : ∀ C ∈ comps, C ≠ [] ∧ ∀ a ∈ C, ∀ b, b ∈ C ↔ Mutual targets a b
  ordered : comps.Pairwise fun C D => ∀ a ∈ D, ∀ b ∈ C, b ∉ targets a
  postorder : ∀ C ∈ comps, ∃ l ∈ laps, C.Sublist l

theorem Ordered.pairwise : ∀ {comps}, Ordered targets comps → comps.flatten.Nodup →
    comps.Pairwise fun C D => ∀ a ∈ D, ∀ b ∈ C, b ∉ targets a
  | [], _, _ => .nil
  | C :: L, h, hnd => by
    rw [flatten_cons, nodup_append] at hnd
    obtain ⟨-, hL, hr⟩ := hnd
    refine .cons ?_ (Ordered.pairwise h.2 hL)
    intro D hD a ha b hb hlk
    have hbL := h.2.target a (mem_flatten_of_mem hD ha) b hlk
    exact hr b hb b hbL rfl

theorem components_after (h : Reached targets roots [] es) (nodes) (hn : ∀ a, a ∈ entered es ↔ nodes a) :
    Components targets nodes (((collector n .postorder).run (Walker.Collection.new n) es).finish .reverse)
      (after targets es).sccOrder := by
  have hs := sound_after h
  have hm : ∀ a, a ∈ (after targets es).closed ↔ nodes a := by
    intro a
    have hv := hs.stacked.visited a
    rw [after_visited, hs.stack_eq_nil, hn] at hv
    rw [hv, or_iff_right not_mem_nil]
  have hnd := hs.stacked.nodup
  rw [hs.stack_eq_nil, nil_append] at hnd
  refine ⟨hm, hnd, hs.found.exact, hs.found.ordered.pairwise hnd, ?_⟩
  intro C hC
  obtain ⟨l, hl, hb⟩ := (lapped_after h).comps C hC
  exact ⟨l, mem_reverse.2 hl, hb⟩

end History

theorem gen_ok (targets) (start : Fin n) : ∃ es, Reached targets (· = start) [] es ∧ start ∈ entered es ∧
    gen targets start = .ok (after targets es).sccOrder ∧
    ∃ lap, ((collector n .postorder).run (Walker.Collection.new n) es).finish .reverse = [lap] ∧
      Walker.gen .postorder .reverse targets start = .ok [lap] := by
  obtain ⟨es, hh, hin, ht, hr⟩ := exists_history_gen targets start
  obtain ⟨hl, hs⟩ := collector_run .postorder ht
  refine ⟨es, hh, hin, ?_, _, ?_, Walker.gen_eq .postorder .reverse ht hr⟩
  · have hw := hr (walker targets) Failure.diverged (Walk.new n) fun _ => rfl
    rw [gen, walkHelper_eq_walk]
    exact ok_bind hw _
  · rw [Walker.Collection.finish, hl, hs]
    rfl

theorem genFull_components [NeZero n] (targets : Fin n → List (Fin n)) : ∃ comps laps, genFull targets = .ok comps ∧
    Walker.genFull .postorder .reverse targets 0 = .ok laps ∧ Components targets (fun _ => True) laps comps := by
  obtain ⟨first, new, starts, ⟨hh, hr⟩, -, -, -, -, hin⟩ := exists_history_full targets
  have hc := components_after hh (fun _ => True) fun a => iff_true_intro (hin a)
  have hw := hr (walker targets) Failure.diverged (Walk.new n) fun _ => rfl
  have hl := hr (Walker.collector n .postorder) Failure.diverged (Walker.Collection.new n) fun _ => rfl
  refine ⟨_, _, ?_, ?_, hc⟩
  · have ha : walkAll targets n = .ok (after targets (new ++ (first ++ [.enter 0]))) := by
      rw [walkAll, walkHelper_eq_walk, walkRoot_eq_walkRoot]
      exact hw
    rw [genFull, ok_bind ha]
    rfl
  · rw [Walker.genFull, Walker.walkHelper, ← bind_assoc]
    exact ok_bind hl _

/-- gen lists the components of what can be reached from the start, and genFull(0) those of the whole graph. -/
theorem gen_genFull_components (targets : Fin (n + 1) → List (Fin (n + 1))) :
    (∀ start, ∃ comps lap, gen targets start = .ok comps ∧
      Walker.gen .postorder .reverse targets start = .ok [lap] ∧
      Components targets (Reaches targets start) [lap] comps) ∧
    ∃ comps laps, genFull targets = .ok comps ∧ Walker.genFull .postorder .reverse targets 0 = .ok laps ∧
      Components targets (fun _ => True) laps comps := by
  refine ⟨fun start => ?_, genFull_components targets⟩
  obtain ⟨es, hrh, hin, hgn, lap, hlp, hpt⟩ := gen_ok targets start
  have hnd : ∀ a, a ∈ entered es ↔ Reaches targets start a := by
    intro a
    constructor
    · intro ha
      obtain ⟨r, rfl, hra⟩ := hrh.reaches a ha
      exact hra
    · exact hrh.closed hin
  have hcm := components_after hrh (Reaches targets start) hnd
  rw [hlp] at hcm
  exact ⟨_, lap, hgn, hpt, hcm⟩

/-! ## Graphs without cycles -/

/-- Each node comes before the targets of its links. -/
def Topological (targets : Fin n → List (Fin n)) : List (Fin n) → Prop
  | [] => True
  | b :: l => (∀ c ∈ targets b, c ∈ l) ∧ Topological targets l

theorem topological_of_pairwise (hs : ∀ b, b ∉ targets b) : ∀ pre l, (∀ c, c ∈ pre ++ l) →
    (pre ++ l).Pairwise (fun b a => b ∉ targets a) → Topological targets l
  | _, [], _, _ => trivial
  | pre, b :: l, ha, hp => by
    refine ⟨fun c hc => ?_, topological_of_pairwise hs (pre ++ [b]) l (by simpa using ha) (by simpa using hp)⟩
    rcases mem_append.1 (ha c) with he | hrt
    · exact absurd hc ((pairwise_append.1 hp).2.2 c he b mem_cons_self)
    · rcases mem_cons.1 hrt with rfl | hrt
      · exact absurd hc (hs c)
      · exact hrt

theorem eq_map_singleton : ∀ {comps : List (List (Fin n))}, (∀ C ∈ comps, ∃ b, C = [b]) →
    comps = comps.flatten.map fun b => [b]
  | [], _ => rfl
  | C :: comps, h => by
    obtain ⟨b, rfl⟩ := h C mem_cons_self
    have ih := eq_map_singleton fun D hD => h D (mem_cons_of_mem _ hD)
    rw [flatten_cons, singleton_append, map_cons, ← ih]

/-- The components of a graph without cycles are its nodes, in an order that its links keep. -/
theorem genFull_topological [NeZero n] {rank : Fin n → Nat} (hk : ∀ a, ∀ b ∈ targets a, rank b < rank a) :
    ∃ fin, genFull targets = .ok (fin.map fun b => [b]) ∧ Topological targets fin ∧ ∀ b, b ∈ fin := by
  obtain ⟨comps, laps, hg, -, hc⟩ := genFull_components targets
  have hr {a b : Fin n} (h : Reaches targets a b) : a = b ∨ rank b < rank a := by
    induction h with
    | refl => exact .inl rfl
    | tail _ hlk ih =>
      have hlt := hk _ _ hlk
      rcases ih with rfl | ih
      · exact .inr hlt
      · exact .inr (hlt.trans ih)
  have hs : ∀ C ∈ comps, ∃ b, C = [b] := by
    intro C hC
    obtain ⟨hne, hm⟩ := hc.exact C hC
    match C, hne with
    | [b], _ => exact ⟨b, rfl⟩
    | a :: b :: C', _ =>
      obtain ⟨hab, hba⟩ := (hm a mem_cons_self b).1 (by simp)
      have hnd := (nodup_flatten.1 hc.nodup).1 _ hC
      rcases hr hab with rfl | hlt
      · simp at hnd
      · rcases hr hba with rfl | hl'
        · simp at hnd
        · omega
  have hmp := eq_map_singleton hs
  have ha : ∀ b, b ∈ comps.flatten := fun b => (hc.mem b).2 trivial
  refine ⟨comps.flatten, by rw [← hmp, hg], ?_, ha⟩
  have hp := hc.ordered
  rw [hmp, pairwise_map] at hp
  refine topological_of_pairwise (fun b hb => lt_irrefl _ (hk b b hb)) [] _ ha (hp.imp fun {b a} h => ?_)
  exact h a mem_cons_self b mem_cons_self

end Egalito.SccOrder
