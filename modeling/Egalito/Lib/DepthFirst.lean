/-
Depth-first walks as histories of actions, the same for every walk over the graph: those of a machine with a stack of
frames.

`Reached` has the stacks and histories that the machine can have, `Shape` what holds of all of them. A walk with any
actions is a fold of the actions over the history (`walk`), so orders and reachability are proved once.
-/
import Egalito.Lib.Except
import Mathlib.Algebra.GroupWithZero.Nat
import Mathlib.Data.Fintype.Card
import Mathlib.Logic.Relation

namespace Lib.DepthFirst

open List

/-! ## Histories -/

inductive Event (V : Type) where
  | tick
  | enter (v : V)
  | late (v t : V)
  | leave (v : V)

variable {V : Type}

/-- The nodes that were entered, the last one first. A history has its last event first. -/
def entered : List (Event V) → List V
  | [] => []
  | .enter v :: es => v :: entered es
  | .tick :: es | .late _ _ :: es | .leave _ :: es => entered es

def left : List (Event V) → List V
  | [] => []
  | .leave v :: es => v :: left es
  | .tick :: es | .late _ _ :: es | .enter _ :: es => left es

/-- The nodes between the root and the current node, the current one first, each with the links that are done. -/
abbrev Frames (V : Type) := List (V × List V)

def advance (v : V) : Frames V → Frames V
  | [] => []
  | (u, done) :: F => (u, done ++ [v]) :: F

section

variable (targets : V → List V) (roots : V → Prop)

/-- `v` is the node that the walk looks at. -/
inductive Next : Frames V → V → Prop
  | root {v : V} (h : roots v) : Next [] v
  | link {u v : V} {done rest : List V} {F : Frames V} (h : targets u = done ++ v :: rest) : Next ((u, done) :: F) v

/-- The frames and the histories of the walks from roots of a set. -/
inductive Reached : Frames V → List (Event V) → Prop
  | start : Reached [] []
  | tick {es : List (Event V)} (h : Reached [] es) : Reached [] (.tick :: es)
  | enter {F : Frames V} {es : List (Event V)} {v : V} (h : Reached F es) (hnext : Next targets roots F v)
      (hnew : v ∉ entered es) : Reached ((v, []) :: F) (.enter v :: es)
  | late {F : Frames V} {es : List (Event V)} {u t : V} {done rest : List V} (h : Reached ((u, done) :: F) es)
      (hlink : targets u = done ++ t :: rest) (hold : t ∈ entered es) :
      Reached ((u, done ++ [t]) :: F) (.late u t :: es)
  | leave {F : Frames V} {es : List (Event V)} {v : V} (h : Reached ((v, targets v) :: F) es) :
      Reached (advance v F) (.leave v :: es)

def Reaches : V → V → Prop := Relation.ReflTransGen fun a b => b ∈ targets a

/-- The link that a frame is at leads to the frame above it. -/
def Above (f g : V × List V) : Prop := ∃ rest, targets g.1 = g.2 ++ f.1 :: rest

end

variable {targets : V → List V} {roots : V → Prop} {F : Frames V} {es : List (Event V)} {u v t : V} {done : List V}

theorem Reached.mono {roots'} (h : Reached targets roots F es) (hs : ∀ r, roots r → roots' r) :
    Reached targets roots' F es := by
  induction h with
  | start => exact .start
  | tick _ ih => exact .tick ih
  | enter _ ht hn ih =>
    cases ht with
    | root hr => exact .enter ih (.root (hs _ hr)) hn
    | link hlk => exact .enter ih (.link hlk) hn
  | late _ hlk ho ih => exact .late ih hlk ho
  | leave _ ih => exact .leave ih

theorem advance_fst (v : V) (F) : (advance v F).map Prod.fst = F.map Prod.fst := by
  cases F with
  | nil => rfl
  | cons f F => rfl

/-! ## What is entered and left -/

/-- What the frames and the history tell about each other. -/
structure Shape (targets : V → List V) (F : Frames V) (es : List (Event V)) : Prop where
  nodup : (F.map Prod.fst).Nodup
  mem_frames : ∀ v, v ∈ F.map Prod.fst ↔ v ∈ entered es ∧ v ∉ left es
  left_subset : ∀ v ∈ left es, v ∈ entered es
  nodup_entered : (entered es).Nodup
  nodup_left : (left es).Nodup
  above : F.IsChain (Above targets)
  done : ∀ f ∈ F, f.2 <+: targets f.1 ∧ ∀ t ∈ f.2, t ∈ entered es
  targets_left : ∀ v ∈ left es, ∀ t ∈ targets v, t ∈ entered es

theorem Shape.enter (h : Shape targets F es) (hnt : Next targets roots F v) (hn : v ∉ entered es) :
    Shape targets ((v, []) :: F) (.enter v :: es) where
  nodup := by
    rw [map_cons, nodup_cons]
    exact ⟨fun hm => hn ((h.mem_frames v).1 hm).1, h.nodup⟩
  mem_frames w := by
    have hlt : v ∉ left es := fun hm => hn (h.left_subset v hm)
    rw [map_cons, mem_cons, h.mem_frames w, entered, mem_cons, left]
    constructor
    · rintro (rfl | ⟨hw, ho⟩)
      · exact ⟨.inl rfl, hlt⟩
      · exact ⟨.inr hw, ho⟩
    · rintro ⟨rfl | hw, ho⟩
      · exact .inl rfl
      · exact .inr ⟨hw, ho⟩
  left_subset w hw := mem_cons_of_mem v (h.left_subset w hw)
  nodup_entered := nodup_cons.2 ⟨hn, h.nodup_entered⟩
  nodup_left := h.nodup_left
  above := by
    cases hnt with
    | root => exact .singleton _
    | link hlk => exact h.above.cons_cons ⟨_, hlk⟩
  done f hf := by
    rcases mem_cons.1 hf with rfl | hf
    · exact ⟨ nil_prefix, by simp⟩
    · exact ⟨(h.done f hf).1, fun t ht => mem_cons_of_mem v ((h.done f hf).2 t ht)⟩
  targets_left w hw t ht := mem_cons_of_mem v (h.targets_left w hw t ht)

theorem Shape.late {rest} (h : Shape targets ((u, done) :: F) es) (hlk : targets u = done ++ t :: rest)
    (ho : t ∈ entered es) : Shape targets ((u, done ++ [t]) :: F) (.late u t :: es) where
  nodup := h.nodup
  mem_frames := h.mem_frames
  left_subset := h.left_subset
  nodup_entered := h.nodup_entered
  nodup_left := h.nodup_left
  above := by
    cases F with
    | nil => exact .singleton _
    | cons g F => exact .cons_cons (isChain_cons_cons.1 h.above).1 (isChain_cons_cons.1 h.above).2
  done f hf := by
    rcases mem_cons.1 hf with rfl | hf
    · refine ⟨⟨rest, by simp [hlk]⟩, ?_⟩
      intro t' ht'
      rcases mem_append.1 ht' with ht' | ht'
      · exact (h.done _ mem_cons_self).2 t' ht'
      · rw [mem_singleton.1 ht']
        exact ho
    · exact h.done f (mem_cons_of_mem _ hf)
  targets_left := h.targets_left

theorem Shape.leave (h : Shape targets ((v, targets v) :: F) es) : Shape targets (advance v F) (.leave v :: es) where
  nodup := by
    rw [advance_fst]
    exact (nodup_cons.1 h.nodup).2
  mem_frames w := by
    have hv := (nodup_cons.1 h.nodup).1
    have hw := h.mem_frames w
    rw [map_cons, mem_cons] at hw
    rw [advance_fst, entered, left, mem_cons, not_or]
    constructor
    · intro hm
      obtain ⟨hin, ho⟩ := hw.1 (.inr hm)
      exact ⟨hin, fun heq => hv (heq ▸ hm), ho⟩
    · rintro ⟨hin, hne, ho⟩
      exact (hw.2 ⟨hin, ho⟩).resolve_left hne
  left_subset w hw := by
    rcases mem_cons.1 hw with rfl | hw
    · exact ((h.mem_frames w).1 mem_cons_self).1
    · exact h.left_subset w hw
  nodup_entered := h.nodup_entered
  nodup_left := nodup_cons.2 ⟨((h.mem_frames v).1 mem_cons_self).2, h.nodup_left⟩
  above := by
    match F, h.above with
    | [], _ => exact .nil
    | [_], _ => exact .singleton _
    | _ :: _ :: _, ha =>
      obtain ⟨hn, hr⟩ := isChain_cons_cons.1 (isChain_cons_cons.1 ha).2
      exact .cons_cons hn hr
  done f hf := by
    match F, h.above, h.done with
    | (u, done) :: F, ha, hd =>
      rcases mem_cons.1 hf with rfl | hf
      · obtain ⟨rest, hlk⟩ := (isChain_cons_cons.1 ha).1
        refine ⟨⟨rest, by simp [hlk]⟩, ?_⟩
        intro t ht
        rcases mem_append.1 ht with ht | ht
        · exact (hd (u, done) (by simp)).2 t ht
        · rw [mem_singleton.1 ht]
          exact ((h.mem_frames v).1 mem_cons_self).1
      · exact hd f (by simp [hf])
  targets_left w hw t ht := by
    rcases mem_cons.1 hw with rfl | hw
    · exact (h.done _ mem_cons_self).2 t ht
    · exact h.targets_left w hw t ht

theorem Reached.shape (h : Reached targets roots F es) : Shape targets F es := by
  induction h with
  | start => exact ⟨nodup_nil, by simp [entered], by simp [left], nodup_nil, nodup_nil, .nil,
      by simp, by simp [left]⟩
  | tick _ ih => exact ⟨ih.nodup, ih.mem_frames, ih.left_subset, ih.nodup_entered, ih.nodup_left, ih.above, ih.done,
      ih.targets_left⟩
  | enter _ ht hn ih => exact ih.enter ht hn
  | late _ hlk ho ih => exact ih.late hlk ho
  | leave _ ih => exact ih.leave

theorem Next.reaches (h : Next targets roots F v) (hF : ∀ u ∈ F.map Prod.fst, ∃ r, roots r ∧ Reaches targets r u) :
    ∃ r, roots r ∧ Reaches targets r v := by
  cases h with
  | root hv => exact ⟨v, hv, .refl⟩
  | @link u _ _ _ F hlk =>
    obtain ⟨r, hr, hh⟩ := hF u (by simp)
    exact ⟨r, hr, hh.tail (by simp [hlk])⟩

theorem Reached.reaches (h : Reached targets roots F es) : ∀ v ∈ entered es, ∃ r, roots r ∧ Reaches targets r v := by
  induction h with
  | start => simp [entered]
  | tick _ ih => exact ih
  | @enter F es v h ht hn ih =>
    intro w hw
    rcases mem_cons.1 hw with rfl | hw
    · exact ht.reaches fun u hu => ih u ((h.shape.mem_frames u).1 hu).1
    · exact ih w hw
  | late _ _ _ ih => exact ih
  | leave _ ih => exact ih

theorem Reached.mem_left (h : Reached targets roots [] es) : v ∈ left es ↔ v ∈ entered es := by
  constructor
  · exact h.shape.left_subset v
  · intro hin
    by_contra ho
    have hf := (h.shape.mem_frames v).2 ⟨hin, ho⟩
    simp at hf

theorem Reached.closed {a b} (h : Reached targets roots [] es) (ha : a ∈ entered es) (hab : Reaches targets a b) :
    b ∈ entered es := by
  induction hab with
  | refl => exact ha
  | tail _ hlk ih => exact h.shape.targets_left _ (h.mem_left.2 ih) _ hlk

/-- The nodes that were entered and not left, the last one first. -/
def opened : List (Event V) → List V
  | [] => []
  | .enter v :: es => v :: opened es
  | .leave _ :: es => (opened es).tail
  | .tick :: es | .late _ _ :: es => opened es

theorem Reached.opened_eq (h : Reached targets roots F es) : opened es = F.map Prod.fst := by
  induction h with
  | start => rfl
  | tick _ ih => exact ih
  | enter _ _ _ ih => exact congrArg (_ :: ·) ih
  | late _ _ _ ih => exact ih
  | leave _ ih => rw [opened, ih, advance_fst, map_cons, tail_cons]

/-- The frames are a path from a root, whatever is known of the nodes on it. -/
theorem Reached.path {p : V → Prop} (h : Reached targets roots F es) : ∀ A u B, F.map Prod.fst = A ++ u :: B →
    (∀ w ∈ B, p w) → ∃ r, roots r ∧ Relation.ReflTransGen (fun a b => b ∈ targets a ∧ p a) r u := by
  induction h with
  | start => simp
  | tick _ ih => exact ih
  | @enter F es v h ht hn ih =>
    intro A u B hs hB
    cases A with
    | nil =>
      obtain ⟨rfl, rfl⟩ := cons.inj hs
      cases ht with
      | root hr => exact ⟨_, hr, .refl⟩
      | @link u' _ done rest F hlk =>
        obtain ⟨r, hr, hp⟩ := ih [] u' (F.map Prod.fst) rfl fun w hw => hB w (mem_cons_of_mem _ hw)
        exact ⟨r, hr, hp.tail ⟨by simp [hlk], hB u' mem_cons_self⟩⟩
    | cons a A =>
      exact ih A u B (cons.inj hs).2 hB
  | late _ _ _ ih => exact ih
  | leave _ ih =>
    intro A u B hs hB
    rw [advance_fst] at hs
    exact ih (_ :: A) u B (congrArg (_ :: ·) hs) hB

/-- The nodes in the order in which they will have been left: the frames from the root on, then those that were left. -/
def leaving (F : Frames V) (es : List (Event V)) : List V := (F.map Prod.fst).reverse ++ left es

theorem leaving_enter (F es) (v : V) :
    leaving ((v, []) :: F) (.enter v :: es) = (F.map Prod.fst).reverse ++ v :: left es := by
  simp [leaving, left]

theorem leaving_leave (F es) (v : V) (done) :
    leaving (advance v F) (.leave v :: es) = leaving ((v, done) :: F) es := by
  rw [leaving, advance_fst, leaving]
  simp [left]

/-- A node that is no root was entered from one that is left after it. -/
theorem Reached.parent (h : Reached targets roots F es) :
    ∀ v ∈ entered es, roots v ∨ ∃ u, v ∈ targets u ∧ [u, v].Sublist (leaving F es) := by
  induction h with
  | start => simp [entered]
  | tick _ ih => exact ih
  | @enter F es v h ht hn ih =>
    have hg : (leaving F es).Sublist (leaving ((v, []) :: F) (.enter v :: es)) := by
      rw [leaving_enter, leaving]
      exact List.Sublist.append_left (sublist_cons_self v (left es)) _
    intro w hw
    rcases mem_cons.1 hw with rfl | hw
    · cases ht with
      | root hr => exact .inl hr
      | @link u _ done rest F hlk =>
        refine .inr ⟨u, by simp [hlk], ?_⟩
        rw [leaving_enter, map_cons, reverse_cons, append_assoc, singleton_append]
        exact ((List.Sublist.cons_cons w (nil_sublist _)).cons_cons u).trans (sublist_append_right _ _)
    · exact (ih w hw).imp_right fun ⟨u, hu, hsub⟩ => ⟨u, hu, hsub.trans hg⟩
  | late _ _ _ ih => exact ih
  | @leave F es v h ih =>
    intro w hw
    rw [leaving_leave F es v (targets v)]
    exact ih w hw

theorem entered_append (es') : entered (es' ++ es) = entered es' ++ entered es := by
  induction es' with
  | nil => rfl
  | cons e es' ih =>
    cases e with
    | enter v => exact congrArg (v :: ·) ih
    | tick | late v t | leave v => exact ih

theorem entered_subset {es'} (h : es <:+ es') : entered es ⊆ entered es' := by
  obtain ⟨es1, rfl⟩ := h
  rw [entered_append]
  exact subset_append_right _ _

theorem mem_entered_append {new} : v ∈ entered (new ++ .enter v :: es) :=
  entered_subset (suffix_append new _) mem_cons_self

/-! ## Walks -/

variable [DecidableEq V]

/-- The nodes that were entered, after the event. -/
def Event.mark : Event V → (V → Bool) → V → Bool
  | .enter v, visited => Function.update visited v true
  | .tick, visited | .late _ _, visited | .leave _, visited => visited

/-- The actions on a state that holds which nodes were entered. -/
structure Walker (V σ : Type) [DecidableEq V] where
  visited : σ → V → Bool
  step : σ → Event V → σ
  visited_step : ∀ s e, visited (step s e) = e.mark (visited s)

section

variable {σ ε : Type} (W : Walker V σ) (targets : V → List V) (out : ε)

def walkLink (walk : σ → V → Except ε σ) (v : V) (s : σ) (t : V) : Except ε σ :=
  if W.visited s t then .ok (W.step s (.late v t)) else walk s t

/-- The walk from a node; `out` is the end of the fuel. -/
def walk : Nat → σ → V → Except ε σ
  | 0, _, _ => .error out
  | fuel + 1, s, v => do
    let s ← (targets v).foldlM (walkLink W (walk fuel) v) (W.step s (.enter v))
    .ok (W.step s (.leave v))

def walkRoot (fuel : Nat) (s : σ) (v : V) : Except ε σ :=
  if W.visited s v then .ok s else walk W targets out fuel (W.step s .tick) v

def Walker.run (s₀ : σ) : List (Event V) → σ
  | [] => s₀
  | e :: es => W.step (Walker.run s₀ es) e

theorem Walker.run_append (s₀ : σ) : ∀ es' es, W.run s₀ (es' ++ es) = W.run (W.run s₀ es) es'
  | [], _ => rfl
  | e :: es', es => congrArg (W.step · e) (Walker.run_append s₀ es' es)

def Walker.Blank (s : σ) : Prop := ∀ v, W.visited s v = false

end

section

variable {σ ε : Type} {W : Walker V σ} {s₀ : σ}

theorem Walker.visited_run (h : W.Blank s₀) : ∀ es v, W.visited (W.run s₀ es) v = true ↔ v ∈ entered es
  | [], v => by simp [Walker.run, h v, entered]
  | e :: es, v => by
    have ih := Walker.visited_run h es v
    rw [Walker.run, W.visited_step]
    cases e with
    | enter u =>
      rw [Event.mark, entered, mem_cons]
      by_cases hv : v = u
      · simp [hv]
      · rw [Function.update_of_ne hv, ih, or_iff_right hv]
    | tick | late u t | leave u => exact ih

end

/-- What was open when the node was entered: its path in the tree, from its parent to the root. -/
def ancestors (v : V) : List (Event V) → Option (List V)
  | [] => none
  | .enter u :: es => if u = v then some (opened es) else ancestors v es
  | .tick :: es | .late _ _ :: es | .leave _ :: es => ancestors v es

section

variable (h : Reached targets roots F es)
include h

theorem Reached.ancestors_frame : ∀ A u B, F.map Prod.fst = A ++ u :: B → ancestors u es = some B := by
  induction h with
  | start => simp
  | tick _ ih => exact ih
  | @enter F es v h hnt hn ih =>
    intro A u B hs
    cases A with
    | nil =>
      obtain ⟨rfl, rfl⟩ := cons.inj hs
      rw [ancestors, if_pos rfl, h.opened_eq]
    | cons a A =>
      have ht := (cons.inj hs).2
      have hne : v ≠ u := by
        rintro rfl
        exact hn ((h.shape.mem_frames v).1 (by rw [ht]; simp)).1
      rw [ancestors, if_neg hne]
      exact ih A u B ht
  | late _ _ _ ih => exact ih
  | leave _ ih =>
    intro A u B hs
    rw [advance_fst] at hs
    exact ih (_ :: A) u B (congrArg (_ :: ·) hs)

theorem Reached.ancestors_eq {path} (hp : ancestors v es = some path) :
    v ∈ entered es ∧ ∃ F0 es0, Reached targets roots F0 es0 ∧ Next targets roots F0 v ∧ path = F0.map Prod.fst := by
  induction h with
  | start => cases hp
  | tick _ ih => exact ih hp
  | @enter F es u h ht hn ih =>
    rw [ancestors] at hp
    split at hp
    · next heq =>
      subst heq
      refine ⟨mem_cons_self, F, es, h, ht, ?_⟩
      rw [← h.opened_eq, Option.some.inj hp]
    · obtain ⟨hin, hr⟩ := ih hp
      exact ⟨mem_cons_of_mem u hin, hr⟩
  | late _ _ _ ih => exact ih hp
  | leave _ ih => exact ih hp

theorem Reached.ancestors_none (hn : v ∉ entered es) : ancestors v es = none := by
  cases ha : ancestors v es with
  | none => rfl
  | some path => exact absurd (h.ancestors_eq ha).1 hn

end

def recorder : Walker V ((V → Bool) × List (Event V)) where
  visited := Prod.fst
  step s e := (e.mark s.1, e :: s.2)
  visited_step _ _ := rfl

theorem recorder_run (visited : V → Bool) : ∀ es, (recorder.run (visited, []) es).2 = es
  | [] => rfl
  | e :: es => congrArg (e :: ·) (recorder_run visited es)

/-! ## The history of a walk -/

section

variable [Fintype V] {fuel : Nat}

def unentered (es : List (Event V)) : Finset V := Finset.univ.filter (· ∉ entered es)

theorem mem_unentered : v ∈ unentered es ↔ v ∉ entered es := by simp [unentered]

theorem card_unentered_enter (h : v ∉ entered es) : (unentered (.enter v :: es)).card < (unentered es).card := by
  apply Finset.card_lt_card
  refine (Finset.ssubset_iff_of_subset ?_).2 ⟨v, mem_unentered.2 h, ?_⟩
  · intro w hw
    rw [mem_unentered] at hw ⊢
    exact fun hm => hw (mem_cons_of_mem v hm)
  · rw [mem_unentered, entered]
    exact not_not_intro mem_cons_self

theorem card_unentered_le {es'} (h : es <:+ es') : (unentered es').card ≤ (unentered es).card := by
  apply Finset.card_le_card
  intro w hw
  rw [mem_unentered] at hw ⊢
  exact fun hm => hw (entered_subset h hm)

/-- From `es` the walks go on to `es'`, with these frames, whatever they collect. -/
structure Continues (targets : V → List V) (roots : V → Prop) (F : Frames V) (es es' : List (Event V))
    (program : ∀ {σ ε : Type}, Walker V σ → ε → σ → Except ε σ) : Prop where
  reached : Reached targets roots F es'
  run : ∀ {σ ε : Type} (W : Walker V σ) (out : ε) (s₀ : σ), W.Blank s₀ → program W out (W.run s₀ es) = .ok (W.run s₀ es')

theorem exists_history_links (hw : ∀ {F es v},
    Reached targets roots F es → Next targets roots F v → v ∉ entered es → (unentered es).card ≤ fuel →
      ∃ new, Continues targets roots (advance v F) es (new ++ .enter v :: es)
        (fun W out s => walk W targets out fuel s v) ∧ .tick ∉ new) :
    ∀ rest {done} {es}, Reached targets roots ((u, done) :: F) es →
      targets u = done ++ rest → (unentered es).card ≤ fuel →
        ∃ new, Continues targets roots ((u, targets u) :: F) es (new ++ es)
          (fun W out s => rest.foldlM (walkLink W (walk W targets out fuel) u) s) ∧ .tick ∉ new
  | [], done, es, h, hl, _ => by
    rw [append_nil] at hl
    exact ⟨[], ⟨hl ▸ h, fun W out s₀ _ => rfl⟩, not_mem_nil⟩
  | t :: rest, done, es, h, hl, hf => by
    have hl' : targets u = (done ++ [t]) ++ rest := by simp [hl]
    -- one link: the node was entered before, or it is walked now
    obtain ⟨new, ⟨hh, hr⟩, hk⟩ : ∃ new, Continues targets roots ((u, done ++ [t]) :: F) es (new ++ es)
        (fun W out s => walkLink W (walk W targets out fuel) u s t) ∧ .tick ∉ new := by
      by_cases ht : t ∈ entered es
      · refine ⟨[.late u t], ⟨.late h hl ht, ?_⟩, by simp⟩
        intro σ ε W out s₀ hb
        exact if_pos ((Walker.visited_run hb es t).2 ht)
      · obtain ⟨new, ⟨hh, hr⟩, hk⟩ := hw h (.link hl) ht hf
        have ha : new ++ .enter t :: es = (new ++ [.enter t]) ++ es := by simp
        rw [ha] at hh hr
        refine ⟨new ++ [Event.enter t], ⟨hh, ?_⟩, by simpa using hk⟩
        intro σ ε W out s₀ hb
        have hn : ¬ W.visited (W.run s₀ es) t = true := fun hv => ht ((Walker.visited_run hb es t).1 hv)
        exact (if_neg hn).trans (hr W out s₀ hb)
    obtain ⟨new2, ⟨hr2, hn2⟩, ht2⟩ := exists_history_links hw rest hh hl'
      ((card_unentered_le (suffix_append new es)).trans hf)
    rw [← append_assoc] at hr2 hn2
    refine ⟨new2 ++ new, ⟨hr2, ?_⟩, fun hm => (mem_append.1 hm).elim ht2 hk⟩
    intro σ ε W out s₀ hb
    rw [foldlM_cons, ok_bind (hr W out s₀ hb)]
    exact hn2 W out s₀ hb

/-- The walk from the next node, with enough fuel for the nodes that were not entered. -/
theorem exists_history : ∀ fuel {F} {es} {v}, Reached targets roots F es →
    Next targets roots F v → v ∉ entered es → (unentered es).card ≤ fuel →
      ∃ new, Continues targets roots (advance v F) es (new ++ .enter v :: es)
        (fun W out s => walk W targets out fuel s v) ∧ .tick ∉ new
  | 0, F, es, v, _, _, hn, hf => by
    exact absurd hf (Nat.not_le.2 (Finset.card_pos.2 ⟨v, mem_unentered.2 hn⟩))
  | fuel + 1, F, es, v, h, ht, hn, hf => by
    have hl := card_unentered_enter hn
    obtain ⟨new, ⟨hh, hr⟩, hk⟩ := exists_history_links (exists_history fuel) (targets v)
      (Reached.enter h ht hn) rfl (by omega)
    refine ⟨.leave v :: new, ⟨hh.leave, ?_⟩, by simpa using hk⟩
    intro σ ε W out s₀ hb
    rw [walk]
    exact ok_bind (hr W out s₀ hb) _

theorem exists_history_root (hf : Fintype.card V ≤ fuel) (h : Reached targets roots [] es) (hr : roots v)
    (hn : v ∉ entered es) :
    ∃ new, Continues targets roots [] es (new ++ .enter v :: es) (fun W out s => walk W targets out fuel s v) ∧
      .tick ∉ new :=
  exists_history fuel h (.root hr) hn ((Finset.card_le_univ _).trans hf)

/-- The events of the walks from these roots, each after a tick of its own. -/
inductive Laps : List V → List (Event V) → Prop
  | nil : Laps [] []
  | cons {r : V} {rs : List V} {new es : List (Event V)} (hnew : .tick ∉ new) (h : Laps rs es) :
      Laps (r :: rs) (es ++ (new ++ [.enter r, .tick]))

/-- The walks from those roots of a list that were not entered before. -/
theorem exists_history_roots (hf : Fintype.card V ≤ fuel) : ∀ rs {es},
    Reached targets roots [] es → (∀ r ∈ rs, roots r) → ∃ new starts, Continues targets roots [] es (new ++ es)
        (fun W out s => rs.foldlM (walkRoot W targets out fuel) s) ∧ (∀ r ∈ rs, r ∈ entered (new ++ es)) ∧
        Laps starts new ∧ starts.Sublist rs
  | [], es, h, _ => ⟨[], [], ⟨h, fun _ _ _ _ => rfl⟩, by simp, .nil, List.Sublist.slnil⟩
  | r :: rs, es, h, hrs => by
    have ht : ∀ r' ∈ rs, roots r' := fun r' hr' => hrs r' (mem_cons_of_mem r hr')
    by_cases hr : r ∈ entered es
    · obtain ⟨new, starts, ⟨hh, hrn⟩, hin, hl, hs⟩ := exists_history_roots hf rs h ht
      refine ⟨new, starts, ⟨hh, ?_⟩, ?_, hl, hs.cons r⟩
      · intro σ ε W out s₀ hb
        have hp : walkRoot W targets out fuel (W.run s₀ es) r = .ok (W.run s₀ es) :=
          if_pos ((Walker.visited_run hb es r).2 hr)
        rw [foldlM_cons, ok_bind hp]
        exact hrn W out s₀ hb
      · intro r' hr'
        rcases mem_cons.1 hr' with rfl | hr'
        · exact entered_subset (suffix_append new es) hr
        · exact hin r' hr'
    · obtain ⟨new, ⟨hh, hrn⟩, hk⟩ :=
        exists_history_root hf (.tick h) (hrs r mem_cons_self) hr
      have ha : new ++ .enter r :: .tick :: es = (new ++ [.enter r, .tick]) ++ es := by simp
      rw [ha] at hh hrn
      obtain ⟨new2, starts, ⟨hr2, hn2⟩, hi2, hl, hs⟩ := exists_history_roots hf rs hh ht
      rw [← append_assoc] at hr2 hn2 hi2
      refine ⟨_, r :: starts, ⟨hr2, ?_⟩, ?_, .cons hk hl, hs.cons_cons r⟩
      · intro σ ε W out s₀ hb
        have hn : ¬ W.visited (W.run s₀ es) r = true := fun hv => hr ((Walker.visited_run hb es r).1 hv)
        have hw : walkRoot W targets out fuel (W.run s₀ es) r = .ok (W.run s₀ (new ++ [.enter r, .tick] ++ es)) :=
          (if_neg hn).trans (hrn W out s₀ hb)
        rw [foldlM_cons, ok_bind hw]
        exact hn2 W out s₀ hb
      · intro r' hr'
        rcases mem_cons.1 hr' with rfl | hr'
        · rw [append_assoc, ← ha]
          exact entered_subset (suffix_append new2 _) mem_entered_append
        · exact hi2 r' hr'

end

theorem mem_tail_finRange {n} [NeZero n] {b} (hb : b ≠ 0) : b ∈ (finRange n).tail := by
  cases n with
  | zero => exact b.elim0
  | succ m =>
    obtain ⟨c, rfl⟩ := Fin.exists_succ_eq.2 hb
    simp [finRange_succ]

/-- The walks from the node 0 and then from all nodes that were not entered. -/
theorem exists_history_full {n} [NeZero n] (targets) :
    ∃ first new starts, Continues targets (fun _ => True) [] [] (new ++ (first ++ [.enter 0])) (fun W out s => do
      let s ← walk W targets out n s 0
      (finRange n).tail.foldlM (walkRoot W targets out n) s) ∧
      Continues targets (· = 0) [] [] (first ++ [.enter 0]) (fun W out s => walk W targets out n s 0) ∧
      .tick ∉ first ∧ Laps starts new ∧ starts.Sublist (finRange n).tail ∧
      ∀ v, v ∈ entered (new ++ (first ++ [.enter 0])) := by
  have hf : Fintype.card (Fin n) ≤ n := (Fintype.card_fin n).le
  have hsr : Reached targets (· = (0 : Fin n)) [] [] := .start
  have hn : (0 : Fin n) ∉ entered [] := not_mem_nil
  obtain ⟨first, ⟨hh, hr⟩, ht⟩ := exists_history_root hf hsr rfl hn
  obtain ⟨new, starts, ⟨hr2, hn2⟩, hin, hl, hs⟩ := exists_history_roots hf (finRange n).tail
    (hh.mono fun _ _ => trivial) fun _ _ => trivial
  refine ⟨first, new, starts, ⟨hr2, ?_⟩, ⟨hh, hr⟩, ht, hl, hs, ?_⟩
  · intro σ ε W out s₀ hb
    rw [ok_bind (hr W out s₀ hb)]
    exact hn2 W out s₀ hb
  · intro v
    by_cases hv : v = 0
    · rw [hv]
      exact entered_subset (suffix_append new _) mem_entered_append
    · exact hin v (mem_tail_finRange hv)

end Lib.DepthFirst
