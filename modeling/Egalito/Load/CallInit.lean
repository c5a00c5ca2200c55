/-
The order in which constructors are called (`CallInit::makeInitArray` in `load/callinit.cpp`).

Sweeps over the modules append those whose dependencies were met. A sweep keeps the order sorted, and one that adds
nothing leaves no module out. `makeInitArray_ordered` has the array that results and the number of initializers from
which on it is written past its end.
-/
import Egalito.Lib.Except
import Egalito.Util.Range
import Mathlib.Order.WellFoundedSet

namespace Egalito.CallInit

open Lib List

def EGALITO_INIT_ARRAY_SZ : Nat := 512

inductive Fault where
  | diverged
  | assertion
  | outOfBounds
  deriving DecidableEq

/-- A library stands for its module. `initArray` has the address of the function around each entry of the sections. -/
structure Program (M : Type) where
  modules : List M
  getName : M → String
  isMain : M → Bool
  getDependencies : M → List M
  getInit : M → Option Address
  initArray : M → List Address
  runtimeInit : Address

variable {M : Type} [DecidableEq M] (p : Program M)

def isFirst (m : M) : Bool := p.getName m = "module-libpthread.so.0"

/-- The modules in `order` are those in `met`. -/
def visit (order : List M) (m : M) : List M :=
  if p.isMain m then order
  else if m ∈ order then order
  else if p.getDependencies m ⊆ order then order ++ [m]
  else order

/-- The `do … while(size != met.size())` loop. -/
def sort : Nat → List M → Except Fault (List M)
  | 0, _ => .error .diverged
  | fuel + 1, order =>
    let order' := p.modules.foldl (visit p) order
    if order.length ≠ order'.length then sort fuel order' else .ok order'

/-- The functions to call, module by module in the order. -/
def initializers (order : List M) : List Address := order.flatMap fun m => (p.getInit m).toList ++ p.initArray m

/-- `egalito_init_array[init_index++] = f`, where the entries start at index 4. -/
def push (entries : List Address) (f : Address) : Except Fault (List Address) :=
  if 4 + entries.length < EGALITO_INIT_ARRAY_SZ then .ok (entries ++ [f]) else .error .outOfBounds

/-- The entries from index 4 on. -/
def makeInitArray (fuel : Nat) : Except Fault (List Address) := do
  let order ← sort p fuel (p.modules.filter (isFirst p))
  if ∀ m ∈ p.modules, m ∉ order → p.isMain m then
    let entries ← (initializers p order ++ [p.runtimeInit]).foldlM push []
    if 4 + entries.length + 1 ≤ EGALITO_INIT_ARRAY_SZ then .ok entries else .error .assertion
  else .error .assertion

/-! ## The sort -/

def nonMain : List M := p.modules.filter fun m => !p.isMain m

/-- Every module but those that go first comes after its dependencies. -/
def Ordered (order : List M) : Prop :=
  ∀ pre m post, order = pre ++ m :: post → isFirst p m = false → p.getDependencies m ⊆ pre

/-- What the loader has made sure of: dependencies are loaded and not circular. -/
structure WellFormed : Prop where
  nodup : p.modules.Nodup
  loaded : ∀ m ∈ nonMain p, p.getDependencies m ⊆ nonMain p
  first : ∀ m ∈ p.modules, isFirst p m = true → p.isMain m = false
  acyclic : ∀ m, ¬ Relation.TransGen (fun dep m => dep ∈ p.getDependencies m) m m

structure Sorted (order : List M) : Prop where
  mem : order ⊆ nonMain p
  nodup : order.Nodup
  ordered : Ordered p order

variable {p} {order : List M} {m : M}

/-- What a visit can do. -/
theorem visit_cases (p : Program M) (order m) :
    visit p order m = order ∧ (p.isMain m = false → p.getDependencies m ⊆ order → m ∈ order) ∨
      visit p order m = order ++ [m] ∧ p.isMain m = false ∧ m ∉ order ∧ p.getDependencies m ⊆ order := by
  unfold visit
  split_ifs with hmn hmt hdp
  · exact .inl ⟨rfl, fun h => by simp [hmn] at h⟩
  · exact .inl ⟨rfl, fun _ _ => hmt⟩
  · exact .inr ⟨rfl, Bool.eq_false_iff.2 hmn, hmt, hdp⟩
  · exact .inl ⟨rfl, fun _ h => absurd h hdp⟩

omit [DecidableEq M] in
theorem Ordered.concat (h : Ordered p order) (hm : p.getDependencies m ⊆ order) : Ordered p (order ++ [m]) := by
  intro pre m₁ post heq hf
  rcases eq_nil_or_concat' post with rfl | ⟨post, x, rfl⟩
  · obtain ⟨rfl, hx⟩ := append_inj' heq rfl
    obtain rfl := singleton_inj.1 hx
    exact hm
  · rw [← cons_append, ← append_assoc] at heq
    exact h pre m₁ post (append_inj' heq rfl).1 hf

omit [DecidableEq M] in
theorem sorted_first (h : WellFormed p) : Sorted p (p.modules.filter (isFirst p)) where
  mem m hm := by
    obtain ⟨hm, hf⟩ := mem_filter.1 hm
    exact mem_filter.2 ⟨hm, by simp [h.first m hm hf]⟩
  nodup := h.nodup.filter _
  ordered pre m post heq hf := by
    have hm : m ∈ p.modules.filter (isFirst p) := by simp [heq]
    rw [(mem_filter.1 hm).2] at hf
    cases hf

theorem Sorted.visit (h : Sorted p order) (hm : m ∈ p.modules) : Sorted p (visit p order m) := by
  rcases visit_cases p order m with ⟨heq, -⟩ | ⟨heq, hn, ht, hd⟩ <;> rw [heq]
  · exact h
  · refine ⟨append_subset.2 ⟨h.mem, ?_⟩, ?_, h.ordered.concat hd⟩
    · exact cons_subset.2 ⟨mem_filter.2 ⟨hm, by simp [hn]⟩, nil_subset _⟩
    · rw [nodup_append_comm]
      exact nodup_cons.2 ⟨ht, h.nodup⟩

/-- A sweep keeps the order sorted, and one that adds no module leaves nothing to be added. -/
theorem sweep_spec : ∀ {l : List M}, l ⊆ p.modules → ∀ {order}, Sorted p order →
    Sorted p (l.foldl (visit p) order) ∧ order.length ≤ (l.foldl (visit p) order).length ∧
      (order.length = (l.foldl (visit p) order).length →
        l.foldl (visit p) order = order ∧ ∀ m ∈ l, visit p order m = order)
  | [], _, _, h => ⟨h, Nat.le_refl _, fun _ => ⟨rfl, by simp⟩⟩
  | m :: l, hs, order, h => by
    obtain ⟨hm, hs⟩ := cons_subset.1 hs
    obtain ⟨ht, hle, hf⟩ := sweep_spec hs (h.visit hm)
    rw [foldl_cons]
    rcases visit_cases p order m with ⟨heq, -⟩ | ⟨heq, -⟩ <;> rw [heq] at ht hle hf ⊢
    · exact ⟨ht, hle, fun hl => ⟨(hf hl).1, forall_mem_cons.2 ⟨heq, (hf hl).2⟩⟩⟩
    · rw [length_append, length_singleton] at hle
      exact ⟨ht, by omega, by omega⟩

theorem sort_spec : ∀ fuel {order : List M}, Sorted p order → (nonMain p).length < fuel + order.length →
    ∃ order', sort p fuel order = .ok order' ∧ Sorted p order' ∧ ∀ m ∈ p.modules, visit p order' m = order'
  | 0, order, h, hf => by
    have := (h.nodup.subperm h.mem).length_le
    omega
  | fuel + 1, order, h, hf => by
    obtain ⟨hs, hle, hx⟩ := sweep_spec (Subset.refl p.modules) h
    unfold sort
    dsimp only
    split
    next hne => exact sort_spec fuel hs (by omega)
    next heq =>
      obtain ⟨hp, hv⟩ := hx (not_not.1 heq)
      rw [hp]
      exact ⟨order, rfl, h, hv⟩

/-- When no visit changes anything, all modules are in the order: an induction along the dependencies. -/
theorem mem_of_fixed (h : WellFormed p) (hf : ∀ m ∈ p.modules, visit p order m = order) : nonMain p ⊆ order := by
  have : IsStrictOrder M (Relation.TransGen fun dep m => dep ∈ p.getDependencies m) :=
    { irrefl := h.acyclic, trans := fun _ _ _ => .trans }
  have hwf := (finite_toSet (nonMain p)).wellFoundedOn (r := Relation.TransGen fun dep m => dep ∈ p.getDependencies m)
  intro m hm
  refine hwf.induction (P := (· ∈ order)) hm fun m hm ih => ?_
  obtain ⟨hmd, hn⟩ := mem_filter.1 hm
  rcases visit_cases p order m with ⟨-, ha⟩ | ⟨heq, -⟩
  · exact ha (by simpa using hn) fun dep hd => ih dep (h.loaded m hm hd) (.single hd)
  · have := congrArg length (heq.symm.trans (hf m hmd))
    simp at this

/-! ## The array -/

theorem foldlM_push : ∀ (l entries : List Address), 4 + entries.length + l.length ≤ EGALITO_INIT_ARRAY_SZ →
    l.foldlM push entries = .ok (entries ++ l)
  | [], entries, _ => by rw [append_nil]; rfl
  | f :: l, entries, h => by
    rw [length_cons] at h
    rw [foldlM_cons, push, if_pos (by omega)]
    refine (foldlM_push l (entries ++ [f]) ?_).trans (by rw [append_assoc]; rfl)
    rw [length_append, length_singleton]
    omega

/-- Nothing is tested before a write, so a list that is too long for the array is written past its end. -/
theorem foldlM_push_overflow : ∀ (l entries : List Address), 4 + entries.length ≤ EGALITO_INIT_ARRAY_SZ →
    EGALITO_INIT_ARRAY_SZ < 4 + entries.length + l.length → l.foldlM push entries = .error .outOfBounds
  | [], _, hle, h => absurd hle (Nat.not_le_of_lt h)
  | f :: l, entries, hle, h => by
    rw [length_cons] at h
    rw [foldlM_cons, push]
    split
    next hlt =>
      refine foldlM_push_overflow l (entries ++ [f]) ?_ ?_ <;> rw [length_append, length_singleton] <;> omega
    next => rfl

/-- The sort ends with every module but libpthread after its dependencies. The array from index 4 on then has the
    initializers in that order with the runtime's behind them, if they fit; with one too many for the final assertion that
    assertion fails, and with more than that the writes leave the array. So nothing is written outside if and only if
    there are at most 507 initializers. -/
theorem makeInitArray_ordered (p : Program M) (h : WellFormed p) (fuel : Nat) (hfl : p.modules.length < fuel) :
    ∃ order, order ~ nonMain p ∧ Ordered p order ∧
      (makeInitArray p fuel =
        if 4 + (initializers p (nonMain p)).length + 1 < EGALITO_INIT_ARRAY_SZ then
          .ok (initializers p order ++ [p.runtimeInit])
        else if 4 + (initializers p (nonMain p)).length + 1 = EGALITO_INIT_ARRAY_SZ then .error .assertion
        else .error .outOfBounds) ∧
      (makeInitArray p fuel ≠ .error .outOfBounds ↔ (initializers p (nonMain p)).length ≤ 507) := by
  have hle : (nonMain p).length ≤ p.modules.length := length_filter_le _ _
  obtain ⟨order, hso, hsrt, hfix⟩ := sort_spec fuel (sorted_first h) (by omega)
  have hmem := mem_of_fixed h hfix
  have hpm : order ~ nonMain p :=
    (perm_ext_iff_of_nodup hsrt.nodup (h.nodup.filter _)).mpr fun m => ⟨fun hm => hsrt.mem hm, fun hm => hmem hm⟩
  have hlen : (initializers p order).length = (initializers p (nonMain p)).length := (hpm.flatMap_right _).length_eq
  have hall : ∀ m ∈ p.modules, m ∉ order → p.isMain m := by
    intro m hm hne
    by_contra hmn
    exact hne (hmem (mem_filter.mpr ⟨hm, by simp [hmn]⟩))
  have hrun : makeInitArray p fuel = (initializers p order ++ [p.runtimeInit]).foldlM push [] >>= fun entries =>
      if 4 + entries.length + 1 ≤ EGALITO_INIT_ARRAY_SZ then .ok entries else .error .assertion := by
    rw [makeInitArray, hso]
    exact if_pos hall
  have hres : makeInitArray p fuel =
      if 4 + (initializers p order).length + 1 < EGALITO_INIT_ARRAY_SZ then
        .ok (initializers p order ++ [p.runtimeInit])
      else if 4 + (initializers p order).length + 1 = EGALITO_INIT_ARRAY_SZ then .error .assertion
      else .error .outOfBounds := by
    rw [hrun]
    by_cases hft : 4 + (initializers p order).length + 1 ≤ EGALITO_INIT_ARRAY_SZ
    · have hps := foldlM_push (initializers p order ++ [p.runtimeInit]) [] (by simpa [Nat.add_assoc] using hft)
      rw [ok_bind hps, nil_append, length_append, length_singleton, ← Nat.add_assoc]
      split_ifs <;> first | rfl | omega
    · rw [foldlM_push_overflow _ [] (by decide) (by simpa [Nat.add_assoc] using hft), if_neg (by omega),
        if_neg (by omega)]
      rfl
  rw [← hlen]
  refine ⟨order, hpm, hsrt.ordered, hres, ?_⟩
  rw [hres, EGALITO_INIT_ARRAY_SZ]
  split_ifs <;> simp <;> omega

/-- Two libraries, the first of which needs the second, with `n` initializers each. -/
def twoLibraries (n : Nat) : Program Bool where
  modules := [true, false]
  getName _ := "module-lib"
  isMain _ := false
  getDependencies m := if m then [false] else []
  getInit _ := none
  initArray _ := replicate n 0
  runtimeInit := 1

theorem twoLibraries_wellFormed (n : Nat) : WellFormed (twoLibraries n) where
  nodup := by simp [twoLibraries]
  loaded := by simp [twoLibraries, nonMain]
  first := by simp [twoLibraries]
  acyclic m h := by
    have hlt : ∀ dep m : Bool, dep ∈ (twoLibraries n).getDependencies m → dep < m := by simp [twoLibraries]
    have hself := Relation.TransGen.mono hlt m m h
    rw [Relation.transGen_eq_self] at hself
    exact lt_irrefl m hself

theorem makeInitArray_ordered_two : ∃ order, order ~ [true, false] ∧ Ordered (twoLibraries 1) order ∧
    makeInitArray (twoLibraries 1) 3 = .ok (initializers (twoLibraries 1) order ++ [1]) := by
  obtain ⟨order, hpm, hod, hres, -⟩ := makeInitArray_ordered (twoLibraries 1) (twoLibraries_wellFormed 1) 3 (by decide)
  exact ⟨order, hpm, hod, hres⟩

/-- With 508 initializers `egalito_runtime_init` is written outside the array. -/
theorem makeInitArray_overflow :
    WellFormed (twoLibraries 254) ∧ makeInitArray (twoLibraries 254) 3 = .error .outOfBounds :=
  ⟨twoLibraries_wellFormed 254, by decide +kernel⟩

end Egalito.CallInit
