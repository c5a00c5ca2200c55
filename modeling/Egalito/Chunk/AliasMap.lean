/-
The names of a module's functions (`FunctionAliasMap` in `chunk/aliasmap.cpp`).

The map is what the writes of all functions leave, the last one for each key. `find_default_iff` says when the answer
for a default name does not depend on the order of the functions.
-/
import Egalito.Disasm.Linear
import Mathlib.Data.List.Permutation

namespace Egalito.AliasMap

open List

abbrev Name := List Char

/-- What the constructor reads of a symbol. -/
structure NamedSymbol where
  name : Name
  aliases : List (SymbolType × Name)

/-- The functions of a module with their symbols; `F` stands for `Function *`. -/
structure Functions (F : Type) where
  getSymbol : F → Option NamedSymbol
  getDynamicSymbol : F → Option NamedSymbol

/-- What comes before the first occurrence of `ext`, if there is one. -/
def strstr (ext : Name) : Name → Option Name
  | [] => if ext = [] then some [] else none
  | c :: s => if ext <+: c :: s then some [] else (strstr ext s).map (c :: ·)

def atAtGlibc : Name := "@@GLIBC".toList

def atGlibc : Name := "@GLIBC".toList

/-- The key that `maybeSpecialAlias` writes: that of the first extension that occurs. -/
def maybeSpecialAlias (name : Name) : List Name := (strstr atAtGlibc name <|> strstr atGlibc name).toList

def isFunction (type : SymbolType) : Bool := type = .func ∨ type = .ifunc

/-- The keys written for a symbol, in order. -/
def symbolKeys (sym : NamedSymbol) : List Name :=
  (sym.aliases.filter fun a => isFunction a.1).flatMap (fun a => a.2 :: maybeSpecialAlias a.2) ++
    maybeSpecialAlias sym.name

variable {F : Type} (fs : Functions F)

/-- The keys that a function writes, for its symbol and its dynamic symbol. -/
def functionKeys (f : F) : List Name :=
  (fs.getSymbol f).toList.flatMap symbolKeys ++ (fs.getDynamicSymbol f).toList.flatMap symbolKeys

/-- The map after the constructor: the last write to a key stands first. -/
def FunctionAliasMap (functions : List F) : List (Name × F) :=
  functions.foldl (fun aliasMap f => (functionKeys fs f).foldl (fun aliasMap key => (key, f) :: aliasMap) aliasMap) []

def find (aliasMap : List (Name × F)) (name : Name) : Option F := aliasMap.lookup name

/-! ## Who is found -/

variable {f : F} {n : Name}

theorem find_foldl_keys (keys : List Name) : ∀ aliasMap : List (Name × F),
    find (keys.foldl (fun aliasMap key => (key, f) :: aliasMap) aliasMap) n =
      if n ∈ keys then some f else find aliasMap n := by
  induction keys with
  | nil => simp
  | cons key keys ih =>
    intro aliasMap
    rw [foldl_cons, ih]
    by_cases hs : n ∈ keys
    · simp [hs]
    · by_cases hk : n = key
      · simp [hk, find]
      · rw [if_neg hs, if_neg (by simp [hs, hk]), find, lookup_cons, beq_false_of_ne hk]
        rfl

/-- The last function that writes the key is found. -/
theorem find_concat (functions) : find (FunctionAliasMap fs (functions ++ [f])) n =
      if n ∈ functionKeys fs f then some f else find (FunctionAliasMap fs functions) n := by
  rw [FunctionAliasMap, foldl_append]
  exact find_foldl_keys _ _

theorem find_of_unique (functions) (hf : f ∈ functions) (hn : n ∈ functionKeys fs f)
    (hu : ∀ g ∈ functions, n ∈ functionKeys fs g → g = f) : find (FunctionAliasMap fs functions) n = some f := by
  induction functions using reverseRecOn with
  | nil => cases hf
  | append_singleton functions g ih =>
    rw [find_concat]
    split
    next hg => rw [hu g (by simp) hg]
    next hg =>
      have hm : f ∈ functions := by
        rcases mem_append.1 hf with hf | hf
        · exact hf
        · cases mem_singleton.1 hf
          exact absurd hn hg
      exact ih hm fun g' hg' => hu g' (mem_append_left _ hg')

/-- The name carries the default version of `n`. -/
def IsDefault (n s : Name) : Prop := ∃ version, s = n ++ atAtGlibc ++ version

/-- The function has a symbol, or an alias of one, with the default version of `n`. -/
def CarriesDefault (f : F) (n : Name) : Prop :=
  ∃ sym ∈ (fs.getSymbol f).toList ++ (fs.getDynamicSymbol f).toList,
    IsDefault n sym.name ∨ ∃ a ∈ sym.aliases, isFunction a.1 = true ∧ IsDefault n a.2

theorem strstr_default (hn : '@' ∉ n) (version) : strstr atAtGlibc (n ++ atAtGlibc ++ version) = some n := by
  induction n with
  | nil => exact if_pos (prefix_append atAtGlibc version)
  | cons c n ih =>
    rw [mem_cons, not_or] at hn
    have hne : ¬ atAtGlibc <+: c :: (n ++ atAtGlibc ++ version) := fun h => hn.1 (cons_prefix_cons.1 h).1
    rw [cons_append, cons_append, strstr, if_neg hne, ih hn.2]
    rfl

theorem mem_maybeSpecialAlias {s} (hn : '@' ∉ n) (h : IsDefault n s) : n ∈ maybeSpecialAlias s := by
  obtain ⟨version, rfl⟩ := h
  rw [maybeSpecialAlias, strstr_default hn]
  exact mem_singleton_self n

theorem mem_functionKeys (hn : '@' ∉ n) (h : CarriesDefault fs f n) : n ∈ functionKeys fs f := by
  obtain ⟨sym, hs, hd⟩ := h
  have hk : n ∈ symbolKeys sym := by
    unfold symbolKeys
    rcases hd with hm | ⟨a, ha, ht, hm⟩
    · exact mem_append_right _ (mem_maybeSpecialAlias hn hm)
    · refine mem_append_left _ (mem_flatMap.2 ⟨a, mem_filter.2 ⟨ha, ht⟩, ?_⟩)
      exact mem_cons_of_mem _ (mem_maybeSpecialAlias hn hm)
  unfold functionKeys
  rw [← flatMap_append]
  exact mem_flatMap.2 ⟨sym, hs, hk⟩

/-- The name of a default version, or a key of its own, leads to the function in every order of the functions exactly if
    no other function writes the same key. -/
theorem find_default_iff (functions : List F) (f : F) (n : Name) (hf : f ∈ functions) (hn : '@' ∉ n)
    (hcarries : CarriesDefault fs f n ∨ n ∈ functionKeys fs f) :
    (∀ functions', functions' ~ functions → find (FunctionAliasMap fs functions') n = some f) ↔
      ∀ g ∈ functions, n ∈ functionKeys fs g → g = f := by
  have hkey := hcarries.elim (mem_functionKeys fs hn) id
  constructor
  · intro h g hg hgn
    obtain ⟨pre, post, rfl⟩ := append_of_mem hg
    have hlt := h ((pre ++ post) ++ [g]) (perm_append_singleton g _ |>.trans perm_middle.symm)
    rw [find_concat, if_pos hgn] at hlt
    exact Option.some.inj hlt
  · intro h functions' hpm
    exact find_of_unique fs functions' (hpm.mem_iff.mpr hf) hkey fun g hg => h g (hpm.mem_iff.mp hg)

/-- Two functions, the first with the default version of `f` and the second with an old one. -/
def versions (old : String) : Functions Bool where
  getSymbol f := some ⟨(if f then old else "f@@GLIBC_2.34").toList, []⟩
  getDynamicSymbol _ := none

theorem find_default_iff_versions : find (FunctionAliasMap (versions "g@GLIBC_2.2") [false, true]) "f".toList = some false :=
  (find_default_iff (versions "g@GLIBC_2.2") [false, true] false "f".toList (by decide) (by decide)
    (.inl ⟨⟨"f@@GLIBC_2.34".toList, []⟩, by simp [versions], .inl ⟨"_2.34".toList, rfl⟩⟩)).mpr (by decide) _ .rfl

theorem find_old_version : CarriesDefault (versions "f@GLIBC_2.2") false "f".toList ∧
    find (FunctionAliasMap (versions "f@GLIBC_2.2") [false, true]) "f".toList = some true :=
  ⟨⟨⟨"f@@GLIBC_2.34".toList, []⟩, by simp [versions], .inl ⟨"_2.34".toList, rfl⟩⟩, by decide⟩

end Egalito.AliasMap
