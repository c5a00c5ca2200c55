/-
The symbols of an executable and their aliases (SymbolList::buildSymbolList).

The first step joins the symbols of one address and section in a union-find structure, where `edgeComparator` decides
between two roots. The structure is followed through the loops: the classes are those of the addresses and sections
(`representative_classes`), and the representative of a class is what is left when its symbols are compared one after the
other in the order of the sort (`find_eq_winner`). The second step leads from a symbol to the first one of its name.
Together they say what each symbol is an alias for (`aliasFor_eq`), and so when no function is lost.
-/
import Egalito.Lib.OrderedMap
import Egalito.Lib.UnionFind
import Egalito.Util.Range

namespace Egalito.SymbolAliases

open Lib UnionFind List

/-! ## Symbols -/

inductive SymbolType
  | func | ifunc | object | sectionType | file | tls | notype | unknown
deriving DecidableEq

inductive BindingType
  | bindLocal | bindGlobal | bindWeak
deriving DecidableEq

structure Symbol where
  address : Address
  size : Nat
  name : String
  symbolType : SymbolType
  bindingType : BindingType
  shndx : Nat

/-- Which sections exist and hold code, and the sizes of `.init` and `.fini`. -/
structure ElfMap where
  isExecutable : Nat → Bool
  initSize : Option Nat
  finiSize : Option Nat

variable {n : Nat}

/-- SymbolList::find, before there are aliases: the first symbol with the name. -/
def findName (symbols : Fin n → Symbol) (name : String) : Option (Fin n) :=
  (List.finRange n).find? fun i => (symbols i).name = name

def fixNamed (name : String) (f : Symbol → Symbol) (symbols : Fin n → Symbol) : Fin n → Symbol :=
  match findName symbols name with
  | some i => Function.update symbols i (f (symbols i))
  | none => symbols

def fixFunctionTypes (elf : ElfMap) (symbols : Fin n → Symbol) : Fin n → Symbol := fun i =>
  if (symbols i).symbolType = .notype ∧ elf.isExecutable (symbols i).shndx then
    { symbols i with symbolType := .func }
  else symbols i

def setSize (size : Option Nat) (s : Symbol) : Symbol :=
  match size with
  | some size => { s with size := size }
  | none => s

/-- The corrections that are made by name and by section before the symbols are sorted. -/
def fixSymbols (elf : ElfMap) (table : Fin n → Symbol) : Fin n → Symbol :=
  let symbols := fixFunctionTypes elf table
  let symbols := fixNamed "_start" (fun s => if s.size = 0 then { s with symbolType := .func } else s) symbols
  let symbols := fixNamed "_init" (setSize elf.initSize) symbols
  let symbols := fixNamed "_fini" (setSize elf.finiSize) symbols
  let symbols := fixNamed "__init_array_begin" (fun s => { s with symbolType := .object, size := 8 }) symbols
  let symbols := fixNamed "__init_array_end" (fun s => { s with symbolType := .object, size := 8 }) symbols
  let symbols := fixNamed "_dl_starting_up" (fun s => { s with symbolType := .object }) symbols
  fixNamed "buildsig" (fun s => { s with size := 0x24 }) symbols

/-- `spaceMap`, which is made when the symbols are added, with the number of the last symbol at each
    address. -/
def spaceMap (table : Fin n → Symbol) : List (Nat × Fin n) :=
  assignAll (((List.finRange n).filter fun i =>
    (table i).symbolType ≠ .sectionType ∧ (table i).name.toList.head? ≠ some '$').map fun i =>
      ((table i).address.toNat, i))

/-- The loop of estimateSizeOf from the upper bound on. -/
def estimateFrom (symbols : Fin n → Symbol) (s : Symbol) : List (Nat × Fin n) → Nat
  | [] => 0
  | (_, j) :: rest =>
    if (symbols j).name = "$d" then estimateFrom symbols s rest
    else if (symbols j).shndx = s.shndx then ((symbols j).address - s.address).toNat
    else 0

def estimateSizeOf (table symbols : Fin n → Symbol) (s : Symbol) : Nat :=
  estimateFrom symbols s ((spaceMap table).filter fun e => s.address.toNat < e.1)

def estimateSizes (table symbols : Fin n → Symbol) : Fin n → Symbol := fun i =>
  if (symbols i).size = 0 ∧ 0 < (symbols i).address.toNat then
    { symbols i with size := estimateSizeOf table symbols (symbols i) }
  else symbols i

/-! ## Aliases by address -/

/-- `strstr` finds the second string in the first. -/
def contains (s t : String) : Prop := t.toList <:+: s.toList

instance (s t : String) : Decidable (contains s t) := inferInstanceAs (Decidable (t.toList <:+: s.toList))

/-- A mapping symbol of ARM, such as `$x` or `$d`. -/
def isMapping (s : Symbol) : Prop := s.bindingType = .bindLocal ∧ s.name.toList.head? = some '$'

instance (s : Symbol) : Decidable (isMapping s) := inferInstanceAs (Decidable (_ ∧ _))

/-- `.lt` stands for -1, where the second symbol becomes the parent, and `.gt` for +1. -/
def edgeComparator (s₁ s₂ : Symbol) : Ordering :=
  if s₁.symbolType ≠ s₂.symbolType ∧ s₁.symbolType = .sectionType then .lt
  else if s₁.symbolType ≠ s₂.symbolType ∧ s₂.symbolType = .sectionType then .gt
  else if s₁.symbolType ≠ s₂.symbolType ∧ s₁.symbolType = .file then .lt
  else if s₁.symbolType ≠ s₂.symbolType ∧ s₂.symbolType = .file then .gt
  else if isMapping s₁ then .lt
  else if isMapping s₂ then .gt
  else if contains s₁.name s₂.name then .lt
  else if contains s₂.name s₁.name then .gt
  else if contains s₁.name "@@" then .gt
  else if contains s₂.name "@@" then .lt
  else if contains s₁.name "@" then .lt
  else if contains s₂.name "@" then .gt
  else if s₁.bindingType ≠ s₂.bindingType then
    if s₁.bindingType = .bindLocal then .lt
    else if s₂.bindingType = .bindLocal then .gt
    else if s₁.bindingType = .bindGlobal then .gt
    else if s₂.bindingType = .bindGlobal then .lt
    else if s₁.bindingType = .bindWeak then .gt
    else .lt
  else if s₁.size ≠ s₂.size ∧ s₁.size = 0 then .lt
  else if s₁.size ≠ s₂.size ∧ s₂.size = 0 then .gt
  else .lt

/-- What std::sort can make of the symbols: any order by address. -/
structure SortedList (symbols : Fin n → Symbol) where
  order : Equiv.Perm (Fin n)
  sorted : ∀ i j, i ≤ j → (symbols (order i)).address.toNat ≤ (symbols (order j)).address.toNat

variable {symbols : Fin n → Symbol}

def SortedList.get (sorted : SortedList symbols) (i : Fin n) : Symbol := symbols (sorted.order i)

def SortedList.compare (sorted : SortedList symbols) (i j : Fin n) : Ordering :=
  edgeComparator (sorted.get i) (sorted.get j)

/-- The inner loop of constructByAddress. -/
def joinFollowing (sorted : SortedList symbols) (i : Fin n) : List (Fin n) → UnionFind n → UnionFind n
  | [], u => u
  | j :: rest, u =>
    if (sorted.get i).address ≠ (sorted.get j).address then u
    else if (sorted.get j).symbolType = .file then joinFollowing sorted i rest u
    else if (sorted.get i).shndx = (sorted.get j).shndx then
      joinFollowing sorted i rest (u.join sorted.compare i j)
    else joinFollowing sorted i rest u

def joinFrom (sorted : SortedList symbols) (u : UnionFind n) (i : Fin n) : UnionFind n :=
  if (sorted.get i).symbolType = .file then u
  else joinFollowing sorted i ((List.finRange n).filter (i < ·)) u

/-- Every symbol is joined with those behind it at its address. -/
def constructByAddress (sorted : SortedList symbols) : UnionFind n :=
  (List.finRange n).foldl (joinFrom sorted) (UnionFind.new n)

def aliasByAddress (sorted : SortedList symbols) : Fin n → Option (Fin n) := fun k =>
  let i := sorted.order.symm k
  let rep := (constructByAddress sorted).find i
  if rep ≠ i then some (sorted.order rep) else none

/-- The symbols that the second step looks at. -/
def Participates (s : Symbol) : Prop :=
  s.name ≠ "" ∧ s.bindingType ≠ .bindLocal ∧ s.symbolType ≠ .sectionType ∧ s.symbolType ≠ .file

instance (s : Symbol) : Decidable (Participates s) := inferInstanceAs (Decidable (_ ∧ _))

/-- The loop over the symbols with `seenNamed`. -/
def aliasByName (symbols : Fin n → Symbol) : List (Fin n) → List (String × Fin n) → (Fin n → Option (Fin n)) →
    Fin n → Option (Fin n)
  | [], _, aliasFor => aliasFor
  | i :: rest, seen, aliasFor =>
    if Participates (symbols i) then
      match seen.lookup (symbols i).name with
      | some prev =>
        aliasByName symbols rest seen
          (if aliasFor i = none then Function.update aliasFor i (some prev) else aliasFor)
      | none => aliasByName symbols rest (((symbols i).name, i) :: seen) aliasFor
    else aliasByName symbols rest seen aliasFor

/-- The symbols in the end, and what each of them is an alias for. -/
structure SymbolList (n : Nat) where
  symbols : Fin n → Symbol
  aliasFor : Fin n → Option (Fin n)

/-- The symbols of a table, with aliases by address and then by name. -/
def buildSymbolList (elf : ElfMap) (table : Fin n → Symbol) (sorted : SortedList (fixSymbols elf table)) : SymbolList n where
  symbols := estimateSizes table (fixSymbols elf table)
  aliasFor := aliasByName (fixSymbols elf table) (List.finRange n) [] (aliasByAddress sorted)

/-- A function with a size and a section, whether it is an alias or not. -/
def DefinedFunction (s : Symbol) : Prop :=
  (s.symbolType = .func ∨ s.symbolType = .ifunc) ∧ 0 < s.size ∧ 0 < s.shndx

instance (s : Symbol) : Decidable (DefinedFunction s) := inferInstanceAs (Decidable (_ ∧ _))

def SymbolList.isFunction (l : SymbolList n) (i : Fin n) : Prop := DefinedFunction (l.symbols i) ∧ l.aliasFor i = none

instance (l : SymbolList n) (i : Fin n) : Decidable (l.isFunction i) := inferInstanceAs (Decidable (_ ∧ _))

/-! ## Representatives -/

variable {sorted : SortedList symbols} {u : UnionFind n} {i j k : Fin n}

theorem edgeComparator_lt {s1 s2} (h : edgeComparator s1 s2 = .lt) (hs : s2.symbolType = .sectionType) :
    s1.symbolType = .sectionType := by
  by_contra hne
  simp [edgeComparator, hs, hne] at h

theorem edgeComparator_gt {s1 s2} (h : edgeComparator s1 s2 = .gt) (hs : s1.symbolType = .sectionType) :
    s2.symbolType = .sectionType := by
  by_contra hne
  simp [edgeComparator, hs, Ne.symm hne] at h

/-- Two symbols that may be joined. -/
structure SameClass (s t : Symbol) : Prop where
  address : s.address = t.address
  shndx : s.shndx = t.shndx
  left : s.symbolType ≠ .file
  right : t.symbolType ≠ .file

variable {s t : Symbol}

theorem SameClass.symm (h : SameClass s t) : SameClass t s :=
  ⟨h.address.symm, h.shndx.symm, h.right, h.left⟩

theorem SameClass.trans {r} (h : SameClass s t) (h' : SameClass t r) : SameClass s r :=
  ⟨h.address.trans h'.address, h.shndx.trans h'.shndx, h.left, h'.right⟩

/-- What holds between a symbol and its parent: they are of one class, and a section symbol is a parent of
    section symbols only. -/
def Below (s t : Symbol) : Prop := s = t ∨ SameClass s t ∧ (t.symbolType = .sectionType → s.symbolType = .sectionType)

theorem Below.trans {r} (h : Below s t) (h' : Below t r) : Below s r := by
  rcases h with rfl | ⟨hc, hs⟩
  · exact h'
  · rcases h' with rfl | ⟨hc', hs'⟩
    · exact .inr ⟨hc, hs⟩
    · exact .inr ⟨hc.trans hc', fun hr => hs (hs' hr)⟩

theorem Below.sameClass (h : Below s t) (hs : s.symbolType ≠ .file) : SameClass s t := by
  rcases h with rfl | ⟨hc, -⟩
  · exact ⟨rfl, rfl, hs, hs⟩
  · exact hc

/-- The edges of the structure lead upwards. -/
def Ordered (sorted : SortedList symbols) (u : UnionFind n) : Prop := ∀ z, Below (sorted.get z) (sorted.get (u.parent z))

theorem Ordered.find (h : Ordered sorted u) (z) : Below (sorted.get z) (sorted.get (u.find z)) :=
  find_rel (R := fun x y => Below (sorted.get x) (sorted.get y)) (fun _ => .inl rfl)
    (fun _ _ _ => Below.trans) h z

theorem Ordered.join (h : Ordered sorted u) (hc : SameClass (sorted.get i) (sorted.get j)) :
    Ordered sorted (u.join sorted.compare i j) := by
  have hr := ((h.find i).sameClass hc.left).symm.trans (hc.trans ((h.find j).sameClass hc.right))
  apply join_edges (R := fun x y => Below (sorted.get x) (sorted.get y)) h
  · intro hlt
    exact .inr ⟨hr, edgeComparator_lt hlt⟩
  · intro hgt
    exact .inr ⟨hr.symm, edgeComparator_gt hgt⟩

section

variable {P : UnionFind n → Prop}

/-- What all joins within a class keep is kept by the loops. -/
theorem joinFollowing_kept
    (hjoin : ∀ {u j}, SameClass (sorted.get i) (sorted.get j) → P u → P (u.join sorted.compare i j))
    (hi : (sorted.get i).symbolType ≠ .file) : ∀ {js u}, P u → P (joinFollowing sorted i js u)
  | [], _, h => h
  | j :: js, u, h => by
    rw [joinFollowing]
    split_ifs with haddr hfile hshndx
    · exact h
    · exact joinFollowing_kept hjoin hi h
    · exact joinFollowing_kept hjoin hi (hjoin ⟨not_not.1 haddr, hshndx, hi, hfile⟩ h)
    · exact joinFollowing_kept hjoin hi h

theorem foldl_kept : ∀ {is : List (Fin n)} {u : UnionFind n},
    (∀ i ∈ is, ∀ {u j}, SameClass (sorted.get i) (sorted.get j) → P u → P (u.join sorted.compare i j)) →
    P u → P (is.foldl (joinFrom sorted) u)
  | [], _, _, h => h
  | i :: is, u, hjoin, h => by
    obtain ⟨hi, his⟩ := forall_mem_cons.1 hjoin
    rw [foldl_cons]
    refine foldl_kept his ?_
    unfold joinFrom
    split_ifs with hfile
    · exact h
    · exact joinFollowing_kept hi hfile h

end

theorem ordered_constructByAddress (sorted : SortedList symbols) : Ordered sorted (constructByAddress sorted) :=
  foldl_kept (fun _ _ _ _ hc h => Ordered.join h hc) fun _ => .inl rfl

/-- The root of the class of a symbol. -/
def representative (sorted : SortedList symbols) (k : Fin n) : Fin n :=
  sorted.order ((constructByAddress sorted).find (sorted.order.symm k))

theorem below_representative (sorted : SortedList symbols) (k : Fin n) :
    Below (symbols k) (symbols (representative sorted k)) := by
  have h := (ordered_constructByAddress sorted).find (sorted.order.symm k)
  rwa [SortedList.get, Equiv.apply_symm_apply] at h

/-! ## Classes -/

theorem edgeComparator_ne (s1 s2) : edgeComparator s1 s2 ≠ .eq := by
  have hi {p : Prop} [Decidable p] {a b : Ordering} (ha : a ≠ .eq) (hb : b ≠ .eq) : (if p then a else b) ≠ .eq := by
    split
    · exact ha
    · exact hb
  unfold edgeComparator
  repeat' apply hi
  all_goals decide

theorem find_join_eq {e f} (h : u.find e = u.find f) :
    (u.join sorted.compare i j).find e = (u.join sorted.compare i j).find f := by
  rw [find_join (edgeComparator_ne _ _), find_join (edgeComparator_ne _ _), h]

/-- The symbols between two of one address have it too. -/
theorem address_between {e : Fin n} (hie : i ≤ e) (hej : e ≤ j) (h : (sorted.get i).address = (sorted.get j).address) :
    (sorted.get i).address = (sorted.get e).address := by
  have h1 := sorted.sorted i e hie
  have h2 := sorted.sorted e j hej
  have h3 := congrArg BitVec.toNat h
  simp only [SortedList.get] at h3 ⊢
  exact BitVec.eq_of_toNat_eq (by omega)

/-- The symbols at one address are all reached before the loop ends. -/
theorem joinFollowing_joins (hc : SameClass (sorted.get i) (sorted.get j)) : ∀ {js u},
    js.Pairwise (· < ·) → (∀ e ∈ js, i < e) → j ∈ js →
    (joinFollowing sorted i js u).find i = (joinFollowing sorted i js u).find j
  | e :: js, u, hs, hlt, hj => by
    obtain ⟨hf, hs⟩ := pairwise_cons.1 hs
    obtain ⟨hi, hlt⟩ := forall_mem_cons.1 hlt
    have he := (mem_cons.1 hj).elim ge_of_eq fun hm => (hf j hm).le
    rw [joinFollowing, if_neg (not_not.2 (address_between hi.le he hc.address))]
    rcases mem_cons.1 hj with rfl | hm
    · rw [if_neg hc.right, if_pos hc.shndx]
      refine joinFollowing_kept (P := fun u => u.find i = u.find j) (fun _ => find_join_eq) hc.left ?_
      rw [find_join (edgeComparator_ne _ _), find_join (edgeComparator_ne _ _)]
      simp
    · split_ifs
      all_goals exact joinFollowing_joins hc hs hlt hm

theorem filter_lt_finRange {before after : List (Fin n)} (h : List.finRange n = before ++ i :: after) :
    (List.finRange n).filter (i < ·) = after := by
  have hs := pairwise_lt_finRange n
  rw [h] at hs ⊢
  obtain ⟨-, hia, hb⟩ := pairwise_append.1 hs
  have hbf : before.filter (i < ·) = [] := by
    rw [filter_eq_nil_iff]
    intro e he
    simpa using (hb e he i mem_cons_self).le
  have haf : after.filter (i < ·) = after := by
    rw [filter_eq_self]
    intro e he
    simpa using (pairwise_cons.1 hia).1 e he
  rw [filter_append, filter_cons_of_neg (by simp), hbf, haf, nil_append]

theorem find_constructByAddress (hc : SameClass (sorted.get i) (sorted.get j)) :
    (constructByAddress sorted).find i = (constructByAddress sorted).find j := by
  wlog hij : i < j generalizing i j
  · rcases eq_or_lt_of_le (not_lt.1 hij) with rfl | hji
    · rfl
    · exact (this hc.symm hji).symm
  obtain ⟨before, after, hs⟩ := append_of_mem (mem_finRange i)
  rw [constructByAddress, hs, foldl_append, foldl_cons, joinFrom, if_neg hc.left]
  refine foldl_kept (P := fun u => u.find i = u.find j) (fun _ _ _ _ _ => find_join_eq) ?_
  refine joinFollowing_joins hc ((pairwise_lt_finRange n).filter _) (fun e he => ?_) ?_
  · simpa using he
  · simpa using hij

/-! ## Winners -/

instance (s t : Symbol) : Decidable (SameClass s t) :=
  decidable_of_iff (s.address = t.address ∧ s.shndx = t.shndx ∧ s.symbolType ≠ .file ∧ t.symbolType ≠ .file)
    ⟨fun ⟨ha, hs, hl, hr⟩ => ⟨ha, hs, hl, hr⟩, fun h => ⟨h.address, h.shndx, h.left, h.right⟩⟩

def better (sorted : SortedList symbols) (r j : Fin n) : Fin n := if sorted.compare r j = .gt then r else j

/-- What is left of the symbols of a class when they are compared one after the other in the order of the sort. -/
def winner (sorted : SortedList symbols) (i : Fin n) : Fin n :=
  match (List.finRange n).filter fun j => SameClass (sorted.get i) (sorted.get j) with
  | [] => i
  | m :: ms => ms.foldl (better sorted) m

/-- A join does not touch another class. -/
theorem Ordered.find_join_of_not (h : Ordered sorted u) (hc : SameClass (sorted.get i) (sorted.get j))
    (hk : ¬SameClass (sorted.get i) (sorted.get k)) : (u.join sorted.compare i j).find k = u.find k := by
  have hne {e : Fin n} (he : SameClass (sorted.get i) (sorted.get e)) : u.find k ≠ u.find e := by
    intro heq
    have hr := (h.find e).sameClass he.right
    have hb := h.find k
    rw [heq] at hb
    rcases hb with hb | ⟨hb, -⟩
    · exact hk (hb ▸ he.trans hr)
    · exact hk (he.trans (hr.trans hb.symm))
  rw [find_join (edgeComparator_ne _ _), if_neg]
  rintro (heq | heq)
  · exact hne ⟨rfl, rfl, hc.left, hc.left⟩ heq
  · exact hne hc heq

theorem find_foldl_of_not {is : List (Fin n)} (h : ∀ i ∈ is, ¬SameClass (sorted.get i) (sorted.get k))
    (hu : Ordered sorted u) : (is.foldl (joinFrom sorted) u).find k = u.find k := by
  refine (foldl_kept (P := fun u' => Ordered sorted u' ∧ u'.find k = u.find k) ?_ ⟨hu, rfl⟩).2
  rintro i hi u j hc ⟨ho, hf⟩
  exact ⟨ho.join hc, (ho.find_join_of_not hc (h i hi)).trans hf⟩

/-- The loop from the first symbol of the class: the others are still alone when they are reached. -/
theorem joinFollowing_winner (hi : (sorted.get i).symbolType ≠ .file) : ∀ {js u}, js.Pairwise (· < ·) →
    (∀ e ∈ js, i < e) → u.find i ∉ js → (∀ e ∈ js, SameClass (sorted.get i) (sorted.get e) → u.find e = e) →
    (joinFollowing sorted i js u).find i =
      (js.filter fun e => SameClass (sorted.get i) (sorted.get e)).foldl (better sorted) (u.find i)
  | [], _, _, _, _, _ => rfl
  | e :: js, u, hs, hlt, hn, hal => by
    obtain ⟨hf, hs⟩ := pairwise_cons.1 hs
    obtain ⟨hie, hlt⟩ := forall_mem_cons.1 hlt
    obtain ⟨hne, hn⟩ := not_or.1 (mt mem_cons.2 hn)
    obtain ⟨hae, hal⟩ := forall_mem_cons.1 hal
    rw [joinFollowing]
    split_ifs with haddr hfile hshndx
    · -- the symbols are sorted, so there is none of the class behind
      rw [filter_eq_nil_iff.2, foldl_nil]
      intro d hd hc
      have hed : e ≤ d := (mem_cons.1 hd).elim ge_of_eq fun hm => (hf d hm).le
      exact haddr (address_between hie.le hed (of_decide_eq_true hc).address)
    · rw [filter_cons_of_neg (by simpa using fun hc => hc.right hfile)]
      exact joinFollowing_winner hi hs hlt hn hal
    · have hc : SameClass (sorted.get i) (sorted.get e) := ⟨not_not.1 haddr, hshndx, hi, hfile⟩
      have hfi : (u.join sorted.compare i e).find i = better sorted (u.find i) e := by
        rw [find_join (edgeComparator_ne _ _), if_pos (.inl rfl), hae hc, better]
      rw [filter_cons_of_pos (by simpa using hc), foldl_cons, ← hfi]
      refine joinFollowing_winner hi hs hlt ?_ ?_
      · rw [hfi, better]
        split
        · exact hn
        · exact fun hm => (hf e hm).false
      · intro d hd hcd
        rw [find_join (edgeComparator_ne _ _), hal d hd hcd, hae hc, if_neg]
        rintro (rfl | rfl)
        · exact hn hd
        · exact (hf d hd).false
    · rw [filter_cons_of_neg (by simpa using fun hc => hshndx hc.shndx)]
      exact joinFollowing_winner hi hs hlt hn hal

/-- A class that is joined stays as it is. -/
theorem find_foldl_of_joined {is : List (Fin n)} {m : Fin n} (hu : Ordered sorted u)
    (h : ∀ e, SameClass (sorted.get i) (sorted.get e) → u.find e = m) (hi : (sorted.get i).symbolType ≠ .file) :
    (is.foldl (joinFrom sorted) u).find i = m := by
  refine (foldl_kept (P := fun u => Ordered sorted u ∧ ∀ e, SameClass (sorted.get i) (sorted.get e) → u.find e = m) ?_
    ⟨hu, h⟩).2 i ⟨rfl, rfl, hi, hi⟩
  rintro f - u j hc ⟨ho, hm⟩
  refine ⟨ho.join hc, fun e he => ?_⟩
  by_cases hf : SameClass (sorted.get i) (sorted.get f)
  · rw [find_join (edgeComparator_ne _ _), hm e he, hm f hf, hm j (hf.trans hc)]
    simp
  · rw [ho.find_join_of_not hc fun hfe => hf (he.trans hfe.symm), hm e he]

/-- The class is joined from its first symbol on: before that its symbols are alone, and afterwards every join finds one
    root. -/
theorem find_eq_winner (sorted : SortedList symbols) (i : Fin n) : (constructByAddress sorted).find i = winner sorted i := by
  have hnew : Ordered sorted (UnionFind.new n) := fun _ => .inl rfl
  have hself (j : Fin n) : (UnionFind.new n).find j = j := find_eq_self rfl
  unfold winner
  split
  · next heq =>
    rw [constructByAddress, find_foldl_of_not _ hnew, hself]
    intro j hj hc
    have hm : i ∈ (List.finRange n).filter fun j => SameClass (sorted.get i) (sorted.get j) := by
      simpa using ⟨rfl, rfl, hc.right, hc.right⟩
    rw [heq] at hm
    cases hm
  · next m ms heq =>
    obtain ⟨before, after, hs, hb, hm, rfl⟩ := filter_eq_cons_iff.1 heq
    have hm : SameClass (sorted.get i) (sorted.get m) := of_decide_eq_true hm
    have hiff (e : Fin n) : SameClass (sorted.get m) (sorted.get e) ↔ SameClass (sorted.get i) (sorted.get e) :=
      ⟨hm.trans, hm.symm.trans⟩
    have halone (e : Fin n) (he : SameClass (sorted.get i) (sorted.get e)) :
        (before.foldl (joinFrom sorted) (UnionFind.new n)).find e = e := by
      rw [find_foldl_of_not _ hnew, hself]
      intro f hf hc
      exact hb f hf (by simpa using he.trans hc.symm)
    have hlt := pairwise_lt_finRange n
    rw [hs] at hlt
    obtain ⟨hma, hlt⟩ := pairwise_cons.1 (pairwise_append.1 hlt).2.1
    have hord : Ordered sorted (before.foldl (joinFrom sorted) (UnionFind.new n)) :=
      foldl_kept (fun _ _ _ _ hc h => Ordered.join h hc) hnew
    rw [constructByAddress, hs, foldl_append, foldl_cons, joinFrom, if_neg hm.right, filter_lt_finRange hs]
    have hu : Ordered sorted (joinFollowing sorted m after (before.foldl (joinFrom sorted) (UnionFind.new n))) :=
      joinFollowing_kept (fun hc h => Ordered.join h hc) hm.right hord
    have hfm := joinFollowing_winner hm.right hlt hma (by rw [halone m hm]; exact fun h => (hma m h).false)
      fun e _ he => halone e ((hiff e).1 he)
    rw [halone m hm] at hfm
    simp only [hiff] at hfm
    refine find_foldl_of_joined hu (fun e he => ?_) hm.left
    rw [← hfm]
    have hmem : e ∈ before ++ m :: after := hs ▸ mem_finRange e
    rcases mem_append.1 hmem with heb | hem
    · exact absurd he (by simpa using hb e heb)
    · rcases mem_cons.1 hem with rfl | hea
      · rfl
      · exact (joinFollowing_joins ((hiff e).2 he) hlt hma hea).symm

/-- No section, no file and no mapping symbol. -/
def Ordinary (s : Symbol) : Prop := s.symbolType ≠ .sectionType ∧ s.symbolType ≠ .file ∧ ¬ isMapping s

theorem edgeComparator_ordinary (s1 s2) : (edgeComparator s1 s2 = .lt → Ordinary s1 → Ordinary s2) ∧
    (edgeComparator s1 s2 = .gt → Ordinary s2 → Ordinary s1) := by
  constructor
  · rintro h ⟨hc, hl, hm⟩
    have hs' : s2.symbolType ≠ .sectionType := fun hs => hc (edgeComparator_lt h hs)
    have hf' : s2.symbolType ≠ .file := by
      intro hf
      simp [edgeComparator, hf, hc, hl] at h
    refine ⟨hs', hf', fun hm' => ?_⟩
    simp [edgeComparator, hc, hl, hm, hs', hf', hm'] at h
  · rintro h ⟨hc, hl, hm⟩
    have hs' : s1.symbolType ≠ .sectionType := fun hs => hc (edgeComparator_gt h hs)
    have hf' : s1.symbolType ≠ .file := by
      intro hf
      simp [edgeComparator, hf, hc, Ne.symm hl] at h
    refine ⟨hs', hf', fun hm' => ?_⟩
    simp [edgeComparator, hc, hl, hs', hf', hm'] at h

theorem ordinary_representative (sorted : SortedList symbols) (hk : Ordinary (symbols k)) :
    Ordinary (symbols (representative sorted k)) := by
  have he : ∀ z, Ordinary (sorted.get z) → Ordinary (sorted.get ((constructByAddress sorted).parent z)) := by
    refine foldl_kept (P := fun u => ∀ z, Ordinary (sorted.get z) → Ordinary (sorted.get (u.parent z))) ?_ fun _ h => h
    intro i _ u j _ h
    exact join_edges (R := fun x y => Ordinary (sorted.get x) → Ordinary (sorted.get y)) h
      (edgeComparator_ordinary _ _).1 (edgeComparator_ordinary _ _).2
  have hf := find_rel (R := fun x y => Ordinary (sorted.get x) → Ordinary (sorted.get y)) (fun _ h => h)
    (fun _ _ _ h h' hx => h' (h hx)) he (sorted.order.symm k)
  simp only [SortedList.get, Equiv.apply_symm_apply] at hf
  exact hf hk

/-- The classes of the structure are those of the addresses and sections, every search for a representative ends, and what
    a representative is says what the members of its class are. -/
theorem representative_classes (sorted : SortedList symbols) :
    (∀ x, UnionFind.findLoop (constructByAddress sorted).parent n x = some ((constructByAddress sorted).find x)) ∧
    (∀ i j, (symbols i).symbolType ≠ .file → (symbols j).symbolType ≠ .file →
      (representative sorted i = representative sorted j ↔
        (symbols i).address = (symbols j).address ∧ (symbols i).shndx = (symbols j).shndx)) ∧
    ∀ i, ((symbols (representative sorted i)).symbolType = .sectionType → (symbols i).symbolType = .sectionType) ∧
      (isMapping (symbols (representative sorted i)) → ¬ Ordinary (symbols i)) := by
  refine ⟨fun x => findLoop_eq_find _ x, fun i j hi hj => ?_, fun i => ⟨fun hsec => ?_, fun hmap hod => ?_⟩⟩
  · constructor
    · intro heq
      have hcs := (below_representative sorted i).sameClass hi
      rw [heq] at hcs
      have h := hcs.trans ((below_representative sorted j).sameClass hj).symm
      exact ⟨h.address, h.shndx⟩
    · rintro ⟨har, hsn⟩
      refine congrArg sorted.order (find_constructByAddress ?_)
      simp only [SortedList.get, Equiv.apply_symm_apply]
      exact ⟨har, hsn, hi, hj⟩
  · rcases below_representative sorted i with heq | ⟨-, h⟩
    · rw [heq, hsec]
    · exact h hsec
  · exact (ordinary_representative sorted hod).2.2 hmap

/-! ## Names -/

/-- The first symbol with the name, if it is an earlier one. -/
def firstNamed (symbols : Fin n → Symbol) (i : Fin n) : Option (Fin n) :=
  if Participates (symbols i) then
    (List.finRange n).find? fun j => j < i ∧ Participates (symbols j) ∧ (symbols j).name = (symbols i).name
  else none

/-- `seen` has for each name the first one of the symbols that were passed. -/
def Seen (symbols : Fin n → Symbol) (done : List (Fin n)) (seen : List (String × Fin n)) : Prop :=
  ∀ name, seen.lookup name = done.find? fun j => Participates (symbols j) ∧ (symbols j).name = name

section

variable {is done : List (Fin n)} {seen : List (String × Fin n)}

theorem Seen.find?_snoc (h : Seen symbols done seen) (i name) :
    ((done ++ [i]).find? fun j => Participates (symbols j) ∧ (symbols j).name = name) =
      (seen.lookup name).or (if Participates (symbols i) ∧ (symbols i).name = name then some i else none) := by
  rw [find?_append, h, find?_singleton]
  simp

theorem Seen.skip (h : Seen symbols done seen) (hi : Participates (symbols i) → seen.lookup (symbols i).name ≠ none) :
    Seen symbols (done ++ [i]) seen := by
  intro name
  rw [h.find?_snoc]
  split
  · next hn =>
    obtain ⟨prev, hp⟩ := Option.ne_none_iff_exists'.1 (hi hn.1)
    rw [← hn.2, hp, Option.some_or]
  · exact Option.or_none.symm

theorem Seen.insert (h : Seen symbols done seen) (hp : Participates (symbols i))
    (hn : seen.lookup (symbols i).name = none) : Seen symbols (done ++ [i]) (((symbols i).name, i) :: seen) := by
  intro name
  rw [h.find?_snoc, lookup_cons]
  by_cases heq : (symbols i).name = name
  · subst heq
    simp [hn, hp]
  · rw [if_neg (fun h => heq h.2), Option.or_none, beq_false_of_ne (Ne.symm heq)]

/-- Of the symbols before `i` those that were passed are all. -/
theorem Seen.firstNamed (h : Seen symbols done seen) (hd : List.finRange n = done ++ i :: is)
    (hp : Participates (symbols i)) : firstNamed symbols i = seen.lookup (symbols i).name := by
  have hlt := pairwise_lt_finRange n
  rw [hd] at hlt
  obtain ⟨-, hia, hdi⟩ := pairwise_append.1 hlt
  have hrest : (i :: is).find? (fun j => j < i ∧ Participates (symbols j) ∧ (symbols j).name = (symbols i).name) = none := by
    rw [find?_eq_none]
    intro j hj
    have hle := (mem_cons.1 hj).elim ge_of_eq fun hm => ((pairwise_cons.1 hia).1 j hm).le
    simp [not_lt.2 hle]
  have hdone : done.find? (fun j => j < i ∧ Participates (symbols j) ∧ (symbols j).name = (symbols i).name) =
      done.find? fun j => Participates (symbols j) ∧ (symbols j).name = (symbols i).name := by
    refine find?_congr fun j hj => ?_
    simp [hdi j hj i mem_cons_self]
  rw [SymbolAliases.firstNamed, if_pos hp, hd, find?_append, hrest, Option.or_none, hdone, h]

end

/-- The second step: what has no alias yet gets the first symbol of its name. -/
theorem aliasByName_eq : ∀ {is done seen} aliasFor, List.finRange n = done ++ is → Seen symbols done seen →
    ∀ k, aliasByName symbols is seen aliasFor k =
      if k ∈ is then (aliasFor k).or (firstNamed symbols k) else aliasFor k
  | [], _, _, _, _, _, _ => by simp [aliasByName]
  | i :: is, done, seen, aliasFor, hd, hs, k => by
    have hd' : List.finRange n = (done ++ [i]) ++ is := by rw [hd, append_assoc, singleton_append]
    have hni : i ∉ is := by
      have hnd := nodup_finRange n
      rw [hd] at hnd
      exact (nodup_cons.1 (nodup_append.1 hnd).2.1).1
    -- the rest of the loop, after a step that changes the alias of `i` only
    have hrest {seen' aliasFor'} (hs' : Seen symbols (done ++ [i]) seen')
        (hi : aliasFor' i = (aliasFor i).or (firstNamed symbols i)) (ho : ∀ k ≠ i, aliasFor' k = aliasFor k) :
        aliasByName symbols is seen' aliasFor' k =
          if k ∈ i :: is then (aliasFor k).or (firstNamed symbols k) else aliasFor k := by
      rw [aliasByName_eq _ hd' hs']
      by_cases hki : k = i
      · rw [hki, if_neg hni, if_pos mem_cons_self, hi]
      · simp only [ho k hki, mem_cons, hki, false_or]
    rw [aliasByName]
    by_cases hp : Participates (symbols i)
    · have hf := hs.firstNamed hd hp
      rw [if_pos hp]
      cases hprev : seen.lookup (symbols i).name with
      | some prev =>
        refine hrest (hs.skip fun _ => by simp [hprev]) ?_ fun k hk => ?_
        · rw [hf, hprev]
          cases ha : aliasFor i with
          | none => simp
          | some _ => simp [ha]
        · split
          · exact Function.update_of_ne hk ..
          · rfl
      | none => exact hrest (hs.insert hp hprev) (by rw [hf, hprev, Option.or_none]) fun _ _ => rfl
    · rw [if_neg hp]
      exact hrest (hs.skip fun h => absurd h hp) (by rw [firstNamed, if_neg hp, Option.or_none]) fun _ _ => rfl

/-! ## No function is lost -/

/-- The symbol that a class is left with. -/
def best (sorted : SortedList symbols) (k : Fin n) : Fin n := sorted.order (winner sorted (sorted.order.symm k))

theorem representative_eq_best (sorted : SortedList symbols) (k : Fin n) : representative sorted k = best sorted k := by
  rw [representative, find_eq_winner, best]

theorem best_best (sorted : SortedList symbols) (k : Fin n) : best sorted (best sorted k) = best sorted k := by
  have hr := find_eq_self ((constructByAddress sorted).parent_find (sorted.order.symm k))
  rw [← representative_eq_best, ← representative_eq_best, representative, representative, Equiv.symm_apply_apply, hr]

/-- A symbol is an alias for the best one of its class, and the best one for the first one of its name. -/
theorem aliasFor_eq (elf : ElfMap) (table : Fin n → Symbol) (sorted : SortedList (fixSymbols elf table)) (i : Fin n) :
    (buildSymbolList elf table sorted).aliasFor i =
      if best sorted i = i then firstNamed (fixSymbols elf table) i else some (best sorted i) := by
  have ha : aliasByAddress sorted i = if best sorted i = i then none else some (best sorted i) := by
    have hiff : (constructByAddress sorted).find (sorted.order.symm i) = sorted.order.symm i ↔ best sorted i = i := by
      rw [← representative_eq_best, representative, Equiv.eq_symm_apply]
    unfold aliasByAddress
    simp only [ne_eq, hiff, ite_not]
    split
    · rfl
    · rw [← representative_eq_best]
      rfl
  rw [buildSymbolList]
  dsimp only
  refine (aliasByName_eq _ (nil_append _).symm (fun _ => rfl) i).trans ?_
  rw [if_pos (mem_finRange i), ha]
  split
  · exact Option.none_or
  · exact Option.some_or

/-- From the best symbol of a class the name leads to another class, or back into the same one. -/
def LeadsTo (sorted : SortedList symbols) (i j : Fin n) : Prop :=
  best sorted i = i ∧ ∃ e, firstNamed symbols i = some e ∧ best sorted e = j

/-- The aliases lose nothing. -/
structure Resolved (l : SymbolList n) : Prop where
  acyclic : ∀ i, ¬Relation.TransGen (fun i j => l.aliasFor i = some j) i i
  ends : ∀ i, ∃ j, Relation.ReflTransGen (fun i j => l.aliasFor i = some j) i j ∧ l.aliasFor j = none
  functions : ∀ i, DefinedFunction (l.symbols i) →
    ∃ j, (l.symbols j).address = (l.symbols i).address ∧ l.isFunction j

section

variable {elf : ElfMap} {table : Fin n → Symbol} {sorted : SortedList (fixSymbols elf table)}

theorem transGen_of_leadsTo (h : LeadsTo sorted i j) :
    Relation.TransGen (fun i j => (buildSymbolList elf table sorted).aliasFor i = some j) i j := by
  obtain ⟨hi, e, he, rfl⟩ := h
  have hie : (buildSymbolList elf table sorted).aliasFor i = some e := by rw [aliasFor_eq, if_pos hi, he]
  by_cases hb : best sorted e = e
  · rw [hb]
    exact .single hie
  · refine .tail (.single hie) ?_
    rw [aliasFor_eq, if_neg hb]

/-- A chain of aliases has a step by name, or consists of one step within a class. -/
theorem leadsTo_of_transGen
    (h : Relation.TransGen (fun i j => (buildSymbolList elf table sorted).aliasFor i = some j) i j) :
    Relation.TransGen (LeadsTo sorted) (best sorted i) (best sorted j) ∨ best sorted i ≠ i ∧ j = best sorted i := by
  have hstep {i j : Fin n} (h : (buildSymbolList elf table sorted).aliasFor i = some j) :
      LeadsTo sorted (best sorted i) (best sorted j) ∧ best sorted i = i ∨ best sorted i ≠ i ∧ j = best sorted i := by
    rw [aliasFor_eq] at h
    split at h
    · next hb =>
      rw [hb]
      exact .inl ⟨⟨hb, j, h, rfl⟩, rfl⟩
    · next hb => exact .inr ⟨hb, (Option.some.inj h).symm⟩
  induction h with
  | single h => exact (hstep h).imp_left fun h => .single h.1
  | tail _ h ih =>
    rcases ih with hl | ⟨hi, rfl⟩
    · rcases hstep h with ⟨hl', -⟩ | ⟨-, rfl⟩
      · exact .inl (hl.tail hl')
      · rw [best_best]
        exact .inl hl
    · rcases hstep h with ⟨hl, -⟩ | ⟨hne, -⟩
      · rw [best_best] at hl
        exact .inl (.single hl)
      · exact absurd (best_best sorted _) hne

theorem acyclic_iff : (∀ i, ¬Relation.TransGen (fun i j => (buildSymbolList elf table sorted).aliasFor i = some j) i i) ↔
    ∀ i, ¬Relation.TransGen (LeadsTo sorted) i i := by
  constructor
  · intro h i hl
    exact h i (hl.lift' id fun _ _ => transGen_of_leadsTo)
  · intro h i hc
    rcases leadsTo_of_transGen hc with hl | ⟨hne, heq⟩
    · exact h _ hl
    · exact hne heq.symm

end

theorem ends_of_acyclic {aliasFor : Fin n → Option (Fin n)}
    (h : ∀ i, ¬Relation.TransGen (fun i j => aliasFor i = some j) i i) (i : Fin n) :
    ∃ j, Relation.ReflTransGen (fun i j => aliasFor i = some j) i j ∧ aliasFor j = none := by
  -- without cycles the chains are finite, so that the induction can follow them
  have hirr : Std.Irrefl (Relation.TransGen fun j i => aliasFor i = some j) :=
    ⟨fun i hc => h i (Relation.transGen_swap.1 hc)⟩
  have hwf : WellFounded (Relation.TransGen fun j i => aliasFor i = some j) := Finite.wellFounded_of_trans_of_irrefl _
  induction i using hwf.induction with
  | _ i ih =>
    cases hi : aliasFor i with
    | none => exact ⟨i, .refl, hi⟩
    | some j =>
      obtain ⟨k, hjk, hk⟩ := ih j (.single hi)
      exact ⟨k, hjk.head hi, hk⟩

/-- No function is lost exactly if the names of the best symbols do not lead around in a circle of classes, and at each
    address with a function there is one that is left of its class when `edgeComparator` compares the symbols in their
    order, and that is the first of its name. -/
theorem buildSymbolList_resolved (elf : ElfMap) (table : Fin n → Symbol) (sorted : SortedList (fixSymbols elf table)) :
    Resolved (buildSymbolList elf table sorted) ↔ (∀ i, ¬Relation.TransGen (LeadsTo sorted) i i) ∧
      ∀ i, DefinedFunction ((buildSymbolList elf table sorted).symbols i) →
        ∃ j, ((buildSymbolList elf table sorted).symbols j).address = ((buildSymbolList elf table sorted).symbols i).address ∧
          DefinedFunction ((buildSymbolList elf table sorted).symbols j) ∧ best sorted j = j ∧
          firstNamed (fixSymbols elf table) j = none := by
  have hnone (j : Fin n) : (buildSymbolList elf table sorted).aliasFor j = none ↔
      best sorted j = j ∧ firstNamed (fixSymbols elf table) j = none := by
    rw [aliasFor_eq]
    split
    · next hb => simp [hb]
    · next hb => simp [hb]
  have hfunctions : (∀ i, DefinedFunction ((buildSymbolList elf table sorted).symbols i) →
      ∃ j, ((buildSymbolList elf table sorted).symbols j).address = ((buildSymbolList elf table sorted).symbols i).address ∧
        (buildSymbolList elf table sorted).isFunction j) ↔ _ :=
    forall_congr' fun i => imp_congr_right fun _ => exists_congr fun j =>
      and_congr_right fun _ => and_congr_right fun _ => hnone j
  rw [← hfunctions, ← acyclic_iff]
  constructor
  · exact fun h => ⟨h.acyclic, h.functions⟩
  · exact fun h => ⟨h.1, ends_of_acyclic h.1, h.2⟩

/-! ## Tables -/

/-- An executable whose only section with code is the first one. -/
def smallElf : ElfMap := ⟨fun shndx => shndx == 1, none, none⟩

def nullSymbol : Symbol := ⟨0, 0, "", .notype, .bindLocal, 0⟩

/-- A function with two names, beside the symbol of its section. -/
def twoNames : Fin 4 → Symbol :=
  ![nullSymbol, ⟨0x1000, 0, "", .sectionType, .bindLocal, 1⟩, ⟨0x1000, 16, "__read", .func, .bindGlobal, 1⟩,
    ⟨0x1000, 16, "read", .func, .bindWeak, 1⟩]

theorem buildSymbolList_twoNames : ∃ sorted : SortedList (fixSymbols smallElf twoNames),
    (buildSymbolList smallElf twoNames sorted).isFunction 3 ∧ Resolved (buildSymbolList smallElf twoNames sorted) := by
  refine ⟨⟨Equiv.refl _, by decide +kernel⟩, by decide +kernel, (buildSymbolList_resolved ..).2 ⟨?_, by decide +kernel⟩⟩
  have hno : ∀ i, firstNamed (fixSymbols smallElf twoNames) i = none := by decide +kernel
  intro i hc
  obtain ⟨j, ⟨-, e, he, -⟩, -⟩ := Relation.TransGen.head'_iff.1 hc
  rw [hno] at he
  cases he

/-- The same global name twice at one address, a function beside an object, and the same global name at two
    addresses. -/
def sameName : Fin 3 → Symbol :=
  ![nullSymbol, ⟨0x1000, 16, "f", .func, .bindGlobal, 1⟩, ⟨0x1000, 16, "f", .func, .bindGlobal, 1⟩]

def besideObject : Fin 3 → Symbol :=
  ![nullSymbol, ⟨0x1000, 16, "f", .func, .bindGlobal, 1⟩, ⟨0x1000, 16, "table", .object, .bindGlobal, 1⟩]

def twoAddresses : Fin 3 → Symbol :=
  ![nullSymbol, ⟨0x1000, 16, "f", .func, .bindGlobal, 1⟩, ⟨0x2000, 16, "f", .func, .bindGlobal, 1⟩]

theorem not_resolved_of_lost {l} (i : Fin n) (hi : DefinedFunction (l.symbols i))
    (hlt : ∀ j, (l.symbols j).address = (l.symbols i).address → ¬l.isFunction j) : ¬Resolved l := by
  intro h
  obtain ⟨j, ha, hj⟩ := h.functions i hi
  exact hlt j ha hj

theorem buildSymbolList_loses :
    (∃ sorted : SortedList (fixSymbols smallElf sameName),
      (buildSymbolList smallElf sameName sorted).aliasFor 1 = some 2 ∧
      (buildSymbolList smallElf sameName sorted).aliasFor 2 = some 1 ∧
      ¬Resolved (buildSymbolList smallElf sameName sorted)) ∧
    (∃ sorted : SortedList (fixSymbols smallElf besideObject),
      (buildSymbolList smallElf besideObject sorted).aliasFor 1 = some 2 ∧
      ¬Resolved (buildSymbolList smallElf besideObject sorted)) ∧
    ∃ sorted : SortedList (fixSymbols smallElf twoAddresses),
      (buildSymbolList smallElf twoAddresses sorted).aliasFor 2 = some 1 ∧
      ¬Resolved (buildSymbolList smallElf twoAddresses sorted) := by
  refine ⟨⟨⟨Equiv.refl _, by decide +kernel⟩, by decide +kernel, by decide +kernel, ?_⟩,
    ⟨⟨Equiv.refl _, by decide +kernel⟩, by decide +kernel, ?_⟩, ⟨Equiv.refl _, by decide +kernel⟩, by decide +kernel, ?_⟩
  · exact not_resolved_of_lost 1 (by decide +kernel) (by decide +kernel)
  · exact not_resolved_of_lost 1 (by decide +kernel) (by decide +kernel)
  · exact not_resolved_of_lost 2 (by decide +kernel) (by decide +kernel)

end Egalito.SymbolAliases
