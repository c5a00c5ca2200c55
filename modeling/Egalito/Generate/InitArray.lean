/-
The arrays of functions to call at start and at exit (`MakeInitArray` in `generate/concrete.cpp`).

`initArrays_complete_iff` says when each function of the lists has its entry in the arrays as they are loaded, the
special case of a list before the others of it.
-/
import Egalito.Generate.Segments

namespace Egalito.Generate

open List Except

/-- The function, which may be missing, is known by the address it has when the file is written. -/
structure InitFunction where
  function : Option Address
  isSpecialCase : Bool
  deriving DecidableEq

structure InitModule where
  initFunctionList : List InitFunction
  finiFunctionList : List InitFunction

def functionList (isInit : Bool) (m : InitModule) : List InitFunction :=
  if isInit then m.initFunctionList else m.finiFunctionList

/-- `firstInit` and `initFunctions`. -/
structure Found where
  firstInit : Option Address
  initFunctions : List Address
  deriving DecidableEq

def visit (found : Found) (f : InitFunction) : Except Failure Found :=
  if f.isSpecialCase then .ok { found with firstInit := f.function }
  else
    match f.function with
    | none => .error .assertion
    | some function => .ok { found with initFunctions := found.initFunctions ++ [function] }

def initFunctionsOf (lists : List (List InitFunction)) : Except Failure (List Address) := do
  let found ← lists.flatten.foldlM visit ⟨none, []⟩
  return found.firstInit.toList ++ found.initFunctions

/-! ## The arrays -/

/-- An entry of `.rela.dyn` that `addDataAddressRef` makes. -/
structure AddressRef where
  r_offset : Nat
  r_addend : Address
  deriving DecidableEq

/-- A section content with the relocations made so far. -/
structure ArrayContent where
  array : List Address
  relaDyn : List AddressRef
  deriving DecidableEq

def addInitFunction (config : ElfConfig) (initArraySize : Nat) (content : ArrayContent) (value : Address) : ArrayContent :=
  if config.isPositionIndependent then
    ⟨content.array ++ [0], content.relaDyn ++ [⟨0x20005c + initArraySize + 8 * content.array.length, value⟩]⟩
  else
    { content with array := content.array ++ [value] }

def makeInitArraySectionHelper (config : ElfConfig) (initArraySize : Nat) (relaDyn : List AddressRef)
    (lists : List (List InitFunction)) : Except Failure ArrayContent := do
  let functions ← initFunctionsOf lists
  return functions.foldl (addInitFunction config initArraySize) ⟨[], relaDyn⟩

structure InitArrays where
  initArray : List Address
  finiArray : List Address
  relaDyn : List AddressRef

/-- The two arrays with their relocations, `.fini_array` behind `.init_array`. -/
def makeInitArraySections (config : ElfConfig) (modules : List InitModule) : Except Failure InitArrays := do
  let init ← makeInitArraySectionHelper config 0 [] (modules.map (functionList true))
  let fini ← makeInitArraySectionHelper config (8 * init.array.length) init.relaDyn (modules.map (functionList false))
  return ⟨init.array, fini.array, fini.relaDyn⟩

/-- What an array holds once the relocations are done, the last one for each slot. Addresses are relative to the load
    address. -/
def loaded (relaDyn : List AddressRef) (address : Nat) (array : List Address) : List Address :=
  array.mapIdx fun i value =>
    ((relaDyn.reverse.find? fun ref => ref.r_offset = address + 8 * i).map AddressRef.r_addend).getD value

/-- The array of the section of a name. `MakeInitArray` is only run after the sections were made. -/
def InitArrays.loadedAt (arrays : InitArrays) (config : ElfConfig) (t : Tables) (name : String) (array : List Address) :
    List Address :=
  loaded arrays.relaDyn
    ((headerAddress { config with makeInitArray := true }
      { t with initArray := arrays.initArray.length, finiArray := arrays.finiArray.length } name).getD 0) array

/-- Every function of the lists has one entry in the array, and the special case of a list stands before its
ordinary functions. -/
structure Complete (lists : List (List InitFunction)) (array : List Address) : Prop where
  once : (array.map some).Perm (lists.flatten.map InitFunction.function)
  ordered : ∀ list ∈ lists, ∀ s ∈ list, ∀ f ∈ list, s.isSpecialCase = true → f.isSpecialCase = false →
    ∀ a b, s.function = some a → f.function = some b → [a, b].Sublist array

/-! ## What is collected -/

variable {fs : List InitFunction} {found r : Found} {lists : List (List InitFunction)}

def specials (fs : List InitFunction) : List InitFunction := fs.filter fun f => f.isSpecialCase

def ordinaries (fs : List InitFunction) : List InitFunction := fs.filter fun f => !f.isSpecialCase

/-- No entry is without a function. -/
def HasFunctions (fs : List InitFunction) : Prop := ∀ f ∈ fs, f.function ≠ none

theorem ordinaries_cons (f fs) :
    ordinaries (f :: fs) = if f.isSpecialCase then ordinaries fs else f :: ordinaries fs := by
  rw [ordinaries, filter_cons]
  cases f.isSpecialCase <;> rfl

/-- The special case that is kept. -/
def lastSpecial (firstInit : Option Address) (fs : List InitFunction) : Option Address :=
  ((specials fs).getLast?.map InitFunction.function).getD firstInit

theorem lastSpecial_cons (firstInit f fs) :
    lastSpecial firstInit (f :: fs) = lastSpecial (if f.isSpecialCase then f.function else firstInit) fs := by
  unfold lastSpecial specials
  rw [filter_cons]
  cases f.isSpecialCase with
  | false => rfl
  | true =>
    rw [if_pos rfl, if_pos rfl, getLast?_cons]
    cases (filter _ fs).getLast? with
    | none => rfl
    | some g => rfl

/-- The last special case replaces the others; an ordinary entry without a function stops the program. -/
theorem foldlM_visit : ∀ {fs found r}, fs.foldlM visit found = .ok r ↔ HasFunctions (ordinaries fs) ∧
      r = ⟨lastSpecial found.firstInit fs, found.initFunctions ++ (ordinaries fs).filterMap InitFunction.function⟩
  | [], found, r => by
    simp only [foldlM_nil, pure, Except.pure, Except.ok.injEq, HasFunctions, ordinaries, lastSpecial, specials,
      filter_nil, filterMap_nil, append_nil, getLast?_nil, Option.map_none, Option.getD_none]
    exact ⟨fun h => ⟨by simp, h.symm⟩, fun h => h.2.symm⟩
  | f :: fs, found, r => by
    rw [foldlM_cons, Lib.bind_iff, ordinaries_cons, lastSpecial_cons]
    cases hs : f.isSpecialCase with
    | true =>
      have hv : visit found f = .ok { found with firstInit := f.function } := by simp [visit, hs]
      simp only [hv, if_true, ok.injEq, exists_eq_left']
      exact foldlM_visit
    | false =>
      cases hf : f.function with
      | none => simp [visit, hs, HasFunctions, hf]
      | some a =>
        have hv : visit found f = .ok { found with initFunctions := found.initFunctions ++ [a] } := by
          simp [visit, hs, hf]
        simp only [hv, Bool.false_eq_true, if_false, ok.injEq, exists_eq_left']
        rw [foldlM_visit]
        simp [HasFunctions, hf]

theorem initFunctionsOf_eq_ok {values} : initFunctionsOf lists = .ok values ↔
    HasFunctions (ordinaries lists.flatten) ∧ values =
      (lastSpecial none lists.flatten).toList ++ (ordinaries lists.flatten).filterMap InitFunction.function := by
  unfold initFunctionsOf
  rw [Lib.bind_iff]
  simp only [foldlM_visit, pure, Except.pure, Except.ok.injEq, nil_append]
  constructor
  · rintro ⟨found, ⟨ho, rfl⟩, rfl⟩
    exact ⟨ho, rfl⟩
  · rintro ⟨ho, rfl⟩
    exact ⟨_, ⟨ho, rfl⟩, rfl⟩

/-! ## When nothing is lost -/

theorem specials_append_ordinaries_perm (fs) : (specials fs ++ ordinaries fs).Perm fs :=
  filter_append_perm (fun f : InitFunction => f.isSpecialCase) fs

theorem map_some_filterMap (h : HasFunctions fs) :
    (fs.filterMap InitFunction.function).map some = fs.map InitFunction.function := by
  induction fs with
  | nil => rfl
  | cons f fs ih =>
    obtain ⟨a, ha⟩ := Option.ne_none_iff_exists'.1 (h f (by simp))
    rw [filterMap_cons_some ha, map_cons, map_cons, ih fun g hg => h g (by simp [hg]), ha]

theorem toList_length_le (o : Option Address) : o.toList.length ≤ 1 := by
  cases o with
  | none => decide
  | some a => exact le_refl _

theorem length_filterMap (h : HasFunctions fs) : (fs.filterMap InitFunction.function).length = fs.length := by
  have := congrArg length (map_some_filterMap h)
  simpa using this

/-- An array with one entry for each function has room for one special case. -/
theorem Complete.special_le {array} (h : Complete lists array)
    (hv : initFunctionsOf lists = .ok array) : HasFunctions lists.flatten ∧ (specials lists.flatten).length ≤ 1 := by
  obtain ⟨ho, rfl⟩ := initFunctionsOf_eq_ok.1 hv
  have hp := h.once
  constructor
  · intro f hf hn
    have hm : none ∈ lists.flatten.map InitFunction.function := hn ▸ mem_map_of_mem hf
    have := hp.mem_iff.2 hm
    simp at this
  · have hl := hp.length_eq
    have ha := (specials_append_ordinaries_perm lists.flatten).length_eq
    have hr := toList_length_le (lastSpecial none lists.flatten)
    rw [length_map, length_map, length_append, length_filterMap ho] at hl
    rw [length_append] at ha
    omega

/-- With at most one special case it stands in front. -/
theorem complete_of_special_le (hn : HasFunctions lists.flatten) (he : (specials lists.flatten).length ≤ 1) :
    ∃ array, initFunctionsOf lists = .ok array ∧ Complete lists array := by
  have ho : HasFunctions (ordinaries lists.flatten) := fun f hf => hn f (mem_of_mem_filter hf)
  have hc : HasFunctions (specials lists.flatten) := fun f hf => hn f (mem_of_mem_filter hf)
  have hr : (lastSpecial none lists.flatten).toList = (specials lists.flatten).filterMap InitFunction.function := by
    unfold lastSpecial
    match specials lists.flatten, he with
    | [], _ => rfl
    | [f], _ => cases hf : f.function <;> simp [hf]
  refine ⟨_, initFunctionsOf_eq_ok.2 ⟨ho, rfl⟩, ?_, ?_⟩
  · rw [hr, ← filterMap_append, map_some_filterMap]
    · exact (specials_append_ordinaries_perm _).map _
    · intro f hf
      rcases mem_append.1 hf with hf | hf
      · exact hc f hf
      · exact ho f hf
  · intro list hlt s hs f hf hsp hp a b ha hb
    have hm : ∀ g ∈ list, g ∈ lists.flatten := fun g hg => mem_flatten.2 ⟨list, hlt, hg⟩
    have har : a ∈ (lastSpecial none lists.flatten).toList := by
      rw [hr]
      exact mem_filterMap.2 ⟨s, mem_filter.2 ⟨hm s hs, hsp⟩, ha⟩
    have hbs : b ∈ (ordinaries lists.flatten).filterMap InitFunction.function :=
      mem_filterMap.2 ⟨f, mem_filter.2 ⟨hm f hf, by simp [hp]⟩, hb⟩
    exact (singleton_sublist.2 har).append (singleton_sublist.2 hbs)

/-! ## What is loaded -/

variable {config : ElfConfig} {address : Nat} {values : List Address}

/-- A relocation for each value, at consecutive slots from the given one. -/
def refsFrom (address slot : Nat) (values : List Address) : List AddressRef :=
  values.mapIdx fun i value => ⟨address + 8 * (slot + i), value⟩

theorem refsFrom_cons (address slot) (value) (values) :
    refsFrom address slot (value :: values) = ⟨address + 8 * slot, value⟩ :: refsFrom address (slot + 1) values := by
  simp [refsFrom, mapIdx_cons, add_assoc, add_comm 1]

theorem foldl_addInitFunction_pic (h : config.isPositionIndependent = true) (size) :
    ∀ (values : List Address) (content : ArrayContent), values.foldl (addInitFunction config size) content =
      ⟨content.array ++ replicate values.length 0,
        content.relaDyn ++ refsFrom (0x20005c + size) content.array.length values⟩
  | [], content => by simp [refsFrom]
  | value :: values, content => by
    rw [foldl_cons, foldl_addInitFunction_pic h size values, refsFrom_cons]
    simp [addInitFunction, h, replicate_succ]

theorem foldl_addInitFunction (h : config.isPositionIndependent = false) (size) :
    ∀ values (content : ArrayContent), values.foldl (addInitFunction config size) content =
      { content with array := content.array ++ values }
  | [], content => by simp
  | value :: values, content => by
    rw [foldl_cons, foldl_addInitFunction h size values]
    simp [addInitFunction, h]

theorem loaded_nil (address) (values) : loaded [] address values = values := by
  apply ext_getElem
  · simp [loaded]
  · simp [loaded]

theorem loaded_refsFrom (pre post) (address) (values)
    (h : ∀ ref ∈ pre ++ post, ref.r_offset < address ∨ address + 8 * values.length ≤ ref.r_offset) :
    loaded (pre ++ refsFrom address 0 values ++ post) address (replicate values.length 0) = values := by
  apply ext_getElem
  · simp [loaded]
  intro i _ hi
  have hf : (pre ++ refsFrom address 0 values ++ post).reverse.find? (fun ref => ref.r_offset = address + 8 * i) =
      some ⟨address + 8 * i, values[i]⟩ := by
    apply Lib.find?_eq_some_of_unique
    · have : (⟨address + 8 * i, values[i]⟩ : AddressRef) ∈ refsFrom address 0 values :=
        mem_mapIdx.2 ⟨i, hi, by simp⟩
      simp [this]
    · simp
    · intro ref hr ho
      rw [mem_reverse, mem_append, mem_append] at hr
      rw [decide_eq_true_eq] at ho
      rcases hr with (hr | hr) | hr
      · have := h ref (by simp [hr])
        omega
      · obtain ⟨j, hj, rfl⟩ := mem_mapIdx.1 hr
        have : j = i := by
          dsimp only at ho
          omega
        simp [this]
      · have := h ref (by simp [hr])
        omega
  simp only [loaded, getElem_mapIdx, hf, Option.map_some, Option.getD_some]

theorem offset_of_mem_refsFrom {ref} (h : ref ∈ refsFrom address 0 values) :
    address ≤ ref.r_offset ∧ ref.r_offset < address + 8 * values.length := by
  obtain ⟨j, hj, rfl⟩ := mem_mapIdx.1 h
  dsimp only
  omega

def arraysOf (config : ElfConfig) (init fini : List Address) : InitArrays :=
  let first := init.foldl (addInitFunction config 0) ⟨[], []⟩
  let second := fini.foldl (addInitFunction config (8 * first.array.length)) ⟨[], first.relaDyn⟩
  ⟨first.array, second.array, second.relaDyn⟩

theorem makeInitArraySections_eq_ok {modules arrays} : makeInitArraySections config modules = .ok arrays ↔
      ∃ init fini, initFunctionsOf (modules.map (functionList true)) = .ok init ∧
        initFunctionsOf (modules.map (functionList false)) = .ok fini ∧ arrays = arraysOf config init fini := by
  simp only [makeInitArraySections, makeInitArraySectionHelper, Lib.bind_iff, pure, Except.pure, Except.ok.injEq]
  constructor
  · rintro ⟨_, ⟨init, hi, rfl⟩, _, ⟨fini, hf, rfl⟩, rfl⟩
    exact ⟨init, fini, hi, hf, rfl⟩
  · rintro ⟨init, fini, hi, hf, rfl⟩
    exact ⟨_, ⟨init, hi, rfl⟩, _, ⟨fini, hf, rfl⟩, rfl⟩

/-- The constant address of the relocations is that of the arrays, with the interpreter it was written for. -/
theorem loadedAt_arraysOf {config} (h : config.isPositionIndependent = true → config.isMusl = false) (t)
    (init fini) : (arraysOf config init fini).loadedAt config t ".init_array"
        (arraysOf config init fini).initArray = init ∧
      (arraysOf config init fini).loadedAt config t ".fini_array" (arraysOf config init fini).finiArray = fini := by
  unfold InitArrays.loadedAt
  have ha := fun t => headerAddress_arrays { config with makeInitArray := true } t rfl
  rcases Bool.eq_false_or_eq_true config.isPositionIndependent with hp | hp
  · have ht := length_interpContent { config with makeInitArray := true } (h hp)
    have hl : (arraysOf config init fini).relaDyn =
        refsFrom 0x20005c 0 init ++ refsFrom (0x20005c + 8 * init.length) 0 fini := by
      simp [arraysOf, foldl_addInitFunction_pic hp]
    have hi : (arraysOf config init fini).initArray = replicate init.length 0 := by
      simp [arraysOf, foldl_addInitFunction_pic hp]
    have hf : (arraysOf config init fini).finiArray = replicate fini.length 0 := by
      simp [arraysOf, foldl_addInitFunction_pic hp]
    rw [(ha _).1, (ha _).2, ht, hl, hi, hf]
    constructor
    · apply loaded_refsFrom []
      intro ref hr
      exact .inr (offset_of_mem_refsFrom hr).1
    · rw [← append_nil (_ ++ _), length_replicate]
      apply loaded_refsFrom
      intro ref hr
      exact .inl (offset_of_mem_refsFrom (by simpa using hr)).2
  · have hl : (arraysOf config init fini).relaDyn = [] := by simp [arraysOf, foldl_addInitFunction hp]
    rw [hl, loaded_nil, loaded_nil]
    simp [arraysOf, foldl_addInitFunction hp]

/-! ## All arrays -/

/-- The arrays have one entry for each function of all modules, the special case of a module before its ordinary
functions, if and only if every entry of the lists has a function and no two entries of either kind of list are
special cases. -/
theorem initArrays_complete_iff (config : ElfConfig) (t : Tables) (modules : List InitModule)
    (hbuild : config.isPositionIndependent = true → config.isMusl = false) :
    (∃ arrays, makeInitArraySections config modules = .ok arrays ∧
      Complete (modules.map (functionList true)) (arrays.loadedAt config t ".init_array" arrays.initArray) ∧
      Complete (modules.map (functionList false)) (arrays.loadedAt config t ".fini_array" arrays.finiArray)) ↔
    ∀ isInit, HasFunctions (modules.map (functionList isInit)).flatten ∧
      (specials (modules.map (functionList isInit)).flatten).length ≤ 1 := by
  constructor
  · rintro ⟨_, hmk, hii, hfn⟩ isInit
    obtain ⟨init, fini, hint, hfi, rfl⟩ := makeInitArraySections_eq_ok.1 hmk
    obtain ⟨hln, hlf⟩ := loadedAt_arraysOf hbuild t init fini
    rw [hln] at hii
    rw [hlf] at hfn
    cases isInit with
    | false => exact hfn.special_le hfi
    | true => exact hii.special_le hint
  · intro h
    obtain ⟨init, hint, hii⟩ := complete_of_special_le (h true).1 (h true).2
    obtain ⟨fini, hfi, hfn⟩ := complete_of_special_le (h false).1 (h false).2
    obtain ⟨hln, hlf⟩ := loadedAt_arraysOf hbuild t init fini
    refine ⟨_, makeInitArraySections_eq_ok.2 ⟨init, fini, hint, hfi, rfl⟩, ?_, ?_⟩
    · rwa [hln]
    · rwa [hlf]

/-- A position independent output of one module. -/
def mirrorConfig : ElfConfig where
  isDynamicallyLinked := true
  isUnionOutput := false
  isPositionIndependent := true
  makeInitArray := true
  isMusl := false

/-- `_init` with a constructor, and `_fini`. -/
def initModule : InitModule := ⟨[⟨some 0x1000, true⟩, ⟨some 0x2000, false⟩], [⟨some 0x3000, true⟩]⟩

theorem initArrays_complete_mirror : ∃ arrays, makeInitArraySections mirrorConfig [initModule] = .ok arrays ∧
    Complete ([initModule].map (functionList true))
      (arrays.loadedAt mirrorConfig manyImports ".init_array" arrays.initArray) ∧
    Complete ([initModule].map (functionList false))
      (arrays.loadedAt mirrorConfig manyImports ".fini_array" arrays.finiArray) := by
  apply (initArrays_complete_iff mirrorConfig manyImports [initModule] fun _ => rfl).2
  intro isInit
  cases isInit with
  | false => exact ⟨by simp [HasFunctions, functionList, initModule], by decide⟩
  | true => exact ⟨by simp [HasFunctions, functionList, initModule], by decide⟩

/-- Two modules with an `_init` each. -/
def twoInits : List InitModule := [⟨[⟨some 0x1000, true⟩], []⟩, ⟨[⟨some 0x2000, true⟩], []⟩]

/-- The array has the function of the second module only. -/
theorem twoInits_first_dropped : ∃ arrays, makeInitArraySections unionConfig twoInits = .ok arrays ∧
    arrays.loadedAt unionConfig manyImports ".init_array" arrays.initArray = [0x2000] ∧
    ¬ Complete (twoInits.map (functionList true))
      (arrays.loadedAt unionConfig manyImports ".init_array" arrays.initArray) := by
  have hld := (@loadedAt_arraysOf unionConfig (fun _ => rfl) manyImports [0x2000] []).1
  refine ⟨arraysOf unionConfig [0x2000] [], rfl, hld, fun h => ?_⟩
  have hlg := h.once.length_eq
  rw [hld] at hlg
  exact absurd hlg (by decide)

end Egalito.Generate
