/-
Files of parse overrides (`conductor/parseoverride.cpp`).

`parseFile` reads a stream with its eof state. A text is taken as lines; `parseFile_returns_iff` says for which of
them the loop ends, and the overrides it then leaves are those of the stanzas.
-/
import Egalito.Lib.Run
import Egalito.Util.Range
import Mathlib.Data.List.TakeWhile

namespace Egalito.ParseOverride

open Lib List

/-- A line without its line feed, or a word of one. -/
abbrev Text := List Char

/-! ## Streams -/

/-- A file that is being read. It is good until a read has come to its end. -/
structure File where
  rest : Text
  good : Bool

/-- std::getline: whether it succeeded, the line and the file afterwards. A file that is not good leaves the line as
    it was. -/
def getline (f : File) (line : Text) : Bool × Text × File :=
  if f.good then
    match f.rest.dropWhile (· ≠ '\n') with
    | _ :: rest => (true, f.rest.takeWhile (· ≠ '\n'), ⟨rest, true⟩)
    | [] => (f.rest ≠ [], f.rest, ⟨[], false⟩)
  else (false, line, f)

def isspace (c : Char) : Bool := c ∈ [' ', '\t', '\n', '\x0b', '\x0c', '\r']

/-- A word of an istringstream, of which there is what can still be read: nothing once it is no longer good. -/
def extractWord (ss : Text) : Option (Text × Text) :=
  match ss.dropWhile isspace with
  | [] => none
  | c :: cs => some (c :: cs.takeWhile (!isspace ·), cs.dropWhile (!isspace ·))

/-- `ss >> str`: a string that could not be read stays as it was. -/
def extractString (ss str : Text) : Text × Text := (extractWord ss).getD (str, [])

def digitValue (c : Char) : Nat := if c.isDigit then c.toNat - '0'.toNat else 10 + (c.toLower.toNat - 'a'.toNat)

def isDigitOf (base : Nat) (c : Char) : Bool := c.isDigit || (base = 16 && 'a' ≤ c.toLower && c.toLower ≤ 'f')

def sign : Text → Bool × Text
  | '-' :: cs => (true, cs)
  | '+' :: cs => (false, cs)
  | cs => (false, cs)

/-- The digits without the `0x` that hexadecimal ones may have. -/
def digits (base : Nat) : Text → Text
  | '0' :: c :: cs => if base = 16 ∧ c.toLower = 'x' then cs else '0' :: c :: cs
  | cs => cs

/-- `ss >> n` for an unsigned number: the value it stores, if it stores one. -/
def extractNumber (base : Nat) (ss : Text) : Option Address × Text :=
  match ss.dropWhile isspace with
  | [] => (none, [])
  | c :: cs =>
    let (negative, number) := sign (c :: cs)
    let number := digits base number
    let value := (number.takeWhile (isDigitOf base)).foldl (fun n c => n * base + digitValue c) 0
    if number.takeWhile (isDigitOf base) = [] then (some 0, [])
    else if 2 ^ 64 ≤ value then (some (BitVec.allOnes 64), [])
    else (some (if negative then -BitVec.ofNat 64 value else BitVec.ofNat 64 value), number.dropWhile (isDigitOf base))

theorem length_extractWord {ss ss' w} (h : extractWord ss = some (w, ss')) : ss'.length < ss.length := by
  unfold extractWord at h
  split at h
  · cases h
  · next c cs hc =>
    obtain ⟨-, rfl⟩ := h
    have hle := (hc ▸ dropWhile_suffix isspace : c :: cs <:+ ss).length_le
    rw [length_cons] at hle
    exact lt_of_le_of_lt (dropWhile_suffix _).length_le hle

theorem length_extractString (ss str) : (extractString ss str).2.length ≤ ss.length := by
  unfold extractString
  cases h : extractWord ss with
  | none => exact Nat.zero_le _
  | some r => exact (length_extractWord h).le

theorem length_extractNumber (base) (ss) : (extractNumber base ss).2.length ≤ ss.length := by
  have hs : ∀ cs, (sign cs).2.length ≤ cs.length := by
    intro cs
    unfold sign
    split <;> simp
  have hd : ∀ cs, (digits base cs).length ≤ cs.length := by
    intro cs
    unfold digits
    split
    · split <;> simp only [length_cons] <;> omega
    · exact le_rfl
  unfold extractNumber
  split
  · exact Nat.zero_le _
  · next c cs hc =>
    have hle := (hc ▸ dropWhile_suffix isspace : c :: cs <:+ ss).length_le
    dsimp only
    split
    · exact Nat.zero_le _
    split
    · exact Nat.zero_le _
    · calc _ ≤ (digits base (sign (c :: cs)).2).length := (dropWhile_suffix _).length_le
        _ ≤ (sign (c :: cs)).2.length := hd _
        _ ≤ ss.length := (hs _).trans hle

/-! ## Parsing -/

structure OverrideContext where
  moduleName : Option Text
  functionName : Option Text
  address : Option Address
deriving DecidableEq

abbrev OverrideList := List (Address × Address)

/-- The nested maps over the parts of a context. -/
abbrev Overrides := OverrideContext → Option OverrideList

-- What an uninitialised variable holds.
variable (junk : Address)

/-- The rest of a header: the words that say what follows them. -/
def readContext (ss str : Text) (addr : Address) (context : OverrideContext) : OverrideContext :=
  match h : extractWord ss with
  | none => context
  | some (contextType, ss') =>
    have := length_extractWord h
    if contextType = "module".toList then
      let read := extractString ss' str
      readContext read.2 read.1 addr { context with moduleName := some ("module-".toList ++ read.1) }
    else if contextType = "func".toList then
      let read := extractString ss' str
      readContext read.2 read.1 addr { context with functionName := some read.1 }
    else if contextType = "address".toList then
      let read := extractNumber 10 ss'
      readContext read.2 str (read.1.getD addr) { context with address := some (read.1.getD addr) }
    else readContext ss' str addr context
termination_by ss.length
decreasing_by
  · exact (length_extractString ss' str).trans_lt this
  · exact (length_extractString ss' str).trans_lt this
  · exact (length_extractNumber 10 ss').trans_lt this
  · exact this

/-- The first word of a line and the context that the others give. -/
def readHeader (line : Text) : Text × OverrideContext :=
  let (type, ss) := extractString line []
  (type, readContext ss [] junk ⟨none, none, none⟩)

def readRange (line : Text) : Address × Address :=
  let (start, ss) := extractNumber 16 line
  (start.getD junk, (extractNumber 16 ss).1.getD junk)

def indented (line : Text) : Bool := line.head? = some ' '

def File.length (f : File) : Nat := f.rest.length + f.good.toNat

theorem length_getline {f f' line line'} (h : getline f line = (true, line', f')) : f'.length < f.length := by
  unfold getline at h
  split at h
  · next hg =>
    split at h
    · next c rest hr =>
      obtain ⟨-, -, rfl⟩ := h
      have := (dropWhile_suffix (l := f.rest) (· ≠ '\n')).length_le
      rw [hr, length_cons] at this
      simp only [File.length, hg]
      omega
    · simp only [Prod.mk.injEq] at h
      obtain ⟨-, -, rfl⟩ := h
      simp [File.length, hg]
  · cases h

/-- BlockBoundaryOverride::parse: the ranges, the line it stopped at and the file. -/
def BlockBoundaryOverride.parse (f : File) (line : Text) : OverrideList × Text × File :=
  match h : getline f line with
  | (false, line', f') => ([], line', f')
  | (true, line', f') =>
    have := length_getline h
    if indented line' then
      let (overrideList, result) := BlockBoundaryOverride.parse f' line'
      (readRange junk line' :: overrideList, result)
    else ([], line', f')
termination_by f.length

def insert (blockOverrides : Overrides) (context : OverrideContext) (l : OverrideList) : Overrides :=
  Function.update blockOverrides context (some l)

structure State where
  file : File
  line : Text
  blockOverrides : Overrides
  stopped : Bool

def State.running (s : State) : Bool := !s.stopped

def round (s : State) : State :=
  if s.line = [] then
    let (read, line, file) := getline s.file s.line
    { s with file, line, stopped := !read }
  else
    let (type, context) := readHeader junk s.line
    if type = "blockoverride".toList then
      let (overrideList, line, file) := BlockBoundaryOverride.parse junk s.file s.line
      { s with file, line, blockOverrides := insert s.blockOverrides context overrideList }
    else s

inductive Error where
  | fuel
deriving DecidableEq

/-- The loop over the lines, on fuel. -/
def parseFile (fuel : Nat) (contents : Text) (blockOverrides : Overrides) : Except Error Overrides :=
  return (← loop State.running (.ok ∘ round junk) .fuel fuel ⟨⟨contents, true⟩, [], blockOverrides, false⟩).blockOverrides

/-! ## Files by lines -/

/-- What the lines of a file say. There is no answer if a line that belongs to no stanza begins none. -/
def parseLines (c : Overrides) : List Text → Option Overrides
  | [] => some c
  | [] :: lines => parseLines c lines
  | header :: lines =>
    if (readHeader junk header).1 = "blockoverride".toList then
      parseLines (insert c (readHeader junk header).2 ((lines.takeWhile indented).map (readRange junk)))
        (lines.dropWhile indented)
    else none
termination_by lines => lines.length
decreasing_by
  · exact Nat.lt_succ_self _
  · exact Nat.lt_succ_of_le (dropWhile_suffix indented).length_le

theorem parseLines_stanza {header context c} (hne : header ≠ [])
    (h : readHeader junk header = ("blockoverride".toList, context)) (lines) : parseLines junk c (header :: lines) =
      parseLines junk (insert c context ((lines.takeWhile indented).map (readRange junk))) (lines.dropWhile indented) := by
  have ht : (readHeader junk header).1 = "blockoverride".toList := by rw [h]
  rw [parseLines.eq_3 _ _ _ _ hne, if_pos ht, h]

/-- The text with a newline behind each line. -/
def unlines (lines : List Text) : Text := lines.flatMap (· ++ ['\n'])

theorem unlines_cons (line) (lines) (last) :
    unlines (line :: lines) ++ last = line ++ '\n' :: (unlines lines ++ last) := by
  simp [unlines]

variable {junk} {lines : List Text} {last line : Text} {f : File} {s : State} {c c' : Overrides}

theorem getline_line {rest} (h : '\n' ∉ line) (old) :
    getline ⟨line ++ '\n' :: rest, true⟩ old = (true, line, ⟨rest, true⟩) := by
  have hne : ∀ d ∈ line, (decide (d ≠ '\n')) = true := fun d hd => decide_eq_true fun e => h (e ▸ hd)
  simp only [getline, if_true, dropWhile_append_of_pos hne, takeWhile_append_of_pos hne]
  simp

theorem getline_last (h : '\n' ∉ last) (old) :
    getline ⟨last, true⟩ old = (decide (last ≠ []), last, ⟨[], false⟩) := by
  have hne : ∀ d ∈ last, (decide (d ≠ '\n')) = true := fun d hd => decide_eq_true fun e => h (e ▸ hd)
  simp only [getline, if_true, dropWhile_eq_nil_iff.2 hne]

theorem getline_bad (h : f.good = false) (old) : getline f old = (false, old, f) := by
  rw [getline, h, if_neg Bool.false_ne_true]

theorem parse_line {old line f'} (h : getline f old = (true, line, f')) (hin : indented line = true) :
    BlockBoundaryOverride.parse junk f old =
      (readRange junk line :: (BlockBoundaryOverride.parse junk f' line).1, (BlockBoundaryOverride.parse junk f' line).2) := by
  rw [BlockBoundaryOverride.parse]
  split
  · next h' => cases h.symm.trans h'
  · next h' =>
    cases h.symm.trans h'
    rw [if_pos hin]

theorem parse_stop {old line f' read} (h : getline f old = (read, line, f'))
    (hin : read = false ∨ indented line = false) : BlockBoundaryOverride.parse junk f old = ([], line, f') := by
  rw [BlockBoundaryOverride.parse]
  split
  · next h' => cases h.symm.trans h'; rfl
  · next h' =>
    cases h.symm.trans h'
    rw [if_neg (by simpa using hin)]

/-- Where the parser of a stanza stops: at the first line that is not indented, or at the end of the file. -/
theorem parse_stops (hlt : '\n' ∉ last) : ∀ {lines}, (∀ l ∈ lines, '\n' ∉ l) → ∀ old,
    (∀ next rest, lines.dropWhile indented = next :: rest →
      BlockBoundaryOverride.parse junk ⟨unlines lines ++ last, true⟩ old =
        ((lines.takeWhile indented).map (readRange junk), next, ⟨unlines rest ++ last, true⟩)) ∧
    (lines.dropWhile indented = [] →
      ∃ l, BlockBoundaryOverride.parse junk ⟨unlines lines ++ last, true⟩ old = (l, last, ⟨[], false⟩) ∧
        (last = [] → l = (lines.takeWhile indented).map (readRange junk)))
  | [], _, old => by
    have hr := getline_last hlt old
    rw [unlines, flatMap_nil, nil_append]
    refine ⟨fun next rest h => (by cases h), fun _ => ?_⟩
    by_cases hin : last ≠ [] ∧ indented last = true
    · -- the line without an end is read, and kept when the next read fails
      refine ⟨[readRange junk last], ?_, fun h => absurd h hin.1⟩
      rw [parse_line (by rw [hr, decide_eq_true hin.1]) hin.2, parse_stop (getline_bad rfl last) (.inl rfl)]
    · refine ⟨[], parse_stop hr ?_, fun _ => rfl⟩
      rw [decide_eq_false_iff_not, ← Bool.not_eq_true]
      exact not_and_or.1 hin
  | line :: lines, hn, old => by
    have hr : getline ⟨line ++ '\n' :: (unlines lines ++ last), true⟩ old = _ :=
      getline_line (hn line mem_cons_self) old
    have ih := parse_stops hlt (fun l hl => hn l (mem_cons_of_mem _ hl)) line
    rw [unlines_cons]
    by_cases hin : indented line = true
    · rw [dropWhile_cons_of_pos hin, takeWhile_cons_of_pos hin, parse_line hr hin]
      refine ⟨fun next rest h => by rw [ih.1 next rest h, map_cons], fun h => ?_⟩
      obtain ⟨l, hl, he⟩ := ih.2 h
      exact ⟨readRange junk line :: l, by rw [hl], fun h => by rw [he h, map_cons]⟩
    · rw [dropWhile_cons_of_neg hin, takeWhile_cons_of_neg hin, parse_stop hr (.inr (Bool.eq_false_iff.2 hin))]
      refine ⟨fun next rest h => ?_, fun h => by cases h⟩
      cases h
      rfl

/-- The loop of parseFile ends, and with these overrides. -/
def Returns (junk : Address) (s : State) (c : Overrides) : Prop :=
  ∃ s', Ends State.running (.ok ∘ round junk) Error.fuel s s' ∧ s'.blockOverrides = c

theorem returns_round (h : s.stopped = false) : Returns junk s c' ↔ Returns junk (round junk s) c' := by
  have hr : s.running = true := by rw [State.running, h, Bool.not_false]
  simp only [Returns, ends_next hr (show (Except.ok ∘ round junk) s = .ok (round junk s) from rfl)]

theorem returns_stopped (h : s.stopped = true) : Returns junk s c' ↔ s.blockOverrides = c' := by
  have hr : s.running = false := by rw [State.running, h, Bool.not_true]
  simp only [Returns, ends_done hr, exists_eq_left']

/-- A line that begins no stanza stays, and so does one that was read at the end of the file. -/
theorem not_returns (h : s.stopped = false) (hl : s.line ≠ [])
    (hs : s.file.good = false ∨ (readHeader junk s.line).1 ≠ "blockoverride".toList) : ¬Returns junk s c' := by
  rintro ⟨s', ⟨fuel, hs'⟩, -⟩
  have hf : loop State.running (.ok ∘ round junk) Error.fuel fuel s = .error .fuel :=
    loop_forever (I := fun s => s.stopped = false ∧ s.line ≠ [] ∧
      (s.file.good = false ∨ (readHeader junk s.line).1 ≠ "blockoverride".toList)) ?_ fuel ⟨h, hl, hs⟩
  · cases hf.symm.trans hs'
  · rintro s ⟨h, hl, hs⟩
    refine ⟨by rw [State.running, h, Bool.not_false], round junk s, rfl, ?_⟩
    unfold round
    rw [if_neg hl]
    dsimp only
    split
    · next ht =>
      have hb := hs.resolve_right (not_not_intro ht)
      rw [parse_stop (getline_bad hb s.line) (.inl rfl)]
      exact ⟨h, hl, .inl hb⟩
    · exact ⟨h, hl, hs⟩

/-- What is left of the file is the line in hand and the lines not yet read. -/
theorem returns_iff (hlt : '\n' ∉ last) : ∀ lines, (∀ l ∈ lines, '\n' ∉ l) → ∀ line c,
    Returns junk ⟨⟨unlines lines ++ last, true⟩, line, c, false⟩ c' ↔
      last = [] ∧ parseLines junk c (line :: lines) = some c'
  | [], _, [], c => by
    have hr : round junk ⟨⟨unlines [] ++ last, true⟩, [], c, false⟩ =
        ⟨⟨[], false⟩, last, c, !decide (last ≠ [])⟩ := by
      simp only [round, if_true, unlines, flatMap_nil, nil_append, getline_last hlt]
    rw [returns_round rfl, hr, parseLines, parseLines]
    by_cases h : last = []
    · rw [returns_stopped (by simp [h]), Option.some.injEq, and_iff_right h]
    · exact iff_of_false (not_returns (by simp [h]) h (.inl rfl)) fun h' => h h'.1
  | line :: lines, hn, [], c => by
    have hr : round junk ⟨⟨unlines (line :: lines) ++ last, true⟩, [], c, false⟩ =
        ⟨⟨unlines lines ++ last, true⟩, line, c, false⟩ := by
      rw [unlines_cons]
      simp only [round, if_true, getline_line (hn line mem_cons_self), Bool.not_true]
    rw [returns_round rfl, hr, returns_iff hlt lines fun l hl => hn l (mem_cons_of_mem _ hl), parseLines.eq_2]
  | lines, hn, a :: line, c => by
    rw [parseLines.eq_3 _ _ _ _ (cons_ne_nil a line)]
    by_cases ht : (readHeader junk (a :: line)).1 = "blockoverride".toList
    · rw [if_pos ht, returns_round rfl, round, if_neg (cons_ne_nil a line)]
      simp only [ht, if_true]
      cases hd : lines.dropWhile indented with
      | cons next rest =>
        have hs := hd ▸ dropWhile_suffix indented
        have := hs.length_le
        rw [(parse_stops hlt hn (a :: line)).1 next rest hd,
          returns_iff hlt rest fun l hl => hn l (hs.subset (mem_cons_of_mem _ hl))]
      | nil =>
        obtain ⟨l, hl, he⟩ := (parse_stops hlt hn (a :: line)).2 hd
        rw [hl, parseLines]
        by_cases h : last = []
        · subst h
          rw [returns_round rfl, round, if_pos rfl]
          simp only [getline_bad, he]
          rw [returns_stopped rfl, Option.some.injEq, true_and]
        · exact iff_of_false (not_returns rfl h (.inl rfl)) fun h' => h h'.1
    · rw [if_neg ht]
      exact iff_of_false (not_returns rfl (cons_ne_nil a line) (.inr ht)) fun h' => by cases h'.2
termination_by lines => lines.length
decreasing_by
  · exact Nat.lt_succ_self _
  · exact this

theorem parseFile_eq_ok_iff {contents} :
    (∃ fuel, parseFile junk fuel contents c = .ok c') ↔ Returns junk ⟨⟨contents, true⟩, [], c, false⟩ c' := by
  constructor
  · rintro ⟨fuel, h⟩
    obtain ⟨s', hs', hc⟩ := bind_iff.1 h
    exact ⟨s', ⟨fuel, hs'⟩, Except.ok.inj hc⟩
  · rintro ⟨s', ⟨fuel, hs'⟩, hc⟩
    exact ⟨fuel, bind_iff.2 ⟨s', hs', congrArg Except.ok hc⟩⟩

/-- The file is read to its end exactly when its lines have a meaning and the last one is ended, and then every stanza
    contributes the ranges of its lines. -/
theorem parseFile_returns_iff {lines : List Text} (hlines : ∀ l ∈ lines, '\n' ∉ l) {last : Text} (hlast : '\n' ∉ last)
    (c c' : Overrides) :
    (∃ fuel, parseFile junk fuel (unlines lines ++ last) c = .ok c') ↔
      last = [] ∧ parseLines junk c lines = some c' := by
  rw [parseFile_eq_ok_iff, returns_iff hlast lines hlines, parseLines.eq_2]

theorem parseFile_returns_iff_stanza :
    ∃ fuel, parseFile 0 fuel "blockoverride module A func f\n    0x0 0x50\n    100 0x110\n".toList (fun _ => none) =
      .ok (insert (fun _ => none) ⟨some "module-A".toList, some "f".toList, none⟩ [(0, 0x50), (0x100, 0x110)]) := by
  have hhr : readHeader 0 "blockoverride module A func f".toList =
      ("blockoverride".toList, ⟨some "module-A".toList, some "f".toList, none⟩) := by decide +kernel
  have hrn : (["    0x0 0x50".toList, "    100 0x110".toList].takeWhile indented).map (readRange 0) =
      [(0, 0x50), (0x100, 0x110)] := by decide +kernel
  have htt : "blockoverride module A func f\n    0x0 0x50\n    100 0x110\n".toList = unlines
      ["blockoverride module A func f".toList, "    0x0 0x50".toList, "    100 0x110".toList] ++ [] := by decide +kernel
  rw [htt, parseFile_returns_iff (by decide +kernel) not_mem_nil, parseLines_stanza 0 (by decide) hhr, hrn]
  exact ⟨rfl, parseLines.eq_1 0 _⟩

theorem parseFile_diverges {contents} (h : ∀ c', ¬Returns junk ⟨⟨contents, true⟩, [], c, false⟩ c') (fuel) :
    parseFile junk fuel contents c = .error .fuel := by
  cases hp : parseFile junk fuel contents c with
  | error e => cases e; rfl
  | ok c' => exact absurd (parseFile_eq_ok_iff.1 ⟨fuel, hp⟩) (h c')

/-- An unknown directive, a range outside a stanza, and a last line without an end. -/
theorem parseFile_stuck :
    (∀ fuel, parseFile 0 fuel "jumpoverride func f\n".toList (fun _ => none) = .error .fuel) ∧
      (∀ fuel, parseFile 0 fuel "    0x0 0x50\n".toList (fun _ => none) = .error .fuel) ∧
      ∀ fuel, parseFile 0 fuel "blockoverride func f\n    0x0 0x50".toList (fun _ => none) = .error .fuel := by
  have huk : ∀ a line, '\n' ∉ a :: line → (readHeader 0 (a :: line)).1 ≠ "blockoverride".toList → ∀ c' : Overrides,
      ¬Returns 0 ⟨⟨unlines [a :: line] ++ [], true⟩, [], fun _ => none, false⟩ c' := by
    intro a line hln htp c' h
    rw [returns_iff not_mem_nil _ (by simpa using hln), parseLines.eq_2, parseLines.eq_3 _ _ _ _ (cons_ne_nil a line),
      if_neg htp] at h
    cases h.2
  refine ⟨parseFile_diverges (huk 'j' "umpoverride func f".toList (by decide) (by decide +kernel)),
    parseFile_diverges (huk ' ' "   0x0 0x50".toList (by decide) (by decide +kernel)),
    parseFile_diverges fun c' h => ?_⟩
  have := (returns_iff (by decide) ["blockoverride func f".toList] (by decide) [] fun _ => none).mp h
  exact absurd this.1 (by decide)

end Egalito.ParseOverride
