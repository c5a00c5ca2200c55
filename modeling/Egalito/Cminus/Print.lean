/-
The freestanding `printf` family (`cminus/print.c`): two interpreters of one format, one that writes to a stream and one
that fills a buffer.

A format is cut into directives. Each interpreter is one step per directive, the two steps are compared, and
`vsnprintf_eq_vfprintf` carries the comparison over the whole format, together with the bounds of the buffer.
-/
import Egalito.Lib.Bytes
import Egalito.Lib.Except
import Mathlib.Data.List.TakeWhile

namespace Egalito.Print

open List Lib

/-! ## Numbers -/

/-- The loop of write_decimal and decimal_to_string, which fills its buffer from the end. -/
def decimalLoop (number : Nat) (buffer : List Byte) : List Byte :=
  let buffer := BitVec.ofNat 8 (number % 10 + 48) :: buffer
  if h : number / 10 = 0 then buffer else decimalLoop (number / 10) buffer
termination_by number
decreasing_by omega

def hexDigit (digit : Nat) : Byte := BitVec.ofNat 8 (if digit ≤ 9 then digit + 48 else digit - 10 + 97)

/-- The loop of write_hex and hex_to_string with so many of its sixteen rounds left. -/
def hexLoop (number : BitVec 64) : Nat → List Byte → List Byte
  | 0, buffer => buffer
  | rounds + 1, buffer =>
    let shift := 4 * (15 - rounds)
    let buffer := hexDigit ((number >>> shift) &&& 0xf).toNat :: buffer
    if shift + 4 = 32 ∧ number >>> 32 = 0 then buffer else hexLoop number rounds buffer

def decimal (number : BitVec 64) : List Byte := decimalLoop number.toNat []

def hex (number : BitVec 64) : List Byte := hexLoop number 16 []

theorem decimalLoop_ne_zero : ∀ number {buffer}, (∀ b ∈ buffer, b ≠ 0) → ∀ b ∈ decimalLoop number buffer, b ≠ 0 := by
  intro number
  induction number using Nat.strongRecOn with
  | ind number ih =>
    intro buffer hb
    have hd : BitVec.ofNat 8 (number % 10 + 48) ≠ 0 := by
      have := Nat.mod_lt number (show 0 < 10 by decide)
      bv_omega
    have hc : ∀ b ∈ BitVec.ofNat 8 (number % 10 + 48) :: buffer, b ≠ 0 := forall_mem_cons.2 ⟨hd, hb⟩
    rw [decimalLoop]
    split
    · exact hc
    · exact ih (number / 10) (by omega) hc

theorem decimalLoop_eq (n) (buffer : List Byte) : decimalLoop n buffer =
    (if n / 10 = 0 then [] else decimalLoop (n / 10) []) ++ BitVec.ofNat 8 (n % 10 + 48) :: buffer := by
  induction n using Nat.strongRecOn generalizing buffer with
  | ind n ih =>
    rw [decimalLoop]
    split
    · rfl
    · next h => rw [ih (n / 10) (by omega), ih (n / 10) (by omega) [], append_assoc]; rfl

/-- The last digit and the digits before it give the number back. -/
theorem decimalLoop_inj (n n') (h : decimalLoop n [] = decimalLoop n' []) : n = n' := by
  induction n using Nat.strongRecOn generalizing n' with
  | ind n ih =>
    have hne (k) : decimalLoop k [] ≠ [] := by simp [decimalLoop_eq k]
    rw [decimalLoop_eq n, decimalLoop_eq n'] at h
    obtain ⟨hi, hd⟩ := append_inj' h rfl
    have hd : n % 10 = n' % 10 := by
      have := (cons.inj hd).1
      bv_omega
    split_ifs at hi
    · omega
    · exact absurd hi.symm (hne _)
    · exact absurd hi (hne _)
    · have := ih (n / 10) (by omega) (n' / 10) hi
      omega

theorem decimal_inj {v v' : BitVec 64} (h : decimal v = decimal v') : v = v' :=
  BitVec.eq_of_toNat_eq (decimalLoop_inj _ _ h)

theorem hexDigit_ne_zero {digit} (h : digit < 16) : hexDigit digit ≠ 0 := by
  have : ∀ d : Fin 16, hexDigit d ≠ 0 := by decide
  exact this ⟨digit, h⟩

theorem hexLoop_ne_zero (number) : ∀ rounds {buffer}, (∀ b ∈ buffer, b ≠ 0) → ∀ b ∈ hexLoop number rounds buffer, b ≠ 0
  | 0, _, h => h
  | rounds + 1, buffer, h => by
    have hlt : ((number >>> (4 * (15 - rounds))) &&& 0xf).toNat < 16 := by
      rw [BitVec.toNat_and]
      exact Nat.and_lt_two_pow _ (show (15 : Nat) < 2 ^ 4 by decide)
    have hc : ∀ b ∈ hexDigit ((number >>> (4 * (15 - rounds))) &&& 0xf).toNat :: buffer, b ≠ 0 :=
      forall_mem_cons.2 ⟨hexDigit_ne_zero hlt, h⟩
    rw [hexLoop]
    split
    · exact hc
    · exact hexLoop_ne_zero number rounds hc

theorem decimal_ne_zero (number) : ∀ b ∈ decimal number, b ≠ 0 :=
  decimalLoop_ne_zero number.toNat (by simp)

theorem hex_ne_zero (number) : ∀ b ∈ hex number, b ≠ 0 := hexLoop_ne_zero number 16 (by simp)

/-! ## Formats -/

/-- `%c`, `%s` and so on. -/
inductive Conversion where
  | pc | ps | pd | pu | px | pp | pld | plu | plx
deriving DecidableEq

/-- An argument as it is passed. A string ends before its first zero byte, and may be missing. -/
inductive Arg where
  | int (v : BitVec 32)
  | long (v : BitVec 64)
  | pointer (v : BitVec 64)
  | string (s : Option (List {b : Byte // b ≠ 0}))

inductive Error where
  | overrun
  | argument
  | nullString
deriving DecidableEq

def isFlag (b : Byte) : Bool := (48 ≤ b.toNat && b.toNat ≤ 57) || b = 0x2d

def conversion (b : Byte) : Option Conversion :=
  [(0x63, .pc), (0x73, .ps), (0x64, .pd), (0x75, .pu), (0x78, .px), (0x70, .pp)].lookup b

def longConversion (b : Byte) : Option Conversion := [(0x64, .pld), (0x75, .plu), (0x78, .plx)].lookup b

/-- The two switches, and the memory after the byte they stopped at. -/
def switch : List Byte → Option (Option Conversion × List Byte)
  | [] => none
  | b :: rest =>
    if b = 0x6c then
      match rest with
      | [] => none
      | b :: rest => some (longConversion b, rest)
    else some (conversion b, rest)

theorem length_switch {memory rest o} (h : switch memory = some (o, rest)) : rest.length < memory.length := by
  unfold switch at h
  split at h
  · cases h
  · split at h
    · split at h
      · cases h
      · cases h
        simp only [length_cons]
        omega
    · cases h
      exact Nat.lt_succ_self _

section Interpret

variable {σ : Type} (literal : σ → Byte → σ) (convert : Conversion → Arg → σ → Except Error σ)

/-- The loop of both functions over the memory from the format on, which may go past its end. Text is taken byte by
    byte. -/
def interpret (memory : List Byte) (args : List Arg) (st : σ) : Except Error σ :=
  match memory with
  | [] => .error .overrun
  | b :: rest =>
    if b = 0 then .ok st
    else if b = 0x25 then
      match h : switch (rest.dropWhile isFlag) with
      | none => .error .overrun
      | some (none, rest') =>
        have := (length_switch h).trans_le (dropWhile_suffix isFlag).length_le
        interpret rest' args st
      | some (some c, rest') =>
        have := (length_switch h).trans_le (dropWhile_suffix isFlag).length_le
        match args with
        | [] => .error .argument
        | a :: args => convert c a st >>= interpret rest' args
    else interpret rest args (literal st b)
termination_by memory.length
decreasing_by all_goals (simp only [length_cons]; omega)

end Interpret

def written : Conversion → Arg → Except Error (List Byte)
  | .pc, .int v => .ok [v.setWidth 8]
  | .ps, .string none => .ok [0x28, 0x6e, 0x75, 0x6c, 0x6c, 0x29]
  | .ps, .string (some s) => .ok (s.map Subtype.val)
  | .pd, .int v => .ok (decimal (v.signExtend 64))
  | .pu, .int v => .ok (decimal (v.setWidth 64))
  | .px, .int v => .ok (hex (v.setWidth 64))
  | .pp, .pointer v => .ok (hex v)
  | .pld, .long v => .ok (decimal v)
  | .plu, .long v => .ok (decimal v)
  | .plx, .long v => .ok (hex v)
  | _, _ => .error .argument

/-- Every byte goes to the stream. -/
def vfprintf (memory : List Byte) (args : List Arg) : Except Error (List Byte) :=
  interpret (fun out b => out ++ [b]) (fun c a out => return out ++ (← written c a)) memory args []

/-- The bytes before the pointer of vsnprintf, and whether the byte at it was set to zero. -/
structure Buffer where
  bytes : List Byte
  nul : Bool
deriving DecidableEq

/-- How many bytes of the buffer are written. -/
def Buffer.extent (b : Buffer) : Nat := b.bytes.length + b.nul.toNat

def Buffer.put (b : Buffer) (c : Byte) : Buffer := ⟨b.bytes ++ [c], false⟩

/-- `_strcpy`, and the pointer moved to the zero byte. -/
def Buffer.strcpy (b : Buffer) (src : List Byte) : Buffer := ⟨b.bytes ++ src.takeWhile (· ≠ 0), true⟩

/-- What vsnprintf does for a conversion. `%ld` takes its argument for an `int`. -/
def copied : Conversion → Arg → Buffer → Except Error Buffer
  | .pc, .int v, b => .ok (b.put (v.setWidth 8))
  | .ps, .string none, _ => .error .nullString
  | .ps, .string (some s), b => .ok (b.strcpy (s.map Subtype.val))
  | .pd, .int v, b => .ok (b.strcpy (decimal (v.signExtend 64)))
  | .pu, .int v, b => .ok (b.strcpy (decimal (v.setWidth 64)))
  | .px, .int v, b => .ok (b.strcpy (hex (v.setWidth 64)))
  | .pp, .pointer v, b => .ok (b.strcpy (hex v))
  | .pld, .long v, b => .ok (b.strcpy (decimal ((v.setWidth 32).signExtend 64)))
  | .plu, .long v, b => .ok (b.strcpy (decimal v))
  | .plx, .long v, b => .ok (b.strcpy (hex v))
  | _, _, _ => .error .argument

/-- Bytes are put into the buffer; the bound `size` is never looked at. -/
def vsnprintf (_size : Nat) (memory : List Byte) (args : List Arg) : Except Error Buffer :=
  interpret Buffer.put copied memory args ⟨[], false⟩

/-! ## Directives -/

/-- The argument is of the type that the conversion takes. -/
def Matches : Conversion → Arg → Bool
  | .pc, .int _ | .pd, .int _ | .pu, .int _ | .px, .int _ | .pp, .pointer _ | .ps, .string _ => true
  | .pld, .long _ | .plu, .long _ | .plx, .long _ => true
  | _, _ => false

/-- What may follow a percent sign and flags without being a conversion: the switches have no case for it. -/
def Unknown : List Byte → Bool
  | [b] => b ≠ 0 ∧ isFlag b = false ∧ b ≠ 0x6c ∧ Print.conversion b = none
  | [l, b] => l = 0x6c ∧ b ≠ 0 ∧ longConversion b = none
  | _ => false

/-- A byte of text, a conversion with its argument, or a conversion that neither function knows, such as `%%`. -/
inductive Directive where
  | text (b : Byte) (h : b ≠ 0 ∧ b ≠ 0x25)
  | conversion (flags : List Byte) (hflags : ∀ b ∈ flags, isFlag b = true) (c : Conversion) (a : Arg) (h : Matches c a = true)
  | unknown (flags : List Byte) (hflags : ∀ b ∈ flags, isFlag b = true) (letters : List Byte) (h : Unknown letters = true)

def Conversion.letters : Conversion → List Byte
  | .pc => [0x63] | .ps => [0x73] | .pd => [0x64] | .pu => [0x75] | .px => [0x78] | .pp => [0x70]
  | .pld => [0x6c, 0x64] | .plu => [0x6c, 0x75] | .plx => [0x6c, 0x78]

namespace Directive

def bytes : Directive → List Byte
  | text b _ => [b]
  | conversion flags _ c _ _ => 0x25 :: (flags ++ c.letters)
  | unknown flags _ letters _ => 0x25 :: (flags ++ letters)

def args : Directive → List Arg
  | conversion _ _ _ a _ => [a]
  | _ => []

/-- Where the two functions do the same: a string that is there, and a `long` in the range of an `int`. -/
def Common : Directive → Prop
  | conversion _ _ .ps (.string none) _ => False
  | conversion _ _ .pld (.long v) _ => (v.setWidth 32).signExtend 64 = v
  | _ => True

/-- The string is missing. -/
def isNull : Directive → Bool
  | conversion _ _ .ps (.string none) _ => true
  | _ => false

/-- Whether the byte at the pointer is zero after the directive. -/
def terminates (nul : Bool) : Directive → Bool
  | text _ _ => false
  | conversion _ _ c _ _ => c ≠ .pc
  | unknown _ _ _ _ => nul

end Directive

/-- The bytes of a format with these directives. -/
def format (ds : List Directive) : List Byte := ds.flatMap Directive.bytes

/-- The format ends in the middle of a directive: with a percent sign, flags, and maybe the `l` of a conversion. -/
inductive Cut : List Byte → Prop
  | percent (flags : List Byte) : (∀ b ∈ flags, isFlag b = true) → Cut (0x25 :: flags)
  | long (flags : List Byte) : (∀ b ∈ flags, isFlag b = true) → Cut (0x25 :: (flags ++ [0x6c]))

def arguments (ds : List Directive) : List Arg := ds.flatMap Directive.args

section Interpret

variable {σ : Type} {literal : σ → Byte → σ} {convert : Conversion → Arg → σ → Except Error σ}

def step (literal : σ → Byte → σ) (convert : Conversion → Arg → σ → Except Error σ) (st : σ) : Directive → Except Error σ
  | .text b _ => .ok (literal st b)
  | .conversion _ _ c a _ => convert c a st
  | .unknown _ _ _ _ => .ok st

theorem switch_letters (c memory) : switch (c.letters ++ memory) = some (some c, memory) := by
  cases c <;> rfl

theorem dropWhile_letters (c : Conversion) (memory : List Byte) :
    (c.letters ++ memory).dropWhile isFlag = c.letters ++ memory := by
  cases c <;> rfl

theorem switch_unknown {letters} (h : Unknown letters = true) (memory) :
    switch ((letters ++ memory).dropWhile isFlag) = some (none, memory) := by
  match letters with
  | [b] =>
    simp only [Unknown, decide_eq_true_eq] at h
    have hb : b ≠ 108#8 := h.2.2.1
    simp [switch, h.2.1, hb, h.2.2.2]
  | [l, b] =>
    simp only [Unknown, decide_eq_true_eq] at h
    obtain ⟨rfl, -, hb⟩ := h
    simp [switch, hb, isFlag]
  | [] | _ :: _ :: _ :: _ => simp [Unknown] at h

/-- A percent sign and what the switches leave. -/
theorem interpret_percent {r r'} (h : switch (r.dropWhile isFlag) = some (none, r')) (args : List Arg) (st : σ) :
    interpret literal convert (0x25 :: r) args st = interpret literal convert r' args st := by
  rw [interpret, if_neg (by decide), if_pos rfl]
  split <;> next h' => cases h.symm.trans h' <;> rfl

theorem interpret_directive (d) (memory : List Byte) (args : List Arg) (st : σ) :
    interpret literal convert (d.bytes ++ memory) (d.args ++ args) st =
      step literal convert st d >>= interpret literal convert memory args := by
  cases d with
  | text b h =>
    simp only [Directive.bytes, Directive.args, cons_append, nil_append]
    rw [interpret, if_neg h.1, if_neg h.2]
    rfl
  | conversion flags hf c a h =>
    have hs : switch ((flags ++ c.letters ++ memory).dropWhile isFlag) = some (some c, memory) := by
      rw [append_assoc, dropWhile_append_of_pos hf, dropWhile_letters, switch_letters]
    simp only [Directive.bytes, Directive.args, cons_append, nil_append]
    rw [interpret, if_neg (by decide), if_pos rfl]
    split
    · next h' => cases hs.symm.trans h'
    · next h' => cases hs.symm.trans h'
    · next h' =>
      cases hs.symm.trans h'
      rfl
  | unknown flags hf letters h =>
    refine interpret_percent (r := flags ++ letters ++ memory) ?_ args st
    rw [append_assoc, dropWhile_append_of_pos hf, switch_unknown h]

/-- The loop steps over the end of a format that is cut off, and takes what is behind it for more of the format. -/
theorem interpret_cut {tail} (h : Cut tail) (beyond args) (st : σ) :
    interpret literal convert (tail ++ 0 :: beyond) args st = interpret literal convert beyond args st := by
  cases h with
  | percent flags hf =>
    refine interpret_percent (r := flags ++ 0 :: beyond) ?_ args st
    rw [dropWhile_append_of_pos hf]
    rfl
  | long flags hf =>
    refine interpret_percent (r := flags ++ [0x6c] ++ 0 :: beyond) ?_ args st
    rw [append_assoc, dropWhile_append_of_pos hf]
    rfl

theorem interpret_format (memory args) : ∀ ds st, interpret literal convert (format ds ++ memory) (arguments ds ++ args) st =
    ds.foldlM (step literal convert) st >>= interpret literal convert memory args
  | [], st => rfl
  | d :: ds, st => by
    rw [format, arguments, flatMap_cons, flatMap_cons, append_assoc, append_assoc, interpret_directive, foldlM_cons,
      bind_assoc]
    congr 1
    funext st'
    exact interpret_format memory args ds st'

theorem interpret_end (beyond ds) (st : σ) :
    interpret literal convert (format ds ++ 0 :: beyond) (arguments ds) st = ds.foldlM (step literal convert) st := by
  have h := @interpret_format σ literal convert (0 :: beyond) [] ds st
  rw [append_nil] at h
  rw [h]
  cases ds.foldlM (step literal convert) st with
  | error e => rfl
  | ok st' =>
    change interpret literal convert (0 :: beyond) [] st' = _
    rw [interpret, if_pos rfl]

end Interpret

/-! ## Both functions -/

theorem Buffer.strcpy_eq (b : Buffer) {src} (h : ∀ c ∈ src, c ≠ 0) : b.strcpy src = ⟨b.bytes ++ src, true⟩ := by
  rw [strcpy, takeWhile_eq_self_iff.2 fun c hc => decide_eq_true (h c hc)]

/-- What vfprintf does for a directive. -/
def writeStep : List Byte → Directive → Except Error (List Byte) :=
  step (fun out c => out ++ [c]) fun c a out => return out ++ (← written c a)

/-- One directive: vfprintf adds its bytes, and vsnprintf the same ones if it is common, others if a `long` is cut, and
    none if a string is missing. -/
theorem step_cases (d : Directive) : ∃ t, (∀ out, writeStep out d = .ok (out ++ t)) ∧
    ((d.Common ∧ ∀ b, step Buffer.put copied b d = .ok ⟨b.bytes ++ t, d.terminates b.nul⟩) ∨
      (¬ d.Common ∧ d.isNull = true ∧ ∀ b, step Buffer.put copied b d = .error .nullString) ∨
      ¬ d.Common ∧ d.isNull = false ∧ ∃ t', t' ≠ t ∧ ∀ b, step Buffer.put copied b d = .ok ⟨b.bytes ++ t', true⟩) := by
  cases d with
  | text c h => exact ⟨[c], fun _ => rfl, .inl ⟨trivial, fun _ => rfl⟩⟩
  | unknown flags hf letters h =>
    exact ⟨[], fun out => congrArg Except.ok (append_nil out).symm,
      .inl ⟨trivial, fun b => by rw [append_nil]; rfl⟩⟩
  | conversion flags hf c a h =>
    have hc {src} (h : ∀ c ∈ src, c ≠ 0) (b : Buffer) :
        (.ok (b.strcpy src) : Except Error Buffer) = .ok ⟨b.bytes ++ src, true⟩ := congrArg Except.ok (b.strcpy_eq h)
    cases c <;> cases a <;> first | exact absurd h Bool.false_ne_true | skip
    case conversion.pc.int v => exact ⟨[v.setWidth 8], fun _ => rfl, .inl ⟨trivial, fun _ => rfl⟩⟩
    case conversion.ps.string s =>
      cases s with
      | none => exact ⟨_, fun _ => rfl, .inr (.inl ⟨id, rfl, fun _ => rfl⟩)⟩
      | some s => exact ⟨_, fun _ => rfl, .inl ⟨trivial, hc (forall_mem_map.2 fun c _ => c.property)⟩⟩
    case conversion.pld.long v =>
      refine ⟨decimal v, fun _ => rfl, ?_⟩
      have hs := hc (decimal_ne_zero ((v.setWidth 32).signExtend 64))
      by_cases hv : (v.setWidth 32).signExtend 64 = v
      · exact .inl ⟨hv, fun b => (hs b).trans (by rw [hv]; rfl)⟩
      · exact .inr (.inr ⟨hv, rfl, _, fun he => hv (decimal_inj he), hs⟩)
    case conversion.pd.int | conversion.pu.int | conversion.plu.long =>
      exact ⟨_, fun _ => rfl, .inl ⟨trivial, hc (decimal_ne_zero _)⟩⟩
    case conversion.px.int | conversion.pp.pointer | conversion.plx.long =>
      exact ⟨_, fun _ => rfl, .inl ⟨trivial, hc (hex_ne_zero _)⟩⟩

theorem foldlM_common : ∀ {ds : List Directive}, (∀ d ∈ ds, d.Common) → ∃ t,
    (∀ out, ds.foldlM writeStep out = .ok (out ++ t)) ∧
      ∀ b, ds.foldlM (step Buffer.put copied) b = .ok ⟨b.bytes ++ t, ds.foldl Directive.terminates b.nul⟩
  | [], _ => ⟨[], fun out => congrArg Except.ok (append_nil out).symm, fun b => by rw [append_nil]; rfl⟩
  | d :: ds, hs => by
    obtain ⟨t, hw, ⟨-, hb⟩ | ⟨hn, -⟩ | ⟨hn, -⟩⟩ := step_cases d
    · obtain ⟨t', hw', hb'⟩ := foldlM_common fun e he => hs e (mem_cons_of_mem d he)
      refine ⟨t ++ t', fun out => ?_, fun b => ?_⟩
      · rw [foldlM_cons, ok_bind (hw out), hw', append_assoc]
      · rw [foldlM_cons, ok_bind (hb b), hb', append_assoc]
        rfl
    all_goals exact absurd (hs d mem_cons_self) hn

/-- A missing string stops vsnprintf wherever it is. -/
theorem foldlM_null : ∀ {ds : List Directive}, (∃ d ∈ ds, d.isNull = true) → ∀ b b',
    ds.foldlM (step Buffer.put copied) b ≠ .ok b'
  | d :: ds, hn, b, b', h => by
    obtain ⟨b₁, h₁, h₂⟩ := bind_iff.1 h
    obtain ⟨t, -, ⟨hc, -⟩ | ⟨-, -, he⟩ | ⟨-, hnull, -⟩⟩ := step_cases d
    · refine foldlM_null ?_ b₁ b' h₂
      obtain ⟨e, he, hen⟩ := hn
      refine ⟨e, (mem_cons.1 he).resolve_left ?_, hen⟩
      rintro rfl
      unfold Directive.isNull at hen
      split at hen
      · exact hc
      · cases hen
    · cases (he b).symm.trans h₁
    · refine foldlM_null ?_ b₁ b' h₂
      obtain ⟨e, he, hen⟩ := hn
      refine ⟨e, (mem_cons.1 he).resolve_left ?_, hen⟩
      rintro rfl
      exact Bool.false_ne_true (hnull.symm.trans hen)

/-- If all directives are common both functions return the same bytes, and the buffer holds them with a zero byte after
    them if and only if it is larger than they are and the last directive that counts is a conversion that writes one. If
    one directive is not common the bytes are not the same, and a missing string stops vsnprintf. A format that is cut off
    is continued behind its end. -/
theorem vsnprintf_eq_vfprintf (ds : List Directive) (size : Nat) (beyond : List Byte) :
    ((∀ d ∈ ds, d.Common) → ∃ b, vsnprintf size (format ds ++ 0 :: beyond) (arguments ds) = .ok b ∧
      vfprintf (format ds ++ 0 :: beyond) (arguments ds) = .ok b.bytes ∧
      (b.nul = true ∧ b.extent ≤ size ↔ ds.foldl Directive.terminates false = true ∧ b.bytes.length < size)) ∧
    (∀ pre d post, ds = pre ++ d :: post → ¬ d.Common → (∀ e ∈ pre, e.Common) → (∀ e ∈ post, e.Common) →
      ∀ b, vsnprintf size (format ds ++ 0 :: beyond) (arguments ds) = .ok b →
        vfprintf (format ds ++ 0 :: beyond) (arguments ds) ≠ .ok b.bytes) ∧
    ((∃ d ∈ ds, d.isNull = true) → ∀ b, vsnprintf size (format ds ++ 0 :: beyond) (arguments ds) ≠ .ok b) ∧
    ∀ tail, Cut tail → vfprintf (format ds ++ (tail ++ 0 :: beyond)) (arguments ds) =
      vfprintf (format ds ++ beyond) (arguments ds) ∧
      vsnprintf size (format ds ++ (tail ++ 0 :: beyond)) (arguments ds) =
        vsnprintf size (format ds ++ beyond) (arguments ds) := by
  refine ⟨fun hds => ?_, ?_, fun hn b h => ?_, fun tail ht => ?_⟩
  · obtain ⟨t, hw, hb⟩ := foldlM_common hds
    refine ⟨⟨t, ds.foldl Directive.terminates false⟩, ?_, ?_, ?_⟩
    · rw [vsnprintf, interpret_end, hb]
      rfl
    · rw [vfprintf, interpret_end]
      exact hw []
    · simp only [Buffer.extent]
      cases ds.foldl Directive.terminates false <;> simp [Nat.succ_le_iff]
  · rintro pre d post rfl hd hpre hpost b h hv
    rw [vsnprintf, interpret_end, foldlM_append] at h
    rw [vfprintf, interpret_end, foldlM_append] at hv
    obtain ⟨tp, hwp, hbp⟩ := foldlM_common hpre
    obtain ⟨tq, hwq, hbq⟩ := foldlM_common hpost
    obtain ⟨t, hw, ⟨hc, -⟩ | ⟨-, -, he⟩ | ⟨-, -, t', hne, hb⟩⟩ := step_cases d
    · exact hd hc
    · rw [ok_bind (hbp _), foldlM_cons, he] at h
      cases h
    · rw [ok_bind (hbp _), foldlM_cons, ok_bind (hb _), hbq] at h
      have hv' := (ok_bind (hwp []) fun out => (d :: post).foldlM writeStep out).symm.trans hv
      rw [foldlM_cons, ok_bind (hw _), hwq] at hv'
      cases h
      exact hne (append_cancel_left (append_cancel_right (Except.ok.inj hv').symm))
  · rw [vsnprintf, interpret_end] at h
    exact foldlM_null hn _ b h
  · have hi {σ : Type} (literal : σ → Byte → σ) (convert : Conversion → Arg → σ → Except Error σ) (st : σ) :
        interpret literal convert (format ds ++ (tail ++ 0 :: beyond)) (arguments ds) st =
          interpret literal convert (format ds ++ beyond) (arguments ds) st := by
      have h₁ := @interpret_format σ literal convert (tail ++ 0 :: beyond) [] ds st
      have h₂ := @interpret_format σ literal convert beyond [] ds st
      rw [append_nil] at h₁ h₂
      rw [h₁, h₂]
      congr 1
      funext st'
      exact interpret_cut ht beyond [] st'
    exact ⟨hi _ _ _, hi _ _ _⟩

theorem vsnprintf_eq_vfprintf_number :
    ∃ b, vsnprintf 22 [0x3d, 0x25, 0x6c, 0x64, 0] [.long (-5)] = .ok b ∧
      vfprintf [0x3d, 0x25, 0x6c, 0x64, 0] [.long (-5)] = .ok b.bytes ∧ b.nul = true ∧ b.extent ≤ 22 := by
  obtain ⟨b, hbf, hsr, hsz⟩ := (vsnprintf_eq_vfprintf
    [.text 0x3d (by decide), .conversion [] (by simp) .pld (.long (-5)) rfl] 22 []).1 (by simp [Directive.Common])
  have hlg : (vfprintf [0x3d, 0x25, 0x6c, 0x64, 0] [.long (-5)]).map length = .ok 21 := by decide +kernel
  have hbt := Except.ok.inj ((congrArg (Except.map length) hsr).symm.trans hlg)
  exact ⟨b, hbf, hsr, hsz.2 ⟨rfl, by omega⟩⟩

/-- The size does not count, and text is not terminated; a `long` loses its upper half; a missing string is read; and
    after a lone percent sign both go on behind the end of the format. -/
theorem vsnprintf_ne_vfprintf :
    vsnprintf 1 [0x61, 0x62, 0] [] = .ok ⟨[0x61, 0x62], false⟩ ∧
      vsnprintf 16 [0x25, 0x6c, 0x64, 0] [.long 0x100000000] = .ok ⟨[0x30], true⟩ ∧
      vfprintf [0x25, 0x6c, 0x64, 0] [.long 0x100000000] =
        .ok [0x34, 0x32, 0x39, 0x34, 0x39, 0x36, 0x37, 0x32, 0x39, 0x36] ∧
      vsnprintf 16 [0x25, 0x73, 0] [.string none] = .error .nullString ∧
      vfprintf [0x25, 0] [] = .error .overrun ∧ vfprintf [0x25, 0, 0x41, 0] [] = .ok [0x41] := by
  decide +kernel

end Egalito.Print
