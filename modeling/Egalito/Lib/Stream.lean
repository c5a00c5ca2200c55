/-
Reading binary data with the sticky state of `std::istream`. `Parses r b v` says that `r` reads exactly the bytes `b` and
returns `v`, and `Starves r b` that it fails on every proper initial part of `b`.
-/
import Egalito.Lib.Bytes
import Egalito.Lib.Except

namespace Lib

open List

/-- The bits of the stream state: `eof` alone is set by a line that ends with the stream. -/
inductive Status
  | good
  | eof
  | fail
  deriving DecidableEq, Repr

structure Input where
  rest : List Byte
  status : Status
  deriving DecidableEq, Repr

abbrev Reader (ε : Type) := StateT Input (Except ε)

variable {ε α β : Type}

/-- The bytes that `read(s, n)` stores. -/
def readSome (n : Nat) : Reader ε (List Byte) := fun s =>
  match s.status with
  | .good =>
    if n ≤ s.rest.length then .ok (s.rest.take n, ⟨s.rest.drop n, .good⟩) else .ok (s.rest, ⟨[], .fail⟩)
  | .eof | .fail => .ok ([], ⟨s.rest, .fail⟩)

/-- An unsigned number of `n` bytes, in a variable that was 0 before. -/
def readNat (n : Nat) : Reader ε Nat := do
  let b ← readSome n
  pure (fromLittleEndian b)

/-- A buffer of `n` zeros, read into. -/
def readFixed (n : Nat) : Reader ε (List Byte) := do
  let b ← readSome n
  pure (b ++ replicate (n - b.length) 0)

/-- A line up to the next zero byte, which is dropped. -/
def readLine : Reader ε (List Byte) := fun s =>
  match s.status with
  | .good =>
    match s.rest.dropWhile (· ≠ 0) with
    | _ :: rest => .ok (s.rest.takeWhile (· ≠ 0), ⟨rest, .good⟩)
    | [] => .ok (s.rest, ⟨[], if s.rest = [] then .fail else .eof⟩)
  | .eof | .fail => .ok ([], ⟨s.rest, .fail⟩)

def readBytes (n : Nat) : Reader ε (List Byte) := do
  let k ← readNat n
  readFixed k

def readTimes : Nat → Reader ε α → Reader ε (List α)
  | 0, _ => pure []
  | n + 1, r => do
    let v ← r
    let vs ← readTimes n r
    pure (v :: vs)

def stillGood : Reader ε Bool := fun s => .ok (s.status == .good, s)

variable {r : Reader ε α} {b : List Byte} {v : α} {k : α → Reader ε β} {P : α → Nat → Prop} {n : Nat}

theorem bind_run_ok {s s'} (h : r s = .ok (v, s')) : (r >>= k) s = k v s' := by
  show (r s >>= fun p => k p.1 p.2) = _
  rw [h]
  rfl

/-! ## Exact reads -/

def Parses (r : Reader ε α) (b : List Byte) (v : α) : Prop :=
  ∀ tail, r ⟨b ++ tail, .good⟩ = .ok (v, ⟨tail, .good⟩)

theorem Parses.pure (v : α) : Parses (pure v : Reader ε α) [] v := fun _ => rfl

theorem Parses.bind {b' w} (hr : Parses r b v) (hk : Parses (k v) b' w) : Parses (r >>= k) (b ++ b') w := by
  intro tail
  rw [append_assoc, bind_run_ok (hr _)]
  exact hk tail

theorem Parses.map {f : α → β} (hr : Parses r b v) : Parses (r >>= fun a => Pure.pure (f a)) b (f v) := by
  have := hr.bind (k := fun a => Pure.pure (f a)) (Parses.pure (f v))
  rwa [append_nil] at this

theorem parses_readSome (b) : Parses (readSome b.length : Reader ε _) b b := by
  intro tail
  simp [readSome]

theorem parses_readNat_bytes (b : List Byte) : Parses (readNat b.length : Reader ε _) b (fromLittleEndian b) :=
  (parses_readSome b).map

theorem parses_readNat {d} (hd : d < 2 ^ (8 * n)) : Parses (readNat n : Reader ε _) (littleEndian n d) d := by
  have h := parses_readNat_bytes (ε := ε) (littleEndian n d)
  rw [length_littleEndian, from_littleEndian, Nat.mod_eq_of_lt hd] at h
  exact h

theorem parses_readFixed (b : List Byte) : Parses (readFixed b.length : Reader ε _) b b := by
  have h := (parses_readSome (ε := ε) b).map (f := fun l : List Byte => l ++ replicate (b.length - l.length) 0)
  rw [Nat.sub_self, replicate_zero, append_nil] at h
  exact h

theorem Parses.of_ok {x : Except ε α} (hx : x = .ok v) : Parses (x : Reader ε α) [] v := by
  subst hx
  exact Parses.pure v

theorem Parses.stillGood {k : Bool → Reader ε β} {w : β} (hk : Parses (k true) b w) : Parses (stillGood >>= k) b w :=
  (show Parses (Lib.stillGood : Reader ε _) [] true from fun _ => rfl).bind hk

theorem readSome_long (h : n ≤ b.length) :
    (readSome n : Reader ε _) ⟨b, .good⟩ = .ok (b.take n, ⟨b.drop n, .good⟩) := by
  simp only [readSome, if_pos h]

theorem readSome_short (h : b.length < n) : (readSome n : Reader ε _) ⟨b, .good⟩ = .ok (b, ⟨[], .fail⟩) := by
  simp only [readSome, if_neg (Nat.not_le.2 h)]

/-- Once a read has failed, `r` fails and returns. -/
def Sticky (r : Reader ε α) : Prop := ∀ s, s.status = .fail → ∃ v s', r s = .ok (v, s') ∧ s'.status = .fail

def Starves (r : Reader ε α) (b : List Byte) : Prop :=
  ∀ p, p <+: b → p ≠ b → ∃ v s', r ⟨p, .good⟩ = .ok (v, s') ∧ s'.status = .fail

theorem Sticky.pure (v : α) : Sticky (Pure.pure v : Reader ε α) := fun s hs => ⟨v, s, rfl, hs⟩

theorem Sticky.bind (hr : Sticky r) (hk : ∀ v, Sticky (k v)) : Sticky (r >>= k) := by
  intro s hs
  obtain ⟨v, s1, h1, hs1⟩ := hr s hs
  obtain ⟨w, s2, h2, hs2⟩ := hk v s1 hs1
  exact ⟨w, s2, (bind_run_ok h1).trans h2, hs2⟩

theorem sticky_readSome (n) : Sticky (readSome n : Reader ε _) := fun s hs =>
  ⟨[], ⟨s.rest, .fail⟩, by simp [readSome, hs], rfl⟩

theorem sticky_readNat (n) : Sticky (readNat n : Reader ε _) := (sticky_readSome n).bind fun _ => Sticky.pure _

theorem sticky_readFixed (n) : Sticky (readFixed n : Reader ε _) := (sticky_readSome n).bind fun _ => Sticky.pure _

theorem Starves.bind {b'} (hr : Parses r b v) (hs : Starves r b) (hc : ∀ v, Sticky (k v))
    (hk : Starves (k v) b') : Starves (r >>= k) (b ++ b') := by
  intro p hp hne
  rcases prefix_or_prefix_of_prefix hp (prefix_append b b') with hb | ⟨t, rfl⟩
  · by_cases he : p = b
    · -- all of `b` and nothing of `b'`
      subst he
      have := hr []
      rw [append_nil] at this
      rw [bind_run_ok this]
      refine hk [] nil_prefix ?_
      rintro rfl
      exact hne (append_nil _).symm
    · obtain ⟨v', s1, h1, hs1⟩ := hs p hb he
      rw [bind_run_ok h1]
      exact hc v' s1 hs1
  · rw [bind_run_ok (hr t)]
    exact hk t ((prefix_append_right_inj b).1 hp) fun e => hne (by rw [e])

theorem starves_readSome (b) : Starves (readSome b.length : Reader ε _) b := by
  intro p hp hne
  have hlt : ¬ b.length ≤ p.length := fun hle => hne (hp.eq_of_length_le hle)
  exact ⟨p, ⟨[], .fail⟩, readSome_short (Nat.lt_of_not_le hlt), rfl⟩

theorem Starves.map {f : α → β} (hs : Starves r b) : Starves (r >>= fun a => Pure.pure (f a)) b := by
  intro p hp hne
  obtain ⟨v, s, h, hf⟩ := hs p hp hne
  exact ⟨f v, s, bind_run_ok h, hf⟩

theorem starves_readNat (b : List Byte) : Starves (readNat b.length : Reader ε _) b :=
  (starves_readSome b).map

theorem starves_readFixed (b : List Byte) : Starves (readFixed b.length : Reader ε _) b :=
  (starves_readSome b).map (f := fun l : List Byte => l ++ replicate (b.length - l.length) 0)

/-! ## What a read has taken -/

/-- Whenever the stream is good after `r`, it was so before, and `r` took a number of bytes that is
related to its result. -/
def Takes (r : Reader ε α) (P : α → Nat → Prop) : Prop :=
  ∀ s v s', r s = .ok (v, s') → s'.status = .good → s.status = .good ∧ ∃ n, P v n ∧ s.rest.length = n + s'.rest.length

theorem Takes.pure (h : P v 0) : Takes (Pure.pure v : Reader ε α) P := by
  intro s w s' hr hg
  cases hr
  exact ⟨hg, 0, h, (zero_add _).symm⟩

theorem Takes.error {e} : Takes (fun _ => .error e : Reader ε α) P := by
  intro s w s' hr
  cases hr

theorem Takes.bind {Q} (hr : Takes r P) (hk : ∀ v, Takes (k v) fun w n => ∀ m, P v m → Q w (m + n)) :
    Takes (r >>= k) Q := by
  intro s w s' hrn hg
  obtain ⟨⟨v, s1⟩, h1, h2⟩ := bind_iff.1 (show (r s >>= fun p => k p.1 p.2) = .ok (w, s') from hrn)
  obtain ⟨hg1, n, hn, hl⟩ := hk v s1 w s' h2 hg
  obtain ⟨hg0, m, hm, hl1⟩ := hr s v s1 h1 hg1
  exact ⟨hg0, m + n, hn m hm, by omega⟩

theorem Takes.mono {Q} (hr : Takes r P) (h : ∀ v n, P v n → Q v n) : Takes r Q := by
  intro s v s' hrn hg
  obtain ⟨hg0, n, hn, hl⟩ := hr s v s' hrn hg
  exact ⟨hg0, n, h v n hn, hl⟩

end Lib
