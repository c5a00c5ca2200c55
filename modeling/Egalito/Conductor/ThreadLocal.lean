/-
Thread-local storage on x86-64 (`conductor/conductor.cpp`, `transform/data.cpp`): `allocateTLSArea` and
`loadTLSDataFor`.

Two loops place the modules, one for the main thread and one for every other. `allocateTLSArea_laidOut_iff` says when
they agree, so that each thread has its images at the recorded offsets, apart and below its thread pointer.
-/
import Egalito.Lib.Spans
import Egalito.Transform.Sandbox

namespace Egalito.ThreadLocal

open Lib List

structure TLSDataRegion where
  size : BitVec 64
  dataBytes : List Byte

structure Module where
  id : Nat
  /-- `getDataRegionList()->getTLS()`. -/
  tls : Option TLSDataRegion

/-- The modules of a program, and which of them is the executable (`getMain()`), if there is one. -/
structure Program where
  modules : List Module
  main : Option Nat
  nodup : (modules.map Module.id).Nodup
  main_mem : ∀ id, main = some id → id ∈ modules.map Module.id

def Program.executable (p : Program) : Option Module := p.modules.find? fun m => p.main = some m.id

def Module.tlsSize (m : Module) : BitVec 64 :=
  match m.tls with
  | none => 0
  | some r => r.size

/-! ## Allocation -/

structure Conductor where
  mainThreadPointer : Address
  tlsOffsetFromTCB : Address
  baseAddress : Nat → Address
  tlsOffset : Nat → Address

/-- `mmap` with an address hint, and the size of glibc's thread descriptor. -/
structure Environment where
  mmap : Address → BitVec 64 → Option Address
  sizeofPthread : BitVec 64

/-- The ten words of `EgalitoTLS`. -/
def sizeofEgalitoTLS : BitVec 64 := 80

/-- `ROUND_UP_BY`, for a power of two. -/
def roundUpBy (x y : BitVec 64) : BitVec 64 := (x + y - 1) &&& ~~~(y - 1)

/-- `DataLoader::allocateTLS`; both exceptions end the run. -/
def allocateTLS (env : Environment) (base : Address) (size : BitVec 64) : Except Failure Address :=
  let size := roundUpBy size 64
  let tp := base + size
  let size := size + env.sizeofPthread
  if 0 < size then
    match env.mmap base (roundUpBy size 0x1000) with
    | none => .error .assertion
    | some mem => if mem ≠ base then .error .assertion else .ok tp
  else .ok tp

/-- `setBaseAddress` and `setTLSOffset` at the current offset, which moves behind the region. -/
def assign (base : Address) (s : Conductor × Address) (m : Module) : Conductor × Address :=
  match m.tls with
  | none => s
  | some r =>
    ({ s.1 with
        baseAddress := Function.update s.1.baseAddress m.id (base + s.2)
        tlsOffset := Function.update s.1.tlsOffset m.id (base + s.2 - s.1.mainThreadPointer) }, s.2 + r.size)

/-- One area for all modules, in which each gets its offset. -/
def allocateTLSArea (env : Environment) (base : Address) (p : Program) (c : Conductor) : Except Failure Conductor :=
  let size := p.modules.foldl (fun size m => size + m.tlsSize) sizeofEgalitoTLS
  if size = 0 then .ok c else do
    let tp ← allocateTLS env base size
    let c := { c with mainThreadPointer := tp, tlsOffsetFromTCB := base - tp }
    let s := p.modules.foldl (fun s m => if p.main = some m.id then s else assign base s m) (c, 0)
    .ok (match p.executable with
      | none => s.1
      | some e => (assign base s e).1)

def Memory := Address → Byte

def memcpy (mem : Memory) (target : Address) (source : List Byte) : Memory :=
  fun x => (source[(x - target).toNat]?).getD (mem x)

def memzero (mem : Memory) (target : Address) (n : Nat) : Memory := fun x => if (x - target).toNat < n then 0 else mem x

/-- `DataLoader::loadRegionTo`. With more bytes than its size, the number of zeros wraps around. -/
def loadRegionTo (mem : Memory) (address : Address) (r : TLSDataRegion) : Except Failure (Memory × Address) :=
  if r.size.toNat < r.dataBytes.length then .error .assertion
  else .ok (memzero (memcpy mem address r.dataBytes) (address + BitVec.ofNat 64 r.dataBytes.length)
    (r.size.toNat - r.dataBytes.length), address + r.size)

/-- The loop of `loadTLSDataFor`, with the address of each module's image. -/
def loadFrom : List Module → Address → Memory → Except Failure (Memory × List (Module × Address))
  | [], _, mem => .ok (mem, [])
  | m :: l, address, mem =>
    match m.tls with
    | none => loadFrom l address mem
    | some r => do
      let (mem, next) ← loadRegionTo mem address r
      let (mem, placed) ← loadFrom l next mem
      .ok (mem, (m, address) :: placed)

def loadTLSDataFor (c : Conductor) (p : Program) (tcb : Address) (mem : Memory) :
    Except Failure (Memory × List (Module × Address)) :=
  loadFrom p.modules (tcb + c.tlsOffsetFromTCB) mem

/-- The initialised bytes of the region and zeros up to its size, from `a` on. -/
def Holds (mem : Memory) (a : Address) (r : TLSDataRegion) : Prop :=
  ∀ i < r.size.toNat, mem (a + BitVec.ofNat 64 i) = r.dataBytes[i]?.getD 0

def Conductor.start (c : Conductor) (m : Module) : Nat := (c.baseAddress m.id).toNat

def Module.length (m : Module) : Nat := m.tlsSize.toNat

def Program.tlsModules (p : Program) : List Module := p.modules.filter fun m => m.tls.isSome

/-- The blocks lie apart from each other below the main thread's `EgalitoTLS`, and every other thread has the images at
    the offsets that were recorded. -/
structure LaidOut (c : Conductor) (p : Program) : Prop where
  disjoint : p.tlsModules.Pairwise (Apart c.start Module.length)
  below : ∀ m ∈ p.tlsModules, c.start m + m.length ≤ (c.mainThreadPointer - sizeofEgalitoTLS).toNat
  same : ∀ tcb mem, ∃ mem' placed, loadTLSDataFor c p tcb mem = .ok (mem', placed) ∧
    placed.map Prod.fst = p.tlsModules ∧
    ∀ m a r, (m, a) ∈ placed → m.tls = some r → a = tcb + c.tlsOffset m.id ∧ Holds mem' a r

/-! ## What is assigned -/

variable {base : Address} {c c' : Conductor} {p : Program} {l : List Module} {m e : Module} {r : TLSDataRegion}

theorem length_of_tls (h : m.tls = some r) : m.length = r.size.toNat := by
  rw [Module.length, Module.tlsSize, h]

theorem length_of_none (h : m.tls = none) : m.length = 0 := by
  rw [Module.length, Module.tlsSize, h]
  rfl

theorem totalLength_filter : ∀ l,
    totalLength Module.length (l.filter fun m => m.tls.isSome) = totalLength Module.length l
  | [] => rfl
  | m :: l => by
    cases h : m.tls with
    | none => simp [h, totalLength_filter l, length_of_none h]
    | some r => simp [h, totalLength_filter l]

/-- The assignments to other modules, and the thread pointer, stay. -/
structure Kept (c c' : Conductor) (ids : List Nat) : Prop where
  mainThreadPointer : c'.mainThreadPointer = c.mainThreadPointer
  tlsOffsetFromTCB : c'.tlsOffsetFromTCB = c.tlsOffsetFromTCB
  baseAddress : ∀ id ∉ ids, c'.baseAddress id = c.baseAddress id
  tlsOffset : ∀ id ∉ ids, c'.tlsOffset id = c.tlsOffset id

theorem Kept.refl (c ids) : Kept c c ids := ⟨rfl, rfl, fun _ _ => rfl, fun _ _ => rfl⟩

theorem kept_assign (h : m.tls = some r) (o) : Kept c (assign base (c, o) m).1 [m.id] := by
  rw [assign, h]
  constructor
  · rfl
  · rfl
  · intro id hi
    exact Function.update_of_ne (by simpa using hi) _ _
  · intro id hi
    exact Function.update_of_ne (by simpa using hi) _ _

theorem Kept.cons {ids id c''} (h1 : Kept c c' [id]) (h2 : Kept c' c'' ids) : Kept c c'' (id :: ids) where
  mainThreadPointer := h2.mainThreadPointer.trans h1.mainThreadPointer
  tlsOffsetFromTCB := h2.tlsOffsetFromTCB.trans h1.tlsOffsetFromTCB
  baseAddress x hx := by
    rw [mem_cons, not_or] at hx
    rw [h2.baseAddress x hx.2, h1.baseAddress x (by simpa using hx.1)]
  tlsOffset x hx := by
    rw [mem_cons, not_or] at hx
    rw [h2.tlsOffset x hx.2, h1.tlsOffset x (by simpa using hx.1)]

/-- The loop of the assignments lays the blocks out one after the other. -/
structure Assigned (base : Address) (o : Nat) (c c' : Conductor) (l : List Module) : Prop where
  tiles : Tiles c'.start Module.length (base.toNat + o) (l.filter fun m => m.tls.isSome)
  offset : ∀ m ∈ l, m.tls.isSome → c'.tlsOffset m.id = c'.baseAddress m.id - c.mainThreadPointer
  kept : Kept c c' (l.map Module.id)

theorem assigned_foldl (base) : ∀ l c o, (l.map Module.id).Nodup →
    base.toNat + o.toNat + totalLength Module.length l < 2 ^ 64 →
      Assigned base o.toNat c (l.foldl (assign base) (c, o)).1 l
  | [], c, o, _, _ => ⟨trivial, fun _ h => by simp at h, .refl c _⟩
  | m :: l, c, o, hnd, hf => by
    rw [map_cons, nodup_cons] at hnd
    rw [totalLength_cons] at hf
    rw [foldl_cons]
    cases hts : m.tls with
    | none =>
      have hl := length_of_none hts
      have hp : assign base (c, o) m = (c, o) := by rw [assign, hts]
      obtain ⟨ht, ho, hk⟩ := assigned_foldl base l c o hnd.2 (by omega)
      rw [hp]
      constructor
      · simpa [hts] using ht
      · intro m' hm' hs
        rcases mem_cons.1 hm' with rfl | hm'
        · simp [hts] at hs
        · exact ho m' hm' hs
      · exact Kept.cons (.refl c _) hk
    | some r =>
      have hl := length_of_tls hts
      have hn : (o + r.size).toNat = o.toNat + r.size.toNat := by
        rw [BitVec.toNat_add, Nat.mod_eq_of_lt (by omega)]
      have hp : assign base (c, o) m = ((assign base (c, o) m).1, o + r.size) := by rw [assign, hts]
      have ha : Kept c (assign base (c, o) m).1 [m.id] := kept_assign hts o
      obtain ⟨ht, ho, hk⟩ := assigned_foldl base l (assign base (c, o) m).1 (o + r.size) hnd.2
        (by rw [hn]; omega)
      rw [hp]
      generalize hfn : (l.foldl (assign base) ((assign base (c, o) m).1, o + r.size)).1 = c'' at *
      -- later modules have other identities
      have hb : c''.baseAddress m.id = base + o := by
        rw [hk.baseAddress m.id hnd.1, assign, hts]
        exact Function.update_self ..
      constructor
      · rw [filter_cons_of_pos (by simp [hts])]
        constructor
        · rw [Conductor.start, hb, BitVec.toNat_add, Nat.mod_eq_of_lt (by omega)]
        · rw [hl, add_assoc, ← hn]
          exact ht
      · intro m' hm' hs
        rcases mem_cons.1 hm' with rfl | hm'
        · rw [hb, hk.tlsOffset m'.id hnd.1, assign, hts]
          exact Function.update_self ..
        · rw [ho m' hm' hs, ha.mainThreadPointer]
      · exact ha.cons hk

/-- The modules in the order in which they are assigned, the executable last. -/
inductive Order (p : Program) : List Module → Prop
  | listed (h : p.main = none) : Order p p.modules
  | moved {before after : List Module} {e : Module} (hmodules : p.modules = before ++ e :: after)
      (hmain : p.main = some e.id) : Order p (before ++ after ++ [e])

theorem exists_order (p) : ∃ l, Order p l := by
  cases hm : p.main with
  | none => exact ⟨_, .listed hm⟩
  | some id =>
    obtain ⟨e, he, rfl⟩ := mem_map.1 (p.main_mem id hm)
    obtain ⟨before, after, hd⟩ := append_of_mem he
    exact ⟨_, .moved hd hm⟩

theorem Order.perm (h : Order p l) : l.Perm p.modules := by
  cases h with
  | listed => exact .refl _
  | moved hm _ =>
    rw [hm, append_assoc]
    exact (perm_append_singleton _ _).append_left _

theorem foldl_skip {id} (base) : ∀ (l : List Module) (s : Conductor × Address), id ∉ l.map Module.id →
    l.foldl (fun s m => if some id = some m.id then s else assign base s m) s = l.foldl (assign base) s
  | [], _, _ => rfl
  | m :: l, s, h => by
    rw [map_cons, mem_cons, not_or] at h
    rw [foldl_cons, foldl_cons, if_neg (by simpa using h.1), foldl_skip base l _ h.2]

/-- The two parts of the assignment are one loop in that order. -/
theorem assign_order (base) (h : Order p l) (s) : (match p.executable with
      | none => (p.modules.foldl (fun s m => if p.main = some m.id then s else assign base s m) s).1
      | some e => (assign base (p.modules.foldl (fun s m => if p.main = some m.id then s else assign base s m) s) e).1) =
      (l.foldl (assign base) s).1 := by
  cases h with
  | listed hn =>
    have hnn : p.executable = none := by simp [Program.executable, hn]
    rw [hnn]
    simp [hn]
  | moved hmd hn =>
    rename_i before after e
    have hnd := p.nodup
    rw [hmd, map_append, map_cons, nodup_append] at hnd
    obtain ⟨-, ha, hd⟩ := hnd
    have hb : e.id ∉ before.map Module.id := fun hmm => hd _ hmm _ mem_cons_self rfl
    have ha := (nodup_cons.1 ha).1
    have hf : p.executable = some e := by
      rw [Program.executable, hmd, find?_append]
      have hnn : before.find? (fun m => p.main = some m.id) = none := by
        rw [find?_eq_none]
        intro m hm
        rw [hn]
        simpa using fun heq => hb (mem_map.2 ⟨m, hm, heq.symm⟩)
      rw [hnn, find?_cons_of_pos (by simp [hn])]
      rfl
    rw [hf, hmd, hn]
    simp only [foldl_append, foldl_cons, foldl_nil]
    rw [foldl_skip base before s hb, if_pos trivial, foldl_skip base after _ ha]

theorem foldl_size : ∀ l (size : BitVec 64), size.toNat + totalLength Module.length l < 2 ^ 64 →
    (l.foldl (fun size m => size + m.tlsSize) size).toNat = size.toNat + totalLength Module.length l
  | [], _, _ => rfl
  | m :: l, size, h => by
    rw [totalLength_cons] at h
    have hm : (size + m.tlsSize).toNat = size.toNat + m.length := by
      rw [BitVec.toNat_add]
      exact Nat.mod_eq_of_lt (by rw [Module.length] at h; omega)
    rw [foldl_cons, foldl_size l _ (by omega), hm, totalLength_cons]
    omega

theorem toNat_roundUpBy_64 (x) (h : x.toNat + 63 < 2 ^ 64) : (roundUpBy x 64).toNat = (x.toNat + 63) / 64 * 64 := by
  have hs : (x + 64 - 1).toNat = x.toNat + 63 := by
    rw [BitVec.toNat_sub, BitVec.toNat_add, show (64 : BitVec 64).toNat = 64 from rfl,
      show (1 : BitVec 64).toNat = 1 from rfl]
    omega
  have hm : (x.toNat + 63) &&& (64 - 1 : BitVec 64).toNat = (x.toNat + 63) % 64 :=
    Nat.and_two_pow_sub_one_eq_mod _ 6
  rw [roundUpBy, Transform.toNat_and_not, hs, hm]
  omega

variable {env : Environment} {before after : List Module}

theorem allocateTLS_eq {size tp} (h : allocateTLS env base size = .ok tp) : tp = base + roundUpBy size 64 := by
  unfold allocateTLS at h
  dsimp only at h
  split at h
  · split at h
    · cases h
    · split at h
      · cases h
      · exact (Except.ok.inj h).symm
  · exact (Except.ok.inj h).symm

theorem allocateTLSArea_eq (hf : base.toNat + totalLength Module.length p.modules + 143 < 2 ^ 64)
    (hr : allocateTLSArea env base p c = .ok c') (ho : Order p l) :
    ∃ c0 : Conductor, c0.tlsOffsetFromTCB = base - c0.mainThreadPointer ∧
      base.toNat + totalLength Module.length p.modules + 80 ≤ c0.mainThreadPointer.toNat ∧ Assigned base 0 c0 c' l := by
  have hs := foldl_size p.modules sizeofEgalitoTLS (by rw [show sizeofEgalitoTLS.toNat = 80 from rfl]; omega)
  rw [show sizeofEgalitoTLS.toNat = 80 from rfl] at hs
  unfold allocateTLSArea at hr
  generalize p.modules.foldl (fun size m => size + m.tlsSize) sizeofEgalitoTLS = size at hs hr
  have hp : size ≠ 0 := by
    rintro rfl
    rw [show (0 : BitVec 64).toNat = 0 from rfl] at hs
    omega
  rw [if_neg hp, bind_iff] at hr
  obtain ⟨tp, ht, hr⟩ := hr
  have hd := toNat_roundUpBy_64 size (by omega)
  have htt : totalLength Module.length l = totalLength Module.length p.modules := totalLength_perm ho.perm
  have hnd := (ho.perm.map Module.id).nodup_iff.2 p.nodup
  have ha := assigned_foldl base l { c with mainThreadPointer := tp, tlsOffsetFromTCB := base - tp } 0 hnd
    (by rw [htt, show (0 : Address).toNat = 0 from rfl]; omega)
  rw [← assign_order base ho, Except.ok.inj hr] at ha
  refine ⟨_, rfl, ?_, ha⟩
  rw [allocateTLS_eq ht, BitVec.toNat_add, hd, hs]
  omega

/-! ## What is loaded -/

theorem toNat_distance (a) {i} (h : i < 2 ^ 64) : (a + BitVec.ofNat 64 i - a).toNat = i := by
  rw [add_sub_cancel_left, BitVec.toNat_ofNat, Nat.mod_eq_of_lt h]

theorem loadRegionTo_ok (mem) (a) (h : r.dataBytes.length ≤ r.size.toNat) :
    ∃ mem', loadRegionTo mem a r = .ok (mem', a + r.size) ∧ Holds mem' a r ∧
      ∀ x, r.size.toNat ≤ (x - a).toNat → mem' x = mem x := by
  have hs := r.size.isLt
  -- how far `x` is behind the initialised bytes
  have hb : ∀ x : Address, (x - (a + BitVec.ofNat 64 r.dataBytes.length)).toNat =
      ((x - a).toNat + (2 ^ 64 - r.dataBytes.length)) % 2 ^ 64 := by
    intro x
    rw [show x - (a + BitVec.ofNat 64 r.dataBytes.length) = x - a - BitVec.ofNat 64 r.dataBytes.length by
      rw [sub_add_eq_sub_sub], BitVec.toNat_sub, BitVec.toNat_ofNat]
    omega
  refine ⟨_, if_neg (Nat.not_lt.2 h), ?_, ?_⟩
  · intro i hi
    have hd : (a + BitVec.ofNat 64 i - a).toNat = i := toNat_distance a (by omega)
    rw [memzero, hb, hd, memcpy, hd]
    by_cases hlt : i < r.dataBytes.length
    · rw [if_neg (by omega), getElem?_eq_getElem hlt]
      rfl
    · rw [if_pos (by omega), getElem?_eq_none (by omega)]
      rfl
  · intro x hx
    have hlt := (x - a).isLt
    rw [memzero, hb, if_neg (by omega), memcpy, getElem?_eq_none (by omega)]
    rfl

/-- The images of the list, each behind those in front of it, and nothing else is written. -/
structure Loaded (mem mem' : Memory) (a : Address) (l : List Module) (placed : List (Module × Address)) : Prop where
  modules : placed.map Prod.fst = l.filter fun m => m.tls.isSome
  address : ∀ m x, (m, x) ∈ placed → ∃ before after, l = before ++ m :: after ∧
    x = a + BitVec.ofNat 64 (totalLength Module.length before)
  holds : ∀ m x r, (m, x) ∈ placed → m.tls = some r → Holds mem' x r
  frame : ∀ x, totalLength Module.length l ≤ (x - a).toNat → mem' x = mem x

/-- The initialised bytes are not more than the size of the region. -/
def Module.ImageFits (m : Module) : Prop := ∀ r, m.tls = some r → r.dataBytes.length ≤ r.size.toNat

theorem loadFrom_ok : ∀ l a mem, (∀ m ∈ l, m.ImageFits) → totalLength Module.length l < 2 ^ 64 →
      ∃ mem' placed, loadFrom l a mem = .ok (mem', placed) ∧ Loaded mem mem' a l placed
  | [], a, mem, _, _ =>
    ⟨mem, [], rfl, rfl, fun _ _ h => by simp at h, fun _ _ _ h => by simp at h, fun _ _ => rfl⟩
  | m :: l, a, mem, hft, hlt => by
    rw [totalLength_cons] at hlt
    have hf' : ∀ m' ∈ l, m'.ImageFits := fun m' hm' => hft m' (mem_cons_of_mem m hm')
    cases ht : m.tls with
    | none =>
      have hl := length_of_none ht
      obtain ⟨mem', placed, hn, hm, ha, hh, hf⟩ := loadFrom_ok l a mem hf' (by omega)
      refine ⟨mem', placed, by rw [loadFrom, ht]; exact hn, ?_, ?_, hh, ?_⟩
      · simpa [ht] using hm
      · intro m' x hx
        obtain ⟨before, after, rfl, rfl⟩ := ha m' x hx
        exact ⟨m :: before, after, rfl, by rw [totalLength_cons, hl, zero_add]⟩
      · intro x hx
        exact hf x (by rw [totalLength_cons, hl, zero_add] at hx; exact hx)
    | some r =>
      have hl := length_of_tls ht
      obtain ⟨mem1, hg, hhd, hs⟩ := loadRegionTo_ok mem a (hft m mem_cons_self r ht)
      obtain ⟨mem', placed, hn, hm, ha, hh, hf⟩ :=
        loadFrom_ok l (a + r.size) mem1 hf' (by omega)
      -- what the later images leave alone, seen from the first address
      have hd : ∀ x : Address, r.size.toNat ≤ (x - a).toNat →
          (x - (a + r.size)).toNat = (x - a).toNat - r.size.toNat := by
        intro x hx
        have hx' := (x - a).isLt
        rw [sub_add_eq_sub_sub, BitVec.toNat_sub]
        omega
      have hd' : ∀ x : Address, (x - a).toNat < r.size.toNat →
          (x - (a + r.size)).toNat = (x - a).toNat + (2 ^ 64 - r.size.toNat) := by
        intro x hx
        have hr := r.size.isLt
        rw [sub_add_eq_sub_sub, BitVec.toNat_sub]
        omega
      refine ⟨mem', (m, a) :: placed, ?_, ?_, ?_, ?_, ?_⟩
      · rw [loadFrom, ht]
        dsimp only
        rw [ok_bind hg]
        rw [ok_bind hn]
      · rw [map_cons, hm, filter_cons_of_pos (by simp [ht])]
      · intro m' x hx
        rcases mem_cons.1 hx with heq | hx
        · obtain ⟨rfl, rfl⟩ := Prod.mk.inj heq
          exact ⟨[], l, rfl, by simp⟩
        · obtain ⟨before, after, rfl, rfl⟩ := ha m' x hx
          refine ⟨m :: before, after, rfl, ?_⟩
          rw [totalLength_cons, hl, BitVec.ofNat_add, BitVec.ofNat_toNat, BitVec.setWidth_eq, add_assoc]
      · intro m' x r' hx hr'
        rcases mem_cons.1 hx with heq | hx
        · obtain ⟨rfl, rfl⟩ := Prod.mk.inj heq
          obtain rfl := Option.some.inj (ht.symm.trans hr')
          intro i hi
          have hi' := toNat_distance x (hi.trans r.size.isLt)
          rw [hf _ (by rw [hd' _ (by omega)]; omega), hhd i hi]
        · exact hh m' x r' hx hr'
      · intro x hx
        rw [totalLength_cons, hl] at hx
        rw [hf x (by rw [hd x (by omega)]; omega), hs x (by omega)]

theorem loadFrom_fits : ∀ l a mem {out}, loadFrom l a mem = .ok out → ∀ m ∈ l, m.ImageFits
  | m :: l, a, mem, out, hr, m', hm', r', hr' => by
    cases hs : m.tls with
    | none =>
      rw [loadFrom, hs] at hr
      rcases mem_cons.1 hm' with rfl | hm'
      · rw [hs] at hr'
        cases hr'
      · exact loadFrom_fits l a mem hr m' hm' r' hr'
    | some r =>
      rw [loadFrom, hs, bind_iff] at hr
      obtain ⟨⟨mem1, next⟩, hg, hr⟩ := hr
      obtain ⟨out', ht, -⟩ := bind_iff.1 hr
      rcases mem_cons.1 hm' with rfl | hm'
      · obtain rfl := Option.some.inj (hs.symm.trans hr')
        by_contra hlong
        rw [loadRegionTo, if_pos (Nat.lt_of_not_le hlong)] at hg
        cases hg
      · exact loadFrom_fits l next mem1 ht m' hm' r' hr'

/-! ## The two orders -/

/-- No module behind an executable with TLS has any, unless neither takes room. -/
def MainLast (p : Program) : Prop :=
  ∀ before e after r, p.modules = before ++ e :: after → p.main = some e.id → e.tls = some r →
    ∀ m ∈ after, m.tls.isSome → m.length = 0 ∧ r.size = 0

theorem before_unique {before' after'} (hnd : (l.map Module.id).Nodup) (h : l = before ++ m :: after)
    (h' : l = before' ++ m :: after') : before = before' ∧ after = after' := by
  have hl := h ▸ hnd.of_map Module.id
  have hbf : m ∉ before := fun hm => (nodup_append.1 hl).2.2 m hm m mem_cons_self rfl
  have hf := (nodup_cons.1 (nodup_append.1 hl).2.1).1
  obtain ⟨hb, -, ha⟩ := (append_cons_inj_of_notMem hbf hf).1 (h.symm.trans h')
  exact ⟨hb, ha⟩

theorem totalLength_eq_zero (h : ∀ m ∈ l, m.tls.isSome → m.length = 0) : totalLength Module.length l = 0 := by
  refine sum_eq_zero fun n hn => ?_
  obtain ⟨m, hm, rfl⟩ := mem_map.1 hn
  cases ht : m.tls with
  | none => exact length_of_none ht
  | some r => exact h m hm (by rw [ht]; rfl)

/-- That is when every module with TLS has as much in front of it in the list as in the order of the assignments. -/
theorem mainLast_iff (ho : Order p l) : MainLast p ↔ ∀ before m after before' after',
    p.modules = before ++ m :: after → l = before' ++ m :: after' → m.tls.isSome →
      totalLength Module.length before = totalLength Module.length before' := by
  have hnd := p.nodup
  have hn' := (ho.perm.map Module.id).nodup_iff.2 p.nodup
  cases ho with
  | listed hn =>
    constructor
    · intro _ before m after before' after' h h' _
      rw [(before_unique hnd h h').1]
    · intro _ before e after r _ he
      rw [hn] at he
      cases he
  | moved hd hn =>
    rename_i B A e
    constructor
    · intro hlt before m after before' after' h h' hs
      have hlt := hlt B e A
      have hm : m ∈ B ++ e :: A := by rw [← hd, h]; simp
      rcases mem_append.1 hm with hm | hm
      · -- in front of the executable nothing changes
        obtain ⟨B1, B2, rfl⟩ := append_of_mem hm
        have hl : p.modules = B1 ++ m :: (B2 ++ e :: A) := by simp [hd]
        have ha : B1 ++ m :: B2 ++ A ++ [e] = B1 ++ m :: (B2 ++ A ++ [e]) := by simp
        rw [← (before_unique hnd hl h).1, ← (before_unique hn' ha h').1]
      · rcases mem_cons.1 hm with rfl | hm
        · obtain ⟨r, hr⟩ := Option.isSome_iff_exists.1 hs
          rw [← (before_unique hnd hd h).1, ← (before_unique hn' rfl h').1, totalLength_append,
            totalLength_eq_zero fun m' hm' hs' => (hlt r hd hn hr m' hm' hs').1, add_zero]
        · obtain ⟨A1, A2, rfl⟩ := append_of_mem hm
          have hz : e.length = 0 := by
            cases ht : e.tls with
            | none => exact length_of_none ht
            | some r => rw [length_of_tls ht, (hlt r hd hn ht m hm hs).2]; rfl
          have hl : p.modules = (B ++ e :: A1) ++ m :: A2 := by simp [hd]
          have ha : B ++ (A1 ++ m :: A2) ++ [e] = (B ++ A1) ++ m :: (A2 ++ [e]) := by simp
          rw [← (before_unique hnd hl h).1, ← (before_unique hn' ha h').1]
          simp [hz]
    · intro h before e' after r hd' hmn' ht m hm hs
      have he : e' = e := by
        refine inj_on_of_nodup_map hnd (by simp [hd']) (by simp [hd]) ?_
        exact Option.some.inj (hmn'.symm.trans hn)
      subst he
      obtain ⟨rfl, rfl⟩ := before_unique hnd hd' hd
      have hf := h before e' after (before ++ after) [] hd rfl (by rw [ht]; rfl)
      obtain ⟨A1, A2, rfl⟩ := append_of_mem hm
      have hb := h (before ++ e' :: A1) m A2 (before ++ A1) (A2 ++ [e']) (by simp [hd]) (by simp) hs
      simp only [totalLength_append, totalLength_cons, length_of_tls ht] at hf hb
      constructor
      · omega
      · exact BitVec.eq_of_toNat_eq (by rw [show (0 : BitVec 64).toNat = 0 from rfl]; omega)

/-! ## The layout for every thread -/

theorem Assigned.tlsOffset_eq (h : Assigned base 0 c c' (before ++ m :: after)) (hs : m.tls.isSome) :
    c'.tlsOffset m.id = base + BitVec.ofNat 64 (totalLength Module.length before) - c.mainThreadPointer := by
  have ht := h.tiles
  rw [filter_append, filter_cons_of_pos (by simpa using hs)] at ht
  have hp := ht.place_eq
  rw [totalLength_filter, add_zero] at hp
  have hb : c'.baseAddress m.id = base + BitVec.ofNat 64 (totalLength Module.length before) := by
    apply BitVec.eq_of_toNat_eq
    have hlt := (c'.baseAddress m.id).isLt
    rw [Conductor.start] at hp
    rw [hp] at hlt ⊢
    rw [BitVec.toNat_add, BitVec.toNat_ofNat, Nat.mod_eq_of_lt (by omega), Nat.mod_eq_of_lt (by omega)]
  rw [h.offset m (by simp) hs, hb]

/-- `loadTLSDataFor` finds the recorded address when as much lies in front of the module in both orders. -/
theorem address_eq_iff (tcb tp) {n n'} (hn : n < 2 ^ 64) (hn' : n' < 2 ^ 64) :
    tcb + (base - tp) + BitVec.ofNat 64 n = tcb + (base + BitVec.ofNat 64 n' - tp) ↔ n = n' := by
  have hs : tcb + (base + BitVec.ofNat 64 n' - tp) = tcb + (base - tp) + BitVec.ofNat 64 n' := by ring
  rw [hs, add_right_inj]
  constructor
  · intro h
    have ht := congrArg BitVec.toNat h
    rwa [BitVec.toNat_ofNat, BitVec.toNat_ofNat, Nat.mod_eq_of_lt hn, Nat.mod_eq_of_lt hn'] at ht
  · rintro rfl
    rfl

theorem totalLength_before_le (h : l = before ++ m :: after) :
    totalLength Module.length before ≤ totalLength Module.length l := by
  rw [h, totalLength_append]
  omega

/-- Wherever the executable stands in the list, the blocks are apart and below the header. -/
theorem allocateTLSArea_below (hf : base.toNat + totalLength Module.length p.modules + 143 < 2 ^ 64)
    (hr : allocateTLSArea env base p c = .ok c') : p.tlsModules.Pairwise (Apart c'.start Module.length) ∧
      ∀ m ∈ p.tlsModules, c'.start m + m.length ≤ (c'.mainThreadPointer - sizeofEgalitoTLS).toNat := by
  obtain ⟨l, ho⟩ := exists_order p
  obtain ⟨c0, -, hp, ha⟩ := allocateTLSArea_eq hf hr ho
  have ht : totalLength Module.length l = totalLength Module.length p.modules := totalLength_perm ho.perm
  have hs : (l.filter fun m => m.tls.isSome).Perm p.tlsModules := ho.perm.filter _
  constructor
  · refine (List.Perm.pairwise_iff ?_ hs).1 (ha.tiles.pairwise.imp fun h => .inl h)
    exact fun h => h.symm
  · intro m hm
    have he := ha.tiles.end_le (hs.mem_iff.2 hm)
    rw [totalLength_filter, ht] at he
    rw [ha.kept.mainThreadPointer, BitVec.toNat_sub, show sizeofEgalitoTLS.toNat = 80 from rfl]
    omega

/-- Every thread has its images at the recorded offsets, below the thread pointer and apart from each other, exactly if
    no module with TLS is listed behind an executable with TLS and no region is smaller than its bytes. -/
theorem allocateTLSArea_laidOut_iff {env : Environment} {base : Address} {p : Program} {c c' : Conductor}
    (hfits : base.toNat + totalLength Module.length p.modules + 143 < 2 ^ 64)
    (hrun : allocateTLSArea env base p c = .ok c') : LaidOut c' p ↔ MainLast p ∧ ∀ m ∈ p.modules, m.ImageFits := by
  obtain ⟨l, hod⟩ := exists_order p
  obtain ⟨c₀, htb, htp, hag⟩ := allocateTLSArea_eq hfits hrun hod
  have htt : totalLength Module.length l = totalLength Module.length p.modules := totalLength_perm hod.perm
  have hos : c'.tlsOffsetFromTCB = base - c₀.mainThreadPointer := hag.kept.tlsOffsetFromTCB.trans htb
  -- where the two loops put a module
  have har : ∀ (tcb : Address) {before m after before' after'}, p.modules = before ++ m :: after →
      l = before' ++ m :: after' → m.tls.isSome →
        (tcb + c'.tlsOffsetFromTCB + BitVec.ofNat 64 (totalLength Module.length before) = tcb + c'.tlsOffset m.id ↔
          totalLength Module.length before = totalLength Module.length before') := by
    intro tcb before m after before' after' h h' hsm
    have hle := totalLength_before_le h
    have hle' := totalLength_before_le h'
    subst h'
    rw [hag.tlsOffset_eq hsm, hos]
    exact address_eq_iff tcb _ (by omega) (by omega)
  constructor
  · intro hli
    obtain ⟨mem', placed, hla, hpc, hat⟩ := hli.same 0 fun _ => 0
    have hfit : ∀ m ∈ p.modules, m.ImageFits := loadFrom_fits _ _ _ hla
    refine ⟨(mainLast_iff hod).mpr ?_, hfit⟩
    intro before m after before' after' h h' hsm
    obtain ⟨mem'', placed', hld', hld⟩ :=
      loadFrom_ok p.modules (0 + c'.tlsOffsetFromTCB) (fun _ => 0) hfit (by omega)
    obtain ⟨-, rfl⟩ := Prod.mk.inj (Except.ok.inj (hld'.symm.trans hla))
    have hm : m ∈ placed'.map Prod.fst := by
      rw [hpc]
      exact mem_filter.mpr ⟨by simp [h], hsm⟩
    obtain ⟨⟨m', x⟩, hx, rfl⟩ := mem_map.mp hm
    obtain ⟨r, hr⟩ := Option.isSome_iff_exists.mp hsm
    obtain ⟨before₁, after₁, h₁, rfl⟩ := hld.address m' x hx
    obtain ⟨rfl, rfl⟩ := before_unique p.nodup h h₁
    exact (har 0 h h' hsm).mp (hat m' _ r hx hr).1
  · rintro ⟨hlt, hfit⟩
    have hlt := (mainLast_iff hod).mp hlt
    constructor
    · exact (allocateTLSArea_below hfits hrun).1
    · exact (allocateTLSArea_below hfits hrun).2
    · intro tcb mem
      obtain ⟨mem', placed, hla, hld⟩ := loadFrom_ok p.modules (tcb + c'.tlsOffsetFromTCB) mem hfit (by omega)
      refine ⟨mem', placed, hla, hld.modules, ?_⟩
      intro m a r hm hr
      obtain ⟨before, after, h, rfl⟩ := hld.address m a hm
      have hmem : m ∈ l := hod.perm.mem_iff.mpr (by simp [h])
      obtain ⟨before', after', h'⟩ := append_of_mem hmem
      have hsm : m.tls.isSome := by rw [hr]; rfl
      exact ⟨(har tcb h h' hsm).mpr (hlt _ _ _ _ _ h h' hsm), hld.holds m _ r hm hr⟩

def mapsAnywhere : Environment := ⟨fun a _ => some a, 0x900⟩

def unassigned : Conductor := ⟨0, 0, fun _ => 0, fun _ => 0⟩

/-- A library with sixteen bytes of TLS in front of an executable with eight. -/
def libraryFirst : Program where
  modules := [⟨1, some ⟨16, []⟩⟩, ⟨0, some ⟨8, [1, 2]⟩⟩]
  main := some 0
  nodup := by decide
  main_mem := by decide

theorem libraryFirst_mainLast : MainLast libraryFirst := by
  rintro before e after r hd hn - m hm -
  have hl : libraryFirst.modules = [⟨1, some ⟨16, []⟩⟩] ++ ⟨0, some ⟨8, [1, 2]⟩⟩ :: [] := rfl
  have he : e = ⟨0, some ⟨8, [1, 2]⟩⟩ := by
    refine inj_on_of_nodup_map libraryFirst.nodup (by simp [hd]) (by simp [hl]) ?_
    exact (Option.some.inj hn).symm
  subst he
  obtain ⟨-, rfl⟩ := before_unique libraryFirst.nodup hd hl
  cases hm

theorem allocateTLSArea_laidOut_libraryFirst :
    ∃ c', allocateTLSArea mapsAnywhere 0x20000000 libraryFirst unassigned = .ok c' ∧ LaidOut c' libraryFirst := by
  have hfs : (0x20000000 : Address).toNat + totalLength Module.length libraryFirst.modules + 143 < 2 ^ 64 := by decide
  obtain ⟨c', hrun⟩ : ∃ c', allocateTLSArea mapsAnywhere 0x20000000 libraryFirst unassigned = .ok c' := ⟨_, rfl⟩
  refine ⟨c', hrun, (allocateTLSArea_laidOut_iff hfs hrun).mpr ⟨libraryFirst_mainLast, ?_⟩⟩
  intro m hm r hr
  rcases mem_pair.mp hm with rfl | rfl
  · cases hr
    decide
  · cases hr
    decide

/-- The same modules in the order in which they are loaded. -/
def executableFirst : Program where
  modules := [⟨0, some ⟨8, [1, 2]⟩⟩, ⟨1, some ⟨16, []⟩⟩]
  main := some 0
  nodup := by decide
  main_mem := by decide

/-- The offset of the executable's block is recorded as -112; another thread gets its image at -128. -/
theorem executableFirst_not_laidOut :
    ∃ c', allocateTLSArea mapsAnywhere 0x20000000 executableFirst unassigned = .ok c' ∧
      c'.tlsOffset 0 = -112 ∧ ¬ LaidOut c' executableFirst ∧
      ∃ mem' placed, loadTLSDataFor c' executableFirst 0x30000000 (fun _ => 0) = .ok (mem', placed) ∧
        placed.map (fun e => (e.1.id, e.2)) = [(0, 0x30000000 - 128), (1, 0x30000000 - 120)] := by
  refine ⟨_, rfl, by decide, ?_, _, _, rfl, by decide⟩
  intro hli
  obtain ⟨mem', placed, hld, -, hat⟩ := hli.same 0x30000000 fun _ => 0
  cases hld
  have hmv := (hat _ _ _ mem_cons_self rfl).1
  revert hmv
  decide

end Egalito.ThreadLocal
