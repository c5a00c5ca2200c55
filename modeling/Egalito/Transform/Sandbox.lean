/-
The sandbox for generated code (`transform/sandbox.h`): a backing that is only appended to, and the allocator that hands
out slots from a watermark on.

`serve_sound` is about any sequence of requests: it says for which alignments and sizes every slot that is given out
is large enough, aligned, inside the backing and behind the earlier ones.
-/
import Egalito.Lib.Stream
import Egalito.Util.Range
import Mathlib.Data.List.ReduceOption

namespace Egalito

open BitVec
open Lib (Byte)

namespace Transform

structure Slot where
  address : Address
  size : BitVec 64
  deriving DecidableEq, Repr

/-- A `MemoryBufferBacking`, which stands for a range within the address space. -/
structure Backing where
  base : Address
  size : BitVec 64
  inSpace : base.toNat + size.toNat < 2 ^ 64

/-- The alignment of an allocator. A sandbox always makes its allocator with the default. -/
structure Alignment where
  value : BitVec 64
  positive : 0 < value.toNat

def Alignment.default : Alignment := ⟨2, by decide⟩

/-- A `SandboxImpl` with an `AlignedWatermarkAllocator` over a `MemoryBufferBacking`. -/
structure Sandbox where
  backing : Backing
  alignment : Alignment
  watermark : Address
  buffer : List Byte

def Sandbox.make (backing : Backing) (alignment : Alignment) : Sandbox := ⟨backing, alignment, backing.base, []⟩

def Alignment.round (a : Alignment) (request : BitVec 64) : BitVec 64 :=
  (request + a.value - 1) &&& ~~~(a.value - 1)

def Sandbox.allocate (sandbox : Sandbox) (request : BitVec 64) : Option (Slot × Sandbox) :=
  let request := sandbox.alignment.round request
  let max := sandbox.backing.base + sandbox.backing.size
  if sandbox.watermark + request > max then none
  else some (⟨sandbox.watermark, request⟩, { sandbox with watermark := sandbox.watermark + request })

/-! ## Rounding -/

/-- The bytes that a chunk of the given size takes up: at least the size, for any alignment. -/
def Alignment.roundUp (a : Alignment) (size : Nat) : Nat :=
  (size + a.value.toNat - 1) - ((size + a.value.toNat - 1) &&& (a.value.toNat - 1))

theorem Alignment.le_roundUp (a : Alignment) (size : Nat) : size ≤ a.roundUp size := by
  have ha : (size + a.value.toNat - 1) &&& (a.value.toNat - 1) ≤ a.value.toNat - 1 := Nat.and_le_right
  have hp := a.positive
  unfold Alignment.roundUp
  omega

variable {size k : Nat} {watermark : Address}

theorem Alignment.lt_of_roundUp_lt (a : Alignment) (h : a.roundUp size < 2 ^ 64) :
    size + a.value.toNat - 1 < 2 ^ 64 := by
  by_contra hge
  have ha := a.value.isLt
  unfold Alignment.roundUp at h
  generalize size + a.value.toNat - 1 = x at h hge
  have hm : x &&& (a.value.toNat - 1) = x % 2 ^ 64 &&& (a.value.toNat - 1) := by
    have hs : x &&& (a.value.toNat - 1) < 2 ^ 64 := lt_of_le_of_lt Nat.and_le_right (by omega)
    rw [← Nat.mod_eq_of_lt hs, Nat.and_mod_two_pow, Nat.mod_eq_of_lt (show a.value.toNat - 1 < 2 ^ 64 by omega)]
  have hlo : x &&& (a.value.toNat - 1) ≤ x % 2 ^ 64 := hm ▸ Nat.and_le_left
  omega

theorem toNat_and_not (x m : BitVec 64) : (x &&& ~~~m).toNat = x.toNat - (x.toNat &&& m.toNat) := by
  have hd : (x &&& ~~~m) &&& (x &&& m) = 0#64 := by
    ext i hi
    simp only [getElem_and, getElem_not, getElem_zero]
    cases x[i] <;> cases m[i] <;> rfl
  have hjoin : (x &&& ~~~m) + (x &&& m) = x := by
    rw [add_eq_or_of_and_eq_zero _ _ hd]
    ext i hi
    simp only [getElem_or, getElem_and, getElem_not]
    cases x[i] <;> cases m[i] <;> rfl
  have hs := toNat_add_of_and_eq_zero hd
  rw [hjoin, toNat_and x m] at hs
  omega

theorem Alignment.toNat_round (a : Alignment) (h : a.roundUp size < 2 ^ 64) :
    (a.round (BitVec.ofNat 64 size)).toNat = a.roundUp size := by
  have hs := a.lt_of_roundUp_lt h
  have hp := a.positive
  have hle := a.le_roundUp size
  have hm : (a.value - 1).toNat = a.value.toNat - 1 := by
    rw [toNat_sub, show (1 : BitVec 64).toNat = 1 from rfl]
    omega
  have ha : (BitVec.ofNat 64 size + a.value - 1).toNat = size + a.value.toNat - 1 := by
    rw [toNat_sub, toNat_add, toNat_ofNat, show (1 : BitVec 64).toNat = 1 from rfl]
    omega
  rw [Alignment.round, toNat_and_not, hm, ha, Alignment.roundUp]

theorem Sandbox.allocate_ok {sandbox : Sandbox}
    (h : sandbox.watermark.toNat + sandbox.alignment.roundUp size ≤ sandbox.backing.base.toNat + sandbox.backing.size.toNat) :
    ∃ slot watermark, sandbox.allocate (BitVec.ofNat 64 size) = some (slot, { sandbox with watermark := watermark }) ∧
      slot.address = sandbox.watermark ∧ slot.size.toNat = sandbox.alignment.roundUp size ∧
      watermark.toNat = sandbox.watermark.toNat + sandbox.alignment.roundUp size := by
  have hs := sandbox.backing.inSpace
  have hlt : sandbox.alignment.roundUp size < 2 ^ 64 := by omega
  have hr := sandbox.alignment.toNat_round hlt
  have hn : (sandbox.watermark + sandbox.alignment.round (BitVec.ofNat 64 size)).toNat =
      sandbox.watermark.toNat + sandbox.alignment.roundUp size := by
    rw [toNat_add, hr]
    omega
  have hm : ¬ sandbox.watermark + sandbox.alignment.round (BitVec.ofNat 64 size) >
      sandbox.backing.base + sandbox.backing.size := by
    rw [gt_iff_lt, lt_def, hn, toNat_add]
    omega
  refine ⟨_, _, if_neg hm, rfl, hr, hn⟩

/-! ## Sequences of requests -/

/-- The `WatermarkAllocator` and the `AlignedWatermarkAllocator`. -/
inductive Allocator
  | unaligned
  | aligned (alignment : Alignment)

def Allocator.alignment : Allocator → Nat
  | unaligned => 1
  | aligned a => a.value.toNat

/-- What is taken from the backing for a request. -/
def Allocator.rounded : Allocator → BitVec 64 → BitVec 64
  | unaligned, request => request
  | aligned a, request => a.round request

/-- `allocate` of both allocators, with the watermark before and after. -/
def Allocator.allocate (allocator : Allocator) (backing : Backing) (watermark : Address) (request : BitVec 64) :
    Option (Slot × Address) :=
  let request := allocator.rounded request
  if watermark + request > backing.base + backing.size then none
  else some (⟨watermark, request⟩, watermark + request)

/-- The answers to a sequence of requests; the watermark stays where it is when there is none. -/
def Allocator.serve (allocator : Allocator) (backing : Backing) : Address → List (BitVec 64) → List (Option Slot)
  | _, [] => []
  | watermark, request :: requests =>
    match allocator.allocate backing watermark request with
    | none => none :: allocator.serve backing watermark requests
    | some (slot, watermark) => some slot :: allocator.serve backing watermark requests

/-- The slot has room for the request, is in the backing and has the alignment. -/
structure Slot.Fits (slot : Slot) (allocator : Allocator) (backing : Backing) (request : BitVec 64) : Prop where
  room : request.toNat ≤ slot.size.toNat
  start : backing.base.toNat ≤ slot.address.toNat
  stop : slot.address.toNat + slot.size.toNat ≤ backing.base.toNat + backing.size.toNat
  aligned : allocator.alignment ∣ slot.address.toNat

/-- A request that does not make the sum in `allocate` wrap around. -/
def Allocator.Modest (allocator : Allocator) (backing : Backing) (request : BitVec 64) : Prop :=
  backing.base.toNat + backing.size.toNat + request.toNat + allocator.alignment ≤ 2 ^ 64

variable {allocator : Allocator} {backing : Backing}

section

variable (hpow : allocator.alignment = 2 ^ k)
include hpow

theorem Allocator.toNat_rounded (request : BitVec 64) (hm : request.toNat + allocator.alignment ≤ 2 ^ 64) :
    request.toNat ≤ (allocator.rounded request).toNat ∧
      (allocator.rounded request).toNat < request.toNat + allocator.alignment ∧
      allocator.alignment ∣ (allocator.rounded request).toNat := by
  cases allocator with
  | unaligned => exact ⟨le_rfl, Nat.lt_succ_self _, one_dvd _⟩
  | aligned a =>
    have hp' : a.value.toNat = 2 ^ k := hpow
    have hm' : request.toNat + a.value.toNat ≤ 2 ^ 64 := hm
    have hp := a.positive
    have hle := a.le_roundUp request.toNat
    have hu : a.roundUp request.toNat ≤ request.toNat + a.value.toNat - 1 := Nat.sub_le ..
    have hr : (a.round request).toNat = a.roundUp request.toNat := by
      rw [← a.toNat_round (by omega), ofNat_toNat, setWidth_eq]
    have hd : a.value.toNat ∣ a.roundUp request.toNat := by
      rw [Alignment.roundUp, hp', Nat.and_two_pow_sub_one_eq_mod]
      exact Nat.dvd_sub_mod _
    rw [rounded, hr]
    exact ⟨hle, show _ < _ + a.value.toNat by omega, hd⟩

theorem Allocator.allocate_fits {watermark' request slot}
    (hm : allocator.Modest backing request) (hsr : backing.base.toNat ≤ watermark.toNat)
    (hp : watermark.toNat ≤ backing.base.toNat + backing.size.toNat) (hd : allocator.alignment ∣ watermark.toNat)
    (h : allocator.allocate backing watermark request = some (slot, watermark')) :
    slot.Fits allocator backing request ∧ slot.address = watermark ∧
      watermark'.toNat = watermark.toNat + slot.size.toNat ∧ allocator.alignment ∣ watermark'.toNat := by
  have hc := backing.inSpace
  unfold Modest at hm
  obtain ⟨hle, hlt, hd'⟩ := toNat_rounded hpow request (by omega)
  have hs : (watermark + allocator.rounded request).toNat = watermark.toNat + (allocator.rounded request).toNat := by
    rw [toNat_add]
    exact Nat.mod_eq_of_lt (by omega)
  unfold Allocator.allocate at h
  dsimp only at h
  split at h
  · cases h
  · next hr =>
    cases h
    rw [gt_iff_lt, lt_def, hs, toNat_add, Nat.mod_eq_of_lt hc, not_lt] at hr
    refine ⟨⟨hle, hsr, hr, hd⟩, rfl, hs, ?_⟩
    rw [hs]
    exact dvd_add hd hd'

theorem Allocator.serve_fits {requests}
    (hmd : ∀ request ∈ requests, allocator.Modest backing request) (hsr : backing.base.toNat ≤ watermark.toNat)
    (hs : watermark.toNat ≤ backing.base.toNat + backing.size.toNat) (hd : allocator.alignment ∣ watermark.toNat) :
    List.Forall₂ (fun request answer => ∀ slot, answer = some slot → slot.Fits allocator backing request) requests
      (allocator.serve backing watermark requests) ∧
    (∀ slot ∈ (allocator.serve backing watermark requests).reduceOption, watermark.toNat ≤ slot.address.toNat) ∧
    (allocator.serve backing watermark requests).reduceOption.Pairwise fun earlier later =>
      earlier.address.toNat + earlier.size.toNat ≤ later.address.toNat := by
  induction requests generalizing watermark with
  | nil => simp [serve, List.reduceOption]
  | cons request requests ih =>
    rw [List.forall_mem_cons] at hmd
    rw [serve]
    cases hr : allocator.allocate backing watermark request with
    | none =>
      obtain ⟨hf, hlt, hp⟩ := ih hmd.2 hsr hs hd
      exact ⟨.cons (fun slot heq => by cases heq) hf, hlt, hp⟩
    | some result =>
      obtain ⟨slot, watermark'⟩ := result
      obtain ⟨ht, ha, hn, hd'⟩ := allocate_fits hpow hmd.1 hsr hs hd hr
      have he := ht.stop
      rw [ha] at he
      obtain ⟨hf, hlt, hp⟩ := ih hmd.2 (by omega) (by omega) hd'
      refine ⟨.cons (fun slot' heq => Option.some.inj heq ▸ ht) hf, ?_, ?_⟩
      · refine List.forall_mem_cons.2 ⟨ha ▸ le_rfl, fun slot' hm => ?_⟩
        have := hlt slot' hm
        omega
      · refine List.pairwise_cons.2 ⟨fun slot' hm => ?_, hp⟩
        rw [ha, ← hn]
        exact hlt slot' hm

end

/-- From a new allocator on, every slot fits its request and comes after all slots before it, if the alignment is a power
    of two that the base has, and no request makes the sum of the watermark and its size wrap around. -/
theorem Allocator.serve_sound (allocator : Allocator) (backing : Backing) (requests : List (BitVec 64)) {k : Nat}
    (hpow : allocator.alignment = 2 ^ k) (hbase : allocator.alignment ∣ backing.base.toNat)
    (hmodest : ∀ request ∈ requests, allocator.Modest backing request) :
    List.Forall₂ (fun request answer => ∀ slot, answer = some slot → slot.Fits allocator backing request) requests
      (allocator.serve backing backing.base requests) ∧
    (allocator.serve backing backing.base requests).reduceOption.Pairwise fun earlier later =>
      earlier.address.toNat + earlier.size.toNat ≤ later.address.toNat := by
  obtain ⟨hfs, -, hpw⟩ := serve_fits hpow hmodest le_rfl (Nat.le_add_right ..) hbase
  exact ⟨hfs, hpw⟩

def samplePage : Backing := ⟨0x1000, 0x1000, by decide⟩

theorem Allocator.serve_sound_three :
    (aligned .default).serve samplePage samplePage.base [3, 0x2000, 5] = [some ⟨0x1000, 4⟩, none, some ⟨0x1004, 6⟩] ∧
    ((aligned .default).serve samplePage samplePage.base [3, 0x2000, 5]).reduceOption.Pairwise fun earlier later =>
      earlier.address.toNat + earlier.size.toNat ≤ later.address.toNat := by
  have hmod : ∀ request ∈ [(3 : BitVec 64), 0x2000, 5], (aligned .default).Modest samplePage request := by
    simp [Modest, Allocator.alignment, samplePage, Alignment.default]
  exact ⟨by decide, (serve_sound _ _ _ (k := 1) rfl ⟨0x800, rfl⟩ hmod).2⟩

/-- The greatest request wraps around to an address before the watermark, or is rounded up to nothing. -/
theorem Allocator.serve_unsound : unaligned.serve samplePage 0x1000 [-1] = [some ⟨0x1000, -1⟩] ∧
    (aligned .default).serve samplePage 0x1000 [-1] = [some ⟨0x1000, 0⟩] := by
  constructor <;> decide

end Transform

end Egalito
