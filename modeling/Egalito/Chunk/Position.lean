/-
Positions (`chunk/position.h`, `chunk/position.cpp`). Asking for an address may refresh a cache, so `getAddress` hands
the heap on; its recursion runs on fuel, and generations do not wrap.
-/
import Egalito.Chunk.Heap

namespace Egalito

variable {S : Type}

namespace Position

def isAbsolute (p : Position) : Bool :=
  match p.base with
  | .absolute _ => true
  | _ => false

def getGeneration (p : Position) : Nat :=
  match p.decorator with
  | .tracked g => g
  | .generational g _ _ => g
  | .plain | .cached _ => 0

def setGeneration (p : Position) (g : Nat) : Position :=
  match p.decorator with
  | .tracked _ => { p with decorator := .tracked g }
  | .generational _ a c => { p with decorator := .generational g a c }
  | .plain | .cached _ => p

/-- `updateAuthority`, given what `findAuthority` found. -/
def setAuthority (p : Position) (a : Option Ref) : Position :=
  match p.decorator with
  | .generational g _ c => { p with decorator := .generational g a c }
  | .plain | .cached _ | .tracked _ => p

/-- `setAfterThis`, for a `SubsequentPosition` under any decorator. -/
def setAfterThis (p : Position) (y : Ref) : Position :=
  match p.base with
  | .subsequent _ => { p with base := .subsequent y }
  | .absolute _ | .offset _ => p

end Position

namespace Heap

def getGeneration (h : Heap S) (x : Ref) : Except Failure Nat :=
  match h.position x with
  | none => .error .assertion
  | some p => .ok p.getGeneration

def getDependency (h : Heap S) (x : Ref) (p : Position) : Option Ref :=
  match p.base with
  | .absolute _ => none
  | .offset _ => h.parent x
  | .subsequent y => some y

/-! ## Addresses -/

section
variable [Sized S] (address : Heap S → Ref → Except Failure (Address × Heap S))

/-- `get` of the undecorated position, `address` being `getAddress` of the other chunks. -/
def baseGet (h : Heap S) (x : Ref) : PositionBase → Except Failure (Address × Heap S)
  | .absolute a => .ok (a, h)
  | .offset o =>
    match h.parent x with
    | none => .ok (0, h)
    | some c => do
      let (a, h) ← address h c
      .ok (a + o, h)
  | .subsequent y => do
    let (a, h) ← address h y
    .ok (a + BitVec.ofNat 64 (h.getSize y), h)

/-- `recalculate` of the undecorated position: only an `OffsetPosition` has anything to do. -/
def baseRecalculate (h : Heap S) (x : Ref) : PositionBase → Except Failure (PositionBase × Heap S)
  | .absolute a => .ok (.absolute a, h)
  | .subsequent y => .ok (.subsequent y, h)
  | .offset _ =>
    match h.parent x, h.prev x with
    | none, _ => .ok (.offset 0, h)
    | some _, none => .ok (.offset 0, h)
    | some c, some y => do
      let (a, h) ← address h y
      let (b, h) ← address h c
      .ok (.offset (a - b + BitVec.ofNat 64 (h.getSize y)), h)

/-- `recalculate`, which for the caching decorators also stores the undecorated `get`. -/
def recalculateOf (h : Heap S) (x : Ref) (p : Position) : Except Failure (Position × Heap S) := do
  let (base, h) ← baseRecalculate address h x p.base
  match p.decorator with
  | .plain => .ok (⟨base, .plain⟩, h)
  | .tracked g => .ok (⟨base, .tracked g⟩, h)
  | .cached _ => do
    let (a, h) ← baseGet address h x base
    .ok (⟨base, .cached a⟩, h)
  | .generational g authority _ => do
    let (a, h) ← baseGet address h x base
    .ok (⟨base, .generational g authority a⟩, h)

/-- `GenerationalPositionDecorator::get` with a generation other than its authority's: recalculate
and take the authority's generation. -/
def refresh (h : Heap S) (x : Ref) (p : Position) (authority : Ref) : Except Failure (Address × Heap S) := do
  let (p, h) ← recalculateOf address h x p
  let g ← h.getGeneration authority
  match p.decorator with
  | .generational _ _ c => .ok (c, h.setPosition x (some (p.setGeneration g)))
  | .plain | .cached _ | .tracked _ => .error .assertion

def getOf (h : Heap S) (x : Ref) (p : Position) : Except Failure (Address × Heap S) :=
  match p.decorator with
  | .plain | .tracked _ => baseGet address h x p.base
  | .cached c => .ok (c, h)
  | .generational _ none c => .ok (c, h)
  | .generational g (some authority) c => do
    let current ← h.getGeneration authority
    if g = current then .ok (c, h) else refresh address h x p authority

end

section
variable [Sized S]

def getAddressFuel : Nat → Heap S → Ref → Except Failure (Address × Heap S)
  | 0, _, _ => .error .diverged
  | n + 1, h, x =>
    match h.position x with
    | none => .error .assertion
    | some p => getOf (getAddressFuel n) h x p

def getAddress (h : Heap S) (x : Ref) : Except Failure (Address × Heap S) :=
  getAddressFuel (h.fresh + levels) h x

def recalculate (h : Heap S) (x : Ref) : Except Failure (Heap S) :=
  match h.position x with
  | none => .error .assertion
  | some p => do
    let (p, h) ← recalculateOf getAddress h x p
    .ok (h.setPosition x (some p))

end

/-- Whether the old authority's generation is new enough to keep using it. -/
def authorityCurrent (h : Heap S) (g : Nat) : Option Ref → Except Failure Bool
  | none => .ok false
  | some a => do
    let current ← h.getGeneration a
    .ok (g == current)

/-- `findAuthority` of a position attached to `x`, `find` being that of the other chunks. -/
def findAuthorityOf (find : Ref → Except Failure (Option Ref)) (h : Heap S) (x : Ref) (p : Position) :
    Except Failure (Option Ref) :=
  match p.decorator with
  | .plain | .cached _ | .tracked _ => .ok none
  | .generational g authority _ => do
    let current ← h.authorityCurrent g authority
    if current then .ok authority else
      match h.getDependency x p with
      | none => .ok none
      | some d => do
        let a ← find d
        .ok (some (a.getD d))

def findAuthorityFuel (h : Heap S) : Nat → Ref → Except Failure (Option Ref)
  | 0, _ => .error .diverged
  | n + 1, x =>
    match h.position x with
    | none => .error .assertion
    | some p => findAuthorityOf (h.findAuthorityFuel n) h x p

def findAuthority (h : Heap S) (x : Ref) (p : Position) : Except Failure (Option Ref) :=
  findAuthorityOf (h.findAuthorityFuel (h.fresh + levels)) h x p

end Heap

/-! ## The factory -/

inductive Mode where
  | generationOffset
  | generationSubsequent
  | cachedOffset
  | cachedSubsequent
  | offset
  | subsequent
  deriving DecidableEq, Repr

namespace Mode

def needsGenerationTracking : Mode → Bool
  | .generationOffset | .generationSubsequent => true
  | _ => false

def needsUpdatePasses : Mode → Bool
  | .cachedOffset | .cachedSubsequent | .offset => true
  | _ => false

def needsSpecialCaseFirst : Mode → Bool
  | .subsequent | .cachedSubsequent | .generationSubsequent => true
  | _ => false

def makeAbsolutePosition (mode : Mode) (a : Address) : Position :=
  if mode.needsGenerationTracking then ⟨.absolute a, .tracked 0⟩ else ⟨.absolute a, .plain⟩

section
variable [Sized S]

/-- The constructor of `GenerationalPositionDecorator`: generation 0 and no authority, then
`updateAuthority` and `recalculate`. -/
def newGenerational (h : Heap S) (x : Ref) (base : PositionBase) : Except Failure (Position × Heap S) := do
  let p : Position := ⟨base, .generational 0 none 0⟩
  let authority ← h.findAuthority x p
  Heap.recalculateOf Heap.getAddress h x (p.setAuthority authority)

def newGenerationalOffset (h : Heap S) (x : Ref) (offset : Address) : Except Failure (Position × Heap S) := do
  let (p, h) ← newGenerational h x (.offset 0)
  .ok ({ p with base := .offset offset }, h)

/-- `makePosition`. A `CachedOffsetPosition` is recalculated twice, the second time after `setOffset`. -/
def makePosition (mode : Mode) (h : Heap S) (previous : Option Ref) (x : Ref) (offset : Address) :
    Except Failure (Position × Heap S) :=
  match previous with
  | none =>
    if mode.needsGenerationTracking then newGenerationalOffset h x offset
    else .ok (⟨.offset offset, .plain⟩, h)
  | some y =>
    match mode with
    | .generationOffset => newGenerationalOffset h x offset
    | .generationSubsequent => newGenerational h x (.subsequent y)
    | .cachedOffset => do
      let (p, h) ← Heap.recalculateOf Heap.getAddress h x ⟨.offset 0, .cached 0⟩
      Heap.recalculateOf Heap.getAddress h x { p with base := .offset offset }
    | .cachedSubsequent => Heap.recalculateOf Heap.getAddress h x ⟨.subsequent y, .cached 0⟩
    | .offset => .ok (⟨.offset offset, .plain⟩, h)
    | .subsequent => .ok (⟨.subsequent y, .plain⟩, h)

end

end Mode

end Egalito
