/-
The chunk hierarchy (`chunk/chunk.h`, `chunk/chunklist.h`, `chunk/size.h`): chunks live in a heap and are named by
references.

A chunk has its own fields in the heap, as the objects of the source have, and nothing ties the list of children to
the parent and sibling pointers: that they agree is the invariant of `Operation.Links`.
-/
import Egalito.Util.Range
import Egalito.Lib.Except
import Mathlib.Logic.Function.Basic

namespace Egalito

open Function (update)

/-- A `Chunk *` that is not null. -/
abbrev Ref := Nat

inductive Kind where
  | instruction
  | block
  | function
  | functionList
  | module
  deriving DecidableEq, Repr

/-- The `ChildType` of the chunk's list; an instruction has no list. -/
def Kind.childType : Kind → Option Kind
  | .instruction => none
  | .block => some .instruction
  | .function => some .block
  | .functionList => some .function
  | .module => some .functionList

/-- What a position stores before decoration. An `OffsetPosition` refers to the chunk it is attached to. -/
inductive PositionBase where
  | absolute (address : Address)
  | offset (offset : Address)
  | subsequent (afterThis : Ref)
  deriving DecidableEq, Repr

/-- `CachedPositionDecorator`, `TrackedPositionDecorator` and `GenerationalPositionDecorator` (the
last one always around a tracked position). -/
inductive Decorator where
  | plain
  | cached (cache : Address)
  | tracked (generation : Nat)
  | generational (generation : Nat) (authority : Option Ref) (cache : Address)
  deriving DecidableEq, Repr

structure Position where
  base : PositionBase
  decorator : Decorator
  deriving DecidableEq, Repr

/-- The size of an instruction's semantic. -/
class Sized (S : Type) where
  size : S → Nat

structure Heap (S : Type) where
  kind : Ref → Kind
  parent : Ref → Option Ref
  prev : Ref → Option Ref
  next : Ref → Option Ref
  children : Ref → List Ref
  computedSize : Ref → Nat
  semantic : Ref → S
  position : Ref → Option Position
  /-- The next reference `new` hands out. -/
  fresh : Ref

namespace Heap

variable {S : Type}

def setPosition (h : Heap S) (x : Ref) (p : Option Position) : Heap S :=
  { h with position := update h.position x p }

def setParent (h : Heap S) (x : Ref) (p : Option Ref) : Heap S :=
  { h with parent := update h.parent x p }

def setChildren (h : Heap S) (c : Ref) (l : List Ref) : Heap S :=
  { h with children := update h.children c l }

def setPrev (h : Heap S) (x : Ref) (p : Option Ref) : Heap S :=
  { h with prev := update h.prev x p }

def setNext (h : Heap S) (x : Ref) (n : Option Ref) : Heap S :=
  { h with next := update h.next x n }

def setSemantic (h : Heap S) (x : Ref) (s : S) : Heap S :=
  { h with semantic := update h.semantic x s }

def getSize [Sized S] (h : Heap S) (x : Ref) : Nat :=
  match h.kind x with
  | .instruction => Sized.size (h.semantic x)
  | .block | .function => h.computedSize x
  | .functionList | .module => 0

/-- `addToSize`: a size stays non-negative, a function list or module ignores the call, an instruction throws. -/
def addToSize (h : Heap S) (x : Ref) (add : Int) : Except Failure (Heap S) :=
  match h.kind x with
  | .instruction => .error .assertion
  | .block | .function =>
    if 0 ≤ (h.computedSize x : Int) + add then
      .ok { h with computedSize := update h.computedSize x ((h.computedSize x : Int) + add).toNat }
    else .error .assertion
  | .functionList | .module => .ok h

/-- More levels than the hierarchy from `Instruction` to `Module` has. -/
def levels : Nat := 8

/-- The chunks that `for(Chunk *c = chunk; c && !stop(c); c = c->getParent())` goes through. -/
def ancestors (h : Heap S) (stop : Ref → Bool) : Nat → Option Ref → Except Failure (List Ref)
  | _, none => .ok []
  | 0, some _ => .error .diverged
  | n + 1, some c =>
    if stop c then .ok [] else do
      let cs ← h.ancestors stop n (h.parent c)
      .ok (c :: cs)

def isModule (h : Heap S) (c : Ref) : Bool := h.kind c == .module

/-- The loops over "parents and grandparents" below the module. -/
def belowModule (h : Heap S) (c : Ref) : Except Failure (List Ref) :=
  h.ancestors h.isModule levels (some c)

end Heap

end Egalito
