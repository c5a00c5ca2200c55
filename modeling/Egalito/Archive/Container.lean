/-
The archive container (`archive/`): flat chunks with a type, an ID and bytes, their writer and reader. Undefined
behaviour of the source is an error here, and a variable that is read before it is set enters as an argument.
-/
import Egalito.Lib.Stream

namespace Egalito.Archive

open Lib

/-- What ends a run instead of a result. -/
inductive Fault
  | outOfBounds
  | nullPointer
  | assertion
  /-- A C++ exception that nothing in the modelled code catches. -/
  | exception (what : String)
  deriving DecidableEq, Repr

/-! ## Chunk types -/

inductive EgalitoChunkType
  | unknown
  | program
  | module
  | functionList
  | pltList
  | jumpTableList
  | dataRegionList
  | initFunctionList
  | externalSymbolList
  | libraryList
  | vTableList
  | function
  | block
  | instruction
  | pltTrampoline
  | jumpTable
  | jumpTableEntry
  | dataRegion
  | tlsDataRegion
  | dataSection
  | dataVariable
  | globalVariable
  | markerList
  | marker
  | vTable
  | vTableEntry
  | initFunction
  | externalSymbol
  | library
  deriving DecidableEq, Repr

def letter (c : Char) : Byte := BitVec.ofNat 8 c.toNat

/-- The table of `encodeChunkType`, which is indexed by the number of the type. -/
def encodeTable : List Byte :=
  ['?', 'P', 'M', 'F', 'Z', 'T', 'R', 'S', 'L', 'Q', 'f', 'b', 'i', 'z', 'J', 'j', 'D', ':', 'd', 'v', 'A', 'a', 'V', 'p',
    's', 'l'].map letter

def encodeChunkType (type : EgalitoChunkType) : Except Fault Byte :=
  match encodeTable[type.ctorIdx]? with
  | some b => .ok b
  | none => .error .outOfBounds

/-- The `switch` of `decodeChunkType`. -/
def decodeTable : List (Char × EgalitoChunkType) :=
  [('?', .unknown), ('P', .program), ('M', .module), ('F', .functionList), ('Z', .pltList), ('T', .jumpTableList),
    ('R', .dataRegionList), ('S', .externalSymbolList), ('L', .libraryList), ('Q', .vTableList), ('f', .function),
    ('b', .block), ('i', .instruction), ('z', .pltTrampoline), ('J', .jumpTable), ('j', .jumpTableEntry),
    ('D', .dataRegion), (':', .tlsDataRegion), ('d', .dataSection), ('v', .dataVariable), ('A', .markerList),
    ('a', .marker), ('V', .vTable), ('p', .vTableEntry), ('s', .externalSymbol), ('l', .library)]

def decodeChunkType (encoded : Byte) : EgalitoChunkType :=
  match decodeTable.find? (fun entry => letter entry.1 == encoded) with
  | some entry => entry.2
  | none => .unknown

structure FlatChunk where
  type : EgalitoChunkType
  id : BitVec 32
  offset : BitVec 32
  data : List Byte
  deriving DecidableEq, Repr

def FlatChunk.getSize (flat : FlatChunk) : BitVec 32 := BitVec.ofNat 32 flat.data.length

/-- The vector of a `FlatChunkList`; an ID that was skipped has a null pointer. -/
abbrev FlatList := List (Option FlatChunk)

/-- `resize`, which only happens to a larger size. -/
def grow (l : FlatList) (n : Nat) : FlatList := l ++ List.replicate (n - l.length) none

/-- `addFlatChunk`: the new size is computed in 32 bits. -/
def addFlatChunk (l : FlatList) (flat : FlatChunk) : Except Fault FlatList :=
  let size := (flat.id + 1).toNat
  let l := if l.length < size then grow l size else l
  if flat.id.toNat < l.length then .ok (l.set flat.id.toNat (some flat)) else .error .outOfBounds

structure EgalitoArchive where
  flatList : FlatList
  version : BitVec 32
  deriving DecidableEq, Repr

def signature : List Byte := ['e', 'g', 'a', 'l', 'i', 't', 'o'].map letter ++ [0xc4]

def currentVersion : Nat := 24

/-- `assignOffsets`, `totalSize` being the bytes before the list. -/
def assignOffsetsFrom : BitVec 32 → FlatList → Except Fault (List FlatChunk)
  | _, [] => .ok []
  | _, none :: _ => .error .nullPointer
  | totalSize, some flat :: l => do
    let l ← assignOffsetsFrom (totalSize + (2 + 4 * 3) + flat.getSize) l
    .ok ({ flat with offset := totalSize } :: l)

def assignOffsets (l : FlatList) : Except Fault (List FlatChunk) :=
  assignOffsetsFrom (BitVec.ofNat 32 (signature.length + 4 + 4)) l

def header (count : Nat) : List Byte :=
  signature ++ littleEndian 4 currentVersion ++ littleEndian 4 count

/-- The bytes of one flat chunk, given the code of its type. -/
def record (code : Byte) (flat : FlatChunk) : List Byte :=
  [code] ++ (littleEndian 4 flat.id.toNat ++ (littleEndian 4 flat.offset.toNat ++
    (littleEndian 4 flat.getSize.toNat ++ flat.data.take flat.getSize.toNat)))

def writeRecord (flat : FlatChunk) : Except Fault (List Byte) := do
  let code ← encodeChunkType flat.type
  .ok (record code flat)

def writeData (count : Nat) (l : List FlatChunk) : Except Fault (List Byte) := do
  let records ← l.mapM writeRecord
  .ok (header count ++ records.flatten)

def write (archive : EgalitoArchive) : Except Fault (List Byte) := do
  let l ← assignOffsets archive.flatList
  writeData archive.flatList.length l

/-- Whether the stream has failed. -/
def failed : Reader Fault Bool := fun s => .ok (s.status == .fail, s)

/-- `readHeader`, with the count and the version. Bytes of `unset`, the former `flatCount`, that are not read keep their
    value. -/
def readHeader (unset : BitVec 32) : Reader Fault (Option (Nat × Nat)) := do
  let line ← readFixed signature.length
  if !(← stillGood) || line ≠ signature then return none
  let version ← readNat 4
  if ← failed then return none
  if version > currentVersion then return none
  let count ← readSome 4
  return some (fromLittleEndian (count ++ (littleEndian 4 unset.toNat).drop count.length), version)

def readRecord : Reader Fault FlatChunk := do
  let type ← readNat 1
  let id ← readNat 4
  let offset ← readNat 4
  let size ← readNat 4
  let data ← readFixed size
  return ⟨decodeChunkType (BitVec.ofNat 8 type), BitVec.ofNat 32 id, BitVec.ofNat 32 offset, data⟩

def readRecords : Nat → FlatList → Reader Fault (Option FlatList)
  | 0, l => return some l
  | n + 1, l => do
    let flat ← readRecord
    if ← failed then return none
    let l ← (addFlatChunk l flat : Except Fault FlatList)
    readRecords n l

def readArchive (unset : BitVec 32) : Reader Fault (Option EgalitoArchive) := do
  match ← readHeader unset with
  | none => return none
  | some (flatCount, version) =>
    match ← readRecords flatCount [] with
    | none => return none
    | some l => return some ⟨l, BitVec.ofNat 32 version⟩

def read (unset : BitVec 32) (file : List Byte) : Except Fault (Option EgalitoArchive) := do
  let (archive, _) ← readArchive unset ⟨file, .good⟩
  .ok archive

end Egalito.Archive
