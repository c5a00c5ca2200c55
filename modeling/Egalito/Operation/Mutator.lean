/-
`ChunkMutator` (`operation/mutator.h`, `operation/mutator.cpp`): adding, removing and splitting the children of a chunk.

Every operation is the splice of the source, statement by statement, followed by the update of sizes and positions.
-/
import Egalito.Chunk.Position

namespace Egalito

open Function (update)

variable {S : Type}

namespace Mutator

/-! ## Sibling pointers -/

/-- The `setAfterThis` that keeps the position of `x` pointing at its new previous sibling. -/
def follow (h : Heap S) (x y : Ref) : Heap S :=
  h.setPosition x ((h.position x).map (·.setAfterThis y))

def setPreviousSibling (h : Heap S) (c : Ref) (prev : Option Ref) : Heap S :=
  match prev with
  | none => h.setPrev c none
  | some p => follow (h.setPrev c (some p)) c p

def setNextSibling (h : Heap S) (c : Ref) (next : Option Ref) : Heap S :=
  match next with
  | none => h.setNext c none
  | some n => follow (h.setNext c (some n)) n c

/-- `genericAdd` and `genericInsertAt` do nothing for a chunk of another type. -/
def insertChild (h : Heap S) (c : Ref) (index : Nat) (x : Ref) : Heap S :=
  if (h.kind c).childType = some (h.kind x) then h.setChildren c ((h.children c).insertIdx index x) else h

def checkChildren (h : Heap S) (c : Ref) : Except Failure Unit :=
  if (h.kind c).childType.isSome then .ok () else .error .assertion

/-- `append` up to the list and the parent. -/
def appendLinks (h : Heap S) (c x : Ref) : Heap S :=
  let h' := match (h.children c).getLast? with
    | some p => setNextSibling (setPreviousSibling h x (some p)) p (some x)
    | none => (h.setPrev x none).setNext x none
  insertChild (h'.setParent x (some c)) c (h.children c).length x

/-- `insertAfter` up to the list and the parent. For a point that is not in the list the new chunk goes to the front. -/
def insertAfterLinks (h : Heap S) (c : Ref) (point : Option Ref) (x : Ref) : Heap S :=
  let h1 := setPreviousSibling h x point
  let h2 := match point with
    | some p =>
      let next := h1.next p
      let h1 := match next with
        | some n => setPreviousSibling h1 n (some x)
        | none => h1
      setNextSibling (setNextSibling h1 x next) p (some x)
    | none => h1.setNext x none
  let index := match point with
    | some p => match (h.children c).idxOf? p with
      | some i => i + 1
      | none => 0
    | none => 0
  (insertChild h2 c index x).setParent x (some c)

/-- `insertBefore` up to the list and the parent, the point being at `index`. -/
def insertBeforeLinks (h : Heap S) (c p : Ref) (index : Nat) (x : Ref) : Heap S :=
  let prev := h.prev p
  let h1 := match prev with
    | some q => setNextSibling h q (some x)
    | none => h
  let h2 := setNextSibling h1 x (some p)
  let h3 := setPreviousSibling h2 x prev
  let h4 := setPreviousSibling h3 p (some x)
  (insertChild h4 c index x).setParent x (some c)

/-- `remove` up to the list. The removed chunk keeps its own pointers. -/
def removeLinks (h : Heap S) (c x : Ref) : Heap S :=
  let prev := h.prev x
  let next := h.next x
  let h1 := match prev with
    | some p => setNextSibling h p next
    | none => h
  let h2 := match next with
    | some n => setPreviousSibling h1 n prev
    | none => h1
  h2.setChildren c ((h2.children c).erase x)

/-- One round of the loop of `removeLast`. -/
def popLast (h : Heap S) (c : Ref) : Except Failure (Ref × Heap S) :=
  match (h.children c).getLast? with
  | none => .error .assertion
  | some x =>
    let h1 := match h.prev x with
      | some p => h.setNext p none
      | none => h
    .ok (x, h1.setChildren c (h1.children c).dropLast)

section
variable [Sized S]

/-- The size loops of insertion and `modifiedChildSize`. -/
def addToSizes (h : Heap S) (c : Ref) (add : Int) : Except Failure (Heap S) := do
  let cs ← h.belowModule c
  cs.foldlM (fun h a => h.addToSize a add) h

/-- The size loops of removal, which skip chunks of size 0 ("only if size is tracked"). -/
def subtractFromSizes (h : Heap S) (c : Ref) (removed : Nat) : Except Failure (Heap S) := do
  let cs ← h.belowModule c
  cs.foldlM (fun h a => if h.getSize a ≠ 0 then h.addToSize a (-removed) else .ok h) h

/-! ## Generations -/

/-- The chunks from `child` up to the first one at an `AbsolutePosition`, that one included. -/
def authorityChain (h : Heap S) : Nat → Option Ref → Except Failure (List Ref)
  | _, none => .ok []
  | 0, some _ => .error .diverged
  | n + 1, some c =>
    match h.position c with
    | none => .error .assertion
    | some p =>
      if p.isAbsolute then .ok [c] else do
        let cs ← authorityChain h n (h.parent c)
        .ok (c :: cs)

def generationOf (h : Heap S) (x : Ref) : Nat :=
  ((h.position x).map Position.getGeneration).getD 0

/-- Sets the generations of a chain to `gen`, `gen + 1`, … -/
def setGenerations : Heap S → List Ref → Nat → Heap S
  | h, [], _ => h
  | h, c :: cs, gen => setGenerations (h.setPosition c ((h.position c).map (·.setGeneration gen))) cs (gen + 1)

def updateAuthority (h : Heap S) (x : Ref) : Except Failure (Heap S) :=
  match h.position x with
  | none => .error .assertion
  | some p => do
    let a ← h.findAuthority x p
    .ok (h.setPosition x (some (p.setAuthority a)))

def updateAuthorityHelper : Nat → Heap S → Ref → Except Failure (Heap S)
  | 0, _, _ => .error .diverged
  | n + 1, h, root => do
    let h ← updateAuthority h root
    (h.children root).foldlM (updateAuthorityHelper n) h

def updateGenerationCounts (mode : Mode) (h : Heap S) (child : Ref) : Except Failure (Heap S) :=
  if mode.needsGenerationTracking then do
    let cs ← authorityChain h Heap.levels (some child)
    let gen := (cs.map (generationOf h)).foldl max 0
    updateAuthorityHelper Heap.levels (setGenerations h cs (gen + 1)) child
  else .ok h

def updateSizesAndAuthorities (mode : Mode) (h : Heap S) (c x : Ref) : Except Failure (Heap S) := do
  let h ← addToSizes h c (h.getSize x)
  updateGenerationCounts mode h x

/-- The position `makePositionFor` makes, for the child at an index. -/
def positionAt (mode : Mode) (h : Heap S) (c x : Ref) : Nat → Except Failure (Position × Heap S)
  | 0 => mode.makePosition h none x 0
  | i + 1 =>
    match (h.children c)[i]? with
    | none => .error .assertion
    | some y => do
      let (a, h) ← h.getAddress y
      let (b, h) ← h.getAddress c
      mode.makePosition h (some y) x (a - b)

def makePositionFor (mode : Mode) (h : Heap S) (c x : Ref) : Except Failure (Heap S) :=
  match (h.children c).idxOf? x with
  | none => .error .assertion
  | some i => do
    let (p, h) ← positionAt mode h c x i
    .ok (h.setPosition x (some p))

def ensurePosition (mode : Mode) (h : Heap S) (c x : Ref) : Except Failure (Heap S) :=
  match h.position x with
  | none => makePositionFor mode h c x
  | some _ => .ok h

def updatePositionHelper : Nat → Heap S → Ref → Except Failure (Heap S)
  | 0, _, _ => .error .diverged
  | n + 1, h, root =>
    match h.position root with
    | none => .ok h
    | some _ => do
      let h ← h.recalculate root
      (h.children root).foldlM (updatePositionHelper n) h

/-- The body of the loop of `updatePositions`. -/
def updateIfAbsolute (h : Heap S) (c : Ref) : Except Failure (Heap S) :=
  if (h.position c).any Position.isAbsolute then updatePositionHelper Heap.levels h c else .ok h

/-- `updatePositions`, which the destructor runs for a mutator that allows updates. -/
def updatePositions (mode : Mode) (h : Heap S) (c : Ref) : Except Failure (Heap S) :=
  if mode.needsUpdatePasses then do
    let cs ← h.ancestors (fun _ => false) Heap.levels (some c)
    cs.foldlM updateIfAbsolute h
  else .ok h

/-! ## The operations -/

def append (mode : Mode) (h : Heap S) (c x : Ref) : Except Failure (Heap S) := do
  checkChildren h c
  let h ← ensurePosition mode (appendLinks h c x) c x
  updateSizesAndAuthorities mode h c x

/-- The last step of `insertAfter`: a new position for the first child of the next sibling. -/
def renewNextChild (mode : Mode) (h : Heap S) (x : Ref) : Except Failure (Heap S) :=
  match h.next x with
  | none => .ok h
  | some n =>
    match h.children n with
    | [] => .ok h
    | y :: _ => makePositionFor mode (h.setPosition y none) n y

def insertAfter (mode : Mode) (h : Heap S) (c : Ref) (point : Option Ref) (x : Ref) : Except Failure (Heap S) := do
  checkChildren h c
  let h ← ensurePosition mode (insertAfterLinks h c point x) c x
  let h ← updateSizesAndAuthorities mode h c x
  renewNextChild mode h x

/-- "We should make sure the first and only the first entry is an OffsetPosition." -/
def demoteFirst (mode : Mode) (h : Heap S) (p x : Ref) : Except Failure (Heap S) :=
  if mode.needsSpecialCaseFirst ∧ h.prev x = none then do
    let (q, h) ← mode.makePosition (h.setPosition p none) (some x) p (BitVec.ofNat 64 (h.getSize x))
    .ok (h.setPosition p (some q))
  else .ok h

def insertBefore (mode : Mode) (h : Heap S) (c : Ref) (point : Option Ref) (x : Ref) : Except Failure (Heap S) :=
  match point with
  | none => append mode h c x
  | some p => do
    checkChildren h c
    -- `insert` at an index past the end is undefined
    match (h.children c).idxOf? p with
    | none => .error .assertion
    | some i => do
      let h ← ensurePosition mode (insertBeforeLinks h c p i x) c x
      let h ← demoteFirst mode h p x
      updateSizesAndAuthorities mode h c x

def prepend (mode : Mode) (h : Heap S) (c x : Ref) : Except Failure (Heap S) :=
  match h.children c with
  | [] => append mode h c x
  | p :: _ => insertBefore mode h c (some p) x

def swapSemantics (h : Heap S) (x y : Ref) : Heap S :=
  (h.setSemantic x (h.semantic y)).setSemantic y (h.semantic x)

def insertBeforeJumpTo (mode : Mode) (h : Heap S) (c : Ref) (point : Option Ref) (x : Ref) :
    Except Failure (Heap S) :=
  match point with
  | none => insertBefore mode h c none x
  | some p => do
    let h ← insertAfter mode h c (some p) x
    .ok (swapSemantics h p x)

def remove (mode : Mode) (h : Heap S) (c x : Ref) : Except Failure (Heap S) := do
  checkChildren h c
  let h ← subtractFromSizes (removeLinks h c x) c (h.getSize x)
  updateGenerationCounts mode h c

/-- The loop of `removeLast`, with the size removed so far. -/
def popMany : Nat → Heap S → Ref → Nat → Except Failure (Nat × Heap S)
  | 0, h, _, removed => .ok (removed, h)
  | n + 1, h, c, removed => do
    let (x, h) ← popLast h c
    popMany n h c (removed + h.getSize x)

def removeLast (mode : Mode) (h : Heap S) (c : Ref) (n : Nat) : Except Failure (Heap S) := do
  checkChildren h c
  let (removed, h) ← popMany n h c 0
  let h ← subtractFromSizes h c removed
  updateGenerationCounts mode h c

def modifiedChildSize (mode : Mode) (h : Heap S) (c x : Ref) (added : Int) : Except Failure (Heap S) := do
  let h ← addToSizes h c added
  updateGenerationCounts mode h x

/-- A change of semantic with the matching `modifiedChildSize`. -/
def resize (mode : Mode) (h : Heap S) (c x : Ref) (s : S) : Except Failure (Heap S) :=
  modifiedChildSize mode (h.setSemantic x s) c x ((Sized.size s : Int) - Sized.size (h.semantic x))

def newBlock (h : Heap S) : Ref × Heap S :=
  (h.fresh, { h with
    kind := update h.kind h.fresh .block
    parent := update h.parent h.fresh none
    prev := update h.prev h.fresh none
    next := update h.next h.fresh none
    children := update h.children h.fresh []
    computedSize := update h.computedSize h.fresh 0
    position := update h.position h.fresh none
    fresh := h.fresh + 1 })

/-- "Clear old pointers and references from instructions." -/
def detach (h : Heap S) (x : Ref) : Heap S :=
  (((h.setPrev x none).setNext x none).setParent x none).setPosition x none

/-- Moving one instruction to the new block. -/
def moveTo (mode : Mode) (b : Ref) (h : Heap S) (x : Ref) : Except Failure (Heap S) := do
  let h ← append mode h b x
  makePositionFor mode h b x

/-- The new block with its position, before anything is moved. -/
def placeNewBlock (mode : Mode) (h : Heap S) (c block point : Ref) : Except Failure (Ref × Heap S) := do
  let (nb, h) := newBlock h
  let (a, h) ← h.getAddress point
  let (b, h) ← h.getAddress c
  let (p, h) ← mode.makePosition h (some block) nb (a - b)
  .ok (nb, h.setPosition nb (some p))

/-- "Staging area to temporarily store Instructions being moved from block to newBlock." -/
def moveSuffix (mode : Mode) (h : Heap S) (c block nb : Ref) (moved : List Ref) : Except Failure (Heap S) := do
  let h ← removeLast mode h block moved.length
  let h ← moved.foldlM (moveTo mode nb) (moved.foldl detach h)
  insertAfter mode h c (some block) nb

def splitBlockBefore (mode : Mode) (h : Heap S) (c point : Ref) : Except Failure (Heap S) :=
  match h.parent point with
  | none => .error .assertion
  | some block =>
    if h.kind block ≠ .block then .error .assertion
    else if h.children block = [] then .ok h
    else match (h.children block).idxOf? point with
      | none => .error .assertion
      | some leave => do
        let (nb, h) ← placeNewBlock mode h c block point
        moveSuffix mode h c block nb ((h.children block).drop leave)

end

end Mutator

end Egalito
