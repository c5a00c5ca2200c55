/-
The order in which the analyses visit the nodes of a graph (`analysis/walker.h`): strongly connected components, the
last one found first.

The definitions only: what is proved of them stands in `Analysis.Components`.
-/
import Egalito.Lib.DepthFirst
import Egalito.Util.Range

namespace Egalito.SccOrder

open Lib List
open Function (update update_of_ne update_self)

variable {n : Nat}

/-! ## The walk -/

/-- The state of DFSWalkerBase and SccCollection. Stacks and `sccOrder` have the latest first. -/
structure Walk (n : Nat) where
  visited : Fin n → Bool
  disc : Nat
  discovery : Fin n → Nat
  lowLink : Fin n → Nat
  onStack : Fin n → Bool
  stack : List (Fin n)
  poStack : List (Fin n)
  sccOrder : List (List (Fin n))

def Walk.new (n : Nat) : Walk n := ⟨fun _ => false, 0, fun _ => 0, fun _ => 0, fun _ => false, [], [], []⟩

def preVisit (w : Walk n) (id : Fin n) : Walk n :=
  { w with
    discovery := update w.discovery id w.disc
    lowLink := update w.lowLink id w.disc
    stack := id :: w.stack
    onStack := update w.onStack id true
    disc := w.disc + 1 }

def lateVisit (w : Walk n) (source target : Fin n) : Walk n :=
  if w.onStack target then
    { w with lowLink := update w.lowLink source (min (w.lowLink source) (w.discovery target)) }
  else w

variable (targets : Fin n → List (Fin n))

/-- The loop of postVisit over the links, for one of them. -/
def lowerLink (id : Fin n) (w : Walk n) (target : Fin n) : Walk n :=
  if w.discovery id < w.discovery target then
    { w with lowLink := update w.lowLink id (min (w.lowLink id) (w.lowLink target)) }
  else w

/-- The node leaves the walk, with its component if it was the first of it. -/
def postVisit (w : Walk n) (id : Fin n) : Walk n :=
  let w := (targets id).foldl (lowerLink id) w
  let poStack := id :: w.poStack
  if w.discovery id = w.lowLink id then
    let count := (w.stack.takeWhile (· ≠ id)).length + 1
    { w with
      onStack := fun b => if b ∈ w.stack.take count then false else w.onStack b
      stack := w.stack.drop count
      poStack := poStack.drop count
      sccOrder := poStack.take count :: w.sccOrder }
  else { w with poStack := poStack }

/-- The loop of walkHelper over the links of `id`, for one of them. -/
def walkLink (walk : Walk n → Fin n → Except Failure (Walk n)) (id : Fin n) (w : Walk n) (target : Fin n) :
    Except Failure (Walk n) :=
  if w.visited target then .ok (lateVisit w id target) else walk w target

def walkHelper : Nat → Walk n → Fin n → Except Failure (Walk n)
  | 0, _, _ => .error .diverged
  | fuel + 1, w, id => do
    let w := preVisit { w with visited := update w.visited id true } id
    let w ← (targets id).foldlM (walkLink (walkHelper fuel) id) w
    return postVisit targets w id

def gen (id : Fin n) : Except Failure (List (List (Fin n))) := do
  let w ← walkHelper targets n (Walk.new n) id
  return w.sccOrder

/-- The loop of walkAll over the nodes, for one of them. -/
def walkRoot (fuel : Nat) (w : Walk n) (i : Fin n) : Except Failure (Walk n) :=
  if w.visited i then .ok w else walkHelper targets fuel w i

def walkAll [NeZero n] (fuel : Nat) : Except Failure (Walk n) := do
  let w ← walkHelper targets fuel (Walk.new n) 0
  (finRange n).tail.foldlM (walkRoot targets fuel) w

/-- genFull(0): the components are in the reverse order of their completion. -/
def genFull [NeZero n] : Except Failure (List (List (Fin n))) := do
  let w ← walkAll targets n
  return w.sccOrder

variable {targets} {w : Walk n} {id : Fin n}

theorem lateVisit_visited (source target : Fin n) : (lateVisit w source target).visited = w.visited := by
  unfold lateVisit
  split
  · rfl
  · rfl

theorem foldl_lowerLink_visited : ∀ (l : List (Fin n)) (w : Walk n), (l.foldl (lowerLink id) w).visited = w.visited
  | [], _ => rfl
  | target :: l, w => by
    rw [foldl_cons, foldl_lowerLink_visited l, lowerLink]
    split
    · rfl
    · rfl

theorem postVisit_visited : (postVisit targets w id).visited = w.visited := by
  unfold postVisit
  dsimp only
  split
  · exact foldl_lowerLink_visited _ w
  · exact foldl_lowerLink_visited _ w

def enter (w : Walk n) (id : Fin n) : Walk n := preVisit { w with visited := update w.visited id true } id

end Egalito.SccOrder
