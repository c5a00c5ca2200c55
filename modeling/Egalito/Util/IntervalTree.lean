/-
The interval tree of `util/intervaltree.h` and `util/intervaltree.cpp`. `IntervalTreeNode::add` allocates the child it
descends into, so it takes fuel, and `Failure.diverged` stands for a recursion that has not ended with it.
-/
import Egalito.Util.Range

namespace Egalito

inductive IntervalTreeNode where
  | null
  | node (totalRange : Range) (midpoint : Address) (lower higher : IntervalTreeNode)
      (overlapStart overlapEnd : List Range)
  deriving DecidableEq, Repr, Inhabited

namespace IntervalTreeNode

def make (totalRange : Range) : IntervalTreeNode :=
  .node totalRange (totalRange.start + totalRange.size / 2) .null .null [] []

/-- The child a pointer leads to, allocated over the given endpoints when it is null. -/
def childOr (child : IntervalTreeNode) (start stop : Address) : Except Failure IntervalTreeNode :=
  match child with
  | .null => do return make (← Range.fromEndpoints start stop)
  | n => .ok n

def add : Nat → IntervalTreeNode → Range → Except Failure (Bool × IntervalTreeNode)
  | 0, _, _ => .error .diverged
  | _ + 1, .null, _ => .error .assertion
  | fuel + 1, .node total mid lower higher overlapStart overlapEnd, range =>
    if total.contains range = false then
      .ok (false, .node total mid lower higher overlapStart overlapEnd)
    else if range.before mid then do
      let (added, lower) ← add fuel (← childOr lower total.start mid) range
      return (added, .node total mid lower higher overlapStart overlapEnd)
    else if range.containsPoint mid then
      .ok (true, .node total mid lower higher
        ((overlapStart ++ [range]).insertionSort Range.StartLe)
        ((overlapEnd ++ [range]).insertionSort Range.EndLe))
    else do
      let (added, higher) ← add fuel (← childOr higher mid total.getEnd) range
      return (added, .node total mid lower higher overlapStart overlapEnd)

def remove : IntervalTreeNode → Range → Except Failure (Bool × IntervalTreeNode)
  | .null, _ => .ok (false, .null)
  | .node total mid lower higher overlapStart overlapEnd, range =>
    if range.before mid then do
      let (removed, lower) ← remove lower range
      return (removed, .node total mid lower higher overlapStart overlapEnd)
    else if range.after mid then do
      let (removed, higher) ← remove higher range
      return (removed, .node total mid lower higher overlapStart overlapEnd)
    else
      let removed1 := overlapStart.contains range
      let removed2 := overlapEnd.contains range
      -- assert((removed1 && removed2) || (!removed1 && !removed2))
      if removed1 == removed2 then
        .ok (removed1 && removed2, .node total mid lower higher
          (overlapStart.erase range) (overlapEnd.erase range))
      else .error .assertion

/-- The scan of `overlapStart`: stop at the first range that starts after the point. -/
def scanStart (point : Address) : List Range → List Range
  | [] => []
  | r :: rs =>
    (if r.containsPoint point then [r] else []) ++
      (if r.after point then [] else scanStart point rs)

/-- The scan of `overlapEnd`: stop at the first range that ends at or before the point. -/
def scanEnd (point : Address) : List Range → List Range
  | [] => []
  | r :: rs =>
    (if r.containsPoint point then [r] else []) ++
      (if r.before point then [] else scanEnd point rs)

def findOverlappingPoint : IntervalTreeNode → Address → List Range
  | .null, _ => []
  | .node _ mid lower higher overlapStart overlapEnd, point =>
    if point < mid then lower.findOverlappingPoint point ++ scanStart point overlapStart
    else scanEnd point overlapEnd ++ higher.findOverlappingPoint point

def findOverlapping : IntervalTreeNode → Range → List Range
  | .null, _ => []
  | .node _ mid lower higher overlapStart _, range =>
    let searchHigher := !range.before mid
    let searchLower := !(range.after mid || mid == range.start)
    (if searchLower then lower.findOverlapping range else []) ++
      overlapStart.filter (fun r => r.overlaps range) ++
      (if searchHigher then higher.findOverlapping range else [])

def findLowerBound : IntervalTreeNode → Address → Option Range
  | .null, _ => none
  | .node _ mid lower higher _ overlapEnd, point =>
    (if mid ≤ point then higher.findLowerBound point else none) <|>
      overlapEnd.reverse.find? (fun r => r.before point) <|>
      lower.findLowerBound point

def findLowerBoundOrOverlapping : IntervalTreeNode → Address → Option Range
  | .null, _ => none
  | .node _ mid lower higher _ overlapEnd, point =>
    (if mid ≤ point then higher.findLowerBoundOrOverlapping point else none) <|>
      overlapEnd.reverse.find? (fun r => r.before point || r.containsPoint point) <|>
      lower.findLowerBoundOrOverlapping point

def findUpperBound : IntervalTreeNode → Address → Option Range
  | .null, _ => none
  | .node _ mid lower higher overlapStart _, point =>
    (if point < mid then lower.findUpperBound point else none) <|>
      overlapStart.find? (fun r => r.after point) <|>
      higher.findUpperBound point

def findUpperBoundOrOverlapping : IntervalTreeNode → Address → Option Range
  | .null, _ => none
  | .node _ mid lower higher overlapStart _, point =>
    (if point < mid then lower.findUpperBoundOrOverlapping point else none) <|>
      overlapStart.find? (fun r => r.after point || r.containsPoint point) <|>
      higher.findUpperBoundOrOverlapping point

/-- `inStartOrderTraversal`: the ranges in the order the callback sees them. -/
def inStartOrderTraversal : IntervalTreeNode → List Range
  | .null => []
  | .node _ _ lower higher overlapStart _ =>
    lower.inStartOrderTraversal ++ overlapStart ++ higher.inStartOrderTraversal

def getTotalRange : IntervalTreeNode → Range
  | .null => default
  | .node total _ _ _ _ _ => total

end IntervalTreeNode

structure IntervalTree where
  tree : IntervalTreeNode
  deriving DecidableEq, Repr, Inhabited

namespace IntervalTree

def make (totalRange : Range) : IntervalTree := ⟨IntervalTreeNode.make totalRange⟩

def add (fuel : Nat) (t : IntervalTree) (range : Range) : Except Failure (Bool × IntervalTree) := do
  let (added, tree) ← t.tree.add fuel range
  return (added, ⟨tree⟩)

def remove (t : IntervalTree) (range : Range) : Except Failure (Bool × IntervalTree) := do
  let (removed, tree) ← t.tree.remove range
  return (removed, ⟨tree⟩)

def findOverlappingPoint (t : IntervalTree) (point : Address) : List Range :=
  t.tree.findOverlappingPoint point

def findOverlapping (t : IntervalTree) (range : Range) : List Range := t.tree.findOverlapping range

def findLowerBound (t : IntervalTree) (point : Address) : Option Range := t.tree.findLowerBound point

def findLowerBoundOrOverlapping (t : IntervalTree) (point : Address) : Option Range :=
  t.tree.findLowerBoundOrOverlapping point

def findUpperBound (t : IntervalTree) (point : Address) : Option Range := t.tree.findUpperBound point

def findUpperBoundOrOverlapping (t : IntervalTree) (point : Address) : Option Range :=
  t.tree.findUpperBoundOrOverlapping point

def getAllData (t : IntervalTree) : List Range := t.tree.inStartOrderTraversal

def addEndpoints (fuel : Nat) (t : IntervalTree) (start stop : Address) : Except Failure IntervalTree := do
  return (← t.add fuel (← Range.fromEndpoints start stop)).2

def splitAt (fuel : Nat) (t : IntervalTree) (point : Address) :
    Except Failure (Bool × IntervalTree) :=
  if t.tree.getTotalRange.containsPoint point = false then .ok (false, t)
  else match t.findOverlappingPoint point with
    | [r] =>
      if point != r.start && point != r.getEnd then do
        let (_, t) ← t.remove r
        let t ← t.addEndpoints fuel r.start point
        let t ← t.addEndpoints fuel point r.getEnd
        return (true, t)
      else .ok (true, t)
    | _ => .ok (false, t)

/-- One overlapping range of `subtract` or `subtractWithAddendum` is removed, and what lies outside the window is added
    back. -/
def subtractOne (fuel : Nat) (start stop : Address) (t : IntervalTree) (r : Range) :
    Except Failure IntervalTree := do
  let (_, t) ← t.remove r
  let t ← (if r.start < start then t.addEndpoints fuel r.start start else .ok t)
  if stop < r.getEnd then t.addEndpoints fuel stop r.getEnd else .ok t

def subtract (fuel : Nat) (t : IntervalTree) (range : Range) : Except Failure IntervalTree :=
  (t.findOverlapping range).foldlM (subtractOne fuel range.start range.getEnd) t

def subtractWithAddendum (fuel : Nat) (t : IntervalTree) (range addendum : Range) :
    Except Failure IntervalTree :=
  (t.findOverlapping range).foldlM (subtractOne fuel range.start addendum.getEnd) t

/-- The callback of `complement`, with `newTree` and `lastPoint`. -/
def addGap (fuel : Nat) (s : IntervalTree × Address) (r : Range) : Except Failure (IntervalTree × Address) := do
  let newTree ← (if s.2 < r.start then s.1.addEndpoints fuel s.2 r.start else .ok s.1)
  .ok (newTree, if s.2 < r.getEnd then r.getEnd else s.2)

def complement (fuel : Nat) (t : IntervalTree) : Except Failure IntervalTree := do
  let bounds := t.tree.getTotalRange
  let (newTree, lastPoint) ← t.tree.inStartOrderTraversal.foldlM (addGap fuel) (make bounds, bounds.start)
  if lastPoint < bounds.getEnd then newTree.addEndpoints fuel lastPoint bounds.getEnd else .ok newTree

/-- Adds a list of ranges in order; the results of the single calls are not looked at. -/
def addAll (fuel : Nat) (t : IntervalTree) (ranges : List Range) : Except Failure IntervalTree :=
  ranges.foldlM (fun t r => do return (← t.add fuel r).2) t

def unionWith (fuel : Nat) (t otherTree : IntervalTree) : Except Failure IntervalTree :=
  t.addAll fuel otherTree.tree.inStartOrderTraversal

end IntervalTree

end Egalito
