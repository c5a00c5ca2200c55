/-
Links and instruction semantics, as far as the passes look at them.
-/
import Egalito.Chunk.Position

namespace Egalito

/-! ## Links -/

abbrev LinkScope := BitVec 3

def LinkScope.withinFunction : LinkScope := 1#3

/-- `(scope & s) == s`. -/
def LinkScope.matches (scope s : LinkScope) : Bool := scope &&& s == s

inductive Link
  | normal (target : Option Ref) (scope : LinkScope)
  | absoluteNormal (target : Option Ref) (scope : LinkScope)
  | offset (target : Option Ref) (offset : Address) (scope : LinkScope)
  | plt (trampoline : Address) (symbol : String)
  | externalSymbol (resolved : Option Ref) (offset : Address)
  | jumpTable (table : Address)
  | symbolOnly (target : Address)
  | loader (target : Address)
  | unresolved (target : Address)
  | unresolvedRelative (target : Address)
  | immAndDisp
  deriving DecidableEq, Repr

namespace Link

/-- The target if it is a chunk of the heap; a trampoline or table is neither block, instruction nor
function. `ImmAndDispLink` throws. -/
def getTarget : Link → Except Failure (Option Ref)
  | normal t _ | absoluteNormal t _ | offset t _ _ | externalSymbol t _ => .ok t
  | plt .. | jumpTable _ | symbolOnly _ | loader _ | unresolved _ | unresolvedRelative _ => .ok none
  | immAndDisp => .error .assertion

def isRIPRelative : Link → Bool
  | normal .. | offset .. | plt .. | jumpTable _ | symbolOnly _ | loader _ | unresolvedRelative _ => true
  | absoluteNormal .. | externalSymbol .. | unresolved _ | immAndDisp => false

/-- Only the links made with a scope can be within the function. -/
def isExternalJump : Link → Except Failure Bool
  | normal _ s | absoluteNormal _ s | offset _ _ s => .ok (!s.matches .withinFunction)
  | plt .. | externalSymbol .. | jumpTable _ | symbolOnly _ | loader _ | unresolved _ | unresolvedRelative _ => .ok true
  | immAndDisp => .error .assertion

/-- `target->getAddress()`, with the null pointer an error. -/
def chunkAddress {S : Type} [Sized S] (h : Heap S) : Option Ref → Except Failure (Address × Heap S)
  | none => .error .assertion
  | some t => h.getAddress t

def getTargetAddress {S : Type} [Sized S] (h : Heap S) : Link → Except Failure (Address × Heap S)
  | normal t _ | absoluteNormal t _ => chunkAddress h t
  | offset t o _ => do
    let (a, h) ← chunkAddress h t
    .ok (a + o, h)
  | externalSymbol none _ => .ok (0, h)
  | externalSymbol (some t) o => do
    let (a, h) ← h.getAddress t
    .ok (a + o, h)
  | plt a _ | jumpTable a | symbolOnly a | loader a | unresolved a | unresolvedRelative a => .ok (a, h)
  | immAndDisp => .error .assertion

end Link

/-! ## Semantics -/

/-- The instruction ids of the disassembler that the passes tell apart. -/
inductive InstrId
  | jmp | ja | jae | jb | jbe | jg | jge | jl | jle | jno | jnp | jns | jo | jp | js | je | jne
  | jcxz | jrcxz | jecxz
  | call
  | other (id : Nat)
  deriving DecidableEq, Repr

structure ControlFlow where
  id : InstrId
  opcode : List (BitVec 8)
  mnemonic : String
  displacementSize : Nat
  nonreturn : Bool
  link : Option Link
  deriving DecidableEq, Repr

namespace ControlFlow

def getSize (v : ControlFlow) : Nat := v.opcode.length + v.displacementSize

def returns (v : ControlFlow) : Bool := !v.nonreturn

end ControlFlow

/-- A jump table of the module: the function its descriptor names and the links of its entries. -/
structure JumpTable where
  function : Option Ref
  entries : List (Option Link)
  deriving DecidableEq, Repr

inductive Semantic
  /-- No control flow and no link: isolated, literal and stack frame instructions. -/
  | isolated (size : Nat)
  | linked (size : Nat) (link : Option Link)
  | controlFlow (v : ControlFlow)
  | dataLinkedControlFlow (size : Nat) (link : Option Link)
  | ret (size : Nat)
  | breakpoint (size : Nat)
  | indirectJump (size : Nat) (mnemonic : String) (jumpTables : List JumpTable)
  | indirectCall (size : Nat)
  deriving DecidableEq, Repr

namespace Semantic

def getSize : Semantic → Nat
  | isolated n | linked n _ | dataLinkedControlFlow n _ | ret n | breakpoint n | indirectJump n _ _ | indirectCall n => n
  | controlFlow v => v.getSize

instance : Sized Semantic := ⟨getSize⟩

def controlFlow? : Semantic → Option ControlFlow
  | controlFlow v => some v
  | _ => none

/-- `dynamic_cast<LinkedInstruction *>(..)->getLink()`. -/
def linkedLink : Semantic → Option Link
  | linked _ link => link
  | _ => none

/-- `dynamic_cast<ControlFlowInstruction *>(..)->getLink()`. -/
def controlFlowLink (s : Semantic) : Option Link := s.controlFlow?.bind (·.link)

end Semantic

end Egalito
