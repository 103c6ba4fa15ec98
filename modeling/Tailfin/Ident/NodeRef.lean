import Mathlib.Data.Rat.Defs
import Mathlib.Algebra.Order.Ring.Unbundled.Rat

/-!
# Resolved identities

`IdentitySource` and `NodeRef` of `tailfin-ident`.
-/

namespace Tailfin

/-- Where a request's identity came from. -/
inductive IdentitySource where
  /-- Agent declared it. -/
  | declared (session : String) (node parent : Option String)
  /-- Inferred from a shared prefix at `sharedDepth` messages. -/
  | inferred (sharedDepth : Nat)
  /-- No usable signal. -/
  | anonymous
  deriving DecidableEq, Repr

/-- Rough confidence. The source's `f32` is a rational here. -/
def IdentitySource.confidence : IdentitySource → ℚ
  | .declared .. => 1
  | .inferred sharedDepth => max (1 / 4) (min (99 / 100) (sharedDepth / 32))
  | .anonymous => 0

/-- A resolved position in the task tree. -/
structure NodeRef where
  /-- Root of the task tree. The budget unit. -/
  root : String
  /-- This node. Equals `root` for a main-thread request. -/
  node : String
  /-- Parent node, when this is a subagent. -/
  parent : Option String
  source : IdentitySource
  deriving DecidableEq, Repr

namespace NodeRef

def isRoot (ref : NodeRef) : Bool := ref.node == ref.root

/-- The node `SessionIndex::resolve` gives a declared identity. A top-level subagent's parent is
the session root. -/
def declared (session : String) (node parent : Option String) : NodeRef where
  root := session
  node := node.getD session
  parent := parent.or (node.map fun _ => session)
  source := .declared session node parent

/-- The node it gives an undeclared one: the root of its own task. -/
def undeclared (root : String) (source : IdentitySource) : NodeRef where
  root := root
  node := root
  parent := none
  source := source

end NodeRef

end Tailfin
