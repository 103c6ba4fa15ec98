import Tailfin.Ident.NodeRef
import Tailfin.Wire.Usage

/-!
# Ledger records

`Record` of `tailfin-ledger`. A ledger is the list of the records appended to it; the clock is
read by the caller. The peak comes from a task, which never has `2 ^ 32` requests open.
-/

namespace Tailfin

def schemaVersion : Nat := 1

structure Record where
  schemaVersion : Nat
  taskId : String
  node : String
  parent : Option String
  confidence : ℚ
  incomplete : Bool
  input : UInt64
  output : UInt64
  cacheWrite5m : UInt64
  cacheWrite1h : UInt64
  cacheRead : UInt64
  reasoning : UInt64
  /-- Fewer than `2 ^ 32`. -/
  peakConcurrency : Nat
  tsUnixMs : Nat
  captureId : Option String
  deriving DecidableEq, Repr

namespace Record

def fromFinish (ref : NodeRef) (usage : Usage) (incomplete : Bool) (peakConcurrency now : Nat) :
    Record where
  schemaVersion := Tailfin.schemaVersion
  taskId := ref.root
  node := ref.node
  parent := ref.parent
  confidence := ref.source.confidence
  incomplete := incomplete
  input := usage.input
  output := usage.output
  cacheWrite5m := usage.cacheWrite5m
  cacheWrite1h := usage.cacheWrite1h
  cacheRead := usage.cacheRead
  reasoning := usage.reasoning
  peakConcurrency := peakConcurrency
  tsUnixMs := now
  captureId := none

def withCaptureId (r : Record) (id : String) : Record := { r with captureId := some id }

end Record

end Tailfin
