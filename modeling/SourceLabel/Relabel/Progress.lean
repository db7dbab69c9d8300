/-!
# Progress

A handle that a run reports to, and through which it can be asked to stop. Such a request is never taken
back. Counts are of the pass under way, and wrap around.
-/
namespace SourceLabel

structure Progress where
  /-- Zero before the first run. -/
  pass : Nat := 0
  entries : UInt64 := 0
  bytes : UInt64 := 0
  isCancelled : Bool := false
deriving DecidableEq, Repr

namespace Progress

def startPass (p : Progress) (pass : Nat) : Progress :=
  { p with pass, entries := 0, bytes := 0 }

def record (p : Progress) (size : Nat) : Progress :=
  { p with entries := p.entries + 1, bytes := p.bytes + UInt64.ofNat size }

def cancel (p : Progress) : Progress :=
  { p with isCancelled := true }

end Progress
end SourceLabel
