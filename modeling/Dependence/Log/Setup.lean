import Dependence.Options

/-!
# Setting up the log

The log has a level of its own, and everything is shown by a common root. The root is set up once,
by the first set-up that succeeds; the level of the log is set every time.
-/

namespace Dependence

/-- The state of the log. -/
structure LogSetup where
  /-- Rank of the level of this log. -/
  level : Nat := Level.notset.rank
  /-- Rank of the level of the root. -/
  rootLevel : Nat := Level.warning.rank
  /-- How the root shows a record; empty before the first set-up. -/
  formats : List String := []
deriving DecidableEq, Inhabited

/-- The way a record is shown: its level, then its message. -/
def LogSetup.format : String := "%(levelname)s: %(message)s"

/-- Set up the log for the options `o`. -/
def LogSetup.configure (s : LogSetup) (o : Options) : LogSetup :=
  let rank := o.logLevel.rank
  if s.formats.isEmpty then { level := rank, rootLevel := rank, formats := [LogSetup.format] }
  else { s with level := rank }

end Dependence
