import TailLisp.Fault

namespace TailLisp

/-!
Notices.

A notice is a message to the user with its severity, the part of the program
it comes from and perhaps a place in the source.  Errors and warnings go to
one channel, information to another; either channel may be closed, and then
its notices vanish.
-/

/-- How serious a notice is. -/
inductive Severity where
  | error
  | warning
  | info
  deriving DecidableEq

/-- A message to the user. -/
structure Notice where
  severity : Severity
  origin : Option Position
  subsystem : Bytes
  message : Bytes

/-- Which channels are open. -/
structure Channels where
  errors : Bool
  info : Bool

namespace Severity

/-- The label in front of a notice. -/
def label : Severity -> Bytes
  | error => Bytes.ofText "[ERROR]"
  | warning => Bytes.ofText "[WARNING]"
  | info => Bytes.ofText "[INFO]"

end Severity

namespace Notice

/-- The text of a notice. -/
def render (notice : Notice) : Bytes :=
  let place := match notice.origin with
    | some pos => Bytes.ofText ": " ++ pos.spelling
    | none => []
  notice.severity.label ++ Bytes.ofText " " ++ notice.subsystem ++ place ++
    Bytes.ofText ":\n\t" ++ notice.message ++ Bytes.ofText "\n"

/-- A fault as an error at its place. -/
def ofFault (fault : Fault) : Notice :=
  { severity := .error
    origin := some fault.origin
    subsystem := fault.subsystem
    message := fault.message }

end Notice

namespace Channels

/-- Whether the channel for a severity is open. -/
def admits (channels : Channels) : Severity -> Bool
  | .error => channels.errors
  | .warning => channels.errors
  | .info => channels.info

/-- What a notice writes to the channel of its severity. -/
def emit (channels : Channels) (notice : Notice) : Bytes :=
  if channels.admits notice.severity then notice.render else []

end Channels

end TailLisp
