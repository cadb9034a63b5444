import MelScript.Command.Load
import MelScript.Files.Path
import MelScript.Server.State

/-! # Applying settings

  A client's value is first checked; a rejected one changes nothing. Then, in
  this order,

  1. the command table is loaded anew if the path of its file has changed; the
     bundled table takes its place if there is no path, or no table at it;
  2. a limiter with the new number of permits replaces the old one if the number
     has changed; more permits than a limiter can have break it for good and
     end the change here;
  3. the new settings come into force.
-/

namespace MelScript.Server

/-- How a change of settings ended. -/
inductive Applied where
  /-- The value was rejected. -/
  | rejected
  /-- The settings are in force. -/
  | accepted
  /-- The limiter broke. -/
  | crashed
  deriving DecidableEq, Repr

/-- The table at a path, or the bundled one. -/
def tableAt (read : Text → Option Text) : Option Text → CommandTable
  | none => .bundled
  | some path => match CommandTable.load read path with
    | .ok table => table
    | .error _ => .bundled

/-- Step 1: loads the table if the path has changed. -/
def reloadTable (read : Text → Option Text) (s : Server) (next : Settings) : Server :=
  if next.tablePath.map Path.components = s.settings.tablePath.map Path.components then s
  else { s with table := tableAt read next.tablePath }

/-- Step 2: the limiter for the next settings, or nothing if it breaks now. A limiter that is broken
already stays as it is. -/
def renewLimiter? (s : Server) (next : Settings) : Option Limiter :=
  if next.maxConcurrent = s.settings.maxConcurrent then some s.limiter
  else match s.limiter with
    | .broken => some .broken
    | .permits _ =>
      if next.maxConcurrent ≤ Limiter.capacity then some (.permits next.maxConcurrent) else none

/-- Puts a client's value into force. -/
def applySettings (read : Text → Option Text) (s : Server) (v : Json.Value) : Server × Applied :=
  match s.settings.update? v with
  | none => (s, .rejected)
  | some next =>
    let reloaded := s.reloadTable read next
    match s.renewLimiter? next with
    | none => ({ reloaded with limiter := .broken }, .crashed)
    | some limiter => ({ reloaded with settings := next, limiter }, .accepted)

end MelScript.Server
