import Lox.Diagnostic

/-!
# Output

A sink keeps the bytes written to it. It can have a limit, up to which a write that does not
fit is still carried out, and it can refuse to flush.
-/
namespace Lox

structure Sink where
  written : ByteArray := .empty
  /-- How many bytes still fit; any number if there is no limit. -/
  room : Option Nat := none
  flushFails : Bool := false

namespace Sink

/-- Writes a text, or as much of it as fits. -/
def write (sink : Sink) (text : String) : Option OutputError × Sink :=
  let bytes := text.toUTF8
  match sink.room with
  | none => (none, { sink with written := sink.written ++ bytes })
  | some room =>
    if bytes.size ≤ room then
      (none, { sink with written := sink.written ++ bytes, room := some (room - bytes.size) })
    else
      (some .full, { sink with written := sink.written ++ bytes.extract 0 room, room := some 0 })

def flush (sink : Sink) : Option OutputError := if sink.flushFails then some .flush else none

end Sink
end Lox
