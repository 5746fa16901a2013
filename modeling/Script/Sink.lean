/-!
# Where output goes

A sink is given text by text. It takes all the bytes of a text, or takes some and refuses the rest;
what it does may depend on everything it was given before.

- `Sink`, `Refusal`: a sink, and how it refuses.
- `Sink.new`: the sinks that take bytes without end or up to a limit.
- `Sink.write`, `Sink.writeLine`: the sink after a text or a line, and why it did not take it all.
- `Sink.textFrom`: what was written from some byte on, as text.
-/

namespace Script

/-- How many bytes of a text are taken before the sink fails, and why it fails. -/
structure Refusal where
  taken : Nat
  reason : String
  deriving DecidableEq, Inhabited

/-- A place for output. -/
structure Sink where
  /-- The bytes taken so far. -/
  written : ByteArray
  /-- The texts given so far, the latest in front, whether or not they were taken. -/
  offered : List String
  /-- What happens to the next text when these bytes were taken and these texts were given. -/
  refusal? : ByteArray → List String → String → Option Refusal

namespace Sink

/-- A sink to which nothing has been written. The text that crosses the limit is cut there. -/
def new (limit : Option Nat) : Sink where
  written := .empty
  offered := []
  refusal? written _ text :=
    match limit with
    | none => none
    | some n =>
      let room := n - written.size
      if text.utf8ByteSize ≤ room then none else some ⟨room, "closed"⟩

/-- Writes a text, or as much of it as the sink takes; says why it did not take all. A sink is not
asked to take nothing. -/
def write (s : Sink) (text : String) : Sink × Option String :=
  if text.isEmpty then (s, none)
  else
    match s.refusal? s.written s.offered text with
    | none => ({ s with written := s.written ++ text.toUTF8, offered := text :: s.offered }, none)
    | some r =>
      ({ s with
        written := s.written ++ text.toUTF8.extract 0 r.taken
        offered := text :: s.offered }, some r.reason)

/-- Writes a text and then a line feed, unless the text was not taken. -/
def writeLine (s : Sink) (text : String) : Sink × Option String :=
  match s.write text with
  | (s, none) => s.write "\n"
  | failed => failed

/-- Bytes as text. A character that is cut off at the end reads as the replacement character. -/
def decode (bytes : ByteArray) : String :=
  let whole := (List.range 4).findSome? fun missing =>
    (String.fromUTF8? (bytes.extract 0 (bytes.size - missing))).map fun text =>
      if missing = 0 then text else text ++ "\ufffd"
  whole.getD ""

/-- What was written behind the first `start` bytes, as text. -/
def textFrom (s : Sink) (start : Nat) : String :=
  decode (s.written.extract start s.written.size)

/-- All that was written, as text. -/
def text (s : Sink) : String := s.textFrom 0

end Sink

end Script
