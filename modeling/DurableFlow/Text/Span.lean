/-
Places in a source text.

A position counts bytes, lines and characters of the current line, all from
zero; a span is a pair of positions. Positions are made by walking over the
text with `Pos.next`, so the three counts always describe the same place.
-/
set_option autoImplicit false

namespace DurableFlow.Text

/-- A place in a source text: bytes before it, newlines before it, characters since the last
newline. -/
structure Pos where
  offset : Nat := 0
  line : Nat := 0
  column : Nat := 0
deriving DecidableEq, Inhabited

namespace Pos

/-- The place after one more character. -/
def next (p : Pos) (c : Char) : Pos :=
  if c = '\n' then { offset := p.offset + c.utf8Size, line := p.line + 1, column := 0 }
  else { offset := p.offset + c.utf8Size, line := p.line, column := p.column + 1 }

/-- The place after some more characters. -/
def advance (p : Pos) (cs : List Char) : Pos :=
  cs.foldl next p

/-- The later of two places. -/
def latest (p q : Pos) : Pos :=
  if p.offset < q.offset then q else p

end Pos

/-- A stretch of source text. -/
structure Span where
  start : Pos := {}
  stop : Pos := {}
deriving DecidableEq, Inhabited

namespace Span

/-- The smallest span that covers both. -/
def merge (a b : Span) : Span :=
  { start := if a.start.offset ≤ b.start.offset then a.start else b.start
    stop := if b.stop.offset ≤ a.stop.offset then a.stop else b.stop }

/-- The line on which the span starts, counted from one as people do. -/
def lineNumber (s : Span) : Nat := s.start.line + 1

/-- Whether the span is the one of a node that came from no source text. -/
def isBlank (s : Span) : Bool := s == {}

end Span

end DurableFlow.Text
