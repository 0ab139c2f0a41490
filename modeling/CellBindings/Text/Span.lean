/-!
Half-open byte ranges. A span is only a pair of offsets: it may be inverted or reach past a text,
and slicing a text decides whether it names a piece of it.
-/

namespace CellBindings

structure Span where
  start : Nat
  stop : Nat
  deriving DecidableEq, Repr

namespace Span

def emptyAt (offset : Nat) : Span := ⟨offset, offset⟩

/-- Number of bytes; an inverted span has none. -/
def length (a : Span) : Nat := a.stop - a.start

def isEmpty (a : Span) : Bool := a.stop ≤ a.start

/-- The smallest span that reaches over both. -/
def cover (a b : Span) : Span := ⟨min a.start b.start, max a.stop b.stop⟩

def contains (a b : Span) : Bool := a.start ≤ b.start && b.stop ≤ a.stop

def render (a : Span) : String := s!"{a.start}..{a.stop}"

end Span

end CellBindings
