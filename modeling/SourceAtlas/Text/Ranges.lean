/-!
# Character ranges

A set of characters given as a list of closed code-point ranges. Long tables are written as the lengths
of the stretches outside and inside the set, in turn.
-/

namespace SourceAtlas

abbrev Ranges := List (Nat × Nat)

/-- The ranges from `next` on whose lengths, each with the gap before it, are given. -/
def Ranges.ofLengths (next : Nat) : List Nat → Ranges
  | gap :: length :: rest =>
    (next + gap, next + gap + (length - 1)) :: ofLengths (next + gap + length) rest
  | _ => []

def Ranges.contains (ranges : Ranges) (c : Char) : Bool :=
  ranges.any fun range => decide (range.1 ≤ c.toNat) && decide (c.toNat ≤ range.2)

end SourceAtlas
