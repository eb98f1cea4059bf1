/-!
# Ranges of code points

A class of characters is given by run lengths: so many code points outside it, so many inside, and
so on in turn.
-/

namespace Foolscap.Range

/-- Whether a code point lies in a class, counted from where the first run starts. -/
def covers : List Nat → Nat → Bool
  | out :: within :: runs, c =>
    if c < out then false else c < out + within || covers runs (c - (out + within))
  | _, _ => false

end Foolscap.Range
