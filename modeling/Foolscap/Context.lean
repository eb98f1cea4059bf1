import Foolscap.Entry
import Foolscap.Ty.Subtype

/-!
# Contexts

What is known of the classes of a program: their members and their superclasses.  A context
outlives the program that filled it, so that later programs can be resolved against it.
-/

namespace Foolscap

/-- The members of a class, inherited ones first, and the entry of the class itself. -/
structure ClassInfo where
  members : Table Entry
  entry : Entry
  deriving Inhabited

/-- The classes known so far and their direct superclasses. -/
structure Context where
  classes : Table ClassInfo := []
  supers : Hierarchy := []
  deriving Inhabited

namespace Context

/-- Whether a name is that of a class. -/
def isClass (c : Context) (name : Text) : Bool := c.classes.has name

end Context

end Foolscap
