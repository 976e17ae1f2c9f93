/-!
# Options

How a template is read.
-/

namespace Stencil

/-- What a caller may choose. -/
structure Options where
  /-- Whether reading goes on after a malformed item. Without recovery the first fault ends the
  reading, and the rest of the input is one error. -/
  recover : Bool
  /-- How many elements and operands may stand inside each other. -/
  maxDepth : Nat
  maxDepth_pos : 0 < maxDepth
deriving DecidableEq, Repr

/-- The options of a caller who chooses nothing. -/
def Options.standard : Options := ⟨false, 256, by decide⟩

end Stencil
