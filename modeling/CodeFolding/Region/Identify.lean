import CodeFolding.Region.Blocks
import CodeFolding.Text.Lines

/-!
The regions of a source text: the import block first, then the blocks by their first lines.
-/

set_option autoImplicit false

namespace CodeFolding

/-- The rows of a text, nothing being open before it. -/
def rowsOf (source : List Char) : List Row := Row.ofLines .neutral (splitLines source)

/-- The regions of a text, each folded as the policy says. -/
def identify (policy : Policy) (source : List Char) : List Region :=
  let rows := rowsOf source
  let spans := importSpans rows
  let found := (importRegion? spans policy.imports).toList ++ blockRegions policy spans rows
  found.mergeSort Region.precedes

end CodeFolding
