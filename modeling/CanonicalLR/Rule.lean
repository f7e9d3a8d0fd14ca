/-!
# Rules

A rule replaces one symbol by a sequence of symbols.  Symbols are named by
arbitrary strings, the empty string included.
-/

set_option autoImplicit false

namespace CanonicalLR

/-- A rule `lhs -> rhs` of a context-free grammar. -/
structure Rule where
  lhs : String
  /-- Empty for a rule that derives the empty word. -/
  rhs : List String
  deriving DecidableEq

namespace Rule

def spaced (names : List String) : String :=
  String.join (names.map fun name => " " ++ name)

/-- A rule is written `S -> a S b`, and `S -> ε` when its right side is
empty. -/
def text (rule : Rule) : String :=
  rule.lhs ++ " ->" ++ spaced (if rule.rhs.isEmpty then ["ε"] else rule.rhs)

end Rule

end CanonicalLR
