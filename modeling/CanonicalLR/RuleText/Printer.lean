import CanonicalLR.Rule

/-!
# Writing rule text

`write` puts each rule on a line of its own, without alternatives.  A rule with
an empty right side has nothing after its arrow.
-/

set_option autoImplicit false

namespace CanonicalLR.RuleText

/-- A rule as a line of rule text, `A -> x B y`. -/
def writeRule (rule : Rule) : String :=
  rule.lhs ++ " ->" ++ Rule.spaced rule.rhs

def write (rules : List Rule) : String :=
  String.join (rules.map fun rule => writeRule rule ++ "\n")

end CanonicalLR.RuleText
