import Detachment.Formula.Basic
import Detachment.Text.Numeral

/-! # Infix notation

Formulas as people write them: signs between the arguments, and parentheses around every binary
formula except the outermost. -/

namespace Detachment.Formula

/-- Write a formula that stands inside another one in front of other characters; if it is binary, in
parentheses. -/
def infixOnto : Formula → List Char → List Char
  | var id, rest => Text.digits id ++ rest
  | unary op f, rest => op.sign :: f.infixOnto rest
  | binary op f g, rest => '(' :: f.infixOnto (op.sign :: g.infixOnto (')' :: rest))

/-- A formula in infix notation, such as `0→(1→0)`. Its outermost connective has no parentheses. -/
def infixText : Formula → String
  | binary op f g => String.ofList (f.infixOnto (op.sign :: g.infixOnto []))
  | f => String.ofList (f.infixOnto [])

end Detachment.Formula
