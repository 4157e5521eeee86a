import KeypadCalc.Expr.Basic
import KeypadCalc.Expr.Token

/-! The grammar of expressions, as an inductive relation between tokens and expressions:

    sum     := product (('+' | '-') product)*
    product := factor (('*' | '/' | '%') factor)*
    factor  := ('-' | '+') factor | number | '(' sum ')'

`Derives level budget tokens e` says that the tokens derive `e` at a level, no number in it standing
under more than `budget` signs and parentheses. -/

namespace KeypadCalc

namespace Token

/-- The operation that a token stands for between two products. -/
def additive? : Token → Option BinaryOp
  | plus => some .add
  | minus => some .sub
  | _ => none

/-- The operation that a token stands for between two factors. -/
def multiplicative? : Token → Option BinaryOp
  | times => some .mul
  | divide => some .div
  | percent => some .rem
  | _ => none

end Token

/-- The levels of the grammar, loosest first. -/
inductive Level
  | sum
  | product
  | factor
deriving DecidableEq, Repr

/-- The derivations of the grammar. -/
inductive Derives : Level → Nat → List Token → Expr → Prop
  | number {budget v} : Derives .factor budget [.number v] (.number v)
  | positive {budget ts e} :
      Derives .factor budget ts e → Derives .factor (budget + 1) (.plus :: ts) (.positive e)
  | negative {budget ts e} :
      Derives .factor budget ts e → Derives .factor (budget + 1) (.minus :: ts) (.negative e)
  | paren {budget ts e} :
      Derives .sum budget ts e →
        Derives .factor (budget + 1) (.leftParen :: ts ++ [.rightParen]) e
  | ofFactor {budget ts e} : Derives .factor budget ts e → Derives .product budget ts e
  | product {budget ts us t op e f} :
      Derives .product budget ts e → t.multiplicative? = some op → Derives .factor budget us f →
        Derives .product budget (ts ++ t :: us) (.binary op e f)
  | ofProduct {budget ts e} : Derives .product budget ts e → Derives .sum budget ts e
  | sum {budget ts us t op e f} :
      Derives .sum budget ts e → t.additive? = some op → Derives .product budget us f →
        Derives .sum budget (ts ++ t :: us) (.binary op e f)

end KeypadCalc
