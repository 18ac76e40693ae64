import ModalBounds.Syntax.Pattern

/-!
# The grammar of models and constraints

`Rule` names the rules of both languages, `Rule.body` is their grammar. Expressions bind, from
loose to tight: sums, products, unary minus, powers. A constraint names a target, its interval,
regions and a weight.
-/

namespace ModalBounds

/-- The rules of the grammar, in the order in which messages list them. -/
inductive Rule where
  | endOfInput
  | expressionFile
  | expression
  | addOp
  | term
  | mulOp
  | unary
  | negation
  | power
  | primary
  | call
  | var
  | identifier
  | quotedIdentifier
  | quotedName
  | number
  | constraintLine
  | constraintTarget
  | functionTarget
  | derivativeTarget
  | differential
  | order
  | constraintVar
  | boundInterval
  | bound
  | regionList
  | region
  | weightClause
deriving DecidableEq, Repr

namespace Rule

/-- The name that messages use. -/
def name : Rule → String
  | endOfInput => "EOI"
  | expressionFile => "expression_file"
  | expression => "expression"
  | addOp => "add_op"
  | term => "term"
  | mulOp => "mul_op"
  | unary => "unary"
  | negation => "negation"
  | power => "power"
  | primary => "primary"
  | call => "call"
  | var => "variable"
  | identifier => "identifier"
  | quotedIdentifier => "quoted_identifier"
  | quotedName => "quoted_name"
  | number => "number"
  | constraintLine => "constraint_line"
  | constraintTarget => "constraint_target"
  | functionTarget => "function_target"
  | derivativeTarget => "derivative_target"
  | differential => "partial"
  | order => "order"
  | constraintVar => "constraint_variable"
  | boundInterval => "bound_interval"
  | bound => "bound"
  | regionList => "region_list"
  | region => "region"
  | weightClause => "weight_clause"

def all : List Rule :=
  [endOfInput, expressionFile, expression, addOp, term, mulOp, unary, negation, power, primary,
    call, var, identifier, quotedIdentifier, quotedName, number, constraintLine, constraintTarget,
    functionTarget, derivativeTarget, differential, order, constraintVar, boundInterval, bound,
    regionList, region, weightClause]

theorem mem_all (r : Rule) : r ∈ all := by cases r <;> decide

open Pattern in
def body : Rule → Pattern Rule
  | endOfInput => atEnd
  | expressionFile => spaced atStart [rule expression, rule endOfInput]
  | expression => spaced (rule term) [spacedStar (spaced (rule addOp) [rule term])]
  | addOp => firstOf (exactly '+') [exactly '-']
  | term => spaced (rule unary) [spacedStar (spaced (rule mulOp) [rule unary])]
  | mulOp => firstOf (exactly '*') [exactly '/']
  | unary => firstOf (spaced (rule negation) [rule unary]) [rule power]
  | negation => exactly '-'
  | power => spaced (rule primary) [opt (spaced (exactly '^') [rule unary])]
  | primary =>
    firstOf (rule number)
      [rule call, rule var, spaced (exactly '(') [rule expression, exactly ')']]
  | call =>
    spaced (rule identifier)
      [exactly '(', rule expression, spacedStar (spaced (exactly ',') [rule expression]),
        exactly ')']
  | var => firstOf (rule identifier) [rule quotedIdentifier]
  | identifier =>
    tight (char fun c => c.isAlpha || c == '_') [star (char fun c => c.isAlphanum || c == '_')]
  | quotedIdentifier => tight (exactly '\'') [rule quotedName, exactly '\'']
  | quotedName => tightPlus (tight (notHere (exactly '\'')) [char fun _ => true])
  | number =>
    tight (tightPlus (char Char.isDigit))
      [opt (tight (exactly '.') [tightPlus (char Char.isDigit)]),
        opt (tight (char fun c => c == 'e' || c == 'E')
          [opt (firstOf (exactly '+') [exactly '-']), tightPlus (char Char.isDigit)])]
  | constraintLine =>
    spaced atStart
      [rule constraintTarget, word 'i' ['n'], rule boundInterval, opt (rule regionList),
        opt (rule weightClause), rule endOfInput]
  | constraintTarget => firstOf (rule derivativeTarget) [rule functionTarget]
  | functionTarget => exactly 'f'
  | derivativeTarget =>
    tight (rule differential)
      [opt (rule order), exactly 'f', exactly '/', rule differential, rule constraintVar,
        opt (rule order)]
  | differential => firstOf (exactly '∂') [exactly 'd']
  | order => firstOf (exactly '²') [exactly '³']
  | constraintVar => firstOf (rule identifier) [rule quotedIdentifier]
  | boundInterval =>
    spaced (exactly '[') [rule bound, word '.' ['.'], rule bound, exactly ']']
  | bound =>
    tight (opt (firstOf (exactly '+') [exactly '-']))
      [firstOf (word 'i' ['n', 'f']) [exactly '∞', rule number]]
  | regionList =>
    let item := spaced (exactly ',') [rule region]
    spaced item [spacedStar item]
  | region => spaced (rule constraintVar) [word 'i' ['n'], rule boundInterval]
  | weightClause =>
    spaced (opt (exactly ','))
      [word 'w' ['e', 'i', 'g', 'h', 't'], exactly ':', rule bound]

/-- Whether a rule's inside leaves no trace. -/
def isAtomic : Rule → Bool
  | identifier => true
  | quotedName => true
  | number => true
  | differential => true
  | order => true
  | bound => true
  | _ => false

end Rule

/-- Spaces, tabs and line ends may stand between the parts of a rule. -/
def isBlank (c : Char) : Bool := c == ' ' || c == '\t' || c == '\r' || c == '\n'

def modelGrammar : Grammar Rule where
  rules := Rule.all
  body := Rule.body
  isAtomic := Rule.isAtomic
  isBlank := isBlank

end ModalBounds
