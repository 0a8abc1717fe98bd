import FortressLang.Tree

/-! Everything that can be wrong with a grammar, a program or its tree, and how it is reported. -/
namespace FortressLang

/-- What a tree lacks where the reading of a program stops. -/
inductive Shape
  | nonterminal (a : Nonterminal)
  | programName | instruction | statement | assignedVariable | printedVariable | readVariable
  | comparedSums | comparisonMark | operator | twoOperands | operand
  deriving DecidableEq

inductive Issue
  | unknownCharacter (c : Char) (pos : Position)
  | numberOutOfRange (lexeme : String) (pos : Position)
  | unterminatedComment (pos : Position)
  | unknownGrammarSymbol (line : Nat) (spelling : String)
  | missingLeftHandSide (line : Nat)
  | emptyRightHandSide (line : Nat)
  | emptyGrammar
  | grammarConflict (a : Nonterminal) (t : Terminal) (first second : Nat)
  | grammarMismatch (a : Nonterminal) (found : Token)
  | tokenMismatch (expected : Terminal) (found : Token)
  | trailingInput (found : Token)
  | nestingTooDeep (limit : Nat) (found : Token)
  | endlessExpansion (a : Nonterminal)
  | malformedTree (expected : Shape) (found : Tree.Label)
  | nothingToDraw
  deriving DecidableEq

def Shape.text : Shape → String
  | nonterminal a => a.spelling
  | programName => "a program name"
  | instruction => "an instruction"
  | statement => "an assignment, IF, WHILE, PRINT or READ"
  | assignedVariable => "an assigned variable"
  | printedVariable => "a printed variable"
  | readVariable => "a read variable"
  | comparedSums => "two compared expressions"
  | comparisonMark => "a comparison operator"
  | operator => "an arithmetic operator"
  | twoOperands => "an operator with two operands"
  | operand => "an operand"

def Issue.message : Issue → String
  | unknownCharacter c p => p.text ++ ": unknown character encountered: " ++ c.toString
  | numberOutOfRange n p => p.text ++ ": number " ++ n ++ " does not fit in a 32-bit signed integer"
  | unterminatedComment p => p.text ++ ": comment is never closed"
  | unknownGrammarSymbol n s => "grammar line " ++ toString n ++ ": unknown symbol " ++ s
  | missingLeftHandSide n =>
    "grammar line " ++ toString n ++ ": the left-hand side must be a nonterminal"
  | emptyRightHandSide n =>
    "grammar line " ++ toString n ++ ": the production has no right-hand side"
  | emptyGrammar => "the grammar description contains no productions"
  | grammarConflict a t first second =>
    "the grammar is not LL(1): rules " ++ toString first ++ " and " ++ toString second ++
      " both apply to " ++ a.spelling ++ " on " ++ t.spelling
  | grammarMismatch a t => "no applicable production for " ++ a.spelling ++ " on " ++ t.text
  | tokenMismatch t found => "expected " ++ t.spelling ++ ", found " ++ found.text
  | trailingInput t => "expected end of input, found " ++ t.text
  | nestingTooDeep limit t => "nesting deeper than " ++ toString limit ++ " levels at " ++ t.text
  | endlessExpansion a => "the expansion of " ++ a.spelling ++ " never ends"
  | malformedTree expected found =>
    "unexpected parse tree shape: expected " ++ expected.text ++ ", found " ++ found.text
  | nothingToDraw => "the program has no instruction to export"

end FortressLang
