import FortressLang.Proofs.SourceExpr
import FortressLang.Proofs.WrittenWords
import FortressLang.Statement

/-! Programs as they are written: the words of each statement in order, and the program that they
mean once each of their sums means an expression. -/
namespace FortressLang
namespace Source

structure Condition where
  lhs : Sum
  comparison : Comparison
  rhs : Sum

inductive Statement
  | assign (target : String) (value : Sum)
  | onlyIf (condition : Condition) (thenPart : List Statement)
  | ifElse (condition : Condition) (thenPart elsePart : List Statement)
  | loop (condition : Condition) (body : List Statement)
  | print (name : String)
  | read (name : String)

structure Program where
  name : String
  statements : List Statement

def isVariable (x : String) : Bool :=
  match x.toList with
  | c :: cs => c.isLower && cs.all Piece.isVarChar
  | [] => false

def isProgramName (x : String) : Bool :=
  match x.toList with
  | c :: cs => c.isUpper && cs.all Piece.isNameChar && (Terminal.keyword? x).isNone
  | [] => false

mutual

def Sum.wellNamed : Sum → Bool
  | .of first rest => first.wellNamed && rest.wellNamed

def SumRest.wellNamed : SumRest → Bool
  | .stop => true
  | .step _ next rest => next.wellNamed && rest.wellNamed

def Product.wellNamed : Product → Bool
  | .of first rest => first.wellNamed && rest.wellNamed

def ProductRest.wellNamed : ProductRest → Bool
  | .stop => true
  | .step _ next rest => next.wellNamed && rest.wellNamed

def Atom.wellNamed : Atom → Bool
  | .named x => isVariable x
  | .number n => decide (0 ≤ n)
  | .minus inner => inner.wellNamed
  | .group inner => inner.wellNamed

end

def Condition.wellNamed (c : Condition) : Bool := c.lhs.wellNamed && c.rhs.wellNamed

mutual

def Statement.wellNamed : Statement → Bool
  | .assign target value => isVariable target && value.wellNamed
  | .onlyIf c ts => c.wellNamed && wellNamedAll ts
  | .ifElse c ts es => c.wellNamed && wellNamedAll ts && wellNamedAll es
  | .loop c ss => c.wellNamed && wellNamedAll ss
  | .print name | .read name => isVariable name

def Statement.wellNamedAll : List Statement → Bool
  | [] => true
  | s :: ss => s.wellNamed && wellNamedAll ss

end

def Program.wellNamed (p : Program) : Bool :=
  isProgramName p.name && Statement.wellNamedAll p.statements

def variableWord (x : String) : Word := ⟨.varName, x⟩

def numberWord (n : Int32) : Word := ⟨.number, Nat.repr n.toInt.toNat⟩

mutual

def Sum.words : Sum → List Word
  | .of first rest => first.words ++ rest.words

def SumRest.words : SumRest → List Word
  | .stop => []
  | .step minus next rest => .fixed (if minus then .minus else .plus) :: (next.words ++ rest.words)

def Product.words : Product → List Word
  | .of first rest => first.words ++ rest.words

def ProductRest.words : ProductRest → List Word
  | .stop => []
  | .step slash next rest =>
    .fixed (if slash then .divide else .times) :: (next.words ++ rest.words)

def Atom.words : Atom → List Word
  | .named x => [variableWord x]
  | .number n => [numberWord n]
  | .minus inner => .fixed .minus :: inner.words
  | .group inner => .fixed .lparen :: (inner.words ++ [.fixed .rparen])

end

def comparisonTerminal : Comparison → Terminal
  | .equal => .equal
  | .smaller => .smaller
  | .greater => .greater

def Condition.words (c : Condition) : List Word :=
  c.lhs.words ++ .fixed (comparisonTerminal c.comparison) :: c.rhs.words

/-- A condition between parentheses and two reserved words. -/
def Condition.headWords (c : Condition) (before after : Terminal) : List Word :=
  .fixed before :: .fixed .lparen :: (c.words ++ [.fixed .rparen, .fixed after])

mutual

/-- How a statement is written. Each statement of a block is followed by a comma. -/
def Statement.words : Statement → List Word
  | .assign target value => variableWord target :: .fixed .assign :: value.words
  | .onlyIf c ts => c.headWords .ifWord .thenWord ++ (wordsAll ts ++ [.fixed .endWord])
  | .ifElse c ts es =>
    c.headWords .ifWord .thenWord ++
      (wordsAll ts ++ .fixed .elseWord :: (wordsAll es ++ [.fixed .endWord]))
  | .loop c ss => c.headWords .whileWord .doWord ++ (wordsAll ss ++ [.fixed .endWord])
  | .print name => [.fixed .printWord, .fixed .lparen, variableWord name, .fixed .rparen]
  | .read name => [.fixed .readWord, .fixed .lparen, variableWord name, .fixed .rparen]

def Statement.wordsAll : List Statement → List Word
  | [] => []
  | s :: ss => s.words ++ .fixed .comma :: wordsAll ss

end

def Program.words (p : Program) : List Word :=
  .fixed .beginWord :: ⟨.progName, p.name⟩ :: (Statement.wordsAll p.statements ++ [.fixed .endWord])

section Meaning

variable (f : Sum → Expr)

def Condition.withSums (c : Condition) : FortressLang.Condition := ⟨f c.lhs, c.comparison, f c.rhs⟩

mutual

def Statement.withSums : Statement → FortressLang.Statement
  | .assign target value => .assign target (f value)
  | .onlyIf c ts => .branch (c.withSums f) (withSumsAll ts) []
  | .ifElse c ts es => .branch (c.withSums f) (withSumsAll ts) (withSumsAll es)
  | .loop c ss => .loop (c.withSums f) (withSumsAll ss)
  | .print name => .print name
  | .read name => .read name

def Statement.withSumsAll : List Statement → List FortressLang.Statement
  | [] => []
  | s :: ss => s.withSums :: withSumsAll ss

end

def Program.withSums (p : Program) : FortressLang.Program :=
  ⟨p.name, Statement.withSumsAll f p.statements⟩

end Meaning

mutual

/-- How deep a sum nests: its own node, and the nodes on a way down from it. -/
def Sum.nesting : Sum → Nat
  | .of first rest => max first.nesting rest.nesting + 1

def SumRest.nesting : SumRest → Nat
  | .stop => 0
  | .step _ next rest => max next.nesting rest.nesting + 1

def Product.nesting : Product → Nat
  | .of first rest => max first.nesting rest.nesting + 1

def ProductRest.nesting : ProductRest → Nat
  | .stop => 0
  | .step _ next rest => max next.nesting rest.nesting + 1

def Atom.nesting : Atom → Nat
  | .named _ | .number _ => 1
  | .minus inner => inner.nesting + 1
  | .group inner => inner.nesting + 1

end

def Condition.nesting (c : Condition) : Nat := max c.lhs.nesting c.rhs.nesting + 1

mutual

/-- A statement has two nodes of its own, and a part after `ELSE` has one more. Blocks have none. -/
def Statement.nesting : Statement → Nat
  | .assign _ value => value.nesting + 2
  | .onlyIf c ts => max c.nesting (nestingAll ts) + 2
  | .ifElse c ts es => max c.nesting (max (nestingAll ts) (nestingAll es + 1)) + 2
  | .loop c ss => max c.nesting (nestingAll ss) + 2
  | .print _ | .read _ => 2

def Statement.nestingAll : List Statement → Nat
  | [] => 0
  | s :: ss => max s.nesting (nestingAll ss)

end

def Program.nesting (p : Program) : Nat := Statement.nestingAll p.statements + 1

end Source
end FortressLang
