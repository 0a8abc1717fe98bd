import FortressLang.Decimal
import FortressLang.Expr
import FortressLang.Issue

/-! From the tree of a sum to an expression. The grammar leans to the right: `a - b + c` is `a`
followed by a rest that begins with the minus, itself followed by a rest. First each operator is
lifted to the node that owns the rest it begins. Then the lifted tree is read as a chain, in which
parentheses and signs are marked. Last, the chain is turned so that it evaluates from left to
right. -/
namespace FortressLang
namespace Tree

def Label.isChain : Label → Bool
  | .nonterminal a => a.isChain
  | .token _ => false

/-- A chain node takes its operator from the head of its second child, which is the rest. -/
def lift : Tree → Tree
  | node l (first :: node k (node (.token t) ts :: rest) :: more) =>
    if l.isChain then node (.token t) (first :: node k rest :: more)
    else node l (first :: node k (node (.token t) ts :: rest) :: more)
  | t => t

theorem sizeOf_lift_le (t : Tree) : sizeOf t.lift ≤ sizeOf t := by
  unfold lift
  split
  · split
    · simp only [node.sizeOf_spec, List.cons.sizeOf_spec, Label.token.sizeOf_spec]
      omega
    · exact Nat.le_refl _
  · exact Nat.le_refl _

/-- Every operator lifted, and nothing kept of what vanished. -/
def raise (t : Tree) : Tree :=
  node t.lift.label ((t.lift.children.filter (!·.isPlaceholder)).attach.map fun c => raise c.1)
termination_by sizeOf t
decreasing_by
  exact Nat.lt_of_lt_of_le (sizeOf_children_lt (List.mem_filter.mp c.2).1) (sizeOf_lift_le t)

theorem raise_eq (t : Tree) :
    t.raise = node t.lift.label ((t.lift.children.filter (!·.isPlaceholder)).map raise) := by
  rw [raise, List.attach_map_val]

end Tree

/-- An expression as it was written. The right-hand side of an operator is all that follows it in
its chain. -/
inductive Chain
  | operand (o : Operand)
  | binary (op : Operator) (lhs rhs : Chain)
  | group (inner : Chain)
  | negated (inner : Chain)
  deriving DecidableEq

namespace Chain

/-- What was met on the way down to an operand. -/
structure Marks where
  negated : Bool := false
  grouped : Bool := false
  deriving DecidableEq

namespace Marks

def operand (m : Marks) (v : Value) : Chain := .operand ⟨v, m.negated⟩

/-- The sign stands outside of the parentheses. -/
def wrap (m : Marks) (c : Chain) : Chain :=
  let c := if m.grouped then .group c else c
  if m.negated then .negated c else c

end Marks

/-- What a search has to end with. -/
def demand (t : Tree) : Marks ⊕ Chain → Except Issue Chain
  | .inl _ => .error (.malformedTree .operand t.label)
  | .inr c => .ok c

mutual

/-- Searches a lifted tree for its first operand or operator, depth first, or returns the marks met
with those it began with. -/
def search (m : Marks) : Tree → Except Issue (Marks ⊕ Chain)
  | .node (.nonterminal _) cs => searchAll m cs
  | .node (.token t) cs =>
    match t.terminal with
    | .lparen => .ok (.inl { m with grouped := true })
    | .rparen => .ok (.inl m)
    | .varName => .ok (.inr (m.operand (.variable t.lexeme)))
    | .number =>
      match Decimal.int32? t.lexeme.toList with
      | some n => .ok (.inr (m.operand (.constant n)))
      | none => .error (.numberOutOfRange t.lexeme t.pos)
    | terminal =>
      if terminal = .minus ∧ cs.isEmpty then .ok (.inl { m with negated := !m.negated })
      else
        match Operator.ofTerminal? terminal, cs with
        | none, _ => .error (.malformedTree .operator (.token t))
        | some op, [l, r] => do
          let lhs ← demand l (← search {} l)
          let rhs ← demand r (← search {} r)
          .ok (.inr (m.wrap (.binary op lhs rhs)))
        | some _, _ => .error (.malformedTree .twoOperands (.token t))

def searchAll (m : Marks) : List Tree → Except Issue (Marks ⊕ Chain)
  | [] => .ok (.inl m)
  | t :: ts => do
    match ← search m t with
    | .inl m => searchAll m ts
    | .inr c => .ok (.inr c)

end

/-- Reads a lifted tree. -/
def ofTree (t : Tree) : Except Issue Chain := do
  demand t (← search {} t)

mutual

/-- The expression that evaluates as the chain does from left to right. -/
def toExpr : Chain → Expr
  | operand o => .operand o
  | group inner => inner.toExpr
  | negated inner => inner.toExpr.negated
  | binary op lhs rhs =>
    if op.isAdditive then rhs.endSum op lhs.toExpr else rhs.endProduct op lhs.toExpr

/-- The sum of a first term and a rest. A subtracted term is added with the other sign, so that what
follows it in the chain stays as it is. -/
def endSum (op : Operator) (first : Expr) : Chain → Expr
  | operand o => .binary op first (.operand o)
  | group inner => .binary op first inner.toExpr
  | negated inner => .binary op first inner.toExpr.negated
  | binary next lhs rhs =>
    if next.isAdditive then
      if op = .sub then .binary .add first (rhs.endSum next lhs.toExpr.negated)
      else .binary op first (rhs.endSum next lhs.toExpr)
    else if op = .sub then .binary .add first (rhs.endProduct next lhs.toExpr).negated
    else .binary op first (rhs.endProduct next lhs.toExpr)

/-- The product of the factors so far and a rest. -/
def endProduct (op : Operator) (first : Expr) : Chain → Expr
  | operand o => .binary op first (.operand o)
  | group inner => .binary op first inner.toExpr
  | negated inner => .binary op first inner.toExpr.negated
  | binary next lhs rhs =>
    if next.isMultiplicative then rhs.endProduct next (.binary op first lhs.toExpr)
    else .binary op first (rhs.endSum next lhs.toExpr)

end

end Chain

/-- The expression written by the tree of a sum. -/
def Expr.ofTree (t : Tree) : Except Issue Expr :=
  Chain.toExpr <$> Chain.ofTree t.raise

end FortressLang
