import FortressLang.Proofs.SimplifiedMeaning
import FortressLang.Proofs.SumOperands

/-! What is written in a sum and what its expression is over. The operands stay in their order, and
so do the operators between them, of which only a plus may become a minus and a minus a plus. -/
namespace FortressLang

def Expr.operators : Expr → List Operator
  | operand _ => []
  | binary op lhs rhs => lhs.operators ++ op :: rhs.operators

def Chain.operators : Chain → List Operator
  | operand _ => []
  | binary op lhs rhs => lhs.operators ++ op :: rhs.operators
  | group inner => inner.operators
  | negated inner => inner.operators

/-- What an operator is when a plus and a minus are not told apart. -/
def Operator.unsigned : Operator → Operator
  | add | sub => add
  | mul => mul
  | div => div

@[simp] theorem Operator.unsigned_opposite (op : Operator) :
    op.opposite.unsigned = op.unsigned := by
  cases op <;> rfl

theorem Expr.unsigned_negated (e : Expr) :
    e.negated.operators.map Operator.unsigned = e.operators.map Operator.unsigned := by
  induction e with
  | operand o => rfl
  | binary op lhs rhs ih _ => simp [negated, operators, ih]

namespace Chain

theorem operators_wrap (m : Marks) (c : Chain) : (m.wrap c).operators = c.operators := by
  obtain ⟨negated, grouped⟩ := m
  cases negated <;> cases grouped <;> rfl

mutual

theorem unsigned_toExpr : ∀ c : Chain,
    c.toExpr.operators.map Operator.unsigned = c.operators.map Operator.unsigned
  | operand o => rfl
  | group inner => by rw [toExpr, operators, unsigned_toExpr inner]
  | negated inner => by rw [toExpr, operators, Expr.unsigned_negated, unsigned_toExpr inner]
  | binary op lhs rhs => by
    rw [toExpr, operators]
    split
    · simp [unsigned_endSum _ _ rhs, unsigned_toExpr lhs]
    · simp [unsigned_endProduct _ _ rhs, unsigned_toExpr lhs]

theorem unsigned_endSum (op : Operator) (first : Expr) : ∀ c : Chain,
    (c.endSum op first).operators.map Operator.unsigned =
      (first.operators ++ op :: c.operators).map Operator.unsigned
  | operand o => rfl
  | group inner => by simp [endSum, Expr.operators, operators, unsigned_toExpr inner]
  | negated inner => by
    simp [endSum, Expr.operators, operators, Expr.unsigned_negated, unsigned_toExpr inner]
  | binary next lhs rhs => by
    rw [endSum, operators]
    split <;> split <;> rename_i hop <;> try rw [hop]
    all_goals
      simp [Expr.operators, Expr.unsigned_negated, unsigned_endSum _ _ rhs,
        unsigned_endProduct _ _ rhs, unsigned_toExpr lhs, Operator.unsigned]

theorem unsigned_endProduct (op : Operator) (first : Expr) : ∀ c : Chain,
    (c.endProduct op first).operators.map Operator.unsigned =
      (first.operators ++ op :: c.operators).map Operator.unsigned
  | operand o => rfl
  | group inner => by simp [endProduct, Expr.operators, operators, unsigned_toExpr inner]
  | negated inner => by
    simp [endProduct, Expr.operators, operators, Expr.unsigned_negated, unsigned_toExpr inner]
  | binary next lhs rhs => by
    rw [endProduct, operators]
    split <;>
      simp [Expr.operators, unsigned_endSum _ _ rhs, unsigned_endProduct _ _ rhs,
        unsigned_toExpr lhs]

end

end Chain

/-- An operand ends with the token: with its name, its numeral, or the parenthesis that closes. -/
def Token.endsOperand (x : Token) : Bool := x.isOperand || x.terminal = .rparen

theorem Token.endsOperand_of_operator {x : Token} {op : Operator}
    (h : Operator.ofTerminal? x.terminal = some op) : x.endsOperand = false := by
  obtain ⟨terminal, lexeme, pos⟩ := x
  cases terminal <;> cases h <;> rfl

/-- The operators among the tokens that stand behind the end of an operand. A minus that stands
elsewhere is a sign. -/
def binaryOperators (behind : Bool) : List Token → List Operator
  | [] => []
  | x :: xs =>
    (if behind then (Operator.ofTerminal? x.terminal).toList else []) ++
      binaryOperators x.endsOperand xs

/-- The chain keeps what the tokens show: their operands, and their binary operators, whatever
stands behind them. -/
structure Chain.Keeps (ts : List Token) (c : Chain) : Prop where
  operands : List.Forall₂ Token.Denotes (ts.filter Token.isOperand) c.values
  operators (rest : List Token) :
    binaryOperators false (ts ++ rest) = c.operators ++ binaryOperators true rest

namespace Chain.Keeps

variable {ts us : List Token} {c lhs rhs : Chain} {x y : Token}

theorem wrap (h : Keeps ts c) (m : Marks) : Keeps ts (m.wrap c) where
  operands := by rw [values_wrap]; exact h.operands
  operators := by rw [operators_wrap]; exact h.operators

theorem operand {v : Value} (h : x.Denotes v) (m : Marks) : Keeps [x] (m.operand v) := by
  have hoperand : x.isOperand = true := by
    cases v <;> simp [Token.isOperand, h.1]
  refine ⟨?_, fun rest => ?_⟩
  · rw [List.filter_cons_of_pos hoperand]
    exact .cons h .nil
  · simp [binaryOperators, Token.endsOperand, hoperand, Marks.operand, Chain.operators]

/-- In front of an operand, a token that is none and ends none is not kept. -/
theorem mark (h : Keeps ts c) (hx : x.endsOperand = false) : Keeps (x :: ts) c := by
  have hoperand : x.isOperand = false := (Bool.or_eq_false_iff.mp hx).1
  refine ⟨?_, fun rest => ?_⟩
  · rw [List.filter_cons_of_neg (by simp [hoperand])]
    exact h.operands
  · simp [binaryOperators, hx, h.operators]

theorem parentheses (h : Keeps ts c) (hx : x.terminal = .lparen) (hy : y.terminal = .rparen) :
    Keeps (x :: ts ++ [y]) c := by
  have hopened : Keeps (x :: ts) c := h.mark (by simp [Token.endsOperand, Token.isOperand, hx])
  refine ⟨?_, fun rest => ?_⟩
  · rw [List.filter_append]
    simpa [Token.isOperand, hy] using hopened.operands
  · rw [List.append_assoc, hopened.operators]
    simp [binaryOperators, Token.endsOperand, hy, Operator.ofTerminal?]

theorem binary (hl : Keeps ts lhs) (hr : Keeps us rhs) {op : Operator}
    (hx : Operator.ofTerminal? x.terminal = some op) :
    Keeps (ts ++ x :: us) (.binary op lhs rhs) := by
  have hends := Token.endsOperand_of_operator hx
  have hoperand : x.isOperand = false := (Bool.or_eq_false_iff.mp hends).1
  refine ⟨?_, fun rest => ?_⟩
  · rw [List.filter_append, List.filter_cons_of_neg (by simp [hoperand])]
    exact List.rel_append hl.operands hr.operands
  · rw [List.append_assoc, hl.operators, List.cons_append, binaryOperators, hends, hr.operators]
    simp [hx, Chain.operators]

end Chain.Keeps

namespace Source

open Chain (Keeps Marks)

mutual

/-- The chain of a written sum keeps what the tokens of its tree show. -/
theorem Sum.keeps (s : Sum) {t : Tree} (h : s.Spelled t) (m : Marks) :
    Keeps t.tokens (s.chain m) := by
  cases s with
  | of first rest =>
    obtain ⟨p, r, rfl, hp, hr⟩ := h
    rw [Tree.tokens_nonterminal, List.flatMap_cons, List.flatMap_singleton]
    exact rest.keeps (first.keeps hp) hr m

theorem SumRest.keeps (rest : SumRest) {ts : List Token} {first : Marks → Chain}
    (hfirst : ∀ m, Keeps ts (first m)) {r : Tree} (h : rest.Spelled r) (m : Marks) :
    Keeps (ts ++ r.tokens) (rest.chain first m) := by
  cases rest with
  | stop =>
    obtain rfl := h
    rw [Tree.tokens_nonterminal, List.flatMap_nil, List.append_nil]
    exact hfirst m
  | step minus next rest =>
    obtain ⟨o, p, r, rfl, ho, hp, hr⟩ := h
    have hop : Operator.ofTerminal? o.terminal = some (additive minus) := by
      rw [ho]
      cases minus <;> rfl
    have hsides := (hfirst {}).binary (rest.keeps (next.keeps hp) hr {}) hop
    simpa [Tree.tokens_nonterminal, SumRest.chain] using hsides.wrap m

theorem Product.keeps (p : Product) {t : Tree} (h : p.Spelled t) (m : Marks) :
    Keeps t.tokens (p.chain m) := by
  cases p with
  | of first rest =>
    obtain ⟨a, r, rfl, ha, hr⟩ := h
    rw [Tree.tokens_nonterminal, List.flatMap_cons, List.flatMap_singleton]
    exact rest.keeps (first.keeps ha) hr m

theorem ProductRest.keeps (rest : ProductRest) {ts : List Token} {first : Marks → Chain}
    (hfirst : ∀ m, Keeps ts (first m)) {r : Tree} (h : rest.Spelled r) (m : Marks) :
    Keeps (ts ++ r.tokens) (rest.chain first m) := by
  cases rest with
  | stop =>
    obtain rfl := h
    rw [Tree.tokens_nonterminal, List.flatMap_nil, List.append_nil]
    exact hfirst m
  | step slash next rest =>
    obtain ⟨o, a, r, rfl, ho, ha, hr⟩ := h
    have hop : Operator.ofTerminal? o.terminal = some (multiplicative slash) := by
      rw [ho]
      cases slash <;> rfl
    have hsides := (hfirst {}).binary (rest.keeps (next.keeps ha) hr {}) hop
    simpa [Tree.tokens_nonterminal, ProductRest.chain] using hsides.wrap m

theorem Atom.keeps (a : Atom) {t : Tree} (h : a.Spelled t) (m : Marks) :
    Keeps t.tokens (a.chain m) := by
  cases a with
  | named x =>
    obtain ⟨v, rfl, hv, rfl⟩ := h
    simpa [Tree.tokens_nonterminal, Atom.chain] using
      Keeps.operand (v := .variable v.lexeme) ⟨hv, rfl⟩ m
  | number n =>
    obtain ⟨v, rfl, hv, hn⟩ := h
    simpa [Tree.tokens_nonterminal, Atom.chain] using
      Keeps.operand (v := .constant n) ⟨hv, hn⟩ m
  | minus inner =>
    obtain ⟨o, a, rfl, ho, ha⟩ := h
    have hsign : o.endsOperand = false := by simp [Token.endsOperand, Token.isOperand, ho]
    simpa [Tree.tokens_nonterminal, Atom.chain] using
      (inner.keeps ha { m with negated := !m.negated }).mark hsign
  | group inner =>
    obtain ⟨l, s, r, rfl, hl, hr, hs⟩ := h
    simpa [Tree.tokens_nonterminal, Atom.chain] using
      (inner.keeps hs { m with grouped := true }).parentheses hl hr

end

end Source

/-- For every sum in the tree of a parsed text there is an expression, whose operands are the names
and the numerals in the sum, in the same order, and whose operators are the binary operators in the
sum, in the same order, if a plus and a minus are not told apart. -/
theorem simplified_sum_keeps_operands {table : Table} (ht : Table.build .fortress = .ok table)
    {text : String} {tree t : Tree}
    (h : (Parser.run table (.ofStream (.ofText text))).1 = .ok tree) (hw : t.Within tree)
    (hs : t.nonterminal? = some .sum) :
    ∃ e, Expr.ofTree t = .ok e ∧ List.Forall₂ Token.Denotes t.operands e.values ∧
      e.operators.map Operator.unsigned =
        (binaryOperators false t.tokens).map Operator.unsigned := by
  obtain ⟨w, n, hd, hnumerals⟩ := derives_of_parsed ht h hw hs
  obtain ⟨s, hspelled⟩ := Source.exists_spelled hd hnumerals
  have hkeeps := s.keeps hspelled {}
  refine ⟨_, s.ofTree_spelled hspelled, ?_, ?_⟩
  · rw [Chain.values_toExpr]
    exact hkeeps.operands
  · have hshown := hkeeps.operators []
    rw [List.append_nil, binaryOperators, List.append_nil] at hshown
    rw [Chain.unsigned_toExpr, hshown]

def signedText : String := "BEGIN P x := -(a - --b), END"

def signedSum : Tree :=
  .node (.nonterminal .sum)
    [.node (.nonterminal .product)
      [.node (.nonterminal .atom)
        [.leaf ⟨.minus, "-", ⟨1, 14⟩⟩,
          .node (.nonterminal .atom)
            [.leaf ⟨.lparen, "(", ⟨1, 15⟩⟩,
              .node (.nonterminal .sum)
                [.node (.nonterminal .product)
                  [.node (.nonterminal .atom) [.leaf ⟨.varName, "a", ⟨1, 16⟩⟩],
                    .node (.nonterminal .productRest) []],
                  .node (.nonterminal .sumRest)
                    [.leaf ⟨.minus, "-", ⟨1, 18⟩⟩,
                      .node (.nonterminal .product)
                        [.node (.nonterminal .atom)
                          [.leaf ⟨.minus, "-", ⟨1, 20⟩⟩,
                            .node (.nonterminal .atom)
                              [.leaf ⟨.minus, "-", ⟨1, 21⟩⟩,
                                .node (.nonterminal .atom)
                                  [.leaf ⟨.varName, "b", ⟨1, 22⟩⟩]]],
                          .node (.nonterminal .productRest) []],
                      .node (.nonterminal .sumRest) []]],
              .leaf ⟨.rparen, ")", ⟨1, 23⟩⟩]],
        .node (.nonterminal .productRest) []],
      .node (.nonterminal .sumRest) []]

example : binaryOperators false signedSum.tokens = [.sub] := by decide +kernel

def signedTree : Tree :=
  .node (.nonterminal .program)
    [.leaf ⟨.beginWord, "BEGIN", ⟨1, 1⟩⟩, .leaf ⟨.progName, "P", ⟨1, 7⟩⟩,
      .node (.nonterminal .code)
        [.node (.nonterminal .instruction)
          [.node (.nonterminal .assignment)
            [.leaf ⟨.varName, "x", ⟨1, 9⟩⟩, .leaf ⟨.assign, ":=", ⟨1, 11⟩⟩, signedSum]],
          .leaf ⟨.comma, ",", ⟨1, 24⟩⟩, .node (.nonterminal .code) []],
      .leaf ⟨.endWord, "END", ⟨1, 26⟩⟩]

theorem parse_signedText :
    (Parser.run (.ofLookahead .fortress Grammar.fortressLookahead)
      (.ofStream (.ofText signedText))).1 = .ok signedTree := by
  decide +kernel

theorem signedSum_within : signedSum.Within signedTree :=
  .child (.tail _ (.tail _ (.head _)))
    (.child (.head _) (.child (.head _) (.child (.tail _ (.tail _ (.head _))) .refl)))

/-- The difference under a sign keeps its operands and its one operator. -/
theorem signed_difference_keeps_operands :
    (Parser.run (.ofLookahead .fortress Grammar.fortressLookahead)
      (.ofStream (.ofText signedText))).1 = .ok signedTree ∧
    signedSum.Within signedTree ∧ signedSum.nonterminal? = some .sum ∧
    ∃ e, Expr.ofTree signedSum = .ok e ∧ List.Forall₂ Token.Denotes signedSum.operands e.values ∧
      e.operators.map Operator.unsigned =
        (binaryOperators false signedSum.tokens).map Operator.unsigned :=
  ⟨parse_signedText, signedSum_within, rfl,
    simplified_sum_keeps_operands Grammar.build_fortress parse_signedText signedSum_within rfl⟩

end FortressLang
