import FortressLang.Proofs.TableEntries

/-! The grammar of the language has a table. Its lookahead sets are written down here, each terminal
with the round in which it is found. -/
namespace FortressLang

/-- The terminals that are found up to a round. -/
def TerminalSet.found (k : Nat) (xs : List (Terminal × Nat)) : TerminalSet :=
  xs.foldr (fun x s => if x.2 ≤ k then (singleton x.1).union s else s) .empty

namespace Grammar

def fortressFirst : Nonterminal → List (Terminal × Nat)
  | .program => [(.beginWord, 1)]
  | .code => [(.varName, 3), (.ifWord, 3), (.whileWord, 3), (.printWord, 3), (.readWord, 3)]
  | .instruction => [(.varName, 2), (.ifWord, 2), (.whileWord, 2), (.printWord, 2), (.readWord, 2)]
  | .assignment => [(.varName, 1)]
  | .sum => [(.varName, 3), (.number, 3), (.minus, 3), (.lparen, 3)]
  | .sumRest => [(.plus, 1), (.minus, 1)]
  | .product => [(.varName, 2), (.number, 2), (.minus, 2), (.lparen, 2)]
  | .productRest => [(.times, 1), (.divide, 1)]
  | .atom => [(.varName, 1), (.number, 1), (.minus, 1), (.lparen, 1)]
  | .conditional => [(.ifWord, 1)]
  | .conditionalEnd => [(.endWord, 1), (.elseWord, 1)]
  | .condition => [(.varName, 4), (.number, 4), (.minus, 4), (.lparen, 4)]
  | .comparison => [(.equal, 1), (.smaller, 1), (.greater, 1)]
  | .loop => [(.whileWord, 1)]
  | .print => [(.printWord, 1)]
  | .read => [(.readWord, 1)]

def fortressOpenings (k : Nat) : Openings where
  first := .tabulate fun a => .found k (fortressFirst a)
  nullable := .tabulate fun a => decide (1 ≤ k ∧ a ∈ [.code, .sumRest, .productRest])

theorem openings_fortress : Openings.ofGrammar fortress = fortressOpenings 4 :=
  Openings.ofGrammar_eq fortressOpenings (by decide) (by decide +kernel) (by decide +kernel)
    (by decide +kernel)

def fortressFollow : Nonterminal → List (Terminal × Nat)
  | .program => [(.endOfStream, 1)]
  | .code => [(.endWord, 1), (.elseWord, 1)]
  | .instruction => [(.comma, 1)]
  | .assignment | .conditional | .loop | .print | .read => [(.comma, 2)]
  | .sum => [(.comma, 3), (.equal, 1), (.smaller, 1), (.greater, 1), (.rparen, 1)]
  | .sumRest => [(.comma, 4), (.equal, 2), (.smaller, 2), (.greater, 2), (.rparen, 2)]
  | .product =>
    [(.comma, 4), (.equal, 2), (.smaller, 2), (.greater, 2), (.rparen, 2), (.plus, 1), (.minus, 1)]
  | .productRest =>
    [(.comma, 5), (.equal, 3), (.smaller, 3), (.greater, 3), (.rparen, 3), (.plus, 2), (.minus, 2)]
  | .atom =>
    [(.comma, 5), (.equal, 3), (.smaller, 3), (.greater, 3), (.rparen, 3), (.plus, 2), (.minus, 2),
      (.times, 1), (.divide, 1)]
  | .conditionalEnd => [(.comma, 3)]
  | .condition => [(.rparen, 1)]
  | .comparison => [(.varName, 1), (.number, 1), (.minus, 1), (.lparen, 1)]

def fortressLookahead : Lookahead where
  openings := fortressOpenings 4
  follow := .tabulate fun a => .found 5 (fortressFollow a)

theorem lookahead_fortress : Lookahead.ofGrammar fortress = fortressLookahead :=
  Lookahead.ofGrammar_eq openings_fortress
    (Follow.ofGrammar_eq (fun k => .tabulate fun a => .found k (fortressFollow a)) (k := 5)
      (by decide) (by decide +kernel) (by decide +kernel) (by decide +kernel))

/-- No two rules of the language apply to the same pair. -/
theorem build_fortress : Table.build fortress = .ok (.ofLookahead fortress fortressLookahead) := by
  have hc : (Table.ofLookahead fortress fortressLookahead).conflict? fortressLookahead = none := by
    decide +kernel
  rw [Table.build, lookahead_fortress, hc]

end Grammar
end FortressLang
