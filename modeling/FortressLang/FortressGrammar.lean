import FortressLang.Grammar

/-! The grammar of the language. Sums and products are chains to the right: a first operand, then a
rest that begins with the operator. -/
namespace FortressLang
namespace Grammar
open FortressLang.Symbol

def fortressProductions : List Production :=
  [⟨.program, [terminal .beginWord, terminal .progName, nonterminal .code, terminal .endWord]⟩,
    ⟨.code, [nonterminal .instruction, terminal .comma, nonterminal .code]⟩,
    ⟨.code, [terminal .epsilon]⟩,
    ⟨.instruction, [nonterminal .assignment]⟩,
    ⟨.instruction, [nonterminal .conditional]⟩,
    ⟨.instruction, [nonterminal .loop]⟩,
    ⟨.instruction, [nonterminal .print]⟩,
    ⟨.instruction, [nonterminal .read]⟩,
    ⟨.assignment, [terminal .varName, terminal .assign, nonterminal .sum]⟩,
    ⟨.sum, [nonterminal .product, nonterminal .sumRest]⟩,
    ⟨.sumRest, [terminal .plus, nonterminal .product, nonterminal .sumRest]⟩,
    ⟨.sumRest, [terminal .minus, nonterminal .product, nonterminal .sumRest]⟩,
    ⟨.sumRest, [terminal .epsilon]⟩,
    ⟨.product, [nonterminal .atom, nonterminal .productRest]⟩,
    ⟨.productRest, [terminal .times, nonterminal .atom, nonterminal .productRest]⟩,
    ⟨.productRest, [terminal .divide, nonterminal .atom, nonterminal .productRest]⟩,
    ⟨.productRest, [terminal .epsilon]⟩,
    ⟨.atom, [terminal .varName]⟩,
    ⟨.atom, [terminal .number]⟩,
    ⟨.atom, [terminal .lparen, nonterminal .sum, terminal .rparen]⟩,
    ⟨.atom, [terminal .minus, nonterminal .atom]⟩,
    ⟨.conditional, [terminal .ifWord, terminal .lparen, nonterminal .condition,
      terminal .rparen, terminal .thenWord, nonterminal .code, nonterminal .conditionalEnd]⟩,
    ⟨.conditionalEnd, [terminal .endWord]⟩,
    ⟨.conditionalEnd, [terminal .elseWord, nonterminal .code, terminal .endWord]⟩,
    ⟨.condition, [nonterminal .sum, nonterminal .comparison, nonterminal .sum]⟩,
    ⟨.comparison, [terminal .equal]⟩,
    ⟨.comparison, [terminal .greater]⟩,
    ⟨.comparison, [terminal .smaller]⟩,
    ⟨.loop, [terminal .whileWord, terminal .lparen, nonterminal .condition, terminal .rparen,
      terminal .doWord, nonterminal .code, terminal .endWord]⟩,
    ⟨.print, [terminal .printWord, terminal .lparen, terminal .varName, terminal .rparen]⟩,
    ⟨.read, [terminal .readWord, terminal .lparen, terminal .varName, terminal .rparen]⟩]

/-- The grammar used where no other is given. -/
def fortress : Grammar := ofProductions fortressProductions (by decide)

end Grammar
end FortressLang
