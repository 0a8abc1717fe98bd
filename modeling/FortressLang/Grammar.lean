import FortressLang.Symbol

/-! Grammars: numbered productions of which the first is the start rule. -/
namespace FortressLang

structure Production where
  lhs : Nonterminal
  rhs : List Symbol
  deriving DecidableEq

structure Rule extends Production where
  index : Nat
  deriving DecidableEq

namespace Rule

/-- A right-hand side of the one symbol `epsilon`. -/
def isEpsilon (r : Rule) : Bool := r.rhs = [.terminal .epsilon]

def text (r : Rule) : String :=
  r.lhs.spelling ++ " -> " ++ " ".intercalate (r.rhs.map Symbol.spelling)

end Rule

structure Grammar where
  rules : List Rule
  rules_ne_nil : rules ≠ []
  index_rules : rules.map Rule.index = List.range rules.length

namespace Grammar

/-- Productions are numbered in their order, from zero. -/
def ofProductions (ps : List Production) (h : ps ≠ []) : Grammar where
  rules := ps.zipIdx.map fun p => ⟨p.1, p.2⟩
  rules_ne_nil := by simpa using h
  index_rules := by
    apply List.ext_getElem <;> simp

def start (g : Grammar) : Rule := g.rules.head g.rules_ne_nil

def startSymbol (g : Grammar) : Nonterminal := g.start.lhs

def rule? (g : Grammar) (i : Nat) : Option Rule := g.rules[i]?

def rulesFor (g : Grammar) (a : Nonterminal) : List Rule := g.rules.filter (·.lhs = a)

/-- Every left-hand side once, in the order of their first rules. -/
def nonterminals (g : Grammar) : List Nonterminal := (g.rules.map (·.lhs)).eraseDups

theorem mem_rulesFor {g : Grammar} {a : Nonterminal} {r : Rule} :
    r ∈ g.rulesFor a ↔ r ∈ g.rules ∧ r.lhs = a := by simp [rulesFor]

theorem mem_nonterminals {g : Grammar} {a : Nonterminal} :
    a ∈ g.nonterminals ↔ ∃ r ∈ g.rules, r.lhs = a := by simp [nonterminals]

/-- A rule's number is its place. -/
theorem getElem_index (g : Grammar) {i : Nat} (h : i < g.rules.length) : g.rules[i].index = i := by
  have := List.getElem_of_eq g.index_rules (i := i) (by simpa using h)
  simpa using this

theorem rule?_index {g : Grammar} {r : Rule} (hr : r ∈ g.rules) : g.rule? r.index = some r := by
  obtain ⟨i, hi, rfl⟩ := List.mem_iff_getElem.mp hr
  rw [g.getElem_index hi]
  exact List.getElem?_eq_getElem hi

/-- Rules are in the order of their numbers. -/
theorem pairwise_index (g : Grammar) : g.rules.Pairwise (·.index < ·.index) := by
  have h := List.pairwise_lt_range (n := g.rules.length)
  rw [← g.index_rules] at h
  exact List.pairwise_map.mp h

theorem pairwise_index_rulesFor (g : Grammar) (a : Nonterminal) :
    (g.rulesFor a).Pairwise (·.index < ·.index) :=
  g.pairwise_index.filter _

end Grammar
end FortressLang
