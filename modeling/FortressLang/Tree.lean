import FortressLang.Symbol
import FortressLang.Token

/-! Trees over nonterminals and tokens, as a parse builds them. A terminal only stands in a tree
once it was matched, so it is there as its token. -/
namespace FortressLang

inductive Tree.Label
  | nonterminal (a : Nonterminal)
  | token (t : Token)
  deriving DecidableEq

inductive Tree
  | node (label : Tree.Label) (children : List Tree)

namespace Tree

def Label.text : Label → String
  | .nonterminal a => a.spelling
  | .token t => t.lexeme

def label : Tree → Label
  | node l _ => l

def children : Tree → List Tree
  | node _ cs => cs

theorem sizeOf_children_lt {t c : Tree} (h : c ∈ t.children) : sizeOf c < sizeOf t := by
  obtain ⟨l, cs⟩ := t
  have hc : sizeOf c < sizeOf cs := List.sizeOf_lt_of_mem h
  rw [node.sizeOf_spec]
  omega

/-- What holds of a node whenever it holds of its children holds of every tree. -/
theorem induction {motive : Tree → Prop}
    (node : ∀ l cs, (∀ c ∈ cs, motive c) → motive (node l cs)) : ∀ t, motive t
  | .node l cs => node l cs fun c _ => induction node c

def leaf (t : Token) : Tree := node (.token t) []

def isLeaf (t : Tree) : Bool := t.children.isEmpty

def nonterminal? (t : Tree) : Option Nonterminal :=
  match t.label with
  | .nonterminal a => some a
  | .token _ => none

def token? (t : Tree) : Option Token :=
  match t.label with
  | .token t => some t
  | .nonterminal _ => none

/-- A nonterminal of which nothing was written. -/
def isPlaceholder (t : Tree) : Bool := t.nonterminal?.isSome && t.isLeaf

def childrenOf (t : Tree) (a : Nonterminal) : List Tree :=
  t.children.filter (·.nonterminal? = some a)

def childOf? (t : Tree) (a : Nonterminal) : Option Tree :=
  t.children.find? (·.nonterminal? = some a)

/-- The first child token of a terminal. -/
def tokenOf? (t : Tree) (terminal : Terminal) : Option Token :=
  (t.children.filterMap token?).find? (·.terminal = terminal)

theorem childOf?_eq_head? (t : Tree) (a : Nonterminal) : t.childOf? a = (t.childrenOf a).head? :=
  (List.head?_filter).symm

/-- Writes the open lists of siblings, the innermost first, and closes each. -/
def writeSiblings (written : String) : List (List Tree) → String
  | [] => written
  | [] :: outer => writeSiblings (written ++ ")") outer
  | (node l [] :: rest) :: outer => writeSiblings (written ++ " " ++ l.text) (rest :: outer)
  | (node l (c :: cs) :: rest) :: outer =>
    writeSiblings (written ++ " (" ++ l.text) ((c :: cs) :: rest :: outer)
termination_by open_ => sizeOf open_

/-- A tree in parentheses, its label first; a leaf is its label alone. -/
def text : Tree → String
  | node l [] => l.text
  | node l (c :: cs) => writeSiblings ("(" ++ l.text) [c :: cs]

end Tree
end FortressLang
