import FortressLang.ProgramReading

/-! The nodes of a nonterminal in a tree, and the statements of a program one by one, nested ones
included. -/
namespace FortressLang
namespace Tree

mutual

def nodesOf (a : Nonterminal) : Tree → List Tree
  | node l cs => (if l = .nonterminal a then [node l cs] else []) ++ nodesOfAll a cs

def nodesOfAll (a : Nonterminal) : List Tree → List Tree
  | [] => []
  | t :: ts => nodesOf a t ++ nodesOfAll a ts

end

theorem nodesOfAll_eq (a : Nonterminal) (ts : List Tree) :
    nodesOfAll a ts = ts.flatMap (nodesOf a) := by
  induction ts with
  | nil => rfl
  | cons t ts ih => rw [nodesOfAll, ih, List.flatMap_cons]

theorem nodesOf_node (a : Nonterminal) (l : Label) (cs : List Tree) :
    (node l cs).nodesOf a =
      (if l = .nonterminal a then [node l cs] else []) ++ cs.flatMap (nodesOf a) := by
  rw [nodesOf, nodesOfAll_eq]

@[simp] theorem nodesOf_leaf (a : Nonterminal) (x : Token) : (leaf x).nodesOf a = [] := by
  simp [leaf, nodesOf_node]

theorem nodesOf_self (a : Nonterminal) (cs : List Tree) :
    (node (.nonterminal a) cs).nodesOf a = node (.nonterminal a) cs :: cs.flatMap (nodesOf a) := by
  simp [nodesOf_node]

theorem nodesOf_other {a b : Nonterminal} (h : b ≠ a) (cs : List Tree) :
    (node (.nonterminal b) cs).nodesOf a = cs.flatMap (nodesOf a) := by
  simp [nodesOf_node, h]

end Tree

namespace Statement

mutual

/-- A statement and those nested in it: itself, the body or the part behind `THEN`, the part behind
`ELSE`. -/
def flat : Statement → List Statement
  | assign x e => [assign x e]
  | branch c ts es => branch c ts es :: (flatAll ts ++ flatAll es)
  | loop c ss => loop c ss :: flatAll ss
  | print x => [print x]
  | read x => [read x]

def flatAll : List Statement → List Statement
  | [] => []
  | s :: ss => s.flat ++ flatAll ss

end

def kind : Statement → Nonterminal
  | assign _ _ => .assignment
  | branch _ _ _ => .conditional
  | loop _ _ => .loop
  | print _ => .print
  | read _ => .read

/-- The instruction node is of the statement's kind, and the statement is what is read from it. -/
def Shown (i : Tree) (s : Statement) : Prop :=
  i.nonterminal? = some .instruction ∧ i.children.head?.bind Tree.nonterminal? = some s.kind ∧
    Statement.ofTree i = .ok s

def nested : Statement → List Statement
  | branch _ ts es => flatAll ts ++ flatAll es
  | loop _ ss => flatAll ss
  | _ => []

theorem flat_eq (s : Statement) : s.flat = s :: s.nested := by
  cases s <;> rw [flat] <;> rfl

end Statement
end FortressLang
