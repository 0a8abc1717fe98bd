import FortressLang.Proofs.RaisedSums

/-! The chain that is filled from a raised sum. What is written comes down to an operand or an
operation with signs and parentheses around it. The search collects these as marks, and they decide
how the operand or the operation stands in the chain. -/
namespace FortressLang
namespace Source

inductive Layer | minus | parentheses
  deriving DecidableEq

/-- What is inside of all signs and parentheses: an operand, or the operation of a first operand and
the rest of its chain. -/
inductive Core
  | value (v : Value)
  | operation (op : Operator) (first rest : Chain)

/-- A core and the layers around it, the outermost first. -/
structure Layered where
  layers : List Layer
  core : Core

def negative (ls : List Layer) : Bool := ls.count .minus % 2 = 1

namespace Layered

def under (l : Layer) (x : Layered) : Layered := { x with layers := l :: x.layers }

/-- An operand takes the sign to itself. An operation is a group where it has parentheses, and the
sign stands outside of the group. -/
def filled : Layered → Chain
  | ⟨ls, .value v⟩ => .operand ⟨v, negative ls⟩
  | ⟨ls, .operation op first rest⟩ =>
    let operation := Chain.binary op first rest
    let grouped := if .parentheses ∈ ls then .group operation else operation
    if negative ls then .negated grouped else grouped

end Layered

mutual

/-- What a written sum comes down to. -/
def Sum.layered : Sum → Layered
  | .of first rest => rest.layered first.layered

/-- What a first operand and the rest behind it come down to: around an operation nothing is
written. -/
def SumRest.layered (first : Layered) : SumRest → Layered
  | .stop => first
  | .step minus next rest =>
    ⟨[], .operation (additive minus) first.filled (rest.layered next.layered).filled⟩

def Product.layered : Product → Layered
  | .of first rest => rest.layered first.layered

def ProductRest.layered (first : Layered) : ProductRest → Layered
  | .stop => first
  | .step slash next rest =>
    ⟨[], .operation (multiplicative slash) first.filled (rest.layered next.layered).filled⟩

def Atom.layered : Atom → Layered
  | .named x => ⟨[], .value (.variable x)⟩
  | .number n => ⟨[], .value (.constant n)⟩
  | .minus inner => inner.layered.under .minus
  | .group inner => inner.layered.under .parentheses

end

open Chain (Marks)

def marks (ls : List Layer) : Marks := ⟨negative ls, .parentheses ∈ ls⟩

theorem marks_minus (ls : List Layer) :
    marks (ls ++ [.minus]) = { marks ls with negated := !(marks ls).negated } := by
  have hodd : negative (ls ++ [.minus]) = !negative ls := by
    rw [negative, negative, List.count_append, List.count_singleton_self]
    grind
  simp [marks, hodd]

theorem marks_parentheses (ls : List Layer) :
    marks (ls ++ [.parentheses]) = { marks ls with grouped := true } := by
  simp [marks, negative]

/-- What is found under the marks of outer layers is what these and its own layers make of it. -/
def Fills (found : Marks → Chain) (x : Layered) : Prop :=
  ∀ ls, found (marks ls) = (Layered.mk (ls ++ x.layers) x.core).filled

namespace Fills

variable {found : Marks → Chain} {x : Layered}

theorem start (h : Fills found x) : found {} = x.filled := h []

theorem value (v : Value) : Fills (·.operand v) ⟨[], .value v⟩ := fun ls => by
  simp [Layered.filled, Marks.operand, marks]

theorem operation (op : Operator) (first rest : Chain) :
    Fills (·.wrap (.binary op first rest)) ⟨[], .operation op first rest⟩ := fun ls => by
  simp [Layered.filled, Marks.wrap, marks]

theorem minus (h : Fills found x) :
    Fills (fun m => found { m with negated := !m.negated }) (x.under .minus) := fun ls => by
  have hnext := h (ls ++ [.minus])
  rw [marks_minus, List.append_assoc] at hnext
  exact hnext

theorem parentheses (h : Fills found x) :
    Fills (fun m => found { m with grouped := true }) (x.under .parentheses) := fun ls => by
  have hnext := h (ls ++ [.parentheses])
  rw [marks_parentheses, List.append_assoc] at hnext
  exact hnext

end Fills

mutual

theorem Sum.fills (s : Sum) : Fills s.chain s.layered := by
  cases s with
  | of first rest => exact rest.fills first.fills

theorem SumRest.fills (rest : SumRest) {first : Marks → Chain} {x : Layered} (h : Fills first x) :
    Fills (rest.chain first) (rest.layered x) := by
  cases rest with
  | stop => exact h
  | step minus next rest =>
    have hrest := (rest.fills next.fills).start
    rw [SumRest.layered, ← h.start, ← hrest]
    exact .operation _ _ _

theorem Product.fills (p : Product) : Fills p.chain p.layered := by
  cases p with
  | of first rest => exact rest.fills first.fills

theorem ProductRest.fills (rest : ProductRest) {first : Marks → Chain} {x : Layered}
    (h : Fills first x) : Fills (rest.chain first) (rest.layered x) := by
  cases rest with
  | stop => exact h
  | step slash next rest =>
    have hrest := (rest.fills next.fills).start
    rw [ProductRest.layered, ← h.start, ← hrest]
    exact .operation _ _ _

theorem Atom.fills (a : Atom) : Fills a.chain a.layered := by
  cases a with
  | named x => exact .value _
  | number n => exact .value _
  | minus inner => exact inner.fills.minus
  | group inner => exact inner.fills.parentheses

end

end Source

/-- For every sum in the tree of a parsed text: in the raised tree there is no placeholder, every
operator has two children or is the minus at the head of an atom, and the tokens are those of the
sum, the operators between their two children. The raised tree is that of what was written, each
operator over its first operand and the rest of its chain, and from it the chain is filled that the
signs and parentheses of what was written decide. -/
theorem raised_sum_is_filled {table : Table} (ht : Table.build .fortress = .ok table)
    {text : String} {tree t : Tree}
    (h : (Parser.run table (.ofStream (.ofText text))).1 = .ok tree) (hw : t.Within tree)
    (hs : t.nonterminal? = some .sum) :
    (∀ u : Tree, u.Within t.raise → u.isPlaceholder = false) ∧
    (t.raise.HasSides ∧ ∀ u : Tree, u.Within t.raise → u.OperatorsPlaced) ∧
    t.raise.inOrder = t.tokens ∧
    (∃ s : Source.Sum, s.Spelled t) ∧
    ∀ s : Source.Sum, s.Spelled t →
      s.Raised t.raise ∧ Chain.ofTree t.raise = .ok s.layered.filled := by
  obtain ⟨w, n, hd, hnumerals⟩ := derives_of_parsed ht h hw hs
  obtain ⟨s, hspelled⟩ := Source.exists_spelled hd hnumerals
  have hraised := s.raisedTo hspelled
  refine ⟨fun u hu => (hraised.well.parts u hu).1, ⟨hraised.well.sides, fun u hu =>
    (hraised.well.parts u hu).2⟩, hraised.inOrder, ⟨s, hspelled⟩, fun s' hs' => ⟨?_, ?_⟩⟩
  · exact (s'.raisedTo hs').shape
  · rw [Chain.ofTree, s'.search_chain hs', s'.fills.start]
    rfl

def signedSource : Source.Sum :=
  .of (.of (.minus (.group (.of (.of (.named "a") .stop)
    (.step true (.of (.minus (.minus (.named "b"))) .stop) .stop)))) .stop) .stop

theorem spelled_signedSum : signedSource.Spelled signedSum := by
  have hfirst : Source.Product.Spelled (.of (.named "a") .stop) _ :=
    ⟨_, _, rfl, ⟨⟨.varName, "a", ⟨1, 16⟩⟩, rfl, rfl, rfl⟩, rfl⟩
  have hsecond : Source.Product.Spelled (.of (.minus (.minus (.named "b"))) .stop) _ :=
    ⟨_, _, rfl, ⟨⟨.minus, "-", ⟨1, 20⟩⟩, _, rfl, rfl, ⟨⟨.minus, "-", ⟨1, 21⟩⟩, _, rfl, rfl,
      ⟨⟨.varName, "b", ⟨1, 22⟩⟩, rfl, rfl, rfl⟩⟩⟩, rfl⟩
  have hinner : Source.Sum.Spelled (.of _ (.step true _ .stop)) _ :=
    ⟨_, _, rfl, hfirst, ⟨⟨.minus, "-", ⟨1, 18⟩⟩, _, _, rfl, rfl, hsecond, rfl⟩⟩
  have hgroup : Source.Atom.Spelled (.minus (.group _)) _ :=
    ⟨⟨.minus, "-", ⟨1, 14⟩⟩, _, rfl, rfl, ⟨⟨.lparen, "(", ⟨1, 15⟩⟩, _,
      ⟨.rparen, ")", ⟨1, 23⟩⟩, rfl, rfl, rfl, hinner⟩⟩
  exact ⟨_, _, rfl, ⟨_, _, rfl, hgroup, rfl⟩, rfl⟩

/-- Of three signs, one turns the group, and two leave an operand as it is. -/
theorem signed_difference_is_filled :
    (Parser.run (.ofLookahead .fortress Grammar.fortressLookahead)
      (.ofStream (.ofText signedText))).1 = .ok signedTree ∧
    signedSum.Within signedTree ∧ signedSum.nonterminal? = some .sum ∧
    (∀ u : Tree, u.Within signedSum.raise → u.isPlaceholder = false) ∧
    (signedSum.raise.HasSides ∧ ∀ u : Tree, u.Within signedSum.raise → u.OperatorsPlaced) ∧
    signedSum.raise.inOrder = signedSum.tokens ∧ signedSource.Spelled signedSum ∧
    signedSource.Raised signedSum.raise ∧
    Chain.ofTree signedSum.raise = .ok (.negated (.group (.binary .sub
      (.operand ⟨.variable "a", false⟩) (.operand ⟨.variable "b", false⟩)))) := by
  obtain ⟨hfull, hplaced, hinOrder, -, hsource⟩ :=
    raised_sum_is_filled Grammar.build_fortress parse_signedText signedSum_within rfl
  obtain ⟨hraised, hfilled⟩ := hsource signedSource spelled_signedSum
  exact ⟨parse_signedText, signedSum_within, rfl, hfull, hplaced, hinOrder, spelled_signedSum,
    hraised, hfilled⟩

end FortressLang
