import FortressLang.Table
import FortressLang.TokenStream

/-! Predictive parsing on an explicit stack. A machine expands the leftmost open nonterminal with
the rule that the table has for the next token, or matches the next token, one symbol at a step. The
numbers of the rules it applies are a leftmost derivation. -/
namespace FortressLang

/-- How many nodes may be open at once. Nodes of `code` do not count, nor do vanishing ones. -/
def nestingLimit : Nat := 512

/-- What is left between two parses of one stream. -/
structure Parser where
  input : TokenStream
  /-- The numbers of the rules applied so far, the newest first. -/
  applied : List Nat

namespace Parser

def ofStream (s : TokenStream) : Parser := ⟨s, []⟩

/-- The applied rules in order, counted from one. -/
def derivation (p : Parser) : String :=
  " ".intercalate (p.applied.reverse.map fun i => toString (i + 1))

end Parser

/-- A node under construction: the symbols still to match, and its children, the newest first. -/
structure Frame where
  lhs : Nonterminal
  pending : List Symbol
  built : List Tree

namespace Frame

def ofRule (r : Rule) : Frame := ⟨r.lhs, r.rhs, []⟩

def add (f : Frame) (t : Tree) : Frame := { f with built := t :: f.built }

def close (f : Frame) : Tree := .node (.nonterminal f.lhs) f.built.reverse

end Frame

/-- What a node of a nonterminal adds to the nesting. -/
def nestingOf (a : Nonterminal) : Nat := if a = .code then 0 else 1

structure Machine where
  current : Frame
  ancestors : List Frame
  nesting : Nat
  input : TokenStream
  applied : List Nat

inductive Progress
  | going (m : Machine)
  | done (result : Except Issue Tree) (p : Parser)

namespace Machine

def start (t : Table) (p : Parser) : Machine :=
  let r := t.grammar.start
  ⟨.ofRule r, [], nestingOf r.lhs, p.input, r.index :: p.applied⟩

/-- Stops with an issue that lies at the next token, which counts as read. -/
def fail (m : Machine) (issue : Issue) : Progress := .done (.error issue) ⟨m.input.tail, m.applied⟩

/-- The start symbol is complete, so the input has to end here. -/
def finish (m : Machine) (tree : Tree) : Progress :=
  match m.input.head with
  | .error issue => m.fail issue
  | .ok found =>
    if found.terminal = .endOfStream then .done (.ok tree) ⟨m.input.tail, m.applied⟩
    else m.fail (.trailingInput found)

/-- The current node is complete. -/
def close (m : Machine) : Progress :=
  match m.ancestors with
  | [] => m.finish m.current.close
  | parent :: ancestors =>
    .going { m with
      current := parent.add m.current.close
      ancestors := ancestors
      nesting := m.nesting - nestingOf m.current.lhs }

/-- The current node needs a token next. -/
def consume (m : Machine) (expected : Terminal) : Progress :=
  match m.input.head with
  | .error issue => m.fail issue
  | .ok found =>
    if found.terminal = expected then
      .going { m with current := m.current.add (.leaf found), input := m.input.tail }
    else m.fail (.tokenMismatch expected found)

/-- The current node needs a nonterminal next, and a rule was chosen for it. -/
def apply (m : Machine) (r : Rule) (found : Token) : Progress :=
  let m := { m with applied := r.index :: m.applied }
  if r.isEpsilon then
    .going { m with current := m.current.add (.node (.nonterminal r.lhs) []) }
  else if r.lhs ≠ .code ∧ m.nesting = nestingLimit then m.fail (.nestingTooDeep nestingLimit found)
  else
    .going { m with
      current := .ofRule r
      ancestors := m.current :: m.ancestors
      nesting := m.nesting + nestingOf r.lhs }

def expand (t : Table) (m : Machine) (a : Nonterminal) : Progress :=
  match m.input.head with
  | .error issue => m.fail issue
  | .ok found =>
    match t.rule? a found.terminal with
    | none => m.fail (.grammarMismatch a found)
    | some r => m.apply r found

def step (t : Table) (m : Machine) : Progress :=
  match m.current.pending with
  | [] => m.close
  | x :: pending =>
    let m := { m with current := { m.current with pending := pending } }
    match x with
    | .terminal .epsilon => .going m
    | .terminal expected => m.consume expected
    | .nonterminal a => m.expand t a

/-- The outcome of a parse, if it comes within a number of steps. -/
def runFor (t : Table) : Nat → Machine → Option (Except Issue Tree × Parser)
  | 0, _ => none
  | n + 1, m =>
    match m.step t with
    | .going m => m.runFor t n
    | .done result p => some (result, p)

/-- With more steps to take, an outcome stays as it is. -/
theorem runFor_add {t : Table} {n : Nat} {m : Machine} {out : Except Issue Tree × Parser}
    (h : m.runFor t n = some out) (k : Nat) : m.runFor t (n + k) = some out := by
  induction n generalizing m with
  | zero => cases h
  | succ n ih =>
    rw [Nat.succ_add]
    unfold runFor at h ⊢
    split at h
    · exact ih h
    · exact h

/-- More steps than a parse takes. In front of one token no nonterminal is opened inside itself, so
at most sixteen nodes are opened one inside the other, and each opens at most as many as its rule
has symbols. -/
def stepBound (t : Table) (s : TokenStream) : Nat :=
  let width := t.grammar.rules.foldl (fun n r => max n r.rhs.length) 0
  17 * Nat.pow (s.results.length + 2) 2 * Nat.pow (width + 2) 18

end Machine

/-- Parses the input from the start rule to the end of the stream. A table that was not built from a
grammar may expand for ever, which is an issue of its own. -/
def Parser.run (t : Table) (p : Parser) : Except Issue Tree × Parser :=
  ((Machine.start t p).runFor t (Machine.stepBound t p.input)).getD
    (.error (.endlessExpansion t.grammar.startSymbol), p)

end FortressLang
