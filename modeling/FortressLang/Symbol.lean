import FortressLang.Terminal

/-! Nonterminals and the symbols of a right-hand side. -/
namespace FortressLang

inductive Nonterminal
  | program | code | instruction | assignment | sum | sumRest | product | productRest | atom
  | conditional | conditionalEnd | condition | comparison | loop | print | read
  deriving DecidableEq

namespace Nonterminal

def all : List Nonterminal :=
  [program, code, instruction, assignment, sum, sumRest, product, productRest, atom, conditional,
    conditionalEnd, condition, comparison, loop, print, read]

theorem mem_all (a : Nonterminal) : a ∈ all := by cases a <;> decide

/-- The place of a nonterminal in `all`. -/
def index (a : Nonterminal) : Fin 16 :=
  match a with
  | program => 0 | code => 1 | instruction => 2 | assignment => 3 | sum => 4 | sumRest => 5
  | product => 6 | productRest => 7 | atom => 8 | conditional => 9 | conditionalEnd => 10
  | condition => 11 | comparison => 12 | loop => 13 | print => 14 | read => 15

/-- The nonterminal at a place of `all`. -/
def ofIndex (i : Fin 16) : Nonterminal := all[i]

@[simp] theorem ofIndex_index (a : Nonterminal) : ofIndex a.index = a := by cases a <;> rfl

@[simp] theorem index_ofIndex (i : Fin 16) : (ofIndex i).index = i := by
  revert i; decide

def spelling : Nonterminal → String
  | program => "<Program>" | code => "<Code>" | instruction => "<Instruction>"
  | assignment => "<Assign>" | sum => "<ExprArith>" | sumRest => "<ExprArith'>"
  | product => "<Prod>" | productRest => "<Prod'>" | atom => "<Atom>" | conditional => "<If>"
  | conditionalEnd => "<IfSeq>" | condition => "<Cond>" | comparison => "<Comp>"
  | loop => "<While>" | print => "<Print>" | read => "<Read>"

/-- `conditional` has a second spelling. -/
def ofSpelling? : String → Option Nonterminal
  | "<IF>" => some conditional
  | s => all.find? (·.spelling = s)

theorem ofSpelling?_spelling (a : Nonterminal) : ofSpelling? a.spelling = some a := by
  cases a <;> rfl

/-- Sums, products and their rests: the nodes whose operator stands one level down. -/
def isChain : Nonterminal → Bool
  | sum | sumRest | product | productRest => true
  | _ => false

end Nonterminal

inductive Symbol
  | terminal (t : Terminal)
  | nonterminal (a : Nonterminal)
  deriving DecidableEq

namespace Symbol

def spelling : Symbol → String
  | terminal t => t.spelling
  | nonterminal a => a.spelling

def ofSpelling? (s : String) : Option Symbol :=
  ((Nonterminal.ofSpelling? s).map nonterminal).or ((Terminal.ofSpelling? s).map terminal)

theorem ofSpelling?_spelling (x : Symbol) (h : x ≠ terminal .endOfStream) :
    ofSpelling? x.spelling = some x := by
  cases x with
  | terminal t => cases t <;> first | rfl | exact absurd rfl h
  | nonterminal a => simp [ofSpelling?, spelling, Nonterminal.ofSpelling?_spelling]

end Symbol
end FortressLang
