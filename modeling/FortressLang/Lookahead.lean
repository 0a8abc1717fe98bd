import FortressLang.Grammar
import FortressLang.TerminalSet

/-! Which terminals can begin a string of symbols, which nonterminals can vanish, and which
terminals can follow a nonterminal: the least solutions of the usual equations, reached by repeating
them from empty sets until nothing changes. In a string of symbols, `epsilon` stands for nothing
wherever it occurs. -/
namespace FortressLang

/-- Repeats a function until it changes nothing, at most the given number of times. -/
def settle {α : Type} [DecidableEq α] (f : α → α) : Nat → α → α
  | 0, x => x
  | n + 1, x => if f x = x then x else settle f n (f x)

/-- What every application keeps, the last value has. -/
theorem settle_of_forall {α : Type} [DecidableEq α] {f : α → α} {p : α → Prop} {x : α} (hx : p x)
    (hf : ∀ y, p y → p (f y)) (n : Nat) : p (settle f n x) := by
  induction n generalizing x with
  | zero => exact hx
  | succ n ih =>
    rw [settle]
    split
    · exact hx
    · exact ih (hf x hx)

structure Openings where
  first : Family TerminalSet
  nullable : Family Bool
  deriving DecidableEq

namespace Openings

def empty : Openings := ⟨.tabulate fun _ => .empty, .tabulate fun _ => false⟩

/-- The terminals that begin a string of symbols, and whether all of it can vanish. -/
def ofString (o : Openings) : List Symbol → TerminalSet × Bool
  | [] => (.empty, true)
  | .terminal .epsilon :: xs => o.ofString xs
  | .terminal t :: _ => (.singleton t, false)
  | .nonterminal a :: xs =>
    if o.nullable.get a then
      let rest := o.ofString xs
      ((o.first.get a).union rest.1, rest.2)
    else (o.first.get a, false)

/-- One more application of every rule. -/
def grow (g : Grammar) (o : Openings) : Openings where
  first := .tabulate fun a =>
    (g.rulesFor a).foldl (fun s r => s.union (o.ofString r.rhs).1) .empty
  nullable := .tabulate fun a => (g.rulesFor a).any fun r => (o.ofString r.rhs).2

/-- There are as many memberships to gain as pairs of a nonterminal with a terminal or with
nothing, and every round but the last gains one. -/
def ofGrammar (g : Grammar) : Openings := settle (grow g) (16 * 26 + 1) empty

end Openings

/-- The terminals in front of which a string of symbols can be chosen, if `after` can follow it. -/
def Openings.before (o : Openings) (after : TerminalSet) (xs : List Symbol) : TerminalSet :=
  let opening := o.ofString xs
  if opening.2 then opening.1.union after else opening.1

namespace Follow

/-- The terminals that a right-hand side lets follow a nonterminal. -/
def inString (o : Openings) (after : TerminalSet) (a : Nonterminal) : List Symbol → TerminalSet
  | [] => .empty
  | x :: xs =>
    let later := inString o after a xs
    if x = .nonterminal a then (o.before after xs).union later else later

def grow (g : Grammar) (o : Openings) (f : Family TerminalSet) : Family TerminalSet :=
  .tabulate fun a =>
    g.rules.foldl (fun s r => s.union (inString o (f.get r.lhs) a r.rhs))
      (if a = g.startSymbol then .singleton .endOfStream else .empty)

def ofGrammar (g : Grammar) (o : Openings) : Family TerminalSet :=
  settle (grow g o) (16 * 25 + 1) (.tabulate fun _ => .empty)

end Follow

/-- What the choice of a rule depends on. -/
structure Lookahead where
  openings : Openings
  follow : Family TerminalSet

namespace Lookahead

def ofGrammar (g : Grammar) : Lookahead :=
  let o := Openings.ofGrammar g
  ⟨o, Follow.ofGrammar g o⟩

/-- The terminals in front of which a rule applies. -/
def ofRule (l : Lookahead) (r : Rule) : TerminalSet :=
  l.openings.before (l.follow.get r.lhs) r.rhs

end Lookahead
end FortressLang
