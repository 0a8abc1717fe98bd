import FortressLang.Issue
import FortressLang.Lookahead

/-! Predictive tables: which rule to expand a nonterminal with in front of a terminal. A grammar has
one only if no two rules apply to the same pair. -/
namespace FortressLang

structure Table where
  grammar : Grammar
  entries : Family (Vector (Option Rule) 25)

namespace Table

def rule? (t : Table) (a : Nonterminal) (x : Terminal) : Option Rule := (t.entries.get a)[x.index]

/-- The first rule that applies is entered. -/
def ofLookahead (g : Grammar) (l : Lookahead) : Table where
  grammar := g
  entries := .tabulate fun a =>
    let guarded := (g.rulesFor a).map fun r => (r, l.ofRule r)
    .ofFn fun i => (guarded.find? (·.2.mem (.ofIndex i))).map (·.1)

theorem rule?_ofLookahead (g : Grammar) (l : Lookahead) (a : Nonterminal) (x : Terminal) :
    (ofLookahead g l).rule? a x = (g.rulesFor a).find? fun r => (l.ofRule r).mem x := by
  simp [rule?, ofLookahead, List.find?_map, Function.comp_def]

/-- A rule that applies where an earlier one was entered, if there is one: by the order of the
nonterminals first, then of the rules, then of the terminals. -/
def conflict? (t : Table) (l : Lookahead) : Option Issue :=
  t.grammar.nonterminals.findSome? fun a =>
    (t.grammar.rulesFor a).findSome? fun r =>
      (l.ofRule r).toList.findSome? fun x =>
        match t.rule? a x with
        | some first =>
          if first.index = r.index then none
          else some (.grammarConflict a x first.index r.index)
        | none => none

def build (g : Grammar) : Except Issue Table :=
  let l := Lookahead.ofGrammar g
  let t := ofLookahead g l
  match t.conflict? l with
  | some issue => .error issue
  | none => .ok t

/-- The entries of a nonterminal, in the order of the terminals. -/
def row (t : Table) (a : Nonterminal) : List (Terminal × Rule) :=
  Terminal.all.filterMap fun x => (t.rule? a x).map (x, ·)

end Table
end FortressLang
