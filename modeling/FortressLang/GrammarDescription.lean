import FortressLang.Grammar
import FortressLang.Issue
import FortressLang.Text

/-! Grammar descriptions: one production on a line, its symbols between semicolons, the left-hand
side first. Lines without a symbol are skipped, but counted. -/
namespace FortressLang
namespace Grammar

def readSymbol (line : Nat) (field : List Char) : Except Issue Symbol :=
  match Symbol.ofSpelling? (String.ofList field) with
  | some x => .ok x
  | none => .error (.unknownGrammarSymbol line (String.ofList field))

/-- A wrong left-hand side is reported before a wrong symbol, and that before a missing one. -/
def readProduction (line : Nat) : List (List Char) → Except Issue Production
  | [] => .error (.missingLeftHandSide line)
  | field :: fields => do
    let some lhs := Nonterminal.ofSpelling? (String.ofList field)
      | .error (.missingLeftHandSide line)
    let rhs ← fields.mapM (readSymbol line)
    if rhs.isEmpty then .error (.emptyRightHandSide line) else .ok ⟨lhs, rhs⟩

def readLine (line : Nat) (cs : List Char) : Except Issue (Option Production) :=
  if cs.all Text.isBlank then .ok none
  else some <$> readProduction line (Text.fields ';' (Text.trimChars cs))

def readLines (lines : List (List Char)) : Except Issue (List Production) := do
  let read ← (lines.zipIdx 1).mapM fun l => readLine l.2 l.1
  .ok (read.filterMap id)

/-- The grammar that a description's lines make up. -/
def ofDescription (description : String) : Except Issue Grammar := do
  let productions ← readLines (description.toList.splitOn '\n')
  if h : productions ≠ [] then .ok (ofProductions productions h) else .error .emptyGrammar

end Grammar
end FortressLang
