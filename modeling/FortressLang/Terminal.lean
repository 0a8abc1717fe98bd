/-! The terminal symbols of the language: the words and marks of a program, the three classes of
lexemes, and the two symbols that only grammars use, `epsilon` and `endOfStream`. -/
namespace FortressLang

inductive Terminal
  | beginWord | endWord | progName | varName | number | comma | assign | equal | smaller | greater
  | plus | minus | times | divide | lparen | rparen | ifWord | thenWord | elseWord | whileWord
  | doWord | printWord | readWord | epsilon | endOfStream
  deriving DecidableEq

namespace Terminal

/-- Every terminal, in the order in which tables and sets list them. -/
def all : List Terminal :=
  [beginWord, endWord, progName, varName, number, comma, assign, equal, smaller, greater, plus,
    minus, times, divide, lparen, rparen, ifWord, thenWord, elseWord, whileWord, doWord, printWord,
    readWord, epsilon, endOfStream]

theorem mem_all (t : Terminal) : t ∈ all := by cases t <;> decide

/-- The place of a terminal in `all`. -/
def index (t : Terminal) : Fin 25 :=
  match t with
  | beginWord => 0 | endWord => 1 | progName => 2 | varName => 3 | number => 4 | comma => 5
  | assign => 6 | equal => 7 | smaller => 8 | greater => 9 | plus => 10 | minus => 11 | times => 12
  | divide => 13 | lparen => 14 | rparen => 15 | ifWord => 16 | thenWord => 17 | elseWord => 18
  | whileWord => 19 | doWord => 20 | printWord => 21 | readWord => 22 | epsilon => 23
  | endOfStream => 24

/-- The terminal at a place of `all`. -/
def ofIndex (i : Fin 25) : Terminal := all[i]

@[simp] theorem ofIndex_index (t : Terminal) : ofIndex t.index = t := by cases t <;> rfl

@[simp] theorem index_ofIndex (i : Fin 25) : (ofIndex i).index = i := by
  revert i; decide

/-- How a grammar description and an error message write a terminal. -/
def spelling : Terminal → String
  | beginWord => "BEGIN" | endWord => "END" | progName => "[ProgName]" | varName => "[VarName]"
  | number => "[Number]" | comma => "," | assign => ":=" | equal => "=" | smaller => "<"
  | greater => ">" | plus => "+" | minus => "-" | times => "*" | divide => "/" | lparen => "("
  | rparen => ")" | ifWord => "IF" | thenWord => "THEN" | elseWord => "ELSE" | whileWord => "WHILE"
  | doWord => "DO" | printWord => "PRINT" | readWord => "READ" | epsilon => "E"
  | endOfStream => "end of stream"

/-- Two classes have a second spelling each; the end of the stream cannot be spelled. -/
def ofSpelling? : String → Option Terminal
  | "ProgName" => some progName
  | "[number]" => some number
  | s => (all.erase endOfStream).find? (·.spelling = s)

/-- The reserved words. -/
def keywords : List Terminal :=
  [beginWord, endWord, ifWord, thenWord, elseWord, whileWord, doWord, printWord, readWord]

/-- The reserved word written exactly so, if there is one. -/
def keyword? (s : String) : Option Terminal :=
  keywords.find? (·.spelling = s)

/-- The lexeme of such a token says more than its terminal does. -/
def isClass : Terminal → Bool
  | progName | varName | number => true
  | _ => false

theorem ofSpelling?_spelling (t : Terminal) (h : t ≠ endOfStream) :
    ofSpelling? t.spelling = some t := by
  cases t <;> first | rfl | exact absurd rfl h

end Terminal
end FortressLang
