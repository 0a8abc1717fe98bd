import FortressLang.Proofs.FortressTable
import FortressLang.Proofs.ParserAcceptance
import FortressLang.Proofs.SimplifiedSum
import FortressLang.Proofs.WrittenPrograms

/-! Every program is read back from its text, unless it nests too deep. -/
namespace FortressLang
namespace Source

theorem Sum.exists_tree (s : Sum) (hs : s.wellNamed = true) : ∃ t, s.Spelled t := by
  let tokens : List Token := s.words.map fun w => ⟨w.terminal, w.lexeme, {}⟩
  have hwords : tokens.map Token.word = s.words := by
    simp [tokens, Function.comp_def, Token.word]
  obtain ⟨t, -, ht⟩ := s.exists_derives hs hwords
  exact ⟨t, ht⟩

/-- The expression of a written sum is the one that is read from every tree of it. -/
theorem readsSums_expr : ReadsSums Sum.expr := fun s t hs => by
  rw [s.ofTree_spelled hs, s.toExpr_chain, Expr.signed_false]

/-- A text that is cut into the words of a program is parsed and read as this program, unless the
program nests too deep. -/
theorem Program.run_of_words {table : Table} (ht : Table.build .fortress = .ok table)
    {p : Program} (hp : p.wellNamed = true) {text : String} {tokens : List Token}
    {finish : Position} (hstream : TokenStream.ofText text = ⟨tokens.map .ok, finish⟩)
    (hwords : tokens.map Token.word = p.words) :
    (p.nesting ≤ nestingLimit → ∃ tree,
      (Parser.run table (.ofStream (.ofText text))).1 = .ok tree ∧
        FortressLang.Program.ofTree tree = .ok (p.withSums Sum.expr)) ∧
    (nestingLimit < p.nesting → ∃ found, (Parser.run table (.ofStream (.ofText text))).1 =
      .error (.nestingTooDeep nestingLimit found)) := by
  obtain ⟨tree, hderivation, hread⟩ := p.exists_derivation readsSums_expr hp hwords
  obtain ⟨hok, hdeep⟩ := Parser.run_of_derivation ht Grammar.endFree_fortress hderivation
  rw [hstream]
  exact ⟨fun hn => ⟨tree, hok hn, hread⟩, hdeep⟩

def Program.assigning (name target : String) (value : Sum) : Program :=
  ⟨name, [.assign target value]⟩

section

variable {name target : String} {value : Sum}

theorem Program.wellNamed_assigning (hname : isProgramName name = true)
    (htarget : isVariable target = true) (hvalue : value.wellNamed = true) :
    (assigning name target value).wellNamed = true := by
  simp [assigning, Program.wellNamed, Statement.wellNamedAll, Statement.wellNamed, hname, htarget,
    hvalue]

theorem Program.nesting_assigning : (assigning name target value).nesting = value.nesting + 3 := by
  simp [assigning, Program.nesting, Statement.nestingAll, Statement.nesting]

theorem Program.withSums_assigning (f : Sum → Expr) :
    (assigning name target value).withSums f = ⟨name, [.assign target (f value)]⟩ := by
  simp [assigning, withSums, Statement.withSumsAll, Statement.withSums]

end

/-- For every program whose names are well formed and whose numbers are constants, and every text in
which its words stand with blanks between them: if the program keeps to the nesting limit, the text
is parsed, and from the tree is read that program, with an expression for each of its sums. That is
the one which is read from a tree of the sum, whichever it is. If the program nests too deep, the
parse says so. -/
theorem written_program_is_read_back {table : Table} (ht : Table.build .fortress = .ok table)
    {p : Program} (hp : p.wellNamed = true) {text : String} (htext : Layout p.words text.toList) :
    (p.nesting ≤ nestingLimit → ∃ tree f,
      (Parser.run table (.ofStream (.ofText text))).1 = .ok tree ∧
      FortressLang.Program.ofTree tree = .ok (p.withSums f) ∧
      ∀ s : Sum, s.wellNamed = true →
        (∃ t, s.Spelled t) ∧ ∀ t, s.Spelled t → Expr.ofTree t = .ok (f s)) ∧
    (nestingLimit < p.nesting → ∃ found, (Parser.run table (.ofStream (.ofText text))).1 =
      .error (.nestingTooDeep nestingLimit found)) := by
  obtain ⟨tokens, finish, hstream, hwords⟩ := htext.ofText (p.whole_words hp)
  have hf : ReadsSums fun s => (s.chain {}).toExpr := fun s t hs => s.ofTree_spelled hs
  obtain ⟨tree, hderivation, hread⟩ := p.exists_derivation hf hp hwords
  obtain ⟨hok, hdeep⟩ := Parser.run_of_derivation ht Grammar.endFree_fortress hderivation
  rw [hstream]
  refine ⟨fun hn => ⟨tree, _, hok hn, hread, fun s hs => ?_⟩, hdeep⟩
  exact ⟨s.exists_tree hs, hf s⟩

def variableSum (x : String) : Sum := .of (.of (.named x) .stop) .stop

def numberSum (n : Int32) : Sum := .of (.of (.number n) .stop) .stop

def lessOne (x : String) : Sum :=
  .of (.of (.named x) .stop) (.step true (.of (.number 1) .stop) .stop)

/-- Counts down from a number that it reads. -/
def countdown : Program where
  name := "Down"
  statements :=
    [.read "n",
      .loop ⟨variableSum "n", .greater, numberSum 0⟩ [.print "n", .assign "n" (lessOne "n")],
      .onlyIf ⟨numberSum 0, .smaller, variableSum "n"⟩ [.print "n"]]

def countdownText : String :=
  " BEGIN Down READ ( n ) , WHILE ( n > 0 ) DO PRINT ( n ) , n := n - 1 , END ," ++
    " IF ( 0 < n ) THEN PRINT ( n ) , END , END"

theorem layout_countdownText : Layout countdown.words countdownText.toList := by
  have htext : countdownText.toList = countdown.words.flatMap fun w => ' ' :: w.lexeme.toList := by
    decide +kernel
  rw [htext]
  exact layout_spaced countdown.words

/-- The parts of the loop and of the conditional are read where they were written. -/
theorem countdown_is_read_back : ∃ (table : Table) (tree : Tree) (f : Sum → Expr),
    Table.build .fortress = .ok table ∧
    countdown.wellNamed = true ∧ Layout countdown.words countdownText.toList ∧
    (Parser.run table (.ofStream (.ofText countdownText))).1 = .ok tree ∧
    FortressLang.Program.ofTree tree = .ok ⟨"Down",
      [.read "n",
        .loop ⟨f (variableSum "n"), .greater, f (numberSum 0)⟩
          [.print "n", .assign "n" (f (lessOne "n"))],
        .branch ⟨f (numberSum 0), .smaller, f (variableSum "n")⟩ [.print "n"] []]⟩ ∧
    ∀ t, (lessOne "n").Spelled t → Expr.ofTree t = .ok (f (lessOne "n")) := by
  have hnamed : countdown.wellNamed = true := by decide +kernel
  obtain ⟨tree, f, hparse, hread, hf⟩ :=
    (written_program_is_read_back Grammar.build_fortress hnamed layout_countdownText).1
      (by decide +kernel)
  have hless := hf (lessOne "n") (by decide +kernel)
  exact ⟨_, tree, f, Grammar.build_fortress, hnamed, layout_countdownText, hparse, hread, hless.2⟩

end Source
end FortressLang
