import FortressLang.Proofs.AcceptedPrograms
import FortressLang.Proofs.ReadParts

/-! Programs that are read from the trees of any grammar with a table. A grammar may put statements
and operands where the reading of a program does not pass, and these are then lost without an
error. -/
namespace FortressLang

theorem Derives.tokens_eq {g : Grammar} {xs : List Symbol} {ts : List Tree} {w : List Token}
    {n : Nat} (h : Derives g xs ts w n) : ts.flatMap Tree.tokens = w := by
  induction h with
  | nil => rfl
  | epsilon h ih => exact ih
  | token found hf hx h ih =>
    rw [List.flatMap_cons, ih, Tree.tokens_eq]
    rfl
  | node r hr h₁ h₂ ih₁ ih₂ =>
    rw [List.flatMap_cons, ih₂, Tree.tokens_eq, Tree.children, ih₁]
    rfl

/-- Each instruction node of the tree is one statement of the program, and each operand token of its
sums is one operand in the program. -/
def Program.AccountsFor (p : Program) (t : Tree) : Prop :=
  (∃ is, is.Perm (t.nodesOf .instruction) ∧
    List.Forall₂ Statement.Shown is (Statement.flatAll p.statements)) ∧
  ∃ xs, xs.Perm (Tree.sumOperands.gather t) ∧
    List.Forall₂ Token.Denotes xs (Statement.valuesAll p.statements)

/-- All instruction nodes and all operand tokens of sums stand on the way of the reading. -/
structure Tree.Lossless (t : Tree) : Prop where
  instructions : instructionsRead.Keeps instructionNodes t
  operands : operandsRead.Keeps sumOperands t

/-- For every grammar with a table and every text that is parsed with it: the tree is read or found
to be malformed. The statements are read from instruction nodes and the operands from operand tokens
of sums, none from the same twice. None is lost exactly if the tree is lossless, and the statements
stand in the order of the nodes if they do so on the way of the reading. -/
theorem lossless_trees_are_read_whole {g : Grammar} {table : Table} (hg : g.Known)
    (ht : Table.build g = .ok table) {text : String} {tree : Tree}
    (h : (Parser.run table (.ofStream (.ofText text))).1 = .ok tree) :
    (∀ issue, Program.ofTree tree = .error issue →
      ∃ expected found, issue = .malformedTree expected found) ∧
    ∀ p, Program.ofTree tree = .ok p →
      (∃ is, is.Subperm (tree.nodesOf .instruction) ∧
        List.Forall₂ Statement.Shown is (Statement.flatAll p.statements)) ∧
      (∃ xs, xs.Subperm (Tree.sumOperands.gather tree) ∧
        List.Forall₂ Token.Denotes xs (Statement.valuesAll p.statements)) ∧
      (p.AccountsFor tree ↔ tree.Lossless) ∧
      (Tree.instructionsRead.Follows Tree.instructionNodes tree →
        List.Forall₂ Statement.Shown (tree.nodesOf .instruction)
          (Statement.flatAll p.statements)) := by
  obtain ⟨w, n, hd, hw⟩ := derives_of_accepted hg.endFree ht h
  have htokens : ∀ x ∈ tree.tokens, Source.Numeral x := by
    have htree := hd.tokens_eq
    rw [List.flatMap_singleton] at htree
    rwa [htree]
  have hread := tree.yields_program htokens
  refine ⟨fun issue hissue => by rwa [hissue] at hread, fun p hp => ?_⟩
  rw [hp] at hread
  obtain ⟨hstatements, hvalues⟩ := hread
  rw [List.flatMap_singleton] at hstatements hvalues
  have hinstructions := Tree.instructionsRead_within
  have hoperands := Tree.operandsRead_within
  rw [← Tree.gather_instructionNodes]
  refine ⟨⟨_, hinstructions.gather_subperm tree, hstatements⟩,
    ⟨_, hoperands.gather_subperm tree, hvalues⟩, ?_, fun hfollows => ?_⟩
  · rw [Program.AccountsFor, ← Tree.gather_instructionNodes,
      hinstructions.exists_perm_iff hstatements, hoperands.exists_perm_iff hvalues]
    exact ⟨fun h => ⟨h.1, h.2⟩, fun h => ⟨h.1, h.2⟩⟩
  · rwa [← hfollows.gather_eq]

/-- Programs of two blocks of assignments, with `DO` between them. -/
def twoBlocks : Grammar :=
  .ofProductions [⟨.program, [.terminal .beginWord, .terminal .progName, .nonterminal .code,
      .terminal .doWord, .nonterminal .code, .terminal .endWord]⟩,
    ⟨.code, [.nonterminal .instruction, .terminal .comma, .nonterminal .code]⟩,
    ⟨.code, [.terminal .epsilon]⟩,
    ⟨.instruction, [.nonterminal .assignment]⟩,
    ⟨.assignment, [.terminal .varName, .terminal .assign, .nonterminal .sum]⟩,
    ⟨.sum, [.terminal .varName]⟩]
    (by decide)

def twoBlocksText : String :=
  "<Program>;BEGIN;[ProgName];<Code>;DO;<Code>;END\n" ++
    "<Code>;<Instruction>;,;<Code>\n<Code>;E\n<Instruction>;<Assign>\n" ++
    "<Assign>;[VarName];:=;<ExprArith>\n<ExprArith>;[VarName]"

set_option maxRecDepth 4000 in
theorem ofDescription_twoBlocks : Grammar.ofDescription twoBlocksText = .ok twoBlocks := rfl

theorem twoBlocks_known : twoBlocks.Known := .inr ⟨_, ofDescription_twoBlocks⟩

def twoBlocksOpenings (k : Nat) : Openings where
  first := .tabulate fun a => .found k (match a with
    | .program => [(.beginWord, 1)]
    | .code => [(.varName, 3)]
    | .instruction => [(.varName, 2)]
    | .assignment | .sum => [(.varName, 1)]
    | _ => [])
  nullable := .tabulate fun a => decide (1 ≤ k ∧ a = .code)

def twoBlocksFollow (k : Nat) : Family TerminalSet :=
  .tabulate fun a => .found k (match a with
    | .program => [(.endOfStream, 1)]
    | .code => [(.doWord, 1), (.endWord, 1)]
    | .instruction => [(.comma, 1)]
    | .assignment => [(.comma, 2)]
    | .sum => [(.comma, 3)]
    | _ => [])

def twoBlocksLookahead : Lookahead := ⟨twoBlocksOpenings 3, twoBlocksFollow 3⟩

theorem lookahead_twoBlocks : Lookahead.ofGrammar twoBlocks = twoBlocksLookahead := by
  have ho := Openings.ofGrammar_eq (g := twoBlocks) twoBlocksOpenings (k := 3) (by decide)
    (by decide +kernel) (by decide +kernel) (by decide +kernel)
  have hf := Follow.ofGrammar_eq (g := twoBlocks) (o := twoBlocksOpenings 3) twoBlocksFollow
    (k := 3) (by decide) (by decide +kernel) (by decide +kernel) (by decide +kernel)
  exact Lookahead.ofGrammar_eq ho hf

def twoBlocksTable : Table := .ofLookahead twoBlocks twoBlocksLookahead

theorem build_twoBlocks : Table.build twoBlocks = .ok twoBlocksTable := by
  have hc :
      (Table.ofLookahead twoBlocks twoBlocksLookahead).conflict? twoBlocksLookahead = none := by
    decide +kernel
  rw [Table.build, lookahead_twoBlocks, hc]
  rfl

def copyTree (column : Nat) : Tree :=
  .node (.nonterminal .assignment)
    [.leaf ⟨.varName, "a", ⟨1, column⟩⟩, .leaf ⟨.assign, ":=", ⟨1, column + 2⟩⟩,
      .node (.nonterminal .sum) [.leaf ⟨.varName, "b", ⟨1, column + 5⟩⟩]]

def twoBlocksTree (second : Tree) (column : Nat) : Tree :=
  .node (.nonterminal .program)
    [.leaf ⟨.beginWord, "BEGIN", ⟨1, 1⟩⟩, .leaf ⟨.progName, "P", ⟨1, 7⟩⟩,
      blockOf (copyTree 9) 15, .leaf ⟨.doWord, "DO", ⟨1, 17⟩⟩, second,
      .leaf ⟨.endWord, "END", ⟨1, column⟩⟩]

def copyStatement : Statement := .assign "a" (.operand ⟨.variable "b", false⟩)

theorem ofTree_copyTree (column : Nat) :
    Statement.ofTree (.node (.nonterminal .instruction) [copyTree column]) =
      .ok copyStatement := by
  have hraised (x : Token) : (Tree.node (.nonterminal .sum) [.leaf x]).raise =
      .node (.nonterminal .sum) [.leaf x] := by
    simp [Tree.raise_eq (.node _ _), Tree.lift, Tree.children, Tree.label,
      Tree.leaf_isPlaceholder, Tree.raise_leaf]
  have hsum : Expr.ofTree (.node (.nonterminal .sum)
      [.leaf ⟨.varName, "b", ⟨1, column + 5⟩⟩]) = .ok (.operand ⟨.variable "b", false⟩) := by
    rw [Expr.ofTree, hraised]
    rfl
  exact Statement.ofTree_assign rfl _ rfl hsum

theorem ofTree_twoBlocksTree (second : Tree) (column : Nat) :
    Program.ofTree (twoBlocksTree second column) = .ok ⟨"P", [copyStatement]⟩ := by
  have hkind : (twoBlocksTree second column).nonterminal? = some .program := rfl
  have hname : (twoBlocksTree second column).requireLexeme .progName .programName = .ok "P" := rfl
  have hcode : (twoBlocksTree second column).childOf? .code = some (blockOf (copyTree 9) 15) := rfl
  have hblock : Statement.listOfTree (blockOf (copyTree 9) 15) = .ok [copyStatement] :=
    Statement.listOfTree_cons _ rfl rfl (ofTree_copyTree 9) Statement.listOfTree_nil
  rw [Program.ofTree, if_pos hkind, hname, Tree.require_eq hcode]
  simp only [bind, Except.bind, hblock]

def emptySecondText : String := "BEGIN P a := b, DO END"

def emptySecondTree : Tree := twoBlocksTree (.node (.nonterminal .code) []) 20

theorem parse_emptySecondText :
    (Parser.run twoBlocksTable (.ofStream (.ofText emptySecondText))).1 = .ok emptySecondTree := by
  decide +kernel

/-- With nothing in the second block the tree is lossless. -/
theorem empty_second_block_is_read_whole :
    twoBlocks.Known ∧ Table.build twoBlocks = .ok twoBlocksTable ∧
      (Parser.run twoBlocksTable (.ofStream (.ofText emptySecondText))).1 = .ok emptySecondTree ∧
      Program.ofTree emptySecondTree = .ok ⟨"P", [copyStatement]⟩ ∧ emptySecondTree.Lossless := by
  have hp := ofTree_twoBlocksTree (.node (.nonterminal .code) []) 20
  have hread := lossless_trees_are_read_whole twoBlocks_known build_twoBlocks parse_emptySecondText
  have hnodes : emptySecondTree.nodesOf .instruction =
      [.node (.nonterminal .instruction) [copyTree 9]] := by decide
  have hoperands : Tree.sumOperands.gather emptySecondTree = [⟨.varName, "b", ⟨1, 14⟩⟩] := by
    simp [Walk.gather_eq, Tree.sumOperands, Tree.isSum, Tree.nonterminal?, Tree.label,
      Tree.children, emptySecondTree, twoBlocksTree, blockOf, copyTree, Tree.leaf, Tree.operands_eq,
      Tree.token?, Token.isOperand]
  have hall : Program.AccountsFor ⟨"P", [copyStatement]⟩ emptySecondTree := by
    rw [Program.AccountsFor, hnodes, hoperands]
    exact ⟨⟨_, .refl _, .cons ⟨rfl, rfl, ofTree_copyTree 9⟩ .nil⟩,
      ⟨_, .refl _, .cons ⟨rfl, rfl⟩ .nil⟩⟩
  have hlossless := (hread.2 _ hp).2.2.1.mp hall
  exact ⟨twoBlocks_known, build_twoBlocks, parse_emptySecondText, hp, hlossless⟩

def lostSecondText : String := "BEGIN P a := b, DO a := b, END"

def lostSecondTree : Tree := twoBlocksTree (blockOf (copyTree 20) 26) 28

theorem parse_lostSecondText :
    (Parser.run twoBlocksTable (.ofStream (.ofText lostSecondText))).1 = .ok lostSecondTree := by
  decide +kernel

/-- The statement of a second block is lost without an error. -/
theorem second_block_is_lost :
    twoBlocks.Known ∧ Table.build twoBlocks = .ok twoBlocksTable ∧
      (Parser.run twoBlocksTable (.ofStream (.ofText lostSecondText))).1 = .ok lostSecondTree ∧
      Program.ofTree lostSecondTree = .ok ⟨"P", [copyStatement]⟩ ∧
      (lostSecondTree.nodesOf .instruction).length = 2 ∧
      ¬Program.AccountsFor ⟨"P", [copyStatement]⟩ lostSecondTree := by
  have htwo : (lostSecondTree.nodesOf .instruction).length = 2 := by decide
  have hp := ofTree_twoBlocksTree (blockOf (copyTree 20) 26) 28
  refine ⟨twoBlocks_known, build_twoBlocks, parse_lostSecondText, hp, htwo, ?_⟩
  rintro ⟨⟨is, hperm, hshown⟩, -⟩
  have hone := hshown.length_eq
  rw [hperm.length_eq, htwo] at hone
  cases hone

end FortressLang
