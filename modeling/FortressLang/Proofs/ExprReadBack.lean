import FortressLang.Proofs.CustomGrammars
import FortressLang.Proofs.ExprText
import FortressLang.Proofs.ReadBack
import FortressLang.Proofs.TreeNesting

/-! An expression is read back from its text, unless that nests too deep. The expressions that are
read from parsed texts are among those, so reading one again changes nothing. -/
namespace FortressLang

open Source (isVariable isProgramName)

def Expr.assigned (name target : String) (e : Expr) : Source.Program :=
  .assigning name target (.ofAtom (.ofExpr e))

def Expr.assignText (name target : String) (e : Expr) : String :=
  "BEGIN " ++ name ++ " " ++ target ++ " := " ++ e.text ++ ", END"

/-- The expression is read from the assignment of its text, or the text nests too deep. -/
def Expr.ReadsBack (table : Table) (e : Expr) : Prop :=
  ∀ name target, isProgramName name = true → isVariable target = true →
    ((e.assigned name target).nesting ≤ nestingLimit →
      ∃ tree, (Parser.run table (.ofStream (.ofText (e.assignText name target)))).1 = .ok tree ∧
        Program.ofTree tree = .ok ⟨name, [.assign target e]⟩) ∧
    (nestingLimit < (e.assigned name target).nesting →
      ∃ found, (Parser.run table (.ofStream (.ofText (e.assignText name target)))).1 =
        .error (.nestingTooDeep nestingLimit found))

section

variable {name target : String} {e : Expr}

theorem Expr.cutsInto_assignText (hname : isProgramName name = true)
    (htarget : isVariable target = true) (he : e.wellNamed = true) :
    CutsInto (e.assignText name target).toList (e.assigned name target).words [] := by
  have hend : CutsInto (Word.fixed .endWord).lexeme.toList [.fixed .endWord] [] :=
    .word (.keyword (by decide)) nofun
  have hcomma := (CutsInto.mark (t := .comma) (by decide) _).append hend.blank
  have hvalue := (e.cutsInto he (nameEnds_cons (by decide) _)).append hcomma
  have hassign := CutsInto.spaced (w := .fixed .assign) (.mark (by decide)) hvalue
  have htargeted := CutsInto.spaced (w := Source.variableWord target) (lexeme_variable htarget)
    hassign
  have hnamed := CutsInto.spaced (w := ⟨.progName, name⟩) (lexeme_programName hname) htargeted
  have hbegin := CutsInto.spaced (w := .fixed .beginWord) (.keyword (by decide)) hnamed
  have htext : (e.assignText name target).toList =
      (Word.fixed .beginWord).lexeme.toList ++ ' ' :: (name.toList ++ ' ' :: (target.toList ++
        ' ' :: ((Word.fixed .assign).lexeme.toList ++ ' ' :: (e.text.toList ++
          (Terminal.comma.spelling.toList ++ ' ' :: (Word.fixed .endWord).lexeme.toList))))) := by
    simp [assignText, Word.fixed, Terminal.spelling]
  have hwords : (e.assigned name target).words =
      .fixed .beginWord :: ⟨.progName, name⟩ :: Source.variableWord target :: .fixed .assign ::
        ((Source.Atom.ofExpr e).words ++ ([.fixed .comma] ++ [.fixed .endWord])) := by
    simp [assigned, Source.Program.assigning, Source.Program.words, Source.Statement.wordsAll,
      Source.Statement.words]
  rw [htext, hwords]
  exact hbegin

theorem Expr.readsBack {table : Table} (ht : Table.build .fortress = .ok table)
    (he : e.wellNamed = true) : e.ReadsBack table := by
  intro name target hname htarget
  have hp : (e.assigned name target).wellNamed = true := by
    refine Source.Program.wellNamed_assigning hname htarget ?_
    simp [Source.Atom.wellNamed_ofExpr, he]
  have hmeans : (e.assigned name target).withSums Source.Sum.expr = ⟨name, [.assign target e]⟩ := by
    simp [assigned, Source.Program.withSums_assigning, Source.Atom.expr_ofExpr]
  obtain ⟨tokens, finish, hstream, hwords⟩ := (cutsInto_assignText hname htarget he).ofText
  have hrun := Source.Program.run_of_words ht hp hstream hwords
  rwa [hmeans] at hrun

end

theorem Expr.wellNamed_iff {e : Expr} :
    e.wellNamed = true ↔ ∀ v ∈ e.values, v.wellNamed = true := by
  induction e with
  | operand o => simp [wellNamed, values]
  | binary op lhs rhs ihl ihr => simp [wellNamed, values, ihl, ihr, or_imp, forall_and]

theorem TokenStream.exact_of_ofText {text : String} {x : Token}
    (hx : .ok x ∈ (ofText text).results) :
    ∃ rest, Piece.Exact (.lexeme x.terminal) x.lexeme.toList rest := by
  obtain ⟨p, hp, hresult⟩ := List.mem_filterMap.mp hx
  obtain ⟨before, after, hps⟩ := List.append_of_mem hp
  have hexact := (Piece.tiles_ofText text.toList).exact before p after hps
  obtain ⟨kind, chars, pos⟩ := p
  cases kind with
  | lexeme t =>
    simp only [Piece.result?, Option.some.injEq, Except.ok.injEq] at hresult
    subst hresult
    refine ⟨after.flatMap Piece.chars, ?_⟩
    rw [String.toList_ofList]
    exact hexact
  | gap => cases hresult
  | overflow => cases hresult
  | unclosed => cases hresult
  | stray =>
    obtain ⟨c, -, hc⟩ := Option.map_eq_some_iff.mp hresult
    cases hc

theorem Decimal.nonneg_of_isNumeral {cs : List Char} (h : IsNumeral cs) {n : Int32}
    (hn : int32? cs = some n) : 0 ≤ n := by
  obtain ⟨c, ds, rfl, hc, hds⟩ := h
  have hdigits : (c :: ds).all Char.isDigit = true :=
    List.all_eq_true.mpr (List.forall_mem_cons.mpr ⟨hc, hds⟩)
  have hnatural : natural? (c :: ds) = some (numeralValue (c :: ds)) := by
    rw [natural?, if_pos ⟨List.cons_ne_nil _ _, hdigits⟩, numeralValue]
  have hvalue := toInt_of_int32? hn
  rw [integer?_of_natural? hnatural] at hvalue
  rw [Int32.le_iff_toInt_le, ← Option.some.inj hvalue]
  exact Int.natCast_nonneg _

theorem Piece.Exact.isVariable {cs rest : List Char} {k : Piece.Kind} (h : Exact k cs rest)
    (hk : k = .lexeme .varName) : IsVariable cs := by
  cases h with
  | varName hlongest => exact hlongest.1
  | mark ht | keyword ht hlongest =>
    cases hk
    exact absurd ht (by decide)
  | _ => cases hk

theorem Piece.Exact.isNumeral {cs rest : List Char} {k : Piece.Kind} (h : Exact k cs rest)
    (hk : k = .lexeme .number) : IsNumeral cs := by
  cases h with
  | number hlongest _ => exact hlongest.1
  | mark ht | keyword ht hlongest =>
    cases hk
    exact absurd ht (by decide)
  | _ => cases hk

theorem Token.Denotes.wellNamed {text : String} {x : Token}
    (hx : .ok x ∈ (TokenStream.ofText text).results) {v : Value} (h : x.Denotes v) :
    v.wellNamed = true := by
  obtain ⟨rest, hexact⟩ := TokenStream.exact_of_ofText hx
  rcases v with name | n
  · obtain ⟨hkind, rfl⟩ : x.terminal = .varName ∧ x.lexeme = name := h
    obtain ⟨c, cs, hcs, hc, hrest⟩ := hexact.isVariable (congrArg Piece.Kind.lexeme hkind)
    simp only [Value.wellNamed, isVariable, hcs, hc, List.all_eq_true.mpr hrest, Bool.and_self]
  · obtain ⟨hkind, hn⟩ : x.terminal = .number ∧ Decimal.int32? x.lexeme.toList = some n := h
    have hnumeral := hexact.isNumeral (congrArg Piece.Kind.lexeme hkind)
    exact decide_eq_true (Decimal.nonneg_of_isNumeral hnumeral hn)

theorem Parser.tokens_of_run {g : Grammar} {table : Table} (ht : Table.build g = .ok table)
    (hg : g.EndFree) {p : Parser} {tree : Tree} (h : (Parser.run table p).1 = .ok tree) :
    ∀ x ∈ tree.tokens, .ok x ∈ p.input.results := by
  obtain ⟨w, n, s, found, ⟨cs, m, hd, rfl, -⟩, -, hinput, -, -⟩ := derivation_of_run ht hg h
  intro x hx
  have htokens : (Tree.node (.nonterminal g.start.lhs) cs).children.flatMap Tree.tokens = w :=
    hd.tokens_eq
  rw [Tree.tokens_eq, htokens] at hx
  rw [hinput]
  exact List.mem_append_left _ (List.mem_map_of_mem hx)

theorem Tree.Within.tokens_subset {s t : Tree} (h : s.Within t) : s.tokens ⊆ t.tokens := by
  induction h with
  | refl => exact fun _ hx => hx
  | child hc _ ih =>
    intro x hx
    rw [tokens_eq]
    exact List.mem_append_right _ (List.mem_flatMap.mpr ⟨_, hc, ih hx⟩)

theorem Expr.wellNamed_of_parsed {table : Table} (ht : Table.build .fortress = .ok table)
    {text : String} {tree t : Tree}
    (h : (Parser.run table (.ofStream (.ofText text))).1 = .ok tree) (hw : t.Within tree)
    {e : Expr} (he : Expr.ofTree t = .ok e) : e.wellNamed = true := by
  have htokens : ∀ x ∈ t.tokens, .ok x ∈ (TokenStream.ofText text).results := fun x hx =>
    Parser.tokens_of_run ht Grammar.endFree_fortress h x (hw.tokens_subset hx)
  have hvalues := yields_ofTree (t := t) fun x hx => TokenStream.numeral_of_ofText (htokens x hx)
  rw [he] at hvalues
  have hfound : ∀ x ∈ t.raise.found, x ∈ t.tokens := fun x hx =>
    t.tokens_raise.subset (List.mem_of_mem_filter (t.raise.found_sublist.subset hx))
  exact wellNamed_iff.mpr (forall_mem_of_forall₂ hvalues fun x hx _ hdenotes =>
    hdenotes.wellNamed (htokens x (hfound x hx)))

/-- For every expression that is named as it may be, with signs on any of its operands: the text of
it, behind any target in any program, is parsed and read as that very expression, unless it nests
too deep, which the parse then says. And every sum in the tree of any parsed text has an expression
of this kind, so that to display it and to read it again changes nothing. -/
theorem displayed_expression_is_read_back {table : Table}
    (ht : Table.build .fortress = .ok table) :
    (∀ e : Expr, e.wellNamed = true → e.ReadsBack table) ∧
    ∀ (text : String) (tree t : Tree),
      (Parser.run table (.ofStream (.ofText text))).1 = .ok tree → t.Within tree →
        t.nonterminal? = some .sum →
          ∃ e, Expr.ofTree t = .ok e ∧ e.wellNamed = true ∧ e.ReadsBack table := by
  refine ⟨fun e he => Expr.readsBack ht he, fun text tree t h hw hs => ?_⟩
  obtain ⟨w, n, hd, hnumerals⟩ := derives_of_parsed ht h hw hs
  obtain ⟨s, hspelled⟩ := Source.exists_spelled hd hnumerals
  have he := s.ofTree_spelled hspelled
  have hnamed := Expr.wellNamed_of_parsed ht h hw he
  exact ⟨_, he, hnamed, Expr.readsBack ht hnamed⟩

def signedGroups : Expr :=
  .binary .sub (.operand ⟨.variable "y", true⟩)
    (.binary .mul (.operand ⟨.constant 2, false⟩)
      (.binary .sub (.operand ⟨.constant 7, true⟩) (.operand ⟨.variable "z1", true⟩)))

theorem signed_groups_are_read_back : ∃ (table : Table) (tree t : Tree),
    Table.build .fortress = .ok table ∧ signedGroups.wellNamed = true ∧
    isProgramName "P" = true ∧ isVariable "x" = true ∧
    (Parser.run table (.ofStream (.ofText "BEGIN P x := (-y - (2 * (-7 - -z1))), END"))).1 =
      .ok tree ∧
    Program.ofTree tree = .ok ⟨"P", [.assign "x" signedGroups]⟩ ∧
    t.Within tree ∧ t.nonterminal? = some .sum ∧
    ∃ e, Expr.ofTree t = .ok e ∧ e.wellNamed = true ∧ e.ReadsBack table := by
  have hnamed : signedGroups.wellNamed = true := by decide +kernel
  have hname : isProgramName "P" = true := by decide +kernel
  have htarget : isVariable "x" = true := by decide +kernel
  have htext : signedGroups.assignText "P" "x" = "BEGIN P x := (-y - (2 * (-7 - -z1))), END" := by
    decide +kernel
  obtain ⟨hdisplayed, hparsed⟩ := displayed_expression_is_read_back Grammar.build_fortress
  obtain ⟨tree, htree, hprogram⟩ :=
    (hdisplayed _ hnamed "P" "x" hname htarget).1 (by decide +kernel)
  rw [htext] at htree
  obtain ⟨t, hwithin, hsum, -⟩ :=
    (Program.hasRoom_of_ofTree hprogram).2 signedGroups (List.mem_append_left _ List.mem_cons_self)
  exact ⟨_, tree, t, Grammar.build_fortress, hnamed, hname, htarget, htree, hprogram, hwithin, hsum,
    hparsed _ tree t htree hwithin hsum⟩

end FortressLang
