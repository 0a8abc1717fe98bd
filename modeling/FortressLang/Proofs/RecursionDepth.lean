import FortressLang.Proofs.ExprHeight
import FortressLang.Proofs.HoistedStorage
import FortressLang.Proofs.ReadBack
import FortressLang.Proofs.TreeNesting

/-! What the nesting limit bounds in a program that compiles. Blocks keep to it, and so do the
expressions of sums whose products have their operators in the last factor. A factor that is not the
last comes to stand below the factors behind it, which the limit does not see. -/
namespace FortressLang

namespace Source

def timesRest : Nat → ProductRest
  | 0 => .stop
  | n + 1 => .step false (.named "a") (timesRest n)

def flatSum (n : Nat) : Sum := .of (.of (.named "a") (timesRest n)) .stop

/-- The same product with a part of it in parentheses, as the first factor. -/
def buriedSum (m n : Nat) : Sum := .of (.of (.group (flatSum m)) (timesRest n)) .stop

def Program.spaced (p : Program) : String :=
  String.ofList (p.words.flatMap fun w => ' ' :: w.lexeme.toList)

section

variable (m n : Nat)

@[simp] theorem wellNamed_timesRest : (timesRest n).wellNamed = true := by
  induction n with
  | zero => rfl
  | succ n ih =>
    have hname : isVariable "a" = true := by decide
    simp [timesRest, ProductRest.wellNamed, Atom.wellNamed, hname, ih]

theorem height_timesRest (first : Nat) : (timesRest n).height first = first + n := by
  induction n generalizing first with
  | zero => rfl
  | succ n ih =>
    rw [timesRest, ProductRest.height, ih, Atom.height]
    omega

theorem nesting_timesRest : (timesRest (n + 1)).nesting = n + 2 := by
  induction n with
  | zero => rfl
  | succ n ih =>
    rw [timesRest, ProductRest.nesting, ih, Atom.nesting]
    omega

theorem expr_timesRest (e : Expr) :
    (timesRest n).expr ((timesRest m).expr e) = (timesRest (m + n)).expr e := by
  induction m generalizing e with
  | zero => rw [Nat.zero_add]; rfl
  | succ m ih =>
    rw [Nat.succ_add, timesRest, timesRest, ProductRest.expr, ProductRest.expr, ih]

theorem expr_buriedSum : (buriedSum m n).expr = (flatSum (m + n)).expr := expr_timesRest m n _

theorem height_buriedSum : (buriedSum m n).height = m + n := by
  simp [buriedSum, flatSum, Sum.height, SumRest.height, Product.height, Atom.height,
    height_timesRest]

theorem nesting_flatSum : (flatSum (n + 1)).nesting = n + 4 := by
  simp only [flatSum, Sum.nesting, SumRest.nesting, Product.nesting, Atom.nesting,
    nesting_timesRest]
  omega

theorem nesting_buriedSum : (buriedSum (m + 1) (n + 1)).nesting = max (m + 5) (n + 2) + 2 := by
  simp only [buriedSum, Sum.nesting, SumRest.nesting, Product.nesting, Atom.nesting,
    nesting_flatSum, nesting_timesRest]
  omega

end

theorem wellNamed_flatSum (n : Nat) : (flatSum n).wellNamed = true := by
  have hname : isVariable "a" = true := by decide
  simp [flatSum, Sum.wellNamed, SumRest.wellNamed, Product.wellNamed, Atom.wellNamed, hname]

theorem wellNamed_buriedSum (m n : Nat) : (buriedSum m n).wellNamed = true := by
  simp [buriedSum, Sum.wellNamed, SumRest.wellNamed, Product.wellNamed, Atom.wellNamed,
    wellNamed_flatSum]

theorem wellNamed_assigning_x {s : Sum} (hs : s.wellNamed = true) :
    (Program.assigning "P" "x" s).wellNamed = true :=
  Program.wellNamed_assigning (by decide) (by decide) hs

theorem Program.run_spaced {table : Table} (ht : Table.build .fortress = .ok table) {p : Program}
    (hp : p.wellNamed = true) :
    (p.nesting ≤ nestingLimit → ∃ tree,
      (Parser.run table (.ofStream (.ofText p.spaced))).1 = .ok tree ∧
        FortressLang.Program.ofTree tree = .ok (p.withSums Sum.expr)) ∧
    (nestingLimit < p.nesting → ∃ found, (Parser.run table (.ofStream (.ofText p.spaced))).1 =
      .error (.nestingTooDeep nestingLimit found)) := by
  have hlayout : Layout p.words p.spaced.toList := by
    rw [spaced, String.toList_ofList]
    exact layout_spaced p.words
  obtain ⟨tokens, finish, hstream, hwords⟩ := hlayout.ofText (p.whole_words hp)
  exact p.run_of_words ht hp hstream hwords

end Source

/-- For every source that compiles: the blocks of its program nest less than half as deep as the
limit. Each expression in it is read from a sum in the tree, and has the height that this sum has as
it is written. That keeps to the limit if products have their operators in the last factor, and
without that it is less than a sixth of the square of the limit. -/
theorem compiled_program_is_bounded {table : Table} (ht : Table.build .fortress = .ok table)
    {runtime source : String} {c : Compilation} (h : table.compile runtime source = .ok c) :
    ∃ tree, (Parser.run table (.ofStream (.ofText source))).1 = .ok tree ∧
      Program.ofTree tree = .ok c.program ∧
      2 * Statement.depthAll c.program.statements < nestingLimit ∧
      ∀ e ∈ Statement.exprsAll c.program.statements, ∃ (t : Tree) (s : Source.Sum),
        t.Within tree ∧ s.Spelled t ∧ Expr.ofTree t = .ok e ∧ e.height = s.height ∧
        (s.operatorsLast = true → e.height < nestingLimit) ∧
        6 * e.height ≤ nestingLimit * (nestingLimit - 1) := by
  obtain ⟨tree, p, hparse, hread, rfl⟩ := Table.compile_eq_ok.mp h
  have hlimit := Parser.nesting_of_run ht Grammar.endFree_fortress hparse
  obtain ⟨hdepth, hsums⟩ := Program.hasRoom_of_ofTree hread
  refine ⟨tree, hparse, hread, hdepth.trans_le hlimit, fun e he => ?_⟩
  obtain ⟨t, hwithin, hsum, heq⟩ := hsums e he
  obtain ⟨w, n, hd, hnumerals⟩ := derives_of_parsed ht hparse hwithin hsum
  obtain ⟨s, hspelled⟩ := Source.exists_spelled hd hnumerals
  obtain rfl : s.expr = e :=
    Except.ok.inj ((Source.readsSums_expr s t hspelled).symm.trans heq)
  have hnesting : s.nesting ≤ nestingLimit := by
    rw [← s.nesting_spelled hspelled]
    exact hwithin.nesting_le.trans hlimit
  refine ⟨t, s, hwithin, hspelled, heq, s.height_expr, fun hlast => ?_, ?_⟩
  · have hheight := s.height_lt_nesting hlast
    rw [s.height_expr]
    omega
  · have hheight := s.height_le
    have hsquare : s.nesting * (s.nesting - 1) ≤ nestingLimit * (nestingLimit - 1) :=
      Nat.mul_le_mul hnesting (Nat.sub_le_sub_right hnesting 1)
    rw [s.height_expr]
    rw [Nat.mul_sub, Nat.mul_one] at hsquare
    omega

/-- A loop around a product whose first factor is one. -/
def Source.powerLoop : Source.Program :=
  ⟨"P", [.loop ⟨flatSum 0, .smaller, flatSum 1⟩ [.assign "x" (buriedSum 1 1)]]⟩

theorem power_loop_is_bounded :
    ∃ (c : Compilation) (tree : Tree),
      (Table.ofLookahead .fortress Grammar.fortressLookahead).compile ""
        " BEGIN P WHILE ( a < a * a ) DO x := ( a * a ) * a , END , END" = .ok c ∧
      c.program = Source.powerLoop.withSums Source.Sum.expr ∧ Program.ofTree tree = .ok c.program ∧
      2 * Statement.depthAll c.program.statements < nestingLimit ∧
      ∀ e ∈ Statement.exprsAll c.program.statements, ∃ (t : Tree) (s : Source.Sum),
        t.Within tree ∧ s.Spelled t ∧ Expr.ofTree t = .ok e ∧ e.height = s.height ∧
        (s.operatorsLast = true → e.height < nestingLimit) ∧
        6 * e.height ≤ nestingLimit * (nestingLimit - 1) := by
  have hnamed : Source.powerLoop.wellNamed = true := by decide
  have htext : Source.powerLoop.spaced =
      " BEGIN P WHILE ( a < a * a ) DO x := ( a * a ) * a , END , END" := by decide +kernel
  obtain ⟨tree, htree, hread⟩ :=
    (Source.Program.run_spaced Grammar.build_fortress hnamed).1 (by decide)
  obtain ⟨c, hc, hprogram⟩ := Table.exists_compile htree hread ""
  rw [htext] at hc
  obtain ⟨tree', -, hbounded⟩ := compiled_program_is_bounded Grammar.build_fortress hc
  exact ⟨c, tree', hc, hprogram, hbounded⟩

/-- A product with its first factors in parentheses compiles, and its expression is as high as it
has operators. -/
theorem compile_buriedSum {table : Table} (ht : Table.build .fortress = .ok table) {m n : Nat}
    (h : max (m + 5) (n + 2) + 5 ≤ nestingLimit) (runtime : String) :
    ∃ (c : Compilation) (e : Expr),
      table.compile runtime
        (Source.Program.assigning "P" "x" (Source.buriedSum (m + 1) (n + 1))).spaced = .ok c ∧
      c.program = ⟨"P", [.assign "x" e]⟩ ∧ e.height = m + n + 2 ∧
      e = (Source.flatSum (m + n + 2)).expr := by
  have hnamed := Source.wellNamed_assigning_x (Source.wellNamed_buriedSum (m + 1) (n + 1))
  have hnesting : (Source.Program.assigning "P" "x" (Source.buriedSum (m + 1) (n + 1))).nesting ≤
      nestingLimit := by
    rw [Source.Program.nesting_assigning, Source.nesting_buriedSum]
    exact h
  obtain ⟨tree, htree, hread⟩ := (Source.Program.run_spaced ht hnamed).1 hnesting
  obtain ⟨c, hc, hprogram⟩ := Table.exists_compile htree hread runtime
  refine ⟨c, (Source.buriedSum (m + 1) (n + 1)).expr, hc, hprogram, ?_, ?_⟩
  · rw [Source.Sum.height_expr, Source.height_buriedSum]
    omega
  · rw [Source.expr_buriedSum, show m + 1 + (n + 1) = m + n + 2 by omega]

/-- The limit does not bound the height of expressions: a product of 257 names in parentheses, times
257 more, compiles to an expression with 513 operators one below the other. Written without the
parentheses it is the same expression, and is refused. -/
theorem buried_factor_exceeds_limit :
    (∃ (c : Compilation) (e : Expr),
      (Table.ofLookahead .fortress Grammar.fortressLookahead).compile ""
        (Source.Program.assigning "P" "x" (Source.buriedSum 256 257)).spaced = .ok c ∧
      c.program = ⟨"P", [.assign "x" e]⟩ ∧ nestingLimit < e.height ∧
      e = (Source.flatSum 513).expr) ∧
    ∃ found, (Parser.run (.ofLookahead .fortress Grammar.fortressLookahead)
      (.ofStream (.ofText (Source.Program.assigning "P" "x" (Source.flatSum 513)).spaced))).1 =
        .error (.nestingTooDeep nestingLimit found) := by
  obtain ⟨c, e, hc, hprogram, hheight, he⟩ :=
    compile_buriedSum Grammar.build_fortress (m := 255) (n := 256) (by decide) ""
  have hnamed := Source.wellNamed_assigning_x (Source.wellNamed_flatSum 513)
  have hdeep : nestingLimit < (Source.Program.assigning "P" "x" (Source.flatSum 513)).nesting := by
    rw [Source.Program.nesting_assigning, Source.nesting_flatSum]
    decide
  have hlimit : nestingLimit < e.height := by
    rw [hheight]
    decide
  exact ⟨⟨c, e, hc, hprogram, hlimit, he⟩,
    (Source.Program.run_spaced Grammar.build_fortress hnamed).2 hdeep⟩

end FortressLang
