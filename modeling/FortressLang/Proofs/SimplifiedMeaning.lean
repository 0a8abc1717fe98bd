import FortressLang.Proofs.FortressTable
import FortressLang.Proofs.MovedSigns
import FortressLang.Proofs.ParsedSums

/-! Over the integers, the expression of a parsed sum is worth what the sum is worth as it was
written. -/
namespace FortressLang

theorem Arithmetic.integers_carries (a b : Int) : Arithmetic.integers.Carries a b := by
  by_cases hb : b = 0 <;> simp [Carries, integers, hb, Int.neg_tdiv]

theorem Source.Sum.value?_ofTree {s : Source.Sum} {t : Tree} (hs : s.Spelled t) {e : Expr}
    (he : Expr.ofTree t = .ok e) {α : Type} (A : Arithmetic α) (ρ : String → α) :
    e.value? A ρ = s.moved? A ρ false := by
  rw [s.ofTree_spelled hs, s.toExpr_chain] at he
  obtain rfl := Except.ok.inj he
  exact s.value?_expr A ρ false

theorem Source.Sum.moved?_of_faithful {α : Type} {A : Arithmetic α} {ρ : String → α}
    {s : Source.Sum} (hs : s.Faithful A ρ false) : s.moved? A ρ false = s.value? A ρ := by
  have hsigned : A.signed false = id := rfl
  rw [s.moved?_eq ρ hs, hsigned, Option.map_id, id]

/-- For every text and every sum in the tree that is parsed from it: there is one expression for
that sum, and under all integers for the variables it has the value that reading the sum from left
to right gives, and none exactly where that divides by zero. -/
theorem simplified_sum_keeps_value {table : Table} (ht : Table.build .fortress = .ok table)
    {text : String} {tree t : Tree}
    (h : (Parser.run table (.ofStream (.ofText text))).1 = .ok tree) (hw : t.Within tree)
    (hs : t.nonterminal? = some .sum) :
    ∃ e, Expr.ofTree t = .ok e ∧ (∃ s : Source.Sum, s.Spelled t) ∧
      ∀ s : Source.Sum, s.Spelled t → ∀ ρ : String → Int,
        e.value? .integers ρ = s.value? .integers ρ := by
  obtain ⟨w, n, hd, hnumerals⟩ := derives_of_parsed ht h hw hs
  obtain ⟨s, hspelled⟩ := Source.exists_spelled hd hnumerals
  have he := s.ofTree_spelled hspelled
  refine ⟨_, he, ⟨s, hspelled⟩, fun s' hs' ρ => ?_⟩
  have hfaithful := s'.faithful_of_carries ρ Arithmetic.integers_carries false
  rw [Source.Sum.value?_ofTree hs' he, Source.Sum.moved?_of_faithful hfaithful]

def differenceText : String := "BEGIN P x := 7 - y / 2, END"

def differenceSum : Tree :=
  .node (.nonterminal .sum)
    [.node (.nonterminal .product)
      [.node (.nonterminal .atom) [.leaf ⟨.number, "7", ⟨1, 14⟩⟩],
        .node (.nonterminal .productRest) []],
      .node (.nonterminal .sumRest)
        [.leaf ⟨.minus, "-", ⟨1, 16⟩⟩,
          .node (.nonterminal .product)
            [.node (.nonterminal .atom) [.leaf ⟨.varName, "y", ⟨1, 18⟩⟩],
              .node (.nonterminal .productRest)
                [.leaf ⟨.divide, "/", ⟨1, 20⟩⟩,
                  .node (.nonterminal .atom) [.leaf ⟨.number, "2", ⟨1, 22⟩⟩],
                  .node (.nonterminal .productRest) []]],
          .node (.nonterminal .sumRest) []]]

def differenceTree : Tree :=
  .node (.nonterminal .program)
    [.leaf ⟨.beginWord, "BEGIN", ⟨1, 1⟩⟩, .leaf ⟨.progName, "P", ⟨1, 7⟩⟩,
      .node (.nonterminal .code)
        [.node (.nonterminal .instruction)
          [.node (.nonterminal .assignment)
            [.leaf ⟨.varName, "x", ⟨1, 9⟩⟩, .leaf ⟨.assign, ":=", ⟨1, 11⟩⟩, differenceSum]],
          .leaf ⟨.comma, ",", ⟨1, 23⟩⟩, .node (.nonterminal .code) []],
      .leaf ⟨.endWord, "END", ⟨1, 25⟩⟩]

theorem parse_differenceText :
    (Parser.run (.ofLookahead .fortress Grammar.fortressLookahead)
      (.ofStream (.ofText differenceText))).1 = .ok differenceTree := by
  decide +kernel

theorem differenceSum_within : differenceSum.Within differenceTree :=
  .child (.tail _ (.tail _ (.head _)))
    (.child (.head _) (.child (.head _) (.child (.tail _ (.tail _ (.head _))) .refl)))

/-- The difference keeps its value, and has one expression. -/
theorem simplified_difference_keeps_value :
    (Parser.run (.ofLookahead .fortress Grammar.fortressLookahead)
      (.ofStream (.ofText differenceText))).1 = .ok differenceTree ∧
    differenceSum.Within differenceTree ∧ differenceSum.nonterminal? = some .sum ∧
    ∃ e, Expr.ofTree differenceSum = .ok e ∧ (∃ s : Source.Sum, s.Spelled differenceSum) ∧
      ∀ s : Source.Sum, s.Spelled differenceSum → ∀ ρ : String → Int,
        e.value? .integers ρ = s.value? .integers ρ :=
  ⟨parse_differenceText, differenceSum_within, rfl,
    simplified_sum_keeps_value Grammar.build_fortress parse_differenceText differenceSum_within rfl⟩

end FortressLang
