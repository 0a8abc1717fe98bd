import FortressLang.Proofs.ChainReading
import FortressLang.Proofs.TreeWalks

/-! The operands of an expression and the tokens they are read from. A sum is read by a search that
ends at the first operand or operator, so not every operand token below it has to become an
operand. -/
namespace FortressLang

/-- The result has the property if there is one, and else the shape of the tree is at fault. -/
def Yields {α : Type} (P : α → Prop) : Except Issue α → Prop
  | .ok a => P a
  | .error issue => ∃ expected found, issue = .malformedTree expected found

namespace Yields

variable {α β : Type} {P : α → Prop} {Q : β → Prop}

theorem malformed {expected : Shape} {found : Tree.Label} :
    Yields P (.error (.malformedTree expected found)) := ⟨expected, found, rfl⟩

theorem bind {r : Except Issue α} {f : α → Except Issue β} (h : Yields P r)
    (hf : ∀ a, r = .ok a → P a → Yields Q (f a)) : Yields Q (r >>= f) := by
  cases r with
  | error issue => exact h
  | ok a => exact hf a rfl h

theorem map {r : Except Issue α} {f : α → β} (h : Yields P r) (hf : ∀ a, P a → Q (f a)) :
    Yields Q (f <$> r) := by
  cases r with
  | error issue => exact h
  | ok a => exact hf a h

theorem imp {r : Except Issue α} {P' : α → Prop} (h : Yields P r)
    (hP : ∀ a, r = .ok a → P a → P' a) : Yields P' r := by
  cases r with
  | error issue => exact h
  | ok a => exact hP a rfl h

end Yields

/-- The token stands for the value: a variable's name or a numeral. -/
def Token.Denotes (x : Token) : Value → Prop
  | .variable name => x.terminal = .varName ∧ x.lexeme = name
  | .constant n => x.terminal = .number ∧ Decimal.int32? x.lexeme.toList = some n

def Token.isOperand (x : Token) : Bool := x.terminal = .varName || x.terminal = .number

/-- The values of an expression from left to right, whatever their signs. -/
def Expr.values : Expr → List Value
  | operand o => [o.value]
  | binary _ lhs rhs => lhs.values ++ rhs.values

theorem Expr.values_negated (e : Expr) : e.negated.values = e.values := by
  induction e with
  | operand o => rfl
  | binary op lhs rhs ih _ => rw [negated, values, values, ih]

namespace Chain

def values : Chain → List Value
  | operand o => [o.value]
  | binary _ lhs rhs => lhs.values ++ rhs.values
  | group inner => inner.values
  | negated inner => inner.values

theorem values_wrap (m : Marks) (c : Chain) : (m.wrap c).values = c.values := by
  obtain ⟨negated, grouped⟩ := m
  cases negated <;> cases grouped <;> rfl

mutual

theorem values_toExpr : ∀ c : Chain, c.toExpr.values = c.values
  | operand o => rfl
  | group inner => by rw [toExpr, values, values_toExpr inner]
  | negated inner => by rw [toExpr, values, Expr.values_negated, values_toExpr inner]
  | binary op lhs rhs => by
    rw [toExpr, values]
    split
    · rw [values_endSum, values_toExpr lhs]
    · rw [values_endProduct, values_toExpr lhs]

theorem values_endSum (op : Operator) (first : Expr) :
    ∀ c : Chain, (c.endSum op first).values = first.values ++ c.values
  | operand o => rfl
  | group inner => by rw [endSum, Expr.values, values, values_toExpr inner]
  | negated inner => by
    rw [endSum, Expr.values, values, Expr.values_negated, values_toExpr inner]
  | binary next lhs rhs => by
    rw [endSum, values]
    split <;> split <;>
      simp only [Expr.values, Expr.values_negated, values_endSum _ _ rhs,
        values_endProduct _ _ rhs, values_toExpr lhs]

theorem values_endProduct (op : Operator) (first : Expr) :
    ∀ c : Chain, (c.endProduct op first).values = first.values ++ c.values
  | operand o => rfl
  | group inner => by rw [endProduct, Expr.values, values, values_toExpr inner]
  | negated inner => by
    rw [endProduct, Expr.values, values, Expr.values_negated, values_toExpr inner]
  | binary next lhs rhs => by
    rw [endProduct, values]
    split <;>
      simp only [Expr.values, values_endSum _ _ rhs, values_endProduct _ _ rhs,
        values_toExpr lhs, List.append_assoc]

end

end Chain

namespace Tree

def tokenWalk : Walk Token := ⟨children, fun t => t.token?.toList, id⟩

def tokens (t : Tree) : List Token := tokenWalk.gather t

theorem tokens_eq (t : Tree) : t.tokens = t.token?.toList ++ t.children.flatMap tokens :=
  tokenWalk.gather_eq t

@[simp] theorem tokens_leaf (x : Token) : (leaf x).tokens = [x] := by
  rw [tokens_eq]
  rfl

theorem tokens_nonterminal (a : Nonterminal) (ts : List Tree) :
    (node (.nonterminal a) ts).tokens = ts.flatMap tokens := tokens_eq _

def operands (t : Tree) : List Token := t.tokens.filter Token.isOperand

theorem operands_eq (t : Tree) :
    t.operands = t.token?.toList.filter Token.isOperand ++ t.children.flatMap operands := by
  rw [operands, tokens_eq, List.filter_append, List.filter_flatMap]
  rfl

/-- Lifting an operator moves its token, and drops what stands below the token. -/
theorem tokens_lift (t : Tree) : t.lift.tokens.Subperm t.tokens := by
  unfold lift
  split
  · rename_i l first k x ts rest more
    split
    · rename_i hl
      obtain ⟨a, rfl⟩ : ∃ a, l = .nonterminal a := by
        cases l with
        | nonterminal a => exact ⟨a, rfl⟩
        | token y => cases hl
      have hdropped := (List.sublist_append_right (ts.flatMap tokens)
        (rest.flatMap tokens ++ more.flatMap tokens)).cons_cons x
      have hmoved := @List.perm_middle _ x (first.tokens ++ (node k []).token?.toList)
        (rest.flatMap tokens ++ more.flatMap tokens)
      have hlifted : (node (.token x) (first :: node k rest :: more)).tokens =
          x :: (first.tokens ++ (node k []).token?.toList ++
            (rest.flatMap tokens ++ more.flatMap tokens)) := by
        simp [tokens_eq (node _ _), children, token?, label]
      have hunlifted : (node (.nonterminal a) (first :: node k (node (.token x) ts :: rest) ::
          more)).tokens = first.tokens ++ (node k []).token?.toList ++
            x :: (ts.flatMap tokens ++ (rest.flatMap tokens ++ more.flatMap tokens)) := by
        simp [tokens_eq (node _ _), children, token?, label]
      rw [hlifted, hunlifted]
      exact hmoved.symm.subperm.trans (hdropped.append_left _).subperm
    · exact List.Subperm.refl _
  · exact List.Subperm.refl _

theorem tokens_raise (t : Tree) : t.raise.tokens.Subperm t.tokens := by
  induction h : sizeOf t using Nat.strongRecOn generalizing t with
  | _ n ih =>
    have hlower : ∀ c ∈ t.lift.children.filter (!·.isPlaceholder),
        c.raise.tokens.Subperm c.tokens := by
      intro c hc
      have hlt := sizeOf_children_lt (List.mem_filter.mp hc).1
      exact ih _ (h ▸ Nat.lt_of_lt_of_le hlt (sizeOf_lift_le t)) c rfl
    have hchildren := subperm_flatMap List.filter_sublist.subperm hlower
    refine List.Subperm.trans ?_ (tokens_lift t)
    rw [raise_eq, tokens_eq, tokens_eq t.lift, children, List.flatMap_map]
    exact (List.Subperm.refl _).append hchildren

mutual

/-- The operand tokens that a search meets in a lifted tree. -/
def found : Tree → List Token
  | node (.nonterminal _) cs => foundFirst cs
  | node (.token x) cs =>
    if x.isOperand then [x]
    else if (Operator.ofTerminal? x.terminal).isSome then foundSides cs
    else []

/-- The next tree is searched only if nothing was met in the one before. -/
def foundFirst : List Tree → List Token
  | [] => []
  | t :: ts => if found t = [] then foundFirst ts else found t

def foundSides : List Tree → List Token
  | [l, r] => found l ++ found r
  | _ => []

end

mutual

/-- A search meets operand tokens in their order, each once. -/
theorem found_sublist : ∀ t : Tree, t.found.Sublist t.operands
  | node (.nonterminal a) cs => by
    rw [found, operands_eq]
    exact foundFirst_sublist cs
  | node (.token x) cs => by
    have hself : (node (.token x) cs).operands =
      [x].filter Token.isOperand ++ cs.flatMap operands := operands_eq _
    rw [found, hself]
    split
    · rename_i hx
      simp [List.filter_cons_of_pos hx]
    · split
      · exact (foundSides_sublist cs).trans (List.sublist_append_right _ _)
      · exact List.nil_sublist _

theorem foundFirst_sublist : ∀ ts : List Tree, (foundFirst ts).Sublist (ts.flatMap operands)
  | [] => List.Sublist.refl _
  | t :: ts => by
    rw [foundFirst, List.flatMap_cons]
    split
    · exact (foundFirst_sublist ts).trans (List.sublist_append_right _ _)
    · exact (found_sublist t).trans (List.sublist_append_left _ _)

theorem foundSides_sublist : ∀ ts : List Tree, (foundSides ts).Sublist (ts.flatMap operands)
  | [l, r] => by
    rw [foundSides, List.flatMap_cons, List.flatMap_singleton]
    exact (found_sublist l).append (found_sublist r)
  | [] => List.Sublist.refl _
  | [_] => List.nil_sublist _
  | _ :: _ :: _ :: _ => List.nil_sublist _

end

end Tree

namespace Chain

open FortressLang.Tree (found foundFirst foundSides)

/-- A search that ends at marks has met no operand, and the chain that it finds holds what it has
met. -/
def Met (xs : List Token) : Marks ⊕ Chain → Prop
  | .inl _ => xs = []
  | .inr c => xs ≠ [] ∧ List.Forall₂ Token.Denotes xs c.values

theorem yields_demand {xs : List Token} {a : Marks ⊕ Chain} (h : Met xs a) (t : Tree) :
    Yields (fun c => xs ≠ [] ∧ List.Forall₂ Token.Denotes xs c.values) (demand t a) := by
  cases a with
  | inl m => exact .malformed
  | inr c => exact h

theorem yields_search_operand (m : Marks) {x : Token} (hoperand : x.isOperand = true)
    (hx : Source.Numeral x) (cs : List Tree) :
    Yields (Met [x]) (search m (.node (.token x) cs)) := by
  rw [search]
  simp only [Token.isOperand, Bool.or_eq_true, decide_eq_true_eq] at hoperand
  rcases hoperand with hvariable | hnumber
  · simp only [hvariable]
    exact ⟨List.cons_ne_nil _ _, .cons ⟨hvariable, rfl⟩ .nil⟩
  · obtain ⟨n, hn⟩ := Option.isSome_iff_exists.mp (hx hnumber)
    simp only [hnumber, hn]
    exact ⟨List.cons_ne_nil _ _, .cons ⟨hnumber, hn⟩ .nil⟩

/-- Below a mark, or an operator that does not stand between two sides, nothing is met. -/
theorem yields_search_mark (m : Marks) {x : Token} (hx : x.isOperand = false) {cs : List Tree}
    (hcs : ∀ l r, cs = [l, r] → Operator.ofTerminal? x.terminal = none) :
    Yields (Met []) (search m (.node (.token x) cs)) := by
  rw [search]
  split
  · rfl
  · rfl
  · simp_all [Token.isOperand]
  · simp_all [Token.isOperand]
  · split
    · rfl
    · split
      · exact .malformed
      · rename_i hop _
        cases hop.symm.trans (hcs _ _ rfl)
      · exact .malformed

mutual

theorem yields_search (m : Marks) : ∀ t : Tree, (∀ x ∈ t.tokens, Source.Numeral x) →
    Yields (Met t.found) (search m t)
  | .node (.nonterminal a) cs, h => by
    rw [search, found]
    rw [Tree.tokens_eq] at h
    exact yields_searchAll m cs h
  | .node (.token x) cs, h => by
    rw [Tree.tokens_eq] at h
    obtain ⟨hx, hcs⟩ := List.forall_mem_append.mp h
    rw [found]
    split
    · rename_i hoperand
      exact yields_search_operand m hoperand (hx x List.mem_cons_self) cs
    · rename_i hother
      have hother := eq_false_of_ne_true hother
      split
      · rename_i hop
        obtain ⟨op, hop⟩ := Option.isSome_iff_exists.mp hop
        exact yields_searchSides m hother hop cs hcs
      · rename_i hop
        exact yields_search_mark m hother fun _ _ _ => Option.not_isSome_iff_eq_none.mp hop

theorem yields_searchAll (m : Marks) : ∀ ts : List Tree,
    (∀ x ∈ ts.flatMap Tree.tokens, Source.Numeral x) → Yields (Met (foundFirst ts)) (searchAll m ts)
  | [], _ => rfl
  | t :: ts, h => by
    rw [List.flatMap_cons, List.forall_mem_append] at h
    rw [searchAll, foundFirst]
    refine (yields_search m t h.1).bind fun a _ ha => ?_
    cases a with
    | inl m =>
      have hnone : t.found = [] := ha
      rw [if_pos hnone]
      exact yields_searchAll m ts h.2
    | inr c =>
      rw [if_neg ha.1]
      exact ha

theorem yields_searchSides (m : Marks) {x : Token} (hx : x.isOperand = false) {op : Operator}
    (hop : Operator.ofTerminal? x.terminal = some op) : ∀ cs : List Tree,
    (∀ x ∈ cs.flatMap Tree.tokens, Source.Numeral x) →
      Yields (Met (foundSides cs)) (search m (.node (.token x) cs))
  | [l, r], h => by
    simp only [List.flatMap_cons, List.flatMap_nil, List.append_nil, List.forall_mem_append] at h
    rw [search_sides m hop, foundSides]
    refine (yields_search {} l h.1).bind fun _ _ hl => ?_
    refine (yields_demand hl l).bind fun lhs _ hlhs => ?_
    refine (yields_search {} r h.2).bind fun _ _ hr => ?_
    refine (yields_demand hr r).bind fun rhs _ hrhs => ?_
    refine ⟨List.append_ne_nil_of_left_ne_nil hlhs.1 _, ?_⟩
    rw [values_wrap]
    exact List.rel_append hlhs.2 hrhs.2
  | [], _ => yields_search_mark m hx nofun
  | [_], _ => yields_search_mark m hx nofun
  | _ :: _ :: _ :: _, _ => yields_search_mark m hx nofun

end

end Chain

theorem Expr.yields_ofTree {t : Tree} (h : ∀ x ∈ t.tokens, Source.Numeral x) :
    Yields (fun e => List.Forall₂ Token.Denotes t.raise.found e.values) (Expr.ofTree t) := by
  have hraised := Chain.yields_search {} t.raise fun x hx => h x (t.tokens_raise.subset hx)
  have hchain := hraised.bind fun _ _ ha => Chain.yields_demand ha t.raise
  refine hchain.map fun c hc => ?_
  rw [Chain.values_toExpr]
  exact hc.2

end FortressLang
