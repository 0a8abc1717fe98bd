import FortressLang.OperatorChain
import FortressLang.Proofs.SourceExpr

/-! The chain that is read from the tree of a written sum. -/
namespace FortressLang
namespace Tree

theorem lift_of_not_isChain {l : Label} (hl : l.isChain = false) (cs : List Tree) :
    (node l cs).lift = node l cs := by
  unfold lift
  split
  · rename_i heq
    obtain ⟨rfl, rfl⟩ := node.inj heq
    simp [hl]
  · rfl

theorem leaf_isPlaceholder (x : Token) : (leaf x).isPlaceholder = false := rfl

theorem raise_leaf (x : Token) : (leaf x).raise = leaf x := by
  rw [raise_eq, leaf, lift_of_not_isChain rfl]
  rfl

theorem raise_of_not_isChain {l : Label} (hl : l.isChain = false) {cs : List Tree}
    (hcs : ∀ c ∈ cs, c.isPlaceholder = false) : (node l cs).raise = node l (cs.map raise) := by
  rw [raise_eq, lift_of_not_isChain hl]
  change node l ((cs.filter (!·.isPlaceholder)).map raise) = _
  rw [List.filter_eq_self.mpr fun c hc => by simp [hcs c hc]]

theorem raise_stop (l : Label) {t : Tree} (ht : t.isPlaceholder = false) (b : Nonterminal) :
    (node l [t, node (.nonterminal b) []]).raise = node l [t.raise] := by
  have hlift : (node l [t, node (.nonterminal b) []]).lift =
      node l [t, node (.nonterminal b) []] := by
    simp [lift]
  have hend : (node (.nonterminal b) []).isPlaceholder := rfl
  rw [raise_eq, hlift, children]
  simp [label, ht, hend]

theorem raise_step {a : Nonterminal} (ha : a.isChain) {t : Tree} (ht : t.isPlaceholder = false)
    (b : Nonterminal) (o : Token) (p r : Tree) :
    (node (.nonterminal a) [t, node (.nonterminal b) [leaf o, p, r]]).raise =
      node (.token o) [t.raise, (node (.nonterminal b) [p, r]).raise] := by
  have hlift : (node (.nonterminal a) [t, node (.nonterminal b) [leaf o, p, r]]).lift =
      node (.token o) [t, node (.nonterminal b) [p, r]] := by
    simp [lift, leaf, Label.isChain, ha]
  have hrest : (node (.nonterminal b) [p, r]).isPlaceholder = false := rfl
  rw [raise_eq, hlift, children]
  simp [label, ht, hrest]

end Tree

namespace Chain

theorem searchAll_singleton (m : Marks) (t : Tree) : searchAll m [t] = search m t := by
  rw [searchAll]
  cases search m t with
  | error issue => rfl
  | ok found => cases found <;> rfl

theorem search_nonterminal (m : Marks) (a : Nonterminal) (t : Tree) :
    search m (.node (.nonterminal a) [t]) = search m t := by
  rw [search, searchAll_singleton]

theorem search_mark {m m' : Marks} {a : Nonterminal} {t : Tree} {ts : List Tree}
    (h : search m t = .ok (.inl m')) :
    search m (.node (.nonterminal a) (t :: ts)) = searchAll m' ts := by
  rw [search, searchAll, h]
  rfl

theorem search_sides (m : Marks) {o : Token} {op : Operator}
    (ho : Operator.ofTerminal? o.terminal = some op) (l r : Tree) :
    search m (.node (.token o) [l, r]) = (do
      let lhs ← demand l (← search {} l)
      let rhs ← demand r (← search {} r)
      .ok (.inr (m.wrap (.binary op lhs rhs)))) := by
  rw [search]
  obtain ⟨x, lexeme, pos⟩ := o
  cases x <;> cases ho <;> rfl

theorem search_operator (m : Marks) {o : Token} {op : Operator}
    (ho : Operator.ofTerminal? o.terminal = some op) {l r : Tree} {lhs rhs : Chain}
    (hl : search {} l = .ok (.inr lhs)) (hr : search {} r = .ok (.inr rhs)) :
    search m (.node (.token o) [l, r]) = .ok (.inr (m.wrap (.binary op lhs rhs))) := by
  rw [search_sides m ho, hl, hr]
  rfl

end Chain

namespace Source

open Chain

mutual

/-- The chain of a sum under the marks that were met before it. -/
def Sum.chain : Sum → Marks → Chain
  | .of first rest, m => rest.chain (fun m => first.chain m) m

def SumRest.chain : SumRest → (Marks → Chain) → Marks → Chain
  | .stop, first, m => first m
  | .step minus next rest, first, m =>
    m.wrap (.binary (additive minus) (first {}) (rest.chain (fun m => next.chain m) {}))

def Product.chain : Product → Marks → Chain
  | .of first rest, m => rest.chain (fun m => first.chain m) m

def ProductRest.chain : ProductRest → (Marks → Chain) → Marks → Chain
  | .stop, first, m => first m
  | .step slash next rest, first, m =>
    m.wrap (.binary (multiplicative slash) (first {}) (rest.chain (fun m => next.chain m) {}))

def Atom.chain : Atom → Marks → Chain
  | .named x, m => m.operand (.variable x)
  | .number n, m => m.operand (.constant n)
  | .minus inner, m => inner.chain { m with negated := !m.negated }
  | .group inner, m => inner.chain { m with grouped := true }

end

theorem Atom.isPlaceholder_of_spelled {a : Atom} {t : Tree} (h : a.Spelled t) :
    t.isPlaceholder = false := by
  cases a with
  | named x => obtain ⟨v, rfl, -⟩ := h; rfl
  | number n => obtain ⟨v, rfl, -⟩ := h; rfl
  | minus inner => obtain ⟨m, a, rfl, -⟩ := h; rfl
  | group inner => obtain ⟨l, s, r, rfl, -⟩ := h; rfl

theorem Product.isPlaceholder_of_spelled {p : Product} {t : Tree} (h : p.Spelled t) :
    t.isPlaceholder = false := by
  obtain ⟨first, rest⟩ := p
  obtain ⟨a, r, rfl, -⟩ := h
  rfl

theorem Sum.isPlaceholder_of_spelled {s : Sum} {t : Tree} (h : s.Spelled t) :
    t.isPlaceholder = false := by
  obtain ⟨first, rest⟩ := s
  obtain ⟨p, r, rfl, -⟩ := h
  rfl

mutual

theorem Sum.search_chain (s : Sum) {t : Tree} (h : s.Spelled t) (m : Marks) :
    search m t.raise = .ok (.inr (s.chain m)) := by
  cases s with
  | of first rest =>
    obtain ⟨p, r, rfl, hp, hr⟩ := h
    exact rest.search_chain (a := .sum) rfl (first.isPlaceholder_of_spelled hp)
      (first.search_chain hp) hr m

theorem SumRest.search_chain (rest : SumRest) {a : Nonterminal} (ha : a.isChain) {t r : Tree}
    {first : Marks → Chain} (ht : t.isPlaceholder = false)
    (hfirst : ∀ m, search m t.raise = .ok (.inr (first m))) (h : rest.Spelled r) (m : Marks) :
    search m (Tree.node (.nonterminal a) [t, r]).raise = .ok (.inr (rest.chain first m)) := by
  cases rest with
  | stop =>
    obtain rfl := h
    rw [Tree.raise_stop _ ht, search_nonterminal, hfirst]
    rfl
  | step minus next rest =>
    obtain ⟨o, p, r, rfl, ho, hp, hr⟩ := h
    rw [Tree.raise_step ha ht]
    refine search_operator m ?_ (hfirst {}) (rest.search_chain (a := .sumRest) rfl
      (next.isPlaceholder_of_spelled hp) (next.search_chain hp) hr {})
    rw [ho]
    cases minus <;> rfl

theorem Product.search_chain (p : Product) {t : Tree} (h : p.Spelled t) (m : Marks) :
    search m t.raise = .ok (.inr (p.chain m)) := by
  cases p with
  | of first rest =>
    obtain ⟨a, r, rfl, ha, hr⟩ := h
    exact rest.search_chain (a := .product) rfl (first.isPlaceholder_of_spelled ha)
      (first.search_chain ha) hr m

theorem ProductRest.search_chain (rest : ProductRest) {a : Nonterminal} (ha : a.isChain)
    {t r : Tree} {first : Marks → Chain} (ht : t.isPlaceholder = false)
    (hfirst : ∀ m, search m t.raise = .ok (.inr (first m))) (h : rest.Spelled r) (m : Marks) :
    search m (Tree.node (.nonterminal a) [t, r]).raise = .ok (.inr (rest.chain first m)) := by
  cases rest with
  | stop =>
    obtain rfl := h
    rw [Tree.raise_stop _ ht, search_nonterminal, hfirst]
    rfl
  | step slash next rest =>
    obtain ⟨o, p, r, rfl, ho, hp, hr⟩ := h
    rw [Tree.raise_step ha ht]
    refine search_operator m ?_ (hfirst {}) (rest.search_chain (a := .productRest) rfl
      (next.isPlaceholder_of_spelled hp) (next.search_chain hp) hr {})
    rw [ho]
    cases slash <;> rfl

theorem Atom.search_chain (a : Atom) {t : Tree} (h : a.Spelled t) (m : Marks) :
    search m t.raise = .ok (.inr (a.chain m)) := by
  cases a with
  | named x =>
    obtain ⟨v, rfl, hv, rfl⟩ := h
    rw [Tree.raise_of_not_isChain rfl (by simp [Tree.leaf_isPlaceholder]), List.map_singleton,
      Tree.raise_leaf, search_nonterminal]
    rw [Tree.leaf, search, hv]
    rfl
  | number n =>
    obtain ⟨v, rfl, hv, hn⟩ := h
    rw [Tree.raise_of_not_isChain rfl (by simp [Tree.leaf_isPlaceholder]), List.map_singleton,
      Tree.raise_leaf, search_nonterminal]
    rw [Tree.leaf, search, hv]
    simp only [hn]
    rfl
  | minus inner =>
    obtain ⟨o, a, rfl, ho, ha⟩ := h
    rw [Tree.raise_of_not_isChain rfl (by
      simp [Tree.leaf_isPlaceholder, inner.isPlaceholder_of_spelled ha])]
    simp only [List.map_cons, List.map_nil, Tree.raise_leaf]
    have hmark : search m (.leaf o) = .ok (.inl { m with negated := !m.negated }) := by
      rw [Tree.leaf, search, ho]
      rfl
    rw [search_mark hmark, searchAll_singleton]
    exact inner.search_chain ha _
  | group inner =>
    obtain ⟨l, s, r, rfl, hl, hr, hs⟩ := h
    rw [Tree.raise_of_not_isChain rfl (by
      simp [Tree.leaf_isPlaceholder, inner.isPlaceholder_of_spelled hs])]
    simp only [List.map_cons, List.map_nil, Tree.raise_leaf]
    have hmark : search m (.leaf l) = .ok (.inl { m with grouped := true }) := by
      rw [Tree.leaf, search, hl]
    rw [search_mark hmark, searchAll, inner.search_chain hs]
    rfl

end

/-- The expression of a written sum is that of its chain. -/
theorem Sum.ofTree_spelled (s : Sum) {t : Tree} (h : s.Spelled t) :
    Expr.ofTree t = .ok (s.chain {}).toExpr := by
  rw [Expr.ofTree, Chain.ofTree, s.search_chain h]
  rfl

end Source
end FortressLang
