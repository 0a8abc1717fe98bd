import FortressLang.Proofs.KeptOperands

/-! The tree of a sum after its operators are raised. Each operator has the first operand and the
rest of its chain as its two sides, nothing is left of a rest that ended, and the tokens are those
of the sum if an operator is read between its sides. -/
namespace FortressLang
namespace Tree

theorem forall_within_iff {P : Tree → Prop} {t : Tree} :
    (∀ s, s.Within t → P s) ↔ P t ∧ ∀ c ∈ t.children, ∀ s, s.Within c → P s := by
  constructor
  · exact fun h => ⟨h t .refl, fun c hc s hs => h s (.child hc hs)⟩
  · rintro ⟨ht, hcs⟩ s hs
    cases hs with
    | refl => exact ht
    | child hc hs => exact hcs _ hc s hs

def HasSides (t : Tree) : Prop :=
  ∀ x op, t.label = .token x → Operator.ofTerminal? x.terminal = some op →
    ∃ l r, t.children = [l, r]

/-- Each child that is an operator has two children, or is a minus without children at the head of
an atom. -/
def OperatorsPlaced (t : Tree) : Prop :=
  ∀ i c, t.children[i]? = some c → c.HasSides ∨
    (i = 0 ∧ t.nonterminal? = some .atom ∧ ∃ x, c = leaf x ∧ x.terminal = .minus)

mutual

/-- The tokens from left to right, where a token that has two children stands between them. -/
def inOrder : Tree → List Token
  | node (.nonterminal _) cs => inOrderAll cs
  | node (.token x) [l, r] => l.inOrder ++ x :: r.inOrder
  | node (.token x) cs => x :: inOrderAll cs

def inOrderAll : List Tree → List Token
  | [] => []
  | t :: ts => t.inOrder ++ inOrderAll ts

end

@[simp] theorem inOrder_leaf (x : Token) : (leaf x).inOrder = [x] := rfl

@[simp] theorem inOrder_nonterminal (a : Nonterminal) (ts : List Tree) :
    (node (.nonterminal a) ts).inOrder = ts.flatMap inOrder := by
  rw [inOrder]
  induction ts with
  | nil => rfl
  | cons t ts ih => rw [inOrderAll, ih, List.flatMap_cons]

theorem inOrder_sides (x : Token) (l r : Tree) :
    (node (.token x) [l, r]).inOrder = l.inOrder ++ x :: r.inOrder := by
  rw [inOrder]

/-- No part of the tree is a placeholder, and each operator in it has its sides, or is a minus at
the head of an atom. -/
structure WellRaised (t : Tree) : Prop where
  sides : t.HasSides
  parts : ∀ s : Tree, s.Within t → s.isPlaceholder = false ∧ s.OperatorsPlaced

namespace WellRaised

variable {t u : Tree} {x : Token}

theorem leaf (h : Operator.ofTerminal? x.terminal = none) : WellRaised (leaf x) where
  sides := by
    rintro y op ⟨⟩ hop
    cases h.symm.trans hop
  parts := forall_within_iff.mpr ⟨⟨rfl, nofun⟩, nofun⟩

theorem nonterminal {a : Nonterminal} {ts : List Tree} (hne : ts ≠ [])
    (h : ∀ t ∈ ts, WellRaised t) : WellRaised (node (.nonterminal a) ts) where
  sides := nofun
  parts := by
    refine forall_within_iff.mpr ⟨⟨?_, fun i c hc => ?_⟩, fun c hc => (h c hc).parts⟩
    · simpa [isPlaceholder, isLeaf, children] using fun _ => hne
    · exact .inl (h c (List.mem_of_getElem? hc)).sides

/-- A minus without sides stands at the head of an atom. -/
theorem sign (hx : x.terminal = .minus) (h : WellRaised t) :
    WellRaised (node (.nonterminal .atom) [.leaf x, t]) where
  sides := nofun
  parts := by
    refine forall_within_iff.mpr ⟨⟨rfl, fun i c hc => ?_⟩, List.forall_mem_cons.mpr ⟨?_, ?_⟩⟩
    · rcases i with _ | _ | i
      · cases hc
        exact .inr ⟨rfl, rfl, x, rfl, hx⟩
      · cases hc
        exact .inl h.sides
      · cases hc
    · exact forall_within_iff.mpr ⟨⟨rfl, nofun⟩, nofun⟩
    · exact List.forall_mem_singleton.mpr h.parts

theorem between (ht : WellRaised t) (hu : WellRaised u) : WellRaised (node (.token x) [t, u]) where
  sides := fun _ _ _ _ => ⟨t, u, rfl⟩
  parts := by
    have hchildren : ∀ c ∈ [t, u], WellRaised c := by simp [ht, hu]
    refine forall_within_iff.mpr ⟨⟨rfl, fun i c hc => ?_⟩, fun c hc => (hchildren c hc).parts⟩
    exact .inl (hchildren c (List.mem_of_getElem? hc)).sides

end WellRaised

end Tree

namespace Source

mutual

/-- The raised tree of a written sum: an operator over its first operand and the rest, or a node
over the one operand that there is. -/
def Sum.Raised : Sum → Tree → Prop
  | .of first rest, t => rest.Raised .sum first.Raised t

def SumRest.Raised (a : Nonterminal) (first : Tree → Prop) : SumRest → Tree → Prop
  | .stop, t => ∃ f, t = .node (.nonterminal a) [f] ∧ first f
  | .step minus next rest, t => ∃ o f r, t = .node (.token o) [f, r] ∧
      o.terminal = (if minus then .minus else .plus) ∧ first f ∧
        rest.Raised .sumRest next.Raised r

def Product.Raised : Product → Tree → Prop
  | .of first rest, t => rest.Raised .product first.Raised t

def ProductRest.Raised (a : Nonterminal) (first : Tree → Prop) : ProductRest → Tree → Prop
  | .stop, t => ∃ f, t = .node (.nonterminal a) [f] ∧ first f
  | .step slash next rest, t => ∃ o f r, t = .node (.token o) [f, r] ∧
      o.terminal = (if slash then .divide else .times) ∧ first f ∧
        rest.Raised .productRest next.Raised r

def Atom.Raised : Atom → Tree → Prop
  | .named x, t => ∃ v, t = .node (.nonterminal .atom) [.leaf v] ∧ v.terminal = .varName ∧
      v.lexeme = x
  | .number n, t => ∃ v, t = .node (.nonterminal .atom) [.leaf v] ∧ v.terminal = .number ∧
      Decimal.int32? v.lexeme.toList = some n
  | .minus inner, t => ∃ m a, t = .node (.nonterminal .atom) [.leaf m, a] ∧ m.terminal = .minus ∧
      inner.Raised a
  | .group inner, t => ∃ l s r, t = .node (.nonterminal .atom) [.leaf l, s, .leaf r] ∧
      l.terminal = .lparen ∧ r.terminal = .rparen ∧ inner.Raised s

end

/-- A raised tree of a shape, with the tokens of the tree that was raised. -/
structure RaisedTo (shape : Tree → Prop) (tokens : List Token) (t : Tree) : Prop where
  shape : shape t
  well : t.WellRaised
  inOrder : t.inOrder = tokens

namespace RaisedTo

variable {first rest : Tree → Prop} {ts us : List Token} {t u : Tree}

theorem stop (h : RaisedTo first ts t) (a : Nonterminal) :
    RaisedTo (fun v => ∃ f, v = .node (.nonterminal a) [f] ∧ first f) ts
      (.node (.nonterminal a) [t]) where
  shape := ⟨t, rfl, h.shape⟩
  well := .nonterminal (by simp) (by simpa using h.well)
  inOrder := by simp [h.inOrder]

theorem step (h : RaisedTo first ts t) (h' : RaisedTo rest us u) {o : Token} {x : Terminal}
    (ho : o.terminal = x) :
    RaisedTo (fun v => ∃ o f r, v = .node (.token o) [f, r] ∧ o.terminal = x ∧ first f ∧ rest r)
      (ts ++ o :: us) (.node (.token o) [t, u]) where
  shape := ⟨o, t, u, rfl, ho, h.shape, h'.shape⟩
  well := h.well.between h'.well
  inOrder := by rw [Tree.inOrder_sides, h.inOrder, h'.inOrder]

theorem atom {shape : Tree → Prop} {x : Token}
    (h : shape (.node (.nonterminal .atom) [.leaf x]))
    (hx : Operator.ofTerminal? x.terminal = none) :
    RaisedTo shape (Tree.node (.nonterminal .atom) [.leaf x]).tokens
      (Tree.node (.nonterminal .atom) [.leaf x]).raise := by
  rw [Tree.raise_of_not_isChain rfl (by simp [Tree.leaf_isPlaceholder]), List.map_singleton,
    Tree.raise_leaf]
  have hleaf : Tree.WellRaised (.leaf x) := .leaf hx
  exact ⟨h, .nonterminal (by simp) (by simpa using hleaf), by simp [Tree.tokens_nonterminal]⟩

end RaisedTo

mutual

theorem Sum.raisedTo (s : Sum) {t : Tree} (h : s.Spelled t) :
    RaisedTo s.Raised t.tokens t.raise := by
  cases s with
  | of first rest =>
    obtain ⟨p, r, rfl, hp, hr⟩ := h
    have hraised := rest.raisedTo (a := .sum) rfl (first.isPlaceholder_of_spelled hp)
      (first.raisedTo hp) hr
    rwa [Tree.tokens_nonterminal, List.flatMap_cons, List.flatMap_singleton]

theorem SumRest.raisedTo (rest : SumRest) {a : Nonterminal} (ha : a.isChain) {t r : Tree}
    {first : Tree → Prop} (ht : t.isPlaceholder = false)
    (hfirst : RaisedTo first t.tokens t.raise) (h : rest.Spelled r) :
    RaisedTo (rest.Raised a first) (t.tokens ++ r.tokens)
      (Tree.node (.nonterminal a) [t, r]).raise := by
  cases rest with
  | stop =>
    obtain rfl := h
    rw [Tree.raise_stop _ ht, Tree.tokens_nonterminal, List.flatMap_nil, List.append_nil]
    exact hfirst.stop a
  | step minus next rest =>
    obtain ⟨o, p, r, rfl, ho, hp, hr⟩ := h
    have hrest := rest.raisedTo (a := .sumRest) rfl (next.isPlaceholder_of_spelled hp)
      (next.raisedTo hp) hr
    have htokens : (Tree.node (.nonterminal .sumRest) [.leaf o, p, r]).tokens =
        o :: (p.tokens ++ r.tokens) := by
      simp [Tree.tokens_nonterminal]
    rw [Tree.raise_step ha ht, htokens]
    exact hfirst.step hrest ho

theorem Product.raisedTo (p : Product) {t : Tree} (h : p.Spelled t) :
    RaisedTo p.Raised t.tokens t.raise := by
  cases p with
  | of first rest =>
    obtain ⟨a, r, rfl, ha, hr⟩ := h
    have hraised := rest.raisedTo (a := .product) rfl (first.isPlaceholder_of_spelled ha)
      (first.raisedTo ha) hr
    rwa [Tree.tokens_nonterminal, List.flatMap_cons, List.flatMap_singleton]

theorem ProductRest.raisedTo (rest : ProductRest) {a : Nonterminal} (ha : a.isChain) {t r : Tree}
    {first : Tree → Prop} (ht : t.isPlaceholder = false)
    (hfirst : RaisedTo first t.tokens t.raise) (h : rest.Spelled r) :
    RaisedTo (rest.Raised a first) (t.tokens ++ r.tokens)
      (Tree.node (.nonterminal a) [t, r]).raise := by
  cases rest with
  | stop =>
    obtain rfl := h
    rw [Tree.raise_stop _ ht, Tree.tokens_nonterminal, List.flatMap_nil, List.append_nil]
    exact hfirst.stop a
  | step slash next rest =>
    obtain ⟨o, b, r, rfl, ho, hb, hr⟩ := h
    have hrest := rest.raisedTo (a := .productRest) rfl (next.isPlaceholder_of_spelled hb)
      (next.raisedTo hb) hr
    have htokens : (Tree.node (.nonterminal .productRest) [.leaf o, b, r]).tokens =
        o :: (b.tokens ++ r.tokens) := by
      simp [Tree.tokens_nonterminal]
    rw [Tree.raise_step ha ht, htokens]
    exact hfirst.step hrest ho

theorem Atom.raisedTo (a : Atom) {t : Tree} (h : a.Spelled t) :
    RaisedTo a.Raised t.tokens t.raise := by
  cases a with
  | named x =>
    obtain ⟨v, rfl, hv, rfl⟩ := h
    exact .atom ⟨v, rfl, hv, rfl⟩ (by rw [hv]; rfl)
  | number n =>
    obtain ⟨v, rfl, hv, hn⟩ := h
    exact .atom ⟨v, rfl, hv, hn⟩ (by rw [hv]; rfl)
  | minus inner =>
    obtain ⟨o, b, rfl, ho, hb⟩ := h
    have hinner := inner.raisedTo hb
    rw [Tree.raise_of_not_isChain rfl (by
      simp [Tree.leaf_isPlaceholder, inner.isPlaceholder_of_spelled hb])]
    simp only [List.map_cons, List.map_nil, Tree.raise_leaf]
    exact ⟨⟨o, _, rfl, ho, hinner.shape⟩, hinner.well.sign ho,
      by simp [hinner.inOrder, Tree.tokens_nonterminal]⟩
  | group inner =>
    obtain ⟨l, s, r, rfl, hl, hr, hs⟩ := h
    have hinner := inner.raisedTo hs
    rw [Tree.raise_of_not_isChain rfl (by
      simp [Tree.leaf_isPlaceholder, inner.isPlaceholder_of_spelled hs])]
    simp only [List.map_cons, List.map_nil, Tree.raise_leaf]
    have hopened : Tree.WellRaised (.leaf l) := .leaf (by rw [hl]; rfl)
    have hclosed : Tree.WellRaised (.leaf r) := .leaf (by rw [hr]; rfl)
    exact ⟨⟨l, _, r, rfl, hl, hr, hinner.shape⟩, .nonterminal (by simp)
      (by simp [hopened, hclosed, hinner.well]), by simp [hinner.inOrder, Tree.tokens_nonterminal]⟩

end

end Source
end FortressLang
