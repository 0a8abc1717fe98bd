import FortressLang.Parser
import FortressLang.Proofs.LookaheadSets

/-! Derivation trees of a grammar, apart from any parser. A string of symbols is expanded to one
tree for each of its symbols, `epsilon` excepted, whose leaves are the derived tokens in order. -/
namespace FortressLang

/-- What a node that a rule expands adds to the nesting. -/
def Rule.weight (r : Rule) : Nat := if r.isEpsilon then 0 else nestingOf r.lhs

/-- The symbols expand to the trees, the leaves of the trees are the tokens, and the number is the
most that the nodes on a way down from one of the symbols add to the nesting. -/
inductive Derives (g : Grammar) : List Symbol → List Tree → List Token → Nat → Prop
  | nil : Derives g [] [] [] 0
  | epsilon {xs : List Symbol} {ts : List Tree} {w : List Token} {n : Nat} :
    Derives g xs ts w n → Derives g (.terminal .epsilon :: xs) ts w n
  | token {x : Terminal} {xs : List Symbol} {ts : List Tree} {w : List Token} {n : Nat}
    (found : Token) :
    found.terminal = x → x ≠ .epsilon → Derives g xs ts w n →
      Derives g (.terminal x :: xs) (.leaf found :: ts) (found :: w) n
  | node {a : Nonterminal} {xs : List Symbol} {cs ts : List Tree} {w v : List Token} {m n : Nat}
    (r : Rule) :
    r ∈ g.rulesFor a → Derives g r.rhs cs w m → Derives g xs ts v n →
      Derives g (.nonterminal a :: xs) (.node (.nonterminal a) cs :: ts) (w ++ v)
        (max (m + r.weight) n)

/-- The tree is a derivation tree of the tokens whose root applies the start rule, and on a way down
in it at most the given number of nodes count for the nesting. -/
def Derivation (g : Grammar) (tree : Tree) (w : List Token) (n : Nat) : Prop :=
  ∃ cs m, Derives g g.start.rhs cs w m ∧ tree = .node (.nonterminal g.start.lhs) cs ∧
    n = m + g.start.weight

namespace Derives

variable {g : Grammar} {xs : List Symbol} {ts : List Tree} {w : List Token} {n : Nat}

theorem nil_inv (h : Derives g [] ts w n) : ts = [] ∧ w = [] ∧ n = 0 := by
  cases h
  exact ⟨rfl, rfl, rfl⟩

theorem of_isEpsilon {r : Rule} (hr : r.isEpsilon) (h : Derives g r.rhs ts w n) :
    ts = [] ∧ w = [] ∧ n = 0 := by
  have hrhs : r.rhs = [.terminal .epsilon] := of_decide_eq_true hr
  rw [hrhs] at h
  cases h with
  | epsilon h => exact h.nil_inv
  | token found hf hx h => exact absurd rfl hx

/-- What derives nothing vanishes, and what derives tokens begins with the first of them. -/
theorem opening (h : Derives g xs ts w n) :
    (w = [] → ∀ s ∈ xs, (Openings.ofGrammar g).Vanishes s) ∧
      ∀ found v, w = found :: v →
        ((Openings.ofGrammar g).ofString xs).1.mem found.terminal = true := by
  induction h with
  | nil => exact ⟨fun _ s hs => absurd hs List.not_mem_nil, fun found v h => by cases h⟩
  | epsilon h ih =>
    refine ⟨fun hw => ?_, fun found v hw => ?_⟩
    · rw [List.forall_mem_cons]
      exact ⟨rfl, ih.1 hw⟩
    · rw [Openings.mem_ofString_cons]
      exact .inr ⟨rfl, ih.2 found v hw⟩
  | token found hf hx h ih =>
    refine ⟨fun hw => absurd hw (List.cons_ne_nil _ _), fun found' v hw => ?_⟩
    obtain ⟨rfl, rfl⟩ := List.cons.inj hw
    rw [Openings.mem_ofString_cons]
    exact .inl ⟨hf.symm, hx⟩
  | @node a xs cs ts w v m n r hr h₁ h₂ ih₁ ih₂ =>
    have hnull (hw : w = []) : (Openings.ofGrammar g).Vanishes (.nonterminal a) :=
      (Openings.nullable_ofGrammar g a).mpr ⟨r, hr, ih₁.1 hw⟩
    refine ⟨fun hwv => ?_, fun found u hwv => ?_⟩
    · obtain ⟨hw, hv⟩ := List.append_eq_nil_iff.mp hwv
      rw [List.forall_mem_cons]
      exact ⟨hnull hw, ih₂.1 hv⟩
    · rw [Openings.mem_ofString_cons]
      cases w with
      | nil => exact .inr ⟨hnull rfl, ih₂.2 found u hwv⟩
      | cons found' w =>
        obtain ⟨rfl, rfl⟩ := List.cons.inj hwv
        exact .inl ((Openings.mem_first_ofGrammar g a _).mpr ⟨r, hr, ih₁.2 _ _ rfl⟩)

end Derives

namespace TokenStream

def put (s : TokenStream) (w : List Token) : TokenStream := ⟨w.map .ok ++ s.results, s.finish⟩

@[simp] theorem put_append (s : TokenStream) (w v : List Token) :
    s.put (w ++ v) = (s.put v).put w := by
  simp [put]

@[simp] theorem head_put_cons (s : TokenStream) (found : Token) (w : List Token) :
    (s.put (found :: w)).head = .ok found := rfl

@[simp] theorem tail_put_cons (s : TokenStream) (found : Token) (w : List Token) :
    (s.put (found :: w)).tail = s.put w := rfl

/-- The next thing in the stream is a token, of one of the given terminals. -/
def Ahead (s : TokenStream) (after : TerminalSet) : Prop :=
  ∃ found, s.head = .ok found ∧ after.mem found.terminal = true

end TokenStream

theorem Derives.ahead {g : Grammar} {xs : List Symbol} {ts : List Tree} {w : List Token} {n : Nat}
    (h : Derives g xs ts w n) {s : TokenStream} {after : TerminalSet} (hs : s.Ahead after) :
    (s.put w).Ahead ((Lookahead.ofGrammar g).openings.before after xs) := by
  rw [Lookahead.openings_ofGrammar]
  cases w with
  | nil =>
    obtain ⟨found, hf, hm⟩ := hs
    refine ⟨found, hf, ?_⟩
    rw [Openings.mem_before]
    exact .inr ⟨h.opening.1 rfl, hm⟩
  | cons found w =>
    refine ⟨found, rfl, ?_⟩
    rw [Openings.mem_before]
    exact .inl (h.opening.2 found w rfl)

end FortressLang
