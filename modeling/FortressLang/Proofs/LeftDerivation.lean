import FortressLang.Proofs.SourceExpr

/-! Leftmost derivations as lists of rule numbers. The numbers can be applied one after another to
the leftmost nonterminal of a string of symbols; and together with the derived tokens they are all
that is needed to build the trees again. -/
namespace FortressLang

open Source (shown)

def kinds (w : List Token) : List Terminal := w.map Token.terminal

@[simp] theorem kinds_nil : kinds [] = [] := rfl

@[simp] theorem kinds_cons (found : Token) (w : List Token) :
    kinds (found :: w) = found.terminal :: kinds w := rfl

@[simp] theorem kinds_append (w v : List Token) : kinds (w ++ v) = kinds w ++ kinds v :=
  List.map_append

namespace Source

@[simp] theorem shown_nil : shown [] = [] := rfl

@[simp] theorem shown_epsilon (xs : List Symbol) : shown (.terminal .epsilon :: xs) = shown xs := by
  simp [shown]

@[simp] theorem shown_nonterminal (a : Nonterminal) (xs : List Symbol) :
    shown (.nonterminal a :: xs) = .nonterminal a :: shown xs := by
  simp [shown]

theorem shown_terminal {x : Terminal} (hx : x ≠ .epsilon) (xs : List Symbol) :
    shown (.terminal x :: xs) = .terminal x :: shown xs := by
  simp [shown, hx]

@[simp] theorem shown_append (xs ys : List Symbol) : shown (xs ++ ys) = shown xs ++ shown ys :=
  List.filter_append ..

end Source

def Rule.rewriteLeft? (r : Rule) : List Symbol → Option (List Symbol)
  | [] => none
  | .terminal x :: xs => (r.rewriteLeft? xs).map (.terminal x :: ·)
  | .nonterminal a :: xs => if a = r.lhs then some (shown r.rhs ++ xs) else none

theorem Rule.rewriteLeft?_behind (r : Rule) (ks : List Terminal) (xs : List Symbol) :
    r.rewriteLeft? (ks.map .terminal ++ xs) =
      (r.rewriteLeft? xs).map (ks.map Symbol.terminal ++ ·) := by
  induction ks with
  | nil => simp
  | cons k ks ih => simp [rewriteLeft?, ih, Function.comp_def]

namespace Grammar

variable {g : Grammar}

/-- Applies the rules with these numbers, each to the leftmost nonterminal that there is then. -/
def rewriteBy? (g : Grammar) (log : List Nat) (xs : List Symbol) : Option (List Symbol) :=
  log.foldlM (fun xs i => (g.rule? i).bind (·.rewriteLeft? xs)) xs

theorem rewriteBy?_append (log log' : List Nat) (xs : List Symbol) :
    g.rewriteBy? (log ++ log') xs = (g.rewriteBy? log xs).bind (g.rewriteBy? log') :=
  List.foldlM_append ..

theorem rewriteBy?_cons {r : Rule} (hr : r ∈ g.rules) (log : List Nat) (ks : List Terminal)
    (xs : List Symbol) :
    g.rewriteBy? (r.index :: log) (ks.map .terminal ++ .nonterminal r.lhs :: xs) =
      g.rewriteBy? log (ks.map .terminal ++ (shown r.rhs ++ xs)) := by
  simp [rewriteBy?, rule?_index hr, Rule.rewriteLeft?_behind, Rule.rewriteLeft?]

/-- Trees for the symbols, with what they leave of the log and of the tokens: a terminal takes the
next token, and a nonterminal is expanded by the next rule. No more rules are applied one inside
the other than the given number. -/
def regrow? (g : Grammar) : Nat → List Symbol → List Nat → List Token →
    Option (List Tree × List Nat × List Token)
  | _, [], log, w => some ([], log, w)
  | n, .terminal x :: xs, log, w =>
    if x = .epsilon then g.regrow? n xs log w
    else do
      let found ← w.head?
      let (ts, log, w) ← g.regrow? n xs log w.tail
      some (.leaf found :: ts, log, w)
  | n + 1, .nonterminal a :: xs, i :: log, w => do
    let r ← g.rule? i
    let (cs, log, w) ← g.regrow? n r.rhs log w
    let (ts, log, w) ← g.regrow? n xs log w
    some (.node (.nonterminal a) cs :: ts, log, w)
  | _, .nonterminal _ :: _, _, _ => none
termination_by n xs => (n, xs.length)

def treeOf? (g : Grammar) (log : List Nat) (w : List Token) : Option Tree :=
  match g.regrow? log.length [.nonterminal g.startSymbol] log w with
  | some ([tree], [], []) => some tree
  | _ => none

end Grammar

/-- The symbols expand to the trees, the log has the numbers of the expanding rules, a node's own in
front of those below it, and the leaves of the trees are the tokens. -/
inductive Grows (g : Grammar) : List Symbol → List Nat → List Tree → List Token → Prop
  | nil : Grows g [] [] [] []
  | epsilon {xs : List Symbol} {log : List Nat} {ts : List Tree} {w : List Token} :
    Grows g xs log ts w → Grows g (.terminal .epsilon :: xs) log ts w
  | token {xs : List Symbol} {log : List Nat} {ts : List Tree} {w : List Token} {found : Token} :
    found.terminal ≠ .epsilon → Grows g xs log ts w →
      Grows g (.terminal found.terminal :: xs) log (.leaf found :: ts) (found :: w)
  | node {xs : List Symbol} {log log' : List Nat} {cs ts : List Tree} {w v : List Token}
    {r : Rule} :
    r ∈ g.rules → Grows g r.rhs log cs w → Grows g xs log' ts v →
      Grows g (.nonterminal r.lhs :: xs) (r.index :: log ++ log')
        (.node (.nonterminal r.lhs) cs :: ts) (w ++ v)

namespace Grows

variable {g : Grammar} {xs ys : List Symbol} {log log' : List Nat} {ts us : List Tree}
  {w v : List Token}

theorem append (h : Grows g xs log ts w) (h' : Grows g ys log' us v) :
    Grows g (xs ++ ys) (log ++ log') (ts ++ us) (w ++ v) := by
  induction h with
  | nil => exact h'
  | epsilon _ ih => exact .epsilon ih
  | token hx _ ih => exact .token hx ih
  | node hr hcs _ _ ih =>
    rw [List.append_assoc, List.append_assoc]
    exact .node hr hcs ih

theorem bare {r : Rule} (hr : r ∈ g.rules) (he : r.isEpsilon) :
    Grows g [.nonterminal r.lhs] [r.index] [.node (.nonterminal r.lhs) []] [] := by
  have hrhs : r.rhs = [.terminal .epsilon] := of_decide_eq_true he
  have hbelow : Grows g r.rhs [] [] [] := hrhs ▸ .epsilon .nil
  exact .node hr hbelow .nil

theorem derives (h : Grows g xs log ts w) : ∃ n, Derives g xs ts w n := by
  induction h with
  | nil => exact ⟨0, .nil⟩
  | epsilon _ ih =>
    obtain ⟨n, hn⟩ := ih
    exact ⟨n, .epsilon hn⟩
  | @token _ _ _ _ found hx _ ih =>
    obtain ⟨n, hn⟩ := ih
    exact ⟨n, .token found rfl hx hn⟩
  | @node _ _ _ _ _ _ _ r hr _ _ ih ih' =>
    obtain ⟨m, hm⟩ := ih
    obtain ⟨n, hn⟩ := ih'
    exact ⟨_, .node r (Grammar.mem_rulesFor.mpr ⟨hr, rfl⟩) hm hn⟩

/-- The log rewrites the symbols to the terminals of the tokens, behind other terminals and in front
of whatever else. -/
theorem rewriteBy? (h : Grows g xs log ts w) (ks : List Terminal) (zs : List Symbol) :
    g.rewriteBy? log (ks.map .terminal ++ (shown xs ++ zs)) =
      some ((ks ++ kinds w).map .terminal ++ zs) := by
  induction h generalizing ks zs with
  | nil => simp [Grammar.rewriteBy?]
  | epsilon _ ih => rw [Source.shown_epsilon, ih]
  | @token _ _ _ _ found hx _ ih =>
    have hks := ih (ks ++ [found.terminal]) zs
    simpa [Source.shown_terminal hx] using hks
  | @node xs _ _ _ _ w _ r hr _ _ ih ih' =>
    rw [Source.shown_nonterminal, List.cons_append, List.cons_append, Grammar.rewriteBy?_cons hr,
      Grammar.rewriteBy?_append, ih, Option.bind_some, ih', kinds_append, List.append_assoc]

theorem regrow? (h : Grows g xs log ts w) {n : Nat} (hn : log.length ≤ n) (log' : List Nat)
    (v : List Token) : g.regrow? n xs (log ++ log') (w ++ v) = some (ts, log', v) := by
  induction h generalizing n log' v with
  | nil => simp [Grammar.regrow?]
  | epsilon _ ih => simp [Grammar.regrow?, ih hn]
  | token hx _ ih => simp [Grammar.regrow?, hx, ih hn]
  | @node _ log₁ log₂ _ _ _ _ r hr _ _ ih ih' =>
    cases n with
    | zero => simp at hn
    | succ n =>
      simp only [List.cons_append, List.length_cons, List.length_append] at hn
      have hbelow := ih (n := n) (by omega)
      have hrest := ih' (n := n) (by omega)
      simp [Grammar.regrow?, Grammar.rule?_index hr, hbelow, hrest]

theorem treeOf? {tree : Tree} (h : Grows g [.nonterminal g.startSymbol] log [tree] w) :
    g.treeOf? log w = some tree := by
  have hgrown := h.regrow? le_rfl [] []
  rw [List.append_nil, List.append_nil] at hgrown
  rw [Grammar.treeOf?, hgrown]

end Grows
end FortressLang
