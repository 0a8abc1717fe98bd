import FortressLang.Proofs.ExprReadBack

/-! The names and the constants of a program that is read from a parsed text: whatever the grammar,
the variables are named as they may be, and no constant is negative. -/
namespace FortressLang

open Source (isVariable)

def Condition.wellNamed (c : Condition) : Bool := c.lhs.wellNamed && c.rhs.wellNamed

namespace Statement

mutual

def wellNamed : Statement → Bool
  | assign target value => isVariable target && value.wellNamed
  | branch c ts es => c.wellNamed && wellNamedAll ts && wellNamedAll es
  | loop c ss => c.wellNamed && wellNamedAll ss
  | print name | read name => isVariable name

def wellNamedAll : List Statement → Bool
  | [] => true
  | s :: ss => s.wellNamed && wellNamedAll ss

end

/-- The variable that a statement names itself, apart from its expressions and from what is nested
in it. -/
def named? : Statement → Option String
  | assign name _ | print name | read name => some name
  | branch .. | loop .. => none

/-- The names that the statements and those nested in them name themselves, and their operands. -/
structure Named (ss : List Statement) (vs : List Value) : Prop where
  names : ∀ s ∈ ss, ∀ name, s.named? = some name → isVariable name = true
  values : ∀ v ∈ vs, v.wellNamed = true

namespace Named

variable {s : Statement} {ss rs : List Statement} {vs ws : List Value}

theorem append_iff : Named (ss ++ rs) (vs ++ ws) ↔ Named ss vs ∧ Named rs ws := by
  constructor
  · rintro ⟨hnames, hvalues⟩
    rw [List.forall_mem_append] at hnames hvalues
    exact ⟨⟨hnames.1, hvalues.1⟩, hnames.2, hvalues.2⟩
  · rintro ⟨h, h'⟩
    exact ⟨List.forall_mem_append.mpr ⟨h.names, h'.names⟩,
      List.forall_mem_append.mpr ⟨h.values, h'.values⟩⟩

theorem condition_iff {c : Condition} : Named [] c.values ↔ c.wellNamed = true := by
  rw [Condition.wellNamed, Bool.and_eq_true, Expr.wellNamed_iff, Expr.wellNamed_iff,
    ← List.forall_mem_append]
  exact ⟨values, fun h => ⟨List.forall_mem_nil _, h⟩⟩

theorem condition_append_iff {c : Condition} :
    Named ss (c.values ++ vs) ↔ c.wellNamed = true ∧ Named ss vs := by
  rw [← condition_iff, ← append_iff, List.nil_append]

theorem cons_iff (hs : s.named? = none) : Named (s :: ss) vs ↔ Named ss vs := by
  constructor
  · rintro ⟨hnames, hvalues⟩
    exact ⟨(List.forall_mem_cons.mp hnames).2, hvalues⟩
  · rintro ⟨hnames, hvalues⟩
    exact ⟨List.forall_mem_cons.mpr ⟨by simp [hs], hnames⟩, hvalues⟩

end Named

mutual

theorem named_iff : ∀ s : Statement, Named s.flat s.values ↔ s.wellNamed = true
  | assign target value => by
    rw [wellNamed, Bool.and_eq_true, Expr.wellNamed_iff]
    constructor
    · rintro ⟨hnames, hvalues⟩
      exact ⟨hnames _ (List.mem_singleton_self _) _ rfl, hvalues⟩
    · rintro ⟨hname, hvalues⟩
      exact ⟨by simp [flat, named?, hname], hvalues⟩
  | print name | read name => by
    constructor
    · rintro ⟨hnames, -⟩
      exact hnames _ (List.mem_singleton_self _) _ rfl
    · intro hname
      exact ⟨by simpa [flat, named?, wellNamed] using hname, List.forall_mem_nil _⟩
  | branch c ts es => by
    rw [flat, values, Named.cons_iff rfl, List.append_assoc, Named.condition_append_iff,
      Named.append_iff, namedAll_iff ts, namedAll_iff es, wellNamed, Bool.and_eq_true,
      Bool.and_eq_true, and_assoc]
  | loop c ss => by
    rw [flat, values, Named.cons_iff rfl, Named.condition_append_iff, namedAll_iff ss, wellNamed,
      Bool.and_eq_true]

theorem namedAll_iff :
    ∀ ss : List Statement, Named (flatAll ss) (valuesAll ss) ↔ wellNamedAll ss = true
  | [] => ⟨fun _ => rfl, fun _ => ⟨List.forall_mem_nil _, List.forall_mem_nil _⟩⟩
  | s :: ss => by
    rw [flatAll, valuesAll, Named.append_iff, named_iff s, namedAll_iff ss, wellNamedAll,
      Bool.and_eq_true]

end

end Statement

namespace Tree

theorem requireLexeme_eq_ok {t : Tree} {terminal : Terminal} {expected : Shape} {name : String}
    (h : t.requireLexeme terminal expected = .ok name) :
    ∃ x ∈ t.tokens, x.terminal = terminal ∧ x.lexeme = name := by
  unfold requireLexeme at h
  split at h
  · rename_i x hx
    obtain ⟨c, hc, hcx⟩ := List.mem_filterMap.mp (List.mem_of_find?_eq_some hx)
    have hbelow : x ∈ c.tokens := by
      rw [tokens_eq, hcx]
      exact List.mem_append_left _ (List.mem_singleton_self x)
    rw [tokens_eq]
    exact ⟨x, List.mem_append_right _ (List.mem_flatMap.mpr ⟨c, hc, hbelow⟩),
      by simpa using List.find?_some hx, Except.ok.inj h⟩
  · cases h

end Tree

theorem Walk.exists_within {α : Type} (w : Walk α) {t : Tree} {x : α} (h : x ∈ w.gather t) :
    ∃ u : Tree, u.Within t ∧ x ∈ w.own u := by
  induction t using Tree.induction with
  | node l cs ih =>
    rw [gather_eq, List.mem_append, List.mem_flatMap] at h
    rcases h with h | ⟨c, hc, hx⟩
    · exact ⟨_, .refl, h⟩
    · have hchild := w.mem_children hc
      obtain ⟨u, hu, hown⟩ := ih c hchild hx
      exact ⟨u, hu.trans (.child hchild .refl), hown⟩

theorem Statement.Shown.exists_token {i : Tree} {s : Statement} (h : Shown i s) {name : String}
    (hname : s.named? = some name) :
    ∃ x ∈ i.tokens, x.terminal = .varName ∧ x.lexeme = name := by
  obtain ⟨l, cs⟩ := i
  obtain ⟨-, hkind, hread⟩ := h
  cases cs with
  | nil => cases hkind
  | cons c rest =>
    have hkind : c.nonterminal? = some s.kind := hkind
    have hlexeme : ∃ expected, c.requireLexeme .varName expected = .ok name := by
      rw [ofTree_instruction, hkind] at hread
      cases s with
      | assign target value =>
        obtain ⟨x, hx, hread⟩ := bind_eq_ok.mp hread
        obtain ⟨u, -, hread⟩ := bind_eq_ok.mp hread
        obtain ⟨e, -, hread⟩ := bind_eq_ok.mp hread
        cases hread
        cases hname
        exact ⟨_, hx⟩
      | print | read =>
        obtain ⟨x, hx, hread⟩ := map_eq_ok.mp hread
        cases hread
        cases hname
        exact ⟨_, hx⟩
      | branch | loop => cases hname
    obtain ⟨expected, hlexeme⟩ := hlexeme
    obtain ⟨x, hx, htoken⟩ := Tree.requireLexeme_eq_ok hlexeme
    have hwithin : c.Within (.node l (c :: rest)) := .child List.mem_cons_self .refl
    exact ⟨x, hwithin.tokens_subset hx, htoken⟩

/-- A program of a parsed text names its variables as they may be named, and has no negative
constant. -/
theorem Program.wellNamed_of_run {g : Grammar} {table : Table} (hg : g.Known)
    (ht : Table.build g = .ok table) {text : String} {tree : Tree}
    (h : (Parser.run table (.ofStream (.ofText text))).1 = .ok tree) {p : Program}
    (hp : Program.ofTree tree = .ok p) : Statement.wellNamedAll p.statements = true := by
  have htokens : ∀ u : Tree, u.Within tree → ∀ x ∈ u.tokens,
      .ok x ∈ (TokenStream.ofText text).results :=
    fun u hu x hx => Parser.tokens_of_run ht hg.endFree h x (hu.tokens_subset hx)
  have hread := tree.yields_program fun x hx =>
    TokenStream.numeral_of_ofText (htokens tree .refl x hx)
  rw [hp] at hread
  obtain ⟨hstatements, hvalues⟩ := hread
  rw [List.flatMap_singleton] at hstatements hvalues
  refine (Statement.namedAll_iff p.statements).mp
    ⟨forall_mem_of_forall₂ hstatements ?_, forall_mem_of_forall₂ hvalues ?_⟩
  · intro i hi s hs name hname
    obtain ⟨u, hu, hown⟩ := Tree.instructionsRead.exists_within hi
    obtain rfl : i = u := by
      have hown : i ∈ u.asInstruction := hown
      unfold Tree.asInstruction at hown
      split at hown
      · exact List.mem_singleton.mp hown
      · cases hown
    obtain ⟨x, hx, htoken⟩ := hs.exists_token hname
    exact Token.Denotes.wellNamed (htokens i hu x hx) (v := .variable name) htoken
  · intro x hx v hv
    obtain ⟨u, hu, hown⟩ := Tree.operandsRead.exists_within hx
    have hbelow : x ∈ u.tokens := by
      have hown : x ∈ if u.isSum then u.raise.found else [] := hown
      split at hown
      · have hraised := List.mem_of_mem_filter (u.raise.found_sublist.subset hown)
        exact u.tokens_raise.subset hraised
      · cases hown
    exact hv.wellNamed (htokens u hu x hbelow)

end FortressLang
