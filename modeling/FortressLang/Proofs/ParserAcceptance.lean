import FortressLang.Proofs.ParserCompleteness
import FortressLang.Proofs.ParserTermination

/-! The parser accepts exactly the grammar: it returns a tree if and only if the tokens have a
derivation tree that keeps to the nesting limit. -/
namespace FortressLang

theorem TokenStream.eq_of_put {w v : List Token} {finish : Position} {s : TokenStream}
    {found : Token} (hw : ∀ x ∈ w, x.terminal ≠ .endOfStream)
    (h : (⟨w.map .ok, finish⟩ : TokenStream) = s.put v) (hf : s.head = .ok found)
    (he : found.terminal = .endOfStream) : w = v ∧ s = ⟨[], finish⟩ := by
  obtain ⟨rest, finish'⟩ := s
  rw [put, TokenStream.mk.injEq] at h
  obtain ⟨hmap, rfl⟩ := h
  cases rest with
  | nil =>
    rw [List.append_nil] at hmap
    exact ⟨(List.map_inj_right fun _ _ h => Except.ok.inj h).mp hmap, rfl⟩
  | cons x rest =>
    obtain rfl : x = .ok found := hf
    have hmem : (.ok found : Except Issue Token) ∈ w.map .ok := by simp [hmap]
    obtain ⟨y, hy, hxy⟩ := List.mem_map.mp hmem
    obtain rfl := Except.ok.inj hxy
    exact absurd he (hw y hy)

section

variable {g : Grammar} {t : Table} {w : List Token} {finish : Position}

theorem Parser.run_of_derivation (ht : Table.build g = .ok t) (hg : g.EndFree) {tree : Tree}
    {n : Nat} (h : Derivation g tree w n) :
    (n ≤ nestingLimit → (Parser.run t (.ofStream ⟨w.map .ok, finish⟩)).1 = .ok tree) ∧
      (nestingLimit < n → ∃ found, (Parser.run t (.ofStream ⟨w.map .ok, finish⟩)).1 =
        .error (.nestingTooDeep nestingLimit found)) := by
  have hinput : (Parser.ofStream ⟨w.map .ok, finish⟩).input =
      (⟨[], finish⟩ : TokenStream).put w := by
    rw [TokenStream.put, List.append_nil]
    rfl
  have hhead : (⟨[], finish⟩ : TokenStream).head = .ok (.endOfStream finish) := rfl
  obtain ⟨hok, hdeep⟩ := Machine.stops_of_derivation ht h hinput hhead rfl
  refine ⟨fun hn => ?_, fun hn => ?_⟩
  · obtain ⟨k, p, hk⟩ := hok hn
    rw [Machine.run_eq_of_runFor ht hg hk]
  · obtain ⟨found, k, p, hk⟩ := hdeep hn
    exact ⟨found, by rw [Machine.run_eq_of_runFor ht hg hk]⟩

theorem Parser.derivation_of_run (ht : Table.build g = .ok t) (hg : g.EndFree) {p : Parser}
    {tree : Tree} (h : (Parser.run t p).1 = .ok tree) :
    ∃ (w : List Token) (n : Nat) (s : TokenStream) (found : Token), Derivation g tree w n ∧
      n ≤ nestingLimit ∧ p.input = s.put w ∧ s.head = .ok found ∧
        found.terminal = .endOfStream := by
  obtain ⟨out, hout⟩ := Option.isSome_iff_exists.mp (Machine.runFor_stepBound ht hg p)
  rw [Machine.run_eq_of_runFor ht hg hout] at h
  obtain ⟨result, q⟩ := out
  obtain rfl : result = .ok tree := h
  exact Machine.derivation_of_runFor ht hg hout

end

/-- For the grammar of the language and every described one, if it has a table, and for all tokens
in front of the end of the stream: a parse returns a tree if and only if this is a derivation tree
of the tokens that keeps to the nesting limit; the tokens have one derivation tree at most; and if
that nests too deep, the parse says so. -/
theorem parser_accepts_exactly {g : Grammar} {t : Table}
    (hg : g = .fortress ∨ ∃ description, Grammar.ofDescription description = .ok g)
    (ht : Table.build g = .ok t) {w : List Token} (hw : ∀ x ∈ w, x.terminal ≠ .endOfStream)
    (finish : Position) :
    (∀ tree, (Parser.run t (.ofStream ⟨w.map .ok, finish⟩)).1 = .ok tree ↔
      ∃ n, Derivation g tree w n ∧ n ≤ nestingLimit) ∧
    (∀ tree tree' n n', Derivation g tree w n → Derivation g tree' w n' →
      tree = tree' ∧ n = n') ∧
    (∀ tree n, Derivation g tree w n → nestingLimit < n →
      ∃ found, (Parser.run t (.ofStream ⟨w.map .ok, finish⟩)).1 =
        .error (.nestingTooDeep nestingLimit found)) := by
  have hend : g.EndFree := by
    rcases hg with rfl | ⟨description, hg⟩
    · exact Grammar.endFree_fortress
    · exact Grammar.endFree_ofDescription hg
  refine ⟨fun tree => ⟨fun h => ?_, ?_⟩,
    fun tree tree' n n' h h' => Machine.derivation_unique ht h h',
    fun tree n h hn => (Parser.run_of_derivation ht hend h).2 hn⟩
  · obtain ⟨v, n, s, found, hd, hn, hput, hf, he⟩ := Parser.derivation_of_run ht hend h
    obtain ⟨rfl, -⟩ := TokenStream.eq_of_put hw hput hf he
    exact ⟨n, hd, hn⟩
  · rintro ⟨n, h, hn⟩
    exact (Parser.run_of_derivation ht hend h).1 hn

def nameList : Grammar :=
  .ofProductions [⟨.code, [.terminal .varName, .nonterminal .code]⟩,
    ⟨.code, [.terminal .epsilon]⟩] (by decide)

theorem ofDescription_nameList :
    Grammar.ofDescription "<Code>;[VarName];<Code>\n<Code>;E" = .ok nameList := rfl

def nameListLookahead : Lookahead where
  openings :=
    ⟨.tabulate fun a => if a = .code then .singleton .varName else .empty,
      .tabulate fun a => decide (a = .code)⟩
  follow := .tabulate fun a => if a = .code then .singleton .endOfStream else .empty

theorem lookahead_nameList : Lookahead.ofGrammar nameList = nameListLookahead := by
  have ho := Openings.ofGrammar_eq (g := nameList)
    (fun i => if i = 0 then .empty else nameListLookahead.openings) (k := 1)
    (by decide) rfl (by decide +kernel) (by decide +kernel)
  have hf := Follow.ofGrammar_eq (g := nameList) (o := nameListLookahead.openings)
    (fun i => if i = 0 then .tabulate fun _ => .empty else nameListLookahead.follow) (k := 1)
    (by decide) rfl (by decide +kernel) (by decide +kernel)
  exact Lookahead.ofGrammar_eq ho hf

theorem build_nameList :
    Table.build nameList = .ok (.ofLookahead nameList nameListLookahead) := by
  have hc : (Table.ofLookahead nameList nameListLookahead).conflict? nameListLookahead = none := by
    decide +kernel
  rw [Table.build, lookahead_nameList, hc]

theorem derivation_nameList (x y : Token) (hx : x.terminal = .varName)
    (hy : y.terminal = .varName) :
    Derivation nameList (.node (.nonterminal .code) [.leaf x, .node (.nonterminal .code)
      [.leaf y, .node (.nonterminal .code) []]]) [x, y] 0 := by
  have hnone : Derives nameList [.nonterminal .code] [.node (.nonterminal .code) []] [] 0 :=
    .node ⟨⟨.code, [.terminal .epsilon]⟩, 1⟩ (by decide) (.epsilon .nil) .nil
  have hlast : Derives nameList [.nonterminal .code]
      [.node (.nonterminal .code) [.leaf y, .node (.nonterminal .code) []]] [y] 0 :=
    .node ⟨⟨.code, [.terminal .varName, .nonterminal .code]⟩, 0⟩ (by decide)
      (.token y hy (by decide) hnone) .nil
  exact ⟨_, 0, .token x hx (by decide) hlast, rfl, rfl⟩

def twoNames : List Token := [⟨.varName, "a", ⟨1, 1⟩⟩, ⟨.varName, "b", ⟨1, 3⟩⟩]

/-- Two names are read as a tree. -/
theorem parser_accepts_two_names : ∃ g t tree,
    Grammar.ofDescription "<Code>;[VarName];<Code>\n<Code>;E" = .ok g ∧ Table.build g = .ok t ∧
      (∀ x ∈ twoNames, x.terminal ≠ .endOfStream) ∧
      (Parser.run t (.ofStream ⟨twoNames.map .ok, ⟨1, 4⟩⟩)).1 = .ok tree := by
  have hends : ∀ x ∈ twoNames, x.terminal ≠ .endOfStream := by decide
  have hrun := parser_accepts_exactly (.inr ⟨_, ofDescription_nameList⟩) build_nameList hends ⟨1, 4⟩
  have htree := derivation_nameList ⟨.varName, "a", ⟨1, 1⟩⟩ ⟨.varName, "b", ⟨1, 3⟩⟩ rfl rfl
  exact ⟨_, _, _, ofDescription_nameList, build_nameList, hends,
    (hrun.1 _).mpr ⟨0, htree, by decide⟩⟩

end FortressLang
