import FortressLang.Proofs.FortressTable
import FortressLang.Proofs.ParserAcceptance
import FortressLang.Proofs.ViablePrefix
import FortressLang.Proofs.WrittenWords

/-! Where a program's text is wrong. The parser reads no further than it has to, so what it reports
lies at the first place where the text stops being the beginning of a program. -/
namespace FortressLang

namespace Piece

theorem mark?_ne_endOfStream (c : Char) : mark? c ≠ some .endOfStream := by
  unfold mark?
  split <;> decide

theorem nameKind_ne_endOfStream (cs : List Char) : nameKind cs ≠ .lexeme .endOfStream := by
  intro h
  rw [nameKind, Kind.lexeme.injEq] at h
  cases hk : Terminal.keyword? (String.ofList cs) with
  | none =>
    rw [hk] at h
    cases h
  | some t =>
    rw [hk] at h
    obtain rfl : t = .endOfStream := h
    have hmem := List.mem_of_find?_eq_some hk
    revert hmem
    decide

theorem split_ne_endOfStream (c : Char) (cs : List Char) :
    (split c cs).1 ≠ .lexeme .endOfStream := by
  unfold split
  split
  · simp
  split
  · simp
  split
  · unfold numberKind
    split <;> simp
  split
  · simp
  split
  · exact nameKind_ne_endOfStream _
  split
  · simp
  split
  · split <;> simp
  · split
    · rename_i t ht
      rintro ⟨⟩
      exact mark?_ne_endOfStream c ht
    · simp

theorem result?_spec {p : Piece} (hp : p.kind ≠ .lexeme .endOfStream) {x : Except Issue Token}
    (h : p.result? = some x) :
    (∀ found, x = .ok found → found.terminal ≠ .endOfStream) ∧
      ∀ issue, x = .error issue → issue.found? = none := by
  obtain ⟨kind, chars, pos⟩ := p
  cases kind with
  | gap => cases h
  | lexeme t =>
    cases h
    refine ⟨?_, fun _ h => by cases h⟩
    rintro _ ⟨⟩ rfl
    exact hp rfl
  | overflow | unclosed =>
    cases h
    refine ⟨fun _ h => (by cases h), ?_⟩
    rintro _ ⟨⟩
    rfl
  | stray =>
    obtain ⟨c, -, rfl⟩ := Option.map_eq_some_iff.mp h
    refine ⟨fun _ h => (by cases h), ?_⟩
    rintro _ ⟨⟩
    rfl

theorem results_spec (pos : Position) (cs : List Char) :
    ∀ x ∈ results pos cs, (∀ found, x = .ok found → found.terminal ≠ .endOfStream) ∧
      ∀ issue, x = .error issue → issue.found? = none := by
  induction cs using text_induction generalizing pos with
  | nil => simp [results, cut]
  | cons c cs ih =>
    intro x hx
    rw [results_cons, List.mem_append, Option.mem_toList] at hx
    rcases hx with hx | hx
    · exact result?_spec (split_ne_endOfStream c cs) hx
    · exact ih _ x hx

end Piece

namespace TokenStream

/-- A stream without written ends and with errors that are not about tokens. -/
structure Lexical (s : TokenStream) : Prop where
  token : ∀ found, .ok found ∈ s.results → found.terminal ≠ .endOfStream
  error : ∀ issue, .error issue ∈ s.results → issue.found? = none

theorem lexical_ofText (text : String) : (ofText text).Lexical where
  token found h := (Piece.results_spec _ _ _ h).1 found rfl
  error issue h := (Piece.results_spec _ _ _ h).2 issue rfl

/-- A lexical error is reported as it is, and any other issue is about the next token. -/
theorem Lexical.head_eq {s : TokenStream} {w : List Token} (hs : (s.put w).Lexical) {issue : Issue}
    (h : issue.LiesAt s) : s.head = issue.found?.elim (.error issue) .ok := by
  rcases h with hissue | ⟨found, hfound, hat⟩
  · obtain ⟨_ | ⟨x, results⟩, finish⟩ := s
    · cases hissue
    · obtain rfl : x = .error issue := hissue
      rw [hs.error issue (by simp [put])]
      rfl
  · rw [hat]
    exact hfound

theorem put_eq_put {s s' : TokenStream} {w w' : List Token} (h : s.put w = s'.put w') :
    (∃ v, w = w' ++ v ∧ s' = s.put v) ∨ ∃ v, w' = w ++ v ∧ s = s'.put v := by
  obtain ⟨results, finish⟩ := s
  obtain ⟨results', finish'⟩ := s'
  rw [put, put, mk.injEq] at h
  obtain ⟨hresults, rfl⟩ := h
  induction w generalizing w' with
  | nil => exact .inr ⟨w', rfl, by rw [put, ← hresults]; rfl⟩
  | cons x w ih =>
    cases w' with
    | nil => exact .inl ⟨x :: w, rfl, by rw [put, hresults]; rfl⟩
    | cons y w' =>
      obtain ⟨hxy, hrest⟩ := List.cons.inj hresults
      obtain rfl := Except.ok.inj hxy
      rcases ih hrest with ⟨v, rfl, hv⟩ | ⟨v, rfl, hv⟩
      · exact .inl ⟨v, rfl, hv⟩
      · exact .inr ⟨v, rfl, hv⟩

end TokenStream

namespace Grammar

variable {g : Grammar} {s s' : TokenStream} {w w' : List Token}

/-- In front of a place up to which the tokens begin a sentence, no place breaks. -/
theorem Viable.length_le_of_breaks (h : g.Viable (kinds w)) (hs : (s.put w).Lexical)
    (hput : s.put w = s'.put w') (hbreaks : g.Breaks w' s') : w.length ≤ w'.length := by
  rcases TokenStream.put_eq_put hput with ⟨v, rfl, rfl⟩ | ⟨v, rfl, -⟩
  · cases v with
    | nil => simp
    | cons found v =>
      have hfound : found.terminal ≠ .endOfStream := hs.token found (by simp [TokenStream.put])
      rw [Breaks, TokenStream.head_put_cons] at hbreaks
      simp only [if_neg hfound] at hbreaks
      rw [kinds_append, kinds_cons, List.append_cons] at h
      exact absurd h.of_append hbreaks
  · simp

theorem Sentence.not_breaks (h : g.Sentence (kinds w)) (hs : (s.put w).Lexical) {found : Token}
    (hfound : s.head = .ok found) (hend : found.terminal = .endOfStream)
    (hput : s.put w = s'.put w') : ¬ g.Breaks w' s' := by
  intro hbreaks
  have hlength := h.viable.length_le_of_breaks hs hput hbreaks
  obtain ⟨rfl, rfl⟩ : w' = w ∧ s' = s := by
    rcases TokenStream.put_eq_put hput with ⟨v, rfl, rfl⟩ | ⟨v, rfl, rfl⟩
    · obtain rfl : v = [] := by simpa using hlength
      exact ⟨(List.append_nil w').symm, rfl⟩
    · cases v with
      | nil => exact ⟨List.append_nil w, rfl⟩
      | cons x v =>
        obtain rfl := Except.ok.inj hfound
        exact absurd hend (hs.token x (by simp [TokenStream.put]))
  rw [Breaks, hfound] at hbreaks
  simp only [if_pos hend] at hbreaks
  exact hbreaks h

/-- Everything can be derived without reaching this rank. -/
def fortressRank : Nonterminal → Nat
  | .code | .sumRest | .productRest | .atom | .conditionalEnd | .comparison | .print | .read => 0
  | .program | .instruction | .product => 1
  | .sum => 2
  | .assignment | .condition => 3
  | .conditional | .loop => 4

theorem ranked_fortress : fortress.Ranked fortressRank := by
  intro a
  cases a <;> decide

end Grammar

/-- The parser finds the first place where a text stops being the beginning of a program. If it
returns a tree, there is none. What it reports as an issue is the next thing behind tokens that
begin some program; unless it is the nesting, no program goes on with it; and no such place is
further in front. -/
theorem first_error_is_reported : ∃ t, Table.build .fortress = .ok t ∧ ∀ text : String,
    (∀ tree, (Parser.run t (.ofStream (.ofText text))).1 = .ok tree →
      ∀ w s, TokenStream.ofText text = s.put w → ¬ Grammar.fortress.Breaks w s) ∧
    ∀ issue, (Parser.run t (.ofStream (.ofText text))).1 = .error issue →
      ∃ w s, TokenStream.ofText text = s.put w ∧
        s.head = issue.found?.elim (.error issue) .ok ∧
        Grammar.fortress.Viable (kinds w) ∧
        ((∀ limit found, issue ≠ .nestingTooDeep limit found) → Grammar.fortress.Breaks w s) ∧
        ∀ w' s', TokenStream.ofText text = s'.put w' → Grammar.fortress.Breaks w' s' →
          w.length ≤ w'.length := by
  have hb := Grammar.build_fortress
  have hg := Grammar.endFree_fortress
  refine ⟨_, hb, fun text => ⟨fun tree hrun w s hput => ?_, fun issue hrun => ?_⟩⟩
  · obtain ⟨w₀, n, s₀, found, hd, -, hinput, hs, hend⟩ := Parser.derivation_of_run hb hg hrun
    have hlexical : (s₀.put w₀).Lexical := hinput ▸ TokenStream.lexical_ofText text
    have hsentence : Grammar.fortress.Sentence (kinds w₀) := ⟨tree, w₀, n, hd, rfl⟩
    exact hsentence.not_breaks hlexical hs hend (hinput.symm.trans hput)
  · obtain ⟨m, log, w, hm, hstep⟩ := Parser.run_reads hb hg (.ofStream (.ofText text))
    have hlexical : (m.input.put w).Lexical := hm.input ▸ TokenStream.lexical_ofText text
    have hviable := hm.tree.viable Grammar.ranked_fortress
    have hhalt := Machine.halt_of_step hstep
    rw [hrun] at hhalt
    generalize (Parser.run _ _).2 = q at hhalt
    refine ⟨w, m.input, hm.input, hlexical.head_eq hhalt.liesAt, hviable, fun hissue => ?_,
      fun w' s' hput => hviable.length_le_of_breaks hlexical (hm.input.symm.trans hput)⟩
    cases hhalt with
    | fails _ hfails => exact hm.breaks hb hfails hissue
    | deep => exact absurd rfl (hissue _ _)

end FortressLang
