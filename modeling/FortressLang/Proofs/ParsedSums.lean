import FortressLang.Proofs.ParserAcceptance
import FortressLang.Proofs.SourceExpr

/-! The sums in the tree of a parsed text: the grammar derives each of them, from tokens of the text
whose numerals are in range. -/
namespace FortressLang

/-- A tree that stands somewhere in another one. -/
inductive Tree.Within (s : Tree) : Tree → Prop
  | refl : Within s s
  | child {t c : Tree} : c ∈ t.children → Within s c → Within s t

mutual

def Tree.decEq : (s t : Tree) → Decidable (s = t)
  | .node l cs, .node k ds =>
    if h : l = k then
      match Tree.decEqAll cs ds with
      | .isTrue h' => .isTrue (h ▸ h' ▸ rfl)
      | .isFalse h' => .isFalse fun he => h' (Tree.node.inj he).2
    else .isFalse fun he => h (Tree.node.inj he).1

def Tree.decEqAll : (ss ts : List Tree) → Decidable (ss = ts)
  | [], [] => .isTrue rfl
  | [], _ :: _ => .isFalse nofun
  | _ :: _, [] => .isFalse nofun
  | s :: ss, t :: ts =>
    match Tree.decEq s t, Tree.decEqAll ss ts with
    | .isTrue h, .isTrue h' => .isTrue (h ▸ h' ▸ rfl)
    | .isFalse h, _ => .isFalse fun he => h (List.cons.inj he).1
    | _, .isFalse h => .isFalse fun he => h (List.cons.inj he).2

end

instance : DecidableEq Tree := Tree.decEq

theorem Derives.within {g : Grammar} {xs : List Symbol} {ts : List Tree} {w : List Token} {n : Nat}
    (h : Derives g xs ts w n) {s t : Tree} (ht : t ∈ ts) (hs : s.Within t) {a : Nonterminal}
    (ha : s.nonterminal? = some a) :
    ∃ v m, Derives g [.nonterminal a] [s] v m ∧ ∀ x ∈ v, x ∈ w := by
  induction h generalizing t with
  | nil => cases ht
  | epsilon h ih => exact ih ht hs
  | token found hf hx h ih =>
    rcases List.mem_cons.mp ht with rfl | ht
    · cases hs with
      | refl => cases ha
      | child hc _ => cases hc
    · obtain ⟨v, m, hd, hv⟩ := ih ht hs
      exact ⟨v, m, hd, fun x hx => List.mem_cons_of_mem _ (hv x hx)⟩
  | @node b xs cs ts w v m n r hr h₁ h₂ ih₁ ih₂ =>
    rcases List.mem_cons.mp ht with rfl | ht
    · cases hs with
      | refl =>
        obtain rfl : b = a := Option.some.inj ha
        have hd := Derives.node r hr h₁ .nil
        rw [List.append_nil] at hd
        exact ⟨w, _, hd, fun x hx => List.mem_append_left _ hx⟩
      | child hc hs =>
        obtain ⟨u, k, hd, hu⟩ := ih₁ hc hs
        exact ⟨u, k, hd, fun x hx => List.mem_append_left _ (hu x hx)⟩
    · obtain ⟨u, k, hd, hu⟩ := ih₂ ht hs
      exact ⟨u, k, hd, fun x hx => List.mem_append_right _ (hu x hx)⟩

namespace Piece

theorem nameKind_ne_number (cs : List Char) : nameKind cs ≠ .lexeme .number := by
  intro h
  rw [nameKind, Kind.lexeme.injEq] at h
  cases hk : Terminal.keyword? (String.ofList cs) with
  | none => rw [hk] at h; cases h
  | some t =>
    rw [hk] at h
    obtain rfl : t = .number := h
    have hm := List.mem_of_find?_eq_some hk
    revert hm
    decide

theorem mark?_ne_number (c : Char) : mark? c ≠ some .number := by
  unfold mark?
  split <;> decide

theorem numeral_of_split {c : Char} {cs : List Char} (h : (split c cs).1 = .lexeme .number) :
    (Decimal.int32? (c :: (split c cs).2.1)).isSome := by
  unfold split at h ⊢
  split at h
  · cases h
  split at h
  · cases h
  split at h
  · rename_i hgap hremark hdigit
    rw [if_neg hgap, if_neg hremark, if_pos hdigit]
    change numberKind _ = _ at h
    rw [numberKind] at h
    split at h
    · assumption
    · cases h
  split at h
  · cases h
  split at h
  · exact absurd h (nameKind_ne_number _)
  split at h
  · cases h
  split at h
  · split at h <;> cases h
  · split at h
    · rename_i hmark
      cases h
      exact absurd hmark (mark?_ne_number c)
    · cases h

theorem numeral_of_cut {pos : Position} {cs : List Char} {p : Piece} (hp : p ∈ cut [] pos cs)
    (h : p.kind = .lexeme .number) : (Decimal.int32? p.chars).isSome := by
  induction cs using text_induction generalizing pos with
  | nil => simp [cut] at hp
  | cons c cs ih =>
    rw [cut_cons] at hp
    rcases List.mem_cons.mp hp with rfl | hp
    · exact numeral_of_split h
    · exact ih hp

end Piece

theorem TokenStream.numeral_of_ofText {text : String} {x : Token}
    (hx : .ok x ∈ (ofText text).results) : Source.Numeral x := by
  intro hnumber
  obtain ⟨p, hp, hresult⟩ := List.mem_filterMap.mp hx
  obtain ⟨kind, chars, pos⟩ := p
  cases kind with
  | lexeme t =>
    simp only [Piece.result?, Option.some.injEq, Except.ok.injEq] at hresult
    subst hresult
    obtain rfl : t = .number := hnumber
    have hnumeral := Piece.numeral_of_cut hp rfl
    rwa [String.toList_ofList]
  | gap => cases hresult
  | overflow => cases hresult
  | unclosed => cases hresult
  | stray =>
    obtain ⟨c, -, hc⟩ := Option.map_eq_some_iff.mp hresult
    cases hc

/-- The grammar derives the tree of a parsed text, from tokens whose numerals are in range. -/
theorem derives_of_accepted {g : Grammar} {table : Table} (hg : g.EndFree)
    (ht : Table.build g = .ok table) {text : String} {tree : Tree}
    (h : (Parser.run table (.ofStream (.ofText text))).1 = .ok tree) :
    ∃ w n, Derives g [.nonterminal g.start.lhs] [tree] w n ∧ ∀ x ∈ w, Source.Numeral x := by
  obtain ⟨w, n, s, found, ⟨cs, m, hd, htree, -⟩, -, hinput, -, -⟩ :=
    Parser.derivation_of_run ht hg h
  subst htree
  have hroot := Derives.node g.start
    (Grammar.mem_rulesFor.mpr ⟨List.head_mem g.rules_ne_nil, rfl⟩) hd .nil
  rw [List.append_nil] at hroot
  refine ⟨w, _, hroot, fun x hx => ?_⟩
  have hresult : .ok x ∈ (TokenStream.ofText text).results := by
    rw [show TokenStream.ofText text = s.put w from hinput]
    exact List.mem_append_left _ (List.mem_map_of_mem hx)
  exact TokenStream.numeral_of_ofText hresult

theorem derives_of_parsed {table : Table} (ht : Table.build .fortress = .ok table) {text : String}
    {tree t : Tree} (h : (Parser.run table (.ofStream (.ofText text))).1 = .ok tree)
    (hw : t.Within tree) (hs : t.nonterminal? = some .sum) :
    ∃ w n, Derives .fortress [.nonterminal .sum] [t] w n ∧ ∀ x ∈ w, Source.Numeral x := by
  obtain ⟨w, n, hroot, hnumerals⟩ := derives_of_accepted Grammar.endFree_fortress ht h
  obtain ⟨v, k, hv, hsub⟩ := hroot.within List.mem_cons_self hw hs
  exact ⟨v, k, hv, fun x hx => hnumerals x (hsub x hx)⟩

end FortressLang
