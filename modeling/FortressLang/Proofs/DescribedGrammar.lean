import FortressLang.FortressGrammar
import FortressLang.GrammarDescription
import FortressLang.Proofs.ExceptLaws

/-! Grammars read from descriptions. No spelling stands for the end of the stream, so that it is in
none of their rules. -/
namespace FortressLang
namespace Grammar

def EndFree (g : Grammar) : Prop := ∀ r ∈ g.rules, .terminal .endOfStream ∉ r.rhs

theorem endFree_ofProductions {ps : List Production} (h : ps ≠ [])
    (hps : ∀ p ∈ ps, .terminal .endOfStream ∉ p.rhs) : (ofProductions ps h).EndFree := by
  intro r hr
  obtain ⟨⟨p, i⟩, hp, rfl⟩ := List.mem_map.mp hr
  exact hps p (List.mem_of_getElem? (List.mem_zipIdx_iff_getElem?.mp hp))

theorem readSymbol_ne_endOfStream {line : Nat} {field : List Char} {x : Symbol}
    (h : readSymbol line field = .ok x) : x ≠ .terminal .endOfStream := by
  rintro rfl
  rw [readSymbol] at h
  split at h
  · rename_i hs
    cases h
    rw [Symbol.ofSpelling?, Option.or_eq_some_iff] at hs
    rcases hs with hs | ⟨-, hs⟩
    · obtain ⟨a, -, ha⟩ := Option.map_eq_some_iff.mp hs
      cases ha
    · obtain ⟨t, ht, hx⟩ := Option.map_eq_some_iff.mp hs
      cases hx
      unfold Terminal.ofSpelling? at ht
      split at ht
      · cases ht
      · cases ht
      · have hm := List.mem_of_find?_eq_some ht
        revert hm
        decide
  · cases h

theorem readProduction_rhs {line : Nat} {fields : List (List Char)} {p : Production}
    (h : readProduction line fields = .ok p) : .terminal .endOfStream ∉ p.rhs := by
  cases fields with
  | nil => cases h
  | cons field fields =>
    rw [readProduction] at h
    split at h
    · obtain ⟨rhs, hm, h⟩ := bind_eq_ok.mp h
      split at h
      · cases h
      · cases h
        intro hx
        obtain ⟨f, -, hf⟩ := mem_of_mapM_ok hm hx
        exact readSymbol_ne_endOfStream hf rfl
    · cases h

theorem endFree_ofDescription {description : String} {g : Grammar}
    (h : ofDescription description = .ok g) : g.EndFree := by
  obtain ⟨ps, hp, h⟩ := bind_eq_ok.mp h
  split at h
  · rename_i hne
    cases h
    refine endFree_ofProductions hne fun p hmem => ?_
    obtain ⟨read, hl, ⟨⟩⟩ := bind_eq_ok.mp hp
    obtain ⟨o, ho, hop⟩ := List.mem_filterMap.mp hmem
    obtain ⟨l, -, hr⟩ := mem_of_mapM_ok hl ho
    obtain rfl : o = some p := hop
    rw [readLine] at hr
    split at hr
    · cases hr
    · obtain ⟨q, hq, ⟨⟩⟩ := map_eq_ok.mp hr
      exact readProduction_rhs hq
  · cases h

theorem endFree_fortress : fortress.EndFree := endFree_ofProductions _ (by decide)

/-- The grammar of the language, or one that a description gives. -/
def Known (g : Grammar) : Prop := g = fortress ∨ ∃ description, ofDescription description = .ok g

theorem Known.endFree {g : Grammar} (h : g.Known) : g.EndFree := by
  rcases h with rfl | ⟨description, h⟩
  · exact endFree_fortress
  · exact endFree_ofDescription h

end Grammar
end FortressLang
