import FortressLang.TreeDrawing
import Mathlib.Data.List.Basic

/-! Trees of labels, written in brackets. The text of a tree is balanced, and no two trees have the
same text. -/
namespace FortressLang

def closing? : Char → Option Char
  | '[' => some ']'
  | '\x7b' => some '\x7d'
  | _ => none

/-- The text closes each of its brackets, the last opened first, and behind them those that wait to
be closed. -/
def closes (waiting : List Char) : List Char → Bool
  | [] => waiting.isEmpty
  | c :: cs =>
    match closing? c with
    | some d => closes (d :: waiting) cs
    | none =>
      if c = ']' ∨ c = '\x7d' then waiting.head? = some c && closes waiting.tail cs
      else closes waiting cs

/-- Square brackets and braces are closed in the order opposite to that in which they are opened. -/
def Balanced (cs : List Char) : Prop := closes [] cs = true

instance (cs : List Char) : Decidable (Balanced cs) := inferInstanceAs (Decidable (_ = true))

/-- A character of a label: no bracket, and not the mark of math mode. -/
def isLabelChar (c : Char) : Bool := c ∉ ['[', ']', '\x7b', '\x7d', '$']

def IsLabel (label : String) : Prop := ∀ c ∈ label.toList, isLabelChar c = true

/-- What is waited for is closed behind a text that closes what comes in front of it. -/
theorem closes_append {inner cs : List Char} (h : closes inner cs = true) (outer rest : List Char) :
    closes (inner ++ outer) (cs ++ rest) = closes outer rest := by
  induction cs generalizing inner with
  | nil =>
    obtain rfl := List.isEmpty_iff.mp h
    rfl
  | cons c cs ih =>
    rw [closes] at h
    rw [List.cons_append, closes]
    split at h
    · exact ih h
    · split at h
      · rename_i hclosing
        rw [Bool.and_eq_true, decide_eq_true_eq] at h
        obtain ⟨inner, rfl⟩ := List.head?_eq_some_iff.mp h.1
        simpa [hclosing] using ih h.2
      · rename_i hplain
        simpa [hplain] using ih h

theorem append_cons_inj {c : Char} {cs ds rest rest' : List Char} (hcs : c ∉ cs) (hds : c ∉ ds)
    (h : cs ++ c :: rest = ds ++ c :: rest') : cs = ds ∧ rest = rest' := by
  induction cs generalizing ds with
  | nil =>
    cases ds with
    | nil => exact ⟨rfl, (List.cons.inj h).2⟩
    | cons d ds => exact absurd ((List.cons.inj h).1 ▸ List.mem_cons_self) hds
  | cons d cs ih =>
    cases ds with
    | nil => exact absurd ((List.cons.inj h).1 ▸ List.mem_cons_self) hcs
    | cons e ds =>
      rw [List.mem_cons, not_or] at hcs hds
      obtain ⟨rfl, hmore⟩ := List.cons.inj h
      obtain ⟨rfl, rfl⟩ := ih hcs.2 hds.2 hmore
      exact ⟨rfl, rfl⟩

namespace Balanced

variable {cs ds : List Char}

theorem append (h : Balanced cs) (h' : Balanced ds) : Balanced (cs ++ ds) :=
  (closes_append h [] ds).trans h'

theorem enclose (h : Balanced cs) {c d : Char} (hc : closing? c = some d) :
    Balanced (c :: (cs ++ [d])) := by
  have hclosed : closes [d] [d] = true := by
    unfold closing? at hc
    split at hc <;> cases hc <;> rfl
  have hcs := closes_append h [d] [d]
  rw [Balanced, closes, hc]
  exact hcs.trans hclosed

theorem of_forall (h : ∀ c ∈ cs, closing? c = none ∧ c ≠ ']' ∧ c ≠ '\x7d') : Balanced cs := by
  induction cs with
  | nil => rfl
  | cons c cs ih =>
    rw [List.forall_mem_cons] at h
    obtain ⟨⟨hopening, hsquare, hbrace⟩, hcs⟩ := h
    simpa [Balanced, closes, hopening, hsquare, hbrace] using ih hcs

end Balanced

theorem balanced_join {texts : List String} (h : ∀ s ∈ texts, Balanced s.toList) :
    Balanced (String.join texts).toList := by
  induction texts with
  | nil => rfl
  | cons s texts ih =>
    rw [List.forall_mem_cons] at h
    rw [String.join_cons, String.toList_append]
    exact h.1.append (ih h.2)

theorem IsLabel.ne {label : String} (h : IsLabel label) {c : Char} (hc : c ∈ label.toList) :
    c ≠ '[' ∧ c ≠ ']' ∧ c ≠ '\x7b' ∧ c ≠ '\x7d' ∧ c ≠ '$' := by
  simpa [isLabelChar] using h c hc

namespace TreeDrawing

variable {label other : String}

theorem mem_escape {c : Char} (hc : c ∈ (escape label).toList) : c = '$' ∨ c ∈ label.toList := by
  unfold escape at hc
  split at hc
  · simpa [or_comm, or_assoc] using hc
  · exact .inr hc

theorem not_brace_mem_escape (h : IsLabel label) : '\x7d' ∉ (escape label).toList := by
  intro hmem
  rcases mem_escape hmem with hdollar | hlabel
  · exact absurd hdollar (by decide)
  · exact (h.ne hlabel).2.2.2.1 rfl

theorem balanced_escape (h : IsLabel label) : Balanced (escape label).toList := by
  refine .of_forall fun c hc => ?_
  rcases mem_escape hc with rfl | hlabel
  · decide
  · obtain ⟨hsquare, hclosed, hbrace, hended, -⟩ := h.ne hlabel
    refine ⟨?_, hclosed, hended⟩
    unfold closing?
    split <;> trivial

theorem escape_inj (h : IsLabel label) (hother : IsLabel other)
    (heq : escape label = escape other) : label = other := by
  have hmarks {s t : String} (ht : IsLabel t) : "$" ++ s ++ "$" ≠ t := by
    rintro rfl
    have hdollar : '$' ∈ ("$" ++ s ++ "$").toList := by simp
    exact (ht.ne hdollar).2.2.2.2 rfl
  unfold escape at heq
  split at heq <;> split at heq
  · have hlist := congrArg String.toList heq
    exact String.toList_injective (by simpa using hlist)
  · exact absurd heq (hmarks hother)
  · exact absurd heq.symm (hmarks h)
  · exact heq

end TreeDrawing

inductive Drawing
  | node (label : String) (children : List Drawing)

namespace Drawing

mutual

def text : Drawing → String
  | node label ds => TreeDrawing.node label (texts ds)

def texts : List Drawing → List String
  | [] => []
  | d :: ds => d.text :: texts ds

end

mutual

def Labelled : Drawing → Prop
  | node label ds => IsLabel label ∧ LabelledAll ds

def LabelledAll : List Drawing → Prop
  | [] => True
  | d :: ds => d.Labelled ∧ LabelledAll ds

end

theorem toList_text (label : String) (ds : List Drawing) (rest : List Char) :
    (node label ds).text.toList ++ rest = '[' :: '\x7b' :: ((TreeDrawing.escape label).toList ++
      '\x7d' :: ' ' :: ((String.join (texts ds)).toList ++ ']' :: rest)) := by
  simp [text, TreeDrawing.node]

mutual

theorem balanced_text : ∀ {d : Drawing}, d.Labelled → Balanced d.text.toList
  | node label ds, h => by
    have hlabel := (TreeDrawing.balanced_escape h.1).enclose (c := '\x7b') rfl
    have hspace : Balanced [' '] := by decide
    have hds := balanced_join (balanced_texts h.2)
    have hnode := ((hlabel.append hspace).append hds).enclose (c := '[') rfl
    have htext := toList_text label ds []
    rw [List.append_nil] at htext
    rw [htext]
    simpa using hnode

theorem balanced_texts : ∀ {ds : List Drawing}, LabelledAll ds →
    ∀ s ∈ texts ds, Balanced s.toList
  | [], _ => List.forall_mem_nil _
  | _ :: _, h => List.forall_mem_cons.mpr ⟨balanced_text h.1, balanced_texts h.2⟩

end

/-- A node is known from its label and its children, since a label ends at the first brace. -/
theorem text_eq {label other : String} {ds es : List Drawing} (h : IsLabel label)
    (hother : IsLabel other) {rest rest' : List Char}
    (heq : (node label ds).text.toList ++ rest = (node other es).text.toList ++ rest') :
    label = other ∧ (String.join (texts ds)).toList ++ ']' :: rest =
      (String.join (texts es)).toList ++ ']' :: rest' := by
  rw [toList_text, toList_text, List.cons.injEq, List.cons.injEq] at heq
  obtain ⟨-, -, heq⟩ := heq
  obtain ⟨hlabel, hrest⟩ := append_cons_inj (TreeDrawing.not_brace_mem_escape h)
    (TreeDrawing.not_brace_mem_escape hother) heq
  exact ⟨TreeDrawing.escape_inj h hother (String.toList_injective hlabel), (List.cons.inj hrest).2⟩

theorem toList_join_texts (d : Drawing) (ds : List Drawing) (rest : List Char) :
    (String.join (texts (d :: ds))).toList ++ rest =
      d.text.toList ++ ((String.join (texts ds)).toList ++ rest) := by
  simp [texts]

theorem closed_ne_texts (d : Drawing) (ds : List Drawing) (rest rest' : List Char) :
    ']' :: rest ≠ (String.join (texts (d :: ds))).toList ++ rest' := by
  obtain ⟨label, children⟩ := d
  rw [toList_join_texts, toList_text]
  exact fun h => absurd (List.cons.inj h).1 (by decide)

mutual

theorem text_inj : ∀ {d e : Drawing}, d.Labelled → e.Labelled → ∀ {rest rest' : List Char},
    d.text.toList ++ rest = e.text.toList ++ rest' → d = e ∧ rest = rest'
  | node label ds, node other es, hd, he, rest, rest', h => by
    obtain ⟨rfl, hchildren⟩ := text_eq hd.1 he.1 h
    obtain ⟨rfl, rfl⟩ := texts_inj hd.2 he.2 hchildren
    exact ⟨rfl, rfl⟩

theorem texts_inj : ∀ {ds es : List Drawing}, LabelledAll ds → LabelledAll es →
    ∀ {rest rest' : List Char}, (String.join (texts ds)).toList ++ ']' :: rest =
      (String.join (texts es)).toList ++ ']' :: rest' → ds = es ∧ rest = rest'
  | [], [], _, _, rest, rest', h => ⟨rfl, (List.cons.inj h).2⟩
  | [], e :: es, _, _, rest, rest', h => absurd h (closed_ne_texts e es rest _)
  | d :: ds, [], _, _, rest, rest', h => absurd h.symm (closed_ne_texts d ds rest' _)
  | d :: ds, e :: es, hd, he, rest, rest', h => by
    rw [toList_join_texts, toList_join_texts] at h
    obtain ⟨rfl, hmore⟩ := text_inj hd.1 he.1 h
    obtain ⟨rfl, rfl⟩ := texts_inj hd.2 he.2 hmore
    exact ⟨rfl, rfl⟩

end

end Drawing
end FortressLang
