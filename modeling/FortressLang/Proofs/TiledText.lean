import FortressLang.Proofs.ExactPieces
import Mathlib.Data.List.Induction
import Mathlib.Logic.Function.Iterate

/-! The tokenizer tiles the text. The pieces of a text make it up in order, each with its place, and
every call takes the gaps ahead and the piece behind them, until only gaps are left. -/
namespace FortressLang

/-- The place behind a text, of which lines end at line feeds. -/
def Position.behind (cs : List Char) : Position :=
  ⟨1 + cs.count '\n', 1 + (cs.reverse.takeWhile (· ≠ '\n')).length⟩

theorem Position.advance_eq_behind (cs : List Char) : ({} : Position).advance cs = behind cs := by
  induction cs using List.reverseRecOn with
  | nil => rfl
  | append_singleton cs c ih =>
    rw [advance_append, ih]
    by_cases hc : c = '\n'
    · subst hc
      simp [advance, after, behind, Nat.add_assoc]
    · simp [advance, after, behind, hc, Nat.add_assoc]

namespace Piece

/-- The pieces make up the text, one behind the other. None is empty, each has the place of its
first character, and each is exact in front of what follows it. -/
structure Tiles (text : List Char) (ps : List Piece) : Prop where
  covers : ps.flatMap chars = text
  nonempty : ∀ p ∈ ps, p.chars ≠ []
  placed : ∀ before p after, ps = before ++ p :: after → p.pos = .behind (before.flatMap chars)
  exact : ∀ before p after, ps = before ++ p :: after →
    Exact p.kind p.chars (after.flatMap chars)

theorem cut_placed {pos : Position} {cs : List Char} {before after : List Piece} {p : Piece}
    (h : cut [] pos cs = before ++ p :: after) :
    p.chars ≠ [] ∧ p.pos = pos.advance (before.flatMap chars) ∧
      Exact p.kind p.chars (after.flatMap chars) := by
  induction cs using text_induction generalizing pos before with
  | nil => simp [cut] at h
  | cons c cs ih =>
    rw [cut_cons] at h
    cases before with
    | nil =>
      obtain ⟨rfl, rfl⟩ := List.cons.inj h
      rw [flatMap_cut]
      exact ⟨List.cons_ne_nil _ _, rfl, exact_split c cs⟩
    | cons q before =>
      obtain ⟨rfl, hrest⟩ := List.cons.inj h
      obtain ⟨hne, hpos, hexact⟩ := ih hrest
      refine ⟨hne, ?_, hexact⟩
      rw [hpos, List.flatMap_cons, Position.advance_append]

theorem tiles_ofText (cs : List Char) : Tiles cs (ofText cs) where
  covers := flatMap_cut _ cs
  nonempty p hp := by
    obtain ⟨before, after, h⟩ := List.append_of_mem hp
    exact (cut_placed h).1
  placed before p after h := by
    rw [← Position.advance_eq_behind]
    exact (cut_placed h).2.1
  exact before p after h := (cut_placed h).2.2

/-- What is left of the pieces ahead after one call: it passes over gaps, and takes one piece. -/
def leave (ps : List Piece) : List Piece := (ps.dropWhile (·.kind = .gap)).tail

theorem result?_eq_none_iff {p : Piece} (hp : p.chars ≠ []) :
    p.result? = none ↔ p.kind = .gap := by
  obtain ⟨kind, chars, pos⟩ := p
  cases kind with
  | stray => simpa [result?] using hp
  | _ => simp [result?]

theorem gaps_or (ps : List Piece) : ∃ gaps : List Piece, (∀ g ∈ gaps, g.kind = .gap) ∧
    ((∃ p, p.kind ≠ .gap ∧ ps = gaps ++ p :: leave ps) ∨ ps = gaps ∧ leave ps = []) := by
  refine ⟨ps.takeWhile (·.kind = .gap), fun g hg => by simpa using List.mem_takeWhile_imp hg, ?_⟩
  have hps := List.takeWhile_append_dropWhile (p := fun p : Piece => p.kind = .gap) (l := ps)
  have hhead := List.head?_dropWhile_not (fun p : Piece => p.kind = .gap) ps
  rw [leave]
  cases hd : ps.dropWhile (·.kind = .gap) with
  | nil =>
    rw [hd, List.append_nil] at hps
    exact .inr ⟨hps.symm, rfl⟩
  | cons p rest =>
    rw [hd] at hps hhead
    exact .inl ⟨p, by simpa using hhead, hps.symm⟩

def stream (ps : List Piece) (finish : Position) : TokenStream := ⟨ps.filterMap result?, finish⟩

theorem filterMap_gaps {gaps : List Piece} (h : ∀ g ∈ gaps, g.kind = .gap) :
    gaps.filterMap result? = [] := by
  refine List.filterMap_eq_nil_iff.mpr fun g hg => ?_
  rw [result?, h g hg]

/-- One call returns the result of the piece behind the gaps, and the next one goes on behind it. -/
theorem stream_next {ps : List Piece} (hps : ∀ p ∈ ps, p.chars ≠ []) (finish : Position) :
    (stream ps finish).tail = stream (leave ps) finish ∧
      ∃ gaps : List Piece, (∀ g ∈ gaps, g.kind = .gap) ∧
        ((∃ p, p.kind ≠ .gap ∧ ps = gaps ++ p :: leave ps ∧
            p.result? = some (stream ps finish).head) ∨
          ps = gaps ∧ leave ps = [] ∧ (stream ps finish).head = .ok (.endOfStream finish)) := by
  obtain ⟨gaps, hgaps, ⟨p, hp, h⟩ | ⟨h, hleave⟩⟩ := gaps_or ps
  · have hmem : p ∈ ps := by rw [h]; simp
    obtain ⟨r, hr⟩ := Option.ne_none_iff_exists'.mp
      (mt (result?_eq_none_iff (hps p hmem)).mp hp)
    have hresults : ps.filterMap result? = r :: (leave ps).filterMap result? := by
      conv_lhs => rw [h, List.filterMap_append, filterMap_gaps hgaps, List.nil_append,
        List.filterMap_cons, hr]
    rw [stream, hresults]
    exact ⟨rfl, gaps, hgaps, .inl ⟨p, hp, h, hr⟩⟩
  · have hresults : ps.filterMap result? = [] := h ▸ filterMap_gaps hgaps
    rw [stream, hresults]
    refine ⟨?_, gaps, hgaps, .inr ⟨h, hleave, rfl⟩⟩
    rw [hleave]
    rfl

theorem leave_suffix (ps : List Piece) : leave ps <:+ ps :=
  (List.tail_suffix _).trans (List.dropWhile_suffix _)

theorem iterate_leave_suffix (n : Nat) (ps : List Piece) : leave^[n] ps <:+ ps := by
  induction n with
  | zero => exact List.suffix_refl ps
  | succ n ih =>
    rw [Function.iterate_succ_apply']
    exact (leave_suffix _).trans ih

theorem iterate_stream {ps : List Piece} (hps : ∀ p ∈ ps, p.chars ≠ []) (finish : Position)
    (n : Nat) : TokenStream.tail^[n] (stream ps finish) = stream (leave^[n] ps) finish := by
  induction n with
  | zero => rfl
  | succ n ih =>
    rw [Function.iterate_succ_apply', Function.iterate_succ_apply', ih]
    exact (stream_next (fun p hp => hps p ((iterate_leave_suffix n ps).subset hp)) finish).1

theorem Exact.terminal_ne {k : Kind} {cs rest : List Char} (h : Exact k cs rest) :
    k ≠ .lexeme .endOfStream := by
  rintro rfl
  cases h with
  | mark h => exact absurd h (by decide)
  | keyword h => exact absurd h (by decide)

/-- What a call returns for a piece of this kind with these characters at this place. -/
inductive Reported : Kind → List Char → Position → Except Issue Token → Prop
  | lexeme {t : Terminal} {cs : List Char} {pos : Position} :
    Reported (.lexeme t) cs pos (.ok ⟨t, String.ofList cs, pos⟩)
  | overflow {cs : List Char} {pos : Position} :
    Reported .overflow cs pos (.error (.numberOutOfRange (String.ofList cs) pos))
  | stray {c : Char} {pos : Position} : Reported .stray [c] pos (.error (.unknownCharacter c pos))
  | unclosed {cs : List Char} {pos : Position} :
    Reported .unclosed cs pos (.error (.unterminatedComment pos))

theorem Exact.reported {p : Piece} {rest : List Char} {r : Except Issue Token}
    (h : Exact p.kind p.chars rest) (hr : p.result? = some r) :
    Reported p.kind p.chars p.pos r := by
  obtain ⟨kind, chars, pos⟩ := p
  cases kind with
  | gap => cases hr
  | lexeme t =>
    cases hr
    exact .lexeme
  | overflow =>
    cases hr
    exact .overflow
  | stray =>
    cases h with
    | stray _ =>
      cases hr
      exact .stray
  | unclosed =>
    cases hr
    exact .unclosed

end Piece

namespace TokenStream

/-- What a call returns, counted from zero. -/
def call (s : TokenStream) (n : Nat) : Except Issue Token := (tail^[n] s).head

def Ended (r : Except Issue Token) : Prop := ∃ found, r = .ok found ∧ found.terminal = .endOfStream

end TokenStream

theorem Piece.Exact.not_ended {k : Kind} {cs rest : List Char} {pos : Position}
    {r : Except Issue Token} (h : Exact k cs rest) (hr : Reported k cs pos r) :
    ¬TokenStream.Ended r := by
  rintro ⟨found, hfound, hend⟩
  cases hr with
  | lexeme =>
    obtain rfl := Except.ok.inj hfound
    exact h.terminal_ne (congrArg Kind.lexeme hend)
  | _ => cases hfound

/-- The pieces of a text that are ahead of a call. -/
def Piece.ahead (text : String) (n : Nat) : List Piece := leave^[n] (ofText text.toList)

section

variable (text : String) (n : Nat)

theorem Piece.ahead_succ : ahead text (n + 1) = leave (ahead text n) :=
  Function.iterate_succ_apply' ..

theorem Piece.nonempty_ahead : ∀ p ∈ ahead text n, p.chars ≠ [] := fun p hp =>
  (tiles_ofText text.toList).nonempty p ((iterate_leave_suffix n _).subset hp)

theorem TokenStream.call_ofText :
    (ofText text).call n = (Piece.stream (Piece.ahead text n) (.behind text.toList)).head := by
  have hstream : ofText text = Piece.stream (Piece.ofText text.toList) (.behind text.toList) := by
    rw [← Position.advance_eq_behind]
    rfl
  rw [call, hstream, Piece.iterate_stream (Piece.tiles_ofText text.toList).nonempty, Piece.ahead]

theorem Piece.ahead_of_le {m : Nat} (hm : n ≤ m) (h : ahead text n = []) : ahead text m = [] := by
  induction m, hm using Nat.le_induction with
  | base => exact h
  | succ m hm ih =>
    rw [ahead_succ, ih]
    rfl

/-- A piece in front of a call is reported by it, at its place in the text. -/
theorem Piece.reported_ahead {gaps : List Piece} {p : Piece} {r : Except Issue Token}
    (h : ahead text n = gaps ++ p :: ahead text (n + 1)) (hr : p.result? = some r) :
    ∃ before, text.toList = before ++ p.chars ++ (ahead text (n + 1)).flatMap chars ∧
      Exact p.kind p.chars ((ahead text (n + 1)).flatMap chars) ∧
      Reported p.kind p.chars (.behind before) r := by
  have htiles := tiles_ofText text.toList
  obtain ⟨passed, hpassed⟩ := iterate_leave_suffix n (ofText text.toList)
  have hps : ofText text.toList = (passed ++ gaps) ++ p :: ahead text (n + 1) := by
    rw [List.append_assoc, ← h]
    exact hpassed.symm
  have hexact := htiles.exact _ _ _ hps
  refine ⟨(passed ++ gaps).flatMap chars, ?_, hexact, ?_⟩
  · conv_lhs => rw [← htiles.covers, hps, List.flatMap_append, List.flatMap_cons]
    rw [List.append_assoc]
  · rw [← htiles.placed _ _ _ hps]
    exact hexact.reported hr

end

/-- For every text: its pieces tile it, and before the first call all of them are ahead. Each call
takes the gaps ahead and one piece behind them, which is not empty and is exact, and reports it at
the place behind the text before it; this is not the end of the stream. Or there are only gaps
ahead, and it takes them and returns the end of the stream, at the end of the text. Once it does,
all later calls do. -/
theorem text_is_tiled (text : String) :
    Piece.Tiles text.toList (Piece.ofText text.toList) ∧
    Piece.ahead text 0 = Piece.ofText text.toList ∧
    (∀ n, ∃ gaps : List Piece, (∀ g ∈ gaps, g.kind = .gap) ∧
      ((∃ before p, Piece.ahead text n = gaps ++ p :: Piece.ahead text (n + 1) ∧
          text.toList = before ++ p.chars ++ (Piece.ahead text (n + 1)).flatMap Piece.chars ∧
          p.kind ≠ .gap ∧ p.chars ≠ [] ∧
          Piece.Exact p.kind p.chars ((Piece.ahead text (n + 1)).flatMap Piece.chars) ∧
          Piece.Reported p.kind p.chars (.behind before) ((TokenStream.ofText text).call n) ∧
          ¬TokenStream.Ended ((TokenStream.ofText text).call n)) ∨
        (Piece.ahead text n = gaps ∧ Piece.ahead text (n + 1) = [] ∧
          (TokenStream.ofText text).call n = .ok (.endOfStream (.behind text.toList))))) ∧
    ∀ n, TokenStream.Ended ((TokenStream.ofText text).call n) → ∀ m, n ≤ m →
      (TokenStream.ofText text).call m = .ok (.endOfStream (.behind text.toList)) := by
  have hcall (n : Nat) := Piece.stream_next (Piece.nonempty_ahead text n) (.behind text.toList)
  simp only [← Piece.ahead_succ, ← TokenStream.call_ofText] at hcall
  refine ⟨Piece.tiles_ofText _, rfl, fun n => ?_, fun n hend m hm => ?_⟩
  · obtain ⟨-, gaps, hgaps, ⟨p, hp, h, hr⟩ | hlast⟩ := hcall n
    · have hmem : p ∈ Piece.ahead text n := by rw [h]; simp
      obtain ⟨before, htext, hexact, hreported⟩ := Piece.reported_ahead text n h hr
      exact ⟨gaps, hgaps, .inl ⟨before, p, h, htext, hp, Piece.nonempty_ahead text n p hmem, hexact,
        hreported, hexact.not_ended hreported⟩⟩
    · exact ⟨gaps, hgaps, .inr hlast⟩
  · obtain ⟨-, gaps, -, ⟨p, -, h, hr⟩ | ⟨-, hnone, hfirst⟩⟩ := hcall n
    · obtain ⟨before, -, hexact, hreported⟩ := Piece.reported_ahead text n h hr
      exact absurd hend (hexact.not_ended hreported)
    · rcases Nat.eq_or_lt_of_le hm with rfl | hlt
      · exact hfirst
      · rw [TokenStream.call_ofText, Piece.ahead_of_le text (n + 1) hlt hnone]
        rfl

end FortressLang
