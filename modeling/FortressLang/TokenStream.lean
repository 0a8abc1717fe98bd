import FortressLang.Piece

/-! What a parser reads from: finitely many tokens and lexical errors, then the end of the stream
for ever. -/
namespace FortressLang

structure TokenStream where
  results : List (Except Issue Token)
  finish : Position

namespace TokenStream

def next (s : TokenStream) : Except Issue Token × TokenStream :=
  match s.results with
  | [] => (.ok (.endOfStream s.finish), s)
  | r :: rs => (r, { s with results := rs })

def head (s : TokenStream) : Except Issue Token := s.next.1

def tail (s : TokenStream) : TokenStream := s.next.2

@[simp] theorem head_nil (p : Position) : head ⟨[], p⟩ = .ok (.endOfStream p) := rfl
@[simp] theorem tail_nil (p : Position) : tail ⟨[], p⟩ = ⟨[], p⟩ := rfl
@[simp] theorem head_cons (r : Except Issue Token) (rs : List (Except Issue Token)) (p : Position) :
    head ⟨r :: rs, p⟩ = r := rfl
@[simp] theorem tail_cons (r : Except Issue Token) (rs : List (Except Issue Token)) (p : Position) :
    tail ⟨r :: rs, p⟩ = ⟨rs, p⟩ := rfl

/-- The tokens of a program's text. -/
def ofText (text : String) : TokenStream :=
  let cs := text.toList
  ⟨(Piece.ofText cs).filterMap Piece.result?, ({} : Position).advance cs⟩

/-- The given tokens; the stream ends where the last of them stands. -/
def ofTokens (ts : List Token) : TokenStream :=
  ⟨ts.map .ok, (ts.getLast?.map Token.pos).getD {}⟩

/-- Everything handed out up to the end of the stream, which is handed out `1 + extra` times. -/
def steps (s : TokenStream) (extra : Nat) : List (Except Issue Token) :=
  s.results ++ List.replicate (1 + extra) (.ok (.endOfStream s.finish))

end TokenStream
end FortressLang
