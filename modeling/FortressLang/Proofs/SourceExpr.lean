import FortressLang.Decimal
import FortressLang.FortressGrammar
import FortressLang.Proofs.Arithmetic
import FortressLang.Proofs.Derivation

/-! Sums as they are written. They are read from left to right, the products before the sums and
what stands in parentheses first, and a minus in front of an atom belongs to that atom. -/
namespace FortressLang
namespace Source

mutual

inductive Sum
  | of (first : Product) (rest : SumRest)

/-- What follows the first product: further ones, each with its operator. -/
inductive SumRest
  | stop
  | step (minus : Bool) (next : Product) (rest : SumRest)

inductive Product
  | of (first : Atom) (rest : ProductRest)

inductive ProductRest
  | stop
  | step (slash : Bool) (next : Atom) (rest : ProductRest)

inductive Atom
  | named (x : String)
  | number (n : Int32)
  | minus (inner : Atom)
  | group (inner : Sum)

end

def additive (minus : Bool) : Operator := if minus then .sub else .add

def multiplicative (slash : Bool) : Operator := if slash then .div else .mul

section Value

variable {α : Type} (A : Arithmetic α) (ρ : String → α)

mutual

def Sum.value? : Sum → Option α
  | .of first rest => do rest.value? (← first.value?)

/-- The value that a sum has with this behind what it is worth so far. -/
def SumRest.value? (left : α) : SumRest → Option α
  | .stop => some left
  | .step minus next rest => do rest.value? (← A.operate? (additive minus) left (← next.value?))

def Product.value? : Product → Option α
  | .of first rest => do rest.value? (← first.value?)

def ProductRest.value? (left : α) : ProductRest → Option α
  | .stop => some left
  | .step slash next rest => do
    rest.value? (← A.operate? (multiplicative slash) left (← next.value?))

def Atom.value? : Atom → Option α
  | .named x => some (ρ x)
  | .number n => some (A.constant n)
  | .minus inner => do some (A.neg (← inner.value?))
  | .group inner => inner.value?

end

end Value

mutual

def Sum.Spelled : Sum → Tree → Prop
  | .of first rest, t => ∃ p r, t = .node (.nonterminal .sum) [p, r] ∧ first.Spelled p ∧
      rest.Spelled r

def SumRest.Spelled : SumRest → Tree → Prop
  | .stop, t => t = .node (.nonterminal .sumRest) []
  | .step minus next rest, t => ∃ o p r, t = .node (.nonterminal .sumRest) [.leaf o, p, r] ∧
      o.terminal = (if minus then .minus else .plus) ∧ next.Spelled p ∧ rest.Spelled r

def Product.Spelled : Product → Tree → Prop
  | .of first rest, t => ∃ a r, t = .node (.nonterminal .product) [a, r] ∧ first.Spelled a ∧
      rest.Spelled r

def ProductRest.Spelled : ProductRest → Tree → Prop
  | .stop, t => t = .node (.nonterminal .productRest) []
  | .step slash next rest, t => ∃ o a r, t = .node (.nonterminal .productRest) [.leaf o, a, r] ∧
      o.terminal = (if slash then .divide else .times) ∧ next.Spelled a ∧ rest.Spelled r

def Atom.Spelled : Atom → Tree → Prop
  | .named x, t => ∃ v, t = .node (.nonterminal .atom) [.leaf v] ∧ v.terminal = .varName ∧
      v.lexeme = x
  | .number n, t => ∃ v, t = .node (.nonterminal .atom) [.leaf v] ∧ v.terminal = .number ∧
      Decimal.int32? v.lexeme.toList = some n
  | .minus inner, t => ∃ m a, t = .node (.nonterminal .atom) [.leaf m, a] ∧ m.terminal = .minus ∧
      inner.Spelled a
  | .group inner, t => ∃ l s r, t = .node (.nonterminal .atom) [.leaf l, s, .leaf r] ∧
      l.terminal = .lparen ∧ r.terminal = .rparen ∧ inner.Spelled s

end

def Numeral (x : Token) : Prop :=
  x.terminal = .number → (Decimal.int32? x.lexeme.toList).isSome

/-- The tree of a symbol, and what is written where the symbol belongs to a sum. -/
def Reads : Symbol → Tree → Prop
  | .terminal x, t => ∃ found, t = .leaf found ∧ found.terminal = x ∧ Numeral found
  | .nonterminal .sum, t => ∃ s : Sum, s.Spelled t
  | .nonterminal .sumRest, t => ∃ s : SumRest, s.Spelled t
  | .nonterminal .product, t => ∃ p : Product, p.Spelled t
  | .nonterminal .productRest, t => ∃ p : ProductRest, p.Spelled t
  | .nonterminal .atom, t => ∃ a : Atom, a.Spelled t
  | .nonterminal _, _ => True

def shown (xs : List Symbol) : List Symbol := xs.filter (· ≠ .terminal .epsilon)

theorem shown_sum : ∀ r ∈ Grammar.fortress.rulesFor .sum,
    shown r.rhs = [.nonterminal .product, .nonterminal .sumRest] := by decide

theorem shown_sumRest : ∀ r ∈ Grammar.fortress.rulesFor .sumRest, shown r.rhs = [] ∨
    ∃ minus : Bool, shown r.rhs = [.terminal (if minus then .minus else .plus),
      .nonterminal .product, .nonterminal .sumRest] := by decide

theorem shown_product : ∀ r ∈ Grammar.fortress.rulesFor .product,
    shown r.rhs = [.nonterminal .atom, .nonterminal .productRest] := by decide

theorem shown_productRest : ∀ r ∈ Grammar.fortress.rulesFor .productRest, shown r.rhs = [] ∨
    ∃ slash : Bool, shown r.rhs = [.terminal (if slash then .divide else .times),
      .nonterminal .atom, .nonterminal .productRest] := by decide

theorem shown_atom : ∀ r ∈ Grammar.fortress.rulesFor .atom,
    shown r.rhs = [.terminal .varName] ∨ shown r.rhs = [.terminal .number] ∨
      shown r.rhs = [.terminal .minus, .nonterminal .atom] ∨
      shown r.rhs = [.terminal .lparen, .nonterminal .sum, .terminal .rparen] := by decide

theorem reads_node {a : Nonterminal} {r : Rule} (hr : r ∈ Grammar.fortress.rulesFor a)
    {cs : List Tree} (h : List.Forall₂ Reads (shown r.rhs) cs) :
    Reads (.nonterminal a) (.node (.nonterminal a) cs) := by
  cases a with
  | sum =>
    rw [shown_sum r hr] at h
    simp only [List.forall₂_cons_left_iff, List.forall₂_nil_left_iff] at h
    obtain ⟨p, _, ⟨first, hp⟩, ⟨r, _, ⟨rest, hr⟩, rfl, rfl⟩, rfl⟩ := h
    exact ⟨.of first rest, p, r, rfl, hp, hr⟩
  | sumRest =>
    rcases shown_sumRest r hr with hs | ⟨minus, hs⟩
    · rw [hs, List.forall₂_nil_left_iff] at h
      subst h
      exact ⟨.stop, rfl⟩
    · rw [hs] at h
      simp only [List.forall₂_cons_left_iff, List.forall₂_nil_left_iff] at h
      obtain ⟨_, _, ⟨o, rfl, ho, -⟩, ⟨p, _, ⟨next, hp⟩, ⟨r, _, ⟨rest, hr⟩, rfl, rfl⟩, rfl⟩,
        rfl⟩ := h
      exact ⟨.step minus next rest, o, p, r, rfl, ho, hp, hr⟩
  | product =>
    rw [shown_product r hr] at h
    simp only [List.forall₂_cons_left_iff, List.forall₂_nil_left_iff] at h
    obtain ⟨a, _, ⟨first, ha⟩, ⟨r, _, ⟨rest, hr⟩, rfl, rfl⟩, rfl⟩ := h
    exact ⟨.of first rest, a, r, rfl, ha, hr⟩
  | productRest =>
    rcases shown_productRest r hr with hs | ⟨slash, hs⟩
    · rw [hs, List.forall₂_nil_left_iff] at h
      subst h
      exact ⟨.stop, rfl⟩
    · rw [hs] at h
      simp only [List.forall₂_cons_left_iff, List.forall₂_nil_left_iff] at h
      obtain ⟨_, _, ⟨o, rfl, ho, -⟩, ⟨a, _, ⟨next, ha⟩, ⟨r, _, ⟨rest, hr⟩, rfl, rfl⟩, rfl⟩,
        rfl⟩ := h
      exact ⟨.step slash next rest, o, a, r, rfl, ho, ha, hr⟩
  | atom =>
    rcases shown_atom r hr with hs | hs | hs | hs <;> rw [hs] at h <;>
      simp only [List.forall₂_cons_left_iff, List.forall₂_nil_left_iff] at h
    · obtain ⟨_, _, ⟨x, rfl, hx, -⟩, rfl, rfl⟩ := h
      exact ⟨.named x.lexeme, x, rfl, hx, rfl⟩
    · obtain ⟨_, _, ⟨x, rfl, hx, hn⟩, rfl, rfl⟩ := h
      obtain ⟨n, hn⟩ := Option.isSome_iff_exists.mp (hn hx)
      exact ⟨.number n, x, rfl, hx, hn⟩
    · obtain ⟨_, _, ⟨m, rfl, hm, -⟩, ⟨a, _, ⟨inner, ha⟩, rfl, rfl⟩, rfl⟩ := h
      exact ⟨.minus inner, m, a, rfl, hm, ha⟩
    · obtain ⟨_, _, ⟨l, rfl, hl, -⟩, ⟨s, _, ⟨inner, hs⟩, ⟨_, _, ⟨r, rfl, hr, -⟩, rfl, rfl⟩, rfl⟩,
        rfl⟩ := h
      exact ⟨.group inner, l, s, r, rfl, hl, hr, hs⟩
  | program | code | instruction | assignment | conditional | conditionalEnd | condition
  | comparison | loop | print | read => trivial

theorem reads_of_derives {xs : List Symbol} {ts : List Tree} {w : List Token} {n : Nat}
    (h : Derives .fortress xs ts w n) (hw : ∀ x ∈ w, Numeral x) :
    List.Forall₂ Reads (shown xs) ts := by
  induction h with
  | nil => exact .nil
  | epsilon h ih => exact ih hw
  | @token x xs ts w n found hf hx h ih =>
    rw [List.forall_mem_cons] at hw
    have hshown : shown (.terminal x :: xs) = .terminal x :: shown xs := by simp [shown, hx]
    rw [hshown]
    exact .cons ⟨found, rfl, hf, hw.1⟩ (ih hw.2)
  | @node a xs cs ts w v m n r hr h₁ h₂ ih₁ ih₂ =>
    rw [List.forall_mem_append] at hw
    have hshown : shown (.nonterminal a :: xs) = .nonterminal a :: shown xs := by simp [shown]
    rw [hshown]
    exact .cons (reads_node hr (ih₁ hw.1)) (ih₂ hw.2)

theorem exists_spelled {t : Tree} {w : List Token} {n : Nat}
    (h : Derives .fortress [.nonterminal .sum] [t] w n) (hw : ∀ x ∈ w, Numeral x) :
    ∃ s : Sum, s.Spelled t := by
  have hreads := reads_of_derives h hw
  cases hreads with
  | cons ht _ => exact ht

end Source
end FortressLang
