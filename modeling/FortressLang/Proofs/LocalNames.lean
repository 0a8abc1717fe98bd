import FortressLang.Proofs.FlowGraph
import FortressLang.Proofs.HeldStorage
import FortressLang.Proofs.NamedPrograms
import Mathlib.Data.List.DropRight

/-! What the main function of a program defines: its entry, numbered temporaries and conditions,
storage and labels. All of them are different, and so are their names, although temporaries, storage
and labels have one space of names. -/
namespace FortressLang

open Source (isVariable)

/-- An operation names variables as they may be named, and passes no constant that has no other
sign. -/
def Op.wellNamed : Op → Bool
  | loadVariable _ name | alloc name | store _ name => isVariable name
  | loadConstant _ n => decide (-(2 ^ 31 - 1) ≤ n ∧ n ≤ 2 ^ 31 - 1)
  | _ => true

theorem Expr.wellNamed_lower (e : Expr) (he : e.wellNamed = true) (first : Nat) :
    ∀ op ∈ (e.lower first).1, op.wellNamed = true := by
  induction e generalizing first with
  | operand o =>
    obtain ⟨v, negated⟩ := o
    have hv : v.wellNamed = true := he
    rcases v with name | n
    · have hname : isVariable name = true := hv
      cases negated <;> simp [lower, Op.wellNamed, hname]
    · have hlow : 0 ≤ n.toInt := Int32.le_iff_toInt_le.mp (of_decide_eq_true hv)
      have hhigh := n.toInt_lt
      rw [lower, List.forall_mem_singleton]
      refine decide_eq_true ?_
      cases negated <;> simp only [if_true, Bool.false_eq_true, if_false] <;> omega
  | binary op lhs rhs ihl ihr =>
    simp only [wellNamed, Bool.and_eq_true] at he
    simp only [lower, List.forall_mem_append, List.forall_mem_singleton]
    exact ⟨⟨ihl he.1 _, ihr he.2 _⟩, rfl⟩

theorem Condition.wellNamed_lower (c : Condition) (hc : c.wellNamed = true) (block first : Nat) :
    ∀ op ∈ (c.lower block first).1, op.wellNamed = true := by
  simp only [wellNamed, Bool.and_eq_true] at hc
  simp only [lower, List.forall_mem_append, List.forall_mem_singleton]
  exact ⟨⟨c.lhs.wellNamed_lower hc.1 _, c.rhs.wellNamed_lower hc.2 _⟩, rfl⟩

theorem Context.wellNamed_allocate (ctx : Context) {name : String}
    (hname : isVariable name = true) :
    ∀ op ∈ (ctx.allocate name).1, op.wellNamed = true := by
  unfold allocate
  split
  · exact List.forall_mem_nil _
  · split
    · exact List.forall_mem_nil _
    · exact List.forall_mem_singleton.mpr hname

namespace Statement

mutual

theorem wellNamed_lower (ctx : Context) :
    ∀ s : Statement, s.wellNamed = true → ∀ op ∈ (s.lower ctx).1, op.wellNamed = true
  | .assign target value, hs => by
    simp only [wellNamed, Bool.and_eq_true] at hs
    simp only [lower, List.forall_mem_append, List.forall_mem_singleton]
    exact ⟨⟨value.wellNamed_lower hs.2 _, Context.wellNamed_allocate _ hs.1⟩, hs.1⟩
  | .print name, hs => by
    simp only [lower, List.forall_mem_cons]
    exact ⟨hs, rfl, List.forall_mem_nil _⟩
  | .read name, hs => by
    simp only [lower, List.cons_append, List.forall_mem_cons, List.forall_mem_append]
    exact ⟨rfl, Context.wellNamed_allocate _ hs, hs, List.forall_mem_nil _⟩
  | .branch c ts es, hs => by
    simp only [wellNamed, Bool.and_eq_true] at hs
    simp only [lower_branch, List.forall_mem_append, List.forall_mem_cons]
    exact ⟨c.wellNamed_lower hs.1.1 _ _, rfl, rfl, wellNamed_lowerAll _ ts hs.1.2, rfl, rfl,
      wellNamed_lowerAll _ es hs.2, rfl, rfl, List.forall_mem_nil _⟩
  | .loop c ss, hs => by
    simp only [wellNamed, Bool.and_eq_true] at hs
    simp only [lower_loop, List.forall_mem_append, List.forall_mem_cons]
    exact ⟨rfl, rfl, c.wellNamed_lower hs.1 _ _, rfl, rfl, wellNamed_lowerAll _ ss hs.2, rfl, rfl,
      List.forall_mem_nil _⟩

theorem wellNamed_lowerAll (ctx : Context) : ∀ ss : List Statement, wellNamedAll ss = true →
    ∀ op ∈ (lowerAll ctx ss).1, op.wellNamed = true
  | [], _ => List.forall_mem_nil _
  | s :: ss, hs => by
    simp only [wellNamedAll, Bool.and_eq_true] at hs
    simp only [lowerAll, List.forall_mem_append]
    exact ⟨wellNamed_lower ctx s hs.1, wellNamed_lowerAll _ ss hs.2⟩

end

end Statement

theorem targets_rule : StorageRule fun _ names lowered =>
    ∀ name ∈ names, ∃ src, .store src name ∈ lowered.1 where
  keeps _ _ _ := List.forall_mem_nil _
  store _ src _ := List.forall_mem_singleton.mpr ⟨src, List.mem_concat_self⟩
  append h h' name hname := by
    rcases List.mem_append.mp hname with hname | hname
    · obtain ⟨src, hsrc⟩ := h name hname
      exact ⟨src, List.mem_append_left _ hsrc⟩
    · obtain ⟨src, hsrc⟩ := h' name hname
      exact ⟨src, List.mem_append_right _ hsrc⟩

theorem Program.wellNamed_mainCode {p : Program}
    (h : Statement.wellNamedAll p.statements = true) : ∀ op ∈ p.mainCode, op.wellNamed = true := by
  have hcode := Statement.wellNamed_lowerAll .hoisting p.statements h
  rw [mainCode_eq, List.forall_mem_append]
  refine ⟨fun op hop => ?_, hcode⟩
  obtain ⟨name, hname, rfl⟩ := List.mem_map.mp hop
  obtain ⟨src, hsrc⟩ := targets_rule.statements .hoisting p.statements name (mem_stored.mp hname)
  have hstore := hcode _ hsrc
  exact hstore

inductive Local
  | entry
  | temp (n : Nat)
  | condition (block : Nat)
  | storage (name : String)
  | label (l : CodeLabel)
  deriving DecidableEq

def Op.defines? : Op → Option Local
  | loadVariable dest _ | loadConstant dest _ | arith dest _ _ _ | invert dest _ | read dest =>
    some (.temp dest)
  | compare block _ _ _ => some (.condition block)
  | alloc name => some (.storage name)
  | label l => some (.label l)
  | store .. | print _ | branch .. | jump _ => none

def Program.locals (p : Program) : List Local := .entry :: p.mainCode.filterMap Op.defines?

theorem count_filterMap_eq {α β γ : Type} [DecidableEq β] [DecidableEq γ] {f : α → Option β}
    {g : α → Option γ} {b : β} {c : γ} (h : ∀ a, f a = some b ↔ g a = some c) (xs : List α) :
    (xs.filterMap f).count b = (xs.filterMap g).count c := by
  rw [List.count_filterMap, List.count_filterMap]
  refine List.countP_congr fun a _ => ?_
  simpa using h a

theorem Program.filterMap_mainCode {β : Type} {f : Op → Option β}
    (hf : ∀ name, f (.alloc name) = none) (p : Program) :
    p.mainCode.filterMap f = (Statement.lowerAll .hoisting p.statements).1.filterMap f := by
  rw [mainCode_eq, List.filterMap_append, List.filterMap_map]
  have hnothing : p.stored.filterMap (f ∘ .alloc) = [] := by simp [hf]
  rw [hnothing, List.nil_append]

theorem Program.allocated_mainCode (p : Program) :
    p.mainCode.filterMap Op.allocated? = p.stored := by
  have h := Statement.hoists_lowerAll Context.holding_hoisting p.statements
  have hnothing :
      (Statement.lowerAll .hoisting p.statements).1.filterMap Op.allocated? = [] := by
    rw [List.filterMap_eq_nil_iff]
    rintro op hop
    cases hname : op.allocated? with
    | none => rfl
    | some name => exact absurd (Op.allocated?_eq_some.mp hname ▸ hop) (h.alloc_not_mem name)
  rw [mainCode_eq, List.filterMap_append, List.filterMap_map, hnothing, List.append_nil]
  exact List.filterMap_some

theorem Context.Continues.temps_nodup {ctx last : Context} {code : List Op}
    (h : ctx.Continues (code, last)) : (temps code).Nodup := by
  have hall : (List.range last.nextTemp).Nodup := List.nodup_range
  rw [← h.temps_eq] at hall
  exact hall.of_append_right

/-- Nothing is defined twice: temporaries and conditions are numbered, each variable has one piece
of storage, and labels are named after their blocks. -/
theorem Program.nodup_locals (p : Program) : p.locals.Nodup := by
  have hcontinues := Statement.continues_lowerAll .hoisting p.statements
  have hentry : .entry ∉ p.mainCode.filterMap Op.defines? := by
    intro h
    obtain ⟨op, -, hop⟩ := List.mem_filterMap.mp h
    cases op <;> cases hop
  refine List.nodup_cons.mpr ⟨hentry, List.nodup_iff_count_le_one.mpr fun x => ?_⟩
  cases x with
  | entry => rw [List.count_eq_zero_of_not_mem hentry]; exact Nat.zero_le 1
  | temp n =>
    rw [count_filterMap_eq (g := fun op => op.writes?.bind Register.temp?) (c := n)
      (fun op => by cases op <;> simp [Op.defines?, Op.writes?, Register.temp?]),
      filterMap_mainCode fun _ => rfl]
    exact List.nodup_iff_count_le_one.mp hcontinues.temps_nodup n
  | condition block =>
    rw [count_filterMap_eq (g := fun op => op.writes?.bind Register.condition?) (c := block)
      (fun op => by cases op <;> simp [Op.defines?, Op.writes?, Register.condition?]),
      filterMap_mainCode fun _ => rfl]
    exact List.nodup_iff_count_le_one.mp hcontinues.conditions_nodup block
  | storage name =>
    rw [count_filterMap_eq (g := Op.allocated?) (c := name)
      (fun op => by cases op <;> simp [Op.defines?, Op.allocated?]), allocated_mainCode]
    exact List.nodup_iff_count_le_one.mp p.nodup_stored name
  | label l =>
    rw [count_filterMap_eq (g := Op.label?) (c := l)
      (fun op => by cases op <;> simp [Op.defines?, Op.label?]), filterMap_mainCode fun _ => rfl]
    have hlabels := (Statement.labelsWithin_lowerAll .hoisting p.statements).nodup
    exact List.nodup_iff_count_le_one.mp hlabels l

namespace Local

def text : Local → String
  | entry => "entry_block"
  | temp n => toString n
  | condition block => "cond_" ++ toString block
  | storage name => name
  | label l => l.text

/-- What is named by a stem and a number behind it; the name of storage is no such stem. -/
def ofStem (stem : String) (n : Nat) (name : String) : Local :=
  match stem with
  | "" => temp n
  | "cond_" => condition n
  | "then_" => label (.thenPart n)
  | "else_" => label (.elsePart n)
  | "end_" => label (.finish n)
  | "eval_cond_" => label (.test n)
  | "do_" => label (.body n)
  | "entry_block" => entry
  | _ => storage name

def ofText (name : String) : Local :=
  ofStem (String.ofList (name.toList.rdropWhile Char.isDigit))
    (Nat.ofDigitChars 10 (name.toList.rtakeWhile Char.isDigit) 0) name

theorem ofText_append (stem : String) (hstem : stem.toList.rtakeWhile Char.isDigit = [])
    (n : Nat) :
    ofText (stem ++ toString n) = ofStem stem n (stem ++ toString n) := by
  have hdigits : ∀ c ∈ (toString n).toList.reverse, c.isDigit = true := by
    simp only [List.mem_reverse, Nat.toString_eq_repr, Nat.toList_repr]
    exact fun c hc => Nat.isDigit_of_mem_toDigits (by decide) (by decide) hc
  have hdrop : (stem ++ toString n).toList.rdropWhile Char.isDigit = stem.toList := by
    have hwhole := @List.rdropWhile_append_rtakeWhile _ Char.isDigit stem.toList
    rw [hstem, List.append_nil] at hwhole
    rw [List.rdropWhile, String.toList_append, List.reverse_append,
      List.dropWhile_append_of_pos hdigits]
    exact hwhole
  have htake : (stem ++ toString n).toList.rtakeWhile Char.isDigit = (toString n).toList := by
    rw [List.rtakeWhile] at hstem ⊢
    rw [String.toList_append, List.reverse_append, List.takeWhile_append_of_pos hdigits,
      List.reverse_append, List.reverse_reverse, hstem, List.nil_append]
  rw [ofText, hdrop, htake, String.ofList_toList, Nat.toString_eq_repr, Nat.toList_repr,
    Nat.ofDigitChars_toDigits (by decide) (by decide)]

/-- A variable without the digits behind it is not empty, and no underscore stands in it. -/
theorem stem_of_isVariable {name : String} (h : isVariable name = true) :
    name.toList.rdropWhile Char.isDigit ≠ [] ∧ '_' ∉ name.toList.rdropWhile Char.isDigit := by
  unfold Source.isVariable at h
  split at h
  · rename_i c cs hname
    simp only [Bool.and_eq_true, List.all_eq_true] at h
    obtain ⟨hc, hcs⟩ := h
    rw [hname]
    constructor
    · rw [Ne, List.rdropWhile_eq_nil_iff]
      exact fun hdigits => Piece.not_isDigit_of_isLower hc (hdigits c List.mem_cons_self)
    · intro hmem
      rcases List.mem_cons.mp ((List.rdropWhile_prefix _ _).subset hmem) with hunderscore | hmem
      · rw [← hunderscore] at hc
        exact absurd hc (by decide)
      · exact absurd (hcs _ hmem) (by decide)
  · cases h

theorem ofText_text {x : Local} (hx : ∀ name, x = storage name → isVariable name = true) :
    ofText x.text = x := by
  cases x with
  | entry => decide
  | temp n =>
    have hname := ofText_append "" rfl n
    rwa [String.empty_append] at hname
  | condition block => exact ofText_append _ (by decide) block
  | label l => cases l <;> exact ofText_append _ (by decide) _
  | storage name =>
    obtain ⟨hne, hunderscore⟩ := stem_of_isVariable (hx name rfl)
    have hstem : ∀ stem : String, stem = "" ∨ '_' ∈ stem.toList →
        String.ofList (name.toList.rdropWhile Char.isDigit) ≠ stem := by
      rintro stem hstem rfl
      rw [String.toList_ofList] at hstem
      rcases hstem with hempty | hmem
      · exact hne (by simpa using congrArg String.toList hempty)
      · exact hunderscore hmem
    change ofStem _ _ name = storage name
    unfold ofStem
    split
    all_goals first
      | rfl
      | rename_i heq
        exact absurd heq (hstem _ (by decide))

end Local

theorem Program.nodup_localNames {p : Program}
    (h : Statement.wellNamedAll p.statements = true) : (p.locals.map Local.text).Nodup := by
  have hnamed : ∀ x ∈ p.locals, ∀ name, x = .storage name → isVariable name = true := by
    rintro x hx name rfl
    obtain ⟨op, hop, hdefines⟩ := List.mem_filterMap.mp ((List.mem_cons.mp hx).resolve_left nofun)
    cases op <;> simp only [Op.defines?, Option.some.injEq, reduceCtorEq, Local.storage.injEq]
      at hdefines
    exact hdefines ▸ wellNamed_mainCode h _ hop
  refine p.nodup_locals.map_on fun x hx y hy hxy => ?_
  rw [← Local.ofText_text (hnamed x hx), hxy, Local.ofText_text (hnamed y hy)]

end FortressLang
