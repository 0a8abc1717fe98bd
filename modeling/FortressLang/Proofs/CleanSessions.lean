import FortressLang.Proofs.DiskWrites
import FortressLang.Proofs.RecursionDepth
import FortressLang.Session

/-! What a session makes of its options and its disk. It prints and writes only if all went well:
the module of what it compiled, and the drawing if one is asked for. -/
namespace FortressLang

variable {lookup : Lookup} {flags env : Options} {config : Option Options} {s t : Settings}
  {d d' : Disk} {c : Compilation}

namespace Settings

def paths (s : Settings) : List String :=
  s.input :: (s.writeTree.toList ++ s.grammar.toList ++ s.runtime.toList)

def NoneBlank (s : Settings) : Prop := ∀ path ∈ s.paths, Text.allBlank path = false

instance (s : Settings) : Decidable s.NoneBlank :=
  inferInstanceAs (Decidable (∀ path ∈ s.paths, Text.allBlank path = false))

/-- Each setting is that of the first place that sets it. Without one, a path is none, and there is
no derivation to print. -/
structure FoundIn (places : List Options) (s : Settings) : Prop where
  input : places.findSome? Options.input = some s.input
  writeTree : (places.findSome? Options.writeTree).join = s.writeTree
  grammar : (places.findSome? Options.grammar).join = s.grammar
  runtime : (places.findSome? Options.runtime).join = s.runtime
  derivation : (places.findSome? Options.derivation).getD false = s.derivation

theorem FoundIn.unique {places : List Options} (hs : s.FoundIn places) (ht : t.FoundIn places) :
    s = t := by
  obtain ⟨input, _, _, _, _⟩ := s
  obtain ⟨input', _, _, _, _⟩ := t
  obtain ⟨hs, rfl, rfl, rfl, rfl⟩ := hs
  obtain ⟨ht, rfl, rfl, rfl, rfl⟩ := ht
  obtain rfl := Option.some.inj (hs.symm.trans ht)
  rfl

end Settings

/-- The three places, in the order in which they are looked through. -/
def Options.places (flags env : Options) (config : Option Options) : List Options :=
  flags :: env :: config.toList

/-- Every option is set in some place. -/
structure Options.Complete (places : List Options) : Prop where
  input : (places.findSome? Options.input).isSome
  writeTree : (places.findSome? Options.writeTree).isSome
  grammar : (places.findSome? Options.grammar).isSome
  runtime : (places.findSome? Options.runtime).isSome
  derivation : (places.findSome? Options.derivation).isSome

/-- What is asked of a library: what it finds is found in the places in this order, and it does find
settings if every option is set and there is a configuration file. -/
structure Lookup.InOrder (lookup : Lookup) : Prop where
  found : ∀ {flags env config s}, lookup flags env config = .ok s →
    s.FoundIn (Options.places flags env config)
  total : ∀ {flags env config}, config.isSome → Options.Complete (Options.places flags env config) →
    ∃ s, lookup flags env config = .ok s

/-- What the files of a session say. Without a description, the grammar is that of the language. -/
structure Texts where
  source : String
  runtime : String
  description : Option String

namespace Texts

def grammar (x : Texts) : Except Issue Grammar :=
  match x.description with
  | some description => Grammar.ofDescription description
  | none => .ok .fortress

/-- The grammar is valid, its table is built, and with the table the source compiles. -/
def Compiles (x : Texts) (c : Compilation) : Prop :=
  ∃ g t, x.grammar = .ok g ∧ Table.build g = .ok t ∧ t.compile x.runtime x.source = .ok c

end Texts

namespace Settings

/-- The input is a text, and so are the runtime and the description of a grammar, if the settings
name files for them. -/
structure Reads (s : Settings) (d : Disk) (x : Texts) : Prop where
  source : d.Holds s.input x.source
  runtime : ∀ path, s.runtime = some path → d.Holds path x.runtime
  standard : s.runtime = none → x.runtime = ModuleText.standardRuntime
  description : Option.Rel d.Holds s.grammar x.description

end Settings

namespace Texts

def compile (x : Texts) (path : String) : Except SessionIssue Compilation := do
  let grammar ← x.grammar.mapError .grammar
  let table ← (Table.build grammar).mapError .table
  (table.compile x.runtime x.source).mapError (.source path)

theorem compile_eq_ok {x : Texts} {path : String} : x.compile path = .ok c ↔ x.Compiles c := by
  simp only [compile, bind_eq_ok, mapError_eq_ok, Compiles, exists_and_left]

end Texts

namespace Settings

theorem checkPath_eq_ok {role : String} {path : Option String} {u : Unit} :
    checkPath role path = .ok u ↔ ∀ p ∈ path, Text.allBlank p = false := by
  cases path <;> simp [checkPath]

theorem check_eq_ok : s.check = .ok t ↔ s.NoneBlank ∧ s = t := by
  simp only [check, bind_eq_ok, checkPath_eq_ok, exists_const, NoneBlank, paths,
    List.forall_mem_cons, List.forall_mem_append, Option.mem_toList, Option.mem_def,
    Option.some.injEq, forall_eq', Except.ok.injEq, and_assoc]

theorem find_eq_ok : find lookup flags env config = .ok s ↔
    lookup flags env config = .ok s ∧ s.NoneBlank := by
  simp only [find, bind_eq_ok, mapError_eq_ok, check_eq_ok]
  constructor
  · rintro ⟨t, hfound, hpaths, rfl⟩
    exact ⟨hfound, hpaths⟩
  · exact fun h => ⟨s, h.1, h.2, rfl⟩

theorem readText_eq_ok {role path text : String} :
    readText d role path = .ok text ↔ d.Holds path text :=
  mapError_eq_ok.trans Disk.read_eq_ok

def texts (s : Settings) (d : Disk) : Except SessionIssue Texts := do
  let source ← readText d "input" s.input
  let runtime ← s.runtime.elim (.ok ModuleText.standardRuntime) (readText d "runtime")
  let description ← s.grammar.elim (.ok none) fun path => some <$> readText d "grammar" path
  .ok ⟨source, runtime, description⟩

/-- All files are read before the grammar is looked at. -/
theorem compile_eq (s : Settings) (d : Disk) :
    s.compile d = s.texts d >>= fun x => x.compile s.input := by
  have ok_bind {α β : Type} (a : α) (f : α → Except SessionIssue β) : (.ok a >>= f) = f a := rfl
  have mapError_ok (g : Grammar) : (Except.ok g).mapError SessionIssue.grammar = .ok g := rfl
  obtain ⟨input, writeTree, grammar, runtime, derivation⟩ := s
  cases runtime <;> cases grammar <;>
    simp only [compile, texts, Texts.compile, Texts.grammar, Option.elim_none, Option.elim_some,
      bind_assoc, bind_map_left, ok_bind, mapError_ok]

theorem texts_eq_ok {x : Texts} : s.texts d = .ok x ↔ s.Reads d x := by
  obtain ⟨source, runtime, description⟩ := x
  simp only [texts, bind_eq_ok, readText_eq_ok]
  constructor
  · rintro ⟨source, hsource, runtime, hruntime, description, hdescription, ⟨⟩⟩
    refine ⟨hsource, fun path hpath => ?_, fun hnone => ?_, ?_⟩
    · rw [hpath] at hruntime
      exact readText_eq_ok.mp hruntime
    · rw [hnone] at hruntime
      exact (Except.ok.inj hruntime).symm
    · cases hgrammar : s.grammar with
      | none =>
        rw [hgrammar] at hdescription
        cases hdescription
        exact .none
      | some path =>
        rw [hgrammar] at hdescription
        obtain ⟨text, hread, rfl⟩ := map_eq_ok.mp hdescription
        exact .some (readText_eq_ok.mp hread)
  · rintro ⟨hsource, hruntime, hstandard, hdescription⟩
    refine ⟨source, hsource, runtime, ?_, description, ?_, rfl⟩
    · cases hpath : s.runtime with
      | none => exact congrArg Except.ok (hstandard hpath).symm
      | some path => exact readText_eq_ok.mpr (hruntime path hpath)
    · dsimp only at hdescription
      generalize s.grammar = grammar at hdescription ⊢
      cases hdescription with
      | none => rfl
      | some hheld => exact map_eq_ok.mpr ⟨_, readText_eq_ok.mpr hheld, rfl⟩

theorem Reads.unique {x y : Texts} (hx : s.Reads d x) (hy : s.Reads d y) : x = y :=
  Except.ok.inj ((texts_eq_ok.mpr hx).symm.trans (texts_eq_ok.mpr hy))

theorem compile_eq_ok : s.compile d = .ok c ↔ ∃ x, s.Reads d x ∧ x.Compiles c := by
  simp only [compile_eq, bind_eq_ok, texts_eq_ok, Texts.compile_eq_ok]

theorem draw_eq_ok {p : Program} : s.draw d p = .ok d' ↔ s.writeTree = none ∧ d' = d ∨
    ∃ path statement rest, s.writeTree = some path ∧ p.statements = statement :: rest ∧
      d.write path (TreeDrawing.header ++ TreeDrawing.ofStatement statement ++
        TreeDrawing.footer) = .ok d' := by
  unfold draw
  cases s.writeTree with
  | none => simp [eq_comm]
  | some path =>
    simp only [bind_eq_ok, mapError_eq_ok, TreeDrawing.ofProgram]
    cases p.statements with
    | nil => simp
    | cons statement rest => simp

theorem run_of_failed (h : (s.run d).succeeded = false) :
    (s.run d).stdout = "" ∧ (s.run d).disk = d := by
  unfold run at h ⊢
  cases hc : s.compile d with
  | error issue => exact ⟨rfl, rfl⟩
  | ok c =>
    cases hd : s.draw d c.program with
    | error issue => simp only [hd, and_self]
    | ok drawn => simp [hc, hd] at h

theorem run_of_drawn (hc : s.compile d = .ok c) (hd : s.draw d c.program = .ok d') :
    s.run d = ⟨true, c.module, if s.derivation then c.derivation ++ "\n" else "", d'⟩ := by
  simp only [run, hc, hd]

theorem succeeded_run : (s.run d).succeeded = true ↔
    ∃ c drawn, s.compile d = .ok c ∧ s.draw d c.program = .ok drawn := by
  constructor
  · intro h
    unfold run at h
    cases hc : s.compile d with
    | error issue => simp [hc] at h
    | ok c =>
      cases hd : s.draw d c.program with
      | error issue => simp [hc, hd] at h
      | ok drawn => exact ⟨c, drawn, rfl, hd⟩
  · rintro ⟨c, drawn, hc, hd⟩
    rw [run_of_drawn hc hd]

theorem run_of_succeeded (h : (s.run d).succeeded = true) :
    ∃ (x : Texts) (c : Compilation), s.Reads d x ∧ x.Compiles c ∧ (s.run d).stdout = c.module ∧
      (s.run d).stderr = (if s.derivation then c.derivation ++ "\n" else "") ∧
      (s.writeTree = none → (s.run d).disk = d) ∧
      ∀ path, s.writeTree = some path → ∃ statement rest,
        c.program.statements = statement :: rest ∧
        d.Rewrites path (TreeDrawing.header ++ TreeDrawing.ofStatement statement ++
          TreeDrawing.footer) (s.run d).disk := by
  obtain ⟨c, drawn, hc, hd⟩ := succeeded_run.mp h
  obtain ⟨x, hreads, hcompiles⟩ := compile_eq_ok.mp hc
  rw [run_of_drawn hc hd]
  refine ⟨x, c, hreads, hcompiles, rfl, rfl, fun hnone => ?_, fun path hpath => ?_⟩
  · obtain ⟨-, rfl⟩ | ⟨path, -, -, hpath, -⟩ := draw_eq_ok.mp hd
    · rfl
    · cases hnone.symm.trans hpath
  · obtain ⟨hnone, -⟩ | ⟨other, statement, rest, hother, hstatements, hwrite⟩ :=
      draw_eq_ok.mp hd
    · cases hnone.symm.trans hpath
    · cases hother.symm.trans hpath
      exact ⟨statement, rest, hstatements, Disk.rewrites_of_write hwrite⟩

theorem succeeded_run_of_reads {x : Texts} (hreads : s.Reads d x) (hnone : s.writeTree = none) :
    (s.run d).succeeded = true ↔ ∃ c, x.Compiles c := by
  rw [succeeded_run]
  constructor
  · rintro ⟨c, drawn, hc, -⟩
    obtain ⟨y, hother, hcompiles⟩ := compile_eq_ok.mp hc
    obtain rfl := hreads.unique hother
    exact ⟨c, hcompiles⟩
  · rintro ⟨c, hcompiles⟩
    exact ⟨c, d, compile_eq_ok.mpr ⟨x, hreads, hcompiles⟩, draw_eq_ok.mpr (.inl ⟨hnone, rfl⟩)⟩

end Settings

theorem session_of_found (h : Settings.find lookup flags env config = .ok s) (d : Disk) :
    sessionWith lookup flags env config d = s.run d := by
  rw [sessionWith, h]

theorem session_of_not_found {issue : OptionIssue}
    (h : Settings.find lookup flags env config = .error issue) (d : Disk) :
    sessionWith lookup flags env config d =
      ⟨false, "", (SessionIssue.options issue).message ++ "\n", d⟩ := by
  rw [sessionWith, h]

theorem session_of_failed (h : (sessionWith lookup flags env config d).succeeded = false) :
    (sessionWith lookup flags env config d).stdout = "" ∧
      (sessionWith lookup flags env config d).disk = d := by
  cases hfind : Settings.find lookup flags env config with
  | error issue =>
    rw [session_of_not_found hfind]
    exact ⟨rfl, rfl⟩
  | ok s =>
    rw [session_of_found hfind] at h ⊢
    exact Settings.run_of_failed h

theorem session_of_succeeded (h : (sessionWith lookup flags env config d).succeeded = true) :
    ∃ s, Settings.find lookup flags env config = .ok s ∧ (s.run d).succeeded = true := by
  cases hfind : Settings.find lookup flags env config with
  | error issue =>
    rw [session_of_not_found hfind] at h
    cases h
  | ok s =>
    rw [session_of_found hfind] at h
    exact ⟨s, rfl, h⟩

theorem Lookup.InOrder.eq_ok (hlookup : lookup.InOrder)
    (hs : s.FoundIn (Options.places flags env config)) (ht : lookup flags env config = .ok t) :
    lookup flags env config = .ok s := by
  rw [ht, hs.unique (hlookup.found ht)]

theorem Lookup.InOrder.succeeded_iff (hlookup : lookup.InOrder)
    (hs : s.FoundIn (Options.places flags env config)) (hpaths : s.NoneBlank) {x : Texts}
    (hreads : s.Reads d x) (hnone : s.writeTree = none) :
    (sessionWith lookup flags env config d).succeeded = true ↔
      (∃ t, lookup flags env config = .ok t) ∧ ∃ c, x.Compiles c := by
  have hrun := Settings.succeeded_run_of_reads hreads hnone
  constructor
  · intro hsucceeded
    obtain ⟨t, hfind, ht⟩ := session_of_succeeded hsucceeded
    have hfound := (Settings.find_eq_ok.mp hfind).1
    obtain rfl := hs.unique (hlookup.found hfound)
    exact ⟨⟨s, hfound⟩, hrun.mp ht⟩
  · rintro ⟨⟨t, ht⟩, hcompiles⟩
    rw [session_of_found (Settings.find_eq_ok.mpr ⟨hlookup.eq_ok hs ht, hpaths⟩)]
    exact hrun.mpr hcompiles

/-- For every library that looks options up in order, all options in the three places and every
disk: a session that fails prints no module and leaves the disk as it was. One that succeeds has
found its settings in this order, and its texts; it prints the module that they compile to and the
derivation if that is set, and writes the drawing of the first statement if a path for it is set,
and no other file. If the texts are there and there is nothing to write, it succeeds exactly if the
library finds settings and the texts compile; with a configuration file and every option set,
exactly if they compile. -/
theorem sessions_fail_cleanly {lookup : Lookup} (hlookup : lookup.InOrder) (flags env : Options)
    (config : Option Options) (d : Disk) :
    ((sessionWith lookup flags env config d).succeeded = false →
      (sessionWith lookup flags env config d).stdout = "" ∧
      (sessionWith lookup flags env config d).disk = d) ∧
    ((sessionWith lookup flags env config d).succeeded = true →
      ∃ (s : Settings) (x : Texts) (c : Compilation),
        s.FoundIn (Options.places flags env config) ∧ s.NoneBlank ∧ s.Reads d x ∧ x.Compiles c ∧
        (sessionWith lookup flags env config d).stdout = c.module ∧
        (sessionWith lookup flags env config d).stderr =
          (if s.derivation then c.derivation ++ "\n" else "") ∧
        (s.writeTree = none → (sessionWith lookup flags env config d).disk = d) ∧
        ∀ path, s.writeTree = some path → ∃ statement rest,
          c.program.statements = statement :: rest ∧
          d.Rewrites path (TreeDrawing.header ++ TreeDrawing.ofStatement statement ++
            TreeDrawing.footer) (sessionWith lookup flags env config d).disk) ∧
    ∀ (s : Settings) (x : Texts), s.FoundIn (Options.places flags env config) → s.NoneBlank →
      s.Reads d x → s.writeTree = none →
      ((sessionWith lookup flags env config d).succeeded = true ↔
        (∃ t, lookup flags env config = .ok t) ∧ ∃ c, x.Compiles c) ∧
      (config.isSome → Options.Complete (Options.places flags env config) →
        ((sessionWith lookup flags env config d).succeeded = true ↔ ∃ c, x.Compiles c)) := by
  refine ⟨session_of_failed, fun hsucceeded => ?_, fun s x hs hpaths hreads hnone => ?_⟩
  · obtain ⟨s, hfind, hrun⟩ := session_of_succeeded hsucceeded
    obtain ⟨hfound, hpaths⟩ := Settings.find_eq_ok.mp hfind
    obtain ⟨x, c, hreads, hcompiles, hout⟩ := Settings.run_of_succeeded hrun
    rw [session_of_found hfind]
    exact ⟨s, x, c, hlookup.found hfound, hpaths, hreads, hcompiles, hout⟩
  · have hexact := hlookup.succeeded_iff hs hpaths hreads hnone
    refine ⟨hexact, fun hfile hcomplete => ?_⟩
    rw [hexact, and_iff_right (hlookup.total hfile hcomplete)]

namespace Lookup

theorem need_eq_ok {α : Type} {option : String} {o : Option α} {x : α} :
    need option o = .ok x ↔ o = some x := by
  cases o <;> simp [need]

theorem inPlaces_eq_ok {places : List Options} : inPlaces places = .ok s ↔
    places.findSome? Options.input = some s.input ∧
    places.findSome? Options.writeTree = some s.writeTree ∧
    places.findSome? Options.grammar = some s.grammar ∧
    places.findSome? Options.runtime = some s.runtime ∧
    places.findSome? Options.derivation = some s.derivation := by
  simp only [inPlaces, bind_eq_ok, need_eq_ok]
  constructor
  · rintro ⟨input, hinput, writeTree, hwriteTree, grammar, hgrammar, runtime, hruntime, derivation,
      hderivation, ⟨⟩⟩
    exact ⟨hinput, hwriteTree, hgrammar, hruntime, hderivation⟩
  · rintro ⟨hinput, hwriteTree, hgrammar, hruntime, hderivation⟩
    exact ⟨_, hinput, _, hwriteTree, _, hgrammar, _, hruntime, _, hderivation, rfl⟩

/-- The library that the program is run with is one of these. -/
theorem firstSet_inOrder : InOrder firstSet where
  found {flags env config s} h := by
    cases config with
    | none => cases h
    | some file =>
      obtain ⟨hinput, hwriteTree, hgrammar, hruntime, hderivation⟩ := inPlaces_eq_ok.mp h
      exact ⟨hinput, congrArg Option.join hwriteTree, congrArg Option.join hgrammar,
        congrArg Option.join hruntime, congrArg (Option.getD · false) hderivation⟩
  total {flags env config} hfile h := by
    obtain ⟨file, rfl⟩ := Option.isSome_iff_exists.mp hfile
    obtain ⟨input, hinput⟩ := Option.isSome_iff_exists.mp h.input
    obtain ⟨writeTree, hwriteTree⟩ := Option.isSome_iff_exists.mp h.writeTree
    obtain ⟨grammar, hgrammar⟩ := Option.isSome_iff_exists.mp h.grammar
    obtain ⟨runtime, hruntime⟩ := Option.isSome_iff_exists.mp h.runtime
    obtain ⟨derivation, hderivation⟩ := Option.isSome_iff_exists.mp h.derivation
    exact ⟨⟨input, writeTree, grammar, runtime, derivation⟩,
      inPlaces_eq_ok.mpr ⟨hinput, hwriteTree, hgrammar, hruntime, hderivation⟩⟩

end Lookup

def countdownDisk : Disk := ⟨[(["down"], Source.countdown.spaced.toUTF8)], [], []⟩

def countdownTexts : Texts := ⟨Source.countdown.spaced, ModuleText.standardRuntime, none⟩

def countdownSettings : Settings := ⟨"down", none, none, none, true⟩

theorem exists_compiles_countdown : ∃ c, countdownTexts.Compiles c := by
  obtain ⟨tree, htree, hread⟩ := (Source.Program.run_spaced Grammar.build_fortress
    (p := Source.countdown) (by decide +kernel)).1 (by decide +kernel)
  obtain ⟨c, hc, -⟩ := Table.exists_compile htree hread ModuleText.standardRuntime
  exact ⟨c, _, _, rfl, Grammar.build_fortress, hc⟩

theorem reads_countdown : countdownSettings.Reads countdownDisk countdownTexts := by
  refine ⟨⟨["down"], ⟨rfl, rfl, rfl⟩, rfl⟩, fun path hpath => ?_, fun _ => rfl, .none⟩
  cases hpath

/-- The derivation is printed, since the environment goes before the configuration file. -/
theorem countdown_session_succeeds : ∃ out c,
    sessionWith .firstSet ⟨some "down", none, none, none, none⟩
      ⟨none, some none, some none, some none, some true⟩
      (some ⟨none, none, none, none, some false⟩) countdownDisk = out ∧
    countdownTexts.Compiles c ∧ out.succeeded = true ∧ out.stdout = c.module ∧
    out.stderr = c.derivation ++ "\n" ∧ out.disk = countdownDisk := by
  obtain ⟨-, hsound, hexact⟩ := sessions_fail_cleanly Lookup.firstSet_inOrder
    ⟨some "down", none, none, none, none⟩ ⟨none, some none, some none, some none, some true⟩
    (some ⟨none, none, none, none, some false⟩) countdownDisk
  have hfound : countdownSettings.FoundIn (Options.places ⟨some "down", none, none, none, none⟩
      ⟨none, some none, some none, some none, some true⟩
      (some ⟨none, none, none, none, some false⟩)) := ⟨rfl, rfl, rfl, rfl, rfl⟩
  have hpaths : countdownSettings.NoneBlank := by decide
  have hsucceeded := ((hexact _ _ hfound hpaths reads_countdown rfl).2 rfl
    ⟨rfl, rfl, rfl, rfl, rfl⟩).mpr exists_compiles_countdown
  obtain ⟨s, x, c, hs, -, hx, hc, hout, herr, hdisk, -⟩ := hsound hsucceeded
  obtain rfl := hfound.unique hs
  obtain rfl := reads_countdown.unique hx
  exact ⟨_, c, rfl, hc, hsucceeded, hout, herr, hdisk rfl⟩

end FortressLang
