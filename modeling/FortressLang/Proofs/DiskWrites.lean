import FortressLang.Disk
import FortressLang.Proofs.ExceptLaws

/-! Reading and writing files: a text that was written is read back where the path leads, and on the
rest of the disk nothing has changed. -/
namespace FortressLang
namespace Disk

variable {d d' : Disk} {path text : String} {p q folder place : Place} {name : String}

/-- A path leads to a place that is no folder. -/
structure Leads (d : Disk) (path : String) (place : Place) : Prop where
  valid : checkPath path = .ok ()
  walk : d.walk (d.origin path) (names path) = .ok place
  notFolder : d.isFolder place = false

/-- A path leads to a file, which is the text in UTF-8. -/
def Holds (d : Disk) (path text : String) : Prop :=
  ∃ place, d.Leads path place ∧ d.bytes? place = some text.toUTF8

/-- The disk holds the text where the path leads. The rest is as on the disk before. -/
def Rewrites (before : Disk) (path text : String) (d : Disk) : Prop :=
  ∃ place, d.Leads path place ∧ d.bytes? place = some text.toUTF8 ∧
    (∀ q, q ≠ place → d.bytes? q = before.bytes? q) ∧
    d.folders = before.folders ∧ d.here = before.here

theorem fromUTF8?_eq_some {bytes : ByteArray} :
    String.fromUTF8? bytes = some text ↔ bytes = text.toUTF8 := by
  constructor
  · intro h
    unfold String.fromUTF8? at h
    split at h
    · exact congrArg String.toByteArray (Option.some.inj h)
    · cases h
  · rintro rfl
    unfold String.fromUTF8?
    rw [String.toUTF8_eq_toByteArray, dif_pos text.isValidUTF8]
    rfl

/-- A text is read exactly if the path leads to a file with that text. -/
theorem read_eq_ok : d.read path = .ok text ↔ d.Holds path text := by
  constructor
  · intro h
    obtain ⟨⟨⟩, hvalid, h⟩ := bind_eq_ok.mp h
    obtain ⟨place, hwalk, h⟩ := bind_eq_ok.mp h
    split at h
    · cases h
    · rename_i hfolder
      split at h
      · cases h
      · rename_i bytes hbytes
        split at h
        · rename_i read hread
          cases h
          rw [fromUTF8?_eq_some.mp hread] at hbytes
          exact ⟨place, ⟨hvalid, hwalk, Bool.eq_false_iff.mpr hfolder⟩, hbytes⟩
        · cases h
  · rintro ⟨place, ⟨hvalid, hwalk, hfolder⟩, hbytes⟩
    have htext : String.fromUTF8? text.toUTF8 = some text := fromUTF8?_eq_some.mpr rfl
    refine bind_eq_ok.mpr ⟨(), hvalid, bind_eq_ok.mpr ⟨place, hwalk, ?_⟩⟩
    simp only [hfolder, Bool.false_eq_true, if_false, hbytes, htext]

def put (d : Disk) (place : Place) (bytes : ByteArray) : Disk :=
  { d with files := (place, bytes) :: d.files.filter (·.1 ≠ place) }

theorem write_eq_ok : d.write path text = .ok d' ↔
    ∃ place, d.target path = .ok place ∧ d.put place text.toUTF8 = d' := by
  rw [write, bind_eq_ok]
  exact exists_congr fun place => and_congr_right fun _ => ⟨Except.ok.inj, congrArg _⟩

@[simp] theorem isFolder_put (bytes : ByteArray) :
    (d.put place bytes).isFolder p = d.isFolder p := rfl

theorem bytes?_put_self (d : Disk) (place : Place) (bytes : ByteArray) :
    (d.put place bytes).bytes? place = some bytes := by
  simp [bytes?, put]

theorem bytes?_put_of_ne (bytes : ByteArray) (h : q ≠ place) :
    (d.put place bytes).bytes? q = d.bytes? q := by
  have hfind (f : Place × ByteArray) : f.1 ≠ place ∧ f.1 = q ↔ f.1 = q :=
    and_iff_right_of_imp fun hf => hf ▸ h
  rw [bytes?, put, List.find?_cons_of_neg (by simpa using h.symm), List.find?_filter]
  simp only [decide_eq_true_eq, hfind, bytes?]

theorem isSome_bytes?_put (bytes : ByteArray) (h : (d.bytes? q).isSome) :
    ((d.put place bytes).bytes? q).isSome := by
  by_cases hq : q = place
  · rw [hq, bytes?_put_self]
    rfl
  · rwa [bytes?_put_of_ne bytes hq]

/-- A new file is in no way of what was found before. -/
theorem enter_put (bytes : ByteArray) (h : d.enter p name = .ok q) :
    (d.put place bytes).enter p name = .ok q := by
  unfold enter at h ⊢
  split at h
  · rwa [if_pos ‹_›]
  rw [if_neg ‹_›]
  split at h
  · rwa [if_pos ‹_›]
  rw [if_neg ‹_›]
  split at h
  · cases h
  rw [if_neg ‹_›]
  split at h
  · rename_i hthere
    rwa [isFolder_put, if_pos (hthere.imp_right (isSome_bytes?_put bytes))]
  · cases h

theorem walk_put (bytes : ByteArray) {ns : List String} (h : d.walk p ns = .ok q) :
    (d.put place bytes).walk p ns = .ok q := by
  induction ns generalizing p with
  | nil => exact h
  | cons name rest ih =>
    rw [walk] at h ⊢
    split at h
    · rename_i hfolder
      obtain ⟨next, henter, hrest⟩ := bind_eq_ok.mp h
      rw [isFolder_put, if_pos hfolder]
      exact bind_eq_ok.mpr ⟨next, enter_put bytes henter, ih hrest⟩
    · cases h

theorem walk_append (d : Disk) (p : Place) (ns more : List String) :
    d.walk p (ns ++ more) = d.walk p ns >>= fun q => d.walk q more := by
  induction ns generalizing p with
  | nil => rfl
  | cons name rest ih =>
    rw [List.cons_append, walk, walk]
    split
    · cases henter : d.enter p name with
      | error fault => rfl
      | ok next => exact ih next
    · rfl

theorem eq_append_of_dropWhile {ns outer : List String}
    (h : ns.reverse.dropWhile (· = "") = name :: outer) (hlast : ns.getLast? ≠ some "") :
    ns = outer.reverse ++ [name] ∧ name ≠ "" := by
  rw [← List.head?_reverse] at hlast
  have hreverse : ns.reverse = name :: outer := by
    rw [← h]
    cases hns : ns.reverse with
    | nil => rfl
    | cons last before =>
      have hne : last ≠ "" := by
        rintro rfl
        exact hlast (by rw [hns, List.head?_cons])
      rw [List.dropWhile_cons_of_neg (by simpa using hne)]
  constructor
  · rw [← List.reverse_cons, ← hreverse, List.reverse_reverse]
  · rintro rfl
    exact hlast (by rw [hreverse, List.head?_cons])

theorem target_eq_ok (h : d.target path = .ok place) : ∃ outer name folder,
    checkPath path = .ok () ∧ names path = outer ++ [name] ∧
      d.walk (d.origin path) outer = .ok folder ∧ d.isFolder folder = true ∧
      name ≠ "" ∧ name ≠ "." ∧ name ≠ ".." ∧ name.utf8ByteSize ≤ maxName ∧
      d.isFolder (name :: folder) = false ∧ place = name :: folder := by
  obtain ⟨⟨⟩, hvalid, h⟩ := bind_eq_ok.mp h
  split at h
  · cases h
  rename_i name outer hnames
  obtain ⟨folder, hwalk, h⟩ := bind_eq_ok.mp h
  split at h
  · cases h
  rename_i hfolder
  split at h
  · cases h
  rename_i hlast
  split at h
  · cases h
  rename_i hsize
  split at h
  · cases h
  rename_i hfree
  simp only [not_or] at hlast
  obtain ⟨hwhole, hne⟩ := eq_append_of_dropWhile hnames hlast.1
  exact ⟨outer.reverse, name, folder, hvalid, hwhole, hwalk, by simpa using hfolder, hne,
    hlast.2.1, hlast.2.2, Nat.le_of_not_lt hsize, Bool.eq_false_iff.mpr hfree,
    (Except.ok.inj h).symm⟩

/-- Once there is a file in it, the path leads to the place that was to be written to. -/
theorem leads_put (bytes : ByteArray) (h : d.target path = .ok place) :
    (d.put place bytes).Leads path place := by
  obtain ⟨outer, name, folder, hvalid, hnames, hwalk, hfolder, hne, hdot, hdots, hsize, hfree,
    rfl⟩ := target_eq_ok h
  have henter : (d.put (name :: folder) bytes).enter folder name = .ok (name :: folder) := by
    rw [enter, if_neg (not_or.mpr ⟨hne, hdot⟩), if_neg hdots, if_neg (Nat.not_lt.mpr hsize),
      bytes?_put_self, if_pos (Or.inr Option.isSome_some)]
  refine ⟨hvalid, ?_, hfree⟩
  rw [hnames, walk_append]
  refine bind_eq_ok.mpr ⟨folder, walk_put bytes hwalk, ?_⟩
  rw [walk, isFolder_put, if_pos hfolder]
  exact bind_eq_ok.mpr ⟨_, henter, rfl⟩

theorem rewrites_of_write (h : d.write path text = .ok d') : Rewrites d path text d' := by
  obtain ⟨place, htarget, rfl⟩ := write_eq_ok.mp h
  exact ⟨place, leads_put _ htarget, bytes?_put_self d place _, fun q => bytes?_put_of_ne _,
    rfl, rfl⟩

end Disk
end FortressLang
