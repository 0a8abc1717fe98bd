/-! Disks: folders, and files of bytes in them. A path is walked name by name, from the root folder
or from the folder that commands run in, and every place but the last has to be a folder. -/
namespace FortressLang

inductive FileFault
  | notFound | notFolder | isFolder | nameTooLong | nulInPath | notText
  deriving DecidableEq

def FileFault.message : FileFault → String
  | notFound => "No such file or directory (os error 2)"
  | notFolder => "Not a directory (os error 20)"
  | isFolder => "Is a directory (os error 21)"
  | nameTooLong => "File name too long (os error 36)"
  | nulInPath => "file name contained an unexpected NUL byte"
  | notText => "stream did not contain valid UTF-8"

/-- The names that lead to a place from the root folder, the innermost first. -/
abbrev Place := List String

structure Disk where
  files : List (Place × ByteArray)
  /-- The folders besides the current one and those that it is in. -/
  folders : List Place := []
  /-- The current folder. -/
  here : Place := []

namespace Disk

def bytes? (d : Disk) (p : Place) : Option ByteArray :=
  (d.files.find? (·.1 = p)).map (·.2)

def isFolder (d : Disk) (p : Place) : Bool := p.isSuffixOf d.here || d.folders.contains p

/-- In bytes, without the end mark that a path is passed with. -/
def maxPath : Nat := 4095

/-- In bytes. -/
def maxName : Nat := 255

def checkPath (path : String) : Except FileFault Unit :=
  if '\x00' ∈ path.toList then .error .nulInPath
  else if path.utf8ByteSize > maxPath then .error .nameTooLong
  else .ok ()

/-- Where a path is walked from. -/
def origin (d : Disk) (path : String) : Place :=
  if path.toList.head? = some '/' then [] else d.here

/-- The names of a path. There is an empty one before, after or between slashes if no other is. -/
def names (path : String) : List String := (path.toList.splitOn '/').map String.ofList

/-- Of a name in a folder. A dot and an empty name stay in the folder, two dots leave it. -/
def enter (d : Disk) (folder : Place) (name : String) : Except FileFault Place :=
  if name = "" ∨ name = "." then .ok folder
  else if name = ".." then .ok folder.tail
  else if name.utf8ByteSize > maxName then .error .nameTooLong
  else if d.isFolder (name :: folder) ∨ (d.bytes? (name :: folder)).isSome then
    .ok (name :: folder)
  else .error .notFound

def walk (d : Disk) (p : Place) : List String → Except FileFault Place
  | [] => .ok p
  | name :: rest => do
    if d.isFolder p then d.walk (← d.enter p name) rest else .error .notFolder

/-- Every place that a path may lead through, whether it is there or not. -/
def places (d : Disk) (path : String) : List Place :=
  ((names path).foldl (fun (done, p) name =>
    let next := if name = "" ∨ name = "." then p else if name = ".." then p.tail else name :: p
    (next :: done, next)) ([], d.origin path)).1

/-- The path from the root folder to a place. -/
def pathOf (p : Place) : String := "/" ++ "/".intercalate p.reverse

/-- The text of a file. -/
def read (d : Disk) (path : String) : Except FileFault String := do
  checkPath path
  let p ← d.walk (d.origin path) (names path)
  if d.isFolder p then .error .isFolder
  else
    match d.bytes? p with
    | none => .error .notFound
    | some bytes =>
      match String.fromUTF8? bytes with
      | some text => .ok text
      | none => .error .notText

/-- Where a path leads that is to be written to. The file itself may be missing, but not the folder
it is to be in; a path that ends with a slash or with dots can only name a folder. -/
def target (d : Disk) (path : String) : Except FileFault Place := do
  checkPath path
  match (names path).reverse.dropWhile (· = "") with
  | [] => .error .isFolder
  | name :: outer =>
    let folder ← d.walk (d.origin path) outer.reverse
    if !d.isFolder folder then .error .notFolder
    else if (names path).getLast? = some "" ∨ name = "." ∨ name = ".." then .error .isFolder
    else if name.utf8ByteSize > maxName then .error .nameTooLong
    else if d.isFolder (name :: folder) then .error .isFolder
    else .ok (name :: folder)

/-- The disk with a file of a text in the place of any that was there before. -/
def write (d : Disk) (path text : String) : Except FileFault Disk := do
  let p ← d.target path
  .ok { d with files := (p, text.toUTF8) :: d.files.filter (·.1 ≠ p) }

/-- The files that are new or have changed since. -/
def changesSince (d before : Disk) : List (Place × ByteArray) :=
  d.files.filter fun f =>
    match before.bytes? f.1 with
    | some bytes => bytes.data ≠ f.2.data
    | none => true

/-- The name of a place in the current folder. -/
def nameHere? (d : Disk) : Place → Option String
  | name :: folder => if folder = d.here then some name else none
  | [] => none

end Disk
end FortressLang
