import Intertext.Corpus.Path
import Intertext.Text.Order
/-!
Folders and files.

A disk is a tree of named entries below top folders: the working folder, those around it, and the
root. A file has its bytes and the time it was last changed; times are numbers, of which only the
order counts. A path is followed name by name through the folders that are there, two dots included:
what does not exist cannot be left again.
-/

namespace Intertext.Corpus

/-- A file with its bytes and the time of its last change, or a folder with what is in it. -/
inductive Entry where
  | file (bytes : ByteArray) (modified : Nat)
  | folder (entries : List (String × Entry))

namespace Entry

def isFile : Entry → Bool
  | file _ _ => true
  | folder _ => false

def isFolder : Entry → Bool
  | file _ _ => false
  | folder _ => true

/-- The entry of that name in a folder. -/
def child? (name : String) : Entry → Option Entry
  | file _ _ => none
  | folder entries => entries.lookup name

/-- The entry that names lead to. -/
def descend (entry : Entry) : List String → Option Entry
  | [] => some entry
  | name :: rest => (entry.child? name).bind (·.descend rest)

end Entry

/-- A tree of entries, given by what is in the top folders. -/
structure Disk where
  tops : List (String × Entry)

namespace Disk

/-- Nothing. -/
def empty : Disk := ⟨[]⟩

/-! ## 1. Following paths -/

/-- Why a path leads nowhere. -/
inductive PathFault where
  | missing
  /-- A file is to be gone through as a folder. -/
  | notFolder
  /-- A file is where a folder is to be made. -/
  | taken
  /-- A name, or the path, is longer than it can be. -/
  | tooLong
  /-- A name has a character that no name has. -/
  | unnameable
deriving DecidableEq, Repr

/-- The cause in words. -/
def PathFault.message : PathFault → String
  | missing => "No such file or directory (os error 2)"
  | notFolder => "Not a directory (os error 20)"
  | taken => "File exists (os error 17)"
  | tooLong => "File name too long (os error 36)"
  | unnameable => "file name contained an unexpected NUL byte"

/-- How many bytes a name can have. -/
def nameLimit : Nat := 255

/-- How many bytes a path can have. -/
def pathLimit : Nat := 4095

/-- The entry that names lead to; the first is that of a top folder, and these are always there. -/
def entryAt (disk : Disk) : List String → Option Entry
  | [] => none
  | top :: names => ((disk.tops.lookup top).getD (.folder [])).descend names

/-- Whether names lead to a folder. -/
def folderAt (disk : Disk) (names : List String) : Bool :=
  (disk.entryAt names).any Entry.isFolder

/-- Follows names from where other names lead, and returns the names that lead there directly. -/
def follow (disk : Disk) (place : List String) : List String → Except PathFault (List String)
  | [] => .ok place
  | name :: rest =>
    if !disk.folderAt place then .error .notFolder
    else if Path.isIdle name then disk.follow place rest
    else if name = ".." then disk.follow (Path.outer place) rest
    else if nameLimit < name.utf8ByteSize then .error .tooLong
    else if (disk.entryAt (place ++ [name])).isNone then .error .missing
    else disk.follow (place ++ [name]) rest

/-- Follows the names of a path. The empty path leads nowhere. -/
def locate (disk : Disk) (path : String) : Except PathFault (List String) :=
  if path = "" then .error .missing
  else if '\x00' ∈ path.toList then .error .unnameable
  else if pathLimit < path.utf8ByteSize then .error .tooLong
  else disk.follow [Path.top path] (Path.steps path)

/-- The entry at a path. -/
def find (disk : Disk) (path : String) : Except PathFault Entry := do
  let place ← disk.locate path
  match disk.entryAt place with
  | some entry => return entry
  | none => throw .missing

/-- The entry at a path, if there is one. -/
def entry? (disk : Disk) (path : String) : Option Entry := (disk.find path).toOption

/-- Whether there is a file or a folder at a path. -/
def pathExists (disk : Disk) (path : String) : Bool := (disk.entry? path).isSome

def isFile (disk : Disk) (path : String) : Bool :=
  (disk.entry? path).any Entry.isFile

def isFolder (disk : Disk) (path : String) : Bool :=
  (disk.entry? path).any Entry.isFolder

/-- The bytes of the file at a path. -/
def bytes? (disk : Disk) (path : String) : Option ByteArray :=
  match disk.entry? path with
  | some (.file bytes _) => some bytes
  | _ => none

/-- When the file at a path was last changed. -/
def modified? (disk : Disk) (path : String) : Option Nat :=
  match disk.entry? path with
  | some (.file _ modified) => some modified
  | _ => none

/-- What is in the folder at a path. -/
def list? (disk : Disk) (path : String) : Option (List (String × Entry)) :=
  match disk.entry? path with
  | some (.folder entries) => some entries
  | _ => none

/-! ## 2. Texts -/

/-- Why a file cannot be read or written as a text. -/
inductive TextFault where
  | path (fault : PathFault)
  | folder
  | notText
deriving DecidableEq, Repr

/-- The cause in words. -/
def TextFault.message : TextFault → String
  | path fault => fault.message
  | folder => "Is a directory (os error 21)"
  | notText => "stream did not contain valid UTF-8"

/-- The text of the file at a path. -/
def text (disk : Disk) (path : String) : Except TextFault String :=
  match disk.find path with
  | .error fault => .error (.path fault)
  | .ok (.folder _) => .error .folder
  | .ok (.file bytes _) =>
    match String.fromUTF8? bytes with
    | some text => .ok text
    | none => .error .notText

/-! ## 3. Changing entries -/

/-- Changes the entry under a name; `none` stands for no entry, before and after. -/
def alter (change : Option Entry → Option Entry) (name : String) :
    List (String × Entry) → List (String × Entry)
  | [] =>
    match change none with
    | some entry => [(name, entry)]
    | none => []
  | (key, entry) :: rest =>
    if key = name then
      match change (some entry) with
      | some changed => (key, changed) :: rest
      | none => rest
    else (key, entry) :: alter change name rest

/-- Changes the entry at the end of a chain of names, making the folders on the way to it. -/
def alterAt (change : Option Entry → Option Entry) :
    List String → List (String × Entry) → List (String × Entry)
  | [], entries => entries
  | [name], entries => alter change name entries
  | name :: rest, entries =>
    alter (fun entry =>
      match entry with
      | some (.folder inner) => some (.folder (alterAt change rest inner))
      | _ => some (.folder (alterAt change rest []))) name entries

/-- Changes the entry at the end of a path. -/
def change (disk : Disk) (path : String) (change : Option Entry → Option Entry) : Disk :=
  ⟨alterAt change (Path.names path) disk.tops⟩

/-- Puts an entry where names lead, in the place of what is there. -/
def putAt (disk : Disk) (names : List String) (entry : Entry) : Disk :=
  ⟨alterAt (fun _ => some entry) names disk.tops⟩

/-- Puts an entry in the place of what is at a path. -/
def put (disk : Disk) (path : String) (entry : Entry) : Disk := disk.putAt (Path.names path) entry

/-- Writes a file, making the folders on the way to it. -/
def write (disk : Disk) (path : String) (bytes : ByteArray) (modified : Nat) : Disk :=
  disk.put path (.file bytes modified)

/-- Removes a file, or a folder with all that is in it. -/
def delete (disk : Disk) (path : String) : Disk := disk.change path fun _ => none

/-- Changes the time of a file's last change. -/
def touch (disk : Disk) (path : String) (modified : Nat) : Disk :=
  disk.change path fun entry =>
    match entry with
    | some (.file bytes _) => some (.file bytes modified)
    | other => other

/-! ## 4. Folders on the way -/

/-- Follows names from where other names lead, and makes every folder on the way that is not there.
What has been made stays if a file is in the way. -/
def pave (disk : Disk) (place : List String) : List String → Except PathFault Unit × Disk
  | [] => (.ok (), disk)
  | name :: rest =>
    if Path.isIdle name then disk.pave place rest
    else if name = ".." then disk.pave (Path.outer place) rest
    else if nameLimit < name.utf8ByteSize then (.error .tooLong, disk)
    else
      let place := place ++ [name]
      match disk.entryAt place with
      | some (.folder _) => disk.pave place rest
      | some (.file _ _) => (.error (if rest.all Path.isIdle then .taken else .notFolder), disk)
      | none => (disk.putAt place (.folder [])).pave place rest

/-- Makes a folder and the folders on the way to it. -/
def reach (disk : Disk) (path : String) : Except PathFault Unit × Disk :=
  if '\x00' ∈ path.toList then (.error .unnameable, disk)
  else if pathLimit < path.utf8ByteSize then (.error .tooLong, disk)
  else disk.pave [Path.top path] (Path.steps path)

/-- The disk with a folder and the folders on the way to it. -/
def makeFolder (disk : Disk) (path : String) : Disk := (disk.reach path).2

/-- Writes a text to a file in a folder that is there. A slash at the end names a folder. -/
def writeText (disk : Disk) (path text : String) (modified : Nat) : Except TextFault Disk := do
  if path = "" then throw (.path .missing)
  if '\x00' ∈ path.toList then throw (.path .unnameable)
  if pathLimit < path.utf8ByteSize then throw (.path .tooLong)
  let names := (Path.steps path).filter (· ≠ "")
  let last := names.getLast?.getD ""
  let place ← (disk.follow [Path.top path] names.dropLast).mapError .path
  if !disk.folderAt place then throw (.path .notFolder)
  if Path.isIdle last ∨ last = ".." ∨ path.toList.getLast? = some '/' then throw .folder
  if nameLimit < last.utf8ByteSize then throw (.path .tooLong)
  if disk.folderAt (place ++ [last]) then throw .folder
  return disk.putAt (place ++ [last]) (.file text.toUTF8 modified)

end Disk

end Intertext.Corpus
