import Intertext.Text.Cutting
/-!
Paths.

A path is a text of names separated by slashes. Joining keeps both parts as they are written; a
second part that begins with a slash stands alone. Every path begins in a top folder: the working
folder, or the root if it begins with a slash.
-/

namespace Intertext.Corpus

namespace Path

/-- Whether a path begins in the root. -/
def isAbsolute (path : String) : Bool := path.toList.head? = some '/'

/-- A path below another. -/
def join (folder name : String) : String :=
  if isAbsolute name then name
  else if folder = "" ∨ folder.toList.getLast? = some '/' then folder ++ name
  else folder ++ "/" ++ name

/-- The names of a path, in order. An empty name stands for the folder reached so far, as a single
dot does. -/
def steps (path : String) : List String :=
  (Text.pieces '/' path.toList).map String.ofList

/-- Whether a name leads nowhere else. -/
def isIdle (name : String) : Bool := name = "" || name = "."

/-- The top folder that a path begins in. -/
def top (path : String) : String := if isAbsolute path then "/" else ""

/-- The top folder around a top folder. -/
def above (top : String) : String :=
  if top = "/" then "/" else if top = "" then ".." else top ++ "/.."

/-- The names that lead to the folder around what other names lead to. The first name is that of a
top folder. -/
def outer : List String → List String
  | [top] => [above top]
  | names => names.dropLast

/-- The names that lead to the end of a path, with that of the top folder, if nothing but the path
is looked at: two dots lead back. -/
def names (path : String) : List String :=
  (steps path).foldl (fun names name =>
    if isIdle name then names
    else if name = ".." then outer names
    else names ++ [name]) [top path]

/-- The path that names lead along. -/
def ofNames : List String → String
  | [] => ""
  | top :: names =>
    if top = "/" then "/" ++ "/".intercalate names
    else "/".intercalate ((top :: names).filter (· ≠ ""))

/-- The paths of the folders on the way to the end of a path, outermost first. -/
def around (path : String) : List String :=
  (List.range (steps path).length).filterMap fun n =>
    let outer := "/".intercalate ((steps path).take n)
    if outer = "" then none else some outer

/-- The path of the folder that what a path names is right inside; dots at the end count for
nothing. -/
def folder (path : String) : String :=
  let inner := ((steps path).filter (!isIdle ·)).dropLast
  if isAbsolute path then "/" ++ "/".intercalate inner else "/".intercalate inner

/-- Whether the name of a file ends in that extension, with something before the dot. -/
def hasExtension (extension name : String) : Bool :=
  match Text.splitLast? '.' name.toList with
  | some (stem, last) => !stem.isEmpty && String.ofList last = extension
  | none => false

/-- Whether the name of a file hides it. -/
def isHidden (name : String) : Bool := name.toList.head? = some '.'

end Path

end Intertext.Corpus
