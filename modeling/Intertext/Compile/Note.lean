import Intertext.Compile.Frames
/-!
Notes that apply to an element.

A note of the corpus that refers to an element, by the element's identifier or from the same file by
its name, is inserted into it if the note's project is listed for annotations; the order of the list
decides which comes first. An instruction that has an identifier is replaced by the one that the
best project defines, unless it is that one itself.
-/

namespace Intertext.Compile

open Markup (Document Element Name Node)
open Index (Mapping Reference Tables)

/-- What applies to an element. -/
inductive Annotation where
  /-- Nothing. -/
  | nothing
  /-- The element is an instruction and stays. -/
  | keep
  /-- The element is an instruction, and this one takes its place. -/
  | replace (note : Element)
  /-- These notes are inserted, in order. -/
  | insert (notes : List Element)

/-- The notes to insert. -/
def Annotation.notes : Annotation → List Element
  | insert notes => notes
  | _ => []

/-- The tag of notes in the index. -/
def noteTag : String := (Name.tei "note").clark

/-! ## 1. Inserting -/

/-- Gives the last element of a forest a tail; `none` for an empty forest. -/
def setLastTail? (tail : String) : List Element → Option (List Element)
  | [] => none
  | [last] => some [{ last with tail }]
  | first :: rest => (setLastTail? tail rest).map (first :: ·)

/-- Puts notes before the content of an element. The element's text follows the last of them. -/
def insertNotes (notes : List Element) (element : Element) : Element :=
  match setLastTail? element.text notes with
  | some notes => { element with text := "", children := notes ++ element.children }
  | none => element

/-! ## 2. Commentary -/

/-- The references of notes to an element, best first. -/
def noteReferences (tables : Tables) (annotations : List String) (file : SourceFile)
    (node : Node) : List Reference :=
  Priority.ranked
    ((tables.referencesTo node.corresp? (node.xmlId?.map (·, file))).filter (·.tag = noteTag))
    annotations

/-- The note that makes a reference, for an element of the site. -/
def noteOf (library : Library) (nested : Nested) (site : Site) (node : Node)
    (reference : Reference) : Run Element := do
  let source ← library.read reference.file
  match source.byPath? reference.path with
  | none => .fail (.missing (.note reference.path reference.file))
  | some found =>
    let note ← nested.copy (some site.file) reference.file (some found)
    return stampLang note (source.lang? found.id) (site.document.lang? node.id)

/-- The notes that refer to an element. -/
def commentary (library : Library) (nested : Nested) (site : Site) (node : Node) :
    Run Annotation := do
  if node.corresp?.isNone && node.xmlId?.isNone then return .nothing
  let tables ← library.ask
  let notes ← (noteReferences tables library.settings.annotations site.file node).mapM
    (noteOf library nested site node)
  return if notes.isEmpty then .nothing else .insert notes

/-! ## 3. Instructions -/

/-- The best definition of an instruction. -/
def bestInstruction? (tables : Tables) (priority : List String) (urn : String) : Option Mapping :=
  Priority.best? ((tables.mappingsOf (some urn) none).filter (·.tag = some noteTag)) priority

/-- The instruction that takes the place of one with an identifier. -/
def instruction (library : Library) (nested : Nested) (site : Site) (node : Node) (urn : String) :
    Run Annotation := do
  let tables ← library.ask
  match bestInstruction? tables library.settings.instructions urn with
  | none => return .keep
  | some best =>
    if best.file = site.file ∧ best.path = some node.path then return .keep
    match best.path with
    | none => .fail (.missing (.instructionPlace urn))
    | some path =>
      let source ← library.read best.file
      match source.byPath? path with
      | none => .fail (.missing (.instruction urn path best.file))
      | some found =>
        let note ← nested.copy (some site.file) best.file (some found)
        return .replace (stampLang note (source.lang? found.id) (site.document.lang? node.id))

/-! ## 4. Annotations -/

/-- What applies to an element of the site. -/
def annotate (library : Library) (nested : Nested) (site : Site) (node : Node) : Run Annotation :=
  match Role.of node, node.corresp? with
  | .instruction, some urn => instruction library nested site node urn
  | _, _ => commentary library nested site node

end Intertext.Compile
