import Intertext.Compile.Frames
/-!
Directives.

A directive is replaced by a wrapper that repeats its target and holds what the target bounds, with
its structure or as text. The wrapper says which file its content comes from, if it is another one
than the directive's, and which language the content has, if it is another one than in scope at the
directive.
-/

namespace Intertext.Compile

open Markup (Document Element Name Node)

/-- A wrapper without content. -/
def wrapper (target : String) (targetEnd : Option String) (extraction : Extraction) : Element :=
  let element := (Element.ofName (.processing "transclude")).setValue (.plain "target") target
  let element :=
    match targetEnd with
    | some stop => element.setValue (.plain "targetEnd") stop
    | none => element
  element.setValue (.plain "type") extraction.label

/-- Fills a wrapper with what a target bounds. -/
def filled (nested : Nested) (target : Target) (extraction : Extraction) (element : Element) :
    Run Element :=
  match extraction with
  | .external => do
    let children ← nested.external target.file target.start target.stop
    return { element with children }
  | .inline => do
    let container ← nested.inline target.file target.start target.stop
    return { element with text := container.text, children := container.children }

/-- The language at a marker. -/
def langAt? (document : Document) (marker : String) : Option String :=
  (findMarker? document marker).bind fun node => document.lang? node.id

/-- What replaces a directive of the site. -/
def transclude (library : Library) (nested : Nested) (site : Site) (node : Node)
    (extraction : Extraction) : Run Element := do
  match node.value? (.plain "target") with
  | none => .fail (.missing (.directiveTarget node.path))
  | some start =>
    let stop := node.value? (.plain "targetEnd")
    let target ← Target.locate library site.file start stop
    let element ← filled nested target extraction (wrapper start stop extraction)
    let element := stampForeign element (some site.file) target.file
    let source ← library.read target.file
    return stampLang element (langAt? source target.start) (site.document.lang? node.id)

end Intertext.Compile
