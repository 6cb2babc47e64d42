import Intertext.Index.Row
import Intertext.Markup.Document
import Intertext.Text.WhiteSpace
/-!
What one document contributes to the index.

A node whose `corresp` is an identifier of the corpus defines it; of several definitions in one
document the last one counts, and it takes the last one's place in the order. A node with a `target`
makes one reference for each word of it; they all end at the node's `targetEnd`, if it has one, and
else where they start.
-/

namespace Intertext.Index

open Markup (Node Document Name)

/-- What every identifier of the corpus begins with. -/
def corpusScheme : String := "urn:x-opensiddur:"

/-- Everything a document contributes. -/
structure Scan where
  mappings : List Mapping
  references : List Reference
deriving DecidableEq, Repr

/-- The type an element gives itself. -/
def kind? (node : Node) : Option String := node.value? (.plain "type")

/-- The mapping a node makes, if it defines an identifier of the corpus. -/
def mappingOf? (file : SourceFile) (node : Node) : Option Mapping :=
  (node.corresp?.filter fun urn => corpusScheme.toList.isPrefixOf urn.toList).map fun urn =>
    ⟨urn, file, some node.path, some node.name.clark, kind? node⟩

/-- Whether a target is a fragment of the file it stands in. -/
def isFragment (target : String) : Bool := target.toList.head? = some '#'

/-- The references a node makes, in the order of the words of its target. -/
def referencesOf (file : SourceFile) (node : Node) : List Reference :=
  match node.value? (.plain "target") with
  | none => []
  | some target =>
    (Text.words target).map fun word =>
      ⟨node.path, node.name.clark, kind? node, word,
        (node.value? (.plain "targetEnd")).getD word, isFragment word, node.corresp?, file⟩

/-- Records a mapping in place of an earlier one of the same identifier. -/
def recordMapping (mappings : List Mapping) (mapping : Mapping) : List Mapping :=
  mappings.filter (·.urn ≠ mapping.urn) ++ [mapping]

/-- Scans a document. -/
def scan (document : Document) (file : SourceFile) : Scan where
  mappings := (document.nodes.filterMap (mappingOf? file)).foldl recordMapping []
  references := document.nodes.flatMap (referencesOf file)

end Intertext.Index
