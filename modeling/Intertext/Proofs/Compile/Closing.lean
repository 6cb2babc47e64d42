import Intertext.Proofs.Compile.Gathered
import Intertext.Proofs.Compile.Library
import Intertext.Proofs.Compile.Plain
/-!
Whether a range is over at the end of a document.

A walk that succeeds has always come to the start of its range. It has come to the end of it
exactly if nothing took the place of an element around the stop, from the start on
(`range_over_iff`): what takes the place of an element is shown as a whole, and the walk goes on
after the element as if it had not been there. If the range is over, nothing is shown but what
lies in it. If it is not, everything up to the end of the document is taken (`text_after_stop`).
-/

namespace Intertext.Compile

open Markup (Element Node Document)
open Markup.Node

variable {library : Library} {nested : Nested} {site : Site} {bounds : Bounds}

/-- The stop of a range is reached if no element around it hides it, from the start on. -/
theorem stop_reached_iff {document : Document} (ordered : document.Ordered)
    (located : Located document bounds) (replacement? : Node → Option Element) :
    bounds.stop ∈ (reached document bounds fun node => (replacement? node).isSome).ids ↔
      ∀ above ∈ document.ancestors bounds.stop, bounds.start ≤ above.id →
        replacement? above = none := by
  rw [mem_reached ordered]
  simp [located.stop_mem]

/-- Whether a walk that has gone through a document is over: it has begun, and it has ended
exactly if nothing took the place of an element around the stop of its range, from the start
on. -/
def EndsUnlessHidden (document : Document) (bounds : Bounds) (replacement? : Node → Option Element)
    (after : Progress) : Prop :=
  after.frame.beforeStart = false ∧
    (after.frame.afterEnd = true ↔
      ∀ above ∈ document.ancestors bounds.stop, bounds.start ≤ above.id → replacement? above = none)

/-- Whatever is extracted, structure or text, the walk has come to the start of its range, and to
the end of it exactly if nothing took the place of an element around its stop, from the start on.
If it has, the structure is the pruning of the document to the range; the text is always what the
pruning to the range keeps. -/
theorem range_over_iff (parsed : library.Parsed) (frames : Nat) (file : SourceFile)
    (startMarker stopMarker : String) :
    (∀ elements,
      ((levels library frames).external file startMarker stopMarker).result = .ok elements →
        ∃ remaining document bounds after, frames = remaining + 1 ∧
          library.document file = .ok document ∧
          Bounds.locate document startMarker stopMarker = .ok bounds ∧
          (external library (levels library remaining) ⟨file, document⟩
            (.within document bounds .external) (Walk.start file startMarker stopMarker)
            document.root).result = .ok (elements, after) ∧
          EndsUnlessHidden document bounds
            (externalReplacement? library (levels library remaining) ⟨file, document⟩) after ∧
          (after.frame.afterEnd = true → elements =
            (externalPruning library (levels library remaining) ⟨file, document⟩ bounds).shown
              document.root)) ∧
    (∀ element,
      ((levels library frames).inline file startMarker stopMarker).result = .ok element →
        ∃ remaining document bounds items after, frames = remaining + 1 ∧
          library.document file = .ok document ∧
          Bounds.locate document startMarker stopMarker = .ok bounds ∧
          (inline library (levels library remaining) ⟨file, document⟩
            (.within document bounds .inline) (document.lang? bounds.start)
            (Walk.start file startMarker stopMarker) document.root).result = .ok (items, after) ∧
          EndsUnlessHidden document bounds
            (inlineReplacement? library (levels library remaining) ⟨file, document⟩) after ∧
          element = append (container (document.lang? bounds.start)) items ∧
          items = (inlinePruning library (levels library remaining) ⟨file, document⟩
            bounds).gathered (document.lang? bounds.start) document.root) := by
  constructor
  · intro elements ran
    cases frames with
    | zero => exact absurd ran external_level_none_ne_ok
    | succ remaining =>
      obtain ⟨document, bounds, after, reads, located, ran⟩ := external_level_eq_ok.mp ran
      have ordered := parsed.ordered reads
      have bounded := located_of_locate ordered located
      obtain ⟨begun, hasEnded, shown⟩ := shown_of_external_root ordered bounded ran
      exact ⟨remaining, document, bounds, after, rfl, reads, located, ran,
        ⟨begun, hasEnded.trans (stop_reached_iff ordered bounded _)⟩, shown⟩
  · intro element ran
    cases frames with
    | zero => exact absurd ran inline_level_none_ne_ok
    | succ remaining =>
      obtain ⟨document, bounds, items, after, reads, located, ran, same⟩ :=
        inline_level_eq_ok.mp ran
      have ordered := parsed.ordered reads
      have bounded := located_of_locate ordered located
      obtain ⟨begun, hasEnded, taken⟩ := gathered_of_inline_root ordered bounded ran
      exact ⟨remaining, document, bounds, items, after, rfl, reads, located, ran,
        ⟨begun, hasEnded.trans (stop_reached_iff ordered bounded _)⟩, same, taken⟩

/-- A document in which a range ends within an instruction. -/
def enclosed : Document where
  root := ⟨0, "/text", .tei "text", [], "",
    [⟨1, "/text/p[1]", .tei "p", [(.plain "corresp", "urn:x-opensiddur:s")], "S", [], ""⟩,
     ⟨2, "/text/note[1]", .tei "note", [(.plain "type", "instruction")], "",
       [⟨3, "/text/note[1]/seg[1]", .tei "seg", [(.plain "corresp", "urn:x-opensiddur:e")], "E", [],
         ""⟩], ""⟩,
     ⟨4, "/text/p[2]", .tei "p", [], "rest", [], ""⟩], ""⟩
  namespaces := [(none, "http://www.tei-c.org/ns/1.0")]

theorem enclosed_parse : Document.parse
    ("<text xmlns=\"http://www.tei-c.org/ns/1.0\"><p corresp=\"urn:x-opensiddur:s\">S</p>" ++
      "<note type=\"instruction\"><seg corresp=\"urn:x-opensiddur:e\">E</seg></note>" ++
      "<p>rest</p></text>") = .ok enclosed := by
  cbv

/-- The instruction stays an element in extracted text, so the range that ends within it is not over
at the end of the document. -/
theorem range_over_enclosed : ∃ items after,
    (inline (single enclosed) (levels (single enclosed) 1) ⟨⟨"A", "b.xml"⟩, enclosed⟩
      (.within enclosed ⟨1, 3, 0⟩ .inline) none
      (Walk.start ⟨"A", "b.xml"⟩ "urn:x-opensiddur:s" "urn:x-opensiddur:e")
      enclosed.root).result = .ok (items, after) ∧
    after.frame.beforeStart = false ∧ after.frame.afterEnd = false := by
  have succeeds : ((levels (single enclosed) 2).inline ⟨"A", "b.xml"⟩ "urn:x-opensiddur:s"
      "urn:x-opensiddur:e").result.isOk = true := by
    decide +kernel
  have bounded : Bounds.locate enclosed "urn:x-opensiddur:s" "urn:x-opensiddur:e" =
      .ok ⟨1, 3, 0⟩ := by
    decide +kernel
  have replaced : (inlineReplacement? (single enclosed) (levels (single enclosed) 1)
      ⟨⟨"A", "b.xml"⟩, enclosed⟩ enclosed.root.children[1]).isSome = true := by
    decide +kernel
  obtain ⟨element, ran⟩ := Outcome.isOk_iff.mp succeeds
  obtain ⟨remaining, document, bounds, items, after, frames, reads, located, walked,
    ⟨begun, hasEnded⟩, -⟩ := (range_over_iff (parsed_single enclosed_parse) 2 _ _ _).2 element ran
  cases frames
  cases reads
  rw [bounded] at located
  cases located
  refine ⟨items, after, walked, begun, Bool.eq_false_iff.mpr ?_⟩
  intro isOver
  have none := hasEnded.mp isOver enclosed.root.children[1] List.mem_cons_self (by decide)
  rw [none] at replaced
  cases replaced

/-- What stands after the stop is taken with the text, though not with the structure. -/
theorem text_after_stop :
    ((levels (single enclosed) 2).inline ⟨"A", "b.xml"⟩ "urn:x-opensiddur:s"
        "urn:x-opensiddur:e").result.map Element.characters = .ok "SErest" ∧
      ((levels (single enclosed) 2).external ⟨"A", "b.xml"⟩ "urn:x-opensiddur:s"
        "urn:x-opensiddur:e").result.map Element.forestCharacters = .ok "SE" := by
  decide +kernel

end Intertext.Compile
