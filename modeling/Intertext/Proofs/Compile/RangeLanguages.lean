import Intertext.Proofs.Compile.Languages
import Intertext.Proofs.Compile.Quoting
/-!
The languages of ranges.

A wrapper has one language, that of the start marker, while a range goes on to nodes that may have
got other languages from nodes around them. Where those nodes are copied, what they declare is
copied with them, and in extracted text it gets a container; where they are not, it is lost. So what
is extracted reads in its own language exactly if a node that was extracted declares it around it,
or if it has the language of the start marker (`range_speaks_iff`).

The one direction is that of a declaration: between a node and those that are copied around it there
is no other node, since a walk that is in the ancestor of its range passes nothing that it shows
anything of (`CopiedAt.lang?_of_children`). So the nearest declaration in the source is copied, too.
-/

namespace Intertext.Compile

open Markup (Document Element Name Node)
open Markup.Element (untailed)
open Markup.Node

variable {library : Library} {nested : Nested} {site : Site} {walk : Walk}
  {progress after : Progress} {nodes chain : List Node} {positions : List Nat} {node : Node}
  {lang : Option String}

/-! ## 1. Copies

A place is followed from node to node, and the chain lists the nodes that are copied around it.
Within the ancestor of the range nothing is left out of the chain, as all that is passed there lies
beside the way to the start. Above the ancestor nodes are passed, and what they declare is lost. -/

/-- The language at a child is the one it declares, or else the one at its parent. -/
theorem lang?_child {document : Document} {child : Node} (ordered : document.Ordered)
    (isNode : node ∈ document.nodes) (isChild : child ∈ node.children) :
    document.lang? child.id = (child.ownLang? <|> document.lang? node.id) := by
  rw [Document.lang?_eq ordered (children_mem_nodes isNode child isChild),
    Document.langAround?_child ordered isNode isChild]

section

variable (external : walk.extraction = .external)

include external

/-- In the ancestor of a range, what is shown before the start has the start in it. -/
theorem Keeps.start_mem {count : Nat} (keeps : Keeps library nested site walk progress node count)
    (before : progress.Before true) (apart : walk.bounds.ancestor ∉ node.ids) :
    walk.bounds.start ∈ node.ids := by
  by_cases isStart : node.id = walk.bounds.start
  · exact isStart ▸ node.id_mem_ids
  · have shown := keeps.command
    rw [(before.enter external isStart).2] at shown
    split at shown
    · rename_i leads
      rcases leads with isAncestor | ⟨-, hasStart⟩
      · exact absurd (isAncestor ▸ node.id_mem_ids) apart
      · exact hasStart
    · rcases shown with shown | shown <;> cases shown

/-- In the ancestor of a range nothing is copied before the start but what has the start in it. -/
theorem CopiedAt.start_mem
    (place : CopiedAt library nested site walk progress nodes positions chain)
    (areNodes : ∀ node ∈ nodes, node ∈ site.document.nodes) (before : progress.Before true)
    (apart : ∀ node ∈ nodes, walk.bounds.ancestor ∉ node.ids) :
    walk.bounds.start ∈ forestIds nodes := by
  induction place with
  | here keeps =>
    rw [forestIds_cons]
    exact List.mem_append_left _
      (keeps.start_mem external before (apart _ List.mem_cons_self))
  | into keeps _ _ =>
    rw [forestIds_cons]
    exact List.mem_append_left _
      (keeps.start_mem external before (apart _ List.mem_cons_self))
  | @through progress first rest chain positions passed below ih =>
    have isNode := areNodes first List.mem_cons_self
    have other : first.id ≠ walk.bounds.start := fun isStart =>
      (before.enter_start isStart).not_lead.2 passed
    have hasStart := ih (children_mem_nodes isNode) (before.enter external other).1
      fun child isChild isBelow => apart first List.mem_cons_self
        (mem_ids_of_below (mem_forestIds.mpr ⟨child, isChild, isBelow⟩))
    rw [forestIds_cons]
    exact List.mem_append_left _ (mem_ids_of_below hasStart)
  | @past progress between first rest chain elements positions ran later ih =>
    rw [forestIds_cons, List.mem_append]
    by_cases hasStart : walk.bounds.start ∈ first.ids
    · exact Or.inl hasStart
    · have still : (visit walk (externalHides library nested site) progress first).Before true :=
        before.visit external hasStart (apart first List.mem_cons_self)
      rw [visit_of_external external ran] at still
      exact Or.inr (ih (fun node member => areNodes node (List.mem_cons_of_mem _ member)) still
        fun node member => apart node (List.mem_cons_of_mem _ member))

variable (ordered : site.document.Ordered) (areNested : walk.bounds.AreNested site.document)

include ordered areNested

/-- What is copied of the children of a node, once a walk has begun or is in the ancestor of its
range, has the language that the nearest node in the chain declares, or else that of the node. -/
theorem CopiedAt.lang?_of_children
    (place : CopiedAt library nested site walk progress nodes positions chain) {parent : Node}
    (isParent : parent ∈ site.document.nodes) (areChildren : ∀ node ∈ nodes, node ∈ parent.children)
    (track : progress.OnTrack walk true nodes) :
    ∃ copied outer, chain = copied :: outer ∧ site.document.lang? copied.id =
      (chain.findSome? (·.ownLang?) <|> site.document.lang? parent.id) := by
  induction place generalizing parent with
  | @here progress first rest count keeps =>
    refine ⟨first, [], rfl, ?_⟩
    rw [lang?_child ordered isParent (areChildren first List.mem_cons_self),
      List.findSome?_singleton]
  | @into progress first rest chain count positions keeps below ih =>
    have isChild := areChildren first List.mem_cons_self
    have isNode := children_mem_nodes isParent first isChild
    obtain ⟨copied, outer, rfl, same⟩ := ih isNode (fun _ member => member)
      (track.into external ordered isNode keeps.command)
    refine ⟨copied, outer ++ [first], rfl, ?_⟩
    rw [same, lang?_child ordered isParent isChild, findSome?_concat, orElse_assoc]
  | @through progress first rest chain positions passed below ih =>
    -- what is passed in the ancestor does not have the start in it, so nothing of it is copied
    have isNode := children_mem_nodes isParent first (areChildren first List.mem_cons_self)
    obtain ⟨inside, aside⟩ := track.through external passed
    rcases inside with begun | ⟨before, apart⟩
    · exact absurd passed begun.not_lead.2
    · exact absurd (mem_ids_of_below (below.start_mem external
        (children_mem_nodes isNode) before (apart rfl))) (aside rfl)
  | @past progress between first rest chain elements positions ran later ih =>
    have isNode := children_mem_nodes isParent first (areChildren first List.mem_cons_self)
    have after : (visit walk (externalHides library nested site) progress first).OnTrack walk true
        rest :=
      track.past external areNested isNode
    rw [visit_of_external external ran] at after
    exact ih isParent (fun node member => areChildren node (List.mem_cons_of_mem _ member)) after

/-- What is copied has the language that the nearest node in the chain declares, if any does. -/
theorem CopiedAt.lang?_of_declared {inside : Bool}
    (place : CopiedAt library nested site walk progress nodes positions chain)
    (areNodes : ∀ node ∈ nodes, node ∈ site.document.nodes)
    (track : progress.OnTrack walk inside nodes) :
    ∃ copied outer, chain = copied :: outer ∧ ∀ lang, chain.findSome? (·.ownLang?) = some lang →
      site.document.lang? copied.id = some lang := by
  induction place with
  | @here progress first rest count keeps =>
    refine ⟨first, [], rfl, fun lang declares => ?_⟩
    rw [List.findSome?_singleton] at declares
    rw [Document.lang?_eq ordered (areNodes first List.mem_cons_self), declares]
    rfl
  | @into progress first rest chain count positions keeps below ih =>
    have isNode := areNodes first List.mem_cons_self
    obtain ⟨copied, outer, rfl, same⟩ := below.lang?_of_children external ordered areNested isNode
      (fun _ member => member) (track.into external ordered isNode keeps.command)
    refine ⟨copied, outer ++ [first], rfl, fun lang declares => ?_⟩
    rw [same, Document.lang?_eq ordered isNode, ← orElse_assoc, ← findSome?_concat, declares]
    rfl
  | @through progress first rest chain positions passed below ih =>
    have isNode := areNodes first List.mem_cons_self
    exact ih (children_mem_nodes isNode) (track.through external passed).1
  | @past progress between first rest chain elements positions ran later ih =>
    have after : (visit walk (externalHides library nested site) progress first).OnTrack walk inside
        rest :=
      track.past external areNested (areNodes first List.mem_cons_self)
    rw [visit_of_external external ran] at after
    exact ih (fun node member => areNodes node (List.mem_cons_of_mem _ member)) after

end

/-! ## 2. Texts

In extracted text every node counts that the walk takes. Nothing is passed once the walk has begun,
so the chain is complete from the start on. -/

section

variable (inline : walk.extraction = .inline) (ordered : site.document.Ordered)
  {parent origin : Node} {text : String}

include inline ordered

/-- A piece of text that is taken below a node, once a walk has begun, has the language that the
nearest node in the chain declares, or else that of the node. -/
theorem TextAt.lang?_of_begun
    (place : TextAt library nested site walk lang progress parent nodes positions origin chain text)
    (isParent : parent ∈ site.document.nodes) (areChildren : ∀ node ∈ nodes, node ∈ parent.children)
    (begun : progress.Begun) : site.document.lang? origin.id =
      (chain.findSome? (·.ownLang?) <|> site.document.lang? parent.id) := by
  induction place with
  | tail => rfl
  | @own lang progress parent first rest takes =>
    rw [lang?_child ordered isParent (areChildren first List.mem_cons_self),
      List.findSome?_singleton]
  | @into lang progress parent first origin rest chain positions text applied takes found below
      ih =>
    have isChild := areChildren first List.mem_cons_self
    have isNode := children_mem_nodes isParent first isChild
    rw [ih isNode (fun _ member => member) begun.enter, lang?_child ordered isParent isChild,
      findSome?_concat, orElse_assoc]
  | @through lang progress parent first origin rest chain positions text passed below ih =>
    exact absurd passed begun.enter.not_lead.2
  | @past lang progress between parent first origin rest chain positions text items ran later ih =>
    have after : (visit walk (inlineHides library nested site) progress first).Begun := begun.visit
    rw [visit_of_inline inline ran] at after
    exact ih isParent (fun node member => areChildren node (List.mem_cons_of_mem _ member)) after

/-- A piece of text has the language that the nearest node in the chain declares, if any does. -/
theorem TextAt.lang?_of_declared
    (place : TextAt library nested site walk lang progress parent nodes positions origin chain text)
    (areNodes : ∀ node ∈ nodes, node ∈ site.document.nodes) {own : String}
    (declares : chain.findSome? (·.ownLang?) = some own) :
    site.document.lang? origin.id = some own := by
  induction place with
  | tail => cases declares
  | @own lang progress parent first rest takes =>
    rw [List.findSome?_singleton] at declares
    rw [Document.lang?_eq ordered (areNodes first List.mem_cons_self), declares]
    rfl
  | @into lang progress parent first origin rest chain positions text applied takes found inside
      ih =>
    have isNode := areNodes first List.mem_cons_self
    have begun : (walk.enter progress first).Begun := by
      refine begun_of_taken (takes.command.trans ?_)
      rw [Walk.inRangeCommand, inline]
    rw [inside.lang?_of_begun inline ordered isNode (fun _ member => member) begun,
      Document.lang?_eq ordered isNode, ← orElse_assoc, ← findSome?_concat, declares]
    rfl
  | @through lang progress parent first origin rest chain positions text passed inside ih =>
    exact ih (children_mem_nodes (areNodes first List.mem_cons_self)) declares
  | @past lang progress between parent first origin rest chain positions text items ran later ih =>
    exact ih (fun node member => areNodes node (List.mem_cons_of_mem _ member)) declares

end

/-! ## 3. Ranges

What is read at a node of a range is what the nearest node in the chain declares, or else the
language of the start marker, and where that has none the one around the range. If a node in the
chain declares a language, this is the right one by the sections above. -/

/-- Whether a node of a range reads in its own language exactly if one of the nodes that were
extracted around it declares a language, or it has the one of the start marker; where that has none,
the one that is spoken around the range. What is read is `read`. -/
def ReadsIff (source : Document) (bounds : Bounds) (spoken read : Option String) (node : Node)
    (around : List Node) : Prop :=
  ∀ lang, source.lang? node.id = some lang → (read = some lang ↔
    (∃ outer ∈ around, outer.ownLang?.isSome = true) ∨
      (source.lang? bounds.start <|> spoken) = some lang)

/-- What nodes around a node declare is read, or else the language of the start marker, so a node
that has what is declared around it reads in its own language exactly if it should. -/
theorem readsIff_of_declared {source : Document} {bounds : Bounds} {spoken read : Option String}
    {around : List Node} (reads : read = (around.findSome? (·.ownLang?) <|>
      source.lang? bounds.start <|> spoken))
    (right : ∀ lang, around.findSome? (·.ownLang?) = some lang →
      source.lang? node.id = some lang) :
    ReadsIff source bounds spoken read node around := by
  intro own isOwn
  rw [reads, ← List.findSome?_isSome_iff]
  cases declared : around.findSome? (·.ownLang?) with
  | none => simp
  | some other =>
    cases isOwn.symm.trans (right other declared)
    simp

/-- In a wrapper the language of the start marker is spoken, or else the one around the wrapper. -/
theorem spoken_in_wrapper {found : Element} (silent : found.ownLang? = none)
    {home : Option SourceFile} {file : SourceFile} {source inScope spoken : Option String}
    (speaks : Speaks spoken inScope) :
    ((stampLang (stampForeign found home file) source inScope).ownLang? <|> spoken) =
      (source <|> spoken) := by
  rw [ownLang?_stampLang, ownLang?_stampForeign, silent]
  cases source with
  | none => simp
  | some own =>
    split
    · rename_i same
      rw [speaks own same.symm]
      rfl
    · rfl

variable {home : SourceFile} {directive : Node} {frames : Nat} {target : Target} {source : Document}
  {bounds : Bounds} {element : Element} {around : List Node} {spoken : Option String}

/-- What is copied of a range into an element that speaks the language of the start marker reads in
its own language exactly if it should. -/
theorem CopiesTo.readsIff {copied : Node}
    (place : CopiesTo library frames target source bounds positions copied around)
    (fills : Fills library frames target source bounds element .external)
    (ordered : source.Ordered)
    (bounded : Bounds.locate source target.start target.stop = .ok bounds)
    (said : (element.ownLang? <|> spoken) = (source.lang? bounds.start <|> spoken)) :
    ∃ inner, element.at? positions = some inner ∧ inner.name = copied.name ∧
      inner.attributes = copied.attributes ∧
      ReadsIff source bounds spoken (nearestLang? element positions <|> spoken) copied
        (copied :: around) := by
  obtain ⟨inner, isThere, name, attributes, nearest⟩ := fills.copied place
  refine ⟨inner, isThere, name, attributes, readsIff_of_declared ?_ fun lang declared => ?_⟩
  · rw [nearest, orElse_assoc, said]
  · have areNested := (located_of_locate ordered bounded).areNested ordered
    have track : (Walk.start target.file target.start target.stop).OnTrack
        (.within source bounds .external) false [source.root] :=
      Or.inr ⟨before_start .., by simp⟩
    have isRoot : ∀ node ∈ [source.root], node ∈ source.nodes :=
      List.forall_mem_singleton.mpr (mem_preorder_self _)
    obtain ⟨first, chain, same, right⟩ := CopiedAt.lang?_of_declared rfl ordered areNested place
      isRoot track
    cases same
    exact right lang declared

/-- What is taken of the text of a range into an element that speaks the language of the start
marker reads in its own language exactly if it should. -/
theorem TakesTo.readsIff {origin : Node} {text : String}
    (place : TakesTo library frames target source bounds positions text origin around)
    (fills : Fills library frames target source bounds element .inline)
    (ordered : source.Ordered) (rootTail : source.root.tail = "")
    (said : (element.ownLang? <|> spoken) = (source.lang? bounds.start <|> spoken)) :
    ∃ inner, element.at? positions = some inner ∧ inner.Holds text ∧
      (positions ≠ [] → inner.name = .processing "transcludeInline") ∧
      ReadsIff source bounds spoken (nearestLang? element positions <|> spoken) origin around := by
  have speaks : Speaks (element.ownLang? <|> spoken) (source.lang? bounds.start) := by
    intro lang isLang
    rw [said, isLang]
    rfl
  obtain ⟨inner, isThere, holds, name, nearest⟩ := fills.taken place rootTail speaks
  refine ⟨inner, isThere, holds, name, readsIff_of_declared ?_ fun lang declared => ?_⟩
  · rw [nearest, said]
  · exact TextAt.lang?_of_declared rfl ordered place
      (List.forall_mem_singleton.mpr (mem_preorder_self _)) declared

/-- In the wrapper that replaces a directive stand copies of nodes and what was inserted, or text.
Each copy and each piece of text is where it should be, and it reads in its own language exactly if
a node that was extracted around it declares one, or if it has the language of the start marker. -/
theorem range_speaks_iff (parsed : library.Parsed) {document : Document} {extraction : Extraction}
    (found : (transclude library (levels library frames) ⟨home, document⟩ directive
      extraction).result = .ok element) :
    ∃ fewer target source bounds, frames = fewer + 1 ∧
      Quotes library home directive target source bounds ∧
      (extraction = .external → ∀ position more inner,
        element.at? (position :: more) = some inner →
          (∃ copied around,
            CopiesTo library fewer target source bounds (position :: more) copied around) ∨
          ∃ child, element.children[position]? = some child ∧
            IntoInserted library (levels library fewer) ⟨target.file, source⟩ child more) ∧
      ∀ spoken, Speaks spoken (document.lang? directive.id) →
        (extraction = .external → ∀ positions copied around,
          CopiesTo library fewer target source bounds positions copied around →
            ∃ inner, element.at? positions = some inner ∧ inner.name = copied.name ∧
              inner.attributes = copied.attributes ∧
              ReadsIff source bounds spoken (nearestLang? element positions <|> spoken) copied
                (copied :: around)) ∧
        (extraction = .inline → ∀ positions text origin around,
          TakesTo library fewer target source bounds positions text origin around →
            ∃ inner, element.at? positions = some inner ∧ inner.Holds text ∧
              (positions ≠ [] → inner.name = .processing "transcludeInline") ∧
              ReadsIff source bounds spoken (nearestLang? element positions <|> spoken) origin
                around) := by
  obtain ⟨fewer, target, source, bounds, wrapped, isFewer, quotes, fills, silent, stamped⟩ :=
    fills_of_transclude found
  have ordered := parsed.ordered quotes.reads
  obtain ⟨text, read⟩ := parsed _ _ quotes.reads
  refine ⟨fewer, target, source, bounds, isFewer, quotes, ?_, fun spoken speaks => ?_⟩
  · rintro rfl position more inner isThere
    exact fills.copied_or_inserted isThere
  have said : (element.ownLang? <|> spoken) = (source.lang? bounds.start <|> spoken) := by
    rw [stamped, spoken_in_wrapper silent speaks]
  constructor
  · rintro rfl positions copied around place
    exact place.readsIff fills ordered quotes.bounded said
  · rintro rfl positions text origin around place
    exact place.readsIff fills ordered (Document.root_tail_of_parse read) said

/-! ## 4. A range that leaves a language -/

/-- The start of a range, which declares a language. -/
def foreignStart : Node :=
  ⟨1, "/r/p[1]", .plain "p", [(.xml "id", "s"), (.xml "lang", "he")], "S", [], ""⟩

/-- The end of a range, which declares no language. -/
def silentEnd : Node := ⟨2, "/r/p[2]", .plain "p", [(.xml "id", "e")], "E", [], ""⟩

/-- A directive that quotes the structure of a range. -/
def copying : Node :=
  ⟨3, "/r/j:transclude[1]", .link "transclude",
    [(.plain "target", "#s"), (.plain "targetEnd", "#e")], "", [], ""⟩

/-- A directive that quotes the text of a range. -/
def taking : Node :=
  ⟨4, "/r/j:transclude[2]", .link "transclude",
    [(.plain "target", "#s"), (.plain "targetEnd", "#e"), (.plain "type", "inline")], "", [], ""⟩

/-- A document in one language that quotes a range, of which only the start is in another one. -/
def uneven : Document where
  root := ⟨0, "/r", .plain "r", [(.xml "lang", "en")], "",
    [foreignStart, silentEnd, copying, taking], ""⟩
  namespaces := [(some "j", "http://jewishliturgy.org/ns/jlptei/2")]

theorem uneven_parse : Document.parse ("<r xmlns:j=\"http://jewishliturgy.org/ns/jlptei/2\" " ++
    "xml:lang=\"en\"><p xml:id=\"s\" xml:lang=\"he\">S</p><p xml:id=\"e\">E</p>" ++
    "<j:transclude target=\"#s\" targetEnd=\"#e\"/>" ++
    "<j:transclude target=\"#s\" targetEnd=\"#e\" type=\"inline\"/></r>") = .ok uneven := by
  cbv

/-- The end of the range is in the language of the document, and neither as a copy nor as extracted
text does it read in it, although the directives declare no language and stand where that of the
document is in scope. -/
theorem range_misread :
    (single uneven).Parsed ∧ (single uneven).Synced ∧ uneven.lang? silentEnd.id = some "en" ∧
      (∀ directive ∈ [copying, taking],
        directive.ownLang? = none ∧ uneven.lang? directive.id = some "en") ∧
      (compile (single uneven) bilingualFile).result.map (fun tree =>
        ((tree.at? [2, 1]).map fun copied => (copied.value? (.xml "id"), copied.text),
          nearestLang? tree [2, 1], tree.ownLang?)) =
        .ok (some (some "e", "E"), some "he", some "en") ∧
      (compile (single uneven) bilingualFile).result.map (fun tree =>
        ((tree.at? [3]).map fun wrapper => (wrapper.text, wrapper.children.length),
          nearestLang? tree [3], tree.ownLang?)) =
        .ok (some ("SE", 0), some "he", some "en") :=
  ⟨parsed_single uneven_parse, synced_single _, by decide, by decide, by decide +kernel,
    by decide +kernel⟩

/-- Extraction of structure copies the end of the range after its start. -/
theorem copiesTo_silentEnd : CopiesTo (single uneven) 1 ⟨bilingualFile, "#s", "#e"⟩ uneven
    ⟨1, 2, 1⟩ [1] silentEnd [] := by
  have ran : (external (single uneven) (levels (single uneven) 1) ⟨bilingualFile, uneven⟩
      (.within uneven ⟨1, 2, 1⟩ .external) ((Walk.within uneven ⟨1, 2, 1⟩ .external).enter
        (Walk.start bilingualFile "#s" "#e") uneven.root) foreignStart).result =
      .ok ([{ foreignStart.toElement with tail := "" }],
        ⟨⟨bilingualFile, some ("#s", "#e"), false, false, false, .copy⟩, false⟩) := by
    decide +kernel
  have untouched : Untouched (single uneven) (levels (single uneven) 1) ⟨bilingualFile, uneven⟩
      silentEnd :=
    untouched_of_empty rfl (by decide)
  refine .through (by decide +kernel) (.past ran (.here (.of_untouched ?_ untouched)))
  decide +kernel

/-- The end of the range stands in the wrapper of its copies, and it does not read in its own
language there: neither does it declare one, nor does the start marker have it. -/
theorem silentEnd_unread : ∃ wrapper inner,
    (transclude (single uneven) (levels (single uneven) 2) ⟨bilingualFile, uneven⟩ copying
      .external).result = .ok wrapper ∧
    wrapper.at? [1] = some inner ∧ inner.attributes = silentEnd.attributes ∧
      uneven.lang? silentEnd.id = some "en" ∧
      (nearestLang? wrapper [1] <|> some "en") ≠ some "en" := by
  have replaced : (transclude (single uneven) (levels (single uneven) 2) ⟨bilingualFile, uneven⟩
      copying .external).result.isOk = true := by
    decide +kernel
  obtain ⟨wrapper, found⟩ := Outcome.isOk_iff.mp replaced
  obtain ⟨fewer, target, source, bounds, isFewer, quotes, -, all⟩ :=
    range_speaks_iff (parsed_single uneven_parse) found
  cases isFewer
  obtain ⟨⟨start, given, leads⟩, reads, bounded⟩ := quotes
  cases given
  cases leads
  cases reads
  have located : Bounds.locate uneven "#s" "#e" = .ok ⟨1, 2, 1⟩ := by decide +kernel
  cases located.symm.trans bounded
  have isEnglish : uneven.lang? silentEnd.id = some "en" := by decide
  obtain ⟨inner, isThere, -, attributes, reads⟩ :=
    (all (some "en") (fun _ same => same)).1 rfl [1] silentEnd [] copiesTo_silentEnd
  refine ⟨wrapper, inner, found, isThere, attributes, isEnglish, fun right => ?_⟩
  have wrong := (reads "en" isEnglish).mp right
  revert wrong
  decide +kernel

end Intertext.Compile
