import Intertext.Proofs.Compile.Commands
import Intertext.Proofs.Compile.Passing
/-!
The phases of a walk within bounds.

A walk leads to its range, takes what is in it and skips what comes after it, each of these once
(`Phases`). Which calls it makes and what they do to it is told without looking at the tree
(`Linked`). For the tags above the start one has to know where the walk is: it enters everything
that has the start in it (`exists_call_of_start`), and of that it shows the tags of those elements
that lie within the ancestor of the range (`IsOnWay.copyTag_iff`). `phases_of_walk` says this of
every run that succeeds, together with what becomes of the tails where nodes are passed.
-/

namespace Intertext.Compile

open Markup (Document Element Node Edge)
open Markup.Node (ids_eq forestPreorder forestIds forestEdges mem_preorder_self preorder_eq
  forestPreorder_sublist mem_ids mem_ids_of_below ids_sublist preorder_sublist opened_edges
  edges_nodup)

/-! ## 1. Where nodes are entered

Before the range has begun, the walk enters every node it comes to, because it is looking for the
start. So on its way it enters all that contains the start. -/

section Places

variable {document : Document} {bounds : Bounds} {extraction : Extraction} {hides : Node → Bool}
  {passed rest : List Edge} {progress : Progress} {node : Node}

/-- A node is not hidden if a walk goes into it. -/
theorem AtNode.not_hidden (place : AtNode document bounds hides passed rest node)
    (ordered : document.Ordered) (spans : Spans document bounds (reached document bounds hides))
    (standing : Standing document bounds extraction passed progress)
    (noSkip : ((Walk.within document bounds extraction).enter progress node).frame.command ≠ .skip)
    (shown : ¬ (((Walk.within document bounds extraction).enter progress node).frame.command =
      (Walk.within document bounds extraction).inRangeCommand ∧ hides node = true)) :
    hidden bounds hides node = false := by
  have told := place.command_enter ordered spans standing
  rcases Stretch.command_cases document bounds extraction (passed ++ [.opening node.id]) node with
    ⟨-, skip⟩ | ⟨-, inRange⟩ | ⟨-, notBegun, -⟩
  · exact absurd (told.trans skip) noSkip
  · rw [hidden, Bool.eq_false_iff.mpr fun hide => shown ⟨told.trans inRange, hide⟩, Bool.and_false]
  -- before the start nothing counts as hidden, since the walk goes on to look for it
  · exact spans.not_hidden place.opening notBegun

/-- Whether a node is at a place on the way of a walk that stands so. -/
def IsOnWay (document : Document) (bounds : Bounds) (extraction : Extraction) (hides : Node → Bool)
    (progress : Progress) (node : Node) : Prop :=
  ∃ passed rest, AtNode document bounds hides passed rest node ∧
    Standing document bounds extraction passed progress

/-- All that a walk enters is on its way. -/
theorem spreads_isOnWay (ordered : document.Ordered)
    (spans : Spans document bounds (reached document bounds hides)) :
    Spreads (.within document bounds extraction) hides
      (IsOnWay document bounds extraction hides)
      (fun progress nodes => ∃ passed rest, AtForest document bounds hides passed rest nodes ∧
        Standing document bounds extraction passed progress) where
  into := fun ⟨_, _, place, standing⟩ noSkip shown =>
    ⟨_, _, place.children (place.not_hidden ordered spans standing noSkip shown),
      place.standing_enter ordered spans standing⟩
  first := fun ⟨_, _, place, standing⟩ => ⟨_, _, place.first, standing⟩
  next := fun ⟨_, _, place, standing⟩ =>
    ⟨_, _, place.others, standing_visit ordered spans place.first standing⟩

/-- Before the start a walk goes into what it enters. -/
theorem AtNode.leads (place : AtNode document bounds hides passed rest node)
    (ordered : document.Ordered) (spans : Spans document bounds (reached document bounds hides))
    (standing : Standing document bounds extraction passed progress)
    (isLater : node.id < bounds.start) :
    (Stretch.of document bounds).isOver (passed ++ [.opening node.id]) = false ∧
    (Stretch.of document bounds).isBegun (passed ++ [.opening node.id]) = false ∧
    ∃ inner, calls (.within document bounds extraction) hides progress node =
      ⟨.opening node.id, progress, (Walk.within document bounds extraction).enter progress node⟩ ::
        (callsForest (.within document bounds extraction) hides
          ((Walk.within document bounds extraction).enter progress node) node.children ++ inner) ∧
      hidden bounds hides node = false := by
  have told := place.command_enter ordered spans standing
  have notBegun : (Stretch.of document bounds).isBegun (passed ++ [.opening node.id]) = false :=
    Bool.eq_false_iff.mpr fun begun =>
      absurd (spans.start_le place.opening begun) (Nat.not_le_of_lt isLater)
  -- A node before the start is entered neither after the range nor in it.
  rcases Stretch.command_cases document bounds extraction (passed ++ [.opening node.id]) node with
    ⟨hasEnded, -⟩ | ⟨isOpen, -⟩ | ⟨notOver, -, lead⟩
  · have split := place.opening
    rw [List.append_cons] at split
    rw [spans.isBegun_of_isStopped split (Stretch.isStopped_of_isOver hasEnded)] at notBegun
    cases notBegun
  · rw [(Bool.and_eq_true_iff.mp isOpen).1] at notBegun
    cases notBegun
  · refine ⟨notOver, notBegun, ?_⟩
    obtain ⟨-, noTag, noPass⟩ := (Walk.within document bounds extraction).inRangeCommand_ne
    rcases calls_cases (.within document bounds extraction) hides progress node with
      ⟨skip, -⟩ | ⟨-, inner, ⟨-, taken, -⟩ | ⟨rfl, -⟩, -, made⟩
    · rw [told] at skip
      rcases lead with lead | lead <;> rw [lead] at skip <;> cases skip
    · rw [told] at taken
      rcases lead with lead | lead <;> rw [lead] at taken
      · exact absurd taken.symm noTag
      · exact absurd taken.symm noPass
    · exact ⟨_, made, spans.not_hidden place.opening notBegun⟩

mutual

/-- A walk enters everything that has the start in it. -/
theorem exists_call_of_start (ordered : document.Ordered)
    (spans : Spans document bounds (reached document bounds hides)) {inner : Node}
    (hasStart : bounds.start ∈ inner.ids) :
    ∀ {node : Node} {passed rest : List Edge} {progress : Progress},
      AtNode document bounds hides passed rest node →
      Standing document bounds extraction passed progress → inner ∈ node.preorder →
      ∃ call ∈ calls (.within document bounds extraction) hides progress node,
        call.edge = .opening inner.id
  | ⟨own, path, name, attributes, text, children, tail⟩, passed, rest, progress, place, standing,
      below => by
    rw [preorder_eq] at below
    rcases List.mem_cons.mp below with rfl | below
    · exact ⟨_, mem_calls_entering _ _ _ _, rfl⟩
    -- the node begins before the start, since the inner node is below it
    · have isLater := (Node.Ordered.of_mem ordered place.isNode).lt_of_mem
        (((forestPreorder_sublist below).map _).subset hasStart)
      obtain ⟨-, -, last, made, shown⟩ := place.leads ordered spans standing isLater
      obtain ⟨call, member, enters⟩ := exists_call_of_start_forest ordered spans hasStart
        (place.children shown) (place.standing_enter ordered spans standing) below
      rw [made]
      exact ⟨call, List.mem_cons_of_mem _ (List.mem_append_left _ member), enters⟩

/-- A walk enters every node of a forest that has the start in it. -/
theorem exists_call_of_start_forest (ordered : document.Ordered)
    (spans : Spans document bounds (reached document bounds hides)) {inner : Node}
    (hasStart : bounds.start ∈ inner.ids) :
    ∀ {nodes : List Node} {passed rest : List Edge} {progress : Progress},
      AtForest document bounds hides passed rest nodes →
      Standing document bounds extraction passed progress → inner ∈ forestPreorder nodes →
      ∃ call ∈ callsForest (.within document bounds extraction) hides progress nodes,
        call.edge = .opening inner.id
  | [], _, _, _, _, _, below => by cases below
  | first :: others, passed, rest, progress, place, standing, below => by
    rw [callsForest]
    rcases List.mem_append.mp below with below | below
    · obtain ⟨call, member, enters⟩ :=
        exists_call_of_start ordered spans hasStart place.first standing below
      exact ⟨call, List.mem_append_left _ member, enters⟩
    · obtain ⟨call, member, enters⟩ := exists_call_of_start_forest ordered spans hasStart
        place.others (standing_visit ordered spans place.first standing) below
      exact ⟨call, List.mem_append_right _ member, enters⟩

end

/-! ## 2. The elements that lead to the start

The tag of a node is shown if the ancestor has been entered and not left. Of the nodes that contain
the start these are the ancestor and what is below it. -/

/-- The elements of which the tags are shown are those above the start from the ancestor of the
range on. -/
theorem isShell_iff (ordered : document.Ordered) (isNode : node ∈ document.nodes) :
    bounds.isShell document node = true ↔
      node ∈ document.ancestors bounds.start ∧
        document.contains bounds.ancestor node.id = true := by
  rw [Document.mem_ancestors ordered, and_iff_right isNode]
  constructor
  · intro shell
    have inside := shell
    simp only [Bounds.isShell, Bool.and_eq_true] at inside
    exact ⟨(isShell_lt ordered isNode shell).1, inside.1.2⟩
  · rintro ⟨below, inside⟩
    obtain ⟨outer, isOuter, same, around⟩ := (Document.contains_iff ordered).mp inside
    obtain ⟨inner, isInner, sameId⟩ := mem_ids.mp around
    cases Node.Ordered.eq_of_id_eq ordered ((preorder_sublist isOuter).subset isInner) isNode sameId
    exact isShell_of_mem ordered isOuter same isInner below

/-- Only a walk that extracts structure shows tags. -/
theorem external_of_copyTag {walk : Walk}
    (tag : (walk.enter progress node).frame.command = .copyTag) : walk.extraction = .external := by
  rcases command_of_enter walk progress node with ⟨-, skip⟩ | ⟨-, taken⟩ |
    ⟨-, -, ⟨-, external⟩ | pass⟩
  · cases tag.symm.trans skip
  · exact absurd (taken.symm.trans tag) walk.inRangeCommand_ne.2.1
  · exact external
  · cases tag.symm.trans pass

/-- On its way a walk that extracts structure shows the tag of an element exactly if the element
leads to the start. -/
theorem IsOnWay.copyTag_iff (onWay : IsOnWay document bounds .external hides progress node)
    (ordered : document.Ordered) (located : Located document bounds)
    (spans : Spans document bounds (reached document bounds hides)) :
    ((Walk.within document bounds .external).enter progress node).frame.command = .copyTag ↔
      bounds.isShell document node = true := by
  obtain ⟨passed, rest, place, standing⟩ := onWay
  rw [place.command_enter ordered spans standing]
  constructor
  -- a bare tag is shown before the range only, and there the shells are told by the edges
  · intro tag
    obtain ⟨notOver, notBegun⟩ := Stretch.before_of_lead (by rw [tag]; decide)
      (by rw [tag]; exact (Walk.inRangeCommand_ne _).2.1.symm)
    rw [command_before ordered located spans place notOver notBegun] at tag
    by_contra noShell
    rw [if_neg noShell] at tag
    cases tag
  · intro shell
    obtain ⟨notOver, notBegun, -⟩ := place.leads ordered spans standing
      (isShell_lt ordered place.isNode shell).2
    rw [command_before ordered located spans place notOver notBegun, if_pos shell]

end Places

/-! ## 3. Phases

Each call is before the range, in it or after it by the edges that were passed before the call, and
these grow. So the calls of a walk stand in three parts, one after another. -/

section Phases

variable {document : Document} {bounds : Bounds} {extraction : Extraction}

/-- Whether the calls of a walk within bounds go through its phases once, on the way from one
progress to another. -/
structure Phases (document : Document) (bounds : Bounds) (extraction : Extraction)
    (progress : Progress) (log : List Call) (last : Progress) : Prop where
  /-- Each call goes on where the one before it left off. -/
  linked : Linked progress log last
  made : ∀ call ∈ log, call.IsMade (.within document bounds extraction) document.nodes
  /-- The calls are made in document order. -/
  along : (log.map (·.edge)).Sublist document.root.edges
  reaches : .opening bounds.start ∈ log.map (·.edge)
  /-- Entering the start opens the range, and nothing else opens it or undoes that. -/
  opens : ∀ call ∈ log,
    call.edge = .opening bounds.start ∧ call.before.frame.beforeStart = true ∧
        call.after.frame.beforeStart = false ∨
      call.edge ≠ .opening bounds.start ∧
        call.after.frame.beforeStart = call.before.frame.beforeStart
  /-- What closes the range does so after the start, and nothing undoes that. -/
  closes : ∀ call ∈ log,
    call.after.frame.afterEnd = call.before.frame.afterEnd ∨
      call.before.frame.beforeStart = false ∧ call.before.frame.afterEnd = false ∧
        call.after.frame.afterEnd = true
  commands : InPhases (.within document bounds extraction) ((entries log).map (·.2))
  /-- The tag of an element is shown once if the element leads to the start. -/
  tags : extraction = .external → ∀ node ∈ document.ancestors bounds.start,
    document.contains bounds.ancestor node.id = true → (entries log).count (node.id, .copyTag) = 1
  noOtherTags : ∀ id, (id, .copyTag) ∈ entries log → extraction = .external ∧
    ∃ node ∈ document.ancestors bounds.start, node.id = id ∧
      document.contains bounds.ancestor id = true

/-- A command is entered for a node exactly if there is such a call. -/
theorem mem_entries {log : List Call} {id : Nat} {command : Command} :
    (id, command) ∈ entries log ↔
      ∃ call ∈ log, call.edge = .opening id ∧ call.after.frame.command = command := by
  rw [entries, List.mem_filterMap]
  refine exists_congr fun call => and_congr_right fun _ => ?_
  rw [Call.entry?]
  cases call.edge <;> simp

/-- In document order no node is entered twice. -/
theorem entries_nodup (ordered : document.Ordered) {log : List Call}
    (along : (log.map (·.edge)).Sublist document.root.edges) : (entries log).Nodup := by
  refine List.Nodup.of_map (·.1) ?_
  rw [map_fst_entries]
  have ids := (along.filterMap Edge.opened?)
  rw [opened_edges] at ids
  exact ids.nodup ordered.nodup

/-- The calls of a walk within bounds go through its phases. -/
theorem phases_calls (extraction : Extraction) (ordered : document.Ordered)
    (located : Located document bounds) (hides : Node → Bool) (file : SourceFile)
    (startMarker stopMarker : String) :
    Phases document bounds extraction (Walk.start file startMarker stopMarker)
      (calls (.within document bounds extraction) hides (Walk.start file startMarker stopMarker)
        document.root)
      (visit (.within document bounds extraction) hides (Walk.start file startMarker stopMarker)
        document.root) := by
  have spans := spans_reached hides ordered located
  have onWay : IsOnWay document bounds extraction hides (Walk.start file startMarker stopMarker)
      document.root :=
    ⟨[], [], atNode_root document bounds hides, .start extraction file startMarker stopMarker⟩
  have entersAll {inner : Node} (isInner : inner ∈ document.nodes)
      (hasStart : bounds.start ∈ inner.ids) :=
    exists_call_of_start ordered spans hasStart (atNode_root document bounds hides)
      (Standing.start extraction file startMarker stopMarker) isInner
  have linked : Linked (Walk.start file startMarker stopMarker)
      (calls (.within document bounds extraction) hides (Walk.start file startMarker stopMarker)
        document.root) _ := linked_calls
  have made : ∀ call ∈ calls (.within document bounds extraction) hides
      (Walk.start file startMarker stopMarker) document.root,
        call.IsMade (.within document bounds extraction) document.nodes := isMade_calls
  have along : ((calls (.within document bounds extraction) hides
      (Walk.start file startMarker stopMarker) document.root).map (·.edge)).Sublist
        document.root.edges := edges_calls_sublist
  have sound : (Walk.start file startMarker stopMarker).IsSound := fun _ => ⟨rfl, rfl⟩
  refine ⟨linked, made, along, ?_, fun call => linked.opens_iff made sound
    (along.nodup (edges_nodup ordered)) rfl, fun call => linked.closes made sound,
    linked.inPhases made, ?_, ?_⟩
  -- the walk comes to the start, whatever is hidden
  · obtain ⟨start, isStart, same⟩ := mem_ids.mp located.start_mem
    obtain ⟨call, member, enters⟩ := entersAll isStart (same ▸ start.id_mem_ids)
    rw [same] at enters
    exact enters ▸ List.mem_map_of_mem member
  -- each shell is entered, and as the edges are different it is entered once
  · rintro rfl node above inside
    obtain ⟨isNode, below⟩ := (Document.mem_ancestors ordered).mp above
    obtain ⟨call, member, enters⟩ := entersAll isNode (mem_ids_of_below below)
    obtain ⟨inner, isInner, same, after, comes⟩ :=
      (spreads_isOnWay ordered spans).of_calls onWay call member _ enters
    cases Node.Ordered.eq_of_id_eq ordered isInner isNode same
    refine List.count_eq_one_of_mem (entries_nodup ordered along) (mem_entries.mpr ⟨call, member,
      enters, ?_⟩)
    rw [after]
    exact (comes.copyTag_iff ordered located spans).mpr
      ((isShell_iff ordered isNode).mpr ⟨above, inside⟩)
  -- a tag is shown on the way of the walk, and there only of shells
  · intro id tagged
    obtain ⟨call, member, enters, tag⟩ := mem_entries.mp tagged
    obtain ⟨inner, isInner, rfl, after, comes⟩ :=
      (spreads_isOnWay ordered spans).of_calls onWay call member id enters
    rw [after] at tag
    obtain rfl : extraction = .external := external_of_copyTag tag
    have shell := (comes.copyTag_iff ordered located spans).mp tag
    exact ⟨rfl, inner, ((isShell_iff ordered isInner).mp shell).1, rfl,
      ((isShell_iff ordered isInner).mp shell).2⟩

/-- The nodes that a walk enters, with the commands for them, are what its trace lists outside of
further frames; its calls go through the phases once; and where it passes a node no tail in range is
dropped. -/
theorem phases_of_walk {text : String} (parsed : Document.parse text = .ok document)
    {startMarker stopMarker : String}
    (isLocated : Bounds.locate document startMarker stopMarker = .ok bounds) (library : Library)
    (remaining : Nat) (file : SourceFile) :
    let nested := levels library remaining
    let site : Site := ⟨file, document⟩
    let begin := Walk.start file startMarker stopMarker
    (∀ elements last,
      let walk := Walk.within document bounds .external
      let run := external library nested site walk begin document.root
      let log := calls walk (externalHides library nested site) begin document.root
      run.result = .ok (elements, last) →
        commandsAt 0 run.trace = entries log ∧ Phases document bounds .external begin log last ∧
        ∀ call ∈ log, ∀ node ∈ document.nodes, call.edge = .opening node.id →
          call.after.frame.command = .pass →
            KeepsTails library nested site walk call.before node) ∧
    (∀ lang items last,
      let walk := Walk.within document bounds .inline
      let run := inline library nested site walk lang begin document.root
      let log := calls walk (inlineHides library nested site) begin document.root
      run.result = .ok (items, last) →
        commandsAt 0 run.trace = entries log ∧ Phases document bounds .inline begin log last ∧
        ∀ call ∈ log, ∀ node ∈ document.nodes, call.edge = .opening node.id →
          call.after.frame.command = .pass →
            KeepsTextTails library nested site walk lang call.before node) := by
  intro nested site begin
  have ordered := Document.ordered_of_parse parsed
  have located := located_of_locate ordered isLocated
  have quiet : nested.Leaves IsQuiet := (frames_quiet library).levels remaining
  constructor
  -- for each extraction: the trace, the calls, and the tails at nodes that are passed
  · intro elements last walk run log ran
    refine ⟨?_, ?_, fun call member node isNode enters pass => ?_⟩
    · have enters := enters_external quiet rfl ran []
      rwa [List.append_nil, commandsAt, List.append_nil] at enters
    · rw [← visit_of_external rfl ran]
      exact phases_calls .external ordered located _ file startMarker stopMarker
    · obtain ⟨inner, isInner, same, after, ⟨value, found⟩⟩ :=
        (spreads_external rfl).of_calls ⟨_, ran⟩ call member _ enters
      cases Node.Ordered.eq_of_id_eq ordered isInner isNode same
      exact keepsTails_of_pass rfl found (after ▸ pass)
  · intro lang items last walk run log ran
    refine ⟨?_, ?_, fun call member node isNode enters pass => ?_⟩
    · have enters := enters_inline quiet rfl ran []
      rwa [List.append_nil, commandsAt, List.append_nil] at enters
    · rw [← visit_of_inline rfl ran]
      exact phases_calls .inline ordered located _ file startMarker stopMarker
    · obtain ⟨inner, isInner, same, after, ⟨inScope, value, found, unchanged⟩⟩ :=
        (spreads_inline rfl lang).of_calls ⟨lang, _, ran, fun _ => rfl⟩ call member _ enters
      cases Node.Ordered.eq_of_id_eq ordered isInner isNode same
      rw [after] at pass
      -- where a node is passed the range has not begun, so the language is still the one given
      obtain rfl := unchanged (notBegun_of_pass pass)
      exact keepsTextTails_of_pass rfl found pass

/-- A speech of two sentences. -/
def speech : Node :=
  ⟨2, "/r/d[1]/p[1]", .plain "p", [], "b",
    [⟨3, "/r/d[1]/p[1]/s[1]", .plain "s", [(.xml "id", "s")], "S", [], "c"⟩,
     ⟨4, "/r/d[1]/p[1]/t[1]", .plain "t", [(.xml "id", "t")], "T", [], ""⟩], "d"⟩

def scene : Document where
  root := ⟨0, "/r", .plain "r", [], "x",
    [⟨1, "/r/d[1]", .plain "d", [], "a",
      [speech, ⟨5, "/r/d[1]/q[1]", .plain "q", [(.xml "id", "e")], "E", [], "f"⟩], "y"⟩,
     ⟨6, "/r/z[1]", .plain "z", [], "", [], ""⟩], ""⟩
  namespaces := []

/-- A range that leaves the speech shows the tags of the speech and of what is around it up to the
ancestor; one that stays within the speech passes both, and keeps the tail between the sentences. -/
theorem phases_scene :
    let nested := levels (single scene) 0
    let site : Site := ⟨⟨"p", "f"⟩, scene⟩
    (let walk := Walk.within scene ⟨3, 5, 1⟩ .external
      let begin := Walk.start site.file "#s" "#e"
      let run := external (single scene) nested site walk begin scene.root
      ∃ elements last, run.result = .ok (elements, last) ∧
        commandsAt 0 run.trace = [(0, .pass), (1, .copyTag), (2, .copyTag), (3, .copy), (4, .copy),
          (5, .copy), (6, .skip)] ∧
        Phases scene ⟨3, 5, 1⟩ .external begin
          (calls walk (externalHides (single scene) nested site) begin scene.root) last) ∧
    (let walk := Walk.within scene ⟨3, 4, 3⟩ .external
      let begin := Walk.start site.file "#s" "#t"
      ∃ last, (external (single scene) nested site walk begin scene.root).result =
          .ok (speech.children.map Node.toElement, last) ∧
        KeepsTails (single scene) nested site walk begin speech) ∧
    (let walk := Walk.within scene ⟨3, 4, 3⟩ .inline
      let begin := Walk.start site.file "#s" "#t"
      ∃ last, (inline (single scene) nested site walk none begin scene.root).result =
          .ok ([.text "S", .text " ", .text "c", .text "T"], last) ∧
        KeepsTextTails (single scene) nested site walk none begin speech) := by
  intro nested site
  have parsed : Document.parse ("<r>x<d>a<p>b<s xml:id=\"s\">S</s>c<t xml:id=\"t\">T</t></p>d" ++
      "<q xml:id=\"e\">E</q>f</d>y<z/></r>") = .ok scene := by
    cbv
  have isNode : speech ∈ scene.nodes :=
    List.mem_cons_of_mem _ (List.mem_cons_of_mem _ List.mem_cons_self)
  have leaves : Bounds.locate scene "#s" "#e" = .ok ⟨3, 5, 1⟩ := by decide +kernel
  have stays : Bounds.locate scene "#s" "#t" = .ok ⟨3, 4, 3⟩ := by decide +kernel
  refine ⟨?_, ?_, ?_⟩
  · have isOk : (external (single scene) nested site (.within scene ⟨3, 5, 1⟩ .external)
        (Walk.start site.file "#s" "#e") scene.root).result.isOk = true := by decide +kernel
    obtain ⟨⟨elements, last⟩, ran⟩ := Outcome.isOk_iff.mp isOk
    obtain ⟨listed, phases, -⟩ :=
      (phases_of_walk parsed leaves (single scene) 0 site.file).1 elements last ran
    refine ⟨elements, last, ran, listed.trans ?_, phases⟩
    decide +kernel
  · have ran : (external (single scene) nested site (.within scene ⟨3, 4, 3⟩ .external)
        (Walk.start site.file "#s" "#t") scene.root).result =
          .ok (speech.children.map Node.toElement,
            ⟨⟨site.file, some ("#s", "#t"), false, true, false, .skip⟩, false⟩) := by
      decide +kernel
    obtain ⟨-, -, keeps⟩ :=
      (phases_of_walk parsed stays (single scene) 0 site.file).1 _ _ ran
    let entering : Call := ⟨.opening 2, Walk.start site.file "#s" "#t",
      (Walk.within scene ⟨3, 4, 3⟩ .external).enter (Walk.start site.file "#s" "#t") speech⟩
    exact ⟨_, ran, keeps entering (by decide +kernel) speech isNode rfl rfl⟩
  · have ran : (inline (single scene) nested site (.within scene ⟨3, 4, 3⟩ .inline) none
        (Walk.start site.file "#s" "#t") scene.root).result =
          .ok ([.text "S", .text " ", .text "c", .text "T"],
            ⟨⟨site.file, some ("#s", "#t"), false, true, false, .skip⟩, false⟩) := by
      decide +kernel
    obtain ⟨-, -, keeps⟩ :=
      (phases_of_walk parsed stays (single scene) 0 site.file).2 none _ _ ran
    let entering : Call := ⟨.opening 2, Walk.start site.file "#s" "#t",
      (Walk.within scene ⟨3, 4, 3⟩ .inline).enter (Walk.start site.file "#s" "#t") speech⟩
    exact ⟨_, ran, keeps entering (by decide +kernel) speech isNode rfl rfl⟩

end Phases

end Intertext.Compile
