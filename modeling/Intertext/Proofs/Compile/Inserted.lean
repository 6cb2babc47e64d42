import Intertext.Proofs.Compile.Depth
import Intertext.Proofs.Compile.Positions
import Intertext.Proofs.Compile.Tailless
/-!
Notes that are inserted.

Which notes are inserted into an element, and in what order, is a matter of the index and of the
annotations list alone (`noteReferences_eq`): listed projects come one after the other, and of each
project the notes on the element's identifier, by file and then as they were recorded, before those
that name the element within its file. All three walks insert these notes and no others, whatever
frames they have left, and put them before everything else that they show of the element
(`commentary_first`). No text is lost by it: what follows the text of the notes is the text that the
element would have without them.
-/

namespace Intertext.Compile

open Markup (Document Element Node)
open Markup.Element (forestCharacters untailed)
open Index (Tables Reference)

/-! ## 1. The order of the notes -/

variable {tables : Tables} {annotations : List String} {file : SourceFile} {node : Node}
  {reference : Reference}

/-- References may be picked before or after they are put in order. -/
theorem filter_referencesWhere (p q : Reference → Bool) :
    (tables.referencesWhere p).filter q =
      tables.referencesWhere fun reference => q reference && p reference := by
  rw [Tables.referencesWhere, Tables.referencesWhere]
  have commutes := @Text.filter_mergeSort Reference
    (fun a b => Text.lePair (a.file.project, a.file.name) (b.file.project, b.file.name))
    (fun _ _ _ => Text.lePair_trans _ _ _) (fun _ _ => Text.lePair_total _ _) q
  rw [commutes, List.filter_filter]

/-- The references of one project are in the order of their files. -/
theorem referencesWhere_of_project {p : Reference → Bool} {project : String}
    (own : ∀ reference, p reference = true → reference.file.project = project) :
    tables.referencesWhere p = ((tables.references.map (·.row)).filter p).mergeSort
      fun a b => Text.le a.file.name b.file.name := by
  have sorted := @List.map_mergeSort Reference Reference
    (fun a b => Text.lePair (a.file.project, a.file.name) (b.file.project, b.file.name))
    (fun a b => Text.le a.file.name b.file.name) id ((tables.references.map (·.row)).filter p)
    fun a isA b isB => by
      have same : a.file.project = b.file.project :=
        (own a (List.mem_filter.mp isA).2).trans (own b (List.mem_filter.mp isB).2).symm
      rw [Text.lePair, if_pos same]
      rfl
  rwa [List.map_id, List.map_id] at sorted

/-- The references of one file are as they were recorded. -/
theorem referencesWhere_of_file {p : Reference → Bool}
    (own : ∀ reference, p reference = true → reference.file = file) :
    tables.referencesWhere p = (tables.references.map (·.row)).filter p := by
  refine Text.mergeSort_of_ties fun a isA b isB => ?_
  have inFile := own a (List.mem_filter.mp isA).2
  have inFile' := own b (List.mem_filter.mp isB).2
  rw [inFile, inFile', Text.lePair, if_pos rfl, Text.le]
  exact decide_eq_true (String.le_refl _)

/-- The references that have an element's identifier for a target, as they were recorded. -/
def addressed (tables : Tables) (node : Node) : List Reference :=
  match node.corresp? with
  | some urn => (tables.references.map (·.row)).filter (·.targetStart = urn)
  | none => []

/-- The references that name an element from within its file, as they were recorded. -/
def namings (tables : Tables) (file : SourceFile) (node : Node) : List Reference :=
  match node.xmlId? with
  | some id =>
    (tables.references.map (·.row)).filter fun reference =>
      reference.targetStart = Tables.fragmentTarget id && reference.isLocal && reference.file = file
  | none => []

/-- The notes of a project on an element's identifier: by file, then as they were recorded. -/
def correspNotes (tables : Tables) (node : Node) (project : String) : List Reference :=
  ((addressed tables node).filter fun reference =>
      reference.file.project = project && reference.tag = noteTag)
    |>.mergeSort fun a b => Text.le a.file.name b.file.name

/-- The notes that name an element from within its file, as they were recorded: those that are not
on the element's identifier as well, and no note twice. -/
def idNotes (tables : Tables) (file : SourceFile) (node : Node) : List Reference :=
  (unseen (addressed tables node) (namings tables file node)).filter (·.tag = noteTag)

/-- What is new does not depend on the order of what is found already. -/
theorem unseen_congr : ∀ {found others more : List Reference},
    (∀ p, found.any p = others.any p) → unseen found more = unseen others more
  | _, _, [], _ => rfl
  | found, others, first :: rest, same => by
    have below : unseen (found ++ [first]) rest = unseen (others ++ [first]) rest :=
      unseen_congr fun p => by rw [List.any_append, List.any_append, same]
    rw [unseen, unseen, same, unseen_congr same, below]

/-- What names an element is found after what has its identifier for a target. -/
theorem referencesTo_eq :
    tables.referencesTo node.corresp? (node.xmlId?.map (·, file)) =
      tables.referencesTo node.corresp? none ++
        unseen (addressed tables node) (namings tables file node) := by
  have sameFound (p : Reference → Bool) :
      (tables.referencesTo node.corresp? none).any p = (addressed tables node).any p := by
    unfold addressed
    cases node.corresp? with
    | none => rfl
    | some urn => exact (List.mergeSort_perm _ _).any_eq
  rw [← unseen_congr sameFound]
  unfold namings
  cases node.xmlId? with
  | none => exact (List.append_nil _).symm
  | some id =>
    rw [← addNew_eq]
    refine congrArg (Tables.addNew _) (@referencesWhere_of_file tables file _ ?_)
    intro reference holds
    simp only [Bool.and_eq_true, decide_eq_true_eq] at holds
    exact holds.2

theorem ofProject_correspNotes (project : String) :
    ((tables.referencesTo node.corresp? none).filter (·.tag = noteTag)).filter
        (·.file.project = project) = correspNotes tables node project := by
  unfold correspNotes addressed
  cases node.corresp? with
  | none => exact List.mergeSort_nil.symm
  | some urn =>
    rw [show tables.referencesTo (some urn) none = tables.referencesWhere (·.targetStart = urn)
      from rfl, filter_referencesWhere, filter_referencesWhere, List.filter_filter]
    simp only [Bool.and_assoc]
    refine @referencesWhere_of_project tables _ project fun reference holds => ?_
    simp only [Bool.and_eq_true, decide_eq_true_eq] at holds
    exact holds.1

theorem ofProject_idNotes (project : String) :
    (idNotes tables file node).filter (·.file.project = project) =
      if project = file.project then idNotes tables file node else [] := by
  have inFile : ∀ reference ∈ idNotes tables file node, reference.file = file := by
    intro reference member
    have isNaming := mem_of_mem_unseen (List.mem_filter.mp member).1
    unfold namings at isNaming
    split at isNaming
    · have holds := (List.mem_filter.mp isNaming).2
      simp only [Bool.and_eq_true, decide_eq_true_eq] at holds
      exact holds.2
    · cases isNaming
  split
  · rename_i own
    exact List.filter_eq_self.mpr fun reference member => by simp [inFile reference member, own]
  · rename_i other
    exact List.filter_eq_nil_iff.mpr fun reference member => by
      simpa [inFile reference member] using Ne.symm other

/-- *The notes that refer to an element, best first:* one listed project after the other, of each
the notes on the element's identifier, and after these, in the element's own project, the notes that
name the element from within its file. -/
theorem noteReferences_eq :
    noteReferences tables annotations file node =
      annotations.eraseDups.flatMap fun project =>
        correspNotes tables node project ++
          if project = file.project then idNotes tables file node else [] := by
  rw [noteReferences, Priority.ranked_eq_flatMap, referencesTo_eq]
  congr 1
  funext project
  rw [← ofProject_correspNotes, ← ofProject_idNotes, idNotes, ← List.filter_append,
    ← List.filter_append]
  rfl

/-! ## 2. What the notes come to -/

variable {library : Library} {nested : Nested} {site : Site} {notes others : List Element}

/-- The references of the notes that are inserted into an element, in order. -/
def Library.noteRows (library : Library) (file : SourceFile) (node : Node) : List Reference :=
  match library.tables with
  | some tables =>
    library.settings.annotations.eraseDups.flatMap fun project =>
      correspNotes tables node project ++
        if project = file.project then idNotes tables file node else []
  | none => []

theorem noteRows_of_nameless (nameless : (node.corresp?.isNone && node.xmlId?.isNone) = true) :
    library.noteRows file node = [] := by
  rw [Bool.and_eq_true, Option.isNone_iff_eq_none, Option.isNone_iff_eq_none] at nameless
  unfold Library.noteRows correspNotes idNotes addressed namings
  rw [nameless.1, nameless.2]
  split
  · exact List.flatMap_eq_nil_iff.mpr fun project _ => by simp [unseen]
  · rfl

/-- Whether notes are what the references to an element come to, one for each and in order. -/
def CommentaryOf (library : Library) (site : Site) (node : Node) (notes : List Element) : Prop :=
  ∃ frames, List.Forall₂ (fun reference note =>
    (noteOf library (levels library frames) site node reference).result = .ok note)
      (library.noteRows site.file node) notes

/-- Frames that allow a copy of a node give the same copy if there are more of them. -/
theorem copy_levels_of_le {home : Option SourceFile} {element : Element} :
    ∀ {frames more : Nat}, frames ≤ more →
      ((levels library frames).copy home file (some node)).result = .ok element →
        ((levels library more).copy home file (some node)).result = .ok element
  | 0, _, _, ran => absurd ran copy_level_none_ne_ok
  | frames + 1, 0, le, _ => absurd le (Nat.not_succ_le_zero frames)
  | frames + 1, more + 1, le, ran => by
    obtain ⟨document, found, reads, copied, rfl⟩ := copy_level_eq_ok.mp ran
    exact copy_level_eq_ok.mpr
      ⟨document, found, reads, copyNote_of_le (Nat.le_of_succ_le_succ le) copied, rfl⟩

theorem noteOf_of_le {frames more : Nat} (le : frames ≤ more) {note : Element}
    (ran : (noteOf library (levels library frames) site node reference).result = .ok note) :
    (noteOf library (levels library more) site node reference).result = .ok note := by
  obtain ⟨source, found, copied, reads, isThere, copies, rfl⟩ := noteOf_eq_ok.mp ran
  exact noteOf_eq_ok.mpr
    ⟨source, found, copied, reads, isThere, copy_levels_of_le le copies, rfl⟩

/-- What the notes come to does not depend on the frames that are left. -/
theorem CommentaryOf.unique (commentary : CommentaryOf library site node notes)
    (commentary' : CommentaryOf library site node others) : notes = others := by
  obtain ⟨frames, made⟩ := commentary
  obtain ⟨frames', made'⟩ := commentary'
  -- with the larger number of frames both lists are made by the same runs
  have more := made.imp fun _ _ => noteOf_of_le (Nat.le_max_left frames frames')
  have more' := made'.imp fun _ _ => noteOf_of_le (Nat.le_max_right frames frames')
  refine List.right_unique_forall₂' (fun reference note other ran ran' => ?_) more more'
  exact Except.ok.inj (ran.symm.trans ran')

/-- There is one list of notes at most that can be inserted into an element. -/
theorem only_commentary (library : Library) (site : Site) (node : Node) :
    ∃ notes, ∀ others, CommentaryOf library site node others → others = notes := by
  by_cases some : ∃ notes, CommentaryOf library site node notes
  · obtain ⟨notes, commentary⟩ := some
    exact ⟨notes, fun others commentary' => commentary'.unique commentary⟩
  · exact ⟨[], fun others commentary => absurd ⟨others, commentary⟩ some⟩

theorem tail_of_noteOf {frames : Nat} {note : Element}
    (ran : (noteOf library (levels library frames) site node reference).result = .ok note) :
    note.tail = "" := by
  obtain ⟨source, found, copied, -, -, copies, rfl⟩ := noteOf_eq_ok.mp ran
  rw [tail_stampLang]
  exact tailless_levels frames _ _ _ _ copies

/-- A note that is inserted has no tail. -/
theorem CommentaryOf.tailless (commentary : CommentaryOf library site node notes) :
    ∀ note ∈ notes, note.tail = "" := by
  obtain ⟨frames, made⟩ := commentary
  generalize library.noteRows site.file node = references at made
  induction made with
  | nil => exact List.forall_mem_nil _
  | cons ran _ ih => exact List.forall_mem_cons.mpr ⟨tail_of_noteOf ran, ih⟩

/-- What applies to an element that is not replaced are the notes that refer to it. -/
theorem commentaryOf_of_annotate {frames : Nat} {applied : Annotation}
    (unreplaced : Role.of node = .instruction → node.corresp? = none)
    (found : (annotate library (levels library frames) site node).result = .ok applied) :
    CommentaryOf library site node applied.notes := by
  have found : (commentary library (levels library frames) site node).result = .ok applied := by
    unfold annotate at found
    split at found
    · rename_i urn role named
      exact absurd (named.symm.trans (unreplaced role)) (by simp)
    · exact found
  refine ⟨frames, ?_⟩
  obtain ⟨nameless, rfl⟩ | ⟨tables, notes, asked, ran, applies⟩ := commentary_cases found
  · -- an element without identifier and name is not looked up at all
    rw [noteRows_of_nameless nameless]
    exact .nil
  · rw [Library.noteRows, asked]
    dsimp only
    rw [← noteReferences_eq]
    obtain ⟨rfl, rfl⟩ | rfl := applies
    · exact forall₂_of_mapM ran
    · exact forall₂_of_mapM ran

/-! ## 3. Where the notes stand -/

/-- The text of notes that have no tail. -/
theorem forestCharacters_of_tailless : ∀ {forest : List Element},
    (∀ element ∈ forest, element.tail = "") →
      forestCharacters forest = String.join (forest.map (·.characters))
  | [], _ => rfl
  | first :: rest, tailless => by
    rw [List.map_cons, String.join_cons, forestCharacters, tailless first List.mem_cons_self,
      String.append_empty, forestCharacters_of_tailless fun element member =>
        tailless element (List.mem_cons_of_mem _ member)]

theorem map_untailed_of_tailless {forest : List Element}
    (tailless : ∀ element ∈ forest, element.tail = "") : forest.map untailed = forest := by
  refine (List.map_congr_left fun element member => ?_).trans (List.map_id forest)
  have noTail := tailless element member
  obtain ⟨name, attributes, text, children, tail⟩ := element
  cases noTail
  rfl

/-- Whether an element is another one with notes put before everything in it. -/
structure Prefaced (notes : List Element) (bare element : Element) : Prop where
  name : element.name = bare.name
  attributes : element.attributes = bare.attributes
  tail : element.tail = bare.tail
  /-- The notes come first, and the other element's children after them. The last note is followed
  by the text that the other element begins with. -/
  children : ∃ placed, placed.map untailed = notes ∧ element.children = placed ++ bare.children
  characters : element.characters = String.join (notes.map (·.characters)) ++ bare.characters

theorem prefaced_insertNotes (tailless : ∀ note ∈ notes, note.tail = "") (bare : Element) :
    Prefaced notes bare (insertNotes notes bare) where
  name := name_insertNotes ..
  attributes := attributes_insertNotes ..
  tail := tail_insertNotes ..
  children := by
    have own := map_untailed_of_tailless tailless
    rcases List.eq_nil_or_concat notes with rfl | ⟨before, last, rfl⟩
    · exact ⟨[], rfl, rfl⟩
    · rw [List.concat_eq_append] at own ⊢
      rw [insertNotes, setLastTail?_concat]
      refine ⟨_, Eq.trans ?_ own, rfl⟩
      rw [List.map_append, List.map_append]
      rfl
  characters := by
    rw [characters_insertNotes bare tailless, forestCharacters_of_tailless tailless]

/-- What a frame of the same file gives for a node is a copy without notes. -/
theorem copies_of_copy (reads : library.document site.file = .ok site.document) {frames : Nat}
    (noDirective : Role.of node ≠ .directive) {element : Element}
    (ran : ((levels library frames).copy (some site.file) site.file (some node)).result =
      .ok element) :
    ∃ fewer copies,
      (copyForest library (levels library fewer) site node.children).result = .ok copies ∧
      element = withChildren node copies := by
  cases frames with
  | zero => exact absurd ran copy_level_none_ne_ok
  | succ fewer =>
    obtain ⟨document, found, reads', copied, rfl⟩ := copy_level_eq_ok.mp ran
    cases reads.symm.trans reads'
    obtain ⟨copies, below, rfl⟩ := (copyNote_eq_ok noDirective).mp copied
    exact ⟨fewer, copies, below, by rw [stampForeign, if_pos rfl]⟩

/-! ## 4. Three walks -/

/-- Whether an element is a copy of a node with notes in it, and after them the copies of the node's
children. -/
def CopiedWith (library : Library) (nested : Nested) (site : Site) (node : Node)
    (notes : List Element) (element : Element) : Prop :=
  ∃ copies, (copyForest library nested site node.children).result = .ok copies ∧
    Prefaced notes (withChildren node copies) element

/-- Whether all that a walk which extracts structure shows of a node is an element with notes in it,
and after them what the walk shows of the node's children. -/
def ExtractedWith (library : Library) (nested : Nested) (site : Site) (walk : Walk)
    (progress : Progress) (node : Node) (notes elements : List Element) : Prop :=
  ∃ pieces inside element,
    (externalForest library nested site walk (walk.enter progress node) node.children).result =
      .ok (pieces, inside) ∧
    elements = [element] ∧
    Prefaced notes (fill { node.shell with text := node.text } pieces) element

/-- What a walk that extracts text shows of a node without notes, and what it shows with them. -/
inductive ReadWith (library : Library) (nested : Nested) (site : Site) (walk : Walk)
    (lang : Option String) (progress : Progress) (node : Node) (notes : List Element) :
    List Item → List Item → Prop where
  /-- The notes stand before the text, within the container that declares its language. -/
  | text {inner : List Item} {inside : Progress} (noInstruction : Role.of node ≠ .instruction)
    (below : (inlineForest library nested site walk (changedLang? node lang <|> lang)
      (walk.enter progress node) node.children).result = .ok (inner, inside)) :
    ReadWith library nested site walk lang progress node notes
      (inLang (changedLang? node lang) (.text node.text :: inner))
      (inLang (changedLang? node lang) (notes.map .element ++ .text node.text :: inner))
  /-- An instruction stays an element and has the notes in it. -/
  | instruction {fewer : Nat} {copies : List Element} {element : Element}
    (role : Role.of node = .instruction)
    (below : (copyForest library (levels library fewer) site node.children).result = .ok copies)
    (prefaced : Prefaced notes (withChildren node copies) element) :
    ReadWith library nested site walk lang progress node notes
      [.element (withChildren node copies)] [.element element]

section

variable {walk : Walk} {frames : Nat}
  (unreplaced : Role.of node = .instruction → node.corresp? = none)

include unreplaced

theorem not_replaced {applied : Annotation}
    (found : (annotate library nested site node).result = .ok applied) (note : Element) :
    applied ≠ .replace note := by
  rintro rfl
  obtain ⟨instruction, named⟩ := instruction_of_replace found
  exact named (unreplaced instruction)

/-- What an element with an annotation comes to that is not replaced. -/
theorem prefaced_of_annotate {applied : Annotation} (bare : Element)
    (found : (annotate library (levels library frames) site node).result = .ok applied) :
    CommentaryOf library site node applied.notes ∧
      Prefaced applied.notes bare (insertNotes applied.notes bare) := by
  have commentary := commentaryOf_of_annotate unreplaced found
  exact ⟨commentary, prefaced_insertNotes commentary.tailless bare⟩

variable (noDirective : Role.of node ≠ .directive)

include noDirective

theorem commentary_of_copy {element : Element}
    (ran : (copy library (levels library frames) site node).result = .ok element) :
    ∃ notes, CommentaryOf library site node notes ∧
      CopiedWith library (levels library frames) site node notes element := by
  cases copyStep_iff.mp ran with
  | directive role found => exact absurd role noDirective
  | replaced role found => exact absurd rfl (not_replaced unreplaced found _)
  | copied role found kept below =>
    obtain ⟨commentary, prefaced⟩ := prefaced_of_annotate unreplaced _ found
    exact ⟨_, commentary, _, below, prefaced⟩

theorem commentary_of_external {progress after : Progress} {elements : List Element}
    (command : (walk.enter progress node).frame.command = .copy)
    (ran : (external library (levels library frames) site walk progress node).result =
      .ok (elements, after)) :
    ∃ notes, CommentaryOf library site node notes ∧
      ExtractedWith library (levels library frames) site walk progress node notes elements := by
  obtain ⟨role, -⟩ | ⟨-, note, found, -⟩ |
    ⟨-, applied, pieces, inside, found, kept, below, rfl, -⟩ :=
      (externalStep_of_ok ran).of_copy command
  · exact absurd role noDirective
  · exact absurd rfl (not_replaced unreplaced found _)
  · obtain ⟨commentary, prefaced⟩ := prefaced_of_annotate unreplaced _ found
    exact ⟨_, commentary, _, _, _, below, rfl, prefaced⟩

theorem commentary_of_inline (reads : library.document site.file = .ok site.document)
    {lang : Option String} {progress after : Progress} {items : List Item}
    (command : (walk.enter progress node).frame.command = .copyText)
    (ran : (inline library (levels library frames) site walk lang progress node).result =
      .ok (items, after)) :
    ∃ notes bare, CommentaryOf library site node notes ∧
      ReadWith library (levels library frames) site walk lang progress node notes bare items := by
  obtain ⟨role, -⟩ | ⟨role, note, found, rfl, -⟩ |
    ⟨⟨-, noInstruction⟩, applied, others, inside, found, below, rfl, -⟩ :=
      (inlineStep_of_ok ran).of_copyText command
  · exact absurd role noDirective
  · obtain replaced | ⟨applied, copied, annotated, kept, itself, rfl⟩ :=
      inlineInstruction_eq_ok.mp found
    · exact absurd rfl (not_replaced unreplaced replaced _)
    · obtain ⟨fewer, copies, below, rfl⟩ := copies_of_copy reads noDirective itself
      obtain ⟨commentary, prefaced⟩ :=
        prefaced_of_annotate unreplaced (withChildren node copies) annotated
      exact ⟨_, _, commentary, .instruction role below prefaced⟩
  · exact ⟨_, _, commentaryOf_of_annotate unreplaced found, .text noInstruction below⟩

end

/-- Extracted text has the text of the notes before that which it would have without them. -/
theorem ReadWith.itemsCharacters {walk : Walk} {lang : Option String} {progress : Progress}
    {bare items : List Item} (commentary : CommentaryOf library site node notes)
    (reading : ReadWith library nested site walk lang progress node notes bare items) :
    itemsCharacters items =
      String.join (notes.map (·.characters)) ++ Compile.itemsCharacters bare := by
  cases reading with
  | text noInstruction below =>
    rw [itemsCharacters_inLang, itemsCharacters_inLang, itemsCharacters_append,
      itemsCharacters_elements, forestCharacters_of_tailless commentary.tailless]
  | instruction role below prefaced =>
    simp only [Compile.itemsCharacters, Item.characters, prefaced.characters, prefaced.tail,
      String.append_assoc]

/-- *All walks insert the same notes, first and in order, and lose no text.* For an element that is
neither replaced nor a directive there is one list of notes that every walk inserts which succeeds,
with however many frames: what the references to the element come to, one for each and in order. A
copy, and an element that structure is extracted from, has the notes first, then the children it
would have without them, and its text after the text of the notes. So does extracted text. -/
theorem commentary_first (reads : library.document site.file = .ok site.document)
    (noDirective : Role.of node ≠ .directive)
    (unreplaced : Role.of node = .instruction → node.corresp? = none) :
    ∃ notes, ∀ frames : Nat,
      (∀ element, (copy library (levels library frames) site node).result = .ok element →
        CommentaryOf library site node notes ∧
          CopiedWith library (levels library frames) site node notes element) ∧
      (∀ walk progress elements after, (walk.enter progress node).frame.command = .copy →
        (external library (levels library frames) site walk progress node).result =
          .ok (elements, after) →
        CommentaryOf library site node notes ∧
          ExtractedWith library (levels library frames) site walk progress node notes elements) ∧
      ∀ walk lang progress items after, (walk.enter progress node).frame.command = .copyText →
        (inline library (levels library frames) site walk lang progress node).result =
          .ok (items, after) →
        CommentaryOf library site node notes ∧
          ∃ bare, ReadWith library (levels library frames) site walk lang progress node notes bare
              items ∧
            itemsCharacters items =
              String.join (notes.map (·.characters)) ++ itemsCharacters bare := by
  obtain ⟨notes, only⟩ := only_commentary library site node
  refine ⟨notes, fun frames => ⟨?_, ?_, ?_⟩⟩
  · intro element ran
    obtain ⟨others, commentary, copied⟩ := commentary_of_copy unreplaced noDirective ran
    cases only others commentary
    exact ⟨commentary, copied⟩
  · intro walk progress elements after command ran
    obtain ⟨others, commentary, extracted⟩ :=
      commentary_of_external unreplaced noDirective command ran
    cases only others commentary
    exact ⟨commentary, extracted⟩
  · intro walk lang progress items after command ran
    obtain ⟨others, bare, commentary, reading⟩ :=
      commentary_of_inline unreplaced noDirective reads command ran
    cases only others commentary
    exact ⟨commentary, bare, reading, reading.itemsCharacters commentary⟩

/-- An element that notes of several projects refer to. -/
def glossedPart : Node :=
  ⟨1, "/text/p[1]", .tei "p", [(.plain "corresp", "urn:x-opensiddur:u"), (.xml "id", "x")], "P",
    [⟨2, "/text/p[1]/hi[1]", .tei "hi", [], "H", [], "T"⟩], ""⟩

/-- The document of the element, with a note that names it. -/
def glossed : Document where
  root := ⟨0, "/text", .tei "text", [], "", [glossedPart,
    ⟨3, "/text/note[1]", .tei "note", [(.plain "target", "#x")], "L", [], ""⟩], ""⟩
  namespaces := [(none, "http://www.tei-c.org/ns/1.0")]

/-- The place of that document. -/
def glossedSite : Site := ⟨⟨"A", "a.xml"⟩, glossed⟩

/-- A document that is a note on the element, with the project's name for its text. -/
def glossOf (project : String) : Document where
  root := ⟨0, "/note", .tei "note", [(.plain "target", "urn:x-opensiddur:u")], project, [], ""⟩
  namespaces := [(none, "http://www.tei-c.org/ns/1.0")]

/-- The reference that such a note makes. -/
def glossRow (file : SourceFile) : Reference :=
  ⟨"/note", noteTag, none, "urn:x-opensiddur:u", "urn:x-opensiddur:u", false, none, file⟩

/-- The reference of the note that names the element. -/
def nameRow : Reference :=
  ⟨"/text/note[1]", noteTag, none, "#x", "#x", true, none, glossedSite.file⟩

/-- An index of the notes. -/
def glossRows : Tables :=
  ⟨[], [⟨nameRow, 0⟩, ⟨glossRow ⟨"C", "n.xml"⟩, 0⟩, ⟨glossRow ⟨"A", "n.xml"⟩, 0⟩,
    ⟨glossRow ⟨"D", "n.xml"⟩, 0⟩], []⟩

/-- A library of these documents, which lists the projects of the notes. -/
def glosses : Library where
  settings := ⟨[], [], ["D", "A", "C"], 3⟩
  tables := some glossRows
  document file := .ok (if file = glossedSite.file then glossed else glossOf file.project)

/-- Project after project, in each the notes on the identifier first. -/
theorem noteReferences_glossed :
    noteReferences glossRows glosses.settings.annotations glossedSite.file glossedPart =
      [glossRow ⟨"D", "n.xml"⟩, glossRow ⟨"A", "n.xml"⟩, nameRow, glossRow ⟨"C", "n.xml"⟩] := by
  rw [noteReferences_eq]
  decide +kernel

/-- In a copy of the element the notes stand first, in that order, and its text is not lost. -/
theorem glossed_first : ∃ notes element,
    (copy glosses (levels glosses 2) glossedSite glossedPart).result = .ok element ∧
    CommentaryOf glosses glossedSite glossedPart notes ∧
    CopiedWith glosses (levels glosses 2) glossedSite glossedPart notes element ∧
    element.characters = "DALCPHT" := by
  have made : ((noteReferences glossRows glosses.settings.annotations glossedSite.file
      glossedPart).mapM (noteOf glosses (levels glosses 2) glossedSite glossedPart)).result.map
        (·.map Element.characters) = .ok ["D", "A", "L", "C"] := by
    rw [noteReferences_glossed]
    decide +kernel
  obtain ⟨notes, ran, texts⟩ := Outcome.map_eq_ok.mp made
  have found : (annotate glosses (levels glosses 2) glossedSite glossedPart).result =
      .ok (.insert notes) := by
    refine Run.bind_eq_ok.mpr ⟨glossRows, rfl, Run.bind_eq_ok.mpr ⟨notes, ran, ?_⟩⟩
    rw [if_neg (by rintro empty; rw [List.isEmpty_iff.mp empty] at texts; cases texts)]
    rfl
  have below : (copyForest glosses (levels glosses 2) glossedSite glossedPart.children).result =
      .ok [⟨.tei "hi", [], "H", [], "T"⟩] := by
    decide +kernel
  have copied : (copy glosses (levels glosses 2) glossedSite glossedPart).result =
      .ok (insertNotes notes (withChildren glossedPart [⟨.tei "hi", [], "H", [], "T"⟩])) :=
    copyStep_iff.mpr (.copied (by decide) found (fun _ => nofun) below)
  have tailless : ∀ note ∈ notes, note.tail = "" :=
    (commentaryOf_of_annotate (by decide) found).tailless
  obtain ⟨inserted, all⟩ := @commentary_first glossedPart glosses glossedSite rfl (by decide)
    (by decide)
  obtain ⟨commentary, copies⟩ := (all 2).1 _ copied
  refine ⟨inserted, _, copied, commentary, copies, ?_⟩
  have text : String.join (notes.map (·.characters)) = "DALC" := by
    rw [texts]
    decide
  rw [characters_insertNotes _ tailless, forestCharacters_of_tailless tailless, text]
  decide

end Intertext.Compile
