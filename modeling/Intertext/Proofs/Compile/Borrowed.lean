import Mathlib.Data.List.Forall2
import Intertext.Proofs.Compile.Steps
import Intertext.Proofs.Urn.Priority
/-!
What a walk borrows from other frames.

Two things are not made by the walk that shows them. A directive is replaced by a wrapper around
what another frame extracts (`transclude_eq_ok`). A note that applies to an element is a copy that
another frame made of a node to which a row of the index leads (`Borrowed`); nothing else is ever
inserted, and nothing else takes the place of an element.
-/

namespace Intertext.Compile

open Markup (Element Node Document)
open Index (Tables Mapping Reference)

variable {library : Library} {nested : Nested} {site : Site} {node : Node}

/-! ## 1. Directives

A directive gives way to a wrapper, which keeps nothing of the directive but its targets. What is
put into the wrapper is asked of another frame, for the file that the target is in. -/

/-- A wrapper is filled with elements, or with the text and the children of a container. -/
theorem filled_eq_ok {target : Target} {extraction : Extraction} {element found : Element} :
    (filled nested target extraction element).result = .ok found ↔
      match extraction with
      | .external => ∃ children,
          (nested.external target.file target.start target.stop).result = .ok children ∧
            found = { element with children }
      | .inline => ∃ container,
          (nested.inline target.file target.start target.stop).result = .ok container ∧
            found = { element with text := container.text, children := container.children } := by
  cases extraction with
  | external =>
    refine Run.bind_eq_ok.trans (exists_congr fun children => and_congr_right ?_)
    intro _
    exact ⟨fun h => by cases h; rfl, fun h => by cases h; rfl⟩
  | inline =>
    refine Run.bind_eq_ok.trans (exists_congr fun container => and_congr_right ?_)
    intro _
    exact ⟨fun h => by cases h; rfl, fun h => by cases h; rfl⟩

/-- Filling a wrapper leaves its tag as it is. -/
theorem tag_filled {target : Target} {extraction : Extraction} {element found : Element}
    (h : (filled nested target extraction element).result = .ok found) :
    found.name = element.name ∧ found.attributes = element.attributes := by
  have fills := filled_eq_ok.mp h
  cases extraction with
  | external =>
    obtain ⟨children, -, rfl⟩ := fills
    exact ⟨rfl, rfl⟩
  | inline =>
    obtain ⟨container, -, rfl⟩ := fills
    exact ⟨rfl, rfl⟩

/-- What replaces a directive. -/
theorem transclude_eq_ok {extraction : Extraction} {element : Element}
    (h : (transclude library nested site node extraction).result = .ok element) :
    ∃ start target found source, node.value? (.plain "target") = some start ∧
      (Target.locate library site.file start (node.value? (.plain "targetEnd"))).result =
        .ok target ∧
      (filled nested target extraction
        (wrapper start (node.value? (.plain "targetEnd")) extraction)).result = .ok found ∧
      library.document target.file = .ok source ∧
      element = stampLang (stampForeign found (some site.file) target.file)
        (langAt? source target.start) (site.document.lang? node.id) := by
  unfold transclude at h
  split at h
  · cases h
  · rename_i start given
    obtain ⟨target, located, h⟩ := Run.bind_eq_ok.mp h
    obtain ⟨found, fills, h⟩ := Run.bind_eq_ok.mp h
    obtain ⟨source, reads, h⟩ := Run.bind_eq_ok.mp h
    rw [Library.result_read] at reads
    cases h
    exact ⟨start, target, found, source, given, located, fills, reads, rfl⟩

/-! ## 2. Notes

Notes are found by asking the tables, and each answer is one of their rows. So whatever order and
whatever choice there is among the answers, what is inserted is a copy of a node that a row leads
to. -/

/-- Whether a row of the index says that there is a note at that path of the file. -/
def NoteRow (library : Library) (file : SourceFile) (path : String) : Prop :=
  ∃ tables, library.tables = some tables ∧
    ((∃ reference ∈ tables.references.map (·.row), reference.tag = noteTag ∧
        reference.file = file ∧ reference.path = path) ∨
      ∃ mapping ∈ tables.mappings.map (·.row), mapping.tag = some noteTag ∧
        mapping.file = file ∧ mapping.path = some path)

/-- A note that applies to a node, as a copy that another frame made. -/
inductive Borrowed (library : Library) (nested : Nested) (site : Site) (node : Node) :
    Element → Prop where
  | note {file : SourceFile} {path : String} {source : Document} {found : Node} {copied : Element}
    (row : NoteRow library file path) (reads : library.document file = .ok source)
    (isThere : source.byPath? path = some found)
    (copies : (nested.copy (some site.file) file (some found)).result = .ok copied) :
    Borrowed library nested site node
      (stampLang copied (source.lang? found.id) (site.document.lang? node.id))

/-- Asking the tables gives them if there are any. -/
theorem ask_eq_ok {tables : Tables} :
    library.ask.result = .ok tables ↔ library.tables = some tables := by
  unfold Library.ask
  cases library.tables with
  | none => simp
  | some found => simp

/-- The references of elements that have none in a list, the first of each element. -/
def unseen (found : List Reference) : List Reference → List Reference
  | [] => []
  | first :: rest =>
    if found.any (Tables.sameElement first) then unseen found rest
    else first :: unseen (found ++ [first]) rest

/-- Adding what is new keeps what was found and puts the rest after it. -/
theorem addNew_eq : ∀ found more : List Reference,
    Tables.addNew found more = found ++ unseen found more
  | found, [] => (List.append_nil found).symm
  | found, first :: rest => by
    have step : Tables.addNew found (first :: rest) =
        Tables.addNew (if found.any (Tables.sameElement first) then found else found ++ [first])
          rest := rfl
    rw [step, addNew_eq, unseen]
    split
    · rfl
    · rw [List.append_assoc, List.singleton_append]

theorem mem_of_mem_unseen {reference : Reference} : ∀ {found more : List Reference},
    reference ∈ unseen found more → reference ∈ more
  | found, first :: rest, member => by
    rw [unseen] at member
    split at member
    · exact List.mem_cons_of_mem _ (mem_of_mem_unseen member)
    · exact (List.mem_cons.mp member).elim (fun same => List.mem_cons.mpr (Or.inl same))
        fun later => List.mem_cons_of_mem _ (mem_of_mem_unseen later)

theorem mem_of_mem_addNew {found more : List Reference} {reference : Reference}
    (h : reference ∈ Tables.addNew found more) : reference ∈ found ∨ reference ∈ more := by
  rw [addNew_eq] at h
  exact (List.mem_append.mp h).imp_right mem_of_mem_unseen

theorem mem_of_mem_referencesWhere {tables : Tables} {p : Reference → Bool} {reference : Reference}
    (h : reference ∈ tables.referencesWhere p) : reference ∈ tables.references.map (·.row) :=
  (List.mem_filter.mp (List.mem_mergeSort.mp h)).1

/-- References to an element are rows of the tables. -/
theorem mem_of_mem_referencesTo {tables : Tables} {urn : Option String}
    {fragment : Option (String × SourceFile)} {reference : Reference}
    (h : reference ∈ tables.referencesTo urn fragment) :
    reference ∈ tables.references.map (·.row) := by
  cases urn with
  | none =>
    cases fragment with
    | none => cases h
    | some place =>
      rcases mem_of_mem_addNew h with h | h
      · cases h
      · exact mem_of_mem_referencesWhere h
  | some urn =>
    cases fragment with
    | none => exact mem_of_mem_referencesWhere h
    | some place =>
      rcases mem_of_mem_addNew h with h | h
      · exact mem_of_mem_referencesWhere h
      · exact mem_of_mem_referencesWhere h

/-- The note that makes a reference is a copy of the node at the reference's path. -/
theorem noteOf_eq_ok {reference : Reference} {note : Element} :
    (noteOf library nested site node reference).result = .ok note ↔
      ∃ source found copied, library.document reference.file = .ok source ∧
        source.byPath? reference.path = some found ∧
        (nested.copy (some site.file) reference.file (some found)).result = .ok copied ∧
        note = stampLang copied (source.lang? found.id) (site.document.lang? node.id) := by
  refine Run.bind_eq_ok.trans (exists_congr fun source => ?_)
  rw [Library.result_read]
  cases isThere : source.byPath? reference.path with
  | none =>
    constructor
    · rintro ⟨-, h⟩
      cases h
    · rintro ⟨found, copied, -, isThere', -⟩
      cases isThere'
  | some found =>
    constructor
    · rintro ⟨reads, h⟩
      obtain ⟨copied, copies, h⟩ := Run.bind_eq_ok.mp h
      cases h
      exact ⟨found, copied, reads, rfl, copies, rfl⟩
    · rintro ⟨found', copied, reads, isThere', copies, rfl⟩
      cases isThere'
      exact ⟨reads, Run.bind_eq_ok.mpr ⟨copied, copies, rfl⟩⟩

/-- A note that makes a reference is borrowed. -/
theorem borrowed_of_noteOf {reference : Reference} {note : Element}
    (row : NoteRow library reference.file reference.path)
    (h : (noteOf library nested site node reference).result = .ok note) :
    Borrowed library nested site node note := by
  obtain ⟨source, found, copied, reads, isThere, copies, rfl⟩ := noteOf_eq_ok.mp h
  exact .note row reads isThere copies

/-- Where each value was run, each result is the one of its value. -/
theorem forall₂_of_mapM {α β : Type} {action : α → Run β} :
    ∀ {values : List α} {results : List β}, (values.mapM action).result = .ok results →
      List.Forall₂ (fun value result => (action value).result = .ok result) values results
  | [], results, h => by
    rw [List.mapM_nil] at h
    cases h
    exact .nil
  | first :: rest, results, h => by
    rw [List.mapM_cons] at h
    obtain ⟨head, ran, h⟩ := Run.bind_eq_ok.mp h
    obtain ⟨others, below, h⟩ := Run.bind_eq_ok.mp h
    cases h
    exact .cons ran (forall₂_of_mapM below)

/-- Every result comes from one of the values. -/
theorem mapM_eq_ok {α β : Type} {action : α → Run β} {values : List α} {results : List β}
    (ran : (values.mapM action).result = .ok results) :
    ∀ result ∈ results, ∃ value ∈ values, (action value).result = .ok result := by
  intro result member
  obtain ⟨sameLength, each⟩ := List.forall₂_iff_get.mp (forall₂_of_mapM ran)
  obtain ⟨i, inResults, rfl⟩ := List.mem_iff_getElem.mp member
  have inValues : i < values.length := by omega
  exact ⟨values[i], List.getElem_mem inValues, each i inValues inResults⟩

/-- What applies to a node is nothing but borrowed notes. -/
def Annotation.AllBorrowed (library : Library) (nested : Nested) (site : Site) (node : Node) :
    Annotation → Prop
  | replace note => Borrowed library nested site node note
  | applied => ∀ note ∈ applied.notes, Borrowed library nested site node note

/-- Nothing is looked up for an element without identifier and name. For any other element, what
applies are the notes that make the references to it, one for each and in order. -/
theorem commentary_cases {applied : Annotation}
    (h : (commentary library nested site node).result = .ok applied) :
    (node.corresp?.isNone && node.xmlId?.isNone) = true ∧ applied = .nothing ∨
      ∃ tables notes, library.tables = some tables ∧
        ((noteReferences tables library.settings.annotations site.file node).mapM
          (noteOf library nested site node)).result = .ok notes ∧
        (notes = [] ∧ applied = .nothing ∨ applied = .insert notes) := by
  unfold commentary at h
  split at h
  · rename_i nameless
    cases h
    exact Or.inl ⟨nameless, rfl⟩
  · obtain ⟨tables, asked, h⟩ := Run.bind_eq_ok.mp h
    obtain ⟨notes, ran, h⟩ := Run.bind_eq_ok.mp h
    refine Or.inr ⟨tables, notes, ask_eq_ok.mp asked, ran, ?_⟩
    rw [Run.result_pure] at h
    split at h
    · rename_i none
      cases h
      exact Or.inl ⟨List.isEmpty_iff.mp none, rfl⟩
    · cases h
      exact Or.inr rfl

/-- The notes of an element are borrowed. -/
theorem commentary_borrowed {applied : Annotation}
    (h : (commentary library nested site node).result = .ok applied) :
    applied.AllBorrowed library nested site node := by
  obtain ⟨-, rfl⟩ | ⟨tables, notes, asked, ran, ⟨-, rfl⟩ | rfl⟩ := commentary_cases h
  · exact fun note member => by cases member
  · exact fun note member => by cases member
  · intro note member
    obtain ⟨reference, isReference, ran⟩ := mapM_eq_ok ran note member
    obtain ⟨inTables, isNote⟩ := List.mem_filter.mp (Priority.mem_ranked.mp isReference).1
    exact borrowed_of_noteOf ⟨tables, asked, Or.inl ⟨reference,
      mem_of_mem_referencesTo inTables, of_decide_eq_true isNote, rfl, rfl⟩⟩ ran

/-- The best instruction is a row of the tables that defines the identifier in a note. -/
theorem mem_of_bestInstruction? {tables : Tables} {priority : List String} {urn : String}
    {best : Mapping} (h : bestInstruction? tables priority urn = some best) :
    best ∈ tables.mappings.map (·.row) ∧ best.tag = some noteTag := by
  obtain ⟨inTables, isNote⟩ :=
    List.mem_filter.mp (Priority.mem_of_best? h).1
  exact ⟨(List.mem_filter.mp (List.mem_mergeSort.mp inTables)).1, of_decide_eq_true isNote⟩

/-- Whether the note at a node of a file takes the place of an instruction: the index has it as the
best one with the instruction's identifier, and it is another one. -/
structure Supplants (library : Library) (site : Site) (node : Node) (file : SourceFile)
    (source : Document) (found : Node) : Prop where
  role : Role.of node = .instruction
  reads : library.document file = .ok source
  isBest : ∃ urn tables best path, node.corresp? = some urn ∧ library.tables = some tables ∧
    bestInstruction? tables library.settings.instructions urn = some best ∧
    ¬(best.file = site.file ∧ best.path = some node.path) ∧
    best.file = file ∧ best.path = some path ∧ source.byPath? path = some found

/-- There is one note at most that takes the place of an instruction. -/
theorem Supplants.unique {file other : SourceFile} {source source' : Document} {found found' : Node}
    (supplants : Supplants library site node file source found)
    (supplants' : Supplants library site node other source' found') :
    file = other ∧ source = source' ∧ found = found' := by
  obtain ⟨urn, tables, best, path, named, asked, isBest, -, rfl, atPath, isThere⟩ :=
    supplants.isBest
  obtain ⟨urn', tables', best', path', named', asked', isBest', -, rfl, atPath', isThere'⟩ :=
    supplants'.isBest
  cases named.symm.trans named'
  cases asked.symm.trans asked'
  cases isBest.symm.trans isBest'
  cases atPath.symm.trans atPath'
  cases supplants.reads.symm.trans supplants'.reads
  cases isThere.symm.trans isThere'
  exact ⟨rfl, rfl, rfl⟩

/-- A row of the index leads to what takes the place of an instruction. -/
theorem Supplants.row {file : SourceFile} {source : Document} {found : Node}
    (supplants : Supplants library site node file source found) :
    ∃ path, NoteRow library file path ∧ source.byPath? path = some found := by
  obtain ⟨urn, tables, best, path, -, asked, isBest, -, isFile, atPath, isThere⟩ := supplants.isBest
  obtain ⟨inTables, isNote⟩ := mem_of_bestInstruction? isBest
  exact ⟨path, ⟨tables, asked, Or.inr ⟨best, inTables, isNote, isFile, atPath⟩⟩, isThere⟩

/-- An instruction with an identifier stays if no note takes its place. -/
theorem instruction_cases {urn : String} {applied : Annotation}
    (role : Role.of node = .instruction) (named : node.corresp? = some urn)
    (h : (instruction library nested site node urn).result = .ok applied) :
    applied = .keep ∧ (∀ file source found, ¬ Supplants library site node file source found) ∨
      ∃ file source found copied, Supplants library site node file source found ∧
        (nested.copy (some site.file) file (some found)).result = .ok copied ∧
        applied =
          .replace (stampLang copied (source.lang? found.id) (site.document.lang? node.id)) := by
  obtain ⟨tables, asked, h⟩ := Run.bind_eq_ok.mp h
  -- what `Supplants` says of the best definition, for the tables that were asked
  have best_of {file : SourceFile} {source : Document} {found : Node}
      (supplants : Supplants library site node file source found) :
      ∃ best, bestInstruction? tables library.settings.instructions urn = some best ∧
        ¬(best.file = site.file ∧ best.path = some node.path) := by
    obtain ⟨urn', tables', best, path, named', asked', isBest, other, -⟩ := supplants.isBest
    cases named.symm.trans named'
    cases (ask_eq_ok.mp asked).symm.trans asked'
    exact ⟨best, isBest, other⟩
  split at h
  · rename_i none
    cases h
    refine Or.inl ⟨rfl, fun file source found supplants => ?_⟩
    obtain ⟨best, isBest, -⟩ := best_of supplants
    cases none.symm.trans isBest
  · rename_i best isBest
    split at h
    · rename_i itself
      cases h
      refine Or.inl ⟨rfl, fun file source found supplants => ?_⟩
      obtain ⟨best', isBest', other⟩ := best_of supplants
      cases isBest.symm.trans isBest'
      exact other itself
    · rename_i other
      split at h
      · cases h
      · rename_i path atPath
        obtain ⟨source, reads, h⟩ := Run.bind_eq_ok.mp h
        rw [Library.result_read] at reads
        split at h
        · cases h
        · rename_i found isThere
          obtain ⟨copied, copies, h⟩ := Run.bind_eq_ok.mp h
          cases h
          exact Or.inr ⟨best.file, source, found, copied, ⟨role, reads, urn, tables, best, path,
            named, ask_eq_ok.mp asked, isBest, other, rfl, atPath, isThere⟩, copies, rfl⟩

/-- What an instruction gives way to is borrowed, and so are the notes on it. -/
theorem instruction_borrowed {urn : String} {applied : Annotation}
    (role : Role.of node = .instruction) (named : node.corresp? = some urn)
    (h : (instruction library nested site node urn).result = .ok applied) :
    applied.AllBorrowed library nested site node := by
  obtain ⟨rfl, -⟩ | ⟨file, source, found, copied, supplants, copies, rfl⟩ :=
    instruction_cases role named h
  · exact fun note member => by cases member
  · obtain ⟨path, row, isThere⟩ := supplants.row
    exact .note row supplants.reads isThere copies

/-- Whatever is applied to a node is borrowed. -/
theorem annotate_borrowed {applied : Annotation}
    (h : (annotate library nested site node).result = .ok applied) :
    applied.AllBorrowed library nested site node := by
  unfold annotate at h
  split at h
  · rename_i urn role named
    exact instruction_borrowed role named h
  · exact commentary_borrowed h

/-- Notes on an element never take its place. -/
theorem commentary_ne_replace {note : Element} :
    (commentary library nested site node).result ≠ .ok (.replace note) := by
  intro h
  obtain ⟨-, same⟩ | ⟨tables, notes, -, -, ⟨-, same⟩ | same⟩ := commentary_cases h <;> cases same

/-- Only instructions that have an identifier are replaced. -/
theorem instruction_of_replace {note : Element}
    (h : (annotate library nested site node).result = .ok (.replace note)) :
    Role.of node = .instruction ∧ node.corresp? ≠ none := by
  unfold annotate at h
  split at h
  · rename_i role named
    exact ⟨role, by simp [named]⟩
  · exact absurd h commentary_ne_replace

/-- What takes the place of an element is a copy of the best instruction, with a stamp. -/
theorem supplants_of_replace {note : Element}
    (h : (annotate library nested site node).result = .ok (.replace note)) :
    ∃ file source found copied, Supplants library site node file source found ∧
      (nested.copy (some site.file) file (some found)).result = .ok copied ∧
      note = stampLang copied (source.lang? found.id) (site.document.lang? node.id) := by
  unfold annotate at h
  split at h
  · rename_i urn role named
    obtain ⟨wrong, -⟩ | ⟨file, source, found, copied, supplants, copies, same⟩ :=
      instruction_cases role named h
    · cases wrong
    · cases same
      exact ⟨file, source, found, copied, supplants, copies, rfl⟩
  · exact absurd h commentary_ne_replace

/-- What takes the place of an element is borrowed. -/
theorem borrowed_of_replace {note : Element}
    (h : (annotate library nested site node).result = .ok (.replace note)) :
    Borrowed library nested site node note :=
  annotate_borrowed h

/-- What is inserted into an element is borrowed. -/
theorem borrowed_of_mem_notes {applied : Annotation} {note : Element}
    (h : (annotate library nested site node).result = .ok applied)
    (member : note ∈ applied.notes) : Borrowed library nested site node note := by
  have all := annotate_borrowed h
  cases applied with
  | replace other => cases member
  | nothing => exact all note member
  | keep => exact all note member
  | insert notes => exact all note member

end Intertext.Compile
