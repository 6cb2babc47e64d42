import Intertext.Proofs.Compile.Extracts
/-!
The languages of compiled trees.

Whatever frames give reads in the language that it comes from (`speaks_levels`), so every element of
a compiled tree reads in its own language, as far as nodes are not masked and directives point at
single elements (`spliced_speaks`). At a masked directive this fails: the stamp is left out because
the directive declares the language of what it quotes, but the directive is not in the tree
(`quote_misread`).
-/

namespace Intertext.Compile

open Markup (Element Name Node Document)
open Markup.Node

variable {library : Library} {file : SourceFile} {element : Element} {lang : Option String}

/-! ## 1. Frames -/

/-- What frames give reads in the language that it comes from, however many there are. -/
theorem speaks_levels (parsed : library.Parsed) (synced : library.Synced) :
    ∀ frames : Nat, (levels library frames).Speaks library
  | 0 =>
    { isLevel := ⟨0, rfl⟩
      copy := fun _ _ _ _ _ _ _ _ h => absurd h copy_level_none_ne_ok
      external := fun _ _ _ _ _ _ _ h => absurd h external_level_none_ne_ok
      inline := fun _ _ _ _ _ _ _ h => absurd h inline_level_none_ne_ok }
  | frames + 1 =>
    have speaks := speaks_levels parsed synced frames
    { isLevel := ⟨frames + 1, rfl⟩
      copy := by
        intro home file document node element reads isNode role h
        obtain ⟨document', root, reads', ran, rfl⟩ := copy_level_eq_ok.mp h
        cases reads.symm.trans reads'
        exact ⟨root, rfl, voices_of_copyNote parsed synced speaks reads isNode role ran⟩
      external := by
        intro file document start stop elements reads isElement h
        obtain ⟨document', bounds, after, reads', located, ran⟩ := external_level_eq_ok.mp h
        cases reads.symm.trans reads'
        exact (lands_of_external parsed synced speaks reads
          (through_within located (isElement bounds located) .external) rfl (mem_preorder_self _)
          (at_start file) (by simp) (langAt?_of_locate located) ran).1
      inline := by
        intro file document start stop element reads isElement h
        obtain ⟨document', bounds, items, after, reads', located, ran, rfl⟩ :=
          inline_level_eq_ok.mp h
        cases reads.symm.trans reads'
        have lands := (lands_of_inline parsed synced speaks reads
          (through_within located (isElement bounds located) .inline) rfl (mem_preorder_self _)
          (at_start file) (by simp) rfl ran).1
        rw [langAt?_of_locate located]
        refine forall_children_append Lands.withTail (fun child none => ?_) lands
        rw [children_container] at none
        cases none }

/-! ## 2. Compiled trees -/

/-- A compiled tree is spoken, and has a stamp at its root. -/
theorem spoken_of_compile (parsed : library.Parsed) (synced : library.Synced)
    {tree : Element}
    (ran : (compile library file).result = .ok tree) :
    ∃ root, tree = stampOrigin root file ∧ Spoken library file none root := by
  obtain ⟨remaining, document, root, -, reads, copied, rfl⟩ := compile_eq_ok.mp ran
  have lands := lands_of_copy parsed synced (speaks_levels parsed synced remaining) reads
    (mem_preorder_self _) (Or.inl rfl) copied
  rw [Document.langAround?_root (parsed.ordered reads)] at lands
  exact ⟨root, rfl, lands none (.refl none)⟩

/-- A stamp at the root of a tree changes no language in the tree. -/
theorem nearest_stampOrigin (root : Element) (file : SourceFile) (positions : List Nat) :
    (spineAt positions (stampOrigin root file)).findSome? (·.ownLang?) =
      (spineAt positions root).findSome? (·.ownLang?) := by
  have children : (stampOrigin root file).children = root.children := rfl
  cases positions with
  | nil =>
    rw [spineAt, spineAt, List.findSome?_singleton, List.findSome?_singleton,
      ownLang?_stampOrigin]
  | cons position rest =>
    rw [spineAt, spineAt, children]
    cases root.children[position]? with
    | none => simp only [List.findSome?_singleton, ownLang?_stampOrigin]
    | some child =>
      simp only [List.findSome?_append, List.findSome?_singleton, ownLang?_stampOrigin]

/-- If the nodes with some value of an attribute all have one language, an element that has the
value reads in that language wherever it fits. -/
theorem Fits.marked {home : SourceFile} (fits : Fits library home lang element) {mark : Name}
    (notMade : mark ∉ madeNames) {told : String → Option String}
    (marked : ∀ file document, library.document file = .ok document → ∀ node ∈ document.nodes,
      ∀ value, node.value? mark = some value → document.lang? node.id = told value)
    {value : String} (isMark : element.value? mark = some value) : Speaks lang (told value) := by
  cases fits with
  | copy reads isNode name same speaks =>
    have notAdded : mark ∉ addedNames := fun isAdded => notMade (List.mem_append_right _ isAdded)
    rw [same mark notAdded] at isMark
    rwa [marked _ _ reads _ isNode value isMark] at speaks
  | wrapper made _ _ _ _ _ =>
    rw [made.attributes mark notMade] at isMark
    cases isMark
  | container made _ =>
    rw [made.attributes mark notMade] at isMark
    cases isMark

/-- What is spliced in reads in its own language, but for what takes the place of masked nodes. What
takes the place of a node and needs a stamp reads in its language, wherever the language around the
node is spoken, exactly if the node is not masked. Outside of quoted ranges of more than one
element, and unless it stands in what took the place of a masked node, every element of a compiled
tree fits: a copy of a node, a wrapper of what a target bounds or a note that was put in reads, by
the nearest declaration around it, in the language in scope at what it shows. -/
theorem spliced_speaks (parsed : library.Parsed) (synced : library.Synced) :
    (∀ frames file document node element own, library.document file = .ok document →
      node ∈ document.nodes → Replaces library ⟨file, document⟩ node own →
      Replacement library (levels library frames) ⟨file, document⟩ node element →
      ((∀ spoken, Speaks spoken (document.langAround? node.id) →
        (element.ownLang? <|> spoken) = some own) ↔ ¬Masked document node own)) ∧
    (∀ file tree, (compile library file).result = .ok tree → ∃ root, tree = stampOrigin root file ∧
      ∀ positions element, tree.at? positions = some element →
        (∀ around ∈ (spineAt positions root).tail, ¬QuotesRange library around) →
        (∃ around ∈ spineAt positions root, ReplacesMasked library around) ∨
          ∃ home nearest, (spineAt positions tree).findSome? (·.ownLang?) = nearest ∧
            (library.Unstamped →
              ((spineAt positions root).findSome? origin?).getD file = home) ∧
            Fits library home nearest element ∧
            ∀ mark ∉ madeNames, ∀ told : String → Option String,
              (∀ file document, library.document file = .ok document → ∀ node ∈ document.nodes,
                ∀ value, node.value? mark = some value → document.lang? node.id = told value) →
              ∀ value, element.value? mark = some value → Speaks nearest (told value)) := by
  refine ⟨fun frames file document node element own reads isNode replaces replacement =>
    replacement_speaks_iff parsed synced reads isNode replaces replacement, ?_⟩
  intro file tree ran
  obtain ⟨root, rfl, spoken⟩ := spoken_of_compile parsed synced ran
  refine ⟨root, rfl, fun positions element isThere narrow => ?_⟩
  -- at the root the tree has a stamp that what is spoken has not
  obtain ⟨shown, inRoot, tag⟩ : ∃ shown, root.at? positions = some shown ∧
      SameTag element shown := by
    cases positions with
    | nil =>
      cases isThere
      exact ⟨root, rfl, sameTag_stampOrigin root file⟩
    | cons position rest => exact ⟨element, isThere, .of_attributes rfl rfl⟩
  obtain masked | ⟨home, origin, fits⟩ := spoken.at? inRoot narrow
  · exact Or.inl masked
  · have outermost (lang : Option String) : (lang <|> none) = lang := by cases lang <;> rfl
    rw [outermost, ← nearest_stampOrigin root file] at fits
    have fits := fits.congr tag
    exact Or.inr ⟨home, _, rfl, origin, fits,
      fun mark notMade told marked value isMark => fits.marked notMade marked isMark⟩

/-! ## 3. A quotation in another language -/

/-- A document in one language that quotes a part of itself in another one. The directive has the
attributes `more`. -/
def bilingual (more : Markup.Attributes) : Document where
  root := ⟨0, "/r", .plain "r", [(.xml "lang", "en")], "",
    [⟨1, "/r/q[1]", .plain "q", [(.xml "lang", "he")], "",
        [⟨2, "/r/q[1]/p[1]", .plain "p", [(.xml "id", "b")], "B", [], ""⟩], ""⟩,
     ⟨3, "/r/j:transclude[1]", .link "transclude", (.plain "target", "#b") :: more, "", [],
        ""⟩], ""⟩
  namespaces := [(some "j", "http://jewishliturgy.org/ns/jlptei/2")]

theorem bilingual_parse : Document.parse ("<r xmlns:j=\"http://jewishliturgy.org/ns/jlptei/2\" " ++
    "xml:lang=\"en\"><q xml:lang=\"he\"><p xml:id=\"b\">B</p></q><j:transclude target=\"#b\"/>" ++
    "</r>") = .ok (bilingual []) := by
  cbv

theorem bilingual_parse_masked :
    Document.parse ("<r xmlns:j=\"http://jewishliturgy.org/ns/jlptei/2\" xml:lang=\"en\">" ++
      "<q xml:lang=\"he\"><p xml:id=\"b\">B</p></q>" ++
      "<j:transclude target=\"#b\" xml:lang=\"he\"/></r>") =
        .ok (bilingual [(.xml "lang", "he")]) := by
  cbv

/-- A library of one document has no rows, so they come from syncing alone. -/
theorem synced_single (document : Document) : (single document).Synced := by
  intro tables found
  cases found
  exact .empty

/-- Where the directive declares nothing, nothing is masked. -/
theorem bilingual_unmasked (element : Element) :
    ¬ReplacesMasked (single (bilingual [])) element := by
  rintro ⟨frames, file, document, node, own, tail, reads, isNode, replaces, masked, -⟩
  cases reads
  cases replaces with
  | directive role _ _ _ _ =>
    have silent : ∀ node ∈ (bilingual []).nodes, Role.of node = .directive →
        node.ownLang? = none := by
      decide
    exact absurd ((silent node isNode role).symm.trans masked.1) (by simp)
  | instruction supplants _ _ =>
    have none : ∀ node ∈ (bilingual []).nodes, Role.of node ≠ .instruction := by decide
    exact none node isNode supplants.role

/-- The file of the document. -/
def bilingualFile : SourceFile := ⟨"A", "a.xml"⟩

/-- What is quoted is in another language than the text around it, and it reads in its own. -/
theorem quote_speaks : ∃ tree quote,
    (compile (single (bilingual [])) bilingualFile).result = .ok tree ∧
      tree.at? [1] = some quote ∧ quote.value? (.plain "target") = some "#b" ∧
      (spineAt [1] tree).findSome? (·.ownLang?) = some "he" := by
  have quoted : (compile (single (bilingual [])) bilingualFile).result.map (fun tree =>
      (tree.name, (tree.at? [1]).map fun quote => (quote.name, quote.value? (.plain "target"),
        quote.value? (.plain "targetEnd")))) =
      .ok (.plain "r", some (.processing "transclude", some "#b", none)) := by
    decide +kernel
  obtain ⟨tree, ran, same⟩ := Outcome.map_eq_ok.mp quoted
  injection same with isRoot isQuote
  obtain ⟨quote, isThere, same⟩ := Option.map_eq_some_iff.mp isQuote
  injection same with name values
  injection values with isTarget noEnd
  obtain ⟨root, rfl, all⟩ := (spliced_speaks (parsed_single bilingual_parse)
    (synced_single (bilingual []))).2 _ _ ran
  have spine : spineAt [1] root = [quote, root] := by
    obtain ⟨child, isChild, same⟩ := Option.bind_eq_some_iff.mp isThere
    cases same
    rw [spineAt, show root.children[1]? = some quote from isChild]
    rfl
  have narrow : ∀ around ∈ (spineAt [1] root).tail,
      ¬QuotesRange (single (bilingual [])) around := by
    rw [spine]
    rintro around isAround ⟨-, -, -, -, -, isWrapper, -⟩
    cases List.mem_singleton.mp isAround
    exact absurd (isRoot.symm.trans isWrapper) (by decide)
  obtain ⟨around, -, masked⟩ | ⟨home, nearest, isNearest, -, fits, -⟩ :=
    all [1] quote isThere narrow
  · exact absurd masked (bilingual_unmasked around)
  refine ⟨_, quote, ran, isThere, isTarget, isNearest.trans ?_⟩
  cases fits with
  | copy reads isNode copied _ _ =>
    cases reads
    have other : ∀ node ∈ (bilingual []).nodes, node.name ≠ .processing "transclude" := by decide
    exact absurd (copied.symm.trans name) (other _ isNode)
  | wrapper made given located isHome reads speaks =>
    cases reads
    cases isTarget.symm.trans given
    rw [noEnd] at located
    cases located
    have isHebrew : langAt? (bilingual []) "#b" = some "he" := by decide +kernel
    exact speaks "he" isHebrew
  | container made other => exact absurd (name.symm.trans other) (by decide)

/-- Where the directive declares the language of what it quotes, the quotation does not read in it:
nothing in the tree declares the language, neither at the wrapper nor in it. -/
theorem quote_misread :
    let document := bilingual [(.xml "lang", "he")]
    (single document).Parsed ∧ (single document).Synced ∧
      langAt? document "#b" = some "he" ∧
      (∀ bounds, Bounds.locate document "#b" "#b" = .ok bounds → bounds.IsElement document) ∧
      (compile (single document) bilingualFile).result.map (fun tree =>
        ((tree.at? [1]).map fun quote => (quote.name, quote.value? (.plain "target")),
          (spineAt [1] tree).findSome? (·.ownLang?))) =
        .ok (some (.processing "transclude", some "#b"), some "en") ∧
      (compile (single document) bilingualFile).result.map (fun tree =>
        ((tree.at? [1, 0]).map fun copied => (copied.value? (.xml "id"), copied.characters),
          (spineAt [1, 0] tree).findSome? (·.ownLang?))) =
        .ok (some (some "b", "B"), some "en") :=
  ⟨parsed_single bilingual_parse_masked, synced_single _, by decide +kernel,
    fun _ located => isElement_of_locate located (by decide), by decide +kernel, by decide +kernel⟩

end Intertext.Compile
