import Mathlib.Data.Finset.Dedup
import Mathlib.Data.Finset.Card
import Intertext.Proofs.Compile.Sharing
/-!
What a cache keeps while the disk changes.

A cache does not look at a file again once it has the document of it. So what it gives does not
depend on the disk as it is now, but on the disk as it was when the document was first given since
the file was last evicted. A history of requests says when that was (`firstGiven?`), and after
whatever history a cache keeps exactly the documents that were given first (`Mirrors`): every action
keeps it so (`Mirrors.act`), on whatever disk it takes place. A request that fails leaves the cache
as it was, so that nothing is remembered of it (`faithful_run`).
-/

namespace Intertext.Compile

open Markup (Document)
open Corpus (Disk)

namespace Cache

/-! ## 1. Histories -/

/-- What is asked of a cache, or what happens to the disk meanwhile. -/
inductive Action where
  | get (file : SourceFile)
  | evict (file : SourceFile)
  /-- Files are written, deleted or spoiled. -/
  | change (disk : Disk)

/-- What is answered. -/
inductive Answer where
  | document (result : Except Error Document)
  | evicted (had : Bool)
  | nothing

/-- A cache, and the disk as it is now. -/
structure Scene where
  disk : Disk
  cache : Cache

/-- An action that has been done: on which disk, and what was answered. -/
structure Deed where
  disk : Disk
  action : Action
  answer : Answer

namespace Scene

/-- What an action answers, and what it leaves behind. -/
def act (base : String) (scene : Scene) : Action → Answer × Scene
  | .get file =>
    let (result, cache) := scene.cache.get scene.disk base file
    (.document result, { scene with cache })
  | .evict file =>
    let (had, cache) := scene.cache.evict file
    (.evicted had, { scene with cache })
  | .change disk => (.nothing, { scene with disk })

/-- What has been done after some actions, first one first, and what they leave behind. -/
def run (base : String) (scene : Scene) : List Action → List Deed × Scene
  | [] => ([], scene)
  | action :: rest =>
    let (answer, next) := scene.act base action
    let (deeds, last) := run base next rest
    (⟨scene.disk, action, answer⟩ :: deeds, last)

end Scene

namespace Deed

/-- Whether a file was evicted. -/
def evicts (file : SourceFile) (deed : Deed) : Bool :=
  match deed.action with
  | .evict other => other = file
  | _ => false

/-- Whether the document of a file was asked for and given. -/
def gives (file : SourceFile) (deed : Deed) : Bool :=
  match deed.action, deed.answer with
  | .get other, .document (.ok _) => other = file
  | _, _ => false

end Deed

/-- What has been done since a file was last evicted. -/
def since (file : SourceFile) (deeds : List Deed) : List Deed :=
  (deeds.reverse.takeWhile (!·.evicts file)).reverse

/-- When the document of a file was first given since it was last evicted. -/
def firstGiven? (file : SourceFile) (deeds : List Deed) : Option Deed :=
  (since file deeds).find? (·.gives file)

variable {disk : Disk} {base : String} {file other : SourceFile} {document : Document}
  {cache : Cache} {past : List Deed} {deed : Deed}

theorem since_concat : since file (past ++ [deed]) =
    if deed.evicts file then [] else since file past ++ [deed] := by
  rw [since, List.reverse_concat, List.takeWhile_cons]
  cases deed.evicts file <;> simp [since]

theorem firstGiven?_concat : firstGiven? file (past ++ [deed]) =
    if deed.evicts file then none
    else (firstGiven? file past).or (if deed.gives file then some deed else none) := by
  rw [firstGiven?, since_concat]
  split
  · rfl
  · rw [List.find?_append, firstGiven?, List.find?_singleton]

/-! ## 2. Files -/

/-- Whether the file is on a disk and holds the text of a document. -/
def Holds (disk : Disk) (base : String) (file : SourceFile) (document : Document) : Prop :=
  ∃ bytes text, disk.bytes? (Index.filePath base file) = some bytes ∧
    String.fromUTF8? bytes = some text ∧ Document.parse text = .ok document

/-- Whether the file is missing, is not a text, or is not the text of a document. -/
def Spoiled (disk : Disk) (base : String) (file : SourceFile) : Prop :=
  disk.bytes? (Index.filePath base file) = none ∨
    ∃ bytes, disk.bytes? (Index.filePath base file) = some bytes ∧
      (String.fromUTF8? bytes = none ∨
        ∃ text fault, String.fromUTF8? bytes = some text ∧ Document.parse text = .error fault)

theorem load_eq_ok : load disk base file = .ok document ↔ Holds disk base file document := by
  unfold load Holds
  cases disk.bytes? (Index.filePath base file) with
  | none => simp
  | some bytes =>
    simp only [Outcome.mapError_eq_ok, Document.ofBytes, Option.some.injEq]
    cases text : String.fromUTF8? bytes with
    | none => simp [text]
    | some text' => simp [text]

theorem exists_error_of_spoiled (spoiled : Spoiled disk base file) :
    ∃ error, load disk base file = .error error := by
  cases loaded : load disk base file with
  | error error => exact ⟨error, rfl⟩
  | ok document =>
    exfalso
    obtain ⟨bytes, text, isThere, isText, parsed⟩ := load_eq_ok.mp loaded
    rcases spoiled with missing | ⟨_, isThere', notText | ⟨_, fault, isText', fails⟩⟩
    · simp [missing] at isThere
    · simp_all
    · simp_all

/-! ## 3. What is kept -/

theorem lookup_evict (cache : Cache) (file other : SourceFile) :
    (cache.evict file).2.lookup other = if other = file then none else cache.lookup other := by
  unfold evict
  dsimp only
  induction cache with
  | nil => simp
  | cons entry rest ih =>
    by_cases dropped : entry.1 = file
    · rw [List.filter_cons_of_neg (by simpa using dropped), ih]
      split
      · rfl
      · rename_i apart
        rw [List.lookup_cons, beq_eq_false_iff_ne.mpr (dropped ▸ apart)]
    · rw [List.filter_cons_of_pos (by simpa using dropped), List.lookup_cons, List.lookup_cons, ih]
      by_cases same : other = entry.1
      · subst same
        simp [dropped]
      · rw [beq_eq_false_iff_ne.mpr same]

theorem isSome_lookup : (cache.lookup file).isSome ↔ file ∈ cache.map (·.1) := by
  rw [← not_iff_not, Option.not_isSome_iff_eq_none, List.lookup_eq_none_iff, List.mem_map]
  simp only [bne_iff_ne, ne_eq, not_exists, not_and]
  exact forall₂_congr fun entry _ => not_congr eq_comm

/-- A document that is kept is given, and nothing changes. -/
theorem get_of_kept (kept : cache.lookup file = some document) :
    cache.get disk base file = (.ok document, cache) := by
  rw [get, Cache.document, kept]
  simp [keep, kept]

/-- Where no document is kept, the one on the disk is given and kept. -/
theorem get_of_loaded (absent : cache.lookup file = none)
    (loaded : load disk base file = .ok document) :
    cache.get disk base file = (.ok document, cache ++ [(file, document)]) := by
  rw [get, Cache.document, absent, loaded]
  simp [keep, absent]

/-- If there is none on the disk either, nothing changes. -/
theorem get_of_failed {error : Error} (absent : cache.lookup file = none)
    (failed : load disk base file = .error error) :
    cache.get disk base file = (.error error, cache) := by
  rw [get, Cache.document, absent, failed]

/-- Whether a cache keeps what was given first of each file, each once, and nothing else. -/
structure Mirrors (base : String) (past : List Deed) (cache : Cache) : Prop where
  keyed : (cache.map (·.1)).Nodup
  kept : ∀ file first, firstGiven? file past = some first →
    ∃ document, load first.disk base file = .ok document ∧ cache.lookup file = some document
  absent : ∀ file, firstGiven? file past = none → cache.lookup file = none

theorem mirrors_nil (base : String) : Mirrors base [] [] where
  keyed := List.nodup_nil
  kept _ _ given := by cases given
  absent _ _ := rfl

namespace Mirrors

/-- What neither gives a document nor takes one away leaves it as it is, unless the file has one. -/
theorem concat_of_same (mirrors : Mirrors base past cache)
    (spares : ∀ file, deed.evicts file = false)
    (known : ∀ file, deed.gives file = true → (firstGiven? file past).isSome) :
    Mirrors base (past ++ [deed]) cache := by
  have same (file : SourceFile) : firstGiven? file (past ++ [deed]) = firstGiven? file past := by
    rw [firstGiven?_concat, spares, if_neg (by simp)]
    split
    · rename_i gives
      obtain ⟨first, given⟩ := Option.isSome_iff_exists.mp (known file gives)
      rw [given, Option.some_or]
    · rw [Option.or_none]
  refine ⟨mirrors.keyed, fun file first => ?_, fun file => ?_⟩
  · rw [same]
    exact mirrors.kept file first
  · rw [same]
    exact mirrors.absent file

/-- A document that is loaded is the first one of its file. -/
theorem concat_of_loaded (mirrors : Mirrors base past cache) (new : firstGiven? file past = none)
    (loaded : load disk base file = .ok document) :
    Mirrors base (past ++ [⟨disk, .get file, .document (.ok document)⟩])
      (cache ++ [(file, document)]) := by
  have absent := mirrors.absent file new
  have given (other : SourceFile) :
      firstGiven? other (past ++ [⟨disk, .get file, .document (.ok document)⟩]) =
        if other = file then some ⟨disk, .get file, .document (.ok document)⟩
        else firstGiven? other past := by
    rw [firstGiven?_concat, if_neg (by simp [Deed.evicts])]
    by_cases same : other = file
    · rw [same, new, if_pos (by simp [Deed.gives]), if_pos rfl, Option.none_or]
    · rw [if_neg (by simpa [Deed.gives] using Ne.symm same), if_neg same, Option.or_none]
  have looks (other : SourceFile) : (cache ++ [(file, document)]).lookup other =
      if other = file then some document else cache.lookup other := by
    have kept : (cache.keep file document).lookup other = _ := lookup_keep other
    rw [keep, absent, if_neg (by simp)] at kept
    rw [kept]
    split
    · rename_i same
      rw [same, absent, Option.none_or]
    · rw [Option.or_none]
  refine ⟨?_, fun other first => ?_, fun other => ?_⟩
  · rw [List.map_append, List.map_singleton, List.nodup_append]
    refine ⟨mirrors.keyed, List.nodup_singleton _, ?_⟩
    rintro other isKept last isLast rfl
    cases List.mem_singleton.mp isLast
    obtain ⟨entry, isEntry, rfl⟩ := List.mem_map.mp isKept
    simpa using List.lookup_eq_none_iff.mp absent entry isEntry
  · rw [given, looks]
    split
    · rename_i same
      rintro ⟨⟩
      exact ⟨document, same ▸ loaded, rfl⟩
    · exact mirrors.kept other first
  · rw [given, looks]
    split
    · exact fun none => by cases none
    · exact mirrors.absent other

theorem get (mirrors : Mirrors base past cache) (disk : Disk) (file : SourceFile) :
    Mirrors base (past ++ [⟨disk, .get file, .document (cache.get disk base file).1⟩])
      (cache.get disk base file).2 := by
  cases given : firstGiven? file past with
  | some first =>
    obtain ⟨document, -, kept⟩ := mirrors.kept file first given
    rw [get_of_kept kept]
    refine mirrors.concat_of_same (fun _ => rfl) fun other gives => ?_
    cases of_decide_eq_true gives
    exact Option.isSome_iff_exists.mpr ⟨first, given⟩
  | none =>
    have absent := mirrors.absent file given
    cases loaded : load disk base file with
    | error error =>
      rw [get_of_failed absent loaded]
      exact mirrors.concat_of_same (fun _ => rfl) fun other gives => by cases gives
    | ok document =>
      rw [get_of_loaded absent loaded]
      exact mirrors.concat_of_loaded given loaded

theorem evict (mirrors : Mirrors base past cache) (disk : Disk) (file : SourceFile) :
    Mirrors base (past ++ [⟨disk, .evict file, .evicted (cache.evict file).1⟩])
      (cache.evict file).2 := by
  have given (other : SourceFile) :
      firstGiven? other (past ++ [⟨disk, .evict file, .evicted (cache.evict file).1⟩]) =
        if other = file then none else firstGiven? other past := by
    rw [firstGiven?_concat]
    by_cases same : other = file
    · rw [if_pos (by simp [Deed.evicts, same]), if_pos same]
    · rw [if_neg (by simpa [Deed.evicts] using Ne.symm same), if_neg same,
        if_neg (by simp [Deed.gives]), Option.or_none]
  refine ⟨mirrors.keyed.sublist (List.filter_sublist.map _), fun other first => ?_,
    fun other => ?_⟩
  · rw [given, lookup_evict]
    split
    · exact fun none => by cases none
    · exact mirrors.kept other first
  · rw [given, lookup_evict]
    split
    · exact fun _ => rfl
    · exact mirrors.absent other

/-- Whatever is done next, a cache keeps what was given first. -/
theorem act {scene : Scene} (mirrors : Mirrors base past scene.cache) :
    ∀ action, Mirrors base (past ++ [⟨scene.disk, action, (scene.act base action).1⟩])
      (scene.act base action).2.cache
  | .get file => mirrors.get scene.disk file
  | .evict file => mirrors.evict scene.disk file
  | .change _ => mirrors.concat_of_same (fun _ => rfl) fun _ gives => by cases gives

/-- Whatever is done, a cache keeps what was given first. -/
theorem run : ∀ {actions : List Action} {past : List Deed} {scene : Scene},
    Mirrors base past scene.cache →
      Mirrors base (past ++ (scene.run base actions).1) (scene.run base actions).2.cache
  | [], past, scene, mirrors => by
    rw [Scene.run, List.append_nil]
    exact mirrors
  | action :: rest, past, scene, mirrors => by
    have last : Mirrors base (past ++ [_] ++ (Scene.run base (scene.act base action).2 rest).1) _ :=
      run (mirrors.act action)
    rw [List.append_assoc] at last
    exact last

/-- A document is kept exactly of the files of which one was given that were not evicted since. -/
theorem mem_keys (mirrors : Mirrors base past cache) :
    file ∈ cache.map (·.1) ↔ (firstGiven? file past).isSome := by
  rw [← isSome_lookup]
  cases given : firstGiven? file past with
  | none => simp [mirrors.absent file given]
  | some first =>
    obtain ⟨document, -, kept⟩ := mirrors.kept file first given
    simp [kept]

end Mirrors

/-! ## 4. Snapshots -/

/-- Whether what a cache does next is what its past says, whatever the disk is now. -/
structure Faithful (base : String) (past : List Deed) (now : Scene) : Prop where
  /-- What is given of a file is what the file held when its document was first given since it was
  last evicted, or holds now if none was given since. -/
  gives : ∀ file document, (now.cache.get now.disk base file).1 = .ok document ↔
    Holds (((firstGiven? file past).map (·.disk)).getD now.disk) base file document
  /-- What was given is given again, whatever has become of the file. -/
  stays : ∀ file, (firstGiven? file past).isSome → ∃ document,
    now.cache.get now.disk base file = (.ok document, now.cache)
  /-- A request for a spoiled file fails and leaves no trace, if none was given. -/
  fails : ∀ file, firstGiven? file past = none → Spoiled now.disk base file →
    ∃ error, now.cache.get now.disk base file = (.error error, now.cache)
  evicts : ∀ file, (now.cache.evict file).1 = true ↔ (firstGiven? file past).isSome
  /-- The file is forgotten, and no other one is. -/
  forgets : ∀ file other, (now.cache.evict file).2.lookup other =
    if other = file then none else now.cache.lookup other
  /-- As many documents are kept as there are files of which one was given and that were not evicted
  since. -/
  counts : ∃ files : Finset SourceFile,
    (∀ file, file ∈ files ↔ (firstGiven? file past).isSome) ∧ now.cache.length = files.card

theorem Mirrors.faithful {now : Scene} (mirrors : Mirrors base past now.cache) :
    Faithful base past now where
  gives file document := by
    rw [← load_eq_ok]
    cases given : firstGiven? file past with
    | none =>
      have absent := mirrors.absent file given
      rw [Option.map_none, Option.getD_none]
      cases loaded : load now.disk base file with
      | error error => rw [get_of_failed absent loaded]
      | ok found => rw [get_of_loaded absent loaded]
    | some first =>
      obtain ⟨found, loaded, kept⟩ := mirrors.kept file first given
      rw [get_of_kept kept, Option.map_some, Option.getD_some, loaded]
  stays file given := by
    obtain ⟨first, given⟩ := Option.isSome_iff_exists.mp given
    obtain ⟨document, -, kept⟩ := mirrors.kept file first given
    exact ⟨document, get_of_kept kept⟩
  fails file new spoiled := by
    obtain ⟨error, failed⟩ := exists_error_of_spoiled spoiled
    exact ⟨error, get_of_failed (mirrors.absent file new) failed⟩
  evicts file := by
    rw [← mirrors.mem_keys, ← isSome_lookup, Cache.evict]
  forgets file other := lookup_evict now.cache file other
  counts := by
    refine ⟨(now.cache.map (·.1)).toFinset, fun file => ?_, ?_⟩
    · rw [List.mem_toFinset, mirrors.mem_keys]
    · rw [List.toFinset_card_of_nodup mirrors.keyed, List.length_map]

/-- *A cache is a store of snapshots.* Whatever is asked of a new cache, in whatever order, and
whatever happens to the disk in between, what it gives of a file is what the file held when its
document was first given since it was last evicted. As long as none is given, the file is looked at
every time, and a request that fails changes nothing. -/
theorem faithful_run (base : String) (disk : Disk) (actions : List Action) :
    let done := Scene.run base ⟨disk, []⟩ actions
    Faithful base done.1 done.2 := by
  have mirrors : Mirrors base ([] ++ (Scene.run base ⟨disk, []⟩ actions).1) _ :=
    Mirrors.run (mirrors_nil base)
  rw [List.nil_append] at mirrors
  exact mirrors.faithful

/-- A file is given as it was when it was first asked for, until it is evicted. -/
example :
    let disk (text : String) := Disk.empty.write "c/A/a.xml" text.toUTF8 0
    let file : SourceFile := ⟨"A", "a.xml"⟩
    ((Scene.run "c" ⟨disk "<r", []⟩ [.get file, .change (disk "<r>1</r>"), .get file,
      .change (disk "<r>2</r>"), .get file, .evict file, .get file]).1.map fun deed =>
        match deed.answer with
        | .document result => result.toOption.map (·.root.text)
        | _ => none) = [none, none, some "1", none, some "1", none, some "2"] := by
  decide +kernel

end Cache

end Intertext.Compile
