import Mathlib.Data.List.Basic
import Intertext.Corpus.Disk
import Intertext.Proofs.Outcome
import Intertext.Proofs.Text.Cutting
/-!
What stands in folders.

The path of a folder joined with a name leads to what the folder has under that name
(`Disk.exists_of_entry?_join`). On every disk that came about by writing, removing and making
folders, what a folder holds stands under single names, without slashes and with none of the
spellings that lead elsewhere, and under each name at most once (`Disk.Named`).
-/

namespace Intertext

namespace Corpus

/-! ## 1. Names and joined paths

Joining is done on texts and following on steps. For a name, the two agree: the steps of the joined
path are those of the folder and then the name, whether or not the folder's path ends in a slash. -/

namespace Path

/-- Whether a text is the name of something in a folder: it has no slash and leads nowhere else. -/
def IsName (name : String) : Prop := ¬ isIdle name ∧ name ≠ ".." ∧ '/' ∉ name.toList

instance (name : String) : Decidable (IsName name) :=
  inferInstanceAs (Decidable (_ ∧ _ ∧ _))

variable {folder name : String}

/-- A name does not start over at the top, so that joining it appends it. -/
theorem IsName.not_isAbsolute (isName : IsName name) : isAbsolute name = false := by
  unfold isAbsolute
  by_contra h
  have first : name.toList.head? = some '/' := by simpa using h
  exact isName.2.2 (List.mem_of_mem_head? first)

/-- The steps of a joined path are those to the folder and the name; a slash at the end of the
folder's path is no step of its own. -/
theorem steps_join (isName : IsName name) (notEmpty : folder ≠ "") :
    ∃ before, steps (join folder name) = before ++ [name] ∧
      (steps folder = before ∨ steps folder = before ++ [""]) := by
  have cut (text : List Char) :
      steps (String.ofList (text ++ '/' :: name.toList)) =
        steps (String.ofList text) ++ [name] := by
    simp [steps, Text.pieces_append_cons, Text.pieces_of_not_mem isName.2.2]
  unfold join
  rw [if_neg (by simp [isName.not_isAbsolute])]
  split
  · rename_i ends
    -- The folder's path ends in a slash: what is before the slash is cut as it would be alone.
    have last : folder.toList.getLast? = some '/' := ends.resolve_left notEmpty
    obtain ⟨front, same⟩ := List.getLast?_eq_some_iff.mp last
    have whole : folder = String.ofList (front ++ ['/']) := by rw [← same, String.ofList_toList]
    refine ⟨steps (String.ofList front), ?_, Or.inr ?_⟩
    · rw [← cut front, whole]
      congr 1
      rw [← String.toList_inj]
      simp
    · rw [whole]
      simp [steps, Text.pieces_append_cons, Text.pieces]
  · refine ⟨steps folder, ?_, Or.inl rfl⟩
    have := cut folder.toList
    rw [String.ofList_toList] at this
    rw [← this]
    congr 1
    rw [← String.toList_inj]
    simp

/-- A joined path starts in the top folder that the folder's path starts in. -/
theorem top_join (isName : IsName name) (notEmpty : folder ≠ "") :
    top (join folder name) = top folder := by
  have nonempty : folder.toList ≠ [] := fun h => notEmpty (String.toList_eq_nil_iff.mp h)
  obtain ⟨c, rest, same⟩ := List.exists_cons_of_ne_nil nonempty
  unfold top join
  rw [isName.not_isAbsolute, if_neg Bool.false_ne_true]
  split
  · simp [isAbsolute, same]
  · simp [isAbsolute, same]

end Path

/-! ## 2. What a path leads to

A path is located step by step, and what stands at the place is then looked up from the top folder.
Each of the two is told for a path that ends in one more name: the steps before it lead to a folder,
and the entry is the folder's child. -/

/-- What is looked up in a folder is in it. -/
theorem mem_of_lookup {entries : List (String × Entry)} {name : String} {entry : Entry}
    (found : entries.lookup name = some entry) : (name, entry) ∈ entries := by
  obtain ⟨before, after, rfl, -⟩ := List.lookup_eq_some_iff.mp found
  simp

namespace Disk

variable {disk : Disk} {folder name : String}

/-- There is an entry at a path if the path is located and there is one at its place. -/
theorem entry?_eq_some {path : String} {entry : Entry} :
    disk.entry? path = some entry ↔
      ∃ place, disk.locate path = .ok place ∧ disk.entryAt place = some entry := by
  have toOption_eq_some {result : Except PathFault Entry} :
      result.toOption = some entry ↔ result = .ok entry := by
    cases result <;> simp [Except.toOption]
  unfold entry? find
  rw [toOption_eq_some, Outcome.bind_eq_ok]
  refine exists_congr fun place => and_congr_right fun _ => ?_
  cases disk.entryAt place with
  | none => simp [throw, throwThe, MonadExceptOf.throw]
  | some found => simp [pure, Except.pure]

/-- A path is located by its steps if it is not empty, has a name and is short enough. -/
theorem locate_eq_ok {path : String} {place : List String} :
    disk.locate path = .ok place ↔ path ≠ "" ∧ '\x00' ∉ path.toList ∧
      path.utf8ByteSize ≤ pathLimit ∧
        disk.follow [Path.top path] (Path.steps path) = .ok place := by
  unfold locate
  by_cases isEmpty : path = ""
  · simp [isEmpty]
  · by_cases marked : '\x00' ∈ path.toList
    · simp [isEmpty, marked]
    · by_cases long : pathLimit < path.utf8ByteSize
      · simp [isEmpty, marked, long, Nat.not_le_of_gt long]
      · simp [isEmpty, marked, long, Nat.le_of_not_lt long]

/-- Steps are followed one part after the other. -/
theorem follow_append (place before after : List String) :
    disk.follow place (before ++ after) =
      (disk.follow place before) >>= fun reached => disk.follow reached after := by
  induction before generalizing place with
  | nil => rfl
  | cons first rest ih =>
    rw [List.cons_append, follow, follow]
    split
    · rfl
    · split
      · exact ih place
      · split
        · exact ih _
        · split
          · rfl
          · split
            · rfl
            · exact ih _

/-- A last name that is followed is one in the folder that the names before it lead to. -/
theorem follow_name {place reached : List String} (isName : Path.IsName name)
    (h : disk.follow place [name] = .ok reached) :
    disk.folderAt place ∧ reached = place ++ [name] := by
  unfold follow at h
  rw [if_neg isName.1, if_neg isName.2.1] at h
  -- The folder is asked for before the name is looked up in it.
  split at h
  · cases h
  · rename_i isFolder
    split at h
    · cases h
    · split at h
      · cases h
      · cases h
        exact ⟨by simpa using isFolder, rfl⟩

/-- Steps lead from a place to a place: going up stops at the top folder. -/
theorem follow_ne_nil {place reached : List String} {names : List String} (start : place ≠ [])
    (h : disk.follow place names = .ok reached) : reached ≠ [] := by
  have outer_ne_nil {place : List String} (start : place ≠ []) : Path.outer place ≠ [] := by
    unfold Path.outer
    split
    · simp
    · rename_i notSingle
      cases place with
      | nil => exact absurd rfl start
      | cons first rest =>
        cases rest with
        | nil => exact absurd rfl (notSingle first)
        | cons second others => simp
  induction names generalizing place with
  | nil =>
    cases h
    exact start
  | cons first rest ih =>
    unfold follow at h
    split at h
    · cases h
    · split at h
      · exact ih start h
      · split at h
        · exact ih (outer_ne_nil start) h
        · split at h
          · cases h
          · split at h
            · cases h
            · exact ih (by simp) h

/-- What stands one name further is the child of that name of what stands before it. -/
theorem entryAt_concat {place : List String} (start : place ≠ []) :
    disk.entryAt (place ++ [name]) = (disk.entryAt place).bind (·.child? name) := by
  have descend_append (entry : Entry) (names : List String) :
      entry.descend (names ++ [name]) = (entry.descend names).bind (·.child? name) := by
    induction names generalizing entry with
    | nil => cases h : entry.child? name <;> simp [Entry.descend, h]
    | cons first rest ih => cases h : entry.child? first <;> simp [Entry.descend, h, ih]
  cases place with
  | nil => exact absurd rfl start
  | cons top names => exact descend_append _ _

/-- A path whose steps lead to a folder lists what is in the folder. -/
theorem list?_of_follow {place : List String} (notEmpty : folder ≠ "")
    (plain : '\x00' ∉ folder.toList) (short : folder.utf8ByteSize ≤ pathLimit)
    (follows : disk.follow [Path.top folder] (Path.steps folder) = .ok place)
    {entries : List (String × Entry)} (found : disk.entryAt place = some (.folder entries)) :
    disk.list? folder = some entries := by
  have isThere : disk.entry? folder = some (.folder entries) :=
    entry?_eq_some.mpr ⟨place, locate_eq_ok.mpr ⟨notEmpty, plain, short, follows⟩, found⟩
  simp [list?, isThere]

/-- What the path of a folder leads to, joined with a name, is what the folder has under the
name. -/
theorem exists_of_entry?_join (isName : Path.IsName name) (notEmpty : folder ≠ "") {entry : Entry}
    (h : disk.entry? (Path.join folder name) = some entry) :
    ∃ entries, disk.list? folder = some entries ∧ (name, entry) ∈ entries := by
  -- The folder's path has no mark and is no longer than the joined one, because it is a part of it.
  have contained : ∃ more, Path.join folder name = folder ++ more := by
    unfold Path.join
    rw [if_neg (by simp [isName.not_isAbsolute])]
    split
    · exact ⟨name, rfl⟩
    · exact ⟨"/" ++ name, String.append_assoc ..⟩
  obtain ⟨more, whole⟩ := contained
  obtain ⟨place, located, found⟩ := entry?_eq_some.mp h
  obtain ⟨-, plain, short, located⟩ := locate_eq_ok.mp located
  obtain ⟨before, joined, split⟩ := Path.steps_join isName notEmpty
  rw [Path.top_join isName notEmpty, joined, follow_append] at located
  obtain ⟨reached, follows, last⟩ := Outcome.bind_eq_ok.mp located
  obtain ⟨isFolder, rfl⟩ := follow_name isName last
  have followsFolder : disk.follow [Path.top folder] (Path.steps folder) = .ok reached := by
    -- An idle step at the end, the one after the last slash of the folder's path, stays in place.
    rcases split with split | split
    · rw [split, follows]
    · rw [split, follow_append, follows]
      simp [bind, Except.bind, follow, isFolder, Path.isIdle]
  rw [entryAt_concat (follow_ne_nil (by simp) follows)] at found
  obtain ⟨parent, isParent, child⟩ := Option.bind_eq_some_iff.mp found
  cases parent with
  | file bytes modified => cases child
  | folder entries =>
    refine ⟨entries, list?_of_follow notEmpty ?_ ?_ followsFolder isParent, mem_of_lookup child⟩
    · intro mark
      exact plain (by simp [whole, mark])
    · rw [whole, String.utf8ByteSize_append] at short
      omega

end Disk

/-! ## 3. Disks whose names are names

A name that the reader of a folder meets has to be one that a joined path can end in. Disks do not
say so of themselves, for they can be written down with any names at all; the property is carried by
the entries and holds of all that is found in them. -/

/-- Whether everything in an entry stands under a single name of its own. -/
inductive Entry.Named : Entry → Prop where
  | file (bytes : ByteArray) (modified : Nat) : Named (.file bytes modified)
  | folder {entries : List (String × Entry)} (names : ∀ item ∈ entries, Path.IsName item.1)
    (distinct : (entries.map (·.1)).Nodup) (inside : ∀ item ∈ entries, item.2.Named) :
    Named (.folder entries)

/-- Whether entries stand under names with a property, and each under a name of its own. -/
structure EntriesNamed (p : String → Prop) (entries : List (String × Entry)) : Prop where
  names : ∀ item ∈ entries, p item.1
  distinct : (entries.map (·.1)).Nodup
  inside : ∀ item ∈ entries, item.2.Named

/-- Whether everything below the top folders stands under a single name of its own. -/
def Disk.Named (disk : Disk) : Prop := EntriesNamed (fun _ => True) disk.tops

namespace Entry

/-- An empty folder has no names to speak of. -/
theorem named_nil : (folder []).Named := .folder (by simp) (by simp) (by simp)

/-- What a named entry holds is named. -/
theorem Named.child? {entry child : Entry} {name : String} (named : entry.Named)
    (found : entry.child? name = some child) : child.Named := by
  cases named with
  | file bytes modified => cases found
  | folder names distinct inside =>
    exact inside (name, child) (mem_of_lookup found)

/-- What names lead to inside a named entry is named. -/
theorem Named.descend {entry found : Entry} {names : List String} (named : entry.Named)
    (leads : entry.descend names = some found) : found.Named := by
  induction names generalizing entry with
  | nil =>
    cases leads
    exact named
  | cons first rest ih =>
    obtain ⟨child, isChild, leads⟩ := Option.bind_eq_some_iff.mp leads
    exact ih (named.child? isChild) leads

end Entry

namespace Disk

variable {disk : Disk}

theorem named_empty : empty.Named := ⟨by simp [empty], by simp [empty], by simp [empty]⟩

/-- What stands at a place of a named disk is named; an unknown top folder counts as an empty
one. -/
theorem Named.entryAt {names : List String} {entry : Entry} (named : disk.Named)
    (found : disk.entryAt names = some entry) : entry.Named := by
  cases names with
  | nil => cases found
  | cons top names =>
    refine Entry.Named.descend ?_ found
    cases isTop : disk.tops.lookup top with
    | none => exact Entry.named_nil
    | some entry =>
      exact named.inside (top, entry) (mem_of_lookup isTop)

/-- What is in a folder stands under names of its own. -/
theorem Named.names_of_list? {path : String} {entries : List (String × Entry)}
    (named : disk.Named) (found : disk.list? path = some entries) :
    (∀ item ∈ entries, Path.IsName item.1) ∧ (entries.map (·.1)).Nodup := by
  unfold list? at found
  split at found
  · rename_i isThere
    cases found
    obtain ⟨place, -, found⟩ := entry?_eq_some.mp isThere
    cases named.entryAt found with
    | folder names distinct inside => exact ⟨names, distinct⟩
  · cases found

/-! ## 4. Changes keep names

All writing is an `alterAt` along the names of a path, and those are single names because
`Path.names` splits at the slashes and resolves the idle ones and `..` itself. What a change puts at
the end has to be named, and then the disk is named again. -/

/-- Whether a change of what stands under a name keeps names. -/
def KeepsNames (change : Option Entry → Option Entry) : Prop :=
  ∀ before after, (∀ entry, before = some entry → entry.Named) →
    change before = some after → after.Named

/-- What is in a folder after a change was there before or is what the change made of the entry at
the name. -/
theorem mem_alter {change : Option Entry → Option Entry} {name : String} {item : String × Entry} :
    ∀ {entries : List (String × Entry)}, item ∈ alter change name entries →
      item ∈ entries ∨ item.1 = name ∧
        ∃ before, (before = none ∨ ∃ entry, (name, entry) ∈ entries ∧ before = some entry) ∧
          change before = some item.2
  | [], member => by
    unfold alter at member
    split at member
    · rename_i after made
      cases List.mem_singleton.mp member
      exact Or.inr ⟨rfl, none, Or.inl rfl, made⟩
    · cases member
  | (key, entry) :: rest, member => by
    unfold alter at member
    split at member
    · rename_i same
      subst same
      split at member
      · rename_i after made
        rcases List.mem_cons.mp member with rfl | member
        · exact Or.inr ⟨rfl, some entry, Or.inr ⟨entry, by simp, rfl⟩, made⟩
        · exact Or.inl (List.mem_cons_of_mem _ member)
      · exact Or.inl (List.mem_cons_of_mem _ member)
    · rcases List.mem_cons.mp member with rfl | member
      · exact Or.inl List.mem_cons_self
      · rcases mem_alter member with member | ⟨same, before, known, made⟩
        · exact Or.inl (List.mem_cons_of_mem _ member)
        · refine Or.inr ⟨same, before, known.imp_right ?_, made⟩
          rintro ⟨other, member, rfl⟩
          exact ⟨other, List.mem_cons_of_mem _ member, rfl⟩

/-- A change at a name gives no other name a second entry. -/
theorem nodup_alter {change : Option Entry → Option Entry} {name : String} :
    ∀ {entries : List (String × Entry)}, (entries.map (·.1)).Nodup →
      ((alter change name entries).map (·.1)).Nodup
  | [], _ => by
    unfold alter
    split <;> simp
  | (key, entry) :: rest, distinct => by
    rw [List.map_cons, List.nodup_cons] at distinct
    unfold alter
    split
    · split
      · exact List.nodup_cons.mpr distinct
      · exact distinct.2
    · rename_i other
      refine List.nodup_cons.mpr ⟨fun member => ?_, nodup_alter distinct.2⟩
      -- The key is not the changed name, so what stands under it stood there before.
      obtain ⟨item, member, same⟩ := List.mem_map.mp member
      rcases mem_alter member with member | ⟨isName, -⟩
      · exact distinct.1 (List.mem_map.mpr ⟨item, member, same⟩)
      · exact other (same.symm.trans isName)

end Disk

namespace EntriesNamed

/-- A change of what stands under one name keeps the names of all others. -/
theorem alter {p : String → Prop} {change : Option Entry → Option Entry}
    {name : String} {entries : List (String × Entry)} (named : EntriesNamed p entries)
    (isName : p name) (keeps : Disk.KeepsNames change) :
    EntriesNamed p (Disk.alter change name entries) where
  names item member := by
    rcases Disk.mem_alter member with member | ⟨same, -⟩
    · exact named.names item member
    · exact same ▸ isName
  distinct := Disk.nodup_alter named.distinct
  inside item member := by
    rcases Disk.mem_alter member with member | ⟨-, before, known, made⟩
    · exact named.inside item member
    · refine keeps before item.2 ?_ made
      rintro entry rfl
      rcases known with missing | ⟨other, member, same⟩
      · cases missing
      · cases same
        exact named.inside _ member

theorem folder {entries : List (String × Entry)}
    (named : EntriesNamed Path.IsName entries) : (Entry.folder entries).Named :=
  .folder named.names named.distinct named.inside

/-- What is changed at the end of a chain of names stands under names again. -/
theorem alterAt {change : Option Entry → Option Entry} (keeps : Disk.KeepsNames change) :
    ∀ {p : String → Prop} {names : List String} {entries : List (String × Entry)},
      EntriesNamed p entries → (∀ name ∈ names.head?, p name) →
      (∀ name ∈ names.tail, Path.IsName name) → EntriesNamed p (Disk.alterAt change names entries)
  | p, [], entries, named, _, _ => named
  | p, [name], entries, named, first, _ => named.alter (first name rfl) keeps
  | p, name :: second :: rest, entries, named, first, others => by
    -- Below the first name the change is again one at the end of a chain, made in the folder that
    -- stands there or in an empty one.
    refine named.alter (first name rfl) ?_
    have inner {inside : List (String × Entry)} (named : EntriesNamed Path.IsName inside) :
        (Entry.folder (Disk.alterAt change (second :: rest) inside)).Named :=
      (@alterAt _ keeps Path.IsName (second :: rest) inside named
        (fun name isHead => others name (List.mem_of_mem_head? isHead))
        (fun name member => others name (List.mem_of_mem_tail member))).folder
    intro before after isNamed made
    dsimp only at made
    split at made
    · rename_i inside
      cases made
      cases isNamed _ rfl with
      | folder names distinct deeper => exact inner ⟨names, distinct, deeper⟩
    · cases made
      exact inner ⟨by simp, by simp, by simp⟩

end EntriesNamed

namespace Disk

variable {disk : Disk}

/-- Whether names lead from a top folder along single names. -/
def IsPlace (names : List String) : Prop := ∀ name ∈ names.tail, Path.IsName name

/-- Going up keeps to a place. -/
theorem IsPlace.outer {names : List String} (place : IsPlace names) :
    IsPlace (Path.outer names) := by
  unfold Path.outer
  split
  · simp [IsPlace]
  · intro name member
    rw [List.tail_dropLast] at member
    exact place name (List.dropLast_subset _ member)

/-- Going down by a name keeps to a place. -/
theorem IsPlace.concat {names : List String} {name : String} (place : IsPlace names)
    (isName : Path.IsName name) : IsPlace (names ++ [name]) := by
  intro other member
  cases names with
  | nil => cases member
  | cons top rest =>
    rcases List.mem_append.mp member with member | member
    · exact place other member
    · cases List.mem_singleton.mp member
      exact isName

/-- A step that leads down is a name: steps are cut at slashes. -/
theorem isName_of_mem_steps {path name : String} (member : name ∈ Path.steps path)
    (notIdle : ¬ Path.isIdle name) (notOuter : name ≠ "..") : Path.IsName name := by
  obtain ⟨piece, isPiece, rfl⟩ := List.mem_map.mp member
  exact ⟨notIdle, notOuter, by simpa using Text.not_mem_of_mem_pieces isPiece⟩

/-- Names of a path lead along single names. -/
theorem isPlace_names (path : String) : IsPlace (Path.names path) := by
  refine List.foldlRecOn (motive := IsPlace) (Path.steps path) _ (by simp [IsPlace]) ?_
  intro names place name member
  split
  · exact place
  · rename_i notIdle
    split
    · exact place.outer
    · rename_i notOuter
      exact place.concat (isName_of_mem_steps member notIdle notOuter)

/-- A change at a path that keeps names keeps them on the whole disk. -/
theorem Named.change (named : disk.Named) (path : String) {change : Option Entry → Option Entry}
    (keeps : KeepsNames change) : (disk.change path change).Named :=
  EntriesNamed.alterAt keeps named (fun _ _ => trivial) (isPlace_names path)

/-- A named entry that is put at a place leaves the disk named. -/
theorem Named.putAt {names : List String} {entry : Entry} (named : disk.Named)
    (place : IsPlace names) (isNamed : entry.Named) : (disk.putAt names entry).Named := by
  refine EntriesNamed.alterAt ?_ named (fun _ _ => trivial) place
  rintro before after - ⟨⟩
  exact isNamed

theorem Named.write (named : disk.Named) (path : String) (bytes : ByteArray) (modified : Nat) :
    (disk.write path bytes modified).Named :=
  named.putAt (isPlace_names path) (.file bytes modified)

/-- Removing what stands at a path keeps names, for nothing is put in its place. -/
theorem Named.delete (named : disk.Named) (path : String) : (disk.delete path).Named :=
  named.change path fun _ _ _ made => by cases made

/-- Making the folders along steps keeps names, each of them being an empty folder under a name;
where a file stands in the way, what was made until then remains. -/
theorem Named.pave {place names : List String} (named : disk.Named) (isPlace : IsPlace place)
    (isStep : ∀ name ∈ names, ¬ Path.isIdle name → name ≠ ".." → Path.IsName name) :
    (disk.pave place names).2.Named := by
  induction names generalizing disk place with
  | nil => exact named
  | cons first rest ih =>
    have later := fun name member => isStep name (List.mem_cons_of_mem _ member)
    unfold Disk.pave
    split
    · exact ih named isPlace later
    · rename_i notIdle
      split
      · exact ih named isPlace.outer later
      · rename_i notOuter
        split
        · exact named
        -- Either a folder is there already, or a file stops the walk, or an empty folder is put
        -- there.
        · have deeper := isPlace.concat (isStep first List.mem_cons_self notIdle notOuter)
          dsimp only
          split
          · exact ih named deeper later
          · exact named
          · exact ih (named.putAt deeper Entry.named_nil) deeper later

/-- Making a folder keeps names. -/
theorem Named.makeFolder (named : disk.Named) (path : String) :
    (disk.makeFolder path).Named := by
  unfold Disk.makeFolder reach
  split
  · exact named
  · split
    · exact named
    · exact named.pave (by simp [IsPlace]) fun _ => isName_of_mem_steps

end Disk

end Corpus

end Intertext
