import Intertext.Markup.Reader
import Intertext.Proofs.Markup.Labels
/-!
Reading a tag that was written.

A start tag is written as a name and assignments, each a blank, a key, an equals sign and a value in
double quotes. As long as names and keys have none of the characters that tags are cut at, and
values no double quote, the tag ends where it was ended (`Token.Closed`), its name is the name
(`Tag.name_startTag`), and its attributes are the assignments, one after another
(`Tag.attributes_written`).
-/

namespace Intertext.Markup

theorem isBlank_iff {c : Char} : isBlank c = true ↔ c ∈ [' ', '\t', '\r', '\n'] := by
  simp [isBlank, or_assoc]

/-- What tags are not cut at holds no blank. -/
theorem IsUncut.not_blank {chars : List Char} (uncut : IsUncut chars) {c : Char}
    (member : c ∈ chars) : isBlank c = false := by
  rw [Bool.eq_false_iff]
  intro blank
  have isMark : c ∈ tagMarks :=
    (show [' ', '\t', '\r', '\n'] ⊆ tagMarks by decide) (isBlank_iff.mp blank)
  exact uncut.unmarked c isMark member

/-! ## 1. Where a tag ends

A tag ends at the first `>` outside quotes. Being closed is said for any continuation, so that the
parts of a tag can be shown closed one by one and put together. -/

namespace Token

/-- Whether a tag that holds these characters goes on after them as if they were not there. -/
def Closed (chars : List Char) : Prop :=
  ∀ rest, cutTag? none (chars ++ rest) =
    (cutTag? none rest).map fun (before, after) => (chars ++ before, after)

theorem closed_nil : Closed [] := by
  intro rest
  cases h : cutTag? none rest <;> simp [h]

/-- Closed parts make a closed whole. -/
theorem Closed.append {first second : List Char} (one : Closed first) (other : Closed second) :
    Closed (first ++ second) := by
  intro rest
  rw [List.append_assoc, one, other]
  cases cutTag? none rest <;> simp

/-- A character that neither ends a tag nor opens quotes is closed. -/
theorem closed_singleton {c : Char} (noEnd : c ≠ '>') (noQuote : c ≠ '"' ∧ c ≠ '\'') :
    Closed [c] := by
  intro rest
  simp [cutTag?, noQuote.1, noQuote.2]

/-- Characters without any of the marks are closed. -/
theorem closed_of_unmarked {chars : List Char} (unmarked : ∀ mark ∈ tagMarks, mark ∉ chars) :
    Closed chars := by
  induction chars with
  | nil => exact closed_nil
  | cons c rest ih =>
    have other (mark : Char) (isMark : mark ∈ tagMarks) : c ≠ mark := by
      rintro rfl
      exact unmarked c isMark List.mem_cons_self
    have first := closed_singleton (other '>' (by decide))
      ⟨other '"' (by decide), other '\'' (by decide)⟩
    exact first.append (ih fun mark isMark member =>
      unmarked mark isMark (List.mem_cons_of_mem _ member))

/-- A value in double quotes may hold anything but double quotes. -/
theorem closed_quoted {value : List Char} (plain : '"' ∉ value) :
    Closed ('"' :: value ++ ['"']) := by
  intro rest
  -- Within the quotes only the closing one is looked for.
  have inside : cutTag? (some '"') (value ++ '"' :: rest) =
      (cutTag? none rest).map fun (before, after) => (value ++ '"' :: before, after) := by
    induction value with
    | nil =>
      rw [List.nil_append, cutTag?]
      rfl
    | cons c others ih =>
      rw [List.mem_cons, not_or] at plain
      rw [List.cons_append, cutTag?, if_neg (Ne.symm plain.1), ih plain.2]
      cases cutTag? none rest <;> simp
  have whole : '"' :: value ++ ['"'] ++ rest = '"' :: (value ++ '"' :: rest) := by simp
  rw [whole, cutTag?, if_pos (Or.inl rfl), inside]
  · cases cutTag? none rest <;> simp
  · decide

/-- A closed part is the whole tag if the end of it follows. -/
theorem cutTag?_of_closed {raw rest : List Char} (closed : Closed raw) :
    cutTag? none (raw ++ '>' :: rest) = some (raw, rest) := by
  rw [closed, cutTag?]
  simp

end Token

/-! ## 2. Attributes

Reading attributes takes one after another and remembers their keys, which the next ones are held
against. So what is read of the rest is told for any keys that are taken. -/

/-- An attribute as it stands in a tag, with the blank before it. -/
def RawAttribute.assigned (item : RawAttribute) : List Char :=
  ' ' :: item.key ++ '=' :: '"' :: item.value ++ ['"']

/-- Whether an attribute is read as it was written. -/
structure RawAttribute.IsPlain (item : RawAttribute) : Prop where
  key : IsKey item.key
  value : '"' ∉ item.value

/-- A start tag without its angle brackets. -/
def startTag (name : List Char) (items : List RawAttribute) : List Char :=
  name ++ items.flatMap (·.assigned)

variable {name : List Char} {items : List RawAttribute} {item : RawAttribute}

/-- An attribute that can be read back does not end the tag it is in. -/
theorem RawAttribute.IsPlain.closed (plain : item.IsPlain) : Token.Closed item.assigned := by
  have blank : Token.Closed [' '] := Token.closed_singleton (by decide) (by decide)
  have equals : Token.Closed ['='] := Token.closed_singleton (by decide) (by decide)
  have parts := ((blank.append (Token.closed_of_unmarked plain.key.unmarked)).append equals).append
    (Token.closed_quoted plain.value)
  simpa [RawAttribute.assigned] using parts

/-- A start tag ends where it was ended, if its name and its attributes can be read back. -/
theorem closed_startTag (isName : IsTagName name) (plain : ∀ item ∈ items, item.IsPlain) :
    Token.Closed (startTag name items) := by
  refine (Token.closed_of_unmarked isName.unmarked).append ?_
  induction items with
  | nil => exact Token.closed_nil
  | cons first rest ih =>
    rw [List.flatMap_cons]
    exact (plain first List.mem_cons_self).closed.append
      (ih fun item member => plain item (List.mem_cons_of_mem _ member))

namespace Tag

/-- What fits up to something that does not is what is taken. -/
theorem takeWhile_eq {p : Char → Bool} {chars rest : List Char} (all : ∀ c ∈ chars, p c = true)
    (stops : ∀ c ∈ rest.head?, p c = false) :
    (chars ++ rest).takeWhile p = chars ∧ (chars ++ rest).dropWhile p = rest := by
  induction chars with
  | nil =>
    cases rest with
    | nil => simp
    | cons c rest => simp [stops c rfl]
  | cons c chars ih =>
    have inside := ih fun other member => all other (List.mem_cons_of_mem _ member)
    simp [all c List.mem_cons_self, inside.1, inside.2]

/-- A blank stands after the name, unless there are no attributes. -/
theorem head?_assigned (items : List RawAttribute) :
    ∀ c ∈ (items.flatMap (·.assigned)).head?, c = ' ' := by
  intro c isFirst
  cases items with
  | nil => cases isFirst
  | cons first rest => simpa [RawAttribute.assigned, eq_comm] using isFirst

/-- The name of a start tag that was written, and what follows it. -/
theorem name_startTag (isName : IsTagName name) (items : List RawAttribute) :
    Tag.name (startTag name items) = name ∧
      Tag.afterName (startTag name items) = items.flatMap (·.assigned) := by
  refine takeWhile_eq (fun c member => ?_) fun c isFirst => ?_
  · rw [isName.not_blank member]
    rfl
  · rw [head?_assigned items c isFirst]
    rfl

/-- An attribute that was written is read back, unless its key is taken. -/
theorem nextAttribute_assigned {c : Char} {key value rest : List Char}
    {taken : List (List Char)} (plain : RawAttribute.IsPlain ⟨c :: key, value⟩) :
    nextAttribute taken c (key ++ '=' :: '"' :: value ++ '"' :: rest) =
      if c :: key ∈ taken then .error .duplicated else .ok (⟨c :: key, value⟩, rest) := by
  -- The key ends at the equals sign, and the value at the second quote.
  have keyChars (other : Char) (member : other ∈ key) : isKeyChar other = true := by
    have inKey := List.mem_cons_of_mem c member
    have notEquals : other ≠ '=' := by
      rintro rfl
      exact plain.key.unequal inKey
    simp [isKeyChar, notEquals, plain.key.not_blank inKey]
  have whole : key ++ '=' :: '"' :: value ++ '"' :: rest =
      key ++ ('=' :: '"' :: (value ++ '"' :: rest)) := by simp
  obtain ⟨isKey, after⟩ := @takeWhile_eq isKeyChar key
    ('=' :: '"' :: (value ++ '"' :: rest)) keyChars fun c isFirst => by
      cases isFirst
      rfl
  obtain ⟨isValue, last⟩ := @takeWhile_eq (· != '"') value ('"' :: rest)
    (fun other member => by
      rw [bne_iff_ne]
      rintro rfl
      exact plain.value member)
    fun c isFirst => by
      cases isFirst
      rfl
  have blanks : ('=' :: '"' :: (value ++ '"' :: rest)).dropWhile isBlank =
      '=' :: '"' :: (value ++ '"' :: rest) := rfl
  have quoted : quotedValue (('"' :: (value ++ '"' :: rest)).dropWhile isBlank) =
      .ok (value, rest) := by
    have start : ('"' :: (value ++ '"' :: rest)).dropWhile isBlank =
      '"' :: (value ++ '"' :: rest) := rfl
    rw [start, quotedValue, if_pos (Or.inl rfl), last, isValue]
  rw [whole, nextAttribute, isKey, after]
  simp only [blanks, quoted]

/-- Where only blanks are left, no attribute is. -/
theorem attributes_nil {distinct : Bool} {taken : List (List Char)} {input : List Char}
    (ends : input.dropWhile isBlank = []) : attributes distinct taken input = ([], none) := by
  rw [attributes]
  split
  · rfl
  · rename_i found
    rw [ends] at found
    cases found

/-- An attribute that can be read is the first, and its key is taken for all the others. -/
theorem attributes_cons {distinct : Bool} {taken : List (List Char)} {input body rest : List Char}
    {c : Char} {item : RawAttribute} (starts : input.dropWhile isBlank = c :: body)
    (read : nextAttribute (if distinct then taken else []) c body = .ok (item, rest)) :
    attributes distinct taken input =
      (item :: (attributes distinct (item.key :: taken) rest).1,
        (attributes distinct (item.key :: taken) rest).2) := by
  rw [attributes]
  split
  · rename_i found
    rw [starts] at found
    cases found
  · rename_i found
    rw [starts] at found
    cases found
    split
    · rename_i failed
      rw [read] at failed
      cases failed
    · rename_i isRead
      rw [read] at isRead
      cases isRead
      rfl

/-- An attribute that cannot be read is the end of them. -/
theorem attributes_error {distinct : Bool} {taken : List (List Char)} {input body : List Char}
    {c : Char} {fault : AttributeFault} (starts : input.dropWhile isBlank = c :: body)
    (failed : nextAttribute (if distinct then taken else []) c body = .error fault) :
    attributes distinct taken input = ([], some fault) := by
  rw [attributes]
  split
  · rename_i found
    rw [starts] at found
    cases found
  · rename_i found
    rw [starts] at found
    cases found
    split
    · rename_i other
      rw [failed] at other
      cases other
      rfl
    · rename_i isRead
      rw [failed] at isRead
      cases isRead

/-- What is left of a tag at an attribute that was written. -/
theorem dropWhile_assigned {c : Char} {key value : List Char} {rest : List RawAttribute}
    (plain : RawAttribute.IsPlain ⟨c :: key, value⟩) :
    ((⟨c :: key, value⟩ :: rest).flatMap RawAttribute.assigned).dropWhile isBlank =
      c :: (key ++ '=' :: '"' :: value ++ '"' :: rest.flatMap RawAttribute.assigned) := by
  have notBlank := plain.key.not_blank List.mem_cons_self
  simp [RawAttribute.assigned, notBlank, show isBlank ' ' = true from rfl]

/-- Attributes that were written are read back in their order. -/
theorem attributes_written {distinct : Bool} {taken : List (List Char)}
    (plain : ∀ item ∈ items, item.IsPlain) (nodup : (items.map (·.key)).Nodup)
    (new : ∀ item ∈ items, item.key ∉ taken) :
    Tag.attributes distinct taken (items.flatMap (·.assigned)) = (items, none) := by
  induction items generalizing taken with
  | nil => exact attributes_nil rfl
  | cons first rest ih =>
    rw [List.map_cons, List.nodup_cons] at nodup
    have isPlain := plain first List.mem_cons_self
    have others := @ih (first.key :: taken)
      (fun item member => plain item (List.mem_cons_of_mem _ member)) nodup.2
      (fun item member => by
        rw [List.mem_cons, not_or]
        refine ⟨fun same => nodup.1 (List.mem_map.mpr ⟨item, member, same⟩), ?_⟩
        exact new item (List.mem_cons_of_mem _ member))
    obtain ⟨key, value⟩ := first
    obtain ⟨c, key, rfl⟩ := List.exists_cons_of_ne_nil isPlain.key.ne_nil
    -- Repeated keys are refused or not, and here there are none.
    have untaken : c :: key ∉ if distinct then taken else [] := by
      split
      · exact new _ List.mem_cons_self
      · simp
    have read := (@nextAttribute_assigned c key value (rest.flatMap (·.assigned)) _ isPlain).trans
      (if_neg untaken)
    rw [attributes_cons (dropWhile_assigned isPlain) read, others]

/-- Attributes that were written are read without a fault only if no key is there twice. -/
theorem nodup_of_attributes {taken : List (List Char)} (plain : ∀ item ∈ items, item.IsPlain)
    (noFault : (Tag.attributes true taken (items.flatMap (·.assigned))).2 = none) :
    (items.map (·.key)).Nodup ∧ ∀ item ∈ items, item.key ∉ taken := by
  induction items generalizing taken with
  | nil => exact ⟨List.nodup_nil, fun item none => by cases none⟩
  | cons first rest ih =>
    have isPlain := plain first List.mem_cons_self
    obtain ⟨key, value⟩ := first
    obtain ⟨c, key, rfl⟩ := List.exists_cons_of_ne_nil isPlain.key.ne_nil
    have starts := @dropWhile_assigned c key value rest isPlain
    have read := @nextAttribute_assigned c key value (rest.flatMap (·.assigned)) taken isPlain
    by_cases isTaken : c :: key ∈ taken
    · rw [if_pos isTaken] at read
      rw [attributes_error starts (by simpa using read)] at noFault
      cases noFault
    · rw [if_neg isTaken] at read
      rw [attributes_cons starts (by simpa using read)] at noFault
      obtain ⟨nodup, new⟩ := ih (fun item member => plain item (List.mem_cons_of_mem _ member))
        noFault
      refine ⟨List.nodup_cons.mpr ⟨fun again => ?_, nodup⟩, List.forall_mem_cons.mpr ⟨isTaken, ?_⟩⟩
      · obtain ⟨item, member, same⟩ := List.mem_map.mp again
        exact new item member (same ▸ List.mem_cons_self)
      · exact fun item member inTaken => new item member (List.mem_cons_of_mem _ inTaken)

/-! ## 3. Names

An end tag has its name with blanks after it, if any, and a label goes up to the first colon. -/

/-- A name that was written in an end tag is read back. -/
theorem endName_eq (isName : IsTagName name) : Tag.endName name = name := by
  unfold Tag.endName
  have backwards : name.reverse.dropWhile isBlank = name.reverse := by
    have inside := @takeWhile_eq isBlank [] name.reverse (by simp) fun c isLast => by
      refine isName.not_blank ?_
      exact List.mem_reverse.mp (List.mem_of_mem_head? isLast)
    exact inside.2
  rw [backwards, List.reverse_reverse, ite_self]

/-- A name without a colon has no label. -/
theorem splitLabel_plain (noColon : ':' ∉ name) : splitLabel name = (none, name) := by
  have all : ∀ c ∈ name, (c != ':') = true := by
    intro c member
    rw [bne_iff_ne]
    rintro rfl
    exact noColon member
  have none : name.dropWhile (· != ':') = [] := by
    simpa using (@takeWhile_eq (· != ':') name [] all (by simp)).2
  rw [splitLabel, none]

/-- A label that was written is read back, whatever colons come after it. -/
theorem splitLabel_labelled {label part : List Char} (noColon : ':' ∉ label) :
    splitLabel (label ++ ':' :: part) = (some label, part) := by
  obtain ⟨isLabel, after⟩ := @takeWhile_eq (· != ':') label (':' :: part)
    (fun c member => by
      rw [bne_iff_ne]
      rintro rfl
      exact noColon member)
    fun c isFirst => by
      cases isFirst
      rfl
  rw [splitLabel, after, isLabel]

end Tag

end Intertext.Markup
