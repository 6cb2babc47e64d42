import Intertext.Proofs.Markup.Tags
/-!
Tokens of what was written, and what reading them comes to.

Reading a text from a state on is `Reading.readOn`. Escaped character data, start tags, tags that
are closed at once and end tags are each the next token of a text that begins with them, whatever
follows, so that a text can be read from left to right, one written piece at a time
(`Reading.readOn_next`). Character data is read back as what was escaped (`Reading.readOn_text`).
-/

namespace Intertext.Markup

/-! ## 1. Reading on

A document is read token by token from a state. With `readOn` what is still to be read stands beside
what has been read, so a step is one rewriting. -/

/-- Empty character data changes nothing. -/
theorem OpenElement.pushText_empty (element : OpenElement) : element.pushText "" = element := by
  obtain ⟨id, path, name, written, attributes, text, children, scope⟩ := element
  cases children with
  | nil => simp [pushText]
  | cons last earlier =>
    cases last
    simp [pushText]

/-- A text that begins with a token is scanned token by token. -/
theorem Token.scan_cons {c : Char} {input rest : List Char} {token : Token}
    (found : next c input = .ok (token, rest)) :
    scan (c :: input) = (token :: (scan rest).1, (scan rest).2) := by
  rw [scan]
  split
  · rename_i fault failed
    rw [found] at failed
    cases failed
  · rename_i other remaining isNext
    rw [found] at isNext
    cases isNext
    rfl

namespace Reading

/-- What reading a text from a state on comes to. -/
def readOn (state : Reading) (input : List Char) : Except Fault Document := do
  let (tokens, fault) := Token.scan input
  let state ← tokens.foldlM Reading.step state
  match fault with
  | some fault => .error (.token fault)
  | none => state.finish

/-- At the end of the text reading is finished. -/
theorem readOn_nil (state : Reading) : state.readOn [] = state.finish := by
  rw [readOn, Token.scan]
  rfl

/-- A token that is understood is read. -/
theorem readOn_next {state next : Reading} {c : Char} {input rest : List Char} {token : Token}
    (found : Token.next c input = .ok (token, rest)) (steps : state.step token = .ok next) :
    state.readOn (c :: input) = next.readOn rest := by
  rw [readOn, Token.scan_cons found]
  simp only [List.foldlM_cons, steps]
  rfl

end Reading

/-! ## 2. Tokens that were written

Escaped text holds no sign that begins or ends markup, and the values of a tag are quoted, so each
token ends where it was written to end. -/

namespace Text

/-- The signs that are escaped do not occur in what is written. -/
theorem not_mem_escape {mark : Char} (isMark : mark ∈ ['<', '>', '"', '\'']) (text : String) :
    mark ∉ (escape text).toList := by
  intro member
  rw [escape, String.toList_ofList, List.mem_flatMap] at member
  obtain ⟨c, -, member⟩ := member
  have written : mark ∉ escapeChar c := by
    unfold escapeChar
    simp only [List.mem_cons, List.not_mem_nil, or_false] at isMark
    split
    all_goals rcases isMark with rfl | rfl | rfl | rfl <;> simp_all [eq_comm]
  exact written member

/-- A text without the characters that are escaped is written as it is. -/
theorem escape_eq {text : String}
    (plain : ∀ mark ∈ ['<', '>', '&', '\'', '"'], mark ∉ text.toList) : escape text = text := by
  have all : ∀ chars : List Char, (∀ mark ∈ ['<', '>', '&', '\'', '"'], mark ∉ chars) →
      chars.flatMap escapeChar = chars := by
    intro chars plain
    induction chars with
    | nil => rfl
    | cons c rest ih =>
      have other (mark : Char) (isMark : mark ∈ ['<', '>', '&', '\'', '"']) : c ≠ mark := by
        rintro rfl
        exact plain c isMark List.mem_cons_self
      -- no letter is one of those that are escaped
      have alone : escapeChar c = [c] := by
        have less := other '<' (by decide)
        have greater := other '>' (by decide)
        have ampersand := other '&' (by decide)
        have single := other '\'' (by decide)
        have double := other '"' (by decide)
        unfold escapeChar
        split
        · exact absurd rfl less
        · exact absurd rfl greater
        · exact absurd rfl ampersand
        · exact absurd rfl single
        · exact absurd rfl double
        · rfl
      rw [List.flatMap_cons, alone, ih fun mark isMark member =>
        plain mark isMark (List.mem_cons_of_mem _ member)]
      rfl
  rw [escape, all _ plain, String.ofList_toList]

end Text

variable {name : List Char} {items : List RawAttribute} {rest : List Char}

/-- A start tag that was written does not end in a slash. -/
theorem getLast?_startTag (isName : IsTagName name) (items : List RawAttribute) :
    (startTag name items).getLast? ≠ some '/' := by
  intro isLast
  rcases List.eq_nil_or_concat' items with rfl | ⟨before, last, rfl⟩
  · rw [startTag, List.flatMap_nil, List.append_nil] at isLast
    exact isName.ends isLast
  · have quoted : startTag name (before ++ [last]) =
        (name ++ before.flatMap (·.assigned) ++ (' ' :: last.key ++ '=' :: '"' :: last.value)) ++
          ['"'] := by
      simp [startTag, RawAttribute.assigned]
    rw [quoted, List.getLast?_concat] at isLast
    cases isLast

/-- What begins with a name is the start of a tag. -/
theorem next_of_isTagName (isName : IsTagName name) (more : List Char) :
    Token.next '<' (name ++ more) = Token.startTag (name ++ more) := by
  obtain ⟨c, chars, rfl⟩ := List.exists_cons_of_ne_nil isName.ne_nil
  have other (mark : Char) (isMark : mark ∈ ['!', '?', '/']) : c ≠ mark := by
    rintro rfl
    exact isName.begins c rfl isMark
  -- a name begins with none of the signs that tell other markup
  rw [Token.next, if_pos rfl, List.cons_append, Token.markup]
  · intro none
    cases none
  · rintro body ⟨⟩
    exact other '!' (by decide) rfl
  · rintro body ⟨⟩
    exact other '?' (by decide) rfl
  · rintro body ⟨⟩
    exact other '/' (by decide) rfl

/-- A start tag that was written is the next token. -/
theorem next_startTag (isName : IsTagName name) (plain : ∀ item ∈ items, item.IsPlain) :
    Token.next '<' (startTag name items ++ '>' :: rest) =
      .ok (.start (startTag name items), rest) := by
  have begins : Token.next '<' (startTag name items ++ '>' :: rest) =
      Token.startTag (startTag name items ++ '>' :: rest) := by
    rw [startTag, List.append_assoc]
    exact next_of_isTagName isName _
  rw [begins, Token.startTag, Token.cutTag?_of_closed (closed_startTag isName plain)]
  simp only [Token.ofStartTag, if_neg (getLast?_startTag isName items)]

/-- A tag that was written as closed at once is the next token. -/
theorem next_emptyTag (isName : IsTagName name) (plain : ∀ item ∈ items, item.IsPlain) :
    Token.next '<' (startTag name items ++ '/' :: '>' :: rest) =
      .ok (.empty (startTag name items), rest) := by
  have begins : Token.next '<' (startTag name items ++ '/' :: '>' :: rest) =
      Token.startTag (startTag name items ++ '/' :: '>' :: rest) := by
    rw [startTag, List.append_assoc]
    exact next_of_isTagName isName _
  have slash : Token.Closed ['/'] := Token.closed_singleton (by decide) (by decide)
  have whole : startTag name items ++ '/' :: '>' :: rest =
      startTag name items ++ ['/'] ++ '>' :: rest := by simp
  rw [begins, whole, Token.startTag,
    Token.cutTag?_of_closed ((closed_startTag isName plain).append slash)]
  simp only [Token.ofStartTag, List.getLast?_concat, List.dropLast_concat, if_true]

/-- An end tag that was written is the next token. -/
theorem next_endTag (isName : IsTagName name) :
    Token.next '<' ('/' :: name ++ '>' :: rest) = .ok (.close name, rest) := by
  have cut := @Token.cutTag?_of_closed _ rest (Token.closed_of_unmarked isName.unmarked)
  rw [Token.next, if_pos rfl, List.cons_append, Token.markup, Token.endTag, cut]

/-- Character data that was written is the next token, if any was. -/
theorem next_text {c : Char} {chars : List Char} (plain : '<' ∉ c :: chars) :
    Token.next c (chars ++ '<' :: rest) = .ok (.text (c :: chars), '<' :: rest) := by
  rw [List.mem_cons, not_or] at plain
  obtain ⟨isText, after⟩ := @Tag.takeWhile_eq (· != '<') chars ('<' :: rest)
    (fun other member => by
      rw [bne_iff_ne]
      rintro rfl
      exact plain.2 member)
    fun c isFirst => by
      cases isFirst
      rfl
  rw [Token.next, if_neg (Ne.symm plain.1), isText, after]

/-! ## 3. Texts and tags

Two pieces of character data in a row would be one token. That is why the text has to be followed by
markup. -/

namespace Reading

variable {innermost : OpenElement} {outer : List OpenElement} {root : Option Node} {count : Nat}
  {namespaces : List (Option String × String)}

/-- Character data that was written is read back. -/
theorem readOn_text (text : String) (starts : rest.head? = some '<') :
    readOn ⟨innermost :: outer, root, count, namespaces⟩ ((Text.escape text).toList ++ rest) =
      readOn ⟨innermost.pushText text :: outer, root, count, namespaces⟩ rest := by
  obtain ⟨more, rfl⟩ : ∃ more, rest = '<' :: more := List.head?_eq_some_iff.mp starts
  have plain := Text.not_mem_escape (show '<' ∈ ['<', '>', '"', '\''] by decide) text
  have expanded := Text.expand_escape text
  -- nothing is written for an empty text, and then no token is read
  cases written : (Text.escape text).toList with
  | nil =>
    rw [written] at expanded
    have none : text = "" := by
      rw [← String.toList_eq_nil_iff]
      exact (Except.ok.inj expanded).symm
    subst none
    rw [innermost.pushText_empty]
    rfl
  | cons c chars =>
    rw [written] at plain expanded
    refine readOn_next (next_text plain) ?_
    rw [step, expanded]
    simp [Except.mapError, bind, Except.bind, addText, pure, Except.pure]

/-- An end tag closes the element that it names. -/
theorem readOn_endTag (isName : IsTagName innermost.written) :
    readOn ⟨innermost :: outer, root, count, namespaces⟩
        ('<' :: '/' :: innermost.written ++ '>' :: rest) =
      (leave ⟨innermost :: outer, root, count, namespaces⟩).readOn rest := by
  refine readOn_next (next_endTag isName) ?_
  rw [step, closeTag]
  simp only [Tag.endName_eq isName, if_pos]

end Reading

end Intertext.Markup
