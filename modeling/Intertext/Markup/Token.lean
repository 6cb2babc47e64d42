import Intertext.Markup.Fault
/-!
Tokens of markup.

`Token.scan` cuts a text into character data, CDATA sections, tags, and asides (comments,
instructions and document type declarations, which say nothing about the tree). It looks at where a
token ends and at nothing else: what a tag holds is read later. A scan that meets a fault keeps the
tokens before it, so that a fault of an earlier token is reported first.

Every step uses up at least one character (`Token.next_length_lt`), which is why scanning ends.
-/

namespace Intertext.Markup

/-- White space of markup: space, tab, carriage return and line feed. -/
def isBlank (c : Char) : Bool :=
  c == ' ' || c == '\t' || c == '\r' || c == '\n'

/-- A piece of markup, with the characters between its delimiters. -/
inductive Token where
  /-- Character data as written, references included. -/
  | text (raw : List Char)
  /-- The contents of a CDATA section. -/
  | cdata (raw : List Char)
  /-- A comment, an instruction or a document type declaration. -/
  | aside
  /-- A start tag. -/
  | start (raw : List Char)
  /-- A tag that is closed at once. -/
  | empty (raw : List Char)
  /-- An end tag. -/
  | close (raw : List Char)
deriving DecidableEq, Repr

namespace Token

/-! ## 1. Where things end -/

/-- Splits a text around the first occurrence of a mark, dropping the mark. -/
def cut? (mark : List Char) : List Char → Option (List Char × List Char)
  | [] => none
  | c :: rest =>
    if mark.isPrefixOf (c :: rest) then some ([], (c :: rest).drop mark.length)
    else (cut? mark rest).map fun (before, after) => (c :: before, after)

/-- Splits a text around the first closing angle bracket that no opening one pairs with. -/
def cutBalanced? : Nat → List Char → Option (List Char × List Char)
  | _, [] => none
  | 0, '>' :: rest => some ([], rest)
  | depth + 1, '>' :: rest =>
    (cutBalanced? depth rest).map fun (before, after) => ('>' :: before, after)
  | depth, '<' :: rest =>
    (cutBalanced? (depth + 1) rest).map fun (before, after) => ('<' :: before, after)
  | depth, c :: rest =>
    (cutBalanced? depth rest).map fun (before, after) => (c :: before, after)

/-- Splits a text around the first closing angle bracket outside quotes. The first argument is the
quote that is open. -/
def cutTag? : Option Char → List Char → Option (List Char × List Char)
  | _, [] => none
  | none, '>' :: rest => some ([], rest)
  | none, c :: rest =>
    (cutTag? (if c = '"' ∨ c = '\'' then some c else none) rest).map
      fun (before, after) => (c :: before, after)
  | some quote, c :: rest =>
    (cutTag? (if c = quote then none else some quote) rest).map
      fun (before, after) => (c :: before, after)

/-- What follows a word that may be spelled in either case. -/
def dropWord? : (word input : List Char) → Option (List Char)
  | [], input => some input
  | _ :: _, [] => none
  | w :: word, c :: input => if w.toUpper = c.toUpper then dropWord? word input else none

/-! ## 2. One token -/

/-- Reads a CDATA section, given the text after the exclamation mark. -/
def cdataSection (input : List Char) : Except TokenFault (Token × List Char) :=
  match cut? "]]>".toList input with
  | none => .error .unclosedCdata
  | some (body, rest) =>
    match body with
    | '[' :: 'C' :: 'D' :: 'A' :: 'T' :: 'A' :: '[' :: raw => .ok (.cdata raw, rest)
    | _ => .error .unclosedCdata

/-- Reads a comment, given the text after its opening mark. -/
def comment (input : List Char) : Except TokenFault (Token × List Char) :=
  match cut? "-->".toList input with
  | none => .error .unclosedComment
  | some (_, rest) => .ok (.aside, rest)

/-- Reads an instruction, given the text after its opening mark. An opening mark whose question mark
would be that of the end as well opens nothing that can be closed. -/
def instruction (input : List Char) : Except TokenFault (Token × List Char) :=
  if input.head? = some '>' then .error .unclosedInstruction
  else
    match cut? "?>".toList input with
    | none => .error .unclosedInstruction
    | some (_, rest) => .ok (.aside, rest)

/-- Reads a document type declaration, given the text after the exclamation mark. -/
def doctype (input : List Char) : Except TokenFault (Token × List Char) :=
  match cutBalanced? 0 input with
  | none => .error .unclosedDoctype
  | some (body, rest) =>
    match dropWord? "DOCTYPE".toList body with
    | none => .error .unclosedDoctype
    | some name => if name.all isBlank then .error .missingDoctypeName else .ok (.aside, rest)

/-- Reads what an exclamation mark opens, given the text after it. -/
def bang (input : List Char) : Except TokenFault (Token × List Char) :=
  match input with
  | '[' :: _ => cdataSection input
  | '-' :: '-' :: body => comment body
  | '-' :: _ => .error .unclosedComment
  | 'D' :: _ => doctype input
  | 'd' :: _ => doctype input
  | _ => .error .unknownBang

/-- The token of a start tag: a final slash closes it at once. -/
def ofStartTag (raw : List Char) : Token :=
  if raw.getLast? = some '/' then .empty raw.dropLast else .start raw

/-- Reads an end tag, given the text after its slash. -/
def endTag (input : List Char) : Except TokenFault (Token × List Char) :=
  match cutTag? none input with
  | none => .error .unclosedTag
  | some (raw, rest) => .ok (.close raw, rest)

/-- Reads a start tag, given the text after its angle bracket. -/
def startTag (input : List Char) : Except TokenFault (Token × List Char) :=
  match cutTag? none input with
  | none => .error .unclosedTag
  | some (raw, rest) => .ok (ofStartTag raw, rest)

/-- Reads what an opening angle bracket opens, given the text after it. -/
def markup (input : List Char) : Except TokenFault (Token × List Char) :=
  match input with
  | [] => .error .unclosedTag
  | '!' :: body => bang body
  | '?' :: body => instruction body
  | '/' :: body => endTag body
  | _ => startTag input

/-- Reads the first token of a text that begins with the character `c`. -/
def next (c : Char) (input : List Char) : Except TokenFault (Token × List Char) :=
  if c = '<' then markup input
  else .ok (.text (c :: input.takeWhile (· != '<')), input.dropWhile (· != '<'))

/-! ## 3. Progress -/

theorem cut?_length_le {mark : List Char} :
    ∀ {input before after : List Char}, cut? mark input = some (before, after) →
      after.length ≤ input.length
  | [], _, _, h => by simp [cut?] at h
  | c :: rest, before, after, h => by
    rw [cut?] at h
    split at h
    · simp only [Option.some.injEq, Prod.mk.injEq] at h
      rw [← h.2, List.length_drop]
      omega
    · simp only [Option.map_eq_some_iff, Prod.mk.injEq, Prod.exists] at h
      obtain ⟨b, a, found, _, rfl⟩ := h
      have := cut?_length_le found
      simp only [List.length_cons]
      omega

theorem cutBalanced?_length_le {depth : Nat} {input before after : List Char}
    (h : cutBalanced? depth input = some (before, after)) : after.length ≤ input.length := by
  fun_induction cutBalanced? depth input generalizing before after with
  | case1 => simp at h
  | case2 => simp_all
  | case3 _ _ ih | case4 _ _ ih | case5 _ _ _ _ _ _ ih =>
    simp only [Option.map_eq_some_iff, Prod.mk.injEq, Prod.exists] at h
    obtain ⟨b, a, found, _, rfl⟩ := h
    have := ih found
    simp only [List.length_cons]
    omega

theorem cutTag?_length_le {quote : Option Char} {input before after : List Char}
    (h : cutTag? quote input = some (before, after)) : after.length ≤ input.length := by
  fun_induction cutTag? quote input generalizing before after with
  | case1 => simp at h
  | case2 => simp_all
  | case3 _ _ _ ih | case4 _ _ _ ih =>
    simp only [Option.map_eq_some_iff, Prod.mk.injEq, Prod.exists] at h
    obtain ⟨b, a, found, _, rfl⟩ := h
    have := ih found
    simp only [List.length_cons]
    omega

theorem cdataSection_length_le {input rest : List Char} {token : Token}
    (h : cdataSection input = .ok (token, rest)) : rest.length ≤ input.length := by
  unfold cdataSection at h
  split at h
  · cases h
  · rename_i found
    split at h
    · cases h
      exact cut?_length_le found
    · cases h

theorem comment_length_le {input rest : List Char} {token : Token}
    (h : comment input = .ok (token, rest)) : rest.length ≤ input.length := by
  unfold comment at h
  split at h
  · cases h
  · rename_i found
    cases h
    exact cut?_length_le found

theorem instruction_length_le {input rest : List Char} {token : Token}
    (h : instruction input = .ok (token, rest)) : rest.length ≤ input.length := by
  unfold instruction at h
  split at h
  · cases h
  · split at h
    · cases h
    · rename_i found
      cases h
      exact cut?_length_le found

theorem doctype_length_le {input rest : List Char} {token : Token}
    (h : doctype input = .ok (token, rest)) : rest.length ≤ input.length := by
  unfold doctype at h
  split at h
  · cases h
  · rename_i found
    split at h
    · cases h
    · split at h
      · cases h
      · cases h
        exact cutBalanced?_length_le found

theorem bang_length_le {input rest : List Char} {token : Token}
    (h : bang input = .ok (token, rest)) : rest.length ≤ input.length := by
  unfold bang at h
  split at h
  · exact cdataSection_length_le h
  · have := comment_length_le h
    simp only [List.length_cons]
    omega
  · cases h
  · exact doctype_length_le h
  · exact doctype_length_le h
  · cases h

theorem endTag_length_le {input rest : List Char} {token : Token}
    (h : endTag input = .ok (token, rest)) : rest.length ≤ input.length := by
  unfold endTag at h
  split at h
  · cases h
  · rename_i found
    cases h
    exact cutTag?_length_le found

theorem startTag_length_le {input rest : List Char} {token : Token}
    (h : startTag input = .ok (token, rest)) : rest.length ≤ input.length := by
  unfold startTag at h
  split at h
  · cases h
  · rename_i found
    cases h
    exact cutTag?_length_le found

theorem markup_length_le {input rest : List Char} {token : Token}
    (h : markup input = .ok (token, rest)) : rest.length ≤ input.length := by
  unfold markup at h
  split at h
  · cases h
  · have := bang_length_le h
    simp only [List.length_cons]
    omega
  · have := instruction_length_le h
    simp only [List.length_cons]
    omega
  · have := endTag_length_le h
    simp only [List.length_cons]
    omega
  · exact startTag_length_le h

theorem next_length_lt {c : Char} {input rest : List Char} {token : Token}
    (h : next c input = .ok (token, rest)) : rest.length < (c :: input).length := by
  unfold next at h
  split at h
  · have := markup_length_le h
    simp only [List.length_cons]
    omega
  · simp only [Except.ok.injEq, Prod.mk.injEq] at h
    obtain ⟨_, rfl⟩ := h
    have := (List.dropWhile_suffix (l := input) (· != '<')).length_le
    simp only [List.length_cons]
    omega

/-! ## 4. All tokens -/

/-- Cuts a text into tokens, up to the first fault. -/
def scan : List Char → List Token × Option TokenFault
  | [] => ([], none)
  | c :: input =>
    match _found : next c input with
    | .error fault => ([], some fault)
    | .ok (token, rest) =>
      let (tokens, fault) := scan rest
      (token :: tokens, fault)
termination_by input => input.length
decreasing_by exact next_length_lt _found

end Token

end Intertext.Markup
