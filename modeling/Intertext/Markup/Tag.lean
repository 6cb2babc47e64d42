import Intertext.Markup.Token
/-!
What a start tag holds: a name as written, then attributes as written.

The name runs to the first white space and may hold anything else. An attribute is a key, an equals
sign and a value in quotes; its key begins with any character that is not white space and runs to
the next equals sign or white space. No white space is needed between one attribute and the next.
-/

namespace Intertext.Markup

/-- An attribute as written: its value still holds references. -/
structure RawAttribute where
  key : List Char
  value : List Char
deriving DecidableEq, Repr

namespace Tag

/-! ## 1. The name -/

/-- The name of a start tag as written. -/
def name (raw : List Char) : List Char := raw.takeWhile (!isBlank ·)

/-- What follows the name of a start tag. -/
def afterName (raw : List Char) : List Char := raw.dropWhile (!isBlank ·)

/-- Splits a written name at its first colon into an optional label and a local part. -/
def splitLabel (name : List Char) : Option (List Char) × List Char :=
  match name.dropWhile (· != ':') with
  | [] => (none, name)
  | _ :: part => (some (name.takeWhile (· != ':')), part)

/-- The name of an end tag: trailing white space does not count, unless there is nothing else. -/
def endName (raw : List Char) : List Char :=
  if raw.all isBlank then raw else (raw.reverse.dropWhile isBlank).reverse

/-! ## 2. Attributes -/

/-- A character that goes on with the key of an attribute. -/
def isKeyChar (c : Char) : Bool := c != '=' && !isBlank c

/-- Reads the quoted value of an attribute. -/
def quotedValue (input : List Char) : Except AttributeFault (List Char × List Char) :=
  match input with
  | [] => .error .expectedValue
  | quote :: body =>
    if quote = '"' ∨ quote = '\'' then
      match body.dropWhile (· != quote) with
      | [] => .error .expectedQuote
      | _ :: rest => .ok (body.takeWhile (· != quote), rest)
    else .error .unquotedValue

/-- Reads the attribute that begins with the character `c`. Its key must not be among `taken`, which
is looked at before its value. -/
def nextAttribute (taken : List (List Char)) (c : Char) (input : List Char) :
    Except AttributeFault (RawAttribute × List Char) :=
  let key := c :: input.takeWhile isKeyChar
  match (input.dropWhile isKeyChar).dropWhile isBlank with
  | '=' :: rest =>
    if key ∈ taken then .error .duplicated
    else
      match quotedValue (rest.dropWhile isBlank) with
      | .error fault => .error fault
      | .ok (value, rest) => .ok (⟨key, value⟩, rest)
  | _ => .error .expectedEq

theorem length_dropWhile_le {p : Char → Bool} (input : List Char) :
    (input.dropWhile p).length ≤ input.length :=
  (List.dropWhile_suffix p).length_le

theorem quotedValue_length_le {input value rest : List Char}
    (h : quotedValue input = .ok (value, rest)) : rest.length ≤ input.length := by
  unfold quotedValue at h
  split at h
  · cases h
  · rename_i quote body
    split at h
    · split at h
      · cases h
      · rename_i found
        cases h
        have := length_dropWhile_le (p := (· != quote)) body
        rw [found] at this
        simp only [List.length_cons] at this ⊢
        omega
    · cases h

theorem nextAttribute_length_le {taken : List (List Char)} {c : Char} {input rest : List Char}
    {item : RawAttribute} (h : nextAttribute taken c input = .ok (item, rest)) :
    rest.length ≤ input.length := by
  unfold nextAttribute at h
  simp only at h
  split at h
  · rename_i after found
    split at h
    · cases h
    · split at h
      · cases h
      · rename_i read
        cases h
        have := quotedValue_length_le read
        have := length_dropWhile_le (p := isBlank) after
        have := length_dropWhile_le (p := isKeyChar) input
        have := length_dropWhile_le (p := isBlank) (input.dropWhile isKeyChar)
        rw [found, List.length_cons] at this
        omega
  · cases h

/-- Reads attributes up to the first fault. With `distinct`, a key that was read before is a
fault. -/
def attributes (distinct : Bool) (taken : List (List Char)) (input : List Char) :
    List RawAttribute × Option AttributeFault :=
  match _start : input.dropWhile isBlank with
  | [] => ([], none)
  | c :: body =>
    match _read : nextAttribute (if distinct then taken else []) c body with
    | .error fault => ([], some fault)
    | .ok (item, rest) =>
      let (others, fault) := attributes distinct (item.key :: taken) rest
      (item :: others, fault)
termination_by input.length
decreasing_by
  have := nextAttribute_length_le _read
  have := length_dropWhile_le (p := isBlank) input
  rw [_start, List.length_cons] at this
  omega

end Tag

end Intertext.Markup
