import Mathlib.Data.List.TakeWhile
import Intertext.Proofs.Markup.Runs
/-!
Where tokens end, and how a run of characters may be written.

A token ends where it ends, whatever follows, except that character data goes on up to the next
markup. So a text can be cut behind any token, if what follows begins with markup or the token is
no character data (`Token.scan_append`). What stands there may be taken out, put in or replaced, as
long as it stands for the same characters: a run may be cut into character data and CDATA sections
in any way, and comments and instructions may stand anywhere between (`IsRun`). A document that is
read does not tell the difference (`Document.characters_of_parse`).
-/

namespace Intertext.Markup

open Outcome (bind_eq_ok)

/-! ## 1. Where tokens end

Each kind of token is cut at the mark that ends it, and what follows the mark is not looked at.
There is one lemma for each kind, in the order in which the reader tells them apart; `next_append`
puts them together. -/

namespace Token

variable {mark input before after rest : List Char} {token : Token}

/-- Where a mark was found, there was room for it. -/
theorem length_le_of_cut? : ∀ {input before after : List Char},
    cut? mark input = some (before, after) → mark.length ≤ input.length
  | [], _, _, h => by cases h
  | c :: rest, before, after, h => by
    rw [cut?] at h
    split at h
    · rename_i begins
      exact (List.isPrefixOf_iff_prefix.mp begins).length_le
    · obtain ⟨⟨_, _⟩, found, -⟩ := Option.map_eq_some_iff.mp h
      exact Nat.le_succ_of_le (length_le_of_cut? found)

/-- What was cut off at a mark is cut off there whatever follows. -/
theorem cut?_append (more : List Char) : ∀ {input before after : List Char},
    cut? mark input = some (before, after) →
      cut? mark (input ++ more) = some (before, after ++ more)
  | [], _, _, h => by cases h
  | c :: rest, before, after, h => by
    have fits := length_le_of_cut? h
    -- The mark does not reach into what follows, because it fits before it.
    have same : mark.isPrefixOf (c :: (rest ++ more)) = mark.isPrefixOf (c :: rest) := by
      rw [Bool.eq_iff_iff, List.isPrefixOf_iff_prefix, List.isPrefixOf_iff_prefix]
      exact List.isPrefix_append_of_length fits
    rw [cut?] at h
    rw [List.cons_append, cut?, same]
    split at h
    · rename_i begins
      cases h
      rw [if_pos begins, ← List.cons_append, List.drop_append_of_le_length fits]
    · rename_i differs
      obtain ⟨⟨_, _⟩, found, made⟩ := Option.map_eq_some_iff.mp h
      cases made
      rw [if_neg differs, cut?_append more found]
      rfl

/-- What was cut off at the bracket that closes is cut off there whatever follows. -/
theorem cutBalanced?_append (more : List Char) {depth : Nat}
    (h : cutBalanced? depth input = some (before, after)) :
    cutBalanced? depth (input ++ more) = some (before, after ++ more) := by
  fun_induction cutBalanced? depth input generalizing before after with
  | case1 => cases h
  | case2 => simp_all [cutBalanced?]
  | case3 _ _ ih | case4 _ _ ih | case5 _ _ _ _ _ _ ih =>
    obtain ⟨⟨_, _⟩, found, made⟩ := Option.map_eq_some_iff.mp h
    cases made
    simp_all [cutBalanced?]

/-- A tag that ended ends there whatever follows. -/
theorem cutTag?_append (more : List Char) {quote : Option Char}
    (h : cutTag? quote input = some (before, after)) :
    cutTag? quote (input ++ more) = some (before, after ++ more) := by
  fun_induction cutTag? quote input generalizing before after with
  | case1 => cases h
  | case2 => simp_all [cutTag?]
  | case3 _ _ _ ih | case4 _ _ _ ih =>
    obtain ⟨⟨_, _⟩, found, made⟩ := Option.map_eq_some_iff.mp h
    cases made
    simp_all [cutTag?]

theorem cdataSection_append (more : List Char) (h : cdataSection input = .ok (token, rest)) :
    cdataSection (input ++ more) = .ok (token, rest ++ more) := by
  unfold cdataSection at h ⊢
  split at h
  · cases h
  · rename_i found
    rw [cut?_append more found]
    split at h
    · cases h
      rfl
    · cases h

theorem comment_append (more : List Char) (h : comment input = .ok (token, rest)) :
    comment (input ++ more) = .ok (token, rest ++ more) := by
  unfold comment at h ⊢
  split at h
  · cases h
  · rename_i found
    cases h
    rw [cut?_append more found]

theorem instruction_append (more : List Char) (h : instruction input = .ok (token, rest)) :
    instruction (input ++ more) = .ok (token, rest ++ more) := by
  unfold instruction at h ⊢
  split at h
  · cases h
  · rename_i opens
    split at h
    · cases h
    · rename_i found
      cases h
      -- An instruction is told by its first character, so there has to be one before what follows.
      have nonempty : input ≠ [] := by
        rintro rfl
        cases found
      rw [List.head?_append_of_ne_nil _ nonempty, if_neg opens, cut?_append more found]

theorem doctype_append (more : List Char) (h : doctype input = .ok (token, rest)) :
    doctype (input ++ more) = .ok (token, rest ++ more) := by
  unfold doctype at h ⊢
  split at h
  · cases h
  · rename_i found
    rw [cutBalanced?_append more found]
    dsimp only
    split at h
    · cases h
    · split at h
      · cases h
      · rename_i isNamed
        cases h
        rw [if_neg isNamed]

theorem bang_append (more : List Char) (h : bang input = .ok (token, rest)) :
    bang (input ++ more) = .ok (token, rest ++ more) := by
  unfold bang at h
  split at h
  · exact cdataSection_append more h
  · exact comment_append more h
  · cases h
  · exact doctype_append more h
  · exact doctype_append more h
  · cases h

theorem endTag_append (more : List Char) (h : endTag input = .ok (token, rest)) :
    endTag (input ++ more) = .ok (token, rest ++ more) := by
  unfold endTag at h ⊢
  split at h
  · cases h
  · rename_i found
    cases h
    rw [cutTag?_append more found]

theorem startTag_append (more : List Char) (h : startTag input = .ok (token, rest)) :
    startTag (input ++ more) = .ok (token, rest ++ more) := by
  unfold startTag at h ⊢
  split at h
  · cases h
  · rename_i found
    cases h
    rw [cutTag?_append more found]

/-- Markup is told apart by its first characters, and these do not change. -/
theorem markup_append (more : List Char) (h : markup input = .ok (token, rest)) :
    markup (input ++ more) = .ok (token, rest ++ more) := by
  unfold markup at h
  split at h
  · cases h
  · exact bang_append more h
  · exact instruction_append more h
  · exact endTag_append more h
  · rename_i nonempty notBang notInstruction notEnd
    obtain ⟨c, input, rfl⟩ := List.exists_cons_of_ne_nil nonempty
    -- The branch for start tags is the last: none of the earlier patterns fits with more after it
    -- either.
    have again := startTag_append more h
    rw [List.cons_append] at again ⊢
    unfold markup
    split
    · rename_i none
      cases none
    · rename_i isBang
      cases isBang
      exact absurd rfl (notBang _)
    · rename_i isInstruction
      cases isInstruction
      exact absurd rfl (notInstruction _)
    · rename_i isEnd
      cases isEnd
      exact absurd rfl (notEnd _)
    · exact again

/-- A token ends where it ends, whatever follows; character data goes on, unless markup follows. -/
theorem next_append {c : Char} {more : List Char} (h : next c input = .ok (token, rest))
    (ends : c = '<' ∨ rest ≠ [] ∨ more.head? = some '<') :
    next c (input ++ more) = .ok (token, rest ++ more) := by
  unfold next at h ⊢
  split at h
  · rename_i isMarkup
    rw [if_pos isMarkup]
    exact markup_append more h
  · rename_i noMarkup
    rw [if_neg noMarkup]
    cases h
    -- Character data that ends in markup ended there already; otherwise markup has to follow.
    cases left : input.dropWhile (· != '<') with
    | cons mark others =>
      have goesOn : (input.takeWhile (· != '<')).length ≠ input.length := by
        have parts := congrArg List.length
          (List.takeWhile_append_dropWhile (p := (· != '<')) (l := input))
        rw [List.length_append, left, List.length_cons] at parts
        omega
      rw [List.takeWhile_append, if_neg goesOn, List.dropWhile_append, left]
      rfl
    | nil =>
      have begins := (ends.resolve_left noMarkup).resolve_left (absurd left)
      obtain ⟨others, rfl⟩ := List.head?_eq_some_iff.mp begins
      have plain := List.dropWhile_eq_nil_iff.mp left
      rw [List.takeWhile_append_of_pos plain, List.dropWhile_append_of_pos plain,
        List.takeWhile_eq_self_iff.mpr plain]
      simp

/-- Whether a text is made of whole tokens, and what follows does not go on with the last one. -/
structure Ends (input : List Char) (tokens : List Token) (more : List Char) : Prop where
  scanned : scan input = (tokens, none)
  parts : (∀ raw, tokens.getLast? ≠ some (.text raw)) ∨ more.head? = some '<'

/-- What follows whole tokens is scanned as if nothing stood before it. -/
theorem Ends.scan_append {more : List Char} : ∀ {input : List Char} {tokens : List Token},
    Ends input tokens more → scan (input ++ more) = (tokens ++ (scan more).1, (scan more).2)
  | [], tokens, ends => by
    have none := ends.scanned
    rw [scan] at none
    cases none
    rfl
  | c :: input, tokens, ends => by
    have whole := ends.scanned
    cases found : next c input with
    | error fault =>
      rw [scan] at whole
      split at whole
      · cases whole
      · rename_i isNext
        rw [found] at isNext
        cases isNext
    | ok cut =>
      obtain ⟨token, rest⟩ := cut
      rw [scan_cons found] at whole
      obtain ⟨rfl, noFault⟩ := Prod.mk.inj whole
      have below : Ends rest (scan rest).1 more := by
        refine ⟨Prod.ext rfl noFault, ends.parts.imp_left fun noText raw isLast => noText raw ?_⟩
        rw [List.getLast?_cons, isLast]
        rfl
      -- The only token that could go on is character data up to the end, and it would be the last.
      have isEnd : c = '<' ∨ rest ≠ [] ∨ more.head? = some '<' := by
        rcases ends.parts with noText | begins
        · by_cases isMarkup : c = '<'
          · exact Or.inl isMarkup
          · refine Or.inr (Or.inl fun none => ?_)
            rw [next, if_neg isMarkup] at found
            obtain ⟨rfl, -⟩ := Prod.mk.inj (Except.ok.inj found)
            refine noText (c :: input.takeWhile (· != '<')) ?_
            rw [none, scan]
            rfl
        · exact Or.inr (Or.inr begins)
      rw [List.cons_append, scan_cons (next_append found isEnd), below.scan_append,
        List.cons_append]
termination_by input => input.length
decreasing_by exact next_length_lt found

/-- What stands before a mark is cut off there, if the mark is not in it already. The last character
of the mark occurs nowhere else in the mark, so no mark can begin before it and end in it. -/
theorem cut?_of_not_isInfix (mark : List Char) {last : Char} (fresh : last ∉ mark)
    (rest : List Char) :
    ∀ {body : List Char}, ¬ mark ++ [last] <:+: body →
      cut? (mark ++ [last]) (body ++ (mark ++ [last]) ++ rest) = some (body, rest)
  | [], _ => by
    obtain ⟨c, others, whole⟩ := List.exists_cons_of_ne_nil
      (List.append_ne_nil_of_right_ne_nil mark (List.cons_ne_nil last []))
    rw [List.nil_append, whole, List.cons_append, cut?, if_pos, ← List.cons_append,
      List.drop_left]
    rw [List.isPrefixOf_iff_prefix, ← List.cons_append]
    exact List.prefix_append ..
  | c :: body, outside => by
    have below := cut?_of_not_isInfix mark fresh rest fun inside =>
      outside (inside.trans (List.suffix_cons c body).isInfix)
    -- If the mark fits before its own end it is in the text, and otherwise its end would be inside
    -- itself.
    have notHere : ¬ mark ++ [last] <+: (c :: body) ++ (mark ++ [last] ++ rest) := by
      intro begins
      by_cases fits : (mark ++ [last]).length ≤ (c :: body).length
      · exact outside ((List.isPrefix_append_of_length fits).mp begins).isInfix
      · -- the mark would end in the mark that follows
        obtain ⟨overlap, whole⟩ := List.prefix_of_prefix_length_le (List.prefix_append _ _) begins
          (Nat.le_of_not_le fits)
        have length := congrArg List.length whole
        rw [List.length_append] at length
        have nonempty : overlap ≠ [] := by
          rintro rfl
          exact fits (by rw [← length]; simp)
        have isLast : overlap.getLast? = some last := by
          rw [← List.getLast?_append_of_ne_nil _ nonempty, whole, List.getLast?_concat]
        have inside : (c :: body) ++ overlap <+: (c :: body) ++ (mark ++ [last] ++ rest) :=
          whole ▸ begins
        rw [List.prefix_append_right_inj, List.append_assoc,
          List.isPrefix_append_of_length (by simp at length; omega)] at inside
        exact fresh (inside.subset (List.mem_of_getLast? isLast))
    rw [List.append_assoc, List.cons_append, cut?, if_neg, ← List.append_assoc, below]
    · rfl
    · rw [List.isPrefixOf_iff_prefix]
      exact notHere

end Token

/-! ## 2. How a run may be written

Comments and instructions give no characters, and a CDATA section gives its own. So one run of
characters can be written in many ways, which `IsRun` lists; references are what keeps character
data from being cut anywhere. -/

/-- How a comment or an instruction is written. The marks at their ends must not occur earlier, and
a bracket right after the mark of an instruction would leave it open. -/
inductive IsAside : List Char → Prop where
  | comment (body : List Char) (whole : ¬ "-->".toList <:+: body) :
    IsAside ("<!--".toList ++ body ++ "-->".toList)
  | instruction (body : List Char) (whole : ¬ "?>".toList <:+: body)
    (opens : body.head? ≠ some '>') : IsAside ("<?".toList ++ body ++ "?>".toList)

/-- How a run of characters may be written: as character data and CDATA sections, with comments and
instructions before, between and after them. -/
inductive IsRun : (written characters : List Char) → Prop where
  | nil : IsRun [] []
  | data (raw : List Char) {characters written others : List Char} (plain : '<' ∉ raw)
    (sound : Text.expand raw = .ok characters) (rest : IsRun written others) :
    IsRun (raw ++ written) (characters ++ others)
  | cdata (raw : List Char) {written others : List Char} (whole : ¬ "]]>".toList <:+: raw)
    (rest : IsRun written others) :
    IsRun ("<![CDATA[".toList ++ raw ++ "]]>".toList ++ written) (raw ++ others)
  | aside {aside written others : List Char} (isAside : IsAside aside)
    (rest : IsRun written others) : IsRun (aside ++ written) others

namespace Text

/-- Character data that is sound by itself is expanded by itself, whatever follows. -/
theorem expandFrom_append (second : List Char) {name : Option (List Char)}
    {first characters : List Char} (sound : expandFrom name first = .ok characters) :
    expandFrom name (first ++ second) = (expandFrom none second).map (characters ++ ·) := by
  fun_induction expandFrom name first generalizing characters with
  | case1 =>
    cases sound
    rw [List.nil_append]
    cases expandFrom none second <;> rfl
  | case2 | case5 => cases sound
  | case3 rest ih => simpa [expandFrom] using ih sound
  | case4 c rest noMark ih =>
    obtain ⟨others, found, made⟩ := bind_eq_ok.mp sound
    cases made
    simp only [List.cons_append, expandFrom, ih found]
    cases expandFrom none second <;> rfl
  -- A reference ends here, inside the first part.
  | case6 name rest ih =>
    obtain ⟨c, isChar, sound⟩ := bind_eq_ok.mp sound
    obtain ⟨others, found, made⟩ := bind_eq_ok.mp sound
    cases made
    simp only [List.cons_append, expandFrom, ih found, isChar]
    cases expandFrom none second <;> rfl
  | case7 name c rest noMark noEnd ih => simpa [expandFrom] using ih sound

/-- References do not reach from one piece of character data into the next. -/
theorem expand_append {first second characters others : List Char}
    (sound : expand first = .ok characters) (soundNext : expand second = .ok others) :
    expand (first ++ second) = .ok (characters ++ others) := by
  unfold expand at sound soundNext ⊢
  rw [expandFrom_append second sound, soundNext]
  rfl

end Text

namespace Token

variable {body rest : List Char}

/-- A CDATA section that was written is the next token. -/
theorem next_cdata (whole : ¬ "]]>".toList <:+: body) (rest : List Char) :
    next '<' ("![CDATA[".toList ++ body ++ "]]>".toList ++ rest) = .ok (.cdata body, rest) := by
  have cut : cut? "]]>".toList (body ++ "]]>".toList ++ rest) = some (body, rest) :=
    cut?_of_not_isInfix [']', ']'] (by decide) rest whole
  have cutAll : cut? "]]>".toList ("[CDATA[".toList ++ (body ++ "]]>".toList ++ rest)) =
      some ("[CDATA[".toList ++ body, rest) := by
    simpa [cut?, List.isPrefixOf] using cut
  have isSection : cdataSection ("[CDATA[".toList ++ (body ++ "]]>".toList ++ rest)) =
      .ok (.cdata body, rest) := by
    rw [cdataSection, cutAll]
    rfl
  exact isSection

/-- An aside that was written is the next token. -/
theorem next_aside {aside : List Char} (isAside : IsAside aside) :
    ∃ others, aside = '<' :: others ∧ ∀ rest, next '<' (others ++ rest) = .ok (.aside, rest) := by
  cases isAside with
  | comment body whole =>
    refine ⟨"!--".toList ++ body ++ "-->".toList, rfl, fun rest => ?_⟩
    have cut : cut? "-->".toList (body ++ "-->".toList ++ rest) = some (body, rest) :=
      cut?_of_not_isInfix ['-', '-'] (by decide) rest whole
    have isComment : comment (body ++ "-->".toList ++ rest) = .ok (.aside, rest) := by
      rw [comment, cut]
    exact isComment
  | instruction body whole opens =>
    refine ⟨"?".toList ++ body ++ "?>".toList, rfl, fun rest => ?_⟩
    have cut : cut? "?>".toList (body ++ "?>".toList ++ rest) = some (body, rest) :=
      cut?_of_not_isInfix ['?'] (by decide) rest whole
    have isInstruction : instruction (body ++ "?>".toList ++ rest) = .ok (.aside, rest) := by
      rw [instruction, cut, if_neg]
      cases body with
      | nil => simp
      | cons c body => exact opens
    exact isInstruction

end Token

/-! ## 3. Reading a run

Text is added to what was read last, and adding twice adds both. So the tokens of a run leave the
same state as its characters in one piece. -/

/-- Text that is added in two parts is added as one. -/
theorem OpenElement.pushText_append (element : OpenElement) (first second : String) :
    (element.pushText first).pushText second = element.pushText (first ++ second) := by
  obtain ⟨id, path, name, written, attributes, text, children, scope⟩ := element
  cases children <;> simp [pushText, String.append_assoc]

namespace Reading

variable {written characters rest : List Char}

/-- Text that is added to a state in two parts is added as one. -/
theorem addText_append (state : Reading) (first second : String) :
    (state.addText first).addText second = state.addText (first ++ second) := by
  obtain ⟨stack, root, count, namespaces⟩ := state
  cases stack with
  | nil => rfl
  | cons innermost outer => simp only [addText, OpenElement.pushText_append]

/-- Character data adds what it stands for. -/
theorem readOn_data (state : Reading) {raw : List Char} (plain : '<' ∉ raw)
    (sound : Text.expand raw = .ok characters) (starts : rest.head? = some '<') :
    state.readOn (raw ++ rest) = (state.addText (String.ofList characters)).readOn rest := by
  obtain ⟨more, rfl⟩ := List.head?_eq_some_iff.mp starts
  cases raw with
  | nil =>
    cases sound
    exact congrArg (readOn · _) (addText_empty state).symm
  | cons c raw =>
    refine readOn_next (next_text plain) ?_
    rw [step, sound]
    rfl

/-- *A run adds the characters it stands for, however it is written.* Character data may have begun
before, since it goes on in the first piece of the run. -/
theorem readOn_run (isRun : IsRun written characters) (starts : rest.head? = some '<') :
    ∀ (state : Reading) {raw begun : List Char}, '<' ∉ raw → Text.expand raw = .ok begun →
      state.readOn (raw ++ (written ++ rest)) =
        (state.addText (String.ofList (begun ++ characters))).readOn rest := by
  induction isRun with
  | nil =>
    intro state raw begun plain sound
    rw [List.nil_append, List.append_nil]
    exact state.readOn_data plain sound starts
  | data _ plain sound _ ih =>
    intro state raw begun plainBefore soundBefore
    rw [List.append_assoc, ← List.append_assoc raw, ← List.append_assoc begun]
    refine ih state (fun member => ?_) (Text.expand_append soundBefore sound)
    exact (List.mem_append.mp member).elim plainBefore plain
  | @cdata body written _ whole _ ih =>
    intro state raw begun plain sound
    -- Character data that was begun ends here, and the section is a token of its own.
    have next := Token.next_cdata whole (written ++ rest)
    have inner := ih ((state.addText (String.ofList begun)).addText (String.ofList body))
      List.not_mem_nil (rfl : Text.expand [] = .ok [])
    rw [List.nil_append, List.nil_append, addText_append, addText_append, ← String.ofList_append,
      ← String.ofList_append, List.append_assoc] at inner
    rw [← inner, List.append_assoc _ written, state.readOn_data plain sound rfl,
      String.ofList_append, ← addText_append]
    exact readOn_next next rfl
  | @aside _ written _ isAside _ ih =>
    intro state raw begun plain sound
    obtain ⟨marked, rfl, next⟩ := Token.next_aside isAside
    have inner := ih (state.addText (String.ofList begun)) List.not_mem_nil
      (rfl : Text.expand [] = .ok [])
    rw [List.nil_append, List.nil_append, addText_append, ← String.ofList_append] at inner
    rw [← inner, List.append_assoc _ written, state.readOn_data plain sound rfl]
    exact readOn_next (next _) rfl

end Reading

/-! ## 4. Documents -/

namespace Document

variable {before : List Char} {tokens : List Token}

/-- The mark at the beginning of a text is no part of what follows. -/
theorem withoutMark_append (nonempty : before ≠ []) (more : List Char) :
    withoutMark (before ++ more) = withoutMark before ++ more := by
  obtain ⟨c, others, rfl⟩ := List.exists_cons_of_ne_nil nonempty
  rw [List.cons_append]
  unfold withoutMark
  split <;> simp_all

/-- What follows whole tokens is read on from where they lead. -/
theorem read_append {more : List Char} (ends : Token.Ends (withoutMark before) tokens more)
    (nonempty : tokens ≠ []) :
    read (before ++ more) = (tokens.foldlM Reading.step .start >>= (·.readOn more)) := by
  have isText : before ≠ [] := by
    rintro rfl
    have scanned : Token.scan [] = (tokens, none) := ends.scanned
    rw [Token.scan] at scanned
    cases scanned
    exact nonempty rfl
  rw [read, withoutMark_append isText, ends.scan_append]
  dsimp only
  rw [List.foldlM_append]
  cases tokens.foldlM Reading.step .start <;> rfl

/-- Comments and instructions may stand between any two tokens. -/
theorem read_aside {aside after : List Char}
    (ends : Token.Ends (withoutMark before) tokens after) (nonempty : tokens ≠ [])
    (isAside : IsAside aside) : read (before ++ (aside ++ after)) = read (before ++ after) := by
  obtain ⟨marked, rfl, next⟩ := Token.next_aside isAside
  have endsBefore : Token.Ends (withoutMark before) tokens ('<' :: marked ++ after) :=
    ⟨ends.scanned, Or.inr rfl⟩
  rw [read_append ends nonempty, read_append endsBefore nonempty]
  refine congrArg (tokens.foldlM Reading.step .start >>= ·) (funext fun state => ?_)
  exact Reading.readOn_next (next after) rfl

/-- A run may be written in any way. -/
theorem read_run {run other after characters : List Char}
    (scanned : Token.scan (withoutMark before) = (tokens, none)) (nonempty : tokens ≠ [])
    (noText : ∀ raw, tokens.getLast? ≠ some (.text raw)) (starts : after.head? = some '<')
    (isRun : IsRun run characters) (isOther : IsRun other characters) :
    read (before ++ (run ++ after)) = read (before ++ (other ++ after)) := by
  rw [read_append ⟨scanned, Or.inl noText⟩ nonempty, read_append ⟨scanned, Or.inl noText⟩ nonempty]
  refine congrArg (tokens.foldlM Reading.step .start >>= ·) (funext fun state => ?_)
  have added {written : List Char} (isRun : IsRun written characters) :=
    Reading.readOn_run isRun starts state List.not_mem_nil (rfl : Text.expand [] = .ok [])
  exact (added isRun).trans (added isOther).symm

/-- *Reading conserves character data.* Between the start tag and the end tag of the root, outside
of which there are no tags, the characters are those of the root. The run behind each tag is kept
behind the edge that the tag makes: in the text of the element that a start tag begins, in the tail
of the element that an end tag ends. Comments and instructions between tokens change nothing, nor
does it matter how a run is written. -/
theorem characters_of_parse {text : String} {document : Document}
    (h : parse text = .ok document) :
    (∃ prolog element epilog,
      Token.scan (withoutMark text.toList) = (prolog ++ element ++ epilog, none) ∧
      (∀ token ∈ prolog ++ epilog, token.isTag = false) ∧
      (∃ tag, element.head? = some tag ∧ tag.isTag = true) ∧
      (∃ tag, element.getLast? = some tag ∧ tag.isTag = true) ∧
      (∀ raw, .text raw ∈ element → ∃ characters, Text.expand raw = .ok characters) ∧
      document.root.toElement.characters = String.ofList (element.flatMap Token.characters) ∧
      document.root.runs = Token.runs 0 [] element ∧
      (document.root.runs.map (·.1)).Nodup ∧
      ∀ node ∈ document.nodes, (.opening node.id, node.text) ∈ document.root.runs ∧
        (.closing node.id, node.tail) ∈ document.root.runs) ∧
    (∀ before aside after tokens, text.toList = before ++ after →
      Token.Ends (withoutMark before) tokens after → tokens ≠ [] → IsAside aside →
        parse (String.ofList (before ++ (aside ++ after))) = .ok document) ∧
    ∀ before run other after tokens characters, text.toList = before ++ (run ++ after) →
      Token.scan (withoutMark before) = (tokens, none) → tokens ≠ [] →
      (∀ raw, tokens.getLast? ≠ some (.text raw)) → after.head? = some '<' →
      IsRun run characters → IsRun other characters →
        parse (String.ofList (before ++ (other ++ after))) = .ok document := by
  refine ⟨?_, ?_, ?_⟩
  · obtain ⟨prolog, element, epilog, scanned, noTags, ⟨tag, first, isTag⟩, last, sound, runs⟩ :=
      runs_of_parse h
    exact ⟨prolog, element, epilog, scanned, noTags, ⟨tag, first, isTag⟩, last, sound,
      characters_of_runs h first isTag runs, runs, nodup_runs h, fun node isNode =>
        Node.mem_runs isNode⟩
  · intro before aside after tokens whole ends nonempty isAside
    rw [parse, String.toList_ofList, read_aside ends nonempty isAside, ← whole]
    exact h
  · intro before run other after tokens _ whole scanned nonempty noText starts isRun isOther
    rw [parse, String.toList_ofList, ← read_run scanned nonempty noText starts isRun isOther,
      ← whole]
    exact h

/-- A text with a run of character data in front of an element and another one behind it. -/
def twoRunsText : String := "<r>a&amp;b<i/>c</r>"

/-- The document of that text. -/
def twoRuns : Document where
  root := ⟨0, "/r", .plain "r", [], "a&b", [⟨1, "/r/i[1]", .plain "i", [], "", [], "c"⟩], ""⟩
  namespaces := []

/-- The run may be cut, and a comment may stand in it or behind the other one. -/
theorem characters_of_parse_twoRuns :
    twoRuns.root.toElement.characters = "a&bc" ∧
      parse "<r>a<![CDATA[&]]><!--?-->b<i/>c</r>" = .ok twoRuns ∧
      parse "<r>a&amp;b<i/>c<!--?--></r>" = .ok twoRuns := by
  have parsed : parse twoRunsText = .ok twoRuns := by cbv
  obtain ⟨-, inserted, rewritten⟩ := characters_of_parse parsed
  have isRun : IsRun ['a', '&', 'a', 'm', 'p', ';', 'b'] ['a', '&', 'b'] :=
    .data ['a', '&', 'a', 'm', 'p', ';', 'b'] (by decide) rfl .nil
  have isMark : IsAside ['<', '!', '-', '-', '?', '-', '-', '>'] := .comment ['?'] (by decide)
  have isEnd : IsRun ['b'] ['b'] := .data ['b'] (by decide) rfl .nil
  -- The reference is written as a section, with a comment behind it.
  have isOther : IsRun "a<![CDATA[&]]><!--?-->b".toList ['a', '&', 'b'] :=
    .data ['a'] (by decide) rfl (.cdata ['&'] (by decide) (.aside isMark isEnd))
  refine ⟨by decide, ?_, ?_⟩
  · have whole : twoRunsText.toList =
        ['<', 'r', '>'] ++ (['a', '&', 'a', 'm', 'p', ';', 'b'] ++ "<i/>c</r>".toList) := by decide
    have scanned : Token.scan (withoutMark ['<', 'r', '>']) = ([.start ['r']], none) := by cbv
    have noText : ∀ raw, [Token.start ['r']].getLast? ≠ some (.text raw) :=
      fun raw isText => Token.noConfusion (Option.some.inj isText)
    have written : String.ofList (['<', 'r', '>'] ++ ("a<![CDATA[&]]><!--?-->b".toList ++
        "<i/>c</r>".toList)) = "<r>a<![CDATA[&]]><!--?-->b<i/>c</r>" := by decide
    rw [← written]
    exact rewritten _ _ _ _ _ _ whole scanned (by decide) noText (by decide) isRun isOther
  · have whole : twoRunsText.toList = "<r>a&amp;b<i/>c".toList ++ ['<', '/', 'r', '>'] := by decide
    have scanned : Token.scan (withoutMark "<r>a&amp;b<i/>c".toList) =
        ([.start ['r'], .text "a&amp;b".toList, .empty ['i'], .text ['c']], none) := by cbv
    have written : String.ofList ("<r>a&amp;b<i/>c".toList ++
        (['<', '!', '-', '-', '?', '-', '-', '>'] ++ ['<', '/', 'r', '>'])) =
        "<r>a&amp;b<i/>c<!--?--></r>" := by decide
    rw [← written]
    exact inserted _ _ _ _ whole ⟨scanned, Or.inr rfl⟩ (by decide) isMark

end Document

end Intertext.Markup
