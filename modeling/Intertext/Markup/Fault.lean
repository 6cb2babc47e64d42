/-!
Why a text is not a document.

Each cause is a constructor; the wording of those that have a fixed one is `Fault.message`.
-/

namespace Intertext.Markup

/-- A reference between an ampersand and a semicolon that stands for no character. -/
inductive EntityFault where
  /-- No semicolon follows the ampersand before the next ampersand or the end. -/
  | unterminated
  /-- The name is none of the five that are known. -/
  | unrecognized (name : String)
  /-- The number names no character. -/
  | invalidNumber
deriving DecidableEq, Repr

/-- Markup that is never brought to its end, or is none. -/
inductive TokenFault where
  | unclosedTag
  | unclosedCdata
  | unclosedComment
  | unclosedDoctype
  | unclosedInstruction
  /-- An exclamation mark that opens nothing known. -/
  | unknownBang
  /-- A document type declaration that names nothing. -/
  | missingDoctypeName
deriving DecidableEq, Repr

/-- End tags that do not pair with start tags. -/
inductive NestingFault where
  | unmatchedEnd (found : String)
  | mismatchedEnd (expected found : String)
deriving DecidableEq, Repr

/-- Declarations that would rebind what is bound once and for all. -/
inductive BindingFault where
  | xmlLabel
  | xmlnsLabel
  | xmlSpaceLabel
  | xmlnsSpaceLabel
deriving DecidableEq, Repr

/-- A text in a start tag that is no attribute. -/
inductive AttributeFault where
  | expectedEq
  | expectedValue
  | unquotedValue
  | expectedQuote
  | duplicated
deriving DecidableEq, Repr

/-- Why a text is not a document. -/
inductive Fault where
  | token (fault : TokenFault)
  | nesting (fault : NestingFault)
  | entity (fault : EntityFault)
  | binding (fault : BindingFault)
  | attr (fault : AttributeFault)
  /-- A label that no declaration in scope binds. -/
  | unknownLabel (label : String)
  | noRoot
  | multipleRoots
  | unclosed (part : String)
  /-- The bytes of the file are no text. -/
  | unreadable
deriving DecidableEq, Repr

/-! ## Wording -/

def EntityFault.message : EntityFault → String
  | .unterminated => "an entity reference has no closing semicolon"
  | .unrecognized name => "unrecognized entity " ++ name
  | .invalidNumber => "invalid character reference"

def TokenFault.message : TokenFault → String
  | .unclosedTag => "tag not closed: > not found before end of input"
  | .unclosedCdata => "CDATA not closed: ]]> not found before end of input"
  | .unclosedComment => "comment not closed: --> not found before end of input"
  | .unclosedDoctype => "DOCTYPE not closed: > not found before end of input"
  | .unclosedInstruction =>
    "processing instruction or xml declaration not closed: ?> not found before end of input"
  | .unknownBang => "unknown or missed symbol in markup"
  | .missingDoctypeName => "DOCTYPE declaration does not contain a name of a document type"

def NestingFault.message : NestingFault → String
  | .unmatchedEnd found => "close tag </" ++ found ++ "> does not match any open tag"
  | .mismatchedEnd expected found =>
    "expected </" ++ expected ++ ">, but </" ++ found ++ "> was found"

def BindingFault.message : BindingFault → String
  | .xmlLabel => "the label xml cannot be bound to another namespace"
  | .xmlnsLabel => "the label xmlns cannot be bound"
  | .xmlSpaceLabel => "the xml namespace has no other label"
  | .xmlnsSpaceLabel => "the xmlns namespace has no other label"

def AttributeFault.message : AttributeFault → String
  | .expectedEq => "attribute key must be directly followed by = or space"
  | .expectedValue => "= must be followed by an attribute value"
  | .unquotedValue => "attribute value must be enclosed in quotes"
  | .expectedQuote => "missing closing quote in attribute value"
  | .duplicated => "duplicated attribute"

/-- The cause in words. -/
def Fault.message : Fault → String
  | .token fault => "Malformed XML: " ++ fault.message
  | .nesting fault => "Malformed XML: " ++ fault.message
  | .entity fault => "Malformed XML: " ++ fault.message
  | .binding fault => "Malformed XML: " ++ fault.message
  | .attr fault => "Malformed attribute: " ++ fault.message
  | .unknownLabel label => "Undeclared namespace prefix: " ++ label
  | .noRoot => "Document has no root element"
  | .multipleRoots => "Document has more than one root element"
  | .unclosed part => "Element <" ++ part ++ "> is never closed"
  | .unreadable => "stream did not contain valid UTF-8"

end Intertext.Markup
