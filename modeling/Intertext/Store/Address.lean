import Intertext.Store.Fault
import Intertext.Text.Cutting
import Intertext.Text.Digit
/-!
Addresses of stores.

A store is named by a path, or by an address: the word `file:`, a path, and options after a question
mark, with ampersands between them.

    file:index.db?mode=ro&cache=private

Two slashes before the path leave room for the name of a host, which can only be this one. In paths
and options a percent sign and two digits in base sixteen stand for an octet; what follows an octet
of zero, and all that follows a hash sign, is left out.
-/

namespace Intertext.Store

/-! ## 1. Parts -/

/-- A name of a store, taken apart. -/
structure Address where
  path : String
  options : List (String × String)
deriving DecidableEq, Repr

namespace Address

/-- The octets that a part of an address stands for. -/
def octets : List Char → List UInt8
  | [] => []
  | '%' :: high :: low :: rest =>
    match Text.octet? high low with
    | some 0 => []
    | some octet => octet.toUInt8 :: octets rest
    | none => String.utf8EncodeChar '%' ++ octets (high :: low :: rest)
  | c :: rest => String.utf8EncodeChar c ++ octets rest

/-- The text that a part of an address stands for. Octets that make no text are taken as characters
of their numbers. -/
def part (written : List Char) : String :=
  match String.fromUTF8? ⟨(octets written).toArray⟩ with
  | some text => text
  | none => String.ofList ((octets written).map fun octet => Char.ofNat octet.toNat)

/-- An option: its name and, after an equals sign, its value. -/
def option (written : List Char) : String × String :=
  match Text.splitFirst? '=' written with
  | some (name, value) => (part name, part value)
  | none => (part written, "")

/-- Takes apart what follows the host. Options without a name count for nothing. -/
def ofLocal (written : List Char) : Address :=
  let shown := written.takeWhile (· ≠ '#')
  match Text.splitFirst? '?' shown with
  | none => ⟨part shown, []⟩
  | some (path, options) =>
    ⟨part path, ((Text.pieces '&' options).map option).filter (·.1 ≠ "")⟩

/-- Takes a name of a store apart. -/
def ofText (text : String) : Except StoreFault Address :=
  match text.toList with
  | 'f' :: 'i' :: 'l' :: 'e' :: ':' :: '/' :: '/' :: rest =>
    let host := String.ofList (rest.takeWhile (· ≠ '/'))
    if host = "" ∨ host = "localhost" then .ok (ofLocal (rest.dropWhile (· ≠ '/')))
    else .error (.host host)
  | 'f' :: 'i' :: 'l' :: 'e' :: ':' :: rest => .ok (ofLocal rest)
  | _ => .ok ⟨text, []⟩

/-- The value of an option, the first time that it is given. -/
def value? (address : Address) (name : String) : Option String := address.options.lookup name

/-- Whether an option is switched on: by a word, or by a number whose last octet is not zero. -/
def isOn (address : Address) (name : String) : Bool :=
  (address.value? name).any fun value =>
    match Text.number? 10 (value.toList.takeWhile Char.isDigit) with
    | some n => n < 2147483648 && n % 256 ≠ 0
    | none => ["on", "yes", "true"].contains value.toLower

end Address

/-! ## 2. What is asked for -/

/-- What a store is opened for. -/
inductive Mode where
  /-- To be looked at. -/
  | look
  /-- To be changed, if it is there. -/
  | change
  /-- To be changed, and made if it is not there. -/
  | create
  /-- To be remembered, whatever is at the path. -/
  | remember
deriving DecidableEq, Repr

/-- The words for modes. -/
def Mode.words : List (String × Mode) :=
  [("ro", .look), ("rw", .change), ("rwc", .create), ("memory", .remember)]

/-- How much a mode asks for. -/
def Mode.rank : Mode → Nat
  | look => 1
  | change => 2
  | create => 3
  | remember => 4

/-- Whether a mode may take the place of another: one that asks for less, or for nothing but to be
remembered. -/
def Mode.allows (mode next : Mode) : Bool := next = .remember || next.rank ≤ mode.rank

/-- What holds the file of a store. -/
inductive Medium where
  /-- Files of which others can be told when they change. -/
  | shared
  /-- Files of which others cannot be told. -/
  | lone
  /-- Files that are only remembered. -/
  | memory
deriving DecidableEq, Repr

/-- The words for media. -/
def Medium.words : List (String × Medium) :=
  [("unix", .shared), ("unix-excl", .shared), ("unix-none", .lone), ("unix-dotfile", .lone),
    ("memdb", .memory)]

/-- What is asked for when a store is opened. -/
structure Opening where
  /-- The name of the store as it is written. -/
  name : String
  path : String
  mode : Mode
  medium : Medium
  /-- A store that is only remembered can be opened again while it is open. -/
  known : Bool
  /-- Others need not be told of changes. -/
  unlocked : Bool
  /-- Nobody changes the file. -/
  still : Bool
  /-- A file whose permissions a new one takes. -/
  sample : Option String
deriving DecidableEq, Repr

namespace Opening

/-- Takes an option into account that says how a store is opened. -/
def allow (opening : Opening) (option : String × String) : Except StoreFault Opening :=
  match option with
  | ("mode", value) =>
    match Mode.words.lookup value with
    | none => .error (.unknown "access mode" value)
    | some mode =>
      if opening.mode.allows mode then .ok { opening with mode } else .error (.refused value)
  | ("cache", value) =>
    match [("shared", true), ("private", false)].lookup value with
    | none => .error (.unknown "cache mode" value)
    | some known => .ok { opening with known }
  | _ => .ok opening

/-- What an address asks for, given how it is written. Of several media the last one counts. -/
def ofAddress (name : String) (address : Address) : Except StoreFault Opening := do
  let opening ← address.options.foldlM allow
    ⟨name, address.path, .create, .shared, false, address.isOn "nolock", address.isOn "immutable",
      address.value? "modeof"⟩
  let word := (address.options.reverse.lookup "vfs").getD "unix"
  match Medium.words.lookup word with
  | none => throw (.unknown "vfs" word)
  | some medium => return { opening with medium }

/-- What a name of a store asks for. -/
def ofText (text : String) : Except StoreFault Opening := do
  if '\x00' ∈ text.toList then throw (.unopened text)
  ofAddress text (← Address.ofText text)

/-- Whether the store is remembered whatever holds it. -/
def isRemembered (opening : Opening) : Bool :=
  opening.path = "" || opening.path = ":memory:" || opening.mode = .remember

/-- Whether the store is kept in a file. -/
def isKept (opening : Opening) : Bool := !opening.isRemembered && opening.medium ≠ .memory

/-- Whether a store that is remembered can be opened again while it is open. -/
def isShared (opening : Opening) : Bool :=
  if opening.isRemembered then opening.known && opening.path ≠ ""
  else 1 < opening.path.utf8ByteSize && opening.path.toList.head?.any (['/', '\\'].contains ·)

/-- Whether a store that is remembered can be changed. -/
def isChangeable (opening : Opening) : Bool :=
  opening.mode ≠ .look && (opening.isRemembered || !opening.still)

/-- Whether changes of a file are noted beside it first, of which others must be told. -/
def isNoted (opening : Opening) : Bool :=
  opening.medium = .shared && !opening.unlocked && !opening.still

end Opening

end Intertext.Store
