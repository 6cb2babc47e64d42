/-!
The arguments of the command line.

    [--projects FOLDER] [--database FILE] sync
    [...] index PROJECT
    [...] resolve URN
    [...] compile PROJECT FILE [-s|--settings FILE] [-o|--output FILE]
    [...] stats
    [...] help [COMMAND]

The options before the command concern all commands, those after it only this one. Each may be given
once, and the path it takes may stand after it or be joined to it. Where options and other arguments
are mixed, two dashes end the options. Arguments are read from left to right up to the first fault,
and asking for help counts as one; only what is missing is found at the end.
-/

namespace Intertext.Command

/-! ## 1. Invocations -/

/-- What the program is asked to do. -/
inductive Task where
  | sync
  | index (project : String)
  | resolve (urn : String)
  | compile (project file : String) (settings output : Option String)
  | stats
deriving DecidableEq, Repr

/-- A task and where its data are. -/
structure Invocation where
  projects : Option String
  database : Option String
  task : Task
deriving DecidableEq, Repr

/-- Why arguments are no invocation. -/
inductive Refusal where
  /-- Help is asked for. -/
  | help
  | unknownOption (option : String)
  | repeatedOption (option : String)
  | missingPath (option : String)
  | unknownCommand (name : String)
  | missingArgument
  | extraArgument (argument : String)
deriving DecidableEq, Repr

/-! ## 2. Options -/

/-- An option that takes a path. -/
structure PathOption where
  long : String
  short : Option Char
deriving DecidableEq, Repr

/-- Options with their paths, in the order given. -/
abbrev Given := List (String × String)

/-- Whether an argument is an option by its looks: a dash and something after it. -/
def looksLikeOption (argument : String) : Bool :=
  argument.toList.head? = some '-' && argument ≠ "-"

/-- Splits what follows two dashes into a name and, after an equals sign, a path. -/
def splitLong (body : List Char) : String × Option String :=
  match body.dropWhile (· != '=') with
  | [] => (String.ofList body, none)
  | _ :: path => (String.ofList (body.takeWhile (· != '=')), some (String.ofList path))

/-- Splits what follows one dash into the letter of the option and the path joined to it. -/
def splitShort (letter : Char) (rest : List Char) : Char × Option String :=
  match rest with
  | [] => (letter, none)
  | '=' :: path => (letter, some (String.ofList path))
  | path => (letter, some (String.ofList path))

/-- Whether an option asks for help; what is joined to the letter is not looked at. -/
def asksForHelp (argument : String) : Bool :=
  argument = "--help" || "-h".toList.isPrefixOf argument.toList

/-- The option an argument names, with the path joined to it. -/
def option? (options : List PathOption) (argument : String) :
    Except Refusal (PathOption × Option String) :=
  let found := match argument.toList with
    | '-' :: '-' :: body =>
      let (name, path) := splitLong body
      (options.find? (·.long = name)).map (·, path)
    | '-' :: letter :: rest =>
      let (letter, path) := splitShort letter rest
      (options.find? (·.short = some letter)).map (·, path)
    | _ => none
  match found with
  | some found => .ok found
  | none => .error (if asksForHelp argument then .help else .unknownOption argument)

/-- Records the path of an option. -/
def record (given : Given) (option : PathOption) (path : String) : Except Refusal Given :=
  if path = "" then .error (.missingPath option.long)
  else if (given.lookup option.long).isSome then .error (.repeatedOption option.long)
  else .ok (given ++ [(option.long, path)])

/-- Takes arguments apart into options and as many others as there is room for. Without a `room`, it
ends before the first argument that is no option, and what is left counts as other arguments. -/
def separate (options : List PathOption) (room : Option Nat) (given : Given)
    (others : List String) : List String → Except Refusal (Given × List String)
  | [] => .ok (given, others)
  | argument :: rest =>
    if argument = "--" then
      match room with
      | none => .error (.unknownOption argument)
      | some room =>
        match (others ++ rest).drop room with
        | extra :: _ => .error (.extraArgument extra)
        | [] => .ok (given, others ++ rest)
    else if looksLikeOption argument then
      match option? options argument with
      | .error refusal => .error refusal
      | .ok (option, some path) =>
        match record given option path with
        | .error refusal => .error refusal
        | .ok given => separate options room given others rest
      | .ok (option, none) =>
        match rest with
        | [] => .error (.missingPath option.long)
        | path :: rest =>
          if looksLikeOption path then .error (.missingPath option.long)
          else
            match record given option path with
            | .error refusal => .error refusal
            | .ok given => separate options room given others rest
    else
      match room with
      | none => .ok (given, argument :: rest)
      | some count =>
        if others.length < count then separate options room given (others ++ [argument]) rest
        else .error (.extraArgument argument)

/-! ## 3. Reading -/

def commonOptions : List PathOption := [⟨"projects", none⟩, ⟨"database", none⟩]

def compileOptions : List PathOption := [⟨"settings", some 's'⟩, ⟨"output", some 'o'⟩]

/-- The commands that do a task, and how many arguments each takes. -/
def commands : List (String × Nat) :=
  [("sync", 0), ("index", 1), ("resolve", 1), ("compile", 2), ("stats", 0)]

/-- What comes of asking for help on what the arguments name: a command, or help itself. -/
def helpOn (arguments : List String) : Refusal :=
  match arguments with
  | [] => .help
  | topic :: rest =>
    if topic ≠ "help" ∧ (commands.lookup topic).isNone then .unknownCommand topic
    else
      match rest with
      | [] => .help
      | extra :: _ => .unknownCommand extra

/-- The task of a command with its options and other arguments. -/
def taskOf (name : String) (given : Given) (others : List String) : Except Refusal Task :=
  match name, others with
  | "sync", [] => .ok .sync
  | "index", [project] => .ok (.index project)
  | "resolve", [urn] => .ok (.resolve urn)
  | "compile", [project, file] =>
    .ok (.compile project file (given.lookup "settings") (given.lookup "output"))
  | "stats", [] => .ok .stats
  | _, _ => .error .missingArgument

/-- Reads the arguments of a command. -/
def task? (name : String) (arguments : List String) : Except Refusal Task := do
  if name = "help" then throw (helpOn arguments)
  match commands.lookup name with
  | none => throw (.unknownCommand name)
  | some room =>
    let options := if name = "compile" then compileOptions else []
    let (given, others) ← separate options room [] [] arguments
    taskOf name given others

/-- Reads the arguments of the program. -/
def invocation? (arguments : List String) : Except Refusal Invocation := do
  let (given, rest) ← separate commonOptions none [] [] arguments
  match rest with
  | [] => throw .missingArgument
  | name :: arguments =>
    return ⟨given.lookup "projects", given.lookup "database", ← task? name arguments⟩

end Intertext.Command
