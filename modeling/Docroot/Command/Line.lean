import Docroot.Settings

/-!
# The command line

The words of a command line, and the command that they give. A command line
names one command; options stand before or behind its name, those of one command
only behind it. A value is given with its option, behind `=`, or as the next
word, which then must not look like an option. Behind `--` no word is an option.

Where an option stands both before and behind the name of the command, the
latter counts; twice in one of these places, it is a mistake.
-/

namespace Docroot.Command

/-- What is to be done. -/
inductive Action where
  /-- Show the file that a request stands for. -/
  | resolve (request : String)
  /-- Show the index page, or write it to a file. -/
  | render (inlinesSheets : Bool) (output? : Option Path)
  /-- Show the reply to a target. -/
  | get (target : String)
  /-- Check the settings. -/
  | check
  deriving DecidableEq

/-- A command with its settings. -/
structure Invocation where
  /-- The settings file, if one is named. -/
  file? : Option Path
  /-- What is put in the place of the settings. -/
  overrides : Settings.Overrides
  /-- What is to be done. -/
  action : Action
  deriving DecidableEq

/-- What a command line asks for. -/
inductive Line where
  /-- A command. -/
  | run (invocation : Invocation)
  /-- The version of the program. -/
  | version
  /-- How the program is used. -/
  | help
  /-- Nothing that makes sense. -/
  | mistake
  deriving DecidableEq

/-- An option that a word can name. -/
inductive Switch where
  /-- The settings file. -/
  | config
  /-- The root to serve. -/
  | root
  /-- The index document. -/
  | index
  /-- Records are written as JSON. -/
  | logJson
  /-- The file to write to. -/
  | output
  /-- Style sheets are left out of the page. -/
  | noInlineStyles
  /-- How the program is used. -/
  | help
  /-- The version of the program. -/
  | version
  deriving DecidableEq

/-- The command to whose words an option belongs. -/
inductive Scope where
  /-- The words before the name of a command. -/
  | program
  /-- The words behind `resolve`. -/
  | resolve
  /-- The words behind `render`. -/
  | render
  /-- The words behind `get`. -/
  | get
  /-- The words behind `check`. -/
  | check
  deriving DecidableEq

namespace Switch

/-- The option needs a value. -/
def takesValue : Switch → Bool
  | config => true
  | root => true
  | index => true
  | output => true
  | _ => false

/-- The value is a path, which cannot be empty. -/
def takesPath : Switch → Bool
  | config => true
  | root => true
  | output => true
  | _ => false

/-- The option can stand among the words of the scope. -/
def isIn : Switch → Scope → Bool
  | output, scope => scope = .render
  | noInlineStyles, scope => scope = .render
  | version, scope => scope = .program
  | _, _ => true

/-- The option with this name behind two hyphens. -/
def ofName? : String → Option Switch
  | "config" => some config
  | "root" => some root
  | "index" => some index
  | "log-json" => some logJson
  | "output" => some output
  | "no-inline-styles" => some noInlineStyles
  | "help" => some help
  | "version" => some version
  | _ => none

/-- The option with this letter behind one hyphen. -/
def ofLetter? : Char → Option Switch
  | 'c' => some config
  | 'o' => some output
  | 'h' => some help
  | 'V' => some version
  | _ => none

end Switch

/-- The name of a command. -/
def Scope.ofName? : String → Option Scope
  | "resolve" => some .resolve
  | "render" => some .render
  | "get" => some .get
  | "check" => some .check
  | _ => none

/-- The words that are no options that a scope takes. -/
def Scope.takesWord : Scope → Bool
  | .resolve => true
  | .get => true
  | _ => false

/-- What the words of one scope say. -/
structure Words where
  /-- The options with their values; the value of one that takes none is
      empty. -/
  options : List (Switch × String) := []
  /-- The word that is no option. -/
  word? : Option String := none

/-- What was found among the words of a scope. -/
inductive Found where
  /-- All words were read. -/
  | words (words : Words)
  /-- The words up to the name of a command, and those behind it. -/
  | command (words : Words) (scope : Scope) (rest : List String)
  /-- The version was asked for. -/
  | version
  /-- Help was asked for. -/
  | help
  /-- A word makes no sense. -/
  | mistake

/-- The word looks like an option: it starts with a hyphen, and is not only
    one. -/
def looksLikeOption (word : String) : Bool :=
  match word.toList with
  | '-' :: _ :: _ => true
  | _ => false

/-- What was said so far with one more option; nothing if it was given before,
    or if its path is empty. -/
def Words.add? (words : Words) (option : Switch) (value : String) : Option Words :=
  if (words.options.lookup option).isSome || (option.takesPath && value.isEmpty) then none
  else some { words with options := words.options ++ [(option, value)] }

/-- What the letters behind one hyphen say. -/
inductive Letters where
  /-- An option and the value written with it. -/
  | valued (option : Switch) (value : String)
  /-- An option that takes the next word as its value. -/
  | pending (option : Switch)
  /-- The version was asked for. -/
  | version
  /-- Help was asked for. -/
  | help
  /-- There is no such option. -/
  | mistake

/-- Reads the letters behind one hyphen; every option with a letter either takes
    a value or ends the reading. -/
def Letters.read (scope : Scope) : List Char → Letters
  | [] => .mistake
  | letter :: rest =>
    match Switch.ofLetter? letter with
    | none => .mistake
    | some option =>
      if !option.isIn scope then .mistake
      else if option = .help then .help
      else if option = .version then .version
      else match rest with
        | [] => .pending option
        | '=' :: value => .valued option (String.ofList value)
        | value => .valued option (String.ofList value)

/-- Reads the words of a scope. `isPlain` says that no word is an option any
    more, and `open?` that the next word is the value of an option. -/
def scan (scope : Scope) (isPlain : Bool) (open? : Option Switch) (words : Words) :
    List String → Found
  | [] => if open?.isSome then .mistake else .words words
  | word :: rest =>
    match open? with
    | some option =>
      if isPlain || looksLikeOption word then .mistake
      else match words.add? option word with
        | some words => scan scope false none words rest
        | none => .mistake
    | none =>
      if !isPlain && word = "--" then scan scope true none words rest
      else if !isPlain && "--".toList.isPrefixOf word.toList then
        let name := (word.toList.drop 2).takeWhile (· != '=')
        let value? := match (word.toList.drop 2).dropWhile (· != '=') with
          | _ :: value => some (String.ofList value)
          | [] => none
        match Switch.ofName? (String.ofList name) with
        | none => .mistake
        | some option =>
          if !option.isIn scope then .mistake
          else if option.takesValue then
            match value? with
            | none => scan scope false (some option) words rest
            | some value =>
              match words.add? option value with
              | some words => scan scope false none words rest
              | none => .mistake
          else if value?.isSome then .mistake
          else if option = .help then .help
          else if option = .version then .version
          else match words.add? option "" with
            | some words => scan scope false none words rest
            | none => .mistake
      else if !isPlain && looksLikeOption word then
        match Letters.read scope (word.toList.drop 1) with
        | .mistake => .mistake
        | .help => .help
        | .version => .version
        | .pending option => scan scope false (some option) words rest
        | .valued option value =>
          match words.add? option value with
          | some words => scan scope false none words rest
          | none => .mistake
      else if scope = .program then
        if isPlain then .mistake
        else if word = "help" then
          match rest with
          | [] => .help
          | [name] => if name = "help" || (Scope.ofName? name).isSome then .help else .mistake
          | _ => .mistake
        else match Scope.ofName? word with
          | some inner => .command words inner rest
          | none => .mistake
      else if scope.takesWord && words.word?.isNone then
        scan scope isPlain none { words with word? := some word } rest
      else .mistake

/-- The value of an option, from behind the name of the command if it is given
    there, else from before it. -/
def valueOf? (outer inner : Words) (option : Switch) : Option String :=
  (inner.options.lookup option).or (outer.options.lookup option)

/-- The action that a command and its words ask for; none for the words before
    any command. -/
def actionOf? (words : Words) : Scope → Option Action
  | .program => none
  | .resolve => some (.resolve (words.word?.getD ""))
  | .render => some (.render (words.options.lookup .noInlineStyles).isNone
      ((words.options.lookup .output).map Path.mk))
  | .get => some (.get (words.word?.getD "/"))
  | .check => some .check

/-- What the words of a command line ask for. -/
def Line.ofWords (words : List String) : Line :=
  match scan .program false none {} words with
  | .version => .version
  | .help => .help
  | .mistake => .mistake
  | .words _ => .mistake
  | .command outer scope rest =>
    match scan scope false none {} rest with
    | .version => .version
    | .help => .help
    | .mistake => .mistake
    | .command _ _ _ => .mistake
    | .words inner =>
      match actionOf? inner scope with
      | none => .mistake
      | some action => .run {
          file? := (valueOf? outer inner .config).map Path.mk
          overrides := {
            root? := (valueOf? outer inner .root).map Path.mk
            index? := valueOf? outer inner .index }
          action }

end Docroot.Command
