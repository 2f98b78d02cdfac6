import LetLang.Pipeline

/-! # The command line

`run FILE` runs a program and exits with the value of its `main`; `check FILE` only checks
it.  Everything here is a function of the arguments and of the bytes of the file. -/

namespace LetLang.CommandLine

/-- What can be done with a file. -/
inductive Mode where
  | run
  | check
deriving DecidableEq, Repr, Inhabited

namespace Mode

/-- The word for a mode on the command line. -/
def word : Mode → String
  | run => "run"
  | check => "check"

/-- The mode that a word stands for. -/
def ofWord? (word : String) : Option Mode := [run, check].find? (·.word == word)

/-- What a mode does, in the words of the help text. -/
def summary : Mode → String
  | run => "Run a program, exiting with the value of its main method"
  | check => "Check a program without running it"

end Mode

/-- What is to be done. -/
structure Command where
  mode : Mode
  path : String
deriving DecidableEq, Repr

/-- Why the arguments name no command. -/
inductive Refusal where
  | helpOverview
  | helpMode (mode : Mode)
  | missingMode
  | missingPath
  | unknownMode (word : String)
  | unexpected (argument : String)
deriving DecidableEq, Repr

/-- What is written to standard error when the arguments name no command. -/
def Refusal.message : Refusal → String
  | helpOverview =>
    "Usage: plcer <COMMAND>\n\nCommands:\n    run    " ++ Mode.run.summary ++
      "\n    check  " ++ Mode.check.summary ++
      "\n\nSet PLC_LOG (e.g. PLC_LOG=debug) to trace the pipeline on stderr.\n"
  | helpMode mode =>
    mode.summary ++ "\n\nUsage: plcer " ++ mode.word ++ " <PATH>\n\nArguments:\n  <PATH>\n\n\n"
  | missingMode => "the subcommand is required but not provided\n"
  | missingPath => "the argument '<PATH>' is required but not provided\n"
  | unknownMode word => "unrecognized subcommand '" ++ word ++ "'\n"
  | unexpected argument => "unexpected argument '" ++ argument ++ "'\n"

/-! ## Reading the arguments -/

/-- Whether an argument is an option: it starts with a dash and is more than that. -/
def isOption (argument : String) : Bool := argument.startsWith "-" && argument != "-"

/-- The name of the first option in an argument.  A name after two dashes goes up to an
    equals sign; after one dash every character is an option of its own. -/
def optionName (argument : String) : String :=
  match argument.toList with
  | '-' :: '-' :: cs => String.ofList ('-' :: '-' :: cs.takeWhile (· != '='))
  | cs => String.ofList (cs.take 2)

/-- The answer to an option: the only ones are those that ask for help. -/
def refuseOption (help : Refusal) (argument : String) : Refusal :=
  let name := optionName argument
  if name == "--help" || name == "-h" then help else .unexpected name

/-- Read the arguments behind a mode.  After `--` no argument is an option. -/
def readPath (mode : Mode) (path : Option String) (plain : Bool) :
    List String → Except Refusal Command
  | [] =>
    match path with
    | some path => .ok ⟨mode, path⟩
    | none => .error .missingPath
  | argument :: rest =>
    if !plain && argument == "--" then readPath mode path true rest
    else if !plain && isOption argument then .error (refuseOption (.helpMode mode) argument)
    else
      match path with
      | some _ => .error (.unexpected argument)
      | none => readPath mode (some argument) plain rest

/-- Read the mode, which is no option, and the arguments behind it. -/
def readMode : List String → Except Refusal Command
  | [] => .error .missingMode
  | word :: rest =>
    match Mode.ofWord? word with
    | some mode => readPath mode none false rest
    | none => .error (.unknownMode word)

/-- Read the arguments of the command line.  A `--` in front of the mode says that the
    mode is no option, and nothing about the arguments behind it. -/
def read : List String → Except Refusal Command
  | [] => .error .missingMode
  | argument :: rest =>
    if argument == "--" then readMode rest
    else if isOption argument then .error (refuseOption .helpOverview argument)
    else readMode (argument :: rest)

/-! ## What a command does -/

/-- How the program ends. -/
structure Exit where
  code : Nat
  stdout : ByteArray
  stderr : String

/-- The exit of a program that could not do what it was asked to. -/
def failed (stdout : ByteArray) (stderr : String) : Exit := ⟨1, stdout, stderr⟩

/-- The exit code of a result: its low byte, if it fits in 32 bits. -/
def exitCode? (n : Int) : Option Nat := if fitsInt32 n then some (n % 256).toNat else none

/-- The text of a file, which has to be there and to be UTF-8. -/
def sourceText (contents : Option ByteArray) : Except Error String :=
  match contents.bind String.fromUTF8? with
  | some text => .ok text
  | none => .error (.internal "Failed open source file")

/-- Run a file with the given contents. -/
def runFile (rounds : Nat) (contents : Option ByteArray) : Option Exit :=
  match sourceText contents with
  | .error e => some (failed .empty ("Failed run file: " ++ e.message ++ "\n"))
  | .ok text =>
    match run .withRange rounds ⟨.empty, .unlimited⟩ text with
    | none => none
    | some (.error e, output) =>
      some (failed output.written ("Failed run file: " ++ e.message ++ "\n"))
    | some (.ok n, output) =>
      match exitCode? n with
      | some code => some ⟨code, output.written, ""⟩
      | none =>
        some (failed output.written
          ("Failed run file: main returned " ++ Numeral.text n ++
            ", outside the exit code range\n"))

/-- Check a file with the given contents. -/
def checkFile (contents : Option ByteArray) : Exit :=
  match sourceText contents >>= check .withRange with
  | .ok _ => ⟨0, "ok\n".toUTF8, ""⟩
  | .error e => failed .empty ("Failed check file: " ++ e.message ++ "\n")

/-- Do what is asked with a file of the given contents, which are `none` for a file that
    cannot be read.  `none` if a `WHILE` needs more than `rounds` rounds. -/
def perform (mode : Mode) (rounds : Nat) (contents : Option ByteArray) : Option Exit :=
  match mode with
  | .run => runFile rounds contents
  | .check => some (checkFile contents)

/-- The exit for arguments that name no command. -/
def refuse (r : Refusal) : Exit := failed .empty r.message

end LetLang.CommandLine
