import ChainScript.Evaluation.Chain
import ChainScript.Expr.Json
import ChainScript.Expr.Printer
import ChainScript.Prelude
import ChainScript.Text.Grapheme

/-!
The command line: what is printed, and with which exit code the program ends, for given
arguments and a given content of the files.
-/

namespace ChainScript

namespace Text

def isSpace (c : Char) : Bool :=
  let n := c.toNat
  (0x9 ≤ n && n ≤ 0xd) || n == 0x20 || n == 0x85 || n == 0xa0 || n == 0x1680
    || (0x2000 ≤ n && n ≤ 0x200a) || n == 0x2028 || n == 0x2029 || n == 0x202f
    || n == 0x205f || n == 0x3000

def isBlankLine (line : String) : Bool :=
  line.toList.all isSpace

-- What is read of a line is kept in reverse order. A carriage return belongs to the line end.
def endedLine : List Char → String
  | '\r' :: before => String.ofList before.reverse
  | line => String.ofList line.reverse

-- A last line needs no line end, and nothing behind the last line end is no line.
def linesFrom (current : List Char) : List Char → List String
  | [] => if current.isEmpty then [] else [String.ofList current.reverse]
  | '\n' :: rest => endedLine current :: linesFrom [] rest
  | c :: rest => linesFrom (c :: current) rest

def lines (text : String) : List String :=
  linesFrom [] text.toList

end Text

namespace CommandLine

inductive Command where
  | tokenize
  | parse (asJson : Bool)
  | evaluate
  | run
  deriving DecidableEq

structure Invocation where
  command : Command
  file : Option String

inductive FileFault where
  | missing
  | notDirectory
  | nameTooLong
  | denied
  | directory
  | notText
  deriving DecidableEq

namespace FileFault

/-- A directory is opened like a file. Only reading it fails. -/
def attempt : FileFault → String
  | .directory | .notText => "Failed to read file"
  | _ => "Failed to open file"

def reason : FileFault → String
  | .missing => "No such file or directory (os error 2)"
  | .notDirectory => "Not a directory (os error 20)"
  | .nameTooLong => "File name too long (os error 36)"
  | .denied => "Permission denied (os error 13)"
  | .directory => "Is a directory (os error 21)"
  | .notText => "stream did not contain valid UTF-8"

end FileFault

structure Output where
  code : Nat := 0
  stdout : String := ""
  stderr : String := ""
  deriving DecidableEq

namespace Output

def printFirst (line : String) (output : Output) : Output :=
  { output with stdout := line ++ "\n" ++ output.stdout }

def reportFirst (line : String) (output : Output) : Output :=
  { output with stderr := line ++ "\n" ++ output.stderr }

end Output

/-- A lone hyphen names a file. -/
def isFlag (arg : String) : Bool :=
  match arg.toList with
  | '-' :: _ :: _ => true
  | _ => false

structure Arguments where
  flags : List String := []
  files : List String := []

/-- Flags and files stand in any order. Behind `--` stand files only. -/
def Arguments.ofList : List String → Arguments
  | [] => {}
  | "--" :: files => { files }
  | arg :: rest =>
      let others := ofList rest
      if isFlag arg then { others with flags := arg :: others.flags }
      else { others with files := arg :: others.files }

def Command.ofName? (asJson : Bool) : String → Option Command
  | "tokenize" => some .tokenize
  | "parse" => some (.parse asJson)
  | "evaluate" => some .evaluate
  | "run" => some .run
  | _ => none

def Command.flags : Command → List String
  | .parse _ => ["--log", "--json"]
  | _ => ["--log"]

/-- A command takes each of its flags once, and at most one file, whose name is not empty. -/
def readCommand : List String → Option Invocation
  | [] => none
  | name :: rest => do
      let args := Arguments.ofList rest
      let command ← Command.ofName? (args.flags.contains "--json") name
      guard (args.flags.Nodup ∧ ∀ flag ∈ args.flags, flag ∈ command.flags)
      match args.files with
      | [] => return ⟨command, none⟩
      | [file] => if file.isEmpty then none else return ⟨command, some file⟩
      | _ => none

/-- The flag for a log changes no output. It may stand in front of the command as well. -/
def readArguments : List String → Option Invocation
  | "--log" :: args => readCommand args
  | args => readCommand args

def exitCode : Fault → Nat
  | .malformed _ _ => 65
  | _ => 70

def tokenize (source : String) : Output :=
  (scan source).foldr
    (fun
      | .ok token, output => output.printFirst token.text
      | .error fault, output => { output.reportFirst fault.message with code := 65 })
    {}

/-- Ends with code 1 after an error outside of the script. -/
def failure (what cause : String) : Output where
  code := 1
  stderr := "Error: " ++ what ++ "\n\nCaused by:\n    " ++ cause ++ "\n"

def parseFile (asJson : Bool) (source : String) : Output :=
  match parse source with
  | .error fault => Output.reportFirst fault.message { code := 65 }
  | .ok e =>
      if asJson then
        match e.json? with
        | some json => Output.printFirst (json.pretty 0) {}
        | none => failure "Failed to serialize syntax tree" Expr.noJsonMessage
      else Output.printFirst e.print {}

/-- How a run is reported that was halted. The text in front names the line, if any. -/
def reportHalt (label : String) : Halt → Output
  | .fault fault => Output.reportFirst (label ++ fault.message) { code := exitCode fault }
  | .panic text => Output.reportFirst (label ++ text) { code := 101 }
  | .exhausted => Output.reportFirst (label ++ "too many callbacks") { code := 101 }

def groundWorld : World := { env := Prelude.environment }

def evaluate (source : String) : Output :=
  match ({} : Evaluator).evaluateSource source groundWorld with
  | .ok value _ => Output.printFirst value.shown {}
  | .error halt _ => reportHalt "" halt

/-- Evaluates lines one after the other, from a line number on, up to the first that fails.
Blank lines and empty results print nothing. -/
def runLines (number : Nat) (world : World) : List String → Output
  | [] => {}
  | line :: rest =>
      if Text.isBlankLine line then runLines (number + 1) world rest
      else
        match ({} : Evaluator).evaluateSource line world with
        | .ok value after =>
            let output := runLines (number + 1) after rest
            if value.isEmpty then output else output.printFirst value.shown
        | .error halt _ => reportHalt ("line " ++ number.repr ++ ": ") halt

def run (source : String) : Output :=
  runLines 1 groundWorld (Text.lines source)

def Command.output : Command → String → Output
  | .tokenize => CommandLine.tokenize
  | .parse asJson => parseFile asJson
  | .evaluate => CommandLine.evaluate
  | .run => CommandLine.run

/-- A character of a file name as messages show it. What is not printable, or would be drawn as a
part of the character in front of it, is shown by its code point. A single quote stays. -/
def escapedInPath (c : Char) : List Char :=
  match c with
  | '"' => ['\\', '"']
  | '\\' => ['\\', '\\']
  | '\n' => ['\\', 'n']
  | '\t' => ['\\', 't']
  | '\r' => ['\\', 'r']
  | '\x00' => ['\\', '0']
  | c =>
      if Text.isExtendingMark c || !Text.isPrintable c then
        "\\u\x7b".toList ++ Nat.toDigits 16 c.toNat ++ ['\x7d']
      else [c]

def quotedPath (path : String) : String :=
  String.ofList ('"' :: path.toList.flatMap escapedInPath ++ ['"'])

/-- What the program does for its arguments, however these are read. -/
def executeBy (reading : List String → Option Invocation) (args : List String)
    (read : String → Except FileFault String) : Output :=
  match reading args with
  | none => Output.reportFirst "error: unexpected arguments" { code := 2 }
  | some ⟨_, none⟩ => Output.printFirst "No input filepath was provided. Exiting..." {}
  | some ⟨command, some file⟩ =>
      match read file with
      | .ok content => command.output content
      | .error fault => failure (fault.attempt ++ " " ++ quotedPath file) fault.reason

def execute : List String → (String → Except FileFault String) → Output :=
  executeBy readArguments

end CommandLine

end ChainScript
