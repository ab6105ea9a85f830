import ChainScript.CommandLine
import ChainScript.Proofs.Surfacing
import ChainScript.Proofs.Relayout

/-!
What the subcommands have in common. They agree on which files are malformed, and on what is said of
such a file: whatever stands where, the first error of the scanner comes before any other.
-/

namespace ChainScript

/-! Trees that are read have a JSON form. -/

namespace Expr

mutual

theorem isSome_json? (e : Expr) (written : e.Stubless) : e.json?.isSome = true := by
  cases e with
  | text s => rfl
  | number n => rfl
  | identifier name place => rfl
  | option name place => rfl
  | deferred body => simpa [json?] using body.isSome_json? written
  | block body => simpa [json?] using body.isSome_json? written
  | chain terms => simpa [json?] using isSome_allJson? terms written
  | stub value => exact written.elim

theorem isSome_allJson? (terms : List Expr) (written : StublessAll terms) :
    (allJson? terms).isSome = true := by
  cases terms with
  | nil => rfl
  | cons term rest =>
      obtain ⟨json, first⟩ := Option.isSome_iff_exists.mp (term.isSome_json? written.1)
      obtain ⟨others, later⟩ := Option.isSome_iff_exists.mp (isSome_allJson? rest written.2)
      simp [allJson?, first, later]

end

end Expr

namespace CommandLine

def messages (items : List (Except Fault Token)) : List String :=
  items.filterMap fun
    | .ok _ => none
    | .error fault => some fault.message

def printed (lines : List String) : String :=
  lines.foldr (fun line rest => line ++ "\n" ++ rest) ""

structure Agree (source : String) (tokenized parsed evaluated : Output) : Prop where
  parse_malformed : parsed.code = 65 ↔ ∃ fault, parse source = .error fault
  parse_ends : parsed.code = 65 ∨ parsed.code = 0
  evaluate_malformed : evaluated.code = 65 ↔ parsed.code = 65
  evaluate_ends : evaluated.code = 65 ∨ evaluated.code = 0 ∨ evaluated.code = 70
  evaluate_says : parsed.code = 65 → evaluated.stderr = parsed.stderr
  tokenize_malformed : tokenized.code = 65 → parsed.code = 65 ∧ evaluated.code = 65 ∧
    ∃ message later, messages (scan source) = message :: later ∧
      tokenized.stderr = printed (message :: later) ∧
      parsed.stderr = printed [message] ∧ evaluated.stderr = printed [message]

/-! Malformed texts. -/

section

variable (source : String) (fault : Fault) (failed : parse source = .error fault)

theorem exitCode_unreadable (unreadable : fault.Unreadable) : exitCode fault = 65 := by
  obtain ⟨cause, place, rfl⟩ := unreadable
  rfl

theorem exitCode_readable (readable : ¬ fault.Unreadable) : exitCode fault = 70 := by
  cases fault with
  | malformed cause place => exact absurd ⟨cause, place, rfl⟩ readable
  | _ => rfl

include failed

theorem parseFile_error (asJson : Bool) :
    parseFile asJson source = Output.reportFirst fault.message { code := 65 } := by
  rw [parseFile, failed]

theorem evaluate_error : evaluate source = Output.reportFirst fault.message { code := 65 } := by
  have halted : Evaluator.evaluateSource {} source groundWorld =
      .error (.fault fault) groundWorld := by
    rw [Evaluator.evaluateSource, failed]
    rfl
  have code := exitCode_unreadable fault (parse_unreadable source fault failed)
  rw [evaluate, halted]
  simp only [reportHalt, code, String.empty_append]

end

/-! Texts that are scripts. -/

section

variable (source : String) (e : Expr) (read : parse source = .ok e)

include read

theorem parseFile_code (asJson : Bool) : (parseFile asJson source).code = 0 := by
  obtain ⟨json, found⟩ :=
    Option.isSome_iff_exists.mp (e.isSome_json? (stubless_of_parse source e read))
  cases asJson with
  | true => simp [parseFile, read, found, Output.printFirst]
  | false => simp [parseFile, read, Output.printFirst]

theorem evaluate_code : (evaluate source).code = 0 ∨ (evaluate source).code = 70 := by
  have ends := Evaluator.evaluate_readable {} e groundWorld preludeMethods_environment
  simp only [evaluate, Evaluator.evaluateSource, read]
  rcases ends with ⟨value, after, ended⟩ | ⟨cause, after, ended, readable⟩
  · rw [ended]
    exact .inl rfl
  · rw [ended]
    exact .inr (exitCode_readable cause readable)

end

/-! Items one after the other. -/

def listing (items : List (Except Fault Token)) : Output :=
  items.foldr
    (fun
      | .ok token, output => output.printFirst token.text
      | .error fault, output => { output.reportFirst fault.message with code := 65 })
    {}

theorem tokenize_eq (source : String) : tokenize source = listing (scan source) := rfl

theorem stderr_listing (items : List (Except Fault Token)) :
    (listing items).stderr = printed (messages items) := by
  induction items with
  | nil => rfl
  | cons item rest ih =>
      cases item with
      | ok token => exact ih
      | error fault => exact congrArg (fault.message ++ "\n" ++ ·) ih

theorem messages_of_code (items : List (Except Fault Token)) (code : (listing items).code = 65) :
    ∃ fault later, firstFault items = .error fault ∧ messages items = fault.message :: later := by
  induction items with
  | nil => cases code
  | cons item rest ih =>
      cases item with
      | ok token =>
          obtain ⟨fault, later, first, said⟩ := ih code
          exact ⟨fault, later, by simp [firstFault, first, Except.map], said⟩
      | error fault => exact ⟨fault, messages rest, rfl, rfl⟩

theorem parse_of_firstFault (source : String) (fault : Fault)
    (first : firstFault (scan source) = .error fault) : parse source = .error fault := by
  rw [parse, tokens, first]

theorem outputs_agree (source : String) (asJson : Bool) :
    Agree source (tokenize source) (parseFile asJson source) (evaluate source) := by
  cases read : parse source with
  | ok e =>
      have parsed := parseFile_code source e read asJson
      have evaluated := evaluate_code source e read
      have differs : (evaluate source).code ≠ 65 := by
        rcases evaluated with code | code <;> rw [code] <;> decide
      refine ⟨?_, .inr parsed, ?_, .inr evaluated, ?_, ?_⟩
      · simp [parsed, read]
      · simp [parsed, differs]
      · simp [parsed]
      · intro code
        obtain ⟨fault, _, first, _⟩ := messages_of_code _ code
        rw [parse_of_firstFault source fault first] at read
        cases read
  | error fault =>
      have parsed := parseFile_error source fault read asJson
      have evaluated := evaluate_error source fault read
      rw [parsed, evaluated]
      refine ⟨?_, .inl rfl, .rfl, .inl rfl, fun _ => rfl, ?_⟩
      · simp [read, Output.reportFirst]
      · intro code
        obtain ⟨first, later, found, said⟩ := messages_of_code _ code
        rw [parse_of_firstFault source first found] at read
        cases read
        have stderr : (tokenize source).stderr = printed (fault.message :: later) := by
          rw [tokenize_eq, stderr_listing, said]
        have single : (Output.reportFirst fault.message { code := 65 }).stderr =
            printed [fault.message] := rfl
        exact ⟨rfl, rfl, fault.message, later, said, stderr, single, single⟩

/-- However arguments are read, on a file that can be read the subcommands agree about what is
malformed. `parse` ends with 65 if the text is no script and with 0 if it is one, also where it is
to print JSON. `evaluate` ends with 65 in the same cases and says the same; otherwise it ends with 0
or 70. If `tokenize` ends with 65, then so do both, and all that they say is the first thing that it
reports. -/
theorem subcommands_agree (reading : List String → Option Invocation)
    (read : String → Except FileFault String) (file source : String)
    (readable : read file = .ok source) (asJson : Bool) (first second third : List String)
    (tokenizes : reading first = some ⟨.tokenize, some file⟩)
    (parses : reading second = some ⟨.parse asJson, some file⟩)
    (evaluates : reading third = some ⟨.evaluate, some file⟩) :
    Agree source (executeBy reading first read) (executeBy reading second read)
      (executeBy reading third read) := by
  simp only [executeBy, tokenizes, parses, evaluates, readable, Command.output]
  exact outputs_agree source asJson

/-- Every file has a parenthesis too many and then a string that never ends. -/
def strayFiles (_ : String) : Except FileFault String := .ok ") \""

theorem subcommands_agree_stray :
    Agree ") \"" (execute ["tokenize", "script"] strayFiles)
      (execute ["parse", "--json", "script"] strayFiles)
      (execute ["evaluate", "script"] strayFiles) ∧
    (execute ["tokenize", "script"] strayFiles).code = 65 ∧
    (execute ["tokenize", "script"] strayFiles).stderr =
      printed [Fault.message (.malformed .unterminatedString ⟨2, 1⟩)] ∧
    (execute ["evaluate", "script"] strayFiles).code = 65 ∧
    (execute ["evaluate", "script"] strayFiles).stderr =
      printed [Fault.message (.malformed .unterminatedString ⟨2, 1⟩)] := by
  have scanned : scan ") \"" = [.ok ⟨.rightParen, ")", ⟨0, 1⟩⟩,
      .error (.malformed .unterminatedString ⟨2, 1⟩), .ok ⟨.endOfInput, "", ⟨3, 1⟩⟩] := by cbv
  have agree := subcommands_agree readArguments strayFiles "script" ") \"" rfl true
    ["tokenize", "script"] ["parse", "--json", "script"] ["evaluate", "script"] rfl rfl rfl
  have code : (execute ["tokenize", "script"] strayFiles).code = 65 := by
    have tokenized : execute ["tokenize", "script"] strayFiles = listing (scan ") \"") := rfl
    rw [tokenized, scanned]
    rfl
  obtain ⟨_, evaluated, message, later, said, listed, _, stderr⟩ := agree.tokenize_malformed code
  have first : messages (scan ") \"") =
      [Fault.message (.malformed .unterminatedString ⟨2, 1⟩)] := by
    rw [scanned]
    rfl
  obtain ⟨rfl, rfl⟩ := List.cons.inj (said.symm.trans first)
  exact ⟨agree, code, listed, evaluated, stderr⟩

end CommandLine

end ChainScript
