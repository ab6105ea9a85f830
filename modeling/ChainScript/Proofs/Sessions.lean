import ChainScript.CommandLine
import ChainScript.Proofs.Growth

/-!
Sessions. A file of scripts is run by feeding its lines one after the other to a session, which ends
at the first line that fails. So the run of a text goes on where the run of its first lines has
ended, and what a line has declared stays as it is for all lines behind it.
-/

namespace ChainScript

namespace Text

/-! Lines of two texts. -/

-- By induction on the characters in front of the line end. Those of the line that has begun are on
-- the other side.
theorem linesFrom_append (current front behind : List Char) :
    linesFrom current (front ++ '\n' :: behind) =
      linesFrom current (front ++ ['\n']) ++ linesFrom [] behind := by
  induction front generalizing current with
  | nil => simp [linesFrom]
  | cons c rest ih =>
      by_cases ended : c = '\n'
      · subst ended
        simp [linesFrom, ih]
      · simp [linesFrom, ih]

theorem lines_append (front behind : String) (ends : front.toList.getLast? = some '\n') :
    lines (front ++ behind) = lines front ++ lines behind := by
  obtain ⟨before, whole⟩ := List.getLast?_eq_some_iff.mp ends
  simp only [lines, String.toList_append, whole, List.append_assoc, List.singleton_append]
  exact linesFrom_append [] before behind.toList

end Text

namespace CommandLine

structure Session where
  world : World
  printed : String := ""
  count : Nat := 0
  failure : Option (Nat × Halt) := none

namespace Session

/-- Evaluates one more line and prints its value unless it is empty. Blank lines are passed over,
and behind a line that has failed nothing happens any more. -/
def feed (session : Session) (line : String) : Session :=
  match session.failure with
  | some _ => session
  | none =>
      let number := session.count + 1
      if Text.isBlankLine line then { session with count := number }
      else
        match ({} : Evaluator).evaluateSource line session.world with
        | .ok value after =>
            let text := if value.isEmpty then "" else value.shown ++ "\n"
            ⟨after, session.printed ++ text, number, none⟩
        | .error halt after => ⟨after, session.printed, number, some (number, halt)⟩

def feedAll (session : Session) (lines : List String) : Session := lines.foldl feed session

/-- How a failure is reported, where its line has a number counted on from others. -/
def report (before : Nat) : Option (Nat × Halt) → Output
  | none => {}
  | some (number, halt) => reportHalt ("line " ++ (before + number).repr ++ ": ") halt

def output (session : Session) : Output :=
  { report 0 session.failure with stdout := session.printed }

def ofText (source : String) : Session := feedAll { world := groundWorld } (Text.lines source)

/-- What a second session has done, told as the continuation of a first one. -/
def after (first second : Session) : Session where
  world := second.world
  printed := first.printed ++ second.printed
  count := first.count + second.count
  failure := second.failure.map fun failed => (first.count + failed.1, failed.2)

/-! Feeding. -/

theorem feedAll_append (session : Session) (front behind : List String) :
    session.feedAll (front ++ behind) = (session.feedAll front).feedAll behind :=
  List.foldl_append

theorem feedAll_failed (session : Session) (lines : List String)
    (failed : session.failure ≠ none) : session.feedAll lines = session := by
  induction lines with
  | nil => rfl
  | cons line rest ih =>
      have same : session.feed line = session := by
        unfold feed
        split
        · rfl
        · next running => exact absurd running failed
      rw [feedAll, List.foldl_cons, same]
      exact ih

theorem feed_after (first second : Session) (line : String) :
    (first.after second).feed line = first.after (second.feed line) := by
  obtain ⟨world, printed, count, failure⟩ := second
  cases failure with
  | some failed => rfl
  | none =>
      by_cases blank : Text.isBlankLine line = true
      · simp [feed, after, blank, Nat.add_assoc]
      · simp only [feed, after, blank, Option.map_none]
        cases Evaluator.evaluateSource {} line world with
        | ok value later => simp [String.append_assoc, Nat.add_assoc]
        | error halt later => simp [Nat.add_assoc]

theorem feedAll_after (first second : Session) (lines : List String) :
    (first.after second).feedAll lines = first.after (second.feedAll lines) :=
  List.foldl_hom first.after fun second line => feed_after first second line

theorem feedAll_onward (session : Session) (running : session.failure = none)
    (lines : List String) :
    session.feedAll lines = session.after (feedAll { world := session.world } lines) := by
  have fresh : session = session.after { world := session.world } := by
    obtain ⟨world, printed, count, failure⟩ := session
    cases running
    simp [after]
  rw [← feedAll_after, ← fresh]

theorem count_feedAll (session : Session) (lines : List String)
    (running : (session.feedAll lines).failure = none) :
    (session.feedAll lines).count = session.count + lines.length := by
  induction lines generalizing session with
  | nil => rfl
  | cons line rest ih =>
      have step : (session.feed line).failure = none ∧
          (session.feed line).count = session.count + 1 := by
        by_cases failed : (session.feed line).failure = none
        · refine ⟨failed, ?_⟩
          unfold feed at failed ⊢
          split
          · next found => simp_all
          · split
            · rfl
            · split <;> rfl
        · have stopped := feedAll_failed _ rest failed
          exact absurd (by rw [← stopped]; exact running) failed
      have later := ih (session.feed line) running
      rw [step.2] at later
      simp only [feedAll, List.foldl_cons, List.length_cons] at later ⊢
      omega

/-! The run of a text is its session. -/

theorem output_feedAll (session : Session) (running : session.failure = none)
    (lines : List String) :
    (session.feedAll lines).output =
      { runLines (session.count + 1) session.world lines with
        stdout :=
          session.printed ++ (runLines (session.count + 1) session.world lines).stdout } := by
  induction lines generalizing session with
  | nil => simp [feedAll, output, report, runLines, running]
  | cons line rest ih =>
      obtain ⟨world, printed, count, failure⟩ := session
      cases running
      simp only [feedAll, List.foldl_cons] at ih ⊢
      by_cases blank : Text.isBlankLine line = true
      · have passed : feed ⟨world, printed, count, none⟩ line =
            ⟨world, printed, count + 1, none⟩ := by
          simp [feed, blank]
        rw [passed, ih _ rfl, runLines, if_pos blank]
      · cases answer : Evaluator.evaluateSource {} line world with
        | ok value later =>
            have fed : feed ⟨world, printed, count, none⟩ line =
                ⟨later, printed ++ (if value.isEmpty then "" else value.shown ++ "\n"), count + 1,
                  none⟩ := by
              simp [feed, blank, answer]
            rw [fed, ih _ rfl, runLines, if_neg blank, answer]
            cases empty : value.isEmpty with
            | true => simp [empty]
            | false => simp [empty, Output.printFirst, String.append_assoc]
        | error halt later =>
            have fed : feed ⟨world, printed, count, none⟩ line =
                ⟨later, printed, count + 1, some (count + 1, halt)⟩ := by
              simp [feed, blank, answer]
            have ended := feedAll_failed ⟨later, printed, count + 1, some (count + 1, halt)⟩ rest
              (by simp)
            rw [feedAll] at ended
            rw [fed, ended, runLines, if_neg blank, answer]
            cases halt <;> simp [output, report, reportHalt, Output.reportFirst]

theorem run_eq (source : String) : run source = (ofText source).output := by
  rw [ofText, output_feedAll _ rfl]
  simp [run]

theorem code_report (before : Nat) (failure : Option (Nat × Halt)) :
    (report before failure).code = 0 ↔ failure = none := by
  obtain _ | ⟨number, halt⟩ := failure
  · simp [report]
  · have failing : (report before (some (number, halt))).code ≠ 0 := by
      cases halt with
      | fault fault => cases fault <;> simp [report, reportHalt, Output.reportFirst, exitCode]
      | panic text => simp [report, reportHalt, Output.reportFirst]
      | exhausted => simp [report, reportHalt, Output.reportFirst]
    simp [failing]

theorem code_report_eq (before other : Nat) (failure : Option (Nat × Halt)) :
    (report before failure).code = (report other failure).code := by
  obtain _ | ⟨number, halt⟩ := failure
  · rfl
  · cases halt <;> rfl

theorem report_after (first second : Session) :
    report 0 (first.after second).failure = report first.count second.failure := by
  obtain ⟨world, printed, count, _ | ⟨number, halt⟩⟩ := second
  · rfl
  · simp [after, report]

/-! What lines leave to the lines behind them. -/

/-- A world of scripts over the prelude, in which no frame was pushed. -/
structure Scripted (world : World) : Prop where
  prelude : PreludeMethods world.env
  ground : world.env.below = []

theorem scripted_groundWorld : Scripted groundWorld :=
  ⟨preludeMethods_environment, rfl⟩

theorem evaluateSource_grows (line : String) (world : World) (scripted : Scripted world) :
    (worldAfter (Evaluator.evaluateSource {} line world)).env.Extends world.env := by
  unfold Evaluator.evaluateSource
  cases parse line with
  | ok e => exact (evaluate_grown {} e world scripted.prelude).worldAfter.env
  | error fault => exact .refl _

theorem feed_grows (session : Session) (line : String) (scripted : Scripted session.world) :
    (session.feed line).world.env.Extends session.world.env := by
  unfold feed
  split
  · exact .refl _
  · split
    · exact .refl _
    · have grows := evaluateSource_grows line session.world scripted
      split <;> next answer => simpa only [answer, worldAfter] using grows

theorem Scripted.extend {before after : World} (scripted : Scripted before)
    (grows : after.env.Extends before.env) : Scripted after :=
  ⟨grows.prelude scripted.prelude, grows.below.trans scripted.ground⟩

-- One line after the other. Each finds the methods of the prelude as those in front have left them.
theorem feedAll_grows (session : Session) (lines : List String)
    (scripted : Scripted session.world) :
    (session.feedAll lines).world.env.Extends session.world.env := by
  induction lines generalizing session with
  | nil => exact .refl _
  | cons line rest ih =>
      have first := session.feed_grows line scripted
      exact (ih _ (scripted.extend first)).trans first

theorem value?_extends {before after : Environment} (grows : after.Extends before)
    (ground : before.below = []) (name : String) (value : Value)
    (declared : before.value? name = some value) : after.value? name = some value := by
  simp only [Environment.value?, Environment.frames, ground, List.findSome?_cons,
    List.findSome?_nil] at declared
  apply Environment.value?_of_top
  apply grows.kept
  revert declared
  cases before.top.value? name <;> simp

theorem scripted_lines (lines : List String) :
    Scripted (feedAll { world := groundWorld } lines).world :=
  scripted_groundWorld.extend (feedAll_grows _ lines scripted_groundWorld)

theorem code_ofText (source : String) :
    (run source).code = 0 ↔ (ofText source).failure = none := by
  rw [run_eq]
  exact code_report 0 _

end Session

open Session

/-- A run feeds the lines of its text one after the other to a session in the world of the prelude.
Behind a text that ends with its line, a text goes on in the world that this one has left, and the
numbers of its lines are counted on, unless the first text has failed: then nothing more happens.
What is declared once as a variable reads the same behind all lines that follow. -/
theorem run_folds :
    (∀ source : String, run source = (ofText source).output) ∧
    (∀ front behind : String, front.toList.getLast? = some '\n' →
      ((run front).code = 0 →
        ∀ later, later = feedAll { world := (ofText front).world } (Text.lines behind) →
          run (front ++ behind) =
            { code := later.output.code
              stdout := (run front).stdout ++ later.printed
              stderr := (report (Text.lines front).length later.failure).stderr }) ∧
      ((run front).code ≠ 0 → run (front ++ behind) = run front)) ∧
    ∀ (earlier later : List String) (name : String) (value : Value),
      (feedAll { world := groundWorld } earlier).world.env.value? name = some value →
      ∀ world, world = (feedAll { world := groundWorld } (earlier ++ later)).world →
        world.env.value? name = some value ∧
        ∀ place, Evaluator.evaluate {} (.identifier name place) world = .ok value world := by
  refine ⟨run_eq, ?_, ?_⟩
  · intro front behind ends
    have whole : ofText (front ++ behind) = (ofText front).feedAll (Text.lines behind) := by
      rw [ofText, Text.lines_append front behind ends, feedAll_append, ofText]
    constructor
    · rintro succeeds _ rfl
      have running := (code_ofText front).mp succeeds
      have counted : (ofText front).count = (Text.lines front).length := by
        rw [ofText, count_feedAll _ _ running, Nat.zero_add]
      rw [run_eq, run_eq, whole, feedAll_onward _ running]
      simp only [output, report_after, counted]
      rw [code_report_eq _ 0]
      rfl
    · intro fails
      have ended : (ofText front).failure ≠ none := fun running =>
        fails ((code_ofText front).mpr running)
      rw [run_eq, run_eq, whole, feedAll_failed _ _ ended]
  · rintro earlier later name value declared _ rfl
    have scripted := scripted_lines earlier
    have kept : (feedAll { world := groundWorld } (earlier ++ later)).world.env.value? name =
        some value := by
      rw [feedAll_append]
      exact value?_extends (feedAll_grows _ later scripted) scripted.ground name value declared
    exact ⟨kept, fun place => Evaluator.evaluate_variable {} name place value _ rfl kept⟩

theorem run_folds_declared :
    run ("set 'x 1\n" ++ "x\n\nboom") =
      ⟨70, "1\n", "line 4: [line 1, offset 0] Unknown identifier 'boom'\n"⟩ ∧
    run ("boom\n" ++ "x") = run "boom\n" ∧
    (feedAll { world := groundWorld } (["set 'x 1"] ++ ["set 'x 2"])).world.env.value? "x" =
      some (.int 1) := by
  obtain ⟨_, texts, kept⟩ := run_folds
  refine ⟨?_, ?_, ?_⟩
  · rw [(texts "set 'x 1\n" "x\n\nboom" (by decide)).1 (by decide +kernel) _ rfl]
    decide +kernel
  · exact (texts "boom\n" "x" (by decide)).2 (by decide +kernel)
  · have declared : (feedAll { world := groundWorld } ["set 'x 1"]).world.env.value? "x" =
        some (.int 1) := by
      have one : ((feedAll { world := groundWorld } ["set 'x 1"]).world.env.value? "x").bind
          Value.int? = some 1 := by
        decide +kernel
      obtain ⟨value, found, read⟩ := Option.bind_eq_some_iff.mp one
      cases value <;> cases read
      exact found
    exact (kept ["set 'x 1"] ["set 'x 2"] "x" (.int 1) declared _ rfl).1

end CommandLine

end ChainScript
