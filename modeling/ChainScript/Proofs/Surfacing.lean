import ChainScript.Host.Methods
import ChainScript.Proofs.Faults
import ChainScript.Proofs.Orderly
import ChainScript.Proofs.Parsing

/-!
How faults surface. What comes out of an evaluation names its place, or says that it was canceled.
Where methods other than those of the prelude evaluate nothing, the first fault that a method
answers with is the fault of the whole evaluation, with the place of that call if it has none.
-/

namespace ChainScript

/-! Texts that cannot be read. -/

def Fault.Unreadable (fault : Fault) : Prop := ∃ cause place, fault = .malformed cause place

theorem stringBody_unreadable (opening : Position) (cut : Cursor) (decoded : List Char)
    (place : Position) (text : List Char) (fault : Fault)
    (failed : (stringBody opening cut decoded place text).1 = .error fault) :
    fault.Unreadable := by
  fun_induction stringBody opening cut decoded place text with
  | case1 => exact ⟨_, _, (Except.error.inj failed).symm⟩
  | case2 => cases failed
  | case3 => exact ⟨_, _, (Except.error.inj failed).symm⟩
  | case4 _ _ _ _ _ _ _ _ ih => exact ih failed
  | case5 => exact ⟨_, _, (Except.error.inj failed).symm⟩
  | case6 _ _ _ _ _ _ _ _ ih => exact ih failed

theorem scanItem_unreadable (place : Position) (c : Char) (rest : List Char) (fault : Fault)
    (failed : (scanItem place c rest).1 = .error fault) : fault.Unreadable := by
  unfold scanItem at failed
  split at failed
  · cases failed
  · cases failed
  · cases failed
  · simp only [scanString] at failed
    cases read : (stringBody place ⟨rest, place.past '"'⟩ [] (place.past '"') rest).1 with
    | ok text =>
        rw [read] at failed
        cases failed
    | error cause =>
        rw [read] at failed
        cases failed
        exact stringBody_unreadable _ _ _ _ _ fault read
  · simp only [scanWord] at failed
    split at failed
    · cases failed
    · exact ⟨_, _, (Except.error.inj failed).symm⟩

theorem items_unreadable (scanner : Scanner) (fault : Fault)
    (found : .error fault ∈ scanner.items) : fault.Unreadable := by
  fun_induction Scanner.items scanner with
  | case1 scanner stopped => cases found
  | case2 scanner item after step ih =>
      rcases List.mem_cons.mp found with rfl | later
      · unfold Scanner.next? at step
        split at step
        · cases step
        · dsimp only at step
          split at step
          · cases step
          · next here c rest text =>
              have scanned := congrArg Prod.fst (Option.some.inj step)
              exact scanItem_unreadable _ c rest fault scanned
      · exact ih later

theorem parse_unreadable (source : String) (fault : Fault)
    (failed : parse source = .error fault) : fault.Unreadable := by
  unfold parse at failed
  split at failed
  · next found _ =>
      rcases Parser.parse_outcome found with ⟨_, ok, _⟩ | ⟨cause, place, wrong⟩
      · rw [ok] at failed
        cases failed
      · rw [wrong] at failed
        cases failed
        exact ⟨cause, place, rfl⟩
  · next cause scanned =>
      cases failed
      obtain ⟨front, behind, items⟩ := front_of_firstFault _ fault scanned
      have found : .error fault ∈ scan source := by simp [items]
      exact items_unreadable _ fault found

/-! Evaluations of what has been read. -/

theorem Fault.unreadable_of_atCall (cause : Fault) (method : String) (place : Position)
    (unreadable : (cause.atCall method place).Unreadable) : cause.Unreadable := by
  cases cause with
  | complaint cause =>
      obtain ⟨_, _, same⟩ := unreadable
      cases same
  | _ => exact unreadable

/-- A text is read before it is evaluated, and no method of the prelude reads one. -/
def readability : FaultInvariant where
  toSetting := .everywhere (fun world => PreludeMethods world.env) (· ∈ Prelude.methods)
  fails cause := ¬ cause.Unreadable
  answers cause := ¬ cause.Unreadable
  callable_fine _ name method prelude found := prelude.of_method? name method found
  complains _ := by rintro ⟨_, _, ⟨⟩⟩
  catches _ readable := readable
  attributes cause method place _ readable := readable ∘ cause.unreadable_of_atCall method place
  objects cause _ _ objects := by
    rintro ⟨_, _, rfl⟩
    cases objects
  unconsumed _ _ _ _ _ := by rintro ⟨_, _, ⟨⟩⟩

theorem declares_readability : readability.onRuns.Declares := by
  intro levels world name value env prelude _ declared
  exact ⟨(Environment.extends_declare _ _ name value declared).prelude prelude, trivial⟩

theorem Evaluator.evaluate_readable (evaluator : Evaluator) (e : Expr) (world : World)
    (prelude : PreludeMethods world.env) :
    (∃ value after, evaluator.evaluate e world = .ok value after) ∨
      ∃ cause after, evaluator.evaluate e world = .error (.fault cause) after ∧
        ¬ cause.Unreadable := by
  have holds := readability.onRuns.evaluate_holds_of_prelude (fun _ known => known)
    (fun _ _ _ => declares_readability) evaluator (quoting_true evaluator.scope) e trivial world
    prelude
  have grown := evaluate_grown evaluator e world prelude
  generalize evaluator.evaluate e world = result at grown holds
  cases grown with
  | ok value after _ => exact .inl ⟨value, after, rfl⟩
  | fault cause after _ =>
      exact .inr ⟨cause, after, rfl, FaultInvariant.fails_of_holds holds cause rfl⟩

/-! Faults that have surfaced. -/

/-- Whether a fault names its place, unless it says that the evaluation was canceled. -/
def Fault.Surfaced (fault : Fault) : Prop := fault.position?.isSome ∨ fault = .canceled

theorem Fault.surfaced_of_attributed (fault : Fault) (attributed : (Halt.fault fault).Attributed) :
    fault.Surfaced := by
  cases fault with
  | complaint cause => exact absurd attributed id
  | canceled => exact .inr rfl
  | _ => exact .inl rfl

theorem Fault.Surfaced.atCall (fault : Fault) (surfaced : fault.Surfaced) (method : String)
    (place : Position) : fault.atCall method place = fault := by
  cases fault with
  | complaint cause =>
      rcases surfaced with placed | canceled
      · cases placed
      · cases canceled
  | _ => rfl

namespace Evaluator

variable (evaluator : Evaluator) (world after : World) (fault : Fault)

theorem evaluate_surfaced (e : Expr)
    (failed : evaluator.evaluate e world = .error (.fault fault) after) : fault.Surfaced := by
  rw [evaluate_eq_evaluateTerm] at failed
  exact fault.surfaced_of_attributed (evaluateTerm_attributed _ _ e world _ after failed)

theorem evaluateSource_surfaced (source : String)
    (failed : evaluator.evaluateSource source world = .error (.fault fault) after) :
    fault.Surfaced := by
  cases read : parse source with
  | ok e =>
      simp only [evaluateSource, read] at failed
      exact evaluator.evaluate_surfaced world after fault e failed
  | error cause =>
      simp only [evaluateSource, read] at failed
      cases failed
      obtain ⟨cause, place, rfl⟩ := parse_unreadable source fault read
      exact .inl rfl

end Evaluator

theorem answered_ends (evaluator : Evaluator) (e : Expr) (world : World)
    (tame : TameMethods world.env) (before behind : List Event) (method : Method)
    (place : Position) (fault : Fault)
    (answers : evaluator.events e world =
      before ++ .answered method place (.error fault) :: behind) :
    (∃ after, evaluator.evaluate e world =
      .error (.fault (fault.atCall method.name place)) after) ∧
    ∀ event ∈ behind, event.call? = none := by
  have orderly := events_orderly evaluator e world tame
  constructor
  · have member : .answered method place (.error fault) ∈ evaluator.events e world := by
      rw [answers]
      exact List.mem_append_right _ List.mem_cons_self
    exact Course.ended_of_endsBy _ _ (orderly.final method place fault member)
  · intro event later
    have last := orderly.last
    rw [answers] at last
    have behind := (List.pairwise_cons.mp (List.pairwise_append.mp last).2.1).1
    exact behind event later trivial

/-- All faults of evaluations have surfaced, over any methods. If the methods that are not of the
prelude evaluate nothing, then a fault that a method answers with, at any depth, is the fault of the
evaluation: unchanged if it has surfaced already, and otherwise with the call that it comes from.
Nothing is called any more. -/
theorem evaluate_surfaces :
    (∀ (evaluator : Evaluator) (world after : World) (fault : Fault),
      (∀ e, evaluator.evaluate e world = .error (.fault fault) after → fault.Surfaced) ∧
      (∀ source, evaluator.evaluateSource source world = .error (.fault fault) after →
        fault.Surfaced) ∧
      ∀ name args, evaluator.call name args world = .error (.fault fault) after →
        fault.Surfaced) ∧
    (∀ (evaluator : Evaluator) (e : Expr) (world : World), TameMethods world.env →
      ∀ (before behind : List Event) (method : Method) (place : Position) (fault : Fault),
        evaluator.events e world = before ++ .answered method place (.error fault) :: behind →
          (∃ after, evaluator.evaluate e world =
            .error (.fault (fault.atCall method.name place)) after) ∧
          (fault.Surfaced → fault.atCall method.name place = fault) ∧
          ∀ event ∈ behind, event.call? = none) := by
  constructor
  · intro evaluator world after fault
    refine ⟨fun e => ?_, fun source => ?_, fun name args => ?_⟩
    · exact evaluator.evaluate_surfaced world after fault e
    · exact evaluator.evaluateSource_surfaced world after fault source
    · exact evaluator.evaluate_surfaced world after fault (.call name args)
  · intro evaluator e world tame before behind method place fault answers
    obtain ⟨ends, silent⟩ :=
      answered_ends evaluator e world tame before behind method place fault answers
    exact ⟨ends, fun surfaced => surfaced.atCall fault method.name place, silent⟩

/-- A method that cancels, and two items, in a frame over the prelude. -/
def cancelingEnvironment : Environment :=
  ⟨⟨[Host.canceling "choose" 0], [("items", .list [.int 1, .int 2])], []⟩,
    Prelude.environment.frames⟩

def cancelingMap : Expr :=
  .chain [.identifier "map" ⟨0, 1⟩, .identifier "items" ⟨4, 1⟩,
    .deferred (.block (.chain [.identifier "+" ⟨12, 1⟩, .identifier "$it" ⟨14, 1⟩,
      .identifier "choose" ⟨18, 1⟩]))]

theorem evaluate_surfaces_map :
    TameMethods cancelingEnvironment ∧
    ∃ before,
      Evaluator.events {} cancelingMap { env := cancelingEnvironment } =
        before ++ .answered (Host.canceling "choose" 0) ⟨18, 1⟩ (.error .canceled) ::
          [.left, .answered ⟨"map", 2, false, Prelude.mapBody⟩ ⟨0, 1⟩ (.error .canceled)] ∧
      (∃ after, Evaluator.evaluate {} cancelingMap { env := cancelingEnvironment } =
        .error (.fault .canceled) after) ∧
      Fault.Surfaced .canceled := by
  have tame : TameMethods cancelingEnvironment := by
    intro frame member method found
    rcases List.mem_cons.mp member with rfl | below
    · rw [List.mem_singleton.mp found]
      exact .inr fun _ _ => .finish _
    · exact .inl (preludeMethods_environment frame below method found)
  have happens : Evaluator.events {} cancelingMap { env := cancelingEnvironment } =
      (Evaluator.events {} cancelingMap { env := cancelingEnvironment }).take 3 ++
        .answered (Host.canceling "choose" 0) ⟨18, 1⟩ (.error .canceled) ::
          [.left, .answered ⟨"map", 2, false, Prelude.mapBody⟩ ⟨0, 1⟩ (.error .canceled)] := rfl
  obtain ⟨⟨after, ended⟩, _, _⟩ := evaluate_surfaces.2 {} _ _ tame _ _ _ _ _ happens
  have surfaced := (evaluate_surfaces.1 {} _ after .canceled).1 _ ended
  exact ⟨tame, _, happens, ⟨after, ended⟩, surfaced⟩

end ChainScript
