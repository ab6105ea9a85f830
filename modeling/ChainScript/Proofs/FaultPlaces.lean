import ChainScript.Proofs.Pointing
import ChainScript.Proofs.Provenance
import ChainScript.Proofs.Relayout
import ChainScript.Proofs.Surfacing

/-!
Places of faults. An evaluation over the prelude evaluates nothing but parts of its script: those
that it comes to in their turn, and those that were quoted on the way. So a fault has the place of a
word of the script, unless it is that of a chain without words, which has no place of its own.
-/

namespace ChainScript

/-! Parts of parts. -/

namespace Expr

theorem IsPart.trans {part middle whole : Expr} (inner : part.IsPart middle)
    (outer : middle.IsPart whole) : part.IsPart whole := by
  induction outer with
  | whole => exact inner
  | deferred _ ih => exact .deferred ih
  | block _ ih => exact .block ih
  | chain _ member ih => exact .chain ih member

theorem stubless_of_mem (terms : List Expr) (stubless : StublessAll terms) (term : Expr)
    (member : term ∈ terms) : term.Stubless := by
  induction terms with
  | nil => cases member
  | cons first rest ih =>
      rcases List.mem_cons.mp member with rfl | later
      · exact stubless.1
      · exact ih stubless.2 later

theorem IsPart.stubless {part whole : Expr} (inside : part.IsPart whole)
    (stubless : whole.Stubless) : part.Stubless := by
  induction inside with
  | whole => exact stubless
  | deferred _ ih => exact ih stubless
  | block _ ih => exact ih stubless
  | chain _ member ih => exact ih (stubless_of_mem _ stubless _ member)

theorem HasWordAt.within {part whole : Expr} {place : Position} (has : part.HasWordAt place)
    (inside : part.IsPart whole) : whole.HasWordAt place := by
  obtain ⟨name, word | option⟩ := has
  · exact ⟨name, .inl (word.trans inside)⟩
  · exact ⟨name, .inr (option.trans inside)⟩

end Expr

/-! Faults and the places that they name. -/

/-- Whether a fault names the place of a word in a script, or says of a chain in it that there is
no word in, which has the default place, how many values it has. -/
inductive Fault.Points (script : Expr) : Fault → Prop where
  | word (fault : Fault) (place : Position) (placed : fault.position? = some place)
      (has : script.HasWordAt place) : Fault.Points script fault
  | wordless (terms : List Expr) (part : (Expr.chain terms).IsPart script)
      (bare : Expr.wordsAll terms = []) (several : terms.length ≠ 1) :
      Fault.Points script (.unconsumed terms.length default)

/-- A fault as a method passes it on: one that points at the script, or a complaint of its own. -/
inductive Fault.Raised (script : Expr) : Fault → Prop where
  | points (fault : Fault) (points : fault.Points script) : Fault.Raised script fault
  | complaint (cause : Complaint) : Fault.Raised script (.complaint cause)

theorem Fault.Points.surfaced (script : Expr) (fault : Fault) (points : fault.Points script) :
    fault.Surfaced := by
  cases points with
  | word fault place placed has => exact .inl (Option.isSome_of_eq_some placed)
  | wordless terms part none several => exact .inl rfl

theorem Fault.Raised.atCall (script : Expr) (fault : Fault) (raised : fault.Raised script)
    (method : String) (place : Position) (has : script.HasWordAt place) :
    (fault.atCall method place).Points script := by
  cases raised with
  | points fault points => rwa [Fault.Surfaced.atCall fault (points.surfaced script fault)]
  | complaint cause => exact .word _ place rfl has

/-! Evaluations. -/

section

variable {script : Expr}

theorem quotes_expect {world : World} (target : Target) (value : Value) (a : target.denote)
    (known : world.Quotes (·.IsPart script)) (quotes : value.Quotes (·.IsPart script))
    (taken : world.env.expect target value = .ok a) : target.Quotes (·.IsPart script) a := by
  unfold Environment.expect at taken
  split at taken
  · next found converted =>
      cases taken
      exact quotes_convert world.env known.prelude target value quotes a converted
  · cases taken

/-- What is left of a chain is told with the place of its first word. If there is none, each term
has added one value. -/
theorem unconsumed_points (terms : List Expr) (count : Nat)
    (part : (Expr.chain terms).IsPart script)
    (bare : Expr.firstPosition? terms = none → count = terms.length) (several : count ≠ 1) :
    (Fault.unconsumed count (Expr.chainPlace terms)).Points script := by
  unfold Expr.chainPlace
  have head := Expr.firstPosition?_eq_head terms
  cases words : Expr.wordsAll terms with
  | nil =>
      rw [words] at head
      obtain rfl := bare head
      rw [head]
      exact .wordless terms part words several
  | cons word rest =>
      rw [words] at head
      rw [head]
      have has : (Expr.chain terms).HasWordAt word.2 :=
        Expr.hasWordAt_of_mem (.chain terms) word (by simp [Expr.words, words])
      exact .word _ word.2 rfl (has.within part)

/-- Evaluating the parts of a script without values in it, in worlds that quote such parts only. -/
def pointing (stubless : script.Stubless) : FaultInvariant where
  part := (·.IsPart script)
  word := script.HasWordAt
  fine := World.Quotes (·.IsPart script)
  callable := (· ∈ Prelude.methods)
  part_deferred _ part := Expr.IsPart.trans (.deferred .whole) part
  part_block _ part := Expr.IsPart.trans (.block .whole) part
  part_term _ part _ member := Expr.IsPart.trans (.chain .whole member) part
  word_identifier name _ part := ⟨name, .inl part⟩
  word_option name _ part := ⟨name, .inr part⟩
  quotes_stub _ part := absurd (part.stubless stubless) id
  quotes_variable world name value known found := World.Quotes.value? world known name value found
  quotes_taken _ target value a known quotes taken :=
    quotes_expect target value a known quotes taken
  fails := Fault.Points script
  answers := Fault.Raised script
  callable_fine _ name method known :=
    PreludeMethods.of_method? known.prelude.methods name method
  complains := .complaint
  catches := .points
  attributes cause method place has raised := raised.atCall script cause method place has
  objects _ place has objects := by cases objects <;> exact .word _ place rfl has
  unconsumed := unconsumed_points

theorem declares_pointing (stubless : script.Stubless) : (pointing stubless).onRuns.Declares := by
  intro levels world name value env known quotes declared
  unfold Environment.declare at declared
  split at declared
  · cases declared
  · cases declared
    refine ⟨⟨?_, ?_⟩, trivial⟩
    · exact known.prelude.top _ _ (fun _ old => .inl old) fun _ old => .inl old
    · intro frame member
      rcases List.mem_cons.mp member with rfl | below
      · exact List.forall_mem_cons.mpr ⟨quotes, known.bound _ List.mem_cons_self⟩
      · exact known.bound frame (List.mem_cons_of_mem _ below)

end

theorem quotes_groundWorld (quoted : Expr → Prop) :
    World.Quotes quoted { env := Prelude.environment } := by
  refine ⟨preludeOnly_environment, ?_⟩
  rw [Prelude.frames_environment, List.forall_mem_singleton, Prelude.bindings_environment]
  simp only [Quoting, List.forall_mem_cons]
  exact ⟨.placeholder, .bool false, .bool true, Quoting.nil _⟩

theorem Evaluator.evaluate_points (evaluator : Evaluator) (bare : evaluator.scope = [])
    (script : Expr) (stubless : script.Stubless) (fault : Fault) (after : World)
    (failed : evaluator.evaluate script { env := Prelude.environment } =
      .error (.fault fault) after) : fault.Points script := by
  have scope : Quoting (·.IsPart script) evaluator.scope := by
    rw [bare]
    exact Quoting.nil _
  have holds := (pointing stubless).onRuns.evaluate_holds_of_prelude (fun _ known => known)
    (fun _ _ _ => declares_pointing stubless) evaluator scope script .whole _
    (quotes_groundWorld _)
  exact FaultInvariant.fails_of_holds holds fault failed

end ChainScript
