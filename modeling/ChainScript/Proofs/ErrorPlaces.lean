import ChainScript.Proofs.AnyTokens
import ChainScript.Proofs.FaultPlaces
import ChainScript.Proofs.Resuming

/-!
Places of errors. What is wrong with a text is told with the place of the first item that is no
token, or else with that of one of its tokens, and what is wrong with a script with the place of one
of its words. The one error without a place of its own is that of a chain without words.
-/

namespace ChainScript

/-! Texts that cannot be scanned. -/

def Position.Lies (source : String) (place : Position) : Prop :=
  place.offset ≤ source.utf8ByteSize ∧ place.line = 1 + newlinesBefore source place.offset

theorem item_lies (source : String) (front : List Token) (item : Except Fault Token)
    (behind : List (Except Fault Token)) (split : scan source = front.map .ok ++ item :: behind) :
    ∃ place, itemPlace? item = some place ∧ place.Lies source := by
  have start : Cursor.In ⟨source.toList, .start⟩ source.toList 0 := ⟨[], rfl, rfl, rfl⟩
  obtain ⟨place, found, inside⟩ := itemPlace?_of_items _ start _ behind item split
  have counted : uncountedIn (front.map .ok) = 0 := by
    simp [uncountedIn, Function.comp_def, uncounted]
  have bounds := inside.bounds
  rw [String.ofList_toList, counted] at bounds
  exact ⟨place, found, bounds⟩

theorem token_lies (source : String) (found : List Token) (clean : tokens source = .ok found)
    (token : Token) (member : token ∈ found) : token.position.Lies source := by
  obtain ⟨front, behind, rfl⟩ := List.append_of_mem member
  have items := eq_map_of_firstFault _ _ clean
  rw [List.map_append, List.map_cons] at items
  obtain ⟨place, here, lies⟩ := item_lies source front (.ok token) _ items
  cases here
  exact lies

/-! Texts that cannot be parsed. -/

theorem mem_of_closeQuotes (term : Expr) (openings : List Opening) (opening : Opening)
    (member : opening ∈ (closeQuotes term openings).2) : opening ∈ openings := by
  induction openings generalizing term with
  | nil => exact member
  | cons first outer ih =>
      cases first with
      | quote => exact List.mem_cons_of_mem _ (ih _ member)
      | group place before => exact member

namespace Parser

variable (known : Position → Prop)

def Opened (openings : List Opening) : Prop :=
  ∀ place before, .group place before ∈ openings → known place

def FailsAt (result : Except Fault Expr) : Prop :=
  ∀ fault, result = .error fault → ∃ place, fault.position? = some place ∧ known place

variable {known} {openings : List Opening}

theorem Opened.quote (opened : Opened known openings) : Opened known (.quote :: openings) := by
  intro place before member
  rcases List.mem_cons.mp member with same | outer
  · cases same
  · exact opened place before outer

theorem Opened.group (opened : Opened known openings) (place : Position) (before : List Expr)
    (here : known place) : Opened known (.group place before :: openings) := by
  intro other terms member
  rcases List.mem_cons.mp member with same | outer
  · cases same
    exact here
  · exact opened other terms outer

theorem Opened.closeQuotes (opened : Opened known openings) (term : Expr) :
    Opened known (ChainScript.closeQuotes term openings).2 :=
  fun place before member => opened place before (mem_of_closeQuotes term _ _ member)

theorem failsAt_malformed (cause : Malformed) (place : Position) (here : known place) :
    FailsAt known (.error (.malformed cause place)) := by
  rintro _ ⟨⟩
  exact ⟨place, rfl, here⟩

theorem finish_failsAt (base : Nat) (terms : List Expr) (rest : List Token)
    (opened : Opened known openings) (here : known (nextPlace rest)) :
    FailsAt known (finish base terms rest openings).1 := by
  cases openings with
  | nil => exact fun _ failed => nomatch failed
  | cons opening outer =>
      cases opening with
      | quote => exact failsAt_malformed _ _ here
      | group place before => exact failsAt_malformed _ _ (opened place before List.mem_cons_self)

-- The end token is among those that are left, so reading never comes to where no token is.
theorem read_failsAt (base : Nat) (openings : List Opening) (terms : List Expr)
    (tokens : List Token) (opened : Opened known openings)
    (all : ∀ token ∈ tokens, known token.position)
    (ends : ∃ token ∈ tokens, token.kind = .endOfInput) :
    FailsAt known (read base openings terms tokens).1 := by
  induction tokens generalizing openings terms with
  | nil =>
      obtain ⟨token, member, _⟩ := ends
      cases member
  | cons token rest ih =>
      obtain ⟨here, later⟩ := List.forall_mem_cons.mp all
      have fails (cause : Malformed) : FailsAt known (.error (.malformed cause token.position)) :=
        failsAt_malformed cause _ here
      by_cases last : token.kind = .endOfInput
      · simp only [read, last]
        exact finish_failsAt base terms _ opened here
      · have ends' : ∃ token ∈ rest, token.kind = .endOfInput := by
          obtain ⟨other, member, kind⟩ := ends
          rcases List.mem_cons.mp member with rfl | member
          · exact absurd kind last
          · exact ⟨other, member, kind⟩
        cases leaf : token.leaf? with
        | some e =>
            rw [read_leaf base openings terms token rest e leaf]
            exact ih _ _ (opened.closeQuotes e) later ends'
        | none =>
            rcases kind_of_leaf?_eq_none token leaf with marks | opens | closes | ended
            · rw [read_quote marks]
              split
              · exact fails _
              · split
                · exact fails _
                · exact ih _ _ opened.quote later ends'
            · rw [read_group opens]
              split
              · exact fails _
              · split
                · exact fails _
                · exact ih _ _ (opened.group token.position terms here) later ends'
            · simp only [read, closes]
              split
              · next place before outer =>
                  have outside : Opened known outer :=
                    fun place before member => opened place before (List.mem_cons_of_mem _ member)
                  exact ih _ _ (outside.closeQuotes _) later ends'
              · exact fails _
            · exact absurd ended last

end Parser

theorem parse_failsAt (source : String) : Parser.FailsAt (·.Lies source) (parse source) := by
  unfold parse
  split
  · next found clean =>
      have lies := token_lies source found clean
      obtain ⟨front, last, rfl, kind, _⟩ := endsOnce_of_tokens source found clean
      unfold Parser.parse
      split
      · next first =>
          apply Parser.failsAt_malformed
          cases front with
          | nil => exact lies last (by simp)
          | cons token rest => exact lies token (by simp)
      · exact Parser.read_failsAt 0 [] [] _ nofun lies ⟨last, by simp, kind⟩
  · next cause scanned =>
      rintro _ ⟨⟩
      obtain ⟨front, behind, items⟩ := front_of_firstFault _ cause scanned
      exact item_lies source front (.error cause) behind items

/-! Scripts that fail. -/

theorem word_lies (source : String) (script : Expr) (read : parse source = .ok script)
    (place : Position) (has : script.HasWordAt place) : place.Lies source := by
  rw [Expr.hasWordAt_iff] at has
  obtain ⟨word, member, rfl⟩ := List.mem_map.mp has
  obtain ⟨before, behind, rfl, stands⟩ := (words_of_parse _ script read).2 word member
  have text : before ++ word.1 ++ behind =
      String.ofList (before.toList ++ (word.1 ++ behind).toList) := by
    simp [String.append_assoc]
  have lines := newlinesBefore_size before.toList (word.1 ++ behind).toList
  rw [← text, String.ofList_toList] at lines
  rw [stands]
  constructor
  · simp only [String.utf8ByteSize_append]
    omega
  · rw [lines]

/-- The error of a text that is evaluated over the prelude has the place of a word of the script,
or of a token or an item that cannot be scanned if the text is no script. Only what is wrong with a
chain without words is told with the default place, the line of which is no line of a text. -/
theorem evaluateSource_points (evaluator : Evaluator) (bare : evaluator.scope = [])
    (source : String) (halt : Halt) (after : World)
    (failed : evaluator.evaluateSource source { env := Prelude.environment } =
      .error halt after) :
    ∃ fault place, halt = .fault fault ∧ fault.position? = some place ∧
      place.offset ≤ source.utf8ByteSize ∧
      (place.line = 1 + newlinesBefore source place.offset ∧
          (∀ script, parse source = .ok script → script.HasWordAt place) ∨
        place = default ∧ ∃ script terms, parse source = .ok script ∧
          (Expr.chain terms).IsPart script ∧ Expr.wordsAll terms = [] ∧ terms.length ≠ 1 ∧
          fault = .unconsumed terms.length place) := by
  unfold Evaluator.evaluateSource at failed
  cases read : parse source with
  | error fault =>
      simp only [read] at failed
      cases failed
      obtain ⟨place, placed, offset, line⟩ := parse_failsAt source fault read
      exact ⟨fault, place, rfl, placed, offset, .inl ⟨line, nofun⟩⟩
  | ok script =>
      simp only [read] at failed
      rcases evaluator.evaluate_readable script { env := Prelude.environment }
          preludeMethods_environment with
        ⟨value, last, ended⟩ | ⟨fault, last, ended, _⟩
      · cases ended.symm.trans failed
      cases ended.symm.trans failed
      have stubless := stubless_of_parse source script read
      cases evaluator.evaluate_points bare script stubless fault _ ended with
      | word fault place placed has =>
          obtain ⟨offset, line⟩ := word_lies source script read place has
          refine ⟨fault, place, rfl, placed, offset, .inl ⟨line, ?_⟩⟩
          rintro _ ⟨⟩
          exact has
      | wordless terms part bare several =>
          exact ⟨_, default, rfl, rfl, Nat.zero_le _,
            .inr ⟨rfl, script, terms, rfl, part, bare, several, rfl⟩⟩

theorem evaluateSource_points_unknown :
    ∃ after, Evaluator.evaluateSource {} "\nx" { env := Prelude.environment } =
        .error (.fault (.unresolved "x" ⟨1, 2⟩)) after ∧
      ∃ place, (Fault.unresolved "x" ⟨1, 2⟩).position? = some place ∧
        place.offset ≤ "\nx".utf8ByteSize ∧
        place.line = 1 + newlinesBefore "\nx" place.offset := by
  have read : parse "\nx" = .ok (.chain [.identifier "x" ⟨1, 2⟩]) := by cbv
  have failed : Evaluator.evaluateSource {} "\nx" { env := Prelude.environment } =
      .error (.fault (.unresolved "x" ⟨1, 2⟩)) { env := Prelude.environment } := by
    simp only [Evaluator.evaluateSource, read]
    rfl
  obtain ⟨fault, place, same, placed, offset, line | ⟨_, _, _, _, _, _, _, unconsumed⟩⟩ :=
    evaluateSource_points {} rfl "\nx" _ _ failed
  · cases same
    exact ⟨_, failed, place, placed, offset, line.1⟩
  · cases same
    cases unconsumed

/-- No line of a text is the one that an error names for two numbers. -/
theorem wordless_misplaced :
    Evaluator.evaluateSource {} "1 2" { env := Prelude.environment } =
      .error (.fault (.unconsumed 2 ⟨0, 0⟩)) { env := Prelude.environment } ∧
    ∀ place, (Fault.unconsumed 2 ⟨0, 0⟩).position? = some place →
      place.line ≠ 1 + newlinesBefore "1 2" place.offset := by
  have read : parse "1 2" = .ok (.chain [.number (.int 1), .number (.int 2)]) := by cbv
  constructor
  · simp only [Evaluator.evaluateSource, read]
    rfl
  · rintro _ ⟨⟩
    have first (lines : Nat) : 0 ≠ 1 + lines := by omega
    exact first _

end ChainScript
