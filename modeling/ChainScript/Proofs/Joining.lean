import ChainScript.Proofs.Deliveries
import ChainScript.Proofs.Operands

/-!
Joining. `join` puts the parts of its arguments side by side, with the separator between each two. A
list stands for its items, but the items of an item stay together. So joins compose, and arguments
without parts leave no trace.
-/

namespace ChainScript

def Value.partCount : Value → Nat
  | .list items => items.length
  | _ => 1

def partCount (args : List Value) : Nat := (args.map Value.partCount).sum

/-- What it takes to join the parts of arguments with a separator. -/
structure Joins (separator : String) (join : List Value → String) : Prop where
  nothing : join [] = ""
  single : ∀ value : Value, value.items? = none → join [value] = value.shown
  inlined : ∀ before items after, (∀ item ∈ items, item.items? = none) →
    join (before ++ .list items :: after) = join (before ++ items ++ after)
  nested : ∀ before front inner back after,
    join (before ++ .list (front ++ .list inner :: back) :: after) =
      join (before ++ [.list front, .text (Value.list inner).shown, .list back] ++ after)
  empty : ∀ before after, join (before ++ .list [] :: after) = join (before ++ after)
  append : ∀ left right, partCount left ≠ 0 → partCount right ≠ 0 →
    join (left ++ right) = join left ++ separator ++ join right
  leftless : ∀ left right, partCount left = 0 → join (left ++ right) = join right
  rightless : ∀ left right, partCount right = 0 → join (left ++ right) = join left

/-! Texts with a separator. -/

section

variable (separator : String)

theorem separated_cons (text : String) (rest : List String) (more : rest ≠ []) :
    separated separator (text :: rest) = text ++ separator ++ separated separator rest := by
  cases rest with
  | nil => exact absurd rfl more
  | cons next rest => rfl

theorem separated_append (left right : List String) (first : left ≠ []) (last : right ≠ []) :
    separated separator (left ++ right) =
      separated separator left ++ separator ++ separated separator right := by
  induction left with
  | nil => exact absurd rfl first
  | cons text rest ih =>
      rw [List.cons_append, separated_cons _ _ _ (List.append_ne_nil_of_right_ne_nil rest last)]
      cases rest with
      | nil => rfl
      | cons next rest =>
          rw [ih (List.cons_ne_nil next rest),
            separated_cons _ _ _ (List.cons_ne_nil next rest)]
          simp only [String.append_assoc]

end

namespace Prelude

/-! Parts. -/

theorem parts_single (value : Value) (single : value.items? = none) : parts value = [value] := by
  cases value with
  | list items => cases single
  | _ => rfl

theorem flatMap_parts_flat (items : List Value) (flat : ∀ item ∈ items, item.items? = none) :
    items.flatMap parts = items := by
  induction items with
  | nil => rfl
  | cons item rest ih =>
      rw [List.flatMap_cons, parts_single item (flat item List.mem_cons_self),
        ih fun other member => flat other (List.mem_cons_of_mem item member)]
      rfl

theorem length_parts (value : Value) : (parts value).length = value.partCount := by
  cases value <;> rfl

theorem flatMap_parts_eq_nil_iff (args : List Value) :
    args.flatMap parts = [] ↔ partCount args = 0 := by
  have total : (args.flatMap parts).length = partCount args := by
    simp only [List.length_flatMap, length_parts, partCount]
  rw [← List.length_eq_zero_iff, total]

variable (separator : String)

theorem joined_congr (args others : List Value)
    (same : (args.flatMap parts).map Value.shown = (others.flatMap parts).map Value.shown) :
    joined separator args = joined separator others := by
  rw [joined, joined, same]

theorem joined_joins : Joins separator (joined separator) where
  nothing := rfl
  single value single := by simp [joined, parts_single value single, separated]
  inlined before items after flat := by
    apply joined_congr
    simp [flatMap_parts_flat items flat, parts]
  nested before front inner back after := by
    apply joined_congr
    simp [parts, Value.shown]
  empty before after := by
    apply joined_congr
    simp [parts]
  append left right first last := by
    rw [joined, List.flatMap_append, List.map_append]
    have shown (args : List Value) (counted : partCount args ≠ 0) :
        (args.flatMap parts).map Value.shown ≠ [] := by
      rw [Ne, List.map_eq_nil_iff, flatMap_parts_eq_nil_iff]
      exact counted
    exact separated_append separator _ _ (shown left first) (shown right last)
  leftless left right empty := by
    apply joined_congr
    rw [List.flatMap_append, (flatMap_parts_eq_nil_iff left).mpr empty, List.nil_append]
  rightless left right empty := by
    apply joined_congr
    rw [List.flatMap_append, (flatMap_parts_eq_nil_iff right).mpr empty, List.append_nil]

end Prelude

/-! Calls of `join`. -/

def Prelude.joinMethod : Method := ⟨"join", 0, true, joinBody⟩

namespace Spelling

variable {evaluator : Evaluator} (spelling : Spelling evaluator) (place optionPlace : Position)
  (world : World)

def separatorTerms : Option String → List Expr
  | none => []
  | some text => [.option "sep" optionPlace, spelling.term (.text text)]

/-- What comes of `join` in front of a separator and arguments. -/
def join (separator : Option String) (args : List Value) : EStateM.Result Halt World Value :=
  evaluator.evaluate (.chain (.identifier "join" place ::
    (spelling.separatorTerms optionPlace separator ++ args.map spelling.term))) world

def joinWalk (separator : Option String) (args : List Value) : Walk :=
  match separator with
  | none => ⟨args, [], place⟩
  | some text => ⟨args, [("sep", .text text)], optionPlace⟩

theorem walkTerms_joinWalk (separator : Option String) (args : List Value) :
    walkTerms evaluator.onward evaluator (.start place)
        (spelling.separatorTerms optionPlace separator ++ args.map spelling.term) world =
      .ok (joinWalk place optionPlace separator args) world := by
  have walked : walkTerms evaluator.onward evaluator (.start place) (args.map spelling.term) =
      pure ⟨args, [], place⟩ := by
    rw [walkTerms_map evaluator.onward evaluator id args spelling.term (.start place)
      spelling.adds]
    simp only [List.map_id, Walk.start, List.append_nil]
  rw [walkTerms_append, walked, pure_bind]
  cases separator with
  | none => rfl
  | some text =>
      have ended : walkTerms evaluator.onward evaluator ⟨args, [], place⟩ [] =
          pure ⟨args, [], place⟩ := rfl
      rw [separatorTerms, walkTerms_cons, walkTerms_cons, ended, pure_bind, spelling.adds,
        pure_bind]
      rfl

theorem invoke_join (separator : Option String) (args : List Value) :
    invoke evaluator.onward evaluator Prelude.joinMethod place
        (joinWalk place optionPlace separator args) world =
      .ok ⟨[.text (Prelude.joined (separator.getD "") args)], [],
        (joinWalk place optionPlace separator args).optionPlace⟩ world := by
  rw [invoke_enough _ _ _ _ _ (Nat.zero_le _)]
  cases separator with
  | none =>
      have unused : Options.unused ⟨[], ["sep"]⟩ = [] := by simp [Options.unused, sortedNames]
      calc
        _ = settle Prelude.joinMethod place ⟨args, [], place⟩
              (.ok (.text (Prelude.joined "" args)), ⟨[], ["sep"]⟩) world := rfl
        _ = _ := by
          simp only [settle, unused]
          rfl
  | some text =>
      have unused : Options.unused ⟨[("sep", .text text)], ["sep"]⟩ = [] := by
        simp [Options.unused, sortedNames]
      calc
        _ = settle Prelude.joinMethod place ⟨args, [("sep", .text text)], optionPlace⟩
              (.ok (.text (Prelude.joined text args)), ⟨[("sep", .text text)], ["sep"]⟩)
                world := rfl
        _ = _ := by
          simp only [settle, unused]
          rfl

theorem join_eq (builtin : evaluator.called? world.env "join" = some Prelude.joinMethod)
    (separator : Option String) (args : List Value) :
    spelling.join place optionPlace world separator args =
      .ok (.text (Prelude.joined (separator.getD "") args)) world := by
  have walked : evaluator.walkChain (.identifier "join" place ::
      (spelling.separatorTerms optionPlace separator ++ args.map spelling.term)) world =
        .ok ⟨[.text (Prelude.joined (separator.getD "") args)], [],
          (joinWalk place optionPlace separator args).optionPlace⟩ world := by
    have start : Expr.chainPlace (.identifier "join" place ::
        (spelling.separatorTerms optionPlace separator ++ args.map spelling.term)) = place := rfl
    rw [Evaluator.walkChain, start, walkTerms_cons]
    simp only [Bind.bind, EStateM.bind, walkTerms_joinWalk, walkTerm]
    rw [resolve_called _ _ _ _ _ _ _ builtin, invoke_join]
  rw [join, Evaluator.evaluate_chain]
  simp only [Bind.bind, EStateM.bind, walked]
  rfl

end Spelling

/-- Wherever `join` stands for the method of the prelude, a call of it always has a text as its
value and changes nothing, whatever its arguments are and however they are written. Lists are
flattened by one level, and joins compose. Without a separator it is as with an empty one. -/
theorem join_composes (separator : Option String) :
    ∃ join : List Value → String, Joins (separator.getD "") join ∧
      ∀ (evaluator : Evaluator) (world : World),
        evaluator.called? world.env "join" = some Prelude.joinMethod →
        ∀ (spelling : Spelling evaluator) (place optionPlace : Position) (args : List Value),
          spelling.join place optionPlace world separator args =
            .ok (.text (join args)) world := by
  refine ⟨Prelude.joined (separator.getD ""), Prelude.joined_joins _, ?_⟩
  intro evaluator world builtin spelling place optionPlace args
  exact spelling.join_eq place optionPlace world builtin separator args

/-- `join --sep "-" "a" (list) (list (list 1) "b")`: the empty list leaves no separator behind, and
the inner list is a part. -/
theorem join_composes_nested :
    Evaluator.called? {} World.initial.env "join" = some Prelude.joinMethod ∧
    (Spelling.stubs : Spelling {}).join ⟨0, 1⟩ ⟨5, 1⟩ .initial (some "-")
        [.text "a", .list [], .list [.list [.int 1], .text "b"]] =
      .ok (.text "a-[1]-b") .initial := by
  have builtin : Evaluator.called? {} World.initial.env "join" = some Prelude.joinMethod := rfl
  refine ⟨builtin, ?_⟩
  obtain ⟨join, joins, ends⟩ := join_composes (some "-")
  have last : join [.text "[1]", .text "b"] = join [.text "[1]"] ++ "-" ++ join [.text "b"] :=
    joins.append [.text "[1]"] [.text "b"] (by decide) (by decide)
  have text := calc join [.text "a", .list [], .list [.list [.int 1], .text "b"]]
    _ = join [.text "a", .list [.list [.int 1], .text "b"]] := joins.empty [.text "a"] _
    _ = join [.text "a", .list [], .text "[1]", .list [.text "b"]] :=
      joins.nested [.text "a"] [] [.int 1] [.text "b"] []
    _ = join [.text "a", .text "[1]", .list [.text "b"]] := joins.empty [.text "a"] _
    _ = join [.text "a", .text "[1]", .text "b"] :=
      joins.inlined [.text "a", .text "[1]"] [.text "b"] [] (by simp [Value.items?])
    _ = join [.text "a"] ++ "-" ++ join [.text "[1]", .text "b"] :=
      joins.append [.text "a"] _ (by decide) (by decide)
    _ = "a-[1]-b" := by
      rw [last, joins.single _ rfl, joins.single _ rfl, joins.single _ rfl]
      rfl
  rw [ends {} .initial builtin, text]

end ChainScript
