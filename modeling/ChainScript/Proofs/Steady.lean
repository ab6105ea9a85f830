import ChainScript.Prelude
import ChainScript.Proofs.Likeness

/-!
Steady methods: those that ask for alike things and answer alike when their arguments are alike.
All methods and converters of the prelude are steady. A steady method never ends the evaluation,
changes no frames and evaluates nothing but deferred values.
-/

namespace ChainScript

def Target.Alike (likeness : Likeness) : (target : Target) → target.denote → target.denote → Prop
  | .value, v, w => Value.Alike likeness v w
  | .deferred, left, right =>
      Value.Alike likeness (.deferred left.body left.captured) (.deferred right.body right.captured)
  | .list item, items, others => List.Forall₂ (item.Alike likeness) items others
  | .bool, a, b => a = b
  | .int, a, b => a = b
  | .float, a, b => a = b
  | .text, a, b => a = b
  | .host, a, b => a = b
  | .name, a, b => a = b
  | .card, a, b => a = b

-- A routine goes on with values only, so a fault in an answer is its result.
inductive Routine.Alike (likeness : Likeness) : Routine → Routine → Prop where
  | finish (result other : Except Fault Value)
      (results : ResultAlike likeness (Value.Alike likeness) result other) :
      Routine.Alike likeness (.finish result) (.finish other)
  | option (name : String) (next other : Option Value → Routine)
      (goes : ∀ v w, Option.Rel (Value.Alike likeness) v w →
        Routine.Alike likeness (next v) (other w)) :
      Routine.Alike likeness (.option name next) (.option name other)
  | convert (target : Target) (v w : Value) (values : v.Alike likeness w)
      (next other : target.denote → Routine)
      (goes : ∀ a b, target.Alike likeness a b → Routine.Alike likeness (next a) (other b)) :
      Routine.Alike likeness (.convert target v (.andThen next))
        (.convert target w (.andThen other))
  | declare (name : String) (v w : Value) (values : v.Alike likeness w)
      (next other : Unit → Routine) (goes : Routine.Alike likeness (next ()) (other ())) :
      Routine.Alike likeness (.declare name v (.andThen next)) (.declare name w (.andThen other))
  | run (scope outer : Option Bindings) (left right : Deferred)
      (scopes : Option.Rel (BindingsAlike likeness) scope outer)
      (alike : Target.Alike likeness .deferred left right) (next other : Value → Routine)
      (goes : ∀ v w, v.Alike likeness w → Routine.Alike likeness (next v) (other w)) :
      Routine.Alike likeness (.run scope left (.andThen next)) (.run outer right (.andThen other))

def Method.Steady (likeness : Likeness) (method : Method) : Prop :=
  ∀ params others rest more, params.length = method.arity →
    List.Forall₂ (Value.Alike likeness) params others →
    List.Forall₂ (Value.Alike likeness) rest more →
    Routine.Alike likeness (method.body params rest) (method.body others more)

def Converter.Steady (likeness : Likeness) (converter : Converter) : Prop :=
  ∀ v w, v.Alike likeness w →
    Option.Rel (converter.target.Alike likeness) (converter.apply v) (converter.apply w)

section

variable {likeness : Likeness}

/-! Taking values as what they are. -/

theorem allSome_alike {α β : Type} (alike : α → α → Prop) (images : β → β → Prop)
    (f g : α → Option β) (maps : ∀ a b, alike a b → Option.Rel images (f a) (g b))
    (items others : List α) (pairs : List.Forall₂ alike items others) :
    Option.Rel (List.Forall₂ images) (allSome f items) (allSome g others) := by
  induction pairs with
  | nil => exact .some .nil
  | @cons a b rest more first later ih =>
      have here := maps a b first
      simp only [allSome]
      generalize f a = image at here ⊢
      generalize g b = other at here ⊢
      cases here with
      | none => exact .none
      | some same => exact rel_map ih _ _ fun _ _ others => .cons same others

theorem Target.check_alike (target : Target) (v w : Value) (alike : v.Alike likeness w) :
    Option.Rel (target.Alike likeness) (target.check v) (target.check w) := by
  induction target generalizing v w with
  | value => exact .some alike
  | list item ih =>
      cases alike with
      | list items others alike =>
          exact allSome_alike _ _ item.check item.check (fun a b pair => ih a b pair) _ _ alike
      | _ => exact .none
  | deferred =>
      cases alike with
      | deferred body other scope outer bodies agree captured =>
          exact .some (.deferred body other scope outer bodies agree captured)
      | _ => exact .none
  | name =>
      cases alike with
      | deferred body other scope outer bodies agree captured =>
          simp only [Target.check, Value.name?, body.name?_alike other bodies]
          cases other.name? with
          | none => exact .none
          | some name => exact .some rfl
      | _ => exact .none
  | card =>
      cases alike with
      | host object =>
          obtain ⟨identity, object⟩ := object
          cases object with
          | card name cost => exact .some rfl
          | pile size => exact .none
      | _ => exact .none
  | _ =>
      cases alike <;> first
        | exact .none
        | exact .some rfl

/-! Parts of routines. -/

namespace Routine

theorem answer_alike (v w : Value) (values : v.Alike likeness w) :
    Alike likeness (answer v) (answer w) :=
  .finish _ _ (.ok v w values)

theorem complain_alike (cause : Complaint) : Alike likeness (complain cause) (complain cause) :=
  .finish _ _ (.error _ _ (.complaint cause cause (.same cause)))

theorem convert_plain_alike (target : Target)
    (plain : ∀ a b, target.Alike likeness a b → a = b) (v w : Value)
    (values : v.Alike likeness w) (next other : target.denote → Routine)
    (goes : ∀ a, Alike likeness (next a) (other a)) :
    Alike likeness (.convert target v (.andThen next)) (.convert target w (.andThen other)) := by
  apply Alike.convert target v w values
  intro a b same
  obtain rfl := plain a b same
  exact goes a

theorem force_alike (v w : Value) (values : v.Alike likeness w) (next other : Value → Routine)
    (goes : ∀ v w, v.Alike likeness w → Alike likeness (next v) (other w)) :
    Alike likeness (force v next) (force w other) := by
  cases values with
  | deferred body body' scope outer bodies agree captured =>
      exact .run none none ⟨body, scope⟩ ⟨body', outer⟩ .none
        (.deferred body body' scope outer bodies agree captured) next other goes
  | empty => exact goes _ _ .empty
  | placeholder => exact goes _ _ .placeholder
  | bool b => exact goes _ _ (.bool b)
  | int n => exact goes _ _ (.int n)
  | float x => exact goes _ _ (.float x)
  | text s => exact goes _ _ (.text s)
  | host object => exact goes _ _ (.host object)
  | list items others alike => exact goes _ _ (.list items others alike)

end Routine

/-! Methods by their number of arguments. -/

theorem steady_none (name : String) (takesRest : Bool) (body : List Value → List Value → Routine)
    (alike : ∀ rest more, List.Forall₂ (Value.Alike likeness) rest more →
      Routine.Alike likeness (body [] rest) (body [] more)) :
    Method.Steady likeness ⟨name, 0, takesRest, body⟩ := by
  intro params others rest more length same rests
  cases same with
  | nil => exact alike rest more rests
  | cons first later => cases length

theorem steady_one (name : String) (takesRest : Bool) (body : List Value → List Value → Routine)
    (alike : ∀ a a' rest more, a.Alike likeness a' →
      Routine.Alike likeness (body [a] rest) (body [a'] more)) :
    Method.Steady likeness ⟨name, 1, takesRest, body⟩ := by
  intro params others rest more length same rests
  cases same with
  | nil => cases length
  | cons first later =>
      cases later with
      | nil => exact alike _ _ rest more first
      | cons second later => cases length

theorem steady_two (name : String) (takesRest : Bool) (body : List Value → List Value → Routine)
    (alike : ∀ a b a' b' rest more, a.Alike likeness a' → b.Alike likeness b' →
      Routine.Alike likeness (body [a, b] rest) (body [a', b'] more)) :
    Method.Steady likeness ⟨name, 2, takesRest, body⟩ := by
  intro params others rest more length same rests
  cases same with
  | nil => cases length
  | cons first later =>
      cases later with
      | nil => cases length
      | cons second later =>
          cases later with
          | nil => exact alike _ _ _ _ rest more first second
          | cons third later => cases length

theorem steady_three (name : String) (takesRest : Bool)
    (body : List Value → List Value → Routine)
    (alike : ∀ a b c a' b' c' rest more, a.Alike likeness a' → b.Alike likeness b' →
      c.Alike likeness c' → Routine.Alike likeness (body [a, b, c] rest) (body [a', b', c'] more)) :
    Method.Steady likeness ⟨name, 3, takesRest, body⟩ := by
  intro params others rest more length same rests
  cases same with
  | nil => cases length
  | cons first later =>
      cases later with
      | nil => cases length
      | cons second later =>
          cases later with
          | nil => cases length
          | cons third later =>
              cases later with
              | nil => exact alike _ _ _ _ _ _ rest more first second third
              | cons fourth later => cases length

namespace Prelude

open Routine

/-! Bindings and logic. -/

theorem branch_alike (v w : Value) (values : v.Alike likeness w) :
    Alike likeness (if v.isPlaceholder then answer .empty else force v answer)
      (if w.isPlaceholder then answer .empty else force w answer) := by
  rw [v.isPlaceholder_alike w values]
  split
  · exact answer_alike _ _ .empty
  · exact force_alike v w values _ _ answer_alike

theorem steady_bindingMethods (method : Method) (member : method ∈ bindingMethods) :
    method.Steady likeness := by
  simp only [bindingMethods, List.mem_cons, List.not_mem_nil, or_false] at member
  rcases member with rfl | rfl | rfl
  · apply steady_two
    intro target value target' value' _ _ targets values
    apply convert_plain_alike .name (fun _ _ same => same) target target' targets
    intro name
    exact .declare name.text value value' values _ _ (answer_alike _ _ .empty)
  · apply steady_three
    intro condition yes no condition' yes' no' _ _ conditions yeses noes
    apply convert_plain_alike .bool (fun _ _ same => same) condition condition' conditions
    intro holds
    cases holds with
    | true => exact branch_alike yes yes' yeses
    | false => exact branch_alike no no' noes
  · exact steady_one _ _ _ fun value value' _ _ values =>
      force_alike value value' values _ _ answer_alike

theorem forceBool_alike (v w : Value) (values : v.Alike likeness w) :
    Alike likeness (forceBool v) (forceBool w) := by
  apply force_alike v w values
  intro v w forced
  apply convert_plain_alike .bool (fun _ _ same => same) v w forced
  intro holds
  exact answer_alike _ _ (.bool _)

theorem steady_logicMethods (method : Method) (member : method ∈ logicMethods) :
    method.Steady likeness := by
  simp only [logicMethods, List.mem_cons, List.not_mem_nil, or_false] at member
  rcases member with rfl | rfl | rfl
  · apply steady_one
    intro value value' _ _ values
    apply convert_plain_alike .bool (fun _ _ same => same) value value' values
    intro holds
    exact answer_alike _ _ (.bool _)
  · apply steady_two
    intro left right left' right' _ _ lefts rights
    apply convert_plain_alike .bool (fun _ _ same => same) left left' lefts
    intro holds
    cases holds with
    | true => exact forceBool_alike right right' rights
    | false => exact answer_alike _ _ (.bool false)
  · apply steady_two
    intro left right left' right' _ _ lefts rights
    apply convert_plain_alike .bool (fun _ _ same => same) left left' lefts
    intro holds
    cases holds with
    | true => exact answer_alike _ _ (.bool true)
    | false => exact forceBool_alike right right' rights

/-! Lists. -/

theorem runOn_alike (item item' : Value) (items : item.Alike likeness item')
    (body body' : Deferred) (bodies : Target.Alike likeness .deferred body body')
    (next other : Value → Routine)
    (goes : ∀ v w, v.Alike likeness w → Alike likeness (next v) (other w)) :
    Alike likeness (runOn item body next) (runOn item' body' other) := by
  have scopes : BindingsAlike likeness [(itemName, item)] [(itemName, item')] :=
    .cons (.mk _ _ _ items) .nil
  exact .run _ _ body body' (.some scopes) bodies next other goes

-- By induction on the items that are left; those kept so far are alike in both runs.
theorem filterItems_alike (predicate predicate' : Deferred)
    (predicates : Target.Alike likeness .deferred predicate predicate')
    (items items' kept kept' : List Value)
    (alike : List.Forall₂ (Value.Alike likeness) items items')
    (keeps : List.Forall₂ (Value.Alike likeness) kept kept') :
    Alike likeness (filterItems predicate items kept) (filterItems predicate' items' kept') := by
  induction alike generalizing kept kept' with
  | nil => exact answer_alike _ _ (.list _ _ (List.forall₂_reverse_iff.mpr keeps))
  | cons first rest ih =>
      apply runOn_alike _ _ first _ _ predicates
      intro verdict verdict' verdicts
      apply convert_plain_alike .bool (fun _ _ same => same) verdict verdict' verdicts
      intro holds
      cases holds with
      | true => exact ih _ _ (.cons first keeps)
      | false => exact ih _ _ keeps

theorem mapItems_alike (body body' : Deferred)
    (bodies : Target.Alike likeness .deferred body body') (items items' made made' : List Value)
    (alike : List.Forall₂ (Value.Alike likeness) items items')
    (makes : List.Forall₂ (Value.Alike likeness) made made') :
    Alike likeness (mapItems body items made) (mapItems body' items' made') := by
  induction alike generalizing made made' with
  | nil => exact answer_alike _ _ (.list _ _ (List.forall₂_reverse_iff.mpr makes))
  | cons first rest ih =>
      apply runOn_alike _ _ first _ _ bodies
      intro result result' results
      exact ih _ _ (.cons results makes)

theorem parts_alike (v w : Value) (values : v.Alike likeness w) :
    List.Forall₂ (Value.Alike likeness) (parts v) (parts w) := by
  cases values with
  | list items others alike => exact alike
  | empty => exact .cons .empty .nil
  | placeholder => exact .cons .placeholder .nil
  | bool b => exact .cons (.bool b) .nil
  | int n => exact .cons (.int n) .nil
  | float x => exact .cons (.float x) .nil
  | text s => exact .cons (.text s) .nil
  | host object => exact .cons (.host object) .nil
  | deferred body other scope outer bodies agree captured =>
      exact .cons (.deferred body other scope outer bodies agree captured) .nil

theorem shownAll_map (items others : List Value)
    (alike : List.Forall₂ (Value.Alike likeness) items others) :
    items.map Value.shown = others.map Value.shown := by
  induction alike with
  | nil => rfl
  | cons first rest ih => exact congrArg₂ List.cons (Value.shown_alike _ _ first) ih

theorem shownParts_alike (args others : List Value)
    (alike : List.Forall₂ (Value.Alike likeness) args others) :
    (args.flatMap parts).map Value.shown = (others.flatMap parts).map Value.shown := by
  induction alike with
  | nil => rfl
  | cons first rest ih =>
      have here := shownAll_map _ _ (parts_alike _ _ first)
      simp only [List.flatMap_cons, List.map_append, here, ih]

theorem steady_listMethods (method : Method) (member : method ∈ listMethods) :
    method.Steady likeness := by
  simp only [listMethods, List.mem_cons, List.not_mem_nil, or_false] at member
  rcases member with rfl | rfl | rfl | rfl | rfl
  · exact steady_none _ _ _ fun rest more rests => answer_alike _ _ (.list rest more rests)
  · apply steady_one
    intro items items' _ _ lists
    apply Alike.convert (.list .value) items items' lists
    intro found found' all
    have length : found.length = found'.length := List.Forall₂.length_eq all
    rw [length]
    exact answer_alike _ _ (.int _)
  · apply steady_two
    intro items predicate items' predicate' _ _ lists predicates
    apply Alike.convert (.list .value) items items' lists
    intro found found' all
    apply Alike.convert .deferred predicate predicate' predicates
    intro body body' bodies
    exact filterItems_alike body body' bodies found found' [] [] all .nil
  · apply steady_two
    intro items body items' body' _ _ lists bodies
    apply Alike.convert (.list .value) items items' lists
    intro found found' all
    apply Alike.convert .deferred body body' bodies
    intro body body' bodies
    exact mapItems_alike body body' bodies found found' [] [] all .nil
  · apply steady_none
    intro args others alike
    apply Alike.option "sep"
    intro separator separator' given
    have shown := shownParts_alike args others alike
    -- Either both calls have a separator or none has.
    cases given with
    | none =>
        simp only [joined, shown]
        exact answer_alike _ _ (.text _)
    | some separators =>
        apply convert_plain_alike .text (fun _ _ same => same) _ _ separators
        intro text
        simp only [joined, shown]
        exact answer_alike _ _ (.text _)

/-! Arithmetic and comparison. -/

theorem operand_alike (v w : Value) (values : v.Alike likeness w) (next other : Operand → Routine)
    (goes : ∀ taken, Alike likeness (next taken) (other taken)) :
    Alike likeness (operand v next) (operand w other) := by
  have float : Alike likeness (expect .float v fun x => next (.float x))
      (expect .float w fun x => other (.float x)) := by
    -- Whatever else an operand is, it is converted.
    apply convert_plain_alike .float (fun _ _ same => same) v w values
    intro x
    exact goes (.float x)
  cases values with
  | int n => exact goes (.int n)
  | _ => exact float

-- What is computed is a number, and so alike to itself whatever the likeness.
theorem compute_self (operation : Operation) (left right : Operand) (value : Value)
    (computed : compute operation left right = .ok value) : value.Alike likeness value := by
  unfold compute at computed
  split at computed
  · split at computed
    · cases computed
    · split at computed
      · cases computed
        exact .int _
      · cases computed
  · dsimp only at computed
    split at computed
    · cases computed
    · cases computed
      exact .float _

theorem isText_alike (v w : Value) (values : v.Alike likeness w) : isText v = isText w := by
  cases values <;> rfl

theorem steady_arithmeticMethods (method : Method) (member : method ∈ arithmeticMethods) :
    method.Steady likeness := by
  obtain ⟨operation, _, rfl⟩ := List.mem_map.mp member
  apply steady_two
  intro left right left' right' _ _ lefts rights
  simp only [arithmeticBody, isText_alike left left' lefts, isText_alike right right' rights,
    left.shown_alike left' lefts, right.shown_alike right' rights]
  split
  · exact answer_alike _ _ (.text _)
  · apply operand_alike left left' lefts
    intro first
    apply operand_alike right right' rights
    intro second
    cases computed : compute operation first second with
    | ok value => exact answer_alike _ _ (compute_self operation first second value computed)
    | error cause => exact complain_alike cause

theorem order_alike (left right left' right' : Value) (lefts : left.Alike likeness left')
    (rights : right.Alike likeness right') (next other : Option Ordering → Routine)
    (goes : ∀ found, Alike likeness (next found) (other found)) :
    Alike likeness (order left right next) (order left' right' other) := by
  have floats : Alike likeness
      (operand left fun a => operand right fun b => next (floatOrder a.toFloat b.toFloat))
      (operand left' fun a => operand right' fun b => other (floatOrder a.toFloat b.toFloat)) := by
    apply operand_alike left left' lefts
    intro first
    apply operand_alike right right' rights
    intro second
    exact goes _
  cases lefts with
  | text s =>
      cases rights with
      | text t => exact goes _
      | _ => exact floats
  | int a =>
      cases rights with
      | int b => exact goes _
      | _ => exact floats
  | _ => exact floats

theorem equal_alike (left right left' right' : Value) (lefts : left.Alike likeness left')
    (rights : right.Alike likeness right') : equal left right = equal left' right' := by
  have same := left.same_alike right left' right' lefts rights
  cases lefts with
  | int n => cases rights <;> rfl
  | float x => cases rights <;> rfl
  | _ => exact same

theorem steady_comparisonMethods (method : Method) (member : method ∈ comparisonMethods) :
    method.Steady likeness := by
  rcases List.mem_append.mp member with ordered | equality
  · obtain ⟨comparison, _, rfl⟩ := List.mem_map.mp ordered
    apply steady_two
    intro left right left' right' _ _ lefts rights
    -- Values without an order are shown in the complaint.
    simp only [comparisonBody, left.shown_alike left' lefts, right.shown_alike right' rights]
    apply order_alike left right left' right' lefts rights
    intro found
    cases found with
    | some order => exact answer_alike _ _ (.bool _)
    | none => exact complain_alike _
  · simp only [List.mem_cons, List.not_mem_nil, or_false] at equality
    rcases equality with rfl | rfl
    · apply steady_two
      intro left right left' right' _ _ lefts rights
      simp only [equalBody, equal_alike left right left' right' lefts rights]
      exact answer_alike _ _ (.bool _)
    · apply steady_two
      intro left right left' right' _ _ lefts rights
      simp only [unequalBody, equal_alike left right left' right' lefts rights]
      exact answer_alike _ _ (.bool _)

/-- All methods of the prelude are steady, whatever the likeness. -/
theorem steady_methods (method : Method) (member : method ∈ methods) :
    method.Steady likeness := by
  simp only [methods, List.mem_append] at member
  rcases member with (((bindings | lists) | logic) | arithmetic) | comparison
  · exact steady_bindingMethods method bindings
  · exact steady_listMethods method lists
  · exact steady_logicMethods method logic
  · exact steady_arithmeticMethods method arithmetic
  · exact steady_comparisonMethods method comparison

theorem steady_converters (converter : Converter) (member : converter ∈ converters) :
    converter.Steady likeness := by
  simp only [converters, List.mem_cons, List.not_mem_nil, or_false] at member
  rcases member with rfl | rfl
  · intro v w values
    cases values with
    | int n => exact .some rfl
    | _ => exact .none
  · intro v w values
    cases values with
    | text s => exact .some rfl
    | _ => exact .none

end Prelude

end

end ChainScript
