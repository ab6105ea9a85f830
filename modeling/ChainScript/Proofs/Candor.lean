import ChainScript.Prelude

/-!
Candid methods: those that go on with values only, that pass on any fault of what they ask for, that
object to nothing but by complaints of their own, and that make no bodies of deferred values. The
methods of the prelude are candid: what they ask for, declare and answer with quotes nothing but
what their arguments, their options and the answers to their questions do.
-/

namespace ChainScript

variable {quoted : Expr → Prop}

/-- Whether all bodies in a value are among these expressions, also in what is captured. -/
inductive Value.Quotes (quoted : Expr → Prop) : Value → Prop where
  | empty : Value.Quotes quoted .empty
  | placeholder : Value.Quotes quoted .placeholder
  | bool (b : Bool) : Value.Quotes quoted (.bool b)
  | int (n : Int64) : Value.Quotes quoted (.int n)
  | float (x : Float) : Value.Quotes quoted (.float x)
  | text (s : String) : Value.Quotes quoted (.text s)
  | host (object : HostObject) : Value.Quotes quoted (.host object)
  | list (items : List Value) (all : ∀ item ∈ items, Value.Quotes quoted item) :
      Value.Quotes quoted (.list items)
  | deferred (body : Expr) (captured : Bindings) (among : quoted body)
      (all : ∀ binding ∈ captured, Value.Quotes quoted binding.2) :
      Value.Quotes quoted (.deferred body captured)

/-- Whether all values that are bound quote these expressions only. -/
def Quoting (quoted : Expr → Prop) (scope : Bindings) : Prop :=
  ∀ binding ∈ scope, binding.2.Quotes quoted

theorem Quoting.nil (quoted : Expr → Prop) : Quoting quoted [] :=
  List.forall_mem_nil _

/-- Whether what a value was taken as quotes these expressions only. -/
def Target.Quotes (quoted : Expr → Prop) : (target : Target) → target.denote → Prop
  | .value, v => v.Quotes quoted
  | .deferred, taken => (Value.deferred taken.body taken.captured).Quotes quoted
  | .list item, items => ∀ a ∈ items, item.Quotes quoted a
  | .bool, _ | .int, _ | .float, _ | .text, _ | .host, _ | .name, _ | .card, _ => True

theorem Quoting.lookup (scope : Bindings) (bound : Quoting quoted scope) (name : String)
    (value : Value) (found : scope.lookup name = some value) : value.Quotes quoted := by
  induction scope with
  | nil => cases found
  | cons binding rest ih =>
      obtain ⟨first, later⟩ := List.forall_mem_cons.mp bound
      rw [List.lookup_cons] at found
      split at found
      · cases found
        exact first
      · exact ih later found

theorem Target.quotes_of_all (quoted : Expr → Prop) (all : ∀ value : Value, value.Quotes quoted)
    (target : Target) (a : target.denote) : target.Quotes quoted a := by
  induction target with
  | value | deferred => exact all _
  | list item ih => exact fun a _ => ih a
  | _ => trivial

/-! Every value quotes some expressions. -/

mutual

theorem Value.quotes_true (value : Value) : value.Quotes fun _ => True := by
  cases value with
  | list items => exact .list items (Value.all_quotes_true items)
  | deferred body captured => exact .deferred body captured trivial (quoting_true captured)
  | empty => exact .empty
  | placeholder => exact .placeholder
  | bool b => exact .bool b
  | int n => exact .int n
  | float x => exact .float x
  | text s => exact .text s
  | host object => exact .host object

theorem Value.all_quotes_true (items : List Value) :
    ∀ item ∈ items, item.Quotes fun _ => True := by
  cases items with
  | nil => exact List.forall_mem_nil _
  | cons item rest =>
      exact List.forall_mem_cons.mpr ⟨item.quotes_true, Value.all_quotes_true rest⟩

theorem quoting_true (scope : List (String × Value)) :
    ∀ binding ∈ scope, binding.2.Quotes fun _ => True := by
  cases scope with
  | nil => exact List.forall_mem_nil _
  | cons binding rest =>
      obtain ⟨name, value⟩ := binding
      exact List.forall_mem_cons.mpr ⟨value.quotes_true, quoting_true rest⟩

end

/-- Routines that go on with values only, and pass on any fault of what they ask for. They object by
complaints of their own, declare variables only where that is allowed, and hand on values which
quote these expressions only, as long as they are answered with such values. -/
inductive Routine.Candid (quoted : Expr → Prop) (declares : Prop) : Routine → Prop where
  | answer (value : Value) (fine : value.Quotes quoted) :
      Routine.Candid quoted declares (.answer value)
  | complain (cause : Complaint) : Routine.Candid quoted declares (.complain cause)
  | option (name : String) (next : Option Value → Routine)
      (goes : ∀ found, (∀ value ∈ found, value.Quotes quoted) →
        Routine.Candid quoted declares (next found)) :
      Routine.Candid quoted declares (.option name next)
  | convert (target : Target) (value : Value) (fine : value.Quotes quoted)
      (next : target.denote → Routine)
      (goes : ∀ a, target.Quotes quoted a → Routine.Candid quoted declares (next a)) :
      Routine.Candid quoted declares (.convert target value (.andThen next))
  | declare (allowed : declares) (name : String) (value : Value) (fine : value.Quotes quoted)
      (next : Unit → Routine) (goes : Routine.Candid quoted declares (next ())) :
      Routine.Candid quoted declares (.declare name value (.andThen next))
  | run (bindings : Option Bindings) (deferred : Deferred)
      (bound : ∀ scope ∈ bindings, Quoting quoted scope)
      (fine : Target.Quotes quoted .deferred deferred) (next : Value → Routine)
      (goes : ∀ value, value.Quotes quoted → Routine.Candid quoted declares (next value)) :
      Routine.Candid quoted declares (.run bindings deferred (.andThen next))

namespace Prelude

open Routine

variable {declares : Prop}

/-! Parts of routines. -/

theorem candid_force (value : Value) (fine : value.Quotes quoted) (next : Value → Routine)
    (goes : ∀ value, value.Quotes quoted → Candid quoted declares (next value)) :
    Candid quoted declares (force value next) := by
  cases value with
  | deferred body captured => exact .run none ⟨body, captured⟩ nofun fine _ goes
  | _ => exact goes _ fine

theorem candid_forceBool (value : Value) (fine : value.Quotes quoted) :
    Candid quoted declares (forceBool value) := by
  apply candid_force value fine
  intro forced fine
  exact .convert .bool _ fine _ fun _ _ => .answer _ (.bool _)

theorem candid_runOn (item : Value) (body : Deferred) (fine : item.Quotes quoted)
    (fine' : Target.Quotes quoted .deferred body) (next : Value → Routine)
    (goes : ∀ value, value.Quotes quoted → Candid quoted declares (next value)) :
    Candid quoted declares (runOn item body next) := by
  apply Candid.run _ body _ fine' _ goes
  rintro _ ⟨⟩ binding member
  obtain rfl := List.mem_singleton.mp member
  exact fine

theorem candid_filterItems (predicate : Deferred)
    (fine : Target.Quotes quoted .deferred predicate) (items kept : List Value)
    (all : ∀ item ∈ items, item.Quotes quoted) (all' : ∀ item ∈ kept, item.Quotes quoted) :
    Candid quoted declares (filterItems predicate items kept) := by
  induction items generalizing kept with
  | nil => exact .answer _ (.list _ fun item member => all' item (List.mem_reverse.mp member))
  | cons item rest ih =>
      obtain ⟨first, later⟩ := List.forall_mem_cons.mp all
      apply candid_runOn item predicate first fine
      intro verdict fine
      apply Candid.convert .bool verdict fine
      intro holds _
      apply ih _ later
      split
      · exact List.forall_mem_cons.mpr ⟨first, all'⟩
      · exact all'

theorem candid_mapItems (body : Deferred) (fine : Target.Quotes quoted .deferred body)
    (items made : List Value) (all : ∀ item ∈ items, item.Quotes quoted)
    (all' : ∀ item ∈ made, item.Quotes quoted) :
    Candid quoted declares (mapItems body items made) := by
  induction items generalizing made with
  | nil => exact .answer _ (.list _ fun item member => all' item (List.mem_reverse.mp member))
  | cons item rest ih =>
      obtain ⟨first, later⟩ := List.forall_mem_cons.mp all
      apply candid_runOn item body first fine
      intro result fine
      exact ih _ later (List.forall_mem_cons.mpr ⟨fine, all'⟩)

theorem candid_operand (value : Value) (fine : value.Quotes quoted) (next : Operand → Routine)
    (goes : ∀ taken, Candid quoted declares (next taken)) :
    Candid quoted declares (operand value next) := by
  cases value with
  | int n => exact goes _
  | _ => exact .convert .float _ fine _ fun _ _ => goes _

theorem quotes_compute (operation : Operation) (left right : Operand) (value : Value)
    (computed : compute operation left right = .ok value) : value.Quotes quoted := by
  unfold compute at computed
  split at computed
  · split at computed
    · cases computed
    · split at computed
      · cases computed
        exact .int _
      · cases computed
  · dsimp only at computed
    split at computed
    · cases computed
    · cases computed
      exact .float _

theorem candid_order (left right : Value) (fine : left.Quotes quoted) (fine' : right.Quotes quoted)
    (next : Option Ordering → Routine) (goes : ∀ found, Candid quoted declares (next found)) :
    Candid quoted declares (order left right next) := by
  unfold order
  split
  · exact goes _
  · exact goes _
  · exact candid_operand _ fine _ fun _ => candid_operand _ fine' _ fun _ => goes _

/-! Bodies of methods. -/

section

variable (params rest : List Value) (all : ∀ value ∈ params, value.Quotes quoted)

include all

theorem candid_setBody : Candid quoted True (setBody params rest) := by
  unfold setBody
  split
  · next target value =>
      apply Candid.convert .name target (all target (by simp))
      intro name _
      exact .declare trivial _ value (all value (by simp)) _ (.answer _ .empty)
  · exact .complain _

theorem candid_ifBody : Candid quoted declares (ifBody params rest) := by
  unfold ifBody
  split
  · next condition yes no =>
      apply Candid.convert .bool condition (all condition (by simp))
      intro holds _
      have branch (chosen : Value) (fine : chosen.Quotes quoted) : Candid quoted declares
          (if chosen.isPlaceholder then answer .empty else force chosen answer) := by
        split
        · exact .answer _ .empty
        · exact candid_force chosen fine _ .answer
      apply branch
      split
      · exact all yes (by simp)
      · exact all no (by simp)
  · exact .complain _

theorem candid_runBody : Candid quoted declares (runBody params rest) := by
  unfold runBody
  split
  · next value => exact candid_force value (all value (by simp)) _ .answer
  · exact .complain _

theorem candid_countBody : Candid quoted declares (countBody params rest) := by
  unfold countBody
  split
  · next items =>
      exact .convert (.list .value) items (all items (by simp)) _ fun _ _ => .answer _ (.int _)
  · exact .complain _

theorem candid_filterBody : Candid quoted declares (filterBody params rest) := by
  unfold filterBody
  split
  · next items predicate =>
      apply Candid.convert (.list .value) items (all items (by simp))
      intro items fine
      apply Candid.convert .deferred predicate (all predicate (by simp))
      intro predicate fine'
      exact candid_filterItems predicate fine' items [] fine nofun
  · exact .complain _

theorem candid_mapBody : Candid quoted declares (mapBody params rest) := by
  unfold mapBody
  split
  · next items body =>
      apply Candid.convert (.list .value) items (all items (by simp))
      intro items fine
      apply Candid.convert .deferred body (all body (by simp))
      intro body fine'
      exact candid_mapItems body fine' items [] fine nofun
  · exact .complain _

theorem candid_notBody : Candid quoted declares (notBody params rest) := by
  unfold notBody
  split
  · next value => exact .convert .bool value (all value (by simp)) _ fun _ _ => .answer _ (.bool _)
  · exact .complain _

theorem candid_andBody : Candid quoted declares (andBody params rest) := by
  unfold andBody
  split
  · next left right =>
      apply Candid.convert .bool left (all left (by simp))
      intro holds _
      cases holds with
      | true => exact candid_forceBool right (all right (by simp))
      | false => exact .answer _ (.bool false)
  · exact .complain _

theorem candid_orBody : Candid quoted declares (orBody params rest) := by
  unfold orBody
  split
  · next left right =>
      apply Candid.convert .bool left (all left (by simp))
      intro holds _
      cases holds with
      | true => exact .answer _ (.bool true)
      | false => exact candid_forceBool right (all right (by simp))
  · exact .complain _

theorem candid_arithmeticBody (operation : Operation) :
    Candid quoted declares (arithmeticBody operation params rest) := by
  unfold arithmeticBody
  split
  · next left right =>
      split
      · exact .answer _ (.text _)
      · apply candid_operand left (all left (by simp))
        intro first
        apply candid_operand right (all right (by simp))
        intro second
        cases computed : compute operation first second with
        | ok value => exact .answer _ (quotes_compute operation first second value computed)
        | error cause => exact .complain _
  · exact .complain _

theorem candid_comparisonBody (comparison : Comparison) :
    Candid quoted declares (comparisonBody comparison params rest) := by
  unfold comparisonBody
  split
  · next left right =>
      apply candid_order left right (all left (by simp)) (all right (by simp))
      intro found
      cases found with
      | some order => exact .answer _ (.bool _)
      | none => exact .complain _
  · exact .complain _

end

theorem candid_equalBody (params rest : List Value) :
    Candid quoted declares (equalBody params rest) := by
  unfold equalBody
  split
  · exact .answer _ (.bool _)
  · exact .complain _

theorem candid_unequalBody (params rest : List Value) :
    Candid quoted declares (unequalBody params rest) := by
  unfold unequalBody
  split
  · exact .answer _ (.bool _)
  · exact .complain _

theorem candid_joinBody (params rest : List Value) :
    Candid quoted declares (joinBody params rest) := by
  apply Candid.option
  intro separator fine
  cases separator with
  | none => exact .answer _ (.text _)
  | some separator =>
      exact .convert .text separator (fine separator rfl) _ fun _ _ => .answer _ (.text _)

/-- A method of the prelude that is given values which quote these expressions only hands on no
others. -/
theorem candid_methods (method : Method) (member : method ∈ methods) (params rest : List Value)
    (all : ∀ value ∈ params, value.Quotes quoted) (all' : ∀ value ∈ rest, value.Quotes quoted) :
    Candid quoted (method.name = "set") (method.body params rest) := by
  simp only [methods, List.mem_append] at member
  rcases member with (((bindings | lists) | logic) | arithmetic) | compared
  · simp only [bindingMethods, List.mem_cons, List.not_mem_nil, or_false] at bindings
    rcases bindings with rfl | rfl | rfl
    · simpa using candid_setBody params rest all
    · exact candid_ifBody params rest all
    · exact candid_runBody params rest all
  · simp only [listMethods, List.mem_cons, List.not_mem_nil, or_false] at lists
    rcases lists with rfl | rfl | rfl | rfl | rfl
    · exact .answer _ (.list _ all')
    · exact candid_countBody params rest all
    · exact candid_filterBody params rest all
    · exact candid_mapBody params rest all
    · exact candid_joinBody params rest
  · simp only [logicMethods, List.mem_cons, List.not_mem_nil, or_false] at logic
    rcases logic with rfl | rfl | rfl
    · exact candid_notBody params rest all
    · exact candid_andBody params rest all
    · exact candid_orBody params rest all
  · obtain ⟨operation, _, rfl⟩ := List.mem_map.mp arithmetic
    exact candid_arithmeticBody params rest all operation
  · rcases List.mem_append.mp compared with ordered | equality
    · obtain ⟨comparison, _, rfl⟩ := List.mem_map.mp ordered
      exact candid_comparisonBody params rest all comparison
    · simp only [List.mem_cons, List.not_mem_nil, or_false] at equality
      rcases equality with rfl | rfl
      · exact candid_equalBody params rest
      · exact candid_unequalBody params rest

theorem candid_true (method : Method) (member : method ∈ methods) (params rest : List Value) :
    Candid (fun _ => True) (method.name = "set") (method.body params rest) :=
  candid_methods method member params rest (fun value _ => value.quotes_true)
    fun value _ => value.quotes_true

end Prelude

end ChainScript
