import ChainScript.Expr.Equality
import ChainScript.Expr.Printer
import ChainScript.Fault
import Mathlib.Data.List.Forall2

/-!
Likeness of expressions and values, for comparing two runs. Alike expressions may differ in the
places that a likeness relates. Alike deferred values may have captured different transients, as
long as those that the body names are alike, unless a likeness asks for more.
-/

namespace ChainScript

/-- How two runs may differ. Places and depth limits of the one stand for those of the other. -/
structure Likeness where
  place : Position → Position → Prop
  limit : Nat → Nat → Prop
  /-- The names that identifiers can have. Only for these matters what is handed on. -/
  named : String → Prop
  placeDefault : place default default
  placeUnique : ∀ p q p' q', place p q → place p' q' → (p = p' ↔ q = q')
  /-- Whether captured transients are alike one by one, and not just those that a body names. -/
  whole : Prop

def Likeness.samePlaces (limit : Nat → Nat → Prop) (whole : Prop) : Likeness where
  place := Eq
  limit := limit
  named _ := True
  placeDefault := rfl
  placeUnique := by
    rintro p q p' q' rfl rfl
    rfl
  whole := whole

/-- Two runs of these names that differ in their transients only. -/
def Likeness.exact (named : String → Prop) : Likeness :=
  { samePlaces Eq False with named := named }

namespace Expr

mutual

/-- The identifiers in an expression, also those that are quoted. -/
def names : Expr → List String
  | .identifier name _ => [name]
  | .deferred body => body.names
  | .chain terms => namesAll terms
  | .block body => body.names
  | .text _ | .number _ | .option _ _ | .stub _ => []
termination_by structural e => e

def namesAll : List Expr → List String
  | [] => []
  | term :: rest => term.names ++ namesAll rest
termination_by structural terms => terms

end

end Expr

mutual

/-- Whether all identifiers in an expression are among these names, also those that are quoted and
those in values that the host has put into it. -/
def Expr.Within (named : String → Prop) : Expr → Prop
  | .identifier name _ => named name
  | .deferred body => body.Within named
  | .chain terms => Expr.AllWithin named terms
  | .block body => body.Within named
  | .stub value => value.Within named
  | .text _ | .number _ | .option _ _ => True
termination_by structural e => e

def Expr.AllWithin (named : String → Prop) : List Expr → Prop
  | [] => True
  | term :: rest => term.Within named ∧ Expr.AllWithin named rest
termination_by structural terms => terms

/-- Whether all identifiers are among these names that stand in deferred values, or in what these
have captured. -/
def Value.Within (named : String → Prop) : Value → Prop
  | .list items => Value.AllWithin named items
  | .deferred body captured => body.Within named ∧ Value.BoundWithin named captured
  | .empty | .placeholder | .bool _ | .int _ | .float _ | .text _ | .host _ => True
termination_by structural value => value

def Value.AllWithin (named : String → Prop) : List Value → Prop
  | [] => True
  | item :: rest => item.Within named ∧ Value.AllWithin named rest
termination_by structural items => items

def Value.BoundWithin (named : String → Prop) : List (String × Value) → Prop
  | [] => True
  | (_, value) :: rest => value.Within named ∧ Value.BoundWithin named rest
termination_by structural bindings => bindings

end

inductive Bound (alike : Value → Value → Prop) : String × Value → String × Value → Prop where
  | mk (name : String) (v w : Value) (values : alike v w) : Bound alike (name, v) (name, w)

mutual

inductive Expr.Alike (likeness : Likeness) : Expr → Expr → Prop where
  | text (s : String) : Expr.Alike likeness (.text s) (.text s)
  | number (n : Number) : Expr.Alike likeness (.number n) (.number n)
  | identifier (name : String) (p q : Position) (places : likeness.place p q)
      (known : likeness.named name) :
      Expr.Alike likeness (.identifier name p) (.identifier name q)
  | option (name : String) (p q : Position) (places : likeness.place p q) :
      Expr.Alike likeness (.option name p) (.option name q)
  | deferred (body other : Expr) (bodies : Expr.Alike likeness body other) :
      Expr.Alike likeness (.deferred body) (.deferred other)
  | chain (terms others : List Expr) (alike : List.Forall₂ (Expr.Alike likeness) terms others) :
      Expr.Alike likeness (.chain terms) (.chain others)
  | block (body other : Expr) (bodies : Expr.Alike likeness body other) :
      Expr.Alike likeness (.block body) (.block other)
  | stub (value : Value) (self : Value.Alike likeness value value) :
      Expr.Alike likeness (.stub value) (.stub value)

inductive Value.Alike (likeness : Likeness) : Value → Value → Prop where
  | empty : Value.Alike likeness .empty .empty
  | placeholder : Value.Alike likeness .placeholder .placeholder
  | bool (b : Bool) : Value.Alike likeness (.bool b) (.bool b)
  | int (n : Int64) : Value.Alike likeness (.int n) (.int n)
  | float (x : Float) : Value.Alike likeness (.float x) (.float x)
  | text (s : String) : Value.Alike likeness (.text s) (.text s)
  | host (object : HostObject) : Value.Alike likeness (.host object) (.host object)
  | list (items others : List Value) (alike : List.Forall₂ (Value.Alike likeness) items others) :
      Value.Alike likeness (.list items) (.list others)
  | deferred (body other : Expr) (scope outer : Bindings)
      (bodies : Expr.Alike likeness body other)
      (agree : ∀ name ∈ body.names,
        Option.Rel (Value.Alike likeness) (scope.lookup name) (outer.lookup name))
      (captured : likeness.whole → List.Forall₂ (Bound (Value.Alike likeness)) scope outer) :
      Value.Alike likeness (.deferred body scope) (.deferred other outer)

end

/-- Whether two lists of transients have alike values for each of these names. -/
def Agree (likeness : Likeness) (names : List String) (scope outer : Bindings) : Prop :=
  ∀ name ∈ names, Option.Rel (Value.Alike likeness) (scope.lookup name) (outer.lookup name)

def BindingsAlike (likeness : Likeness) : Bindings → Bindings → Prop :=
  List.Forall₂ (Bound (Value.Alike likeness))

inductive Complaint.Alike (likeness : Likeness) : Complaint → Complaint → Prop where
  | same (cause : Complaint) : Complaint.Alike likeness cause cause
  | tooDeep (limit other : Nat) (limits : likeness.limit limit other) :
      Complaint.Alike likeness (.tooDeep limit) (.tooDeep other)

inductive Fault.Alike (likeness : Likeness) : Fault → Fault → Prop where
  | malformed (cause : Malformed) (p q : Position) (places : likeness.place p q) :
      Fault.Alike likeness (.malformed cause p) (.malformed cause q)
  | unresolved (name : String) (p q : Position) (places : likeness.place p q) :
      Fault.Alike likeness (.unresolved name p) (.unresolved name q)
  | arity (method : String) (expected actual : Nat) (p q : Position)
      (places : likeness.place p q) :
      Fault.Alike likeness (.arity method expected actual p) (.arity method expected actual q)
  | missingOptionValue (name : String) (p q : Position) (places : likeness.place p q) :
      Fault.Alike likeness (.missingOptionValue name p) (.missingOptionValue name q)
  | duplicateOption (name : String) (p q : Position) (places : likeness.place p q) :
      Fault.Alike likeness (.duplicateOption name p) (.duplicateOption name q)
  | unusedOptions (method : String) (names : List String) (p q : Position)
      (places : likeness.place p q) :
      Fault.Alike likeness (.unusedOptions method names p) (.unusedOptions method names q)
  | danglingOptions (names : List String) (p q : Position) (places : likeness.place p q) :
      Fault.Alike likeness (.danglingOptions names p) (.danglingOptions names q)
  | unconsumed (leftover : Nat) (p q : Position) (places : likeness.place p q) :
      Fault.Alike likeness (.unconsumed leftover p) (.unconsumed leftover q)
  | inMethod (method : String) (cause other : Complaint) (p q : Position)
      (causes : cause.Alike likeness other) (places : likeness.place p q) :
      Fault.Alike likeness (.inMethod method cause p) (.inMethod method other q)
  | complaint (cause other : Complaint) (causes : cause.Alike likeness other) :
      Fault.Alike likeness (.complaint cause) (.complaint other)
  | canceled : Fault.Alike likeness .canceled .canceled

/-- Results that are both faults or both not, and alike in either case. -/
inductive ResultAlike {α β : Type} (likeness : Likeness) (alike : α → β → Prop) :
    Except Fault α → Except Fault β → Prop where
  | ok (a : α) (b : β) (results : alike a b) : ResultAlike likeness alike (.ok a) (.ok b)
  | error (f g : Fault) (faults : f.Alike likeness g) :
      ResultAlike likeness alike (.error f) (.error g)

section

variable {named : String → Prop}

mutual

theorem Expr.within_of_all (all : ∀ name, named name) (e : Expr) : e.Within named := by
  cases e with
  | identifier name place => exact all name
  | deferred body => exact body.within_of_all all
  | chain terms => exact Expr.allWithin_of_all all terms
  | block body => exact body.within_of_all all
  | stub value => exact value.within_of_all all
  | _ => trivial

theorem Expr.allWithin_of_all (all : ∀ name, named name) (terms : List Expr) :
    Expr.AllWithin named terms := by
  cases terms with
  | nil => trivial
  | cons term rest => exact ⟨term.within_of_all all, Expr.allWithin_of_all all rest⟩

theorem Value.within_of_all (all : ∀ name, named name) (v : Value) : v.Within named := by
  cases v with
  | list items => exact Value.allWithin_of_all all items
  | deferred body captured =>
      exact ⟨body.within_of_all all, Value.boundWithin_of_all all captured⟩
  | _ => trivial

theorem Value.allWithin_of_all (all : ∀ name, named name) (items : List Value) :
    Value.AllWithin named items := by
  cases items with
  | nil => trivial
  | cons item rest => exact ⟨item.within_of_all all, Value.allWithin_of_all all rest⟩

theorem Value.boundWithin_of_all (all : ∀ name, named name) (scope : Bindings) :
    Value.BoundWithin named scope := by
  cases scope with
  | nil => trivial
  | cons binding rest =>
      exact ⟨binding.2.within_of_all all, Value.boundWithin_of_all all rest⟩

end

end

theorem rel_map {α β γ δ : Type} {pairs : α → β → Prop} {images : γ → δ → Prop}
    {a : Option α} {b : Option β} (alike : Option.Rel pairs a b) (f : α → γ) (g : β → δ)
    (maps : ∀ x y, pairs x y → images (f x) (g y)) :
    Option.Rel images (a.map f) (b.map g) := by
  cases alike with
  | none => exact .none
  | some pair => exact .some (maps _ _ pair)

theorem map_eq_of_forall₂ {α γ : Type} {pairs : α → α → Prop} (f : α → γ)
    (maps : ∀ a b, pairs a b → f a = f b) (left right : List α)
    (alike : List.Forall₂ pairs left right) : left.map f = right.map f := by
  induction alike with
  | nil => rfl
  | cons first rest ih => rw [List.map_cons, List.map_cons, maps _ _ first, ih]

section

variable {likeness : Likeness}

/-! What alike expressions and values have in common. -/

mutual

theorem Expr.print_alike (e other : Expr) (alike : e.Alike likeness other) :
    e.print = other.print := by
  cases alike with
  | text s => rfl
  | number n => rfl
  | identifier name p q places known => rfl
  | option name p q places => rfl
  | stub value self => rfl
  | deferred body other bodies => simp only [Expr.print, body.print_alike other bodies]
  | block body other bodies => simp only [Expr.print, body.print_alike other bodies]
  | chain terms others alike => simp only [Expr.print, printAll_alike terms others alike]

theorem printAll_alike (terms others : List Expr)
    (alike : List.Forall₂ (Expr.Alike likeness) terms others) :
    printAll terms = printAll others := by
  cases alike with
  | nil => rfl
  | cons first rest =>
      simp only [printAll, Expr.print_alike _ _ first, printAll_alike _ _ rest]

end

mutual

theorem Value.shown_alike (v w : Value) (alike : v.Alike likeness w) : v.shown = w.shown := by
  cases alike with
  | empty => rfl
  | placeholder => rfl
  | bool b => rfl
  | int n => rfl
  | float x => rfl
  | text s => rfl
  | host object => rfl
  | list items others alike => simp only [Value.shown, shownAll_alike items others alike]
  | deferred body other scope outer bodies agree captured =>
      simp only [Value.shown, body.print_alike other bodies]

theorem shownAll_alike (items others : List Value)
    (alike : List.Forall₂ (Value.Alike likeness) items others) :
    shownAll items = shownAll others := by
  cases alike with
  | nil => rfl
  | cons first rest =>
      simp only [shownAll, Value.shown_alike _ _ first, shownAll_alike _ _ rest]

end

mutual

theorem Expr.named_of_alike (e other : Expr) (alike : e.Alike likeness other) (name : String)
    (member : name ∈ e.names) : likeness.named name := by
  cases alike with
  | identifier name p q places known =>
      obtain rfl := List.mem_singleton.mp member
      exact known
  | deferred body other bodies => exact body.named_of_alike other bodies name member
  | block body other bodies => exact body.named_of_alike other bodies name member
  | chain terms others alike => exact Expr.all_named_of_alike terms others alike name member
  | _ => cases member

theorem Expr.all_named_of_alike (terms others : List Expr)
    (alike : List.Forall₂ (Expr.Alike likeness) terms others) (name : String)
    (member : name ∈ Expr.namesAll terms) : likeness.named name := by
  cases alike with
  | nil => cases member
  | cons first rest =>
      rcases List.mem_append.mp member with here | later
      · exact Expr.named_of_alike _ _ first name here
      · exact Expr.all_named_of_alike _ _ rest name later

end

theorem Value.typeName_alike (v w : Value) (alike : v.Alike likeness w) :
    v.typeName = w.typeName := by
  cases alike <;> rfl

theorem Value.isPlaceholder_alike (v w : Value) (alike : v.Alike likeness w) :
    v.isPlaceholder = w.isPlaceholder := by
  cases alike <;> rfl

theorem Expr.name?_alike (e other : Expr) (alike : e.Alike likeness other) :
    e.name? = other.name? := by
  cases alike <;> rfl

mutual

theorem Expr.position?_alike (e other : Expr) (alike : e.Alike likeness other) :
    Option.Rel likeness.place e.position? other.position? := by
  cases alike with
  | text s => exact .none
  | number n => exact .none
  | stub value self => exact .none
  | identifier name p q places known => exact .some places
  | option name p q places => exact .some places
  | deferred body other bodies => exact body.position?_alike other bodies
  | block body other bodies => exact body.position?_alike other bodies
  | chain terms others alike => exact Expr.firstPosition?_alike terms others alike

theorem Expr.firstPosition?_alike (terms others : List Expr)
    (alike : List.Forall₂ (Expr.Alike likeness) terms others) :
    Option.Rel likeness.place (Expr.firstPosition? terms) (Expr.firstPosition? others) := by
  cases alike with
  | nil => exact .none
  | @cons term other rest more first later =>
      have here := Expr.position?_alike _ _ first
      simp only [Expr.firstPosition?]
      generalize term.position? = found at here ⊢
      generalize other.position? = found' at here ⊢
      cases here with
      | none => exact Expr.firstPosition?_alike _ _ later
      | some places => exact .some places

end

-- Equality looks at places, so it needs that places are told apart alike.
theorem Likeness.beq_places (likeness : Likeness) (p q p' q' : Position)
    (places : likeness.place p q) (others : likeness.place p' q') : (p == p') = (q == q') := by
  rw [Bool.eq_iff_iff, beq_iff_eq, beq_iff_eq]
  exact likeness.placeUnique p q p' q' places others

mutual

theorem Expr.same_alike (e f e' f' : Expr) (left : e.Alike likeness e')
    (right : f.Alike likeness f') : e.same f = e'.same f' := by
  cases left with
  | identifier name p q places known =>
      cases right with
      | identifier name' p' q' places' known' =>
          simp only [Expr.same, likeness.beq_places p q p' q' places places']
      | _ => rfl
  | option name p q places =>
      cases right with
      | option name' p' q' places' =>
          simp only [Expr.same, likeness.beq_places p q p' q' places places']
      | _ => rfl
  | deferred body other bodies =>
      cases right with
      | deferred body' other' bodies' => exact body.same_alike body' other other' bodies bodies'
      | _ => rfl
  | block body other bodies =>
      cases right with
      | block body' other' bodies' => exact body.same_alike body' other other' bodies bodies'
      | _ => rfl
  | chain terms others alike =>
      cases right with
      | chain terms' others' alike' =>
          exact sameTerms_alike terms terms' others others' alike alike'
      | _ => rfl
  | _ => cases right <;> rfl

theorem sameTerms_alike (ts us ts' us' : List Expr)
    (left : List.Forall₂ (Expr.Alike likeness) ts ts')
    (right : List.Forall₂ (Expr.Alike likeness) us us') :
    sameTerms ts us = sameTerms ts' us' := by
  cases left with
  | nil => cases right <;> rfl
  | cons first rest =>
      cases right with
      | nil => rfl
      | cons other others =>
          simp only [sameTerms, Expr.same_alike _ _ _ _ first other,
            sameTerms_alike _ _ _ _ rest others]

end

mutual

theorem Value.same_alike (v w v' w' : Value) (left : v.Alike likeness v')
    (right : w.Alike likeness w') : v.same w = v'.same w' := by
  cases left with
  | list items others alike =>
      cases right with
      | list items' others' alike' =>
          exact sameItems_alike items items' others others' alike alike'
      | _ => rfl
  | deferred body other scope outer bodies agree captured =>
      cases right with
      | deferred body' other' scope' outer' bodies' agree' captured' =>
          exact body.same_alike body' other other' bodies bodies'
      | _ => rfl
  | _ => cases right <;> rfl

theorem sameItems_alike (vs ws vs' ws' : List Value)
    (left : List.Forall₂ (Value.Alike likeness) vs vs')
    (right : List.Forall₂ (Value.Alike likeness) ws ws') :
    sameItems vs ws = sameItems vs' ws' := by
  cases left with
  | nil => cases right <;> rfl
  | cons first rest =>
      cases right with
      | nil => rfl
      | cons other others =>
          simp only [sameItems, Value.same_alike _ _ _ _ first other,
            sameItems_alike _ _ _ _ rest others]

end

/-! Transients. -/

theorem Agree.append (names : List String) (scope outer scope' outer' : Bindings)
    (agree : Agree likeness names scope outer) (others : Agree likeness names scope' outer') :
    Agree likeness names (scope ++ scope') (outer ++ outer') := by
  intro name member
  have first := agree name member
  rw [List.lookup_append, List.lookup_append]
  generalize scope.lookup name = found at first ⊢
  generalize outer.lookup name = found' at first ⊢
  cases first with
  | none => exact others name member
  | some values => exact .some values

theorem BindingsAlike.lookup (scope outer : Bindings) (alike : BindingsAlike likeness scope outer)
    (name : String) :
    Option.Rel (Value.Alike likeness) (scope.lookup name) (outer.lookup name) := by
  induction alike with
  | nil => exact .none
  | @cons left right rest others same more ih =>
      obtain ⟨key, v, w, values⟩ := same
      by_cases here : name = key
      · simp only [List.lookup_cons, here, beq_self_eq_true]
        exact .some values
      · simp only [List.lookup_cons, beq_eq_false_iff_ne.mpr here]
        exact ih

/-! Expressions and values of the same names are alike to themselves. -/

mutual

theorem Expr.alike_self (places : ∀ p, likeness.place p p) (e : Expr)
    (within : e.Within likeness.named) : e.Alike likeness e := by
  cases e with
  | text s => exact .text s
  | number n => exact .number n
  | identifier name place => exact .identifier name place place (places place) within
  | option name place => exact .option name place place (places place)
  | deferred body => exact .deferred body body (body.alike_self places within)
  | block body => exact .block body body (body.alike_self places within)
  | chain terms => exact .chain terms terms (Expr.all_alike_self places terms within)
  | stub value => exact .stub value (value.alike_self places within)

theorem Expr.all_alike_self (places : ∀ p, likeness.place p p) (terms : List Expr)
    (within : Expr.AllWithin likeness.named terms) :
    List.Forall₂ (Expr.Alike likeness) terms terms := by
  cases terms with
  | nil => exact .nil
  | cons term rest =>
      exact .cons (term.alike_self places within.1) (Expr.all_alike_self places rest within.2)

theorem Value.alike_self (places : ∀ p, likeness.place p p) (v : Value)
    (within : v.Within likeness.named) : v.Alike likeness v := by
  cases v with
  | empty => exact .empty
  | placeholder => exact .placeholder
  | bool b => exact .bool b
  | int n => exact .int n
  | float x => exact .float x
  | text s => exact .text s
  | host object => exact .host object
  | list items => exact .list items items (Value.all_alike_self places items within)
  | deferred body scope =>
      have same := BindingsAlike.self places scope within.2
      apply Value.Alike.deferred body body scope scope (body.alike_self places within.1)
      · exact fun name _ => BindingsAlike.lookup scope scope same name
      · exact fun _ => same

theorem Value.all_alike_self (places : ∀ p, likeness.place p p) (items : List Value)
    (within : Value.AllWithin likeness.named items) :
    List.Forall₂ (Value.Alike likeness) items items := by
  cases items with
  | nil => exact .nil
  | cons item rest =>
      exact .cons (item.alike_self places within.1) (Value.all_alike_self places rest within.2)

theorem BindingsAlike.self (places : ∀ p, likeness.place p p) (scope : Bindings)
    (within : Value.BoundWithin likeness.named scope) : BindingsAlike likeness scope scope := by
  cases scope with
  | nil => exact .nil
  | cons binding rest =>
      obtain ⟨name, v⟩ := binding
      exact .cons (.mk name v v (v.alike_self places within.1))
        (BindingsAlike.self places rest within.2)

end

section

variable (places : ∀ p, likeness.place p p) (all : ∀ name, likeness.named name)

include places all

theorem Expr.alike_refl (e : Expr) : e.Alike likeness e :=
  e.alike_self places (Expr.within_of_all all e)

theorem BindingsAlike.refl (scope : Bindings) : BindingsAlike likeness scope scope :=
  BindingsAlike.self places scope (Value.boundWithin_of_all all scope)

end

end

end ChainScript
