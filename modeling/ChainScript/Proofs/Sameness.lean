import ChainScript.Expr.Equality
import ChainScript.Expr.Printer
import ChainScript.Proofs.FloatOrder

/-!
When values are the same. They are if no NaN is in them and they have one normal form, in which all
zeros are positive, nothing is captured, and a host object is known by its identity.
-/

namespace ChainScript

/-- Parts of a value that can be the same without being one and the same. -/
inductive Atom where
  | float (x : Float)
  | host (object : HostObject)

def Number.atoms : Number → List Atom
  | .int _ => []
  | .decimal x => [.float x]

mutual

def Expr.atoms : Expr → List Atom
  | .number n => n.atoms
  | .deferred body => body.atoms
  | .chain terms => atomsOfTerms terms
  | .block body => body.atoms
  | .stub value => value.atoms
  | .text _ | .identifier _ _ | .option _ _ => []
termination_by structural e => e

def atomsOfTerms : List Expr → List Atom
  | [] => []
  | term :: rest => term.atoms ++ atomsOfTerms rest
termination_by structural terms => terms

/-- The doubles and host objects that stand in a value, but for what is captured. -/
def Value.atoms : Value → List Atom
  | .float x => [.float x]
  | .list items => atomsOfItems items
  | .deferred body _ => body.atoms
  | .host object => [.host object]
  | .empty | .placeholder | .bool _ | .int _ | .text _ => []
termination_by structural value => value

def atomsOfItems : List Value → List Atom
  | [] => []
  | item :: rest => item.atoms ++ atomsOfItems rest
termination_by structural items => items

end

/-- What to put in the place of doubles, of host objects and of captured transients. -/
structure Change where
  float : Float → Float
  host : HostObject → HostObject
  captured : Bindings → Bindings

def Number.change (change : Change) : Number → Number
  | .int n => .int n
  | .decimal x => .decimal (change.float x)

mutual

def Expr.change (change : Change) : Expr → Expr
  | .number n => .number (n.change change)
  | .deferred body => .deferred (body.change change)
  | .chain terms => .chain (changeTerms change terms)
  | .block body => .block (body.change change)
  | .stub value => .stub (value.change change)
  | .text s => .text s
  | .identifier name place => .identifier name place
  | .option name place => .option name place
termination_by structural e => e

def changeTerms (change : Change) : List Expr → List Expr
  | [] => []
  | term :: rest => term.change change :: changeTerms change rest
termination_by structural terms => terms

def Value.change (change : Change) : Value → Value
  | .float x => .float (change.float x)
  | .list items => .list (changeItems change items)
  | .deferred body captured => .deferred (body.change change) (change.captured captured)
  | .host object => .host (change.host object)
  | value => value
termination_by structural value => value

def changeItems (change : Change) : List Value → List Value
  | [] => []
  | item :: rest => item.change change :: changeItems change rest
termination_by structural items => items

end

def Atom.change (change : Change) : Atom → Atom
  | .float x => .float (change.float x)
  | .host object => .host (change.host object)

section

variable (change : Change)

theorem Number.atoms_change (n : Number) :
    (n.change change).atoms = n.atoms.map (·.change change) := by
  cases n <;> rfl

mutual

theorem Expr.atoms_change (e : Expr) : (e.change change).atoms = e.atoms.map (·.change change) := by
  cases e with
  | number n => exact n.atoms_change change
  | deferred body => exact Expr.atoms_change body
  | chain terms => exact atomsOfTerms_change terms
  | block body => exact Expr.atoms_change body
  | stub value => exact Value.atoms_change value
  | _ => rfl
termination_by structural e

theorem atomsOfTerms_change (terms : List Expr) :
    atomsOfTerms (changeTerms change terms) = (atomsOfTerms terms).map (·.change change) := by
  cases terms with
  | nil => rfl
  | cons term rest =>
      rw [changeTerms, atomsOfTerms, atomsOfTerms, List.map_append, Expr.atoms_change term,
        atomsOfTerms_change rest]
termination_by structural terms

theorem Value.atoms_change (v : Value) :
    (v.change change).atoms = v.atoms.map (·.change change) := by
  cases v with
  | list items => exact atomsOfItems_change items
  | deferred body captured => exact Expr.atoms_change body
  | _ => rfl
termination_by structural v

theorem atomsOfItems_change (items : List Value) :
    atomsOfItems (changeItems change items) = (atomsOfItems items).map (·.change change) := by
  cases items with
  | nil => rfl
  | cons item rest =>
      rw [changeItems, atomsOfItems, atomsOfItems, List.map_append, Value.atoms_change item,
        atomsOfItems_change rest]
termination_by structural items

end

end

/-! Doubles. -/

section

open Numeral (extent? number)

def plain (x : Float) : Float := if x == 0.0 then 0.0 else x

theorem beq_zero_iff (x : Float) : (x == 0.0) = true ↔ extent? x = some (number 0) := by
  have zero : extent? 0.0 = some (number 0) := by
    have unpacked : (0.0 : Float).toModel.unpack = .zero .positive := by rfl
    rw [extent?, unpacked, Numeral.extentOf]
  rw [Numeral.beq_iff_extent, zero]
  simp

theorem extent_plain (x : Float) : extent? (plain x) = extent? x := by
  rw [plain]
  split
  · next zero => rw [(beq_zero_iff x).mp zero, ← beq_zero_iff]; rfl
  · rfl

theorem beq_iff_plain (x y : Float) : (x == y) = true ↔ plain x = plain y ∧ x.isNaN = false := by
  constructor
  · intro equal
    obtain ⟨a, left, right⟩ := (Numeral.beq_iff_extent x y).mp equal
    constructor
    · by_cases zero : extent? x = some (number 0)
      · have zero' : extent? y = some (number 0) := by rw [right, ← left, zero]
        rw [plain, plain, if_pos ((beq_zero_iff x).mpr zero), if_pos ((beq_zero_iff y).mpr zero')]
      · rw [Numeral.eq_of_beq x y equal zero]
    · exact (Numeral.isNaN_eq_false_iff x).mpr ⟨a, left⟩
  · rintro ⟨same, number⟩
    obtain ⟨a, known⟩ := (Numeral.isNaN_eq_false_iff x).mp number
    refine (Numeral.beq_iff_extent x y).mpr ⟨a, known, ?_⟩
    rw [← extent_plain, ← same, extent_plain, known]

end

/-! The normal form. -/

def NoNaN (atoms : List Atom) : Prop := ∀ x, .float x ∈ atoms → x.isNaN = false

@[simp] theorem noNaN_nil : NoNaN [] := by simp [NoNaN]

@[simp] theorem noNaN_append (before behind : List Atom) :
    NoNaN (before ++ behind) ↔ NoNaN before ∧ NoNaN behind := by
  simp [NoNaN, or_imp, forall_and]

@[simp] theorem noNaN_float (x : Float) : NoNaN [.float x] ↔ x.isNaN = false := by
  simp [NoNaN]

@[simp] theorem noNaN_host (object : HostObject) : NoNaN [.host object] := by simp [NoNaN]

/-- The normal form of values among host objects with these identities. -/
def Change.normal (objects : Nat → GameObject) : Change where
  float := plain
  host object := ⟨object.identity, objects object.identity⟩
  captured _ := []

section

variable (objects : Nat → GameObject)

/-- What holds of all doubles whatever the sign of zero is told by the normal form. -/
theorem floats_normal (holds : Float → Prop) (plainly : ∀ x, holds (plain x) ↔ holds x)
    (atoms : List Atom) :
    (∀ x, .float x ∈ atoms.map (·.change (.normal objects)) → holds x) ↔
      ∀ x, .float x ∈ atoms → holds x := by
  constructor
  · intro all x member
    exact (plainly x).mp (all _ (List.mem_map_of_mem member))
  · intro all x member
    obtain ⟨y | object, found, same⟩ := List.mem_map.mp member
    · cases same
      exact (plainly y).mpr (all y found)
    · cases same

theorem noNaN_normal (v : Value) : NoNaN (v.change (.normal objects)).atoms ↔ NoNaN v.atoms := by
  rw [v.atoms_change]
  exact floats_normal objects (·.isNaN = false)
    (fun x => by rw [Numeral.isNaN_eq_false_iff, Numeral.isNaN_eq_false_iff, extent_plain]) v.atoms

theorem Number.same_iff (m n : Number) :
    m.same n = true ↔ m.change (.normal objects) = n.change (.normal objects) ∧
      NoNaN m.atoms := by
  cases m with
  | int a => cases n <;> simp [Number.same, Number.change, Number.atoms]
  | decimal x =>
      cases n <;> simp [Number.same, Number.change, Number.atoms, Change.normal, beq_iff_plain]

mutual

-- By induction on the left side. A change keeps the constructor, so that with another one on the
-- right neither the two are the same nor their normal forms.
theorem Expr.same_iff (e f : Expr) :
    e.same f = true ↔ e.change (.normal objects) = f.change (.normal objects) ∧ NoNaN e.atoms := by
  cases e with
  | text s => cases f <;> simp [Expr.same, Expr.change, Expr.atoms]
  | number m => cases f <;> simp [Expr.same, Expr.change, Expr.atoms, Number.same_iff objects]
  | identifier a p => cases f <;> simp [Expr.same, Expr.change, Expr.atoms]
  | option a p => cases f <;> simp [Expr.same, Expr.change, Expr.atoms]
  | deferred d => cases f <;> simp [Expr.same, Expr.change, Expr.atoms, Expr.same_iff d]
  | chain ts => cases f <;> simp [Expr.same, Expr.change, Expr.atoms, sameTerms_iff ts]
  | block d => cases f <;> simp [Expr.same, Expr.change, Expr.atoms, Expr.same_iff d]
  | stub v => cases f <;> simp [Expr.same, Expr.change, Expr.atoms, Value.same_iff v]
termination_by structural e

theorem sameTerms_iff (ts us : List Expr) :
    sameTerms ts us = true ↔ changeTerms (.normal objects) ts = changeTerms (.normal objects) us ∧
      NoNaN (atomsOfTerms ts) := by
  cases ts with
  | nil => cases us <;> simp [sameTerms, changeTerms, atomsOfTerms]
  | cons t ts =>
      cases us with
      | nil => simp [sameTerms, changeTerms]
      | cons u us =>
          simp only [sameTerms, changeTerms, atomsOfTerms, Bool.and_eq_true, List.cons.injEq,
            noNaN_append, Expr.same_iff t, sameTerms_iff ts]
          tauto
termination_by structural ts

theorem Value.same_iff (v w : Value) :
    v.same w = true ↔ v.change (.normal objects) = w.change (.normal objects) ∧ NoNaN v.atoms := by
  cases v with
  | list vs => cases w <;> simp [Value.same, Value.change, Value.atoms, sameItems_iff vs]
  | deferred d captured =>
      cases w <;> simp [Value.same, Value.change, Value.atoms, Change.normal, Expr.same_iff d]
  | float x =>
      cases w <;> simp [Value.same, Value.change, Value.atoms, Change.normal, beq_iff_plain]
  | host object =>
      cases w <;> simp +contextual [Value.same, Value.change, Value.atoms, Change.normal]
  | _ => cases w <;> simp [Value.same, Value.change, Value.atoms]
termination_by structural v

theorem sameItems_iff (vs ws : List Value) :
    sameItems vs ws = true ↔ changeItems (.normal objects) vs = changeItems (.normal objects) ws ∧
      NoNaN (atomsOfItems vs) := by
  cases vs with
  | nil => cases ws <;> simp [sameItems, changeItems, atomsOfItems]
  | cons v vs =>
      cases ws with
      | nil => simp [sameItems, changeItems]
      | cons w ws =>
          simp only [sameItems, changeItems, atomsOfItems, Bool.and_eq_true, List.cons.injEq,
            noNaN_append, Value.same_iff v, sameItems_iff vs]
          tauto
termination_by structural vs

end

end

/-! What is captured. -/

/-- Forgets all that deferred values have captured, also those in values that the host has put into
expressions. -/
def Change.forget : Change where
  float := id
  host := id
  captured _ := []

mutual

theorem Expr.same_forget (e f : Expr) : (e.change .forget).same f = e.same f := by
  cases e with
  | number m =>
      cases m <;> cases f <;> simp [Expr.same, Expr.change, Number.change, Change.forget]
  | deferred d => cases f <;> simp [Expr.same, Expr.change, Expr.same_forget d]
  | chain ts => cases f <;> simp [Expr.same, Expr.change, sameTerms_forget ts]
  | block d => cases f <;> simp [Expr.same, Expr.change, Expr.same_forget d]
  | stub v => cases f <;> simp [Expr.same, Expr.change, Value.same_forget v]
  | _ => cases f <;> simp [Expr.same, Expr.change]
termination_by structural e

theorem sameTerms_forget (ts us : List Expr) :
    sameTerms (changeTerms .forget ts) us = sameTerms ts us := by
  cases ts with
  | nil => rfl
  | cons t ts =>
      cases us with
      | nil => rfl
      | cons u us => rw [changeTerms, sameTerms, sameTerms, Expr.same_forget t, sameTerms_forget ts]
termination_by structural ts

theorem Value.same_forget (v w : Value) : (v.change .forget).same w = v.same w := by
  cases v with
  | list vs => cases w <;> simp [Value.same, Value.change, sameItems_forget vs]
  | deferred d captured => cases w <;> simp [Value.same, Value.change, Expr.same_forget d]
  | _ => cases w <;> simp [Value.same, Value.change, Change.forget]
termination_by structural v

theorem sameItems_forget (vs ws : List Value) :
    sameItems (changeItems .forget vs) ws = sameItems vs ws := by
  cases vs with
  | nil => rfl
  | cons v vs =>
      cases ws with
      | nil => rfl
      | cons w ws =>
          rw [changeItems, sameItems, sameItems, Value.same_forget v, sameItems_forget vs]
termination_by structural vs

end

/-! What is shown. -/

def Atom.Unseen (change : Change) : Atom → Prop
  | .float x => Numeral.shown (change.float x) = Numeral.shown x
  | .host object => (change.host object).object.typeName = object.object.typeName

section

variable (change : Change)

mutual

-- Printing looks at no more of an expression than at its constructors and atoms.
theorem Expr.print_change (e : Expr) (unseen : ∀ atom ∈ e.atoms, atom.Unseen change) :
    (e.change change).print = e.print := by
  cases e with
  | number n =>
      cases n with
      | int n => rfl
      | decimal x => exact unseen _ (List.mem_singleton_self _)
  | deferred body => simp only [Expr.change, Expr.print, Expr.print_change body unseen]
  | chain terms => simp only [Expr.change, Expr.print, printAll_change terms unseen]
  | block body => simp only [Expr.change, Expr.print, Expr.print_change body unseen]
  | stub value => simp only [Expr.change, Expr.print, Value.shown_change value unseen]
  | _ => rfl
termination_by structural e

theorem printAll_change (terms : List Expr)
    (unseen : ∀ atom ∈ atomsOfTerms terms, atom.Unseen change) :
    printAll (changeTerms change terms) = printAll terms := by
  cases terms with
  | nil => rfl
  | cons term rest =>
      obtain ⟨first, others⟩ := List.forall_mem_append.mp unseen
      simp only [changeTerms, printAll, Expr.print_change term first, printAll_change rest others]
termination_by structural terms

theorem Value.shown_change (v : Value) (unseen : ∀ atom ∈ v.atoms, atom.Unseen change) :
    (v.change change).shown = v.shown := by
  cases v with
  | float x => exact unseen _ (List.mem_singleton_self _)
  | host object =>
      have known := unseen _ (List.mem_singleton_self _)
      simp only [Atom.Unseen] at known
      simp only [Value.change, Value.shown, known]
  | list items => simp only [Value.change, Value.shown, shownAll_change items unseen]
  | deferred body captured => simp only [Value.change, Value.shown, Expr.print_change body unseen]
  | _ => rfl
termination_by structural v

theorem shownAll_change (items : List Value)
    (unseen : ∀ atom ∈ atomsOfItems items, atom.Unseen change) :
    shownAll (changeItems change items) = shownAll items := by
  cases items with
  | nil => rfl
  | cons item rest =>
      obtain ⟨first, others⟩ := List.forall_mem_append.mp unseen
      simp only [changeItems, shownAll, Value.shown_change item first, shownAll_change rest others]
termination_by structural items

end

end

/-- Whether all host objects among these are those that have their identities. -/
def Known (objects : Nat → GameObject) (atoms : List Atom) : Prop :=
  ∀ object, .host object ∈ atoms → object.object = objects object.identity

def NoZero (atoms : List Atom) : Prop := ∀ x, .float x ∈ atoms → (x == 0.0) = false

theorem noZero_normal (objects : Nat → GameObject) (v : Value) :
    NoZero (v.change (.normal objects)).atoms ↔ NoZero v.atoms := by
  rw [v.atoms_change]
  refine floats_normal objects (fun x => (x == 0.0) = false) (fun x => ?_) v.atoms
  rw [← Bool.not_eq_true, ← Bool.not_eq_true, beq_zero_iff, beq_zero_iff, extent_plain]

section

variable (objects : Nat → GameObject) (v : Value) (known : Known objects v.atoms)

include known

theorem Value.typeName_normal : (v.change (.normal objects)).typeName = v.typeName := by
  cases v with
  | host object =>
      exact congrArg GameObject.typeName (known object (List.mem_singleton_self _)).symm
  | _ => rfl

theorem Value.shown_normal (nonzero : NoZero v.atoms) :
    (v.change (.normal objects)).shown = v.shown := by
  apply Value.shown_change
  rintro (x | object) member
  · have same : plain x = x := if_neg (by rw [nonzero x member]; exact Bool.false_ne_true)
    exact congrArg Numeral.shown same
  · exact congrArg GameObject.typeName (known object member).symm

end

/-! The laws. -/

section

variable (u v w : Value)

theorem Value.same_self_iff : v.same v = true ↔ NoNaN v.atoms := by
  rw [Value.same_iff fun _ => .pile 0]
  exact and_iff_right rfl

-- That there is no NaN is known of the left side only, and the normal form carries it over.
theorem Value.same_symm (same : v.same w = true) : w.same v = true := by
  rw [Value.same_iff fun _ => .pile 0] at same ⊢
  obtain ⟨normal, number⟩ := same
  refine ⟨normal.symm, ?_⟩
  rwa [← noNaN_normal, ← normal, noNaN_normal]

theorem Value.same_trans (first : u.same v = true) (second : v.same w = true) :
    u.same w = true := by
  rw [Value.same_iff fun _ => .pile 0] at first second ⊢
  exact ⟨first.1.trans second.1, first.2⟩

end

/-- Being the same is a partial equivalence that only NaN breaks. It is symmetric and transitive,
and a value is the same as itself just if no NaN stands in it, in its lists, or in the literals and
stubs of its deferred values. What these have captured never matters. If the identities of host
objects tell them apart, values that are the same have the same type, and are shown alike unless
there is a zero in them. -/
theorem Value.same_partialEquivalence :
    (∀ v w : Value, v.same w = w.same v) ∧
    (∀ u v w : Value, u.same v = true → v.same w = true → u.same w = true) ∧
    (∀ v : Value, v.same v = true ↔ NoNaN v.atoms) ∧
    (∀ v v' w w' : Value, v.change .forget = v'.change .forget →
      w.change .forget = w'.change .forget → v.same w = v'.same w') ∧
    (∀ (objects : Nat → GameObject) (v w : Value), Known objects v.atoms → Known objects w.atoms →
      v.same w = true → v.typeName = w.typeName ∧
        (NoZero v.atoms → v.shown = w.shown)) := by
  have symmetric (v w : Value) : v.same w = w.same v :=
    Bool.eq_iff_iff.mpr ⟨v.same_symm w, w.same_symm v⟩
  refine ⟨symmetric, Value.same_trans, Value.same_self_iff, ?_, ?_⟩
  · intro v v' w w' left right
    calc
      v.same w = (v.change .forget).same w := (v.same_forget w).symm
      _ = v'.same w := by rw [left, v'.same_forget]
      _ = (w.change .forget).same v' := by rw [symmetric, w.same_forget]
      _ = v'.same w' := by rw [right, w'.same_forget, symmetric]
  · intro objects v w known known' same
    have normal := ((v.same_iff objects w).mp same).1
    constructor
    · rw [← v.typeName_normal objects known, normal, w.typeName_normal objects known']
    · intro nonzero
      have nonzero' : NoZero w.atoms := by
        rwa [← noZero_normal objects, ← normal, noZero_normal]
      rw [← v.shown_normal objects known nonzero, normal, w.shown_normal objects known' nonzero']

/-- A deferred value that holds a host object is the same whatever it has captured, but a list with
NaN in a literal is not the same as itself. -/
theorem Value.same_partialEquivalence_captured :
    let quoted (captured : Bindings) : Value :=
      .deferred (.chain [.stub (.host ⟨4, .pile 2⟩), .number (.decimal 1.5)]) captured
    let scope : Bindings := [("$x", .float Numeral.notANumber)]
    let lost : Value := .list [.deferred (.number (.decimal Numeral.notANumber)) []]
    (quoted scope).same (quoted []) = true ∧ (quoted scope).shown = (quoted []).shown ∧
      lost.same lost = false := by
  intro quoted scope lost
  obtain ⟨_, _, reflexive, captured, alike⟩ := Value.same_partialEquivalence
  have atoms (captured : Bindings) :
      (quoted captured).atoms = [.host ⟨4, .pile 2⟩, .float 1.5] := rfl
  have itself : (quoted []).same (quoted []) = true := by
    rw [reflexive, atoms]
    rintro x member
    obtain rfl : x = 1.5 := by simpa using member
    decide +kernel
  have same : (quoted scope).same (quoted []) = true :=
    (captured (quoted scope) (quoted []) (quoted []) (quoted []) rfl rfl).trans itself
  have known (captured : Bindings) : Known (fun _ => .pile 2) (quoted captured).atoms := by
    intro object member
    rw [atoms] at member
    obtain rfl : object = ⟨4, .pile 2⟩ := by simpa using member
    rfl
  have nonzero : NoZero (quoted scope).atoms := by
    intro x member
    rw [atoms] at member
    obtain rfl : x = 1.5 := by simpa using member
    decide +kernel
  have notNumber : ¬ NoNaN lost.atoms := by
    intro number
    exact absurd (number _ (List.mem_singleton_self _)) (by decide +kernel)
  refine ⟨same, (alike _ _ _ (known scope) (known []) same).2 nonzero, ?_⟩
  rwa [← Bool.not_eq_true, reflexive]

end ChainScript
