import ChainScript.Proofs.Deliveries
import ChainScript.Proofs.Registrations

/-!
What conversions depend on. A target looks at converters for itself and for the targets inside of
it, and at no others. More converters can change what is made of a value, but not whether something
is made of it. A list is converted item by item, also where a check of the whole list comes first.
-/

namespace ChainScript

namespace Step

def isPop : Step → Bool
  | .edit change => change.isPop
  | .register _ => false

/-- Whether a step can matter for a target: it registers no converter, or one for the target or a
target inside of it. -/
def concerns (target : Target) : Step → Bool
  | .edit _ => true
  | .register converter => decide (converter.target ∈ target.parts)

/-- Whether a step registers no converter, or one for just this target. -/
def keptFor (target : Target) : Step → Bool
  | .edit _ => true
  | .register converter => decide (converter.target = target)

end Step

def Environment.converters (env : Environment) : List Converter := env.converterStack.flatten

def convertersFor (target : Target) (stack : List (List Converter)) : List (List Converter) :=
  stack.map fun own => own.filter fun converter => converter.target = target

/-! Lists of answers. -/

section

variable {α β : Type} (f g : α → Option β)

theorem allSome_eq_some_iff (items : List α) (results : List β) :
    allSome f items = some results ↔ items.map f = results.map some := by
  induction items generalizing results with
  | nil => cases results <;> simp [allSome]
  | cons item rest ih =>
      cases results with
      | nil => cases first : f item <;> simp [allSome, first]
      | cons result others =>
          cases first : f item with
          | none => simp [allSome, first]
          | some b => simp [allSome, first, ih, and_comm]

theorem isSome_allSome_iff (items : List α) :
    (allSome f items).isSome = true ↔ ∀ item ∈ items, (f item).isSome = true := by
  induction items with
  | nil => simp [allSome]
  | cons item rest ih => cases first : f item <;> simp [allSome, first, ih]

theorem allSome_of_answers (items : List α) (results : List β)
    (answers : ∀ item b, f item = some b → g item = some b)
    (found : allSome f items = some results) : allSome g items = some results := by
  induction items generalizing results with
  | nil => exact found
  | cons item rest ih =>
      cases first : f item with
      | none => simp [allSome, first] at found
      | some b =>
          simp only [allSome, first, Option.map_eq_some_iff] at found
          obtain ⟨others, later, rfl⟩ := found
          simp only [allSome, answers item b first, ih others later, Option.map_some]

end

namespace Environment

variable (env other : Environment)

/-! More converters. -/

theorem isSome_convert_iff (target : Target) (value : Value) :
    (env.convert target value).isSome = true ↔
      (target.check value).isSome = true ∨ (env.converted target value).isSome = true ∨
        (env.convertParts target value).isSome = true := by
  rw [convert_eq]
  simp

theorem isSome_converted_iff (target : Target) (value : Value) :
    (env.converted target value).isSome = true ↔
      ∃ converter ∈ env.converters, (converter.convert? target value).isSome = true := by
  simp only [converted_eq, firstConversion_eq, List.findSome?_isSome_iff, converters,
    List.mem_flatten]
  tauto

-- By induction on the target, for the items of a list are converted by themselves.
theorem isSome_convert_of_subset (more : env.converters ⊆ other.converters) (target : Target)
    (value : Value) (taken : (env.convert target value).isSome = true) :
    (other.convert target value).isSome = true := by
  have step (target : Target) (value : Value)
      (parts : (env.convertParts target value).isSome = true →
        (other.convertParts target value).isSome = true)
      (taken : (env.convert target value).isSome = true) :
      (other.convert target value).isSome = true := by
    rw [isSome_convert_iff] at taken ⊢
    rcases taken with direct | converted | form
    · exact .inl direct
    · obtain ⟨converter, known, answers⟩ := (env.isSome_converted_iff target value).mp converted
      exact .inr (.inl ((other.isSome_converted_iff target value).mpr
        ⟨converter, more known, answers⟩))
    · exact .inr (.inr (parts form))
  induction target generalizing value with
  | list item ih =>
      apply step _ _ _ taken
      intro form
      cases value with
      | list values =>
          simp only [convertParts, isSome_allSome_iff] at form ⊢
          exact fun single member => ih single (form single member)
      | _ =>
          simp only [convertParts, Option.isSome_map] at form ⊢
          exact ih _ form
  | _ => exact step _ _ id taken

end Environment

/-! Steps. -/

theorem subset_onStack (step : Step) (stays : step.isPop = false) (stack : List (List Converter)) :
    stack.flatten ⊆ (step.onStack stack).flatten := by
  intro converter known
  cases step with
  | register added =>
      cases stack with
      | nil => exact known
      | cons top rest =>
          simp only [Step.onStack, List.flatten_cons, List.mem_append] at known ⊢
          tauto
  | edit change =>
      cases change with
      | pop => cases stays
      | push => simpa [Step.onStack] using known
      | declare name value => exact known
      | define method => exact known

/-- Unless a frame is closed, no converter is lost. -/
theorem converters_through (steps : List Step) (world : World)
    (stays : ∀ step ∈ steps, step.isPop = false) :
    world.env.converters ⊆ (world.through steps).env.converters := by
  induction steps generalizing world with
  | nil => exact List.Subset.refl _
  | cons step rest ih =>
      have first : world.env.converters ⊆ (worldAfter (step.run world)).env.converters := by
        rw [Environment.converters, Environment.converters, converterStack_run]
        exact subset_onStack step (stays step List.mem_cons_self) _
      exact List.Subset.trans first
        (ih _ fun other member => stays other (List.mem_cons_of_mem _ member))

theorem convertersFor_onStack (target : Target) (step : Step) (stack : List (List Converter)) :
    convertersFor target (step.onStack stack) =
      if step.keptFor target then step.onStack (convertersFor target stack)
      else convertersFor target stack := by
  cases step with
  | register added =>
      cases stack with
      | nil => simp [Step.onStack, convertersFor]
      | cons top rest =>
          by_cases own : added.target = target <;>
            simp [Step.onStack, Step.keptFor, convertersFor, own]
  | edit change =>
      cases change with
      | pop => rcases stack with _ | ⟨top, _ | ⟨below, rest⟩⟩ <;> rfl
      | _ => rfl

theorem convertersFor_through (target : Target) (steps : List Step) (world : World) :
    convertersFor target (world.through steps).env.converterStack =
      (steps.filter (Step.keptFor target)).foldl (fun stack step => step.onStack stack)
        (convertersFor target world.env.converterStack) := by
  rw [converterStack_through]
  generalize world.env.converterStack = stack
  induction steps generalizing stack with
  | nil => rfl
  | cons step rest ih =>
      rw [List.foldl_cons, ih, convertersFor_onStack]
      by_cases kept : step.keptFor target = true
      · rw [if_pos kept, List.filter_cons_of_pos kept, List.foldl_cons]
      · rw [if_neg kept, List.filter_cons_of_neg kept]

theorem Environment.converted_eq_convertersFor (env : Environment) (target : Target)
    (value : Value) :
    env.converted target value =
      (convertersFor target env.converterStack).findSome? (firstConversion target value) := by
  rw [converted_eq, convertersFor, List.findSome?_map]
  congr 1
  funext own
  exact (firstConversion_filter target value own).symm

theorem convert_through_concerns (steps : List Step) (world : World) (target : Target)
    (value : Value) :
    (world.through (steps.filter (Step.concerns target))).env.convert target value =
      (world.through steps).env.convert target value := by
  apply Environment.convert_of_converted
  intro part member single
  have kept (step : Step) : (step.keptFor part && step.concerns target) = step.keptFor part := by
    cases step with
    | edit change => rfl
    | register converter =>
        by_cases own : converter.target = part
        · simp [Step.keptFor, Step.concerns, own, member]
        · simp [Step.keptFor, own]
  simp only [Environment.converted_eq_convertersFor, convertersFor_through, List.filter_filter,
    kept]

/-- Adding conversions never takes one away. Behind any steps that close no frame, whatever they
register, a value can still be taken as a target if it could before. A conversion depends on the
registrations for its target and for the targets inside of it only, so that all others may as well
never have been made. -/
theorem conversions_kept :
    (∀ (world : World) (steps : List Step) (target : Target) (value : Value),
      (∀ step ∈ steps, step.isPop = false) →
      (world.env.convert target value).isSome = true →
      ((world.through steps).env.convert target value).isSome = true) ∧
    ∀ (world : World) (steps : List Step) (target : Target) (value : Value),
      (world.through (steps.filter (Step.concerns target))).env.convert target value =
        (world.through steps).env.convert target value := by
  constructor
  · intro world steps target value stays taken
    exact Environment.isSome_convert_of_subset _ _ (converters_through steps world stays) target
      value taken
  · intro world steps target value
    exact convert_through_concerns steps world target value

/-- A new converter goes in front of the one of the prelude, and one for another target does not
matter. -/
theorem conversions_kept_floats :
    let steps : List Step := [.edit .push, .register ⟨.float, fun _ => some 0⟩,
      .register ⟨.list .float, fun _ => none⟩, .register ⟨.bool, fun _ => some true⟩]
    let value : Value := .list [.list [.int 1, .text "a"], .list []]
    (World.initial.env.convert (.list (.list .float)) (.list [.int 1])).isSome = true ∧
    ((World.initial.through steps).env.convert (.list (.list .float)) (.list [.int 1])).isSome =
      true ∧
    World.initial.env.convert (.list (.list .float)) value = none ∧
    (World.initial.through (steps.take 3)).env.convert (.list (.list .float)) value =
      some [[0, 0], []] ∧
    (World.initial.through steps).env.convert (.list (.list .float)) value = some [[0, 0], []] := by
  intro steps value
  have before : (World.initial.env.convert (.list (.list .float)) (.list [.int 1])).isSome = true :=
    rfl
  have three : (World.initial.through (steps.take 3)).env.convert (.list (.list .float)) value =
      some [[0, 0], []] := rfl
  refine ⟨before, ?_, rfl, three, ?_⟩
  · exact conversions_kept.1 .initial steps _ _ (by simp [steps, Step.isPop, Edit.isPop]) before
  · exact (conversions_kept.2 .initial steps _ value).symm.trans three

/-! Lists. -/

section

variable (env : Environment) (item : Target)
  (free : ∀ converter ∈ env.converters, converter.target ≠ .list item)

include free

theorem converted_list (value : Value) : env.converted (.list item) value = none := by
  rw [← Option.not_isSome_iff_eq_none, Environment.isSome_converted_iff]
  rintro ⟨converter, known, answers⟩
  rw [convert?_of_other converter _ value (free converter known)] at answers
  cases answers

-- If all items have their types already, each of them is what it is converted to.
theorem convert_list (values : List Value) :
    env.convert (.list item) (.list values) = allSome (env.convert item) values := by
  have check : (Target.list item).check (.list values) = allSome item.check values := rfl
  have parts : env.convertParts (.list item) (.list values) = allSome (env.convert item) values :=
    rfl
  rw [Environment.convert_eq, converted_list env item free, check, parts]
  cases direct : allSome item.check values with
  | none => rfl
  | some results =>
      symm
      apply allSome_of_answers _ _ values results _ direct
      intro value result taken
      rw [Environment.convert_eq, taken]
      rfl

theorem convert_single (value : Value) (single : ∀ values, value ≠ .list values) :
    env.convert (.list item) value = env.convert (.list item) (.list [value]) := by
  have alone : env.convert (.list item) value = (env.convert item value).map ([·]) := by
    rw [Environment.convert_eq, converted_list env item free]
    cases value with
    | list values => exact absurd rfl (single values)
    | _ => rfl
  rw [alone, convert_list env item free]
  cases taken : env.convert item value <;> simp [allSome, taken]

/-- A list is converted item by item. Where no live converter makes lists of this kind, a list can
be taken just if each of its items can, and then its results are theirs in order, whether or not the
items have their type already. Any other value is taken as the list of it alone would be. -/
theorem convert_itemwise :
    (∀ values : List Value,
      ((env.convert (.list item) (.list values)).isSome = true ↔
        ∀ value ∈ values, (env.convert item value).isSome = true) ∧
      ∀ results : List item.denote, env.convert (.list item) (.list values) = some results ↔
        values.map (env.convert item) = results.map some) ∧
    ∀ value : Value, (∀ values, value ≠ .list values) →
      env.convert (.list item) value = env.convert (.list item) (.list [value]) := by
  constructor
  · intro values
    rw [convert_list env item free]
    exact ⟨isSome_allSome_iff _ values, allSome_eq_some_iff _ values⟩
  · exact convert_single env item free

end

/-- Lists in a list, of which one has its type already, and a number that is no list. -/
theorem convert_itemwise_nested :
    let env := World.initial.env
    (∀ converter ∈ env.converters, converter.target ≠ .list (.list .float)) ∧
    env.convert (.list (.list .float)) (.list [.list [.float 2.5], .int 1, .list []]) =
      some [[2.5], [Numeral.ofInteger 1], []] ∧
    env.convert (.list (.list .float)) (.int 1) =
      env.convert (.list (.list .float)) (.list [.int 1]) ∧
    ((env.convert (.list (.list .float)) (.list [.text "a"])).isSome = true ↔
      ∀ value ∈ [Value.text "a"], (env.convert (.list .float) value).isSome = true) := by
  intro env
  have free : ∀ converter ∈ env.converters, converter.target ≠ .list (.list .float) := by
    have known : env.converters = Prelude.converters := rfl
    simp [known, Prelude.converters, Prelude.intToFloat, Prelude.textToName]
  obtain ⟨lists, singles⟩ := convert_itemwise env (.list .float) free
  refine ⟨free, ((lists _).2 _).mpr rfl, singles (.int 1) (fun _ same => nomatch same), (lists _).1⟩

end ChainScript
