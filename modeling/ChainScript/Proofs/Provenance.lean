import ChainScript.Proofs.Candor
import ChainScript.Proofs.Conversions
import ChainScript.Proofs.Hygiene

/-!
Where the bodies of deferred values come from. The methods of the prelude make none, for they are
candid. Nor do lookups and conversions: what they give quotes nothing but what they are given.
-/

namespace ChainScript

section

variable {quoted : Expr → Prop}

/-- A world over the prelude whose variables quote these expressions only. -/
structure World.Quotes (quoted : Expr → Prop) (world : World) : Prop where
  prelude : PreludeOnly world.env
  bound : ∀ frame ∈ world.env.frames, Quoting quoted frame.bindings

theorem World.Quotes.value? (world : World) (fine : world.Quotes quoted) (name : String)
    (value : Value) (found : world.env.value? name = some value) : value.Quotes quoted := by
  obtain ⟨frame, member, here⟩ := List.exists_of_findSome?_eq_some found
  exact Quoting.lookup frame.bindings (fine.bound frame member) name value here

theorem quotes_allSome {α : Type} (fine : α → Prop) (f : Value → Option α) (items : List Value)
    (each : ∀ item ∈ items, ∀ a, f item = some a → fine a) (results : List α)
    (taken : allSome f items = some results) : ∀ a ∈ results, fine a := by
  intro a member
  have images : some a ∈ items.map f := by
    rw [(allSome_eq_some_iff f items results).mp taken]
    exact List.mem_map_of_mem member
  obtain ⟨item, among, image⟩ := List.mem_map.mp images
  exact each item among a image

theorem quotes_check (target : Target) (value : Value) (fine : value.Quotes quoted)
    (a : target.denote) (taken : target.check value = some a) : target.Quotes quoted a := by
  induction target generalizing value with
  | value =>
      cases taken
      exact fine
  | deferred =>
      cases value with
      | deferred body captured =>
          cases taken
          exact fine
      | _ => cases taken
  | list item ih =>
      cases fine with
      | list items all =>
          exact quotes_allSome _ item.check items
            (fun v member a taken => ih v (all v member) a taken) a taken
      | _ => cases taken
  | _ => trivial

theorem quotes_converted (env : Environment) (prelude : PreludeOnly env) (target : Target)
    (value : Value) (a : target.denote) (converted : env.converted target value = some a) :
    target.Quotes quoted a := by
  obtain ⟨frame, member, made⟩ := List.exists_of_findSome?_eq_some converted
  rw [firstConversion_eq] at made
  obtain ⟨converter, among, applied⟩ := List.exists_of_findSome?_eq_some made
  have known := prelude.converters frame member converter among
  simp only [Prelude.converters, List.mem_cons, List.not_mem_nil, or_false] at known
  unfold Converter.convert? at applied
  split at applied
  · next same =>
      subst same
      rcases known with rfl | rfl <;> trivial
  · cases applied

theorem quotes_convert_of_parts (env : Environment) (prelude : PreludeOnly env) (target : Target)
    (value : Value) (fine : value.Quotes quoted) (a : target.denote)
    (parts : env.convertParts target value = some a → target.Quotes quoted a)
    (converted : env.convert target value = some a) : target.Quotes quoted a := by
  simp only [Environment.convert_eq, Option.orElse_eq_orElse, Option.orElse_eq_or,
    Option.or_eq_some_iff] at converted
  rcases converted with taken | ⟨_, made | ⟨_, split⟩⟩
  · exact quotes_check target value fine a taken
  · exact quotes_converted env prelude target value a made
  · exact parts split

-- By induction on the target, for the items of a list are taken by themselves.
theorem quotes_convert (env : Environment) (prelude : PreludeOnly env) (target : Target)
    (value : Value) (fine : value.Quotes quoted) (a : target.denote)
    (converted : env.convert target value = some a) : target.Quotes quoted a := by
  induction target generalizing value with
  | list item ih =>
      apply quotes_convert_of_parts env prelude (.list item) value fine a _ converted
      intro split
      have single (alone : (env.convert item value).map ([·]) = some a) :
          ∀ b ∈ a, item.Quotes quoted b := by
        obtain ⟨b, taken, rfl⟩ := Option.map_eq_some_iff.mp alone
        intro c member
        obtain rfl := List.mem_singleton.mp member
        exact ih value fine c taken
      cases fine with
      | list items all =>
          exact quotes_allSome _ (env.convert item) items
            (fun v member b taken => ih v (all v member) b taken) a split
      | _ => exact single split
  | _ => exact quotes_convert_of_parts env prelude _ value fine a nofun converted

end

end ChainScript
