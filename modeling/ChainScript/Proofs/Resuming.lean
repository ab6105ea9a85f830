import ChainScript.Proofs.Bytes

/-!
Places behind errors. The scanner goes on behind what is no token, and its places go on from there.
The offset of every item lies in the text. Its line counts the newlines before the offset but for
those that a backslash stands in front of: such a newline ends a literal as an unknown escape and
is passed without being counted.
-/

namespace ChainScript

def itemPlace? : Except Fault Token → Option Position
  | .ok token => some token.position
  | .error fault => fault.position?

/-- How many newlines are passed with an error and counted nowhere. -/
def Fault.uncounted : Fault → Nat
  | .malformed (.unknownEscape c) _ => if c = '\n' then 1 else 0
  | _ => 0

def uncounted {α : Type} : Except Fault α → Nat
  | .ok _ => 0
  | .error fault => fault.uncounted

/-- Whether a place has the offset behind a text, and a line that lacks some of its newlines. -/
def Position.Trails (place : Position) (before : List Char) (missed : Nat) : Prop :=
  place.offset = (placeBehind before).offset ∧ place.line + missed = (placeBehind before).line

/-- Whether a cursor stands somewhere in a text, and its place lacks some of the newlines. -/
def Cursor.In (cursor : Cursor) (text : List Char) (missed : Nat) : Prop :=
  ∃ before, before ++ cursor.rest = text ∧ cursor.place.Trails before missed

def Position.In (place : Position) (text : List Char) (missed : Nat) : Prop :=
  ∃ rest, Cursor.In ⟨rest, place⟩ text missed

variable {text : List Char} {missed : Nat}

theorem Position.In.bounds {place : Position} (inside : place.In text missed) :
    place.offset ≤ (String.ofList text).utf8ByteSize ∧
      place.line + missed = 1 + newlinesBefore (String.ofList text) place.offset := by
  obtain ⟨rest, before, rfl, offset, line⟩ := inside
  have behind : (placeBehind before).offset = (String.ofList before).utf8ByteSize := rfl
  constructor
  · rw [offset, behind, String.ofList_append, String.utf8ByteSize_append]
    exact Nat.le_add_right _ _
  · rw [line, offset, behind, newlinesBefore_size]
    rfl

namespace Cursor.In

theorem place {cursor : Cursor} (inside : cursor.In text missed) :
    cursor.place.In text missed :=
  ⟨cursor.rest, inside⟩

theorem past {place : Position} {c : Char} {rest : List Char}
    (here : Cursor.In ⟨c :: rest, place⟩ text missed) :
    Cursor.In ⟨rest, place.past c⟩ text missed := by
  obtain ⟨before, whole, offset, line⟩ := here
  refine ⟨before ++ [c], by simpa using whole, ?_⟩
  rw [Position.Trails, placeBehind_snoc]
  constructor
  · exact congrArg (· + c.utf8Size) offset
  · simp only [Position.past, ← line]
    split <;> omega

theorem pastWithin {place : Position} {c : Char} {rest : List Char}
    (here : Cursor.In ⟨c :: rest, place⟩ text missed) :
    Cursor.In ⟨rest, place.pastWithin c⟩ text (missed + if c = '\n' then 1 else 0) := by
  obtain ⟨before, whole, offset, line⟩ := here
  refine ⟨before ++ [c], by simpa using whole, ?_⟩
  rw [Position.Trails, placeBehind_snoc]
  constructor
  · exact congrArg (· + c.utf8Size) offset
  · simp only [Position.pastWithin, Position.past, ← line]
    split <;> omega

theorem pastAll {place : Position} {run rest : List Char}
    (here : Cursor.In ⟨run ++ rest, place⟩ text missed) :
    Cursor.In ⟨rest, place.pastAll run⟩ text missed := by
  induction run generalizing place with
  | nil => exact here
  | cons c run ih => exact ih here.past

theorem skipBlanks {place : Position} {rest : List Char}
    (here : Cursor.In ⟨rest, place⟩ text missed) :
    (ChainScript.skipBlanks place rest).In text missed := by
  induction rest generalizing place with
  | nil => exact here
  | cons c rest ih =>
      rw [ChainScript.skipBlanks]
      split
      · exact ih here.past
      · exact here

end Cursor.In

/-! One item. -/

/-- Where something is found that starts at a place: there, or where the error is. -/
def foundAt {α : Type} (start : Position) : Except Fault α → Option Position
  | .ok _ => some start
  | .error fault => fault.position?

/-- Whether what is found has its place in the text, and the scanner stands behind it with no
more newlines missing than were passed. -/
def Resumes {α : Type} (text : List Char) (missed : Nat) (start : Position)
    (found : Except Fault α × Cursor) : Prop :=
  (∃ place, foundAt start found.1 = some place ∧ place.In text missed) ∧
    found.2.In text (missed + uncounted found.1)

theorem stringBody_resumes (opening : Position) (cut : Cursor) (decoded : List Char)
    (place : Position) (rest : List Char) (opened : opening.In text missed)
    (cutIn : cut.In text missed) (here : Cursor.In ⟨rest, place⟩ text missed) :
    Resumes text missed opening (stringBody opening cut decoded place rest) := by
  fun_induction stringBody opening cut decoded place rest with
  | case1 cut decoded place => exact ⟨⟨opening, rfl, opened⟩, cutIn⟩
  | case2 cut decoded place rest => exact ⟨⟨opening, rfl, opened⟩, here.past⟩
  | case3 cut decoded place => exact ⟨⟨opening, rfl, opened⟩, here.past⟩
  | case4 cut decoded place c rest after plain meant ih =>
      -- A newline is no letter of an escape, so here none goes missing.
      have known : c ≠ '\n' := by
        rintro rfl
        cases meant
      have behind := here.past.pastWithin
      rw [if_neg known] at behind
      exact ih behind behind
  | case5 cut decoded place c rest after unknown =>
      exact ⟨⟨place, rfl, here.place⟩, here.past.pastWithin⟩
  | case6 cut decoded place c rest noQuote noEnd noEscape ih => exact ih cutIn here.past

theorem scanString_resumes (place : Position) (rest : List Char)
    (here : Cursor.In ⟨'"' :: rest, place⟩ text missed) :
    Resumes text missed place (scanString place '"' rest) := by
  have body := stringBody_resumes place ⟨rest, place.past '"'⟩ [] (place.past '"') rest here.place
    here.past here.past
  simp only [scanString]
  generalize stringBody place ⟨rest, place.past '"'⟩ [] (place.past '"') rest = found at body
  obtain ⟨result, cursor⟩ := found
  cases result with
  | ok s => exact body
  | error fault => exact body

theorem classify_error (word : List Char) (cause : Malformed)
    (failed : classify word = .error cause) :
    cause = .namelessOption ∨ cause = .invalidNumber (String.ofList word) := by
  unfold classify at failed
  split at failed
  · exact .inl (Except.error.inj failed).symm
  · cases failed
  · split at failed
    · split at failed
      · cases failed
      · exact .inr (Except.error.inj failed).symm
    · cases failed

theorem scanWord_resumes (place : Position) (c : Char) (rest : List Char)
    (here : Cursor.In ⟨c :: rest, place⟩ text missed) :
    Resumes text missed place (scanWord place c rest) := by
  have parts := List.takeWhile_append_dropWhile (p := (!isDelimiter ·)) (l := rest)
  have behind : Cursor.In ⟨rest.dropWhile (!isDelimiter ·),
      place.pastAll (c :: rest.takeWhile (!isDelimiter ·))⟩ text missed := by
    apply Cursor.In.pastAll
    rw [List.cons_append, parts]
    exact here
  rw [scanWord]
  cases classified : classify (c :: rest.takeWhile (!isDelimiter ·)) with
  | ok kind => exact ⟨⟨place, rfl, here.place⟩, behind⟩
  | error cause =>
      rcases classify_error _ cause classified with rfl | rfl <;>
        exact ⟨⟨place, rfl, here.place⟩, behind⟩

theorem scanItem_resumes (place : Position) (c : Char) (rest : List Char)
    (here : Cursor.In ⟨c :: rest, place⟩ text missed) :
    Resumes text missed place (scanItem place c rest) := by
  unfold scanItem
  split
  · exact ⟨⟨place, rfl, here.place⟩, here.past⟩
  · exact ⟨⟨place, rfl, here.place⟩, here.past⟩
  · exact ⟨⟨place, rfl, here.place⟩, here.past⟩
  · exact scanString_resumes place rest here
  · exact scanWord_resumes place c rest here

theorem itemPlace?_scanItem (place : Position) (c : Char) (rest : List Char) :
    itemPlace? (scanItem place c rest).1 = foundAt place (scanItem place c rest).1 := by
  unfold scanItem
  split
  · rfl
  · rfl
  · rfl
  · simp only [scanString]
    generalize (stringBody place ⟨rest, place.past '"'⟩ [] (place.past '"') rest).1 = body
    cases body <;> rfl
  · simp only [scanWord]
    split <;> rfl

/-! All items. -/

theorem skipBlanks_solid (place here : Position) (text : List Char) (c : Char) (rest : List Char)
    (found : skipBlanks place text = ⟨c :: rest, here⟩) : isBlank c = false := by
  induction text generalizing place with
  | nil => cases found
  | cons d text ih =>
      by_cases blank : isBlank d = true
      · rw [skipBlanks, if_pos blank] at found
        exact ih _ found
      · rw [skipBlanks, if_neg blank] at found
        cases found
        exact Bool.eq_false_iff.mpr blank

theorem Scanner.items_cons (cursor : Cursor) (item : Except Fault Token)
    (later : List (Except Fault Token)) (found : items ⟨cursor, false⟩ = item :: later) :
    (∃ place, skipBlanks cursor.place cursor.rest = ⟨[], place⟩ ∧
        item = .ok ⟨.endOfInput, "", place⟩ ∧ later = []) ∨
      ∃ place c rest, skipBlanks cursor.place cursor.rest = ⟨c :: rest, place⟩ ∧
        item = (scanItem place c rest).1 ∧ later = items ⟨(scanItem place c rest).2, false⟩ := by
  cases here : skipBlanks cursor.place cursor.rest with
  | mk rest place =>
      cases rest with
      | nil =>
          rw [items_of_end _ _ _ here] at found
          obtain ⟨rfl, rfl⟩ := List.cons.inj found
          exact .inl ⟨place, rfl, rfl, rfl⟩
      | cons c rest =>
          rw [items_of_item _ _ _ _ _ here] at found
          obtain ⟨rfl, rfl⟩ := List.cons.inj found
          exact .inr ⟨place, c, rest, rfl, rfl, rfl⟩

/-- How many newlines are passed with items and counted nowhere. -/
def uncountedIn (items : List (Except Fault Token)) : Nat := (items.map uncounted).sum

-- By induction on the items in front of the one in question. Each of them leaves the scanner at a
-- cursor that is in the text again.
theorem itemPlace?_of_items (cursor : Cursor) (inside : cursor.In text missed)
    (front behind : List (Except Fault Token)) (item : Except Fault Token)
    (split : Scanner.items ⟨cursor, false⟩ = front ++ item :: behind) :
    ∃ place, itemPlace? item = some place ∧ place.In text (missed + uncountedIn front) := by
  have solid := inside.skipBlanks
  induction front generalizing cursor missed with
  | nil =>
      rcases Scanner.items_cons _ _ _ split with
        ⟨place, here, rfl, _⟩ | ⟨place, c, rest, here, rfl, _⟩
      · rw [here] at solid
        exact ⟨place, rfl, solid.place⟩
      · rw [here] at solid
        rw [itemPlace?_scanItem]
        exact (scanItem_resumes place c rest solid).1
  | cons first front ih =>
      rcases Scanner.items_cons _ _ _ split with
        ⟨place, here, _, missing⟩ | ⟨place, c, rest, here, rfl, later⟩
      · simp at missing
      · rw [here] at solid
        have next := (scanItem_resumes place c rest solid).2
        have found := ih _ next later.symm next.skipBlanks
        rwa [Nat.add_assoc] at found

/-- Places behind errors. Every item that the scanner gives out, behind any errors, has a place.
Its offset lies in the text, and its line is one more than the newlines before the offset, less
those that a backslash in front of them has kept from being counted so far. -/
theorem scan_places (source : String) (front behind : List (Except Fault Token))
    (item : Except Fault Token) (split : scan source = front ++ item :: behind) :
    ∃ place, itemPlace? item = some place ∧ place.offset ≤ source.utf8ByteSize ∧
      place.line + uncountedIn front = 1 + newlinesBefore source place.offset := by
  have start : Cursor.In ⟨source.toList, .start⟩ source.toList 0 := ⟨[], rfl, rfl, rfl⟩
  obtain ⟨place, found, inside⟩ := itemPlace?_of_items _ start front behind item split
  have bounds := inside.bounds
  rw [String.ofList_toList, Nat.zero_add] at bounds
  exact ⟨place, found, bounds⟩

theorem scan_places_escape :
    scan "\"\\\nx" = [.error (.malformed (.unknownEscape '\n') ⟨1, 1⟩)] ++
      .ok ⟨.identifier, "x", ⟨3, 1⟩⟩ :: [.ok ⟨.endOfInput, "", ⟨4, 1⟩⟩] ∧
    ∃ place, itemPlace? (.ok ⟨.identifier, "x", ⟨3, 1⟩⟩) = some place ∧
      place.line + 1 = 1 + newlinesBefore "\"\\\nx" place.offset := by
  have scanned : scan "\"\\\nx" = [.error (.malformed (.unknownEscape '\n') ⟨1, 1⟩)] ++
      .ok ⟨.identifier, "x", ⟨3, 1⟩⟩ :: [.ok ⟨.endOfInput, "", ⟨4, 1⟩⟩] := by
    cbv
  obtain ⟨place, found, _, line⟩ := scan_places _ _ _ _ scanned
  exact ⟨scanned, place, found, line⟩

/-- A newline behind a backslash is missing from the lines of all that stands behind it. -/
theorem scan_line_behind :
    ∃ source item place, item ∈ scan source ∧ itemPlace? item = some place ∧
      place.line ≠ 1 + newlinesBefore source place.offset := by
  refine ⟨"\"\\\nx", .ok ⟨.identifier, "x", ⟨3, 1⟩⟩, ⟨3, 1⟩, ?_, rfl, by decide⟩
  have scanned : scan "\"\\\nx" = [.error (.malformed (.unknownEscape '\n') ⟨1, 1⟩),
      .ok ⟨.identifier, "x", ⟨3, 1⟩⟩, .ok ⟨.endOfInput, "", ⟨4, 1⟩⟩] := by
    cbv
  rw [scanned]
  simp

end ChainScript
