import Mathlib
import PrimeCover.Proofs.NameTable
import PrimeCover.Proofs.Traversal

/-!
# Accepted and refused lists of names

A list of names is accepted when it has at most ten entries, each is a name and none repeats an earlier one. Otherwise
some place is blocked (`Blocks`), and the first blocked place decides the fault (`Refuses`): an entry that is no name is
reported as such, then one that repeats an earlier one, and only then the lack of room. What stands before the first
blocked place is a table, and so it is the eleventh place that lacks room. Main statement: `ofList_accepts_iff_unblocked`.
-/

set_option autoImplicit false

namespace PrimeCover

namespace Text

variable {c : Char} {text : String}

/-- An ASCII letter. -/
def IsLetter (c : Char) : Prop :=
  'a' ≤ c ∧ c ≤ 'z' ∨ 'A' ≤ c ∧ c ≤ 'Z'

/-- An ASCII letter or an underscore, and then ASCII letters, ASCII digits and underscores only. -/
inductive IsName : List Char → Prop where
  | intro {first : Char} {rest : List Char} (starts : IsLetter first ∨ first = '_')
      (continues : ∀ c ∈ rest, IsLetter c ∨ '0' ≤ c ∧ c ≤ '9' ∨ c = '_') : IsName (first :: rest)

/-- The letters are those of ASCII. -/
theorem isAlpha_iff : c.isAlpha = true ↔ IsLetter c := by
  simp [Char.isAlpha, Char.isUpper, Char.isLower, IsLetter, Char.le_def, or_comm]

/-- The digits are those of ASCII. -/
theorem isDigit_iff : c.isDigit = true ↔ '0' ≤ c ∧ c ≤ '9' := by
  simp [Char.isDigit, Char.le_def]

/-- An identifier starts with a letter or an underscore. -/
theorem isIdentifierStart_iff : isIdentifierStart c = true ↔ IsLetter c ∨ c = '_' := by
  rw [isIdentifierStart, Bool.or_eq_true, isAlpha_iff, beq_iff_eq]

/-- An identifier goes on with letters, digits and underscores. -/
theorem isIdentifierPart_iff : isIdentifierPart c = true ↔ IsLetter c ∨ '0' ≤ c ∧ c ≤ '9' ∨ c = '_' := by
  rw [isIdentifierPart, Char.isAlphanum, Bool.or_eq_true, Bool.or_eq_true, isAlpha_iff, isDigit_iff, beq_iff_eq, or_assoc]

/-- The test for identifiers decides what a name is. -/
theorem isIdentifier_iff_isName : isIdentifier text = true ↔ IsName text.toList := by
  rw [isIdentifier_iff]
  constructor
  · rintro ⟨first, rest, htext, hfirst, hrest⟩
    rw [htext]
    exact .intro (isIdentifierStart_iff.mp hfirst) fun c hc => isIdentifierPart_iff.mp (hrest c hc)
  · intro hname
    cases htext : text.toList with
    | nil => rw [htext] at hname; cases hname
    | cons first rest =>
      rw [htext] at hname
      cases hname with
      | intro starts continues =>
        exact ⟨first, rest, rfl, isIdentifierStart_iff.mpr starts, fun c hc => isIdentifierPart_iff.mpr (continues c hc)⟩

end Text

namespace NameTable

variable {table : NameTable} {name : String} {names : List String} {place : Nat} {fault other : Fault}

/-- The entry at a place is no name, or repeats an earlier one, or stands behind ten others. -/
def Blocks (names : List String) (place : Nat) : Prop :=
  ∃ name, names[place]? = some name ∧
    (¬ Text.IsName name.toList ∨ name ∈ names.take place ∨ 10 ≤ place)

/-- Why an entry cannot be added to those before it. -/
inductive Refuses (names : List String) (place : Nat) : Fault → Prop where
  /-- It is no name. -/
  | invalid {name : String} (entry : names[place]? = some name) (bad : ¬ Text.IsName name.toList) :
      Refuses names place (.invalidName name)
  /-- It is a name that stands before. -/
  | repeated {name : String} (entry : names[place]? = some name) (good : Text.IsName name.toList)
      (again : name ∈ names.take place) : Refuses names place (.conflictingName name)
  /-- It is a new name without room. -/
  | noRoom {name : String} (entry : names[place]? = some name) (good : Text.IsName name.toList)
      (new : name ∉ names.take place) (late : 10 ≤ place) : Refuses names place (.tooManyVariables 11 10)

/-- A place at which a name is refused blocks the list. -/
theorem Refuses.blocks (h : Refuses names place fault) : Blocks names place := by
  cases h with
  | invalid entry bad => exact ⟨_, entry, .inl bad⟩
  | repeated entry good again => exact ⟨_, entry, .inr (.inl again)⟩
  | noRoom entry good new late => exact ⟨_, entry, .inr (.inr late)⟩

/-- A name is refused for one reason only. -/
theorem Refuses.unique (h : Refuses names place fault) (hother : Refuses names place other) : fault = other := by
  cases h <;> cases hother <;> simp_all

/-! ## Adding a name -/

/-- What stands in a table is not blocked. -/
theorem not_blocks_of_lt (h : names.take table.length = table.names) (hplace : place < table.length) :
    ¬ Blocks names place := by
  rintro ⟨name, entry, hblock⟩
  have hat : table.names[place]? = some name := by rw [← h, List.getElem?_take_of_lt hplace, entry]
  obtain ⟨hlt, hname⟩ := List.getElem?_eq_some_iff.mp hat
  rcases hblock with bad | again | late
  · have hmem : name ∈ table.names := List.mem_of_getElem? hat
    exact bad (Text.isIdentifier_iff_isName.mp (table.identifiers name hmem))
  · have hbefore : table.names.take place = names.take place := by
      rw [← h, List.take_take, Nat.min_eq_left hplace.le]
    rw [← hbefore, List.mem_take_iff_getElem] at again
    obtain ⟨earlier, hearlier, hsame⟩ := again
    have hequal : earlier = place := (table.distinct.getElem_inj_iff).mp (hsame.trans hname.symm)
    omega
  · have hroom : table.names.length ≤ 10 := table.length_le
    exact absurd (hplace.trans_le hroom) (Nat.not_lt.mpr late)

/-- A name that cannot be added is refused for the first reason that there is. -/
theorem refuses_of_push (h : table.push name = .error fault) (hfront : names.take table.length = table.names)
    (entry : names[table.length]? = some name) : Refuses names table.length fault := by
  unfold push at h
  split_ifs at h with valid taken room
  · cases h
    exact .repeated entry (Text.isIdentifier_iff_isName.mp valid) (hfront ▸ taken)
  · cases h
    have hfull : table.names.length = 10 := Nat.le_antisymm table.length_le (Nat.le_of_not_lt room)
    rw [hfull]
    refine .noRoom entry (Text.isIdentifier_iff_isName.mp valid) (hfront ▸ taken) hfull.ge
  · cases h
    exact .invalid entry fun good => valid (Text.isIdentifier_iff_isName.mpr good)

/-! ## Lists of names -/

/-- A list that is refused is refused for what is wrong at the first place that blocks it. -/
theorem exists_least_blocks_of_ofList (h : ofList names = .error fault) :
    ∃ place, IsLeast {place | Blocks names place} place ∧ Refuses names place fault := by
  obtain ⟨front, name, back, table, rfl, hfront, hpush⟩ := exists_of_foldlM_eq_error h
  obtain rfl : table.names = front := ofList_eq_ok_iff.mp hfront
  have htake : (table.names ++ name :: back).take table.length = table.names := List.take_left
  have entry : (table.names ++ name :: back)[table.length]? = some name := by
    rw [length, List.getElem?_append_right le_rfl, Nat.sub_self, List.getElem?_cons_zero]
  have hrefused := refuses_of_push hpush htake entry
  refine ⟨table.length, ⟨hrefused.blocks, ?_⟩, hrefused⟩
  intro place hblocks
  by_contra hlt
  exact not_blocks_of_lt htake (Nat.lt_of_not_le hlt) hblocks

/-- The fault of a list of names is that of the first place that blocks it. -/
theorem ofList_eq_error_iff :
    ofList names = .error fault ↔ ∃ place, IsLeast {place | Blocks names place} place ∧ Refuses names place fault := by
  refine ⟨exists_least_blocks_of_ofList, ?_⟩
  rintro ⟨place, hleast, hrefused⟩
  cases hresult : ofList names with
  | ok table =>
    obtain rfl := ofList_eq_ok_iff.mp hresult
    obtain ⟨name, entry, -⟩ := hleast.1
    have hplace : place < table.length := (List.getElem?_eq_some_iff.mp entry).1
    exact absurd hleast.1 (not_blocks_of_lt List.take_length hplace)
  | error other =>
    obtain ⟨first, hfirst, hother⟩ := exists_least_blocks_of_ofList hresult
    obtain rfl := hfirst.unique hleast
    rw [hother.unique hrefused]

/-- A list of names is accepted exactly when there are at most ten names, all of them good and distinct. -/
theorem exists_ofList_eq_ok_iff :
    (∃ table, ofList names = .ok table) ↔
      names.length ≤ 10 ∧ (∀ name ∈ names, Text.IsName name.toList) ∧ names.Nodup := by
  simp only [ofList_eq_ok_iff, ← Text.isIdentifier_iff_isName]
  constructor
  · rintro ⟨table, rfl⟩
    exact ⟨table.length_le, table.identifiers, table.distinct⟩
  · rintro ⟨fits, valid, distinct⟩
    exact ⟨⟨names, valid, distinct, fits⟩, rfl⟩

/-- A list of names is accepted exactly when it has at most ten entries, each of them is a name and no two are equal; the
table then holds the entries in order. Otherwise the first place that is blocked decides the fault: its entry is no
name, or it is one and repeats an earlier entry, or it is a new name, and then it is an eleventh one. -/
theorem ofList_accepts_iff_unblocked (names : List String) :
    ((∃ table, ofList names = .ok table) ↔
      names.length ≤ 10 ∧ (∀ name ∈ names, Text.IsName name.toList) ∧ names.Nodup) ∧
    (∀ table, ofList names = .ok table ↔ table.names = names) ∧
    ∀ fault, ofList names = .error fault ↔
      ∃ place, IsLeast {place | Blocks names place} place ∧ Refuses names place fault :=
  ⟨exists_ofList_eq_ok_iff, fun _ => ofList_eq_ok_iff, fun _ => ofList_eq_error_iff⟩

-- a name with a line break behind it is no name, and that it is the eleventh entry does not matter
example : ofList (["a", "b", "c", "d", "e", "f", "g", "h", "i", "j"] ++ ["k\n"]) = .error (.invalidName "k\n") := by decide

end NameTable

end PrimeCover
