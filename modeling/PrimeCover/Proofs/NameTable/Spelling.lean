import Mathlib
import PrimeCover.Proofs.NameTable.Acceptance

/-!
# Name tables as texts

No name holds a separator, so the names of a table are tokens (`isToken_of_isIdentifier`). A text is therefore read to a
table exactly when it spells the names of the table in order (`parse_eq_ok_iff`). Such texts are those with a nonempty
gap between two names and any gap in front of the first and behind the last one (`spaced_spread`); joining the names with
commas and blanks gives one of them. Main statement: `parse_reads_spellings`.
-/

set_option autoImplicit false

namespace PrimeCover

namespace Text

variable {c : Char} {text gap front separator : List Char} {parts : List (List Char)}
  {spelled : List (List Char × List Char)}

/-! ## Names are tokens -/

/-- No character of an identifier is a separator. -/
theorem isSeparator_of_isIdentifierPart (h : isIdentifierPart c = true) : isSeparator c = false := by
  have hcode : 48 ≤ c.toNat ∧ c.toNat ≤ 122 ∧ c.toNat ≠ 59 := by
    rcases isIdentifierPart_iff.mp h with (⟨hfirst, hlast⟩ | ⟨hfirst, hlast⟩) | ⟨hfirst, hlast⟩ | rfl
    · have hlow : 97 ≤ c.toNat := hfirst
      have hhigh : c.toNat ≤ 122 := hlast
      omega
    · have hlow : 65 ≤ c.toNat := hfirst
      have hhigh : c.toNat ≤ 90 := hlast
      omega
    · have hlow : 48 ≤ c.toNat := hfirst
      have hhigh : c.toNat ≤ 57 := hlast
      omega
    · decide
  have hcomma : c ≠ ',' := by
    rintro rfl
    exact absurd hcode.1 (by decide)
  have hsemicolon : c ≠ ';' := by
    rintro rfl
    exact hcode.2.2 rfl
  have hblank : isBlank c = false := by
    simp only [isBlank, blankRanges, List.any_cons, List.any_nil, Bool.or_false, Bool.or_eq_false_iff,
      Bool.and_eq_false_iff, decide_eq_false_iff_not]
    omega
  rw [isSeparator, hblank, beq_false_of_ne hcomma, beq_false_of_ne hsemicolon]
  rfl

/-- An identifier is a token. -/
theorem isToken_of_isIdentifier {name : String} (h : isIdentifier name = true) : IsToken name.toList := by
  constructor
  · obtain ⟨first, rest, hname, -⟩ := isIdentifier_iff.mp h
    rw [hname]
    exact List.cons_ne_nil first rest
  · intro c hc
    exact isSeparator_of_isIdentifierPart (isIdentifierPart_of_isIdentifier h hc)

/-! ## Tokens with gaps around them -/

/-- A gap in front of a spelling changes nothing. -/
theorem Spaced.gap_append (h : Spaced parts text) (blank : IsGap gap) : Spaced parts (gap ++ text) := by
  induction gap with
  | nil => exact h
  | cons c gap ih =>
    obtain ⟨separates, hgap⟩ := List.forall_mem_cons.mp blank
    exact (ih hgap).cons_separator separates

/-- A gap, and then each token with the gap behind it. -/
def spread (front : List Char) (spelled : List (List Char × List Char)) : List Char :=
  front ++ spelled.flatMap fun (token, gap) => token ++ gap

/-- Tokens that are spread with gaps are spelled, if no gap between two of them is empty. -/
theorem spaced_spread (blank : IsGap front) (runs : ∀ part ∈ spelled, IsToken part.1)
    (gaps : ∀ part ∈ spelled, IsGap part.2) (between : ∀ part ∈ spelled.dropLast, part.2 ≠ []) :
    Spaced (spelled.map Prod.fst) (spread front spelled) := by
  unfold spread
  refine Spaced.gap_append ?_ blank
  induction spelled with
  | nil => exact .nil isGap_nil
  | cons part later ih =>
    obtain ⟨token, gap⟩ := part
    obtain ⟨run, hruns⟩ := List.forall_mem_cons.mp runs
    obtain ⟨hgap, hgaps⟩ := List.forall_mem_cons.mp gaps
    cases later with
    | nil =>
      have hlast := Spaced.last isGap_nil run hgap
      simpa using hlast
    | cons next later =>
      rw [List.dropLast_cons_cons, List.forall_mem_cons] at between
      obtain ⟨c, rest, rfl⟩ := List.exists_cons_of_ne_nil between.1
      obtain ⟨separates, hrest⟩ := List.forall_mem_cons.mp hgap
      have hlater := ((ih hruns hgaps between.2).gap_append hrest).cons_token run separates
      simpa using hlater

/-- Tokens with the same nonempty gap between them are spelled. -/
theorem spaced_intercalate (blank : IsGap separator) (separates : separator ≠ [])
    (runs : ∀ token ∈ parts, IsToken token) : Spaced parts (separator.intercalate parts) := by
  induction parts with
  | nil => exact .nil isGap_nil
  | cons token later ih =>
    obtain ⟨run, hruns⟩ := List.forall_mem_cons.mp runs
    cases later with
    | nil =>
      have hlast := Spaced.last isGap_nil run isGap_nil
      simpa using hlast
    | cons next later =>
      obtain ⟨c, rest, rfl⟩ := List.exists_cons_of_ne_nil separates
      obtain ⟨hc, hrest⟩ := List.forall_mem_cons.mp blank
      have hlater := ((ih hruns).gap_append hrest).cons_token run hc
      simpa [List.intercalate_cons_cons] using hlater

end Text

namespace NameTable

variable {table : NameTable} {text : String}

/-- Every name of a table is a token. -/
theorem isToken_of_mem_names (table : NameTable) : ∀ token ∈ table.names.map String.toList, Text.IsToken token :=
  List.forall_mem_map.mpr fun name hname => Text.isToken_of_isIdentifier (table.identifiers name hname)

/-- A text is read to the table whose names it spells. -/
theorem parse_eq_ok_iff : parse text = .ok table ↔ Text.Spaced (table.names.map String.toList) text.toList := by
  rw [parse, ofList_eq_ok_iff, Text.spaced_iff]
  constructor
  · intro hnames
    rw [hnames, List.map_map]
    simp
  · intro htokens
    rw [← htokens, List.map_map]
    simp

/-- A table is read back from its text. -/
theorem parse_toString (table : NameTable) : parse (toString table) = .ok table := by
  have hgap : Text.IsGap [',', ' '] :=
    List.forall_mem_cons.mpr ⟨by decide, List.forall_mem_singleton.mpr (by decide)⟩
  have hjoined : (toString table).toList = [',', ' '].intercalate (table.names.map String.toList) :=
    String.toList_intercalate
  rw [parse_eq_ok_iff, hjoined]
  exact Text.spaced_intercalate hgap (List.cons_ne_nil _ _) (isToken_of_mem_names table)

/-- Every table is accepted as the list of its names, and its text is read back to it. So is every text made of its names
in order, with gaps of commas, semicolons and blanks around them, none of them empty between two names. And there are no
other texts that are read to it. -/
theorem parse_reads_spellings (table : NameTable) :
    ofList table.names = .ok table ∧
    parse (toString table) = .ok table ∧
    (∀ (front : List Char) (spelled : List (List Char × List Char)),
      spelled.map Prod.fst = table.names.map String.toList → Text.IsGap front →
      (∀ part ∈ spelled, Text.IsGap part.2) → (∀ part ∈ spelled.dropLast, part.2 ≠ []) →
        parse (String.ofList (Text.spread front spelled)) = .ok table) ∧
    ∀ text, parse text = .ok table ↔ Text.Spaced (table.names.map String.toList) text.toList := by
  refine ⟨ofList_eq_ok_iff.mpr rfl, parse_toString table, ?_, fun _ => parse_eq_ok_iff⟩
  intro front spelled htokens blank gaps between
  have runs : ∀ part ∈ spelled, Text.IsToken part.1 := by
    intro part hpart
    apply isToken_of_mem_names table
    rw [← htokens]
    exact List.mem_map_of_mem hpart
  rw [parse_eq_ok_iff, String.toList_ofList, ← htokens]
  exact Text.spaced_spread blank runs gaps between

end NameTable

end PrimeCover
