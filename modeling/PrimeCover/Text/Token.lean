/-!
# Tokens

A list is written as tokens with separators between them: commas, semicolons and blanks, in any number and
mixture. The blanks are the characters of the Unicode property White_Space: twenty-five code points, six of them
in ASCII. A token is a maximal nonempty run of characters that are no separators, so an empty token does not
exist and separators before the first or after the last token mean nothing. `Spaced` is the relation between
a list of tokens and its spellings, and `tokens_of_spaced` says that every spelling is read back.
-/

set_option autoImplicit false

namespace PrimeCover.Text

/-! ## Separators -/

/-- The ranges of code points that carry the property White_Space, both ends included. -/
def blankRanges : List (Nat × Nat) :=
  [(0x0009, 0x000D), (0x0020, 0x0020), (0x0085, 0x0085), (0x00A0, 0x00A0), (0x1680, 0x1680),
   (0x2000, 0x200A), (0x2028, 0x2029), (0x202F, 0x202F), (0x205F, 0x205F), (0x3000, 0x3000)]

/-- Whether a character is white space in Unicode. -/
def isBlank (c : Char) : Bool :=
  blankRanges.any fun (first, last) => first ≤ c.toNat && c.toNat ≤ last

/-- Whether a character stands between tokens. -/
def isSeparator (c : Char) : Bool :=
  c == ',' || c == ';' || isBlank c

/-! ## Tokens and their spellings -/

/-- The maximal nonempty runs of characters that are no separators, in order. -/
def tokens : List Char → List (List Char)
  | [] => []
  | c :: rest =>
    if isSeparator c then tokens rest
    else (c :: rest.takeWhile (!isSeparator ·)) :: tokens (rest.dropWhile (!isSeparator ·))
termination_by text => text.length
decreasing_by
  · exact Nat.lt_add_one _
  · exact Nat.lt_succ_of_le (List.dropWhile_sublist _).length_le

/-- A nonempty run of characters that are no separators. -/
def IsToken (token : List Char) : Prop :=
  token ≠ [] ∧ ∀ c ∈ token, isSeparator c = false

/-- A run of separators. -/
def IsGap (gap : List Char) : Prop :=
  ∀ c ∈ gap, isSeparator c = true

/-- The text spells the tokens in order: gaps stand around them, and no gap between two tokens is empty. -/
inductive Spaced : (tokens : List (List Char)) → (text : List Char) → Prop where
  | nil {gap : List Char} (blank : IsGap gap) : Spaced [] gap
  | last {gap token final : List Char} (blank : IsGap gap) (run : IsToken token) (closing : IsGap final) :
      Spaced [token] (gap ++ token ++ final)
  | cons {gap token next rest : List Char} {later : List (List Char)} {c : Char} (blank : IsGap gap)
      (run : IsToken token) (between : isSeparator c = true) (more : Spaced (next :: later) rest) :
      Spaced (token :: next :: later) (gap ++ token ++ c :: rest)

/-! ## Reading the spellings -/

/-- Separators in front of a text do not change its tokens. -/
theorem tokens_gap_append {gap : List Char} (blank : IsGap gap) (rest : List Char) :
    tokens (gap ++ rest) = tokens rest := by
  induction gap with
  | nil => rfl
  | cons c gap ih =>
    rw [List.cons_append, tokens, if_pos (blank c List.mem_cons_self)]
    exact ih fun d hd => blank d (List.mem_cons_of_mem c hd)

/-- A token in front of a text that is empty or starts with a separator is the first token. -/
theorem tokens_token_append {token rest : List Char} (run : IsToken token)
    (stop : rest.takeWhile (!isSeparator ·) = []) : tokens (token ++ rest) = token :: tokens rest := by
  obtain ⟨nonempty, plain⟩ := run
  cases token with
  | nil => exact absurd rfl nonempty
  | cons c token =>
    have first : isSeparator c = false := plain c List.mem_cons_self
    have others : ∀ d ∈ token, (!isSeparator d) = true := fun d hd => by
      rw [plain d (List.mem_cons_of_mem c hd)]; rfl
    have unread : rest.dropWhile (!isSeparator ·) = rest := by
      have whole := List.takeWhile_append_dropWhile (p := (!isSeparator ·)) (l := rest)
      rwa [stop, List.nil_append] at whole
    rw [List.cons_append, tokens, first, List.takeWhile_append_of_pos others,
      List.dropWhile_append_of_pos others, stop, unread, List.append_nil]
    rfl

/-- Every spelling of a list of tokens reads back to this list. -/
theorem tokens_of_spaced {parts : List (List Char)} {text : List Char} (spelled : Spaced parts text) :
    tokens text = parts := by
  have ends : ∀ gap : List Char, IsGap gap → tokens gap = [] := fun gap blank => by
    rw [← List.append_nil gap, tokens_gap_append blank, tokens]
  induction spelled with
  | nil blank => exact ends _ blank
  | @last gap token final blank run closing =>
    have stop : final.takeWhile (!isSeparator ·) = [] := by
      cases final with
      | nil => rfl
      | cons c final => rw [List.takeWhile_cons, closing c List.mem_cons_self]; rfl
    rw [List.append_assoc, tokens_gap_append blank, tokens_token_append run stop, ends _ closing]
  | @cons gap token next rest later c blank run between more ih =>
    have stop : (c :: rest).takeWhile (!isSeparator ·) = [] := by
      rw [List.takeWhile_cons, between]; rfl
    rw [List.append_assoc, tokens_gap_append blank, tokens_token_append run stop, tokens, if_pos between, ih]

/-! ## Every text is a spelling -/

/-- No character at all is a gap. -/
theorem isGap_nil : IsGap [] := fun _ hc => absurd hc List.not_mem_nil

/-- A separator in front of a gap makes a gap. -/
theorem IsGap.cons {gap : List Char} {c : Char} (separates : isSeparator c = true) (blank : IsGap gap) :
    IsGap (c :: gap) := fun _ hd => (List.mem_cons.mp hd).elim (fun same => same ▸ separates) (blank _)

/-- A separator in front of a spelling changes nothing. -/
theorem Spaced.cons_separator {parts : List (List Char)} {text : List Char} {c : Char} (h : Spaced parts text)
    (separates : isSeparator c = true) : Spaced parts (c :: text) := by
  cases h with
  | nil blank => exact .nil (blank.cons separates)
  | last blank run closing => exact .last (blank.cons separates) run closing
  | cons blank run between more => exact .cons (blank.cons separates) run between more

/-- A token and a separator in front of a spelling add the token. -/
theorem Spaced.cons_token {parts : List (List Char)} {token text : List Char} {c : Char} (h : Spaced parts text)
    (run : IsToken token) (separates : isSeparator c = true) : Spaced (token :: parts) (token ++ c :: text) := by
  cases parts with
  | nil =>
    cases h with
    | nil blank => exact .last isGap_nil run (blank.cons separates)
  | cons next later => exact .cons isGap_nil run separates h

/-- What ends a run of other characters is a separator. -/
theorem isSeparator_of_dropWhile_eq_cons {text rest : List Char} {c : Char}
    (h : text.dropWhile (!isSeparator ·) = c :: rest) : isSeparator c = true := by
  have stops := List.head?_dropWhile_not (!isSeparator ·) text
  rw [h] at stops
  simpa using stops

/-- A character that is no separator starts a token. -/
theorem isToken_takeWhile {c : Char} (first : isSeparator c = false) (rest : List Char) :
    IsToken (c :: rest.takeWhile (!isSeparator ·)) := by
  refine ⟨List.cons_ne_nil _ _, fun d hd => ?_⟩
  rcases List.mem_cons.mp hd with rfl | hd
  · exact first
  · simpa using List.all_eq_true.mp (List.all_takeWhile (p := (!isSeparator ·))) d hd

/-- Every text is a spelling of its tokens. -/
theorem spaced_tokens : (text : List Char) → Spaced (tokens text) text
  | [] => by
    rw [tokens]
    exact .nil isGap_nil
  | c :: rest => by
    rw [tokens]
    split
    · next separates => exact (spaced_tokens rest).cons_separator separates
    · next first =>
      have run := isToken_takeWhile (Bool.eq_false_iff.mpr first) rest
      have whole : c :: rest = (c :: rest.takeWhile (!isSeparator ·)) ++ rest.dropWhile (!isSeparator ·) := by
        rw [List.cons_append, List.takeWhile_append_dropWhile]
      rw [whole]
      cases hafter : rest.dropWhile (!isSeparator ·) with
      | nil =>
        rw [tokens]
        exact .last isGap_nil run isGap_nil
      | cons d later =>
        have separates := isSeparator_of_dropWhile_eq_cons hafter
        have shorter : later.length < (c :: rest).length := by
          have within := (List.dropWhile_sublist (l := rest) (!isSeparator ·)).length_le
          rw [hafter, List.length_cons] at within
          exact Nat.lt_succ_of_le (Nat.le_of_succ_le within)
        -- the separator that ends the token is no part of the next gap, so the rest of the text is read without it
        rw [tokens, if_pos separates]
        exact (spaced_tokens later).cons_token run separates
termination_by text => text.length
decreasing_by
  · exact shorter
  · exact Nat.lt_add_one _

/-- A text is a spelling of its tokens and of no other list. -/
theorem spaced_iff {parts : List (List Char)} {text : List Char} : Spaced parts text ↔ parts = tokens text :=
  ⟨fun spelled => (tokens_of_spaced spelled).symm, fun same => same ▸ spaced_tokens text⟩

end PrimeCover.Text
