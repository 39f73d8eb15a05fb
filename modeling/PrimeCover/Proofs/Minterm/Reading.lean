import Mathlib
import PrimeCover.Proofs.Minimization.Record
import PrimeCover.Proofs.Minterm.Spelling
import PrimeCover.Proofs.Traversal

/-!
# What is read from a list of tokens

`Reads` relates a list of tokens to what reading it gives, case by case: the first token that spells no minterm is
reported before anything else; then the first minterm that repeats an earlier one; then the number of digits of the
largest minterm, if there are too many; and otherwise the minterms are accepted, in the order of the tokens. Every text
has exactly one list of tokens, and what `parse` answers is what `Reads` relates to it (`parse_eq_iff_reads`). In
particular whatever spells a list of distinct minterms below 1024 is read back to it.
-/

set_option autoImplicit false

namespace PrimeCover.Minterm

variable {seen minterms before after : List Nat} {m top : Nat} {tokens : List (List Char)}
  {outcome : Except Fault (List Nat)}

/-- What reading a list of tokens gives. -/
inductive Reads : List (List Char) → Except Fault (List Nat) → Prop where
  /-- The first token that spells no minterm is reported, whatever stands around it. -/
  | badToken {before after : List (List Char)} {token : List Char} (spelled : ∀ t ∈ before, ∃ m, Spells t m)
      (bad : ¬ ∃ m, Spells token m) :
      Reads (before ++ token :: after) (.error (.notAMinterm (String.ofList token)))
  /-- The first minterm that stands among those before it is reported, however large the minterms are. -/
  | repeated {tokens : List (List Char)} {before after : List Nat} {m : Nat}
      (spelled : List.Forall₂ Spells tokens (before ++ m :: after)) (distinct : before.Nodup) (again : m ∈ before) :
      Reads tokens (.error (.duplicateMinterm m))
  /-- The number of digits of the largest minterm is reported when there is no room for them. -/
  | tooLarge {tokens : List (List Char)} {minterms : List Nat} {top : Nat}
      (spelled : List.Forall₂ Spells tokens minterms) (distinct : minterms.Nodup)
      (largest : minterms.max? = some top) (large : 1024 ≤ top) :
      Reads tokens (.error (.tooManyVariables (Binary.length top) maxVariables))
  /-- Distinct minterms for which there is room are accepted. -/
  | accepted {tokens : List (List Char)} {minterms : List Nat} (spelled : List.Forall₂ Spells tokens minterms)
      (distinct : minterms.Nodup) (small : ∀ m ∈ minterms, m < 1024) : Reads tokens (.ok minterms)

/-! ## The check of a list -/

/-- The first repeat is the first number that stands before it or was seen already. -/
theorem firstRepeat?_eq_some_iff :
    firstRepeat? seen minterms = some m ↔
      ∃ before after, minterms = before ++ m :: after ∧ before.Nodup ∧ (∀ k ∈ before, k ∉ seen) ∧
        (m ∈ before ∨ m ∈ seen) := by
  induction minterms generalizing seen with
  | nil => simp [firstRepeat?]
  | cons a rest ih =>
    rw [firstRepeat?]
    split
    · next hseen =>
      rw [Option.some.injEq]
      constructor
      · rintro rfl
        exact ⟨[], rest, rfl, List.nodup_nil, fun k hk => absurd hk List.not_mem_nil, Or.inr hseen⟩
      · rintro ⟨before, after, hsplit, -, hfresh, -⟩
        rcases List.cons_eq_append_iff.mp hsplit with ⟨rfl, hhead⟩ | ⟨others, rfl, -⟩
        · exact (List.cons.inj hhead).1.symm
        · exact absurd hseen (hfresh a List.mem_cons_self)
    · next hseen =>
      rw [ih]
      constructor
      · rintro ⟨before, after, rfl, hnodup, hfresh, hagain⟩
        refine ⟨a :: before, after, rfl, List.nodup_cons.mpr ⟨?_, hnodup⟩, List.forall_mem_cons.mpr ⟨hseen, ?_⟩, ?_⟩
        · exact fun ha => hfresh a ha List.mem_cons_self
        · exact fun k hk hkseen => hfresh k hk (List.mem_cons_of_mem a hkseen)
        · simp only [List.mem_cons] at hagain ⊢
          tauto
      · rintro ⟨before, after, hsplit, hnodup, hfresh, hagain⟩
        rcases List.cons_eq_append_iff.mp hsplit with ⟨rfl, hhead⟩ | ⟨others, rfl, hrest⟩
        · rw [(List.cons.inj hhead).1] at hagain
          exact absurd (hagain.resolve_left List.not_mem_nil) hseen
        · obtain ⟨habsent, hothers⟩ := List.nodup_cons.mp hnodup
          refine ⟨others, after, hrest, hothers, ?_, ?_⟩
          · intro k hk hkseen
            rcases List.mem_cons.mp hkseen with rfl | hkseen
            · exact habsent hk
            · exact hfresh k (List.mem_cons_of_mem a hk) hkseen
          · simp only [List.mem_cons] at hagain ⊢
            tauto

/-- A number that stands twice is refused, whatever comes after it. -/
theorem check_of_repeated (distinct : before.Nodup) (again : m ∈ before) :
    check (before ++ m :: after) = .error (.duplicateMinterm m) := by
  have hfirst : firstRepeat? [] (before ++ m :: after) = some m :=
    firstRepeat?_eq_some_iff.mpr ⟨before, after, rfl, distinct, fun k _ => List.not_mem_nil, Or.inl again⟩
  unfold check
  rw [hfirst]

/-- Distinct minterms are refused for the digits of the largest one. -/
theorem check_of_tooLarge (distinct : minterms.Nodup) (largest : minterms.max? = some top) (large : 1024 ≤ top) :
    check minterms = .error (.tooManyVariables (Binary.length top) maxVariables) := by
  have hwide : ¬ width minterms ≤ maxVariables := by
    intro hwidth
    have hlt := (width_le_iff_lt (by decide)).mp hwidth top (List.max?_eq_some_iff.mp largest).1
    exact absurd hlt (Nat.not_lt.mpr large)
  rw [check_of_nodup distinct, if_neg hwide, width_eq_length_of_max? largest]

/-! ## Reading -/

/-- A token that is no minterm is reported before anything else. -/
theorem parse_of_error {text : String} {fault : Fault}
    (h : (Text.tokens text.toList).mapM ofToken = .error fault) : parse text = .error fault := by
  unfold parse
  rw [h]
  rfl

/-- Tokens that spell minterms are checked as a list. -/
theorem parse_of_ok {text : String} (h : (Text.tokens text.toList).mapM ofToken = .ok minterms) :
    parse text = (check minterms).map fun _ => minterms := by
  unfold parse
  rw [h]
  show (do check minterms; pure minterms) = _
  cases check minterms <;> rfl

/-- Tokens are read exactly when each of them spells a minterm. -/
theorem mapM_ofToken_eq_ok_iff : tokens.mapM ofToken = .ok minterms ↔ List.Forall₂ Spells tokens minterms := by
  rw [mapM_eq_ok_iff]
  simp only [ofToken_eq_ok_iff]

/-- Tokens that spell minterms have the outcome of the check. -/
theorem reads_of_check (spelled : List.Forall₂ Spells tokens minterms) :
    Reads tokens ((check minterms).map fun _ => minterms) := by
  cases hfirst : firstRepeat? [] minterms with
  | some m =>
    obtain ⟨before, after, rfl, distinct, -, hagain⟩ := firstRepeat?_eq_some_iff.mp hfirst
    have again : m ∈ before := hagain.resolve_right List.not_mem_nil
    rw [check_of_repeated distinct again]
    exact .repeated spelled distinct again
  | none =>
    have distinct : minterms.Nodup := firstRepeat?_nil_eq_none_iff.mp hfirst
    by_cases small : ∀ m ∈ minterms, m < 1024
    · rw [check_eq_ok_iff.mpr ⟨distinct, small⟩]
      exact .accepted spelled distinct small
    · push Not at small
      obtain ⟨m, hm, hlarge⟩ := small
      obtain ⟨top, largest⟩ := Option.ne_none_iff_exists'.mp (mt List.max?_eq_none_iff.mp (List.ne_nil_of_mem hm))
      have large : 1024 ≤ top := Nat.le_trans hlarge ((List.max?_eq_some_iff.mp largest).2 m hm)
      rw [check_of_tooLarge distinct largest large]
      exact .tooLarge spelled distinct largest large

/-- What a text is read as is the outcome of its tokens. -/
theorem reads_parse (text : String) : Reads (Text.tokens text.toList) (parse text) := by
  cases hread : (Text.tokens text.toList).mapM ofToken with
  | error fault =>
    obtain ⟨before, token, after, hsplit, hbefore, htoken⟩ := mapM_eq_error_iff.mp hread
    obtain ⟨hbad, rfl⟩ := ofToken_eq_error_iff.mp htoken
    rw [parse_of_error hread, hsplit]
    exact .badToken (fun t ht => (hbefore t ht).imp fun _ => ofToken_eq_ok_iff.mp) hbad
  | ok minterms =>
    rw [parse_of_ok hread]
    exact reads_of_check (mapM_ofToken_eq_ok_iff.mp hread)

/-- The outcome of the tokens of a text is what it is read as, since there is only one. -/
theorem parse_eq_of_reads {text : String} (htokens : Text.tokens text.toList = tokens) (h : Reads tokens outcome) :
    parse text = outcome := by
  cases h with
  | @badToken before after token spelled bad =>
    apply parse_of_error
    rw [htokens, mapM_eq_error_iff]
    exact ⟨before, token, after, rfl, fun t ht => (spelled t ht).imp fun _ => ofToken_eq_ok_iff.mpr,
      ofToken_eq_error_iff.mpr ⟨bad, rfl⟩⟩
  | repeated spelled distinct again =>
    rw [parse_of_ok (htokens ▸ mapM_ofToken_eq_ok_iff.mpr spelled), check_of_repeated distinct again]
    rfl
  | tooLarge spelled distinct largest large =>
    rw [parse_of_ok (htokens ▸ mapM_ofToken_eq_ok_iff.mpr spelled), check_of_tooLarge distinct largest large]
    rfl
  | accepted spelled distinct small =>
    rw [parse_of_ok (htokens ▸ mapM_ofToken_eq_ok_iff.mpr spelled), check_eq_ok_iff.mpr ⟨distinct, small⟩]
    rfl

/-- A text has one list of tokens, and what is read from it is what `Reads` says of this list. Whatever spells distinct
minterms below 1024, with zeros in front of the numbers and gaps around them, is read back to these minterms, and
they can be minimized. -/
theorem parse_eq_iff_reads (text : String) :
    (∃ tokens, (∀ other, Text.Spaced other text.toList ↔ other = tokens) ∧
        ∀ outcome, parse text = outcome ↔ Reads tokens outcome) ∧
      ∀ tokens minterms, Text.Spaced tokens text.toList →
        List.Forall₂ (fun token m => ∃ zeros, token = List.replicate zeros '0' ++ m.repr.toList) tokens minterms →
        minterms.Nodup → (∀ m ∈ minterms, m < 1024) →
          parse text = .ok minterms ∧ ∃ solutions, minimize minterms = .ok solutions := by
  constructor
  · refine ⟨Text.tokens text.toList, fun other => Text.spaced_iff, ?_⟩
    intro outcome
    constructor
    · rintro rfl
      exact reads_parse text
    · exact parse_eq_of_reads rfl
  · intro tokens minterms hspaced hpadded distinct small
    have spelled : List.Forall₂ Spells tokens minterms := by
      have hbounded := (List.forall₂_and_left _ _).mpr ⟨small, hpadded.flip⟩
      refine (hbounded.imp ?_).flip
      rintro m token ⟨hm, zeros, rfl⟩
      exact spells_padded zeros (by omega)
    refine ⟨parse_eq_of_reads (Text.spaced_iff.mp hspaced).symm (.accepted spelled distinct small), ?_⟩
    obtain ⟨record, hsolve, -⟩ := Minimization.exists_isRecordOf (check_eq_ok_iff.mpr ⟨distinct, small⟩)
    refine ⟨record.solutions, ?_⟩
    rw [minimize_eq_map, hsolve]
    rfl

end PrimeCover.Minterm
