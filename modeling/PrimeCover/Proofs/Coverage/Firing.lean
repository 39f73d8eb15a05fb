import Mathlib
import PrimeCover.Proofs.Coverage.FixedPoint
import PrimeCover.Proofs.Coverage.Selection

/-!
# When a rule fires, and what it changes

`Enabled` says for each rule what it looks for, without saying how the rule searches. `Changes` says what a step of the
rule may do, without saying how the rule computes what it leaves: one entry is taken out of the pool, or out of the
active minterms, and everything that the step does not name keeps its value and its place. Main statement:
`tryRule_fires_iff_enabled`. A rule that is tried fires exactly when it is enabled, it then makes one of the changes of
its kind, and otherwise it leaves the problem as it was.

Nothing is assumed about the problem, so the statement holds of every problem that rules can reach. Its minterms and
candidates may repeat, some minterms may have no candidate, and candidates may dominate each other.
-/

set_option autoImplicit false

namespace PrimeCover.Coverage

variable {c next : Coverage} {rule : Rule} {step : Step}

/-! ## What a rule looks for -/

/-- The candidates that cover the first minterm are among those that cover the second one, and not all of them. -/
def HasFewerCovers (c : Coverage) (kept discarded : Nat) : Prop :=
  (∀ t ∈ c.candidates, kept ∈ t → discarded ∈ t) ∧ ∃ t ∈ c.candidates, discarded ∈ t ∧ kept ∉ t

/-- There is something for the rule to do: an active minterm that exactly one candidate covers, a candidate that
covers strictly more than another one, or an active minterm with strictly fewer candidates than another one. -/
def Enabled (c : Coverage) : Rule → Prop
  | .essential => ∃ m ∈ c.minterms, c.candidates.countP (m ∈ ·) = 1
  | .row => ∃ kept ∈ c.candidates, ∃ discarded ∈ c.candidates, discarded.covered ⊂ kept.covered
  | .column => ∃ kept ∈ c.minterms, ∃ discarded ∈ c.minterms, c.HasFewerCovers kept discarded

/-- A rule finds nothing exactly when there is nothing for it to do. -/
theorem fire?_eq_none_iff_not_enabled : c.fire? rule = none ↔ ¬ c.Enabled rule := by
  cases rule with
  | essential =>
    have hone : ∀ m, ¬ c.candidates.countP (m ∈ ·) = 1 ↔
        c.candidates.countP (m ∈ ·) = 0 ∨ 2 ≤ c.candidates.countP (m ∈ ·) := by
      intro m
      omega
    unfold fire? Enabled
    rw [Option.map_eq_none_iff, essential?_eq_none_iff_countP]
    simp only [not_exists, not_and, hone]
  | row =>
    unfold fire? Enabled
    rw [Option.map_eq_none_iff, row?_eq_none_iff]
    simp only [not_exists, not_and]
  | column =>
    unfold fire? Enabled HasFewerCovers
    rw [Option.map_eq_none_iff, column?_eq_none_iff]
    simp only [not_exists, not_and, ← column_ssubset_iff]

/-! ## What a step changes -/

/-- The changes that the steps of a rule make. What is not mentioned stays as it is, recorded steps included. -/
inductive Changes (c : Coverage) : Rule → Step → Coverage → Prop where
  /-- The only candidate that covers some active minterm moves from the pool to the end of the primes, and the
  minterms that it covers are no longer active. -/
  | essential {m : Nat} {prime : Term} {before after : List Term} (active : m ∈ c.minterms)
      (pool : c.candidates = before ++ prime :: after) (covers : m ∈ prime)
      (others : ∀ t ∈ before ++ after, m ∉ t) :
      Changes c .essential (.essential m prime.pattern)
        { c with
          minterms := c.minterms.filter (· ∉ prime)
          candidates := before ++ after
          primes := c.primes ++ [prime] }
  /-- One candidate leaves the pool, and one that stays covers strictly more. -/
  | row {kept discarded : Term} {before after : List Term} (pool : c.candidates = before ++ discarded :: after)
      (stays : kept ∈ before ++ after) (less : discarded.covered ⊂ kept.covered) :
      Changes c .row (.row kept.pattern discarded.pattern) { c with candidates := before ++ after }
  /-- One occurrence of an active minterm is dropped, and one that stays has strictly fewer candidates. -/
  | column {kept discarded : Nat} {before after : List Nat} (active : c.minterms = before ++ discarded :: after)
      (stays : kept ∈ before ++ after) (fewer : c.HasFewerCovers kept discarded) :
      Changes c .column (.column kept discarded) { c with minterms := before ++ after }

/-- Where one member is erased, another one stays. -/
theorem exists_append_of_mem_of_ne {α : Type} [DecidableEq α] {l : List α} {kept discarded : α} (hkept : kept ∈ l)
    (hdiscarded : discarded ∈ l) (hne : kept ≠ discarded) :
    ∃ before after, l = before ++ discarded :: after ∧ kept ∈ before ++ after ∧
      l.erase discarded = before ++ after := by
  obtain ⟨before, after, -, hl, herase⟩ := List.exists_erase_eq hdiscarded
  have hstays : kept ∈ l.erase discarded := (List.mem_erase_of_ne hne).mpr hkept
  exact ⟨before, after, hl, herase ▸ hstays, herase⟩

/-- A step of a rule makes a change of its kind. -/
theorem Fires.changes (h : Fires c rule step next) : Changes c rule step next := by
  cases h with
  | essential active single =>
    obtain ⟨before, after, hpool, hcovers, hothers, hrest⟩ := exists_append_of_single single
    rw [hrest]
    exact Changes.essential active hpool hcovers hothers
  | @row kept discarded kept_mem discarded_mem dominates =>
    have hne : kept ≠ discarded := by
      rintro rfl
      exact NatSet.not_ssubset_self _ dominates
    obtain ⟨before, after, hpool, hstays, hrest⟩ := exists_append_of_mem_of_ne kept_mem discarded_mem hne
    rw [hrest]
    exact Changes.row hpool hstays dominates
  | @column kept discarded kept_mem discarded_mem strict =>
    have hne : kept ≠ discarded := by
      rintro rfl
      exact NatSet.not_ssubset_self _ strict
    obtain ⟨before, after, hactive, hstays, hrest⟩ := exists_append_of_mem_of_ne kept_mem discarded_mem hne
    rw [hrest]
    exact Changes.column hactive hstays (column_ssubset_iff.mp strict)

/-- A rule that does not fire leaves the problem as it is. -/
theorem tryRule_of_none (h : c.fire? rule = none) : c.tryRule rule = (none, c) := by
  unfold tryRule
  rw [h]

/-- A rule that fires reports its step and what it leaves. -/
theorem tryRule_of_some (h : c.fire? rule = some (step, next)) : c.tryRule rule = (some step, next) := by
  unfold tryRule
  rw [h]

/-- A rule that is tried fires exactly when there is something for it to do. If it does not fire, the problem is left
as it was; if it does, the step that it reports is one of its kind that the problem allows, and nothing is changed but
what this step names. -/
theorem tryRule_fires_iff_enabled (c : Coverage) (rule : Rule) :
    ((c.tryRule rule).1.isSome = true ↔ c.Enabled rule) ∧
      ((c.tryRule rule).1 = none → (c.tryRule rule).2 = c) ∧
      ∀ step, (c.tryRule rule).1 = some step → c.Changes rule step (c.tryRule rule).2 := by
  cases hfire : c.fire? rule with
  | none =>
    have hnot : ¬ c.Enabled rule := fire?_eq_none_iff_not_enabled.mp hfire
    rw [tryRule_of_none hfire]
    refine ⟨iff_of_false Bool.false_ne_true hnot, fun _ => rfl, ?_⟩
    intro step hstep
    exact nomatch hstep
  | some found =>
    obtain ⟨step, next⟩ := found
    have henabled : c.Enabled rule := by
      by_contra hnot
      rw [fire?_eq_none_iff_not_enabled.mpr hnot] at hfire
      exact nomatch hfire
    rw [tryRule_of_some hfire]
    refine ⟨iff_of_true rfl henabled, ?_, ?_⟩
    · intro hnone
      exact nomatch hnone
    · rintro _ ⟨⟩
      exact (fires_of_fire? hfire).changes

end PrimeCover.Coverage
