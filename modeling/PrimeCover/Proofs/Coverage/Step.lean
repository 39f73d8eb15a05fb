import Mathlib
import PrimeCover.Proofs.Coverage.Places

/-!
# What a reduction step does

`Fires` lists all that an application of a rule can do to a coverage problem, guards included, and
`fires_of_fire?` says that `fire?` does nothing else: later modules reason by cases on `Fires` and never open a
rule again. In `Fires` what leaves a list is named by its value and not by its place: the places that the rules find are
those of first occurrences (`row?_eq`, `column?_eq`). A step only takes away, and it neither reads nor writes the steps
on record. `reduce_invariant` carries what every step preserves, recorded or not, to the end of a reduction,
`Reaches.invariant` carries it along every sequence of single applications and reductions, and
`isCovered_or_step?_eq_none` says where a reduction ends.
-/

set_option autoImplicit false

namespace PrimeCover.Coverage

variable {c d next : Coverage} {rule : Rule} {step : Step}

/-- One application of a rule: the guard under which it fires, the step it reports and what it leaves. -/
inductive Fires (c : Coverage) : Rule → Step → Coverage → Prop where
  /-- The only candidate that covers an active minterm moves to the primes. -/
  | essential {m : Nat} {prime : Term} (active : m ∈ c.minterms)
      (single : c.candidates.filter (m ∈ ·) = [prime]) :
      Fires c .essential (.essential m prime.pattern)
        { c with
          minterms := c.minterms.filter (· ∉ prime)
          candidates := c.candidates.filter (m ∉ ·)
          primes := c.primes ++ [prime] }
  /-- A dominated candidate leaves the pool. -/
  | row {kept discarded : Term} (kept_mem : kept ∈ c.candidates) (discarded_mem : discarded ∈ c.candidates)
      (dominates : kept.Dominates discarded) :
      Fires c .row (.row kept.pattern discarded.pattern) { c with candidates := c.candidates.erase discarded }
  /-- A minterm whose column strictly contains another one is dropped. -/
  | column {kept discarded : Nat} (kept_mem : kept ∈ c.minterms) (discarded_mem : discarded ∈ c.minterms)
      (strict : c.column kept ⊂ c.column discarded) :
      Fires c .column (.column kept discarded) { c with minterms := c.minterms.erase discarded }

/-- A rule does what `Fires` says: what it takes out at a place is the first occurrence of what its step names. -/
theorem fires_of_fire? (h : c.fire? rule = some (step, next)) : Fires c rule step next := by
  cases rule with
  | essential =>
    obtain ⟨⟨m, prime, place⟩, hfound, hsame⟩ := Option.map_eq_some_iff.mp h
    cases hsame
    obtain ⟨hactive, hplace⟩ := mem_of_essential? hfound
    rw [eraseIdx_of_single_place hplace]
    exact Fires.essential hactive (exists_single_place_iff.mp ⟨place, hplace⟩)
  | row =>
    obtain ⟨⟨kept, discarded⟩, hfound, hsame⟩ := Option.map_eq_some_iff.mp h
    cases hsame
    obtain ⟨hkept, hdiscarded, hdominates⟩ := mem_of_firstRelated? hfound
    rw [eraseIdx_of_row? hfound]
    exact Fires.row (List.fst_mem_of_mem_zipIdx hkept) (List.fst_mem_of_mem_zipIdx hdiscarded)
      (of_decide_eq_true hdominates)
  | column =>
    obtain ⟨⟨kept, discarded⟩, hfound, hsame⟩ := Option.map_eq_some_iff.mp h
    cases hsame
    obtain ⟨hkept, hdiscarded, hstrict⟩ := mem_of_column? hfound
    rw [eraseIdx_of_column? hfound]
    exact Fires.column (List.fst_mem_of_mem_zipIdx hkept) (List.fst_mem_of_mem_zipIdx hdiscarded) hstrict

/-- Every step that is recorded is a step of some rule. -/
theorem exists_fires_of_step? (h : c.step? = some (step, next)) : ∃ rule, Fires c rule step next := by
  obtain ⟨rule, -, hfired⟩ := List.exists_of_findSome?_eq_some h
  exact ⟨rule, fires_of_fire? hfired⟩

/-! ## What a step takes away -/

/-- A step only takes active minterms away. -/
theorem Fires.minterms_sublist (h : Fires c rule step next) : next.minterms.Sublist c.minterms := by
  cases h with
  | essential active single => exact List.filter_sublist
  | row kept_mem discarded_mem dominates => exact List.Sublist.refl _
  | column kept_mem discarded_mem strict => exact List.erase_sublist

/-- A step only takes candidates away. -/
theorem Fires.candidates_sublist (h : Fires c rule step next) : next.candidates.Sublist c.candidates := by
  cases h with
  | essential active single => exact List.filter_sublist
  | row kept_mem discarded_mem dominates => exact List.erase_sublist
  | column kept_mem discarded_mem strict => exact List.Sublist.refl _

/-! ## Recorded steps -/

/-- A step does not record itself. -/
theorem Fires.steps_eq (h : Fires c rule step next) : next.steps = c.steps := by
  cases h with
  | essential active single => rfl
  | row kept_mem discarded_mem dominates => rfl
  | column kept_mem discarded_mem strict => rfl

/-- The steps on record have no part in what a rule does. -/
theorem Fires.with_steps (h : Fires c rule step next) (steps : List Step) :
    Fires { c with steps := steps } rule step { next with steps := steps } := by
  cases h with
  | essential active single => exact Fires.essential active single
  | row kept_mem discarded_mem dominates => exact Fires.row kept_mem discarded_mem dominates
  | column kept_mem discarded_mem strict => exact Fires.column kept_mem discarded_mem strict

/-! ## Which rule is tried first -/

/-- No essential step is found exactly when no active minterm has a single candidate. -/
theorem essential?_eq_none_iff :
    c.essential? = none ↔ ∀ m ∈ c.minterms, ∀ t, c.candidates.filter (m ∈ ·) ≠ [t] := by
  unfold essential?
  rw [List.findSome?_eq_none_iff]
  apply forall₂_congr
  intro m _
  split
  · next prime place hplace =>
    have hsingle : c.candidates.filter (m ∈ ·) = [prime] := exists_single_place_iff.mp ⟨place, hplace⟩
    exact iff_of_false (Option.some_ne_none _) fun hnone => hnone prime hsingle
  · next hnot =>
    refine iff_of_true rfl ?_
    intro t ht
    obtain ⟨place, hplace⟩ := exists_single_place_iff.mpr ht
    exact hnot t place hplace

/-- Of the active minterms with a single candidate, the first one is found. -/
theorem le_of_essential? {m k place : Nat} {prime t : Term} (hsorted : c.minterms.Pairwise (· ≤ ·))
    (h : c.essential? = some (m, prime, place)) (hk : k ∈ c.minterms) (hsingle : c.candidates.filter (k ∈ ·) = [t]) :
    m ≤ k := by
  obtain ⟨before, first, after, hsplit, hfound, hnone⟩ := List.findSome?_eq_some_iff.mp h
  have hfirst : first = m := by
    split at hfound
    · exact congrArg Prod.fst (Option.some.inj hfound)
    · exact nomatch hfound
  rw [hsplit, List.mem_append, List.mem_cons] at hk
  rcases hk with hk | rfl | hk
  · have hskipped := hnone k hk
    obtain ⟨_, hplace⟩ := exists_single_place_iff.mpr hsingle
    rw [hplace] at hskipped
    exact nomatch hskipped
  · exact hfirst.ge
  · rw [hsplit, hfirst, List.pairwise_append, List.pairwise_cons] at hsorted
    exact hsorted.2.1.1 k hk

/-- A step is an essential one if there can be one, and the candidate is then that of the first such minterm. -/
theorem step?_cases (h : c.step? = some (step, next)) :
    (∃ m prime place, c.essential? = some (m, prime, place) ∧ step = .essential m prime.pattern ∧
        next = { c with
          minterms := c.minterms.filter (· ∉ prime)
          candidates := c.candidates.filter (m ∉ ·)
          primes := c.primes ++ [prime] }) ∨
      c.essential? = none ∧ (Fires c .row step next ∨ Fires c .column step next) := by
  unfold step? rules at h
  rw [List.findSome?_cons] at h
  split at h
  · next found hfound =>
    left
    obtain ⟨⟨m, prime, place⟩, hessential, hsame⟩ := Option.map_eq_some_iff.mp hfound
    cases h
    cases hsame
    rw [eraseIdx_of_single_place (mem_of_essential? hessential).2]
    exact ⟨m, prime, place, hessential, rfl, rfl⟩
  · next hnone =>
    right
    refine ⟨Option.map_eq_none_iff.mp hnone, ?_⟩
    obtain ⟨rule, hrule, hfired⟩ := List.exists_of_findSome?_eq_some h
    rcases List.mem_pair.mp hrule with rfl | rfl
    · exact Or.inl (fires_of_fire? hfired)
    · exact Or.inr (fires_of_fire? hfired)

/-- If no rule fires, there is no essential step. -/
theorem essential?_eq_none_of_step? (h : c.step? = none) : c.essential? = none := by
  have hnone : c.fire? .essential = none := List.findSome?_eq_none_iff.mp h _ List.mem_cons_self
  exact Option.map_eq_none_iff.mp hnone

/-! ## Runs -/

/-- What every recorded step preserves holds at the end of a reduction. The steps are those of `step?`, so that
no rule fires at them that is tried before their own. -/
theorem reduce_induction {Inv : Coverage → Prop}
    (hstep : ∀ c step next, Inv c → c.step? = some (step, next) → Inv { next with steps := next.steps ++ [step] })
    (h : Inv c) : Inv c.reduce := by
  fun_induction reduce c with
  | case1 c hcovered => exact h
  | case2 c hactive hnone => exact h
  | case3 c hactive step next hfired ih => exact ih (hstep c step next h hfired)

/-- What every application of a rule preserves, once its step is recorded, holds at the end of a reduction. -/
theorem reduce_invariant {Inv : Coverage → Prop}
    (hstep : ∀ c rule step next, Inv c → Fires c rule step next → Inv { next with steps := next.steps ++ [step] })
    (h : Inv c) : Inv c.reduce := by
  apply reduce_induction _ h
  intro c step next hc hfired
  obtain ⟨rule, hfires⟩ := exists_fires_of_step? hfired
  exact hstep c rule step next hc hfires

/-- What every application of a rule preserves, whatever steps are on record, holds of all that is reached by
single applications and whole reductions. -/
theorem Reaches.invariant {Inv : Coverage → Prop}
    (hfire : ∀ c rule step next, Inv c → Fires c rule step next → Inv next)
    (hrecord : ∀ c steps, Inv c → Inv { c with steps := steps })
    (h : Reaches c d) (hstart : Inv c) : Inv d := by
  induction h with
  | refl => exact hstart
  | fire before fired ih => exact hfire _ _ _ _ ih (fires_of_fire? fired)
  | reduce before ih =>
    apply reduce_invariant _ ih
    intro c rule step next hc hfires
    exact hrecord next _ (hfire c rule step next hc hfires)

/-- A reduction ends when every minterm is covered or no rule fires. -/
theorem isCovered_or_step?_eq_none (c : Coverage) : c.reduce.isCovered = true ∨ c.reduce.step? = none := by
  fun_induction reduce c with
  | case1 c hcovered => exact Or.inl hcovered
  | case2 c hactive hnone => exact Or.inr hnone
  | case3 c hactive step next hfired ih => exact ih

end PrimeCover.Coverage
