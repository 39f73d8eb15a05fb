import Mathlib
import PrimeCover.Proofs.Coverage.Conservation
import PrimeCover.Proofs.Term.Exactness

/-!
# The recorded steps replay

A step names candidates by their patterns and minterms by their values, whereas the rules take entries out at the places
at which they find them. Nothing is lost by this. A place that a rule finds is that of the first occurrence of its entry
(`eraseIdx_of_row?`, `eraseIdx_of_column?`, `eraseIdx_of_single_place`), and an entry of an exact pool is determined by
its pattern, so the first entry with its pattern is the first one equal to it (`find?_pattern_eq`,
`eraseP_pattern_eq`). So whatever a rule does is done again by replaying the step that it reports
(`Fires.replayStep?_eq`), and by induction over a reduction, all its recorded steps lead from the start to its end. Main
statement: `reduce_steps_replay`.

Minterms and terms may repeat. Of two equal entries a rule drops the first one, and so does the replay.
-/

set_option autoImplicit false

namespace PrimeCover.Coverage

variable {c next : Coverage} {rule : Rule} {step : Step} {pool : List Term} {t : Term}

/-! ## Entries named by their patterns -/

/-- No entry before the first occurrence of a term has its pattern. -/
theorem exists_append_of_pattern (hexact : ∀ u ∈ pool, u.Exact) (ht : t ∈ pool) :
    ∃ before after, pool = before ++ t :: after ∧ ∀ u ∈ before, u.pattern ≠ t.pattern := by
  obtain ⟨before, after, hpool, hnot⟩ := List.eq_append_cons_of_mem ht
  refine ⟨before, after, hpool, ?_⟩
  intro u hu hpattern
  have hmem : u ∈ pool := by
    rw [hpool]
    exact List.mem_append_left _ hu
  have heq : u = t := (hexact u hmem).eq_of_pattern (hexact t ht) hpattern
  exact hnot (heq ▸ hu)

/-- The first entry with the pattern of an entry is equal to it. -/
theorem find?_pattern_eq (hexact : ∀ u ∈ pool, u.Exact) (ht : t ∈ pool) :
    pool.find? (·.pattern = t.pattern) = some t := by
  obtain ⟨before, after, hpool, hbefore⟩ := exists_append_of_pattern hexact ht
  refine List.find?_eq_some_iff_append.mpr ⟨decide_eq_true rfl, before, after, hpool, ?_⟩
  intro u hu
  simpa using hbefore u hu

/-- To drop the first entry with the pattern of an entry is to drop its first occurrence. -/
theorem eraseP_pattern_eq (hexact : ∀ u ∈ pool, u.Exact) (ht : t ∈ pool) :
    pool.eraseP (·.pattern = t.pattern) = pool.erase t := by
  obtain ⟨before, after, hpool, hbefore⟩ := exists_append_of_pattern hexact ht
  have hnot : t ∉ before := fun hmem => hbefore t hmem rfl
  have hpatterns : ∀ u ∈ before, ¬ decide (u.pattern = t.pattern) = true := by
    intro u hu
    simpa using hbefore u hu
  rw [hpool, List.erase_append_right _ hnot, List.erase_cons_head, List.eraseP_append_right _ hpatterns,
    List.eraseP_cons_of_pos]
  exact decide_eq_true rfl

/-! ## One step -/

/-- What a rule does is done again by replaying the step that it reports. -/
theorem Fires.replayStep?_eq (hexact : ∀ t ∈ c.candidates, t.Exact) (h : Fires c rule step next) :
    c.replayStep? step = some next := by
  cases h with
  | @essential m prime active single =>
    have hprime : prime ∈ c.candidates := (candidates_perm_of_single single).mem_iff.mpr List.mem_cons_self
    have hminterms : c.minterms.filter (· ∉ prime.pattern) = c.minterms.filter (· ∉ prime) := by
      apply List.filter_congr
      intro k _
      exact decide_eq_decide.mpr (not_congr (hexact prime hprime k).symm)
    simp only [replayStep?, find?_pattern_eq hexact hprime, eraseP_pattern_eq hexact hprime, hminterms,
      erase_of_single single]
    rfl
  | @row kept discarded kept_mem discarded_mem dominates =>
    have hany : c.candidates.any (·.pattern = discarded.pattern) = true :=
      List.any_eq_true.mpr ⟨discarded, discarded_mem, decide_eq_true rfl⟩
    simp only [replayStep?, hany, if_true, eraseP_pattern_eq hexact discarded_mem]
  | column kept_mem discarded_mem strict =>
    simp only [replayStep?, discarded_mem, if_true]

/-! ## Along a reduction -/

/-- The candidates are exact, and the recorded steps lead from the start to the problem. -/
structure Replays (start c : Coverage) : Prop where
  exact : ∀ t ∈ c.candidates, t.Exact
  replay?_eq : start.replay? c.steps = some { c with steps := [] }

/-- A recorded step is replayed where the steps before it are. -/
theorem Replays.fires {start : Coverage} (h : Replays start c) (hfires : Fires c rule step next) :
    Replays start { next with steps := next.steps ++ [step] } where
  exact := fun t ht => h.exact t (hfires.candidates_sublist.subset ht)
  replay?_eq := by
    have hstep : replayStep? { c with steps := [] } step = some { next with steps := [] } :=
      (hfires.with_steps []).replayStep?_eq h.exact
    calc start.replay? (next.steps ++ [step]) = start.replay? (c.steps ++ [step]) := by rw [hfires.steps_eq]
      _ = (start.replay? c.steps).bind fun d => d.replayStep? step := by
        unfold replay?
        rw [List.foldlM_append]
        simp
      _ = some { next with steps := [] } := by rw [h.replay?_eq, Option.bind_some, hstep]

/-- From the lists of the start, the steps that a reduction records can be carried out one after the other, each
naming what is there, and they end in the minterms, the candidates and the primes that the reduction ends in. The
reduction takes entries out at the places at which it finds them; the steps name patterns and minterms only. -/
theorem reduce_steps_replay (minterms : List Nat) (hpool : ∀ t ∈ pool, t.Built) :
    (start minterms pool).replay? (start minterms pool).reduce.steps =
      some { (start minterms pool).reduce with steps := [] } := by
  have hstart : Replays (start minterms pool) (start minterms pool) := ⟨fun t ht => (hpool t ht).exact, rfl⟩
  have hend : Replays (start minterms pool) (start minterms pool).reduce := by
    refine reduce_invariant ?_ hstart
    intro c rule step next hc hfires
    exact hc.fires hfires
  exact hend.replay?_eq

/-- The mixed pool is made of whole patterns. -/
theorem built_of_mem_mixedPool : ∀ t ∈ mixedPool, t.Built := by
  unfold mixedPool
  simp only [List.forall_mem_cons, Term.Built.ofPattern, true_and]
  intro t ht
  exact absurd ht List.not_mem_nil

/-- The run of the mixed pool takes a step of each rule, and minterms and terms repeat. -/
theorem reduce_steps_replay_mixed :
    (∀ t ∈ mixedPool, t.Built) ∧
      (start [1, 0, 2, 3, 1] mixedPool).replay? (start [1, 0, 2, 3, 1] mixedPool).reduce.steps =
        some { (start [1, 0, 2, 3, 1] mixedPool).reduce with steps := [] } :=
  ⟨built_of_mem_mixedPool, reduce_steps_replay [1, 0, 2, 3, 1] built_of_mem_mixedPool⟩

end PrimeCover.Coverage
