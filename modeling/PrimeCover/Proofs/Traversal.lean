import Mathlib

/-!
# Traversals that can fail

A function that can fail is applied to the entries of a list in order. The traversal succeeds when it succeeds at
every entry (`mapM_eq_ok_iff`), and otherwise it fails with the first failure (`mapM_eq_error_iff`). Which failure is
the first one does not matter when all entries fail alike (`mapM_eq_error_iff_of_alike`). A function that also takes what
was made of the earlier entries fails at one entry, after it succeeded at these (`exists_of_foldlM_eq_error`).
-/

set_option autoImplicit false

namespace PrimeCover

variable {α β ε : Type} {f : α → Except ε β} {a : α} {b : β} {l : List α} {results : List β} {fault : ε}

/-- A pure continuation adds no fault. -/
theorem bind_pure_eq_error_iff {x : Except ε α} {g : α → β} :
    (x >>= fun a => pure (g a)) = .error fault ↔ x = .error fault := by
  cases x <;> simp [bind, Except.bind, pure, Except.pure]

/-- A fault at the head is the fault of the whole traversal. -/
theorem mapM_cons_of_error (h : f a = .error fault) : (a :: l).mapM f = .error fault := by
  rw [List.mapM_cons, h]
  rfl

/-- After a result at the head the traversal goes on with the rest. -/
theorem mapM_cons_of_ok (h : f a = .ok b) : (a :: l).mapM f = (l.mapM f).map (b :: ·) := by
  rw [List.mapM_cons, h]
  cases l.mapM f with
  | error e => rfl
  | ok bs => rfl

/-- A traversal succeeds with the results of all entries in order. -/
theorem mapM_eq_ok_iff : l.mapM f = .ok results ↔ List.Forall₂ (fun a b => f a = .ok b) l results := by
  induction l generalizing results with
  | nil => simp [pure, Except.pure, eq_comm]
  | cons a l ih =>
    rw [List.forall₂_cons_left_iff]
    cases hfirst : f a with
    | error e =>
      rw [mapM_cons_of_error hfirst]
      simp
    | ok b =>
      rw [mapM_cons_of_ok hfirst]
      cases hrest : l.mapM f with
      | error e => simp [Except.map, ← ih, hrest]
      | ok bs => simp [Except.map, ← ih, hrest, eq_comm]

/-- A traversal in which every entry succeeds is a map. -/
theorem mapM_eq_ok_map {g : α → β} (h : ∀ a ∈ l, f a = .ok (g a)) : l.mapM f = .ok (l.map g) := by
  rw [mapM_eq_ok_iff, List.forall₂_map_right_iff, List.forall₂_same]
  exact h

/-- A traversal fails with the fault of the first entry that fails. -/
theorem mapM_eq_error_iff :
    l.mapM f = .error fault ↔
      ∃ before a after, l = before ++ a :: after ∧ (∀ x ∈ before, ∃ b, f x = .ok b) ∧ f a = .error fault := by
  induction l with
  | nil => simp [pure, Except.pure]
  | cons a l ih =>
    cases hfirst : f a with
    | error e =>
      rw [mapM_cons_of_error hfirst, Except.error.injEq]
      constructor
      · rintro rfl
        exact ⟨[], a, l, rfl, fun x hx => absurd hx List.not_mem_nil, hfirst⟩
      · rintro ⟨before, x, after, hsplit, hbefore, hx⟩
        rcases List.cons_eq_append_iff.mp hsplit with ⟨rfl, hhead⟩ | ⟨rest, rfl, -⟩
        · cases hhead
          exact Except.error.inj (hfirst.symm.trans hx)
        · obtain ⟨b, hb⟩ := hbefore a List.mem_cons_self
          exact nomatch hfirst.symm.trans hb
    | ok b =>
      have hskip : (l.mapM f).map (b :: ·) = .error fault ↔ l.mapM f = .error fault := by
        cases l.mapM f <;> simp [Except.map]
      rw [mapM_cons_of_ok hfirst, hskip, ih]
      constructor
      · rintro ⟨before, x, after, rfl, hbefore, hx⟩
        exact ⟨a :: before, x, after, rfl, List.forall_mem_cons.mpr ⟨⟨b, hfirst⟩, hbefore⟩, hx⟩
      · rintro ⟨before, x, after, hsplit, hbefore, hx⟩
        rcases List.cons_eq_append_iff.mp hsplit with ⟨rfl, hhead⟩ | ⟨rest, rfl, hrest⟩
        · cases hhead
          exact nomatch hfirst.symm.trans hx
        · exact ⟨rest, x, after, hrest, (List.forall_mem_cons.mp hbefore).2, hx⟩

/-- A traversal in which every entry succeeds does so itself. -/
theorem exists_mapM_eq_ok (h : ∀ a ∈ l, ∃ b, f a = .ok b) : ∃ results, l.mapM f = .ok results := by
  cases hresult : l.mapM f with
  | ok results => exact ⟨results, rfl⟩
  | error fault =>
    obtain ⟨before, a, after, rfl, -, ha⟩ := mapM_eq_error_iff.mp hresult
    obtain ⟨b, hb⟩ := h a (by simp)
    exact nomatch ha.symm.trans hb

/-- Every entry of a traversal that succeeds does so. -/
theorem exists_eq_ok_of_mapM (h : l.mapM f = .ok results) (hmem : a ∈ l) : ∃ b, f a = .ok b := by
  obtain ⟨i, hi, rfl⟩ := List.getElem_of_mem hmem
  have written := mapM_eq_ok_iff.mp h
  exact ⟨_, written.get hi (written.length_eq ▸ hi)⟩

/-- When all entries fail with one fault, if they fail, the traversal fails with it exactly when some entry fails. -/
theorem mapM_eq_error_iff_of_alike {Fails : α → Prop} {single : ε}
    (alike : ∀ a ∈ l, ∀ fault, f a = .error fault ↔ Fails a ∧ fault = single) :
    l.mapM f = .error fault ↔ (∃ a ∈ l, Fails a) ∧ fault = single := by
  have first (other : ε) (h : l.mapM f = .error other) : (∃ a ∈ l, Fails a) ∧ other = single := by
    obtain ⟨before, a, after, hsplit, -, ha⟩ := mapM_eq_error_iff.mp h
    have hmem : a ∈ l := by simp [hsplit]
    obtain ⟨hfails, heq⟩ := (alike a hmem other).mp ha
    exact ⟨⟨a, hmem, hfails⟩, heq⟩
  constructor
  · exact first fault
  · rintro ⟨⟨a, hmem, hfails⟩, rfl⟩
    cases hresult : l.mapM f with
    | error other => rw [(first other hresult).2]
    | ok results =>
      obtain ⟨b, hb⟩ := exists_eq_ok_of_mapM hresult hmem
      exact nomatch hb.symm.trans ((alike a hmem fault).mpr ⟨hfails, rfl⟩)

/-- A fold that fails does so at the first entry that its state does not take. -/
theorem exists_of_foldlM_eq_error {step : β → α → Except ε β} {start : β} (h : l.foldlM step start = .error fault) :
    ∃ before a after state, l = before ++ a :: after ∧ before.foldlM step start = .ok state ∧
      step state a = .error fault := by
  induction l generalizing start with
  | nil => exact nomatch h
  | cons a l ih =>
    rw [List.foldlM_cons] at h
    cases hstep : step start a with
    | error e =>
      rw [hstep] at h
      cases h
      exact ⟨[], a, l, start, rfl, rfl, hstep⟩
    | ok next =>
      rw [hstep] at h
      obtain ⟨before, x, after, state, rfl, hbefore, hx⟩ := ih h
      refine ⟨a :: before, x, after, state, rfl, ?_, hx⟩
      rw [List.foldlM_cons, hstep]
      exact hbefore

end PrimeCover
