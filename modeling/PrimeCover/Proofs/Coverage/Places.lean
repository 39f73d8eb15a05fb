import Mathlib
import PrimeCover.Coverage.Reduction
import PrimeCover.Proofs.NatSet

/-!
# Removal at a place

A rule takes an entry out of a list at the place at which its search found it, but the step that it reports names the
entry only. Equal entries may stand at several places, so the two agree for a reason. The search tries the pairs of
places in lexicographic order, and no entry is related to itself. It therefore finds both entries of a related pair at
their first occurrences (`firstRelated?_zipIdx`): an earlier occurrence would have made an earlier pair. What is taken
out at the place is then the first occurrence of the entry (`eraseIdx_of_row?`, `eraseIdx_of_column?`). The only
candidate that covers a minterm has a single occurrence (`eraseIdx_of_single_place`).
-/

set_option autoImplicit false

namespace PrimeCover.Coverage

section Search

variable {α β : Type}

/-! ## Related pairs -/

/-- The head of a list is paired with the first later entry that is related to it in one direction or the other. If
there is none, the search goes on behind the head. -/
theorem firstRelated?_cons (related : α → α → Bool) (a : α) (rest : List α) :
    firstRelated? related (a :: rest) =
      ((rest.find? fun b => related a b || related b a).map fun b => if related a b then (a, b) else (b, a)).or
        (firstRelated? related rest) := by
  have hpartner : (rest.findSome? fun b =>
      if related a b then some (a, b) else if related b a then some (b, a) else none) =
        (rest.find? fun b => related a b || related b a).map fun b => if related a b then (a, b) else (b, a) := by
    induction rest with
    | nil => rfl
    | cons b rest ih =>
      rw [List.findSome?_cons, List.find?_cons]
      cases hab : related a b <;> cases hba : related b a <;> simp [hab, ih]
  rw [firstRelated?, hpartner]
  cases (rest.find? fun b => related a b || related b a) <;> rfl

/-- A search among the values of a function finds the values of what it finds among the arguments. -/
theorem firstRelated?_map (related : β → β → Bool) (f : α → β) (l : List α) :
    firstRelated? related (l.map f) =
      (firstRelated? (fun a b => related (f a) (f b)) l).map (Prod.map f f) := by
  induction l with
  | nil => rfl
  | cons a rest ih =>
    rw [List.map_cons, firstRelated?_cons, firstRelated?_cons, List.find?_map, ih, Option.map_or, Option.map_map,
      Option.map_map]
    congr 2
    funext b
    dsimp only [Function.comp_apply]
    split <;> rfl

/-! ## First occurrences -/

variable [DecidableEq α] {l : List α} {a b : α}

/-- An entry with the place of its first occurrence in a list whose places are counted from an offset. -/
def firstPlaced (l : List α) (offset : Nat) (a : α) : α × Nat :=
  (a, offset + l.idxOf a)

/-- The head of a list stands at the offset. -/
theorem firstPlaced_cons_self (a : α) (rest : List α) (offset : Nat) :
    firstPlaced (a :: rest) offset a = (a, offset) := by
  unfold firstPlaced
  rw [List.idxOf_cons_self, Nat.add_zero]

/-- An entry other than the head has its first occurrence in the rest of the list. -/
theorem firstPlaced_cons_of_ne (hne : b ≠ a) (rest : List α) (offset : Nat) :
    firstPlaced (a :: rest) offset b = firstPlaced rest (offset + 1) b := by
  unfold firstPlaced
  rw [List.idxOf_cons_ne rest hne.symm]
  congr 1
  omega

/-- To remove an entry at the place of its first occurrence is to erase it. -/
theorem eraseIdx_firstPlaced (l : List α) (a : α) : l.eraseIdx (firstPlaced l 0 a).2 = l.erase a := by
  unfold firstPlaced
  rw [Nat.zero_add, List.eraseIdx_idxOf_eq_erase]

/-- A search for the first entry with a property finds it at its first occurrence. -/
theorem find?_zipIdx (p : α → Bool) (l : List α) (offset : Nat) :
    (l.zipIdx offset).find? (fun entry => p entry.1) = (l.find? p).map (firstPlaced l offset) := by
  induction l generalizing offset with
  | nil => rfl
  | cons a rest ih =>
    rw [List.zipIdx_cons, List.find?_cons, List.find?_cons]
    cases ha : p a with
    | true => rw [Option.map_some, firstPlaced_cons_self]
    | false =>
      show (rest.zipIdx (offset + 1)).find? (fun entry => p entry.1) = _
      rw [ih]
      apply Option.map_congr
      intro b hb
      have hne : b ≠ a := by
        rintro rfl
        rw [List.find?_some hb] at ha
        exact nomatch ha
      exact (firstPlaced_cons_of_ne hne rest offset).symm

/-- The first related pair is found at the first occurrences of its two entries. -/
theorem firstRelated?_zipIdx {related : α → α → Bool} (hirrefl : ∀ a, related a a = false) (l : List α)
    (offset : Nat) :
    firstRelated? (fun a b => related a.1 b.1) (l.zipIdx offset) =
      (firstRelated? related l).map (Prod.map (firstPlaced l offset) (firstPlaced l offset)) := by
  induction l generalizing offset with
  | nil => rfl
  | cons a rest ih =>
    rw [List.zipIdx_cons, firstRelated?_cons, firstRelated?_cons]
    dsimp only
    rw [find?_zipIdx fun b => related a b || related b a, ih, Option.map_or, Option.map_map, Option.map_map]
    cases hfind : rest.find? fun b => related a b || related b a with
    | some b =>
      -- the head has a partner, and it is another entry since none is related to itself
      have hne : b ≠ a := by
        rintro rfl
        have hrelated := List.find?_some hfind
        rw [hirrefl, Bool.false_or] at hrelated
        exact nomatch hrelated
      have hhead : firstPlaced (a :: rest) offset a = (a, offset) := firstPlaced_cons_self a rest offset
      have hpartner : firstPlaced (a :: rest) offset b = firstPlaced rest (offset + 1) b :=
        firstPlaced_cons_of_ne hne rest offset
      have hvalue : (firstPlaced rest (offset + 1) b).1 = b := rfl
      cases hab : related a b <;> simp [hab, hhead, hpartner, hvalue]
    | none =>
      -- the head has no partner, so neither entry of a pair that is found later is equal to it
      rw [List.find?_eq_none] at hfind
      apply Option.map_congr
      rintro ⟨x, y⟩ hfound
      obtain ⟨hx, hy, hxy⟩ := mem_of_firstRelated? hfound
      have hxa : x ≠ a := by
        rintro rfl
        exact hfind y hy (by rw [hxy, Bool.true_or])
      have hya : y ≠ a := by
        rintro rfl
        exact hfind x hx (by rw [hxy, Bool.or_true])
      exact Prod.ext (firstPlaced_cons_of_ne hxa rest offset).symm (firstPlaced_cons_of_ne hya rest offset).symm

/-- To remove an entry of a pair at its place is to erase it, where the pair stands at its first occurrences. -/
theorem eraseIdx_of_map_firstPlaced {found : Option (α × α)} {kept discarded : α × Nat}
    (h : found.map (Prod.map (firstPlaced l 0) (firstPlaced l 0)) = some (kept, discarded)) :
    l.eraseIdx discarded.2 = l.erase discarded.1 := by
  obtain ⟨⟨x, y⟩, -, hplaced⟩ := Option.map_eq_some_iff.mp h
  cases hplaced
  exact eraseIdx_firstPlaced l y

end Search

/-! ## Rows and columns -/

section Rules

variable {c : Coverage} {m : Nat} {prime : Term} {place : Nat}

/-- No candidate dominates itself. -/
theorem dominates_irrefl (t : Term) : decide (t.Dominates t) = false :=
  decide_eq_false (NatSet.not_ssubset_self t.covered)

/-- The column of a minterm does not strictly contain itself. -/
theorem column_ssubset_irrefl (c : Coverage) (m : Nat) : decide (c.column m ⊂ c.column m) = false :=
  decide_eq_false (NatSet.not_ssubset_self (c.column m))

/-- The row rule finds the first dominated candidate and the one that dominates it at their first occurrences. -/
theorem row?_eq (c : Coverage) :
    c.row? = (firstRelated? (fun kept discarded => kept.Dominates discarded) c.candidates).map
      (Prod.map (firstPlaced c.candidates 0) (firstPlaced c.candidates 0)) := by
  rw [← firstRelated?_zipIdx dominates_irrefl]
  rfl

/-- The column rule finds the first two minterms with related columns at their first occurrences. -/
theorem column?_eq (c : Coverage) :
    c.column? = (firstRelated? (fun kept discarded => c.column kept ⊂ c.column discarded) c.minterms).map
      (Prod.map (firstPlaced c.minterms 0) (firstPlaced c.minterms 0)) := by
  rw [← firstRelated?_zipIdx c.column_ssubset_irrefl]
  unfold column?
  rw [firstRelated?_map, Option.map_map]
  exact Option.map_id'

/-- A row step takes the first occurrence of the candidate that it names out of the pool. -/
theorem eraseIdx_of_row? {kept discarded : Term × Nat} (h : c.row? = some (kept, discarded)) :
    c.candidates.eraseIdx discarded.2 = c.candidates.erase discarded.1 := by
  rw [row?_eq] at h
  exact eraseIdx_of_map_firstPlaced h

/-- A column step drops the first occurrence of the minterm that it names. -/
theorem eraseIdx_of_column? {kept discarded : Nat × Nat} (h : c.column? = some (kept, discarded)) :
    c.minterms.eraseIdx discarded.2 = c.minterms.erase discarded.1 := by
  rw [column?_eq] at h
  exact eraseIdx_of_map_firstPlaced h

/-! ## A single candidate -/

/-- Where a single candidate covers a minterm, those before and after it in the pool do not. -/
theorem exists_append_of_single (single : c.candidates.filter (m ∈ ·) = [prime]) :
    ∃ before after, c.candidates = before ++ prime :: after ∧ m ∈ prime ∧ (∀ t ∈ before ++ after, m ∉ t) ∧
      c.candidates.filter (m ∉ ·) = before ++ after := by
  obtain ⟨before, after, hpool, hbefore, hprime, hafter⟩ := List.filter_eq_cons_iff.mp single
  have hothers : ∀ t ∈ before ++ after, m ∉ t := by
    intro t ht
    rcases List.mem_append.mp ht with ht | ht
    · simpa using hbefore t ht
    · simpa using List.filter_eq_nil_iff.mp hafter t ht
  refine ⟨before, after, hpool, of_decide_eq_true hprime, hothers, ?_⟩
  have hkept : (before ++ after).filter (m ∉ ·) = before ++ after := by
    rw [List.filter_eq_self]
    intro t ht
    exact decide_eq_true (hothers t ht)
  rw [← hkept, hpool, List.filter_append, List.filter_append, List.filter_cons_of_neg]
  simpa using hprime

/-- To erase the single candidate that covers a minterm is to keep those that do not cover it. -/
theorem erase_of_single (single : c.candidates.filter (m ∈ ·) = [prime]) :
    c.candidates.erase prime = c.candidates.filter (m ∉ ·) := by
  obtain ⟨before, after, hpool, hcovers, hothers, hrest⟩ := exists_append_of_single single
  have hnot : prime ∉ before := fun hbefore => hothers prime (List.mem_append_left _ hbefore) hcovers
  rw [hrest, hpool, List.erase_append_right _ hnot, List.erase_cons_head]

/-- Where a single candidate covers a minterm, the pool is this candidate and those that do not cover it. -/
theorem candidates_perm_of_single (single : c.candidates.filter (m ∈ ·) = [prime]) :
    c.candidates.Perm (prime :: c.candidates.filter (m ∉ ·)) := by
  obtain ⟨before, after, hpool, -, -, hrest⟩ := exists_append_of_single single
  rw [hrest, hpool]
  exact List.perm_middle

/-- The candidates that cover a minterm, with or without their places. -/
theorem map_fst_filter_zipIdx (c : Coverage) (m : Nat) :
    (c.candidates.zipIdx.filter (m ∈ ·.1)).map Prod.fst = c.candidates.filter (m ∈ ·) := by
  conv_rhs => rw [← List.zipIdx_map_fst 0 c.candidates, List.filter_map]
  rfl

/-- A candidate covers a minterm alone exactly when one place of the pool is that of a candidate that covers it. -/
theorem exists_single_place_iff :
    (∃ place, c.candidates.zipIdx.filter (m ∈ ·.1) = [(prime, place)]) ↔ c.candidates.filter (m ∈ ·) = [prime] := by
  rw [← map_fst_filter_zipIdx, List.map_eq_singleton_iff]
  constructor
  · rintro ⟨place, hplace⟩
    exact ⟨(prime, place), hplace, rfl⟩
  · rintro ⟨⟨_, place⟩, hplace, rfl⟩
    exact ⟨place, hplace⟩

/-- To remove the only candidate that covers a minterm at its place is to keep those that do not cover it. -/
theorem eraseIdx_of_single_place (h : c.candidates.zipIdx.filter (m ∈ ·.1) = [(prime, place)]) :
    c.candidates.eraseIdx place = c.candidates.filter (m ∉ ·) := by
  have hsingle : c.candidates.filter (m ∈ ·) = [prime] := exists_single_place_iff.mp ⟨place, h⟩
  obtain ⟨before, after, hpool, hcovers, -, -⟩ := exists_append_of_single hsingle
  have hmem : prime ∈ c.candidates := hpool ▸ List.mem_append_right before List.mem_cons_self
  have hfirst : (prime, c.candidates.idxOf prime) ∈ c.candidates.zipIdx.filter (m ∈ ·.1) := by
    rw [List.mem_filter, List.mk_mem_zipIdx_iff_getElem?]
    exact ⟨List.getElem?_idxOf hmem, decide_eq_true hcovers⟩
  have hplace : c.candidates.idxOf prime = place := by
    rw [h] at hfirst
    exact congrArg Prod.snd (List.mem_singleton.mp hfirst)
  rw [← hplace, List.eraseIdx_idxOf_eq_erase, erase_of_single hsingle]

end Rules

end PrimeCover.Coverage
