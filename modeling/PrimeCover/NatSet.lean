/-!
# Finite sets of numbers

A `NatSet` is a finite set of natural numbers, kept as the ascending list of its members. Two sets with the
same members are therefore equal (`NatSet.ext_mem`), and listing a set needs no sorting. Every operation is
described through `a ∈ s`.
-/

set_option autoImplicit false

namespace PrimeCover

/-- A finite set of natural numbers. -/
structure NatSet where
  /-- The members in ascending order. -/
  toList : List Nat
  /-- Each member is smaller than every later one. -/
  ascending : toList.Pairwise (· < ·)
deriving DecidableEq

namespace NatSet

/-- The members of a set are those of its list. -/
instance : Membership Nat NatSet where
  mem s a := a ∈ s.toList

/-- Membership is decided by going through the list. -/
instance (a : Nat) (s : NatSet) : Decidable (a ∈ s) :=
  inferInstanceAs (Decidable (a ∈ s.toList))

/-- The list of a set holds its members. -/
@[simp] theorem mem_toList {a : Nat} {s : NatSet} : a ∈ s.toList ↔ a ∈ s := Iff.rfl

/-- The set without members. -/
instance : EmptyCollection NatSet := ⟨⟨[], .nil⟩⟩

/-- The empty set stands for a set that is not there. -/
instance : Inhabited NatSet := ⟨∅⟩

/-- The set of one number. -/
instance : Singleton Nat NatSet := ⟨fun a => ⟨[a], List.pairwise_singleton _ a⟩⟩

/-- The number of members. -/
def size (s : NatSet) : Nat := s.toList.length

/-- The members of `p` below `n`. -/
def below (n : Nat) (p : Nat → Bool) : NatSet where
  toList := (List.range n).filter p
  ascending := List.pairwise_lt_range.filter p

/-- The positions of a list at which `p` holds. -/
def positions {α : Type} (p : α → Bool) (l : List α) : NatSet where
  toList := (l.zipIdx.filter fun entry => p entry.1).map Prod.snd
  ascending := by
    have ordered : (l.zipIdx.map Prod.snd).Pairwise (· < ·) := by
      rw [List.zipIdx_map_snd]
      exact List.pairwise_lt_range'
    exact ordered.sublist (List.filter_sublist.map _)

/-! ## Union -/

/-- Interleaves two ascending lists; a number that both hold is kept once. -/
def interleave : List Nat → List Nat → List Nat
  | [], bs => bs
  | a :: as, [] => a :: as
  | a :: as, b :: bs =>
    if a < b then a :: interleave as (b :: bs)
    else if b < a then b :: interleave (a :: as) bs
    else a :: interleave as bs

/-- What two lists hold is what their interleaving holds. -/
theorem mem_interleave {x : Nat} (as bs : List Nat) :
    x ∈ interleave as bs ↔ x ∈ as ∨ x ∈ bs := by
  fun_induction interleave as bs with
  | case1 bs => simp
  | case2 a as => simp
  | case3 a as b bs hab ih => grind
  | case4 a as b bs hab hba ih => grind
  | case5 a as b bs hab hba ih => grind

/-- Ascending lists interleave to an ascending list. -/
theorem pairwise_interleave (as bs : List Nat) (ha : as.Pairwise (· < ·)) (hb : bs.Pairwise (· < ·)) :
    (interleave as bs).Pairwise (· < ·) := by
  fun_induction interleave as bs with
  | case1 bs => exact hb
  | case2 a as => exact ha
  | case3 a as b bs hab ih =>
    have ha' := List.pairwise_cons.mp ha
    have hb' := List.pairwise_cons.mp hb
    refine List.pairwise_cons.mpr ⟨fun x hx => ?_, ih ha'.2 hb⟩
    rcases (mem_interleave _ _).mp hx with hx | hx <;> grind
  | case4 a as b bs hab hba ih =>
    have ha' := List.pairwise_cons.mp ha
    have hb' := List.pairwise_cons.mp hb
    refine List.pairwise_cons.mpr ⟨fun x hx => ?_, ih ha hb'.2⟩
    rcases (mem_interleave _ _).mp hx with hx | hx <;> grind
  | case5 a as b bs hab hba ih =>
    have ha' := List.pairwise_cons.mp ha
    have hb' := List.pairwise_cons.mp hb
    refine List.pairwise_cons.mpr ⟨fun x hx => ?_, ih ha'.2 hb'.2⟩
    rcases (mem_interleave _ _).mp hx with hx | hx <;> grind

/-- The union interleaves the two lists and drops repeats. -/
instance : Union NatSet where
  union s t := ⟨interleave s.toList t.toList, pairwise_interleave _ _ s.ascending t.ascending⟩

/-! ## Inclusion -/

/-- Inclusion is inclusion of the members. -/
instance : HasSubset NatSet where
  Subset s t := ∀ a, a ∈ s → a ∈ t

/-- Strict inclusion is inclusion in one direction only. -/
instance : HasSSubset NatSet where
  SSubset s t := s ⊆ t ∧ ¬ t ⊆ s

/-- Walks through two ascending lists at once and tells whether the second holds every number of the first. -/
def includes : List Nat → List Nat → Bool
  | [], _ => true
  | _ :: _, [] => false
  | a :: as, b :: bs =>
    if a = b then includes as bs
    else if b < a then includes (a :: as) bs
    else false

/-- The walk along two ascending lists decides whether the first one is included in the second. -/
theorem includes_iff (as bs : List Nat) (ha : as.Pairwise (· < ·)) (hb : bs.Pairwise (· < ·)) :
    includes as bs = true ↔ ∀ a ∈ as, a ∈ bs := by
  fun_induction includes as bs with
  | case1 bs => simp
  | case2 a as => exact iff_of_false Bool.false_ne_true fun h => nomatch h a List.mem_cons_self
  | case3 as b bs ih =>
    have ha' := List.pairwise_cons.mp ha
    have hb' := List.pairwise_cons.mp hb
    rw [ih ha'.2 hb'.2]
    grind
  | case4 a as b bs hne hlt ih =>
    have ha' := List.pairwise_cons.mp ha
    have hb' := List.pairwise_cons.mp hb
    rw [ih ha hb'.2]
    grind
  | case5 a as b bs hne hlt =>
    have hb' := List.pairwise_cons.mp hb
    refine iff_of_false Bool.false_ne_true fun h => ?_
    rcases List.mem_cons.mp (h a List.mem_cons_self) with hab | hab
    · exact hne hab
    · exact hlt (hb'.1 a hab)

/-- Inclusion is decided by walking along both lists at once. -/
instance (s t : NatSet) : Decidable (s ⊆ t) :=
  decidable_of_iff _ (includes_iff s.toList t.toList s.ascending t.ascending)

/-- Strict inclusion is decided by two walks. -/
instance (s t : NatSet) : Decidable (s ⊂ t) :=
  inferInstanceAs (Decidable (s ⊆ t ∧ ¬ t ⊆ s))

/-! ## Members of each operation -/

variable {a n : Nat} {s t : NatSet}

/-- The empty set has no member. -/
@[simp] theorem not_mem_empty : ¬ a ∈ (∅ : NatSet) := List.not_mem_nil

/-- The set of one number has this member only. -/
@[simp] theorem mem_singleton {b : Nat} : a ∈ ({b} : NatSet) ↔ a = b := List.mem_singleton

/-- A union has the members of both sets. -/
@[simp] theorem mem_union : a ∈ s ∪ t ↔ a ∈ s ∨ a ∈ t := mem_interleave _ _

/-- A selection below a bound has the smaller numbers with the property. -/
@[simp] theorem mem_below {p : Nat → Bool} : a ∈ below n p ↔ a < n ∧ p a = true := by
  show a ∈ (List.range n).filter p ↔ _
  simp

/-- The positions of a property are the places at which an entry has it. -/
@[simp] theorem mem_positions {α : Type} {p : α → Bool} {l : List α} :
    a ∈ positions p l ↔ ∃ x, l[a]? = some x ∧ p x = true := by
  show a ∈ (l.zipIdx.filter fun entry => p entry.1).map Prod.snd ↔ _
  simp [List.mem_zipIdx_iff_getElem?]

/-- A set is included in another one when its members belong to the other one. -/
theorem subset_iff : s ⊆ t ↔ ∀ a, a ∈ s → a ∈ t := Iff.rfl

/-- Strict inclusion is inclusion in one direction only. -/
theorem ssubset_iff : s ⊂ t ↔ s ⊆ t ∧ ¬ t ⊆ s := Iff.rfl

/-- Two sets with the same members are equal. -/
theorem ext_mem (h : ∀ a, a ∈ s ↔ a ∈ t) : s = t := by
  have perm : s.toList.Perm t.toList :=
    (List.perm_ext_iff_of_nodup (s.ascending.imp Nat.ne_of_lt) (t.ascending.imp Nat.ne_of_lt)).mpr h
  have eq : s.toList = t.toList :=
    perm.eq_of_pairwise (fun _ _ _ _ hab hba => absurd hab (Nat.lt_asymm hba)) s.ascending t.ascending
  cases s; cases t; cases eq; rfl

/-- A set without members is the empty one. -/
theorem eq_empty_iff : s = ∅ ↔ ∀ a, ¬ a ∈ s := by
  constructor
  · rintro rfl a
    exact not_mem_empty
  · intro h
    exact ext_mem fun a => iff_of_false (h a) not_mem_empty

end NatSet

end PrimeCover
