import Mathlib
import PrimeCover.Petrick
import PrimeCover.Proofs.NatSet

/-!
# The order of products, and absorption

Products are ordered as the ascending lists of their labels, lexicographically (`precedes_iff`); sorting leaves each
product once, in strictly ascending order (`pairwise_sortDistinct`). Absorption keeps the minimal products
(`mem_absorb`), and so it does not change which sets contain a product (`exists_mem_absorb_subset_iff`).
-/

set_option autoImplicit false

namespace PrimeCover.Petrick

variable {p q : NatSet} {products left right : List NatSet} {labels : NatSet}

/-! ## The order of products -/

/-- The walk along two lists decides their lexicographic order. -/
theorem inOrder_iff_le (as bs : List Nat) : inOrder as bs = true ↔ as ≤ bs := by
  induction as generalizing bs with
  | nil =>
    cases bs with
    | nil => simp [inOrder]
    | cons b bs => exact iff_of_true rfl (le_of_lt (List.nil_lt_cons b bs))
  | cons a as ih =>
    cases bs with
    | nil => exact iff_of_false Bool.false_ne_true (not_le_of_gt (List.nil_lt_cons a as))
    | cons b bs =>
      have hcons : a :: as < b :: bs ↔ a < b ∨ a = b ∧ as < bs := List.cons_lt_cons_iff
      have htail := ih bs
      rw [le_iff_lt_or_eq] at htail ⊢
      rw [inOrder, Bool.or_eq_true, Bool.and_eq_true, decide_eq_true_iff, decide_eq_true_iff, htail, hcons,
        List.cons.injEq, and_or_left, or_assoc]

/-- Products are compared by their lists. -/
theorem precedes_iff : precedes p q = true ↔ p.toList ≤ q.toList :=
  inOrder_iff_le p.toList q.toList

/-- A product is determined by its list. -/
theorem eq_of_toList (h : p.toList = q.toList) : p = q := by
  apply NatSet.ext_mem
  intro a
  rw [← NatSet.mem_toList, h, NatSet.mem_toList]

/-- Of two equal neighbours the second one is dropped. -/
theorem eraseReps_cons_cons {α : Type} [BEq α] (a b : α) (l : List α) :
    (a :: b :: l).eraseReps = if a == b then (a :: l).eraseReps else a :: (b :: l).eraseReps := by
  have hacc : ∀ (l : List α) (a : α) (acc : List α),
      List.eraseRepsBy.loop (· == ·) a l acc = acc.reverse ++ List.eraseRepsBy.loop (· == ·) a l [] := by
    intro l
    induction l with
    | nil => simp [List.eraseRepsBy.loop]
    | cons b l ih =>
      intro a acc
      unfold List.eraseRepsBy.loop
      cases a == b with
      | true => exact ih a acc
      | false =>
        rw [ih b (a :: acc), ih b [a]]
        simp
  have hstep : (a :: b :: l).eraseReps = match a == b with
      | true => (a :: l).eraseReps
      | false => List.eraseRepsBy.loop (· == ·) b l [a] := rfl
  rw [hstep]
  cases a == b with
  | true => rfl
  | false => exact hacc l b [a]

/-- To drop repeats of neighbours loses no member. -/
theorem mem_eraseReps {α : Type} [BEq α] [LawfulBEq α] {x : α} (l : List α) : x ∈ l.eraseReps ↔ x ∈ l := by
  induction hn : l.length generalizing l with
  | zero => rw [List.length_eq_zero_iff.mp hn]; rfl
  | succ n ih =>
    match l, hn with
    | [a], _ => rfl
    | a :: b :: l, hn =>
      rw [eraseReps_cons_cons]
      split
      · next heq =>
        rw [ih (a :: l) (by simpa using hn), eq_of_beq heq]
        simp
      · rw [List.mem_cons, ih (b :: l) (by simpa using hn), List.mem_cons (l := b :: l)]

/-- In a sorted list equal elements stand together, so that erasing repeated ones leaves each once. -/
theorem pairwise_lt_eraseReps {α : Type} [LinearOrder α] {β : Type} [BEq β] [LawfulBEq β] (key : β → α)
    (l : List β) (hkey : Function.Injective key) (h : l.Pairwise fun a b => key a ≤ key b) :
    l.eraseReps.Pairwise fun a b => key a < key b := by
  induction hn : l.length generalizing l with
  | zero =>
    rw [List.length_eq_zero_iff.mp hn]
    exact List.Pairwise.nil
  | succ n ih =>
    match l, hn with
    | [a], _ => exact List.pairwise_singleton _ a
    | a :: b :: l, hn =>
      obtain ⟨ha, hrest⟩ := List.pairwise_cons.mp h
      rw [eraseReps_cons_cons]
      split
      · next heq =>
        have hal : (a :: l).Pairwise fun a b => key a ≤ key b :=
          List.pairwise_cons.mpr ⟨fun x hx => ha x (List.mem_cons_of_mem b hx), (List.pairwise_cons.mp hrest).2⟩
        exact ih (a :: l) hal (by simpa using hn)
      · next hne =>
        have hlt : key a < key b := by
          refine lt_of_le_of_ne (ha b List.mem_cons_self) ?_
          intro heq
          exact hne (beq_iff_eq.mpr (hkey heq))
        refine List.pairwise_cons.mpr ⟨?_, ih (b :: l) hrest (by simpa using hn)⟩
        intro x hx
        rcases List.mem_cons.mp ((mem_eraseReps (b :: l)).mp hx) with rfl | hx
        · exact hlt
        · exact lt_of_lt_of_le hlt ((List.pairwise_cons.mp hrest).1 x hx)

/-- To sort and to drop repeats keeps the members. -/
theorem mem_sortDistinct : p ∈ sortDistinct products ↔ p ∈ products := by
  unfold sortDistinct
  rw [mem_eraseReps, List.mem_mergeSort]

/-- Sorted products without repeats are strictly ascending. -/
theorem pairwise_sortDistinct (products : List NatSet) :
    (sortDistinct products).Pairwise fun p q => p.toList < q.toList := by
  unfold sortDistinct
  apply pairwise_lt_eraseReps NatSet.toList
  · intro p q h
    exact eq_of_toList h
  · have htrans : ∀ p q r : NatSet, precedes p q = true → precedes q r = true → precedes p r = true := by
      intro p q r hpq hqr
      rw [precedes_iff] at *
      exact le_trans hpq hqr
    have htotal : ∀ p q : NatSet, (precedes p q || precedes q p) = true := by
      intro p q
      rw [Bool.or_eq_true, precedes_iff, precedes_iff]
      exact le_total p.toList q.toList
    exact (List.pairwise_mergeSort htrans htotal products).imp precedes_iff.mp

/-! ## Absorption -/

/-- What absorption leaves are the products that strictly contain no other product. -/
theorem mem_absorb : p ∈ absorb products ↔ p ∈ products ∧ ∀ q ∈ products, ¬ q ⊂ p := by
  unfold absorb
  rw [List.mem_filter]
  apply and_congr_right
  intro _
  simp

/-- A set contains a product exactly when it contains one that is not absorbed. -/
theorem exists_mem_absorb_subset_iff : (∃ p ∈ absorb products, p ⊆ labels) ↔ ∃ p ∈ products, p ⊆ labels := by
  constructor
  · rintro ⟨p, hp, hsub⟩
    exact ⟨p, (mem_absorb.mp hp).1, hsub⟩
  · rintro ⟨p, hp, hsub⟩
    -- while a product is absorbed, pass to a smaller one
    induction hn : p.size using Nat.strong_induction_on generalizing p with
    | _ n ih =>
      by_cases hmin : ∀ q ∈ products, ¬ q ⊂ p
      · exact ⟨p, mem_absorb.mpr ⟨hp, hmin⟩, hsub⟩
      · push Not at hmin
        obtain ⟨q, hq, hqp⟩ := hmin
        have hsmaller : q.size < n := hn ▸ NatSet.size_lt_of_ssubset hqp
        exact ih q.size hsmaller q hq (NatSet.subset_trans (NatSet.ssubset_iff.mp hqp).1 hsub) rfl

/-- A set contains a product of two sums exactly when it contains a product of each. -/
theorem exists_mem_multiply_subset_iff :
    (∃ p ∈ multiply left right, p ⊆ labels) ↔ (∃ p ∈ left, p ⊆ labels) ∧ ∃ q ∈ right, q ⊆ labels := by
  unfold multiply
  rw [exists_mem_absorb_subset_iff]
  simp only [mem_sortDistinct, List.mem_flatMap, List.mem_map]
  constructor
  · rintro ⟨-, ⟨p, hp, q, hq, rfl⟩, hsub⟩
    obtain ⟨hpsub, hqsub⟩ := NatSet.union_subset_iff.mp hsub
    exact ⟨⟨p, hp, hpsub⟩, q, hq, hqsub⟩
  · rintro ⟨⟨p, hp, hpsub⟩, q, hq, hqsub⟩
    exact ⟨p ∪ q, ⟨p, hp, q, hq, rfl⟩, NatSet.union_subset_iff.mpr ⟨hpsub, hqsub⟩⟩

/-- No product of the list strictly contains another one. -/
def Antichain (products : List NatSet) : Prop :=
  ∀ p ∈ products, ∀ q ∈ products, ¬ q ⊂ p

/-- No product of two sums of products strictly contains another one. -/
theorem antichain_multiply (left right : List NatSet) : Antichain (multiply left right) := by
  intro p hp q hq
  exact (mem_absorb.mp hp).2 q (mem_absorb.mp hq).1

/-- The products of two sums of products are strictly ascending. -/
theorem pairwise_multiply (left right : List NatSet) :
    (multiply left right).Pairwise fun p q => p.toList < q.toList :=
  (pairwise_sortDistinct _).sublist List.filter_sublist

end PrimeCover.Petrick
