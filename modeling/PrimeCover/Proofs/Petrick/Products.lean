import Mathlib
import PrimeCover.Petrick.Product
import PrimeCover.Proofs.Petrick.HittingSets

/-!
# Minimal hitting sets as lists of labels

On ascending lists binary search decides membership (`finds_eq_true_iff`), and a merge that keeps one of equal neighbours
lists the union (`union_toList`). Multiplication and expansion therefore give the same products in the same order whether
products are lists or sets of labels, and the lists that they give ascend again (`multiply_toList`, `expand_toList`). The
products of an expansion are the minimal ones among all sets of labels that meet every sum, finite or not, because each
such set has a finite one inside (`minimal_isHittingSet_iff`). Main statement: `expand_lists_minimal_hitting_sets`.
-/

set_option autoImplicit false

namespace PrimeCover.Petrick

variable {p q : NatSet} {left right products sums : List NatSet} {labels : Set Nat}

/-! ## Sorted products -/

/-- An injective function commutes with dropping repeats. -/
theorem map_eraseReps {α β : Type} [BEq α] [LawfulBEq α] [BEq β] [LawfulBEq β] {f : α → β} (hf : Function.Injective f)
    (l : List α) : l.eraseReps.map f = (l.map f).eraseReps := by
  cases l with
  | nil => rfl
  | cons a l =>
    induction l generalizing a with
    | nil => rfl
    | cons b l ih =>
      rw [List.map_cons, List.map_cons, eraseReps_cons_cons, eraseReps_cons_cons, hf.beq_eq, ← List.map_cons,
        ← List.map_cons]
      cases a == b with
      | true => exact ih a
      | false => exact congrArg (f a :: ·) (ih b)

/-- Products in order are sorted already. -/
theorem sortDistinct_of_pairwise (h : products.Pairwise fun p q => p.toList < q.toList) :
    sortDistinct products = products := by
  have hsorted := (pairwise_sortDistinct products).map NatSet.toList fun _ _ => id
  have hlists : (sortDistinct products).map NatSet.toList = products.map NatSet.toList := by
    refine hsorted.eq_of_mem_iff (h.map NatSet.toList fun _ _ => id) ?_
    intro labels
    simp only [List.mem_map, mem_sortDistinct]
  exact List.map_injective_iff.mpr (fun _ _ => eq_of_toList) hlists

namespace Product

/-! ## Binary search -/

/-- In an ascending list a smaller label stands before a larger one. -/
theorem lt_of_getElem?_lt {labels : Product} (h : labels.Pairwise (· < ·)) {i j a b : Nat} (ha : labels[i]? = some a)
    (hb : labels[j]? = some b) (hlt : a < b) : i < j := by
  obtain ⟨hi, rfl⟩ := List.getElem?_eq_some_iff.mp ha
  obtain ⟨hj, rfl⟩ := List.getElem?_eq_some_iff.mp hb
  rcases Nat.lt_trichotomy i j with hij | rfl | hji
  · exact hij
  · exact absurd hlt (Nat.lt_irrefl _)
  · exact absurd (List.pairwise_iff_getElem.mp h j i hj hi hji) (Nat.lt_asymm hlt)

/-- The search finds a label that stands between its ends, as it moves them past smaller and past larger labels only. -/
theorem binSearchAux_eq_true_iff {labels : Product} (h : labels.Pairwise (· < ·)) (label : Nat)
    (lo : Fin (labels.toArray.size + 1)) (hi : Fin labels.toArray.size) (hle : lo.1 ≤ hi.1) :
    Array.binSearchAux (fun a b => decide (a < b)) Option.isSome labels.toArray label lo hi hle = true ↔
      ∃ i, lo.1 ≤ i ∧ i ≤ hi.1 ∧ labels[i]? = some label := by
  have hread : ∀ {m : Nat} (hm : m < labels.toArray.size), labels[m]? = some labels.toArray[m] :=
    fun hm => List.getElem?_eq_getElem hm
  fun_induction Array.binSearchAux with
  -- the label can only stand behind the middle
  | case1 lo hi hle mid found hbelow hroom _ ih =>
    refine ih.trans (exists_congr fun i => ?_)
    constructor
    · rintro ⟨hlow, hhigh, hlabel⟩
      have hmid : mid < i := hlow
      exact ⟨by omega, hhigh, hlabel⟩
    · rintro ⟨hlow, hhigh, hlabel⟩
      exact ⟨lt_of_getElem?_lt h (hread _) hlabel (of_decide_eq_true hbelow), hhigh, hlabel⟩
  | case2 lo hi hle mid found hbelow hend _ =>
    refine iff_of_false nofun ?_
    rintro ⟨i, hlow, hhigh, hlabel⟩
    have hmid : mid < i := lt_of_getElem?_lt h (hread _) hlabel (of_decide_eq_true hbelow)
    omega
  -- the label can only stand before the middle
  | case3 lo hi hle mid found _ habove hend _ =>
    refine iff_of_false nofun ?_
    rintro ⟨i, hlow, hhigh, hlabel⟩
    have hmid : i < mid := lt_of_getElem?_lt h hlabel (hread _) (of_decide_eq_true habove)
    omega
  | case4 lo hi hle mid found _ habove hroom _ ih =>
    refine ih.trans (exists_congr fun i => ?_)
    constructor
    · rintro ⟨hlow, hhigh, hlabel⟩
      have hmid : i ≤ mid - 1 := hhigh
      exact ⟨hlow, by omega, hlabel⟩
    · rintro ⟨hlow, hhigh, hlabel⟩
      have hmid : i < mid := lt_of_getElem?_lt h hlabel (hread _) (of_decide_eq_true habove)
      exact ⟨hlow, Nat.le_sub_one_of_lt hmid, hlabel⟩
  -- the label stands in the middle
  | case5 lo hi hle mid found hbelow habove _ =>
    have hlabel : found = label := by
      rw [decide_eq_true_eq] at hbelow habove
      omega
    exact iff_of_true rfl ⟨mid, by omega, by omega, hlabel ▸ hread _⟩

/-- In an ascending list binary search finds the members. -/
theorem finds_eq_true_iff {labels : Product} (h : labels.Pairwise (· < ·)) {label : Nat} :
    finds labels label = true ↔ label ∈ labels := by
  rw [List.mem_iff_getElem?]
  unfold finds Array.binSearchContains
  rcases Nat.eq_zero_or_pos labels.toArray.size with hsize | hsize
  · have hnil : labels = [] := by simpa using hsize
    subst hnil
    simp
  · have hlast : labels.toArray.size - 1 < labels.toArray.size := Nat.sub_one_lt_of_lt hsize
    simp only [hsize, hlast, if_true, dif_pos, Nat.zero_le]
    rw [binSearchAux_eq_true_iff h]
    refine exists_congr fun i => ?_
    constructor
    · rintro ⟨-, -, hlabel⟩
      exact hlabel
    · intro hlabel
      have hi : i < labels.length := (List.getElem?_eq_some_iff.mp hlabel).1
      exact ⟨Nat.zero_le i, Nat.le_sub_one_of_lt hi, hlabel⟩

/-! ## Unions and inclusion -/

/-- To merge two lists and to drop repeats gives the list of the union. -/
theorem union_toList (p q : NatSet) : union p.toList q.toList = (p ∪ q).toList := by
  have hmerge : (p.toList.merge q.toList).Pairwise (· ≤ ·) :=
    (p.ascending.imp Nat.le_of_lt).merge (q.ascending.imp Nat.le_of_lt)
  have hunion : (union p.toList q.toList).Pairwise (· < ·) := pairwise_lt_eraseReps id _ Function.injective_id hmerge
  refine hunion.eq_of_mem_iff (p ∪ q).ascending ?_
  intro a
  unfold union
  rw [mem_eraseReps, List.mem_merge]
  exact NatSet.mem_union.symm

/-- The test with binary search decides inclusion of the sets. -/
theorem isSubset_toList_iff : isSubset p.toList q.toList = true ↔ p ⊆ q := by
  unfold isSubset
  rw [List.all_eq_true]
  exact forall₂_congr fun a _ => finds_eq_true_iff q.ascending

/-! ## Multiplication and expansion -/

/-- Lists are sorted as their sets are. -/
theorem sortDistinct_toList (products : List NatSet) :
    sortDistinct (products.map NatSet.toList) = (Petrick.sortDistinct products).map NatSet.toList := by
  have hsorted : (products.mergeSort precedes).map NatSet.toList = (products.map NatSet.toList).mergeSort inOrder := by
    apply List.map_mergeSort
    intro p _ q _
    rfl
  unfold sortDistinct Petrick.sortDistinct
  rw [← hsorted, map_eraseReps fun _ _ => eq_of_toList]

/-- Lists are absorbed as their sets are. -/
theorem absorb_toList (products : List NatSet) :
    absorb (products.map NatSet.toList) = (Petrick.absorb products).map NatSet.toList := by
  unfold absorb Petrick.absorb
  rw [List.filter_map]
  congr 1
  apply List.filter_congr
  intro p _
  rw [Function.comp_apply, List.any_map]
  congr 2
  funext q
  rw [Function.comp_apply, Bool.eq_iff_iff, Bool.and_eq_true, decide_eq_true_iff, isSubset_toList_iff, decide_eq_true_iff,
    NatSet.ssubset_iff_size_lt]
  rfl

/-- On ascending lists, multiplication gives the lists of the products. -/
theorem multiply_toList (left right : List NatSet) :
    multiply (left.map NatSet.toList) (right.map NatSet.toList) = (Petrick.multiply left right).map NatSet.toList := by
  have hunions : (left.map NatSet.toList).flatMap (fun p => (right.map NatSet.toList).map (union p)) =
      (left.flatMap fun p => right.map (p ∪ ·)).map NatSet.toList := by
    rw [List.flatMap_map, List.map_flatMap]
    congr 1
    funext p
    rw [List.map_map, List.map_map]
    congr 1
    funext q
    exact union_toList p q
  unfold multiply Petrick.multiply
  rw [hunions, sortDistinct_toList, absorb_toList]

/-- A sum of labels has the same products of one label as lists and as sets. -/
theorem singletons_toList (sum : NatSet) : singletons sum.toList = (Petrick.singletons sum).map NatSet.toList := by
  have hsum : sum.toList.map (fun label => [label]) = (Petrick.singletons sum).map NatSet.toList := by
    unfold Petrick.singletons
    rw [List.map_map]
    rfl
  unfold singletons
  rw [hsum, sortDistinct_toList, sortDistinct_of_pairwise (pairwise_singletons sum)]

/-- On ascending lists, expansion gives the lists of the products. -/
theorem expand_toList (sums : List NatSet) :
    expand (sums.map NatSet.toList) = (Petrick.expand sums).map NatSet.toList := by
  have hfold : ∀ rest products : List NatSet,
      (rest.map NatSet.toList).foldl (fun products next => multiply products (singletons next))
          (products.map NatSet.toList) =
        (rest.foldl (fun products next => Petrick.multiply products (Petrick.singletons next)) products).map
          NatSet.toList := by
    intro rest
    induction rest with
    | nil => exact fun products => rfl
    | cons next rest ih =>
      intro products
      rw [List.map_cons, List.foldl_cons, List.foldl_cons, singletons_toList, multiply_toList, ih]
  cases sums with
  | nil => rfl
  | cons sum rest =>
    unfold Petrick.expand
    rw [← hfold, ← singletons_toList]
    rfl

end Product

/-! ## Sets of labels -/

/-- A set contains a product of two sums exactly when it contains a product of each, also if the set is infinite. -/
theorem exists_mem_multiply_within_iff :
    (∃ p ∈ multiply left right, ∀ a ∈ p, a ∈ labels) ↔
      (∃ p ∈ left, ∀ a ∈ p, a ∈ labels) ∧ ∃ q ∈ right, ∀ a ∈ q, a ∈ labels := by
  constructor
  · rintro ⟨r, hr, hwithin⟩
    obtain ⟨⟨p, hp, hpr⟩, q, hq, hqr⟩ := exists_mem_multiply_subset_iff.mp ⟨r, hr, NatSet.subset_refl r⟩
    exact ⟨⟨p, hp, fun a ha => hwithin a (hpr a ha)⟩, q, hq, fun a ha => hwithin a (hqr a ha)⟩
  · rintro ⟨⟨p, hp, hpwithin⟩, q, hq, hqwithin⟩
    have hunion := NatSet.union_subset_iff.mp (NatSet.subset_refl (p ∪ q))
    obtain ⟨r, hr, hsub⟩ := exists_mem_multiply_subset_iff.mpr ⟨⟨p, hp, hunion.1⟩, q, hq, hunion.2⟩
    refine ⟨r, hr, ?_⟩
    intro a ha
    rcases NatSet.mem_union.mp (hsub a ha) with hap | haq
    · exact hpwithin a hap
    · exact hqwithin a haq

/-- A set of labels, finite or not, that meets every sum. -/
def IsHittingSet (sums : List NatSet) (labels : Set Nat) : Prop :=
  ∀ sum ∈ sums, ∃ label ∈ labels, label ∈ sum

/-- The minimal ones among all sets that meet every sum are finite. -/
theorem minimal_isHittingSet_iff :
    Minimal (IsHittingSet sums) labels ↔ ∃ p, HitsMinimally sums p ∧ {a | a ∈ p} = labels := by
  constructor
  · rintro ⟨hhits, hleast⟩
    obtain ⟨p, hp, hwithin⟩ := exists_hits_within hhits
    have hlabels : labels ≤ {a | a ∈ p} := hleast hp hwithin
    refine ⟨p, ⟨hp, ?_⟩, Set.Subset.antisymm hwithin hlabels⟩
    rintro other hother ⟨hsub, hnot⟩
    exact hnot fun a ha => hleast hother (fun b hb => hwithin b (hsub b hb)) (hwithin a ha)
  · rintro ⟨p, ⟨hp, hmin⟩, rfl⟩
    refine ⟨hp, ?_⟩
    intro other hother hsub a ha
    obtain ⟨q, hq, hwithin⟩ := exists_hits_within hother
    by_contra hnot
    refine hmin q hq ⟨fun b hb => hsub (hwithin b hb), ?_⟩
    intro hpq
    exact hnot (hwithin a (hpq a ha))

/-- For any two sums of products, multiplication by merging and searching lists of labels gives the same products as
multiplication by uniting and comparing sets of labels, and the labels of every product ascend. No product strictly
contains another one, and a set of labels contains a product exactly when it contains a product of each factor. So for
any list of sums, the products of the expansion are all the minimal sets of labels that meet every sum, each once. -/
theorem expand_lists_minimal_hitting_sets :
    (∀ left right : List NatSet,
      Product.multiply (left.map NatSet.toList) (right.map NatSet.toList) = (multiply left right).map NatSet.toList ∧
      (∀ p ∈ Product.multiply (left.map NatSet.toList) (right.map NatSet.toList), p.Pairwise (· < ·)) ∧
      (∀ p ∈ multiply left right, ∀ q ∈ multiply left right, ¬ q ⊂ p) ∧
      ∀ labels : Set Nat, (∃ p ∈ multiply left right, ∀ a ∈ p, a ∈ labels) ↔
        (∃ p ∈ left, ∀ a ∈ p, a ∈ labels) ∧ ∃ q ∈ right, ∀ a ∈ q, a ∈ labels) ∧
    ∀ sums : List NatSet,
      Product.expand (sums.map NatSet.toList) = (expand sums).map NatSet.toList ∧
      (expand sums).Pairwise (fun p q => p.toList < q.toList) ∧
      ∀ labels : Set Nat, (∃ p ∈ expand sums, {a | a ∈ p} = labels) ↔ Minimal (IsHittingSet sums) labels := by
  constructor
  · intro left right
    refine ⟨Product.multiply_toList left right, ?_, antichain_multiply left right, fun _ =>
      exists_mem_multiply_within_iff⟩
    intro labels hlabels
    rw [Product.multiply_toList] at hlabels
    obtain ⟨p, -, rfl⟩ := List.mem_map.mp hlabels
    exact p.ascending
  · intro sums
    refine ⟨Product.expand_toList sums, pairwise_expand sums, ?_⟩
    intro labels
    rw [minimal_isHittingSet_iff]
    simp only [mem_expand_iff]

-- (a + b)(a + c) = a + bc
example : Product.multiply [[0], [1]] [[0], [2]] = [[0], [1, 2]] := by cbv

end PrimeCover.Petrick
