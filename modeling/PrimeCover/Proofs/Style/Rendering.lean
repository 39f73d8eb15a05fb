import PrimeCover.Style
import PrimeCover.Proofs.NameTable
import PrimeCover.Proofs.Pattern.Fixed
import PrimeCover.Proofs.Text.Joining
import PrimeCover.Proofs.Traversal

/-!
# Written sums

When all positions have names, writing a sum cannot fail, and its text is a pure function of the names
(`render_eq_ok`). The textbook style with the canonical letters writes the canonical form
(`sumText_textbook_canonical`).
-/

set_option autoImplicit false

namespace PrimeCover

/-- A sum is empty exactly when it has no product. -/
theorem SumOfProducts.isEmpty_iff {s : SumOfProducts} : s.isEmpty = true ↔ s.patterns = [] := by
  rw [SumOfProducts.isEmpty, SumOfProducts.patterns, List.isEmpty_iff, List.map_eq_nil_iff]

namespace NameTable

variable {table : NameTable} {position : Nat}

/-- The name of a position; no text for a position without a name. -/
def nameAt (table : NameTable) (position : Nat) : String :=
  table.names.getD position ""

/-- The literals of a pattern: the names of its fixed positions with their digits. -/
def literals (table : NameTable) (p : Pattern) : List (String × Bool) :=
  p.fixed.map fun (position, digit) => (table.nameAt position, digit)

/-- The lookup of a position within the table succeeds. -/
theorem name_eq_ok (h : position < table.length) : table.name position = .ok (table.nameAt position) := by
  have named : table.get? position = some (table.nameAt position) := by
    rw [get?, nameAt, List.getD_eq_getElem?_getD, List.getElem?_eq_getElem h, Option.getD_some]
  rw [name, named]

end NameTable

namespace Style

variable {style : Style} {table : NameTable} {p : Pattern} {s : SumOfProducts}

/-! ## The texts -/

/-- The texts of the literals of a pattern. -/
def literalTexts (style : Style) (table : NameTable) (p : Pattern) : List String :=
  (table.literals p).map fun (name, digit) => style.literal name digit

/-- The literals are the fixed positions, written with their names. -/
theorem literalTexts_eq : style.literalTexts table p =
    p.fixed.map fun (position, digit) => style.literal (table.nameAt position) digit := by
  rw [literalTexts, NameTable.literals, List.map_map]
  rfl

/-- The text of a pattern whose positions have names. -/
def productText (style : Style) (table : NameTable) (p : Pattern) : String :=
  if p.isFree then style.one else style.product.intercalate (style.literalTexts table p)

/-- The text of a sum whose positions have names. -/
def sumText (style : Style) (table : NameTable) (s : SumOfProducts) : String :=
  if s.isEmpty then style.zero else style.sum.intercalate (s.patterns.map (style.productText table))

/-- A pattern whose positions all have names is written. -/
theorem renderPattern_eq_ok (named : p.length ≤ table.length) :
    style.renderPattern table p = .ok (style.productText table p) := by
  rw [renderPattern, NameTable.check, if_pos named, productText]
  cases p.isFree with
  | true => rfl
  | false =>
    have written : (p.fixed.mapM fun (position, digit) => do
        let name ← table.name position
        return style.literal name digit) = .ok (style.literalTexts table p) := by
      rw [literalTexts_eq]
      refine mapM_eq_ok_map fun ⟨position, digit⟩ hmem => ?_
      dsimp only
      rw [NameTable.name_eq_ok ((Pattern.lt_length_of_mem_fixed hmem).trans_le named)]
      rfl
    exact congrArg (Except.map style.product.intercalate) written

/-- A sum whose products all have names is written. -/
theorem render_eq_ok (named : ∀ p ∈ s.patterns, p.length ≤ table.length) :
    style.render table s = .ok (style.sumText table s) := by
  rw [render, sumText]
  cases s.isEmpty with
  | true => rfl
  | false =>
    have written : s.patterns.mapM (style.renderPattern table) = .ok (s.patterns.map (style.productText table)) :=
      mapM_eq_ok_map fun p hp => renderPattern_eq_ok (named p hp)
    exact congrArg (Except.map style.sum.intercalate) written

/-! ## The canonical form -/

variable {count : Nat}

/-- The canonical letters in the textbook style give the literals of the standard form. -/
theorem literalTexts_textbook_canonical (fits : count ≤ maxVariables) (named : p.length ≤ count) :
    textbook.literalTexts (.canonical count fits) p = p.fixed.map Pattern.standardLiteral := by
  rw [literalTexts_eq]
  refine List.map_congr_left fun ⟨position, digit⟩ hmem => ?_
  have hposition : position < count := (Pattern.lt_length_of_mem_fixed hmem).trans_le named
  have lettered : (NameTable.canonical count fits).nameAt position = (Variable.letter position).toString := by
    simp [NameTable.nameAt, NameTable.canonical, hposition]
  dsimp only
  rw [lettered]
  cases digit <;> rfl

/-- The canonical letters in the textbook style give the standard form of a product. -/
theorem productText_textbook_canonical (fits : count ≤ maxVariables) (named : p.length ≤ count) :
    textbook.productText (.canonical count fits) p = p.standardForm := by
  have joined (texts : List String) : "".intercalate texts = String.join texts := by
    rw [← String.toList_inj, String.toList_intercalate, String.toList_join, String.toList_empty,
      Text.intercalate_nil_left, List.flatMap_def]
  rw [Pattern.standardForm, ← literalTexts_textbook_canonical fits named, ← joined]
  rfl

/-- The canonical letters in the textbook style give the standard form of a sum. -/
theorem sumText_textbook_canonical (fits : count ≤ maxVariables) (named : ∀ p ∈ s.patterns, p.length ≤ count) :
    textbook.sumText (.canonical count fits) s = s.standardForm := by
  have products : s.patterns.map (textbook.productText (.canonical count fits)) = s.patterns.map Pattern.standardForm :=
    List.map_congr_left fun p hp => productText_textbook_canonical fits (named p hp)
  rw [sumText, SumOfProducts.standardForm, products]
  rfl

end Style

end PrimeCover
