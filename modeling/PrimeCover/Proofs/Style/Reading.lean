import PrimeCover.Proofs.Style.Rendering

/-!
# Reading sums back

A written sum is taken apart at the sign between its products, a product into its literals, and a literal into a
name and a digit. Because names are identifiers, none of the signs occurs in a name, and because they are distinct,
a name has one position. So no two lists of patterns of one length have the same text (`sums_read_back`). In the
textbook style this needs names that are single characters: of longer names a product is only a row of letters.
-/

set_option autoImplicit false

namespace PrimeCover

/-! ## Symbols -/

namespace Text

/-- The characters of a text without the spaces. -/
def symbols (text : String) : List Char :=
  text.toList.filter (· ≠ ' ')

/-- Blanks are dropped from both parts of a text. -/
theorem symbols_append (first second : String) : symbols (first ++ second) = symbols first ++ symbols second := by
  rw [symbols, String.toList_append, List.filter_append]
  rfl

/-- Blanks are dropped from joined texts and from what joins them. -/
theorem symbols_intercalate (separator : String) (texts : List String) :
    symbols (separator.intercalate texts) = (symbols separator).intercalate (texts.map symbols) := by
  rw [symbols, String.toList_intercalate, filter_intercalate, List.map_map]
  rfl

/-- An identifier holds no blank. -/
theorem symbols_of_isIdentifier {name : String} (h : isIdentifier name = true) : symbols name = name.toList := by
  refine List.filter_eq_self.mpr fun c hc => decide_eq_true ?_
  rintro rfl
  exact absurd (isIdentifierPart_of_isIdentifier h hc) (by decide)

end Text

/-! ## Readers -/

/-- How a written sum is taken apart. -/
structure Reader where
  /-- The sign between two products. -/
  sum : Char
  /-- The names in a product, each with the digit of its literal. -/
  literals : List Char → List (String × Bool)

namespace Reader

/-- The fixed positions that a product writes down. -/
def fixed (reader : Reader) (table : NameTable) (product : List Char) : List (Nat × Bool) :=
  if product = ['1'] then []
  else (reader.literals product).map fun (name, digit) => (table.names.idxOf name, digit)

/-- Reads a sum of patterns of the given length, as the list of its patterns. -/
def read (reader : Reader) (table : NameTable) (length : Nat) (text : String) : Except Fault (List Pattern) :=
  if Text.symbols text = ['0'] then .ok []
  else ((Text.symbols text).splitOn reader.sum).mapM fun product =>
    Pattern.ofFixed length (reader.fixed table product)

/-- The name and the digit of a literal with the mark in front. -/
def marked : List Char → String × Bool
  | '!' :: name => (String.ofList name, false)
  | name => (String.ofList name, true)

/-- Reads the programming style. -/
def programming : Reader := ⟨'|', fun product => (product.splitOn '&').map marked⟩

/-- One character of a product, met from the right: a quote negates the name in front of it. -/
def primed (c : Char) : List (String × Bool) × Bool → List (String × Bool) × Bool
  | (later, digit) => if c = '\'' then (later, false) else ((String.ofList [c], digit) :: later, true)

/-- Reads the textbook style with names that are single characters. -/
def textbook : Reader := ⟨'+', fun product => (product.foldr primed ([], true)).1⟩

end Reader

/-! ## The signs in a product -/

namespace NameTable

variable {table : NameTable} {p : Pattern} {position : Nat} {literal : String × Bool}

/-- The name of a position is one of the table. -/
theorem nameAt_mem (h : position < table.length) : table.nameAt position ∈ table.names := by
  rw [nameAt, List.getD_eq_getElem _ _ h]
  exact List.getElem_mem h

/-- A position is found by its name, since names are distinct. -/
theorem idxOf_nameAt (h : position < table.length) : table.names.idxOf (table.nameAt position) = position := by
  rw [nameAt, List.getD_eq_getElem _ _ h]
  exact table.distinct.idxOf_getElem position h

/-- The literals of a pattern carry names of the table. -/
theorem mem_names_of_mem_literals (named : p.length ≤ table.length) (h : literal ∈ table.literals p) :
    literal.1 ∈ table.names := by
  obtain ⟨⟨position, digit⟩, hmem, rfl⟩ := List.mem_map.mp h
  exact nameAt_mem ((Pattern.lt_length_of_mem_fixed hmem).trans_le named)

/-- The literals of a pattern tell which positions it fixes. -/
theorem map_idxOf_literals (named : p.length ≤ table.length) :
    ((table.literals p).map fun (name, digit) => (table.names.idxOf name, digit)) = p.fixed := by
  rw [literals, List.map_map, List.map_congr_left (g := id), List.map_id]
  rintro ⟨position, digit⟩ hmem
  exact congrArg (·, digit) (idxOf_nameAt ((Pattern.lt_length_of_mem_fixed hmem).trans_le named))

/-- A pattern that fixes a position has a literal. -/
theorem literals_ne_nil (h : p.isFree = false) : table.literals p ≠ [] := by
  rw [literals, Ne, List.map_eq_nil_iff, Pattern.fixed_eq_nil_iff, h]
  exact Bool.false_ne_true

end NameTable

namespace Style

variable {style : Style} {table : NameTable} {p : Pattern} {name : String} {digit : Bool} {c : Char}

/-- A literal holds all characters of its name. -/
theorem mem_symbols_literal (h : c ∈ Text.symbols name) : c ∈ Text.symbols (style.literal name digit) := by
  unfold literal
  split
  · exact h
  · split <;> rw [Text.symbols_append, List.mem_append]
    · exact .inr h
    · exact .inl h

/-- A literal holds no character that is neither of a name nor of the mark. -/
theorem notMem_symbols_literal (hname : Text.isIdentifier name = true) (foreign : Text.isIdentifierPart c = false)
    (unmarked : c ∉ Text.symbols style.mark) : c ∉ Text.symbols (style.literal name digit) := by
  have unnamed : c ∉ Text.symbols name := by
    intro hc
    rw [Text.symbols_of_isIdentifier hname] at hc
    exact Bool.false_ne_true (foreign.symm.trans (Text.isIdentifierPart_of_isIdentifier hname hc))
  unfold literal
  split
  · exact unnamed
  · split <;> rw [Text.symbols_append, List.mem_append]
    · exact not_or.mpr ⟨unmarked, unnamed⟩
    · exact not_or.mpr ⟨unnamed, unmarked⟩

/-- The symbols of the literals of a pattern. -/
def literalSymbols (style : Style) (table : NameTable) (p : Pattern) : List (List Char) :=
  (table.literals p).map fun (name, digit) => Text.symbols (style.literal name digit)

/-- The symbols of a pattern that is written as a product. -/
def productSymbols (style : Style) (table : NameTable) (p : Pattern) : List Char :=
  Text.symbols (style.productText table p)

/-- The pattern without literals is written as the constant one. -/
theorem productSymbols_of_isFree (h : p.isFree = true) : style.productSymbols table p = Text.symbols style.one := by
  rw [productSymbols, productText, if_pos h]

/-- Any other pattern is written with its literals and the sign of the product between them. -/
theorem productSymbols_of_fixes (h : p.isFree = false) :
    style.productSymbols table p = (Text.symbols style.product).intercalate (style.literalSymbols table p) := by
  rw [productSymbols, productText, h, if_neg Bool.false_ne_true, Text.symbols_intercalate, literalTexts, List.map_map]
  rfl

/-- A product that fixes a position has the first character of a name. -/
theorem exists_isIdentifierStart_mem (named : p.length ≤ table.length) (h : p.isFree = false) :
    ∃ c ∈ style.productSymbols table p, Text.isIdentifierStart c = true := by
  have nonempty : table.literals p ≠ [] := NameTable.literals_ne_nil h
  obtain ⟨⟨name, digit⟩, hmem⟩ := List.exists_mem_of_ne_nil _ nonempty
  have identifier := table.identifiers name (NameTable.mem_names_of_mem_literals named hmem)
  obtain ⟨c, rest, htext, start, -⟩ := Text.isIdentifier_iff.mp identifier
  have hc : c ∈ Text.symbols name := by
    rw [Text.symbols_of_isIdentifier identifier, htext]
    exact List.mem_cons_self
  rw [productSymbols_of_fixes h]
  exact ⟨c, Text.mem_intercalate_of_mem (mem_symbols_literal hc) (List.mem_map_of_mem hmem), start⟩

/-- A character that is neither of a name nor of the mark stands in no literal. -/
theorem notMem_of_mem_literalSymbols (named : p.length ≤ table.length) (foreign : Text.isIdentifierPart c = false)
    (unmarked : c ∉ Text.symbols style.mark) : ∀ block ∈ style.literalSymbols table p, c ∉ block :=
  List.forall_mem_map.mpr fun literal hmem =>
    notMem_symbols_literal (table.identifiers literal.1 (NameTable.mem_names_of_mem_literals named hmem)) foreign
      unmarked

end Style

/-! ## Reading back -/

namespace Reader

variable {reader : Reader} {style : Style} {table : NameTable} {length : Nat} {s : SumOfProducts} {p : Pattern}

/-- What a reader and a style have to agree on, for the names of a table. -/
structure Inverts (reader : Reader) (style : Style) (table : NameTable) : Prop where
  /-- The style has the usual zero. -/
  zero : style.zero = "0"
  /-- The style has the usual one. -/
  one : style.one = "1"
  /-- The sign between products is the reader's. -/
  sum : Text.symbols style.sum = [reader.sum]
  /-- It does not occur in names. -/
  foreign : Text.isIdentifierPart reader.sum = false
  /-- It is not a mark of negation. -/
  unmarked : reader.sum ∉ Text.symbols style.mark
  /-- It does not stand between literals. -/
  unjoined : reader.sum ∉ Text.symbols style.product
  /-- The literals of a product are told apart. -/
  literals (p : Pattern) (named : p.length ≤ table.length) (fixes : p.isFree = false) :
    reader.literals (style.productSymbols table p) = table.literals p

/-- The fixed positions of a pattern are read off the symbols of its product. -/
theorem Inverts.fixed_productSymbols (h : reader.Inverts style table) (named : p.length ≤ table.length) :
    reader.fixed table (style.productSymbols table p) = p.fixed := by
  cases hfree : p.isFree with
  | true =>
    rw [Style.productSymbols_of_isFree hfree, h.one, Pattern.fixed_eq_nil_iff.mpr hfree]
    rfl
  | false =>
    have ne_one : style.productSymbols table p ≠ ['1'] := by
      obtain ⟨c, hc, start⟩ : ∃ c ∈ style.productSymbols table p, Text.isIdentifierStart c = true :=
        Style.exists_isIdentifierStart_mem named hfree
      intro hone
      rw [hone, List.mem_singleton] at hc
      exact absurd start (by rw [hc]; decide)
    rw [fixed, if_neg ne_one, h.literals p named hfree, NameTable.map_idxOf_literals named]

/-- No product holds the sign of the sum, so that products can be told apart. -/
theorem Inverts.sum_notMem_productSymbols (h : reader.Inverts style table) (named : p.length ≤ table.length) :
    reader.sum ∉ style.productSymbols table p := by
  cases hfree : p.isFree with
  | true =>
    rw [Style.productSymbols_of_isFree hfree, h.one]
    intro hone
    have part := h.foreign
    rw [List.mem_singleton.mp hone] at part
    exact absurd part (by decide)
  | false =>
    rw [Style.productSymbols_of_fixes hfree]
    intro hmem
    rcases Text.mem_or_exists_of_mem_intercalate hmem with hproduct | ⟨block, hblock, hc⟩
    · exact h.unjoined hproduct
    · exact Style.notMem_of_mem_literalSymbols named h.foreign h.unmarked block hblock hc

/-- No product looks like zero. -/
theorem Inverts.exists_mem_productSymbols_ne (h : reader.Inverts style table) (named : p.length ≤ table.length) :
    ∃ c ∈ style.productSymbols table p, c ≠ '0' := by
  cases hfree : p.isFree with
  | true =>
    rw [Style.productSymbols_of_isFree hfree, h.one]
    exact ⟨'1', by decide, by decide⟩
  | false =>
    obtain ⟨c, hc, start⟩ : ∃ c ∈ style.productSymbols table p, Text.isIdentifierStart c = true :=
      Style.exists_isIdentifierStart_mem named hfree
    exact ⟨c, hc, fun hzero => absurd start (by rw [hzero]; decide)⟩

/-- A written sum is read back. -/
theorem Inverts.read_sumText (h : reader.Inverts style table) (named : ∀ p ∈ s.patterns, p.length ≤ table.length)
    (same : ∀ p ∈ s.patterns, p.length = length) :
    reader.read table length (style.sumText table s) = .ok s.patterns := by
  rw [read, Style.sumText]
  by_cases hempty : s.isEmpty = true
  · rw [if_pos hempty, h.zero, SumOfProducts.isEmpty_iff.mp hempty]
    exact if_pos rfl
  · have nonempty : s.patterns ≠ [] := SumOfProducts.isEmpty_iff.not.mp hempty
    have blocks : Text.symbols (style.sum.intercalate (s.patterns.map (style.productText table))) =
        [reader.sum].intercalate (s.patterns.map (style.productSymbols table)) := by
      rw [Text.symbols_intercalate, h.sum, List.map_map]
      rfl
    have ne_zero : [reader.sum].intercalate (s.patterns.map (style.productSymbols table)) ≠ ['0'] := by
      obtain ⟨p, hp⟩ := List.exists_mem_of_ne_nil _ nonempty
      obtain ⟨c, hc, hne⟩ := h.exists_mem_productSymbols_ne (named p hp)
      have hmem : c ∈ [reader.sum].intercalate (s.patterns.map (style.productSymbols table)) :=
        Text.mem_intercalate_of_mem hc (List.mem_map_of_mem hp)
      exact fun hzero => hne (List.mem_singleton.mp (hzero ▸ hmem))
    have split : ([reader.sum].intercalate (s.patterns.map (style.productSymbols table))).splitOn reader.sum =
        s.patterns.map (style.productSymbols table) :=
      List.splitOn_intercalate reader.sum
        (List.forall_mem_map.mpr fun p hp => h.sum_notMem_productSymbols (named p hp))
        (mt List.map_eq_nil_iff.mp nonempty)
    rw [if_neg hempty, blocks, if_neg ne_zero, split, mapM_eq_ok_iff, List.forall₂_map_left_iff, List.forall₂_same]
    intro p hp
    rw [h.fixed_productSymbols (named p hp), ← same p hp, Pattern.ofFixed_fixed]

/-! ## The two styles -/

/-- In the programming style a mark in front of a name gives its digit. -/
theorem marked_symbols_literal {name : String} (hname : Text.isIdentifier name = true) (digit : Bool) :
    marked (Text.symbols (Style.programming.literal name digit)) = (name, digit) := by
  cases digit with
  | false =>
    have negated : Text.symbols (Style.programming.literal name false) = '!' :: name.toList := by
      rw [← Text.symbols_of_isIdentifier hname]
      exact Text.symbols_append "!" name
    rw [negated, marked, String.ofList_toList]
  | true =>
    have plain : Text.symbols (Style.programming.literal name true) = name.toList :=
      Text.symbols_of_isIdentifier hname
    rw [plain]
    unfold marked
    split
    · next rest htext =>
      have part := Text.isIdentifierPart_of_isIdentifier hname (htext ▸ List.mem_cons_self)
      exact absurd part (by decide)
    · rw [String.ofList_toList]

/-- The programming style can be read with any table. -/
theorem programming_inverts (table : NameTable) : programming.Inverts Style.programming table where
  zero := rfl
  one := rfl
  sum := rfl
  foreign := by decide
  unmarked := by decide
  unjoined := by decide
  literals p named fixes := by
    have split : (Style.programming.productSymbols table p).splitOn '&' = Style.programming.literalSymbols table p := by
      rw [Style.productSymbols_of_fixes fixes]
      exact List.splitOn_intercalate '&' (Style.notMem_of_mem_literalSymbols named (by decide) (by decide))
        (mt List.map_eq_nil_iff.mp (NameTable.literals_ne_nil fixes))
    change ((Style.programming.productSymbols table p).splitOn '&').map marked = _
    rw [split, Style.literalSymbols, List.map_map, List.map_congr_left (g := id), List.map_id]
    intro literal hmem
    exact marked_symbols_literal (table.identifiers _ (NameTable.mem_names_of_mem_literals named hmem)) literal.2

/-- From the right, every literal with a single character as its name is read as it was written. -/
theorem foldr_primed {literals : List (String × Bool)}
    (short : ∀ literal ∈ literals, Text.isIdentifier literal.1 = true ∧ literal.1.length = 1) :
    (literals.map fun (name, digit) => Text.symbols (Style.textbook.literal name digit)).flatten.foldr primed
      ([], true) = (literals, true) := by
  induction literals with
  | nil => rfl
  | cons literal literals ih =>
    obtain ⟨⟨name, digit⟩, hname, single⟩ := literal, short _ List.mem_cons_self
    obtain ⟨c, hc⟩ := List.length_eq_one_iff.mp single
    have name_eq : String.ofList [c] = name := hc ▸ String.ofList_toList
    have unprimed : c ≠ '\'' := by
      rintro rfl
      exact absurd (Text.isIdentifierPart_of_isIdentifier hname (hc ▸ List.mem_cons_self)) (by decide)
    have plain : Text.symbols name = [c] := hc ▸ Text.symbols_of_isIdentifier hname
    rw [List.map_cons, List.flatten_cons, List.foldr_append,
      ih fun literal hmem => short literal (List.mem_cons_of_mem _ hmem)]
    cases digit with
    | true =>
      change (Text.symbols name).foldr primed (literals, true) = _
      rw [plain, List.foldr_cons, List.foldr_nil, primed, if_neg unprimed, name_eq]
    | false =>
      change (Text.symbols (name ++ "'")).foldr primed (literals, true) = _
      rw [Text.symbols_append, plain, List.foldr_append]
      change primed c (literals, false) = _
      rw [primed, if_neg unprimed, name_eq]

/-- The textbook style can be read when every name is a single letter. -/
theorem textbook_inverts {table : NameTable} (short : ∀ name ∈ table.names, name.length = 1) :
    textbook.Inverts Style.textbook table where
  zero := rfl
  one := rfl
  sum := rfl
  foreign := by decide
  unmarked := by decide
  unjoined := by decide
  literals p named fixes := by
    have row : Style.textbook.productSymbols table p = (Style.textbook.literalSymbols table p).flatten := by
      rw [Style.productSymbols_of_fixes fixes]
      exact Text.intercalate_nil_left _
    have singles : ∀ literal ∈ table.literals p, Text.isIdentifier literal.1 = true ∧ literal.1.length = 1 :=
      fun literal hmem =>
        have known := NameTable.mem_names_of_mem_literals named hmem
        ⟨table.identifiers _ known, short _ known⟩
    change ((Style.textbook.productSymbols table p).foldr primed ([], true)).1 = _
    rw [row, Style.literalSymbols, foldr_primed singles]

end Reader

/-! ## Unambiguous texts -/

/-- On the sums of patterns of one length, writing succeeds, and reading gives the patterns back. So the patterns of
two sums with the same text are the same. -/
structure ReadsBack (length : Nat) (write : SumOfProducts → Except Fault String)
    (read : String → Except Fault (List Pattern)) : Prop where
  /-- Every sum has a text, from which its patterns are read in order. -/
  reads (s : SumOfProducts) (same : ∀ p ∈ s.patterns, p.length = length) :
    ∃ text, write s = .ok text ∧ read text = .ok s.patterns
  /-- Sums with the same text have the same patterns in the same order. -/
  unambiguous (s₁ s₂ : SumOfProducts) (same₁ : ∀ p ∈ s₁.patterns, p.length = length)
    (same₂ : ∀ p ∈ s₂.patterns, p.length = length) (equal : write s₁ = write s₂) : s₁.patterns = s₂.patterns

/-- What reads every sum that it is asked for reads back. -/
theorem ReadsBack.of_reads {length : Nat} {write : SumOfProducts → Except Fault String}
    {read : String → Except Fault (List Pattern)}
    (reads : ∀ s : SumOfProducts, (∀ p ∈ s.patterns, p.length = length) →
      ∃ text, write s = .ok text ∧ read text = .ok s.patterns) : ReadsBack length write read where
  reads := reads
  unambiguous s₁ s₂ same₁ same₂ equal := by
    obtain ⟨text₁, hwrite₁, hread₁⟩ := reads s₁ same₁
    obtain ⟨text₂, hwrite₂, hread₂⟩ := reads s₂ same₂
    have text_eq : text₁ = text₂ := Except.ok.inj (hwrite₁.symm.trans (equal.trans hwrite₂))
    exact Except.ok.inj (hread₁.symm.trans (text_eq ▸ hread₂))

/-- A reader that inverts a style reads back what the style writes. -/
theorem Reader.Inverts.readsBack {reader : Reader} {style : Style} {table : NameTable} {length : Nat}
    (h : reader.Inverts style table) (named : length ≤ table.length) :
    ReadsBack length (style.render table) (reader.read table length) :=
  .of_reads fun s same => by
    have fits : ∀ p ∈ s.patterns, p.length ≤ table.length := fun p hp => (same p hp).trans_le named
    exact ⟨style.sumText table s, Style.render_eq_ok fits, h.read_sumText fits same⟩

/-- Written sums are unambiguous: in the programming style with any names, in the textbook style with names that are
single characters, and in the canonical form. The text, the names and the length of the patterns give the patterns
back, with their order and their repetitions. -/
theorem sums_read_back (table : NameTable) {length : Nat} (named : length ≤ table.length) :
    ReadsBack length (Style.programming.render table) (Reader.programming.read table length) ∧
    ((∀ name ∈ table.names, name.length = 1) →
      ReadsBack length (Style.textbook.render table) (Reader.textbook.read table length)) ∧
    ReadsBack length (fun s => .ok s.standardForm) (Reader.textbook.read (.canonical maxVariables le_rfl) length) := by
  refine ⟨(Reader.programming_inverts table).readsBack named,
    fun short => (Reader.textbook_inverts short).readsBack named, .of_reads fun s same => ?_⟩
  -- the canonical form is the textbook style with the canonical letters
  have lettered : ∀ name ∈ (NameTable.canonical maxVariables le_rfl).names, name.length = 1 := by decide
  have fits : ∀ p ∈ s.patterns, p.length ≤ maxVariables := fun p _ => p.length_le
  refine ⟨s.standardForm, rfl, ?_⟩
  rw [← Style.sumText_textbook_canonical le_rfl fits]
  exact (Reader.textbook_inverts lettered).read_sumText fits same

/-- Two positions with names. -/
def twoNames : NameTable := ⟨["x", "y"], by decide, by decide, by decide⟩

/-- A product of both, one of them negated, and a product without literals. -/
def twoProducts : SumOfProducts :=
  ⟨[.ofPattern ⟨[.zero, .one], by decide⟩, .ofPattern ⟨[.free, .free], by decide⟩]⟩

/-- Two names of one letter, and a sum of two products, one of them constant. -/
theorem sums_read_back_two : 2 ≤ twoNames.length ∧ (∀ name ∈ twoNames.names, name.length = 1) ∧
    Style.textbook.render twoNames twoProducts = .ok "x'y + 1" ∧
    Reader.textbook.read twoNames 2 "x'y + 1" = .ok twoProducts.patterns := by
  have named : 2 ≤ twoNames.length := by decide
  have short : ∀ name ∈ twoNames.names, name.length = 1 := by decide
  have written : Style.textbook.render twoNames twoProducts = .ok "x'y + 1" := rfl
  obtain ⟨text, hwrite, hread⟩ := ((sums_read_back twoNames named).2.1 short).reads twoProducts (by decide)
  have text_eq : text = "x'y + 1" := Except.ok.inj (hwrite.symm.trans written)
  exact ⟨named, short, written, text_eq ▸ hread⟩

-- with a longer name, two products of the textbook style have the same text
example :
    have table : NameTable := ⟨["A", "B", "AB"], by decide, by decide, by decide⟩
    Style.textbook.renderPattern table ⟨[.one, .one, .free], by decide⟩ =
      Style.textbook.renderPattern table ⟨[.free, .free, .one], by decide⟩ := rfl

end PrimeCover
