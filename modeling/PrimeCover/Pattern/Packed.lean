import PrimeCover.Pattern.Merge
import PrimeCover.Pattern.Text

/-!
# Packed patterns

What a pattern fixes fits into two words of sixteen bits: one for the positions fixed at one, the other one for those
fixed at zero. Bit `i` of a word belongs to position `i`. The first digit of a number, its most significant one,
therefore goes to the lowest bit. The operations on packed patterns are made of operations on whole words. Nothing in
the type keeps the two words apart from each other or within the positions; the operations do.
-/

set_option autoImplicit false

namespace PrimeCover

/-- The word with the given bits, the lowest one first. -/
def Binary.word (bits : List Bool) : BitVec 16 :=
  (BitVec.ofBoolListLE bits).setWidth 16

/-- The word of the positions that are fixed to a digit. -/
def Pattern.mask (p : Pattern) (digit : Bool) : BitVec 16 :=
  Binary.word (p.trits.map fun t => t.value? = some digit)

/-- A pattern in two words. -/
structure Packed where
  /-- The number of positions. -/
  length : Nat
  /-- The positions fixed at one. -/
  ones : BitVec 16
  /-- The positions fixed at zero. -/
  zeros : BitVec 16
deriving DecidableEq

/-- The words of a pattern. -/
def Pattern.pack (p : Pattern) : Packed :=
  ⟨p.length, p.mask true, p.mask false⟩

/-- Packing keeps the length. -/
@[simp] theorem Pattern.length_pack (p : Pattern) : p.pack.length = p.length := rfl

/-- The first word is the mask of the ones. -/
@[simp] theorem Pattern.ones_pack (p : Pattern) : p.pack.ones = p.mask true := rfl

/-- The second word is the mask of the zeros. -/
@[simp] theorem Pattern.zeros_pack (p : Pattern) : p.pack.zeros = p.mask false := rfl

namespace Packed

/-! ## Construction -/

/-- Refuses more positions than there are variables. -/
def checkLength (length : Nat) : Except Fault Unit :=
  if length ≤ maxVariables then .ok () else .error (.tooManyVariables length maxVariables)

/-- The word of the first positions. -/
def low (length : Nat) : BitVec 16 :=
  BitVec.ofNat 16 (1 <<< length - 1)

/-- The word of the ones among the digits of a number, which are taken from the most significant one on. -/
def spread (value length : Nat) : BitVec 16 :=
  ((List.range length).filter fun i => (value >>> (length - 1 - i)) &&& 1 == 1).foldl
    (fun bits i => bits ||| 1#16 <<< i) 0#16

/-- The packed pattern whose positions are all free. -/
def free (length : Nat) : Except Fault Packed := do
  checkLength length
  return ⟨length, 0#16, 0#16⟩

/-- The packed pattern that fixes every position to the digit of a number. -/
def ofMinterm (value length : Nat) : Except Fault Packed := do
  checkLength length
  let required := Binary.length value
  if value ≠ 0 ∧ length < required then
    .error (.tooManyVariables required length)
  else
    return ⟨length, spread value length, low length &&& ~~~spread value length⟩

/-! ## Positions -/

/-- The digit that a position is fixed to; nothing for a free position and past the end. -/
def get? (w : Packed) (position : Nat) : Option Bool :=
  if w.length ≤ position then none
  else if w.ones &&& 1#16 <<< position ≠ 0#16 then some true
  else if w.zeros &&& 1#16 <<< position ≠ 0#16 then some false
  else none

/-- The digits of all positions, nothing for the free ones. -/
def values (w : Packed) : List (Option Bool) :=
  (List.range w.length).map w.get?

/-- The number of positions fixed at one. -/
def weight (w : Packed) : Nat :=
  w.ones.cpop.toNat

/-- The number of fixed positions. -/
def literalCount (w : Packed) : Nat :=
  (w.ones ||| w.zeros).cpop.toNat

/-- The number of free positions. -/
def freeCount (w : Packed) : Nat :=
  w.length - w.literalCount

/-! ## Minterms and inclusion -/

/-- Whether a packed pattern stands for a number. -/
def covers (w : Packed) (m : Nat) : Bool :=
  if m >>> w.length ≠ 0 then false
  else spread m w.length &&& w.zeros == 0#16 && w.ones &&& ~~~spread m w.length == 0#16

/-- The numbers that a packed pattern stands for. -/
def minterms (w : Packed) : List Nat :=
  (List.range (1 <<< w.length)).filter w.covers

/-- Whether a packed pattern contains another one. -/
def contains (v w : Packed) : Bool :=
  v.length == w.length && w.ones &&& v.ones == v.ones && w.zeros &&& v.zeros == v.zeros

/-! ## Merging -/

/-- The positions that are fixed to different digits. -/
def conflicts (v w : Packed) : BitVec 16 :=
  v.ones &&& w.zeros ||| v.zeros &&& w.ones

/-- Merges two packed patterns that fix the same positions and differ at one of them. -/
def merge? (v w : Packed) : Option Packed :=
  if v.length ≠ w.length ∨ v.ones ||| v.zeros ≠ w.ones ||| w.zeros then none
  else if (v.conflicts w).cpop ≠ 1#16 then none
  else some ⟨v.length, v.ones &&& ~~~v.conflicts w, v.zeros &&& ~~~v.conflicts w⟩

/-! ## Texts -/

/-- Adds a position. Behind the tenth position, positions are only counted. -/
def add (w : Packed) (t : Trit) : Packed where
  length := w.length + 1
  ones := if t = .one ∧ w.length < maxVariables then w.ones ||| 1#16 <<< w.length else w.ones
  zeros := if t = .zero ∧ w.length < maxVariables then w.zeros ||| 1#16 <<< w.length else w.zeros

/-- Reads one character. -/
def readChar (w : Packed) (c : Char) : Option Packed :=
  if Pattern.isSkipped c then some w else (Trit.ofChar? c).map w.add

/-- Reads a packed pattern. -/
def parse (text : String) : Except Fault Packed :=
  match text.toList.foldlM readChar ⟨0, 0#16, 0#16⟩ with
  | none => .error (.invalidPattern text)
  | some w => do
    checkLength w.length
    return w

/-- The symbol of the state of a position. -/
def symbol : Option Bool → Char
  | some true => '1'
  | some false => '0'
  | none => '-'

/-- The symbols of the positions in order. -/
instance : ToString Packed where
  toString w := String.ofList (w.values.map symbol)

/-! ## Reachable patterns -/

/-- The packed patterns that can be made. -/
inductive Made : Packed → Prop where
  /-- With all positions free. -/
  | free {length : Nat} {w : Packed} (h : Packed.free length = .ok w) : Made w
  /-- From a number. -/
  | ofMinterm {value length : Nat} {w : Packed} (h : Packed.ofMinterm value length = .ok w) : Made w
  /-- From a text. -/
  | parse {text : String} {w : Packed} (h : Packed.parse text = .ok w) : Made w
  /-- By merging. -/
  | merge {u v w : Packed} (hu : Made u) (hv : Made v) (h : u.merge? v = some w) : Made w

end Packed

end PrimeCover
