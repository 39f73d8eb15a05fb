import PrimeCover.Coverage.Basic

/-!
# Reduction

Three rules make a coverage problem smaller: a candidate that alone covers a minterm is chosen, a candidate
that covers less than another one leaves the pool, and a minterm that is covered with another one anyway is
dropped. The rules search the entries of the lists together with their places, and what leaves a list is taken out at
its place. `reduce` applies the first rule that fires, again and again, until every minterm is covered or no rule
fires. Each application shortens the problem (`size_fire?_lt`), so this comes to an end.

The recorded steps can be carried out without looking for a rule that fires: a step names what it moves or drops.
`replay?` does so from the lists of a problem, and answers nothing when a step names what is not there.
-/

set_option autoImplicit false

namespace PrimeCover.Coverage

/-- The reduction rules. -/
inductive Rule where
  /-- Choose the only candidate that covers a minterm. -/
  | essential
  /-- Discard a candidate that another one dominates. -/
  | row
  /-- Drop a minterm whose column strictly contains that of another one. -/
  | column
deriving DecidableEq, Repr

/-- The first pair of entries that the relation orders, an earlier entry with a later one: the entry that is
related to the other comes first in the answer. -/
def firstRelated? {α : Type} (related : α → α → Bool) : List α → Option (α × α)
  | [] => none
  | a :: rest =>
    match rest.findSome? fun b =>
        if related a b then some (a, b) else if related b a then some (b, a) else none with
    | some found => some found
    | none => firstRelated? related rest

/-- The first active minterm that a single candidate covers, with this candidate and its place in the pool. -/
def essential? (c : Coverage) : Option (Nat × Term × Nat) :=
  c.minterms.findSome? fun m =>
    match c.candidates.zipIdx.filter (m ∈ ·.1) with
    | [(prime, place)] => some (m, prime, place)
    | _ => none

/-- A candidate and another one that it dominates, each with its place in the pool. -/
def row? (c : Coverage) : Option ((Term × Nat) × (Term × Nat)) :=
  firstRelated? (fun kept discarded => kept.1.Dominates discarded.1) c.candidates.zipIdx

/-- A minterm and another one whose column strictly contains that of the first, each with its place among the
active minterms. -/
def column? (c : Coverage) : Option ((Nat × Nat) × (Nat × Nat)) :=
  (firstRelated? (fun kept discarded => kept.2 ⊂ discarded.2)
    (c.minterms.zipIdx.map fun entry => (entry, c.column entry.1))).map
      fun (kept, discarded) => (kept.1, discarded.1)

/-- Applies a rule once, if it fires: what leaves the pool or the active minterms is taken out at the place at which
the search found it. The step is returned and not recorded. -/
def fire? (c : Coverage) : Rule → Option (Step × Coverage)
  | .essential => c.essential?.map fun (m, prime, place) =>
    (.essential m prime.pattern,
      { c with
        minterms := c.minterms.filter (· ∉ prime)
        candidates := c.candidates.eraseIdx place
        primes := c.primes ++ [prime] })
  | .row => c.row?.map fun (kept, discarded) =>
    (.row kept.1.pattern discarded.1.pattern, { c with candidates := c.candidates.eraseIdx discarded.2 })
  | .column => c.column?.map fun (kept, discarded) =>
    (.column kept.1 discarded.1, { c with minterms := c.minterms.eraseIdx discarded.2 })

/-- Tries a single rule: the step that it takes, if it fires, and the problem that it leaves. -/
def tryRule (c : Coverage) (rule : Rule) : Option Step × Coverage :=
  match c.fire? rule with
  | some (step, next) => (some step, next)
  | none => (none, c)

/-- The rules in the order in which they are tried. -/
def rules : List Rule := [.essential, .row, .column]

/-- Applies the first rule that fires. -/
def step? (c : Coverage) : Option (Step × Coverage) :=
  rules.findSome? c.fire?

/-- The number of active minterms and candidates together. -/
def size (c : Coverage) : Nat :=
  c.minterms.length + c.candidates.length

/-! ## Every application shortens the problem -/

/-- The pair that is found consists of entries of the list, and the relation orders it. -/
theorem mem_of_firstRelated? {α : Type} {related : α → α → Bool} {l : List α} {a b : α}
    (h : firstRelated? related l = some (a, b)) : a ∈ l ∧ b ∈ l ∧ related a b = true := by
  induction l with
  | nil => exact nomatch h
  | cons x rest ih =>
    rw [firstRelated?] at h
    split at h
    · next found hfound =>
      obtain ⟨y, hy, here⟩ := List.exists_of_findSome?_eq_some hfound
      have later := List.mem_cons_of_mem x hy
      split at here
      · next hxy =>
        cases here; cases h
        exact ⟨List.mem_cons_self, later, hxy⟩
      · split at here
        · next hyx =>
          cases here; cases h
          exact ⟨later, List.mem_cons_self, hyx⟩
        · exact nomatch here
    · have further := ih h
      exact ⟨List.mem_cons_of_mem x further.1, List.mem_cons_of_mem x further.2.1, further.2.2⟩

/-- The minterm that is found is active, and the candidate is the only one to cover it. -/
theorem mem_of_essential? {c : Coverage} {m : Nat} {prime : Term} {place : Nat}
    (h : c.essential? = some (m, prime, place)) :
    m ∈ c.minterms ∧ c.candidates.zipIdx.filter (m ∈ ·.1) = [(prime, place)] := by
  obtain ⟨k, hk, here⟩ := List.exists_of_findSome?_eq_some h
  split at here
  · next single =>
    cases here
    exact ⟨hk, single⟩
  · exact nomatch here

/-- The two minterms that are found stand at their places, and their columns are related. -/
theorem mem_of_column? {c : Coverage} {kept discarded : Nat × Nat} (h : c.column? = some (kept, discarded)) :
    kept ∈ c.minterms.zipIdx ∧ discarded ∈ c.minterms.zipIdx ∧ c.column kept.1 ⊂ c.column discarded.1 := by
  obtain ⟨⟨⟨k, s⟩, ⟨d, t⟩⟩, found, same⟩ := Option.map_eq_some_iff.mp h
  cases same
  obtain ⟨hk, hd, related⟩ := mem_of_firstRelated? found
  obtain ⟨k', hk', eqk⟩ := List.mem_map.mp hk
  obtain ⟨d', hd', eqd⟩ := List.mem_map.mp hd
  cases eqk; cases eqd
  exact ⟨hk', hd', of_decide_eq_true related⟩

/-- An entry that was found with its place can be taken out there. -/
theorem length_eraseIdx_lt_of_mem_zipIdx {α : Type} {l : List α} {entry : α × Nat} (h : entry ∈ l.zipIdx) :
    (l.eraseIdx entry.2).length < l.length := by
  have inside : entry.2 < l.length := List.snd_lt_of_mem_zipIdx h
  rw [List.length_eraseIdx_of_lt inside]
  omega

/-- Every rule that fires takes an entry out of the pool or out of the active minterms. -/
theorem size_fire?_lt {c next : Coverage} {rule : Rule} {step : Step} (h : c.fire? rule = some (step, next)) :
    next.size < c.size := by
  cases rule with
  | essential =>
    obtain ⟨⟨m, prime, place⟩, found, same⟩ := Option.map_eq_some_iff.mp h
    cases same
    have single := (mem_of_essential? found).2
    have member : (prime, place) ∈ c.candidates.zipIdx :=
      (List.mem_filter.mp (single ▸ List.mem_singleton_self (prime, place))).1
    exact Nat.add_lt_add_of_le_of_lt (List.length_filter_le _ _) (length_eraseIdx_lt_of_mem_zipIdx member)
  | row =>
    obtain ⟨⟨kept, discarded⟩, found, same⟩ := Option.map_eq_some_iff.mp h
    cases same
    have member := (mem_of_firstRelated? found).2.1
    exact Nat.add_lt_add_left (length_eraseIdx_lt_of_mem_zipIdx member) _
  | column =>
    obtain ⟨⟨kept, discarded⟩, found, same⟩ := Option.map_eq_some_iff.mp h
    cases same
    have member := (mem_of_column? found).2.1
    exact Nat.add_lt_add_right (length_eraseIdx_lt_of_mem_zipIdx member) _

/-- The first rule that fires shortens the problem. -/
theorem size_step?_lt {c next : Coverage} {step : Step} (h : c.step? = some (step, next)) :
    next.size < c.size := by
  obtain ⟨rule, -, applied⟩ := List.exists_of_findSome?_eq_some h
  exact size_fire?_lt applied

/-! ## The reduction -/

/-- Applies the rules until every minterm is covered or no rule fires, and records the steps. -/
def reduce (c : Coverage) : Coverage :=
  if c.isCovered then c
  else
    match _fired : c.step? with
    | none => c
    | some (step, next) => reduce { next with steps := next.steps ++ [step] }
termination_by c.size
decreasing_by
  have shorter : next.size < c.size := size_step?_lt _fired
  exact shorter

/-- What single applications and whole reductions make of a problem. -/
inductive Reaches (c : Coverage) : Coverage → Prop where
  | refl : Reaches c c
  | fire {d e : Coverage} {rule : Rule} {step : Step} (before : Reaches c d)
      (fired : d.fire? rule = some (step, e)) : Reaches c e
  | reduce {d : Coverage} (before : Reaches c d) : Reaches c d.reduce

/-! ## Replaying steps -/

/-- Carries out one step: an essential prime moves from the pool to the end of the primes and takes the
minterms of its pattern with it, a row step drops the first candidate with the discarded pattern, and a
column step drops one occurrence of the discarded minterm. -/
def replayStep? (c : Coverage) : Step → Option Coverage
  | .essential _ prime => do
    let chosen ← c.candidates.find? (·.pattern = prime)
    return { c with
      minterms := c.minterms.filter (· ∉ prime)
      candidates := c.candidates.eraseP (·.pattern = prime)
      primes := c.primes ++ [chosen] }
  | .row _ discarded =>
    if c.candidates.any (·.pattern = discarded) then
      some { c with candidates := c.candidates.eraseP (·.pattern = discarded) }
    else none
  | .column _ discarded =>
    if discarded ∈ c.minterms then some { c with minterms := c.minterms.erase discarded } else none

/-- Carries out the steps in order. -/
def replay? (c : Coverage) (steps : List Step) : Option Coverage :=
  steps.foldlM replayStep? c

end PrimeCover.Coverage
