import Mathlib.Data.List.Infix
import Blinkit.Lib.Bisect
import Blinkit.Text.TextCodec

/-!
# Searching the table of entities

Translation of `html_entity_search.cc` and of the accessors of the generated
`html_entity_table.cc`. The rows of the table are a parameter.

* `HTMLEntityTable` — the rows in order, and where the names of each letter begin.
* `HTMLEntitySearch` — the rows that begin with the characters so far, found by halving.
* `Among` — what the first and the last of these rows are.
* `Longest` — the longest name that the characters begin with.

Principal result: `search_reads`: the search knows both, whatever the characters are.
-/

set_option autoImplicit false

namespace Blinkit.Html

open Bisect
open Text (Units)

/-! ## The table -/

/-- A character of the source as a code unit. -/
def chr (c : Char) : UInt16 := UInt16.ofNat c.toNat

/-- `IsASCIIAlpha`. -/
def isASCIIAlpha (c : UInt16) : Bool :=
  (0x41 ≤ c && c ≤ 0x5A) || (0x61 ≤ c && c ≤ 0x7A)

/-- A row: the name, `;` included where it is part of it, and one or two code points. -/
structure HTMLEntityTableEntry where
  name : Units
  firstValue : Nat
  secondValue : Nat
  deriving DecidableEq, Repr

/-- `EntityString`, as long as the row says. -/
def entityString (entries : List HTMLEntityTableEntry) (i : Nat) : Units :=
  (entries[i]?.map HTMLEntityTableEntry.name).getD []

/-- The names that begin with `c` are those from `first` on, up to `next`. -/
def Block (entries : List HTMLEntityTableEntry) (c : UInt16) (first next : Nat) : Prop :=
  first < next ∧ next ≤ entries.length ∧
    ∀ i < entries.length, (entityString entries i).head? = some c ↔ first ≤ i ∧ i < next

instance (entries : List HTMLEntityTableEntry) (c : UInt16) (first next : Nat) :
    Decidable (Block entries c first next) := by
  unfold Block
  infer_instance

/-- The table: names in order, each with a letter in front, and the blocks of the letters. -/
structure HTMLEntityTable where
  entries : List HTMLEntityTableEntry
  uppercaseOffset : List Nat
  lowercaseOffset : List Nat
  named : ∀ e ∈ entries, ∃ c, e.name.head? = some c ∧ isASCIIAlpha c = true
  sorted : entries.Pairwise fun e e' => e.name < e'.name
  semicolon : ∀ e ∈ entries, chr ';' ∉ e.name.dropLast
  uppercase : ∀ k < 26, Block entries (0x41 + UInt16.ofNat k) (uppercaseOffset.getD k 0)
    (uppercaseOffset.getD (k + 1) 0)
  lowercase : ∀ k < 26, Block entries (0x61 + UInt16.ofNat k) (lowercaseOffset.getD k 0)
    (lowercaseOffset.getD (k + 1) 0)

namespace HTMLEntityTable

def name (table : HTMLEntityTable) (i : Nat) : Units := entityString table.entries i

/-- `FirstEntryStartingWith` and `LastEntryStartingWith`. -/
def entriesStartingWith (table : HTMLEntityTable) (c : UInt16) : Option (Nat × Nat) :=
  if 0x41 ≤ c ∧ c ≤ 0x5A then
    some (table.uppercaseOffset.getD (c.toNat - 0x41) 0,
      table.uppercaseOffset.getD (c.toNat - 0x41 + 1) 0 - 1)
  else if 0x61 ≤ c ∧ c ≤ 0x7A then
    some (table.lowercaseOffset.getD (c.toNat - 0x61) 0,
      table.lowercaseOffset.getD (c.toNat - 0x61 + 1) 0 - 1)
  else none

end HTMLEntityTable

/-! ## The search -/

/-- `Compare`, with the length so far: `lt`, `eq` and `gt` are `kBefore`, `kPrefix`, `kAfter`. -/
def compareName (name : Units) (currentLength : Nat) (nextCharacter : UInt16) : Ordering :=
  if name.length < currentLength + 1 then .lt
  else
    let entryNextCharacter := name.getD currentLength 0
    if entryNextCharacter = nextCharacter then .eq
    else if entryNextCharacter < nextCharacter then .lt
    else .gt

/-- `HTMLEntitySearch`. There is no range when `first_` and `last_` are null. -/
structure HTMLEntitySearch where
  currentLength : Nat
  mostRecentMatch : Option Nat
  range : Option (Nat × Nat)
  deriving DecidableEq, Repr

namespace HTMLEntitySearch

variable (table : HTMLEntityTable)

/-- The constructor. -/
def start : HTMLEntitySearch := ⟨0, none, some (0, table.entries.length - 1)⟩

def isEntityPrefix (s : HTMLEntitySearch) : Bool := s.range.isSome

/-- `FindFirst`. -/
def findFirst (currentLength left right : Nat) (nextCharacter : UInt16) : Nat :=
  Bisect.first (fun probe => compareName (table.name probe) currentLength nextCharacter) left right

/-- `FindLast`. -/
def findLast (currentLength left right : Nat) (nextCharacter : UInt16) : Nat :=
  Bisect.last (fun probe => compareName (table.name probe) currentLength nextCharacter) left right

/-- `Fail`. -/
def fail (s : HTMLEntitySearch) : HTMLEntitySearch := { s with range := none }

/-- The end of `Advance`. -/
def accept (s : HTMLEntitySearch) (first last : Nat) : HTMLEntitySearch :=
  { currentLength := s.currentLength + 1
    mostRecentMatch :=
      if (table.name first).length = s.currentLength + 1 then some first else s.mostRecentMatch
    range := some (first, last) }

/-- `Advance`. It is not called when the search has failed. -/
def advance (s : HTMLEntitySearch) (nextCharacter : UInt16) : HTMLEntitySearch :=
  if s.currentLength = 0 then
    match table.entriesStartingWith nextCharacter with
    | none => s.fail
    | some (first, last) => s.accept table first last
  else
    match s.range with
    | none => s
    | some (left, right) =>
      let first := findFirst table s.currentLength left right nextCharacter
      let last := findLast table s.currentLength first right nextCharacter
      if first = last ∧ compareName (table.name first) s.currentLength nextCharacter ≠ .eq then
        s.fail
      else s.accept table first last

/-- The characters of a text, one after the other, until the search fails. -/
def advanceAll (s : HTMLEntitySearch) : Units → HTMLEntitySearch
  | [] => s
  | c :: text => if s.isEntityPrefix then (s.advance table c).advanceAll text else s

end HTMLEntitySearch

/-! ## Names in order -/

section Names

variable {p x y : Units} {c : UInt16}

/-- What is compared is the character behind the common part. -/
theorem compareName_append (p x : Units) (c : UInt16) :
    compareName (p ++ x) p.length c =
      match x with
      | [] => .lt
      | d :: _ => if d = c then .eq else if d < c then .lt else .gt := by
  unfold compareName
  cases x with
  | nil => rw [if_pos (by rw [List.append_nil]; omega)]
  | cons d x =>
    have hlength : ¬ (p ++ d :: x).length < p.length + 1 := by
      rw [List.length_append, List.length_cons]
      omega
    have hget : (p ++ d :: x).getD p.length 0 = d := by
      rw [List.getD_eq_getElem?_getD, List.getElem?_append_right (Nat.le_refl _), Nat.sub_self]
      rfl
    rw [if_neg hlength, hget]

theorem compareName_eq_iff (p x : Units) (c : UInt16) :
    compareName (p ++ x) p.length c = .eq ↔ x.head? = some c := by
  rw [compareName_append]
  cases x with
  | nil => simp
  | cons d x =>
    dsimp only [List.head?_cons]
    split
    · rename_i h
      simp [h]
    · rename_i h
      split <;> simp [h]

theorem compareName_gt_iff (p x : Units) (c : UInt16) :
    compareName (p ++ x) p.length c = .gt ↔ ∃ d x', x = d :: x' ∧ c < d := by
  rw [compareName_append]
  cases x with
  | nil => simp
  | cons d x =>
    dsimp only
    split
    · rename_i h
      simp [h]
    · rename_i h
      split
      · rename_i hlt
        simp [UInt16.lt_asymm hlt]
      · rename_i hge
        simp [UInt16.lt_of_le_of_ne (UInt16.not_lt.mp hge) (Ne.symm h)]

theorem compareName_lt_iff (p x : Units) (c : UInt16) :
    compareName (p ++ x) p.length c = .lt ↔ ∀ d x', x = d :: x' → d < c := by
  rw [compareName_append]
  cases x with
  | nil => simp
  | cons d x =>
    dsimp only
    split
    · rename_i h
      simp [h]
    · rename_i h
      split
      · rename_i hlt
        simp [hlt]
      · rename_i hge
        simp [hge]

theorem lt_of_append_lt (h : p ++ x < p ++ y) : x < y := by
  induction p with
  | nil => exact h
  | cons d p ih =>
    rcases List.cons_lt_cons_iff.mp h with hlt | ⟨-, hlt⟩
    · exact absurd hlt (UInt16.lt_irrefl d)
    · exact ih hlt

/-- A name behind one that is greater is greater. -/
theorem compareName_gt (h : p ++ x < p ++ y) (hx : compareName (p ++ x) p.length c = .gt) :
    compareName (p ++ y) p.length c = .gt := by
  obtain ⟨d, x', rfl, hd⟩ := (compareName_gt_iff p x c).mp hx
  refine (compareName_gt_iff p y c).mpr ?_
  cases y with
  | nil => exact absurd (lt_of_append_lt h) (List.not_lt_nil _)
  | cons e y =>
    refine ⟨e, y, rfl, ?_⟩
    rcases List.cons_lt_cons_iff.mp (lt_of_append_lt h) with hlt | ⟨heq, -⟩
    · exact UInt16.lt_trans hd hlt
    · rwa [← heq]

/-- A name before one that is less is less. -/
theorem compareName_lt (h : p ++ x < p ++ y) (hy : compareName (p ++ y) p.length c = .lt) :
    compareName (p ++ x) p.length c = .lt := by
  refine (compareName_lt_iff p x c).mpr fun d x' hx => ?_
  subst hx
  cases y with
  | nil => exact absurd (lt_of_append_lt h) (List.not_lt_nil _)
  | cons e y =>
    have he := (compareName_lt_iff p (e :: y) c).mp hy e y rfl
    rcases List.cons_lt_cons_iff.mp (lt_of_append_lt h) with hlt | ⟨heq, -⟩
    · exact UInt16.lt_trans hlt he
    · rwa [heq]

end Names

/-! ## The rows that begin with a text -/

section Rows

variable {table : HTMLEntityTable} {p : Units} {c : UInt16}

theorem HTMLEntityTable.name_lt (table : HTMLEntityTable) {i j : Nat} (hij : i < j)
    (hj : j < table.entries.length) : table.name i < table.name j := by
  unfold HTMLEntityTable.name entityString
  rw [List.getElem?_eq_getElem hj, List.getElem?_eq_getElem (Nat.lt_trans hij hj)]
  exact List.pairwise_iff_getElem.mp table.sorted i j _ hj hij

theorem HTMLEntityTable.name_head (table : HTMLEntityTable) {i : Nat}
    (hi : i < table.entries.length) :
    ∃ c, (table.name i).head? = some c ∧ isASCIIAlpha c = true := by
  unfold HTMLEntityTable.name entityString
  rw [List.getElem?_eq_getElem hi]
  exact table.named _ (List.getElem_mem hi)

/-- The rows whose names begin with `p` are those from `first` to `last`. -/
structure Among (table : HTMLEntityTable) (p : Units) (first last : Nat) : Prop where
  first_le : first ≤ last
  last_lt : last < table.entries.length
  iff : ∀ i < table.entries.length, p <+: table.name i ↔ first ≤ i ∧ i ≤ last

/-- The longest name that `p` begins with. -/
def Longest (table : HTMLEntityTable) (p : Units) : Option Nat → Prop
  | none => ∀ i < table.entries.length, ¬ table.name i <+: p
  | some k => k < table.entries.length ∧ table.name k <+: p ∧
      ∀ i < table.entries.length, table.name i <+: p →
        (table.name i).length ≤ (table.name k).length

theorem Among.isPrefix {first last i : Nat} (h : Among table p first last) (hfirst : first ≤ i)
    (hlast : i ≤ last) : p <+: table.name i :=
  (h.iff i (Nat.lt_of_le_of_lt hlast h.last_lt)).mpr ⟨hfirst, hlast⟩

/-- Rows of the range in order. -/
theorem Among.eq_or_lt {first last i j : Nat} (h : Among table p first last) (hfirst : first ≤ i)
    (hij : i ≤ j) (hlast : j ≤ last) :
    i = j ∨ ∃ x y, table.name i = p ++ x ∧ table.name j = p ++ y ∧ p ++ x < p ++ y := by
  rcases Nat.lt_or_eq_of_le hij with hlt | heq
  · obtain ⟨x, hx⟩ := h.isPrefix hfirst (Nat.le_trans hij hlast)
    obtain ⟨y, hy⟩ := h.isPrefix (Nat.le_trans hfirst hij) hlast
    refine .inr ⟨x, y, hx.symm, hy.symm, ?_⟩
    rw [hx, hy]
    exact table.name_lt hlt (Nat.lt_of_le_of_lt hlast h.last_lt)
  · exact .inl heq

/-- The comparison with `c` goes through the rows of the range in order. -/
theorem Among.inOrder {first last : Nat} (h : Among table p first last) (c : UInt16) :
    InOrder (fun i => compareName (table.name i) p.length c) first last := by
  constructor
  · intro i j hfirst hij hlast hi
    rcases h.eq_or_lt hfirst hij hlast with rfl | ⟨x, y, hx, hy, hlt⟩
    · exact hi
    · rw [hx] at hi
      rw [hy]
      exact compareName_gt hlt hi
  · intro i j hfirst hij hlast hj
    rcases h.eq_or_lt hfirst hij hlast with rfl | ⟨x, y, hx, hy, hlt⟩
    · exact hj
    · rw [hy] at hj
      rw [hx]
      exact compareName_lt hlt hj

/-- A row of the range goes on with `c` when the comparison says so. -/
theorem Among.compareName_iff {first last i : Nat} (h : Among table p first last)
    (hfirst : first ≤ i) (hlast : i ≤ last) :
    compareName (table.name i) p.length c = .eq ↔ p ++ [c] <+: table.name i := by
  obtain ⟨x, hx⟩ := h.isPrefix hfirst hlast
  rw [← hx, compareName_eq_iff, List.prefix_append_right_inj]
  cases x with
  | nil => simp
  | cons d x => simp [List.cons_prefix_cons, eq_comm]

/-- The rows of a letter. -/
theorem Block.among {first next : Nat} (h : Block table.entries c first next) :
    Among table [c] first (next - 1) := by
  obtain ⟨hlt, hle, hiff⟩ := h
  refine ⟨by omega, by omega, fun i hi => ?_⟩
  have hrow := hiff i hi
  unfold HTMLEntityTable.name
  cases hname : entityString table.entries i with
  | nil =>
    rw [hname] at hrow
    constructor
    · intro h
      exact absurd h (by simp)
    · intro h
      cases hrow.mpr ⟨h.1, by omega⟩
  | cons d name =>
    rw [hname] at hrow
    rw [List.cons_prefix_cons]
    constructor
    · rintro ⟨rfl, -⟩
      have := hrow.mp rfl
      omega
    · intro h
      exact ⟨(Option.some.inj (hrow.mpr ⟨h.1, by omega⟩)).symm, List.nil_prefix⟩

theorem letter_of_offset {base : UInt16} (h : base.toNat ≤ c.toNat) :
    base + UInt16.ofNat (c.toNat - base.toNat) = c := by
  apply UInt16.toNat.inj
  have := c.toNat_lt
  rw [UInt16.toNat_add, UInt16.toNat_ofNat']
  omega

/-- `FirstEntryStartingWith` and `LastEntryStartingWith` are the ends of the block. -/
theorem entriesStartingWith_spec (table : HTMLEntityTable) (c : UInt16) :
    match table.entriesStartingWith c with
    | none => ∀ i < table.entries.length, ¬ [c] <+: table.name i
    | some r => Among table [c] r.1 r.2 := by
  unfold HTMLEntityTable.entriesStartingWith
  by_cases hupper : 0x41 ≤ c ∧ c ≤ 0x5A
  · have hlow : 0x41 ≤ c.toNat := UInt16.le_iff_toNat_le.mp hupper.1
    have hhigh : c.toNat ≤ 0x5A := UInt16.le_iff_toNat_le.mp hupper.2
    have hletter : 0x41 + UInt16.ofNat (c.toNat - 0x41) = c := letter_of_offset hlow
    have hblock := table.uppercase (c.toNat - 0x41) (by omega)
    rw [hletter] at hblock
    rw [if_pos hupper]
    exact hblock.among
  · rw [if_neg hupper]
    by_cases hlower : 0x61 ≤ c ∧ c ≤ 0x7A
    · have hlow : 0x61 ≤ c.toNat := UInt16.le_iff_toNat_le.mp hlower.1
      have hhigh : c.toNat ≤ 0x7A := UInt16.le_iff_toNat_le.mp hlower.2
      have hletter : 0x61 + UInt16.ofNat (c.toNat - 0x61) = c := letter_of_offset hlow
      have hblock := table.lowercase (c.toNat - 0x61) (by omega)
      rw [hletter] at hblock
      rw [if_pos hlower]
      exact hblock.among
    · rw [if_neg hlower]
      intro i hi hbegins
      obtain ⟨d, hd, halpha⟩ := table.name_head hi
      obtain ⟨x, hx⟩ := hbegins
      rw [← hx] at hd
      cases hd
      unfold isASCIIAlpha at halpha
      simp only [Bool.or_eq_true, Bool.and_eq_true, decide_eq_true_eq] at halpha
      exact halpha.elim hupper hlower

/-- The row that is a text is the first of those that begin with it. -/
theorem Among.first_eq {first last i : Nat} (h : Among table p first last)
    (hi : i < table.entries.length) (hname : table.name i = p) : i = first := by
  have hrange := (h.iff i hi).mp (by rw [hname])
  refine Classical.byContradiction fun hne => ?_
  obtain ⟨x, hx⟩ := h.isPrefix (Nat.le_refl _) h.first_le
  have hlt := table.name_lt (Nat.lt_of_le_of_ne hrange.1 (Ne.symm hne)) hi
  rw [hname, ← hx] at hlt
  have hnil : x < [] := lt_of_append_lt (p := p) (by rwa [List.append_nil])
  exact List.not_lt_nil _ hnil

/-- What is longest stays so when no other row comes into play. -/
theorem longest_mono {q : Units} {best : Option Nat} (hbest : Longest table p best) (hpq : p <+: q)
    (hold : ∀ i < table.entries.length, table.name i <+: q → table.name i <+: p) :
    Longest table q best := by
  cases best with
  | none => exact fun i hi hbegins => hbest i hi (hold i hi hbegins)
  | some k =>
    exact ⟨hbest.1, hbest.2.1.trans hpq, fun i hi hbegins => hbest.2.2 i hi (hold i hi hbegins)⟩

/-- A row that is recorded is longer than those before. -/
theorem longest_accept {first last : Nat} {best : Option Nat} (hbest : Longest table p best)
    (h : Among table (p ++ [c]) first last) :
    Longest table (p ++ [c])
      (if (table.name first).length = p.length + 1 then some first else best) := by
  have hfirst := h.isPrefix (Nat.le_refl _) h.first_le
  split
  · rename_i hlength
    have hname : p ++ [c] = table.name first :=
      hfirst.eq_of_length (by rw [List.length_append, hlength]; rfl)
    refine ⟨Nat.lt_of_le_of_lt h.first_le h.last_lt, by rw [hname], fun i _ hi => ?_⟩
    rw [← hname]
    exact hi.length_le
  · rename_i hlength
    refine longest_mono hbest (List.prefix_append p [c]) fun i hi hbegins => ?_
    rcases List.prefix_concat_iff.mp hbegins with heq | hold
    · have hfirst_eq := h.first_eq hi heq
      subst hfirst_eq
      rw [heq, List.length_append] at hlength
      exact absurd rfl hlength
    · exact hold

/-- What is known after the characters `p`. -/
structure Reads (table : HTMLEntityTable) (p : Units) (s : HTMLEntitySearch) : Prop where
  longest : Longest table p s.mostRecentMatch
  range :
    match s.range with
    | none => ∀ i < table.entries.length, ¬ p <+: table.name i
    | some r => s.currentLength = p.length ∧ Among table p r.1 r.2

/-- A search that has failed knows what it needs about every longer text. -/
theorem Reads.extend {q : Units} {s : HTMLEntitySearch} (h : Reads table p s) (hpq : p <+: q)
    (hfailed : s.range = none) : Reads table q s := by
  have hrange := h.range
  rw [hfailed] at hrange
  refine ⟨longest_mono h.longest hpq fun i hi hbegins => ?_, ?_⟩
  · rcases List.prefix_or_prefix_of_prefix hbegins hpq with hold | hold
    · exact hold
    · exact absurd hold (hrange i hi)
  · rw [hfailed]
    exact fun i hi hq => hrange i hi (hpq.trans hq)

theorem reads_fail {s : HTMLEntitySearch} (h : Reads table p s)
    (hnone : ∀ i < table.entries.length, ¬ p ++ [c] <+: table.name i) :
    Reads table (p ++ [c]) s.fail := by
  refine ⟨longest_mono h.longest (List.prefix_append p [c]) fun i hi hbegins => ?_, hnone⟩
  rcases List.prefix_concat_iff.mp hbegins with heq | hold
  · exact absurd (by rw [heq]) (hnone i hi)
  · exact hold

theorem reads_accept {s : HTMLEntitySearch} {first last : Nat} (h : Reads table p s)
    (hlength : s.currentLength = p.length) (hamong : Among table (p ++ [c]) first last) :
    Reads table (p ++ [c]) (s.accept table first last) := by
  unfold HTMLEntitySearch.accept
  rw [hlength]
  refine ⟨longest_accept h.longest hamong, ?_, hamong⟩
  dsimp only
  rw [List.length_append]
  rfl

/-- **One character more.** -/
theorem reads_advance {s : HTMLEntitySearch} (h : Reads table p s)
    (hbegins : s.isEntityPrefix = true) : Reads table (p ++ [c]) (s.advance table c) := by
  obtain ⟨r, hr⟩ := Option.isSome_iff_exists.mp hbegins
  have hrange := h.range
  rw [hr] at hrange
  obtain ⟨hlength, hamong⟩ := hrange
  unfold HTMLEntitySearch.advance
  split
  · rename_i hzero
    have hp : p = [] := List.length_eq_zero_iff.mp (by omega)
    subst hp
    have hstart := entriesStartingWith_spec table c
    split
    · rename_i hnone
      rw [hnone] at hstart
      exact reads_fail h hstart
    · rename_i first last hsome
      rw [hsome] at hstart
      exact reads_accept h hlength hstart
  · rw [hr]
    dsimp only
    rw [hlength]
    have hiff (i : Nat) (hi : r.1 ≤ i) (hi' : i ≤ r.2) := hamong.compareName_iff (c := c) hi hi'
    rcases equal_range (hamong.inOrder c) hamong.first_le rfl rfl with
      ⟨hsame, hne, hnone⟩ | ⟨heq, hfirst, hle, hlast, hall⟩
    · rw [if_pos ⟨hsame, hne⟩]
      refine reads_fail h fun i hi hbegins => ?_
      have hin := (hamong.iff i hi).mp ((List.prefix_append p [c]).trans hbegins)
      exact hnone i hin.1 hin.2 ((hiff i hin.1 hin.2).mpr hbegins)
    · rw [if_neg fun hfail => hfail.2 heq]
      refine reads_accept h hlength ⟨hle, Nat.lt_of_le_of_lt hlast hamong.last_lt, fun i hi => ?_⟩
      constructor
      · intro hbegins
        have hin := (hamong.iff i hi).mp ((List.prefix_append p [c]).trans hbegins)
        exact (hall i hin.1 hin.2).mp ((hiff i hin.1 hin.2).mpr hbegins)
      · intro hin
        have hleft := Nat.le_trans hfirst hin.1
        have hright := Nat.le_trans hin.2 hlast
        exact (hiff i hleft hright).mp ((hall i hleft hright).mpr hin)

theorem reads_start (table : HTMLEntityTable) : Reads table [] (HTMLEntitySearch.start table) := by
  have hblock := table.uppercase 0 (by omega)
  have hpos : 0 < table.entries.length := Nat.lt_of_lt_of_le (Nat.zero_lt_of_lt hblock.1) hblock.2.1
  refine ⟨fun i hi hbegins => ?_, rfl, ⟨Nat.zero_le _, Nat.sub_lt hpos Nat.one_pos, fun i hi => ?_⟩⟩
  · obtain ⟨c, hc, -⟩ := table.name_head hi
    rw [List.prefix_nil.mp hbegins] at hc
    cases hc
  · exact ⟨fun _ => ⟨Nat.zero_le _, Nat.le_sub_one_of_lt hi⟩, fun _ => List.nil_prefix⟩

theorem reads_advanceAll {s : HTMLEntitySearch} (h : Reads table p s) (text : Units) :
    Reads table (p ++ text) (s.advanceAll table text) := by
  induction text generalizing p s with
  | nil => rwa [List.append_nil]
  | cons c text ih =>
    unfold HTMLEntitySearch.advanceAll
    split
    · rename_i hbegins
      have hrest := ih (reads_advance (c := c) h hbegins)
      rwa [List.append_assoc] at hrest
    · rename_i hfailed
      exact h.extend (List.prefix_append p _) (Option.not_isSome_iff_eq_none.mp hfailed)

end Rows

/-- After any characters, the search knows the longest row that they begin with. -/
theorem longest_advanceAll (table : HTMLEntityTable) (text : Units) :
    Longest table text ((HTMLEntitySearch.start table).advanceAll table text).mostRecentMatch :=
  (reads_advanceAll (reads_start table) text).longest

/-- After any characters, the search is that of a prefix exactly when a row begins with them. -/
theorem isEntityPrefix_advanceAll (table : HTMLEntityTable) (text : Units) :
    ((HTMLEntitySearch.start table).advanceAll table text).isEntityPrefix = true ↔
      ∃ i < table.entries.length, text <+: table.name i := by
  have h := (reads_advanceAll (reads_start table) text).range
  unfold HTMLEntitySearch.isEntityPrefix
  cases hs : ((HTMLEntitySearch.start table).advanceAll table text).range with
  | none =>
    rw [hs] at h
    refine ⟨fun hbegins => Bool.noConfusion hbegins, ?_⟩
    rintro ⟨i, hi, hbegins⟩
    exact absurd hbegins (h i hi)
  | some r =>
    rw [hs] at h
    obtain ⟨-, hamong⟩ := h
    have hlt := Nat.lt_of_le_of_lt hamong.first_le hamong.last_lt
    exact iff_of_true rfl ⟨r.1, hlt, hamong.isPrefix (Nat.le_refl _) hamong.first_le⟩

/-- **The search by halves finds what is in the table.** After any characters, the search is that
of a prefix exactly when a row of the table begins with them, and the most recent match is the
longest row that they begin with. -/
theorem search_reads (table : HTMLEntityTable) (text : Units) :
    let s := (HTMLEntitySearch.start table).advanceAll table text
    (s.isEntityPrefix = true ↔ ∃ i < table.entries.length, text <+: table.name i) ∧
      (s.isEntityPrefix = true → s.currentLength = text.length) ∧
      Longest table text s.mostRecentMatch := by
  intro s
  refine ⟨isEntityPrefix_advanceAll table text, ?_, longest_advanceAll table text⟩
  have hrange : _ := (reads_advanceAll (reads_start table) text).range
  unfold HTMLEntitySearch.isEntityPrefix
  intro hbegins
  cases hs : s.range with
  | none =>
    rw [hs] at hbegins
    cases hbegins
  | some r =>
    rw [hs] at hrange
    exact hrange.1

/-! ## A few rows -/

def row (name : List Char) (firstValue secondValue : Nat) : HTMLEntityTableEntry :=
  ⟨name.map chr, firstValue, secondValue⟩

/-- Rows of the table, one for each letter at least. -/
def fewEntries : List HTMLEntityTableEntry :=
  [row ['A', 'M', 'P'] 0x26 0, row ['B', 'c', 'y', ';'] 0x411 0, row ['C', 'O', 'P', 'Y'] 0xA9 0,
    row ['D', 'D', ';'] 0x2145 0, row ['E', 'T', 'H'] 0xD0 0, row ['F', 'c', 'y', ';'] 0x424 0,
    row ['G', 'T'] 0x3E 0, row ['H', 'a', 't', ';'] 0x5E 0, row ['I', 'm', ';'] 0x2111 0,
    row ['J', 'c', 'y', ';'] 0x419 0, row ['K', 'c', 'y', ';'] 0x41A 0, row ['L', 'T'] 0x3C 0,
    row ['M', 'u', ';'] 0x39C 0,
    row ['N', 'o', 't', 'E', 'q', 'u', 'a', 'l', 'T', 'i', 'l', 'd', 'e', ';'] 0x2242 0x338,
    row ['O', 'r', ';'] 0x2A54 0, row ['P', 'i', ';'] 0x3A0 0, row ['Q', 'U', 'O', 'T'] 0x22 0,
    row ['R', 'E', 'G'] 0xAE 0, row ['S', 'c', ';'] 0x2ABC 0, row ['T', 'a', 'b', ';'] 0x9 0,
    row ['U', 'c', 'y', ';'] 0x423 0, row ['V', 'c', 'y', ';'] 0x412 0,
    row ['W', 'f', 'r', ';'] 0x1D51A 0, row ['X', 'i', ';'] 0x39E 0,
    row ['Y', 'c', 'y', ';'] 0x42B 0, row ['Z', 'c', 'y', ';'] 0x417 0,
    row ['a', 'm', 'p'] 0x26 0, row ['a', 'm', 'p', ';'] 0x26 0,
    row ['b', 'c', 'y', ';'] 0x431 0, row ['c', 'a', 'p', ';'] 0x2229 0,
    row ['d', 'd', ';'] 0x2146 0, row ['e', 'e', ';'] 0x2147 0, row ['f', 'c', 'y', ';'] 0x444 0,
    row ['g', 't'] 0x3E 0, row ['g', 't', ';'] 0x3E 0, row ['h', 'f', 'r', ';'] 0x1D525 0,
    row ['i', 'c', ';'] 0x2063 0, row ['j', 'c', 'y', ';'] 0x439 0,
    row ['k', 'c', 'y', ';'] 0x43A 0, row ['l', 't'] 0x3C 0, row ['l', 't', ';'] 0x3C 0,
    row ['m', 'p', ';'] 0x2213 0, row ['n', 'b', 's', 'p', ';'] 0xA0 0,
    row ['n', 'o', 't'] 0xAC 0, row ['n', 'o', 't', ';'] 0xAC 0,
    row ['n', 'o', 't', 'i', 'n', ';'] 0x2209 0, row ['o', 'S', ';'] 0x24C8 0,
    row ['p', 'i', ';'] 0x3C0 0, row ['q', 'u', 'o', 't', ';'] 0x22 0,
    row ['r', 'e', 'g'] 0xAE 0, row ['s', 'c', ';'] 0x227B 0, row ['t', 'a', 'u', ';'] 0x3C4 0,
    row ['u', 'm', 'l'] 0xA8 0, row ['v', 'c', 'y', ';'] 0x432 0, row ['w', 'p', ';'] 0x2118 0,
    row ['x', 'i', ';'] 0x3BE 0, row ['y', 'e', 'n'] 0xA5 0, row ['z', 'c', 'y', ';'] 0x437 0]

def fewUppercaseOffsets : List Nat :=
  [0, 1, 2, 3, 4, 5, 6, 7, 8, 9, 10, 11, 12, 13, 14, 15, 16, 17, 18, 19, 20, 21, 22, 23, 24,
    25, 26]

def fewLowercaseOffsets : List Nat :=
  [26, 28, 29, 30, 31, 32, 33, 35, 36, 37, 38, 39, 41, 42, 46, 47, 48, 49, 50, 51, 52, 53, 54,
    55, 56, 57, 58]

theorem few_named : ∀ e ∈ fewEntries, ∃ c, e.name.head? = some c ∧ isASCIIAlpha c = true := by
  have h : fewEntries.all fun e => e.name.head?.any isASCIIAlpha := by decide +kernel
  intro e he
  exact (Option.any_eq_true _ _).mp (List.all_eq_true.mp h e he)

theorem few_sorted : fewEntries.Pairwise fun e e' => e.name < e'.name := by decide +kernel

theorem few_semicolon : ∀ e ∈ fewEntries, chr ';' ∉ e.name.dropLast := by decide +kernel

theorem few_uppercase : ∀ k < 26, Block fewEntries (0x41 + UInt16.ofNat k)
    (fewUppercaseOffsets.getD k 0) (fewUppercaseOffsets.getD (k + 1) 0) := by decide +kernel

theorem few_lowercase : ∀ k < 26, Block fewEntries (0x61 + UInt16.ofNat k)
    (fewLowercaseOffsets.getD k 0) (fewLowercaseOffsets.getD (k + 1) 0) := by decide +kernel

/-- A table that is read like the whole one where names end in these rows. -/
def fewRows : HTMLEntityTable :=
  ⟨fewEntries, fewUppercaseOffsets, fewLowercaseOffsets, few_named, few_sorted, few_semicolon,
    few_uppercase, few_lowercase⟩

end Blinkit.Html
