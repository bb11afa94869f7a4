import Blinkit.Html.HTMLEntitySearch
import Blinkit.Platform.SegmentedString
import Blinkit.Text.TextCodecUTF8

/-!
# Reading a character reference

Translation of `html_entity_parser.cc`: what stands behind a `&` in the source is taken from it
when it is a reference, and stays when it is not, or when more of the source must be seen.

* `consumeHTMLEntity` — the loop over the source, with its states; `consumeNamedEntity` — the part
  for names, which may read too far and goes back.
* `reference` — the same for a list of characters, where nothing is taken and put back.
* `numeralValue` — the value of the digits, however many they are.

Principal results: `consumeHTMLEntity_spec`: the loop reads what the list says, wherever the source
is cut; `reference_append`: what is decided is not changed by what arrives behind it.
-/

set_option autoImplicit false

namespace Blinkit.Html

open Platform
open Text (Units appendCharacter)

/-! ## The code points -/

/-- `kWindowsLatin1ExtensionArray`. -/
def windowsLatin1ExtensionArray : Units :=
  [0x20AC, 0x0081, 0x201A, 0x0192, 0x201E, 0x2026, 0x2020, 0x2021,
    0x02C6, 0x2030, 0x0160, 0x2039, 0x0152, 0x008D, 0x017D, 0x008F,
    0x0090, 0x2018, 0x2019, 0x201C, 0x201D, 0x2022, 0x2013, 0x2014,
    0x02DC, 0x2122, 0x0161, 0x203A, 0x0153, 0x009D, 0x017E, 0x0178]

/-- `AdjustEntity`. -/
def adjustEntity (value : Nat) : UInt16 :=
  if value - value % 0x20 ≠ 0x80 then UInt16.ofNat value
  else windowsLatin1ExtensionArray.getD (value - 0x80) 0

/-- What `AppendLegalEntityFor` appends. -/
def legalEntityFor (c : Int) : Units :=
  if c ≤ 0 ∨ c > 0x10FFFF ∨ (0xD800 ≤ c ∧ c ≤ 0xDFFF) then [0xFFFD]
  else if c ≤ 0xFFFF then [adjustEntity c.toNat]
  else appendCharacter c.toNat

/-- What the row stands for. -/
def HTMLEntityTable.decoded (table : HTMLEntityTable) (i : Nat) : Units :=
  match table.entries[i]? with
  | some e =>
    appendCharacter e.firstValue ++
      (if e.secondValue ≠ 0 then appendCharacter e.secondValue else [])
  | none => []

/-! ## Characters -/

def isDigit (cc : UInt16) : Bool := chr '0' ≤ cc && cc ≤ chr '9'

/-- `IsAlphaNumeric`. -/
def isAlphaNumeric (cc : UInt16) : Bool := isDigit cc || isASCIIAlpha cc

/-- `IsHexDigit`. -/
def isHexDigit (cc : UInt16) : Bool :=
  isDigit cc || (chr 'a' ≤ cc && cc ≤ chr 'f') || (chr 'A' ≤ cc && cc ≤ chr 'F')

/-- `AsHexDigit`. -/
def asHexDigit (cc : UInt16) : Nat :=
  if isDigit cc then cc.toNat - (chr '0').toNat
  else if chr 'a' ≤ cc ∧ cc ≤ chr 'z' then 10 + cc.toNat - (chr 'a').toNat
  else 10 + cc.toNat - (chr 'A').toNat

/-! ## The source -/

/-- `UnconsumeCharacters`. -/
def unconsumeCharacters (source : Platform.SegmentedString) : Units → Platform.SegmentedString
  | [c] => source.push c
  | [c, d] => (source.push d).push c
  | consumedCharacters => source.prepend (.ofString consumedCharacters) .unconsume

/-- The answer: more of the source must be seen, there is no reference, or its characters. -/
inductive EntityOutcome where
  | notEnoughCharacters
  | failure
  | success (decodedEntity : Units)
  deriving DecidableEq, Repr

/-- The first loop of `ConsumeNamedEntity`. -/
structure NameRead where
  entitySearch : HTMLEntitySearch
  consumedCharacters : Units
  cc : UInt16
  source : Platform.SegmentedString

def readName (table : HTMLEntityTable) : Nat → NameRead → NameRead
  | 0, r => r
  | fuel + 1, r =>
    if r.source.empty then r
    else
      let cc := r.source.currentChar
      let entitySearch := r.entitySearch.advance table cc
      if !entitySearch.isEntityPrefix then { r with entitySearch := entitySearch, cc := cc }
      else readName table fuel
        ⟨entitySearch, r.consumedCharacters ++ [cc], cc, r.source.advance⟩

/-- `ConsumeNamedEntity`. -/
def consumeNamedEntity (table : HTMLEntityTable) (additionalAllowedCharacter : UInt16)
    (source : Platform.SegmentedString) : Platform.SegmentedString × EntityOutcome :=
  let r := readName table source.length ⟨.start table, [], source.currentChar, source⟩
  if r.source.empty then (unconsumeCharacters r.source r.consumedCharacters, .notEnoughCharacters)
  else
    match r.entitySearch.mostRecentMatch with
    | none => (unconsumeCharacters r.source r.consumedCharacters, .failure)
    | some k =>
      let name := table.name k
      -- The second loop is `Advance` by the length of the match.
      let r :=
        if name.length ≠ r.entitySearch.currentLength then
          let back := (unconsumeCharacters r.source r.consumedCharacters).advanceBy name.length
          ⟨r.entitySearch, back.2, back.1.currentChar, back.1⟩
        else r
      if name.getLast? = some (chr ';') ∨ additionalAllowedCharacter = 0 ∨
          ¬ (isAlphaNumeric r.cc = true ∨ r.cc = chr '=') then
        (r.source, .success (table.decoded k))
      else (unconsumeCharacters r.source r.consumedCharacters, .failure)

inductive EntityState where
  | initial
  | number
  | maybeHexLowerCaseX
  | maybeHexUpperCaseX
  | hex
  | decimal
  | named
  deriving DecidableEq, Repr

/-- What `kInitial` does not go on from. -/
def stopsReference (additionalAllowedCharacter cc : UInt16) : Bool :=
  cc == 0x09 || cc == 0x0A || cc == 0x0C || cc == chr ' ' || cc == chr '<' || cc == chr '&' ||
    (additionalAllowedCharacter != 0 && cc == additionalAllowedCharacter)

/-- What is behind the `switch`: the value is kept within bounds. -/
def clampEntity (result : Int) : Int := if result > 0x10FFFF then -1 else result

/-- `result * base + digit`, unless it is invalid. -/
def addDigit (base : Nat) (result : Int) (cc : UInt16) : Int :=
  if result ≠ -1 then result * base + asHexDigit cc else result

/-- The loop of `ConsumeHTMLEntity`. -/
def consumeEntityLoop (table : HTMLEntityTable) (additionalAllowedCharacter : UInt16) :
    Nat → EntityState → Int → Units → Platform.SegmentedString →
      Platform.SegmentedString × EntityOutcome
  | 0, _, _, _, source => (source, .failure)
  | fuel + 1, entityState, result, consumedCharacters, source =>
    if source.empty then
      (unconsumeCharacters source consumedCharacters, .notEnoughCharacters)
    else
      let cc := source.currentChar
      let loop := consumeEntityLoop table additionalAllowedCharacter fuel
      let proceed (entityState : EntityState) (result : Int) :=
        loop entityState (clampEntity result) (consumedCharacters ++ [cc]) source.advance
      match entityState with
      | .initial =>
        if stopsReference additionalAllowedCharacter cc then (source, .failure)
        else if cc = chr '#' then proceed .number result
        else if isASCIIAlpha cc then loop .named result consumedCharacters source
        else (source, .failure)
      | .number =>
        if cc = chr 'x' then proceed .maybeHexLowerCaseX result
        else if cc = chr 'X' then proceed .maybeHexUpperCaseX result
        else if isDigit cc then loop .decimal result consumedCharacters source
        else (source.push (chr '#'), .failure)
      | .maybeHexLowerCaseX =>
        if isHexDigit cc then loop .hex result consumedCharacters source
        else ((source.push (chr 'x')).push (chr '#'), .failure)
      | .maybeHexUpperCaseX =>
        if isHexDigit cc then loop .hex result consumedCharacters source
        else ((source.push (chr 'X')).push (chr '#'), .failure)
      | .hex =>
        if isHexDigit cc then proceed .hex (addDigit 16 result cc)
        else if cc = chr ';' then (source.advance, .success (legalEntityFor result))
        else (source, .success (legalEntityFor result))
      | .decimal =>
        if isDigit cc then proceed .decimal (addDigit 10 result cc)
        else if cc = chr ';' then (source.advance, .success (legalEntityFor result))
        else (source, .success (legalEntityFor result))
      | .named => consumeNamedEntity table additionalAllowedCharacter source

/-- `ConsumeHTMLEntity`. Every character is looked at twice at most. -/
def consumeHTMLEntity (table : HTMLEntityTable) (source : Platform.SegmentedString)
    (additionalAllowedCharacter : UInt16) : Platform.SegmentedString × EntityOutcome :=
  consumeEntityLoop table additionalAllowedCharacter (2 * source.length + 2) .initial 0 [] source

/-- `DecodeNamedEntityToUCharArray`, which the XML parser uses. -/
def decodeNamedEntityToUCharArray (table : HTMLEntityTable) (name : Units) : Units :=
  let search := (HTMLEntitySearch.start table).advanceAll table name
  if !search.isEntityPrefix then []
  else
    let search := search.advance table (chr ';')
    if !search.isEntityPrefix then []
    else
      match search.mostRecentMatch with
      | some k => table.decoded k
      | none => []

/-! ## Lists of characters -/

/-- The value of the digits. -/
def numeralValue (base : Nat) (digits : Units) : Nat :=
  digits.foldl (fun value cc => value * base + asHexDigit cc) 0

/-- What the digits say, and how many characters are taken with those before them. -/
def numericReference (base : Nat) (isBaseDigit : UInt16 → Bool) (before : Nat) (text : Units) :
    EntityOutcome × Nat :=
  let digits := text.takeWhile isBaseDigit
  match text.dropWhile isBaseDigit with
  | [] => (.notEnoughCharacters, 0)
  | cc :: _ =>
    (.success (legalEntityFor (numeralValue base digits)),
      before + digits.length + if cc = chr ';' then 1 else 0)

/-- What the longest name says. -/
def namedReference (table : HTMLEntityTable) (additionalAllowedCharacter : UInt16) (text : Units) :
    EntityOutcome × Nat :=
  let search := (HTMLEntitySearch.start table).advanceAll table text
  if search.isEntityPrefix then (.notEnoughCharacters, 0)
  else
    match search.mostRecentMatch with
    | none => (.failure, 0)
    | some k =>
      let cc := text.getD (table.name k).length 0
      if (table.name k).getLast? = some (chr ';') ∨ additionalAllowedCharacter = 0 ∨
          ¬ (isAlphaNumeric cc = true ∨ cc = chr '=') then
        (.success (table.decoded k), (table.name k).length)
      else (.failure, 0)

/-- What stands in front of the text, and how many of its characters are taken. -/
def reference (table : HTMLEntityTable) (additionalAllowedCharacter : UInt16) :
    Units → EntityOutcome × Nat
  | [] => (.notEnoughCharacters, 0)
  | cc :: text =>
    if stopsReference additionalAllowedCharacter cc then (.failure, 0)
    else if cc = chr '#' then
      match text with
      | [] => (.notEnoughCharacters, 0)
      | x :: text =>
        if x = chr 'x' ∨ x = chr 'X' then
          match text with
          | [] => (.notEnoughCharacters, 0)
          | digit :: rest =>
            if isHexDigit digit then numericReference 16 isHexDigit 2 (digit :: rest)
            else (.failure, 0)
        else if isDigit x then numericReference 10 isDigit 1 (x :: text)
        else (.failure, 0)
    else if isASCIIAlpha cc then namedReference table additionalAllowedCharacter (cc :: text)
    else (.failure, 0)

/-! ## Values -/

/-- A value that is out of bounds stays so. -/
theorem addDigit_clamp {base : Nat} (hbase : 0 < base) (value : Nat) (cc : UInt16) :
    clampEntity (addDigit base (clampEntity value) cc) =
      clampEntity ((value * base + asHexDigit cc : Nat) : Int) := by
  unfold addDigit
  by_cases hvalue : value ≤ 0x10FFFF
  · have hclamp : clampEntity value = value := if_neg (by omega)
    rw [hclamp, if_pos (by omega)]
    congr 1
  · have hclamp : clampEntity value = -1 := if_pos (by omega)
    have hgrow : value * 1 ≤ value * base := Nat.mul_le_mul_left value hbase
    rw [hclamp, if_neg (by omega)]
    unfold clampEntity
    rw [if_neg (by omega), if_pos (by omega)]

theorem foldl_addDigit {base : Nat} (hbase : 0 < base) (digits : Units) (value : Nat) :
    digits.foldl (fun result cc => clampEntity (addDigit base result cc)) (clampEntity value) =
      clampEntity (digits.foldl (fun value cc => value * base + asHexDigit cc) value : Nat) := by
  induction digits generalizing value with
  | nil => rfl
  | cons cc digits ih => rw [List.foldl_cons, List.foldl_cons, addDigit_clamp hbase, ih]

theorem legalEntityFor_clamp (value : Nat) :
    legalEntityFor (clampEntity value) = legalEntityFor value := by
  unfold clampEntity
  split
  · unfold legalEntityFor
    rw [if_pos (by omega), if_pos (by omega)]
  · rfl

/-! ## The source as a list -/

/-- The list without its first characters. -/
def skip (q : Plain) (n : Nat) : Plain := ⟨q.text.drop n, q.consumed + n, q.closed⟩

/-- The answer, and the source without the characters that are taken. -/
structure Answers (r : Platform.SegmentedString × EntityOutcome) (q : Plain)
    (a : EntityOutcome × Nat) :
    Prop where
  outcome : r.2 = a.1
  shows : r.1.Shows (skip q a.2)

section Source

open Platform.SegmentedString

variable {table : HTMLEntityTable} {additional : UInt16} {source : Platform.SegmentedString}
  {text : Units}
  {n : Int} {closed : Bool}

theorem shows_unconsume (h : source.Shows ⟨text, n, closed⟩) (consumed : Units) :
    (unconsumeCharacters source consumed).Shows
      ⟨consumed ++ text, n - consumed.length, closed⟩ := by
  unfold unconsumeCharacters
  split
  · rename_i c
    exact h.push c
  · rename_i c d
    have hpush := (h.push d).push c
    exact ⟨hpush.ok, hpush.text, hpush.consumed.trans (by dsimp only [List.length]; omega),
      hpush.closed⟩
  · exact h.prepend_ofString consumed .unconsume

/-- Nothing is taken. -/
theorem answers_untaken {q : Plain} {outcome : EntityOutcome} (h : source.Shows q) :
    Answers (source, outcome) q (outcome, 0) := by
  refine ⟨rfl, h.ok, h.text, h.consumed.trans ?_, h.closed⟩
  exact (Int.add_zero _).symm

/-- What was read is given back when the source is used up. -/
theorem answers_empty (consumed : Units) (h : source.Shows ⟨[], n + consumed.length, closed⟩)
    (fuel : Nat) (entityState : EntityState) (result : Int) :
    Answers (consumeEntityLoop table additional (fuel + 1) entityState result consumed source)
      ⟨consumed, n, closed⟩ (.notEnoughCharacters, 0) := by
  have hback := shows_unconsume h consumed
  rw [List.append_nil, Int.add_sub_cancel] at hback
  unfold consumeEntityLoop
  rw [h.isEmpty]
  exact answers_untaken hback

/-- The loop in a state that reads digits. -/
def ReadsDigits (table : HTMLEntityTable) (additional : UInt16) (entityState : EntityState)
    (base : Nat) (isBaseDigit : UInt16 → Bool) : Prop :=
  ∀ fuel result consumed source,
    consumeEntityLoop table additional (fuel + 1) entityState result consumed source =
      if source.empty then (unconsumeCharacters source consumed, .notEnoughCharacters)
      else if isBaseDigit source.currentChar then
        consumeEntityLoop table additional fuel entityState
          (clampEntity (addDigit base result source.currentChar)) (consumed ++ [source.currentChar])
          source.advance
      else if source.currentChar = chr ';' then
        (source.advance, .success (legalEntityFor result))
      else (source, .success (legalEntityFor result))

theorem readsDigits_hex (table : HTMLEntityTable) (additional : UInt16) :
    ReadsDigits table additional .hex 16 isHexDigit := fun _ _ _ _ => rfl

theorem readsDigits_decimal (table : HTMLEntityTable) (additional : UInt16) :
    ReadsDigits table additional .decimal 10 isDigit := fun _ _ _ _ => rfl

/-- **The digits, and what ends them.** -/
theorem digits_spec {entityState : EntityState} {base : Nat} {isBaseDigit : UInt16 → Bool}
    (hstate : ReadsDigits table additional entityState base isBaseDigit) {fuel : Nat}
    (hfuel : text.length < fuel) (h : source.Shows ⟨text, n, closed⟩) (result : Int)
    (consumed : Units) :
    let r := consumeEntityLoop table additional fuel entityState result consumed source
    match text.dropWhile isBaseDigit with
    | [] => r.2 = .notEnoughCharacters ∧
        r.1.Shows ⟨consumed ++ text, n - consumed.length, closed⟩
    | cc :: rest =>
      r.2 = .success (legalEntityFor ((text.takeWhile isBaseDigit).foldl
          (fun result cc => clampEntity (addDigit base result cc)) result)) ∧
        r.1.Shows ⟨if cc = chr ';' then rest else cc :: rest,
          n + ((text.takeWhile isBaseDigit).length + if cc = chr ';' then 1 else 0 : Nat),
          closed⟩ := by
  induction text generalizing fuel source n result consumed with
  | nil =>
    obtain ⟨fuel, rfl⟩ : ∃ k, fuel = k + 1 := ⟨fuel - 1, by omega⟩
    rw [hstate, h.isEmpty]
    exact ⟨rfl, shows_unconsume h consumed⟩
  | cons cc text ih =>
    obtain ⟨fuel, rfl⟩ : ∃ k, fuel = k + 1 := ⟨fuel - 1, by omega⟩
    obtain ⟨hempty, hchar, hadvance⟩ := h.read
    rw [hstate, hempty, hchar, if_neg Bool.false_ne_true, List.dropWhile_cons, List.takeWhile_cons]
    cases hdigit : isBaseDigit cc with
    | true =>
      have hrest := ih (Nat.lt_of_succ_lt_succ hfuel) hadvance
        (clampEntity (addDigit base result cc)) (consumed ++ [cc])
      simp only [if_true]
      revert hrest
      cases text.dropWhile isBaseDigit with
      | nil =>
        intro hrest
        refine ⟨hrest.1, hrest.2.ok, hrest.2.text.trans ?_, hrest.2.consumed.trans ?_,
          hrest.2.closed⟩
        · exact List.append_cons .. |>.symm
        · dsimp only
          rw [List.length_append, List.length_singleton]
          omega
      | cons d rest =>
        intro hrest
        refine ⟨hrest.1, hrest.2.ok, hrest.2.text, hrest.2.consumed.trans ?_, hrest.2.closed⟩
        dsimp only
        rw [List.length_cons]
        omega
    | false =>
      simp only [Bool.false_eq_true, if_false]
      split
      · exact ⟨rfl, hadvance⟩
      · exact ⟨rfl, h.ok, h.text, h.consumed.trans (Int.add_zero n).symm, h.closed⟩

/-- The digits behind the characters `front`, which are given back when more must be seen. -/
theorem numeric_answers {entityState : EntityState} {base : Nat} {isBaseDigit : UInt16 → Bool}
    (hbase : 0 < base) (hstate : ReadsDigits table additional entityState base isBaseDigit)
    (front : Units) {fuel : Nat} (hfuel : text.length < fuel)
    (h : source.Shows ⟨text, n + front.length, closed⟩) :
    Answers (consumeEntityLoop table additional fuel entityState 0 front source)
      ⟨front ++ text, n, closed⟩ (numericReference base isBaseDigit front.length text) := by
  have hspec := digits_spec hstate hfuel h 0 front
  have hvalue := foldl_addDigit hbase (text.takeWhile isBaseDigit) 0
  have htext := List.takeWhile_append_dropWhile (p := isBaseDigit) (l := text)
  unfold numericReference
  dsimp only at hspec ⊢
  generalize text.takeWhile isBaseDigit = digits at hspec hvalue htext ⊢
  generalize text.dropWhile isBaseDigit = after at hspec htext ⊢
  cases after with
  | nil =>
    obtain ⟨houtcome, hshows⟩ := hspec
    refine ⟨houtcome, hshows.ok, hshows.text, hshows.consumed.trans ?_, hshows.closed⟩
    show n + (front.length : Int) - (front.length : Int) = n + 0
    omega
  | cons cc rest =>
    obtain ⟨houtcome, hshows⟩ := hspec
    refine ⟨houtcome.trans ?_, hshows.ok, hshows.text.trans ?_, hshows.consumed.trans ?_,
      hshows.closed⟩
    · refine congrArg EntityOutcome.success ?_
      exact (congrArg legalEntityFor hvalue).trans (legalEntityFor_clamp _)
    · dsimp only [skip]
      rw [← htext, Nat.add_assoc, ← List.drop_drop, List.drop_left, ← List.drop_drop,
        List.drop_left]
      split <;> rfl
    · dsimp only [skip]
      omega

/-- The length grows while the search goes on. -/
theorem advance_length (table : HTMLEntityTable) {search : HTMLEntitySearch}
    (hbegins : search.isEntityPrefix = true) (cc : UInt16) :
    (search.advance table cc).currentLength =
      if (search.advance table cc).isEntityPrefix then search.currentLength + 1
      else search.currentLength := by
  unfold HTMLEntitySearch.advance
  split
  · split <;> rfl
  · split
    · rename_i hrange
      unfold HTMLEntitySearch.isEntityPrefix at hbegins
      rw [hrange] at hbegins
      cases hbegins
    · dsimp only
      split <;> rfl

/-- What the first loop has read of the text, and what it knows. -/
structure NameReadOf (table : HTMLEntityTable) (r : NameRead) (text : Units) (n : Int)
    (closed : Bool) (r' : NameRead) (front rest : Units) : Prop where
  whole : text = front ++ rest
  consumed : r'.consumedCharacters = r.consumedCharacters ++ front
  shows : r'.source.Shows ⟨rest, n + front.length, closed⟩
  search : r'.entitySearch = r.entitySearch.advanceAll table text
  length : r'.entitySearch.currentLength = r.entitySearch.currentLength + front.length
  isEntityPrefix : r'.entitySearch.isEntityPrefix = rest.isEmpty
  cc : rest ≠ [] → r'.cc = rest.headD 0

theorem readName_spec (fuel : Nat) {r : NameRead} (hfuel : text.length ≤ fuel)
    (hbegins : r.entitySearch.isEntityPrefix = true) (h : r.source.Shows ⟨text, n, closed⟩) :
    ∃ front rest, NameReadOf table r text n closed (readName table fuel r) front rest := by
  induction text generalizing fuel r n with
  | nil =>
    have hr : readName table fuel r = r := by
      cases fuel with
      | zero => rfl
      | succ fuel =>
        unfold readName
        rw [h.isEmpty]
        rfl
    rw [hr]
    exact ⟨[], [], rfl, (List.append_nil _).symm, by simpa using h, rfl, rfl, hbegins,
      fun hne => absurd rfl hne⟩
  | cons cc text ih =>
    obtain ⟨fuel, rfl⟩ : ∃ k, fuel = k + 1 :=
      ⟨fuel - 1, by rw [List.length_cons] at hfuel; omega⟩
    obtain ⟨hempty, hchar, hadvance⟩ := h.read
    have hlength := advance_length table hbegins cc
    have hall : r.entitySearch.advanceAll table (cc :: text) =
        (r.entitySearch.advance table cc).advanceAll table text := if_pos hbegins
    unfold readName
    rw [hempty, hchar, if_neg Bool.false_ne_true]
    dsimp only
    cases hnext : (r.entitySearch.advance table cc).isEntityPrefix with
    | false =>
      rw [hnext, if_neg Bool.false_ne_true] at hlength
      have hstop : (r.entitySearch.advance table cc).advanceAll table text =
          r.entitySearch.advance table cc := by
        cases text with
        | nil => rfl
        | cons d text => exact if_neg (by rw [hnext]; exact Bool.false_ne_true)
      exact ⟨[], cc :: text, rfl, (List.append_nil _).symm, by simpa using h,
        (hall.trans hstop).symm,
        hlength, hnext, fun _ => rfl⟩
    | true =>
      rw [hnext, if_pos rfl] at hlength
      obtain ⟨front, rest, htext, hconsumed, hshows, hsearch, hlen, hrest, hcc⟩ :=
        ih fuel (r := ⟨r.entitySearch.advance table cc, r.consumedCharacters ++ [cc], cc,
          r.source.advance⟩) (Nat.le_of_succ_le_succ hfuel) hnext hadvance
      refine ⟨cc :: front, rest, by rw [htext]; rfl, ?_, ?_, hsearch.trans hall.symm, ?_,
        hrest, hcc⟩
      · exact hconsumed.trans (List.append_cons ..).symm
      · refine ⟨hshows.ok, hshows.text, hshows.consumed.trans ?_, hshows.closed⟩
        dsimp only
        rw [List.length_cons]
        omega
      · refine hlen.trans ?_
        dsimp only
        rw [hlength, List.length_cons]
        omega

/-- The source behind the name of a row, whether the loop stopped there or must go back. -/
structure Behind (r : NameRead) (text : Units) (n : Int) (closed : Bool) (length : Nat) : Prop where
  consumed : r.consumedCharacters = text.take length
  shows : r.source.Shows ⟨text.drop length, n + length, closed⟩
  cc : r.cc = text.getD length 0

theorem behind_match {r r' : NameRead} {front rest : Units} {length : Nat}
    (h : NameReadOf table r text n closed r' front rest) (hr : r.consumedCharacters = [])
    (hlength : r.entitySearch.currentLength = 0) (hrest : rest ≠ []) (hle : length ≤ text.length) :
    Behind
      (if length ≠ r'.entitySearch.currentLength then
        let back := (unconsumeCharacters r'.source r'.consumedCharacters).advanceBy length
        ⟨r'.entitySearch, back.2, back.1.currentChar, back.1⟩
      else r') text n closed length := by
  have hconsumed := h.consumed
  rw [hr, List.nil_append] at hconsumed
  have hcurrent := h.length
  rw [hlength, Nat.zero_add] at hcurrent
  split
  · have hback := shows_unconsume h.shows r'.consumedCharacters
    rw [hconsumed, ← h.whole, Int.add_sub_cancel] at hback
    obtain ⟨hwritten, hshows⟩ := hback.advanceBy hle
    rw [hconsumed]
    refine ⟨hwritten, hshows, ?_⟩
    dsimp only
    rw [hshows.ok.currentChar, hshows.text]
    exact SegmentedSubstring.headD_drop text length
  · rename_i hsame
    have hfront : length = front.length := by rw [← hcurrent]; exact Classical.not_not.mp hsame
    have hdrop : text.drop length = rest := by rw [hfront, h.whole, List.drop_left]
    refine ⟨?_, ?_, ?_⟩
    · rw [hconsumed, hfront, h.whole, List.take_left]
    · rw [hdrop, hfront]
      exact h.shows
    · rw [h.cc hrest, ← hdrop]
      exact SegmentedSubstring.headD_drop text length

/-- **The loops of the named entity read what the list says.** -/
theorem named_answers (h : source.Shows ⟨text, n, closed⟩) :
    Answers (consumeNamedEntity table additional source) ⟨text, n, closed⟩
      (namedReference table additional text) := by
  obtain ⟨front, rest, hread⟩ := readName_spec source.length
    (r := ⟨.start table, [], source.currentChar, source⟩) (Nat.le_of_eq h.length.symm) rfl h
  have hlongest := longest_advanceAll table text
  unfold consumeNamedEntity namedReference
  dsimp only
  rw [← hread.search, hread.shows.isEmpty, hread.isEntityPrefix]
  rw [← hread.search] at hlongest
  generalize readName table source.length ⟨.start table, [], source.currentChar, source⟩ = r at *
  have hback := shows_unconsume hread.shows r.consumedCharacters
  have hconsumed : r.consumedCharacters = front := hread.consumed
  rw [hconsumed, ← hread.whole, Int.add_sub_cancel] at hback
  split
  · rw [hconsumed]
    exact answers_untaken hback
  · rename_i hnonempty
    have hrest : rest ≠ [] := fun hnil => hnonempty (by rw [hnil]; rfl)
    cases hmatch : r.entitySearch.mostRecentMatch with
    | none =>
      dsimp only
      rw [hconsumed]
      exact answers_untaken hback
    | some k =>
      rw [hmatch] at hlongest
      have hbehind := behind_match hread rfl rfl hrest hlongest.2.1.length_le
      dsimp only at hbehind ⊢
      revert hbehind
      generalize (if (table.name k).length ≠ r.entitySearch.currentLength then
        NameRead.mk r.entitySearch
          ((unconsumeCharacters r.source r.consumedCharacters).advanceBy (table.name k).length).2
          ((unconsumeCharacters r.source r.consumedCharacters).advanceBy
            (table.name k).length).1.currentChar
          ((unconsumeCharacters r.source r.consumedCharacters).advanceBy (table.name k).length).1
        else r) = r'
      intro hbehind
      rw [hbehind.cc]
      split
      · exact ⟨rfl, hbehind.shows⟩
      · have hunread := shows_unconsume hbehind.shows r'.consumedCharacters
        refine answers_untaken
          ⟨hunread.ok, hunread.text.trans ?_, hunread.consumed.trans ?_, hunread.closed⟩
        · rw [hbehind.consumed]
          exact List.take_append_drop _ _
        · rw [hbehind.consumed]
          dsimp only
          rw [List.length_take, Nat.min_eq_left hlongest.2.1.length_le]
          omega

/-- The hexadecimal digits, if there is one behind the `x`. -/
theorem maybeHex_answers {x : UInt16} {entityState : EntityState}
    (hstate : entityState = .maybeHexLowerCaseX ∧ x = chr 'x' ∨
      entityState = .maybeHexUpperCaseX ∧ x = chr 'X') {fuel : Nat} (hfuel : text.length + 1 < fuel)
    (h : source.Shows ⟨text, n + 2, closed⟩) :
    Answers (consumeEntityLoop table additional fuel entityState 0 [chr '#', x] source)
      ⟨chr '#' :: x :: text, n, closed⟩
      (match text with
      | [] => (.notEnoughCharacters, 0)
      | digit :: rest =>
        if isHexDigit digit then numericReference 16 isHexDigit 2 (digit :: rest)
        else (.failure, 0)) := by
  obtain ⟨fuel, rfl⟩ : ∃ k, fuel = k + 1 := ⟨fuel - 1, by omega⟩
  cases text with
  | nil => exact answers_empty [chr '#', x] h fuel entityState 0
  | cons digit rest =>
    obtain ⟨hempty, hchar, -⟩ := h.read
    have hback : ((source.push x).push (chr '#')).Shows
        ⟨chr '#' :: x :: digit :: rest, n, closed⟩ := by
      have hpush := (h.push x).push (chr '#')
      exact ⟨hpush.ok, hpush.text, hpush.consumed.trans (by dsimp only; omega), hpush.closed⟩
    have hloop : consumeEntityLoop table additional (fuel + 1) entityState 0 [chr '#', x] source =
        if isHexDigit digit then consumeEntityLoop table additional fuel .hex 0 [chr '#', x] source
        else ((source.push x).push (chr '#'), .failure) := by
      rcases hstate with ⟨rfl, rfl⟩ | ⟨rfl, rfl⟩ <;>
      · rw [consumeEntityLoop, hempty, hchar, if_neg Bool.false_ne_true]
    rw [hloop]
    dsimp only
    split
    · exact numeric_answers (by decide) (readsDigits_hex table additional) [chr '#', x] (by omega) h
    · exact answers_untaken hback

/-- What stands behind the `#`. -/
theorem number_answers {fuel : Nat} (hfuel : text.length + 2 < fuel)
    (h : source.Shows ⟨text, n + 1, closed⟩) :
    Answers (consumeEntityLoop table additional fuel .number 0 [chr '#'] source)
      ⟨chr '#' :: text, n, closed⟩
      (match text with
      | [] => (.notEnoughCharacters, 0)
      | x :: text =>
        if x = chr 'x' ∨ x = chr 'X' then
          match text with
          | [] => (.notEnoughCharacters, 0)
          | digit :: rest =>
            if isHexDigit digit then numericReference 16 isHexDigit 2 (digit :: rest)
            else (.failure, 0)
        else if isDigit x then numericReference 10 isDigit 1 (x :: text)
        else (.failure, 0)) := by
  obtain ⟨fuel, rfl⟩ : ∃ k, fuel = k + 1 := ⟨fuel - 1, by omega⟩
  cases text with
  | nil => exact answers_empty [chr '#'] h fuel .number 0
  | cons x text =>
    obtain ⟨hempty, hchar, hadvance⟩ := h.read
    rw [Int.add_assoc] at hadvance
    rw [List.length_cons] at hfuel
    rw [consumeEntityLoop, hempty, hchar, if_neg Bool.false_ne_true]
    dsimp only
    by_cases hlower : x = chr 'x'
    · rw [if_pos hlower, if_pos (.inl hlower)]
      exact maybeHex_answers (.inl ⟨rfl, hlower⟩) (by omega) hadvance
    · rw [if_neg hlower]
      by_cases hupper : x = chr 'X'
      · rw [if_pos hupper, if_pos (.inr hupper)]
        exact maybeHex_answers (.inr ⟨rfl, hupper⟩) (by omega) hadvance
      · rw [if_neg hupper, if_neg (not_or.mpr ⟨hlower, hupper⟩)]
        split
        · exact numeric_answers (by decide) (readsDigits_decimal table additional) [chr '#']
            (by rw [List.length_cons]; omega) h
        · have hback := h.push (chr '#')
          exact answers_untaken
            ⟨hback.ok, hback.text, hback.consumed.trans (Int.add_sub_cancel n 1), hback.closed⟩

/-- **A reference is read from the source as it is read from the list.** -/
theorem consumeHTMLEntity_answers (table : HTMLEntityTable) (additional : UInt16) {q : Plain}
    (h : source.Shows q) :
    Answers (consumeHTMLEntity table source additional) q (reference table additional q.text) := by
  obtain ⟨text, n, closed⟩ := q
  unfold consumeHTMLEntity
  rw [h.length]
  cases text with
  | nil => exact answers_empty [] (by simpa using h) _ .initial 0
  | cons cc text =>
    obtain ⟨hempty, hchar, hadvance⟩ := h.read
    rw [consumeEntityLoop, hempty, hchar, if_neg Bool.false_ne_true]
    unfold reference
    dsimp only
    split
    · exact answers_untaken h
    · split
      · rename_i hhash
        subst hhash
        exact number_answers (by rw [List.length_cons]; omega) hadvance
      · split
        · rw [List.length_cons]
          rw [show 2 * (text.length + 1) + 1 = 2 * text.length + 2 + 1 by omega]
          rw [consumeEntityLoop, hempty, if_neg Bool.false_ne_true]
          exact named_answers h
        · exact answers_untaken h

end Source

/-! ## What arrives later -/

section Later

variable {table : HTMLEntityTable} {additional : UInt16} {text : Units}

theorem dropWhile_append_of_ne {p : UInt16 → Bool} (hne : text.dropWhile p ≠ []) (more : Units) :
    (text ++ more).takeWhile p = text.takeWhile p ∧
      (text ++ more).dropWhile p = text.dropWhile p ++ more := by
  induction text with
  | nil => exact absurd rfl hne
  | cons c text ih =>
    rw [List.dropWhile_cons] at hne
    rw [List.cons_append, List.takeWhile_cons, List.takeWhile_cons, List.dropWhile_cons,
      List.dropWhile_cons]
    split
    · rename_i hc
      rw [if_pos hc] at hne
      exact ⟨congrArg _ (ih hne).1, (ih hne).2⟩
    · exact ⟨rfl, rfl⟩

theorem numericReference_append {base before : Nat} {isBaseDigit : UInt16 → Bool}
    (h : (numericReference base isBaseDigit before text).1 ≠ .notEnoughCharacters) (more : Units) :
    numericReference base isBaseDigit before (text ++ more) =
      numericReference base isBaseDigit before text := by
  have hne : text.dropWhile isBaseDigit ≠ [] := by
    intro hnil
    unfold numericReference at h
    rw [hnil] at h
    exact h rfl
  obtain ⟨htake, hdrop⟩ := dropWhile_append_of_ne hne more
  unfold numericReference
  rw [htake, hdrop]
  cases hafter : text.dropWhile isBaseDigit with
  | nil => exact absurd hafter hne
  | cons cc rest => rfl

/-- A search that has failed looks at no more characters. -/
theorem advanceAll_append {search : HTMLEntitySearch}
    (hfailed : (search.advanceAll table text).isEntityPrefix = false) (more : Units) :
    search.advanceAll table (text ++ more) = search.advanceAll table text := by
  induction text generalizing search with
  | nil =>
    cases more with
    | nil => rfl
    | cons c more => exact if_neg (by rw [show search.isEntityPrefix = false from hfailed]; decide)
  | cons c text ih =>
    rw [List.cons_append, HTMLEntitySearch.advanceAll, HTMLEntitySearch.advanceAll]
    rw [HTMLEntitySearch.advanceAll] at hfailed
    split
    · rename_i hbegins
      rw [if_pos hbegins] at hfailed
      exact ih hfailed
    · rfl

theorem namedReference_append
    (h : (namedReference table additional text).1 ≠ .notEnoughCharacters) (more : Units) :
    namedReference table additional (text ++ more) = namedReference table additional text := by
  have hiff := isEntityPrefix_advanceAll table text
  have hlongest := longest_advanceAll table text
  have hfailed : ((HTMLEntitySearch.start table).advanceAll table text).isEntityPrefix = false := by
    rw [← Bool.not_eq_true]
    intro hbegins
    unfold namedReference at h
    rw [if_pos hbegins] at h
    exact h rfl
  unfold namedReference
  dsimp only
  rw [advanceAll_append hfailed, hfailed]
  cases hmatch : ((HTMLEntitySearch.start table).advanceAll table text).mostRecentMatch with
  | none => rfl
  | some k =>
    rw [hmatch] at hlongest
    -- The text does not end with the name: it would be the beginning of a row.
    have hlt : (table.name k).length < text.length := by
      refine Nat.lt_of_le_of_ne hlongest.2.1.length_le fun heq => ?_
      rw [hiff.mpr ⟨k, hlongest.1, by rw [hlongest.2.1.eq_of_length heq]⟩] at hfailed
      cases hfailed
    have hcc : (text ++ more).getD (table.name k).length 0 = text.getD (table.name k).length 0 := by
      rw [List.getD_eq_getElem?_getD, List.getD_eq_getElem?_getD, List.getElem?_append_left hlt]
    dsimp only
    rw [hcc]

/-- **What is decided stays so, whatever arrives.** -/
theorem reference_append (h : (reference table additional text).1 ≠ .notEnoughCharacters)
    (more : Units) :
    reference table additional (text ++ more) = reference table additional text := by
  cases text with
  | nil => exact absurd rfl h
  | cons cc text =>
    rw [List.cons_append]
    unfold reference at h ⊢
    dsimp only at h ⊢
    split
    · rfl
    · rename_i hgo
      rw [if_neg hgo] at h
      split
      · rename_i hhash
        rw [if_pos hhash] at h
        cases text with
        | nil => exact absurd rfl h
        | cons x text =>
          dsimp only [List.cons_append] at h ⊢
          split
          · rename_i hx
            rw [if_pos hx] at h
            cases text with
            | nil => exact absurd rfl h
            | cons digit rest =>
              dsimp only [List.cons_append] at h ⊢
              split
              · rename_i hdigit
                rw [if_pos hdigit] at h
                exact numericReference_append h more
              · rfl
          · rename_i hx
            rw [if_neg hx] at h
            split
            · rename_i hdigit
              rw [if_pos hdigit] at h
              exact numericReference_append h more
            · rfl
      · rename_i hhash
        rw [if_neg hhash] at h
        split
        · rename_i halpha
          rw [if_pos halpha] at h
          exact namedReference_append h more
        · rfl

end Later

/-! ## What is taken -/

/-- Where an answer comes from. -/
theorem reference_cases (table : HTMLEntityTable) (additional : UInt16) (text : Units) :
    (reference table additional text).2 = 0 ∨
      (∃ base isBaseDigit before rest, before + List.length rest = text.length ∧
        reference table additional text = numericReference base isBaseDigit before rest) ∨
      reference table additional text = namedReference table additional text := by
  unfold reference
  split
  · exact .inl rfl
  · split
    · exact .inl rfl
    · split
      · split
        · exact .inl rfl
        · split
          · split
            · exact .inl rfl
            · split
              · exact .inr (.inl ⟨_, _, _, _, by simp only [List.length_cons]; omega, rfl⟩)
              · exact .inl rfl
          · split
            · exact .inr (.inl ⟨_, _, _, _, by simp only [List.length_cons]; omega, rfl⟩)
            · exact .inl rfl
      · split
        · exact .inr (.inr rfl)
        · exact .inl rfl

theorem numericReference_taken (base before : Nat) (isBaseDigit : UInt16 → Bool) (rest : Units) :
    numericReference base isBaseDigit before rest = (.notEnoughCharacters, 0) ∨
      (∃ decoded, (numericReference base isBaseDigit before rest).1 = .success decoded) ∧
        (numericReference base isBaseDigit before rest).2 ≤ before + rest.length := by
  have hlength := congrArg List.length
    (List.takeWhile_append_dropWhile (p := isBaseDigit) (l := rest))
  rw [List.length_append] at hlength
  unfold numericReference
  cases hafter : rest.dropWhile isBaseDigit with
  | nil => exact .inl rfl
  | cons cc after =>
    rw [hafter, List.length_cons] at hlength
    refine .inr ⟨⟨_, rfl⟩, ?_⟩
    dsimp only
    split <;> omega

theorem namedReference_taken (table : HTMLEntityTable) (additional : UInt16) (text : Units) :
    (namedReference table additional text).2 = 0 ∨
      (∃ decoded, (namedReference table additional text).1 = .success decoded) ∧
        (namedReference table additional text).2 ≤ text.length := by
  have hlongest := longest_advanceAll table text
  unfold namedReference
  dsimp only
  split
  · exact .inl rfl
  · cases hmatch : ((HTMLEntitySearch.start table).advanceAll table text).mostRecentMatch with
    | none => exact .inl rfl
    | some k =>
      rw [hmatch] at hlongest
      dsimp only
      split
      · exact .inr ⟨⟨_, rfl⟩, hlongest.2.1.length_le⟩
      · exact .inl rfl

/-- Nothing is taken unless there is a reference, and no more than there is. -/
theorem reference_taken (table : HTMLEntityTable) (additional : UInt16) (text : Units) :
    (reference table additional text).2 = 0 ∨
      (∃ decoded, (reference table additional text).1 = .success decoded) ∧
        (reference table additional text).2 ≤ text.length := by
  rcases reference_cases table additional text with
    hzero | ⟨base, isBaseDigit, before, rest, hlength, heq⟩ | heq
  · exact .inl hzero
  · rw [heq, ← hlength]
    rcases numericReference_taken base before isBaseDigit rest with hzero | htaken
    · exact .inl (by rw [hzero])
    · exact .inr htaken
  · rw [heq]
    exact namedReference_taken table additional text

/-- **A character reference is read as it is in the whole text.** Wherever the source is cut, the
loops take and put back what leaves it behind the reference that stands in its text, or as it was;
and an answer other than that more must be seen is the same with any text behind. -/
theorem consumeHTMLEntity_spec {source : Platform.SegmentedString} {q : Plain} (h : source.Shows q)
    (table : HTMLEntityTable) (additional : UInt16) :
    Answers (consumeHTMLEntity table source additional) q (reference table additional q.text) ∧
      ((consumeHTMLEntity table source additional).2 ≠ .notEnoughCharacters → ∀ more,
        reference table additional (q.text ++ more) = reference table additional q.text) := by
  have hanswers := consumeHTMLEntity_answers table additional h
  refine ⟨hanswers, fun hdecided more => reference_append ?_ more⟩
  rw [← hanswers.outcome]
  exact hdecided

/-- The name is read past `&not` and back, and what is left is what it was. -/
theorem reference_notit :
    Answers (consumeHTMLEntity fewRows
      ((Platform.SegmentedString.ofString (['n', 'o'].map chr)).append
        (.ofString (['t', 'i', 't'].map chr))) 0) ⟨['n', 'o', 't', 'i', 't'].map chr, 0, false⟩
      (.success [0xAC], 3) := by
  have h := (Platform.SegmentedString.shows_ofString (['n', 'o'].map chr)).append_ofString
    (['t', 'i', 't'].map chr)
  have hreference :
      reference fewRows 0 (['n', 'o', 't', 'i', 't'].map chr) = (.success [0xAC], 3) := by
    decide +kernel
  rw [← hreference]
  exact (consumeHTMLEntity_spec h fewRows 0).1

/-! ## Names of the XML parser -/

theorem name_inj (table : HTMLEntityTable) {i j : Nat} (hi : i < table.entries.length)
    (hj : j < table.entries.length) (h : table.name i = table.name j) : i = j := by
  have hirrefl : ¬ table.name j < table.name j := fun hlt =>
    List.not_lt_nil _ (lt_of_append_lt (p := table.name j) (by rwa [List.append_nil]))
  rcases Nat.lt_trichotomy i j with hlt | heq | hgt
  · have hname := table.name_lt hlt hj
    rw [h] at hname
    exact absurd hname hirrefl
  · exact heq
  · have hname := table.name_lt hgt hi
    rw [h] at hname
    exact absurd hname hirrefl

/-- A semicolon ends the name of a row. -/
theorem name_eq_of_semicolon (table : HTMLEntityTable) {name : Units} {i : Nat}
    (hi : i < table.entries.length) (hbegins : name ++ [chr ';'] <+: table.name i) :
    table.name i = name ++ [chr ';'] := by
  obtain ⟨x, hx⟩ := hbegins
  have hrow : chr ';' ∉ (table.name i).dropLast := by
    unfold HTMLEntityTable.name entityString
    rw [List.getElem?_eq_getElem hi]
    exact table.semicolon _ (List.getElem_mem hi)
  rw [← hx] at hrow ⊢
  cases hnil : decide (x = []) with
  | true => rw [of_decide_eq_true hnil, List.append_nil]
  | false =>
    refine absurd ?_ hrow
    rw [List.dropLast_append_of_ne_nil (of_decide_eq_false hnil)]
    exact List.mem_append_left _ (List.mem_append_right _ (List.mem_singleton.mpr rfl))

theorem range_none {search : HTMLEntitySearch} (h : search.isEntityPrefix = false) :
    search.range = none := by
  unfold HTMLEntitySearch.isEntityPrefix at h
  cases hrange : search.range with
  | none => rfl
  | some r =>
    rw [hrange] at h
    cases h

/-- **A name that the XML parser looks up is decoded exactly when it is in the table.** -/
theorem decodeNamedEntity_spec (table : HTMLEntityTable) (name : Units) :
    (∀ i < table.entries.length, table.name i = name ++ [chr ';'] →
        decodeNamedEntityToUCharArray table name = table.decoded i) ∧
      ((∀ i < table.entries.length, table.name i ≠ name ++ [chr ';']) →
        decodeNamedEntityToUCharArray table name = []) := by
  have hreads : Reads table name ((HTMLEntitySearch.start table).advanceAll table name) :=
    reads_advanceAll (reads_start table) name
  unfold decodeNamedEntityToUCharArray
  dsimp only
  generalize (HTMLEntitySearch.start table).advanceAll table name = search at hreads ⊢
  cases hbegins : search.isEntityPrefix with
  | false =>
    refine ⟨fun i hi hname => ?_, fun _ => rfl⟩
    have hrange := hreads.range
    rw [range_none hbegins] at hrange
    exact absurd (by rw [hname]; exact List.prefix_append _ _) (hrange i hi)
  | true =>
    have hnext := reads_advance (c := chr ';') hreads hbegins
    generalize search.advance table (chr ';') = next at hnext ⊢
    have hrange := hnext.range
    have hlongest := hnext.longest
    cases hnextPrefix : next.isEntityPrefix with
    | false =>
      refine ⟨fun i hi hname => ?_, fun _ => rfl⟩
      rw [range_none hnextPrefix] at hrange
      exact absurd (by rw [hname]) (hrange i hi)
    | true =>
      obtain ⟨r, hr⟩ := Option.isSome_iff_exists.mp hnextPrefix
      rw [hr] at hrange
      have hamong := hrange.2
      have hlt := Nat.lt_of_le_of_lt hamong.first_le hamong.last_lt
      have hrow := name_eq_of_semicolon table hlt (hamong.isPrefix (Nat.le_refl _) hamong.first_le)
      cases hmatch : next.mostRecentMatch with
      | none =>
        rw [hmatch] at hlongest
        exact absurd (by rw [hrow]) (hlongest r.1 hlt)
      | some k =>
        rw [hmatch] at hlongest
        obtain ⟨hk, hkbegins, hmax⟩ := hlongest
        have hlength := hmax r.1 hlt (by rw [hrow])
        have hkname : table.name k = name ++ [chr ';'] := by
          refine hkbegins.eq_of_length (Nat.le_antisymm hkbegins.length_le ?_)
          rwa [hrow] at hlength
        refine ⟨fun i hi hname => ?_, fun hnone => absurd hkname (hnone k hk)⟩
        rw [name_inj table hi hk (hname.trans hkname.symm)]
        rfl

end Blinkit.Html
