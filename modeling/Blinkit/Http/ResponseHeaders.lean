import Blinkit.Lib.Text

/-!
# The header block of a response

`ResponseImpl::ParseHeaders` finds the status code with a regular expression, drops the status
line and hands the rest to the key/value splitter of base.  The splitter cuts the text at line
feeds, trims the pieces, drops the empty ones and splits each at its first colon; it skips every
colon that follows the first one, and a piece with nothing after its colons makes the whole split
report failure.  `ParseHeaders` then stores nothing.

* `appendStringKeyValue`, `splitStringIntoKeyValuePairs` : the splitter
* `canonizeHeaderName`, `BkHTTPHeaderMap` : the map, whose keys are canonical names
* `parseHeaders` : the parser; `none` is the exception `std::stoi` throws
* `headerBlock` : a status line and header lines, joined by CRLF

Principal results: `parseHeaders_iff`, `parseHeaders_loses_headers`.
-/

set_option autoImplicit false

namespace Blinkit.Http

open Blinkit.Lib.Text

abbrev Str := List Char

/-! ## The splitter of base -/

/-- `kWhitespaceASCII`. -/
def isWhitespaceASCII (c : Char) : Bool :=
  c == '\t' || c == '\n' || c == '\x0B' || c == '\x0C' || c == '\r' || c == ' '

/-- `TrimWhitespaceASCII` with `TRIM_ALL`. -/
def trimWhitespaceASCII (s : Str) : Str := trim isWhitespaceASCII s

/-- `SplitStringPiece` with `TRIM_WHITESPACE` and `SPLIT_WANT_NONEMPTY`. -/
def splitStringPiece (input : Str) (separator : Char) : List Str :=
  ((input.splitOn separator).map trimWhitespaceASCII).filter (· ≠ [])

/-- `AppendStringKeyValue`: the pair it appends, and whether both halves were found. -/
def appendStringKeyValue (delimiter : Char) (input : Str) : Bool × (Str × Str) :=
  match input.dropWhile (· ≠ delimiter) with
  | [] => (false, ([], []))
  | remains =>
    let key := input.takeWhile (· ≠ delimiter)
    match remains.dropWhile (· = delimiter) with
    | [] => (false, (key, []))
    | value => (true, (key, value))

/-- `SplitStringIntoKeyValuePairs`: every piece gives a pair, one failure fails the call. -/
def splitStringIntoKeyValuePairs (input : Str) (keyValueDelimiter pairDelimiter : Char) :
    Bool × List (Str × Str) :=
  let results := (splitStringPiece input pairDelimiter).map (appendStringKeyValue keyValueDelimiter)
  (results.all (·.1), results.map (·.2))

/-! ## The header map -/

/-- `EqualsCaseInsensitiveASCII`. -/
def equalsCaseInsensitiveASCII (a b : Str) : Bool := sameLetters a b

/-- The loop of `CanonizeHeaderName`: upper case at the start and after a hyphen. -/
def capitalize (upperNext : Bool) : Str → Str
  | [] => []
  | c :: s =>
    let ch := if upperNext then c.toUpper else c.toLower
    ch :: capitalize (ch == '-') s

def eTag : Str := ['E', 'T', 'a', 'g']

def setCookie : Str := ['S', 'e', 't', '-', 'C', 'o', 'o', 'k', 'i', 'e']

/-- `BkHTTPHeaderMap::CanonizeHeaderName`; `ETag` is the one special name. -/
def canonizeHeaderName (header : Str) : Str :=
  if equalsCaseInsensitiveASCII header eTag then eTag else capitalize true header

/-- `BkHTTPHeaderMap`: an unordered map from canonical names to values. -/
structure BkHTTPHeaderMap where
  headers : Str → Option Str := fun _ => none

/-- The lookup of `BkHTTPHeaderMap::Get`, before an absent entry is read as the empty text. -/
def BkHTTPHeaderMap.find (m : BkHTTPHeaderMap) (name : Str) : Option Str :=
  m.headers (canonizeHeaderName name)

/-- `BkHTTPHeaderMap::Set`. -/
def BkHTTPHeaderMap.set (m : BkHTTPHeaderMap) (name val : Str) : BkHTTPHeaderMap :=
  { headers := fun k => if k = canonizeHeaderName name then some val else m.headers k }

/-! ## The parser -/

/-- The members of `ResponseImpl` that the parser writes. -/
structure ResponseImpl where
  statusCode : Nat := 0
  headers : BkHTTPHeaderMap := {}
  cookies : List Str := []

/-- `ResponseImpl::ResetForRedirection`, which leaves these members as the constructor does. -/
def ResponseImpl.resetForRedirection (_ : ResponseImpl) : ResponseImpl :=
  { statusCode := 0, headers := {}, cookies := [] }

/-- `[\d+\.]`. -/
def isVersionChar (c : Char) : Bool := c.isDigit || c == '+' || c == '.'

/-- `HTTP\/[\d+\.]+\s+(\d+)` at the start of the text: the length of the match and the digits.
The three classes are disjoint where they meet, so the greedy match is the only one. -/
def matchStatus : Str → Option (Nat × Str)
  | 'H' :: 'T' :: 'T' :: 'P' :: '/' :: s =>
    let version := s.takeWhile isVersionChar
    let s := s.dropWhile isVersionChar
    let blanks := s.takeWhile isWhitespaceASCII
    let code := (s.dropWhile isWhitespaceASCII).takeWhile Char.isDigit
    if version = [] ∨ blanks = [] ∨ code = [] then none
    else some (5 + version.length + blanks.length + code.length, code)
  | _ => none

/-- `std::regex_search`: the leftmost match. -/
def regexSearch : Str → Option (Nat × Str)
  | [] => none
  | c :: s => (matchStatus (c :: s)).orElse fun _ => regexSearch s

/-- The value of a run of digits. -/
def digitsValue (s : Str) : Nat := s.foldl (fun n c => 10 * n + (c.toNat - 48)) 0

/-- `std::stoi` on digits: out of range above `INT_MAX`. -/
def stoi (s : Str) : Option Nat :=
  if digitsValue s ≤ 2147483647 then some (digitsValue s) else none

/-- `input.substr(input.find('\n', pos) + 1)`, when there is a line feed from `pos` on. -/
def afterLineFeed (input : Str) (pos : Nat) : Option Str :=
  match (input.drop pos).dropWhile (· ≠ '\n') with
  | [] => none
  | _ :: rest => some rest

/-- The text that `c_str()` shows. -/
def cStr (s : Str) : Str := s.takeWhile (· ≠ '\x00')

/-- The body of the loop over the pairs. -/
def ResponseImpl.storeHeader (r : ResponseImpl) (kv : Str × Str) : ResponseImpl :=
  let k := trimWhitespaceASCII kv.1
  let v := trimWhitespaceASCII kv.2
  if equalsCaseInsensitiveASCII (cStr k) setCookie then { r with cookies := r.cookies ++ [v] }
  else { r with headers := r.headers.set k v }

/-- `ResponseImpl::ParseHeaders`. -/
def ResponseImpl.parseHeaders (r : ResponseImpl) (rawHeaders : Str) : Option ResponseImpl :=
  match regexSearch rawHeaders with
  | none => some r
  | some (length, code) =>
    match stoi code with
    | none => none
    | some statusCode =>
      let r := { r with statusCode := statusCode }
      match afterLineFeed rawHeaders length with
      | none => some r
      | some input =>
        match splitStringIntoKeyValuePairs input ':' '\n' with
        | (false, _) => some r
        | (true, headers) => some (headers.foldl ResponseImpl.storeHeader r)

/-! ## Header blocks -/

/-- The characters of a header name. -/
def isTokenChar (c : Char) : Bool :=
  c.isAlphanum || c ∈ ['!', '#', '$', '%', '&', '\x27', '*', '+', '-', '.', '^', '_', '\x60', '|',
    '~']

def isLineBreak (c : Char) : Bool := c == '\r' || c == '\n'

/-- A status line: `HTTP/`, the version, a space, the code and the rest of the line. -/
structure StatusLine where
  version : Str
  code : Str
  reason : Str
  version_ne : version ≠ []
  version_chars : ∀ c ∈ version, isVersionChar c = true
  code_ne : code ≠ []
  code_digits : ∀ c ∈ code, c.isDigit = true
  code_range : digitsValue code ≤ 2147483647
  reason_head : ∀ c, reason.head? = some c → c.isDigit = false
  reason_chars : ∀ c ∈ reason, isLineBreak c = false

def StatusLine.text (s : StatusLine) : Str :=
  'H' :: 'T' :: 'T' :: 'P' :: '/' :: (s.version ++ ' ' :: (s.code ++ s.reason))

/-- A header line: a name that is a token, and a value within the line. -/
structure HeaderLine where
  name : Str
  value : Str
  name_ne : name ≠ []
  name_chars : ∀ c ∈ name, isTokenChar c = true
  value_chars : ∀ c ∈ value, isLineBreak c = false

def HeaderLine.text (h : HeaderLine) : Str := h.name ++ ':' :: h.value

def HeaderLine.sameName (name : Str) (h : HeaderLine) : Bool :=
  equalsCaseInsensitiveASCII h.name name

/-- The last line that carries `name`. -/
def lastLine (hs : List HeaderLine) (name : Str) : Option HeaderLine :=
  hs.reverse.find? (HeaderLine.sameName name)

def cookieLines (hs : List HeaderLine) : List HeaderLine :=
  hs.filter (HeaderLine.sameName setCookie)

/-- The lines joined by CRLF, followed by any number of empty lines. -/
def headerBlock (s : StatusLine) (hs : List HeaderLine) (blank : Nat) : Str :=
  List.intercalate ['\r', '\n'] (s.text :: (hs.map HeaderLine.text ++ List.replicate blank []))

/-- What a header block means. -/
structure Meaning (s : StatusLine) (hs : List HeaderLine) (r : ResponseImpl) : Prop where
  statusCode : r.statusCode = digitsValue s.code
  headers : ∀ name, equalsCaseInsensitiveASCII name setCookie = false →
    r.headers.find name = (lastLine hs name).map fun h => trimWhitespaceASCII h.value
  cookies : r.cookies = (cookieLines hs).map fun h => trimWhitespaceASCII h.value

/-! ## Names -/

theorem lowerCase_capitalize (u : Bool) (s : Str) : lowerCase (capitalize u s) = lowerCase s := by
  induction s generalizing u with
  | nil => rfl
  | cons c s ih =>
    have htail := ih ((if u = true then c.toUpper else c.toLower) == '-')
    unfold lowerCase at htail ⊢
    simp only [capitalize, List.map_cons, htail]
    cases u
    · simp [(case_of_case c).2.2]
    · simp [(case_of_case c).1]

theorem capitalize_lowerCase (u : Bool) (s : Str) : capitalize u (lowerCase s) = capitalize u s := by
  induction s generalizing u with
  | nil => rfl
  | cons c s ih =>
    have htail := ih
    unfold lowerCase at htail ⊢
    cases u
    · simp [capitalize, (case_of_case c).2.2, htail]
    · simp [capitalize, (case_of_case c).2.1, htail]

theorem lowerCase_canonizeHeaderName (x : Str) :
    lowerCase (canonizeHeaderName x) = lowerCase x := by
  unfold canonizeHeaderName
  split
  · rename_i hx
    exact (sameLetters_iff.mp hx).symm
  · exact lowerCase_capitalize true x

/-- Two names have one entry in the map when they differ in letter case only. -/
theorem canonizeHeaderName_eq_iff {a b : Str} :
    canonizeHeaderName a = canonizeHeaderName b ↔ equalsCaseInsensitiveASCII a b = true := by
  have canon : ∀ x, canonizeHeaderName (lowerCase x) = canonizeHeaderName x := by
    intro x
    unfold canonizeHeaderName equalsCaseInsensitiveASCII sameLetters
    rw [lowerCase_lowerCase, capitalize_lowerCase]
  constructor
  · intro h
    have hlower : lowerCase a = lowerCase b := by
      rw [← lowerCase_canonizeHeaderName a, h, lowerCase_canonizeHeaderName b]
    exact sameLetters_iff.mpr hlower
  · intro h
    rw [← canon a, sameLetters_iff.mp h, canon b]

theorem equalsCaseInsensitiveASCII_trans {a b c : Str} (h : equalsCaseInsensitiveASCII a b = true) :
    equalsCaseInsensitiveASCII a c = equalsCaseInsensitiveASCII b c := by
  unfold equalsCaseInsensitiveASCII sameLetters
  rw [sameLetters_iff.mp h]

theorem BkHTTPHeaderMap.find_set (m : BkHTTPHeaderMap) (k name val : Str) :
    (m.set k val).find name =
      if equalsCaseInsensitiveASCII k name then some val else m.find name := by
  show (if canonizeHeaderName name = canonizeHeaderName k then some val else m.find name) = _
  by_cases h : canonizeHeaderName name = canonizeHeaderName k
  · rw [if_pos h, if_pos (canonizeHeaderName_eq_iff.mp h.symm)]
  · have hsame : ¬ equalsCaseInsensitiveASCII k name = true :=
      fun hs => h (canonizeHeaderName_eq_iff.mpr hs).symm
    rw [if_neg h, if_neg hsame]

/-! ## The status line -/

theorem digit_facts {c : Char} (h : c.isDigit = true) :
    isWhitespaceASCII c = false ∧ c ≠ '\n' := by
  constructor
  · unfold isWhitespaceASCII
    simp only [Bool.or_eq_false_iff, beq_eq_false_iff_ne]
    refine ⟨⟨⟨⟨⟨?_, ?_⟩, ?_⟩, ?_⟩, ?_⟩, ?_⟩ <;> (rintro rfl; exact absurd h (by decide))
  · rintro rfl
    exact absurd h (by decide)

/-- What follows the status line within the block. -/
def blockRest (ls : List Str) : Str :=
  if ls = [] then [] else '\r' :: '\n' :: List.intercalate ['\r', '\n'] ls

theorem intercalate_eq_append (l : Str) (ls : List Str) :
    List.intercalate ['\r', '\n'] (l :: ls) = l ++ blockRest ls := by
  unfold blockRest
  split
  · rename_i h
    rw [h, List.intercalate_singleton, List.append_nil]
  · rename_i h
    rw [List.intercalate_cons_of_ne_nil h]
    simp

theorem blockRest_head (ls : List Str) (c : Char) (h : (blockRest ls).head? = some c) :
    c = '\r' := by
  unfold blockRest at h
  split at h
  · cases h
  · exact (Option.some.inj h).symm

theorem reason_rest_head (s : StatusLine) (ls : List Str) (c : Char)
    (h : (s.reason ++ blockRest ls).head? = some c) : c.isDigit = false := by
  rcases hr : s.reason with _ | ⟨d, t⟩
  · rw [hr] at h
    rw [blockRest_head ls c h]
    decide
  · rw [hr] at h
    refine s.reason_head c ?_
    rw [hr]
    exact h

/-- The number of characters that the pattern matches. -/
def StatusLine.matched (s : StatusLine) : Nat := 5 + s.version.length + 1 + s.code.length

theorem matchStatus_text (s : StatusLine) (ls : List Str) :
    matchStatus (s.text ++ blockRest ls) = some (s.matched, s.code) := by
  have hversion := scan_append isVersionChar s.version
    (' ' :: (s.code ++ (s.reason ++ blockRest ls))) s.version_chars (by intro c hc; cases hc; decide)
  have hblank := scan_append isWhitespaceASCII [' '] (s.code ++ (s.reason ++ blockRest ls))
    (by simp [isWhitespaceASCII]) (by
      intro c hc
      rcases hcode : s.code with _ | ⟨d, t⟩
      · exact absurd hcode s.code_ne
      · rw [hcode] at hc
        cases hc
        exact (digit_facts (s.code_digits c (by rw [hcode]; exact List.mem_cons_self ..))).1)
  have hcode := scan_append Char.isDigit s.code (s.reason ++ blockRest ls) s.code_digits
    (reason_rest_head s ls)
  have htext : s.text ++ blockRest ls = 'H' :: 'T' :: 'T' :: 'P' :: '/' ::
      (s.version ++ ' ' :: (s.code ++ (s.reason ++ blockRest ls))) := by
    unfold StatusLine.text
    simp
  rw [htext]
  unfold matchStatus
  simp only [hversion.1, hversion.2]
  rw [show ' ' :: (s.code ++ (s.reason ++ blockRest ls)) =
    [' '] ++ (s.code ++ (s.reason ++ blockRest ls)) from rfl]
  simp only [hblank.1, hblank.2, hcode.1]
  rw [if_neg (by simp [s.version_ne, s.code_ne])]
  rfl

theorem regexSearch_text (s : StatusLine) (ls : List Str) :
    regexSearch (s.text ++ blockRest ls) = some (s.matched, s.code) := by
  have hmatch := matchStatus_text s ls
  have hcons : ∃ t, s.text ++ blockRest ls = 'H' :: t := ⟨_, rfl⟩
  obtain ⟨t, ht⟩ := hcons
  rw [ht] at hmatch ⊢
  simp only [regexSearch, hmatch, Option.orElse_some]

/-- The lines are what remains behind the line feed that ends the status line. -/
theorem afterLineFeed_text (s : StatusLine) (ls : List Str) :
    afterLineFeed (s.text ++ blockRest ls) s.matched =
      if ls = [] then none else some (List.intercalate ['\r', '\n'] ls) := by
  have hdrop : (s.text ++ blockRest ls).drop s.matched = s.reason ++ blockRest ls := by
    have htext : s.text ++ blockRest ls = ('H' :: 'T' :: 'T' :: 'P' :: '/' ::
        (s.version ++ ' ' :: s.code)) ++ (s.reason ++ blockRest ls) := by
      unfold StatusLine.text
      simp
    rw [htext, List.drop_left']
    unfold StatusLine.matched
    simp only [List.length_cons, List.length_append]
    omega
  have hreason : ∀ c ∈ s.reason, (decide (c ≠ '\n')) = true := by
    intro c hc
    have hbreak := s.reason_chars c hc
    unfold isLineBreak at hbreak
    simp only [Bool.or_eq_false_iff, beq_eq_false_iff_ne] at hbreak
    exact decide_eq_true hbreak.2
  unfold afterLineFeed
  rw [hdrop, List.dropWhile_append_of_pos hreason]
  rcases ls with _ | ⟨l, ls⟩
  · rfl
  · rw [if_neg (List.cons_ne_nil l ls)]
    rfl

/-! ## The header lines -/

theorem token_facts {c : Char} (h : isTokenChar c = true) :
    isWhitespaceASCII c = false ∧ c ≠ ':' ∧ c ≠ '\x00' ∧ c ≠ '\n' := by
  refine ⟨?_, ?_, ?_, ?_⟩
  · unfold isWhitespaceASCII
    simp only [Bool.or_eq_false_iff, beq_eq_false_iff_ne]
    refine ⟨⟨⟨⟨⟨?_, ?_⟩, ?_⟩, ?_⟩, ?_⟩, ?_⟩ <;> (rintro rfl; exact absurd h (by decide))
  · rintro rfl
    exact absurd h (by decide)
  · rintro rfl
    exact absurd h (by decide)
  · rintro rfl
    exact absurd h (by decide)

/-- The value without the whitespace at its end, as the splitter sees it. -/
def HeaderLine.seen (h : HeaderLine) : Str := h.value.rdropWhile isWhitespaceASCII

/-- The value that is left when every colon behind the first one is skipped. -/
def HeaderLine.remains (h : HeaderLine) : Str := h.seen.dropWhile (· = ':')

/-- A value of colons and of whitespace at the end, for which the splitter reports failure. -/
def HeaderLine.valueless (h : HeaderLine) : Bool := h.remains == []

/-- The value that the parser stores. -/
def HeaderLine.stored (h : HeaderLine) : Str := trimWhitespaceASCII h.remains

theorem HeaderLine.trim_text (h : HeaderLine) :
    trimWhitespaceASCII h.text = h.name ++ ':' :: h.seen := by
  unfold trimWhitespaceASCII HeaderLine.text HeaderLine.seen
  rcases hname : h.name with _ | ⟨c, t⟩
  · exact absurd hname h.name_ne
  · have hc : isWhitespaceASCII c = false :=
      (token_facts (h.name_chars c (by rw [hname]; exact List.mem_cons_self ..))).1
    rw [List.cons_append, trim_cons isWhitespaceASCII hc]
    exact rdropWhile_append_cons isWhitespaceASCII (by decide) (c :: t) h.value

theorem HeaderLine.text_no_lineFeed (h : HeaderLine) : '\n' ∉ h.text := by
  intro hmem
  rcases List.mem_append.mp hmem with hname | hvalue
  · exact (token_facts (h.name_chars _ hname)).2.2.2 rfl
  · rcases List.mem_cons.mp hvalue with hcolon | hvalue
    · cases hcolon
    · exact absurd (h.value_chars _ hvalue) (by decide)

theorem HeaderLine.appendStringKeyValue_eq (h : HeaderLine) :
    appendStringKeyValue ':' (h.name ++ ':' :: h.seen) = (!h.valueless, (h.name, h.remains)) := by
  have hscan := scan_append (fun c => decide (c ≠ ':')) h.name (':' :: h.seen)
    (fun c hc => decide_eq_true (token_facts (h.name_chars c hc)).2.1)
    (by intro c hc; cases hc; rfl)
  unfold appendStringKeyValue
  rw [hscan.1, hscan.2]
  have hskip : (':' :: h.seen).dropWhile (· = ':') = h.remains := rfl
  simp only [hskip]
  unfold HeaderLine.valueless
  split
  · rename_i hnil
    rw [hnil]
    rfl
  · rename_i hne
    rw [beq_eq_false_iff_ne.mpr hne]
    rfl

/-- The pieces of the block are its header lines, trimmed; the empty lines leave nothing. -/
theorem splitStringPiece_lines (hs : List HeaderLine) (blank : Nat)
    (hne : hs.map HeaderLine.text ++ List.replicate blank [] ≠ []) :
    splitStringPiece
        (List.intercalate ['\r', '\n'] (hs.map HeaderLine.text ++ List.replicate blank [])) '\n' =
      hs.map fun h => h.name ++ ':' :: h.seen := by
  have hlines : ∀ x ∈ hs.map HeaderLine.text ++ List.replicate blank [], '\n' ∉ x := by
    intro x hx
    rcases List.mem_append.mp hx with hx | hx
    · obtain ⟨h, _, rfl⟩ := List.mem_map.mp hx
      exact h.text_no_lineFeed
    · rw [List.eq_of_mem_replicate hx]
      exact List.not_mem_nil
  have hsplit : ((List.intercalate ['\r', '\n']
        (hs.map HeaderLine.text ++ List.replicate blank [])).splitOn '\n').map trimWhitespaceASCII =
      (hs.map HeaderLine.text ++ List.replicate blank []).map trimWhitespaceASCII := by
    obtain ⟨l, ls, hl⟩ := List.exists_cons_of_ne_nil hne
    rw [hl] at hlines ⊢
    exact split_joined isWhitespaceASCII (by decide) (by decide) l ls hlines
  have htexts : (hs.map HeaderLine.text).map trimWhitespaceASCII =
      hs.map fun h => h.name ++ ':' :: h.seen := by
    rw [List.map_map]
    exact List.map_congr_left fun h _ => h.trim_text
  unfold splitStringPiece
  rw [hsplit, List.map_append, htexts, List.filter_append]
  have hkeep : (hs.map fun h => h.name ++ ':' :: h.seen).filter (· ≠ []) =
      hs.map fun h => h.name ++ ':' :: h.seen := by
    rw [List.filter_eq_self]
    intro x hx
    obtain ⟨h, _, rfl⟩ := List.mem_map.mp hx
    simp
  have hdrop : ((List.replicate blank ([] : Str)).map trimWhitespaceASCII).filter (· ≠ []) = [] := by
    rw [List.filter_eq_nil_iff]
    intro x hx
    obtain ⟨y, hy, rfl⟩ := List.mem_map.mp hx
    rw [List.eq_of_mem_replicate hy]
    decide
  rw [hkeep, hdrop, List.append_nil]

/-- The pairs of the lines, and whether each of them has a value. -/
theorem splitStringIntoKeyValuePairs_lines (hs : List HeaderLine) (blank : Nat)
    (hne : hs.map HeaderLine.text ++ List.replicate blank [] ≠ []) :
    splitStringIntoKeyValuePairs (List.intercalate ['\r', '\n']
        (hs.map HeaderLine.text ++ List.replicate blank [])) ':' '\n' =
      (!hs.any HeaderLine.valueless, hs.map fun h => (h.name, h.remains)) := by
  unfold splitStringIntoKeyValuePairs
  rw [splitStringPiece_lines hs blank hne, List.map_map]
  have hmap : hs.map (appendStringKeyValue ':' ∘ fun h => h.name ++ ':' :: h.seen) =
      hs.map fun h => (!h.valueless, (h.name, h.remains)) :=
    List.map_congr_left fun h _ => h.appendStringKeyValue_eq
  rw [hmap]
  simp [List.any_eq_not_all_not, Function.comp_def]

/-- **The parser on a header block.** The status code is stored; the lines are stored when none
of them is without a value. -/
theorem parseHeaders_block (r : ResponseImpl) (s : StatusLine) (hs : List HeaderLine)
    (blank : Nat) :
    r.parseHeaders (headerBlock s hs blank) =
      some (if hs.any HeaderLine.valueless then { r with statusCode := digitsValue s.code }
        else (hs.map fun h => (h.name, h.remains)).foldl ResponseImpl.storeHeader
          { r with statusCode := digitsValue s.code }) := by
  unfold ResponseImpl.parseHeaders headerBlock
  rw [intercalate_eq_append, regexSearch_text]
  have hstoi : stoi s.code = some (digitsValue s.code) := if_pos s.code_range
  simp only [hstoi, afterLineFeed_text]
  by_cases hne : hs.map HeaderLine.text ++ List.replicate blank [] = []
  · have hnil : hs = [] := List.map_eq_nil_iff.mp (List.append_eq_nil_iff.mp hne).1
    rw [if_pos hne, hnil]
    rfl
  · rw [if_neg hne]
    have hpairs := splitStringIntoKeyValuePairs_lines hs blank hne
    simp only [hpairs]
    cases hs.any HeaderLine.valueless <;> rfl

/-! ## Storing the pairs -/

theorem storeHeader_line (r : ResponseImpl) (h : HeaderLine) :
    r.storeHeader (h.name, h.remains) =
      if h.sameName setCookie then { r with cookies := r.cookies ++ [h.stored] }
      else { r with headers := r.headers.set h.name h.stored } := by
  have htrim : trimWhitespaceASCII h.name = h.name := by
    unfold trimWhitespaceASCII trim
    have hhead : h.name.dropWhile isWhitespaceASCII = h.name := by
      rw [List.dropWhile_eq_self_iff]
      intro hl hspace
      rw [(token_facts (h.name_chars _ (List.getElem_mem hl))).1] at hspace
      cases hspace
    rw [hhead, List.rdropWhile_eq_self_iff]
    intro hl hspace
    rw [(token_facts (h.name_chars _ (List.getLast_mem hl))).1] at hspace
    cases hspace
  have hcStr : cStr h.name = h.name := by
    unfold cStr
    rw [List.takeWhile_eq_self_iff]
    intro c hc
    exact decide_eq_true (token_facts (h.name_chars c hc)).2.2.1
  unfold ResponseImpl.storeHeader
  simp only [htrim, hcStr]
  rfl

theorem lastLine_append (hs : List HeaderLine) (h : HeaderLine) (name : Str) :
    lastLine (hs ++ [h]) name = if h.sameName name then some h else lastLine hs name := by
  unfold lastLine
  rw [List.reverse_append, List.reverse_singleton, List.singleton_append, List.find?_cons]
  cases h.sameName name <;> rfl

theorem lastLine_isSome {hs : List HeaderLine} {h : HeaderLine} (hmem : h ∈ hs) :
    ∃ g, lastLine hs h.name = some g := by
  unfold lastLine
  have hfound : (hs.reverse.find? (HeaderLine.sameName h.name)).isSome = true := by
    rw [List.find?_isSome]
    exact ⟨h, List.mem_reverse.mpr hmem, sameLetters_iff.mpr rfl⟩
  exact Option.isSome_iff_exists.mp hfound

/-- What the loop over the pairs leaves in the response. -/
theorem store_lines (r : ResponseImpl) (hs : List HeaderLine) :
    let r' := (hs.map fun h => (h.name, h.remains)).foldl ResponseImpl.storeHeader r
    r'.statusCode = r.statusCode ∧
    r'.cookies = r.cookies ++ (cookieLines hs).map HeaderLine.stored ∧
    ∀ name, equalsCaseInsensitiveASCII name setCookie = false →
      r'.headers.find name =
        ((lastLine hs name).map HeaderLine.stored).or (r.headers.find name) := by
  induction hs using List.reverseRecOn with
  | nil =>
    refine ⟨rfl, ?_, fun _ _ => rfl⟩
    simp [cookieLines]
  | append_singleton hs h ih =>
    simp only at ih ⊢
    obtain ⟨hstatus, hcookies, hheaders⟩ := ih
    rw [List.map_append, List.map_singleton, List.foldl_append, List.foldl_cons, List.foldl_nil,
      storeHeader_line]
    unfold cookieLines at hcookies ⊢
    rw [List.filter_append, List.filter_singleton]
    split
    · rename_i hcookie
      refine ⟨hstatus, ?_, ?_⟩
      · simp [hcookies, hcookie]
      · intro name hname
        rw [lastLine_append, if_neg]
        · exact hheaders name hname
        · intro hsame
          rw [← equalsCaseInsensitiveASCII_trans hsame] at hname
          exact Bool.false_ne_true (hname.symm.trans hcookie)
    · rename_i hcookie
      refine ⟨hstatus, ?_, ?_⟩
      · simp [hcookies, hcookie]
      · intro name hname
        rw [lastLine_append]
        show (BkHTTPHeaderMap.set _ h.name h.stored).find name = _
        rw [BkHTTPHeaderMap.find_set, hheaders name hname]
        show (if h.sameName name = true then _ else _) = _
        split <;> rfl

/-! ## When the parser is right -/

/-- A value that starts with a colon loses it. -/
theorem HeaderLine.stored_eq_iff (h : HeaderLine) :
    h.stored = trimWhitespaceASCII h.value ↔ h.value.head? ≠ some ':' := by
  unfold HeaderLine.stored HeaderLine.remains HeaderLine.seen trimWhitespaceASCII
  rcases hv : h.value with _ | ⟨c, t⟩
  · simp
  by_cases hc : c = ':'
  · subst hc
    have hcolon : isWhitespaceASCII ':' = false := by decide
    rw [trim_cons isWhitespaceASCII hcolon, rdropWhile_cons isWhitespaceASCII hcolon]
    refine ⟨fun heq => ?_, fun hne => absurd rfl hne⟩
    have hlen := congrArg List.length heq
    have hle := trim_length_le isWhitespaceASCII
      ((':' :: t.rdropWhile isWhitespaceASCII).dropWhile (· = ':'))
    have hskip : (':' :: t.rdropWhile isWhitespaceASCII).dropWhile (· = ':') =
        (t.rdropWhile isWhitespaceASCII).dropWhile (· = ':') := rfl
    have hdrop := (List.dropWhile_sublist (· = ':') (l := t.rdropWhile isWhitespaceASCII)).length_le
    rw [hskip] at hle hlen
    simp only [List.length_cons] at hlen
    omega
  · refine ⟨fun _ => by simp [hc], fun _ => ?_⟩
    have hskip : ((c :: t).rdropWhile isWhitespaceASCII).dropWhile (· = ':') =
        (c :: t).rdropWhile isWhitespaceASCII := by
      obtain ⟨rest, hrest⟩ := List.rdropWhile_prefix isWhitespaceASCII (c :: t)
      rcases hr : (c :: t).rdropWhile isWhitespaceASCII with _ | ⟨d, u⟩
      · rfl
      · rw [hr] at hrest
        have hdc : d = c := (List.cons.inj hrest).1
        rw [List.dropWhile_cons_of_neg (by simp [hdc, hc])]
    rw [hskip, trim_rdropWhile]

/-- The header lines on which the splitter does no harm: each has a value, and the values that
are kept do not start with a colon. -/
structure Harmless (hs : List HeaderLine) : Prop where
  valued : ∀ h ∈ hs, ∃ c ∈ h.value.rdropWhile isWhitespaceASCII, c ≠ ':'
  cookies : ∀ h ∈ cookieLines hs, h.value.head? ≠ some ':'
  lasts : ∀ name h, equalsCaseInsensitiveASCII name setCookie = false →
    lastLine hs name = some h → h.value.head? ≠ some ':'

theorem HeaderLine.valueless_eq_false_iff (h : HeaderLine) :
    h.valueless = false ↔ ∃ c ∈ h.value.rdropWhile isWhitespaceASCII, c ≠ ':' := by
  unfold HeaderLine.valueless HeaderLine.remains HeaderLine.seen
  rw [beq_eq_false_iff_ne, Ne, List.dropWhile_eq_nil_iff]
  simp

/-- One line without a value and nothing is stored, so some name or cookie is missing. -/
theorem meaning_valued {s : StatusLine} {hs : List HeaderLine} {r : ResponseImpl}
    (hm : Meaning s hs r) (hheaders : ∀ name, r.headers.find name = none)
    (hcookies : r.cookies = []) : hs = [] := by
  rcases hs with _ | ⟨h, hs⟩
  · rfl
  exfalso
  cases hname : equalsCaseInsensitiveASCII h.name setCookie with
  | true =>
    have hlist := hm.cookies
    rw [hcookies] at hlist
    unfold cookieLines at hlist
    rw [List.filter_cons_of_pos (show h.sameName setCookie = true from hname)] at hlist
    cases hlist
  | false =>
    obtain ⟨g, hg⟩ := lastLine_isSome (List.mem_cons_self (a := h) (l := hs))
    have hfind := hm.headers h.name hname
    rw [hheaders, hg] at hfind
    cases hfind

/-- **When a header block is read as it is written.** The parser yields the status code, the
trimmed value of the last line of every name and the values of the `Set-Cookie` lines exactly
when no line is without a value and no value that is kept starts with a colon. -/
theorem parseHeaders_iff (r : ResponseImpl) (s : StatusLine) (hs : List HeaderLine) (blank : Nat) :
    (∃ r', r.resetForRedirection.parseHeaders (headerBlock s hs blank) = some r' ∧
      Meaning s hs r') ↔ Harmless hs := by
  rw [parseHeaders_block]
  obtain ⟨hstatus, hcookies, hheaders⟩ :=
    store_lines { r.resetForRedirection with statusCode := digitsValue s.code } hs
  constructor
  · rintro ⟨r', hr', hm⟩
    have hvalued : ∀ h ∈ hs, h.valueless = false := by
      cases hany : hs.any HeaderLine.valueless with
      | false =>
        intro h hmem
        have hall := List.any_eq_false.mp hany h hmem
        simpa using hall
      | true =>
        rw [hany, if_pos rfl] at hr'
        cases hr'
        rw [meaning_valued hm (fun _ => rfl) rfl]
        intro h hmem
        cases hmem
    have hany : hs.any HeaderLine.valueless = false :=
      List.any_eq_false.mpr fun h hmem => by simp [hvalued h hmem]
    rw [hany, if_neg Bool.false_ne_true] at hr'
    cases hr'
    refine ⟨fun h hmem => h.valueless_eq_false_iff.mp (hvalued h hmem), ?_, ?_⟩
    · intro h hmem
      have hmap := hm.cookies
      rw [hcookies] at hmap
      have hstored := List.map_inj_left.mp hmap h hmem
      exact h.stored_eq_iff.mp hstored
    · intro name h hname hlast
      have hfind := hm.headers name hname
      rw [hheaders name hname, hlast] at hfind
      have hmem : h ∈ hs := List.mem_reverse.mp (List.mem_of_find?_eq_some hlast)
      exact h.stored_eq_iff.mp (Option.some.inj hfind)
  · intro hgood
    have hany : hs.any HeaderLine.valueless = false :=
      List.any_eq_false.mpr fun h hmem => by
        simp [h.valueless_eq_false_iff.mpr (hgood.valued h hmem)]
    refine ⟨_, by rw [hany, if_neg Bool.false_ne_true], ⟨hstatus, ?_, ?_⟩⟩
    · intro name hname
      rw [hheaders name hname]
      rcases hlast : lastLine hs name with _ | h
      · rfl
      · have hmem : h ∈ hs := List.mem_reverse.mp (List.mem_of_find?_eq_some hlast)
        have hstored := h.stored_eq_iff.mpr (hgood.lasts name h hname hlast)
        simp [hstored]
    · rw [hcookies]
      show (cookieLines hs).map HeaderLine.stored = _
      apply List.map_congr_left
      intro h hmem
      exact h.stored_eq_iff.mpr
        (hgood.cookies h hmem)

/-! ## A header with an empty value -/

def okLine : StatusLine where
  version := ['1', '.', '1']
  code := ['2', '0', '0']
  reason := [' ', 'O', 'K']
  version_ne := by decide
  version_chars := by simp [isVersionChar]
  code_ne := by decide
  code_digits := by simp
  code_range := by decide
  reason_head := by intro c hc; cases hc; decide
  reason_chars := by simp [isLineBreak]

def serverLine : HeaderLine where
  name := ['S', 'e', 'r', 'v', 'e', 'r']
  value := [' ', 'a']
  name_ne := by decide
  name_chars := List.all_eq_true.mp (by decide)
  value_chars := by simp [isLineBreak]

def emptyLine : HeaderLine where
  name := ['X', '-', 'E']
  value := []
  name_ne := by decide
  name_chars := List.all_eq_true.mp (by decide)
  value_chars := by simp [isLineBreak]

/-- The header after which the server is named is lost with the empty one. -/
theorem parseHeaders_loses_headers :
    ¬ ∃ r', ({} : ResponseImpl).resetForRedirection.parseHeaders
        (headerBlock okLine [serverLine, emptyLine] 1) = some r' ∧
      Meaning okLine [serverLine, emptyLine] r' := by
  rintro ⟨r', hr', hm⟩
  have hfind := hm.headers serverLine.name (by decide)
  have hlost : (({} : ResponseImpl).resetForRedirection.parseHeaders
      (headerBlock okLine [serverLine, emptyLine] 1)).map
        (fun r => r.headers.find serverLine.name) = some none := by decide
  rw [hr'] at hlost
  have hnone : r'.headers.find serverLine.name = none := Option.some.inj hlost
  rw [hnone] at hfind
  exact absurd hfind (by decide)

end Blinkit.Http
