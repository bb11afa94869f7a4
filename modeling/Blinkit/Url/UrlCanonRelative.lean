import Blinkit.Url.BkURL
import Blinkit.Url.UrlCanonPath

/-!
# Resolving a relative URL

The resolver appends to an output what is kept of the base, and behind it the canonical form of what
the reference replaces.

* `isRelativeURL` — what a text is in relation to a base.
* `canonicalizeQuery`, `canonicalizeRef` — the parts behind the path.
* `resolveRelativePath`, `resolveRelativeURL`, `resolveRelative` — the resolver.
* `BkURL.resolve`, `resolveRedirection` — its callers.
* `Elsewhere` — what the resolver calls for URLs that are not relative, for references with an
  authority, and for characters outside ASCII.

Principal results: `isRelativeURL_reference`, `resolveRelativePath_reference` and
`resolve_reference`.
-/

set_option autoImplicit false

namespace Blinkit.Url

open Cursor

/-- An output, what it is parsed into and whether it is valid. -/
structure Resolution where
  success : Bool
  output : Str
  parsed : Parsed

/-- The code that the resolver calls for other references than paths, queries and fragments, and for
characters outside ASCII. -/
structure Elsewhere where
  /-- `DoCanonicalize`. -/
  canonicalize : Str → Resolution
  /-- `DoResolveRelativeHost`. -/
  resolveRelativeHost : Str → Parsed → Str → Component → Resolution
  /-- `DoResolveAbsoluteFile`. -/
  resolveAbsoluteFile : Str → Component → Resolution
  /-- `AppendStringOfType`, for a query. -/
  appendStringOfType : Str → Str
  /-- `ReadUTFChar` and `AppendUTF8Value`: what is appended, and how many further bytes it took. -/
  readUTFChar : Str → Str × Nat

/-! ## Relative or not -/

def isRemovableURLWhitespace (c : Char) : Bool := c == '\r' || c == '\n' || c == '\t'

/-- `RemoveURLWhitespace`. -/
def removeURLWhitespace (input : Str) : Str := input.filter fun c => !isRemovableURLWhitespace c

/-- `CanonicalSchemeChar`. -/
def canonicalSchemeChar (c : Char) : Option Char :=
  if c.isAlphanum || c == '+' || c == '-' || c == '.' then some c.toLower else none

/-- `AreSchemesEqual`. -/
def areSchemesEqual (base cmp : Str) : Bool := cmp.map canonicalSchemeChar == base.map some

/-- `DoCompareSchemeComponent`. -/
def compareSchemeComponent (scheme compareTo : Str) : Bool := Lib.Text.lowerCase scheme == compareTo

def fileScheme : Str := ['f', 'i', 'l', 'e']

def fileSystemScheme : Str := ['f', 'i', 'l', 'e', 's', 'y', 's', 't', 'e', 'm']

/-- `kStandardURLSchemes`. -/
def standardURLSchemes : List Str :=
  [BkURL.httpScheme, BkURL.httpsScheme, fileScheme, ['f', 't', 'p'],
    ['g', 'o', 'p', 'h', 'e', 'r'], ['w', 's'], ['w', 's', 's'], fileSystemScheme]

/-- `DoIsStandard`. -/
def isStandard (scheme : Str) : Bool := standardURLSchemes.any (compareSchemeComponent scheme)

/-- `DoesBeginWindowsDriveSpec`. -/
def doesBeginWindowsDriveSpec : Str → Bool
  | c :: d :: _ => c.isAlpha && (d == ':' || d == '|')
  | _ => false

/-- `DoesBeginUNCPath`. -/
def doesBeginUNCPath (strictSlashes : Bool) : Str → Bool
  | c :: d :: _ => if strictSlashes = true then c == '\\' && d == '\\' else isURLSlash c && isURLSlash d
  | _ => false

/-- `DoesBeginSlashWindowsDriveSpec`. -/
def doesBeginSlashWindowsDriveSpec : Str → Bool
  | c :: rest => isURLSlash c && doesBeginWindowsDriveSpec rest
  | _ => false

inductive Relativity where
  | error
  | absolute
  | relative (component : Component)
  deriving DecidableEq

/-- `DoIsRelativeURL`. -/
def isRelativeURL (windows : Bool) (baseScheme url : Str) (isBaseHierarchical : Bool) : Relativity :=
  let start := trimStart url
  let text := url.take (trimEnd url start url.length)
  let whole := makeRange start text.length
  if text.length ≤ start then
    if isBaseHierarchical = true then .relative ⟨start, 0⟩ else .error
  else if windows = true ∧ (doesBeginWindowsDriveSpec (text.drop start) ||
      doesBeginUNCPath true (text.drop start)) = true then .absolute
  else
    let scheme := (doExtractScheme text).getD ⟨0, 0⟩
    if scheme.len = 0 then
      if text[start]? ≠ some '#' ∧ isBaseHierarchical = false then .error else .relative whole
    else
      let cmp := slice text scheme.start scheme.finish
      if (cmp.any fun c => (canonicalSchemeChar c).isNone) = true then
        if isBaseHierarchical = true then .relative whole else .error
      else if areSchemesEqual baseScheme cmp = false then .absolute
      else if isBaseHierarchical = false then .absolute
      else if compareSchemeComponent cmp fileSystemScheme = true then .absolute
      else if countConsecutiveSlashes text (scheme.finish + 1) ≤ 1 then
        .relative (makeRange (scheme.finish + 1) text.length)
      else .absolute

/-! ## What follows the path -/

/-- The characters of `CHAR_QUERY`. -/
def isQueryChar (c : Char) : Bool :=
  decide (33 ≤ c.toNat) && decide (c.toNat ≤ 126) && c != '\x22' && c != '#' && c != '\x27' &&
    c != '<' && c != '>'

/-- `AppendRaw8BitQueryString`. -/
def rawQueryString (source : Str) : Str :=
  source.flatMap fun c => if isQueryChar c = true then [c] else appendEscapedChar c []

/-- `CanonicalizeQuery`, with no converter. -/
def canonicalizeQuery (e : Elsewhere) (spec : Str) (query : Component) (output : Str) :
    Str × Component :=
  if query.len < 0 then (output, Component.reset)
  else
    let source := slice spec query.start query.finish
    let text :=
      if (source.all fun c => decide (c.toNat < 128)) = true then rawQueryString source
      else e.appendStringOfType source
    (output ++ '?' :: text, makeRange (output.length + 1) (output.length + 1 + text.length))

/-- The loop of `DoCanonicalizeRef`. -/
def canonicalRefText (e : Elsewhere) : Str → Nat → Str
  | [], _ => []
  | _ :: rest, taken + 1 => canonicalRefText e rest taken
  | c :: rest, 0 =>
    if c = '\x00' then canonicalRefText e rest 0
    else if c.toNat < 32 then appendEscapedChar c [] ++ canonicalRefText e rest 0
    else if c.toNat < 128 then c :: canonicalRefText e rest 0
    else
      let (value, taken) := e.readUTFChar (c :: rest)
      value ++ canonicalRefText e rest taken

/-- `CanonicalizeRef`. -/
def canonicalizeRef (e : Elsewhere) (spec : Str) (ref : Component) (output : Str) :
    Str × Component :=
  if ref.len < 0 then (output, Component.reset)
  else
    let text := canonicalRefText e (slice spec ref.start ref.finish) 0
    (output ++ '#' :: text, makeRange (output.length + 1) (output.length + 1 + text.length))

/-! ## The resolver -/

def copyToLastSlash (spec : Str) (i j : Nat) : Str := (slice spec i j).rdropWhile notSlash

def copyOneComponent (source : Str) (component : Component) (output : Str) : Str × Component :=
  if component.len < 0 then (output, Component.reset)
  else
    let text := slice source component.start component.finish
    (output ++ text, makeRange output.length (output.length + text.length))

/-- `Parsed::Length`. -/
def Parsed.length (p : Parsed) : Nat :=
  if p.ref.isValid = true then p.ref.finish
  else if p.query.isValid = true then p.query.finish
  else if p.path.isValid = true then p.path.finish
  else if p.port.isValid = true then p.port.finish
  else if p.host.isValid = true then p.host.finish
  else if p.password.isValid = true then p.password.finish + 1
  else if p.username.isValid = true then p.username.finish + 1
  else if p.scheme.isValid = true then p.scheme.finish + 1
  else 0

/-- `CopyBaseDriveSpecIfNecessary`, with the position behind what is copied. -/
def copyBaseDriveSpecIfNecessary (baseUrl : Str) (basePathBegin basePathEnd : Nat)
    (relativePath output : Str) : Nat × Str :=
  let basePath := slice baseUrl basePathBegin basePathEnd
  if basePathEnd ≤ basePathBegin then (basePathBegin, output)
  else if doesBeginWindowsDriveSpec relativePath = true then (basePathBegin, output)
  else if doesBeginSlashWindowsDriveSpec basePath = true then
    (basePathBegin + 3, output ++ '/' :: (basePath.drop 1).take 2)
  else (basePathBegin, output)

/-- The first case of `DoResolveRelativePath`: the path is replaced or modified. -/
def resolveNewPath (e : Elsewhere) (windows : Bool) (baseUrl : Str) (baseParsed : Parsed)
    (baseIsFile : Bool) (relativeUrl : Str) (relativeComponent : Component) (fullPath : FullPath)
    (output : Str) : Resolution :=
  let truePathBegin := output.length
  let (basePathBegin, output) :=
    if windows = true ∧ baseIsFile = true then
      copyBaseDriveSpecIfNecessary baseUrl baseParsed.path.start baseParsed.path.finish
        (slice relativeUrl relativeComponent.start relativeComponent.finish) output
    else (baseParsed.path.start, output)
  let path := slice relativeUrl fullPath.path.start fullPath.path.finish
  let state :=
    if (path.head?.any isURLSlash) = true then canonicalizePath path output
    else
      canonicalizePartialPath path output.length
        (output ++ copyToLastSlash baseUrl basePathBegin baseParsed.path.finish)
  let (output, query) := canonicalizeQuery e relativeUrl fullPath.query state.output
  let (output, ref) := canonicalizeRef e relativeUrl fullPath.ref output
  { success := state.success
    output := output
    parsed := { baseParsed with
      path := makeRange truePathBegin state.output.length, query := query, ref := ref } }

/-- `DoResolveRelativePath`. -/
def resolveRelativePath (e : Elsewhere) (windows : Bool) (baseUrl : Str) (baseParsed : Parsed)
    (baseIsFile : Bool) (relativeUrl : Str) (relativeComponent : Component) : Resolution :=
  let fullPath := parsePath relativeUrl relativeComponent
  let output := baseUrl.take baseParsed.path.start
  if 0 < fullPath.path.len then
    resolveNewPath e windows baseUrl baseParsed baseIsFile relativeUrl relativeComponent fullPath
      output
  else
    let (output, path) := copyOneComponent baseUrl baseParsed.path output
    if fullPath.query.isValid = true then
      let (output, query) := canonicalizeQuery e relativeUrl fullPath.query output
      let (output, ref) := canonicalizeRef e relativeUrl fullPath.ref output
      ⟨true, output, { baseParsed with path := path, query := query, ref := ref }⟩
    else
      let output := if baseParsed.query.isValid = true then output ++ ['?'] else output
      let (output, query) := copyOneComponent baseUrl baseParsed.query output
      let (output, ref) := canonicalizeRef e relativeUrl fullPath.ref output
      ⟨true, output, { baseParsed with path := path, query := query, ref := ref }⟩

/-- `DoResolveRelativeURL`. -/
def resolveRelativeURL (e : Elsewhere) (windows : Bool) (baseUrl : Str) (baseParsed : Parsed)
    (baseIsFile : Bool) (relativeUrl : Str) (relativeComponent : Component) : Resolution :=
  let baseLen := baseParsed.length
  if baseParsed.path.len ≤ 0 then ⟨false, baseUrl.take baseLen, baseParsed⟩
  else if relativeComponent.len ≤ 0 then
    ⟨true, baseUrl.take ((baseLen : Int) - (baseParsed.ref.len + 1)).toNat,
      { baseParsed with ref := Component.reset }⟩
  else
    let relative := relativeUrl.take relativeComponent.finish
    let text := relative.drop relativeComponent.start
    let numSlashes := countConsecutiveSlashes relative relativeComponent.start
    if windows = true ∧ (doesBeginUNCPath (!baseIsFile) text = true ∨
        ((numSlashes = 0 ∨ baseIsFile = true) ∧
          doesBeginWindowsDriveSpec (text.drop numSlashes) = true)) then
      e.resolveAbsoluteFile relativeUrl relativeComponent
    else if windows = false ∧ baseIsFile = true ∧
        (2 ≤ numSlashes ∨ (numSlashes : Int) = relativeComponent.len) then
      e.resolveAbsoluteFile relativeUrl relativeComponent
    else if 2 ≤ numSlashes then
      e.resolveRelativeHost baseUrl baseParsed relativeUrl relativeComponent
    else resolveRelativePath e windows baseUrl baseParsed baseIsFile relativeUrl relativeComponent

/-- `DoResolveRelative`. -/
def resolveRelative (e : Elsewhere) (windows : Bool) (baseSpec : Str) (baseParsed : Parsed)
    (inRelative : Str) : Resolution :=
  let relative := removeURLWhitespace inRelative
  let scheme := slice baseSpec baseParsed.scheme.start baseParsed.scheme.finish
  let hasScheme := baseParsed.scheme.isNonempty
  let numSlashes :=
    if hasScheme = true then countConsecutiveSlashes baseSpec (baseParsed.scheme.finish + 1) else 0
  let standardBaseScheme := hasScheme && isStandard scheme
  let baseIsHierarchical := decide (0 < numSlashes) || standardBaseScheme
  match isRelativeURL windows scheme relative baseIsHierarchical with
  | .error => ⟨false, [], Parsed.unset⟩
  | .absolute => e.canonicalize relative
  | .relative component =>
    if 1 < numSlashes ∧ standardBaseScheme = false then
      let authorityParsed := doParseStandardURL baseSpec
      if authorityParsed.host.isNonempty = true then
        let temporary := resolveRelativeURL e windows baseSpec authorityParsed false relative component
        { e.canonicalize temporary.output with success := temporary.success }
      else e.canonicalize relative
    else
      let fileBaseScheme := hasScheme && compareSchemeComponent scheme fileScheme
      resolveRelativeURL e windows baseSpec baseParsed fileBaseScheme relative component

/-- `BkURL::Resolve`. -/
def BkURL.resolve (e : Elsewhere) (windows : Bool) (u : BkURL) (relative : Str) : BkURL :=
  let invalid : BkURL := ⟨false, [], Parsed.unset⟩
  if u.isValid = false then invalid
  else
    let result := resolveRelative e windows u.string u.parsed relative
    if result.success = false then invalid else ⟨true, result.output, result.parsed⟩

/-- `ResponseImpl::ResolveRedirection`: the URL before it, and the URL that it leaves. -/
def resolveRedirection (e : Elsewhere) (windows : Bool) (url location : Str) : Str × Str :=
  if location = [] then ([], url)
  else (url, ((BkURL.ofString url).resolve e windows location).string)

/-! ## The text of a reference -/

def isReferenceChar (c : Char) : Bool := isQueryPchar c || c == '%' || c == '#'

theorem pchar_reference {c : Char} (h : isPchar c = true) : isReferenceChar c = true := by
  unfold isReferenceChar isQueryPchar
  rw [h]
  rfl

theorem hexDigit_reference : ∀ c ∈ hexDigits,
    isReferenceChar c = true ∧ isQueryOrRef c = false ∧ isRef c = false := by
  decide

theorem mem_textOf {allowed : Char → Bool} {us : List (PChar allowed)} {c : Char}
    (hc : c ∈ textOf us) : allowed c = true ∨ c = '%' ∨ c ∈ hexDigits := by
  obtain ⟨p, -, hp⟩ := List.mem_flatMap.mp hc
  cases p with
  | plain d h =>
    rw [List.mem_singleton.mp hp]
    exact .inl h
  | escaped hi lo hhi hlo =>
    simp only [PChar.text, List.mem_cons, List.not_mem_nil, or_false] at hp
    rcases hp with rfl | rfl | rfl
    · exact .inr (.inl rfl)
    · exact .inr (.inr (mem_hexDigits hhi))
    · exact .inr (.inr (mem_hexDigits hlo))

theorem mem_slashed {xs : List Str} {c : Char} (hc : c ∈ slashed xs) :
    c = '/' ∨ ∃ x ∈ xs, c ∈ x := by
  obtain ⟨x, hx, hmem⟩ := List.mem_flatMap.mp hc
  rcases List.mem_cons.mp hmem with rfl | hmem
  · exact .inl rfl
  · exact .inr ⟨x, hx, hmem⟩

theorem mem_segments {segs : List Segment} {c : Char} (hc : c ∈ slashed (segs.map textOf)) :
    c = '/' ∨ isPchar c = true ∨ c = '%' ∨ c ∈ hexDigits := by
  rcases mem_slashed hc with rfl | ⟨x, hx, hmem⟩
  · exact .inl rfl
  · obtain ⟨us, -, rfl⟩ := List.mem_map.mp hx
    exact .inr (mem_textOf hmem)

theorem mem_pathText {p : RefPath} {c : Char} (hc : c ∈ p.text) :
    c = '/' ∨ isPchar c = true ∨ c = '%' ∨ c ∈ hexDigits := by
  cases p with
  | empty => cases hc
  | absolute first rest _ => exact mem_segments hc
  | relative first rest _ _ =>
    rcases List.mem_append.mp hc with hc | hc
    · exact .inr (mem_textOf hc)
    · exact mem_segments hc

/-- The characters of a path are none that end it. -/
theorem pathText_plain (p : RefPath) : ∀ c ∈ p.text, isQueryOrRef c = false := by
  intro c hc
  rcases mem_pathText hc with rfl | h | rfl | h
  · rfl
  · unfold isQueryOrRef
    rw [Bool.or_eq_false_iff, beq_eq_false_iff_ne, beq_eq_false_iff_ne]
    constructor <;> rintro rfl <;> exact absurd h (by decide)
  · rfl
  · exact (hexDigit_reference c h).2.1

theorem queryText_char {us : QueryText} {c : Char} (hc : c ∈ textOf us) :
    isReferenceChar c = true ∧ isRef c = false := by
  rcases mem_textOf hc with h | rfl | h
  · refine ⟨?_, ?_⟩
    · unfold isReferenceChar
      rw [h]
      rfl
    · unfold isRef
      rw [beq_eq_false_iff_ne]
      rintro rfl
      exact absurd h (by decide)
  · exact ⟨rfl, rfl⟩
  · exact ⟨(hexDigit_reference c h).1, (hexDigit_reference c h).2.2⟩

theorem mem_marked {d c : Char} {t : Option Str} (hc : c ∈ marked d t) :
    c = d ∨ ∃ s, t = some s ∧ c ∈ s := by
  cases t with
  | none => cases hc
  | some s =>
    rcases List.mem_cons.mp hc with rfl | hc
    · exact .inl rfl
    · exact .inr ⟨s, rfl, hc⟩

theorem mem_reference {r : Reference} {c : Char} (hc : c ∈ r.text) : isReferenceChar c = true := by
  have hmarked : ∀ (d : Char) (q : Option QueryText), isReferenceChar d = true →
      c ∈ marked d (q.map textOf) → isReferenceChar c = true := by
    intro d q hd hmem
    rcases mem_marked hmem with rfl | ⟨s, hs, hmem⟩
    · exact hd
    · obtain ⟨us, -, rfl⟩ := Option.map_eq_some_iff.mp hs
      exact (queryText_char hmem).1
  rcases List.mem_append.mp hc with hc | hc
  · rcases mem_pathText hc with rfl | h | rfl | h
    · rfl
    · exact pchar_reference h
    · rfl
    · exact (hexDigit_reference c h).1
  · rcases List.mem_append.mp hc with hc | hc
    · exact hmarked '?' r.query rfl hc
    · exact hmarked '#' r.fragment rfl hc

theorem referenceChar_low : ∀ n < 127, isReferenceChar (Char.ofNat n) = true →
    32 < n ∧ Char.ofNat n ≠ '\\' ∧ Char.ofNat n ≠ '|' := by
  decide

/-- The characters of a reference are in ASCII; none is trimmed and none is a backslash. -/
theorem referenceChar_range {c : Char} (h : isReferenceChar c = true) :
    32 < c.toNat ∧ c.toNat < 127 ∧ c ≠ '\\' ∧ c ≠ '|' := by
  have hlt : c.toNat < 127 := by
    have hletter : c.isAlphanum = true → c.val.toNat < 127 := by
      intro halnum
      have hcases : (c.isUpper = true ∨ c.isLower = true) ∨ c.isDigit = true :=
        (Bool.or_eq_true _ _ ▸ halnum).imp_left fun h => Bool.or_eq_true _ _ ▸ h
      rcases hcases with (h | h) | h
      · have hle : c.val ≤ 'Z'.val := (of_decide_eq_true h).2
        exact Nat.lt_of_le_of_lt (UInt32.le_iff_toNat_le.mp hle) (by decide)
      · have hle : c.val ≤ 'z'.val := of_decide_eq_true (Bool.and_eq_true_iff.mp h).2
        exact Nat.lt_of_le_of_lt (UInt32.le_iff_toNat_le.mp hle) (by decide)
      · have hle : c.val ≤ '9'.val := of_decide_eq_true (Bool.and_eq_true_iff.mp h).2
        exact Nat.lt_of_le_of_lt (UInt32.le_iff_toNat_le.mp hle) (by decide)
    simp only [isReferenceChar, isQueryPchar, isPchar, isUnreserved, isSubDelim, Bool.or_eq_true,
      beq_iff_eq] at h
    casesm* _ ∨ _
    all_goals first
      | exact hletter ‹_›
      | (subst_vars; decide)
  have hlow := referenceChar_low c.toNat hlt
  rw [Char.ofNat_toNat] at hlow
  obtain ⟨h32, hbackslash, hbar⟩ := hlow h
  exact ⟨h32, hlt, hbackslash, hbar⟩

section ReferenceText

variable (r : Reference)

theorem removeURLWhitespace_reference : removeURLWhitespace r.text = r.text := by
  unfold removeURLWhitespace
  refine List.filter_eq_self.mpr fun c hc => ?_
  have hrange := (referenceChar_range (mem_reference hc)).1
  unfold isRemovableURLWhitespace
  rw [Bool.not_eq_true', Bool.or_eq_false_iff, Bool.or_eq_false_iff, beq_eq_false_iff_ne,
    beq_eq_false_iff_ne, beq_eq_false_iff_ne]
  refine ⟨⟨?_, ?_⟩, ?_⟩ <;> rintro rfl <;> exact absurd hrange (by decide)

theorem reference_not_trimmed {c : Char} (hc : c ∈ r.text) : shouldTrimFromURL c = false := by
  have hrange := (referenceChar_range (mem_reference hc)).1
  unfold shouldTrimFromURL
  exact decide_eq_false (by omega)

theorem trimStart_reference : trimStart r.text = 0 :=
  trimStart_append (a := []) (List.forall_mem_nil _) fun _ hc =>
    reference_not_trimmed r (List.mem_of_head? hc)

theorem trimEnd_reference : trimEnd r.text 0 r.text.length = r.text.length := by
  have h := trimEnd_append (a := r.text) (t := []) (List.forall_mem_nil _) (Nat.zero_le _)
    fun _ hc => reference_not_trimmed r (List.mem_of_getLast? hc)
  rwa [List.append_nil] at h

/-- What begins with a slash or with a mark. -/
theorem slashed_head (segs : List Str) (query ref : Option Str) :
    ∀ c, (slashed segs ++ (marked '?' query ++ marked '#' ref)).head? = some c →
      c = '/' ∨ isQueryOrRef c = true := by
  intro c hc
  cases segs with
  | nil => exact .inr (marked_head query ref c hc)
  | cons s segs =>
    obtain rfl := Option.some.inj hc
    exact .inl rfl

/-- There is no colon in front of the first slash, question mark or number sign. -/
theorem reference_split : ∃ a b, r.text = a ++ b ∧ ':' ∉ a ∧
    ∀ c, b.head? = some c → c = '/' ∨ isQueryOrRef c = true := by
  unfold Reference.text
  cases r.path with
  | empty =>
    exact ⟨[], _, rfl, List.not_mem_nil, fun c hc => .inr (marked_head _ _ c hc)⟩
  | absolute first rest _ =>
    exact ⟨[], _, rfl, List.not_mem_nil,
      slashed_head ((first :: rest).map textOf) r.queryText r.fragmentText⟩
  | relative first rest _ hcolon =>
    refine ⟨textOf first, _, ?_, hcolon, slashed_head (rest.map textOf) r.queryText r.fragmentText⟩
    show textOf first ++ slashed (rest.map textOf) ++ _ = _
    rw [List.append_assoc]

theorem not_windows_drive : doesBeginWindowsDriveSpec r.text = false := by
  obtain ⟨a, b, hsplit, hcolon, hhead⟩ := reference_split r
  unfold doesBeginWindowsDriveSpec
  split
  · rename_i c d rest htext
    rw [Bool.and_eq_false_iff, Bool.or_eq_false_iff, beq_eq_false_iff_ne, beq_eq_false_iff_ne]
    have hbar : d ≠ '|' := by
      have hmem : d ∈ r.text := by
        rw [htext]
        simp
      exact (referenceChar_range (mem_reference hmem)).2.2.2
    by_cases hd : d = ':'
    · left
      -- the colon is behind the first slash or mark, so that this is the first character
      rw [htext, hd] at hsplit
      match a, hsplit with
      | [], hsplit =>
        rw [List.nil_append] at hsplit
        have hc := hhead c (by rw [← hsplit]; rfl)
        unfold isQueryOrRef at hc
        rw [Bool.or_eq_true, beq_iff_eq, beq_iff_eq] at hc
        rcases hc with rfl | rfl | rfl <;> rfl
      | [_], hsplit =>
        injection hsplit with _ hsplit
        have hb : b = ':' :: rest := hsplit.symm
        have hc := hhead ':' (by rw [hb]; rfl)
        exact absurd hc (by decide)
      | _ :: _ :: _, hsplit =>
        injection hsplit with _ hsplit
        injection hsplit with hsecond _
        rw [← hsecond] at hcolon
        exact absurd (List.mem_cons_of_mem _ List.mem_cons_self) hcolon
    · exact .inr ⟨hd, hbar⟩
  · rfl

theorem not_unc {s : Str} (hs : ∀ c ∈ s, c ≠ '\\') : doesBeginUNCPath true s = false := by
  unfold doesBeginUNCPath
  split
  · rename_i c d rest
    rw [if_pos rfl, Bool.and_eq_false_iff, beq_eq_false_iff_ne]
    exact .inl (hs c List.mem_cons_self)
  · rfl

theorem reference_no_backslash : ∀ c ∈ r.text, c ≠ '\\' := fun _ hc =>
  (referenceChar_range (mem_reference hc)).2.2.1

/-- A character that ends no scheme precedes the first colon. -/
theorem scheme_invalid (hcolon : behind isColon r.text ≠ []) :
    ((before isColon r.text).any fun c => (canonicalSchemeChar c).isNone) = true := by
  obtain ⟨a, b, hsplit, ha, hhead⟩ := reference_split r
  have hplain : ∀ c ∈ a, (!isColon c) = true := by
    intro c hc
    unfold isColon
    rw [Bool.not_eq_true', beq_eq_false_iff_ne]
    rintro rfl
    exact ha hc
  cases b with
  | nil =>
    rw [hsplit, List.append_nil] at hcolon
    refine absurd ?_ hcolon
    unfold behind
    exact List.dropWhile_eq_nil_iff.mpr hplain
  | cons d b =>
    have hd := hhead d rfl
    have hmem : d ∈ before isColon r.text := by
      rw [hsplit]
      unfold before
      have hnot : (!isColon d) = true := by
        unfold isQueryOrRef at hd
        rw [Bool.or_eq_true, beq_iff_eq, beq_iff_eq] at hd
        rcases hd with rfl | rfl | rfl <;> rfl
      rw [List.takeWhile_append_of_pos hplain, List.takeWhile_cons, if_pos hnot]
      simp
    have hnone : (canonicalSchemeChar d).isNone = true := by
      unfold isQueryOrRef at hd
      rw [Bool.or_eq_true, beq_iff_eq, beq_iff_eq] at hd
      rcases hd with rfl | rfl | rfl <;> rfl
    exact List.any_eq_true.mpr ⟨d, hmem, hnone⟩

/-- **A reference is relative** to every hierarchical base. -/
theorem isRelativeURL_reference (windows : Bool) (baseScheme : Str) (hne : r.text ≠ []) :
    isRelativeURL windows baseScheme r.text true = .relative (makeRange 0 r.text.length) := by
  have hpos : 0 < r.text.length := List.length_pos_of_ne_nil hne
  have hat := at_zero r.text
  have hdrive : ¬(windows = true ∧ (doesBeginWindowsDriveSpec r.text ||
      doesBeginUNCPath true r.text) = true) := by
    rw [not_windows_drive, not_unc (reference_no_backslash r)]
    rintro ⟨-, h⟩
    cases h
  unfold isRelativeURL
  simp only [trimStart_reference, trimEnd_reference, List.take_length, List.drop_zero]
  rw [if_neg (by omega), if_neg hdrive]
  have hwhole : ¬(r.text[0]? ≠ some '#' ∧ true = false) := fun h => Bool.noConfusion h.2
  by_cases hcolon : behind isColon r.text = []
  · have hscheme : doExtractScheme r.text = none := by
      unfold doExtractScheme
      simp only [trimStart_reference]
      rw [if_neg (by omega), hat.findFrom_none hcolon]
      rfl
    simp only [hscheme, Option.getD_none]
    rw [if_pos trivial, if_neg hwhole]
  · have hscheme : doExtractScheme r.text =
        some (makeRange 0 (0 + (before isColon r.text).length)) := by
      unfold doExtractScheme
      simp only [trimStart_reference]
      rw [if_neg (by omega), hat.findFrom_some hcolon]
      rfl
    simp only [hscheme, Option.getD_some, makeRange_finish (Nat.zero_le _)]
    by_cases hlen : (makeRange 0 (0 + (before isColon r.text).length)).len = 0
    · rw [if_pos hlen, if_neg hwhole]
    · have hslice : slice r.text (makeRange 0 (0 + (before isColon r.text).length)).start
          (0 + (before isColon r.text).length) = before isColon r.text := hat.before_slice isColon
      rw [if_neg hlen, hslice, if_pos (scheme_invalid r hcolon), if_pos trivial]

theorem countConsecutiveSlashes_append {s t : Str} (hs : ∀ c ∈ s, isURLSlash c = true)
    (ht : ∀ c, t.head? = some c → isURLSlash c = false) :
    countConsecutiveSlashes (s ++ t) 0 = s.length := by
  unfold countConsecutiveSlashes
  rw [(at_zero (s ++ t)).findFrom_append (p := notSlash), Nat.zero_add, Nat.sub_zero]
  · intro c hc
    unfold notSlash
    rw [hs c hc]
    rfl
  · intro c hc
    unfold notSlash
    rw [ht c hc]
    rfl

theorem mark_not_slash {c : Char} (h : isQueryOrRef c = true) : isURLSlash c = false := by
  unfold isQueryOrRef at h
  rw [Bool.or_eq_true, beq_iff_eq, beq_iff_eq] at h
  rcases h with rfl | rfl <;> rfl

/-- A reference with no authority begins with one slash at most. -/
theorem countConsecutiveSlashes_reference : countConsecutiveSlashes r.text 0 ≤ 1 := by
  have hmarks : ∀ c, (marked '?' r.queryText ++ marked '#' r.fragmentText).head? = some c →
      isURLSlash c = false := fun c hc => mark_not_slash (marked_head _ _ c hc)
  unfold Reference.text
  cases r.path with
  | empty =>
    have h := countConsecutiveSlashes_append (List.forall_mem_nil _) hmarks
    rw [List.nil_append, List.length_nil] at h
    show countConsecutiveSlashes (marked '?' r.queryText ++ marked '#' r.fragmentText) 0 ≤ 1
    omega
  | absolute first rest hnil =>
    have hsplit : slashed ((first :: rest).map textOf) ++
        (marked '?' r.queryText ++ marked '#' r.fragmentText) =
        ['/'] ++ (textOf first ++ (slashed (rest.map textOf) ++
          (marked '?' r.queryText ++ marked '#' r.fragmentText))) := by
      have hcons : slashed ((first :: rest).map textOf) =
          ('/' :: textOf first) ++ slashed (rest.map textOf) := rfl
      rw [hcons]
      simp
    show countConsecutiveSlashes (slashed ((first :: rest).map textOf) ++
        (marked '?' r.queryText ++ marked '#' r.fragmentText)) 0 ≤ 1
    rw [hsplit, countConsecutiveSlashes_append]
    · exact Nat.le_refl 1
    · intro c hc
      rw [List.mem_singleton.mp hc]
      rfl
    · intro c hc
      rcases textOf_head first (slashed (rest.map textOf) ++
        (marked '?' r.queryText ++ marked '#' r.fragmentText)) with hfirst | ⟨d, s, htext, hd⟩
      · rw [hfirst, hnil hfirst] at hc
        exact hmarks c hc
      · rw [htext] at hc
        obtain rfl := Option.some.inj hc
        exact hd
  | relative first rest hne _ =>
    obtain hfirst | ⟨d, s, htext, hd⟩ := textOf_head first (slashed (rest.map textOf) ++
      (marked '?' r.queryText ++ marked '#' r.fragmentText))
    · exact absurd hfirst hne
    · have h := countConsecutiveSlashes_append (List.forall_mem_nil _) (t := d :: s) (by
        intro c hc
        obtain rfl := Option.some.inj hc
        exact hd)
      rw [List.nil_append, List.length_nil] at h
      show countConsecutiveSlashes ((textOf first ++ slashed (rest.map textOf)) ++
        (marked '?' r.queryText ++ marked '#' r.fragmentText)) 0 ≤ 1
      rw [List.append_assoc, htext]
      omega

end ReferenceText

/-! ## The resolver on a reference -/

section Resolver

variable (e : Elsewhere) (windows : Bool) (u : URLText) (r : Reference)

/-- The scheme of the web. -/
def HasWebScheme : Prop := u.scheme = BkURL.httpScheme ∨ u.scheme = BkURL.httpsScheme

theorem scheme_of_web (h : HasWebScheme u) :
    u.parsed.scheme.isNonempty = true ∧
      slice u.text u.parsed.scheme.start u.parsed.scheme.finish = u.scheme := by
  have hscheme := componentString_scheme u
  rw [text_parsed] at hscheme
  unfold BkURL.componentString at hscheme
  split at hscheme
  · rename_i hnonempty
    exact ⟨hnonempty, hscheme⟩
  · rcases h with h | h <;> rw [h] at hscheme <;> cases hscheme

theorem web_standard (h : HasWebScheme u) :
    isStandard u.scheme = true ∧ compareSchemeComponent u.scheme fileScheme = false := by
  rcases h with h | h <;> rw [h] <;> decide

/-- **A reference is resolved** as a relative URL on the same host. -/
theorem resolveRelative_reference (hweb : HasWebScheme u) (hne : r.text ≠ []) :
    resolveRelative e windows u.text u.parsed r.text =
      if u.path = [] then ⟨false, u.text.take u.parsed.length, u.parsed⟩
      else resolveRelativePath e windows u.text u.parsed false r.text
        (makeRange 0 r.text.length) := by
  obtain ⟨hnonempty, hslice⟩ := scheme_of_web u hweb
  obtain ⟨hstandard, hfile⟩ := web_standard u hweb
  have hpos : 0 < r.text.length := List.length_pos_of_ne_nil hne
  have hrelative : isRelativeURL windows u.scheme r.text true =
      .relative (makeRange 0 r.text.length) := isRelativeURL_reference r windows u.scheme hne
  have hlen : ¬(makeRange 0 r.text.length).len ≤ 0 := by
    show ¬(r.text.length : Int) - (0 : Nat) ≤ 0
    omega
  have hpath : u.parsed.path.len ≤ 0 ↔ u.path = [] := by
    show (pathAt u.pathStart u.path).len ≤ 0 ↔ u.path = []
    unfold pathAt
    split
    · rename_i hp
      exact iff_of_true (by decide) hp
    · rename_i hp
      have hlength := List.length_pos_of_ne_nil hp
      refine iff_of_false ?_ hp
      show ¬((u.pathStart + u.path.length : Nat) : Int) - u.pathStart ≤ 0
      omega
  have hstart : (makeRange 0 r.text.length).start = 0 := rfl
  have hslashes := countConsecutiveSlashes_reference r
  unfold resolveRelative
  simp only [removeURLWhitespace_reference, hnonempty, hslice, hstandard, hfile, Bool.and_true,
    Bool.or_true, if_true, hrelative, Bool.and_false]
  rw [if_neg (fun h => Bool.noConfusion h.2)]
  unfold resolveRelativeURL
  simp only [hpath, hlen, if_false, makeRange_finish (Nat.zero_le _), hstart, List.take_length,
    List.drop_zero, Bool.not_false, not_unc (reference_no_backslash r)]
  split
  · rfl
  · rw [if_neg, if_neg (by simp), if_neg (by omega)]
    rintro ⟨-, h | ⟨h | h, hdrive⟩⟩
    · cases h
    · rw [h, List.drop_zero, not_windows_drive] at hdrive
      cases hdrive
    · cases h

theorem markedAt_len_neg (i : Nat) (t : Option Str) : (markedAt i t).len < 0 ↔ t = none := by
  cases t with
  | none => exact iff_of_true (show (-1 : Int) < 0 by decide) rfl
  | some t =>
    refine iff_of_false ?_ (fun h => nomatch h)
    show ¬((i + 1 + t.length : Nat) : Int) - (i + 1 : Nat) < 0
    omega

/-- The text of a component behind its mark. -/
theorem slice_markedAt {d : Char} {spec x t : Str} {i : Nat}
    (h : At spec i (marked d (some x) ++ t)) :
    slice spec (markedAt i (some x)).start (markedAt i (some x)).finish = x := by
  have hx : At spec (i + 1) (x ++ t) := h.succ
  have hfinish : (markedAt i (some x)).finish = i + 1 + x.length :=
    makeRange_finish (Nat.le_add_right _ _)
  rw [hfinish]
  exact hx.slice

theorem canonicalizeQuery_marked {spec t : Str} {i : Nat} {query : Option Str}
    (h : At spec i (marked '?' query ++ t))
    (hascii : ∀ x, query = some x → ∀ c ∈ x, c.toNat < 128) (out : Str) :
    canonicalizeQuery e spec (markedAt i query) out =
      (out ++ marked '?' (query.map rawQueryString),
        markedAt out.length (query.map rawQueryString)) := by
  unfold canonicalizeQuery
  cases query with
  | none =>
    rw [if_pos ((markedAt_len_neg i none).mpr rfl)]
    show (out, Component.reset) = (out ++ [], Component.reset)
    rw [List.append_nil]
  | some x =>
    have hall : (x.all fun c => decide (c.toNat < 128)) = true :=
      List.all_eq_true.mpr fun c hc => decide_eq_true (hascii x rfl c hc)
    rw [if_neg (fun hneg => nomatch (markedAt_len_neg i (some x)).mp hneg), slice_markedAt h]
    simp only [hall, if_true]
    rfl

theorem canonicalRefText_ascii (x : Str) (hx : ∀ c ∈ x, 32 < c.toNat ∧ c.toNat < 128) :
    canonicalRefText e x 0 = x := by
  induction x with
  | nil => rfl
  | cons c x ih =>
    obtain ⟨hlow, hhigh⟩ := hx c List.mem_cons_self
    have hnul : c ≠ '\x00' := by
      rintro rfl
      exact absurd hlow (by decide)
    rw [canonicalRefText, if_neg hnul, if_neg (by omega), if_pos hhigh,
      ih (fun d hd => hx d (List.mem_cons_of_mem c hd))]

theorem canonicalizeRef_marked {spec t : Str} {i : Nat} {ref : Option Str}
    (h : At spec i (marked '#' ref ++ t))
    (hascii : ∀ x, ref = some x → ∀ c ∈ x, 32 < c.toNat ∧ c.toNat < 128) (out : Str) :
    canonicalizeRef e spec (markedAt i ref) out =
      (out ++ marked '#' ref, markedAt out.length ref) := by
  unfold canonicalizeRef
  cases ref with
  | none =>
    rw [if_pos ((markedAt_len_neg i none).mpr rfl)]
    show (out, Component.reset) = (out ++ [], Component.reset)
    rw [List.append_nil]
  | some x =>
    rw [if_neg (fun hneg => nomatch (markedAt_len_neg i (some x)).mp hneg), slice_markedAt h]
    simp only [canonicalRefText_ascii e x (hascii x rfl)]
    rfl

theorem copyOneComponent_path {source p t : Str} {i : Nat} (h : At source i (p ++ t)) (hp : p ≠ [])
    (out : Str) : copyOneComponent source (pathAt i p) out =
      (out ++ p, makeRange out.length (out.length + p.length)) := by
  have hlen : ¬(makeRange i (i + p.length)).len < 0 := by
    show ¬((i + p.length : Nat) : Int) - i < 0
    omega
  have hslice : slice source (makeRange i (i + p.length)).start
      (makeRange i (i + p.length)).finish = p := by
    rw [makeRange_finish (Nat.le_add_right _ _)]
    exact h.slice
  unfold copyOneComponent pathAt
  rw [if_neg hp, if_neg hlen]
  simp only [hslice]

/-- A query is copied with its mark. -/
theorem copyOneComponent_query {source t : Str} {i : Nat} {query : Option Str}
    (h : At source i (marked '?' query ++ t)) (out : Str) :
    copyOneComponent source (markedAt i query)
        (if (markedAt i query).isValid = true then out ++ ['?'] else out) =
      (out ++ marked '?' query, markedAt out.length query) := by
  rw [markedAt_isValid]
  unfold copyOneComponent
  cases query with
  | none =>
    rw [if_pos ((markedAt_len_neg i none).mpr rfl)]
    show (out, Component.reset) = (out ++ [], Component.reset)
    rw [List.append_nil]
  | some x =>
    rw [if_neg (fun hneg => nomatch (markedAt_len_neg i (some x)).mp hneg), slice_markedAt h,
      if_pos Option.isSome_some]
    simp only [List.append_assoc, List.length_append, List.length_singleton]
    rfl

/-- The output up to the end of the new path, and whether the path is valid. -/
def resolvedState (u : URLParts) (p : RefPath) : PathState :=
  match p with
  | .empty => ⟨u.origin ++ u.path, none, true⟩
  | .absolute _ _ _ => canonicalizePath p.text u.origin
  | .relative _ _ _ _ =>
    canonicalizePartialPath p.text u.origin.length (u.origin ++ u.path.rdropWhile notSlash)

/-- The query behind the new path. -/
def newQuery (u : URLParts) (r : Reference) : Option Str :=
  match r.path, r.query with
  | .empty, none => u.query
  | _, _ => r.queryText.map rawQueryString

/-- What is appended behind the new path. -/
def resolution (u : URLParts) (r : Reference) : Resolution :=
  let st := resolvedState u r.path
  let query := newQuery u r
  { success := st.success
    output := st.output ++ (marked '?' query ++ marked '#' r.fragmentText)
    parsed := { u.parsed with
      path := makeRange u.pathStart st.output.length
      query := markedAt st.output.length query
      ref := markedAt (st.output.length + (marked '?' query).length) r.fragmentText } }

theorem parsePath_reference (hne : r.text ≠ []) :
    parsePath r.text (makeRange 0 r.text.length) =
      fullPathAt 0 r.path.text r.queryText r.fragmentText := by
  have hpos : 0 < r.text.length := List.length_pos_of_ne_nil hne
  have h := parsePath_text (at_zero r.text) (pathText_plain r.path) (by
    intro q hq c hc
    obtain ⟨us, -, rfl⟩ := Option.map_eq_some_iff.mp hq
    exact (queryText_char hc).2)
  rwa [if_neg (by omega)] at h

theorem queryText_ascii : ∀ x, r.queryText = some x → ∀ c ∈ x, c.toNat < 128 := by
  intro x hx c hc
  obtain ⟨us, -, rfl⟩ := Option.map_eq_some_iff.mp hx
  have hrange := referenceChar_range (queryText_char hc).1
  omega

theorem fragmentText_ascii :
    ∀ x, r.fragmentText = some x → ∀ c ∈ x, 32 < c.toNat ∧ c.toNat < 128 := by
  intro x hx c hc
  obtain ⟨us, -, rfl⟩ := Option.map_eq_some_iff.mp hx
  have hrange := referenceChar_range (queryText_char hc).1
  exact ⟨hrange.1, by omega⟩

theorem at_pathText : At r.text 0
    (r.path.text ++ (marked '?' r.queryText ++ marked '#' r.fragmentText)) := at_zero r.text

theorem at_queryText : At r.text (0 + r.path.text.length)
    (marked '?' r.queryText ++ marked '#' r.fragmentText) := (at_pathText r).append

theorem at_fragmentText :
    At r.text (0 + r.path.text.length + (marked '?' r.queryText).length)
      (marked '#' r.fragmentText ++ []) := by
  rw [List.append_nil]
  exact (at_queryText r).append

theorem take_origin : u.text.take u.pathStart = u.origin := by
  rw [u.text_eq, ← u.origin_length, List.take_left]

theorem at_basePath : At u.text u.pathStart (u.path ++ (u.afterPath ++ u.trail)) := by
  rw [u.text_eq, ← u.origin_length, URLParts.afterAuthority, List.append_assoc]
  exact at_append _ _

theorem at_baseQuery :
    At u.text u.pathEnd (marked '?' u.query ++ (marked '#' u.ref ++ u.trail)) := by
  have h := (at_basePath u).append
  rw [URLParts.afterPath, List.append_assoc] at h
  exact h

/-- The query and the fragment of a reference behind a new path. -/
theorem resolveNewPath_reference (hpath : u.path ≠ []) (comp : Component)
    (hnew : r.path.text ≠ []) :
    resolveNewPath e windows u.text u.parsed false r.text comp
        (fullPathAt 0 r.path.text r.queryText r.fragmentText) u.origin =
      let st :=
        if (r.path.text.head?.any isURLSlash) = true then canonicalizePath r.path.text u.origin
        else canonicalizePartialPath r.path.text u.origin.length
          (u.origin ++ u.path.rdropWhile notSlash)
      { success := st.success
        output := st.output ++
          (marked '?' (r.queryText.map rawQueryString) ++ marked '#' r.fragmentText)
        parsed := { u.parsed with
          path := makeRange u.pathStart st.output.length
          query := markedAt st.output.length (r.queryText.map rawQueryString)
          ref := markedAt (st.output.length + (marked '?' (r.queryText.map rawQueryString)).length)
            r.fragmentText } } := by
  have hbase : u.parsed.path = makeRange u.pathStart (u.pathStart + u.path.length) := if_neg hpath
  have hcopy : copyToLastSlash u.text u.parsed.path.start u.parsed.path.finish =
      u.path.rdropWhile notSlash := by
    unfold copyToLastSlash
    rw [hbase, makeRange_finish (Nat.le_add_right _ _)]
    exact congrArg _ (at_basePath u).slice
  have hslice : slice r.text (pathAt 0 r.path.text).start (pathAt 0 r.path.text).finish =
      r.path.text := by
    unfold pathAt
    rw [if_neg hnew, makeRange_finish (Nat.le_add_right _ _)]
    exact (at_pathText r).slice
  have hquery := canonicalizeQuery_marked e (at_queryText r) (queryText_ascii r)
  have href := canonicalizeRef_marked e (at_fragmentText r) (fragmentText_ascii r)
  unfold resolveNewPath
  simp only [Bool.false_eq_true, and_false, if_false, fullPathAt, hslice, hcopy, hquery, href,
    List.append_assoc, List.length_append, u.origin_length]

/-- **A reference is resolved** to what is kept of the base and what the reference replaces. -/
theorem resolveRelativePath_reference (hpath : u.path ≠ []) (hne : r.text ≠ []) :
    resolveRelativePath e windows u.text u.parsed false r.text (makeRange 0 r.text.length) =
      resolution u.toURLParts r := by
  have hstart : u.parsed.path.start = u.pathStart := by
    show (pathAt u.pathStart u.path).start = u.pathStart
    unfold pathAt
    rw [if_neg hpath]
    rfl
  have hlen : 0 < (fullPathAt 0 r.path.text r.queryText r.fragmentText).path.len ↔
      r.path.text ≠ [] := by
    show 0 < (pathAt 0 r.path.text).len ↔ r.path.text ≠ []
    unfold pathAt
    split
    · rename_i h
      exact iff_of_false (by decide) (fun hn => hn h)
    · rename_i h
      refine iff_of_true ?_ h
      have hlength := List.length_pos_of_ne_nil h
      show (0 : Int) < ((0 + r.path.text.length : Nat) : Int) - (0 : Nat)
      omega
  unfold resolveRelativePath
  simp only [parsePath_reference r hne, hstart, take_origin]
  cases hp : r.path with
  | empty =>
    have hnil : r.path.text = [] := by rw [hp]; rfl
    have hcopy : copyOneComponent u.text u.parsed.path u.origin =
        (u.origin ++ u.path, makeRange u.origin.length (u.origin.length + u.path.length)) :=
      copyOneComponent_path (at_basePath u) hpath u.origin
    have hvalid : (fullPathAt 0 r.path.text r.queryText r.fragmentText).query.isValid =
        r.queryText.isSome := markedAt_isValid _ _
    have hquery := canonicalizeQuery_marked e (at_queryText r) (queryText_ascii r)
      (u.origin ++ u.path)
    have hbaseQuery : copyOneComponent u.text u.parsed.query
        (if u.parsed.query.isValid = true then u.origin ++ u.path ++ ['?'] else u.origin ++ u.path) =
        _ := copyOneComponent_query (at_baseQuery u) (u.origin ++ u.path)
    have href := canonicalizeRef_marked e (at_fragmentText r) (fragmentText_ascii r)
    have hstate : resolvedState u.toURLParts r.path = ⟨u.origin ++ u.path, none, true⟩ := by
      rw [hp]
      rfl
    rw [← hp, if_neg (fun h => hlen.mp h hnil), hcopy, hvalid]
    cases hq : r.query with
    | some q =>
      have hsome : r.queryText.isSome = true := by
        unfold Reference.queryText
        rw [hq]
        rfl
      have hnew : newQuery u.toURLParts r = r.queryText.map rawQueryString := by
        unfold newQuery
        rw [hp, hq]
      rw [if_pos hsome]
      simp only [fullPathAt, hquery, href]
      simp only [resolution, hstate, hnew, List.append_assoc, List.length_append, Nat.add_assoc,
        u.origin_length]
    | none =>
      have hnone : ¬r.queryText.isSome = true := by
        unfold Reference.queryText
        rw [hq]
        exact Bool.false_ne_true
      have hnew : newQuery u.toURLParts r = u.query := by
        unfold newQuery
        rw [hp, hq]
      rw [if_neg hnone, hbaseQuery]
      simp only [fullPathAt, href]
      simp only [resolution, hstate, hnew, List.append_assoc, List.length_append, Nat.add_assoc,
        u.origin_length]
  | absolute first rest h =>
    have hnew : r.path.text ≠ [] := by rw [hp]; exact List.cons_ne_nil _ _
    have hslash : (r.path.text.head?.any isURLSlash) = true := by rw [hp]; rfl
    rw [← hp, if_pos (hlen.mpr hnew), resolveNewPath_reference e windows u r hpath _ hnew]
    simp only [if_pos hslash]
    unfold resolution newQuery resolvedState
    rw [hp]
  | relative first rest h hcolon =>
    have hhead : ∃ c s, r.path.text = c :: s ∧ isURLSlash c = false := by
      rw [hp]
      exact (textOf_head first (slashed (rest.map textOf))).resolve_left h
    obtain ⟨c, s, htext, hc⟩ := hhead
    have hnew : r.path.text ≠ [] := by rw [htext]; exact List.cons_ne_nil _ _
    have hslash : ¬(r.path.text.head?.any isURLSlash) = true := by
      rw [htext]
      show ¬isURLSlash c = true
      rw [hc]
      exact Bool.false_ne_true
    rw [← hp, if_pos (hlen.mpr hnew), resolveNewPath_reference e windows u r hpath _ hnew]
    simp only [if_neg hslash]
    unfold resolution newQuery resolvedState
    rw [hp]

/-- **What `Resolve` returns** for a reference. -/
theorem resolve_reference (hweb : HasWebScheme u) (hne : r.text ≠ []) :
    (BkURL.ofString u.text).resolve e windows r.text =
      if u.path = [] ∨ (resolvedState u.toURLParts r.path).success = false then
        ⟨false, [], Parsed.unset⟩
      else ⟨true, (resolution u.toURLParts r).output, (resolution u.toURLParts r).parsed⟩ := by
  have hvalid : (BkURL.ofString u.text).isValid = true := by
    show (BkURL.ofString u.text).parsed.scheme.isValid = true
    rw [text_parsed]
    exact makeRange_isValid (Nat.le_add_right _ _)
  have hstring : (BkURL.ofString u.text).string = u.text := rfl
  unfold BkURL.resolve
  rw [if_neg (by rw [hvalid]; exact Bool.noConfusion)]
  simp only [hstring, text_parsed, resolveRelative_reference e windows u r hweb hne]
  by_cases hpath : u.path = []
  · rw [if_pos hpath, if_pos rfl, if_pos (Or.inl hpath)]
  · rw [if_neg hpath, resolveRelativePath_reference e windows u r hpath hne]
    have hsuccess : (resolution u.toURLParts r).success =
        (resolvedState u.toURLParts r.path).success := rfl
    rw [hsuccess]
    by_cases hok : (resolvedState u.toURLParts r.path).success = false
    · rw [if_pos hok, if_pos (Or.inr hok)]
    · rw [if_neg hok, if_neg (fun h => h.elim hpath hok)]

end Resolver

end Blinkit.Url
