import Blinkit.Url.UrlParse

/-!
# URLs and request targets

A `BkURL` keeps the string as it is given, with the components that the parser finds in it.

* `BkURL.ofString` — the constructor; `schemeIs` and its callers.
* `BkURL.requestRange`, `BkURL.pathForRequest` — the piece of the string that a request names.
* `URLParts.target` — the request target of a URL: its path, or a slash, and its query.

Principal results: `requestRange_inside` and `pathForRequest_iff`.
-/

set_option autoImplicit false

namespace Blinkit.Url

open Cursor

/-- `std::string::substr`; it throws where the position is behind the string. -/
def substr (s : Str) (pos : Nat) (n : Int) : Option Str :=
  if pos ≤ s.length then some ((s.drop pos).take (if n < 0 then s.length else n.toNat)) else none

/-- `BkURL`. -/
structure BkURL where
  isValid : Bool
  string : Str
  parsed : Parsed

namespace BkURL

def ofString (urlString : Str) : BkURL :=
  let parsed := doParseStandardURL urlString
  { string := urlString, parsed := parsed, isValid := parsed.scheme.isValid }

def componentString (u : BkURL) (comp : Component) : Str :=
  if comp.isNonempty = true then slice u.string comp.start comp.finish else []

def schemeIs (u : BkURL) (scheme : Str) : Bool := u.componentString u.parsed.scheme == scheme

def httpScheme : Str := ['h', 't', 't', 'p']

def httpsScheme : Str := ['h', 't', 't', 'p', 's']

def schemeIsHTTPOrHTTPS (u : BkURL) : Bool := u.schemeIs httpScheme || u.schemeIs httpsScheme

/-- The position and the length that `PathForRequest` gives to `substr`; none where it returns a
slash of its own. -/
def requestRange (u : BkURL) : Option (Nat × Int) :=
  if u.parsed.ref.isValid = true then
    some (u.parsed.path.start, (u.parsed.ref.start : Int) - u.parsed.path.start - 1)
  else if u.parsed.path.isValid = false then none
  else
    let pathLen : Int :=
      if u.parsed.query.isValid = true then (u.parsed.query.finish : Int) - u.parsed.path.start
      else u.parsed.path.len
    some (u.parsed.path.start, pathLen)

def pathForRequest (u : BkURL) : Option Str :=
  match u.requestRange with
  | none => some ['/']
  | some (pos, n) => substr u.string pos n

end BkURL

/-- The request target: the path, or a slash for an empty one, and the query when there is one. -/
def URLParts.target (u : URLParts) : Str :=
  (if u.path = [] then ['/'] else u.path) ++ marked '?' u.query

/-! ## The range -/

theorem slice_eq_substr {s : Str} {i j : Nat} (hij : i ≤ j) (hj : j ≤ s.length) :
    substr s i (j - i : Int) = some (slice s i j) := by
  unfold substr slice
  have htake : (if (j : Int) - i < 0 then s.length else ((j : Int) - i).toNat) = j - i := by
    rw [if_neg (by omega)]
    omega
  rw [if_pos (by omega), htake, List.drop_take]

theorem makeRange_isValid {i j : Nat} (h : i ≤ j) : (makeRange i j).isValid = true := by
  unfold Component.isValid makeRange
  have hne : (j : Int) - i ≠ -1 := by omega
  exact bne_iff_ne.mpr hne

theorem pathAt_isValid (i : Nat) (p : Str) : (pathAt i p).isValid = !decide (p = []) := by
  unfold pathAt
  by_cases hp : p = []
  · rw [if_pos hp, decide_eq_true hp]
    rfl
  · rw [if_neg hp, decide_eq_false hp]
    exact makeRange_isValid (Nat.le_add_right _ _)

theorem markedAt_isValid (i : Nat) (t : Option Str) : (markedAt i t).isValid = t.isSome := by
  cases t with
  | none => rfl
  | some t => exact makeRange_isValid (Nat.le_add_right _ _)

section Range

variable (u : URLText)

theorem text_parsed : (BkURL.ofString u.text).parsed = u.parsed := u.doParseStandardURL_text

theorem componentString_scheme :
    (BkURL.ofString u.text).componentString (BkURL.ofString u.text).parsed.scheme = u.scheme := by
  have hle : u.lead.length ≤ u.schemeEnd := Nat.le_add_right _ _
  have hat : At u.text u.lead.length (u.scheme ++ (':' :: u.afterScheme ++ u.trail)) := by
    unfold URLParts.text URLParts.spec URLParts.core
    rw [List.append_assoc, List.append_assoc]
    exact at_append _ _
  have hlen : (makeRange u.lead.length u.schemeEnd).isNonempty = true ↔ u.scheme ≠ [] := by
    have hend : u.schemeEnd = u.lead.length + u.scheme.length := rfl
    have hpos := List.length_pos_iff (l := u.scheme)
    unfold Component.isNonempty
    rw [decide_eq_true_iff, ← hpos]
    show (0 : Int) < (u.schemeEnd : Int) - u.lead.length ↔ _
    omega
  rw [text_parsed]
  show (if (makeRange u.lead.length u.schemeEnd).isNonempty = true then
    slice u.text u.lead.length (makeRange u.lead.length u.schemeEnd).finish else []) = u.scheme
  rw [makeRange_finish hle]
  split
  · exact hat.slice
  · rename_i hnil
    rw [hlen] at hnil
    exact (not_not.mp hnil).symm

/-- A string with a scheme has a colon. -/
theorem colon_of_scheme {s : Str}
    (h : (BkURL.ofString s).componentString (BkURL.ofString s).parsed.scheme ≠ []) : ':' ∈ s := by
  by_contra hcolon
  refine h ?_
  have hnone : doExtractScheme (s.take (trimEnd s (trimStart s) s.length)) = none := by
    unfold doExtractScheme findFrom
    simp only []
    split
    · rfl
    · have hidx : (List.drop (trimStart (s.take (trimEnd s (trimStart s) s.length)))
          (s.take (trimEnd s (trimStart s) s.length))).findIdx? isColon = none := by
        refine List.findIdx?_eq_none_iff.mpr fun c hc => ?_
        have hmem : c ∈ s := List.mem_of_mem_take (List.mem_of_mem_drop hc)
        refine beq_eq_false_iff_ne.mpr fun heq => hcolon ?_
        rw [← heq]
        exact hmem
      rw [hidx]
      rfl
  have hscheme : (BkURL.ofString s).parsed.scheme = Component.reset := by
    show (doExtractScheme (s.take (trimEnd s (trimStart s) s.length))).getD Component.reset = _
    rw [hnone]
    rfl
  rw [hscheme]
  rfl

theorem schemeIsHTTPOrHTTPS_iff (v : BkURL) : v.schemeIsHTTPOrHTTPS = true ↔
    v.componentString v.parsed.scheme = BkURL.httpScheme ∨
      v.componentString v.parsed.scheme = BkURL.httpsScheme := by
  unfold BkURL.schemeIsHTTPOrHTTPS BkURL.schemeIs
  rw [Bool.or_eq_true, beq_iff_eq, beq_iff_eq]

/-- A string with the scheme of the web is the text of a URL. -/
theorem exists_text_of_scheme {s : Str} (h : (BkURL.ofString s).schemeIsHTTPOrHTTPS = true) :
    ∃ u : URLText, u.text = s := by
  refine exists_text (colon_of_scheme fun hnil => ?_)
  rw [schemeIsHTTPOrHTTPS_iff, hnil] at h
  rcases h with h | h <;> cases h

/-- Where the piece begins: at the path, or at the beginning when there is none. -/
def pieceStart : Nat := if u.path = [] then 0 else u.pathStart

theorem path_start : (pathAt u.pathStart u.path).start = pieceStart u := by
  unfold pathAt pieceStart
  split <;> rfl

/-- **The range that a request names**: from where the path begins up to the end of the query, but
none for a URL with neither a path nor a fragment. -/
theorem requestRange_text :
    (BkURL.ofString u.text).requestRange =
      if u.path = [] ∧ u.ref = none then none
      else some (pieceStart u, (u.queryEnd : Int) - pieceStart u) := by
  have hend : u.queryEnd = u.pathEnd + (marked '?' u.query).length := rfl
  have href : u.parsed.ref = markedAt u.queryEnd u.ref := rfl
  have hquery : u.parsed.query = markedAt u.pathEnd u.query := rfl
  have hpath : u.parsed.path = pathAt u.pathStart u.path := rfl
  unfold BkURL.requestRange
  rw [text_parsed, href, hquery, hpath, markedAt_isValid, path_start, pathAt_isValid,
    markedAt_isValid]
  cases u.ref with
  | some r =>
    have hstart : (markedAt u.queryEnd (some r)).start = u.queryEnd + 1 := rfl
    rw [if_pos Option.isSome_some, if_neg (fun h => nomatch h.2), hstart]
    congr 2
    omega
  | none =>
    rw [if_neg (by simp)]
    by_cases hp : u.path = []
    · rw [if_pos (by simp [hp]), if_pos ⟨hp, rfl⟩]
    · have hpiece : pieceStart u = u.pathStart := if_neg hp
      have hthere : ¬(!decide (u.path = [])) = false := by simp [hp]
      have hlen : (if u.query.isSome = true then
          ((markedAt u.pathEnd u.query).finish : Int) - u.pathStart
          else (pathAt u.pathStart u.path).len) = u.queryEnd - u.pathStart := by
        rw [hend]
        cases u.query with
        | some q =>
          rw [if_pos Option.isSome_some, markedAt, makeRange_finish (Nat.le_add_right _ _), marked,
            List.length_cons]
          omega
        | none =>
          rw [if_neg (by simp), pathAt, if_neg hp]
          rfl
      rw [if_neg hthere, if_neg (fun h : u.path = [] ∧ none = none => hp h.1), hpiece, hlen]

theorem queryEnd_le : u.queryEnd ≤ u.text.length := by
  have hspec := u.at_ref.le
  unfold URLParts.text
  rw [List.length_append]
  omega

theorem pieceStart_le : pieceStart u ≤ u.queryEnd := by
  have hquery : u.queryEnd = u.pathEnd + (marked '?' u.query).length := rfl
  have hpath := u.pathEnd_eq
  unfold pieceStart
  split <;> omega

/-- **The range lies in the string.** -/
theorem requestRange_inside {pos : Nat} {n : Int}
    (h : (BkURL.ofString u.text).requestRange = some (pos, n)) :
    0 ≤ n ∧ pos + n ≤ u.text.length := by
  have hstart := pieceStart_le u
  have hend := queryEnd_le u
  rw [requestRange_text] at h
  split at h
  · cases h
  · cases h
    omega

/-- The piece of the string that a request names. -/
theorem pathForRequest_text :
    (BkURL.ofString u.text).pathForRequest =
      some (if u.path = [] ∧ u.ref = none then ['/'] else slice u.text (pieceStart u) u.queryEnd) := by
  unfold BkURL.pathForRequest
  rw [requestRange_text]
  split
  · rename_i h
    split at h
    · rename_i hnone
      rw [if_pos hnone]
    · cases h
  · rename_i pos n h
    split at h
    · cases h
    · rename_i hsome
      cases h
      rw [if_neg hsome]
      exact slice_eq_substr (pieceStart_le u) (queryEnd_le u)

/-- The path and the query lie between the authority and the fragment. -/
theorem slice_path : slice u.text u.pathStart u.queryEnd = u.path ++ marked '?' u.query := by
  have hat : At u.text u.pathStart
      ((u.path ++ marked '?' u.query) ++ (marked '#' u.ref ++ u.trail)) := by
    rw [u.text_eq, ← u.origin_length, URLParts.afterAuthority, URLParts.afterPath]
    simp only [List.append_assoc]
    exact at_append _ _
  have hend : u.queryEnd = u.pathStart + (u.path ++ marked '?' u.query).length := by
    rw [List.length_append, ← Nat.add_assoc]
    rfl
  rw [hend]
  exact hat.slice

/-- Without a path, what is in front of the query is the scheme and the authority. -/
theorem slice_origin (hp : u.path = []) :
    slice u.text 0 u.queryEnd = u.origin ++ marked '?' u.query := by
  have hat : At u.text 0 ((u.origin ++ marked '?' u.query) ++ (marked '#' u.ref ++ u.trail)) := by
    rw [u.text_eq, URLParts.afterAuthority, URLParts.afterPath, hp]
    simp only [List.append_assoc, List.nil_append]
    exact at_zero _
  have hend : u.queryEnd = 0 + (u.origin ++ marked '?' u.query).length := by
    rw [Nat.zero_add, List.length_append, u.origin_length]
    show u.pathStart + u.path.length + _ = _
    rw [hp]
    rfl
  rw [hend]
  exact hat.slice

theorem colon_mem_origin : ':' ∈ u.origin := by
  unfold URLParts.origin
  simp

end Range

/-! ## The request target -/

/-- A request names the right target when the URL has a path, and when it has neither a query nor a
fragment. -/
theorem pathForRequest_target (u : URLText) :
    (BkURL.ofString u.text).pathForRequest = some u.target ↔
      u.path ≠ [] ∨ (u.query = none ∧ u.ref = none) := by
  rw [pathForRequest_text, Option.some.injEq]
  unfold URLParts.target
  by_cases hp : u.path = []
  · rw [if_pos hp]
    cases hr : u.ref with
    | none =>
      rw [if_pos ⟨hp, rfl⟩]
      cases hq : u.query with
      | none => exact iff_of_true rfl (.inr ⟨rfl, rfl⟩)
      | some q => exact iff_of_false (fun h => nomatch h) (fun h => nomatch h.resolve_left (· hp))
    | some r =>
      -- the piece begins with the scheme and the authority, which hold a colon
      have hpiece : pieceStart u = 0 := if_pos hp
      rw [if_neg (fun h => nomatch h.2), hpiece, slice_origin u hp]
      refine iff_of_false (fun h => ?_) (fun h => nomatch (h.resolve_left (· hp)).2)
      have hcolon := colon_mem_origin u
      rw [List.append_cancel_right h] at hcolon
      exact absurd hcolon (by decide)
  · have hpiece : pieceStart u = u.pathStart := if_neg hp
    rw [if_neg hp, if_neg (fun h => hp h.1), hpiece, slice_path]
    exact iff_of_true rfl (.inl hp)

/-- **The request target of a URL.** The range is always inside the string; the target is the path
and the query exactly when the URL has a path, or neither a query nor a fragment. -/
theorem pathForRequest_iff (s : Str) (h : (BkURL.ofString s).schemeIsHTTPOrHTTPS = true) :
    (∃ u : URLText, u.text = s) ∧ ∀ u : URLText, u.text = s →
      (u.scheme = BkURL.httpScheme ∨ u.scheme = BkURL.httpsScheme) ∧
      (∀ pos n, (BkURL.ofString s).requestRange = some (pos, n) → 0 ≤ n ∧ pos + n ≤ s.length) ∧
      ((BkURL.ofString s).pathForRequest = some u.target ↔
        u.path ≠ [] ∨ (u.query = none ∧ u.ref = none)) := by
  refine ⟨exists_text_of_scheme h, ?_⟩
  rintro u rfl
  rw [schemeIsHTTPOrHTTPS_iff, componentString_scheme] at h
  exact ⟨h, fun _ _ hrange => requestRange_inside u hrange, pathForRequest_target u⟩

theorem no_blank : ∀ c ∈ ([] : Str), shouldTrimFromURL c = true := List.forall_mem_nil _

theorem httpScheme_head : ∀ c, BkURL.httpScheme.head? = some c → shouldTrimFromURL c = false := by
  intro c hc
  obtain rfl := Option.some.inj hc
  rfl

theorem httpScheme_plain : ∀ c ∈ BkURL.httpScheme, isColon c = false := by decide

theorem twoSlashes_plain : ∀ c ∈ ['/', '/'], isURLSlash c = true := by decide

theorem shortHost_plain : ∀ c ∈ ['h'], isAuthorityTerminator c = false := by decide

/-- The string `http://h?q`. -/
def queryWithoutPath : Str := ['h', 't', 't', 'p', ':', '/', '/', 'h', '?', 'q']

/-- Its parts. -/
def queryWithoutPathParts : URLText where
  lead := []
  scheme := BkURL.httpScheme
  slashes := ['/', '/']
  authority := ['h']
  path := []
  query := some ['q']
  ref := none
  trail := []
  lead_blank := no_blank
  scheme_head := httpScheme_head
  scheme_plain := httpScheme_plain
  slashes_plain := twoSlashes_plain
  authority_plain := shortHost_plain
  path_head := fun _ hc => nomatch hc
  path_behind := fun _ => rfl
  path_plain := List.forall_mem_nil _
  query_plain := fun q hq => by
    obtain rfl := Option.some.inj hq
    decide
  trail_blank := no_blank
  last_plain := fun c hc => by
    obtain rfl := Option.some.inj hc
    rfl

/-- The string `http://h?q#f`. -/
def fragmentWithoutPath : Str := queryWithoutPath ++ ['#', 'f']

theorem pathForRequest_queryWithoutPath :
    (∃ u : URLText, u.text = queryWithoutPath) ∧ ∀ u : URLText, u.text = queryWithoutPath →
      (u.scheme = BkURL.httpScheme ∨ u.scheme = BkURL.httpsScheme) ∧
      (∀ pos n, (BkURL.ofString queryWithoutPath).requestRange = some (pos, n) →
        0 ≤ n ∧ pos + n ≤ queryWithoutPath.length) ∧
      ((BkURL.ofString queryWithoutPath).pathForRequest = some u.target ↔
        u.path ≠ [] ∨ (u.query = none ∧ u.ref = none)) :=
  pathForRequest_iff queryWithoutPath (by decide +kernel)

/-- **The query is lost**, or the scheme and the authority become part of the target, when there is
no path. -/
theorem pathForRequest_drops_query :
    (BkURL.ofString queryWithoutPath).schemeIsHTTPOrHTTPS = true ∧
    (BkURL.ofString queryWithoutPath).pathForRequest = some ['/'] ∧
    (BkURL.ofString fragmentWithoutPath).schemeIsHTTPOrHTTPS = true ∧
    (BkURL.ofString fragmentWithoutPath).pathForRequest = some queryWithoutPath ∧
    ∃ u : URLText, u.text = queryWithoutPath ∧ u.target = ['/', '?', 'q'] ∧
      (BkURL.ofString u.text).pathForRequest ≠ some u.target :=
  ⟨by decide +kernel, by decide +kernel, by decide +kernel, by decide +kernel,
    queryWithoutPathParts, rfl, rfl, by decide +kernel⟩

end Blinkit.Url
