import Blinkit.Lib.Cursor
import Blinkit.Lib.Text

/-!
# Parsing a standard URL

The parser finds the components of a URL as ranges of positions in its text. A range of length -1
stands for a component that is not there.

* `Component`, `Parsed` — the ranges.
* `doParseAuthority`, `parsePath`, `doParseAfterScheme`, `doParseStandardURL` — the functions of the
  parser, over the text up to the length that they are given.
* `URLText` — a text cut into its parts, each of which can be told from the next one.
* `URLText.parsed` — where the parts of such a text lie.

Positions are `int` in the source: the texts are taken to be shorter than `2 ^ 31`, and what is
written from them shorter than `2 ^ 30`, from where `CanonOutputT::Grow` gives up.

Principal results: `doParseStandardURL_text`, `exists_text` and `doParseAuthority_within`.
-/

set_option autoImplicit false

namespace Blinkit.Url

open Cursor

abbrev Str := List Char

/-- What holds of each character of a text is decided on the text. -/
scoped instance (priority := high) decidableForallMem {p : Char → Prop} [DecidablePred p] (s : Str) :
    Decidable (∀ c ∈ s, p c) := List.decidableBAll p s

/-! ## Components -/

/-- `Component`; a length of -1 says that the component is unspecified. -/
structure Component where
  start : Nat
  len : Int
  deriving DecidableEq

namespace Component

/-- A component after `reset`. -/
def reset : Component := ⟨0, -1⟩

def isValid (c : Component) : Bool := c.len != -1

def isNonempty (c : Component) : Bool := 0 < c.len

/-- `end()`, of a component that is valid. -/
def finish (c : Component) : Nat := (c.start + c.len).toNat

end Component

def makeRange (i j : Nat) : Component := ⟨i, j - i⟩

/-- The parts of an authority. -/
structure Authority where
  username : Component
  password : Component
  host : Component
  port : Component
  deriving DecidableEq

/-- What follows the authority. -/
structure FullPath where
  path : Component
  query : Component
  ref : Component
  deriving DecidableEq

/-- `Parsed`. -/
structure Parsed extends Authority, FullPath where
  scheme : Component
  deriving DecidableEq

/-- A `Parsed` in which nothing is there. -/
def Parsed.unset : Parsed where
  scheme := Component.reset
  toAuthority := ⟨Component.reset, Component.reset, Component.reset, Component.reset⟩
  toFullPath := ⟨Component.reset, Component.reset, Component.reset⟩

/-! ## The parser -/

/-- We treat slashes and backslashes the same. -/
def isURLSlash (c : Char) : Bool := c == '/' || c == '\\'

def shouldTrimFromURL (c : Char) : Bool := c.toNat ≤ 32

def isAuthorityTerminator (c : Char) : Bool := isURLSlash c || c == '?' || c == '#'

def notTrimmed (c : Char) : Bool := !shouldTrimFromURL c

def notSlash (c : Char) : Bool := !isURLSlash c

def isColon (c : Char) : Bool := c == ':'

/-- The first loop of `TrimURL`. -/
def trimStart (spec : Str) : Nat := (findFrom notTrimmed spec 0).getD spec.length

/-- The second loop of `TrimURL`. -/
def trimEnd (spec : Str) (start : Nat) : Nat → Nat
  | 0 => 0
  | n + 1 =>
    if start < n + 1 ∧ (spec[n]?.any shouldTrimFromURL) = true then trimEnd spec start n else n + 1

def countConsecutiveSlashes (spec : Str) (i : Nat) : Nat :=
  (findFrom notSlash spec i).getD spec.length - i

def findNextAuthorityTerminator (spec : Str) (i : Nat) : Nat :=
  (findFrom isAuthorityTerminator spec i).getD spec.length

def parseUserInfo (spec : Str) (user : Component) : Component × Component :=
  let colonOffset := (slice spec user.start user.finish).findIdx isColon
  if (colonOffset : Int) < user.len then
    (⟨user.start, colonOffset⟩, makeRange (user.start + colonOffset + 1) user.finish)
  else (user, Component.reset)

/-- The loop that finds the last right bracket and the last colon. -/
def scanServer : Str → Nat → Int × Int → Int × Int
  | [], _, found => found
  | c :: rest, i, (ipv6Terminator, colon) =>
    scanServer rest (i + 1)
      (if c = ']' then ((i : Int), colon)
       else if c = ':' then (ipv6Terminator, (i : Int))
       else (ipv6Terminator, colon))

def parseServerInfo (spec : Str) (serverinfo : Component) : Component × Component :=
  if serverinfo.len = 0 then (Component.reset, Component.reset)
  else
    let ipv6Terminator : Int := if spec[serverinfo.start]? = some '[' then serverinfo.finish else -1
    let (ipv6Terminator, colon) := scanServer (slice spec serverinfo.start serverinfo.finish)
      serverinfo.start (ipv6Terminator, -1)
    if ipv6Terminator < colon then
      let hostname := makeRange serverinfo.start colon.toNat
      (if hostname.len = 0 then Component.reset else hostname,
        makeRange (colon.toNat + 1) serverinfo.finish)
    else (serverinfo, Component.reset)

/-- The search backwards for the separator between the user info and the server info. -/
def searchBack (spec : Str) (start : Nat) : Nat → Nat
  | 0 => start
  | k + 1 => if spec[start + (k + 1)]? = some '@' then start + (k + 1) else searchBack spec start k

def doParseAuthority (spec : Str) (auth : Component) : Authority :=
  if auth.len = 0 then ⟨Component.reset, Component.reset, Component.reset, Component.reset⟩
  else
    let i := searchBack spec auth.start (auth.len.toNat - 1)
    if spec[i]? = some '@' then
      let (username, password) := parseUserInfo spec (makeRange auth.start i)
      let (host, port) := parseServerInfo spec (makeRange (i + 1) auth.finish)
      ⟨username, password, host, port⟩
    else
      let (host, port) := parseServerInfo spec auth
      ⟨Component.reset, Component.reset, host, port⟩

/-- The loop that finds the first `?` and the first `#`. -/
def scanPath : Str → Nat → Option Nat × Option Nat → Option Nat × Option Nat
  | [], _, found => found
  | c :: rest, i, (querySeparator, refSeparator) =>
    scanPath rest (i + 1)
      (if c = '?' ∧ refSeparator = none ∧ querySeparator = none then (some i, refSeparator)
       else if c = '#' ∧ refSeparator = none then (querySeparator, some i)
       else (querySeparator, refSeparator))

/-- The components that the separators mark, worked out from the end back to the beginning. -/
def cutPath (start pathEnd : Nat) (found : Option Nat × Option Nat) : FullPath :=
  let (querySeparator, refSeparator) := found
  let queryEnd := refSeparator.getD pathEnd
  let fileEnd := querySeparator.getD queryEnd
  { ref := match refSeparator with
      | some r => makeRange (r + 1) pathEnd
      | none => Component.reset
    query := match querySeparator with
      | some q => makeRange (q + 1) queryEnd
      | none => Component.reset
    path := if fileEnd ≠ start then makeRange start fileEnd else Component.reset }

def parsePath (spec : Str) (path : Component) : FullPath :=
  if path.len = -1 then ⟨Component.reset, Component.reset, Component.reset⟩
  else cutPath path.start path.finish
    (scanPath (slice spec path.start path.finish) path.start (none, none))

def doExtractScheme (url : Str) : Option Component :=
  let start := trimStart url
  if start = url.length then none else (findFrom isColon url start).map (makeRange start)

def doParseAfterScheme (spec : Str) (afterScheme : Nat) : Authority × FullPath :=
  let afterSlashes := afterScheme + countConsecutiveSlashes spec afterScheme
  let endAuth := findNextAuthorityTerminator spec afterSlashes
  let authority : Component := makeRange afterSlashes endAuth
  let fullPath : Component :=
    if endAuth = spec.length then Component.reset else makeRange endAuth spec.length
  (doParseAuthority spec authority, parsePath spec fullPath)

def doParseStandardURL (s : Str) : Parsed :=
  let start := trimStart s
  let spec := s.take (trimEnd s start s.length)
  let scheme := doExtractScheme spec
  let afterScheme := match scheme with
    | some scheme => scheme.finish + 1
    | none => start
  let (authority, fullPath) := doParseAfterScheme spec afterScheme
  { toAuthority := authority, toFullPath := fullPath, scheme := scheme.getD Component.reset }

/-! ## The parts of a URL -/

/-- A text behind the character that introduces it, when it is there. -/
def marked (d : Char) : Option Str → Str
  | none => []
  | some t => d :: t

/-- The parts of the text of a URL, in their order. -/
structure URLParts where
  lead : Str
  scheme : Str
  slashes : Str
  authority : Str
  path : Str
  query : Option Str
  ref : Option Str
  trail : Str

namespace URLParts

variable (u : URLParts)

def afterPath : Str := marked '?' u.query ++ marked '#' u.ref

def afterAuthority : Str := u.path ++ u.afterPath

def afterScheme : Str := u.slashes ++ (u.authority ++ u.afterAuthority)

/-- The text without what is trimmed from it. -/
def core : Str := u.scheme ++ ':' :: u.afterScheme

/-- The text up to the path: the scheme and the authority, as they are given. -/
def origin : Str := u.lead ++ (u.scheme ++ ':' :: (u.slashes ++ u.authority))

/-- The text as far as the parser looks at it. -/
def spec : Str := u.lead ++ u.core

def text : Str := u.spec ++ u.trail

def schemeEnd : Nat := u.lead.length + u.scheme.length

def authorityStart : Nat := u.schemeEnd + 1 + u.slashes.length

def pathStart : Nat := u.authorityStart + u.authority.length

def pathEnd : Nat := u.pathStart + u.path.length

def queryEnd : Nat := u.pathEnd + (marked '?' u.query).length

end URLParts

def isQueryOrRef (c : Char) : Bool := c == '?' || c == '#'

def isRef (c : Char) : Bool := c == '#'

/-- The text of a URL, cut where each part begins for the first time. -/
structure URLText extends URLParts where
  lead_blank : ∀ c ∈ lead, shouldTrimFromURL c = true
  scheme_head : ∀ c, scheme.head? = some c → shouldTrimFromURL c = false
  scheme_plain : ∀ c ∈ scheme, isColon c = false
  slashes_plain : ∀ c ∈ slashes, isURLSlash c = true
  authority_plain : ∀ c ∈ authority, isAuthorityTerminator c = false
  path_head : ∀ c, path.head? = some c → isURLSlash c = true
  path_behind : authority = [] → path = []
  path_plain : ∀ c ∈ path, isQueryOrRef c = false
  query_plain : ∀ q, query = some q → ∀ c ∈ q, isRef c = false
  trail_blank : ∀ c ∈ trail, shouldTrimFromURL c = true
  last_plain : ∀ c, toURLParts.core.getLast? = some c → shouldTrimFromURL c = false

/-- A path at the position `i`; an empty path is no path. -/
def pathAt (i : Nat) (path : Str) : Component :=
  if path = [] then Component.reset else makeRange i (i + path.length)

/-- A text behind its mark at the position `i`. -/
def markedAt (i : Nat) : Option Str → Component
  | none => Component.reset
  | some t => makeRange (i + 1) (i + 1 + t.length)

/-- Where a path, a query and a fragment lie that begin at the position `i`. -/
def fullPathAt (i : Nat) (path : Str) (query ref : Option Str) : FullPath where
  path := pathAt i path
  query := markedAt (i + path.length) query
  ref := markedAt (i + path.length + (marked '?' query).length) ref

/-- Where the path, the query and the fragment lie in the text. -/
def URLParts.fullPath (u : URLParts) : FullPath := fullPathAt u.pathStart u.path u.query u.ref

/-- Where the parts of a URL lie in its text. -/
def URLParts.parsed (u : URLParts) : Parsed where
  scheme := makeRange u.lead.length u.schemeEnd
  toAuthority := doParseAuthority u.spec (makeRange u.authorityStart u.pathStart)
  toFullPath := u.fullPath

/-! ## Trimming -/

theorem makeRange_finish {i j : Nat} (h : i ≤ j) : (makeRange i j).finish = j := by
  unfold makeRange Component.finish
  show ((i : Int) + (j - i)).toNat = j
  omega


theorem trimStart_append {a t : Str} (ha : ∀ c ∈ a, shouldTrimFromURL c = true)
    (ht : ∀ c, t.head? = some c → shouldTrimFromURL c = false) :
    trimStart (a ++ t) = a.length := by
  unfold trimStart
  have hplain : ∀ c ∈ a, notTrimmed c = false := by
    intro c hc
    unfold notTrimmed
    rw [ha c hc]
    rfl
  have hhead : ∀ c, t.head? = some c → notTrimmed c = true := by
    intro c hc
    unfold notTrimmed
    rw [ht c hc]
    rfl
  rw [(at_zero (a ++ t)).findFrom_append hplain hhead, Nat.zero_add]

theorem trimEnd_behind {a t : Str} (ht : ∀ c ∈ t, shouldTrimFromURL c = true) {start : Nat}
    (hstart : start ≤ a.length) (n : Nat) (hn : n ≤ t.length) :
    trimEnd (a ++ t) start (a.length + n) = trimEnd (a ++ t) start a.length := by
  induction n with
  | zero => rfl
  | succ n ih =>
    have hget : ((a ++ t)[a.length + n]?.any shouldTrimFromURL) = true := by
      rw [List.getElem?_append_right (by omega), Nat.add_sub_cancel_left,
        List.getElem?_eq_getElem (by omega)]
      exact ht _ (List.getElem_mem _)
    rw [← Nat.add_assoc, trimEnd, if_pos ⟨by omega, hget⟩]
    exact ih (by omega)

theorem trimEnd_append {a t : Str} (ht : ∀ c ∈ t, shouldTrimFromURL c = true) {start : Nat}
    (hstart : start ≤ a.length) (ha : ∀ c, a.getLast? = some c → shouldTrimFromURL c = false) :
    trimEnd (a ++ t) start (a ++ t).length = a.length := by
  rw [List.length_append, trimEnd_behind ht hstart t.length (Nat.le_refl _)]
  rcases List.eq_nil_or_concat a with rfl | ⟨b, c, rfl⟩
  · rfl
  · have hc : shouldTrimFromURL c = false := ha c (by simp)
    have hget : ((b ++ [c] ++ t)[b.length]?.any shouldTrimFromURL) = false := by
      rw [List.append_assoc, List.getElem?_append_right (Nat.le_refl _), Nat.sub_self]
      exact hc
    rw [List.concat_eq_append, List.length_append, List.length_singleton, trimEnd, if_neg]
    rintro ⟨-, htrim⟩
    rw [hget] at htrim
    exact Bool.false_ne_true htrim

/-! ## The path -/

theorem scanPath_plain {p : Str} (hp : ∀ c ∈ p, isQueryOrRef c = false) (t : Str) (i : Nat)
    (found : Option Nat × Option Nat) :
    scanPath (p ++ t) i found = scanPath t (i + p.length) found := by
  induction p generalizing i with
  | nil => rfl
  | cons c p ih =>
    have hc := hp c List.mem_cons_self
    unfold isQueryOrRef at hc
    rw [Bool.or_eq_false_iff, beq_eq_false_iff_ne, beq_eq_false_iff_ne] at hc
    obtain ⟨q, r⟩ := found
    rw [List.cons_append, scanPath, if_neg (fun h => hc.1 h.1), if_neg (fun h => hc.2 h.1),
      ih (fun d hd => hp d (List.mem_cons_of_mem c hd)), List.length_cons]
    congr 1
    omega

theorem scanPath_query {q : Str} (hq : ∀ c ∈ q, isRef c = false) (t : Str) (i j : Nat) :
    scanPath (q ++ t) i (some j, none) = scanPath t (i + q.length) (some j, none) := by
  induction q generalizing i with
  | nil => rfl
  | cons c q ih =>
    have hc := hq c List.mem_cons_self
    unfold isRef at hc
    rw [beq_eq_false_iff_ne] at hc
    rw [List.cons_append, scanPath, if_neg (fun h => nomatch h.2.2), if_neg (fun h => hc h.1),
      ih (fun d hd => hq d (List.mem_cons_of_mem c hd)), List.length_cons]
    congr 1
    omega

theorem scanPath_ref (t : Str) (i j : Nat) (q : Option Nat) :
    scanPath t i (q, some j) = (q, some j) := by
  induction t generalizing i with
  | nil => rfl
  | cons c t ih =>
    rw [scanPath, if_neg (fun h => nomatch h.2.1), if_neg (fun h => nomatch h.2), ih]

theorem slice_to_end {s t : Str} {i : Nat} (h : At s i t) : slice s i s.length = t := by
  unfold slice
  rw [List.take_length, h.drop]

section ParsePath

variable {p : Str} {query ref : Option Str}

theorem scanPath_text (hp : ∀ c ∈ p, isQueryOrRef c = false)
    (hq : ∀ q, query = some q → ∀ c ∈ q, isRef c = false) (i : Nat) :
    scanPath (p ++ (marked '?' query ++ marked '#' ref)) i (none, none) =
      (query.map fun _ => i + p.length,
        ref.map fun _ => i + p.length + (marked '?' query).length) := by
  rw [scanPath_plain hp]
  cases query with
  | none =>
    cases ref with
    | none => rfl
    | some r =>
      show scanPath ('#' :: r) (i + p.length) (none, none) = _
      rw [scanPath, if_neg (by decide), if_pos ⟨rfl, rfl⟩, scanPath_ref]
      rfl
  | some q =>
    show scanPath ('?' :: (q ++ marked '#' ref)) (i + p.length) (none, none) = _
    rw [scanPath, if_pos ⟨rfl, rfl, rfl⟩, scanPath_query (hq q rfl)]
    cases ref with
    | none => rfl
    | some r =>
      show scanPath ('#' :: r) _ (some (i + p.length), none) = _
      have hpos : i + p.length + 1 + q.length = i + p.length + (marked '?' (some q)).length := by
        unfold marked
        rw [List.length_cons]
        omega
      rw [scanPath, if_neg (fun h => nomatch h.2.2), if_pos ⟨rfl, rfl⟩, scanPath_ref, hpos]
      rfl

/-- The separators mark the path, the query and the fragment. -/
theorem cutPath_text (i : Nat) :
    cutPath i (i + p.length + (marked '?' query).length + (marked '#' ref).length)
      (query.map fun _ => i + p.length,
        ref.map fun _ => i + p.length + (marked '?' query).length) =
      fullPathAt i p query ref := by
  have hfile : (if i + p.length ≠ i then makeRange i (i + p.length) else Component.reset) =
      pathAt i p := by
    unfold pathAt
    by_cases hp : p = []
    · rw [hp, if_pos rfl, if_neg (by simp)]
    · have hpos := List.length_pos_of_ne_nil hp
      rw [if_pos (by omega), if_neg hp]
  have hmark : ∀ (d : Char) (t : Str) (k : Nat),
      k + (marked d (some t)).length = k + 1 + t.length := by
    intro d t k
    rw [marked, List.length_cons]
    omega
  have hnone : ∀ (d : Char) (k : Nat), k + (marked d none).length = k := fun _ _ => rfl
  unfold cutPath fullPathAt markedAt
  cases query with
  | none =>
    cases ref with
    | none => simp only [Option.map_none, Option.getD_none, hnone, hfile]
    | some r =>
      simp only [Option.map_none, Option.map_some, Option.getD_none, Option.getD_some, hnone, hmark,
        hfile]
  | some q =>
    cases ref with
    | none => simp only [Option.map_none, Option.map_some, Option.getD_none, Option.getD_some, hnone,
        hmark, hfile]
    | some r => simp only [Option.map_some, Option.getD_some, hmark, hfile]

/-- What follows a path begins with the mark of the query or of the fragment. -/
theorem marked_head (query ref : Option Str) :
    ∀ c, (marked '?' query ++ marked '#' ref).head? = some c → isQueryOrRef c = true := by
  intro c hc
  cases query with
  | some q =>
    obtain rfl := Option.some.inj hc
    rfl
  | none =>
    cases ref with
    | some r =>
      obtain rfl := Option.some.inj hc
      rfl
    | none => cases hc

theorem marked_eq_nil {d : Char} {t : Option Str} (h : marked d t = []) : t = none := by
  cases t with
  | none => rfl
  | some t => cases h

/-- **A path, a query and a fragment are found.** -/
theorem parsePath_text {spec : Str} {i : Nat}
    (h : At spec i (p ++ (marked '?' query ++ marked '#' ref)))
    (hp : ∀ c ∈ p, isQueryOrRef c = false) (hq : ∀ q, query = some q → ∀ c ∈ q, isRef c = false) :
    parsePath spec (if i = spec.length then Component.reset else makeRange i spec.length) =
      fullPathAt i p query ref := by
  have hlen : spec.length = i + p.length + (marked '?' query).length + (marked '#' ref).length := by
    rw [← h.length, List.length_append, List.length_append]
    omega
  split
  · rename_i heq
    have hreset : Component.reset.len = -1 := rfl
    have hpath : p = [] := List.eq_nil_of_length_eq_zero (by omega)
    have hquery : query = none := marked_eq_nil (d := '?') (List.eq_nil_of_length_eq_zero (by omega))
    have href : ref = none := marked_eq_nil (d := '#') (List.eq_nil_of_length_eq_zero (by omega))
    rw [parsePath, if_pos hreset, hpath, hquery, href]
    rfl
  · have hle : i ≤ spec.length := h.le
    have hne : (makeRange i spec.length).len ≠ -1 := by
      show (spec.length : Int) - i ≠ -1
      omega
    have hslice : slice spec i spec.length = p ++ (marked '?' query ++ marked '#' ref) :=
      slice_to_end h
    have hstart : (makeRange i spec.length).start = i := rfl
    rw [parsePath, if_neg hne, makeRange_finish hle, hstart, hslice, scanPath_text hp hq, hlen,
      cutPath_text]

end ParsePath

/-! ## The parts are found -/

namespace URLText

variable (u : URLText)

theorem text_eq : u.text = u.origin ++ (u.afterAuthority ++ u.trail) := by
  simp [URLParts.text, URLParts.spec, URLParts.core, URLParts.afterScheme, URLParts.origin]

theorem origin_length : u.origin.length = u.pathStart := by
  simp only [URLParts.origin, URLParts.pathStart, URLParts.authorityStart, URLParts.schemeEnd,
    List.length_append, List.length_cons]
  omega

theorem core_head : ∀ c, u.core.head? = some c → shouldTrimFromURL c = false := by
  intro c hc
  have hscheme := u.scheme_head c
  unfold URLParts.core at hc
  cases hs : u.scheme with
  | nil =>
    rw [hs] at hc
    obtain rfl := Option.some.inj hc
    rfl
  | cons d s =>
    rw [hs] at hc hscheme
    exact hscheme hc

theorem core_ne_nil : u.core ≠ [] := by
  unfold URLParts.core
  exact List.append_ne_nil_of_right_ne_nil _ (List.cons_ne_nil _ _)

theorem trimStart_text : trimStart u.text = u.lead.length := by
  unfold URLParts.text URLParts.spec
  rw [List.append_assoc]
  refine trimStart_append u.lead_blank ?_
  intro c hc
  rw [List.head?_append_of_ne_nil _ u.core_ne_nil] at hc
  exact u.core_head c hc

theorem take_text : u.text.take (trimEnd u.text u.lead.length u.text.length) = u.spec := by
  have hlast : ∀ c, u.spec.getLast? = some c → shouldTrimFromURL c = false := by
    intro c hc
    unfold URLParts.spec at hc
    rw [List.getLast?_append_of_ne_nil _ u.core_ne_nil] at hc
    exact u.last_plain c hc
  have hlead : u.lead.length ≤ u.spec.length := by
    unfold URLParts.spec
    rw [List.length_append]
    omega
  unfold URLParts.text
  rw [trimEnd_append u.trail_blank hlead hlast, List.take_left]

theorem trimStart_spec : trimStart u.spec = u.lead.length :=
  trimStart_append u.lead_blank u.core_head

theorem at_scheme : At u.spec u.lead.length (u.scheme ++ ':' :: u.afterScheme) :=
  at_append u.lead u.core

theorem at_colon : At u.spec u.schemeEnd (':' :: u.afterScheme) := u.at_scheme.append

theorem at_slashes : At u.spec (u.schemeEnd + 1) (u.slashes ++ (u.authority ++ u.afterAuthority)) :=
  u.at_colon.succ

theorem at_authority : At u.spec u.authorityStart (u.authority ++ u.afterAuthority) :=
  u.at_slashes.append

theorem at_path : At u.spec u.pathStart (u.path ++ u.afterPath) := u.at_authority.append

theorem at_afterPath : At u.spec u.pathEnd (marked '?' u.query ++ marked '#' u.ref) :=
  u.at_path.append

theorem at_ref : At u.spec u.queryEnd (marked '#' u.ref) := u.at_afterPath.append

theorem doExtractScheme_spec :
    doExtractScheme u.spec = some (makeRange u.lead.length u.schemeEnd) := by
  have hlt : u.lead.length ≠ u.spec.length := by
    have hcore := List.length_pos_of_ne_nil u.core_ne_nil
    unfold URLParts.spec
    rw [List.length_append]
    omega
  have hfind : findFrom isColon u.spec u.lead.length = some u.schemeEnd := by
    have hcut := before_append u.scheme_plain (t := ':' :: u.afterScheme) (by
      intro c hc
      obtain rfl := Option.some.inj hc
      rfl)
    rw [u.at_scheme.findFrom_some (by rw [hcut.2]; exact List.cons_ne_nil _ _), hcut.1]
    rfl
  unfold doExtractScheme
  rw [u.trimStart_spec, if_neg hlt, hfind]
  rfl

theorem afterPath_head : ∀ c, u.afterPath.head? = some c → isQueryOrRef c = true :=
  marked_head u.query u.ref

theorem afterAuthority_head :
    ∀ c, u.afterAuthority.head? = some c → isAuthorityTerminator c = true := by
  intro c hc
  unfold URLParts.afterAuthority at hc
  unfold isAuthorityTerminator
  cases hp : u.path with
  | nil =>
    rw [hp] at hc
    have h := u.afterPath_head c hc
    unfold isQueryOrRef at h
    rw [Bool.or_assoc, h, Bool.or_true]
  | cons d p =>
    rw [hp] at hc
    have h := u.path_head d
    rw [hp] at h
    obtain rfl := Option.some.inj hc
    rw [h rfl, Bool.true_or, Bool.true_or]

/-- The slashes end where they are counted to end. -/
theorem afterSlashes_head :
    ∀ c, (u.authority ++ u.afterAuthority).head? = some c → notSlash c = true := by
  intro c hc
  unfold notSlash
  cases ha : u.authority with
  | nil =>
    rw [ha, URLParts.afterAuthority, u.path_behind ha] at hc
    have h := u.afterPath_head c hc
    unfold isQueryOrRef at h
    rw [Bool.or_eq_true, beq_iff_eq, beq_iff_eq] at h
    rcases h with rfl | rfl <;> rfl
  | cons d a =>
    have h := u.authority_plain d
    rw [ha] at hc h
    obtain rfl := Option.some.inj hc
    have hd := h List.mem_cons_self
    unfold isAuthorityTerminator at hd
    rw [Bool.or_eq_false_iff, Bool.or_eq_false_iff] at hd
    rw [hd.1.1]
    rfl

theorem countConsecutiveSlashes_spec :
    countConsecutiveSlashes u.spec (u.schemeEnd + 1) = u.slashes.length := by
  have hslashes : ∀ c ∈ u.slashes, notSlash c = false := by
    intro c hc
    unfold notSlash
    rw [u.slashes_plain c hc]
    rfl
  unfold countConsecutiveSlashes
  rw [u.at_slashes.findFrom_append hslashes u.afterSlashes_head, Nat.add_sub_cancel_left]

theorem findNextAuthorityTerminator_spec :
    findNextAuthorityTerminator u.spec u.authorityStart = u.pathStart :=
  u.at_authority.findFrom_append u.authority_plain u.afterAuthority_head

theorem pathEnd_eq : u.pathEnd = u.pathStart + u.path.length := rfl

/-- **The path, the query and the fragment are found.** -/
theorem parsePath_spec :
    parsePath u.spec (if u.pathStart = u.spec.length then Component.reset
      else makeRange u.pathStart u.spec.length) = u.fullPath :=
  parsePath_text u.at_path u.path_plain u.query_plain

theorem doParseAfterScheme_spec :
    doParseAfterScheme u.spec (u.schemeEnd + 1) =
      (doParseAuthority u.spec (makeRange u.authorityStart u.pathStart), u.fullPath) := by
  have hstart : u.schemeEnd + 1 + u.slashes.length = u.authorityStart := rfl
  simp only [doParseAfterScheme, u.countConsecutiveSlashes_spec, hstart,
    u.findNextAuthorityTerminator_spec, u.parsePath_spec]

/-- **The parts of a URL are found** where they lie in its text. -/
theorem doParseStandardURL_text : doParseStandardURL u.text = u.parsed := by
  have hscheme : u.lead.length ≤ u.schemeEnd := Nat.le_add_right _ _
  simp only [doParseStandardURL, u.trimStart_text, u.take_text, u.doExtractScheme_spec,
    makeRange_finish hscheme, u.doParseAfterScheme_spec, Option.getD_some]
  rfl

end URLText

/-! ## The parts of the authority -/

/-- A component that is there lies between two positions. -/
def Component.Within (c : Component) (i j : Nat) : Prop :=
  c.isValid = true → i ≤ c.start ∧ 0 ≤ c.len ∧ c.start + c.len ≤ j

theorem within_reset (i j : Nat) : Component.reset.Within i j := fun h => nomatch h

theorem within_makeRange {i j k l : Nat} (hik : i ≤ k) (hkl : k ≤ l) (hlj : l ≤ j) :
    (makeRange k l).Within i j := by
  intro _
  show i ≤ k ∧ (0 : Int) ≤ l - k ∧ (k : Int) + (l - k) ≤ j
  omega

theorem Component.Within.mono {c : Component} {i j k l : Nat} (h : c.Within k l) (hi : i ≤ k)
    (hj : l ≤ j) : c.Within i j := by
  intro hv
  obtain ⟨h1, h2, h3⟩ := h hv
  refine ⟨by omega, h2, by omega⟩

/-- Every part of an authority lies between two positions. -/
structure Authority.Within (a : Authority) (i j : Nat) : Prop where
  username : a.username.Within i j
  password : a.password.Within i j
  host : a.host.Within i j
  port : a.port.Within i j

theorem searchBack_bounds (spec : Str) (i k : Nat) :
    i ≤ searchBack spec i k ∧ searchBack spec i k ≤ i + k := by
  induction k with
  | zero => exact ⟨Nat.le_refl i, Nat.le_refl i⟩
  | succ k ih =>
    rw [searchBack]
    split
    · exact ⟨Nat.le_add_right _ _, Nat.le_refl _⟩
    · exact ⟨ih.1, by omega⟩

/-- A colon that was found lies in the text that was looked at. -/
theorem scanServer_colon (t : Str) (i : Nat) (found : Int × Int) {j : Nat} (hj : j ≤ i)
    (h : found.2 = -1 ∨ (j : Int) ≤ found.2 ∧ found.2 < i) :
    (scanServer t i found).2 = -1 ∨
      (j : Int) ≤ (scanServer t i found).2 ∧ (scanServer t i found).2 < i + t.length := by
  induction t generalizing i found with
  | nil =>
    rw [scanServer, List.length_nil]
    simpa using h
  | cons c t ih =>
    obtain ⟨ipv6Terminator, colon⟩ := found
    have hlen : ((i + 1 : Nat) : Int) + t.length = i + (c :: t).length := by
      rw [List.length_cons]
      omega
    rw [scanServer, ← hlen]
    refine ih (i + 1) _ (by omega) ?_
    split
    · exact h.imp_right fun hc => ⟨hc.1, by omega⟩
    · split
      · exact .inr ⟨by omega, by omega⟩
      · exact h.imp_right fun hc => ⟨hc.1, by omega⟩

theorem scanServer_bracket (t : Str) (i : Nat) (found : Int × Int) (h : -1 ≤ found.1) :
    -1 ≤ (scanServer t i found).1 := by
  induction t generalizing i found with
  | nil => exact h
  | cons c t ih =>
    obtain ⟨ipv6Terminator, colon⟩ := found
    rw [scanServer]
    refine ih (i + 1) _ ?_
    split
    · show (-1 : Int) ≤ i
      omega
    · split
      · exact h
      · exact h

theorem slice_length_le {s : Str} {i j : Nat} : (slice s i j).length ≤ j - i := by
  unfold slice
  rw [List.length_drop, List.length_take]
  omega

theorem parseUserInfo_within (spec : Str) {i j : Nat} (hij : i ≤ j) :
    (parseUserInfo spec (makeRange i j)).1.Within i j ∧
      (parseUserInfo spec (makeRange i j)).2.Within i j := by
  unfold parseUserInfo
  have hlen : (makeRange i j).len = (j : Int) - i := rfl
  have hstart : (makeRange i j).start = i := rfl
  simp only [makeRange_finish hij, hlen, hstart]
  split
  · rename_i hlt
    refine ⟨fun _ => ⟨Nat.le_refl i, Int.natCast_nonneg _, ?_⟩,
      within_makeRange (by omega) (by omega) (Nat.le_refl j)⟩
    show (i : Int) + ((slice spec i j).findIdx isColon : Nat) ≤ j
    have hcolon : ((slice spec i j).findIdx isColon : Int) < j - i := hlt
    omega
  · exact ⟨within_makeRange (Nat.le_refl i) hij (Nat.le_refl j), within_reset i j⟩

theorem parseServerInfo_within (spec : Str) {i j : Nat} (hij : i ≤ j) :
    (parseServerInfo spec (makeRange i j)).1.Within i j ∧
      (parseServerInfo spec (makeRange i j)).2.Within i j := by
  have hself : (makeRange i j).Within i j := within_makeRange (Nat.le_refl i) hij (Nat.le_refl j)
  have hstart : (makeRange i j).start = i := rfl
  unfold parseServerInfo
  split
  · exact ⟨within_reset i j, within_reset i j⟩
  · simp only [makeRange_finish hij, hstart]
    have hterminator : (-1 : Int) ≤ if spec[i]? = some '[' then (j : Int) else -1 := by
      split <;> omega
    generalize (if spec[i]? = some '[' then (j : Int) else -1) = terminator at hterminator ⊢
    have hbracket := scanServer_bracket (slice spec i j) i (terminator, -1) hterminator
    have hcolon := scanServer_colon (slice spec i j) i (terminator, -1) (Nat.le_refl i) (.inl rfl)
    have hslice : (slice spec i j).length ≤ j - i := slice_length_le
    split
    · rename_i hlt
      constructor
      · split
        · exact within_reset i j
        · exact within_makeRange (Nat.le_refl i) (by omega) (by omega)
      · exact within_makeRange (by omega) (by omega) (Nat.le_refl j)
    · exact ⟨hself, within_reset i j⟩

/-- **The parts of an authority lie in it.** -/
theorem doParseAuthority_within (spec : Str) {i j : Nat} (hij : i ≤ j) :
    (doParseAuthority spec (makeRange i j)).Within i j := by
  have hreset := within_reset i j
  have hlen : (makeRange i j).len = (j : Int) - i := rfl
  have hstart : (makeRange i j).start = i := rfl
  unfold doParseAuthority
  split
  · exact ⟨hreset, hreset, hreset, hreset⟩
  · rename_i hne
    simp only [makeRange_finish hij, hstart]
    have hk := searchBack_bounds spec i ((makeRange i j).len.toNat - 1)
    generalize searchBack spec i ((makeRange i j).len.toNat - 1) = k at hk
    have hlt : k + 1 ≤ j := by omega
    split
    · have huser := parseUserInfo_within spec hk.1
      have hserver := parseServerInfo_within spec hlt
      exact ⟨huser.1.mono (Nat.le_refl i) (by omega), huser.2.mono (Nat.le_refl i) (by omega),
        hserver.1.mono (by omega) (Nat.le_refl j), hserver.2.mono (by omega) (Nat.le_refl j)⟩
    · have hserver := parseServerInfo_within spec hij
      exact ⟨hreset, hreset, hserver.1, hserver.2⟩

/-! ## Every text with a colon is cut so -/

theorem behind_head_of {p : Char → Bool} {s : Str} :
    ∀ c, (behind p s).head? = some c → p c = true := by
  intro c hc
  obtain ⟨t, ht⟩ := List.head?_eq_some_iff.mp hc
  exact behind_head ht

/-- What is behind the path is a query, a fragment, both or neither. -/
theorem exists_marked {t : Str} (ht : ∀ c, t.head? = some c → isQueryOrRef c = true) :
    ∃ q r : Option Str, t = marked '?' q ++ marked '#' r ∧
      ∀ x, q = some x → ∀ c ∈ x, isRef c = false := by
  cases t with
  | nil => exact ⟨none, none, rfl, fun _ h => nomatch h⟩
  | cons d t =>
    have hd := ht d rfl
    unfold isQueryOrRef at hd
    rw [Bool.or_eq_true, beq_iff_eq, beq_iff_eq] at hd
    rcases hd with rfl | rfl
    · have hcut := before_append_behind isRef t
      have hplain : ∀ x, some (before isRef t) = some x → ∀ c ∈ x, isRef c = false := by
        intro x hx c hc
        obtain rfl := Option.some.inj hx
        exact mem_before hc
      cases hr : behind isRef t with
      | nil =>
        rw [hr, List.append_nil] at hcut
        refine ⟨some (before isRef t), none, ?_, hplain⟩
        rw [hcut]
        exact (List.append_nil _).symm
      | cons e r =>
        have he : isRef e = true := behind_head hr
        rw [hr, beq_iff_eq.mp he] at hcut
        refine ⟨some (before isRef t), some r, ?_, hplain⟩
        show '?' :: t = '?' :: (before isRef t ++ '#' :: r)
        rw [hcut]
    · exact ⟨none, some t, rfl, fun _ h => nomatch h⟩

/-- What is behind the colon of a scheme is cut into slashes, an authority, a path, a query and a
fragment. -/
theorem exists_afterScheme (t : Str) :
    ∃ (slashes authority path : Str) (query ref : Option Str),
      t = slashes ++ (authority ++ (path ++ (marked '?' query ++ marked '#' ref))) ∧
      (∀ c ∈ slashes, isURLSlash c = true) ∧
      (∀ c ∈ authority, isAuthorityTerminator c = false) ∧
      (∀ c, path.head? = some c → isURLSlash c = true) ∧ (authority = [] → path = []) ∧
      (∀ c ∈ path, isQueryOrRef c = false) ∧
      ∀ q, query = some q → ∀ c ∈ q, isRef c = false := by
  let t2 := behind notSlash t
  let t3 := behind isAuthorityTerminator t2
  let t4 := behind isQueryOrRef t3
  obtain ⟨query, ref, h4, hquery⟩ := exists_marked (t := t4) behind_head_of
  have hcut2 : before notSlash t ++ t2 = t := before_append_behind notSlash t
  have hcut3 : before isAuthorityTerminator t2 ++ t3 = t2 := before_append_behind _ t2
  have hcut4 : before isQueryOrRef t3 ++ t4 = t3 := before_append_behind _ t3
  have hhead3 : ∀ c, (before isQueryOrRef t3).head? = some c → t3.head? = some c := by
    intro c hc
    rw [← hcut4, List.head?_append, hc]
    rfl
  refine ⟨before notSlash t, before isAuthorityTerminator t2, before isQueryOrRef t3, query, ref,
    ?_, ?_, fun c hc => mem_before hc, ?_, ?_, fun c hc => mem_before hc, hquery⟩
  · rw [← h4, hcut4, hcut3, hcut2]
  · intro c hc
    have h := mem_before hc
    unfold notSlash at h
    simpa using h
  · intro c hc
    obtain ⟨p, hp⟩ := List.head?_eq_some_iff.mp hc
    have hplain : isQueryOrRef c = false := mem_before (by
      rw [hp]
      exact List.mem_cons_self)
    have hend : isAuthorityTerminator c = true := behind_head_of c (hhead3 c hc)
    unfold isAuthorityTerminator at hend
    unfold isQueryOrRef at hplain
    rw [Bool.or_assoc, hplain, Bool.or_false] at hend
    exact hend
  · intro hnil
    rw [hnil, List.nil_append] at hcut3
    cases hp : before isQueryOrRef t3 with
    | nil => rfl
    | cons c p =>
      have hc := hhead3 c (by rw [hp]; rfl)
      have hslash : notSlash c = true := behind_head_of c (hcut3 ▸ hc)
      have hplain : isQueryOrRef c = false := mem_before (by
        rw [hp]
        exact List.mem_cons_self)
      have hend : isAuthorityTerminator c = true := behind_head_of c hc
      unfold isAuthorityTerminator at hend
      unfold isQueryOrRef at hplain
      unfold notSlash at hslash
      rw [Bool.or_assoc, hplain, Bool.or_false] at hend
      rw [hend] at hslash
      cases hslash

/-- **Every text with a colon** is the text of a URL. -/
theorem exists_text {s : Str} (hs : ':' ∈ s) : ∃ u : URLText, u.text = s := by
  let body := behind notTrimmed s
  let core := body.rdropWhile shouldTrimFromURL
  let trail := body.rtakeWhile shouldTrimFromURL
  have hbody : before notTrimmed s ++ body = s := before_append_behind notTrimmed s
  have hcore : core ++ trail = body := List.rdropWhile_append_rtakeWhile
  have hcolon : ':' ∈ core := by
    rw [← hbody, ← hcore, List.mem_append, List.mem_append] at hs
    rcases hs with hlead | hin | htrail
    · exact absurd (mem_before hlead) (by decide)
    · exact hin
    · exact absurd (List.mem_rtakeWhile_imp htrail) (by decide)
  have hcut : before isColon core ++ behind isColon core = core := before_append_behind isColon core
  obtain ⟨t, ht⟩ : ∃ t, behind isColon core = ':' :: t := by
    cases h : behind isColon core with
    | nil =>
      rw [h, List.append_nil] at hcut
      rw [← hcut] at hcolon
      exact absurd (mem_before hcolon) (by decide)
    | cons c t =>
      have hc : isColon c = true := behind_head h
      exact ⟨t, by rw [beq_iff_eq.mp hc]⟩
  obtain ⟨slashes, authority, path, query, ref, hparts, hslashes, hauthority, hhead, hbehind, hpath,
    hquery⟩ := exists_afterScheme t
  have hall : before isColon core ++ ':' :: (slashes ++ (authority ++ (path ++
      (marked '?' query ++ marked '#' ref)))) = core := by
    rw [← hparts, ← ht, hcut]
  let parts : URLParts := ⟨before notTrimmed s, before isColon core, slashes, authority, path, query,
    ref, trail⟩
  have hpartsCore : parts.core = core := hall
  refine ⟨⟨parts, ?_, ?_, fun c hc => mem_before hc, hslashes, hauthority, hhead, hbehind, hpath,
    hquery, fun c hc => List.mem_rtakeWhile_imp hc, ?_⟩, ?_⟩
  · intro c hc
    have h := mem_before hc
    unfold notTrimmed at h
    simpa using h
  · intro c hc
    have hfirst : body.head? = some c := by
      rw [← hcore, ← hcut, List.append_assoc, List.head?_append, hc]
      rfl
    have h : notTrimmed c = true := behind_head_of c hfirst
    unfold notTrimmed at h
    simpa using h
  · intro c hc
    rw [hpartsCore] at hc
    have hne : core ≠ [] := List.ne_nil_of_mem hcolon
    have hlast := List.rdropWhile_last_not shouldTrimFromURL body hne
    rw [List.getLast?_eq_some_getLast hne] at hc
    rw [← Option.some.inj hc]
    simpa using hlast
  · show (before notTrimmed s ++ parts.core) ++ trail = s
    rw [hpartsCore, List.append_assoc, hcore, hbody]

end Blinkit.Url
