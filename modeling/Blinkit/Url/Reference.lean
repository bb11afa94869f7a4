import Blinkit.Lib.DotSegments
import Blinkit.Url.UrlParse

/-!
# Relative references and their resolution

The grammar of relative references with no authority, and their resolution against the path and the
query of a base, as RFC 3986 has them. Two texts are taken for the same when they differ only in
the escaping of characters that mean the same escaped and not.

* `PChar` — a character of a reference, or an escape of two hex digits.
* `RefPath`, `Reference` — a reference that is a path, a query or a fragment.
* `unescape` — a text with some of its escapes replaced by what they stand for.
* `resolvedPath`, `resolvedQuery` — the path and the query that a reference leads to.

Principal results: `unescape_text`, `unescape_slash`, `count_unescape`, `slashed_splitOn`.
-/

set_option autoImplicit false

namespace Blinkit.Url

/-! ## Escapes -/

/-- `IsHexChar`. -/
def isHexChar (c : Char) : Bool :=
  c.isDigit || ('a' ≤ c && c ≤ 'f') || ('A' ≤ c && c ≤ 'F')

/-- `HexCharToValue`. -/
def hexCharToValue (c : Char) : Nat :=
  if c.isDigit = true then c.toNat - 48
  else if 'a' ≤ c then c.toNat - 87
  else c.toNat - 55

/-- The character that two hex digits stand for. -/
def escapedChar (hi lo : Char) : Char := Char.ofNat (16 * hexCharToValue hi + hexCharToValue lo)

/-- A text whose escapes of `plain` characters are replaced by these. -/
def unescape (plain : Char → Bool) : Str → Str
  | '%' :: hi :: lo :: rest =>
    if isHexChar hi = true ∧ isHexChar lo = true then
      (if plain (escapedChar hi lo) = true then [escapedChar hi lo] else ['%', hi, lo]) ++
        unescape plain rest
    else '%' :: unescape plain (hi :: lo :: rest)
  | c :: rest => c :: unescape plain rest
  | [] => []

/-- A character that is allowed, or an escape. -/
inductive PChar (allowed : Char → Bool) where
  | plain (c : Char) (h : allowed c = true)
  | escaped (hi lo : Char) (hhi : isHexChar hi = true) (hlo : isHexChar lo = true)

namespace PChar

variable {allowed : Char → Bool}

def text : PChar allowed → Str
  | plain c _ => [c]
  | escaped hi lo _ _ => ['%', hi, lo]

/-- A character, or an escape that is replaced when it stands for a `direct` one. -/
def unescaped (direct : Char → Bool) : PChar allowed → Str
  | plain c _ => [c]
  | escaped hi lo _ _ =>
    if direct (escapedChar hi lo) = true then [escapedChar hi lo] else ['%', hi, lo]

end PChar

/-! ## References -/

def isUnreserved (c : Char) : Bool :=
  c.isAlphanum || c == '-' || c == '.' || c == '_' || c == '~'

def isSubDelim (c : Char) : Bool :=
  c == '!' || c == '$' || c == '&' || c == '\x27' || c == '(' || c == ')' || c == '*' ||
    c == '+' || c == ',' || c == ';' || c == '='

/-- The characters of a segment. -/
def isPchar (c : Char) : Bool := isUnreserved c || isSubDelim c || c == ':' || c == '@'

/-- The characters of a query and of a fragment. -/
def isQueryPchar (c : Char) : Bool := isPchar c || c == '/' || c == '?'

abbrev Segment := List (PChar isPchar)

abbrev QueryText := List (PChar isQueryPchar)

/-- The text of a list of characters and escapes. -/
def textOf {allowed : Char → Bool} (us : List (PChar allowed)) : Str := us.flatMap PChar.text

/-- The same with some escapes replaced. -/
def unescapedOf {allowed : Char → Bool} (direct : Char → Bool) (us : List (PChar allowed)) : Str :=
  us.flatMap (PChar.unescaped direct)

/-- Texts with a slash in front of each. -/
def slashed (xs : List Str) : Str := xs.flatMap ('/' :: ·)

/-- `path-empty`, `path-absolute` and `path-noscheme`. -/
inductive RefPath where
  | empty
  | absolute (first : Segment) (rest : List Segment) (h : first = [] → rest = [])
  | relative (first : Segment) (rest : List Segment) (h : first ≠ []) (hc : ':' ∉ textOf first)

namespace RefPath

def text : RefPath → Str
  | empty => []
  | absolute first rest _ => slashed ((first :: rest).map textOf)
  | relative first rest _ _ => textOf first ++ slashed (rest.map textOf)

/-- The segments, with the escapes of unreserved characters replaced. -/
def segments : RefPath → List Str
  | empty => []
  | absolute first rest _ => (first :: rest).map (unescapedOf isUnreserved)
  | relative first rest _ _ => (first :: rest).map (unescapedOf isUnreserved)

end RefPath

/-- A relative reference that is a path, a query or a fragment. -/
structure Reference where
  path : RefPath
  query : Option QueryText
  fragment : Option QueryText

namespace Reference

variable (r : Reference)

def queryText : Option Str := r.query.map textOf

def fragmentText : Option Str := r.fragment.map textOf

def text : Str := r.path.text ++ (marked '?' r.queryText ++ marked '#' r.fragmentText)

end Reference

/-! ## Resolution -/

def isCurSegment (x : Str) : Bool := x == ['.']

def isUpSegment (x : Str) : Bool := x == ['.', '.']

/-- `remove_dot_segments`, on the segments of a path. -/
def removeDotSegments (dirs xs : List Str) : List Str :=
  DotSegments.remove isCurSegment isUpSegment [] dirs xs

/-- The path that a reference leads to. The path of a base with an authority is empty or begins
with a slash. -/
def resolvedPath (base : Str) (r : RefPath) : Option Str :=
  match r, base with
  | .absolute _ _ _, _ => some (slashed (removeDotSegments [] r.segments))
  | .empty, [] => some []
  | .empty, '/' :: p => some ('/' :: p)
  | .relative _ _ _ _, [] => some (slashed (removeDotSegments [] r.segments))
  | .relative _ _ _ _, '/' :: p =>
    some (slashed (removeDotSegments [] ((p.splitOn '/').dropLast ++ r.segments)))
  | _, _ => none

/-- The query that a reference leads to. -/
def resolvedQuery (base : Option Str) (r : Reference) : Option Str :=
  match r.path, r.query with
  | .empty, none => base
  | _, _ => r.queryText

/-! ## Unescaped texts -/

section Unescape

variable {allowed : Char → Bool} {direct : Char → Bool}

/-- What does not begin with an escape begins with a character of its own. -/
theorem unescape_plain {c : Char} {t : Str}
    (h : ∀ hi lo rest, c :: t = '%' :: hi :: lo :: rest →
      ¬(isHexChar hi = true ∧ isHexChar lo = true)) :
    unescape direct (c :: t) = c :: unescape direct t := by
  rw [unescape.eq_def]
  split
  · rename_i hi lo rest heq
    obtain ⟨rfl, rfl⟩ := List.cons.inj heq
    rw [if_neg (h hi lo rest rfl)]
  · rename_i heq
    obtain ⟨rfl, rfl⟩ := List.cons.inj heq
    rfl
  · rename_i heq
    cases heq

theorem unescape_cons {c : Char} (hc : c ≠ '%') (t : Str) :
    unescape direct (c :: t) = c :: unescape direct t := by
  refine unescape_plain ?_
  rintro hi lo rest heq
  exact absurd (List.cons.inj heq).1 hc

theorem unescape_escape {hi lo : Char} (hhi : isHexChar hi = true) (hlo : isHexChar lo = true)
    (t : Str) : unescape direct ('%' :: hi :: lo :: t) =
      (if direct (escapedChar hi lo) = true then [escapedChar hi lo] else ['%', hi, lo]) ++
        unescape direct t := by
  rw [unescape, if_pos ⟨hhi, hlo⟩]

/-- **A text of characters and escapes** is unescaped one by one. -/
theorem unescape_text (hallowed : allowed '%' = false) (us : List (PChar allowed)) (t : Str) :
    unescape direct (textOf us ++ t) = unescapedOf direct us ++ unescape direct t := by
  induction us with
  | nil => rfl
  | cons p us ih =>
    unfold textOf unescapedOf at ih ⊢
    rw [List.flatMap_cons, List.flatMap_cons, List.append_assoc, List.append_assoc]
    cases p with
    | plain c h =>
      have hc : c ≠ '%' := by
        rintro rfl
        rw [hallowed] at h
        cases h
      show unescape direct (c :: (us.flatMap PChar.text ++ t)) = _
      rw [unescape_cons hc, ih]
      rfl
    | escaped hi lo hhi hlo =>
      show unescape direct ('%' :: hi :: lo :: (us.flatMap PChar.text ++ t)) = _
      rw [unescape_escape hhi hlo, ih]
      rfl

theorem unescape_textOf (hallowed : allowed '%' = false) (us : List (PChar allowed)) :
    unescape direct (textOf us) = unescapedOf direct us := by
  have h : unescape direct (textOf us ++ []) = unescapedOf direct us ++ unescape direct [] :=
    unescape_text hallowed us []
  rwa [List.append_nil, unescape, List.append_nil] at h

/-- Nothing is left to be replaced. -/
theorem unescape_unescaped (hallowed : allowed '%' = false) (hdirect : direct '%' = false)
    (us : List (PChar allowed)) (t : Str) :
    unescape direct (unescapedOf direct us ++ t) = unescapedOf direct us ++ unescape direct t := by
  induction us with
  | nil => rfl
  | cons p us ih =>
    unfold unescapedOf at ih ⊢
    rw [List.flatMap_cons, List.append_assoc, List.append_assoc]
    cases p with
    | plain c h =>
      have hc : c ≠ '%' := by
        rintro rfl
        rw [hallowed] at h
        cases h
      show unescape direct (c :: (us.flatMap (PChar.unescaped direct) ++ t)) = _
      rw [unescape_cons hc, ih]
      rfl
    | escaped hi lo hhi hlo =>
      show unescape direct ((if direct (escapedChar hi lo) = true then [escapedChar hi lo]
        else ['%', hi, lo]) ++ (us.flatMap (PChar.unescaped direct) ++ t)) =
        (if direct (escapedChar hi lo) = true then [escapedChar hi lo] else ['%', hi, lo]) ++ _
      by_cases hplain : direct (escapedChar hi lo) = true
      · have hc : escapedChar hi lo ≠ '%' := by
          intro heq
          rw [heq, hdirect] at hplain
          cases hplain
        rw [if_pos hplain]
        show unescape direct (escapedChar hi lo :: (us.flatMap (PChar.unescaped direct) ++ t)) = _
        rw [unescape_cons hc, ih]
        rfl
      · rw [if_neg hplain]
        show unescape direct ('%' :: hi :: lo :: (us.flatMap (PChar.unescaped direct) ++ t)) = _
        rw [unescape_escape hhi hlo, if_neg hplain, ih]

theorem unescape_unescapedOf (hallowed : allowed '%' = false) (hdirect : direct '%' = false)
    (us : List (PChar allowed)) :
    unescape direct (unescapedOf direct us) = unescapedOf direct us := by
  have h := unescape_unescaped hallowed hdirect us []
  rwa [List.append_nil, unescape, List.append_nil] at h

/-- **An escape does not reach over a slash.** -/
theorem unescape_slash (s t : Str) :
    unescape direct (s ++ '/' :: t) = unescape direct s ++ '/' :: unescape direct t := by
  have hslash : isHexChar '/' = false := by decide
  fun_induction unescape direct s with
  | case1 hi lo rest hhex ih =>
    rw [List.cons_append, List.cons_append, List.cons_append, unescape_escape hhex.1 hhex.2, ih,
      List.append_assoc]
  | case2 hi lo rest hhex ih =>
    rw [List.cons_append, unescape_plain, ih]
    · rfl
    · rintro hi' lo' rest' heq
      injection heq with _ heq
      injection heq with hhi heq
      injection heq with hlo heq
      rw [← hhi, ← hlo]
      exact hhex
  | case3 c rest hnot ih =>
    rw [List.cons_append, unescape_plain, ih]
    · rfl
    · -- the slash would be the second or the third character of the escape
      rintro hi lo rest' heq ⟨hhi, hlo⟩
      injection heq with hc heq
      match rest, heq with
      | [], heq =>
        injection heq with hhi' _
        rw [← hhi', hslash] at hhi
        cases hhi
      | [_], heq =>
        injection heq with _ heq
        injection heq with hlo' _
        rw [← hlo', hslash] at hlo
        cases hlo
      | a :: b :: rest, _ => exact hnot a b rest (by rw [hc]) rfl
  | case4 => exact unescape_cons (by decide) t

/-- A character that is neither part of an escape nor replaces one is kept. -/
theorem count_unescape {c : Char} (hc : c ≠ '%') (hhex : isHexChar c = false)
    (hdirect : direct c = false) (s : Str) : (unescape direct s).count c = s.count c := by
  have hne : ∀ d, isHexChar d = true → d ≠ c := by
    rintro d hd rfl
    rw [hhex] at hd
    cases hd
  fun_induction unescape direct s with
  | case1 hi lo rest h ih =>
    have hescape : List.count c
        (if direct (escapedChar hi lo) = true then [escapedChar hi lo] else ['%', hi, lo]) = 0 := by
      refine List.count_eq_zero.mpr fun hmem => ?_
      split at hmem
      · rename_i hplain
        rw [← List.mem_singleton.mp hmem, hdirect] at hplain
        cases hplain
      · simp only [List.mem_cons, List.not_mem_nil, or_false] at hmem
        rcases hmem with heq | heq | heq
        · exact hc heq
        · exact hne hi h.1 heq.symm
        · exact hne lo h.2 heq.symm
    rw [List.count_append, hescape, ih, Nat.zero_add, List.count_cons_of_ne hc.symm,
      List.count_cons_of_ne (hne hi h.1), List.count_cons_of_ne (hne lo h.2)]
  | case2 hi lo rest h ih => rw [List.count_cons, List.count_cons, ih]
  | case3 d rest hnot ih => rw [List.count_cons, List.count_cons, ih]
  | case4 => rfl

end Unescape

/-! ## Slashes -/

theorem slashed_append (xs ys : List Str) : slashed (xs ++ ys) = slashed xs ++ slashed ys :=
  List.flatMap_append

theorem slashed_singleton (x : Str) : slashed [x] = '/' :: x := List.append_nil _

theorem slashed_intercalate {xs : List Str} (hxs : xs ≠ []) :
    slashed xs = '/' :: List.intercalate ['/'] xs := by
  induction xs with
  | nil => exact absurd rfl hxs
  | cons x xs ih =>
    cases xs with
    | nil => rw [List.intercalate_singleton, slashed_singleton]
    | cons y ys =>
      have hcons : slashed (x :: y :: ys) = ('/' :: x) ++ slashed (y :: ys) := rfl
      rw [hcons, ih (List.cons_ne_nil y ys), List.intercalate_cons_cons]
      simp

/-- A path is its segments, each behind a slash. -/
theorem slashed_splitOn (p : Str) : slashed (p.splitOn '/') = '/' :: p := by
  rw [slashed_intercalate (List.splitOn_ne_nil _ _), List.intercalate_splitOn]

/-- The segments of a path are unescaped one by one. -/
theorem unescape_slashed (direct : Char → Bool) (xs : List Str) :
    unescape direct (slashed xs) = slashed (xs.map (unescape direct)) := by
  induction xs with
  | nil => rfl
  | cons x xs ih =>
    have hcons : unescape direct ('/' :: (x ++ slashed xs)) =
        '/' :: (unescape direct x ++ slashed (xs.map (unescape direct))) := by
      rw [unescape_cons (by decide)]
      cases xs with
      | nil =>
        show '/' :: unescape direct (x ++ []) = '/' :: (unescape direct x ++ [])
        rw [List.append_nil, List.append_nil]
      | cons y ys =>
        have hrest : slashed (y :: ys) = '/' :: (y ++ slashed ys) := rfl
        rw [← ih, hrest, unescape_slash, unescape_cons (by decide)]
    exact hcons

theorem unescape_no_slash {direct : Char → Bool} (hdirect : direct '/' = false) {x : Str}
    (hx : '/' ∉ x) : '/' ∉ unescape direct x := by
  rw [← List.count_eq_zero] at hx ⊢
  rw [count_unescape (by decide) (by decide) hdirect]
  exact hx

/-- **The segments of an unescaped path** are the unescaped segments. -/
theorem splitOn_unescape {direct : Char → Bool} (hdirect : direct '/' = false) (p : Str) :
    (unescape direct p).splitOn '/' = (p.splitOn '/').map (unescape direct) := by
  have hne : (p.splitOn '/').map (unescape direct) ≠ [] := fun h =>
    List.splitOn_ne_nil '/' p (List.map_eq_nil_iff.mp h)
  have hpath : '/' :: unescape direct p =
      '/' :: List.intercalate ['/'] ((p.splitOn '/').map (unescape direct)) := by
    rw [← unescape_cons (by decide), ← slashed_splitOn p, unescape_slashed,
      slashed_intercalate hne]
  have hplain : ∀ x ∈ (p.splitOn '/').map (unescape direct), '/' ∉ x := by
    intro x hx
    obtain ⟨y, hy, rfl⟩ := List.mem_map.mp hx
    exact unescape_no_slash hdirect (Lib.Text.not_mem_of_mem_splitOn hy)
  rw [List.tail_eq_of_cons_eq hpath, List.splitOn_intercalate _ hplain hne]

/-- Only the slashes in front of its segments are slashes of a path. -/
theorem count_slashed {xs : List Str} (h : ∀ x ∈ xs, '/' ∉ x) :
    (slashed xs).count '/' = xs.length := by
  induction xs with
  | nil => rfl
  | cons x xs ih =>
    have hcons : slashed (x :: xs) = ('/' :: x) ++ slashed xs := rfl
    rw [hcons, List.count_append, List.count_cons_self,
      List.count_eq_zero.mpr (h x List.mem_cons_self),
      ih (fun y hy => h y (List.mem_cons_of_mem x hy)), List.length_cons]
    omega

end Blinkit.Url
