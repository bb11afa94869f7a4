import Blinkit.Lib.Cursor
import Blinkit.Lib.Text
import Blinkit.Http.ResponseHeaders

/-!
# Content types

`HttpUtil::ParseContentType` scans the value of a `Content-Type` header by positions; a position
behind the text is `none` where the code has `npos`, and reading a character that the text does not
have is a fault.

* `readQuoted`, `readValue`, `readParameter`, `scan` — the loop over the parameters.
* `parseContentType` — the function, on the fields that it updates.
* `mediaType`, `parameters`, `charsetOf` — the media type, the parameters with their values and the
  first value of a `charset` parameter, by the text that is left.
* `Parses quoted s` — what the fields become, when `quoted` is what is made of the text between
  quotes.

Principal results: `readParameter_spec`, `scan_spec`, `parseContentType_spec` and
`parseContentType_trims`.
-/

set_option autoImplicit false

namespace Blinkit.Http.HttpUtil

open Cursor Blinkit.Lib.Text

/-! ## The scanner -/

inductive Fault where
  | outOfBounds
  | outOfRounds
  deriving DecidableEq

/-- `IsLWS`, for the characters of `HTTP_LWS`. -/
def isLWS (c : Char) : Bool := c == ' ' || c == '\t'

def notLWS (c : Char) : Bool := !isLWS c

def isTypeEnd (c : Char) : Bool := isLWS c || c == ';' || c == '('

def isNameEnd (c : Char) : Bool := c == ';' || c == '='

def isSemicolon (c : Char) : Bool := c == ';'

def quotationMark : Char := '\x22'

/-- `TrimLWS`. -/
def trimLWS (s : Str) : Str := trim isLWS s

/-- `contentTypeStr[i]`. -/
def charAt (s : Str) (i : Nat) : Except Fault Char :=
  match s[i]? with
  | some c => .ok c
  | none => .error .outOfBounds

/-- The characters from `i` up to `j`. -/
def stringPiece (s : Str) (i j : Nat) : Except Fault Str :=
  if i ≤ j ∧ j ≤ s.length then .ok (slice s i j) else .error .outOfBounds

/-- The loop that removes terminal whitespace. -/
def valueEnd (s : Str) (valueStart : Nat) : Nat → Except Fault Nat
  | 0 => .ok 0
  | i + 1 =>
    if valueStart < i + 1 then do
      if isLWS (← charAt s i) then valueEnd s valueStart i else return i + 1
    else .ok (i + 1)

/-- The loop behind an open quote. -/
def readQuoted (s : Str) : Nat → Nat → Str → Except Fault (Nat × Str)
  | 0, _, _ => .error .outOfRounds
  | rounds + 1, offset, paramValue =>
    if offset < s.length then do
      let c ← charAt s offset
      if c = quotationMark then return (offset, paramValue)
      let offset := if c = '\\' ∧ offset + 1 < s.length then offset + 1 else offset
      let c ← charAt s offset
      readQuoted s rounds (offset + 1) (paramValue ++ [c])
    else .ok (offset, paramValue)

/-- A value that begins with `c`, and the next semicolon. -/
def readValue (s : Str) (offset : Nat) (c : Char) : Except Fault (Option Nat × Str) :=
  if c ≠ quotationMark then do
    let next := findFrom isSemicolon s offset
    let stop ← valueEnd s offset (next.getD s.length)
    return (next, ← stringPiece s offset stop)
  else do
    let r ← readQuoted s (s.length + 1) (offset + 1) []
    return (findFrom isSemicolon s r.1, trimLWS r.2)

/-- The part of a round behind the `=`: where the next round begins, and the parameter if it has a
value. -/
def readAssigned (s paramName : Str) (offset : Nat) :
    Except Fault (Option Nat × Option (Str × Str)) :=
  match findFrom notLWS s (offset + 1) with
  | none => .ok (none, none)
  | some offset => do
    let c ← charAt s offset
    if c = ';' then return (some offset, none)
    let r ← readValue s offset c
    return (r.1, some (paramName, r.2))

/-- One round of the loop over the parameters. -/
def readParameter (s : Str) (offset : Nat) : Except Fault (Option Nat × Option (Str × Str)) :=
  match findFrom notLWS s (offset + 1) with
  | none => .ok (none, none)
  | some paramNameStart =>
    match findFrom isNameEnd s paramNameStart with
    | none => .ok (none, none)
    | some offset => do
      if (← charAt s offset) = ';' then return (some offset, none)
      let paramName ← stringPiece s paramNameStart offset
      readAssigned s paramName offset

structure Found where
  charsetValue : Str
  typeHasCharset : Bool
  /-- `none` for a null pointer. -/
  boundary : Option Str
  typeHasBoundary : Bool
  deriving DecidableEq

def charsetName : Str := ['c', 'h', 'a', 'r', 's', 'e', 't']

def boundaryName : Str := ['b', 'o', 'u', 'n', 'd', 'a', 'r', 'y']

/-- `LowerCaseEqualsASCII`. -/
def lowerCaseEqualsASCII (s lowercase : Str) : Bool := lowerCase s == lowercase

/-- What is kept of a parameter. -/
def Found.keep (f : Found) : Option (Str × Str) → Found
  | none => f
  | some (paramName, paramValue) =>
    if !f.typeHasCharset && lowerCaseEqualsASCII paramName charsetName then
      { f with typeHasCharset := true, charsetValue := paramValue }
    else if f.boundary.isSome && !f.typeHasBoundary &&
        lowerCaseEqualsASCII paramName boundaryName then
      { f with typeHasBoundary := true, boundary := some paramValue }
    else f

/-- The loop over the parameters. -/
def scan (s : Str) : Nat → Option Nat → Found → Except Fault Found
  | _, none, f => .ok f
  | 0, some _, _ => .error .outOfRounds
  | rounds + 1, some offset, f =>
    if offset < s.length then do
      let r ← readParameter s offset
      scan s rounds r.1 (f.keep r.2)
    else .ok f

/-- The strings and the flag that `ParseContentType` updates. -/
structure ContentType where
  mimeType : Str
  charset : Str
  hadCharset : Bool
  deriving DecidableEq

/-- The end of the function: the fields for a media type and what the parameters say. -/
def ContentType.update (t : ContentType) (type : Str) (found : Found) : ContentType :=
  let eq := !t.mimeType.isEmpty && lowerCaseEqualsASCII type (cStr t.mimeType)
  let mimeType := if eq then t.mimeType else lowerCase type
  if (!eq && t.hadCharset) || found.typeHasCharset then
    ⟨mimeType, lowerCase found.charsetValue, true⟩
  else { t with mimeType := mimeType }

/-- `HttpUtil::ParseContentType`. -/
def parseContentType (s : Str) (t : ContentType) (boundary : Option Str) :
    Except Fault (ContentType × Option Str) := do
  let typeVal := min ((findFrom notLWS s 0).getD s.length) s.length
  let typeEnd := (findFrom isTypeEnd s typeVal).getD s.length
  let found ← scan s (s.length + 1) (findFrom isSemicolon s typeEnd) ⟨[], false, boundary, false⟩
  if s.length = 0 ∨ s = ['*', '/', '*'] ∨ '/' ∉ s then return (t, found.boundary)
  let type ← stringPiece s typeVal typeEnd
  return (t.update type found, found.boundary)

/-! ## What the text says -/

/-- The text from the first character that is not whitespace up to whitespace, `;` or `(`. -/
def mediaType (s : Str) : Str := before isTypeEnd (behind notLWS s)

/-- The value behind an open quote, without the escapes, and the text from the closing quote on. -/
def unquote : Str → Str × Str
  | [] => ([], [])
  | [c] => if c = quotationMark then ([], [c]) else ([c], [])
  | c :: d :: rest =>
    if c = quotationMark then ([], c :: d :: rest)
    else if c = '\\' then (d :: (unquote rest).1, (unquote rest).2)
    else (c :: (unquote (d :: rest)).1, (unquote (d :: rest)).2)

/-- The value that a text begins with, and the text from the next semicolon on. -/
def value (quoted : Str → Str) (c : Char) (rest : Str) : Str × Str :=
  if c = quotationMark then (quoted (unquote rest).1, behind isSemicolon (unquote rest).2)
  else ((before isSemicolon (c :: rest)).rdropWhile isLWS, behind isSemicolon (c :: rest))

/-- The value behind a `=`, if there is one, and the text from the next semicolon on. -/
def assigned (quoted : Str → Str) (rest : Str) : Option Str × Str :=
  match behind notLWS rest with
  | [] => (none, [])
  | c :: rest =>
    if c = ';' then (none, c :: rest) else (some (value quoted c rest).1, (value quoted c rest).2)

/-- The parameter behind a semicolon, with its value if it has one, and the text from the next
semicolon on. -/
def parameter (quoted : Str → Str) (text : Str) : (Str × Option Str) × Str :=
  let text := behind notLWS text
  let name := before isNameEnd text
  match behind isNameEnd text with
  | [] => ((name, none), [])
  | c :: rest =>
    if c = ';' then ((name, none), c :: rest)
    else ((name, (assigned quoted rest).1), (assigned quoted rest).2)

theorem unquote_close (rest : Str) :
    unquote (quotationMark :: rest) = ([], quotationMark :: rest) := by
  cases rest with
  | nil => exact if_pos rfl
  | cons d rest =>
    unfold unquote
    exact if_pos rfl

theorem unquote_escape (d : Char) (rest : Str) :
    unquote ('\\' :: d :: rest) = (d :: (unquote rest).1, (unquote rest).2) := by
  rw [unquote]
  rfl

/-- A character that is no closing quote and escapes nothing stands for itself. -/
theorem unquote_plain {c : Char} {rest : Str} (hq : c ≠ quotationMark)
    (hb : c = '\\' → rest = []) :
    unquote (c :: rest) = (c :: (unquote rest).1, (unquote rest).2) := by
  cases rest with
  | nil => exact if_neg hq
  | cons d rest =>
    rw [unquote, if_neg hq, if_neg fun h => List.cons_ne_nil d rest (hb h)]

theorem unquote_length_le (t : Str) : (unquote t).2.length ≤ t.length := by
  fun_induction unquote t with
  | case1 => exact Nat.le_refl _
  | case2 => exact Nat.le_refl _
  | case3 => exact Nat.zero_le _
  | case4 => exact Nat.le_refl _
  | case5 => simp only [List.length_cons]; omega
  | case6 c d rest hq hb ih =>
    simp only [List.length_cons] at ih ⊢
    omega

theorem value_length_le (quoted : Str → Str) (c : Char) (rest : Str) :
    (value quoted c rest).2.length ≤ (c :: rest).length := by
  unfold value
  split
  · have hbehind := behind_length_le isSemicolon (unquote rest).2
    have hunquote := unquote_length_le rest
    simp only [List.length_cons]
    omega
  · exact behind_length_le isSemicolon _

theorem assigned_length_le (quoted : Str → Str) (rest : Str) :
    (assigned quoted rest).2.length ≤ rest.length := by
  have h := behind_length_le notLWS rest
  unfold assigned
  split
  · exact Nat.zero_le _
  · rename_i c rest' hvalue
    rw [hvalue] at h
    split
    · exact h
    · exact (value_length_le quoted c rest').trans h

theorem parameter_length_le (quoted : Str → Str) (text : Str) :
    (parameter quoted text).2.length ≤ text.length := by
  have htext := behind_length_le notLWS text
  have hname := behind_length_le isNameEnd (behind notLWS text)
  unfold parameter
  simp only
  split
  · exact Nat.zero_le _
  · rename_i c rest hend
    rw [hend] at hname
    split
    · exact hname.trans htext
    · have hrest := assigned_length_le quoted rest
      simp only [List.length_cons] at hname ⊢
      omega

/-- The parameters of a text that begins with a semicolon. -/
def parameters (quoted : Str → Str) : Str → List (Str × Option Str)
  | [] => []
  | _ :: text => (parameter quoted text).1 :: parameters quoted (parameter quoted text).2
termination_by text => text.length
decreasing_by
  have h := parameter_length_le quoted text
  simp only [List.length_cons]
  omega

/-- What is behind the media type, from the first semicolon on. -/
def parameterText (s : Str) : Str := behind isSemicolon (behind isTypeEnd (behind notLWS s))

/-- The value of a parameter, if its name is `charset`, in any letter case. -/
def charsetValue (p : Str × Option Str) : Option Str :=
  if lowerCaseEqualsASCII p.1 charsetName then p.2 else none

/-- **The first value of a parameter with the name `charset`.** -/
def charsetOf (quoted : Str → Str) (s : Str) : Option Str :=
  (parameters quoted (parameterText s)).findSome? charsetValue

/-- The text has a media type that is stored. -/
def Accepted (s : Str) : Prop := s ≠ [] ∧ s ≠ ['*', '/', '*'] ∧ '/' ∈ s

instance (s : Str) : Decidable (Accepted s) := inferInstanceAs (Decidable (_ ∧ _ ∧ _))

/-- **What the fields become.** -/
structure Parses (quoted : Str → Str) (s : Str) (t t' : ContentType) : Prop where
  /-- The stored type is compared as a C string. -/
  mimeType : Accepted s → '\x00' ∉ t.mimeType → t'.mimeType = lowerCase (mediaType s)
  charset : Accepted s → ∀ v, charsetOf quoted s = some v →
    t'.charset = lowerCase v ∧ t'.hadCharset = true
  rejected : ¬ Accepted s → t' = t

/-! ## The scanner reads what the text says -/

variable {s t : Str} {c : Char} {i : Nat}

theorem charAt_eq (h : At s i (c :: t)) : charAt s i = .ok c := by
  unfold charAt
  rw [h.get]

theorem stringPiece_eq {a : Str} (h : At s i (a ++ t)) :
    stringPiece s i (i + a.length) = .ok a := by
  have hlen := h.length
  rw [List.length_append] at hlen
  unfold stringPiece
  rw [if_pos ⟨by omega, by omega⟩, h.slice]

/-- A position is given for the text behind it, which begins with a semicolon, or is empty. -/
def NextParameter (s : Str) (offset : Option Nat) (t : Str) : Prop :=
  match offset with
  | none => t = []
  | some i => At s i t ∧ t.head? = some ';'

theorem nextParameter_find (h : At s i t) :
    NextParameter s (findFrom isSemicolon s i) (behind isSemicolon t) := by
  cases hb : behind isSemicolon t with
  | nil =>
    rw [h.findFrom_none hb]
    rfl
  | cons c u =>
    rw [h.findFrom_some (by rw [hb]; exact List.cons_ne_nil c u)]
    have hp : isSemicolon c = true := behind_head hb
    have hc : c = ';' := beq_iff_eq.mp hp
    rw [← hb]
    refine ⟨h.behind isSemicolon, ?_⟩
    rw [hb, hc]
    rfl

/-- The loop that removes terminal whitespace ends behind the last other character. -/
theorem valueEnd_eq {a : Str} (h : At s i (a ++ t)) :
    valueEnd s i (i + a.length) = .ok (i + (a.rdropWhile isLWS).length) := by
  induction a using List.reverseRecOn generalizing t with
  | nil =>
    rw [List.rdropWhile_nil, List.length_nil, Nat.add_zero]
    cases i with
    | zero => rfl
    | succ i =>
      unfold valueEnd
      exact if_neg (Nat.lt_irrefl _)
  | append_singleton a c ih =>
    rw [List.append_assoc] at h
    have hchar := charAt_eq h.append
    rw [List.length_append, List.length_singleton, ← Nat.add_assoc]
    unfold valueEnd
    rw [if_pos (by omega), hchar, List.rdropWhile_concat]
    show (if isLWS c = true then valueEnd s i (i + a.length) else _) = _
    split
    · exact ih h
    · rw [List.length_append, List.length_singleton, ← Nat.add_assoc]
      rfl

/-- **The loop behind an open quote** reads up to the closing quote, or to the end. -/
theorem readQuoted_eq (h : At s i t) {rounds : Nat} (hrounds : t.length < rounds)
    (paramValue : Str) :
    ∃ j, readQuoted s rounds i paramValue = .ok (j, paramValue ++ (unquote t).1) ∧
      At s j (unquote t).2 := by
  induction rounds generalizing i t paramValue with
  | zero => omega
  | succ rounds ih =>
    unfold readQuoted
    cases t with
    | nil =>
      have hlt : ¬ i < s.length := by
        rw [h.lt_iff]
        exact fun hne => hne rfl
      exact ⟨i, by rw [if_neg hlt, unquote, List.append_nil], h⟩
    | cons c rest =>
      rw [if_pos h.lt, charAt_eq h]
      simp only [List.length_cons] at hrounds
      show ∃ j, (if c = quotationMark then _ else _) = _ ∧ _
      by_cases hq : c = quotationMark
      · rw [if_pos hq, hq, unquote_close, List.append_nil]
        exact ⟨i, rfl, hq ▸ h⟩
      rw [if_neg hq]
      by_cases hb : c = '\\' ∧ i + 1 < s.length
      · obtain ⟨rfl, hlt⟩ := hb
        obtain ⟨d, rest, rfl⟩ := List.exists_cons_of_ne_nil (h.succ.lt_iff.mp hlt)
        simp only [List.length_cons] at hrounds
        obtain ⟨j, hj, hat⟩ := ih h.succ.succ (by omega) (paramValue ++ [d])
        rw [if_pos ⟨rfl, hlt⟩, charAt_eq h.succ, unquote_escape]
        refine ⟨j, hj.trans ?_, hat⟩
        rw [List.append_assoc]
        rfl
      · have hplain : c = '\\' → rest = [] := fun hc => by
          by_contra hne
          exact hb ⟨hc, h.succ.lt_iff.mpr hne⟩
        obtain ⟨j, hj, hat⟩ := ih h.succ (by omega) (paramValue ++ [c])
        rw [if_neg hb, charAt_eq h, unquote_plain hq hplain]
        refine ⟨j, hj.trans ?_, hat⟩
        rw [List.append_assoc]
        rfl

/-- An unquoted value, without the whitespace at its end. -/
theorem readValue_plain {rest : Str} (h : At s i (c :: rest)) (hq : c ≠ quotationMark) :
    readValue s i c = .ok (findFrom isSemicolon s i, (value trimLWS c rest).1) := by
  have hsplit : At s i (before isSemicolon (c :: rest) ++ behind isSemicolon (c :: rest)) := by
    rw [before_append_behind]
    exact h
  have hkeep : At s i ((before isSemicolon (c :: rest)).rdropWhile isLWS ++
      ((before isSemicolon (c :: rest)).rtakeWhile isLWS ++ behind isSemicolon (c :: rest))) := by
    rw [← List.append_assoc, List.rdropWhile_append_rtakeWhile]
    exact hsplit
  unfold readValue value
  rw [if_pos hq, if_neg hq]
  dsimp only
  rw [h.findFrom_getD, valueEnd_eq hsplit]
  show (do return (findFrom isSemicolon s i, ← stringPiece s i (i + _)) : Except Fault _) = _
  rw [stringPiece_eq hkeep]
  rfl

/-- **A value is read**, quoted or not, and the scanner goes on at the next semicolon. -/
theorem readValue_spec {rest : Str} (h : At s i (c :: rest)) :
    ∃ o, readValue s i c = .ok (o, (value trimLWS c rest).1) ∧
      NextParameter s o (value trimLWS c rest).2 := by
  by_cases hq : c = quotationMark
  · have hlen := h.succ.length
    have hshort : rest.length < s.length + 1 := by omega
    obtain ⟨j, hj, hat⟩ := readQuoted_eq h.succ hshort []
    refine ⟨findFrom isSemicolon s j, ?_, ?_⟩
    · unfold readValue value
      rw [if_neg (not_not.mpr hq), if_pos hq, hj]
      rfl
    · unfold value
      rw [if_pos hq]
      exact nextParameter_find hat
  · refine ⟨_, readValue_plain h hq, ?_⟩
    unfold value
    rw [if_neg hq]
    exact nextParameter_find h

/-- The parameter, if it has a value. -/
def withValue (p : Str × Option Str) : Option (Str × Str) := p.2.map (Prod.mk p.1)

theorem readAssigned_spec {e : Char} {rest : Str} (h : At s i (e :: rest)) (paramName : Str) :
    ∃ o, readAssigned s paramName i = .ok (o, withValue (paramName, (assigned trimLWS rest).1)) ∧
      NextParameter s o (assigned trimLWS rest).2 := by
  unfold readAssigned assigned
  cases hvalue : behind notLWS rest with
  | nil =>
    rw [h.succ.findFrom_none hvalue]
    exact ⟨none, rfl, rfl⟩
  | cons c rest' =>
    have hat := h.succ.behind notLWS
    rw [hvalue] at hat
    rw [h.succ.findFrom_some (by rw [hvalue]; exact List.cons_ne_nil c rest')]
    simp only
    rw [charAt_eq hat]
    by_cases hc : c = ';'
    · rw [if_pos hc]
      refine ⟨_, if_pos hc, hat, ?_⟩
      rw [hc]
      rfl
    · obtain ⟨o, ho, hnext⟩ := readValue_spec hat
      rw [if_neg hc]
      refine ⟨o, (if_neg hc).trans ?_, hnext⟩
      rw [ho]
      rfl

/-- **One round of the loop reads one parameter.** -/
theorem readParameter_spec {text : Str} (h : At s i (c :: text)) :
    ∃ o, readParameter s i = .ok (o, withValue (parameter trimLWS text).1) ∧
      NextParameter s o (parameter trimLWS text).2 := by
  unfold readParameter parameter
  cases htext : behind notLWS text with
  | nil =>
    rw [h.succ.findFrom_none htext]
    exact ⟨none, rfl, rfl⟩
  | cons b text' =>
    have hstart := h.succ.behind notLWS
    rw [h.succ.findFrom_some (by rw [htext]; exact List.cons_ne_nil b text'), ← htext]
    generalize i + 1 + (before notLWS text).length = start at hstart ⊢
    generalize behind notLWS text = text at hstart ⊢
    simp only
    cases hname : behind isNameEnd text with
    | nil =>
      rw [hstart.findFrom_none hname]
      exact ⟨none, rfl, rfl⟩
    | cons e rest =>
      have hend := hstart.behind isNameEnd
      rw [hname] at hend
      rw [hstart.findFrom_some (by rw [hname]; exact List.cons_ne_nil e rest)]
      simp only
      rw [charAt_eq hend]
      by_cases he : e = ';'
      · rw [if_pos he]
        refine ⟨_, if_pos he, hend, ?_⟩
        rw [he]
        rfl
      · have hpiece : stringPiece s start (start + (before isNameEnd text).length) =
            .ok (before isNameEnd text) := by
          refine stringPiece_eq (t := behind isNameEnd text) ?_
          rw [before_append_behind]
          exact hstart
        obtain ⟨o, ho, hnext⟩ := readAssigned_spec hend (before isNameEnd text)
        rw [if_neg he]
        refine ⟨o, (if_neg he).trans ?_, hnext⟩
        rw [hpiece]
        exact ho

/-- **The loop runs over all parameters**, in time and inside the text. -/
theorem scan_spec {o : Option Nat} (h : NextParameter s o t) {rounds : Nat}
    (hrounds : t.length < rounds) (f : Found) :
    scan s rounds o f = .ok (((parameters trimLWS t).map withValue).foldl Found.keep f) := by
  induction rounds generalizing o t f with
  | zero => omega
  | succ rounds ih =>
    cases o with
    | none =>
      obtain rfl : t = [] := h
      unfold scan parameters
      rfl
    | some i =>
      obtain ⟨hat, hhead⟩ := h
      cases t with
      | nil => cases hhead
      | cons c text =>
        obtain ⟨o', ho', hnext⟩ := readParameter_spec hat
        have hlen := parameter_length_le trimLWS text
        rw [List.length_cons] at hrounds
        unfold scan parameters
        rw [if_pos hat.lt, ho', List.map_cons, List.foldl_cons]
        exact ih hnext (by omega) _

/-! ## The charset -/

theorem keep_charset (f : Found) (p : Str × Option Str) :
    (f.typeHasCharset = true → (f.keep (withValue p)).typeHasCharset = true ∧
      (f.keep (withValue p)).charsetValue = f.charsetValue) ∧
    (f.typeHasCharset = false →
      (f.keep (withValue p)).typeHasCharset = (charsetValue p).isSome ∧
      (f.keep (withValue p)).charsetValue = (charsetValue p).getD f.charsetValue) := by
  obtain ⟨name, v⟩ := p
  unfold withValue charsetValue Found.keep
  cases v with
  | none => simp
  | some v =>
    simp only [Option.map_some]
    split
    · rename_i h
      rw [Bool.and_eq_true, Bool.not_eq_true'] at h
      rw [if_pos h.2, h.1]
      exact ⟨fun hf => (nomatch hf), fun _ => ⟨rfl, rfl⟩⟩
    · rename_i h
      constructor
      · intro hf
        split <;> exact ⟨hf, rfl⟩
      · intro hf
        rw [hf, Bool.not_false, Bool.true_and] at h
        rw [if_neg h]
        split <;> exact ⟨hf, rfl⟩

/-- What is found is kept to the end. -/
theorem foldl_keep_found (ps : List (Str × Option Str)) (f : Found)
    (hf : f.typeHasCharset = true) :
    ((ps.map withValue).foldl Found.keep f).typeHasCharset = true ∧
      ((ps.map withValue).foldl Found.keep f).charsetValue = f.charsetValue := by
  induction ps generalizing f with
  | nil => exact ⟨hf, rfl⟩
  | cons p ps ih =>
    obtain ⟨hhas, hvalue⟩ := (keep_charset f p).1 hf
    rw [List.map_cons, List.foldl_cons, ← hvalue]
    exact ih _ hhas

/-- **The first charset is kept.** -/
theorem foldl_keep_charset (ps : List (Str × Option Str)) (f : Found)
    (hf : f.typeHasCharset = false) :
    ((ps.map withValue).foldl Found.keep f).typeHasCharset = (ps.findSome? charsetValue).isSome ∧
      ((ps.map withValue).foldl Found.keep f).charsetValue =
        (ps.findSome? charsetValue).getD f.charsetValue := by
  induction ps generalizing f with
  | nil => exact ⟨hf, rfl⟩
  | cons p ps ih =>
    obtain ⟨hhas, hvalue⟩ := (keep_charset f p).2 hf
    rw [List.map_cons, List.foldl_cons, List.findSome?_cons]
    cases hp : charsetValue p with
    | none =>
      rw [hp] at hhas hvalue
      have hrest := ih _ hhas
      rw [hvalue] at hrest
      exact hrest
    | some v =>
      rw [hp] at hhas hvalue
      obtain ⟨hfound, hkept⟩ := foldl_keep_found ps _ hhas
      exact ⟨hfound, hkept.trans hvalue⟩

/-! ## The function -/

/-- The stored type is the one that the text has. -/
def SameType (s : Str) (t : ContentType) : Prop :=
  t.mimeType ≠ [] ∧ lowerCase (mediaType s) = cStr t.mimeType

instance (s : Str) (t : ContentType) : Decidable (SameType s t) :=
  inferInstanceAs (Decidable (_ ∧ _))

/-- **Every index is inside the text, and the loops end.** -/
theorem parseContentType_eq (s : Str) (t : ContentType) (boundary : Option Str) :
    ∃ found : Found, parseContentType s t boundary =
        .ok (if Accepted s then t.update (mediaType s) found else t, found.boundary) ∧
      found.typeHasCharset = (charsetOf trimLWS s).isSome ∧
      found.charsetValue = (charsetOf trimLWS s).getD [] := by
  have htype := (at_zero s).behind notLWS
  rw [Nat.zero_add] at htype
  have hend := htype.behind isTypeEnd
  have hval : min ((findFrom notLWS s 0).getD s.length) s.length = (before notLWS s).length := by
    rw [(at_zero s).findFrom_getD, Nat.zero_add]
    exact Nat.min_eq_left htype.le
  have hpiece : stringPiece s (before notLWS s).length
      ((before notLWS s).length + (mediaType s).length) = .ok (mediaType s) := by
    refine stringPiece_eq (t := behind isTypeEnd (behind notLWS s)) ?_
    unfold mediaType
    rw [before_append_behind]
    exact htype
  have hparameters := nextParameter_find hend
  have hlen := behind_length_le isSemicolon (behind isTypeEnd (behind notLWS s))
  have hlen' := hend.length
  have hshort : (parameterText s).length < s.length + 1 := by
    unfold parameterText
    omega
  refine ⟨((parameters trimLWS (parameterText s)).map withValue).foldl Found.keep
    ⟨[], false, boundary, false⟩, ?_, foldl_keep_charset _ ⟨[], false, boundary, false⟩ rfl⟩
  unfold parseContentType
  dsimp only
  rw [hval, htype.findFrom_getD, scan_spec hparameters hshort]
  by_cases haccepted : Accepted s
  · have hnot : ¬ (s.length = 0 ∨ s = ['*', '/', '*'] ∨ '/' ∉ s) := by
      rintro (hempty | hany | hslash)
      · exact haccepted.1 (List.length_eq_zero_iff.mp hempty)
      · exact haccepted.2.1 hany
      · exact hslash haccepted.2.2
    rw [if_pos haccepted]
    refine (if_neg hnot).trans ?_
    show (do return (t.update (← stringPiece s _ _) _, _) : Except Fault _) = _
    unfold mediaType at hpiece ⊢
    rw [hpiece]
    rfl
  · have hrejected : s.length = 0 ∨ s = ['*', '/', '*'] ∨ '/' ∉ s := by
      by_contra hnot
      obtain ⟨hempty, hrest⟩ := not_or.mp hnot
      obtain ⟨hany, hslash⟩ := not_or.mp hrest
      exact haccepted ⟨fun hnil => hempty (by rw [hnil]; rfl), hany, not_not.mp hslash⟩
    rw [if_neg haccepted]
    exact if_pos hrejected

theorem same_eq (s : Str) (t : ContentType) :
    (!t.mimeType.isEmpty && lowerCaseEqualsASCII (mediaType s) (cStr t.mimeType)) =
      decide (SameType s t) := by
  unfold SameType lowerCaseEqualsASCII
  by_cases hnil : t.mimeType = []
  · simp [hnil]
  · simp [hnil, beq_eq_decide]

theorem update_mimeType (s : Str) (t : ContentType) (found : Found) :
    (t.update (mediaType s) found).mimeType =
      if SameType s t then t.mimeType else lowerCase (mediaType s) := by
  unfold ContentType.update
  rw [same_eq]
  simp only [decide_eq_true_eq]
  split <;> rfl

/-- A charset that was found is stored, and one that is missing from a new type is forgotten. -/
theorem update_charset {s : Str} {t : ContentType} {found : Found}
    (h : found.typeHasCharset = true ∨ (¬ SameType s t ∧ t.hadCharset = true)) :
    (t.update (mediaType s) found).charset = lowerCase found.charsetValue ∧
      (t.update (mediaType s) found).hadCharset = true := by
  have hcond : ((!decide (SameType s t) && t.hadCharset) || found.typeHasCharset) = true := by
    rcases h with hfound | ⟨hnew, hhad⟩
    · rw [hfound, Bool.or_true]
    · rw [hhad, decide_eq_false hnew]
      rfl
  unfold ContentType.update
  rw [same_eq, if_pos hcond]
  exact ⟨rfl, rfl⟩

theorem update_charset_same {s : Str} {t : ContentType} {found : Found}
    (hfound : found.typeHasCharset = false) (h : ¬ (¬ SameType s t ∧ t.hadCharset = true)) :
    (t.update (mediaType s) found).charset = t.charset ∧
      (t.update (mediaType s) found).hadCharset = t.hadCharset := by
  have hcond : ¬ ((!decide (SameType s t) && t.hadCharset) || found.typeHasCharset) = true := by
    rw [hfound, Bool.or_false, Bool.and_eq_true, Bool.not_eq_true', decide_eq_false_iff_not]
    exact h
  unfold ContentType.update
  rw [same_eq, if_neg hcond]
  exact ⟨rfl, rfl⟩

/-- Without a null character the stored type is the same when it is the media type of the text. -/
theorem mimeType_of_sameType {s : Str} {t : ContentType} (hnull : '\x00' ∉ t.mimeType)
    (h : SameType s t) : t.mimeType = lowerCase (mediaType s) := by
  have hcStr : cStr t.mimeType = t.mimeType := by
    refine List.takeWhile_eq_self_iff.mpr fun c hc => decide_eq_true ?_
    rintro rfl
    exact hnull hc
  rw [h.2, hcStr]

/-- **A content type is parsed, with every index inside the text**: the media type in lower case,
and the first value of a charset parameter in lower case, where a quoted value goes up to its closing
quote and is then trimmed. Without such a value the charset stays, or is forgotten with the type that
it belonged to. -/
theorem parseContentType_spec (s : Str) (t : ContentType) (boundary : Option Str) :
    ∃ t' b, parseContentType s t boundary = .ok (t', b) ∧ Parses trimLWS s t t' ∧
      (Accepted s → charsetOf trimLWS s = none → (t'.charset, t'.hadCharset) =
        if ¬ SameType s t ∧ t.hadCharset = true then ([], true) else (t.charset, t.hadCharset)) := by
  obtain ⟨found, hparse, hhas, hvalue⟩ := parseContentType_eq s t boundary
  refine ⟨_, _, hparse, ⟨fun ha hnull => ?_, fun ha v hv => ?_, fun hn => if_neg hn⟩,
    fun ha hv => ?_⟩
  · rw [if_pos ha, update_mimeType]
    split
    · rename_i hsame
      exact mimeType_of_sameType hnull hsame
    · rfl
  · rw [hv] at hhas hvalue
    obtain ⟨hcharset, hhad⟩ := update_charset (s := s) (t := t) (.inl hhas)
    rw [if_pos ha, hcharset, hvalue]
    exact ⟨rfl, hhad⟩
  · rw [hv] at hhas hvalue
    rw [if_pos ha]
    split
    · rename_i hnew
      have hcond : found.typeHasCharset = true ∨ (¬ SameType s t ∧ t.hadCharset = true) := .inr hnew
      obtain ⟨hcharset, hhad⟩ := update_charset hcond
      rw [hcharset, hhad, hvalue]
      rfl
    · rename_i hold
      obtain ⟨hcharset, hhad⟩ := update_charset_same hhas hold
      rw [hcharset, hhad]

/-- **The text between the quotes is trimmed**: `a/b;charset=" x"` has the charset `x`, not ` x`. -/
theorem parseContentType_trims :
    ¬ ∃ t' b, parseContentType "a/b;charset=\" x\"".toList ⟨[], [], false⟩ none = .ok (t', b) ∧
      Parses id "a/b;charset=\" x\"".toList ⟨[], [], false⟩ t' := by
  rintro ⟨t', b, hparse, h⟩
  have hrun : parseContentType "a/b;charset=\" x\"".toList ⟨[], [], false⟩ none =
      .ok (⟨['a', '/', 'b'], ['x'], true⟩, none) := by decide +kernel
  obtain ⟨rfl, rfl⟩ := Prod.mk.inj (Except.ok.inj (hrun.symm.trans hparse))
  have hvalue : charsetOf id "a/b;charset=\" x\"".toList = some [' ', 'x'] := by
    have htext : parameterText "a/b;charset=\" x\"".toList =
        ';' :: "charset=\" x\"".toList := by decide +kernel
    have hparameter : parameter id "charset=\" x\"".toList =
        ((charsetName, some [' ', 'x']), []) := by decide +kernel
    unfold charsetOf
    rw [htext, parameters, hparameter, parameters]
    decide
  have hcharset := (h.charset (by decide) _ hvalue).1
  revert hcharset
  decide

end Blinkit.Http.HttpUtil
