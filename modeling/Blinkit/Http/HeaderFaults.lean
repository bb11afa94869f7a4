import Blinkit.Http.HeaderMap

/-!
# What a header block can break

`ParseHeaders` asserts that a status line is found, converts its digits with `std::stoi`, which
throws when they do not fit an `int`, and hands the pairs to `BkHTTPHeaderMap::Set`, which asserts
that neither half holds a line break.  The text was cut at line feeds, but a carriage return can
stand inside a line.

* `Fault` : a failed assertion or an exception
* `parseHeadersChecked` : the parser with its assertions
* `Handled` : the call returns, and the status code and the headers are those of the block or
  what they were
* `Acceptable` : the blocks that the parser is safe on

Principal results: `parseHeadersChecked_ok`, `parseHeaders_handled_iff`, `headerBlock_handled`.
-/

set_option autoImplicit false

namespace Blinkit.Http

open Blinkit.Lib.Text HeaderMap

/-! ## The parser with its assertions -/

inductive Fault where
  | invalidHeader
  | outOfRange
  | lineBreak
  deriving DecidableEq

/-- `BkHTTPHeaderMap::Set` with its assertions. -/
def BkHTTPHeaderMap.setChecked (m : BkHTTPHeaderMap) (name val : Str) :
    Except Fault BkHTTPHeaderMap :=
  if hasLineBreak name then .error .lineBreak
  else if hasLineBreak val then .error .lineBreak
  else .ok (m.set name val)

/-- The body of the loop over the pairs. -/
def ResponseImpl.storeHeaderChecked (r : ResponseImpl) (kv : Str × Str) :
    Except Fault ResponseImpl :=
  let k := trimWhitespaceASCII kv.1
  let v := trimWhitespaceASCII kv.2
  if equalsCaseInsensitiveASCII (cStr k) setCookie then .ok { r with cookies := r.cookies ++ [v] }
  else
    match r.headers.setChecked k v with
    | .error e => .error e
    | .ok headers => .ok { r with headers := headers }

/-- The loop over the pairs. -/
def ResponseImpl.storeHeadersChecked (r : ResponseImpl) :
    List (Str × Str) → Except Fault ResponseImpl
  | [] => .ok r
  | kv :: headers =>
    match r.storeHeaderChecked kv with
    | .error e => .error e
    | .ok r => r.storeHeadersChecked headers

/-- `ResponseImpl::ParseHeaders` with its assertions and its exception. -/
def ResponseImpl.parseHeadersChecked (r : ResponseImpl) (rawHeaders : Str) :
    Except Fault ResponseImpl :=
  match regexSearch rawHeaders with
  | none => .error .invalidHeader
  | some (length, code) =>
    match stoi code with
    | none => .error .outOfRange
    | some statusCode =>
      let r := { r with statusCode := statusCode }
      match afterLineFeed rawHeaders length with
      | none => .ok r
      | some input =>
        match splitStringIntoKeyValuePairs input ':' '\n' with
        | (false, _) => .ok r
        | (true, headers) => r.storeHeadersChecked headers

/-! ## What the claim of safety says -/

/-- The status code that a block names. -/
def blockStatus (rawHeaders : Str) : Option Nat :=
  (regexSearch rawHeaders).map fun m => digitsValue m.2

/-- The pairs of a block, when each of its lines is a pair. -/
def blockPairs (rawHeaders : Str) : Option (List (Str × Str)) :=
  match regexSearch rawHeaders with
  | none => none
  | some (length, _) =>
    match afterLineFeed rawHeaders length with
    | none => none
    | some input =>
      match splitStringIntoKeyValuePairs input ':' '\n' with
      | (false, _) => none
      | (true, headers) => some headers

/-- The pair is a cookie, which is not kept in the map. -/
def isCookie (kv : Str × Str) : Bool :=
  equalsCaseInsensitiveASCII (cStr (trimWhitespaceASCII kv.1)) setCookie

/-- The map with the headers of a block. -/
def BkHTTPHeaderMap.setAll (m : BkHTTPHeaderMap) (headers : List (Str × Str)) : BkHTTPHeaderMap :=
  (headers.filter fun kv => !isCookie kv).foldl
    (fun m kv => m.set (trimWhitespaceASCII kv.1) (trimWhitespaceASCII kv.2)) m

/-- The call returns, and what it leaves is of the block or unchanged. -/
def Handled (r : ResponseImpl) (rawHeaders : Str) (result : Except Fault ResponseImpl) : Prop :=
  ∃ r', result = .ok r' ∧
    (r'.statusCode = r.statusCode ∨ blockStatus rawHeaders = some r'.statusCode) ∧
    (r'.headers = r.headers ∨
      ∃ headers, blockPairs rawHeaders = some headers ∧ r'.headers = r.headers.setAll headers)

/-- A carriage return is left in a half of the pair. -/
def strayReturn (kv : Str × Str) : Bool :=
  decide ('\r' ∈ trimWhitespaceASCII kv.1) || decide ('\r' ∈ trimWhitespaceASCII kv.2)

/-- There is a status line, its code fits an `int`, and no pair for the map has a stray carriage
return. -/
structure Acceptable (rawHeaders : Str) : Prop where
  status : ∃ code, blockStatus rawHeaders = some code ∧ code ≤ 2147483647
  returns : ∀ headers, blockPairs rawHeaders = some headers →
    ∀ kv ∈ headers, isCookie kv = false → strayReturn kv = false

/-! ## The pairs -/

theorem mem_trim {c : Char} {s : Str} (h : c ∈ trimWhitespaceASCII s) : c ∈ s := by
  unfold trimWhitespaceASCII trim at h
  exact (List.dropWhile_sublist _).subset ((List.rdropWhile_prefix _ _).sublist.subset h)

theorem lineFeed_not_mem_piece {input piece : Str} (h : piece ∈ splitStringPiece input '\n') :
    '\n' ∉ piece := by
  unfold splitStringPiece at h
  obtain ⟨x, hx, rfl⟩ := List.mem_map.mp (List.mem_filter.mp h).1
  intro hmem
  exact not_mem_of_mem_splitOn hx (mem_trim hmem)

theorem mem_appendStringKeyValue {d c : Char} {input : Str}
    (h : c ∈ (appendStringKeyValue d input).2.1 ∨ c ∈ (appendStringKeyValue d input).2.2) :
    c ∈ input := by
  have hkey : ∀ x ∈ input.takeWhile (· ≠ d), x ∈ input :=
    fun x hx => (List.takeWhile_sublist _).subset hx
  have hvalue : ∀ x ∈ (input.dropWhile (· ≠ d)).dropWhile (· = d), x ∈ input := fun x hx =>
    (List.dropWhile_sublist _).subset ((List.dropWhile_sublist _).subset hx)
  unfold appendStringKeyValue at h
  split at h
  · simp at h
  · dsimp only at h
    split at h
    · rcases h with h | h
      · exact hkey c h
      · cases h
    · rcases h with h | h
      · exact hkey c h
      · exact hvalue c h

/-- The text was cut at the line feeds, so no half of a pair has one. -/
theorem lineFeed_not_mem_pair {input : Str} {kv : Str × Str}
    (h : kv ∈ (splitStringIntoKeyValuePairs input ':' '\n').2) :
    '\n' ∉ trimWhitespaceASCII kv.1 ∧ '\n' ∉ trimWhitespaceASCII kv.2 := by
  unfold splitStringIntoKeyValuePairs at h
  simp only [List.map_map, List.mem_map, Function.comp_apply] at h
  obtain ⟨piece, hpiece, rfl⟩ := h
  have hnone := lineFeed_not_mem_piece hpiece
  constructor
  · intro hmem
    exact hnone (mem_appendStringKeyValue (.inl (mem_trim hmem)))
  · intro hmem
    exact hnone (mem_appendStringKeyValue (.inr (mem_trim hmem)))

theorem hasLineBreak_eq {s : Str} (h : '\n' ∉ s) : hasLineBreak s = decide ('\r' ∈ s) := by
  rw [Bool.eq_iff_iff]
  unfold hasLineBreak isLineBreak
  simp only [List.any_eq_true, Bool.or_eq_true, beq_iff_eq, decide_eq_true_eq]
  constructor
  · rintro ⟨c, hc, rfl | rfl⟩
    · exact hc
    · exact absurd hc h
  · intro hr
    exact ⟨'\r', hr, .inl rfl⟩

/-- One pair is stored exactly when it is a cookie or has no stray carriage return. -/
theorem storeHeaderChecked_eq (r : ResponseImpl) {kv : Str × Str}
    (h : '\n' ∉ trimWhitespaceASCII kv.1 ∧ '\n' ∉ trimWhitespaceASCII kv.2) :
    r.storeHeaderChecked kv =
      if isCookie kv = false ∧ strayReturn kv = true then .error .lineBreak
      else .ok (r.storeHeader kv) := by
  unfold ResponseImpl.storeHeaderChecked ResponseImpl.storeHeader isCookie strayReturn
  dsimp only
  split
  · rename_i hcookie
    rw [if_neg]
    rintro ⟨hnot, -⟩
    rw [hcookie] at hnot
    cases hnot
  · rename_i hcookie
    unfold BkHTTPHeaderMap.setChecked
    rw [hasLineBreak_eq h.1, hasLineBreak_eq h.2]
    by_cases hk : '\r' ∈ trimWhitespaceASCII kv.1
    · simp [hk, hcookie]
    · by_cases hv : '\r' ∈ trimWhitespaceASCII kv.2
      · simp [hk, hv, hcookie]
      · simp [hk, hv]

/-! ## The loop -/

theorem storeHeader_statusCode (r : ResponseImpl) (kv : Str × Str) :
    (r.storeHeader kv).statusCode = r.statusCode := by
  unfold ResponseImpl.storeHeader
  dsimp only
  split <;> rfl

theorem storeHeader_headers (r : ResponseImpl) (kv : Str × Str) :
    (r.storeHeader kv).headers = r.headers.setAll [kv] := by
  unfold ResponseImpl.storeHeader BkHTTPHeaderMap.setAll isCookie
  dsimp only
  split
  · rename_i hcookie
    simp [hcookie]
  · rename_i hcookie
    simp [hcookie]

/-- What the loop of the parser leaves. -/
theorem foldl_storeHeader (r : ResponseImpl) (headers : List (Str × Str)) :
    (headers.foldl ResponseImpl.storeHeader r).statusCode = r.statusCode ∧
    (headers.foldl ResponseImpl.storeHeader r).headers = r.headers.setAll headers := by
  induction headers generalizing r with
  | nil => exact ⟨rfl, rfl⟩
  | cons kv headers ih =>
    obtain ⟨hstatus, hheaders⟩ := ih (r.storeHeader kv)
    rw [List.foldl_cons]
    refine ⟨hstatus.trans (storeHeader_statusCode r kv), ?_⟩
    rw [hheaders, storeHeader_headers]
    unfold BkHTTPHeaderMap.setAll
    rw [← List.foldl_append, ← List.filter_append, List.singleton_append]

/-- The pairs are stored exactly when each of them is. -/
theorem storeHeadersChecked_iff (r : ResponseImpl) {headers : List (Str × Str)}
    (h : ∀ kv ∈ headers, '\n' ∉ trimWhitespaceASCII kv.1 ∧ '\n' ∉ trimWhitespaceASCII kv.2)
    (result : ResponseImpl) :
    r.storeHeadersChecked headers = .ok result ↔
      (∀ kv ∈ headers, isCookie kv = false → strayReturn kv = false) ∧
      result = headers.foldl ResponseImpl.storeHeader r := by
  induction headers generalizing r with
  | nil =>
    constructor
    · intro hok
      cases hok
      exact ⟨fun _ hkv => absurd hkv List.not_mem_nil, rfl⟩
    · rintro ⟨-, rfl⟩
      rfl
  | cons kv headers ih =>
    unfold ResponseImpl.storeHeadersChecked
    rw [storeHeaderChecked_eq r (h kv List.mem_cons_self), List.forall_mem_cons, List.foldl_cons]
    split
    · rename_i heq
      split at heq
      · rename_i hstray
        constructor
        · intro hok
          cases hok
        · rintro ⟨⟨hkv, -⟩, -⟩
          rw [hkv hstray.1] at hstray
          cases hstray.2
      · cases heq
    · rename_i r' heq
      split at heq
      · cases heq
      · rename_i hfine
        cases heq
        rw [ih (r.storeHeader kv) fun kv hkv => h kv (List.mem_cons_of_mem _ hkv)]
        have hkv : isCookie kv = false → strayReturn kv = false := by
          intro hcookie
          by_contra hstray
          exact hfine ⟨hcookie, Bool.not_eq_false _ ▸ hstray⟩
        constructor
        · rintro ⟨hrest, hresult⟩
          exact ⟨⟨hkv, hrest⟩, hresult⟩
        · rintro ⟨⟨-, hrest⟩, hresult⟩
          exact ⟨hrest, hresult⟩

/-! ## The parser -/

theorem stoi_eq_some {s : Str} {n : Nat} :
    stoi s = some n ↔ digitsValue s ≤ 2147483647 ∧ n = digitsValue s := by
  unfold stoi
  split
  · rename_i hle
    constructor
    · intro h
      exact ⟨hle, (Option.some.inj h).symm⟩
    · rintro ⟨-, rfl⟩
      rfl
  · rename_i hgt
    constructor
    · intro h
      cases h
    · rintro ⟨hle, -⟩
      exact absurd hle hgt

/-- **The parser with its assertions.** It returns exactly on the acceptable blocks, and then it
returns what the parser without them does. -/
theorem parseHeadersChecked_ok (r result : ResponseImpl) (rawHeaders : Str) :
    r.parseHeadersChecked rawHeaders = .ok result ↔
      Acceptable rawHeaders ∧ r.parseHeaders rawHeaders = some result := by
  unfold ResponseImpl.parseHeadersChecked ResponseImpl.parseHeaders
  have hacceptable : Acceptable rawHeaders ↔
      (∃ code, blockStatus rawHeaders = some code ∧ code ≤ 2147483647) ∧
      ∀ headers, blockPairs rawHeaders = some headers →
        ∀ kv ∈ headers, isCookie kv = false → strayReturn kv = false :=
    ⟨fun h => ⟨h.status, h.returns⟩, fun h => ⟨h.1, h.2⟩⟩
  rw [hacceptable]
  unfold blockStatus blockPairs
  cases hsearch : regexSearch rawHeaders with
  | none => simp
  | some m =>
    obtain ⟨length, code⟩ := m
    dsimp only [Option.map_some]
    cases hstoi : stoi code with
    | none =>
      constructor
      · intro h
        cases h
      · rintro ⟨-, h⟩
        cases h
    | some statusCode =>
      obtain ⟨hle, rfl⟩ := stoi_eq_some.mp hstoi
      have hstatus : ∃ n, some (digitsValue code) = some n ∧ n ≤ 2147483647 :=
        ⟨digitsValue code, rfl, hle⟩
      dsimp only
      cases hinput : afterLineFeed rawHeaders length with
      | none => simp [hle]
      | some input =>
        dsimp only
        cases hsplit : splitStringIntoKeyValuePairs input ':' '\n' with
        | mk success headers =>
          cases success with
          | false => simp [hle]
          | true =>
            have hnone : ∀ kv ∈ headers, '\n' ∉ trimWhitespaceASCII kv.1 ∧
                '\n' ∉ trimWhitespaceASCII kv.2 := by
              intro kv hkv
              have hmem : kv ∈ (splitStringIntoKeyValuePairs input ':' '\n').2 := by
                rw [hsplit]
                exact hkv
              exact lineFeed_not_mem_pair hmem
            dsimp only
            rw [storeHeadersChecked_iff _ hnone]
            constructor
            · rintro ⟨hreturns, rfl⟩
              refine ⟨⟨hstatus, fun _ heq => ?_⟩, rfl⟩
              cases heq
              exact hreturns
            · rintro ⟨⟨-, hreturns⟩, heq⟩
              cases heq
              exact ⟨hreturns headers rfl, rfl⟩

/-- What the parser leaves when it returns. -/
theorem parseHeaders_leaves {r result : ResponseImpl} {rawHeaders : Str}
    (h : r.parseHeaders rawHeaders = some result) :
    (result.statusCode = r.statusCode ∨ blockStatus rawHeaders = some result.statusCode) ∧
    (result.headers = r.headers ∨ ∃ headers, blockPairs rawHeaders = some headers ∧
      result.headers = r.headers.setAll headers) := by
  unfold ResponseImpl.parseHeaders at h
  unfold blockStatus blockPairs
  cases hsearch : regexSearch rawHeaders with
  | none =>
    rw [hsearch] at h
    cases h
    exact ⟨.inl rfl, .inl rfl⟩
  | some m =>
    obtain ⟨length, code⟩ := m
    simp only [hsearch] at h
    cases hstoi : stoi code with
    | none =>
      rw [hstoi] at h
      cases h
    | some statusCode =>
      obtain ⟨-, rfl⟩ := stoi_eq_some.mp hstoi
      simp only [hstoi] at h
      dsimp only [Option.map_some]
      cases hinput : afterLineFeed rawHeaders length with
      | none =>
        rw [hinput] at h
        cases h
        exact ⟨.inr rfl, .inl rfl⟩
      | some input =>
        simp only [hinput] at h
        dsimp only
        cases hsplit : splitStringIntoKeyValuePairs input ':' '\n' with
        | mk success headers =>
          rw [hsplit] at h
          cases success with
          | false =>
            cases h
            exact ⟨.inr rfl, .inl rfl⟩
          | true =>
            cases h
            obtain ⟨hstatus, hheaders⟩ :=
              foldl_storeHeader { r with statusCode := digitsValue code } headers
            exact ⟨.inr (congrArg some hstatus.symm), .inr ⟨headers, rfl, hheaders⟩⟩

/-- The parser without its assertions fails only by the conversion of the status code. -/
theorem parseHeaders_isSome {r : ResponseImpl} {rawHeaders : Str}
    (h : ∃ code, blockStatus rawHeaders = some code ∧ code ≤ 2147483647) :
    ∃ result, r.parseHeaders rawHeaders = some result := by
  obtain ⟨n, hn, hle⟩ := h
  unfold blockStatus at hn
  obtain ⟨⟨length, code⟩, hsearch, rfl⟩ := Option.map_eq_some_iff.mp hn
  have hstoi : stoi code = some (digitsValue code) := if_pos hle
  unfold ResponseImpl.parseHeaders
  simp only [hsearch, hstoi]
  split
  · exact ⟨_, rfl⟩
  · split <;> exact ⟨_, rfl⟩

/-- **When the parser survives its input.** For every text, the call returns and leaves what is of
the block or what was there exactly when the text has a status line, the code fits an `int`, and
no pair that reaches the map keeps a carriage return. -/
theorem parseHeaders_handled_iff (r : ResponseImpl) (rawHeaders : Str) :
    Handled r rawHeaders (r.parseHeadersChecked rawHeaders) ↔ Acceptable rawHeaders := by
  constructor
  · rintro ⟨result, hok, -⟩
    exact ((parseHeadersChecked_ok r result rawHeaders).mp hok).1
  · intro h
    obtain ⟨result, hresult⟩ := parseHeaders_isSome (r := r) h.status
    exact ⟨result, (parseHeadersChecked_ok r result rawHeaders).mpr ⟨h, hresult⟩,
      parseHeaders_leaves hresult⟩

def hugeStatus : Str := ['H', 'T', 'T', 'P', '/', '1', ' ', '9', '9', '9', '9', '9', '9', '9',
  '9', '9', '9']

/-- Ten digits are too many for `std::stoi`. -/
theorem parseHeaders_throws :
    ¬ Handled {} hugeStatus (({} : ResponseImpl).parseHeadersChecked hugeStatus) := by
  rintro ⟨result, hok, -⟩
  have hthrow : ({} : ResponseImpl).parseHeadersChecked hugeStatus = .error .outOfRange := rfl
  rw [hthrow] at hok
  cases hok

/-! ## Header blocks -/

/-- A line break within a line is at most the carriage return at its end, which is trimmed. -/
theorem HeaderLine.pair_fine (h : HeaderLine) : strayReturn (h.name, h.remains) = false := by
  unfold strayReturn
  simp only [Bool.or_eq_false_iff, decide_eq_false_iff_not]
  constructor
  · intro hmem
    exact absurd (h.name_chars _ (mem_trim hmem)) (by decide)
  · intro hmem
    have hseen : '\r' ∈ h.seen := (List.dropWhile_sublist _).subset (mem_trim hmem)
    have hvalue : '\r' ∈ h.value := (List.rdropWhile_prefix _ _).sublist.subset hseen
    exact absurd (h.value_chars _ hvalue) (by decide)

/-- **Every header block is handled.** No line of a block as it is written by a server that obeys
the format makes the parser fail. -/
theorem headerBlock_handled (r : ResponseImpl) (s : StatusLine) (hs : List HeaderLine)
    (blank : Nat) :
    Handled r (headerBlock s hs blank) (r.parseHeadersChecked (headerBlock s hs blank)) := by
  apply (parseHeaders_handled_iff r _).mpr
  unfold headerBlock
  rw [intercalate_eq_append]
  refine ⟨⟨digitsValue s.code, ?_, s.code_range⟩, ?_⟩
  · unfold blockStatus
    rw [regexSearch_text]
    rfl
  · intro headers hpairs kv hkv _
    unfold blockPairs at hpairs
    simp only [regexSearch_text, afterLineFeed_text] at hpairs
    by_cases hne : hs.map HeaderLine.text ++ List.replicate blank [] = []
    · rw [if_pos hne] at hpairs
      cases hpairs
    · rw [if_neg hne] at hpairs
      simp only [splitStringIntoKeyValuePairs_lines hs blank hne] at hpairs
      split at hpairs
      · cases hpairs
      · rename_i pairs heq
        obtain ⟨-, hheaders⟩ := Prod.mk.inj heq
        rw [← Option.some.inj hpairs, ← hheaders] at hkv
        obtain ⟨h, _, rfl⟩ := List.mem_map.mp hkv
        exact h.pair_fine

end Blinkit.Http
