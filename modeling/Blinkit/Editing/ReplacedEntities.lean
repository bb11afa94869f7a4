import Blinkit.Lib.Escaping
import Blinkit.Editing.MarkupFormatter

/-!
# Replaced entities, by code units

`MarkupFormatter::AppendCharactersReplacingEntities` as it is: the string has 8-bit or 16-bit code
units, the scan is instantiated for both, and the builder widens its buffer when it has to.

* `StringBuilder` — the buffer, and `StringBuilder.text`, its code units.
* `CharType` — what the instances of the template differ in.
* `appendCharactersReplacingEntitiesInternal` — the scan by positions.
* `Asked mask c` — the mask asks to escape the character `c`.
* `RoundTrips mask source output` — the output is made of entities and of characters that need not
  be escaped, and replacing the entities gives the source back.

Principal results: `appendCharactersReplacingEntitiesInternal_text` and `entities_roundTrip`.
-/

set_option autoImplicit false

namespace Blinkit.Editing

open Escaping

abbrev LChar := UInt8

abbrev UChar := UInt16

/-- Characters of one byte, widened. -/
def widened (characters : List LChar) : List UChar := characters.map UInt8.toUInt16

/-! ## The builder -/

/-- `StringBuilder`: its buffer is one of two widths. -/
inductive StringBuilder where
  | buffer8 (units : List LChar)
  | buffer16 (units : List UChar)

namespace StringBuilder

/-- What `operator[]` reads. -/
def text : StringBuilder → List UChar
  | buffer8 units => widened units
  | buffer16 units => units

/-- `Append(const LChar*, unsigned)`. -/
def append8 (characters : List LChar) : StringBuilder → StringBuilder
  | buffer8 units => buffer8 (units ++ characters)
  | buffer16 units => buffer16 (units ++ widened characters)

/-- `Append(UChar)`. -/
def append (c : UChar) : StringBuilder → StringBuilder
  | buffer8 units =>
    if c ≤ 0xFF then buffer8 (units ++ [c.toUInt8]) else buffer16 (widened units ++ [c])
  | buffer16 units => buffer16 (units ++ [c])

/-- `Append(const UChar*, unsigned)`: a single character may leave the buffer as it is. -/
def append16 (b : StringBuilder) : List UChar → StringBuilder
  | [] => b
  | [c] => b.append c
  | characters => buffer16 (b.text ++ characters)

theorem append8_text (characters : List LChar) (b : StringBuilder) :
    (b.append8 characters).text = b.text ++ widened characters := by
  cases b with
  | buffer8 units => exact List.map_append
  | buffer16 units => rfl

theorem append_text (c : UChar) (b : StringBuilder) : (b.append c).text = b.text ++ [c] := by
  cases b with
  | buffer8 units =>
    show StringBuilder.text (if c ≤ 0xFF then _ else _) = _
    split
    · rename_i hc
      have hwide : c.toUInt8.toUInt16 = c := by
        apply UInt16.toNat.inj
        have hle : c.toNat ≤ (0xFF : UChar).toNat := UInt16.le_iff_toNat_le.mp hc
        have hbyte : (0xFF : UChar).toNat = 255 := rfl
        rw [UInt8.toNat_toUInt16, UInt16.toNat_toUInt8]
        omega
      show widened (units ++ [c.toUInt8]) = widened units ++ [c]
      unfold widened
      rw [List.map_append, List.map_singleton, hwide]
    · rfl
  | buffer16 units => rfl

theorem append16_text (characters : List UChar) (b : StringBuilder) :
    (b.append16 characters).text = b.text ++ characters := by
  unfold append16
  split
  · exact (List.append_nil _).symm
  · exact append_text _ b
  · rfl

end StringBuilder

/-- A `String`, of either width. -/
inductive WTFString where
  | characters8 (units : List LChar)
  | characters16 (units : List UChar)

namespace WTFString

def length : WTFString → Nat
  | characters8 units => units.length
  | characters16 units => units.length

def text : WTFString → List UChar
  | characters8 units => widened units
  | characters16 units => units

theorem length_text (s : WTFString) : s.text.length = s.length := by
  cases s with
  | characters8 units => exact List.length_map _
  | characters16 units => rfl

end WTFString

/-- A replacement for one character of a text. -/
def substituted (pattern : LChar) (replacement : List LChar) (u : UChar) : List UChar :=
  if u = pattern.toUInt16 then widened replacement else [u]

/-- `String::Replace(UChar, const LChar*)` for a character of one byte. -/
def WTFString.replace (pattern : LChar) (replacement : List LChar) : WTFString → WTFString
  | characters8 units => characters8 (units.flatMap fun u => if u = pattern then replacement else [u])
  | characters16 units =>
    characters16 (units.flatMap (substituted pattern replacement))

theorem WTFString.replace_text (pattern : LChar) (replacement : List LChar) (s : WTFString) :
    (s.replace pattern replacement).text = s.text.flatMap (substituted pattern replacement) := by
  cases s with
  | characters8 units =>
    show widened (units.flatMap _) = (widened units).flatMap _
    unfold widened
    rw [List.map_flatMap, List.flatMap_map]
    refine congrArg units.flatMap (funext fun u => ?_)
    rw [apply_ite (List.map UInt8.toUInt16)]
    refine if_congr ?_ rfl rfl
    exact ⟨congrArg _, fun h => UInt8.toUInt16_inj.mp h⟩
  | characters16 units => rfl

/-- `Append` of a string. -/
def StringBuilder.appendString (b : StringBuilder) : WTFString → StringBuilder
  | .characters8 units => b.append8 units
  | .characters16 units => b.append16 units

theorem StringBuilder.appendString_text (b : StringBuilder) (s : WTFString) :
    (b.appendString s).text = b.text ++ s.text := by
  cases s with
  | characters8 units => exact b.append8_text units
  | characters16 units => exact b.append16_text units

/-- **The template parameter**: how its characters compare with others, and how they are
appended. -/
structure CharType (α : Type) where
  toUChar : α → UChar
  append : StringBuilder → List α → StringBuilder
  append_text : ∀ b cs, (append b cs).text = b.text ++ cs.map toUChar

def lChar : CharType LChar := ⟨UInt8.toUInt16, fun b cs => b.append8 cs, fun b cs =>
  b.append8_text cs⟩

def uChar : CharType UChar := ⟨id, StringBuilder.append16, fun b cs => by
  rw [List.map_id]
  exact b.append16_text cs⟩

/-! ## The scan -/

/-- The characters of a literal. -/
def literal (s : String) : List LChar := s.toList.map fun c => c.val.toUInt8

/-- The entity as a code unit. -/
def EntityDescription.unit (e : EntityDescription) : UChar := e.entity.val.toUInt16

/-- The data of the reference. -/
def EntityDescription.data (e : EntityDescription) : List LChar := literal e.reference

/-- The entity as an entry of a code. -/
def EntityDescription.entry (e : EntityDescription) : Entry UChar := ⟨e.unit, widened e.data⟩

namespace CodeUnits

/-- The inner loop over the entity maps. -/
def findUnit (entityMask : Nat) (c : UChar) : Option EntityDescription :=
  kEntityMaps.find? fun e => c == e.unit && e.mask &&& entityMask != 0

section Scan

variable {α : Type} (w : CharType α) (text : List α) (entityMask : Nat)

/-- The characters from one position up to another. -/
def segment (start stop : Nat) : List α := (text.drop start).take (stop - start)

/-- One round of the outer loop, on the builder and `position_after_last_entity`. -/
def scanRound (state : StringBuilder × Nat) (i : Nat) : StringBuilder × Nat :=
  match text[i]? with
  | none => state
  | some c =>
    match findUnit entityMask (w.toUChar c) with
    | some e => ((w.append state.1 (segment text state.2 i)).append8 e.data, i + 1)
    | none => state

/-- `AppendCharactersReplacingEntitiesInternal`. -/
def appendCharactersReplacingEntitiesInternal (result : StringBuilder) : StringBuilder :=
  let state := (List.range text.length).foldl (scanRound w text entityMask) (result, 0)
  w.append state.1 (segment text state.2 text.length)

end Scan

/-- `MarkupFormatter::AppendCharactersReplacingEntities`. -/
def appendCharactersReplacingEntities (result : StringBuilder) (source : WTFString)
    (offset length entityMask : Nat) : StringBuilder :=
  if offset + length = 0 then result
  else
    match source with
    | .characters8 units =>
      appendCharactersReplacingEntitiesInternal lChar ((units.drop offset).take length) entityMask
        result
    | .characters16 units =>
      appendCharactersReplacingEntitiesInternal uChar ((units.drop offset).take length) entityMask
        result

/-- `MarkupFormatter::AppendAttributeValue`. -/
def appendAttributeValue (result : StringBuilder) (value : WTFString) (documentIsHTML : Bool) :
    StringBuilder :=
  appendCharactersReplacingEntities result value 0 value.length
    (if documentIsHTML then kEntityMaskInHTMLAttributeValue else kEntityMaskInAttributeValue)

/-- `MarkupFormatter::AppendQuotedURLAttributeValue` on the string that `ResolveURLIfNeeded`
returns. -/
def appendQuotedURLAttributeValue (result : StringBuilder) (url : WTFString) : StringBuilder :=
  if (widened (literal "javascript:")).isPrefixOf url.text then
    let url := if 0x26 ∈ url.text then url.replace 0x26 (literal "&amp;") else url
    let quoteChar : UChar := if 0x22 ∈ url.text ∧ 0x27 ∉ url.text then 0x27 else 0x22
    let url :=
      if 0x22 ∈ url.text ∧ 0x27 ∈ url.text then url.replace 0x22 (literal "&quot;") else url
    ((result.append quoteChar).appendString url).append quoteChar
  else (appendAttributeValue (result.append 0x22) url false).append 0x22

/-- `MarkupFormatter::AppendText`. -/
def appendText (scripting : Bool) (parent : Option String) (result : StringBuilder)
    (data : WTFString) : StringBuilder :=
  appendCharactersReplacingEntities result data 0 data.length (entityMaskForText scripting parent)

/-! ## The entities as references -/

def entries : List (Entry UChar) := kEntityMaps.map EntityDescription.entry

def ampersand : UChar := 0x26

/-- The mask asks to escape the character. -/
def Asked (entityMask : Nat) (c : UChar) : Prop :=
  ∃ e ∈ kEntityMaps, e.unit = c ∧ e.mask &&& entityMask ≠ 0

/-- **The output is the source with entities for the characters that the mask asks for, and replacing
the entities gives the source back**, both piece by piece and by reading the output. -/
structure RoundTrips (entityMask : Nat) (source output : List UChar) : Prop where
  pieces : ∃ ps : List (Piece UChar), ps.flatMap Piece.written = output ∧
    ps.map Piece.stands = source ∧ (∀ c, .plain c ∈ ps → ¬ Asked entityMask c) ∧
    ∀ e, .reference e ∈ ps → e ∈ entries ∧ Asked entityMask e.char
  decoded : decode entries output = source

/-- What a builder has got appended. -/
def Appends (entityMask : Nat) (result result' : StringBuilder) (source : List UChar) : Prop :=
  ∃ output, result'.text = result.text ++ output ∧ RoundTrips entityMask source output

/-- The entities in a quoted URL: those of an attribute value, but in a script URL only `&`, and `"`
when there are quotes of both kinds. -/
def quotedURLMask (url : WTFString) : Nat :=
  if (widened (literal "javascript:")).isPrefixOf url.text then
    if 0x22 ∈ url.text ∧ 0x27 ∈ url.text then kEntityAmp ||| kEntityQuot else kEntityAmp
  else kEntityMaskInAttributeValue

/-- The quotes of a quoted URL: single ones for a script URL that has only double ones. -/
def quotedURLQuoteChar (url : WTFString) : UChar :=
  if (widened (literal "javascript:")).isPrefixOf url.text ∧ 0x22 ∈ url.text ∧ 0x27 ∉ url.text then
    0x27
  else 0x22

def entryFor (entityMask : Nat) (c : UChar) : Option (Entry UChar) :=
  (findUnit entityMask c).map EntityDescription.entry

theorem unambiguous_entries : Unambiguous ampersand entries where
  marked := by
    show ∀ e ∈ entries, e.reference.head? = some ampersand
    decide +kernel
  separate := by
    show ∀ e ∈ entries, ∀ e' ∈ entries, e.reference <+: e'.reference → e = e'
    decide +kernel

theorem findUnit_some {entityMask : Nat} {c : UChar} {e : EntityDescription}
    (he : findUnit entityMask c = some e) :
    e ∈ kEntityMaps ∧ e.unit = c ∧ e.mask &&& entityMask ≠ 0 := by
  have hfound : (c == e.unit && e.mask &&& entityMask != 0) = true :=
    List.find?_some (p := fun e : EntityDescription => c == e.unit && e.mask &&& entityMask != 0) he
  rw [Bool.and_eq_true, beq_iff_eq, bne_iff_ne] at hfound
  exact ⟨List.mem_of_find?_eq_some he, hfound.1.symm, hfound.2⟩

theorem findUnit_none {entityMask : Nat} {c : UChar} :
    findUnit entityMask c = none ↔ ¬ Asked entityMask c := by
  unfold findUnit Asked
  rw [List.find?_eq_none]
  constructor
  · rintro hnone ⟨e, hmem, rfl, hmask⟩
    exact hnone e hmem (by simp [hmask])
  · intro hasked e hmem hfound
    rw [Bool.and_eq_true, beq_iff_eq, bne_iff_ne] at hfound
    exact hasked ⟨e, hmem, hfound.1.symm, hfound.2⟩

theorem entryFor_some {entityMask : Nat} {c : UChar} {e : Entry UChar}
    (he : entryFor entityMask c = some e) :
    e ∈ entries ∧ e.char = c ∧ Asked entityMask e.char := by
  obtain ⟨d, hd, rfl⟩ := Option.map_eq_some_iff.mp he
  obtain ⟨hmem, hunit, hmask⟩ := findUnit_some hd
  exact ⟨List.mem_map_of_mem hmem, hunit, d, hmem, rfl, hmask⟩

/-- With the bit for `&` the mask asks for the marker. -/
theorem entryFor_ampersand {entityMask : Nat} (hmask : entityMask &&& kEntityAmp ≠ 0) :
    entryFor entityMask ampersand ≠ none := by
  unfold entryFor
  rw [Ne, Option.map_eq_none_iff, findUnit_none, not_not]
  exact ⟨⟨'&', "&amp;", kEntityAmp⟩, List.mem_cons_self, by decide, by rwa [Nat.and_comm]⟩

/-- **An escaped text round trips.** -/
theorem roundTrips_escape {entityMask : Nat} (hmask : entityMask &&& kEntityAmp ≠ 0)
    (source : List UChar) :
    RoundTrips entityMask source (Escaping.escape (entryFor entityMask) source) where
  pieces := by
    refine ⟨source.map (piece (entryFor entityMask)), rfl,
      stands_pieces _ (fun c e he => (entryFor_some he).2.1) source, fun c hc => ?_, fun e he => ?_⟩
    · obtain ⟨c', -, hpiece⟩ := List.mem_map.mp hc
      unfold piece at hpiece
      split at hpiece
      · cases hpiece
      · rename_i hnone
        obtain rfl := Piece.plain.inj hpiece
        exact findUnit_none.mp (Option.map_eq_none_iff.mp hnone)
    · obtain ⟨c, -, hpiece⟩ := List.mem_map.mp he
      unfold piece at hpiece
      split at hpiece
      · rename_i e' he'
        obtain rfl := Piece.reference.inj hpiece
        exact ⟨(entryFor_some he').1, (entryFor_some he').2.2⟩
      · cases hpiece
  decoded := decode_escape unambiguous_entries
    (fun c e he => ⟨(entryFor_some he).1, (entryFor_some he).2.1⟩) (entryFor_ampersand hmask) source

/-! ## The scan writes the escaped text -/

section Scan

variable {α : Type} (w : CharType α) (text : List α) (entityMask : Nat)

/-- After `i` rounds: the text before `i` is escaped in the builder, but for the segment behind the
last entity. -/
structure Scanned (result : StringBuilder) (i : Nat) (state : StringBuilder × Nat) : Prop where
  position : state.2 ≤ i
  escaped : state.1.text ++ (segment text state.2 i).map w.toUChar =
    result.text ++ Escaping.escape (entryFor entityMask) ((text.take i).map w.toUChar)

variable {w text entityMask} {result : StringBuilder} {i : Nat} {state : StringBuilder × Nat}

theorem Scanned.round (s : Scanned w text entityMask result i state) (hi : i < text.length) :
    Scanned w text entityMask result (i + 1) (scanRound w text entityMask state i) := by
  have htake : (text.take (i + 1)).map w.toUChar =
      (text.take i).map w.toUChar ++ [w.toUChar text[i]] := by
    rw [List.take_add_one, List.getElem?_eq_getElem hi, List.map_append]
    rfl
  have hescape := Escaping.escape_append (entryFor entityMask) ((text.take i).map w.toUChar)
    [w.toUChar text[i]]
  unfold scanRound
  rw [List.getElem?_eq_getElem hi]
  simp only
  cases hfind : findUnit entityMask (w.toUChar text[i]) with
  | some e =>
    have hpiece : piece (entryFor entityMask) (w.toUChar text[i]) = .reference e.entry := by
      unfold piece entryFor
      rw [hfind]
      rfl
    refine ⟨Nat.le_refl _, ?_⟩
    rw [htake, hescape, escape_cons, hpiece, StringBuilder.append8_text, w.append_text, s.escaped]
    simp [segment, EntityDescription.entry, Piece.written]
  | none =>
    have hpiece : piece (entryFor entityMask) (w.toUChar text[i]) = .plain (w.toUChar text[i]) := by
      unfold piece entryFor
      rw [hfind]
      rfl
    refine ⟨Nat.le_succ_of_le s.position, ?_⟩
    have hsegment : segment text state.2 (i + 1) = segment text state.2 i ++ [text[i]] := by
      have hp := s.position
      unfold segment
      rw [show i + 1 - state.2 = (i - state.2) + 1 from by omega, List.take_add_one,
        List.getElem?_drop, show state.2 + (i - state.2) = i from by omega,
        List.getElem?_eq_getElem hi]
      rfl
    rw [htake, hescape, escape_cons, hpiece, hsegment, List.map_append, ← List.append_assoc,
      s.escaped]
    simp [Piece.written]

theorem scanned (result : StringBuilder) {n : Nat} (hn : n ≤ text.length) :
    Scanned w text entityMask result n
      ((List.range n).foldl (scanRound w text entityMask) (result, 0)) := by
  induction n with
  | zero => exact ⟨Nat.le_refl 0, by simp [segment]⟩
  | succ n ih =>
    rw [List.range_succ, List.foldl_append]
    exact (ih (by omega)).round hn

/-- **The scan appends the escaped text, whatever the width.** -/
theorem appendCharactersReplacingEntitiesInternal_text (w : CharType α) (text : List α)
    (entityMask : Nat) (result : StringBuilder) :
    (appendCharactersReplacingEntitiesInternal w text entityMask result).text =
      result.text ++ Escaping.escape (entryFor entityMask) (text.map w.toUChar) := by
  have hall : Scanned w text entityMask result text.length _ := scanned result (Nat.le_refl _)
  have s := hall.escaped
  rw [List.take_length] at s
  exact (w.append_text _ _).trans s

end Scan

theorem appendCharactersReplacingEntities_text (result : StringBuilder) (source : WTFString)
    (offset length entityMask : Nat) :
    (appendCharactersReplacingEntities result source offset length entityMask).text =
      result.text ++ Escaping.escape (entryFor entityMask)
        ((source.text.drop offset).take length) := by
  unfold appendCharactersReplacingEntities
  split
  · rename_i hzero
    obtain rfl : length = 0 := by omega
    rw [List.take_zero, escape_nil, List.append_nil]
  · cases source with
    | characters8 units =>
      rw [appendCharactersReplacingEntitiesInternal_text, List.map_take, List.map_drop]
      rfl
    | characters16 units =>
      rw [appendCharactersReplacingEntitiesInternal_text]
      show _ ++ Escaping.escape _ (List.map id _) = _
      rw [List.map_id]
      rfl

/-- The masks for text and for attribute values ask for `&`, but for the text of raw elements. -/
theorem mask_ampersand (scripting : Bool) (parent : Option String) :
    entityMaskForText scripting parent = kEntityMaskInCDATA ∨
      entityMaskForText scripting parent &&& kEntityAmp ≠ 0 := by
  unfold entityMaskForText
  split
  · exact .inr (by decide)
  · split
    · exact .inl rfl
    · exact .inr (by decide)

theorem appends_entities {entityMask : Nat} (hmask : entityMask &&& kEntityAmp ≠ 0)
    (result : StringBuilder) (source : WTFString) :
    Appends entityMask result
      (appendCharactersReplacingEntities result source 0 source.length entityMask) source.text := by
  refine ⟨_, ?_, roundTrips_escape hmask source.text⟩
  rw [appendCharactersReplacingEntities_text, List.drop_zero, ← source.length_text, List.take_length]

/-! ## Script URLs -/

/-- Nothing happens to a text without the character. -/
theorem replaceContained_text {pattern : LChar} {replacement : List LChar} {p : Prop} [Decidable p]
    {url : WTFString} (hp : pattern.toUInt16 ∈ url.text → p) :
    (if p then url.replace pattern replacement else url).text =
      url.text.flatMap (substituted pattern replacement) := by
  split
  · exact url.replace_text pattern replacement
  · rename_i hnot
    refine ((List.flatMap_congr fun u hu => ?_).trans (List.flatMap_singleton' url.text)).symm
    refine if_neg ?_
    rintro rfl
    exact hnot (hp hu)

theorem written_amp (u : UChar) :
    (piece (entryFor kEntityAmp) u).written = substituted 0x26 (literal "&amp;") u := by
  have hentries : ∀ e ∈ kEntityMaps, e.mask &&& kEntityAmp ≠ 0 →
      e.unit = 0x26 ∧ e.data = literal "&amp;" := by decide +kernel
  unfold piece entryFor substituted
  cases hfind : findUnit kEntityAmp u with
  | none =>
    refine (if_neg ?_).symm
    rintro rfl
    exact findUnit_none.mp hfind (by unfold Asked; decide)
  | some e =>
    obtain ⟨hmem, rfl, hmask⟩ := findUnit_some hfind
    obtain ⟨hunit, hdata⟩ := hentries e hmem hmask
    refine Eq.trans ?_ (if_pos hunit).symm
    rw [← hdata]
    rfl

theorem written_amp_quot (u : UChar) :
    (piece (entryFor (kEntityAmp ||| kEntityQuot)) u).written =
      (substituted 0x26 (literal "&amp;") u).flatMap (substituted 0x22 (literal "&quot;")) := by
  have hentries : ∀ e ∈ kEntityMaps, e.mask &&& (kEntityAmp ||| kEntityQuot) ≠ 0 →
      widened e.data = (substituted 0x26 (literal "&amp;") e.unit).flatMap
        (substituted 0x22 (literal "&quot;")) := by decide +kernel
  unfold piece entryFor
  cases hfind : findUnit (kEntityAmp ||| kEntityQuot) u with
  | none =>
    have hasked := findUnit_none.mp hfind
    have hamp : u ≠ (0x26 : LChar).toUInt16 := by
      rintro rfl
      exact hasked (by unfold Asked; decide)
    have hquot : u ≠ (0x22 : LChar).toUInt16 := by
      rintro rfl
      exact hasked (by unfold Asked; decide)
    unfold substituted
    rw [if_neg hamp, List.flatMap_singleton, if_neg hquot]
    rfl
  | some e =>
    obtain ⟨hmem, rfl, hmask⟩ := findUnit_some hfind
    exact hentries e hmem hmask

/-- The replacement of `&` neither brings nor takes other characters. -/
theorem mem_substituted_amp {c : UChar} (hc : c ∉ widened (literal "&amp;")) (text : List UChar) :
    c ∈ text.flatMap (substituted 0x26 (literal "&amp;")) ↔ c ∈ text := by
  rw [List.mem_flatMap]
  constructor
  · rintro ⟨u, hu, hmem⟩
    unfold substituted at hmem
    split at hmem
    · exact absurd hmem hc
    · rwa [List.mem_singleton.mp hmem]
  · intro hmem
    refine ⟨c, hmem, ?_⟩
    unfold substituted
    split
    · rename_i heq
      exact absurd (heq ▸ (by decide : (0x26 : LChar).toUInt16 ∈ widened (literal "&amp;"))) hc
    · exact List.mem_singleton.mpr rfl

theorem quotedURLMask_amp (url : WTFString) : quotedURLMask url &&& kEntityAmp ≠ 0 := by
  unfold quotedURLMask
  split
  · split <;> decide
  · decide

/-- **A quoted URL**: what stands between the quotes is the string with entities. -/
theorem appendQuotedURLAttributeValue_text (result : StringBuilder) (url : WTFString) :
    (appendQuotedURLAttributeValue result url).text =
      result.text ++ quotedURLQuoteChar url ::
        Escaping.escape (entryFor (quotedURLMask url)) url.text ++ [quotedURLQuoteChar url] := by
  unfold appendQuotedURLAttributeValue quotedURLMask quotedURLQuoteChar
  by_cases hscript : (widened (literal "javascript:")).isPrefixOf url.text = true
  · have hamp : (if 0x26 ∈ url.text then url.replace 0x26 (literal "&amp;") else url).text =
        url.text.flatMap (substituted 0x26 (literal "&amp;")) :=
      replaceContained_text id
    simp only [hscript, if_true, true_and]
    generalize (if 0x26 ∈ url.text then url.replace 0x26 (literal "&amp;") else url) = url' at hamp
    have hdouble : 0x22 ∈ url'.text ↔ 0x22 ∈ url.text := by
      rw [hamp]
      exact mem_substituted_amp (by decide) url.text
    have hsingle : 0x27 ∈ url'.text ↔ 0x27 ∈ url.text := by
      rw [hamp]
      exact mem_substituted_amp (by decide) url.text
    simp only [hdouble, hsingle]
    generalize (if 0x22 ∈ url.text ∧ 0x27 ∉ url.text then (0x27 : UChar) else 0x22) = quoteChar
    by_cases hboth : 0x22 ∈ url.text ∧ 0x27 ∈ url.text
    · have hquot := url'.replace_text 0x22 (literal "&quot;")
      rw [if_pos hboth, if_pos hboth, StringBuilder.append_text, StringBuilder.appendString_text,
        StringBuilder.append_text, hquot, hamp, List.flatMap_assoc]
      unfold Escaping.escape
      rw [List.flatMap_map]
      simp only [written_amp_quot]
      simp
    · rw [if_neg hboth, if_neg hboth, StringBuilder.append_text, StringBuilder.appendString_text,
        StringBuilder.append_text, hamp]
      unfold Escaping.escape
      rw [List.flatMap_map]
      simp only [written_amp]
      simp
  · rw [if_neg hscript, if_neg hscript, if_neg fun h => hscript h.1, StringBuilder.append_text]
    unfold appendAttributeValue
    rw [if_neg Bool.false_ne_true, appendCharactersReplacingEntities_text,
      StringBuilder.append_text,
      List.drop_zero, ← url.length_text, List.take_length]
    simp

end CodeUnits

end Blinkit.Editing
