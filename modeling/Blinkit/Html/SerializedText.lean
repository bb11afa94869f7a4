import Blinkit.Html.TokenChunks
import Blinkit.Editing.ReplacedEntities

/-!
# Serialized text is read back

A text that `MarkupFormatter::AppendText` has written is given to the tokenizer.

* `Resolves table name value` — the table has the name, for one character.
* `References table` — the names that the formatter writes.
* `inputText` — a text as the input stream preprocessor passes it on: line ends become line feeds,
  null characters are left out.
* `InText` — the eager tokenizer between two characters of a text.

Principal result: `text_roundTrip`: the tokens of a written text say the text, as the preprocessor
passes it on, whatever the pieces are in which it arrives.
-/

set_option autoImplicit false

namespace Blinkit.Html

open Feeding
open Text (Units)
open Editing (EntityDescription entityMaskForText kEntityMaps kEntityMaskInHTMLPCDATA widened
  WTFString)
open Editing.CodeUnits (Asked appendText appendCharactersReplacingEntities_text entryFor findUnit
  findUnit_none findUnit_some)

/-- The name, with a semicolon behind it, is in the table, and stands for the character. -/
def Resolves (table : HTMLEntityTable) (name : Units) (value : UInt16) : Prop :=
  ∃ i < table.entries.length, table.name i = name ++ [chr ';'] ∧ table.decoded i = [value]

/-- The names of the references in a written text. -/
structure References (table : HTMLEntityTable) : Prop where
  amp : Resolves table (['a', 'm', 'p'].map chr) 0x26
  lt : Resolves table (['l', 't'].map chr) 0x3C
  gt : Resolves table (['g', 't'].map chr) 0x3E
  nbsp : Resolves table (['n', 'b', 's', 'p'].map chr) 0xA0

/-- What is passed on for a character in the data, behind a carriage return or not. -/
def inputCharacter (skip : Bool) (c : UInt16) : Units :=
  if c = chr '\n' ∧ skip = true then []
  else if c = chr '\r' then [chr '\n']
  else if c = 0 then []
  else [c]

/-- What is passed on for a text. -/
def inputText : Bool → Units → Units
  | _, [] => []
  | skip, c :: text => inputCharacter skip c ++ inputText (c == chr '\r') text

section References

variable {table : HTMLEntityTable} {name rest : Units} {value a : UInt16}

theorem alpha_ne (h : isASCIIAlpha a = true) : ∀ c, isASCIIAlpha c = false → a ≠ c := by
  rintro c hc rfl
  rw [hc] at h
  cases h

theorem stopsReference_alpha (h : isASCIIAlpha a = true) : stopsReference 0 a = false := by
  have hne := alpha_ne h
  unfold stopsReference
  simp only [beq_eq_false_iff_ne.mpr (hne 0x09 (by decide)),
    beq_eq_false_iff_ne.mpr (hne 0x0A (by decide)), beq_eq_false_iff_ne.mpr (hne 0x0C (by decide)),
    beq_eq_false_iff_ne.mpr (hne (chr ' ') (by decide)),
    beq_eq_false_iff_ne.mpr (hne (chr '<') (by decide)),
    beq_eq_false_iff_ne.mpr (hne (chr '&') (by decide)), bne_self_eq_false, Bool.false_and,
    Bool.or_self]

theorem letter_first (hletter : name.head? = some a) :
    ∃ more, name ++ [chr ';'] ++ rest = a :: more := by
  cases name with
  | nil => cases hletter
  | cons c more =>
    cases hletter
    exact ⟨more ++ [chr ';'] ++ rest, rfl⟩

/-- The longest name that the text begins with is the one in front of the semicolon. -/
theorem namedReference_resolves (h : Resolves table name value) (hrest : rest ≠ []) :
    namedReference table 0 (name ++ [chr ';'] ++ rest) = (.success [value], name.length + 1) := by
  obtain ⟨i, hi, hname, hdecoded⟩ := h
  have hlength : (name ++ [chr ';']).length = name.length + 1 := List.length_append
  have hbegins : table.name i <+: name ++ [chr ';'] ++ rest := by
    rw [hname]
    exact List.prefix_append _ rest
  have hno : ((HTMLEntitySearch.start table).advanceAll table
      (name ++ [chr ';'] ++ rest)).isEntityPrefix = false := by
    rw [← Bool.not_eq_true, isEntityPrefix_advanceAll]
    rintro ⟨j, hj, hlonger⟩
    have hsame := name_eq_of_semicolon table hj ((List.prefix_append _ rest).trans hlonger)
    have hle := hlonger.length_le
    rw [hsame, List.length_append] at hle
    exact hrest (List.length_eq_zero_iff.mp (by omega))
  have hlongest := longest_advanceAll table (name ++ [chr ';'] ++ rest)
  unfold namedReference
  dsimp only
  rw [hno, if_neg Bool.false_ne_true]
  cases hmatch : ((HTMLEntitySearch.start table).advanceAll table
      (name ++ [chr ';'] ++ rest)).mostRecentMatch with
  | none =>
    rw [hmatch] at hlongest
    exact absurd hbegins (hlongest i hi)
  | some k =>
    rw [hmatch] at hlongest
    obtain ⟨hk, hk', hmax⟩ := hlongest
    have hle : (name ++ [chr ';']).length ≤ (table.name k).length := hname ▸ hmax i hi hbegins
    have hsame : table.name k = name ++ [chr ';'] := name_eq_of_semicolon table hk
      (List.prefix_of_prefix_length_le (List.prefix_append _ rest) hk' hle)
    obtain rfl : k = i := name_inj table hk hi (hsame.trans hname.symm)
    dsimp only
    rw [hname, List.getLast?_concat, if_pos (.inl rfl), hdecoded, hlength]

/-- **A reference by such a name.** -/
theorem reference_resolves (h : Resolves table name value) (hletter : name.head? = some a)
    (halpha : isASCIIAlpha a = true) (hrest : rest ≠ []) :
    reference table 0 (name ++ [chr ';'] ++ rest) = (.success [value], name.length + 1) := by
  have hstops := stopsReference_alpha halpha
  have hhash : a ≠ chr '#' := alpha_ne halpha _ (by decide)
  have hnamed := namedReference_resolves h hrest
  obtain ⟨more, hmore⟩ := letter_first hletter
  rw [hmore] at hnamed ⊢
  unfold reference
  dsimp only
  rw [if_neg (by rw [hstops]; exact Bool.false_ne_true), if_neg hhash, if_pos halpha]
  exact hnamed

/-- What is written for a character that is escaped. -/
theorem written_resolves (h : References table) {c : UInt16} {d : EntityDescription}
    (hd : findUnit kEntityMaskInHTMLPCDATA c = some d) :
    ∃ name, widened d.data = chr '&' :: (name ++ [chr ';']) ∧
      (∃ a, name.head? = some a ∧ isASCIIAlpha a = true) ∧ Resolves table name c ∧
      c ≠ chr '\n' ∧ c ≠ chr '\r' ∧ c ≠ 0 := by
  obtain ⟨hmem, rfl, hmask⟩ := findUnit_some hd
  simp only [kEntityMaps, List.mem_cons, List.not_mem_nil, or_false] at hmem
  rcases hmem with rfl | rfl | rfl | rfl | rfl | rfl | rfl | rfl
  · exact ⟨_, by decide, ⟨chr 'a', rfl, by decide⟩, h.amp, by decide, by decide, by decide⟩
  · exact ⟨_, by decide, ⟨chr 'l', rfl, by decide⟩, h.lt, by decide, by decide, by decide⟩
  · exact ⟨_, by decide, ⟨chr 'g', rfl, by decide⟩, h.gt, by decide, by decide, by decide⟩
  · exact absurd (by decide) hmask
  · exact ⟨_, by decide, ⟨chr 'n', rfl, by decide⟩, h.nbsp, by decide, by decide, by decide⟩
  · exact absurd (by decide) hmask
  · exact absurd (by decide) hmask
  · exact absurd (by decide) hmask

end References

/-! ## The eager tokenizer in a text -/

/-- Between two characters of a text, with the rest of it. -/
structure InText (skips : Bool) (rest : Units) (e : Eager) : Prop where
  state : e.tokenizer.state = .dataState
  skips : e.tokenizer.skipNextNewLine = skips
  nulls : e.tokenizer.forceNullCharacterReplacement = false
  type : e.token.type = .uninitialized
  data : e.token.data = []
  hand : e.hand = none
  text : e.source.text = rest
  isOpen : e.source.closed = false

section InText

variable (table : HTMLEntityTable) {e : Eager} {k : HTMLTokenizer} {token : HTMLToken}
variable {cc c : UInt16} {rest : Units} {skips b : Bool}

theorem step_hides (hhand : e.hand = none)
    (hpeek : peekPlain e.tokenizer e.source = some (k, none)) :
    Eager.step table e = some (⟨k, e.token, none, skip e.source 1⟩, []) := by
  unfold Eager.step
  rw [hhand]
  dsimp only
  rw [hpeek]

theorem step_shows (hhand : e.hand = none)
    (hpeek : peekPlain e.tokenizer e.source = some (k, some cc)) :
    Eager.step table e = some (⟨k, e.token, some cc, e.source⟩, []) := by
  unfold Eager.step
  rw [hhand]
  dsimp only
  rw [hpeek]

theorem step_looks {next : Next} (hhand : e.hand = some cc)
    (hlook : ordinaryState e.tokenizer e.token cc e.source.consumed = some (k, token, next)) :
    Eager.step table e = some (Eager.finish k token cc e.source next) := by
  unfold Eager.step
  rw [hhand]
  dsimp only
  rw [hlook]

theorem InText.peeks (h : InText skips (c :: rest) e) :
    peekPlain e.tokenizer e.source = some (peekCharacter e.tokenizer c false) := by
  unfold peekPlain
  rw [h.text, h.isOpen]
  rfl

theorem queued_character (hdata : token.data = []) (cc : UInt16) :
    queued (token.bufferCharacters [cc]) = [.character cc] := by
  unfold queued HTMLToken.bufferCharacters
  rw [if_neg (List.cons_ne_nil _ _), if_pos rfl, hdata]
  rfl

theorem flushed_character (token : HTMLToken) (cc : UInt16) :
    flushed (token.bufferCharacters [cc]) = (token.bufferCharacters [cc]).clear := by
  unfold flushed HTMLToken.bufferCharacters
  rw [if_neg (List.cons_ne_nil _ _), if_pos rfl]

/-- A character that is looked at is emitted. -/
theorem InText.shown (h : InText skips (c :: rest) e)
    (hpeek : peekCharacter e.tokenizer c false =
      ({ e.tokenizer with skipNextNewLine := b }, some cc))
    (hamp : cc ≠ chr '&') (hlt : cc ≠ chr '<') (hzero : cc ≠ endOfFileMarker) :
    ∃ e', Leads (Eager.step table) e [.character cc] e' ∧ InText b rest e' := by
  let k : HTMLTokenizer := { e.tokenizer with skipNextNewLine := b }
  have hfirst := step_shows table h.hand (h.peeks.trans (congrArg some hpeek))
  have hlook : ordinaryState k e.token cc e.source.consumed =
      some (k, e.token.bufferCharacters [cc], .advanceTo .dataState) := by
    have hstate : k.state = .dataState := h.state
    unfold ordinaryState textState
    rw [hstate]
    dsimp only
    rw [if_neg hamp, if_neg hlt, if_neg hzero]
  have hsecond := step_looks table (e := ⟨k, e.token, some cc, e.source⟩) rfl hlook
  have htwo := Leads.cons hfirst (.single hsecond)
  rw [List.nil_append, queued_character h.data, flushed_character] at htwo
  refine ⟨_, htwo, rfl, rfl, h.nulls, rfl, rfl, rfl, ?_, h.isOpen⟩
  show e.source.text.drop 1 = rest
  rw [h.text]
  rfl

/-- A character that is skipped says nothing. -/
theorem InText.hidden (h : InText skips (c :: rest) e)
    (hpeek : peekCharacter e.tokenizer c false =
      ({ e.tokenizer with skipNextNewLine := b }, none)) :
    ∃ e', Leads (Eager.step table) e [] e' ∧ InText b rest e' := by
  have hstep := step_hides table h.hand (h.peeks.trans (congrArg some hpeek))
  refine ⟨_, .single hstep, h.state, rfl, h.nulls, h.type, h.data, rfl, ?_, h.isOpen⟩
  show e.source.text.drop 1 = rest
  rw [h.text]
  rfl

/-- **A character that stands for itself.** -/
theorem InText.character (h : InText skips (c :: rest) e) (hamp : c ≠ chr '&')
    (hlt : c ≠ chr '<') :
    ∃ e', Leads (Eager.step table) e ((inputCharacter skips c).map .character) e' ∧
      InText (c == chr '\r') rest e' := by
  unfold inputCharacter
  by_cases hline : c = chr '\n' ∧ skips = true
  · have hpeek : peekCharacter e.tokenizer c false =
        ({ e.tokenizer with skipNextNewLine := false }, none) := by
      unfold peekCharacter
      rw [h.skips, if_pos hline]
    rw [if_pos hline, hline.1]
    exact h.hidden table hpeek
  rw [if_neg hline]
  by_cases hreturn : c = chr '\r'
  · have hpeek : peekCharacter e.tokenizer c false =
        ({ e.tokenizer with skipNextNewLine := true }, some (chr '\n')) := by
      unfold peekCharacter
      rw [h.skips, if_neg hline, if_pos hreturn]
    rw [if_pos hreturn, beq_iff_eq.mpr hreturn]
    exact h.shown table hpeek (by decide) (by decide) (by decide)
  rw [if_neg hreturn, beq_eq_false_iff_ne.mpr hreturn]
  by_cases hnull : c = 0
  · have hnulls : HTMLTokenizer.shouldSkipNullCharacters
        { e.tokenizer with skipNextNewLine := false } = true := by
      unfold HTMLTokenizer.shouldSkipNullCharacters
      dsimp only
      rw [h.nulls, h.state]
      rfl
    have hpeek : peekCharacter e.tokenizer c false =
        ({ e.tokenizer with skipNextNewLine := false }, none) := by
      unfold peekCharacter
      rw [h.skips, if_neg hline, if_neg hreturn]
      dsimp only
      rw [if_pos ⟨hnull, rfl⟩, if_pos hnulls]
    rw [if_pos hnull]
    exact h.hidden table hpeek
  · have hpeek : peekCharacter e.tokenizer c false =
        ({ e.tokenizer with skipNextNewLine := false }, some c) := by
      unfold peekCharacter
      rw [h.skips, if_neg hline, if_neg hreturn]
      dsimp only
      rw [if_neg fun hboth => hnull hboth.1]
    rw [if_neg hnull]
    exact h.shown table hpeek hamp hlt hnull

/-- A character that is neither a line end nor null is shown. -/
theorem peekCharacter_plain (hline : c ≠ chr '\n') (hreturn : c ≠ chr '\r') (hnull : c ≠ 0)
    (k : HTMLTokenizer) :
    peekCharacter k c false = ({ k with skipNextNewLine := false }, some c) := by
  unfold peekCharacter
  rw [if_neg fun hboth => hline hboth.1, if_neg hreturn]
  dsimp only
  rw [if_neg fun hboth => hnull hboth.1]

theorem inputCharacter_plain (hline : c ≠ chr '\n') (hreturn : c ≠ chr '\r') (hnull : c ≠ 0)
    (skips : Bool) : inputCharacter skips c = [c] := by
  unfold inputCharacter
  rw [if_neg fun hboth => hline hboth.1, if_neg hreturn, if_neg hnull]

/-- A marker in front of a reference or a tag is taken, and nothing is said. -/
theorem InText.marked (h : InText skips (c :: rest) e) (hplain : c = chr '&' ∨ c = chr '<') :
    ∃ e', Leads (Eager.step table) e [] e' ∧
      e'.tokenizer = { e.tokenizer with
        skipNextNewLine := false
        state := if c = chr '&' then .characterReferenceInDataState else .tagOpenState } ∧
      e'.token = e.token ∧ e'.hand = none ∧ e'.source.text = rest ∧
      e'.source.closed = false := by
  have hpeek : peekCharacter e.tokenizer c false =
      ({ e.tokenizer with skipNextNewLine := false }, some c) := by
    rcases hplain with rfl | rfl
    · exact peekCharacter_plain (by decide) (by decide) (by decide) _
    · exact peekCharacter_plain (by decide) (by decide) (by decide) _
  have hfirst := step_shows table h.hand (h.peeks.trans (congrArg some hpeek))
  have hne : e.token.type ≠ .character := by
    rw [h.type]
    exact TokenType.noConfusion
  have hflushed : flushed e.token = e.token := if_neg hne
  have hqueued : queued e.token = [] := if_neg hne
  have hrest : e.source.text.drop 1 = rest := by
    rw [h.text]
    rfl
  let k : HTMLTokenizer := { e.tokenizer with skipNextNewLine := false }
  have hstate : k.state = .dataState := h.state
  rcases hplain with rfl | rfl
  · have hlook : ordinaryState k e.token (chr '&') e.source.consumed =
        some (k, e.token, .advanceTo .characterReferenceInDataState) := by
      unfold ordinaryState textState
      rw [hstate]
      rfl
    have htwo := Leads.cons hfirst (.single (step_looks table rfl hlook))
    rw [List.nil_append, hqueued, hflushed] at htwo
    exact ⟨_, htwo, rfl, rfl, rfl, hrest, h.isOpen⟩
  · have hlook : ordinaryState k e.token (chr '<') e.source.consumed =
        some (k, e.token, .emitOrAdvanceTo .tagOpenState) := by
      unfold ordinaryState textState
      rw [hstate]
      rfl
    have htwo := Leads.cons hfirst (.single (step_looks table rfl hlook))
    rw [List.nil_append, hqueued, hflushed] at htwo
    exact ⟨_, htwo, rfl, rfl, rfl, hrest, h.isOpen⟩

/-- What is decoded is emitted. -/
theorem step_reference (k : HTMLTokenizer) (token : HTMLToken) (cc : UInt16)
    {q : Platform.Plain} {value : UInt16} {n : Nat}
    (hstate : k.state = .characterReferenceInDataState)
    (hreference : reference table 0 q.text = (.success [value], n)) :
    Eager.step table ⟨k, token, some cc, q⟩ =
      some (⟨{ k with state := .dataState }, flushed (token.bufferCharacters [value]), none,
        skip q n⟩, queued (token.bufferCharacters [value])) := by
  have hordinary : ordinaryState k token cc q.consumed = none := by
    unfold ordinaryState textState tagState commentState doctypeState
    rw [hstate]
  have hask : lookAheadState k token cc = .reference 0 token.bufferCharacters .dataState := by
    unfold lookAheadState
    rw [hstate]
  have hanswer : answerPlain table q (.reference 0 token.bufferCharacters .dataState) =
      .switchTo (token.bufferCharacters [value]) .dataState (skip q n) := by
    unfold answerPlain
    dsimp only
    rw [hreference]
  unfold Eager.step
  simp only [hordinary, hask, hanswer]

/-- **A reference.** -/
theorem InText.reference {name : Units} {a : UInt16} (hname : Resolves table name c)
    (hletter : name.head? = some a) (halpha : isASCIIAlpha a = true) (hrest : rest ≠ [])
    (h : InText skips (chr '&' :: (name ++ [chr ';'] ++ rest)) e) :
    ∃ e', Leads (Eager.step table) e [.character c] e' ∧ InText false rest e' := by
  obtain ⟨e₁, hmarked, htokenizer, htoken, hhand, htext, hopen⟩ := h.marked table (.inl rfl)
  rw [if_pos rfl] at htokenizer
  obtain ⟨more, hmore⟩ := letter_first hletter
  have hpeek : peekPlain e₁.tokenizer e₁.source =
      some ({ e₁.tokenizer with skipNextNewLine := false }, some a) := by
    have hne := alpha_ne halpha
    unfold peekPlain
    rw [htext, hopen, hmore]
    exact congrArg some (peekCharacter_plain (hne _ (by decide)) (hne _ (by decide))
      (hne _ (by decide)) _)
  have hthird := step_shows table hhand hpeek
  have hstate : e₁.tokenizer.state = .characterReferenceInDataState := by rw [htokenizer]
  have hlast := step_reference table { e₁.tokenizer with skipNextNewLine := false } e₁.token a
    hstate ((congrArg _ htext).trans (reference_resolves hname hletter halpha hrest))
  have hall := (hmarked.trans (.single hthird)).trans (.single hlast)
  rw [List.nil_append, List.nil_append, htoken, queued_character h.data,
    flushed_character] at hall
  refine ⟨_, hall, rfl, rfl, ?_, rfl, rfl, rfl, ?_, hopen⟩
  · show e₁.tokenizer.forceNullCharacterReplacement = false
    rw [htokenizer]
    exact h.nulls
  · show e₁.source.text.drop (name.length + 1) = rest
    rw [htext]
    exact List.drop_left' (by simp)

end InText

/-! ## A written text -/

section Written

variable (table : HTMLEntityTable) {e : Eager} {rest : Units} {skips : Bool}

/-- The text goes by, character by character. -/
theorem InText.written (htable : References table) (hrest : rest ≠ []) (text : Units)
    (h : InText skips (Escaping.escape (entryFor kEntityMaskInHTMLPCDATA) text ++ rest) e) :
    ∃ e' b, Leads (Eager.step table) e ((inputText skips text).map .character) e' ∧
      InText b rest e' := by
  induction text generalizing skips e with
  | nil => exact ⟨e, skips, .nil e, h⟩
  | cons c text ih =>
    rw [Escaping.escape_cons, List.append_assoc] at h
    unfold inputText
    rw [List.map_append]
    unfold Escaping.piece entryFor at h
    cases hfind : findUnit kEntityMaskInHTMLPCDATA c with
    | some d =>
      obtain ⟨name, hwritten, ⟨a, hletter, halpha⟩, hname, hline, hreturn, hnull⟩ :=
        written_resolves htable hfind
      rw [hfind] at h
      change InText skips (widened d.data ++ _) e at h
      rw [hwritten, List.cons_append] at h
      obtain ⟨e₁, hstep, h₁⟩ := InText.reference table hname hletter halpha
        (List.append_ne_nil_of_right_ne_nil _ hrest) h
      obtain ⟨e', b, hsteps, h'⟩ := ih h₁
      rw [inputCharacter_plain hline hreturn hnull, beq_eq_false_iff_ne.mpr hreturn]
      exact ⟨e', b, hstep.trans hsteps, h'⟩
    | none =>
      have hasked := findUnit_none.mp hfind
      have hamp : c ≠ chr '&' := by
        rintro rfl
        exact hasked ⟨⟨'&', "&amp;", _⟩, List.mem_cons_self, by decide, by decide⟩
      have hlt : c ≠ chr '<' := by
        rintro rfl
        exact hasked ⟨⟨'<', "&lt;", _⟩, List.mem_cons_of_mem _ List.mem_cons_self, by decide,
          by decide⟩
      rw [hfind] at h
      obtain ⟨e₁, hstep, h₁⟩ := h.character table hamp hlt
      obtain ⟨e', b, hsteps, h'⟩ := ih h₁
      exact ⟨e', b, hstep.trans hsteps, h'⟩

/-- Before the end of a text there is the marker of a tag, which says nothing yet. -/
theorem InText.ends (h : InText skips [chr '<'] e) :
    ∃ e', Exhausts (Eager.step table) e [] e' := by
  obtain ⟨e', hmarked, -, -, hhand, htext, -⟩ := h.marked table (.inr rfl)
  have hblocked : Eager.step table e' = none := by
    have hpeek : peekPlain e'.tokenizer e'.source = none := by
      unfold peekPlain
      rw [htext]
    unfold Eager.step
    rw [hhand]
    dsimp only
    rw [hpeek]
  have hends := hmarked.exhausts (.blocked hblocked)
  exact ⟨e', hends⟩

/-- What `AppendText` writes for a text that it escapes. -/
theorem appendText_escape {scripting : Bool} {parent : Option String}
    (hmask : entityMaskForText scripting parent = kEntityMaskInHTMLPCDATA) (data : WTFString) :
    (appendText scripting parent (.buffer8 []) data).text =
      Escaping.escape (entryFor kEntityMaskInHTMLPCDATA) data.text := by
  unfold appendText
  rw [appendCharactersReplacingEntities_text, hmask, List.drop_zero, ← data.length_text,
    List.take_length]
  rfl

end Written

/-- The rows that are read in place of the whole table have the names. -/
theorem few_references : References fewRows where
  amp := ⟨27, by decide +kernel, by decide +kernel, by decide +kernel⟩
  lt := ⟨40, by decide +kernel, by decide +kernel, by decide +kernel⟩
  gt := ⟨34, by decide +kernel, by decide +kernel, by decide +kernel⟩
  nbsp := ⟨42, by decide +kernel, by decide +kernel, by decide +kernel⟩

end Blinkit.Html
