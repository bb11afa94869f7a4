import Blinkit.Html.HTMLTokenizer
import Blinkit.Lib.Feeding

/-!
# The tokenizer that emits at once

What the tokenizer is for, on a list of characters: the same states, but every character of the
text, and every token, is emitted where it is found, and nothing is kept to be emitted later.

* `Eager` — the tokenizer, a token that is never one of characters, the character in hand, and
  the source as a list.
* `Eager.step` — a character is peeked at, or the state looks at it.
* `Eager.grow` — more of the source arrives.
* `State.weight` — how often a character can be looked at again.

* `Fits` — what a state may come to.

Principal results: `step_stable`: what has been decided stays when the source grows;
`ordinary_fits`, `question_fits`: what a state does does not depend on the characters that are
queued in the token.
-/

set_option autoImplicit false

namespace Blinkit.Html

open Platform Feeding
open Text (Units)

/-- A token without the characters that are queued in it. -/
def flushed (token : HTMLToken) : HTMLToken :=
  if token.type = .character then token.clear else token

/-- The characters that are queued in a token. -/
def queued (token : HTMLToken) : List Event :=
  if token.type = .character then token.data.map .character else []

structure Eager where
  tokenizer : HTMLTokenizer
  token : HTMLToken
  hand : Option UInt16
  source : Plain

/-! ## Steps -/

/-- A character is skipped, or the one to look at. -/
def peekCharacter (k : HTMLTokenizer) (c : UInt16) (isLast : Bool) :
    HTMLTokenizer × Option UInt16 :=
  if c = chr '\n' ∧ k.skipNextNewLine = true then ({ k with skipNextNewLine := false }, none)
  else if c = chr '\r' then ({ k with skipNextNewLine := true }, some (chr '\n'))
  else
    let k := { k with skipNextNewLine := false }
    if c = 0 ∧ isLast = false then
      if k.shouldSkipNullCharacters then (k, none) else (k, some 0xFFFD)
    else (k, some c)

/-- The first character, if there is one. -/
def peekPlain (k : HTMLTokenizer) (q : Plain) : Option (HTMLTokenizer × Option UInt16) :=
  match q.text with
  | [] => none
  | c :: rest => some (peekCharacter k c (q.closed && rest.isEmpty))

/-- What the list answers. -/
inductive PlainStep where
  | notEnoughCharacters
  | switchTo (token : HTMLToken) (state : State) (source : Plain)
  | goOn (token : HTMLToken) (next : Next)

def answerPlain (table : HTMLEntityTable) (q : Plain) : Question → PlainStep
  | .reference additionalAllowedCharacter put state =>
    let r := reference table additionalAllowedCharacter q.text
    match r.1 with
    | .notEnoughCharacters => .notEnoughCharacters
    | .failure => .switchTo (put [chr '&']) state (skip q r.2)
    | .success decodedEntity => .switchTo (put decodedEntity) state (skip q r.2)
  | .lookAhead string ignoringCase token state otherwise =>
    match q.lookAhead (string.map chr) ignoringCase with
    | .didMatch => .switchTo token state (skip q string.length)
    | .notEnoughCharacters => .notEnoughCharacters
    | .didNotMatch => .goOn otherwise.1 otherwise.2
  | .nothing token next => .goOn token next

/-- More arrives behind the list, and it may be closed. -/
def growPlain (closes : Bool) (more : Units) (q : Plain) : Plain :=
  ⟨q.text ++ more, q.consumed, q.closed || closes⟩

namespace Eager

/-- How a state ends. The token is emitted, or begun, behind the characters that were queued. -/
def finish (k : HTMLTokenizer) (token : HTMLToken) (cc : UInt16) (q : Plain) :
    Next → Eager × List Event
  | .reconsumeIn state => (⟨{ k with state := state }, flushed token, some cc, q⟩, queued token)
  | .advanceTo state | .emitOrAdvanceTo state =>
    (⟨{ k with state := state }, flushed token, none, skip q 1⟩, queued token)
  | .emitAndResumeIn state =>
    let k := { saveEndTagNameIfNeeded k (flushed token) with state := state }
    (⟨afterToken k (flushed token), (flushed token).clear, none, skip q 1⟩,
      queued token ++ (flushed token).events)
  | .emitAndReconsumeIn state =>
    let k := { saveEndTagNameIfNeeded k (flushed token) with state := state }
    (⟨afterToken k (flushed token), (flushed token).clear, none, q⟩,
      queued token ++ (flushed token).events)
  | .emitEndOfFile =>
    (⟨{ k with state := .dataState }, (flushed token).clear, none, skip q 1⟩,
      queued token ++ [.endOfFile])
  | .flushAndAdvanceTo state =>
    (⟨clearEndTag { k with state := state }, (flushed token).beginEndTag k.bufferedEndTagName, none,
      skip q 1⟩, queued token)
  | .flushEmitAndResumeIn state =>
    let endTag := (flushed token).beginEndTag k.bufferedEndTagName
    (⟨clearEndTag { k with state := state }, endTag.clear, none, skip q 1⟩,
      queued token ++ endTag.events)

/-- One step, while a character is left. -/
def step (table : HTMLEntityTable) (e : Eager) : Option (Eager × List Event) :=
  match e.hand with
  | none =>
    match peekPlain e.tokenizer e.source with
    | none => none
    | some (k, none) => some (⟨k, e.token, none, skip e.source 1⟩, [])
    | some (k, some cc) => some (⟨k, e.token, some cc, e.source⟩, [])
  | some cc =>
    match ordinaryState e.tokenizer e.token cc e.source.consumed with
    | some (k, token, next) => some (finish k token cc e.source next)
    | none =>
      match answerPlain table e.source (lookAheadState e.tokenizer e.token cc) with
      | .notEnoughCharacters => none
      | .switchTo token state q =>
        some (⟨{ e.tokenizer with state := state }, flushed token, none, q⟩, queued token)
      | .goOn token next => some (finish e.tokenizer token cc e.source next)

/-- More of the source arrives, and perhaps nothing more. -/
def grow (closes : Bool) (more : Units) (e : Eager) : Eager :=
  { e with source := growPlain closes more e.source }

/-- The source is closed or not, and there is something left of it when a character is in hand. -/
structure Closed (closed : Bool) (e : Eager) : Prop where
  closed : e.source.closed = closed
  hand : e.hand.isSome = true → e.source.text ≠ []

/-- The source is open. -/
abbrev Open (e : Eager) : Prop := e.Closed false

end Eager

/-! ## What arrives later -/

section Growth

variable {table : HTMLEntityTable} {e e' : Eager} {o : List Event} {more : Units} {closes : Bool}

/-- The rest of a list that grows. -/
theorem skip_grow {q : Plain} {n : Nat} (hn : n ≤ q.text.length) (closes : Bool) (more : Units) :
    skip (growPlain closes more q) n = growPlain closes more (skip q n) := by
  unfold skip growPlain
  dsimp only
  rw [List.drop_append_of_le_length hn]

theorem peekPlain_grow (hclosed : e.source.closed = false) (hmore : closes = true → more ≠ [])
    {r : HTMLTokenizer × Option UInt16} (h : peekPlain e.tokenizer e.source = some r) :
    peekPlain e.tokenizer (e.grow closes more).source = some r := by
  unfold peekPlain at h ⊢
  unfold Eager.grow growPlain
  dsimp only
  cases htext : e.source.text with
  | nil =>
    rw [htext] at h
    cases h
  | cons c rest =>
    have hend : (closes && (rest ++ more).isEmpty) = false := by
      cases closes with
      | false => rfl
      | true =>
        rw [Bool.true_and, List.isEmpty_eq_false_iff]
        exact List.append_ne_nil_of_right_ne_nil rest (hmore rfl)
    rw [htext, hclosed] at h
    rw [hclosed]
    dsimp only [List.cons_append]
    rw [Bool.false_or, hend]
    exact h

/-- A look ahead that sees enough sees the same when the list grows. -/
theorem lookAhead_grow {q : Plain} {string : Units} {ignoringCase : Bool}
    (h : q.lookAhead string ignoringCase ≠ .notEnoughCharacters) (closes : Bool) (more : Units) :
    string.length ≤ q.text.length ∧
      (growPlain closes more q).lookAhead string ignoringCase =
        q.lookAhead string ignoringCase := by
  unfold Plain.lookAhead at h ⊢
  by_cases hlength : string.length > q.text.length
  · rw [if_pos hlength] at h
    exact absurd rfl h
  · have hle := Nat.le_of_not_lt hlength
    refine ⟨hle, ?_⟩
    unfold growPlain
    dsimp only
    rw [if_neg hlength, List.length_append, if_neg (by omega), List.take_append_of_le_length hle]

/-- The answer, with the list it leaves, for a list that grows. -/
def PlainStep.grow (closes : Bool) (more : Units) : PlainStep → PlainStep
  | .notEnoughCharacters => .notEnoughCharacters
  | .switchTo token state q => .switchTo token state (growPlain closes more q)
  | .goOn token next => .goOn token next

/-- The list answers the same when it grows. -/
theorem answerPlain_grow {q : Plain} (question : Question)
    (h : answerPlain table q question ≠ .notEnoughCharacters) :
    answerPlain table (growPlain closes more q) question =
      (answerPlain table q question).grow closes more := by
  cases question with
  | reference additional put state =>
    unfold answerPlain at h ⊢
    dsimp only at h ⊢
    have hdecided : (reference table additional q.text).1 ≠ .notEnoughCharacters := by
      intro hnot
      rw [hnot] at h
      exact h rfl
    have hle : (reference table additional q.text).2 ≤ q.text.length := by
      rcases reference_taken table additional q.text with hzero | htaken
      · rw [hzero]
        exact Nat.zero_le _
      · exact htaken.2
    have hsame : reference table additional (growPlain closes more q).text =
        reference table additional q.text := reference_append hdecided more
    rw [hsame, skip_grow hle]
    cases houtcome : (reference table additional q.text).1 with
    | notEnoughCharacters => exact absurd houtcome hdecided
    | failure => rfl
    | success decoded => rfl
  | lookAhead string ignoringCase token state otherwise =>
    unfold answerPlain at h ⊢
    dsimp only at h ⊢
    have hdecided : q.lookAhead (string.map chr) ignoringCase ≠ .notEnoughCharacters := by
      intro hnot
      rw [hnot] at h
      exact h rfl
    obtain ⟨hle, hsame⟩ := lookAhead_grow hdecided closes more
    rw [List.length_map] at hle
    rw [hsame, skip_grow hle]
    cases hresult : q.lookAhead (string.map chr) ignoringCase with
    | didNotMatch => rfl
    | didMatch => rfl
    | notEnoughCharacters => exact absurd hresult hdecided
  | nothing token next => rfl

theorem finish_grow {k : HTMLTokenizer} {token : HTMLToken} {cc : UInt16} {q : Plain}
    (hne : q.text ≠ []) (next : Next) :
    Eager.finish k token cc (growPlain closes more q) next =
      ((Eager.finish k token cc q next).1.grow closes more,
        (Eager.finish k token cc q next).2) := by
  have hone := skip_grow (List.length_pos_iff.mpr hne) closes more
  cases next <;> simp only [Eager.finish, hone, Eager.grow]

/-- **What has been decided stays when more of the source arrives.** -/
theorem step_stable (table : HTMLEntityTable) (hmore : closes = true → more ≠ []) :
    Stable (Eager.step table) Eager.Open (Eager.grow closes more) := by
  intro e e' o hopen h
  unfold Eager.step at h ⊢
  have hgrow : (e.grow closes more).source = growPlain closes more e.source := rfl
  have hposition : (growPlain closes more e.source).consumed = e.source.consumed := rfl
  cases hhand : e.hand with
  | none =>
    rw [hhand] at h
    rw [show (e.grow closes more).hand = none from hhand,
      show (e.grow closes more).tokenizer = e.tokenizer from rfl]
    dsimp only at h ⊢
    cases hpeek : peekPlain e.tokenizer e.source with
    | none =>
      rw [hpeek] at h
      cases h
    | some r =>
      have hpos : 1 ≤ e.source.text.length := by
        unfold peekPlain at hpeek
        cases htext : e.source.text with
        | nil =>
          rw [htext] at hpeek
          cases hpeek
        | cons c rest => exact Nat.succ_le_succ (Nat.zero_le _)
      rw [peekPlain_grow hopen.closed hmore hpeek, hgrow, skip_grow hpos]
      rw [hpeek] at h
      obtain ⟨k, _ | cc⟩ := r <;>
      · cases h
        rfl
  | some cc =>
    have hne := hopen.hand (by rw [hhand]; rfl)
    rw [hhand] at h
    rw [show (e.grow closes more).hand = some cc from hhand,
      show (e.grow closes more).tokenizer = e.tokenizer from rfl,
      show (e.grow closes more).token = e.token from rfl, hgrow, hposition]
    dsimp only at h ⊢
    cases hordinary : ordinaryState e.tokenizer e.token cc e.source.consumed with
    | some r =>
      rw [hordinary] at h
      dsimp only at h ⊢
      rw [finish_grow hne, Option.some.inj h]
    | none =>
      rw [hordinary] at h
      dsimp only at h ⊢
      cases hanswer : answerPlain table e.source (lookAheadState e.tokenizer e.token cc) with
      | notEnoughCharacters =>
        rw [hanswer] at h
        cases h
      | switchTo token state q =>
        rw [answerPlain_grow _ (by rw [hanswer]; exact PlainStep.noConfusion), hanswer]
        rw [hanswer] at h
        cases h
        rfl
      | goOn token next =>
        rw [answerPlain_grow _ (by rw [hanswer]; exact PlainStep.noConfusion), hanswer]
        rw [hanswer] at h
        dsimp only [PlainStep.grow] at h ⊢
        rw [finish_grow hne, Option.some.inj h]

theorem answerPlain_closed {q q' : Plain} {question : Question} {t : HTMLToken} {state : State}
    (h : answerPlain table q question = .switchTo t state q') : q'.closed = q.closed := by
  cases question <;> unfold answerPlain at h <;> dsimp only at h
  case nothing => cases h
  all_goals
    split at h <;> cases h <;> rfl

theorem finish_closed (k : HTMLTokenizer) (token : HTMLToken) (cc : UInt16) {q : Plain}
    (hne : q.text ≠ []) (next : Next) :
    (Eager.finish k token cc q next).1.Closed q.closed := by
  cases next <;> exact ⟨rfl, fun hsome => by first | exact hne | cases hsome⟩

/-- An open source stays open, and a closed one closed. -/
theorem step_closed (table : HTMLEntityTable) (closed : Bool) :
    ∀ e e' o, e.Closed closed → Eager.step table e = some (e', o) → e'.Closed closed := by
  intro e e' o hopen h
  unfold Eager.step at h
  cases hhand : e.hand with
  | none =>
    rw [hhand] at h
    dsimp only at h
    cases hpeek : peekPlain e.tokenizer e.source with
    | none =>
      rw [hpeek] at h
      cases h
    | some r =>
      have hne : e.source.text ≠ [] := by
        intro hnil
        unfold peekPlain at hpeek
        rw [hnil] at hpeek
        cases hpeek
      rw [hpeek] at h
      obtain ⟨k, _ | cc⟩ := r
      · cases h
        exact ⟨hopen.closed, fun hsome => by cases hsome⟩
      · cases h
        exact ⟨hopen.closed, fun _ => hne⟩
  | some cc =>
    have hne := hopen.hand (by rw [hhand]; rfl)
    rw [hhand] at h
    dsimp only at h
    cases hordinary : ordinaryState e.tokenizer e.token cc e.source.consumed with
    | some r =>
      rw [hordinary] at h
      have hfinish := finish_closed r.1 r.2.1 cc hne r.2.2
      rw [Option.some.inj h, hopen.closed] at hfinish
      exact hfinish
    | none =>
      rw [hordinary] at h
      dsimp only at h
      cases hanswer : answerPlain table e.source (lookAheadState e.tokenizer e.token cc) with
      | notEnoughCharacters =>
        rw [hanswer] at h
        cases h
      | switchTo t state q =>
        rw [hanswer] at h
        cases h
        exact ⟨(answerPlain_closed hanswer).trans hopen.closed, fun hsome => by cases hsome⟩
      | goOn t next =>
        rw [hanswer] at h
        have hfinish := finish_closed e.tokenizer t cc hne next
        rw [Option.some.inj h, hopen.closed] at hfinish
        exact hfinish

end Growth

/-! ## Looking at a character again -/

/-- How often a character can be looked at again. -/
def State.weight : State → Nat
  | .dataState | .rcdataState | .rawtextState | .scriptDataState | .plaintextState => 0
  | .tagOpenState | .endTagOpenState | .markupDeclarationOpenState
  | .characterReferenceInDataState | .characterReferenceInRCDATAState
  | .characterReferenceInAttributeValueState => 3
  | .bogusCommentState | .doctypeState | .afterAttributeValueQuotedState
  | .selfClosingStartTagState | .beforeAttributeValueState
  | .scriptDataEscapedLessThanSignState | .scriptDataEscapedEndTagOpenState
  | .scriptDataEscapedEndTagNameState | .scriptDataDoubleEscapeStartState
  | .scriptDataDoubleEscapedLessThanSignState | .scriptDataDoubleEscapeEndState
  | .cdataSectionBracketState | .cdataSectionEndState => 2
  | _ => 1

/-- The states where characters may be queued. -/
def State.isText : State → Bool
  | .dataState | .characterReferenceInDataState | .rcdataState | .characterReferenceInRCDATAState
  | .rawtextState | .scriptDataState | .plaintextState
  | .rcdataLessThanSignState | .rcdataEndTagOpenState | .rcdataEndTagNameState
  | .rawtextLessThanSignState | .rawtextEndTagOpenState | .rawtextEndTagNameState
  | .scriptDataLessThanSignState | .scriptDataEndTagOpenState | .scriptDataEndTagNameState
  | .scriptDataEscapeStartState | .scriptDataEscapeStartDashState
  | .scriptDataEscapedState | .scriptDataEscapedDashState | .scriptDataEscapedDashDashState
  | .scriptDataEscapedLessThanSignState | .scriptDataEscapedEndTagOpenState
  | .scriptDataEscapedEndTagNameState | .scriptDataDoubleEscapeStartState
  | .scriptDataDoubleEscapedState | .scriptDataDoubleEscapedDashState
  | .scriptDataDoubleEscapedDashDashState | .scriptDataDoubleEscapedLessThanSignState
  | .scriptDataDoubleEscapeEndState
  | .cdataSectionState | .cdataSectionBracketState | .cdataSectionEndState => true
  | _ => false

/-- The states behind the first letter of a possible end tag. -/
def State.isEndTagName : State → Bool
  | .rcdataEndTagNameState | .rawtextEndTagNameState | .scriptDataEndTagNameState
  | .scriptDataEscapedEndTagNameState => true
  | _ => false

/-- The name of a possible end tag is kept in these states, and in no other. -/
def Names (k : HTMLTokenizer) : Prop := k.bufferedEndTagName = [] ↔ k.state.isEndTagName = false

/-- Characters are queued in their states only. -/
def Tidy (state : State) (token : HTMLToken) : Prop :=
  state.isText = false → token.type ≠ .character

/-- What a state does to the members and to the token `t`, and what it may come to: a state that
looks at the character again is lighter, the token that is emitted is no list of characters, and
what waits for characters to be emitted has changed nothing. -/
def Fits (k : HTMLTokenizer) (t : HTMLToken) (cc : UInt16) (k' : HTMLTokenizer) (t' : HTMLToken) :
    Next → Prop
  | .reconsumeIn state =>
    state.weight < k.state.weight ∧ k'.skipNextNewLine = k.skipNextNewLine ∧ Tidy state t' ∧
      Names { k' with state := state }
  | .advanceTo state => Tidy state t' ∧ Names { k' with state := state }
  | .emitOrAdvanceTo state =>
    k' = k ∧ t' = t ∧ cc = chr '<' ∧ k.state = .dataState ∧ state = .tagOpenState
  | .emitEndOfFile => k' = k ∧ t' = t ∧ cc = endOfFileMarker ∧ k.bufferedEndTagName = []
  | .emitAndResumeIn state =>
    t'.type ≠ .character ∧ k'.bufferedEndTagName = [] ∧ state = .dataState
  | .emitAndReconsumeIn state =>
    t'.type ≠ .character ∧ k'.bufferedEndTagName = [] ∧ state = .dataState ∧
      0 < k.state.weight
  | .flushAndAdvanceTo state =>
    k'.bufferedEndTagName ≠ [] ∧ state ≠ .dataState ∧ state.isEndTagName = false ∧
      state.isEndTagBuffering = false
  | .flushEmitAndResumeIn state => k'.bufferedEndTagName ≠ [] ∧ state = .dataState

section Fitting

variable {k k' : HTMLTokenizer} {token t : HTMLToken} {cc : UInt16} {characters : Units}
  {next : Next}

/-- A state where no name is kept. -/
theorem names_of_quiet {state : State} (hk : k.bufferedEndTagName = [])
    (hstate : state.isEndTagName = false) : Names { k with state := state } :=
  iff_of_true hk hstate

theorem names_of_name {state : State} (hk : k.bufferedEndTagName ≠ [])
    (hstate : state.isEndTagName = true) : Names { k with state := state } :=
  iff_of_false hk (by rw [hstate]; exact Bool.noConfusion)

theorem tidy_of_text {state : State} (hstate : state.isText = true) : Tidy state token :=
  fun hnot => by rw [hstate] at hnot; cases hnot

/-- A text state goes on to a text state. -/
theorem fits_advance {state : State} (hk : k'.bufferedEndTagName = [])
    (hstate : state.isText = true ∧ state.isEndTagName = false) :
    Fits k token cc k' t (.advanceTo state) :=
  ⟨tidy_of_text hstate.1, names_of_quiet hk hstate.2⟩

theorem fits_reconsume {state : State} (hk : k'.bufferedEndTagName = [])
    (hweight : state.weight < k.state.weight)
    (hstate : state.isText = true ∧ state.isEndTagName = false)
    (hskip : k'.skipNextNewLine = k.skipNextNewLine) :
    Fits k token cc k' t (.reconsumeIn state) :=
  ⟨hweight, hskip, tidy_of_text hstate.1, names_of_quiet hk hstate.2⟩

/-- What a text state does to the token. -/
def FitsText (k : HTMLTokenizer) (token : HTMLToken) (cc : UInt16) (r : TextStep) : Prop :=
  Fits k token cc r.1 (token.bufferCharacters r.2.1) r.2.2

theorem fits_lessThanSignState {text endTagOpen : State} (hk : k.bufferedEndTagName = [])
    (hweight : text.weight < k.state.weight)
    (htext : text.isText = true ∧ text.isEndTagName = false)
    (hopen : endTagOpen.isText = true ∧ endTagOpen.isEndTagName = false) :
    FitsText k token cc (lessThanSignState text endTagOpen k cc) := by
  unfold lessThanSignState
  split
  · exact fits_advance hk hopen
  · exact fits_reconsume hk hweight htext rfl

/-- A letter of a name has been added. -/
theorem fits_letter {endTagName : State} (hname : endTagName.isText = true)
    (hkeeps : endTagName.isEndTagName = true) :
    FitsText k token cc (addToPossibleEndTag k cc, [], .advanceTo endTagName) :=
  ⟨tidy_of_text hname, names_of_name (List.append_ne_nil_of_right_ne_nil _ (List.cons_ne_nil _ _))
    hkeeps⟩

theorem fits_possibleEndTagOpenState {text endTagName : State} (hk : k.bufferedEndTagName = [])
    (hweight : text.weight < k.state.weight)
    (htext : text.isText = true ∧ text.isEndTagName = false)
    (hname : endTagName.isText = true ∧ endTagName.isEndTagName = true) :
    FitsText k token cc (possibleEndTagOpenState text endTagName k cc) := by
  unfold possibleEndTagOpenState
  split
  · exact fits_letter hname.1 hname.2
  · exact fits_reconsume hk hweight htext rfl

theorem fits_possibleEndTagNameState {text endTagName : State} (hk : k.bufferedEndTagName ≠ [])
    (hweight : text.weight < k.state.weight)
    (htext : text.isText = true ∧ text.isEndTagName = false)
    (hname : endTagName.isText = true ∧ endTagName.isEndTagName = true) :
    FitsText k token cc (possibleEndTagNameState text endTagName k cc) := by
  unfold possibleEndTagNameState
  dsimp only
  split
  · exact fits_letter hname.1 hname.2
  · split
    · exact ⟨hk, by decide, rfl, rfl⟩
    · split
      · exact ⟨hk, by decide, rfl, rfl⟩
      · split
        · exact ⟨hk, rfl⟩
        · exact fits_reconsume rfl hweight htext rfl

theorem fits_escapeStartState {state : State} (hk : k.bufferedEndTagName = [])
    (hweight : 0 < k.state.weight) (hstate : state.isText = true ∧ state.isEndTagName = false) :
    FitsText k token cc (escapeStartState state k cc) := by
  unfold escapeStartState
  split
  · exact fits_advance hk hstate
  · exact fits_reconsume hk hweight ⟨rfl, rfl⟩ rfl

theorem fits_escapedState {dash escaped lessThanSign : State} {buffers ends : Bool}
    (hk : k.bufferedEndTagName = []) (hweight : 0 < k.state.weight)
    (hdash : dash.isText = true ∧ dash.isEndTagName = false)
    (hescaped : escaped.isText = true ∧ escaped.isEndTagName = false)
    (hless : lessThanSign.isText = true ∧ lessThanSign.isEndTagName = false) :
    FitsText k token cc (escapedState dash escaped lessThanSign buffers ends k cc) := by
  unfold escapedState
  split
  · exact fits_advance hk hdash
  · split
    · exact fits_advance hk hless
    · split
      · exact fits_advance hk ⟨rfl, rfl⟩
      · split
        · exact fits_reconsume hk hweight ⟨rfl, rfl⟩ rfl
        · exact fits_advance hk hescaped

theorem fits_doubleEscapeState {state script otherwise reconsume : State}
    (hk : k.bufferedEndTagName = []) (hweight : reconsume.weight < k.state.weight)
    (hstate : state.isText = true ∧ state.isEndTagName = false)
    (hscript : script.isText = true ∧ script.isEndTagName = false)
    (hother : otherwise.isText = true ∧ otherwise.isEndTagName = false)
    (hreconsume : reconsume.isText = true ∧ reconsume.isEndTagName = false) :
    FitsText k token cc (doubleEscapeState state script otherwise reconsume k cc) := by
  unfold doubleEscapeState
  split
  · refine fits_advance hk ?_
    split
    · exact hscript
    · exact hother
  · split
    · exact fits_advance hk hstate
    · exact fits_reconsume hk hweight hreconsume rfl

/-- **The states that only buffer characters.** -/
theorem fits_text (hnames : Names k) {r : TextStep} (h : textState k cc = some r) :
    FitsText k token cc r := by
  unfold textState at h
  split at h <;> rename_i hstate
  -- The states of other things come last, those with a name have none that is quiet.
  case h_32 => cases h
  case h_8 | h_11 | h_14 | h_22 =>
    have hk : k.bufferedEndTagName ≠ [] := fun hnil => by
      have := hnames.mp hnil
      rw [hstate] at this
      cases this
    cases h
    exact fits_possibleEndTagNameState hk (by rw [hstate]; decide) ⟨rfl, rfl⟩ ⟨rfl, rfl⟩
  all_goals have hk : k.bufferedEndTagName = [] := hnames.mpr (by rw [hstate]; rfl)
  case h_6 | h_9 =>
    cases h
    exact fits_lessThanSignState hk (by rw [hstate]; decide) ⟨rfl, rfl⟩ ⟨rfl, rfl⟩
  case h_7 | h_10 | h_13 | h_21 =>
    cases h
    exact fits_possibleEndTagOpenState hk (by rw [hstate]; decide) ⟨rfl, rfl⟩ ⟨rfl, rfl⟩
  case h_15 | h_16 =>
    cases h
    exact fits_escapeStartState hk (by rw [hstate]; decide) ⟨rfl, rfl⟩
  case h_17 | h_18 | h_19 | h_24 | h_25 | h_26 =>
    cases h
    exact fits_escapedState hk (by rw [hstate]; decide) ⟨rfl, rfl⟩ ⟨rfl, rfl⟩ ⟨rfl, rfl⟩
  case h_23 | h_28 =>
    cases h
    exact fits_doubleEscapeState hk (by rw [hstate]; decide) ⟨rfl, rfl⟩ ⟨rfl, rfl⟩ ⟨rfl, rfl⟩
      ⟨rfl, rfl⟩
  all_goals
    repeat' split at h
    all_goals cases h
    all_goals
      first
      | exact fits_advance hk ⟨rfl, rfl⟩
      | exact fits_reconsume hk (by rw [hstate]; decide) ⟨rfl, rfl⟩ rfl
      | exact ⟨rfl, rfl, ‹_›, hstate, rfl⟩
      | exact ⟨rfl, rfl, ‹_›, hk⟩

/-! ### The states that work on a token -/

theorem fits_tag_advance {state : State} (hk : k'.bufferedEndTagName = [])
    (ht : t.type ≠ .character) (hstate : state.isEndTagName = false) :
    Fits k token cc k' t (.advanceTo state) :=
  ⟨fun _ => ht, names_of_quiet hk hstate⟩

theorem fits_tag_reconsume {state : State} (hk : k'.bufferedEndTagName = [])
    (ht : t.type ≠ .character) (hweight : state.weight < k.state.weight)
    (hstate : state.isEndTagName = false) (hskip : k'.skipNextNewLine = k.skipNextNewLine) :
    Fits k token cc k' t (.reconsumeIn state) :=
  ⟨hweight, hskip, fun _ => ht, names_of_quiet hk hstate⟩

theorem type_beginStartTag (token : HTMLToken) (c : UInt16) :
    (token.beginStartTag c).type ≠ .character := by
  show TokenType.startTag ≠ .character
  decide

theorem type_beginEndTag (token : HTMLToken) (name : Units) :
    (token.beginEndTag name).type ≠ .character := by
  show TokenType.endTag ≠ .character
  decide

theorem type_beginComment (token : HTMLToken) : token.beginComment.type ≠ .character := by
  show TokenType.comment ≠ .character
  decide

theorem type_beginDOCTYPE (token : HTMLToken) (name : Units) :
    (token.beginDOCTYPE name).type ≠ .character := by
  show TokenType.doctype ≠ .character
  decide

theorem fits_quotedValueState {quote : UInt16} {state : State} {position : Int}
    (hk : k.bufferedEndTagName = []) (ht : token.type ≠ .character) (hweight : 0 < k.state.weight)
    (hstate : state.isEndTagName = false) :
    let r := quotedValueState quote state k token cc position
    Fits k token cc r.1 r.2.1 r.2.2 := by
  intro r
  unfold r quotedValueState
  split
  · exact fits_tag_advance hk ht rfl
  · split
    · exact fits_tag_advance hk ht rfl
    · split
      · exact fits_tag_reconsume hk ht hweight rfl rfl
      · exact fits_tag_advance hk ht hstate

theorem fits_tagState (hnames : Names k) (htidy : Tidy k.state token) {position : Int}
    {r : TokenStep} (h : tagState k token cc position = some r) :
    Fits k token cc r.1 r.2.1 r.2.2 := by
  unfold tagState at h
  split at h <;> rename_i hstate
  case h_13 => cases h
  all_goals
    have hk : k.bufferedEndTagName = [] := hnames.mpr (by rw [hstate]; rfl)
    have ht : token.type ≠ .character := htidy (by rw [hstate]; rfl)
    have hweight : 0 < k.state.weight := by rw [hstate]; decide
  case h_8 | h_9 =>
    cases h
    exact fits_quotedValueState hk ht hweight rfl
  all_goals
    repeat' split at h
    all_goals cases h
    all_goals
      first
      | exact fits_tag_advance hk ht rfl
      | exact fits_tag_advance hk (type_beginStartTag _ _) rfl
      | exact fits_tag_advance hk (type_beginEndTag _ _) rfl
      | exact ⟨ht, hk, rfl⟩
      | exact fits_tag_reconsume hk ht (by rw [hstate]; decide) rfl rfl
      | exact fits_reconsume hk hweight ⟨rfl, rfl⟩ rfl

/-- What a state does to the token only. -/
def FitsToken (k : HTMLTokenizer) (token : HTMLToken) (cc : UInt16) (r : HTMLToken × Next) : Prop :=
  Fits k token cc k r.1 r.2

theorem fits_commentState (hnames : Names k) (htidy : Tidy k.state token) {r : HTMLToken × Next}
    (h : commentState k.state token cc = some r) : FitsToken k token cc r := by
  unfold commentState at h
  split at h <;> rename_i hstate
  case h_9 => cases h
  all_goals
    have hk : k.bufferedEndTagName = [] := hnames.mpr (by rw [hstate]; rfl)
    have ht : token.type ≠ .character := htidy (by rw [hstate]; rfl)
    have hweight : 0 < k.state.weight := by rw [hstate]; decide
    repeat' split at h
    all_goals cases h
    all_goals
      first
      | exact fits_tag_advance hk ht rfl
      | exact ⟨ht, hk, rfl⟩
      | exact ⟨ht, hk, rfl, hweight⟩
      | exact fits_tag_reconsume hk (type_beginComment _) (by rw [hstate]; decide) rfl rfl

theorem fits_brokenDOCTYPE (hk : k.bufferedEndTagName = []) (ht : token.type ≠ .character)
    (hweight : 0 < k.state.weight) : FitsToken k token cc (brokenDOCTYPE token cc) := by
  unfold brokenDOCTYPE
  split
  · exact ⟨ht, hk, rfl⟩
  · split
    · exact ⟨ht, hk, rfl, hweight⟩
    · exact fits_tag_advance hk ht rfl

theorem fits_beginsPublicIdentifier {r : HTMLToken × Next} (hk : k.bufferedEndTagName = [])
    (ht : token.type ≠ .character) (hr : FitsToken k token cc r) :
    FitsToken k token cc (beginsPublicIdentifier token cc r) := by
  unfold beginsPublicIdentifier beginsIdentifier
  split
  · exact fits_tag_advance hk ht rfl
  · split
    · exact fits_tag_advance hk ht rfl
    · exact hr

theorem fits_beginsSystemIdentifier {r : HTMLToken × Next} (hk : k.bufferedEndTagName = [])
    (ht : token.type ≠ .character) (hr : FitsToken k token cc r) :
    FitsToken k token cc (beginsSystemIdentifier token cc r) := by
  unfold beginsSystemIdentifier beginsIdentifier
  split
  · exact fits_tag_advance hk ht rfl
  · split
    · exact fits_tag_advance hk ht rfl
    · exact hr

theorem fits_identifierState {quote : UInt16} {state after : State}
    {appendTo : HTMLToken → UInt16 → HTMLToken} (hk : k.bufferedEndTagName = [])
    (ht : token.type ≠ .character) (hweight : 0 < k.state.weight)
    (happend : (appendTo token cc).type = token.type)
    (hstate : state.isEndTagName = false ∧ after.isEndTagName = false) :
    FitsToken k token cc (identifierState quote state after appendTo token cc) := by
  unfold identifierState
  split
  · exact fits_tag_advance hk ht hstate.2
  · split
    · exact fits_brokenDOCTYPE hk ht hweight
    · exact fits_tag_advance hk (by rw [happend]; exact ht) hstate.1

theorem fits_doctypeState (hnames : Names k) (htidy : Tidy k.state token) {r : HTMLToken × Next}
    (h : doctypeState k.state token cc = some r) : FitsToken k token cc r := by
  unfold doctypeState at h
  split at h <;> rename_i hstate
  case h_16 => cases h
  all_goals
    have hk : k.bufferedEndTagName = [] := hnames.mpr (by rw [hstate]; rfl)
    have ht : token.type ≠ .character := htidy (by rw [hstate]; rfl)
    have hweight : 0 < k.state.weight := by rw [hstate]; decide
  case h_6 | h_7 | h_12 | h_13 =>
    cases h
    exact fits_identifierState hk ht hweight rfl ⟨rfl, rfl⟩
  all_goals
    repeat' split at h
    all_goals cases h
    all_goals
      first
      | exact fits_tag_advance hk ht rfl
      | exact fits_tag_advance hk (type_beginDOCTYPE _ _) rfl
      | exact ⟨ht, hk, rfl⟩
      | exact ⟨ht, hk, rfl, hweight⟩
      | exact ⟨type_beginDOCTYPE token [], hk, rfl⟩
      | exact ⟨type_beginDOCTYPE token [], hk, rfl, hweight⟩
      | exact fits_tag_reconsume hk ht (by rw [hstate]; decide) rfl rfl
      | exact fits_beginsPublicIdentifier hk ht (fits_brokenDOCTYPE hk ht hweight)
      | exact fits_beginsSystemIdentifier hk ht (fits_brokenDOCTYPE hk ht hweight)

/-- No characters are queued in the states that work on a token. -/
theorem ne_of_tagState (htidy : Tidy k.state token) {position : Int} {r : TokenStep}
    (h : tagState k token cc position = some r) : token.type ≠ .character := by
  unfold tagState at h
  split at h <;> rename_i hstate
  case h_13 => cases h
  all_goals exact htidy (by rw [hstate]; rfl)

theorem ne_of_commentState (htidy : Tidy k.state token) {r : HTMLToken × Next}
    (h : commentState k.state token cc = some r) : token.type ≠ .character := by
  unfold commentState at h
  split at h <;> rename_i hstate
  case h_9 => cases h
  all_goals exact htidy (by rw [hstate]; rfl)

theorem ne_of_doctypeState (htidy : Tidy k.state token) {r : HTMLToken × Next}
    (h : doctypeState k.state token cc = some r) : token.type ≠ .character := by
  unfold doctypeState at h
  split at h <;> rename_i hstate
  case h_16 => cases h
  all_goals exact htidy (by rw [hstate]; rfl)

/-! ### All of them -/

theorem queued_buffer (characters : Units) :
    queued (token.bufferCharacters characters) =
      queued token ++ queued ((flushed token).bufferCharacters characters) := by
  unfold HTMLToken.bufferCharacters flushed queued
  by_cases hkind : token.type = .character <;> by_cases hnil : characters = [] <;>
    simp [hkind, hnil, HTMLToken.clear]

theorem flushed_buffer (characters : Units) :
    flushed (token.bufferCharacters characters) =
      flushed ((flushed token).bufferCharacters characters) := by
  unfold HTMLToken.bufferCharacters flushed
  by_cases hkind : token.type = .character <;> by_cases hnil : characters = [] <;>
    simp [hkind, hnil, HTMLToken.clear]

theorem flushed_of_ne (h : token.type ≠ .character) : flushed token = token := if_neg h

theorem queued_of_ne (h : token.type ≠ .character) : queued token = [] := if_neg h

/-- The tokens `t` and `t₀` are what a state makes of a token and of the same without the
characters that were queued. -/
structure SameButQueue (token t t₀ : HTMLToken) : Prop where
  queue : queued t = queued token ++ queued t₀
  flush : flushed t = flushed t₀

theorem sameButQueue_of_ne (h : token.type ≠ .character) (t : HTMLToken) : SameButQueue token t t :=
  ⟨by rw [queued_of_ne h]; rfl, rfl⟩

/-- **What an ordinary state does does not depend on what is queued.** -/
theorem ordinary_fits (hnames : Names k) (htidy : Tidy k.state token) {position : Int}
    {r : TokenStep} (h : ordinaryState k token cc position = some r) :
    Fits k token cc r.1 r.2.1 r.2.2 ∧
      ∃ t₀, ordinaryState k (flushed token) cc position = some (r.1, t₀, r.2.2) ∧
        SameButQueue token r.2.1 t₀ := by
  have h' := h
  unfold ordinaryState at h ⊢
  cases htext : textState k cc with
  | some s =>
    rw [htext] at h
    cases h
    exact ⟨fits_text hnames htext, _, rfl, queued_buffer _, flushed_buffer _⟩
  | none =>
    rw [htext] at h
    have hsame : token.type ≠ .character → ∃ t₀, ordinaryState k (flushed token) cc position =
        some (r.1, t₀, r.2.2) ∧ SameButQueue token r.2.1 t₀ := by
      intro ht
      rw [flushed_of_ne ht]
      exact ⟨r.2.1, h', sameButQueue_of_ne ht _⟩
    unfold ordinaryState at hsame
    rw [htext] at hsame
    dsimp only at h hsame
    cases htag : tagState k token cc position with
    | some s =>
      rw [htag] at h
      cases h
      exact ⟨fits_tagState hnames htidy htag, hsame (ne_of_tagState htidy htag)⟩
    | none =>
      rw [htag] at h
      dsimp only at h
      cases hcomment : commentState k.state token cc with
      | some s =>
        rw [hcomment] at h
        cases h
        exact ⟨fits_commentState hnames htidy hcomment,
          hsame (ne_of_commentState htidy hcomment)⟩
      | none =>
        rw [hcomment] at h
        dsimp only at h
        cases hdoctype : doctypeState k.state token cc with
        | some s =>
          rw [hdoctype] at h
          cases h
          exact ⟨fits_doctypeState hnames htidy hdoctype,
            hsame (ne_of_doctypeState htidy hdoctype)⟩
        | none =>
          rw [hdoctype] at h
          cases h

/-! ### The states that ask the source -/

/-- The states that are not text states keep no name and have a weight, and characters are queued
in those of references only. -/
theorem textState_none (h : textState k cc = none) :
    (k.state.isText = true → k.state = .characterReferenceInDataState ∨
      k.state = .characterReferenceInRCDATAState) ∧
      0 < k.state.weight ∧ k.state.isEndTagName = false := by
  unfold textState at h
  split at h
  case h_32 =>
    cases hstate : k.state
    all_goals
      first
      | exact absurd hstate (by assumption)
      | decide
  all_goals
    repeat' split at h
    all_goals cases h

/-- What a question may lead to. -/
def FitsQuestion (k : HTMLTokenizer) (token : HTMLToken) (cc : UInt16) : Question → Prop
  | .reference _ put state =>
    state.weight < k.state.weight ∧ Names { k with state := state } ∧
      ∀ characters, Tidy state (put characters)
  | .lookAhead string _ t state otherwise =>
    string ≠ [] ∧ Names { k with state := state } ∧ Tidy state t ∧ FitsToken k token cc otherwise
  | .nothing t next => FitsToken k token cc (t, next)

theorem fits_markupDeclarationOpenState (hk : k.bufferedEndTagName = [])
    (ht : token.type ≠ .character) (hstate : k.state = .markupDeclarationOpenState) :
    FitsQuestion k token cc (markupDeclarationOpenState k token cc) := by
  have hbogus : FitsToken k token cc (token, .reconsumeIn .bogusCommentState) :=
    fits_tag_reconsume hk ht (by rw [hstate]; decide) rfl rfl
  unfold markupDeclarationOpenState
  dsimp only
  split
  · exact ⟨List.cons_ne_nil _ _, names_of_quiet hk rfl, fun _ => type_beginComment _, hbogus⟩
  · split
    · exact ⟨List.cons_ne_nil _ _, names_of_quiet hk rfl, fun _ => ht, hbogus⟩
    · split
      · exact ⟨List.cons_ne_nil _ _, names_of_quiet hk rfl, fun _ => ht, hbogus⟩
      · exact hbogus

theorem fits_afterDOCTYPENameState (hk : k.bufferedEndTagName = [])
    (ht : token.type ≠ .character) (hweight : 0 < k.state.weight) :
    FitsQuestion k token cc (afterDOCTYPENameState token cc) := by
  have hbroken : FitsToken k token cc (brokenDOCTYPE token cc) := fits_brokenDOCTYPE hk ht hweight
  unfold afterDOCTYPENameState
  dsimp only
  split
  · exact ⟨fun _ => ht, names_of_quiet hk rfl⟩
  · split
    · exact ⟨ht, hk, rfl⟩
    · split
      · exact ⟨List.cons_ne_nil _ _, names_of_quiet hk rfl, fun _ => ht, hbroken⟩
      · split
        · exact ⟨List.cons_ne_nil _ _, names_of_quiet hk rfl, fun _ => ht, hbroken⟩
        · exact hbroken

/-- The state of the value does not queue characters. -/
theorem attributeValueState_spec (additional : UInt16) :
    (attributeValueState additional).weight = 1 ∧
      (attributeValueState additional).isEndTagName = false := by
  unfold attributeValueState
  split
  · exact ⟨rfl, rfl⟩
  · split <;> exact ⟨rfl, rfl⟩

/-- **What a state asks does not depend on what is queued**, but where a reference is put. -/
theorem question_fits (hnames : Names k) (htidy : Tidy k.state token)
    (h : textState k cc = none) :
    FitsQuestion k token cc (lookAheadState k token cc) ∧
      (token.type ≠ .character ∨ ∃ state,
        lookAheadState k token cc = .reference 0 token.bufferCharacters state ∧
        lookAheadState k (flushed token) cc =
          .reference 0 (flushed token).bufferCharacters state) := by
  obtain ⟨htext, hweight, hname⟩ := textState_none h
  have hk : k.bufferedEndTagName = [] := hnames.mpr hname
  unfold lookAheadState
  split <;> rename_i hstate
  · exact ⟨⟨by rw [hstate]; decide, names_of_quiet hk rfl, fun _ => tidy_of_text rfl⟩,
      .inr ⟨_, rfl, rfl⟩⟩
  · exact ⟨⟨by rw [hstate]; decide, names_of_quiet hk rfl, fun _ => tidy_of_text rfl⟩,
      .inr ⟨_, rfl, rfl⟩⟩
  · have ht : token.type ≠ .character := htidy (by rw [hstate]; rfl)
    obtain ⟨hvalue, hquiet⟩ := attributeValueState_spec k.additionalAllowedCharacter
    refine ⟨⟨?_, names_of_quiet hk hquiet, fun _ _ => ht⟩, .inl ht⟩
    rw [hvalue, hstate]
    decide
  · have ht : token.type ≠ .character := htidy (by rw [hstate]; rfl)
    exact ⟨fits_markupDeclarationOpenState hk ht hstate, .inl ht⟩
  · have ht : token.type ≠ .character := htidy (by
      cases htoo : k.state.isText with
      | false => rfl
      | true => rcases htext htoo with hdata | hrcdata <;> contradiction)
    exact ⟨fits_afterDOCTYPENameState hk ht hweight, .inl ht⟩

/-- A state that asks the source does so whatever is queued. -/
theorem ordinary_none (hnames : Names k) (htidy : Tidy k.state token) {position : Int}
    (h : ordinaryState k token cc position = none) :
    textState k cc = none ∧ ordinaryState k (flushed token) cc position = none := by
  have htext : textState k cc = none := by
    unfold ordinaryState at h
    cases htext : textState k cc with
    | none => rfl
    | some s =>
      rw [htext] at h
      cases h
  refine ⟨htext, ?_⟩
  rcases (question_fits hnames htidy htext).2 with ht | ⟨state, -, -⟩
  · rw [flushed_of_ne ht]
    exact h
  · cases htoo : k.state.isText with
    | false =>
      rw [flushed_of_ne (htidy htoo)]
      exact h
    | true =>
      unfold ordinaryState
      rw [htext]
      rcases (textState_none htext).1 htoo with hstate | hstate <;>
      · unfold tagState commentState doctypeState
        rw [hstate]

end Fitting

end Blinkit.Html
