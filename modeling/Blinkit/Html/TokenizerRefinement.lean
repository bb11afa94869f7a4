import Blinkit.Html.EagerTokenizer

/-!
# The tokenizer keeps what the eager one emits

`NextToken` works on a segmented string, keeps characters in its token until it has to hand them
on, and returns with every token. What it hands on is what the eager tokenizer emits.

* `InHand` — the character that has been peeked at still stands in the source.
* `Trails` — what the eager tokenizer does from one state is what it does from another one, with
  some output in front.
* `settle` — what is left to do when `NextToken` is called again.
* `Rests` — the tokenizer between two calls.

Principal results: `nextToken_spec` (a call), `scan_spec` (all calls until the source is used up).
-/

set_option autoImplicit false

namespace Blinkit.Html

open Platform Feeding
open Text (Units)

/-! ## Peeking -/

/-- The character in hand is that of the source, a line feed for a carriage return, or the
replacement of a null. -/
inductive Stands (k : HTMLTokenizer) (q : Plain) (cc : UInt16) : Prop where
  | lineEnd {rest : Units} : q.text = chr '\r' :: rest → cc = chr '\n' →
      k.skipNextNewLine = true → Stands k q cc
  | same {rest : Units} : q.text = cc :: rest → cc ≠ chr '\r' →
      (cc = 0 → (q.closed && rest.isEmpty) = true) → k.skipNextNewLine = false → Stands k q cc
  | replaced {rest : Units} : q.text = 0 :: rest → cc = 0xFFFD →
      (q.closed && rest.isEmpty) = false → k.skipNextNewLine = false → Stands k q cc

section Peeking

variable {table : HTMLEntityTable} {k k' : HTMLTokenizer} {source : Platform.SegmentedString}
  {q : Plain} {cc : UInt16} {t : HTMLToken}

theorem Stands.ne (h : Stands k q cc) : q.text ≠ [] := by
  cases h with
  | lineEnd htext _ _ | same htext _ _ _ | replaced htext _ _ _ =>
    rw [htext]
    exact List.cons_ne_nil _ _

theorem Stands.of_skip (h : Stands k q cc) (k' : HTMLTokenizer)
    (hskip : k'.skipNextNewLine = k.skipNextNewLine) :
    Stands k' q cc := by
  cases h with
  | lineEnd htext hcc hk => exact .lineEnd htext hcc (hskip.trans hk)
  | same htext hcc hend hk => exact .same htext hcc hend (hskip.trans hk)
  | replaced htext hcc hend hk => exact .replaced htext hcc hend (hskip.trans hk)

theorem with_skip {b : Bool} (h : k.skipNextNewLine = b) : { k with skipNextNewLine := b } = k := by
  subst h
  rfl

/-- What stands in the source is peeked at again, where no null is skipped. -/
theorem Stands.again (h : Stands k q cc)
    (hcc : k.shouldSkipNullCharacters = true → cc ≠ 0xFFFD) :
    peekPlain k q = some (k, some cc) := by
  unfold peekPlain
  cases h with
  | lineEnd htext hcc hk =>
    rw [htext]
    dsimp only
    unfold peekCharacter
    rw [if_neg (fun hline => absurd hline.1 (by decide)), if_pos rfl, with_skip hk, hcc]
  | same htext hreturn hend hk =>
    rw [htext]
    dsimp only
    unfold peekCharacter
    rw [if_neg (fun hline => by rw [hk] at hline; exact absurd hline.2 Bool.false_ne_true),
      if_neg hreturn, with_skip hk]
    dsimp only
    rw [if_neg]
    rintro ⟨hzero, hnot⟩
    rw [hend hzero] at hnot
    cases hnot
  | replaced htext hcc' hend hk =>
    rw [htext]
    dsimp only
    unfold peekCharacter
    rw [if_neg (fun hline => absurd hline.1 (by decide)), if_neg (by decide), with_skip hk]
    dsimp only
    rw [if_pos ⟨rfl, hend⟩, if_neg (fun hskips => hcc hskips hcc'), hcc']

/-- What peeking finds, as steps of the eager tokenizer, whatever its token is. -/
structure Peeks (table : HTMLEntityTable) (k : HTMLTokenizer) (q : Plain)
    (r : HTMLTokenizer × Platform.SegmentedString × Option UInt16) (q' : Plain) : Prop where
  shows : r.2.1.Shows q'
  flag : r.1 = { k with skipNextNewLine := r.1.skipNextNewLine }
  steps : ∀ t, Leads (Eager.step table) ⟨k, t, none, q⟩ [] ⟨r.1, t, r.2.2, q'⟩
  shorter : q'.text.length ≤ q.text.length
  found : match r.2.2 with
    | none => q'.text = []
    | some cc => Stands r.1 q' cc

theorem step_skipped {k₁ : HTMLTokenizer} (h : peekPlain k q = some (k₁, none)) (t : HTMLToken) :
    Leads (Eager.step table) ⟨k, t, none, q⟩ [] ⟨k₁, t, none, skip q 1⟩ := by
  apply Leads.single
  unfold Eager.step
  dsimp only
  rw [h]

theorem step_found {k₁ : HTMLTokenizer} (h : peekPlain k q = some (k₁, some cc)) (t : HTMLToken) :
    Leads (Eager.step table) ⟨k, t, none, q⟩ [] ⟨k₁, t, some cc, q⟩ := by
  apply Leads.single
  unfold Eager.step
  dsimp only
  rw [h]

/-- A character is skipped, and peeking goes on behind it. -/
theorem Peeks.skipped {k₁ : HTMLTokenizer} {q' : Plain}
    {r : HTMLTokenizer × Platform.SegmentedString × Option UInt16}
    (hskip : peekPlain k q = some (k₁, none))
    (hflag : k₁ = { k with skipNextNewLine := k₁.skipNextNewLine })
    (h : Peeks table k₁ (skip q 1) r q') : Peeks table k q r q' := by
  refine ⟨h.shows, ?_, fun t => (step_skipped hskip t).trans (h.steps t), ?_, h.found⟩
  · rw [h.flag, hflag]
  · refine Nat.le_trans h.shorter ?_
    unfold skip
    rw [List.length_drop]
    exact Nat.sub_le _ _

/-- The source is empty. -/
theorem peeks_empty (h : source.Shows q) (hempty : q.text = []) :
    Peeks table k q (k, source, none) q :=
  ⟨h, rfl, fun _ => .nil _, Nat.le_refl _, hempty⟩

theorem peeks_found {k₁ : HTMLTokenizer} (h : source.Shows q)
    (hfound : peekPlain k q = some (k₁, some cc))
    (hflag : k₁ = { k with skipNextNewLine := k₁.skipNextNewLine }) (hstands : Stands k₁ q cc) :
    Peeks table k q (k₁, source, some cc) q :=
  ⟨h, hflag, fun t => step_found hfound t, Nat.le_refl _, hstands⟩

theorem peeks_processCharacter {c : UInt16} {rest : Units} {n : Int} {closed : Bool}
    (again : HTMLTokenizer → Platform.SegmentedString →
      HTMLTokenizer × Platform.SegmentedString × Option UInt16)
    (h : source.Shows ⟨c :: rest, n, closed⟩) (hline : ¬(c = chr '\n' ∧ k.skipNextNewLine = true))
    (hagain : ∀ k' s, s.Shows ⟨rest, n + 1, closed⟩ → rest ≠ [] →
      ∃ q', Peeks table k' ⟨rest, n + 1, closed⟩ (again k' s) q') :
    ∃ q', Peeks table k ⟨c :: rest, n, closed⟩ (k.processCharacter source again) q' := by
  obtain ⟨-, hchar, hadvance⟩ := h.read
  have hmarker : HTMLTokenizer.shouldTreatNullAsEndOfFileMarker source =
      (closed && rest.isEmpty) := by
    unfold HTMLTokenizer.shouldTreatNullAsEndOfFileMarker
    rw [h.length, h.closed]
    cases rest <;> rfl
  have hpeek : peekPlain k ⟨c :: rest, n, closed⟩ =
      some (peekCharacter k c (closed && rest.isEmpty)) := rfl
  unfold peekCharacter at hpeek
  rw [if_neg hline] at hpeek
  unfold HTMLTokenizer.processCharacter
  rw [hchar, hmarker]
  dsimp only
  split
  · rename_i hreturn
    rw [if_pos hreturn] at hpeek
    exact ⟨_, peeks_found h hpeek rfl (.lineEnd (by rw [hreturn]) rfl rfl)⟩
  · rename_i hreturn
    rw [if_neg hreturn] at hpeek
    dsimp only at hpeek
    split
    · rename_i hnull
      rw [if_pos hnull] at hpeek
      split
      · rename_i hskips
        rw [if_pos hskips] at hpeek
        rw [hadvance.isEmpty]
        cases rest with
        | nil => exact ⟨_, .skipped hpeek rfl (peeks_empty hadvance rfl)⟩
        | cons d rest =>
          obtain ⟨q', hrest⟩ := hagain { k with skipNextNewLine := false } _ hadvance
            (List.cons_ne_nil _ _)
          exact ⟨q', .skipped hpeek rfl hrest⟩
      · rename_i hskips
        rw [if_neg hskips] at hpeek
        exact ⟨_, peeks_found h hpeek rfl (.replaced (by rw [hnull.1]) rfl hnull.2 rfl)⟩
    · rename_i hnull
      rw [if_neg hnull] at hpeek
      refine ⟨_, peeks_found h hpeek rfl (.same rfl hreturn (fun hzero => ?_) rfl)⟩
      exact (Bool.not_eq_false _).mp fun hend => hnull ⟨hzero, hend⟩

theorem peeks_process {fuel : Nat} (h : source.Shows q) (hne : q.text ≠ [])
    (hfuel : q.text.length ≤ fuel) :
    ∃ q', Peeks table k q (HTMLTokenizer.processNextInputCharacter fuel k source) q' := by
  induction fuel generalizing k source q with
  | zero => exact absurd (List.length_eq_zero_iff.mp (Nat.le_zero.mp hfuel)) hne
  | succ fuel ih =>
    obtain ⟨text, n, closed⟩ := q
    cases text with
    | nil => exact absurd rfl hne
    | cons c rest =>
      obtain ⟨-, hchar, hadvance⟩ := h.read
      have hrest : rest.length ≤ fuel := Nat.le_of_succ_le_succ hfuel
      unfold HTMLTokenizer.processNextInputCharacter
      rw [hchar]
      split
      · rename_i hline
        have hpeek : peekPlain k ⟨c :: rest, n, closed⟩ =
            some ({ k with skipNextNewLine := false }, none) := by
          unfold peekPlain peekCharacter
          dsimp only
          rw [if_pos hline]
        dsimp only
        rw [hadvance.isEmpty]
        cases rest with
        | nil => exact ⟨_, .skipped hpeek rfl (peeks_empty hadvance rfl)⟩
        | cons d rest =>
          rw [if_neg (by exact Bool.false_ne_true)]
          have hagain : ¬(d = chr '\n' ∧ false = true) := fun hboth =>
            absurd hboth.2 Bool.false_ne_true
          obtain ⟨q', hnext⟩ := peeks_processCharacter (k := { k with skipNextNewLine := false })
            (HTMLTokenizer.processNextInputCharacter fuel) hadvance hagain
            (fun k' s hs hne' => ih hs hne' (Nat.le_of_succ_le hrest))
          exact ⟨q', .skipped hpeek rfl hnext⟩
      · rename_i hline
        exact peeks_processCharacter _ h hline fun k' s hs hne' => ih hs hne' hrest

/-- **Peeking at a segmented string is peeking at its text.** -/
theorem peeks_peekIfNotEmpty (table : HTMLEntityTable) (k : HTMLTokenizer) (h : source.Shows q) :
    ∃ q', Peeks table k q (k.peekIfNotEmpty source) q' := by
  unfold HTMLTokenizer.peekIfNotEmpty HTMLTokenizer.peek
  obtain ⟨text, n, closed⟩ := q
  rw [h.isEmpty, h.length]
  cases text with
  | nil => exact ⟨_, peeks_empty h rfl⟩
  | cons c rest =>
    obtain ⟨-, hchar, -⟩ := h.read
    rw [if_neg (by exact Bool.false_ne_true), hchar]
    split
    · rename_i hfast
      have hline : c ≠ chr '\n' := fun hc => hfast (by rw [hc]; decide)
      have hreturn : c ≠ chr '\r' := fun hc => hfast (by rw [hc]; decide)
      have hzero : c ≠ 0 := fun hc => hfast (by rw [hc]; decide)
      have hpeek : peekPlain k ⟨c :: rest, n, closed⟩ =
          some ({ k with skipNextNewLine := false }, some c) := by
        unfold peekPlain peekCharacter
        dsimp only
        rw [if_neg (fun hboth => hline hboth.1), if_neg hreturn,
          if_neg (fun hboth => hzero hboth.1)]
      exact ⟨_, peeks_found h hpeek rfl (.same rfl hreturn (fun hc => absurd hc hzero) rfl)⟩
    · exact peeks_process h (List.cons_ne_nil _ _) (Nat.le_refl _)

end Peeking

/-! ## Between two calls -/

/-- An end tag waits until the characters in front of it have been emitted. -/
def isPending (k : HTMLTokenizer) : Bool :=
  !k.bufferedEndTagName.isEmpty && !k.state.isEndTagBuffering

/-- The tokenizer, its token, and what is emitted at once when `NextToken` is called again. -/
def settle (k : HTMLTokenizer) (token : HTMLToken) : HTMLTokenizer × HTMLToken × List Event :=
  if isPending k then
    let endTag := token.beginEndTag k.bufferedEndTagName
    if k.state = .dataState then (clearEndTag k, endTag.clear, endTag.events)
    else (clearEndTag k, endTag, [])
  else (k, token, [])

namespace Scanner

/-- The eager tokenizer where the next call begins. -/
def eager (s : Scanner) (q : Plain) : Eager :=
  ⟨(settle s.tokenizer s.token).1, (settle s.tokenizer s.token).2.1, none, q⟩

def owed (s : Scanner) : List Event := (settle s.tokenizer s.token).2.2

/-- What the calls that are left use up. -/
def measure (s : Scanner) (q : Plain) : Nat :=
  8 * q.text.length + 2 * s.tokenizer.state.weight + 1 + (if isPending s.tokenizer then 1 else 0)

/-- The tokenizer rests: nothing is queued, and an end tag is buffered in its states or waits. -/
structure Rests (s : Scanner) (q : Plain) : Prop where
  shows : s.source.Shows q
  kind : s.token.type ≠ .character
  names : Names s.tokenizer ∨
    isPending s.tokenizer = true ∧ s.tokenizer.state.isEndTagName = false

end Scanner

namespace Returned

/-- What the loop of `Scan` makes of it. -/
def after (r : Returned) : Scanner :=
  if r.emits then ⟨afterToken r.tokenizer r.token, r.token.clear, r.source⟩
  else ⟨r.tokenizer, r.token, r.source⟩

def emitted (r : Returned) : List Event := if r.emits then r.token.events else []

end Returned

/-- What comes of a state of the eager tokenizer when the characters of `queue` have still to be
handed on: they and what the eager tokenizer emits are what is handed on or waits, at most `budget`
is left, and without a token nothing is left to do. -/
structure Yields (table : HTMLEntityTable) (e : Eager) (queue : List Event) (budget : Nat)
    (r : Returned) (q : Plain) : Prop where
  rests : r.after.Rests q
  emits : ∃ os, queue ++ os = r.emitted ++ r.after.owed ∧
    Trails (Eager.step table) e os (r.after.eager q)
  ends : r.emits = false →
    r.after.owed = [] ∧ ∃ c, Exhausts (Eager.step table) (r.after.eager q) [] c
  less : r.emits = true → r.after.measure q ≤ budget

section Resting

variable {table : HTMLEntityTable} {k k' : HTMLTokenizer} {source : Platform.SegmentedString}
  {q : Plain} {cc : UInt16} {token t t₀ : HTMLToken} {e e' : Eager} {queue o : List Event}
  {budget : Nat} {r : Returned}

theorem State.isEndTagBuffering_of_name {state : State} (h : state.isEndTagName = true) :
    state.isEndTagBuffering = true := by
  cases state <;> first | rfl | cases h

theorem not_pending (h : Names k) : isPending k = false := by
  unfold isPending
  cases hstate : k.state.isEndTagName with
  | false =>
    rw [h.mpr hstate]
    rfl
  | true =>
    rw [State.isEndTagBuffering_of_name hstate]
    exact Bool.and_false _

theorem pending_of (h : k.bufferedEndTagName ≠ []) (hstate : k.state.isEndTagBuffering = false) :
    isPending k = true := by
  unfold isPending
  rw [hstate, List.isEmpty_eq_false_iff.mpr h]
  rfl

theorem settle_of_names (h : Names k) (token : HTMLToken) : settle k token = (k, token, []) := by
  unfold settle
  rw [not_pending h]
  rfl

theorem names_clearEndTag (h : k.state.isEndTagName = false) : Names (clearEndTag k) :=
  iff_of_true rfl h

theorem State.weight_le (state : State) : state.weight ≤ 3 := by
  cases state <;> decide

theorem afterToken_of_ne (h : token.type ≠ .startTag) : afterToken k token = k := if_neg h

/-- The state that a start tag leads to. -/
theorem afterToken_spec (token : HTMLToken) (hk : k.bufferedEndTagName = [])
    (hstate : k.state = .dataState) :
    Names (afterToken k token) ∧ (afterToken k token).state.weight = 0 := by
  unfold afterToken updateStateFor
  repeat' split
  all_goals
    first
    | exact ⟨iff_of_true hk rfl, rfl⟩
    | exact ⟨iff_of_true hk (by rw [hstate]; rfl), by rw [hstate]; rfl⟩

theorem type_clear (token : HTMLToken) : token.clear.type ≠ .character := by
  show TokenType.uninitialized ≠ .character
  decide

theorem flushed_of_character (h : token.type = .character) : flushed token = token.clear := if_pos h

theorem events_of_character (h : token.type = .character) : token.events = queued token := by
  unfold HTMLToken.events queued
  rw [h, if_pos rfl]

/-- The eager tokenizer takes a step. -/
theorem Yields.step (hstep : Eager.step table e = some (e', o))
    (h : Yields table e' (queue ++ o) budget r q) : Yields table e queue budget r q := by
  obtain ⟨os, hos, htrails⟩ := h.emits
  refine ⟨h.rests, ⟨o ++ os, ?_, (Leads.single hstep).trails.trans htrails⟩, h.ends, h.less⟩
  rw [← List.append_assoc]
  exact hos

theorem Yields.mono {budget' : Nat} (h : Yields table e queue budget r q)
    (hle : budget ≤ budget') : Yields table e queue budget' r q :=
  ⟨h.rests, h.emits, h.ends, fun hemits => Nat.le_trans (h.less hemits) hle⟩

theorem haveBuffered (h : token.type = .character) : haveBufferedCharacterToken token = true :=
  beq_iff_eq.mpr h

theorem haveBuffered_of_ne (h : token.type ≠ .character) :
    haveBufferedCharacterToken token = false :=
  beq_eq_false_iff_ne.mpr h

/-- Characters that are queued are emitted. -/
theorem yields_flush (hkind : token.type = .character) (hnames : Names k) (hshows : source.Shows q)
    (htrails : Trails (Eager.step table) e [] ⟨k, flushed token, none, q⟩) :
    Yields table e (queued token) (8 * q.text.length + 2 * k.state.weight + 1)
      ⟨k, token, source, true⟩ q := by
  have hafter : (⟨k, token, source, true⟩ : Returned).after = ⟨k, token.clear, source⟩ := by
    unfold Returned.after
    rw [if_pos rfl, afterToken_of_ne (by rw [hkind]; decide)]
  have hsettle := settle_of_names hnames token.clear
  refine ⟨?_, ⟨[], ?_, ?_⟩, fun hnot => Bool.noConfusion hnot, fun _ => ?_⟩
  · rw [hafter]
    exact ⟨hshows, type_clear _, .inl hnames⟩
  · rw [hafter]
    unfold Scanner.owed Returned.emitted
    rw [hsettle, if_pos rfl, events_of_character hkind]
  · rw [hafter]
    unfold Scanner.eager
    rw [hsettle, ← flushed_of_character hkind]
    exact htrails
  · rw [hafter]
    unfold Scanner.measure
    rw [not_pending hnames]
    exact Nat.le_refl _

/-- They are emitted in front of the character in hand, which is peeked at again. -/
theorem yields_idle (hkind : token.type = .character) (hnames : Names k) (hshows : source.Shows q)
    (hagain : peekPlain k q = some (k, some cc)) :
    Yields table ⟨k, flushed token, some cc, q⟩ (queued token)
      (8 * q.text.length + 2 * k.state.weight + 1) ⟨k, token, source, true⟩ q := by
  apply yields_flush hkind hnames hshows
  apply Trails.back
  unfold Eager.step
  dsimp only
  rw [hagain]

/-- Nothing is queued, and nothing is left to do. -/
theorem yields_nothing (hkind : token.type ≠ .character) (hnames : Names k)
    (hshows : source.Shows q)
    (htrails : Trails (Eager.step table) e [] ⟨k, flushed token, none, q⟩)
    (hstop : Eager.step table ⟨k, flushed token, none, q⟩ = none) :
    Yields table e (queued token) budget ⟨k, token, source, false⟩ q := by
  have hafter : (⟨k, token, source, false⟩ : Returned).after = ⟨k, token, source⟩ :=
    if_neg Bool.false_ne_true
  have hsettle := settle_of_names hnames token
  rw [flushed_of_ne hkind] at htrails hstop
  refine ⟨?_, ⟨[], ?_, ?_⟩, fun _ => ⟨?_, ?_⟩, fun hnot => Bool.noConfusion hnot⟩
  · rw [hafter]
    exact ⟨hshows, hkind, .inl hnames⟩
  · rw [hafter]
    unfold Scanner.owed Returned.emitted
    rw [hsettle, if_neg Bool.false_ne_true, queued_of_ne hkind]
  · rw [hafter]
    unfold Scanner.eager
    rw [hsettle]
    exact htrails
  · rw [hafter]
    unfold Scanner.owed
    rw [hsettle]
  · rw [hafter]
    unfold Scanner.eager
    rw [hsettle]
    exact ⟨_, .blocked hstop⟩

/-- A token is emitted, and nothing waits. -/
theorem yields_emit {source' : Platform.SegmentedString} {k₁ : HTMLTokenizer} {t₁ : HTMLToken}
    (hstep : Eager.step table e = some (⟨afterToken k₁ t₁, t₁.clear, none, q⟩, o))
    (hnames : Names (afterToken k₁ t₁)) (hshows : source'.Shows q) (ho : queue ++ o = t₁.events)
    (hless : 8 * q.text.length + 2 * (afterToken k₁ t₁).state.weight + 1 ≤ budget) :
    Yields table e queue budget ⟨k₁, t₁, source', true⟩ q := by
  have hafter : (⟨k₁, t₁, source', true⟩ : Returned).after =
      ⟨afterToken k₁ t₁, t₁.clear, source'⟩ := if_pos rfl
  have hsettle := settle_of_names hnames t₁.clear
  refine ⟨?_, ⟨o, ?_, ?_⟩, fun hnot => Bool.noConfusion hnot, fun _ => ?_⟩
  · rw [hafter]
    exact ⟨hshows, type_clear _, .inl hnames⟩
  · rw [hafter]
    unfold Scanner.owed Returned.emitted
    rw [hsettle, if_pos rfl, ho, List.append_nil]
  · rw [hafter]
    unfold Scanner.eager
    rw [hsettle]
    exact (Leads.single hstep).trails
  · rw [hafter]
    unfold Scanner.measure
    rw [not_pending hnames]
    exact hless

/-- Characters that are queued are emitted, and an end tag waits. -/
theorem yields_pending {source' : Platform.SegmentedString} {k₁ : HTMLTokenizer}
    {queue₀ : List Event} (hkind : t.type = .character) (hpending : isPending k₁ = true)
    (hquiet : k₁.state.isEndTagName = false) (hshows : source'.Shows q)
    (hstep : Eager.step table e = some (⟨(settle k₁ t.clear).1, (settle k₁ t.clear).2.1, none, q⟩,
      queue₀ ++ (settle k₁ t.clear).2.2))
    (hqueue : queue ++ queue₀ = queued t)
    (hless : 8 * q.text.length + 2 * k₁.state.weight + 2 ≤ budget) :
    Yields table e queue budget ⟨k₁, t, source', true⟩ q := by
  have hafter : (⟨k₁, t, source', true⟩ : Returned).after = ⟨k₁, t.clear, source'⟩ := by
    unfold Returned.after
    rw [if_pos rfl, afterToken_of_ne (by rw [hkind]; decide)]
  refine ⟨?_, ⟨queue₀ ++ (settle k₁ t.clear).2.2, ?_, ?_⟩, fun hnot => Bool.noConfusion hnot,
    fun _ => ?_⟩
  · rw [hafter]
    exact ⟨hshows, type_clear _, .inr ⟨hpending, hquiet⟩⟩
  · rw [hafter, ← List.append_assoc, hqueue]
    unfold Returned.emitted
    rw [if_pos rfl, events_of_character hkind]
    rfl
  · rw [hafter]
    exact (Leads.single hstep).trails
  · rw [hafter]
    unfold Scanner.measure
    rw [if_pos hpending]
    exact hless

end Resting

/-! ## A call -/

section Loop

variable {table : HTMLEntityTable} {k k' : HTMLTokenizer} {source : Platform.SegmentedString}
  {q : Plain} {cc : UInt16} {token t t₀ : HTMLToken} {next : Next} {fuel : Nat}

abbrev Loop := HTMLTokenizer → HTMLToken → UInt16 → Platform.SegmentedString → Returned

/-- A loop does what it should as long as its fuel lasts. -/
def LoopYields (table : HTMLEntityTable) (fuel : Nat) (loop : Loop) : Prop :=
  ∀ ⦃k token cc source q⦄, source.Shows q → Stands k q cc → Tidy k.state token → Names k →
    8 * q.text.length + 2 * k.state.weight < fuel →
      ∃ q', Yields table ⟨k, flushed token, some cc, q⟩ (queued token)
        (8 * q.text.length + 2 * k.state.weight + (if token.type = .character then 1 else 0))
        (loop k token cc source) q'

/-- On to the next character. -/
theorem continue_yields {loop : Loop} (hloop : LoopYields table fuel loop) (hshows : source.Shows q)
    (htidy : Tidy k.state token) (hnames : Names k)
    (hfuel : 8 * q.text.length + 2 * k.state.weight < fuel) :
    ∃ q', Yields table ⟨k, flushed token, none, q⟩ (queued token)
      (8 * q.text.length + 2 * k.state.weight + (if token.type = .character then 1 else 0))
      (continueWith loop token (k.peekIfNotEmpty source)) q' := by
  obtain ⟨q₁, hpeeks⟩ := peeks_peekIfNotEmpty table k hshows
  generalize k.peekIfNotEmpty source = peeked at hpeeks ⊢
  obtain ⟨k₁, source₁, o⟩ := peeked
  obtain ⟨hshows₁, hflag, hsteps, hshorter, hfound⟩ := hpeeks
  dsimp only at hshows₁ hflag hsteps hfound
  have hstate : k₁.state = k.state := by rw [hflag]
  have hname : k₁.bufferedEndTagName = k.bufferedEndTagName := by rw [hflag]
  have hnames₁ : Names k₁ := by
    unfold Names
    rw [hstate, hname]
    exact hnames
  have htrails := (hsteps (flushed token)).trails
  cases o with
  | some cc =>
    obtain ⟨q', hrests, ⟨os, hos, hrest⟩, hends, hless⟩ :=
      hloop hshows₁ hfound (by rw [hstate]; exact htidy) hnames₁ (by rw [hstate]; omega)
    refine ⟨q', hrests, ⟨os, hos, htrails.trans hrest⟩, hends, fun hemits => ?_⟩
    refine Nat.le_trans (hless hemits) ?_
    rw [hstate]
    omega
  | none =>
    unfold continueWith
    dsimp only
    have hstop : Eager.step table ⟨k₁, flushed token, none, q₁⟩ = none := by
      unfold Eager.step peekPlain
      dsimp only
      rw [hfound]
    refine ⟨q₁, ?_⟩
    by_cases hkind : token.type = .character
    · rw [haveBuffered hkind, if_pos hkind]
      apply (yields_flush hkind hnames₁ hshows₁ htrails).mono
      rw [hstate]
      omega
    · rw [haveBuffered_of_ne hkind]
      exact yields_nothing hkind hnames₁ hshows₁ htrails hstop

/-- The token that a state leaves is emitted: nothing was queued. -/
theorem queued_nil (h : SameButQueue token t t₀) (ht : t.type ≠ .character) :
    queued token = [] ∧ queued t₀ = [] ∧ flushed t₀ = t := by
  have hqueue := h.queue
  rw [queued_of_ne ht] at hqueue
  obtain ⟨hnil, hnil₀⟩ := List.append_eq_nil_iff.mp hqueue.symm
  exact ⟨hnil, hnil₀, by rw [← h.flush, flushed_of_ne ht]⟩

theorem skip_length (hne : q.text ≠ []) : (skip q 1).text.length + 1 = q.text.length := by
  unfold skip
  rw [List.length_drop]
  have := List.length_pos_iff.mpr hne
  omega

theorem shows_advance (hshows : source.Shows q) (hne : q.text ≠ []) :
    source.advance.Shows (skip q 1) := by
  obtain ⟨text, n, closed⟩ := q
  cases text with
  | nil => exact absurd rfl hne
  | cons c rest => exact hshows.read.2.2

/-- A state goes on with the character behind the one in hand. -/
theorem advance_yields {loop : Loop} {k₁ : HTMLTokenizer} {t₁ : HTMLToken}
    (hloop : LoopYields table fuel loop) (hshows : source.Shows q) (hne : q.text ≠ [])
    (hfuel : 8 * q.text.length + 2 * k.state.weight < fuel + 1) (htidy : Tidy k₁.state t₁)
    (hnames : Names k₁) (hqueue : queued t₁ = queued token ++ queued t₀)
    (hstep : Eager.step table ⟨k, flushed token, some cc, q⟩ =
      some (⟨k₁, flushed t₁, none, skip q 1⟩, queued t₀)) :
    ∃ q', Yields table ⟨k, flushed token, some cc, q⟩ (queued token)
      (8 * q.text.length + 2 * k.state.weight + (if token.type = .character then 1 else 0))
      (continueWith loop t₁ (k₁.peekIfNotEmpty source.advance)) q' := by
  have hlength := skip_length hne
  have hweight := State.weight_le k₁.state
  obtain ⟨q', h⟩ := continue_yields hloop (shows_advance hshows hne) htidy hnames (by omega)
  rw [hqueue] at h
  refine ⟨q', (h.step hstep).mono ?_⟩
  have hone : (if t₁.type = .character then 1 else 0) ≤ 1 := by split <;> decide
  omega

/-- A token is emitted, and the source goes on in the data. -/
theorem emit_yields {source' : Platform.SegmentedString} {q' : Plain} {budget : Nat}
    (hsame : SameButQueue token t t₀) (ht : t.type ≠ .character)
    (hnil : k'.bufferedEndTagName = []) (hshows : source'.Shows q')
    (hstep : Eager.step table ⟨k, flushed token, some cc, q⟩ =
      some (⟨afterToken { saveEndTagNameIfNeeded k' (flushed t₀) with state := .dataState }
        (flushed t₀), (flushed t₀).clear, none, q'⟩, queued t₀ ++ (flushed t₀).events))
    (hless : 8 * q'.text.length + 1 ≤ budget) :
    Yields table ⟨k, flushed token, some cc, q⟩ (queued token) budget
      ⟨{ saveEndTagNameIfNeeded k' t with state := .dataState }, t, source', true⟩ q' := by
  obtain ⟨hqueue, hqueue₀, hflush⟩ := queued_nil hsame ht
  have hspec := afterToken_spec (k := { saveEndTagNameIfNeeded k' t with state := .dataState }) t
    (by unfold saveEndTagNameIfNeeded; split <;> exact hnil) rfl
  rw [hflush, hqueue₀, List.nil_append] at hstep
  refine yields_emit hstep hspec.1 hshows ?_ ?_
  · rw [hqueue]
    rfl
  · rw [hspec.2]
    omega

/-- An end tag that was buffered begins, behind the characters that are queued. -/
theorem flushAndAdvance_yields {loop : Loop} {state : State} (hloop : LoopYields table fuel loop)
    (hshows : source.Shows q) (hne : q.text ≠ [])
    (hfuel : 8 * q.text.length + 2 * k.state.weight < fuel + 1)
    (hfits : Fits k token cc k' t (.flushAndAdvanceTo state)) (hsame : SameButQueue token t t₀)
    (hstep : Eager.step table ⟨k, flushed token, some cc, q⟩ =
      some (Eager.finish k' t₀ cc q (.flushAndAdvanceTo state))) :
    ∃ q', Yields table ⟨k, flushed token, some cc, q⟩ (queued token)
      (8 * q.text.length + 2 * k.state.weight + (if token.type = .character then 1 else 0))
      (finish loop k' t cc source (.flushAndAdvanceTo state)) q' := by
  have hlength := skip_length hne
  have hadvance := shows_advance hshows hne
  obtain ⟨hname, hdata, hquiet, hbuffering⟩ := hfits
  have hclear : Names (clearEndTag { k' with state := state }) := names_clearEndTag hquiet
  have hpending : isPending { k' with state := state } = true := pending_of hname hbuffering
  unfold finish
  dsimp only
  by_cases hkind : t.type = .character
  · rw [if_pos (haveBuffered hkind)]
    have hsettle : settle { k' with state := state } t.clear =
        (clearEndTag { k' with state := state }, t.clear.beginEndTag k'.bufferedEndTagName,
          []) := by
      unfold settle
      rw [if_pos hpending]
      exact if_neg hdata
    have hweight := State.weight_le state
    refine ⟨skip q 1, yields_pending hkind hpending hquiet hadvance ?_ hsame.queue.symm
      (by dsimp only; omega)⟩
    rw [hstep, hsettle]
    unfold Eager.finish
    rw [← hsame.flush, flushed_of_character hkind, List.append_nil]
  · rw [haveBuffered_of_ne hkind, if_neg Bool.false_ne_true]
    obtain ⟨hqueue, hqueue₀, hflush⟩ := queued_nil hsame hkind
    have hends : queued (t.beginEndTag k'.bufferedEndTagName) = queued token ++ queued t₀ := by
      rw [queued_of_ne (type_beginEndTag _ _), hqueue, hqueue₀]
      rfl
    refine advance_yields hloop hshows hne hfuel (fun _ => type_beginEndTag _ _) hclear hends ?_
    rw [hstep, flushed_of_ne (type_beginEndTag _ _)]
    unfold Eager.finish
    rw [hflush]

/-- An end tag that was buffered is emitted, behind the characters that are queued. -/
theorem flushEmit_yields {loop : Loop} {state : State} (hshows : source.Shows q) (hne : q.text ≠ [])
    (hfits : Fits k token cc k' t (.flushEmitAndResumeIn state)) (hsame : SameButQueue token t t₀)
    (hstep : Eager.step table ⟨k, flushed token, some cc, q⟩ =
      some (Eager.finish k' t₀ cc q (.flushEmitAndResumeIn state))) :
    ∃ q', Yields table ⟨k, flushed token, some cc, q⟩ (queued token)
      (8 * q.text.length + 2 * k.state.weight + (if token.type = .character then 1 else 0))
      (finish loop k' t cc source (.flushEmitAndResumeIn state)) q' := by
  have hlength := skip_length hne
  have hadvance := shows_advance hshows hne
  obtain ⟨hname, rfl⟩ := hfits
  have hclear : Names (clearEndTag { k' with state := .dataState }) := names_clearEndTag rfl
  have hpending : isPending { k' with state := .dataState } = true := pending_of hname rfl
  unfold finish
  dsimp only
  by_cases hkind : t.type = .character
  · rw [if_pos (haveBuffered hkind)]
    have hsettle : settle { k' with state := .dataState } t.clear =
        (clearEndTag { k' with state := .dataState },
          (t.clear.beginEndTag k'.bufferedEndTagName).clear,
          (t.clear.beginEndTag k'.bufferedEndTagName).events) := by
      unfold settle
      rw [if_pos hpending]
      exact if_pos rfl
    refine ⟨skip q 1, yields_pending hkind hpending rfl hadvance ?_ hsame.queue.symm
      (by show 8 * (skip q 1).text.length + 2 * 0 + 2 ≤ _; omega)⟩
    rw [hstep, hsettle]
    unfold Eager.finish
    rw [← hsame.flush, flushed_of_character hkind]
  · rw [haveBuffered_of_ne hkind, if_neg Bool.false_ne_true]
    obtain ⟨hqueue, hqueue₀, hflush⟩ := queued_nil hsame hkind
    have hafter : afterToken (clearEndTag { k' with state := .dataState })
        (t.beginEndTag k'.bufferedEndTagName) = clearEndTag { k' with state := .dataState } :=
      afterToken_of_ne (by show TokenType.endTag ≠ .startTag; decide)
    refine ⟨skip q 1, yields_emit (o := (t.beginEndTag k'.bufferedEndTagName).events) ?_
      (by rw [hafter]; exact hclear) hadvance ?_ ?_⟩
    · rw [hstep, hafter]
      unfold Eager.finish
      rw [hflush, hqueue₀]
      rfl
    · rw [hqueue]
      rfl
    · rw [hafter]
      show 8 * (skip q 1).text.length + 2 * 0 + 1 ≤ _
      omega

/-- **How a state ends.** -/
theorem finish_yields {loop : Loop} (hloop : LoopYields table fuel loop) (hshows : source.Shows q)
    (hstands : Stands k q cc) (hnames : Names k)
    (hfuel : 8 * q.text.length + 2 * k.state.weight < fuel + 1)
    (hfits : Fits k token cc k' t next) (hsame : SameButQueue token t t₀)
    (hstep : Eager.step table ⟨k, flushed token, some cc, q⟩ =
      some (Eager.finish k' t₀ cc q next)) :
    ∃ q', Yields table ⟨k, flushed token, some cc, q⟩ (queued token)
      (8 * q.text.length + 2 * k.state.weight + (if token.type = .character then 1 else 0))
      (finish loop k' t cc source next) q' := by
  have hne := hstands.ne
  have hlength := skip_length hne
  have hadvance := shows_advance hshows hne
  cases next with
  | reconsumeIn state =>
    obtain ⟨hweight, hskip, htidy', hnames'⟩ := hfits
    obtain ⟨q', h⟩ := hloop hshows (hstands.of_skip { k' with state := state } hskip) htidy'
      hnames' (by dsimp only; omega)
    rw [hsame.queue, hsame.flush] at h
    refine ⟨q', (h.step hstep).mono ?_⟩
    have hone : (if t.type = .character then 1 else 0) ≤ 1 := by split <;> decide
    dsimp only
    omega
  | advanceTo state =>
    obtain ⟨htidy', hnames'⟩ := hfits
    refine advance_yields hloop hshows hne hfuel htidy' hnames' hsame.queue ?_
    rw [hstep, hsame.flush]
    rfl
  | emitOrAdvanceTo state =>
    obtain ⟨rfl, rfl, hcc, hdata, rfl⟩ := hfits
    unfold finish
    dsimp only
    by_cases hkind : t.type = .character
    · rw [if_pos (haveBuffered hkind), if_pos hkind]
      exact ⟨q, yields_idle hkind hnames hshows (hstands.again fun _ => by rw [hcc]; decide)⟩
    · rw [haveBuffered_of_ne hkind, if_neg Bool.false_ne_true]
      have hnil := hnames.mpr (by rw [hdata]; rfl)
      refine advance_yields hloop hshows hne hfuel (fun _ => hkind) (names_of_quiet hnil rfl)
        hsame.queue ?_
      rw [hstep, hsame.flush]
      rfl
  | emitAndResumeIn state =>
    obtain ⟨ht, hnil, rfl⟩ := hfits
    exact ⟨skip q 1, emit_yields hsame ht hnil hadvance hstep (by omega)⟩
  | emitAndReconsumeIn state =>
    obtain ⟨ht, hnil, rfl, hweight⟩ := hfits
    exact ⟨q, emit_yields hsame ht hnil hshows hstep (by omega)⟩
  | emitEndOfFile =>
    obtain ⟨rfl, rfl, hcc, hnil⟩ := hfits
    unfold finish
    dsimp only
    by_cases hkind : t.type = .character
    · rw [if_pos (haveBuffered hkind), if_pos hkind]
      exact ⟨q, yields_idle hkind hnames hshows (hstands.again fun _ => by rw [hcc]; decide)⟩
    · rw [haveBuffered_of_ne hkind, if_neg Bool.false_ne_true]
      obtain ⟨hqueue, hqueue₀, hflush⟩ := queued_nil hsame hkind
      have hafter : afterToken { k' with state := .dataState } t.clear.makeEndOfFile =
          { k' with state := .dataState } :=
        afterToken_of_ne (by show TokenType.endOfFile ≠ .startTag; decide)
      refine ⟨skip q 1, yields_emit (o := [.endOfFile]) ?_ ?_ hadvance (by rw [hqueue]; rfl) ?_⟩
      · rw [hstep, hafter]
        unfold Eager.finish
        rw [hflush, hqueue₀]
        rfl
      · rw [hafter]
        exact names_of_quiet hnil rfl
      · rw [hafter]
        show 8 * (skip q 1).text.length + 2 * 0 + 1 ≤ _
        omega
  | flushAndAdvanceTo state =>
    exact flushAndAdvance_yields hloop hshows hne hfuel hfits hsame hstep
  | flushEmitAndResumeIn state => exact flushEmit_yields hshows hne hfits hsame hstep

/-! ### Questions -/

theorem skip_zero (q : Plain) : skip q 0 = q := by
  unfold skip
  rw [List.drop_zero, Int.natCast_zero, Int.add_zero]

theorem skip_length_le (q : Plain) (n : Nat) : (skip q n).text.length ≤ q.text.length := by
  unfold skip
  rw [List.length_drop]
  exact Nat.sub_le _ _

theorem length_of_didMatch {string : Units} {ignoringCase : Bool}
    (h : q.lookAhead string ignoringCase = .didMatch) : string.length ≤ q.text.length :=
  (lookAhead_grow (by rw [h]; exact Platform.LookAheadResult.noConfusion) false []).1

/-- **A segmented string answers what its text answers.** -/
theorem answer_shows (table : HTMLEntityTable) (hshows : source.Shows q) (question : Question) :
    match answerPlain table q question with
    | .notEnoughCharacters =>
      ∃ source', answer table source question = .notEnoughCharacters source' ∧ source'.Shows q
    | .switchTo t state q' =>
      ∃ source', answer table source question = .switchTo t state source' ∧ source'.Shows q'
    | .goOn t next =>
      ∃ source', answer table source question = .goOn t next source' ∧ source'.Shows q := by
  cases question with
  | reference additional put state =>
    obtain ⟨houtcome, hrest⟩ := consumeHTMLEntity_answers table additional hshows
    unfold answerPlain answer
    dsimp only
    rw [houtcome]
    cases hfirst : (reference table additional q.text).1 with
    | notEnoughCharacters =>
      rcases reference_taken table additional q.text with hzero | ⟨⟨decoded, hdecoded⟩, -⟩
      · rw [hzero, skip_zero] at hrest
        exact ⟨_, rfl, hrest⟩
      · rw [hfirst] at hdecoded
        cases hdecoded
    | failure => exact ⟨_, rfl, hrest⟩
    | success decoded => exact ⟨_, rfl, hrest⟩
  | lookAhead string ignoringCase t state otherwise =>
    obtain ⟨hsame, hresult⟩ := hshows.lookAhead (string.map chr) ignoringCase
    unfold answerPlain answer
    dsimp only
    rw [hresult]
    cases hlook : q.lookAhead (string.map chr) ignoringCase with
    | didNotMatch => exact ⟨_, rfl, hsame⟩
    | notEnoughCharacters => exact ⟨_, rfl, hsame⟩
    | didMatch =>
      have hle := length_of_didMatch hlook
      rw [List.length_map] at hle
      exact ⟨_, rfl, (hsame.advanceBy hle).2⟩
  | nothing t next => exact ⟨source, rfl, hshows⟩

/-- What an answer leads to. -/
theorem answer_fits (table : HTMLEntityTable) (q : Plain) {question : Question}
    (hquestion : FitsQuestion k token cc question) :
    match answerPlain table q question with
    | .notEnoughCharacters => True
    | .switchTo t state q' =>
      Tidy state t ∧ Names { k with state := state } ∧
        8 * q'.text.length + 2 * state.weight + 2 ≤ 8 * q.text.length + 2 * k.state.weight
    | .goOn t next => Fits k token cc k t next := by
  cases question with
  | reference additional put state =>
    obtain ⟨hweight, hnames, htidy⟩ := hquestion
    unfold answerPlain
    dsimp only
    have hlength := skip_length_le q (reference table additional q.text).2
    cases (reference table additional q.text).1 with
    | notEnoughCharacters => trivial
    | failure => exact ⟨htidy _, hnames, by omega⟩
    | success decoded => exact ⟨htidy _, hnames, by omega⟩
  | lookAhead string ignoringCase t state otherwise =>
    obtain ⟨hne, hnames, htidy, hother⟩ := hquestion
    unfold answerPlain
    dsimp only
    cases hlook : q.lookAhead (string.map chr) ignoringCase with
    | didNotMatch => exact hother
    | notEnoughCharacters => trivial
    | didMatch =>
      have hle := length_of_didMatch hlook
      rw [List.length_map] at hle
      have hpos := List.length_pos_iff.mpr hne
      have hweight := State.weight_le state
      refine ⟨htidy, hnames, ?_⟩
      unfold skip
      rw [List.length_drop]
      omega
  | nothing t next => exact hquestion

/-- The answer does not depend on what is queued. -/
theorem answer_sameButQueue (table : HTMLEntityTable) (q : Plain) (hnames : Names k)
    (htidy : Tidy k.state token)
    (htext : textState k cc = none) :
    match answerPlain table q (lookAheadState k token cc) with
    | .notEnoughCharacters =>
      answerPlain table q (lookAheadState k (flushed token) cc) = .notEnoughCharacters
    | .switchTo t state q' =>
      ∃ t₀, answerPlain table q (lookAheadState k (flushed token) cc) = .switchTo t₀ state q' ∧
        SameButQueue token t t₀
    | .goOn t next =>
      ∃ t₀, answerPlain table q (lookAheadState k (flushed token) cc) = .goOn t₀ next ∧
        SameButQueue token t t₀ := by
  rcases (question_fits hnames htidy htext).2 with ht | ⟨state, hquestion, hquestion₀⟩
  · rw [flushed_of_ne ht]
    cases answerPlain table q (lookAheadState k token cc) with
    | notEnoughCharacters => rfl
    | switchTo t state q' => exact ⟨t, rfl, sameButQueue_of_ne ht t⟩
    | goOn t next => exact ⟨t, rfl, sameButQueue_of_ne ht t⟩
  · rw [hquestion, hquestion₀]
    unfold answerPlain
    dsimp only
    cases (reference table 0 q.text).1 with
    | notEnoughCharacters => rfl
    | failure => exact ⟨_, rfl, queued_buffer _, flushed_buffer _⟩
    | success decoded => exact ⟨_, rfl, queued_buffer _, flushed_buffer _⟩

/-- Null characters are skipped in states that have no weight. -/
theorem weight_of_skips (h : k.shouldSkipNullCharacters = true) : k.state.weight = 0 := by
  unfold HTMLTokenizer.shouldSkipNullCharacters at h
  rw [Bool.and_eq_true, Bool.or_eq_true, Bool.or_eq_true, beq_iff_eq, beq_iff_eq, beq_iff_eq] at h
  rcases h.2 with (hstate | hstate) | hstate <;>
  · rw [hstate]
    rfl

/-- More of the source must be seen. -/
theorem yields_blocked {source' : Platform.SegmentedString} (hnames : Names k)
    (hshows : source'.Shows q) (hagain : peekPlain k q = some (k, some cc))
    (hblocked : Eager.step table ⟨k, flushed token, some cc, q⟩ = none) :
    Yields table ⟨k, flushed token, some cc, q⟩ (queued token)
      (8 * q.text.length + 2 * k.state.weight + (if token.type = .character then 1 else 0))
      ⟨k, token, source', haveBufferedCharacterToken token⟩ q := by
  by_cases hkind : token.type = .character
  · have hbuffered : haveBufferedCharacterToken token = true := beq_iff_eq.mpr hkind
    rw [hbuffered, if_pos hkind]
    exact yields_idle hkind hnames hshows hagain
  · have hbuffered : haveBufferedCharacterToken token = false := beq_eq_false_iff_ne.mpr hkind
    have hafter : (⟨k, token, source', false⟩ : Returned).after = ⟨k, token, source'⟩ :=
      if_neg Bool.false_ne_true
    have hsettle := settle_of_names hnames token
    have hback : Eager.step table ⟨k, token, none, q⟩ = some (⟨k, token, some cc, q⟩, []) := by
      unfold Eager.step
      dsimp only
      rw [hagain]
    rw [flushed_of_ne hkind] at hblocked ⊢
    rw [hbuffered, queued_of_ne hkind]
    refine ⟨?_, ⟨[], ?_, ?_⟩, fun _ => ⟨?_, ?_⟩, fun hnot => Bool.noConfusion hnot⟩
    · rw [hafter]
      exact ⟨hshows, hkind, .inl hnames⟩
    · rw [hafter]
      unfold Scanner.owed Returned.emitted
      rw [hsettle, if_neg Bool.false_ne_true]
    · rw [hafter]
      unfold Scanner.eager
      rw [hsettle]
      exact .back hback
    · rw [hafter]
      unfold Scanner.owed
      rw [hsettle]
    · rw [hafter]
      unfold Scanner.eager
      rw [hsettle]
      exact ⟨_, .cons hback (.blocked hblocked)⟩

/-- A state that asks the source. -/
theorem step_asks (hnone : ordinaryState k token cc q.consumed = none) :
    (answerPlain table q (lookAheadState k token cc) = .notEnoughCharacters →
      Eager.step table ⟨k, token, some cc, q⟩ = none) ∧
    (∀ ⦃t state q'⦄, answerPlain table q (lookAheadState k token cc) = .switchTo t state q' →
      Eager.step table ⟨k, token, some cc, q⟩ =
        some (⟨{ k with state := state }, flushed t, none, q'⟩, queued t)) ∧
    ∀ ⦃t next⦄, answerPlain table q (lookAheadState k token cc) = .goOn t next →
      Eager.step table ⟨k, token, some cc, q⟩ = some (Eager.finish k t cc q next) := by
  refine ⟨fun hanswer => ?_, fun t state q' hanswer => ?_, fun t next hanswer => ?_⟩ <;>
  · unfold Eager.step
    simp only [hnone, hanswer]

/-- **The loop.** -/
theorem loop_yields (table : HTMLEntityTable) (fuel : Nat) :
    LoopYields table fuel (nextTokenLoop table fuel) := by
  induction fuel with
  | zero =>
    intro k token cc source q _ _ _ _ hfuel
    exact absurd hfuel (Nat.not_lt_zero _)
  | succ fuel ih =>
    intro k token cc source q hshows hstands htidy hnames hfuel
    unfold nextTokenLoop
    rw [hshows.consumed]
    cases hordinary : ordinaryState k token cc q.consumed with
    | some r =>
      obtain ⟨k', t, next⟩ := r
      obtain ⟨hfits, t₀, hordinary₀, hsame⟩ := ordinary_fits hnames htidy hordinary
      refine finish_yields ih hshows hstands hnames hfuel hfits hsame ?_
      unfold Eager.step
      dsimp only
      rw [hordinary₀]
    | none =>
      obtain ⟨htext, hnone⟩ := ordinary_none hnames htidy hordinary
      obtain ⟨hquestion, -⟩ := question_fits hnames htidy htext
      have hweight := (textState_none htext).2.1
      have hshows' := answer_shows table hshows (lookAheadState k token cc)
      have hfits := answer_fits table q hquestion
      have hsame := answer_sameButQueue table q hnames htidy htext
      obtain ⟨hblocks, hswitches, hgoes⟩ := step_asks hnone
      dsimp only
      cases hanswer : answerPlain table q (lookAheadState k token cc) with
      | notEnoughCharacters =>
        rw [hanswer] at hshows' hsame
        obtain ⟨source', heq, hsource⟩ := hshows'
        rw [heq]
        dsimp only at hsame ⊢
        refine ⟨q, yields_blocked hnames hsource (hstands.again fun hskips => ?_) (hblocks hsame)⟩
        rw [weight_of_skips hskips] at hweight
        exact absurd hweight (Nat.lt_irrefl 0)
      | switchTo t state q' =>
        rw [hanswer] at hshows' hsame hfits
        obtain ⟨source', heq, hsource⟩ := hshows'
        obtain ⟨t₀, hanswer₀, hsame⟩ := hsame
        obtain ⟨htidy', hnames', hless⟩ := hfits
        rw [heq]
        dsimp only
        obtain ⟨q₁, h⟩ := continue_yields (k := { k with state := state }) ih hsource htidy' hnames'
          (by dsimp only; omega)
        rw [hsame.queue, hsame.flush] at h
        refine ⟨q₁, (h.step (hswitches hanswer₀)).mono ?_⟩
        have hone : (if t.type = .character then 1 else 0) ≤ 1 := by split <;> decide
        dsimp only
        omega
      | goOn t next =>
        rw [hanswer] at hshows' hsame hfits
        obtain ⟨source', heq, hsource⟩ := hshows'
        obtain ⟨t₀, hanswer₀, hsame⟩ := hsame
        rw [heq]
        exact finish_yields ih hsource hstands hnames hfuel hfits hsame (hgoes hanswer₀)

end Loop

/-! ## All calls -/

section Scanning

variable {table : HTMLEntityTable} {s : Scanner} {q : Plain}

theorem isPending_iff (k : HTMLTokenizer) :
    isPending k = true ↔ k.bufferedEndTagName ≠ [] ∧ k.state.isEndTagBuffering = false := by
  unfold isPending
  rw [Bool.and_eq_true, Bool.not_eq_true', Bool.not_eq_true', List.isEmpty_eq_false_iff]

/-- What is behind the first lines of `NextToken`. -/
theorem nextTokenFrom_yields (table : HTMLEntityTable) {k : HTMLTokenizer} {token : HTMLToken}
    {source : Platform.SegmentedString} (hshows : source.Shows q) (ht : token.type ≠ .character)
    (hnames : Names k) :
    ∃ q', Yields table ⟨k, token, none, q⟩ [] (8 * q.text.length + 2 * k.state.weight)
      (nextTokenFrom table k token source) q' := by
  have hweight := State.weight_le k.state
  have h := continue_yields (loop_yields table (8 * (source.length + 1))) hshows
    (show Tidy k.state token from fun _ => ht) hnames (by rw [hshows.length]; omega)
  rw [flushed_of_ne ht, queued_of_ne ht, if_neg ht] at h
  exact h

/-- **A call of `NextToken`.** -/
theorem nextToken_spec (table : HTMLEntityTable) (h : s.Rests q) :
    ∃ q', Yields table (s.eager q) s.owed (s.measure q - 1)
      (nextToken table s.tokenizer s.token s.source) q' := by
  obtain ⟨k, token, source⟩ := s
  obtain ⟨hshows, ht, hnames⟩ := h
  dsimp only at hshows ht hnames ⊢
  unfold nextToken Scanner.eager Scanner.owed Scanner.measure
  dsimp only
  cases hpending : isPending k with
  | false =>
    have hquiet : Names k := by
      rcases hnames with hnames | ⟨htrue, -⟩
      · exact hnames
      · rw [hpending] at htrue
        cases htrue
    have hnot : ¬(k.bufferedEndTagName ≠ [] ∧ k.state.isEndTagBuffering = false) := by
      intro hboth
      rw [(isPending_iff k).mpr hboth] at hpending
      cases hpending
    rw [if_neg Bool.false_ne_true, if_neg hnot, settle_of_names hquiet]
    exact nextTokenFrom_yields table hshows ht hquiet
  | true =>
    have hquiet : k.state.isEndTagName = false := by
      rcases hnames with hnames | ⟨-, hquiet⟩
      · rw [not_pending hnames] at hpending
        cases hpending
      · exact hquiet
    have hclear : Names (clearEndTag k) := names_clearEndTag hquiet
    rw [if_pos ((isPending_iff k).mp hpending), if_pos rfl]
    unfold settle
    rw [if_pos hpending]
    dsimp only
    by_cases hdata : k.state = .dataState
    · rw [if_pos hdata, if_pos (show (clearEndTag k).state = .dataState from hdata)]
      have hafter : afterToken (clearEndTag k) (token.beginEndTag k.bufferedEndTagName) =
          clearEndTag k := afterToken_of_ne (by show TokenType.endTag ≠ .startTag; decide)
      have hsettle := settle_of_names hclear (token.beginEndTag k.bufferedEndTagName).clear
      refine ⟨q, ?_, ⟨[], ?_, ?_⟩, fun hnot => Bool.noConfusion hnot, fun _ => ?_⟩
      · unfold Returned.after
        rw [if_pos rfl, hafter]
        exact ⟨hshows, type_clear _, .inl hclear⟩
      · unfold Returned.after Returned.emitted Scanner.owed
        rw [if_pos rfl, if_pos rfl, hafter, hsettle]
      · unfold Returned.after Scanner.eager
        rw [if_pos rfl, hafter, hsettle]
        exact (Leads.nil _).trails
      · unfold Returned.after Scanner.measure
        rw [if_pos rfl, hafter, not_pending hclear]
        exact Nat.le_refl _
    · rw [if_neg hdata, if_neg (show ¬(clearEndTag k).state = .dataState from hdata)]
      obtain ⟨q', hyields⟩ := nextTokenFrom_yields table hshows
        (type_beginEndTag token k.bufferedEndTagName) hclear
      refine ⟨q', hyields.mono ?_⟩
      show 8 * q.text.length + 2 * k.state.weight ≤ _
      omega

theorem scanLoop_spec (table : HTMLEntityTable) (fuel : Nat) (h : s.Rests q)
    (hfuel : s.measure q < fuel) :
    ∃ q', (scanLoop table fuel s).1.Rests q' ∧ (scanLoop table fuel s).1.owed = [] ∧
      (∃ c, Exhausts (Eager.step table) ((scanLoop table fuel s).1.eager q') [] c) ∧
      ∃ os, s.owed ++ os = (scanLoop table fuel s).2.flatMap HTMLToken.events ∧
        Trails (Eager.step table) (s.eager q) os ((scanLoop table fuel s).1.eager q') := by
  induction fuel generalizing s q with
  | zero => exact absurd hfuel (Nat.not_lt_zero _)
  | succ fuel ih =>
    obtain ⟨q₁, hrests, ⟨os, hos, htrails⟩, hends, hless⟩ := nextToken_spec table h
    unfold scanLoop
    dsimp only
    generalize nextToken table s.tokenizer s.token s.source = r at *
    unfold Returned.after Returned.emitted at *
    cases hemits : r.emits with
    | false =>
      rw [hemits, if_neg Bool.false_ne_true] at hos hrests htrails hends
      rw [if_neg Bool.false_ne_true] at hos
      obtain ⟨howed, hstop⟩ := hends rfl
      rw [if_neg Bool.false_ne_true]
      refine ⟨q₁, hrests, howed, hstop, os, ?_, htrails⟩
      rw [hos, howed]
      rfl
    | true =>
      rw [hemits, if_pos rfl] at hos hrests htrails hless
      rw [if_pos rfl] at hos
      have hmeasure := hless rfl
      obtain ⟨q₂, hrests₂, howed₂, hstop₂, os₂, hos₂, htrails₂⟩ := ih hrests (by
        have : 0 < s.measure q := by unfold Scanner.measure; omega
        omega)
      rw [if_pos rfl]
      refine ⟨q₂, hrests₂, howed₂, hstop₂, os ++ os₂, ?_, htrails.trans htrails₂⟩
      rw [← List.append_assoc, hos, List.append_assoc, hos₂, List.flatMap_cons]

/-- **What `Scan` hands on is what the eager tokenizer emits.** -/
theorem scan_spec (table : HTMLEntityTable) (h : s.Rests q) (howed : s.owed = []) :
    ∃ q' c, (scan table s).1.Rests q' ∧ (scan table s).1.owed = [] ∧
      Exhausts (Eager.step table) ((scan table s).1.eager q') [] c ∧
      Exhausts (Eager.step table) (s.eager q) ((scan table s).2.flatMap HTMLToken.events) c := by
  have hweight := State.weight_le s.tokenizer.state
  have hone : (if isPending s.tokenizer then 1 else 0) ≤ 1 := by split <;> decide
  obtain ⟨q', hrests, howed', ⟨c, hstop⟩, os, hos, htrails⟩ :=
    scanLoop_spec table (16 * (s.source.length + 1)) h (by
      unfold Scanner.measure
      rw [h.shows.length]
      omega)
  rw [howed, List.nil_append] at hos
  refine ⟨q', c, hrests, howed', hstop, ?_⟩
  have hall := htrails hstop
  rw [List.append_nil, hos] at hall
  exact hall

end Scanning

end Blinkit.Html
