import Blinkit.Html.TokenizerRefinement

/-!
# Tokens and the pieces of a source

The source of a scanner arrives in pieces. A piece may end inside a tag, a reference, a line end or
a keyword; characters of one text are then handed on in several tokens.

* `Scanner.new` — the scanner as it is constructed.
* `scanPieces` — a piece is appended and scanned, then the next one.
* `Scanned` — a scanner that has used up what it has.

Principal result: `scan_pieces`: tokens say the same, however the source is cut.
-/

set_option autoImplicit false

namespace Blinkit.Html

open Platform Feeding
open Text (Units)

/-- `HTMLPreloadScanner`, for options that enable scripts or not. -/
def Scanner.new (scriptEnabled : Bool) : Scanner :=
  ⟨.new scriptEnabled, .new, .ofString []⟩

/-- `AppendToEnd` and `Scan`, for each piece, which is a new string. -/
def scanPieces (table : HTMLEntityTable) : Scanner → List Units → Scanner × List HTMLToken
  | s, [] => (s, [])
  | s, piece :: pieces =>
    let r := scan table (s.appendToEnd (.ofString piece))
    let rest := scanPieces table r.1 pieces
    (rest.1, r.2 ++ rest.2)

/-- A scanner that has used up what it has, and the eager tokenizer where it stops. -/
structure Scanned (table : HTMLEntityTable) (s : Scanner) (q : Plain) (c : Eager) : Prop where
  rests : s.Rests q
  owed : s.owed = []
  isOpen : q.closed = false
  stops : Exhausts (Eager.step table) (s.eager q) [] c

section Pieces

variable {table : HTMLEntityTable} {s : Scanner} {q : Plain} {c : Eager}

theorem grow_nil (e : Eager) : e.grow false [] = e := by
  unfold Eager.grow growPlain
  rw [List.append_nil, Bool.or_false]

theorem grow_append (x y : Units) (e : Eager) :
    e.grow false (x ++ y) = (e.grow false x).grow false y := by
  unfold Eager.grow growPlain
  dsimp only
  rw [List.append_assoc, Bool.or_false, Bool.or_false]

theorem grow_open (x : Units) (e : Eager) (h : e.Open) : (e.grow false x).Open := by
  refine ⟨?_, fun hsome => List.append_ne_nil_of_left_ne_nil (h.hand hsome) x⟩
  show (e.source.closed || false) = false
  rw [h.closed]
  rfl

theorem step_stable_open (table : HTMLEntityTable) (x : Units) :
    Stable (Eager.step table) Eager.Open (Eager.grow false x) :=
  step_stable table fun hclosed => Bool.noConfusion hclosed

/-- Between two calls there is no character in hand. -/
theorem Scanner.eager_open (hclosed : q.closed = false) : (s.eager q).Open :=
  ⟨hclosed, fun hsome => Bool.noConfusion hsome⟩

theorem Scanner.Rests.append (h : s.Rests q) (piece : Units) :
    (s.appendToEnd (.ofString piece)).Rests (growPlain false piece q) := by
  refine ⟨?_, h.kind, h.names⟩
  have happend := h.shows.append_ofString piece
  exact ⟨happend.ok, happend.text, happend.consumed,
    happend.closed.trans (Bool.or_false _).symm⟩

/-- Steps do not close a source. -/
theorem closed_of_leads {e e' : Eager} {os : List Event} {closed : Bool}
    (h : Leads (Eager.step table) e os e') (he : e.Closed closed) : e'.Closed closed :=
  h.invariant (step_closed table closed) he

/-- **A piece.** What is handed on is what the eager tokenizer emits when it grows. -/
theorem Scanned.piece (h : Scanned table s q c) (piece : Units) :
    ∃ q' c', Scanned table (scan table (s.appendToEnd (.ofString piece))).1 q' c' ∧
      Exhausts (Eager.step table) (c.grow false piece)
        ((scan table (s.appendToEnd (.ofString piece))).2.flatMap HTMLToken.events) c' := by
  obtain ⟨q', c', hrests, howed, hstops, hall⟩ := scan_spec table (h.rests.append piece) h.owed
  have hopen : (s.eager q).Open := Scanner.eager_open h.isOpen
  -- The steps that lead to `c` are still possible, and what comes behind them is the same.
  have hgrown : Leads (Eager.step table) ((s.eager q).grow false piece) [] (c.grow false piece) :=
    h.stops.leads.1.grow (step_closed table false) (step_stable_open table piece) hopen
  obtain ⟨os, hos, hrest⟩ := hgrown.rest hall
  rw [hos, List.nil_append]
  have hc : c.Open := closed_of_leads h.stops.leads.1 hopen
  have hc' : c'.Open := closed_of_leads hrest.leads.1 (grow_open piece c hc)
  refine ⟨q', c', ⟨hrests, howed, ?_, hstops⟩, hrest⟩
  have hsame : c'.Closed q'.closed := closed_of_leads hstops.leads.1
    ⟨rfl, fun hsome => Bool.noConfusion hsome⟩
  exact hsame.closed.symm.trans hc'.closed

/-- All pieces. -/
theorem Scanned.pieces (h : Scanned table s q c) (pieces : List Units) :
    ∃ c', Feeds (Eager.step table) (Eager.grow false) c pieces
      ((scanPieces table s pieces).2.flatMap HTMLToken.events) c' := by
  induction pieces generalizing s q c with
  | nil => exact ⟨c, .nil c⟩
  | cons piece pieces ih =>
    obtain ⟨q', c', hscanned, hpiece⟩ := h.piece piece
    obtain ⟨c'', hrest⟩ := ih hscanned
    refine ⟨c'', ?_⟩
    unfold scanPieces
    dsimp only
    rw [List.flatMap_append]
    exact .cons hpiece hrest

/-- The scanner as it is constructed has used up what it has. -/
theorem scanned_new (table : HTMLEntityTable) (scriptEnabled : Bool) :
    Scanned table (.new scriptEnabled) ⟨[], 0, false⟩
      ((Scanner.new scriptEnabled).eager ⟨[], 0, false⟩) :=
  ⟨⟨Platform.SegmentedString.shows_ofString [], fun hkind => TokenType.noConfusion hkind,
    .inl (iff_of_true rfl rfl)⟩, rfl, rfl,
    .blocked rfl⟩

/-- What is said of pieces is what the eager tokenizer says of all of them at once. -/
theorem scanPieces_exhausts (table : HTMLEntityTable) (scriptEnabled : Bool)
    (pieces : List Units) :
    ∃ c, Exhausts (Eager.step table)
      (((Scanner.new scriptEnabled).eager ⟨[], 0, false⟩).grow false pieces.flatten)
      ((scanPieces table (.new scriptEnabled) pieces).2.flatMap HTMLToken.events) c := by
  obtain ⟨c, hpieces⟩ := (scanned_new table scriptEnabled).pieces pieces
  exact ⟨c, hpieces.whole grow_nil grow_append (fun x e => grow_open x e)
    (step_closed table false) (step_stable_open table) (Scanner.eager_open rfl) rfl⟩

end Pieces

/-- **It does not matter how the source is cut.** When the pieces of a source are appended and
scanned one after the other, the tokens say what those of the whole source say. -/
theorem scan_pieces (table : HTMLEntityTable) (scriptEnabled : Bool) (pieces : List Units) :
    (scanPieces table (.new scriptEnabled) pieces).2.flatMap HTMLToken.events =
      (scan table ((Scanner.new scriptEnabled).appendToEnd (.ofString pieces.flatten))).2.flatMap
        HTMLToken.events := by
  obtain ⟨c, hpieces⟩ := scanPieces_exhausts table scriptEnabled pieces
  obtain ⟨q', c', -, hwhole⟩ := (scanned_new table scriptEnabled).piece pieces.flatten
  exact (hpieces.unique hwhole).1

end Blinkit.Html
