import Mathlib.Data.List.Chain
import Blinkit.Html.HTMLConstructionSiteTask

/-!
# Flushing the pending text

`HTMLConstructionSite` collects the text of character tokens and turns it into text nodes when
something else is to be queued.  A parent other than `<script>` and `<style>` takes text nodes of
at most `kDefaultLengthLimit` code units, so `FlushPendingText` cuts a longer text;
`FindBreakIndexBetween` says where.  The part of it that searches a 16-bit text for a break is left
out, and it answers 0.

* `StringBuilder`, `PendingText` : the text, with its representation
* `flushLoop`, `flushPendingText` : the loop takes a bound `fuel` on its rounds
* `Flushed` : what a flush has to leave

`AtomizeIfAllWhitespace` leaves the characters of a string as they are, and is not written out.

Principal results: `flushLoop_latin`, `flushLoop_forever`, `flushPendingText_iff`.
-/

set_option autoImplicit false

namespace Blinkit.Html

open Dom Function

/-! ## The text -/

/-- A `StringBuilder`: its length is an `unsigned`, and 8-bit characters are below 256. -/
structure StringBuilder where
  is8Bit : Bool
  characters : List UInt16
  length_lt : characters.length < 4294967296
  latin : is8Bit = true → ∀ c ∈ characters, c.toNat < 256

namespace StringBuilder

def length (string : StringBuilder) : Nat := string.characters.length

/-- `StringBuilder::Substring`, which clips the length. -/
def substring (string : StringBuilder) (start length : Nat) : List UInt16 :=
  if start ≥ string.length then []
  else (string.characters.drop start).take (min length (string.length - start))

end StringBuilder

/-- `PendingText`, when it is not empty. -/
structure PendingText where
  parent : NodeId
  nextChild : Option NodeId
  stringBuilder : StringBuilder
  not_empty : stringBuilder.characters ≠ []

inductive FlushMode where
  | kFlushAlways
  | kFlushIfAtTextLimit
  deriving DecidableEq

/-- The members of `HTMLConstructionSite` that a flush reads and writes. -/
structure TextSite where
  nodes : Nodes
  /-- The empty pending text has no parent. -/
  pendingText : Option PendingText
  taskQueue : List HTMLConstructionSiteTask

/-- `FindBreakIndexBetween`; the search in a 16-bit text is left out in the source. -/
def findBreakIndexBetween (string : StringBuilder) (_currentPosition proposedBreakIndex : Nat) :
    Nat :=
  if proposedBreakIndex = string.length then proposedBreakIndex
  else if string.is8Bit then proposedBreakIndex
  else 0

/-- `Text::Create`. -/
def Nodes.createText (t : Nodes) (document : NodeId) (data : List UInt16) : Nodes :=
  { t with
    heap := t.heap.createNode .text "#text" document
    data := update t.data t.heap.size data }

namespace TextSite

/-- `QueueTask`, of a site whose pending text has been moved away: the flush in it returns at
once. -/
def queueTask (s : TextSite) (task : HTMLConstructionSiteTask) : TextSite :=
  { s with taskQueue := s.taskQueue ++ [task] }

/-- The new text node and its task. -/
def queueText (s : TextSite) (parent : NodeId) (nextChild : Option NodeId)
    (substring : List UInt16) : TextSite :=
  let child := s.nodes.heap.size
  let nodes := s.nodes.createText (s.nodes.heap.document parent) substring
  { s with nodes := nodes }.queueTask ⟨.kInsertText, parent, nextChild, child, false⟩

/-- The loop of `FlushPendingText`. Positions are `unsigned`. -/
def flushLoop (string : StringBuilder) (lengthLimit : Nat) (parent : NodeId)
    (nextChild : Option NodeId) : Nat → Nat → TextSite → Option TextSite
  | 0, _, _ => none
  | fuel + 1, currentPosition, s =>
    if currentPosition < string.length then
      let proposedBreakIndex :=
        min ((currentPosition + lengthLimit) % 4294967296) string.length
      let breakIndex := findBreakIndexBetween string currentPosition proposedBreakIndex
      let substring := string.substring currentPosition
        ((breakIndex + 4294967296 - currentPosition) % 4294967296)
      flushLoop string lengthLimit parent nextChild fuel breakIndex
        (s.queueText parent nextChild substring)
    else some s

/-- `HTMLConstructionSite::FlushPendingText`. -/
def flushPendingText (fuel : Nat) (mode : FlushMode) (s : TextSite) : Option TextSite :=
  match s.pendingText with
  | none => some s
  | some pendingText =>
    if mode = .kFlushIfAtTextLimit ∧ s.nodes.shouldUseLengthLimit pendingText.parent = false then
      some s
    else
      flushLoop pendingText.stringBuilder
        (s.nodes.textLengthLimitForContainer pendingText.parent) pendingText.parent
        pendingText.nextChild fuel 0 { s with pendingText := none }

end TextSite

/-! ## What a flush has to leave -/

def isLeadSurrogate (c : UInt16) : Bool := 0xD800 ≤ c && c < 0xDC00

def isTrailSurrogate (c : UInt16) : Bool := 0xDC00 ≤ c && c < 0xE000

/-- The boundary between two pieces lies within a surrogate pair. -/
def SplitsPair (a b : List UInt16) : Prop :=
  ∃ l t, a.getLast? = some l ∧ b.head? = some t ∧
    isLeadSurrogate l = true ∧ isTrailSurrogate t = true

/-- The tasks insert text nodes, none of them empty or over the limit, that together hold the
text. -/
structure Pieces (nodes : Nodes) (parent : NodeId) (nextChild : Option NodeId) (lengthLimit : Nat)
    (text : List UInt16) (tasks : List HTMLConstructionSiteTask) : Prop where
  insertText : ∀ task ∈ tasks, task.operation = .kInsertText ∧ task.parent = parent ∧
    task.nextChild = nextChild
  sizes : ∀ task ∈ tasks, nodes.data task.child ≠ [] ∧
    (nodes.data task.child).length ≤ lengthLimit
  text : tasks.flatMap (fun task => nodes.data task.child) = text

/-- The flush of `p` from the site `s` has left the site `s'`. -/
structure Flushed (s : TextSite) (p : PendingText) (s' : TextSite) : Prop where
  pendingText : s'.pendingText = none
  tasks : ∃ tasks, s'.taskQueue = s.taskQueue ++ tasks ∧
    Pieces s'.nodes p.parent p.nextChild (s.nodes.textLengthLimitForContainer p.parent)
      p.stringBuilder.characters tasks ∧
    tasks.IsChain fun a b => ¬ SplitsPair (s'.nodes.data a.child) (s'.nodes.data b.child)
  others : ∀ n < s.nodes.heap.size, s'.nodes.data n = s.nodes.data n

/-! ## The rounds of the loop -/

section Loop

variable {string : StringBuilder} {lengthLimit : Nat} {parent : NodeId}
  {nextChild : Option NodeId}

/-- From `s` to `s'` the pieces of `text` have been queued. -/
structure Queued (lengthLimit : Nat) (parent : NodeId) (nextChild : Option NodeId)
    (text : List UInt16) (s s' : TextSite) : Prop where
  pendingText : s'.pendingText = s.pendingText
  tasks : ∃ tasks, s'.taskQueue = s.taskQueue ++ tasks ∧
    Pieces s'.nodes parent nextChild lengthLimit text tasks
  others : ∀ n < s.nodes.heap.size, s'.nodes.data n = s.nodes.data n

theorem Queued.nil (s : TextSite) : Queued lengthLimit parent nextChild [] s s where
  pendingText := rfl
  tasks := by
    refine ⟨[], (List.append_nil _).symm, ⟨?_, ?_, rfl⟩⟩
    · intro task h
      cases h
    · intro task h
      cases h
  others := fun _ _ => rfl

theorem queueText_data_new (s : TextSite) (piece : List UInt16) :
    (s.queueText parent nextChild piece).nodes.data s.nodes.heap.size = piece :=
  update_self ..

theorem queueText_data_old (s : TextSite) (piece : List UInt16) {n : NodeId}
    (h : n < s.nodes.heap.size) :
    (s.queueText parent nextChild piece).nodes.data n = s.nodes.data n :=
  update_of_ne (Nat.ne_of_lt h) ..

/-- One more piece in front. Later nodes do not change it. -/
theorem Queued.cons {piece text : List UInt16} {s s' : TextSite} (hne : piece ≠ [])
    (hle : piece.length ≤ lengthLimit)
    (h : Queued lengthLimit parent nextChild text (s.queueText parent nextChild piece) s') :
    Queued lengthLimit parent nextChild (piece ++ text) s s' := by
  have hsize : (s.queueText parent nextChild piece).nodes.heap.size = s.nodes.heap.size + 1 := rfl
  have hothers := h.others
  rw [hsize] at hothers
  have hpiece : s'.nodes.data s.nodes.heap.size = piece := by
    rw [hothers _ (Nat.lt_succ_self _)]
    exact queueText_data_new s piece
  obtain ⟨tasks, hqueue, hpieces⟩ := h.tasks
  refine ⟨h.pendingText,
    ⟨⟨.kInsertText, parent, nextChild, s.nodes.heap.size, false⟩ :: tasks, ?_, ?_, ?_, ?_⟩, ?_⟩
  · rw [hqueue]
    show (s.taskQueue ++ [_]) ++ tasks = _
    rw [List.append_assoc, List.singleton_append]
  · intro task htask
    rcases List.mem_cons.mp htask with rfl | htask
    · exact ⟨rfl, rfl, rfl⟩
    · exact hpieces.insertText task htask
  · intro task htask
    rcases List.mem_cons.mp htask with rfl | htask
    · rw [hpiece]
      exact ⟨hne, hle⟩
    · exact hpieces.sizes task htask
  · rw [List.flatMap_cons, hpieces.text, hpiece]
  · intro n hn
    rw [hothers n (Nat.lt_succ_of_lt hn)]
    exact queueText_data_old s piece hn

/-- A round whose break lies ahead queues the text up to it. -/
theorem flushLoop_step {currentPosition breakIndex : Nat} (fuel : Nat) (s : TextSite)
    (hbreak : findBreakIndexBetween string currentPosition
      (min ((currentPosition + lengthLimit) % 4294967296) string.length) = breakIndex)
    (hlt : currentPosition < breakIndex) (hle : breakIndex ≤ string.length) :
    TextSite.flushLoop string lengthLimit parent nextChild (fuel + 1) currentPosition s =
      TextSite.flushLoop string lengthLimit parent nextChild fuel breakIndex
        (s.queueText parent nextChild
          ((string.characters.drop currentPosition).take (breakIndex - currentPosition))) := by
  have hlength : string.length < 4294967296 := string.length_lt
  have hcount : (breakIndex + 4294967296 - currentPosition) % 4294967296 =
      breakIndex - currentPosition := by omega
  conv_lhs => unfold TextSite.flushLoop
  rw [if_pos (by omega)]
  dsimp only
  rw [hbreak, hcount]
  unfold StringBuilder.substring
  rw [if_neg (by omega), Nat.min_eq_left (by omega)]

theorem flushLoop_done {currentPosition : Nat} (fuel : Nat) (s : TextSite)
    (h : string.length ≤ currentPosition) :
    TextSite.flushLoop string lengthLimit parent nextChild (fuel + 1) currentPosition s =
      some s := by
  unfold TextSite.flushLoop
  rw [if_neg (by omega)]

variable (parent nextChild)

/-- A text within the limit is one piece. -/
theorem flushLoop_short (hne : string.characters ≠ []) (hle : string.length ≤ lengthLimit)
    (hlimit : lengthLimit < 4294967296) (s : TextSite) :
    ∃ s', TextSite.flushLoop string lengthLimit parent nextChild 2 0 s = some s' ∧
      Queued lengthLimit parent nextChild string.characters s s' ∧
      ∃ task, s'.taskQueue = s.taskQueue ++ [task] := by
  have hpos : 0 < string.length := List.length_pos_of_ne_nil hne
  have hbreak : findBreakIndexBetween string 0 (min ((0 + lengthLimit) % 4294967296)
      string.length) = string.length := by
    rw [show min ((0 + lengthLimit) % 4294967296) string.length = string.length by omega]
    exact if_pos rfl
  rw [flushLoop_step 1 s hbreak hpos (Nat.le_refl _), flushLoop_done 0 _ (Nat.le_refl _)]
  have hall : (string.characters.drop 0).take (string.length - 0) = string.characters :=
    List.take_of_length_le (Nat.le_refl _)
  rw [hall]
  refine ⟨_, rfl, ?_, _, rfl⟩
  have hqueued : Queued lengthLimit parent nextChild (string.characters ++ []) s
      (s.queueText parent nextChild string.characters) := .cons hne hle (.nil _)
  rwa [List.append_nil] at hqueued

/-- **An 8-bit text is cut at the limit.** The end of the loop is reached, as long as the positions
do not wrap. -/
theorem flushLoop_latin (h8 : string.is8Bit = true) (hlimit : 0 < lengthLimit)
    (hwrap : string.length + lengthLimit ≤ 4294967296) {currentPosition : Nat}
    (hle : currentPosition ≤ string.length) (s : TextSite) :
    ∃ fuel s', TextSite.flushLoop string lengthLimit parent nextChild fuel currentPosition s =
        some s' ∧
      Queued lengthLimit parent nextChild (string.characters.drop currentPosition) s s' := by
  -- on the text that is left
  induction hleft : string.length - currentPosition using Nat.strongRecOn
    generalizing currentPosition s with
  | ind left ih =>
    by_cases hend : currentPosition = string.length
    · refine ⟨1, s, flushLoop_done 0 s (by omega), ?_⟩
      rw [hend, show string.length = string.characters.length from rfl, List.drop_length]
      exact Queued.nil s
    · let breakIndex := min (currentPosition + lengthLimit) string.length
      have hproposed : min ((currentPosition + lengthLimit) % 4294967296) string.length =
          breakIndex := by
        show _ = min (currentPosition + lengthLimit) string.length
        rw [Nat.mod_eq_of_lt (by omega)]
      have hbreak : findBreakIndexBetween string currentPosition
          (min ((currentPosition + lengthLimit) % 4294967296) string.length) = breakIndex := by
        rw [hproposed]
        unfold findBreakIndexBetween
        rw [h8, if_pos rfl, ite_self]
      have hlt : currentPosition < breakIndex :=
        Nat.lt_min.mpr ⟨by omega, by omega⟩
      have hbound : breakIndex ≤ string.length := Nat.min_le_right _ _
      have hstep : breakIndex ≤ currentPosition + lengthLimit := Nat.min_le_left _ _
      obtain ⟨fuel, s', hrest, hqueued⟩ := ih (string.length - breakIndex) (by omega) hbound
        (s.queueText parent nextChild
          ((string.characters.drop currentPosition).take (breakIndex - currentPosition))) rfl
      refine ⟨fuel + 1, s', ?_, ?_⟩
      · rw [flushLoop_step fuel s hbreak hlt hbound]
        exact hrest
      · have hsplit : string.characters.drop currentPosition =
            (string.characters.drop currentPosition).take (breakIndex - currentPosition) ++
              string.characters.drop breakIndex := by
          have happend := List.take_append_drop (breakIndex - currentPosition)
            (string.characters.drop currentPosition)
          rw [List.drop_drop, show currentPosition + (breakIndex - currentPosition) = breakIndex by
            omega] at happend
          exact happend.symm
        have hlength : ((string.characters.drop currentPosition).take
            (breakIndex - currentPosition)).length = breakIndex - currentPosition := by
          rw [List.length_take, List.length_drop]
          have hall : string.characters.length = string.length := rfl
          omega
        rw [hsplit]
        apply Queued.cons
        · apply List.ne_nil_of_length_pos
          omega
        · omega
        · exact hqueued

/-- **A text that is never flushed.** A 16-bit text over the limit is broken at 0, again and again,
and so is an 8-bit text whose positions wrap. -/
theorem flushLoop_forever (hlong : 65536 < string.length)
    (hwrap : string.is8Bit = true → 4294967296 < string.length + 65536) (fuel : Nat)
    {currentPosition : Nat} (hmultiple : currentPosition % 65536 = 0)
    (hlt : currentPosition < string.length)
    (hstart : string.is8Bit = false → currentPosition = 0) (s : TextSite) :
    TextSite.flushLoop string 65536 parent nextChild fuel currentPosition s = none := by
  induction fuel generalizing currentPosition s with
  | zero => rfl
  | succ fuel ih =>
    have hlength : string.length < 4294967296 := string.length_lt
    unfold TextSite.flushLoop
    rw [if_pos hlt]
    dsimp only
    unfold findBreakIndexBetween
    cases h8 : string.is8Bit with
    | false =>
      have hzero := hstart h8
      rw [if_neg (by omega), if_neg Bool.false_ne_true]
      exact ih rfl (by omega) (fun _ => rfl) _
    | true =>
      have hfar := hwrap h8
      rw [if_neg (by omega), if_pos rfl]
      apply ih
      · omega
      · omega
      · intro hnot
        rw [h8] at hnot
        cases hnot

end Loop

/-! ## The flush -/

/-- The text fits a text node of its parent, or it is an 8-bit text. The positions in it must not
wrap: a longer text does not fit the buffer of a `StringBuilder`. -/
def Flushable (t : Nodes) (p : PendingText) : Prop :=
  p.stringBuilder.length ≤ t.textLengthLimitForContainer p.parent ∨
    (p.stringBuilder.is8Bit = true ∧ p.stringBuilder.length + 65536 ≤ 4294967296)

theorem textLengthLimitForContainer_cases (t : Nodes) (n : NodeId) :
    t.textLengthLimitForContainer n = 65536 ∨ t.textLengthLimitForContainer n = 4294967295 := by
  unfold Nodes.textLengthLimitForContainer Nodes.kDefaultLengthLimit
  split
  · exact .inl rfl
  · exact .inr rfl

theorem flushPendingText_eq {mode : FlushMode} {s : TextSite} {p : PendingText}
    (hp : s.pendingText = some p)
    (hmode : mode = .kFlushAlways ∨ s.nodes.shouldUseLengthLimit p.parent = true) (fuel : Nat) :
    s.flushPendingText fuel mode =
      TextSite.flushLoop p.stringBuilder (s.nodes.textLengthLimitForContainer p.parent) p.parent
        p.nextChild fuel 0 { s with pendingText := none } := by
  unfold TextSite.flushPendingText
  rw [hp]
  dsimp only
  rw [if_neg]
  rintro ⟨hlimit, hnot⟩
  rcases hmode with halways | hshould
  · rw [halways] at hlimit
    cases hlimit
  · rw [hshould] at hnot
    cases hnot

/-- No 8-bit character is a surrogate. -/
theorem not_splitsPair_of_latin {a b : List UInt16} (ha : ∀ c ∈ a, c.toNat < 256) :
    ¬ SplitsPair a b := by
  rintro ⟨l, t, hl, -, hlead, -⟩
  have hlt := ha l (List.mem_of_getLast? hl)
  unfold isLeadSurrogate at hlead
  simp only [Bool.and_eq_true, decide_eq_true_eq, UInt16.le_iff_toNat_le] at hlead
  have hge : 55296 ≤ l.toNat := hlead.1
  omega

/-- The pieces of an 8-bit text break no surrogate pair. -/
theorem Pieces.isChain_of_latin {nodes : Nodes} {parent : NodeId} {nextChild : Option NodeId}
    {lengthLimit : Nat} {text : List UInt16} {tasks : List HTMLConstructionSiteTask}
    (h : Pieces nodes parent nextChild lengthLimit text tasks)
    (hlatin : ∀ c ∈ text, c.toNat < 256) :
    tasks.IsChain fun a b => ¬ SplitsPair (nodes.data a.child) (nodes.data b.child) := by
  apply List.Pairwise.isChain
  apply List.Pairwise.imp_of_mem (R := fun _ _ => True)
  · intro a b ha _ _
    apply not_splitsPair_of_latin
    intro c hc
    apply hlatin
    rw [← h.text]
    exact List.mem_flatMap.mpr ⟨a, ha, hc⟩
  · exact List.pairwise_of_forall fun _ _ => trivial

/-- **A text that cannot be flushed is never flushed.** No number of rounds is enough. -/
theorem flushPendingText_forever {mode : FlushMode} {s : TextSite} {p : PendingText}
    (hp : s.pendingText = some p)
    (hmode : mode = .kFlushAlways ∨ s.nodes.shouldUseLengthLimit p.parent = true)
    (hnot : ¬ Flushable s.nodes p) (fuel : Nat) : s.flushPendingText fuel mode = none := by
  rw [flushPendingText_eq hp hmode]
  unfold Flushable at hnot
  rw [not_or] at hnot
  have hlength : p.stringBuilder.length < 4294967296 := p.stringBuilder.length_lt
  rcases textLengthLimitForContainer_cases s.nodes p.parent with hlimit | hlimit
  · rw [hlimit] at hnot ⊢
    refine flushLoop_forever _ _ (by omega) (fun h8 => ?_) fuel rfl (by omega) (fun _ => rfl) _
    by_contra hfits
    exact hnot.2 ⟨h8, by omega⟩
  · rw [hlimit] at hnot
    omega

/-- **When the pending text is flushed.** The flush ends, and the nodes it queues hold the text in
pieces within the limit that break no surrogate pair, exactly when the text fits one text node of
its parent or is an 8-bit text. -/
theorem flushPendingText_iff (mode : FlushMode) (s : TextSite) (p : PendingText)
    (hp : s.pendingText = some p)
    (hmode : mode = .kFlushAlways ∨ s.nodes.shouldUseLengthLimit p.parent = true) :
    (∃ fuel s', s.flushPendingText fuel mode = some s' ∧ Flushed s p s') ↔
      Flushable s.nodes p := by
  constructor
  · rintro ⟨fuel, s', hflush, -⟩
    by_contra hnot
    rw [flushPendingText_forever hp hmode hnot fuel] at hflush
    cases hflush
  · intro hflushable
    simp only [flushPendingText_eq hp hmode]
    by_cases hshort : p.stringBuilder.length ≤ s.nodes.textLengthLimitForContainer p.parent
    · have hlimit : s.nodes.textLengthLimitForContainer p.parent < 4294967296 := by
        rcases textLengthLimitForContainer_cases s.nodes p.parent with h | h <;> omega
      obtain ⟨s', hloop, hqueued, task, hone⟩ := flushLoop_short p.parent p.nextChild p.not_empty
        hshort hlimit { s with pendingText := none }
      obtain ⟨tasks, hqueue, hpieces⟩ := hqueued.tasks
      have htasks : tasks = [task] := List.append_cancel_left (hqueue.symm.trans hone)
      refine ⟨2, s', hloop, hqueued.pendingText, ⟨tasks, hqueue, hpieces, ?_⟩, hqueued.others⟩
      rw [htasks]
      exact List.isChain_singleton task
    · obtain ⟨h8, hwrap⟩ := hflushable.resolve_left hshort
      have hlength : p.stringBuilder.length < 4294967296 := p.stringBuilder.length_lt
      have hlimit : s.nodes.textLengthLimitForContainer p.parent = 65536 := by
        rcases textLengthLimitForContainer_cases s.nodes p.parent with h | h <;> omega
      rw [← hlimit] at hwrap
      obtain ⟨fuel, s', hloop, hqueued⟩ := flushLoop_latin p.parent p.nextChild h8 (by omega)
        hwrap (Nat.zero_le _) { s with pendingText := none }
      rw [List.drop_zero] at hqueued
      obtain ⟨tasks, hqueue, hpieces⟩ := hqueued.tasks
      exact ⟨fuel, s', hloop, hqueued.pendingText,
        ⟨tasks, hqueue, hpieces, hpieces.isChain_of_latin (p.stringBuilder.latin h8)⟩,
        hqueued.others⟩

/-! ## A long text in a paragraph -/

/-- A `<p>` element is all there is. -/
def paragraph : Nodes where
  heap := Heap.initial.createNode .element "p" 0
  isHTMLElement := fun _ => true
  localName := fun _ => "p"
  data := fun _ => []
  isFinishedParsingChildren := fun _ => false

/-- The text of `n` copies of a character. -/
def repeated (is8Bit : Bool) (c : UInt16) (n : Nat) (h8 : is8Bit = true → c.toNat < 256)
    (hn : 0 < n) (hlt : n < 4294967296) : PendingText where
  parent := 0
  nextChild := none
  stringBuilder := {
    is8Bit := is8Bit
    characters := List.replicate n c
    length_lt := by rwa [List.length_replicate]
    latin := by
      intro h d hd
      rw [List.eq_of_mem_replicate hd]
      exact h8 h }
  not_empty := by
    apply List.ne_nil_of_length_pos
    rwa [List.length_replicate]

theorem repeated_length (is8Bit : Bool) (c : UInt16) (n : Nat)
    (h8 : is8Bit = true → c.toNat < 256) (hn : 0 < n) (hlt : n < 4294967296) :
    (repeated is8Bit c n h8 hn hlt).stringBuilder.length = n := List.length_replicate

/-- One ideograph more than the limit. -/
def longText : PendingText := repeated false 0x4E00 65537 (by intro h; cases h) (by omega) (by omega)

/-- The flush of `longText` does not end. -/
theorem flushPendingText_hangs :
    ¬ ∃ fuel s', TextSite.flushPendingText fuel .kFlushAlways ⟨paragraph, some longText, []⟩ =
        some s' ∧
      Flushed ⟨paragraph, some longText, []⟩ longText s' := by
  rintro ⟨fuel, s', hflush, -⟩
  have hnot : ¬ Flushable paragraph longText := by
    have hlength : longText.stringBuilder.length = 65537 := repeated_length ..
    have hlimit : paragraph.textLengthLimitForContainer longText.parent = 65536 := by
      decide +kernel
    rintro (hle | ⟨h8, -⟩)
    · omega
    · cases h8
  rw [flushPendingText_forever rfl (.inl rfl) hnot fuel] at hflush
  cases hflush

/-- An 8-bit text over the limit is flushed. -/
def latinText : PendingText :=
  repeated true 0x61 65537 (by intro _; decide) (by omega) (by omega)

theorem flushPendingText_latinText :
    ∃ fuel s', TextSite.flushPendingText fuel .kFlushAlways ⟨paragraph, some latinText, []⟩ =
        some s' ∧
      Flushed ⟨paragraph, some latinText, []⟩ latinText s' := by
  apply (flushPendingText_iff .kFlushAlways ⟨paragraph, some latinText, []⟩ latinText rfl
    (.inl rfl)).mpr
  have hlength : latinText.stringBuilder.length = 65537 := repeated_length ..
  exact .inr ⟨rfl, by omega⟩

end Blinkit.Html
