import Blinkit.Html.ParserLog
import Blinkit.Lib.Transition
import Mathlib.Data.List.Range

/-!
# Scripts that block the parser

* `Ledger` : the parser agrees with its log, whatever call is innermost
* `Running`, `Base`, `Located` : the stacks that occur, each with what holds there
* `Protocol` : what the log and the parser promise
* `Decides` : the tokenizer does not wait for more characters of a closed string

The parser ends in the last pump, which is not nested and not paused.  No script can come up there:
the input behind what the tokenizer could not decide on is the end-of-file marker.

Principal results: `Inv.next`, `parser_protocol`.
-/

set_option autoImplicit false

namespace Blinkit.Html

open Lib Transition

/-! ## The ledger -/

/-- The input that is left, cut at the insertion points. -/
def HTMLInputStream.segments (input : HTMLInputStream) : List (List Char) :=
  input.current.chars :: input.nexts.map SegmentedString.chars

def HTMLInputStream.closings (input : HTMLInputStream) : List Bool :=
  input.current.closed :: input.nexts.map SegmentedString.closed

theorem HTMLInputStream.haveSeenEndOfFile_eq {input : HTMLInputStream} {n : Nat} {b : Bool}
    (h : input.closings = List.replicate n false ++ [b]) : input.haveSeenEndOfFile = b := by
  have hlast : input.closings.getLast? = some b := by simp [h]
  simp only [closings, List.getLast?_cons, List.getLast?_map, Option.some.injEq] at hlast
  rw [← hlast, haveSeenEndOfFile, last]
  cases input.nexts.getLast? <;> rfl

namespace Parser

/-- The scripts that block the parser and have not been run. -/
def pendingScripts (p : Parser) : List Nat :=
  (p.parserBlockingScript.map Prod.fst).toList ++
    ((p.scriptToProcess.filter fun script => script.2.blocks).map Prod.fst).toList

/-- The parser agrees with its log, with `scripts` the scripts that run and `pumps` pump
sessions. -/
structure Ledger (p : Parser) (scripts : List Nat) (pumps : Nat) : Prop where
  justified : Justified p.log
  tape : replay p.log = Tape.ofSegments (consumedText p.log) p.input.segments
  closings : p.input.closings =
    List.replicate p.input.nexts.length false ++ [decide (.endOfFile ∈ p.log)]
  active : (running p.log).map Prod.fst = scripts
  nesting : p.scriptNestingLevel = scripts.length
  session : p.pumpSessionNestingLevel = pumps
  numbered : endTags p.log = (List.range p.scripts).reverse
  pending : endTags p.log = p.pendingScripts ++ runs p.log
  blocking : ∀ s loaded, p.parserBlockingScript = some (s, loaded) →
    .scriptEndTag s true ∈ p.log ∧ ∀ ok, loaded = some ok → .loaded s ok ∈ p.log
  toProcess : ∀ s kind, p.scriptToProcess = some (s, kind) → kind.blocks = true →
    .scriptEndTag s kind.isExternal ∈ p.log
  ended : .ended ∈ p.log ↔ p.state = .kStoppedState

variable {p p' : Parser} {scripts : List Nat} {pumps : Nat}

/-- The ledger does not read the other fields. -/
theorem Ledger.congr (h : Ledger p scripts pumps) (hlog : p'.log = p.log)
    (hinput : p'.input = p.input) (hprocess : p'.scriptToProcess = p.scriptToProcess)
    (hblocking : p'.parserBlockingScript = p.parserBlockingScript)
    (hnesting : p'.scriptNestingLevel = p.scriptNestingLevel)
    (hpumps : p'.pumpSessionNestingLevel = p.pumpSessionNestingLevel)
    (hscripts : p'.scripts = p.scripts) (hstate : p'.state = p.state) :
    Ledger p' scripts pumps := by
  obtain ⟨h1, h2, h3, h4, h5, h6, h7, h8, h9, h10, h11⟩ := h
  refine ⟨?_, ?_, ?_, ?_, ?_, ?_, ?_, ?_, ?_, ?_, ?_⟩ <;>
    simp only [pendingScripts, hlog, hinput, hprocess, hblocking, hnesting, hpumps, hscripts,
      hstate] <;> assumption

theorem Ledger.goto (h : Ledger p scripts pumps) (stack : List Frame) :
    Ledger (p.goto stack) scripts pumps :=
  h.congr rfl rfl rfl rfl rfl rfl rfl rfl

theorem Ledger.call (h : Ledger p scripts pumps) (f : Frame) : Ledger (p.call f) scripts pumps :=
  h.congr rfl rfl rfl rfl rfl rfl rfl rfl

theorem Ledger.pump (h : Ledger p scripts pumps) :
    Ledger { p with pumpSessionNestingLevel := p.pumpSessionNestingLevel + 1 } scripts
      (pumps + 1) :=
  ⟨h.justified, h.tape, h.closings, h.active, h.nesting, congrArg (· + 1) h.session, h.numbered,
    h.pending, h.blocking, h.toProcess, h.ended⟩

theorem Ledger.leavePump (h : Ledger p scripts (pumps + 1)) (stack : List Frame) :
    Ledger (p.leavePump stack) scripts pumps := by
  refine ⟨h.justified, h.tape, h.closings, h.active, h.nesting, ?_, h.numbered, h.pending,
    h.blocking, h.toProcess, h.ended⟩
  show p.pumpSessionNestingLevel - 1 = pumps
  rw [h.session]
  rfl

/-! ## What the ledger says -/

theorem Ledger.haveSeenEndOfFile (h : Ledger p scripts pumps) :
    p.input.haveSeenEndOfFile = decide (.endOfFile ∈ p.log) :=
  HTMLInputStream.haveSeenEndOfFile_eq h.closings

theorem Ledger.length_nexts (h : Ledger p scripts pumps) :
    p.input.nexts.length = scripts.length := by
  have hpoints := length_running p.log
  rw [h.tape] at hpoints
  rw [← h.active, List.length_map, hpoints]
  simp [Tape.ofSegments, HTMLInputStream.segments, Tape.length_cuts]

theorem Ledger.nexts_eq_nil (h : Ledger p [] pumps) : p.input.nexts = [] :=
  List.eq_nil_of_length_eq_zero h.length_nexts

/-- With no script pending, every script has been run. -/
theorem Ledger.runs_eq (h : Ledger p scripts pumps) (hpaused : p.isPaused = false) :
    runs p.log = endTags p.log := by
  have hpending := h.pending
  simp only [isPaused, Bool.or_eq_false_iff, Option.isSome_eq_false_iff, Option.isNone_iff_eq_none]
    at hpaused
  simp [pendingScripts, hpaused.1, hpaused.2] at hpending
  exact hpending.symm

/-! ## What changes the ledger -/

/-- An entry that is not about the turns of scripts. -/
theorem Ledger.extend {scripts' : List Nat} (h : Ledger p scripts pumps) {e : Entry}
    (hlog : p'.log = e :: p.log) (hprocess : p'.scriptToProcess = p.scriptToProcess)
    (hblocking : p'.parserBlockingScript = p.parserBlockingScript)
    (hpumps : p'.pumpSessionNestingLevel = p.pumpSessionNestingLevel)
    (hscripts : p'.scripts = p.scripts) (hstate : p'.state = p.state)
    (hends : endTags [e] = []) (hruns : runs [e] = []) (hended : e ≠ .ended)
    (hj : e.Justified p.log)
    (htape : replay (e :: p.log) =
      Tape.ofSegments (consumedText (e :: p.log)) p'.input.segments)
    (hclosings : p'.input.closings =
      List.replicate p'.input.nexts.length false ++ [decide (.endOfFile ∈ e :: p.log)])
    (hrunning : (running (e :: p.log)).map Prod.fst = scripts')
    (hnesting : p'.scriptNestingLevel = scripts'.length) : Ledger p' scripts' pumps := by
  have hends' : endTags (e :: p.log) = endTags p.log := by
    rw [← List.singleton_append, endTags, List.filterMap_append]
    simpa [endTags] using hends
  have hruns' : runs (e :: p.log) = runs p.log := by
    rw [← List.singleton_append, runs, List.filterMap_append]
    simpa [runs] using hruns
  refine ⟨?_, ?_, ?_, ?_, hnesting, ?_, ?_, ?_, ?_, ?_, ?_⟩
  · rw [hlog]
    exact ⟨hj, h.justified⟩
  · rw [hlog]
    exact htape
  · rw [hlog]
    exact hclosings
  · rw [hlog]
    exact hrunning
  · rw [hpumps]
    exact h.session
  · rw [hlog, hends', hscripts]
    exact h.numbered
  · rw [hlog, hends', hruns', h.pending]
    simp only [pendingScripts, hblocking, hprocess]
  · intro s loaded hs
    rw [hblocking] at hs
    obtain ⟨htag, hloaded⟩ := h.blocking s loaded hs
    rw [hlog]
    exact ⟨List.mem_cons_of_mem _ htag, fun ok hok => List.mem_cons_of_mem _ (hloaded ok hok)⟩
  · intro s kind hs hblocks
    rw [hprocess] at hs
    rw [hlog]
    exact List.mem_cons_of_mem _ (h.toProcess s kind hs hblocks)
  · rw [hlog, hstate, ← h.ended, List.mem_cons]
    simp [hended.symm]

theorem Ledger.consume (h : Ledger p scripts pumps) (hpaused : p.isPaused = false) {n : Nat}
    (hn : n ≤ p.input.current.chars.length) : Ledger (p.consume n) scripts pumps := by
  have hlength : (p.input.current.chars.take n).length = n := by simp [hn]
  refine h.extend (e := .consumed (p.input.current.chars.take n)) rfl rfl rfl rfl rfl rfl rfl rfl
    (by simp) ⟨h.runs_eq hpaused, ?_, ?_⟩ ?_ ?_ h.active h.nesting
  · rw [h.tape]
    simp only [Tape.ofSegments, HTMLInputStream.segments, List.drop_left, List.flatten_cons]
    exact (List.take_prefix _ _).trans (List.prefix_append _ _)
  · rw [h.tape, hlength]
    intro point hpoint
    have := Tape.le_of_mem_cuts hpoint
    simp only [Tape.ofSegments]
    omega
  · show (replay p.log).consume (p.input.current.chars.take n).length = _
    rw [hlength, h.tape]
    exact Tape.ofSegments_consume _ _ _ hn
  · show p.input.closings = _
    rw [h.closings]
    simp [Parser.consume, record]

theorem Ledger.insert (h : Ledger p scripts pumps) (hscripts : scripts ≠ []) (text : List Char) :
    Ledger (({ p with input := p.input.insertAtCurrentInsertionPoint text }).record
      (.inserted text)) scripts pumps := by
  have hlength := h.length_nexts
  refine h.extend (e := .inserted text) rfl rfl rfl rfl rfl rfl rfl rfl (by simp) ?_ ?_ ?_
    h.active h.nesting
  · intro hrunning
    apply hscripts
    rw [← h.active, hrunning]
    rfl
  · show (replay p.log).insert text = _
    rw [h.tape]
    cases hnexts : p.input.nexts with
    | nil =>
      rw [hnexts] at hlength
      exact absurd (List.eq_nil_of_length_eq_zero hlength.symm) hscripts
    | cons next nexts =>
      simp only [HTMLInputStream.segments, HTMLInputStream.insertAtCurrentInsertionPoint, record,
        SegmentedString.append, hnexts, List.map_cons]
      exact Tape.ofSegments_insert _ _ _ _ _
  · show p.input.closings = _
    rw [h.closings]
    simp [record, HTMLInputStream.insertAtCurrentInsertionPoint]

theorem Ledger.receive (h : Ledger p [] pumps) (heof : .endOfFile ∉ p.log) (text : List Char) :
    Ledger (({ p with input := p.input.appendToEnd text }).record (.received text)) [] pumps := by
  have hnexts := h.nexts_eq_nil
  refine h.extend (e := .received text) rfl rfl rfl rfl rfl rfl rfl rfl (by simp) ⟨heof, ?_⟩ ?_ ?_
    h.active h.nesting
  · exact List.map_eq_nil_iff.mp h.active
  · show (replay p.log).receive text = _
    rw [h.tape]
    simp only [HTMLInputStream.segments, HTMLInputStream.appendToEnd, HTMLInputStream.modifyLast,
      SegmentedString.append, record, hnexts, List.map_nil]
    exact Tape.ofSegments_receive _ _ _
  · have hclosings := h.closings
    simp only [HTMLInputStream.closings, hnexts] at hclosings
    simpa [HTMLInputStream.closings, HTMLInputStream.appendToEnd, HTMLInputStream.modifyLast,
      SegmentedString.append, record, hnexts] using hclosings

theorem Ledger.markEndOfFile (h : Ledger p [] pumps) (heof : .endOfFile ∉ p.log) :
    Ledger ((({ p with input := p.input.markEndOfFile }).record
      (.received [kEndOfFileMarker])).record .endOfFile) [] pumps := by
  have hnexts := h.nexts_eq_nil
  refine (h.receive heof [kEndOfFileMarker]).extend (e := .endOfFile) rfl rfl rfl rfl rfl rfl rfl
    rfl (by simp) ?_ ?_ ?_ h.active h.nesting
  · simpa [Entry.Justified, record] using heof
  · have htape := (h.receive heof [kEndOfFileMarker]).tape
    simpa [HTMLInputStream.segments, HTMLInputStream.appendToEnd, HTMLInputStream.markEndOfFile,
      HTMLInputStream.modifyLast, SegmentedString.append, record, hnexts, replay, consumedText]
      using htape
  · simp [HTMLInputStream.closings, HTMLInputStream.markEndOfFile, HTMLInputStream.modifyLast,
      record, hnexts]

theorem Ledger.return {s : Nat} (h : Ledger p (s :: scripts) pumps) :
    Ledger (p.leaveScript.record (.returned s)) scripts pumps := by
  have hlength := h.length_nexts
  have hrunning := h.active
  obtain ⟨next, nexts, hnexts⟩ := List.exists_cons_of_length_eq_add_one hlength
  cases hrun : running p.log with
  | nil =>
    rw [hrun] at hrunning
    cases hrunning
  | cons script rest =>
    rw [hrun] at hrunning
    obtain ⟨hs, hrest⟩ := List.cons.inj hrunning
    refine h.extend (e := .returned s) rfl rfl rfl rfl rfl rfl rfl rfl (by simp)
      ⟨script.2, ?_⟩ ?_ ?_ ?_ ?_
    · rw [hrun, ← hs]
      rfl
    · show (replay p.log).leave = _
      rw [h.tape]
      simp only [HTMLInputStream.segments, HTMLInputStream.mergeFrom, leaveScript, record, hnexts,
        List.map_cons]
      exact Tape.ofSegments_leave _ _ _ _
    · have hclosings := h.closings
      simp only [HTMLInputStream.closings, hnexts, List.map_cons, List.length_cons,
        List.replicate_succ, List.cons_append, List.cons.injEq] at hclosings
      obtain ⟨hcurrent, htail⟩ := hclosings
      simpa [HTMLInputStream.closings, HTMLInputStream.mergeFrom, leaveScript, record, hnexts,
        hcurrent] using htail
    · show (running p.log).tail.map Prod.fst = scripts
      rw [hrun]
      exact hrest
    · show p.scriptNestingLevel - 1 = scripts.length
      rw [h.nesting]
      rfl

/-- The tree builder takes a script to process. -/
theorem Ledger.constructScript (h : Ledger p scripts pumps) (hpaused : p.isPaused = false)
    (kind : ScriptKind) : Ledger (p.constructScript kind) scripts pumps := by
  have hruns := h.runs_eq hpaused
  simp only [isPaused, Bool.or_eq_false_iff, Option.isSome_eq_false_iff, Option.isNone_iff_eq_none]
    at hpaused
  have hpending := h.pending
  simp only [pendingScripts, hpaused.1, hpaused.2] at hpending
  by_cases hblocks : kind.blocks = true
  · have heq : p.constructScript kind = { p with
        scriptToProcess := some (p.scripts, kind)
        lastConsumed := none
        scripts := p.scripts + 1
        log := .scriptEndTag p.scripts kind.isExternal :: p.log } := by
      simp [Parser.constructScript, hblocks, record]
    rw [heq]
    refine ⟨⟨⟨?_, hruns⟩, h.justified⟩, h.tape, ?_, h.active, h.nesting, h.session, ?_, ?_, ?_, ?_,
      ?_⟩
    · rw [h.numbered]
      simp
    · simpa using h.closings
    · show p.scripts :: endTags p.log = _
      rw [h.numbered, List.range_succ, List.reverse_append]
      rfl
    · show p.scripts :: endTags p.log = _
      rw [hpending]
      simp [pendingScripts, hpaused.2, Option.filter, hblocks, runs]
    · intro s loaded hs
      rw [hpaused.2] at hs
      cases hs
    · intro s kind' hs hblocks'
      cases hs
      exact List.mem_cons_self
    · show _ ∈ _ :: p.log ↔ _
      simpa using h.ended
  · have heq : p.constructScript kind =
        { p with scriptToProcess := some (p.scripts, kind), lastConsumed := none } := by
      simp [Parser.constructScript, hblocks]
    rw [heq]
    refine ⟨h.justified, h.tape, h.closings, h.active, h.nesting, h.session, h.numbered, ?_,
      h.blocking, ?_, h.ended⟩
    · rw [hpending]
      simp [pendingScripts, hpaused.2, Option.filter, hblocks]
    · intro s kind' hs hblocks'
      cases hs
      exact absurd hblocks' hblocks

/-- A script that blocks the parser is at its turn, and is run. -/
theorem Ledger.run {s : Nat} {ok : Bool} (h : Ledger p scripts pumps)
    (hpending : p.pendingScripts = [s])
    (htag : ∃ external, .scriptEndTag s external ∈ p.log ∧
      if external then .loaded s ok ∈ p.log else ok = true)
    (hinput : p'.input = p.input.splitInto) (hprocess : p'.scriptToProcess = none)
    (hblocking : p'.parserBlockingScript = none)
    (hnesting : p'.scriptNestingLevel = p.scriptNestingLevel + 1)
    (hpumps : p'.pumpSessionNestingLevel = p.pumpSessionNestingLevel)
    (hscripts : p'.scripts = p.scripts) (hstate : p'.state = p.state)
    (hlog : p'.log = .run s ok :: p.log) : Ledger p' (s :: scripts) pumps := by
  have hends : endTags p.log = s :: runs p.log := by
    rw [h.pending, hpending]
    rfl
  refine ⟨?_, ?_, ?_, ?_, ?_, ?_, ?_, ?_, ?_, ?_, ?_⟩
  · rw [hlog]
    exact ⟨⟨hends, htag⟩, h.justified⟩
  · rw [hlog, hinput]
    show (replay p.log).enter = _
    rw [h.tape]
    exact Tape.ofSegments_enter _ _ _
  · have hclosings := h.closings
    rw [hlog, hinput]
    simp only [HTMLInputStream.closings, HTMLInputStream.splitInto, List.map_cons,
      List.length_cons, List.replicate_succ, List.cons_append, List.cons.injEq, true_and]
      at hclosings ⊢
    rw [hclosings]
    simp
  · rw [hlog]
    show s :: (Html.running p.log).map Prod.fst = _
    rw [h.active]
  · rw [hnesting, h.nesting]
    rfl
  · rw [hpumps]
    exact h.session
  · rw [hlog, hscripts]
    exact h.numbered
  · rw [hlog]
    show endTags p.log = p'.pendingScripts ++ s :: runs p.log
    rw [hends]
    simp [pendingScripts, hprocess, hblocking]
  · intro s' loaded hs
    rw [hblocking] at hs
    cases hs
  · intro s' kind hs
    rw [hprocess] at hs
    cases hs
  · rw [hlog, hstate, ← h.ended]
    simp

/-- The resource of the parser-blocking script is there. -/
theorem Ledger.loaded {s : Nat} (h : Ledger p scripts pumps) {old : Option Bool}
    (hs : p.parserBlockingScript = some (s, old)) (ok : Bool) :
    Ledger (({ p with parserBlockingScript := some (s, some ok) }).record (.loaded s ok)) scripts
      pumps := by
  refine ⟨⟨trivial, h.justified⟩, h.tape, ?_, h.active, h.nesting, h.session, h.numbered, ?_, ?_,
    ?_, ?_⟩
  · simpa [record] using h.closings
  · have hpending := h.pending
    simpa [pendingScripts, record, hs, runs, endTags] using hpending
  · intro s' loaded hs'
    cases hs'
    refine ⟨List.mem_cons_of_mem _ (h.blocking s old hs).1, ?_⟩
    intro ok' hok
    cases hok
    exact List.mem_cons_self
  · intro s' kind hs' hblocks
    exact List.mem_cons_of_mem _ (h.toProcess s' kind hs' hblocks)
  · show _ ∈ _ :: p.log ↔ p.state = _
    simpa using h.ended

/-- The end is reached with everything read and no script pending. -/
theorem Ledger.end (h : Ledger p [] pumps) (hstate : p.state ≠ .kStoppedState)
    (heof : .endOfFile ∈ p.log) (hinput : p.input.current.chars = [])
    (hpaused : p.isPaused = false) : Ledger p.end [] pumps := by
  have hnexts := h.nexts_eq_nil
  refine ⟨⟨⟨fun hended => hstate (h.ended.mp hended), heof, ?_, h.runs_eq hpaused, ?_⟩,
    h.justified⟩, h.tape, ?_, h.active, h.nesting, h.session, h.numbered, h.pending, ?_, ?_, ?_⟩
  · rw [h.tape]
    simp [Tape.ofSegments, HTMLInputStream.segments, hinput, hnexts]
  · exact List.map_eq_nil_iff.mp h.active
  · simpa [Parser.end, record] using h.closings
  · intro s loaded hs
    obtain ⟨htag, hloaded⟩ := h.blocking s loaded hs
    exact ⟨List.mem_cons_of_mem _ htag, fun ok hok => List.mem_cons_of_mem _ (hloaded ok hok)⟩
  · intro s kind hs hblocks
    exact List.mem_cons_of_mem _ (h.toProcess s kind hs hblocks)
  · exact iff_of_true List.mem_cons_self rfl

@[simp] theorem mergeFrom_splitInto (input : HTMLInputStream) :
    input.splitInto.mergeFrom = input := by
  simp [HTMLInputStream.splitInto, HTMLInputStream.mergeFrom]

/-! ## Where the parser is -/

/-- The scripts whose calls are on the stack. -/
def scriptFrames (stack : List Frame) : List Nat :=
  stack.filterMap fun | .script s => some s | _ => none

/-- The pump sessions on the stack. -/
def pumpFrames (stack : List Frame) : Nat :=
  stack.countP fun f => f == .canTakeNextToken || f == .canTakeNextTokenPaused || f == .nextToken

theorem pumpFrames_canTakeNextToken (stack : List Frame) :
    pumpFrames (.canTakeNextToken :: stack) = pumpFrames stack + 1 :=
  List.countP_cons_of_pos (by decide)

theorem pumpFrames_canTakeNextTokenPaused (stack : List Frame) :
    pumpFrames (.canTakeNextTokenPaused :: stack) = pumpFrames stack + 1 :=
  List.countP_cons_of_pos (by decide)

theorem pumpFrames_nextToken (stack : List Frame) :
    pumpFrames (.nextToken :: stack) = pumpFrames stack + 1 :=
  List.countP_cons_of_pos (by decide)

/-- The innermost call is that of a script. -/
inductive Running : List Frame → Prop
  /-- An inline script. -/
  | inline (s : Nat) :
    Running [.script s, .processScriptElement, .canTakeNextTokenPaused, .endIfDelayed]
  /-- An inline script in what another script has written. -/
  | nested (s : Nat) {below : List Frame} (h : Running below) :
    Running (.script s :: .processScriptElement :: .canTakeNextTokenPaused :: .endIfDelayed ::
      .write :: below)
  /-- A script that was there when its end tag was read, or came up in one that was run so. -/
  | blocking (s : Nat) :
    Running [.script s, .executeParsingBlockingScripts, .canTakeNextTokenPaused, .endIfDelayed]
  /-- A script that the parser has waited for. -/
  | loaded (s : Nat) : Running [.script s, .executeParsingBlockingScripts, .notifyScriptLoaded]

/-- What a pump session goes back to. -/
inductive Base : List Frame → Prop
  /-- `Append` or `ResumeParsingAfterPause`. -/
  | top : Base [.endIfDelayed]
  /-- `insert`. -/
  | write {below : List Frame} (h : Running below) : Base (.endIfDelayed :: .write :: below)

theorem Base.running {base : List Frame} (h : Base base) (s : Nat) :
    Running (.script s :: .processScriptElement :: .canTakeNextTokenPaused :: base) := by
  cases h with
  | top => exact .inline s
  | write h => exact .nested s h

theorem Running.exists_script {stack : List Frame} (h : Running stack) :
    ∃ s below, stack = .script s :: below := by
  cases h <;> exact ⟨_, _, rfl⟩

/-- Parsing goes on; the end of input waits if it has come. -/
def Open (p : Parser) : Prop :=
  p.state = .kParsingState ∧ (p.endWasDelayed = true ↔ .endOfFile ∈ p.log)

theorem Open.mem_cons (h : Open p) {e : Entry} (he : e ≠ .endOfFile) :
    p.endWasDelayed = true ↔ .endOfFile ∈ e :: p.log := by
  simp [h.2, he.symm]

/-- No end tag of a script can come of what is left. -/
def Quiet (p : Parser) : Prop :=
  p.lastConsumed ≠ some '>' ∧ '>' ∉ p.input.current.chars.drop p.undecided

/-- The end of input has come and is not waited for. -/
def Final (p : Parser) : Prop :=
  p.state = .kParsingState ∧ .endOfFile ∈ p.log ∧ p.isPaused = false ∧ Quiet p

/-- Parsing is over. -/
def Stopped (p : Parser) : Prop :=
  p.state = .kStoppedState ∧ .endOfFile ∈ p.log ∧ p.isPaused = false

inductive Located (p : Parser) : List Frame → Prop
  | idle (hopen : Open p) (hprocess : p.scriptToProcess = none)
    (hquiet : p.isPaused = false → Quiet p ∧ .endOfFile ∉ p.log) : Located p []
  | running {stack : List Frame} (hopen : Open p) (hprocess : p.scriptToProcess = none)
    (h : Running stack) : Located p stack
  | write {below : List Frame} (hopen : Open p) (hprocess : p.scriptToProcess = none)
    (h : Running below) : Located p (.write :: below)
  | endIfDelayed {base : List Frame} (hopen : Open p) (hprocess : p.scriptToProcess = none)
    (h : Base base) (hquiet : base = [.endIfDelayed] → p.isPaused = false → Quiet p) :
    Located p base
  | canTakeNextToken {base : List Frame} (hopen : Open p)
    (hblocking : p.parserBlockingScript = none) (h : Base base) :
    Located p (.canTakeNextToken :: base)
  | canTakeNextTokenPaused {base : List Frame} (hopen : Open p)
    (hprocess : p.scriptToProcess = none) (h : Base base) :
    Located p (.canTakeNextTokenPaused :: base)
  | nextToken {base : List Frame} (hopen : Open p) (hpaused : p.isPaused = false) (h : Base base) :
    Located p (.nextToken :: base)
  | processScriptElement {base : List Frame} (hopen : Open p) (hprocess : p.scriptToProcess = none)
    (h : Base base) : Located p (.processScriptElement :: .canTakeNextTokenPaused :: base)
  | execute (hopen : Open p) (hprocess : p.scriptToProcess = none) :
    Located p [.executeParsingBlockingScripts, .canTakeNextTokenPaused, .endIfDelayed]
  | executeLoaded (hopen : Open p) (hprocess : p.scriptToProcess = none) :
    Located p [.executeParsingBlockingScripts, .notifyScriptLoaded]
  | notifyScriptLoaded (hopen : Open p) (hprocess : p.scriptToProcess = none) :
    Located p [.notifyScriptLoaded]
  /-- The last pump. -/
  | lastCanTakeNextToken (h : Final p) : Located p [.canTakeNextToken, .prepareToStopParsing]
  | lastCanTakeNextTokenPaused (h : Final p) :
    Located p [.canTakeNextTokenPaused, .prepareToStopParsing]
  | lastNextToken (h : Final p) : Located p [.nextToken, .prepareToStopParsing]
  | prepareToStopParsing (h : Final p) (hinput : p.input.current.chars = []) :
    Located p [.prepareToStopParsing]
  /-- `Finish` comes again. -/
  | finishAgain (h : Stopped p) : Located p [.prepareToStopParsing]
  | stopped (h : Stopped p) : Located p []

structure Inv (p : Parser) : Prop where
  ledger : Ledger p (scriptFrames p.stack) (pumpFrames p.stack)
  located : Located p p.stack

/-- The place says nothing about the other fields. -/
theorem Located.congr {stack : List Frame} (h : Located p stack) (hstate : p'.state = p.state)
    (hdelayed : p'.endWasDelayed = p.endWasDelayed) (hlog : p'.log = p.log)
    (hprocess : p'.scriptToProcess = p.scriptToProcess)
    (hblocking : p'.parserBlockingScript = p.parserBlockingScript)
    (hinput : p'.input = p.input) (hundecided : p'.undecided = p.undecided)
    (hlast : p'.lastConsumed = p.lastConsumed) : Located p' stack := by
  obtain ⟨input, toProcess, blocking, nesting, session, delayed, state, depth, tooDeep, scripts,
    undecided, last, stack', log⟩ := p
  dsimp only at hstate hdelayed hlog hprocess hblocking hinput hundecided hlast
  subst hstate hdelayed hlog hprocess hblocking hinput hundecided hlast
  cases h with
  | idle hopen hprocess hquiet => exact .idle hopen hprocess hquiet
  | running hopen hprocess h => exact .running hopen hprocess h
  | write hopen hprocess h => exact .write hopen hprocess h
  | endIfDelayed hopen hprocess h hquiet => exact .endIfDelayed hopen hprocess h hquiet
  | canTakeNextToken hopen hblocking h => exact .canTakeNextToken hopen hblocking h
  | canTakeNextTokenPaused hopen hprocess h => exact .canTakeNextTokenPaused hopen hprocess h
  | nextToken hopen hpaused h => exact .nextToken hopen hpaused h
  | processScriptElement hopen hprocess h => exact .processScriptElement hopen hprocess h
  | execute hopen hprocess => exact .execute hopen hprocess
  | executeLoaded hopen hprocess => exact .executeLoaded hopen hprocess
  | notifyScriptLoaded hopen hprocess => exact .notifyScriptLoaded hopen hprocess
  | lastCanTakeNextToken h => exact .lastCanTakeNextToken h
  | lastCanTakeNextTokenPaused h => exact .lastCanTakeNextTokenPaused h
  | lastNextToken h => exact .lastNextToken h
  | prepareToStopParsing h hinput => exact .prepareToStopParsing h hinput
  | finishAgain h => exact .finishAgain h
  | stopped h => exact .stopped h

/-! ## Pumps -/

theorem isPaused_eq_false :
    p.isPaused = false ↔ p.scriptToProcess = none ∧ p.parserBlockingScript = none := by
  simp [isPaused]

theorem not_paused_and_unpaused {a : Prop} (h : p.isPaused = true) (h' : p.isPaused = false) :
    a := by
  rw [h] at h'
  cases h'

/-- A pump starts unless the parser is paused. -/
theorem inv_pump (hledger : Ledger p (scriptFrames p.stack) (pumpFrames p.stack))
    (hstate : p.state = .kParsingState) (hskip : p.isPaused = true → Located p p.stack)
    (hpump : p.isPaused = false → Located p (.canTakeNextToken :: p.stack)) :
    Inv p.pumpTokenizerIfPossible := by
  unfold pumpTokenizerIfPossible
  split
  · rename_i hcond
    rcases hcond with hstopped | hpaused
    · simp [isStopped, hstate] at hstopped
    · exact ⟨hledger, hskip hpaused⟩
  · rename_i hcond
    have hpaused : p.isPaused = false := by
      simp only [not_or, Bool.not_eq_true] at hcond
      exact hcond.2
    refine ⟨?_, (hpump hpaused).congr rfl rfl rfl rfl rfl rfl rfl rfl⟩
    have hcall := hledger.pump.call .canTakeNextToken
    show Ledger _ (scriptFrames p.stack) (pumpFrames (.canTakeNextToken :: p.stack))
    rw [pumpFrames_canTakeNextToken]
    exact hcall

/-- The last pump. -/
theorem inv_prepareToStopParsing (hledger : Ledger p [] 0) (hstack : p.stack = [])
    (hfinal : Final p) : Inv p.prepareToStopParsing := by
  unfold Parser.prepareToStopParsing
  refine inv_pump ?_ hfinal.1 ?_ ?_
  · simp only [Parser.call, hstack]
    exact hledger.congr rfl rfl rfl rfl rfl rfl rfl rfl
  · intro hpaused
    have := hfinal.2.2.1
    rw [show (p.call .prepareToStopParsing).isPaused = p.isPaused from rfl, this] at hpaused
    cases hpaused
  · intro _
    simp only [Parser.call, hstack]
    exact .lastCanTakeNextToken hfinal

/-! ## The calls go on -/

theorem Running.ne_nil {stack : List Frame} (h : Running stack) : scriptFrames stack ≠ [] := by
  cases h <;> simp [scriptFrames]

/-- `RunScriptsForPausedTreeBuilder`. -/
theorem inv_runScripts {s : Nat} {kind : ScriptKind} {base : List Frame}
    (hledger : Ledger p (scriptFrames base) (pumpFrames base + 1)) (hopen : Open p)
    (hprocess : p.scriptToProcess = some (s, kind)) (hblocking : p.parserBlockingScript = none)
    (hbase : Base base) : Inv (p.runScriptsForPausedTreeBuilder s kind base) := by
  have hnesting : p.scriptNestingLevel + 1 - 1 = p.scriptNestingLevel := rfl
  have hpump : pumpFrames (.processScriptElement :: .canTakeNextTokenPaused :: base) =
      pumpFrames base + 1 := pumpFrames_canTakeNextTokenPaused base
  cases kind with
  | notExecuted =>
    have heq : p.runScriptsForPausedTreeBuilder s .notExecuted base =
        ({ p with scriptToProcess := none }).goto
          (.processScriptElement :: .canTakeNextTokenPaused :: base) := by
      simp [runScriptsForPausedTreeBuilder, enterScript, leaveScript, Parser.goto]
    rw [heq]
    refine ⟨?_, .processScriptElement hopen rfl hbase⟩
    show Ledger _ (scriptFrames base) (pumpFrames (.processScriptElement :: _))
    rw [hpump]
    refine ⟨hledger.justified, hledger.tape, hledger.closings, hledger.active, hledger.nesting,
      hledger.session, hledger.numbered, ?_, hledger.blocking, ?_, hledger.ended⟩
    · have hpending := hledger.pending
      simpa [pendingScripts, Parser.goto, hprocess, Option.filter, ScriptKind.blocks] using hpending
    · intro s' kind' hs
      cases hs
  | inline =>
    refine ⟨?_, .running ⟨hopen.1, hopen.mem_cons (by simp)⟩ rfl (hbase.running s)⟩
    show Ledger _ (s :: scriptFrames base)
      (pumpFrames (.script s :: .processScriptElement :: .canTakeNextTokenPaused :: base))
    rw [show pumpFrames (.script s :: .processScriptElement :: .canTakeNextTokenPaused :: base) =
      pumpFrames base + 1 from hpump]
    refine hledger.run (s := s) ?_ ⟨false, ?_, rfl⟩ rfl rfl hblocking rfl rfl rfl rfl
      rfl
    · simp [pendingScripts, hprocess, hblocking, Option.filter, ScriptKind.blocks]
    · exact hledger.toProcess s .inline hprocess rfl
  | external loaded =>
    have hbase' : Ledger { p with
        scriptToProcess := none
        parserBlockingScript := some (s, none) } (scriptFrames base) (pumpFrames base + 1) := by
      refine ⟨hledger.justified, hledger.tape, hledger.closings, hledger.active, hledger.nesting,
        hledger.session, hledger.numbered, ?_, ?_, ?_, hledger.ended⟩
      · have hpending := hledger.pending
        simpa [pendingScripts, hprocess, hblocking, Option.filter, ScriptKind.blocks] using hpending
      · intro s' loaded' hs
        cases hs
        refine ⟨hledger.toProcess s (.external loaded) hprocess rfl, ?_⟩
        intro ok hok
        cases hok
      · intro s' kind' hs
        cases hs
    cases loaded with
    | none =>
      refine ⟨?_, .processScriptElement hopen rfl hbase⟩
      show Ledger _ (scriptFrames base) (pumpFrames (.processScriptElement :: _))
      rw [hpump]
      refine hbase'.congr rfl ?_ rfl rfl rfl rfl rfl rfl
      exact mergeFrom_splitInto p.input
    | some ok =>
      refine ⟨?_, .processScriptElement ⟨hopen.1, hopen.mem_cons (by simp)⟩ rfl hbase⟩
      show Ledger _ (scriptFrames base) (pumpFrames (.processScriptElement :: _))
      rw [hpump]
      refine (hbase'.loaded (s := s) rfl ok).congr rfl ?_ rfl rfl rfl rfl rfl rfl
      exact mergeFrom_splitInto p.input

/-- One round of `ExecuteParsingBlockingScripts`. -/
theorem inv_execute {stack : List Frame}
    (hledger : Ledger p (scriptFrames stack) (pumpFrames stack)) (hopen : Open p)
    (hprocess : p.scriptToProcess = none)
    (hrunning : ∀ s, Running (.script s :: .executeParsingBlockingScripts :: stack))
    (hstack : Located p stack) : Inv (p.executeParsingBlockingScripts stack) := by
  unfold Parser.executeParsingBlockingScripts
  split
  · rename_i s ok hblocking
    obtain ⟨htag, hloaded⟩ := hledger.blocking s (some ok) hblocking
    refine ⟨?_, .running ⟨hopen.1, hopen.mem_cons (by simp)⟩ hprocess (hrunning s)⟩
    refine hledger.run (s := s) ?_ ⟨true, htag, hloaded ok rfl⟩ rfl hprocess rfl rfl rfl
      rfl rfl rfl
    simp [pendingScripts, hprocess, hblocking]
  · exact ⟨hledger.goto stack, hstack.congr rfl rfl rfl rfl rfl rfl rfl rfl⟩

/-- Between the events, the end waits for scripts alone. -/
theorem Ledger.shouldDelayEnd_top (h : Ledger p [] 0) : p.shouldDelayEnd = p.isPaused := by
  have hsession := h.session
  have hnesting := h.nesting
  simp [shouldDelayEnd, inPumpSession, isExecutingScript, hsession, hnesting]

theorem Ledger.shouldDelayEnd (h : Ledger p scripts pumps) (hscripts : scripts ≠ []) :
    p.shouldDelayEnd = true := by
  have hnesting := h.nesting
  simp [Parser.shouldDelayEnd, isExecutingScript, hnesting, hscripts]

/-- `EndIfDelayed`. -/
theorem inv_endIfDelayed {base : List Frame}
    (hledger : Ledger p (scriptFrames base) (pumpFrames base)) (hstack : p.stack = base)
    (hopen : Open p) (hprocess : p.scriptToProcess = none) (h : Base base)
    (hquiet : base = [.endIfDelayed] → p.isPaused = false → Quiet p)
    (hnext : p.step = some p') : Inv p' := by
  cases h with
  | top =>
    simp only [Parser.step, hstack, Option.some.injEq] at hnext
    subst hnext
    have hidle : Ledger (p.goto []) [] 0 := hledger.goto []
    rw [hidle.shouldDelayEnd_top]
    split
    · rename_i hcond
      refine ⟨hidle, .idle hopen hprocess ?_⟩
      intro hpaused
      refine ⟨hquiet rfl hpaused, fun heof => ?_⟩
      rcases hcond with hdelayed | hdelay
      · exact hdelayed (hopen.2.mpr heof)
      · rw [hpaused] at hdelay
        cases hdelay
    · rename_i hcond
      simp only [not_or, Bool.not_eq_true, Bool.not_eq_false] at hcond
      obtain ⟨hdelayed, hpaused⟩ := hcond
      refine inv_prepareToStopParsing ?_ rfl
        ⟨hopen.1, hopen.2.mp hdelayed, hpaused, hquiet rfl hpaused⟩
      exact hidle.congr rfl rfl rfl rfl rfl rfl rfl rfl
  | @write below hrunning =>
    simp only [Parser.step, hstack, Option.some.injEq] at hnext
    subst hnext
    have hbelow := hledger.goto (.write :: below)
    rw [if_pos (.inr (hbelow.shouldDelayEnd hrunning.ne_nil))]
    exact ⟨hbelow, .write hopen hprocess hrunning⟩

theorem Inv.step (h : Inv p) (hnext : p.step = some p') : Inv p' := by
  obtain ⟨hledger, hlocated⟩ := h
  generalize hstack : p.stack = stack at hledger hlocated
  cases hlocated with
  | idle => simp [Parser.step, hstack] at hnext
  | stopped => simp [Parser.step, hstack] at hnext
  | nextToken => simp [Parser.step, hstack] at hnext
  | lastNextToken => simp [Parser.step, hstack] at hnext
  | running hopen hprocess hrunning =>
    obtain ⟨s, below, rfl⟩ := hrunning.exists_script
    simp [Parser.step, hstack] at hnext
  | write hopen hprocess hrunning =>
    simp only [Parser.step, hstack, Option.some.injEq] at hnext
    subst hnext
    exact ⟨hledger.congr rfl rfl rfl rfl rfl rfl rfl rfl, .running hopen hprocess hrunning⟩
  | endIfDelayed hopen hprocess hbase hquiet =>
    exact inv_endIfDelayed hledger hstack hopen hprocess hbase hquiet hnext
  | @canTakeNextToken base hopen hblocking hbase =>
    have hstopped : p.isStopped = false := by simp [isStopped, hopen.1]
    simp only [Parser.step, hstack, hstopped, Option.some.injEq] at hnext
    subst hnext
    rw [pumpFrames_canTakeNextToken] at hledger
    split
    · rename_i hfalse
      cases hfalse
    · split
      · rename_i s kind hprocess
        exact inv_runScripts hledger hopen hprocess hblocking hbase
      · rename_i hprocess
        refine ⟨?_, .canTakeNextTokenPaused hopen hprocess hbase⟩
        show Ledger _ _ (pumpFrames (.canTakeNextTokenPaused :: base))
        rw [pumpFrames_canTakeNextTokenPaused]
        exact hledger.goto _
  | @canTakeNextTokenPaused base hopen hprocess hbase =>
    have hstopped : p.isStopped = false := by simp [isStopped, hopen.1]
    simp only [Parser.step, hstack, hstopped, Option.some.injEq] at hnext
    subst hnext
    split
    · rename_i hcond
      have hpaused : p.isPaused = true := by simpa using hcond
      rw [pumpFrames_canTakeNextTokenPaused] at hledger
      refine ⟨hledger.leavePump base, .endIfDelayed hopen hprocess hbase ?_⟩
      intro _ hunpaused
      exact not_paused_and_unpaused (p := p) hpaused hunpaused
    · rename_i hcond
      have hpaused : p.isPaused = false := by simpa using hcond
      exact ⟨hledger.goto _, .nextToken hopen hpaused hbase⟩
  | processScriptElement hopen hprocess hbase =>
    simp only [Parser.step, hstack, Option.some.injEq] at hnext
    subst hnext
    split
    · rename_i hcond
      cases hbase with
      | top => exact ⟨hledger.goto _, .execute hopen hprocess⟩
      | write hrunning =>
        have hnesting := hledger.nesting
        have hne := hrunning.ne_nil
        simp [isExecutingScript, hnesting] at hcond
        exact absurd hcond.2 hne
    · exact ⟨hledger.goto _, .canTakeNextTokenPaused hopen hprocess hbase⟩
  | execute hopen hprocess =>
    simp only [Parser.step, hstack, Option.some.injEq] at hnext
    subst hnext
    exact inv_execute hledger hopen hprocess (fun s => .blocking s)
      (.canTakeNextTokenPaused hopen hprocess .top)
  | executeLoaded hopen hprocess =>
    simp only [Parser.step, hstack, Option.some.injEq] at hnext
    subst hnext
    exact inv_execute hledger hopen hprocess (fun s => .loaded s)
      (.notifyScriptLoaded hopen hprocess)
  | notifyScriptLoaded hopen hprocess =>
    simp only [Parser.step, hstack, Option.some.injEq] at hnext
    subst hnext
    split
    · rename_i hpaused
      refine ⟨hledger.goto [], .idle hopen hprocess ?_⟩
      intro hunpaused
      exact not_paused_and_unpaused (p := p) hpaused hunpaused
    · rename_i hcond
      have hpaused : p.isPaused = false := by simpa using hcond
      refine inv_pump (hledger.goto _) hopen.1 ?_ ?_
      · intro hfalse
        have hfalse : p.isPaused = true := hfalse
        rw [hpaused] at hfalse
        cases hfalse
      · intro _
        exact .canTakeNextToken hopen (isPaused_eq_false.mp hpaused).2 .top
  | lastCanTakeNextToken hfinal =>
    have hstopped : p.isStopped = false := by simp [isStopped, hfinal.1]
    have hprocess := (isPaused_eq_false.mp hfinal.2.2.1).1
    simp only [Parser.step, hstack, hstopped, hprocess, Option.some.injEq] at hnext
    subst hnext
    exact ⟨hledger.goto _, .lastCanTakeNextTokenPaused hfinal⟩
  | lastCanTakeNextTokenPaused hfinal =>
    have hstopped : p.isStopped = false := by simp [isStopped, hfinal.1]
    simp only [Parser.step, hstack, hstopped, hfinal.2.2.1, Option.some.injEq] at hnext
    subst hnext
    exact ⟨hledger.goto _, .lastNextToken hfinal⟩
  | prepareToStopParsing hfinal hinput =>
    have hstopped : p.isStopped = false := by simp [isStopped, hfinal.1]
    have hnotStopped : p.state ≠ .kStoppedState := by simp [hfinal.1]
    simp only [Parser.step, hstack, Option.some.injEq] at hnext
    subst hnext
    rw [if_neg (by simpa [isStopped, Parser.goto] using hnotStopped)]
    have hstopping : Ledger { p.goto [] with state := .kStoppingState } [] 0 := by
      refine ⟨hledger.justified, hledger.tape, hledger.closings, hledger.active, hledger.nesting,
        hledger.session, hledger.numbered, hledger.pending, hledger.blocking, hledger.toProcess,
        iff_of_false (fun hended => hnotStopped (hledger.ended.mp hended)) ?_⟩
      intro hfalse
      cases hfalse
    refine ⟨hstopping.end ?_ hfinal.2.1 hinput hfinal.2.2.1, .stopped ⟨rfl, ?_, hfinal.2.2.1⟩⟩
    · intro hfalse
      cases hfalse
    · exact List.mem_cons_of_mem _ hfinal.2.1
  | finishAgain hstop =>
    simp only [Parser.step, hstack, Option.some.injEq] at hnext
    subst hnext
    rw [if_pos (by simp [isStopped, Parser.goto, hstop.1])]
    exact ⟨hledger.goto [], .stopped hstop⟩

/-! ## The events, the tokenizer and the scripts -/

theorem Located.nil (h : Located p []) :
    (Open p ∧ p.scriptToProcess = none ∧
      (p.isPaused = false → Quiet p ∧ .endOfFile ∉ p.log)) ∨ Stopped p := by
  cases h with
  | idle hopen hprocess hquiet => exact .inl ⟨hopen, hprocess, hquiet⟩
  | running _ _ h => cases h
  | endIfDelayed _ _ h => cases h
  | stopped h => exact .inr h

theorem Located.nextToken_cons {stack : List Frame} (h : Located p (.nextToken :: stack)) :
    (Open p ∧ p.isPaused = false ∧ Base stack) ∨
      (Final p ∧ stack = [.prepareToStopParsing]) := by
  cases h with
  | running _ _ h => cases h
  | endIfDelayed _ _ h => cases h
  | nextToken hopen hpaused h => exact .inl ⟨hopen, hpaused, h⟩
  | lastNextToken h => exact .inr ⟨h, rfl⟩

theorem Located.script_cons {s : Nat} {stack : List Frame} (h : Located p (.script s :: stack)) :
    Open p ∧ p.scriptToProcess = none ∧ Running (.script s :: stack) := by
  cases h with
  | running hopen hprocess h => exact ⟨hopen, hprocess, h⟩
  | endIfDelayed _ _ h => cases h

theorem Located.stopped_of (h : Located p p.stack) (hstate : p.state = .kStoppedState) :
    Stopped p := by
  have hopen : ¬ Open p := by
    intro hopen
    rw [hopen.1] at hstate
    cases hstate
  have hfinal : ¬ Final p := by
    intro hfinal
    rw [hfinal.1] at hstate
    cases hstate
  generalize p.stack = stack at h
  cases h <;> first | contradiction | assumption

theorem Quiet.consume (h : Quiet p) (n : Nat) :
    p.lastConsumedWith n ≠ some '>' ∧
      '>' ∉ (p.input.current.chars.drop n).drop (p.undecided - n) := by
  refine ⟨?_, ?_⟩
  · intro hlast
    rcases Option.or_eq_some_iff.mp hlast with hlast | ⟨-, hlast⟩
    · rw [List.drop_take] at hlast
      exact h.2 (List.mem_of_mem_take (List.mem_of_getLast? hlast))
    · exact h.1 hlast
  · rw [List.drop_drop]
    intro hmem
    have hsplit : n + (p.undecided - n) = p.undecided + (n - p.undecided) := by omega
    rw [hsplit, ← List.drop_drop] at hmem
    exact h.2 (List.mem_of_mem_drop hmem)

/-- `Append`. -/
theorem Inv.append (h : Inv p) {text : List Char} (hnext : p.next (.append text) = some p') :
    Inv p' := by
  obtain ⟨hledger, hlocated⟩ := h
  simp only [Parser.next, Option.ite_none_left_eq_some, not_or, Decidable.not_not,
    Bool.not_eq_true] at hnext
  obtain ⟨⟨hstack, hseen⟩, hnext⟩ := hnext
  rw [hstack] at hledger hlocated
  have heof : .endOfFile ∉ p.log := by
    simpa [hledger.haveSeenEndOfFile] using hseen
  rcases hlocated.nil with ⟨hopen, hprocess, -⟩ | hstopped
  · have hnotStopped : p.isStopped = false := by simp [isStopped, hopen.1]
    have hreceive := hledger.receive heof text
    have hsession : ({ p with input := p.input.appendToEnd text }.record
        (.received text)).inPumpSession = false := by
      simp [inPumpSession, hreceive.session, pumpFrames]
    simp only [hnotStopped, hsession, Bool.false_eq_true, if_false, Option.some.injEq] at hnext
    subst hnext
    refine inv_pump ?_ hopen.1 ?_ ?_
    · simp only [Parser.call, record, hstack]
      exact hreceive.congr rfl rfl rfl rfl rfl rfl rfl rfl
    · intro hpaused
      simp only [Parser.call, record, hstack]
      refine .endIfDelayed ⟨hopen.1, hopen.mem_cons (by simp)⟩ hprocess .top ?_
      intro _ hunpaused
      exact not_paused_and_unpaused (p := p) hpaused hunpaused
    · intro hpaused
      simp only [Parser.call, record, hstack]
      exact .canTakeNextToken ⟨hopen.1, hopen.mem_cons (by simp)⟩ (isPaused_eq_false.mp hpaused).2
        .top
  · exact absurd hstopped.2.1 heof

/-- `Finish`. -/
theorem Inv.finish (h : Inv p) (hnext : p.next .finish = some p') : Inv p' := by
  obtain ⟨hledger, hlocated⟩ := h
  simp only [Parser.next, Option.ite_none_left_eq_some, Decidable.not_not, Option.some.injEq]
    at hnext
  obtain ⟨hstack, rfl⟩ := hnext
  rw [hstack] at hledger hlocated
  rw [hledger.haveSeenEndOfFile]
  rcases hlocated.nil with ⟨hopen, hprocess, hquiet⟩ | hstopped
  · split
    · -- `Finish` has come before: the parser is paused and goes on waiting.
      rename_i heof
      have heof : .endOfFile ∈ p.log := by simpa using heof
      have hpaused : p.isPaused = true := by
        by_contra hunpaused
        exact (hquiet (by simpa using hunpaused)).2 heof
      rw [attemptToEnd, hledger.shouldDelayEnd_top, if_pos hpaused]
      refine ⟨?_, ?_⟩
      · show Ledger _ (scriptFrames p.stack) (pumpFrames p.stack)
        rw [hstack]
        exact hledger.congr rfl rfl rfl rfl rfl rfl rfl rfl
      · show Located _ p.stack
        rw [hstack]
        refine .idle ⟨hopen.1, iff_of_true rfl heof⟩ hprocess ?_
        intro hunpaused
        exact not_paused_and_unpaused (p := p) hpaused hunpaused
    · rename_i heof
      have heof : .endOfFile ∉ p.log := by simpa using heof
      have hmark := hledger.markEndOfFile heof
      rw [attemptToEnd, Ledger.shouldDelayEnd_top hmark]
      split
      · rename_i hpaused
        refine ⟨?_, ?_⟩
        · show Ledger _ (scriptFrames p.stack) (pumpFrames p.stack)
          rw [hstack]
          exact hmark.congr rfl rfl rfl rfl rfl rfl rfl rfl
        · show Located _ p.stack
          rw [hstack]
          refine .idle ⟨hopen.1, iff_of_true rfl List.mem_cons_self⟩ hprocess ?_
          intro hunpaused
          exact not_paused_and_unpaused (p := p) hpaused hunpaused
      · rename_i hunpaused
        have hunpaused : p.isPaused = false := Bool.eq_false_iff.mpr hunpaused
        obtain ⟨⟨hlast, hchars⟩, -⟩ := hquiet hunpaused
        refine inv_prepareToStopParsing hmark hstack
          ⟨hopen.1, List.mem_cons_self, hunpaused, hlast, ?_⟩
        simp only [record, HTMLInputStream.markEndOfFile, HTMLInputStream.modifyLast,
          hledger.nexts_eq_nil, SegmentedString.append, List.drop_append, List.mem_append, not_or]
        refine ⟨hchars, fun hmem => ?_⟩
        have := List.mem_singleton.mp (List.mem_of_mem_drop hmem)
        cases this
  · have heof : decide (.endOfFile ∈ p.log) = true := by simpa using hstopped.2.1
    rw [heof, if_pos rfl, attemptToEnd, hledger.shouldDelayEnd_top, hstopped.2.2]
    have hskip : p.prepareToStopParsing = p.call .prepareToStopParsing := by
      simp [Parser.prepareToStopParsing, pumpTokenizerIfPossible, isStopped, Parser.call,
        hstopped.1]
    rw [if_neg (by decide), hskip]
    refine ⟨?_, ?_⟩
    · show Ledger _ (scriptFrames (.prepareToStopParsing :: p.stack))
        (pumpFrames (.prepareToStopParsing :: p.stack))
      rw [hstack]
      exact hledger.call _
    · show Located _ (.prepareToStopParsing :: p.stack)
      rw [hstack]
      exact .finishAgain hstopped

/-- The parser-blocking script is loaded. -/
theorem Inv.loaded (h : Inv p) {ok : Bool} (hnext : p.next (.loaded ok) = some p') : Inv p' := by
  obtain ⟨hledger, hlocated⟩ := h
  simp only [Parser.next] at hnext
  split at hnext
  · rename_i s hstack hblocking
    rw [hstack] at hledger hlocated
    rcases hlocated.nil with ⟨hopen, hprocess, -⟩ | hstopped
    · have hstate : p.state = .kParsingState := hopen.1
      simp only [record, hstate, Option.some.injEq] at hnext
      subst hnext
      exact ⟨(hledger.loaded hblocking ok).congr rfl rfl rfl rfl rfl rfl rfl hstate.symm,
        .executeLoaded ⟨rfl, hopen.mem_cons (by simp)⟩ hprocess⟩
    · rw [(isPaused_eq_false.mp hstopped.2.2).2] at hblocking
      cases hblocking
  · cases hnext

/-- `NextToken` returns true. -/
theorem Inv.token (h : Inv p) {n : Nat} {script : Option ScriptKind}
    (hnext : p.next (.token n script) = some p') : Inv p' := by
  obtain ⟨hledger, hlocated⟩ := h
  simp only [Parser.next] at hnext
  split at hnext
  · rename_i stack hstack
    rw [Option.ite_none_right_eq_some, Option.some.injEq] at hnext
    obtain ⟨⟨hn, hscript⟩, rfl⟩ := hnext
    rw [hstack, pumpFrames_nextToken] at hledger
    rw [hstack] at hlocated
    rcases hlocated.nextToken_cons with ⟨hopen, hpaused, hbase⟩ | ⟨hfinal, rfl⟩
    · have hblocking := (isPaused_eq_false.mp hpaused).2
      have hconsume := hledger.consume hpaused hn
      have hopen' : Open (p.consume n) := ⟨hopen.1, hopen.mem_cons (by simp)⟩
      cases script with
      | none =>
        refine ⟨?_, .canTakeNextToken hopen' hblocking hbase⟩
        show Ledger _ _ (pumpFrames (.canTakeNextToken :: stack))
        rw [pumpFrames_canTakeNextToken]
        exact hconsume.goto _
      | some kind =>
        have hconstruct := (hconsume.goto (.canTakeNextToken :: stack)).constructScript hpaused kind
        have heq : p.completeToken n (some kind) stack =
            ((p.consume n).goto (.canTakeNextToken :: stack)).constructScript kind := rfl
        have hstack' : (((p.consume n).goto (.canTakeNextToken :: stack)).constructScript
            kind).stack = .canTakeNextToken :: stack := by
          unfold Parser.constructScript
          split <;> rfl
        rw [heq]
        refine ⟨?_, ?_⟩
        · rw [hstack', pumpFrames_canTakeNextToken]
          exact hconstruct
        · rw [hstack']
          unfold Parser.constructScript
          split
          · exact .canTakeNextToken ⟨hopen.1, hopen'.mem_cons (by simp)⟩ hblocking hbase
          · exact .canTakeNextToken hopen' hblocking hbase
    · obtain ⟨hstate, heof, hpaused, hquiet⟩ := hfinal
      obtain ⟨hlast, hchars⟩ := hquiet.consume n
      cases script with
      | none =>
        refine ⟨?_, .lastCanTakeNextToken ⟨hstate, List.mem_cons_of_mem _ heof, hpaused, hlast,
          hchars⟩⟩
        exact (hledger.consume hpaused hn).goto _
      | some kind => exact absurd (hscript rfl) hlast
  · cases hnext

/-- The tokenizer does not wait for more characters of a closed string. -/
def Decides (p : Parser) : Label → Prop
  | .more _ (.lookAhead _) => p.input.current.closed = false
  | _ => True

/-- `NextToken` returns false. -/
theorem Inv.more (h : Inv p) {n : Nat} {reason : Reason} (hdecides : Decides p (.more n reason))
    (hnext : p.next (.more n reason) = some p') : Inv p' := by
  obtain ⟨hledger, hlocated⟩ := h
  simp only [Parser.next] at hnext
  split at hnext
  · rename_i stack hstack
    rw [Option.ite_none_right_eq_some, Option.some.injEq] at hnext
    obtain ⟨⟨hn, hreason⟩, rfl⟩ := hnext
    rw [hstack, pumpFrames_nextToken] at hledger
    rw [hstack] at hlocated
    have hleave : ∀ hpaused : p.isPaused = false,
        Ledger (p.needMoreInput n stack) (scriptFrames stack) (pumpFrames stack) := by
      intro hpaused
      have hconsume := hledger.consume hpaused hn
      exact (hconsume.leavePump stack).congr rfl rfl rfl rfl rfl rfl rfl rfl
    have hquiet : Quiet (p.needMoreInput n stack) := by
      refine ⟨by simp [Parser.needMoreInput, Parser.leavePump, Parser.goto], ?_⟩
      simp [Parser.needMoreInput, Parser.leavePump, Parser.goto]
    rcases hlocated.nextToken_cons with ⟨hopen, hpaused, hbase⟩ | ⟨hfinal, rfl⟩
    · exact ⟨hleave hpaused, .endIfDelayed ⟨hopen.1, hopen.mem_cons (by simp)⟩
        (isPaused_eq_false.mp hpaused).1 hbase fun _ _ => hquiet⟩
    · obtain ⟨hstate, heof, hpaused, -⟩ := hfinal
      have hledger' : Ledger p [] 1 := hledger
      have hclosed : p.input.current.closed = true := by
        have hclosings := hledger.closings
        simpa [HTMLInputStream.closings, hledger'.nexts_eq_nil, heof] using hclosings
      -- A closed string is read to its end.
      have hinput : p.input.current.chars.drop n = [] := by
        cases reason with
        | exhausted => exact hreason
        | characterReference =>
          rw [show p.input.current.closed = false from hreason] at hclosed
          cases hclosed
        | lookAhead k =>
          rw [show p.input.current.closed = false from hdecides] at hclosed
          cases hclosed
      exact ⟨hleave hpaused, .prepareToStopParsing
        ⟨hstate, List.mem_cons_of_mem _ heof, hpaused, hquiet⟩ hinput⟩
  · cases hnext

/-- `document.write`. -/
theorem Inv.write (h : Inv p) {text : List Char} (hnext : p.next (.write text) = some p') :
    Inv p' := by
  obtain ⟨hledger, hlocated⟩ := h
  simp only [Parser.next] at hnext
  split at hnext
  · rename_i s stack hstack
    rw [Option.ite_none_right_eq_some, Option.some.injEq] at hnext
    obtain ⟨-, rfl⟩ := hnext
    rw [hstack] at hledger hlocated
    obtain ⟨hopen, hprocess, hrunning⟩ := hlocated.script_cons
    unfold Parser.write
    dsimp only
    split
    · refine ⟨?_, ?_⟩
      · show Ledger _ (scriptFrames p.stack) (pumpFrames p.stack)
        rw [hstack]
        exact hledger.congr rfl rfl rfl rfl rfl rfl rfl rfl
      · show Located _ p.stack
        rw [hstack]
        exact .running hopen hprocess hrunning
    · have hstopped : p.isStopped = false := by simp [isStopped, hopen.1]
      unfold Parser.insert
      rw [if_neg (by simpa [isStopped, Parser.call] using hstopped)]
      refine inv_pump ?_ hopen.1 ?_ ?_
      · show Ledger _ (scriptFrames p.stack) (pumpFrames p.stack)
        rw [hstack]
        exact (hledger.insert hrunning.ne_nil text).congr rfl rfl rfl rfl rfl rfl rfl rfl
      · intro _
        show Located _ (.endIfDelayed :: .write :: p.stack)
        rw [hstack]
        refine .endIfDelayed ⟨hopen.1, hopen.mem_cons (by simp)⟩ hprocess (.write hrunning) ?_
        intro heq
        cases heq
      · intro hpaused
        show Located _ (.canTakeNextToken :: .endIfDelayed :: .write :: p.stack)
        rw [hstack]
        exact .canTakeNextToken ⟨hopen.1, hopen.mem_cons (by simp)⟩ (isPaused_eq_false.mp hpaused).2
          (.write hrunning)
  · cases hnext

/-- The script that runs returns. -/
theorem Inv.return (h : Inv p) (hnext : p.next .return = some p') : Inv p' := by
  obtain ⟨hledger, hlocated⟩ := h
  simp only [Parser.next] at hnext
  split at hnext
  · rename_i s stack hstack
    cases hnext
    rw [hstack] at hledger hlocated
    obtain ⟨hopen, hprocess, hrunning⟩ := hlocated.script_cons
    have hreturn : Ledger ((p.leaveScript.record (.returned s)).goto stack) (scriptFrames stack)
        (pumpFrames stack) := (Ledger.return hledger).goto stack
    have hopen' : Open ((p.leaveScript.record (.returned s)).goto stack) :=
      ⟨hopen.1, hopen.mem_cons (by simp)⟩
    refine ⟨hreturn, ?_⟩
    cases hrunning with
    | inline => exact .processScriptElement hopen' hprocess .top
    | nested _ h => exact .processScriptElement hopen' hprocess (.write h)
    | blocking => exact .execute hopen' hprocess
    | loaded => exact .executeLoaded hopen' hprocess
  · cases hnext

theorem Inv.next (h : Inv p) {label : Label} (hdecides : Decides p label)
    (hnext : p.next label = some p') : Inv p' := by
  cases label with
  | append text => exact h.append hnext
  | finish => exact h.finish hnext
  | loaded ok => exact h.loaded hnext
  | token n script => exact h.token hnext
  | more n reason => exact h.more hdecides hnext
  | write text => exact h.write hnext
  | «return» => exact h.return hnext
  | step => exact h.step hnext

theorem inv_start : Inv start := by
  refine ⟨⟨trivial, rfl, rfl, rfl, rfl, rfl, rfl, rfl, ?_, ?_, ?_⟩, .idle ⟨rfl, by decide⟩ rfl ?_⟩
  · intro s loaded hs
    cases hs
  · intro s kind hs
    cases hs
  · decide
  · intro _
    exact ⟨⟨by decide, by decide⟩, by decide⟩

/-! ## The protocol -/

/-- What the parser promises about the scripts that block it. -/
structure Protocol (p : Parser) : Prop where
  /-- Every script is run at its turn, nothing is consumed while one waits, and what a script
  consumes it has inserted; the end comes once, with everything consumed and run. -/
  justified : Justified p.log
  /-- A script has changed the document by what it has inserted, and no more than this has been
  consumed when it returns. -/
  inserted : ∀ s log, .returned s :: log <:+ p.log → ∃ before ok inserted,
    .run s ok :: before <:+ log ∧
    (replay log).text = (replay before).text.take (replay before).cursor ++ inserted ++
      (replay before).text.drop (replay before).cursor ∧
    (replay log).cursor ≤ (replay before).cursor + inserted.length
  consumed : consumedText p.log = (replay p.log).text.take (replay p.log).cursor
  numbered : endTags p.log = (List.range p.scripts).reverse
  /-- The scripts have been run in the order of their end tags, all but the last that wait. -/
  inOrder : runs p.log <:+ endTags p.log
  ended : .ended ∈ p.log → runs p.log = endTags p.log
  /-- With the end of input marked and every script run, parsing has ended. -/
  finishes : p.stack = [] → .endOfFile ∈ p.log → runs p.log = endTags p.log → .ended ∈ p.log
  /-- A script that runs can write. -/
  insertionPoint : ∀ s stack, p.stack = .script s :: stack → p.input.hasInsertionPoint = true

theorem Ledger.pendingScripts_eq_nil (h : Ledger p scripts pumps)
    (hruns : runs p.log = endTags p.log) : p.pendingScripts = [] := by
  have hlength := congrArg List.length h.pending
  rw [← hruns, List.length_append] at hlength
  exact List.eq_nil_of_length_eq_zero (by omega)

theorem Inv.protocol (h : Inv p) : Protocol p where
  justified := h.ledger.justified
  inserted := fun _ _ hsuffix => (h.ledger.justified.suffix hsuffix).returned
  consumed := by
    rw [h.ledger.tape]
    simp [Tape.ofSegments]
  numbered := h.ledger.numbered
  inOrder := ⟨p.pendingScripts, h.ledger.pending.symm⟩
  ended := fun hended =>
    h.ledger.runs_eq (h.located.stopped_of (h.ledger.ended.mp hended)).2.2
  finishes := by
    intro hstack heof hruns
    have hlocated := h.located
    rw [hstack] at hlocated
    rcases hlocated.nil with ⟨-, hprocess, hquiet⟩ | hstopped
    · have hblocking : p.parserBlockingScript = none := by
        have hpending := h.ledger.pendingScripts_eq_nil hruns
        simpa [pendingScripts, hprocess, Option.toList_eq_nil_iff] using hpending
      exact absurd heof (hquiet (isPaused_eq_false.mpr ⟨hprocess, hblocking⟩)).2
    · exact h.ledger.ended.mpr hstopped.1
  insertionPoint := by
    intro s stack hstack
    have hlength := h.ledger.length_nexts
    rw [hstack] at hlength
    cases hnexts : p.input.nexts with
    | nil =>
      rw [hnexts] at hlength
      cases hlength
    | cons next nexts => simp [HTMLInputStream.hasInsertionPoint, hnexts]

/-- **The protocol of parser-blocking scripts.** However the input is cut, whatever scripts write
and whenever loads end: in a run in which the tokenizer never waits for more characters of a closed
string, the parser keeps the protocol in every state. -/
theorem parser_protocol (labels : List Label)
    (hdecides : Allowed (machine next) Decides start labels) :
    Always (machine next) Protocol True start labels :=
  always_machine (I := Inv) (fun _ h => h.protocol) (fun _ _ _ h hd hnext => h.next hd hnext)
    inv_start hdecides

/-- The end of input comes while the parser waits for a script, which writes when it is loaded. -/
theorem parser_protocol_loaded : Always (machine next) Protocol True start
    [.append "<script src=a></script>".toList, .step, .step, .token 14 none, .step, .step,
      .token 9 (some (.external none)), .step, .step, .step, .step, .step, .finish, .loaded true,
      .step, .write "b".toList, .step, .step, .token 1 none, .step, .step, .more 0 .exhausted,
      .step, .step, .return, .step, .step, .step, .step, .token 1 none, .step, .step,
      .more 0 .exhausted, .step, .step, .step, .more 0 .exhausted, .step] :=
  parser_protocol _ ⟨trivial, trivial, trivial, trivial, trivial, trivial, trivial, trivial,
    trivial, trivial, trivial, trivial, trivial, trivial, trivial, trivial, trivial, trivial,
    trivial, trivial, trivial, trivial, trivial, trivial, trivial, trivial, trivial, trivial,
    trivial, trivial, trivial, trivial, trivial, trivial, trivial, trivial, trivial, trivial,
    trivial⟩

/-- The input ends in what could be a document type: the parser ends with characters unread. -/
theorem parser_leaves_input : ¬ Always (machine next) Protocol True start
    [.append "<!D".toList, .step, .step, .more 2 (.lookAhead .kDoctype), .step, .finish, .step,
      .step, .more 0 (.lookAhead .kDoctype), .step] := by
  intro h
  obtain ⟨p, hrun, hunread⟩ : ∃ p, run (machine next) start
      [.append "<!D".toList, .step, .step, .more 2 (.lookAhead .kDoctype), .step, .finish, .step,
        .step, .more 0 (.lookAhead .kDoctype), .step] = .ok (p, List.replicate 10 ()) ∧
      p.log.head? = some .ended ∧ (replay p.log).cursor ≠ (replay p.log).text.length :=
    ⟨_, rfl, by decide, by decide⟩
  have hjustified := (h.last hrun).justified
  cases hlog : p.log with
  | nil => simp [hlog] at hunread
  | cons e log =>
    rw [hlog] at hjustified hunread
    cases hunread.1
    exact hunread.2 hjustified.1.2.2.1

end Parser

end Blinkit.Html
