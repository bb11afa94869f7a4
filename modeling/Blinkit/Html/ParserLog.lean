import Blinkit.Html.HTMLDocumentParser
import Blinkit.Lib.Tape
import Mathlib.Data.List.Infix

/-!
# What the log of a parser promises

The log is read without the parser: the text of the document as scripts write to it is a tape, and
every entry is justified by the entries before it.

* `replay` : the document with the insertion points of the scripts that run
* `running` : the scripts that run, the innermost first, with what was in the log before each
* `Entry.Justified` : a script is run at its turn, and nothing is consumed while it waits; the
  parser ends with everything consumed and every script run
* `Justified.within` : a script that runs changes the document by what it inserts behind what was
  consumed before it

Principal results: `Justified.within`, `Justified.returned`.
-/

set_option autoImplicit false

namespace Blinkit.Html

open Lib

/-- The characters consumed so far. -/
def consumedText : List Entry → List Char
  | [] => []
  | .consumed text :: log => consumedText log ++ text
  | _ :: log => consumedText log

/-- The scripts whose end tags have been read, the newest first. -/
def endTags (log : List Entry) : List Nat :=
  log.filterMap fun | .scriptEndTag s _ => some s | _ => none

/-- The scripts that have been run or skipped, the newest first. -/
def runs (log : List Entry) : List Nat :=
  log.filterMap fun | .run s _ => some s | _ => none

/-- The document as it has been received and written to. -/
def replay : List Entry → Tape Char
  | [] => ⟨[], 0, []⟩
  | .received text :: log => (replay log).receive text
  | .consumed text :: log => (replay log).consume text.length
  | .run _ _ :: log => (replay log).enter
  | .inserted text :: log => (replay log).insert text
  | .returned _ :: log => (replay log).leave
  | _ :: log => replay log

/-- The scripts that run, each with the log before its run. -/
def running : List Entry → List (Nat × List Entry)
  | [] => []
  | .run s _ :: log => (s, log) :: running log
  | .returned _ :: log => (running log).tail
  | _ :: log => running log

/-- What the log says before an entry. -/
def Entry.Justified (log : List Entry) : Entry → Prop
  | .received _ => .endOfFile ∉ log ∧ running log = []
  | .endOfFile => .endOfFile ∉ log
  | .consumed text =>
    runs log = endTags log ∧ text <+: (replay log).text.drop (replay log).cursor ∧
      ∀ point ∈ (replay log).points, (replay log).cursor + text.length ≤ point
  | .scriptEndTag s _ => s = (endTags log).length ∧ runs log = endTags log
  | .loaded _ _ => True
  | .run s ok =>
    endTags log = s :: runs log ∧ ∃ external, .scriptEndTag s external ∈ log ∧
      if external then .loaded s ok ∈ log else ok = true
  | .inserted _ => running log ≠ []
  | .returned s => ∃ before, (running log).head? = some (s, before)
  | .ended =>
    .ended ∉ log ∧ .endOfFile ∈ log ∧ (replay log).cursor = (replay log).text.length ∧
      runs log = endTags log ∧ running log = []

def Justified : List Entry → Prop
  | [] => True
  | e :: log => e.Justified log ∧ Justified log

theorem Justified.suffix {log log' : List Entry} (h : Justified log) (hs : log' <:+ log) :
    Justified log' := by
  induction log with
  | nil =>
    rw [List.suffix_nil.mp hs]
    trivial
  | cons e log ih =>
    rcases List.suffix_cons_iff.mp hs with rfl | hs
    · exact h
    · exact ih h.2 hs

theorem length_running (log : List Entry) :
    (running log).length = (replay log).points.length := by
  induction log with
  | nil => rfl
  | cons e log ih =>
    cases e <;> simp only [running, replay, Tape.receive, Tape.consume, Tape.enter, Tape.leave,
      List.length_cons, List.length_tail, ih]
    unfold Tape.insert
    split <;> simp_all

theorem running_suffix {log : List Entry} {s : Nat} {before : List Entry}
    (hmem : (s, before) ∈ running log) : ∃ ok, .run s ok :: before <:+ log := by
  induction log with
  | nil => cases hmem
  | cons e log ih =>
    have hcons : (s, before) ∈ running log → ∃ ok, .run s ok :: before <:+ e :: log := by
      intro hmem
      obtain ⟨ok, hsuffix⟩ := ih hmem
      exact ⟨ok, hsuffix.trans (List.suffix_cons _ _)⟩
    cases e with
    | run s' ok =>
      rcases List.mem_cons.mp hmem with heq | hmem
      · cases heq
        exact ⟨ok, List.suffix_refl _⟩
      · exact hcons hmem
    | returned s' => exact hcons (List.mem_of_mem_tail hmem)
    | received text => exact hcons hmem
    | endOfFile => exact hcons hmem
    | consumed text => exact hcons hmem
    | scriptEndTag s' external => exact hcons hmem
    | loaded s' ok => exact hcons hmem
    | inserted text => exact hcons hmem
    | ended => exact hcons hmem

/-- Reading has not passed the end of the text or an insertion point. -/
theorem Justified.cursor_le {log : List Entry} (h : Justified log) :
    (replay log).cursor ≤ (replay log).text.length ∧
      ∀ point ∈ (replay log).points, (replay log).cursor ≤ point := by
  induction log with
  | nil => exact ⟨Nat.le_refl _, by intro point hp; cases hp⟩
  | cons e log ih =>
    obtain ⟨htext, hpoints⟩ := ih h.2
    cases e with
    | received text =>
      refine ⟨?_, hpoints⟩
      simp only [replay, Tape.receive, List.length_append]
      omega
    | consumed text =>
      obtain ⟨-, hprefix, hinner⟩ := h.1
      refine ⟨?_, hinner⟩
      have hlength := hprefix.length_le
      rw [List.length_drop] at hlength
      simp only [replay, Tape.consume]
      omega
    | run s ok =>
      refine ⟨htext, ?_⟩
      intro point hp
      rcases List.mem_cons.mp hp with rfl | hp
      · exact Nat.le_refl _
      · exact hpoints point hp
    | returned s => exact ⟨htext, fun point hp => hpoints point (List.mem_of_mem_tail hp)⟩
    | inserted text =>
      simp only [replay, Tape.insert]
      split
      · exact ⟨htext, hpoints⟩
      · rename_i point points hp
        rw [hp] at hpoints
        refine ⟨?_, ?_⟩
        · simp only [List.length_append, List.length_take, List.length_drop]
          omega
        · intro q hq
          rcases List.mem_cons.mp hq with rfl | hq
          · exact Nat.le_trans (hpoints point (by simp)) (Nat.le_add_right _ _)
          · obtain ⟨q, hmem, rfl⟩ := List.mem_map.mp hq
            exact Nat.le_trans (hpoints q (by simp [hmem])) (Nat.le_add_right _ _)
    | endOfFile => exact ⟨htext, hpoints⟩
    | scriptEndTag s external => exact ⟨htext, hpoints⟩
    | loaded s ok => exact ⟨htext, hpoints⟩
    | ended => exact ⟨htext, hpoints⟩

/-- **What a script inserts.** Since a script was started, the document has changed by a text that
stands where the reading was then; all that is consumed while it runs is of that text. -/
theorem Justified.within {log : List Entry} (h : Justified log) {i s : Nat} {before : List Entry}
    (hi : (running log)[i]? = some (s, before)) :
    ∃ inserted inner, (replay before).Within (replay log) inserted inner ∧ inner.length = i := by
  induction log generalizing i with
  | nil => cases hi
  | cons e log ih =>
    cases e with
    | received text =>
      have hempty : running log = [] := h.1.2
      have hi : (running log)[i]? = some (s, before) := hi
      rw [hempty] at hi
      cases hi
    | consumed text =>
      obtain ⟨inserted, inner, hwithin, hlength⟩ := ih h.2 hi
      exact ⟨inserted, inner, hwithin.consume h.1.2.2, hlength⟩
    | run s' ok =>
      cases i with
      | zero =>
        cases hi
        exact ⟨[], [], .start _, rfl⟩
      | succ i =>
        obtain ⟨inserted, inner, hwithin, hlength⟩ := ih h.2 hi
        exact ⟨inserted, _, hwithin.enter, by simp [hlength]⟩
    | returned s' =>
      rw [running, List.getElem?_tail] at hi
      obtain ⟨inserted, inner, hwithin, hlength⟩ := ih h.2 hi
      cases inner with
      | nil => cases hlength
      | cons point inner => exact ⟨inserted, inner, hwithin.leave, by simpa using hlength⟩
    | inserted text =>
      obtain ⟨inserted, inner, hwithin, hlength⟩ := ih h.2 hi
      obtain ⟨ok, hsuffix⟩ := running_suffix (List.mem_of_getElem? hi)
      have hbefore : Justified before := (h.suffix hsuffix).2
      obtain ⟨inserted', inner', hwithin', hlength'⟩ :=
        hwithin.insert hbefore.cursor_le.1 (fun point hp => h.2.cursor_le.2 point
          (List.mem_of_mem_head? hp)) text
      exact ⟨inserted', inner', hwithin', hlength'.trans hlength⟩
    | endOfFile => exact ih h.2 hi
    | scriptEndTag s' external => exact ih h.2 hi
    | loaded s' ok => exact ih h.2 hi
    | ended => exact ih h.2 hi

/-- **What a script has inserted.** When a script returns, the document is what had been consumed
before its run, then what the script inserted, then the rest as it was. -/
theorem Justified.returned {s : Nat} {log : List Entry} (h : Justified (.returned s :: log)) :
    ∃ before ok inserted, .run s ok :: before <:+ log ∧
      (replay log).text = (replay before).text.take (replay before).cursor ++ inserted ++
        (replay before).text.drop (replay before).cursor ∧
      (replay log).cursor ≤ (replay before).cursor + inserted.length := by
  obtain ⟨before, hhead⟩ := h.1
  rw [List.head?_eq_getElem?] at hhead
  obtain ⟨inserted, inner, hwithin, -⟩ := h.2.within hhead
  obtain ⟨ok, hsuffix⟩ := running_suffix (List.mem_of_getElem? hhead)
  exact ⟨before, ok, inserted, hsuffix, hwithin.text, hwithin.cursor.2⟩

end Blinkit.Html
