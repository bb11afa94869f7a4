import Mathlib.Data.List.Basic
import Mathlib.Logic.Function.Basic

/-!
# Child lists: what the mutators are for

The abstract document: every node has a list of children. The mutators of the DOM are operations
on these lists.

* `splice cs ref ns` — the list `cs` with `ns` in front of `ref`, or at its end.
* `successor cs c` — what follows `c` in `cs`.
* `detach f c` — `c` leaves the list it is in.
* `specAppend`, `specInsertBefore`, `specReplace`, `specRemove`, `specRemoveChildren` — the DOM
  methods: the nodes to be inserted leave their old lists and are spliced into the new one.
-/

set_option autoImplicit false

namespace ChildLists

open Function

variable {ι : Type*} [DecidableEq ι]

/-- The list `cs` with `ns` in front of `ref`, or behind the last child. -/
def splice (cs : List ι) (ref : Option ι) (ns : List ι) : List ι :=
  match ref with
  | none => cs ++ ns
  | some r => cs.takeWhile (· ≠ r) ++ ns ++ cs.dropWhile (· ≠ r)

/-- What follows `c` in the list. -/
def successor (cs : List ι) (c : ι) : Option ι := (cs.dropWhile (· ≠ c)).tail.head?

/-- `c` leaves the list it is in. -/
def detach (f : ι → List ι) (c : ι) : ι → List ι := fun p => (f p).erase c

/-- The nodes that an insertion of `n` moves: `n` itself, or the children of a fragment. -/
def targets (isFragment : ι → Bool) (f : ι → List ι) (n : ι) : List ι :=
  if isFragment n then f n else [n]

/-- The nodes `ns` leave their lists and are spliced into the list of `p`. -/
def move (f : ι → List ι) (p : ι) (ref : Option ι) (ns : List ι) : ι → List ι :=
  let f := ns.foldl detach f
  update f p (splice (f p) ref ns)

variable (isFragment : ι → Bool) (f : ι → List ι) (p n : ι)

def specAppend : ι → List ι := move f p none (targets isFragment f n)

def specInsertBefore (ref : ι) : ι → List ι :=
  move f p (if ref = n then successor (f p) n else some ref) (targets isFragment f n)

def specRemove (c : ι) : ι → List ι := detach f c

def specRemoveChildren : ι → List ι := update f p []

/-- The reference of a replacement: the node behind `old`, or behind `n` when that is `n`. -/
def replaceReference (old : ι) : Option ι :=
  if successor (f p) old = some n then successor (f p) n else successor (f p) old

def specReplace (old : ι) : ι → List ι :=
  let g := detach (detach f n) old
  move g p (replaceReference f p n old) (targets isFragment g n)

/-! ## Lists without repetition -/

theorem takeWhile_ne_append {l₁ l₂ : List ι} {c : ι} (h : c ∉ l₁) :
    (l₁ ++ c :: l₂).takeWhile (· ≠ c) = l₁ := by
  rw [List.takeWhile_append_of_pos fun a ha => by simpa using ne_of_mem_of_not_mem ha h]
  simp

theorem dropWhile_ne_append {l₁ l₂ : List ι} {c : ι} (h : c ∉ l₁) :
    (l₁ ++ c :: l₂).dropWhile (· ≠ c) = c :: l₂ := by
  rw [List.dropWhile_append_of_pos fun a ha => by simpa using ne_of_mem_of_not_mem ha h]
  simp

theorem splice_nil (cs : List ι) (ref : Option ι) : splice cs ref [] = cs := by
  cases ref with
  | none => exact List.append_nil cs
  | some r => simp [splice, List.takeWhile_append_dropWhile]

theorem splice_length (cs : List ι) (ref : Option ι) (ns : List ι) :
    (splice cs ref ns).length = cs.length + ns.length := by
  cases ref with
  | none => exact List.length_append
  | some r =>
    have hcs := congrArg List.length (List.takeWhile_append_dropWhile (p := (· ≠ r)) (l := cs))
    simp only [splice, List.length_append] at hcs ⊢
    omega

/-- What is in the list stays in it. -/
theorem mem_splice_of_mem {cs ns : List ι} {ref : Option ι} {x : ι} (hx : x ∈ cs) :
    x ∈ splice cs ref ns := by
  cases ref with
  | none => exact List.mem_append_left ns hx
  | some r =>
    rw [← List.takeWhile_append_dropWhile (p := (· ≠ r)) (l := cs)] at hx
    simp only [splice, List.mem_append] at hx ⊢
    rcases hx with hx | hx
    · exact .inl (.inl hx)
    · exact .inr hx

/-- The list stays, in its order. -/
theorem splice_sublist (cs : List ι) (ref : Option ι) (ns : List ι) :
    cs.Sublist (splice cs ref ns) := by
  cases ref with
  | none => exact List.sublist_append_left cs ns
  | some r =>
    have hfront := List.sublist_append_left (cs.takeWhile (· ≠ r)) ns
    have hboth := hfront.append (List.Sublist.refl (cs.dropWhile (· ≠ r)))
    rwa [List.takeWhile_append_dropWhile] at hboth

theorem splice_some {l₁ l₂ ns : List ι} {r : ι} (h : r ∉ l₁) :
    splice (l₁ ++ r :: l₂) (some r) ns = l₁ ++ ns ++ r :: l₂ := by
  simp only [splice, takeWhile_ne_append h, dropWhile_ne_append h]

theorem successor_append {l₁ l₂ : List ι} {c : ι} (h : c ∉ l₁) :
    successor (l₁ ++ c :: l₂) c = l₂.head? := by
  simp only [successor, dropWhile_ne_append h, List.tail_cons]

theorem erase_middle {l₁ l₂ : List ι} {c : ι} (h : c ∉ l₁) :
    (l₁ ++ c :: l₂).erase c = l₁ ++ l₂ := by
  rw [List.erase_append_right _ h, List.erase_cons_head]

/-- In a forest only the list of the parent changes. -/
theorem detach_eq_update {l₁ l₂ : List ι} {c : ι} (hs : f p = l₁ ++ c :: l₂) (hc : c ∉ l₁)
    (hother : ∀ q, q ≠ p → c ∉ f q) : detach f c = update f p (l₁ ++ l₂) := by
  funext q
  by_cases hq : q = p
  · subst hq; simp [detach, hs, erase_middle hc]
  · simp [detach, hq, List.erase_of_not_mem (hother q hq)]

theorem detach_of_not_mem {c : ι} (h : ∀ q, c ∉ f q) : detach f c = f := by
  funext q
  simp [detach, List.erase_of_not_mem (h q)]

end ChildLists
