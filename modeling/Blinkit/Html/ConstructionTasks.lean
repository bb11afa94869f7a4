import Blinkit.Dom.Documents
import Blinkit.Html.HTMLConstructionSiteTask

/-!
# What the tasks of the construction site do to the tree

* `Consistent` : the task fits the tree it is executed on
* `Effect`, `TakesEffect` : the child is under its new parent, in its place, and nowhere else
* `Unblocked` : the task needs none of the mutators that are stubs

`ParserRemoveChild` and `ParserInsertBefore` have an empty body.  So a child that has a parent is
never detached, and the loops that wait for it go on forever; a child that belongs in front of
another one is not inserted.

Principal results: `never_ends`, `takes_effect_iff` (one task), `tasks_take_effect_iff` (a queue).
-/

set_option autoImplicit false

namespace Blinkit.Html

open Dom LinkedForest ChildLists Function Transition

/-! ## The place of a child -/

/-- Moving `c` in front of `r` changes nothing exactly when it stands there. -/
theorem move_eq_self_iff {l : Links NodeId} {ch : NodeId → List NodeId} {p c r : NodeId}
    (hrep : Represents l ch) (hr : l.parent r = some p) (hne : r ≠ c) :
    move ch p (some r) [c] = ch ↔ l.prev r = some c := by
  have hmem : r ∈ ch p := (hrep.mem_iff p r).mpr hr
  constructor
  · intro hmove
    have hlist := congrFun hmove p
    have hr' : r ∈ (ch p).erase c := (List.mem_erase_of_ne hne).mpr hmem
    obtain ⟨l₁, l₂, hs, hl₁⟩ := List.eq_append_cons_of_mem hr'
    simp only [move, List.foldl_cons, List.foldl_nil, detach, update_self, hs,
      splice_some hl₁] at hlist
    have hprev := hrep.prev_eq hlist.symm
    simpa using hprev
  · intro hprev
    obtain ⟨l₁, l₂, hs, hl₁⟩ := List.eq_append_cons_of_mem hmem
    rw [hrep.prev_eq hs] at hprev
    obtain ⟨l₀, rfl⟩ := List.getLast?_eq_some_iff.mp hprev
    have hnd := hrep.nodup p
    rw [hs] at hnd
    have hc : c ∉ l₀ := by
      intro hc
      simp only [List.append_assoc, List.singleton_append, List.nodup_append] at hnd
      exact hnd.2.2 c hc c (by simp) rfl
    have hr₀ : r ∉ l₀ := fun hr₀ => hl₁ (by simp [hr₀])
    have hparent : l.parent c = some p := (hrep.mem_iff p c).mp (by simp [hs])
    have hs' : ch p = l₀ ++ c :: (r :: l₂) := by simp [hs]
    have hother : ∀ q, q ≠ p → c ∉ ch q := by
      intro q hq hcq
      rw [(hrep.mem_iff q c).mp hcq] at hparent
      exact hq (Option.some.inj hparent)
    have hdetach : detach ch c = update ch p (l₀ ++ r :: l₂) :=
      detach_eq_update (f := ch) (p := p) hs' hc hother
    show update (detach ch c) p (splice (detach ch c p) (some r) [c]) = ch
    rw [hdetach, update_self, splice_some hr₀, update_idem, ← hs, update_eq_self]

namespace Nodes

variable {t t' : Nodes} {task : HTMLConstructionSiteTask} {fuel : Nat}

/-! ## What a task is for -/

/-- The task fits the tree: its nodes exist, the child is not above its new parent, and the next
sibling is a child of this parent.  Only insertions have a next sibling. -/
def Consistent (t : Nodes) (task : HTMLConstructionSiteTask) : Prop :=
  task.parent < t.heap.size ∧ t.heap.isContainerNode task.parent = true ∧
    task.child < t.heap.size ∧ ¬ Above t.heap.links.parent task.parent task.child ∧
    match task.operation with
    | .kTakeAllChildren => t.heap.isContainerNode task.child = true ∧ task.nextChild = none
    | .kReparent => t.heap.document task.child ≠ task.child ∧ task.nextChild = none
    | .kInsert | .kInsertText | .kInsertAlreadyParsedChild =>
      t.heap.document task.child ≠ task.child ∧
        (task.operation = .kInsertText → t.heap.isTextNode task.child = true) ∧
        ∀ next, task.nextChild = some next →
          t.heap.links.parent next = some task.parent ∧ next ≠ task.child

/-- The document's own check refuses the child. -/
def refuses (t : Nodes) (task : HTMLConstructionSiteTask) : Bool :=
  ContainerNode.checkParserAcceptChild t.heap (t.heap.size + 1) task.parent task.child ==
    some false

/-- The text of the task is merged into the text node in front of it. -/
def merges (t : Nodes) (task : HTMLConstructionSiteTask) : Bool :=
  task.operation == .kInsertText && (t.previousText task).isSome

/-- The child lists and the texts that a task leaves, when `ch` are the child lists before. -/
inductive Effect (t : Nodes) (ch : NodeId → List NodeId) (task : HTMLConstructionSiteTask) :
    (NodeId → List NodeId) → (NodeId → List UInt16) → Prop
  | merged {previous : NodeId} (hop : task.operation = .kInsertText)
    (hprevious : t.previousText task = some previous) :
    Effect t ch task ch (update t.data previous (t.data previous ++ t.data task.child))
  | refused (hop : task.operation ≠ .kTakeAllChildren) (hmerges : t.merges task = false)
    (hrefused : t.refuses task = true) : Effect t ch task ch t.data
  /-- The child leaves its old parent and stands where it belongs. -/
  | placed (hop : task.operation ≠ .kTakeAllChildren) (hmerges : t.merges task = false)
    (hrefused : t.refuses task = false) :
    Effect t ch task (move ch task.parent task.nextChild [task.child]) t.data
  /-- The children leave the old parent and stand, in order, behind those of the new one; a parent
  that is not a document refuses none. -/
  | taken {kept : List NodeId} {ch' : NodeId → List NodeId}
    (hop : task.operation = .kTakeAllChildren) (hkept : kept.Sublist (ch task.oldParent))
    (hall : t.heap.isDocumentNode task.parent = false → kept = ch task.oldParent)
    (hparent : ch' task.parent = ch task.parent ++ kept)
    (hold : ∀ c ∈ kept, c ∉ ch' task.oldParent)
    (hother : ∀ q, q ≠ task.parent → q ≠ task.oldParent → ch' q = ch q) :
    Effect t ch task ch' t.data

def TakesEffect (t : Nodes) (task : HTMLConstructionSiteTask) (t' : Nodes) : Prop :=
  ∃ ch ch', WellFormed t.heap ch ∧ WellFormed t'.heap ch' ∧ Effect t ch task ch' t'.data

/-- What the mutators of the parser can place: the document refuses it, or it stands in front of
the next sibling already, or it has no parent and comes last. -/
def Placeable (t : Nodes) (task : HTMLConstructionSiteTask) : Prop :=
  t.refuses task = true ∨
    match task.nextChild with
    | some next => t.heap.previousSibling next = some task.child
    | none => t.heap.parentNode task.child = none

/-- The task needs no mutator that is a stub. -/
def Unblocked (t : Nodes) (task : HTMLConstructionSiteTask) : Prop :=
  match task.operation with
  | .kTakeAllChildren => t.heap.links.first task.oldParent = none
  | .kInsertText => t.merges task = true ∨ t.Placeable task
  | .kInsert | .kInsertAlreadyParsedChild | .kReparent => t.Placeable task

/-! ## The mutators -/

section Mutators

variable {h : Heap} {ch : NodeId → List NodeId} {p c : NodeId}

/-- A child that has a parent and is not refused is waited for, forever. -/
theorem parserAppendChild_eq_none {q : NodeId} (hparent : h.links.parent c = some q)
    (haccepts : ContainerNode.checkParserAcceptChild h fuel p c ≠ some false) :
    ContainerNode.parserAppendChild h fuel p c = none := by
  unfold ContainerNode.parserAppendChild
  cases hcheck : ContainerNode.checkParserAcceptChild h fuel p c with
  | none => rfl
  | some accepts =>
    cases accepts with
    | false => exact absurd hcheck haccepts
    | true => simp [parserDetach_eq_none hparent]

theorem parserAppendChild_refused
    (hrefused : ContainerNode.checkParserAcceptChild h fuel p c = some false) :
    ContainerNode.parserAppendChild h fuel p c = some h := by
  simp [ContainerNode.parserAppendChild, hrefused]

/-- Children that are not detached stay the first child, and the loop that takes them goes on. -/
theorem parserTakeAllChildrenFrom_eq_none {old child : NodeId}
    (hfirst : h.links.first old = some child) (hparent : h.links.parent child = some old)
    (rounds : Nat) : ContainerNode.parserTakeAllChildrenFrom fuel p old rounds h = none := by
  induction rounds with
  | zero => simp [ContainerNode.parserTakeAllChildrenFrom, hfirst]
  | succ rounds ih =>
    rw [ContainerNode.parserTakeAllChildrenFrom.eq_def]
    simp only [hfirst, ContainerNode.parserRemoveChild]
    by_cases hrefused : ContainerNode.checkParserAcceptChild h fuel p child = some false
    · simpa [parserAppendChild_refused hrefused] using ih
    · simp [parserAppendChild_eq_none hparent hrefused]

theorem parserTakeAllChildrenFrom_nil {old : NodeId} (hfirst : h.links.first old = none)
    (rounds : Nat) : ContainerNode.parserTakeAllChildrenFrom fuel p old rounds h = some h := by
  cases rounds <;> simp [ContainerNode.parserTakeAllChildrenFrom, hfirst]

/-- The bound on the rounds of the check does not matter. -/
theorem checkParserAcceptChild_bound (w : WellFormed h ch) (hfuel : h.size < fuel) :
    ContainerNode.checkParserAcceptChild h fuel p c =
      ContainerNode.checkParserAcceptChild h (h.size + 1) p c := by
  unfold ContainerNode.checkParserAcceptChild ContainerNode.parserChildException
    Document.canAcceptChild
  rw [w.childNodes_eq hfuel, w.childNodes_eq (Nat.lt_succ_self _), w.childNodes_eq hfuel,
    w.childNodes_eq (Nat.lt_succ_self _)]

end Mutators

/-! ## One task -/

/-- A task of a kind that places its child. -/
theorem Consistent.notDocument (h : t.Consistent task) (hop : task.operation ≠ .kTakeAllChildren) :
    t.heap.document task.child ≠ task.child := by
  obtain ⟨-, -, -, -, hrest⟩ := h
  cases hoperation : task.operation <;> simp only [hoperation] at hrest hop
  · exact hrest.1
  · exact hrest.1
  · exact hrest.1
  · exact hrest.1
  · exact absurd rfl hop

theorem Consistent.next (h : t.Consistent task) {next : NodeId}
    (hnext : task.nextChild = some next) :
    t.heap.links.parent next = some task.parent ∧ next ≠ task.child := by
  obtain ⟨-, -, -, -, hrest⟩ := h
  cases hoperation : task.operation <;> simp only [hoperation, hnext] at hrest
  · exact hrest.2.2 next rfl
  · exact hrest.2.2 next rfl
  · exact hrest.2.2 next rfl
  · cases hrest.2
  · cases hrest.2

/-- The effect does not read the flags. -/
theorem TakesEffect.congr {t'' : Nodes} (h : t.TakesEffect task t') (hheap : t''.heap = t'.heap)
    (hdata : t''.data = t'.data) : t.TakesEffect task t'' := by
  unfold TakesEffect
  rw [hheap, hdata]
  exact h

theorem Effect.eq_move {ch ch' : NodeId → List NodeId} {data : NodeId → List UInt16}
    (h : Effect t ch task ch' data) (hop : task.operation ≠ .kTakeAllChildren)
    (hmerges : t.merges task = false) (hrefuses : t.refuses task = false) :
    ch' = move ch task.parent task.nextChild [task.child] := by
  cases h with
  | merged hinsert hprevious => simp [merges, hinsert, hprevious] at hmerges
  | refused _ _ hrefused => simp [hrefuses] at hrefused
  | placed => rfl
  | taken hop' => exact absurd hop' hop

/-- `ParserAppendChild`, of a task that gives no next sibling. -/
theorem append_spec (h : Tree t.heap) (hfuel : t.heap.size < fuel)
    (hconsistent : t.Consistent task) (hop : task.operation ≠ .kTakeAllChildren)
    (hmerges : t.merges task = false) (hnext : task.nextChild = none) :
    (t.Placeable task ∧
      ∃ heap, ContainerNode.parserAppendChild t.heap fuel task.parent task.child = some heap ∧
        t.TakesEffect task { t with heap := heap }) ∨
      (¬ t.Placeable task ∧
        ContainerNode.parserAppendChild t.heap fuel task.parent task.child = none) := by
  obtain ⟨⟨ch, w⟩, v⟩ := h
  have hdocument := hconsistent.notDocument hop
  obtain ⟨hparent, hcontainer, hchild, habove, -⟩ := hconsistent
  have hcheck := checkParserAcceptChild_bound w hfuel (p := task.parent) (c := task.child)
  obtain ⟨e, he⟩ := parserChildException_total w hfuel task.parent task.child
  have hdecided : ContainerNode.checkParserAcceptChild t.heap fuel task.parent task.child =
      some e.isNone := by
    simp [ContainerNode.checkParserAcceptChild, he]
  have hrefuses : t.refuses task = e.isSome := by
    rw [hcheck] at hdecided
    cases e <;> simp [refuses, hdecided]
  simp only [Placeable, hnext, hrefuses]
  cases e with
  | some e =>
    refine .inl ⟨.inl rfl, t.heap, parserAppendChild_refused hdecided, ch, ch, w, w, ?_⟩
    exact .refused hop hmerges hrefuses
  | none =>
    cases hroot : t.heap.links.parent task.child with
    | some q =>
      refine .inr ⟨by simp [Heap.parentNode, hroot], ?_⟩
      refine parserAppendChild_eq_none hroot ?_
      rw [hdecided]
      simp
    | none =>
      obtain ⟨heap, happend, hinserted⟩ := parserAppendChild_spec w v hfuel hparent hcontainer
        ⟨hchild, hroot, hdocument, habove⟩ hdecided
      refine .inl ⟨.inr hroot, heap, happend, ch, _, w, hinserted.wellFormed, ?_⟩
      have hmove : move ch task.parent task.nextChild [task.child] =
          update ch task.parent (ch task.parent ++ [task.child]) := by
        have hdetached : detach ch task.child = ch :=
          detach_of_not_mem ch fun q => w.represents.not_mem_of_detached hroot
        simp [move, hnext, hdetached, splice]
      rw [← hmove]
      exact .placed hop hmerges hrefuses

/-- The stub leaves the child where it stands. -/
theorem stay_takes_effect (h : Tree t.heap) (hconsistent : t.Consistent task)
    (hop : task.operation ≠ .kTakeAllChildren) (hmerges : t.merges task = false) {next : NodeId}
    (hnext : task.nextChild = some next) : t.TakesEffect task t ↔ t.Placeable task := by
  obtain ⟨hparent, hne⟩ := hconsistent.next hnext
  obtain ⟨⟨ch, w⟩, -⟩ := h
  have hmove := move_eq_self_iff w.represents hparent hne
  simp only [Placeable, hnext]
  constructor
  · rintro ⟨ch₁, ch₂, w₁, w₂, heffect⟩
    obtain rfl := w.represents.unique w₁.represents
    obtain rfl := w.represents.unique w₂.represents
    cases hrefuses : t.refuses task with
    | true => exact .inl rfl
    | false =>
      have hplaced := heffect.eq_move hop hmerges hrefuses
      rw [hnext] at hplaced
      exact .inr (hmove.mp hplaced.symm)
  · intro hplaceable
    refine ⟨ch, ch, w, w, ?_⟩
    cases hrefuses : t.refuses task with
    | true => exact .refused hop hmerges hrefuses
    | false =>
      have hplace := hplaceable.resolve_left (by simp [hrefuses])
      have heffect : Effect t ch task _ t.data := .placed hop hmerges hrefuses
      rwa [hnext, hmove.mpr hplace] at heffect

/-- What a task that may not end comes to: it has its effect exactly under the condition, and
otherwise it goes on forever unless it is one of `idle`. -/
def Decided (t : Nodes) (task : HTMLConstructionSiteTask) (condition idle : Prop)
    (result : Option Nodes) : Prop :=
  ((∃ t', result = some t' ∧ t.TakesEffect task t') ↔ condition) ∧
    (result = none ↔ ¬ condition ∧ ¬ idle)

/-- `Insert`. -/
theorem insert_decided (h : Tree t.heap) (hfuel : t.heap.size < fuel)
    (hconsistent : t.Consistent task) (hop : task.operation ≠ .kTakeAllChildren)
    (hmerges : t.merges task = false) :
    t.Decided task (t.Placeable task) (task.nextChild.isSome = true) (t.insert fuel task) := by
  unfold insert
  cases hnext : task.nextChild with
  | none =>
    rcases append_spec h hfuel hconsistent hop hmerges hnext with
      ⟨hplaceable, heap, happend, heffect⟩ | ⟨hplaceable, happend⟩
    · simp only [Decided, happend, Option.map_some]
      exact ⟨iff_of_true ⟨_, rfl, heffect⟩ hplaceable,
        iff_of_false (by simp) (fun hnot => hnot.1 hplaceable)⟩
    · simp only [Decided, happend, Option.map_none]
      exact ⟨iff_of_false (by simp) hplaceable, iff_of_true trivial ⟨hplaceable, by simp⟩⟩
  | some next =>
    refine ⟨?_, iff_of_false (by simp) (fun hnot => hnot.2 rfl)⟩
    rw [← stay_takes_effect h hconsistent hop hmerges hnext]
    simp only [Option.some.injEq, exists_eq_left', ContainerNode.parserInsertBefore]

/-- A change of flags changes neither the effect nor the end. -/
theorem Decided.map {condition idle : Prop} {result : Option Nodes} {f : Nodes → Nodes}
    (h : t.Decided task condition idle result) (hheap : ∀ u, (f u).heap = u.heap)
    (hdata : ∀ u, (f u).data = u.data) : t.Decided task condition idle (result.map f) := by
  obtain ⟨heffect, hends⟩ := h
  refine ⟨?_, by simpa using hends⟩
  rw [← heffect]
  constructor
  · rintro ⟨t', hmap, htakes⟩
    obtain ⟨u, hu, rfl⟩ := Option.map_eq_some_iff.mp hmap
    exact ⟨u, hu, htakes.congr (hheap u).symm (hdata u).symm⟩
  · rintro ⟨u, hu, htakes⟩
    exact ⟨f u, by rw [hu]; rfl, htakes.congr (hheap u) (hdata u)⟩

theorem Decided.congr_idle {condition idle idle' : Prop} {result : Option Nodes}
    (h : t.Decided task condition idle result) (hidle : idle ↔ idle') :
    t.Decided task condition idle' result := by
  rw [Decided, ← hidle]
  exact h

theorem parserAppendData_sameTree (n : NodeId) (text : List UInt16) :
    SameTree t.heap (t.parserAppendData n text).heap := by
  unfold parserAppendData
  dsimp only
  split <;> exact ⟨⟨rfl, rfl, rfl, rfl⟩, rfl, rfl⟩

/-- `ExecuteInsertTextTask`. -/
theorem insertText_decided (h : Tree t.heap) (hfuel : t.heap.size < fuel)
    (hconsistent : t.Consistent task) (hop : task.operation = .kInsertText) :
    t.Decided task (t.merges task = true ∨ t.Placeable task) (task.nextChild.isSome = true)
      (t.executeInsertTextTask fuel task) := by
  unfold executeInsertTextTask
  cases hprevious : t.previousText task with
  | none =>
    have hmerges : t.merges task = false := by simp [merges, hprevious]
    simpa [hmerges] using
      insert_decided h hfuel hconsistent (by simp [hop]) hmerges
  | some previous =>
    have hmerges : t.merges task = true := by simp [merges, hop, hprevious]
    obtain ⟨⟨ch, w⟩, -⟩ := h
    refine ⟨iff_of_true ⟨_, rfl, ch, ch, w, w.congr (parserAppendData_sameTree _ _), ?_⟩
      (.inl hmerges), iff_of_false (by simp) fun hnot => hnot.1 (.inl hmerges)⟩
    exact .merged hop hprevious

/-- `ExecuteReparentTask`. -/
theorem reparent_decided (h : Tree t.heap) (hfuel : t.heap.size < fuel)
    (hconsistent : t.Consistent task) (hop : task.operation = .kReparent) :
    t.Decided task (t.Placeable task) (task.nextChild.isSome = true)
      (t.executeReparentTask fuel task) := by
  have hnext : task.nextChild = none := by
    obtain ⟨-, -, -, -, hrest⟩ := hconsistent
    simp only [hop] at hrest
    exact hrest.2
  have hinsert := insert_decided h hfuel hconsistent (by simp [hop]) (by simp [merges, hop])
  unfold insert at hinsert
  rw [hnext] at hinsert ⊢
  exact hinsert

/-- `ExecuteTakeAllChildrenTask`. -/
theorem takeAllChildren_decided (h : Tree t.heap) (hop : task.operation = .kTakeAllChildren) :
    t.Decided task (t.heap.links.first task.oldParent = none) False
      (t.executeTakeAllChildrenTask fuel task) := by
  obtain ⟨⟨ch, w⟩, -⟩ := h
  unfold executeTakeAllChildrenTask
  cases hfirst : t.heap.links.first task.oldParent with
  | none =>
    have hnil : ch task.oldParent = [] := w.first_eq_none.mp hfirst
    rw [parserTakeAllChildrenFrom_nil hfirst]
    refine ⟨iff_of_true ⟨_, rfl, ch, ch, w, w, ?_⟩ rfl, iff_of_false (by simp) (by simp)⟩
    refine @Effect.taken t ch task [] _ hop (List.nil_sublist _) (fun _ => hnil.symm) (by simp) ?_
      fun _ _ _ => rfl
    intro c hc
    cases hc
  | some child =>
    have hmem : child ∈ ch task.oldParent := by
      rw [w.represents.first_eq] at hfirst
      exact List.mem_of_mem_head? hfirst
    rw [parserTakeAllChildrenFrom_eq_none hfirst (w.mem_iff.mp hmem)]
    exact ⟨iff_of_false (by simp) (by simp), iff_of_true rfl (by simp)⟩

/-- **When a task takes effect, and when it never ends.** -/
theorem executeTask_decided (h : Tree t.heap) (hfuel : t.heap.size < fuel)
    (hconsistent : t.Consistent task) :
    t.Decided task (t.Unblocked task)
      (task.operation ≠ .kTakeAllChildren ∧ task.nextChild.isSome = true)
      (t.executeTask fuel task) := by
  unfold executeTask Unblocked
  cases hop : task.operation with
  | kInsert =>
    have hinsert := insert_decided h hfuel hconsistent (by simp [hop]) (by simp [merges, hop])
    refine Decided.map (hinsert.congr_idle (by simp)) ?_ ?_
    · intro u
      split <;> rfl
    · intro u
      split <;> rfl
  | kInsertText =>
    exact (insertText_decided h hfuel hconsistent hop).congr_idle (by simp)
  | kInsertAlreadyParsedChild =>
    have hinsert := insert_decided h hfuel hconsistent (by simp [hop]) (by simp [merges, hop])
    exact hinsert.congr_idle (by simp)
  | kReparent =>
    exact (reparent_decided h hfuel hconsistent hop).congr_idle (by simp)
  | kTakeAllChildren => exact (takeAllChildren_decided h hop).congr_idle (by simp)

/-- A task that has not ended within the bound never ends. -/
theorem never_ends (h : Tree t.heap) (hconsistent : t.Consistent task)
    (hnone : t.executeTaskFully task = none) (hfuel : t.heap.size < fuel) :
    t.executeTask fuel task = none := by
  have hbound := executeTask_decided h (Nat.lt_succ_self _) hconsistent
  exact (executeTask_decided h hfuel hconsistent).2.mpr (hbound.2.mp hnone)

/-! ## A queue of tasks -/

theorem tree_insert (h : Tree t.heap) (hfuel : t.heap.size < fuel)
    (hconsistent : t.Consistent task) (hop : task.operation ≠ .kTakeAllChildren)
    (hexecute : t.insert fuel task = some t') : Tree t'.heap := by
  unfold insert at hexecute
  split at hexecute
  · cases hexecute
    exact h
  · obtain ⟨heap, happend, rfl⟩ := Option.map_eq_some_iff.mp hexecute
    obtain ⟨⟨ch, w⟩, v⟩ := h
    exact tree_parserAppendChild w v hfuel hconsistent.1 hconsistent.2.2.1 hconsistent.2.1
      (hconsistent.notDocument hop) happend

theorem tree_parserAppendData (h : Tree t.heap) (n : NodeId) (text : List UInt16) :
    Tree (t.parserAppendData n text).heap := by
  obtain ⟨⟨ch, w⟩, v⟩ := h
  refine ⟨⟨ch, w.congr (parserAppendData_sameTree n text)⟩, ?_⟩
  have hbumped : VersionsBounded (t.heap.incDOMTreeVersion (t.heap.document n)) :=
    v.bumped (o := n) ⟨rfl, rfl⟩
  unfold parserAppendData
  dsimp only
  split
  · rename_i parent hparent
    exact hbumped.bumped (o := parent) ⟨rfl, rfl⟩
  · exact hbumped

/-- A task that ends leaves a tree. -/
theorem tree_executeTask (h : Tree t.heap) (hfuel : t.heap.size < fuel)
    (hconsistent : t.Consistent task) (hexecute : t.executeTask fuel task = some t') :
    Tree t'.heap := by
  unfold executeTask at hexecute
  split at hexecute
  · rename_i hop
    obtain ⟨u, hinsert, rfl⟩ := Option.map_eq_some_iff.mp hexecute
    have hu := tree_insert h hfuel hconsistent (by simp [hop]) hinsert
    split
    · exact hu
    · exact hu
  · rename_i hop
    unfold executeInsertTextTask at hexecute
    split at hexecute
    · cases hexecute
      exact tree_parserAppendData h _ _
    · exact tree_insert h hfuel hconsistent (by simp [hop]) hexecute
  · rename_i hop
    exact tree_insert h hfuel hconsistent (by simp [hop]) hexecute
  · rename_i hop
    obtain ⟨heap, happend, rfl⟩ := Option.map_eq_some_iff.mp hexecute
    obtain ⟨⟨ch, w⟩, v⟩ := h
    exact tree_parserAppendChild w v hfuel hconsistent.1 hconsistent.2.2.1 hconsistent.2.1
      (hconsistent.notDocument (by simp [hop])) happend
  · rename_i hop
    obtain ⟨heap, htake, rfl⟩ := Option.map_eq_some_iff.mp hexecute
    cases hfirst : t.heap.links.first task.oldParent with
    | none =>
      rw [parserTakeAllChildrenFrom_nil hfirst] at htake
      cases htake
      exact h
    | some child =>
      have hnone := (@takeAllChildren_decided _ _ fuel h hop).2.mpr (by simp [hfirst])
      rw [executeTakeAllChildrenTask, htake] at hnone
      cases hnone

/-- **When the tasks of a queue take effect.** The queue is executed to its end, with every task
taking effect, exactly when no task, in the tree it is executed on, needs a mutator that is a
stub. -/
theorem tasks_take_effect_iff (h : Tree t.heap) (queue : List HTMLConstructionSiteTask)
    (hconsistent : Allowed (machine executeTaskFully) Consistent t queue) :
    Serves executeTaskFully TakesEffect t queue ↔
      Allowed (machine executeTaskFully) Unblocked t queue := by
  refine serves_iff_allowed (I := fun t => Tree t.heap) ?_ ?_ h hconsistent
  · intro t task t' h hconsistent _ hexecute
    exact tree_executeTask h (Nat.lt_succ_self _) hconsistent hexecute
  · intro t task h hconsistent
    exact (executeTask_decided h (Nat.lt_succ_self _) hconsistent).1

/-! ## Misnested tags -/

/-- The calls that build `<a><p>` below the body; the last node is a copy of `a`. -/
def misnestedCalls : List Call :=
  [.createDocument, .createNode .element "html" 0, .createNode .element "body" 0,
    .createNode .element "a" 0, .createNode .element "p" 0, .createNode .element "a" 0,
    .parserAppendChild 0 1, .parserAppendChild 1 2, .parserAppendChild 2 3, .parserAppendChild 3 4]

def misnestedHeap : Heap :=
  match misnestedCalls.foldlM (fun h call => (call.exec 7 h).map Result.heap) Heap.initial with
  | some h => h
  | none => Heap.initial

def misnested : Nodes where
  heap := misnestedHeap
  isHTMLElement n := n != 0
  localName := misnestedHeap.nodeName
  data _ := []
  isFinishedParsingChildren _ := false

theorem misnested_tree : Tree misnested.heap := by
  refine reachable_tree ⟨misnestedCalls,
    .cons ⟨⟨trivial, trivial⟩, 7, _, by decide, rfl, rfl⟩ <|
    .cons ⟨⟨⟨by decide, by decide⟩, trivial⟩, 7, _, by decide, rfl, rfl⟩ <|
    .cons ⟨⟨⟨by decide, by decide⟩, trivial⟩, 7, _, by decide, rfl, rfl⟩ <|
    .cons ⟨⟨⟨by decide, by decide⟩, trivial⟩, 7, _, by decide, rfl, rfl⟩ <|
    .cons ⟨⟨⟨by decide, by decide⟩, trivial⟩, 7, _, by decide, rfl, rfl⟩ <|
    .cons ⟨⟨⟨by decide, by decide⟩, trivial⟩, 7, _, by decide, rfl, rfl⟩ <|
    .cons ⟨⟨⟨by decide, by decide, rfl⟩, (by decide : 0 ≠ 1)⟩, 7, _, by decide, rfl, rfl⟩ <|
    .cons ⟨⟨⟨by decide, by decide, rfl⟩, (by decide : 0 ≠ 2)⟩, 7, _, by decide, rfl, rfl⟩ <|
    .cons ⟨⟨⟨by decide, by decide, rfl⟩, (by decide : 0 ≠ 3)⟩, 7, _, by decide, rfl, rfl⟩ <|
    .cons ⟨⟨⟨by decide, by decide, rfl⟩, (by decide : 0 ≠ 4)⟩, 7, _, by decide, rfl, rfl⟩ (.nil _)⟩

/-- Only the root element and the document are above the body. -/
theorem misnested_above_body {n : Nat} (hn : 2 < n) :
    ¬ Above misnested.heap.links.parent 2 n := by
  intro habove
  have hbody : misnested.heap.links.parent 2 = some 1 := rfl
  have hroot : misnested.heap.links.parent 1 = some 0 := rfl
  have hbelow : 2 ≠ n ∧ 1 ≠ n ∧ 0 ≠ n := by omega
  rw [above_iff_of_parent hbody hbelow.1, above_iff_of_parent hroot hbelow.2.1] at habove
  exact hbelow.2.2 (habove.eq_of_root rfl)

/-- The copy of `a` has no parent: it can be placed. -/
theorem misnested_copy_placed : Serves executeTaskFully TakesEffect misnested
    [⟨.kReparent, 2, none, 5, false⟩] := by
  refine (tasks_take_effect_iff misnested_tree _ ?_).mpr ⟨.inr rfl, trivial⟩
  exact ⟨⟨by decide, rfl, by decide, misnested_above_body (by decide), (by decide : 0 ≠ 5), rfl⟩,
    trivial⟩

/-- **The tag `a` is closed inside of `p`.** The adoption agency moves `p` below the body: the
parser waits forever for `a` to let it go. -/
theorem misnested_never_ends : Tree misnested.heap ∧
    Allowed (machine executeTaskFully) Consistent misnested
      [⟨.kInsertAlreadyParsedChild, 2, none, 4, false⟩, ⟨.kTakeAllChildren, 5, none, 4, false⟩,
        ⟨.kReparent, 4, none, 5, false⟩] ∧
    misnested.executeQueuedTasks [⟨.kInsertAlreadyParsedChild, 2, none, 4, false⟩,
      ⟨.kTakeAllChildren, 5, none, 4, false⟩, ⟨.kReparent, 4, none, 5, false⟩] = none ∧
    ¬ Serves executeTaskFully TakesEffect misnested
      [⟨.kInsertAlreadyParsedChild, 2, none, 4, false⟩, ⟨.kTakeAllChildren, 5, none, 4, false⟩,
        ⟨.kReparent, 4, none, 5, false⟩] := by
  have hnone : misnested.executeTaskFully ⟨.kInsertAlreadyParsedChild, 2, none, 4, false⟩ =
      none := rfl
  refine ⟨misnested_tree, ⟨⟨by decide, rfl, by decide, misnested_above_body (by decide),
    (by decide : 0 ≠ 4), ?_, ?_⟩, ?_⟩, rfl, ?_⟩
  · intro hop
    cases hop
  · intro next hnext
    cases hnext
  · unfold machine
    rw [hnone]
    trivial
  · rintro ⟨t', hsome, -⟩
    rw [hnone] at hsome
    cases hsome

end Nodes

end Blinkit.Html
