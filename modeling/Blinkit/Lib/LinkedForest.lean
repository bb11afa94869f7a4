import Mathlib.Data.List.Basic
import Mathlib.Data.List.Induction
import Mathlib.Data.List.Nodup
import Mathlib.Logic.Function.Basic
import Mathlib.Tactic.Simps.Basic

/-!
# Forests of intrusive doubly linked child lists

Every node carries five links: its parent, its two siblings and, as an owner, its first and last
child.

* `Links` — the link fields and the three pointer updates `append`, `insertBefore`, `remove`.
* `Segment` — a list of nodes chained by the sibling links.
* `Represents l ch` — the links `l` are exactly the child lists `ch`.

Principal results: `Represents.append`, `Represents.insertBefore`, `Represents.remove` — each
pointer update is the list operation on one child list and leaves every other list as it was.
-/

set_option autoImplicit false

namespace LinkedForest

open Function

variable {ι : Type*}

/-- The link fields of all nodes. -/
structure Links (ι : Type*) where
  parent : ι → Option ι
  prev : ι → Option ι
  next : ι → Option ι
  first : ι → Option ι
  last : ι → Option ι

namespace Links

variable [DecidableEq ι]

/-- No node is linked to another. -/
def empty {ι : Type*} : Links ι := ⟨fun _ => none, fun _ => none, fun _ => none, fun _ => none, fun _ => none⟩

@[simps -fullyApplied] def setParent (l : Links ι) (n : ι) (v : Option ι) : Links ι :=
  { l with parent := update l.parent n v }

@[simps -fullyApplied] def setPrev (l : Links ι) (n : ι) (v : Option ι) : Links ι :=
  { l with prev := update l.prev n v }

@[simps -fullyApplied] def setNext (l : Links ι) (n : ι) (v : Option ι) : Links ι :=
  { l with next := update l.next n v }

@[simps -fullyApplied] def setFirst (l : Links ι) (n : ι) (v : Option ι) : Links ι :=
  { l with first := update l.first n v }

@[simps -fullyApplied] def setLast (l : Links ι) (n : ι) (v : Option ι) : Links ι :=
  { l with last := update l.last n v }

/-- Link `c` behind the last child of `p`. -/
def append (l : Links ι) (p c : ι) : Links ι :=
  let l := l.setParent c (some p)
  let l :=
    match l.last p with
    | some z => (l.setPrev c (some z)).setNext z (some c)
    | none => l.setFirst p (some c)
  l.setLast p (some c)

/-- Link `c` in front of the child `r` of `p`. -/
def insertBefore (l : Links ι) (p r c : ι) : Links ι :=
  let before := l.prev r
  let l := l.setPrev r (some c)
  let l :=
    match before with
    | some z => l.setNext z (some c)
    | none => l.setFirst p (some c)
  ((l.setParent c (some p)).setPrev c before).setNext c (some r)

/-- Unlink the child `c` of `p`, which stands between `before` and `after`. -/
def remove (l : Links ι) (p : ι) (before after : Option ι) (c : ι) : Links ι :=
  let l :=
    match after with
    | some z => l.setPrev z before
    | none => l
  let l :=
    match before with
    | some z => l.setNext z after
    | none => l
  let l := if l.first p = some c then l.setFirst p after else l
  let l := if l.last p = some c then l.setLast p before else l
  ((l.setPrev c none).setNext c none).setParent c none

theorem append_parent (l : Links ι) (p c : ι) :
    (l.append p c).parent = update l.parent c (some p) := by
  simp only [append]
  cases (l.setParent c (some p)).last p <;> rfl

theorem insertBefore_parent (l : Links ι) (p r c : ι) :
    (l.insertBefore p r c).parent = update l.parent c (some p) := by
  simp only [insertBefore]
  cases l.prev r <;> rfl

section Remove

variable (l : Links ι) (p c : ι) (before after : Option ι)

theorem remove_parent : (l.remove p before after c).parent = update l.parent c none := by
  cases before <;> cases after <;> simp [remove, apply_ite Links.parent]

theorem remove_prev (z : ι) : (l.remove p before after c).prev z =
    if z = c then none else if after = some z then before else l.prev z := by
  cases before <;> cases after <;>
    simp [remove, apply_ite Links.prev, update_apply, eq_comm]

theorem remove_next (z : ι) : (l.remove p before after c).next z =
    if z = c then none else if before = some z then after else l.next z := by
  cases before <;> cases after <;>
    simp [remove, apply_ite Links.next, update_apply, eq_comm]

theorem remove_first : (l.remove p before after c).first =
    if l.first p = some c then update l.first p after else l.first := by
  cases before <;> cases after <;> simp [remove, apply_ite Links.first, apply_ite Links.last]

theorem remove_last : (l.remove p before after c).last =
    if l.last p = some c then update l.last p before else l.last := by
  cases before <;> cases after <;> simp [remove, apply_ite Links.last]

end Remove

end Links

/-! ## Segments -/

/-- The nodes of the list are chained by `prev` and `next`, between `before` and `after`. -/
def Segment (prev next : ι → Option ι) : Option ι → List ι → Option ι → Prop
  | _, [], _ => True
  | before, c :: cs, after =>
    prev c = before ∧ next c = cs.head?.or after ∧ Segment prev next (some c) cs after

variable {prev next prev' next' : ι → Option ι}

theorem Segment.congr {cs : List ι} {before after : Option ι}
    (hp : ∀ c ∈ cs, prev' c = prev c) (hn : ∀ c ∈ cs, next' c = next c)
    (h : Segment prev next before cs after) : Segment prev' next' before cs after := by
  induction cs generalizing before with
  | nil => trivial
  | cons c cs ih =>
    obtain ⟨h₁, h₂, h₃⟩ := h
    refine ⟨(hp c (by simp)).trans h₁, (hn c (by simp)).trans h₂, ?_⟩
    exact ih (fun d hd => hp d (by simp [hd])) (fun d hd => hn d (by simp [hd])) h₃

theorem segment_append {l₁ l₂ : List ι} {before after : Option ι} :
    Segment prev next before (l₁ ++ l₂) after ↔
      Segment prev next before l₁ (l₂.head?.or after) ∧
        Segment prev next (l₁.getLast?.or before) l₂ after := by
  induction l₁ generalizing before with
  | nil => simp [Segment]
  | cons c cs ih =>
    have hhead : (cs ++ l₂).head?.or after = cs.head?.or (l₂.head?.or after) := by
      cases cs <;> simp
    have hlast : ((c :: cs).getLast?).or before = cs.getLast?.or (some c) := by
      rw [List.getLast?_cons]
      cases cs.getLast? <;> rfl
    simp only [List.cons_append, Segment, ih, hhead, hlast, and_assoc]

theorem Segment.prev_eq {l₁ l₂ : List ι} {before after : Option ι} {c : ι}
    (h : Segment prev next before (l₁ ++ c :: l₂) after) : prev c = l₁.getLast?.or before :=
  (segment_append.mp h).2.1

theorem Segment.next_eq {l₁ l₂ : List ι} {before after : Option ι} {c : ι}
    (h : Segment prev next before (l₁ ++ c :: l₂) after) : next c = l₂.head?.or after :=
  (segment_append.mp h).2.2.1

/-- Redirect the `next` link of the last node of a segment. -/
theorem Segment.set_after {l : List ι} {before after after' : Option ι}
    (hnd : l.Nodup) (h : Segment prev next before l after)
    (hlast : ∀ z, l.getLast? = some z → next' z = after')
    (hother : ∀ z ∈ l, l.getLast? ≠ some z → next' z = next z) :
    Segment prev next' before l after' := by
  induction l using List.reverseRecOn with
  | nil => trivial
  | append_singleton l z _ =>
    obtain ⟨h₁, h₂, -, -⟩ := segment_append.mp h
    refine segment_append.mpr ⟨?_, h₂, by simpa using hlast z (by simp), trivial⟩
    refine Segment.congr (fun _ _ => rfl) (fun c hc => hother c (by simp [hc]) ?_) h₁
    have hne : z ≠ c := by
      rintro rfl
      exact (List.nodup_append.mp hnd).2.2 z hc z (by simp) rfl
    simpa using hne

/-- Redirect the `prev` link of the first node of a segment. -/
theorem Segment.set_before {l : List ι} {before before' after : Option ι}
    (hnd : l.Nodup) (h : Segment prev next before l after)
    (hfirst : ∀ z, l.head? = some z → prev' z = before')
    (hother : ∀ z ∈ l, l.head? ≠ some z → prev' z = prev z) :
    Segment prev' next before' l after := by
  cases l with
  | nil => trivial
  | cons z l =>
    obtain ⟨-, h₂, h₃⟩ := h
    refine ⟨hfirst z rfl, h₂, ?_⟩
    refine Segment.congr (fun c hc => hother c (by simp [hc]) ?_) (fun _ _ => rfl) h₃
    have hne : z ≠ c := by
      rintro rfl
      exact (List.nodup_cons.mp hnd).1 hc
    simpa using hne

/-! ## Representation -/

/-- **The links are exactly the child lists `ch`.** -/
structure Represents (l : Links ι) (ch : ι → List ι) : Prop where
  mem_iff : ∀ p c, c ∈ ch p ↔ l.parent c = some p
  nodup : ∀ p, (ch p).Nodup
  first_eq : ∀ p, l.first p = (ch p).head?
  last_eq : ∀ p, l.last p = (ch p).getLast?
  segment : ∀ p, Segment l.prev l.next none (ch p) none
  detached : ∀ c, l.parent c = none → l.prev c = none ∧ l.next c = none

theorem represents_empty : Represents (Links.empty : Links ι) (fun _ => []) where
  mem_iff := by simp [Links.empty]
  nodup := by simp
  first_eq := by simp [Links.empty]
  last_eq := by simp [Links.empty]
  segment := by simp [Segment]
  detached := by simp [Links.empty]

namespace Represents

variable {l : Links ι} {ch : ι → List ι} {p q c r : ι}

/-- No node is in two child lists. -/
theorem disjoint (h : Represents l ch) (hpq : p ≠ q) (hc : c ∈ ch p) : c ∉ ch q := by
  intro hq
  have hp' := (h.mem_iff p c).mp hc
  have hq' := (h.mem_iff q c).mp hq
  exact hpq (Option.some.inj (hp'.symm.trans hq'))

theorem prev_eq (h : Represents l ch) {l₁ l₂ : List ι} (hs : ch p = l₁ ++ c :: l₂) :
    l.prev c = l₁.getLast? := by
  have := Segment.prev_eq (hs ▸ h.segment p)
  simpa using this

theorem next_eq (h : Represents l ch) {l₁ l₂ : List ι} (hs : ch p = l₁ ++ c :: l₂) :
    l.next c = l₂.head? := by
  have := Segment.next_eq (hs ▸ h.segment p)
  simpa using this

theorem not_mem_of_detached (h : Represents l ch) (hc : l.parent c = none) : c ∉ ch q := by
  intro hq
  rw [(h.mem_iff q c).mp hq] at hc
  cases hc

variable [DecidableEq ι]

/-- Only the list of `p` changes: what has to be shown of the new links. -/
theorem of_update (h : Represents l ch) {l' : Links ι} {cs : List ι}
    (hparent : ∀ q d, l'.parent d = some q ↔ d ∈ update ch p cs q)
    (hnodup : cs.Nodup)
    (hfirst : l'.first = update l.first p cs.head?) (hlast : l'.last = update l.last p cs.getLast?)
    (hsegment : Segment l'.prev l'.next none cs none)
    (hother : ∀ q, q ≠ p → ∀ d ∈ ch q, l'.prev d = l.prev d ∧ l'.next d = l.next d)
    (hdetached : ∀ d, l'.parent d = none → l'.prev d = none ∧ l'.next d = none) :
    Represents l' (update ch p cs) where
  mem_iff q d := (hparent q d).symm
  nodup q := by
    by_cases hq : q = p
    · subst hq; simpa using hnodup
    · simpa [hq] using h.nodup q
  first_eq q := by
    rw [hfirst]
    by_cases hq : q = p
    · subst hq; simp
    · simpa [hq] using h.first_eq q
  last_eq q := by
    rw [hlast]
    by_cases hq : q = p
    · subst hq; simp
    · simpa [hq] using h.last_eq q
  segment q := by
    by_cases hq : q = p
    · subst hq; simpa using hsegment
    · rw [update_of_ne hq]
      exact Segment.congr (fun d hd => (hother q hq d hd).1) (fun d hd => (hother q hq d hd).2)
        (h.segment q)
  detached := hdetached

/-- A node linked under `p` at the place `cs` of its list. -/
theorem parent_iff_of_attach (h : Represents l ch) (hc : l.parent c = none) {cs : List ι}
    (hcs : ∀ d, d ∈ cs ↔ d = c ∨ d ∈ ch p) (q d : ι) :
    update l.parent c (some p) d = some q ↔ d ∈ update ch p cs q := by
  by_cases hd : d = c
  · subst hd
    by_cases hq : q = p
    · subst hq; simp [hcs]
    · simp [hq, Ne.symm hq, h.not_mem_of_detached hc]
  · by_cases hq : q = p
    · subst hq; simp [hd, hcs, h.mem_iff]
    · simp [hd, hq, h.mem_iff]

/-- **Appending links `c` behind the list of `p`.** -/
theorem append (h : Represents l ch) (hc : l.parent c = none) :
    Represents (l.append p c) (update ch p (ch p ++ [c])) := by
  have hcp : ∀ q, c ∉ ch q := fun q => h.not_mem_of_detached hc
  have hparent := l.append_parent p c
  have hprev : ∀ z, z ≠ c → (l.append p c).prev z = l.prev z := by
    intro z hz
    simp only [Links.append, Links.setParent, Links.setLast]
    cases l.last p <;> simp [Links.setPrev, Links.setNext, Links.setFirst, hz]
  have hprevc : (l.append p c).prev c = (ch p).getLast? := by
    rw [← h.last_eq p]
    simp only [Links.append, Links.setParent, Links.setLast]
    cases l.last p <;> simp [Links.setPrev, Links.setNext, Links.setFirst, (h.detached c hc).1]
  have hnextlast : ∀ z, (ch p).getLast? = some z → (l.append p c).next z = some c := by
    intro z hz
    simp only [Links.append, Links.setParent, Links.setLast, h.last_eq p, hz]
    simp [Links.setPrev, Links.setNext]
  have hnext : ∀ z, (ch p).getLast? ≠ some z → (l.append p c).next z = l.next z := by
    intro z hz
    simp only [Links.append, Links.setParent, Links.setLast, h.last_eq p]
    cases hl : (ch p).getLast? with
    | none => simp [Links.setFirst]
    | some y =>
      have hzy : z ≠ y := by rintro rfl; exact hz hl
      simp [Links.setPrev, Links.setNext, hzy]
  have hlastp : ∀ z, z ∉ ch p → (ch p).getLast? ≠ some z :=
    fun z hz hl => hz (List.mem_of_getLast? hl)
  refine h.of_update (fun q d => ?_) ?_ ?_ ?_ ?_ (fun q hq d hd => ?_) fun d hd => ?_
  · rw [hparent]
    exact h.parent_iff_of_attach hc (by simp [or_comm]) q d
  · simpa [List.nodup_append, h.nodup] using fun a ha => ne_of_mem_of_not_mem ha (hcp p)
  · have hf : l.first p = (ch p).head? := h.first_eq p
    simp only [Links.append, Links.setParent, Links.setLast, h.last_eq p]
    cases hch : ch p with
    | nil => simp [Links.setFirst]
    | cons y ys => simp [List.getLast?_cons, Links.setPrev, Links.setNext, hch ▸ hf]
  · simp only [Links.append, Links.setParent, Links.setLast]
    cases l.last p <;> simp [Links.setPrev, Links.setNext, Links.setFirst]
  · refine segment_append.mpr ⟨?_, by simpa using hprevc, ?_, trivial⟩
    · have hseg : Segment (l.append p c).prev l.next none (ch p) none :=
        Segment.congr (fun z hz => hprev z (ne_of_mem_of_not_mem hz (hcp p))) (fun _ _ => rfl)
          (h.segment p)
      exact hseg.set_after (h.nodup p) hnextlast fun z _ hz => hnext z hz
    · simpa using (hnext c (hlastp c (hcp p))).trans (h.detached c hc).2
  · exact ⟨hprev d (ne_of_mem_of_not_mem hd (hcp q)), hnext d (hlastp d (h.disjoint hq hd))⟩
  · rw [hparent] at hd
    have hdc : d ≠ c := by rintro rfl; simp at hd
    rw [update_of_ne hdc] at hd
    rw [hprev d hdc, hnext d (hlastp d (h.not_mem_of_detached hd))]
    exact h.detached d hd

/-- **Inserting links `c` in front of the child `r` of `p`.** -/
theorem insertBefore (h : Represents l ch) (hc : l.parent c = none) {l₁ l₂ : List ι}
    (hs : ch p = l₁ ++ r :: l₂) :
    Represents (l.insertBefore p r c) (update ch p (l₁ ++ c :: r :: l₂)) := by
  have hcp : ∀ q, c ∉ ch q := fun q => h.not_mem_of_detached hc
  have hbefore : l.prev r = l₁.getLast? := h.prev_eq hs
  have hnd : (l₁ ++ r :: l₂).Nodup := hs ▸ h.nodup p
  have hmem : ∀ d, d ∈ l₁ ++ r :: l₂ ↔ d ∈ ch p := fun d => by rw [hs]
  have hcl : c ∉ l₁ ++ r :: l₂ := fun hm => hcp p ((hmem c).mp hm)
  have hcr : c ≠ r := fun he => hcl (by simp [he])
  have hrl₁ : r ∉ l₁ := fun hr => (List.nodup_append.mp hnd).2.2 r hr r (by simp) rfl
  have hparent := l.insertBefore_parent p r c
  have hprev : (l.insertBefore p r c).prev = update (update l.prev r (some c)) c l₁.getLast? := by
    simp only [Links.insertBefore, hbefore]
    cases l₁.getLast? <;> rfl
  have hnextlast : ∀ z, l₁.getLast? = some z → (l.insertBefore p r c).next z = some c := by
    intro z hz
    have hzc : z ≠ c := by
      rintro rfl
      exact hcl (by simp [List.mem_of_getLast? hz])
    simp [Links.insertBefore, hbefore, hz, Links.setNext, Links.setPrev, Links.setParent, hzc]
  have hnext : ∀ z, z ≠ c → l₁.getLast? ≠ some z →
      (l.insertBefore p r c).next z = l.next z := by
    intro z hzc hz
    simp only [Links.insertBefore, hbefore]
    cases hl : l₁.getLast? with
    | none => simp [Links.setNext, Links.setPrev, Links.setParent, Links.setFirst, hzc]
    | some y =>
      have hzy : z ≠ y := by rintro rfl; exact hz hl
      simp [Links.setNext, Links.setPrev, Links.setParent, hzc, hzy]
  have hlast₁ : ∀ z, z ∉ ch p → l₁.getLast? ≠ some z :=
    fun z hz hl => hz ((hmem z).mp (by simp [List.mem_of_getLast? hl]))
  obtain ⟨hseg₁, hprevr, hnextr, hseg₂⟩ := segment_append.mp (hs ▸ h.segment p)
  refine h.of_update (fun q d => ?_) ?_ ?_ ?_ ?_ (fun q hq d hd => ?_) fun d hd => ?_
  · rw [hparent]
    exact h.parent_iff_of_attach hc (by simp [hs, or_left_comm]) q d
  · rw [List.nodup_middle]
    exact List.nodup_cons.mpr ⟨hcl, hnd⟩
  · have hf : l.first p = (l₁ ++ r :: l₂).head? := hs ▸ h.first_eq p
    simp only [Links.insertBefore, hbefore]
    cases l₁ with
    | nil => simp [Links.setFirst, Links.setNext, Links.setPrev, Links.setParent]
    | cons y ys =>
      have hf' : l.first p = some y := by simpa using hf
      simp [List.getLast?_cons, Links.setNext, Links.setPrev, Links.setParent, ← hf']
  · have hl : l.last p = (l₁ ++ r :: l₂).getLast? := hs ▸ h.last_eq p
    have hl' : (l₁ ++ c :: r :: l₂).getLast? = l.last p := by rw [hl]; simp [List.getLast?_append]
    rw [hl', update_eq_self]
    simp only [Links.insertBefore, hbefore]
    cases l₁.getLast? <;> rfl
  · refine segment_append.mpr ⟨?_, by simp [hprev], by simp [Links.insertBefore, Links.setNext], ?_⟩
    · have hseg : Segment (l.insertBefore p r c).prev l.next none l₁ (some r) := by
        refine Segment.congr (fun z hz => ?_) (fun _ _ => rfl) hseg₁
        have hzc : z ≠ c := by rintro rfl; exact hcl (by simp [hz])
        have hzr : z ≠ r := by rintro rfl; exact hrl₁ hz
        simp [hprev, hzc, hzr]
      refine hseg.set_after (List.nodup_append.mp hnd).1 hnextlast fun z hz hzl => hnext z ?_ hzl
      rintro rfl
      exact hcl (by simp [hz])
    · have hz₂ : ∀ z ∈ r :: l₂, z ≠ c ∧ l₁.getLast? ≠ some z := by
        refine fun z hz => ⟨fun he => hcl (by simp [← he, List.mem_cons.mp hz]), fun hl => ?_⟩
        exact (List.nodup_append.mp hnd).2.2 z (List.mem_of_getLast? hl) z hz rfl
      have hrl₂ : r ∉ l₂ := (List.nodup_cons.mp (List.nodup_append.mp hnd).2.1).1
      refine ⟨by simp [hprev, hcr.symm], ?_, Segment.congr (fun z hz => ?_) (fun z hz => ?_) hseg₂⟩
      · rw [hnext r hcr.symm (hz₂ r (by simp)).2, hnextr]
      · have hzr : z ≠ r := by rintro rfl; exact hrl₂ hz
        simp [hprev, (hz₂ z (by simp [hz])).1, hzr]
      · exact hnext z (hz₂ z (by simp [hz])).1 (hz₂ z (by simp [hz])).2
  · have hdc : d ≠ c := ne_of_mem_of_not_mem hd (hcp q)
    have hdp : d ∉ ch p := h.disjoint hq hd
    have hdr : d ≠ r := by rintro rfl; exact hdp ((hmem d).mp (by simp))
    exact ⟨by simp [hprev, hdc, hdr], hnext d hdc (hlast₁ d hdp)⟩
  · rw [hparent] at hd
    have hdc : d ≠ c := by rintro rfl; simp at hd
    rw [update_of_ne hdc] at hd
    have hdp : d ∉ ch p := h.not_mem_of_detached hd
    have hdr : d ≠ r := by rintro rfl; exact hdp ((hmem d).mp (by simp))
    rw [hnext d hdc (hlast₁ d hdp)]
    simpa [hprev, hdc, hdr] using h.detached d hd

/-- **Removing unlinks `c` from the list of `p`.** -/
theorem remove (h : Represents l ch) {l₁ l₂ : List ι} (hs : ch p = l₁ ++ c :: l₂) :
    Represents (l.remove p l₁.getLast? l₂.head? c) (update ch p (l₁ ++ l₂)) := by
  have hnd : (l₁ ++ c :: l₂).Nodup := hs ▸ h.nodup p
  have hmem : ∀ d, d ∈ l₁ ++ c :: l₂ ↔ d ∈ ch p := fun d => by rw [hs]
  have hcl : c ∉ l₁ ++ l₂ := (List.nodup_cons.mp (List.nodup_middle.mp hnd)).1
  have hdisj : ∀ z ∈ l₁, z ∉ l₂ := fun z h₁ h₂ =>
    (List.nodup_append.mp hnd).2.2 z h₁ z (by simp [h₂]) rfl
  have hfirst : l.first p = (l₁ ++ c :: l₂).head? := hs ▸ h.first_eq p
  have hlast : l.last p = (l₁ ++ c :: l₂).getLast? := hs ▸ h.last_eq p
  have hhead : ∀ z, z ∉ ch p → l₂.head? ≠ some z :=
    fun z hz hl => hz ((hmem z).mp (by simp [List.mem_of_head? hl]))
  have hlast₁ : ∀ z, z ∉ ch p → l₁.getLast? ≠ some z :=
    fun z hz hl => hz ((hmem z).mp (by simp [List.mem_of_getLast? hl]))
  obtain ⟨hseg₁, -, -, hseg₂⟩ := segment_append.mp (hs ▸ h.segment p)
  have hne : ∀ z ∈ l₁ ++ l₂, z ≠ c := fun z hz => ne_of_mem_of_not_mem hz hcl
  refine h.of_update (fun q d => ?_) (List.nodup_cons.mp (List.nodup_middle.mp hnd)).2 ?_ ?_ ?_
    (fun q hq d hd => ?_) fun d hd => ?_
  · rw [Links.remove_parent]
    have hcp : c ∈ ch p := (hmem c).mp (by simp)
    by_cases hd : d = c
    · subst hd
      by_cases hq : q = p
      · subst hq; simpa using hcl
      · simpa [hq] using h.disjoint (Ne.symm hq) hcp
    · by_cases hq : q = p
      · subst hq
        have := hmem d
        simp [hd, ← h.mem_iff, ← hmem]
      · simp [hd, hq, h.mem_iff]
  · rw [Links.remove_first]
    cases l₁ with
    | nil => simp [hfirst]
    | cons y ys =>
      have hyc : y ≠ c := hne y (by simp)
      have hf : l.first p = some y := by simpa using hfirst
      have hne' : l.first p ≠ some c := by simpa [hf] using hyc
      rw [if_neg hne']
      exact (update_eq_self_iff.mpr (by simp [hf])).symm
  · rw [Links.remove_last]
    cases l₂ using List.reverseRecOn with
    | nil => simp [hlast]
    | append_singleton ys y =>
      have hyc : y ≠ c := hne y (by simp)
      have hl : l.last p = some y := by
        rw [hlast, ← List.cons_append, ← List.append_assoc, List.getLast?_concat]
      have hne' : l.last p ≠ some c := by simpa [hl] using hyc
      rw [if_neg hne', ← List.append_assoc, List.getLast?_concat]
      exact (update_eq_self_iff.mpr hl.symm).symm
  · refine segment_append.mpr ⟨?_, ?_⟩
    · have hseg : Segment (l.remove p l₁.getLast? l₂.head? c).prev l.next none l₁ (some c) := by
        refine Segment.congr (fun z hz => ?_) (fun _ _ => rfl) (by simpa using hseg₁)
        have hz₂ : l₂.head? ≠ some z := fun hl => hdisj z hz (List.mem_of_head? hl)
        rw [Links.remove_prev, if_neg (hne z (by simp [hz])), if_neg hz₂]
      refine hseg.set_after (List.nodup_append.mp hnd).1 (fun z hz => ?_) fun z hz hzl => ?_
      · rw [Links.remove_next, if_neg (hne z (by simp [List.mem_of_getLast? hz])), if_pos hz]
        simp
      · rw [Links.remove_next, if_neg (hne z (by simp [hz])), if_neg hzl]
    · have hseg : Segment l.prev (l.remove p l₁.getLast? l₂.head? c).next (some c) l₂ none := by
        refine Segment.congr (fun _ _ => rfl) (fun z hz => ?_) hseg₂
        have hz₁ : l₁.getLast? ≠ some z := fun hl => hdisj z (List.mem_of_getLast? hl) hz
        rw [Links.remove_next, if_neg (hne z (by simp [hz])), if_neg hz₁]
      have hnd₂ : l₂.Nodup := (List.nodup_cons.mp (List.nodup_append.mp hnd).2.1).2
      refine hseg.set_before hnd₂ (fun z hz => ?_) fun z hz hzl => ?_
      · rw [Links.remove_prev, if_neg (hne z (by simp [List.mem_of_head? hz])), if_pos hz]
        simp
      · rw [Links.remove_prev, if_neg (hne z (by simp [hz])), if_neg hzl]
  · have hdp : d ∉ ch p := h.disjoint hq hd
    have hdc : d ≠ c := by rintro rfl; exact hdp ((hmem d).mp (by simp))
    simp [Links.remove_prev, Links.remove_next, hdc, hhead d hdp, hlast₁ d hdp]
  · by_cases hdc : d = c
    · simp [Links.remove_prev, Links.remove_next, hdc]
    · rw [Links.remove_parent, update_of_ne hdc] at hd
      have hdp : d ∉ ch p := h.not_mem_of_detached hd
      simpa [Links.remove_prev, Links.remove_next, hdc, hhead d hdp, hlast₁ d hdp]
        using h.detached d hd

end Represents

end LinkedForest
