import Blinkit.Dom.Documents

/-!
# The constraints on the children of a document

* `ChildConstraints kinds` — at most one element, at most one doctype, no text, and no doctype
  behind the element.
* `Fits front kinds back` — new kinds keep the constraints between `front` and `back`.
* `Place.front`, `Place.back` — the children that stay in front of an insertion and behind it.

Principal results: `constraints_insert_iff` (on kinds), `allowed_of_validity` (what the checks in
front of an insertion into a document have looked at), `Place.spec_eq` and
`parser_keeps_constraints` (the parser's insertion asks `Document::CanAcceptChild`).
-/

set_option autoImplicit false

namespace Blinkit.Dom

open LinkedForest ChildLists Function

/-! ## Kinds of children -/

/-- What the children of a document have to be, by their kinds in document order. -/
structure ChildConstraints (kinds : List NodeType) : Prop where
  oneElement : kinds.count .element ≤ 1
  oneDoctype : kinds.count .documentType ≤ 1
  noText : ∀ k ∈ kinds, k ≠ .text ∧ k ≠ .cdataSection
  doctypeFirst : kinds.Pairwise fun a b => ¬ (a = .element ∧ b = .documentType)

/-- The new kinds keep the constraints between those in front and those behind. -/
structure Fits (front kinds back : List NodeType) : Prop where
  oneElement : kinds.count .element ≤ 1
  oneDoctype : kinds.count .documentType ≤ 1
  doctypeFirst : kinds.Pairwise fun a b => ¬ (a = .element ∧ b = .documentType)
  noElementInFront : .documentType ∈ kinds → .element ∉ front
  noDoctypeBehind : .element ∈ kinds → .documentType ∉ back

/-- The kinds of new children that `Document::ChildTypeAllowed` lets in, one at a time. -/
def AllowedAlone (kinds : List NodeType) (k : NodeType) : Prop :=
  k ≠ .text ∧ k ≠ .cdataSection ∧ (k = .element ∨ k = .documentType → k ∉ kinds)

theorem ChildConstraints.nil : ChildConstraints [] where
  oneElement := Nat.zero_le 1
  oneDoctype := Nat.zero_le 1
  noText k hk := by cases hk
  doctypeFirst := .nil

theorem ChildConstraints.sublist {kinds kinds' : List NodeType} (c : ChildConstraints kinds)
    (hs : kinds'.Sublist kinds) : ChildConstraints kinds' where
  oneElement := (hs.count_le _).trans c.oneElement
  oneDoctype := (hs.count_le _).trans c.oneDoctype
  noText k hk := c.noText k (hs.subset hk)
  doctypeFirst := c.doctypeFirst.sublist hs

/-- Of a kind that is allowed in once there is one afterwards when one comes in. -/
theorem count_insert_iff {front kinds back : List NodeType} {k : NodeType}
    (hold : (front ++ back).count k ≤ 1) (hnew : k ∈ kinds → k ∉ front ++ back) :
    (front ++ kinds ++ back).count k ≤ 1 ↔ kinds.count k ≤ 1 := by
  simp only [List.count_append] at hold ⊢
  by_cases hk : k ∈ kinds
  · have hzero : (front ++ back).count k = 0 := List.count_eq_zero.mpr (hnew hk)
    rw [List.count_append] at hzero
    omega
  · have hzero : kinds.count k = 0 := List.count_eq_zero.mpr hk
    omega

/-- **Kinds that are allowed one at a time keep the constraints exactly when they fit.** -/
theorem constraints_insert_iff {front kinds back old : List NodeType}
    (c : ChildConstraints (front ++ back)) (hsub : ∀ k ∈ front ++ back, k ∈ old)
    (hallowed : ∀ k ∈ kinds, AllowedAlone old k) :
    ChildConstraints (front ++ kinds ++ back) ↔ Fits front kinds back := by
  have helement := count_insert_iff c.oneElement fun hk hm =>
    (hallowed _ hk).2.2 (.inl rfl) (hsub _ hm)
  have hdoctype := count_insert_iff c.oneDoctype fun hk hm =>
    (hallowed _ hk).2.2 (.inr rfl) (hsub _ hm)
  have horder := c.doctypeFirst
  rw [List.pairwise_append] at horder
  obtain ⟨hfront, hback, hcross⟩ := horder
  constructor
  · intro c'
    have horder' := c'.doctypeFirst
    rw [List.pairwise_append, List.pairwise_append] at horder'
    obtain ⟨⟨-, hkinds, hfk⟩, -, hkb⟩ := horder'
    refine ⟨helement.mp c'.oneElement, hdoctype.mp c'.oneDoctype, hkinds, fun hd he => ?_,
      fun he hd => ?_⟩
    · exact hfk _ he _ hd ⟨rfl, rfl⟩
    · exact hkb _ (List.mem_append_right _ he) _ hd ⟨rfl, rfl⟩
  · intro f
    refine ⟨helement.mpr f.oneElement, hdoctype.mpr f.oneDoctype, fun k hk => ?_, ?_⟩
    · rcases List.mem_append.mp hk with hk | hk
      · rcases List.mem_append.mp hk with hk | hk
        · exact c.noText k (List.mem_append_left _ hk)
        · exact ⟨(hallowed k hk).1, (hallowed k hk).2.1⟩
      · exact c.noText k (List.mem_append_right _ hk)
    · rw [List.pairwise_append, List.pairwise_append]
      refine ⟨⟨hfront, f.doctypeFirst, ?_⟩, hback, ?_⟩
      · rintro a ha b hb ⟨rfl, rfl⟩
        exact f.noElementInFront hb ha
      · rintro a ha b hb ⟨rfl, rfl⟩
        rcases List.mem_append.mp ha with ha | ha
        · exact hcross _ ha _ hb ⟨rfl, rfl⟩
        · exact f.noDoctypeBehind ha hb

/-! ## Where the new children stand -/

section Place

variable (isFragment : NodeId → Bool) (ch : NodeId → List NodeId) (p n : NodeId)

namespace Place

/-- The child in front of which the nodes go. -/
def reference : Place → Option NodeId
  | last => none
  | before ref => insertReference ch p n ref
  | instead old => replaceReference ch p n old

/-- The nodes that leave their lists. -/
def leaving : Place → List NodeId
  | last | before _ => targets isFragment ch n
  | instead old => n :: old :: targets isFragment ch n

/-- The children that stay. -/
def staying (place : Place) : List NodeId :=
  (ch p).filter (· ∉ place.leaving isFragment ch n)

/-- The children that stay in front of the insertion. -/
def front (place : Place) : List NodeId :=
  match place.reference ch p n with
  | none => place.staying isFragment ch p n
  | some r => (place.staying isFragment ch p n).takeWhile (· ≠ r)

/-- The children that stay behind it. -/
def back (place : Place) : List NodeId :=
  match place.reference ch p n with
  | none => []
  | some r => (place.staying isFragment ch p n).dropWhile (· ≠ r)

theorem front_append_back (place : Place) :
    place.front isFragment ch p n ++ place.back isFragment ch p n =
      place.staying isFragment ch p n := by
  unfold front back
  split
  · exact List.append_nil _
  · exact List.takeWhile_append_dropWhile

end Place

end Place

variable {h h' : Heap} {ch ch' : NodeId → List NodeId} {d p n : NodeId} {fuel : Nat}

/-- In lists without repetition, leaving a list is being filtered out of it. -/
theorem foldl_detach_eq_filter {ts : List NodeId} {f : NodeId → List NodeId} {q : NodeId}
    (hnd : (f q).Nodup) : ts.foldl detach f q = (f q).filter (· ∉ ts) := by
  induction ts generalizing f with
  | nil => simp
  | cons t ts ih =>
    have hstep : detach f t q = (f q).filter (· != t) := hnd.erase_eq_filter t
    rw [List.foldl_cons, ih (hnd.erase t), hstep, List.filter_filter]
    refine List.filter_congr fun x _ => ?_
    by_cases hx : x = t <;> simp [hx]

/-- **Where the new children stand.** -/
theorem Place.spec_eq {place : Place} (w : WellFormed h ch) (hpn : p ≠ n)
    (hold : ∀ old, place = .instead old → old ∈ ch p) :
    (place.call p n).spec h.isDocumentFragment ch p =
      place.front h.isDocumentFragment ch p n ++ collected h ch n ++
        place.back h.isDocumentFragment ch p n := by
  have hmove (ns ts : List NodeId) (ref : Option NodeId) :
      splice (ts.foldl detach ch p) ref ns = match ref with
        | none => (ch p).filter (· ∉ ts) ++ ns ++ []
        | some r => ((ch p).filter (· ∉ ts)).takeWhile (· ≠ r) ++ ns ++
            ((ch p).filter (· ∉ ts)).dropWhile (· ≠ r) := by
    rw [foldl_detach_eq_filter (w.represents.nodup p)]
    cases ref with
    | none => rw [List.append_nil]; rfl
    | some r => rfl
  unfold front back
  cases place with
  | last =>
    have := hmove (collected h ch n) (collected h ch n) none
    simp only [call, Call.spec, specAppend, move, update_self, reference]
    exact this
  | before ref =>
    have := hmove (collected h ch n) (collected h ch n) (insertReference ch p n ref)
    simp only [call, Call.spec, specInsertBefore, move, update_self, reference]
    rw [show (if ref = n then successor (ch p) n else some ref) = insertReference ch p n ref
      from rfl, this]
    cases insertReference ch p n ref <;> rfl
  | instead old =>
    have htargets : targets h.isDocumentFragment (detach (detach ch n) old) n =
        collected h ch n := by
      simp only [collected, targets, detach_replace_self w (hold old rfl) hpn]
    have := hmove (collected h ch n) (n :: old :: collected h ch n) (replaceReference ch p n old)
    simp only [call, Call.spec, specReplace, move, update_self, reference, htargets]
    rw [List.foldl_cons, List.foldl_cons] at this
    rw [this]
    cases replaceReference ch p n old <;> rfl

/-! ## What the checks look at -/

theorem allowed_of_childTypeAllowed (w : WellFormed h ch) (hfuel : h.size < fuel)
    {k : NodeType} (hk : Document.childTypeAllowed h fuel d k = some true) :
    AllowedAlone ((ch d).map h.nodeType) k := by
  unfold Document.childTypeAllowed at hk
  rw [w.childNodes_eq hfuel] at hk
  refine ⟨?_, ?_, fun htype hm => ?_⟩
  · rintro rfl
    simp at hk
  · rintro rfl
    simp at hk
  · have hall : ∀ c ∈ ch d, h.nodeType c ≠ k := by
      rcases htype with rfl | rfl <;> simpa using hk
    obtain ⟨c, hc, hck⟩ := List.mem_map.mp hm
    exact hall c hc hck

/-- The check of a fragment tests each of its children alone. -/
theorem allTypesAllowed_true {cs : List NodeId}
    (hcs : ContainerNode.allTypesAllowed h fuel p cs = some true) :
    ∀ c ∈ cs, ContainerNode.childTypeAllowed h fuel p (h.nodeType c) = some true := by
  induction cs with
  | nil => intro c hc; cases hc
  | cons c cs ih =>
    intro x hx
    simp only [ContainerNode.allTypesAllowed, Option.bind_eq_bind, Option.bind_eq_some_iff] at hcs
    obtain ⟨b, hb, hrest⟩ := hcs
    cases b with
    | false => simp at hrest
    | true =>
      rcases List.mem_cons.mp hx with rfl | hx
      · exact hb
      · exact ih hrest x hx

/-- **What passes the checks in front of an insertion into a document is allowed, node by
node.** -/
theorem allowed_of_validity {next old : Option NodeId} (w : WellFormed h ch)
    (hfuel : h.size < fuel) (hd : h.nodeType d = .document)
    (hval : ContainerNode.ensurePreInsertionValidity h fuel d n next old = some none) :
    ∀ c ∈ collected h ch n, AllowedAlone ((ch d).map h.nodeType) (h.nodeType c) := by
  have hnelt : h.isElementNode d = false := by simp [Heap.isElementNode, hd]
  have htype : ContainerNode.isChildTypeAllowed h fuel d n = some true := by
    unfold ContainerNode.ensurePreInsertionValidity at hval
    simp only [hnelt, Bool.and_false, Bool.false_eq_true, if_false, Option.bind_eq_bind,
      Option.bind_eq_some_iff] at hval
    obtain ⟨b, -, hval⟩ := hval
    cases b with
    | true => simp at hval
    | false =>
      cases href : checkReferenceChildParent h d next old with
      | some e => simp [href] at hval
      | none =>
        simp only [href, Bool.false_eq_true, if_false, Option.bind_eq_some_iff] at hval
        obtain ⟨b', hb', hval⟩ := hval
        cases b' with
        | true => exact hb'
        | false => simp at hval
  have hdoc : ∀ k, ContainerNode.childTypeAllowed h fuel d k =
      Document.childTypeAllowed h fuel d k := fun k => by
    simp [ContainerNode.childTypeAllowed, hd]
  intro c hc
  refine allowed_of_childTypeAllowed w hfuel ?_
  rw [← hdoc]
  unfold ContainerNode.isChildTypeAllowed at htype
  by_cases hfrag : h.isDocumentFragment n = true
  · rw [if_pos hfrag, w.childNodes_eq hfuel] at htype
    exact allTypesAllowed_true htype c (by simpa [targets, hfrag] using hc)
  · rw [if_neg hfrag] at htype
    obtain rfl : c = n := by simpa [targets, hfrag] using hc
    exact htype

/-! ## The parser's check -/

/-- Without a reference node the first loop of `CanAcceptChild` counts, and sets no flag. -/
theorem foldl_childCount (h : Heap) (cs : List NodeId) (elements doctypes : Nat) :
    cs.foldl (Document.ChildCount.add h none none)
        { numElements := elements, numDoctypes := doctypes } =
      { numElements := elements + (cs.map h.nodeType).count .element
        numDoctypes := doctypes + (cs.map h.nodeType).count .documentType } := by
  induction cs generalizing elements doctypes with
  | nil => rfl
  | cons c cs ih =>
    rw [List.foldl_cons, List.map_cons]
    cases hc : h.nodeType c <;>
      simp only [Document.ChildCount.add, hc, reduceCtorEq, if_false] <;>
      rw [ih] <;>
      simp <;>
      omega

theorem onlyOne_none {k : Document.ChildCount} (hk : Document.onlyOne k = none) :
    k.numElements ≤ 1 ∧ k.numDoctypes ≤ 1 := by
  unfold Document.onlyOne at hk
  split at hk
  · cases hk
  · omega

/-- What `CanAcceptChild` lets the parser append is no text, an element only when there is none,
and a doctype only when there is neither an element nor a doctype. -/
theorem canAcceptChild_append (w : WellFormed h ch) (hfuel : h.size < fuel)
    (hacc : Document.canAcceptChild h fuel d n none none = some none) :
    AllowedAlone ((ch d).map h.nodeType) (h.nodeType n) ∧
      (h.nodeType n = .documentType → .element ∉ (ch d).map h.nodeType) := by
  unfold Document.canAcceptChild at hacc
  simp only [Option.any_none, Bool.false_eq_true, if_false, w.childNodes_eq hfuel,
    Option.bind_eq_bind, Option.bind_some, foldl_childCount] at hacc
  unfold AllowedAlone
  by_cases hfrag : h.isDocumentFragment n = true
  · have hn : h.nodeType n = .documentFragment := by
      simpa [Heap.isDocumentFragment] using hfrag
    simp [hn]
  · rw [if_neg hfrag] at hacc
    cases hn : h.nodeType n <;>
      simp only [hn, Option.pure_def, Option.some.injEq, reduceCtorEq, Bool.not_false,
        and_true] at hacc <;>
      simp only [ne_eq, reduceCtorEq, not_false_eq_true, false_or, or_false, true_and, or_self,
        false_implies, true_implies, and_self, and_true]
    · have hcount := (onlyOne_none hacc).1
      exact List.count_eq_zero.mp (by simpa using hcount)
    · split at hacc
      · cases hacc
      · rename_i hnone
        have hcount : 0 + ((ch d).map h.nodeType).count .documentType + 1 ≤ 1 :=
          (onlyOne_none (Option.some.inj hacc)).2
        exact ⟨List.count_eq_zero.mp (by omega), List.count_eq_zero.mp (by omega)⟩

/-- **The parser asks `CanAcceptChild`, and what it appends to a document keeps the
constraints.** -/
theorem parser_keeps_constraints (w : WellFormed h ch) (hfuel : h.size < fuel)
    (hdoc : h.document d = d) (c : ChildConstraints ((ch d).map h.nodeType))
    (hacc : ContainerNode.checkParserAcceptChild h fuel d n = some true) :
    ChildConstraints ((ch d ++ [n]).map h.nodeType) := by
  have hcan : Document.canAcceptChild h fuel d n none none = some none := by
    simpa [ContainerNode.checkParserAcceptChild, ContainerNode.parserChildException,
      Heap.isDocumentNode, hdoc] using hacc
  obtain ⟨hallowed, hfirst⟩ := canAcceptChild_append w hfuel hcan
  have hold : ChildConstraints ((ch d).map h.nodeType ++ []) := by rwa [List.append_nil]
  have hsub : ∀ k ∈ (ch d).map h.nodeType ++ [], k ∈ (ch d).map h.nodeType :=
    fun k hk => by rwa [List.append_nil] at hk
  have hnew : ∀ k ∈ [h.nodeType n], AllowedAlone ((ch d).map h.nodeType) k :=
    fun k hk => by rw [List.mem_singleton.mp hk]; exact hallowed
  have hkinds := (constraints_insert_iff hold hsub hnew).mpr
    { oneElement := List.count_le_length
      oneDoctype := List.count_le_length
      doctypeFirst := List.pairwise_singleton _ _
      noElementInFront := fun hk => hfirst (List.mem_singleton.mp hk).symm
      noDoctypeBehind := fun _ => List.not_mem_nil }
  simpa using hkinds

end Blinkit.Dom
