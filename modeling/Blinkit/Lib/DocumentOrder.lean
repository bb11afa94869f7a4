import Blinkit.Lib.Ancestry

/-!
# Stepping through a tree in document order

* `nextSkippingChildren first next parent stay rounds x` — what comes behind the subtree of `x`
  inside the tree of `stay`: the next sibling of `x`, or of the first ancestor that has one.
* `nextWithin` — what comes behind `x`: its first child, or else what is behind its subtree.
* `nextInTree` — the same without a `stay` to stop at.

* `StepsThrough step xs` — `step` goes from each member of `xs` to the one behind it.
* `seek p step rounds start` — the loop that steps on until `p` holds.
* `foldSteps step f rounds start b` — the loop that steps on to the end, with an accumulator.

Principal results: `nextWithin_of_preorder` (the steps visit `preorder`, one member after another),
`nextSkippingChildren_of_visit` (what the step that skips the children leaves out), `seek_spec`,
`foldSteps_spec` and `StepsThrough.filter`; `preorder_agree` and `preorder_sublist`
compare the visits of two forests, `preorder_within` two visits of one.
-/

set_option autoImplicit false

namespace LinkedForest

variable {ι : Type*}

section Steps

variable [DecidableEq ι] (first next parent : ι → Option ι) (stay : ι)

/-- The loop over the ancestors. -/
def nextAncestorSibling : Nat → Option ι → Option (Option ι)
  | _, none => some none
  | 0, some _ => none
  | rounds + 1, some p =>
    if p = stay then some none
    else
      match next p with
      | some sibling => some (some sibling)
      | none => nextAncestorSibling rounds (parent p)

def nextSkippingChildren (rounds : Nat) (x : ι) : Option (Option ι) :=
  if x = stay then some none
  else
    match next x with
    | some sibling => some (some sibling)
    | none => nextAncestorSibling next parent stay rounds (parent x)

def nextWithin (rounds : Nat) (x : ι) : Option (Option ι) :=
  match first x with
  | some child => some (some child)
  | none => nextSkippingChildren next parent stay rounds x

/-- The loop over the ancestors, up to the root. -/
def ancestorSiblingInTree : Nat → Option ι → Option (Option ι)
  | _, none => some none
  | 0, some _ => none
  | rounds + 1, some p =>
    match next p with
    | some sibling => some (some sibling)
    | none => ancestorSiblingInTree rounds (parent p)

def nextSkippingChildrenInTree (rounds : Nat) (x : ι) : Option (Option ι) :=
  match next x with
  | some sibling => some (some sibling)
  | none => ancestorSiblingInTree next parent rounds (parent x)

def nextInTree (rounds : Nat) (x : ι) : Option (Option ι) :=
  match first x with
  | some child => some (some child)
  | none => nextSkippingChildrenInTree next parent rounds x

end Steps

section Steps

variable [DecidableEq ι] {first next parent : ι → Option ι} {stay : ι}

theorem nextAncestorSibling_mono {rounds rounds' : Nat} {o : Option ι} {r : Option ι}
    (hle : rounds ≤ rounds') (h : nextAncestorSibling next parent stay rounds o = some r) :
    nextAncestorSibling next parent stay rounds' o = some r := by
  induction rounds generalizing rounds' o with
  | zero =>
    cases o with
    | none => cases h; cases rounds' <;> rfl
    | some p => cases h
  | succ rounds ih =>
    obtain ⟨rounds', rfl⟩ : ∃ k, rounds' = k + 1 := ⟨rounds' - 1, by omega⟩
    cases o with
    | none => exact h
    | some p =>
      unfold nextAncestorSibling at h ⊢
      split at h
      · rename_i hp
        rwa [if_pos hp]
      · rename_i hp
        rw [if_neg hp]
        cases hnext : next p with
        | some sibling => simpa only [hnext] using h
        | none =>
          simp only [hnext] at h ⊢
          exact ih (by omega) h

theorem nextSkippingChildren_mono {rounds rounds' : Nat} {x : ι} {r : Option ι}
    (hle : rounds ≤ rounds') (h : nextSkippingChildren next parent stay rounds x = some r) :
    nextSkippingChildren next parent stay rounds' x = some r := by
  unfold nextSkippingChildren at h ⊢
  split at h
  · rename_i hx
    rwa [if_pos hx]
  · rename_i hx
    rw [if_neg hx]
    cases hnext : next x with
    | some sibling => simpa only [hnext] using h
    | none =>
      simp only [hnext] at h ⊢
      exact nextAncestorSibling_mono hle h

/-! A root has no sibling: to stop there is to stop where the links end. -/

theorem ancestorSiblingInTree_eq (hnext : next stay = none) (hparent : parent stay = none)
    (rounds : Nat) (o : Option ι) : ancestorSiblingInTree next parent rounds o =
      nextAncestorSibling next parent stay rounds o := by
  induction rounds generalizing o with
  | zero => cases o <;> rfl
  | succ rounds ih =>
    cases o with
    | none => rfl
    | some p =>
      unfold ancestorSiblingInTree nextAncestorSibling
      split
      · rename_i sibling hp
        have hne : p ≠ stay := by
          rintro rfl
          rw [hnext] at hp
          cases hp
        rw [if_neg hne]
      · rename_i hp
        rw [ih]
        split
        · rename_i heq
          rw [heq, hparent]
          cases rounds <;> rfl
        · rfl

theorem nextSkippingChildrenInTree_eq (hnext : next stay = none) (hparent : parent stay = none)
    (rounds : Nat) (x : ι) : nextSkippingChildrenInTree next parent rounds x =
      nextSkippingChildren next parent stay rounds x := by
  unfold nextSkippingChildrenInTree nextSkippingChildren
  rw [ancestorSiblingInTree_eq hnext hparent]
  split
  · rename_i sibling hx
    have hne : x ≠ stay := by
      rintro rfl
      rw [hnext] at hx
      cases hx
    rw [if_neg hne]
  · rename_i hx
    split
    · rename_i heq
      rw [heq, hparent]
      cases rounds <;> rfl
    · rfl

/-- **From a root the steps through the whole tree are the steps within it.** -/
theorem nextInTree_eq (hnext : next stay = none) (hparent : parent stay = none)
    (rounds : Nat) (x : ι) : nextInTree first next parent rounds x =
      nextWithin first next parent stay rounds x := by
  unfold nextInTree nextWithin
  rw [nextSkippingChildrenInTree_eq hnext hparent]

end Steps

/-! ## Lists of lists -/

/-- A member of a concatenation is a member of one of the lists. -/
theorem flatten_split {bs : List (List ι)} {pre post : List ι} {x : ι}
    (h : bs.flatten = pre ++ x :: post) : ∃ bs₁ b bs₂ l₁ l₂, bs = bs₁ ++ b :: bs₂ ∧
      b = l₁ ++ x :: l₂ ∧ pre = bs₁.flatten ++ l₁ ∧ post = l₂ ++ bs₂.flatten := by
  rcases List.flatten_eq_append_iff.mp h with ⟨as, cs, rfl, rfl, hcs⟩ | ⟨as, l₁, y, l₂, cs, rfl, rfl, hxy⟩
  · obtain ⟨ns, b, cs, rfl, hns, rfl⟩ := List.flatten_eq_cons_iff.mp hcs.symm
    refine ⟨as ++ ns, x :: b, cs, [], b, by simp, rfl, ?_, rfl⟩
    rw [List.flatten_append, List.flatten_eq_nil_iff.mpr hns, List.append_nil, List.append_nil]
  · obtain ⟨rfl, rfl⟩ := List.cons_eq_cons.mp hxy
    exact ⟨as, _, cs, l₁, l₂, rfl, rfl, rfl, rfl⟩

theorem forall₂_split {α β : Type*} {R : α → β → Prop} {as : List α} {bs₁ bs₂ : List β} {b : β}
    (h : List.Forall₂ R as (bs₁ ++ b :: bs₂)) :
    ∃ as₁ a as₂, as = as₁ ++ a :: as₂ ∧ R a b ∧ List.Forall₂ R as₂ bs₂ := by
  induction bs₁ generalizing as with
  | nil =>
    cases h with
    | cons hab hrest => exact ⟨[], _, _, rfl, hab, hrest⟩
  | cons c bs₁ ih =>
    cases h with
    | cons hac hrest =>
      obtain ⟨as₁, a, as₂, rfl, hab, hrest'⟩ := ih hrest
      exact ⟨_ :: as₁, a, as₂, rfl, hab, hrest'⟩

/-! ## The visit -/

section Visit

variable {l : Links ι} {ch : ι → List ι} {width fuel : Nat} {root x : ι}

theorem preorder_head {ds : List ι} (hd : preorder l width fuel root = some ds) :
    ds.head? = some root := by
  cases fuel with
  | zero => cases hd
  | succ fuel =>
    simp only [preorder, Option.bind_eq_bind, Option.bind_eq_some_iff] at hd
    obtain ⟨cs, -, below, -, h⟩ := hd
    cases h
    rfl

/-- A visit of siblings starts with the first of them. -/
theorem head_visits {cs : List ι} {below : List (List ι)}
    (h : List.Forall₂ (fun c b => preorder l width fuel c = some b) cs below) :
    below.flatten.head? = cs.head? := by
  cases h with
  | nil => rfl
  | cons hc _ =>
    rw [List.flatten_cons, List.head?_append, preorder_head hc]
    rfl

/-- The visits of siblings share no member. -/
theorem visits_nodup (h : Represents l ch) (hac : Acyclic l.parent)
    (hwidth : ∀ p, (ch p).length ≤ width) {cs : List ι} {below : List (List ι)}
    (hvisits : List.Forall₂ (fun c b => preorder l width fuel c = some b) cs below)
    (hcs : cs.Nodup) (hparent : ∀ c ∈ cs, l.parent c = some root)
    (hbelow : ∀ b ∈ below, b.Nodup) : below.flatten.Nodup := by
  induction hvisits with
  | nil => exact List.nodup_nil
  | @cons c b cs below hc hrest ih =>
    obtain ⟨hcs₁, hcs₂⟩ := List.nodup_cons.mp hcs
    rw [List.flatten_cons, List.nodup_append]
    refine ⟨hbelow b (by simp), ih hcs₂ (fun d hd => hparent d (by simp [hd]))
      (fun b' hb' => hbelow b' (by simp [hb'])), ?_⟩
    rintro x hxb y hy rfl
    obtain ⟨b', hb', hxb'⟩ := List.mem_flatten.mp hy
    obtain ⟨d, hd, hdb'⟩ : ∃ d ∈ cs, preorder l width fuel d = some b' := by
      obtain ⟨i, hi, rfl⟩ := List.mem_iff_getElem.mp hb'
      have hlen := hrest.length_eq
      exact ⟨cs[i], List.getElem_mem _, (List.forall₂_iff_get.mp hrest).2 i (by omega) hi⟩
    have hxc := (mem_preorder h hwidth hc).mp hxb
    have hxd := (mem_preorder h hwidth hdb').mp hxb'
    have hc' := hparent c (by simp)
    have hd' := hparent d (by simp [hd])
    have hne : c ≠ d := fun he => hcs₁ (he ▸ hd)
    rcases hxc.total hxd with hcd | hdc
    · obtain ⟨z, hz, hzd⟩ := (above_iff_head.mp hcd).resolve_left hne
      obtain rfl := Option.some.inj (hc'.symm.trans hz)
      exact hac d root hd' hzd
    · obtain ⟨z, hz, hzc⟩ := (above_iff_head.mp hdc).resolve_left (Ne.symm hne)
      obtain rfl := Option.some.inj (hd'.symm.trans hz)
      exact hac c root hc' hzc

/-- **The visit meets every node once.** -/
theorem preorder_nodup (h : Represents l ch) (hac : Acyclic l.parent)
    (hwidth : ∀ p, (ch p).length ≤ width) {ds : List ι}
    (hd : preorder l width fuel root = some ds) : ds.Nodup := by
  induction fuel generalizing root ds with
  | zero => cases hd
  | succ fuel ih =>
    rw [preorder_succ h (hwidth root), Option.map_eq_some_iff] at hd
    obtain ⟨below, hbelow, rfl⟩ := hd
    have hvisits := mapM_eq_some hbelow
    have hvisit : ∀ b ∈ below, ∃ c ∈ ch root, preorder l width fuel c = some b := by
      intro b hb
      obtain ⟨i, hi, rfl⟩ := List.mem_iff_getElem.mp hb
      have hlen := hvisits.length_eq
      exact ⟨(ch root)[i], List.getElem_mem _,
        (List.forall₂_iff_get.mp hvisits).2 i (by omega) hi⟩
    refine List.nodup_cons.mpr ⟨fun hmem => ?_, ?_⟩
    · obtain ⟨b, hb, hroot⟩ := List.mem_flatten.mp hmem
      obtain ⟨c, hc, hcb⟩ := hvisit b hb
      exact hac c root ((h.mem_iff root c).mp hc) ((mem_preorder h hwidth hcb).mp hroot)
    · refine visits_nodup h hac hwidth hvisits (h.nodup root)
        (fun c hc => (h.mem_iff root c).mp hc) fun b hb => ?_
      obtain ⟨c, -, hcb⟩ := hvisit b hb
      exact ih hcb

theorem forall₂_unique {α β : Type*} {R R' : α → β → Prop} {as : List α} {bs bs' : List β}
    (h : List.Forall₂ R as bs) (h' : List.Forall₂ R' as bs')
    (heq : ∀ a ∈ as, ∀ b b', R a b → R' a b' → b' = b) : bs' = bs := by
  induction h generalizing bs' with
  | nil =>
    cases h'
    rfl
  | cons hab _ ih =>
    cases h' with
    | cons hab' hrest' =>
      rw [heq _ (List.mem_cons_self ..) _ _ hab hab',
        ih hrest' fun a ha => heq a (List.mem_cons_of_mem _ ha)]

/-- **Forests that agree below a node are visited alike there.** -/
theorem preorder_agree {l' : Links ι} {ch' : ι → List ι} {width' fuel' : Nat} {ds ds' : List ι}
    (h : Represents l ch) (h' : Represents l' ch') (hwidth : ∀ p, (ch p).length ≤ width)
    (hwidth' : ∀ p, (ch' p).length ≤ width')
    (hsame : ∀ x, Above l.parent x root → ch' x = ch x)
    (hd : preorder l width fuel root = some ds) (hd' : preorder l' width' fuel' root = some ds') :
    ds' = ds := by
  induction fuel generalizing root ds fuel' ds' with
  | zero => cases hd
  | succ fuel ih =>
    cases fuel' with
    | zero => cases hd'
    | succ fuel' =>
      rw [preorder_succ h (hwidth root), Option.map_eq_some_iff] at hd
      rw [preorder_succ h' (hwidth' root), hsame root (.refl root), Option.map_eq_some_iff] at hd'
      obtain ⟨below, hbelow, rfl⟩ := hd
      obtain ⟨below', hbelow', rfl⟩ := hd'
      have heq : below' = below := by
        refine forall₂_unique (mapM_eq_some hbelow) (mapM_eq_some hbelow') fun c hc b b' hb hb' => ?_
        have hparent := (h.mem_iff root c).mp hc
        exact ih (fun x hx => hsame x (hx.trans (.of_parent hparent))) hb hb'
      rw [heq]

/-- Concatenations of lists that only grow, member by member of a list that only grows. -/
theorem flatten_sublist {α : Type*} {R R' : α → List ι → Prop} {as as' : List α}
    {bs bs' : List (List ι)} (hs : as.Sublist as') (h : List.Forall₂ R as bs)
    (h' : List.Forall₂ R' as' bs')
    (hgrow : ∀ a ∈ as, ∀ b b', R a b → R' a b' → b.Sublist b') :
    bs.flatten.Sublist bs'.flatten := by
  induction hs generalizing bs bs' with
  | slnil =>
    cases h
    exact List.nil_sublist _
  | cons a _ ih =>
    cases h' with
    | cons _ hrest' =>
      rw [List.flatten_cons]
      exact (ih h hrest' hgrow).trans (List.sublist_append_right _ _)
  | cons_cons a _ ih =>
    cases h with
    | cons hab hrest =>
      cases h' with
      | cons hab' hrest' =>
        rw [List.flatten_cons, List.flatten_cons]
        exact (hgrow a (List.mem_cons_self ..) _ _ hab hab').append
          (ih hrest hrest' fun b hb => hgrow b (List.mem_cons_of_mem a hb))

/-- **A forest that has gained children is visited in the same order.** -/
theorem preorder_sublist {l' : Links ι} {ch' : ι → List ι} {width' fuel' : Nat} {ds ds' : List ι}
    (h : Represents l ch) (h' : Represents l' ch') (hwidth : ∀ p, (ch p).length ≤ width)
    (hwidth' : ∀ p, (ch' p).length ≤ width') (hsub : ∀ x, (ch x).Sublist (ch' x))
    (hd : preorder l width fuel root = some ds) (hd' : preorder l' width' fuel' root = some ds') :
    ds.Sublist ds' := by
  induction fuel generalizing root ds fuel' ds' with
  | zero => cases hd
  | succ fuel ih =>
    cases fuel' with
    | zero => cases hd'
    | succ fuel' =>
      rw [preorder_succ h (hwidth root), Option.map_eq_some_iff] at hd
      rw [preorder_succ h' (hwidth' root), Option.map_eq_some_iff] at hd'
      obtain ⟨below, hbelow, rfl⟩ := hd
      obtain ⟨below', hbelow', rfl⟩ := hd'
      exact (flatten_sublist (hsub root) (mapM_eq_some hbelow) (mapM_eq_some hbelow')
        fun c _ b b' hb hb' => ih hb hb').cons_cons root

/-- **The visit of a node is part of the visit of what is above it.** -/
theorem preorder_within {fuel' : Nat} {ds ds' : List ι} (h : Represents l ch)
    (hwidth : ∀ p, (ch p).length ≤ width) (hx : Above l.parent x root)
    (hd : preorder l width fuel root = some ds) (hd' : preorder l width fuel' x = some ds') :
    ds'.Sublist ds := by
  induction fuel generalizing root ds with
  | zero => cases hd
  | succ fuel ih =>
    have hd₀ := hd
    rw [preorder_succ h (hwidth root), Option.map_eq_some_iff] at hd
    obtain ⟨below, hbelow, rfl⟩ := hd
    rcases above_iff_tail.mp hx with rfl | ⟨c, hxc, hc⟩
    · rw [preorder_agree h h hwidth hwidth (fun _ _ => rfl) hd₀ hd']
    · obtain ⟨b, hb, hcb⟩ : ∃ b ∈ below, preorder l width fuel c = some b := by
        have hvisits := mapM_eq_some hbelow
        obtain ⟨i, hi, rfl⟩ := List.mem_iff_getElem.mp ((h.mem_iff root c).mpr hc)
        have hlen := hvisits.length_eq
        exact ⟨below[i], List.getElem_mem _, (List.forall₂_iff_get.mp hvisits).2 i hi (by omega)⟩
      exact ((ih hxc hcb).trans (List.sublist_flatten_of_mem hb)).trans (List.sublist_cons_self _ _)

variable [DecidableEq ι]

/-- From a member of the visit of `root` the visit goes on with what is below it. The step that skips
this goes behind it, or to `o` behind the visit of `root`. -/
theorem nextSkippingChildren_of_visit (h : Represents l ch) (hac : Acyclic l.parent)
    (hwidth : ∀ p, (ch p).length ≤ width) {stay : ι} {pre post : List ι}
    (hd : preorder l width fuel root = some (pre ++ x :: post)) (hstay : Above l.parent root stay)
    {rounds : Nat} {o : Option ι}
    (ho : nextSkippingChildren l.next l.parent stay rounds root = some o) {rounds' : Nat}
    (hr : rounds + fuel ≤ rounds') :
    ∃ below behind, post = below ++ behind ∧
      (∃ fuel', preorder l width fuel' x = some (x :: below)) ∧
      nextSkippingChildren l.next l.parent stay rounds' x = some (behind.head?.or o) := by
  induction fuel generalizing root pre post rounds o with
  | zero => cases hd
  | succ fuel ih =>
    have hvisit := hd
    rw [preorder_succ h (hwidth root), Option.map_eq_some_iff] at hd
    obtain ⟨visits, hvisits, hcons⟩ := hd
    have hvisits := mapM_eq_some hvisits
    cases pre with
    | nil =>
      -- the root of the visit
      obtain ⟨rfl, -⟩ := List.cons_eq_cons.mp hcons
      exact ⟨post, [], (List.append_nil _).symm, ⟨fuel + 1, hvisit⟩,
        nextSkippingChildren_mono (by omega) ho⟩
    | cons y pre =>
      obtain ⟨-, hflat⟩ := List.cons_eq_cons.mp hcons
      obtain ⟨bs₁, b, bs₂, l₁, l₂, rfl, rfl, -, rfl⟩ := flatten_split hflat
      obtain ⟨cs₁, c, cs₂, hcs, hc, hrest⟩ := forall₂_split hvisits
      have hparent : l.parent c = some root := (h.mem_iff root c).mp (by rw [hcs]; simp)
      have hne : c ≠ stay := by
        rintro rfl
        exact hac c root hparent hstay
      have hskip : nextSkippingChildren l.next l.parent stay (rounds + 1) c =
          some (cs₂.head?.or o) := by
        rw [nextSkippingChildren, if_neg hne, h.next_eq hcs]
        cases cs₂ with
        | cons d cs₂ => rfl
        | nil =>
          simp only [List.head?_nil, Option.none_or, hparent, nextAncestorSibling]
          exact ho
      obtain ⟨below, behind, rfl, hbelow, hnext⟩ :=
        ih hc ((Above.of_parent hparent).trans hstay) hskip (by omega)
      refine ⟨below, behind ++ bs₂.flatten, List.append_assoc .., hbelow, ?_⟩
      rw [hnext, List.head?_append, head_visits hrest, Option.or_assoc]

/-- The step from a member of the visit of `root`, when `o` comes behind that visit. -/
theorem nextWithin_of_visit (h : Represents l ch) (hac : Acyclic l.parent)
    (hwidth : ∀ p, (ch p).length ≤ width) {stay : ι} {pre post : List ι}
    (hd : preorder l width fuel root = some (pre ++ x :: post)) (hstay : Above l.parent root stay)
    {rounds : Nat} {o : Option ι}
    (ho : nextSkippingChildren l.next l.parent stay rounds root = some o) {rounds' : Nat}
    (hr : rounds + fuel ≤ rounds') :
    nextWithin l.first l.next l.parent stay rounds' x = some (post.head?.or o) := by
  obtain ⟨below, behind, rfl, ⟨fuel', hbelow⟩, hskip⟩ :=
    nextSkippingChildren_of_visit h hac hwidth hd hstay ho hr
  have hfirst : l.first x = below.head? := by
    cases fuel' with
    | zero => cases hbelow
    | succ fuel' =>
      rw [preorder_succ h (hwidth x), Option.map_eq_some_iff] at hbelow
      obtain ⟨visits, hvisits, hcons⟩ := hbelow
      rw [← (List.cons_eq_cons.mp hcons).2, head_visits (mapM_eq_some hvisits), h.first_eq]
  rw [nextWithin, hfirst]
  cases below with
  | nil => exact hskip
  | cons c below => rfl

end Visit

/-! ## Loops that look for a node -/

/-- `step` goes from each member of the list to the one behind it. -/
def StepsThrough (step : ι → Option (Option ι)) (xs : List ι) : Prop :=
  ∀ (k : Nat) (x : ι), xs[k]? = some x → step x = some xs[k + 1]?

/-- The loop `while (n && !p(n)) n = step(n)`; `none` when out of rounds. -/
def seek (p : ι → Bool) (step : ι → Option (Option ι)) : Nat → Option ι → Option (Option ι)
  | _, none => some none
  | 0, some _ => none
  | rounds + 1, some n =>
    if p n then some (some n) else do seek p step rounds (← step n)

/-- The loop `for (; n; n = step(n)) b = f(b, n)`; `none` when out of rounds. -/
def foldSteps {β : Type*} (step : ι → Option (Option ι)) (f : β → ι → β) :
    Nat → Option ι → β → Option β
  | _, none, b => some b
  | 0, some _, _ => none
  | rounds + 1, some n, b => (step n).bind fun next => foldSteps step f rounds next (f b n)

section Seek

variable {p : ι → Bool} {step step' : ι → Option (Option ι)} {xs : List ι} {rounds : Nat}

/-- **The steps inside the tree of `root` visit `preorder`.** -/
theorem nextWithin_of_preorder [DecidableEq ι] {l : Links ι} {ch : ι → List ι} {width fuel : Nat}
    {root : ι} {ds : List ι} (h : Represents l ch) (hac : Acyclic l.parent)
    (hwidth : ∀ p, (ch p).length ≤ width) (hd : preorder l width fuel root = some ds)
    (hr : fuel ≤ rounds) :
    StepsThrough (nextWithin l.first l.next l.parent root rounds) ds := by
  intro k x hx
  obtain ⟨hk, hget⟩ := List.getElem?_eq_some_iff.mp hx
  have hsplit : ds = ds.take k ++ x :: ds.drop (k + 1) := by
    rw [← hget, ← List.drop_eq_getElem_cons hk, List.take_append_drop]
  have hend : nextSkippingChildren l.next l.parent root 0 root = some none := if_pos rfl
  rw [hsplit] at hd
  rw [nextWithin_of_visit h hac hwidth hd (.refl root) hend (by omega), Option.or_none,
    List.head?_drop]

theorem StepsThrough.tail (h : StepsThrough step xs) : StepsThrough step xs.tail := by
  intro k x hx
  rw [List.getElem?_tail] at hx ⊢
  exact h (k + 1) x hx

/-- The loop finds the first member, from its start on, that it looks for. -/
theorem seek_spec (h : ∀ (k : Nat) (x : ι), xs[k]? = some x → p x = false → step x = some xs[k + 1]?)
    {k : Nat} (hrounds : xs.length ≤ k + rounds) :
    seek p step rounds xs[k]? = some ((xs.drop k).find? p) := by
  induction rounds generalizing k with
  | zero =>
    have hend : xs.length ≤ k := hrounds
    rw [List.getElem?_eq_none hend, List.drop_of_length_le hend]
    rfl
  | succ rounds ih =>
    cases hx : xs[k]? with
    | none => rw [List.drop_of_length_le (List.getElem?_eq_none_iff.mp hx)]; rfl
    | some x =>
      have hdrop : xs.drop k = x :: xs.drop (k + 1) := by
        obtain ⟨hk, hget⟩ := List.getElem?_eq_some_iff.mp hx
        rw [List.drop_eq_getElem_cons hk, hget]
      rw [seek, hdrop]
      by_cases hp : p x = true
      · rw [if_pos hp, List.find?_cons_of_pos hp]
      · rw [if_neg hp, List.find?_cons_of_neg hp, h k x hx (by simpa using hp)]
        exact ih (by omega)

/-- The loop that starts at the rest of the list. -/
theorem seek_behind {l r : List ι} (h : ∀ (k : Nat) (x : ι), (l ++ r)[k]? = some x → p x = false →
    step x = some (l ++ r)[k + 1]?) (hrounds : r.length ≤ rounds) :
    seek p step rounds r.head? = some (r.find? p) := by
  have hseek : seek p step rounds (l ++ r)[l.length]? = some (((l ++ r).drop l.length).find? p) :=
    seek_spec h (by rw [List.length_append]; omega)
  rwa [List.getElem?_append_right (Nat.le_refl _), Nat.sub_self, ← List.head?_eq_getElem?,
    List.drop_left] at hseek

/-- From a member of the list `step` goes to what is behind it. -/
theorem StepsThrough.step_eq {l r : List ι} {x : ι} (h : StepsThrough step (l ++ x :: r)) :
    step x = some r.head? := by
  have hstep := h l.length x (by simp)
  rw [hstep, List.getElem?_append_right (Nat.le_succ _), List.head?_eq_getElem?,
    show l.length + 1 - l.length = 1 by omega]
  rfl

/-- **The loop with an accumulator folds over what is left of the list.** -/
theorem foldSteps_spec {β : Type*} (f : β → ι → β) {l r : List ι} (h : StepsThrough step (l ++ r))
    (hrounds : r.length ≤ rounds) (b : β) :
    foldSteps step f rounds r.head? b = some (r.foldl f b) := by
  induction r generalizing l rounds b with
  | nil => rw [List.head?_nil, foldSteps, List.foldl_nil]
  | cons x r ih =>
    obtain ⟨rounds, rfl⟩ : ∃ k, rounds = k + 1 := ⟨rounds - 1, by simp at hrounds; omega⟩
    have hassoc : l ++ x :: r = (l ++ [x]) ++ r := by simp
    rw [List.head?_cons, foldSteps, h.step_eq, Option.bind_some, List.foldl_cons]
    rw [hassoc] at h
    exact ih h (by simpa using hrounds) (f b x)

/-- The members of a filtered list, by their places in the list. -/
theorem filter_place {k : Nat} {x : ι} (h : (xs.filter p)[k]? = some x) :
    ∃ i, xs[i]? = some x ∧ (xs.drop (i + 1)).filter p = (xs.filter p).drop (k + 1) := by
  induction xs generalizing k with
  | nil => simp at h
  | cons a xs ih =>
    by_cases ha : p a = true
    · rw [List.filter_cons_of_pos ha] at h ⊢
      cases k with
      | zero =>
        obtain rfl : a = x := by simpa using h
        exact ⟨0, rfl, rfl⟩
      | succ k =>
        obtain ⟨i, hi, hdrop⟩ := ih (by simpa using h)
        exact ⟨i + 1, by simpa using hi, by simpa using hdrop⟩
    · rw [List.filter_cons_of_neg ha] at h ⊢
      obtain ⟨i, hi, hdrop⟩ := ih h
      exact ⟨i + 1, by simpa using hi, by simpa using hdrop⟩

/-- **Stepping on and then looking for a member steps through the filtered list.** -/
theorem StepsThrough.filter (h : StepsThrough step xs)
    (h' : ∀ (k : Nat) (x : ι), xs[k]? = some x → p x = false → step' x = some xs[k + 1]?)
    (hrounds : xs.length ≤ rounds) :
    StepsThrough (fun x => (step x).bind (seek p step' rounds)) (xs.filter p) := by
  intro k x hx
  obtain ⟨i, hi, hdrop⟩ := filter_place hx
  simp only [h i x hi, Option.bind_some]
  rw [seek_spec h' (by omega), ← List.head?_filter, hdrop, List.head?_drop]

end Seek

end LinkedForest
