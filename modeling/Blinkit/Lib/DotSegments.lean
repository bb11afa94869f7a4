import Mathlib.Data.List.Basic

/-!
# Removing dot segments

A path is a list of segments of which the last one names a file and the others name directories.
Some segments stay in the directory that is reached (`isCur`), some go up from it (`isUp`).

* `descend` — one segment, from a stack of directories.
* `clean` — the directories that a list of segments leads to.
* `remove` — the path that is left of a path when it is followed from a stack of directories.
* `reach` — the same without knowing the stack: how far the path climbs above it and what it adds.

Principal results: `remove_append`, `remove_eq` and `clean_agrees_iff`.
-/

set_option autoImplicit false

namespace DotSegments

universe u

variable {σ : Type u} (isCur isUp : σ → Bool) (blank : σ)

/-- A segment that names no directory of its own. -/
def isDots (x : σ) : Bool := isCur x || isUp x

/-- The directories after one segment. -/
def descend (dirs : List σ) (x : σ) : List σ :=
  if isCur x = true then dirs else if isUp x = true then dirs.dropLast else dirs ++ [x]

/-- The directories that a list of segments leads to. -/
def clean (dirs xs : List σ) : List σ := xs.foldl (descend isCur isUp) dirs

/-- The path that is left of a path; a dot segment at its end leaves a `blank` file. -/
def remove (dirs : List σ) : List σ → List σ
  | [] => dirs
  | [x] => if isDots isCur isUp x = true then descend isCur isUp dirs x ++ [blank] else dirs ++ [x]
  | x :: y :: rest => remove (descend isCur isUp dirs x) (y :: rest)

/-- **A path behind a path** is followed from the directories that the first one leads to. -/
theorem remove_append (dirs ds : List σ) {xs : List σ} (hxs : xs ≠ []) :
    remove isCur isUp blank dirs (ds ++ xs) =
      remove isCur isUp blank (clean isCur isUp dirs ds) xs := by
  induction ds generalizing dirs with
  | nil => rfl
  | cons d ds ih =>
    obtain ⟨y, ys, hy⟩ := List.exists_cons_of_ne_nil (List.append_ne_nil_of_right_ne_nil ds hxs)
    rw [List.cons_append, hy, remove, ← hy, ih]
    rfl

theorem descend_sublist (dirs : List σ) (x : σ) :
    (descend isCur isUp dirs x).Sublist (dirs ++ [x]) := by
  unfold descend
  split
  · exact List.sublist_append_left dirs [x]
  · split
    · exact (List.dropLast_sublist dirs).trans (List.sublist_append_left dirs [x])
    · exact List.Sublist.refl _

theorem clean_sublist (dirs ds : List σ) : (clean isCur isUp dirs ds).Sublist (dirs ++ ds) := by
  induction ds generalizing dirs with
  | nil => exact List.sublist_append_left dirs []
  | cons d ds ih =>
    have hstep := (descend_sublist isCur isUp dirs d).append_right ds
    rw [List.append_assoc] at hstep
    exact (ih (descend isCur isUp dirs d)).trans hstep

/-- What is left comes from the directories and the path, but for the blank file. -/
theorem remove_sublist (dirs xs : List σ) :
    (remove isCur isUp blank dirs xs).Sublist (dirs ++ (xs ++ [blank])) := by
  induction xs generalizing dirs with
  | nil => exact List.sublist_append_left dirs [blank]
  | cons x xs ih =>
    cases xs with
    | nil =>
      rw [remove]
      split
      · have hstep := (descend_sublist isCur isUp dirs x).append_right [blank]
        rwa [List.append_assoc] at hstep
      · exact List.Sublist.append_left (List.sublist_append_left [x] [blank]) dirs
    | cons y ys =>
      have hstep := (descend_sublist isCur isUp dirs x).append_right (y :: ys ++ [blank])
      rw [List.append_assoc] at hstep
      exact (ih (descend isCur isUp dirs x)).trans hstep

theorem remove_ne_nil (dirs : List σ) {xs : List σ} (hxs : xs ≠ []) :
    remove isCur isUp blank dirs xs ≠ [] := by
  induction xs generalizing dirs with
  | nil => exact absurd rfl hxs
  | cons x xs ih =>
    cases xs with
    | nil =>
      rw [remove]
      split <;> exact List.append_ne_nil_of_right_ne_nil _ (List.cons_ne_nil _ _)
    | cons y ys => exact ih _ (List.cons_ne_nil y ys)

/-! ## Climbing -/

/-- One segment: how far the path has climbed so far, and the directories that it has added. -/
def enter (s : Nat × List σ) (x : σ) : Nat × List σ :=
  if isCur x = true then s
  else if isUp x = true then
    match s.2 with
    | [] => (s.1 + 1, [])
    | _ :: _ => (s.1, s.2.dropLast)
  else (s.1, s.2 ++ [x])

/-- A whole path. -/
def reach (s : Nat × List σ) : List σ → Nat × List σ
  | [] => s
  | [x] =>
    if isDots isCur isUp x = true then
      ((enter isCur isUp s x).1, (enter isCur isUp s x).2 ++ [blank])
    else (s.1, s.2 ++ [x])
  | x :: y :: rest => reach (enter isCur isUp s x) (y :: rest)

/-- How far a path climbs above the directory from which it is followed. -/
def climb (xs : List σ) : Nat := (reach isCur isUp blank (0, []) xs).1

/-- What is left of a path behind the directories that it does not climb. -/
def own (xs : List σ) : List σ := (reach isCur isUp blank (0, []) xs).2

/-- A stack of directories, climbed and added to. -/
def after (dirs : List σ) (s : Nat × List σ) : List σ := dirs.take (dirs.length - s.1) ++ s.2

theorem descend_after (dirs : List σ) (s : Nat × List σ) (x : σ) :
    descend isCur isUp (after dirs s) x = after dirs (enter isCur isUp s x) := by
  unfold descend enter
  split
  · rfl
  · split
    · obtain ⟨k, added⟩ := s
      cases added with
      | nil =>
        unfold after
        rw [List.append_nil, List.append_nil, List.dropLast_eq_take, List.length_take,
          List.take_take]
        congr 1
        simp only []
        omega
      | cons a added =>
        unfold after
        rw [List.dropLast_append_of_ne_nil (List.cons_ne_nil a added)]
    · unfold after
      rw [List.append_assoc]

/-- **What is left of a path** is what it does not climb of the directories, and what it adds. -/
theorem remove_after (dirs : List σ) (s : Nat × List σ) (xs : List σ) :
    remove isCur isUp blank (after dirs s) xs = after dirs (reach isCur isUp blank s xs) := by
  induction xs generalizing s with
  | nil => rfl
  | cons x xs ih =>
    cases xs with
    | nil =>
      rw [remove, reach, descend_after]
      split
      · unfold after
        rw [List.append_assoc]
      · unfold after
        rw [List.append_assoc]
    | cons y ys => rw [remove, reach, descend_after, ih]

theorem remove_eq (dirs xs : List σ) :
    remove isCur isUp blank dirs xs =
      dirs.take (dirs.length - climb isCur isUp blank xs) ++ own isCur isUp blank xs := by
  have h := remove_after isCur isUp blank dirs (0, []) xs
  have hnone : after dirs (0, []) = dirs := by
    unfold after
    rw [Nat.sub_zero, List.take_length, List.append_nil]
  rw [hnone] at h
  exact h

theorem own_eq (xs : List σ) : own isCur isUp blank xs = remove isCur isUp blank [] xs := by
  rw [remove_eq, List.take_nil, List.nil_append]

/-! ## Directories with dot segments -/

theorem clean_of_plain (dirs : List σ) {ds : List σ} (h : ∀ x ∈ ds, isDots isCur isUp x = false) :
    clean isCur isUp dirs ds = dirs ++ ds := by
  induction ds generalizing dirs with
  | nil => exact (List.append_nil dirs).symm
  | cons d ds ih =>
    have hd := h d List.mem_cons_self
    unfold isDots at hd
    rw [Bool.or_eq_false_iff] at hd
    have hstep : descend isCur isUp dirs d = dirs ++ [d] := by
      unfold descend
      rw [if_neg (by rw [hd.1]; exact Bool.false_ne_true),
        if_neg (by rw [hd.2]; exact Bool.false_ne_true)]
    show clean isCur isUp (descend isCur isUp dirs d) ds = _
    rw [hstep, ih (dirs ++ [d]) (fun x hx => h x (List.mem_cons_of_mem d hx)), List.append_assoc]
    rfl

theorem clean_length_le (dirs ds : List σ) :
    (clean isCur isUp dirs ds).length ≤ dirs.length + ds.length := by
  rw [← List.length_append]
  exact (clean_sublist isCur isUp dirs ds).length_le

/-- A dot segment adds no directory. -/
theorem clean_length_lt (dirs : List σ) {ds : List σ} (h : ¬∀ x ∈ ds, isDots isCur isUp x = false) :
    (clean isCur isUp dirs ds).length < dirs.length + ds.length := by
  induction ds generalizing dirs with
  | nil => exact absurd (List.forall_mem_nil _) h
  | cons d ds ih =>
    rw [List.length_cons]
    show (clean isCur isUp (descend isCur isUp dirs d) ds).length < _
    by_cases hd : isDots isCur isUp d = false
    · have hrest : ¬∀ x ∈ ds, isDots isCur isUp x = false := by
        intro hall
        refine h fun x hx => ?_
        rcases List.mem_cons.mp hx with rfl | hx
        · exact hd
        · exact hall x hx
      have hstep := (descend_sublist isCur isUp dirs d).length_le
      rw [List.length_append, List.length_singleton] at hstep
      have hlt := ih (descend isCur isUp dirs d) hrest
      omega
    · have hstep : (descend isCur isUp dirs d).length ≤ dirs.length := by
        unfold isDots at hd
        rw [Bool.or_eq_false_iff, not_and_or, Bool.not_eq_false, Bool.not_eq_false] at hd
        unfold descend
        split
        · exact Nat.le_refl _
        · rename_i hcur
          rw [if_pos (hd.resolve_left hcur), List.length_dropLast]
          omega
      have hle := clean_length_le isCur isUp (descend isCur isUp dirs d) ds
      omega

/-- Directories that were never cleaned serve as well when they hold no dot segment, or when all of
them are climbed. -/
def Serves (ds : List σ) (k : Nat) : Prop :=
  (∀ x ∈ ds, isDots isCur isUp x = false) ∨ ds.length ≤ k

theorem take_clean {ds : List σ} {k : Nat} (h : Serves isCur isUp ds k) :
    (clean isCur isUp [] ds).take ((clean isCur isUp [] ds).length - k) =
      ds.take (ds.length - k) := by
  rcases h with h | h
  · rw [clean_of_plain isCur isUp [] h]
    rfl
  · have hle := clean_length_le isCur isUp [] ds
    rw [List.length_nil] at hle
    have h1 : (clean isCur isUp [] ds).length - k = 0 := by omega
    have h2 : ds.length - k = 0 := by omega
    rw [h1, h2]
    rfl

/-- **Directories that do not serve** leave a longer path. -/
theorem clean_agrees_iff (ds : List σ) (k : Nat) :
    Serves isCur isUp ds k ↔
      ds.length - k = (clean isCur isUp [] ds).length - k := by
  constructor
  · intro h
    have htake := congrArg List.length (take_clean isCur isUp h)
    rw [List.length_take, List.length_take] at htake
    omega
  · intro h
    by_contra hnot
    unfold Serves at hnot
    rw [not_or] at hnot
    have hlt := clean_length_lt isCur isUp [] hnot.1
    rw [List.length_nil] at hlt
    omega

end DotSegments
