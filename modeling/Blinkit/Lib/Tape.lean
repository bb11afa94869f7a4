import Mathlib.Data.List.Basic

/-!
# A text that is written to while it is read

* `Tape` : the text, how much of it has been read, and the insertion points, the innermost first
* `receive`, `consume`, `enter`, `insert`, `leave` : text comes at the end, text is read, a new
  insertion point is set where the reading stands, text is put there, and the insertion point is
  given up
* `ofSegments` : the tape of a text that is kept in pieces cut at the insertion points
* `Within t₀ t` : since `t₀` an insertion point was set, and it is still there

Principal results: `ofSegments_insert`, `ofSegments_leave`, `Within.insert`, `Within.leave`.
-/

set_option autoImplicit false

namespace Blinkit.Lib

universe u

structure Tape (α : Type u) where
  text : List α
  cursor : Nat
  points : List Nat

namespace Tape

variable {α : Type u}

def receive (t : Tape α) (l : List α) : Tape α := { t with text := t.text ++ l }

def consume (t : Tape α) (n : Nat) : Tape α := { t with cursor := t.cursor + n }

def enter (t : Tape α) : Tape α := { t with points := t.cursor :: t.points }

/-- Text at the innermost insertion point, which moves behind it. -/
def insert (t : Tape α) (l : List α) : Tape α :=
  match t.points with
  | [] => t
  | p :: points =>
    { t with
      text := t.text.take p ++ l ++ t.text.drop p
      points := (p + l.length) :: points.map (· + l.length) }

def leave (t : Tape α) : Tape α := { t with points := t.points.tail }

/-! ## A text in pieces -/

/-- The ends of all pieces but the last, of a text whose first piece begins at `n`. -/
def cuts (n : Nat) : List (List α) → List Nat
  | [] => []
  | [_] => []
  | s :: s' :: segments => (n + s.length) :: cuts (n + s.length) (s' :: segments)

/-- What has been read, and the pieces of what is left. -/
def ofSegments (done : List α) (segments : List (List α)) : Tape α :=
  ⟨done ++ segments.flatten, done.length, cuts done.length segments⟩

theorem cuts_add (n m : Nat) (segments : List (List α)) :
    cuts (n + m) segments = (cuts n segments).map (· + m) := by
  induction segments generalizing n with
  | nil => rfl
  | cons s segments ih =>
    cases segments with
    | nil => rfl
    | cons s' segments =>
      simp only [cuts, List.map_cons]
      rw [show n + m + s.length = n + s.length + m by omega, ih]

theorem ofSegments_receive (done s l : List α) :
    (ofSegments done [s]).receive l = ofSegments done [s ++ l] := by
  simp [ofSegments, receive, cuts]

theorem ofSegments_consume (done s : List α) (segments : List (List α)) {n : Nat}
    (hn : n ≤ s.length) : (ofSegments done (s :: segments)).consume n =
      ofSegments (done ++ s.take n) (s.drop n :: segments) := by
  have hcuts : cuts done.length (s :: segments) =
      cuts (done.length + n) (s.drop n :: segments) := by
    cases segments with
    | nil => rfl
    | cons s' segments =>
      simp only [cuts, List.length_drop]
      rw [show done.length + n + (s.length - n) = done.length + s.length by omega]
  have htext : done ++ (s :: segments).flatten =
      done ++ s.take n ++ (s.drop n :: segments).flatten := by
    rw [List.flatten_cons, List.flatten_cons, List.append_assoc, ← List.append_assoc (s.take n),
      List.take_append_drop]
  simp only [ofSegments, consume, hcuts, htext, List.length_append, List.length_take,
    Nat.min_eq_left hn]

theorem ofSegments_enter (done s : List α) (segments : List (List α)) :
    (ofSegments done (s :: segments)).enter = ofSegments done ([] :: s :: segments) := by
  simp [ofSegments, enter, cuts]

theorem ofSegments_insert (done s s' l : List α) (segments : List (List α)) :
    (ofSegments done (s :: s' :: segments)).insert l =
      ofSegments done ((s ++ l) :: s' :: segments) := by
  have htake : (done ++ (s ++ (s' ++ segments.flatten))).take (done.length + s.length) =
      done ++ s := by
    rw [← List.append_assoc, ← List.length_append, List.take_left]
  have hdrop : (done ++ (s ++ (s' ++ segments.flatten))).drop (done.length + s.length) =
      s' ++ segments.flatten := by
    rw [← List.append_assoc, ← List.length_append, List.drop_left]
  simp only [ofSegments, insert, cuts, List.flatten_cons, htake, hdrop, List.length_append,
    ← Nat.add_assoc, cuts_add]
  simp

theorem ofSegments_leave (done s s' : List α) (segments : List (List α)) :
    (ofSegments done (s :: s' :: segments)).leave = ofSegments done ((s ++ s') :: segments) := by
  cases segments with
  | nil => simp [ofSegments, leave, cuts]
  | cons s'' segments => simp [ofSegments, leave, cuts, Nat.add_assoc]

theorem length_cuts (n : Nat) (s : List α) (segments : List (List α)) :
    (cuts n (s :: segments)).length = segments.length := by
  induction segments generalizing n s with
  | nil => rfl
  | cons s' segments ih =>
    rw [cuts, List.length_cons, ih]
    rfl

theorem le_of_mem_cuts {n q : Nat} {s : List α} {segments : List (List α)}
    (hq : q ∈ cuts n (s :: segments)) : n + s.length ≤ q := by
  induction segments generalizing n s with
  | nil => cases hq
  | cons s' segments ih =>
    rcases List.mem_cons.mp hq with rfl | hq
    · exact Nat.le_refl _
    · exact Nat.le_trans (Nat.le_add_right _ _) (ih hq)

/-! ## What is inserted at one insertion point -/

/-- Since `t₀` an insertion point was set, and all that happened to the text is that `inserted` was
put there; `inner` are the insertion points that were set later and are still there. -/
structure Within (t₀ t : Tape α) (inserted : List α) (inner : List Nat) : Prop where
  text : t.text = t₀.text.take t₀.cursor ++ inserted ++ t₀.text.drop t₀.cursor
  points : t.points =
    inner ++ (t₀.cursor + inserted.length) :: t₀.points.map (· + inserted.length)
  bounds : ∀ p ∈ inner, t₀.cursor ≤ p ∧ p ≤ t₀.cursor + inserted.length
  cursor : t₀.cursor ≤ t.cursor ∧ t.cursor ≤ t₀.cursor + inserted.length

theorem Within.start (t : Tape α) : Within t t.enter [] [] := by
  refine ⟨by simp [enter], by simp [enter], ?_, Nat.le_refl _, Nat.le_refl _⟩
  intro p hp
  cases hp

variable {t₀ t : Tape α} {inserted : List α} {inner : List Nat}

theorem Within.consume (h : Within t₀ t inserted inner) {n : Nat}
    (hn : ∀ p ∈ t.points, t.cursor + n ≤ p) : Within t₀ (t.consume n) inserted inner := by
  refine ⟨h.text, h.points, h.bounds, ?_, ?_⟩
  · exact Nat.le_trans h.cursor.1 (Nat.le_add_right _ _)
  · exact hn _ (by simp [h.points])

theorem Within.enter (h : Within t₀ t inserted inner) :
    Within t₀ t.enter inserted (t.cursor :: inner) := by
  refine ⟨h.text, by simp [Tape.enter, h.points], ?_, h.cursor⟩
  intro p hp
  rcases List.mem_cons.mp hp with rfl | hp
  · exact h.cursor
  · exact h.bounds p hp

/-- Text put between `a` and `b` is put into what stands there. -/
theorem splice {a s b : List α} {p : Nat} (ha : a.length ≤ p) (hp : p ≤ a.length + s.length)
    (l : List α) : (a ++ s ++ b).take p ++ l ++ (a ++ s ++ b).drop p =
      a ++ (s.take (p - a.length) ++ l ++ s.drop (p - a.length)) ++ b := by
  have hs : p - a.length ≤ s.length := by omega
  simp [List.take_append, List.drop_append, List.take_of_length_le ha, List.drop_of_length_le ha,
    Nat.sub_eq_zero_of_le hs]

/-- Text put at a later insertion point is a part of what is inserted at the earlier one. -/
theorem Within.insert (h : Within t₀ t inserted inner) (hcursor : t₀.cursor ≤ t₀.text.length)
    (hpoints : ∀ p ∈ t.points.head?, t.cursor ≤ p) (l : List α) :
    ∃ inserted' inner', Within t₀ (t.insert l) inserted' inner' ∧
      inner'.length = inner.length := by
  have hlength : (t₀.text.take t₀.cursor).length = t₀.cursor := by simp [hcursor]
  -- The innermost insertion point lies in what has been inserted.
  obtain ⟨p, points, hp, hlow, hhigh⟩ : ∃ p points, t.points = p :: points ∧ t₀.cursor ≤ p ∧
      p ≤ t₀.cursor + inserted.length := by
    rw [h.points]
    cases inner with
    | nil => exact ⟨_, _, rfl, Nat.le_add_right _ _, Nat.le_refl _⟩
    | cons q inner => exact ⟨_, _, rfl, h.bounds q (by simp)⟩
  have hcur : t.cursor ≤ p := hpoints p (by simp [hp])
  have hsplice := splice (a := t₀.text.take t₀.cursor) (s := inserted)
    (b := t₀.text.drop t₀.cursor) (p := p) (by omega) (by omega) l
  rw [← h.text, hlength] at hsplice
  have hsize : (inserted.take (p - t₀.cursor) ++ l ++ inserted.drop (p - t₀.cursor)).length =
      inserted.length + l.length := by
    simp only [List.length_append, List.length_take, List.length_drop]
    omega
  have hinsert : t.insert l = ⟨t.text.take p ++ l ++ t.text.drop p, t.cursor,
      (p + l.length) :: points.map (· + l.length)⟩ := by
    simp [Tape.insert, hp]
  have hpoint := h.points
  rw [hp] at hpoint
  rw [hinsert]
  cases inner with
  | nil =>
    obtain ⟨rfl, rfl⟩ := List.cons.inj hpoint
    refine ⟨_, [], ⟨hsplice, ?_, ?_, h.cursor.1, ?_⟩, rfl⟩
    · rw [hsize]
      simp [Nat.add_assoc]
    · intro q hq
      cases hq
    · dsimp only
      omega
  | cons q inner =>
    obtain ⟨rfl, rfl⟩ := List.cons.inj hpoint
    refine ⟨_, (p + l.length) :: inner.map (· + l.length), ⟨hsplice, ?_, ?_, h.cursor.1, ?_⟩,
      by simp⟩
    · rw [hsize]
      simp [Nat.add_assoc]
    · intro q hq
      rw [hsize]
      rcases List.mem_cons.mp hq with rfl | hq
      · omega
      · obtain ⟨q, hmem, rfl⟩ := List.mem_map.mp hq
        have := h.bounds q (by simp [hmem])
        omega
    · dsimp only
      omega

/-- The insertion point of the run is not the innermost one. -/
theorem Within.leave {p : Nat} (h : Within t₀ t inserted (p :: inner)) :
    Within t₀ t.leave inserted inner := by
  refine ⟨h.text, ?_, ?_, h.cursor⟩
  · simp [Tape.leave, h.points]
  · intro q hq
    exact h.bounds q (List.mem_cons_of_mem _ hq)

end Tape

end Blinkit.Lib
