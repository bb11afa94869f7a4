import Mathlib.Data.List.DropRight

/-!
# Lines, trimming and letter case

* `trim p` drops the elements that satisfy `p` at both ends; what is dropped on the right may be
  dropped first (`trim_rdropWhile`).
* `split_joined`: lines joined by a two-element separator whose first element is trimmed away are
  found again by splitting at the second.
* `sameLetters`: equality of texts without regard to ASCII case, through the lower-case image.

Principal results: `trim_append_right`, `scan_append`, `split_joined`, `case_of_case`.
-/

set_option autoImplicit false

namespace Blinkit.Lib.Text

universe u

section Trim

variable {α : Type u} (p : α → Bool)

/-- The text without the elements satisfying `p` at its two ends. -/
def trim (l : List α) : List α := (l.dropWhile p).rdropWhile p

theorem rdropWhile_append_right (l t : List α) (ht : ∀ c ∈ t, p c = true) :
    (l ++ t).rdropWhile p = l.rdropWhile p := by
  unfold List.rdropWhile
  rw [List.reverse_append, List.dropWhile_append_of_pos]
  intro c hc
  exact ht c (List.mem_reverse.mp hc)

theorem trim_append_right (l t : List α) (ht : ∀ c ∈ t, p c = true) :
    trim p (l ++ t) = trim p l := by
  unfold trim
  rw [List.dropWhile_append]
  split
  · rename_i hempty
    have hl : l.dropWhile p = [] := List.isEmpty_iff.mp hempty
    rw [hl, List.dropWhile_eq_nil_iff.mpr ht]
  · exact rdropWhile_append_right p _ t ht

theorem trim_rdropWhile (l : List α) : trim p (l.rdropWhile p) = trim p l := by
  have h := trim_append_right p (l.rdropWhile p) (l.rtakeWhile p)
    (fun _ hc => List.mem_rtakeWhile_imp hc)
  rw [List.rdropWhile_append_rtakeWhile] at h
  exact h.symm

theorem trim_length_le (l : List α) : (trim p l).length ≤ l.length := by
  have h1 : (trim p l).length ≤ (l.dropWhile p).length :=
    (List.rdropWhile_prefix p _).sublist.length_le
  have h2 : (l.dropWhile p).length ≤ l.length := (List.dropWhile_sublist p).length_le
  omega

theorem trim_cons {c : α} (hc : p c = false) (l : List α) :
    trim p (c :: l) = (c :: l).rdropWhile p := by
  unfold trim
  rw [List.dropWhile_cons_of_neg (by simp [hc])]

theorem rdropWhile_append_cons {c : α} (hc : p c = false) (l t : List α) :
    (l ++ c :: t).rdropWhile p = l ++ c :: t.rdropWhile p := by
  induction t using List.reverseRecOn with
  | nil => simp [hc]
  | append_singleton t d ih =>
    have hassoc : l ++ c :: (t ++ [d]) = (l ++ c :: t) ++ [d] := by simp
    rw [hassoc, List.rdropWhile_concat, List.rdropWhile_concat]
    split
    · exact ih
    · simp

theorem rdropWhile_cons {c : α} (hc : p c = false) (t : List α) :
    (c :: t).rdropWhile p = c :: t.rdropWhile p :=
  rdropWhile_append_cons p hc [] t

/-- Scanning stops behind the elements that satisfy `p`. -/
theorem scan_append (l t : List α) (hl : ∀ c ∈ l, p c = true)
    (ht : ∀ c, t.head? = some c → p c = false) :
    (l ++ t).takeWhile p = l ∧ (l ++ t).dropWhile p = t := by
  rw [List.takeWhile_append_of_pos hl, List.dropWhile_append_of_pos hl]
  cases t with
  | nil => simp
  | cons c t =>
    have hc : p c = false := ht c rfl
    simp [hc]

end Trim

section Split

variable {α : Type u} [BEq α] [LawfulBEq α] (p : α → Bool)

/-- **Joined lines are found again.** Splitting at the second half of the separator leaves the
first half at the end of every line but the last, and trimming removes it. -/
theorem split_joined {sep cr : α} (hcr : p cr = true) (hne : cr ≠ sep) (l : List α)
    (ls : List (List α)) (h : ∀ x ∈ l :: ls, sep ∉ x) :
    ((List.intercalate [cr, sep] (l :: ls)).splitOn sep).map (trim p) =
      (l :: ls).map (trim p) := by
  induction ls generalizing l with
  | nil =>
    rw [List.intercalate_singleton, List.splitOn_eq_singleton (h l (List.mem_cons_self ..))]
  | cons m ms ih =>
    have hl : sep ∉ l := h l (List.mem_cons_self ..)
    have hlcr : sep ∉ l ++ [cr] := by
      intro hmem
      rcases List.mem_append.mp hmem with hin | hin
      · exact hl hin
      · exact hne (List.mem_singleton.mp hin).symm
    have hjoin : List.intercalate [cr, sep] (l :: m :: ms) =
        (l ++ [cr]) ++ sep :: List.intercalate [cr, sep] (m :: ms) := by
      rw [List.intercalate_cons_cons]
      simp
    rw [hjoin, List.splitOn_append_cons_self_of_not_mem hlcr, List.map_cons,
      ih m (fun x hx => h x (List.mem_cons_of_mem l hx)), List.map_cons,
      trim_append_right p l [cr] (by simp [hcr])]
    rfl

/-- No piece holds the separator. -/
theorem not_mem_of_mem_splitOn {sep : α} {l x : List α} (hx : x ∈ l.splitOn sep) : sep ∉ x := by
  induction l generalizing x with
  | nil =>
    rw [List.splitOn_nil, List.mem_singleton] at hx
    rw [hx]
    exact List.not_mem_nil
  | cons c l ih =>
    rw [List.splitOn_cons_eq_if_modifyHead] at hx
    split at hx
    · rcases List.mem_cons.mp hx with rfl | hx
      · exact List.not_mem_nil
      · exact ih hx
    · rename_i hne
      obtain ⟨y, ys, hl⟩ := List.exists_cons_of_ne_nil (List.splitOn_ne_nil sep l)
      rw [hl] at hx ih
      rcases List.mem_cons.mp hx with rfl | hx
      · intro hmem
        rcases List.mem_cons.mp hmem with rfl | hmem
        · exact hne BEq.rfl
        · exact ih List.mem_cons_self hmem
      · exact ih (List.mem_cons_of_mem y hx)

end Split

section Case

theorem high_letter {c : Char} (h : 128 ≤ c.toNat) : c.toLower = c ∧ c.toUpper = c := by
  have hval : 128 ≤ c.val.toNat := h
  constructor
  · unfold Char.toLower
    rw [dif_neg]
    rintro ⟨_, hle⟩
    have : c.val.toNat ≤ 90 := hle
    omega
  · unfold Char.toUpper
    rw [dif_neg]
    rintro ⟨_, hle⟩
    have : c.val.toNat ≤ 122 := hle
    omega

theorem low_letters : ∀ n < 128,
    (Char.ofNat n).toUpper.toLower = (Char.ofNat n).toLower ∧
    (Char.ofNat n).toLower.toUpper = (Char.ofNat n).toUpper ∧
    (Char.ofNat n).toLower.toLower = (Char.ofNat n).toLower := by
  decide

/-- Each case mapping forgets what the other has done. -/
theorem case_of_case (c : Char) :
    c.toUpper.toLower = c.toLower ∧ c.toLower.toUpper = c.toUpper ∧
    c.toLower.toLower = c.toLower := by
  rcases Nat.lt_or_ge c.toNat 128 with h | h
  · have hlow := low_letters c.toNat h
    rwa [Char.ofNat_toNat] at hlow
  · obtain ⟨hlo, hup⟩ := high_letter h
    rw [hup, hlo, hup]
    exact ⟨rfl, rfl, hlo⟩

/-- The lower-case image of a text. -/
def lowerCase (s : List Char) : List Char := s.map Char.toLower

/-- Two texts that differ in letter case only. -/
def sameLetters (a b : List Char) : Bool := lowerCase a == lowerCase b

theorem sameLetters_iff {a b : List Char} : sameLetters a b = true ↔ lowerCase a = lowerCase b :=
  beq_iff_eq

theorem lowerCase_lowerCase (s : List Char) : lowerCase (lowerCase s) = lowerCase s := by
  unfold lowerCase
  rw [List.map_map]
  apply List.map_congr_left
  intro c _
  exact (case_of_case c).2.2

end Case

end Blinkit.Lib.Text
