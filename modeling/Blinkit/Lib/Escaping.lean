import Mathlib.Data.List.Basic

/-!
# Escaping with a table of references

A text is escaped by writing references for some of its characters. Every reference begins with
one marker character; when the marker itself is among the escaped characters, reading the references
back gives the text.

* `Entry α` — a character and the reference that stands for it.
* `Unambiguous marker entries` — the references begin with the marker, and none begins another.
* `Piece α` — a character as it is, or a reference.
* `escape asked source` — the text with references for the characters that `asked` gives one for.
* `decode entries text` — the text with the characters for the references, read from the left.

Principal result: `decode_escape`.
-/

set_option autoImplicit false

namespace Escaping

variable {α : Type}

structure Entry (α : Type) where
  char : α
  reference : List α
  deriving DecidableEq

/-- The references begin with the marker, and none begins another. -/
structure Unambiguous (marker : α) (entries : List (Entry α)) : Prop where
  marked : ∀ e ∈ entries, e.reference.head? = some marker
  separate : ∀ e ∈ entries, ∀ e' ∈ entries, e.reference <+: e'.reference → e = e'

inductive Piece (α : Type) where
  | plain (c : α)
  | reference (e : Entry α)

namespace Piece

/-- What is written for a piece. -/
def written : Piece α → List α
  | plain c => [c]
  | reference e => e.reference

/-- The character that a piece stands for. -/
def stands : Piece α → α
  | plain c => c
  | reference e => e.char

end Piece

section Escape

variable (asked : α → Option (Entry α))

def piece (c : α) : Piece α :=
  match asked c with
  | some e => .reference e
  | none => .plain c

def escape (source : List α) : List α := (source.map (piece asked)).flatMap Piece.written

@[simp] theorem escape_nil : escape asked [] = [] := rfl

@[simp] theorem escape_cons (c : α) (source : List α) :
    escape asked (c :: source) = (piece asked c).written ++ escape asked source := rfl

theorem escape_append (s t : List α) : escape asked (s ++ t) = escape asked s ++ escape asked t := by
  unfold escape
  rw [List.map_append, List.flatMap_append]

/-- The pieces stand for the text. -/
theorem stands_pieces (hasked : ∀ c e, asked c = some e → e.char = c) (source : List α) :
    (source.map (piece asked)).map Piece.stands = source := by
  rw [List.map_map]
  refine (List.map_congr_left fun c _ => ?_).trans (List.map_id source)
  show (piece asked c).stands = c
  unfold piece
  split
  · rename_i e he
    exact hasked c e he
  · rfl

end Escape

section Decode

variable [BEq α] (entries : List (Entry α))

/-- `skip` counts what is left of a reference that has been read. -/
def decodeFrom : Nat → List α → List α
  | _, [] => []
  | skip + 1, _ :: rest => decodeFrom skip rest
  | 0, c :: rest =>
    match entries.find? fun e => e.reference.isPrefixOf (c :: rest) with
    | some e => e.char :: decodeFrom (e.reference.length - 1) rest
    | none => c :: decodeFrom 0 rest

def decode (text : List α) : List α := decodeFrom entries 0 text

theorem decodeFrom_skip (skipped text : List α) :
    decodeFrom entries skipped.length (skipped ++ text) = decode entries text := by
  induction skipped with
  | nil => rfl
  | cons c skipped ih => exact ih

end Decode

variable {marker : α} {entries : List (Entry α)} {asked : α → Option (Entry α)}

/-- Two references that begin one text are the same. -/
theorem Unambiguous.eq_of_begins (u : Unambiguous marker entries) {e e' : Entry α}
    (he : e ∈ entries) (he' : e' ∈ entries) {text : List α} (h : e.reference <+: text)
    (h' : e'.reference <+: text) : e = e' := by
  rcases List.prefix_or_prefix_of_prefix h h' with hp | hp
  · exact u.separate e he e' he' hp
  · exact (u.separate e' he' e he hp).symm

variable [DecidableEq α]

/-- **A reference is read back as its character.** -/
theorem Unambiguous.decode_reference (u : Unambiguous marker entries) {e : Entry α}
    (he : e ∈ entries) (text : List α) :
    decode entries (e.reference ++ text) = e.char :: decode entries text := by
  have hhead := u.marked e he
  cases href : e.reference with
  | nil =>
    rw [href] at hhead
    cases hhead
  | cons c tail =>
    have hfind : entries.find? (fun e' => e'.reference.isPrefixOf (c :: (tail ++ text))) =
        some e := by
      have hbegins : e.reference <+: c :: (tail ++ text) := by
        rw [href]
        exact List.prefix_append (c :: tail) text
      obtain ⟨e', hfound⟩ : ∃ e',
          entries.find? (fun e' => e'.reference.isPrefixOf (c :: (tail ++ text))) = some e' :=
        Option.isSome_iff_exists.mp
          (List.find?_isSome.mpr ⟨e, he, List.isPrefixOf_iff_prefix.mpr hbegins⟩)
      have hreads : e'.reference.isPrefixOf (c :: (tail ++ text)) = true :=
        List.find?_some (p := fun e : Entry α => e.reference.isPrefixOf (c :: (tail ++ text))) hfound
      have hbegins' := List.isPrefixOf_iff_prefix.mp hreads
      rw [hfound, u.eq_of_begins he (List.mem_of_find?_eq_some hfound) hbegins hbegins']
    show decodeFrom entries 0 (c :: (tail ++ text)) = _
    unfold decodeFrom
    rw [hfind]
    simp only [href, List.length_cons, Nat.add_sub_cancel]
    rw [decodeFrom_skip]

/-- A character other than the marker begins no reference. -/
theorem Unambiguous.decode_plain (u : Unambiguous marker entries) {c : α} (hc : c ≠ marker)
    (text : List α) : decode entries (c :: text) = c :: decode entries text := by
  have hfind : entries.find? (fun e => e.reference.isPrefixOf (c :: text)) = none := by
    refine List.find?_eq_none.mpr fun e he hbegins => hc ?_
    have hhead := u.marked e he
    rw [List.isPrefixOf_iff_prefix] at hbegins
    cases href : e.reference with
    | nil =>
      rw [href] at hhead
      cases hhead
    | cons m tail =>
      rw [href] at hhead hbegins
      rw [← (List.cons_prefix_cons.mp hbegins).1]
      exact Option.some.inj hhead
  show decodeFrom entries 0 (c :: text) = _
  unfold decodeFrom
  rw [hfind]
  rfl

/-- **Escaping that includes the marker is undone by decoding.** -/
theorem decode_escape (u : Unambiguous marker entries)
    (hasked : ∀ c e, asked c = some e → e ∈ entries ∧ e.char = c) (hmarker : asked marker ≠ none)
    (source : List α) : decode entries (escape asked source) = source := by
  induction source with
  | nil => rfl
  | cons c source ih =>
    rw [escape_cons]
    unfold piece
    split
    · rename_i e he
      obtain ⟨hmem, rfl⟩ := hasked c e he
      exact (u.decode_reference hmem _).trans (congrArg _ ih)
    · rename_i hnone
      have hc : c ≠ marker := by
        rintro rfl
        exact hmarker hnone
      exact (u.decode_plain hc _).trans (congrArg _ ih)

end Escaping
