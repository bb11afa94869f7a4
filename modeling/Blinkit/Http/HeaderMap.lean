import Mathlib.Data.List.AList
import Mathlib.Algebra.Order.BigOperators.Group.List
import Mathlib.Algebra.Order.Group.Nat
import Mathlib.Algebra.Ring.Nat
import Blinkit.Lib.Transition
import Blinkit.Http.ResponseHeaders

/-!
# The header map and its callers

`BkHTTPHeaderMap` keeps its entries in an unordered map.  `Set` and `Get` turn the name into its
canonical spelling first, `Remove` erases the name as it was given.

* `HeaderTable` : the entries of the map, one for each key; `toMap` forgets their order
* `Iteration` : the order in which an unordered map shows its entries
* `Op`, `step` : the calls of a client; `asserts` tells whether the build checks assertions
* `latest` : what the calls so far mean for a name, without regard to case
* `Answers` : `Get` and `GetAllForRequest` say what the calls so far mean

Principal results: `answers_iff_find`, `headerMap_answers_iff`.
-/

set_option autoImplicit false

namespace Blinkit.Http.HeaderMap

open Transition Blinkit.Lib.Text

/-! ## The map -/

/-- `m_headers`: an unordered map, which has one entry for each key. -/
structure HeaderTable where
  headers : AList fun _ : Str => Str := ∅

/-- The entries without their order. -/
def HeaderTable.toMap (t : HeaderTable) : BkHTTPHeaderMap :=
  { headers := fun k => t.headers.lookup k }

/-- The entries, as `GetRawMap` shows them. -/
def HeaderTable.rawMap (t : HeaderTable) : List (Str × Str) :=
  t.headers.entries.map fun e => (e.1, e.2)

/-- `BkHTTPHeaderMap::Get`. -/
def HeaderTable.get (t : HeaderTable) (name : Str) : Str :=
  match t.headers.lookup (canonizeHeaderName name) with
  | none => []
  | some val => val

/-- `BkHTTPHeaderMap::Remove`, which erases the name as it is. -/
def HeaderTable.remove (t : HeaderTable) (name : Str) : HeaderTable :=
  { headers := t.headers.erase name }

inductive AssertionFailure where
  | lineBreak
  deriving DecidableEq

/-- `find_first_of(CRLF)` finds something. -/
def hasLineBreak (s : Str) : Bool := s.any isLineBreak

/-- What `Set` does once its assertions hold. -/
def HeaderTable.assign (t : HeaderTable) (name val : Str) : HeaderTable :=
  { headers := t.headers.insert (canonizeHeaderName name) val }

/-- `BkHTTPHeaderMap::Set`. -/
def HeaderTable.set (asserts : Bool) (t : HeaderTable) (name val : Str) :
    Except AssertionFailure HeaderTable :=
  if asserts && hasLineBreak name then .error .lineBreak
  else if asserts && hasLineBreak val then .error .lineBreak
  else .ok (t.assign name val)

/-- The order in which an unordered map shows its entries. -/
structure Iteration where
  order : List (Str × Str) → List (Str × Str)
  perm : ∀ es, (order es).Perm es

/-- The order in which the entries are stored here. -/
def Iteration.stored : Iteration := { order := id, perm := fun es => .refl es }

/-- `BkHTTPHeaderMap::GetAllForRequest`. -/
def HeaderTable.getAllForRequest (it : Iteration) (t : HeaderTable) : Str :=
  (it.order t.rawMap).foldl (fun ret e => ret ++ e.1 ++ [':', ' '] ++ e.2 ++ ['\r', '\n']) []

/-! ## Runs -/

/-- The calls of a client. -/
inductive Op where
  | set (name val : Str)
  | get (name : Str)
  | remove (name : Str)
  | getAllForRequest
  deriving DecidableEq

/-- The map with the calls made so far, the latest one first. -/
structure Session where
  table : HeaderTable := {}
  past : List Op := []

/-- One call, with the text that it returns. -/
def step (asserts : Bool) (it : Iteration) (s : Session) (op : Op) :
    Except AssertionFailure (Session × Str) :=
  match op with
  | .set name val =>
    match s.table.set asserts name val with
    | .error e => .error e
    | .ok table => .ok ({ table := table, past := op :: s.past }, [])
  | .get name => .ok ({ s with past := op :: s.past }, s.table.get name)
  | .remove name => .ok ({ table := s.table.remove name, past := op :: s.past }, [])
  | .getAllForRequest => .ok ({ s with past := op :: s.past }, s.table.getAllForRequest it)

/-! ## What the calls mean -/

/-- The value that the calls so far, the latest one first, leave for a name. -/
def latest (name : Str) : List Op → Option Str
  | [] => none
  | .set n val :: past => if equalsCaseInsensitiveASCII n name then some val else latest name past
  | .remove n :: past => if equalsCaseInsensitiveASCII n name then none else latest name past
  | .get _ :: past => latest name past
  | .getAllForRequest :: past => latest name past

/-- A header line of a request. -/
def headerLine (h : Str × Str) : Str := h.1 ++ [':', ' '] ++ h.2 ++ ['\r', '\n']

/-- The headers `hs` are the remaining ones, each listed once. -/
structure Remaining (past : List Op) (hs : List (Str × Str)) : Prop where
  once : hs.Pairwise fun a b => equalsCaseInsensitiveASCII a.1 b.1 = false
  all : ∀ name val, (∃ h ∈ hs, equalsCaseInsensitiveASCII h.1 name = true ∧ h.2 = val) ↔
    latest name past = some val

/-- `Get` and `GetAllForRequest` say what the calls so far mean. -/
structure Answers (it : Iteration) (s : Session) : Prop where
  get : ∀ name, s.table.get name = (latest name s.past).getD []
  listing : ∃ hs, Remaining s.past hs ∧ s.table.getAllForRequest it = hs.flatMap headerLine

/-- The name is in its canonical spelling, or no header of an equal name is stored. -/
def CanonicalRemove (s : Session) : Op → Prop
  | .remove name => canonizeHeaderName name = name ∨
      ∀ h ∈ s.table.rawMap, equalsCaseInsensitiveASCII h.1 name = false
  | _ => True

/-! ## The entries -/

theorem canonizeHeaderName_idem (name : Str) :
    canonizeHeaderName (canonizeHeaderName name) = canonizeHeaderName name := by
  apply canonizeHeaderName_eq_iff.mpr
  apply sameLetters_iff.mpr
  exact lowerCase_canonizeHeaderName name

theorem canonizeHeaderName_length (name : Str) :
    (canonizeHeaderName name).length = name.length := by
  have hlower := congrArg List.length (lowerCase_canonizeHeaderName name)
  unfold lowerCase at hlower
  simpa using hlower

theorem equalsCaseInsensitiveASCII_symm {a b : Str} (h : equalsCaseInsensitiveASCII a b = true) :
    equalsCaseInsensitiveASCII b a = true :=
  canonizeHeaderName_eq_iff.mp (canonizeHeaderName_eq_iff.mpr h).symm

/-- Every key is in its canonical spelling. -/
def HeaderTable.Canonical (t : HeaderTable) : Prop :=
  ∀ k ∈ t.headers.keys, canonizeHeaderName k = k

theorem HeaderTable.mem_rawMap {t : HeaderTable} {k val : Str} :
    (k, val) ∈ t.rawMap ↔ t.headers.lookup k = some val := by
  rw [show t.headers.lookup k = some val ↔ val ∈ t.headers.lookup k from Iff.rfl,
    AList.mem_lookup_iff]
  unfold HeaderTable.rawMap
  constructor
  · intro h
    obtain ⟨e, he, heq⟩ := List.mem_map.mp h
    cases heq
    exact he
  · intro h
    exact List.mem_map.mpr ⟨⟨k, val⟩, h, rfl⟩

theorem HeaderTable.key_of_mem_rawMap {t : HeaderTable} {h : Str × Str} (hmem : h ∈ t.rawMap) :
    h.1 ∈ t.headers.keys := by
  obtain ⟨e, he, rfl⟩ := List.mem_map.mp hmem
  exact List.mem_map.mpr ⟨e, he, rfl⟩

/-- An entry with an equal name is what the lookup finds. -/
theorem HeaderTable.Canonical.find_iff {t : HeaderTable} (ht : t.Canonical) {name val : Str} :
    (∃ h ∈ t.rawMap, equalsCaseInsensitiveASCII h.1 name = true ∧ h.2 = val) ↔
      t.toMap.find name = some val := by
  constructor
  · rintro ⟨⟨k, v⟩, hmem, hsame, rfl⟩
    have hk := ht k (key_of_mem_rawMap hmem)
    have hname := canonizeHeaderName_eq_iff.mpr hsame
    rw [hk] at hname
    show t.headers.lookup (canonizeHeaderName name) = some v
    rw [← hname]
    exact mem_rawMap.mp hmem
  · intro hfind
    refine ⟨(canonizeHeaderName name, val), mem_rawMap.mpr hfind, ?_, rfl⟩
    apply canonizeHeaderName_eq_iff.mp
    exact canonizeHeaderName_idem name

/-- No two entries have an equal name. -/
theorem HeaderTable.Canonical.rawMap_once {t : HeaderTable} (ht : t.Canonical) :
    t.rawMap.Pairwise fun a b => equalsCaseInsensitiveASCII a.1 b.1 = false := by
  have hkeys : t.headers.entries.Pairwise fun a b => a.1 ≠ b.1 :=
    List.pairwise_map.mp t.headers.nodupKeys
  unfold HeaderTable.rawMap
  rw [List.pairwise_map]
  refine hkeys.imp_of_mem fun {a b} ha hb hne => ?_
  by_contra hsame
  have heq := canonizeHeaderName_eq_iff.mpr (Bool.not_eq_false _ ▸ hsame)
  rw [ht a.1 (List.mem_map_of_mem ha), ht b.1 (List.mem_map_of_mem hb)] at heq
  exact hne heq

theorem HeaderTable.get_eq (t : HeaderTable) (name : Str) :
    t.get name = (t.toMap.find name).getD [] := by
  show (match t.headers.lookup (canonizeHeaderName name) with
    | none => []
    | some val => val) = (t.headers.lookup (canonizeHeaderName name)).getD []
  cases t.headers.lookup (canonizeHeaderName name) <;> rfl

theorem foldl_headerLine (es : List (Str × Str)) (ret : Str) :
    es.foldl (fun ret e => ret ++ e.1 ++ [':', ' '] ++ e.2 ++ ['\r', '\n']) ret =
      ret ++ es.flatMap headerLine := by
  induction es generalizing ret with
  | nil => simp
  | cons e es ih =>
    rw [List.foldl_cons, ih, List.flatMap_cons]
    simp [headerLine]

/-- The lines of all entries, in the order of the iteration. -/
theorem HeaderTable.getAllForRequest_eq (it : Iteration) (t : HeaderTable) :
    t.getAllForRequest it = (it.order t.rawMap).flatMap headerLine := by
  unfold HeaderTable.getAllForRequest
  rw [foldl_headerLine, List.nil_append]

/-! ## One call -/

theorem HeaderTable.set_eq_ok {asserts : Bool} {t t' : HeaderTable} {name val : Str}
    (h : t.set asserts name val = .ok t') : t' = t.assign name val := by
  unfold HeaderTable.set at h
  split at h
  · cases h
  split at h
  · cases h
  cases h
  rfl

theorem HeaderTable.toMap_assign (t : HeaderTable) (name val : Str) :
    (t.assign name val).toMap = t.toMap.set name val := by
  have hheaders : ∀ k, (t.assign name val).headers.lookup k =
      if k = canonizeHeaderName name then some val else t.headers.lookup k := by
    intro k
    show (t.headers.insert (canonizeHeaderName name) val).lookup k = _
    split
    · rename_i hk
      rw [hk, AList.lookup_insert]
    · rename_i hk
      rw [AList.lookup_insert_ne hk]
  show BkHTTPHeaderMap.mk (fun k => (t.assign name val).headers.lookup k) = _
  rw [funext hheaders]
  rfl

theorem HeaderTable.find_assign (t : HeaderTable) (k name val : Str) :
    (t.assign k val).toMap.find name =
      if equalsCaseInsensitiveASCII k name then some val else t.toMap.find name := by
  rw [HeaderTable.toMap_assign, BkHTTPHeaderMap.find_set]

theorem HeaderTable.find_remove (t : HeaderTable) (k name : Str) :
    (t.remove k).toMap.find name =
      if canonizeHeaderName name = k then none else t.toMap.find name := by
  show (t.headers.erase k).lookup (canonizeHeaderName name) = _
  split
  · rename_i hk
    rw [hk, AList.lookup_erase]
  · rename_i hk
    rw [AList.lookup_erase_ne hk]
    rfl

theorem HeaderTable.Canonical.assign {t : HeaderTable} (ht : t.Canonical) (name val : Str) :
    (t.assign name val).Canonical := by
  intro k hk
  have hmem : k ∈ t.headers.insert (canonizeHeaderName name) val := AList.mem_keys.mpr hk
  rcases (AList.mem_insert t.headers).mp hmem with rfl | hold
  · exact canonizeHeaderName_idem name
  · exact ht k (AList.mem_keys.mp hold)

theorem HeaderTable.Canonical.remove {t : HeaderTable} (ht : t.Canonical) (name : Str) :
    (t.remove name).Canonical := by
  intro k hk
  have hmem : k ∈ t.headers.erase name := AList.mem_keys.mpr hk
  exact ht k (AList.mem_keys.mp (AList.mem_erase.mp hmem).2)

/-! ## Runs that answer right -/

/-- The map holds exactly what the calls so far mean. -/
def Session.Tracks (s : Session) : Prop := ∀ name, s.table.toMap.find name = latest name s.past

/-- What every run keeps: the keys are canonical, and nothing that remains is lost. -/
structure Session.Sound (s : Session) : Prop where
  canonical : s.table.Canonical
  keeps : ∀ name val, latest name s.past = some val → s.table.toMap.find name = some val

theorem Session.Sound.initial : Session.Sound {} where
  canonical := by
    intro k hk
    cases hk
  keeps := by
    intro name val h
    cases h

theorem latest_remove (name k : Str) (past : List Op) :
    latest name (.remove k :: past) =
      if equalsCaseInsensitiveASCII k name then none else latest name past := rfl

/-- A name that is not equal to the removed one keeps its entry. -/
theorem HeaderTable.find_remove_of_ne (t : HeaderTable) {k name : Str}
    (hne : ¬ equalsCaseInsensitiveASCII k name = true) :
    (t.remove k).toMap.find name = t.toMap.find name := by
  rw [HeaderTable.find_remove, if_neg]
  rintro rfl
  apply hne
  apply canonizeHeaderName_eq_iff.mp
  exact canonizeHeaderName_idem name

/-- What one call keeps. -/
theorem Session.Sound.step {asserts : Bool} {it : Iteration} {s : Session} {op : Op}
    {r : Session × Str} (hs : s.Sound) (hstep : HeaderMap.step asserts it s op = .ok r) :
    r.1.Sound := by
  cases op with
  | set name val =>
    dsimp only [HeaderMap.step] at hstep
    split at hstep
    · cases hstep
    · rename_i table hset
      cases hstep
      obtain rfl := HeaderTable.set_eq_ok hset
      refine ⟨hs.canonical.assign name val, ?_⟩
      intro n v hlatest
      show (s.table.assign name val).toMap.find n = some v
      unfold latest at hlatest
      rw [HeaderTable.find_assign]
      split at hlatest
      · rename_i hsame
        rw [if_pos hsame]
        exact hlatest
      · rename_i hne
        rw [if_neg hne]
        exact hs.keeps n v hlatest
  | get name =>
    cases hstep
    exact ⟨hs.canonical, hs.keeps⟩
  | remove name =>
    cases hstep
    refine ⟨hs.canonical.remove name, ?_⟩
    intro n v hlatest
    rw [latest_remove] at hlatest
    split at hlatest
    · cases hlatest
    · rename_i hne
      show (s.table.remove name).toMap.find n = some v
      rw [HeaderTable.find_remove_of_ne s.table hne]
      exact hs.keeps n v hlatest
  | getAllForRequest =>
    cases hstep
    exact ⟨hs.canonical, hs.keeps⟩

/-- Every header line has four characters besides the name and the value. -/
theorem headerLine_length (h : Str × Str) :
    (headerLine h).length = h.1.length + h.2.length + 4 := by
  unfold headerLine
  simp only [List.length_append, List.length_cons, List.length_nil]
  omega

/-- The total length of the lines. -/
def linesLength (hs : List (Str × Str)) : Nat :=
  (hs.map fun h => h.1.length + h.2.length + 4).sum

theorem flatMap_headerLine_length (hs : List (Str × Str)) :
    (hs.flatMap headerLine).length = linesLength hs := by
  rw [List.length_flatMap]
  unfold linesLength
  simp only [headerLine_length]

theorem linesLength_of_subperm {hs es : List (Str × Str)} (h : hs.Subperm es) :
    linesLength hs ≤ linesLength es := by
  obtain ⟨l, hperm, hsub⟩ := h
  have heq : linesLength l = linesLength hs := (hperm.map _).sum_eq
  have hle : linesLength l ≤ linesLength es := (hsub.map _).sum_le_sum fun n _ => Nat.zero_le n
  omega

/-- An entry that no remaining header accounts for makes the listing too long. -/
theorem Session.Sound.listing_too_long {s : Session} (hs : s.Sound) {name val : Str}
    (hfind : s.table.toMap.find name = some val) (hgone : latest name s.past = none)
    {hdrs : List (Str × Str)} (hrem : Remaining s.past hdrs) :
    linesLength hdrs < linesLength s.table.rawMap := by
  -- the remaining headers, in the spelling of the map
  let canon : Str × Str → Str × Str := fun h => (canonizeHeaderName h.1, h.2)
  have hfound : ∀ h ∈ hdrs, latest h.1 s.past = some h.2 := fun h hmem =>
    (hrem.all h.1 h.2).mp ⟨h, hmem, canonizeHeaderName_eq_iff.mp rfl, rfl⟩
  have hsubset : ∀ e ∈ hdrs.map canon, e ∈ s.table.rawMap := by
    intro e he
    obtain ⟨h, hmem, rfl⟩ := List.mem_map.mp he
    exact HeaderTable.mem_rawMap.mpr (hs.keeps h.1 h.2 (hfound h hmem))
  have hnodup : (hdrs.map canon).Nodup := by
    apply List.pairwise_map.mpr
    refine hrem.once.imp fun {a b} hne heq => ?_
    have hsame := canonizeHeaderName_eq_iff.mp (congrArg Prod.fst heq)
    rw [hne] at hsame
    cases hsame
  have hstale : (canonizeHeaderName name, val) ∉ hdrs.map canon := by
    intro he
    obtain ⟨h, hmem, heq⟩ := List.mem_map.mp he
    have hsame := canonizeHeaderName_eq_iff.mp (congrArg Prod.fst heq)
    have hlatest := (hrem.all name h.2).mp ⟨h, hmem, hsame, rfl⟩
    rw [hgone] at hlatest
    cases hlatest
  have hsubperm : ((canonizeHeaderName name, val) :: hdrs.map canon).Subperm s.table.rawMap := by
    apply List.subperm_of_subset (List.nodup_cons.mpr ⟨hstale, hnodup⟩)
    intro e he
    rcases List.mem_cons.mp he with rfl | he
    · exact HeaderTable.mem_rawMap.mpr hfind
    · exact hsubset e he
  have hle := linesLength_of_subperm hsubperm
  have hcanon : linesLength (hdrs.map canon) = linesLength hdrs := by
    unfold linesLength
    rw [List.map_map]
    apply congrArg List.sum
    apply List.map_congr_left
    intro h _
    show (canonizeHeaderName h.1).length + h.2.length + 4 = h.1.length + h.2.length + 4
    rw [canonizeHeaderName_length]
  unfold linesLength at hle hcanon ⊢
  rw [List.map_cons, List.sum_cons, hcanon] at hle
  omega

/-- **The answers are right exactly when the map holds what the calls so far mean.** -/
theorem answers_iff_find {it : Iteration} {s : Session} (hs : s.Sound) :
    Answers it s ↔ s.Tracks := by
  constructor
  · intro h name
    obtain ⟨hdrs, hrem, htext⟩ := h.listing
    cases hfind : s.table.toMap.find name with
    | none =>
      cases hlatest : latest name s.past with
      | none => rfl
      | some val =>
        rw [hs.keeps name val hlatest] at hfind
        cases hfind
    | some val =>
      cases hlatest : latest name s.past with
      | some v =>
        rw [hs.keeps name v hlatest] at hfind
        exact hfind.symm
      | none =>
        have hlong := hs.listing_too_long hfind hlatest hrem
        have hlength := congrArg List.length htext
        rw [HeaderTable.getAllForRequest_eq, flatMap_headerLine_length,
          flatMap_headerLine_length] at hlength
        have hperm : linesLength (it.order s.table.rawMap) = linesLength s.table.rawMap :=
          ((it.perm s.table.rawMap).map _).sum_eq
        omega
  · intro h
    refine ⟨fun name => ?_, it.order s.table.rawMap, ⟨?_, fun name val => ?_⟩, ?_⟩
    · rw [HeaderTable.get_eq, h name]
    · have hsymm : ∀ {a b : Str × Str}, equalsCaseInsensitiveASCII a.1 b.1 = false →
          equalsCaseInsensitiveASCII b.1 a.1 = false := by
        intro a b hab
        by_contra hba
        rw [equalsCaseInsensitiveASCII_symm (Bool.not_eq_false _ ▸ hba)] at hab
        cases hab
      exact ((it.perm s.table.rawMap).pairwise_iff hsymm).mpr hs.canonical.rawMap_once
    · rw [← h name, ← hs.canonical.find_iff]
      simp only [(it.perm s.table.rawMap).mem_iff]
    · exact HeaderTable.getAllForRequest_eq it s.table

/-- **One call.** A call leaves the answers right exactly when it does not remove a stored header
under another spelling. -/
theorem step_tracks_iff (asserts : Bool) (it : Iteration) {s : Session} (op : Op) (hs : s.Sound)
    (htracks : s.Tracks) :
    CanonicalRemove s op ↔ After Session.Tracks True (step asserts it s op) := by
  cases op with
  | set name val =>
    apply iff_of_true trivial
    dsimp only [step]
    split
    · trivial
    · rename_i table hset
      obtain rfl := HeaderTable.set_eq_ok hset
      intro n
      show (s.table.assign name val).toMap.find n = latest n (.set name val :: s.past)
      unfold latest
      rw [HeaderTable.find_assign, htracks n]
  | get name => exact iff_of_true trivial htracks
  | getAllForRequest => exact iff_of_true trivial htracks
  | remove name =>
    show _ ↔ ∀ n, (s.table.remove name).toMap.find n = latest n (.remove name :: s.past)
    constructor
    · intro hcanonical n
      rw [latest_remove]
      split
      · rename_i hsame
        rw [HeaderTable.find_remove]
        split
        · rfl
        · rename_i hne
          rcases hcanonical with hname | hnone
          · rw [← canonizeHeaderName_eq_iff.mpr hsame] at hne
            exact absurd hname hne
          · cases hfind : s.table.toMap.find n with
            | none => rfl
            | some val =>
              obtain ⟨h, hmem, hn, -⟩ := hs.canonical.find_iff.mpr hfind
              have hstored := hnone h hmem
              rw [equalsCaseInsensitiveASCII_trans hn] at hstored
              rw [equalsCaseInsensitiveASCII_symm hsame] at hstored
              cases hstored
      · rename_i hne
        rw [HeaderTable.find_remove_of_ne s.table hne]
        exact htracks n
    · intro hafter
      by_cases hname : canonizeHeaderName name = name
      · exact .inl hname
      refine .inr fun h hmem => ?_
      have hgone := hafter name
      have hself : equalsCaseInsensitiveASCII name name = true :=
        canonizeHeaderName_eq_iff.mp rfl
      rw [HeaderTable.find_remove, if_neg hname, latest_remove, if_pos hself] at hgone
      by_contra hsame
      have hfind := hs.canonical.find_iff.mp ⟨h, hmem, Bool.not_eq_false _ ▸ hsame, rfl⟩
      rw [hgone] at hfind
      cases hfind

/-- **The header map answers right throughout a run exactly when every removal of a stored header
gives its name in the canonical spelling.** -/
theorem headerMap_answers_iff (asserts : Bool) (it : Iteration) (ops : List Op) :
    Always (step asserts it) (Answers it) True {} ops ↔
      Allowed (step asserts it) CanonicalRemove {} ops := by
  have hstart : Answers it {} := (answers_iff_find Session.Sound.initial).mpr fun _ => rfl
  refine always_iff_allowed (fun s a r hs hstep => Session.Sound.step hs hstep) ?_
    Session.Sound.initial hstart ops
  intro s op hs hanswers
  rw [step_tracks_iff asserts it op hs ((answers_iff_find hs).mp hanswers)]
  cases hstep : step asserts it s op with
  | error e => exact Iff.rfl
  | ok r => exact (answers_iff_find (hs.step hstep)).symm

def acceptLower : Str := ['a', 'c', 'c', 'e', 'p', 't']

/-- `Remove("accept")` leaves the header that `Set("accept", "*")` has stored. -/
theorem remove_misses_lower_case :
    ¬ Always (step false .stored) (Answers .stored) True {}
      [.set acceptLower ['*'], .remove acceptLower] := by
  rintro ⟨-, -, hafter⟩
  have hget := hafter.get acceptLower
  exact absurd hget (by decide +kernel)

end Blinkit.Http.HeaderMap
