import Mathlib.Data.List.Infix
import Blinkit.Lib.Turns

/-!
# Inflating the body

`ResponseImpl::GZipInflate` gives the body to zlib and collects what `inflate` writes into a buffer
of 4096 bytes. The loop goes on while input is left.

* `Zlib` — `inflateInit2` and `inflate`, which are not part of the repository.
* `InflateContract` — what the documentation of zlib says of them.
* `gZipInflate` — the function; the result is what it assigns to the body, if it assigns.
* `Inflates` — what it should do; `Suits` — when it does.

Principal results: `gZipInflate_iff`, `inflate_forever`.
-/

set_option autoImplicit false

namespace Blinkit.Http

open Turns

abbrev Bytes := List UInt8

/-! ## zlib -/

def Z_OK : Int := 0

def Z_STREAM_END : Int := 1

def Z_NEED_DICT : Int := 2

def Z_DATA_ERROR : Int := -3

def Z_BUF_ERROR : Int := -5

/-- What a call of `inflate` leaves behind: the number of bytes it took, and those it wrote. -/
structure Inflated (σ : Type) where
  state : σ
  taken : Nat
  written : Bytes
  err : Int

/-- `inflate` is given the input and the room for its output. -/
structure Zlib (σ : Type) where
  inflateInit2 : Int × σ
  inflate : σ → Bytes → Nat → Inflated σ

/-- One byte of input stands for at most so many bytes of output. -/
def expansion : Nat := 1032

/-- `Left state rest data`: inside a complete stream, its bytes `rest` have not been taken and its
`data` have not been written. `held state` bounds what can be written without more input. -/
structure InflateContract {σ : Type} (z : Zlib σ) (Left : σ → Bytes → Bytes → Prop)
    (held : σ → Nat) : Prop where
  taken_le : ∀ state input room, (z.inflate state input room).taken ≤ input.length
  codes : ∀ state input room, (z.inflate state input room).err < 0 ∨
    (z.inflate state input room).err = Z_OK ∨ (z.inflate state input room).err = Z_STREAM_END ∨
    (z.inflate state input room).err = Z_NEED_DICT
  /-- `Z_OK` reports progress. -/
  progress : ∀ state input room, (z.inflate state input room).err = Z_OK →
    0 < (z.inflate state input room).taken ∨ (z.inflate state input room).written ≠ []
  held_le : ∀ state input room,
    (z.inflate state input room).written.length + held (z.inflate state input room).state ≤
      held state + expansion * (z.inflate state input room).taken
  /-- Behind the end, or without its dictionary, it takes and writes nothing. -/
  stays : ∀ state input room, (z.inflate state input room).err = Z_STREAM_END ∨
    (z.inflate state input room).err = Z_NEED_DICT → ∀ input' room',
      z.inflate (z.inflate state input room).state input' room' =
        ⟨(z.inflate state input room).state, 0, [], (z.inflate state input room).err⟩
  /-- Inside a stream it stops when the output is full, or the input is used up and the stream goes
  on; it reports the end when all has been taken and written. -/
  inside : ∀ state rest data input extra room, Left state rest data → input <+: rest ++ extra →
    0 < room → ∃ rest' data',
      rest = input.take (z.inflate state input room).taken ++ rest' ∧
      data = (z.inflate state input room).written ++ data' ∧
      (rest' = [] → data' = [] → (z.inflate state input room).err = Z_STREAM_END) ∧
      (¬ (rest' = [] ∧ data' = []) →
        Left (z.inflate state input room).state rest' data' ∧
        ((z.inflate state input room).written.length = room ∨
          (z.inflate state input room).taken = input.length ∧ rest' ≠ []) ∧
        (input ≠ [] → (z.inflate state input room).err = Z_OK))

/-! ## The source -/

section Source

variable {σ : Type} (z : Zlib σ)

def bufSize : Nat := 4096

/-- The `z_stream` and `uncompressedData`. -/
structure Inflating (σ : Type) where
  state : σ
  nextIn : Bytes
  uncompressedData : Bytes

namespace Inflating

variable (s : Inflating σ)

/-- `inflate` in the loop. -/
def call : Inflated σ := z.inflate s.state s.nextIn bufSize

/-- The `z_stream` behind the call. -/
def next : Inflating σ where
  state := (s.call z).state
  nextIn := s.nextIn.drop (s.call z).taken
  uncompressedData := s.uncompressedData ++ (s.call z).written

/-- One turn of the loop. -/
def turn : Inflating σ ⊕ Option Bytes :=
  if (s.call z).err < 0 then .inr none
  else if (s.next z).nextIn.length > 0 then .inl (s.next z)
  else .inr (some (s.next z).uncompressedData)

end Inflating

/-- `avail_in` is an `unsigned`. -/
def availIn (body : Bytes) : Nat := body.length % 4294967296

def startInflating (body : Bytes) : Inflating σ where
  state := z.inflateInit2.2
  nextIn := body.take (availIn body)
  uncompressedData := []

/-- `GZipInflate`, of at most `fuel` turns: what it assigns to the body. -/
def gZipInflate (fuel : Nat) (body : Bytes) : Option (Option Bytes) :=
  if z.inflateInit2.1 ≠ Z_OK then some none
  else loop (Inflating.turn z) fuel (startInflating z body)

/-- The body afterwards. -/
def bodyAfter (fuel : Nat) (body : Bytes) : Option Bytes :=
  (gZipInflate z fuel body).map fun assigned => assigned.getD body

end Source

/-! ## What the function should do -/

section Property

variable {σ : Type} (z : Zlib σ) (Left : σ → Bytes → Bytes → Prop) (body : Bytes)

/-- The body is a complete stream, or a complete stream and more. -/
def HoldsStream (data : Bytes) : Prop :=
  ∃ stream extra, Left z.inflateInit2.2 stream data ∧ body = stream ++ extra

/-- A call reports an error. A stream that is cut off is none: every call takes what there is and
reports `Z_OK`, the loop ends with the input, and the body becomes the data written so far. -/
def Fails : Prop :=
  z.inflateInit2.1 ≠ Z_OK ∨
    ∃ s, Reaches (Inflating.turn z) (startInflating z body) s ∧ (s.call z).err < 0

structure Inflates : Prop where
  terminates : ∃ fuel assigned, gZipInflate z fuel body = some assigned
  complete : z.inflateInit2.1 = Z_OK → ∀ data, HoldsStream z Left body data →
    ∀ fuel assigned, gZipInflate z fuel body = some assigned → assigned = some data
  unchanged : Fails z body → ∀ fuel after, bodyAfter z fuel body = some after → after = body

/-- The conditions on a call. What would follow is tried with the part of the body that was not
given to zlib. -/
structure Inflating.Suits (s : Inflating σ) : Prop where
  nothing_behind : (s.call z).err = Z_STREAM_END ∨ (s.call z).err = Z_NEED_DICT →
    (s.next z).nextIn = []
  all_written : (∃ data, HoldsStream z Left body data) →
    (s.call z).err < 0 ∨ (s.next z).nextIn = [] → 0 ≤ (s.call z).err ∧
      (z.inflate (s.call z).state (body.drop (availIn body)) bufSize).written = []

/-- Every call of the loop meets them. -/
def Suits : Prop :=
  z.inflateInit2.1 = Z_OK →
    ∀ s, Reaches (Inflating.turn z) (startInflating z body) s → s.Suits z Left body

end Property

/-! ## The loop -/

section Loop

variable {σ : Type} {z : Zlib σ} {Left : σ → Bytes → Bytes → Prop} {held : σ → Nat}
  {body data extra : Bytes} {s : Inflating σ}

theorem gZipInflate_iff_ends (hinit : z.inflateInit2.1 = Z_OK) {assigned : Option Bytes} :
    (∃ fuel, gZipInflate z fuel body = some assigned) ↔
      Ends (Inflating.turn z) (startInflating z body) assigned := by
  unfold gZipInflate Ends
  simp only [hinit, ne_eq, not_true_eq_false, if_false]

namespace Inflating

theorem turn_failed (herr : (s.call z).err < 0) : s.turn z = .inr none := by
  unfold turn
  rw [if_pos herr]

theorem turn_done (herr : 0 ≤ (s.call z).err) (hused : (s.next z).nextIn = []) :
    s.turn z = .inr (some (s.next z).uncompressedData) := by
  unfold turn
  rw [if_neg (by omega), hused, if_neg (by simp)]

theorem turn_inl {s' : Inflating σ} (hturn : s.turn z = .inl s') :
    0 ≤ (s.call z).err ∧ (s.next z).nextIn ≠ [] ∧ s' = s.next z := by
  unfold turn at hturn
  split at hturn
  · cases hturn
  · split at hturn
    · rename_i herr hleft
      cases hturn
      exact ⟨by omega, List.ne_nil_of_length_pos hleft, rfl⟩
    · cases hturn

theorem turn_inr {assigned : Option Bytes} (hturn : s.turn z = .inr assigned) :
    (s.call z).err < 0 ∧ assigned = none ∨
      0 ≤ (s.call z).err ∧ (s.next z).nextIn = [] ∧
        assigned = some (s.next z).uncompressedData := by
  unfold turn at hturn
  split at hturn
  · rename_i herr
    cases hturn
    exact .inl ⟨herr, rfl⟩
  · split at hturn
    · cases hturn
    · rename_i herr hleft
      cases hturn
      exact .inr ⟨by omega, List.eq_nil_of_length_eq_zero (by omega), rfl⟩

/-- Where `inflate` stays, the loop stays. -/
theorem turn_stays (c : InflateContract z Left held)
    (herr : (s.call z).err = Z_STREAM_END ∨ (s.call z).err = Z_NEED_DICT)
    (hleft : (s.next z).nextIn ≠ []) :
    s.turn z = .inl (s.next z) ∧ (s.next z).turn z = .inl (s.next z) := by
  have hpos : ¬ (s.call z).err < 0 := by
    unfold Z_STREAM_END Z_NEED_DICT at herr
    omega
  have hlength := List.length_pos_of_ne_nil hleft
  have hcall : (s.next z).call z = ⟨(s.call z).state, 0, [], (s.call z).err⟩ :=
    c.stays s.state s.nextIn bufSize herr _ _
  have hnext : (s.next z).next z = s.next z := by
    show (⟨((s.next z).call z).state, (s.next z).nextIn.drop ((s.next z).call z).taken,
      (s.next z).uncompressedData ++ ((s.next z).call z).written⟩ : Inflating σ) = _
    rw [hcall, List.drop_zero, List.append_nil]
    rfl
  constructor
  · unfold turn
    rw [if_neg hpos, if_pos hlength]
  · unfold turn
    rw [hcall, hnext, if_neg hpos, if_pos hlength]

/-- Without a stop of that kind, a turn that goes on brings the measure down. -/
theorem turn_measure (c : InflateContract z Left held)
    (hbehind : (s.call z).err = Z_STREAM_END ∨ (s.call z).err = Z_NEED_DICT →
      (s.next z).nextIn = []) {s' : Inflating σ} (hturn : s.turn z = .inl s') :
    held s'.state + (expansion + 1) * s'.nextIn.length <
      held s.state + (expansion + 1) * s.nextIn.length := by
  obtain ⟨herr, hleft, rfl⟩ := turn_inl hturn
  have hok : (s.call z).err = Z_OK := by
    rcases c.codes s.state s.nextIn bufSize with h | h | h | h
    · exact absurd h (by unfold call at herr; omega)
    · exact h
    · exact absurd (hbehind (.inl h)) hleft
    · exact absurd (hbehind (.inr h)) hleft
  have hprogress := c.progress s.state s.nextIn bufSize hok
  have hheld := c.held_le s.state s.nextIn bufSize
  have htaken := c.taken_le s.state s.nextIn bufSize
  have hmoved : 0 < (s.call z).taken ∨ 0 < (s.call z).written.length :=
    hprogress.imp_right List.length_pos_of_ne_nil
  have hlength : (s.next z).nextIn.length + (s.call z).taken = s.nextIn.length := by
    unfold next
    rw [List.length_drop]
    exact Nat.sub_add_cancel htaken
  show held (s.call z).state + _ < _
  unfold call expansion at *
  omega

end Inflating

/-! ## A complete stream -/

/-- Inside the stream of the body: what has been collected and what is to come make up `data`, and
what zlib has not taken and was not given make up what is left of the body. -/
structure Within (Left : σ → Bytes → Bytes → Prop) (body data extra : Bytes) (s : Inflating σ)
    (rest toCome : Bytes) : Prop where
  inside : Left s.state rest toCome
  collected : s.uncompressedData ++ toCome = data
  given : s.nextIn ++ body.drop (availIn body) = rest ++ extra

theorem Within.start {stream : Bytes} (hleft : Left z.inflateInit2.2 stream data)
    (hbody : body = stream ++ extra) :
    Within Left body data extra (startInflating z body) stream data where
  inside := hleft
  collected := rfl
  given := by
    rw [← hbody]
    exact List.take_append_drop _ _

/-- **One call inside the stream.** Either it takes and writes all that is left and reports the
end, or the stream goes on. -/
theorem Within.call (c : InflateContract z Left held) {rest toCome : Bytes}
    (w : Within Left body data extra s rest toCome) :
    ∃ rest' toCome', toCome = (s.call z).written ++ toCome' ∧
      (rest' = [] ∧ toCome' = [] ∧ (s.call z).err = Z_STREAM_END ∨
        Within Left body data extra (s.next z) rest' toCome') := by
  obtain ⟨rest', toCome', hrest, hdata, hend, hgoes⟩ :=
    c.inside s.state rest toCome s.nextIn extra bufSize w.inside ⟨_, w.given⟩ (by decide)
  refine ⟨rest', toCome', hdata, ?_⟩
  by_cases hall : rest' = [] ∧ toCome' = []
  · exact .inl ⟨hall.1, hall.2, hend hall.1 hall.2⟩
  · refine .inr ⟨(hgoes hall).1, ?_, ?_⟩
    · show s.uncompressedData ++ (s.call z).written ++ toCome' = data
      rw [List.append_assoc, ← w.collected, hdata]
      rfl
    · have hgiven := w.given
      rw [← List.take_append_drop (s.call z).taken s.nextIn, hrest, List.append_assoc,
        List.append_assoc] at hgiven
      exact List.append_cancel_left hgiven

/-- Given the whole rest of the stream, `inflate` writes nothing exactly when nothing is to come. -/
theorem written_eq_nil_iff (c : InflateContract z Left held) {state : σ} {rest toCome : Bytes}
    (hleft : Left state rest toCome) :
    (z.inflate state (rest ++ extra) bufSize).written = [] ↔ toCome = [] := by
  obtain ⟨rest', toCome', hrest, hdata, hend, hgoes⟩ :=
    c.inside state rest toCome (rest ++ extra) extra bufSize hleft (List.prefix_refl _) (by decide)
  constructor
  · intro hnil
    rw [hnil, List.nil_append] at hdata
    by_cases hall : rest' = [] ∧ toCome' = []
    · exact hdata.trans hall.2
    · rcases (hgoes hall).2.1 with hroom | ⟨htaken, hne⟩
      · rw [hnil] at hroom
        cases hroom
      · have hlength := congrArg List.length hrest
        rw [htaken, List.take_length, List.length_append, List.length_append] at hlength
        exact absurd (List.eq_nil_of_length_eq_zero (by omega)) hne
  · intro hnil
    rw [hnil] at hdata
    exact (List.append_eq_nil_iff.mp hdata.symm).1

/-- Where no call reports the end with input left, the loop stays inside the stream. -/
theorem within_reached (c : InflateContract z Left held) {start : Inflating σ} {rest toCome : Bytes}
    (hstart : Within Left body data extra start rest toCome)
    (hbehind : ∀ t, Reaches (Inflating.turn z) start t → (t.call z).err = Z_STREAM_END →
      (t.next z).nextIn = []) (hreach : Reaches (Inflating.turn z) start s) :
    ∃ rest toCome, Within Left body data extra s rest toCome := by
  induction hreach with
  | refl => exact ⟨rest, toCome, hstart⟩
  | tail hprev hturn ih =>
    obtain ⟨rest, toCome, w⟩ := ih
    obtain ⟨-, hleft, rfl⟩ := Inflating.turn_inl hturn
    obtain ⟨rest', toCome', -, ⟨-, -, herr⟩ | hnext⟩ := w.call c
    · exact absurd (hbehind _ hprev herr) hleft
    · exact ⟨rest', toCome', hnext⟩

/-- **The call that uses up the input.** All data have been collected exactly when a further call,
given the rest of the body, would write nothing. -/
theorem Within.all_collected (c : InflateContract z Left held) {rest toCome : Bytes}
    (w : Within Left body data extra s rest toCome) (hused : (s.next z).nextIn = []) :
    (s.next z).uncompressedData = data ↔
      (z.inflate (s.call z).state (body.drop (availIn body)) bufSize).written = [] := by
  obtain ⟨rest', toCome', hdata, ⟨-, hnil, herr⟩ | hnext⟩ := w.call c
  · have hstays := c.stays s.state s.nextIn bufSize (.inl herr) (body.drop (availIn body)) bufSize
    rw [hnil, List.append_nil] at hdata
    have hcollected : (s.next z).uncompressedData = data := by
      rw [← w.collected, hdata]
      rfl
    exact iff_of_true hcollected (congrArg Inflated.written hstays)
  · have hgiven := hnext.given
    rw [hused, List.nil_append] at hgiven
    rw [hgiven]
    refine Iff.trans ?_ (written_eq_nil_iff c hnext.inside).symm
    constructor
    · intro hall
      have hcollected := hnext.collected
      rw [hall] at hcollected
      exact List.append_right_eq_self.mp hcollected
    · intro hnil
      have hcollected := hnext.collected
      rw [hnil, List.append_nil] at hcollected
      exact hcollected

end Loop

/-! ## When the function does what it should -/

section Main

variable {σ : Type} {z : Zlib σ} {Left : σ → Bytes → Bytes → Prop} {held : σ → Nat}
  {body data : Bytes}

/-- A loop that ends has met no report of the end with input left. -/
theorem nothing_behind_of_ends (c : InflateContract z Left held) {assigned : Option Bytes}
    (hends : Ends (Inflating.turn z) (startInflating z body) assigned) {s : Inflating σ}
    (hreach : Reaches (Inflating.turn z) (startInflating z body) s)
    (herr : (s.call z).err = Z_STREAM_END ∨ (s.call z).err = Z_NEED_DICT) :
    (s.next z).nextIn = [] := by
  by_contra hleft
  obtain ⟨hturn, hfixed⟩ := Inflating.turn_stays c herr hleft
  exact not_ends (hreach.tail hturn) hfixed hends

/-- The last turn of a loop that ends, for a body that holds a stream. -/
theorem assigned_iff (c : InflateContract z Left held) {s : Inflating σ}
    {assigned : Option Bytes} (hholds : HoldsStream z Left body data)
    (hends : Ends (Inflating.turn z) (startInflating z body) assigned)
    (hreach : Reaches (Inflating.turn z) (startInflating z body) s)
    (hlast : s.turn z = .inr assigned) :
    assigned = some data ↔ 0 ≤ (s.call z).err ∧
      (z.inflate (s.call z).state (body.drop (availIn body)) bufSize).written = [] := by
  obtain ⟨stream, extra, hleft, hbody⟩ := hholds
  obtain ⟨rest, toCome, w⟩ := within_reached c (Within.start hleft hbody)
    (fun t ht herr => nothing_behind_of_ends c hends ht (.inl herr)) hreach
  rcases Inflating.turn_inr hlast with ⟨herr, rfl⟩ | ⟨herr, hused, rfl⟩
  · refine iff_of_false (by simp) fun h => ?_
    omega
  · rw [Option.some_inj, w.all_collected c hused]
    exact (and_iff_right herr).symm

theorem suits_of_inflates (c : InflateContract z Left held) (h : Inflates z Left body) :
    Suits z Left body := by
  intro hinit s hreach
  obtain ⟨fuel, assigned, hfuel⟩ := h.terminates
  have hends := (gZipInflate_iff_ends hinit).mp ⟨fuel, hfuel⟩
  refine ⟨nothing_behind_of_ends c hends hreach, ?_⟩
  rintro ⟨data, hholds⟩ hstop
  have hlast : ∃ assigned, s.turn z = .inr assigned := by
    rcases Int.lt_or_le (s.call z).err 0 with herr | herr
    · exact ⟨none, Inflating.turn_failed herr⟩
    · refine ⟨_, Inflating.turn_done herr (hstop.resolve_left ?_)⟩
      omega
  obtain ⟨assigned', hlast⟩ := hlast
  obtain rfl := hends.unique (ends_iff.mpr ⟨s, hreach, hlast⟩)
  exact (assigned_iff c hholds hends hreach hlast).mp
    (h.complete hinit data hholds fuel assigned hfuel)

theorem inflates_of_suits (c : InflateContract z Left held) (h : Suits z Left body) :
    Inflates z Left body where
  terminates := by
    by_cases hinit : z.inflateInit2.1 = Z_OK
    · obtain ⟨assigned, hends⟩ :
          ∃ assigned, Ends (Inflating.turn z) (startInflating z body) assigned :=
        ends_of_measure (fun s => held s.state + (expansion + 1) * s.nextIn.length)
          fun t t' hreach hturn =>
            Inflating.turn_measure c (h hinit t hreach).nothing_behind hturn
      obtain ⟨fuel, hfuel⟩ := (gZipInflate_iff_ends hinit).mpr hends
      exact ⟨fuel, assigned, hfuel⟩
    · refine ⟨0, none, ?_⟩
      unfold gZipInflate
      rw [if_pos hinit]
  complete := by
    intro hinit data hholds fuel assigned hfuel
    have hends := (gZipInflate_iff_ends hinit).mp ⟨fuel, hfuel⟩
    obtain ⟨s, hreach, hlast⟩ := ends_iff.mp hends
    have hstop : (s.call z).err < 0 ∨ (s.next z).nextIn = [] :=
      (Inflating.turn_inr hlast).imp And.left fun hdone => hdone.2.1
    exact (assigned_iff c hholds hends hreach hlast).mpr
      ((h hinit s hreach).all_written ⟨data, hholds⟩ hstop)
  unchanged := by
    intro hfails fuel after hafter
    obtain ⟨assigned, hfuel, rfl⟩ := Option.map_eq_some_iff.mp hafter
    have hnone : assigned = none := by
      by_cases hinit : z.inflateInit2.1 = Z_OK
      · obtain ⟨s, hreach, herr⟩ := hfails.resolve_left (not_not.mpr hinit)
        exact ((gZipInflate_iff_ends hinit).mp ⟨fuel, hfuel⟩).unique
          (ends_iff.mpr ⟨s, hreach, Inflating.turn_failed herr⟩)
      · unfold gZipInflate at hfuel
        rw [if_pos hinit] at hfuel
        cases hfuel
        rfl
    rw [hnone]
    rfl

/-- **Inflating a body.** For every body the function ends, gives the data of a complete stream and
leaves the body as it is after an error, exactly when no call reports the end of the stream, or asks
for a dictionary, with input left, and no output is left when the input has been used up. -/
theorem gZipInflate_iff (c : InflateContract z Left held) (body : Bytes) :
    Inflates z Left body ↔ Suits z Left body :=
  ⟨suits_of_inflates c, inflates_of_suits c⟩

end Main

/-! ## One stream -/

/-- An `inflate` that knows one stream. -/
def oneStream (stream data : Bytes) : Zlib (Nat × Nat) where
  inflateInit2 := (Z_OK, 0, 0)
  inflate state input room :=
    let rest := stream.drop state.1
    if ¬ (input <+: rest) ∧ ¬ (rest <+: input) then ⟨state, 0, [], Z_DATA_ERROR⟩
    else
      let taken := min input.length rest.length
      let written := if input.length < rest.length then [] else (data.drop state.2).take room
      let state' := (state.1 + taken, state.2 + written.length)
      ⟨state', taken, written,
        if stream.length ≤ state'.1 ∧ data.length ≤ state'.2 then Z_STREAM_END
        else if taken = 0 ∧ written = [] then Z_BUF_ERROR
        else Z_OK⟩

structure OneLeft (stream data : Bytes) (state : Nat × Nat) (rest toCome : Bytes) : Prop where
  rest_eq : rest = stream.drop state.1
  toCome_eq : toCome = data.drop state.2

def oneHeld (stream data : Bytes) (state : Nat × Nat) : Nat :=
  if stream.length ≤ state.1 then data.length - state.2 else 0

section OneStream

variable {stream data input : Bytes} {state : Nat × Nat} {room : Nat}

/-- A call with input that does not belong to the stream. -/
theorem oneStream_failed (h : ¬ (input <+: stream.drop state.1) ∧ ¬ (stream.drop state.1 <+: input)) :
    (oneStream stream data).inflate state input room = ⟨state, 0, [], Z_DATA_ERROR⟩ := by
  unfold oneStream
  dsimp only
  rw [if_pos h]

/-- A call with input that ends inside the stream. -/
theorem oneStream_part (hpre : input <+: stream.drop state.1)
    (hlt : input.length < (stream.drop state.1).length) :
    (oneStream stream data).inflate state input room = ⟨(state.1 + input.length, state.2),
      input.length, [], if input = [] then Z_BUF_ERROR else Z_OK⟩ := by
  have hstream : (stream.drop state.1).length = stream.length - state.1 := List.length_drop
  unfold oneStream
  dsimp only
  rw [if_neg (fun h => h.1 hpre), Nat.min_eq_left hlt.le, if_pos hlt, List.length_nil,
    if_neg (fun h => by omega)]
  simp only [and_true, List.length_eq_zero_iff, Nat.add_zero]

/-- A call with all that is left of the stream. -/
theorem oneStream_full (hpre : stream.drop state.1 <+: input) :
    (oneStream stream data).inflate state input room =
      ⟨(state.1 + (stream.drop state.1).length,
          state.2 + ((data.drop state.2).take room).length),
        (stream.drop state.1).length, (data.drop state.2).take room,
        if data.length ≤ state.2 + ((data.drop state.2).take room).length then Z_STREAM_END
        else if (stream.drop state.1).length = 0 ∧ (data.drop state.2).take room = []
          then Z_BUF_ERROR
        else Z_OK⟩ := by
  have hstream : (stream.drop state.1).length = stream.length - state.1 := List.length_drop
  have hle := hpre.length_le
  unfold oneStream
  dsimp only
  rw [if_neg (fun h => h.2 hpre), Nat.min_eq_right hle, if_neg (by omega)]
  have hall : stream.length ≤ state.1 + (stream.drop state.1).length := by omega
  simp only [hall, true_and]

theorem oneStream_cases (stream : Bytes) (state : Nat × Nat) (input : Bytes) :
    (¬ (input <+: stream.drop state.1) ∧ ¬ (stream.drop state.1 <+: input)) ∨
      (input <+: stream.drop state.1 ∧ input.length < (stream.drop state.1).length) ∨
      stream.drop state.1 <+: input := by
  by_cases hfull : stream.drop state.1 <+: input
  · exact .inr (.inr hfull)
  · by_cases hpart : input <+: stream.drop state.1
    · refine .inr (.inl ⟨hpart, ?_⟩)
      by_contra hge
      have heq := hpart.eq_of_length_le (by omega)
      exact hfull (heq ▸ List.prefix_refl _)
    · exact .inl ⟨hpart, hfull⟩

theorem oneStream_contract (hdata : data.length ≤ expansion) :
    InflateContract (oneStream stream data) (OneLeft stream data) (oneHeld stream data) where
  taken_le state input room := by
    rcases oneStream_cases stream state input with h | ⟨hpre, hlt⟩ | hpre
    · rw [oneStream_failed h]
      exact Nat.zero_le _
    · rw [oneStream_part hpre hlt]
    · rw [oneStream_full hpre]
      exact hpre.length_le
  codes state input room := by
    rcases oneStream_cases stream state input with h | ⟨hpre, hlt⟩ | hpre
    · rw [oneStream_failed h]
      exact .inl (show Z_DATA_ERROR < 0 by decide)
    · rw [oneStream_part hpre hlt]
      dsimp only
      split
      · exact .inl (by decide)
      · exact .inr (.inl rfl)
    · rw [oneStream_full hpre]
      dsimp only
      split
      · exact .inr (.inr (.inl rfl))
      · split
        · exact .inl (by decide)
        · exact .inr (.inl rfl)
  progress state input room := by
    rcases oneStream_cases stream state input with h | ⟨hpre, hlt⟩ | hpre
    · rw [oneStream_failed h]
      intro herr
      cases herr
    · rw [oneStream_part hpre hlt]
      dsimp only
      split
      · intro herr
        cases herr
      · rename_i hne
        exact fun _ => .inl (List.length_pos_of_ne_nil hne)
    · rw [oneStream_full hpre]
      dsimp only
      intro herr
      by_contra hnot
      rw [not_or, not_not] at hnot
      split at herr
      · cases herr
      · rw [if_pos ⟨Nat.eq_zero_of_not_pos hnot.1, hnot.2⟩] at herr
        cases herr
  held_le state input room := by
    have hdrop : (stream.drop state.1).length = stream.length - state.1 := List.length_drop
    unfold expansion at *
    rcases oneStream_cases stream state input with h | ⟨hpre, hlt⟩ | hpre
    · rw [oneStream_failed h]
      simp
    · rw [oneStream_part hpre hlt]
      unfold oneHeld
      dsimp only
      rw [if_neg (by omega), List.length_nil]
      omega
    · have hwritten : ((data.drop state.2).take room).length ≤ data.length - state.2 := by
        rw [List.length_take, List.length_drop]
        omega
      rw [oneStream_full hpre]
      unfold oneHeld
      dsimp only
      rw [if_pos (by omega)]
      split
      · omega
      · omega
  stays state input room herr input' room' := by
    rcases oneStream_cases stream state input with h | ⟨hpre, hlt⟩ | hpre
    · rw [oneStream_failed h] at herr
      rcases herr with herr | herr <;> cases herr
    · rw [oneStream_part hpre hlt] at herr
      dsimp only at herr
      split at herr <;> rcases herr with herr | herr <;> cases herr
    · have hdrop : (stream.drop state.1).length = stream.length - state.1 := List.length_drop
      rw [oneStream_full hpre] at herr ⊢
      dsimp only at herr ⊢
      have hend : data.length ≤ state.2 + ((data.drop state.2).take room).length := by
        by_contra hnot
        rw [if_neg hnot] at herr
        split at herr <;> rcases herr with herr | herr <;> cases herr
      have hrest : stream.drop (state.1 + (stream.drop state.1).length) = [] := by
        rw [List.drop_eq_nil_iff]
        omega
      have hwritten : (data.drop (state.2 + ((data.drop state.2).take room).length)).take room' =
          [] := by
        rw [List.drop_eq_nil_of_le hend, List.take_nil]
      rw [if_pos hend, oneStream_full (by dsimp only; rw [hrest]; exact List.nil_prefix)]
      dsimp only
      rw [hrest, hwritten, List.length_nil, Nat.add_zero, Nat.add_zero, if_pos hend]
  inside state rest toCome input extra room hleft hpre hroom := by
    obtain ⟨rfl, rfl⟩ := hleft
    rcases oneStream_cases stream state input with h | ⟨hpart, hlt⟩ | hfull
    · rcases List.prefix_or_prefix_of_prefix hpre (List.prefix_append _ extra) with hp | hp
      · exact absurd hp h.1
      · exact absurd hp h.2
    · rw [oneStream_part hpart hlt]
      have hne : stream.drop (state.1 + input.length) ≠ [] := by
        rw [ne_eq, List.drop_eq_nil_iff]
        rw [List.length_drop] at hlt
        omega
      refine ⟨stream.drop (state.1 + input.length), data.drop state.2, ?_, rfl,
        fun hnil => absurd hnil hne, fun _ => ⟨⟨rfl, rfl⟩, .inr ⟨rfl, hne⟩, fun hinput => ?_⟩⟩
      · dsimp only
        rw [← List.drop_drop, List.take_length]
        obtain ⟨t, ht⟩ := hpart
        rw [← ht, List.drop_left]
      · exact if_neg hinput
    · rw [oneStream_full hfull]
      have hrest : stream.drop (state.1 + (stream.drop state.1).length) = [] := by
        rw [List.drop_eq_nil_iff, List.length_drop]
        omega
      refine ⟨[], data.drop (state.2 + ((data.drop state.2).take room).length), ?_, ?_, ?_, ?_⟩
      · dsimp only
        obtain ⟨t, ht⟩ := hfull
        rw [← ht, List.take_left, List.append_nil]
      · dsimp only
        rw [← List.drop_drop]
        conv_lhs => rw [← List.take_append_drop room (data.drop state.2)]
        congr 1
        rw [List.length_take]
        rcases Nat.le_total room (data.drop state.2).length with hle | hle
        · rw [Nat.min_eq_left hle]
        · rw [Nat.min_eq_right hle, List.drop_length, List.drop_eq_nil_of_le hle]
      · intro _ hnil
        exact if_pos (List.drop_eq_nil_iff.mp hnil)
      · intro hnot
        have hmore : ¬ data.length ≤ state.2 + ((data.drop state.2).take room).length :=
          fun hle => hnot ⟨rfl, List.drop_eq_nil_of_le hle⟩
        have hwritten : ((data.drop state.2).take room).length = room := by
          rw [List.length_take, List.length_drop] at hmore ⊢
          omega
        refine ⟨⟨hrest.symm, rfl⟩, .inl hwritten, fun hinput => ?_⟩
        dsimp only
        rw [if_neg hmore, if_neg]
        rintro ⟨-, hnil⟩
        rw [hnil, List.length_nil] at hwritten
        omega

end OneStream

/-- The letter A. -/
def letterStream : Bytes :=
  [0x1f, 0x8b, 8, 0, 0, 0, 0, 0, 0, 3, 0x73, 4, 0, 0x8b, 0x9e, 0xd9, 0xd3, 1, 0, 0, 0]

def letterZlib : Zlib (Nat × Nat) := oneStream letterStream [65]

theorem letterZlib_contract :
    InflateContract letterZlib (OneLeft letterStream [65]) (oneHeld letterStream [65]) :=
  oneStream_contract (by decide)

/-- The stream alone. -/
theorem inflates_letter : Inflates letterZlib (OneLeft letterStream [65]) letterStream := by
  refine (gZipInflate_iff letterZlib_contract letterStream).mpr fun _ s hreach => ?_
  obtain rfl := hreach.eq_of_last (r := some [65]) rfl
  exact ⟨fun _ => rfl, fun _ _ => ⟨by decide, rfl⟩⟩

/-- **With one more byte the loop does not end.** -/
theorem inflate_forever :
    InflateContract letterZlib (OneLeft letterStream [65]) (oneHeld letterStream [65]) ∧
      HoldsStream letterZlib (OneLeft letterStream [65]) (letterStream ++ [0]) [65] ∧
      (∀ fuel, gZipInflate letterZlib fuel (letterStream ++ [0]) = none) ∧
      ¬ Inflates letterZlib (OneLeft letterStream [65]) (letterStream ++ [0]) := by
  have hnever : ∀ fuel, gZipInflate letterZlib fuel (letterStream ++ [0]) = none := by
    intro fuel
    by_contra hsome
    obtain ⟨assigned, hfuel⟩ := Option.ne_none_iff_exists'.mp hsome
    have hreach : Reaches (Inflating.turn letterZlib)
        (startInflating letterZlib (letterStream ++ [0])) ⟨(21, 1), [0], [65]⟩ :=
      (Reaches.refl _).tail rfl
    exact not_ends hreach rfl ((gZipInflate_iff_ends rfl).mp ⟨fuel, hfuel⟩)
  refine ⟨letterZlib_contract, ⟨letterStream, [0], ⟨rfl, rfl⟩, rfl⟩, hnever, fun h => ?_⟩
  obtain ⟨fuel, assigned, hfuel⟩ := h.terminates
  rw [hnever fuel] at hfuel
  cases hfuel

end Blinkit.Http
