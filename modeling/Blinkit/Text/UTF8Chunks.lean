import Blinkit.Text.UTF8Sequences

/-!
# UTF-8 in chunks

The bytes that a call keeps are completed by the next one. Where they turn out to be broken, the rest
of them is decoded again; a character there is taken off the count of the kept bytes, but the bytes
behind it are not moved to the front.

* `Overtaken`, `Spared` — a two-byte character directly behind the first byte of a four-byte one, and
  the bytes that survive it: the byte behind the character is replaced by the character's first.
* `Reads` — what has been decoded, and what is left of the bytes.
* `Held` — the bytes that a handler has in hand.

Principal result: `utf8_chunks_iff`: all chunks are read like the whole exactly when the bytes are
spared.
-/

set_option autoImplicit false

namespace Blinkit.Text

/-! ## Bytes that are lost -/

/-- A four-byte sequence begins with `l`, and is broken by a character of two bytes. -/
structure Overtaken (l c x : UInt8) : Prop where
  four : 0xF0 ≤ l.toNat ∧ l.toNat < 0xF5
  two : 0xC2 ≤ c.toNat ∧ c.toNat < 0xE0
  continues : 0x80 ≤ x.toNat ∧ x.toNat ≤ 0xBF

/-- Behind every such character the text is the one that its first byte gives. -/
def Spared (bytes : Bytes) : Prop :=
  ∀ front l c x y behind, bytes = front ++ l :: c :: x :: y :: behind → Overtaken l c x →
    plainText (y :: behind) = plainText (c :: behind)

section Spared

variable {bytes front : Bytes}

theorem Spared.behind (h : Spared (front ++ bytes)) : Spared bytes := by
  intro front' l c x y behind hbytes ho
  refine h (front ++ front') l c x y behind ?_ ho
  rw [hbytes, List.append_assoc]

theorem Spared.drop (h : Spared bytes) (n : Nat) : Spared (bytes.drop n) := by
  rw [← List.take_append_drop n bytes] at h
  exact h.behind

/-- A byte that begins no four-byte sequence loses nothing. -/
theorem Spared.cons {b : UInt8} (h : Spared bytes) (hb : b.toNat < 0xF0) : Spared (b :: bytes) := by
  intro front l c x y behind hbytes ho
  cases front with
  | nil =>
    rw [List.nil_append] at hbytes
    obtain rfl : b = l := (List.cons.inj hbytes).1
    have := ho.four
    omega
  | cons b' front =>
    rw [List.cons_append] at hbytes
    exact h front l c x y behind (List.cons.inj hbytes).2 ho

theorem spared_of_short (h : bytes.length ≤ 3) : Spared bytes := by
  intro front l c x y behind hbytes _
  have hlength := congrArg List.length hbytes
  simp only [List.length_append, List.length_cons] at hlength
  omega

end Spared

/-! ## What has been decoded -/

/-- Of `whole`, `text` has been decoded, and `remaining` is left. -/
structure Reads (whole : Bytes) (text : Units) (sawError : Bool) (remaining : Bytes) : Prop where
  text : plainText whole = text ++ plainText remaining
  error : plainError whole = (sawError || plainError remaining)

section Reads

variable {whole remaining : Bytes} {text t : Units} {sawError : Bool} {n : Nat}

theorem Reads.start (whole : Bytes) : Reads whole [] false whole := ⟨rfl, rfl⟩

theorem Reads.character (h : Reads whole text sawError remaining)
    (hseq : sequenceAt remaining = .character t n) (hn : 1 ≤ n) :
    Reads whole (text ++ t) sawError (remaining.drop n) := by
  obtain ⟨htext, herror⟩ := plain_of_character hseq hn
  refine ⟨?_, ?_⟩
  · rw [h.text, htext, List.append_assoc]
  · rw [h.error, herror]

theorem Reads.broken (h : Reads whole text sawError remaining)
    (hseq : sequenceAt remaining = .broken n) (hn : 1 ≤ n) :
    Reads whole (text ++ [kReplacementCharacter]) true (remaining.drop n) ∧
      plainError whole = true := by
  obtain ⟨htext, herror⟩ := plain_of_broken hseq hn
  have hwhole : plainError whole = true := by
    rw [h.error, herror, Bool.or_true]
  refine ⟨⟨?_, hwhole⟩, hwhole⟩
  rw [h.text, htext, List.append_assoc]
  rfl

/-- At the end of the bytes a byte of an incomplete sequence is broken. -/
theorem Reads.incomplete {first : UInt8} {rest : Bytes}
    (h : Reads whole text sawError (first :: rest)) (hseq : sequenceAt (first :: rest) = .incomplete) :
    Reads whole (text ++ [kReplacementCharacter]) true rest ∧ plainError whole = true := by
  obtain ⟨htext, herror⟩ := plain_of_incomplete hseq
  have hwhole : plainError whole = true := by
    rw [h.error, herror, Bool.or_true]
  refine ⟨⟨?_, hwhole⟩, hwhole⟩
  rw [h.text, htext, List.append_assoc]
  rfl

theorem Reads.ascii {run : Bytes} (h : Reads whole text sawError (run ++ remaining))
    (hrun : run.all isASCII = true) : Reads whole (text ++ widened run) sawError remaining := by
  obtain ⟨htext, herror⟩ := plain_of_ascii hrun remaining
  refine ⟨?_, ?_⟩
  · rw [h.text, htext, List.append_assoc]
  · rw [h.error, herror]

end Reads

/-! ## The kept bytes -/

/-- What a handler has in hand, with the bytes behind it: three bytes at most, or a four-byte
sequence. Where two of three bytes are a character, the third may be lost. -/
structure Held (sequence behind : Bytes) (sawError : Bool) : Prop where
  short : sequence.length ≤ 3 ∨ ∃ l rest, sequence = l :: rest ∧ rest.length = 3 ∧
    nonASCIISequenceLength l = 4
  lost : ∀ c x y, sequence = [c, x, y] → 0xC2 ≤ c.toNat → c.toNat < 0xE0 →
    0x80 ≤ x.toNat ∧ x.toNat ≤ 0xBF →
      sawError = true ∧ plainText (y :: behind) = plainText (c :: behind)

theorem Held.of_two {sequence behind : Bytes} {sawError : Bool} (h : sequence.length ≤ 2) :
    Held sequence behind sawError := by
  refine ⟨.inl (by omega), ?_⟩
  rintro c x y rfl
  simp only [List.length_cons, List.length_nil] at h
  omega

theorem eq_pair_of_length {l : Bytes} (h : l.length = 2) : ∃ x y, l = [x, y] := by
  match l, h with
  | [x, y], _ => exact ⟨x, y, rfl⟩

theorem lead_of_decode_two {s : Bytes} {c : Nat} (h : decodeNonASCIISequence s 2 = (c : Int)) :
    0xC2 ≤ (s.getD 0 0).toNat := by
  by_contra hlow
  unfold decodeNonASCIISequence at h
  dsimp only at h
  rw [if_pos rfl, if_pos] at h
  · unfold kNonCharacter1 at h
    omega
  · rw [UInt8.lt_iff_toNat_lt, show (0xC2 : UInt8).toNat = 0xC2 from rfl]
    omega

/-- The state of a handler. -/
structure InHand (whole sequence behind : Bytes) (text : Units) (sawError : Bool) : Prop where
  reads : Reads whole text sawError (sequence ++ behind)
  spared : Spared (sequence ++ behind)
  held : Held sequence behind sawError

section InHand

variable {whole rest behind : Bytes} {first : UInt8} {text : Units} {sawError : Bool} {k c : Nat}

theorem InHand.rest_le (h : InHand whole (first :: rest) behind text sawError) :
    rest.length ≤ 2 ∨ rest.length = 3 ∧ nonASCIISequenceLength first = 4 := by
  rcases h.held.short with hshort | ⟨l, rest', heq, hlength, hl⟩
  · rw [List.length_cons] at hshort
    exact .inl (by omega)
  · rw [(List.cons.inj heq).1, (List.cons.inj heq).2]
    exact .inr ⟨hlength, hl⟩

/-- A byte is taken that is a sequence by itself. -/
theorem InHand.rest_held (h : InHand whole (first :: rest) behind text sawError)
    (hfour : nonASCIISequenceLength first ≠ 4) {t : Units} {saw : Bool}
    (hr : Reads whole t saw (rest ++ behind)) : InHand whole rest behind t saw := by
  refine ⟨hr, h.spared.drop 1, .of_two ?_⟩
  exact h.rest_le.resolve_right fun hlong => hfour hlong.2

/-- Behind a broken part of the bytes in hand there are three bytes at most; when they begin with a
character of two, the third may be lost. -/
theorem InHand.broken (hr : Reads whole text sawError (first :: rest ++ behind))
    (hs : Spared (first :: rest ++ behind)) (hlength : rest.length ≤ 3)
    (hfour : rest.length = 3 → nonASCIISequenceLength first = 4) (hk : 1 ≤ k)
    (hle : k ≤ rest.length + 1) (hseq : sequenceAt (first :: rest ++ behind) = .broken k) :
    InHand whole ((first :: rest).drop k) behind (text ++ [kReplacementCharacter]) true ∧
      plainError whole = true := by
  obtain ⟨hr', herror⟩ := hr.broken hseq hk
  have hs' := hs.drop k
  rw [List.drop_append_of_le_length (by rwa [List.length_cons])] at hr' hs'
  refine ⟨⟨hr', hs', .inl ?_, ?_⟩, herror⟩
  · rw [List.length_drop, List.length_cons]
    omega
  · intro c x y hdrop hlow hhigh hx
    have hdropped := congrArg List.length hdrop
    simp only [List.length_drop, List.length_cons, List.length_nil] at hdropped
    obtain rfl : k = 1 := by omega
    obtain rfl : rest = [c, x, y] := hdrop
    have hlead := nonASCIISequenceLength_cases first
    rw [hfour rfl] at hlead
    exact ⟨rfl, hs [] first c x y behind rfl ⟨by omega, ⟨hlow, hhigh⟩, hx⟩⟩

/-- Behind a character nothing is in hand, or its first byte stands for the byte that is lost. -/
theorem InHand.character (hr : Reads whole text sawError (first :: rest ++ behind))
    (hs : Spared (first :: rest ++ behind))
    (hheld : nonASCIISequenceLength first ≤ rest.length →
      InHand whole (first :: rest) behind text sawError)
    (hle : nonASCIISequenceLength first ≤ rest.length + 1)
    (h0 : nonASCIISequenceLength first ≠ 0)
    (hcontinues : Continues (first :: rest) (nonASCIISequenceLength first))
    (hdecode : decodeNonASCIISequence (first :: rest) (nonASCIISequenceLength first) = (c : Int))
    (hseq : sequenceAt (first :: rest ++ behind) =
      .character (appendCharacter c) (nonASCIISequenceLength first)) :
    InHand whole ((first :: rest).take (rest.length + 1 - nonASCIISequenceLength first)) behind
      (text ++ appendCharacter c) sawError := by
  have hr' := hr.character hseq (by omega)
  have hs' := hs.drop (nonASCIISequenceLength first)
  have hcases := nonASCIISequenceLength_cases first
  rcases Nat.lt_or_ge rest.length (nonASCIISequenceLength first) with hall | hmore
  · have hwhole : nonASCIISequenceLength first = rest.length + 1 := by omega
    rw [hwhole, Nat.sub_self, List.take_zero]
    rw [hwhole, ← List.length_cons, List.drop_left] at hr' hs'
    exact ⟨hr', hs', .of_two (Nat.zero_le 2)⟩
  · -- the byte behind the character is lost
    have hin := hheld hmore
    have htwo : nonASCIISequenceLength first = 2 ∧ rest.length = 2 := by
      have := hin.rest_le
      omega
    obtain ⟨x, y, rfl⟩ := eq_pair_of_length htwo.2
    rw [htwo.1] at hdecode hcontinues hr' hs' hcases ⊢
    have hlead := lead_of_decode_two hdecode
    obtain ⟨hsaw, hlost⟩ := hin.held.lost first x y rfl hlead (by omega)
      (hcontinues 1 (Nat.le_refl 1) (by decide))
    have hbehind : Spared behind := hs'.drop 1
    refine ⟨⟨?_, ?_⟩, hbehind.cons (by omega), .of_two (Nat.le_succ 1)⟩
    · rw [hr'.text]
      exact congrArg _ hlost
    · rw [hr'.error, hsaw]
      rfl

end InHand

/-- What a handler comes to: nothing is kept, or all the bytes are. `spare` is what the bytes are
known to be. -/
inductive HandledTo (whole future : Bytes) (flush : Bool) (spare : Prop) (length : Nat) :
    Handled16 → Prop
  | handled {source : Bytes} {text : Units} {sawError : Bool}
    (reads : Reads whole text sawError (source ++ future))
    (spared : spare → Spared (source ++ future)) (hle : source.length ≤ length) :
    HandledTo whole future flush spare length ⟨[], source, text, sawError⟩
  | kept {sequence source : Bytes} {text : Units} {sawError : Bool} (noFlush : flush = false)
    (hne : sequence ≠ []) (hincomplete : sequenceAt sequence = .incomplete)
    (reads : Reads whole text sawError (sequence ++ future))
    (spared : spare → Spared (sequence ++ future)) :
    HandledTo whole future flush spare length ⟨sequence, source, text, sawError⟩

theorem HandledTo.mono {whole future : Bytes} {flush : Bool} {spare : Prop} {m n : Nat}
    {h : Handled16} (hto : HandledTo whole future flush spare m h) (hle : m ≤ n) :
    HandledTo whole future flush spare n h := by
  cases hto with
  | handled reads spared hm => exact .handled reads spared (Nat.le_trans hm hle)
  | kept noFlush hne hincomplete reads spared => exact .kept noFlush hne hincomplete reads spared

/-- **`HandlePartialSequence<UChar>`.** -/
theorem handled16 {flush stopOnError : Bool} {whole future : Bytes} {spare : Prop}
    (hstop : stopOnError = true → plainError whole = false) (hflush : flush = true → future = [])
    {rounds : Nat} {sequence source : Bytes} {text : Units} {sawError : Bool}
    (hin : InHand whole sequence (source ++ future) text sawError)
    (hrounds : sequence.length + source.length ≤ rounds) :
    HandledTo whole future flush spare source.length
      (handlePartialSequence16 flush stopOnError rounds sequence source text sawError) := by
  -- an error in the whole does not stop the codec
  have hgoes : plainError whole = true → ¬ stopOnError = true := by
    intro herror hstops
    rw [hstop hstops] at herror
    cases herror
  induction rounds generalizing sequence source text sawError with
  | zero =>
    obtain rfl := List.length_eq_zero_iff.mp (by omega : sequence.length = 0)
    exact .handled hin.reads (fun _ => hin.spared) (Nat.le_refl _)
  | succ rounds ih =>
    cases sequence with
    | nil => exact .handled hin.reads (fun _ => hin.spared) (Nat.le_refl _)
    | cons first rest =>
      rw [List.length_cons] at hrounds
      have hrest := hin.rest_le
      have hcases := nonASCIISequenceLength_cases first
      unfold handlePartialSequence16
      by_cases hascii : isASCII first = true
      · rw [if_pos hascii]
        have hfour : nonASCIISequenceLength first ≠ 4 := by
          intro hfour
          rw [not_ascii_of_length (by omega)] at hascii
          cases hascii
        exact ih (hin.rest_held hfour (hin.reads.character (sequenceAt_ascii hascii _)
          (Nat.le_refl 1))) (by omega)
      · rw [if_neg hascii]
        rw [Bool.not_eq_true] at hascii
        dsimp only
        split
        · rename_i hzero
          obtain ⟨hr, herror⟩ := hin.reads.broken (sequenceAt_zero hascii hzero _) (Nat.le_refl 1)
          rw [if_neg (hgoes herror)]
          exact ih (hin.rest_held (by omega) hr) (by omega)
        · rename_i h0
          split
          · rename_i hshort
            split
            · rename_i hnoflush
              have hincomplete : sequenceAt (first :: rest ++ source) = .incomplete := by
                refine sequenceAt_short ?_
                show (rest ++ source).length + 1 < _
                rw [List.length_append]
                omega
              have hr := hin.reads
              have hs := hin.spared
              rw [← List.append_assoc] at hr hs
              exact .kept (by simpa using hnoflush) (by simp) hincomplete hr fun _ => hs
            · rename_i hdoes
              obtain rfl := hflush (by simpa using hdoes)
              have hincomplete : sequenceAt (first :: (rest ++ (source ++ []))) = .incomplete := by
                refine sequenceAt_short ?_
                rw [List.append_nil, List.length_append]
                omega
              obtain ⟨hr, herror⟩ := hin.reads.incomplete hincomplete
              rw [if_neg (hgoes herror)]
              exact ih ⟨hr, hin.spared.drop 1, .of_two (by omega)⟩ (by omega)
          · rename_i hlong
            generalize hm : nonASCIISequenceLength first - (rest.length + 1) = missing
            -- the sequence is filled up from the source
            have hfilled : rest ++ (source ++ future) =
                (rest ++ source.take missing) ++ (source.drop missing ++ future) := by
              rw [List.append_assoc, ← List.append_assoc (source.take missing),
                List.take_append_drop]
            have hlength : (rest ++ source.take missing).length = rest.length + missing := by
              rw [List.length_append, List.length_take]
              omega
            have hdrop : (source.drop missing).length = source.length - missing :=
              List.length_drop
            have hr := hin.reads
            have hs := hin.spared
            rw [List.cons_append, hfilled, ← List.cons_append] at hr hs
            have hbegins := sequenceAt_begins first (rest ++ source.take missing)
            generalize hseq : sequenceAt (first :: (rest ++ source.take missing)) = found at hbegins
            have hmore : found ≠ .incomplete → sequenceAt (first :: (rest ++ source.take missing) ++
                (source.drop missing ++ future)) = found := by
              intro hne
              rw [sequenceAt_append _ (by rwa [hseq]), hseq]
            rw [List.cons_append]
            cases hbegins with
            | ascii h =>
              rw [h] at hascii
              cases hascii
            | zero _ h => exact absurd h h0
            | short h => omega
            | broken k _ _ hk hlt _ hdecode =>
              rw [hdecode, if_pos (isNonCharacter_neg hk (by omega)), Int.neg_neg,
                Int.toNat_natCast]
              obtain ⟨hin', herror⟩ := InHand.broken hr hs (by omega) (by omega) hk (by omega)
                (hmore nofun)
              rw [if_neg (hgoes herror)]
              refine (ih hin' ?_).mono (by omega)
              rw [List.length_drop, List.length_cons]
              omega
            | character c _ hle _ _ hcontinues hdecode =>
              rw [hdecode, isNonCharacter_ofNat, if_neg Bool.false_ne_true, Int.toNat_natCast,
                List.length_cons]
              refine (ih (InHand.character hr hs ?_ hle h0 hcontinues hdecode (hmore nofun)) ?_).mono
                (by omega)
              · intro hall
                obtain rfl : missing = 0 := by omega
                rwa [List.take_zero, List.append_nil, List.drop_zero]
              · rw [List.length_take, List.length_cons]
                omega

theorem short_of_incomplete {first : UInt8} {rest : Bytes}
    (h : sequenceAt (first :: rest) = .incomplete) :
    rest.length + 1 < nonASCIISequenceLength first := by
  have hbegins := sequenceAt_begins first rest
  rw [h] at hbegins
  cases hbegins with
  | short h => exact h

theorem length_of_incomplete {s : Bytes} (h : sequenceAt s = .incomplete) : s.length ≤ 3 := by
  cases s with
  | nil => exact Nat.zero_le 3
  | cons first rest =>
    have hshort := short_of_incomplete h
    have hfour := nonASCIISequenceLength_le first
    rw [List.length_cons]
    omega

/-- An incomplete sequence loses nothing by itself. -/
theorem held_of_incomplete {s : Bytes} (h : sequenceAt s = .incomplete) (behind : Bytes)
    (sawError : Bool) : Held s behind sawError := by
  refine ⟨.inl (length_of_incomplete h), ?_⟩
  rintro c x y rfl hlow hhigh -
  have hshort := short_of_incomplete h
  have hcases := nonASCIISequenceLength_cases c
  simp only [List.length_cons, List.length_nil] at hshort
  omega

theorem appendCharacter_latin {c : Nat} (h : c ≤ 0xFF) : appendCharacter c = [UInt16.ofNat c] :=
  if_pos (by omega)

theorem handlePartialSequence8_nil (flush : Bool) (rounds : Nat) (source : Bytes) (text : Units) :
    handlePartialSequence8 flush rounds [] source text = ⟨false, [], source, text⟩ := by
  cases rounds <;> rfl

theorem handlePartialSequence16_nil (flush stopOnError : Bool) (rounds : Nat) (source : Bytes)
    (text : Units) (sawError : Bool) :
    handlePartialSequence16 flush stopOnError rounds [] source text sawError =
      ⟨[], source, text, sawError⟩ := by
  cases rounds <;> rfl

/-- What the handler of 8-bit characters comes to: the 16-bit string is started, with the same bytes
and without a new character, or the sequence is handled. -/
def Handled8To (whole future : Bytes) (flush : Bool) (spare : Prop) (length : Nat) (text : Units)
    (sawError : Bool) (h : Handled8) : Prop :=
  if h.upConvert then InHand whole h.partialSequence (h.source ++ future) text sawError
  else HandledTo whole future flush spare length ⟨h.partialSequence, h.source, h.text, sawError⟩

/-- **`HandlePartialSequence<LChar>`.** -/
theorem handled8 {flush : Bool} {whole future sequence source : Bytes} {text : Units}
    {sawError : Bool} {spare : Prop} (hne : sequence ≠ []) (hincomplete : sequenceAt sequence = .incomplete)
    (hr : Reads whole text sawError (sequence ++ (source ++ future)))
    (hs : Spared (sequence ++ (source ++ future))) :
    Handled8To whole future flush spare source.length text sawError
      (handlePartialSequence8 flush (sequence.length + source.length) sequence source text) := by
  cases sequence with
  | nil => exact absurd rfl hne
  | cons first rest =>
    have hshort := short_of_incomplete hincomplete
    have hascii := not_ascii_of_length (Nat.ne_zero_of_lt hshort)
    have hfour := nonASCIISequenceLength_le first
    rw [List.length_cons, Nat.add_right_comm]
    unfold handlePartialSequence8
    rw [if_neg (Bool.eq_false_iff.mp hascii)]
    dsimp only
    rw [if_neg (Nat.ne_zero_of_lt hshort)]
    split
    · rename_i hmissing
      split
      · rename_i hnoflush
        have hstill : sequenceAt (first :: rest ++ source) = .incomplete := by
          refine sequenceAt_short ?_
          show (rest ++ source).length + 1 < _
          rw [List.length_append]
          omega
        rw [← List.append_assoc] at hr hs
        exact HandledTo.kept (by simpa using hnoflush) (by simp) hstill hr fun _ => hs
      · exact (⟨hr, hs, held_of_incomplete hincomplete _ _⟩ : InHand _ _ _ _ _)
    · rename_i hlong
      generalize hm : nonASCIISequenceLength first - (rest.length + 1) = missing
      have hfilled : rest ++ (source ++ future) =
          (rest ++ source.take missing) ++ (source.drop missing ++ future) := by
        rw [List.append_assoc, ← List.append_assoc (source.take missing), List.take_append_drop]
      have hlength : (rest ++ source.take missing).length = rest.length + missing := by
        rw [List.length_append, List.length_take]
        omega
      rw [List.cons_append, hfilled, ← List.cons_append] at hr hs
      rw [List.cons_append]
      split
      · refine (⟨hr, hs, ?_, ?_⟩ : InHand _ _ _ _ _)
        · rcases Nat.lt_or_ge (nonASCIISequenceLength first) 4 with hlt | hge
          · refine .inl ?_
            rw [List.length_cons]
            omega
          · exact .inr ⟨first, _, rfl, by omega, by omega⟩
        · intro c x y heq hlow hhigh
          obtain ⟨hfirst, htail⟩ := List.cons.inj heq
          rw [← hfirst] at hlow hhigh
          have hcases := nonASCIISequenceLength_cases first
          have htwo := congrArg List.length htail
          rw [hlength] at htwo
          simp only [List.length_cons, List.length_nil] at htwo
          omega
      · rename_i hlatin
        have hnone : (first :: (rest ++ source.take missing)).length -
            nonASCIISequenceLength first = 0 := by
          rw [List.length_cons]
          omega
        rw [hnone, List.take_zero, handlePartialSequence8_nil]
        have hbegins := sequenceAt_begins first (rest ++ source.take missing)
        generalize hseq : sequenceAt (first :: (rest ++ source.take missing)) = found at hbegins
        cases hbegins with
        | ascii h =>
          rw [h] at hascii
          cases hascii
        | zero _ h => omega
        | short h => omega
        | broken k _ _ hk hlt _ hdecode =>
          rw [hdecode] at hlatin
          omega
        | character c h0 hle _ _ hcontinues hdecode =>
          rw [hdecode] at hlatin ⊢
          have hmore : sequenceAt (first :: (rest ++ source.take missing) ++
              (source.drop missing ++ future)) =
                .character (appendCharacter c) (nonASCIISequenceLength first) := by
            rw [sequenceAt_append _ (by rw [hseq]; nofun), hseq]
          have hin := InHand.character hr hs (fun hle => by omega) hle h0 hcontinues hdecode hmore
          have hzero : (rest ++ source.take missing).length + 1 -
              nonASCIISequenceLength first = 0 := by
            omega
          rw [hzero, List.take_zero, appendCharacter_latin (by omega)] at hin
          rw [Int.toNat_natCast]
          exact HandledTo.handled hin.reads (fun _ => hin.spared) (by rw [List.length_drop]; omega)

/-! ## The loops -/

/-- What a loop leaves is an incomplete sequence. `spare` is what the bytes in front are known to
be. -/
structure Leaves (whole future : Bytes) (spare : Prop) (r : Pass16) : Prop where
  reads : Reads whole r.text r.sawError (r.partialSequence ++ future)
  incomplete : sequenceAt r.partialSequence = .incomplete
  spared : spare → Spared (r.partialSequence ++ future)

/-- The bytes of the sequence that is incomplete at the end. -/
def incompleteTail : Bytes → Bytes
  | [] => []
  | first :: rest =>
    match sequenceAt (first :: rest) with
    | .incomplete => first :: rest
    | .character _ n => incompleteTail (rest.drop (n - 1))
    | .broken n => incompleteTail (rest.drop (n - 1))
termination_by bytes => bytes.length

/-- The 8-bit loop leaves the same, or the rest of the source to the 16-bit loop. -/
inductive Leaves8 (whole future : Bytes) (spare : Prop) (tail : Bytes) : Pass8 → Prop
  | ended {sequence : Bytes} {text : Units} {sawError : Bool}
    (h : Leaves whole future spare ⟨sequence, text, sawError⟩) (htail : sequence = tail) :
    Leaves8 whole future spare tail (.ended sequence text sawError)
  | upConvert {source : Bytes} {text : Units} {sawError : Bool}
    (reads : Reads whole text sawError (source ++ future))
    (spared : spare → Spared (source ++ future)) (htail : incompleteTail source = tail) :
    Leaves8 whole future spare tail (.upConvert [] source text sawError)

theorem incompleteTail_of_character {s : Bytes} {t : Units} {n : Nat}
    (h : sequenceAt s = .character t n) (hn : 1 ≤ n) :
    incompleteTail s = incompleteTail (s.drop n) := by
  cases s with
  | nil => cases h
  | cons first rest =>
    obtain ⟨m, rfl⟩ := Nat.exists_eq_add_of_le' hn
    rw [incompleteTail, h]
    rfl

theorem incompleteTail_of_broken {s : Bytes} {n : Nat} (h : sequenceAt s = .broken n) (hn : 1 ≤ n) :
    incompleteTail s = incompleteTail (s.drop n) := by
  cases s with
  | nil => cases h
  | cons first rest =>
    obtain ⟨m, rfl⟩ := Nat.exists_eq_add_of_le' hn
    rw [incompleteTail, h]
    rfl

theorem incompleteTail_of_incomplete {s : Bytes} (h : sequenceAt s = .incomplete) :
    incompleteTail s = s := by
  cases s with
  | nil => rw [incompleteTail]
  | cons first rest => rw [incompleteTail, h]

theorem incompleteTail_of_ascii {run : Bytes} (hrun : run.all isASCII = true) (rest : Bytes) :
    incompleteTail (run ++ rest) = incompleteTail rest := by
  induction run with
  | nil => rfl
  | cons b run ih =>
    rw [List.all_cons, Bool.and_eq_true] at hrun
    exact (incompleteTail_of_character (sequenceAt_ascii hrun.1 (run ++ rest))
      (Nat.le_refl 1)).trans (ih hrun.2)

section Loops

variable {word : MachineWord} {stopOnError : Bool} {whole future : Bytes} {spare : Prop}
  {rounds : Nat} {source : Bytes}
  {text : Units} {sawError : Bool}

/-- A round of ASCII. -/
theorem Reads.run {first : UInt8} {rest : Bytes} (hascii : isASCII first = true) (address : Nat)
    (hr : Reads whole text sawError (first :: rest ++ future))
    (hs : spare → Spared (first :: rest ++ future)) :
    let n := asciiRun word address (first :: rest)
    Reads whole (text ++ widened ((first :: rest).take n)) sawError
        ((first :: rest).drop n ++ future) ∧
      (spare → Spared ((first :: rest).drop n ++ future)) ∧
      ((first :: rest).drop n).length ≤ rest.length ∧
      incompleteTail (first :: rest) = incompleteTail ((first :: rest).drop n) := by
  obtain ⟨hpos, hle, hall⟩ := asciiRun_spec word address hascii rest
  dsimp only
  generalize asciiRun word address (first :: rest) = n at *
  have hsplit : first :: rest ++ future =
      (first :: rest).take n ++ ((first :: rest).drop n ++ future) := by
    rw [← List.append_assoc, List.take_append_drop]
  rw [hsplit] at hr hs
  refine ⟨hr.ascii hall, fun h => (hs h).behind, ?_, ?_⟩
  · rw [List.length_drop, List.length_cons]
    omega
  · have htail := incompleteTail_of_ascii hall ((first :: rest).drop n)
    rwa [List.take_append_drop] at htail

/-- The bytes behind what has been taken. -/
theorem Spared.dropped {k : Nat} (hs : spare → Spared (source ++ future)) (hk : k ≤ source.length) :
    spare → Spared (source.drop k ++ future) := by
  intro h
  have hdrop := (hs h).drop k
  rwa [List.drop_append_of_le_length hk] at hdrop

theorem loop16 (word : MachineWord) (hstop : stopOnError = true → plainError whole = false)
    (address : Nat)
    (hr : Reads whole text sawError (source ++ future)) (hs : spare → Spared (source ++ future))
    (hrounds : source.length ≤ rounds) :
    let r := decodeLoop16 word stopOnError rounds address source text sawError
    Leaves whole future spare r ∧ r.partialSequence = incompleteTail source := by
  dsimp only
  have hgoes : plainError whole = true → ¬ stopOnError = true := by
    intro herror hstops
    rw [hstop hstops] at herror
    cases herror
  induction rounds generalizing address source text sawError with
  | zero =>
    obtain rfl := List.length_eq_zero_iff.mp (Nat.le_zero.mp hrounds)
    exact ⟨⟨hr, rfl, hs⟩, (incompleteTail_of_incomplete rfl).symm⟩
  | succ rounds ih =>
    cases source with
    | nil => exact ⟨⟨hr, rfl, hs⟩, (incompleteTail_of_incomplete rfl).symm⟩
    | cons first rest =>
      rw [List.length_cons] at hrounds
      unfold decodeLoop16
      dsimp only
      by_cases hascii : isASCII first = true
      · rw [if_pos hascii]
        obtain ⟨hr', hs', hlength, htail⟩ := hr.run hascii address hs
        rw [htail]
        exact ih _ hr' hs' (by omega)
      · rw [if_neg hascii]
        rw [Bool.not_eq_true] at hascii
        have hbegins := sequenceAt_begins first rest
        generalize hseq : sequenceAt (first :: rest) = found at hbegins
        have hmore : found ≠ .incomplete → sequenceAt (first :: rest ++ future) = found := by
          intro hne
          rw [sequenceAt_append _ (by rwa [hseq]), hseq]
        have hbroken : ∀ k, 1 ≤ k → k ≤ rest.length + 1 → found = .broken k →
            let r := if stopOnError then ⟨[], text, true⟩ else
              decodeLoop16 word stopOnError rounds (address + k) ((first :: rest).drop k)
                (text ++ [kReplacementCharacter]) true
            Leaves whole future spare r ∧ r.partialSequence = incompleteTail (first :: rest) := by
          rintro k hk hle rfl
          obtain ⟨hr', herror⟩ := hr.broken (hmore nofun) hk
          rw [List.drop_append_of_le_length (by rwa [List.length_cons])] at hr'
          rw [if_neg (hgoes herror), incompleteTail_of_broken hseq hk]
          refine ih _ hr' (Spared.dropped hs (by rwa [List.length_cons])) ?_
          rw [List.length_drop, List.length_cons]
          omega
        cases hbegins with
        | ascii h =>
          rw [h] at hascii
          cases hascii
        | zero _ h =>
          rw [h, if_neg (Nat.not_lt_zero _), if_pos rfl]
          exact hbroken 1 (Nat.le_refl 1) (by omega) rfl
        | short h =>
          rw [if_pos (by rwa [List.length_cons])]
          exact ⟨⟨hr, hseq, hs⟩, (incompleteTail_of_incomplete hseq).symm⟩
        | broken k h0 hle hk hlt _ hdecode =>
          have hfour := nonASCIISequenceLength_le first
          rw [if_neg (by rw [List.length_cons]; omega), if_neg h0, hdecode,
            if_pos (isNonCharacter_neg hk (by omega)), Int.neg_neg, Int.toNat_natCast]
          exact hbroken k hk (by omega) rfl
        | character c h0 hle _ _ _ hdecode =>
          rw [if_neg (by rw [List.length_cons]; omega), if_neg h0, hdecode, isNonCharacter_ofNat,
            if_neg Bool.false_ne_true, Int.toNat_natCast,
            incompleteTail_of_character hseq (by omega)]
          have hr' := hr.character (hmore nofun) (by omega)
          rw [List.drop_append_of_le_length (by rwa [List.length_cons])] at hr'
          refine ih _ hr' (Spared.dropped hs (by rwa [List.length_cons])) ?_
          rw [List.length_drop, List.length_cons]
          omega

theorem loop8 (word : MachineWord) (hstop : stopOnError = true → plainError whole = false)
    (address : Nat)
    (hr : Reads whole text sawError (source ++ future)) (hs : spare → Spared (source ++ future))
    (hrounds : source.length ≤ rounds) :
    Leaves8 whole future spare (incompleteTail source)
      (decodeLoop8 word stopOnError rounds address source text sawError) := by
  induction rounds generalizing address source text sawError with
  | zero =>
    obtain rfl := List.length_eq_zero_iff.mp (Nat.le_zero.mp hrounds)
    exact .ended ⟨hr, rfl, hs⟩ (incompleteTail_of_incomplete rfl).symm
  | succ rounds ih =>
    cases source with
    | nil => exact .ended ⟨hr, rfl, hs⟩ (incompleteTail_of_incomplete rfl).symm
    | cons first rest =>
      rw [List.length_cons] at hrounds
      unfold decodeLoop8
      dsimp only
      by_cases hascii : isASCII first = true
      · rw [if_pos hascii]
        obtain ⟨hr', hs', hlength, htail⟩ := hr.run hascii address hs
        rw [htail]
        exact ih _ hr' hs' (by omega)
      · rw [if_neg hascii]
        rw [Bool.not_eq_true] at hascii
        have hbegins := sequenceAt_begins first rest
        generalize hseq : sequenceAt (first :: rest) = found at hbegins
        have hmore : found ≠ .incomplete → sequenceAt (first :: rest ++ future) = found := by
          intro hne
          rw [sequenceAt_append _ (by rwa [hseq]), hseq]
        have hbroken : ∀ k, 1 ≤ k → found = .broken k →
            Leaves8 whole future spare (incompleteTail (first :: rest))
              (if stopOnError then .ended [] text true
              else .upConvert [] (first :: rest) text true) := by
          rintro k hk rfl
          obtain ⟨-, herror⟩ := hr.broken (hmore nofun) hk
          rw [if_neg fun hstops => by rw [hstop hstops] at herror; cases herror]
          exact .upConvert ⟨hr.text, by rw [herror]; rfl⟩ hs rfl
        cases hbegins with
        | ascii h =>
          rw [h] at hascii
          cases hascii
        | zero _ h =>
          rw [h, if_neg (Nat.not_lt_zero _), if_pos rfl]
          exact hbroken 1 (Nat.le_refl 1) rfl
        | short h =>
          rw [if_pos (by rwa [List.length_cons])]
          exact .ended ⟨hr, hseq, hs⟩ (incompleteTail_of_incomplete hseq).symm
        | broken k h0 hle hk hlt _ hdecode =>
          have hfour := nonASCIISequenceLength_le first
          rw [if_neg (by rw [List.length_cons]; omega), if_neg h0, hdecode,
            if_pos (isNonCharacter_neg hk (by omega))]
          exact hbroken k hk rfl
        | character c h0 hle _ _ _ hdecode =>
          rw [if_neg (by rw [List.length_cons]; omega), if_neg h0, hdecode, isNonCharacter_ofNat,
            if_neg Bool.false_ne_true, Int.toNat_natCast]
          split
          · exact .upConvert hr hs rfl
          · rename_i hlatin
            rw [incompleteTail_of_character hseq (by omega)]
            have hr' := hr.character (hmore nofun) (by omega)
            rw [List.drop_append_of_le_length (by rwa [List.length_cons]),
              appendCharacter_latin (by omega)] at hr'
            refine ih _ hr' (Spared.dropped hs (by rwa [List.length_cons])) ?_
            rw [List.length_drop, List.length_cons]
            omega

end Loops

/-! ## A call -/

/-- The state in front of a round of the outer loop. -/
structure Ready (whole sequence behind : Bytes) (text : Units) (sawError : Bool) (spare : Prop) :
    Prop where
  reads : Reads whole text sawError (sequence ++ behind)
  spared : sequence ≠ [] ∨ spare → Spared (sequence ++ behind)
  held : sequence ≠ [] → Held sequence behind sawError

/-- What a call comes to. -/
def Finishes (whole future : Bytes) (flush : Bool) (spare : Prop) (r : Pass16) : Prop :=
  Leaves whole future spare r ∧ (flush = true → r.partialSequence = [])

/-- What the 8-bit string comes to. -/
def Finishes8 (whole future : Bytes) (flush : Bool) (spare : Prop) : Pass8 → Prop
  | .ended sequence text sawError => Finishes whole future flush spare ⟨sequence, text, sawError⟩
  | .upConvert sequence source text sawError =>
    Ready whole sequence (source ++ future) text sawError spare

section Calls

variable {word : MachineWord} {flush stopOnError : Bool} {whole future sequence source : Bytes}
  {spare : Prop}
  {text : Units} {sawError : Bool}

/-- A sequence at the end of the bytes is ready. -/
theorem Leaves.ready (h : Leaves whole [] spare ⟨sequence, text, sawError⟩) :
    Ready whole sequence ([] ++ []) text sawError spare := by
  refine ⟨h.reads, fun _ => spared_of_short ?_, fun _ => held_of_incomplete h.incomplete _ _⟩
  rw [List.append_nil, List.append_nil]
  exact length_of_incomplete h.incomplete

/-- The handler in front of the 16-bit loop. -/
theorem handled_of_ready (hstop : stopOnError = true → plainError whole = false)
    (hflush : flush = true → future = [])
    (h : Ready whole sequence (source ++ future) text sawError spare) :
    HandledTo whole future flush spare source.length (handlePartialSequence16 flush stopOnError
      (sequence.length + source.length) sequence source text sawError) := by
  by_cases hne : sequence = []
  · subst hne
    rw [handlePartialSequence16_nil]
    exact .handled h.reads (fun hspare => h.spared (.inr hspare)) (Nat.le_refl _)
  · exact handled16 hstop hflush ⟨h.reads, h.spared (.inl hne), h.held hne⟩ (Nat.le_refl _)

/-- The last round of the outer loop. -/
theorem decode16_drained (hstop : stopOnError = true → plainError whole = false) (rounds address : Nat)
    (h : Ready whole sequence ([] ++ []) text sawError spare) :
    Finishes whole [] true spare
      (decode16 word true stopOnError (rounds + 1) address sequence [] text sawError) := by
  unfold decode16
  dsimp only
  have hto := handled_of_ready hstop (fun _ : true = true => rfl) h
  generalize handlePartialSequence16 true stopOnError (sequence.length + ([] : Bytes).length)
    sequence [] text sawError = q at hto
  cases hto with
  | kept noFlush => cases noFlush
  | handled reads spared hle =>
    obtain rfl := List.length_eq_zero_iff.mp (Nat.le_zero.mp hle)
    exact ⟨⟨reads, rfl, spared⟩, fun _ => rfl⟩

/-- The outer loop behind a first call of the handler. -/
theorem decode16_handled (word : MachineWord)
    (hstop : stopOnError = true → plainError whole = false)
    (hflush : flush = true → future = []) (address : Nat)
    (hto : HandledTo whole future flush spare source.length (handlePartialSequence16 flush
      stopOnError (sequence.length + source.length) sequence source text sawError)) :
    Finishes whole future flush spare (decode16 word flush stopOnError TextCodecUTF8.outerRounds
      address sequence source text sawError) := by
  unfold TextCodecUTF8.outerRounds decode16
  dsimp only
  generalize handlePartialSequence16 flush stopOnError (sequence.length + source.length) sequence
    source text sawError = q at hto
  cases hto with
  | kept noFlush hne hincomplete reads spared =>
    rw [if_pos hne]
    exact ⟨⟨reads, hincomplete, spared⟩, fun hflushes => by rw [noFlush] at hflushes; cases hflushes⟩
  | @handled source' text' sawError' reads spared hle =>
    rw [if_neg (fun hne => hne rfl)]
    obtain ⟨hleaves, -⟩ :=
      loop16 word hstop (address + (source.length - source'.length)) reads spared (Nat.le_refl _)
    generalize decodeLoop16 word stopOnError source'.length
      (address + (source.length - source'.length))
      source' text' sawError' = r at hleaves
    dsimp only
    split
    · rename_i hmore
      obtain rfl := hflush hmore.1
      obtain rfl := hmore.1
      exact decode16_drained hstop _ _ hleaves.ready
    · rename_i hdone
      refine ⟨hleaves, fun hflushes => ?_⟩
      by_contra hne
      exact hdone ⟨hflushes, hne⟩

/-- The handler in front of the 8-bit loop. -/
theorem handled8_of_ready (flush : Bool) (hincomplete : sequenceAt sequence = .incomplete)
    (h : Ready whole sequence (source ++ future) text sawError spare) :
    let r := handlePartialSequence8 flush (sequence.length + source.length) sequence source text
    (r.upConvert = true ∧ Ready whole r.partialSequence (r.source ++ future) text sawError spare) ∨
      (r.upConvert = false ∧ r.partialSequence = [] ∧
        Reads whole r.text sawError (r.source ++ future) ∧
        (spare → Spared (r.source ++ future)) ∧ r.source.length ≤ source.length) ∨
      (r.upConvert = false ∧ flush = false ∧ r.partialSequence ≠ [] ∧
        Leaves whole future spare ⟨r.partialSequence, r.text, sawError⟩) := by
  dsimp only
  by_cases hne : sequence = []
  · subst hne
    rw [handlePartialSequence8_nil]
    exact .inr (.inl ⟨rfl, rfl, h.reads, fun hspare => h.spared (.inr hspare), Nat.le_refl _⟩)
  · have hto : Handled8To whole future flush spare source.length text sawError
        (handlePartialSequence8 flush (sequence.length + source.length) sequence source text) :=
      handled8 hne hincomplete h.reads (h.spared (.inl hne))
    generalize handlePartialSequence8 flush (sequence.length + source.length) sequence source text =
      r at hto
    unfold Handled8To at hto
    split at hto
    · rename_i hup
      exact .inl ⟨hup, hto.reads, fun _ => hto.spared, fun _ => hto.held⟩
    · rename_i hup
      rw [Bool.not_eq_true] at hup
      obtain ⟨up, sequence', source', text'⟩ := r
      cases hto with
      | handled reads spared hle => exact .inr (.inl ⟨hup, rfl, reads, spared, hle⟩)
      | kept noFlush hne' hincomplete' reads spared =>
        exact .inr (.inr ⟨hup, noFlush, hne', reads, hincomplete', spared⟩)

theorem decode8_drained (rounds address : Nat) (hincomplete : sequenceAt sequence = .incomplete)
    (h : Ready whole sequence ([] ++ []) text sawError spare) :
    Finishes8 whole [] true spare
      (decode8 word true stopOnError (rounds + 1) address sequence [] text sawError) := by
  unfold decode8
  dsimp only
  have hround := handled8_of_ready true hincomplete h
  generalize handlePartialSequence8 true (sequence.length + ([] : Bytes).length) sequence [] text =
    r at hround
  rcases hround with ⟨hup, hready⟩ | ⟨hup, hkept, hr, hs, hle⟩ | ⟨-, hno, -⟩
  · rw [if_pos hup]
    exact hready
  · obtain ⟨up, sequence', source', text'⟩ := r
    obtain rfl : up = false := hup
    obtain rfl : sequence' = [] := hkept
    obtain rfl : source' = [] := List.length_eq_zero_iff.mp (Nat.le_zero.mp hle)
    exact ⟨⟨hr, rfl, hs⟩, fun _ => rfl⟩
  · cases hno

theorem decode8_spec (word : MachineWord) (hstop : stopOnError = true → plainError whole = false)
    (hflush : flush = true → future = []) (address : Nat)
    (hincomplete : sequenceAt sequence = .incomplete)
    (h : Ready whole sequence (source ++ future) text sawError spare) :
    Finishes8 whole future flush spare (decode8 word flush stopOnError TextCodecUTF8.outerRounds
      address sequence source text sawError) := by
  unfold TextCodecUTF8.outerRounds decode8
  dsimp only
  have hround := handled8_of_ready flush hincomplete h
  generalize handlePartialSequence8 flush (sequence.length + source.length) sequence source text =
    r at hround
  rcases hround with ⟨hup, hready⟩ | ⟨hup, hkept, hr, hs, -⟩ | ⟨hup, hno, hne, hleaves⟩
  · rw [if_pos hup]
    exact hready
  · rw [hup, if_neg Bool.false_ne_true, if_neg (fun hne => hne hkept)]
    have hleaves := loop8 word hstop (address + (source.length - r.source.length)) hr hs
      (Nat.le_refl _)
    generalize decodeLoop8 word stopOnError r.source.length
      (address + (source.length - r.source.length)) r.source r.text sawError = q at hleaves
    cases hleaves with
    | ended hended htail =>
      dsimp only
      split
      · rename_i hmore
        obtain rfl := hflush hmore.1
        obtain rfl := hmore.1
        exact decode8_drained _ _ hended.incomplete hended.ready
      · rename_i hdone
        refine ⟨hended, fun hflushes => ?_⟩
        by_contra hne
        exact hdone ⟨hflushes, hne⟩
    | upConvert reads spared htail =>
      exact ⟨reads, fun hor => spared (hor.resolve_left fun hne => hne rfl), fun hne => absurd rfl hne⟩
  · rw [hup, if_neg Bool.false_ne_true, if_pos hne]
    exact ⟨hleaves, fun hflushes => by rw [hno] at hflushes; cases hflushes⟩

/-- **A call of `Decode`.** The text of what it takes is the text of the bytes, unless a byte is
lost behind a sequence that was kept. -/
theorem decode_spec (word : MachineWord) (codec : TextCodecUTF8) (bytes future : Bytes)
    {flush : FlushBehavior}
    (address : Nat) (spare : Prop) (hincomplete : sequenceAt codec.partialSequence = .incomplete)
    (hspared : codec.partialSequence ≠ [] ∨ spare →
      Spared (codec.partialSequence ++ (bytes ++ future)))
    (hstop : stopOnError = true →
      plainError (codec.partialSequence ++ (bytes ++ future)) = false)
    (hflush : flush ≠ .doNotFlush → future = []) :
    let r := codec.decode word address bytes flush stopOnError
    Finishes (codec.partialSequence ++ (bytes ++ future)) future (flush != .doNotFlush) spare
      ⟨r.codec.partialSequence, r.text, r.sawError⟩ := by
  have hflush' : (flush != .doNotFlush) = true → future = [] := fun h => hflush (bne_iff_ne.mp h)
  have hready : Ready (codec.partialSequence ++ (bytes ++ future)) codec.partialSequence
      (bytes ++ future) [] false spare :=
    ⟨.start _, hspared, fun _ => held_of_incomplete hincomplete _ _⟩
  have hfinishes := decode8_spec word hstop hflush' address hincomplete hready
  unfold TextCodecUTF8.decode
  dsimp only
  generalize decode8 word (flush != .doNotFlush) stopOnError TextCodecUTF8.outerRounds address
    codec.partialSequence bytes [] false = q at hfinishes
  cases q with
  | ended sequence text sawError => exact hfinishes
  | upConvert sequence source text sawError =>
    exact decode16_handled word hstop hflush' (address + (bytes.length - source.length))
      (handled_of_ready hstop hflush' hfinishes)

end Calls

/-! ## All the chunks -/

section Chunks

variable {word : MachineWord} {address : Bytes → Nat} {flush : FlushBehavior} {stopOnError : Bool}

/-- When nothing is left, all has been decoded. -/
theorem Reads.done {whole : Bytes} {text : Units} {sawError : Bool}
    (h : Reads whole text sawError ([] ++ [])) :
    text = plainText whole ∧ sawError = plainError whole := by
  have htext := h.text
  have herror := h.error
  rw [List.append_nil, plain_nil.1, List.append_nil] at htext
  rw [List.append_nil, plain_nil.2, Bool.or_false] at herror
  exact ⟨htext.symm, herror.symm⟩

/-- The last call leaves nothing. -/
theorem decode_last (word : MachineWord) (codec : TextCodecUTF8) (bytes : Bytes) (address : Nat)
    (hflush : flush ≠ .doNotFlush) (hincomplete : sequenceAt codec.partialSequence = .incomplete)
    (hspared : codec.partialSequence ≠ [] → Spared (codec.partialSequence ++ bytes))
    (hstop : stopOnError = true → plainError (codec.partialSequence ++ bytes) = false) :
    let r := codec.decode word address bytes flush stopOnError
    r.text = plainText (codec.partialSequence ++ bytes) ∧
      r.sawError = plainError (codec.partialSequence ++ bytes) := by
  rw [← List.append_nil bytes] at hspared hstop
  obtain ⟨⟨hr, -, -⟩, hdone⟩ := decode_spec word codec bytes [] address False hincomplete
    (fun hor => hspared (hor.resolve_right id)) hstop fun _ => rfl
  have hnone := hdone (bne_iff_ne.mpr hflush)
  dsimp only at hr hnone
  rw [hnone] at hr
  have hall := hr.done
  rwa [List.append_nil] at hall

/-- **Spared bytes are read alike in all chunks**, and errors are reported alike. -/
theorem decodeChunks_plain (hflush : flush ≠ .doNotFlush) {chunks : List Bytes} (hne : chunks ≠ [])
    (hspared : Spared chunks.flatten)
    (hstop : stopOnError = true → plainError chunks.flatten = false) :
    (TextCodecUTF8.textCodec word address).decodeChunks flush stopOnError .create chunks =
        plainText chunks.flatten ∧
      (TextCodecUTF8.textCodec word address).chunksSawError flush stopOnError .create chunks =
        plainError chunks.flatten := by
  refine TextCodec.decodeChunks_meaning (TextCodecUTF8.textCodec word address) flush stopOnError
    (fun _ => True) (fun s bytes => sequenceAt s.partialSequence = .incomplete ∧
      Spared (s.partialSequence ++ bytes) ∧
      (stopOnError = true → plainError (s.partialSequence ++ bytes) = false))
    (fun s bytes => plainText (s.partialSequence ++ bytes))
    (fun s bytes => plainError (s.partialSequence ++ bytes)) ?_ ?_ hne
    (fun _ _ => trivial) ⟨rfl, hspared, hstop⟩
  · rintro s chunk rest - ⟨hincomplete, hs, hstop⟩
    obtain ⟨⟨hr, hincomplete', hs'⟩, -⟩ := decode_spec word s chunk rest (address chunk) True
      hincomplete
      (fun _ => hs) hstop fun hne => absurd rfl hne
    refine ⟨⟨hr.text, hr.error⟩, hincomplete', hs' trivial, fun hstops => ?_⟩
    have herror := hr.error
    rw [hstop hstops, eq_comm, Bool.or_eq_false_iff] at herror
    exact herror.2
  · rintro s last - ⟨hincomplete, hs, hstop⟩
    exact decode_last word s last (address last) hflush hincomplete (fun _ => hs) hstop

end Chunks

/-! ## A byte that is lost -/

theorem of_false_eq_true {P : Prop} (h : false = true) : P := absurd h Bool.false_ne_true

section Lost

variable {word : MachineWord} {l c x y : UInt8} {behind : Bytes}

/-- No first byte of a character continues a sequence. -/
theorem secondOutside_of_high (first : UInt8) {second : UInt8} (h : 0xC0 ≤ second.toNat) :
    secondOutside first second = true := by
  have hout : ∀ low high : UInt8, high.toNat ≤ 0xBF → outside second low high = true :=
    fun low high hhigh => outside_iff.mpr (.inr (by omega))
  unfold secondOutside
  split
  · exact hout _ _ (by decide)
  · split
    · exact hout _ _ (by decide)
    · split
      · exact hout _ _ (by decide)
      · split
        · exact hout _ _ (by decide)
        · exact hout _ _ (by decide)

theorem Overtaken.length_four (ho : Overtaken l c x) : nonASCIISequenceLength l = 4 := by
  have hcases := nonASCIISequenceLength_cases l
  have hfour := ho.four
  omega

theorem Overtaken.length_two (ho : Overtaken l c x) : nonASCIISequenceLength c = 2 := by
  have hcases := nonASCIISequenceLength_cases c
  have htwo := ho.two
  omega

theorem Overtaken.decode_four (ho : Overtaken l c x) (rest : Bytes) :
    decodeNonASCIISequence (l :: c :: rest) 4 = -1 := by
  have htwo := ho.two
  unfold decodeNonASCIISequence
  dsimp only
  rw [if_neg (by decide), if_neg (by decide)]
  exact if_pos (secondOutside_of_high _ (by show 0xC0 ≤ c.toNat; omega))

/-- The character of two bytes. -/
theorem Overtaken.decode_two (ho : Overtaken l c x) (rest : Bytes) :
    ∃ v : Nat, decodeNonASCIISequence (c :: x :: rest) 2 = v ∧
      sequenceAt (c :: x :: rest) = .character (appendCharacter v) 2 := by
  have hlength := ho.length_two
  have hbegins := sequenceAt_begins c (x :: rest)
  have hlong : nonASCIISequenceLength c ≤ (x :: rest).length + 1 := by
    rw [hlength, List.length_cons]
    omega
  generalize sequenceAt (c :: x :: rest) = found at hbegins
  cases hbegins with
  | ascii h =>
    rw [not_ascii_of_length (by omega)] at h
    cases h
  | zero _ h => omega
  | short h => omega
  | character v h0 hle _ _ _ hdecode =>
    rw [hlength] at hdecode ⊢
    exact ⟨v, hdecode, rfl⟩
  | broken k h0 hle hk hlt hcontinues hdecode =>
    obtain rfl : k = 1 := by omega
    rw [hlength] at hdecode
    have htwo := ho.two
    have hx : outside x 0x80 0xBF = false := by
      rw [Bool.eq_false_iff]
      intro hout
      have := outside_iff.mp hout
      have := ho.continues
      simp only [UInt8.reduceToNat] at *
      omega
    unfold decodeNonASCIISequence at hdecode
    dsimp only at hdecode
    rw [if_pos rfl, if_neg, if_neg] at hdecode
    · have hc : (List.getD (c :: x :: rest) 0 0).toNat = c.toNat := rfl
      have hx' : (List.getD (c :: x :: rest) 1 0).toNat = x.toNat := rfl
      rw [hc, hx', Nat.shiftLeft_eq] at hdecode
      have := ho.continues
      omega
    · exact Bool.eq_false_iff.mp hx
    · rw [UInt8.lt_iff_toNat_lt, show (0xC2 : UInt8).toNat = 0xC2 from rfl]
      show ¬ c.toNat < 0xC2
      omega

theorem Overtaken.broken (ho : Overtaken l c x) (rest : Bytes) (hrest : 2 ≤ rest.length) :
    sequenceAt (l :: c :: rest) = .broken 1 := by
  have hlength := ho.length_four
  rw [sequenceAt_long (by omega) (by rw [hlength, List.length_cons]; omega), hlength,
    ho.decode_four]
  rfl

/-- The text with the lost byte replaced. -/
theorem Overtaken.plainText (ho : Overtaken l c x) (behind : Bytes) :
    ∃ t, (∀ y, Text.plainText (l :: c :: x :: y :: behind) = t ++ Text.plainText (y :: behind)) := by
  obtain ⟨v, hv, -⟩ := ho.decode_two []
  refine ⟨kReplacementCharacter :: appendCharacter v, fun y => ?_⟩
  obtain ⟨v', hv', hseq⟩ := ho.decode_two (y :: behind)
  obtain rfl : v' = v := by
    have heq : decodeNonASCIISequence (c :: x :: y :: behind) 2 =
        decodeNonASCIISequence [c, x] 2 :=
      decodeNonASCIISequence_append (y :: behind) (s := [c, x]) (.inl rfl) (Nat.le_refl 2)
    rw [heq, hv] at hv'
    exact (Int.ofNat.inj hv').symm
  rw [(plain_of_broken (ho.broken _ (by simp)) (Nat.le_refl 1)).1, List.drop_one, List.tail_cons,
    (plain_of_character hseq (by decide)).1]
  rfl

/-- **The handler loses a byte.** -/
theorem Overtaken.handler (ho : Overtaken l c x) (flush : Bool) (rounds : Nat) (source : Bytes)
    (text : Units) (sawError : Bool) :
    ∃ v : Nat, sequenceAt [c, x] = .character (appendCharacter v) 2 ∧
      handlePartialSequence16 flush false (rounds + 2) [l, c, x, y] source text sawError =
        handlePartialSequence16 flush false rounds [c] source
          (text ++ [kReplacementCharacter] ++ appendCharacter v) true := by
  obtain ⟨v, hv, hseq⟩ := ho.decode_two []
  refine ⟨v, hseq, ?_⟩
  have hfour := ho.length_four
  have htwo := ho.length_two
  have hl : isASCII l = false := not_ascii_of_length (by omega)
  have hc : isASCII c = false := not_ascii_of_length (by omega)
  have hvalue : decodeNonASCIISequence [c, x, y] 2 = v :=
    (decodeNonASCIISequence_append [y] (s := [c, x]) (.inl rfl) (Nat.le_refl 2)).trans hv
  rw [handlePartialSequence16, if_neg (Bool.eq_false_iff.mp hl)]
  dsimp only [List.length_cons, List.length_nil]
  rw [hfour, if_neg (by decide), if_neg (by omega), Nat.sub_self, List.take_zero, List.append_nil,
    ho.decode_four, if_pos (by decide), if_neg Bool.false_ne_true]
  show handlePartialSequence16 flush false (rounds + 1) [c, x, y] source
    (text ++ [kReplacementCharacter]) true = _
  rw [handlePartialSequence16, if_neg (Bool.eq_false_iff.mp hc)]
  dsimp only [List.length_cons, List.length_nil]
  rw [htwo, if_neg (by decide), if_neg (by omega), show 2 - (0 + 1 + 1 + 1) = 0 from rfl,
    List.take_zero, List.append_nil, hvalue, isNonCharacter_ofNat, if_neg Bool.false_ne_true,
    Int.toNat_natCast]
  rfl

/-- The call that completes the kept bytes reads the first byte of the character for the lost one. -/
theorem Overtaken.decode (ho : Overtaken l c x) (word : MachineWord) (address : Nat)
    {flush : FlushBehavior} (hflush : flush ≠ .doNotFlush) (hspared : Spared behind) :
    (TextCodecUTF8.decode word address ⟨[l, c, x]⟩ (y :: behind) flush false).text =
      Text.plainText (l :: c :: x :: c :: behind) := by
  have hfour := ho.length_four
  have htwo := ho.length_two
  have hl : isASCII l = false := not_ascii_of_length (by omega)
  obtain ⟨v, hseq, hhandler⟩ := ho.handler (y := y) (flush != .doNotFlush)
    (behind.length + 2) behind [] false
  -- the 8-bit string is given up, with the bytes that are broken
  have hup : decode8 word (flush != .doNotFlush) false TextCodecUTF8.outerRounds address [l, c, x]
      (y :: behind) [] false = .upConvert [l, c, x, y] behind [] false := by
    have hhandled : handlePartialSequence8 (flush != .doNotFlush)
        ([l, c, x].length + (y :: behind).length) [l, c, x] (y :: behind) [] =
          ⟨true, [l, c, x, y], behind, []⟩ := by
      rw [show [l, c, x].length + (y :: behind).length = (behind.length + 3) + 1 by
        simp only [List.length_cons, List.length_nil]; omega, handlePartialSequence8,
        if_neg (Bool.eq_false_iff.mp hl)]
      dsimp only [List.length_cons, List.length_nil]
      rw [hfour, if_neg (by decide), if_neg (by omega)]
      have hneg : decodeNonASCIISequence ([l, c, x] ++ (y :: behind).take (4 - (0 + 1 + 1 + 1))) 4 <
          0 := by
        show decodeNonASCIISequence (l :: c :: [x, y]) 4 < 0
        rw [ho.decode_four]
        decide
      rw [if_pos (.inl hneg)]
      rfl
    unfold TextCodecUTF8.outerRounds decode8
    dsimp only
    rw [hhandled]
    rfl
  have hreads : Reads (l :: c :: x :: c :: behind)
      ([] ++ [kReplacementCharacter] ++ appendCharacter v) true ([c] ++ (behind ++ [])) := by
    have hbroken := ((Reads.start (l :: c :: x :: c :: behind)).broken
      (ho.broken _ (by simp)) (Nat.le_refl 1)).1
    have hcharacter : sequenceAt ((l :: c :: x :: c :: behind).drop 1) =
        .character (appendCharacter v) 2 :=
      (sequenceAt_append (c :: behind) (by rw [hseq]; nofun)).trans hseq
    rw [List.append_nil]
    exact hbroken.character hcharacter (by decide)
  have hin : InHand (l :: c :: x :: c :: behind) [c] (behind ++ [])
      ([] ++ [kReplacementCharacter] ++ appendCharacter v) true := by
    have hlow := ho.two
    refine ⟨hreads, ?_, .of_two (Nat.le_succ 1)⟩
    rw [List.append_nil]
    exact hspared.cons (by omega)
  have hto : HandledTo (l :: c :: x :: c :: behind) [] (flush != .doNotFlush) False behind.length
      (handlePartialSequence16 (flush != .doNotFlush) false ([l, c, x, y].length + behind.length)
        [l, c, x, y] behind [] false) := by
    rw [show [l, c, x, y].length + behind.length = behind.length + 2 + 2 by
      simp only [List.length_cons, List.length_nil]; omega, hhandler]
    exact handled16 of_false_eq_true (fun _ => rfl) hin (by rw [List.length_singleton]; omega)
  obtain ⟨⟨hr, -, -⟩, hdone⟩ := decode16_handled word of_false_eq_true (fun _ => rfl)
    (address + ((y :: behind).length - behind.length)) hto
  rw [hdone (bne_iff_ne.mpr hflush)] at hr
  unfold TextCodecUTF8.decode
  dsimp only
  rw [hup]
  exact hr.done.1

/-- The last three bytes are kept. -/
theorem Overtaken.incompleteTail (ho : Overtaken l c x) (front : Bytes) :
    Text.incompleteTail (front ++ [l, c, x]) = [l, c, x] := by
  have hfour := ho.four
  induction hn : front.length using Nat.strongRecOn generalizing front with
  | ind n ih =>
    cases front with
    | nil =>
      refine incompleteTail_of_incomplete (sequenceAt_short ?_)
      rw [ho.length_four]
      exact Nat.lt_succ_self 3
    | cons first rest =>
      -- a sequence that begins in front of `l` ends there
      have hends : ∀ k, 1 ≤ k → Continues (first :: (rest ++ [l, c, x])) k → k ≤ rest.length + 1 := by
        intro k hk hcontinues
        by_contra hlong
        have hbyte := (hcontinues (rest.length + 1) (by omega) (by omega)).2
        have hat : (first :: (rest ++ [l, c, x])).getD (rest.length + 1) 0 = l := by
          rw [List.getD_cons_succ, List.getD_eq_getElem?_getD, List.getElem?_append_right
            (Nat.le_refl _), Nat.sub_self]
          rfl
        rw [hat] at hbyte
        omega
      have hdrop : ∀ k, 1 ≤ k → k ≤ rest.length + 1 →
          Text.incompleteTail ((first :: rest ++ [l, c, x]).drop k) = [l, c, x] := by
        intro k hk hle
        rw [List.drop_append_of_le_length (by rwa [List.length_cons])]
        refine ih _ ?_ _ rfl
        rw [← hn, List.length_drop, List.length_cons]
        omega
      have hbegins := sequenceAt_begins first (rest ++ [l, c, x])
      rw [List.cons_append]
      generalize hseq : sequenceAt (first :: (rest ++ [l, c, x])) = found at hbegins
      have hbound := nonASCIISequenceLength_le first
      cases hbegins with
      | ascii h =>
        rw [incompleteTail_of_character hseq (Nat.le_refl 1)]
        exact hdrop 1 (Nat.le_refl 1) (by omega)
      | zero _ h =>
        rw [incompleteTail_of_broken hseq (Nat.le_refl 1)]
        exact hdrop 1 (Nat.le_refl 1) (by omega)
      | short h =>
        rw [List.length_append] at h
        simp only [List.length_cons, List.length_nil] at h
        omega
      | broken k _ _ hk _ hcontinues _ =>
        rw [incompleteTail_of_broken hseq hk]
        exact hdrop k hk (hends k hk hcontinues)
      | character v h0 _ _ _ hcontinues _ =>
        rw [incompleteTail_of_character hseq (by omega)]
        exact hdrop _ (by omega) (hends _ (by omega) hcontinues)

/-- A first call keeps the sequence that is incomplete at its end. -/
theorem decode_kept (word : MachineWord) (address : Nat) (bytes : Bytes) :
    (TextCodecUTF8.decode word address .create bytes .doNotFlush false).codec.partialSequence =
      incompleteTail bytes := by
  have hr : Reads bytes [] false (bytes ++ []) := by
    rw [List.append_nil]
    exact .start bytes
  have hleaves : ∀ address, Leaves8 bytes [] False (incompleteTail bytes)
      (decodeLoop8 word false bytes.length address bytes [] false) :=
    fun address => loop8 word of_false_eq_true address hr False.elim (Nat.le_refl _)
  unfold TextCodecUTF8.decode TextCodecUTF8.outerRounds decode8
  dsimp only [TextCodecUTF8.create]
  rw [handlePartialSequence8_nil]
  dsimp only
  rw [if_neg Bool.false_ne_true, if_neg (fun hne => hne rfl)]
  generalize hloop : decodeLoop8 word false bytes.length (address + (bytes.length - bytes.length))
    bytes []
    false = q
  have hq := hleaves (address + (bytes.length - bytes.length))
  rw [hloop] at hq
  cases hq with
  | ended h htail => exact htail
  | @upConvert source text sawError reads spared htail =>
    dsimp only
    unfold decode16
    dsimp only
    rw [handlePartialSequence16_nil]
    dsimp only
    rw [if_neg (fun hne => hne rfl)]
    exact (loop16 word of_false_eq_true _ reads spared (Nat.le_refl _)).2.trans htail

end Lost

/-- **The chunks of UTF-8.** All chunks of some bytes are read like the whole exactly when no byte is
lost behind a character of two bytes that breaks a sequence of four, or the text is the same without
it. -/
theorem utf8_chunks_iff (word : MachineWord) (address : Bytes → Nat) {flush : FlushBehavior}
    (hflush : flush ≠ .doNotFlush) (bytes : Bytes) :
    (∀ chunks, chunks ≠ [] → chunks.flatten = bytes →
        (TextCodecUTF8.textCodec word address).ReadsChunksAs flush false .create chunks) ↔
      Spared bytes := by
  have hwhole : ∀ bytes : Bytes,
      ((TextCodecUTF8.textCodec word address).decode .create bytes flush false).text =
        plainText bytes :=
    fun bytes => (decode_last word .create bytes (address bytes) hflush rfl
      (fun hne => absurd rfl hne)
      of_false_eq_true).1
  constructor
  · intro hall front l c x y behind hbytes ho
    induction hn : behind.length using Nat.strongRecOn generalizing front l c x y behind with
    | ind n ih =>
      have hspared : Spared behind := by
        intro front' l' c' x' y' behind' hbehind ho'
        refine ih behind'.length ?_ (front ++ l :: c :: x :: y :: front') l' c' x' y' behind' ?_ ho' rfl
        · rw [← hn, hbehind]
          simp only [List.length_append, List.length_cons]
          omega
        · rw [hbytes, hbehind]
          simp only [List.append_assoc, List.cons_append]
      have hread := hall [front ++ [l, c, x], y :: behind] (List.cons_ne_nil _ _) (by
        rw [hbytes]
        simp)
      obtain ⟨⟨hr, -, -⟩, -⟩ := decode_spec word .create (front ++ [l, c, x]) (y :: behind)
        (address (front ++ [l, c, x])) False rfl (fun hor => absurd rfl (hor.resolve_right id))
        of_false_eq_true fun hne => absurd rfl hne
      have hkept := (decode_kept word (address (front ++ [l, c, x])) (front ++ [l, c, x])).trans
        (ho.incompleteTail front)
      have hcodec : ((TextCodecUTF8.textCodec word address).decode .create (front ++ [l, c, x])
          .doNotFlush false).codec = ⟨[l, c, x]⟩ := congrArg TextCodecUTF8.mk hkept
      have htext := hr.text
      dsimp only at htext
      rw [hkept] at htext
      obtain ⟨t, ht⟩ := ho.plainText behind
      have hsecond := ho.decode (y := y) word (address (y :: behind)) hflush hspared
      have hread' : ((TextCodecUTF8.textCodec word address).decode .create (front ++ [l, c, x])
          .doNotFlush false).text ++ plainText (l :: c :: x :: c :: behind) =
            plainText (front ++ [l, c, x] ++ y :: behind) := by
        rw [← hsecond, ← hwhole]
        have hunfold : ((TextCodecUTF8.textCodec word address).decode .create (front ++ [l, c, x])
            .doNotFlush false).text ++ ((TextCodecUTF8.textCodec word address).decode
              ((TextCodecUTF8.textCodec word address).decode .create (front ++ [l, c, x])
                .doNotFlush false).codec (y :: behind) flush false).text =
            ((TextCodecUTF8.textCodec word address).decode .create
              [front ++ [l, c, x], y :: behind].flatten flush false).text := hread
        rw [hcodec, List.flatten_cons, List.flatten_singleton] at hunfold
        exact hunfold
      have hsame := hread'.trans htext
      have hrest := List.append_cancel_left hsame
      have hy := ht y
      have hc := ht c
      rw [hc] at hrest
      exact (List.append_cancel_left (hrest.trans hy)).symm
  · rintro hspared chunks hne rfl
    unfold TextCodec.ReadsChunksAs
    rw [hwhole]
    exact (decodeChunks_plain hflush hne hspared of_false_eq_true).1

/-- A letter behind such a character is lost when it comes in the next chunk. -/
theorem letter_lost : ¬ Spared [0xF0, 0xC3, 0xA9, 0x41] := by
  intro hspared
  have hread := (utf8_chunks_iff .bits64 (fun _ => 0)
    (by decide : FlushBehavior.fetchEOF ≠ .doNotFlush) [0xF0, 0xC3, 0xA9, 0x41]).mpr hspared
    [[0xF0, 0xC3, 0xA9], [0x41]] (List.cons_ne_nil _ _) rfl
  unfold TextCodec.ReadsChunksAs at hread
  exact absurd hread (by decide +kernel)

end Blinkit.Text
