import Blinkit.Text.Surrogates
import Mathlib.Algebra.Group.Nat.Defs

/-!
# The UTF-16 codec

Translation of `text_codec_utf16.cc`. A byte without its second byte and a leading surrogate without
its partner are kept for the next call.

* `receive`, `readUnit` — what a round of the loop does with its code unit.
* `TextCodecUTF16.decode` — `Decode`, for both byte orders.
* `TextCodecUTF16.encode` — `Encode`.
* `plainText16`, `plainError16` — the text of all bytes, and whether an error is found.

Principal results: `utf16_chunks`: chunks are read as the text of all their bytes;
`utf16_roundTrip`: an encoded text comes back.
-/

set_option autoImplicit false

namespace Blinkit.Text

/-- The members. `have_lead_byte_` and `have_lead_surrogate_` say whether there is a kept one. -/
structure TextCodecUTF16 where
  littleEndian : Bool
  leadByte : Option UInt8
  leadSurrogate : Option UInt16
  deriving DecidableEq

/-- The code unit of two bytes. -/
def codeUnit (littleEndian : Bool) (b b2 : UInt8) : UInt16 :=
  if littleEndian then UInt16.ofNat (b.toNat ||| b2.toNat <<< 8)
  else UInt16.ofNat (b.toNat <<< 8 ||| b2.toNat)

/-- A kept surrogate, characters, and whether there is an error. -/
structure ReadUnits where
  leadSurrogate : Option UInt16
  text : Units
  sawError : Bool

/-- A code unit behind which no surrogate is kept. -/
def receive (c : UInt16) (text : Units) (sawError : Bool) : ReadUnits :=
  if isLead c then ⟨some c, text, sawError⟩
  else if isTrail c then ⟨none, text ++ [kReplacementCharacter], true⟩
  else ⟨none, text ++ [c], sawError⟩

/-- A round of the loop of `Decode`. -/
def readUnit (r : ReadUnits) (c : UInt16) : ReadUnits :=
  match r.leadSurrogate with
  | some lead =>
    if isTrail c then ⟨none, r.text ++ [lead, c], r.sawError⟩
    else receive c (r.text ++ [kReplacementCharacter]) true
  | none => receive c r.text r.sawError

/-- `for (i = 0; i < num_chars_in; ++i)`, with the bytes from `p` on. -/
def decodeLoop (littleEndian : Bool) : Nat → Option UInt8 → Bytes → ReadUnits →
    Option UInt8 × Bytes × ReadUnits
  | 0, leadByte, p, r => (leadByte, p, r)
  | rounds + 1, some b, p, r =>
    decodeLoop littleEndian rounds none (p.drop 1)
      (readUnit r (codeUnit littleEndian b (p.getD 0 0)))
  | rounds + 1, none, p, r =>
    decodeLoop littleEndian rounds none (p.drop 2)
      (readUnit r (codeUnit littleEndian (p.getD 0 0) (p.getD 1 0)))

namespace TextCodecUTF16

def create (littleEndian : Bool) : TextCodecUTF16 := ⟨littleEndian, none, none⟩

/-- The flush of a fetch that has ended is ignored. -/
def reallyFlush (flush : FlushBehavior) : Bool := flush != .doNotFlush && flush != .fetchEOF

/-- `num_bytes`, a `wtf_size_t`. -/
def numBytes (codec : TextCodecUTF16) (bytes : Bytes) : Nat :=
  (bytes.length + codec.leadByte.isSome.toNat) % 2 ^ 32

/-- `Decode`. -/
def decode (codec : TextCodecUTF16) (bytes : Bytes) (flush : FlushBehavior) :
    Decoded TextCodecUTF16 :=
  if bytes.length = 0 then
    if reallyFlush flush ∧ (codec.leadByte.isSome ∨ codec.leadSurrogate.isSome) then
      ⟨create codec.littleEndian, [kReplacementCharacter], true⟩
    else ⟨codec, [], false⟩
  else
    let willHaveExtraByte := codec.numBytes bytes % 2 = 1
    let numCharsIn := codec.numBytes bytes / 2
    let (leadByte, p, r) := decodeLoop codec.littleEndian numCharsIn codec.leadByte bytes
      ⟨codec.leadSurrogate, [], false⟩
    let leadByte := if willHaveExtraByte then some (p.getD 0 0) else leadByte
    if reallyFlush flush ∧ (leadByte.isSome ∨ r.leadSurrogate.isSome) then
      ⟨create codec.littleEndian, r.text ++ [kReplacementCharacter], true⟩
    else ⟨⟨codec.littleEndian, leadByte, r.leadSurrogate⟩, r.text, r.sawError⟩

/-- The codec. It does not ask whether to stop on errors. -/
def textCodec : TextCodec TextCodecUTF16 where
  decode codec bytes flush _ := codec.decode bytes flush

/-- `Encode`: the code units as they are. -/
def encode (littleEndian : Bool) (characters : Units) : Bytes :=
  characters.flatMap fun c : UInt16 =>
    if littleEndian then [c.toUInt8, (c >>> 8).toUInt8] else [(c >>> 8).toUInt8, c.toUInt8]

end TextCodecUTF16

/-! ## The text of all bytes -/

/-- The code units of the bytes. -/
def unitsOf (littleEndian : Bool) : Bytes → Units
  | b :: b2 :: rest => codeUnit littleEndian b b2 :: unitsOf littleEndian rest
  | _ => []

/-- A last byte without its second byte. -/
def oddByte : Bytes → Option UInt8
  | [] => none
  | [b] => some b
  | _ :: _ :: rest => oddByte rest

/-- The text. At the end of the bytes, one replacement character stands for what is missing. -/
def plainText16 (littleEndian flush : Bool) (bytes : Bytes) : Units :=
  let units := unitsOf littleEndian bytes
  if flush then
    replaceLoneSurrogates units ++
      if (oddByte bytes).isSome ∧ endsInLead units = false then [kReplacementCharacter] else []
  else replaceLoneSurrogates (complete units)

/-- A surrogate has no partner, or a byte has no second byte. -/
def plainError16 (littleEndian flush : Bool) (bytes : Bytes) : Bool :=
  let units := unitsOf littleEndian bytes
  if flush then (oddByte bytes).isSome || hasLoneSurrogate units
  else hasLoneSurrogate (complete units)

section Bytes

variable (littleEndian : Bool)

theorem unitsOf_append (bytes rest : Bytes) :
    unitsOf littleEndian (bytes ++ rest) =
      unitsOf littleEndian bytes ++ unitsOf littleEndian ((oddByte bytes).toList ++ rest) := by
  fun_induction oddByte bytes with
  | case1 => rfl
  | case2 b => rfl
  | case3 b b2 more ih =>
    rw [List.cons_append, List.cons_append, unitsOf, unitsOf, ih]
    rfl

theorem oddByte_append (bytes rest : Bytes) :
    oddByte (bytes ++ rest) = oddByte ((oddByte bytes).toList ++ rest) := by
  fun_induction oddByte bytes with
  | case1 => rfl
  | case2 b => rfl
  | case3 b b2 more ih => exact ih

theorem oddByte_isSome (bytes : Bytes) : (oddByte bytes).isSome = decide (bytes.length % 2 = 1) := by
  fun_induction oddByte bytes with
  | case1 => rfl
  | case2 b => rfl
  | case3 b b2 more ih => rw [ih, List.length_cons, List.length_cons, Nat.add_assoc,
      Nat.add_mod_right]

/-! ## The loop -/

theorem decodeLoop_none (p : Bytes) (r : ReadUnits) :
    decodeLoop littleEndian (p.length / 2) none p r =
      (none, (oddByte p).toList, (unitsOf littleEndian p).foldl readUnit r) := by
  fun_induction oddByte p generalizing r with
  | case1 => rfl
  | case2 b =>
    rw [List.length_singleton, show 1 / 2 = 0 from rfl, decodeLoop]
    rfl
  | case3 b b2 more ih =>
    rw [List.length_cons, List.length_cons, Nat.add_assoc, Nat.add_div_right _ (by decide),
      decodeLoop]
    exact ih _

/-- The loop takes the bytes by twos, beginning with the kept one. -/
theorem decodeLoop_spec (leadByte : Option UInt8) {p : Bytes} (hp : p ≠ []) (r : ReadUnits) :
    decodeLoop littleEndian ((leadByte.toList ++ p).length / 2) leadByte p r =
      (none, (oddByte (leadByte.toList ++ p)).toList,
        (unitsOf littleEndian (leadByte.toList ++ p)).foldl readUnit r) := by
  cases leadByte with
  | none => exact decodeLoop_none littleEndian p r
  | some b =>
    obtain ⟨b2, more, rfl⟩ := List.exists_cons_of_ne_nil hp
    show decodeLoop littleEndian ((b :: b2 :: more).length / 2) (some b) (b2 :: more) r = _
    rw [List.length_cons, List.length_cons, Nat.add_assoc, Nat.add_div_right _ (by decide),
      decodeLoop]
    exact decodeLoop_none littleEndian more _

end Bytes

/-- What has been read before stands in front. -/
def ReadUnits.behind (text : Units) (sawError : Bool) (r : ReadUnits) : ReadUnits :=
  ⟨r.leadSurrogate, text ++ r.text, sawError || r.sawError⟩

theorem receive_behind (c : UInt16) (text more : Units) (sawError sawMore : Bool) :
    receive c (text ++ more) (sawError || sawMore) =
      (receive c more sawMore).behind text sawError := by
  unfold receive ReadUnits.behind
  split
  · rfl
  · split
    · dsimp only
      rw [List.append_assoc, Bool.or_true]
    · dsimp only
      rw [List.append_assoc]

theorem readUnit_behind (r : ReadUnits) (c : UInt16) (text : Units) (sawError : Bool) :
    readUnit (r.behind text sawError) c = (readUnit r c).behind text sawError := by
  obtain ⟨lead, more, sawMore⟩ := r
  cases lead with
  | none => exact receive_behind c text more sawError sawMore
  | some l =>
    unfold readUnit ReadUnits.behind
    dsimp only
    split
    · dsimp only
      rw [List.append_assoc]
    · have hnext := receive_behind c text (more ++ [kReplacementCharacter]) sawError true
      rw [Bool.or_true, ← List.append_assoc] at hnext
      exact hnext

theorem foldl_behind (units : Units) (r : ReadUnits) (text : Units) (sawError : Bool) :
    units.foldl readUnit (r.behind text sawError) =
      (units.foldl readUnit r).behind text sawError := by
  induction units generalizing r with
  | nil => rfl
  | cons c units ih => rw [List.foldl_cons, List.foldl_cons, readUnit_behind, ih]

/-- A run of the loop begins without characters. -/
theorem foldl_readUnit (units : Units) (lead : Option UInt16) (text : Units) (sawError : Bool) :
    units.foldl readUnit ⟨lead, text, sawError⟩ =
      (units.foldl readUnit ⟨lead, [], false⟩).behind text sawError := by
  rw [← foldl_behind]
  unfold ReadUnits.behind
  rw [List.append_nil, Bool.or_false]

/-- **What the code units are read as**, with a kept surrogate in front. -/
theorem readUnits_spec (units : Units) (lead : Option UInt16) (hlead : ∀ c ∈ lead, isLead c = true) :
    units.foldl readUnit ⟨lead, [], false⟩ =
      ⟨kept (lead.toList ++ units), replaceLoneSurrogates (complete (lead.toList ++ units)),
        hasLoneSurrogate (complete (lead.toList ++ units))⟩ := by
  induction units generalizing lead with
  | nil =>
    cases lead with
    | none => rfl
    | some l =>
      have hend : endsInLead [l] = true := hlead l rfl
      have hcomplete : complete [l] = [] := if_pos hend
      have hkept : kept [l] = some l := if_pos hend
      rw [Option.toList_some, List.append_nil, hcomplete, hkept]
      rfl
  | cons c units ih =>
    have hnone : (c :: units).foldl readUnit ⟨none, [], false⟩ =
        ⟨kept (c :: units), replaceLoneSurrogates (complete (c :: units)),
          hasLoneSurrogate (complete (c :: units))⟩ := by
      show units.foldl readUnit (receive c [] false) = _
      unfold receive
      split
      · rename_i hc
        exact ih (some c) fun _ h => by rwa [← Option.some.inj h]
      · rename_i hc
        rw [Bool.not_eq_true] at hc
        have hfirst : ∀ c2 more, complete units = c2 :: more →
            ¬ (isLead c = true ∧ isTrail c2 = true) := by
          rintro c2 more - ⟨hlead, -⟩
          rw [hc] at hlead
          cases hlead
        have hnext := ih none nofun
        rw [Option.toList_none, List.nil_append] at hnext
        rw [complete_cons (.inr hc), kept_cons (.inr hc), replaceLoneSurrogates_cons hfirst,
          hasLoneSurrogate_cons hfirst, hc, Bool.false_or]
        split
        · rename_i htrail
          rw [foldl_readUnit, hnext, htrail]
          rfl
        · rename_i htrail
          rw [Bool.not_eq_true] at htrail
          rw [foldl_readUnit, hnext, htrail]
          rfl
    cases lead with
    | none => exact hnone
    | some l =>
      have hl := hlead l rfl
      rw [Option.toList_some, List.singleton_append]
      by_cases htrail : isTrail c = true
      · have hnext := ih none nofun
        rw [Option.toList_none, List.nil_append] at hnext
        have hc := not_lead_of_trail htrail
        have hunit : readUnit ⟨some l, [], false⟩ c = ⟨none, [l, c], false⟩ := if_pos htrail
        rw [List.foldl_cons, hunit, foldl_readUnit, hnext,
          complete_cons (.inl (List.cons_ne_nil _ _)), complete_cons (.inr hc),
          kept_cons (.inl (List.cons_ne_nil _ _)), kept_cons (.inr hc),
          hasLoneSurrogate_pair ⟨hl, htrail⟩, replaceLoneSurrogates, if_pos ⟨hl, htrail⟩]
        rfl
      · have hunit : readUnit ⟨some l, [], false⟩ c =
            readUnit ⟨none, [kReplacementCharacter], true⟩ c := if_neg htrail
        have hfirst : ∀ c2 more, complete (c :: units) = c2 :: more →
            ¬ (isLead l = true ∧ isTrail c2 = true) := by
          rintro c2 more hmore ⟨-, h2⟩
          obtain rfl : c2 = c := complete_head hmore
          exact htrail h2
        rw [List.foldl_cons, hunit, ← List.foldl_cons, foldl_readUnit, hnone,
          complete_cons (.inl (List.cons_ne_nil _ _)), kept_cons (.inl (List.cons_ne_nil _ _)),
          replaceLoneSurrogates_cons hfirst, hasLoneSurrogate_cons hfirst, hl]
        rfl

/-! ## Calls -/

namespace TextCodecUTF16

/-- What a call reads. -/
def reads (codec : TextCodecUTF16) (bytes : Bytes) : ReadUnits :=
  (unitsOf codec.littleEndian (codec.leadByte.toList ++ bytes)).foldl readUnit
    ⟨codec.leadSurrogate, [], false⟩

/-- Something is missing at the end. -/
def misses (codec : TextCodecUTF16) (bytes : Bytes) : Bool :=
  (oddByte (codec.leadByte.toList ++ bytes)).isSome || (codec.reads bytes).leadSurrogate.isSome

/-- **`Decode`.** -/
theorem decode_spec (codec : TextCodecUTF16) {bytes : Bytes} (hsize : bytes.length + 1 < 2 ^ 32)
    (flush : FlushBehavior) :
    codec.decode bytes flush =
      if reallyFlush flush && codec.misses bytes then
        ⟨create codec.littleEndian, (codec.reads bytes).text ++ [kReplacementCharacter], true⟩
      else
        ⟨⟨codec.littleEndian, oddByte (codec.leadByte.toList ++ bytes),
          (codec.reads bytes).leadSurrogate⟩, (codec.reads bytes).text,
          (codec.reads bytes).sawError⟩ := by
  obtain ⟨littleEndian, leadByte, leadSurrogate⟩ := codec
  unfold decode misses
  cases bytes with
  | nil =>
    rw [List.length_nil, if_pos rfl]
    unfold reads
    rw [List.append_nil]
    have hodd : oddByte leadByte.toList = leadByte := by cases leadByte <;> rfl
    have hunits : unitsOf littleEndian leadByte.toList = [] := by cases leadByte <;> rfl
    dsimp only
    simp only [hodd, hunits, List.foldl_nil, Bool.or_eq_true, Bool.and_eq_true]
    rfl
  | cons b rest =>
    have hbytes : numBytes ⟨littleEndian, leadByte, leadSurrogate⟩ (b :: rest) =
        (leadByte.toList ++ b :: rest).length := by
      unfold numBytes
      rw [Nat.mod_eq_of_lt, List.length_append, Nat.add_comm]
      · cases leadByte <;> rfl
      · have := Bool.toNat_le leadByte.isSome
        dsimp only
        omega
    have hne : (b :: rest).length ≠ 0 := Nat.succ_ne_zero rest.length
    rw [if_neg hne, hbytes]
    dsimp only
    rw [decodeLoop_spec littleEndian leadByte (List.cons_ne_nil b rest)]
    have hextra : (if (leadByte.toList ++ b :: rest).length % 2 = 1 then
        some ((oddByte (leadByte.toList ++ b :: rest)).toList.getD 0 0) else none) =
          oddByte (leadByte.toList ++ b :: rest) := by
      have hodd := oddByte_isSome (leadByte.toList ++ b :: rest)
      generalize oddByte (leadByte.toList ++ b :: rest) = odd at hodd
      cases odd with
      | none => exact if_neg (of_decide_eq_false hodd.symm)
      | some c => exact if_pos (of_decide_eq_true hodd.symm)
    dsimp only
    rw [hextra]
    simp only [Bool.or_eq_true, Bool.and_eq_true]
    rfl

/-- A call that does not flush keeps what is missing, and the next one goes on with it. -/
theorem reads_append (codec : TextCodecUTF16) (chunk rest : Bytes) :
    codec.reads (chunk ++ rest) =
        (reads ⟨codec.littleEndian, oddByte (codec.leadByte.toList ++ chunk),
          (codec.reads chunk).leadSurrogate⟩ rest).behind (codec.reads chunk).text
            (codec.reads chunk).sawError ∧
      codec.misses (chunk ++ rest) =
        misses ⟨codec.littleEndian, oddByte (codec.leadByte.toList ++ chunk),
          (codec.reads chunk).leadSurrogate⟩ rest := by
  have hreads : codec.reads (chunk ++ rest) =
      (reads ⟨codec.littleEndian, oddByte (codec.leadByte.toList ++ chunk),
        (codec.reads chunk).leadSurrogate⟩ rest).behind (codec.reads chunk).text
          (codec.reads chunk).sawError := by
    unfold reads
    rw [← List.append_assoc, unitsOf_append, List.foldl_append, foldl_readUnit]
  refine ⟨hreads, ?_⟩
  unfold misses
  rw [hreads, ← List.append_assoc, oddByte_append]
  rfl

end TextCodecUTF16

section Chunks

open TextCodecUTF16

variable (littleEndian : Bool) (flush : FlushBehavior)

/-- What the bytes mean to a new codec. -/
theorem plain_of_reads (bytes : Bytes) :
    let missing := reallyFlush flush && (create littleEndian).misses bytes
    ((create littleEndian).reads bytes).text ++ (if missing then [kReplacementCharacter] else []) =
        plainText16 littleEndian (reallyFlush flush) bytes ∧
      (((create littleEndian).reads bytes).sawError || missing) =
        plainError16 littleEndian (reallyFlush flush) bytes := by
  unfold misses reads
  dsimp only [create, Option.toList_none, List.nil_append]
  rw [readUnits_spec _ none nofun]
  unfold plainText16 plainError16
  generalize unitsOf littleEndian bytes = units
  simp only [Option.toList_none, List.nil_append, kept_isSome]
  cases reallyFlush flush with
  | false => exact ⟨List.append_nil _, Bool.or_false _⟩
  | true =>
    rw [if_pos rfl, if_pos rfl]
    by_cases hend : endsInLead units = true
    · have hcomplete : complete units = units.dropLast := if_pos hend
      rw [hcomplete, hasLoneSurrogate_endsInLead hend, replaceLoneSurrogates_endsInLead hend]
      simp [hend]
    · have hcomplete : complete units = units := if_neg hend
      rw [Bool.not_eq_true] at hend
      rw [hcomplete]
      simp [hend, Bool.or_comm]

/-- The chunks are read as all their bytes. -/
theorem decodeChunks_reads (stopOnError : Bool) {chunks : List Bytes} (hne : chunks ≠ [])
    (hsize : ∀ chunk ∈ chunks, chunk.length + 1 < 2 ^ 32) :
    textCodec.decodeChunks flush stopOnError (create littleEndian) chunks =
        ((create littleEndian).reads chunks.flatten).text ++
          (if reallyFlush flush && (create littleEndian).misses chunks.flatten then
            [kReplacementCharacter] else []) ∧
      textCodec.chunksSawError flush stopOnError (create littleEndian) chunks =
        (((create littleEndian).reads chunks.flatten).sawError ||
          (reallyFlush flush && (create littleEndian).misses chunks.flatten)) := by
  refine textCodec.decodeChunks_meaning flush stopOnError (fun chunk => chunk.length + 1 < 2 ^ 32)
    (fun _ _ => True)
    (fun s bytes => (s.reads bytes).text ++
      if reallyFlush flush && s.misses bytes then [kReplacementCharacter] else [])
    (fun s bytes => (s.reads bytes).sawError || reallyFlush flush && s.misses bytes) ?_ ?_ hne hsize
    trivial
  · intro s chunk rest hfits _
    obtain ⟨hreads, hmisses⟩ := s.reads_append chunk rest
    have hdecode := s.decode_spec hfits .doNotFlush
    rw [show reallyFlush .doNotFlush = false from rfl, Bool.false_and,
      if_neg Bool.false_ne_true] at hdecode
    dsimp only [textCodec]
    rw [hreads, hmisses, hdecode]
    dsimp only [ReadUnits.behind]
    rw [List.append_assoc, Bool.or_assoc]
    exact ⟨⟨rfl, rfl⟩, trivial⟩
  · intro s last hfits _
    have hdecode := s.decode_spec hfits flush
    dsimp only [textCodec]
    rw [hdecode]
    split
    · rename_i hmissing
      rw [hmissing, Bool.or_true]
      exact ⟨rfl, rfl⟩
    · rename_i hmissing
      rw [Bool.not_eq_true] at hmissing
      rw [hmissing, Bool.or_false]
      exact ⟨(List.append_nil _).symm, rfl⟩

/-- **The chunks of UTF-16.** They are read as the text of all their bytes. -/
theorem utf16_chunks (stopOnError : Bool) {chunks : List Bytes} (hne : chunks ≠ [])
    (hsize : ∀ chunk ∈ chunks, chunk.length + 1 < 2 ^ 32) :
    textCodec.decodeChunks flush stopOnError (create littleEndian) chunks =
        plainText16 littleEndian (reallyFlush flush) chunks.flatten ∧
      textCodec.chunksSawError flush stopOnError (create littleEndian) chunks =
        plainError16 littleEndian (reallyFlush flush) chunks.flatten := by
  obtain ⟨htext, herror⟩ := plain_of_reads littleEndian flush chunks.flatten
  obtain ⟨hdecoded, hsaw⟩ := decodeChunks_reads littleEndian flush stopOnError hne hsize
  exact ⟨hdecoded.trans htext, hsaw.trans herror⟩

/-- A pair whose bytes are split twice, and a byte too many. -/
theorem chunks_split :
    textCodec.decodeChunks .dataEOF true (create true) [[0x3D], [0xD8, 0x00], [], [0xDE, 0x41]] =
        plainText16 true true [0x3D, 0xD8, 0x00, 0xDE, 0x41] ∧
      textCodec.chunksSawError .dataEOF true (create true)
          [[0x3D], [0xD8, 0x00], [], [0xDE, 0x41]] =
        plainError16 true true [0x3D, 0xD8, 0x00, 0xDE, 0x41] :=
  utf16_chunks true .dataEOF true (List.cons_ne_nil [0x3D] [[0xD8, 0x00], [], [0xDE, 0x41]])
    (by decide)

theorem codeUnit_bytes (c : UInt16) :
    codeUnit true c.toUInt8 (c >>> 8).toUInt8 = c ∧
      codeUnit false (c >>> 8).toUInt8 c.toUInt8 = c := by
  have hlow : c.toUInt8.toNat = c.toNat % 2 ^ 8 := c.toNat_toUInt8
  have hhigh : (c >>> 8).toUInt8.toNat = c.toNat / 2 ^ 8 := by
    have hc := c.toNat_lt
    rw [UInt16.toNat_toUInt8, UInt16.toNat_shiftRight, Nat.shiftRight_eq_div_pow]
    exact Nat.mod_eq_of_lt (Nat.div_lt_of_lt_mul hc)
  have hsum : c.toNat % 2 ^ 8 ||| (c.toNat / 2 ^ 8) <<< 8 = c.toNat := by
    rw [Nat.shiftLeft_eq, Nat.mul_comm, or_eq_add (Nat.mod_lt _ (by decide))]
    exact Nat.mod_add_div _ _
  refine ⟨?_, ?_⟩
  · show UInt16.ofNat _ = c
    rw [hlow, hhigh, hsum, UInt16.ofNat_toNat]
  · show UInt16.ofNat _ = c
    rw [hlow, hhigh, Nat.or_comm, hsum, UInt16.ofNat_toNat]

theorem unitsOf_encode (units : Units) :
    unitsOf littleEndian (encode littleEndian units) = units ∧
      oddByte (encode littleEndian units) = none := by
  unfold encode
  induction units with
  | nil => exact ⟨rfl, rfl⟩
  | cons c units ih =>
    obtain ⟨hlittle, hbig⟩ := codeUnit_bytes c
    rw [List.flatMap_cons]
    cases littleEndian with
    | true => exact ⟨congr (congrArg List.cons hlittle) ih.1, ih.2⟩
    | false => exact ⟨congr (congrArg List.cons hbig) ih.1, ih.2⟩

/-- **Encoding, and decoding in any chunks.** -/
theorem utf16_roundTrip (stopOnError : Bool) (units : Units) {chunks : List Bytes}
    (hne : chunks ≠ []) (hsize : ∀ chunk ∈ chunks, chunk.length + 1 < 2 ^ 32)
    (hchunks : chunks.flatten = encode littleEndian units) :
    textCodec.decodeChunks .dataEOF stopOnError (create littleEndian) chunks =
        replaceLoneSurrogates units ∧
      textCodec.chunksSawError .dataEOF stopOnError (create littleEndian) chunks =
        decide (replaceLoneSurrogates units ≠ units) := by
  obtain ⟨htext, herror⟩ := plain_of_reads littleEndian .dataEOF chunks.flatten
  obtain ⟨hdecoded, hsaw⟩ := decodeChunks_reads littleEndian .dataEOF stopOnError hne hsize
  obtain ⟨hunits, hodd⟩ := unitsOf_encode littleEndian units
  refine ⟨(hdecoded.trans htext).trans ?_, (hsaw.trans herror).trans ?_⟩
  · unfold plainText16
    rw [hchunks, hunits, hodd]
    exact List.append_nil _
  · unfold plainError16
    rw [hchunks, hunits, hodd]
    exact Bool.false_or _

/-- A pair in big-endian bytes, in chunks that split it, behind a lone surrogate. -/
theorem roundTrip_bigEndian :
    textCodec.decodeChunks .dataEOF false (create false) [[0xDC, 0x00, 0xD8], [0x3D, 0xDE, 0x00]] =
        [0xFFFD, 0xD83D, 0xDE00] ∧
      textCodec.chunksSawError .dataEOF false (create false)
          [[0xDC, 0x00, 0xD8], [0x3D, 0xDE, 0x00]] = true :=
  utf16_roundTrip false false [0xDC00, 0xD83D, 0xDE00] (List.cons_ne_nil _ _) (by decide) rfl

end Chunks

end Blinkit.Text
