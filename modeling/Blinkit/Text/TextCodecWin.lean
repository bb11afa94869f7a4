import Blinkit.Text.TextCodec
import Mathlib.Algebra.Group.Int.Defs
import Mathlib.Algebra.Group.Nat.Defs
import Mathlib.Data.List.Basic

/-!
# The codec of the GBK encoding

Translation of `TextCodecWin::Decode` (`text_codec_win.cpp`) and of `SysMultiByteToWide`
(`sys_string_conversions_win.cc`).

* `System` — `MultiByteToWideChar`, a function of the operating system.
* `CodePage` — a code page with characters of one and of two bytes.
* `CodePage.decode` — the characters of a sequence, one after the other.
* `CodePage.pending` — the first byte of a character whose second byte is missing.
* `CodePage.firstCut` — the first character whose two bytes are in different chunks.

The codec keeps nothing from one call to the next, so the bytes of a cut character are converted
without each other.

Principal result: `readsChunks_iff_uncut`.
-/

set_option autoImplicit false

namespace Blinkit.Text

/-! ## The codec -/

structure System where
  /-- `MultiByteToWideChar` without flags: what is written, nothing if the call fails. -/
  multiByteToWideChar : (codePage : UInt32) → Bytes → (mbLength : Int) → Units

/-- `static_cast<int>` of a length. -/
def toInt32 (n : Nat) : Int := (n : Int).bmod (2 ^ 32)

/-- `base::SysMultiByteToWide`. -/
def sysMultiByteToWide (system : System) (mb : Bytes) (codePage : UInt32) : Units :=
  if mb.isEmpty then []
  else
    let mbLength := toInt32 mb.length
    let charcount := (system.multiByteToWideChar codePage mb mbLength).length
    if charcount = 0 then [] else system.multiByteToWideChar codePage mb mbLength

/-- `TextCodecWin`, with the code page as its state. -/
def textCodecWin (system : System) : TextCodec UInt32 where
  decode codePage bytes _ _ := ⟨codePage, sysMultiByteToWide system bytes codePage, false⟩

/-! ## Code pages -/

/-- A code page. A truncated character is converted to a code unit of its own: illegal sequences are
replaced, not dropped. -/
structure CodePage where
  isLeadByte : UInt8 → Bool
  single : UInt8 → UInt16
  /-- The character of two bytes, if it is assigned. -/
  double : UInt8 → UInt8 → Option UInt16
  unassigned : UInt16
  truncated : UInt8 → UInt16
  double_ne_truncated : ∀ lead trail c, double lead trail = some c → c ≠ truncated lead

namespace CodePage

variable (cp : CodePage)

/-- The code unit of a character of two bytes. -/
def unitOf (lead trail : UInt8) : UInt16 := (cp.double lead trail).getD cp.unassigned

/-- The characters of a sequence. -/
def decode : Bytes → Units
  | [] => []
  | [b] => if cp.isLeadByte b then [cp.truncated b] else [cp.single b]
  | b :: t :: rest =>
    if cp.isLeadByte b then cp.unitOf b t :: decode rest else cp.single b :: decode (t :: rest)

/-- The first byte of the last character, when its second byte is missing. -/
def pending : Bytes → Option UInt8
  | [] => none
  | [b] => if cp.isLeadByte b then some b else none
  | b :: t :: rest => if cp.isLeadByte b then pending rest else pending (t :: rest)

/-- The first character whose two bytes are in different chunks. -/
def firstCut : List Bytes → Option (UInt8 × UInt8)
  | [] => none
  | chunk :: chunks =>
    match cp.pending chunk, chunks.flatten with
    | some lead, trail :: _ => some (lead, trail)
    | some _, [] => none
    | none, _ => firstCut chunks

end CodePage

/-- The system converts a sequence character by character according to its code page. -/
def System.Converts (system : System) (codePage : UInt32) (cp : CodePage) : Prop :=
  ∀ mb : Bytes, mb ≠ [] → mb.length < 2 ^ 31 →
    system.multiByteToWideChar codePage mb mb.length = cp.decode mb

/-! ## Characters and chunks -/

namespace CodePage

variable {cp : CodePage} {a b : Bytes} {chunks : List Bytes}

/-- Behind a complete character a sequence can be cut. -/
theorem decode_append (h : cp.pending a = none) :
    cp.decode (a ++ b) = cp.decode a ++ cp.decode b := by
  induction a using decode.induct cp with
  | case1 => rfl
  | case2 x hx => simp [pending, hx] at h
  | case3 x hx => cases b <;> simp [decode, hx]
  | case4 x t rest hx ih =>
    unfold pending at h
    rw [if_pos hx] at h
    simp [decode, hx, ih h]
  | case5 x t rest hx ih =>
    unfold pending at h
    rw [if_neg hx] at h
    have hrest := ih h
    simp only [List.cons_append] at hrest ⊢
    simp [decode, hx, hrest]

/-- Within a character the parts are converted to something else. -/
theorem decode_cut {lead : UInt8} (h : cp.pending a = some lead) :
    ∃ before, cp.decode a = before ++ [cp.truncated lead] ∧
      ∀ trail rest, cp.decode (a ++ trail :: rest) =
        before ++ cp.unitOf lead trail :: cp.decode rest := by
  induction a using decode.induct cp with
  | case1 => cases h
  | case2 x hx =>
    simp only [pending, hx, if_true] at h
    cases h
    exact ⟨[], by simp [decode, hx], fun trail rest => by simp [decode, hx]⟩
  | case3 x hx => simp [pending, hx] at h
  | case4 x t rest hx ih =>
    unfold pending at h
    rw [if_pos hx] at h
    obtain ⟨before, hbefore, hcut⟩ := ih h
    refine ⟨cp.unitOf x t :: before, by simp [decode, hx, hbefore], fun trail rest' => ?_⟩
    simp [decode, hx, hcut]
  | case5 x t rest hx ih =>
    unfold pending at h
    rw [if_neg hx] at h
    obtain ⟨before, hbefore, hcut⟩ := ih h
    refine ⟨cp.single x :: before, by simp [decode, hx, hbefore], fun trail rest' => ?_⟩
    have hrest := hcut trail rest'
    simp only [List.cons_append] at hrest ⊢
    simp [decode, hx, hrest]

/-- **Chunks that cut no character give the text of their concatenation.** -/
theorem flatMap_decode (h : cp.firstCut chunks = none) :
    chunks.flatMap cp.decode = cp.decode chunks.flatten := by
  induction chunks with
  | nil => rfl
  | cons chunk chunks ih =>
    rw [List.flatMap_cons, List.flatten_cons]
    unfold firstCut at h
    cases hpending : cp.pending chunk with
    | none =>
      rw [hpending] at h
      rw [ih h, decode_append hpending]
    | some lead =>
      rw [hpending] at h
      cases hrest : chunks.flatten with
      | cons trail rest =>
        rw [hrest] at h
        cases h
      | nil =>
        have hnil : ∀ c ∈ chunks, cp.decode c = [] := by
          intro c hc
          rw [List.flatten_eq_nil_iff.mp hrest c hc]
          rfl
        rw [List.flatMap_eq_nil_iff.mpr hnil, List.append_nil, List.append_nil]

/-- **Chunks that cut a character do not.** -/
theorem flatMap_decode_ne {lead trail : UInt8} (h : cp.firstCut chunks = some (lead, trail))
    (hassigned : (cp.double lead trail).isSome = true) :
    chunks.flatMap cp.decode ≠ cp.decode chunks.flatten := by
  induction chunks with
  | nil => cases h
  | cons chunk chunks ih =>
    rw [List.flatMap_cons, List.flatten_cons]
    unfold firstCut at h
    cases hpending : cp.pending chunk with
    | none =>
      rw [hpending] at h
      rw [decode_append hpending]
      intro heq
      exact ih h (List.append_cancel_left heq)
    | some lead' =>
      rw [hpending] at h
      cases hrest : chunks.flatten with
      | nil =>
        rw [hrest] at h
        cases h
      | cons trail' rest =>
        rw [hrest] at h
        cases h
        obtain ⟨before, hbefore, hcut⟩ := decode_cut hpending
        obtain ⟨c, hc⟩ := Option.isSome_iff_exists.mp hassigned
        rw [hbefore, hcut, List.append_assoc]
        intro heq
        have hheads := (List.cons.inj (List.append_cancel_left heq)).1
        unfold unitOf at hheads
        rw [hc] at hheads
        exact cp.double_ne_truncated lead trail c hc hheads.symm

end CodePage

/-! ## The codec -/

variable {system : System} {codePage : UInt32} {cp : CodePage}

theorem toInt32_of_lt {n : Nat} (h : n < 2 ^ 31) : toInt32 n = n := by
  unfold toInt32
  rw [Int.bmod_eq_of_le] <;> omega

/-- **One call converts its own bytes, and nothing else.** -/
theorem sysMultiByteToWide_eq (h : system.Converts codePage cp) {mb : Bytes}
    (hlength : mb.length < 2 ^ 31) : sysMultiByteToWide system mb codePage = cp.decode mb := by
  unfold sysMultiByteToWide
  cases hmb : mb with
  | nil => rfl
  | cons b rest =>
    rw [hmb] at hlength
    simp only [List.isEmpty_cons, Bool.false_eq_true, if_false, toInt32_of_lt hlength,
      h (b :: rest) (List.cons_ne_nil b rest) hlength]
    split
    · rename_i hzero
      exact (List.eq_nil_of_length_eq_zero hzero).symm
    · rfl

/-- The calls of `Decode` convert the chunks one by one. -/
theorem decodeChunks_textCodecWin (h : system.Converts codePage cp) (flush : FlushBehavior)
    (stopOnError : Bool) {chunks : List Bytes} (hlength : chunks.flatten.length < 2 ^ 31) :
    (textCodecWin system).decodeChunks flush stopOnError codePage chunks =
      chunks.flatMap cp.decode := by
  induction chunks with
  | nil => rfl
  | cons chunk chunks ih =>
    rw [List.flatten_cons, List.length_append] at hlength
    have hchunk : sysMultiByteToWide system chunk codePage = cp.decode chunk :=
      sysMultiByteToWide_eq h (by omega)
    have hrest := ih (by omega)
    cases chunks with
    | nil =>
      show sysMultiByteToWide system chunk codePage = _
      rw [hchunk, List.flatMap_cons, List.flatMap_nil, List.append_nil]
    | cons next chunks =>
      show sysMultiByteToWide system chunk codePage ++
        (textCodecWin system).decodeChunks flush stopOnError codePage (next :: chunks) = _
      rw [hchunk, hrest]
      exact List.flatMap_cons.symm

/-- **Chunk invariance of the codec.** Chunks of a sequence whose length fits into an `int` are read
as their concatenation if no character has its bytes in two of them, and only then if the first
character that has is assigned: an unassigned one may be converted to what its parts are. -/
theorem readsChunks_iff_uncut (h : system.Converts codePage cp) (flush : FlushBehavior)
    (stopOnError : Bool) (chunks : List Bytes) :
    (chunks.flatten.length < 2 ^ 31 ∧ cp.firstCut chunks = none →
      (textCodecWin system).ReadsChunksAs flush stopOnError codePage chunks) ∧
    (chunks.flatten.length < 2 ^ 31 →
      (∀ lead trail, cp.firstCut chunks = some (lead, trail) →
        (cp.double lead trail).isSome = true) →
      ((textCodecWin system).ReadsChunksAs flush stopOnError codePage chunks ↔
        cp.firstCut chunks = none)) := by
  have hreads : chunks.flatten.length < 2 ^ 31 →
      ((textCodecWin system).ReadsChunksAs flush stopOnError codePage chunks ↔
        chunks.flatMap cp.decode = cp.decode chunks.flatten) := by
    intro hlength
    unfold TextCodec.ReadsChunksAs
    rw [decodeChunks_textCodecWin h flush stopOnError hlength]
    show _ = sysMultiByteToWide system chunks.flatten codePage ↔ _
    rw [sysMultiByteToWide_eq h hlength]
  constructor
  · rintro ⟨hlength, huncut⟩
    exact (hreads hlength).mpr (CodePage.flatMap_decode huncut)
  · intro hlength hassigned
    rw [hreads hlength]
    refine ⟨fun heq => ?_, CodePage.flatMap_decode⟩
    cases hcut : cp.firstCut chunks with
    | none => rfl
    | some cut =>
      obtain ⟨lead, trail⟩ := cut
      exact absurd heq (CodePage.flatMap_decode_ne hcut (hassigned lead trail hcut))

/-! ## A part of the GBK code page -/

/-- The code page 936, with one character of two bytes: `D6 D0` is `U+4E2D`. -/
def codePage936 : CodePage where
  isLeadByte b := 0x81 ≤ b && b ≤ 0xFE
  single b := b.toUInt16
  double lead trail := if lead = 0xD6 ∧ trail = 0xD0 then some 0x4E2D else none
  unassigned := 0x3F
  truncated _ := 0x3F
  double_ne_truncated := by
    intro lead trail c h
    split at h
    · cases h
      decide
    · cases h

/-- A system that converts by this code page. -/
def system936 : System := ⟨fun _ mb mbLength => codePage936.decode (mb.take mbLength.toNat)⟩

theorem converts_system936 : system936.Converts 936 codePage936 := by
  intro mb _ _
  show codePage936.decode (mb.take _) = _
  rw [Int.toNat_natCast, List.take_length]

/-- The character `D6 D0` and the letter `a`, cut between them. -/
theorem readsChunks_between_characters :
    (textCodecWin system936).ReadsChunksAs .dataEOF false 936 [[0xD6, 0xD0], [0x61]] :=
  (readsChunks_iff_uncut converts_system936 .dataEOF false [[0xD6, 0xD0], [0x61]]).1
    ⟨by decide, by decide⟩

/-- **The character `D6 D0`, cut within, is read as two question marks.** -/
theorem cut_character :
    (textCodecWin system936).decodeChunks .dataEOF false 936 [[0xD6], [0xD0]] = [0x3F, 0x3F] ∧
      ((textCodecWin system936).decode 936 [0xD6, 0xD0] .dataEOF false).text = [0x4E2D] ∧
      ¬ (textCodecWin system936).ReadsChunksAs .dataEOF false 936 [[0xD6], [0xD0]] := by
  unfold TextCodec.ReadsChunksAs
  decide +kernel

end Blinkit.Text
