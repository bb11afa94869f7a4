import Blinkit.Text.TextCodec

/-!
# Machine words of ASCII characters

Translation of what the codecs use of `ascii_fast_path.h` and `text_codec_ascii_fast_path.h`. From an
aligned address on, bytes are tested and copied by words, which have the size of a pointer.

* `MachineWord` — the sizes that a word has.
* `copyWords` — the number of bytes that the loop over the words copies.
* `asciiRun` — the bytes that a round of a decoding loop takes when the first one is ASCII.
* `widened` — the characters of such bytes.

Principal result: `asciiRun_spec`: a round takes at least one byte, and only ASCII.
-/

set_option autoImplicit false

namespace Blinkit.Text

/-- `MachineWord`, of a build for 32 or for 64 bits. -/
inductive MachineWord where
  | bits32
  | bits64
  deriving DecidableEq

/-- `sizeof(MachineWord)`. -/
def MachineWord.size : MachineWord → Nat
  | bits32 => 4
  | bits64 => 8

theorem MachineWord.size_pos (word : MachineWord) : 0 < word.size := by
  cases word <;> decide

/-- `IsAlignedToMachineWord`. -/
def isAlignedToMachineWord (word : MachineWord) (address : Nat) : Bool :=
  address % word.size == 0

def isASCII (b : UInt8) : Bool := b < 0x80

/-- The loop over the words in front of `aligned_end`, until one is not `IsAllASCII`. -/
def copyWords (word : MachineWord) : Nat → Bytes → Nat
  | 0, _ => 0
  | words + 1, source =>
    if (source.take word.size).all isASCII then
      word.size + copyWords word words (source.drop word.size)
    else 0

/-- The fast path of a round whose first byte is ASCII. A byte behind the words is copied, too, when
it is ASCII. -/
def asciiRun (word : MachineWord) (address : Nat) (source : Bytes) : Nat :=
  if isAlignedToMachineWord word address then
    let n := copyWords word (source.length / word.size) source
    match source.drop n with
    | [] => n
    | next :: _ => if isASCII next then n + 1 else n
  else 1

/-- The bytes as UTF-16 code units. -/
def widened (bytes : Bytes) : Units := bytes.map fun b => b.toUInt16

theorem copyWords_spec {word : MachineWord} {words : Nat} {source : Bytes}
    (hwords : words * word.size ≤ source.length) :
    copyWords word words source ≤ source.length ∧
      (source.take (copyWords word words source)).all isASCII = true := by
  induction words generalizing source with
  | zero => exact ⟨Nat.zero_le _, rfl⟩
  | succ words ih =>
    unfold copyWords
    split
    · rename_i hword
      rw [Nat.succ_mul] at hwords
      have hrest : words * word.size ≤ (source.drop word.size).length := by
        rw [List.length_drop]
        omega
      obtain ⟨hlength, hall⟩ := ih hrest
      rw [List.length_drop] at hlength
      refine ⟨by omega, ?_⟩
      rw [List.take_add, List.all_append, hword, hall]
      rfl
    · exact ⟨Nat.zero_le _, rfl⟩

/-- The loop stops in front of a word that is not ASCII. -/
theorem copyWords_stops (word : MachineWord) (words : Nat) (source : Bytes) :
    copyWords word words source % word.size = 0 ∧
      copyWords word words source ≤ words * word.size ∧
      (copyWords word words source < words * word.size →
        ((source.drop (copyWords word words source)).take word.size).all isASCII = false) := by
  induction words generalizing source with
  | zero =>
    rw [Nat.zero_mul]
    exact ⟨Nat.zero_mod _, Nat.le_refl 0, fun h => absurd h (Nat.lt_irrefl 0)⟩
  | succ words ih =>
    unfold copyWords
    split
    · obtain ⟨hmod, hle, hstop⟩ := ih (source.drop word.size)
      refine ⟨by rwa [Nat.add_mod_left], by rw [Nat.succ_mul]; omega, fun hlt => ?_⟩
      rw [← List.drop_drop]
      exact hstop (by rw [Nat.succ_mul] at hlt; omega)
    · rename_i hword
      exact ⟨Nat.zero_mod _, Nat.zero_le _, fun _ => Bool.eq_false_iff.mpr hword⟩

theorem take_succ_of_drop {source rest : Bytes} {next : UInt8} {n : Nat}
    (h : source.drop n = next :: rest) :
    source.take (n + 1) = source.take n ++ [next] ∧ n < source.length := by
  have hlt : n < source.length := by
    by_contra hge
    rw [List.drop_eq_nil_of_le (by omega)] at h
    cases h
  refine ⟨?_, hlt⟩
  rw [List.take_add, h]
  rfl

/-- **A round of the fast path.** -/
theorem asciiRun_spec (word : MachineWord) (address : Nat) {first : UInt8}
    (hfirst : isASCII first = true) (rest : Bytes) :
    1 ≤ asciiRun word address (first :: rest) ∧
      asciiRun word address (first :: rest) ≤ rest.length + 1 ∧
      ((first :: rest).take (asciiRun word address (first :: rest))).all isASCII = true := by
  unfold asciiRun
  split
  · have hwords := Nat.div_mul_le_self (first :: rest).length word.size
    obtain ⟨hlength, hall⟩ := copyWords_spec hwords
    generalize hn : copyWords word ((first :: rest).length / word.size) (first :: rest) = n at *
    rw [List.length_cons] at hlength
    dsimp only
    split
    · rename_i hnil
      refine ⟨?_, hlength, hall⟩
      have hend := List.drop_eq_nil_iff.mp hnil
      rw [List.length_cons] at hend
      omega
    · rename_i next more hcons
      obtain ⟨htake, hlt⟩ := take_succ_of_drop hcons
      rw [List.length_cons] at hlt
      split
      · rename_i hnext
        refine ⟨by omega, by omega, ?_⟩
        rw [htake, List.all_append, hall, List.all_cons, hnext]
        rfl
      · rename_i hnext
        refine ⟨?_, by omega, hall⟩
        rcases Nat.eq_zero_or_pos n with rfl | hpos
        · rw [List.drop_zero] at hcons
          cases hcons
          exact absurd hfirst hnext
        · exact hpos
  · refine ⟨Nat.le_refl 1, by omega, ?_⟩
    rw [List.take_succ_cons, List.take_zero, List.all_cons, hfirst]
    rfl

end Blinkit.Text
