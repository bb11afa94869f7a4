import Blinkit.Text.EncodingRegistry

/-!
# Codecs that read a text in chunks

* `FlushBehavior`, `TextCodec` — the interface of `text_codec.h`: `Decode` is asked for one chunk
  after the other, and the last call flushes.
* `decodeChunks` — the concatenation of the results.
* `ReadsChunksAs` — the same text is read from the chunks and from their concatenation.
* `chunksSawError` — one of the calls has reported an error.

A text is a list of UTF-16 code units.
-/

set_option autoImplicit false

namespace Blinkit.Text

abbrev Units := List UInt16

inductive FlushBehavior where
  | doNotFlush
  | fetchEOF
  | dataEOF
  deriving DecidableEq, Repr

/-- What a call of `Decode` leaves behind. -/
structure Decoded (σ : Type) where
  codec : σ
  text : Units
  sawError : Bool

/-- `TextCodec`, whose objects have states in `σ`. -/
structure TextCodec (σ : Type) where
  decode : σ → Bytes → FlushBehavior → (stopOnError : Bool) → Decoded σ

namespace TextCodec

variable {σ : Type} (c : TextCodec σ) (flush : FlushBehavior) (stopOnError : Bool)

/-- The texts of the chunks. All calls but the last do not flush. -/
def decodeChunks (s : σ) : List Bytes → Units
  | [] => []
  | [last] => (c.decode s last flush stopOnError).text
  | chunk :: chunks =>
    let r := c.decode s chunk .doNotFlush stopOnError
    r.text ++ decodeChunks r.codec chunks

/-- The chunks give the text that their concatenation gives in one call. -/
def ReadsChunksAs (s : σ) (chunks : List Bytes) : Prop :=
  c.decodeChunks flush stopOnError s chunks =
    (c.decode s chunks.flatten flush stopOnError).text

theorem decodeChunks_cons (s : σ) (chunk : Bytes) {chunks : List Bytes} (h : chunks ≠ []) :
    c.decodeChunks flush stopOnError s (chunk :: chunks) =
      (c.decode s chunk .doNotFlush stopOnError).text ++
        c.decodeChunks flush stopOnError (c.decode s chunk .doNotFlush stopOnError).codec
          chunks := by
  cases chunks with
  | nil => exact absurd rfl h
  | cons next chunks => rfl

/-- Whether a call for one of the chunks reports an error. -/
def chunksSawError (s : σ) : List Bytes → Bool
  | [] => false
  | [last] => (c.decode s last flush stopOnError).sawError
  | chunk :: chunks =>
    let r := c.decode s chunk .doNotFlush stopOnError
    r.sawError || chunksSawError r.codec chunks

/-- **The rule of the chunks.** `meaning` and `fails` say what all the bytes from a state on mean,
`Fits` what a call can be given. -/
theorem decodeChunks_meaning (Fits : Bytes → Prop) (Inv : σ → Bytes → Prop)
    (meaning : σ → Bytes → Units) (fails : σ → Bytes → Bool)
    (hstep : ∀ s chunk rest, Fits chunk → Inv s (chunk ++ rest) →
      let r := c.decode s chunk .doNotFlush stopOnError
      (meaning s (chunk ++ rest) = r.text ++ meaning r.codec rest ∧
        fails s (chunk ++ rest) = (r.sawError || fails r.codec rest)) ∧ Inv r.codec rest)
    (hlast : ∀ s last, Fits last → Inv s last →
      let r := c.decode s last flush stopOnError
      r.text = meaning s last ∧ r.sawError = fails s last)
    {chunks : List Bytes} (hne : chunks ≠ []) (hfits : ∀ chunk ∈ chunks, Fits chunk) {s : σ}
    (hs : Inv s chunks.flatten) :
    c.decodeChunks flush stopOnError s chunks = meaning s chunks.flatten ∧
      c.chunksSawError flush stopOnError s chunks = fails s chunks.flatten := by
  induction chunks generalizing s with
  | nil => exact absurd rfl hne
  | cons chunk chunks ih =>
    obtain ⟨hchunk, hrest⟩ := List.forall_mem_cons.mp hfits
    cases chunks with
    | nil =>
      rw [List.flatten_singleton] at hs ⊢
      exact hlast s chunk hchunk hs
    | cons next chunks =>
      rw [List.flatten_cons] at hs ⊢
      obtain ⟨⟨htext, herror⟩, hinv⟩ := hstep s chunk _ hchunk hs
      obtain ⟨htext', herror'⟩ := ih (List.cons_ne_nil next chunks) hrest hinv
      rw [htext, herror, ← htext', ← herror']
      exact ⟨rfl, rfl⟩

end TextCodec

end Blinkit.Text
