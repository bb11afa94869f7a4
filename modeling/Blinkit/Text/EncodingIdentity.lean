import Blinkit.Text.EncodingRegistry

/-!
# Two encodings are the same when their labels are

A `TextEncoding` points to the name in the node of its label, and every label has a node of its own.

* `encodingOf` — the encoding that a label is registered for.
* `addressOf` — the place of a label in the extended map of names.
* `Registry.Sound` — the invariant: the maps are in one of three stages, and what the static locals
  hold is what their labels give.

In every stage a label that is found is found at the same place, so the order of the lookups does
not matter. But `UTF-16` and `UTF-16LE` are two places.

Principal results: `Sound.textEncoding`, `encoding_identity_iff`.
-/

set_option autoImplicit false

namespace Blinkit.Text

open Function

/-! ## Labels -/

/-- The bytes of a label as they are compared: up to the first null, in lower case. -/
def Label.key : Label → Bytes
  | .pointer none => []
  | .pointer (some name) => toLowerASCII (cString name)
  | .string aliasName => toLowerASCII (cString aliasName)

/-- What the codecs of the first stage register. -/
def baseRegistrations : List (String × String) :=
  [textCodecLatin1, textCodecUTF8, textCodecUTF16].flatMap Registration.encodingNames

/-- All that the codecs register. -/
def registrations : List (String × String) :=
  baseRegistrations ++ [textCodecReplacement, textCodecUserDefined].flatMap
    Registration.encodingNames

/-- The node of an entry. -/
def nodeOf (entry : String × String) : Node := ⟨toLowerASCII (ascii entry.1), ascii entry.2⟩

/-- The encoding that a label is registered for. -/
def encodingOf (label : Label) : Option Bytes :=
  (registrations.find? fun entry => toLowerASCII (ascii entry.1) == label.key).map
    fun entry => ascii entry.2

/-- Labels are compared without regard to case. -/
theorem encodingOf_congr {a b : Label} (h : a.key = b.key) : encodingOf a = encodingOf b := by
  unfold encodingOf
  rw [h]

/-- The name is that of one of the two UTF-16 encodings. -/
def IsUTF16 (name : Option Bytes) : Prop :=
  name = some (ascii "UTF-16LE") ∨ name = some (ascii "UTF-16BE")

/-- The label is one of the two that the UTF-16 encodings have their names from. -/
def Label.NamesUTF16 (label : Label) : Prop :=
  label.key = toLowerASCII (ascii "UTF-16LE") ∨ label.key = toLowerASCII (ascii "UTF-16BE")

/-! ## The stages of the maps -/

def baseMaps : TextCodecMaps := TextCodecMaps.empty.buildBaseTextCodecMaps

def extendedMaps : TextCodecMaps := baseMaps.extendTextCodecMaps

/-- The place of a label in the extended map of names. -/
def addressOf (key : Bytes) : Option Address := extendedMaps.find key

/-- The maps have a node for every label that is registered, in order. -/
theorem maps_nodes :
    baseMaps.textEncodingNameMap = baseRegistrations.map nodeOf ∧
      extendedMaps.textEncodingNameMap = registrations.map nodeOf := by
  decide +kernel

theorem baseMaps_nodes : baseMaps.textEncodingNameMap = baseRegistrations.map nodeOf :=
  maps_nodes.1

theorem extendedMaps_nodes : extendedMaps.textEncodingNameMap = registrations.map nodeOf :=
  maps_nodes.2

/-- Every name in the maps has a codec, in both stages. -/
theorem codecs_complete :
    (∀ node ∈ baseMaps.textEncodingNameMap, (baseMaps.textCodecMap.lookup node.name).isSome) ∧
      ∀ node ∈ extendedMaps.textEncodingNameMap,
        (extendedMaps.textCodecMap.lookup node.name).isSome := by
  decide +kernel

theorem extendTextCodecMaps_baseMaps : baseMaps.extendTextCodecMaps = extendedMaps := rfl

theorem buildBaseTextCodecMaps_empty : TextCodecMaps.empty.buildBaseTextCodecMaps = baseMaps := rfl

attribute [irreducible] baseMaps extendedMaps

/-- The second stage adds nodes behind the nodes of the first. -/
theorem baseMaps_prefix : baseMaps.textEncodingNameMap <+: extendedMaps.textEncodingNameMap := by
  rw [baseMaps_nodes, extendedMaps_nodes]
  unfold registrations
  rw [List.map_append]
  exact List.prefix_append _ _

theorem baseMaps_isEmpty : baseMaps.textEncodingNameMap.isEmpty = false := by
  rw [baseMaps_nodes]
  rfl

theorem extendedMaps_isEmpty : extendedMaps.textEncodingNameMap.isEmpty = false := by
  rw [extendedMaps_nodes]
  rfl

theorem addressOf_nil : addressOf [] = none := by
  unfold addressOf TextCodecMaps.find
  rw [extendedMaps_nodes]
  decide +kernel

/-- What is found in the first stage is found at the same place in the second. -/
theorem addressOf_of_base {key : Bytes} {a : Address} (h : baseMaps.find key = some a) :
    addressOf key = some a := by
  obtain ⟨rest, hrest⟩ := baseMaps_prefix
  unfold addressOf TextCodecMaps.find
  unfold TextCodecMaps.find at h
  rw [← hrest, List.findIdx?_append, h]
  rfl

/-- The node of a label has the label. -/
theorem node_of_addressOf {key : Bytes} {a : Address} (h : addressOf key = some a) :
    ∃ node, extendedMaps.textEncodingNameMap[a]? = some node ∧ node.aliasName = key := by
  unfold addressOf TextCodecMaps.find at h
  rw [List.findIdx?_eq_some_iff_getElem] at h
  obtain ⟨hlt, hkey, -⟩ := h
  exact ⟨_, List.getElem?_eq_getElem hlt, by simpa using hkey⟩

/-- **Labels at the same place are the same.** -/
theorem addressOf_inj {key key' : Bytes} {a : Address} (h : addressOf key = some a)
    (h' : addressOf key' = some a) : key = key' := by
  obtain ⟨node, hnode, rfl⟩ := node_of_addressOf h
  obtain ⟨node', hnode', rfl⟩ := node_of_addressOf h'
  rw [hnode] at hnode'
  cases hnode'
  rfl

theorem addressOf_eq_iff {key key' : Bytes} (h : (addressOf key).isSome = true) :
    addressOf key = addressOf key' ↔ key = key' := by
  constructor
  · intro heq
    obtain ⟨a, ha⟩ := Option.isSome_iff_exists.mp h
    exact addressOf_inj ha (heq.symm.trans ha)
  · intro heq
    rw [heq]

/-! ## The invariant -/

variable {r r' : Registry}

/-- **The invariant of the registry.** -/
structure Registry.Sound (r : Registry) : Prop where
  stage : (r.maps = .empty ∧ r.textCodecMapsExtended = false) ∨
    (r.maps = baseMaps ∧ r.textCodecMapsExtended = false) ∨
    (r.maps = extendedMaps ∧ r.textCodecMapsExtended = true)
  statics : ∀ k e, r.statics k = some e → e = ⟨addressOf (toLowerASCII (ascii k.label))⟩

/-- The registry `r'` may come behind `r`: no node is lost. -/
structure Registry.Follows (r r' : Registry) : Prop where
  sound : r'.Sound
  length_le : r.maps.textEncodingNameMap.length ≤ r'.maps.textEncodingNameMap.length

namespace Registry

theorem Follows.trans {r'' : Registry} (h : r.Follows r') (h' : r'.Follows r'') :
    r.Follows r'' :=
  ⟨h'.sound, Nat.le_trans h.length_le h'.length_le⟩

theorem Sound.follows (h : r.Sound) : r.Follows r := ⟨h, Nat.le_refl _⟩

theorem sound_initial : Registry.initial.Sound :=
  ⟨.inl ⟨rfl, rfl⟩, fun _ _ h => by cases h⟩

/-- The nodes are the first nodes of the extended map. -/
theorem Sound.nodes_prefix (h : r.Sound) :
    r.maps.textEncodingNameMap <+: extendedMaps.textEncodingNameMap := by
  rcases h.stage with ⟨hmaps, -⟩ | ⟨hmaps, -⟩ | ⟨hmaps, -⟩
  · rw [hmaps]
    exact List.nil_prefix
  · rw [hmaps]
    exact baseMaps_prefix
  · exact ⟨[], by rw [List.append_nil, hmaps]⟩

/-- A node of a registry has the characters that it has in the extended map. -/
theorem Sound.characters (h : r.Sound) {a : Address}
    (ha : a < r.maps.textEncodingNameMap.length) :
    r.maps.characters a = extendedMaps.characters a := by
  obtain ⟨rest, hrest⟩ := h.nodes_prefix
  unfold TextCodecMaps.characters
  rw [← hrest, List.getElem?_append_left ha]

theorem lt_of_find {m : TextCodecMaps} {key : Bytes} {a : Address} (h : m.find key = some a) :
    a < m.textEncodingNameMap.length := by
  unfold TextCodecMaps.find at h
  rw [List.findIdx?_eq_some_iff_getElem] at h
  exact h.1

/-- An answer of the registry: the place of the label, whatever the stage is. -/
structure Answers (r : Registry) (key : Bytes) (q : Registry × Option Address) : Prop where
  follows : r.Follows q.1
  place : q.2 = addressOf key
  present : ∀ a, q.2 = some a → a < q.1.maps.textEncodingNameMap.length

/-- The second half of `AtomicCanonicalTextEncodingName`, behind the first loading stage. -/
theorem Sound.findOrExtend (h : r.Sound) (hmaps : r.maps.textEncodingNameMap.isEmpty = false)
    (lower : Bytes) :
    r.Answers lower
      (match r.maps.find lower with
      | some a => (r, some a)
      | none =>
        if r.textCodecMapsExtended then (r, none)
        else
          let maps := r.maps.extendTextCodecMaps
          ({ r with maps := maps, textCodecMapsExtended := true }, maps.find lower)) := by
  rcases h.stage with ⟨hempty, -⟩ | ⟨hbase, hextended⟩ | ⟨hall, hextended⟩
  · rw [hempty] at hmaps
    cases hmaps
  · cases hfind : r.maps.find lower with
    | some a =>
      have hlt := lt_of_find hfind
      rw [hbase] at hfind
      refine ⟨h.follows, (addressOf_of_base hfind).symm, fun b hb => ?_⟩
      cases hb
      exact hlt
    | none =>
      have hmore : r.maps.extendTextCodecMaps = extendedMaps := by
        rw [hbase, extendTextCodecMaps_baseMaps]
      simp only [hextended, Bool.false_eq_true, if_false, hmore]
      have hlength : r.maps.textEncodingNameMap.length ≤
          extendedMaps.textEncodingNameMap.length := by
        rw [hbase]
        exact baseMaps_prefix.length_le
      exact ⟨⟨⟨.inr (.inr ⟨rfl, rfl⟩), h.statics⟩, hlength⟩, rfl, fun b hb => lt_of_find hb⟩
  · cases hfind : r.maps.find lower with
    | some a =>
      have hlt := lt_of_find hfind
      rw [hall] at hfind
      refine ⟨h.follows, hfind.symm, fun b hb => ?_⟩
      cases hb
      exact hlt
    | none =>
      simp only [hextended, if_true]
      rw [hall] at hfind
      exact ⟨h.follows, hfind.symm, fun b hb => by cases hb⟩

/-- A label without characters is not found. -/
theorem Sound.answers_nil (h : r.Sound) : r.Answers [] (r, none) :=
  ⟨h.follows, addressOf_nil.symm, fun _ hb => by cases hb⟩

theorem Sound.atomicCanonicalTextEncodingName (h : r.Sound) (name : Option Bytes) :
    r.Answers (Label.pointer name).key (r.atomicCanonicalTextEncodingName name) := by
  unfold Registry.atomicCanonicalTextEncodingName
  cases name with
  | none => exact h.answers_nil
  | some name =>
    simp only [Option.map_some, Label.key]
    cases hname : cString name with
    | nil => exact h.answers_nil
    | cons c cs =>
      simp only []
      rcases h.stage with ⟨hmaps, hextended⟩ | hstage
      · have hempty : r.maps.textEncodingNameMap.isEmpty = true := by rw [hmaps]; rfl
        have hbase : r.maps.buildBaseTextCodecMaps = baseMaps := by
          rw [hmaps, buildBaseTextCodecMaps_empty]
        rw [hempty, if_pos rfl, hbase]
        have hsound : Registry.Sound { r with maps := baseMaps } :=
          ⟨.inr (.inl ⟨rfl, hextended⟩), h.statics⟩
        have hanswers := hsound.findOrExtend baseMaps_isEmpty (toLowerASCII (c :: cs))
        refine ⟨⟨hanswers.follows.sound, ?_⟩, hanswers.place, hanswers.present⟩
        rw [hmaps]
        exact Nat.zero_le _
      · have hnonempty : r.maps.textEncodingNameMap.isEmpty = false := by
          rcases hstage with ⟨hmaps, -⟩ | ⟨hmaps, -⟩
          · rw [hmaps]
            exact baseMaps_isEmpty
          · rw [hmaps]
            exact extendedMaps_isEmpty
        rw [hnonempty]
        exact h.findOrExtend hnonempty (toLowerASCII (c :: cs))

/-- **The encoding of a label is its place in the extended map, in whatever state the registry
is.** -/
theorem Sound.textEncoding (h : r.Sound) (label : Label) :
    r.Answers label.key ((r.textEncoding label).1, (r.textEncoding label).2.name) := by
  unfold Registry.textEncoding
  cases label with
  | pointer name => exact h.atomicCanonicalTextEncodingName name
  | string aliasName =>
    simp only [atomicCanonicalTextEncodingNameOfString]
    split
    · rename_i hlength
      rw [List.eq_nil_of_length_eq_zero hlength]
      exact h.answers_nil
    · exact h.atomicCanonicalTextEncodingName (some aliasName)

theorem Sound.staticEncoding (h : r.Sound) (k : StaticEncoding) :
    r.Follows (r.staticEncoding k).1 ∧
      (r.staticEncoding k).2 = ⟨addressOf (toLowerASCII (ascii k.label))⟩ := by
  unfold Registry.staticEncoding
  cases hk : r.statics k with
  | some e => exact ⟨h.follows, h.statics k e hk⟩
  | none =>
    have hanswers := h.textEncoding (.pointer (some (ascii k.label)))
    have hkey : (Label.pointer (some (ascii k.label))).key = toLowerASCII (ascii k.label) := by
      cases k <;> decide +kernel
    have hname : (r.textEncoding (.pointer (some (ascii k.label)))).2 =
        ⟨addressOf (toLowerASCII (ascii k.label))⟩ := by
      rw [← hkey, ← hanswers.place]
    refine ⟨⟨⟨hanswers.follows.sound.stage, fun k' e he => ?_⟩, hanswers.follows.length_le⟩, hname⟩
    dsimp only at he
    by_cases hkk : k' = k
    · subst hkk
      rw [update_self] at he
      cases he
      exact hname
    · rw [update_of_ne hkk] at he
      exact hanswers.follows.sound.statics k' e he

/-- **Only the places of the two labels of the static encodings count as UTF-16.** -/
theorem Sound.isNonByteBasedEncoding (h : r.Sound) (e : TextEncoding) :
    r.Follows (r.isNonByteBasedEncoding e).1 ∧
      ((r.isNonByteBasedEncoding e).2 = true ↔
        e.name = addressOf (toLowerASCII (ascii "UTF-16LE")) ∨
          e.name = addressOf (toLowerASCII (ascii "UTF-16BE"))) := by
  obtain ⟨hlittle, hle⟩ := h.staticEncoding .utf16LittleEndianEncoding
  obtain ⟨hbig, hbe⟩ := hlittle.sound.staticEncoding .utf16BigEndianEncoding
  have hext : ∀ a : Option Address, e = ⟨a⟩ ↔ e.name = a := fun _ => TextEncoding.ext_iff
  unfold Registry.isNonByteBasedEncoding
  dsimp only
  rw [hle]
  split
  · rename_i heq
    exact ⟨hlittle, iff_of_true rfl (.inl ((hext _).mp heq))⟩
  · rename_i hne
    refine ⟨hlittle.trans hbig, ?_⟩
    rw [decide_eq_true_iff, hbe, hext]
    exact (or_iff_right (fun heq => hne ((hext _).mpr heq))).symm

/-- **Every action keeps the invariant.** -/
theorem Sound.step (h : r.Sound) (action : Action) : r.Follows (r.step action) := by
  cases action with
  | textEncoding label => exact (h.textEncoding label).follows
  | staticEncoding k => exact (h.staticEncoding k).1
  | isNonByteBasedEncoding e => exact (h.isNonByteBasedEncoding e).1

theorem Sound.after (h : r.Sound) (actions : List Action) : r.Follows (r.after actions) := by
  induction actions generalizing r with
  | nil => exact h.follows
  | cons action actions ih => exact (h.step action).trans (ih (h.step action).sound)

end Registry

/-! ## The names of the encodings -/

/-- The name at the place of a label is the encoding that the label is registered for. -/
theorem characters_of_addressOf {label : Label} {a : Address} (h : addressOf label.key = some a) :
    extendedMaps.characters a = encodingOf label := by
  unfold addressOf TextCodecMaps.find at h
  rw [extendedMaps_nodes, List.findIdx?_map, List.findIdx?_eq_some_iff_getElem] at h
  obtain ⟨hlt, hkey, hfirst⟩ := h
  have hfind : (registrations.find? fun entry =>
      toLowerASCII (ascii entry.1) == label.key) = some registrations[a] := by
    rw [List.find?_eq_some_iff_getElem]
    refine ⟨hkey, a, hlt, rfl, fun j hj => ?_⟩
    simpa [nodeOf] using hfirst j hj
  unfold TextCodecMaps.characters encodingOf
  rw [extendedMaps_nodes, hfind, List.getElem?_map, List.getElem?_eq_getElem hlt]
  rfl

/-- **The name of an encoding, in whatever state the registry is later.** -/
theorem Registry.Sound.getName (h : r.Sound) (label : Label)
    (hvalid : (r.textEncoding label).2.isValid = true)
    (hlater : (r.textEncoding label).1.Follows r') :
    r'.getName (r.textEncoding label).2 = encodingOf label := by
  obtain ⟨-, hplace, hpresent⟩ := h.textEncoding label
  obtain ⟨a, ha⟩ := Option.isSome_iff_exists.mp hvalid
  have hlt : a < r'.maps.textEncodingNameMap.length :=
    Nat.lt_of_lt_of_le (hpresent a ha) hlater.length_le
  unfold Registry.getName
  rw [ha, Option.bind_some, hlater.sound.characters hlt]
  exact characters_of_addressOf (hplace.symm.trans ha)

/-- **A valid encoding has a codec**, so the assertion of `NewTextCodec` holds. -/
theorem Registry.Sound.newTextCodec (h : r.Sound) {e : TextEncoding} {a : Address}
    (he : e.name = some a) (ha : a < r.maps.textEncodingNameMap.length) :
    (r.newTextCodec e).isSome = true := by
  have hname : r.getName e = some (r.maps.textEncodingNameMap[a]).name := by
    unfold Registry.getName TextCodecMaps.characters
    rw [he, Option.bind_some, List.getElem?_eq_getElem ha, Option.map_some]
  have hmem := List.getElem_mem ha
  unfold Registry.newTextCodec
  rw [hname, Option.bind_some]
  generalize r.maps.textEncodingNameMap[a] = node at hmem
  rcases h.stage with ⟨hmaps, -⟩ | ⟨hmaps, -⟩ | ⟨hmaps, -⟩
  · rw [hmaps] at hmem
    cases hmem
  · rw [hmaps] at hmem ⊢
    exact codecs_complete.1 node hmem
  · rw [hmaps] at hmem ⊢
    exact codecs_complete.2 node hmem

/-- **Encoding identity.** Two encodings that the registry has made from labels are the same exactly
when their names are, and an encoding of UTF-16 is recognised, exactly if the labels are the same
without regard to case or name different encodings, and the label of UTF-16 is `UTF-16LE` or
`UTF-16BE`. What the registry is asked for before, between and behind does not matter. -/
theorem encoding_identity_iff (before between later : List Action) (a b : Label) :
    let ra := (Registry.initial.after before).textEncoding a
    let rb := (ra.1.after between).textEncoding b
    let r := rb.1.after later
    ra.2.isValid = true → rb.2.isValid = true →
    (((ra.2 = rb.2 ↔ r.getName ra.2 = r.getName rb.2) ∧
        (IsUTF16 (r.getName ra.2) → (r.isNonByteBasedEncoding ra.2).2 = true)) ↔
      ((a.key = b.key ∨ encodingOf a ≠ encodingOf b) ∧
        (IsUTF16 (encodingOf a) → a.NamesUTF16))) := by
  intro ra rb r ha hb
  have hs₀ := (Registry.sound_initial.after before).sound
  have hansa := hs₀.textEncoding a
  have hs₁ := hansa.follows.sound.after between
  have hansb := hs₁.sound.textEncoding b
  have hlater := hansb.follows.sound.after later
  have hnamea : r.getName ra.2 = encodingOf a :=
    hs₀.getName a ha ((hs₁.trans hansb.follows).trans hlater)
  have hnameb : r.getName rb.2 = encodingOf b := hs₁.sound.getName b hb hlater
  have hplacea : ra.2.name = addressOf a.key := hansa.place
  have hplaceb : rb.2.name = addressOf b.key := hansb.place
  have hpresent : (addressOf a.key).isSome = true := by
    rw [← hplacea]
    exact ha
  have heq : ra.2 = rb.2 ↔ a.key = b.key := by
    rw [← addressOf_eq_iff hpresent, ← hplacea, ← hplaceb]
    exact TextEncoding.ext_iff
  have hutf : (r.isNonByteBasedEncoding ra.2).2 = true ↔ a.NamesUTF16 := by
    rw [(hlater.sound.isNonByteBasedEncoding ra.2).2, hplacea, addressOf_eq_iff hpresent,
      addressOf_eq_iff hpresent]
    rfl
  have hsame : a.key = b.key → encodingOf a = encodingOf b := encodingOf_congr
  rw [hnamea, hnameb, heq, hutf]
  apply and_congr_left
  intro _
  by_cases hkey : a.key = b.key
  · exact iff_of_true (iff_of_true hkey (hsame hkey)) (.inl hkey)
  · constructor
    · intro h
      exact .inr fun henc => hkey (h.mpr henc)
    · rintro (h | h)
      · exact absurd h hkey
      · exact iff_of_false hkey h

/-- The labels `UTF-8` and `utf-8`, with a lookup of `gb2312` between them. -/
theorem encoding_identity_utf8 :
    let ra := (Registry.initial.after []).textEncoding (.pointer (some (ascii "UTF-8")))
    let rb := (ra.1.after [.textEncoding (.string (ascii "gb2312"))]).textEncoding
      (.string (ascii "utf-8"))
    let r := rb.1.after []
    (ra.2 = rb.2 ↔ r.getName ra.2 = r.getName rb.2) ∧
      (IsUTF16 (r.getName ra.2) → (r.isNonByteBasedEncoding ra.2).2 = true) := by
  refine (encoding_identity_iff [] [.textEncoding (.string (ascii "gb2312"))] []
    (.pointer (some (ascii "UTF-8"))) (.string (ascii "utf-8")) (by decide +kernel)
    (by decide +kernel)).mpr ⟨.inl (by decide +kernel), fun hutf => absurd hutf ?_⟩
  unfold IsUTF16
  decide +kernel

/-- **`UTF-16` and `UTF-16LE` are two encodings with one name, and `UTF-16` is not recognised.** -/
theorem aliases_differ :
    let ra := Registry.initial.textEncoding (.string (ascii "UTF-16"))
    let rb := ra.1.textEncoding (.string (ascii "UTF-16LE"))
    rb.1.getName ra.2 = some (ascii "UTF-16LE") ∧ rb.1.getName rb.2 = some (ascii "UTF-16LE") ∧
      ra.2 ≠ rb.2 ∧ (rb.1.isNonByteBasedEncoding ra.2).2 = false := by
  decide +kernel

end Blinkit.Text
