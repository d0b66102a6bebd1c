import Bincache.Core.Unambiguous

/-!
# The text of a store path

A base name is 32 characters of the base32 alphabet, a dash and a name, and no other text is one:
`Spelled`. The hash is a multiple of five bits long, so no text over the alphabet is left out.

`parse` indexes and slices the bytes of its input. `parseSliced` is the same function with each of
these where the source has it, and a panic for one that is out of bounds or inside a character. The
byte in front of which the text is cut is looked at first, and an ASCII byte is a character of its
own, so there is no panic.
-/

namespace Bincache

namespace StorePath

/-! ## Names -/

theorem Name.new_text (name : Name) : Name.new name.text = .ok name := by
  obtain ⟨text, hnil, hlength, hdot, hbytes⟩ := name
  have hfind : (Text.utf8 text).find? (fun byte ↦ !StorePath.legal byte) = none := by
    simpa [List.find?_eq_none] using hbytes
  rw [Name.new, dif_neg hnil, dif_neg (Nat.not_lt.mpr hlength), dif_neg hdot]
  split
  · next byte hbad => exact absurd (hfind.symm.trans hbad) (by simp)
  · rfl

theorem Name.text_of_new {text : Text} {name : Name} (h : Name.new text = .ok name) :
    name.text = text := by
  rw [Name.new] at h
  split at h
  · exact absurd h (by simp)
  split at h
  · exact absurd h (by simp)
  split at h
  · exact absurd h (by simp)
  split at h
  · exact absurd h (by simp)
  · rw [← Except.ok.inj h]

def LegalChar (c : Char) : Prop := c.isAlphanum = true ∨ c ∈ "+-._?=".toList

instance (c : Char) : Decidable (LegalChar c) := inferInstanceAs (Decidable (_ ∨ _))

theorem LegalChar.toNat_lt {c : Char} (h : LegalChar c) : c.toNat < 128 := by
  obtain h | h := h
  · have hle : c.val ≤ 'z'.val := by
      obtain hletter | hdigit := (Bool.or_eq_true _ _).mp h
      · obtain hupper | hlower := (Bool.or_eq_true _ _).mp hletter
        · obtain ⟨-, hle⟩ := of_decide_eq_true hupper
          exact UInt32.le_trans hle (by decide)
        · exact of_decide_eq_true ((Bool.and_eq_true _ _).mp hlower).2
      · have hle := of_decide_eq_true ((Bool.and_eq_true _ _).mp hdigit).2
        exact UInt32.le_trans hle (by decide)
    exact Nat.lt_of_le_of_lt (UInt32.le_iff_toNat_le.mp hle) (by decide)
  · have hall : "+-._?=".toList.all (fun c ↦ decide (c.toNat < 128)) = true := by decide
    exact of_decide_eq_true (List.all_eq_true.mp hall c h)

theorem legalChar_iff {c : Char} :
    LegalChar c ↔ ∀ byte ∈ String.utf8EncodeChar c, legal byte = true := by
  have hascii : ∀ n < 128, legal (UInt8.ofNat n) = decide (LegalChar (Char.ofNat n)) := by
    decide +kernel
  have hlow : ∀ n < 256, legal (UInt8.ofNat n) = true → n < 128 := by decide +kernel
  by_cases hsize : c.utf8Size = 1
  · have hc := Text.toNat_lt_of_utf8Size hsize
    have hbyte : UInt8.ofNat c.toNat = c.val.toUInt8 := by
      rw [← UInt8.toNat_inj, UInt8.toNat_ofNat', UInt32.toNat_toUInt8]
      rfl
    have hlegal := hascii c.toNat hc
    rw [Char.ofNat_toNat, hbyte] at hlegal
    rw [String.utf8EncodeChar_eq_singleton hsize, List.forall_mem_singleton, hlegal,
      decide_eq_true_iff]
  · refine iff_of_false (fun h ↦ hsize ?_) fun h ↦ ?_
    · rw [Char.utf8Size_eq_one_iff, UInt32.le_iff_toNat_le]
      exact Nat.le_of_lt_succ h.toNat_lt
    · -- the first byte of a longer encoding is not an ASCII one
      obtain ⟨byte, hbyte⟩ : ∃ byte, byte ∈ String.utf8EncodeChar c := by
        refine List.exists_mem_of_length_pos ?_
        rw [String.length_utf8EncodeChar]
        exact c.utf8Size_pos
      have hlong := Text.le_of_mem_encode hsize hbyte
      have := hlow byte.toNat byte.toNat_lt (by rw [UInt8.ofNat_toNat]; exact h byte hbyte)
      omega

/-- A text that may be a name, character by character. -/
structure NameText (text : Text) : Prop where
  nonempty : 0 < text.length
  length : text.length ≤ 211
  start : text.head? ≠ some '.'
  chars : ∀ c ∈ text, LegalChar c

theorem nameText_iff {text : Text} : NameText text ↔ LegalName text := by
  have hchars : (∀ c ∈ text, LegalChar c) ↔ ∀ byte ∈ Text.utf8 text, legal byte = true := by
    simp only [legalChar_iff, Text.utf8, List.mem_flatMap]
    constructor
    · rintro h byte ⟨c, hc, hbyte⟩
      exact h c hc byte hbyte
    · exact fun h c hc byte hbyte ↦ h byte ⟨c, hc, hbyte⟩
  have hlength : (∀ c ∈ text, LegalChar c) → Text.byteLen text = text.length :=
    fun h ↦ Text.byteLen_of_ascii fun c hc ↦ (h c hc).toNat_lt
  constructor
  · intro h
    refine ⟨List.ne_nil_of_length_pos h.nonempty, ?_, h.start, hchars.mp h.chars⟩
    rw [hlength h.chars]
    exact h.length
  · intro h
    have hlegal := hchars.mpr h.bytes
    refine ⟨List.length_pos_of_ne_nil h.nonempty, ?_, h.start, hlegal⟩
    rw [← hlength hlegal]
    exact h.length

/-! ## Base names -/

/-- What a base name is written as. -/
structure Spelled (text hash name : Text) : Prop where
  text : text = hash ++ '-' :: name
  hash_length : hash.length = 32
  hash_chars : ∀ c ∈ hash, c ∈ Base32.alphabet
  name : NameText name

/-- Every 32 characters of the alphabet are the hash of some path. -/
theorem Hash.exists_render {text : Text} (hlength : text.length = 32)
    (h : ∀ c ∈ text, c ∈ Base32.alphabet) : ∃ hash : Hash, hash.render = text := by
  obtain ⟨bytes, hbytes⟩ := Base32.exists_encode (n := hashWidth) (by decide) (by decide) hlength h
  exact ⟨⟨bytes⟩, hbytes⟩

theorem spelled_iff {text : Text} :
    (∃ hash name, Spelled text hash name) ↔ ∃ path : StorePath, text = path.render := by
  constructor
  · rintro ⟨hash, name, rfl, hlength, hchars, hname⟩
    obtain ⟨hash, rfl⟩ := Hash.exists_render hlength hchars
    exact ⟨⟨hash, ⟨name, nameText_iff.mp hname⟩⟩, rfl⟩
  · rintro ⟨path, rfl⟩
    refine ⟨path.hash.render, path.name.text, rfl, path.hash.length_render, fun c hc ↦ ?_,
      nameText_iff.mpr path.name.legal⟩
    obtain ⟨d, hd, rfl⟩ := Base32.encode_mem hc
    rw [List.getD_eq_getElem _ _ hd]
    exact List.getElem_mem hd

theorem parse_append {hash name : Text} (hlen : Text.byteLen hash = hashTextLen) :
    parse (hash ++ '-' :: name) = (do
      let hash ← Hash.parse hash
      let name ← Name.new name
      pure ⟨hash, name⟩) := by
  have hbytes : (Text.utf8 hash).length = hashTextLen := hlen
  have hlong : hashTextLen < Text.byteLen (hash ++ '-' :: name) := by
    rw [Text.byteLen_append, Text.byteLen_cons, hlen]
    have : 0 < '-'.utf8Size := by decide
    omega
  have hdash : (Text.utf8 (hash ++ '-' :: name))[hashTextLen]? = some '-'.toUInt8 := by
    rw [Text.utf8_append, List.getElem?_append_right hbytes.le, hbytes, Nat.sub_self]
    rfl
  rw [parse, if_pos ⟨hlong, hdash⟩, splitAt_eq_some.mpr ⟨rfl, hlen⟩]

theorem parse_render (path : StorePath) : parse path.render = .ok path := by
  rw [render, parse_append path.hash.byteLen_render, Hash.parse_render, Name.new_text]
  rfl

theorem render_ne_nil (path : StorePath) : path.render ≠ [] := by simp [render]

theorem render_of_parse {text : Text} {path : StorePath} (h : parse text = .ok path) :
    path.render = text := by
  by_cases hdash : (Text.utf8 text)[hashTextLen]? = some '-'.toUInt8
  · obtain ⟨hash, name, rfl, hlen⟩ := Text.exists_cut (by decide) hdash
    rw [parse_append hlen] at h
    cases hhash : Hash.parse hash with
    | error error =>
      rw [hhash] at h
      exact absurd h (by simp [bind, Except.bind])
    | ok key =>
      rw [hhash] at h
      cases hname : Name.new name with
      | error error =>
        rw [hname] at h
        exact absurd h (by simp [bind, Except.bind])
      | ok name =>
        rw [hname] at h
        obtain rfl := Except.ok.inj h
        rw [render, Name.text_of_new hname, Hash.parse_eq_ok.mp hhash]
  · rw [parse, if_neg fun hboth ↦ hdash hboth.2] at h
    exact absurd h (by simp)

theorem parse_eq_ok {text : Text} {path : StorePath} :
    parse text = .ok path ↔ text = path.render := by
  constructor
  · exact fun h ↦ (render_of_parse h).symm
  · rintro rfl
    exact parse_render path

/-! ## Slices -/

/-- `parse` with the index and the slices of the source; `none` where one of them panics. -/
def parseSliced (text : Text) : Option (Except Error StorePath) :=
  if hashTextLen < Text.byteLen text then do
    let byte ← (Text.utf8 text)[hashTextLen]?
    if byte = '-'.toUInt8 then do
      let (hash, rest) ← splitAt hashTextLen text
      match Hash.parse hash with
      | .error error => some (.error error)
      | .ok hash => do
        let (_, name) ← splitAt 1 rest
        some ((Name.new name).map (StorePath.mk hash))
    else some (.error (.separator text))
  else some (.error (.separator text))

/-- There is no panic. -/
theorem parseSliced_eq (text : Text) : parseSliced text = some (parse text) := by
  by_cases hlong : hashTextLen < Text.byteLen text
  · obtain ⟨byte, hbyte⟩ : ∃ byte, (Text.utf8 text)[hashTextLen]? = some byte :=
      ⟨_, List.getElem?_eq_getElem hlong⟩
    rw [parseSliced, if_pos hlong, hbyte, Option.bind_eq_bind, Option.bind_some]
    by_cases hdash : byte = '-'.toUInt8
    · subst hdash
      obtain ⟨hash, name, rfl, hlen⟩ := Text.exists_cut (by decide) hbyte
      have hskip : splitAt 1 ('-' :: name) = some (['-'], name) :=
        splitAt_eq_some.mpr ⟨rfl, by decide⟩
      rw [if_pos rfl, splitAt_eq_some.mpr ⟨rfl, hlen⟩, parse_append hlen, Option.bind_eq_bind,
        Option.bind_some]
      dsimp only
      cases Hash.parse hash with
      | error error => rfl
      | ok hash =>
        dsimp only
        rw [hskip, Option.bind_some]
        dsimp only
        cases Name.new name with
        | error error => rfl
        | ok name => rfl
    · rw [if_neg hdash, parse, if_neg]
      rintro ⟨-, hdash'⟩
      exact hdash (Option.some.inj (hbyte.symm.trans hdash'))
  · rw [parseSliced, if_neg hlong, parse, if_neg fun hboth ↦ hlong hboth.1]

end StorePath

/-! ## Under a directory -/

namespace Dir

theorem parse_eq_ok {dir : Dir} {text : Text} {path : StorePath} :
    dir.parse text = .ok path ↔ text = dir.print path := by
  have hstrip : ∀ base, (Text.stripPrefix dir.text text).bind (Text.stripPrefix ['/']) = some base
      ↔ text = dir.text ++ '/' :: base := by
    intro base
    simp only [Option.bind_eq_some_iff, Text.stripPrefix_eq_some]
    constructor
    · rintro ⟨rest, rfl, rfl⟩
      rfl
    · exact fun h ↦ ⟨_, h, rfl⟩
  rw [parse]
  split
  · next base hbase =>
    obtain rfl := (hstrip base).mp hbase
    rw [StorePath.parse_eq_ok, print, List.append_cancel_left_eq, List.cons.injEq,
      and_iff_right rfl]
  · next hnone =>
    refine iff_of_false (by simp) fun h ↦ ?_
    exact absurd (hnone.symm.trans ((hstrip _).mpr h)) (by simp)

theorem parse_print (dir : Dir) (path : StorePath) : dir.parse (dir.print path) = .ok path :=
  parse_eq_ok.mpr rfl

/-- What is printed under one directory is printed under no other. -/
theorem print_inj {dir dir' : Dir} {path path' : StorePath}
    (h : dir.print path = dir'.print path') : dir = dir' ∧ path = path' := by
  have hslash : ∀ path : StorePath, '/' ∉ path.render.reverse := fun path hmem ↦
    StorePath.notMem_render (by decide) (by decide) (by decide) path (List.mem_reverse.mp hmem)
  have hreverse := congrArg List.reverse h
  simp only [print, List.reverse_append, List.reverse_cons, List.append_assoc,
    List.singleton_append] at hreverse
  obtain ⟨hpath, hdir⟩ := Text.append_cons_inj (hslash path) (hslash path') hreverse
  refine ⟨?_, StorePath.render_injective (List.reverse_injective hpath)⟩
  rcases dir with ⟨text, habsolute⟩
  rcases dir' with ⟨text', habsolute'⟩
  obtain rfl : text = text' := List.reverse_injective hdir
  rfl

end Dir

namespace StorePath

/-- A text is read as the store path it spells and as nothing else, with or without a directory. -/
structure ReadsExactly (text : Text) : Prop where
  total : (parseSliced text).isSome
  accepts : (∃ path, parseSliced text = some (.ok path)) ↔ ∃ hash name, Spelled text hash name
  prints : ∀ path, parseSliced text = some (.ok path) → path.render = text
  under : ∀ (dir : Dir) path, dir.parse text = .ok path ↔ text = dir.print path
  foreign : ∀ (dir dir' : Dir) path path', text = dir'.print path' → dir.parse text = .ok path →
    dir = dir' ∧ path = path'

theorem reads_exactly (text : Text) : ReadsExactly text := by
  have hsliced : ∀ path, parseSliced text = some (.ok path) ↔ text = path.render := by
    intro path
    rw [parseSliced_eq, Option.some.injEq]
    exact parse_eq_ok
  refine ⟨?_, ?_, fun path h ↦ ((hsliced path).mp h).symm, fun dir path ↦ Dir.parse_eq_ok,
    fun dir dir' path path' htext h ↦ ?_⟩
  · rw [parseSliced_eq]
    rfl
  · rw [spelled_iff]
    exact exists_congr hsliced
  · exact Dir.print_inj ((Dir.parse_eq_ok.mp h).symm.trans htext)

end StorePath

end Bincache
