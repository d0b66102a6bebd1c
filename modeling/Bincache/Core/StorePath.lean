import Bincache.Core.Base32

/-!
# Store paths

The 20-byte primary key of the protocol, the base name it starts, and the store directory base names
hang under. `Name` and `Dir` carry what their constructors check, so an illegal name or a relative
directory cannot be built.
-/

namespace Bincache

namespace StorePath

def hashWidth : ℕ := 20

def hashTextLen : ℕ := Base32.textLen hashWidth

def nameLenMax : ℕ := 211

inductive Error
  | hashText (source : Base32.Error)
  | separator (name : Text)
  | nameEmpty
  | nameLength (found : ℕ)
  | nameLeadingDot
  | nameCharacter (byte : UInt8)
  | dirRelative (text : Text)
  | dirTrailingSlash (text : Text)
  | dirPrefix (text dir : Text)
deriving DecidableEq

structure Hash where
  bytes : Octets hashWidth
deriving DecidableEq

namespace Hash

/-- Decodes the fixed-width request key. -/
def parse (text : Text) : Except Error Hash :=
  match Base32.decode hashWidth text with
  | .ok bytes => .ok ⟨bytes⟩
  | .error source => .error (.hashText source)

def render (hash : Hash) : Text := Base32.encode hash.bytes.1

theorem parse_render (hash : Hash) : parse hash.render = .ok hash := by
  rw [parse, render, Base32.decode_encode (by decide)]

theorem render_injective : Function.Injective render := by
  rintro ⟨a⟩ ⟨b⟩ h
  exact congrArg mk (Base32.encode_injective (by decide) h)

theorem length_render (hash : Hash) : hash.render.length = hashTextLen := by
  rw [render, Base32.length_encode, hash.bytes.2, hashTextLen]

theorem render_ascii {hash : Hash} : ∀ c ∈ hash.render, c.toNat < 128 := Base32.encode_ascii

theorem byteLen_render (hash : Hash) : Text.byteLen hash.render = hashTextLen := by
  rw [Text.byteLen_of_ascii render_ascii, length_render]

theorem parse_eq_ok {text : Text} {hash : Hash} : parse text = .ok hash ↔ text = hash.render := by
  constructor
  · intro h
    rw [parse] at h
    split at h
    · next bytes hdecode =>
      obtain rfl := Except.ok.inj h
      exact (Base32.encode_of_decode (by decide) hdecode).symm
    · exact absurd h (by simp)
  · rintro rfl
    exact parse_render hash

end Hash

/-- The bytes legal in a name. -/
def legal (byte : UInt8) : Bool :=
  (48 ≤ byte && byte ≤ 57) || (65 ≤ byte && byte ≤ 90) || (97 ≤ byte && byte ≤ 122)
    || byte == '+'.toUInt8 || byte == '-'.toUInt8 || byte == '.'.toUInt8 || byte == '_'.toUInt8
    || byte == '?'.toUInt8 || byte == '='.toUInt8

/-- What `Name.new` checks. -/
structure LegalName (text : Text) : Prop where
  nonempty : text ≠ []
  length : Text.byteLen text ≤ nameLenMax
  start : text.head? ≠ some '.'
  bytes : ∀ byte ∈ Text.utf8 text, legal byte = true

/-- The part of a base name after the hash and its `-`. -/
structure Name where
  text : Text
  legal : LegalName text
deriving DecidableEq

/-- Builds a name, or says what is wrong with the text. -/
def Name.new (text : Text) : Except Error Name :=
  if hempty : text = [] then .error .nameEmpty
  else if hlen : nameLenMax < Text.byteLen text then .error (.nameLength (Text.byteLen text))
  else if hdot : text.head? = some '.' then .error .nameLeadingDot
  else
    match hbad : (Text.utf8 text).find? fun byte ↦ !StorePath.legal byte with
    | some byte => .error (.nameCharacter byte)
    | none => .ok ⟨text, hempty, Nat.le_of_not_lt hlen, hdot, by
        simpa [List.find?_eq_none] using hbad⟩

end StorePath

/-- A base name, `<hash>-<name>`. -/
structure StorePath where
  hash : StorePath.Hash
  name : StorePath.Name
deriving DecidableEq

namespace StorePath

/-- The first characters of a text that take up `len` bytes, and the rest; `none` when that is not
a character boundary. -/
def splitAt : ℕ → Text → Option (Text × Text)
  | 0, text => some ([], text)
  | _ + 1, [] => none
  | len + 1, c :: text =>
    if c.utf8Size ≤ len + 1 then
      (splitAt (len + 1 - c.utf8Size) text).map fun halves ↦ (c :: halves.1, halves.2)
    else none
termination_by structural _ text => text

theorem splitAt_eq_some {len : ℕ} {text before after : Text} :
    splitAt len text = some (before, after)
      ↔ text = before ++ after ∧ Text.byteLen before = len := by
  induction text generalizing len before after with
  | nil =>
    rw [eq_comm (a := []), List.append_eq_nil_iff]
    rcases len with _ | len
    · rw [splitAt, Option.some.injEq, Prod.mk.injEq, Text.byteLen_eq_zero]
      constructor
      · rintro ⟨rfl, rfl⟩
        exact ⟨⟨rfl, rfl⟩, rfl⟩
      · rintro ⟨⟨rfl, rfl⟩, -⟩
        exact ⟨rfl, rfl⟩
    · rw [splitAt]
      refine iff_of_false (by simp) ?_
      rintro ⟨⟨rfl, -⟩, hlen⟩
      exact absurd hlen (by simp [Text.byteLen])
  | cons c text ih =>
    rcases len with _ | len
    · rw [splitAt, Option.some.injEq, Prod.mk.injEq, Text.byteLen_eq_zero]
      constructor
      · rintro ⟨rfl, rfl⟩
        exact ⟨rfl, rfl⟩
      · rintro ⟨htext, rfl⟩
        exact ⟨rfl, htext⟩
    · rw [splitAt]
      by_cases hsize : c.utf8Size ≤ len + 1
      · rw [if_pos hsize, Option.map_eq_some_iff]
        constructor
        · rintro ⟨⟨first, rest⟩, hsplit, heq⟩
          obtain ⟨rfl, rfl⟩ := Prod.mk.inj heq
          obtain ⟨rfl, hlen⟩ := ih.mp hsplit
          refine ⟨rfl, ?_⟩
          rw [Text.byteLen_cons, hlen]
          omega
        · rintro ⟨htext, hlen⟩
          obtain ⟨d, first, rfl⟩ : ∃ d first, before = d :: first := by
            refine List.exists_cons_of_ne_nil ?_
            rintro rfl
            exact absurd hlen (by simp [Text.byteLen])
          rw [List.cons_append, List.cons.injEq] at htext
          obtain ⟨rfl, rfl⟩ := htext
          rw [Text.byteLen_cons] at hlen
          exact ⟨(first, after), ih.mpr ⟨rfl, by omega⟩, rfl⟩
      · -- the cut falls inside this character
        rw [if_neg hsize]
        refine iff_of_false (by simp) ?_
        rintro ⟨htext, hlen⟩
        rcases before with _ | ⟨d, first⟩
        · exact absurd hlen (by simp [Text.byteLen])
        · rw [List.cons_append, List.cons.injEq] at htext
          rw [Text.byteLen_cons, ← htext.1] at hlen
          omega

/-- Parses a base name with no directory. The byte after the hash is an ASCII `-`, so the text can
be cut on both sides of it. -/
def parse (text : Text) : Except Error StorePath :=
  if hashTextLen < Text.byteLen text ∧ (Text.utf8 text)[hashTextLen]? = some '-'.toUInt8 then
    match splitAt hashTextLen text with
    | some (hash, _ :: rest) => do
      let hash ← Hash.parse hash
      let name ← Name.new rest
      pure ⟨hash, name⟩
    | _ => .error (.separator text)
  else .error (.separator text)

def render (path : StorePath) : Text := path.hash.render ++ '-' :: path.name.text

end StorePath

/-- What `Dir.new` checks: an absolute path with no trailing slash. -/
structure AbsoluteDir (text : Text) : Prop where
  absolute : text.head? = some '/'
  noTrailingSlash : text.getLast? ≠ some '/'

structure Dir where
  text : Text
  absolute : AbsoluteDir text
deriving DecidableEq

namespace Dir

open StorePath (Error)

def new (text : Text) : Except Error Dir :=
  if habs : text.head? = some '/' then
    if hslash : text.getLast? = some '/' then .error (.dirTrailingSlash text)
    else .ok ⟨text, habs, hslash⟩
  else .error (.dirRelative text)

/-- `<dir>/<hash>-<name>`. -/
def print (dir : Dir) (path : StorePath) : Text := dir.text ++ '/' :: path.render

def parse (dir : Dir) (text : Text) : Except Error StorePath :=
  match (Text.stripPrefix dir.text text).bind (Text.stripPrefix ['/']) with
  | some base => StorePath.parse base
  | none => .error (.dirPrefix text dir.text)

end Dir

end Bincache
