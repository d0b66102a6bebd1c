import Bincache.Core.Crates

/-!
# SHA-256 digests

The only hash the protocol carries. `NarHash` is over the uncompressed bytes and `FileHash` over the
compressed artifact; both are this type, and which one a value is comes from the field that holds
it.
-/

namespace Bincache

structure Sha256 where
  bytes : Octets 32
deriving DecidableEq

namespace Sha256

def textLen : ℕ := Base32.textLen 32

def hexLen : ℕ := 64

def base64Len : ℕ := 44

inductive Error
  | base32 (source : Base32.Error)
  | hex
  | base64
  | width
  | encoding (found : ℕ)
deriving DecidableEq

/-- The bare nix-base32 body, which names a file and appears inside a URL. -/
def base32 (hash : Sha256) : Text := Base32.encode hash.bytes.1

/-- `sha256:<nix-base32>`, the wire rendering. -/
def render (hash : Sha256) : Text := "sha256:".toList ++ hash.base32

def fromSlice (bytes : Bytes) : Except Error Sha256 :=
  if h : bytes.length = 32 then .ok ⟨bytes, h⟩ else .error .width

variable [Crates]

def digest (bytes : Bytes) : Sha256 := ⟨Crates.sha256 bytes⟩

/-- Accepts an optional `sha256:` or `sha256-` prefix in front of nix-base32, hex, or padded
base64; the length tells them apart. -/
def parse (text : Text) : Except Error Sha256 :=
  let body := ((Text.stripPrefix "sha256:".toList text).or
    (Text.stripPrefix "sha256-".toList text)).getD text
  if Text.byteLen body = textLen then
    match Base32.decode 32 body with
    | .ok bytes => .ok ⟨bytes⟩
    | .error source => .error (.base32 source)
  else if Text.byteLen body = hexLen then
    match Crates.hexDecode (Text.utf8 body) with
    | some bytes => fromSlice bytes
    | none => .error .hex
  else if Text.byteLen body = base64Len then
    match Crates.base64Decode (Text.utf8 body) with
    | some bytes => fromSlice bytes
    | none => .error .base64
  else .error (.encoding (Text.byteLen body))

theorem digest_eq_iff {a b : Bytes} :
    digest a = digest b ↔ Crates.sha256 a = Crates.sha256 b := by
  simp [digest]

theorem eq_of_digest_eq {inputs : Set Bytes} (h : Crates.CollisionFree inputs) {a b : Bytes}
    (ha : a ∈ inputs) (hb : b ∈ inputs) (hab : digest a = digest b) : a = b :=
  h ha hb (digest_eq_iff.mp hab)

omit [Crates] in
theorem base32_injective : Function.Injective base32 := by
  rintro ⟨a⟩ ⟨b⟩ h
  exact congrArg mk (Base32.encode_injective (by decide) h)

omit [Crates] in
theorem byteLen_base32 (hash : Sha256) : Text.byteLen hash.base32 = textLen := by
  rw [base32, Base32.byteLen_encode, hash.bytes.2, textLen]

/-- The alphabet has neither `:` nor `-`, so no bare digest looks prefixed. -/
theorem parse_base32 (hash : Sha256) : parse hash.base32 = .ok hash := by
  have hbegins : ∀ c : Char, (∀ d < 32, c ≠ Base32.alphabet.getD d '0') → ∀ before : Text,
      Text.stripPrefix (before ++ [c]) hash.base32 = none := by
    intro c hc before
    rw [Option.eq_none_iff_forall_ne_some]
    intro rest hrest
    have hmem : c ∈ hash.base32 := by rw [Text.stripPrefix_eq_some.mp hrest]; simp
    obtain ⟨d, hd, rfl⟩ := Base32.encode_mem hmem
    exact hc d hd rfl
  have hcolon : Text.stripPrefix "sha256:".toList hash.base32 = none :=
    hbegins ':' (by decide) "sha256".toList
  have hdash : Text.stripPrefix "sha256-".toList hash.base32 = none :=
    hbegins '-' (by decide) "sha256".toList
  rw [parse, hcolon, hdash, Option.none_or, Option.getD_none, if_pos (byteLen_base32 hash), base32,
    Base32.decode_encode (by decide)]

end Sha256

/-! ## Incremental digests -/

/-- An incremental digest, as the bytes it has absorbed. -/
structure Hasher where
  absorbed : Bytes := []

namespace Hasher

variable [Crates]

def update (hasher : Hasher) (bytes : Bytes) : Hasher := ⟨hasher.absorbed ++ bytes⟩

def finish (hasher : Hasher) : Sha256 := Sha256.digest hasher.absorbed

end Hasher

end Bincache
