import Bincache.Core.Crates

/-!
# Keys and signatures

ed25519 in the `<name>:<base64>` spelling that key files and `Sig:` lines share. A secret key is its
seed; its public half is derived.
-/

namespace Bincache

def signatureWidth : ℕ := 64

/-- Bytes in a public key, and in the seed half of a secret key file. -/
def keyWidth : ℕ := 32

namespace Sign

inductive Error
  | separator (text : Text)
  | nameEmpty
  | base64
  | width
  | point
  | keyMismatch (name : Text)
  | invalid (name : Text)
deriving DecidableEq

/-- A byte string of exactly `n` bytes. -/
def sized (n : ℕ) (bytes : Bytes) : Except Error (Octets n) :=
  if h : bytes.length = n then .ok ⟨bytes, h⟩ else .error .width

variable [Crates]

/-- Splits the `<name>:<base64>` shape both key files and `Sig` lines use. -/
def split (text : Text) : Except Error (Text × Bytes) :=
  match Text.splitOnce [':'] text with
  | none => .error (.separator text)
  | some (name, encoded) =>
    if name = [] then .error .nameEmpty
    else
      match Crates.base64Decode (Text.utf8 encoded) with
      | some bytes => .ok (name, bytes)
      | none => .error .base64

def render (name : Text) (bytes : Bytes) : Text := name ++ ':' :: Crates.base64Encode bytes

end Sign

/-- One `Sig:` line. -/
structure Signature where
  name : Text
  bytes : Octets signatureWidth
deriving DecidableEq

structure SecretKey where
  name : Text
  seed : Octets keyWidth
deriving DecidableEq

structure PublicKey where
  name : Text
  key : Octets keyWidth
deriving DecidableEq

variable [Crates]

namespace Signature

def parse (text : Text) : Except Sign.Error Signature := do
  let (name, bytes) ← Sign.split text
  let sized ← Sign.sized signatureWidth bytes
  pure ⟨name, sized⟩

def render (signature : Signature) : Text := Sign.render signature.name signature.bytes.1

end Signature

namespace SecretKey

/-- Reads a secret key file: the name, then base64 of the seed followed by the public key. -/
def parse (text : Text) : Except Sign.Error SecretKey := do
  let (name, bytes) ← Sign.split (Text.trim text)
  let pair ← Sign.sized (keyWidth * 2) bytes
  let seed ← Sign.sized keyWidth (pair.1.take keyWidth)
  pure ⟨name, seed⟩

/-- The key of a seed that was drawn. -/
def generate (name : Text) (seed : Octets keyWidth) : SecretKey := ⟨name, seed⟩

def publicHalf (key : SecretKey) : PublicKey := ⟨key.name, Crates.verifyingKey key.seed⟩

def render (key : SecretKey) : Text :=
  Sign.render key.name (key.seed.1 ++ (Crates.verifyingKey key.seed).1)

def sign (key : SecretKey) (fingerprint : Text) : Signature :=
  ⟨key.name, Crates.ed25519Sign key.seed (Text.utf8 fingerprint)⟩

end SecretKey

namespace PublicKey

def parse (text : Text) : Except Sign.Error PublicKey := do
  let (name, bytes) ← Sign.split (Text.trim text)
  let sized ← Sign.sized keyWidth bytes
  if Crates.isPoint sized then pure ⟨name, sized⟩ else throw .point

def render (key : PublicKey) : Text := Sign.render key.name key.key.1

def verify (key : PublicKey) (fingerprint : Text) (signature : Signature) :
    Except Sign.Error Unit :=
  if signature.name = key.name then
    if Crates.ed25519Verify key.key (Text.utf8 fingerprint) signature.bytes then pure ()
    else throw (.invalid key.name)
  else throw (.keyMismatch key.name)

theorem verify_sign (h : Crates.SignaturesVerify) (key : SecretKey) (fingerprint : Text) :
    key.publicHalf.verify fingerprint (key.sign fingerprint) = .ok () := by
  rw [verify, if_pos (by rfl), if_pos (by exact h key.seed _)]
  rfl

end PublicKey

end Bincache
