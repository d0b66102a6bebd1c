import Bincache.Core.Hash

/-!
# Push credentials

Tokens are kept and compared as digests. Both schemes a Nix client can produce are accepted: the
text of a `Bearer` header, or the password of a `Basic` one.
-/

namespace Bincache

/-- The answer to "may this request write?". -/
inductive Admission
  | admitted
  | denied
deriving DecidableEq

/-- The digests of the accepted credentials. -/
structure Tokens where
  digests : List Sha256

variable [Crates]

namespace Tokens

def new (tokens : List Text) : Tokens := ⟨tokens.map fun token ↦ .digest (Text.utf8 token)⟩

/-- Every configured token is compared. -/
def admits (tokens : Tokens) (presented : Text) : Admission :=
  let digest := Sha256.digest (Text.utf8 presented)
  if tokens.digests.foldl (fun matched known ↦ matched || decide (digest = known)) false then
    .admitted
  else .denied

theorem admits_eq_admitted {tokens : Tokens} {presented : Text} :
    tokens.admits presented = .admitted ↔ Sha256.digest (Text.utf8 presented) ∈ tokens.digests := by
  have hfold : ∀ (digests : List Sha256) (matched : Bool),
      digests.foldl
        (fun matched known ↦ matched || decide (Sha256.digest (Text.utf8 presented) = known))
        matched = (matched || digests.contains (Sha256.digest (Text.utf8 presented))) := by
    intro digests
    induction digests with
    | nil => simp
    | cons known digests ih => intro matched; simp [ih, Bool.or_assoc]
  rw [admits, hfold]
  simp

end Tokens

/-- Pulls the credential out of an `Authorization` value. For `Basic` the user name is ignored. -/
def credential (header : Text) : Option Text := do
  let (scheme, encoded) ← Text.splitOnce [' '] header
  let encoded := Text.trim encoded
  if Text.eqIgnoreAsciiCase scheme "Bearer".toList then some encoded
  else if Text.eqIgnoreAsciiCase scheme "Basic".toList then do
    let decoded ← Crates.base64Decode (Text.utf8 encoded)
    let pair ← Text.fromUtf8 decoded
    let (_user, password) ← Text.splitOnce [':'] pair
    some password
  else none

/-- A header value that hands over a text: after the scheme, or as the password. -/
def Carries (value text : Text) : Prop :=
  ∃ scheme rest, value = scheme ++ ' ' :: rest
    ∧ (Text.eqIgnoreAsciiCase scheme "Bearer".toList = true ∧ text = Text.trim rest
      ∨ Text.eqIgnoreAsciiCase scheme "Basic".toList = true ∧ ∃ user, ':' ∉ user
        ∧ Crates.base64Decode (Text.utf8 (Text.trim rest)) = some (Text.utf8 (user ++ ':' :: text)))

theorem credential_eq_some {value text : Text} :
    credential value = some text ↔ Carries value text := by
  rw [credential]
  constructor
  · intro h
    obtain ⟨⟨scheme, rest⟩, hsplit, h⟩ := Option.bind_eq_some_iff.mp h
    obtain ⟨hvalue, -⟩ := Text.splitOnce_eq_some.mp hsplit
    refine ⟨scheme, rest, hvalue, ?_⟩
    dsimp only at h
    split at h
    · next hbearer => exact .inl ⟨hbearer, (Option.some.inj h).symm⟩
    · split at h
      · next hbasic =>
        obtain ⟨decoded, hdecoded, h⟩ := Option.bind_eq_some_iff.mp h
        obtain ⟨pair, hpair, h⟩ := Option.bind_eq_some_iff.mp h
        obtain ⟨⟨user, password⟩, hcut, h⟩ := Option.bind_eq_some_iff.mp h
        obtain rfl : password = text := Option.some.inj h
        obtain ⟨rfl, huser⟩ := Text.splitOnce_eq_some.mp hcut
        rw [← Text.utf8_of_fromUtf8 hpair] at hdecoded
        exact .inr ⟨hbasic, user, huser, hdecoded⟩
      · exact absurd h (by simp)
  · rintro ⟨scheme, rest, rfl, hscheme⟩
    have hspace : ' ' ∉ scheme := by
      obtain ⟨h, -⟩ | ⟨h, -⟩ := hscheme
      · exact Text.notMem_of_eqIgnoreAsciiCase h (by decide)
      · exact Text.notMem_of_eqIgnoreAsciiCase h (by decide)
    rw [Text.splitOnce_eq_some.mpr ⟨rfl, hspace⟩]
    dsimp only [Option.bind_eq_bind, Option.bind_some]
    obtain ⟨hbearer, rfl⟩ | ⟨hbasic, user, huser, hdecoded⟩ := hscheme
    · rw [if_pos hbearer]
    · have hother : ¬Text.eqIgnoreAsciiCase scheme "Bearer".toList = true := fun hbearer ↦
        absurd ((beq_iff_eq.mp hbearer).symm.trans (beq_iff_eq.mp hbasic)) (by decide)
      rw [if_neg hother, if_pos hbasic, hdecoded, Option.bind_some, Text.fromUtf8_utf8,
        Option.bind_some, Text.splitOnce_eq_some.mpr ⟨rfl, huser⟩, Option.bind_some]

end Bincache
