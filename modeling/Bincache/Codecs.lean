import Bincache.Specimen

/-!
# The specimen with its codecs

The specimen has of base64 only what its own push needs, and no hex. Here both codecs are there in
full.
-/

namespace Bincache

namespace Codecs

scoped instance crates : Crates :=
  { Specimen.crates with
    hexDecode := Hex.decode
    base64Decode := Base64.decode
    base64Encode := Base64.encode }

theorem hexDecodes : Crates.HexDecodes := fun _ _ ↦ Hex.decode_of_spells

theorem base64Standard : Crates.Base64Standard where
  decode := Base64.decode_encode
  plain bytes c hc := by
    have hall : Text.Plain ('=' :: Base64.alphabet) := by decide
    exact hall c (Base64.mem_encode hc)
  alphabet _ _ := Base64.mem_encode
  length := Base64.length_encode

end Codecs

end Bincache
