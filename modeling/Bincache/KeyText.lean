import Bincache.Boot
import Bincache.Codecs
import Bincache.Core.NarInfoLines
import Bincache.Core.RoundTrip
import Bincache.Ingest.Push

/-!
# The name of a key

A key name is free text, and it is written in front of a colon: in the line that `keygen` prints for
the server, in the entry it prints for clients, and in the `Sig` line of every record that is
signed. `keygen` takes any name. One that is empty, holds a colon or starts with white space cannot
be read back from its line; one that holds a line feed can, and the server boots with it, but then
no record it signs can be read by a client.
-/

namespace Bincache

/-! ## Lines of key files -/

section

variable [Crates]

/-- A name that can be cut off in front of its colon. -/
structure Sign.Writable (name : Text) : Prop where
  nonempty : name ≠ []
  colon : ':' ∉ name
  blank : ∀ c, name.head? = some c → Text.isWhiteSpace c = false

theorem Sign.split_eq_ok {text name : Text} {bytes : Bytes} (h : split text = .ok (name, bytes)) :
    ∃ encoded, text = name ++ ':' :: encoded ∧ ':' ∉ name ∧ name ≠ [] := by
  rw [split] at h
  cases hsplit : Text.splitOnce [':'] text with
  | none =>
    rw [hsplit] at h
    cases h
  | some halves =>
    obtain ⟨name', encoded⟩ := halves
    rw [hsplit] at h
    dsimp only at h
    obtain ⟨rfl, hcolon⟩ := Text.splitOnce_eq_some.mp hsplit
    split at h
    · cases h
    · next hne =>
      split at h
      · obtain ⟨rfl, -⟩ := Prod.mk.inj (Except.ok.inj h)
        exact ⟨encoded, rfl, hcolon, hne⟩
      · cases h

/-- Trimming takes white space from the front of the name only. -/
theorem Sign.writable_of_split {text name : Text} {bytes : Bytes}
    (h : split (Text.trim text) = .ok (name, bytes)) : Writable name := by
  obtain ⟨encoded, htext, hcolon, hne⟩ := split_eq_ok h
  refine ⟨hne, hcolon, fun c hc ↦ (Text.trimmed_trim text).head c ?_⟩
  rw [htext, List.head?_append_of_ne_nil _ hne]
  exact hc

theorem Sign.split_render (hbase64 : Crates.Base64Standard) {name : Text} {bytes : Bytes}
    (hname : Writable name) (hbytes : bytes ≠ []) :
    split (Text.trim (render name bytes ++ ['\n'])) = .ok (name, bytes) := by
  have hencoded : Crates.base64Encode bytes ≠ [] := by
    have hpos := List.length_pos_iff.mpr hbytes
    rw [← List.length_pos_iff, hbase64.length]
    omega
  have htrim : Text.trim (render name bytes ++ ['\n']) = render name bytes := by
    have hpad := @Text.trim_pad [] (render name bytes) ['\n']
      (fun _ h ↦ absurd h List.not_mem_nil) (List.forall_mem_singleton.mpr rfl)
    rw [List.nil_append] at hpad
    rw [hpad]
    refine Text.trim_eq_self ⟨fun c hc ↦ hname.blank c ?_, fun c hc ↦ ?_⟩
    · rwa [render, List.head?_append_of_ne_nil _ hname.nonempty] at hc
    · rw [render, List.getLast?_append_of_ne_nil _ (List.cons_ne_nil _ _),
        ← List.singleton_append, List.getLast?_append_of_ne_nil _ hencoded] at hc
      exact hbase64.unspaced bytes c (List.mem_of_mem_getLast? hc)
  rw [htrim, split, render, Text.splitOnce_eq_some.mpr ⟨rfl, hname.colon⟩]
  dsimp only
  rw [if_neg hname.nonempty, hbase64.decode]

theorem SecretKey.writable_of_parse {text : Text} {key : SecretKey} (h : parse text = .ok key) :
    Sign.Writable key.name := by
  obtain ⟨⟨name, bytes⟩, hsplit, h⟩ := NarInfo.of_bind_eq_ok h
  obtain ⟨pair, -, h⟩ := NarInfo.of_bind_eq_ok h
  obtain ⟨seed, -, h⟩ := NarInfo.of_bind_eq_ok h
  obtain rfl := Except.ok.inj h
  exact Sign.writable_of_split hsplit

theorem SecretKey.parse_render (hbase64 : Crates.Base64Standard) {key : SecretKey}
    (h : Sign.Writable key.name) : parse (key.render ++ ['\n']) = .ok key := by
  have hlength : (key.seed.1 ++ (Crates.verifyingKey key.seed).1).length = keyWidth * 2 := by
    rw [List.length_append, key.seed.2, (Crates.verifyingKey key.seed).2]
    rfl
  have hne : key.seed.1 ++ (Crates.verifyingKey key.seed).1 ≠ [] := by
    rw [← List.length_pos_iff, hlength]
    decide
  have hseed : (key.seed.1 ++ (Crates.verifyingKey key.seed).1).take keyWidth = key.seed.1 :=
    List.take_left' key.seed.2
  rw [parse, render, Sign.split_render hbase64 h hne]
  change (Sign.sized (keyWidth * 2) _ >>= fun pair ↦ Sign.sized keyWidth (pair.1.take keyWidth)
    >>= fun seed ↦ pure ⟨key.name, seed⟩ : Except Sign.Error SecretKey) = _
  rw [Sign.sized, dif_pos hlength]
  change (Sign.sized keyWidth (List.take keyWidth _) >>= fun seed ↦ pure ⟨key.name, seed⟩
    : Except Sign.Error SecretKey) = _
  rw [hseed, Sign.sized, dif_pos key.seed.2]
  rfl

theorem PublicKey.parse_render (hbase64 : Crates.Base64Standard) {key : PublicKey}
    (h : Sign.Writable key.name) (hpoint : Crates.isPoint key.key = true) :
    parse (key.render ++ ['\n']) = .ok key := by
  have hne : key.key.1 ≠ [] := by
    rw [← List.length_pos_iff, key.key.2]
    decide
  rw [parse, render, Sign.split_render hbase64 h hne]
  change (Sign.sized keyWidth key.key.1 >>= fun sized ↦ if Crates.isPoint sized = true
    then pure ⟨key.name, sized⟩ else throw .point : Except Sign.Error PublicKey) = _
  rw [Sign.sized, dif_pos key.key.2]
  change (if Crates.isPoint key.key = true then _ else _ : Except Sign.Error PublicKey) = _
  rw [if_pos hpoint]
  rfl

/-! ## Signed records -/

/-- What `keygen` prints for a name and a seed is read back as that key and its public half. -/
structure Boot.Printed (name : Text) (seed : Octets keyWidth) : Prop where
  secret : SecretKey.parse (keygen name seed).1 = .ok ⟨name, seed⟩
  entry : ∃ entry, (keygen name seed).2 = entryLabel ++ entry
    ∧ PublicKey.parse entry = .ok ⟨name, Crates.verifyingKey seed⟩

/-- A key's signature is one line of the body of a record, and a client reads the record and that
signature off it. -/
structure NarInfo.Reads (record : NarInfo) (dir : Dir) (key : SecretKey) : Prop where
  sigs : record.sigs = [key.sign (record.fingerprint dir)]
  line : (Text.lines (record.render dir)).filter (Field.Line .sig ·)
    = ["Sig: ".toList ++ (key.sign (record.fingerprint dir)).render]
  parsed : NarInfo.parse (record.render dir) dir = .ok record

theorem Boot.printed_iff (hbase64 : Crates.Base64Standard) (hpoints : Crates.SeedsHavePoints)
    {name : Text} {seed : Octets keyWidth} : Printed name seed ↔ Sign.Writable name := by
  refine ⟨fun h ↦ SecretKey.writable_of_parse h.secret, fun h ↦ ?_⟩
  let key : SecretKey := ⟨name, seed⟩
  refine ⟨@SecretKey.parse_render _ hbase64 key h, key.publicHalf.render ++ ['\n'],
    List.append_assoc _ _ _, ?_⟩
  exact @PublicKey.parse_render _ hbase64 key.publicHalf h (hpoints seed)

theorem NarInfo.sig_lines {record : NarInfo} {dir : Dir} (hbase64 : Crates.Base64Standard)
    (h : record.Sayable dir) : (Text.lines (record.render dir)).filter (Field.Line .sig ·)
      = record.sigs.map fun signature ↦ "Sig: ".toList ++ Text.chomp signature.render := by
  have hline : ∀ field : Field × Text,
      decide (Field.Line .sig (field.1.render ++ ": ".toList ++ Text.chomp field.2))
        = decide (field.1 = .sig) := by
    intro field
    have hfield : fieldOf (field.1.render ++ ": ".toList ++ Text.chomp field.2) = some field.1 :=
      fieldOf_eq_some.mpr (.inl ⟨_, rfl⟩)
    rw [decide_eq_decide, ← fieldOf_eq_some, hfield, Option.some.injEq]
  rw [lines_render hbase64.toBase64RoundTrips h, List.filter_map]
  have hfilter : (record.fields dir).filter (fun field ↦ decide (field.1 = Field.sig))
      = record.sigs.map fun signature ↦ (Field.sig, signature.render) := by
    rw [fields]
    cases record.deriver <;> cases record.ca <;> simp [List.filter_append]
  change ((record.fields dir).filter fun field ↦ decide (Field.Line .sig _)).map _ = _
  simp only [hline]
  rw [hfilter, List.map_map]
  rfl

/-- A record that a key signs is read off its body exactly if the name of the key is in one line and
the content address of the record does not end in a carriage return. -/
theorem NarInfo.reads_iff {key : SecretKey} {ingest : Ingest} {body : Text} {declared : NarInfo}
    {entry : Entry} (hbase64 : Crates.Base64Standard) (hname : Sign.Writable key.name)
    (hkey : ingest.key = key) (hparse : NarInfo.parse body ingest.dir = .ok declared)
    (hsize : entry.fileSize < 2 ^ 64) :
    (ingest.record declared entry).Reads ingest.dir key
      ↔ '\n' ∉ key.name ∧ ∀ ca, declared.ca = some ca → ca.getLast? ≠ some '\r' := by
  subst hkey
  have hround := hbase64.toBase64RoundTrips
  have hdeclared := (sayable_of_parse hparse).1
  let signature := ingest.key.sign ((ingest.record declared entry).fingerprint ingest.dir)
  have hsigs : (ingest.record declared entry).sigs = [signature] := rfl
  constructor
  · intro h
    have hsayable := (sayable_of_parse h.parsed).1
    refine ⟨(hsayable.sigs signature (by rw [hsigs]; exact List.mem_singleton_self _)).line,
      fun ca hca ↦ ?_⟩
    have hback := (parse_render hround hsayable).symm.trans h.parsed
    have hchomp : declared.ca.map Text.chomp = declared.ca :=
      congrArg NarInfo.ca (Except.ok.inj hback)
    rw [hca] at hchomp
    exact Text.chomp_eq_self_iff.mp (Option.some.inj hchomp)
  · rintro ⟨hline, hca⟩
    have hnamed : signature.Named := ⟨hname.nonempty, hname.colon, hline⟩
    have hsayable : (ingest.record declared entry).Sayable ingest.dir := by
      refine ⟨hdeclared.dir, hsize, hdeclared.narSize, ?_, hdeclared.ca⟩
      rw [hsigs]
      exact List.forall_mem_singleton.mpr hnamed
    have hchomp : declared.ca.map Text.chomp = declared.ca := by
      cases hdeclaredCa : declared.ca with
      | none => rfl
      | some ca => exact congrArg some (Text.chomp_eq_self_iff.mpr (hca ca hdeclaredCa))
    refine ⟨hsigs, ?_, ?_⟩
    · -- the end of the line is base64, so no carriage return is lost from it
      have hrender : Text.chomp signature.render = signature.render := by
        refine Text.chomp_eq_self_iff.mpr fun hlast ↦ ?_
        rw [Signature.render, Sign.render,
          List.getLast?_append_of_ne_nil _ (List.cons_ne_nil _ _)] at hlast
        obtain heq | hmem := List.mem_cons.mp (List.mem_of_mem_getLast? hlast)
        · exact absurd heq (by decide)
        · exact (hround.plain _ _ hmem).2.1 rfl
      rw [sig_lines hbase64 hsayable, hsigs, List.map_singleton, hrender]
    · have hback := parse_render hround hsayable
      have hsame : (ingest.record declared entry).ca.map Text.chomp
          = (ingest.record declared entry).ca := hchomp
      rw [hsame] at hback
      exact hback

/-- Key text survives where it is written exactly if: what `keygen` prints has a name that is not
empty, holds no colon and does not start with white space; and a record is signed under a name
without a line feed and has no content address that ends in a carriage return. -/
theorem survives_iff (hbase64 : Crates.Base64Standard) (hpoints : Crates.SeedsHavePoints) :
    (∀ name seed, Boot.Printed name seed ↔ Sign.Writable name)
      ∧ ∀ text key, SecretKey.parse text = .ok key →
        ∀ (ingest : Ingest) (body : Text) (declared : NarInfo) (entry : Entry), ingest.key = key →
          NarInfo.parse body ingest.dir = .ok declared → entry.fileSize < 2 ^ 64 →
            ((ingest.record declared entry).Reads ingest.dir key
              ↔ '\n' ∉ key.name ∧ ∀ ca, declared.ca = some ca → ca.getLast? ≠ some '\r') :=
  ⟨fun _ _ ↦ Boot.printed_iff hbase64 hpoints,
    fun _ _ htext _ _ _ _ hkey hparse hsize ↦
      NarInfo.reads_iff hbase64 (SecretKey.writable_of_parse htext) hkey hparse hsize⟩

end

section Examples

open Codecs
open Specimen (body declared dir entry ingest key zeros)

theorem Codecs.seedsHavePoints : Crates.SeedsHavePoints := fun _ ↦ decide_eq_true rfl

private theorem codecs_parse_body : NarInfo.parse body dir = .ok declared := by decide +kernel

/-- The key of the specimen and the record it signs. -/
theorem survives_specimen : Boot.Printed key.name key.seed
    ∧ (ingest.record declared entry).Reads dir key := by
  have hname : Sign.Writable key.name :=
    ⟨by decide, by decide, fun c hc ↦ Option.some.inj hc ▸ rfl⟩
  obtain ⟨hprinted, hreads⟩ := survives_iff Codecs.base64Standard Codecs.seedsHavePoints
  have hkey := (hprinted key.name key.seed).mpr hname
  refine ⟨hkey, (hreads _ key hkey.secret ingest body declared entry rfl codecs_parse_body
    (by decide)).mpr ⟨by decide, ?_⟩⟩
  intro ca hca
  cases hca

/-- A name with a colon is cut there, and a key file can hold a name with a line feed, under which
no record is read back. -/
theorem not_survives : ¬Boot.Printed "a:b".toList (zeros 32)
    ∧ ∃ text key, SecretKey.parse text = .ok key
      ∧ ¬NarInfo.Reads ({ ingest with key }.record declared entry) dir key := by
  refine ⟨fun h ↦ ?_, ?_⟩
  · exact absurd (SecretKey.writable_of_parse h.secret).colon (by decide)
  · let broken : SecretKey := ⟨"a\nb".toList, zeros 32⟩
    have hname : Sign.Writable broken.name :=
      ⟨by decide, by decide, fun c hc ↦ Option.some.inj hc ▸ rfl⟩
    refine ⟨_, broken, SecretKey.parse_render Codecs.base64Standard hname, fun h ↦ ?_⟩
    have hone := ((@NarInfo.reads_iff _ broken { ingest with key := broken } body declared entry
      Codecs.base64Standard hname rfl codecs_parse_body (by decide)).mp h).1
    exact absurd hone (by decide)

end Examples

end Bincache
