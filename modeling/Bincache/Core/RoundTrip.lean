import Bincache.Core.NarInfoParse
import Bincache.Core.PathText
import Bincache.Specimen

/-!
# Reading back what was rendered

A record read from a body is rendered again and read back. Every field comes back as it was, through
its own codec, except that the renderer ends each line with a bare line feed and the reader takes a
carriage return in front of one for a part of the line ending: free text that ends in a carriage
return loses it. Of the fields only `CA` is free text at the end of its line.
-/

namespace Bincache

/-! ## Digests -/

theorem Sha256.parse_render [Crates] (hash : Sha256) : parse hash.render = .ok hash := by
  have hstrip : Text.stripPrefix "sha256:".toList hash.render = some hash.base32 :=
    Text.stripPrefix_eq_some.mpr rfl
  rw [parse, hstrip, Option.some_or, Option.getD_some, if_pos (byteLen_base32 hash), base32,
    Base32.decode_encode (by decide)]

/-! ## Signatures -/

/-- A name that can stand in front of a signature. -/
structure Signature.Named (signature : Signature) : Prop where
  nonempty : signature.name ≠ []
  colon : ':' ∉ signature.name
  line : '\n' ∉ signature.name

theorem Signature.parse_render [Crates] (hbase64 : Crates.Base64RoundTrips) {signature : Signature}
    (h : signature.Named) : parse signature.render = .ok signature := by
  have hsplit : Text.splitOnce [':'] signature.render
      = some (signature.name, Crates.base64Encode signature.bytes.1) :=
    Text.splitOnce_eq_some.mpr ⟨rfl, h.colon⟩
  rw [parse, Sign.split, hsplit]
  dsimp only
  rw [if_neg h.nonempty, hbase64.decode]
  change (do let sized ← Sign.sized signatureWidth signature.bytes.1
             pure ⟨signature.name, sized⟩ : Except Sign.Error Signature) = _
  rw [Sign.sized, dif_pos signature.bytes.2]
  rfl

namespace NarInfo

/-! ## Fields -/

variable [Crates] (record : NarInfo) (dir : Dir)

/-- The fields of a body, in the order they are rendered. -/
def fields : List (Field × Text) :=
  [(.storePath, dir.print record.storePath), (.url, record.nar.url),
    (.compression, record.compression.render), (.fileHash, record.fileHash.render),
    (.fileSize, Text.decimal record.fileSize), (.narHash, record.narHash.render),
    (.narSize, Text.decimal record.narSize),
    (.references, [' '].intercalate (record.references.map StorePath.render))]
    ++ record.deriver.toList.map (fun deriver ↦ (.deriver, deriver.render))
    ++ record.sigs.map (fun signature ↦ (.sig, signature.render))
    ++ record.ca.toList.map fun ca ↦ (.ca, ca)

theorem render_eq_fields :
    record.render dir = (record.fields dir).flatMap fun field ↦ line field.1.render field.2 := by
  simp only [render, fields, List.flatMap_append, List.flatMap_cons, List.flatMap_nil,
    List.flatMap_map, List.append_nil, List.append_assoc]
  rfl

variable {record dir}

omit [Crates] in
private theorem splitLine_field (field : Field) (value : Text) :
    splitLine (field.render ++ ": ".toList ++ value) = .ok (field.render, value) := by
  have hcolon : ':' ∉ field.render := by cases field <;> decide
  have hsplit : Text.splitOnce ": ".toList (field.render ++ ": ".toList ++ value)
      = some (field.render, value) := Text.splitOnce_append hcolon
  rw [splitLine, hsplit]

private theorem absorbLine_field (draft : Draft) (field : Field) (value : Text) :
    absorbLine dir draft (field.render ++ ": ".toList ++ value) = absorb draft field value dir := by
  rw [absorbLine, splitLine_field]
  dsimp only [bind, Except.bind]
  rw [Field.parse_render]

omit [Crates] in
theorem lines_fields {fields : List (Field × Text)} (h : ∀ field ∈ fields, '\n' ∉ field.2) :
    Text.lines (fields.flatMap fun field ↦ line field.1.render field.2)
      = fields.map fun field ↦ field.1.render ++ ": ".toList ++ Text.chomp field.2 := by
  let text : Field × Text → Text := fun field ↦ field.1.render ++ ": ".toList ++ field.2
  have hbody : (fields.flatMap fun field ↦ line field.1.render field.2)
      = (fields.map text).flatMap (· ++ ['\n']) := by
    rw [List.flatMap_map]
    rfl
  have hlines : ∀ line ∈ fields.map text, '\n' ∉ line := by
    intro line hline
    obtain ⟨field, hfield, rfl⟩ := List.mem_map.mp hline
    have hkey : '\n' ∉ field.1.render ++ ": ".toList := by cases field.1 <;> decide
    rw [List.mem_append, not_or]
    exact ⟨hkey, h field hfield⟩
  have hchomp : ∀ field : Field × Text,
      Text.chomp (text field) = field.1.render ++ ": ".toList ++ Text.chomp field.2 := by
    intro field
    by_cases hnil : field.2 = []
    · have hlast : (field.1.render ++ ": ".toList).getLast? ≠ some '\r' := by
        cases field.1 <;> decide
      change Text.chomp (field.1.render ++ ": ".toList ++ field.2) = _
      rw [hnil, List.append_nil, Text.chomp_eq_self_iff.mpr hlast]
      exact (List.append_nil _).symm
    · exact Text.chomp_append hnil
  rw [hbody, Text.lines_flatMap hlines, List.map_map]
  exact List.map_congr_left fun field _ ↦ hchomp field

theorem parse_fields {fields : List (Field × Text)} (h : ∀ field ∈ fields, '\n' ∉ field.2) :
    parse (fields.flatMap fun field ↦ line field.1.render field.2) dir
      = fields.foldlM (fun draft field ↦ absorb draft field.1 (Text.chomp field.2) dir) {}
        >>= finish := by
  let text : Field × Text → Text :=
    fun field ↦ field.1.render ++ ": ".toList ++ Text.chomp field.2
  have hne : ∀ line ∈ fields.map text, line ≠ [] := by
    intro line hline hnil
    obtain ⟨field, -, rfl⟩ := List.mem_map.mp hline
    have hkey := (List.append_eq_nil_iff.mp hnil).1
    exact absurd (List.append_eq_nil_iff.mp hkey).2 (by decide)
  have hstep : ∀ draft field, absorbLine dir draft (text field)
      = absorb draft field.1 (Text.chomp field.2) dir :=
    fun draft field ↦ absorbLine_field draft _ _
  rw [parse, lines_fields h]
  change (List.filter _ (fields.map text)).foldlM _ _ >>= _ = _
  rw [List.filter_eq_self.mpr (by simpa using hne), List.foldlM_map]
  simp only [hstep]

/-! ## Values without a line break -/

omit [Crates] in
/-- No line break in the text. -/
private def Unbroken (text : Text) : Prop := '\r' ∉ text ∧ '\n' ∉ text

omit [Crates] in
private theorem Unbroken.append {a b : Text} (ha : Unbroken a) (hb : Unbroken b) :
    Unbroken (a ++ b) :=
  ⟨fun h ↦ (List.mem_append.mp h).elim ha.1 hb.1, fun h ↦ (List.mem_append.mp h).elim ha.2 hb.2⟩

omit [Crates] in
private theorem Unbroken.chomp {text : Text} (h : Unbroken text) : Text.chomp text = text :=
  Text.chomp_eq_self_iff.mpr fun hlast ↦ h.1 (List.mem_of_mem_getLast? hlast)

omit [Crates] in
private theorem unbroken_of_plain {text : Text} (h : Text.Plain text) : Unbroken text :=
  ⟨fun hmem ↦ (h _ hmem).2.1 rfl, fun hmem ↦ (h _ hmem).2.2 rfl⟩

omit [Crates] in
private theorem unbroken_base32 (hash : Sha256) : Unbroken hash.base32 := by
  have hreturn : ∀ d < 32, '\r' ≠ Base32.alphabet.getD d '0' := by decide
  have hfeed : ∀ d < 32, '\n' ≠ Base32.alphabet.getD d '0' := by decide
  constructor
  · intro hmem
    obtain ⟨d, hd, hc⟩ := Base32.encode_mem hmem
    exact hreturn d hd hc
  · intro hmem
    obtain ⟨d, hd, hc⟩ := Base32.encode_mem hmem
    exact hfeed d hd hc

omit [Crates] in
private theorem unbroken_digest (hash : Sha256) : Unbroken hash.render :=
  Unbroken.append (unbroken_of_plain (by decide)) (unbroken_base32 hash)

omit [Crates] in
private theorem unbroken_url (url : NarUrl) : Unbroken url.url := by
  have hextension : Unbroken url.compression.extension := by
    cases url.compression <;> exact unbroken_of_plain (by decide)
  exact (unbroken_of_plain (by decide)).append
    (((unbroken_base32 url.fileHash).append (unbroken_of_plain (by decide))).append hextension)

omit [Crates] in
private theorem unbroken_compression (compression : Compression) : Unbroken compression.render := by
  cases compression <;> exact unbroken_of_plain (by decide)

omit [Crates] in
private theorem unbroken_decimal (n : ℕ) : Unbroken (Text.decimal n) :=
  unbroken_of_plain (Text.plain_decimal n)

omit [Crates] in
private theorem unbroken_path (path : StorePath) : Unbroken path.render :=
  ⟨StorePath.notMem_render (by decide) (by decide) (by decide) path,
    StorePath.notMem_render (by decide) (by decide) (by decide) path⟩

omit [Crates] in
private theorem unbroken_references (references : List StorePath) :
    Unbroken ([' '].intercalate (references.map StorePath.render)) := by
  induction references with
  | nil => exact unbroken_of_plain (by decide)
  | cons path references ih =>
    cases references with
    | nil =>
      rw [List.map_cons, List.map_nil, List.intercalate_singleton]
      exact unbroken_path path
    | cons next references =>
      rw [List.map_cons, List.map_cons, List.intercalate_cons_cons]
      exact ((unbroken_path path).append (unbroken_of_plain (by decide))).append ih

/-! ## Reading a rendered field -/

variable (draft : Draft)

omit [Crates] in
private theorem ok_bind {ε α β : Type} (value : α) (f : α → Except ε β) :
    (Except.ok value >>= f) = f value := rfl

private theorem absorb_storePath (path : StorePath) :
    absorb draft .storePath (Text.chomp (dir.print path)) dir
      = .ok { draft with storePath := some path } := by
  have hslash : Unbroken ('/' :: path.render) :=
    Unbroken.append (unbroken_of_plain (by decide : Text.Plain ['/'])) (unbroken_path path)
  rw [Dir.print, Text.chomp_append (by simp), hslash.chomp, ← Dir.print, absorb, Dir.parse_print]
  rfl

private theorem absorb_url (url : NarUrl) :
    absorb draft .url (Text.chomp url.url) dir = .ok { draft with url := some url.url } := by
  rw [(unbroken_url url).chomp]
  rfl

private theorem absorb_compression (compression : Compression) :
    absorb draft .compression (Text.chomp compression.render) dir
      = .ok { draft with compression := some compression } := by
  rw [(unbroken_compression compression).chomp, absorb, Compression.parse_render]
  rfl

omit [Crates] in
private theorem numberField_chomp (field : Field) {n : ℕ} (h : n < 2 ^ 64) :
    numberField field (Text.chomp (Text.decimal n)) = .ok n := by
  rw [(unbroken_decimal n).chomp, numberField, Text.parseU64_decimal h]

private theorem digestField_chomp (field : Field) (hash : Sha256) :
    digestField field (Text.chomp hash.render) = .ok hash := by
  rw [(unbroken_digest hash).chomp, digestField, Sha256.parse_render]
  rfl

private theorem absorb_fileHash (hash : Sha256) :
    absorb draft .fileHash (Text.chomp hash.render) dir
      = .ok { draft with fileHash := some hash } := by
  rw [absorb, digestField_chomp]
  rfl

private theorem absorb_narHash (hash : Sha256) :
    absorb draft .narHash (Text.chomp hash.render) dir
      = .ok { draft with narHash := some hash } := by
  rw [absorb, digestField_chomp]
  rfl

private theorem absorb_fileSize {n : ℕ} (h : n < 2 ^ 64) :
    absorb draft .fileSize (Text.chomp (Text.decimal n)) dir
      = .ok { draft with fileSize := some n } := by
  rw [absorb, numberField_chomp .fileSize h]
  rfl

private theorem absorb_narSize {n : ℕ} (h : n < 2 ^ 64) :
    absorb draft .narSize (Text.chomp (Text.decimal n)) dir
      = .ok { draft with narSize := some n } := by
  rw [absorb, numberField_chomp .narSize h]
  rfl

private theorem absorb_references (references : List StorePath) :
    absorb draft .references
        (Text.chomp ([' '].intercalate (references.map StorePath.render))) dir
      = .ok { draft with references := draft.references ++ references } := by
  have hspace : ∀ text ∈ references.map StorePath.render, ' ' ∉ text := by
    intro text htext
    obtain ⟨path, -, rfl⟩ := List.mem_map.mp htext
    exact StorePath.notMem_render (by decide) (by decide) (by decide) path
  have hpieces : (([' '].intercalate (references.map StorePath.render)).splitOn ' ').filter (· ≠ [])
      = references.map StorePath.render := by
    by_cases hnil : references = []
    · rw [hnil]
      decide
    · rw [List.splitOn_intercalate ' ' hspace (by simpa using hnil), List.filter_eq_self]
      intro text htext
      obtain ⟨path, -, rfl⟩ := List.mem_map.mp htext
      simpa using path.render_ne_nil
  have hread : ∀ references : List StorePath,
      (references.map StorePath.render).mapM (pathField .references) = .ok references := by
    intro references
    induction references with
    | nil => rfl
    | cons path references ih =>
      rw [List.map_cons, List.mapM_cons, ih, pathField, StorePath.parse_render]
      rfl
  rw [(unbroken_references references).chomp, absorb, hpieces, hread]
  rfl

private theorem absorb_deriver (deriver : StorePath) :
    absorb draft .deriver (Text.chomp deriver.render) dir
      = .ok { draft with deriver := some deriver } := by
  have hknown : deriver.render ≠ deriverUnknown := by
    intro heq
    have hlength := congrArg List.length heq
    rw [StorePath.render, List.length_append, StorePath.Hash.length_render] at hlength
    have hhash : StorePath.hashTextLen = 32 := by decide
    have hunknown : deriverUnknown.length = 15 := by decide
    omega
  rw [(unbroken_path deriver).chomp, absorb, if_pos hknown, pathField, StorePath.parse_render]
  rfl

private theorem absorb_sig (hbase64 : Crates.Base64RoundTrips) {signature : Signature}
    (h : signature.Named) :
    absorb draft .sig (Text.chomp signature.render) dir
      = .ok { draft with sigs := draft.sigs ++ [signature] } := by
  have hcolon : Unbroken (':' :: Crates.base64Encode signature.bytes.1) :=
    Unbroken.append (unbroken_of_plain (by decide : Text.Plain [':']))
      (unbroken_of_plain (hbase64.plain _))
  rw [Signature.render, Sign.render, Text.chomp_append (by simp), hcolon.chomp, ← Sign.render,
    ← Signature.render, absorb, Signature.parse_render hbase64 h]
  rfl

/-! ## Reading a rendered record -/

/-- What a body can say of a record under a store directory. -/
structure Sayable (record : NarInfo) (dir : Dir) : Prop where
  dir : '\n' ∉ dir.text
  fileSize : record.fileSize < 2 ^ 64
  narSize : (record.narSize : ℕ) < 2 ^ 64
  sigs : ∀ signature ∈ record.sigs, signature.Named
  ca : ∀ ca, record.ca = some ca → '\n' ∉ ca

private theorem Sayable.fields (hbase64 : Crates.Base64RoundTrips) (h : record.Sayable dir) :
    ∀ field ∈ record.fields dir, '\n' ∉ field.2 := by
  intro field hfield
  rw [NarInfo.fields, List.mem_append, List.mem_append, List.mem_append] at hfield
  obtain ((hfield | hfield) | hfield) | hfield := hfield
  · simp only [List.mem_cons, List.not_mem_nil, or_false] at hfield
    obtain rfl | rfl | rfl | rfl | rfl | rfl | rfl | rfl := hfield
    · have hslash : '\n' ∉ '/' :: record.storePath.render := by
        rw [List.mem_cons, not_or]
        exact ⟨by decide, (unbroken_path record.storePath).2⟩
      exact fun hmem ↦ (List.mem_append.mp hmem).elim h.dir hslash
    · exact (unbroken_url record.nar).2
    · exact (unbroken_compression record.compression).2
    · exact (unbroken_digest record.fileHash).2
    · exact (unbroken_decimal record.fileSize).2
    · exact (unbroken_digest record.narHash).2
    · exact (unbroken_decimal record.narSize).2
    · exact (unbroken_references record.references).2
  · obtain ⟨deriver, -, rfl⟩ := List.mem_map.mp hfield
    exact (unbroken_path deriver).2
  · obtain ⟨signature, hsignature, rfl⟩ := List.mem_map.mp hfield
    have hcolon : '\n' ∉ ':' :: Crates.base64Encode signature.bytes.1 := by
      rw [List.mem_cons, not_or]
      exact ⟨by decide, (unbroken_of_plain (hbase64.plain _)).2⟩
    exact fun hmem ↦ (List.mem_append.mp hmem).elim (h.sigs signature hsignature).line hcolon
  · obtain ⟨ca, hca, rfl⟩ := List.mem_map.mp hfield
    exact h.ca ca (Option.mem_toList.mp hca)

private theorem foldlM_sigs (hbase64 : Crates.Base64RoundTrips) {sigs : List Signature}
    (h : ∀ signature ∈ sigs, signature.Named) :
    (sigs.map fun signature ↦ (Field.sig, signature.render)).foldlM
        (fun draft field ↦ absorb draft field.1 (Text.chomp field.2) dir) draft
      = .ok { draft with sigs := draft.sigs ++ sigs } := by
  induction sigs generalizing draft with
  | nil =>
    rw [List.append_nil]
    rfl
  | cons signature sigs ih =>
    rw [List.map_cons, List.foldlM_cons,
      absorb_sig draft hbase64 (h signature List.mem_cons_self), ok_bind,
      ih _ fun s hs ↦ h s (List.mem_cons_of_mem _ hs), List.append_assoc]
    rfl

private theorem foldlM_deriver (h : draft.deriver = none) (deriver : Option StorePath) :
    (deriver.toList.map fun deriver ↦ (Field.deriver, deriver.render)).foldlM
        (fun draft field ↦ absorb draft field.1 (Text.chomp field.2) dir) draft
      = .ok { draft with deriver } := by
  cases deriver with
  | none =>
    cases draft
    cases h
    rfl
  | some deriver =>
    rw [Option.toList_some, List.map_singleton, List.foldlM_cons, absorb_deriver, ok_bind]
    rfl

private theorem foldlM_ca (h : draft.ca = none) (ca : Option Text) :
    (ca.toList.map fun ca ↦ (Field.ca, ca)).foldlM
        (fun draft field ↦ absorb draft field.1 (Text.chomp field.2) dir) draft
      = .ok { draft with ca := ca.map Text.chomp } := by
  cases ca with
  | none =>
    cases draft
    cases h
    rfl
  | some ca => rfl

omit [Crates] in
private theorem finish_of_whole {url : Text} (hurl : url ≠ []) (ca : Option Text) :
    finish { storePath := some record.storePath, url := some url,
             compression := some record.compression, fileHash := some record.fileHash,
             fileSize := some record.fileSize, narHash := some record.narHash,
             narSize := some record.narSize, references := [] ++ record.references,
             deriver := record.deriver, sigs := [] ++ record.sigs, ca }
      = .ok { record with ca } := by
  have hfilter : (some url).filter (· ≠ []) = some url := by simpa [Option.filter] using hurl
  rw [finish]
  dsimp only [required]
  rw [hfilter]
  dsimp only
  rw [ok_bind, ok_bind, ok_bind, ok_bind, ok_bind, ok_bind, dif_pos record.narSize.pos]
  rfl

/-- A rendered record reads back, but for a carriage return at the end of its `CA`. -/
theorem parse_render (hbase64 : Crates.Base64RoundTrips) (h : record.Sayable dir) :
    parse (record.render dir) dir = .ok { record with ca := record.ca.map Text.chomp } := by
  rw [render_eq_fields, parse_fields (h.fields hbase64), NarInfo.fields, List.foldlM_append,
    List.foldlM_append, List.foldlM_append]
  simp only [List.foldlM_cons, List.foldlM_nil, absorb_storePath, absorb_url, absorb_compression,
    absorb_fileHash, absorb_fileSize _ h.fileSize, absorb_narHash, absorb_narSize _ h.narSize,
    absorb_references, ok_bind]
  rw [pure_bind, foldlM_deriver _ rfl, ok_bind, foldlM_sigs _ hbase64 h.sigs, ok_bind,
    foldlM_ca _ rfl, ok_bind]
  exact finish_of_whole (List.append_ne_nil_of_left_ne_nil (by decide) _) _

theorem lines_render (hbase64 : Crates.Base64RoundTrips) (h : record.Sayable dir) :
    Text.lines (record.render dir) = (record.fields dir).map fun field ↦
      field.1.render ++ ": ".toList ++ Text.chomp field.2 := by
  rw [render_eq_fields]
  exact lines_fields (h.fields hbase64)

/-! ## What was read from a body -/

omit [Crates] in
def caValue (line : Text) : Option Text :=
  match splitLine line with
  | .ok (key, value) => if Field.parse key = some .ca then some value else none
  | .error _ => none

omit [Crates] in
def caValues (body : Text) : List Text := ((Text.lines body).filter (· ≠ [])).filterMap caValue

omit [Crates] in
/-- What the fields read so far can say. -/
private structure Draft.Sayable (draft : Draft) (dir : Dir) : Prop where
  dir : draft.storePath.isSome → '\n' ∉ dir.text
  fileSize : ∀ n, draft.fileSize = some n → n < 2 ^ 64
  narSize : ∀ n, draft.narSize = some n → n < 2 ^ 64
  sigs : ∀ signature ∈ draft.sigs, signature.Named
  ca : ∀ ca, draft.ca = some ca → '\n' ∉ ca

omit [Crates] in
private theorem of_mapError_eq_ok {ε ε' α : Type} {x : Except ε α} {f : ε → ε'} {value : α}
    (h : x.mapError f = .ok value) : x = .ok value := by
  cases x with
  | error error => cases h
  | ok value' =>
    obtain rfl := Except.ok.inj h
    rfl

private theorem named_of_parse {text : Text} {signature : Signature} (hline : '\n' ∉ text)
    (h : Signature.parse text = .ok signature) : signature.Named := by
  obtain ⟨⟨name, bytes⟩, hsplit, h⟩ := of_bind_eq_ok h
  obtain ⟨sized, -, h⟩ := of_bind_eq_ok h
  obtain rfl := Except.ok.inj h
  rw [Sign.split] at hsplit
  split at hsplit
  · cases hsplit
  next name' encoded honce =>
  obtain ⟨rfl, hcolon⟩ := Text.splitOnce_eq_some.mp honce
  split at hsplit
  · cases hsplit
  next hname =>
  split at hsplit
  · obtain ⟨rfl, -⟩ := Prod.mk.inj (Except.ok.inj hsplit)
    exact ⟨hname, hcolon, fun hmem ↦ hline (List.mem_append_left _ hmem)⟩
  · cases hsplit

omit [Crates] in
private theorem lt_of_numberField {field : Field} {value : Text} {n : ℕ}
    (h : numberField field value = .ok n) : n < 2 ^ 64 := by
  rw [numberField] at h
  split at h
  · next number hnumber =>
    obtain rfl := Except.ok.inj h
    exact Text.parseU64_lt hnumber
  · cases h

omit [Crates] in
private theorem mem_of_parse {text : Text} {path : StorePath} {c : Char}
    (h : dir.parse text = .ok path) (hmem : c ∈ dir.text) : c ∈ text := by
  rw [Dir.parse] at h
  split at h
  · next base hbase =>
    obtain ⟨rest, hrest, -⟩ := Option.bind_eq_some_iff.mp hbase
    rw [Text.stripPrefix_eq_some.mp hrest]
    exact List.mem_append_left _ hmem
  · cases h

private theorem Draft.Sayable.absorb {draft draft' : Draft} {field : Field} {value : Text}
    (hdraft : draft.Sayable dir) (hvalue : '\n' ∉ value)
    (h : NarInfo.absorb draft field value dir = .ok draft') : draft'.Sayable dir
      ∧ draft'.ca = if field = .ca then some value else draft.ca := by
  -- a field sets its own part of the draft to something that was read from a single line
  cases field with
  | storePath =>
    obtain ⟨path, hpath, h⟩ := of_bind_eq_ok h
    obtain rfl := Except.ok.inj h
    refine ⟨{ hdraft with dir := fun _ hmem ↦ hvalue ?_ }, rfl⟩
    exact mem_of_parse (of_mapError_eq_ok hpath) hmem
  | url =>
    obtain rfl := Except.ok.inj h
    exact ⟨{ hdraft with }, rfl⟩
  | compression =>
    rw [NarInfo.absorb] at h
    split at h
    · obtain rfl := Except.ok.inj h
      exact ⟨{ hdraft with }, rfl⟩
    · cases h
  | fileHash =>
    obtain ⟨hash, -, h⟩ := of_bind_eq_ok h
    obtain rfl := Except.ok.inj h
    exact ⟨{ hdraft with }, rfl⟩
  | narHash =>
    obtain ⟨hash, -, h⟩ := of_bind_eq_ok h
    obtain rfl := Except.ok.inj h
    exact ⟨{ hdraft with }, rfl⟩
  | fileSize =>
    obtain ⟨size, hsize, h⟩ := of_bind_eq_ok h
    obtain rfl := Except.ok.inj h
    refine ⟨{ hdraft with fileSize := ?_ }, rfl⟩
    rintro n ⟨⟩
    exact lt_of_numberField hsize
  | narSize =>
    obtain ⟨size, hsize, h⟩ := of_bind_eq_ok h
    obtain rfl := Except.ok.inj h
    refine ⟨{ hdraft with narSize := ?_ }, rfl⟩
    rintro n ⟨⟩
    exact lt_of_numberField hsize
  | references =>
    obtain ⟨references, -, h⟩ := of_bind_eq_ok h
    obtain rfl := Except.ok.inj h
    exact ⟨{ hdraft with }, rfl⟩
  | deriver =>
    rw [NarInfo.absorb] at h
    split at h
    · obtain ⟨deriver, -, h⟩ := of_bind_eq_ok h
      obtain rfl := Except.ok.inj h
      exact ⟨{ hdraft with }, rfl⟩
    · obtain rfl := Except.ok.inj h
      exact ⟨hdraft, rfl⟩
  | sig =>
    obtain ⟨signature, hsignature, h⟩ := of_bind_eq_ok h
    obtain rfl := Except.ok.inj h
    refine ⟨{ hdraft with sigs := fun s hs ↦ ?_ }, rfl⟩
    obtain hs | hs := List.mem_append.mp hs
    · exact hdraft.sigs s hs
    · obtain rfl := List.mem_singleton.mp hs
      exact named_of_parse hvalue (of_mapError_eq_ok hsignature)
  | ca =>
    obtain rfl := Except.ok.inj h
    refine ⟨{ hdraft with ca := ?_ }, rfl⟩
    rintro ca ⟨⟩
    exact hvalue

private theorem Draft.Sayable.absorbLine {draft draft' : Draft} {line : Text}
    (hdraft : draft.Sayable dir) (hline : '\n' ∉ line)
    (h : NarInfo.absorbLine dir draft line = .ok draft') :
    draft'.Sayable dir ∧ draft'.ca = (caValue line).or draft.ca := by
  obtain ⟨⟨key, value⟩, hsplit, h⟩ := of_bind_eq_ok h
  have hvalue : '\n' ∉ value := by
    rw [splitLine] at hsplit
    split at hsplit
    · next split honce =>
      obtain rfl := Except.ok.inj hsplit
      rw [Text.append_of_splitOnce honce] at hline
      exact fun hmem ↦ hline (List.mem_append_right _ hmem)
    · split at hsplit
      · obtain ⟨-, rfl⟩ := Prod.mk.inj (Except.ok.inj hsplit)
        exact List.not_mem_nil
      · cases hsplit
  rw [caValue, hsplit]
  dsimp only at h ⊢
  cases hfield : Field.parse key with
  | none =>
    rw [hfield] at h
    obtain rfl := Except.ok.inj h
    exact ⟨hdraft, rfl⟩
  | some field =>
    rw [hfield] at h
    obtain ⟨hdraft', hca⟩ := hdraft.absorb hvalue h
    refine ⟨hdraft', hca.trans ?_⟩
    by_cases hca : field = .ca
    · rw [if_pos hca, if_pos (congrArg some hca)]
      rfl
    · rw [if_neg hca, if_neg fun heq ↦ hca (Option.some.inj heq)]
      rfl

/-- The last `CA` line counts. -/
private theorem Draft.Sayable.foldlM {draft draft' : Draft} {lines : List Text}
    (hdraft : draft.Sayable dir) (hlines : ∀ line ∈ lines, '\n' ∉ line)
    (h : lines.foldlM (NarInfo.absorbLine dir) draft = .ok draft') :
    draft'.Sayable dir ∧ draft'.ca = ((lines.filterMap caValue).getLast?).or draft.ca := by
  induction lines generalizing draft with
  | nil =>
    obtain rfl := Except.ok.inj h
    exact ⟨hdraft, rfl⟩
  | cons line lines ih =>
    rw [List.foldlM_cons] at h
    obtain ⟨next, hnext, h⟩ := of_bind_eq_ok h
    obtain ⟨hsayable, hca⟩ := hdraft.absorbLine (hlines line List.mem_cons_self) hnext
    obtain ⟨hsayable', hca'⟩ := ih hsayable (fun l hl ↦ hlines l (List.mem_cons_of_mem _ hl)) h
    refine ⟨hsayable', hca'.trans ?_⟩
    rw [hca, List.filterMap_cons]
    cases caValue line with
    | none => rfl
    | some value =>
      rw [List.getLast?_cons]
      cases (lines.filterMap caValue).getLast? <;> rfl

omit [Crates] in
private theorem of_required_eq_ok {α : Type} {field : Field} {option : Option α} {value : α}
    (h : required field option = .ok value) : option = some value := by
  cases option with
  | none => cases h
  | some value' =>
    obtain rfl := Except.ok.inj h
    rfl

/-- What a body says of a record can be said again, and its last `CA` is the record's. -/
theorem sayable_of_parse {body : Text} (h : parse body dir = .ok record) :
    record.Sayable dir ∧ record.ca = (caValues body).getLast? := by
  obtain ⟨draft, hdraft, h⟩ := of_bind_eq_ok h
  have hlines : ∀ line ∈ (Text.lines body).filter (· ≠ []), '\n' ∉ line :=
    fun line hline ↦ Text.notMem_of_mem_lines (List.mem_of_mem_filter hline)
  have hempty : ({} : Draft).Sayable dir := by constructor <;> simp
  obtain ⟨hsayable, hca⟩ := hempty.foldlM hlines hdraft
  obtain ⟨narSize, hnarSize, h⟩ := of_bind_eq_ok h
  obtain ⟨_, -, h⟩ := of_bind_eq_ok h
  obtain ⟨storePath, hstorePath, h⟩ := of_bind_eq_ok h
  obtain ⟨fileHash, -, h⟩ := of_bind_eq_ok h
  obtain ⟨fileSize, hfileSize, h⟩ := of_bind_eq_ok h
  obtain ⟨narHash, -, h⟩ := of_bind_eq_ok h
  split at h
  · obtain rfl := Except.ok.inj h
    refine ⟨⟨hsayable.dir ?_, ?_, ?_, hsayable.sigs, hsayable.ca⟩, hca.trans (Option.or_none ..)⟩
    · rw [of_required_eq_ok hstorePath]
      rfl
    · exact hsayable.fileSize _ (of_required_eq_ok hfileSize)
    · exact hsayable.narSize _ (of_required_eq_ok hnarSize)
  · cases h

/-- A record read from a body is rendered and read back as it was, and its rendering is rendered
again as it was, exactly if the last `CA` line of the body does not end in a carriage return. -/
theorem round_trips_iff (hbase64 : Crates.Base64RoundTrips) {body : Text}
    (h : parse body dir = .ok record) :
    (parse (record.render dir) dir = .ok record
      ∧ ∀ record', parse (record.render dir) dir = .ok record' →
        record'.render dir = record.render dir)
    ↔ ∀ ca, (caValues body).getLast? = some ca → ca.getLast? ≠ some '\r' := by
  obtain ⟨hsayable, hca⟩ := sayable_of_parse h
  -- what comes back is the record with its `ca` chomped, which the last `CA` line decides
  have hback := parse_render hbase64 hsayable
  constructor
  · rintro ⟨hsame, -⟩ ca hlast
    have hchomp := congrArg NarInfo.ca (Except.ok.inj (hback.symm.trans hsame))
    rw [hca, hlast] at hchomp
    exact Text.chomp_eq_self_iff.mp (Option.some.inj hchomp)
  · intro hends
    have hchomp : record.ca.map Text.chomp = record.ca := by
      cases hrecord : record.ca with
      | none => rfl
      | some ca =>
        exact congrArg some (Text.chomp_eq_self_iff.mpr (hends ca (hca.symm.trans hrecord)))
    rw [hchomp] at hback
    refine ⟨hback, fun record' hrecord' ↦ ?_⟩
    rw [Except.ok.inj (hrecord'.symm.trans hback)]

end NarInfo

/-! ## A base64 to evaluate on -/

namespace Lettered

/-- A byte as two letters. -/
def pair (byte : UInt8) : Text :=
  [Char.ofNat (65 + byte.toNat / 16), Char.ofNat (65 + byte.toNat % 16)]

def unpair : Bytes → Option Bytes
  | [] => some []
  | [_] => none
  | high :: low :: rest =>
    (unpair rest).map (UInt8.ofNat ((high.toNat - 65) * 16 + (low.toNat - 65)) :: ·)

/-- The base64 of the specimen's signature. -/
def spelling : Text := Specimen.crates.base64Encode Specimen.signature.1

/-- The crates of the specimen, with a stand-in for base64 that has the real value on the specimen's
signature and can be undone everywhere else. -/
scoped instance crates : Crates :=
  { Specimen.crates with
    base64Encode := fun bytes ↦
      if bytes = Specimen.signature.1 then spelling else bytes.flatMap pair
    base64Decode := fun bytes ↦
      if bytes = Text.utf8 spelling then some Specimen.signature.1 else unpair bytes }

private theorem letter : ∀ n < 16, (Char.ofNat (65 + n)).toNat = 65 + n
    ∧ Text.utf8 [Char.ofNat (65 + n)] = [UInt8.ofNat (65 + n)]
    ∧ (UInt8.ofNat (65 + n)).toNat = 65 + n := by decide

private theorem unpair_pairs (bytes : Bytes) :
    unpair (Text.utf8 (bytes.flatMap pair)) = some bytes := by
  induction bytes with
  | nil => rfl
  | cons byte bytes ih =>
    have hbyte := byte.toNat_lt
    obtain ⟨-, hhigh, hhigh'⟩ := letter (byte.toNat / 16) (by omega)
    obtain ⟨-, hlow, hlow'⟩ := letter (byte.toNat % 16) (by omega)
    have hutf8 : Text.utf8 (pair byte)
        = [UInt8.ofNat (65 + byte.toNat / 16), UInt8.ofNat (65 + byte.toNat % 16)] :=
      (Text.utf8_append [_] [_]).trans (congrArg₂ (· ++ ·) hhigh hlow)
    rw [List.flatMap_cons, Text.utf8_append, hutf8]
    change (unpair (Text.utf8 (bytes.flatMap pair))).map _ = _
    rw [ih, hhigh', hlow', Option.map_some, Nat.add_sub_cancel_left, Nat.add_sub_cancel_left,
      Nat.div_add_mod', UInt8.ofNat_toNat]

private theorem mem_pairs {bytes : Bytes} {c : Char} (h : c ∈ bytes.flatMap pair) :
    ∃ n < 16, c = Char.ofNat (65 + n) := by
  obtain ⟨byte, -, hc⟩ := List.mem_flatMap.mp h
  have hbyte := byte.toNat_lt
  rw [pair, List.mem_pair] at hc
  obtain rfl | rfl := hc
  · exact ⟨byte.toNat / 16, by omega, rfl⟩
  · exact ⟨byte.toNat % 16, by omega, rfl⟩

theorem base64RoundTrips : Crates.Base64RoundTrips := by
  have hspelling : ∀ bytes : Bytes, Text.utf8 (bytes.flatMap pair) ≠ Text.utf8 spelling := by
    intro bytes h
    have hmem : 'i' ∈ bytes.flatMap pair := by
      rw [Text.utf8_injective h]
      decide
    obtain ⟨n, hn, hc⟩ := mem_pairs hmem
    exact (by decide : ∀ n < 16, 'i' ≠ Char.ofNat (65 + n)) n hn hc
  constructor
  · intro bytes
    by_cases hbytes : bytes = Specimen.signature.1
    · have hencode : Crates.base64Encode bytes = spelling := if_pos hbytes
      rw [hencode, hbytes]
      exact if_pos rfl
    · have hencode : Crates.base64Encode bytes = bytes.flatMap pair := if_neg hbytes
      rw [hencode]
      exact (if_neg (hspelling bytes)).trans (unpair_pairs bytes)
  · intro bytes
    by_cases hbytes : bytes = Specimen.signature.1
    · have hencode : Crates.base64Encode bytes = spelling := if_pos hbytes
      rw [hencode]
      decide
    · have hencode : Crates.base64Encode bytes = bytes.flatMap pair := if_neg hbytes
      rw [hencode]
      intro c hc
      obtain ⟨n, hn, rfl⟩ := mem_pairs hc
      exact (by decide : ∀ n < 16, (Char.ofNat (65 + n)).toNat < 128 ∧ Char.ofNat (65 + n) ≠ '\r'
        ∧ Char.ofNat (65 + n) ≠ '\n') n hn

end Lettered

section

open Lettered
open Specimen (declared dir signature)

/-- The record of the push with a signature and a content address. -/
def Lettered.addressed : NarInfo :=
  { declared with sigs := [⟨['k'], signature⟩], ca := some "text:x".toList }

private theorem parse_addressed : NarInfo.parse (addressed.render dir) dir = .ok addressed := by
  have hsayable : addressed.Sayable dir := by
    refine ⟨by decide, by decide, by decide, fun signature hsignature ↦ ?_, ?_⟩
    · obtain rfl := List.mem_singleton.mp hsignature
      constructor <;> decide
    · rintro ca ⟨⟩
      decide
  exact NarInfo.parse_render base64RoundTrips hsayable

theorem round_trips_addressed : NarInfo.parse (addressed.render dir) dir = .ok addressed := by
  refine ((NarInfo.round_trips_iff base64RoundTrips parse_addressed).mpr fun ca hca ↦ ?_).1
  rw [← (NarInfo.sayable_of_parse parse_addressed).2] at hca
  cases hca
  decide

/-- A content address that ends in a carriage return is read, and loses it when it is read again. -/
theorem not_round_trips_return : ∃ record : NarInfo,
    NarInfo.parse (Specimen.body ++ "CA: x\r\r\n".toList) dir = .ok record
      ∧ NarInfo.parse (record.render dir) dir ≠ .ok record := by
  have hparse : NarInfo.parse (Specimen.body ++ "CA: x\r\r\n".toList) dir
      = .ok { declared with ca := some "x\r".toList } := by decide +kernel
  refine ⟨_, hparse, fun hsame ↦ ?_⟩
  have hback := NarInfo.parse_render base64RoundTrips (NarInfo.sayable_of_parse hparse).1
  have hca := congrArg NarInfo.ca (Except.ok.inj (hback.symm.trans hsame))
  exact absurd hca (by decide)

end

end Bincache
