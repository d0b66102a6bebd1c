import Bincache.Codecs
import Bincache.Ingest.Reconciling
import Bincache.Serve.Route

/-!
# One name for an artifact

The record renders a URL, the router reads it out of a target, the store makes a path of it and a
scan reads the path back. Each takes the name apart in its own way, and a client may spell the
digest in three alphabets with two tags or none. What keeps them together is that none of the
characters the others cut at occurs in a digest.
-/

namespace Bincache

/-! ## Spellings of a digest -/

namespace Sha256

variable [Crates] {hash : Sha256} {body tag : Text}

/-- What a client may write for a digest, apart from a tag. -/
inductive Spells (hash : Sha256) : Text → Prop
  | base32 : Spells hash hash.base32
  | hex {text : Text} (h : Hex.Spells hash.bytes.1 text) : Spells hash text
  | base64 : Spells hash (Crates.base64Encode hash.bytes.1)

/-- What may stand in front of it. -/
def tags : List Text := [[], "sha256:".toList, "sha256-".toList]

/-- Where the readers of a target cut. -/
def separators : Text := [':', '-', '.', '?', '#']

/-- No separator is a digit in any of the alphabets. -/
theorem Spells.notMem (hbase64 : Crates.Base64Standard) (h : hash.Spells body) :
    ∀ c ∈ separators, c ∉ body := by
  intro c hc hmem
  rcases h with _ | h | _
  · obtain ⟨d, hd, rfl⟩ := Base32.encode_mem hmem
    have hall : (List.range 32).all (fun d ↦ Base32.alphabet.getD d '0' ∉ separators) = true := by
      decide
    exact of_decide_eq_true (List.all_eq_true.mp hall d (List.mem_range.mpr hd)) hc
  · obtain ⟨n, hn, hlower⟩ := h.toLower_mem hmem
    have hall : separators.all (fun c ↦ (List.range 16).all fun n ↦ c.toLower ≠ Hex.digit n)
        = true := by decide
    have := List.all_eq_true.mp (List.all_eq_true.mp hall c hc) n (List.mem_range.mpr hn)
    exact of_decide_eq_true this hlower
  · have hall : separators.all (fun c ↦ c ∉ '=' :: Base64.alphabet) = true := by decide
    exact of_decide_eq_true (List.all_eq_true.mp hall c hc) (hbase64.alphabet _ c hmem)

omit [Crates] in
theorem strip_tag (htag : tag ∈ tags) (hcolon : ':' ∉ body) (hdash : '-' ∉ body) :
    ((Text.stripPrefix "sha256:".toList (tag ++ body)).or
      (Text.stripPrefix "sha256-".toList (tag ++ body))).getD (tag ++ body) = body := by
  have hnone : ∀ c : Char, c ∉ body → Text.stripPrefix ("sha256".toList ++ [c]) body = none := by
    intro c hc
    rw [Option.eq_none_iff_forall_ne_some]
    intro rest hrest
    refine hc ?_
    rw [Text.stripPrefix_eq_some.mp hrest]
    simp
  have hcolon : Text.stripPrefix "sha256:".toList body = none := hnone ':' hcolon
  have hdash : Text.stripPrefix "sha256-".toList body = none := hnone '-' hdash
  simp only [tags, List.mem_cons, List.not_mem_nil, or_false] at htag
  obtain rfl | rfl | rfl := htag
  · rw [List.nil_append, hcolon, hdash]
    rfl
  · rw [Text.stripPrefix_append]
    rfl
  · rw [Text.stripPrefix_append]
    rfl

/-- Every spelling of a digest is read as that digest: the lengths tell the alphabets apart. -/
theorem parse_of_spells (hhex : Crates.HexDecodes) (hbase64 : Crates.Base64Standard)
    (h : hash.Spells body) (htag : tag ∈ tags) : parse (tag ++ body) = .ok hash := by
  have hnotMem := h.notMem hbase64
  rw [parse, strip_tag htag (hnotMem ':' (by decide)) (hnotMem '-' (by decide))]
  rcases h with _ | h | _
  · rw [if_pos (byteLen_base32 hash), base32, Base32.decode_encode (by decide)]
  · have hlen : Text.byteLen body = hexLen := by
      rw [Text.byteLen_of_ascii h.ascii, h.length, hash.bytes.2, hexLen]
    rw [if_neg (by rw [hlen]; decide), if_pos hlen, hhex _ _ h]
    exact dif_pos hash.bytes.2
  · have hlen : Text.byteLen (Crates.base64Encode hash.bytes.1) = base64Len := by
      rw [Text.byteLen_of_ascii fun c hc ↦ (hbase64.plain _ c hc).1, hbase64.length, hash.bytes.2,
        base64Len]
    rw [if_neg (by rw [hlen]; decide), if_neg (by rw [hlen]; decide), if_pos hlen, hbase64.decode]
    exact dif_pos hash.bytes.2

end Sha256

/-! ## Targets -/

namespace NarUrl

variable [Crates] {url : NarUrl}

theorem parse_of_spells (hhex : Crates.HexDecodes) (hbase64 : Crates.Base64Standard)
    {body tag : Text} (h : url.fileHash.Spells body) (htag : tag ∈ Sha256.tags) :
    parse (tag ++ body ++ ".nar".toList ++ url.compression.extension) = .ok url := by
  have hdot : '.' ∉ tag ++ body := by
    rw [List.mem_append]
    refine not_or.mpr ⟨?_, h.notMem hbase64 '.' (by decide)⟩
    have hall : Sha256.tags.all (fun tag ↦ '.' ∉ tag) = true := by decide
    exact of_decide_eq_true (List.all_eq_true.mp hall tag htag)
  have hsplit : Text.splitOnce ".nar".toList
      (tag ++ body ++ ".nar".toList ++ url.compression.extension)
        = some (tag ++ body, url.compression.extension) := Text.splitOnce_append hdot
  rw [parse, hsplit]
  dsimp only
  rw [Compression.fromExtension_extension]
  dsimp only
  rw [Sha256.parse_of_spells hhex hbase64 h htag]

/-- A target that asks for an artifact, in whatever spelling and with whatever query or
fragment. -/
inductive Requests (url : NarUrl) : Text → Prop
  | intro {body tag tail : Text} (hbody : url.fileHash.Spells body) (htag : tag ∈ Sha256.tags)
      (htail : ∀ c, tail.head? = some c → c = '?' ∨ c = '#') :
      Requests url ('/' :: pathPrefix ++ (tag ++ body ++ ".nar".toList ++ url.compression.extension)
        ++ tail)

theorem requests_url (url : NarUrl) : Requests url ('/' :: url.url) := by
  have : Requests url ('/' :: pathPrefix
      ++ ([] ++ url.fileHash.base32 ++ ".nar".toList ++ url.compression.extension) ++ []) :=
    .intro .base32 List.mem_cons_self (by simp)
  rwa [List.append_nil] at this

end NarUrl

namespace Route

variable [Crates] {url : NarUrl} {target : Text}

omit [Crates] in
/-- The part of a target in front of its query and fragment. -/
theorem takeWhile_append {path tail : Text} (hpath : ∀ c ∈ path, c ≠ '?' ∧ c ≠ '#')
    (htail : ∀ c, tail.head? = some c → c = '?' ∨ c = '#') :
    (path ++ tail).takeWhile (fun c ↦ c ≠ '?' ∧ c ≠ '#') = path := by
  rw [List.takeWhile_append_of_pos fun c hc ↦ decide_eq_true (hpath c hc)]
  rcases tail with _ | ⟨c, tail⟩
  · rw [List.takeWhile_nil, List.append_nil]
  · have hc : decide (c ≠ '?' ∧ c ≠ '#') = false := by
      rcases htail c rfl with rfl | rfl
      · rfl
      · rfl
    rw [List.takeWhile_cons, hc]
    exact List.append_nil path

theorem resolve_name {name tail : Text} (hname : ∀ c ∈ name, c ≠ '?' ∧ c ≠ '#')
    (htail : ∀ c, tail.head? = some c → c = '?' ∨ c = '#') :
    resolve ('/' :: NarUrl.pathPrefix ++ name ++ tail)
      = (.nar <$> NarUrl.parse name).mapError .nar := by
  have hpath : ∀ c ∈ '/' :: NarUrl.pathPrefix ++ name, c ≠ '?' ∧ c ≠ '#' := by
    intro c hc
    obtain hc | hc := List.mem_append.mp hc
    · have hall : ('/' :: NarUrl.pathPrefix).all (fun c ↦ c ≠ '?' ∧ c ≠ '#') = true := by decide
      exact of_decide_eq_true (List.all_eq_true.mp hall c hc)
    · exact hname c hc
  have hstrip : Text.stripPrefix ['/'] ('/' :: NarUrl.pathPrefix ++ name)
      = some (NarUrl.pathPrefix ++ name) := by
    rw [List.cons_append]
    exact Text.stripPrefix_append ['/'] (NarUrl.pathPrefix ++ name)
  have hfixed : ∀ text : Text, Text.stripPrefix NarUrl.pathPrefix text = none →
      NarUrl.pathPrefix ++ name ≠ text := by
    rintro text hnone rfl
    rw [Text.stripPrefix_append] at hnone
    cases hnone
  rw [resolve, takeWhile_append hpath htail, hstrip]
  dsimp only
  rw [if_neg (hfixed _ (by decide)), if_neg (hfixed _ (by decide)), Text.stripPrefix_append]

/-- What a record advertises is resolved to where its artifact is. -/
theorem resolve_url (url : NarUrl) : resolve ('/' :: url.url) = .ok (.nar url) := by
  have hfixed : ∀ text : Text, text.all (fun c ↦ c ≠ '?' ∧ c ≠ '#') = true →
      ∀ c ∈ text, c ≠ '?' ∧ c ≠ '#' :=
    fun text hall c hc ↦ of_decide_eq_true (List.all_eq_true.mp hall c hc)
  have hdigit : ∀ d < 32, Base32.alphabet.getD d '0' ≠ '?' ∧ Base32.alphabet.getD d '0' ≠ '#' := by
    decide
  have hname : ∀ c ∈ url.name, c ≠ '?' ∧ c ≠ '#' := by
    intro c hc
    rw [NarUrl.name, List.mem_append, List.mem_append] at hc
    obtain (hc | hc) | hc := hc
    · obtain ⟨d, hd, rfl⟩ := Base32.encode_mem hc
      exact hdigit d hd
    · exact hfixed _ (by decide) c hc
    · refine hfixed _ ?_ c hc
      cases url.compression <;> decide
  have hresolve : resolve ('/' :: NarUrl.pathPrefix ++ url.name ++ [])
      = (.nar <$> NarUrl.parse url.name).mapError .nar := resolve_name hname (by simp)
  rw [List.append_nil, NarUrl.parse_name] at hresolve
  exact hresolve

theorem resolve_of_requests (hhex : Crates.HexDecodes) (hbase64 : Crates.Base64Standard)
    (h : url.Requests target) : resolve target = .ok (.nar url) := by
  rcases h with @⟨body, tag, tail, hbody, htag, htail⟩
  have hfixed : ∀ text : Text, text.all (fun c ↦ c ≠ '?' ∧ c ≠ '#') = true →
      ∀ c ∈ text, c ≠ '?' ∧ c ≠ '#' :=
    fun text hall c hc ↦ of_decide_eq_true (List.all_eq_true.mp hall c hc)
  have htags : Sha256.tags.all (fun tag ↦ tag.all (fun c ↦ c ≠ '?' ∧ c ≠ '#')) = true := by decide
  rw [resolve_name ?_ htail, NarUrl.parse_of_spells hhex hbase64 hbody htag]
  · rfl
  · intro c hc
    rw [List.mem_append, List.mem_append, List.mem_append] at hc
    obtain ((hc | hc) | hc) | hc := hc
    · exact hfixed tag (List.all_eq_true.mp htags tag htag) c hc
    · exact ⟨ne_of_mem_of_not_mem hc (hbody.notMem hbase64 '?' (by decide)),
        ne_of_mem_of_not_mem hc (hbody.notMem hbase64 '#' (by decide))⟩
    · exact hfixed _ (by decide) c hc
    · refine hfixed _ ?_ c hc
      cases url.compression <;> decide

end Route

/-! ## Paths -/

namespace Store

def plain (c : Char) : Bool := c.isLower || c.isDigit || c == '.'

/-- The artifact is in the directory that the first two digits of its name give, under a name of
which no part leads elsewhere. -/
structure Confined (url : NarUrl) : Prop where
  path : Store.path url
    = [artifacts, Text.utf8 (url.fileHash.base32.take 2), Text.utf8 url.name]
  shard : (url.fileHash.base32.take 2).length = 2
    ∧ ∀ c ∈ url.fileHash.base32.take 2, c ∈ Base32.alphabet
  name : ∀ c ∈ url.name, plain c = true

theorem mem_alphabet_of_base32 {hash : Sha256} {c : Char} (hc : c ∈ hash.base32) :
    c ∈ Base32.alphabet := by
  obtain ⟨d, hd, rfl⟩ := Base32.encode_mem hc
  have hlen : d < Base32.alphabet.length := hd
  rw [List.getD_eq_getElem _ _ hlen]
  exact List.getElem_mem hlen

theorem confined (url : NarUrl) : Confined url := by
  have hlen : url.fileHash.base32.length = 52 := by
    rw [Sha256.base32, Base32.length_encode, url.fileHash.bytes.2]
    decide
  refine ⟨?_, ⟨?_, fun c hc ↦ mem_alphabet_of_base32 (List.mem_of_mem_take hc)⟩, fun c hc ↦ ?_⟩
  · rw [Store.path, NarUrl.name, List.append_assoc,
      List.take_append_of_le_length (by rw [hlen]; decide), shardLen]
  · rw [List.length_take, hlen]
    decide
  · have hfixed : ∀ text : Text, text.all plain = true → c ∈ text → plain c = true :=
      fun text hall ↦ List.all_eq_true.mp hall c
    rw [NarUrl.name, List.mem_append, List.mem_append] at hc
    obtain (hc | hc) | hc := hc
    · exact hfixed Base32.alphabet (by decide) (mem_alphabet_of_base32 hc)
    · exact hfixed _ (by decide) hc
    · refine hfixed _ ?_ hc
      cases url.compression <;> decide

/-! ## The payload tree -/

/-- The payload tree holds the artifacts of these URLs, and nothing else. -/
structure Stocked (urls : Set NarUrl) (fs : FileSystem) : Prop extends Payload fs where
  mem : ∀ path, InTree fs path ↔ ∃ url ∈ urls, path = Store.path url

variable {urls : Set NarUrl} {fs fs' : FileSystem}

/-- Only the entries below `nar/` matter. -/
theorem Stocked.congr (h : Stocked urls fs)
    (hlinks : ∀ rest, artifacts :: rest ∈ fs'.links ↔ artifacts :: rest ∈ fs.links)
    (hdirs : fs'.dirs = fs.dirs) : Stocked urls fs' := by
  refine ⟨⟨hdirs ▸ h.root, fun shard ↦ (hlinks _).not.mpr (h.shards shard), fun shard name ↦ ?_,
    fun shard name hlink ↦ ?_⟩, fun path ↦ ?_⟩
  · exact hdirs ▸ h.files shard name
  · exact hdirs ▸ h.parents shard name ((hlinks _).mp hlink)
  · rw [← h.mem]
    refine exists_congr fun shard ↦ exists_congr fun name ↦ and_congr_right ?_
    rintro rfl
    exact hlinks _

open Attempt

variable {env : Env} {world : World} {peer : Peer} {staged : Staged}

theorem Stocked.create (h : Stocked urls fs) (name : Bytes) :
    Stocked urls (fs.create [staging, name]).1 := by
  refine h.congr (fun rest ↦ ?_) (FileSystem.dirs_create _)
  have hne : artifacts :: rest ≠ [staging, name] :=
    fun heq ↦ absurd (List.cons.inj heq).1 (by decide)
  rw [← Finmap.lookup_isSome, FileSystem.entry_create _ hne, Finmap.lookup_isSome]

theorem Stocked.unlink (h : Stocked urls fs) (name : Bytes) :
    Stocked urls (fs.unlink [staging, name]) := by
  refine h.congr (fun rest ↦ ?_) rfl
  have hne : artifacts :: rest ≠ [staging, name] :=
    fun heq ↦ absurd (List.cons.inj heq).1 (by decide)
  rw [← Finmap.lookup_isSome, FileSystem.links_unlink, Table.lookup_erase_eq, if_neg hne,
    Finmap.lookup_isSome]

theorem Stocked.createDirAll (h : Stocked urls fs) (shard : Bytes) :
    Stocked urls (fs.createDirAll [artifacts, shard]) := by
  have hmem : ∀ path, path ∈ (fs.createDirAll [artifacts, shard]).dirs
      ↔ path ∈ fs.dirs ∨ path ∈ [artifacts, shard].inits := by
    intro path
    rw [FileSystem.createDirAll, Finset.mem_union, List.mem_toFinset]
  refine ⟨⟨(hmem _).mpr (.inl h.root), h.shards, fun shard' name hdir ↦ ?_,
    fun shard' name hlink ↦ ?_⟩,
    h.mem⟩
  · rcases (hmem _).mp hdir with hdir | hinit
    · exact h.files shard' name hdir
    · simp at hinit
  · exact (hmem _).mpr (.inl (h.parents shard' name hlink))

theorem Stocked.rename (h : Stocked urls fs) {name : Bytes} {url : NarUrl}
    (hdir : (Store.path url).dropLast ∈ fs.dirs)
    (hrename : fs.rename [staging, name] (Store.path url) = some fs') :
    Stocked (insert url urls) fs' := by
  have hlinks : ∀ rest, artifacts :: rest ∈ fs'.links
      ↔ artifacts :: rest = Store.path url ∨ artifacts :: rest ∈ fs.links := by
    intro rest
    have hne : artifacts :: rest ≠ [staging, name] :=
      fun heq ↦ absurd (List.cons.inj heq).1 (by decide)
    obtain ⟨inode, hlink, rfl⟩ := FileSystem.rename_eq_some.mp hrename
    rw [← Finmap.lookup_isSome, FileSystem.moveEntry, Table.lookup_insert_eq,
      Table.lookup_erase_eq, if_neg hne]
    split
    · next heq => exact iff_of_true rfl (.inl heq)
    · next hpath => rw [or_iff_right hpath, Finmap.lookup_isSome]
  have hdirs := FileSystem.dirs_rename hrename
  refine ⟨⟨hdirs ▸ h.root, fun shard hlink ↦ ?_, fun shard name ↦ hdirs ▸ h.files shard name,
    fun shard name hlink ↦ ?_⟩, fun path ↦ ?_⟩
  · rcases (hlinks _).mp hlink with heq | hlink
    · exact absurd (congrArg List.length heq) (by simp [Store.path])
    · exact h.shards shard hlink
  · rw [hdirs]
    rcases (hlinks _).mp hlink with heq | hlink
    · rwa [← heq] at hdir
    · exact h.parents shard name hlink
  · constructor
    · rintro ⟨shard, name, rfl, hlink⟩
      rcases (hlinks _).mp hlink with heq | hlink
      · exact ⟨url, Set.mem_insert .., heq⟩
      · obtain ⟨url', hurl', heq⟩ := (h.mem _).mp ⟨shard, name, rfl, hlink⟩
        exact ⟨url', Set.mem_insert_of_mem _ hurl', heq⟩
    · rintro ⟨url', hurl', rfl⟩
      refine ⟨_, _, rfl, (hlinks _).mpr ?_⟩
      rcases hurl' with rfl | hurl'
      · exact .inl rfl
      · obtain ⟨-, -, -, hlink⟩ := (h.mem _).mpr ⟨url', hurl', rfl⟩
        exact .inr hlink

/-! ## What commits leave -/

theorem ends_stage (h : Stocked urls world.fs) : Ends env stage.run (fun result _ world' ↦
    Stocked urls world'.fs
      ∧ ∀ staged, result = .ok staged → ∃ name, staged.path = [staging, name]) (world, peer) := by
  refine ends_call fun ordinal site hop ↦ ?_
  obtain ⟨rfl, rfl⟩ := of_step_nextOrdinal hop
  refine ends_call fun pid site hop ↦ ?_
  obtain ⟨rfl, rfl⟩ := of_step_processId hop
  refine ends_call fun answer site hop ↦ ?_
  obtain ⟨⟨error, rfl⟩, rfl, -⟩ | ⟨rfl, rfl⟩ := of_step_create hop
  · exact ends_done ⟨h, fun _ heq ↦ absurd heq (by rintro ⟨⟩)⟩
  · refine ends_done ⟨h.create _, ?_⟩
    rintro staged ⟨⟩
    exact ⟨_, rfl⟩

theorem ends_write (h : Stocked urls world.fs) (bytes : Bytes) :
    Ends env (staged.write bytes).run (fun result _ world' ↦ Stocked urls world'.fs
      ∧ ∀ staged', result = .ok staged' → staged'.path = staged.path) (world, peer) := by
  refine ends_call fun answer site hop ↦ ?_
  obtain ⟨-, rfl, count, rfl⟩ | ⟨rfl, rfl⟩ := of_step_writeAt hop
  · exact ends_done ⟨h.congr (fun _ ↦ Iff.rfl) rfl, fun _ heq ↦ absurd heq (by rintro ⟨⟩)⟩
  · refine ends_done ⟨h.congr (fun _ ↦ Iff.rfl) rfl, ?_⟩
    rintro staged' ⟨⟩
    rfl

theorem ends_link (h : Stocked urls world.fs) {name : Bytes} (hpath : staged.path = [staging, name])
    (url : NarUrl) : Ends env (staged.link (Store.path url)).run (fun result _ world' ↦
      match result with
      | .ok _ => Stocked (insert url urls) world'.fs
      | .error _ => Stocked urls world'.fs) (world, peer) := by
  refine safe_bind (safe_context (ends_call fun answer site hop ↦ ?_))
  obtain ⟨rfl, ⟨-, rfl⟩ | rfl⟩ := of_step_sync hop
  · exact ends_done h
  refine ends_done (safe_bind (safe_context (ends_call fun answer site hop ↦ ?_)))
  obtain ⟨-, rfl, rfl⟩ | ⟨rfl, rfl⟩ := of_step_createDirAll hop
  · exact ends_done h
  refine ends_done (safe_context (ends_call fun answer site hop ↦ ?_))
  -- the shard is there by now, so what is moved into it has a parent
  have hmade : Stocked urls (world.fs.createDirAll (Store.path url).dropLast) := h.createDirAll _
  obtain ⟨⟨error, rfl⟩, rfl, -⟩ | ⟨rfl, fs, hrename, rfl⟩ := of_step_rename hop
  · exact ends_done hmade
  · rw [hpath] at hrename
    refine ends_done (hmade.rename ?_ hrename)
    simp [FileSystem.createDirAll]

theorem ends_commit (h : Stocked urls world.fs) {name : Bytes}
    (hpath : staged.path = [staging, name])
    (url : NarUrl) : Ends env (staged.commit url).run (fun result _ world' ↦ match result with
      | .ok _ => Stocked (insert url urls) world'.fs
      | .error _ => Stocked urls world'.fs) (world, peer) := by
  refine safe_bind (safe_onError ((ends_link h hpath url).imp ?_))
  rintro (error | ⟨⟩) peer' world' - hresult
  · refine ends_call fun answer site hop ↦ ?_
    obtain ⟨⟨error, rfl⟩, rfl, -⟩ | ⟨rfl, rfl⟩ := of_step_remove hop
    · exact ends_done hresult
    · exact ends_done (hpath ▸ hresult.unlink name)
  · exact ends_done hresult

def put (chunks : List Bytes) (url : NarUrl) : Call Error ℕ := do
  let staged ← stage
  let staged ← chunks.foldlM Staged.write staged
  staged.commit url

theorem ends_writes (h : Stocked urls world.fs) (chunks : List Bytes) :
    Ends env (chunks.foldlM Staged.write staged).run (fun result _ world' ↦ Stocked urls world'.fs
      ∧ ∀ staged', result = .ok staged' → staged'.path = staged.path) (world, peer) := by
  induction chunks generalizing staged world peer with
  | nil =>
    refine ends_done ⟨h, ?_⟩
    rintro staged' ⟨⟩
    rfl
  | cons chunk chunks ih =>
    rw [List.foldlM_cons]
    refine safe_bind ((ends_write h chunk).imp ?_)
    rintro (error | staged₁) peer' world' - ⟨hstocked, hpath⟩
    · exact ⟨hstocked, fun _ heq ↦ absurd heq (by rintro ⟨⟩)⟩
    · rw [← hpath staged₁ rfl]
      exact ih hstocked

theorem ends_put (h : Stocked urls world.fs) (chunks : List Bytes) (url : NarUrl) :
    Ends env (put chunks url).run (fun result _ world' ↦ match result with
      | .ok _ => Stocked (insert url urls) world'.fs
      | .error _ => Stocked urls world'.fs) (world, peer) := by
  refine safe_bind ((ends_stage h).imp ?_)
  rintro (error | staged) peer₁ world₁ - ⟨hstaged, hname⟩
  · exact hstaged
  obtain ⟨name, hname⟩ := hname staged rfl
  refine safe_bind ((ends_writes hstaged chunks).imp ?_)
  rintro (error | written) peer₂ world₂ - ⟨hwritten, hpath⟩
  · exact hwritten
  · exact ends_commit hwritten ((hpath written rfl).trans hname) url

/-- Puts one artifact after the other, whether or not the ones before succeeded, and remembers which
were committed. -/
def putAll : List (List Bytes × NarUrl) → Call Error (List NarUrl)
  | [] => pure []
  | (chunks, url) :: rest => do
    let outcome ← (put chunks url).result
    let committed ← putAll rest
    pure (match outcome with
      | .ok _ => url :: committed
      | .error _ => committed)

theorem ends_putAll (h : Stocked urls world.fs) (puts : List (List Bytes × NarUrl)) :
    Ends env (putAll puts).run (fun result _ world' ↦
      ∃ committed, result = .ok committed ∧ Stocked (urls ∪ {url | url ∈ committed}) world'.fs)
      (world, peer) := by
  induction puts generalizing world peer urls with
  | nil => exact ends_done ⟨[], rfl, by simpa using h⟩
  | cons first rest ih =>
    obtain ⟨chunks, url⟩ := first
    refine safe_bind (safe_result ((ends_put h chunks url).imp ?_))
    rintro (error | length) peer' world' - hresult
    · refine safe_bind ((ih hresult).imp ?_)
      rintro result peer'' world'' - ⟨committed, rfl, hstocked⟩
      exact ends_done ⟨committed, rfl, hstocked⟩
    · refine safe_bind ((ih hresult).imp ?_)
      rintro result peer'' world'' - ⟨committed, rfl, hstocked⟩
      refine ends_done ⟨url :: committed, rfl, ?_⟩
      convert hstocked using 1
      ext other
      simp [or_assoc, or_left_comm]

/-- The directory skeleton of an empty directory holds no artifact. -/
theorem ends_openAt (h : world.fs = .empty) : Ends env openAt.run (fun result _ world' ↦
    result = .ok () → Stocked ∅ world'.fs) (world, peer) := by
  have hmake : ∀ (paths : List FilePath) (world : World) (peer : Peer),
      Ends env (paths.forM fun path ↦
        (fileCall (.createDirAll path)).context (Error.createDir path)).run (fun result _ world' ↦
          result = .ok () → world'.fs = paths.foldl FileSystem.createDirAll world.fs)
        (world, peer) := by
    intro paths
    induction paths with
    | nil => exact fun world peer ↦ ends_done fun _ ↦ rfl
    | cons path paths ih =>
      intro world peer
      rw [List.forM_eq_forM, List.forM_cons, ← List.forM_eq_forM]
      refine safe_bind (safe_context (ends_call fun answer site hop ↦ ?_))
      obtain ⟨-, rfl, rfl⟩ | ⟨rfl, rfl⟩ := of_step_createDirAll hop
      · exact ends_done fun heq ↦ absurd heq (by rintro ⟨⟩)
      · have hrest := ih { world with fs := world.fs.createDirAll path } peer
        exact ends_done hrest
  refine (hmake _ world peer).imp ?_
  rintro result peer' world' - hfs rfl
  rw [hfs rfl, h]
  have hdirs : ([[], [artifacts], [staging]].foldl FileSystem.createDirAll FileSystem.empty).dirs
      = {[], [artifacts], [staging]} := by decide +kernel
  refine ⟨⟨?_, fun _ hlink ↦ absurd hlink Finmap.notMem_empty, fun shard name hdir ↦ ?_,
    fun _ _ hlink ↦ absurd hlink Finmap.notMem_empty⟩, fun path ↦ ⟨?_, ?_⟩⟩
  · rw [hdirs]
    simp
  · rw [hdirs] at hdir
    simp at hdir
  · rintro ⟨_, _, _, hlink⟩
    exact absurd hlink Finmap.notMem_empty
  · rintro ⟨_, hurl, -⟩
    exact absurd hurl (Set.notMem_empty _)

/-- A scan of such a tree reports its artifacts, each once, and nothing else. -/
theorem ends_scan_stocked [Crates] (h : Stocked urls world.fs) :
    Ends env Store.scan.run (fun result _ _ ↦ ∀ scan, result = .ok scan →
      scan.artifacts.Nodup ∧ (∀ url, url ∈ scan.artifacts ↔ url ∈ urls) ∧ scan.unrecognized = [])
      (world, peer) := by
  refine (ends_scan h.toPayload).imp ?_
  rintro result peer' world' - ⟨rfl, rfl, hresult⟩ scan rfl
  obtain ⟨paths, hnodup, hpaths, rfl⟩ := hresult
  have hplaced : Placed world'.fs := by
    intro path url hholds hurl
    obtain ⟨url', -, rfl⟩ := (h.mem path).mp hholds
    rw [urlOf_path, Option.some.injEq] at hurl
    rw [hurl]
  have hnone : paths.filter (urlOf · = none) = [] := by
    refine List.filter_eq_nil_iff.mpr fun path hpath ↦ ?_
    obtain ⟨url, -, rfl⟩ := (h.mem path).mp ((hpaths path).mp hpath)
    simp [urlOf_path]
  refine ⟨?_, fun url ↦ ?_, hnone⟩
  · refine List.Nodup.of_map Store.path ?_
    rw [map_path_artifacts (fun path hpath ↦ (hpaths path).mp hpath) hplaced]
    exact hnodup.filter _
  · rw [mem_artifacts hpaths hplaced, ← inTree_path, h.mem]
    constructor
    · rintro ⟨url', hurl', heq⟩
      rwa [path_injective heq]
    · exact fun hurl ↦ ⟨url, hurl, rfl⟩

end Store

/-! ## The four owners of a name -/

section Agreement

variable [Crates]

/-- What the router, the store, a scan and the renderer make of an artifact's name agrees. -/
structure NamesAgree : Prop where
  /-- A name is parsed as what it was rendered from. -/
  parse : ∀ url : NarUrl, NarUrl.parse url.name = .ok url
  /-- A URL resolves to the artifact. -/
  route : ∀ url : NarUrl, Route.resolve ('/' :: url.url) = .ok (.nar url)
  /-- A file at the path of a URL is taken for that artifact. -/
  file : ∀ url, Store.urlOf (Store.path url) = some url
  /-- On a directory that was empty a scan reports exactly the URLs that were committed. -/
  scans : ∀ (env : Env) (puts : List (List Bytes × NarUrl)) (world world₁ world₂ world₃ : World)
    (peer peer₁ peer₂ peer₃ : Peer) (committed : List NarUrl) (scan : Store.Scan),
    world.fs = .empty →
    Store.openAt.run.Runs (step env) (world, peer) (.ok ()) (world₁, peer₁) →
    (Store.putAll puts).run.Runs (step env) (world₁, peer₁) (.ok committed) (world₂, peer₂) →
    Store.scan.run.Runs (step env) (world₂, peer₂) (.ok scan) (world₃, peer₃) →
    scan.artifacts.Nodup ∧ (∀ url, url ∈ scan.artifacts ↔ url ∈ committed) ∧ scan.unrecognized = []
  injective : Function.Injective Store.path
  confined : ∀ url, Store.Confined url
  /-- However a target spells the digest, it resolves to the same artifact. -/
  spelled : ∀ (url : NarUrl) (target : Text), url.Requests target →
    Route.resolve target = .ok (.nar url)

theorem names_agree (hhex : Crates.HexDecodes) (hbase64 : Crates.Base64Standard) :
    NamesAgree where
  parse := NarUrl.parse_name
  route url := Route.resolve_of_requests hhex hbase64 (NarUrl.requests_url url)
  file := Store.urlOf_path
  scans := by
    -- what a fresh directory holds after the puts is what a scan of it finds
    intro env puts world world₁ world₂ world₃ peer peer₁ peer₂ peer₃ committed scan hempty hopen
      hput hscan
    have hopened := (Store.ends_openAt hempty).runs hopen rfl
    obtain ⟨committed', heq, hstocked⟩ := (Store.ends_putAll hopened puts).runs hput
    obtain rfl := Except.ok.inj heq
    rw [Set.empty_union] at hstocked
    exact (Store.ends_scan_stocked hstocked).runs hscan scan rfl
  injective := Store.path_injective
  confined := Store.confined
  spelled _ _ := Route.resolve_of_requests hhex hbase64

end Agreement

open Codecs in
theorem names_agree_codecs : NamesAgree := names_agree hexDecodes base64Standard

end Bincache
