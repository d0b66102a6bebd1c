import Bincache.KeyText
import Bincache.Refinement
import Bincache.Serve.Granted
import Bincache.Siblings
import Mathlib.Data.Bool.AllAny

/-!
# What a client is told

A client knows a path and a public key, and nothing of what is inside the cache. What it gets for
its three kinds of request is what the catalogue has. The text of a record says what is listed, and
is signed under the key that vouches for it; what is under the URL of the record is the NAR, also
after a crash, a rotation or a deletion in between; and an existence check says whether a NAR is
known, so that a client that was told so can publish without uploading.

`Replies` is what a request is answered with when nothing fails. The text of a record can be read
only if its `CA` does not end in a carriage return and the name of the key that signed it is one
line.
-/

namespace Bincache

section

variable [Crates] {contents : Set Bytes} {dir : Dir}

/-! ## Artifacts stay -/

theorem Encoded.grows_commit {view : View} (h : Encoded contents view.tree)
    (hfree : Crates.CollisionFree contents) {artifact : Bytes} (hmem : artifact ∈ contents) :
    view.Grows (view.commit ⟨.digest artifact, storedAs⟩ (.of artifact)) := by
  have haddressed : Addressed contents view.tree := by
    intro url file hfile
    obtain ⟨-, -, data, hdata, -, rfl, rfl⟩ := h url file hfile
    exact ⟨data, hdata, rfl, rfl⟩
  exact haddressed.grows_commit hfree hmem

/-- Nothing that is done to a view touches an artifact that is there. -/
theorem View.Change.grows {view view' : View} (hencoded : Encoded contents view.tree)
    (hfree : Crates.CollisionFree contents) (h : View.Change contents dir view view') :
    view.Grows view' := by
  cases h with
  | served h =>
    cases h with
    | stay => exact fun _ _ hfile ↦ hfile
    | commit hmem hcompress => exact hencoded.grows_commit hfree hmem
    | putNar narHash entry => exact fun _ _ hfile ↦ hfile
    | publish record key => exact fun _ _ hfile ↦ hfile
  | unpublish key =>
    have htree : (view.unpublish key).tree = view.tree := by
      rw [View.unpublish]
      split
      · rfl
      · rfl
    rw [View.Grows, htree]
    exact fun _ _ hfile ↦ hfile
  | resign key records hrenews =>
    rw [View.Grows, Shared.tree_publishAll]
    exact fun _ _ hfile ↦ hfile

/-- An artifact that was ever there is there in every later state of every life, with the same
bytes. -/
theorem Shared.grows_of_steps {ι : Type} [DecidableEq ι] {system system' : System ι (Shared ι)}
    (hfree : Crates.CollisionFree contents)
    (hsteps : System.Steps (machine contents) dir ⟨blank, none⟩ system)
    (hlater : System.Steps (machine contents) dir system system') :
    system.shared.view.Grows system'.shared.view :=
  related_of_steps (fun _ _ _ hfile ↦ hfile)
    (fun hab hbc path file hfile ↦ hbc path file (hab path file hfile)) hsteps
    (fun ht _ hchange ↦ hchange.grows (encoded_of_steps ht) hfree) hlater

/-! ## What can be said of every record -/

/-- The fields of a record but its signatures can be said in a body. -/
def NarInfo.Worded (record : NarInfo) (dir : Dir) : Prop :=
  Sayable { record with sigs := [] } dir

theorem NarInfo.Worded.resign {record : NarInfo} (h : record.Worded dir) (key : SecretKey) :
    (record.resign dir key).Worded dir :=
  ⟨h.dir, h.fileSize, h.narSize, fun _ hmem ↦ absurd hmem (by simp), h.ca⟩

/-- Sizes and records can be said. -/
structure Legible (dir : Dir) (view : View) : Prop where
  entries : ∀ narHash entry, view.nar narHash = some entry → entry.fileSize < 2 ^ 64
  records : ∀ key record, view.narinfo key = some record → record.Worded dir

theorem lasting_legible (hsmall : ∀ data ∈ contents, data.length < 2 ^ 64) :
    View.Lasting contents dir (Legible dir) fun record ↦ record.Worded dir where
  commit h _ := ⟨h.entries, h.records⟩
  putNar := by
    rintro view artifact narHash narSize h hmem
    refine ⟨fun narHash' entry hrow ↦ ?_, h.records⟩
    rw [View.putNar] at hrow
    dsimp only at hrow
    rw [Function.update_apply] at hrow
    split at hrow
    · obtain rfl := Option.some.inj hrow
      exact hsmall artifact hmem
    · exact h.entries narHash' entry hrow
  publishable := by
    rintro view ingest body declared entry h rfl hpublishable
    have hdeclared := (NarInfo.sayable_of_parse hpublishable.parsed).1
    exact ⟨hdeclared.dir, h.entries _ entry hpublishable.stored, hdeclared.narSize,
      fun _ hmem ↦ absurd hmem (by simp), hdeclared.ca⟩
  resigned key h hrow := (h.records _ _ hrow).resign key
  publish := by
    rintro view record key h hrecord
    refine ⟨h.entries, fun key' record' hrow ↦ ?_⟩
    rw [View.publish] at hrow
    dsimp only at hrow
    rw [Function.update_apply] at hrow
    split at hrow
    · obtain rfl := Option.some.inj hrow
      exact hrecord
    · exact h.records key' record' hrow
  unpublish := by
    rintro view k h
    rw [View.unpublish]
    split
    · exact h
    · exact ⟨fun narHash entry hrow ↦ h.entries narHash entry (of_update_none hrow),
        fun key record hrow ↦ h.records key record (of_update_none hrow)⟩

/-! ## Targets -/

theorem Route.resolve_narinfo (key : StorePath.Hash) :
    resolve ('/' :: (key.render ++ NarInfo.suffix)) = .ok (.narinfo key) := by
  have halphabet : ∀ c ∈ Base32.alphabet, c ≠ '?' ∧ c ≠ '#' ∧ c ≠ '/' :=
    List.all_iff_forall_prop.mp (by decide)
  have hsuffix : ∀ c ∈ NarInfo.suffix, c ≠ '?' ∧ c ≠ '#' ∧ c ≠ '/' :=
    List.all_iff_forall_prop.mp (by decide)
  have hname : ∀ c ∈ key.render ++ NarInfo.suffix, c ≠ '?' ∧ c ≠ '#' ∧ c ≠ '/' := by
    intro c hc
    rcases List.mem_append.mp hc with hc | hc
    · obtain ⟨d, hd, rfl⟩ := Base32.encode_mem hc
      have hlen : d < Base32.alphabet.length := hd
      refine halphabet _ ?_
      rw [List.getD_eq_getElem _ _ hlen]
      exact List.getElem_mem hlen
    · exact hsuffix c hc
  have hpath : ∀ c ∈ '/' :: (key.render ++ NarInfo.suffix), c ≠ '?' ∧ c ≠ '#' := by
    intro c hc
    rcases List.mem_cons.mp hc with rfl | hc
    · decide
    · exact ⟨(hname c hc).1, (hname c hc).2.1⟩
  have htake : ('/' :: (key.render ++ NarInfo.suffix)).takeWhile (fun c ↦ c ≠ '?' ∧ c ≠ '#')
      = '/' :: (key.render ++ NarInfo.suffix) :=
    List.takeWhile_eq_self_iff.mpr fun c hc ↦ decide_eq_true (hpath c hc)
  -- a fixed name does not end the way a record does, and no slash is left to begin `nar/`
  have hfixed : ∀ name : Text, Text.stripSuffix NarInfo.suffix name = none →
      key.render ++ NarInfo.suffix ≠ name := by
    rintro name hnone rfl
    rw [Text.stripSuffix_eq_some.mpr rfl] at hnone
    cases hnone
  have hprefix : Text.stripPrefix NarUrl.pathPrefix (key.render ++ NarInfo.suffix) = none := by
    rcases hstrip : Text.stripPrefix NarUrl.pathPrefix (key.render ++ NarInfo.suffix) with - | rest
    · rfl
    have hslash : '/' ∈ key.render ++ NarInfo.suffix := by
      rw [Text.stripPrefix_eq_some.mp hstrip]
      exact List.mem_append_left _ (by decide)
    exact absurd rfl (hname '/' hslash).2.2
  rw [resolve, htake]
  have hstrip : Text.stripPrefix ['/'] ('/' :: (key.render ++ NarInfo.suffix))
      = some (key.render ++ NarInfo.suffix) := Text.stripPrefix_append ['/'] _
  rw [hstrip]
  dsimp only
  rw [if_neg (hfixed _ (by decide)), if_neg (hfixed _ (by decide)), hprefix,
    Text.stripSuffix_eq_some.mpr rfl]
  dsimp only
  rw [StorePath.Hash.parse_render]
  rfl

/-! ## Replies -/

namespace Cache

open Handler Response

variable {cache : Cache} {exchange : Exchange} {world : World}

/-- What a request is answered with when nothing fails: this message, which leaves the index and the
files as they were. -/
structure Replies (cache : Cache) (exchange : Exchange) (world : World) (message : Message) :
    Prop where
  whole : message.Whole exchange.request.method
  answered : ∀ peer, ∃ result site',
    (cache.handle exchange).run.Runs (step .fair) (world, peer) result site'
  written : ∀ peer result site',
    (cache.handle exchange).run.Runs (step .fair) (world, peer) result site' →
      site'.2.written = peer.written ++ message.bytes ∧ Steady world site'.1

theorem replies_of_readMessage {message : Message} (hmethod : exchange.request.method ≠ .put)
    (hwhole : message.Whole exchange.request.method)
    (hmessage : readMessage cache exchange (world.bump exchange.shard .requests 1) = message) :
    Replies cache exchange world message := by
  refine ⟨hwhole, fun peer ↦ ?_, fun peer result site' hrun ↦ ?_⟩
  · exact exists_runs_fair (cache.handle exchange).run (world, peer)
  · obtain ⟨-, hsteady, -, hresult⟩ := (ends_handle_read hmethod (world, peer)).runs hrun
    rw [hmessage] at hresult
    refine ⟨?_, hsteady⟩
    rcases result with error | value
    · exact absurd hresult.1 (by decide)
    · exact hresult.2

variable {key : StorePath.Hash} {url : NarUrl}

structure AsksRecord (exchange : Exchange) (key : StorePath.Hash) : Prop where
  method : exchange.request.method = .get
  framing : exchange.request.framing ≠ .chunked
  target : exchange.request.target = '/' :: (key.render ++ NarInfo.suffix)

/-- A client asks for all of an artifact. -/
structure AsksArtifact (exchange : Exchange) (url : NarUrl) : Prop where
  method : exchange.request.method = .get
  framing : exchange.request.framing ≠ .chunked
  target : exchange.request.target = '/' :: url.url
  range : exchange.request.range = none

/-- A client checks whether a NAR is known. -/
structure AsksKnown (exchange : Exchange) (narHash : Sha256) : Prop where
  method : exchange.request.method = .head
  framing : exchange.request.framing ≠ .chunked
  target : exchange.request.target = '/' :: NarUrl.url ⟨narHash, .none⟩

theorem AsksRecord.replies (h : AsksRecord exchange key) (cache : Cache) (world : World) :
    Replies cache exchange world (narinfoMessage cache exchange (world.index.narinfo key)) := by
  refine replies_of_readMessage (by rw [h.method]; exact Http.Method.noConfusion) ?_ ?_
  · rcases world.index.narinfo key with - | record
    · exact whole_bareMessage Status.noConfusion _ _
    · exact whole_pageMessage exchange.request _ (by decide)
  · rw [readMessage, if_neg h.framing, h.target, Route.resolve_narinfo]
    rfl

theorem AsksArtifact.replies (h : AsksArtifact exchange url) (cache : Cache) {data : Bytes}
    (hdata : data ≠ []) (hfile : world.fs.lookup (Store.path url) = some (.of data)) :
    ∃ message, Replies cache exchange world message ∧ message.reply.status = .ok
      ∧ message.body = data := by
  have hsize : (File.of data).size ≠ 0 := fun hsize ↦ hdata (List.length_eq_zero_iff.mp hsize)
  have hlen : (⟨0, (File.of data).size - 1⟩ : Range.Span).len = (File.of data).size := by
    rw [Range.Span.len]
    dsimp only
    omega
  let message := spanMessage exchange.request (.of data) ⟨0, (File.of data).size - 1⟩
  have hbody : message.body = data := by
    dsimp only [message, spanMessage]
    rw [hlen, List.drop_zero]
    exact List.take_length
  have hwhole : message.Whole exchange.request.method := by
    refine ⟨final_spanMessage _ _ _, fun hhead ↦ ?_, fun _ ↦ ?_⟩
    · rw [h.method] at hhead
      exact absurd hhead Http.Method.noConfusion
    · rw [hbody]
      exact hlen.symm
  refine ⟨message, replies_of_readMessage ?_ hwhole ?_, if_neg (not_not.mpr hlen), hbody⟩
  · rw [h.method]
    exact Http.Method.noConfusion
  · rw [readMessage, if_neg h.framing, h.target, Route.resolve_url]
    dsimp only
    have hlookup : (world.bump exchange.shard .requests 1).fs.lookup (Store.path url)
        = some (.of data) := hfile
    rw [if_neg (by rw [h.method]; exact Http.Method.noConfusion), hlookup, streamMessage,
      if_neg hsize, h.range]
    rfl

theorem AsksKnown.replies {narHash : Sha256} (h : AsksKnown exchange narHash) (cache : Cache)
    (world : World) :
    Replies cache exchange world
      (probeMessage exchange ((world.index.nar narHash).map fun entry ↦ entry.narSize)) := by
  refine replies_of_readMessage (by rw [h.method]; exact Http.Method.noConfusion) ?_ ?_
  · rw [h.method]
    exact whole_probeMessage _ _
  · rw [readMessage, if_neg h.framing, h.target, Route.resolve_url]
    dsimp only
    rw [if_pos h.method]
    rfl

end Cache

/-! ## Pulling a path -/

/-- The text of a listing can be read: it was signed under a name that can stand in a line in front
of a colon, and no carriage return at the end of its `CA` is lost. -/
structure Listing.Readable (listing : Listing) : Prop where
  nonempty : listing.signer.name ≠ []
  colon : ':' ∉ listing.signer.name
  line : '\n' ∉ listing.signer.name
  ca : ∀ ca, listing.ca = some ca → ca.getLast? ≠ some '\r'

/-- A record tells what is listed, and bears a signature of whoever vouches for it. A client that
keeps references as a set can verify it if none is repeated. -/
structure Listing.ToldBy (listing : Listing) (dir : Dir) (record : NarInfo) : Prop where
  storePath : record.storePath = listing.storePath
  references : record.references = listing.references
  deriver : record.deriver = listing.deriver
  ca : record.ca = listing.ca
  narHash : record.narHash = .digest listing.nar
  narSize : (record.narSize : ℕ) = listing.nar.length
  signature : ∃ signature, record.sigs = [signature]
    ∧ listing.signer.publicHalf.verify (record.fingerprint dir) signature = .ok ()
    ∧ (record.references.Nodup →
      listing.signer.publicHalf.verify (record.clientFingerprint dir) signature = .ok ())

/-- The data is what a record says of its artifact, and decompresses to the NAR. -/
structure NarInfo.Packs (record : NarInfo) (data nar : Bytes) : Prop where
  fileHash : .digest data = record.fileHash
  fileSize : data.length = record.fileSize
  decodes : Crates.zstdDecode data = some nar

/-- What a client finds out that asks for a record: that there is none, or, where it can be read, a
text that tells what is listed and a URL under which the NAR is found, in any of the later worlds
and whatever server runs there. -/
def Cache.Pulls (cache : Cache) (exchange : Exchange) (dir : Dir) (world : World)
    (later : Set World) : Option Listing → Prop
  | none => ∃ message, Replies cache exchange world message ∧ message.reply.status = .notFound
  | some listing => ∃ message record, Replies cache exchange world message
    ∧ message.reply.status = .ok ∧ message.body = Text.utf8 (record.render dir)
    ∧ listing.ToldBy dir record
    ∧ (listing.Readable → NarInfo.parse (record.render dir) dir = .ok record)
    ∧ ∀ world' ∈ later, ∀ cache' asking, AsksArtifact asking record.nar →
      ∃ message', Replies cache' asking world' message' ∧ message'.reply.status = .ok
        ∧ record.Packs message'.body listing.nar

theorem PublicKey.name_of_verify {key : PublicKey} {fingerprint : Text} {signature : Signature}
    (h : key.verify fingerprint signature = .ok ()) : signature.name = key.name := by
  by_contra hname
  rw [verify, if_neg hname] at h
  cases h

theorem NarInfo.parse_of_worded (hbase64 : Crates.Base64RoundTrips) {record : NarInfo}
    {listing : Listing} (hworded : record.Worded dir) (htold : listing.ToldBy dir record)
    (hreadable : listing.Readable) : parse (record.render dir) dir = .ok record := by
  obtain ⟨signature, hsigs, hverifies, -⟩ := htold.signature
  have hname : signature.name = listing.signer.name := PublicKey.name_of_verify hverifies
  have hsayable : record.Sayable dir := by
    refine ⟨hworded.dir, hworded.fileSize, hworded.narSize, ?_, hworded.ca⟩
    rw [hsigs]
    refine List.forall_mem_singleton.mpr ⟨?_, ?_, ?_⟩
    · rw [hname]
      exact hreadable.nonempty
    · rw [hname]
      exact hreadable.colon
    · rw [hname]
      exact hreadable.line
  have hchomp : record.ca.map Text.chomp = record.ca := by
    rcases hca : record.ca with - | ca
    · rfl
    · exact congrArg some (Text.chomp_eq_self_iff.mpr
        (hreadable.ca ca (htold.ca.symm.trans hca)))
  have hback := parse_render hbase64 hsayable
  rw [hchomp] at hback
  exact hback

namespace Shared

open Cache

variable {ι : Type} [DecidableEq ι] {system system' : System ι (Shared ι)} {cache : Cache}
  {exchange : Exchange}

/-- **Pulling.** In every state of every life a client that asks for a path is told what the
catalogue lists, and finds the NAR under the URL it was told, at any later time. -/
theorem pulls_of_steps (cache : Cache) (hround : Crates.EncoderRoundTrips)
    (hverify : Crates.SignaturesVerify) (hemits : Crates.EncoderEmits)
    (hbase64 : Crates.Base64RoundTrips)
    (hfree : Crates.CollisionFree contents) (hsmall : ∀ data ∈ contents, data.length < 2 ^ 64)
    (hsteps : System.Steps (machine contents) dir ⟨blank, none⟩ system)
    (hdir : cache.ingest.dir = dir) {key : StorePath.Hash} (hasks : AsksRecord exchange key) :
    ∃ h : Consistent dir system.shared.view,
      cache.Pulls exchange dir system.shared.1
        {world | ∃ system', System.Steps (machine contents) dir system system'
          ∧ world = system'.shared.1}
        ((system.shared.view.catalogue h).listed key) := by
  have h := (order_of_steps hround hverify hfree hsteps).consistent
  have hlegible : Legible dir system.shared.view := by
    refine lasting_of_steps (lasting_legible hsmall) ?_ hsteps
    exact ⟨fun _ _ hrow ↦ absurd hrow (by simp [view, blank]),
      fun _ _ hrow ↦ absurd hrow (by simp [view, blank])⟩
  have hreplies := hasks.replies cache system.shared.1
  refine ⟨h, ?_⟩
  change cache.Pulls exchange dir system.shared.1 _ (system.shared.view.listed key)
  have hnarinfo : system.shared.1.index.narinfo key = system.shared.view.narinfo key := rfl
  rw [hnarinfo] at hreplies
  rcases hrow : system.shared.view.narinfo key with - | record
  · rw [hrow] at hreplies
    rw [View.listed, hrow]
    exact ⟨_, hreplies, rfl⟩
  rw [hrow] at hreplies
  obtain ⟨data, nar', hnames⟩ := h.records key record hrow
  obtain ⟨nar, signer, hlisted, hdecoded, hdigest, hsize, signature, hsigs, hverifies⟩ :=
    h.listed hrow
  obtain rfl : nar' = nar := Option.some.inj (hnames.decoded.symm.trans hdecoded)
  have htold : (record.listing nar' signer).ToldBy dir record := by
    refine ⟨rfl, rfl, rfl, rfl, hdigest.symm, hsize.symm, signature, hsigs, hverifies, ?_⟩
    intro hnodup
    rw [← (NarInfo.fingerprint_eq_client_iff record dir).mpr hnodup]
    exact hverifies
  rw [hlisted]
  refine ⟨_, record, hreplies, rfl, ?_, htold,
    NarInfo.parse_of_worded hbase64 (hlegible.records key record hrow) htold, ?_⟩
  · rw [← hdir]
    exact if_neg (by rw [hasks.method]; exact Http.Method.noConfusion)
  · rintro world' ⟨system', hlater, rfl⟩ cache' asking hasking
    have hpresent := grows_of_steps hfree hsteps hlater _ _ hnames.present
    have hdata : data ≠ [] := by
      have hfilled := (encoded_of_steps (hsteps.trans hlater)).filled hemits
      have hlookup : system'.shared.1.fs.lookup (Store.path record.nar) = some (.of data) := by
        rw [← artifact_view]
        exact hpresent
      exact fun hnil ↦ hfilled _ _ hlookup (congrArg List.length hnil)
    obtain ⟨message', hreplies', hstatus, hbody⟩ :=
      hasking.replies cache' hdata ((artifact_view ..).symm.trans hpresent)
    refine ⟨message', hreplies', hstatus, ?_⟩
    rw [hbody]
    exact ⟨hnames.fileHash, hnames.fileSize, hnames.decodes⟩

end Shared

/-! ## Checking and publishing -/

namespace Cache

variable {cache : Cache} {exchange : Exchange}

/-- The bytes that the peer is about to send are a body that is admitted, is short enough and
parses. -/
structure Offers (cache : Cache) (exchange : Exchange) (peer : Peer) (declared : NarInfo) :
    Prop where
  method : exchange.request.method = .put
  route : ∃ key, Route.resolve exchange.request.target = .ok (.narinfo key)
  admitted : cache.admission exchange.request = .admitted
  body : ∃ text rest, exchange.request.framing = .length (Text.utf8 text).length
    ∧ exchange.connection.stream peer = Text.utf8 text ++ rest
    ∧ (Text.utf8 text).length ≤ Http.metadataBodyMax
    ∧ NarInfo.parse text cache.ingest.dir = .ok declared

/-- The push is acknowledged, and what it declares is published. -/
def Enlists (cache : Cache) (exchange : Exchange) (site : Site) (declared : NarInfo) : Prop :=
  ∀ result site', (cache.handle exchange).run.Runs (step .fair) site result site' →
    Acknowledged cache exchange site.2 site'.2
      ∧ ∃ record, site'.1.index.narinfo declared.storePath.hash = some record
        ∧ Retains declared record

/-- A push of a NAR that was received is acknowledged. -/
theorem Offers.enlists {world : World} {peer : Peer} {declared : NarInfo} {entry : Entry}
    (h : Offers cache exchange peer declared)
    (hrow : world.index.nar declared.narHash = some entry)
    (hsize : entry.narSize = declared.narSize) :
    Enlists cache exchange (world, peer) declared := by
  obtain ⟨key, hroute⟩ := h.route
  obtain ⟨text, rest, hframing, hstream, hlength, hparse⟩ := h.body
  have hpublishable : cache.ingest.Publishable world.index.nar text declared entry :=
    ⟨hparse, hrow, hsize⟩
  have hdecoded := Text.fromUtf8_utf8 text
  intro result site' hrun
  obtain ⟨-, -, hreason⟩ | ⟨declared', entry', ⟨-, text', htext', hpublishable'⟩, ⟨stats, hworld⟩,
    hack⟩ := (ends_put_narinfo h.method hroute h.admitted hframing hstream).runs hrun
  · exact absurd ⟨hlength, text, hdecoded, hpublishable⟩
      (hreason.resolve_left (by decide) declared entry)
  obtain rfl := Option.some.inj (hdecoded.symm.trans htext')
  obtain ⟨rfl, rfl⟩ := hpublishable.unique hpublishable'
  refine ⟨hack.resolve_left (by decide), cache.ingest.record declared' entry', ?_, ?_⟩
  · rw [hworld]
    exact (Index.narinfo_publish _ _ _).trans (if_pos rfl)
  · exact ⟨rfl, rfl, rfl, rfl, rfl, rfl⟩

/-- What a client finds out that checks for a NAR: that it is not known, or its length, so that in
any of the later worlds it can publish the NAR without sending it. -/
def Probes (cache : Cache) (exchange : Exchange) (world : World) (later : Set World)
    (narHash : Sha256) : Option Bytes → Prop
  | none => ∃ message, Replies cache exchange world message ∧ message.reply.status = .notFound
  | some nar => ∃ message, Replies cache exchange world message ∧ message.reply.status = .ok
    ∧ message.reply.length = nar.length
    ∧ ∀ world' ∈ later, ∀ pushing peer declared, Offers cache pushing peer declared →
      declared.narHash = narHash → declared.narSize = message.reply.length →
        Enlists cache pushing (world', peer) declared

end Cache

theorem Entry.Names.mem_nars {entry : Entry} {narHash : Sha256} {view : View} {data nar : Bytes}
    (h : entry.Names narHash view.tree data nar) (hencoded : Encoded contents view.tree) :
    nar ∈ {nar | ∃ data ∈ contents, Crates.zstdDecode data = some nar} := by
  obtain ⟨-, -, artifact, hartifact, -, -, hfile⟩ := hencoded _ _ h.present
  obtain rfl : data = artifact := congrArg File.data hfile
  exact ⟨data, hartifact, h.decodes⟩

namespace Shared

open Cache

variable {ι : Type} [DecidableEq ι] {system system' : System ι (Shared ι)} {cache : Cache}
  {exchange : Exchange}

private theorem isSome_of_served {view view' : View} (hserved : view.Served contents view') :
    (∀ narHash, (view.nar narHash).isSome → (view'.nar narHash).isSome)
      ∧ ∀ key, (view.narinfo key).isSome → (view'.narinfo key).isSome := by
  cases hserved with
  | stay => exact ⟨fun _ ↦ id, fun _ ↦ id⟩
  | commit hmem hcompress => exact ⟨fun _ ↦ id, fun _ ↦ id⟩
  | putNar narHash' entry =>
    refine ⟨fun narHash h ↦ ?_, fun _ ↦ id⟩
    rw [View.putNar]
    dsimp only
    rw [Function.update_apply]
    split
    · rfl
    · exact h
  | publish record key =>
    refine ⟨fun _ ↦ id, fun key' h ↦ ?_⟩
    rw [View.publish]
    dsimp only
    rw [Function.update_apply]
    split
    · rfl
    · exact h

/-- As long as a server runs, every NAR stays known, under its size, and every path listed. -/
theorem standing_of_serves (hround : Crates.EncoderRoundTrips)
    (hverify : Crates.SignaturesVerify) (hfree : Crates.CollisionFree contents)
    (hnars : Crates.CollisionFree {nar | ∃ data ∈ contents, Crates.zstdDecode data = some nar})
    (hsteps : System.Steps (machine contents) dir ⟨blank, none⟩ system)
    (hserves : Relation.ReflTransGen (System.Serves (machine contents) dir) system system') :
    Standing system.shared.1 system'.shared.1 := by
  let R (view view' : View) : Prop :=
    (∀ narHash, (view.nar narHash).isSome → (view'.nar narHash).isSome)
      ∧ ∀ key, (view.narinfo key).isSome → (view'.narinfo key).isSome
  have hR : R system.shared.view system'.shared.view := by
    refine related_of_serves (fun _ ↦ ⟨fun _ ↦ id, fun _ ↦ id⟩) (fun hab hbc ↦ ?_) hsteps ?_ hserves
    · exact ⟨fun narHash ↦ hbc.1 narHash ∘ hab.1 narHash, fun key ↦ hbc.2 key ∘ hab.2 key⟩
    · exact fun _ _ hserved ↦ isSome_of_served hserved
  refine ⟨fun narHash entry hrow ↦ ?_, hR.2⟩
  have hsteps' := hsteps.trans (steps_of_serves hserves)
  have hsome : (system.shared.view.nar narHash).isSome := Option.isSome_iff_exists.mpr ⟨_, hrow⟩
  obtain ⟨entry', hrow'⟩ := Option.isSome_iff_exists.mp (hR.1 narHash hsome)
  obtain ⟨data, nar, hnames⟩ :=
    (order_of_steps hround hverify hfree hsteps).consistent.entries narHash entry hrow
  obtain ⟨data', nar', hnames'⟩ :=
    (order_of_steps hround hverify hfree hsteps').consistent.entries narHash entry' hrow'
  -- the row may have been written again since, but for the same NAR
  obtain rfl : nar' = nar := Sha256.eq_of_digest_eq hnars
    (hnames'.mem_nars (encoded_of_steps hsteps')) (hnames.mem_nars (encoded_of_steps hsteps))
    (hnames'.narHash.trans hnames.narHash.symm)
  exact ⟨entry', hrow', PNat.coe_injective (hnames'.narSize.symm.trans hnames.narSize)⟩

/-- **The existence check.** A client that was told the length of a NAR can publish it, as long as
the server runs that told it so. -/
theorem probes_of_steps (cache : Cache) (hround : Crates.EncoderRoundTrips)
    (hverify : Crates.SignaturesVerify) (hfree : Crates.CollisionFree contents)
    (hnars : Crates.CollisionFree {nar | ∃ data ∈ contents, Crates.zstdDecode data = some nar})
    (hsteps : System.Steps (machine contents) dir ⟨blank, none⟩ system)
    {narHash : Sha256} (hasks : AsksKnown exchange narHash) :
    ∃ h : Consistent dir system.shared.view,
      cache.Probes exchange system.shared.1
        {world | ∃ system', Relation.ReflTransGen (System.Serves (machine contents) dir) system
          system' ∧ world = system'.shared.1} narHash
        ((system.shared.view.catalogue h).known narHash) := by
  have h := (order_of_steps hround hverify hfree hsteps).consistent
  have hreplies := hasks.replies cache system.shared.1
  have hnar : system.shared.1.index.nar narHash = system.shared.view.nar narHash := rfl
  rw [hnar] at hreplies
  refine ⟨h, ?_⟩
  change cache.Probes exchange system.shared.1 _ narHash (system.shared.view.known narHash)
  rcases hrow : system.shared.view.nar narHash with - | entry
  · rw [hrow] at hreplies
    rw [View.known, hrow]
    exact ⟨_, hreplies, rfl⟩
  rw [hrow] at hreplies
  obtain ⟨data, nar, hnames⟩ := h.entries narHash entry hrow
  have hknown : system.shared.view.known narHash = some nar :=
    View.known_eq_some.mpr ⟨entry, hrow, hnames.decoded⟩
  rw [hknown]
  refine ⟨_, hreplies, rfl, hnames.narSize.symm, ?_⟩
  rintro world' ⟨system', hserves, rfl⟩ pushing peer declared hoffers rfl hsize
  obtain ⟨entry', hrow', hsize'⟩ := (standing_of_serves hround hverify hfree hnars hsteps
    hserves).nar declared.narHash entry hrow
  exact hoffers.enlists hrow' (hsize'.trans (PNat.coe_injective hsize.symm))

end Shared

end

section Specimen

open Codecs Shared Cache
open Specimen (artifact body cache dir entry frame frameDigest mem_frame nar narDigest path plain
  publication request stem token upload)

namespace Codecs

private theorem emitted_eq (absorbed : Bytes) (chunks : List Bytes) :
    @Crates.emitted crates absorbed chunks = some (frame (absorbed ++ chunks.flatten)) := by
  induction chunks generalizing absorbed with
  | nil => simp [Crates.emitted, Crates.encoderFinish]
  | cons chunk chunks ih =>
    have := ih (absorbed ++ chunk)
    rw [List.append_assoc] at this
    simp [Crates.emitted, Crates.encoderWrite, this]

private theorem eq_frame {level : ℤ} {chunks : List Bytes} {artifact : Bytes}
    (h : Crates.compress level chunks = some artifact) : artifact = frame chunks.flatten :=
  (Option.some.inj ((emitted_eq [] chunks).symm.trans h)).symm

theorem encoderRoundTrips : Crates.EncoderRoundTrips := by
  intro level chunks artifact h
  rw [eq_frame h]
  rfl

theorem encoderEmits : Crates.EncoderEmits := by
  intro level chunks artifact h
  rw [eq_frame h]
  exact List.append_ne_nil_of_left_ne_nil (List.cons_ne_nil _ _) _

theorem signaturesVerify : Crates.SignaturesVerify := Specimen.signaturesVerify

theorem collisionFree_frame : Crates.CollisionFree {frame nar} := by
  rintro _ rfl _ rfl -
  rfl

def published : Option (Shared ℕ) := serveAll [frame nar] plain cache 7
  [upload, publication stem body] blank

theorem listed_published : published.map (fun s ↦
      (s.view.listed path.hash).map fun listing ↦ (listing.nar, listing.signer.name, listing.ca))
    = some (some (nar, ['k'], none)) := by
  simp only [published, serveAll, serveEach, Cache.session, Cache.turn, Cache.attend, Cache.handle,
    Cache.dispatch, Cache.publish, Http.parse, Text.fromUtf8_eq_decode]
  decide +kernel

end Codecs

/-- What a client is told of the path that was published. -/
theorem pulls_published : ∃ (system : System ℕ (Shared ℕ)) (h : Consistent dir system.shared.view)
    (listing : Listing), (system.shared.view.catalogue h).listed path.hash = some listing
      ∧ listing.nar = nar ∧ listing.Readable
      ∧ cache.Pulls ⟨0, {}, request .get ('/' :: (path.hash.render ++ NarInfo.suffix)) .empty⟩ dir
        system.shared.1 {world | ∃ system', System.Steps (machine {frame nar}) dir system system'
          ∧ world = system'.shared.1} (some listing) := by
  obtain ⟨s, hs, hlisted⟩ := Option.map_eq_some_iff.mp Codecs.listed_published
  obtain ⟨listing, hlisting, htold⟩ := Option.map_eq_some_iff.mp hlisted
  obtain ⟨hnar, hname, hca⟩ : listing.nar = nar ∧ listing.signer.name = ['k']
      ∧ listing.ca = none := by
    obtain ⟨hnar, hrest⟩ := Prod.mk.inj htold
    exact ⟨hnar, Prod.mk.inj hrest⟩
  obtain ⟨threads, hsteps⟩ := steps_of_serveAll mem_frame hs
  have hasks : AsksRecord
      ⟨0, {}, request .get ('/' :: (path.hash.render ++ NarInfo.suffix)) .empty⟩ path.hash :=
    ⟨rfl, Http.Framing.noConfusion, rfl⟩
  obtain ⟨h, hpulls⟩ := pulls_of_steps cache Codecs.encoderRoundTrips
    Codecs.signaturesVerify Codecs.encoderEmits Codecs.base64Standard.toBase64RoundTrips
    Codecs.collisionFree_frame (by rintro _ rfl; decide) hsteps rfl hasks
  have hcatalogue : (s.view.catalogue h).listed path.hash = some listing := hlisting
  refine ⟨_, h, listing, hcatalogue, hnar, ?_, hcatalogue ▸ hpulls⟩
  refine ⟨?_, ?_, ?_, fun ca hsome ↦ ?_⟩
  · rw [hname]
    decide
  · rw [hname]
    decide
  · rw [hname]
    decide
  · rw [hca] at hsome
    cases hsome

end Specimen

section Specimen

open Specimen Shared Cache

theorem Specimen.collisionFree_nars : Crates.CollisionFree (insert nar
    {nar' | ∃ data ∈ ({frame nar} : Set Bytes), Crates.zstdDecode data = some nar'}) := by
  rintro a (rfl | ⟨_, rfl, ha⟩) b (rfl | ⟨_, rfl, hb⟩) -
  · rfl
  · exact Option.some.inj hb
  · exact (Option.some.inj ha).symm
  · exact Option.some.inj (ha.symm.trans hb)

/-- What a client is told of the NAR that was uploaded. -/
theorem probes_first : ∃ (system : System ℕ (Shared ℕ)) (h : Consistent dir system.shared.view),
    (system.shared.view.catalogue h).known ⟨narDigest⟩ = some nar
      ∧ cache.Probes ⟨0, {}, request .head ('/' :: NarUrl.url ⟨⟨narDigest⟩, .none⟩) .empty⟩
        system.shared.1 {world | ∃ system', Relation.ReflTransGen
          (System.Serves (machine {frame nar}) dir) system system' ∧ world = system'.shared.1}
        ⟨narDigest⟩ (some nar) := by
  obtain ⟨s, hs, hknown⟩ := Option.bind_eq_some_iff.mp known_first
  obtain ⟨threads, hsteps⟩ := steps_of_serveAll mem_frame hs
  have hasks : AsksKnown ⟨0, {}, request .head ('/' :: NarUrl.url ⟨⟨narDigest⟩, .none⟩) .empty⟩
      ⟨narDigest⟩ := ⟨rfl, Http.Framing.noConfusion, rfl⟩
  obtain ⟨h, hprobes⟩ := probes_of_steps cache encoderRoundTrips signaturesVerify
    collisionFree_frame (collisionFree_nars.mono (Set.subset_insert _ _)) hsteps hasks
  have hcatalogue : (s.view.catalogue h).known ⟨narDigest⟩ = some nar := hknown
  exact ⟨_, h, hcatalogue, hcatalogue ▸ hprobes⟩

end Specimen

end Bincache
