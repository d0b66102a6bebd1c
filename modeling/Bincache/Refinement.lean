import Bincache.Catalogue
import Bincache.Changes

/-!
# The cache is a catalogue

`View.catalogue` reads a catalogue off the two tables and the artifacts: what is held is what the
artifacts decompress to, what is known is what the rows of NARs name, what is listed is what the
records say. It is defined where the index says what is true, which is in every state of every life.

Every step of every life is then a few of the things that can be done to a catalogue, or nothing: no
crash, no race and no interrupted command does anything else. A step of a server is only what a
server may do, so that nothing goes while one runs.
-/

namespace Bincache

section

variable [Crates] {contents : Set Bytes} {dir : Dir} {view view' : View}

/-! ## The catalogue of a view -/

/-- What the artifact under a URL decompresses to. -/
def View.decoded (view : View) (url : NarUrl) : Option Bytes :=
  (view.artifact url).bind fun file ↦ Crates.zstdDecode file.data

/-- A record of this NAR, as a listing. -/
def NarInfo.listing (record : NarInfo) (nar : Bytes) (signer : SecretKey) : Listing where
  storePath := record.storePath
  nar := nar
  references := record.references
  deriver := record.deriver
  ca := record.ca
  signer := signer

def View.known (view : View) (narHash : Sha256) : Option Bytes :=
  (view.nar narHash).bind fun entry ↦ view.decoded entry.url

def View.listed (view : View) (key : StorePath.Hash) : Option Listing := do
  let record ← view.narinfo key
  let nar ← view.decoded record.nar
  let signer ← view.signer key
  return record.listing nar signer

theorem Entry.Names.decoded {entry : Entry} {narHash : Sha256} {data nar : Bytes}
    (h : entry.Names narHash view.tree data nar) : view.decoded entry.url = some nar := by
  have hpresent : view.artifact entry.url = some (.of data) := h.present
  rw [View.decoded, hpresent]
  exact h.decodes

/-- An honest row names a NAR that has its hash and its size. -/
theorem Entry.Honest.decoded {entry : Entry} {narHash : Sha256}
    (h : entry.Honest narHash view.tree) :
    ∃ nar, view.decoded entry.url = some nar ∧ .digest nar = narHash
      ∧ nar.length = entry.narSize := by
  obtain ⟨data, nar, h⟩ := h
  exact ⟨nar, h.decoded, h.narHash, h.narSize⟩

theorem View.known_eq_some {narHash : Sha256} {nar : Bytes} :
    view.known narHash = some nar
      ↔ ∃ entry, view.nar narHash = some entry ∧ view.decoded entry.url = some nar := by
  rw [View.known, Option.bind_eq_some_iff]

theorem View.listed_eq_some {key : StorePath.Hash} {listing : Listing} :
    view.listed key = some listing ↔ ∃ record nar signer, view.narinfo key = some record
      ∧ view.decoded record.nar = some nar ∧ view.signer key = some signer
      ∧ listing = record.listing nar signer := by
  simp only [View.listed, Option.bind_eq_bind, Option.bind_eq_some_iff, Option.pure_def,
    Option.some.injEq]
  constructor
  · rintro ⟨record, hrecord, nar, hnar, signer, hsigner, rfl⟩
    exact ⟨record, nar, signer, hrecord, hnar, hsigner, rfl⟩
  · rintro ⟨record, nar, signer, hrecord, hnar, hsigner, rfl⟩
    exact ⟨record, hrecord, nar, hnar, signer, hsigner, rfl⟩

/-- What a view comes to, where the index says what is true. -/
def View.catalogue (view : View) (h : Consistent dir view) : Catalogue where
  held := {nar | ∃ url, view.decoded url = some nar}
  known := view.known
  listed := view.listed
  known_held := by
    intro narHash nar hknown
    obtain ⟨entry, -, hdecoded⟩ := View.known_eq_some.mp hknown
    exact ⟨_, hdecoded⟩
  known_digest := by
    intro narHash nar hknown
    obtain ⟨entry, hrow, hdecoded⟩ := View.known_eq_some.mp hknown
    obtain ⟨nar', hdecoded', hdigest, -⟩ := (h.entries narHash entry hrow).decoded
    obtain rfl := Option.some.inj (hdecoded.symm.trans hdecoded')
    exact hdigest
  listed_held := by
    intro key listing hlisted
    obtain ⟨record, nar, signer, -, hdecoded, -, rfl⟩ := View.listed_eq_some.mp hlisted
    exact ⟨_, hdecoded⟩
  listed_key := by
    intro key listing hlisted
    obtain ⟨record, nar, signer, hrow, -, -, rfl⟩ := View.listed_eq_some.mp hlisted
    exact h.keyed key record hrow

theorem Consistent.listed (h : Consistent dir view) {key : StorePath.Hash} {record : NarInfo}
    (hrow : view.narinfo key = some record) : ∃ nar signer,
    view.listed key = some (record.listing nar signer) ∧ view.decoded record.nar = some nar
      ∧ .digest nar = record.narHash ∧ nar.length = record.narSize
      ∧ record.SignedBy dir signer := by
  obtain ⟨nar, hdecoded, hdigest, hsize⟩ := (h.records key record hrow).decoded
  obtain ⟨signer, hsigner, hsigned⟩ := h.signed key record hrow
  exact ⟨nar, signer, View.listed_eq_some.mpr ⟨record, nar, signer, hrow, hdecoded, hsigner, rfl⟩,
    hdecoded, hdigest, hsize, hsigned⟩

/-! ## What each change does to it -/

variable {h : Consistent dir view} {h' : Consistent dir view'}

theorem View.catalogue_commit {level : ℤ} {chunks : List Bytes} {artifact : Bytes}
    (hround : Crates.EncoderRoundTrips) (hgrows : view.Grows view')
    (hcompress : Crates.compress level chunks = some artifact)
    (hview : view' = view.commit ⟨.digest artifact, storedAs⟩ (.of artifact)) :
    view'.catalogue h' = (view.catalogue h).hold chunks.flatten := by
  have hdecoded : ∀ url nar, view.decoded url = some nar → view'.decoded url = some nar := by
    intro url nar hnar
    obtain ⟨file, hfile, hfilenar⟩ := Option.bind_eq_some_iff.mp hnar
    exact Option.bind_eq_some_iff.mpr ⟨file, hgrows _ _ hfile, hfilenar⟩
  have hfresh : view'.decoded ⟨.digest artifact, storedAs⟩ = some chunks.flatten := by
    rw [View.decoded, hview, View.artifact_commit, if_pos rfl]
    exact hround _ _ _ hcompress
  have hnarinfo : view'.narinfo = view.narinfo := by rw [hview]; rfl
  have hnar : view'.nar = view.nar := by rw [hview]; rfl
  have hsigner : view'.signer = view.signer := by rw [hview]; rfl
  apply Catalogue.ext
  · ext nar
    constructor
    · rintro ⟨url, hurl⟩
      by_cases hsame : url = ⟨.digest artifact, storedAs⟩
      · rw [hsame, hfresh] at hurl
        exact .inl (Option.some.inj hurl).symm
      · rw [View.decoded, hview, View.artifact_commit, if_neg hsame] at hurl
        exact .inr ⟨url, hurl⟩
    · rintro (rfl | ⟨url, hurl⟩)
      · exact ⟨_, hfresh⟩
      · exact ⟨url, hdecoded url nar hurl⟩
  · funext narHash
    change view'.known narHash = view.known narHash
    rw [View.known, View.known, hnar]
    rcases hrow : view.nar narHash with - | entry
    · rfl
    · obtain ⟨nar, hold, -⟩ := (h.entries narHash entry hrow).decoded
      exact (hdecoded _ _ hold).trans hold.symm
  · funext key
    change view'.listed key = view.listed key
    rw [View.listed, View.listed, hnarinfo, hsigner]
    rcases hrow : view.narinfo key with - | record
    · rfl
    · obtain ⟨nar, hold, -⟩ := (h.records key record hrow).decoded
      rw [NarInfo.url_entry] at hold
      simp only [Option.bind_eq_bind, Option.bind_some, hold, hdecoded _ _ hold]

variable (h h') in
theorem View.catalogue_putNar {narHash : Sha256} {entry : Entry}
    (hview : view' = view.putNar narHash entry) :
    ∃ (nar : Bytes) (hheld : nar ∈ (view.catalogue h).held),
      view'.catalogue h' = (view.catalogue h).learn nar hheld := by
  have hrow : view'.nar narHash = some entry := by
    rw [hview]
    exact Function.update_self ..
  obtain ⟨nar, hdecoded, rfl, -⟩ := (h'.entries narHash entry hrow).decoded
  subst hview
  have hheld : view.decoded entry.url = some nar := hdecoded
  refine ⟨nar, ⟨_, hheld⟩, Catalogue.ext rfl (funext fun narHash' ↦ ?_) rfl⟩
  change (view.putNar (.digest nar) entry).known narHash'
    = Function.update view.known (.digest nar) (some nar) narHash'
  rw [Function.update_apply]
  by_cases hsame : narHash' = .digest nar
  · rw [if_pos hsame, hsame, View.known, hrow]
    exact hheld
  · have hother : (view.putNar (.digest nar) entry).nar narHash' = view.nar narHash' :=
      Function.update_of_ne hsame ..
    rw [if_neg hsame, View.known, hother]
    rfl

theorem View.listed_publish {record : NarInfo} {key : SecretKey} {nar : Bytes}
    (hdecoded : view.decoded record.nar = some nar) :
    (view.publish record key).listed
      = Function.update view.listed record.storePath.hash (some (record.listing nar key)) := by
  funext key'
  rw [Function.update_apply]
  split
  · next hsame =>
    refine View.listed_eq_some.mpr ⟨record, nar, key, ?_, hdecoded, ?_, rfl⟩
    · rw [hsame]
      exact Function.update_self ..
    · rw [hsame]
      exact Function.update_self ..
  · next hsame =>
    have hnarinfo : (view.publish record key).narinfo key' = view.narinfo key' :=
      Function.update_of_ne hsame ..
    have hsigner : (view.publish record key).signer key' = view.signer key' :=
      Function.update_of_ne hsame ..
    rw [View.listed, View.listed, hnarinfo, hsigner]
    rfl

variable (h h') in
theorem View.catalogue_publish {record : NarInfo} {key : SecretKey}
    (hknown : (view.nar record.narHash).isSome) (hview : view' = view.publish record key) :
    ∃ (listing : Listing) (hheld : listing.nar ∈ (view.catalogue h).held),
      ((view.catalogue h).known (.digest listing.nar)).isSome
        ∧ view'.catalogue h' = (view.catalogue h).list listing hheld := by
  have hrow : view'.narinfo record.storePath.hash = some record := by
    rw [hview]
    exact Function.update_self ..
  obtain ⟨nar, hdecoded, hdigest, -⟩ := (h'.records _ record hrow).decoded
  subst hview
  have hheld : view.decoded record.nar = some nar := hdecoded
  refine ⟨record.listing nar key, ⟨_, hheld⟩, ?_,
    Catalogue.ext rfl rfl (View.listed_publish hheld)⟩
  obtain ⟨entry, hentry⟩ := Option.isSome_iff_exists.mp hknown
  obtain ⟨nar', hdecoded', -⟩ := (h.entries _ entry hentry).decoded
  change (view.known (.digest nar)).isSome
  rw [hdigest, View.known_eq_some.mpr ⟨entry, hentry, hdecoded'⟩]
  rfl

theorem View.catalogue_unpublish {key : StorePath.Hash} (hview : view' = view.unpublish key) :
    view'.catalogue h' = (view.catalogue h).forget key := by
  subst hview
  rw [Catalogue.forget]
  rcases hrow : view.narinfo key with - | record
  · have hsame : view.unpublish key = view := by rw [View.unpublish, hrow]
    have hnone : (view.catalogue h).listed key = none := by
      change view.listed key = none
      rw [View.listed, hrow]
      rfl
    rw [hnone]
    dsimp only
    congr 1
  obtain ⟨nar, signer, hlisted, hdecoded, hdigest, -⟩ := h.listed hrow
  have hsome : (view.catalogue h).listed key = some (record.listing nar signer) := hlisted
  have hview : view.unpublish key = { view with
      narinfo := Function.update view.narinfo key none
      nar := Function.update view.nar record.narHash none } := by
    rw [View.unpublish, hrow]
  have hdec : (view.unpublish key).decoded = view.decoded := by
    funext url
    rw [View.decoded, hview]
    rfl
  rw [hsome]
  apply Catalogue.ext
  · ext nar'
    change (∃ url, (view.unpublish key).decoded url = some nar') ↔ _
    rw [hdec]
    rfl
  · funext narHash
    change (view.unpublish key).known narHash
      = Function.update view.known (.digest nar) none narHash
    rw [hdigest, View.known, hdec, hview]
    dsimp only
    rw [Function.update_apply, Function.update_apply]
    split
    · rfl
    · rfl
  · funext key'
    change (view.unpublish key).listed key' = Function.update view.listed key none key'
    rw [View.listed, hdec, hview]
    dsimp only
    rw [Function.update_apply, Function.update_apply]
    split
    · rfl
    · rfl

/-- Signed anew, a record of one view is one of the next as well. -/
private theorem View.Renews.publish {record record' : NarInfo} {key : SecretKey}
    (h : view.Renews dir key record) (h' : view.Renews dir key record') :
    (view.publish record' key).Renews dir key record := by
  obtain ⟨old, hrow, rfl⟩ := h
  obtain ⟨old', hrow', rfl⟩ := h'
  by_cases hsame : old.storePath.hash = old'.storePath.hash
  · -- Both stand for one row, which has been signed by now.
    rw [NarInfo.storePath_resign] at hrow hrow'
    obtain rfl := Option.some.inj (hrow.symm.trans (hsame ▸ hrow'))
    exact ⟨old.resign dir key, Function.update_self .., (NarInfo.resign_resign ..).symm⟩
  · exact ⟨old, (Function.update_of_ne hsame ..).trans hrow, rfl⟩

theorem View.catalogue_resign (hverify : Crates.SignaturesVerify) (h : Consistent dir view)
    {record : NarInfo} {key : SecretKey} (hrenews : view.Renews dir key record) :
    ∃ h' : Consistent dir (view.publish record key),
      (view.publish record key).catalogue h'
        = (view.catalogue h).sign record.storePath.hash key := by
  obtain ⟨old, hrow, rfl⟩ := hrenews
  rw [NarInfo.storePath_resign] at hrow ⊢
  have hhonest := h.records _ old hrow
  obtain ⟨nar, signer, hlisted, hdecoded, -⟩ := h.listed hrow
  have hdecoded' : view.decoded (old.resign dir key).nar = some nar := hdecoded
  refine ⟨h.publish hhonest (signedBy_resign hverify old dir key), Catalogue.ext rfl rfl ?_⟩
  refine (View.listed_publish hdecoded').trans ?_
  have hmap : (view.listed old.storePath.hash).map (·.signedBy key)
      = some ((old.resign dir key).listing nar key) := by rw [hlisted]; rfl
  rw [← hmap]
  rfl

theorem View.catalogue_resignAll (hverify : Crates.SignaturesVerify) (h : Consistent dir view)
    {key : SecretKey} (records : List NarInfo)
    (hrenews : ∀ record ∈ records, view.Renews dir key record) :
    ∃ h' : Consistent dir (records.foldl (·.publish · key) view),
      Catalogue.Steps (view.catalogue h)
        ((records.foldl (·.publish · key) view).catalogue h') := by
  induction records generalizing view with
  | nil => exact ⟨h, .refl⟩
  | cons record records ih =>
    have hfirst := hrenews record List.mem_cons_self
    obtain ⟨h₁, hsign⟩ := View.catalogue_resign hverify h hfirst
    obtain ⟨h₂, hrest⟩ := ih h₁ fun record' hmem ↦
      (hrenews record' (List.mem_cons_of_mem record hmem)).publish hfirst
    refine ⟨h₂, .head ?_ hrest⟩
    rw [hsign]
    exact .sign _ key

/-! ## Steps -/

/-- What a server does to a view, it does to the catalogue. -/
theorem View.Served.simulates (hround : Crates.EncoderRoundTrips)
    (hfree : Crates.CollisionFree contents) (haddressed : Addressed contents view.tree)
    (h : Consistent dir view) (h' : Consistent dir view') (hserved : view.Served contents view') :
    Catalogue.Serves (view.catalogue h) (view'.catalogue h') := by
  cases hserved with
  | stay => exact .refl
  | commit hmem hcompress =>
    rw [View.catalogue_commit (h := h) hround (haddressed.grows_commit hfree hmem) hcompress rfl]
    exact .single (.hold _)
  | putNar narHash entry =>
    obtain ⟨nar, hheld, heq⟩ := View.catalogue_putNar h h' rfl
    rw [heq]
    exact .single (.learn hheld)
  | publish record key hknown =>
    obtain ⟨listing, hheld, hlisted, heq⟩ := View.catalogue_publish h h' hknown rfl
    rw [heq]
    exact .single (.list hheld hlisted)

theorem View.Change.simulates (hround : Crates.EncoderRoundTrips)
    (hverify : Crates.SignaturesVerify) (hfree : Crates.CollisionFree contents)
    (haddressed : Addressed contents view.tree) (h : Consistent dir view)
    (h' : Consistent dir view') (hchange : View.Change contents dir view view') :
    Catalogue.Steps (view.catalogue h) (view'.catalogue h') := by
  cases hchange with
  | served hserved => exact (hserved.simulates hround hfree haddressed h h').steps
  | unpublish key =>
    rw [View.catalogue_unpublish (h := h) rfl]
    exact .single (.forget key)
  | resign key records hrenews =>
    obtain ⟨_, hsteps⟩ := View.catalogue_resignAll hverify h records hrenews
    exact hsteps

namespace Shared

variable {ι : Type} [DecidableEq ι] {system system' : System ι (Shared ι)}

/-- What is known of the directory in every state of every life. -/
theorem order_of_steps (hround : Crates.EncoderRoundTrips) (hverify : Crates.SignaturesVerify)
    (hfree : Crates.CollisionFree contents)
    (hsteps : System.Steps (machine contents) dir ⟨blank, none⟩ system) :
    Order contents dir system.shared :=
  (keeps hround hverify hfree).reachable order_blank hsteps

/-- **Forward simulation.** From any state of any life to any later one, through crashes, restarts,
commands and every interleaving, the catalogue takes only the steps that a catalogue takes. -/
theorem simulates_of_steps (hround : Crates.EncoderRoundTrips)
    (hverify : Crates.SignaturesVerify) (hfree : Crates.CollisionFree contents)
    (hsteps : System.Steps (machine contents) dir ⟨blank, none⟩ system)
    (hlater : System.Steps (machine contents) dir system system') :
    ∃ (h : Consistent dir system.shared.view) (h' : Consistent dir system'.shared.view),
      Catalogue.Steps (system.shared.view.catalogue h) (system'.shared.view.catalogue h') := by
  let R (view view' : View) : Prop := ∀ h : Consistent dir view, ∃ h' : Consistent dir view',
    Catalogue.Steps (view.catalogue h) (view'.catalogue h')
  have hR : R system.shared.view system'.shared.view := by
    refine related_of_steps (fun _ h ↦ ⟨h, .refl⟩) ?_ hsteps (fun ht ht' hchange h ↦ ?_) hlater
    · intro a b c hab hbc h
      obtain ⟨h₁, hsteps₁⟩ := hab h
      obtain ⟨h₂, hsteps₂⟩ := hbc h₁
      exact ⟨h₂, hsteps₁.trans hsteps₂⟩
    · have hfrom := order_of_steps hround hverify hfree ht
      have hto := order_of_steps hround hverify hfree ht'
      exact ⟨hto.consistent,
        hchange.simulates hround hverify hfree hfrom.addressed h hto.consistent⟩
  have h := (order_of_steps hround hverify hfree hsteps).consistent
  exact ⟨h, hR h⟩

/-- While a server runs, the catalogue takes only the steps of a server, so nothing goes. -/
theorem extends_of_serves (hround : Crates.EncoderRoundTrips)
    (hverify : Crates.SignaturesVerify) (hfree : Crates.CollisionFree contents)
    (hsteps : System.Steps (machine contents) dir ⟨blank, none⟩ system)
    (hserves : Relation.ReflTransGen (System.Serves (machine contents) dir) system system') :
    ∃ (h : Consistent dir system.shared.view) (h' : Consistent dir system'.shared.view),
      Catalogue.Serves (system.shared.view.catalogue h) (system'.shared.view.catalogue h')
      ∧ (system.shared.view.catalogue h).Extends (system'.shared.view.catalogue h') := by
  let R (view view' : View) : Prop := ∀ h : Consistent dir view, ∃ h' : Consistent dir view',
    Catalogue.Serves (view.catalogue h) (view'.catalogue h')
  have hR : R system.shared.view system'.shared.view := by
    refine related_of_serves (fun _ h ↦ ⟨h, .refl⟩) ?_ hsteps (fun ht ht' hserved h ↦ ?_) hserves
    · intro a b c hab hbc h
      obtain ⟨h₁, hsteps₁⟩ := hab h
      obtain ⟨h₂, hsteps₂⟩ := hbc h₁
      exact ⟨h₂, hsteps₁.trans hsteps₂⟩
    · have hfrom := order_of_steps hround hverify hfree ht
      have hto := order_of_steps hround hverify hfree ht'
      exact ⟨hto.consistent, hserved.simulates hround hfree hfrom.addressed h hto.consistent⟩
  have h := (order_of_steps hround hverify hfree hsteps).consistent
  obtain ⟨h', hcatalogue⟩ := hR h
  exact ⟨h, h', hcatalogue, hcatalogue.extends⟩

end Shared

end

section Specimen

open Specimen Shared

namespace Specimen

theorem known_first : first.bind (·.view.known ⟨narDigest⟩) = some nar := by
  simp only [first, serveAll, serveEach, Cache.session, Cache.turn, Cache.attend,
    Http.parse, Text.fromUtf8_eq_decode]
  decide +kernel

/-- The cache after its first upload, and once the record for it is published. -/
def followed : Option (Shared ℕ × Shared ℕ) := first.bind fun s ↦
  (serveEach [frame nar] plain cache [publication stem body] s).map (s, ·)

theorem catalogue_followed : followed.map (fun (s, s') ↦
      (s.view.known ⟨narDigest⟩, (s.view.listed path.hash).isSome,
        s'.view.known ⟨narDigest⟩, (s'.view.listed path.hash).isSome))
    = some (some nar, false, some nar, true) := by
  simp only [followed, first, serveAll, serveEach, Cache.session, Cache.turn, Cache.attend,
    Cache.handle, Cache.dispatch, Cache.publish, Http.parse, Text.fromUtf8_eq_decode]
  decide +kernel

theorem exists_followed : ∃ system system' : System ℕ (Shared ℕ),
    System.Steps (machine {frame nar}) dir ⟨blank, none⟩ system
      ∧ Relation.ReflTransGen (System.Serves (machine {frame nar}) dir) system system'
      ∧ system.shared.view.known ⟨narDigest⟩ = some nar
      ∧ system.shared.view.listed path.hash = none
      ∧ system'.shared.view.known ⟨narDigest⟩ = some nar
      ∧ (system'.shared.view.listed path.hash).isSome := by
  obtain ⟨⟨s, s'⟩, hfollowed, htold⟩ := Option.map_eq_some_iff.mp catalogue_followed
  obtain ⟨hknown, htold⟩ := Prod.mk.inj htold
  obtain ⟨hunlisted, htold⟩ := Prod.mk.inj htold
  obtain ⟨hknown', hlisted⟩ := Prod.mk.inj htold
  obtain ⟨s, hs, hlater⟩ := Option.bind_eq_some_iff.mp hfollowed
  obtain ⟨_, hs', hsame⟩ := Option.map_eq_some_iff.mp hlater
  obtain ⟨rfl, rfl⟩ := Prod.mk.inj hsame
  obtain ⟨booted, threads, hsteps, -, hdone, hserves⟩ := serves_of_serveAll mem_frame hs
  obtain ⟨threads', -, hserves'⟩ := serves_of_serveEach mem_frame hdone hs'
  exact ⟨_, _, hsteps.trans (steps_of_serves hserves), hserves', hknown,
    Option.isNone_iff_eq_none.mp (Option.isSome_eq_false_iff.mp hunlisted), hknown', hlisted⟩

end Specimen

/-- A life up to its first record: the catalogue knows the NAR, and lists the path. -/
theorem simulates_followed : ∃ (system : System ℕ (Shared ℕ))
    (h : Consistent dir (blank : Shared ℕ).view) (h' : Consistent dir system.shared.view),
    (system.shared.view.catalogue h').known ⟨narDigest⟩ = some nar
      ∧ ((system.shared.view.catalogue h').listed path.hash).isSome
      ∧ Catalogue.Steps ((blank : Shared ℕ).view.catalogue h)
        (system.shared.view.catalogue h') := by
  obtain ⟨system, system', hsteps, hserves, -, -, hknown, hlisted⟩ := exists_followed
  obtain ⟨h, h', hcatalogue⟩ := simulates_of_steps encoderRoundTrips signaturesVerify
    collisionFree_frame .refl (hsteps.trans (steps_of_serves hserves))
  exact ⟨system', h, h', hknown, hlisted, hcatalogue⟩

/-- The server of that life, from its first upload on. -/
theorem extends_followed : ∃ (system system' : System ℕ (Shared ℕ))
    (h : Consistent dir system.shared.view) (h' : Consistent dir system'.shared.view),
    (system.shared.view.catalogue h).known ⟨narDigest⟩ = some nar
      ∧ (system.shared.view.catalogue h).listed path.hash = none
      ∧ ((system'.shared.view.catalogue h').listed path.hash).isSome
      ∧ Catalogue.Serves (system.shared.view.catalogue h) (system'.shared.view.catalogue h')
      ∧ (system.shared.view.catalogue h).Extends (system'.shared.view.catalogue h') := by
  obtain ⟨system, system', hsteps, hserves, hknown, hunlisted, -, hlisted⟩ := exists_followed
  obtain ⟨h, h', hextends⟩ := extends_of_serves encoderRoundTrips signaturesVerify
    collisionFree_frame hsteps hserves
  exact ⟨system, system', h, h', hknown, hunlisted, hlisted, hextends⟩

end Specimen

end Bincache
