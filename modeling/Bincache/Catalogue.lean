import Bincache.Core.Hash
import Bincache.Core.Sign
import Bincache.Core.StorePath
import Mathlib.Logic.Function.Basic
import Mathlib.Logic.Relation

/-!
# What a cache is for

A binary cache keeps the bytes of NARs, knows some of them by hash so that nobody has to upload them
again, and lists store paths: which NAR a path has, what it refers to, who vouches for it. This file
says so without index, file, encoder or connection. A `Catalogue` cannot list a path whose NAR it
does not hold, nor know a NAR under a hash that is not its own.

What a server does adds to a catalogue: it holds any bytes it is sent, knows by their hash what it
holds, and lists a path only while the hash of its NAR is known. Only an operator takes anything
away, and never the bytes. A path that is forgotten takes the hash of its NAR with it, which another
path may still be listed with.
-/

namespace Bincache

/-- What is published for a store path, as a client gets it. -/
structure Listing where
  storePath : StorePath
  /-- The bytes themselves: their hash and their size are no further choice. -/
  nar : Bytes
  references : List StorePath
  deriver : Option StorePath
  ca : Option Text
  signer : SecretKey

def Listing.signedBy (listing : Listing) (key : SecretKey) : Listing :=
  { listing with signer := key }

variable [Crates]

/-- NARs that are held, those that are known by hash, and the paths that are listed. -/
@[ext]
structure Catalogue where
  held : Set Bytes
  known : Sha256 → Option Bytes
  listed : StorePath.Hash → Option Listing
  known_held : ∀ {hash nar}, known hash = some nar → nar ∈ held
  known_digest : ∀ {hash nar}, known hash = some nar → Sha256.digest nar = hash
  listed_held : ∀ {key listing}, listed key = some listing → listing.nar ∈ held
  listed_key : ∀ {key listing}, listed key = some listing → listing.storePath.hash = key

namespace Catalogue

def empty : Catalogue where
  held := ∅
  known _ := none
  listed _ := none
  known_held h := absurd h (by simp)
  known_digest h := absurd h (by simp)
  listed_held h := absurd h (by simp)
  listed_key h := absurd h (by simp)

variable (catalogue : Catalogue)

/-! ## What can be done to it -/

/-- Holds another NAR, whatever its bytes are. -/
def hold (nar : Bytes) : Catalogue where
  held := insert nar catalogue.held
  known := catalogue.known
  listed := catalogue.listed
  known_held h := Set.mem_insert_of_mem _ (catalogue.known_held h)
  known_digest := catalogue.known_digest
  listed_held h := Set.mem_insert_of_mem _ (catalogue.listed_held h)
  listed_key := catalogue.listed_key

/-- Knows a NAR that is held by its hash. -/
def learn (nar : Bytes) (h : nar ∈ catalogue.held) : Catalogue where
  held := catalogue.held
  known := Function.update catalogue.known (.digest nar) (some nar)
  listed := catalogue.listed
  known_held := by
    intro hash nar' hknown
    rw [Function.update_apply] at hknown
    split at hknown
    · exact Option.some.inj hknown ▸ h
    · exact catalogue.known_held hknown
  known_digest := by
    intro hash nar' hknown
    rw [Function.update_apply] at hknown
    split at hknown
    · next hhash => rw [hhash, Option.some.inj hknown]
    · exact catalogue.known_digest hknown
  listed_held := catalogue.listed_held
  listed_key := catalogue.listed_key

/-- Lists a path whose NAR is held. -/
def list (listing : Listing) (h : listing.nar ∈ catalogue.held) : Catalogue where
  held := catalogue.held
  known := catalogue.known
  listed := Function.update catalogue.listed listing.storePath.hash (some listing)
  known_held := catalogue.known_held
  known_digest := catalogue.known_digest
  listed_held := by
    intro key listing' hlisted
    rw [Function.update_apply] at hlisted
    split at hlisted
    · exact Option.some.inj hlisted ▸ h
    · exact catalogue.listed_held hlisted
  listed_key := by
    intro key listing' hlisted
    rw [Function.update_apply] at hlisted
    split at hlisted
    · next hkey => rw [hkey, Option.some.inj hlisted]
    · exact catalogue.listed_key hlisted

omit [Crates] in
private theorem of_erased {α β : Type} [DecidableEq α] {f : α → Option β} {a a' : α} {b : β}
    (h : Function.update f a none a' = some b) : f a' = some b := by
  rw [Function.update_apply] at h
  split at h
  · exact absurd h (by simp)
  · exact h

/-- Forgets a path, and its NAR's hash with it, also when another path has the same NAR. The bytes
stay. -/
def forget (key : StorePath.Hash) : Catalogue :=
  match catalogue.listed key with
  | none => catalogue
  | some listing =>
    { held := catalogue.held
      known := Function.update catalogue.known (.digest listing.nar) none
      listed := Function.update catalogue.listed key none
      known_held := fun h ↦ catalogue.known_held (of_erased h)
      known_digest := fun h ↦ catalogue.known_digest (of_erased h)
      listed_held := fun h ↦ catalogue.listed_held (of_erased h)
      listed_key := fun h ↦ catalogue.listed_key (of_erased h) }

/-- Vouches for a path under another key. -/
def sign (key : StorePath.Hash) (signer : SecretKey) : Catalogue where
  held := catalogue.held
  known := catalogue.known
  listed := Function.update catalogue.listed key
    ((catalogue.listed key).map fun listing ↦ listing.signedBy signer)
  known_held := catalogue.known_held
  known_digest := catalogue.known_digest
  listed_held := by
    intro key' listing hlisted
    rw [Function.update_apply] at hlisted
    split at hlisted
    · obtain ⟨old, hold, rfl⟩ := Option.map_eq_some_iff.mp hlisted
      have hheld : old.nar ∈ catalogue.held := catalogue.listed_held hold
      exact hheld
    · exact catalogue.listed_held hlisted
  listed_key := by
    intro key' listing hlisted
    rw [Function.update_apply] at hlisted
    split at hlisted
    · next hkey =>
      obtain ⟨old, hold, rfl⟩ := Option.map_eq_some_iff.mp hlisted
      have hold : old.storePath.hash = key := catalogue.listed_key hold
      exact hold.trans hkey.symm
    · exact catalogue.listed_key hlisted

/-- What a server does. -/
inductive Serve : Catalogue → Catalogue → Prop
  | hold {catalogue : Catalogue} (nar : Bytes) : Serve catalogue (catalogue.hold nar)
  | learn {catalogue : Catalogue} {nar : Bytes} (h : nar ∈ catalogue.held) :
      Serve catalogue (catalogue.learn nar h)
  /-- What is known under the hash is that NAR, unless two NARs have one digest. -/
  | list {catalogue : Catalogue} {listing : Listing} (h : listing.nar ∈ catalogue.held)
      (hknown : (catalogue.known (.digest listing.nar)).isSome) :
      Serve catalogue (catalogue.list listing h)

/-- What a server or an operator does. -/
inductive Step : Catalogue → Catalogue → Prop
  | serve {catalogue catalogue' : Catalogue} (h : Serve catalogue catalogue') :
      Step catalogue catalogue'
  | forget {catalogue : Catalogue} (key : StorePath.Hash) : Step catalogue (catalogue.forget key)
  | sign {catalogue : Catalogue} (key : StorePath.Hash) (signer : SecretKey) :
      Step catalogue (catalogue.sign key signer)

abbrev Serves : Catalogue → Catalogue → Prop := Relation.ReflTransGen Serve

abbrev Steps : Catalogue → Catalogue → Prop := Relation.ReflTransGen Step

variable {catalogue} {catalogue' : Catalogue}

theorem Serves.steps (h : Serves catalogue catalogue') : Steps catalogue catalogue' :=
  Relation.ReflTransGen.mono (fun _ _ ↦ .serve) _ _ h

/-! ## What stays -/

/-- Nothing that a server does takes anything away. -/
structure Extends (catalogue catalogue' : Catalogue) : Prop where
  held : catalogue.held ⊆ catalogue'.held
  known : ∀ hash, (catalogue.known hash).isSome → (catalogue'.known hash).isSome
  listed : ∀ key, (catalogue.listed key).isSome → (catalogue'.listed key).isSome

theorem Serve.extends (h : Serve catalogue catalogue') : Extends catalogue catalogue' := by
  have hupdate : ∀ {α β : Type} [DecidableEq α] (f : α → Option β) (a a' : α) (b : β),
      (f a').isSome → (Function.update f a (some b) a').isSome := by
    intro α β _ f a a' b hsome
    rw [Function.update_apply]
    split
    · rfl
    · exact hsome
  cases h with
  | hold nar => exact ⟨Set.subset_insert _ _, fun _ h ↦ h, fun _ h ↦ h⟩
  | learn h => exact ⟨Set.Subset.refl _, fun hash ↦ hupdate _ _ hash _, fun _ h ↦ h⟩
  | list h hknown => exact ⟨Set.Subset.refl _, fun _ h ↦ h, fun key ↦ hupdate _ _ key _⟩

theorem Serves.extends (h : Serves catalogue catalogue') : Extends catalogue catalogue' := by
  induction h with
  | refl => exact ⟨Set.Subset.refl _, fun _ h ↦ h, fun _ h ↦ h⟩
  | tail _ hserve ih =>
    have hlast := hserve.extends
    exact ⟨ih.held.trans hlast.held, fun hash h ↦ hlast.known hash (ih.known hash h),
      fun key h ↦ hlast.listed key (ih.listed key h)⟩

theorem held_forget (key : StorePath.Hash) : (catalogue.forget key).held = catalogue.held := by
  rw [forget]
  split
  · rfl
  · rfl

theorem Steps.held (h : Steps catalogue catalogue') : catalogue.held ⊆ catalogue'.held := by
  induction h with
  | refl => exact Set.Subset.refl _
  | tail _ hstep ih =>
    refine ih.trans ?_
    cases hstep with
    | serve h => exact h.extends.held
    | forget key => exact (held_forget key).ge
    | sign key signer => exact Set.Subset.refl _

end Catalogue

end Bincache
