import Bincache.Core.NarInfo

/-!
# Routes

The request target is decoded into typed values before anything downstream runs. The query string is
dropped.
-/

namespace Bincache

inductive Route
  | cacheInfo
  | metrics
  | narinfo (key : StorePath.Hash)
  | nar (url : NarUrl)
deriving DecidableEq

namespace Route

def cacheInfoTarget : Text := "nix-cache-info".toList

def metricsTarget : Text := "metrics".toList

inductive Error
  | relative (target : Text)
  | unknown (target : Text)
  | key (source : StorePath.Error)
  | nar (source : NarUrl.Error)
deriving DecidableEq

def resolve [Crates] (target : Text) : Except Error Route :=
  match Text.stripPrefix ['/'] (target.takeWhile fun c ↦ c ≠ '?' ∧ c ≠ '#') with
  | none => throw (.relative target)
  | some path =>
    if path = cacheInfoTarget then pure .cacheInfo
    else if path = metricsTarget then pure .metrics
    else
      match Text.stripPrefix NarUrl.pathPrefix path with
      | some name => (.nar <$> NarUrl.parse name).mapError .nar
      | none =>
        match Text.stripSuffix NarInfo.suffix path with
        | some key => (.narinfo <$> StorePath.Hash.parse key).mapError .key
        | none => throw (.unknown target)

end Route

end Bincache
