import Bincache.Lib.Text

/-!
# Byte ranges

A single range resolved against a known artifact length. A header that cannot be understood is
ignored, and several ranges are answered with the whole body. -/

namespace Bincache

namespace Range

/-- A resolved byte span, inclusive on both sides. -/
structure Span where
  first : ℕ
  last : ℕ
deriving DecidableEq, Repr

def Span.len (span : Span) : ℕ := span.last - span.first + 1

/-- What the client asked for, against a known length. -/
inductive Requested
  | whole
  | part (span : Span)
  | unsatisfiable
deriving DecidableEq, Repr

/-- `bytes=-N`: the final `N` bytes. -/
def suffix (last : Text) (length : ℕ) : Requested :=
  match Text.parseU64 last with
  | none => .whole
  | some wanted =>
    if wanted = 0 then .unsatisfiable else .part ⟨length - wanted, length - 1⟩

/-- Where a range that starts at `first` ends. -/
def lastOf (last : Text) (length : ℕ) : Option ℕ :=
  if last = [] then some (length - 1) else (Text.parseU64 last).map fun last ↦ min last (length - 1)

def resolve (header : Option Text) (length : ℕ) : Requested :=
  match header.bind fun header ↦ Text.stripPrefix "bytes=".toList (Text.trim header) with
  | none => .whole
  | some set =>
    if ',' ∈ set then .whole
    else
      match Text.splitOnce ['-'] set with
      | none => .whole
      | some (first, last) =>
        if first = [] then suffix last length
        else
          match Text.parseU64 first with
          | none => .whole
          | some first =>
            if length ≤ first then .unsatisfiable
            else
              match lastOf last length with
              | none => .whole
              | some last => if last < first then .unsatisfiable else .part ⟨first, last⟩

theorem lastOf_lt {last : Text} {length n : ℕ} (hlength : 0 < length)
    (h : lastOf last length = some n) : n < length := by
  rw [lastOf] at h
  split at h
  · have := Option.some.inj h
    omega
  · obtain ⟨m, -, rfl⟩ := Option.map_eq_some_iff.mp h
    omega

theorem resolve_part {header : Option Text} {length : ℕ} {span : Span} (hlength : 0 < length)
    (h : resolve header length = .part span) : span.first ≤ span.last ∧ span.last < length := by
  rw [resolve] at h
  repeat' split at h
  all_goals try cases h
  · rw [suffix] at h
    repeat' split at h
    all_goals cases h
    exact ⟨by dsimp only; omega, by dsimp only; omega⟩
  · next hlast hge =>
    exact ⟨by dsimp only; omega, lastOf_lt hlength hlast⟩

end Range

end Bincache
