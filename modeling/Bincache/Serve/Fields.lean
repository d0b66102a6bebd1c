import Bincache.Serve.Http

/-!
# What a header line does

A header line is of one field at most, and all that `absorb` does with it is to write down the value
that it gives this field. Here this is said once, for all fields together; what a whole head comes
to, in one field or in all, is derived from it.

## Lines and fields

`valueOf` is the value that a line gives a field: the name counts up to letter case, and the value
without the white space around it. No two of the names that the parser knows are the same up to
case, so a line that gives one of the fields a value gives the others none. `Gives` says both.

## One step of the fold

`absorb_cases` inverts a step: the line is of one of the six fields, and the request is changed in
what that field says, or it is of none of them, and the request stays as it is. Where a line
overrides the ones before it, `Sets` is what it does to the field, and `Absorbs` says this of the
four fields that are of this kind. The two others, which delimit the body, are not read apart from
each other.
-/

namespace Bincache

namespace Http

/-! ## Fields -/

def contentLength : Text := "content-length".toList

def transferEncoding : Text := "transfer-encoding".toList

def connection : Text := "connection".toList

def expect : Text := "expect".toList

def range : Text := "range".toList

def authorization : Text := "authorization".toList

def fieldNames : List Text :=
  [contentLength, transferEncoding, connection, expect, range, authorization]

/-- The value that a line gives a field. -/
def valueOf (name line : Text) : Option Text :=
  match Text.splitOnce [':'] line with
  | none => none
  | some (spelled, rest) =>
    if Text.eqIgnoreAsciiCase spelled name then some (Text.trim rest) else none

/-- A line gives this value to this field, and none to any other. -/
def Gives (name line value : Text) : Prop :=
  valueOf name line = some value ∧ ∀ name' ∈ fieldNames.erase name, valueOf name' line = none

def keepAliveOf (value : Text) : KeepAlive :=
  if Text.eqIgnoreAsciiCase value "close".toList then .close else .keep

def expectationOf (value : Text) : Expectation :=
  if Text.eqIgnoreAsciiCase value "100-continue".toList then .continue else .none

/-! ## One line -/

private theorem eq_of_eqIgnoreAsciiCase {spelled name name' : Text} (hname : name ∈ fieldNames)
    (hname' : name' ∈ fieldNames) (h : Text.eqIgnoreAsciiCase spelled name = true)
    (h' : Text.eqIgnoreAsciiCase spelled name' = true) : name = name' := by
  have hdistinct : ∀ a ∈ fieldNames, ∀ b ∈ fieldNames,
      Text.eqIgnoreAsciiCase a b = true → a = b := by decide
  refine hdistinct _ hname _ hname' (beq_iff_eq.mpr ?_)
  exact (beq_iff_eq.mp h).symm.trans (beq_iff_eq.mp h')

private theorem valueOf_of_splitOnce {line spelled rest : Text}
    (h : Text.splitOnce [':'] line = some (spelled, rest)) (name : Text) : valueOf name line
      = if Text.eqIgnoreAsciiCase spelled name then some (Text.trim rest) else none := by
  rw [valueOf, h]

private theorem gives_of_splitOnce {name line spelled rest : Text}
    (h : Text.splitOnce [':'] line = some (spelled, rest)) (hname : name ∈ fieldNames)
    (heq : Text.eqIgnoreAsciiCase spelled name = true) : Gives name line (Text.trim rest) := by
  refine ⟨(valueOf_of_splitOnce h name).trans (if_pos heq), fun name' hmem ↦ ?_⟩
  obtain ⟨hne, hname'⟩ := (List.Nodup.mem_erase_iff (by decide)).mp hmem
  refine (valueOf_of_splitOnce h name').trans (if_neg fun heq' ↦ hne ?_)
  exact eq_of_eqIgnoreAsciiCase hname' hname heq' heq

/-- A line that is absorbed is of one of the six fields and sets that one, or is of none. -/
theorem absorb_cases {request request' : Request} {line : Text}
    (h : absorb request line = .ok request') : ':' ∈ line
      ∧ ((∃ value n, Gives contentLength line value ∧ Text.parseU64 value = some n
          ∧ request.framing ≠ .chunked ∧ request' = { request with framing := .length n })
        ∨ (∃ value, Gives transferEncoding line value ∧ (∀ n, request.framing ≠ .length n)
          ∧ request' = { request with framing := .chunked })
        ∨ (∃ value, Gives connection line value
          ∧ request' = { request with keepAlive := keepAliveOf value })
        ∨ (∃ value, Gives expect line value
          ∧ request' = { request with expectation := expectationOf value })
        ∨ (∃ value, Gives range line value ∧ request' = { request with range := some value })
        ∨ (∃ value, Gives authorization line value
          ∧ request' = { request with authorization := some value })
        ∨ (∀ name ∈ fieldNames, valueOf name line = none) ∧ request' = request) := by
  rw [absorb] at h
  rcases hsplit : Text.splitOnce [':'] line with - | ⟨spelled, rest⟩
  · rw [hsplit] at h
    cases h
  rw [hsplit] at h
  dsimp only at h
  have hgives {name : Text} := @gives_of_splitOnce name line spelled rest hsplit
  constructor
  · obtain ⟨rfl, -⟩ := Text.splitOnce_eq_some.mp hsplit
    exact List.mem_append_right _ List.mem_cons_self
  split at h
  · next hname =>
    split at h
    · next hframing =>
      split at h
      · next n hn =>
        cases h
        exact .inl ⟨_, n, hgives (by decide) hname, hn, hframing, rfl⟩
      · cases h
    · cases h
  next hlength =>
  split at h
  · next hname =>
    split at h
    · cases h
    · next hframing =>
      cases h
      exact .inr (.inl ⟨_, hgives (by decide) hname, hframing, rfl⟩)
  next hencoding =>
  refine .inr (.inr ?_)
  split at h
  · next hname =>
    refine .inl ⟨_, hgives (by decide) hname, ?_⟩
    rw [keepAliveOf]
    split at h
    · next hclose =>
      cases h
      rw [if_pos hclose]
    · next hclose =>
      cases h
      rw [if_neg hclose]
  next hconnection =>
  split at h
  · next hname =>
    refine .inr (.inl ⟨_, hgives (by decide) hname, ?_⟩)
    rw [expectationOf]
    split at h
    · next hcontinue =>
      cases h
      rw [if_pos hcontinue]
    · next hcontinue =>
      cases h
      rw [if_neg hcontinue]
  next hexpect =>
  split at h
  · next hname =>
    cases h
    exact .inr (.inr (.inl ⟨_, hgives (by decide) hname, rfl⟩))
  next hrange =>
  split at h
  · next hname =>
    cases h
    exact .inr (.inr (.inr (.inl ⟨_, hgives (by decide) hname, rfl⟩)))
  next hauthorization =>
  cases h
  refine .inr (.inr (.inr (.inr ⟨fun name hname ↦ ?_, rfl⟩)))
  refine (valueOf_of_splitOnce hsplit name).trans (if_neg ?_)
  simp only [fieldNames, List.mem_cons, List.not_mem_nil, or_false] at hname
  rcases hname with rfl | rfl | rfl | rfl | rfl | rfl
  · exact hlength
  · exact hencoding
  · exact hconnection
  · exact hexpect
  · exact hrange
  · exact hauthorization

/-- A line is refused only for its framing, or if it is no field. -/
theorem exists_absorb {request : Request} {line : Text} (hcolon : ':' ∈ line)
    (hlength : ∀ value, valueOf contentLength line = some value →
      (Text.parseU64 value).isSome ∧ request.framing ≠ .chunked)
    (hencoding : ∀ value, valueOf transferEncoding line = some value →
      ∀ n, request.framing ≠ .length n) : ∃ request', absorb request line = .ok request' := by
  obtain ⟨spelled, rest, hline, hspelled⟩ := List.eq_append_cons_of_mem hcolon
  have hsplit : Text.splitOnce [':'] line = some (spelled, rest) :=
    Text.splitOnce_eq_some.mpr ⟨hline, hspelled⟩
  rw [absorb, hsplit]
  dsimp only
  have hvalue : ∀ {name}, Text.eqIgnoreAsciiCase spelled name = true →
      valueOf name line = some (Text.trim rest) := by
    intro name heq
    rw [valueOf, hsplit]
    exact if_pos heq
  split
  · next hname =>
    obtain ⟨hparses, hframing⟩ := hlength _ (hvalue hname)
    rw [if_pos hframing]
    obtain ⟨n, hn⟩ := Option.isSome_iff_exists.mp hparses
    rw [hn]
    exact ⟨_, rfl⟩
  split
  · next hname =>
    have hframing := hencoding _ (hvalue hname)
    split
    · next n hn => exact absurd hn (hframing n)
    · exact ⟨_, rfl⟩
  repeat' split
  all_goals exact ⟨_, rfl⟩

/-! ## One field -/

/-- What a line makes of a field: it sets it to what its value is read as, or leaves it alone. -/
def Sets {β : Type} (name line : Text) (read : Text → β) (old new : β) : Prop :=
  new = ((valueOf name line).map read).getD old

section

variable {β : Type} {name name' line value : Text} {read : Text → β} {old : β}

theorem Gives.sets (h : Gives name line value) : Sets name line read old (read value) := by
  rw [Sets, h.1]
  rfl

theorem sets_of_none (h : valueOf name line = none) : Sets name line read old old := by
  rw [Sets, h]
  rfl

theorem Gives.keeps (h : Gives name line value) (hother : name' ∈ fieldNames.erase name) :
    Sets name' line read old old := sets_of_none (h.2 name' hother)

end

/-- What a line makes of the framing, which the lines of the two fields that delimit a body have to
agree on. -/
theorem framing_of_absorb {request request' : Request} {line : Text}
    (h : absorb request line = .ok request') :
    (∃ value n, Gives contentLength line value ∧ Text.parseU64 value = some n
        ∧ request.framing ≠ .chunked ∧ request'.framing = .length n)
      ∨ (∃ value, Gives transferEncoding line value ∧ (∀ n, request.framing ≠ .length n)
        ∧ request'.framing = .chunked)
      ∨ valueOf contentLength line = none ∧ valueOf transferEncoding line = none
        ∧ request'.framing = request.framing := by
  obtain ⟨-, ⟨value, n, hgives, hn, hframing, rfl⟩ | ⟨value, hgives, hframing, rfl⟩ | hothers⟩ :=
    absorb_cases h
  · exact .inl ⟨value, n, hgives, hn, hframing, rfl⟩
  · exact .inr (.inl ⟨value, hgives, hframing, rfl⟩)
  refine .inr (.inr ?_)
  obtain ⟨_, hgives, rfl⟩ | ⟨_, hgives, rfl⟩ | ⟨_, hgives, rfl⟩ | ⟨_, hgives, rfl⟩ | ⟨hnone, rfl⟩ :=
    hothers
  · exact ⟨hgives.2 _ (by decide), hgives.2 _ (by decide), rfl⟩
  · exact ⟨hgives.2 _ (by decide), hgives.2 _ (by decide), rfl⟩
  · exact ⟨hgives.2 _ (by decide), hgives.2 _ (by decide), rfl⟩
  · exact ⟨hgives.2 _ (by decide), hgives.2 _ (by decide), rfl⟩
  · exact ⟨hnone _ (by decide), hnone _ (by decide), rfl⟩

/-- What a line makes of the fields in which it overrides the lines before it. -/
structure Absorbs (line : Text) (request request' : Request) : Prop where
  keepAlive : Sets connection line keepAliveOf request.keepAlive request'.keepAlive
  expectation : Sets expect line expectationOf request.expectation request'.expectation
  range : Sets range line some request.range request'.range
  authorization : Sets authorization line some request.authorization request'.authorization

theorem absorbs_of_absorb {request request' : Request} {line : Text}
    (h : absorb request line = .ok request') : Absorbs line request request' := by
  obtain ⟨-, ⟨_, _, hgives, -, -, rfl⟩ | ⟨_, hgives, -, rfl⟩ | ⟨_, hgives, rfl⟩ | ⟨_, hgives, rfl⟩
    | ⟨_, hgives, rfl⟩ | ⟨_, hgives, rfl⟩ | ⟨hnone, rfl⟩⟩ := absorb_cases h
  · exact ⟨hgives.keeps (by decide), hgives.keeps (by decide), hgives.keeps (by decide),
      hgives.keeps (by decide)⟩
  · exact ⟨hgives.keeps (by decide), hgives.keeps (by decide), hgives.keeps (by decide),
      hgives.keeps (by decide)⟩
  · exact ⟨hgives.sets, hgives.keeps (by decide), hgives.keeps (by decide),
      hgives.keeps (by decide)⟩
  · exact ⟨hgives.keeps (by decide), hgives.sets, hgives.keeps (by decide),
      hgives.keeps (by decide)⟩
  · exact ⟨hgives.keeps (by decide), hgives.keeps (by decide), hgives.sets,
      hgives.keeps (by decide)⟩
  · exact ⟨hgives.keeps (by decide), hgives.keeps (by decide), hgives.keeps (by decide),
      hgives.sets⟩
  · exact ⟨sets_of_none (hnone _ (by decide)), sets_of_none (hnone _ (by decide)),
      sets_of_none (hnone _ (by decide)), sets_of_none (hnone _ (by decide))⟩

end Http

end Bincache
