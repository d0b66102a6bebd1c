import Bincache.Serve.Reading

/-!
# How a head arrives

`head` looks for the blank line before it looks at the limit, so what becomes of a head that is
longer than the limit depends on how its bytes arrive: it is refused if some read ends past the
limit and in front of the blank line, and accepted otherwise. A head within the limit is accepted
however it arrives, and a stream without a blank line is refused or cut off in one way only.

## The room of a read

`fill` reserves `readChunk` bytes and then reads as much as fits the `Vec`, so what one read may
deliver depends on what is buffered and on how far the `Vec` has grown before. `Space` has its
length and its capacity, and `stepWithin` the steps of a run in which nothing fails and no read
delivers more than there is space for.

## The invariant

With `headLenMax` bytes buffered or fewer, a reserve that grows the `Vec` doubles it, after which
there is room enough for every further read of the same head. So `reach`, the capacity a read has
that begins with `headLenMax` bytes buffered, is the same before and after a read, and no accepted
head is longer. A run that takes single bytes until the rest of the head fits reaches it.
-/

namespace Bincache

open Connection (readChunk)

/-- How much of the `Vec` of a connection is filled, and how much there is of it. -/
structure Space where
  length : ℕ
  capacity : ℕ
  fits : length ≤ capacity
  /-- A connection starts with that much, and a `Vec` does not shrink. -/
  least : readChunk ≤ capacity

namespace Space

/-- What `Vec::reserve` makes of a capacity for `readChunk` more bytes: it does for them, or is at
least doubled. -/
def grown (length capacity : ℕ) : ℕ :=
  if length + readChunk ≤ capacity then capacity else max (2 * capacity) (length + readChunk)

theorem length_add_le_grown (length capacity : ℕ) :
    length + readChunk ≤ grown length capacity := by
  rw [grown]
  split
  · assumption
  · exact Nat.le_max_right _ _

def reserve (space : Space) : Space where
  length := space.length
  capacity := grown space.length space.capacity
  fits := (Nat.le_add_right _ _).trans (length_add_le_grown _ _)
  least := (Nat.le_add_left _ _).trans (length_add_le_grown _ _)

@[simp] theorem length_reserve (space : Space) : space.reserve.length = space.length := by
  rw [reserve]

@[simp] theorem capacity_reserve (space : Space) :
    space.reserve.capacity = grown space.length space.capacity := rfl

/-- After a read of so many bytes. -/
def fill (space : Space) (count : ℕ) (h : space.length + count ≤ space.capacity) : Space :=
  ⟨space.length + count, space.capacity, h, space.least⟩

@[simp] theorem length_fill {space : Space} {count : ℕ}
    (h : space.length + count ≤ space.capacity) :
    (space.fill count h).length = space.length + count := rfl

/-- With no more buffered than a read asks for, a `Vec` that grows doubles. -/
theorem grown_eq {length capacity : ℕ} (hleast : readChunk ≤ capacity)
    (hshort : length ≤ readChunk) :
    grown length capacity = if length + readChunk ≤ capacity then capacity else 2 * capacity := by
  rw [grown]
  split
  · rfl
  · exact Nat.max_eq_left (by omega)

/-- The capacity of a read that begins with as much buffered as `head` lets it. -/
def reach (space : Space) : ℕ := grown Http.headLenMax space.capacity

/-- A read of a head has no more room than that, and leaves it the same. -/
theorem reach_reserve {space : Space} (hshort : space.length ≤ Http.headLenMax) :
    space.reserve.capacity ≤ space.reach ∧ space.reserve.reach = space.reach := by
  have hmax : Http.headLenMax ≤ readChunk := by decide
  have hleast := space.least
  have hgrown := grown_eq hleast (hshort.trans hmax)
  rw [reach, reach, grown_eq hleast hmax, grown_eq space.reserve.least hmax, capacity_reserve,
    hgrown]
  by_cases hfits : space.length + readChunk ≤ space.capacity
  · rw [if_pos hfits]
    constructor
    · split <;> omega
    · rfl
  · -- it is doubled now, and would be with more buffered, but not twice
    rw [if_neg hfits, if_neg (by omega), if_pos (by omega)]
    exact ⟨le_rfl, rfl⟩

end Space

/-- The steps of a run in which nothing fails and a read delivers no more than fits once `readChunk`
bytes are reserved. -/
def stepWithin : Interpretation Ans (Site × Space) := fun op s answer s' ↦
  step .fair op s.1 answer s'.1 ∧ match op, answer with
    | .recv, .ok bytes =>
      ∃ h : s.2.reserve.length + bytes.length ≤ s.2.reserve.capacity,
        s'.2 = s.2.reserve.fill bytes.length h
    | .recv, .error _ => s'.2 = s.2.reserve
    | _, _ => s'.2 = s.2

namespace Connection

/-- A connection with the space of its buffer. -/
structure Allocated extends Connection where
  space : Space
  length : space.length = buffer.length

/-- `Connection::new` allocates what one read asks for. -/
def Allocated.new : Allocated := ⟨{}, ⟨0, readChunk, Nat.zero_le _, le_rfl⟩, rfl⟩

variable {connection : Connection} {site site' : Site} {space space' : Space}

/-- What the head of a stream should come to: the front that its first blank line ends, if that is
within the limit; a refusal if it is longer, or if the stream is without a blank line; and where the
stream is too short for either, its end, between two heads or inside one. -/
def due (stream : Bytes) : Except Error (Option Bytes) :=
  match Http.headLen stream with
  | some len => if len ≤ Http.headLenMax then .ok (some (stream.take len)) else .error .headTooLong
  | none =>
    if Http.headLenMax < stream.length then .error .headTooLong
    else if stream = [] then .ok none else .error .truncated

/-- However the unread bytes are split into reads, the head is the same, and the one it should
be. -/
structure Uniform (connection : Allocated) (unread : Bytes) : Prop where
  same : ∀ site₁ site₂ s₁ s₂ result₁ result₂, site₁.2.unread = unread → site₂.2.unread = unread →
    connection.head.run.Runs stepWithin (site₁, connection.space) result₁ s₁ →
    connection.head.run.Runs stepWithin (site₂, connection.space) result₂ s₂ →
      result₁.map Prod.fst = result₂.map Prod.fst
  due : ∀ site s result, site.2.unread = unread →
    connection.head.run.Runs stepWithin (site, connection.space) result s →
      result.map Prod.fst = Connection.due (connection.buffer ++ unread)

/-- A first blank line past the limit that some way of arriving gets past the limit: it is in the
buffer already, or the buffer is not past the limit yet and one read gets from there to it. -/
def Slips (connection : Allocated) (unread : Bytes) : Prop :=
  ∃ len, Http.headLen (connection.buffer ++ unread) = some len ∧ Http.headLenMax < len
    ∧ (len ≤ connection.buffer.length
      ∨ connection.buffer.length ≤ Http.headLenMax ∧ len ≤ connection.space.reach)

/-! ## What is accepted -/

/-- An accepted head was in the buffer, or one read brought its end. -/
private theorem within_head (connection : Connection) {space : Space} (site : Site)
    (hlength : space.length = connection.buffer.length) :
    connection.head.run.Safe (.alone Site) (fun _ ↦ stepWithin) ()
      (fun result _ _ ↦ ∀ head connection', result = .ok (some head, connection') →
        head.length ≤ connection.buffer.length
          ∨ connection.buffer.length ≤ Http.headLenMax
            ∧ head.length ≤ space.reach)
      space site := by
  induction hn : Http.headLenMax + 1 - connection.buffer.length using Nat.strong_induction_on
    generalizing connection space site with
  | _ n ih =>
    rw [head]
    split
    · next len hlen =>
      refine Program.safe_alone_done.mpr fun head connection' h ↦ .inl ?_
      obtain ⟨hhead, -⟩ := Prod.mk.inj (Except.ok.inj h)
      rw [← Option.some.inj hhead, List.length_take]
      exact Nat.min_le_right _ _
    · split
      · next hlong =>
        obtain ⟨hroom, hreach⟩ := Space.reach_reserve (hlength.trans_le hlong)
        refine Attempt.safe_bind (Attempt.safe_context (Program.safe_alone_call.mpr
          fun answer site₁ space₁ hop ↦ Program.safe_alone_done.mpr ?_))
        rcases answer with error | read
        · exact fun head connection' h ↦ absurd h (by simp)
        obtain ⟨-, hfits, rfl : space₁ = _⟩ := hop
        dsimp only [Except.mapError]
        by_cases hnil : read = []
        · rw [dif_pos hnil]
          split
          · exact Program.safe_alone_done.mpr fun head connection' h ↦ absurd h (by simp)
          · exact Program.safe_alone_done.mpr fun head connection' h ↦ absurd h (by simp)
        · rw [dif_neg hnil]
          have hpos := List.length_pos_of_ne_nil hnil
          have hread : (⟨connection.buffer ++ read⟩ : Connection).buffer.length
              = connection.buffer.length + read.length := List.length_append
          refine (@ih _ (by omega) ⟨connection.buffer ++ read⟩ (space.reserve.fill _ hfits) site₁
            (by rw [hread, ← hlength, Space.length_fill, Space.length_reserve]) rfl).imp ?_
          rintro result space₂ site₂ - hresult head connection' h
          refine .inr ⟨hlong, ?_⟩
          -- the buffer was within the limit before this read, so it is within the reach after it
          obtain hbuffered | ⟨-, hbeyond⟩ := hresult head connection' h
          · rw [Space.length_reserve] at hfits
            dsimp only at hfits
            omega
          · exact hbeyond.trans_eq hreach
      · exact Program.safe_alone_done.mpr fun head connection' h ↦ absurd h (by simp)

/-- A run ends as it should, unless it accepts a head that is too long. -/
theorem due_of_runs {connection : Allocated} {result : Except Error (Option Bytes × Connection)}
    (hslips : ¬ Slips connection site.2.unread)
    (hrun : connection.head.run.Runs stepWithin (site, connection.space) result (site', space')) :
    result.map Prod.fst = due (connection.buffer ++ site.2.unread) := by
  have hfair : connection.head.run.Runs (step .fair) site result site' := by
    refine Program.Runs.map (f := Prod.fst) (fun _ _ _ _ hop ↦ ?_) hrun
    exact hop.1
  obtain ⟨-, -, hhead⟩ := (ends_head connection.toConnection site).runs hfair
  rw [stream] at hhead
  rw [due]
  rcases result with error | ⟨_ | head, connection'⟩
  · obtain henv | ⟨rfl, hne, hshort, hnone⟩ | ⟨rfl, hlong, hpast⟩ := hhead
    · exact absurd henv (by decide)
    · rw [hnone]
      dsimp only
      rw [if_neg (Nat.not_lt.mpr hshort), if_neg hne]
      rfl
    · cases hlen : Http.headLen (connection.buffer ++ site.2.unread) with
      | some len =>
        dsimp only
        rw [if_neg (Nat.not_le.mpr (hpast len hlen))]
        rfl
      | none =>
        dsimp only
        rw [if_pos hlong]
        rfl
  · rw [hhead.1]
    rfl
  · obtain ⟨hstream, hlen⟩ := hhead
    have hfront : (connection.buffer ++ site.2.unread).take head.length = head := by
      rw [hstream, List.take_left]
    rw [hlen]
    dsimp only
    rw [hfront, if_pos]
    · rfl
    · by_contra hlong
      -- the head is over the limit and was read within it: this is a slip
      refine hslips ⟨head.length, hlen, Nat.lt_of_not_le hlong, ?_⟩
      exact ((within_head connection.toConnection site connection.length).runs trivial hrun).2
        head connection' rfl

/-! ## How a head slips through -/

/-- A read may deliver any front of what is unread that is not empty and fits, and the head goes on
from there. -/
private theorem runs_head_of_read {count : ℕ} {result : Except Error (Option Bytes × Connection)}
    {s' : Site × Space} (hnone : Http.headLen connection.buffer = none)
    (hshort : connection.buffer.length ≤ Http.headLenMax)
    (hroom : space.reserve.length + (count + 1) ≤ space.reserve.capacity)
    (hcount : count < site.2.unread.length)
    (hrun : (head ⟨connection.buffer ++ site.2.unread.take (count + 1)⟩).run.Runs stepWithin
      ((site.1, { site.2 with unread := site.2.unread.drop (count + 1) }),
        space.reserve.fill (count + 1) hroom) result s') :
    connection.head.run.Runs stepWithin (site, space) result s' := by
  have hlength : (site.2.unread.take (count + 1)).length = count + 1 := by
    rw [List.length_take]
    omega
  have hne : site.2.unread.take (count + 1) ≠ [] := by
    refine List.ne_nil_of_length_pos ?_
    omega
  have hstep : stepWithin .recv (site, space) (.ok (site.2.unread.take (count + 1)))
      ((site.1, { site.2 with unread := site.2.unread.drop (count + 1) }),
        space.reserve.fill (count + 1) hroom) := by
    refine ⟨⟨{ count }, rfl, rfl⟩, ?_⟩
    change ∃ h : space.reserve.length + (site.2.unread.take (count + 1)).length
      ≤ space.reserve.capacity, space.reserve.fill (count + 1) hroom = space.reserve.fill _ h
    simp only [hlength, exists_prop, and_true]
    exact hroom
  rw [head, hnone]
  dsimp only
  rw [if_pos hshort]
  refine ⟨_, _, hstep, ?_⟩
  change (dite (site.2.unread.take (count + 1) = [])
    (fun _ ↦ if connection.buffer = [] then pure (none, connection) else throw .truncated)
    (fun _ ↦ head ⟨connection.buffer ++ site.2.unread.take (count + 1)⟩) :
      Call Error (Option Bytes × Connection)).run.Runs _ _ _ _
  rw [dif_neg hne]
  exact hrun

private theorem runs_head_of_headLen {len : ℕ} {s : Site × Space}
    (h : Http.headLen connection.buffer = some len) :
    connection.head.run.Runs stepWithin s
      (.ok (some (connection.buffer.take len), ⟨connection.buffer.drop len⟩)) s := by
  rw [head, h]
  exact ⟨rfl, rfl⟩

/-- A head within the reach is accepted in some run: its bytes arrive one by one until what is left
of it fits one read. -/
private theorem exists_runs_of_reach {len : ℕ} (hlength : space.length = connection.buffer.length)
    (hlen : Http.headLen (connection.buffer ++ site.2.unread) = some len)
    (hlong : Http.headLenMax < len) (hshort : connection.buffer.length ≤ Http.headLenMax)
    (hreach : len ≤ space.reach) :
    ∃ connection' s', connection.head.run.Runs stepWithin (site, space)
      (.ok (some ((connection.buffer ++ site.2.unread).take len), connection')) s' := by
  induction hn : Http.headLenMax - connection.buffer.length using Nat.strong_induction_on
    generalizing connection site space with
  | _ n ih =>
    have hnone : Http.headLen connection.buffer = none := by
      cases hsome : Http.headLen connection.buffer with
      | none => rfl
      | some len' =>
        have heq := (Http.headLen_append_of_some hsome site.2.unread).symm.trans hlen
        have hle := (Http.headLen_bounds hsome).2
        obtain rfl := Option.some.inj heq
        omega
    have htotal := (Http.headLen_bounds hlen).2
    rw [List.length_append] at htotal
    have hsplit : ∀ count, connection.buffer ++ site.2.unread
        = (connection.buffer ++ site.2.unread.take count) ++ site.2.unread.drop count := by
      intro count
      rw [List.append_assoc, List.take_append_drop]
    have hspare : space.length + readChunk ≤ space.reserve.capacity :=
      Space.length_add_le_grown _ _
    by_cases hnear : len ≤ space.reserve.capacity
    · -- one read brings all that is missing
      obtain ⟨count, hcount⟩ : ∃ count, len = connection.buffer.length + (count + 1) :=
        ⟨len - connection.buffer.length - 1, by omega⟩
      have hfront : len ≤ (connection.buffer ++ site.2.unread.take (count + 1)).length := by
        rw [List.length_append, List.length_take]
        omega
      rw [hsplit (count + 1)] at hlen ⊢
      rw [List.take_append_of_le_length hfront]
      exact ⟨_, _, runs_head_of_read hnone hshort (by rw [Space.length_reserve]; omega) (by omega)
        (@runs_head_of_headLen ⟨_⟩ _ _ (Http.headLen_of_append hlen hfront))⟩
    · -- with the limit buffered it would fit, so there is one byte more to go
      have hmore : connection.buffer.length < Http.headLenMax := by
        refine Nat.lt_of_le_of_ne hshort fun hfull ↦ hnear ?_
        change len ≤ Space.grown space.length space.capacity
        rw [hlength, hfull]
        exact hreach
      have hpos : 0 < readChunk := by decide
      have hread : (connection.buffer ++ site.2.unread.take (0 + 1)).length
          = connection.buffer.length + 1 := by
        rw [List.length_append, List.length_take]
        omega
      obtain ⟨-, hsame⟩ := Space.reach_reserve (hlength.trans_le hshort)
      rw [hsplit (0 + 1)] at hlen ⊢
      obtain ⟨connection', s', hrun⟩ := @ih _ (by rw [hread]; omega)
        ⟨connection.buffer ++ site.2.unread.take (0 + 1)⟩
        (site.1, { site.2 with unread := site.2.unread.drop (0 + 1) })
        (space.reserve.fill (0 + 1) (by rw [Space.length_reserve]; omega))
        (by rw [hread, ← hlength, Space.length_fill, Space.length_reserve]) hlen
        (by rw [hread]; omega) (hreach.trans_eq hsame.symm) rfl
      exact ⟨connection', s', runs_head_of_read hnone hshort (by rw [Space.length_reserve]; omega)
        (by omega) hrun⟩

theorem exists_runs_of_slips {connection : Allocated}
    (hslips : Slips connection site.2.unread) :
    ∃ len connection' s', Http.headLenMax < len
      ∧ Http.headLen (connection.buffer ++ site.2.unread) = some len
      ∧ connection.head.run.Runs stepWithin (site, connection.space)
        (.ok (some ((connection.buffer ++ site.2.unread).take len), connection')) s' := by
  obtain ⟨len, hlen, hlong, hbuffer | ⟨hshort, hreach⟩⟩ := hslips
  · refine ⟨len, ⟨connection.buffer.drop len⟩, (site, connection.space), hlong, hlen, ?_⟩
    rw [List.take_append_of_le_length hbuffer]
    exact runs_head_of_headLen (Http.headLen_of_append hlen hbuffer)
  · obtain ⟨connection', s', hrun⟩ := @exists_runs_of_reach connection.toConnection site
      connection.space len connection.length hlen hlong hshort hreach
    exact ⟨len, connection', s', hlong, hlen, hrun⟩

theorem Slips.not_uniform {connection : Allocated} {unread : Bytes}
    (hslips : Slips connection unread) : ¬ Uniform connection unread := by
  intro huniform
  obtain ⟨len, connection', s', hlong, hlen, hrun⟩ :=
    @exists_runs_of_slips (⟨.empty, .empty, 0, 0, fun _ ↦ {}⟩, ⟨unread, []⟩) _ hslips
  have hdue := huniform.due _ s' _ rfl hrun
  rw [due, hlen] at hdue
  dsimp only at hdue
  rw [if_neg (Nat.not_le.mpr hlong)] at hdue
  exact absurd hdue (by simp [Except.map])

/-- However a head arrives, it is the one it should be, exactly if none slips through. -/
theorem uniform_iff (connection : Allocated) (unread : Bytes) :
    Uniform connection unread ↔ ¬ Slips connection unread := by
  constructor
  · exact fun huniform hslips ↦ hslips.not_uniform huniform
  · intro hslips
    have hdue : ∀ site s result, site.2.unread = unread →
        connection.head.run.Runs stepWithin (site, connection.space) result s →
          result.map Prod.fst = due (connection.buffer ++ unread) := by
      rintro site s result rfl hrun
      exact due_of_runs hslips hrun
    refine ⟨fun site₁ site₂ s₁ s₂ result₁ result₂ h₁ h₂ hrun₁ hrun₂ ↦ ?_, hdue⟩
    rw [hdue site₁ s₁ result₁ h₁ hrun₁, hdue site₂ s₂ result₂ h₂ hrun₂]

private theorem headLen_filled (n : ℕ) :
    Http.headLen (List.replicate n 97 ++ Http.headEnd) = some (n + 4) := by
  induction n with
  | zero => decide
  | succ n ih =>
    rw [List.replicate_succ, List.cons_append, Http.headLen, if_neg, ih]
    · rfl
    · exact fun h ↦ absurd (List.cons_prefix_cons.mp h).1 (by decide)

/-- A head of 20004 bytes on a new connection, of which the first read takes up to 64 KiB. -/
theorem not_uniform_filled :
    ¬ Uniform .new (List.replicate 20000 97 ++ Http.headEnd) := by
  refine Slips.not_uniform ⟨20004, headLen_filled 20000, by decide, .inr ⟨?_, ?_⟩⟩
  · exact Nat.zero_le _
  · decide

end Connection

end Bincache
