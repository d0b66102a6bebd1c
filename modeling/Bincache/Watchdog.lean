import Bincache.Lib.Interference
import Bincache.Lib.Pace
import Mathlib.Tactic.Ring

/-!
# The watchdog

A shard whose executor is stuck looks like one that nobody talks to. So every shard has a task that
notes the time once a second, and a thread looks every few seconds which shards have not noted it
for too long.

The shards and the watchdog take turns at single loads and stores, of which a load sees the last
store, and time passes between any two of them. A shard that is never too late for its next step is
never reported (`spares_of_steps`), and one that does nothing any more is reported in time by a
watchdog that is not late itself (`notices_of_steps`). No constraint is put on what the others do.
-/

namespace Bincache

namespace Watchdog

/-! ## What is shared -/

/-- What a shard's slot says of its heartbeat. -/
structure Slot where
  /-- Milliseconds since the counters were created, at the last heartbeat. -/
  heartbeat : ℕ := 0
  /-- How many times the shard has beaten. -/
  heartbeats : ℕ := 0

/-- The slots, and what the watchdog has reported. -/
structure Board where
  slots : ℕ → Slot
  reports : List (List ℕ)

/-- One load or store of a slot, a look at the clock, a sleep, or a line in the log. -/
inductive Op
  | elapsed
  | sleep (duration : ℕ)
  | storeHeartbeat (shard value : ℕ)
  | addHeartbeats (shard : ℕ)
  | loadHeartbeats (shard : ℕ)
  | loadHeartbeat (shard : ℕ)
  | report (stalled : List ℕ)

def Ans : Op → Type
  | .elapsed | .loadHeartbeats _ | .loadHeartbeat _ => ℕ
  | .sleep _ | .storeHeartbeat _ _ | .addHeartbeats _ | .report _ => Unit

def Board.set (board : Board) (shard : ℕ) (slot : Slot) : Board :=
  { board with slots := Function.update board.slots shard slot }

/-- What an operation does when the clock, in nanoseconds, says this. -/
def perform (clock : ℕ) : (op : Op) → Board → Ans op × Board
  | .elapsed, board => (clock, board)
  | .sleep _, board => ((), board)
  | .storeHeartbeat shard value, board =>
    ((), board.set shard { board.slots shard with heartbeat := value })
  | .addHeartbeats shard, board =>
    ((), board.set shard { board.slots shard with
      heartbeats := ((board.slots shard).heartbeats + 1) % 2 ^ 64 })
  | .loadHeartbeats shard, board => ((board.slots shard).heartbeats, board)
  | .loadHeartbeat shard, board => ((board.slots shard).heartbeat, board)
  | .report stalled, board => ((), { board with reports := board.reports ++ [stalled] })

def lasts : Op → ℕ
  | .sleep duration => duration
  | _ => 0

/-! ## What is done -/

def second : ℕ := 1000000000

/-- How often the watchdog looks. -/
def interval : ℕ := 5 * second

/-- How often each shard proves its executor is still turning. -/
def heartbeat : ℕ := 1 * second

/-- Whole milliseconds, in 64 bits. -/
def millis (duration : ℕ) : ℕ := min (duration / 1000000) (2 ^ 64 - 1)

def elapsed : Program Ans ℕ := .call .elapsed .done

def sleep (duration : ℕ) : Program Ans Unit := .call (.sleep duration) .done

def storeHeartbeat (shard value : ℕ) : Program Ans Unit := .call (.storeHeartbeat shard value) .done

def addHeartbeats (shard : ℕ) : Program Ans Unit := .call (.addHeartbeats shard) .done

def loadHeartbeats (shard : ℕ) : Program Ans ℕ := .call (.loadHeartbeats shard) .done

def loadHeartbeat (shard : ℕ) : Program Ans ℕ := .call (.loadHeartbeat shard) .done

def report (stalled : List ℕ) : Program Ans Unit := .call (.report stalled) .done

/-- Records that this shard's executor is still turning. -/
def beat (shard : ℕ) : Program Ans Unit := do
  let elapsed ← elapsed
  storeHeartbeat shard (millis elapsed)
  addHeartbeats shard

/-- One turn of the task that beats for a shard. -/
def pulse (shard : ℕ) : Program Ans Unit := do
  sleep heartbeat
  beat shard

/-- Whether a shard has beaten, but not since `deadline`. -/
def late (deadline shard : ℕ) : Program Ans Bool := do
  let heartbeats ← loadHeartbeats shard
  if 0 < heartbeats then
    let heartbeat ← loadHeartbeat shard
    pure (decide (heartbeat < deadline))
  else pure false

/-- Those of the shards that are late, in order. -/
def stalledOf (deadline : ℕ) : List ℕ → Program Ans (List ℕ)
  | [] => pure []
  | shard :: shards => do
    let late ← late deadline shard
    let rest ← stalledOf deadline shards
    pure (if late then shard :: rest else rest)

/-- Shards whose heartbeat is older than `stale`. -/
def stalled (count stale : ℕ) : Program Ans (List ℕ) := do
  let elapsed ← elapsed
  let deadline := millis elapsed - millis stale
  stalledOf deadline (List.range count)

/-- One turn of the watchdog. -/
def watch (count stale : ℕ) : Program Ans Unit := do
  sleep interval
  let stalled ← stalled count stale
  if stalled ≠ [] then report stalled else pure ()

/-- The watchdog of a server with `count` shards, which is told of stalls in seconds, and the tasks
that beat for the shards. -/
def pace (count seconds : ℕ) : Pace Ans (Option (Fin count)) Board where
  lasts := lasts
  perform := perform
  loop
    | none => watch count (seconds * second)
    | some shard => pulse shard

def blank : Board := ⟨fun _ ↦ {}, []⟩

/-! ## Who does what -/

/-- A shard writes to its own slot only, and only the watchdog reports. -/
def Own {count : ℕ} (i : Option (Fin count)) : Op → Prop
  | .storeHeartbeat shard _ | .addHeartbeats shard => ∃ own : Fin count, i = some own ∧ own = shard
  | .report _ => i = none
  | _ => True

variable {count seconds : ℕ} {i : Option (Fin count)} {shard : Fin count} {clock : ℕ} {op : Op}
  {board : Board}

/-- Looks at the count, and at the time only if there was a beat. -/
theorem late_eq (deadline shard : ℕ) : late deadline shard
    = .call (.loadHeartbeats shard) fun (heartbeats : ℕ) ↦ if 0 < heartbeats then
        .call (.loadHeartbeat shard) fun (heartbeat : ℕ) ↦ .done (decide (heartbeat < deadline))
      else .done false := rfl

theorem uses_late (deadline shard : ℕ) : (late deadline shard).Uses (Own i) := by
  rw [late_eq]
  refine ⟨trivial, fun heartbeats ↦ ?_⟩
  dsimp only
  split
  · exact ⟨trivial, fun heartbeat ↦ trivial⟩
  · trivial

theorem uses_stalledOf (deadline : ℕ) (shards : List ℕ) :
    (stalledOf deadline shards).Uses (Own i) := by
  induction shards with
  | nil => trivial
  | cons shard shards ih =>
    exact (uses_late deadline shard).bind fun late ↦ ih.bind fun rest ↦ Program.uses_done

theorem uses_loop (i : Option (Fin count)) : ((pace count seconds).loop i).Uses (Own i) := by
  cases i with
  | none =>
    refine ⟨trivial, fun _ ↦ ⟨trivial, fun elapsed ↦ ?_⟩⟩
    refine (uses_stalledOf _ _).bind fun stalled ↦ ?_
    split
    · exact ⟨rfl, fun _ ↦ trivial⟩
    · trivial
  | some shard => exact ⟨trivial, fun _ ↦ ⟨trivial, fun _ ↦ ⟨⟨shard, rfl, rfl⟩, fun _ ↦
      ⟨⟨shard, rfl, rfl⟩, fun _ ↦ trivial⟩⟩⟩⟩

/-- Nobody else writes to a shard's slot. -/
theorem slots_perform (hop : Own i op) (hi : i ≠ some shard) :
    (perform clock op board).2.slots shard = board.slots shard := by
  have hwrite : ∀ (other : ℕ) (slot : Slot), (∃ own : Fin count, i = some own ∧ own = other) →
      (board.set other slot).slots shard = board.slots shard := by
    rintro _ slot ⟨own, rfl, rfl⟩
    refine Function.update_of_ne (fun hsame ↦ hi ?_) _ _
    rw [Fin.ext hsame]
  cases op with
  | storeHeartbeat other value => exact hwrite other _ hop
  | addHeartbeats other => exact hwrite other _ hop
  | elapsed | sleep | loadHeartbeats | loadHeartbeat | report => rfl

/-- Nobody takes a report back, and only the watchdog makes one. -/
theorem reports_perform (clock : ℕ) (op : Op) (board : Board) :
    board.reports <+: (perform clock op board).2.reports := by
  cases op with
  | report stalled => exact List.prefix_append _ _
  | elapsed | sleep | loadHeartbeats | loadHeartbeat | storeHeartbeat | addHeartbeats =>
    exact List.prefix_rfl

theorem reports_perform_of_ne (hop : Own i op) (hi : i ≠ none) :
    (perform clock op board).2.reports = board.reports := by
  cases op with
  | report stalled => exact absurd hop hi
  | elapsed | sleep | loadHeartbeats | loadHeartbeat | storeHeartbeat | addHeartbeats => rfl

/-! ## Nothing that keeps beating is reported -/

/-- What is left of a beat. -/
def storing (shard value : ℕ) : Program Ans Unit :=
  .call (.storeHeartbeat shard value) fun _ ↦ addHeartbeats shard

/-- The task of a shard that has not beaten yet. -/
def Starting (shard : ℕ) (thread : ℕ × Program Ans Unit) : Prop :=
  thread = (thread.1, pulse shard) ∨ thread = (thread.1, beat shard)
    ∨ thread = (thread.1, storing shard (millis thread.1))

/-- The task of a shard whose last heartbeat was read at `last`, and how far it can be if it is
prompt. -/
def Turning (delay last shard : ℕ) (thread : ℕ × Program Ans Unit) : Prop :=
  thread.2 = addHeartbeats shard ∧ thread.1 ≤ last + delay
    ∨ thread.2 = pulse shard ∧ thread.1 ≤ last + 2 * delay
    ∨ thread.2 = beat shard ∧ thread.1 ≤ last + (heartbeat + 3 * delay)
    ∨ thread.2 = storing shard (millis thread.1) ∧ thread.1 ≤ last + (heartbeat + 4 * delay)

theorem millis_le (last clock seconds : ℕ) (h : clock ≤ last + seconds * second) :
    millis clock ≤ millis last + millis (seconds * second) := by
  have hlast := Nat.div_le_div_right (c := 1000000) h
  have hseconds : (last + seconds * second) / 1000000 = last / 1000000 + seconds * 1000 := by
    rw [second]
    omega
  have hstale : seconds * second / 1000000 = seconds * 1000 := by
    rw [second]
    omega
  rw [millis, millis, millis, hstale]
  omega

/-- The shard has not beaten yet. -/
def Unbeaten (shard : Fin count) (timed : Timed Ans (Option (Fin count)) Board) : Prop :=
  (timed.shared.slots shard).heartbeats = 0 ∧ Starting shard (timed.threads (some shard))

/-- The shard's last heartbeat was read at `last`, and its task is where it can be. -/
def Beaten (delay : ℕ) (shard : Fin count) (timed : Timed Ans (Option (Fin count)) Board) : Prop :=
  ∃ last, (timed.shared.slots shard).heartbeat = millis last
    ∧ Turning delay last shard (timed.threads (some shard))

variable {timed timed' : Timed Ans (Option (Fin count)) Board} {delay : ℕ}

/-- The watchdog and the tasks keep to what is theirs. -/
def Orderly (timed : Timed Ans (Option (Fin count)) Board) : Prop :=
  ∀ i, (timed.threads i).2.Uses (Own i)

theorem Orderly.step {active : Set (Option (Fin count))} (h : Orderly timed)
    (hstep : Timed.Step (pace count seconds) active timed timed') : Orderly timed' :=
  hstep.uses uses_loop h

theorem Orderly.same (h : Orderly timed) {active : Set (Option (Fin count))}
    (hactive : some shard ∉ active) (hstep : Timed.Step (pace count seconds) active timed timed') :
    timed'.shared.slots shard = timed.shared.slots shard
      ∧ timed'.threads (some shard) = timed.threads (some shard) := by
  cases hstep with
  | wait duration => exact ⟨rfl, rfl⟩
  | turn i hi hturn =>
    obtain ⟨since, op, next, hthread, -, rfl⟩ := Timed.turn_eq_some hturn
    have hne : some shard ≠ i := fun hsame ↦ hactive (hsame ▸ hi)
    have hop := h i
    rw [hthread] at hop
    exact ⟨slots_perform hop.1 hne.symm, Function.update_of_ne hne _ _⟩

private theorem slots_set (board : Board) (shard : ℕ) (slot : Slot) :
    (board.set shard slot).slots shard = slot := Function.update_self _ _ _

private theorem turned {since : ℕ} {next : Ans op → Program Ans Unit}
    (hturn : timed.turn (pace count seconds) (some shard) = some timed')
    (hprompt : timed.Prompt (pace count seconds) delay (some shard))
    (hthread : timed.threads (some shard) = (since, .call op next)) :
    timed.clock ≤ since + (lasts op + delay)
      ∧ timed'.shared = (perform timed.clock op timed.shared).2
      ∧ timed'.threads (some shard) = (timed.clock,
        Timed.resume (pulse shard) (next (perform timed.clock op timed.shared).1)) := by
  refine ⟨hprompt.le hthread, ?_, ?_⟩ <;> rw [Timed.eq_of_turn hthread hturn]
  · rfl
  · exact Function.update_self _ _ _

section

variable {since : ℕ} (hturn : timed.turn (pace count seconds) (some shard) = some timed')
  (hprompt : timed.Prompt (pace count seconds) delay (some shard))

include hturn hprompt

private theorem turn_pulse (hthread : timed.threads (some shard) = (since, pulse shard)) :
    timed.clock ≤ since + (heartbeat + delay) ∧ timed'.shared = timed.shared
      ∧ timed'.threads (some shard) = (timed.clock, beat shard) :=
  turned hturn hprompt hthread

private theorem turn_beat (hthread : timed.threads (some shard) = (since, beat shard)) :
    timed.clock ≤ since + delay ∧ timed'.shared = timed.shared
      ∧ timed'.threads (some shard) = (timed.clock, storing shard (millis timed.clock)) := by
  obtain ⟨hclock, hrest⟩ := turned hturn hprompt hthread
  dsimp only [lasts] at hclock
  exact ⟨by omega, hrest⟩

private theorem turn_storing {value : ℕ}
    (hthread : timed.threads (some shard) = (since, storing shard value)) :
    timed.clock ≤ since + delay ∧ (timed'.shared.slots shard).heartbeat = value
      ∧ timed'.threads (some shard) = (timed.clock, addHeartbeats shard) := by
  obtain ⟨hclock, hshared, hrest⟩ := turned hturn hprompt hthread
  dsimp only [lasts] at hclock
  refine ⟨by omega, ?_, hrest⟩
  rw [hshared, perform, slots_set]

private theorem turn_addHeartbeats
    (hthread : timed.threads (some shard) = (since, addHeartbeats shard)) :
    timed.clock ≤ since + delay
      ∧ (timed'.shared.slots shard).heartbeat = (timed.shared.slots shard).heartbeat
      ∧ timed'.threads (some shard) = (timed.clock, pulse shard) := by
  obtain ⟨hclock, hshared, hrest⟩ := turned hturn hprompt hthread
  dsimp only [lasts] at hclock
  refine ⟨by omega, ?_, hrest⟩
  rw [hshared, perform, slots_set]

/-- The first beat is read, and then stored. -/
theorem Unbeaten.turn (h : Unbeaten shard timed) :
    Unbeaten shard timed' ∨ Beaten delay shard timed' := by
  obtain ⟨hnone, hthread | hthread | hthread⟩ := h
  · obtain ⟨-, hshared, hthread'⟩ := turn_pulse hturn hprompt hthread
    refine .inl ⟨hshared ▸ hnone, .inr (.inl ?_)⟩
    rw [hthread']
  · obtain ⟨-, hshared, hthread'⟩ := turn_beat hturn hprompt hthread
    refine .inl ⟨hshared ▸ hnone, .inr (.inr ?_)⟩
    rw [hthread']
  · obtain ⟨hclock, hstored, hthread'⟩ := turn_storing hturn hprompt hthread
    refine .inr ⟨_, hstored, .inl ?_⟩
    rw [hthread']
    exact ⟨rfl, hclock⟩

end

/-- Where the task of a shard that has beaten can be. -/
theorem Beaten.turning (h : Beaten delay shard timed) : ∃ last since rest,
    (timed.shared.slots shard).heartbeat = millis last ∧ timed.threads (some shard) = (since, rest)
      ∧ (rest = addHeartbeats shard ∧ since ≤ last + delay
        ∨ rest = pulse shard ∧ since ≤ last + 2 * delay
        ∨ rest = beat shard ∧ since ≤ last + (heartbeat + 3 * delay)
        ∨ rest = storing shard (millis since) ∧ since ≤ last + (heartbeat + 4 * delay)) := by
  obtain ⟨last, hlast, hturning⟩ := h
  exact ⟨last, _, _, hlast, rfl, hturning⟩

theorem Beaten.turn (h : Beaten delay shard timed)
    (hturn : timed.turn (pace count seconds) (some shard) = some timed')
    (hprompt : timed.Prompt (pace count seconds) delay (some shard)) :
    Beaten delay shard timed' := by
  obtain ⟨last, since, rest, hlast, hthread,
    ⟨rfl, hsince⟩ | ⟨rfl, hsince⟩ | ⟨rfl, hsince⟩ | ⟨rfl, hsince⟩⟩ := h.turning
  · obtain ⟨hclock, hsame, hthread'⟩ := turn_addHeartbeats hturn hprompt hthread
    refine ⟨last, hsame.trans hlast, .inr (.inl ?_)⟩
    rw [hthread']
    exact ⟨rfl, by dsimp only; omega⟩
  · obtain ⟨hclock, hshared, hthread'⟩ := turn_pulse hturn hprompt hthread
    refine ⟨last, hshared ▸ hlast, .inr (.inr (.inl ?_))⟩
    rw [hthread']
    exact ⟨rfl, by dsimp only; omega⟩
  · obtain ⟨hclock, hshared, hthread'⟩ := turn_beat hturn hprompt hthread
    refine ⟨last, hshared ▸ hlast, .inr (.inr (.inr ?_))⟩
    rw [hthread']
    exact ⟨rfl, by dsimp only; omega⟩
  · obtain ⟨hclock, hstored, hthread'⟩ := turn_storing hturn hprompt hthread
    refine ⟨since, hstored, .inl ?_⟩
    rw [hthread']
    exact ⟨rfl, hclock⟩

theorem Beaten.fresh (h : Beaten delay shard timed)
    (hdelay : heartbeat + 5 * delay ≤ seconds * second)
    (hprompt : timed.Prompt (pace count seconds) delay (some shard)) :
    millis timed.clock
      ≤ (timed.shared.slots shard).heartbeat + millis (seconds * second) := by
  obtain ⟨last, since, rest, hlast, hthread, hturning⟩ := h.turning
  rw [hlast]
  refine millis_le last _ _ (le_trans ?_ (Nat.add_le_add_left hdelay last))
  obtain ⟨rfl, hsince⟩ | ⟨rfl, hsince⟩ | ⟨rfl, hsince⟩ | ⟨rfl, hsince⟩ := hturning
  all_goals
    have hclock := hprompt.le hthread
    dsimp only [pace, lasts] at hclock
    omega

/-! ## What the watchdog sees -/

/-- What the watchdog can rely on about a shard: once it has beaten, which is the first part of the
state, it is never late. -/
def watching (shard stale : ℕ) : Protocol Unit (Prop × ℕ × Board) where
  valid t := (¬t.1 → (t.2.2.slots shard).heartbeats = 0)
    ∧ (t.1 → millis t.2.1 ≤ (t.2.2.slots shard).heartbeat + millis stale)
    ∧ ∀ stalled ∈ t.2.2.reports, shard ∉ stalled
  rely _ t t' := (t.1 → t'.1) ∧ t.2.1 ≤ t'.2.1
  rely_refl _ _ := ⟨id, le_rfl⟩
  rely_trans hab hbc := ⟨hbc.1 ∘ hab.1, hab.2.trans hbc.2⟩

/-- An operation of the watchdog, which takes no time itself. -/
def looking (_ : Unit) : Interpretation Ans ((Prop × ℕ × Board) × Unit) := fun op t answer t' ↦
  t' = ((t.1.1, t.1.2.1, (perform t.1.2.1 op t.1.2.2).2), ())
    ∧ answer = (perform t.1.2.1 op t.1.2.2).1

variable {α : Type} {stale : ℕ} {beaten : Prop} {post : α → Unit → Prop × ℕ × Board → Prop}

theorem millis_mono {clock clock' : ℕ} (h : clock ≤ clock') : millis clock ≤ millis clock' := by
  have hmillis := Nat.div_le_div_right (c := 1000000) h
  rw [millis, millis]
  omega

theorem safe_read {shard : ℕ} {op : Op} {next : Ans op → Program Ans α}
    (hop : ∀ clock board, (perform clock op board).2 = board)
    (h : ∀ beaten' clock' board', (beaten → beaten') → clock ≤ clock' →
      (watching shard stale).valid (beaten', clock', board') →
        (next (perform clock' op board').1).Safe (watching shard stale) looking () post ()
          (beaten', clock', board')) :
    (Program.call op next).Safe (watching shard stale) looking () post ()
      (beaten, clock, board) := by
  rintro ⟨beaten', clock', board'⟩ ⟨hbeaten, hclock⟩ hvalid _ _ _ ⟨heq, rfl⟩
  obtain ⟨rfl, -⟩ := Prod.mk.inj heq
  dsimp only
  rw [hop]
  exact ⟨hvalid, fun j hj ↦ absurd rfl hj, h beaten' clock' board' hbeaten hclock hvalid⟩

theorem safe_late {shard : ℕ} (deadline other : ℕ)
    (hdeadline : deadline ≤ millis clock - millis stale) :
    (late deadline other).Safe (watching shard stale) looking ()
      (fun late _ t ↦ clock ≤ t.2.1 ∧ (late → shard ≠ other)) () (beaten, clock, board) := by
  rw [late_eq]
  refine safe_read (fun _ _ ↦ rfl) fun beaten₁ clock₁ board₁ hbeaten₁ hclock₁ hvalid₁ ↦ ?_
  dsimp only [perform]
  split
  · next hcount =>
    refine safe_read (fun _ _ ↦ rfl) fun beaten₂ clock₂ board₂ hbeaten₂ hclock₂ hvalid₂ ↦ ?_
    rintro t ⟨-, hclock⟩ -
    refine ⟨(hclock₁.trans hclock₂).trans hclock, ?_⟩
    rintro hlate rfl
    have hbeaten : beaten₁ := by
      by_contra hnot
      have hzero : (board₁.slots shard).heartbeats = 0 := hvalid₁.1 hnot
      rw [hzero] at hcount
      exact absurd hcount (lt_irrefl 0)
    have hfresh : millis clock₂ ≤ (board₂.slots shard).heartbeat + millis stale :=
      hvalid₂.2.1 (hbeaten₂ hbeaten)
    have hmillis := millis_mono (hclock₁.trans hclock₂)
    have hold : (board₂.slots shard).heartbeat < deadline := of_decide_eq_true hlate
    omega
  · rintro t ⟨-, hclock⟩ -
    exact ⟨hclock₁.trans hclock, fun h ↦ absurd h (by simp)⟩

theorem safe_stalledOf {shard : ℕ} (deadline : ℕ) (shards : List ℕ)
    (hdeadline : deadline ≤ millis clock - millis stale) :
    (stalledOf deadline shards).Safe (watching shard stale) looking ()
      (fun stalled _ _ ↦ shard ∉ stalled) () (beaten, clock, board) := by
  induction shards generalizing beaten clock board with
  | nil => exact fun _ _ _ ↦ List.not_mem_nil
  | cons other shards ih =>
    refine Program.Safe.bind ((safe_late deadline other hdeadline).imp ?_)
    rintro late _ ⟨beaten', clock', board'⟩ - ⟨hclock, hother⟩
    have hdeadline' : deadline ≤ millis clock' - millis stale :=
      hdeadline.trans (Nat.sub_le_sub_right (millis_mono hclock) _)
    refine Program.Safe.bind ((ih hdeadline').imp ?_)
    rintro rest _ t - hrest
    rintro t' - -
    split
    · next hlate => exact List.not_mem_cons_of_ne_of_not_mem (hother hlate) hrest
    · exact hrest

/-- Of a shard that keeps beating, the watchdog reports nothing. -/
theorem safe_watch {shard : ℕ} (count : ℕ) :
    (watch count stale).Safe (watching shard stale) looking () (fun _ _ _ ↦ True) ()
      (beaten, clock, board) := by
  refine safe_read (fun _ _ ↦ rfl) fun beaten₁ clock₁ board₁ _ _ _ ↦ ?_
  refine safe_read (fun _ _ ↦ rfl) fun beaten₂ clock₂ board₂ _ _ _ ↦ ?_
  refine Program.Safe.bind ((safe_stalledOf _ _ le_rfl).imp ?_)
  rintro stalled _ ⟨beaten₃, clock₃, board₃⟩ - hstalled
  split
  · rintro ⟨beaten₄, clock₄, board₄⟩ - hvalid _ _ _ ⟨heq, -⟩
    obtain ⟨rfl, -⟩ := Prod.mk.inj heq
    refine ⟨⟨hvalid.1, hvalid.2.1, ?_⟩, fun j hj ↦ absurd rfl hj, fun _ _ _ ↦ trivial⟩
    exact List.forall_mem_append.mpr ⟨hvalid.2.2, List.forall_mem_singleton.mpr hstalled⟩
  · exact fun _ _ _ ↦ trivial

/-! ## Whole runs -/

private theorem safe_resume {shard : ℕ} {program : Program Ans Unit} {t : Prop × ℕ × Board}
    (h : program.Safe (watching shard stale) looking () (fun _ _ _ ↦ True) () t) :
    (Timed.resume (watch count stale) program).Safe (watching shard stale) looking ()
      (fun _ _ _ ↦ True) () t := by
  cases program with
  | done value => exact safe_watch count
  | call op next => exact h

/-- A turn of a shard's task is none of the watchdog's. -/
private theorem Orderly.turn_some (h : Orderly timed)
    (hturn : timed.turn (pace count seconds) (some shard) = some timed') :
    timed'.shared.reports = timed.shared.reports ∧ timed'.threads none = timed.threads none
      ∧ timed'.clock = timed.clock := by
  obtain ⟨since, op, next, hthread, -, rfl⟩ := Timed.turn_eq_some hturn
  have hop := h (some shard)
  rw [hthread] at hop
  refine ⟨reports_perform_of_ne hop.1 (Option.some_ne_none shard), ?_, rfl⟩
  dsimp only
  rw [Function.update_of_ne (Option.some_ne_none shard).symm]

/-- What holds of a prompt shard between any two operations: it has or has not beaten, its task and
its slot say so, and the watchdog is safe in that knowledge. -/
private def Spared (delay seconds : ℕ) (shard : Fin count)
    (timed : Timed Ans (Option (Fin count)) Board) : Prop :=
  ∃ beaten, (¬beaten → Unbeaten shard timed) ∧ (beaten → Beaten delay shard timed)
    ∧ (∀ stalled ∈ timed.shared.reports, ↑shard ∉ stalled)
    ∧ (timed.threads none).2.Safe (watching shard (seconds * second)) looking () (fun _ _ _ ↦ True)
      () (beaten, timed.clock, timed.shared)

private theorem Spared.valid (hdelay : heartbeat + 5 * delay ≤ seconds * second) {beaten : Prop}
    (hnot : ¬beaten → Unbeaten shard timed) (hbeaten : beaten → Beaten delay shard timed)
    (hreports : ∀ stalled ∈ timed.shared.reports, ↑shard ∉ stalled)
    (hprompt : timed.Prompt (pace count seconds) delay (some shard)) :
    (watching shard (seconds * second)).valid (beaten, timed.clock, timed.shared) :=
  ⟨fun h ↦ (hnot h).1, fun h ↦ (hbeaten h).fresh hdelay hprompt, hreports⟩

/-- After a turn of its task the shard has or has not beaten, and if it had, it has. -/
private theorem exists_beaten {beaten : Prop} (hnot : ¬beaten → Unbeaten shard timed)
    (hbeaten : beaten → Beaten delay shard timed)
    (hturn : timed.turn (pace count seconds) (some shard) = some timed')
    (hprompt : timed.Prompt (pace count seconds) delay (some shard)) :
    ∃ beaten' : Prop, (beaten → beaten') ∧ (¬beaten' → Unbeaten shard timed')
      ∧ (beaten' → Beaten delay shard timed') := by
  by_cases hphase : beaten
  · exact ⟨True, fun _ ↦ trivial, fun h ↦ absurd trivial h,
      fun _ ↦ (hbeaten hphase).turn hturn hprompt⟩
  · obtain hstill | hfirst := (hnot hphase).turn hturn hprompt
    · exact ⟨False, hphase, fun _ ↦ hstill, False.elim⟩
    · exact ⟨True, fun _ ↦ trivial, fun h ↦ absurd trivial h, fun _ ↦ hfirst⟩

private theorem Spared.step (hdelay : heartbeat + 5 * delay ≤ seconds * second)
    (h : Spared delay seconds shard timed) (horderly : Orderly timed)
    (hprompt : timed.Prompt (pace count seconds) delay (some shard))
    (hstep : Timed.Step (pace count seconds) Set.univ timed timed') :
    Spared delay seconds shard timed' := by
  obtain ⟨beaten, hnot, hbeaten, hreports, hsafe⟩ := h
  have hvalid := Spared.valid hdelay hnot hbeaten hreports hprompt
  cases hstep with
  | wait duration =>
    exact ⟨beaten, hnot, hbeaten, hreports, hsafe.later ⟨id, Nat.le_add_right _ _⟩⟩
  | turn i hi hturn =>
    by_cases hshard : i = some shard
    · subst hshard
      obtain ⟨hreports', hnone, hclock⟩ := horderly.turn_some hturn
      obtain ⟨beaten', himp, hnot', hbeaten'⟩ := exists_beaten hnot hbeaten hturn hprompt
      refine ⟨beaten', hnot', hbeaten', hreports' ▸ hreports, ?_⟩
      rw [hnone]
      exact hsafe.later ⟨himp, hclock.ge⟩
    · -- Nobody else touches the shard's slot or its task.
      have hother : Timed.Step (pace count seconds) {i} timed timed' := .turn i rfl hturn
      obtain ⟨hslot, htask⟩ :=
        horderly.same (fun h : some shard ∈ ({i} : Set _) ↦ hshard h.symm) hother
      have hnot' : ¬beaten → Unbeaten shard timed' := fun h ↦ by
        rw [Unbeaten, hslot, htask]
        exact hnot h
      have hbeaten' : beaten → Beaten delay shard timed' := fun h ↦ by
        rw [Beaten, hslot, htask]
        exact hbeaten h
      cases i with
      | none =>
        obtain ⟨since, op, next, hthread, -, rfl⟩ := Timed.turn_eq_some hturn
        rw [hthread] at hsafe
        obtain ⟨hvalid', -, hnext⟩ := hsafe _ ⟨id, le_rfl⟩ hvalid _ _ _ ⟨rfl, rfl⟩
        refine ⟨beaten, hnot', hbeaten', hvalid'.2.2, ?_⟩
        dsimp only
        rw [Function.update_self]
        exact safe_resume hnext
      | some other =>
        obtain ⟨hreports', hnone, hclock⟩ := horderly.turn_some hturn
        refine ⟨beaten, hnot', hbeaten', hreports' ▸ hreports, ?_⟩
        rw [hnone]
        exact hsafe.later ⟨id, hclock.ge⟩

/-- **A shard that goes on is not reported.** If it is never too late for its next step, no look of
the watchdog, whenever its loads happen, takes it for one that has stopped. -/
theorem spares_of_steps (hdelay : heartbeat + 5 * delay ≤ seconds * second)
    (hsteps : Timed.Steps (pace count seconds) Set.univ {some shard} delay
      (Timed.start (pace count seconds) blank) timed) :
    ∀ stalled ∈ timed.shared.reports, ↑shard ∉ stalled := by
  suffices h : Orderly timed ∧ Spared delay seconds shard timed by
    obtain ⟨-, beaten, -, -, hreports, -⟩ := h
    exact hreports
  induction hsteps with
  | refl =>
    refine ⟨uses_loop, False, fun _ ↦ ⟨rfl, .inl rfl⟩, False.elim, ?_, safe_watch count⟩
    exact fun _ h ↦ absurd h List.not_mem_nil
  | tail _ hstep ih =>
    obtain ⟨hprompt, hstep, -⟩ := hstep
    exact ⟨ih.1.step hstep, ih.2.step hdelay ih.1 (hprompt _ rfl) hstep⟩

/-! ## What has stopped is reported -/

/-- The time that a turn of the watchdog takes, if each of its steps is this late. -/
def budget (count delay : ℕ) : ℕ := interval + (2 * count + 3) * delay

section

variable {possible : (op : Op) → Ans op → Prop} {goal : Op → Prop} {stopped : Set ℕ} {k : ℕ}

theorem reaches_late (deadline shard : ℕ)
    (hbeaten : shard ∈ stopped → ∀ heartbeats : ℕ, possible (.loadHeartbeats shard) heartbeats →
      0 < heartbeats)
    (hlate : shard ∈ stopped → ∀ heartbeat : ℕ, possible (.loadHeartbeat shard) heartbeat →
      heartbeat < deadline) :
    (late deadline shard).Reaches (lasts · + delay) possible goal
      (fun late m ↦ (shard ∈ stopped → late) ∧ k ≤ m) (2 * delay + k) := by
  rw [late_eq]
  refine Program.reaches_call (m := delay + k) (fun heartbeats hcount ↦ ?_) ?_
  · split
    · refine Program.reaches_call (m := k) (fun (heartbeat : ℕ) hread ↦ ⟨fun h ↦ ?_, le_rfl⟩) ?_
      · have hold : heartbeat < deadline := hlate h heartbeat hread
        exact decide_eq_true hold
      · dsimp only [lasts]
        rw [Nat.zero_add]
    · next hzero => exact ⟨fun h ↦ absurd (hbeaten h heartbeats hcount) hzero, Nat.le_add_left _ _⟩
  · dsimp only [lasts]
    omega

theorem reaches_stalledOf (deadline : ℕ) (shards : List ℕ)
    (hbeaten : ∀ shard ∈ stopped, ∀ heartbeats : ℕ, possible (.loadHeartbeats shard) heartbeats →
      0 < heartbeats)
    (hlate : ∀ shard ∈ stopped, ∀ heartbeat : ℕ, possible (.loadHeartbeat shard) heartbeat →
      heartbeat < deadline) :
    (stalledOf deadline shards).Reaches (lasts · + delay) possible goal
      (fun stalled m ↦ (∀ shard ∈ shards, shard ∈ stopped → shard ∈ stalled) ∧ k ≤ m)
      (2 * shards.length * delay + k) := by
  induction shards with
  | nil =>
    refine ⟨fun _ h ↦ absurd h List.not_mem_nil, Nat.le_add_left _ _⟩
  | cons shard shards ih =>
    have hlength : 2 * (shard :: shards).length * delay + k
        = 2 * delay + (2 * shards.length * delay + k) := by
      rw [List.length_cons]
      ring
    rw [hlength]
    refine Program.Reaches.bind
      ((reaches_late deadline shard (hbeaten shard) (hlate shard)).post ?_)
    rintro late m ⟨hshard, hm⟩
    refine Program.Reaches.bind ((ih.mono hm ?_).post ?_)
    · exact fun _ _ _ h hle ↦ ⟨h.1, h.2.trans hle⟩
    · rintro rest m' ⟨hrest, hm'⟩
      refine ⟨?_, hm'⟩
      rintro other hother hin
      obtain rfl | hmem := List.mem_cons.mp hother
      · rw [if_pos (hshard hin)]
        exact List.mem_cons_self
      · split
        · exact List.mem_cons_of_mem _ (hrest other hmem hin)
        · exact hrest other hmem hin

/-- A turn of the watchdog, which must find the shards that have stopped. -/
theorem reaches_watch (stopped : Set ℕ) {stale : ℕ} {after : Unit → ℕ → Prop}
    (hbeaten : ∀ shard ∈ stopped, ∀ heartbeats : ℕ, possible (.loadHeartbeats shard) heartbeats →
      0 < heartbeats)
    (hlate : ∀ elapsed : ℕ, possible .elapsed elapsed → ∀ shard ∈ stopped, ∀ heartbeat : ℕ,
      possible (.loadHeartbeat shard) heartbeat → heartbeat < millis elapsed - millis stale)
    (hend : ∀ stalled : List ℕ, (∀ shard ∈ stopped, shard < count → shard ∈ stalled) →
      (∀ m, after () m) ∨ stalled ≠ [] ∧ goal (.report stalled)) :
    (watch count stale).Reaches (lasts · + delay) possible goal after (budget count delay) := by
  refine Program.reaches_call (m := (2 * count + 2) * delay) (fun _ _ ↦ ?_) ?_
  · refine Program.reaches_call (m := 2 * count * delay + delay) (fun elapsed helapsed ↦ ?_) ?_
    · have hstalled : (stalledOf (millis elapsed - millis stale) (List.range count)).Reaches
          (lasts · + delay) possible goal (fun stalled m ↦ (∀ shard ∈ List.range count,
            shard ∈ stopped → shard ∈ stalled) ∧ delay ≤ m)
          (2 * (List.range count).length * delay + delay) :=
        reaches_stalledOf _ _ hbeaten (hlate elapsed helapsed)
      rw [List.length_range] at hstalled
      refine Program.Reaches.bind (hstalled.post ?_)
      rintro stalled m ⟨hmem, hm⟩
      have hfound := hend stalled fun shard hin hlt ↦ hmem shard (List.mem_range.mpr hlt) hin
      split
      · refine ⟨(Nat.zero_add delay).le.trans hm, hfound.symm.imp And.right fun h _ _ ↦ h _⟩
      · next hempty => exact hfound.elim (fun h ↦ h m) fun h ↦ absurd h.1 hempty
    · dsimp only [lasts]
      ring
  · dsimp only [lasts, budget]
    ring

end

private theorem within_watch (stale : ℕ) :
    (watch count stale).Within (lasts · + delay) (budget count delay) :=
  reaches_watch ∅ (fun _ h ↦ absurd h (Set.notMem_empty _))
    (fun _ _ _ h ↦ absurd h (Set.notMem_empty _)) fun _ _ ↦ .inl fun _ ↦ trivial

/-- What the operations of the watchdog can be answered once a slot stays as it is. -/
def Answers (shard : ℕ) (slot : Slot) (begins ends : ℕ) : (op : Op) → Ans op → Prop
  | .elapsed, (elapsed : ℕ) => begins ≤ elapsed ∧ elapsed ≤ ends
  | .loadHeartbeats other, heartbeats => other = shard → heartbeats = slot.heartbeats
  | .loadHeartbeat other, heartbeat => other = shard → heartbeat = slot.heartbeat
  | _, _ => True

/-- When a slot was written for the last time so long ago that the watchdog must say so. -/
def expiry (slot : Slot) (seconds : ℕ) : ℕ := (slot.heartbeat + seconds * 1000 + 1) * 1000000

private theorem reaches_report {slot : Slot} {ends : ℕ} (hbeaten : 0 < slot.heartbeats)
    (hends : ends < 2 ^ 64 * 1000000) :
    (watch count (seconds * second)).Reaches (lasts · + delay)
      (Answers shard slot (expiry slot seconds) ends)
      (fun op ↦ ∃ stalled, op = .report stalled ∧ ↑shard ∈ stalled) (fun _ _ ↦ False)
      (budget count delay) := by
  refine reaches_watch {(shard : ℕ)} ?_ ?_ fun stalled hmem ↦ .inr ?_
  · rintro _ rfl heartbeats hcount
    rw [hcount rfl]
    exact hbeaten
  · rintro elapsed ⟨hbegins, hle⟩ _ rfl heartbeat hread
    rw [hread rfl]
    have hmillis : slot.heartbeat + seconds * 1000 + 1 ≤ elapsed / 1000000 :=
      (Nat.le_div_iff_mul_le (by decide)).mpr hbegins
    have hlast : elapsed / 1000000 < 2 ^ 64 := Nat.div_lt_of_lt_mul (by omega)
    have hstale : seconds * second / 1000000 = seconds * 1000 := by
      rw [second]
      omega
    rw [millis, millis, hstale]
    omega
  · have hfound := hmem shard rfl shard.isLt
    exact ⟨List.ne_nil_of_mem hfound, stalled, rfl, hfound⟩

theorem reports_of_steps {active prompt : Set (Option (Fin count))}
    (h : Timed.Steps (pace count seconds) active prompt delay timed timed') :
    timed.shared.reports <+: timed'.shared.reports := by
  induction h with
  | refl => exact List.prefix_rfl
  | tail _ hstep ih =>
    refine ih.trans ?_
    obtain ⟨-, hstep, -⟩ := hstep
    cases hstep with
    | wait duration => exact List.prefix_rfl
    | turn i hi hturn =>
      obtain ⟨since, op, next, -, -, rfl⟩ := Timed.turn_eq_some hturn
      exact reports_perform _ _ _

private theorem looking_of_steps {active prompt : Set (Option (Fin count))} {lateness : ℕ}
    (delay : ℕ) (h : Timed.Steps (pace count seconds) active prompt lateness
      (Timed.start (pace count seconds) blank) timed) :
    Orderly timed ∧ (timed.threads none).1 ≤ timed.clock
      ∧ (timed.threads none).2.Within (lasts · + delay) (budget count delay) := by
  induction h with
  | refl => exact ⟨uses_loop, le_rfl, within_watch _⟩
  | tail _ hstep ih =>
    obtain ⟨-, hstep, -⟩ := hstep
    exact ⟨ih.1.step hstep, hstep.since_le none ih.2.1, hstep.within (within_watch _) ih.2.2⟩

private theorem slot_of_steps {prompt : Set (Option (Fin count))} (horderly : Orderly timed)
    (h : Timed.Steps (pace count seconds) {i | i ≠ some shard} prompt delay timed timed') :
    Orderly timed' ∧ timed'.shared.slots shard = timed.shared.slots shard := by
  induction h with
  | refl => exact ⟨horderly, rfl⟩
  | tail _ hstep ih =>
    obtain ⟨-, hstep, -⟩ := hstep
    have hsame := (ih.1.same (fun h : some shard ≠ some shard ↦ h rfl) hstep).1
    exact ⟨ih.1.step hstep, hsame.trans ih.2⟩

/-- **A shard that has stopped is reported.** If it has beaten before and does nothing any more, a
watchdog that is not late itself reports it, at most two of its turns after it has to. -/
theorem notices_of_steps
    (hsteps : Timed.Steps (pace count seconds) Set.univ ∅ 0
      (Timed.start (pace count seconds) blank) timed)
    (hbeaten : 0 < (timed.shared.slots shard).heartbeats)
    (hsilent : Timed.Steps (pace count seconds) {i | i ≠ some shard} {none} delay timed timed')
    (hclock : timed'.clock < 2 ^ 64 * 1000000) :
    timed'.clock ≤ max timed.clock (expiry (timed.shared.slots shard) seconds)
        + (budget count delay + budget count delay)
      ∨ ∃ before stalled after, timed'.shared.reports
          = timed.shared.reports ++ before ++ stalled :: after ∧ (shard : ℕ) ∈ stalled := by
  obtain ⟨horderly, hsince, hwithin⟩ := looking_of_steps delay hsteps
  have hpossible : ∀ mid, Timed.Steps (pace count seconds) {i | i ≠ some shard} {none} delay timed
      mid → expiry (timed.shared.slots shard) seconds ≤ mid.clock → mid.clock ≤ timed'.clock →
      ∀ op, Answers shard (timed.shared.slots shard) (expiry (timed.shared.slots shard) seconds)
        timed'.clock op (perform mid.clock op mid.shared).1 := by
    intro mid hmid hbegins hends op
    have hslot := (slot_of_steps horderly hmid).2
    cases op with
    | elapsed => exact ⟨hbegins, hends⟩
    | loadHeartbeats other =>
      rintro rfl
      exact congrArg Slot.heartbeats hslot
    | loadHeartbeat other =>
      rintro rfl
      exact congrArg Slot.heartbeat hslot
    | sleep | storeHeartbeat | addHeartbeats | report => trivial
  refine (hsilent.reaches (Set.mem_singleton none) hsince hwithin (within_watch _)
    (reaches_report hbeaten hclock) le_rfl hpossible).imp id ?_
  rintro ⟨mid, since, op, next, hmid, hthread, ⟨stalled, rfl, hfound⟩, last, hturn, hlast⟩
  obtain ⟨before, hbefore⟩ := reports_of_steps hmid
  obtain ⟨after, hafter⟩ := reports_of_steps hlast
  refine ⟨before, stalled, after, ?_, hfound⟩
  rw [← hafter, Timed.eq_of_turn hthread hturn, hbefore, List.append_cons]
  rfl

/-! ## Two shards -/

section Specimen

/-- Two shards beat once. -/
def beats : List (ℕ × Option (Fin 2)) :=
  [(second, some 0), (0, some 0), (0, some 0), (0, some 0),
    (0, some 1), (0, some 1), (0, some 1), (0, some 1)]

/-- The first goes on, until the watchdog has looked. -/
def beatsAndLook : List (ℕ × Option (Fin 2)) :=
  beats ++ [(second, some 0), (0, some 0), (0, some 0), (0, some 0),
    (second, some 0), (0, some 0), (0, some 0), (0, some 0),
    (second, some 0), (0, some 0), (0, some 0), (0, some 0),
    (second, none), (0, none), (0, none), (0, none), (0, some 0), (0, some 0), (0, some 0),
    (0, some 0), (0, none), (0, none), (0, none)]

/-- Or neither does, and the watchdog looks twice. -/
def looks : List (ℕ × Option (Fin 2)) :=
  [(4 * second, none), (0, none), (0, none), (0, none), (0, none), (0, none), (0, none),
    (5 * second, none), (0, none), (0, none), (0, none), (0, none), (0, none), (0, none),
    (5 * second, none)]

theorem reports_beatsAndLook : (Timed.follow (pace 2 2) [some 0] 0 beatsAndLook
      (Timed.start (pace 2 2) blank)).map (·.shared.reports) = some [[1]] := by
  decide +kernel

/-- Of two shards, the one that has stopped is reported, and the other is not. -/
theorem spares_other : ∃ timed : Timed Ans (Option (Fin 2)) Board, timed.shared.reports = [[1]]
    ∧ ∀ stalled ∈ timed.shared.reports, ((0 : Fin 2) : ℕ) ∉ stalled := by
  obtain ⟨timed, hfollow, hreports⟩ := Option.map_eq_some_iff.mp reports_beatsAndLook
  exact ⟨timed, hreports, spares_of_steps (by decide) (Timed.steps_of_follow
    (fun _ _ ↦ Set.mem_univ _) (fun i hi ↦ hi ▸ List.mem_singleton_self _) hfollow)⟩

theorem clock_looks : ((Timed.follow (pace 2 2) [] 0 beats (Timed.start (pace 2 2) blank)).bind
      fun timed ↦ (Timed.follow (pace 2 2) [none] 0 looks timed).map fun timed' ↦
        (timed.clock, timed.shared.reports, timed.shared.slots 1 |>.heartbeats,
          timed.shared.slots 1 |>.heartbeat, timed'.clock))
    = some (1 * second, [], 1, 1000, 15 * second) := by
  decide +kernel

/-- Two shards that have stopped are reported. -/
theorem notices_both : ∃ timed timed' : Timed Ans (Option (Fin 2)) Board,
    timed.shared.reports = [] ∧ ∃ before stalled after, timed'.shared.reports
      = timed.shared.reports ++ before ++ stalled :: after ∧ ((1 : Fin 2) : ℕ) ∈ stalled := by
  obtain ⟨timed, hbeats, hrest⟩ := Option.bind_eq_some_iff.mp clock_looks
  obtain ⟨timed', hlooks, hvalues⟩ := Option.map_eq_some_iff.mp hrest
  obtain ⟨hclock, hvalues⟩ := Prod.mk.inj hvalues
  obtain ⟨hreports, hvalues⟩ := Prod.mk.inj hvalues
  obtain ⟨hcount, hvalues⟩ := Prod.mk.inj hvalues
  obtain ⟨hlast, hclock'⟩ := Prod.mk.inj hvalues
  have hactive : ∀ turn ∈ looks, turn.2 ∈ {i : Option (Fin 2) | i ≠ some 1} := by decide
  have hslot : (timed.shared.slots (1 : Fin 2)).heartbeats = 1
    ∧ (timed.shared.slots (1 : Fin 2)).heartbeat = 1000 := ⟨hcount, hlast⟩
  obtain hlate | hreported := notices_of_steps
    (Timed.steps_of_follow (fun _ _ ↦ Set.mem_univ _) (fun _ h ↦ h.elim) hbeats)
    (hslot.1.symm ▸ Nat.one_pos) (Timed.steps_of_follow hactive
      (fun i hi ↦ hi ▸ List.mem_singleton_self _) hlooks) (hclock' ▸ by decide)
  · rw [hclock', hclock, expiry, hslot.2] at hlate
    exact absurd hlate (by decide)
  · exact ⟨timed, timed', hreports, hreported⟩

end Specimen

end Watchdog

end Bincache
