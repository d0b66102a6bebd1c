import Bincache.Lib.Program
import Mathlib.Data.Nat.Basic
import Mathlib.Data.Set.Insert
import Mathlib.Logic.Function.Basic
import Mathlib.Logic.Relation
import Mathlib.Tactic.Common

/-!
# Threads with a clock

Threads that repeat their programs for ever over one shared state, in real time. An operation lasts
at least as long as it says; a thread that is *prompt* performs it at most so much later. Time
passes between any two operations, and nothing else is assumed of the order in which threads take
turns.

`Program.Reaches` says of a program alone how soon it gets somewhere, if its operations are answered
in a given way, and composes with `bind`. `Timed.Steps.reaches` brings it to a thread among others:
as long as it has not got there, the time it was given is not over.
-/

namespace Program

variable {Op : Type} {Ans : Op → Type} {α β : Type} {cost : Op → ℕ}
  {possible : (op : Op) → Ans op → Prop} {goal : Op → Prop} {after : α → ℕ → Prop} {n : ℕ}

/-- Of `n`, which is the time it has if an operation takes no longer than it costs, the program has
enough to perform an operation of `goal`, or to be done and to have as much left as `after` asks. -/
def Reaches (cost : Op → ℕ) (possible : (op : Op) → Ans op → Prop) (goal : Op → Prop) :
    Program Ans α → (α → ℕ → Prop) → ℕ → Prop
  | .done value, after, n => after value n
  | .call op next, after, n => cost op ≤ n ∧ (goal op ∨ ∀ answer, possible op answer →
      (next answer).Reaches cost possible goal after (n - cost op))

theorem reaches_call {op : Op} {next : Ans op → Program Ans α} {m : ℕ}
    (h : ∀ answer, possible op answer → (next answer).Reaches cost possible goal after m)
    (hcost : n = cost op + m) : (Program.call op next).Reaches cost possible goal after n := by
  subst hcost
  refine ⟨Nat.le_add_right _ _, .inr fun answer hanswer ↦ ?_⟩
  rw [Nat.add_sub_cancel_left]
  exact h answer hanswer

theorem Reaches.bind {program : Program Ans α} {f : α → Program Ans β} {after : β → ℕ → Prop}
    (h : program.Reaches cost possible goal
      (fun value m ↦ (f value).Reaches cost possible goal after m) n) :
    (program >>= f).Reaches cost possible goal after n := by
  induction program generalizing n with
  | done value => exact h
  | call op next ih =>
    exact ⟨h.1, h.2.imp id fun hnext answer hanswer ↦ ih answer (hnext answer hanswer)⟩

/-- More time, for fewer answers and more goals. -/
theorem Reaches.imp {possible' : (op : Op) → Ans op → Prop} {goal' : Op → Prop}
    {after' : α → ℕ → Prop} {program : Program Ans α} {m : ℕ}
    (h : program.Reaches cost possible goal after n) (hnm : n ≤ m)
    (hpossible : ∀ op answer, possible' op answer → possible op answer)
    (hgoal : ∀ op, goal op → goal' op)
    (hafter : ∀ value k, after value k → after' value (k + (m - n))) :
    program.Reaches cost possible' goal' after' m := by
  induction program generalizing n m with
  | done value =>
    have := hafter value n h
    rwa [Nat.add_sub_cancel' hnm] at this
  | call op next ih =>
    refine ⟨h.1.trans hnm, h.2.imp (hgoal op) fun hnext answer hanswer ↦ ?_⟩
    refine ih answer (hnext answer (hpossible op answer hanswer)) (Nat.sub_le_sub_right hnm _) ?_
    intro value k hk
    have hsame : m - cost op - (n - cost op) = m - n := by
      have := h.1
      omega
    rw [hsame]
    exact hafter value k hk

theorem Reaches.post {after' : α → ℕ → Prop} {program : Program Ans α}
    (h : program.Reaches cost possible goal after n)
    (hafter : ∀ value k, after value k → after' value k) :
    program.Reaches cost possible goal after' n :=
  h.imp le_rfl (fun _ _ ↦ id) (fun _ ↦ id) fun value k hk ↦ by
    rw [Nat.sub_self]
    exact hafter value k hk

theorem Reaches.mono {program : Program Ans α} {m : ℕ}
    (h : program.Reaches cost possible goal after n) (hnm : n ≤ m)
    (hafter : ∀ value k l, after value k → k ≤ l → after value l) :
    program.Reaches cost possible goal after m :=
  h.imp hnm (fun _ _ ↦ id) (fun _ ↦ id) fun value k hk ↦
    hafter value k _ hk (Nat.le_add_right _ _)

/-- The program is done in this time, whatever the answers are. -/
def Within (cost : Op → ℕ) (program : Program Ans α) (n : ℕ) : Prop :=
  program.Reaches cost (fun _ _ ↦ True) (fun _ ↦ False) (fun _ _ ↦ True) n

theorem Within.mono {program : Program Ans α} {m : ℕ} (h : program.Within cost n) (hnm : n ≤ m) :
    program.Within cost m :=
  Reaches.imp h hnm (fun _ _ ↦ id) (fun _ ↦ id) fun _ _ _ ↦ trivial

theorem Within.next {op : Op} {next : Ans op → Program Ans α}
    (h : (Program.call op next).Within cost n) (answer : Ans op) : (next answer).Within cost n :=
  (show (next answer).Within cost (n - cost op) from
    h.2.elim False.elim fun hnext ↦ hnext answer trivial).mono (Nat.sub_le _ _)

end Program

/-- What the threads of a state `S` do: how long an operation lasts at least, what it does at a
given time, and what each of them repeats. -/
structure Pace {Op : Type} (Ans : Op → Type) (ι S : Type) where
  lasts : Op → ℕ
  perform : ℕ → (op : Op) → S → Ans op × S
  loop : ι → Program Ans Unit

/-- The time, the shared state, and of each thread since when it has been at the rest of its
program. -/
structure Timed {Op : Type} (Ans : Op → Type) (ι S : Type) where
  clock : ℕ
  shared : S
  threads : ι → ℕ × Program Ans Unit

namespace Timed

variable {Op : Type} {Ans : Op → Type} {ι S : Type}

/-- Begins again what is done. -/
def resume (loop : Program Ans Unit) : Program Ans Unit → Program Ans Unit
  | .done () => loop
  | .call op next => .call op next

variable [DecidableEq ι] (pace : Pace Ans ι S)

/-- The threads when nothing has been done. -/
def start (shared : S) : Timed Ans ι S := ⟨0, shared, fun i ↦ (0, pace.loop i)⟩

/-- Some time later. -/
def wait (duration : ℕ) (timed : Timed Ans ι S) : Timed Ans ι S :=
  { timed with clock := timed.clock + duration }

/-- Thread `i` performs its next operation, if that has lasted long enough. -/
def turn (i : ι) (timed : Timed Ans ι S) : Option (Timed Ans ι S) :=
  match timed.threads i with
  | (_, .done ()) => none
  | (since, .call op next) =>
    if since + pace.lasts op ≤ timed.clock then
      let (answer, shared) := pace.perform timed.clock op timed.shared
      some ⟨timed.clock, shared,
        Function.update timed.threads i (timed.clock, resume (pace.loop i) (next answer))⟩
    else none

/-- What can happen next, if only the threads in `active` take turns. -/
inductive Step (active : Set ι) : Timed Ans ι S → Timed Ans ι S → Prop
  | wait (duration : ℕ) (timed : Timed Ans ι S) : Step active timed (timed.wait duration)
  | turn (i : ι) {timed timed' : Timed Ans ι S} (hactive : i ∈ active)
      (hturn : timed.turn pace i = some timed') : Step active timed timed'

/-- How long after it was begun the next operation is performed, if that is at most `delay` late. -/
def due (pace : Pace Ans ι S) (delay : ℕ) : Program Ans Unit → ℕ
  | .done () => delay
  | .call op _ => pace.lasts op + delay

/-- Thread `i` is at most `delay` late. -/
def Prompt (delay : ℕ) (i : ι) (timed : Timed Ans ι S) : Prop :=
  timed.clock ≤ (timed.threads i).1 + due pace delay (timed.threads i).2

instance (delay : ℕ) (i : ι) (timed : Timed Ans ι S) : Decidable (timed.Prompt pace delay i) :=
  inferInstanceAs (Decidable (_ ≤ _))

/-- Steps in which the threads in `prompt` are at most `delay` late. -/
def Steps (active prompt : Set ι) (delay : ℕ) : Timed Ans ι S → Timed Ans ι S → Prop :=
  Relation.ReflTransGen fun timed timed' ↦ (∀ i ∈ prompt, timed.Prompt pace delay i)
    ∧ Step pace active timed timed' ∧ ∀ i ∈ prompt, timed'.Prompt pace delay i

variable {pace} {i : ι} {timed timed' : Timed Ans ι S}

theorem turn_eq_some (h : timed.turn pace i = some timed') : ∃ since op next,
    timed.threads i = (since, .call op next) ∧ since + pace.lasts op ≤ timed.clock
      ∧ timed' = ⟨timed.clock, (pace.perform timed.clock op timed.shared).2,
        Function.update timed.threads i (timed.clock, resume (pace.loop i)
          (next (pace.perform timed.clock op timed.shared).1))⟩ := by
  rw [turn] at h
  split at h
  · cases h
  · next since op next hthread =>
    split at h
    · next hlasts => exact ⟨since, op, next, hthread, hlasts, (Option.some.inj h).symm⟩
    · cases h

omit [DecidableEq ι] in
theorem Prompt.le {delay since : ℕ} {op : Op} {next : Ans op → Program Ans Unit}
    (h : timed.Prompt pace delay i) (hthread : timed.threads i = (since, .call op next)) :
    timed.clock ≤ since + (pace.lasts op + delay) := by
  rw [Prompt, hthread] at h
  exact h

theorem eq_of_turn {since : ℕ} {op : Op} {next : Ans op → Program Ans Unit}
    (hthread : timed.threads i = (since, .call op next)) (h : timed.turn pace i = some timed') :
    timed' = ⟨timed.clock, (pace.perform timed.clock op timed.shared).2,
      Function.update timed.threads i (timed.clock, resume (pace.loop i)
        (next (pace.perform timed.clock op timed.shared).1))⟩ := by
  rw [turn, hthread] at h
  dsimp only at h
  split at h
  · exact (Option.some.inj h).symm
  · cases h

theorem Step.clock_le {active : Set ι} (h : Step pace active timed timed') :
    timed.clock ≤ timed'.clock := by
  cases h with
  | wait duration => exact Nat.le_add_right _ _
  | turn i hactive hturn =>
    obtain ⟨since, op, next, -, -, rfl⟩ := turn_eq_some hturn
    exact le_rfl

theorem Step.since_le {active : Set ι} (h : Step pace active timed timed') (i : ι)
    (hsince : (timed.threads i).1 ≤ timed.clock) : (timed'.threads i).1 ≤ timed'.clock := by
  cases h with
  | wait duration => exact hsince.trans (Nat.le_add_right _ _)
  | turn j hactive hturn =>
    obtain ⟨since, op, next, -, -, rfl⟩ := turn_eq_some hturn
    by_cases hij : i = j
    · subst hij
      dsimp only
      rw [Function.update_self]
    · dsimp only
      rw [Function.update_of_ne hij]
      exact hsince

/-- What every program uses that the threads repeat, the rest of it uses. -/
theorem Step.uses {active : Set ι} {allowed : ι → Op → Prop} (h : Step pace active timed timed')
    (hloop : ∀ i, (pace.loop i).Uses (allowed i))
    (huses : ∀ i, (timed.threads i).2.Uses (allowed i)) (i : ι) :
    (timed'.threads i).2.Uses (allowed i) := by
  cases h with
  | wait duration => exact huses i
  | turn j hactive hturn =>
    obtain ⟨since, op, next, hthread, -, rfl⟩ := turn_eq_some hturn
    by_cases hij : i = j
    · subst hij
      have hrest := huses i
      rw [hthread] at hrest
      dsimp only
      rw [Function.update_self]
      dsimp only
      generalize hanswer : (pace.perform timed.clock op timed.shared).1 = answer
      have hnext := hrest.2 answer
      cases hprogram : next answer with
      | done value => exact hloop i
      | call op' next' =>
        rw [hprogram] at hnext
        exact hnext
    · dsimp only
      rw [Function.update_of_ne hij]
      exact huses i

/-! ## Getting there in time -/

open Program (Reaches Within)

variable {cost : Op → ℕ} {possible : (op : Op) → Ans op → Prop} {goal : Op → Prop} {n budget : ℕ}
  {loop program : Program Ans Unit}

theorem within_resume (hloop : loop.Within cost n) (h : program.Within cost n) :
    (resume loop program).Within cost n := by
  cases program with
  | done value => exact hloop
  | call op next => exact h

/-- A thread whose turns are over in time is never longer from the end of one. -/
theorem Step.within {active : Set ι} {cost : Op → ℕ} (h : Step pace active timed timed')
    (hloop : (pace.loop i).Within cost n) (hthread : (timed.threads i).2.Within cost n) :
    (timed'.threads i).2.Within cost n := by
  cases h with
  | wait duration => exact hthread
  | turn j hactive hturn =>
    obtain ⟨since, op, next, hj, -, rfl⟩ := turn_eq_some hturn
    dsimp only
    by_cases hij : i = j
    · subst hij
      rw [hj] at hthread
      rw [Function.update_self]
      exact within_resume hloop (hthread.next _)
    · rw [Function.update_of_ne hij]
      exact hthread

/-- What is left when a turn is over is time for the next one. -/
def Next (cost : Op → ℕ) (possible : (op : Op) → Ans op → Prop) (goal : Op → Prop)
    (loop : Program Ans Unit) (_ : Unit) (n : ℕ) : Prop :=
  loop.Reaches cost possible goal (fun _ _ ↦ False) n

theorem reaches_resume (h : program.Reaches cost possible goal (Next cost possible goal loop) n) :
    (resume loop program).Reaches cost possible goal (Next cost possible goal loop) n := by
  cases program with
  | done value => exact Reaches.imp h le_rfl (fun _ _ ↦ id) (fun _ ↦ id) fun _ _ ↦ False.elim
  | call op next => exact h

/-- If one whole turn gets there, so does what is left of a turn and then another. -/
theorem reaches_of_within (hloop : loop.Reaches cost possible goal (fun _ _ ↦ False) budget)
    (h : program.Within cost n) :
    program.Reaches cost possible goal (Next cost possible goal loop) (n + budget) := by
  refine Reaches.imp h (Nat.le_add_right _ _) (fun _ _ _ ↦ trivial) (fun _ ↦ False.elim) ?_
  intro value k _
  rw [Nat.add_sub_cancel_left]
  exact Reaches.imp hloop (Nat.le_add_left _ _) (fun _ _ ↦ id) (fun _ ↦ id) fun _ _ ↦ False.elim

variable (pace) in
/-- Between two states, thread `i` performs an operation of `goal`. -/
def Performs (active prompt : Set ι) (delay : ℕ) (i : ι) (goal : Op → Prop)
    (timed timed' : Timed Ans ι S) : Prop :=
  ∃ before since op next, Steps pace active prompt delay timed before
    ∧ before.threads i = (since, .call op next) ∧ goal op
    ∧ ∃ after, before.turn pace i = some after ∧ Steps pace active prompt delay after timed'

variable {active prompt : Set ι} {delay begins : ℕ}

/-- Before `begins` the turn will be over in time. After it, this turn or the next gets there. -/
private def Pending (pace : Pace Ans ι S) (delay : ℕ) (i : ι) (possible : (op : Op) → Ans op → Prop)
    (goal : Op → Prop) (begins limit budget : ℕ) (timed : Timed Ans ι S) : Prop :=
  (timed.threads i).1 ≤ timed.clock ∧
    (timed.clock < begins ∧ (timed.threads i).2.Within (pace.lasts · + delay) budget
      ∨ begins ≤ timed.clock ∧ ∃ n, (timed.threads i).1 + n ≤ limit
        ∧ (timed.threads i).2.Reaches (pace.lasts · + delay) possible goal
          (Next (pace.lasts · + delay) possible goal (pace.loop i)) n)

private theorem Pending.step {limit : ℕ}
    (h : Pending pace delay i possible goal begins limit budget timed)
    (hlimit : begins + (budget + budget) ≤ limit)
    (hwithin : (pace.loop i).Within (pace.lasts · + delay) budget)
    (hloop : (pace.loop i).Reaches (pace.lasts · + delay) possible goal (fun _ _ ↦ False) budget)
    (hpossible : begins ≤ timed.clock →
      ∀ op, possible op (pace.perform timed.clock op timed.shared).1)
    (hprompt : timed.Prompt pace delay i) (hstep : Step pace active timed timed') :
    Pending pace delay i possible goal begins limit budget timed'
      ∨ ∃ since op next, timed.threads i = (since, .call op next) ∧ goal op
        ∧ timed.turn pace i = some timed' := by
  obtain ⟨hsince, hpending⟩ := h
  have hsince' := hstep.since_le i hsince
  cases hstep with
  | wait duration =>
    refine .inl ⟨hsince', ?_⟩
    obtain ⟨hearly, hrest⟩ | ⟨hlate, n, hn, hrest⟩ := hpending
    · by_cases hbegin : timed.clock + duration < begins
      · exact .inl ⟨hbegin, hrest⟩
      · refine .inr ⟨not_lt.mp hbegin, budget + budget, ?_, reaches_of_within hloop hrest⟩
        exact (Nat.add_le_add_right (hsince.trans hearly.le) _).trans hlimit
    · exact .inr ⟨hlate.trans (Nat.le_add_right _ _), n, hn, hrest⟩
  | turn j hactive hturn =>
    obtain ⟨since, op, next, hthread, hlasts, rfl⟩ := turn_eq_some hturn
    by_cases hij : i = j
    · subst hij
      rw [hthread] at hpending hsince
      have hclock := hprompt.le hthread
      rw [Pending]
      dsimp only
      rw [Function.update_self]
      dsimp only
      obtain ⟨hearly, hrest⟩ | ⟨hlate, n, hn, hcost, hrest⟩ := hpending
      · exact .inl ⟨le_rfl, .inl ⟨hearly, within_resume hwithin (hrest.next _)⟩⟩
      · obtain hgoal | hnext := hrest
        · exact .inr ⟨since, op, next, hthread, hgoal, hturn⟩
        · refine .inl ⟨le_rfl, .inr ⟨hlate, n - (pace.lasts op + delay), ?_,
            reaches_resume (hnext _ (hpossible hlate op))⟩⟩
          dsimp only at hn hcost
          omega
    · refine .inl ⟨hsince', ?_⟩
      dsimp only
      rw [Function.update_of_ne hij]
      exact hpending

omit [DecidableEq ι] in
/-- A turn that gets there takes as long as its first operation may be late. -/
private theorem Next.delay_le {value : Unit}
    (h : Next (pace.lasts · + delay) possible goal loop value n) : delay ≤ n := by
  cases loop with
  | done value => exact h.elim
  | call op next => exact (Nat.le_add_left _ _).trans h.1

omit [DecidableEq ι] in
private theorem Pending.clock_le {limit : ℕ}
    (h : Pending pace delay i possible goal begins limit budget timed)
    (hlimit : begins + (budget + budget) ≤ limit) (hprompt : timed.Prompt pace delay i) :
    timed.clock ≤ limit := by
  obtain ⟨-, ⟨hearly, -⟩ | ⟨-, n, hn, hrest⟩⟩ := h
  · exact hearly.le.trans ((Nat.le_add_right _ _).trans hlimit)
  · refine hprompt.trans ((Nat.add_le_add_left ?_ _).trans hn)
    cases hrest' : (timed.threads i).2 with
    | done value =>
      rw [hrest'] at hrest
      exact Next.delay_le hrest
    | call op next =>
      rw [hrest'] at hrest
      exact hrest.1

/-- **A prompt thread gets there in time.** Once `begins` has come, at most the rest of a turn and
one more whole turn pass before it performs an operation of `goal`. -/
theorem Steps.reaches (hi : i ∈ prompt) (h : Steps pace active prompt delay timed timed')
    (hsince : (timed.threads i).1 ≤ timed.clock)
    (hthread : (timed.threads i).2.Within (pace.lasts · + delay) budget)
    (hwithin : (pace.loop i).Within (pace.lasts · + delay) budget)
    (hloop : (pace.loop i).Reaches (pace.lasts · + delay) possible goal (fun _ _ ↦ False) budget)
    {ends : ℕ} (hends : timed'.clock ≤ ends)
    (hpossible : ∀ mid, Steps pace active prompt delay timed mid → begins ≤ mid.clock →
      mid.clock ≤ ends → ∀ op, possible op (pace.perform mid.clock op mid.shared).1) :
    timed'.clock ≤ max timed.clock begins + (budget + budget)
      ∨ Performs pace active prompt delay i goal timed timed' := by
  have hlimit : begins + (budget + budget) ≤ max timed.clock begins + (budget + budget) :=
    Nat.add_le_add_right (le_max_right _ _) _
  have hpending : Pending pace delay i possible goal begins
      (max timed.clock begins + (budget + budget)) budget timed' ∧ timed'.clock
        ≤ max timed.clock begins + (budget + budget)
      ∨ Performs pace active prompt delay i goal timed timed' := by
    induction h with
    | refl =>
      refine .inl ⟨⟨hsince, ?_⟩, (le_max_left _ _).trans (Nat.le_add_right _ _)⟩
      by_cases hbegin : timed.clock < begins
      · exact .inl ⟨hbegin, hthread⟩
      · refine .inr ⟨not_lt.mp hbegin, budget + budget, ?_, reaches_of_within hloop hthread⟩
        exact Nat.add_le_add_right (hsince.trans (le_max_left _ _)) _
    | @tail mid last hmid hlast ih =>
      obtain ⟨hbefore, hstep, hafter⟩ := hlast
      have hmidends := hstep.clock_le.trans hends
      obtain ⟨hpending, -⟩ | ⟨before, since, op, next, hsteps, hop, hgoal, after, hturn, hrest⟩ :=
        ih hmidends
      · obtain hpending | ⟨since, op, next, hop, hgoal, hturn⟩ :=
          hpending.step hlimit hwithin hloop (hpossible mid hmid · hmidends) (hbefore i hi) hstep
        · exact .inl ⟨hpending, hpending.clock_le hlimit (hafter i hi)⟩
        · exact .inr ⟨mid, since, op, next, hmid, hop, hgoal, last, hturn, .refl⟩
      · exact .inr ⟨before, since, op, next, hsteps, hop, hgoal, after, hturn,
          hrest.tail ⟨hbefore, hstep, hafter⟩⟩
  exact hpending.imp And.right id

/-! ## Runs that are evaluated -/

variable (pace) in
/-- Follows a schedule, which says how long to wait and who takes the next turn, as long as the
threads in `watched` are prompt. -/
def follow (watched : List ι) (delay : ℕ) : List (ℕ × ι) → Timed Ans ι S → Option (Timed Ans ι S)
  | [], timed => some timed
  | (duration, i) :: schedule, timed =>
    if (∀ j ∈ watched, timed.Prompt pace delay j)
        ∧ ∀ j ∈ watched, (timed.wait duration).Prompt pace delay j then
      ((timed.wait duration).turn pace i).bind fun timed' ↦
        if ∀ j ∈ watched, timed'.Prompt pace delay j then follow watched delay schedule timed'
        else none
    else none

theorem steps_of_follow {watched : List ι} {schedule : List (ℕ × ι)}
    (hactive : ∀ turn ∈ schedule, turn.2 ∈ active) (hprompt : ∀ i ∈ prompt, i ∈ watched)
    (h : follow pace watched delay schedule timed = some timed') :
    Steps pace active prompt delay timed timed' := by
  induction schedule generalizing timed with
  | nil =>
    obtain rfl := Option.some.inj h
    exact .refl
  | cons turn schedule ih =>
    obtain ⟨duration, i⟩ := turn
    rw [follow] at h
    split at h
    · next hwatched =>
      obtain ⟨next, hturn, hnext⟩ := Option.bind_eq_some_iff.mp h
      split at hnext
      · next hwatched' =>
        obtain ⟨hi, hrest⟩ := List.forall_mem_cons.mp hactive
        refine .head ⟨fun j hj ↦ hwatched.1 j (hprompt j hj), .wait duration timed,
          fun j hj ↦ hwatched.2 j (hprompt j hj)⟩ (.head ⟨fun j hj ↦ hwatched.2 j (hprompt j hj),
          .turn i hi hturn, fun j hj ↦ hwatched' j (hprompt j hj)⟩ (ih hrest hnext))
      · cases hnext
    · cases h

end Timed
