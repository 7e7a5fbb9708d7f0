import RaftStore.Node.Terms

/-!
# Deadlines

`RaftNode` leaves the clock out: whether a deadline has passed is an input of `tick`. Here are the
two deadlines that decide it, `electionDeadline` and `nextHeartbeat`, and what every section does to
them. `resetElectionTimerLocked` draws a new election deadline; it is called where an election
begins, a vote is granted, a leader is heard, or a reply carries a later term (`resets`). Times and
durations are in nanoseconds.
-/

namespace Node

open Raft Cluster

variable {σ : Type}

/-! ## Durations -/

def millisecond : Int := 1000000

/-- The durations of `Config`. -/
structure TimeoutConfig where
  electionTimeoutMin : Int
  electionTimeoutMax : Int
  heartbeatInterval : Int

/-- `DefaultConfig`. -/
def defaultTimeouts : TimeoutConfig where
  electionTimeoutMin := 150 * millisecond
  electionTimeoutMax := 300 * millisecond
  heartbeatInterval := 50 * millisecond

/-- The durations of a node. -/
structure Timeouts where
  electionTimeoutMin : Int
  electionTimeoutMax : Int
  heartbeatInterval : Int
  min_pos : 0 < electionTimeoutMin
  min_lt_max : electionTimeoutMin < electionTimeoutMax
  heartbeat_pos : 0 < heartbeatInterval

/-- `NewNode` takes no duration that is not positive, and no empty range of election timeouts. -/
def newTimeouts (cfg : TimeoutConfig) : Timeouts :=
  let min := if cfg.electionTimeoutMin ≤ 0 then 150 * millisecond else cfg.electionTimeoutMin
  { electionTimeoutMin := min
    electionTimeoutMax :=
      if cfg.electionTimeoutMax ≤ min then min + 150 * millisecond else cfg.electionTimeoutMax
    heartbeatInterval :=
      if cfg.heartbeatInterval ≤ 0 then 50 * millisecond else cfg.heartbeatInterval
    min_pos := by
      show 0 < if cfg.electionTimeoutMin ≤ 0 then 150 * millisecond else cfg.electionTimeoutMin
      split
      · decide
      · next h => exact not_le.mp h
    min_lt_max := by
      split
      · have : 0 < 150 * millisecond := by decide
        omega
      · next h => exact not_le.mp h
    heartbeat_pos := by
      split
      · decide
      · next h => exact not_le.mp h }

/-! ## Deadlines -/

structure Timers where
  electionDeadline : Int
  nextHeartbeat : Int

/-- `rng.Int63n(span)`, where `r` is what the generator has to offer. -/
def Timeouts.jitter (T : Timeouts) (r : Nat) : Int :=
  r % (T.electionTimeoutMax - T.electionTimeoutMin)

def resetElectionTimerLocked (T : Timeouts) (now : Int) (r : Nat) (t : Timers) : Timers :=
  { t with electionDeadline := now + (T.electionTimeoutMin + T.jitter r) }

/-- The deadline lies between the two timeouts. -/
theorem electionDeadline_reset (T : Timeouts) (now : Int) (r : Nat) (t : Timers) :
    now + T.electionTimeoutMin ≤ (resetElectionTimerLocked T now r t).electionDeadline ∧
      (resetElectionTimerLocked T now r t).electionDeadline < now + T.electionTimeoutMax := by
  have hpos : 0 < T.electionTimeoutMax - T.electionTimeoutMin := by
    have := T.min_lt_max
    omega
  have hge : 0 ≤ T.jitter r := Int.emod_nonneg _ hpos.ne'
  have hlt : T.jitter r < T.electionTimeoutMax - T.electionTimeoutMin := Int.emod_lt_of_pos _ hpos
  simp only [resetElectionTimerLocked]
  constructor <;> omega

/-- `NewNode` and `Start`. -/
def startTimers (T : Timeouts) (now : Int) (r : Nat) : Timers :=
  resetElectionTimerLocked T now r { electionDeadline := 0, nextHeartbeat := 0 }

/-- The deadline that `tick` looks at has passed. -/
def due (n : RaftNode σ) (t : Timers) (now : Int) : Bool :=
  match n.state with
  | .leader => decide (t.nextHeartbeat ≤ now)
  | _ => decide (t.electionDeadline ≤ now)

/-- The section calls `resetElectionTimerLocked`. So does `Start`. -/
def resets (n : RaftNode σ) : Event → Bool
  | .tick due => decide (n.state ≠ .leader) && (!n.joining && n.isVoterLocked && due)
  | .requestVote req => (n.handleRequestVote req).2.voteGranted
  | .appendEntries req => decide (n.currentTerm ≤ req.term)
  | .installSnapshot req => decide (n.currentTerm ≤ req.term)
  | .voteReply _ _ resp => decide (n.currentTerm < resp.term)
  | .appendReply _ req resp =>
    decide (n.state = .leader ∧ n.currentTerm = req.term ∧ n.currentTerm < resp.term)
  | .installReply _ req resp =>
    decide (n.state = .leader ∧ n.currentTerm = req.term ∧ n.currentTerm < resp.term)
  | .confirmReply _ resp => decide (n.currentTerm < resp.term)
  | .restart => true
  | _ => false

/-- The tick finds its deadline passed. -/
def ticksDue : Event → Bool
  | .tick due => due
  | _ => false

/-- The deadlines after a section. A new leader is to send heartbeats at once: `becomeLeaderLocked`
sets the next one to the zero time. -/
def timersAfter (T : Timeouts) (now : Int) (r : Nat) (n : RaftNode σ) (ev : Event) (t : Timers) :
    Timers :=
  let t := if resets n ev then resetElectionTimerLocked T now r t else t
  let beat :=
    match ev with
    | .restart => 0
    | _ =>
      if n.state = .leader then
        if ticksDue ev then now + T.heartbeatInterval else t.nextHeartbeat
      else if (handle n ev).state = .leader then 0
      else t.nextHeartbeat
  { t with nextHeartbeat := beat }

/-- A section that sets the election timer draws a deadline between the two timeouts. -/
theorem electionDeadline_of_resets (T : Timeouts) (now : Int) (r : Nat) {n : RaftNode σ}
    {ev : Event}
    (t : Timers) (h : resets n ev = true) :
    now + T.electionTimeoutMin ≤ (timersAfter T now r n ev t).electionDeadline ∧
      (timersAfter T now r n ev t).electionDeadline < now + T.electionTimeoutMax := by
  unfold timersAfter
  rw [if_pos h]
  exact electionDeadline_reset T now r t

theorem electionDeadline_of_keeps (T : Timeouts) (now : Int) (r : Nat) {n : RaftNode σ} {ev : Event}
    (t : Timers) (h : resets n ev = false) :
    (timersAfter T now r n ev t).electionDeadline = t.electionDeadline := by
  unfold timersAfter
  rw [if_neg (by simp [h])]

/-- An election begins only when the deadline has passed. -/
theorem calm_of_before (t : Timers) {n : RaftNode σ} {now : Int} (h : now < t.electionDeadline)
    {ev : Event} (hev : ∀ b, ev = .tick b → b = due n t now) : Calm n ev := by
  rintro rfl
  have hdue := hev true rfl
  unfold due at hdue
  split at hdue
  · assumption
  · rw [eq_comm, decide_eq_true_iff] at hdue
    omega

end Node
