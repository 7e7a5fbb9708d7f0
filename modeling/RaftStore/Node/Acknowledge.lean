import Mathlib.Algebra.Ring.Int.Defs
import RaftStore.Node.Recovery

/-!
# What a node acknowledges

A node that grants a vote, accepts entries or takes a snapshot promises to remember it. If every
save succeeds, storage holds the promise when the reply is sent (`Held.acknowledged`), and the votes
of all incarnations of the node agree (`Faithful`). A restart is described by what it keeps whatever
the configuration: term, vote, log and snapshot (`core`).
-/

namespace Node

open Raft Cluster

variable {σ : Type} {M : Machine σ} {n m m' : RaftNode σ} {cfg : Config} {st : Storage}
  {d : DurableState} {log : Log} {s : Storage}

/-! ## Across a restart -/

/-- A recorded state without its configuration. -/
def core (d : DurableState) : DurableState :=
  { d with snapshotPeers := .empty, snapshotHTTP := .empty }

theorem core_eq {d d' : DurableState} (h : core d = core d') :
    d.currentTerm = d'.currentTerm ∧ d.votedFor = d'.votedFor ∧ d.log = d'.log ∧
      d.snapshot = d'.snapshot := by
  simp only [core, DurableState.mk.injEq, and_true] at h
  exact h

theorem recover_core (n : RaftNode σ) (hlog : d.log = log.toList) :
    core (n.recover d).durable = core d ∧ (n.recover d).storage = n.storage ∧
      (n.recover d).id = n.id := by
  have hload : core (n.load d).durable = core d ∧ (n.load d).storage = n.storage ∧
      (n.load d).id = n.id := by
    obtain ⟨term, vote, l, snapshot, peers, http⟩ := d
    cases hlog
    unfold RaftNode.load
    dsimp only [Log.toList]
    split
    · exact ⟨rfl, rfl, rfl⟩
    · exact ⟨rfl, rfl, rfl⟩
  refine RaftNode.recover_rule
    (P := fun m => core m.durable = core d ∧ m.storage = n.storage ∧ m.id = n.id) hload
    (fun _ h => h) (fun m h => ?_) (fun _ h => h) (fun _ _ h => h)
  -- the restore moves the machine and the indexes only
  obtain ⟨x, la, ci, hx⟩ := RaftNode.restoreSnapshot_fields m
  rw [hx]
  exact h

/-- The wiring of `startNode` leaves the durable state alone. -/
theorem boot_fields (M : Machine σ) (cfg : Config) (storage : Option Storage) :
    (RaftNode.boot M cfg storage).durable =
        (RaftNode.newNode cfg storage (some M.snapshotter) M.init).durable ∧
      (RaftNode.boot M cfg storage).storage =
        (RaftNode.newNode cfg storage (some M.snapshotter) M.init).storage ∧
      (RaftNode.boot M cfg storage).id =
        (RaftNode.newNode cfg storage (some M.snapshotter) M.init).id := by
  obtain ⟨x, la, ci, hx⟩ := RaftNode.boot_eq M cfg storage
  rw [hx]
  exact ⟨rfl, rfl, rfl⟩

/-- A node on empty storage. -/
theorem boot_of_nil (hnil : st.saved = []) :
    Untouched (RaftNode.boot M cfg (some st)) ∧
      (RaftNode.boot M cfg (some st)).storage = some st ∧
      (RaftNode.boot M cfg (some st)).id = cfg.id := by
  obtain ⟨hd, hs, hid⟩ := boot_fields M cfg (some st)
  rw [newNode_of_nil hnil] at hd hs hid
  exact ⟨Untouched.of_durable ⟨rfl, rfl, rfl, rfl⟩ hd, hs, hid⟩

/-- A node on storage that holds a state. -/
theorem boot_of_head (hhead : st.saved.head? = some d) (hlog : d.log = log.toList) :
    core (RaftNode.boot M cfg (some st)).durable = core d ∧
      (RaftNode.boot M cfg (some st)).storage = some st ∧
      (RaftNode.boot M cfg (some st)).id = cfg.id := by
  obtain ⟨hd, hs, hid⟩ := boot_fields M cfg (some st)
  rw [newNode_eq hhead hlog] at hd hs hid
  obtain ⟨hcore, hstore, hid'⟩ :=
    recover_core (RaftNode.fresh cfg (some st) (some M.snapshotter) M.init) hlog
  rw [hd, hs, hid]
  exact ⟨hcore, hstore, hid'⟩

/-! ## Storage keeps up -/

/-- Saved states have a log. -/
def Logged (d : DurableState) : Prop := ∃ log : Log, d.log = log.toList

/-- Storage holds term, vote, log and snapshot of the node. -/
structure Held (n : RaftNode σ) : Prop where
  synced : Synced core n
  logged : ∀ s, n.storage = some s → ∀ d ∈ s.saved, Logged d

/-- Whatever a node does, the states it saves have a log. -/
theorem saved_logged (n : RaftNode σ) (ev : Event) : Saved Logged n (handle n ev) := by
  have hkept : Kept (σ := σ) (fun _ => True) :=
    ⟨fun _ _ => trivial, fun _ _ _ => trivial, fun _ _ => trivial⟩
  refine hkept.saved (fun m _ => ⟨m.log, rfl⟩) ?_ trivial
  cases ev with
  | appendEntries req => exact fun _ _ _ _ _ => trivial
  | installSnapshot req => exact fun _ _ _ _ => trivial
  | _ => trivial

theorem Held.handle (h : Held n) (ev : Event) : Held (handle n ev) where
  synced := (kept_synced core).handle (accepts_synced n ev) h.synced
  logged := (saved_logged n ev).all h.logged

theorem held_boot (hres : false ∉ st.results) (hlogged : ∀ d ∈ st.saved, Logged d) :
    Held (RaftNode.boot M cfg (some st)) := by
  have hstorage : (RaftNode.boot M cfg (some st)).storage = some st ∧
      (st.saved = [] ∧ Untouched (RaftNode.boot M cfg (some st)) ∨
        ∃ d, st.saved.head? = some d ∧
          core d = core (RaftNode.boot M cfg (some st)).durable) := by
    cases hst : st.saved with
    | nil =>
      obtain ⟨hun, hs, _⟩ := boot_of_nil (M := M) hst
      exact ⟨hs, Or.inl ⟨rfl, hun⟩⟩
    | cons d rest =>
      obtain ⟨log, hlog⟩ := hlogged d (by rw [hst]; exact List.mem_cons_self)
      obtain ⟨hcore, hs, _⟩ := boot_of_head (M := M) (by rw [hst]; rfl) hlog
      exact ⟨hs, Or.inr ⟨d, rfl, hcore.symm⟩⟩
  refine ⟨⟨st, hstorage.1, hres, hstorage.2⟩, ?_⟩
  intro s hs d hd
  rw [hstorage.1] at hs
  cases hs
  exact hlogged d hd

/-- What `Load` returns. -/
theorem Held.load (h : Held n) : ∃ s, n.storage = some s ∧
    s.load.currentTerm = n.currentTerm ∧ s.load.votedFor = n.votedFor ∧
    s.load.snapshot = n.snapshot ∧ (s.saved = [] ∧ Untouched n ∨ s.load.log = n.log.toList) := by
  -- never saved, or saved as it is
  obtain ⟨s, hs, _, ⟨hnil, hun⟩ | ⟨d, hhead, hd⟩⟩ := h.synced
  · refine ⟨s, hs, ?_, ?_, ?_, Or.inl ⟨hnil, hun⟩⟩
    · rw [hun.currentTerm_eq, Storage.load, hnil]
      rfl
    · rw [hun.votedFor_eq, Storage.load, hnil]
      rfl
    · rw [hun.snapshot_eq, Storage.load, hnil]
      rfl
  · have hload : s.load = d := by
      unfold Storage.load
      rw [List.headD_eq_head?_getD, hhead]
      rfl
    obtain ⟨hterm, hvote, hlog, hsnap⟩ := core_eq hd
    refine ⟨s, hs, ?_⟩
    rw [hload]
    exact ⟨hterm, hvote, hsnap, Or.inr hlog⟩

/-! ## Entries and snapshots -/

/-- Where the log has an entry of the same index and term as the request, it is the same entry. -/
def Agrees (n : RaftNode σ) (req : AppendEntriesRequest) : Prop :=
  ∀ (k : Nat) (e x : LogEntry), req.entries[k]? = some e →
    n.log.entryAtLocked (req.prevLogIndex + 1 + k) = some x → x.term = e.term →
    x = { e with index := req.prevLogIndex + 1 + k }

/-- What a node can count on. Candidates have a name, since the empty one stands for no vote. The
entries of a leader agree with the log where their terms do. And the terms and indexes that the node
computes do not leave the range of Go's `int`, in which they would wrap. -/
def Sane (n : RaftNode σ) : Event → Prop
  | .requestVote req => req.candidateID ≠ ""
  | .appendEntries req => Agrees n req ∧ req.prevLogIndex + req.entries.length < 2 ^ 63
  | .tick due => due = true → n.currentTerm + 1 < 2 ^ 63 ∧ n.log.lastLogIndexLocked + 1 < 2 ^ 63
  | .voteReply _ _ _ | .propose _ | .addServer _ _ _ | .removeServer _ =>
    n.log.lastLogIndexLocked + 1 < 2 ^ 63
  | _ => True

/-- The vote that a step gives away: to the candidate whose request it grants, or to the node itself
when it campaigns. -/
def ballot (n : RaftNode σ) : Life → Option (Int × String)
  | .event (.requestVote req) =>
    if (n.handleRequestVote req).2.voteGranted then some (req.term, req.candidateID) else none
  | .event (.tick due) =>
    if n.currentTerm < (n.tick due).currentTerm then some ((n.tick due).currentTerm, n.id) else none
  | _ => none

/-- The votes given away on the way. -/
def ballots (M : Machine σ) (n : RaftNode σ) : List Life → List (Int × String)
  | [] => []
  | l :: ls => (ballot n l).toList ++ ballots M (live M n l) ls

/-- Nobody in the term of a state, or later, has the vote that the votes `B` gave to somebody else.
-/
def Respects (B : List (Int × String)) (term : Int) (vote : String) : Prop :=
  ∀ b ∈ B, b.2 ≠ "" ∧ (b.1 < term ∨ b.1 = term ∧ b.2 = vote)

theorem Respects.ballot {B : List (Int × String)} {term term' : Int} {vote vote' : String}
    (h : Respects B term vote)
    (hb : term < term' ∨ term' = term ∧ (vote = "" ∨ vote = vote')) : Respects B term' vote' := by
  intro b hmem
  -- a vote of an older term, or this very vote
  obtain ⟨hne, hlt | ⟨heq, hvote⟩⟩ := h b hmem
  · exact ⟨hne, Or.inl (by omega)⟩
  · rcases hb with hlt | ⟨rfl, hempty | hsame⟩
    · exact ⟨hne, Or.inl (by omega)⟩
    · exact absurd (hvote.trans hempty) hne
    · exact ⟨hne, Or.inr ⟨heq, hvote.trans hsame⟩⟩

theorem kept_respects (B : List (Int × String)) :
    Kept (σ := σ) (fun m => Respects B m.currentTerm m.votedFor) where
  minor := by
    intro m m' hstep h
    cases hstep with
    | volatile v => exact h
    | ballot term vote hb => exact h.ballot hb
    | apply e _ _ =>
      obtain ⟨_, _, heq⟩ := m.applyNext_eq (m.lastApplied + 1) e
      rw [heq]
      exact h
    | compact e data s _ _ _ _ => exact h
  append := fun _ _ h => h
  change := fun _ h => h

theorem accepts_respects (B : List (Int × String)) (n : RaftNode σ) (ev : Event) :
    Accepts (fun m => Respects B m.currentTerm m.votedFor) n ev := by
  cases ev with
  | appendEntries req =>
    intro m _ _ _ h
    rcases m.mergeLocked_cases req with hsame | hmerged
    · rw [hsame]
      exact h
    · rw [hmerged]
      exact h
  | installSnapshot req =>
    intro m _ _ h
    rw [(m.installed req).currentTerm_eq, (m.installed req).votedFor_eq]
    exact h
  | _ => trivial

theorem kept_id (id : String) : Kept (σ := σ) (fun m => m.id = id) where
  minor := by
    intro m m' hstep h
    cases hstep with
    | apply e _ _ =>
      obtain ⟨_, _, heq⟩ := m.applyNext_eq (m.lastApplied + 1) e
      rw [heq]
      exact h
    | _ => exact h
  append := fun _ _ h => h
  change := fun _ h => h

theorem accepts_id (id : String) (n : RaftNode σ) (ev : Event) :
    Accepts (fun m => m.id = id) n ev := by
  cases ev with
  | appendEntries req =>
    intro m _ _ _ h
    rcases m.mergeLocked_cases req with hsame | hmerged
    · rw [hsame]
      exact h
    · rw [hmerged]
      exact h
  | installSnapshot req =>
    intro m _ _ h
    exact (m.installed req).id_eq.trans h
  | _ => trivial

/-- A node that campaigns votes for itself. -/
theorem votedFor_startElection (n : RaftNode σ) :
    n.startElectionLocked = n ∨ n.startElectionLocked.votedFor = n.id := by
  unfold RaftNode.startElectionLocked
  split
  · exact Or.inl rfl
  · right
    dsimp only
    split
    · exact (becomeLeader_fields _).2.2
    · rw [RaftNode.foldl_spawn]
      rfl

theorem votedFor_tick {due : Bool} (h : n.currentTerm < (n.tick due).currentTerm) :
    (n.tick due).votedFor = n.id := by
  obtain ⟨m, heq, hm⟩ := n.tick_cases due
  rw [heq, RaftNode.currentTerm_applyCommitted] at h
  rw [heq, RaftNode.votedFor_applyCommitted]
  -- no change, a heartbeat, or an election
  rcases hm with rfl | ⟨_, rfl⟩ | ⟨_, _, rfl⟩
  · exact absurd h (lt_irrefl _)
  · obtain ⟨r, g, hsent⟩ := n.broadcast_eq
    rw [hsent] at h
    exact absurd h (lt_irrefl _)
  · rcases votedFor_startElection n with hsame | hvote
    · rw [hsame] at h
      exact absurd h (lt_irrefl _)
    · exact hvote

/-- The same for every step in the life of a node, which has a name itself. -/
def SaneLife (n : RaftNode σ) : Life → Prop
  | .event ev => Sane n ev
  | .restart cfg => cfg.id ≠ ""
  | .crashDuring ev _ cfg => Sane n ev ∧ cfg.id ≠ ""

/-- The node keeps to the votes `B`, also after a restart. -/
structure Faithful (B : List (Int × String)) (n : RaftNode σ) : Prop where
  held : Held n
  named : n.id ≠ ""
  respects : Respects B n.currentTerm n.votedFor
  agree : ∀ b ∈ B, ∀ b' ∈ B, b.1 = b'.1 → b.2 = b'.2

/-- One more vote: the one that the node has. -/
theorem Respects.snoc {B : List (Int × String)} {term : Int} {vote : String}
    (h : Respects B term vote) (hne : vote ≠ "")
    (hagree : ∀ b ∈ B, ∀ b' ∈ B, b.1 = b'.1 → b.2 = b'.2) :
    Respects (B ++ [(term, vote)]) term vote ∧
      ∀ b ∈ B ++ [(term, vote)], ∀ b' ∈ B ++ [(term, vote)], b.1 = b'.1 → b.2 = b'.2 := by
  -- an earlier vote in the same term is the same vote
  have hold : ∀ b ∈ B, b.1 = term → b.2 = vote := by
    intro b hb heq
    obtain ⟨_, hlt | ⟨_, hvote⟩⟩ := h b hb
    · omega
    · exact hvote
  refine ⟨?_, ?_⟩
  · intro b hb
    rcases List.mem_append.mp hb with hb | hb
    · exact h b hb
    · rw [List.mem_singleton.mp hb]
      exact ⟨hne, Or.inr ⟨rfl, rfl⟩⟩
  · intro b hb b' hb' heq
    rcases List.mem_append.mp hb with hb | hb <;> rcases List.mem_append.mp hb' with hb' | hb'
    · exact hagree b hb b' hb' heq
    · rw [List.mem_singleton.mp hb'] at heq ⊢
      exact hold b hb heq
    · rw [List.mem_singleton.mp hb] at heq ⊢
      exact (hold b' hb' heq.symm).symm
    · rw [List.mem_singleton.mp hb, List.mem_singleton.mp hb']

theorem Faithful.event {B : List (Int × String)} (h : Faithful B n) {ev : Event}
    (hok : Sane n ev) :
    Faithful (B ++ (Node.ballot n (.event ev)).toList) (handle n ev) := by
  have hheld := h.held.handle ev
  have hid : (handle n ev).id = n.id := (kept_id n.id).handle (accepts_id n.id n ev) rfl
  have hresp : Respects B (handle n ev).currentTerm (handle n ev).votedFor :=
    (kept_respects B).handle (accepts_respects B n ev) h.respects
  -- most events cast no vote
  have hquiet : Faithful B (handle n ev) := ⟨hheld, by rw [hid]; exact h.named, hresp, h.agree⟩
  have hvote : ∀ term vote, (handle n ev).currentTerm = term → (handle n ev).votedFor = vote →
      vote ≠ "" → Faithful (B ++ [(term, vote)]) (handle n ev) := by
    rintro term vote rfl rfl hne
    obtain ⟨hresp', hagree'⟩ := hresp.snoc hne h.agree
    exact ⟨hheld, hquiet.named, hresp', hagree'⟩
  cases ev with
  | requestVote req =>
    simp only [Node.ballot]
    split
    · next hgranted =>
      obtain ⟨hterm, hvf⟩ := RaftNode.handleRequestVote_granted hgranted
      exact hvote req.term req.candidateID hterm hvf hok
    · rw [Option.toList_none, List.append_nil]
      exact hquiet
  | tick due =>
    simp only [Node.ballot]
    split
    · next hlt => exact hvote _ n.id rfl (votedFor_tick hlt) h.named
    · rw [Option.toList_none, List.append_nil]
      exact hquiet
  | _ =>
    simp only [Node.ballot, Option.toList_none, List.append_nil]
    exact hquiet

/-- What storage holds respects the votes, nothing included. -/
def Remembers (B : List (Int × String)) (st : Storage) : Prop :=
  Respects B st.load.currentTerm st.load.votedFor

theorem Faithful.remembers {B : List (Int × String)} (h : Faithful B n)
    (hs : n.storage = some s) : Remembers B s := by
  obtain ⟨t, ht, hterm, hvote, _⟩ := h.held.load
  obtain rfl : t = s := Option.some.inj (ht.symm.trans hs)
  unfold Remembers
  rw [hterm, hvote]
  exact h.respects

theorem faithful_boot {B : List (Int × String)} (hres : false ∉ st.results)
    (hlogged : ∀ d ∈ st.saved, Logged d) (hid : cfg.id ≠ "") (hrem : Remembers B st)
    (hagree : ∀ b ∈ B, ∀ b' ∈ B, b.1 = b'.1 → b.2 = b'.2) :
    Faithful B (RaftNode.boot M cfg (some st)) := by
  have hheld : Held (RaftNode.boot M cfg (some st)) := held_boot hres hlogged
  have hfields : (RaftNode.boot M cfg (some st)).storage = some st ∧
      (RaftNode.boot M cfg (some st)).id = cfg.id := by
    cases hst : st.saved with
    | nil => exact (boot_of_nil hst).2
    | cons d rest =>
      obtain ⟨log, hlog⟩ := hlogged d (by rw [hst]; exact List.mem_cons_self)
      exact (boot_of_head (by rw [hst]; rfl) hlog).2
  obtain ⟨s, hs, hterm, hvote, _⟩ := hheld.load
  obtain rfl : s = st := Option.some.inj (hs.symm.trans hfields.1)
  refine ⟨hheld, ?_, ?_, hagree⟩
  · rw [hfields.2]
    exact hid
  · rw [← hterm, ← hvote]
    exact hrem

/-- **One step.** -/
theorem Faithful.live {B : List (Int × String)} (h : Faithful B n) {l : Life} (hok : SaneLife n l) :
    Faithful (B ++ (Node.ballot n l).toList) (live M n l) := by
  obtain ⟨s, hs, hres, _⟩ := h.held.synced
  cases l with
  | event ev => exact h.event hok
  | restart cfg =>
    show Faithful (B ++ []) (RaftNode.boot M cfg n.storage)
    rw [List.append_nil, hs]
    exact faithful_boot hres (h.held.logged s hs) hok (h.remembers hs) h.agree
  | crashDuring ev saves cfg =>
    show Faithful (B ++ []) (RaftNode.boot M cfg (World.cutSaves _ _ _))
    rw [List.append_nil]
    -- the crash keeps a part of the new states, all of which respect the votes
    obtain ⟨s', hs', hres', _⟩ := (h.held.handle ev).synced
    have hnew : Saved (fun d => Respects B d.currentTerm d.votedFor ∧ Logged d) n (handle n ev) :=
      (kept_respects B).saved (fun m hm => ⟨hm, m.log, rfl⟩) (accepts_respects B n ev) h.respects
    obtain ⟨t, new, ht, hcut, hall⟩ := hnew.cut hs' saves
    rw [hcut]
    refine faithful_boot hres' (fun d hd => ?_) hok.2 ?_ h.agree
    · rcases List.mem_append.mp hd with hd | hd
      · exact (hall d hd).2
      · exact h.held.logged t ht d hd
    · -- the latest state is a new one, or the one before the section
      cases new with
      | nil =>
        have hrem := h.remembers ht
        exact hrem
      | cons d rest => exact (hall d List.mem_cons_self).1

end Node
