import RaftStore.Raft.Compaction
import RaftStore.Raft.Read
import RaftStore.Node.Matching
import RaftStore.Results.Fixed

/-!
# What a follower commits

A follower bounds the leader's commit index by the end of its own log, not by the last entry of the
request, and its log may go on behind the request with entries that the leader does not have. It
commits nothing of these (`follower_commits_verified`): a request reaches to the end of the leader's
log (`Covers`), so the bound is never the one that counts, and what the merged log holds up to there
is what the leader's log holds (`entryAt_merged`).

The follower must have committed what it has compacted. One that was started on a compacted log
without a snapshot has not, and takes indexes to be committed that it has no entries for
(`commits_without_entry`).
-/

namespace Raft

/-! ## Requests -/

/-- The request begins behind an entry of the log and goes on to its end. -/
structure Covers (l : Log) (req : AppendEntriesRequest) : Prop where
  entries_eq : ∃ q : Nat, q ≤ l.tail.length ∧ req.prevLogIndex = l.head.index + q ∧
    req.entries = l.tail.drop q
  prev_eq : l.termAtLocked req.prevLogIndex = some req.prevLogTerm

/-- A request for a peer, or the heartbeat that confirms a read. -/
def Built {σ : Type} (n : RaftNode σ) (req : AppendEntriesRequest) : Prop :=
  (∃ peer, (n.makeAppendRequestLocked peer).2 = some req) ∨ req = n.confirmHeartbeatLocked

section

variable {σ : Type} {n : RaftNode σ} {req : AppendEntriesRequest} {l f : Log}

/-- A request that a leader builds covers its log to the end. -/
theorem Built.covers (h : Built n req) (hlog : n.log.Contiguous) :
    Covers n.log req ∧ req.leaderCommit = n.commitIndex := by
  have hlast := Log.lastLogIndex_of_contiguous hlog
  rcases h with ⟨peer, hreq⟩ | rfl
  -- the peer's position is not compacted away
  · have hlo : n.log.lastIncludedIndexLocked < n.next peer := by
      by_contra hle
      unfold RaftNode.makeAppendRequestLocked at hreq
      rw [if_pos (not_lt.mp hle)] at hreq
      cases hreq
    obtain ⟨t, hterm, heq⟩ := RaftNode.makeAppendRequest_eq hlog hlo
    rw [heq] at hreq
    cases hreq
    unfold Log.lastIncludedIndexLocked at hlo
    refine ⟨⟨⟨(n.startIndex peer - 1 - n.log.head.index).toNat, ?_, ?_, rfl⟩, hterm⟩, rfl⟩
    · unfold RaftNode.startIndex
      omega
    · show n.startIndex peer - 1 = _
      unfold RaftNode.startIndex
      omega
  -- a heartbeat for a read carries no entries, and stands at the end of the log
  · refine ⟨⟨⟨n.log.tail.length, le_refl _, hlast, ?_⟩, ?_⟩, rfl⟩
    · exact (List.drop_length).symm
    · show n.log.termAtLocked n.log.lastLogIndexLocked = some n.log.lastLogTermLocked
      unfold Log.termAtLocked
      rw [Log.entryAt_last hlog]
      rfl

/-- The entries of the request are those of the log behind its start, all of them. -/
theorem Covers.getElem?_entries (h : Covers l req) (k : Nat) :
    req.entries[k]? = l.entryAtLocked (req.prevLogIndex + 1 + k) := by
  obtain ⟨q, _, hprev, hentries⟩ := h.entries_eq
  rw [hentries, List.getElem?_drop, ← Log.entryAt_tail]
  congr 1
  push_cast
  omega

/-- Where the entries of a request end. -/
theorem Covers.end_eq (h : Covers l req) (hl : l.Contiguous) :
    req.prevLogIndex + req.entries.length = l.lastLogIndexLocked := by
  obtain ⟨q, hq, hprev, hentries⟩ := h.entries_eq
  rw [Log.lastLogIndex_of_contiguous hl, hprev, hentries, List.length_drop]
  omega

/-! ## The merged log -/

/-- Log matching of two logs that may both have been compacted: where their terms agree at an index,
they agree up to it, as far as both go back. -/
def Log.MatchingWith (l f : Log) : Prop :=
  ∀ j t, l.termAtLocked j = some t → f.termAtLocked j = some t →
    ∀ i ≤ j, l.head.index < i → f.head.index < i → l.entryAtLocked i = f.entryAtLocked i

/-- The merged log reaches at least as far as the request. -/
theorem end_le_merged {q : Nat} (hf : f.Contiguous)
    (hq : req.prevLogIndex = f.head.index + q) (hlen : q ≤ f.tail.length) :
    req.prevLogIndex + req.entries.length ≤
      (f.mergeEntries req.entries (req.prevLogIndex + 1)).1.lastLogIndexLocked := by
  have hidx : req.prevLogIndex + 1 = f.head.index + 1 + q := by omega
  rw [Log.lastLogIndex_of_contiguous (hf.merge hidx hlen), Log.head_mergeEntries]
  -- nothing is carried, and the log holds what it follows
  cases hnum : req.entries.length with
  | zero =>
    have hnil : req.entries = [] := List.length_eq_zero_iff.mp hnum
    rw [hnil]
    show _ ≤ f.head.index + f.tail.length
    push_cast
    omega
  | succ k =>
    -- the last entry of the request has its place
    have hget := List.getElem?_eq_getElem (show k < req.entries.length by omega)
    obtain ⟨x, hx, _⟩ := Log.getElem?_mergeEntries hidx hlen hget
    have hlt := (List.getElem?_eq_some_iff.mp hx).1
    push_cast
    omega

/-- **The merged log holds the leader's entries** up to the end of the request, as far as both logs
go back. -/
theorem entryAt_merged (hcov : Covers l req) (hl : l.Contiguous) (hmatch : l.MatchingWith f)
    {q : Nat} (hq : req.prevLogIndex = f.head.index + q) (hlen : q ≤ f.tail.length)
    (hprev : f.termAtLocked req.prevLogIndex = some req.prevLogTerm) {i : Int}
    (hi : i ≤ l.lastLogIndexLocked) (hlb : l.head.index < i) (hfb : f.head.index < i) :
    ∃ e, l.entryAtLocked i = some e ∧
      (f.mergeEntries req.entries (req.prevLogIndex + 1)).1.entryAtLocked i = some e := by
  have hidx : req.prevLogIndex + 1 = f.head.index + 1 + q := by omega
  rcases lt_or_ge req.prevLogIndex i with hlt | hle
  · -- an entry of the request: what was there has its term, so it is the leader's
    obtain ⟨k, rfl⟩ : ∃ k : Nat, i = req.prevLogIndex + 1 + k :=
      ⟨(i - req.prevLogIndex - 1).toNat, by omega⟩
    have hk : k < req.entries.length := by
      have := hcov.end_eq hl
      omega
    have hget := List.getElem?_eq_getElem hk
    have hat := hcov.getElem?_entries k
    rw [hget] at hat
    refine ⟨_, hat.symm, ?_⟩
    obtain ⟨x, hx, hcases⟩ := Log.getElem?_mergeEntries_cases hidx hlen hget
    have hpos : (f.mergeEntries req.entries (req.prevLogIndex + 1)).1.entryAtLocked
        (req.prevLogIndex + 1 + k) = some x := by
      rw [← hx, ← Log.entryAt_tail, Log.head_mergeEntries]
      congr 1
      push_cast
      omega
    rw [hpos]
    rcases hcases with ⟨hold, hterm⟩ | hcopy
    · have hfat : f.entryAtLocked (req.prevLogIndex + 1 + k) = some x := by
        rw [← hold, ← Log.entryAt_tail]
        congr 1
        push_cast
        omega
      have hsame := hmatch (req.prevLogIndex + 1 + k) x.term
        (by unfold Log.termAtLocked; rw [← hat, Option.map_some, hterm])
        (by unfold Log.termAtLocked; rw [hfat]; rfl) _ (le_refl _) hlb hfb
      rw [← hat, hfat] at hsame
      exact hsame.symm
    · -- a copy carries the index that the leader's entry has already
      have hindex : (req.entries[k]).index = req.prevLogIndex + 1 + k := by
        rcases Log.entryAt_cases hat.symm with ⟨hhead, _⟩ | ⟨j, hj, hjget⟩
        · omega
        · rw [hl j _ hjget]
          omega
      rw [hcopy, ← hindex]
  · -- an entry before the request, which begins where the terms agree
    have hsame := hmatch req.prevLogIndex req.prevLogTerm hcov.prev_eq hprev i hle hlb hfb
    obtain ⟨p, rfl⟩ : ∃ p : Nat, i = f.head.index + p := ⟨(i - f.head.index).toNat, by omega⟩
    obtain ⟨e, he⟩ := Log.entryAt_position (l := f) (q := p) (by omega)
    refine ⟨e, hsame.trans he, ?_⟩
    rcases Node.mergeEntries_keeps hidx hlen he with hkept | ⟨k, _, _, _, _, _, hbehind⟩
    · exact hkept
    · omega

end

variable {σ : Type} {l : RaftNode σ} {req : AppendEntriesRequest}

open RaftNode in
/-- **A follower never commits an unverified entry.** A request carries the leader's log to its end,
the commit index of a follower that takes it over is the larger of its own and the leader's, and
what it newly commits are the leader's entries, as far as the leader still has them, if the follower
has compacted nothing but what it takes to be committed. -/
theorem follower_commits_verified (hl : l.log.Contiguous)
    (hcommit : l.commitIndex ≤ l.log.lastLogIndexLocked) (hreq : Built l req) :
    (req.prevLogIndex + req.entries.length = l.log.lastLogIndexLocked ∧
      req.leaderCommit ≤ l.log.lastLogIndexLocked ∧
      ∀ k : Nat, req.entries[k]? = l.log.entryAtLocked (req.prevLogIndex + 1 + k)) ∧
    ∀ f : RaftNode σ, f.log.Contiguous → l.log.MatchingWith f.log →
      (f.handleAppendEntries req).2.success = true →
      (f.handleAppendEntries req).1.commitIndex =
          max f.commitIndex (min req.leaderCommit (req.prevLogIndex + req.entries.length)) ∧
        (f.log.lastIncludedIndexLocked ≤ f.commitIndex →
          ∀ i, f.commitIndex < i → i ≤ (f.handleAppendEntries req).1.commitIndex →
          l.log.lastIncludedIndexLocked < i → ∃ e, l.log.entryAtLocked i = some e ∧
            ((f.hearLeader req.term req.leaderID).mergeLocked req).log.entryAtLocked i =
              some e) := by
  obtain ⟨hcov, hlc⟩ := hreq.covers hl
  have hend := hcov.end_eq hl
  have hle : req.leaderCommit ≤ l.log.lastLogIndexLocked := hlc.trans_le hcommit
  refine ⟨⟨hend, hle, hcov.getElem?_entries⟩, fun f hf hmatch hok => ?_⟩
  rcases f.handleAppendEntries_cases req with ⟨_, heq⟩ | ⟨_, _, heq⟩ | ⟨_, hprev, heq⟩
  -- a request that is refused is none that succeeds
  · rw [heq] at hok
    cases hok
  · rw [heq] at hok
    cases hok
  · rw [heq]
    dsimp only
    obtain ⟨q, hlen, hq⟩ := Log.exists_position hprev.1 hprev.2
    have hlog : ((f.hearLeader req.term req.leaderID).mergeLocked req).log =
        (f.log.mergeEntries req.entries (req.prevLogIndex + 1)).1 := by
      rw [log_mergeLocked, log_hearLeader]
    have hreach : req.prevLogIndex + req.entries.length ≤
        (f.log.mergeEntries req.entries (req.prevLogIndex + 1)).1.lastLogIndexLocked :=
      end_le_merged hf hq hlen
    have hnew : (((f.hearLeader req.term req.leaderID).mergeLocked req).followCommitLocked
        req.leaderCommit).commitIndex = max f.commitIndex req.leaderCommit := by
      rw [commitIndex_followCommit, Node.commitIndex_mergeLocked, Node.commitIndex_hearLeader, hlog]
      -- the follower's log reaches as far as the leader's, so its end is no bound
      split <;> omega
    rw [hnew, hend, min_eq_left hle]
    refine ⟨rfl, fun hbase i hlo hhi hlb => ?_⟩
    rw [hlog]
    exact entryAt_merged hcov hl hmatch hq hlen hprev.2 (by omega) hlb (hbase.trans_lt hlo)

/-! The log of the follower goes on behind what the two have in common, with entries of an old
term. -/

/-- It has committed an entry of its own term. -/
def aheadLeader : RaftNode Unit :=
  { RaftNode.boot Cluster.idle (Cluster.sample.config "n1") (some {}) with
    state := .leader
    currentTerm := 2
    log := ⟨{ term := 0, index := 0 }, [{ term := 1, index := 1 }, { term := 2, index := 2 }]⟩
    commitIndex := 2
    nextIndex := fun _ => some 2 }

/-- It has two entries of the old term that nobody committed. -/
def strayingFollower : RaftNode Unit :=
  { RaftNode.boot Cluster.idle (Cluster.sample.config "n2") (some {}) with
    log :=
      ⟨{ term := 0, index := 0 },
        [{ term := 1, index := 1 }, { term := 1, index := 2 }, { term := 1, index := 3 }]⟩
    commitIndex := 1
    lastApplied := 1 }

/-- The leader's request behind the common entry. -/
def lastEntryRequest : AppendEntriesRequest where
  term := 2
  leaderID := "n1"
  prevLogIndex := 1
  prevLogTerm := 1
  entries := [{ term := 2, index := 2 }]
  leaderCommit := 2

/-- Where their terms agree, the logs agree. -/
theorem strayingFollower_matching : aheadLeader.log.MatchingWith strayingFollower.log := by
  intro j t hj hj' i hi hlb hfb
  obtain ⟨x, hx, rfl⟩ := Option.map_eq_some_iff.mp hj
  have hpos : (0 : Int) < i := hlb
  -- the terms agree at the indexes 0 and 1 only
  rcases Log.entryAt_cases hx with ⟨rfl, _⟩ | ⟨k, rfl, hget⟩
  · exact absurd hi (not_le.mpr hlb)
  · match k, hget with
    | 0, _ =>
      obtain rfl : i = 1 := by
        have : i ≤ 1 := hi
        omega
      decide
    | 1, rfl => exact absurd hj' (by decide)

theorem follower_commits_verified_sample :
    Built aheadLeader lastEntryRequest ∧
      (strayingFollower.handleAppendEntries lastEntryRequest).1.commitIndex = 2 ∧
      ∃ e, aheadLeader.log.entryAtLocked 2 = some e ∧
        ((strayingFollower.hearLeader 2 "n1").mergeLocked lastEntryRequest).log.entryAtLocked 2 =
          some e := by
  have hl : aheadLeader.log.Contiguous := by
    intro k e he
    match k, he with
    | 0, rfl => rfl
    | 1, rfl => rfl
  have hf : strayingFollower.log.Contiguous := by
    intro k e he
    match k, he with
    | 0, rfl => rfl
    | 1, rfl => rfl
    | 2, rfl => rfl
  have hbuilt : Built aheadLeader lastEntryRequest := Or.inl ⟨"n2", by decide +kernel⟩
  obtain ⟨_, hfollow⟩ := follower_commits_verified hl (by decide) hbuilt
  obtain ⟨hcommit, hentries⟩ :=
    hfollow strayingFollower hf strayingFollower_matching (by decide +kernel)
  have htwo : (strayingFollower.handleAppendEntries lastEntryRequest).1.commitIndex = 2 :=
    hcommit.trans (by decide)
  exact ⟨hbuilt, htwo, hentries (by decide) 2 (by decide) htwo.ge (by decide)⟩

/-! A node is started on a log that was compacted to index 2, with an empty snapshot: `NewNode`
leaves its commit index at 0. The leader has all of its log and has committed it. -/

def wholeLeader : RaftNode Unit :=
  { RaftNode.boot Cluster.idle (Cluster.sample.config "n1") (some {}) with
    state := .leader
    currentTerm := 1
    log :=
      ⟨{ term := 0, index := 0 },
        [{ term := 1, index := 1 }, { term := 1, index := 2 }, { term := 1, index := 3 }]⟩
    commitIndex := 3
    nextIndex := fun _ => some 3 }

def bareFollower : RaftNode Unit :=
  RaftNode.boot Cluster.idle (Cluster.sample.config "n2")
    (some { saved := [{ currentTerm := 1, log := [{ term := 1, index := 2 }] }] })

def thirdEntryRequest : AppendEntriesRequest where
  term := 1
  leaderID := "n1"
  prevLogIndex := 2
  prevLogTerm := 1
  entries := [{ term := 1, index := 3 }]
  leaderCommit := 3

/-- **A follower may commit an index that it has no entry for**, and that the leader has one for. -/
theorem commits_without_entry : ∃ (l f : RaftNode Unit) (req : AppendEntriesRequest),
    l.log.Contiguous ∧ l.commitIndex ≤ l.log.lastLogIndexLocked ∧ Built l req ∧
      f.log.Contiguous ∧ l.log.MatchingWith f.log ∧ (f.handleAppendEntries req).2.success = true ∧
      ∃ i, f.commitIndex < i ∧ i ≤ (f.handleAppendEntries req).1.commitIndex ∧
        l.log.lastIncludedIndexLocked < i ∧ ¬ ∃ e, l.log.entryAtLocked i = some e ∧
          ((f.hearLeader req.term req.leaderID).mergeLocked req).log.entryAtLocked i = some e := by
  have hbare : bareFollower.log = ⟨{ term := 1, index := 2 }, []⟩ := by decide +kernel
  refine ⟨wholeLeader, bareFollower, thirdEntryRequest, ?_, by decide,
    Or.inl ⟨"n2", by decide +kernel⟩, ?_, ?_, by decide +kernel, 1, by decide +kernel,
    by decide +kernel, by decide, ?_⟩
  · intro k e he
    match k, he with
    | 0, rfl => rfl
    | 1, rfl => rfl
    | 2, rfl => rfl
  · intro k e he
    rw [hbare] at he
    cases he
  · -- the only index that the follower has a term for is that of its dummy
    intro j t _ hj i hi _ hfb
    rw [hbare] at hj hfb
    obtain ⟨x, hx, _⟩ := Option.map_eq_some_iff.mp hj
    rcases Log.entryAt_cases hx with ⟨rfl, _⟩ | ⟨k, _, hget⟩
    · exact absurd hi (not_le.mpr hfb)
    · cases hget
  · rintro ⟨e, _, he⟩
    have hnone :
        ((bareFollower.hearLeader 1 "n1").mergeLocked thirdEntryRequest).log.entryAtLocked 1 =
        none := by decide +kernel
    exact absurd (hnone.symm.trans he) (by simp)

end Raft
