import RaftStore.Node.Matching
import RaftStore.Results.Fixed

/-!
# Requests in any order

The requests of one leader may reach a follower late, repeatedly and in any order. Whatever arrives,
the part of the follower's log that agrees with the leader's never gets shorter
(`append_tolerates_reordering`).
-/

namespace Node

open Raft Cluster

variable {σ : Type} {n : RaftNode σ} {G : List LogEntry} {T b : Int} {req : AppendEntriesRequest}

/-! ## What a leader sends -/

/-- A leader whose log ends like `G`. -/
structure Owns (G : List LogEntry) (l : RaftNode σ) : Prop where
  nonneg : 0 ≤ l.log.head.index
  base_le : l.log.head.index.toNat ≤ G.length
  tail_eq : l.log.tail = G.drop l.log.head.index.toNat
  term_eq : (full G).termAtLocked l.log.head.index = some l.log.head.term
  contiguous : l.log.Contiguous
  commit_le : l.commitIndex ≤ G.length

/-- A leader's entry has the term that the whole log has there. -/
theorem Owns.entryAt {l : RaftNode σ} (h : Owns G l) {i : Int} {x : LogEntry}
    (hx : l.log.entryAtLocked i = some x) : (full G).termAtLocked i = some x.term := by
  rcases Log.entryAt_cases hx with ⟨rfl, rfl⟩ | ⟨k, rfl, hget⟩
  · exact h.term_eq
  · rw [h.tail_eq, List.getElem?_drop] at hget
    have hpos := h.nonneg
    rw [show l.log.head.index + 1 + (k : Int) = ((l.log.head.index.toNat + k : Nat) : Int) + 1
      from by
      omega]
    exact termAt_full hget

/-- The request that a leader makes for a peer is cut from its log. -/
theorem Owns.cutFrom {l l' : RaftNode σ} (h : Owns G l) {peer : String}
    (hreq : l.makeAppendRequestLocked peer = (l', some req)) : CutFrom G l.currentTerm req := by
  have hpos := h.nonneg
  have hbase := h.base_le
  -- with a `nextIndex` that was compacted away, a snapshot is sent instead
  by_cases hlo : l.log.lastIncludedIndexLocked < l.next peer
  swap
  · unfold RaftNode.makeAppendRequestLocked at hreq
    rw [if_pos (not_lt.mp hlo)] at hreq
    cases hreq
  obtain ⟨t, ht, heq⟩ := RaftNode.makeAppendRequest_eq h.contiguous hlo
  obtain ⟨_, hsome⟩ := Prod.mk.inj (heq.symm.trans hreq)
  obtain rfl := Option.some.inj hsome
  have hlast := Log.lastLogIndex_of_contiguous h.contiguous
  rw [h.tail_eq, List.length_drop] at hlast
  unfold Log.lastIncludedIndexLocked at hlo
  -- the request starts behind position `p` of the leader's log
  obtain ⟨p, hp⟩ : ∃ p : Nat, l.startIndex peer - 1 = p := by
    refine ⟨(l.startIndex peer - 1).toNat, ?_⟩
    unfold RaftNode.startIndex
    omega
  have hpG : p ≤ G.length := by
    unfold RaftNode.startIndex at hp
    omega
  obtain ⟨x, hx, hxt⟩ := Option.map_eq_some_iff.mp ht
  -- it carries all that follows `p`, and a commit index within the log
  refine ⟨p, G.length, hpG, le_refl _, rfl, hp, ?_, ?_, h.commit_le⟩
  · dsimp only
    rw [← hp, h.entryAt hx, hxt]
  · dsimp only
    rw [h.tail_eq, List.drop_drop, List.take_length]
    congr 1
    unfold RaftNode.startIndex at hp ⊢
    omega

/-! ## Any order, any number of times -/

/-- What a request did to a follower: the part that agrees is not shorter, it covers the request if
it was successful, the log is unchanged if it was not, and entries were removed only behind a
conflict with the request. -/
structure Tolerated (G : List LogEntry) (T b b' : Int) (req : AppendEntriesRequest)
    (n n' : RaftNode σ) (resp : AppendEntriesResponse) : Prop where
  le : b ≤ b'
  tracks : Tracks G T b' n'
  le_last : b ≤ n.log.lastLogIndexLocked → b' ≤ n'.log.lastLogIndexLocked
  covers : resp.success = true → req.prevLogIndex + req.entries.length ≤ b' ∧
    req.prevLogIndex + req.entries.length ≤ n'.log.lastLogIndexLocked
  unchanged : resp.success = false → n'.log = n.log
  removed : ∀ i x, n.log.entryAtLocked i = some x → n'.log.lastIncludedIndexLocked < i →
    n'.log.entryAtLocked i = some x ∨ ∃ (k : Nat) (e y : LogEntry), req.entries[k]? = some e ∧
      n.log.entryAtLocked (req.prevLogIndex + 1 + k) = some y ∧ y.term ≠ e.term ∧
      req.prevLogIndex + 1 + k ≤ i

/-- One request is tolerated, whatever came before it. -/
theorem Tracks.tolerated (hG : (full G).Contiguous) (h : Tracks G T b n) (hreq : CutFrom G T req) :
    ∃ b', Tolerated G T b b' req n (n.handleAppendEntries req).1 (n.handleAppendEntries req).2 := by
  have hterm : req.term = T := by
    obtain ⟨_, _, _, _, hT, _⟩ := hreq
    exact hT
  rcases n.handleAppendEntries_cases req with ⟨hlt, _⟩ | ⟨hle, _, heq⟩ | ⟨hle, hprev, heq⟩
  -- the term of a request from this leader is not too old
  · have := h.term_le
    omega
  · -- refused: only the term may change
    have hlog := n.log_hearLeader req.term req.leaderID
    rw [heq]
    refine ⟨b, le_refl b, ⟨?_, ?_, ?_⟩, ?_, (fun hs => by cases hs), fun _ => hlog, ?_⟩
    · rw [(n.hearLeader_fields (not_lt.mpr hle) req.leaderID).1]
      exact hterm.le
    · rw [commitIndex_hearLeader]
      exact h.commit_le
    · rw [hlog]
      exact h.agreed
    · rw [hlog]
      exact id
    · intro i x hx _
      rw [hlog]
      exact Or.inl hx
  -- merged: what is agreed on reaches further, or as far as before
  · obtain ⟨htracks, hlast, hretains⟩ := h.taken hG hreq hprev
    obtain ⟨_, hcover, hmono⟩ := h.agreed.merge hG hreq hprev.1 hprev.2
    rw [heq]
    refine ⟨_, le_max_left _ _, htracks, ?_, ?_, (fun hs => by cases hs), ?_⟩
    · intro hb
      rw [hlast]
      exact max_le (hmono hb) hcover
    · intro _
      rw [hlast]
      exact ⟨le_max_right _ _, hcover⟩
    -- an entry is kept, unless it conflicts with one of the request
    · intro i x hx hlt
      obtain ⟨q, hq, hpos⟩ := Log.exists_position hprev.1 hprev.2
      have hstart : req.prevLogIndex + 1 = n.log.head.index + 1 + q := by omega
      rcases mergeEntries_keeps hstart hq hx with hkept | hconflict
      · exact Or.inl (hretains i x hkept hlt)
      · exact Or.inr hconflict

/-- **AppendEntries tolerates reordering and repetition.** -/
theorem append_tolerates_reordering (hG : (full G).Contiguous) (h : Tracks G T b n) :
    (∀ req, CutFrom G T req → ∃ b', Tolerated G T b b' req n (n.handleAppendEntries req).1
      (n.handleAppendEntries req).2) ∧
    ∀ reqs : List AppendEntriesRequest, (∀ req ∈ reqs, CutFrom G T req) → ∃ b', b ≤ b' ∧
      Tracks G T b' (reqs.foldl (fun n req => (n.handleAppendEntries req).1) n) ∧
      (b ≤ n.log.lastLogIndexLocked →
        b' ≤ (reqs.foldl (fun n req =>
          (n.handleAppendEntries req).1) n).log.lastLogIndexLocked) := by
  refine ⟨fun req hreq => h.tolerated hG hreq, fun reqs => ?_⟩
  induction reqs generalizing n b with
  | nil => exact fun _ => ⟨b, le_refl b, h, id⟩
  | cons req rest ih =>
    intro hreqs
    -- the first request, then the others, from what is agreed on after it
    obtain ⟨b', hstep⟩ := h.tolerated hG (hreqs req List.mem_cons_self)
    obtain ⟨b'', hle, htracks, hlast⟩ :=
      ih hstep.tracks (fun r hr => hreqs r (List.mem_cons_of_mem _ hr))
    exact ⟨b'', hstep.le.trans hle, htracks, fun hb => hlast (hstep.le_last hb)⟩

/-! A follower with an entry of term 1 at index 2 that its leader in term 2 does not have. The later
request arrives first, and once more after the earlier one. -/

/-- The leader's log. -/
def leaderLog : List LogEntry :=
  [{ term := 1, index := 1 }, { term := 2, index := 2 }, { term := 2, index := 3 }]

/-- The follower has an entry of term 1 at index 2. -/
def conflicting : RaftNode Unit :=
  ((RaftNode.boot idle { id := "n2", peerAddrs := threeNodes, snapshotThreshold := 0 }
    none).handleAppendEntries
    { term := 1, leaderID := "n3", prevLogIndex := 0, prevLogTerm := 0,
      entries := [{ term := 1, index := 1 }, { term := 1, index := 2 }], leaderCommit := 1 }).1

/-- The request of the leader with the entries behind `p` up to `e`. -/
def cutAt (p e : Nat) (prevTerm : Int) : AppendEntriesRequest where
  term := 2
  leaderID := "n1"
  prevLogIndex := p
  prevLogTerm := prevTerm
  entries := (leaderLog.take e).drop p
  leaderCommit := e

/-- The last request first, and then once more. -/
def outOfOrder : List AppendEntriesRequest := [cutAt 1 3 1, cutAt 0 1 0, cutAt 1 3 1]

theorem conflicting_log : conflicting.log =
    ⟨{ term := 0, index := 0 }, [{ term := 1, index := 1 }, { term := 1, index := 2 }]⟩ := by
  decide +kernel

/-- The logs agree up to index 1. -/
theorem conflicting_agrees : AgreesTo leaderLog conflicting.log 1 := by
  intro i hi x hx
  rw [conflicting_log] at hx ⊢
  rcases Log.entryAt_cases hx with ⟨rfl, rfl⟩ | ⟨k, rfl, hget⟩
  · exact ⟨rfl, fun hlt => absurd hlt (lt_irrefl _)⟩
  · obtain rfl : k = 0 := by
      dsimp only at hi
      omega
    cases hget
    exact ⟨rfl, fun _ => rfl⟩

/-- The follower is one that the result speaks of. -/
theorem conflicting_tracks : Tracks leaderLog 2 1 conflicting where
  term_le := by decide +kernel
  commit_le := by decide +kernel
  agreed :=
    { contiguous := by
        rw [conflicting_log]
        intro k e he
        -- both entries stand at their indices
        match k, he with
        | 0, rfl => rfl
        | 1, rfl => rfl
      agrees := conflicting_agrees
      matching := by
        intro i x hx hterm
        have hx' := hx
        rw [conflicting_log] at hx'
        rcases Log.entryAt_cases hx' with ⟨rfl, _⟩ | ⟨k, rfl, hget⟩
        · exact conflicting_agrees.mono (by decide)
        · match k, hget with
          | 0, _ => exact conflicting_agrees.mono (by decide)
          | 1, rfl => exact absurd hterm (by decide) }

theorem cutAt_cutFrom {p e : Nat} {t : Int} (hpe : p ≤ e) (he : e ≤ 3)
    (ht : (full leaderLog).termAtLocked p = some t) : CutFrom leaderLog 2 (cutAt p e t) :=
  ⟨p, e, hpe, he, rfl, rfl, ht, rfl, le_refl _⟩

theorem append_tolerates_reordering_sample :
    (outOfOrder.foldl (fun n req => (n.handleAppendEntries req).1) conflicting).log.tail =
        leaderLog ∧
      ∃ b', 1 ≤ b' ∧ Tracks leaderLog 2 b'
        (outOfOrder.foldl (fun n req => (n.handleAppendEntries req).1) conflicting) := by
  refine ⟨by decide +kernel, ?_⟩
  have hG : (full leaderLog).Contiguous := by
    intro k e he
    match k, he with
    | 0, rfl => rfl
    | 1, rfl => rfl
    | 2, rfl => rfl
  have hcut : ∀ req ∈ outOfOrder, CutFrom leaderLog 2 req := by
    intro req hreq
    simp only [outOfOrder, List.mem_cons, List.not_mem_nil, or_false] at hreq
    rcases hreq with rfl | rfl | rfl
    · exact cutAt_cutFrom (by decide) (by decide) rfl
    · exact cutAt_cutFrom (by decide) (by decide) rfl
    · exact cutAt_cutFrom (by decide) (by decide) rfl
  obtain ⟨b', hle, htracks, _⟩ :=
    (append_tolerates_reordering hG conflicting_tracks).2 outOfOrder hcut
  exact ⟨b', hle, htracks⟩

end Node
