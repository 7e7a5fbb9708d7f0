import RaftStore.Node.Recovery
import Mathlib.Data.List.Forall2

/-!
# The configuration and the log

A node caches its configuration in `peerAddrs`, `peerIDs` and `basePeers`, and drops the entries
that a snapshot covers. Its `Past` keeps them: the configuration it started from and every entry of
the log since. `Follows` says that the three caches are what the past leads to.

* `Follows.handle`: every section keeps it, for the past that the section leads to, and what is
  saved on the way is in order, too (`Recalls`);
* `Told` is a node with its past and with the pasts of the saved states, so that a restart takes the
  node and its past back to the same state;
* `Told.Sound.tell` is one step in the life of such a node.

A snapshot comes with the past of the leader that took it, and replaces the one of the node.
-/

namespace Node

open Raft Cluster

/-- What is behind the state of a node: the configuration it started from, and every entry of its
log since then, with those that a snapshot has replaced. -/
structure Past where
  initial : AddrMap × AddrMap
  history : List LogEntry

/-- The changes of the history, one after the other. -/
def Past.config (p : Past) : AddrMap × AddrMap := p.history.foldl applyEntry p.initial

/-- The past up to an index. -/
def Past.upTo (p : Past) (b : Nat) : Past := { p with history := p.history.take b }

theorem Past.upTo_upTo (p : Past) (b : Nat) : (p.upTo b).upTo b = p.upTo b := by
  unfold Past.upTo
  rw [List.take_take, min_self]

theorem Past.upTo_length (p : Past) : p.upTo p.history.length = p := by
  unfold Past.upTo
  rw [List.take_length]

/-- No configuration on the way is empty. -/
def Past.Peopled (p : Past) : Prop := ∀ b, (p.upTo b).config.1.isEmpty = false

/-- The past after a section of a node with the log `log`. A snapshot brings its own. -/
def Past.after (p : Past) (log : Log) (sender : Past) : Effect → Past
  | .none => p
  | .append e => { p with history := p.history ++ [e] }
  | .merge req =>
    { p with
      history := p.history.take log.lastIncludedIndexLocked.toNat ++
        (log.mergeEntries req.entries (req.prevLogIndex + 1)).1.tail }
  | .install _ => sender

variable {σ : Type} {M : Machine σ} {n m m' : RaftNode σ} {p p' sender : Past} {log : Log}
  {base : AddrMap × AddrMap} {d : DurableState} {e : LogEntry}

/-! ## Logs with a past -/

/-- The log is the end of the history, and the base configuration is that of the rest. -/
structure Founded (p : Past) (log : Log) (base : AddrMap × AddrMap) : Prop where
  peopled : p.Peopled
  numbered : ∀ (k : Nat) (e : LogEntry), p.history[k]? = some e → e.index = k + 1
  nonneg : 0 ≤ log.lastIncludedIndexLocked
  base_le : log.lastIncludedIndexLocked.toNat ≤ p.history.length
  tail_eq : log.tail = p.history.drop log.lastIncludedIndexLocked.toNat
  base_eq : base = (p.upTo log.lastIncludedIndexLocked.toNat).config

theorem Founded.contiguous (h : Founded p log base) : log.Contiguous := by
  intro k e he
  rw [h.tail_eq, List.getElem?_drop] at he
  have hidx := h.numbered _ e he
  have hpos := h.nonneg
  unfold Log.lastIncludedIndexLocked at hidx hpos
  push_cast at hidx
  omega

/-- The history is the log from index 1 on. -/
theorem Founded.length_eq (h : Founded p log base) :
    log.lastLogIndexLocked = p.history.length := by
  have hle := h.base_le
  have hpos := h.nonneg
  rw [Log.lastLogIndex_of_contiguous h.contiguous, h.tail_eq, List.length_drop]
  unfold Log.lastIncludedIndexLocked at hle hpos ⊢
  omega

/-- Rebuilding the configuration from the log gives that of the history. -/
theorem Founded.config_eq (h : Founded p log base) : log.tail.foldl applyEntry base = p.config := by
  rw [h.tail_eq, h.base_eq]
  unfold Past.config Past.upTo
  dsimp only
  rw [← List.foldl_append, List.take_append_drop]

theorem Founded.base_ne (h : Founded p log base) : base.1.isEmpty = false := by
  rw [h.base_eq]
  exact h.peopled _

theorem take_take_append {α : Type} {l : List α} {b : Nat} (h : b ≤ l.length) (t : List α) :
    (l.take b ++ t).take b = l.take b := by
  rw [List.take_append_of_le_length, List.take_take, min_self]
  rw [List.length_take]
  exact le_min (le_refl b) h

/-- The two pasts begin in the same way, up to where the log begins. -/
def SameBase (p p' : Past) (log : Log) : Prop :=
  p'.initial = p.initial ∧ p'.history.take log.lastIncludedIndexLocked.toNat =
    p.history.take log.lastIncludedIndexLocked.toNat

theorem Founded.sameBase_append (h : Founded p log base) (e : LogEntry) :
    SameBase p { p with history := p.history ++ [e] } log :=
  ⟨rfl, List.take_append_of_le_length h.base_le⟩

theorem Founded.sameBase_merge (h : Founded p log base) (req : AppendEntriesRequest) :
    SameBase p (p.after log sender (.merge req)) log :=
  ⟨rfl, take_take_append h.base_le _⟩

/-- A log has one past that begins in a given way. -/
theorem Founded.unique (h : Founded p log base) (h' : Founded p' log base)
    (hbase : SameBase p p' log) : p' = p := by
  obtain ⟨initial', history'⟩ := p'
  obtain ⟨initial, history⟩ := p
  obtain ⟨hinit, htake⟩ := hbase
  have hdrop := h'.tail_eq.symm.trans h.tail_eq
  dsimp only at hinit htake hdrop
  rw [hinit, ← List.take_append_drop log.lastIncludedIndexLocked.toNat history', htake, hdrop,
    List.take_append_drop]

/-- Whatever comes behind the part that the snapshot covers may be replaced. -/
theorem Founded.extend (h : Founded p log base) {tail : List LogEntry}
    (hcont : Log.Contiguous ⟨log.head, tail⟩)
    (hpeopled : Past.Peopled
      { p with history := p.history.take log.lastIncludedIndexLocked.toNat ++ tail }) :
    Founded { p with history := p.history.take log.lastIncludedIndexLocked.toNat ++ tail }
      ⟨log.head, tail⟩ base := by
  have hlen : (p.history.take log.lastIncludedIndexLocked.toNat).length =
      log.lastIncludedIndexLocked.toNat := by
    rw [List.length_take]
    exact min_eq_left h.base_le
  have hpos := h.nonneg
  exact
    { peopled := hpeopled
      numbered := by
        intro k e he
        dsimp only at he
        -- below the base the old history counts, above it the log
        rcases Nat.lt_or_ge k log.lastIncludedIndexLocked.toNat with hk | hk
        · rw [List.getElem?_append_left (by omega), List.getElem?_take, if_pos hk] at he
          exact h.numbered k e he
        · rw [List.getElem?_append_right (by omega), hlen] at he
          have hidx := hcont _ e he
          unfold Log.lastIncludedIndexLocked at hk hpos hidx
          dsimp only at hidx
          push_cast [hk] at hidx
          omega
      nonneg := hpos
      base_le := by
        show log.lastIncludedIndexLocked.toNat ≤ List.length (_ ++ tail)
        rw [List.length_append, hlen]
        omega
      tail_eq := by
        show tail = (_ ++ tail).drop log.lastIncludedIndexLocked.toNat
        rw [List.drop_append_of_le_length (by omega), List.drop_of_length_le (by omega),
          List.nil_append]
      base_eq := by
        rw [h.base_eq]
        unfold Past.config Past.upTo
        show _ = ((_ ++ tail).take log.lastIncludedIndexLocked.toNat).foldl applyEntry p.initial
        rw [take_take_append h.base_le] }

/-- One more entry, which leads to a configuration that is not empty. -/
theorem Past.Peopled.snoc (h : p.Peopled)
    (he : (applyEntry p.config e).1.isEmpty = false) :
    Past.Peopled { p with history := p.history ++ [e] } := by
  intro b
  -- the whole history, or a part of the old one
  rcases Nat.lt_or_ge p.history.length b with hlt | hle
  · have hall : (p.history ++ [e]).take b = p.history ++ [e] :=
      List.take_of_length_le (by rw [List.length_append]; exact hlt)
    show (((p.history ++ [e]).take b).foldl applyEntry p.initial).1.isEmpty = false
    rw [hall, List.foldl_append]
    exact he
  · show (((p.history ++ [e]).take b).foldl applyEntry p.initial).1.isEmpty = false
    rw [List.take_append_of_le_length hle]
    exact h b

theorem Founded.append (h : Founded p log base)
    (hidx : e.index = log.lastLogIndexLocked + 1)
    (he : (applyEntry p.config e).1.isEmpty = false) :
    Founded { p with history := p.history ++ [e] } (log.append [e]) base := by
  -- the old log, and the entry behind it
  have hsplit : p.history.take log.lastIncludedIndexLocked.toNat ++ (log.tail ++ [e]) =
      p.history ++ [e] := by
    rw [h.tail_eq, ← List.append_assoc, List.take_append_drop]
  have happ := h.extend (h.contiguous.append hidx) (by
    show Past.Peopled { p with history := _ ++ (log.tail ++ [e]) }
    rw [hsplit]
    exact h.peopled.snoc he)
  rw [← hsplit]
  exact happ

theorem Founded.merge (h : Founded p log base) {req : AppendEntriesRequest} {t : Int}
    (hlo : log.lastIncludedIndexLocked ≤ req.prevLogIndex)
    (hterm : log.termAtLocked req.prevLogIndex = some t)
    (hpeopled : (p.after log sender (.merge req)).Peopled) :
    Founded (p.after log sender (.merge req))
      (log.mergeEntries req.entries (req.prevLogIndex + 1)).1 base := by
  obtain ⟨q, hq, hidx⟩ := Log.exists_position hlo hterm
  -- the dummy stays, and the indexes go on
  have hcont : (log.mergeEntries req.entries (req.prevLogIndex + 1)).1.Contiguous :=
    h.contiguous.merge (show req.prevLogIndex + 1 = log.head.index + 1 + q by omega) hq
  have hhead : (log.mergeEntries req.entries (req.prevLogIndex + 1)).1.head = log.head :=
    Log.head_mergeEntries
  dsimp only [Past.after] at hpeopled ⊢
  generalize (log.mergeEntries req.entries (req.prevLogIndex + 1)).1 = merged
    at hcont hhead hpeopled ⊢
  obtain ⟨head, tail⟩ := merged
  obtain rfl : head = log.head := hhead
  exact h.extend hcont hpeopled

/-- Compaction moves the border between the two parts. -/
theorem Founded.compact (h : Founded p log base) {i t : Int}
    (hidx : log.lastIncludedIndexLocked < i) (he : log.entryAtLocked i = some e) :
    Founded p ⟨{ term := t, index := i }, log.slice (log.sliceIndexLocked i + 1)⟩
      ((log.tail.takeWhile (fun e => e.index ≤ i)).foldl applyEntry base) := by
  have hpos := h.nonneg
  have hle := h.base_le
  -- the entry at `i` is in the history
  have hlast : i.toNat ≤ p.history.length := by
    rcases Log.entryAt_cases he with ⟨heq, _⟩ | ⟨k, hk, hget⟩
    · exact absurd heq hidx.ne'
    · have hlt := (List.getElem?_eq_some_iff.mp hget).1
      rw [h.tail_eq, List.length_drop] at hlt
      unfold Log.lastIncludedIndexLocked at hpos hle hlt
      omega
  -- what the snapshot covers comes from the log
  have hsplit : p.history.take i.toNat = p.history.take log.lastIncludedIndexLocked.toNat ++
      log.tail.take (i - log.lastIncludedIndexLocked).toNat := by
    rw [h.tail_eq, ← List.take_add]
    congr 1
    omega
  exact
    { peopled := h.peopled
      numbered := h.numbered
      nonneg := by
        show 0 ≤ i
        omega
      base_le := hlast
      tail_eq := by
        show log.slice _ = p.history.drop i.toNat
        unfold Log.lastIncludedIndexLocked at hpos hle hidx
        rw [Log.slice_tail hidx.le, h.tail_eq, List.drop_drop]
        unfold Log.lastIncludedIndexLocked
        congr 1
        omega
      base_eq := by
        rw [h.contiguous.takeWhile_eq, h.base_eq]
        unfold Past.config Past.upTo
        show _ = (p.history.take i.toNat).foldl applyEntry p.initial
        rw [hsplit, List.foldl_append]
        rfl }

/-! ## Nodes with a past -/

/-- **The configuration is a function of the log.** -/
structure Follows (p : Past) (n : RaftNode σ) : Prop where
  founded : Founded p n.log (n.basePeers, n.baseHTTP)
  peers_eq : (n.peerAddrs, n.peerHTTP) = p.config
  peerIDs_eq : n.peerIDs = n.peerAddrs.keys

/-- A recorded state in which log and base configuration have a past. -/
def Recalls (p : Past) (d : DurableState) : Prop :=
  ∃ log, d.log = log.toList ∧ Founded p log (d.snapshotPeers, d.snapshotHTTP)

theorem Follows.recalls (h : Follows p n) : Recalls p n.durable := ⟨n.log, rfl, h.founded⟩

/-- Wherever the configuration is rebuilt it follows. -/
theorem Founded.rebuild (h : Founded p n.log (n.basePeers, n.baseHTTP)) :
    Follows p n.rebuildMembershipLocked :=
  ⟨h, h.config_eq, rfl⟩

theorem Follows.minor (hstep : Minor m m') (h : Follows p m) : Follows p m' := by
  cases hstep with
  | volatile v => exact { h with }
  | ballot term vote _ => exact { h with }
  | apply e _ _ =>
    obtain ⟨_, _, heq⟩ := m.applyNext_eq (m.lastApplied + 1) e
    rw [heq]
    exact { h with }
  -- the configuration is folded once more, over fewer entries
  | compact e data s hidx he _ _ =>
    have hcut := (h.founded.compact (t := e.term) hidx he).rebuild (n := { m with
      log := ⟨{ term := e.term, index := m.lastApplied },
        m.log.slice (m.log.sliceIndexLocked m.lastApplied + 1)⟩
      snapshot := data
      basePeers := (m.membershipAtLocked m.lastApplied).1
      baseHTTP := (m.membershipAtLocked m.lastApplied).2 })
    exact { hcut with }

theorem Follows.append (h : Follows p m) (hch : e.change = none)
    (hidx : e.index = m.log.lastLogIndexLocked + 1) :
    Follows { p with history := p.history ++ [e] }
      { m with log := m.log.append [e] }.persistLocked where
  founded := by
    refine h.founded.append hidx ?_
    have hsame : applyEntry p.config e = p.config := by
      unfold applyEntry
      rw [hch]
    rw [hsame, ← p.upTo_length]
    exact h.founded.peopled _
  peers_eq := h.peers_eq.trans (foldl_applyEntry_snoc hch).symm
  peerIDs_eq := h.peerIDs_eq

theorem Follows.change (h : Follows p m) {ch : MembershipChange} {c : AddrMap × AddrMap}
    (hc : m.changedPeers ch = .ok c) :
    Follows { p with history := p.history ++ [changeEntry m ch c] }
      { m with
        log := m.log.append [changeEntry m ch c]
        }.rebuildMembershipLocked.notifyPeersLocked.persistLocked := by
  -- the entry carries the configuration that it leads to
  have hne : c.1.isEmpty = false := RaftNode.changedPeers_isEmpty hc h.peerIDs_eq
  have hleads : (applyEntry p.config (changeEntry m ch c)).1.isEmpty = false := by
    simp [applyEntry, changeEntry, applyChange, hne]
  exact { (h.founded.append rfl hleads).rebuild (n := { m with log := _ }) with }

theorem Follows.merge (h : Follows p m) {req : AppendEntriesRequest} (hprev : m.PrevMatches req)
    (hpeopled : (p.after m.log sender (.merge req)).Peopled) :
    Follows (p.after m.log sender (.merge req)) (m.mergeLocked req) := by
  have hmerge : Founded (p.after m.log sender (.merge req))
      (m.log.mergeEntries req.entries (req.prevLogIndex + 1)).1 (m.basePeers, m.baseHTTP) :=
    h.founded.merge hprev.1 hprev.2 hpeopled
  rcases m.mergeLocked_cases req with hsame | hmerged
  · -- nothing was new, so the past is the same
    have hlog := m.log_mergeLocked req
    rw [hsame] at hlog ⊢
    rw [← hlog] at hmerge
    rw [h.founded.unique hmerge (h.founded.sameBase_merge req)]
    exact h
  · rw [hmerged]
    exact { hmerge.rebuild (n := { m with log := _ }) with }

/-- A snapshot with the past of the leader that took it. -/
structure Vouches (sender : Past) (req : InstallSnapshotRequest) : Prop where
  founded : Founded sender ⟨{ term := req.lastIncludedTerm, index := req.lastIncludedIndex }, []⟩
    (req.peers, req.http)

/-- A leader that follows its log sends such snapshots. -/
theorem Follows.vouches (h : Follows p n) :
    Vouches (p.upTo n.log.lastIncludedIndexLocked.toNat) n.installSnapshotRequestLocked where
  founded :=
    { peopled := fun b => by
        have hmin : (p.upTo n.log.lastIncludedIndexLocked.toNat).upTo b =
            p.upTo (min b n.log.lastIncludedIndexLocked.toNat) := by
          unfold Past.upTo
          rw [List.take_take]
        rw [hmin]
        exact h.founded.peopled _
      numbered := by
        intro k e he
        have he' : (p.history.take n.log.lastIncludedIndexLocked.toNat)[k]? = some e := he
        rw [List.getElem?_take] at he'
        split at he'
        · exact h.founded.numbered k e he'
        · cases he'
      nonneg := h.founded.nonneg
      base_le := by
        show n.log.lastIncludedIndexLocked.toNat ≤ (p.history.take _).length
        rw [List.length_take]
        exact le_min (le_refl _) h.founded.base_le
      tail_eq := by
        show [] = (p.history.take _).drop n.log.lastIncludedIndexLocked.toNat
        rw [List.drop_of_length_le (List.length_take_le _ _)]
      base_eq := by
        refine h.founded.base_eq.trans ?_
        show _ = ((p.upTo _).upTo n.log.lastIncludedIndexLocked.toNat).config
        rw [Past.upTo_upTo] }

theorem Vouches.install {req : InstallSnapshotRequest} (h : Vouches sender req)
    (m : RaftNode σ) : Follows sender (m.installLocked req) := by
  obtain ⟨k, ⟨_, rfl⟩ | ⟨hempty, _⟩, heq⟩ := m.installLocked_eq req
  · rw [heq]
    exact { h.founded.rebuild (n := { m with
      log := _, snapshot := req.data, basePeers := req.peers, baseHTTP := req.http }) with }
  · have hne : req.peers.isEmpty = false := h.founded.base_ne
    rw [hne] at hempty
    cases hempty

/-! ## Sections -/

/-- What others send is backed: the entries lead to no configuration without members, and a snapshot
comes from a leader whose configuration follows from its own log. -/
def Backed (p : Past) (n : RaftNode σ) (sender : Past) : Event → Prop
  | .appendEntries req => n.PrevMatches req → (p.after n.log sender (.merge req)).Peopled
  | .installSnapshot req => Vouches sender req
  | _ => True

/-- The past to which a state belongs that is saved in a section from `n` with the past `p`. -/
def Past.atSave (p p' : Past) (n : RaftNode σ) (d : DurableState) : Past :=
  if d.log = n.log.toList then p else p'

/-- A state that is saved in a section belongs to the past before it or after it. -/
def Belongs (p p' : Past) (n : RaftNode σ) (d : DurableState) : Prop := Recalls (p.atSave p' n d) d

/-- If the log of a state that belongs to the new past is the old one, the two pasts are the same.
-/
theorem Recalls.belongs (h : Follows p n) (hbase : SameBase p p' n.log) (hd : Recalls p' d) :
    Belongs p p' n d := by
  unfold Belongs Past.atSave
  split
  · next hlog =>
    obtain ⟨log, hd', hf⟩ := hd
    obtain rfl : log = n.log := log_eq_of_toList (hd'.symm.trans hlog)
    have hbases : (d.snapshotPeers, d.snapshotHTTP) = (n.basePeers, n.baseHTTP) := by
      rw [hf.base_eq, h.founded.base_eq]
      unfold Past.upTo
      rw [hbase.1, hbase.2]
    refine ⟨n.log, hlog, ?_⟩
    rw [hbases]
    exact h.founded
  · exact hd

/-- Before the log changes, everything belongs to the old past. -/
theorem Follows.before (h : Follows p n) (p' : Past) (hm : Quiet n m) (hlog : m.log = n.log) :
    Follows p m ∧ Saved (Belongs p p' n) n m := by
  refine hm.saved_of_log_eq (fun _ _ hstep => Follows.minor hstep) (fun k hk hklog => ?_) hlog h
  show Recalls (if k.log.toList = n.log.toList then p else p') k.durable
  rw [if_pos (congrArg Log.toList hklog)]
  exact hk.recalls

/-- After it, everything belongs to the new one. -/
theorem Follows.later (h : Follows p n) (hbase : SameBase p p' n.log) (hm : Follows p' m)
    (hq : Quiet m m') : Follows p' m' ∧ Saved (Belongs p p' n) m m' :=
  hq.saved (fun _ _ hstep => Follows.minor hstep) (fun _ hk => hk.recalls.belongs h hbase) hm

/-- A state behind the snapshot of a request belongs to the past of the leader. -/
theorem Follows.belongs_of_lt (h : Follows sender m) (hlt : n.log.head.index < m.log.head.index) :
    Belongs p sender n m.durable := by
  unfold Belongs Past.atSave
  rw [if_neg]
  · exact h.recalls
  · intro heq
    have hlogs : m.log = n.log := log_eq_of_toList heq
    rw [hlogs] at hlt
    exact lt_irrefl _ hlt

/-- The section of a snapshot. -/
theorem Follows.handle_install (h : Follows p n) {req : InstallSnapshotRequest}
    (hreq : Vouches sender req) (hm : Quiet n m) (hlog : m.log = n.log)
    (hidx : n.log.lastIncludedIndexLocked < req.lastIncludedIndex)
    (hq : Quiet (m.installLocked req) m') :
    Follows sender m' ∧ Saved (Belongs p sender n) n m' := by
  have hinst := hreq.install m
  have hlt : n.log.head.index < (m.installLocked req).log.head.index := by
    rw [(m.installed req).log_eq]
    exact hidx
  have hsaved := (h.before sender hm hlog).2.step (stores_installLocked m req)
    (hinst.belongs_of_lt hlt)
  obtain ⟨⟨hf, _⟩, hrest⟩ := hq.saved (P := fun k => Follows sender k ∧
      n.log.head.index < k.log.head.index) (Q := Belongs p sender n)
    (fun k k' hstep hk => ⟨hk.1.minor hstep, hk.2.trans_le hstep.base_le⟩)
    (fun k hk => hk.1.belongs_of_lt hk.2) ⟨hinst, hlt⟩
  exact ⟨hf, hsaved.trans hrest⟩

/-- **One section** takes the node to where its past goes, and saves only states that belong to the
past before or after. -/
theorem Follows.handle (h : Follows p n) {ev : Event} (hev : Backed p n sender ev) :
    Follows (p.after n.log sender (effect n ev)) (handle n ev) ∧
      Saved (Belongs p (p.after n.log sender (effect n ev)) n) n (Cluster.handle n ev) := by
  have hsec := handle_section n ev
  generalize heff : effect n ev = o at hsec
  cases hsec with
  | none hq => exact h.later ⟨rfl, rfl⟩ h hq
  | @append m _ e hm hlog hterm hidx hch hq =>
    have hbase := h.founded.sameBase_append e
    obtain ⟨hfm, hsaved⟩ := h.before { p with history := p.history ++ [e] } hm hlog
    have happ := hfm.append hch (by rw [hlog]; exact hidx)
    obtain ⟨hf, hrest⟩ := h.later hbase happ hq
    exact ⟨hf, (hsaved.step (Or.inr rfl) (happ.recalls.belongs h hbase)).trans hrest⟩
  | @change _ ch c hc hq =>
    have hbase := h.founded.sameBase_append (changeEntry n ch c)
    have happ := h.change hc
    obtain ⟨hf, hrest⟩ := h.later hbase happ hq
    refine ⟨hf, Saved.trans ?_ hrest⟩
    exact (Saved.refl _ n).step (Or.inr rfl) (happ.recalls.belongs h hbase)
  | @merge m _ req hm hlog hla hprev hq =>
    rw [eq_of_effect_merge heff] at hev
    have hbase : SameBase p (p.after n.log sender (.merge req)) n.log :=
      h.founded.sameBase_merge req
    obtain ⟨hfm, hsaved⟩ := h.before (p.after n.log sender (.merge req)) hm hlog
    have hprev' : m.PrevMatches req := by
      unfold RaftNode.PrevMatches at hprev ⊢
      rwa [hlog]
    have hmerge : Follows (p.after n.log sender (.merge req)) (m.mergeLocked req) := by
      have hpeopled := hev hprev
      rw [← hlog] at hpeopled ⊢
      exact hfm.merge hprev' hpeopled
    obtain ⟨hf, hrest⟩ := h.later hbase hmerge hq
    refine ⟨hf, Saved.trans ?_ hrest⟩
    exact hsaved.step (stores_mergeLocked m req) (hmerge.recalls.belongs h hbase)
  | install hm hlog hidx hq =>
    rw [eq_of_effect_install heff] at hev
    exact h.handle_install hev hm hlog hidx hq

/-! ## A node that knows its past -/

/-- A node, its past, and the pasts of the states in storage, the latest first. -/
structure Told (σ : Type) where
  node : RaftNode σ
  past : Past
  records : List Past

namespace Told

def savedStates (storage : Option Storage) : List DurableState :=
  (storage.map Storage.saved).getD []

/-- The pasts of the states in storage after an event. -/
def recordsAfter (s : Told σ) (ev : Event) (past : Past) : List Past :=
  let saved := savedStates (handle s.node ev).storage
  (saved.take (saved.length - s.records.length)).map (s.past.atSave past s.node) ++ s.records

/-- The past of a node that is started on recorded states: the latest, or none yet. -/
def pastAtStart (cfg : Config) (records : List Past) : Past :=
  records.headD ⟨(cfg.peerAddrs, cfg.httpAddrs), []⟩

/-- A first start. -/
def start (M : Machine σ) (cfg : Config) (storage : Option Storage) : Told σ :=
  ⟨RaftNode.boot M cfg storage, pastAtStart cfg [], []⟩

/-- A step in the life of the node. A snapshot that it brings comes with the past `sender`. -/
def tell (M : Machine σ) (s : Told σ) (l : Life) (sender : Past) : Told σ :=
  match l with
  | .event ev =>
    let past := s.past.after s.node.log sender (effect s.node ev)
    ⟨handle s.node ev, past, s.recordsAfter ev past⟩
  | .restart cfg => ⟨live M s.node (.restart cfg), pastAtStart cfg s.records, s.records⟩
  | .crashDuring ev saves cfg =>
    let past := s.past.after s.node.log sender (effect s.node ev)
    let records := s.recordsAfter ev past
    let records := records.drop (records.length - s.records.length - saves)
    ⟨live M s.node (.crashDuring ev saves cfg), pastAtStart cfg records, records⟩

/-- The node follows its past, and so does every state in storage. -/
structure Sound (s : Told σ) : Prop where
  follows : Follows s.past s.node
  records : List.Forall₂ Recalls s.records (savedStates s.node.storage)

theorem follows_fresh {cfg : Config} (hcfg : cfg.peerAddrs.isEmpty = false)
    (storage : Option Storage) (sn : Option (Snapshotter σ)) (x : σ) :
    Follows ⟨(cfg.peerAddrs, cfg.httpAddrs), []⟩ (RaftNode.fresh cfg storage sn x) where
  founded :=
    { peopled := fun b => by
        show (([] : List LogEntry).take b |>.foldl applyEntry _).1.isEmpty = false
        rw [List.take_nil]
        exact hcfg
      numbered := fun k e he => absurd he (by simp)
      nonneg := le_refl 0
      base_le := le_refl 0
      tail_eq := rfl
      base_eq := rfl }
  peers_eq := rfl
  peerIDs_eq := rfl

theorem follows_recover (hd : Recalls p d) (n : RaftNode σ) : Follows p (n.recover d) := by
  obtain ⟨log, hlog, hf⟩ := hd
  obtain ⟨x, la, ci, j, heq⟩ := recover_fields n hlog hf.base_ne
  rw [heq]
  exact { hf.rebuild (n := { n with
    currentTerm := d.currentTerm, votedFor := d.votedFor, snapshot := d.snapshot, log := log
    basePeers := d.snapshotPeers, baseHTTP := d.snapshotHTTP
    lastApplied := la, commitIndex := ci, machine := x }) with }

/-- **A start.** -/
theorem follows_boot {cfg : Config} (hcfg : cfg.peerAddrs.isEmpty = false)
    {storage : Option Storage} {records : List Past}
    (h : List.Forall₂ Recalls records (savedStates storage)) :
    Follows (pastAtStart cfg records) (RaftNode.boot M cfg storage) := by
  have hnew : Follows (pastAtStart cfg records)
      (RaftNode.newNode cfg storage (some M.snapshotter) M.init) := by
    cases storage with
    | none =>
      obtain rfl : records = [] := List.forall₂_nil_right_iff.mp h
      exact follows_fresh hcfg none _ _
    | some st =>
      have h' : List.Forall₂ Recalls records st.saved := h
      cases hst : st.saved with
      | nil =>
        rw [hst] at h'
        obtain rfl : records = [] := List.forall₂_nil_right_iff.mp h'
        rw [newNode_of_nil hst]
        exact follows_fresh hcfg (some st) _ _
      | cons d rest =>
        rw [hst] at h'
        obtain ⟨p, ps, hd, _, rfl⟩ := List.forall₂_cons_right_iff.mp h'
        have hlog := hd.choose_spec.1
        rw [newNode_eq (by rw [hst]; rfl) hlog]
        exact follows_recover hd _
  obtain ⟨x, la, ci, hx⟩ := RaftNode.boot_eq M cfg storage
  rw [hx]
  exact { hnew with }

/-! ## One step -/

/-- What is in storage after a section: the states of the section, and what was there. -/
theorem savedStates_handle {Q : DurableState → Prop} {ev : Event}
    (h : Saved Q n (handle n ev)) : ∃ new,
      savedStates (handle n ev).storage = new ++ savedStates n.storage ∧ ∀ d ∈ new, Q d := by
  have hsome := isSome_storage_handle n ev
  cases hs' : (handle n ev).storage with
  | none =>
    rw [hs'] at hsome
    rw [Option.isNone_iff_eq_none.mp (Option.isSome_eq_false_iff.mp hsome.symm)]
    exact ⟨[], rfl, fun d hd => absurd hd List.not_mem_nil⟩
  | some s' =>
    obtain ⟨s, new, hs, hsaved, hall⟩ := h s' hs'
    rw [hs]
    exact ⟨new, hsaved, hall⟩

/-- The same after a crash. -/
theorem savedStates_cut (n : RaftNode σ) (ev : Event) (saves : Nat) :
    savedStates (World.cutSaves n.storage (handle n ev).storage saves) =
      (savedStates (handle n ev).storage).drop ((savedStates (handle n ev).storage).length -
        (savedStates n.storage).length - saves) := by
  have hsome := isSome_storage_handle n ev
  cases hs : n.storage with
  | none =>
    rw [hs] at hsome
    rw [Option.isNone_iff_eq_none.mp (Option.isSome_eq_false_iff.mp hsome)]
    exact List.drop_nil.symm
  | some s =>
    rw [hs] at hsome
    obtain ⟨s', hs'⟩ := Option.isSome_iff_exists.mp hsome
    rw [hs']
    rfl

/-- The pasts are recorded in step with the states. -/
theorem Sound.recordsAfter {s : Told σ} (h : s.Sound) {ev : Event} (past : Past)
    (hsaved : Saved (Belongs s.past past s.node) s.node (handle s.node ev)) :
    List.Forall₂ Recalls (s.recordsAfter ev past) (savedStates (handle s.node ev).storage) := by
  obtain ⟨new, hnew, hall⟩ := savedStates_handle hsaved
  have hlen := h.records.length_eq
  have hrecords : s.recordsAfter ev past = new.map (s.past.atSave past s.node) ++ s.records := by
    unfold Told.recordsAfter
    dsimp only
    rw [hnew, List.length_append, hlen, Nat.add_sub_cancel, List.take_left']
    rfl
  rw [hrecords, hnew]
  refine List.rel_append ?_ h.records
  rw [List.forall₂_map_left_iff, List.forall₂_same]
  exact hall

/-- What others send is backed, and no configuration is empty. -/
def Grounded (s : Told σ) (sender : Past) : Life → Prop
  | .event ev => Backed s.past s.node sender ev
  | .restart cfg => cfg.peerAddrs.isEmpty = false
  | .crashDuring ev _ cfg => Backed s.past s.node sender ev ∧ cfg.peerAddrs.isEmpty = false

/-- **One step.** -/
theorem Sound.tell {s : Told σ} (h : s.Sound) {l : Life} (hok : s.Grounded sender l) :
    (s.tell M l sender).Sound := by
  cases l with
  | event ev =>
    obtain ⟨hf, hsaved⟩ := h.follows.handle hok
    exact ⟨hf, h.recordsAfter _ hsaved⟩
  | restart cfg =>
    refine ⟨follows_boot hok h.records, ?_⟩
    show List.Forall₂ Recalls s.records (savedStates (RaftNode.boot M cfg s.node.storage).storage)
    rw [storage_boot]
    exact h.records
  | crashDuring ev saves cfg =>
    have hall := h.recordsAfter _ (h.follows.handle hok.1).2
    have hcut : List.Forall₂ Recalls (s.tell M (.crashDuring ev saves cfg) sender).records
        (savedStates (World.cutSaves s.node.storage (handle s.node ev).storage saves)) := by
      rw [savedStates_cut, ← hall.length_eq, ← h.records.length_eq]
      exact List.forall₂_drop _ hall
    refine ⟨follows_boot hok.2 hcut, ?_⟩
    show List.Forall₂ Recalls _ (savedStates (RaftNode.boot M cfg _).storage)
    rw [storage_boot]
    exact hcut

theorem sound_start {cfg : Config} (hcfg : cfg.peerAddrs.isEmpty = false)
    {storage : Option Storage} (hnil : savedStates storage = []) : (start M cfg storage).Sound := by
  have hnone : List.Forall₂ Recalls [] (savedStates storage) := by
    rw [hnil]
    exact List.Forall₂.nil
  refine ⟨follows_boot hcfg hnone, ?_⟩
  show List.Forall₂ Recalls [] (savedStates (RaftNode.boot M cfg storage).storage)
  rw [storage_boot]
  exact hnone

end Told

end Node
