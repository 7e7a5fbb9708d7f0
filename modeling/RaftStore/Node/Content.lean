import RaftStore.Node.Sections

/-!
# What a node contains

A property `P` of the state machine that the commands in `C` keep, and that reading a snapshot keeps
(`MachineInv`), is also a property of everything that may be turned into a state of the machine:
entries of the log, the snapshot that is held, and whatever has been saved. `Content` collects them,
and `Content.handle` says that no event of a node breaks them if what others send respects them
(`Feeds`).
-/

namespace Node

open Raft Cluster

variable {σ : Type} {M : Machine σ} {C : Bytes → Prop} {P : σ → Prop} {n m n' : RaftNode σ}
  {e : LogEntry}

/-- **A property of the state machine**: it holds at first, the commands in `C` keep it, and so does
the restoring of a snapshot that was taken where it holds. -/
structure MachineInv (M : Machine σ) (C : Bytes → Prop) (P : σ → Prop) : Prop where
  init : P M.init
  noop : C []
  apply : ∀ m i cmd, P m → C cmd → P (M.apply m { index := i, command := cmd })
  restore : ∀ m d m₀ m', P m → M.snapshotter.snapshot m = some d → P m₀ →
    M.snapshotter.restore m₀ d = some m' → P m'

/-- The entry is a change of the membership, or its command is in `C`. -/
def EntryOk (C : Bytes → Prop) (e : LogEntry) : Prop := e.change = none → C e.command

/-- Restoring the snapshot keeps `P`. An empty one is never restored. -/
def DataOk (M : Machine σ) (P : σ → Prop) (data : Bytes) : Prop :=
  data ≠ [] → ∀ m m', P m → M.snapshotter.restore m data = some m' → P m'

structure DurableOk (M : Machine σ) (C : Bytes → Prop) (P : σ → Prop) (d : DurableState) :
    Prop where
  log : ∀ e ∈ d.log, EntryOk C e
  snapshot : DataOk M P d.snapshot

/-- **What a node contains.** -/
structure Content (M : Machine σ) (C : Bytes → Prop) (P : σ → Prop) (n : RaftNode σ) : Prop where
  apply_eq : ∀ f, n.apply = some f → f = M.apply
  snapshotter_eq : n.snapshotter = some M.snapshotter
  log : ∀ e ∈ n.log.toList, EntryOk C e
  snapshot : DataOk M P n.snapshot
  machine : P n.machine
  applies : ∀ x ∈ n.applies, C x.2.command
  saved : ∀ s, n.storage = some s → ∀ d ∈ s.saved, DurableOk M C P d

/-- What others send to a node, and what a client proposes. -/
def Feeds (M : Machine σ) (C : Bytes → Prop) (P : σ → Prop) : Event → Prop
  | .appendEntries req => ∀ e ∈ req.entries, EntryOk C e
  | .installSnapshot req => DataOk M P req.data
  | .propose cmd => C cmd
  | _ => True

/-! ## Updates -/

theorem dataOk_nil : DataOk M P [] := fun h => absurd rfl h

theorem Content.durable (h : Content M C P n) : DurableOk M C P n.durable :=
  ⟨h.log, h.snapshot⟩

/-- Saving adds what the node holds. -/
theorem Content.persist (h : Content M C P n) : Content M C P n.persistLocked := by
  refine { h with saved := fun s hs d hd => ?_ }
  obtain ⟨s₀, hs₀, rfl⟩ := Option.map_eq_some_iff.mp hs
  rcases Storage.mem_saved_save hd with rfl | hold
  · exact h.durable
  · exact h.saved s₀ hs₀ d hold

/-- A new log and a new configuration. -/
theorem Content.setLog (h : Content M C P n) {l : Log} (hl : ∀ e ∈ l.toList, EntryOk C e) :
    Content M C P { n with log := l }.rebuildMembershipLocked.notifyPeersLocked :=
  { h with log := hl }

theorem Content.append (h : Content M C P n) (he : EntryOk C e) :
    ∀ x ∈ (n.log.append [e]).toList, EntryOk C x := by
  intro x hx
  rcases List.mem_cons.mp hx with rfl | hx
  · exact h.log _ List.mem_cons_self
  · rcases List.mem_append.mp hx with hold | hnew
    · exact h.log x (List.mem_cons_of_mem _ hold)
    · rw [List.mem_singleton.mp hnew]
      exact he

theorem mem_of_entryAt {l : Log} {i : Int} (h : l.entryAtLocked i = some e) : e ∈ l.toList := by
  rcases Log.entryAt_cases h with ⟨_, rfl⟩ | ⟨k, _, hk⟩
  · exact List.mem_cons_self
  · exact List.mem_cons_of_mem _ (List.mem_of_getElem? hk)

/-- The next entry is applied. -/
theorem Content.applyNext (hM : MachineInv M C P) (h : Content M C P n) (i : Int)
    (he : EntryOk C e) : Content M C P (n.applyNext i e) := by
  unfold RaftNode.applyNext
  dsimp only
  split
  · next f hf hch =>
    have hcmd := he hch
    rw [h.apply_eq f hf]
    refine { h with machine := hM.apply _ _ _ h.machine hcmd, applies := fun x hx => ?_ }
    rcases List.mem_append.mp hx with hold | hnew
    · exact h.applies x hold
    · rw [List.mem_singleton.mp hnew]
      exact hcmd
  · exact { h with }

/-- The log is compacted. -/
theorem Content.compactTo (hM : MachineInv M C P) (h : Content M C P n) (i : Int) (e : LogEntry)
    {data : Bytes} (hdata : M.snapshotter.snapshot n.machine = some data) :
    Content M C P (n.compactTo i e data) := by
  unfold RaftNode.compactTo
  dsimp only
  refine Content.persist { h with log := fun x hx => ?_, snapshot := fun _ m m' => ?_ }
  · rcases List.mem_cons.mp hx with rfl | hx
    · exact fun _ => hM.noop
    · exact h.log x (List.mem_of_mem_drop hx)
  · exact hM.restore _ data m m' h.machine hdata

/-- **Minor updates.** -/
theorem Content.minor (hM : MachineInv M C P) (hstep : Minor n n') (h : Content M C P n) :
    Content M C P n' := by
  cases hstep with
  | volatile v => exact { h with }
  | ballot term vote _ =>
    exact Content.persist (n := { n with currentTerm := term, votedFor := vote }) { h with }
  | apply e _ he => exact h.applyNext hM _ (h.log e (mem_of_entryAt he))
  | compact e data s _ _ hs hdata =>
    rw [h.snapshotter_eq] at hs
    cases hs
    exact h.compactTo hM _ e hdata

theorem Content.quiet (hM : MachineInv M C P) (hq : Quiet n n') (h : Content M C P n) :
    Content M C P n' :=
  hq.invariant (fun _ _ hstep => Content.minor hM hstep) h

/-- Entries of others are merged. -/
theorem Content.merge (h : Content M C P n) {req : AppendEntriesRequest}
    (hreq : ∀ e ∈ req.entries, EntryOk C e) : Content M C P (n.mergeLocked req) := by
  rcases n.mergeLocked_cases req with heq | heq
  · rw [heq]
    exact h
  · rw [heq]
    refine (h.setLog fun x hx => ?_).persist
    rcases List.mem_cons.mp hx with rfl | hx
    · rw [Log.head_mergeEntries]
      exact h.log _ List.mem_cons_self
    · rcases Log.mem_mergeEntries hx with hold | ⟨y, hy, _, hcmd, hch⟩
      · exact h.log x (List.mem_cons_of_mem _ hold)
      · intro hnone
        rw [hcmd]
        exact hreq y hy (hch.symm.trans hnone)

theorem Content.restored (h : Content M C P n) {data : Bytes} (hdata : DataOk M P data) :
    P (n.restored data) := by
  unfold RaftNode.restored
  rw [h.snapshotter_eq]
  dsimp only
  split
  · exact h.machine
  next hne =>
  cases hres : M.snapshotter.restore n.machine data with
  | none => exact h.machine
  | some m' => exact hdata hne _ _ h.machine hres

/-- A snapshot of others is installed. -/
theorem Content.install (hM : MachineInv M C P) (h : Content M C P n)
    {req : InstallSnapshotRequest} (hreq : DataOk M P req.data) :
    Content M C P (n.installLocked req) := by
  have hmachine := h.restored hreq
  have hlog : ∀ e ∈ (⟨{ term := req.lastIncludedTerm, index := req.lastIncludedIndex }, []⟩ :
      Log).toList, EntryOk C e := by
    intro e he
    rcases List.mem_cons.mp he with rfl | he
    · exact fun _ => hM.noop
    · cases he
  obtain ⟨k, ⟨_, rfl⟩ | ⟨_, rfl⟩, heq⟩ := n.installLocked_eq req
  · rw [heq]
    exact Content.persist { h with log := hlog, snapshot := hreq, machine := hmachine }
  · rw [heq]
    exact Content.persist { h with log := hlog, snapshot := hreq, machine := hmachine }

/-! ## Events -/

/-- An entry that a node appends by itself is a no-op, a change, or what it was asked for. -/
theorem entryOk_of_effect (hM : MachineInv M C P) {ev : Event} (hev : Feeds M C P ev)
    (heff : effect n ev = .append e) : EntryOk C e := by
  have hleads : ∀ m : RaftNode σ, leads n m = .append e → EntryOk C e := by
    intro m hm
    unfold leads at hm
    split at hm
    · cases hm
      exact fun _ => hM.noop
    · cases hm
  have hchanges : ∀ ch r, changes n ch r = .append e → EntryOk C e := by
    intro ch r hc
    unfold changes at hc
    split at hc
    · cases hc
      exact fun hnone => by cases hnone
    · cases hc
  cases ev with
  | tick due => exact hleads _ heff
  | voteReply peer req resp => exact hleads _ heff
  | propose cmd =>
    simp only [effect] at heff
    split at heff
    · cases heff
      exact fun _ => hev
    · cases heff
  | addServer target addr http => exact hchanges _ _ heff
  | removeServer target => exact hchanges _ _ heff
  | appendEntries req =>
    simp only [effect] at heff
    split at heff <;> cases heff
  | installSnapshot req =>
    simp only [effect] at heff
    split at heff <;> cases heff
  | _ => cases heff

/-- **No event breaks the contents of a node.** -/
theorem Content.handle (hM : MachineInv M C P) (h : Content M C P n) {ev : Event}
    (hev : Feeds M C P ev) : Content M C P (Cluster.handle n ev) := by
  have hsec := handle_section n ev
  generalize heff : effect n ev = o at hsec
  cases hsec with
  | none hq => exact h.quiet hM hq
  | append hm hlog _ _ _ hq =>
    have hm' := h.quiet hM hm
    exact Content.quiet hM hq
      (Content.persist { hm' with log := hm'.append (entryOk_of_effect hM hev heff) })
  | change hc hq =>
    exact Content.quiet hM hq (h.setLog (h.append (entryOk_of_effect hM hev heff))).persist
  | merge hm hlog hla hprev hq =>
    rw [eq_of_effect_merge heff] at hev
    exact Content.quiet hM hq ((h.quiet hM hm).merge hev)
  | install hm hlog hidx hq =>
    rw [eq_of_effect_install heff] at hev
    exact Content.quiet hM hq ((h.quiet hM hm).install hM hev)

/-! ## Starting -/

theorem Content.restoreSnapshot (h : Content M C P n) : Content M C P n.restoreSnapshotLocked := by
  unfold RaftNode.restoreSnapshotLocked
  split
  · exact h
  next s hs =>
  rw [h.snapshotter_eq] at hs
  cases hs
  split
  · exact h
  next hne =>
  split
  · exact h
  · next m' hres => exact { h with machine := h.snapshot hne _ _ h.machine hres }

/-- What is loaded is in order. -/
theorem Content.load (h : Content M C P n) {d : DurableState} (hd : DurableOk M C P d) :
    Content M C P (n.load d) := by
  have hents := hd.log
  unfold RaftNode.load
  dsimp only
  cases hlog : d.log with
  | nil =>
    split
    · exact { h with snapshot := hd.snapshot }
    · exact { h with snapshot := hd.snapshot }
  | cons head tail =>
    rw [hlog] at hents
    split
    · exact { h with log := hents, snapshot := hd.snapshot }
    · exact { h with log := hents, snapshot := hd.snapshot }

theorem Content.recover (h : Content M C P n) {d : DurableState} (hd : DurableOk M C P d) :
    Content M C P (n.recover d) :=
  RaftNode.recover_rule (h.load hd) (fun _ hm => { hm with }) (fun _ hm => hm.restoreSnapshot)
    (fun _ hm => { hm with }) (fun _ _ hm => { hm with })

/-- **A node that is started** on storage that is in order. -/
theorem content_boot (hM : MachineInv M C P) (cfg : Config) {storage : Option Storage}
    (hst : ∀ s, storage = some s → ∀ d ∈ s.saved, DurableOk M C P d) :
    Content M C P (RaftNode.boot M cfg storage) := by
  have hfresh : Content M C P (RaftNode.fresh cfg storage (some M.snapshotter) M.init) := by
    refine ⟨fun f hf => (by cases hf), rfl, fun e he => ?_, dataOk_nil, hM.init,
      fun x hx => (by cases hx), hst⟩
    rcases List.mem_cons.mp he with rfl | he
    · exact fun _ => hM.noop
    · cases he
  have hnew : Content M C P (RaftNode.newNode cfg storage (some M.snapshotter) M.init) := by
    unfold RaftNode.newNode
    dsimp only
    split
    · exact hfresh
    next s =>
    split
    · refine hfresh.recover ?_
      unfold Storage.load
      cases hs : s.saved with
      | nil => exact ⟨fun e he => (by cases he), dataOk_nil⟩
      | cons d rest => exact hst s rfl d (by rw [hs]; exact List.mem_cons_self)
    · exact hfresh
  have happly : Content M C P { RaftNode.newNode cfg storage (some M.snapshotter) M.init with
      apply := some M.apply } := { hnew with apply_eq := fun f hf => (Option.some.inj hf).symm }
  exact { happly.restoreSnapshot with }

end Node
