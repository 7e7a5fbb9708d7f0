import RaftStore.Lib.Path
import RaftStore.Node.Sections
import RaftStore.Cluster.World

/-!
# The life of a node

A node runs critical sections, and its process crashes and is started again on the same storage,
after a section or in the middle of one. `Lives M ok` is a run of such steps.

* `Kept` is what an invariant has to satisfy; `Kept.handle` then carries it through every event.
* `Saved Q n m` says that every state that was saved on the way from `n` to `m` satisfies `Q`. It
  follows from an invariant that implies `Q` (`Kept.saved`), since a node saves what it holds.
-/

namespace Node

open Raft Cluster

variable {σ : Type} {n m m' : RaftNode σ} {P : RaftNode σ → Prop} {Q : DurableState → Prop}

/-! ## Invariants of the sections -/

/-- A property that a node keeps whatever it does on its own. -/
structure Kept (P : RaftNode σ → Prop) : Prop where
  minor : ∀ {m m' : RaftNode σ}, Minor m m' → P m → P m'
  append : ∀ {m : RaftNode σ} {e : LogEntry}, e.change = none →
    e.index = m.log.lastLogIndexLocked + 1 → P m →
    P { m with log := m.log.append [e] }.persistLocked
  change : ∀ {m : RaftNode σ} {ch : MembershipChange} {c : AddrMap × AddrMap},
    m.changedPeers ch = .ok c → P m →
    P { m with
      log := m.log.append
        [changeEntry m ch c] }.rebuildMembershipLocked.notifyPeersLocked.persistLocked

/-- The property survives the entries of a request. -/
def Merges (P : RaftNode σ → Prop) (n : RaftNode σ) (req : AppendEntriesRequest) : Prop :=
  ∀ m : RaftNode σ, m.log = n.log → m.lastApplied = n.lastApplied → n.PrevMatches req → P m →
    P (m.mergeLocked req)

/-- The property survives a snapshot. -/
def Installs (P : RaftNode σ → Prop) (n : RaftNode σ) (req : InstallSnapshotRequest) : Prop :=
  ∀ m : RaftNode σ, m.log = n.log → n.log.lastIncludedIndexLocked < req.lastIncludedIndex →
    P m → P (m.installLocked req)

/-- The property survives what others send. -/
def Accepts (P : RaftNode σ → Prop) (n : RaftNode σ) : Event → Prop
  | .appendEntries req => Merges P n req
  | .installSnapshot req => Installs P n req
  | _ => True

theorem Kept.quiet (hP : Kept P) (h : Quiet n m) (hn : P n) : P m :=
  h.invariant (fun _ _ hstep => hP.minor hstep) hn

/-- **The rule for sections.** -/
theorem Kept.handle (hP : Kept P) {ev : Event} (hacc : Accepts P n ev) (hn : P n) :
    P (handle n ev) := by
  have hsec := handle_section n ev
  generalize heff : effect n ev = o at hsec
  cases hsec with
  | none h => exact hP.quiet h hn
  | append hm hlog hterm hidx hch hquiet =>
    refine hP.quiet hquiet (hP.append hch ?_ (hP.quiet hm hn))
    rw [hlog]
    exact hidx
  | change hc hquiet => exact hP.quiet hquiet (hP.change hc hn)
  | merge hm hlog hla hprev hquiet =>
    rw [eq_of_effect_merge heff] at hacc
    exact hP.quiet hquiet (hacc _ hlog hla hprev (hP.quiet hm hn))
  | install hm hlog hidx hquiet =>
    rw [eq_of_effect_install heff] at hacc
    exact hP.quiet hquiet (hacc _ hlog hidx (hP.quiet hm hn))

/-! ## What is saved on the way -/

/-- Every state saved between `n` and `m` satisfies `Q`. -/
def Saved (Q : DurableState → Prop) (n m : RaftNode σ) : Prop :=
  ∀ s', m.storage = some s' → ∃ s new, n.storage = some s ∧ s'.saved = new ++ s.saved ∧
    ∀ d ∈ new, Q d

/-- An update saves the state it leads to, unless it leaves the durable state alone. -/
def Stores (m m' : RaftNode σ) : Prop :=
  m'.storage = m.storage ∧ m'.durable = m.durable ∨
    m'.storage = m.storage.map (·.save m'.durable)

theorem Saved.refl (Q : DurableState → Prop) (n : RaftNode σ) : Saved Q n n :=
  fun s hs => ⟨s, [], hs, rfl, fun _ hd => absurd hd List.not_mem_nil⟩

theorem exists_saved_save (s : Storage) (d : DurableState) :
    ∃ new, (s.save d).saved = new ++ s.saved ∧ ∀ x ∈ new, x = d := by
  unfold Storage.save
  split
  · exact ⟨[d], rfl, fun x hx => List.mem_singleton.mp hx⟩
  · exact ⟨[d], rfl, fun x hx => List.mem_singleton.mp hx⟩
  · exact ⟨[], rfl, fun x hx => absurd hx List.not_mem_nil⟩

theorem Saved.step (h : Saved Q n m) (hst : Stores m m') (hQ : Q m'.durable) : Saved Q n m' := by
  intro s' hs'
  rcases hst with ⟨hsame, _⟩ | hsave
  · exact h s' (hsame.symm.trans hs')
  · obtain ⟨t, ht, rfl⟩ := Option.map_eq_some_iff.mp (hsave.symm.trans hs')
    obtain ⟨s, new, hs, hsaved, hall⟩ := h t ht
    obtain ⟨more, hmore, hd⟩ := exists_saved_save t m'.durable
    refine ⟨s, more ++ new, hs, ?_, ?_⟩
    · rw [hmore, hsaved, List.append_assoc]
    · intro d hmem
      rcases List.mem_append.mp hmem with hnew | hold
      · rw [hd d hnew]
        exact hQ
      · exact hall d hold

theorem Minor.stores (h : Minor m m') : Stores m m' := by
  cases h with
  | volatile v => exact Or.inl ⟨rfl, rfl⟩
  | ballot term vote _ => exact Or.inr rfl
  | apply e _ _ =>
    left
    obtain ⟨_, _, heq⟩ := m.applyNext_eq (m.lastApplied + 1) e
    rw [heq]
    exact ⟨rfl, rfl⟩
  | compact e data s _ _ _ _ => exact Or.inr rfl

theorem stores_mergeLocked (m : RaftNode σ) (req : AppendEntriesRequest) :
    Stores m (m.mergeLocked req) := by
  rcases m.mergeLocked_cases req with hsame | hmerged
  · rw [hsame]
    exact Or.inl ⟨rfl, rfl⟩
  · rw [hmerged]
    exact Or.inr rfl

theorem stores_installLocked (m : RaftNode σ) (req : InstallSnapshotRequest) :
    Stores m (m.installLocked req) := by
  right
  obtain ⟨k, ⟨_, rfl⟩ | ⟨_, rfl⟩, heq⟩ := m.installLocked_eq req
  · rw [heq]
    rfl
  · rw [heq]
    rfl

/-- An invariant that implies `Q` of the durable state says so of everything that is saved. -/
theorem Kept.saves (hP : Kept P) (hQ : ∀ m, P m → Q m.durable) (n : RaftNode σ) :
    Kept (fun m => P m ∧ Saved Q n m) where
  minor := fun hstep h =>
    have hP' := hP.minor hstep h.1
    ⟨hP', h.2.step hstep.stores (hQ _ hP')⟩
  append := fun hch hidx h =>
    have hP' := hP.append hch hidx h.1
    ⟨hP', h.2.step (Or.inr rfl) (hQ _ hP')⟩
  change := fun hc h =>
    have hP' := hP.change hc h.1
    ⟨hP', h.2.step (Or.inr rfl) (hQ _ hP')⟩

theorem Accepts.saves {ev : Event} (hacc : Accepts P n ev) (hQ : ∀ m, P m → Q m.durable) :
    Accepts (fun m => P m ∧ Saved Q n m) n ev := by
  cases ev with
  | appendEntries req =>
    intro m hlog hla hprev h
    have hP' := hacc m hlog hla hprev h.1
    exact ⟨hP', h.2.step (stores_mergeLocked m req) (hQ _ hP')⟩
  | installSnapshot req =>
    intro m hlog hidx h
    have hP' := hacc m hlog hidx h.1
    exact ⟨hP', h.2.step (stores_installLocked m req) (hQ _ hP')⟩
  | _ => trivial

/-- **What a section saves** satisfies whatever an invariant says of the durable state. -/
theorem Kept.saved (hP : Kept P) (hQ : ∀ m, P m → Q m.durable) {ev : Event}
    (hacc : Accepts P n ev) (hn : P n) : Saved Q n (Cluster.handle n ev) :=
  ((hP.saves hQ n).handle (hacc.saves hQ) ⟨hn, Saved.refl Q n⟩).2

theorem Saved.trans {k : RaftNode σ} (h : Saved Q n m) (h' : Saved Q m k) : Saved Q n k := by
  intro s'' hs''
  obtain ⟨s', new', hs', hsaved', hall'⟩ := h' s'' hs''
  obtain ⟨s, new, hs, hsaved, hall⟩ := h s' hs'
  refine ⟨s, new' ++ new, hs, ?_, ?_⟩
  · rw [hsaved', hsaved, List.append_assoc]
  · intro d hd
    rcases List.mem_append.mp hd with hd | hd
    · exact hall' d hd
    · exact hall d hd

/-- What minor updates save. -/
theorem Quiet.saved (hP : ∀ m m', Minor m m' → P m → P m') (hQ : ∀ m, P m → Q m.durable)
    (h : Quiet n m) (hn : P n) : P m ∧ Saved Q n m :=
  h.invariant (P := fun k => P k ∧ Saved Q n k)
    (fun k k' hstep hk =>
      have hP' := hP k k' hstep hk.1
      ⟨hP', hk.2.step hstep.stores (hQ k' hP')⟩) ⟨hn, Saved.refl Q n⟩

/-- A minor update leaves the log alone, or compacts it. -/
theorem Minor.log_cases (h : Minor m m') :
    m'.log = m.log ∨ m.log.head.index < m'.log.head.index := by
  cases h with
  | volatile v => exact Or.inl rfl
  | ballot term vote _ => exact Or.inl rfl
  | apply e _ _ =>
    obtain ⟨_, _, heq⟩ := m.applyNext_eq (m.lastApplied + 1) e
    rw [heq]
    exact Or.inl rfl
  | compact e data s hidx _ _ _ => exact Or.inr hidx

theorem Minor.base_le (h : Minor m m') : m.log.head.index ≤ m'.log.head.index := by
  rcases h.log_cases with hsame | hlt
  · rw [hsame]
  · exact hlt.le

/-- Minor updates that end with the log they began with have had it all the time. -/
theorem Quiet.saved_of_log_eq (hP : ∀ m m', Minor m m' → P m → P m')
    (hQ : ∀ m, P m → m.log = n.log → Q m.durable) (h : Quiet n m) (hlog : m.log = n.log)
    (hn : P n) : P m ∧ Saved Q n m := by
  obtain ⟨hPm, ⟨_, hsaved⟩ | hlt⟩ := h.invariant
    (P := fun k => P k ∧ (k.log = n.log ∧ Saved Q n k ∨ n.log.head.index < k.log.head.index))
    (fun k k' hstep hk => by
      refine ⟨hP k k' hstep hk.1, ?_⟩
      rcases hk.2 with ⟨hklog, hsaved⟩ | hlt
      · rcases hstep.log_cases with hsame | hlt
        · have hk' := hsame.trans hklog
          exact Or.inl ⟨hk', hsaved.step hstep.stores (hQ k' (hP k k' hstep hk.1) hk')⟩
        · rw [hklog] at hlt
          exact Or.inr hlt
      · exact Or.inr (hlt.trans_le hstep.base_le))
    ⟨hn, Or.inl ⟨Eq.refl _, Saved.refl Q n⟩⟩
  · exact ⟨hPm, hsaved⟩
  · rw [hlog] at hlt
    exact absurd hlt (lt_irrefl _)

/-! ## Crashes and restarts -/

/-- A step in the life of a node. -/
inductive Life
  | event (ev : Event)
  | restart (cfg : Config)
  | crashDuring (ev : Event) (saves : Nat) (cfg : Config)

/-- `restart` crashes the process and starts it again; `crashDuring` lets it crash in the section
of an event, when it has reached `saves` of its saves. -/
def live (M : Machine σ) (n : RaftNode σ) : Life → RaftNode σ
  | .event ev => handle n ev
  | .restart cfg => RaftNode.boot M cfg n.storage
  | .crashDuring ev saves cfg =>
    RaftNode.boot M cfg (World.cutSaves n.storage (handle n ev).storage saves)

/-- A run of one node. -/
abbrev Lives (M : Machine σ) (ok : RaftNode σ → Life → Prop) :
    RaftNode σ → List Life → RaftNode σ → Prop :=
  StepPath (fun n l => some (live M n l)) ok

/-- **The invariant rule for the life of a node.** -/
theorem Lives.invariant {M : Machine σ} {ok : RaftNode σ → Life → Prop} {ls : List Life}
    (hpres : ∀ n l, P n → ok n l → P (live M n l)) (hrun : Lives M ok n ls m) (hn : P n) : P m :=
  StepPath.invariant (fun _ _ _ hP hok hstep => Option.some.inj hstep ▸ hpres _ _ hP hok) hrun hn

/-- What is left in storage by a crash within a section. -/
theorem Saved.cut (h : Saved Q n m) {s' : Storage} (hs' : m.storage = some s') (saves : Nat) :
    ∃ s new, n.storage = some s ∧
      World.cutSaves n.storage m.storage saves = some { s' with saved := new ++ s.saved } ∧
      ∀ d ∈ new, Q d := by
  obtain ⟨s, new, hs, hsaved, hall⟩ := h s' hs'
  refine ⟨s, new.drop (s'.saved.length - s.saved.length - saves), hs, ?_,
    fun d hd => hall d (List.mem_of_mem_drop hd)⟩
  rw [hs, hs']
  unfold World.cutSaves
  dsimp only
  rw [hsaved, List.length_append, List.drop_append_of_le_length (by omega)]

/-! ## Storage as a whole -/

theorem Stores.isSome (h : Stores m m') : m'.storage.isSome = m.storage.isSome := by
  rcases h with ⟨hsame, _⟩ | hsave
  · rw [hsame]
  · rw [hsave, Option.isSome_map]

/-- A node never loses its storage. -/
theorem isSome_storage_handle (n : RaftNode σ) (ev : Event) :
    (handle n ev).storage.isSome = n.storage.isSome := by
  have hkept : Kept (fun m : RaftNode σ => m.storage.isSome = n.storage.isSome) :=
    { minor := fun hstep h => hstep.stores.isSome.trans h
      append := fun {m e} _ _ h => Eq.trans (Stores.isSome (Or.inr rfl)) h
      change := fun {m ch c} _ h => Eq.trans (Stores.isSome (Or.inr rfl)) h }
  refine hkept.handle ?_ rfl
  cases ev with
  | appendEntries req => exact fun m _ _ _ h => (stores_mergeLocked m req).isSome.trans h
  | installSnapshot req => exact fun m _ _ h => (stores_installLocked m req).isSome.trans h
  | _ => trivial

/-- Every state in storage satisfies `Q`. -/
def AllSaved (Q : DurableState → Prop) (storage : Option Storage) : Prop :=
  ∀ st, storage = some st → ∀ d ∈ st.saved, Q d

theorem Saved.all (h : Saved Q n m) (hn : AllSaved Q n.storage) : AllSaved Q m.storage := by
  intro s' hs' d hd
  obtain ⟨s, new, hs, hsaved, hall⟩ := h s' hs'
  rw [hsaved] at hd
  rcases List.mem_append.mp hd with hd | hd
  · exact hall d hd
  · exact hn s hs d hd

/-- The same after a crash within the section. -/
theorem Saved.all_cut (h : Saved Q n m) (hn : AllSaved Q n.storage) (saves : Nat) :
    AllSaved Q (World.cutSaves n.storage m.storage saves) := by
  cases hs' : m.storage with
  | none =>
    intro t ht
    unfold World.cutSaves at ht
    split at ht
    · next hnone => cases hnone
    · cases ht
  | some s' =>
    obtain ⟨s, new, hs, hcut, hall⟩ := h.cut hs' saves
    rw [hs'] at hcut
    rw [hcut]
    intro t ht d hd
    cases ht
    rcases List.mem_append.mp hd with hd | hd
    · exact hall d hd
    · exact hn s hs d hd

end Node
