import RaftStore.Node.Replay
import RaftStore.Results.Reads
import RaftStore.Results.Dialing

/-!
# The store is a replay

The key-value store holds what its snapshot holds, with the puts of the log from there to
`lastApplied` on top (`store_is_replay`). This is `Node.Replayed` for the callbacks of the
key-value server; what is assumed of `encoding/json` is `Json.Lawful`.
-/

namespace Kv

open Raft

variable {J : Json} {text : Bytes → Prop}

/-! ## Puts -/

/-- The put that an entry stands for: a membership change, a no-op, an undecodable command and an
unknown operation stand for none. -/
def putOf (J : Json) (e : LogEntry) : Option (Bytes × Bytes) :=
  if e.change.isSome ∨ e.command = [] then none
  else
    (J.unmarshalCommand e.command).bind (fun cmd =>
      if cmd.op = opPut then some (cmd.key, cmd.value) else none)

/-- The puts of some entries, in order. -/
def putAll (J : Json) (s : Store) (es : List LogEntry) : Store :=
  (es.filterMap (putOf J)).foldl (fun s p => s.set p.1 p.2) s

/-- One entry as the store sees it: a put, or nothing. -/
theorem applied_eq (s : Store) (e : LogEntry) :
    Node.applied (machine J) s e = putAll J s [e] := by
  cases hch : e.change with
  | some ch => simp [Node.applied, putAll, putOf, hch]
  | none =>
    have happly : Node.applied (machine J) s e = onApply J s ⟨e.index, e.command⟩ := by
      unfold Node.applied
      rw [hch]
      rfl
    rw [happly]
    -- a command without text, one that cannot be read, and one that can
    by_cases hnil : e.command = []
    · simp [onApply, putAll, putOf, hnil]
    cases hcmd : J.unmarshalCommand e.command with
    | none => simp [onApply, putAll, putOf, hch, hnil, hcmd]
    | some cmd =>
      by_cases hop : cmd.op = opPut <;> simp [onApply, putAll, putOf, hch, hnil, hcmd, hop]

/-- The apply callback replays the puts. -/
theorem foldl_applied (s : Store) (es : List LogEntry) :
    es.foldl (Node.applied (machine J)) s = putAll J s es := by
  induction es generalizing s with
  | nil => rfl
  | cons e rest ih =>
    rw [List.foldl_cons, ih, applied_eq]
    unfold putAll
    rw [← List.foldl_append, ← List.filterMap_append]
    rfl

/-! ## Encoding -/

/-- All keys and values of a store are of the kind `text`. -/
def Textual (text : Bytes → Prop) (s : Store) : Prop :=
  ∀ k v, s.get? k = some v → text k ∧ text v

/-- What `encoding/json` guarantees. It decodes to strings of a certain kind only (valid UTF-8;
other bytes are replaced), and a map of such strings is encoded as a text that decodes to it. -/
structure Json.Lawful (J : Json) (text : Bytes → Prop) : Prop where
  command : ∀ data cmd, J.unmarshalCommand data = some cmd → text cmd.key ∧ text cmd.value
  map : ∀ data s, J.unmarshalMap data = some s → Textual text s
  roundTrip : ∀ s data, Textual text s → J.marshalMap s = some data →
    data ≠ [] ∧ J.unmarshalMap data = some s

theorem textual_empty : Textual text .empty := by
  intro k v h
  cases h

/-- Entering texts keeps a store of texts. -/
theorem Textual.set {s : Store} (h : Textual text s) {k v : Bytes} (hk : text k) (hv : text v) :
    Textual text (s.set k v) := by
  intro k' v' hget
  rw [OrdMap.get?_set] at hget
  split at hget
  · next heq =>
    cases hget
    exact ⟨heq ▸ hk, hv⟩
  · exact h k' v' hget

/-- Applying a command keeps a store of texts: what JSON decodes is text. -/
theorem Textual.onApply (hJ : J.Lawful text) {s : Store} (h : Textual text s) (msg : ApplyMsg) :
    Textual text (onApply J s msg) := by
  unfold Kv.onApply
  split
  · exact h
  split
  · exact h
  · next cmd hcmd =>
    split
    · exact h.set (hJ.command _ _ hcmd).1 (hJ.command _ _ hcmd).2
    · exact h

/-- The key-value store is a machine whose snapshots restore it. -/
theorem restoring_machine (hJ : J.Lawful text) : Node.Restoring (machine J) (Textual text) where
  init := textual_empty
  apply := fun _ msg h => h.onApply hJ msg
  -- an empty image is the empty store
  restore := by
    intro _ s data hs
    have hs' : restore J .empty data = some s := hs
    unfold restore at hs'
    split at hs'
    · cases hs'
      exact textual_empty
    · exact hJ.map _ _ hs'
  anywhere := fun _ _ _ => rfl
  snapshot := by
    intro s data hs hdata
    obtain ⟨hne, hback⟩ := hJ.roundTrip s data hs hdata
    exact ⟨hne, (if_neg hne).trans hback⟩

end Kv

namespace Node

open Raft Cluster Kv

variable {J : Json} {text : Bytes → Prop} {n : RaftNode Store} {cfg : Config} {ls : List Life}

/-- **The store is a replay** of the log on top of the snapshot. -/
theorem store_is_replay (hJ : J.Lawful text) {storage : Option Storage}
    (hnil : ∀ st, storage = some st → st.saved = [])
    (hrun : Lives (machine J) (GentleLife (machine J))
      (RaftNode.boot (machine J) cfg storage) ls n) :
    ∃ s, restore J .empty n.snapshot = some s ∧
      n.machine = putAll J s (n.log.tail.filter (fun e =>
        n.log.lastIncludedIndexLocked < e.index ∧ e.index ≤ n.lastApplied)) := by
  -- a node that has saved nothing starts empty
  have hfit : AllSaved (Fits (machine J)) storage := by
    intro st hst d hd
    rw [hnil st hst] at hd
    cases hd
  have h := (ordered_of_lives (restoring_machine hJ) hfit hrun).replayed
  obtain ⟨s, hs⟩ := h.recorded.restorable
  refine ⟨s, ?_, ?_⟩
  -- the two ways to look at the image are the same
  · unfold baseState at hs
    unfold restore
    split at hs
    · next hempty =>
      rw [if_pos hempty]
      exact hs
    · next hne =>
      rw [if_neg hne]
      exact (if_neg hne).symm.trans hs
  -- the rest was applied since
  · rw [h.machine_eq s hs, foldl_applied, ← h.recorded.contiguous.filter_eq]
    rfl

/-! A node that is alone commits a put, takes a snapshot of it, and is started again. -/

/-- It takes a snapshot after two entries. -/
def storing : Config := { soleConfig with snapshotThreshold := 2 }

/-- An election, a put, a restart and another election. -/
def putThenRestart : List Life :=
  [.event (.tick true), .event (.propose putText), .restart storing, .event (.tick true)]

/-- The node after that. -/
def restartedStore : RaftNode Store :=
  putThenRestart.foldl (live (machine sampleJson))
    (RaftNode.boot (machine sampleJson) storing (some {}))

/-- The codec of the example is lawful. -/
theorem sampleJson_law : sampleJson.Lawful (fun _ => True) where
  command := fun _ _ _ => ⟨trivial, trivial⟩
  map := fun _ _ _ _ _ _ => ⟨trivial, trivial⟩
  roundTrip := by
    intro s data _ hdata
    rcases sampleJson_text hdata with ⟨rfl, rfl⟩ | ⟨rfl, rfl⟩
    · exact ⟨by decide, rfl⟩
    · exact ⟨by decide, rfl⟩

theorem store_is_replay_sample :
    restartedStore.log.lastIncludedIndexLocked = 2 ∧ restartedStore.lastApplied = 3 ∧
      restartedStore.machine = oneStore ∧
      ∃ s, restore sampleJson .empty restartedStore.snapshot = some s ∧
        restartedStore.machine = putAll sampleJson s (restartedStore.log.tail.filter (fun e =>
          restartedStore.log.lastIncludedIndexLocked < e.index ∧
            e.index ≤ restartedStore.lastApplied)) := by
  have hrun : Lives (machine sampleJson) (GentleLife (machine sampleJson))
      (RaftNode.boot (machine sampleJson) storing (some {})) putThenRestart restartedStore :=
    StepPath.cons trivial rfl (StepPath.cons trivial rfl (StepPath.cons trivial rfl
      (StepPath.cons trivial rfl (StepPath.nil _))))
  refine ⟨by decide +kernel, by decide +kernel, by decide +kernel,
    store_is_replay sampleJson_law (fun st hst => ?_) hrun⟩
  cases hst
  rfl

end Node
