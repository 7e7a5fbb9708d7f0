import RaftStore.Cluster.Content
import RaftStore.Results.Encoding
import RaftStore.Results.Routing

/-!
# Where the contents of a store come from

A cluster makes up nothing: every value in the store of every node, and every value that a `Get` has
returned, is the body of a `PUT` request that a client has sent (`stored_was_sent`). This needs none
of the precautions that the other results need. It holds across lost, delayed and repeated messages,
changes of the membership, crashes in the middle of a section, snapshots and restarts.

The key is that of the request, or what the leader reads instead of it when the request is forwarded
(`Reaches`). The two differ for keys that are not plain only (`Reaches.eq_of_plain`).
-/

namespace Cluster

open Raft Node Kv

/-! ## Requests -/

section Requests

variable {σ : Type} {S : Setup σ} {w w' : World σ} {act : Action} {acts : List Action}
  {p p' : PutOp}

/-- The forward of a `PUT` for `key` reaches the leader as one for `key'`. -/
def Forwards (S : Setup σ) (key key' : Bytes) : Prop :=
  Http.forwardedKey S.httpRedirect .put key = some (some (.put, key'))

/-- A `PUT` for `key` is handled as one for `key'`: by the node it is sent to, or by the leader that
the node forwards it to. -/
def Reaches (S : Setup σ) (key key' : Bytes) : Prop := key' = key ∨ Forwards S key key'

theorem Reaches.eq_of_plain {key key' : Bytes} (h : Reaches S key key') (hkey : Http.PlainKey key) :
    key' = key := by
  rcases h with h | h
  · exact h
  unfold Forwards at h
  by_cases hne : key = []
  · -- no handler runs for the path `/kv/`
    have hnone : ∀ c, Http.forwardedKey c .put [] = some none := by
      intro c
      cases c <;> decide +kernel
    rw [hne, hnone] at h
    cases h
  · rw [Http.forwardedKey_of_plain hkey hne] at h
    cases h
    rfl

/-- A request of a client among the actions, as it arrived or as it was forwarded. -/
def Came (S : Setup σ) (acts : List Action) (p : PutOp) : Prop :=
  ∃ id key body, Action.startPut id key body ∈ acts ∧ p.value = Http.readBody body ∧
    (p.origin = none ∧ p.key = key ∨ p.origin ≠ none ∧ Forwards S key p.key)

/-- A request keeps its key and its value. -/
theorem Came.move (h : Came S acts p) (hmove : PutMove S w p p') : Came S acts p' := by
  cases hmove <;> exact h

/-- A request that no other one stands behind has just been sent by a client. -/
theorem exists_startPut (h : step S w act = some w') (hp' : w'.puts[w.puts.length]? = some p')
    (hown : p'.origin = none) : ∃ id key body, act = .startPut id key body ∧
      p' = { node := id, key := key, value := Http.readBody body } := by
  -- there is one request more, and most steps add none
  have hmore := (List.getElem?_eq_some_iff.mp hp').1
  have hnone : ∀ {v : World σ}, w.puts.length < v.puts.length → v.puts.length = w.puts.length →
      False := fun hlt heq => by omega
  have hcrash : ∀ (inner : Action) (id : String) (storage : Option Storage),
      ((consume w inner).crashed id storage).puts.length = w.puts.length := by
    intro inner id storage
    obtain ⟨calls, hcons⟩ := consume_eq w inner
    rw [hcons]
    exact List.length_map _
  cases stepped_of_step h with
  | go => exact (hnone hmore (by rw [puts_runGoroutine]; rfl)).elim
  | deliver => exact (hnone hmore (by rw [puts_deliverCall])).elim
  | reply _ _ _ hreply => exact (hnone hmore (by rw [puts_replyCall hreply])).elim
  | giveUp => exact (hnone hmore (by rw [puts_giveUpCall])).elim
  | stepGet _ _ hrun => exact (hnone hmore (by rw [puts_runGet hrun])).elim
  | beat _ _ hrun => exact (hnone hmore (by rw [puts_runBeat hrun])).elim
  | @startPut id key body =>
    rw [List.getElem?_append_right le_rfl] at hp'
    exact ⟨id, key, body, rfl, (getElem?_singleton_eq_some hp').2⟩
  | @stepPut k p _ hk _ hrun =>
    cases putSection_of_runPut hrun with
    | @forwards _ _ dst key =>
      -- a forwarded request names the one it is for
      have hlen : (w.puts.set k { p with phase := .forwarded }).length = w.puts.length :=
        List.length_set
      have hlast : (w.puts.set k { p with phase := .forwarded } ++
          [{ node := dst, key := key, value := p.value, origin := some k }])[w.puts.length]? =
            some p' := hp'
      rw [← hlen, List.getElem?_append_right le_rfl] at hlast
      rw [(getElem?_singleton_eq_some hlast).2] at hown
      cases hown
    | waits => exact (hnone hmore rfl).elim
    | _ => exact (hnone hmore List.length_set).elim
  | abortPut => exact (hnone hmore List.length_set).elim
  | @crash id => exact (hnone hmore (hcrash (.crash id) id _)).elim
  | @crashDuring inner => exact (hnone hmore (hcrash inner _ _)).elim
  | _ => exact (hnone hmore rfl).elim

/-- Only a request that comes straight from a client is forwarded. -/
theorem origin_of_forwardTarget {n : RaftNode σ} {http dst : String}
    (h : World.forwardTarget S n p http = some dst) : p.origin = none := by
  unfold World.forwardTarget at h
  split at h
  · cases h
  split at h
  · cases h
  · next hown => exact Option.not_isSome_iff_eq_none.mp hown

/-- **Requests come from clients.** -/
theorem came_step (hcame : ∀ p ∈ w.puts, Came S acts p) (hact : act ∈ acts)
    (h : step S w act = some w') : ∀ p ∈ w'.puts, Came S acts p := by
  intro p' hp'
  obtain ⟨k, hk⟩ := List.getElem?_of_mem hp'
  rcases (puts_step h).cases hk with ⟨p, hp, hmove⟩ | ⟨rfl, hnew⟩
  -- an old request keeps key and value
  · exact (hcame p (List.mem_of_getElem? hp)).move hmove
  cases hnew with
  -- a request of a client is the action itself
  | request node key value =>
    obtain ⟨id, key', body, rfl, heq⟩ := exists_startPut h hk rfl
    cases heq
    exact ⟨_, _, body, hact, rfl, Or.inl ⟨rfl, rfl⟩⟩
  | @forward _ p _ _ dst key _ hj _ htarget hkey =>
    have hown := origin_of_forwardTarget htarget
    -- only a request of a client is forwarded
    obtain ⟨id, key₀, body, hmem, hval, ⟨_, rfl⟩ | ⟨hne, _⟩⟩ := hcame p (List.mem_of_getElem? hj)
    · exact ⟨id, p.key, body, hmem, hval, Or.inr ⟨nofun, hkey⟩⟩
    · exact absurd hown hne

end Requests

/-! ## Stores -/

variable {J : Json} {text : Bytes → Prop} {S : Setup Store} {w : World Store} {acts : List Action}
  {key value : Bytes}

/-- Commands reach Raft through the handlers of the key-value server only. -/
def ThroughServer : Action → Prop
  | .propose _ _ => False
  | .crashDuring act _ => ThroughServer act
  | _ => True

/-- A client has sent the value, in a request that reaches the key. Both are as the encoding of
commands leaves them, and the value is what the handler reads of the body. -/
def Sent (S : Setup Store) (acts : List Action) (key value : Bytes) : Prop :=
  ∃ id sent body read, Action.startPut id sent body ∈ acts ∧ Reaches S sent read ∧
    key = Utf8.toValid read ∧ value = Utf8.toValid (Http.readBody body)

theorem Came.sent {p : PutOp} (h : Came S acts p) :
    Sent S acts (Utf8.toValid p.key) (Utf8.toValid p.value) := by
  obtain ⟨id, key, body, hmem, hvalue, ⟨_, hkey⟩ | ⟨_, hkey⟩⟩ := h
  · exact ⟨id, key, body, p.key, hmem, Or.inl hkey, rfl, by rw [hvalue]⟩
  · exact ⟨id, key, body, p.key, hmem, Or.inr hkey, rfl, by rw [hvalue]⟩

/-- The commands of the requests that clients have sent, and the no-op of a new leader. -/
def SentCommand (J : Json) (S : Setup Store) (acts : List Action) (cmd : Bytes) : Prop :=
  cmd = [] ∨ ∃ p, Came S acts p ∧ cmd = encodePut J p.key p.value

/-- Everything in the store has been sent, and the store survives a snapshot. -/
def SentOnly (text : Bytes → Prop) (S : Setup Store) (acts : List Action) (s : Store) : Prop :=
  Textual text s ∧ ∀ k v, s.get? k = some v → Sent S acts k v

/-- A step that obeys `ThroughServer` proposes only what a client has sent. -/
theorem submits_of_came (henc : S.encode = encodePut J) (hcame : ∀ p ∈ w.puts, Came S acts p)
    {act : Action} (hthrough : ThroughServer act) : Submits S (SentCommand J S acts) w act := by
  induction act with
  | propose id cmd => exact hthrough.elim
  | crashDuring inner saves ih => exact ih hthrough
  | stepPut k =>
    intro p hp
    rw [henc]
    exact Or.inr ⟨p, hcame p (List.mem_of_getElem? hp), rfl⟩
  | _ => trivial

theorem machineInv_sentOnly (hrep : J.Replacing) (hlaw : J.Lawful text) :
    MachineInv (machine J) (SentCommand J S acts) (SentOnly text S acts) where
  init := ⟨textual_empty, fun k v h => by cases h⟩
  noop := Or.inl rfl
  apply := by
    rintro s i cmd ⟨htext, hsent⟩ hcmd
    refine ⟨htext.onApply hlaw _, ?_⟩
    rcases hcmd with rfl | ⟨p, hp, rfl⟩
    · exact hsent
    -- the key of the command has its value, the others are as before
    · intro k v hget
      rw [show (machine J).apply s ⟨i, encodePut J p.key p.value⟩ = _ from
        onApply_encodePut hrep s i p.key p.value, OrdMap.get?_set] at hget
      split at hget
      · next heq =>
        cases hget
        rw [heq]
        exact hp.sent
      · exact hsent k v hget
  restore := by
    rintro s data other s' hs hdata _ hrestore
    -- what is restored is what was written
    obtain ⟨hne, hback⟩ := hlaw.roundTrip s data hs.1 hdata
    have heq : some s' = some s := hrestore.symm.trans ((if_neg hne).trans hback)
    cases heq
    exact hs

/-- **Nothing is made up.** Whatever a node holds for a key, and whatever a `Get` returns for it, a
client has sent in a request that reaches the key. If clients send plain keys only, the request was
one for this key. -/
theorem stored_was_sent (hmachine : S.machine = machine J) (henc : S.encode = encodePut J)
    (hrep : J.Replacing) (hlaw : J.Lawful text)
    (hrun : Run S (fun _ => ThroughServer) (World.init S) acts w) :
    (∀ id, (w.node id).machine.get? key = some value → Sent S acts key value) ∧
      (∀ k store, w.answer k = some store → store.get? key = some value → Sent S acts key value) ∧
      (Sent S acts key value →
        (∀ id sent body, Action.startPut id sent body ∈ acts → Http.PlainKey sent) →
        ∃ id sent body, Action.startPut id sent body ∈ acts ∧ key = Utf8.toValid sent ∧
          value = Utf8.toValid (Http.readBody body)) := by
  have hM : MachineInv S.machine (SentCommand J S acts) (SentOnly text S acts) := by
    rw [hmachine]
    exact machineInv_sentOnly hrep hlaw
  have hpres : ∀ v act v', ((∀ p ∈ v.puts, Came S acts p) ∧
      Clean S.machine (SentCommand J S acts) (SentOnly text S acts) v) →
      ThroughServer act ∧ act ∈ acts → step S v act = some v' →
      (∀ p ∈ v'.puts, Came S acts p) ∧
        Clean S.machine (SentCommand J S acts) (SentOnly text S acts) v' :=
    fun v act v' hv hok hstep => ⟨came_step hv.1 hok.2 hstep,
      clean_step hM hv.2 (submits_of_came henc hv.1 hok.1) hstep⟩
  -- requests and stores are invariant together
  have hinv := (hrun.restrict fun _ h => h).invariant hpres
    ⟨fun p hp => (by cases hp), clean_init hM⟩
  refine ⟨fun id => (hinv.2.node id).machine.2 key value,
    fun k store hans => (hinv.2.answer k store hans).2 key value, ?_⟩
  rintro ⟨id, sent, body, read, hmem, hreach, rfl, rfl⟩ hplain
  rw [hreach.eq_of_plain (hplain id sent body hmem)]
  exact ⟨id, sent, body, hmem, rfl, rfl⟩

/-! ## An instance

A stand-in for `encoding/json` whose commands are short: every byte of the key is marked, and the
value follows the first byte that is no mark. -/

def markKey (key : Bytes) : Bytes := key.flatMap (fun b => [1, b])

def splitMarked : Bytes → Option (Bytes × Bytes)
  | 0 :: rest => some ([], rest)
  | 1 :: b :: rest => (splitMarked rest).map (fun p => (b :: p.1, p.2))
  | _ => none

theorem splitMarked_markKey (key value : Bytes) :
    splitMarked (markKey key ++ 0 :: value) = some (key, value) := by
  induction key with
  | nil => rfl
  | cons b key ih =>
    show (splitMarked (markKey key ++ 0 :: value)).map _ = _
    rw [ih]
    rfl

def shortJson : Json where
  marshalCommand := fun c => markKey (Utf8.toValid c.key) ++ 0 :: Utf8.toValid c.value
  unmarshalCommand := fun data => (splitMarked data).map (fun p =>
    { op := opPut, key := Utf8.toValid p.1, value := Utf8.toValid p.2 })
  marshalMap := standInJson.marshalMap
  unmarshalMap := standInJson.unmarshalMap

theorem shortJson_replacing : shortJson.Replacing := by
  intro key value
  refine ⟨by simp [encodePut, shortJson], ?_⟩
  show (splitMarked (markKey _ ++ 0 :: _)).map _ = _
  rw [splitMarked_markKey, Option.map_some]
  simp only [Utf8.toValid_of_valid (Utf8.valid_toValid _)]

theorem shortJson_lawful : shortJson.Lawful (Utf8.valid · = true) where
  command := by
    intro data cmd h
    obtain ⟨p, _, rfl⟩ := Option.map_eq_some_iff.mp h
    exact ⟨Utf8.valid_toValid _, Utf8.valid_toValid _⟩
  map := standInJson_surviving.map
  roundTrip := standInJson_surviving.roundTrip

/-- One node that serves puts and gets. -/
def soleStore : Setup Store :=
  { uniform (machine shortJson) (.single "n1" "") 0 with encode := encodePut shortJson }

def putThenGet : List Action :=
  [.tick "n1" true, .startPut "n1" [0x6b] [0x76], .stepPut 0, .stepPut 0, .stepPut 0,
    .startGet "n1", .stepGet 0, .stepGet 0, .stepGet 0, .stepGet 0, .stepGet 0, .stepGet 0]

def soleWorld : World Store := after soleStore (World.init soleStore) putThenGet

theorem stored_was_sent_sample :
    (soleWorld.node "n1").machine.get? [0x6b] = some [0x76] ∧
      soleWorld.answer 0 = some (OrdMap.empty.set [0x6b] [0x76]) ∧
      Sent soleStore putThenGet [0x6b] [0x76] := by
  have hstored : (soleWorld.node "n1").machine.get? [0x6b] = some [0x76] := by decide +kernel
  refine ⟨hstored, by decide +kernel, (stored_was_sent rfl rfl shortJson_replacing
    shortJson_lawful (run_after (fun act hact _ => ?_) (by decide +kernel))).1 "n1" hstored⟩
  simp only [putThenGet, List.mem_cons, List.not_mem_nil, or_false] at hact
  rcases hact with rfl | rfl | rfl | rfl | rfl | rfl | rfl | rfl | rfl | rfl | rfl | rfl <;> trivial

end Cluster
