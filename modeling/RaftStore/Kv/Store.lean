import RaftStore.Raft.Boot
import Mathlib.Data.List.Lex
import Mathlib.Order.Fin.Basic

/-!
# The key-value state machine

`kv/store.go` and the apply callback of `kv/client_api.go`. Keys and values are Go strings
that come straight from a request, so they are byte sequences here. The functions of
`encoding/json` that the package calls are collected in `Json`; what is assumed of them is
stated where it is used.
-/

instance byteLinearOrder : LinearOrder UInt8 :=
  LinearOrder.lift' UInt8.toFin (fun _ _ h => UInt8.toFin_inj.mp h)

namespace Kv

open Raft (Bytes ApplyMsg)

/-- `Store.data`. -/
abbrev Store := OrdMap Bytes Bytes

/-- The operation stored in a log entry. -/
structure Command where
  op : String
  key : Bytes
  value : Bytes
  deriving DecidableEq

def opPut : String := "Put"

/-- The calls into `encoding/json`. Decoding a map gives the empty map for `null`. -/
structure Json where
  marshalCommand : Command → Bytes
  unmarshalCommand : Bytes → Option Command
  marshalMap : Store → Option Bytes
  unmarshalMap : Bytes → Option Store

variable (J : Json)

/-- `Server.onApply`: no-ops, undecodable commands and unknown operations do nothing. -/
def onApply (s : Store) (msg : ApplyMsg) : Store :=
  if msg.command = [] then s
  else
    match J.unmarshalCommand msg.command with
    | none => s
    | some cmd => if cmd.op = opPut then s.set cmd.key cmd.value else s

/-- `Store.Restore`: an empty blob is the empty store, an undecodable one an error. -/
def restore (_ : Store) (data : Bytes) : Option Store :=
  if data = [] then some .empty else J.unmarshalMap data

/-- The callbacks that `NewServer` installs. -/
def machine : Raft.Machine Store where
  init := .empty
  apply := onApply J
  snapshotter := { snapshot := J.marshalMap, restore := restore J }

/-- The command that `Server.Put` proposes. -/
def encodePut (key value : Bytes) : Bytes :=
  J.marshalCommand { op := opPut, key := key, value := value }

end Kv
