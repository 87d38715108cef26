import Mathlib.Data.Finmap
import RaftDB.RaftTypes

/-!
# Commands and the replicated store

The commands that are replicated, the map they act on, and the state machine that Raft sees.
What `encoding/json` does is a parameter: nothing here looks into encoded bytes.
-/
namespace Kv

open Raft

/-- In the source an operation is any string; all but two of them are refused. -/
inductive Op where
  | put
  | delete
  | unknown (name : String)
  deriving DecidableEq, Repr

structure Command where
  op : Op
  key : String
  value : String
  deriving DecidableEq, Repr

/-- The map of a store; the order of its keys is not part of it. -/
abbrev Map := Finmap fun _ : String => String

/-- The uses of `encoding/json`; an error is its text. -/
structure Json where
  marshalCommand : Command → List UInt8
  unmarshalCommand : List UInt8 → Except String Command
  marshalMap : Map → List UInt8
  unmarshalMap : List UInt8 → Except String Map

/-- The command comes back from its encoding, as `encoding/json` promises for strings that are
valid UTF-8. -/
def Json.RoundTrips (json : Json) (c : Command) : Prop :=
  json.unmarshalCommand (json.marshalCommand c) = .ok c

def Json.RoundTripsMap (json : Json) (m : Map) : Prop :=
  json.unmarshalMap (json.marshalMap m) = .ok m

inductive KvError where
  | unknownOp (op : String)
  | corruptCommand (reason : String)
  | unapplicableOp (op : String)
  | corruptSnapshot (reason : String)
  deriving DecidableEq, Repr

def KvError.message : KvError → String
  | .unknownOp op => "kv: unknown op " ++ op.quote
  | .corruptCommand reason => "kv: corrupt command: " ++ reason
  | .unapplicableOp op => "kv: unapplicable op " ++ op.quote
  | .corruptSnapshot reason => "kv: corrupt snapshot: " ++ reason

def Command.encode (json : Json) (c : Command) : Except KvError (List UInt8) :=
  match c.op with
  | .unknown name => .error (.unknownOp name)
  | _ => .ok (json.marshalCommand c)

def decodeCommand (json : Json) (data : List UInt8) : Except KvError Command :=
  match json.unmarshalCommand data with
  | .error reason => .error (.corruptCommand reason)
  | .ok c =>
    match c.op with
    | .unknown name => .error (.unknownOp name)
    | _ => .ok c

/-- What is under the key once the command has taken effect. -/
def Command.effect (cmd : Command) (m : Map) (key : String) : Option String :=
  if key = cmd.key then if cmd.op = .put then some cmd.value else none else m.lookup key

structure Store where
  m : Map
  deriving DecidableEq

namespace Store

def new : Store := ⟨∅⟩

def apply (s : Store) (cmd : Command) : Except KvError Store :=
  match cmd.op with
  | .put => .ok ⟨s.m.insert cmd.key cmd.value⟩
  | .delete => .ok ⟨s.m.erase cmd.key⟩
  | .unknown name => .error (.unapplicableOp name)

def snapshotBytes (json : Json) (s : Store) : List UInt8 := json.marshalMap s.m

def restoreBytes (json : Json) (data : List UInt8) : Except KvError Store :=
  match json.unmarshalMap data with
  | .error reason => .error (.corruptSnapshot reason)
  | .ok m => .ok ⟨m⟩

end Store

/-- What `Apply` does to the store. An entry that does not decode is skipped, on every node
alike. -/
def applyEntry (json : Json) (s : Store) (entry : LogEntry) : Store :=
  match decodeCommand json entry.command with
  | .error _ => s
  | .ok cmd =>
    match s.apply cmd with
    | .error _ => s
    | .ok s' => s'

def stateMachine (json : Json) : StateMachine Store (List UInt8) where
  init := .new
  apply := applyEntry json
  snapshot := fun s => some (s.snapshotBytes json)
  restore := fun data => (Store.restoreBytes json data).toOption

theorem Store.lookup_apply {s s' : Store} {cmd : Command} (h : s.apply cmd = .ok s')
    (key : String) : s'.m.lookup key = cmd.effect s.m key := by
  rw [Store.apply] at h
  split at h
  · rename_i hop
    cases h
    by_cases hkey : key = cmd.key
    · subst hkey
      simp [Command.effect, hop]
    · simp [Command.effect, hkey, Finmap.lookup_insert_of_ne _ hkey]
  · rename_i hop
    cases h
    by_cases hkey : key = cmd.key
    · subst hkey
      simp [Command.effect, hop]
    · simp [Command.effect, hkey, Finmap.lookup_erase_ne hkey]
  · cases h

theorem restore_of_snapshot {json : Json} {s : Store} (h : json.RoundTripsMap s.m) :
    Store.restoreBytes json (s.snapshotBytes json) = .ok s := by
  rw [Store.restoreBytes, Store.snapshotBytes, h]

theorem apply_of_decoded {json : Json} {data : List UInt8} {cmd : Command}
    (h : decodeCommand json data = .ok cmd) (s : Store) : ∃ s', s.apply cmd = .ok s' := by
  rw [decodeCommand] at h
  split at h
  · cases h
  split at h
  · cases h
  rename_i hop
  cases h
  rw [Store.apply]
  cases hcmd : cmd.op with
  | put => exact ⟨_, rfl⟩
  | delete => exact ⟨_, rfl⟩
  | unknown name => exact absurd hcmd (hop name)

theorem decode_of_encoded {json : Json} {cmd : Command} {data : List UInt8}
    (h : cmd.encode json = .ok data) (hj : json.RoundTrips cmd) :
    decodeCommand json data = .ok cmd := by
  rw [Command.encode] at h
  split at h
  · cases h
  rename_i hop
  cases h
  rw [decodeCommand, hj]
  dsimp only
  split
  · rename_i name hcmd
    exact absurd hcmd (hop name)
  · rfl

theorem applyEntry_of_encoded {json : Json} {cmd : Command} {entry : LogEntry}
    (h : cmd.encode json = .ok entry.command) (hj : json.RoundTrips cmd) (s : Store) :
    s.apply cmd = .ok (applyEntry json s entry) := by
  have hdec := decode_of_encoded h hj
  obtain ⟨s', hs⟩ := apply_of_decoded hdec s
  rw [applyEntry, hdec]
  simp only [hs]

end Kv
