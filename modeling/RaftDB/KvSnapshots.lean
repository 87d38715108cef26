import RaftDB.KvProposals
import RaftDB.RaftCommitted

/-!
# Snapshots of the store

A store is the result of the committed commands up to some index, whichever way it came to be:
from the log, from snapshots that other nodes took, or from the files of an earlier process.
The entries are read as the store that they lead to, and a snapshot as the store that it
restores; the refinement then carries the reading through every copy.
-/
namespace Kv

open Raft ClusterConfig TransitionSystem

def replay (json : Json) (entries : List LogEntry) : Store :=
  entries.foldl (applyEntry json) .new

theorem replay_concat (json : Json) (l : List LogEntry) (e : LogEntry) :
    replay json (l ++ [e]) = applyEntry json (replay json l) e :=
  List.foldl_concat ..

/-- Entries stand for the store they lead to, and data for the store that is restored from
it. -/
def replays {json : Json} (hjson : ∀ l, json.RoundTripsMap (replay json l).m) :
    Represents (stateMachine json) where
  state l s := s = replay json l
  data l d := Store.restoreBytes json d = .ok (replay json l)
  init := rfl
  apply := by
    rintro l _ e rfl
    exact (replay_concat json l e).symm
  snapshot := by
    rintro l _ d rfl hd
    cases hd
    exact restore_of_snapshot (hjson l)
  restore := by
    intro l d s hd hs
    change (Store.restoreBytes json d).toOption = some s at hs
    rw [hd] at hs
    cases hs
    rfl

/-- One entry is committed for an index. A snapshot, wherever it is, names the index and the
term of a committed entry and restores to what the commands up to there lead to, and so does
the store of every node whose applier is idle. -/
theorem snapshots_are_committed_prefixes (json : Json)
    (hjson : ∀ l, json.RoundTripsMap (replay json l).m) (c : ValidCluster)
    (settings : NodeId → Config) {s : System Store (List UInt8)}
    (hrun : Runs (System.step (stateMachine json) c settings) Always System.init s) :
    (∀ e e', s.Committed e → s.Committed e' → e.index = e'.index → e = e') ∧
    (∀ snap, s.HasSnapshot c snap → ∃ l, s.CommittedPrefix l ∧
      l.length = snap.lastIncludedIndex ∧
      l.getLast?.map LogEntry.term = some snap.lastIncludedTerm ∧
      Store.restoreBytes json snap.data = .ok (replay json l)) ∧
    ∀ n p, (s.hosts n).proc = some p → p.node.started = true → p.phase = .waiting →
      ∃ l, s.CommittedPrefix l ∧ l.length = p.node.lastApplied ∧
        p.machine = replay json l := by
  obtain ⟨a, hsim, hagreed⟩ := exists_agreed_account (replays hjson) hrun
  have hev := evidenced_of_runs hrun
  refine ⟨fun e e' he he' => hagreed.unique he he', ?_, ?_⟩
  · intro snap hs
    exact snapshot_committed hsim hagreed hev hs
  · intro n p hp hstarted hidle
    exact idle_committed hsim hagreed hev hp hstarted hidle

/-- The first member applies three commands and compacts them away; the third has missed them
and is sent the snapshot. -/
def trioShips : List (Event (List UInt8)) :=
  [.boot "n1", .boot "n2", .boot "n3", .act "n1" .start, .act "n2" .start, .act "n3" .start,
    .act "n1" .electionTimeout, .deliver 0, .receive 0,
    .act "n1" (.propose (plainJson.marshalCommand ⟨.put, "k", "1"⟩)),
    .act "n1" (.propose (plainJson.marshalCommand ⟨.delete, "k", ""⟩)),
    .act "n1" (.propose (plainJson.marshalCommand ⟨.put, "k", "2"⟩)),
    .act "n1" (.replicate 1), .deliver 2, .receive 1,
    .act "n1" .applier, .act "n1" .applier, .act "n1" .applier, .act "n1" .applier,
    .act "n1" .applier, .act "n1" .applier, .act "n1" .applier, .act "n1" (.replicate 1),
    .loadSnapshot 0, .deliver 5]

theorem snapshots_are_committed_prefixes_trio :
    ∃ s p q, exec (System.step (stateMachine plainJson) trio firstCompacts) (fun _ _ => true)
        System.init trioShips = some s ∧
      (s.hosts "n1").proc = some p ∧ p.node.lastApplied = 3 ∧
      (s.hosts "n3").proc = some q ∧
      q.node.pendingSnapshot = some ⟨3, 1, "\x7b\"k\":\"2\"\x7d".toUTF8.toList⟩ ∧
      (∃ l, s.CommittedPrefix l ∧ l.length = 3 ∧ l.getLast?.map LogEntry.term = some 1 ∧
        Store.restoreBytes plainJson "\x7b\"k\":\"2\"\x7d".toUTF8.toList =
          .ok (replay plainJson l)) ∧
      ∃ l, s.CommittedPrefix l ∧ l.length = 3 ∧ p.machine = replay plainJson l := by
  have hrun : ((exec (System.step (stateMachine plainJson) trio firstCompacts) (fun _ _ => true)
      System.init trioShips).bind fun s => (s.hosts "n1").proc.bind fun p =>
      (s.hosts "n3").proc.map fun q => decide (p.node.lastApplied = 3 ∧
        p.node.started = true ∧ p.phase = .waiting ∧ q.node.pendingSnapshot =
          some ⟨3, 1, "\x7b\"k\":\"2\"\x7d".toUTF8.toList⟩)) = some true := by
    decide +kernel
  obtain ⟨s, hs, hrest⟩ := Option.bind_eq_some_iff.mp hrun
  obtain ⟨p, hp, hrest⟩ := Option.bind_eq_some_iff.mp hrest
  obtain ⟨q, hq, hfacts⟩ := Option.map_eq_some_iff.mp hrest
  obtain ⟨happlied, hstarted, hidle, hparked⟩ := of_decide_eq_true hfacts
  obtain ⟨_, hsnapshots, hstores⟩ := snapshots_are_committed_prefixes plainJson
    (fun _ => goJson_roundTripsMap _) trio firstCompacts (runs_of_exec (fun _ _ _ => trivial) _ hs)
  have hstore := hstores "n1" p hp hstarted hidle
  rw [happlied] at hstore
  exact ⟨s, p, q, hs, hp, happlied, hq, hparked, hsnapshots _ (.parked hq hparked), hstore⟩

end Kv
