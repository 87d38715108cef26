import Mathlib.Data.Finset.Card
import Mathlib.Data.List.Nodup

/-!
# The static cluster configuration

Membership is fixed at startup and every member reads the same list. What `validate`
accepts has distinct, non-empty ids, so that the majority a node computes from the number
of its peers is a majority of the members.
-/
namespace ClusterConfig

structure Node where
  id : String
  raftAddr : String
  clientAddr : String
  deriving DecidableEq, Repr

structure Cluster where
  nodes : List Node
  deriving DecidableEq, Repr

inductive ValidateError where
  | noNodes
  | emptyID (index : ℕ)
  | emptyRaftAddr (id : String)
  | emptyClientAddr (id : String)
  | duplicateID (id : String)
  | sharedAddr (addr owner id : String)
  deriving DecidableEq, Repr

def ValidateError.message : ValidateError → String
  | .noNodes => "cluster has no nodes"
  | .emptyID index => "node at index " ++ toString index ++ " has empty id"
  | .emptyRaftAddr id => "node " ++ id.quote ++ " has empty raft_addr"
  | .emptyClientAddr id => "node " ++ id.quote ++ " has empty client_addr"
  | .duplicateID id => "duplicate node id " ++ id.quote
  | .sharedAddr addr owner id =>
    "address " ++ addr.quote ++ " used by both " ++ owner.quote ++ " and " ++ id.quote

/-- Claim the addresses for a node, unless one of them has an owner already. -/
def checkAddrs (id : String) :
    List (String × String) → List String → Except ValidateError (List (String × String))
  | seen, [] => .ok seen
  | seen, addr :: rest =>
    match seen.lookup addr with
    | some owner => .error (.sharedAddr addr owner id)
    | none => checkAddrs id ((addr, id) :: seen) rest

def validateNodes : ℕ → List String → List (String × String) → List Node → Option ValidateError
  | _, _, _, [] => none
  | i, seenIDs, seenAddrs, n :: rest =>
    if n.id = "" then some (.emptyID i)
    else if n.raftAddr = "" then some (.emptyRaftAddr n.id)
    else if n.clientAddr = "" then some (.emptyClientAddr n.id)
    else if n.id ∈ seenIDs then some (.duplicateID n.id)
    else match checkAddrs n.id seenAddrs [n.raftAddr, n.clientAddr] with
      | .error err => some err
      | .ok seenAddrs => validateNodes (i + 1) (n.id :: seenIDs) seenAddrs rest

namespace Cluster

def validate (c : Cluster) : Option ValidateError :=
  if c.nodes = [] then some .noNodes else validateNodes 0 [] [] c.nodes

def peers (c : Cluster) (selfID : String) : List Node := c.nodes.filter (·.id ≠ selfID)

def quorumSize (c : Cluster) : ℕ := c.nodes.length / 2 + 1

def ids (c : Cluster) : List String := c.nodes.map Node.id

end Cluster

/-- A configuration that `Load` accepts. -/
structure ValidCluster extends Cluster where
  valid : toCluster.validate = none

theorem validateNodes_ids {i : ℕ} {seenIDs : List String} {seenAddrs : List (String × String)}
    {nodes : List Node} (h : validateNodes i seenIDs seenAddrs nodes = none) :
    (nodes.map Node.id).Nodup ∧ ∀ id ∈ nodes.map Node.id, id ≠ "" ∧ id ∉ seenIDs := by
  induction nodes generalizing i seenIDs seenAddrs with
  | nil => simp
  | cons n rest ih =>
    rw [validateNodes] at h
    split at h
    · cases h
    rename_i hne
    split at h
    · cases h
    split at h
    · cases h
    split at h
    · cases h
    rename_i hfresh
    split at h
    · cases h
    obtain ⟨hnodup, hrest⟩ := ih h
    rw [List.map_cons]
    refine ⟨List.nodup_cons.mpr ⟨fun hmem => ?_, hnodup⟩, ?_⟩
    · exact (hrest _ hmem).2 List.mem_cons_self
    · intro id hid
      rcases List.mem_cons.mp hid with rfl | hid
      · exact ⟨hne, hfresh⟩
      · exact ⟨(hrest id hid).1, fun hs => (hrest id hid).2 (List.mem_cons_of_mem _ hs)⟩

namespace ValidCluster

variable (c : ValidCluster)

def members : Finset String := c.ids.toFinset

theorem validated : validateNodes 0 [] [] c.nodes = none := by
  have h := c.valid
  rw [Cluster.validate] at h
  split at h
  · cases h
  · exact h

theorem ids_nodup : c.ids.Nodup := (validateNodes_ids c.validated).1

variable {c} {n : String}

theorem mem_members : n ∈ c.members ↔ n ∈ c.ids := List.mem_toFinset

theorem ne_empty (hn : n ∈ c.members) : n ≠ "" :=
  ((validateNodes_ids c.validated).2 n (mem_members.mp hn)).1

theorem card_members : c.members.card = c.nodes.length := by
  rw [members, List.toFinset_card_of_nodup c.ids_nodup, Cluster.ids, List.length_map]

theorem quorumSize_eq : c.quorumSize = c.members.card / 2 + 1 := by
  rw [Cluster.quorumSize, card_members]

variable (c n) in
def peerIDs : List String := (c.peers n).map Node.id

theorem peerIDs_eq : c.peerIDs n = c.ids.filter (· ≠ n) := by
  rw [peerIDs, Cluster.peers, Cluster.ids, List.filter_map]
  rfl

theorem mem_peerIDs {m : String} : m ∈ c.peerIDs n ↔ m ∈ c.members ∧ m ≠ n := by
  rw [peerIDs_eq, List.mem_filter, mem_members]
  simp

theorem peerIDs_nodup : (c.peerIDs n).Nodup := by
  rw [peerIDs_eq]
  exact c.ids_nodup.filter _

theorem length_peerIDs (hn : n ∈ c.members) : (c.peerIDs n).length + 1 = c.nodes.length := by
  have hset : (c.peerIDs n).toFinset = c.members.erase n := by
    ext m
    rw [List.mem_toFinset, mem_peerIDs, Finset.mem_erase, and_comm]
  have hcard : (c.peerIDs n).length = (c.members.erase n).card := by
    rw [← hset, List.toFinset_card_of_nodup peerIDs_nodup]
  rw [hcard, Finset.card_erase_add_one hn, card_members]

end ValidCluster

end ClusterConfig
