import Mathlib.Data.List.Pairwise
import RaftDB.ClusterConfig

/-!
# What `Validate` accepts

The loop of `Validate` against a description of the clusters that it is meant to let through. It
accepts these and no others, and the error that it gives is about the first node at fault: the
nodes before it are in order.
-/
namespace ClusterConfig

def Node.addrs (n : Node) : List String := [n.raftAddr, n.clientAddr]

/-- No field is left empty, and no id and no address is used twice. -/
structure WellFormed (nodes : List Node) : Prop where
  filled : ∀ n ∈ nodes, n.id ≠ "" ∧ n.raftAddr ≠ "" ∧ n.clientAddr ≠ ""
  ids : (nodes.map Node.id).Nodup
  addrs : (nodes.flatMap Node.addrs).Nodup

def ValidateError.Blames (before : List Node) (n : Node) : ValidateError → Prop
  | .noNodes => False
  | .emptyID index => index = before.length ∧ n.id = ""
  | .emptyRaftAddr id => id = n.id ∧ n.raftAddr = ""
  | .emptyClientAddr id => id = n.id ∧ n.clientAddr = ""
  | .duplicateID id => id = n.id ∧ id ∈ before.map Node.id
  | .sharedAddr addr owner id => id = n.id ∧ addr ∈ n.addrs ∧
      ((∃ m ∈ before, m.id = owner ∧ addr ∈ m.addrs) ∨
        owner = n.id ∧ n.raftAddr = addr ∧ n.clientAddr = addr)

structure Seen (before : List Node) (seenIDs : List String) (seenAddrs : List (String × String)) :
    Prop where
  ids : ∀ id, id ∈ seenIDs ↔ id ∈ before.map Node.id
  owned : ∀ {addr owner}, seenAddrs.lookup addr = some owner →
    ∃ m ∈ before, m.id = owner ∧ addr ∈ m.addrs
  free : ∀ {addr}, seenAddrs.lookup addr = none → addr ∉ before.flatMap Node.addrs

variable {before : List Node} {n : Node} {seenIDs : List String}
  {seenAddrs : List (String × String)} {err : ValidateError}

theorem wellFormed_nil : WellFormed [] := ⟨by simp, by simp, by simp⟩

theorem WellFormed.concat (h : WellFormed before)
    (hn : n.id ≠ "" ∧ n.raftAddr ≠ "" ∧ n.clientAddr ≠ "") (hid : n.id ∉ before.map Node.id)
    (hraft : n.raftAddr ∉ before.flatMap Node.addrs)
    (hclient : n.clientAddr ∉ before.flatMap Node.addrs) (hne : n.clientAddr ≠ n.raftAddr) :
    WellFormed (before ++ [n]) := by
  obtain ⟨hfilled, hids, haddrs⟩ := h
  constructor
  · intro m hm
    rcases List.mem_append.mp hm with hm | hm
    · exact hfilled m hm
    · rw [List.mem_singleton.mp hm]
      exact hn
  · rw [List.map_append, List.nodup_append]
    refine ⟨hids, by simp, ?_⟩
    simp only [List.map_cons, List.map_nil, List.mem_singleton]
    rintro a ha _ rfl rfl
    exact hid ha
  · rw [List.flatMap_append, List.nodup_append]
    refine ⟨haddrs, by simp [Node.addrs, hne.symm], ?_⟩
    simp only [List.flatMap_singleton, Node.addrs, List.mem_cons, List.not_mem_nil, or_false]
    rintro a ha _ (rfl | rfl) rfl
    · exact hraft ha
    · exact hclient ha

theorem seen_nil : Seen [] [] [] := by
  constructor
  · simp
  · intro addr owner h
    cases h
  · simp

theorem Seen.concat (h : Seen before seenIDs seenAddrs) : Seen (before ++ [n]) (n.id :: seenIDs)
    ((n.clientAddr, n.id) :: (n.raftAddr, n.id) :: seenAddrs) := by
  constructor
  · intro id
    simp [h.ids, or_comm]
  · intro addr owner hlookup
    rw [List.lookup_cons, List.lookup_cons] at hlookup
    have hown : owner = n.id → addr ∈ n.addrs →
        ∃ m ∈ before ++ [n], m.id = owner ∧ addr ∈ m.addrs :=
      fun heq haddr => ⟨n, by simp, heq.symm, haddr⟩
    split at hlookup
    · rename_i heq
      exact hown (Option.some.inj hlookup).symm (by simp [Node.addrs, eq_of_beq heq])
    split at hlookup
    · rename_i heq
      exact hown (Option.some.inj hlookup).symm (by simp [Node.addrs, eq_of_beq heq])
    obtain ⟨m, hm, hid, haddr⟩ := h.owned hlookup
    exact ⟨m, List.mem_append_left _ hm, hid, haddr⟩
  · intro addr hlookup
    rw [List.lookup_cons, List.lookup_cons] at hlookup
    split at hlookup
    · cases hlookup
    rename_i hclient
    split at hlookup
    · cases hlookup
    rename_i hraft
    have hfree := h.free hlookup
    simp only [List.flatMap_append, List.flatMap_singleton, List.mem_append, Node.addrs,
      List.mem_cons, List.not_mem_nil, or_false, not_or]
    exact ⟨hfree, by simpa using hraft, by simpa using hclient⟩

theorem checkAddrs_cases (h : Seen before seenIDs seenAddrs) :
    (∃ err, checkAddrs n.id seenAddrs n.addrs = .error err ∧ err.Blames before n) ∨
      checkAddrs n.id seenAddrs n.addrs =
        .ok ((n.clientAddr, n.id) :: (n.raftAddr, n.id) :: seenAddrs) ∧
      n.raftAddr ∉ before.flatMap Node.addrs ∧ n.clientAddr ∉ before.flatMap Node.addrs ∧
      n.clientAddr ≠ n.raftAddr := by
  cases hraft : seenAddrs.lookup n.raftAddr with
  | some owner =>
    left
    refine ⟨.sharedAddr n.raftAddr owner n.id, by simp [checkAddrs, Node.addrs, hraft], rfl,
      by simp [Node.addrs], Or.inl (h.owned hraft)⟩
  | none =>
    by_cases hsame : n.clientAddr = n.raftAddr
    · left
      refine ⟨.sharedAddr n.clientAddr n.id n.id, ?_, rfl, by simp [Node.addrs],
        Or.inr ⟨rfl, hsame.symm, rfl⟩⟩
      simp [checkAddrs, Node.addrs, hraft, hsame]
    have hbeq : (n.clientAddr == n.raftAddr) = false := beq_eq_false_iff_ne.mpr hsame
    cases hclient : seenAddrs.lookup n.clientAddr with
    | some owner =>
      left
      refine ⟨.sharedAddr n.clientAddr owner n.id, ?_, rfl, by simp [Node.addrs],
        Or.inl (h.owned hclient)⟩
      simp [checkAddrs, Node.addrs, hraft, hbeq, hclient, List.lookup_cons]
    | none =>
      right
      refine ⟨?_, h.free hraft, h.free hclient, hsame⟩
      simp [checkAddrs, Node.addrs, hraft, hbeq, hclient, List.lookup_cons]

/-- The loop ends behind nodes that are in order, or at the first one that is not. -/
theorem validateNodes_cases (rest : List Node) (h : Seen before seenIDs seenAddrs)
    (hw : WellFormed before) :
    (validateNodes before.length seenIDs seenAddrs rest = none ∧ WellFormed (before ++ rest)) ∨
      ∃ err mid n after, validateNodes before.length seenIDs seenAddrs rest = some err ∧
        rest = mid ++ n :: after ∧ WellFormed (before ++ mid) ∧ err.Blames (before ++ mid) n := by
  induction rest generalizing before seenIDs seenAddrs with
  | nil => exact Or.inl ⟨rfl, by rwa [List.append_nil]⟩
  | cons n rest ih =>
    have hstop : ∀ err, validateNodes before.length seenIDs seenAddrs (n :: rest) = some err →
        err.Blames before n → ∃ err mid m after,
          validateNodes before.length seenIDs seenAddrs (n :: rest) = some err ∧
          n :: rest = mid ++ m :: after ∧ WellFormed (before ++ mid) ∧
          err.Blames (before ++ mid) m := fun err heq hblames =>
      ⟨err, [], n, rest, heq, rfl, by rwa [List.append_nil], by rwa [List.append_nil]⟩
    by_cases hid : n.id = ""
    · exact Or.inr (hstop (.emptyID before.length) (by simp [validateNodes, hid]) ⟨rfl, hid⟩)
    by_cases hraft : n.raftAddr = ""
    · exact Or.inr (hstop (.emptyRaftAddr n.id) (by simp [validateNodes, hid, hraft]) ⟨rfl, hraft⟩)
    by_cases hclient : n.clientAddr = ""
    · exact Or.inr (hstop (.emptyClientAddr n.id) (by simp [validateNodes, hid, hraft, hclient])
        ⟨rfl, hclient⟩)
    by_cases hdup : n.id ∈ seenIDs
    · exact Or.inr (hstop (.duplicateID n.id) (by simp [validateNodes, hid, hraft, hclient, hdup])
        ⟨rfl, (h.ids n.id).mp hdup⟩)
    rcases checkAddrs_cases (n := n) h with ⟨err, herr, hblames⟩ | ⟨hok, hraft', hclient', hne⟩
    · rw [Node.addrs] at herr
      exact Or.inr (hstop err (by simp [validateNodes, hid, hraft, hclient, hdup, herr]) hblames)
    · have hstep : validateNodes before.length seenIDs seenAddrs (n :: rest) =
          validateNodes (before.length + 1) (n.id :: seenIDs)
            ((n.clientAddr, n.id) :: (n.raftAddr, n.id) :: seenAddrs) rest := by
        rw [Node.addrs] at hok
        simp [validateNodes, hid, hraft, hclient, hdup, hok]
      have hw' := hw.concat ⟨hid, hraft, hclient⟩ (fun hmem => hdup ((h.ids n.id).mpr hmem)) hraft'
        hclient' hne
      have hlen : before.length + 1 = (before ++ [n]).length := by simp
      rw [hstep, hlen]
      rcases ih (h.concat (n := n)) hw' with
        ⟨hnone, hall⟩ | ⟨err, mid, m, after, herr, rfl, hmid, hb⟩
      · left
        exact ⟨hnone, by rwa [List.append_assoc] at hall⟩
      · right
        rw [List.append_assoc] at hmid hb
        exact ⟨err, n :: mid, m, after, herr, rfl, hmid, hb⟩

theorem ValidateError.Blames.not_wellFormed (h : err.Blames before n) (after : List Node) :
    ¬WellFormed (before ++ n :: after) := by
  rintro ⟨hfilled, hids, haddrs⟩
  have hn := hfilled n (by simp)
  rw [List.map_append, List.nodup_append] at hids
  rw [List.flatMap_append, List.nodup_append] at haddrs
  cases err with
  | noNodes => exact h
  | emptyID index => exact hn.1 h.2
  | emptyRaftAddr id => exact hn.2.1 h.2
  | emptyClientAddr id => exact hn.2.2 h.2
  | duplicateID id =>
    obtain ⟨rfl, hid⟩ := h
    exact hids.2.2 n.id hid n.id (by simp) rfl
  | sharedAddr addr owner id =>
    obtain ⟨_, haddr, ⟨m, hm, _, haddr'⟩ | ⟨_, hraft, hclient⟩⟩ := h
    · refine haddrs.2.2 addr (List.mem_flatMap.mpr ⟨m, hm, haddr'⟩) addr ?_ rfl
      exact List.mem_flatMap.mpr ⟨n, List.mem_cons_self, haddr⟩
    · have hown := haddrs.2.1
      rw [List.flatMap_cons, List.nodup_append] at hown
      have hpair := hown.1
      simp [Node.addrs, hraft, hclient] at hpair

/-- `Validate` accepts the clusters that have a node and are well-formed. The error that it gives
otherwise is about the first node at fault. -/
theorem validate_iff (c : Cluster) :
    (c.validate = none ↔ c.nodes ≠ [] ∧ WellFormed c.nodes) ∧
      ∀ err, c.validate = some err → err = .noNodes ∧ c.nodes = [] ∨
        ∃ before n after, c.nodes = before ++ n :: after ∧ WellFormed before ∧
          err.Blames before n := by
  rw [Cluster.validate]
  by_cases hnil : c.nodes = []
  · simp [hnil]
  rw [if_neg hnil]
  have hcases := validateNodes_cases c.nodes seen_nil wellFormed_nil
  simp only [List.length_nil, List.nil_append] at hcases
  rcases hcases with ⟨hnone, hw⟩ | ⟨err, mid, n, after, herr, hsplit, hw, hblames⟩
  · refine ⟨by simp [hnone, hnil, hw], fun err herr => ?_⟩
    rw [hnone] at herr
    cases herr
  · refine ⟨?_, ?_⟩
    · have hbad := hblames.not_wellFormed after
      rw [← hsplit] at hbad
      simp [herr, hbad]
    · intro err' herr'
      cases herr.symm.trans herr'
      exact Or.inr ⟨mid, n, after, hsplit, hw, hblames⟩

namespace ValidCluster

variable {c : ValidCluster} {m : Node}

theorem wellFormed (c : ValidCluster) : WellFormed c.nodes := by
  have hcases := validateNodes_cases c.nodes seen_nil wellFormed_nil
  rcases hcases with ⟨_, hw⟩ | ⟨err, mid, n, after, herr, _⟩
  · exact hw
  · have hnone := c.validated
    simp only [List.length_nil] at herr
    rw [hnone] at herr
    cases herr

theorem nodes_ne_nil (c : ValidCluster) : c.nodes ≠ [] := by
  intro hnil
  have hvalid := c.valid
  rw [Cluster.validate, if_pos hnil] at hvalid
  cases hvalid

theorem clientAddr_ne (c : ValidCluster) (h : n ∈ c.nodes) : n.clientAddr ≠ "" :=
  (c.wellFormed.filled n h).2.2

theorem clientAddr_inj (c : ValidCluster) (hn : n ∈ c.nodes) (hm : m ∈ c.nodes)
    (heq : n.clientAddr = m.clientAddr) : n = m := by
  by_contra hne
  have hdisjoint := (List.nodup_flatMap.mp c.wellFormed.addrs).2
  have hsymm : Std.Symm (Function.onFun List.Disjoint Node.addrs) := ⟨fun _ _ h => h.symm⟩
  have hshared : n.clientAddr ∈ m.addrs := by simp [Node.addrs, heq]
  exact hdisjoint.forall hn hm hne (by simp [Node.addrs]) hshared

end ValidCluster

end ClusterConfig
