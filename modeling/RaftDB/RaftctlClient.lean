import RaftDB.ClusterValidation
import RaftDB.KvSessions
import RaftDB.RaftHintChains

/-!
# The client of raftctl

A client asks the node that it takes for the leader. It goes where a redirect points, and after an
error or a redirect without an address it goes on to the next node of the configuration. What it is
told only ever depends on the process that it asks, so the hints of the nodes decide where the loop
gets to.
-/
namespace Raftctl

open Raft ClusterConfig TransitionSystem Kv

variable {ρ S : Type}

inductive OpResult (ρ : Type) where
  | failed (err : String)
  | redirected (redirect : Redirect)
  | done (result : ρ)

structure Client where
  cluster : ValidCluster
  /-- The addresses of the connections. -/
  conns : List String
  leader : String
  rr : ℕ

structure Attempt where
  client : Client
  addr : String
  lastErr : Option String

namespace Client

def new (cluster : ValidCluster) : Client := ⟨cluster, [], "", 0⟩

/-- A connection is made once; `dial` gives the error, if any. -/
def kv (dial : String → Option String) (cl : Client) (addr : String) : Except String Client :=
  if addr ∈ cl.conns then .ok cl
  else match dial addr with
    | some err => .error err
    | none => .ok { cl with conns := addr :: cl.conns }

def next (cl : Client) : Node :=
  cl.cluster.nodes.get ⟨(cl.rr + 1) % cl.cluster.nodes.length,
    Nat.mod_lt _ (List.length_pos_iff.mpr cl.cluster.nodes_ne_nil)⟩

def nextAddr (cl : Client) : Client × String := ({ cl with rr := cl.rr + 1 }, cl.next.clientAddr)

end Client

namespace Attempt

/-- One turn of the loop; `op` may change the state of everything outside. -/
def turn (dial : String → Option String) (op : String → S → OpResult ρ × S) (a : Attempt) (e : S) :
    (Attempt ⊕ Client × ρ) × S :=
  let (cl, addr) := if a.addr = "" then a.client.nextAddr else (a.client, a.addr)
  match cl.kv dial addr with
  | .error err => (.inl ⟨cl, "", some err⟩, e)
  | .ok cl =>
    match op addr e with
    | (.failed err, e) => (.inl ⟨cl, "", some err⟩, e)
    | (.redirected redirect, e) =>
      (.inl ⟨cl, redirect.leaderAddr, some "no leader elected yet"⟩, e)
    | (.done result, e) => (.inr ({ cl with leader := addr }, result), e)

def deadlineExceeded : String := "context deadline exceeded"

/-- The loop; the context is done after the given number of turns. -/
def loop (dial : String → Option String) (op : String → S → OpResult ρ × S) :
    ℕ → Attempt → S → Client × Except String ρ × S
  | 0, a, e =>
    let lastErr := a.lastErr.getD deadlineExceeded
    (a.client, .error (lastErr ++ " (deadline " ++ deadlineExceeded ++ ")"), e)
  | turns + 1, a, e =>
    match a.turn dial op e with
    | (.inl a, e) => loop dial op turns a e
    | (.inr (cl, result), e) => (cl, .ok result, e)

end Attempt

def ask (call : String → Rpc → S → Except String Response × S) (rpc : Rpc) (result : Response → ρ)
    (addr : String) (e : S) : OpResult ρ × S :=
  match call addr rpc e with
  | (.error err, e) => (.failed err, e)
  | (.ok (.redirected redirect), e) => (.redirected redirect, e)
  | (.ok response, e) => (.done (result response), e)

def valueAndFound : Response → String × Bool
  | .value value found => (value, found)
  | _ => ("", false)

namespace Client

def doOp (dial : String → Option String) (op : String → S → OpResult ρ × S) (turns : ℕ)
    (cl : Client) (e : S) : Client × Except String ρ × S :=
  Attempt.loop dial op turns ⟨cl, cl.leader, none⟩ e

variable (dial : String → Option String) (call : String → Rpc → S → Except String Response × S)
  (turns : ℕ) (cl : Client)

def put (key value : String) : S → Client × Except String Unit × S :=
  cl.doOp dial (ask call (.put key value) fun _ => ()) turns

def delete (key : String) : S → Client × Except String Unit × S :=
  cl.doOp dial (ask call (.delete key) fun _ => ()) turns

def get (key : String) : S → Client × Except String (String × Bool) × S :=
  cl.doOp dial (ask call (.get key) valueAndFound) turns

end Client

/-! ## Where the loop gets to -/

section Search

variable {σ D : Type} {M : StateMachine σ D} {c : ValidCluster} {settings : NodeId → Config}
  {s : System σ D} {dial : String → Option String} {op : String → S → OpResult ρ × S}
  {Inv : S → Prop} {Q : Proc σ D → ρ → Prop} {node : Node} {p q : Proc σ D} {a a' : Attempt}

theorem clientAddrs_none (c : ValidCluster) : clientAddrs c.toCluster None = "" := by
  refine foldl_update_of_not_mem ?_ _
  intro hmem
  obtain ⟨node, hn, hid⟩ := List.mem_map.mp hmem
  exact (c.wellFormed.filled node hn).1 hid

theorem redirect_named (hrun : Runs (System.step M c settings) Always System.init s) {n : NodeId}
    (hp : (s.hosts n).proc = some p) (hknown : p.node.leaderID ≠ None) :
    ∃ next ∈ c.nodes, next.id = p.node.leaderID ∧
      redirect c.toCluster p.node = ⟨next.id, next.clientAddr⟩ := by
  have hinted := hinted_of_runs hrun
  obtain ⟨next, hnext, hid⟩ := List.mem_map.mp (ValidCluster.mem_members.mp
    (hinted.member (hinted.known hp hknown)))
  refine ⟨next, hnext, hid, ?_⟩
  rw [redirect, ← hid, clientAddrs, clientAddrs_eq c.ids_nodup _ hnext]

/-- What the members answer while the cluster stays in a state: a process that does not lead
redirects by its hint, and one that leads returns a result. -/
structure Answers (c : ValidCluster) (s : System σ D) (Inv : S → Prop) (Q : Proc σ D → ρ → Prop)
    (op : String → S → OpResult ρ × S) : Prop where
  kept : ∀ addr e, Inv e → Inv (op addr e).2
  stranger : ∀ addr e, Inv e → (∀ node ∈ c.nodes, node.clientAddr ≠ addr) →
    ∃ err, (op addr e).1 = .failed err
  down : ∀ node ∈ c.nodes, ∀ e, Inv e → (s.hosts node.id).proc = none →
    ∃ err, (op node.clientAddr e).1 = .failed err
  redirects : ∀ node ∈ c.nodes, ∀ e p, Inv e → (s.hosts node.id).proc = some p →
    p.node.state ≠ .leader → (op node.clientAddr e).1 = .redirected (redirect c.toCluster p.node)
  leads : ∀ node ∈ c.nodes, ∀ e p, Inv e → (s.hosts node.id).proc = some p →
    p.node.state = .leader → ∃ r, (op node.clientAddr e).1 = .done r ∧ Q p r

structure Found (c : ValidCluster) (s : System σ D) (Inv : S → Prop) (Q : Proc σ D → ρ → Prop)
    (cl : Client) (r : ρ) (e : S) : Prop where
  inv : Inv e
  leads : ∃ node ∈ c.nodes, ∃ p, cl.leader = node.clientAddr ∧ (s.hosts node.id).proc = some p ∧
    p.node.state = .leader ∧ Q p r

variable (c s Inv Q dial op) in
def Ends (bound : ℕ) (a : Attempt) : Prop :=
  ∀ e turns, Inv e → bound ≤ turns →
    ∃ cl r e', a.loop dial op turns e = (cl, .ok r, e') ∧ Found c s Inv Q cl r e'

theorem Ends.mono {b b' : ℕ} (h : Ends c s dial op Inv Q b a) (hle : b ≤ b') :
    Ends c s dial op Inv Q b' a := fun e turns he ht => h e turns he (hle.trans ht)

theorem kv_ok {cl cl' : Client} {addr : String} (h : cl.kv dial addr = .ok cl') :
    cl'.cluster = cl.cluster ∧ cl'.rr = cl.rr := by
  rw [Client.kv] at h
  split at h
  · cases h
    exact ⟨rfl, rfl⟩
  split at h <;> cases h
  exact ⟨rfl, rfl⟩

theorem turn_of_ne (h : a.addr ≠ "") (e : S) : a.turn dial op e =
    match a.client.kv dial a.addr with
    | .error err => (.inl ⟨a.client, "", some err⟩, e)
    | .ok cl =>
      match op a.addr e with
      | (.failed err, e) => (.inl ⟨cl, "", some err⟩, e)
      | (.redirected redirect, e) =>
        (.inl ⟨cl, redirect.leaderAddr, some "no leader elected yet"⟩, e)
      | (.done result, e) => (.inr ({ cl with leader := a.addr }, result), e) := by
  rw [Attempt.turn, if_neg h]

theorem turn_blank (h : a.addr = "") (e : S) : a.turn dial op e =
    (Attempt.mk a.client.nextAddr.1 a.client.nextAddr.2 a.lastErr).turn dial op e := by
  have hne : a.client.nextAddr.2 ≠ "" := a.client.cluster.clientAddr_ne (List.get_mem _ _)
  rw [Attempt.turn, if_pos h, Attempt.turn, if_neg hne]

theorem ends_succ {b : ℕ} (h : ∀ e, Inv e →
      (∃ a' e', a.turn dial op e = (.inl a', e') ∧ Inv e' ∧ Ends c s dial op Inv Q b a') ∨
      ∃ cl r e', a.turn dial op e = (.inr (cl, r), e') ∧ Found c s Inv Q cl r e') :
    Ends c s dial op Inv Q (b + 1) a := by
  intro e turns he ht
  obtain ⟨turns, rfl⟩ := Nat.exists_eq_add_of_le' ht
  rw [← Nat.add_assoc, Attempt.loop]
  rcases h e he with ⟨a', e', hturn, he', hends⟩ | ⟨cl, r, e', hturn, hfound⟩
  · rw [hturn]
    exact hends e' _ he' (Nat.le_add_left _ _)
  · rw [hturn]
    exact ⟨cl, r, e', rfl, hfound⟩

theorem ends_turn {b : ℕ} (hans : Answers c s Inv Q op) (haddr : a.addr ≠ "")
    (hblank : ∀ a' : Attempt, a'.addr = "" → a'.client.cluster = a.client.cluster →
      a'.client.rr = a.client.rr → Ends c s dial op Inv Q b a')
    (hop : ∀ e, Inv e → (∃ err, (op a.addr e).1 = .failed err) ∨
      (∃ r, (op a.addr e).1 = .redirected r ∧ ∀ a' : Attempt, a'.addr = r.leaderAddr →
        a'.client.cluster = a.client.cluster → a'.client.rr = a.client.rr →
        Ends c s dial op Inv Q b a') ∨
      ∃ r, (op a.addr e).1 = .done r ∧ ∃ node ∈ c.nodes, ∃ p, a.addr = node.clientAddr ∧
        (s.hosts node.id).proc = some p ∧ p.node.state = .leader ∧ Q p r) :
    Ends c s dial op Inv Q (b + 1) a := by
  refine ends_succ fun e he => ?_
  rw [turn_of_ne haddr]
  cases hkv : a.client.kv dial a.addr with
  | error err => exact Or.inl ⟨_, e, rfl, he, hblank _ rfl rfl rfl⟩
  | ok cl =>
    obtain ⟨hcluster, hrr⟩ := kv_ok hkv
    have hkept := hans.kept a.addr e he
    have hanswer := hop e he
    generalize op a.addr e = x at hkept hanswer
    obtain ⟨result, e'⟩ := x
    rcases hanswer with ⟨err, heq⟩ | ⟨r, heq, hthere⟩ | ⟨r, heq, node, hn, p, hlead⟩
    · cases heq
      exact Or.inl ⟨_, e', rfl, hkept, hblank _ rfl hcluster hrr⟩
    · cases heq
      exact Or.inl ⟨_, e', rfl, hkept, hthere _ rfl hcluster hrr⟩
    · cases heq
      exact Or.inr ⟨_, r, e', rfl, hkept, node, hn, p, hlead⟩

def later (c : ValidCluster) (s : System σ D) (T : ℕ) : Finset NodeId :=
  c.members.filter fun m => (s.hosts m).proc.any fun q => decide (T < q.node.currentTerm)

theorem later_card_lt {T : ℕ} (hn : node ∈ c.nodes) (hq : (s.hosts node.id).proc = some q)
    (hlt : T < q.node.currentTerm) :
    (later c s q.node.currentTerm).card < (later c s T).card := by
  refine Finset.card_lt_card ((Finset.ssubset_iff_of_subset ?_).mpr ⟨node.id, ?_, ?_⟩)
  · intro m hm
    simp only [later, Finset.mem_filter, Option.any_eq_true, decide_eq_true_eq] at hm ⊢
    obtain ⟨hmem, x, hx, hle⟩ := hm
    exact ⟨hmem, x, hx, hlt.trans hle⟩
  · have hmem : node.id ∈ c.members := ValidCluster.mem_members.mpr (List.mem_map_of_mem hn)
    simp [later, hmem, hq, hlt]
  · simp [later, hq]

section Chain

variable {b rr : ℕ} (hans : Answers c s Inv Q op)
  (hblank : ∀ a' : Attempt, a'.addr = "" → a'.client.cluster = c → a'.client.rr = rr →
    Ends c s dial op Inv Q b a')

include hans hblank

theorem ends_short (hn : node ∈ c.nodes) (haddr : a.addr = node.clientAddr)
    (hcluster : a.client.cluster = c) (hrr : a.client.rr = rr)
    (hproc : ∀ p, (s.hosts node.id).proc = some p →
      p.node.state = .leader ∨ p.node.leaderID = None) :
    Ends c s dial op Inv Q (b + 1) a := by
  refine ends_turn hans (by rw [haddr]; exact c.clientAddr_ne hn)
    (fun a' h hc hr => hblank a' h (hc.trans hcluster) (hr.trans hrr)) fun e he => ?_
  rw [haddr]
  cases hp : (s.hosts node.id).proc with
  | none => exact Or.inl (hans.down node hn e he hp)
  | some p =>
    by_cases hlead : p.node.state = .leader
    · obtain ⟨r, hr, hq⟩ := hans.leads node hn e p he hp hlead
      exact Or.inr (Or.inr ⟨r, hr, node, hn, p, rfl, hp, hlead, hq⟩)
    · refine Or.inr (Or.inl ⟨_, hans.redirects node hn e p he hp hlead, fun a' h hc hr => ?_⟩)
      have hnone : p.node.leaderID = None := (hproc p hp).resolve_left hlead
      refine hblank a' (h.trans ?_) (hc.trans hcluster) (hr.trans hrr)
      rw [redirect, hnone]
      exact clientAddrs_none c

/-- From a node in some term, the redirects come to an end within the members of later terms. -/
theorem ends_at_node (hrun : Runs (System.step M c settings) Always System.init s) (k : ℕ)
    (hn : node ∈ c.nodes) (hp : (s.hosts node.id).proc = some p)
    (hk : (later c s p.node.currentTerm).card ≤ k) (haddr : a.addr = node.clientAddr)
    (hcluster : a.client.cluster = c) (hrr : a.client.rr = rr) :
    Ends c s dial op Inv Q (b + k + 2) a := by
  induction k using Nat.strongRecOn generalizing a node p with
  | _ k ih =>
    by_cases hshort : p.node.state = .leader ∨ p.node.leaderID = None
    · refine (ends_short hans hblank hn haddr hcluster hrr ?_).mono (by omega)
      intro p' hp'
      cases hp.symm.trans hp'
      exact hshort
    obtain ⟨hlead, hknown⟩ := not_or.mp hshort
    obtain ⟨next, hnext, hid, hredirect⟩ := redirect_named hrun hp hknown
    refine ends_turn hans (by rw [haddr]; exact c.clientAddr_ne hn)
      (fun a' h hc hr => (hblank a' h (hc.trans hcluster) (hr.trans hrr)).mono (by omega))
      fun e he => ?_
    rw [haddr]
    refine Or.inr (Or.inl ⟨_, hans.redirects node hn e p he hp hlead, fun a' h hc hr => ?_⟩)
    rw [hredirect] at h
    by_cases hstop : ∀ q, (s.hosts next.id).proc = some q →
        q.node.state = .leader ∨ q.node.leaderID = None
    · have hends := ends_short hans hblank hnext h (hc.trans hcluster) (hr.trans hrr) hstop
      exact hends.mono (by omega)
    · simp only [not_forall, not_or] at hstop
      obtain ⟨q, hq, hlead', hknown'⟩ := hstop
      have hlt : p.node.currentTerm < q.node.currentTerm := by
        rcases hints_climb hrun hp hknown (by rw [← hid]; exact hq) with h | h | h
        · exact absurd h hlead'
        · exact absurd h hknown'
        · exact h
      have hcard := later_card_lt hnext hq hlt
      exact (ih (k - 1) (by omega) hnext hq (by omega) h (hc.trans hcluster)
        (hr.trans hrr)).mono (by omega)

theorem ends_at (hrun : Runs (System.step M c settings) Always System.init s) (haddr : a.addr ≠ "")
    (hcluster : a.client.cluster = c) (hrr : a.client.rr = rr) :
    Ends c s dial op Inv Q (b + c.nodes.length + 2) a := by
  by_cases hmember : ∃ node ∈ c.nodes, node.clientAddr = a.addr
  · obtain ⟨node, hn, heq⟩ := hmember
    cases hp : (s.hosts node.id).proc with
    | none =>
      refine (ends_short hans hblank hn heq.symm hcluster hrr ?_).mono (by omega)
      intro p hp'
      cases hp.symm.trans hp'
    | some p =>
      have hcard : (later c s p.node.currentTerm).card ≤ c.nodes.length := by
        rw [← ValidCluster.card_members]
        exact Finset.card_filter_le _ _
      exact ends_at_node hans hblank hrun _ hn hp hcard heq.symm hcluster hrr
  · have hends : Ends c s dial op Inv Q (b + 1) a := by
      refine ends_turn hans haddr
        (fun a' h hc hr => hblank a' h (hc.trans hcluster) (hr.trans hrr)) fun e he => ?_
      exact Or.inl (hans.stranger a.addr e he fun node hn heq => hmember ⟨node, hn, heq⟩)
    exact hends.mono (by omega)

end Chain

theorem ends_lead (hans : Answers c s Inv Q op) (hn : node ∈ c.nodes)
    (hp : (s.hosts node.id).proc = some p) (hlead : p.node.state = .leader)
    (hdial : dial node.clientAddr = none) (haddr : a.addr = node.clientAddr) :
    Ends c s dial op Inv Q 1 a := by
  refine ends_succ fun e he => Or.inr ?_
  rw [turn_of_ne (by rw [haddr]; exact c.clientAddr_ne hn), haddr]
  obtain ⟨r, hr, hq⟩ := hans.leads node hn e p he hp hlead
  have hkept := hans.kept node.clientAddr e he
  generalize op node.clientAddr e = x at hr hkept
  obtain ⟨result, e'⟩ := x
  cases hr
  cases hkv : a.client.kv dial node.clientAddr with
  | error err =>
    rw [Client.kv, hdial] at hkv
    split at hkv <;> cases hkv
  | ok cl => exact ⟨_, r, e', rfl, hkept, node, hn, p, rfl, hp, hlead, hq⟩

theorem ends_next {b : ℕ} (haddr : a.addr = "")
    (h : Ends c s dial op Inv Q (b + 1) ⟨a.client.nextAddr.1, a.client.nextAddr.2, a.lastErr⟩) :
    Ends c s dial op Inv Q (b + 1) a := by
  intro e turns he ht
  have hloop := h e turns he ht
  obtain ⟨turns, rfl⟩ := Nat.exists_eq_add_of_le' ht
  rw [← Nat.add_assoc, Attempt.loop] at hloop ⊢
  rwa [turn_blank haddr]

theorem ends_blank (hrun : Runs (System.step M c settings) Always System.init s)
    (hans : Answers c s Inv Q op) {i : ℕ} (hi : c.nodes[i]? = some node)
    (hp : (s.hosts node.id).proc = some p) (hlead : p.node.state = .leader)
    (hdial : dial node.clientAddr = none) (d : ℕ) (haddr : a.addr = "")
    (hcluster : a.client.cluster = c) (hd : (a.client.rr + 1 + d) % c.nodes.length = i) :
    Ends c s dial op Inv Q ((d + 1) * (c.nodes.length + 2)) a := by
  induction d generalizing a with
  | zero =>
    have hnext : a.client.next = node := by
      subst hcluster
      rw [← hd, List.getElem?_eq_some_iff] at hi
      exact hi.2
    rw [Nat.zero_add, Nat.one_mul]
    refine ends_next haddr ((ends_lead hans (List.mem_of_getElem? hi) hp hlead hdial ?_).mono
      (by omega))
    rw [Client.nextAddr, hnext]
  | succ d ih =>
    have hmem : a.client.next ∈ c.nodes := by
      subst hcluster
      exact List.get_mem _ _
    have hbound : (d + 1 + 1) * (c.nodes.length + 2) =
        (d + 1) * (c.nodes.length + 2) + c.nodes.length + 1 + 1 := by ring
    rw [hbound]
    refine ends_next haddr (ends_at hans ?_ hrun (c.clientAddr_ne hmem) hcluster rfl)
    intro a' h hc hr
    refine ih h hc ?_
    rw [show a'.client.rr = a.client.rr + 1 from hr, ← hd]
    congr 1
    omega

theorem exists_rotation {N i : ℕ} (hi : i < N) (rr : ℕ) : ∃ d < N, (rr + d) % N = i := by
  refine ⟨(i + (N - 1) * rr) % N, Nat.mod_lt _ (by omega), ?_⟩
  have hsum : rr + (i + (N - 1) * rr) = i + N * rr := by
    obtain ⟨N, rfl⟩ := Nat.exists_eq_add_of_lt hi
    simp
    ring
  rw [Nat.add_mod_mod, hsum, Nat.add_mul_mod_self_left, Nat.mod_eq_of_lt hi]

/-- While the cluster stays in a state in which a node leads, the loop comes to its end within
the given number of turns, whatever the client remembers. -/
theorem doOp_ends (hrun : Runs (System.step M c settings) Always System.init s)
    (hans : Answers c s Inv Q op) (hn : node ∈ c.nodes) (hp : (s.hosts node.id).proc = some p)
    (hlead : p.node.state = .leader) (hdial : dial node.clientAddr = none) {cl : Client}
    (hcluster : cl.cluster = c) {turns : ℕ}
    (hturns : (c.nodes.length + 1) * (c.nodes.length + 2) ≤ turns) {e : S} (he : Inv e) :
    ∃ cl' r e', cl.doOp dial op turns e = (cl', .ok r, e') ∧ Found c s Inv Q cl' r e' := by
  obtain ⟨i, hi⟩ := List.getElem?_of_mem hn
  have hlt : i < c.nodes.length := (List.getElem?_eq_some_iff.mp hi).1
  have hblank : ∀ a : Attempt, a.addr = "" → a.client.cluster = c → a.client.rr = cl.rr →
      Ends c s dial op Inv Q (c.nodes.length * (c.nodes.length + 2)) a := by
    intro a haddr hc hr
    obtain ⟨d, hd, hrot⟩ := exists_rotation hlt (a.client.rr + 1)
    refine (ends_blank hrun hans hi hp hlead hdial d haddr hc hrot).mono ?_
    exact Nat.mul_le_mul_right _ hd
  have hbound : (c.nodes.length + 1) * (c.nodes.length + 2) =
      c.nodes.length * (c.nodes.length + 2) + c.nodes.length + 2 := by ring
  by_cases haddr : cl.leader = ""
  · exact (hblank ⟨cl, cl.leader, none⟩ haddr hcluster rfl).mono (by omega) e turns he hturns
  · exact (ends_at hans hblank hrun haddr hcluster rfl).mono (by omega) e turns he hturns

end Search

/-! ## Against the service -/

section Serving

variable {json : Json} {c : ValidCluster} {settings : NodeId → Config} {s t : Service}
  {node : Node} {p : KvProc} {rpc : Rpc} {call call' : RpcCall}

/-- A call of a method at an address; the events are what else happens until the method has
nothing to wait for. A connection breaks with the process at its other end. -/
def serve (json : Json) (c : ValidCluster) (settings : NodeId → Config) (es : List ServiceEvent)
    (addr : String) (rpc : Rpc) (s : Service) : Except String Response × Service :=
  match c.nodes.find? (·.clientAddr = addr) with
  | none => (.error "unavailable", s)
  | some node =>
    match s.invoke json node.id rpc with
    | none => (.error "unavailable", s)
    | some s₁ =>
      match s₁.calls[s.calls.length]? with
      | none => (.error "unavailable", s₁)
      | some _ =>
        match exec (Service.step json c settings) (fun _ _ => true) s₁ es with
        | none => (.error Attempt.deadlineExceeded, s₁)
        | some s₂ =>
          let s₃ := (s₂.proceed c.toCluster s.calls.length).getD s₂
          let s₄ := (s₃.proceed c.toCluster s.calls.length).getD s₃
          match s₄.calls[s.calls.length]?.map RpcCall.stage with
          | some (.answered (.failed _)) => (.error "failed", s₄)
          | some (.answered response) => (.ok response, s₄)
          | _ => (.error Attempt.deadlineExceeded, s₄)

theorem find_addr (hn : node ∈ c.nodes) :
    c.nodes.find? (·.clientAddr = node.clientAddr) = some node := by
  cases hfind : c.nodes.find? (·.clientAddr = node.clientAddr) with
  | none =>
    have hall := List.find?_eq_none.mp hfind node hn
    simp at hall
  | some node' =>
    have haddr := List.find?_some hfind
    rw [c.clientAddr_inj hn (List.mem_of_find?_eq_some hfind) (of_decide_eq_true haddr).symm]

theorem proceed_last (hp : (s.kv.raft.hosts call.node).proc = some p)
    (hinc : (s.kv.raft.hosts call.node).incarnation = call.incarnation) :
    Service.proceed c.toCluster ⟨s.kv, s.calls ++ [call]⟩ s.calls.length =
      (Service.advance c.toCluster ⟨s.kv, s.calls ++ [call]⟩ p call).map fun call =>
        ⟨s.kv, s.calls ++ [call]⟩ := by
  simp [Service.proceed, hp, hinc]

section Reading

variable (json settings) (key : String)

theorem ask_stranger {addr : String} (h : ∀ node ∈ c.nodes, node.clientAddr ≠ addr) :
    ask (serve json c settings []) (.get key) valueAndFound addr s =
      (.failed "unavailable", s) := by
  have hfind : c.nodes.find? (·.clientAddr = addr) = none := by
    simpa [List.find?_eq_none] using h
  simp [ask, serve, hfind]

theorem ask_down (hn : node ∈ c.nodes) (hp : (s.kv.raft.hosts node.id).proc = none) :
    ask (serve json c settings []) (.get key) valueAndFound node.clientAddr s =
      (.failed "unavailable", s) := by
  simp [ask, serve, find_addr hn, Service.invoke, hp]

theorem ask_follower (hn : node ∈ c.nodes) (hp : (s.kv.raft.hosts node.id).proc = some p)
    (hlead : p.node.state ≠ .leader) :
    ∃ t, t.kv = s.kv ∧ ask (serve json c settings []) (.get key) valueAndFound node.clientAddr s =
      (.redirected (redirect c.toCluster p.node), t) := by
  have hinvoke : s.invoke json node.id (.get key) =
      some (s.begin node.id (.get key) .redirecting) := by
    simp [Service.invoke, hp, RaftNode.status, hlead]
  simp [ask, serve, find_addr hn, hinvoke, Service.begin, exec, proceed_last, hp, Service.advance]

theorem ask_leader (hn : node ∈ c.nodes) (hp : (s.kv.raft.hosts node.id).proc = some p)
    (hlead : p.node.state = .leader) :
    ∃ t, t.kv = s.kv ∧ ask (serve json c settings []) (.get key) valueAndFound node.clientAddr s =
      (.done (p.machine.1.get key), t) := by
  have hinvoke : s.invoke json node.id (.get key) =
      some (s.begin node.id (.get key) (.reading key)) := by
    simp [Service.invoke, hp, RaftNode.status, hlead]
  simp [ask, serve, find_addr hn, hinvoke, Service.begin, exec, proceed_last, hp, Service.advance,
    valueAndFound]

theorem get_answers (s : Service) : Answers c s.kv.raft (fun e : Service => e.kv = s.kv)
    (fun p r => r = p.machine.1.get key)
    (ask (serve json c settings []) (.get key) valueAndFound) := by
  constructor
  · intro addr e he
    by_cases hmember : ∃ node ∈ c.nodes, node.clientAddr = addr
    · obtain ⟨node, hn, rfl⟩ := hmember
      cases hp : (e.kv.raft.hosts node.id).proc with
      | none =>
        rw [ask_down json settings key hn hp]
        exact he
      | some p =>
        by_cases hlead : p.node.state = .leader
        · obtain ⟨t, ht, hask⟩ := ask_leader json settings key hn hp hlead
          rw [hask]
          exact ht.trans he
        · obtain ⟨t, ht, hask⟩ := ask_follower json settings key hn hp hlead
          rw [hask]
          exact ht.trans he
    · rw [ask_stranger json settings key fun node hn heq => hmember ⟨node, hn, heq⟩]
      exact he
  · intro addr e he h
    exact ⟨_, by rw [ask_stranger json settings key h]⟩
  · intro node hn e he hp
    exact ⟨_, by rw [ask_down json settings key hn (he ▸ hp)]⟩
  · intro node hn e p he hp hlead
    obtain ⟨t, _, hask⟩ := ask_follower json settings key hn (s := e) (he ▸ hp) hlead
    rw [hask]
  · intro node hn e p he hp hlead
    obtain ⟨t, _, hask⟩ := ask_leader json settings key hn (s := e) (he ▸ hp) hlead
    exact ⟨_, by rw [hask], rfl⟩

end Reading

/-- While nothing else happens and some node leads, `get` returns what a leader has in its store:
the loop finds one within the given number of turns, from wherever the client starts. -/
theorem get_finds_leader (json : Json) (c : ValidCluster) (settings : NodeId → Config)
    {s : Service} (hs : ServiceRuns json c settings Service.init s) (node : Node)
    (hn : node ∈ c.nodes) {p : KvProc} (hp : (s.kv.raft.hosts node.id).proc = some p)
    (hlead : p.node.state = .leader) (dial : String → Option String)
    (hdial : dial node.clientAddr = none) (cl : Client) (hcl : cl.cluster = c) (turns : ℕ)
    (hturns : (c.nodes.length + 1) * (c.nodes.length + 2) ≤ turns) (key : String) :
    ∃ cl' t, ∃ node' ∈ c.nodes, ∃ p', (s.kv.raft.hosts node'.id).proc = some p' ∧
      p'.node.state = .leader ∧ cl'.leader = node'.clientAddr ∧
      cl.get dial (serve json c settings []) turns key s =
        (cl', .ok (p'.machine.1.get key), t) := by
  have hrun := raftRuns_of_runs (kvRuns_of_runs hs)
  obtain ⟨cl', r, t, hdo, hfound⟩ := doOp_ends hrun (get_answers json settings key s) hn hp hlead
    hdial hcl hturns (e := s) rfl
  obtain ⟨node', hn', p', haddr, hp', hlead', rfl⟩ := hfound.leads
  exact ⟨cl', t, node', hn', p', hp', hlead', haddr, hdo⟩

/-- The client remembers a node that knows no leader. -/
theorem get_finds_leader_trio :
    ∃ s p cl' t, serviceExec Service.init trioOpens = some s ∧
      (s.kv.raft.hosts "n1").proc = some p ∧ p.node.state = .leader ∧
      (∃ node' ∈ trio.nodes, ∃ p', (s.kv.raft.hosts node'.id).proc = some p' ∧
        p'.node.state = .leader ∧ cl'.leader = node'.clientAddr ∧
        Client.get (fun _ => none) (serve plainJson trio noSettings []) 20 ⟨trio, [], "h3:8001", 0⟩
          "k" s = (cl', .ok (p'.machine.1.get "k"), t)) := by
  have hrun : ((serviceExec Service.init trioOpens).any fun s =>
      (s.kv.raft.hosts "n1").proc.any fun p => decide (p.node.state = .leader)) = true := by
    decide +kernel
  obtain ⟨s, hs, hrest⟩ := (Option.any_eq_true _ _).mp hrun
  obtain ⟨p, hp, hlead⟩ := (Option.any_eq_true _ _).mp hrest
  have hlead := of_decide_eq_true hlead
  obtain ⟨cl', t, hfound⟩ := get_finds_leader plainJson trio noSettings (runs_of_serviceExec hs)
    ⟨"n1", "h1:7001", "h1:8001"⟩ (by decide) hp hlead (fun _ => none) rfl
    ⟨trio, [], "h3:8001", 0⟩ rfl 20 (by decide) "k"
  exact ⟨s, p, cl', t, hs, hp, hlead, hfound⟩

/-- A call runs the service on, and what it returns is the answer to a call of the method that
was made meanwhile. -/
def Serves (json : Json) (c : ValidCluster) (settings : NodeId → Config)
    (call : String → Rpc → Service → Except String Response × Service) : Prop :=
  ∀ addr rpc s, ServiceRuns json c settings s (call addr rpc s).2 ∧
    ∀ response, (call addr rpc s).1 = .ok response → (∀ answer, response ≠ .failed answer) ∧
      ∃ j x, s.calls.length ≤ j ∧ (call addr rpc s).2.calls[j]? = some x ∧ x.rpc = rpc ∧
        x.stage = .answered response

theorem runs_proceed (json : Json) (settings : NodeId → Config) (s : Service) (j : ℕ) :
    ServiceRuns json c settings s ((s.proceed c.toCluster j).getD s) := by
  cases h : s.proceed c.toCluster j with
  | none => exact .refl
  | some t =>
    have hst : s.step json c settings (.proceed j) = some t := h
    exact Runs.refl.tail trivial hst

theorem calls_length_le (h : ServiceRuns json c settings s t) :
    s.calls.length ≤ t.calls.length := by
  by_contra hlt
  have hlt : t.calls.length < s.calls.length := not_le.mp hlt
  obtain ⟨x, hx, _⟩ := calls_kept h (List.getElem?_eq_getElem hlt)
  simp at hx

theorem runs_rpc (h : ServiceRuns json c settings s t) {j : ℕ} (hs : s.calls[j]? = some call)
    (ht : t.calls[j]? = some call') : call'.rpc = call.rpc := by
  obtain ⟨x, hx, hkeeps⟩ := calls_kept h hs
  cases ht.symm.trans hx
  exact hkeeps.rpc

theorem write_last {n : NodeId} {cmd : Command} (h : s.write json n rpc cmd = some t)
    (hx : t.calls[s.calls.length]? = some call) : call.rpc = rpc := by
  rw [Service.write] at h
  obtain ⟨kv, _, rfl⟩ := Option.map_eq_some_iff.mp h
  dsimp only at hx
  split at hx
  · simp only [List.getElem?_concat_length, Option.some.injEq] at hx
    rw [← hx]
  · simp at hx

theorem invoke_last {n : NodeId} (h : s.invoke json n rpc = some t)
    (hx : t.calls[s.calls.length]? = some call) : call.rpc = rpc := by
  rw [Service.invoke] at h
  split at h
  · cases h
  cases rpc with
  | put key value => exact write_last h hx
  | delete key => exact write_last h hx
  | get key =>
    dsimp only at h
    split at h <;> cases h <;>
    · simp only [Service.begin, List.getElem?_concat_length, Option.some.injEq] at hx
      rw [← hx]
  | status =>
    cases h
    simp only [Service.begin, List.getElem?_concat_length, Option.some.injEq] at hx
    rw [← hx]

theorem serve_serves (es : List ServiceEvent) :
    Serves json c settings (serve json c settings es) := by
  intro addr rpc s
  rw [serve]
  split
  · exact ⟨.refl, by rintro _ ⟨⟩⟩
  rename_i node _
  split
  · exact ⟨.refl, by rintro _ ⟨⟩⟩
  rename_i s₁ hinvoke
  have hst : s.step json c settings (.invoke node.id rpc) = some s₁ := hinvoke
  have hruns₁ : ServiceRuns json c settings s s₁ := Runs.refl.tail trivial hst
  split
  · exact ⟨hruns₁, by rintro _ ⟨⟩⟩
  rename_i x₁ hx₁
  split
  · exact ⟨hruns₁, by rintro _ ⟨⟩⟩
  rename_i s₂ hexec
  dsimp only
  have hruns₂ : ServiceRuns json c settings s₁ s₂ := runs_of_exec (fun _ _ _ => trivial) es hexec
  have hruns₃ := runs_proceed (c := c) json settings s₂ s.calls.length
  generalize (s₂.proceed c.toCluster s.calls.length).getD s₂ = s₃ at hruns₃
  have hruns₄ := runs_proceed (c := c) json settings s₃ s.calls.length
  generalize (s₃.proceed c.toCluster s.calls.length).getD s₃ = s₄ at hruns₄
  have hall := ((hruns₁.trans hruns₂).trans hruns₃).trans hruns₄
  split
  · exact ⟨hall, by rintro _ ⟨⟩⟩
  · rename_i response hne hstage
    obtain ⟨x, hx, hstage⟩ := Option.map_eq_some_iff.mp hstage
    refine ⟨hall, ?_⟩
    rintro _ ⟨⟩
    refine ⟨fun answer heq => hne answer (by rw [heq]), s.calls.length, x, le_rfl, hx, ?_, hstage⟩
    rw [runs_rpc ((hruns₂.trans hruns₃).trans hruns₄) hx₁ hx]
    exact invoke_last hinvoke hx₁
  · exact ⟨hall, by rintro _ ⟨⟩⟩

def Suits (rpc : Rpc) : RpcStage → Prop
  | .proposing _ | .answered .written | .answered (.failed _) => rpc.command ≠ none
  | .redirecting | .answered (.redirected _) => rpc ≠ .status
  | .reading key => rpc = .get key
  | .answered (.value _ _) => ∃ key, rpc = .get key
  | .counting _ | .answered (.status _) => rpc = .status

theorem Suits.continues (h : Suits call.rpc call.stage) (hc : Continues s p call call') :
    Suits call'.rpc call'.stage := by
  cases hc with
  | returns k q answer hst _ _ =>
    rw [hst] at h
    cases answer with
    | notLeader =>
      rintro hstatus
      rw [hstatus] at h
      exact h rfl
    | _ => exact h
  | redirects redirect hst =>
    rw [hst] at h
    exact h
  | reads key hst =>
    rw [hst] at h
    exact ⟨key, h⟩
  | reports st hst =>
    rw [hst] at h
    exact h

theorem suits_of_runs (hs : ServiceRuns json c settings Service.init s) :
    ∀ call ∈ s.calls, Suits call.rpc call.stage := by
  induction hs with
  | refl => exact List.forall_mem_nil _
  | tail _ _ hst ih =>
    intro call hc
    cases served_of_step hst with
    | ran => exact ih call hc
    | wrote n rpc kv q _ hcmd =>
      rcases List.mem_append.mp hc with hc | hc
      · exact ih call hc
      · rw [List.mem_singleton.mp hc]
        change rpc.command ≠ none
        rw [hcmd]
        exact Option.some_ne_none _
    | began n p rpc stage _ hbegins =>
      rcases List.mem_append.mp hc with hc | hc
      · exact ih call hc
      · rw [List.mem_singleton.mp hc]
        cases hbegins with
        | redirects key => exact (nomatch ·)
        | reads key => rfl
        | reports => rfl
    | advanced j p old new hj _ _ hadv =>
      rcases List.mem_or_eq_of_mem_set hc with hc | rfl
      · exact ih call hc
      · exact (ih old (List.mem_of_getElem? hj)).continues hadv

theorem turn_cases (dial : String → Option String) (op : String → S → OpResult ρ × S)
    (a : Attempt) (e : S) : (∃ a', a.turn dial op e = (.inl a', e)) ∨
      ∃ addr, (∃ a', a.turn dial op e = (.inl a', (op addr e).2)) ∨
        ∃ cl r, (op addr e).1 = .done r ∧ a.turn dial op e = (.inr (cl, r), (op addr e).2) := by
  rw [Attempt.turn]
  generalize (if a.addr = "" then a.client.nextAddr else (a.client, a.addr)) = x
  obtain ⟨cl, addr⟩ := x
  dsimp only
  cases cl.kv dial addr with
  | error err => exact Or.inl ⟨_, rfl⟩
  | ok cl =>
    right
    refine ⟨addr, ?_⟩
    rcases op addr e with ⟨result, e'⟩
    cases result with
    | failed err => exact Or.inl ⟨_, rfl⟩
    | redirected redirect => exact Or.inl ⟨_, rfl⟩
    | done r => exact Or.inr ⟨_, r, rfl, rfl⟩

variable {invoke : String → Rpc → Service → Except String Response × Service}

theorem ask_state (result : Response → ρ) (addr : String) (s : Service) :
    (ask invoke rpc result addr s).2 = (invoke addr rpc s).2 := by
  rw [ask]
  split <;> simp only [*]

theorem ask_done {result : Response → ρ} {addr : String} {r : ρ}
    (h : (ask invoke rpc result addr s).1 = .done r) :
    ∃ response, (invoke addr rpc s).1 = .ok response ∧
      ∀ redirect, response ≠ .redirected redirect := by
  rw [ask] at h
  split at h
  · cases h
  · cases h
  · rename_i response t hne heq
    refine ⟨response, by rw [heq], ?_⟩
    rintro redirect rfl
    exact hne redirect rfl

/-- The loop runs the service on, and its result is the answer to a call that it made. -/
theorem loop_serves (hserves : Serves json c settings invoke) {dial : String → Option String}
    {result : Response → ρ} {turns : ℕ} {a : Attempt} {cl : Client} {r : Except String ρ}
    (h : a.loop dial (ask invoke rpc result) turns s = (cl, r, t)) :
    ServiceRuns json c settings s t ∧ ∀ x, r = .ok x →
      ∃ j y response, s.calls.length ≤ j ∧ t.calls[j]? = some y ∧ y.rpc = rpc ∧
        y.stage = .answered response ∧ (∀ redirect, response ≠ .redirected redirect) ∧
        ∀ answer, response ≠ .failed answer := by
  induction turns generalizing a s with
  | zero =>
    rw [Attempt.loop] at h
    cases h
    exact ⟨.refl, by rintro _ ⟨⟩⟩
  | succ turns ih =>
    rw [Attempt.loop] at h
    rcases turn_cases dial (ask invoke rpc result) a s with
      ⟨a', hturn⟩ | ⟨addr, ⟨a', hturn⟩ | ⟨cl', r', hdone, hturn⟩⟩
    · rw [hturn] at h
      exact ih h
    · rw [hturn, ask_state] at h
      have hruns := (hserves addr rpc s).1
      obtain ⟨hlater, hresult⟩ := ih h
      refine ⟨hruns.trans hlater, fun x hx => ?_⟩
      obtain ⟨j, y, response, hj, hrest⟩ := hresult x hx
      exact ⟨j, y, response, (calls_length_le hruns).trans hj, hrest⟩
    · rw [hturn, ask_state] at h
      cases h
      obtain ⟨hruns, hanswer⟩ := hserves addr rpc s
      obtain ⟨response, hok, hredirect⟩ := ask_done hdone
      obtain ⟨hfailed, j, y, hj, hy, hrpc, hstage⟩ := hanswer response hok
      exact ⟨hruns, fun x _ => ⟨j, y, response, hj, hy, hrpc, hstage, hredirect, hfailed⟩⟩

/-- When `put` or `delete` returns without an error, its command has been applied, by a call that
the client made, behind everything that any client had been told before. -/
theorem write_applied (json : Json) (hjson : ∀ l, json.RoundTripsMap (replay json l).m)
    (c : ValidCluster) (settings : NodeId → Config) {s t : Service}
    (hs : ServiceRuns json c settings Service.init s)
    {invoke : String → Rpc → Service → Except String Response × Service}
    (hserves : Serves json c settings invoke) {rpc : Rpc} {cmd : Command}
    (hcmd : rpc.command = some cmd) {dial : String → Option String} {turns : ℕ} {cl cl' : Client}
    (hdo : cl.doOp dial (ask invoke rpc fun _ => ()) turns s = (cl', .ok (), t)) :
    ∃ j x e, s.calls.length ≤ j ∧ t.calls[j]? = some x ∧ x.rpc = rpc ∧
      x.stage = .answered .written ∧ t.Appends json x e ∧
      Observation.applied x.node x.incarnation e ∈ t.kv.raft.trace ∧
      ∀ y ∈ s.calls, ∀ k, s.position y = some k → k < e.index := by
  obtain ⟨hruns, hresult⟩ := loop_serves hserves hdo
  obtain ⟨j, x, response, hj, hx, rfl, hstage, hredirect, hfailed⟩ := hresult () rfl
  have ht := hs.trans hruns
  have hmem := List.mem_of_getElem? hx
  have hsuits := suits_of_runs ht x hmem
  have hwritten : x.stage = .answered .written := by
    rw [hstage] at hsuits ⊢
    cases response with
    | written => rfl
    | redirected redirect => exact absurd rfl (hredirect redirect)
    | failed answer => exact absurd rfl (hfailed answer)
    | value v found =>
      obtain ⟨key, hget⟩ := hsuits
      rw [hget] at hcmd
      cases hcmd
    | status st =>
      rw [show x.rpc = .status from hsuits] at hcmd
      cases hcmd
  obtain ⟨e, happends, _, happ⟩ := written_applied ht (ServiceOk.of_runs hjson ht) hmem hwritten
  refine ⟨j, x, e, hj, hx, rfl, hwritten, happends, happ, fun y hy k hpos => ?_⟩
  obtain ⟨a, ha, hagreed⟩ :=
    exists_agreed_account (Represents.nothing _) (raftRuns_of_runs (kvRuns_of_runs hs))
  exact (position_chosen hs (ServiceOk.of_runs hjson hs) ha hagreed hy hpos).trans_lt
    (late_append ha hruns hj hx happends happ)

def trioReplicates : List ServiceEvent :=
  [.kv (.register 1), .kv (.raft (.act "n1" (.replicate 1))), .kv (.raft (.deliver 4)),
    .kv (.raft (.receive 2)), .kv (.applier "n1"), .kv (.applier "n1"), .kv (.applier "n1"),
    .kv (.take "n1"), .kv (.send "n1"), .kv (.receive 1)]

theorem write_applied_trio :
    ∃ s first cl' t, serviceExec Service.init trioOpens = some s ∧ s.calls[0]? = some first ∧
      s.position first = some 1 ∧
      Client.put (fun _ => none) (serve plainJson trio noSettings trioReplicates) 1
        ⟨trio, [], "h1:8001", 0⟩ "k" "2" s = (cl', .ok (), t) ∧
      ∃ (j : ℕ) (x : RpcCall) (e : LogEntry), t.calls[j]? = some x ∧ x.rpc = .put "k" "2" ∧
        x.stage = .answered .written ∧ t.Appends plainJson x e ∧ 1 < e.index := by
  have hrun : ((serviceExec Service.init trioOpens).bind fun s => s.calls[0]?.map fun first =>
      decide (s.position first = some 1) &&
      match (Client.put (fun _ => none) (serve plainJson trio noSettings trioReplicates) 1
        ⟨trio, [], "h1:8001", 0⟩ "k" "2" s).2.1 with
      | .ok () => true
      | .error _ => false) = some true := by decide +kernel
  obtain ⟨s, hs, hrest⟩ := Option.bind_eq_some_iff.mp hrun
  obtain ⟨first, hfirst, hrest⟩ := Option.map_eq_some_iff.mp hrest
  obtain ⟨hpos, hok⟩ := Bool.and_eq_true_iff.mp hrest
  have hpos := of_decide_eq_true hpos
  cases hput : Client.put (fun _ => none) (serve plainJson trio noSettings trioReplicates) 1
    ⟨trio, [], "h1:8001", 0⟩ "k" "2" s with
  | mk cl' rest =>
    obtain ⟨r, t⟩ := rest
    rw [hput] at hok
    cases r with
    | error err => cases hok
    | ok u =>
      obtain ⟨j, x, e, _, hx, hrpc, hstage, happends, _, hbehind⟩ := write_applied plainJson
        plainJson_roundTripsMap trio noSettings (runs_of_serviceExec hs) (serve_serves _) rfl hput
      exact ⟨s, first, cl', t, hs, hfirst, hpos, hput, j, x, e, hx, hrpc, hstage, happends,
        hbehind first (List.mem_of_getElem? hfirst) 1 hpos⟩

end Serving

end Raftctl
