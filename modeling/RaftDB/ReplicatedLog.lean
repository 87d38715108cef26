import RaftDB.MajorityQuorum
import Mathlib.Logic.Function.Basic
import Mathlib.Data.Set.Insert

/-!
# A replicated log above a chosen prefix

An abstract leader-based log replication protocol over full logs. Every node keeps
a whole log, of which it may have sealed a prefix of chosen entries (`base`); leaders
are elected by quorums, ship segments of their logs, and record what a quorum has
confirmed. The histories (`voted`, `candidacy`, `winner`, `leaderLog`, `confirmed`,
`chosen`, `commits`) only grow. A chosen prefix may be installed at a node whatever
the term of the node; `stale` records that one arrived whose commit is of a later
term than the node's.
-/
namespace ReplicatedLog

open MajorityQuorum

inductive Role where
  | follower
  | candidate
  | leader
  deriving DecidableEq, Repr

/-- A candidate's log when it stood, and whether every term won by then was earlier. -/
structure Candidacy (E : Type*) where
  log : List E
  timely : Prop

/-- A prefix of a leader's log, ending with an entry of its own term, that a quorum held. -/
structure Commit (N : Type*) where
  term : ℕ
  pos : ℕ
  quorum : Finset N

structure State (N E : Type*) where
  term : N → ℕ
  role : N → Role
  log : N → List E
  base : N → ℕ
  commit : N → ℕ
  voted : N → ℕ → Option N
  candidacy : N → ℕ → Option (Candidacy E)
  winner : ℕ → Option N
  electors : ℕ → Finset N
  inherited : ℕ → List E
  leaderLog : ℕ → List E
  confirmed : N → ℕ → ℕ
  chosen : List E
  commits : Set (Commit N)
  stale : Prop

def initial (N E : Type*) : State N E where
  term := fun _ => 0
  role := fun _ => .follower
  log := fun _ => []
  base := fun _ => 0
  commit := fun _ => 0
  voted := fun _ _ => none
  candidacy := fun _ _ => none
  winner := fun _ => none
  electors := fun _ => ∅
  inherited := fun _ => []
  leaderLog := fun _ => []
  confirmed := fun _ _ => 0
  chosen := []
  commits := ∅
  stale := False

variable {N E : Type*} [DecidableEq N] (tm : E → ℕ) (qs : QuorumSystem N)

def lastTerm (l : List E) : ℕ := (l.getLast?.map tm).getD 0

def termBefore (l : List E) : ℕ → ℕ
  | 0 => 0
  | n + 1 => (l[n]?.map tm).getD 0

/-- The election restriction: last terms first, then lengths. -/
def UpToDate (mine theirs : List E) : Prop :=
  lastTerm tm theirs < lastTerm tm mine ∨
    (lastTerm tm theirs = lastTerm tm mine ∧ theirs.length ≤ mine.length)

def SameTermAt (l m : List E) (i : ℕ) : Prop :=
  ∃ x y, l[i]? = some x ∧ m[i]? = some y ∧ tm x = tm y

/-- The outcome of walking the first `n` entries of `source` over a log from `start` on:
either all of them are there already, or the log is cut at the first difference. -/
inductive Grafted (source : List E) (start n : ℕ) (l : List E) : List E → Prop where
  | kept : (∀ i, start ≤ i → i < n → SameTermAt tm l source i) →
      Grafted source start n l l
  | cut (j : ℕ) : start ≤ j → j < n → j ≤ l.length →
      (∀ i, start ≤ i → i < j → SameTermAt tm l source i) →
      ¬ SameTermAt tm l source j →
      Grafted source start n l (l.take j ++ (source.take n).drop j)

section Predicates

variable (s : State N E)

def upTo (T i : ℕ) : List E := (s.leaderLog T).take (i + 1)

def Own (T i : ℕ) : Prop := ∃ e, (s.leaderLog T)[i]? = some e ∧ tm e = T

def CoveredBy (P : ℕ → Prop) (n : ℕ) : Prop :=
  n = 0 ∨ ∃ cm ∈ s.commits, P cm.term ∧ n ≤ cm.pos + 1

/-- The log extends the prefix, and only with entries of no earlier term. -/
def Holds (l : List E) (T i : ℕ) : Prop :=
  upTo s T i <+: l ∧ ∀ j e, i < j → l[j]? = some e → T ≤ tm e

def Beats (l : List E) (T i : ℕ) : Prop :=
  T < lastTerm tm l ∨ (lastTerm tm l = T ∧ i < l.length)

/-- A quorum has confirmed the position in its term, or still may. -/
def Committable (T i : ℕ) : Prop :=
  ∃ Q, qs.IsQuorum Q ∧ ∀ w ∈ Q, i < s.confirmed w T ∨ s.term w ≤ T

/-- The nodes of `P` still hold the prefix, they voted in later terms only for candidates
that beat it, and no later winner lacks it. -/
structure Secure (P : N → Prop) (T i : ℕ) : Prop where
  held : ∀ w, P w → Holds tm s (s.log w) T i
  votes : ∀ w c U r, P w → T < U → s.voted w U = some c → s.candidacy c U = some r →
    Beats tm r.log T i
  inherits : ∀ U, T < U → s.winner U ≠ none → upTo s T i <+: s.inherited U

def confirmers (T i : ℕ) (w : N) : Prop := i < s.confirmed w T

end Predicates

section Moves

open Function

variable (s : State N E)

def State.stood (c : N) : State N E :=
  { s with
    term := update s.term c (s.term c + 1)
    role := update s.role c .candidate
    voted := update s.voted c (update (s.voted c) (s.term c + 1) (some c))
    candidacy := update s.candidacy c (update (s.candidacy c) (s.term c + 1)
      (some ⟨s.log c, ∀ U, s.winner U ≠ none → U < s.term c + 1⟩)) }

def State.granted (w c : N) : State N E :=
  { s with voted := update s.voted w (update (s.voted w) (s.term w) (some c)) }

def State.elected (c : N) (Q : Finset N) : State N E :=
  { s with
    role := update s.role c .leader
    winner := update s.winner (s.term c) (some c)
    electors := update s.electors (s.term c) Q
    inherited := update s.inherited (s.term c) (s.log c)
    leaderLog := update s.leaderLog (s.term c) (s.log c)
    confirmed := update s.confirmed c (update (s.confirmed c) (s.term c) (s.log c).length) }

def State.proposed (c : N) (e : E) : State N E :=
  { s with
    log := update s.log c (s.log c ++ [e])
    leaderLog := update s.leaderLog (s.term c) (s.log c ++ [e])
    confirmed := update s.confirmed c
      (update (s.confirmed c) (s.term c) ((s.log c).length + 1)) }

/-- The node's log becomes `l`, which agrees with its leader on the first `n` positions. -/
def State.accepted (w : N) (n : ℕ) (l : List E) : State N E :=
  { s with
    log := update s.log w l
    confirmed := update s.confirmed w
      (update (s.confirmed w) (s.term w) (max (s.confirmed w (s.term w)) n)) }

open Classical in
noncomputable def reseated (l chosen : List E) (n : ℕ) : List E :=
  chosen.take n ++ if SameTermAt tm l chosen (n - 1) then l.drop n else []

noncomputable def State.installed (w : N) (n : ℕ) : State N E :=
  { s with
    log := update s.log w (reseated tm (s.log w) s.chosen n)
    base := update s.base w n
    commit := update s.commit w n
    stale := s.stale ∨ ¬ CoveredBy s (· ≤ s.term w) n }

def State.committed (c : N) (i : ℕ) (Q : Finset N) : State N E :=
  { s with
    commit := update s.commit c (i + 1)
    chosen := if s.chosen.length ≤ i then upTo s (s.term c) i else s.chosen
    commits := insert ⟨s.term c, i, Q⟩ s.commits }

end Moves

open Function in
/-- The moves of the protocol, with the node that makes them. A handler of a concrete node is
a sequence of moves of that node. -/
inductive Step : N → State N E → State N E → Prop where
  | observe (s : State N E) (w : N) (t : ℕ) : s.term w < t →
      Step w s { s with term := update s.term w t, role := update s.role w .follower }
  | relax (s : State N E) (w : N) (c : ℕ) : s.base w ≤ c → c ≤ s.commit w →
      Step w s { s with role := update s.role w .follower, commit := update s.commit w c }
  | stand (s : State N E) (c : N) : Step c s (s.stood c)
  | grant (s : State N E) (w c : N) (r : Candidacy E) : s.candidacy c (s.term w) = some r →
      (s.voted w (s.term w) = none ∨ s.voted w (s.term w) = some c) →
      UpToDate tm r.log (s.log w) →
      Step w s (s.granted w c)
  | elect (s : State N E) (c : N) (Q : Finset N) : s.role c = .candidate → qs.IsQuorum Q →
      (∀ w ∈ Q, s.voted w (s.term c) = some c) →
      Step c s (s.elected c Q)
  | propose (s : State N E) (c : N) (e : E) : s.role c = .leader → tm e = s.term c →
      Step c s (s.proposed c e)
  | accept (s : State N E) (w : N) (prev n : ℕ) (l : List E) : s.role w = .follower →
      s.winner (s.term w) ≠ none → prev ≤ n →
      n ≤ (s.leaderLog (s.term w)).length →
      (prev < s.base w ∨ prev ≤ (s.log w).length ∧
        termBefore tm (s.log w) prev = termBefore tm (s.leaderLog (s.term w)) prev) →
      Grafted tm (s.leaderLog (s.term w)) (max prev (s.base w)) n (s.log w) l →
      l.take (s.commit w) = (s.log w).take (s.commit w) →
      Step w s (s.accepted w n l)
  | learn (s : State N E) (w : N) (c : ℕ) : s.role w = .follower →
      s.commit w ≤ c → c ≤ (s.log w).length →
      (∀ i, s.base w ≤ i → i < c → (s.log w)[i]? = (s.leaderLog (s.term w))[i]?) →
      (s.leaderLog (s.term w)).take c <+: s.chosen →
      (s.stale ∨ CoveredBy s (· ≤ s.term w) c) →
      Step w s { s with commit := update s.commit w c }
  | install (s : State N E) (w : N) (n : ℕ) : s.role w = .follower →
      s.commit w < n → n ≤ s.chosen.length →
      Step w s (s.installed tm w n)
  | commitSecure (s : State N E) (c : N) (i : ℕ) (Q : Finset N) : s.role c = .leader →
      s.commit c ≤ i → qs.IsQuorum Q → (∀ w ∈ Q, i < s.confirmed w (s.term c)) →
      Own tm s (s.term c) i →
      Secure tm s (confirmers s (s.term c) i) (s.term c) i →
      (upTo s (s.term c) i <+: s.chosen ∨ s.chosen <+: upTo s (s.term c) i) →
      Step c s (s.committed c i Q)
  | commitCovered (s : State N E) (c : N) (i : ℕ) : s.role c = .leader → s.commit c ≤ i →
      i < (s.log c).length → s.stale → upTo s (s.term c) i <+: s.chosen →
      Step c s { s with commit := update s.commit c (i + 1) }
  | compact (s : State N E) (w : N) (n : ℕ) : s.base w ≤ n → n ≤ s.commit w →
      Step w s { s with base := update s.base w n }

end ReplicatedLog
