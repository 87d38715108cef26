import RaftDB.KvServer
import RaftDB.OneShotChannels

/-!
# The channels of the waiters

One server with any number of calls of `propose` and of `fireWaiter`, in any interleaving. The
node below is arbitrary: a proposal may be given any index and term, also one that was given
before, and any entry may be applied. The lock of the server is held over several steps where
`propose` sends under it. The right to send on the channel of a call goes from the map to the
goroutine that takes the waiter out of it, and is gone with the send.
-/
namespace Kv

open Raft TransitionSystem OneShot Function

structure Pending where
  index : ℕ
  term : ℕ
  stage : Stage
  deriving DecidableEq, Repr

/-- Where the call that registers its waiter stands, under the lock of the server: it sends on the
channel of the waiter that is in the way, then it puts its own into the map. -/
inductive Lock where
  | free
  | answering (k : ℕ) (c : Pending) (ch : ℕ)
  | storing (k : ℕ) (c : Pending)
  deriving DecidableEq, Repr

/-- One server. Calls and their channels have the same names, and a channel is a buffer for one
value. The history of the sends is kept for the specification only. -/
structure Endpoint where
  waiters : ℕ → Option Waiter
  calls : ℕ → Option Pending
  buffer : ℕ → Option Answer
  fires : ℕ → Firing
  lock : Lock
  sends : List ℕ

inductive EndpointEvent where
  | propose (k index term : ℕ)
  | lock (k : ℕ)
  | answer
  | store
  | receive (k : ℕ)
  | expire (k : ℕ)
  | giveUp (k : ℕ)
  | fire (j : ℕ) (entry : LogEntry)
  | take (j : ℕ)
  | send (j : ℕ)

namespace Endpoint

def init : Endpoint := ⟨fun _ => none, fun _ => none, fun _ => none, fun _ => .idle, .free, []⟩

def sendTo (e : Endpoint) (k : ℕ) (answer : Answer) : Option Endpoint :=
  match e.buffer k with
  | some _ => none
  | none => some { e with
      buffer := update e.buffer k (some answer)
      sends := k :: e.sends }

def setStage (e : Endpoint) (k : ℕ) (c : Pending) (stage : Stage) : Endpoint :=
  { e with calls := update e.calls k (some { c with stage := stage }) }

def setWaiter (e : Endpoint) (index : ℕ) (w : Option Waiter) : Endpoint :=
  { e with waiters := update e.waiters index w }

def setFiring (e : Endpoint) (j : ℕ) (firing : Firing) : Endpoint :=
  { e with fires := update e.fires j firing }

def stepCall (e : Endpoint) (k : ℕ) (stage : Stage) (f : Pending → Option Endpoint) :
    Option Endpoint :=
  match e.calls k with
  | none => none
  | some c => if c.stage = stage then f c else none

def locked (e : Endpoint) (e' : Option Endpoint) : Option Endpoint :=
  if e.lock = .free then e' else none

def step (e : Endpoint) : EndpointEvent → Option Endpoint
  | .propose k index term =>
    match e.calls k with
    | some _ => none
    | none => some { e with
        calls := update e.calls k (some ⟨index, term, .proposed⟩)
        buffer := update e.buffer k none }
  | .lock k => e.stepCall k .proposed fun c => e.locked <|
      match e.waiters c.index with
      | none => some { e with lock := .storing k c }
      | some old => some { e with lock := .answering k c old.ch }
  | .answer =>
    match e.lock with
    | .answering k c ch => { e with lock := .storing k c }.sendTo ch .notLeader
    | _ => none
  | .store =>
    match e.lock with
    | .storing k c => some
        { (e.setWaiter c.index (some ⟨c.term, k⟩)).setStage k c .waiting with lock := .free }
    | _ => none
  | .receive k => e.stepCall k .waiting fun c =>
      match e.buffer k with
      | none => none
      | some answer =>
        some { e.setStage k c (.returned answer) with buffer := update e.buffer k none }
  | .expire k => e.stepCall k .waiting fun c => some (e.setStage k c .givingUp)
  | .giveUp k => e.stepCall k .givingUp fun c => e.locked <|
      some ((e.setWaiter c.index none).setStage k c (.returned .contextDone))
  | .fire j entry =>
    match e.fires j with
    | .idle => some (e.setFiring j (.taking entry))
    | _ => none
  | .take j =>
    match e.fires j with
    | .taking entry => e.locked <|
      match e.waiters entry.index with
      | none => some (e.setFiring j .idle)
      | some w => some ((e.setWaiter entry.index none).setFiring j
          (.sending w.ch (if w.term = entry.term then .ok else .notLeader)))
    | _ => none
  | .send j =>
    match e.fires j with
    | .sending k answer => (e.setFiring j .idle).sendTo k answer
    | _ => none

end Endpoint

variable {e e' : Endpoint} {k l j i : ℕ} {w : Waiter} {c : Pending} {answer : Answer}
  {stage : Stage} {firing : Firing}

section Cases

theorem Endpoint.stepCall_eq_some {f : Pending → Option Endpoint}
    (h : e.stepCall k stage f = some e') :
    ∃ c, e.calls k = some c ∧ c.stage = stage ∧ f c = some e' := by
  rw [Endpoint.stepCall] at h
  split at h
  · cases h
  · rename_i c hc
    split at h
    · rename_i hstage
      exact ⟨c, hc, hstage, h⟩
    · cases h

theorem Endpoint.locked_eq_some {next : Option Endpoint} (h : e.locked next = some e') :
    e.lock = .free ∧ next = some e' := by
  rw [Endpoint.locked] at h
  split at h
  · rename_i hfree
    exact ⟨hfree, h⟩
  · cases h

theorem Endpoint.sendTo_eq_some (h : e.sendTo k answer = some e') :
    e' = { e with
      buffer := update e.buffer k (some answer)
      sends := k :: e.sends } := by
  rw [Endpoint.sendTo] at h
  split at h
  · cases h
  · cases h
    rfl

end Cases

section Rights

def Firing.channel : Firing → Option ℕ
  | .sending k _ => some k
  | _ => none

/-- The channel that a slot of the map gives access to. The waiter that the holder of the lock has
answered is still in the map, and nobody can reach it. -/
def Endpoint.slot (e : Endpoint) (i : ℕ) : Option ℕ :=
  match e.lock with
  | .storing _ c => if i = c.index then none else (e.waiters i).map Waiter.ch
  | _ => (e.waiters i).map Waiter.ch

def Endpoint.rights (e : Endpoint) : Rights (ℕ ⊕ ℕ) ℕ where
  holds := Sum.elim e.slot fun j => (e.fires j).channel
  sent := e.sends

theorem Endpoint.slot_free (h : e.lock = .free) (i : ℕ) :
    e.slot i = (e.waiters i).map Waiter.ch := by
  rw [Endpoint.slot, h]

theorem rights_erase (h : e.lock = .free) (i : ℕ) :
    (e.setWaiter i none).rights = e.rights.release (.inl i) := by
  have hslot : (e.setWaiter i none).slot = update e.slot i none := by
    funext x
    by_cases hx : x = i
    · subst hx
      simp [Endpoint.slot, Endpoint.setWaiter, h]
    · simp [Endpoint.slot, Endpoint.setWaiter, h, hx]
  rw [Rights.release, Endpoint.rights, Endpoint.rights, Sum.update_elim_inl, hslot]
  rfl

theorem rights_answered {ch : ℕ} (h : e.lock = .answering k c ch) :
    { e with lock := .storing k c }.rights = e.rights.release (.inl c.index) := by
  have hslot : { e with lock := .storing k c }.slot = update e.slot c.index none := by
    funext x
    rw [update_apply, Endpoint.slot, Endpoint.slot, h]
  rw [Rights.release, Endpoint.rights, Endpoint.rights, Sum.update_elim_inl, hslot]

theorem rights_store (h : e.lock = .storing k c) (w : Waiter) :
    { e.setWaiter c.index (some w) with lock := .free }.rights =
      e.rights.grant (.inl c.index) w.ch := by
  have hslot : { e.setWaiter c.index (some w) with lock := .free }.slot =
      update e.slot c.index (some w.ch) := by
    funext x
    by_cases hx : x = c.index
    · subst hx
      simp [Endpoint.slot, Endpoint.setWaiter]
    · simp [Endpoint.slot, Endpoint.setWaiter, h, hx]
  rw [Rights.grant, Endpoint.rights, Endpoint.rights, Sum.update_elim_inl, hslot]
  rfl

theorem rights_setFiring (e : Endpoint) (j : ℕ) (firing : Firing) :
    (e.setFiring j firing).rights =
      { e.rights with holds := update e.rights.holds (.inr j) firing.channel } := by
  have hfires : (fun x => ((e.setFiring j firing).fires x).channel) =
      update (fun x => (e.fires x).channel) j firing.channel := by
    funext x
    exact apply_update (fun _ => Firing.channel) e.fires j firing x
  rw [Endpoint.rights, Endpoint.rights, Sum.update_elim_inr, hfires]
  rfl

end Rights

section Tidy

def Endpoint.Unregistered (e : Endpoint) (k : ℕ) : Prop :=
  ∀ c, e.calls k = some c → c.stage = .proposed

def Lock.holder : Lock → Option (ℕ × Pending)
  | .free => none
  | .answering k c _ => some (k, c)
  | .storing k c => some (k, c)

/-- A channel has one right to send, from its registration to the send, and only what was sent is
in its buffer. -/
structure Endpoint.Tidy (e : Endpoint) : Prop where
  unique : e.rights.Unique
  fresh : ∀ {k}, e.Unregistered k → e.rights.Free k
  empty : ∀ {k}, k ∉ e.sends → e.buffer k = none
  holder : ∀ {k c}, e.lock.holder = some (k, c) → e.calls k = some c ∧ c.stage = .proposed
  replaced : ∀ {k c ch}, e.lock = .answering k c ch → e.slot c.index = some ch

theorem Endpoint.Tidy.unsent (h : e.Tidy) {a : ℕ ⊕ ℕ} (ha : e.rights.holds a = some k) :
    e.buffer k = none :=
  h.empty (h.unique.unsent ha)

theorem Endpoint.Tidy.registered (h : e.Tidy) {a : ℕ ⊕ ℕ} (ha : e.rights.holds a = some k) :
    ¬e.Unregistered k := fun hk => (h.fresh hk).1 a ha

theorem tidy_init : Endpoint.init.Tidy := by
  have hnone : ∀ a k, Endpoint.init.rights.holds a ≠ some k := by
    rintro (i | j) k ⟨⟩
  refine ⟨⟨?_, ?_, List.nodup_nil⟩, ?_, ?_, ?_, ?_⟩
  · intro a b k ha
    exact absurd ha (hnone a k)
  · intro a k ha
    exact absurd ha (hnone a k)
  · intro k _
    exact ⟨fun a => hnone a k, List.not_mem_nil⟩
  · intro k _
    rfl
  · rintro k c ⟨⟩
  · rintro k c ch ⟨⟩

theorem unregistered_setStage (hs : stage ≠ .proposed)
    (h : (e.setStage k c stage).Unregistered l) : l ≠ k ∧ e.Unregistered l := by
  have hne : l ≠ k := by
    rintro rfl
    exact hs (h _ (update_self ..))
  refine ⟨hne, ?_⟩
  intro c' hc'
  exact h c' ((update_of_ne hne ..).trans hc')

theorem Endpoint.Tidy.proposed (h : e.Tidy) (hk : e.calls k = none) (index term : ℕ) :
    Endpoint.Tidy { e with
      calls := update e.calls k (some ⟨index, term, .proposed⟩)
      buffer := update e.buffer k none } := by
  refine ⟨h.unique, ?_, ?_, ?_, h.replaced⟩
  · intro l hl
    refine h.fresh fun c hc => ?_
    have hne : l ≠ k := by
      rintro rfl
      rw [hk] at hc
      cases hc
    exact hl c ((update_of_ne hne ..).trans hc)
  · intro l hl
    by_cases hlk : l = k
    · subst hlk
      exact update_self ..
    · exact (update_of_ne hlk ..).trans (h.empty hl)
  · intro l c hl
    obtain ⟨hc, hstage⟩ := h.holder hl
    have hne : l ≠ k := by
      rintro rfl
      rw [hk] at hc
      cases hc
    exact ⟨(update_of_ne hne ..).trans hc, hstage⟩

theorem Endpoint.Tidy.staged (h : e.Tidy) (hk : e.calls k = some c) (hc : c.stage ≠ .proposed)
    (hs : stage ≠ .proposed) : (e.setStage k c stage).Tidy := by
  refine ⟨h.unique, ?_, h.empty, ?_, h.replaced⟩
  · intro l hl
    exact h.fresh (unregistered_setStage hs hl).2
  · intro l c' hl
    obtain ⟨hc', hstage⟩ := h.holder hl
    have hne : l ≠ k := by
      rintro rfl
      cases hk.symm.trans hc'
      exact hc hstage
    exact ⟨(update_of_ne hne ..).trans hc', hstage⟩

theorem Endpoint.Tidy.drained (h : e.Tidy) (k : ℕ) :
    Endpoint.Tidy { e with buffer := update e.buffer k none } := by
  refine ⟨h.unique, h.fresh, ?_, h.holder, h.replaced⟩
  intro l hl
  by_cases hlk : l = k
  · subst hlk
    exact update_self ..
  · exact (update_of_ne hlk ..).trans (h.empty hl)

theorem Endpoint.Tidy.locked (h : e.Tidy) (hfree : e.lock = .free) (hk : e.calls k = some c)
    (hc : c.stage = .proposed) {lock : Lock} (hholder : lock.holder = some (k, c))
    (hslot : { e with lock := lock }.slot = e.slot)
    (hold : ∀ {k c ch}, lock = .answering k c ch → (e.waiters c.index).map Waiter.ch = some ch) :
    Endpoint.Tidy { e with lock := lock } := by
  have hrights : { e with lock := lock }.rights = e.rights := by
    rw [Endpoint.rights, hslot]
    rfl
  refine ⟨hrights ▸ h.unique, ?_, h.empty, ?_, ?_⟩
  · intro l hl
    rw [hrights]
    exact h.fresh hl
  · intro l c' hl
    cases hholder.symm.trans hl
    exact ⟨hk, hc⟩
  · intro l c' ch hl
    rw [hslot, e.slot_free hfree]
    exact hold hl

theorem Endpoint.Tidy.erased (h : e.Tidy) (hfree : e.lock = .free) (i : ℕ) :
    (e.setWaiter i none).Tidy := by
  have hrights := rights_erase hfree i
  have hlock : (e.setWaiter i none).lock = .free := hfree
  refine ⟨?_, ?_, h.empty, ?_, ?_⟩
  · rw [hrights]
    exact h.unique.release _
  · intro l hl
    rw [hrights]
    exact (h.fresh hl).release _
  · intro l c hl
    rw [hlock] at hl
    cases hl
  · intro l c ch hl
    rw [hlock] at hl
    cases hl

theorem Endpoint.Tidy.fired (h : e.Tidy) (j : ℕ) (firing : Firing)
    (hfree : ∀ {k}, firing.channel = some k → (e.rights.release (.inr j)).Free k)
    (hreg : ∀ {k}, firing.channel = some k → ¬e.Unregistered k) : (e.setFiring j firing).Tidy := by
  have hrights := rights_setFiring e j firing
  refine ⟨?_, ?_, h.empty, h.holder, h.replaced⟩
  · rw [hrights]
    cases hch : firing.channel with
    | none => exact h.unique.release _
    | some k =>
      have hgrant := (h.unique.release (.inr j)).grant (hfree hch) (.inr j)
      rwa [Rights.grant, Rights.release, update_idem] at hgrant
  · intro l hl
    rw [hrights]
    cases hch : firing.channel with
    | none => exact (h.fresh hl).release _
    | some k =>
      refine (h.fresh hl).grant ?_ _
      rintro rfl
      exact hreg hch hl

theorem Endpoint.Tidy.sent (h : e.Tidy) (hk : e.rights.Free k) (hreg : ¬e.Unregistered k)
    (answer : Answer) :
    Endpoint.Tidy { e with buffer := update e.buffer k (some answer), sends := k :: e.sends } := by
  refine ⟨h.unique.spend hk, ?_, ?_, h.holder, h.replaced⟩
  · intro l hl
    refine (h.fresh hl).spend ?_
    rintro rfl
    exact hreg hl
  · intro l hl
    rw [List.mem_cons, not_or] at hl
    exact (update_of_ne hl.1 ..).trans (h.empty hl.2)

theorem Endpoint.Tidy.answered {ch : ℕ} (h : e.Tidy) (hl : e.lock = .answering k c ch) :
    Endpoint.Tidy { e with lock := .storing k c } := by
  have hrights := rights_answered hl
  refine ⟨?_, ?_, h.empty, ?_, ?_⟩
  · rw [hrights]
    exact h.unique.release _
  · intro l hu
    rw [hrights]
    exact (h.fresh hu).release _
  · rintro l c' ⟨⟩
    exact h.holder (congrArg Lock.holder hl)
  · rintro l c' ch' ⟨⟩

theorem Endpoint.Tidy.stored (h : e.Tidy) (hl : e.lock = .storing k c) :
    Endpoint.Tidy
      { (e.setWaiter c.index (some ⟨c.term, k⟩)).setStage k c .waiting with lock := .free } := by
  have hrights := rights_store hl ⟨c.term, k⟩
  obtain ⟨hk, hstage⟩ := h.holder (congrArg Lock.holder hl)
  have hunreg : e.Unregistered k := by
    intro c' hc'
    cases hk.symm.trans hc'
    exact hstage
  refine ⟨?_, ?_, h.empty, ?_, ?_⟩
  · change Rights.Unique (Endpoint.rights { e.setWaiter _ _ with lock := .free })
    rw [hrights]
    exact h.unique.grant (h.fresh hunreg) _
  · intro l hu
    change Rights.Free (Endpoint.rights { e.setWaiter _ _ with lock := .free }) l
    rw [hrights]
    obtain ⟨hne, hu⟩ := unregistered_setStage (by rintro ⟨⟩) hu
    exact (h.fresh hu).grant hne _
  · rintro l c' ⟨⟩
  · rintro l c' ch ⟨⟩

theorem Endpoint.Tidy.step (h : e.Tidy) {ev : EndpointEvent} (hs : e.step ev = some e') :
    e'.Tidy := by
  cases ev with
  | propose k index term =>
    simp only [Endpoint.step] at hs
    split at hs
    · cases hs
    rename_i hk
    cases hs
    exact h.proposed hk index term
  | lock k =>
    obtain ⟨c, hk, hc, hs⟩ := Endpoint.stepCall_eq_some hs
    obtain ⟨hfree, hs⟩ := Endpoint.locked_eq_some hs
    split at hs
    · rename_i hnone
      cases hs
      refine h.locked hfree hk hc rfl ?_ (by rintro _ _ _ ⟨⟩)
      funext x
      by_cases hx : x = c.index
      · simp [Endpoint.slot, hfree, hx, hnone]
      · simp [Endpoint.slot, hfree, hx]
    · rename_i old hold
      cases hs
      refine h.locked hfree hk hc rfl ?_ ?_
      · funext x
        simp [Endpoint.slot, hfree]
      · rintro l c' ch ⟨⟩
        rw [hold]
        rfl
  | answer =>
    simp only [Endpoint.step] at hs
    split at hs
    · rename_i k c ch hl
      have hheld : e.rights.holds (.inl c.index) = some ch := h.replaced hl
      rw [Endpoint.sendTo_eq_some hs]
      refine (h.answered hl).sent ?_ (h.registered hheld) .notLeader
      rw [rights_answered hl]
      exact h.unique.free_release hheld
    · cases hs
  | store =>
    simp only [Endpoint.step] at hs
    split at hs
    · rename_i k c hl
      cases hs
      exact h.stored hl
    · cases hs
  | receive k =>
    obtain ⟨c, hk, hc, hs⟩ := Endpoint.stepCall_eq_some hs
    split at hs
    · cases hs
    cases hs
    exact (h.staged hk (by rw [hc]; rintro ⟨⟩) (by rintro ⟨⟩)).drained k
  | expire k =>
    obtain ⟨c, hk, hc, hs⟩ := Endpoint.stepCall_eq_some hs
    cases hs
    exact h.staged hk (by rw [hc]; rintro ⟨⟩) (by rintro ⟨⟩)
  | giveUp k =>
    obtain ⟨c, hk, hc, hs⟩ := Endpoint.stepCall_eq_some hs
    obtain ⟨hfree, hs⟩ := Endpoint.locked_eq_some hs
    cases hs
    exact (h.erased hfree c.index).staged hk (by rw [hc]; rintro ⟨⟩) (by rintro ⟨⟩)
  | fire j entry =>
    simp only [Endpoint.step] at hs
    split at hs
    · cases hs
      exact h.fired j _ (by rintro _ ⟨⟩) (by rintro _ ⟨⟩)
    · cases hs
  | take j =>
    simp only [Endpoint.step] at hs
    split at hs
    · rename_i entry hfire
      obtain ⟨hfree, hs⟩ := Endpoint.locked_eq_some hs
      split at hs
      · cases hs
        exact h.fired j _ (by rintro _ ⟨⟩) (by rintro _ ⟨⟩)
      · rename_i w hw
        cases hs
        have hheld : e.rights.holds (.inl entry.index) = some w.ch := by
          change e.slot entry.index = some w.ch
          rw [e.slot_free hfree, hw]
          rfl
        refine (h.erased hfree entry.index).fired j _ ?_ ?_
        · rintro _ ⟨⟩
          rw [rights_erase hfree]
          exact (h.unique.free_release hheld).release _
        · rintro _ ⟨⟩
          exact h.registered hheld
    · cases hs
  | send j =>
    simp only [Endpoint.step] at hs
    split at hs
    · rename_i k answer hfire
      have hheld : e.rights.holds (.inr j) = some k := congrArg Firing.channel hfire
      rw [Endpoint.sendTo_eq_some hs]
      have hidle := h.fired j .idle (by rintro _ ⟨⟩) (by rintro _ ⟨⟩)
      refine hidle.sent ?_ (h.registered hheld) answer
      rw [rights_setFiring]
      exact h.unique.free_release hheld
    · cases hs

theorem tidy_of_runs {ok : Endpoint → EndpointEvent → Prop} (h : e.Tidy)
    (hrun : Runs Endpoint.step ok e e') : e'.Tidy :=
  hrun.invariant h fun _ _ _ ht _ hs => ht.step hs

end Tidy

section Blocking

/-- The steps of one goroutine of `fireWaiter` and of a call that holds the lock. No client
receives or gives up. -/
def Unaided (j : ℕ) (_ : Endpoint) : EndpointEvent → Prop
  | .answer => True
  | .store => True
  | .take j' => j' = j
  | .send j' => j' = j
  | _ => False

theorem Endpoint.step_answer {ch : ℕ} (h : e.lock = .answering k c ch) :
    e.step .answer = { e with lock := .storing k c }.sendTo ch .notLeader := by
  simp only [Endpoint.step, h]

theorem Endpoint.step_store (h : e.lock = .storing k c) : e.step .store = some
    { (e.setWaiter c.index (some ⟨c.term, k⟩)).setStage k c .waiting with lock := .free } := by
  simp only [Endpoint.step, h]

theorem Endpoint.step_send (h : e.fires j = .sending k answer) :
    e.step (.send j) = (e.setFiring j .idle).sendTo k answer := by
  simp only [Endpoint.step, h]

theorem Endpoint.sendTo_isSome (h : e.buffer k = none) (answer : Answer) :
    (e.sendTo k answer).isSome = true := by
  rw [Endpoint.sendTo, h]
  rfl

theorem Endpoint.Tidy.answer_isSome {ch : ℕ} (h : e.Tidy) (hl : e.lock = .answering k c ch) :
    e.buffer ch = none ∧ (e.step .answer).isSome = true := by
  have hheld : e.rights.holds (.inl c.index) = some ch := h.replaced hl
  have hempty := h.unsent hheld
  refine ⟨hempty, ?_⟩
  rw [Endpoint.step_answer hl]
  apply Endpoint.sendTo_isSome
  exact hempty

theorem Endpoint.Tidy.send_isSome (h : e.Tidy) (hf : e.fires j = .sending k answer) :
    e.buffer k = none ∧ (e.step (.send j)).isSome = true := by
  have hheld : e.rights.holds (.inr j) = some k := congrArg Firing.channel hf
  have hempty := h.unsent hheld
  refine ⟨hempty, ?_⟩
  rw [Endpoint.step_send hf]
  apply Endpoint.sendTo_isSome
  exact hempty

theorem Endpoint.Tidy.unlocks (h : e.Tidy) (j : ℕ) :
    ∃ e', Runs Endpoint.step (Unaided j) e e' ∧ e'.lock = .free ∧ e'.fires = e.fires := by
  have hstore : ∀ {e k c}, e.lock = .storing k c → ∃ e',
      Runs Endpoint.step (Unaided j) e e' ∧ e'.lock = .free ∧ e'.fires = e.fires := by
    intro e k c hl
    exact ⟨_, Runs.refl.tail (e := .store) trivial (Endpoint.step_store hl), rfl, rfl⟩
  cases hl : e.lock with
  | free => exact ⟨e, .refl, hl, rfl⟩
  | storing k c => exact hstore hl
  | answering k c ch =>
    obtain ⟨u, hu⟩ := Option.isSome_iff_exists.mp (h.answer_isSome hl).2
    have heq := Endpoint.sendTo_eq_some ((Endpoint.step_answer hl).symm.trans hu)
    obtain ⟨v, hrun, hfree, hfires⟩ := hstore (e := u) (by rw [heq])
    refine ⟨v, (Runs.refl.tail (e := .answer) trivial hu).trans hrun, hfree, ?_⟩
    rw [hfires, heq]

theorem Endpoint.Tidy.sends (h : e.Tidy) (hf : e.fires j = .sending k answer) :
    ∃ e', Runs Endpoint.step (Unaided j) e e' ∧ e'.fires j = .idle := by
  obtain ⟨u, hu⟩ := Option.isSome_iff_exists.mp (h.send_isSome hf).2
  refine ⟨u, Runs.refl.tail (e := .send j) rfl hu, ?_⟩
  rw [Endpoint.sendTo_eq_some ((Endpoint.step_send hf).symm.trans hu)]
  exact update_self ..

/-- What `fireWaiter` has begun it ends, whatever the clients do or leave undone. -/
theorem Endpoint.Tidy.finishes (h : e.Tidy) (j : ℕ) :
    ∃ e', Runs Endpoint.step (Unaided j) e e' ∧ e'.fires j = .idle := by
  cases hf : e.fires j with
  | idle => exact ⟨e, .refl, hf⟩
  | sending k answer => exact h.sends hf
  | taking entry =>
    obtain ⟨u, hrun, hfree, hfires⟩ := h.unlocks j
    rw [← hfires] at hf
    have hown : Unaided j u (.take j) := rfl
    cases hw : u.waiters entry.index with
    | none =>
      have htake : u.step (.take j) = some (u.setFiring j .idle) := by
        simp only [Endpoint.step, hf, Endpoint.locked, hfree, hw, if_true]
      exact ⟨_, hrun.tail hown htake, update_self ..⟩
    | some w =>
      have htake : u.step (.take j) = some ((u.setWaiter entry.index none).setFiring j
          (.sending w.ch (if w.term = entry.term then .ok else .notLeader))) := by
        simp only [Endpoint.step, hf, Endpoint.locked, hfree, hw, if_true]
      have hrun := hrun.tail hown htake
      obtain ⟨v, hsend, hidle⟩ := (tidy_of_runs h hrun).sends (update_self ..)
      exact ⟨v, hrun.trans hsend, hidle⟩

/-- The applier never blocks on a client. In every interleaving a channel is sent one value at
most; a send that is executed, by `fireWaiter` or under the lock, finds the buffer empty and goes
through; and `fireWaiter` comes to its end without a step of any client. -/
theorem sends_never_block {e : Endpoint} (h : Runs Endpoint.step Always Endpoint.init e) :
    (∀ k, e.sends.count k ≤ 1) ∧
    (∀ j k answer, e.fires j = .sending k answer →
      e.buffer k = none ∧ (e.step (.send j)).isSome = true) ∧
    (∀ k c ch, e.lock = .answering k c ch →
      e.buffer ch = none ∧ (e.step .answer).isSome = true) ∧
    ∀ j, ∃ e', Runs Endpoint.step (Unaided j) e e' ∧ e'.fires j = .idle := by
  have htidy := tidy_of_runs tidy_init h
  refine ⟨?_, ?_, ?_, ?_⟩
  · intro k
    exact List.nodup_iff_count_le_one.mp htidy.unique.once k
  · intro j k answer hf
    exact htidy.send_isSome hf
  · intro k c ch hl
    exact htidy.answer_isSome hl
  · intro j
    exact htidy.finishes j

/-- Calls 0 and 1 are given the same index, and the deadline of call 2 passes before `fireWaiter`
takes its waiter out of the map. -/
def reproposed : List EndpointEvent :=
  [.propose 0 5 1, .lock 0, .store, .propose 2 4 1, .lock 2, .store, .propose 1 5 3, .expire 2,
    .fire 0 ⟨1, 4, []⟩, .take 0, .lock 1]

/-- The second call of the index holds the lock and has to answer the first, while `fireWaiter` is
about to answer a call that no longer listens. -/
theorem sends_never_block_reproposed :
    ∃ e, exec Endpoint.step (fun _ _ => true) Endpoint.init reproposed = some e ∧
      e.lock = .answering 1 ⟨5, 3, .proposed⟩ 0 ∧ e.fires 0 = .sending 2 .ok ∧
      e.buffer 0 = none ∧ e.buffer 2 = none ∧ (e.step .answer).isSome = true ∧
      (e.step (.send 0)).isSome = true := by
  obtain ⟨e, hs, hl, hf⟩ : ∃ e,
      exec Endpoint.step (fun _ _ => true) Endpoint.init reproposed = some e ∧
      e.lock = .answering 1 ⟨5, 3, .proposed⟩ 0 ∧ e.fires 0 = .sending 2 .ok :=
    ⟨_, rfl, rfl, rfl⟩
  obtain ⟨_, hfire, hlock, _⟩ := sends_never_block (runs_of_exec (fun _ _ _ => trivial) _ hs)
  have hsend := hfire 0 2 .ok hf
  have hanswer := hlock 1 ⟨5, 3, .proposed⟩ 0 hl
  exact ⟨e, hs, hl, hf, hanswer.1, hsend.1, hanswer.2, hsend.2⟩

end Blocking

end Kv
