import RaftDB.StorageFiles
import RaftDB.RaftAppendSpec

/-!
# A crash inside the append handler

The handler saves the term, cuts the log at the first conflict and appends what is left of the
request. Wherever it is interrupted, the files recover to the old log or to the cut log with some
of the new entries. There is one exception: if the log is empty and the log file still ends below
the boundary, which a crash inside an installation leaves behind, then the first new entry makes
the file unreadable.
-/
namespace Raft

open Storage FramedStream
open RaftNode hiding id

variable {D : Type}

section Merging

/-- The entries below the first conflict with the request; all of them if there is none. -/
def cutAtConflict (log : RaftLog) (es : List LogEntry) : List LogEntry :=
  log.entries.takeWhile fun x => es.all fun e => e.index ≠ x.index ∨ e.term = x.term

def remaining (log : RaftLog) (es : List LogEntry) : List LogEntry :=
  es.dropWhile fun e => e.index ≤ log.base + (cutAtConflict log es).length

variable {rn : RaftNode D} {es skipped new : List LogEntry} {k : ℕ}

theorem term_eq_of_held {log : RaftLog} (hn : log.Numbered) {e x : LogEntry} {i : ℕ}
    (hx : log.entries[i]? = some x) (hindex : e.index = x.index) (he : Held log e) :
    e.term = x.term := by
  have hxi := hn.index_eq hx
  rcases he with hle | ⟨_, hterm⟩
  · omega
  · rw [log.termAt_above (by omega), show e.index - log.base - 1 = i by omega, hx] at hterm
    exact (Option.some.inj hterm).symm

theorem takeWhile_eq_take {α : Type} {p : α → Bool} {l : List α} (htake : ∀ x ∈ l.take k, p x)
    (hnext : ∀ x, l[k]? = some x → ¬p x) : l.takeWhile p = l.take k := by
  have hsplit : (l.take k ++ l.drop k).takeWhile p = l.take k ++ (l.drop k).takeWhile p :=
    List.takeWhile_append_of_pos htake
  rw [List.take_append_drop] at hsplit
  rw [hsplit]
  cases hdrop : l.drop k with
  | nil => simp
  | cons x xs =>
    have hx : l[k]? = some x := by rw [← List.head?_drop, hdrop, List.head?_cons]
    rw [List.takeWhile_cons_of_neg (hnext x hx), List.append_nil]

theorem cutAtConflict_of_held (hn : rn.log.Numbered) (hs : ∀ e ∈ es, Held rn.log e) :
    cutAtConflict rn.log es = rn.log.entries := by
  rw [cutAtConflict, List.takeWhile_eq_self_iff]
  intro x hx
  obtain ⟨i, hi⟩ := List.mem_iff_getElem?.mp hx
  simp only [List.all_eq_true, decide_eq_true_eq]
  intro e he
  by_cases hindex : e.index = x.index
  · exact Or.inr (term_eq_of_held hn hi hindex (hs e he))
  · exact Or.inl hindex

theorem remaining_of_held (hn : rn.log.Numbered) (hs : ∀ e ∈ es, Held rn.log e) :
    remaining rn.log es = [] := by
  rw [remaining, cutAtConflict_of_held hn hs, List.dropWhile_eq_nil_iff]
  intro e he
  have hlast := hn.lastLogIndex_eq
  rcases hs e he with hle | ⟨hle, _⟩ <;> simp <;> omega

theorem RaftNode.Splice.cut_eq (h : Splice rn es skipped new k) (hn : rn.log.Numbered) :
    cutAtConflict rn.log es = rn.log.entries.take k := by
  apply takeWhile_eq_take
  · intro x hx
    obtain ⟨i, hi⟩ := List.mem_iff_getElem?.mp hx
    have hik : i < k := by
      by_contra hge
      rw [List.getElem?_take_eq_none (not_lt.mp hge)] at hi
      cases hi
    rw [List.getElem?_take_of_lt hik] at hi
    have hxi := hn.index_eq hi
    simp only [List.all_eq_true, decide_eq_true_eq]
    intro e he
    by_cases hindex : e.index = x.index
    · rw [h.split] at he
      rcases List.mem_append.mp he with he | he
      · exact Or.inr (term_eq_of_held hn hi hindex (h.held e he))
      · have := (h.numbered.index_bounds he).1
        omega
    · exact Or.inl hindex
  · intro x hx
    have hxi := hn.index_eq hx
    rcases h.place with hend | ⟨_, _, e, rest, rfl, hne⟩
    · rw [hend, List.getElem?_length] at hx
      cases hx
    have hei := h.numbered.1
    simp only [List.all_eq_true, decide_eq_true_eq, not_forall]
    refine ⟨e, by simp [h.split], ?_⟩
    rintro (hdiff | hterm)
    · omega
    · apply hne
      rw [rn.log.termAt_above (by omega), show e.index - rn.log.base - 1 = k by omega, hx, hterm]
      rfl

theorem RaftNode.Splice.remaining_eq (h : Splice rn es skipped new k) (hn : rn.log.Numbered) {prev : ℕ}
    (hc : Consecutive prev es) : remaining rn.log es = new := by
  have hstart := h.start hc
  have hlen : (cutAtConflict rn.log es).length = k := by
    rw [h.cut_eq hn, List.length_take, Nat.min_eq_left h.within]
  rw [remaining, hlen, h.split, List.dropWhile_append_of_pos]
  · obtain ⟨e, rest, rfl⟩ := List.exists_cons_of_ne_nil h.nonempty
    have := h.numbered.1
    rw [List.dropWhile_cons_of_neg]
    simp
    omega
  · intro e he
    rw [h.split] at hc
    have := ((consecutive_append.mp hc).1.index_bounds he).2
    simp
    omega

end Merging

section Survival

variable {rn rn' : RaftNode D} {args : AppendEntriesArgs} {es skipped new : List LogEntry}
  {reply : AppendEntriesReply} {k : ℕ}

/-- What a crash inside the handler may leave of the log: the old log, or the cut one with a part of
the new entries. What is committed or agrees with the request is unchanged. -/
structure Survives (rn : RaftNode D) (es : List LogEntry) (log : RaftLog) : Prop where
  shape : log = rn.log ∨
    ∃ m, log = ⟨rn.log.sentinel, cutAtConflict rn.log es ++ (remaining rn.log es).take m⟩
  kept : ∀ j, rn.log.base < j → j ≤ rn.log.lastLogIndex →
    (j ≤ rn.commitIndex ∨ ∀ i, Conflicts rn.log es i → j < i) →
    log.entryAt j = rn.log.entryAt j

theorem survives_self (rn : RaftNode D) (es : List LogEntry) : Survives rn es rn.log :=
  ⟨Or.inl rfl, fun _ _ _ _ => rfl⟩

theorem RaftNode.Splice.survives (h : Splice rn es skipped new k) (hn : rn.log.Numbered)
    {prev : ℕ} (hc : Consecutive prev es) (m : ℕ) :
    Survives rn es ⟨rn.log.sentinel, rn.log.entries.take k ++ new.take m⟩ := by
  constructor
  · exact Or.inr ⟨m, by rw [h.cut_eq hn, h.remaining_eq hn hc]⟩
  · intro j hb hl hsafe
    have hlast := hn.lastLogIndex_eq
    have hj : j ≤ rn.log.base + k := by
      rcases h.place with hend | ⟨hcm, hlt, e, rest, rfl, hne⟩
      · omega
      · have hindex := h.numbered.1
        rcases hsafe with hcommitted | hbelow
        · omega
        · have := hbelow e.index
            ⟨by omega, by omega, e, by simp [h.split], rfl, hne⟩
          omega
    have hlen : (rn.log.entries.take k).length = k := by
      rw [List.length_take, Nat.min_eq_left h.within]
    rw [rn.log.entryAt_with _ hb, rn.log.entryAt_above hb, List.getElem?_append_left (by omega),
      List.getElem?_take_of_lt (by omega)]

theorem handleAppendEntries_accepted (hn : rn.log.Numbered)
    (hc : Consecutive args.prevLogIndex args.entries)
    (h : (rn.handleAppendEntries args).result = .ok (rn', reply)) (hs : reply.success = true) :
    ∃ walked writes, WalkOutcome (rn.followerOf args.term args.leaderID) args args.entries
        (.done walked writes ()) ∧
      (rn.handleAppendEntries args).writes = rn.adoptWrites args.term ++ writes := by
  rw [handleAppendEntries_eq] at h ⊢
  split at h
  · cases h
    cases hs
  · rename_i hrun
    rw [if_neg hrun]
    have hn' : (rn.followerOf args.term args.leaderID).log.Numbered := by rwa [followerOf_log]
    rcases acceptEntries_cases hn' hc with ⟨_, r, heq, _, hfail⟩ |
      ⟨_, walk, hw, ⟨p, _, heq⟩ | ⟨walked, writes, hwalk, heq⟩⟩
    · rw [heq] at h
      cases h
      rw [hfail] at hs
      cases hs
    · rw [heq] at h
      cases h
    · rw [hwalk] at hw
      exact ⟨walked, writes, hw, by rw [heq]; rfl⟩

end Survival

section Recovery

variable {wal : List WalRecord} {rn : RaftNode D} {args : AppendEntriesArgs}
  {es skipped new : List LogEntry} {rs : List WalRecord} {k : ℕ}

def spliceRecords (log : RaftLog) (k : ℕ) (new : List LogEntry) : List WalRecord :=
  if k = log.entries.length then new.map .append
  else .truncate (log.base + k + 1) :: new.map .append

/-- Any first part of these records replays to a log that survives. -/
theorem RaftNode.Splice.replays (h : Splice rn es skipped new k) (hn : rn.log.Numbered)
    {prev : ℕ} (hc : Consecutive prev es) (hr : Replays wal rn.log) (j : ℕ) :
    ∃ log', Replays (wal ++ (spliceRecords rn.log k new).take j) log' ∧ log'.Numbered ∧
      log'.sentinel = rn.log.sentinel ∧ Survives rn es log' := by
  have hnew : ∀ m, Consecutive (rn.log.base + k) (new.take m) := fun m => h.numbered.take m
  have hnum : ∀ m, RaftLog.Numbered
      ⟨rn.log.sentinel, rn.log.entries.take k ++ new.take m⟩ := by
    intro m
    apply consecutive_append.mpr
    rw [List.length_take, Nat.min_eq_left h.within]
    exact ⟨Consecutive.take hn k, hnew m⟩
  have happend : ∀ wal', Replays wal' ⟨rn.log.sentinel, rn.log.entries.take k⟩ → ∀ m,
      Replays (wal' ++ (new.map WalRecord.append).take m)
        ⟨rn.log.sentinel, rn.log.entries.take k ++ new.take m⟩ := by
    intro wal' hwal' m
    have hcut : RaftLog.Numbered ⟨rn.log.sentinel, rn.log.entries.take k⟩ :=
      Consecutive.take hn k
    have hlast : RaftLog.lastLogIndex ⟨rn.log.sentinel, rn.log.entries.take k⟩ =
        rn.log.base + k := by
      rw [hcut.lastLogIndex_eq, List.length_take, Nat.min_eq_left h.within]
      rfl
    rw [← List.map_take]
    exact hwal'.append hcut (by rw [hlast]; exact hnew m)
  rw [spliceRecords]
  by_cases hend : k = rn.log.entries.length
  · have hall : rn.log.entries.take k = rn.log.entries := by rw [hend, List.take_length]
    rw [if_pos hend]
    exact ⟨_, happend wal (by rw [hall]; exact hr) j, hnum j, rfl, h.survives hn hc j⟩
  · rw [if_neg hend]
    cases j with
    | zero => exact ⟨rn.log, by simpa using hr, hn, rfl, survives_self rn es⟩
    | succ j =>
      have hcut := hr.truncate hn (show rn.log.base < rn.log.base + k + 1 by omega)
      rw [show rn.log.base + k + 1 - rn.log.base - 1 = k by omega] at hcut
      refine ⟨_, ?_, hnum j, rfl, h.survives hn hc j⟩
      rw [List.take_succ_cons, List.append_cons]
      exact happend _ hcut j

/-- The records that an accepted request adds to the log file: none if the log holds everything,
or else those of a splice. -/
inductive Adds (rn : RaftNode D) (es : List LogEntry) : List WalRecord → Prop where
  | held : (∀ e ∈ es, Held rn.log e) → Adds rn es []
  | spliced (skipped new : List LogEntry) (k : ℕ) : Splice rn es skipped new k →
      Adds rn es (spliceRecords rn.log k new)

theorem Adds.replays (h : Adds rn es rs) (hn : rn.log.Numbered) {prev : ℕ}
    (hc : Consecutive prev es) (hr : Replays wal rn.log) (j : ℕ) :
    ∃ log', Replays (wal ++ rs.take j) log' ∧ log'.Numbered ∧
      log'.sentinel = rn.log.sentinel ∧ Survives rn es log' := by
  cases h with
  | held => exact ⟨rn.log, by simpa using hr, hn, rfl, survives_self rn es⟩
  | spliced skipped new k hsp => exact hsp.replays hn hc hr j

theorem Adds.of_empty (h : Adds rn es rs) (hn : rn.log.Numbered) {prev : ℕ}
    (hc : Consecutive prev es) (hnil : rn.log.entries = []) :
    rs = (remaining rn.log es).map .append ∧
      ∀ e rest, remaining rn.log es = e :: rest → e.index = rn.log.lastLogIndex + 1 := by
  cases h with
  | held hheld =>
    rw [remaining_of_held hn hheld]
    exact ⟨rfl, by rintro _ _ ⟨⟩⟩
  | spliced skipped new k hsp =>
    have hk := hsp.within
    have hlast := hn.lastLogIndex_eq
    rw [hnil, List.length_nil] at hk hlast
    rw [hsp.remaining_eq hn hc]
    refine ⟨?_, ?_⟩
    · rw [spliceRecords, if_pos]
      rw [hnil, List.length_nil]
      omega
    · rintro e rest rfl
      have hindex := hsp.numbered.1
      omega

theorem RaftNode.Splice.of_followerOf {term : ℕ} {leaderID : NodeId}
    (h : Splice (rn.followerOf term leaderID) es skipped new k) : Splice rn es skipped new k := by
  obtain ⟨hsplit, hheld, hne, hk, hnum, hplace⟩ := h
  simp only [followerOf_log, followerOf_commitIndex] at hheld hk hnum hplace
  exact ⟨hsplit, hheld, hne, hk, hnum, hplace⟩

theorem records_appendEntries (es : List LogEntry) :
    (appendEntries es : List (StoreWrite D)).flatMap StoreWrite.records = es.map .append := by
  induction es with
  | nil => rfl
  | cons e es ih =>
    rw [List.map_cons, ← ih]
    rfl

theorem appends_appendEntries (hf : ∀ e ∈ es, (WalRecord.append e).Fits) :
    ∀ w ∈ (appendEntries es : List (StoreWrite D)), w.Appends := by
  intro w hw
  obtain ⟨e, he, rfl⟩ := List.mem_map.mp hw
  exact hf e he

theorem records_adoptWrites (rn : RaftNode D) (term : ℕ) :
    (rn.adoptWrites term).flatMap StoreWrite.records = [] ∧
      ∀ w ∈ rn.adoptWrites term, w.Appends := by
  rw [adoptWrites]
  split
  · exact ⟨rfl, by simp [StoreWrite.Appends]⟩
  · exact ⟨rfl, by simp⟩

theorem handleAppendEntries_appends {rn' : RaftNode D} {reply : AppendEntriesReply}
    (hn : rn.log.Numbered) (hc : Consecutive args.prevLogIndex args.entries)
    (hf : ∀ e ∈ args.entries, (WalRecord.append e).Fits)
    (h : (rn.handleAppendEntries args).result = .ok (rn', reply)) (hs : reply.success = true) :
    (∀ w ∈ (rn.handleAppendEntries args).writes, w.Appends) ∧
      Adds rn args.entries ((rn.handleAppendEntries args).writes.flatMap StoreWrite.records) := by
  obtain ⟨walked, writes, hw, heq⟩ := handleAppendEntries_accepted hn hc h hs
  obtain ⟨hadopt, hadopts⟩ := records_adoptWrites rn args.term
  have hn' : (rn.followerOf args.term args.leaderID).log.Numbered := by rwa [followerOf_log]
  rw [heq, List.flatMap_append, hadopt, List.nil_append]
  have happends : ∀ ws : List (StoreWrite D), (∀ w ∈ ws, w.Appends) →
      ∀ w ∈ rn.adoptWrites args.term ++ ws, w.Appends := by
    intro ws hws w hmem
    rcases List.mem_append.mp hmem with hmem | hmem
    · exact hadopts w hmem
    · exact hws w hmem
  rcases hw.done_cases hn' with ⟨_, rfl, hheld⟩ | ⟨skipped, new, k, hsp, _, hwrites⟩
  · simp only [followerOf_log] at hheld
    exact ⟨happends [] (by simp), .held hheld⟩
  · rw [followerOf_log, spliceWrites] at hwrites
    have hsp' := hsp.of_followerOf
    have hnew : ∀ e ∈ new, (WalRecord.append e).Fits := by
      intro e he
      exact hf e (by rw [hsp'.split]; exact List.mem_append_right _ he)
    have hadds := Adds.spliced skipped new k hsp'
    rw [spliceRecords] at hadds
    by_cases hk : k = rn.log.entries.length
    · rw [if_pos hk] at hadds hwrites
      subst hwrites
      refine ⟨happends _ (appends_appendEntries hnew), ?_⟩
      rwa [records_appendEntries]
    · rw [if_neg hk] at hadds hwrites
      subst hwrites
      refine ⟨happends _ ?_, ?_⟩
      · intro w hmem
        rcases List.mem_append.mp hmem with hcut | hmem
        · obtain ⟨e, rest, rfl⟩ := List.exists_cons_of_ne_nil hsp'.nonempty
          rw [List.mem_singleton.mp hcut]
          have hindex := hsp'.numbered.1
          have := (hnew e List.mem_cons_self).2
          change rn.log.base + k + 1 < 2 ^ 64
          omega
        · exact appends_appendEntries hnew w hmem
      · rw [List.flatMap_append, records_appendEntries]
        exact hadds

/-- A crash at any point of the handler's writes, for every follower whose files recover to its
log. The log file must go on where the log ends, unless nothing new is read back from it. -/
theorem append_crash_recovers_iff (unmarshal : List UInt8 → Option RawRecord)
    (hu : Inverts unmarshal) (hp : RejectsParts unmarshal) (cfg : Config) {files : Files D}
    {rn back : RaftNode D} (hw : rn.Wf) (huse : files.log.InUse unmarshal)
    (hback : newNode cfg (files.disk unmarshal) = .ok back) (hlog : back.log = rn.log)
    {loaded : List LogEntry} (hload : loadEntries (files.disk unmarshal).wal = .ok loaded)
    (args : AppendEntriesArgs) (hc : Consecutive args.prevLogIndex args.entries)
    (hf : ∀ e ∈ args.entries, (WalRecord.append e).Fits) {rn' : RaftNode D}
    {reply : AppendEntriesReply} (hres : (rn.handleAppendEntries args).result = .ok (rn', reply))
    (hs : reply.success = true) :
    (∀ k n, ∃ back', newNode cfg
        ((files.crash (rn.handleAppendEntries args).writes k n).disk unmarshal) = .ok back' ∧
      Survives rn args.entries back'.log) ↔
    nextIndex loaded = 0 ∨ nextIndex loaded = rn.log.lastLogIndex + 1 ∨
      files.log.readable unmarshal ((remaining rn.log args.entries).map .append) = [] := by
  have hn := hw.numbered
  obtain ⟨hcfg, hsentinel, loaded', hload', hrec⟩ := newNode_ok hback
  cases hload.symm.trans hload'
  rw [hlog] at hsentinel hrec
  obtain ⟨happends, hadds⟩ := handleAppendEntries_appends hn hc hf hres hs
  have hiff := replays_iff_next hload hrec
  constructor
  · intro hall
    by_contra hcond
    rw [not_or, not_or] at hcond
    obtain ⟨hzero, hnext, hreadable⟩ := hcond
    have hnil : rn.log.entries = [] := by
      by_contra hne
      exact hnext (next_of_entries hload hrec hne)
    obtain ⟨hempty, hfirst⟩ := hadds.of_empty hn hc hnil
    obtain ⟨back', hback', _⟩ := hall (rn.handleAppendEntries args).writes.length 0
    obtain ⟨_, _, loaded'', hload'', _⟩ := newNode_ok hback'
    rw [Files.crash, List.getElem?_length] at hload''
    dsimp only at hload''
    rw [huse.writeAll_disk hu hp happends, hempty, loadEntries, replay_append hload] at hload''
    cases hrem : remaining rn.log args.entries with
    | nil =>
      rw [hrem] at hreadable
      exact hreadable (FileStore.readable_nil files.log)
    | cons e rest =>
      have hindex := hfirst e rest hrem
      rw [hrem] at hload'' hreadable
      obtain ⟨tail, htail⟩ := FileStore.readable_cons hreadable
      rw [List.map_cons, htail, replay, replayRecord, if_pos ⟨hzero, by omega⟩] at hload''
      cases hload''
  · intro hcond k n
    obtain ⟨⟨j, hwal⟩, hsnap⟩ := huse.crash_disk hu hp happends k n
    rw [← hsnap] at hsentinel
    by_cases hreplays : Replays (files.disk unmarshal).wal rn.log
    · obtain ⟨j', hj'⟩ := FileStore.readable_take unmarshal files.log
        ((rn.handleAppendEntries args).writes.flatMap StoreWrite.records) j
      obtain ⟨log', hr, hn', hsame, hsurvives⟩ := hadds.replays hn hc hreplays j'
      rw [← hj', ← hwal] at hr
      rw [← hsame] at hsentinel
      obtain ⟨back', hback', hlog'⟩ := newNode_of_replays hcfg hsentinel.symm hr hn'
      exact ⟨back', hback', hlog' ▸ hsurvives⟩
    · rw [hiff, not_or] at hreplays
      have hreadable := (hcond.resolve_left hreplays.1).resolve_left hreplays.2
      have hnil : rn.log.entries = [] := by
        by_contra hne
        exact hreplays.2 (next_of_entries hload hrec hne)
      rw [(hadds.of_empty hn hc hnil).1, hreadable, List.take_nil, List.append_nil] at hwal
      rw [← hwal] at hload
      rw [RaftLog.base, hsentinel] at hrec
      obtain ⟨back', hback', hlog'⟩ := newNode_log hcfg hload hrec
      rw [← hsentinel] at hlog'
      exact ⟨back', hback', hlog' ▸ survives_self rn args.entries⟩

end Recovery

section Cases

def filesWith (entries : List LogEntry) (snapshot : Option (Snapshot Unit)) : Files Unit :=
  ⟨none, (FileStore.newFileStore []).appendEntries entries, snapshot⟩

variable {entries : List LogEntry} {snapshot : Option (Snapshot Unit)}

theorem filesWith_inUse (hf : ∀ e ∈ entries, (WalRecord.append e).Fits) :
    (filesWith entries snapshot).log.InUse unmarshalMembers :=
  (inUse_empty _).appendEntries inverts_unmarshalMembers rejectsParts_unmarshalMembers hf

theorem filesWith_disk (hf : ∀ r ∈ entries.map WalRecord.append, r.Fits ∧ r.Short) :
    (filesWith entries snapshot).disk unmarshalMembers =
      ⟨none, entries.map .append, snapshot⟩ := by
  have hrecords := records_stream inverts_unmarshalMembers rejectsParts_unmarshalMembers
    fun r hr => (hf r hr).1
  rw [List.takeWhile_eq_self_iff.mpr fun r hr => by simpa using (hf r hr).2] at hrecords
  rw [Files.disk, filesWith, appendEntries_at_end rfl]
  simp only [FileStore.newFileStore, List.nil_append, hrecords]

def uncommittedFollower : RaftNode Unit :=
  followerWith 1 ⟨⟨0, 0, []⟩, [⟨1, 1, [1]⟩, ⟨1, 2, [2]⟩, ⟨1, 3, [3]⟩]⟩ 1

def conflictingRequest : AppendEntriesArgs :=
  ⟨2, "n1", 1, 1, [⟨2, 2, [4]⟩, ⟨2, 3, []⟩], 1⟩

theorem append_crash_recovers_iff_conflict :
    cutAtConflict uncommittedFollower.log conflictingRequest.entries = [⟨1, 1, [1]⟩] ∧
    ∀ k n, ∃ back, newNode uncommittedFollower.cfg
        (((filesWith uncommittedFollower.log.entries none).crash
          (uncommittedFollower.handleAppendEntries conflictingRequest).writes k n).disk
            unmarshalMembers) = .ok back ∧
      Survives uncommittedFollower conflictingRequest.entries back.log := by
  have hfits : ∀ e ∈ uncommittedFollower.log.entries, (WalRecord.append e).Fits := by decide
  have hdisk : (filesWith uncommittedFollower.log.entries none).disk unmarshalMembers = _ :=
    filesWith_disk (by decide +kernel)
  have hback : ∃ back, newNode uncommittedFollower.cfg
      ((filesWith uncommittedFollower.log.entries none).disk unmarshalMembers) = .ok back ∧
        back.log = uncommittedFollower.log := by
    rw [hdisk]
    exact ⟨_, rfl, rfl⟩
  obtain ⟨back, hback, hlog⟩ := hback
  have hload : loadEntries ((filesWith uncommittedFollower.log.entries none).disk
      unmarshalMembers).wal = .ok uncommittedFollower.log.entries := by
    rw [hdisk]
    rfl
  have hiff := append_crash_recovers_iff unmarshalMembers inverts_unmarshalMembers
    rejectsParts_unmarshalMembers uncommittedFollower.cfg ⟨by decide, by decide, by decide⟩
    (filesWith_inUse hfits) hback hlog hload conflictingRequest (by decide) (by decide) rfl rfl
  exact ⟨by decide, hiff.mpr (Or.inr (Or.inl rfl))⟩

/-- The snapshot at 5 was saved, but the process died before the log file was compacted. -/
def strandedFollower : RaftNode Unit := followerWith 1 ⟨⟨1, 5, []⟩, []⟩ 5

def strandedFiles : Files Unit := filesWith [⟨1, 1, [1]⟩, ⟨1, 2, [2]⟩] (some ⟨5, 1, ()⟩)

def nextRequest : AppendEntriesArgs := ⟨1, "n1", 5, 1, [⟨1, 6, [6]⟩], 5⟩

/-- The files recover to the log and the request is accepted, but then they hold 1, 2, 6. -/
theorem append_crash_strands :
    strandedFollower.Wf ∧ strandedFiles.log.InUse unmarshalMembers ∧
    (∃ back, newNode strandedFollower.cfg (strandedFiles.disk unmarshalMembers) = .ok back ∧
      back.log = strandedFollower.log) ∧
    Consecutive nextRequest.prevLogIndex nextRequest.entries ∧
    (∀ e ∈ nextRequest.entries, (WalRecord.append e).Fits) ∧
    (∃ rn' reply, (strandedFollower.handleAppendEntries nextRequest).result = .ok (rn', reply) ∧
      reply.success = true) ∧
    newNode strandedFollower.cfg ((strandedFiles.crash
        (strandedFollower.handleAppendEntries nextRequest).writes 1 0).disk unmarshalMembers) =
      .error (.loadingLog (.outOfOrder 6 3)) := by
  have hfits : ∀ e ∈ [(⟨1, 1, [1]⟩ : LogEntry), ⟨1, 2, [2]⟩], (WalRecord.append e).Fits := by
    decide
  have hdisk : strandedFiles.disk unmarshalMembers = _ := filesWith_disk (by decide +kernel)
  have hwrites : (strandedFollower.handleAppendEntries nextRequest).writes =
      [.writeRecord (.append ⟨1, 6, [6]⟩)] := rfl
  have hafter : strandedFiles.crash [.writeRecord (.append ⟨1, 6, [6]⟩)] 1 0 =
      filesWith [⟨1, 1, [1]⟩, ⟨1, 2, [2]⟩, ⟨1, 6, [6]⟩] (some ⟨5, 1, ()⟩) := by
    simp [Files.crash, Files.writeAll, Files.write, strandedFiles, filesWith,
      FileStore.appendEntries]
  refine ⟨⟨by decide, by decide, by decide⟩, filesWith_inUse hfits, ?_, by decide, by decide,
    ⟨_, _, rfl, rfl⟩, ?_⟩
  · rw [hdisk]
    exact ⟨_, rfl, rfl⟩
  · rw [hwrites, hafter, filesWith_disk (by decide +kernel)]
    rfl

end Cases

end Raft
