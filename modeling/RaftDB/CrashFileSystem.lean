import Mathlib.Data.List.Basic
import Mathlib.Logic.Function.Basic
import Mathlib.Order.Nat
import RaftDB.LogPrefix

/-!
# A file system that can crash

Files have a content on disk and writes that are only in the cache, and the names of a directory
have bindings that were changed since the directory was last synced. A crash keeps, of each file,
the oldest of its cached writes and a part of the next one, and of each name any binding that it
had since the last sync; files and names are independent of each other. Replacing a file by a
temporary one that is synced and renamed is atomic.
-/
namespace CrashFileSystem

/-! ## Files -/

inductive FileOp where
  | write (offset : ℕ) (bytes : List UInt8)
  | truncate (size : ℕ)
  deriving DecidableEq, Repr

/-- A gap in front of the bytes is filled with zeros. -/
def overwrite (content : List UInt8) (offset : ℕ) (bytes : List UInt8) : List UInt8 :=
  content.take offset ++ List.replicate (offset - content.length) 0 ++ bytes ++
    content.drop (offset + bytes.length)

def FileOp.apply (content : List UInt8) : FileOp → List UInt8
  | .write offset bytes => overwrite content offset bytes
  | .truncate size => content.take size ++ List.replicate (size - content.length) 0

structure File where
  synced : List UInt8
  /-- What has been done since the last sync, in order. -/
  pending : List FileOp
  deriving DecidableEq, Repr

namespace File

def empty : File := ⟨[], []⟩

def content (f : File) : List UInt8 := f.pending.foldl FileOp.apply f.synced

def add (f : File) (op : FileOp) : File := { f with pending := f.pending ++ [op] }

def sync (f : File) : File := ⟨f.content, []⟩

/-- What a crash leaves: the first `k` operations, and `n` bytes of the next one. -/
def cut (f : File) (k n : ℕ) : List UInt8 :=
  let before := (f.pending.take k).foldl FileOp.apply f.synced
  match f.pending[k]? with
  | some (.write offset bytes) => overwrite before offset (bytes.take n)
  | _ => before

variable {f : File} {op : FileOp} {k n : ℕ}

@[simp] theorem content_add : (f.add op).content = op.apply f.content := by
  simp [content, add]

@[simp] theorem content_sync : f.sync.content = f.content := rfl

theorem cut_of_le (h : f.pending.length ≤ k) : f.cut k n = f.content := by
  simp [cut, List.getElem?_eq_none h, List.take_of_length_le h, content]

theorem cut_empty (k n : ℕ) : empty.cut k n = [] := cut_of_le (Nat.zero_le k)

@[simp] theorem cut_sync : f.sync.cut k n = f.content := cut_of_le (Nat.zero_le k)

theorem cut_add_of_lt (h : k < f.pending.length) : (f.add op).cut k n = f.cut k n := by
  simp only [cut, add]
  rw [List.getElem?_append_left h, List.take_append_of_le_length h.le]

theorem cut_add (f : File) (op : FileOp) (k n : ℕ) :
    (∃ k', (f.add op).cut k n = f.cut k' n) ∨
      (∃ offset bytes, op = .write offset bytes ∧
        (f.add op).cut k n = overwrite f.content offset (bytes.take n)) ∨
      (f.add op).cut k n = op.apply f.content := by
  rcases Nat.lt_trichotomy k f.pending.length with hlt | heq | hgt
  · exact Or.inl ⟨k, cut_add_of_lt hlt⟩
  · subst heq
    have hnext : (f.add op).pending[f.pending.length]? = some op := by
      simp [add]
    have htake : (f.add op).pending.take f.pending.length = f.pending := by
      simp [add]
    cases op with
    | write offset bytes =>
      refine Or.inr (Or.inl ⟨offset, bytes, rfl, ?_⟩)
      simp only [cut, hnext, htake]
      rfl
    | truncate size =>
      refine Or.inl ⟨f.pending.length, ?_⟩
      rw [cut_of_le (le_refl f.pending.length)]
      simp only [cut, hnext, htake]
      rfl
  · refine Or.inr (Or.inr ?_)
    rw [cut_of_le (by simp only [add, List.length_append, List.length_singleton]; omega), content_add]

theorem overwrite_end (content bytes : List UInt8) :
    overwrite content content.length bytes = content ++ bytes := by
  simp [overwrite]

def extend (f : File) (bufs : List (List UInt8)) : File :=
  bufs.foldl (fun f buf => f.add (.write f.content.length buf)) f

theorem extend_cons (buf : List UInt8) (bufs : List (List UInt8)) :
    f.extend (buf :: bufs) = (f.add (.write f.content.length buf)).extend bufs := rfl

theorem content_extend (bufs : List (List UInt8)) :
    (f.extend bufs).content = f.content ++ bufs.flatten := by
  induction bufs generalizing f with
  | nil => simp [extend]
  | cons buf bufs ih =>
    rw [extend_cons, ih]
    simp [FileOp.apply, overwrite_end]

theorem cut_extend (bufs : List (List UInt8)) (k n : ℕ) :
    (∃ k', (f.extend bufs).cut k n = f.cut k' n) ∨
      ∃ m, (f.extend bufs).cut k n = f.content ++ bufs.flatten.take m := by
  induction bufs generalizing f with
  | nil => exact Or.inl ⟨k, rfl⟩
  | cons buf bufs ih =>
    rw [extend_cons, List.flatten_cons]
    rcases ih (f := f.add (.write f.content.length buf)) with ⟨k', hk⟩ | ⟨m, hm⟩
    · rw [hk]
      rcases cut_add f (.write f.content.length buf) k' n with hold | ⟨offset, bytes, hop, htorn⟩ | hdone
      · exact Or.inl hold
      · cases hop
        refine Or.inr ⟨min n buf.length, ?_⟩
        rw [htorn, overwrite_end, List.take_append_of_le_length (Nat.min_le_right _ _)]
        simp [List.take_eq_take_iff]
      · refine Or.inr ⟨buf.length, ?_⟩
        rw [hdone, FileOp.apply, overwrite_end, List.take_left]
    · refine Or.inr ⟨buf.length + m, ?_⟩
      rw [hm, content_add, FileOp.apply, overwrite_end, List.take_length_add_append, List.append_assoc]

end File

/-! ## The directory -/

structure FileSystem where
  files : ℕ → File
  /-- The next free number of a file. -/
  next : ℕ
  entry : String → Option ℕ
  /-- The bindings of a name before the present one, since the last sync of the directory. -/
  past : String → List (Option ℕ)

/-- The calls that change something. A file is given by its number. -/
inductive Call where
  | create (name : String)
  | write (file offset : ℕ) (bytes : List UInt8)
  | truncate (file size : ℕ)
  | sync (file : ℕ)
  | rename (old new : String)
  | remove (name : String)
  | syncDir
  deriving DecidableEq, Repr

/-- What is lost in a crash: where each file is cut, and which of its past bindings a name has;
the present one if there are not so many. -/
structure Loss where
  cut : ℕ → ℕ × ℕ
  pick : String → ℕ

namespace FileSystem

open Function

def empty : FileSystem := ⟨fun _ => .empty, 0, fun _ => none, fun _ => []⟩

def bind (fs : FileSystem) (name : String) (e : Option ℕ) : FileSystem :=
  { fs with
    entry := update fs.entry name e
    past := update fs.past name (fs.entry name :: fs.past name) }

def modify (fs : FileSystem) (file : ℕ) (g : File → File) : FileSystem :=
  { fs with files := update fs.files file (g (fs.files file)) }

def call (fs : FileSystem) : Call → FileSystem
  | .create name =>
    bind { fs with files := update fs.files fs.next .empty, next := fs.next + 1 } name (some fs.next)
  | .write file offset bytes => fs.modify file (·.add (.write offset bytes))
  | .truncate file size => fs.modify file (·.add (.truncate size))
  | .sync file => fs.modify file File.sync
  | .rename old new =>
    match fs.entry old with
    | none => fs
    | some file => (fs.bind new (some file)).bind old none
  | .remove name =>
    match fs.entry name with
    | none => fs
    | some _ => fs.bind name none
  | .syncDir => { fs with past := fun _ => [] }

def run (fs : FileSystem) (cs : List Call) : FileSystem := cs.foldl call fs

def read (fs : FileSystem) (name : String) : Option (List UInt8) :=
  (fs.entry name).map fun file => (fs.files file).content

def crash (fs : FileSystem) (loss : Loss) : FileSystem where
  files := fun file => ⟨(fs.files file).cut (loss.cut file).1 (loss.cut file).2, []⟩
  next := fs.next
  entry := fun name => (fs.past name)[loss.pick name]?.getD (fs.entry name)
  past := fun _ => []

/-! ## What may be left -/

/-- The name has or may have the binding after a crash. -/
def Possible (fs : FileSystem) (name : String) (e : Option ℕ) : Prop :=
  e = fs.entry name ∨ e ∈ fs.past name

def Survives (fs : FileSystem) (name : String) (o : Option (List UInt8)) : Prop :=
  ∃ e, fs.Possible name e ∧ ∃ k n, o = e.map fun file => (fs.files file).cut k n

def Valid (fs : FileSystem) : Prop := ∀ name file, fs.Possible name (some file) → file < fs.next

variable {fs : FileSystem} {name other tmp : String} {e : Option ℕ} {o : Option (List UInt8)}
  {c : Call} {cs : List Call} {loss : Loss} {file : ℕ}

theorem valid_empty : Valid empty := by
  rintro name file (h | h) <;> cases h

theorem survives_read (fs : FileSystem) (name : String) : fs.Survives name (fs.read name) := by
  refine ⟨fs.entry name, Or.inl rfl, ?_⟩
  cases he : fs.entry name with
  | none => exact ⟨0, 0, by simp [read, he]⟩
  | some file =>
    exact ⟨(fs.files file).pending.length, 0, by simp [read, he, File.cut_of_le (le_refl _)]⟩

theorem possible_crash (h : (fs.crash loss).Possible name e) : fs.Possible name e := by
  rcases h with rfl | h
  · change fs.Possible name ((fs.past name)[loss.pick name]?.getD (fs.entry name))
    cases hp : (fs.past name)[loss.pick name]? with
    | none => exact Or.inl rfl
    | some e => exact Or.inr (List.mem_of_getElem? hp)
  · cases h

theorem Valid.crash (h : fs.Valid) (loss : Loss) : (fs.crash loss).Valid :=
  fun name file hp => h name file (possible_crash hp)

theorem survives_crash (h : (fs.crash loss).Survives name o) : fs.Survives name o := by
  obtain ⟨e, he, k, n, rfl⟩ := h
  refine ⟨e, possible_crash he, ?_⟩
  cases e with
  | none => exact ⟨0, 0, rfl⟩
  | some file =>
    refine ⟨(loss.cut file).1, (loss.cut file).2, ?_⟩
    change some (File.cut ⟨_, []⟩ k n) = _
    rw [File.cut_of_le (Nat.zero_le k)]
    rfl

theorem survives_crash_unique {o' : Option (List UInt8)} (h : (fs.crash loss).Survives name o)
    (h' : (fs.crash loss).Survives name o') : o = o' := by
  have huniq : ∀ {x}, (fs.crash loss).Survives name x → x = (fs.crash loss).read name := by
    rintro x ⟨e, he | he, k, n, rfl⟩
    · subst he
      simp only [read]
      congr 1
      funext file
      exact File.cut_of_le (Nat.zero_le k)
    · cases he
  rw [huniq h, huniq h']

/-! ## Calls -/

theorem possible_bind_of_ne (h : other ≠ name) :
    (fs.bind name e).Possible other = fs.Possible other := by
  funext x
  simp [Possible, bind, update_of_ne h]

theorem possible_bind (x : Option ℕ) :
    (fs.bind name e).Possible name x ↔ x = e ∨ fs.Possible name x := by
  simp [Possible, bind]

def Spares (fs : FileSystem) (name : String) : Call → Prop
  | .create other => other ≠ name
  | .write file _ _ => ¬fs.Possible name (some file)
  | .truncate file _ => ¬fs.Possible name (some file)
  | .sync _ => True
  | .rename old new => old ≠ name ∧ new ≠ name
  | .remove other => other ≠ name
  | .syncDir => True

theorem entry_bind_of_ne (h : other ≠ name) : (fs.bind name e).entry other = fs.entry other :=
  update_of_ne h _ _

theorem possible_spared (hc : fs.Spares name c) (h : (fs.call c).Possible name e) :
    fs.Possible name e := by
  cases c with
  | create other =>
    rw [call, possible_bind_of_ne hc.symm] at h
    exact h
  | write file offset bytes => exact h
  | truncate file size => exact h
  | sync file => exact h
  | rename old new =>
    simp only [call] at h
    split at h
    · exact h
    · rwa [possible_bind_of_ne hc.1.symm, possible_bind_of_ne hc.2.symm] at h
  | remove other =>
    simp only [call] at h
    split at h
    · exact h
    · rwa [possible_bind_of_ne hc.symm] at h
  | syncDir =>
    rcases h with h | h
    · exact Or.inl h
    · cases h

theorem entry_spared (hc : fs.Spares name c) : (fs.call c).entry name = fs.entry name := by
  cases c with
  | create other => exact entry_bind_of_ne hc.symm
  | write file offset bytes => rfl
  | truncate file size => rfl
  | sync file => rfl
  | rename old new =>
    simp only [call]
    split
    · rfl
    · rw [entry_bind_of_ne hc.1.symm, entry_bind_of_ne hc.2.symm]
  | remove other =>
    simp only [call]
    split
    · rfl
    · exact entry_bind_of_ne hc.symm
  | syncDir => rfl

theorem file_spared (hv : fs.Valid) (hc : fs.Spares name c) (h : fs.Possible name (some file)) :
    (fs.call c).files file = fs.files file ∨ (fs.call c).files file = (fs.files file).sync := by
  cases c with
  | create other =>
    have hlt := hv name file h
    exact Or.inl (update_of_ne (Nat.ne_of_lt hlt) _ _)
  | write i offset bytes =>
    refine Or.inl (update_of_ne ?_ _ _)
    rintro rfl
    exact hc h
  | truncate i size =>
    refine Or.inl (update_of_ne ?_ _ _)
    rintro rfl
    exact hc h
  | sync i =>
    by_cases hi : file = i
    · subst hi
      exact Or.inr (update_self _ _ _)
    · exact Or.inl (update_of_ne hi _ _)
  | rename old new =>
    simp only [call]
    split <;> exact Or.inl rfl
  | remove other =>
    simp only [call]
    split <;> exact Or.inl rfl
  | syncDir => exact Or.inl rfl

theorem survives_spared (hv : fs.Valid) (hc : fs.Spares name c)
    (h : (fs.call c).Survives name o) : fs.Survives name o := by
  obtain ⟨e, he, k, n, rfl⟩ := h
  have he' := possible_spared hc he
  refine ⟨e, he', ?_⟩
  cases e with
  | none => exact ⟨0, 0, rfl⟩
  | some file =>
    rcases file_spared hv hc he' with hfile | hfile
    · exact ⟨k, n, by simp [hfile]⟩
    · refine ⟨(fs.files file).pending.length, 0, ?_⟩
      simp [hfile, File.cut_of_le (le_refl (fs.files file).pending.length)]

theorem read_spared (hv : fs.Valid) (hc : fs.Spares name c) :
    (fs.call c).read name = fs.read name := by
  rw [read, read, entry_spared hc]
  cases he : fs.entry name with
  | none => rfl
  | some file =>
    rcases file_spared hv hc (Or.inl he.symm) with hfile | hfile <;> simp [hfile]

theorem possible_call (h : (fs.call c).Possible name (some file)) :
    (file = fs.next ∧ ∃ m, c = .create m) ∨ ∃ other, fs.Possible other (some file) := by
  have hbind : ∀ {g : FileSystem} {m : String} {x : Option ℕ},
      (g.bind m x).Possible name (some file) → x = some file ∨ g.Possible name (some file) := by
    intro g m x hp
    by_cases hm : name = m
    · subst hm
      exact ((possible_bind _).mp hp).imp_left Eq.symm
    · rw [possible_bind_of_ne hm] at hp
      exact Or.inr hp
  cases c with
  | create other =>
    rcases hbind h with h | h
    · exact Or.inl ⟨(Option.some.inj h).symm, other, rfl⟩
    · exact Or.inr ⟨name, h⟩
  | write i offset bytes => exact Or.inr ⟨name, h⟩
  | truncate i size => exact Or.inr ⟨name, h⟩
  | sync i => exact Or.inr ⟨name, h⟩
  | rename old new =>
    simp only [call] at h
    split at h
    · exact Or.inr ⟨name, h⟩
    · rename_i i hi
      rcases hbind h with h | h
      · cases h
      rcases hbind h with h | h
      · exact Or.inr ⟨old, Or.inl (h.symm.trans hi.symm)⟩
      · exact Or.inr ⟨name, h⟩
  | remove other =>
    simp only [call] at h
    split at h
    · exact Or.inr ⟨name, h⟩
    · rcases hbind h with h | h
      · cases h
      · exact Or.inr ⟨name, h⟩
  | syncDir =>
    rcases h with h | h
    · exact Or.inr ⟨name, Or.inl h⟩
    · cases h

theorem next_call (fs : FileSystem) (c : Call) :
    fs.next ≤ (fs.call c).next ∧ ((∃ name, c = .create name) → fs.next < (fs.call c).next) := by
  cases c with
  | create name => exact ⟨Nat.le_succ _, fun _ => Nat.lt_succ_self _⟩
  | write i offset bytes => exact ⟨le_refl _, by simp⟩
  | truncate i size => exact ⟨le_refl _, by simp⟩
  | sync i => exact ⟨le_refl _, by simp⟩
  | rename old new =>
    simp only [call]
    split <;> exact ⟨le_refl _, by simp⟩
  | remove name =>
    simp only [call]
    split <;> exact ⟨le_refl _, by simp⟩
  | syncDir => exact ⟨le_refl _, by simp⟩

theorem Valid.call (h : fs.Valid) (c : Call) : (fs.call c).Valid := by
  intro name file hp
  obtain ⟨hle, hlt⟩ := next_call fs c
  rcases possible_call hp with ⟨rfl, hc⟩ | ⟨other, hp⟩
  · exact hlt hc
  · exact (h other file hp).trans_le hle

/-! ## Runs of calls -/

@[simp] theorem run_nil (fs : FileSystem) : fs.run [] = fs := rfl

theorem run_cons (fs : FileSystem) (c : Call) (cs : List Call) :
    fs.run (c :: cs) = (fs.call c).run cs := rfl

theorem run_append (fs : FileSystem) (cs cs' : List Call) :
    fs.run (cs ++ cs') = (fs.run cs).run cs' := List.foldl_append

theorem Valid.run (h : fs.Valid) (cs : List Call) : (fs.run cs).Valid := by
  induction cs generalizing fs with
  | nil => exact h
  | cons c cs ih => exact ih (h.call c)

theorem Spares.later {c' : Call} (hc : fs.Spares name c) (hc' : fs.Spares name c') :
    (fs.call c).Spares name c' := by
  cases c' with
  | write file offset bytes => exact fun hp => hc' (possible_spared hc hp)
  | truncate file size => exact fun hp => hc' (possible_spared hc hp)
  | create other => exact hc'
  | sync file => trivial
  | rename old new => exact hc'
  | remove other => exact hc'
  | syncDir => trivial

/-- Calls that have nothing to do with a name change nothing about it. -/
theorem run_spared (hv : fs.Valid) (hcs : ∀ c ∈ cs, fs.Spares name c) :
    (∀ o, (fs.run cs).Survives name o → fs.Survives name o) ∧
      (∀ e, (fs.run cs).Possible name e → fs.Possible name e) ∧
      (fs.run cs).read name = fs.read name ∧ (fs.run cs).entry name = fs.entry name := by
  induction cs generalizing fs with
  | nil => exact ⟨fun _ h => h, fun _ h => h, rfl, rfl⟩
  | cons c cs ih =>
    have hc := hcs c List.mem_cons_self
    obtain ⟨hsurvives, hpossible, hread, hentry⟩ := ih (hv.call c) fun c' hc' =>
      Spares.later hc (hcs c' (List.mem_cons_of_mem c hc'))
    refine ⟨?_, ?_, ?_, ?_⟩
    · intro o ho
      exact survives_spared hv hc (hsurvives o ho)
    · intro e he
      exact possible_spared hc (hpossible e he)
    · exact hread.trans (read_spared hv hc)
    · exact hentry.trans (entry_spared hc)

def writes (file : ℕ) : ℕ → List (List UInt8) → List Call
  | _, [] => []
  | position, buf :: bufs => .write file position buf :: writes file (position + buf.length) bufs

theorem mem_writes {position : ℕ} {bufs : List (List UInt8)} (h : c ∈ writes file position bufs) :
    ∃ offset bytes, c = .write file offset bytes := by
  induction bufs generalizing position with
  | nil => cases h
  | cons buf bufs ih =>
    rcases List.mem_cons.mp h with rfl | h
    · exact ⟨_, _, rfl⟩
    · exact ih h

theorem take_writes (file position : ℕ) (bufs : List (List UInt8)) (k : ℕ) :
    (writes file position bufs).take k = writes file position (bufs.take k) := by
  induction bufs generalizing position k with
  | nil => simp [writes]
  | cons buf bufs ih =>
    cases k with
    | zero => rfl
    | succ k => simp [writes, ih]

theorem run_writes {position : ℕ} (h : position = (fs.files file).content.length)
    (bufs : List (List UInt8)) :
    fs.run (writes file position bufs) = fs.modify file (·.extend bufs) := by
  induction bufs generalizing fs position with
  | nil =>
    change fs = { fs with files := update fs.files file (fs.files file) }
    rw [update_eq_self]
  | cons buf bufs ih =>
    have hnext : position + buf.length =
        ((fs.call (.write file position buf)).files file).content.length := by
      simp [call, modify, h, FileOp.apply, File.overwrite_end]
    rw [writes, run_cons, ih hnext]
    simp only [call, modify, update_self, update_idem, h]
    rfl

/-! ## Atomic replacement -/

def prepare (fs : FileSystem) (tmp : String) (bufs : List (List UInt8)) : List Call :=
  .create tmp :: (writes fs.next 0 bufs ++ [.sync fs.next])

def install (tmp name : String) : List Call := [.rename tmp name, .syncDir, .remove tmp]

def replace (fs : FileSystem) (tmp name : String) (bufs : List (List UInt8)) : List Call :=
  prepare fs tmp bufs ++ install tmp name

variable {bufs : List (List UInt8)}

theorem prepare_spares (hv : fs.Valid) (htmp : tmp ≠ other) : ∀ c ∈ prepare fs tmp bufs,
    fs.Spares other c := by
  intro c hc
  rcases List.mem_cons.mp hc with rfl | hc
  · exact htmp
  rcases List.mem_append.mp hc with hc | hc
  · obtain ⟨offset, bytes, rfl⟩ := mem_writes hc
    exact fun hp => absurd (hv other fs.next hp) (Nat.lt_irrefl _)
  · rw [List.mem_singleton.mp hc]
    trivial

theorem run_prepare (fs : FileSystem) (tmp : String) (bufs : List (List UInt8)) :
    fs.run (prepare fs tmp bufs) =
      bind { fs with files := update fs.files fs.next ⟨bufs.flatten, []⟩, next := fs.next + 1 }
        tmp (some fs.next) := by
  have hend : 0 = ((fs.call (.create tmp)).files fs.next).content.length := by
    simp [call, bind, File.content, File.empty]
  rw [prepare, run_cons, run_append, run_writes hend]
  simp only [run, List.foldl_cons, List.foldl_nil, call, modify, bind, update_self, update_idem]
  congr 2
  change File.mk (File.empty.extend bufs).content [] = _
  rw [File.content_extend]
  rfl

theorem run_install (h : fs.entry tmp = some file) :
    fs.run (install tmp name) =
      { fs with entry := update (update fs.entry name (some file)) tmp none, past := fun _ => [] } := by
  simp [install, run, call, h, bind]

theorem survives_rename (h : fs.entry tmp = some file) (hne : tmp ≠ name)
    (ho : (fs.call (.rename tmp name)).Survives name o) :
    fs.Survives name o ∨ ∃ k n, o = some ((fs.files file).cut k n) := by
  obtain ⟨e, he, k, n, rfl⟩ := ho
  simp only [call, h, possible_bind_of_ne hne.symm, possible_bind] at he
  rcases he with rfl | he
  · refine Or.inr ⟨k, n, ?_⟩
    simp only [call, h]
    rfl
  · refine Or.inl ⟨e, he, k, n, ?_⟩
    simp only [call, h]
    rfl

theorem replace_cases (hv : fs.Valid) (hne : tmp ≠ name) (bufs : List (List UInt8)) (k : ℕ)
    {cleanup : List Call} (hclean : ∀ c ∈ cleanup, c = .remove tmp) :
    (∀ c ∈ (replace fs tmp name bufs).take k ++ cleanup, fs.Spares name c) ∨
      ∃ rest, (replace fs tmp name bufs).take k ++ cleanup =
          prepare fs tmp bufs ++ .rename tmp name :: rest ∧
        ∀ g : FileSystem, ∀ c ∈ rest, g.Spares name c := by
  have hcleanup : ∀ g : FileSystem, ∀ c ∈ cleanup, g.Spares name c := by
    intro g c hc
    rw [hclean c hc]
    exact hne
  have htake := LogPrefix.take_append_cons (prepare fs tmp bufs) [.syncDir, .remove tmp] (.rename tmp name) k
  rw [replace, install]
  rcases htake with htake | htake
  · left
    rw [htake]
    intro c hc
    rcases List.mem_append.mp hc with hc | hc
    · exact prepare_spares hv hne c (List.mem_of_mem_take hc)
    · exact hcleanup fs c hc
  · refine Or.inr ⟨_, by rw [htake, List.append_assoc, List.cons_append], ?_⟩
    intro g c hc
    rcases List.mem_append.mp hc with hc | hc
    · have hmem := List.mem_of_mem_take hc
      simp only [List.mem_cons, List.not_mem_nil, or_false] at hmem
      rcases hmem with rfl | rfl
      · trivial
      · exact hne
    · exact hcleanup g c hc

/-- Interrupted anywhere, with or without the removal of the temporary file, the replacement
leaves what was there or the new content. -/
theorem survives_replace (hv : fs.Valid) (hne : tmp ≠ name) (k : ℕ) {cleanup : List Call}
    (hclean : ∀ c ∈ cleanup, c = .remove tmp)
    (ho : (fs.run ((replace fs tmp name bufs).take k ++ cleanup)).Survives name o) :
    fs.Survives name o ∨ o = some bufs.flatten := by
  rcases replace_cases hv hne bufs k hclean with hspares | ⟨rest, heq, hrest⟩
  · exact Or.inl ((run_spared hv hspares).1 o ho)
  · have hentry : (fs.run (prepare fs tmp bufs)).entry tmp = some fs.next := by
      simp [run_prepare, bind]
    have hfile : (fs.run (prepare fs tmp bufs)).files fs.next = ⟨bufs.flatten, []⟩ := by
      simp [run_prepare, bind]
    rw [heq, run_append, run_cons] at ho
    have hrenamed := (run_spared ((hv.run _).call _) (hrest _)).1 o ho
    rcases survives_rename hentry hne hrenamed with hold | ⟨k', n, hnew⟩
    · exact Or.inl ((run_spared hv (prepare_spares hv hne)).1 o hold)
    · right
      rw [hnew, hfile, File.cut_of_le (Nat.zero_le k')]
      rfl

theorem possible_replace (hv : fs.Valid) (hne : tmp ≠ name) (k : ℕ) {cleanup : List Call}
    (hclean : ∀ c ∈ cleanup, c = .remove tmp)
    (he : (fs.run ((replace fs tmp name bufs).take k ++ cleanup)).Possible name e) :
    fs.Possible name e ∨ e = some fs.next := by
  rcases replace_cases hv hne bufs k hclean with hspares | ⟨rest, heq, hrest⟩
  · exact Or.inl ((run_spared hv hspares).2.1 e he)
  · have hentry : (fs.run (prepare fs tmp bufs)).entry tmp = some fs.next := by
      simp [run_prepare, bind]
    rw [heq, run_append, run_cons] at he
    have hrenamed := (run_spared ((hv.run _).call _) (hrest _)).2.1 e he
    simp only [call, hentry, possible_bind_of_ne hne.symm, possible_bind] at hrenamed
    rcases hrenamed with hnew | hold
    · exact Or.inr hnew
    · exact Or.inl ((run_spared hv (prepare_spares hv hne)).2.1 e hold)

/-- When it is done, the new content is there for good, and so is all else in the directory. -/
theorem run_replace (fs : FileSystem) (hne : tmp ≠ name) (bufs : List (List UInt8)) :
    (fs.run (replace fs tmp name bufs)).entry name = some fs.next ∧
      (fs.run (replace fs tmp name bufs)).files fs.next = ⟨bufs.flatten, []⟩ ∧
      (fs.run (replace fs tmp name bufs)).past = fun _ => [] := by
  have hentry : (fs.run (prepare fs tmp bufs)).entry tmp = some fs.next := by
    simp [run_prepare, bind]
  rw [replace, run_append, run_install hentry]
  refine ⟨?_, ?_, rfl⟩
  · simp [update_of_ne hne.symm]
  · simp [run_prepare, bind]

theorem survives_synced {content : List UInt8} (hentry : fs.entry name = some file)
    (hpast : fs.past name = []) (hfile : fs.files file = ⟨content, []⟩) (ho : fs.Survives name o) :
    o = some content := by
  obtain ⟨e, he | he, k, n, rfl⟩ := ho
  · rw [he, hentry, Option.map_some, hfile, File.cut_of_le (Nat.zero_le k)]
    rfl
  · rw [hpast] at he
    cases he

theorem replace_spares (hv : fs.Valid) (htmp : tmp ≠ other) (hname : name ≠ other) {k : ℕ}
    {cleanup : List Call} (hclean : ∀ c ∈ cleanup, c = .remove tmp) :
    ∀ c ∈ (replace fs tmp name bufs).take k ++ cleanup, fs.Spares other c := by
  intro c hc
  rcases List.mem_append.mp hc with hc | hc
  · rcases List.mem_append.mp (List.mem_of_mem_take hc) with hc | hc
    · exact prepare_spares hv htmp c hc
    · simp only [install, List.mem_cons, List.not_mem_nil, or_false] at hc
      rcases hc with rfl | rfl | rfl
      · exact ⟨htmp, hname⟩
      · trivial
      · exact htmp
  · rw [hclean c hc]
    exact htmp

end FileSystem

end CrashFileSystem
