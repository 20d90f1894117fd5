import Mathlib.Data.List.AList
import Mathlib.Data.List.TakeWhile

/-!
# The file monitor

`FileMonitor` calls back those who observe a file when something happens to it.  It watches
the directory of the file with inotify and keeps an entry for each directory, with the cookies
of the files in it.  The entries are on the heap and are found in two maps: by the name of the
directory, for the commands, and by the watch descriptor, for the events.

* `getDirAndBasename`, `processObserve`, `processForget`, `processCommand`, `processInotify` —
  the functions of the class; a pointer to an entry that was deleted is undefined.
* `World` — the files of the cookies, and what `inotify_add_watch` returns for a name.
* `World.split_of_notMem`, `World.notMem_split` — where a path is split: at its name, unless
  there is a backslash in it.
* `Lists` — an entry that has the observers of a directory, under the names of their files.
* `Inv` — **what holds of the two maps and the heap**, kept by a write to an entry, a new entry
  and one that is erased.
-/

namespace Rtp.Util.FileMonitor

open Function (update update_self update_of_ne)

/-! ## Files, events and watches -/

/-- The file of a cookie: a name, and the part before the last slash. -/
structure Path where
  dir : List Char
  name : List Char
  name_ne : name ≠ []
  noSlash : '/' ∉ name

/-- `cookie->file`. -/
def Path.text (p : Path) : List Char := p.dir ++ '/' :: p.name

/-- The characters that `find_last_of` looks for. -/
def isSeparator (c : Char) : Bool := c = '/' ∨ c = '\\'

/-- `GetDirAndBasename`: what comes before and after the last separator, and twice the whole
path where there is none. -/
def getDirAndBasename (path : List Char) : List Char × List Char :=
  let basename := (path.reverse.takeWhile fun c => !isSeparator c).reverse
  if basename = path then (path, path)
  else (path.take (path.length - basename.length - 1), basename)

inductive Event where
  | create
  | modify
  | delete
  | other
  deriving DecidableEq, Repr

/-- `ToEvent`, with the bits of `sys/inotify.h`. -/
def toEvent (mask : BitVec 32) : Event :=
  -- IN_CREATE
  if mask &&& 0x100 ≠ 0 then .create
  -- IN_ATTRIB, IN_MODIFY, IN_MOVED_TO
  else if mask &&& (0x4 ||| 0x2 ||| 0x80) ≠ 0 then .modify
  -- IN_DELETE, IN_MOVED_FROM
  else if mask &&& (0x200 ||| 0x40) ≠ 0 then .delete
  else .other

/-- `inotify_event`, with its name up to the first zero. -/
structure InotifyEvent where
  wd : ℤ
  mask : BitVec 32
  name : List Char

/-- What the class is given: the files of the cookies, the directory that a name stands for,
and the watch descriptors.  A watch succeeds, and two names have the same descriptor if and
only if they stand for the same directory. -/
structure World (Cookie Dir : Type*) where
  file : Cookie → Path
  resolve : List Char → Dir
  watch : Dir → ℤ
  watch_ne : ∀ d, watch d ≠ -1
  watch_injective : Function.Injective watch

/-- `inotify_add_watch`. -/
def World.inotifyAddWatch {Cookie Dir : Type*} (w : World Cookie Dir) (name : List Char) : ℤ :=
  w.watch (w.resolve name)

/-! ## The class -/

variable {Cookie Dir : Type*}

/-- `MonitorEntry`. -/
structure MonitorEntry (Cookie : Type*) where
  wd : ℤ
  dir : List Char
  entries : AList fun _ : List Char => List Cookie

namespace MonitorEntry

/-- `entries[basename].emplace_back(cookie)`. -/
def add (basename : List Char) (c : Cookie) (e : MonitorEntry Cookie) : MonitorEntry Cookie where
  wd := e.wd
  dir := e.dir
  entries := e.entries.insert basename ((e.entries.lookup basename).getD [] ++ [c])

/-- The cookie out of the list of its file, and the list out of the map when it is empty. -/
def remove [DecidableEq Cookie] (basename : List Char) (c : Cookie) (e : MonitorEntry Cookie) :
    MonitorEntry Cookie :=
  match e.entries.lookup basename with
  | none => e
  | some cookies =>
    let rest := cookies.filter (· ≠ c)
    { e with
      entries :=
        if rest = [] then e.entries.erase basename else e.entries.insert basename rest }

end MonitorEntry

/-- `FileMonitor`: the two maps to the entries on the heap, and how many were allocated. -/
structure Monitor (Cookie : Type*) where
  nameEntryMap : List Char → Option ℕ
  wdEntryMap : ℤ → Option ℕ
  heap : ℕ → Option (MonitorEntry Cookie)
  allocated : ℕ

namespace Monitor

def init : Monitor Cookie := ⟨fun _ => none, fun _ => none, fun _ => none, 0⟩

/-- A write to an entry. -/
def setEntry (p : ℕ) (e : MonitorEntry Cookie) (f : Monitor Cookie) : Monitor Cookie :=
  { f with heap := update f.heap p (some e) }

/-- A new entry, in both maps. -/
def insertEntry (e : MonitorEntry Cookie) (f : Monitor Cookie) : Monitor Cookie where
  nameEntryMap := update f.nameEntryMap e.dir (some f.allocated)
  wdEntryMap := update f.wdEntryMap e.wd (some f.allocated)
  heap := update f.heap f.allocated (some e)
  allocated := f.allocated + 1

/-- An entry taken out of both maps and deleted. -/
def eraseEntry (p : ℕ) (e : MonitorEntry Cookie) (f : Monitor Cookie) : Monitor Cookie where
  nameEntryMap := update f.nameEntryMap e.dir none
  wdEntryMap := update f.wdEntryMap e.wd none
  heap := update f.heap p none
  allocated := f.allocated

/-- `ProcessObserve`. -/
def processObserve (w : World Cookie Dir) (c : Cookie) (f : Monitor Cookie) :
    Option (Monitor Cookie) :=
  let split := getDirAndBasename (w.file c).text
  match f.nameEntryMap split.1 with
  | some p =>
    match f.heap p with
    | none => none
    | some e => some (f.setEntry p (e.add split.2 c))
  | none =>
    let wd := w.inotifyAddWatch split.1
    if wd = -1 then some f
    else some (f.insertEntry (MonitorEntry.add split.2 c ⟨wd, split.1, ∅⟩))

/-- `ProcessForget`.  The cookie is released afterwards, when no entry has it. -/
def processForget [DecidableEq Cookie] (w : World Cookie Dir) (c : Cookie)
    (f : Monitor Cookie) : Option (Monitor Cookie) :=
  let split := getDirAndBasename (w.file c).text
  match f.nameEntryMap split.1 with
  | none => some f
  | some p =>
    match f.heap p with
    | none => none
    | some e =>
      let entry := e.remove split.2 c
      some (if entry.entries.keys = [] then f.eraseEntry p entry else f.setEntry p entry)

/-- What happens for one event: the cookies whose action is called, with the event. -/
def notify (f : Monitor Cookie) (event : InotifyEvent) : Option (List (Cookie × Event)) :=
  if event.name = [] then some []
  else
    match f.wdEntryMap event.wd with
    | none => some []
    | some p =>
      match f.heap p with
      | none => none
      | some e =>
        some (((e.entries.lookup event.name).getD []).map fun c => (c, toEvent event.mask))

/-- `ProcessInotify` on the events that were read. -/
def processInotify (f : Monitor Cookie) (events : List InotifyEvent) :
    Option (List (Cookie × Event)) :=
  (events.mapM f.notify).map List.flatten

end Monitor

inductive Command (Cookie : Type*) where
  | observe (c : Cookie)
  | forget (c : Cookie)

/-- One round of the loop in `ProcessCommand`. -/
def process [DecidableEq Cookie] (w : World Cookie Dir) (f : Monitor Cookie) :
    Command Cookie → Option (Monitor Cookie)
  | .observe c => f.processObserve w c
  | .forget c => f.processForget w c

/-- `ProcessCommand` on the commands that were given. -/
def processCommand [DecidableEq Cookie] (w : World Cookie Dir) (cmds : List (Command Cookie))
    (f : Monitor Cookie) : Option (Monitor Cookie) :=
  cmds.foldlM (process w) f

/-! ## Names -/

/-- The path of a cookie as the class splits it. -/
def World.split (w : World Cookie Dir) (c : Cookie) : List Char × List Char :=
  getDirAndBasename (w.file c).text

/-- Without a backslash in the name, a path is split where its name begins. -/
theorem World.split_of_notMem (w : World Cookie Dir) {c : Cookie}
    (h : '\\' ∉ (w.file c).name) : w.split c = ((w.file c).dir, (w.file c).name) := by
  have hbase : ((w.file c).text.reverse.takeWhile fun c => !isSeparator c).reverse
      = (w.file c).name := by
    rw [Path.text, List.reverse_append, List.reverse_cons, List.append_assoc,
      List.singleton_append, List.takeWhile_append_of_pos, List.takeWhile_cons_of_neg,
      List.append_nil, List.reverse_reverse]
    · decide
    · intro x hx
      rw [List.mem_reverse] at hx
      have hslash : x ≠ '/' := by
        rintro rfl
        exact (w.file c).noSlash hx
      have hback : x ≠ '\\' := by
        rintro rfl
        exact h hx
      simp [isSeparator, hslash, hback]
  have hlen : (w.file c).text.length = (w.file c).dir.length + (w.file c).name.length + 1 := by
    simp [Path.text]
    omega
  simp only [World.split, getDirAndBasename, hbase]
  rw [if_neg]
  · have htake : (w.file c).text.length - (w.file c).name.length - 1
        = (w.file c).dir.length := by omega
    rw [htake, Path.text, List.take_left]
  · intro heq
    have hsame := congrArg List.length heq
    omega

/-- What the class takes for the name never has a backslash. -/
theorem World.notMem_split (w : World Cookie Dir) (c : Cookie) : '\\' ∉ (w.split c).2 := by
  have hno : ∀ x ∈ ((w.file c).text.reverse.takeWhile fun c => !isSeparator c).reverse,
      isSeparator x = false := by
    intro x hx
    rw [List.mem_reverse] at hx
    simpa using List.mem_takeWhile_imp hx
  simp only [World.split, getDirAndBasename]
  split
  next heq =>
    -- there is a slash in the path, so the last part is not the whole path
    have hslash : '/' ∈ (w.file c).text := by simp [Path.text]
    rw [← heq] at hslash
    exact absurd (hno _ hslash) (by decide)
  next =>
    intro hmem
    exact absurd (hno _ hmem) (by decide)

/-! ## Entries -/

/-- The observers that an entry has to list under a name. -/
def listed (w : World Cookie Dir) (live : List Cookie) (dir basename : List Char) :
    List Cookie :=
  live.filter fun c => w.split c = (dir, basename)

/-- A list in the map of an entry, which has no empty ones. -/
def filled (cookies : List Cookie) : Option (List Cookie) :=
  if cookies = [] then none else some cookies

variable {w : World Cookie Dir} {live : List Cookie} {c : Cookie} {f f' : Monitor Cookie}
  {e : MonitorEntry Cookie} {dir basename : List Char}

@[simp] theorem getD_filled (cookies : List Cookie) : (filled cookies).getD [] = cookies := by
  unfold filled
  split
  next h => exact h.symm
  next => rfl

theorem filled_eq_none_iff {cookies : List Cookie} : filled cookies = none ↔ cookies = [] := by
  simp [filled]

theorem mem_listed {c : Cookie} :
    c ∈ listed w live dir basename ↔ c ∈ live ∧ w.split c = (dir, basename) := by
  simp [listed]

theorem listed_append_self (c : Cookie) :
    listed w (live ++ [c]) (w.split c).1 (w.split c).2
      = listed w live (w.split c).1 (w.split c).2 ++ [c] := by
  simp [listed]

theorem listed_append_of_ne (h : w.split c ≠ (dir, basename)) :
    listed w (live ++ [c]) dir basename = listed w live dir basename := by
  simp [listed, h]

theorem listed_filter [DecidableEq Cookie] (c : Cookie) :
    listed w (live.filter (· ≠ c)) dir basename
      = (listed w live dir basename).filter (· ≠ c) := by
  rw [listed, listed, List.filter_filter, List.filter_filter]
  exact List.filter_congr fun _ _ => Bool.and_comm _ _

theorem listed_filter_of_ne [DecidableEq Cookie] (h : w.split c ≠ (dir, basename)) :
    listed w (live.filter (· ≠ c)) dir basename = listed w live dir basename := by
  rw [listed_filter, List.filter_eq_self]
  intro x hx
  have hne : x ≠ c := by
    rintro rfl
    exact h (mem_listed.mp hx).2
  simpa using hne

/-- An entry that lists the observers of a directory, by the name it is observed under. -/
structure Lists (w : World Cookie Dir) (live : List Cookie) (dir : List Char)
    (e : MonitorEntry Cookie) : Prop where
  dir_eq : e.dir = dir
  wd_eq : e.wd = w.inotifyAddWatch dir
  lookup_eq : ∀ basename, e.entries.lookup basename = filled (listed w live dir basename)

theorem Lists.add (h : Lists w live (w.split c).1 e) :
    Lists w (live ++ [c]) (w.split c).1 (e.add (w.split c).2 c) := by
  refine ⟨h.dir_eq, h.wd_eq, ?_⟩
  intro b
  by_cases hb : b = (w.split c).2
  · subst hb
    rw [MonitorEntry.add, AList.lookup_insert, h.lookup_eq, getD_filled, listed_append_self]
    simp [filled]
  · have hne : w.split c ≠ ((w.split c).1, b) := by
      intro heq
      exact hb (congrArg Prod.snd heq).symm
    rw [MonitorEntry.add, AList.lookup_insert_ne hb, h.lookup_eq, listed_append_of_ne hne]

theorem Lists.remove [DecidableEq Cookie] (h : Lists w live (w.split c).1 e) (hc : c ∈ live) :
    Lists w (live.filter (· ≠ c)) (w.split c).1 (e.remove (w.split c).2 c) := by
  have hmem : c ∈ listed w live (w.split c).1 (w.split c).2 := mem_listed.mpr ⟨hc, rfl⟩
  have hlookup : e.entries.lookup (w.split c).2
      = some (listed w live (w.split c).1 (w.split c).2) := by
    rw [h.lookup_eq, filled, if_neg (List.ne_nil_of_mem hmem)]
  have hremove : e.remove (w.split c).2 c = { e with
      entries :=
        if (listed w live (w.split c).1 (w.split c).2).filter (· ≠ c) = [] then
          e.entries.erase (w.split c).2
        else e.entries.insert (w.split c).2
          ((listed w live (w.split c).1 (w.split c).2).filter (· ≠ c)) } := by
    simp only [MonitorEntry.remove, hlookup]
  refine ⟨hremove ▸ h.dir_eq, hremove ▸ h.wd_eq, ?_⟩
  intro b
  rw [hremove]
  by_cases hb : b = (w.split c).2
  · subst hb
    rw [listed_filter, filled]
    split
    · exact AList.lookup_erase _ _
    · exact AList.lookup_insert _
  · have hne : w.split c ≠ ((w.split c).1, b) := by
      intro heq
      exact hb (congrArg Prod.snd heq).symm
    rw [listed_filter_of_ne hne, ← h.lookup_eq]
    dsimp only
    split
    · exact AList.lookup_erase_ne hb
    · exact AList.lookup_insert_ne hb

/-- The entries of other directories are the same for the observers after a command. -/
theorem Lists.append_of_ne (h : Lists w live dir e) (hne : (w.split c).1 ≠ dir) :
    Lists w (live ++ [c]) dir e := by
  refine ⟨h.dir_eq, h.wd_eq, fun b => ?_⟩
  rw [h.lookup_eq, listed_append_of_ne fun heq => hne (congrArg Prod.fst heq)]

theorem Lists.filter_of_ne [DecidableEq Cookie] (h : Lists w live dir e)
    (hne : (w.split c).1 ≠ dir) : Lists w (live.filter (· ≠ c)) dir e := by
  refine ⟨h.dir_eq, h.wd_eq, fun b => ?_⟩
  rw [h.lookup_eq, listed_filter_of_ne fun heq => hne (congrArg Prod.fst heq)]

/-- An entry without names has no observers. -/
theorem Lists.keys_eq_nil_iff (h : Lists w live dir e) :
    e.entries.keys = [] ↔ ∀ c ∈ live, (w.split c).1 ≠ dir := by
  constructor
  · rintro hnil c hc rfl
    have hnone : e.entries.lookup (w.split c).2 = none := by
      rw [AList.lookup_eq_none, AList.mem_keys, hnil]
      exact List.not_mem_nil
    rw [h.lookup_eq, filled_eq_none_iff] at hnone
    have hmem : c ∈ listed w live (w.split c).1 (w.split c).2 := mem_listed.mpr ⟨hc, rfl⟩
    rw [hnone] at hmem
    cases hmem
  · intro hnone
    rw [List.eq_nil_iff_forall_not_mem]
    intro b hb
    have hlookup : e.entries.lookup b = none := by
      rw [h.lookup_eq, filled_eq_none_iff, List.eq_nil_iff_forall_not_mem]
      intro c hc
      obtain ⟨hlive, hsplit⟩ := mem_listed.mp hc
      exact hnone c hlive (congrArg Prod.fst hsplit)
    rw [AList.lookup_eq_none, AList.mem_keys] at hlookup
    exact hlookup hb

/-- The names that are observed with one more observer. -/
theorem exists_split_append :
    (∃ x ∈ live ++ [c], (w.split x).1 = dir) ↔
      (∃ x ∈ live, (w.split x).1 = dir) ∨ (w.split c).1 = dir := by
  simp [or_and_right, exists_or]

/-- The other names that are observed with one observer less. -/
theorem exists_split_filter [DecidableEq Cookie] (hne : (w.split c).1 ≠ dir) :
    (∃ x ∈ live.filter (· ≠ c), (w.split x).1 = dir) ↔ ∃ x ∈ live, (w.split x).1 = dir := by
  constructor
  · rintro ⟨x, hx, hdir⟩
    exact ⟨x, List.mem_of_mem_filter hx, hdir⟩
  · rintro ⟨x, hx, hdir⟩
    refine ⟨x, List.mem_filter.mpr ⟨hx, ?_⟩, hdir⟩
    have hx' : x ≠ c := by
      rintro rfl
      exact hne hdir
    simpa using hx'

/-! ## The maps after any commands -/

/-- The entries by name are those of the observed directories, each on the heap, and a
descriptor leads to one of them whose directory it is. -/
structure Inv (w : World Cookie Dir) (live : List Cookie) (f : Monitor Cookie) : Prop where
  nodup : live.Nodup
  entry : ∀ dir p, f.nameEntryMap dir = some p → ∃ e, f.heap p = some e ∧ Lists w live dir e
  named : ∀ dir, (∃ p, f.nameEntryMap dir = some p) ↔ ∃ c ∈ live, (w.split c).1 = dir
  watched : ∀ wd p, f.wdEntryMap wd = some p →
    ∃ dir, f.nameEntryMap dir = some p ∧ w.inotifyAddWatch dir = wd
  free : ∀ p, f.allocated ≤ p → f.heap p = none

namespace Inv

theorem init (w : World Cookie Dir) : Inv w [] Monitor.init where
  nodup := List.nodup_nil
  entry := by
    intro dir p hp
    cases hp
  named := by
    intro dir
    simp [Monitor.init]
  watched := by
    intro wd p hp
    cases hp
  free := fun _ _ => rfl

variable {p : ℕ}

/-- Two names have two entries. -/
theorem name_eq (h : Inv w live f) {dir dir' : List Char} (hp : f.nameEntryMap dir = some p)
    (hp' : f.nameEntryMap dir' = some p) : dir = dir' := by
  obtain ⟨e, he, hlists⟩ := h.entry dir p hp
  obtain ⟨e', he', hlists'⟩ := h.entry dir' p hp'
  rw [he] at he'
  cases he'
  rw [← hlists.dir_eq, hlists'.dir_eq]

theorem lt_allocated (h : Inv w live f) {dir : List Char} (hp : f.nameEntryMap dir = some p) :
    p < f.allocated := by
  obtain ⟨e, he, _⟩ := h.entry dir p hp
  by_contra hle
  rw [h.free p (Nat.le_of_not_lt hle)] at he
  cases he

/-- A write to an entry, where the other directories are listed as before. -/
theorem setEntry {live' : List Cookie} (h : Inv w live f) (hp : f.nameEntryMap dir = some p)
    (hnodup : live'.Nodup) (hlists : Lists w live' dir e)
    (hother : ∀ dir' e', dir ≠ dir' → Lists w live dir' e' → Lists w live' dir' e')
    (hnames : ∀ dir', (∃ c ∈ live', (w.split c).1 = dir') ↔ ∃ c ∈ live, (w.split c).1 = dir') :
    Inv w live' (f.setEntry p e) := by
  refine ⟨hnodup, ?_, fun dir' => (h.named dir').trans (hnames dir').symm, h.watched, ?_⟩
  · intro dir' p' hp'
    by_cases hdir : dir = dir'
    · subst hdir
      obtain rfl : p = p' := Option.some.inj (hp.symm.trans hp')
      exact ⟨e, update_self .., hlists⟩
    · have hne : p' ≠ p := by
        rintro rfl
        exact hdir (h.name_eq hp hp')
      obtain ⟨e', he', hlists'⟩ := h.entry dir' p' hp'
      exact ⟨e', (update_of_ne hne ..).trans he', hother dir' e' hdir hlists'⟩
  · intro q hq
    have hne : q ≠ p := Nat.ne_of_gt (Nat.lt_of_lt_of_le (h.lt_allocated hp) hq)
    exact (update_of_ne hne ..).trans (h.free q hq)

/-- A new entry for a directory that no one has observed. -/
theorem insertEntry (h : Inv w live f) (hnone : f.nameEntryMap (w.split c).1 = none)
    (hnodup : (live ++ [c]).Nodup) (hlists : Lists w (live ++ [c]) (w.split c).1 e) :
    Inv w (live ++ [c]) (f.insertEntry e) := by
  have hdir := hlists.dir_eq
  -- the maps have no pointer to the new entry yet
  have hold : ∀ dir' p', f.nameEntryMap dir' = some p' → (w.split c).1 ≠ dir' := by
    rintro dir' p' hp' rfl
    rw [hnone] at hp'
    cases hp'
  refine ⟨hnodup, ?_, ?_, ?_, ?_⟩
  · intro dir' p' hp'
    simp only [Monitor.insertEntry, hdir] at hp' ⊢
    by_cases heq : dir' = (w.split c).1
    · subst heq
      rw [update_self, Option.some.injEq] at hp'
      subst hp'
      exact ⟨e, update_self .., hlists⟩
    · rw [update_of_ne heq] at hp'
      obtain ⟨e', he', hlists'⟩ := h.entry dir' p' hp'
      have hne : p' ≠ f.allocated := Nat.ne_of_lt (h.lt_allocated hp')
      exact ⟨e', (update_of_ne hne ..).trans he',
        hlists'.append_of_ne fun hsame => heq hsame.symm⟩
  · intro dir'
    simp only [Monitor.insertEntry, hdir]
    rw [exists_split_append]
    by_cases heq : dir' = (w.split c).1
    · subst heq
      simp
    · rw [update_of_ne heq, h.named dir', or_iff_left (Ne.symm heq)]
  · intro wd p' hp'
    simp only [Monitor.insertEntry, hdir, hlists.wd_eq] at hp' ⊢
    by_cases heq : wd = w.inotifyAddWatch (w.split c).1
    · subst heq
      rw [update_self] at hp'
      exact ⟨(w.split c).1, (update_self ..).trans hp', rfl⟩
    · rw [update_of_ne heq] at hp'
      obtain ⟨dir', hdir', hwd⟩ := h.watched wd p' hp'
      exact ⟨dir', (update_of_ne (hold dir' p' hdir').symm ..).trans hdir', hwd⟩
  · intro q hq
    have hq' : f.allocated + 1 ≤ q := hq
    have hne : q ≠ f.allocated := by omega
    exact (update_of_ne hne ..).trans (h.free q (by omega))

/-- The entry of a directory that no one observes any more is erased. -/
theorem eraseEntry {live' : List Cookie} {p : ℕ} (h : Inv w live f)
    (hp : f.nameEntryMap dir = some p) (hnodup : live'.Nodup) (hlists : Lists w live' dir e)
    (hother : ∀ dir' e', dir ≠ dir' → Lists w live dir' e' → Lists w live' dir' e')
    (hnames : ∀ dir', (∃ c ∈ live', (w.split c).1 = dir') ↔
      dir' ≠ dir ∧ ∃ c ∈ live, (w.split c).1 = dir') :
    Inv w live' (f.eraseEntry p e) := by
  have hdir := hlists.dir_eq
  refine ⟨hnodup, ?_, ?_, ?_, ?_⟩
  · intro dir' p' hp'
    simp only [Monitor.eraseEntry, hdir] at hp' ⊢
    by_cases heq : dir' = dir
    · subst heq
      rw [update_self] at hp'
      cases hp'
    · rw [update_of_ne heq] at hp'
      have hne : p' ≠ p := by
        rintro rfl
        exact heq (h.name_eq hp' hp)
      obtain ⟨e', he', hlists'⟩ := h.entry dir' p' hp'
      exact ⟨e', (update_of_ne hne ..).trans he', hother dir' e' (Ne.symm heq) hlists'⟩
  · intro dir'
    simp only [Monitor.eraseEntry, hdir]
    rw [hnames]
    by_cases heq : dir' = dir
    · subst heq
      simp
    · rw [update_of_ne heq, h.named dir']
      simp [heq]
  · intro wd p' hp'
    simp only [Monitor.eraseEntry, hdir, hlists.wd_eq] at hp' ⊢
    by_cases heq : wd = w.inotifyAddWatch dir
    · subst heq
      rw [update_self] at hp'
      cases hp'
    · rw [update_of_ne heq] at hp'
      obtain ⟨dir', hdir', hwd⟩ := h.watched wd p' hp'
      have hne : dir' ≠ dir := by
        rintro rfl
        exact heq hwd.symm
      exact ⟨dir', (update_of_ne hne ..).trans hdir', hwd⟩
  · intro q hq
    have hne : q ≠ p := Nat.ne_of_gt (Nat.lt_of_lt_of_le (h.lt_allocated hp) hq)
    exact (update_of_ne hne ..).trans (h.free q hq)

end Inv

end Rtp.Util.FileMonitor
