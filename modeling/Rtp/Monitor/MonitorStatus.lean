import Mathlib.Data.List.AList

/-!
# The monitor status

`MonitorStatusImpl` keeps counters of three kinds in one memory-mapped file: a header and
then entries one after another, each with the size of its key and of its value, up to the
first entry whose sizes are zero.  `GetCounter`, `GetTimerCounter` and `GetBinaryCounter`
hand out pointers to the values; the three `GetAll` functions parse the whole file into
member maps and swap one of them with the map of the caller.

* `Kind`, `Entry` — the kinds of counters with their prefixes and values, and an entry of
  the file; reading a value at another type than it was stored at is undefined.
* `RawMMapList` — `find` and `addEntry`; what would read or write outside of the mapped
  file is undefined as well.
* `MonitorStatus` — the member maps and the cache maps, with `get` and `getAll` for any
  kind and the six functions of the interface.
-/

namespace Rtp.Monitor

/-! ## Kinds of counters -/

/-- `TimerMonitorStatus`. -/
structure TimerMonitorStatus where
  totalCount : BitVec 64
  totalTime : BitVec 64
  timeSliceCount : Vector (BitVec 64) 10
  gt5ms : BitVec 64
  gt50ms : BitVec 64
  gt100ms : BitVec 64
  gt300ms : BitVec 64
  gt1000ms : BitVec 64
  deriving DecidableEq, Repr

/-- `BinaryMonitorStatus`. -/
structure BinaryMonitorStatus where
  flag : BitVec 32
  falseCount : BitVec 32
  trueCount : BitVec 32
  deriving DecidableEq, Repr

inductive Kind where
  | counter
  | timer
  | binary
  deriving DecidableEq, Repr

namespace Kind

/-- What a counter of the kind holds. -/
def Value : Kind → Type
  | counter => BitVec 64
  | timer => TimerMonitorStatus
  | binary => BinaryMonitorStatus

instance : (k : Kind) → DecidableEq k.Value
  | counter => inferInstanceAs (DecidableEq (BitVec 64))
  | timer => inferInstanceAs (DecidableEq TimerMonitorStatus)
  | binary => inferInstanceAs (DecidableEq BinaryMonitorStatus)

/-- The value a counter is registered with: all bytes zero. -/
def zero : (k : Kind) → k.Value
  | counter => (0 : BitVec 64)
  | timer => (⟨0, 0, Vector.replicate 10 0, 0, 0, 0, 0, 0⟩ : TimerMonitorStatus)
  | binary => (⟨0, 0, 0⟩ : BinaryMonitorStatus)

/-- `sizeof` the value. -/
def size : Kind → ℕ
  | counter => 8
  | timer => 136
  | binary => 12

/-- `COUNTER_PREFIX`, `TIMER_COUNTER_PREFIX` and `BINARY_COUNTER_PREFIX`. -/
def keyPrefix : Kind → List Char
  | counter => ['C', '#']
  | timer => ['T', '#']
  | binary => ['B', '#']

end Kind

/-! ## Strings in the file -/

/-- The end of a C string. -/
def nul : Char := Char.ofNat 0

/-- A string passed as `const char *`, one `Char` for each byte. -/
structure CString where
  chars : List Char
  nul_notMem : nul ∉ chars

/-- `AlignN(n, 8)`. -/
def align8 (n : ℕ) : ℕ := (n + 7) / 8 * 8

/-- The bytes of a key in the file: the string, its end, and zeros up to a multiple
of 8. -/
def pad (key : List Char) : List Char :=
  key ++ List.replicate (align8 (key.length + 1) - key.length) nul

/-- `std::string(const char *)`: the bytes up to the first zero. -/
def cstr (bytes : List Char) : List Char := bytes.takeWhile (· ≠ nul)

/-- The name of a counter, as far as it fits: `snprintf` has room for 126 characters, two
of them for the prefix. -/
def counterName (module key : CString) : List Char :=
  (module.chars ++ '#' :: key.chars).take 124

/-- What `snprintf` leaves in `buff`. -/
def Kind.key (k : Kind) (module key : CString) : List Char :=
  (k.keyPrefix ++ module.chars ++ '#' :: key.chars).take 126

/-! ## The file -/

/-- An entry of the file.  `key_size` is the length of the key bytes. -/
structure Entry where
  key : List Char
  kind : Kind
  value : kind.Value

namespace Entry

/-- `total_size`: the key, the value and the three sizes. -/
def totalSize (e : Entry) : ℕ := e.key.length + align8 e.kind.size + 12

/-- The value read at the type of a kind. -/
def read (k : Kind) (e : Entry) : Option k.Value :=
  if h : e.kind = k then some (h ▸ e.value) else none

end Entry

/-- `RawMMapList`: the size of the mapping and the entries before the first one whose sizes
are zero. -/
structure RawMMapList where
  fileSize : ℕ
  entries : List Entry

namespace RawMMapList

/-- Where the entries end, after the 64 bytes of the header. -/
def used (l : RawMMapList) : ℕ := l.entries.foldl (fun n e => n + e.totalSize) 64

/-- The two sizes that end the list lie in the mapping. -/
def Terminated (l : RawMMapList) : Prop := l.used + 8 ≤ l.fileSize

instance (l : RawMMapList) : Decidable l.Terminated := inferInstanceAs (Decidable (_ ≤ _))

/-- `Find`: the place of the entry, if there is one; undefined where the search reads past
the end of the file. -/
def find (key : List Char) (l : RawMMapList) : Option (Option ℕ) :=
  match l.entries.findIdx? fun e => e.key = pad key with
  | some i => some (some i)
  | none => if l.Terminated then some none else none

/-- `AddEntry`: the place of the entry, which is written behind the others if it was not
there; undefined where it does not fit into the file. -/
def addEntry (key : List Char) (k : Kind) (l : RawMMapList) : Option (ℕ × RawMMapList) :=
  match l.find key with
  | none => none
  | some (some i) => some (i, l)
  | some none =>
    let e : Entry := ⟨pad key, k, k.zero⟩
    if l.used + e.totalSize ≤ l.fileSize then
      some (l.entries.length, { l with entries := l.entries ++ [e] })
    else none

/-- A write through a pointer to the value of an entry. -/
def write (i : ℕ) (k : Kind) (v : k.Value) (l : RawMMapList) : Option RawMMapList :=
  match l.entries[i]? with
  | none => none
  | some e =>
    if e.kind = k then some { l with entries := l.entries.set i ⟨e.key, k, v⟩ } else none

end RawMMapList

/-! ## The member maps -/

/-- `std::map<std::string, …>` for the values of a kind. -/
abbrev CounterMap (k : Kind) := AList fun _ : List Char => k.Value

/-- `counter_map_`, `timer_counter_map_` and `binary_counter_map_`. -/
abbrev Maps := (k : Kind) → CounterMap k

/-- `insert` of `std::map`: a name that is there keeps its value. -/
def insertNew {k : Kind} (name : List Char) (v : k.Value) (m : CounterMap k) : CounterMap k :=
  if name ∈ m then m else m.insert name v

/-- The maps that `ParseCounters` clears; there is no such line for the third one. -/
def cleared (m : Maps) : Maps
  | .counter => ∅
  | .timer => ∅
  | .binary => m .binary

/-- One round of the loop in `ParseCounters`; undefined where it aborts. -/
def parseEntry (m : Maps) (e : Entry) : Option Maps :=
  match [Kind.counter, .timer, .binary].find? fun k => k.keyPrefix.isPrefixOf (cstr e.key) with
  | none => none
  | some k =>
    match e.read k with
    | none => none
    | some v => some (Function.update m k (insertNew ((cstr e.key).drop 2) v (m k)))

/-- The cache maps of a kind, of which the one at `index` is read. -/
structure CacheMaps where
  maps : Fin 10 → AList fun _ : List Char => ℕ
  index : Fin 10

/-- A key with its pointer, in the next map. -/
def CacheMaps.add (key : List Char) (i : ℕ) (c : CacheMaps) : CacheMaps :=
  if key ∈ c.maps c.index then c
  else
    ⟨Function.update c.maps (c.index + 1) ((c.maps c.index).insert key i), c.index + 1⟩

/-- `MonitorStatusImpl`. -/
structure MonitorStatus where
  statusList : RawMMapList
  maps : Maps
  cacheMaps : Kind → CacheMaps

namespace MonitorStatus

/-- `Init` on a file. -/
def init (file : RawMMapList) : MonitorStatus :=
  ⟨file, fun _ => ∅, fun _ => ⟨fun _ => ∅, 0⟩⟩

/-- The pointer to a counter, which is registered if it was not. -/
def get (k : Kind) (module key : CString) (s : MonitorStatus) : Option (ℕ × MonitorStatus) :=
  let buff := k.key module key
  match ((s.cacheMaps k).maps (s.cacheMaps k).index).lookup buff with
  | some i => some (i, s)
  | none =>
    match s.statusList.addEntry buff k with
    | none => none
    | some (i, l) =>
      some (i, { s with
        statusList := l
        cacheMaps := Function.update s.cacheMaps k ((s.cacheMaps k).add buff i) })

def getCounter := get .counter
def getTimerCounter := get .timer
def getBinaryCounter := get .binary

/-- The function of the interface for each kind. -/
def getOf : Kind → CString → CString → MonitorStatus → Option (ℕ × MonitorStatus)
  | .counter => getCounter
  | .timer => getTimerCounter
  | .binary => getBinaryCounter

theorem getOf_eq (k : Kind) : getOf k = get k := by cases k <;> rfl

/-- `ParseCounters`: the three maps afterwards. -/
def parseCounters (s : MonitorStatus) : Option Maps :=
  if s.statusList.Terminated then s.statusList.entries.foldlM parseEntry (cleared s.maps)
  else none

/-- Parse the file, then swap the map of the kind with the caller's: what the caller has
afterwards. -/
def getAll (k : Kind) (caller : CounterMap k) (s : MonitorStatus) :
    Option (CounterMap k × MonitorStatus) :=
  match s.parseCounters with
  | none => none
  | some m => some (m k, { s with maps := Function.update m k caller })

def getAllCounters := getAll .counter
def getAllTimerCounters := getAll .timer
def getAllBinaryCounters := getAll .binary

/-- The function of the interface for each kind. -/
def getAllOf : (k : Kind) → CounterMap k → MonitorStatus → Option (CounterMap k × MonitorStatus)
  | .counter => getAllCounters
  | .timer => getAllTimerCounters
  | .binary => getAllBinaryCounters

theorem getAllOf_eq (k : Kind) : getAllOf k = getAll k := by cases k <;> rfl

end MonitorStatus

end Rtp.Monitor
