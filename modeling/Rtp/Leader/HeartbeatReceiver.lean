import Mathlib.Algebra.Group.Nat.Defs
import Rtp.Leader.BadNodeDetector

/-!
# The heartbeat receiver

The model of `HeartbeatReceiver::Receive` (`leader/heartbeat_receiver.cc`) for one path,
together with what happens around it: the history of the path in ZooKeeper, the rounds of
the bad node detector and the heartbeats of other paths.  `Receive` is taken apart at its
ZooKeeper calls and at its update of the node collection, a round at its two calls of the
collection; between any two of these actions anything else may happen.

* `Zk` — the path in ZooKeeper.  `cversion` counts the changes to its children since it was
  created, in 32 bits.
* `State`, `next` — the system.
* `detector_round` — the two halves of a round make up `doDetect`.
* `scanned` — the children of the path at a scan that is completed by an action.
* `scan_correct` — **the list after a scan**: the children at the scan without the nodes on
  the black list.  It needs a condition on scans that find the cached `cversion` again
  (`Unchanged`): since the last refresh the path has not been created anew, there were fewer
  than 2³² changes, and no round took one of the children off the black list.
* `scan_stale` — without the condition the list can be stale.
-/

namespace Rtp.Leader.Receiver

/-! ## ZooKeeper -/

/-- A path that exists. -/
structure ZkNode where
  children : List String
  changes : ℕ
  deriving DecidableEq, Repr

/-- `ZKStatus::cversion`. -/
def ZkNode.cversion (z : ZkNode) : BitVec 32 := BitVec.ofNat 32 z.changes

/-- A path in ZooKeeper, with the number of times it was created. -/
structure Zk where
  creations : ℕ
  node : Option ZkNode
  deriving DecidableEq, Repr

/-- A change to a path. -/
inductive ZkChange where
  | addChild (child : String)
  | removeChild (child : String)
  | delete
  | create
  deriving DecidableEq, Repr

/-- The path after a change, where it is possible: a path with children cannot be deleted. -/
def Zk.change : ZkChange → Zk → Option Zk
  | .addChild child, ⟨creations, some z⟩ =>
    if child ∈ z.children then none
    else some ⟨creations, some ⟨z.children ++ [child], z.changes + 1⟩⟩
  | .removeChild child, ⟨creations, some z⟩ =>
    if child ∈ z.children then some ⟨creations, some ⟨z.children.erase child, z.changes + 1⟩⟩
    else none
  | .delete, ⟨creations, some z⟩ => if z.children = [] then some ⟨creations, none⟩ else none
  | .create, ⟨creations, none⟩ => some ⟨creations + 1, some ⟨[], 0⟩⟩
  | _, _ => none

/-- What `GetChildren` gives for a path, and the time it is from. -/
structure Snapshot where
  creation : ℕ
  changes : ℕ
  children : List String
  deriving DecidableEq, Repr

/-- The `cversion` of a snapshot. -/
def Snapshot.cversion (r : Snapshot) : BitVec 32 := BitVec.ofNat 32 r.changes

/-! ## The receiver -/

/-- `INVALID_CHILDVERSION`. -/
def invalidChildVersion : BitVec 32 := -1

/-- `UINT64_MAX`: the path has been removed. -/
def uint64Max : ℕ := 2 ^ 64 - 1

/-- `HeartbeatReceiver::NodeStatus`. -/
structure NodeStatus where
  cversion : BitVec 32
  nextScanTime : ℕ
  deriving DecidableEq, Repr

/-- Where `Receive` stands: before its `Exists`, its `GetChildren`, its `UpdateHeartbeat` and
its update of the node status, with the `cversion` and the time of the next scan it has read
from the node status. -/
inductive Scan where
  | idle
  | exists
  | getChildren (cversion : BitVec 32) (nextScanTime : ℕ)
  | update (snapshot : Snapshot) (cversion : BitVec 32) (nextScanTime : ℕ)
  | store (snapshot : Snapshot) (cversion : BitVec 32) (nextScanTime : ℕ)
  deriving DecidableEq, Repr

/-- The system.  `found` is the black list of a round that has not been set yet, with the
specs it is from.  The last two fields are a record of what has happened: what the list of
the path was last made from, and whether since then a round has taken one of these children
off the black list. -/
structure State where
  zk : Zk
  detector : Detector
  found : Option (List String × List String)
  status : NodeStatus
  now : ℕ
  skipSleep : Bool
  scan : Scan
  refreshed : Option Snapshot
  dropped : Bool

namespace State

/-- Before anything happened; the path has been added to the receiver. -/
def init : State where
  zk := ⟨0, none⟩
  detector := .init
  found := none
  status := ⟨invalidChildVersion, 0⟩
  now := 0
  skipSleep := false
  scan := .idle
  refreshed := none
  dropped := false

/-- The node collection. -/
def coll (s : State) : NodeCollection := s.detector.nodeCollection

/-- The cached `cversion` is that of the path: `Receive` will not ask for its children. -/
def Skips (s : State) (z : ZkNode) : Prop :=
  s.status.cversion ≠ invalidChildVersion ∧ s.status.cversion = z.cversion

instance (s : State) (z : ZkNode) : Decidable (s.Skips z) := inferInstanceAs (Decidable (_ ∧ _))

/-- `Receive` up to its `Exists`. -/
def start (s : State) : State :=
  if s.status.nextScanTime > s.now then s else { s with scan := .exists }

/-- `Exists`, and what is decided on its answer. -/
def existsCall (s : State) : State :=
  match s.zk.node with
  | none =>
    { s with
      status := { s.status with nextScanTime := s.now + 30 * 1000 }
      scan := .idle }
  | some z =>
    if s.Skips z then { s with scan := .idle }
    else { s with scan := .getChildren s.status.cversion s.status.nextScanTime }

/-- `GetChildren`. -/
def getChildrenCall (cversion : BitVec 32) (nextScanTime : ℕ) (s : State) : State :=
  match s.zk.node with
  | none => { s with scan := .idle }
  | some z =>
    { s with scan := .update ⟨s.zk.creations, z.changes, z.children⟩ cversion nextScanTime }

/-- `UpdateHeartbeat` for the children that were found. -/
def updateCall (path : String) (snapshot : Snapshot) (cversion : BitVec 32) (nextScanTime : ℕ)
    (s : State) : State :=
  { s with
    detector := { s.detector with
      nodeCollection := s.coll.updateHeartbeat snapshot.children path }
    scan := .store snapshot cversion nextScanTime
    refreshed := some snapshot
    dropped := false }

/-- The rest of `Receive`: the node status is brought up to date unless it has changed. -/
def store (snapshot : Snapshot) (cversion : BitVec 32) (nextScanTime : ℕ) (s : State) : State :=
  let s := { s with scan := .idle }
  if s.status.cversion = cversion then
    if s.status.nextScanTime = nextScanTime then
      { s with status := ⟨snapshot.cversion, s.now + 5 * 1000⟩ }
    else
      { s with
        status := { s.status with cversion := snapshot.cversion }
        skipSleep := s.skipSleep || decide (s.status.nextScanTime ≠ uint64Max) }
  else if s.status.nextScanTime ≠ uint64Max then
    { s with status := { s.status with nextScanTime := 0 }, skipSleep := true }
  else s

/-- The first half of `DoDetect`, up to the lookup of the bad specs. -/
def find (specBlackList : List String) (s : State) : State :=
  if s.detector.specList.isEmpty ∧ specBlackList.isEmpty then s
  else { s with found := some (s.coll.findNodesBySpec specBlackList, specBlackList) }

/-- The second half: the new black list is set. -/
def setBlackList (blackList specBlackList : List String) (s : State) : State :=
  { s with
    detector := ⟨s.coll.updateBadNode blackList, specBlackList⟩
    found := none
    dropped := s.dropped || match s.refreshed with
      | none => false
      | some r => s.coll.blackList.any fun n => n ∈ r.children ∧ n ∉ blackList }

end State

/-- An action: a change to the path in ZooKeeper, half a round, a heartbeat of another path,
the passing of time, a watcher that fires, or a part of `Receive`; `fail` is a ZooKeeper call
of `Receive` that fails. -/
inductive Action where
  | change (x : ZkChange)
  | find (specBlackList : List String)
  | setBlackList
  | heartbeat (nodes : List String) (path : String)
  | tick (milliseconds : ℕ)
  | watcher
  | start
  | exists
  | getChildren
  | update
  | store
  | fail
  deriving DecidableEq, Repr

/-- The state after an action, where it can be taken. -/
def next (p : String) (a : Action) (s : State) : Option State :=
  match a with
  | .change x => (s.zk.change x).map fun zk => { s with zk := zk }
  | .find specBlackList => if s.found.isNone then some (s.find specBlackList) else none
  | .setBlackList => s.found.map fun (blackList, specs) => s.setBlackList blackList specs
  | .heartbeat nodes path =>
    if path ≠ p ∧ nodes.Nodup then
      some { s with detector := { s.detector with
        nodeCollection := s.coll.updateHeartbeat nodes path } }
    else none
  | .tick milliseconds => some { s with now := s.now + milliseconds }
  | .watcher =>
    some { s with status := { s.status with nextScanTime := 0 }, skipSleep := true }
  | .start => if s.scan = .idle then some s.start else none
  | .exists => if s.scan = .exists then some s.existsCall else none
  | .getChildren =>
    match s.scan with
    | .getChildren cversion time => some (s.getChildrenCall cversion time)
    | _ => none
  | .update =>
    match s.scan with
    | .update snapshot cversion time => some (s.updateCall p snapshot cversion time)
    | _ => none
  | .store =>
    match s.scan with
    | .store snapshot cversion time => some (s.store snapshot cversion time)
    | _ => none
  | .fail =>
    match s.scan with
    | .exists | .getChildren .. => some { s with scan := .idle }
    | _ => none

/-- The two halves of a round, with nothing between them, are the round of the detector. -/
theorem detector_round (p : String) {s : State} (h : s.found = none)
    (specBlackList : List String) :
    ((next p .setBlackList (s.find specBlackList)).getD (s.find specBlackList)).detector =
      s.detector.doDetect specBlackList := by
  unfold State.find Detector.doDetect
  split
  · simp [next, h]
  · rfl

/-- The children of the path at the scan that the action completes. -/
def scanned (a : Action) (s : State) : Option (List String) :=
  match a, s.scan, s.zk.node with
  | .exists, .exists, some z => if s.Skips z then some z.children else none
  | .store, .store snapshot _ _, _ => some snapshot.children
  | _, _, _ => none

/-- A scan that finds the cached `cversion` again, and one that has refreshed the list, find
the list as it was made: since the last refresh the path has not been created anew and has
had fewer than 2³² changes, where the children were not asked for, and no round has taken one
of the children off the black list. -/
def Unchanged (s : State) : Action → Prop
  | .exists =>
    match s.zk.node, s.refreshed with
    | some z, some r => s.Skips z →
      s.zk.creations = r.creation ∧ z.changes < r.changes + 2 ^ 32 ∧ s.dropped = false
    | _, _ => True
  | .store => s.dropped = false
  | _ => True

instance (s : State) : (a : Action) → Decidable (Unchanged s a)
  | .exists =>
    match h : s.zk.node, h' : s.refreshed with
    | some z, some r =>
      decidable_of_iff (s.Skips z →
        s.zk.creations = r.creation ∧ z.changes < r.changes + 2 ^ 32 ∧ s.dropped = false)
        (by simp only [Unchanged, h, h'])
    | none, _ => isTrue (by simp only [Unchanged, h])
    | some z, none => isTrue (by simp only [Unchanged, h, h'])
  | .store => inferInstanceAs (Decidable (_ = _))
  | .change _ | .find _ | .setBlackList | .heartbeat .. | .tick _ | .watcher | .start
  | .getChildren | .update | .fail => isTrue trivial

/-! ## ZooKeeper since a snapshot -/

/-- How the path stands to a snapshot of it. -/
structure Since (r : Snapshot) (zk : Zk) : Prop where
  creation_le : r.creation ≤ zk.creations
  changes_le : ∀ z, zk.node = some z → zk.creations = r.creation → r.changes ≤ z.changes
  children_eq : ∀ z, zk.node = some z → zk.creations = r.creation → z.changes = r.changes →
    z.children = r.children

variable {z : ZkNode}

theorem since_now {zk : Zk} (h : zk.node = some z) :
    Since ⟨zk.creations, z.changes, z.children⟩ zk := by
  refine ⟨le_rfl, fun z' hz' _ => ?_, fun z' hz' _ _ => ?_⟩ <;>
    rw [Option.some.inj (h.symm.trans hz')]

/-- One more change. -/
theorem Since.succ {r : Snapshot} {creations : ℕ} (h : Since r ⟨creations, some z⟩)
    (children : List String) : Since r ⟨creations, some ⟨children, z.changes + 1⟩⟩ := by
  have hle : creations = r.creation → r.changes ≤ z.changes := h.changes_le z rfl
  refine ⟨h.creation_le, fun z' hz' hc => ?_, fun z' hz' hc heq => ?_⟩
  · rw [← Option.some.inj hz']
    exact Nat.le_succ_of_le (hle hc)
  · rw [← Option.some.inj hz'] at heq
    exact absurd (hle hc) (Nat.not_le.2 (heq ▸ Nat.lt_succ_self z.changes))

variable {x : ZkChange}

theorem Since.change {r : Snapshot} {zk zk' : Zk} (h : Since r zk) (hx : zk.change x = some zk') :
    Since r zk' := by
  unfold Zk.change at hx
  split at hx
  next =>
    split at hx
    · simp at hx
    · exact Option.some.inj hx ▸ h.succ _
  next =>
    split at hx
    · exact Option.some.inj hx ▸ h.succ _
    · simp at hx
  next =>
    split at hx
    · obtain rfl := Option.some.inj hx
      exact ⟨h.creation_le, fun z' hz' => absurd hz' (by simp), fun z' hz' => absurd hz' (by simp)⟩
    · simp at hx
  next creations =>
    -- a new creation is not that of the snapshot
    obtain rfl := Option.some.inj hx
    have hlt : r.creation < creations + 1 := Nat.lt_succ_of_le h.creation_le
    exact ⟨Nat.le_of_lt hlt, fun _ _ hc => absurd hc (Nat.ne_of_gt hlt),
      fun _ _ hc => absurd hc (Nat.ne_of_gt hlt)⟩
  next => simp at hx

/-- The children of a path are distinct. -/
def Zk.Distinct (zk : Zk) : Prop := ∀ z, zk.node = some z → z.children.Nodup

theorem Zk.Distinct.change {zk zk' : Zk} (h : zk.Distinct) (hx : zk.change x = some zk') :
    zk'.Distinct := by
  unfold Zk.change at hx
  split at hx
  next child creations z =>
    split at hx
    · simp at hx
    next hnew =>
      obtain rfl := Option.some.inj hx
      intro z' hz'
      obtain rfl := Option.some.inj hz'
      exact (h z rfl).append (List.nodup_singleton child) (by simpa using hnew)
  next child creations z =>
    split at hx
    · obtain rfl := Option.some.inj hx
      intro z' hz'
      obtain rfl := Option.some.inj hz'
      exact (h z rfl).erase child
    · simp at hx
  next creations z =>
    split at hx
    · obtain rfl := Option.some.inj hx
      exact fun z' hz' => absurd hz' (by simp)
    · simp at hx
  next creations =>
    obtain rfl := Option.some.inj hx
    intro z' hz'
    obtain rfl := Option.some.inj hz'
    exact List.nodup_nil
  next => simp at hx

/-! ## The invariant -/

/-- The cached `cversion` is that of the last refresh. -/
def State.Cached (s : State) : Prop :=
  s.status.cversion = invalidChildVersion ∨
    ∃ r, s.refreshed = some r ∧ s.status.cversion = r.cversion

/-- What `Receive` knows where it stands. -/
def State.ScanOk (s : State) : Prop :=
  match s.scan with
  | .idle | .exists => s.Cached
  | .getChildren cversion _ => s.Cached ∧ s.status.cversion = cversion
  | .update snapshot cversion _ =>
    (s.Cached ∧ s.status.cversion = cversion) ∧ snapshot.children.Nodup ∧ Since snapshot s.zk
  | .store snapshot cversion _ => s.refreshed = some snapshot ∧ s.status.cversion = cversion

/-- What holds in every state.  No action needs to be excluded: only `dropped` tells when the
list of the path is not what it was made from. -/
structure Inv (p : String) (s : State) : Prop where
  indexed : s.coll.Indexed
  distinct : s.zk.Distinct
  since : ∀ r, s.refreshed = some r → Since r s.zk
  listed : ∀ r, s.refreshed = some r → s.dropped = false →
    s.coll.validNodes.lookup p = some (r.children.filter (· ∉ s.coll.blackList))
  scanOk : s.ScanOk

theorem init_inv (p : String) : Inv p .init where
  indexed := NodeCollection.indexed_empty
  distinct z hz := absurd hz (by simp [State.init])
  since r hr := absurd hr (by simp [State.init])
  listed r hr := absurd hr (by simp [State.init])
  scanOk := .inl rfl

section Steps

variable {p : String} {s s' : State}

/-- Actions that touch neither the path, the collection nor the record. -/
theorem Inv.of_scanOk (h : Inv p s) (hzk : s'.zk = s.zk) (hcoll : s'.coll = s.coll)
    (hrefreshed : s'.refreshed = s.refreshed) (hdropped : s'.dropped = s.dropped)
    (hscan : s'.ScanOk) : Inv p s' := by
  refine ⟨hcoll ▸ h.indexed, hzk ▸ h.distinct, fun r hr => ?_, fun r hr hd => ?_, hscan⟩
  · rw [hzk]
    exact h.since r (hrefreshed ▸ hr)
  · rw [hcoll]
    exact h.listed r (hrefreshed ▸ hr) (hdropped ▸ hd)

/-- The same when `Receive` does not move either. -/
theorem Inv.of_same (h : Inv p s) (hzk : s'.zk = s.zk) (hcoll : s'.coll = s.coll)
    (hrefreshed : s'.refreshed = s.refreshed) (hdropped : s'.dropped = s.dropped)
    (hscan : s'.scan = s.scan) (hcversion : s'.status.cversion = s.status.cversion) :
    Inv p s' := by
  refine h.of_scanOk hzk hcoll hrefreshed hdropped ?_
  have := h.scanOk
  unfold State.ScanOk State.Cached at this ⊢
  rw [hzk, hrefreshed, hscan, hcversion]
  exact this

theorem Inv.change (h : Inv p s) {zk : Zk} (hx : s.zk.change x = some zk) :
    Inv p { s with zk := zk } := by
  refine ⟨h.indexed, h.distinct.change hx, fun r hr => (h.since r hr).change hx, h.listed, ?_⟩
  have hok := h.scanOk
  cases hs : s.scan with
  | update snapshot cversion time =>
    simp only [State.ScanOk, hs] at hok ⊢
    exact ⟨hok.1, hok.2.1, hok.2.2.change hx⟩
  | idle | «exists» | getChildren cversion time | store snapshot cversion time =>
    simp only [State.ScanOk, hs] at hok ⊢
    exact hok

/-- The collection changes under `Receive`. -/
theorem Inv.of_detector (h : Inv p s) {d : Detector} {found : Option (List String × List String)}
    {dropped : Bool} (hindexed : d.nodeCollection.Indexed)
    (hlisted : ∀ r, s.refreshed = some r → dropped = false →
      d.nodeCollection.validNodes.lookup p =
        some (r.children.filter (· ∉ d.nodeCollection.blackList))) :
    Inv p { s with detector := d, found := found, dropped := dropped } :=
  ⟨hindexed, h.distinct, h.since, hlisted, h.scanOk⟩

/-- A new black list keeps the list of the path right unless it drops a child. -/
theorem Inv.setBlackList (h : Inv p s) (blackList specs : List String) :
    Inv p (s.setBlackList blackList specs) := by
  refine h.of_detector (h.indexed.updateBadNode blackList) fun r hr hd => ?_
  rw [hr, Bool.or_eq_false_iff] at hd
  obtain ⟨hd, hany⟩ := hd
  rw [h.indexed.validNodes_updateBadNode, h.listed r hr hd, Option.map_some, List.filter_filter,
    h.indexed.blackList_updateBadNode]
  refine congrArg some (List.filter_congr fun n hn => ?_)
  have hkeep : n ∈ s.coll.blackList → n ∈ blackList := fun hb => by
    by_contra hnew
    have := List.any_eq_false.1 hany n hb
    simp [hn, hnew] at this
  by_cases hnew : n ∈ blackList
  · simp [hnew]
  · have hold : n ∉ s.coll.blackList := fun hb => hnew (hkeep hb)
    simp [hnew, hold]

theorem Inv.heartbeat (h : Inv p s) {nodes : List String} {path : String} (hpath : path ≠ p)
    (hnodes : nodes.Nodup) :
    Inv p { s with detector := { s.detector with
      nodeCollection := s.coll.updateHeartbeat nodes path } } := by
  refine h.of_detector (h.indexed.updateHeartbeat hnodes path) fun r hr hd => ?_
  rw [NodeCollection.validNodes_updateHeartbeat, if_neg hpath.symm]
  exact h.listed r hr hd

theorem Inv.start (h : Inv p s) (hs : s.scan = .idle) : Inv p s.start := by
  have hok := h.scanOk
  simp only [State.ScanOk, hs] at hok
  unfold State.start
  split
  · exact h
  · exact h.of_scanOk rfl rfl rfl rfl hok

theorem Inv.existsCall (h : Inv p s) (hs : s.scan = .exists) : Inv p s.existsCall := by
  have hok := h.scanOk
  simp only [State.ScanOk, hs] at hok
  unfold State.existsCall
  split
  · exact h.of_scanOk rfl rfl rfl rfl hok
  · split
    · exact h.of_scanOk rfl rfl rfl rfl hok
    · exact h.of_scanOk rfl rfl rfl rfl ⟨hok, rfl⟩

variable {cversion : BitVec 32} {time : ℕ}

theorem Inv.getChildrenCall (h : Inv p s) (hs : s.scan = .getChildren cversion time) :
    Inv p (s.getChildrenCall cversion time) := by
  have hok := h.scanOk
  simp only [State.ScanOk, hs] at hok
  unfold State.getChildrenCall
  split
  · exact h.of_scanOk rfl rfl rfl rfl hok.1
  next z hz =>
    exact h.of_scanOk rfl rfl rfl rfl ⟨hok, h.distinct z hz, since_now hz⟩

theorem Inv.updateCall (h : Inv p s) {snapshot : Snapshot}
    (hs : s.scan = .update snapshot cversion time) :
    Inv p (s.updateCall p snapshot cversion time) := by
  have hok := h.scanOk
  simp only [State.ScanOk, hs] at hok
  obtain ⟨⟨-, hcversion⟩, hnodup, hsince⟩ := hok
  refine ⟨h.indexed.updateHeartbeat hnodup p, h.distinct, fun r hr => ?_, fun r hr _ => ?_,
    ⟨rfl, hcversion⟩⟩
  · rw [← Option.some.inj hr]
    exact hsince
  · rw [← Option.some.inj hr]
    exact (NodeCollection.validNodes_updateHeartbeat _ p p _).trans (if_pos rfl)

theorem Inv.store (h : Inv p s) {snapshot : Snapshot}
    (hs : s.scan = .store snapshot cversion time) : Inv p (s.store snapshot cversion time) := by
  have hok := h.scanOk
  simp only [State.ScanOk, hs] at hok
  obtain ⟨hrefreshed, hcversion⟩ := hok
  simp only [State.store, hcversion, if_true]
  split
  · exact h.of_scanOk rfl rfl rfl rfl (.inr ⟨snapshot, hrefreshed, rfl⟩)
  · exact h.of_scanOk rfl rfl rfl rfl (.inr ⟨snapshot, hrefreshed, rfl⟩)

theorem next_inv {a : Action} (h : Inv p s) (hnext : next p a s = some s') : Inv p s' := by
  cases a with
  | change x =>
    obtain ⟨zk, hx, rfl⟩ := Option.map_eq_some_iff.1 hnext
    exact h.change hx
  | find specBlackList =>
    simp only [next, Option.ite_none_right_eq_some, Option.some.injEq] at hnext
    obtain ⟨-, rfl⟩ := hnext
    unfold State.find
    split
    · exact h
    · exact h.of_same rfl rfl rfl rfl rfl rfl
  | setBlackList =>
    obtain ⟨⟨blackList, specs⟩, -, rfl⟩ := Option.map_eq_some_iff.1 hnext
    exact h.setBlackList blackList specs
  | heartbeat nodes path =>
    simp only [next, Option.ite_none_right_eq_some, Option.some.injEq] at hnext
    obtain ⟨⟨hpath, hnodes⟩, rfl⟩ := hnext
    exact h.heartbeat hpath hnodes
  | tick milliseconds | watcher =>
    rw [← Option.some.inj hnext]
    exact h.of_same rfl rfl rfl rfl rfl rfl
  | start =>
    simp only [next, Option.ite_none_right_eq_some, Option.some.injEq] at hnext
    obtain ⟨hs, rfl⟩ := hnext
    exact h.start hs
  | «exists» =>
    simp only [next, Option.ite_none_right_eq_some, Option.some.injEq] at hnext
    obtain ⟨hs, rfl⟩ := hnext
    exact h.existsCall hs
  | getChildren =>
    simp only [next] at hnext
    split at hnext
    next hs => exact Option.some.inj hnext ▸ h.getChildrenCall hs
    next => simp at hnext
  | update =>
    simp only [next] at hnext
    split at hnext
    next hs => exact Option.some.inj hnext ▸ h.updateCall hs
    next => simp at hnext
  | store =>
    simp only [next] at hnext
    split at hnext
    next hs => exact Option.some.inj hnext ▸ h.store hs
    next => simp at hnext
  | fail =>
    have hok := h.scanOk
    simp only [next] at hnext
    split at hnext
    next hs =>
      simp only [State.ScanOk, hs] at hok
      exact Option.some.inj hnext ▸ h.of_scanOk rfl rfl rfl rfl hok
    next hs =>
      simp only [State.ScanOk, hs] at hok
      exact Option.some.inj hnext ▸ h.of_scanOk rfl rfl rfl rfl hok.1
    next => simp at hnext

/-- A path with the cached `cversion` has the children of the last refresh. -/
theorem Inv.children_eq (h : Inv p s) (hz : s.zk.node = some z) (hs : s.scan = .exists)
    (hskips : s.Skips z) (hunchanged : Unchanged s .exists) :
    ∃ r, s.refreshed = some r ∧ z.children = r.children ∧ s.dropped = false := by
  have hok := h.scanOk
  simp only [State.ScanOk, hs] at hok
  obtain ⟨r, hr, hcversion⟩ := hok.resolve_left hskips.1
  simp only [Unchanged, hz, hr] at hunchanged
  obtain ⟨hcreation, hlt, hdropped⟩ := hunchanged hskips
  have hsince := h.since r hr
  have hle := hsince.changes_le z hz hcreation
  have hmod : z.changes % 2 ^ 32 = r.changes % 2 ^ 32 := by
    have := congrArg BitVec.toNat (hskips.2.symm.trans hcversion)
    rwa [ZkNode.cversion, Snapshot.cversion, BitVec.toNat_ofNat, BitVec.toNat_ofNat] at this
  exact ⟨r, hr, hsince.children_eq z hz hcreation (by omega), hdropped⟩

end Steps

/-- **The list after a scan.**  Whatever happens to the path in ZooKeeper, and however rounds
of the detector and heartbeats of other paths come in between: when an action that meets the
condition completes a scan, the list of the path is that of its children at the scan, without
the nodes on the black list. -/
theorem scan_correct (p : String) {s s' : State} {a : Action} {children : List String}
    (h : Reach (next p) (fun _ _ => True) .init s) (ha : Unchanged s a)
    (hnext : next p a s = some s') (hscan : scanned a s = some children) :
    s'.coll.validNodes.lookup p = some (children.filter (· ∉ s'.coll.blackList)) := by
  have hinv : Inv p s := h.invariant (init_inv p) fun _ _ _ h _ => next_inv h
  unfold scanned at hscan
  split at hscan
  next z hs hz =>
    -- the children were not asked for
    obtain ⟨hskips, hchildren⟩ := Option.ite_none_right_eq_some.1 hscan
    obtain ⟨r, hr, heq, hdropped⟩ := hinv.children_eq hz hs hskips ha
    have hsame : s' = { s with scan := .idle } := by
      simp only [next, hs, if_true, Option.some.injEq, State.existsCall, hz, if_pos hskips]
        at hnext
      exact hnext.symm
    rw [hsame, ← Option.some.inj hchildren, heq]
    exact hinv.listed r hr hdropped
  next _ snapshot cversion time hs =>
    have hok := hinv.scanOk
    simp only [State.ScanOk, hs] at hok
    have hsame : s'.coll = s.coll := by
      simp only [next, hs, Option.some.injEq] at hnext
      rw [← hnext]
      simp only [State.store, hok.2, if_true]
      split <;> rfl
    rw [hsame, ← Option.some.inj hscan]
    exact hinv.listed snapshot hok.1 ha
  next => simp at hscan

/-- The path is created with one child, and scanned. -/
def firstScan (child : String) : List Action :=
  [.change .create, .change (.addChild child), .start, .exists, .getChildren, .update, .store]

/-- Time passes until the next scan, which comes to its `Exists`. -/
def nextScan : List Action := [.tick 5000, .start]

/-- The next scan completes with its `Exists`, and these are the children of the path, its
list and the black list afterwards. -/
def completed (s : State) : Option (List String × Option (List String) × List String) :=
  match scanned .exists s, next "p" .exists s with
  | some children, some s' =>
    some (children, s'.coll.validNodes.lookup "p", s'.coll.blackList)
  | _, _ => none

theorem exists_of_completed {s : State} {x : List String × Option (List String) × List String}
    (h : completed s = some x) : ∃ s', next "p" .exists s = some s' ∧
      scanned .exists s = some x.1 ∧ s'.coll.validNodes.lookup "p" = x.2.1 ∧
      s'.coll.blackList = x.2.2 := by
  unfold completed at h
  split at h
  next children s' hscan hnext =>
    rw [← Option.some.inj h]
    exact ⟨s', hnext, hscan, rfl, rfl⟩
  next => simp at h

/-- A second scan of a path that has not changed. -/
theorem scan_correct_again :
    ∃ s s', Reach (next "p") (fun _ _ => True) .init s ∧ next "p" .exists s = some s' ∧
      s'.coll.validNodes.lookup "p" = some (["x"].filter (· ∉ s'.coll.blackList)) := by
  obtain ⟨s, hreach, hs⟩ := exists_reach_of_follow (next "p") (fun _ _ => True)
    (firstScan "x" ++ nextScan) .init
    (fun s => decide (Unchanged s .exists ∧ completed s = some (["x"], some ["x"], [])))
    (by decide +kernel)
  obtain ⟨ha, hcompleted⟩ := of_decide_eq_true hs
  obtain ⟨s', hnext, hscan, -, -⟩ := exists_of_completed hcompleted
  exact ⟨s, s', hreach, hnext, scan_correct "p" hreach ha hnext hscan⟩

/-- **The list is stale after a scan.**  The path loses its child, is deleted, is created
again and gets another child: its `cversion` is the cached one, and the list keeps the old
child.  Or a round reports the child, and the next one, which does not find it any more, takes
it off the black list: the child is missing in the list although it is not on the black
list. -/
theorem scan_stale :
    (∃ s s', Reach (next "p") (fun _ _ => True) .init s ∧ next "p" .exists s = some s' ∧
      scanned .exists s = some ["y"] ∧ s'.coll.validNodes.lookup "p" = some ["x"] ∧
      s'.coll.blackList = []) ∧
    ∃ s s', Reach (next "p") (fun _ _ => True) .init s ∧ next "p" .exists s = some s' ∧
      scanned .exists s = some ["x"] ∧ s'.coll.validNodes.lookup "p" = some [] ∧
      s'.coll.blackList = [] := by
  constructor
  · obtain ⟨s, hreach, hs⟩ := exists_reach_of_follow (next "p") (fun _ _ => True)
      (firstScan "x" ++ [.change (.removeChild "x"), .change .delete, .change .create,
        .change (.addChild "y")] ++ nextScan) .init
      (fun s => decide (completed s = some (["y"], some ["x"], []))) (by decide +kernel)
    obtain ⟨s', hs'⟩ := exists_of_completed (of_decide_eq_true hs)
    exact ⟨s, s', hreach, hs'⟩
  · obtain ⟨s, hreach, hs⟩ := exists_reach_of_follow (next "p") (fun _ _ => True)
      (firstScan "x" ++ [.find ["x"], .setBlackList, .find ["x"], .setBlackList] ++ nextScan) .init
      (fun s => decide (completed s = some (["x"], some [], []))) (by decide +kernel)
    obtain ⟨s', hs'⟩ := exists_of_completed (of_decide_eq_true hs)
    exact ⟨s, s', hreach, hs'⟩

end Rtp.Leader.Receiver
