import Rtp.Leader.HeartbeatReceiver
import Rtp.Leader.PathMap
import Rtp.Leader.RemovePath

/-!
# The server subscriber

`ServerSubscriber` (`leader/server_subscriber.cc`) over all its paths: the loop of the heartbeat
receiver's thread, which holds `update_lock_` while it goes through a copy of the paths, the
calls of `AddPaths` and `RemovePath`, the watcher, and the node collection with the bad node
detector.  `RemovePath` takes the paths from the receiver, passes through `update_lock_`, and
then takes the lists from the node collection; between any two of these anything may happen.

* `Scan` — where `Receive` stands for the path at hand.
* `State`, `Action`, `next` — the system.
* `Call` — a call of `RemovePath`, with how far it has got, and a record of the paths that were
  added since its first section.
* `State.updating` — the path for which `UpdateHeartbeat` is about to be called.
* `removed_stays_removed` — **what was removed stays removed**: after `RemovePath` has returned
  there is no list and no update for its paths and what lies below them, until they are added.
-/

namespace Rtp.Leader.Subscriber

open Receiver (NodeStatus invalidChildVersion uint64Max)
open NodeCollection (isUnder isUnder_of_sub)

/-! ## The state -/

/-- What a call of `ServerSubscriber::RemovePath` is for: it has an overload for a path and one
for a list of paths. -/
inductive Target where
  | path (p : String)
  | paths (l : List String)
  deriving DecidableEq, Repr

/-- The paths of a call. -/
def Target.list : Target → List String
  | .path p => [p]
  | .paths l => l

/-- How far a call of `RemovePath` has got: it has taken the paths from the receiver, it has
passed through `update_lock_`, or it has returned. -/
inductive Stage where
  | erased
  | passed
  | returned
  deriving DecidableEq, Repr

/-- A call of `RemovePath`.  The last field is a record of the paths that were added since its
first section. -/
structure Call where
  target : Target
  stage : Stage
  readded : List String
  deriving DecidableEq, Repr

/-- What `Exists` has answered: the `cversion` of the path, no node, or an error. -/
inductive Look where
  | node (cversion : BitVec 32)
  | noNode
  | error
  deriving DecidableEq, Repr

/-- The connection after `Exists`: it stands, a new one is made, or `Connect` throws. -/
inductive Connection where
  | connected
  | connect
  | throws
  deriving DecidableEq, Repr

/-- Where `Receive` stands, with what it has read: before it looks at the time, its `Exists`,
the look at the connection, its `GetChildren`, its `UpdateHeartbeat`, and the parts of its
update of the node status. -/
inductive Scan where
  | start
  | existsCall
  | getState (rc : Look)
  | getChildren (cversion : BitVec 32) (nextScanTime : ℕ)
  | update (children : List String) (found cversion : BitVec 32) (nextScanTime : ℕ)
  | store (found cversion : BitVec 32) (nextScanTime : ℕ)
  | recheck
  | reset
  | zero
  deriving DecidableEq, Repr

/-- Where the thread stands: outside `update_lock_`, inside it before it copies the paths, or in
`Receive` for the first of the paths that are left. -/
inductive Loop where
  | outside
  | locked
  | scanning (scan : Scan) (pathMap : List ((_ : String) × ℕ))
  deriving DecidableEq

/-- The paths of the round that are left. -/
def Loop.paths : Loop → List String
  | .outside | .locked => []
  | .scanning _ pathMap => pathMap.map (·.1)

/-- The subscriber.  The node statuses are shared through pointers, which are indices here. -/
structure State where
  statuses : List NodeStatus
  paths : PathMap ℕ
  skipSleep : Bool
  loop : Loop
  calls : List Call
  coll : NodeCollection

namespace State

/-- A new subscriber. -/
def init : State where
  statuses := []
  paths := ∅
  skipSleep := false
  loop := .outside
  calls := []
  coll := .empty

/-- The node status behind a pointer. -/
def status (i : ℕ) (s : State) : NodeStatus := (s.statuses[i]?).getD ⟨invalidChildVersion, 0⟩

/-- A time for the next scan is stored. -/
def setScanTime (i time : ℕ) (s : State) : State :=
  { s with statuses := s.statuses.modify i fun st => { st with nextScanTime := time } }

/-- A `cversion` is stored. -/
def setCversion (i : ℕ) (cversion : BitVec 32) (s : State) : State :=
  { s with statuses := s.statuses.modify i fun st => { st with cversion := cversion } }

/-! ## The calls -/

/-- The body of the loop of `AddPaths`. -/
def addPath (s : State) (path : String) : State :=
  match s.paths.lookup path with
  | none =>
    { s with
      statuses := s.statuses ++ [⟨invalidChildVersion, 0⟩]
      paths := s.paths.insert path s.statuses.length }
  | some i => s.setScanTime i 0

/-- `HeartbeatReceiver::AddPaths`. -/
def addPaths (paths : List String) (s : State) : State :=
  let s := paths.foldl addPath s
  { s with
    skipSleep := true
    calls := s.calls.map fun c => { c with readded := paths ++ c.readded } }

/-- The body of the second loop of `HeartbeatReceiver::RemovePath`. -/
def erasePath (s : State) (remove : String) : State :=
  match s.paths.lookup remove with
  | none => s
  | some i => { s.setScanTime i uint64Max with paths := s.paths.erase remove }

/-- `HeartbeatReceiver::RemovePath` up to `update_lock_`; the call begins. -/
def removePath (target : Target) (s : State) : State :=
  let removeList := s.paths.keys.filter fun first => target.list.any (isUnder · first)
  let s := removeList.foldl erasePath s
  { s with skipSleep := true, calls := s.calls ++ [⟨target, .erased, []⟩] }

/-- A call gets on. -/
def setStage (i : ℕ) (stage : Stage) (s : State) : State :=
  { s with calls := s.calls.modify i fun c => { c with stage := stage } }

/-- `NodeCollectionImpl::RemovePath`, the overload of the call; the call returns. -/
def removeNodes (i : ℕ) (target : Target) (s : State) : State :=
  let s := { s with coll := match target with
    | .path p => s.coll.removePath p
    | .paths l => s.coll.removePathList l }
  s.setStage i .returned

/-- `CommonWatcher`, for an event of a path while the connection stands. -/
def watcher (path : String) (s : State) : State :=
  let s := match s.paths.lookup path with
    | none => s
    | some i => s.setScanTime i 0
  { s with skipSleep := true }

/-! ## `Receive` -/

/-- `Receive` goes on for the path at hand. -/
def goTo (scan : Scan) (pathMap : List ((_ : String) × ℕ)) (s : State) : State :=
  { s with loop := .scanning scan pathMap }

/-- `Receive` up to its `Exists`. -/
def check (now : ℕ) (pair : (_ : String) × ℕ) (rest : List ((_ : String) × ℕ)) (s : State) :
    State :=
  if (s.status pair.2).nextScanTime > now then s.goTo .start rest
  else s.goTo .existsCall (pair :: rest)

/-- `Receive` between `Exists` and `GetChildren`. -/
def getState (rc : Look) (c : Connection) (now : ℕ) (pair : (_ : String) × ℕ)
    (rest : List ((_ : String) × ℕ)) (s : State) : State :=
  if c = .throws then s.goTo .start rest
  else
    match rc with
    | .noNode => (s.setScanTime pair.2 (now + 30 * 1000)).goTo .start rest
    | .error => s.goTo .start rest
    | .node found =>
      let status := s.status pair.2
      if status.cversion = invalidChildVersion ∨ status.cversion ≠ found then
        s.goTo (.getChildren status.cversion status.nextScanTime) (pair :: rest)
      else s.goTo .start rest

/-- `GetChildren`, which fails or gives the children and the `cversion` they are from. -/
def getChildren (answer : Option (List String × BitVec 32)) (cversion : BitVec 32)
    (nextScanTime : ℕ) (pair : (_ : String) × ℕ) (rest : List ((_ : String) × ℕ)) (s : State) :
    State :=
  match answer with
  | none => s.goTo .start rest
  | some (children, found) => s.goTo (.update children found cversion nextScanTime) (pair :: rest)

/-- `UpdateHeartbeat`. -/
def update (children : List String) (found cversion : BitVec 32) (nextScanTime : ℕ)
    (pair : (_ : String) × ℕ) (rest : List ((_ : String) × ℕ)) (s : State) : State :=
  { s with coll := s.coll.updateHeartbeat children pair.1 }.goTo
    (.store found cversion nextScanTime) (pair :: rest)

/-- The two exchanges of the node status: where the `cversion` has not changed it is brought up
to date, and so is the time, if it has not changed either. -/
def store (now : ℕ) (found cversion : BitVec 32) (nextScanTime : ℕ) (pair : (_ : String) × ℕ)
    (rest : List ((_ : String) × ℕ)) (s : State) : State :=
  if (s.status pair.2).cversion = cversion then
    let s := s.setCversion pair.2 found
    if (s.status pair.2).nextScanTime = nextScanTime then
      (s.setScanTime pair.2 (now + 5 * 1000)).goTo .start rest
    else s.goTo .recheck (pair :: rest)
  else s.goTo .reset (pair :: rest)

/-- The time has been changed: the next round begins at once unless the path was removed. -/
def recheck (pair : (_ : String) × ℕ) (rest : List ((_ : String) × ℕ)) (s : State) : State :=
  { s with
    skipSleep := s.skipSleep || decide ((s.status pair.2).nextScanTime ≠ uint64Max)
    loop := .scanning .start rest }

/-- The `cversion` has been changed: the path is scanned again unless it was removed. -/
def reset (pair : (_ : String) × ℕ) (rest : List ((_ : String) × ℕ)) (s : State) : State :=
  if (s.status pair.2).nextScanTime ≠ uint64Max then s.goTo .zero (pair :: rest)
  else s.goTo .start rest

/-- The rest of `reset`. -/
def zero (pair : (_ : String) × ℕ) (rest : List ((_ : String) × ℕ)) (s : State) : State :=
  { s.setScanTime pair.2 0 with skipSleep := true, loop := .scanning .start rest }

/-- The path for which `UpdateHeartbeat` is about to be called. -/
def updating (s : State) : Option String :=
  match s.loop with
  | .scanning (.update ..) (pair :: _) => some pair.1
  | _ => none

end State

/-! ## The system -/

/-- An action: a call of `AddPaths`, a part of a call of `RemovePath`, an event for the watcher,
a call of the node collection by another thread, or a part of the loop, with the clock and the
answers of ZooKeeper. -/
inductive Action where
  | addPaths (paths : List String)
  | removePath (target : Target)
  | passLock (i : ℕ)
  | removeNodes (i : ℕ)
  | watcher (path : String)
  | updateBadNode (blackList : List String)
  | pickOneNode (path : String)
  | lock
  | copy
  | check (now : ℕ)
  | existsCall (rc : Look)
  | getState (c : Connection) (now : ℕ)
  | getChildren (answer : Option (List String × BitVec 32))
  | update
  | store (now : ℕ)
  | recheck
  | reset
  | zero
  | unlock
  deriving DecidableEq, Repr

/-- The part of `Receive` for the path at hand, where the action is the one that comes next. -/
def receive (a : Action) (scan : Scan) (pair : (_ : String) × ℕ) (rest : List ((_ : String) × ℕ))
    (s : State) : Option State :=
  match a, scan with
  | .check now, .start => some (s.check now pair rest)
  | .existsCall rc, .existsCall => some (s.goTo (.getState rc) (pair :: rest))
  | .getState c now, .getState rc => some (s.getState rc c now pair rest)
  | .getChildren answer, .getChildren cversion time =>
    some (s.getChildren answer cversion time pair rest)
  | .update, .update children found cversion time =>
    some (s.update children found cversion time pair rest)
  | .store now, .store found cversion time => some (s.store now found cversion time pair rest)
  | .recheck, .recheck => some (s.recheck pair rest)
  | .reset, .reset => some (s.reset pair rest)
  | .zero, .zero => some (s.zero pair rest)
  | _, _ => none

/-- The state after an action, where it can be taken.  A call of `RemovePath` passes through
`update_lock_` only while the thread is outside. -/
def next (a : Action) (s : State) : Option State :=
  match a with
  | .addPaths paths => some (s.addPaths paths)
  | .removePath target => some (s.removePath target)
  | .passLock i =>
    match s.calls[i]?, s.loop with
    | some ⟨_, .erased, _⟩, .outside => some (s.setStage i .passed)
    | _, _ => none
  | .removeNodes i =>
    match s.calls[i]? with
    | some ⟨target, .passed, _⟩ => some (s.removeNodes i target)
    | _ => none
  | .watcher path => some (s.watcher path)
  | .updateBadNode blackList => some { s with coll := s.coll.updateBadNode blackList }
  | .pickOneNode path => some { s with coll := (s.coll.pickOneNode path).2 }
  | .lock => if s.loop = .outside then some { s with loop := .locked } else none
  | .copy => if s.loop = .locked then some (s.goTo .start (inOrder s.paths)) else none
  | .unlock =>
    if s.loop = .scanning .start [] then some { s with loop := .outside, skipSleep := false }
    else none
  | a =>
    match s.loop with
    | .scanning scan (pair :: rest) => receive a scan pair rest s
    | _ => none

/-! ## The invariant -/

/-- The call has to keep the path out. -/
def Call.KeepsOut (c : Call) (q : String) : Prop :=
  c.target.list.any (isUnder · q) = true ∧ q ∉ c.readded

namespace State

/-- The invariant for a call: its paths are not in the receiver; once it has passed the lock
they are not in the round of the thread, and when it has returned there is no list of them. -/
structure Holds (s : State) (c : Call) : Prop where
  paths : ∀ q, c.KeepsOut q → q ∉ s.paths
  loop : c.stage ≠ .erased → ∀ q, c.KeepsOut q → q ∉ s.loop.paths
  coll : c.stage = .returned → ∀ q, c.KeepsOut q → q ∉ s.coll.validNodes

/-- A step other than those of the calls: the thread takes paths only from the receiver, and
lists are made only for the paths of the round. -/
structure Frame (s s' : State) : Prop where
  calls : s'.calls = s.calls
  paths : s'.paths = s.paths
  loop : ∀ q ∈ s'.loop.paths, q ∈ s.loop.paths ∨ q ∈ s.paths
  coll : ∀ q ∈ s'.coll.validNodes, q ∈ s.coll.validNodes ∨ q ∈ s.loop.paths

theorem Holds.frame {s s' : State} {c : Call} (h : s.Holds c) (hf : Frame s s') : s'.Holds c where
  paths q hq := hf.paths ▸ h.paths q hq
  loop hstage q hq hmem := (hf.loop q hmem).elim (h.loop hstage q hq) (h.paths q hq)
  coll hstage q hq hmem :=
    (hf.coll q hmem).elim (h.coll hstage q hq) (h.loop (by rw [hstage]; decide) q hq)

section Frame

variable {s s' : State} {pair : (_ : String) × ℕ} {rest : List ((_ : String) × ℕ)} {scan : Scan}

/-- `Receive` goes on, or the next path is at hand, and the lists are as they were. -/
theorem frame_goTo {scan' : Scan} (hloop : s.loop = .scanning scan (pair :: rest))
    (hcalls : s'.calls = s.calls) (hpaths : s'.paths = s.paths) (hcoll : s'.coll = s.coll)
    (hloop' : s'.loop = .scanning scan' (pair :: rest) ∨ s'.loop = .scanning scan' rest) :
    Frame s s' := by
  refine ⟨hcalls, hpaths, fun q hq => .inl ?_, fun q hq => .inl (hcoll ▸ hq)⟩
  rcases hloop' with hsame | hrest
  · rw [hsame] at hq
    rw [hloop]
    exact hq
  · rw [hrest] at hq
    rw [hloop]
    exact List.mem_cons_of_mem _ hq

theorem frame_update (hloop : s.loop = .scanning scan (pair :: rest)) (children : List String)
    (found cversion : BitVec 32) (time : ℕ) :
    Frame s (s.update children found cversion time pair rest) := by
  refine ⟨rfl, rfl, fun q hq => .inl (hloop ▸ hq), fun q hq => ?_⟩
  rcases (AList.mem_insert _).1 hq with rfl | hq
  · rw [hloop]
    exact .inr List.mem_cons_self
  · exact .inl hq

/-- Every part of `Receive`. -/
theorem frame_receive {a : Action} (hloop : s.loop = .scanning scan (pair :: rest))
    (h : receive a scan pair rest s = some s') : Frame s s' := by
  unfold receive at h
  split at h
  · -- the time of the next scan
    rw [← Option.some.inj h]
    unfold check
    split
    · exact frame_goTo hloop rfl rfl rfl (.inr rfl)
    · exact frame_goTo hloop rfl rfl rfl (.inl rfl)
  · rw [← Option.some.inj h]
    exact frame_goTo hloop rfl rfl rfl (.inl rfl)
  · -- the connection, and the answer of `Exists`
    rw [← Option.some.inj h]
    unfold getState
    split
    · exact frame_goTo hloop rfl rfl rfl (.inr rfl)
    · split
      · exact frame_goTo hloop rfl rfl rfl (.inr rfl)
      · exact frame_goTo hloop rfl rfl rfl (.inr rfl)
      · simp only
        split
        · exact frame_goTo hloop rfl rfl rfl (.inl rfl)
        · exact frame_goTo hloop rfl rfl rfl (.inr rfl)
  · rw [← Option.some.inj h]
    unfold getChildren
    split
    · exact frame_goTo hloop rfl rfl rfl (.inr rfl)
    · exact frame_goTo hloop rfl rfl rfl (.inl rfl)
  · rw [← Option.some.inj h]
    exact frame_update hloop _ _ _ _
  · -- the exchanges of the node status
    rw [← Option.some.inj h]
    unfold store
    split
    · simp only
      split
      · exact frame_goTo hloop rfl rfl rfl (.inr rfl)
      · exact frame_goTo hloop rfl rfl rfl (.inl rfl)
    · exact frame_goTo hloop rfl rfl rfl (.inl rfl)
  · rw [← Option.some.inj h]
    exact frame_goTo hloop rfl rfl rfl (.inr rfl)
  · rw [← Option.some.inj h]
    unfold reset
    split
    · exact frame_goTo hloop rfl rfl rfl (.inl rfl)
    · exact frame_goTo hloop rfl rfl rfl (.inr rfl)
  · rw [← Option.some.inj h]
    exact frame_goTo hloop rfl rfl rfl (.inr rfl)
  · simp at h

theorem frame_watcher (path : String) (s : State) : Frame s (s.watcher path) := by
  unfold watcher
  cases s.paths.lookup path with
  | none | some i => exact ⟨rfl, rfl, fun _ => .inl, fun _ => .inl⟩

end Frame

/-! ### The calls -/

variable {s : State}

theorem addPath_frame (s : State) (path : String) : ∃ statuses paths,
    s.addPath path = { s with statuses := statuses, paths := paths } ∧
      ∀ q ∈ paths, q ∈ s.paths ∨ q = path := by
  unfold addPath
  cases s.paths.lookup path with
  | none => exact ⟨_, _, rfl, fun q hq => ((AList.mem_insert _).1 hq).symm⟩
  | some i => exact ⟨_, _, rfl, fun q hq => .inl hq⟩

theorem foldl_addPath_frame (l : List String) (s : State) : ∃ statuses paths,
    l.foldl addPath s = { s with statuses := statuses, paths := paths } ∧
      ∀ q ∈ paths, q ∈ s.paths ∨ q ∈ l := by
  induction l generalizing s with
  | nil => exact ⟨_, _, rfl, fun q hq => .inl hq⟩
  | cons path l ih =>
    obtain ⟨statuses₁, paths₁, heq₁, h₁⟩ := addPath_frame s path
    obtain ⟨statuses, paths, heq, h⟩ := ih (s.addPath path)
    rw [heq₁] at heq h
    refine ⟨statuses, paths, by rw [List.foldl_cons, heq₁, heq], fun q hq => ?_⟩
    rcases h q hq with hq | hq
    · exact (h₁ q hq).imp_right fun hq => List.mem_cons.2 (.inl hq)
    · exact .inr (List.mem_cons_of_mem _ hq)

theorem erasePath_frame (s : State) (remove : String) : ∃ statuses paths,
    s.erasePath remove = { s with statuses := statuses, paths := paths } ∧
      ∀ q, q ∈ paths ↔ q ∈ s.paths ∧ q ≠ remove := by
  unfold erasePath
  cases hl : s.paths.lookup remove with
  | none =>
    refine ⟨_, _, rfl, fun q => ⟨fun hq => ⟨hq, ?_⟩, And.left⟩⟩
    rintro rfl
    exact AList.lookup_eq_none.1 hl hq
  | some i => exact ⟨_, _, rfl, fun q => AList.mem_erase.trans And.comm⟩

theorem foldl_erasePath_frame (l : List String) (s : State) : ∃ statuses paths,
    l.foldl erasePath s = { s with statuses := statuses, paths := paths } ∧
      ∀ q, q ∈ paths ↔ q ∈ s.paths ∧ q ∉ l := by
  induction l generalizing s with
  | nil => exact ⟨_, _, rfl, fun q => by simp⟩
  | cons remove l ih =>
    obtain ⟨statuses₁, paths₁, heq₁, h₁⟩ := erasePath_frame s remove
    obtain ⟨statuses, paths, heq, h⟩ := ih (s.erasePath remove)
    rw [heq₁] at heq h
    refine ⟨statuses, paths, by rw [List.foldl_cons, heq₁, heq], fun q => ?_⟩
    rw [h q, h₁ q, List.mem_cons, not_or, and_assoc]

/-- Every call of `RemovePath` keeps its paths out. -/
def AllHold (s : State) : Prop := ∀ c ∈ s.calls, s.Holds c

theorem AllHold.addPaths (h : s.AllHold) (l : List String) : (s.addPaths l).AllHold := by
  obtain ⟨statuses, paths, heq, hpaths⟩ := foldl_addPath_frame l s
  intro c hc
  unfold State.addPaths at hc ⊢
  rw [heq] at hc ⊢
  obtain ⟨c₀, hc₀, rfl⟩ := List.mem_map.1 hc
  -- a path that the call still keeps out is not one of those that are added
  have hkeeps : ∀ q, Call.KeepsOut { c₀ with readded := l ++ c₀.readded } q →
      c₀.KeepsOut q ∧ q ∉ l := by
    intro q hq
    have hnot := hq.2
    rw [List.mem_append, not_or] at hnot
    exact ⟨⟨hq.1, hnot.2⟩, hnot.1⟩
  have hold := h c₀ hc₀
  exact {
    paths := fun q hq hmem =>
      (hpaths q hmem).elim (hold.paths q (hkeeps q hq).1) (hkeeps q hq).2
    loop := fun hstage q hq => hold.loop hstage q (hkeeps q hq).1
    coll := fun hstage q hq => hold.coll hstage q (hkeeps q hq).1 }

theorem AllHold.removePath (h : s.AllHold) (target : Target) : (s.removePath target).AllHold := by
  obtain ⟨statuses, paths, heq, hpaths⟩ := foldl_erasePath_frame
    (s.paths.keys.filter fun first => target.list.any (isUnder · first)) s
  intro c hc
  unfold State.removePath at hc ⊢
  simp only [heq] at hc ⊢
  rcases List.mem_append.1 hc with hc | hc
  · have hold := h c hc
    exact ⟨fun q hq hmem => hold.paths q hq ((hpaths q).1 hmem).1, hold.loop, hold.coll⟩
  · obtain rfl := List.mem_singleton.1 hc
    refine ⟨fun q hq hmem => ?_, fun hstage => absurd rfl hstage, fun hstage => ?_⟩
    · obtain ⟨hmem, hnot⟩ := (hpaths q).1 hmem
      exact hnot (List.mem_filter.2 ⟨AList.mem_keys.1 hmem, hq.1⟩)
    · simp at hstage

variable {i : ℕ}

/-- The calls after one of them has got on. -/
theorem mem_calls_setStage {stage : Stage} {c₀ c : Call} (hi : s.calls[i]? = some c₀)
    (hc : c ∈ (s.setStage i stage).calls) : c ∈ s.calls ∨ c = { c₀ with stage := stage } := by
  obtain ⟨j, hj⟩ := List.getElem?_of_mem hc
  simp only [setStage, List.getElem?_modify] at hj
  obtain ⟨c₁, hj₁, rfl⟩ := Option.map_eq_some_iff.1 hj
  split
  next hij =>
    subst hij
    exact .inr (by rw [Option.some.inj (hj₁.symm.trans hi)])
  next => exact .inl (List.mem_of_getElem? hj₁)

/-- Outside the lock the thread has no paths. -/
theorem AllHold.passLock (h : s.AllHold) {c₀ : Call} (hi : s.calls[i]? = some c₀)
    (hloop : s.loop = .outside) : (s.setStage i .passed).AllHold := by
  intro c hc
  rcases mem_calls_setStage hi hc with hc | rfl
  · have hold := h c hc
    exact ⟨hold.paths, hold.loop, hold.coll⟩
  · refine ⟨(h c₀ (List.mem_of_getElem? hi)).paths, fun _ q _ => ?_, fun hstage => ?_⟩
    · show q ∉ s.loop.paths
      rw [hloop]
      exact List.not_mem_nil
    · simp at hstage

/-- The lists of the paths of a call are removed, and no others are made. -/
theorem mem_validNodes_removeNodes {target : Target} {q : String}
    (h : q ∈ (s.removeNodes i target).coll.validNodes) :
    q ∈ s.coll.validNodes ∧ ¬ target.list.any (isUnder · q) = true := by
  have hremove : ∀ removes, (∀ q ∈ s.coll.validNodes,
      q ∈ removes ↔ target.list.any (isUnder · q) = true) →
      q ∈ (s.coll.removeAll removes).validNodes →
      q ∈ s.coll.validNodes ∧ ¬ target.list.any (isUnder · q) = true := by
    intro removes hremoves hq
    obtain ⟨nodes, hnodes⟩ := NodeCollection.mem_validNodes_iff.1 hq
    rw [NodeCollection.validNodes_removeAll] at hnodes
    split at hnodes
    · simp at hnodes
    next hnot =>
      have hmem := NodeCollection.mem_validNodes_iff.2 ⟨nodes, hnodes⟩
      exact ⟨hmem, fun hany => hnot ((hremoves q hmem).2 hany)⟩
  cases target with
  | path p | paths l =>
    refine hremove _ (fun q hq => ?_) h
    simp [Target.list, List.mem_filter, AList.mem_keys.1 hq]

theorem AllHold.removeNodes (h : s.AllHold) {target : Target} {readded : List String}
    (hi : s.calls[i]? = some ⟨target, .passed, readded⟩) : (s.removeNodes i target).AllHold := by
  intro c hc
  have hc : c ∈ (s.setStage i .returned).calls := hc
  rcases mem_calls_setStage hi hc with hc | rfl
  · have hold := h c hc
    exact ⟨hold.paths, hold.loop, fun hstage q hq hmem =>
      hold.coll hstage q hq (mem_validNodes_removeNodes hmem).1⟩
  · have hold := h _ (List.mem_of_getElem? hi)
    exact ⟨hold.paths, fun _ => hold.loop (by simp), fun _ q hq hmem =>
      (mem_validNodes_removeNodes hmem).2 hq.1⟩

theorem AllHold.frame {s' : State} (h : s.AllHold) (hf : Frame s s') : s'.AllHold :=
  fun c hc => (h c (hf.calls ▸ hc)).frame hf

/-- **Every action keeps the paths of the calls out.** -/
theorem AllHold.next {s' : State} {a : Action} (h : s.AllHold) (hnext : next a s = some s') :
    s'.AllHold := by
  unfold Subscriber.next at hnext
  split at hnext
  · rw [← Option.some.inj hnext]
    exact h.addPaths _
  · rw [← Option.some.inj hnext]
    exact h.removePath _
  · split at hnext
    next hi hloop =>
      rw [← Option.some.inj hnext]
      exact h.passLock hi hloop
    · simp at hnext
  · split at hnext
    next hi =>
      rw [← Option.some.inj hnext]
      exact h.removeNodes hi
    · simp at hnext
  · rw [← Option.some.inj hnext]
    exact h.frame (frame_watcher _ s)
  · rw [← Option.some.inj hnext]
    exact h.frame ⟨rfl, rfl, fun _ => .inl, fun q hq =>
      .inl (NodeCollection.mem_validNodes_updateBadNode.1 hq)⟩
  · rw [← Option.some.inj hnext]
    refine h.frame ⟨rfl, rfl, fun _ => .inl, fun q hq => .inl ?_⟩
    rwa [← (NodeCollection.pickOneNode_frame _ s.coll).1]
  · split at hnext
    · rw [← Option.some.inj hnext]
      exact h.frame ⟨rfl, rfl, fun q hq => absurd hq List.not_mem_nil, fun _ => .inl⟩
    · simp at hnext
  · split at hnext
    · rw [← Option.some.inj hnext]
      refine h.frame ⟨rfl, rfl, fun q hq => .inr ?_, fun _ => .inl⟩
      obtain ⟨e, he, rfl⟩ := List.mem_map.1 hq
      exact mem_of_mem_entries (mem_inOrder.1 he)
    · simp at hnext
  · split at hnext
    · rw [← Option.some.inj hnext]
      exact h.frame ⟨rfl, rfl, fun q hq => absurd hq List.not_mem_nil, fun _ => .inl⟩
    · simp at hnext
  · split at hnext
    next hloop => exact h.frame (frame_receive hloop hnext)
    · simp at hnext

end State

/-! ## Every run -/

/-- **What was removed stays removed.**  In every state of every run: once a call of
`ServerSubscriber::RemovePath` has returned, there is no list for its paths nor for any path
below one of them, and `UpdateHeartbeat` is not about to be called for one, unless the path was
added after the call had taken it from the receiver. -/
theorem removed_stays_removed {s : State} (h : Reach next (fun _ _ => True) .init s) :
    ∀ c ∈ s.calls, c.stage = .returned → ∀ p ∈ c.target.list, ∀ q,
      (q = p ∨ ∃ rest, q = p ++ "/" ++ rest) → q ∉ c.readded →
      q ∉ s.coll.validNodes ∧ s.updating ≠ some q := by
  have hall : s.AllHold := h.invariant (fun c hc => absurd hc List.not_mem_nil)
    fun _ _ _ hs _ hnext => hs.next hnext
  intro c hc hstage p hp q hq hadded
  have hold := hall c hc
  have hkeeps : c.KeepsOut q := ⟨List.any_eq_true.2 ⟨p, hp, isUnder_of_sub hq⟩, hadded⟩
  refine ⟨hold.coll hstage q hkeeps, fun hupdating => ?_⟩
  -- `UpdateHeartbeat` is called for the first path of the round
  have hnot := hold.loop (by rw [hstage]; decide) q hkeeps
  unfold State.updating at hupdating
  split at hupdating
  next hloop =>
    rw [hloop, ← Option.some.inj hupdating] at hnot
    exact hnot List.mem_cons_self
  · simp at hupdating

/-- `/a` is removed while the thread is in `Receive` for `/a/b`, which then makes a list; the
call waits for the end of the round and takes the list away.  The next round goes on with `/c`
alone. -/
theorem removed_stays_removed_run : ∃ s, Reach next (fun _ _ => True) .init s ∧
    s.calls = [⟨.path "/a", .returned, []⟩] ∧ s.updating = some "/c" ∧
    "/a/b" ∉ s.coll.validNodes ∧ s.updating ≠ some "/a/b" := by
  obtain ⟨s, hs, hseen⟩ := exists_reach_of_follow next (fun _ _ => True)
    [.addPaths ["/a/b", "/c"], .lock, .copy, .check 0, .existsCall (.node 1),
      .getState .connected 0, .removePath (.path "/a"), .getChildren (some (["x", "y"], 1)),
      .update, .store 0, .recheck, .check 0, .existsCall .error, .getState .connect 0, .unlock,
      .passLock 0, .lock, .removeNodes 0, .copy, .check 9, .existsCall (.node 4),
      .getState .connected 9, .getChildren (some (["z"], 4))]
    .init (fun s => decide (s.calls = [⟨.path "/a", .returned, []⟩] ∧ s.updating = some "/c"))
    (by decide +kernel)
  obtain ⟨hcalls, hupdating⟩ := of_decide_eq_true hseen
  refine ⟨s, hs, hcalls, hupdating,
    removed_stays_removed hs ⟨.path "/a", .returned, []⟩ ?_ rfl "/a" ?_ "/a/b" ?_ ?_⟩
  · rw [hcalls]
    exact List.mem_cons_self
  · exact List.mem_cons_self
  · exact .inr ⟨"b", by decide⟩
  · exact List.not_mem_nil

end Rtp.Leader.Subscriber
