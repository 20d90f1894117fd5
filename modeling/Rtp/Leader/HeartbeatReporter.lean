import Rtp.Leader.JoinPath
import Rtp.Leader.PathMap
import Rtp.Lib.Reach

/-!
# The heartbeat reporter

The model of `HeartbeatReporter` (`leader/heartbeat_reporter.cc`): the loop of its thread,
taken apart at its locked sections and its ZooKeeper requests, and the calls of
`AddPathToReport` and `RemovePath`, which anything may come between.  `RemovePath` has two
locked sections of its own.

* `nodePath` — the heartbeat node of a path.
* `State` — the two maps of the reporter, its thread, the calls between their sections, the
  answers that have not been handed to their callback, and the nodes in ZooKeeper.
* `State.request` — `Report`, one request at a time.
* `Action`, `next` — the system.
* `State.Steps` — what each action does, with what has to be the case for it.
* `State.Current` — a removal is current while its path has not been added again.
* `Undisturbed` — the thread takes no path to remove which its copy of the paths to report
  has and the map itself no longer has.
-/

namespace Rtp.Leader.Reporter

/-! ## The heartbeat nodes -/

/-- `HeartbeatMessage`. -/
structure HeartbeatMessage where
  ip : String
  port : ℕ
  deriving DecidableEq, Repr

/-- The heartbeat node of a path, which `ZKWrapper::JoinPath` makes (`joinPath_of_fits`). -/
def nodePath (msg : HeartbeatMessage) (p : String) : String :=
  .ofList (JoinPath.join p.toList (msg.ip ++ ":" ++ toString msg.port).toList)

/-! ## The state -/

/-- A removal in `node_path_to_remove_`, with the promise it is to fulfil.  `since` is a
record: how often the path had been added when it was taken from the map. -/
structure Removal where
  promise : Option ℕ
  since : ℕ
  deriving DecidableEq, Repr

/-- A call of `RemovePath` between its two sections: what its first section has found, and
whether the caller wants a future. -/
structure Call where
  path : String
  exist : Bool
  removeFuture : Bool
  since : ℕ
  deriving DecidableEq, Repr

/-- What `Exists` has answered: the owner of the node, no node, or an error. -/
inductive Look where
  | node (ephemeralOwner : ℕ)
  | noNode
  | error
  deriving DecidableEq, Repr

/-- Where `Report` stands: before one of its requests, or before it looks at the state of the
connection. -/
inductive Stage where
  | existsCall
  | getState (rc : Look)
  | delete
  | create
  | set
  | check
  deriving DecidableEq, Repr

/-- Where the thread stands: before its first section, its second one, a `Delete`, or in
`Report` for the first of the paths that are left.  A path comes with its `force` flag. -/
inductive Phase where
  | start
  | copied (pathMap : List ((_ : String) × ℕ))
  | removing (pathMap : List ((_ : String) × ℕ)) (pathsToRemove : List ((_ : String) × Removal))
  | reporting (stage : Stage) (pathMap : List ((_ : String) × ℕ))
  deriving DecidableEq

/-- The paths the thread will still report. -/
def Phase.paths : Phase → List String
  | .start => []
  | .copied pathMap | .removing pathMap _ | .reporting _ pathMap => pathMap.map (·.1)

/-- The paths for which the thread will still send a `Delete`. -/
def Phase.pathsToRemove : Phase → List ((_ : String) × Removal)
  | .removing _ pathsToRemove => pathsToRemove
  | .start | .copied _ | .reporting .. => []

/-- The reporter and ZooKeeper.  The flags and the promises are shared through pointers, which
are indices here.  `callbacks` are the removals whose `Delete` has been answered, with whether
the answer was `OK` or `NONODE`; `nodes` are the nodes with the session that owns them.  The
last two fields are a record of what has happened: the removals that were confirmed, and the
paths that were added. -/
structure State where
  nodePathMap : PathMap ℕ
  nodePathToRemove : PathMap Removal
  flags : List Bool
  promises : List Bool
  calls : List Call
  phase : Phase
  callbacks : List (((_ : String) × Removal) × Bool)
  nodes : PathMap ℕ
  session : ℕ
  confirmed : List (String × ℕ)
  added : List String

namespace State

/-- A new reporter.  Nodes of earlier sessions may still be there. -/
def init (nodes : PathMap ℕ) (session : ℕ) : State where
  nodePathMap := ∅
  nodePathToRemove := ∅
  flags := []
  promises := []
  calls := []
  phase := .start
  callbacks := []
  nodes := nodes
  session := session
  confirmed := []
  added := []

/-! ## The calls -/

/-- `AddPathToReport`. -/
def addPathToReport (path : String) (s : State) : State :=
  let s := { s with added := path :: s.added }
  match s.nodePathMap.lookup path with
  | none =>
    { s with
      nodePathMap := s.nodePathMap.insert path s.flags.length
      flags := s.flags ++ [false] }
  | some flag => { s with flags := s.flags.set flag false }

/-- The first section of `RemovePath`. -/
def erasePath (path : String) (removeFuture : Bool) (s : State) : State :=
  { s with
    nodePathMap := s.nodePathMap.erase path
    calls := s.calls ++ [⟨path, path ∈ s.nodePathMap, removeFuture, s.added.count path⟩] }

/-- The second section of `RemovePath`, with the future that the caller gets.  A removal that
is there already serves this call, too. -/
def putRemoval (call : Call) (s : State) : State × Option ℕ :=
  let iter := s.nodePathToRemove.lookup call.path
  let since := match iter with
    | none => call.since
    | some r => max r.since call.since
  let toRemove := match iter with
    | none =>
      if call.removeFuture then s.nodePathToRemove
      else s.nodePathToRemove.insert call.path ⟨none, since⟩
    | some r => s.nodePathToRemove.insert call.path { r with since := since }
  let p := match iter with
    | some r => if call.removeFuture then r.promise else none
    | none => none
  if call.exist && call.removeFuture && p.isNone then
    ({ s with
        nodePathToRemove := toRemove.insert call.path ⟨some s.promises.length, since⟩
        promises := s.promises ++ [false] },
      some s.promises.length)
  else ({ s with nodePathToRemove := toRemove }, p)

/-- The callback of a `Delete`: a removal that failed is put back unless there is a new one,
one that was confirmed fulfils its promise. -/
def callback (remove : (_ : String) × Removal) (ok : Bool) (s : State) : State :=
  if ok then
    { s with
      promises := match remove.2.promise with
        | none => s.promises
        | some p => s.promises.set p true
      confirmed := (remove.1, remove.2.since) :: s.confirmed }
  else
    { s with
      nodePathToRemove := s.nodePathToRemove.insert remove.1 <|
        match s.nodePathToRemove.lookup remove.1 with
        | none => remove.2
        | some r => { r with since := max r.since remove.2.since } }

/-! ## The requests -/

/-- What `Report` answers, for the path at hand: a path whose report failed is forced the next
time. -/
def finish (result : Bool) (flag : ℕ) (rest : List ((_ : String) × ℕ)) (s : State) : State :=
  { s with
    flags := if result then s.flags else s.flags.set flag true
    phase := .reporting .existsCall rest }

/-- `Report` goes on. -/
def goTo (stage : Stage) (pathMap : List ((_ : String) × ℕ)) (s : State) : State :=
  { s with phase := .reporting stage pathMap }

/-- A new ephemeral node of the session, unless there is a node. -/
def createNode (path : String) (s : State) : State :=
  if path ∈ s.nodes then s else { s with nodes := s.nodes.insert path s.session }

/-- A node is removed. -/
def deleteNode (path : String) (s : State) : State :=
  { s with nodes := s.nodes.erase path }

/-- The answer to `Exists`. -/
def look (path : String) (answered : Bool) (s : State) : Look :=
  if answered then
    match s.nodes.lookup path with
    | some owner => .node owner
    | none => .noNode
  else .error

end State

/-- What becomes of a request: ZooKeeper carries it out and answers; or the answer is an error,
and the request was carried out or was not. -/
inductive Reply where
  | answered
  | failed (carriedOut : Bool)
  deriving DecidableEq, Repr

/-- The answer is not an error. -/
def Reply.ok : Reply → Bool
  | .answered => true
  | .failed _ => false

/-- The request was carried out. -/
def Reply.carriedOut : Reply → Bool
  | .answered => true
  | .failed carriedOut => carriedOut

/-- The connection after the first `Exists` of `Report`: it stands, a new one is made, with the
session it gets, or `Connect` throws. -/
inductive Connection where
  | connected
  | connect (session : ℕ)
  | throws
  deriving DecidableEq, Repr

namespace State

/-- `Report` once the connection stands: what is decided on the answer of `Exists`. -/
def decideReport (rc : Look) (pair : (_ : String) × ℕ) (rest : List ((_ : String) × ℕ))
    (s : State) : State :=
  match rc with
  | .node ephemeralOwner =>
    if ephemeralOwner ≠ s.session then s.goTo .delete (pair :: rest)
    else if s.flags[pair.2]? = some true then s.goTo .set (pair :: rest)
    else s.finish true pair.2 rest
  | .noNode => s.goTo .create (pair :: rest)
  | .error => s.finish false pair.2 rest

/-- `Report` between its first `Exists` and the next request. -/
def getState (c : Connection) (rc : Look) (pair : (_ : String) × ℕ)
    (rest : List ((_ : String) × ℕ)) (s : State) : State :=
  match c with
  | .connected => s.decideReport rc pair rest
  | .connect session => { s with session := session }.decideReport rc pair rest
  | .throws => s.finish false pair.2 rest

/-- The next request of `Report`. -/
def request (stage : Stage) (reply : Reply) (pair : (_ : String) × ℕ)
    (rest : List ((_ : String) × ℕ)) (s : State) : Option State :=
  match stage with
  | .existsCall => some (s.goTo (.getState (s.look pair.1 reply.ok)) (pair :: rest))
  | .getState _ => none
  | .delete =>
    -- an error is only logged
    let s := if reply.carriedOut then s.deleteNode pair.1 else s
    some (s.goTo .create (pair :: rest))
  | .create =>
    let created := reply.ok && decide (pair.1 ∉ s.nodes)
    let s := if reply.carriedOut then s.createNode pair.1 else s
    some (if created then s.goTo .check (pair :: rest) else s.finish false pair.2 rest)
  | .set =>
    some (if reply.ok && decide (pair.1 ∈ s.nodes) then s.goTo .check (pair :: rest)
      else s.finish false pair.2 rest)
  | .check =>
    some (s.finish (s.look pair.1 reply.ok = .node s.session) pair.2 rest)

/-- The next `Delete` of the thread. -/
def delete (reply : Reply) (remove : (_ : String) × Removal) (pathMap : List ((_ : String) × ℕ))
    (rest : List ((_ : String) × Removal)) (s : State) : State :=
  let s := if reply.carriedOut then s.deleteNode remove.1 else s
  { s with
    phase := .removing pathMap rest
    callbacks := s.callbacks ++ [(remove, reply.ok)] }

end State

/-! ## The system -/

/-- An action: a call of `AddPathToReport`, one of the two sections of a call of `RemovePath`,
a callback, a step of the thread, a session that begins, or a node that goes because its
session has ended.  A `Delete` that cannot be sent is dropped without a callback. -/
inductive Action where
  | addPathToReport (p : String)
  | erasePath (p : String) (removeFuture : Bool)
  | putRemoval (i : ℕ)
  | callback (i : ℕ)
  | copy
  | swap
  | delete (reply : Reply)
  | deleteUnsent
  | report
  | request (reply : Reply)
  | getState (c : Connection)
  | sleep
  | session (id : ℕ)
  | expire (path : String)
  deriving DecidableEq, Repr

/-- The state after an action, where it can be taken. -/
def next (msg : HeartbeatMessage) (a : Action) (s : State) : Option State :=
  match a with
  | .addPathToReport p => some (s.addPathToReport (nodePath msg p))
  | .erasePath p removeFuture => some (s.erasePath (nodePath msg p) removeFuture)
  | .putRemoval i =>
    (s.calls[i]?).map fun call => ({ s with calls := s.calls.eraseIdx i }.putRemoval call).1
  | .callback i =>
    (s.callbacks[i]?).map fun c => { s with callbacks := s.callbacks.eraseIdx i }.callback c.1 c.2
  | .copy =>
    match s.phase with
    | .start => some { s with phase := .copied (inOrder s.nodePathMap) }
    | _ => none
  | .swap =>
    match s.phase with
    | .copied pathMap =>
      some { s with
        nodePathToRemove := ∅
        phase := .removing pathMap (inOrder s.nodePathToRemove) }
    | _ => none
  | .delete reply =>
    match s.phase with
    | .removing pathMap (remove :: rest) => some (s.delete reply remove pathMap rest)
    | _ => none
  | .deleteUnsent =>
    match s.phase with
    | .removing pathMap (_ :: rest) => some { s with phase := .removing pathMap rest }
    | _ => none
  | .report =>
    match s.phase with
    | .removing pathMap [] => some (s.goTo .existsCall pathMap)
    | _ => none
  | .request reply =>
    match s.phase with
    | .reporting stage (pair :: rest) => s.request stage reply pair rest
    | _ => none
  | .getState c =>
    match s.phase with
    | .reporting (.getState rc) (pair :: rest) => some (s.getState c rc pair rest)
    | _ => none
  | .sleep =>
    match s.phase with
    | .reporting _ [] => some { s with phase := .start }
    | _ => none
  | .session id => some { s with session := id }
  | .expire path => some (s.deleteNode path)

namespace State

/-- The path has not been added since it was taken from the map. -/
def Current (s : State) (path : String) (since : ℕ) : Prop := since = s.added.count path

instance (s : State) (path : String) (since : ℕ) : Decidable (s.Current path since) :=
  inferInstanceAs (Decidable (_ = _))

end State

/-- When the thread takes the paths to remove, those of them that it has copied as paths to
report are still in the map. -/
def Undisturbed (s : State) : Action → Prop
  | .swap => ∀ p ∈ s.nodePathToRemove.keys, p ∈ s.phase.paths → p ∈ s.nodePathMap
  | _ => True

instance (s : State) : (a : Action) → Decidable (Undisturbed s a)
  | .swap => inferInstanceAs (Decidable (∀ p ∈ s.nodePathToRemove.keys, _))
  | .addPathToReport _ | .erasePath .. | .putRemoval _ | .callback _ | .copy | .delete _
  | .deleteUnsent | .report | .request _ | .getState _ | .sleep | .session _ | .expire _ =>
    isTrue trivial

/-! ## What a step does -/

namespace State

/-- What a part of `Report` for a path may change besides the flags and the phase: the session,
and the node of the path. -/
structure Touches (path : String) (s s' : State) : Prop where
  map : s'.nodePathMap = s.nodePathMap
  toRemove : s'.nodePathToRemove = s.nodePathToRemove
  promises : s'.promises = s.promises
  calls : s'.calls = s.calls
  callbacks : s'.callbacks = s.callbacks
  confirmed : s'.confirmed = s.confirmed
  added : s'.added = s.added
  nodes : ∀ p ∈ s'.nodes, p ∈ s.nodes ∨ p = path

/-- A step of `Report` for the first of some paths. -/
structure Reports (pathMap : List ((_ : String) × ℕ)) (path : String) (s s' : State) : Prop
    extends Touches path s s' where
  phase : ∃ stage rest, s'.phase = .reporting stage rest ∧ rest ⊆ pathMap

section Reports

variable {s s₁ : State} {pair : (_ : String) × ℕ} {rest : List ((_ : String) × ℕ)}

theorem touches_refl (path : String) (s : State) : Touches path s s :=
  ⟨rfl, rfl, rfl, rfl, rfl, rfl, rfl, fun _ => .inl⟩

theorem touches_session (path : String) (session : ℕ) (s : State) :
    Touches path s { s with session := session } :=
  ⟨rfl, rfl, rfl, rfl, rfl, rfl, rfl, fun _ => .inl⟩

theorem touches_deleteNode (path : String) (s : State) : Touches path s (s.deleteNode path) :=
  ⟨rfl, rfl, rfl, rfl, rfl, rfl, rfl, fun _ hp => .inl (AList.mem_erase.1 hp).2⟩

theorem touches_createNode (path : String) (s : State) : Touches path s (s.createNode path) := by
  unfold createNode
  split
  · exact touches_refl path s
  · exact ⟨rfl, rfl, rfl, rfl, rfl, rfl, rfl, fun _ hp => ((AList.mem_insert _).1 hp).symm⟩

theorem Touches.finish (h : Touches pair.1 s s₁) (result : Bool) (flag : ℕ) :
    Reports (pair :: rest) pair.1 s (s₁.finish result flag rest) :=
  ⟨⟨h.map, h.toRemove, h.promises, h.calls, h.callbacks, h.confirmed, h.added, h.nodes⟩,
    .existsCall, rest, rfl, List.subset_cons_self _ _⟩

theorem Touches.goTo (h : Touches pair.1 s s₁) (stage : Stage) :
    Reports (pair :: rest) pair.1 s (s₁.goTo stage (pair :: rest)) :=
  ⟨⟨h.map, h.toRemove, h.promises, h.calls, h.callbacks, h.confirmed, h.added, h.nodes⟩,
    stage, pair :: rest, rfl, fun _ => id⟩

theorem Touches.decideReport (h : Touches pair.1 s s₁) (rc : Look) :
    Reports (pair :: rest) pair.1 s (s₁.decideReport rc pair rest) := by
  cases rc with
  | node ephemeralOwner =>
    unfold State.decideReport
    simp only
    split
    · exact h.goTo .delete
    · split
      · exact h.goTo .set
      · exact h.finish true pair.2
  | noNode => exact h.goTo .create
  | error => exact h.finish false pair.2

theorem reports_getState (c : Connection) (rc : Look) (s : State) :
    Reports (pair :: rest) pair.1 s (s.getState c rc pair rest) := by
  cases c with
  | connected => exact (touches_refl pair.1 s).decideReport rc
  | connect session => exact (touches_session pair.1 session s).decideReport rc
  | throws => exact (touches_refl pair.1 s).finish false pair.2

theorem reports_request {s' : State} {stage : Stage} {reply : Reply}
    (h : s.request stage reply pair rest = some s') : Reports (pair :: rest) pair.1 s s' := by
  have hrefl := touches_refl pair.1 s
  cases stage with
  | existsCall =>
    rw [← Option.some.inj h]
    exact hrefl.goTo _
  | getState rc => simp [request] at h
  | delete =>
    have htouch : Touches pair.1 s
        (if reply.carriedOut = true then s.deleteNode pair.1 else s) := by
      split
      · exact touches_deleteNode pair.1 s
      · exact hrefl
    rw [← Option.some.inj h]
    exact htouch.goTo .create
  | create =>
    have htouch : Touches pair.1 s
        (if reply.carriedOut = true then s.createNode pair.1 else s) := by
      split
      · exact touches_createNode pair.1 s
      · exact hrefl
    rw [← Option.some.inj h]
    split
    · exact htouch.goTo .check
    · exact htouch.finish false pair.2
  | set =>
    rw [← Option.some.inj h]
    split
    · exact hrefl.goTo .check
    · exact hrefl.finish false pair.2
  | check =>
    rw [← Option.some.inj h]
    exact hrefl.finish _ pair.2

end Reports

theorem addPathToReport_eq (path : String) (s : State) : ∃ map flags,
    s.addPathToReport path =
      { s with added := path :: s.added, nodePathMap := map, flags := flags } ∧
    ∀ p ∈ map, p = path ∨ p ∈ s.nodePathMap := by
  unfold addPathToReport
  cases hl : s.nodePathMap.lookup path with
  | none =>
    refine ⟨s.nodePathMap.insert path s.flags.length, s.flags ++ [false], ?_, fun p hp => ?_⟩
    · simp only [hl]
    · exact (AList.mem_insert _).1 hp
  | some flag =>
    refine ⟨s.nodePathMap, s.flags.set flag false, ?_, fun p hp => .inr hp⟩
    simp only [hl]

/-- No removal of the path is waiting: a call with a future that found no path leaves it so. -/
theorem putRemoval_of_none {s : State} {call : Call}
    (hl : s.nodePathToRemove.lookup call.path = none) :
    s.putRemoval call =
      if call.removeFuture then
        if call.exist then
          ({ s with
              nodePathToRemove :=
                s.nodePathToRemove.insert call.path ⟨some s.promises.length, call.since⟩
              promises := s.promises ++ [false] },
            some s.promises.length)
        else (s, none)
      else
        ({ s with nodePathToRemove := s.nodePathToRemove.insert call.path ⟨none, call.since⟩ },
          none) := by
  unfold putRemoval
  simp only [hl]
  cases call.removeFuture <;> cases call.exist <;> simp

/-- A removal is waiting: the call shares its promise, or gives it one. -/
theorem putRemoval_of_some {s : State} {call : Call} {r : Removal}
    (hl : s.nodePathToRemove.lookup call.path = some r) :
    s.putRemoval call =
      if call.exist && call.removeFuture && r.promise.isNone then
        ({ s with
            nodePathToRemove := s.nodePathToRemove.insert call.path
              ⟨some s.promises.length, max r.since call.since⟩
            promises := s.promises ++ [false] },
          some s.promises.length)
      else
        ({ s with
            nodePathToRemove :=
              s.nodePathToRemove.insert call.path ⟨r.promise, max r.since call.since⟩ },
          if call.removeFuture then r.promise else none) := by
  unfold putRemoval
  simp only [hl]
  cases call.removeFuture <;> cases call.exist <;> simp

/-- The second section of `RemovePath` changes only the removals and the promises. -/
theorem putRemoval_eq (s : State) (call : Call) : ∃ toRemove promises,
    (s.putRemoval call).1 = { s with nodePathToRemove := toRemove, promises := promises } := by
  cases hl : s.nodePathToRemove.lookup call.path with
  | none =>
    rw [putRemoval_of_none hl]
    split
    · split
      · exact ⟨_, _, rfl⟩
      · exact ⟨_, _, rfl⟩
    · exact ⟨_, _, rfl⟩
  | some r =>
    rw [putRemoval_of_some hl]
    split
    · exact ⟨_, _, rfl⟩
    · exact ⟨_, _, rfl⟩

theorem delete_eq (s : State) (reply : Reply) (remove : (_ : String) × Removal)
    (pathMap : List ((_ : String) × ℕ)) (rest : List ((_ : String) × Removal)) : ∃ nodes,
    s.delete reply remove pathMap rest = { s with
      nodes := nodes
      phase := .removing pathMap rest
      callbacks := s.callbacks ++ [(remove, reply.ok)] } := by
  unfold State.delete
  cases reply.carriedOut with
  | true | false => exact ⟨_, rfl⟩

/-- The steps, each with what has to be the case for it. -/
inductive Steps (msg : HeartbeatMessage) (s : State) : Action → State → Prop
  | addPathToReport (p : String) :
    Steps msg s (.addPathToReport p) (s.addPathToReport (nodePath msg p))
  | erasePath (p : String) (removeFuture : Bool) :
    Steps msg s (.erasePath p removeFuture) (s.erasePath (nodePath msg p) removeFuture)
  | putRemoval {i : ℕ} {call : Call} (hi : s.calls[i]? = some call) :
    Steps msg s (.putRemoval i) ({ s with calls := s.calls.eraseIdx i }.putRemoval call).1
  | callback {i : ℕ} {remove : (_ : String) × Removal} {ok : Bool}
      (hi : s.callbacks[i]? = some (remove, ok)) :
    Steps msg s (.callback i) ({ s with callbacks := s.callbacks.eraseIdx i }.callback remove ok)
  | copy (hphase : s.phase = .start) :
    Steps msg s .copy { s with phase := .copied (inOrder s.nodePathMap) }
  | swap {pathMap : List ((_ : String) × ℕ)} (hphase : s.phase = .copied pathMap) :
    Steps msg s .swap { s with
      nodePathToRemove := ∅
      phase := .removing pathMap (inOrder s.nodePathToRemove) }
  | delete {pathMap : List ((_ : String) × ℕ)} {remove : (_ : String) × Removal}
      {rest : List ((_ : String) × Removal)}
      (hphase : s.phase = .removing pathMap (remove :: rest)) (reply : Reply) :
    Steps msg s (.delete reply) (s.delete reply remove pathMap rest)
  | deleteUnsent {pathMap : List ((_ : String) × ℕ)} {remove : (_ : String) × Removal}
      {rest : List ((_ : String) × Removal)}
      (hphase : s.phase = .removing pathMap (remove :: rest)) :
    Steps msg s .deleteUnsent { s with phase := .removing pathMap rest }
  | report {pathMap : List ((_ : String) × ℕ)} (hphase : s.phase = .removing pathMap []) :
    Steps msg s .report (s.goTo .existsCall pathMap)
  | request {stage : Stage} {pair : (_ : String) × ℕ} {rest : List ((_ : String) × ℕ)}
      {s' : State} (hphase : s.phase = .reporting stage (pair :: rest)) (reply : Reply)
      (hr : Reports (pair :: rest) pair.1 s s') :
    Steps msg s (.request reply) s'
  | getState {stage : Stage} {pair : (_ : String) × ℕ} {rest : List ((_ : String) × ℕ)}
      {s' : State} (hphase : s.phase = .reporting stage (pair :: rest)) (c : Connection)
      (hr : Reports (pair :: rest) pair.1 s s') :
    Steps msg s (.getState c) s'
  | sleep {stage : Stage} (hphase : s.phase = .reporting stage []) :
    Steps msg s .sleep { s with phase := .start }
  | session (id : ℕ) : Steps msg s (.session id) { s with session := id }
  | expire (path : String) : Steps msg s (.expire path) (s.deleteNode path)

theorem steps_of_next {s s' : State} {msg : HeartbeatMessage} {a : Action}
    (hnext : next msg a s = some s') : Steps msg s a s' := by
  cases a with
  | addPathToReport p =>
    rw [← Option.some.inj hnext]
    exact .addPathToReport p
  | erasePath p removeFuture =>
    rw [← Option.some.inj hnext]
    exact .erasePath p removeFuture
  | putRemoval i =>
    obtain ⟨call, hi, rfl⟩ := Option.map_eq_some_iff.1 hnext
    exact .putRemoval hi
  | callback i =>
    obtain ⟨c, hi, rfl⟩ := Option.map_eq_some_iff.1 hnext
    exact .callback hi
  | copy =>
    simp only [next] at hnext
    split at hnext
    next hphase =>
      rw [← Option.some.inj hnext]
      exact .copy hphase
    · simp at hnext
  | swap =>
    simp only [next] at hnext
    split at hnext
    next hphase =>
      rw [← Option.some.inj hnext]
      exact .swap hphase
    · simp at hnext
  | delete reply =>
    simp only [next] at hnext
    split at hnext
    next hphase =>
      rw [← Option.some.inj hnext]
      exact .delete hphase reply
    · simp at hnext
  | deleteUnsent =>
    simp only [next] at hnext
    split at hnext
    next hphase =>
      rw [← Option.some.inj hnext]
      exact .deleteUnsent hphase
    · simp at hnext
  | report =>
    simp only [next] at hnext
    split at hnext
    next hphase =>
      rw [← Option.some.inj hnext]
      exact .report hphase
    · simp at hnext
  | request reply =>
    simp only [next] at hnext
    split at hnext
    next hphase => exact .request hphase reply (reports_request hnext)
    · simp at hnext
  | getState c =>
    simp only [next] at hnext
    split at hnext
    next hphase =>
      rw [← Option.some.inj hnext]
      exact .getState hphase c (reports_getState c _ s)
    · simp at hnext
  | sleep =>
    simp only [next] at hnext
    split at hnext
    next hphase =>
      rw [← Option.some.inj hnext]
      exact .sleep hphase
    · simp at hnext
  | session id =>
    rw [← Option.some.inj hnext]
    exact .session id
  | expire path =>
    rw [← Option.some.inj hnext]
    exact .expire path

end State

end Rtp.Leader.Reporter
