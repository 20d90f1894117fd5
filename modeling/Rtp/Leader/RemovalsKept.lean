import Rtp.Leader.ConfirmedRemoval

/-!
# No removal is lost

`RemovePath` leaves its removal in `node_path_to_remove_`, the thread takes it from there, and
the callback of its `Delete` puts it back when the `Delete` has failed.  A blocking caller waits
for the promise of the removal.

* `State.carried` — the removals in the map, in the hands of the thread, and in flight.
* `Asked`, `nextAsked` — the system with a record of what callers may count on: the paths that
  are to go, and the futures they have been given.
* `Heeded` — the condition on a step: a `Delete` that cannot be sent was not needed, and a
  removal that has failed takes no promise along when another has come into its place.
* `removal_kept` — **under this condition no removal and no promise is lost**, in every run.
* `removal_lost` — two runs in which one is: `Delete` is refused at once, or fails after the path
  has been removed a second time.
-/

namespace Rtp.Leader.Reporter

/-! ## What is carried, and what is asked for -/

/-- The removals that something still carries: the map, the thread, or a `Delete` that has been
accepted. -/
def State.carried (s : State) : List ((_ : String) × Removal) :=
  s.nodePathToRemove.entries ++ s.phase.pathsToRemove ++ s.callbacks.map (·.1)

/-- What the callers have asked for: the paths that have been removed, have not been added since
and of which no `Delete` has been confirmed since; and the promises behind the futures that have
been handed out. -/
structure Asked where
  owed : List String
  futures : List ℕ
  deriving DecidableEq, Repr

namespace Asked

/-- A call of `RemovePath` returns.  One with a future that has found no path asks for nothing;
one whose path was added between its sections has been overtaken. -/
def put (call : Call) (s : State) (q : Asked) : Asked where
  owed := if (call.exist || !call.removeFuture) && decide (s.Current call.path call.since) then
      call.path :: q.owed
    else q.owed
  futures := (s.putRemoval call).2.toList ++ q.futures

/-- What is asked for after an action. -/
def record (msg : HeartbeatMessage) (a : Action) (s : State) (q : Asked) : Asked :=
  match a with
  | .addPathToReport p => { q with owed := q.owed.filter (· ≠ nodePath msg p) }
  | .putRemoval i =>
    match s.calls[i]? with
    | some call => q.put call { s with calls := s.calls.eraseIdx i }
    | none => q
  | .callback i =>
    match s.callbacks[i]? with
    | some (remove, true) => { q with owed := q.owed.filter (· ≠ remove.1) }
    | _ => q
  | _ => q

end Asked

/-- The system, with the record. -/
def nextAsked (msg : HeartbeatMessage) (a : Action) (x : State × Asked) : Option (State × Asked) :=
  (next msg a x.1).map fun s => (s, x.2.record msg a x.1)

/-- A `Delete` is refused at once only for a removal nobody waits for, whose path has been added
or removed again; and one fails only if nobody waits for it, or there is no other removal of its
path. -/
def Heeded (x : State × Asked) : Action → Prop
  | .deleteUnsent => ∀ remove ∈ x.1.phase.pathsToRemove.head?, remove.2.promise = none ∧
      (remove.1 ∈ x.1.nodePathMap ∨ remove.1 ∈ x.1.nodePathToRemove)
  | .callback i => ∀ c ∈ x.1.callbacks[i]?, c.2 = false →
      c.1.2.promise = none ∨ c.1.1 ∉ x.1.nodePathToRemove
  | _ => True

instance (x : State × Asked) : (a : Action) → Decidable (Heeded x a)
  | .deleteUnsent => inferInstanceAs (Decidable (∀ remove ∈ x.1.phase.pathsToRemove.head?, _))
  | .callback i => inferInstanceAs (Decidable (∀ c ∈ x.1.callbacks[i]?, _))
  | .addPathToReport _ | .erasePath .. | .putRemoval _ | .copy | .swap | .delete _ | .report
  | .request _ | .getState _ | .sleep | .session _ | .expire _ => isTrue trivial

/-! ## Handing removals on -/

/-- Among some removals there is one of the same path with the same promise, if there is one. -/
def Serves (l : List ((_ : String) × Removal)) (e : (_ : String) × Removal) : Prop :=
  ∃ e' ∈ l, e'.1 = e.1 ∧ (e.2.promise = none ∨ e'.2.promise = e.2.promise)

variable {e remove : (_ : String) × Removal} {i : ℕ}

theorem serves_of_mem {l : List ((_ : String) × Removal)} (h : e ∈ l) :
    Serves l e := ⟨e, h, rfl, .inr rfl⟩

theorem Serves.mono {l l' : List ((_ : String) × Removal)} (h : Serves l e) (hl : l ⊆ l') :
    Serves l' e := by
  obtain ⟨e', he', h⟩ := h
  exact ⟨e', hl he', h⟩

theorem mem_entries_insert_self {m : PathMap Removal} (path : String) (r : Removal) :
    ⟨path, r⟩ ∈ (m.insert path r).entries :=
  AList.mem_lookup_iff.1 (AList.lookup_insert m)

/-- A new removal of a path serves the one it replaces if it has its promise. -/
theorem serves_insert {m : PathMap Removal} {path : String} {r : Removal}
    (h : ∀ r' ∈ m.lookup path, r'.promise = none ∨ r.promise = r'.promise) (he : e ∈ m.entries) :
    Serves (m.insert path r).entries e := by
  have hl := AList.mem_lookup_iff.2 he
  by_cases hp : e.1 = path
  · subst hp
    exact ⟨_, mem_entries_insert_self e.1 r, rfl, h e.2 hl⟩
  · refine serves_of_mem (AList.mem_lookup_iff.1 ?_)
    rwa [AList.lookup_insert_ne hp]

namespace State

theorem mem_carried {s : State} : e ∈ s.carried ↔
    e ∈ s.nodePathToRemove.entries ∨ e ∈ s.phase.pathsToRemove ∨ e ∈ s.callbacks.map (·.1) := by
  rw [carried, List.mem_append, List.mem_append, or_assoc]

/-- What is carried on the map is carried on while the map serves it; the rest stays. -/
theorem serves_of_toRemove {s s' : State} (hphase : s'.phase = s.phase)
    (hcallbacks : s'.callbacks = s.callbacks)
    (htoRemove : ∀ e ∈ s.nodePathToRemove.entries, Serves s'.nodePathToRemove.entries e) :
    ∀ e ∈ s.carried, Serves s'.carried e := by
  intro e he
  rcases mem_carried.1 he with he | he
  · exact (htoRemove e he).mono fun e he => mem_carried.2 (.inl he)
  · refine serves_of_mem (mem_carried.2 (.inr ?_))
    rwa [hphase, hcallbacks]

/-! ## The invariant -/

/-- The invariant: a call between its sections has its path out of the map; what is owed is
carried and out of the map; the promises that are carried are there, and those behind the
futures are set or carried. -/
structure Kept (s : State) (q : Asked) : Prop where
  calls : ∀ c ∈ s.calls, s.Out c.path c.since
  out : ∀ p ∈ q.owed, p ∉ s.nodePathMap
  owed : ∀ p ∈ q.owed, ∃ e ∈ s.carried, e.1 = p
  bound : ∀ e ∈ s.carried, ∀ i ∈ e.2.promise, i < s.promises.length
  futures : ∀ i ∈ q.futures, s.promises[i]? = some true ∨ ∃ e ∈ s.carried, e.2.promise = some i

variable {s s' : State} {q : Asked}

theorem Kept.owed_of_serves (h : s.Kept q) {p : String} (hp : p ∈ q.owed)
    (hserves : ∀ e ∈ s.carried, e.1 = p → Serves s'.carried e) : ∃ e ∈ s'.carried, e.1 = p := by
  obtain ⟨e, he, rfl⟩ := h.owed p hp
  obtain ⟨e', he', hpath, -⟩ := hserves e he rfl
  exact ⟨e', he', hpath⟩

theorem Kept.futures_of_serves (h : s.Kept q) (hi : i ∈ q.futures)
    (hset : s.promises[i]? = some true → s'.promises[i]? = some true)
    (hserves : ∀ e ∈ s.carried, e.2.promise = some i →
      s'.promises[i]? = some true ∨ Serves s'.carried e) :
    s'.promises[i]? = some true ∨ ∃ e ∈ s'.carried, e.2.promise = some i := by
  rcases h.futures i hi with hi | ⟨e, he, hi⟩
  · exact .inl (hset hi)
  · refine (hserves e he hi).imp_right ?_
    rintro ⟨e', he', -, hpromise⟩
    rw [hi] at hpromise
    exact ⟨e', he', hpromise.resolve_left (by simp)⟩

/-- A step after which all that was carried is carried on, and nobody has asked for more. -/
theorem Kept.of_serves (h : s.Kept q) (hcalls : ∀ c ∈ s'.calls, s'.Out c.path c.since)
    (hmap : ∀ p ∈ s'.nodePathMap, p ∈ s.nodePathMap) (hpromises : s'.promises = s.promises)
    (hnew : ∀ e ∈ s'.carried, e ∈ s.carried ∨ ∃ e₀ ∈ s.carried, e.2.promise = e₀.2.promise)
    (hserves : ∀ e ∈ s.carried, Serves s'.carried e) : s'.Kept q where
  calls := hcalls
  out p hp hmem := h.out p hp (hmap p hmem)
  owed p hp := h.owed_of_serves hp fun e he _ => hserves e he
  bound e he i hi := by
    rw [hpromises]
    rcases hnew e he with he | ⟨e₀, he₀, heq⟩
    · exact h.bound e he i hi
    · exact h.bound e₀ he₀ i (heq ▸ hi)
  futures i hi := h.futures_of_serves hi (hpromises ▸ id) fun e he _ => .inr (hserves e he)

/-! ### The calls -/

theorem Kept.addPathToReport (h : s.Kept q) (path : String)
    (hcalls : ∀ c ∈ (s.addPathToReport path).calls, (s.addPathToReport path).Out c.path c.since) :
    (s.addPathToReport path).Kept { q with owed := q.owed.filter (· ≠ path) } := by
  obtain ⟨map, flags, heq, hmap⟩ := addPathToReport_eq path s
  rw [heq] at hcalls ⊢
  have howed : ∀ p ∈ q.owed.filter (· ≠ path), p ∈ q.owed ∧ p ≠ path := by
    intro p hp
    simpa using hp
  exact {
    calls := hcalls
    out := fun p hp hmem => (hmap p hmem).elim (howed p hp).2 (h.out p (howed p hp).1)
    owed := fun p hp => h.owed p (howed p hp).1
    bound := h.bound
    futures := h.futures }

/-- What the second section of `RemovePath` makes of the removals and the promises: `s` before
it, `s'` after it, and the future the caller gets. -/
structure Puts (call : Call) (s s' : State) (f : Option ℕ) : Prop where
  serves : ∀ e ∈ s.nodePathToRemove.entries, Serves s'.nodePathToRemove.entries e
  owed : call.exist = true ∨ call.removeFuture = false →
    ∃ e ∈ s'.nodePathToRemove.entries, e.1 = call.path
  future : ∀ i ∈ f, ∃ e ∈ s'.nodePathToRemove.entries, e.2.promise = some i
  bound : ∀ e ∈ s'.nodePathToRemove.entries, ∀ i ∈ e.2.promise, i < s'.promises.length ∨
    ∃ e₀ ∈ s.nodePathToRemove.entries, e₀.2.promise = some i
  promises : s.promises <+: s'.promises

/-- The removal of the call comes into the map, with a promise that the caller gets. -/
theorem puts_insert {call : Call} {r : Removal} {f : Option ℕ} {promises : List Bool}
    (h : ∀ r' ∈ s.nodePathToRemove.lookup call.path, r'.promise = none ∨ r.promise = r'.promise)
    (hf : ∀ i ∈ f, r.promise = some i)
    (hr : ∀ i ∈ r.promise, i < promises.length ∨
      ∃ e₀ ∈ s.nodePathToRemove.entries, e₀.2.promise = some i)
    (hpromises : s.promises <+: promises) :
    Puts call s { s with
      nodePathToRemove := s.nodePathToRemove.insert call.path r, promises := promises } f where
  serves _ he := serves_insert h he
  owed _ := ⟨_, mem_entries_insert_self call.path r, rfl⟩
  future i hi := ⟨_, mem_entries_insert_self call.path r, hf i hi⟩
  bound e he i hi := by
    rcases mem_entries_insert he with rfl | he
    · exact hr i hi
    · exact .inr ⟨e, he, hi⟩
  promises := hpromises

theorem puts_putRemoval (call : Call) (s : State) :
    Puts call s (s.putRemoval call).1 (s.putRemoval call).2 := by
  cases hl : s.nodePathToRemove.lookup call.path with
  | none =>
    have hnone : ∀ {r : Removal}, ∀ r' ∈ s.nodePathToRemove.lookup call.path,
        r'.promise = none ∨ r.promise = r'.promise := by
      intro r r' hr'
      rw [hl] at hr'
      simp at hr'
    rw [putRemoval_of_none hl]
    split
    next hfuture =>
      split
      · refine puts_insert hnone (fun i hi => hi) (fun i hi => .inl ?_) (List.prefix_append _ _)
        rw [← Option.some.inj hi]
        simp
      next hexist =>
        -- there is no path, so that the caller gets no future
        exact {
          serves := fun e he => serves_of_mem he
          owed := fun h => absurd h (by simp [hfuture, hexist])
          future := fun i hi => absurd hi (by simp)
          bound := fun e he i hi => .inr ⟨e, he, hi⟩
          promises := List.prefix_rfl }
    · exact puts_insert hnone (fun i hi => absurd hi (by simp)) (fun i hi => absurd hi (by simp))
        List.prefix_rfl
  | some r =>
    have hr : ∀ {p : Option ℕ} {since : ℕ}, r.promise = none ∨ p = r.promise →
        ∀ r' ∈ s.nodePathToRemove.lookup call.path,
          r'.promise = none ∨ (⟨p, since⟩ : Removal).promise = r'.promise := by
      intro p since h r' hr'
      rw [hl, Option.mem_some_iff] at hr'
      exact hr' ▸ h
    rw [putRemoval_of_some hl]
    split
    next hnew =>
      have hnone : r.promise = none := by
        simp only [Bool.and_eq_true, Option.isNone_iff_eq_none] at hnew
        exact hnew.2
      refine puts_insert (hr (.inl hnone)) (fun i hi => hi) (fun i hi => .inl ?_)
        (List.prefix_append _ _)
      rw [← Option.some.inj hi]
      simp
    · refine puts_insert (hr (.inr rfl)) (fun i hi => ?_) (fun i hi => .inr ?_) List.prefix_rfl
      · split at hi
        · exact hi
        · simp at hi
      · exact ⟨⟨call.path, r⟩, AList.mem_lookup_iff.1 hl, hi⟩

/-- A call of `RemovePath` returns; `s` is the state without the call. -/
theorem Kept.putRemoval (h : s.Kept q) {call : Call} (hcall : s.Out call.path call.since)
    (hcalls : ∀ c ∈ (s.putRemoval call).1.calls, (s.putRemoval call).1.Out c.path c.since) :
    (s.putRemoval call).1.Kept (q.put call s) := by
  have hputs := puts_putRemoval call s
  obtain ⟨toRemove, promises, heq⟩ := putRemoval_eq s call
  generalize hf : (s.putRemoval call).2 = f at hputs
  generalize (s.putRemoval call).1 = s' at heq hcalls hputs ⊢
  have hserves : ∀ e ∈ s.carried, Serves s'.carried e :=
    serves_of_toRemove (by rw [heq]) (by rw [heq]) hputs.serves
  have hlength := hputs.promises.length_le
  have hcarried : ∀ e ∈ s'.nodePathToRemove.entries, e ∈ s'.carried := fun e he =>
    mem_carried.2 (.inl he)
  -- what the call itself asks for is in the map
  have howed : ∀ p ∈ (q.put call s).owed, p ∈ q.owed ∨ p ∉ s'.nodePathMap ∧
      ∃ e ∈ s'.carried, e.1 = p := by
    intro p hp
    unfold Asked.put at hp
    simp only at hp
    split at hp
    next hasks =>
      simp only [Bool.and_eq_true, Bool.or_eq_true, Bool.not_eq_true', decide_eq_true_eq] at hasks
      rcases List.mem_cons.1 hp with rfl | hp
      · obtain ⟨e, he, hpath⟩ := hputs.owed hasks.1
        refine .inr ⟨?_, e, hcarried e he, hpath⟩
        rw [heq]
        exact hcall.map hasks.2
      · exact .inl hp
    · exact .inl hp
  exact {
    calls := hcalls
    out := fun p hp => by
      rcases howed p hp with hp | hp
      · rw [heq]
        exact h.out p hp
      · exact hp.1
    owed := fun p hp => by
      rcases howed p hp with hp | hp
      · exact h.owed_of_serves hp fun e he _ => hserves e he
      · exact hp.2
    bound := fun e he i hi => by
      have hold : ∀ e ∈ s.carried, e.2.promise = some i → i < s'.promises.length :=
        fun e he hi => (h.bound e he i hi).trans_le hlength
      rcases mem_carried.1 he with he | he
      · rcases hputs.bound e he i hi with hi | ⟨e₀, he₀, hi⟩
        · exact hi
        · exact hold e₀ (mem_carried.2 (.inl he₀)) hi
      · refine hold e (mem_carried.2 (.inr ?_)) hi
        rw [heq] at he
        exact he
    futures := fun i hi => by
      rcases List.mem_append.1 hi with hi | hi
      · obtain ⟨e, he, hi⟩ := hputs.future i (hf ▸ Option.mem_toList.1 hi)
        exact .inr ⟨e, hcarried e he, hi⟩
      · refine h.futures_of_serves hi (fun hset => ?_) fun e he _ => .inr (hserves e he)
        obtain ⟨l, hl⟩ := hputs.promises
        rwa [← hl, List.getElem?_append_left (List.getElem?_eq_some_iff.1 hset).1] }

/-! ### The callbacks -/

theorem mem_carried_eraseIdx {ok : Bool} (hi : s.callbacks[i]? = some (remove, ok))
    (he : e ∈ s.carried) :
    e = remove ∨ e ∈ ({ s with callbacks := s.callbacks.eraseIdx i } : State).carried := by
  rcases mem_carried.1 he with he | he | he
  · exact .inr (mem_carried.2 (.inl he))
  · exact .inr (mem_carried.2 (.inr (.inl he)))
  · obtain ⟨c, hc, rfl⟩ := List.mem_map.1 he
    obtain ⟨j, hj⟩ := List.getElem?_of_mem hc
    by_cases hij : j = i
    · subst hij
      rw [hi, Option.some.injEq] at hj
      exact .inl (hj ▸ rfl)
    · have hmem := List.mem_eraseIdx_iff_getElem?.2 ⟨j, hij, hj⟩
      exact .inr (mem_carried.2 (.inr (.inr (List.mem_map_of_mem hmem))))

theorem mem_carried_of_eraseIdx
    (he : e ∈ ({ s with callbacks := s.callbacks.eraseIdx i } : State).carried) :
    e ∈ s.carried := by
  rcases mem_carried.1 he with he | he | he
  · exact mem_carried.2 (.inl he)
  · exact mem_carried.2 (.inr (.inl he))
  · exact mem_carried.2 (.inr (.inr (((List.eraseIdx_sublist _ _).map _).subset he)))

theorem callback_promises_of_none (h : remove.2.promise = none) :
    (s.callback remove true).promises = s.promises := by
  simp [State.callback, h]

theorem callback_promises_of_some (h : remove.2.promise = some i) :
    (s.callback remove true).promises = s.promises.set i true := by
  simp [State.callback, h]

/-- A confirmed removal fulfils its promise, and no promise is taken back. -/
theorem getElem?_callback_promises
    (h : s.promises[i]? = some true ∨ remove.2.promise = some i ∧ i < s.promises.length) :
    (s.callback remove true).promises[i]? = some true := by
  cases hp : remove.2.promise with
  | none =>
    rw [callback_promises_of_none hp]
    exact h.resolve_right fun h => absurd (hp.symm.trans h.1) (by simp)
  | some p =>
    have hlt : i < s.promises.length :=
      h.elim (fun h => (List.getElem?_eq_some_iff.1 h).1) And.right
    rw [callback_promises_of_some hp]
    by_cases hpi : p = i
    · rw [hpi, List.getElem?_set_self hlt]
    · rw [List.getElem?_set_ne hpi]
      exact h.resolve_right fun h => hpi (Option.some.inj (hp.symm.trans h.1))

theorem length_callback_promises (remove : (_ : String) × Removal) :
    (s.callback remove true).promises.length = s.promises.length := by
  cases hp : remove.2.promise with
  | none => rw [callback_promises_of_none hp]
  | some p => rw [callback_promises_of_some hp, List.length_set]

/-- A `Delete` is confirmed: its path is no longer owed, and its promise is set. -/
theorem Kept.confirmed (h : s.Kept q)
    (hi : s.callbacks[i]? = some (remove, true))
    (hcalls : ∀ c ∈ ({ s with callbacks := s.callbacks.eraseIdx i }.callback remove true).calls,
      ({ s with callbacks := s.callbacks.eraseIdx i }.callback remove true).Out c.path c.since) :
    ({ s with callbacks := s.callbacks.eraseIdx i }.callback remove true).Kept
      { q with owed := q.owed.filter (· ≠ remove.1) } := by
  have howed : ∀ p ∈ q.owed.filter (· ≠ remove.1), p ∈ q.owed ∧ p ≠ remove.1 := by
    intro p hp
    simpa using hp
  exact {
    calls := hcalls
    out := fun p hp => h.out p (howed p hp).1
    owed := fun p hp => by
      refine h.owed_of_serves (howed p hp).1 fun e he hpath => serves_of_mem ?_
      refine (mem_carried_eraseIdx hi he).resolve_left ?_
      rintro rfl
      exact (howed p hp).2 hpath.symm
    bound := fun e he j hj => by
      rw [length_callback_promises]
      exact h.bound e (mem_carried_of_eraseIdx he) j hj
    futures := fun j hj => by
      refine h.futures_of_serves hj (fun hset => getElem?_callback_promises (.inl hset))
        fun e he hpromise => ?_
      rcases mem_carried_eraseIdx hi he with rfl | he'
      · exact .inl (getElem?_callback_promises (.inr ⟨hpromise, h.bound e he j hpromise⟩))
      · exact .inr (serves_of_mem he') }

/-- A `Delete` has failed: its removal goes back into the map. -/
theorem Kept.failed (h : s.Kept q)
    (hi : s.callbacks[i]? = some (remove, false))
    (hheed : remove.2.promise = none ∨ remove.1 ∉ s.nodePathToRemove)
    (hcalls : ∀ c ∈ ({ s with callbacks := s.callbacks.eraseIdx i }.callback remove false).calls,
      ({ s with callbacks := s.callbacks.eraseIdx i }.callback remove false).Out c.path c.since) :
    ({ s with callbacks := s.callbacks.eraseIdx i }.callback remove false).Kept q := by
  -- the removal that is in the map after the callback, `r`
  obtain ⟨r, hr, hpromise, hold⟩ : ∃ r : Removal,
      ({ s with callbacks := s.callbacks.eraseIdx i }.callback remove false).nodePathToRemove =
        s.nodePathToRemove.insert remove.1 r ∧
      (remove.2.promise = none ∨ r.promise = remove.2.promise) ∧
      ((∀ r' ∈ s.nodePathToRemove.lookup remove.1, r'.promise = none ∨ r.promise = r'.promise) ∧
        ∃ e₀ ∈ s.carried, r.promise = e₀.2.promise) := by
    cases hl : s.nodePathToRemove.lookup remove.1 with
    | none =>
      refine ⟨remove.2, ?_, .inr rfl, fun r' hr' => absurd hr' (by simp), remove, ?_, rfl⟩
      · simp [State.callback, hl]
      · exact mem_carried.2 (.inr (.inr (List.mem_map_of_mem (List.mem_of_getElem? hi))))
    | some r =>
      have hmem : remove.1 ∈ s.nodePathToRemove :=
        AList.lookup_isSome.1 (by rw [hl]; rfl)
      refine ⟨⟨r.promise, max r.since remove.2.since⟩, ?_,
        .inl (hheed.resolve_right (not_not_intro hmem)), fun r' hr' => ?_, ⟨remove.1, r⟩, ?_, rfl⟩
      · simp [State.callback, hl]
      · rw [Option.mem_some_iff.1 hr']
        exact .inr rfl
      · exact mem_carried.2 (.inl (AList.mem_lookup_iff.1 hl))
  refine h.of_serves hcalls (fun _ => id) rfl (fun e he => ?_) (fun e he => ?_)
  · rcases mem_carried.1 he with he | he
    · rw [hr] at he
      rcases mem_entries_insert he with rfl | he
      · exact .inr hold.2
      · exact .inl (mem_carried.2 (.inl he))
    · exact .inl (mem_carried_of_eraseIdx (mem_carried.2 (.inr he)))
  · rcases mem_carried_eraseIdx hi he with rfl | he
    · refine ⟨⟨e.1, r⟩, mem_carried.2 (.inl ?_), rfl, hpromise⟩
      rw [hr]
      exact mem_entries_insert_self e.1 r
    · refine @serves_of_toRemove { s with callbacks := s.callbacks.eraseIdx i }
        ({ s with callbacks := s.callbacks.eraseIdx i }.callback remove false) rfl rfl
        (fun e he => ?_) e he
      rw [hr]
      exact serves_insert hold.1 he

/-! ### Every action -/

/-- A step that moves removals from one place to another. -/
theorem Kept.of_carried (h : s.Kept q) (hcalls : ∀ c ∈ s'.calls, s'.Out c.path c.since)
    (hmap : ∀ p ∈ s'.nodePathMap, p ∈ s.nodePathMap) (hpromises : s'.promises = s.promises)
    (hcarried : ∀ e, e ∈ s'.carried ↔ e ∈ s.carried) : s'.Kept q :=
  h.of_serves hcalls hmap hpromises (fun e he => .inl ((hcarried e).1 he))
    fun e he => serves_of_mem ((hcarried e).2 he)

/-- A `Delete` is refused at once. -/
theorem Kept.deleteUnsent (h : s.Kept q) {pathMap : List ((_ : String) × ℕ)}
    {rest : List ((_ : String) × Removal)}
    (hphase : s.phase = .removing pathMap (remove :: rest)) (hpromise : remove.2.promise = none)
    (hpath : remove.1 ∈ s.nodePathMap ∨ remove.1 ∈ s.nodePathToRemove)
    (hcalls : ∀ c ∈ s.calls, Out { s with phase := .removing pathMap rest } c.path c.since) :
    Kept { s with phase := .removing pathMap rest } q := by
  have hrest : ∀ e ∈ s.carried, e = remove ∨
      e ∈ ({ s with phase := .removing pathMap rest } : State).carried := by
    intro e he
    rcases mem_carried.1 he with he | he | he
    · exact .inr (mem_carried.2 (.inl he))
    · rw [hphase] at he
      exact (List.mem_cons.1 he).imp_right fun he => mem_carried.2 (.inr (.inl he))
    · exact .inr (mem_carried.2 (.inr (.inr he)))
  have hback : ∀ e ∈ ({ s with phase := .removing pathMap rest } : State).carried,
      e ∈ s.carried := by
    intro e he
    rcases mem_carried.1 he with he | he | he
    · exact mem_carried.2 (.inl he)
    · refine mem_carried.2 (.inr (.inl ?_))
      rw [hphase]
      exact List.mem_cons_of_mem _ he
    · exact mem_carried.2 (.inr (.inr he))
  exact {
    calls := hcalls
    out := h.out
    owed := fun p hp => by
      obtain ⟨e, he, rfl⟩ := h.owed p hp
      rcases hrest e he with rfl | he
      · -- the path is owed, so that it is not in the map of those to report
        have hmem := hpath.resolve_left (h.out e.1 hp)
        obtain ⟨r, hr⟩ := Option.isSome_iff_exists.1 (AList.lookup_isSome.2 hmem)
        exact ⟨⟨e.1, r⟩, mem_carried.2 (.inl (AList.mem_lookup_iff.1 hr)), rfl⟩
      · exact ⟨e, he, rfl⟩
    bound := fun e he => h.bound e (hback e he)
    futures := fun i hi => by
      refine h.futures_of_serves hi id fun e he hpromise' => .inr ?_
      rcases hrest e he with rfl | he
      · exact absurd (hpromise.symm.trans hpromise') (by simp)
      · exact serves_of_mem he }

theorem Kept.reports (h : s.Kept q) {stage : Stage} {pathMap : List ((_ : String) × ℕ)}
    {path : String} (hphase : s.phase = .reporting stage pathMap) (hr : Reports pathMap path s s')
    (hcalls : ∀ c ∈ s'.calls, s'.Out c.path c.since) : s'.Kept q := by
  obtain ⟨stage', rest, hphase', -⟩ := hr.phase
  refine h.of_carried hcalls (fun _ => hr.map ▸ id) hr.promises fun e => ?_
  rw [mem_carried, mem_carried, hphase, hphase', hr.toRemove, hr.callbacks]
  exact Iff.rfl

/-- **Every action keeps the invariant**, under the condition. -/
theorem Kept.next {msg : HeartbeatMessage} {a : Action} (h : s.Kept q) (hheed : Heeded (s, q) a)
    (hnext : next msg a s = some s') : s'.Kept (q.record msg a s) := by
  have hcalls : ∀ c ∈ s'.calls, s'.Out c.path c.since := by
    intro c hc
    rcases (steps_of_next hnext).calls c hc with hc | hout
    · exact (steps_of_next hnext).keeps.out (h.calls c hc)
    · exact hout
  cases steps_of_next hnext with
  | addPathToReport p => exact h.addPathToReport _ hcalls
  | @putRemoval i call hi =>
    have hk : Keeps s { s with calls := s.calls.eraseIdx i } := keeps_of_eq rfl rfl rfl rfl
    have hwithout : Kept { s with calls := s.calls.eraseIdx i } q :=
      { h with calls := fun c hc => hk.out (h.calls c (List.mem_of_mem_eraseIdx hc)) }
    simp only [Asked.record, hi]
    exact hwithout.putRemoval (hk.out (h.calls call (List.mem_of_getElem? hi))) hcalls
  | @callback i remove ok hi =>
    simp only [Asked.record, hi]
    cases ok with
    | true => exact h.confirmed hi hcalls
    | false => exact h.failed hi (hheed _ hi rfl) hcalls
  | deleteUnsent hphase =>
    obtain ⟨hpromise, hpath⟩ := hheed _ (by rw [hphase]; rfl)
    exact h.deleteUnsent hphase hpromise hpath hcalls
  | erasePath p removeFuture =>
    exact h.of_carried hcalls (fun p hp => (AList.mem_erase.1 hp).2) rfl fun _ => Iff.rfl
  | copy hphase | report hphase | sleep hphase =>
    refine h.of_carried hcalls (fun _ => id) rfl fun e => ?_
    rw [mem_carried, mem_carried, hphase]
    exact Iff.rfl
  | swap hphase =>
    refine h.of_carried hcalls (fun _ => id) rfl fun e => ?_
    rw [mem_carried, mem_carried, hphase]
    simp [Phase.pathsToRemove, mem_inOrder]
  | @delete pathMap remove rest hphase reply =>
    obtain ⟨nodes, heq⟩ := delete_eq s reply remove pathMap rest
    rw [heq] at hcalls ⊢
    refine h.of_carried hcalls (fun _ => id) rfl fun e => ?_
    rw [mem_carried, mem_carried, hphase]
    simp only [Phase.pathsToRemove, List.map_append, List.mem_append, List.map_cons, List.map_nil,
      List.mem_cons, List.not_mem_nil, or_false]
    tauto
  | request hphase _ hr | getState hphase _ hr => exact h.reports hphase hr hcalls
  | session _ | expire _ => exact h.of_carried hcalls (fun _ => id) rfl fun _ => Iff.rfl

end State

/-! ## Every run -/

/-- **No removal is lost**: in every state of every run whose steps meet the condition, a path
that was removed and has not been added since is in `node_path_to_remove_`, in the hands of the
thread or in an accepted `Delete`, until a `Delete` of it is confirmed; and the promise behind
every future that was handed out is set, or one of these still has it. -/
theorem removal_kept (msg : HeartbeatMessage) (nodes : PathMap ℕ) (session : ℕ) {x : State × Asked}
    (h : Reach (nextAsked msg) Heeded (.init nodes session, ⟨[], []⟩) x) :
    (∀ p ∈ x.2.owed, ∃ e ∈ x.1.carried, e.1 = p) ∧
    ∀ i ∈ x.2.futures,
      x.1.promises[i]? = some true ∨ ∃ e ∈ x.1.carried, e.2.promise = some i := by
  have hkept : x.1.Kept x.2 := by
    refine h.invariant (I := fun x => x.1.Kept x.2) ?_ fun x a x' hx hheed hnext => ?_
    · exact ⟨by simp [State.init], by simp, by simp, by
        simp [State.carried, State.init, Phase.pathsToRemove], by simp⟩
    · obtain ⟨s', hs', rfl⟩ := Option.map_eq_some_iff.1 hnext
      exact hx.next hheed hs'
  exact ⟨hkept.owed, hkept.futures⟩

/-- `/a` is removed with a future, and its `Delete` fails and is sent again; `/b` is removed
without one. -/
theorem removal_kept_run : ∃ x,
    Reach (nextAsked host) Heeded (.init ∅ 7, ⟨[], []⟩) x ∧
    x.2 = ⟨["/b/10.0.0.1:80", "/a/10.0.0.1:80"], [0]⟩ ∧ x.1.promises = [false] ∧
    (∃ e ∈ x.1.carried, e.1 = "/a/10.0.0.1:80") ∧
    (x.1.promises[0]? = some true ∨ ∃ e ∈ x.1.carried, e.2.promise = some 0) := by
  obtain ⟨x, hx, hseen⟩ := exists_reach_of_follow (nextAsked host) Heeded
    [.addPathToReport "/a", .addPathToReport "/b", .erasePath "/a" true, .putRemoval 0, .copy,
      .swap, .delete (.failed false), .erasePath "/b" false, .putRemoval 0, .callback 0, .report,
      .request (.failed false), .getState .throws, .sleep, .copy, .swap, .delete .answered]
    (.init ∅ 7, ⟨[], []⟩)
    (fun x => decide (x.2 = ⟨["/b/10.0.0.1:80", "/a/10.0.0.1:80"], [0]⟩ ∧ x.1.promises = [false]))
    (by decide +kernel)
  obtain ⟨hasked, hpromises⟩ := of_decide_eq_true hseen
  have hkept := removal_kept host ∅ 7 hx
  refine ⟨x, hx, hasked, hpromises, hkept.1 _ ?_, hkept.2 _ ?_⟩
  · rw [hasked]
    simp
  · rw [hasked]
    simp

/-- **Removals that are lost.**  In the first run the `Delete` of `/a` is refused at once: the
reporter knows nothing of the path and of the promise any more.  In the second one every
`Delete` is accepted; while the first is in flight, `/a` is removed again without a future, so
that the callback of the failed `Delete` finds that removal in the map and drops its own, with
the promise. -/
theorem removal_lost :
    (∃ x, Reach (nextAsked host) (fun _ _ => True) (.init ∅ 7, ⟨[], []⟩) x ∧
      x.2 = ⟨["/a/10.0.0.1:80"], [0]⟩ ∧ x.1.confirmed = [] ∧ x.1.carried = [] ∧
      x.1.promises = [false] ∧ x.1.calls = [] ∧ x.1.phase = .start ∧
      "/a/10.0.0.1:80" ∈ x.1.nodes) ∧
    ∃ x, Reach (nextAsked host) (fun _ a => a ≠ .deleteUnsent) (.init ∅ 7, ⟨[], []⟩) x ∧
      0 ∈ x.2.futures ∧ x.1.promises = [false] ∧ (∀ e ∈ x.1.carried, e.2.promise = none) ∧
      x.1.calls = [] := by
  constructor
  · obtain ⟨x, hx, hseen⟩ := exists_reach_of_follow (nextAsked host) (fun _ _ => True)
      [.addPathToReport "/a", .copy, .swap, .report, .request .answered, .getState .connected,
        .request .answered, .request .answered, .sleep, .erasePath "/a" true, .putRemoval 0, .copy,
        .swap, .deleteUnsent, .report, .sleep]
      (.init ∅ 7, ⟨[], []⟩)
      (fun x => decide (x.2 = ⟨["/a/10.0.0.1:80"], [0]⟩ ∧ x.1.confirmed = [] ∧
        x.1.carried = [] ∧ x.1.promises = [false] ∧ x.1.calls = [] ∧ x.1.phase = .start ∧
        "/a/10.0.0.1:80" ∈ x.1.nodes))
      (by decide +kernel)
    exact ⟨x, hx, of_decide_eq_true hseen⟩
  · obtain ⟨x, hx, hseen⟩ := exists_reach_of_follow (nextAsked host) (fun _ a => a ≠ .deleteUnsent)
      [.addPathToReport "/a", .erasePath "/a" true, .putRemoval 0, .copy, .swap,
        .delete (.failed false), .erasePath "/a" false, .putRemoval 0, .callback 0]
      (.init ∅ 7, ⟨[], []⟩)
      (fun x => decide (0 ∈ x.2.futures ∧ x.1.promises = [false] ∧
        (∀ e ∈ x.1.carried, e.2.promise = none) ∧ x.1.calls = []))
      (by decide +kernel)
    exact ⟨x, hx, of_decide_eq_true hseen⟩

end Rtp.Leader.Reporter
