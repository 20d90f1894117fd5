import Rtp.Leader.HeartbeatReporter

/-!
# Confirmed removals

What becomes of a path that is removed from the heartbeat reporter: whether its node is gone
for good once its `Delete` has been answered.

* `State.Out`, `State.Sent`, `State.Gone` — what is known of a removal on its way from
  `RemovePath` to the answer of its `Delete`; `State.Inv` — where each removal stands.
* `State.Keeps` — no step takes back what is known of a removal.
* `confirmed_gone` — **a removal that was confirmed stays in force**: there is no node, in
  every run in which the thread takes its paths to remove undisturbed.
* `confirmed_recreated` — without the condition the node can be created again, and stay.
-/

namespace Rtp.Leader.Reporter

/-! ## The invariant -/

namespace State

/-- A removal that `RemovePath` has begun: the path is not in the map. -/
structure Out (s : State) (path : String) (since : ℕ) : Prop where
  le : since ≤ s.added.count path
  map : s.Current path since → path ∉ s.nodePathMap

/-- A removal that the thread has taken: the thread will not report the path, either. -/
structure Sent (s : State) (path : String) (since : ℕ) : Prop extends Out s path since where
  paths : s.Current path since → path ∉ s.phase.paths

/-- A removal that was carried out: there is no node. -/
structure Gone (s : State) (path : String) (since : ℕ) : Prop extends Sent s path since where
  nodes : s.Current path since → path ∉ s.nodes

/-- Where each removal stands. -/
structure Inv (s : State) : Prop where
  calls : ∀ c ∈ s.calls, s.Out c.path c.since
  toRemove : ∀ e ∈ s.nodePathToRemove.entries, s.Out e.1 e.2.since
  taken : ∀ e ∈ s.phase.pathsToRemove, s.Sent e.1 e.2.since
  callbacks : ∀ c ∈ s.callbacks, s.Out c.1.1 c.1.2.since ∧
    (c.2 = true → s.Gone c.1.1 c.1.2.since)
  confirmed : ∀ r ∈ s.confirmed, s.Gone r.1 r.2

variable {s s' : State} {msg : HeartbeatMessage} {a : Action}

theorem inv_init (nodes : PathMap ℕ) (session : ℕ) : (init nodes session).Inv where
  calls c hc := absurd hc (by simp [init])
  toRemove e he := absurd he (by simp [init])
  taken e he := absurd he (by simp [init, Phase.pathsToRemove])
  callbacks c hc := absurd hc (by simp [init])
  confirmed r hr := absurd hr (by simp [init])

/-- What is known of a removal stays true. -/
structure Keeps (s s' : State) : Prop where
  out : ∀ {path since}, s.Out path since → s'.Out path since
  sent : ∀ {path since}, s.Sent path since → s'.Sent path since
  gone : ∀ {path since}, s.Gone path since → s'.Gone path since

/-- Without a call of `AddPathToReport`: the thread takes paths to report only from the map, and
creates nodes only for paths that it reports. -/
theorem keeps_of_subset (hadded : s'.added = s.added)
    (hmap : ∀ p ∈ s'.nodePathMap, p ∈ s.nodePathMap)
    (hpaths : ∀ p ∈ s'.phase.paths, p ∈ s.phase.paths ∨ p ∈ s.nodePathMap)
    (hnodes : ∀ p ∈ s'.nodes, p ∈ s.nodes ∨ p ∈ s.phase.paths) : Keeps s s' := by
  have hcur : ∀ {path since}, s'.Current path since → s.Current path since := by
    intro path since h
    rwa [Current, hadded] at h
  have hout : ∀ {path since}, s.Out path since → s'.Out path since := fun h =>
    ⟨hadded ▸ h.le, fun hc hp => h.map (hcur hc) (hmap _ hp)⟩
  have hsent : ∀ {path since}, s.Sent path since → s'.Sent path since := fun h =>
    ⟨hout h.toOut, fun hc hp => (hpaths _ hp).elim (h.paths (hcur hc)) (h.map (hcur hc))⟩
  exact ⟨hout, hsent, fun h =>
    ⟨hsent h.toSent, fun hc hp => (hnodes _ hp).elim (h.nodes (hcur hc)) (h.paths (hcur hc))⟩⟩

/-- A removal is kept by what leaves the map, the thread and ZooKeeper alone. -/
theorem keeps_of_eq (hadded : s'.added = s.added) (hmap : s'.nodePathMap = s.nodePathMap)
    (hphase : s'.phase.paths = s.phase.paths) (hnodes : s'.nodes = s.nodes) : Keeps s s' :=
  keeps_of_subset hadded (fun _ => hmap ▸ id) (fun _ h => .inl (hphase ▸ h))
    (fun _ h => .inl (hnodes ▸ h))

/-- The removals of a path that is added are no longer current. -/
theorem keeps_addPathToReport (path : String) (s : State) : Keeps s (s.addPathToReport path) := by
  obtain ⟨map, flags, heq, hmap⟩ := addPathToReport_eq path s
  rw [heq]
  -- a removal that is still current is one of another path
  have hcur : ∀ {p since}, since ≤ s.added.count p → since = (path :: s.added).count p →
      p ≠ path ∧ s.Current p since := by
    intro p since hsince h
    by_cases hp : p = path
    · subst hp
      rw [List.count_cons_self] at h
      omega
    · rw [List.count_cons_of_ne (Ne.symm hp)] at h
      exact ⟨hp, h⟩
  have hout : ∀ {p since}, s.Out p since → Out { s with
      added := path :: s.added, nodePathMap := map, flags := flags } p since := fun h =>
    ⟨h.le.trans List.count_le_count_cons, fun hc hp => by
      obtain ⟨hne, hc⟩ := hcur h.le hc
      exact (hmap _ hp).elim hne (h.map hc)⟩
  have hsent : ∀ {p since}, s.Sent p since → Sent { s with
      added := path :: s.added, nodePathMap := map, flags := flags } p since := fun h =>
    ⟨hout h.toOut, fun hc => h.paths (hcur h.le hc).2⟩
  exact ⟨hout, hsent, fun h => ⟨hsent h.toSent, fun hc => h.nodes (hcur h.le hc).2⟩⟩

/-- A step of `Report` creates no node but that of a path which the thread reports. -/
theorem keeps_reports {stage : Stage} {pair : (_ : String) × ℕ} {rest : List ((_ : String) × ℕ)}
    (hphase : s.phase = .reporting stage (pair :: rest)) (hr : Reports (pair :: rest) pair.1 s s') :
    Keeps s s' := by
  obtain ⟨stage', rest', hphase', hsub⟩ := hr.phase
  have hpaths : s.phase.paths = (pair :: rest).map (·.1) := by rw [hphase]; rfl
  have hpaths' : ∀ p ∈ s'.phase.paths, p ∈ s.phase.paths := by
    rw [hphase', hpaths]
    exact fun p hp => List.map_subset _ hsub hp
  refine keeps_of_subset hr.added (fun _ => hr.map ▸ id) (fun p hp => .inl (hpaths' p hp))
    (fun p hp => (hr.nodes p hp).imp_right ?_)
  rintro rfl
  rw [hpaths]
  exact List.mem_cons_self

/-- **Every step keeps the removals** in the state they have reached. -/
theorem Steps.keeps (h : Steps msg s a s') : Keeps s s' := by
  cases h with
  | addPathToReport p => exact keeps_addPathToReport _ s
  | erasePath p removeFuture =>
    exact keeps_of_subset rfl (fun p hp => (AList.mem_erase.1 hp).2) (fun _ => .inl)
      (fun _ => .inl)
  | @putRemoval i call hi =>
    obtain ⟨toRemove, promises, heq⟩ :=
      putRemoval_eq { s with calls := s.calls.eraseIdx i } call
    rw [heq]
    exact keeps_of_eq rfl rfl rfl rfl
  | @callback i remove ok hi =>
    cases ok with
    | true | false => exact keeps_of_eq rfl rfl rfl rfl
  | copy _ =>
    refine keeps_of_subset rfl (fun _ => id) (fun p hp => ?_) fun _ => .inl
    obtain ⟨e, he, rfl⟩ := List.mem_map.1 hp
    exact .inr (mem_of_mem_entries (mem_inOrder.1 he))
  | delete hphase reply =>
    have hpaths := congrArg Phase.paths hphase
    unfold State.delete
    cases reply.carriedOut with
    | true =>
      exact keeps_of_subset rfl (fun _ => id) (fun p hp => .inl (hpaths ▸ hp))
        (fun p hp => .inl (AList.mem_erase.1 hp).2)
    | false => exact keeps_of_eq rfl rfl hpaths.symm rfl
  | swap hphase | deleteUnsent hphase | report hphase | sleep hphase =>
    exact keeps_of_eq rfl rfl (by rw [hphase]; rfl) rfl
  | request hphase _ hr | getState hphase _ hr => exact keeps_reports hphase hr
  | session id => exact keeps_of_eq rfl rfl rfl rfl
  | expire path =>
    exact keeps_of_subset rfl (fun _ => id) (fun _ => .inl)
      fun p hp => .inl (AList.mem_erase.1 hp).2

/-- The path of a call of `RemovePath` is out of the map. -/
theorem Steps.calls (h : Steps msg s a s') :
    ∀ c ∈ s'.calls, c ∈ s.calls ∨ s'.Out c.path c.since := by
  intro c hc
  cases h with
  | addPathToReport p =>
    obtain ⟨map, flags, heq, -⟩ := addPathToReport_eq (nodePath msg p) s
    rw [heq] at hc
    exact .inl hc
  | erasePath p removeFuture =>
    rcases List.mem_append.1 hc with hc | hc
    · exact .inl hc
    · rw [List.mem_singleton.1 hc]
      exact .inr ⟨le_rfl, fun _ hp => (AList.mem_erase.1 hp).1 rfl⟩
  | @putRemoval i call hi =>
    obtain ⟨toRemove, promises, heq⟩ :=
      putRemoval_eq { s with calls := s.calls.eraseIdx i } call
    rw [heq] at hc
    exact .inl (List.mem_of_mem_eraseIdx hc)
  | @callback i remove ok hi =>
    cases ok with
    | true | false => exact .inl hc
  | delete hphase reply =>
    unfold State.delete at hc
    cases hreply : reply.carriedOut with
    | true | false =>
      rw [hreply] at hc
      exact .inl hc
  | request hphase _ hr | getState hphase _ hr => exact .inl (hr.calls ▸ hc)
  | copy _ | swap _ | deleteUnsent _ | report _ | sleep _ | session _ | expire _ => exact .inl hc

/-! ### The calls and the callbacks -/

variable {path : String}

theorem Out.max {a b : ℕ} (ha : s.Out path a) (hb : s.Out path b) : s.Out path (max a b) := by
  rcases Nat.le_total a b with h | h
  · rwa [Nat.max_eq_right h]
  · rwa [Nat.max_eq_left h]

/-- The removals of a map have all been begun. -/
def AllOut (s : State) (m : PathMap Removal) : Prop := ∀ e ∈ m.entries, s.Out e.1 e.2.since

theorem AllOut.insert {m : PathMap Removal} (h : s.AllOut m) {r : Removal}
    (hr : s.Out path r.since) : s.AllOut (m.insert path r) := by
  intro e he
  rcases mem_entries_insert he with rfl | he
  · exact hr
  · exact h e he

theorem AllOut.of_lookup {m : PathMap Removal} (h : s.AllOut m) {r : Removal}
    (hl : m.lookup path = some r) : s.Out path r.since :=
  h ⟨path, r⟩ (AList.mem_lookup_iff.1 hl)

/-- The second section of `RemovePath` puts the removal of its call into the map, or leaves the
map alone. -/
theorem AllOut.putRemoval {s t : State} (call : Call) (h : t.AllOut s.nodePathToRemove)
    (hcall : t.Out call.path call.since) : t.AllOut (s.putRemoval call).1.nodePathToRemove := by
  cases hl : s.nodePathToRemove.lookup call.path with
  | none =>
    rw [putRemoval_of_none hl]
    split
    · split
      · exact h.insert hcall
      · exact h
    · exact h.insert hcall
  | some r =>
    have hmax : t.Out call.path (max r.since call.since) := (h.of_lookup hl).max hcall
    rw [putRemoval_of_some hl]
    split
    · exact h.insert hmax
    · exact h.insert hmax

/-- A removal that failed goes back into the map. -/
theorem AllOut.callback {s t : State} {remove : (_ : String) × Removal}
    (h : t.AllOut s.nodePathToRemove) (hremove : t.Out remove.1 remove.2.since) :
    t.AllOut (s.callback remove false).nodePathToRemove := by
  refine AllOut.insert h ?_
  cases hl : s.nodePathToRemove.lookup remove.1 with
  | none => exact hremove
  | some r => exact (h.of_lookup hl).max hremove

/-! ### Every action -/

/-- A step keeps the invariant if what it makes of the removals that move on is known. -/
theorem Inv.of_keeps (h : s.Inv) (hk : Keeps s s')
    (hcalls : ∀ c ∈ s'.calls, c ∈ s.calls ∨ s'.Out c.path c.since)
    (htoRemove : ∀ e ∈ s'.nodePathToRemove.entries,
      e ∈ s.nodePathToRemove.entries ∨ s'.Out e.1 e.2.since)
    (htaken : ∀ e ∈ s'.phase.pathsToRemove, e ∈ s.phase.pathsToRemove ∨ s'.Sent e.1 e.2.since)
    (hcallbacks : ∀ c ∈ s'.callbacks, c ∈ s.callbacks ∨
      s'.Out c.1.1 c.1.2.since ∧ (c.2 = true → s'.Gone c.1.1 c.1.2.since))
    (hconfirmed : ∀ r ∈ s'.confirmed, r ∈ s.confirmed ∨ s'.Gone r.1 r.2) : s'.Inv where
  calls c hc := (hcalls c hc).elim (fun hc => hk.out (h.calls c hc)) id
  toRemove e he := (htoRemove e he).elim (fun he => hk.out (h.toRemove e he)) id
  taken e he := (htaken e he).elim (fun he => hk.sent (h.taken e he)) id
  callbacks c hc := (hcallbacks c hc).elim
    (fun hc => (h.callbacks c hc).imp hk.out fun hg hok => hk.gone (hg hok)) id
  confirmed r hr := (hconfirmed r hr).elim (fun hr => hk.gone (h.confirmed r hr)) id

theorem Inv.reports (h : s.Inv) (hk : Keeps s s') {pathMap : List ((_ : String) × ℕ)}
    (hr : Reports pathMap path s s') : s'.Inv := by
  obtain ⟨stage, rest, hphase, -⟩ := hr.phase
  refine h.of_keeps hk (fun _ hc => .inl (hr.calls ▸ hc)) (fun _ he => .inl (hr.toRemove ▸ he))
    (fun e he => ?_) (fun _ hc => .inl (hr.callbacks ▸ hc)) (fun _ hc => .inl (hr.confirmed ▸ hc))
  rw [hphase] at he
  cases he

/-- A `Delete` that was answered has taken the node away. -/
theorem gone_of_delete {remove : (_ : String) × Removal} {pathMap : List ((_ : String) × ℕ)}
    {rest : List ((_ : String) × Removal)} {reply : Reply}
    (hsent : (s.delete reply remove pathMap rest).Sent remove.1 remove.2.since)
    (hok : reply.ok = true) :
    (s.delete reply remove pathMap rest).Gone remove.1 remove.2.since := by
  cases reply with
  | answered => exact ⟨hsent, fun _ hp => (AList.mem_erase.1 hp).1 rfl⟩
  | failed _ => simp [Reply.ok] at hok

/-- **Every action keeps the invariant.**  The condition is what makes a removal that is taken
one the thread does not undo. -/
theorem Inv.next (h : s.Inv) (hund : Undisturbed s a) (hnext : next msg a s = some s') :
    s'.Inv := by
  have hk := (steps_of_next hnext).keeps
  have hcalls := (steps_of_next hnext).calls
  cases steps_of_next hnext with
  | addPathToReport p =>
    obtain ⟨map, flags, heq, -⟩ := addPathToReport_eq (nodePath msg p) s
    rw [heq] at hk hcalls ⊢
    exact h.of_keeps hk hcalls (fun _ => .inl) (fun _ => .inl) (fun _ => .inl) (fun _ => .inl)
  | @putRemoval i call hi =>
    have hall := AllOut.putRemoval (s := { s with calls := s.calls.eraseIdx i }) call h.toRemove
      (h.calls call (List.mem_of_getElem? hi))
    obtain ⟨toRemove, promises, heq⟩ :=
      putRemoval_eq { s with calls := s.calls.eraseIdx i } call
    rw [heq] at hk hcalls hall ⊢
    exact h.of_keeps hk hcalls (fun e he => .inr (hk.out (hall e he))) (fun _ => .inl)
      (fun _ => .inl) (fun _ => .inl)
  | @callback i remove ok hi =>
    obtain ⟨hout, hgone⟩ := h.callbacks _ (List.mem_of_getElem? hi)
    cases ok with
    | true =>
      refine h.of_keeps hk hcalls (fun _ => .inl) (fun _ => .inl)
        (fun c hc => .inl (List.mem_of_mem_eraseIdx hc)) (fun r hr => ?_)
      rcases List.mem_cons.1 hr with rfl | hr
      · exact .inr (hk.gone (hgone rfl))
      · exact .inl hr
    | false =>
      have hall := AllOut.callback (s := { s with callbacks := s.callbacks.eraseIdx i })
        h.toRemove hout
      exact h.of_keeps hk hcalls (fun e he => .inr (hk.out (hall e he))) (fun _ => .inl)
        (fun c hc => .inl (List.mem_of_mem_eraseIdx hc)) (fun _ => .inl)
  | swap hphase =>
    refine h.of_keeps hk hcalls (fun e he => absurd he (by simp)) (fun e he => ?_)
      (fun _ => .inl) (fun _ => .inl)
    have hmem := mem_inOrder.1 he
    have hout := h.toRemove e hmem
    refine .inr (hk.sent ⟨hout, fun hc hp => ?_⟩)
    exact hout.map hc (hund e.1 (AList.mem_keys.2 (mem_of_mem_entries hmem)) hp)
  | @delete pathMap remove rest hphase reply =>
    have hsent : s.Sent remove.1 remove.2.since := by
      refine h.taken remove ?_
      rw [hphase]
      exact List.mem_cons_self
    obtain ⟨nodes, heq⟩ := delete_eq s reply remove pathMap rest
    have hgone : reply.ok = true →
        (s.delete reply remove pathMap rest).Gone remove.1 remove.2.since :=
      gone_of_delete (hk.sent hsent)
    rw [heq] at hk hcalls hgone ⊢
    refine h.of_keeps hk hcalls (fun _ => .inl) (fun e he => .inl ?_) (fun c hc => ?_)
      (fun _ => .inl)
    · rw [hphase]
      exact List.mem_cons_of_mem _ he
    · rcases List.mem_append.1 hc with hc | hc
      · exact .inl hc
      · rw [List.mem_singleton.1 hc]
        exact .inr ⟨hk.out hsent.toOut, hgone⟩
  | deleteUnsent hphase =>
    refine h.of_keeps hk hcalls (fun _ => .inl) (fun e he => .inl ?_) (fun _ => .inl)
      (fun _ => .inl)
    rw [hphase]
    exact List.mem_cons_of_mem _ he
  | request hphase _ hr | getState hphase _ hr => exact h.reports hk hr
  | copy _ | report _ | sleep _ =>
    exact h.of_keeps hk hcalls (fun _ => .inl) (fun e he => absurd he List.not_mem_nil)
      (fun _ => .inl) (fun _ => .inl)
  | erasePath _ _ | session _ | expire _ =>
    exact h.of_keeps hk hcalls (fun _ => .inl) (fun _ => .inl) (fun _ => .inl) (fun _ => .inl)

end State

/-! ## Every run -/

/-- **A confirmed removal stays in force**: where a `Delete` was answered with `OK` or `NONODE`
and the path has not been added since the call of `RemovePath`, there is no heartbeat node, in
every state of every run in which the thread takes its paths to remove undisturbed. -/
theorem confirmed_gone (msg : HeartbeatMessage) (nodes : PathMap ℕ) (session : ℕ) {s : State}
    (h : Reach (next msg) Undisturbed (.init nodes session) s) :
    ∀ r ∈ s.confirmed, s.Current r.1 r.2 → r.1 ∉ s.nodes := by
  have hinv : s.Inv := h.invariant (State.inv_init nodes session) fun _ _ _ hs hund hnext =>
    hs.next hund hnext
  exact fun r hr => (hinv.confirmed r hr).nodes

/-- The host whose nodes the runs below are about. -/
def host : HeartbeatMessage := ⟨"10.0.0.1", 80⟩

/-- `/a` is reported, then removed with a future: there was a node, and there is none. -/
theorem confirmed_gone_run : ∃ s, Reach (next host) Undisturbed (.init ∅ 7) s ∧
    ("/a/10.0.0.1:80", 1) ∈ s.confirmed ∧ s.Current "/a/10.0.0.1:80" 1 ∧ s.promises = [true] ∧
    "/a/10.0.0.1:80" ∉ s.nodes := by
  obtain ⟨s, hs, hseen⟩ := exists_reach_of_follow (next host) Undisturbed
    [.addPathToReport "/a", .copy, .swap, .report, .request .answered, .getState .connected,
      .request .answered, .request .answered, .sleep,
      .erasePath "/a" true, .putRemoval 0, .copy, .swap, .delete .answered, .callback 0]
    (.init ∅ 7) (fun s => decide (("/a/10.0.0.1:80", 1) ∈ s.confirmed ∧
      s.Current "/a/10.0.0.1:80" 1 ∧ s.promises = [true])) (by decide +kernel)
  obtain ⟨hmem, hcur, hpromise⟩ := of_decide_eq_true hseen
  exact ⟨s, hs, hmem, hcur, hpromise, confirmed_gone host ∅ 7 hs _ hmem hcur⟩

/-- **The node is created again.**  `/a` is removed between the two sections of the thread: it
is among the paths the thread has copied and among those it takes to remove.  Its `Delete` is
answered and confirmed, then `Report` creates the node; and nothing is left that would remove
it. -/
theorem confirmed_recreated : ∃ s, Reach (next host) (fun _ _ => True) (.init ∅ 7) s ∧
    (∃ r ∈ s.confirmed, s.Current r.1 r.2 ∧ r.1 ∈ s.nodes) ∧ s.promises = [true] ∧
    s.phase = .start ∧ s.nodePathMap.keys = [] ∧ s.nodePathToRemove.keys = [] ∧ s.calls = [] ∧
    s.callbacks = [] := by
  obtain ⟨s, hs, hseen⟩ := exists_reach_of_follow (next host) (fun _ _ => True)
    [.addPathToReport "/a", .copy, .erasePath "/a" true, .putRemoval 0, .swap, .delete .answered,
      .callback 0, .report, .request .answered, .getState .connected, .request .answered,
      .request .answered, .sleep]
    (.init ∅ 7) (fun s => decide ((∃ r ∈ s.confirmed, s.Current r.1 r.2 ∧ r.1 ∈ s.nodes) ∧
      s.promises = [true] ∧ s.phase = .start ∧ s.nodePathMap.keys = [] ∧
      s.nodePathToRemove.keys = [] ∧ s.calls = [] ∧ s.callbacks = [])) (by decide +kernel)
  exact ⟨s, hs, of_decide_eq_true hseen⟩

end Rtp.Leader.Reporter
