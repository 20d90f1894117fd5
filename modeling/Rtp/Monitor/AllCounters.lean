import Rtp.Lib.Reach
import Rtp.Monitor.MonitorStatus

/-!
# What the `GetAll` functions report

Registrations, writes through the pointers they handed out and calls of the three `GetAll`
functions come in any order.  Beside the monitor stands what it is meant to know: for each
kind the registered names with their values.

* `System`, `next` — the monitor, the registry and the pointers handed out.
* `view` — what the file says; `foldlM_parseEntry` — a parse adds to each map what the file
  says about the names that are not in it yet.
* `Inv` — the file says what the registry says, and pointers point to their counters.
* `getAll_exact_iff` — **exactly when a call reports the registry**: the counters and the
  timers always, the binary counters when what earlier calls left in their map is still
  true.
* `getAllBinaryCounters_stale` — `ParseCounters` does not clear that map.
-/

namespace Rtp.Monitor

open Function (update update_self update_of_ne)

/-! ## The system -/

/-- The registered names of each kind with their values. -/
abbrev Registry := (k : Kind) → List Char → Option k.Value

namespace Registry

def set (k : Kind) (name : List Char) (v : k.Value) (r : Registry) : Registry :=
  update r k (update (r k) name (some v))

/-- A name that is registered again keeps its value. -/
def register (k : Kind) (name : List Char) (r : Registry) : Registry :=
  if (r k name).isSome then r else r.set k name k.zero

end Registry

/-- A pointer that was handed out, with what it was asked for. -/
structure Handle where
  kind : Kind
  name : List Char
  entry : ℕ

structure System where
  monitor : MonitorStatus
  registry : Registry
  handles : List Handle

/-- The calls, and the writes through the pointers they return. -/
inductive Action where
  | get (k : Kind) (module key : CString)
  | write (handle : ℕ) (k : Kind) (v : k.Value)
  | getAll (k : Kind) (caller : CounterMap k)

/-- What is in the file says which names are registered from the start. -/
def view (es : List Entry) (k : Kind) (name : List Char) : Option k.Value :=
  (es.find? fun e => cstr e.key = k.keyPrefix ++ name).bind (Entry.read k)

/-- The monitor after `Init` on a file. -/
def opened (file : RawMMapList) : System := ⟨MonitorStatus.init file, view file.entries, []⟩

/-- One action; nothing where it is undefined. -/
def next : Action → System → Option System
  | .get k module key, s =>
    match s.monitor.getOf k module key with
    | none => none
    | some (i, monitor) =>
      some ⟨monitor, s.registry.register k (counterName module key),
        s.handles ++ [⟨k, counterName module key, i⟩]⟩
  | .write handle k v, s =>
    match s.handles[handle]? with
    | none => none
    | some h =>
      if h.kind = k then
        match s.monitor.statusList.write h.entry k v with
        | none => none
        | some l =>
          some { s with
            monitor := { s.monitor with statusList := l }
            registry := s.registry.set k h.name v }
      else none
  | .getAll k caller, s =>
    match s.monitor.getAllOf k caller with
    | none => none
    | some (_, monitor) => some { s with monitor := monitor }

/-! ## Keys -/

theorem nul_notMem_keyPrefix (k : Kind) : nul ∉ k.keyPrefix := by cases k <;> decide

theorem keyPrefix_append_inj {k k' : Kind} {a b : List Char}
    (h : k.keyPrefix ++ a = k'.keyPrefix ++ b) : k = k' ∧ a = b := by
  revert h
  cases k <;> cases k' <;> simp [Kind.keyPrefix]

theorem drop_keyPrefix (k : Kind) (name : List Char) : (k.keyPrefix ++ name).drop 2 = name := by
  cases k <;> rfl

theorem cstr_pad {key : List Char} (h : nul ∉ key) : cstr (pad key) = key := by
  unfold cstr pad
  have hlen : align8 (key.length + 1) - key.length ≠ 0 := by
    unfold align8
    omega
  obtain ⟨n, hn⟩ := Nat.exists_eq_succ_of_ne_zero hlen
  rw [hn, List.replicate_succ, List.takeWhile_append_of_pos, List.takeWhile_cons_of_neg,
    List.append_nil]
  · simp
  · intro c hc
    have hne : c ≠ nul := by
      rintro rfl
      exact h hc
    simpa using hne

theorem nul_notMem_counterName (module key : CString) : nul ∉ counterName module key := by
  intro hmem
  have hmem' := List.mem_of_mem_take hmem
  rw [List.mem_append, List.mem_cons] at hmem'
  obtain h | h | h := hmem'
  · exact module.nul_notMem h
  · exact absurd h (by decide)
  · exact key.nul_notMem h

theorem key_eq (k : Kind) (module key : CString) :
    k.key module key = k.keyPrefix ++ counterName module key := by
  cases k <;> rfl

/-- The find of `ParseCounters` goes to the kind of the prefix. -/
theorem find?_keyPrefix (k : Kind) (name : List Char) :
    [Kind.counter, .timer, .binary].find?
      (fun k' => k'.keyPrefix.isPrefixOf (k.keyPrefix ++ name)) = some k := by
  cases k <;> rfl

/-! ## What the file says -/

/-- An entry as `AddEntry` writes it for its kind. -/
def Entry.Keyed (e : Entry) : Prop :=
  ∃ name, nul ∉ name ∧ e.key = pad (e.kind.keyPrefix ++ name)

/-- A file as registrations leave it: every entry is keyed by its kind, and no key is there
twice. -/
structure FileOk (es : List Entry) : Prop where
  keyed : ∀ e ∈ es, e.Keyed
  nodup : (es.map Entry.key).Nodup

section
variable {e : Entry} {es : List Entry} {k : Kind} {name : List Char} {v : k.Value} {i : ℕ}

theorem Entry.read_mk (key : List Char) (v : k.Value) : (Entry.mk key k v).read k = some v := by
  unfold Entry.read
  rw [dif_pos rfl]

theorem nul_notMem_append (h : nul ∉ name) : nul ∉ k.keyPrefix ++ name := by
  intro hmem
  obtain hmem | hmem := List.mem_append.mp hmem
  · exact nul_notMem_keyPrefix k hmem
  · exact h hmem

/-- The name of an entry tells its kind, its key and its value. -/
theorem Entry.Keyed.of_cstr (h : e.Keyed) (hkey : cstr e.key = k.keyPrefix ++ name) :
    nul ∉ name ∧ ∃ v : k.Value, e = ⟨pad (k.keyPrefix ++ name), k, v⟩ := by
  obtain ⟨key, k', v'⟩ := e
  obtain ⟨name', hname, hpad⟩ := h
  change key = pad (k'.keyPrefix ++ name') at hpad
  subst hpad
  rw [cstr_pad (nul_notMem_append hname)] at hkey
  obtain ⟨rfl, rfl⟩ := keyPrefix_append_inj hkey
  exact ⟨hname, v', rfl⟩

theorem view_cons (e : Entry) (es : List Entry) (k : Kind) (name : List Char) :
    view (e :: es) k name =
      if cstr e.key = k.keyPrefix ++ name then e.read k else view es k name := by
  unfold view
  rw [List.find?_cons]
  by_cases h : cstr e.key = k.keyPrefix ++ name
  · simp [h]
  · simp [h]

theorem FileOk.tail (h : FileOk (e :: es)) : FileOk es :=
  ⟨fun e' he' => h.keyed e' (List.mem_cons_of_mem _ he'), (List.nodup_cons.mp h.nodup).2⟩

/-- **The file says what its entries hold.** -/
theorem FileOk.view_eq_some_iff (h : FileOk es) :
    view es k name = some v ↔ nul ∉ name ∧ ⟨pad (k.keyPrefix ++ name), k, v⟩ ∈ es := by
  induction es with
  | nil => simp [view]
  | cons e es ih =>
    rw [view_cons, List.mem_cons]
    by_cases hkey : cstr e.key = k.keyPrefix ++ name
    · obtain ⟨hname, v', rfl⟩ := (h.keyed e List.mem_cons_self).of_cstr hkey
      rw [if_pos hkey, Entry.read_mk]
      constructor
      · intro hv
        rw [Option.some.inj hv]
        exact ⟨hname, .inl rfl⟩
      · rintro ⟨-, heq | hmem⟩
        · simpa using heq.symm
        · -- the key would be there twice
          have hnot := (List.nodup_cons.mp h.nodup).1
          exact absurd (List.mem_map_of_mem (f := Entry.key) hmem) hnot
    · rw [if_neg hkey, ih h.tail]
      refine and_congr_right fun hname => ⟨.inr, fun hor => hor.resolve_left ?_⟩
      rintro rfl
      exact hkey (cstr_pad (nul_notMem_append hname))

/-- A pointer to the value of a counter. -/
def Points (es : List Entry) (i : ℕ) (k : Kind) (name : List Char) : Prop :=
  nul ∉ name ∧ ∃ v : k.Value, es[i]? = some ⟨pad (k.keyPrefix ++ name), k, v⟩

theorem FileOk.view_of_points (h : FileOk es) (hp : Points es i k name) :
    (view es k name).isSome = true := by
  obtain ⟨hname, v, hv⟩ := hp
  rw [h.view_eq_some_iff.mpr ⟨hname, List.mem_of_getElem? hv⟩]
  rfl

theorem view_congr {es' : List Entry} (h : FileOk es) (h' : FileOk es')
    (hmem : nul ∉ name → ∀ v : k.Value, ⟨pad (k.keyPrefix ++ name), k, v⟩ ∈ es' ↔
      ⟨pad (k.keyPrefix ++ name), k, v⟩ ∈ es) : view es' k name = view es k name := by
  apply Option.ext
  intro v
  rw [h.view_eq_some_iff, h'.view_eq_some_iff]
  exact and_congr_right fun hname => hmem hname v

theorem pad_inj {a b : List Char} (ha : nul ∉ a) (hb : nul ∉ b) (h : pad a = pad b) : a = b := by
  rw [← cstr_pad ha, h, cstr_pad hb]

theorem Registry.set_self (r : Registry) : r.set k name v k name = some v := by
  unfold Registry.set
  rw [update_self, update_self]

theorem Registry.set_of_ne (r : Registry) {k' : Kind} {name' : List Char}
    (h : ¬ (k' = k ∧ name' = name)) : r.set k name v k' name' = r k' name' := by
  unfold Registry.set
  by_cases hk : k' = k
  · subst hk
    rw [update_self, update_of_ne fun hn => h ⟨rfl, hn⟩]
  · rw [update_of_ne hk]

/-- A change of the file that sets one counter, said of the registry. -/
theorem view_eq_set {es' : List Entry} (h : FileOk es) (h' : FileOk es') (hname : nul ∉ name)
    (hnew : ⟨pad (k.keyPrefix ++ name), k, v⟩ ∈ es')
    (hother : ∀ e : Entry, e.key ≠ pad (k.keyPrefix ++ name) → (e ∈ es' ↔ e ∈ es)) :
    view es' = Registry.set k name v (view es) := by
  funext k' name'
  by_cases heq : k' = k ∧ name' = name
  · obtain ⟨rfl, rfl⟩ := heq
    rw [Registry.set_self, h'.view_eq_some_iff]
    exact ⟨hname, hnew⟩
  · rw [Registry.set_of_ne _ heq]
    apply view_congr h h'
    intro hname' v'
    apply hother
    intro hpad
    exact heq (keyPrefix_append_inj
      (pad_inj (nul_notMem_append hname') (nul_notMem_append hname) hpad))

/-! ### Registering -/

/-- The key is in no entry. -/
theorem findIdx?_eq_none (h : es.findIdx? (fun e => e.key = pad name) = none) :
    pad name ∉ es.map Entry.key := by
  intro hmem
  obtain ⟨e, he, hkey⟩ := List.mem_map.mp hmem
  have hno := List.findIdx?_eq_none_iff.mp h e he
  exact absurd hkey (by simpa using hno)

theorem FileOk.append (h : FileOk es) (hname : nul ∉ name)
    (hnew : pad (k.keyPrefix ++ name) ∉ es.map Entry.key) :
    FileOk (es ++ [⟨pad (k.keyPrefix ++ name), k, v⟩]) := by
  constructor
  · intro e he
    obtain he | he := List.mem_append.mp he
    · exact h.keyed e he
    · rw [List.mem_singleton.mp he]
      exact ⟨name, hname, rfl⟩
  · rw [List.map_append, List.nodup_append]
    refine ⟨h.nodup, List.nodup_singleton _, ?_⟩
    rintro key hkey key' hkey' rfl
    rw [List.map_singleton, List.mem_singleton] at hkey'
    subst hkey'
    exact hnew hkey

theorem FileOk.view_append (h : FileOk es) (hname : nul ∉ name)
    (hnew : pad (k.keyPrefix ++ name) ∉ es.map Entry.key) :
    view (es ++ [⟨pad (k.keyPrefix ++ name), k, k.zero⟩]) = Registry.register k name (view es) := by
  have hnone : (view es k name).isSome = false := by
    rw [Option.isSome_eq_false_iff, Option.isNone_iff_eq_none, Option.eq_none_iff_forall_ne_some]
    intro v hv
    exact hnew (List.mem_map_of_mem (f := Entry.key) (h.view_eq_some_iff.mp hv).2)
  unfold Registry.register
  rw [hnone, if_neg Bool.false_ne_true]
  apply view_eq_set h (h.append hname hnew) hname
  · exact List.mem_append_right _ List.mem_cons_self
  · intro e hne
    rw [List.mem_append, List.mem_singleton]
    refine ⟨fun hor => hor.resolve_right ?_, .inl⟩
    rintro rfl
    exact hne rfl

theorem register_of_points (h : FileOk es) (hp : Points es i k name) :
    Registry.register k name (view es) = view es := by
  unfold Registry.register
  rw [h.view_of_points hp, if_pos rfl]

theorem Points.append (hp : Points es i k name) (e : Entry) : Points (es ++ [e]) i k name := by
  obtain ⟨hname, v, hv⟩ := hp
  refine ⟨hname, v, ?_⟩
  obtain ⟨hlt, -⟩ := List.getElem?_eq_some_iff.mp hv
  rw [List.getElem?_append_left hlt, hv]

/-- **`AddEntry`** returns a pointer to the counter, which the file then has, and leaves
every pointer where it points. -/
theorem addEntry_spec {l l' : RawMMapList} (h : FileOk l.entries) (hname : nul ∉ name)
    (hadd : l.addEntry (k.keyPrefix ++ name) k = some (i, l')) :
    FileOk l'.entries ∧ view l'.entries = Registry.register k name (view l.entries) ∧
      Points l'.entries i k name ∧
      ∀ j k' name', Points l.entries j k' name' → Points l'.entries j k' name' := by
  unfold RawMMapList.addEntry RawMMapList.find at hadd
  cases hfind : l.entries.findIdx? fun e => decide (e.key = pad (k.keyPrefix ++ name)) with
  | some j =>
    simp only [hfind, Option.some.injEq, Prod.mk.injEq] at hadd
    obtain ⟨rfl, rfl⟩ := hadd
    obtain ⟨hlt, hkey, -⟩ := List.findIdx?_eq_some_iff_getElem.mp hfind
    have hp : Points l.entries j k name := by
      have hmem := List.getElem_mem hlt
      have hcstr : cstr l.entries[j].key = k.keyPrefix ++ name := by
        rw [of_decide_eq_true hkey, cstr_pad (nul_notMem_append hname)]
      obtain ⟨-, v, hv⟩ := (h.keyed _ hmem).of_cstr hcstr
      exact ⟨hname, v, by rw [List.getElem?_eq_getElem hlt, hv]⟩
    exact ⟨h, (register_of_points h hp).symm, hp, fun _ _ _ => id⟩
  | none =>
    have hnew := findIdx?_eq_none hfind
    simp only [hfind] at hadd
    by_cases hterm : l.Terminated
    · simp only [if_pos hterm] at hadd
      split at hadd
      · simp only [Option.some.injEq, Prod.mk.injEq] at hadd
        obtain ⟨rfl, rfl⟩ := hadd
        refine ⟨h.append hname hnew, h.view_append hname hnew, ⟨hname, k.zero, ?_⟩,
          fun _ _ _ hp => hp.append _⟩
        exact List.getElem?_concat_length
      · simp at hadd
    · simp only [if_neg hterm] at hadd
      simp at hadd

/-! ### Writing -/

theorem mem_set_iff {e' x : Entry} (hi : es[i]? = some e) (hkey : e'.key = e.key)
    (hne : x.key ≠ e.key) : x ∈ es.set i e' ↔ x ∈ es := by
  rw [List.mem_iff_getElem?, List.mem_iff_getElem?]
  apply exists_congr
  intro j
  by_cases hij : i = j
  · subst hij
    obtain ⟨hlt, -⟩ := List.getElem?_eq_some_iff.mp hi
    rw [List.getElem?_set_self hlt, hi]
    refine iff_of_false ?_ ?_
    · rintro heq
      rw [← Option.some.inj heq] at hne
      exact hne hkey
    · rintro heq
      rw [← Option.some.inj heq] at hne
      exact hne rfl
  · rw [List.getElem?_set_ne hij]

theorem FileOk.set (h : FileOk es) (hp : Points es i k name) :
    FileOk (es.set i ⟨pad (k.keyPrefix ++ name), k, v⟩) := by
  obtain ⟨hname, v', hv'⟩ := hp
  constructor
  · intro e he
    obtain he | rfl := List.mem_or_eq_of_mem_set he
    · exact h.keyed e he
    · exact ⟨name, hname, rfl⟩
  · obtain ⟨hlt, heq⟩ := List.getElem?_eq_some_iff.mp hv'
    have hlt' : i < (es.map Entry.key).length := by rwa [List.length_map]
    have hsame : pad (k.keyPrefix ++ name) = (es.map Entry.key)[i] := by
      rw [List.getElem_map, heq]
    rw [List.map_set, hsame, List.set_getElem_self]
    exact h.nodup

theorem FileOk.view_set (h : FileOk es) (hp : Points es i k name) :
    view (es.set i ⟨pad (k.keyPrefix ++ name), k, v⟩) = Registry.set k name v (view es) := by
  have hset := h.set hp (v := v)
  obtain ⟨hname, v', hv'⟩ := hp
  obtain ⟨hlt, -⟩ := List.getElem?_eq_some_iff.mp hv'
  apply view_eq_set h hset hname
  · exact List.mem_of_getElem? (List.getElem?_set_self hlt)
  · intro e hne
    exact mem_set_iff hv' rfl hne

theorem Points.set {j : ℕ} {k' : Kind} {name' : List Char} (hp : Points es i k name)
    (hp' : Points es j k' name') :
    Points (es.set i ⟨pad (k.keyPrefix ++ name), k, v⟩) j k' name' := by
  obtain ⟨hname, v₀, hv₀⟩ := hp
  obtain ⟨hname', v₁, hv₁⟩ := hp'
  by_cases hij : i = j
  · subst hij
    obtain ⟨hlt, -⟩ := List.getElem?_eq_some_iff.mp hv₀
    have heq := Option.some.inj (hv₀.symm.trans hv₁)
    have hkey : pad (k.keyPrefix ++ name) = pad (k'.keyPrefix ++ name') :=
      congrArg Entry.key heq
    obtain ⟨rfl, rfl⟩ := keyPrefix_append_inj
      (pad_inj (nul_notMem_append hname) (nul_notMem_append hname') hkey)
    exact ⟨hname, v, List.getElem?_set_self hlt⟩
  · exact ⟨hname', v₁, (List.getElem?_set_ne hij).trans hv₁⟩

/-- **A write** changes the value of the counter it points to and nothing else. -/
theorem write_spec {l l' : RawMMapList} (h : FileOk l.entries) (hp : Points l.entries i k name)
    (hwrite : l.write i k v = some l') :
    FileOk l'.entries ∧ view l'.entries = Registry.set k name v (view l.entries) ∧
      ∀ j k' name', Points l.entries j k' name' → Points l'.entries j k' name' := by
  obtain ⟨-, v', hv'⟩ := id hp
  unfold RawMMapList.write at hwrite
  simp only [hv', if_true, Option.some.injEq] at hwrite
  subst hwrite
  exact ⟨h.set hp, h.view_set hp, fun j k' name' hp' => hp.set hp'⟩

/-! ### Parsing -/

theorem lookup_insertNew (m : CounterMap k) (name' : List Char) :
    (insertNew name v m).lookup name' =
      (m.lookup name').or (if name = name' then some v else none) := by
  unfold insertNew
  by_cases hmem : name ∈ m
  · rw [if_pos hmem]
    by_cases heq : name = name'
    · subst heq
      obtain ⟨w, hw⟩ := Option.isSome_iff_exists.mp (AList.lookup_isSome.mpr hmem)
      rw [hw, Option.some_or]
    · rw [if_neg heq, Option.or_none]
  · rw [if_neg hmem]
    by_cases heq : name = name'
    · subst heq
      rw [if_pos rfl, AList.lookup_insert, AList.lookup_eq_none.mpr hmem, Option.none_or]
    · rw [if_neg heq, Option.or_none, AList.lookup_insert_ne fun hne => heq hne.symm]

/-- One entry is added to the map of its kind. -/
theorem Entry.Keyed.parse (h : e.Keyed) (m : Maps) :
    ∃ m', parseEntry m e = some m' ∧ ∀ k name, (m' k).lookup name =
      ((m k).lookup name).or (if cstr e.key = k.keyPrefix ++ name then e.read k else none) := by
  obtain ⟨name, hname, hkey⟩ := h
  obtain ⟨hnul, v, he⟩ : _ ∧ ∃ v : e.kind.Value, e = ⟨pad (e.kind.keyPrefix ++ name), e.kind, v⟩ :=
    Entry.Keyed.of_cstr ⟨name, hname, hkey⟩ (by rw [hkey, cstr_pad (nul_notMem_append hname)])
  generalize e.kind = k at v he
  subst he
  have hcstr : cstr (pad (k.keyPrefix ++ name)) = k.keyPrefix ++ name :=
    cstr_pad (nul_notMem_append hname)
  refine ⟨update m k (insertNew name v (m k)), ?_, ?_⟩
  · unfold parseEntry
    simp only [hcstr, find?_keyPrefix, Entry.read_mk, drop_keyPrefix]
  · intro k' name'
    simp only [hcstr]
    by_cases hk : k' = k
    · subst hk
      rw [update_self, lookup_insertNew, Entry.read_mk]
      simp only [List.append_cancel_left_eq]
    · rw [update_of_ne hk, if_neg, Option.or_none]
      intro heq
      exact hk (keyPrefix_append_inj heq).1.symm

/-- **A parse adds what the file says** about the names that a map does not have. -/
theorem FileOk.foldlM_parseEntry (h : FileOk es) (m : Maps) :
    ∃ m', es.foldlM parseEntry m = some m' ∧
      ∀ k name, (m' k).lookup name = ((m k).lookup name).or (view es k name) := by
  induction es generalizing m with
  | nil =>
    refine ⟨m, rfl, ?_⟩
    intro k name
    exact (Option.or_none).symm
  | cons e es ih =>
    obtain ⟨m₁, hparse, h₁⟩ := (h.keyed e List.mem_cons_self).parse m
    obtain ⟨m₂, hfold, h₂⟩ := ih h.tail m₁
    refine ⟨m₂, ?_, ?_⟩
    · rw [List.foldlM_cons, hparse]
      exact hfold
    · intro k name
      rw [h₂, h₁, view_cons, Option.or_assoc]
      congr 1
      split
      · next hkey =>
        -- an entry of this name is of this kind, so its value is the one the parse adds
        obtain ⟨-, v, rfl⟩ := (h.keyed e List.mem_cons_self).of_cstr hkey
        rw [Entry.read_mk, Option.some_or]
      · rw [Option.none_or]

end

/-! ## Every run -/

/-- The file says what the registry says, and every pointer that is kept, by a caller or in
the cache maps, points to the counter it was asked for. -/
structure Inv (s : System) : Prop where
  file : FileOk s.monitor.statusList.entries
  registry : s.registry = view s.monitor.statusList.entries
  handles : ∀ h ∈ s.handles, Points s.monitor.statusList.entries h.entry h.kind h.name
  caches : ∀ k name i,
    ((s.monitor.cacheMaps k).maps (s.monitor.cacheMaps k).index).lookup (k.keyPrefix ++ name) =
      some i → Points s.monitor.statusList.entries i k name

theorem Inv.opened {file : RawMMapList} (h : FileOk file.entries) : Inv (opened file) where
  file := h
  registry := rfl
  handles := by intro h hmem; cases hmem
  caches := by
    intro k name i hi
    simp [Monitor.opened, MonitorStatus.init] at hi

section
variable {s s' : System} {k : Kind}

theorem lookup_cacheMaps_add {c : CacheMaps} {key key' : List Char} {i j : ℕ}
    (h : ((c.add key i).maps (c.add key i).index).lookup key' = some j) :
    (key' = key ∧ j = i) ∨ (c.maps c.index).lookup key' = some j := by
  unfold CacheMaps.add at h
  split at h
  · exact .inr h
  · simp only [update_self] at h
    by_cases heq : key' = key
    · subst heq
      rw [AList.lookup_insert] at h
      exact .inl ⟨rfl, (Option.some.inj h).symm⟩
    · rw [AList.lookup_insert_ne heq] at h
      exact .inr h

theorem Inv.get (h : Inv s) {module key : CString} {i : ℕ} {m : MonitorStatus}
    (hget : s.monitor.get k module key = some (i, m)) :
    Inv ⟨m, s.registry.register k (counterName module key),
      s.handles ++ [⟨k, counterName module key, i⟩]⟩ := by
  have hname := nul_notMem_counterName module key
  unfold MonitorStatus.get at hget
  rw [key_eq] at hget
  generalize counterName module key = name at hname hget ⊢
  cases hcache : ((s.monitor.cacheMaps k).maps (s.monitor.cacheMaps k).index).lookup
      (k.keyPrefix ++ name) with
  | some j =>
    simp only [hcache, Option.some.injEq, Prod.mk.injEq] at hget
    obtain ⟨rfl, rfl⟩ := hget
    have hp := h.caches k name j hcache
    refine ⟨h.file, ?_, ?_, h.caches⟩
    · show s.registry.register k name = _
      rw [h.registry, register_of_points h.file hp]
    · intro hd hmem
      obtain hmem | hmem := List.mem_append.mp hmem
      · exact h.handles hd hmem
      · rw [List.mem_singleton.mp hmem]
        exact hp
  | none =>
    simp only [hcache] at hget
    cases hadd : s.monitor.statusList.addEntry (k.keyPrefix ++ name) k with
    | none =>
      rw [hadd] at hget
      simp at hget
    | some q =>
      obtain ⟨j, l⟩ := q
      simp only [hadd, Option.some.injEq, Prod.mk.injEq] at hget
      obtain ⟨rfl, rfl⟩ := hget
      obtain ⟨hfile, hview, hp, hkeep⟩ := addEntry_spec h.file hname hadd
      refine ⟨hfile, ?_, ?_, ?_⟩
      · show s.registry.register k name = view l.entries
        rw [hview, h.registry]
      · intro hd hmem
        obtain hmem | hmem := List.mem_append.mp hmem
        · exact hkeep _ _ _ (h.handles hd hmem)
        · rw [List.mem_singleton.mp hmem]
          exact hp
      · intro k' name' i' hi'
        simp only at hi'
        by_cases hk : k' = k
        · subst hk
          rw [update_self] at hi'
          obtain ⟨heq, rfl⟩ | hold := lookup_cacheMaps_add hi'
          · rw [List.append_cancel_left heq]
            exact hp
          · exact hkeep _ _ _ (h.caches k' name' i' hold)
        · rw [update_of_ne hk] at hi'
          exact hkeep _ _ _ (h.caches k' name' i' hi')

theorem Inv.write (h : Inv s) {hd : Handle} (hmem : hd ∈ s.handles) {v : hd.kind.Value}
    {l : RawMMapList} (hwrite : s.monitor.statusList.write hd.entry hd.kind v = some l) :
    Inv { s with
      monitor := { s.monitor with statusList := l }
      registry := s.registry.set hd.kind hd.name v } := by
  obtain ⟨hfile, hview, hkeep⟩ := write_spec h.file (h.handles hd hmem) hwrite
  refine ⟨hfile, ?_, ?_, ?_⟩
  · show s.registry.set hd.kind hd.name v = view l.entries
    rw [hview, h.registry]
  · intro hd' hmem'
    exact hkeep _ _ _ (h.handles hd' hmem')
  · intro k name i hi
    exact hkeep _ _ _ (h.caches k name i hi)

/-- What is left in the maps is not part of the invariant. -/
theorem Inv.getAll (h : Inv s) {caller result : CounterMap k} {m : MonitorStatus}
    (hget : s.monitor.getAll k caller = some (result, m)) : Inv { s with monitor := m } := by
  unfold MonitorStatus.getAll at hget
  cases hparse : s.monitor.parseCounters with
  | none =>
    rw [hparse] at hget
    simp at hget
  | some maps =>
    simp only [hparse, Option.some.injEq, Prod.mk.injEq] at hget
    obtain ⟨-, rfl⟩ := hget
    exact ⟨h.file, h.registry, h.handles, h.caches⟩

theorem Inv.next (h : Inv s) {a : Action} (hnext : next a s = some s') : Inv s' := by
  cases a with
  | get k module key =>
    simp only [Monitor.next, MonitorStatus.getOf_eq] at hnext
    split at hnext
    · simp at hnext
    · next i m hget =>
      rw [← Option.some.inj hnext]
      exact h.get hget
  | write handle k v =>
    simp only [Monitor.next] at hnext
    split at hnext
    · simp at hnext
    · next hd hhd =>
      split at hnext
      · next hk =>
        subst hk
        split at hnext
        · simp at hnext
        · next l hwrite =>
          rw [← Option.some.inj hnext]
          exact h.write (List.mem_of_getElem? hhd) hwrite
      · simp at hnext
  | getAll k caller =>
    simp only [Monitor.next, MonitorStatus.getAllOf_eq] at hnext
    split at hnext
    · simp at hnext
    · next result m hget =>
      rw [← Option.some.inj hnext]
      exact h.getAll hget

/-- What earlier calls left in the map of a kind is still true. -/
def LeftoversTrue (s : System) (k : Kind) : Prop :=
  ∀ name v, (s.monitor.maps k).lookup name = some v → s.registry k name = some v

/-- The map a call hands over: what is left after the clearing, and then the registry. -/
theorem Inv.getAll_eq (h : Inv s) (hterm : s.monitor.statusList.Terminated)
    (caller : CounterMap k) :
    ∃ result m, s.monitor.getAll k caller = some (result, m) ∧
      ∀ name, result.lookup name =
        ((cleared s.monitor.maps k).lookup name).or (s.registry k name) := by
  obtain ⟨maps, hfold, hmaps⟩ := h.file.foldlM_parseEntry (cleared s.monitor.maps)
  have hparse : s.monitor.parseCounters = some maps := by
    unfold MonitorStatus.parseCounters
    rw [if_pos hterm, hfold]
  refine ⟨maps k, { s.monitor with maps := update maps k caller }, ?_, ?_⟩
  · unfold MonitorStatus.getAll
    rw [hparse]
  · intro name
    rw [hmaps, h.registry]

theorem or_eq_right_iff {α : Type*} {a b : Option α} :
    a.or b = b ↔ ∀ v, a = some v → b = some v := by
  cases a with
  | none => simp
  | some v => simp [eq_comm]

end

/-- **Exactly when a call reports the registry.**  After any run on a file that earlier
registrations left, a call leaves the registered names of its kind with their values in the
caller's map, whatever that map held before, if and only if the end of the entries lies in
the file and, for the binary counters, whatever is left in `binary_counter_map_` is
registered with that value. -/
theorem getAll_exact_iff (file : RawMMapList) (hfile : FileOk file.entries) {s : System}
    (hreach : Reach next (fun _ _ => True) (opened file) s) (k : Kind) (caller : CounterMap k) :
    (∃ result m, s.monitor.getAllOf k caller = some (result, m) ∧
      ∀ name, result.lookup name = s.registry k name) ↔
    s.monitor.statusList.Terminated ∧ (k = .binary → LeftoversTrue s .binary) := by
  have hinv : Inv s := hreach.invariant (Inv.opened hfile) fun _ _ _ h _ hnext => h.next hnext
  rw [MonitorStatus.getAllOf_eq]
  by_cases hterm : s.monitor.statusList.Terminated
  · obtain ⟨result, m, hget, hresult⟩ := hinv.getAll_eq hterm caller
    constructor
    · rintro ⟨result', m', hget', hexact⟩
      rw [hget, Option.some.injEq, Prod.mk.injEq] at hget'
      obtain ⟨rfl, -⟩ := hget'
      refine ⟨hterm, ?_⟩
      rintro rfl name v hv
      exact or_eq_right_iff.mp ((hresult name).symm.trans (hexact name)) v hv
    · rintro ⟨-, hleft⟩
      refine ⟨result, m, hget, ?_⟩
      intro name
      rw [hresult, or_eq_right_iff]
      intro v hv
      cases k with
      | counter | timer => simp [cleared] at hv
      | binary => exact hleft rfl name v hv
  · constructor
    · rintro ⟨result, m, hget, -⟩
      unfold MonitorStatus.getAll MonitorStatus.parseCounters at hget
      rw [if_neg hterm] at hget
      simp at hget
    · rintro ⟨hterm', -⟩
      exact absurd hterm' hterm

/-- A fresh file, as `Init` creates it. -/
def freshFile : RawMMapList := ⟨65536, []⟩

def moduleM : CString := ⟨['m'], by decide⟩

def keyB : CString := ⟨['b'], by decide⟩

/-- A binary counter after `BinaryCounterUpdater` with a flag. -/
def seenTrue : Kind.binary.Value := (⟨1, 0, 1⟩ : BinaryMonitorStatus)

/-- A binary counter that was set once is reported by the first call, although the caller's
map held something else. -/
theorem getAll_exact_iff_first :
    ∃ s, Reach next (fun _ _ => True) (opened freshFile) s ∧
      s.registry .binary ['m', '#', 'b'] = some seenTrue ∧
      ∃ result m, s.monitor.getAllOf .binary
          ((∅ : CounterMap .binary).insert ['x'] Kind.binary.zero) = some (result, m) ∧
        ∀ name, result.lookup name = s.registry .binary name := by
  obtain ⟨s, hreach, hs⟩ := exists_reach_of_follow next (fun _ _ => True)
    [.get .binary moduleM keyB, .write 0 .binary seenTrue]
    (opened freshFile)
    (fun s => decide (s.registry .binary ['m', '#', 'b'] = some seenTrue) &&
      decide s.monitor.statusList.Terminated && (s.monitor.maps .binary).entries.isEmpty)
    (by decide +kernel)
  simp only [Bool.and_eq_true, decide_eq_true_eq, List.isEmpty_iff] at hs
  obtain ⟨⟨hvalue, hterm⟩, hempty⟩ := hs
  have hnone : s.monitor.maps .binary = ∅ := AList.ext hempty
  refine ⟨s, hreach, hvalue, ?_⟩
  refine (getAll_exact_iff freshFile ⟨?_, List.nodup_nil⟩ hreach .binary _).mpr ⟨hterm, ?_⟩
  · intro e he
    cases he
  · intro _ name v hv
    rw [hnone] at hv
    simp at hv

/-- **A value that has changed.**  A binary counter is registered, a call of
`GetAllCounters` parses the file, then the counter is set: `GetAllBinaryCounters` reports
the value it had at the first parse. -/
theorem getAllBinaryCounters_stale :
    ∃ s, Reach next (fun _ _ => True) (opened freshFile) s ∧
      s.registry .binary ['m', '#', 'b'] = some seenTrue ∧
      ∃ result m, s.monitor.getAllBinaryCounters ∅ = some (result, m) ∧
        result.lookup ['m', '#', 'b'] = some Kind.binary.zero := by
  obtain ⟨s, hreach, hs⟩ := exists_reach_of_follow next (fun _ _ => True)
    [.get .binary moduleM keyB, .getAll .counter ∅,
      .write 0 .binary seenTrue]
    (opened freshFile)
    (fun s => decide (s.registry .binary ['m', '#', 'b'] = some seenTrue) &&
      (s.monitor.getAllBinaryCounters ∅).any fun (p : CounterMap .binary × MonitorStatus) =>
        decide (p.1.lookup ['m', '#', 'b'] = some Kind.binary.zero))
    (by decide +kernel)
  simp only [Bool.and_eq_true, decide_eq_true_eq, Option.any_eq_true] at hs
  obtain ⟨hvalue, ⟨result, m⟩, hget, hstale⟩ := hs
  exact ⟨s, hreach, hvalue, result, m, hget, hstale⟩

end Rtp.Monitor
