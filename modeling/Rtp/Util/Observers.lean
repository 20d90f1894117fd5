import Mathlib.Data.List.Induction
import Rtp.Util.FileMonitor

/-!
# Who is called when a file changes

Those who observe a file expect to be called for each event in its directory that has its
name.  The class finds them by the descriptor of the directory, where one entry has replaced
the other if the directory is observed under two names; and it takes a backslash for the end
of the directory, so that some names are never found.

* `observed`, `Exact` — who observes after some commands, and that exactly they are called.
* `Clean`, `AllClean` — one name for each observed directory, and no backslash in a name.
* `Inv.observe`, `Inv.forget` — **one command** keeps the maps in order, and with clean
  observers each descriptor leads to its entry (`Direct`).
* `Inv.exact`, `Inv.allClean` — **one event**: clean observers are called, and those that are
  called are clean.
* `exact_iff_clean` — **all commands**: exactly the observers are called, after each command,
  if and only if each of them was clean when it came.
-/

namespace Rtp.Util.FileMonitor

variable {Cookie Dir : Type*}

/-! ## Who observes -/

section Commands

variable [DecidableEq Cookie]

/-- The observers after one more command. -/
def Command.apply (live : List Cookie) : Command Cookie → List Cookie
  | .observe c => live ++ [c]
  | .forget c => live.filter (· ≠ c)

/-- The cookies that were observed and not forgotten. -/
def observed (cmds : List (Command Cookie)) : List Cookie := cmds.foldl Command.apply []

/-- A cookie is new when it is observed, and is forgotten once. -/
def Enabled (live : List Cookie) : Command Cookie → Prop
  | .observe c => c ∉ live
  | .forget c => c ∈ live

instance (live : List Cookie) : (cmd : Command Cookie) → Decidable (Enabled live cmd)
  | .observe c => inferInstanceAs (Decidable (c ∉ live))
  | .forget c => inferInstanceAs (Decidable (c ∈ live))

/-- Commands that can be given one after another. -/
def Valid (cmds : List (Command Cookie)) : Prop :=
  ∀ before cmd, before ++ [cmd] <+: cmds → Enabled (observed before) cmd

end Commands

/-- For an event in a directory, the action of each observer of the file is called once, and no
other. -/
def Exact (w : World Cookie Dir) (live : List Cookie) (f : Monitor Cookie) : Prop :=
  ∀ d event, event.wd = w.watch d →
    ∃ calls, f.processInotify [event] = some calls ∧ (calls.map Prod.fst).Nodup ∧
      ∀ c, c ∈ calls.map Prod.fst ↔
        c ∈ live ∧ w.resolve (w.file c).dir = d ∧ (w.file c).name = event.name

/-- A cookie whose file has no backslash in its name, and whose directory is not observed under
another name. -/
def Clean (w : World Cookie Dir) (live : List Cookie) (c : Cookie) : Prop :=
  '\\' ∉ (w.file c).name ∧
    ∀ c' ∈ live, w.resolve (w.file c').dir = w.resolve (w.file c).dir →
      (w.file c').dir = (w.file c).dir

variable {w : World Cookie Dir} {live : List Cookie} {c : Cookie} {f : Monitor Cookie}
  {e : MonitorEntry Cookie} {dir : List Char}

/-! ## Clean observers -/

/-- No observed file has a backslash in its name, and no directory is observed under two
names. -/
structure AllClean (w : World Cookie Dir) (live : List Cookie) : Prop where
  noBackslash : ∀ c ∈ live, '\\' ∉ (w.file c).name
  oneName : ∀ c ∈ live, ∀ c' ∈ live,
    w.resolve (w.file c).dir = w.resolve (w.file c').dir → (w.file c).dir = (w.file c').dir

/-- The descriptor of each observed name leads to the entry of the name. -/
def Direct (w : World Cookie Dir) (f : Monitor Cookie) : Prop :=
  ∀ dir p, f.nameEntryMap dir = some p → f.wdEntryMap (w.inotifyAddWatch dir) = some p

theorem AllClean.mono {live' : List Cookie} (h : AllClean w live) (hsub : live' ⊆ live) :
    AllClean w live' :=
  ⟨fun c hc => h.noBackslash c (hsub hc), fun c hc c' hc' => h.oneName c (hsub hc) c' (hsub hc')⟩

theorem allClean_append_iff :
    AllClean w (live ++ [c]) ↔ AllClean w live ∧ Clean w live c := by
  constructor
  · intro h
    have hself : c ∈ live ++ [c] := List.mem_append_right _ List.mem_cons_self
    exact ⟨h.mono (List.subset_append_left _ _), h.noBackslash c hself,
      fun c' hc' => h.oneName c' (List.mem_append_left _ hc') c hself⟩
  · rintro ⟨h, hback, hname⟩
    constructor
    · intro x hx
      rcases List.mem_append.mp hx with hx | hx
      · exact h.noBackslash x hx
      · rwa [List.mem_singleton.mp hx]
    · intro x hx y hy hsame
      rcases List.mem_append.mp hx with hx | hx <;> rcases List.mem_append.mp hy with hy | hy
      · exact h.oneName x hx y hy hsame
      · rw [List.mem_singleton.mp hy] at hsame ⊢
        exact hname x hx hsame
      · rw [List.mem_singleton.mp hx] at hsame ⊢
        exact (hname y hy hsame.symm).symm
      · rw [List.mem_singleton.mp hx, List.mem_singleton.mp hy]

theorem World.inotifyAddWatch_eq_iff (w : World Cookie Dir) {dir dir' : List Char} :
    w.inotifyAddWatch dir = w.inotifyAddWatch dir' ↔ w.resolve dir = w.resolve dir' :=
  w.watch_injective.eq_iff

/-- Among clean observers, two names with the same descriptor are one. -/
theorem AllClean.dir_eq (h : AllClean w live) {c c' : Cookie} (hc : c ∈ live) (hc' : c' ∈ live)
    (hwd : w.inotifyAddWatch (w.split c).1 = w.inotifyAddWatch (w.split c').1) :
    (w.split c).1 = (w.split c').1 := by
  rw [w.inotifyAddWatch_eq_iff, w.split_of_notMem (h.noBackslash c hc),
    w.split_of_notMem (h.noBackslash c' hc')] at hwd
  rw [w.split_of_notMem (h.noBackslash c hc), w.split_of_notMem (h.noBackslash c' hc')]
  exact h.oneName c hc c' hc' hwd

/-! ## One command -/

variable {p : ℕ}

theorem processObserve_of_some (hp : f.nameEntryMap (w.split c).1 = some p)
    (he : f.heap p = some e) :
    f.processObserve w c = some (f.setEntry p (e.add (w.split c).2 c)) := by
  simp only [World.split] at hp ⊢
  simp only [Monitor.processObserve, hp, he]

theorem processObserve_of_none (hnone : f.nameEntryMap (w.split c).1 = none) :
    f.processObserve w c = some (f.insertEntry
      (MonitorEntry.add (w.split c).2 c ⟨w.inotifyAddWatch (w.split c).1, (w.split c).1, ∅⟩)) := by
  simp only [World.split] at hnone ⊢
  simp only [Monitor.processObserve, hnone]
  exact if_neg (w.watch_ne _)

/-- Among clean observers an observed name has another descriptor than any other name. -/
theorem Inv.watch_ne {live' : List Cookie} (h : Inv w live f) (hclean : AllClean w live')
    (hsub : live ⊆ live') (hc : c ∈ live') (hp : f.nameEntryMap dir = some p)
    (hne : dir ≠ (w.split c).1) : w.inotifyAddWatch dir ≠ w.inotifyAddWatch (w.split c).1 := by
  obtain ⟨c', hc', rfl⟩ := (h.named dir).mp ⟨p, hp⟩
  intro hwd
  exact hne (hclean.dir_eq (hsub hc') hc hwd)

/-- A new entry is where its descriptor leads, and no other descriptor changes. -/
theorem Direct.insertEntry (hdirect : Direct w f) (h : Inv w live f)
    (hclean : AllClean w (live ++ [c])) (hlists : Lists w (live ++ [c]) (w.split c).1 e) :
    Direct w (f.insertEntry e) := by
  intro dir' p' hp'
  simp only [Monitor.insertEntry, hlists.dir_eq, hlists.wd_eq] at hp' ⊢
  by_cases heq : dir' = (w.split c).1
  · subst heq
    rw [Function.update_self] at hp' ⊢
    exact hp'
  · rw [Function.update_of_ne heq] at hp'
    have hwd := h.watch_ne hclean (List.subset_append_left _ _)
      (List.mem_append_right _ List.mem_cons_self) hp' heq
    rw [Function.update_of_ne hwd]
    exact hdirect dir' p' hp'

/-- `ProcessObserve` keeps the maps in order; and where the observers are clean with the new
one, each descriptor still leads to its entry. -/
theorem Inv.observe (h : Inv w live f) (hc : c ∉ live) :
    ∃ f', f.processObserve w c = some f' ∧ Inv w (live ++ [c]) f' ∧
      (AllClean w (live ++ [c]) → Direct w f → Direct w f') := by
  have hnodup : (live ++ [c]).Nodup := by
    rw [← List.concat_eq_append]
    exact h.nodup.concat hc
  cases hp : f.nameEntryMap (w.split c).1 with
  | some p =>
    obtain ⟨e, he, hlists⟩ := h.entry _ p hp
    refine ⟨_, processObserve_of_some hp he, ?_, fun _ hdirect => hdirect⟩
    apply h.setEntry hp hnodup hlists.add
    · intro dir' e' hne hlists'
      exact hlists'.append_of_ne hne
    · intro dir'
      rw [exists_split_append]
      constructor
      · rintro (hold | rfl)
        · exact hold
        · exact (h.named _).mp ⟨p, hp⟩
      · exact .inl
  | none =>
    -- no observer of this name, so the new entry lists the cookie alone
    have hempty : Lists w live (w.split c).1
        ⟨w.inotifyAddWatch (w.split c).1, (w.split c).1, ∅⟩ := by
      refine ⟨rfl, rfl, fun b => ?_⟩
      rw [AList.lookup_empty, eq_comm, filled_eq_none_iff, List.eq_nil_iff_forall_not_mem]
      intro x hx
      obtain ⟨hlive, hsplit⟩ := mem_listed.mp hx
      obtain ⟨p, hp'⟩ := (h.named _).mpr ⟨x, hlive, congrArg Prod.fst hsplit⟩
      rw [hp] at hp'
      cases hp'
    exact ⟨_, processObserve_of_none hp, h.insertEntry hp hnodup hempty.add,
      fun hclean hdirect => hdirect.insertEntry h hclean hempty.add⟩

section Forget

variable [DecidableEq Cookie]

theorem processForget_of_some (hp : f.nameEntryMap (w.split c).1 = some p)
    (he : f.heap p = some e) : f.processForget w c = some (
      if (e.remove (w.split c).2 c).entries.keys = [] then
        f.eraseEntry p (e.remove (w.split c).2 c)
      else f.setEntry p (e.remove (w.split c).2 c)) := by
  simp only [World.split] at hp ⊢
  simp only [Monitor.processForget, hp, he]
  rfl

omit [DecidableEq Cookie] in
/-- Among clean observers no other name loses its descriptor with an entry. -/
theorem Direct.eraseEntry (hdirect : Direct w f) (h : Inv w live f) (hclean : AllClean w live)
    (hc : c ∈ live) (hdir : e.dir = (w.split c).1) (hwd : e.wd = w.inotifyAddWatch (w.split c).1) :
    Direct w (f.eraseEntry p e) := by
  intro dir' p' hp'
  simp only [Monitor.eraseEntry, hdir, hwd] at hp' ⊢
  by_cases heq : dir' = (w.split c).1
  · subst heq
    rw [Function.update_self] at hp'
    cases hp'
  · rw [Function.update_of_ne heq] at hp'
    have hne := h.watch_ne hclean (List.Subset.refl live) hc hp' heq
    rw [Function.update_of_ne hne]
    exact hdirect dir' p' hp'

/-- `ProcessForget` keeps the maps in order, and each descriptor at its entry where the
observers are clean. -/
theorem Inv.forget (h : Inv w live f) (hc : c ∈ live) :
    ∃ f', f.processForget w c = some f' ∧ Inv w (live.filter (· ≠ c)) f' ∧
      (AllClean w live → Direct w f → Direct w f') := by
  have hnodup : (live.filter (· ≠ c)).Nodup := h.nodup.filter _
  obtain ⟨p, hp⟩ := (h.named (w.split c).1).mpr ⟨c, hc, rfl⟩
  obtain ⟨e, he, hlists⟩ := h.entry _ p hp
  have hlists' := hlists.remove hc
  refine ⟨_, processForget_of_some hp he, ?_⟩
  split
  next hnil =>
    refine ⟨h.eraseEntry hp hnodup hlists' ?_ ?_, ?_⟩
    · intro dir' e' hne hother
      exact hother.filter_of_ne hne
    · intro dir'
      by_cases heq : dir' = (w.split c).1
      · subst heq
        have hnone := hlists'.keys_eq_nil_iff.mp hnil
        constructor
        · rintro ⟨x, hx, hdir⟩
          exact absurd hdir (hnone x hx)
        · intro hand
          exact absurd rfl hand.1
      · rw [exists_split_filter (Ne.symm heq)]
        exact ⟨fun hex => ⟨heq, hex⟩, fun hand => hand.2⟩
    · intro hclean hdirect
      exact hdirect.eraseEntry h hclean hc hlists'.dir_eq hlists'.wd_eq
  next hkeys =>
    refine ⟨h.setEntry hp hnodup hlists' ?_ ?_, fun _ hdirect => hdirect⟩
    · intro dir' e' hne hother
      exact hother.filter_of_ne hne
    · intro dir'
      by_cases heq : dir' = (w.split c).1
      · subst heq
        rw [hlists'.keys_eq_nil_iff] at hkeys
        push Not at hkeys
        exact ⟨fun _ => ⟨c, hc, rfl⟩, fun _ => hkeys⟩
      · exact exists_split_filter (Ne.symm heq)

end Forget

/-! ## One event -/

/-- Who is called for an event: the observers that the class keeps under the name of the
event, in the entry that the descriptor leads to. -/
theorem Inv.processInotify (h : Inv w live f) (event : InotifyEvent) :
    ∃ calls, f.processInotify [event] = some calls ∧ (calls.map Prod.fst).Nodup ∧
      ∀ c, c ∈ calls.map Prod.fst ↔
        event.name ≠ [] ∧ c ∈ live ∧ (w.split c).2 = event.name ∧
          ∃ p, f.wdEntryMap event.wd = some p ∧ f.nameEntryMap (w.split c).1 = some p := by
  have hone : f.processInotify [event] = f.notify event := by
    simp only [Monitor.processInotify, List.mapM_cons, List.mapM_nil]
    cases f.notify event <;> simp
  rw [hone, Monitor.notify]
  by_cases hname : event.name = []
  · rw [if_pos hname]
    exact ⟨[], rfl, List.nodup_nil, fun c => by simp [hname]⟩
  rw [if_neg hname]
  cases hwd : f.wdEntryMap event.wd with
  | none => exact ⟨[], rfl, List.nodup_nil, fun c => by simp⟩
  | some p =>
    obtain ⟨dir, hdir, hwatch⟩ := h.watched _ p hwd
    obtain ⟨e, he, hlists⟩ := h.entry dir p hdir
    have hfst : ∀ l : List Cookie, (l.map fun c => (c, toEvent event.mask)).map Prod.fst = l := by
      intro l
      rw [List.map_map]
      exact List.map_id l
    simp only [he]
    refine ⟨_, rfl, ?_, ?_⟩
    · rw [hfst, hlists.lookup_eq, getD_filled]
      exact h.nodup.filter _
    · intro c
      rw [hfst, hlists.lookup_eq, getD_filled, mem_listed]
      constructor
      · rintro ⟨hc, hsplit⟩
        rw [hsplit]
        exact ⟨hname, hc, rfl, p, rfl, hdir⟩
      · rintro ⟨_, hc, hbase, p', hp', hdir'⟩
        cases hp'
        exact ⟨hc, Prod.ext (h.name_eq hdir' hdir) hbase⟩

/-- **Clean observers are called** when each descriptor leads to its entry. -/
theorem Inv.exact (h : Inv w live f) (hclean : AllClean w live) (hdirect : Direct w f) :
    Exact w live f := by
  intro d event hevent
  obtain ⟨calls, hcalls, hnodup, hmem⟩ := h.processInotify event
  refine ⟨calls, hcalls, hnodup, fun c => (hmem c).trans ?_⟩
  constructor
  · rintro ⟨_, hc, hbase, p, hwd, hp⟩
    have hsplit := w.split_of_notMem (hclean.noBackslash c hc)
    obtain ⟨dir, hdir, hwatch⟩ := h.watched _ p hwd
    obtain rfl := h.name_eq hdir hp
    rw [hsplit] at hbase hwatch
    exact ⟨hc, w.watch_injective (hwatch.trans hevent), hbase⟩
  · rintro ⟨hc, rfl, hname⟩
    have hsplit := w.split_of_notMem (hclean.noBackslash c hc)
    obtain ⟨p, hp⟩ := (h.named (w.split c).1).mpr ⟨c, hc, rfl⟩
    refine ⟨hname ▸ (w.file c).name_ne, hc, ?_, p, ?_, hp⟩
    · rw [hsplit]
      exact hname
    · have hwd := hdirect _ p hp
      rw [hsplit] at hwd
      rw [hevent]
      exact hwd

/-- **Observers that are called are clean**: a name with a backslash is not looked up, and one
descriptor does not lead to two entries. -/
theorem Inv.allClean (h : Inv w live f) (hexact : Exact w live f) : AllClean w live := by
  -- an event for the file of an observer
  have hcalled : ∀ c ∈ live, (w.split c).2 = (w.file c).name ∧
      ∃ p, f.wdEntryMap (w.inotifyAddWatch (w.file c).dir) = some p ∧
        f.nameEntryMap (w.split c).1 = some p := by
    intro c hc
    let event : InotifyEvent := ⟨w.inotifyAddWatch (w.file c).dir, 0, (w.file c).name⟩
    obtain ⟨calls, hcalls, _, hmem⟩ := hexact (w.resolve (w.file c).dir) event rfl
    obtain ⟨calls', hcalls', _, hmem'⟩ := h.processInotify event
    rw [hcalls] at hcalls'
    cases hcalls'
    obtain ⟨_, _, hbase, hp⟩ := (hmem' c).mp ((hmem c).mpr ⟨hc, rfl, rfl⟩)
    exact ⟨hbase, hp⟩
  have hback : ∀ c ∈ live, '\\' ∉ (w.file c).name := by
    intro c hc
    rw [← (hcalled c hc).1]
    exact w.notMem_split c
  refine ⟨hback, ?_⟩
  intro c hc c' hc' hsame
  obtain ⟨_, p, hwd, hp⟩ := hcalled c hc
  obtain ⟨_, p', hwd', hp'⟩ := hcalled c' hc'
  rw [← w.inotifyAddWatch_eq_iff] at hsame
  rw [hsame, hwd', Option.some.injEq] at hwd
  subst hwd
  have hdir := h.name_eq hp hp'
  rw [w.split_of_notMem (hback c hc), w.split_of_notMem (hback c' hc')] at hdir
  exact hdir

/-! ## All commands -/

section Runs

variable [DecidableEq Cookie] {cmds : List (Command Cookie)} {cmd : Command Cookie}

theorem observed_append (cmds : List (Command Cookie)) (cmd : Command Cookie) :
    observed (cmds ++ [cmd]) = cmd.apply (observed cmds) := by
  simp [observed]

theorem processCommand_append (w : World Cookie Dir) (cmds : List (Command Cookie))
    (cmd : Command Cookie) (f : Monitor Cookie) :
    processCommand w (cmds ++ [cmd]) f = (processCommand w cmds f).bind (process w · cmd) := by
  simp [processCommand]

theorem valid_nil : Valid ([] : List (Command Cookie)) := by
  intro before cmd hpre
  simp at hpre

theorem Valid.append (h : Valid cmds) (henabled : Enabled (observed cmds) cmd) :
    Valid (cmds ++ [cmd]) := by
  intro before cmd' hpre
  rcases List.prefix_concat_iff.mp hpre with heq | hpre
  · obtain ⟨rfl, hcmd⟩ := List.append_inj' heq rfl
    cases hcmd
    exact henabled
  · exact h before cmd' hpre

theorem Valid.earlier {cmds' : List (Command Cookie)} (h : Valid cmds) (hpre : cmds' <+: cmds) :
    Valid cmds' := fun before cmd hbefore => h before cmd (hbefore.trans hpre)

/-- One command, as it was given. -/
theorem Inv.process (h : Inv w live f) (henabled : Enabled live cmd) :
    ∃ f', process w f cmd = some f' ∧ Inv w (cmd.apply live) f' ∧
      (AllClean w live → AllClean w (cmd.apply live) → Direct w f → Direct w f') := by
  cases cmd with
  | observe c =>
    obtain ⟨f', hrun, hinv, hdirect⟩ := h.observe henabled
    exact ⟨f', hrun, hinv, fun _ => hdirect⟩
  | forget c =>
    obtain ⟨f', hrun, hinv, hdirect⟩ := h.forget henabled
    exact ⟨f', hrun, hinv, fun hclean _ => hdirect hclean⟩

/-- **After any commands** the maps are in order; and each descriptor leads to its entry when
the observers were clean all the time. -/
theorem processCommand_inv (w : World Cookie Dir) (hvalid : Valid cmds) :
    ∃ f, processCommand w cmds Monitor.init = some f ∧ Inv w (observed cmds) f ∧
      ((∀ before, before <+: cmds → AllClean w (observed before)) → Direct w f) := by
  induction cmds using List.reverseRecOn with
  | nil =>
    refine ⟨Monitor.init, rfl, Inv.init w, ?_⟩
    intro _ dir p hp
    cases hp
  | append_singleton cmds cmd ih =>
    have hpre := List.prefix_append cmds [cmd]
    obtain ⟨f, hrun, hinv, hdirect⟩ := ih (hvalid.earlier hpre)
    obtain ⟨f', hstep, hinv', hdirect'⟩ := hinv.process (hvalid cmds cmd List.prefix_rfl)
    refine ⟨f', ?_, ?_, ?_⟩
    · rw [processCommand_append, hrun, Option.bind_some, hstep]
    · rw [observed_append]
      exact hinv'
    · intro hclean
      apply hdirect' (hclean cmds hpre)
      · rw [← observed_append]
        exact hclean _ List.prefix_rfl
      · exact hdirect fun before hbefore => hclean before (hbefore.trans hpre)

/-- Observers stay clean when each of them was clean as it came. -/
theorem allClean_observed (h : ∀ before c, before ++ [.observe c] <+: cmds →
    Clean w (observed before) c) : AllClean w (observed cmds) := by
  induction cmds using List.reverseRecOn with
  | nil =>
    exact ⟨fun _ hc => absurd hc List.not_mem_nil, fun _ hc => absurd hc List.not_mem_nil⟩
  | append_singleton cmds cmd ih =>
    have hpre := List.prefix_append cmds [cmd]
    have hold := ih fun before c hbefore => h before c (hbefore.trans hpre)
    rw [observed_append]
    cases cmd with
    | observe c => exact allClean_append_iff.mpr ⟨hold, h cmds c List.prefix_rfl⟩
    | forget c => exact hold.mono (List.filter_subset_self _)

/-- **Who is called back.**  For any commands, given as they can be: after each of them, every
event in a directory calls exactly the observers of the file, once each, if and only if each
observed file has no backslash in its name and its directory was not observed under another
name at that time. -/
theorem exact_iff_clean (w : World Cookie Dir) (cmds : List (Command Cookie))
    (hvalid : Valid cmds) :
    (∀ before, before <+: cmds →
      ∃ f, processCommand w before Monitor.init = some f ∧ Exact w (observed before) f) ↔
    ∀ before c, before ++ [.observe c] <+: cmds → Clean w (observed before) c := by
  constructor
  · intro hexact before c hbefore
    obtain ⟨f, hrun, hinv, _⟩ := processCommand_inv w (hvalid.earlier hbefore)
    obtain ⟨f', hrun', hcalled⟩ := hexact _ hbefore
    rw [hrun] at hrun'
    cases hrun'
    have hclean := hinv.allClean hcalled
    rw [observed_append] at hclean
    exact (allClean_append_iff.mp hclean).2
  · intro hclean before hbefore
    obtain ⟨f, hrun, hinv, hdirect⟩ := processCommand_inv w (hvalid.earlier hbefore)
    have hall : ∀ earlier, earlier <+: before → AllClean w (observed earlier) := by
      intro earlier hearlier
      apply allClean_observed
      intro first c hfirst
      exact hclean first c ((hfirst.trans hearlier).trans hbefore)
    exact ⟨f, hrun, hinv.exact (hall before List.prefix_rfl) (hdirect hall)⟩

/-- Two files of one directory. -/
def twoFiles : World Bool Unit where
  file c := ⟨['/', 'a'], [if c then 'y' else 'x'], List.cons_ne_nil _ _, by cases c <;> decide⟩
  resolve _ := ()
  watch _ := 1
  watch_ne := fun _ => by decide
  watch_injective := fun _ _ _ => rfl

theorem valid_two : Valid [Command.observe false, .observe true] := by
  have hfirst : Valid [Command.observe false] := valid_nil.append (by decide)
  exact hfirst.append (by decide)

/-- Both are observed, and then one of them is forgotten. -/
theorem exact_iff_clean_forget :
    Valid [Command.observe false, .observe true, .forget false] ∧
      ∃ f, processCommand twoFiles [.observe false, .observe true, .forget false] Monitor.init =
          some f ∧
        Exact twoFiles [true] f := by
  have hvalid : Valid [Command.observe false, .observe true, .forget false] :=
    valid_two.append (by decide)
  refine ⟨hvalid, (exact_iff_clean twoFiles _ hvalid).mpr ?_ _ List.prefix_rfl⟩
  intro before c hpre
  exact ⟨by cases c <;> decide, fun c' _ _ => rfl⟩

/-- One directory with two names, and a file in it observed under each of them. -/
def twoNames : World Bool Unit where
  file c := ⟨['/', if c then 'b' else 'a'], ['x'], by decide, by decide⟩
  resolve _ := ()
  watch _ := 1
  watch_ne := fun _ => by decide
  watch_injective := fun _ _ _ => rfl

/-- The observer under the first name is not called any more. -/
theorem first_name_not_called :
    Valid [Command.observe false, .observe true] ∧
      ∃ f, processCommand twoNames [.observe false, .observe true] Monitor.init = some f ∧
        f.processInotify [⟨1, 2, ['x']⟩] = some [(true, .modify)] ∧
        ¬Exact twoNames (observed [.observe false, .observe true]) f := by
  refine ⟨valid_two, _, rfl, rfl, ?_⟩
  intro hexact
  obtain ⟨calls, hcalls, _, hmem⟩ := hexact () ⟨1, 2, ['x']⟩ rfl
  have hsome : some calls = some [(true, Event.modify)] := hcalls.symm
  cases hsome
  exact absurd ((hmem false).mpr ⟨by decide, rfl, rfl⟩) (by decide)

end Runs

end Rtp.Util.FileMonitor
