import Rtp.Qed.Runs

/-!
# A table built by `Insert`s alone

Without `OptimizeFreeBucket` no node ever leaves the free table, so a home slot is never
occupied by a node of another chain (`Unshared`), and every run of `Insert`s fits as long as
no root has to count more than 127 nodes.

* `insertAll_correct` — with at most 127 distinct keys to a home slot, each `Insert` fails
  and changes nothing that is found, or changes what is found under its own key only.
* `insertAll_keepsKeys_iff` — **without the bound**: a run of `Insert`s keeps all its keys
  and counts them rightly exactly when no call appends to a root that counts 127 nodes.
* `insertAll_crowded` — the smallest run that does: 128 keys with one home slot.
-/

namespace Rtp.Qed

open Mask Assoc Run Builder

/-- One `Insert` of a key with a payload. -/
def insertStep (fuel : ℕ) (c : BitVec 64 × BitVec 64) (σ : Builder) :
    Except Fault (Location × Builder) :=
  insert fuel c.1 c.2 allMask64 σ

/-- What a run of `Insert`s leaves behind. -/
abbrev InsertHistory : Type := List ((BitVec 64 × BitVec 64) × Location)

/-- The same, as a history of calls. -/
def InsertHistory.calls (history : InsertHistory) : List (Call × Result) :=
  history.map fun e => (.insert e.1.1 e.1.2, .inserted e.2)

/-- A table no managed bucket of which holds a node of another chain. -/
structure Unshared (σ : Builder) : Prop where
  empty : ∀ h, (σ.bucketAt ⟨true, h⟩).size = 0#8 → σ.rootIdAt ⟨true, h⟩ = allMask64
  flag : ∀ h, (σ.bucketAt ⟨true, h⟩).sizeField &&& sizeFieldHiMask = 0#8

theorem unshared_reserved (b : BucketType) : Unshared (reserved b) :=
  ⟨fun _ _ => rfl, fun _ => show RawBucket.zero.sizeField &&& sizeFieldHiMask = 0#8 by decide⟩

variable {b : BucketType} {history : InsertHistory} {σ τ : Builder}
  {keyId payload : BitVec 64} {loc : Location}

theorem Unshared.not_occupied (h : Unshared σ) (keyId : BitVec 64) : ¬ σ.Occupied keyId :=
  fun hocc => hocc.2 (h.empty _ hocc.1)

theorem Unshared.sizeField_ne (h : Unshared σ) (slot : BitVec 64) :
    (σ.bucketAt ⟨true, slot⟩).sizeField ≠ 0xFF#8 := by
  intro hff
  have hf := h.flag slot
  rw [hff] at hf
  exact absurd hf (by decide)

theorem Unshared.filled (h : Unshared σ) : Unshared (σ.filled keyId payload) := by
  refine ⟨fun h' hs => ?_, fun h' => ?_⟩
  · by_cases hh : (⟨true, h'⟩ : Location) = ⟨true, σ.home keyId⟩
    · rw [hh, bucketAt_filled, Function.update_self] at hs
      exact absurd hs (show ¬ 1#8 &&& ~~~sizeFieldHiMask = 0#8 by decide)
    · rw [bucketAt_filled, Function.update_of_ne hh] at hs
      rw [rootIdAt_filled, Function.update_of_ne hh, h.empty h' hs]
  · by_cases hh : (⟨true, h'⟩ : Location) = ⟨true, σ.home keyId⟩
    · rw [hh, bucketAt_filled, Function.update_self]
      exact show 1#8 &&& sizeFieldHiMask = 0#8 by decide
    · rw [bucketAt_filled, Function.update_of_ne hh]
      exact h.flag h'

theorem Unshared.overwritten (h : Unshared σ) (loc : Location) (p : BitVec 56) :
    Unshared (σ.overwritten loc p) := by
  refine ⟨fun h' hs => ?_, fun h' => ?_⟩
  · rw [size_overwritten] at hs
    rw [show (σ.overwritten loc p).rootIdAt = σ.rootIdAt from σ.rootIdAt_setBucket _ _]
    exact h.empty h' hs
  · rw [sizeField_overwritten]
    exact h.flag h'

theorem Unshared.appended (h : Unshared σ) {last : Location} (hlast : last ≠ σ.slot)
    (hlt : (σ.bucketAt ⟨true, σ.home keyId⟩).size.toNat < 127) :
    Unshared (σ.appended keyId payload last) := by
  have hlink : ∀ h', ((σ.withLink keyId payload last).bucketAt ⟨true, h'⟩).sizeField &&&
      sizeFieldHiMask = 0#8 := by
    intro h'
    rw [bucketAt_withLink hlast]
    by_cases hl : ⟨true, h'⟩ = last
    · rw [hl, Function.update_self]
      have hcleared : ∀ x : BitVec 8, RawBucket.flagged x false &&& sizeFieldHiMask = 0#8 := by
        decide
      exact hcleared _
    · rw [Function.update_of_ne hl, Function.update_of_ne (root_ne_slot _)]
      exact h.flag h'
  refine ⟨fun h' hs => ?_, fun h' => ?_⟩
  · rw [rootIdAt_appended, Function.update_of_ne (root_ne_slot _)]
    by_cases hh : (⟨true, h'⟩ : Location) = ⟨true, σ.home keyId⟩
    · -- the root has been counted up
      have hsize : ((σ.appended keyId payload last).bucketAt ⟨true, h'⟩).size.toNat =
          (σ.bucketAt ⟨true, h'⟩).size.toNat + 1 := by
        rw [hh]; exact toNat_size_appended hlast hlt
      rw [hs] at hsize
      simp at hsize
    · rw [size_appended hlast (root_ne_slot _) hh] at hs
      exact h.empty h' hs
  · by_cases hh : (⟨true, h'⟩ : Location) = ⟨true, σ.home keyId⟩
    · rw [hh, bucketAt_appended_root, RawBucket.flag_counted]
      · exact hlink _
      · rwa [size_withLink _ _ hlast (root_ne_slot _)]
    · rw [bucketAt_appended_of_ne hh]
      exact hlink h'

theorem Unshared.inserted (h : Unshared σ) (hi : Inserted σ keyId payload loc τ) (hσ : σ.Sound)
    (hover : ¬ σ.Overflows keyId) : Unshared τ := by
  cases hi with
  | fill => exact h.filled
  | overwrite => exact h.overwritten _ _
  | append last hlast hfree hflag hnew =>
    exact h.appended (last_ne_slot (hσ.chains _ (σ.inBounds_home keyId)).wf hlast)
      (size_lt_of_not_overflows hover hfree hflag hnew)

/-- An `Insert` takes at most one free bucket. -/
theorem freeIdCount_inserted (hi : Inserted σ keyId payload loc τ) :
    τ.freeIdCount.toNat ≤ σ.freeIdCount.toNat + 1 := by
  cases hi with
  | fill => rw [freeIdCount_filled]; omega
  | overwrite =>
    rw [show (σ.overwritten loc (payload.setWidth 56)).freeIdCount = σ.freeIdCount from
      σ.freeIdCount_setBucket _ _]
    omega
  | append last hlast hfree => rw [freeIdCount_appended, toNat_freeIdCount_succ hfree]

/-- The invariant of a run of `Insert`s: no managed bucket is shared, and at most one free
bucket has been taken by each call. -/
structure InsertInv (b : BucketType) (history : InsertHistory) (σ : Builder) : Prop where
  inv : Inv b history.calls σ
  unshared : Unshared σ
  count_le : σ.freeIdCount.toNat ≤ history.length

theorem insertInv_reserved (b : BucketType) : InsertInv b [] (reserved b) :=
  ⟨inv_reserved b, unshared_reserved b, Nat.le_refl 0⟩

theorem calls_concat (history : InsertHistory) (c : BitVec 64 × BitVec 64) (loc : Location) :
    InsertHistory.calls (history ++ [(c, loc)]) =
      history.calls ++ [(.insert c.1 c.2, .inserted loc)] := by
  simp [InsertHistory.calls]

theorem keys_calls (history : InsertHistory) :
    (history.calls.map Prod.fst).filterMap Call.key? = (history.map Prod.fst).map Prod.fst := by
  rw [InsertHistory.calls, List.map_map, List.filterMap_map, List.map_map, ← List.filterMap_eq_map]
  rfl

/-- What an `Insert` that fits does, in a run of `Insert`s: it fails, for want of a free
bucket, or it stores its key. -/
theorem InsertInv.insert (h : InsertInv b history σ) (hover : ¬ σ.Overflows keyId)
    (payload : BitVec 64) (fuel : ℕ) :
    ∃ loc τ, Builder.insert (fuel + 1) keyId payload allMask64 σ = .ok (loc, τ) ∧
      InsertInv b (history ++ [((keyId, payload), loc)]) τ ∧
      ((loc = notInserted ∧ τ = σ ∧ ¬ σ.freeIdCount.ult σ.capacity) ∨
        (loc.id ≠ hashtableNFound ∧ Stores σ τ keyId payload)) := by
  rcases insert_cases h.inv.sound (h.unshared.not_occupied keyId) payload fuel with
    ⟨hfail, hwhy⟩ | ⟨loc, τ, hok, hi⟩
  · refine ⟨notInserted, σ, hfail, ⟨?_, h.unshared, ?_⟩,
      Or.inl ⟨rfl, rfl, hwhy.resolve_left (h.unshared.sizeField_ne _)⟩⟩
    · rw [calls_concat]; exact h.inv.insert_failed keyId payload
    · rw [List.length_append]
      exact h.count_le.trans (Nat.le_add_right _ _)
  · refine ⟨loc, τ, hok, ⟨?_, h.unshared.inserted hi h.inv.sound hover, ?_⟩,
      Or.inr ⟨hi.id_ne_nfound h.inv.sound, hi.stores h.inv.sound hover⟩⟩
    · rw [calls_concat]; exact h.inv.inserted hi hover
    · rw [List.length_append, List.length_singleton]
      have hle := freeIdCount_inserted hi
      have hle' := h.count_le
      omega

/-- No call of the run overflows the size of a root. -/
def NeverOverflows (b : BucketType) (fuel : ℕ) (calls : List (BitVec 64 × BitVec 64)) : Prop :=
  Along (insertStep fuel) (fun σ c => ¬ σ.Overflows c.1) calls (reserved b)

theorem insertStep_inv (fuel : ℕ) (history : InsertHistory) (σ : Builder)
    (c : BitVec 64 × BitVec 64) (h : InsertInv b history σ) (hover : ¬ σ.Overflows c.1) :
    ∃ loc τ, insertStep (fuel + 1) c σ = .ok (loc, τ) ∧ InsertInv b (history ++ [(c, loc)]) τ := by
  obtain ⟨loc, τ, hok, hinv, -⟩ := h.insert hover c.2 fuel
  exact ⟨loc, τ, hok, hinv⟩

/-- With at most 127 distinct keys to a home slot, no call overflows. -/
theorem neverOverflows_of_card {calls : List (BitVec 64 × BitVec 64)} (fuel : ℕ)
    (hcrowd : ∀ slot, (keysAt b slot (calls.map Prod.fst)).card ≤ 127) :
    NeverOverflows b (fuel + 1) calls := by
  refine along_of (P := fun _ _ => True) (I := InsertInv b) (l := calls) ?_ ?_
    (insertInv_reserved b) rfl (along_of_forall fun _ _ => trivial)
  · intro history σ c cs hinv hall _
    refine hinv.inv.not_overflows (fun k hk => ?_) hcrowd
    rw [← hall, List.map_append, List.mem_append, ← keys_calls]
    refine (List.mem_append.1 hk).imp_right fun hk => ?_
    rw [List.mem_singleton.1 hk]
    exact List.mem_cons_self ..
  · intro history σ c r τ hinv hover hok
    obtain ⟨loc, τ', hok', hinv'⟩ := insertStep_inv fuel history σ c hinv hover
    rw [hok, Except.ok.injEq, Prod.mk.injEq] at hok'
    rwa [hok'.1, hok'.2]

/-- Each call of a run without overflows fails and changes nothing, or stores its payload. -/
theorem insert_of_neverOverflows {before after : List (BitVec 64 × BitVec 64)}
    {keyId payload : BitVec 64} {fuel : ℕ}
    (halong : NeverOverflows b (fuel + 1) (before ++ (keyId, payload) :: after)) :
    ∃ history σ loc τ,
      run (insertStep (fuel + 1)) before (reserved b) = .ok (history, σ) ∧
      Builder.insert (fuel + 1) keyId payload allMask64 σ = .ok (loc, τ) ∧
      ((loc = notInserted ∧ τ = σ) ∨ (loc.id ≠ hashtableNFound ∧ Stores σ τ keyId payload)) := by
  obtain ⟨history, σ, hrun, hinv, hover⟩ := run_before_of_along (I := InsertInv b)
    (insertStep_inv fuel) (insertInv_reserved b) halong
  obtain ⟨loc, τ, hok, -, hres⟩ := hinv.insert hover payload fuel
  refine ⟨history, σ, loc, τ, hrun, hok, ?_⟩
  rcases hres with ⟨hloc, hτ, -⟩ | hstored
  · exact .inl ⟨hloc, hτ⟩
  · exact .inr hstored

/-- **A run of `Insert`s is correct.**  Take any `Insert`s on a reserved table in which at
most 127 distinct keys share a home slot.  Every one of them returns; it fails and leaves
what is found under every key as it was, or afterwards its payload, modulo `2 ^ 56`, is
found under its key, and under every other key what was found before.  At the end, the
payload of the last successful `Insert` is found under every key. -/
theorem insertAll_correct {calls : List (BitVec 64 × BitVec 64)} (fuel : ℕ)
    (hcrowd : ∀ slot, (keysAt b slot (calls.map Prod.fst)).card ≤ 127) :
    (∀ before keyId payload after, calls = before ++ (keyId, payload) :: after →
      ∃ history σ loc τ,
        run (insertStep (fuel + 1)) before (reserved b) = .ok (history, σ) ∧
        insert (fuel + 1) keyId payload allMask64 σ = .ok (loc, τ) ∧
        ((loc.id = hashtableNFound ∧ ∀ k, τ.find k = σ.find k) ∨
          (loc.id ≠ hashtableNFound ∧
            τ.find keyId = BitVec.ofNat 64 (payload.toNat % 2 ^ 56) ∧
            ∀ k, k ≠ keyId → τ.find k = σ.find k))) ∧
    ∃ history σ, run (insertStep (fuel + 1)) calls (reserved b) = .ok (history, σ) ∧
      ∀ k, σ.find k = lastStored (InsertHistory.calls history) k := by
  have halong := neverOverflows_of_card fuel hcrowd
  constructor
  · rintro before keyId payload after rfl
    obtain ⟨history, σ, loc, τ, hrun, hok, hres⟩ := insert_of_neverOverflows halong
    refine ⟨history, σ, loc, τ, hrun, hok, ?_⟩
    rcases hres with ⟨rfl, rfl⟩ | ⟨hne, hs⟩
    · exact .inl ⟨rfl, fun k => rfl⟩
    · refine .inr ⟨hne, ?_, fun k hk => ?_⟩
      · rw [hs.find, if_pos rfl]
      · rw [hs.find, if_neg hk]
  · obtain ⟨history, σ, hrun, hinv⟩ := run_of_along (I := InsertInv b) (insertStep_inv fuel)
      (insertInv_reserved b) halong
    exact ⟨history, σ, hrun, hinv.inv.find⟩

/-- A key that gets a second payload. -/
theorem insertAll_correct_twice :
    ∃ history σ, run (insertStep 1) [(0, 10), (4, 20), (0, 30)] (reserved smallest) =
        .ok (history, σ) ∧ ∀ k, σ.find k = lastStored (InsertHistory.calls history) k :=
  (insertAll_correct 0 fun slot => (card_keysAt_le _ _ _).trans (by decide)).2

/-! ## Without the bound -/

/-- The size at every root is the number of distinct keys stored with its home slot. -/
def Accounted (b : BucketType) (history : InsertHistory) (σ : Builder) : Prop :=
  ∀ slot, σ.inBounds ⟨true, slot⟩ →
    (σ.bucketAt ⟨true, slot⟩).size.toNat = (keysAt b slot (storedKeys history.calls)).card

/-- A run of `Insert`s that loses no key: every state it reaches counts its keys rightly,
no call makes a key unfindable, and a call that fails leaves everything as it was. -/
def KeepsKeys (b : BucketType) (fuel : ℕ) (calls : List (BitVec 64 × BitVec 64)) : Prop :=
  (∀ n, ∃ history σ, run (insertStep fuel) (calls.take n) (reserved b) = .ok (history, σ) ∧
    Accounted b history σ) ∧
  ∀ before keyId payload after, calls = before ++ (keyId, payload) :: after →
    ∃ history σ loc τ, run (insertStep fuel) before (reserved b) = .ok (history, σ) ∧
      insert fuel keyId payload allMask64 σ = .ok (loc, τ) ∧
      (∀ k, σ.find k ≠ hashtableNFound → τ.find k ≠ hashtableNFound) ∧
      (loc.id = hashtableNFound → ∀ k, τ.find k = σ.find k)

theorem InsertInv.accounted (h : InsertInv b history σ) : Accounted b history σ := by
  intro slot hb
  rw [← card_keysOf h.inv.sound hb]
  congr 1
  ext k
  rw [mem_keysOf hb, mem_keysAt, mem_storedKeys, h.inv.find, home, mask, h.inv.bucketType]
  exact and_comm

/-- **An `Insert` that overflows loses keys**: it succeeds, and no key of its home slot is
found afterwards. -/
theorem InsertInv.insert_of_overflows (h : InsertInv b history σ) (hover : σ.Overflows keyId)
    (payload : BitVec 64) (fuel : ℕ) :
    ∃ loc τ, Builder.insert (fuel + 1) keyId payload allMask64 σ = .ok (loc, τ) ∧
      loc.id ≠ hashtableNFound ∧ ∀ k, σ.home k = σ.home keyId → τ.find k = hashtableNFound := by
  rcases insert_cases h.inv.sound (h.unshared.not_occupied keyId) payload fuel with
    ⟨-, hwhy⟩ | ⟨loc, τ, hok, hi⟩
  · exact absurd (hwhy.resolve_left hover.2.1) (not_not_intro hover.2.2.2)
  · exact ⟨loc, τ, hok, hi.id_ne_nfound h.inv.sound, fun k hk =>
      hi.find_of_overflows h.inv.sound hover hk⟩

/-- **When a run of `Insert`s keeps its keys.**  With no bound on the number of keys to a
home slot: every state counts its keys rightly, no call makes a stored key unfindable and a
call that fails changes nothing, exactly when no call stores a new key in a home slot whose
root counts 127 nodes while a free bucket is left. -/
theorem insertAll_keepsKeys_iff (b : BucketType) (fuel : ℕ)
    (calls : List (BitVec 64 × BitVec 64)) :
    KeepsKeys b (fuel + 1) calls ↔ NeverOverflows b (fuel + 1) calls := by
  constructor
  · rintro ⟨-, hkeep⟩
    -- the invariant, together with the run that leads to the state
    refine along_of (P := fun _ _ => True)
      (I := fun history σ => InsertInv b history σ ∧
        run (insertStep (fuel + 1)) (history.map Prod.fst) (reserved b) = .ok (history, σ))
      (l := calls) ?_ ?_ ⟨insertInv_reserved b, rfl⟩ rfl (along_of_forall fun _ _ => trivial)
    · intro history σ c cs ⟨hinv, hrun⟩ hall _ hover
      obtain ⟨keyId, payload⟩ := c
      obtain ⟨history', σ', loc, τ, hrun', hok, hfind, -⟩ := hkeep _ keyId payload cs hall.symm
      rw [hrun, Except.ok.injEq, Prod.mk.injEq] at hrun'
      obtain ⟨rfl, rfl⟩ := hrun'
      obtain ⟨loc', τ', hok', -, hlost⟩ := hinv.insert_of_overflows hover payload fuel
      rw [hok, Except.ok.injEq, Prod.mk.injEq] at hok'
      obtain ⟨rfl, rfl⟩ := hok'
      obtain ⟨k, hk, hfound⟩ := exists_key (σ.inBounds_home keyId)
        (by rw [hover.1]; decide)
      exact hfind k hfound (hlost k hk)
    · intro history σ c loc τ ⟨hinv, hrun⟩ hover hok
      obtain ⟨loc', τ', hok', hinv'⟩ := insertStep_inv fuel history σ c hinv hover
      rw [hok, Except.ok.injEq, Prod.mk.injEq] at hok'
      obtain ⟨rfl, rfl⟩ := hok'
      refine ⟨hinv', ?_⟩
      rw [List.map_append]
      exact run_append hrun (run_singleton hok)
  · intro halong
    refine ⟨fun n => ?_, ?_⟩
    · obtain ⟨history, σ, hrun, hinv⟩ := run_of_along (I := InsertInv b) (insertStep_inv fuel)
        (insertInv_reserved b) (halong.take n)
      exact ⟨history, σ, hrun, hinv.accounted⟩
    · rintro before keyId payload after rfl
      obtain ⟨history, σ, loc, τ, hrun, hok, hres⟩ := insert_of_neverOverflows halong
      refine ⟨history, σ, loc, τ, hrun, hok, ?_⟩
      rcases hres with ⟨rfl, rfl⟩ | ⟨hne, hs⟩
      · exact ⟨fun _ h => h, fun _ _ => rfl⟩
      · refine ⟨fun k hk => ?_, fun h => absurd h hne⟩
        rw [hs.find]
        split
        · rw [← foundPayload_some]; exact foundPayload_ne _
        · exact hk

/-! ### The smallest run that loses its keys -/

/-- The bucket type with 128 home slots. -/
def seven : BucketType := ⟨7, by decide⟩

/-- Keys with the home slot `0`. -/
def crowd (n : ℕ) : List (BitVec 64 × BitVec 64) :=
  (List.range n).map fun i => (BitVec.ofNat 64 (128 * i), BitVec.ofNat 64 i)

theorem crowd_succ (n : ℕ) :
    crowd (n + 1) = crowd n ++ [(BitVec.ofNat 64 (128 * n), BitVec.ofNat 64 n)] := by
  rw [crowd, List.range_succ, List.map_append]
  rfl

theorem nodup_crowd {n : ℕ} (hn : n ≤ 127) : ((crowd n).map Prod.fst).Nodup := by
  rw [crowd, List.map_map]
  refine List.Nodup.map_on (fun i hi j hj heq => ?_) List.nodup_range
  have htoNat := congrArg BitVec.toNat heq
  rw [List.mem_range] at hi hj
  simp only [Function.comp_apply, BitVec.toNat_ofNat] at htoNat
  omega

theorem home_crowd (n : ℕ) :
    ∀ k ∈ (crowd n).map Prod.fst, k &&& ~~~keyInfoHiMask seven.1 = 0#64 := by
  intro k hk
  simp only [crowd, List.map_map, List.mem_map, List.mem_range, Function.comp_apply] at hk
  obtain ⟨i, _, rfl⟩ := hk
  have hmask : ~~~keyInfoHiMask seven.1 = BitVec.ofNat 64 (2 ^ 7 - 1) := by decide
  rw [hmask]
  apply BitVec.eq_of_toNat_eq
  rw [BitVec.toNat_and, BitVec.toNat_ofNat, BitVec.toNat_ofNat,
    Nat.mod_eq_of_lt (by decide : 2 ^ 7 - 1 < 2 ^ 64), Nat.and_two_pow_sub_one_eq_mod]
  simp

/-- The first 127 of them are all stored. -/
theorem run_crowd {n : ℕ} (hn : n ≤ 127) :
    ∃ history σ, run (insertStep 1) (crowd n) (reserved seven) = .ok (history, σ) ∧
      InsertInv seven history σ ∧
      storedKeys (InsertHistory.calls history) = (crowd n).map Prod.fst := by
  induction n with
  | zero => exact ⟨[], _, rfl, insertInv_reserved seven, rfl⟩
  | succ n ih =>
    obtain ⟨history, σ, hrun, hinv, hkeys⟩ := ih (by omega)
    have hlen : history.length = n := by
      have h := congrArg List.length (map_fst_history hrun)
      simpa [crowd] using h
    have hover : ¬ σ.Overflows (BitVec.ofNat 64 (128 * n)) := by
      refine hinv.inv.not_overflows (List.Subset.refl _) fun slot =>
        (card_keysAt_le _ _ _).trans ?_
      rw [keys_calls]
      simp [hlen]
      omega
    obtain ⟨loc, τ, hok, hinv', hres⟩ := hinv.insert hover (BitVec.ofNat 64 n) 0
    refine ⟨history ++ [_], τ, ?_, hinv', ?_⟩
    · rw [crowd_succ]
      exact run_append hrun (run_singleton hok)
    · rcases hres with ⟨-, -, hfull⟩ | ⟨hne, -⟩
      · -- a free bucket is left
        refine absurd ?_ hfull
        have hcap : σ.capacity.toNat = 128 := by rw [toNat_capacity, hinv.inv.bucketType]; rfl
        have hle := hinv.count_le
        rw [BitVec.ult, decide_eq_true_eq]
        omega
      · rw [calls_concat, storedKeys, List.filterMap_append, List.map_append, ← storedKeys, hkeys,
          crowd_succ, List.map_append]
        simp [storedBy, hne]

/-- **128 keys with one home slot.**  The last `Insert` succeeds, the size of the root
becomes zero, and the first key, which was found before, is not found any more. -/
theorem insertAll_crowded :
    ∃ history σ loc τ, run (insertStep 1) (crowd 127) (reserved seven) = .ok (history, σ) ∧
      insert 1 (BitVec.ofNat 64 (128 * 127)) 127 allMask64 σ = .ok (loc, τ) ∧
      loc.id ≠ hashtableNFound ∧ σ.find 0 ≠ hashtableNFound ∧ τ.find 0 = hashtableNFound := by
  obtain ⟨history, σ, hrun, hinv, hkeys⟩ := run_crowd (Nat.le_refl 127)
  have hlen : history.length = 127 := by
    have h := congrArg List.length (map_fst_history hrun)
    simpa [crowd] using h
  have hhome : ∀ k, σ.home k = k &&& ~~~keyInfoHiMask 7 := fun k => by
    rw [home, mask, hinv.inv.bucketType]; rfl
  have hhome0 : σ.home (BitVec.ofNat 64 (128 * 127)) = σ.home 0 := by
    rw [hhome, hhome]; decide
  have hover : σ.Overflows (BitVec.ofNat 64 (128 * 127)) := by
    refine ⟨?_, hinv.unshared.sizeField_ne _, ?_, ?_⟩
    · refine BitVec.eq_of_toNat_eq ?_
      have hslot : BitVec.ofNat 64 (128 * 127) &&& ~~~keyInfoHiMask 7 = 0#64 := by decide
      rw [hinv.accounted _ (σ.inBounds_home _), hkeys, hhome, hslot,
        card_keysAt_of_nodup (nodup_crowd (Nat.le_refl 127)) (home_crowd 127)]
      simp [crowd]
    · rw [hinv.inv.find]
      by_contra hne
      have hmem := mem_storedKeys.2 hne
      rw [hkeys] at hmem
      exact absurd hmem (by decide +kernel)
    · have hcap : σ.capacity.toNat = 128 := by rw [toNat_capacity, hinv.inv.bucketType]; rfl
      have hle := hinv.count_le
      rw [BitVec.ult, decide_eq_true_eq]
      omega
  obtain ⟨loc, τ, hok, hne, hlost⟩ := hinv.insert_of_overflows hover 127 0
  refine ⟨history, σ, loc, τ, hrun, hok, hne, ?_, hlost 0 hhome0.symm⟩
  rw [hinv.inv.find]
  refine mem_storedKeys.1 ?_
  rw [hkeys]
  decide +kernel

end Rtp.Qed
