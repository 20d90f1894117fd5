import Rtp.Monitor.RawMMap

/-!
# Whether the monitor file is left

`AddEntry` keeps count of the bytes that the entries take and compares it with the size of
the file, but only when the entry has been written, and without the header in front of the
entries and the sizes that end them.  So some entries are written, and some keys looked for,
behind the end of the mapping, and the check is passed.

* `addEntries` — calls of `AddEntry` one after another, as long as each of them returns.
* `HaveRoom` — each call that brings a new key has room for its entry.
* `accesses_inside_iff` — **the file is not left** exactly when the calls fit.
-/

namespace Rtp.Monitor.Mapped

open Rtp.Monitor.Mapped.RawMMapList

/-- The arguments of a call of `AddEntry`. -/
structure Call where
  key : List (BitVec 8)
  value : List (BitVec 8)

/-- Calls of `AddEntry` one after another, with all that they read and write; there is no
result when a `CHECK` fails. -/
def addEntries : List Call → RawMMapList → Option (List Access × RawMMapList)
  | [], l => some ([], l)
  | c :: calls, l => do
    let added ← l.addEntry c.key c.value
    let rest ← addEntries calls added.2.2
    some (added.2.1 ++ rest.1, rest.2)

/-- Each call that brings a new key has room behind the entries of the calls before it. -/
def HaveRoom (fileSize : ℕ) : List Record → List Call → Prop
  | _, [] => True
  | rs, c :: calls =>
    if padded c.key ∈ rs.map Record.key then HaveRoom fileSize rs calls
    else Room fileSize rs c.key c.value ∧ HaveRoom fileSize (rs ++ [recordOf c.key c.value]) calls

variable {l l' : RawMMapList} {rs : List Record} {c : Call} {calls : List Call}
  {accesses : List Access}

theorem addEntries_cons (h : addEntries (c :: calls) l = some (accesses, l')) :
    ∃ entry now between later, l.addEntry c.key c.value = some (entry, now, between) ∧
      addEntries calls between = some (later, l') ∧ accesses = now ++ later := by
  rw [addEntries] at h
  obtain ⟨⟨entry, now, between⟩, hadd, h⟩ := Option.bind_eq_some_iff.mp h
  obtain ⟨⟨later, last⟩, hrest, h⟩ := Option.bind_eq_some_iff.mp h
  cases h
  exact ⟨entry, now, between, later, hadd, hrest, rfl⟩

theorem ne_nil_of_addEntry {key value : List (BitVec 8)} {entry : ℕ}
    (h : l.addEntry key value = some (entry, accesses, l')) : key ≠ [] ∧ value ≠ [] := by
  rw [addEntry, Option.ite_none_left_eq_some] at h
  exact not_or.mp h.1

/-- The entry with a key, and those before it. -/
theorem exists_first {key : List (BitVec 8)} (h : key ∈ rs.map Record.key) :
    ∃ before r after, rs = before ++ r :: after ∧ r.key = key ∧ ∀ r' ∈ before, r'.key ≠ key := by
  induction rs with
  | nil => cases h
  | cons r rs ih =>
    by_cases hr : r.key = key
    · exact ⟨[], r, rs, rfl, hr, fun _ hmem => absurd hmem List.not_mem_nil⟩
    · have hmem : key ∈ rs.map Record.key := by
        rcases List.mem_cons.mp h with h | h
        · exact absurd h.symm hr
        · exact h
      obtain ⟨before, r', after, rfl, hkey, hfirst⟩ := ih hmem
      refine ⟨r :: before, r', after, rfl, hkey, ?_⟩
      intro x hx
      rcases List.mem_cons.mp hx with rfl | hx
      · exact hr
      · exact hfirst x hx

/-- From a file with a layout on: by induction on the calls, with the entries that the calls
before have left. -/
theorem Layout.addEntries_inside_iff (h : Layout l rs)
    (hrun : addEntries calls l = some (accesses, l')) :
    (∀ a ∈ accesses, a.Inside l.maxSize) ↔ HaveRoom l.maxSize rs calls := by
  induction calls generalizing l rs accesses with
  | nil =>
    cases hrun
    exact ⟨fun _ => trivial, fun _ _ ha => absurd ha List.not_mem_nil⟩
  | cons c calls ih =>
    obtain ⟨entry, now, between, later, hadd, hrest, rfl⟩ := addEntries_cons hrun
    obtain ⟨hkey, hvalue⟩ := ne_nil_of_addEntry hadd
    rw [List.forall_mem_append, HaveRoom]
    by_cases hmem : padded c.key ∈ rs.map Record.key
    · rw [if_pos hmem]
      obtain ⟨before, r, after, rfl, heq, hfirst⟩ := exists_first hmem
      obtain ⟨reads, hfound, hin⟩ := h.addEntry_of_mem heq hfirst hkey hvalue
      rw [hfound] at hadd
      cases hadd
      exact ⟨fun hall => (ih h hrest).mp hall.2, fun hfits => ⟨hin, (ih h hrest).mpr hfits⟩⟩
    · rw [if_neg hmem]
      have hnew : ∀ r ∈ rs, r.key ≠ padded c.key := by
        intro r hr heq
        exact hmem (heq ▸ List.mem_map_of_mem hr)
      by_cases hroom : Room l.maxSize rs c.key c.value
      · obtain ⟨parts, l₁, hwritten, hin, hlayout, hmax, _⟩ :=
          h.addEntry_of_room hnew hkey hvalue hroom
        rw [hwritten] at hadd
        cases hadd
        have hlater := ih hlayout hrest
        rw [hmax] at hlater
        exact ⟨fun hall => ⟨hroom, hlater.mp hall.2⟩, fun hfits => ⟨hin, hlater.mpr hfits.2⟩⟩
      · obtain ⟨a, ha, hout⟩ := h.outside_of_not_room hnew hroom hadd
        exact ⟨fun hall => absurd (hall.1 a ha) hout, fun hfits => absurd hfits.1 hroom⟩

/-- **When the file is left.**  On a new file of any size, whatever lies behind it in the
memory, and for any calls of `AddEntry` that all return: every byte that they read or write
through a pointer to an entry lies between `entrys_` and `end_` if and only if each of them
that brings a new key has room for the three sizes, the key and the value. -/
theorem accesses_inside_iff (maxSize : BitVec 32) (behind : ℕ → BitVec 8) (calls : List Call)
    {accesses : List Access} {l : RawMMapList}
    (hrun : addEntries calls (create maxSize behind) = some (accesses, l)) :
    (∀ a ∈ accesses, a.Inside maxSize.toNat) ↔ HaveRoom maxSize.toNat [] calls :=
  (Layout.create maxSize behind).addEntries_inside_iff hrun

/-- A counter under a key of one letter. -/
def letterCall (letter : BitVec 8) : Call := ⟨[letter, 0], List.replicate 8 0⟩

/-- Three counters, of which a file of 128 bytes has room for two. -/
def threeCalls : List Call := [letterCall 97, letterCall 98, letterCall 99]

theorem accesses_inside_iff_two :
    ∃ accesses l, addEntries (threeCalls.take 2) (create 128 fun _ => 0) = some (accesses, l) ∧
      ((∀ a ∈ accesses, a.Inside (128 : BitVec 32).toNat) ↔
        HaveRoom (128 : BitVec 32).toNat [] (threeCalls.take 2)) := by
  have hsome : (addEntries (threeCalls.take 2) (create 128 fun _ => 0)).isSome = true := by
    decide +kernel
  obtain ⟨⟨accesses, l⟩, hrun⟩ := Option.isSome_iff_exists.mp hsome
  exact ⟨accesses, l, hrun, accesses_inside_iff 128 _ _ hrun⟩

/-- The third counter is written behind the end of the file, and the check is passed. -/
theorem third_entry_outside :
    ∃ accesses l, addEntries threeCalls (create 128 fun _ => 0) = some (accesses, l) ∧
      l.size ≤ l.maxSize ∧ ¬∀ a ∈ accesses, a.Inside 128 := by
  have hseen : (addEntries threeCalls (create 128 fun _ => 0)).any (fun r =>
      r.2.size ≤ r.2.maxSize ∧ ¬∀ a ∈ r.1, a.Inside 128) = true := by
    decide +kernel
  obtain ⟨⟨accesses, l⟩, hrun, hout⟩ := (Option.any_eq_true _ _).mp hseen
  exact ⟨accesses, l, hrun, of_decide_eq_true hout⟩

end Rtp.Monitor.Mapped
