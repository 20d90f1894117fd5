import Mathlib.Data.List.AList
import Mathlib.Data.List.Sort

/-!
# Maps from paths

`std::map<std::string, α>`, which the heartbeat reporter and the server subscriber keep their
paths in and go through in order.

* `PathMap` — an association list with distinct keys; `inOrder` — its entries in the order of a
  loop.
-/

namespace Rtp.Leader

/-- A map from paths: `std::map<std::string, α>`. -/
abbrev PathMap (α : Type) := AList (fun _ : String => α)

/-- The entries of a map in the order in which a loop goes through them. -/
def inOrder {α : Type} (m : PathMap α) : List ((_ : String) × α) :=
  m.entries.insertionSort fun a b => a.1 ≤ b.1

variable {α : Type} {e : (_ : String) × α} {m : PathMap α}

theorem mem_entries_insert {path : String} {a : α} (h : e ∈ (m.insert path a).entries) :
    e = ⟨path, a⟩ ∨ e ∈ m.entries := by
  rw [AList.entries_insert] at h
  rcases List.mem_cons.1 h with rfl | h
  · exact .inl rfl
  · exact .inr ((List.kerase_sublist path m.entries).subset h)

theorem mem_inOrder : e ∈ inOrder m ↔ e ∈ m.entries :=
  (List.perm_insertionSort _ _).mem_iff

theorem mem_of_mem_entries (h : e ∈ m.entries) : e.1 ∈ m :=
  AList.lookup_isSome.1 (by rw [Option.isSome_iff_exists]; exact ⟨e.2, AList.mem_lookup_iff.2 h⟩)

end Rtp.Leader
