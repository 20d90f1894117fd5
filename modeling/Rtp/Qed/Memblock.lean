import Rtp.Lib.Bytes

/-!
# A file in memory

The model of `Memblock` (`qed/mem_block.cc`): `Open` reads a file into a block of memory,
the program writes into the block, `Close` writes the block to the file.  Every system call
of `Open` may fail and every `read` may deliver less than was asked for.

`Close` asks only whether there is a block.  A block is there after a failure of `read`,
and after opening for reading only.

* `Memblock.openFile`, `Memblock.close`, `Memblock.destroy` — the functions of the source;
  `OpenCalls` and `Stream` are the results of the calls they make.
* `readLoop_block` — the part of the block that was read is that part of the file.
* `close_spares_iff` — **exactly when `Close` leaves the file alone after a failure and
  after opening for reading only, and writes it back otherwise.**
* `close_overwrites` — a file opened for reading is written; a failed `Open` leaves the
  file to be overwritten with memory that nobody initialised.
-/

namespace Rtp.Qed

/-- What a path of the file system leads to: the bytes of a file, if there is one. -/
abbrev File : Type := Option (List Byte)

/-- A `Memblock`.  The block is `none` while `address_` is null. -/
structure Memblock where
  fileName : String
  address : Option (List Byte)
  size : ℕ
  readOnly : Bool
  sized : size = (address.getD []).length

/-- The results of the system calls of `Open`, in the order in which they are made. -/
structure OpenCalls where
  /-- Whether `open` succeeds on a file that is there or may be created. -/
  opens : Bool
  stat : Bool
  /-- The size that the file system gives the file, unless `ftruncate` fails. -/
  truncate : Option ℕ
  restat : Bool
  /-- What is found in the memory that `malloc` returns, unless it returns null. -/
  malloc : Option (ℕ → Byte)
  /-- The results of `read`: the most that one delivers, `none` for -1.  After these every
  read delivers what was asked for. -/
  reads : List (Option ℕ)

namespace Memblock

variable (mb : Memblock)

/-! ## Open -/

/-- A block that is not open, as its constructor and `Close` leave it. -/
def closed (fileName : String) (readOnly : Bool) : Memblock where
  fileName := fileName
  address := none
  size := 0
  readOnly := readOnly
  sized := rfl

/-- The call of `open`: the bytes under the file descriptor.  Without `O_CREAT` the file
has to be there. -/
def openFd (size : ℤ) (calls : OpenCalls) (file : File) : Option (List Byte) :=
  if calls.opens then
    if size = 0 then file else some (file.getD [])
  else none

/-- `ftruncate` to `n` bytes. -/
def truncated (n : ℕ) (contents : List Byte) : List Byte :=
  contents.take n ++ List.replicate (n - contents.length) 0#8

/-- `Open` up to the call of `malloc`: the file when it is called, or the file that is left
at an earlier exit. -/
def beforeMalloc (size : ℤ) (calls : OpenCalls) (file : File) : Except File (List Byte) :=
  match openFd size calls file with
  | none => .error file
  | some contents =>
    if calls.stat then
      if 0 < size then
        match calls.truncate with
        | none => .error (some contents)
        | some n =>
          -- a size other than the requested one is only logged
          if calls.restat then .ok (truncated n contents)
          else .error (some (truncated n contents))
      else .ok contents
    else .error (some contents)

/-- The loop over `read`, with the block, `total_read_size` and, at the end, `read_size`. -/
def readLoop (contents : List Byte) : List (Option ℕ) → List Byte → ℕ → List Byte × ℕ × ℤ
  | [], block, total => (block.take total ++ contents.drop total, contents.length, 0)
  | none :: _, block, total => (block, total, -1)
  | some k :: reads, block, total =>
    if min k (contents.length - total) = 0 then (block, total, 0)
    else
      readLoop contents reads
        (block.take total ++ (contents.drop total).take (min k (contents.length - total)) ++
          block.drop (total + min k (contents.length - total)))
        (total + min k (contents.length - total))

/-- A new block for a file. -/
def allocated (contents : List Byte) (junk : ℕ → Byte) : List Byte :=
  (List.range contents.length).map junk

theorem length_allocated (contents : List Byte) (junk : ℕ → Byte) :
    (allocated contents junk).length = contents.length := by
  rw [allocated, List.length_map, List.length_range]

/-- The loop keeps the size of the block, and **what was read is in the block**. -/
theorem readLoop_block {contents block : List Byte} {total : ℕ} (reads : List (Option ℕ))
    (hlen : block.length = contents.length) (hle : total ≤ contents.length)
    (hread : block.take total = contents.take total) :
    (readLoop contents reads block total).1.length = contents.length ∧
      (readLoop contents reads block total).1.take (readLoop contents reads block total).2.1 =
        contents.take (readLoop contents reads block total).2.1 := by
  induction reads generalizing block total with
  | nil =>
    rw [readLoop, hread, List.take_append_drop]
    exact ⟨rfl, rfl⟩
  | cons result reads ih =>
    cases result with
    | none => exact ⟨hlen, hread⟩
    | some k =>
      rw [readLoop]
      generalize hn : min k (contents.length - total) = n
      have hfits : total + n ≤ contents.length := by omega
      split
      · exact ⟨hlen, hread⟩
      · have hpart : block.take total ++ (contents.drop total).take n =
            contents.take (total + n) := by
          rw [hread, List.take_add]
        rw [hpart]
        refine ih ?_ hfits ?_
        · simp only [List.length_append, List.length_take, List.length_drop]
          omega
        · rw [List.take_append_of_le_length (by rw [List.length_take]; omega), List.take_take,
            min_self]

theorem length_readLoop (contents : List Byte) (reads : List (Option ℕ)) (junk : ℕ → Byte) :
    (readLoop contents reads (allocated contents junk) 0).1.length = contents.length :=
  (readLoop_block reads (length_allocated contents junk) (Nat.zero_le _) rfl).1

/-- `Memblock::Open`.  What it returns is 0 at every error.  The locks have no effect on
the file. -/
def openFile (size : ℤ) (calls : OpenCalls) (file : File) :
    Except String (ℕ × Memblock × File) :=
  match mb.address with
  | some _ => .error "Memblock re-opened before close"
  | none =>
    match beforeMalloc size calls file with
    | .error left => .ok (0, { mb with readOnly := decide (size = 0) }, left)
    | .ok contents =>
      match calls.malloc with
      | none => .ok (0, closed mb.fileName (decide (size = 0)), some contents)
      | some junk =>
        let read := readLoop contents calls.reads (allocated contents junk) 0
        let after : Memblock :=
          { fileName := mb.fileName
            address := some read.1
            size := contents.length
            readOnly := decide (size = 0)
            sized := (length_readLoop contents calls.reads junk).symm }
        if contents.length ≠ read.2.1 ∨ read.2.2 < 0 then .ok (0, after, some contents)
        else .ok (contents.length, after, some contents)

/-! ## The program writes, and Close -/

/-- One byte written into the block.  Outside the block there is nothing to write to. -/
def write (offset : ℕ) (byte : Byte) : Memblock where
  fileName := mb.fileName
  address := mb.address.map fun block => block.set offset byte
  size := mb.size
  readOnly := mb.readOnly
  sized := by
    rw [mb.sized]
    cases mb.address with
    | none => rfl
    | some block => exact (List.length_set ..).symm

/-- All that a program writes into the block. -/
def writes (bytes : List (ℕ × Byte)) : Memblock :=
  bytes.foldl (fun mb p => mb.write p.1 p.2) mb

/-- What becomes of the stream of `Close`: it cannot be opened; it takes only the first
bytes, which shows while it is written or only when its buffer is flushed at the end, where
nothing looks at it; or it takes all bytes. -/
inductive Stream where
  | refused
  | cut (count : ℕ) (noticed : Bool)
  | written
  deriving DecidableEq, Repr

/-- How a call ends.  An exception in a destructor ends the program. -/
inductive Outcome where
  | returned
  | threw (message : String)
  | terminated
  deriving DecidableEq, Repr

/-- `Memblock::Close`. -/
def close (stream : Stream) (strerror : String) (file : File) : Outcome × Memblock × File :=
  match mb.address with
  | none => (.returned, mb, file)
  | some block =>
    match stream with
    | .refused => (.threw (mb.fileName ++ " " ++ strerror), mb, file)
    | .cut count true =>
      (.threw (mb.fileName ++ " " ++ strerror), mb, some ((block.take mb.size).take count))
    | .cut count false =>
      (.returned, closed mb.fileName mb.readOnly, some ((block.take mb.size).take count))
    | .written => (.returned, closed mb.fileName mb.readOnly, some (block.take mb.size))

/-- The destructor. -/
def destroy (stream : Stream) (strerror : String) (file : File) : Outcome × File :=
  match mb.close stream strerror file with
  | (.returned, _, left) => (.returned, left)
  | (_, _, left) => (.terminated, left)

/-! ## What Close makes of the file -/

variable {mb : Memblock} {block contents : List Byte} {file left : File}

theorem take_size (h : mb.address = some block) : block.take mb.size = block := by
  rw [mb.sized, h, Option.getD_some, List.take_length]

theorem address_writes (bytes : List (ℕ × Byte)) :
    (mb.writes bytes).address =
      mb.address.map fun block => bytes.foldl (fun block p => block.set p.1 p.2) block := by
  induction bytes generalizing mb with
  | nil => simp [writes]
  | cons p bytes ih =>
    rw [writes, List.foldl_cons, ← writes, ih, write, Option.map_map]
    rfl

theorem length_foldl_set (bytes : List (ℕ × Byte)) (block : List Byte) :
    (bytes.foldl (fun block p => block.set p.1 p.2) block).length = block.length := by
  induction bytes generalizing block with
  | nil => rfl
  | cons p bytes ih => rw [List.foldl_cons, ih, List.length_set]

/-- The destructor does to the file what `Close` does. -/
theorem destroy_file (stream : Stream) (strerror : String) :
    (mb.destroy stream strerror file).2 = (mb.close stream strerror file).2.2 := by
  rw [destroy]
  split <;> simp_all

/-- Without a block nothing is written. -/
theorem close_of_none (h : mb.address = none) (stream : Stream) (strerror : String) :
    mb.close stream strerror file = (.returned, mb, file) := by
  rw [close, h]

/-- A block is written to the file. -/
theorem close_of_some (h : mb.address = some block) (strerror : String) :
    mb.close .written strerror file = (.returned, closed mb.fileName mb.readOnly, some block) := by
  simp only [close, h, take_size h]

/-- A block without bytes leaves an empty file as it is, however the stream ends. -/
theorem close_of_nil (h : mb.address = some []) (stream : Stream) (strerror : String) :
    (mb.close stream strerror (some [])).2.2 = some [] := by
  cases stream with
  | refused => simp only [close, h]
  | cut count noticed => cases noticed <;> simp only [close, h, List.take_nil]
  | written => simp only [close, h, List.take_nil]

/-- Whatever the program writes into the block, and however the stream ends, `Close` and
the destructor leave the file as it is. -/
def Spares (mb : Memblock) (file : File) : Prop :=
  ∀ bytes stream strerror,
    ((mb.writes bytes).close stream strerror file).2.2 = file ∧
      ((mb.writes bytes).destroy stream strerror file).2 = file

/-- Whatever the program writes into the block, `Close` and the destructor make the file
equal to the block, if the stream takes it. -/
def WritesBack (mb : Memblock) (file : File) : Prop :=
  ∀ bytes strerror, ∃ block, (mb.writes bytes).address = some block ∧
    ((mb.writes bytes).close .written strerror file).2.2 = some block ∧
      ((mb.writes bytes).destroy .written strerror file).2 = some block

theorem spares_of_none (h : mb.address = none) : mb.Spares file := by
  intro bytes stream strerror
  have hnone : (mb.writes bytes).address = none := by rw [address_writes, h]; rfl
  rw [destroy_file, close_of_none hnone]
  exact ⟨rfl, rfl⟩

theorem writesBack_of_some (h : mb.address = some block) : mb.WritesBack file := by
  intro bytes strerror
  have hsome : (mb.writes bytes).address =
      some (bytes.foldl (fun block p => block.set p.1 p.2) block) := by
    rw [address_writes, h]
    rfl
  refine ⟨_, hsome, ?_⟩
  rw [destroy_file, close_of_some hsome]
  exact ⟨rfl, rfl⟩

/-- A file with a block is spared only if it has no bytes: one byte that the program
writes makes the difference. -/
theorem spares_iff_of_some (h : mb.address = some block) (hlen : block.length = contents.length) :
    mb.Spares (some contents) ↔ contents = [] := by
  constructor
  · intro hspares
    cases contents with
    | nil => rfl
    | cons c contents =>
      obtain ⟨d, block, rfl⟩ : ∃ d rest, block = d :: rest :=
        List.exists_cons_of_length_eq_add_one hlen
      have hsome : (mb.writes [(0, c + 1#8)]).address = some ((c + 1#8) :: block) := by
        rw [address_writes, h]
        rfl
      have hfile := (hspares [(0, c + 1#8)] .written "").1
      rw [close_of_some hsome] at hfile
      have hc : c + 1#8 = c := by simpa using congrArg (fun file => file.getD []) hfile
      exact absurd hc (by bv_omega)
  · rintro rfl bytes stream strerror
    have hnil : (mb.writes bytes).address = some [] := by
      rw [address_writes, h, Option.map_some, Option.some.injEq, ← List.length_eq_zero_iff,
        length_foldl_set, hlen, List.length_nil]
    rw [destroy_file, close_of_nil hnil]
    exact ⟨rfl, rfl⟩

/-! ## Open, then Close -/

/-- The loop over `read` gets all bytes of the file. -/
def ReadsAll (contents : List Byte) (reads : List (Option ℕ)) (junk : ℕ → Byte) : Prop :=
  (readLoop contents reads (allocated contents junk) 0).2.1 = contents.length ∧
    0 ≤ (readLoop contents reads (allocated contents junk) 0).2.2

instance (contents : List Byte) (reads : List (Option ℕ)) (junk : ℕ → Byte) :
    Decidable (ReadsAll contents reads junk) :=
  inferInstanceAs (Decidable (_ ∧ _))

/-- The exits of `Open`: before there is a block, and with a block. -/
theorem openFile_cases (fileName : String) (readOnly : Bool) (size : ℤ) (calls : OpenCalls)
    (file : File) :
    (∃ mb left, (closed fileName readOnly).openFile size calls file = .ok (0, mb, left) ∧
      mb.address = none ∧
      ∀ contents junk, beforeMalloc size calls file = .ok contents → calls.malloc ≠ some junk) ∨
    ∃ contents junk mb, beforeMalloc size calls file = .ok contents ∧ calls.malloc = some junk ∧
      (closed fileName readOnly).openFile size calls file =
        .ok (if ReadsAll contents calls.reads junk then contents.length else 0, mb, some contents) ∧
      mb.address = some (readLoop contents calls.reads (allocated contents junk) 0).1 := by
  cases hbefore : beforeMalloc size calls file with
  | error left =>
    refine .inl ⟨{ closed fileName readOnly with readOnly := decide (size = 0) }, left, ?_, rfl,
      fun contents junk hok => by simp at hok⟩
    simp only [openFile, closed, hbefore]
  | ok contents =>
    cases hmalloc : calls.malloc with
    | none =>
      refine .inl ⟨closed fileName (decide (size = 0)), some contents, ?_, rfl,
        fun _ junk _ => by simp⟩
      simp only [openFile, closed, hbefore, hmalloc]
    | some junk =>
      refine .inr ⟨contents, junk, ⟨fileName, some _, contents.length, decide (size = 0),
        (length_readLoop contents calls.reads junk).symm⟩, rfl, rfl, ?_, rfl⟩
      have hall : ReadsAll contents calls.reads junk ↔
          ¬ (contents.length ≠ (readLoop contents calls.reads (allocated contents junk) 0).2.1 ∨
            (readLoop contents calls.reads (allocated contents junk) 0).2.2 < 0) := by
        rw [ReadsAll]
        omega
      simp only [openFile, closed, hbefore, hmalloc, hall, ite_not]
      split <;> rfl

/-- **When Close spares the file.**  Take any file, any results of the system calls of
`Open`, anything that the program then writes into the block.  If `Open` returned 0, or was
called with size 0, `Close` and the destructor leave the file as it is, and if `Open`
returned another number for a positive size they make it equal to the block, exactly when
this is so: whenever the calls before it succeed, `malloc` does, and the file has bytes,
then the file was not opened for reading only and `read` gets all of it. -/
theorem close_spares_iff (fileName : String) (readOnly : Bool) (size : ℤ) (calls : OpenCalls)
    (file : File) :
    ∃ ret mb left, (closed fileName readOnly).openFile size calls file = .ok (ret, mb, left) ∧
      (((ret = 0 ∨ size = 0 → mb.Spares left) ∧ (ret ≠ 0 ∧ 0 < size → mb.WritesBack left)) ↔
        ∀ contents junk, beforeMalloc size calls file = .ok contents →
          calls.malloc = some junk → contents ≠ [] →
            size ≠ 0 ∧ ReadsAll contents calls.reads junk) := by
  obtain ⟨mb, left, hopen, hnone, hearly⟩ |
    ⟨contents, junk, mb, hbefore, hmalloc, hopen, hsome⟩ :=
    openFile_cases fileName readOnly size calls file
  · refine ⟨0, mb, left, hopen, ?_⟩
    constructor
    · intro _ contents junk hbefore hmalloc
      exact absurd hmalloc (hearly contents junk hbefore)
    · exact fun _ => ⟨fun _ => spares_of_none hnone, fun hret => absurd rfl hret.1⟩
  · refine ⟨_, mb, some contents, hopen, ?_⟩
    have hspares := spares_iff_of_some hsome (length_readLoop contents calls.reads junk)
    rw [hspares]
    constructor
    · rintro ⟨hspared, _⟩ contents' junk' hbefore' hmalloc' hne
      obtain rfl : contents = contents' := Except.ok.inj (hbefore.symm.trans hbefore')
      obtain rfl : junk = junk' := Option.some.inj (hmalloc.symm.trans hmalloc')
      constructor
      · exact fun hsize => hne (hspared (Or.inr hsize))
      · by_contra hall
        exact hne (hspared (Or.inl (if_neg hall)))
    · intro hcond
      refine ⟨fun hfail => ?_, fun _ => writesBack_of_some hsome⟩
      by_contra hne
      obtain ⟨hsize, hall⟩ := hcond contents junk hbefore hmalloc hne
      rw [if_pos hall] at hfail
      rcases hfail with hret | hzero
      · exact hne (List.length_eq_zero_iff.mp hret)
      · exact hsize hzero

/-- Every call succeeds, but for the results of `read`. -/
def reading (reads : List (Option ℕ)) : OpenCalls where
  opens := true
  stat := true
  truncate := none
  restat := true
  malloc := some fun _ => 0xcd#8
  reads := reads

/-- The file after `Open` with size 0, some writes, and `Close`, and what `Open` returned. -/
def openClose (reads : List (Option ℕ)) (bytes : List (ℕ × Byte)) (file : File) :
    Option (ℕ × File) :=
  match (closed "managed" false).openFile 0 (reading reads) file with
  | .ok (ret, mb, left) => some (ret, ((mb.writes bytes).close .written "" left).2.2)
  | .error _ => none

/-- A file that was opened for reading only is overwritten with what the program wrote;
and after `read` has failed, `Open` returns 0 and `Close` overwrites the file with memory
that was never written. -/
theorem close_overwrites :
    openClose [] [(0, 7#8)] (some [1#8, 2#8]) = some (2, some [7#8, 2#8]) ∧
      openClose [some 1, none] [] (some [1#8, 2#8]) = some (0, some [1#8, 0xcd#8]) := by
  decide +kernel

end Rtp.Qed.Memblock
