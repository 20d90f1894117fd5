import Mathlib.Algebra.Group.Nat.Defs
import Mathlib.Data.List.Pairwise
import Mathlib.Data.List.Perm.Lattice

/-!
# The channels of a server

`BrpcChannelGroup` (`leader/brpc/brpc_channel_group.cc`) has a fixed number of slots for the
channels to one server, which are opened one after the other, and a mark for each: good or bad.
`CheckChannels` pings the channels that are marked bad, marks them by the answers, and compares
the number of pings that failed with the number of slots.

* `Slot`, `ChannelGroup` — the group; no channel is in two slots.
* `addChannel`, `openNewChannel`, `pickChannel`, `moveChannelToGood`, `moveChannelToBad` — the
  functions.
* `checkChannels` — with the answers to the pings, in the order they come in.
* `channels_checkChannels`, `countP_badChannels` — the marks afterwards, and the number that is
  compared.
* `checkChannels_iff` — **when the result is right**: the result says that some opened channel is
  good just if all slots are opened, or one is.
* `unopened_slot_counts` — a group of two slots whose one channel does not answer.
-/

namespace Rtp.Leader

variable {Channel : Type} [DecidableEq Channel]

/-- A slot: the channel, once it is opened, and its mark. -/
structure Slot (Channel : Type) where
  channel : Option Channel
  good : Bool
  deriving DecidableEq, Repr

/-- A group.  `channels_` is made with `channel_capacity_` slots and keeps its length.  A channel
is made for one slot, and only slots with a channel are ever marked good. -/
structure ChannelGroup (Channel : Type) where
  channelCount : ℕ
  index : ℕ
  channels : List (Slot Channel)
  distinct : (channels.filterMap Slot.channel).Nodup
  marked : ∀ slot ∈ channels, slot.good = true → slot.channel.isSome = true

namespace ChannelGroup

/-! ## The functions -/

/-- `channel_capacity_`. -/
def channelCapacity (g : ChannelGroup Channel) : ℕ := g.channels.length

/-- A new group. -/
def new (channelCount : ℕ) : ChannelGroup Channel where
  channelCount := 0
  index := 0
  channels := List.replicate channelCount ⟨none, false⟩
  distinct := by simp [List.filterMap_replicate_of_none]
  marked := by
    intro slot hslot hgood
    rw [List.eq_of_mem_replicate hslot] at hgood
    exact absurd hgood nofun

/-- `BrpcChannelGroup::IsFull`. -/
def isFull (g : ChannelGroup Channel) : Bool := g.channelCapacity ≤ g.channelCount

/-- The second part of `AddChannel`: another thread may have taken the last slot in between. -/
def takeSlot (g : ChannelGroup Channel) : Option ℕ × ChannelGroup Channel :=
  (if g.channelCapacity ≤ g.channelCount then none else some g.channelCount,
    { g with channelCount := (g.channelCount + 1) % 2 ^ 32 })

/-- `BrpcChannelGroup::AddChannel`: the next slot. -/
def addChannel (g : ChannelGroup Channel) : Option ℕ × ChannelGroup Channel :=
  if g.isFull then (none, g) else g.takeSlot

/-- The slots after a channel was stored in one of them. -/
def stored (i : ℕ) (channel : Channel) (slots : List (Slot Channel)) : List (Slot Channel) :=
  slots.modify i fun slot => { slot with channel := some channel }

variable {g : ChannelGroup Channel} {channel : Channel} {slot : Slot Channel}
  {slots : List (Slot Channel)} {answers : Channel → Bool} {order : List Channel}

omit [DecidableEq Channel] in
theorem mem_stored {i : ℕ} (hslot : slot ∈ stored i channel slots) :
    slot ∈ slots ∨ slot.channel = some channel := by
  obtain ⟨j, hj, heq⟩ := List.mem_iff_getElem.mp hslot
  have hget := List.getElem_modify
    (fun slot : Slot Channel => { slot with channel := some channel }) i slots j hj
  rw [← heq]
  by_cases hij : i = j
  · right
    rw [if_pos hij] at hget
    exact congrArg Slot.channel hget
  · left
    rw [if_neg hij] at hget
    exact List.mem_of_getElem hget.symm

omit [DecidableEq Channel] in
theorem mem_of_mem_stored {i : ℕ} {channel x : Channel}
    (hx : x ∈ (stored i channel slots).filterMap Slot.channel) :
    x = channel ∨ x ∈ slots.filterMap Slot.channel := by
  obtain ⟨slot, hslot, hchannel⟩ := List.mem_filterMap.mp hx
  obtain hslot | hnew := mem_stored hslot
  · exact .inr (List.mem_filterMap.mpr ⟨slot, hslot, hchannel⟩)
  · exact .inl (Option.some.inj (hchannel.symm.trans hnew))

omit [DecidableEq Channel] in
theorem nodup_stored (i : ℕ) (hdistinct : (slots.filterMap Slot.channel).Nodup)
    (hfresh : channel ∉ slots.filterMap Slot.channel) :
    ((stored i channel slots).filterMap Slot.channel).Nodup := by
  induction slots generalizing i with
  | nil => simp [stored]
  | cons slot slots ih =>
    obtain ⟨slotChannel, good⟩ := slot
    have hrest : (slots.filterMap Slot.channel).Nodup := by
      refine hdistinct.sublist ?_
      exact (List.sublist_cons_self _ _).filterMap _
    have hnew : channel ∉ slots.filterMap Slot.channel := by
      intro hmem
      exact hfresh (((List.sublist_cons_self _ _).filterMap _).mem hmem)
    cases i with
    | zero => exact List.nodup_cons.mpr ⟨hnew, hrest⟩
    | succ i =>
      have hstored := ih i hrest hnew
      show (List.filterMap Slot.channel (⟨slotChannel, good⟩ :: stored i channel slots)).Nodup
      cases slotChannel with
      | none => exact hstored
      | some old =>
        refine List.nodup_cons.mpr ⟨fun hmem => ?_, hstored⟩
        obtain rfl | hmem := mem_of_mem_stored hmem
        · exact hfresh List.mem_cons_self
        · exact (List.nodup_cons.mp hdistinct).1 hmem

/-- A channel is stored in its slot; the slot is not marked yet. -/
def reset (i : ℕ) (channel : Channel) (g : ChannelGroup Channel) : ChannelGroup Channel :=
  if hfresh : channel ∈ g.channels.filterMap Slot.channel then g
  else
    { g with
      channels := stored i channel g.channels
      distinct := nodup_stored i g.distinct hfresh
      marked := by
        intro slot hslot hgood
        obtain hslot | hnew := mem_stored hslot
        · exact g.marked slot hslot hgood
        · rw [hnew]
          rfl }

/-- `BrpcChannelPool::OpenNewChannel`, with the channel that is made, unless its `Init` fails:
then the slot stays empty. -/
def openNewChannel (channel : Option Channel) (g : ChannelGroup Channel) : ChannelGroup Channel :=
  match g.addChannel, channel with
  | (some i, g), some channel => g.reset i channel
  | (_, g), _ => g

/-- Every slot of a channel gets a mark. -/
def mark (channel : Channel) (good : Bool) (slot : Slot Channel) : Slot Channel :=
  if slot.channel = some channel then { slot with good := good } else slot

@[simp] theorem channel_mark (channel : Channel) (good : Bool) (slot : Slot Channel) :
    (mark channel good slot).channel = slot.channel := by
  unfold mark
  split <;> rfl

/-- The mark of a channel in its group. -/
def setGood (channel : Channel) (good : Bool) (g : ChannelGroup Channel) :
    ChannelGroup Channel where
  channelCount := g.channelCount
  index := g.index
  channels := g.channels.map (mark channel good)
  distinct := by
    have hsame : (g.channels.map (mark channel good)).filterMap Slot.channel =
        g.channels.filterMap Slot.channel := by
      rw [List.filterMap_map]
      exact List.filterMap_congr fun slot _ => channel_mark channel good slot
    rw [hsame]
    exact g.distinct
  marked := by
    intro slot hslot hgood
    obtain ⟨old, hold, rfl⟩ := List.mem_map.mp hslot
    rw [channel_mark]
    by_cases heq : old.channel = some channel
    · rw [heq]
      rfl
    · rw [mark, if_neg heq] at hgood
      exact g.marked old hold hgood

/-- `BrpcChannelGroup::MoveChannelToGood`. -/
def moveChannelToGood (channel : Channel) (g : ChannelGroup Channel) : ChannelGroup Channel :=
  g.setGood channel true

/-- `BrpcChannelGroup::MoveChannelToBad`. -/
def moveChannelToBad (channel : Channel) (g : ChannelGroup Channel) : ChannelGroup Channel :=
  g.setGood channel false

/-- `BrpcChannelGroup::PickChannel`: the first good channel from the index on, which wraps
around. -/
def pickChannel (g : ChannelGroup Channel) : Option Channel × ChannelGroup Channel :=
  let index := g.index % g.channelCapacity
  let slots := g.channels.drop index ++ g.channels.take index
  ((slots.find? (·.good)).bind (·.channel), { g with index := (g.index + 1) % 2 ^ 32 })

/-! ## The check -/

/-- The channels to check: opened, and marked bad. -/
def badChannels (g : ChannelGroup Channel) : List Channel :=
  g.channels.filterMap fun slot => if slot.good then none else slot.channel

/-- `BrpcCheckerPingCall::HandleResponse`: the channel is marked by the answer, and a ping that
failed is counted. -/
def handleResponse (answers : Channel → Bool) (acc : ChannelGroup Channel × ℕ)
    (channel : Channel) : ChannelGroup Channel × ℕ :=
  if answers channel then (acc.1.moveChannelToGood channel, acc.2)
  else (acc.1.moveChannelToBad channel, acc.2 + 1)

/-- `BrpcChannelGroup::CheckChannels`.  The pings of the channels to check are answered in some
order, and the waiter waits for all of them. -/
def checkChannels (answers : Channel → Bool) (order : List Channel) (g : ChannelGroup Channel) :
    Bool × ChannelGroup Channel :=
  let r := order.foldl (handleResponse answers) (g, 0)
  (r.2 < r.1.channelCapacity, r.1)

/-- The number of channels that are opened. -/
def opened (g : ChannelGroup Channel) : ℕ := g.channels.countP (·.channel.isSome)

/-- A slot whose channel answers, or does not need to. -/
def Living (answers : Channel → Bool) (slot : Slot Channel) : Prop :=
  ∃ channel, slot.channel = some channel ∧ (slot.good = true ∨ answers channel = true)

/-! ## The marks afterwards -/

/-- The mark of a slot after the answers of some channels. -/
def answered (answers : Channel → Bool) (order : List Channel) (slot : Slot Channel) :
    Slot Channel :=
  match slot.channel with
  | none => slot
  | some channel => if channel ∈ order then { slot with good := answers channel } else slot

theorem channels_handleResponse (answers : Channel → Bool) (acc : ChannelGroup Channel × ℕ)
    (channel : Channel) : (handleResponse answers acc channel).1.channels =
      acc.1.channels.map (mark channel (answers channel)) := by
  unfold handleResponse
  cases answers channel with
  | true => rfl
  | false => rfl

theorem answered_mark (answers : Channel → Bool) (channel : Channel) (order : List Channel)
    (slot : Slot Channel) : answered answers order (mark channel (answers channel) slot) =
      answered answers (channel :: order) slot := by
  obtain ⟨slotChannel, good⟩ := slot
  cases slotChannel with
  | none => rfl
  | some other =>
    by_cases heq : other = channel
    · subst heq
      simp [answered, mark]
    · simp [answered, mark, heq]

/-- The marks after all answers have come in. -/
theorem channels_foldl_handleResponse (answers : Channel → Bool) (order : List Channel)
    (acc : ChannelGroup Channel × ℕ) : (order.foldl (handleResponse answers) acc).1.channels =
      acc.1.channels.map (answered answers order) := by
  induction order generalizing acc with
  | nil =>
    have hid : ∀ slot ∈ acc.1.channels, answered answers [] slot = slot := by
      intro slot _
      unfold answered
      cases slot.channel with
      | none => rfl
      | some channel => rfl
    rw [List.foldl_nil, List.map_congr_left hid, List.map_id']
  | cons channel order ih =>
    rw [List.foldl_cons, ih, channels_handleResponse, List.map_map]
    exact List.map_congr_left fun slot _ => answered_mark answers channel order slot

theorem channels_checkChannels (answers : Channel → Bool) (order : List Channel)
    (g : ChannelGroup Channel) :
    (g.checkChannels answers order).2.channels = g.channels.map (answered answers order) :=
  channels_foldl_handleResponse answers order (g, 0)

/-- No channel is in two slots. -/
theorem slot_unique {slot slot' : Slot Channel} (hslot : slot ∈ g.channels)
    (hslot' : slot' ∈ g.channels) (hchannel : slot.channel = some channel)
    (hchannel' : slot'.channel = some channel) : slot = slot' := by
  by_contra hne
  have hapart := List.pairwise_filterMap.mp g.distinct
  have : Std.Symm fun a b : Slot Channel =>
      ∀ x, a.channel = some x → ∀ y, b.channel = some y → x ≠ y :=
    ⟨fun _ _ h x hx y hy => (h y hy x hx).symm⟩
  exact hapart.forall hslot hslot' hne channel hchannel channel hchannel' rfl

/-- A channel is pinged just if the slot it is in is marked bad. -/
theorem mem_badChannels_iff (hslot : slot ∈ g.channels) (hchannel : slot.channel = some channel) :
    channel ∈ g.badChannels ↔ slot.good = false := by
  rw [badChannels, List.mem_filterMap]
  constructor
  · rintro ⟨other, hother, hbad⟩
    rw [Option.ite_none_left_eq_some] at hbad
    obtain ⟨hgood, hbad⟩ := hbad
    rw [slot_unique hslot hother hchannel hbad]
    simpa using hgood
  · intro hbad
    exact ⟨slot, hslot, by simp [hbad, hchannel]⟩

/-- Some opened channel is good afterwards just if one was, or answered. -/
theorem exists_good_checkChannels_iff (horder : order.Perm g.badChannels) :
    (∃ slot ∈ (g.checkChannels answers order).2.channels,
      slot.channel.isSome = true ∧ slot.good = true) ↔
      ∃ slot ∈ g.channels, Living answers slot := by
  rw [channels_checkChannels]
  simp only [List.mem_map, exists_exists_and_eq_and]
  refine exists_congr fun slot => and_congr_right fun hslot => ?_
  unfold answered Living
  cases hchannel : slot.channel with
  | none => simp [hchannel]
  | some channel =>
    have hpinged : channel ∈ order ↔ slot.good = false :=
      horder.mem_iff.trans (mem_badChannels_iff hslot hchannel)
    cases hgood : slot.good with
    | true => simp [hpinged, hgood, hchannel]
    | false => simp [hpinged, hgood]

/-! ## The number of pings that failed -/

theorem snd_foldl_handleResponse (answers : Channel → Bool) (order : List Channel)
    (acc : ChannelGroup Channel × ℕ) : (order.foldl (handleResponse answers) acc).2 =
      acc.2 + order.countP (! answers ·) := by
  induction order generalizing acc with
  | nil => rfl
  | cons channel order ih =>
    rw [List.foldl_cons, ih, List.countP_cons]
    unfold handleResponse
    cases answers channel with
    | true => simp
    | false => simp; omega

omit [DecidableEq Channel] in
/-- What is counted: the slots with a channel that is marked bad and does not answer. -/
theorem countP_badChannels (answers : Channel → Bool) (g : ChannelGroup Channel) :
    g.badChannels.countP (! answers ·) =
      g.channels.countP fun slot => ! slot.good && slot.channel.any (! answers ·) := by
  rw [badChannels, List.countP_filterMap]
  refine List.countP_congr fun slot _ => ?_
  cases slot.channel with
  | none => simp
  | some channel =>
    cases slot.good with
    | true => simp
    | false => simp

/-- **The result**: some slot is not opened, or its channel is good or answers. -/
theorem checkChannels_eq_true_iff (horder : order.Perm g.badChannels) :
    (g.checkChannels answers order).1 = true ↔
      ∃ slot ∈ g.channels, slot.channel = none ∨ Living answers slot := by
  have hcapacity : (order.foldl (handleResponse answers) (g, 0)).1.channelCapacity =
      g.channels.length := by
    rw [channelCapacity, channels_foldl_handleResponse, List.length_map]
  have hcount : (order.foldl (handleResponse answers) (g, 0)).2 =
      g.channels.countP fun slot => ! slot.good && slot.channel.any (! answers ·) := by
    rw [snd_foldl_handleResponse, Nat.zero_add, horder.countP_eq, countP_badChannels]
  have hle := List.countP_le_length (p := fun slot : Slot Channel =>
    ! slot.good && slot.channel.any (! answers ·)) (l := g.channels)
  rw [checkChannels, decide_eq_true_iff, hcapacity, hcount, Nat.lt_iff_le_and_ne,
    and_iff_right hle, ne_eq, List.countP_eq_length]
  simp only [not_forall, exists_prop]
  refine exists_congr fun slot => and_congr_right fun _ => ?_
  unfold Living
  cases slot.channel with
  | none => simp
  | some channel => simp [← Bool.not_eq_true, ← or_iff_not_imp_left]

/-- **When the result is right.**  `CheckChannels` returns true just if some opened channel is
good afterwards, provided that all slots are opened, or that some opened channel was marked good
or answers its ping, and only then; whatever the marks, the answers and the order they come in. -/
theorem checkChannels_iff {g : ChannelGroup Channel} {answers : Channel → Bool}
    {order : List Channel} (horder : order.Perm g.badChannels) :
    ((g.checkChannels answers order).1 = true ↔
      ∃ slot ∈ (g.checkChannels answers order).2.channels,
        slot.channel.isSome = true ∧ slot.good = true) ↔
    (g.opened = g.channelCapacity ∨ ∃ slot ∈ g.channels, ∃ channel,
      slot.channel = some channel ∧ (slot.good = true ∨ answers channel = true)) := by
  rw [exists_good_checkChannels_iff horder, checkChannels_eq_true_iff horder]
  have hopened : g.opened = g.channelCapacity ↔
      ∀ slot ∈ g.channels, slot.channel.isSome = true := by
    rw [opened, channelCapacity, List.countP_eq_length]
  rw [hopened]
  show (_ ↔ ∃ slot ∈ g.channels, Living answers slot) ↔
    _ ∨ ∃ slot ∈ g.channels, Living answers slot
  by_cases hliving : ∃ slot ∈ g.channels, Living answers slot
  · obtain ⟨slot, hslot, hlives⟩ := hliving
    exact iff_of_true (iff_of_true ⟨slot, hslot, .inr hlives⟩ ⟨slot, hslot, hlives⟩)
      (.inr ⟨slot, hslot, hlives⟩)
  · -- without a living channel, the result is true just if a slot is not opened
    have hnot : ∀ slot ∈ g.channels, ¬ Living answers slot :=
      fun slot hslot hlives => hliving ⟨slot, hslot, hlives⟩
    rw [iff_false_right hliving, or_iff_left hliving]
    constructor
    · intro hnone slot hslot
      rw [Option.isSome_iff_ne_none]
      intro hempty
      exact hnone ⟨slot, hslot, .inl hempty⟩
    · rintro hall ⟨slot, hslot, hempty | hlives⟩
      · have hsome := hall slot hslot
        rw [hempty] at hsome
        exact absurd hsome nofun
      · exact hnot slot hslot hlives

/-- A group of two slots, both opened, one of whose channels answers. -/
def twoOpened : ChannelGroup ℕ := ((new 2).openNewChannel (some 7)).openNewChannel (some 9)

theorem checkChannels_iff_twoOpened :
    [9, 7].Perm twoOpened.badChannels ∧
    ((twoOpened.checkChannels (· == 9) [9, 7]).1 = true ↔
      ∃ slot ∈ (twoOpened.checkChannels (· == 9) [9, 7]).2.channels,
        slot.channel.isSome = true ∧ slot.good = true) := by
  have horder : [9, 7].Perm twoOpened.badChannels := by decide +kernel
  exact ⟨horder, (checkChannels_iff horder).mpr (.inl (by decide +kernel))⟩

/-- A group of two slots, one of them opened, marked bad after its first ping failed. -/
def halfOpened : ChannelGroup ℕ := ((new 2).openNewChannel (some 7)).moveChannelToBad 7

/-- **A slot that is not opened counts as living.**  The one channel does not answer, no channel
can be picked afterwards, and the result is true. -/
theorem unopened_slot_counts :
    halfOpened.opened = 1 ∧ halfOpened.badChannels = [7] ∧
    (halfOpened.checkChannels (fun _ => false) [7]).1 = true ∧
    (¬ ∃ slot ∈ (halfOpened.checkChannels (fun _ => false) [7]).2.channels,
      slot.channel.isSome = true ∧ slot.good = true) ∧
    (halfOpened.checkChannels (fun _ => false) [7]).2.pickChannel.1 = none := by
  decide +kernel

end Rtp.Leader.ChannelGroup
