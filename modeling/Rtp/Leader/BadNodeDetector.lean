import Rtp.Leader.NodeCollection
import Rtp.Lib.Reach

/-!
# The bad node detector

The model of `BrpcBadNodeDetector::DoDetect` (`leader/brpc/brpc_bad_node_detector.cc`) next
to the heartbeats that fill the node collection.  A round looks the bad specs of the channel
pool up in the index of the collection and makes what it finds the new black list.

* `doDetect` — a round.
* `Call`, `next` — heartbeats, rounds and picks, in any order.
* `bad_node_not_picked` — **a bad node is not picked**: from the round that first reports a
  node of some list on, if every later round reports it too and no heartbeat lists it while
  it is missing on the black list.
* `bad_node_picked` — the condition is needed.  A node on the black list is not in the index
  any more, so the second round that reports it takes it off the list, and the next
  heartbeat brings it back.
-/

namespace Rtp.Leader

/-- The node collection, and the bad specs of the last round that did something. -/
structure Detector where
  nodeCollection : NodeCollection
  specList : List String

namespace Detector

/-- Before the first heartbeat and the first round. -/
def init : Detector := ⟨.empty, []⟩

/-- `BrpcBadNodeDetector::DoDetect`, where `specBlackList` is what the channel pool gives for
bad specs. -/
def doDetect (specBlackList : List String) (d : Detector) : Detector :=
  if d.specList.isEmpty ∧ specBlackList.isEmpty then d
  else
    let nodeBlackList := d.nodeCollection.findNodesBySpec specBlackList
    { nodeCollection := d.nodeCollection.updateBadNode nodeBlackList, specList := specBlackList }

end Detector

/-- A call of the collection, or a round of the detector. -/
inductive Call where
  | heartbeat (nodes : List String) (path : String)
  | detect (specBlackList : List String)
  | pick (path : String)
  deriving DecidableEq, Repr

/-- The state after a call. -/
def next : Call → Detector → Option Detector
  | .heartbeat nodes path, d =>
    some { d with nodeCollection := d.nodeCollection.updateHeartbeat nodes path }
  | .detect specBlackList, d => some (d.doDetect specBlackList)
  | .pick path, d => some { d with nodeCollection := (d.nodeCollection.pickOneNode path).2 }

/-- Heartbeats come without duplicates. -/
def Distinct (_ : Detector) : Call → Prop
  | .heartbeat nodes _ => nodes.Nodup
  | _ => True

/-- Every round reports the node. -/
def Reported (node : String) (d : Detector) (c : Call) : Prop :=
  Distinct d c ∧ match c with
    | .detect specBlackList => node ∈ specBlackList
    | _ => True

/-- Every round reports the node, and no heartbeat lists it while it is missing on the black
list. -/
def Held (node : String) (d : Detector) (c : Call) : Prop :=
  Reported node d c ∧ match c with
    | .heartbeat nodes _ => node ∈ nodes → node ∈ d.nodeCollection.blackList
    | _ => True

instance (d : Detector) : (c : Call) → Decidable (Distinct d c)
  | .heartbeat nodes _ => inferInstanceAs (Decidable nodes.Nodup)
  | .detect _ | .pick _ => isTrue trivial

instance (node : String) (d : Detector) : (c : Call) → Decidable (Reported node d c)
  | .heartbeat .. | .detect _ | .pick _ => inferInstanceAs (Decidable (_ ∧ _))

instance (node : String) (d : Detector) : (c : Call) → Decidable (Held node d c)
  | .heartbeat .. | .detect _ | .pick _ => inferInstanceAs (Decidable (_ ∧ _))

section

variable {d d' : Detector}

theorem Indexed.doDetect (h : d.nodeCollection.Indexed) (specBlackList : List String) :
    (d.doDetect specBlackList).nodeCollection.Indexed := by
  unfold Detector.doDetect
  split
  · exact h
  · exact h.updateBadNode _

theorem Indexed.next {c : Call} (h : d.nodeCollection.Indexed) (hc : Distinct d c)
    (hnext : next c d = some d') : d'.nodeCollection.Indexed := by
  cases c with
  | heartbeat nodes path =>
    rw [← Option.some.inj hnext]
    exact h.updateHeartbeat hc path
  | detect specBlackList =>
    rw [← Option.some.inj hnext]
    exact Indexed.doDetect h specBlackList
  | pick path =>
    rw [← Option.some.inj hnext]
    obtain ⟨hvalid, hindex, -⟩ := NodeCollection.pickOneNode_frame path d.nodeCollection
    refine ⟨fun p l => ?_, fun p l => ?_⟩
    · rw [hvalid]
      exact h.nodup p l
    · rw [hvalid, hindex]
      exact h.known p l

/-- The node is in no list. -/
def Detector.Absent (node : String) (d : Detector) : Prop :=
  ∀ p l, d.nodeCollection.validNodes.lookup p = some l → node ∉ l

theorem absent_map_filter {node : String} {l : List String} {o : Option (List String)}
    {q : String → Bool} (ho : ∀ l, o = some l → node ∉ l)
    (hl : o.map (fun l => l.filter q) = some l) : node ∉ l := by
  obtain ⟨l', hl', rfl⟩ := Option.map_eq_some_iff.1 hl
  exact fun hmem => ho l' hl' (List.mem_of_mem_filter hmem)

/-- A round that reports a node of some list takes it out of all lists. -/
theorem absent_doDetect {node p : String} {nodes specBlackList : List String}
    (h : d.nodeCollection.Indexed) (hl : d.nodeCollection.validNodes.lookup p = some nodes)
    (hn : node ∈ nodes) (hspec : node ∈ specBlackList) :
    (d.doDetect specBlackList).Absent node := by
  intro q l hq
  have hfound := h.mem_findNodesBySpec hl hn hspec
  have hnonempty : ¬ (d.specList.isEmpty ∧ specBlackList.isEmpty) := fun hboth => by
    rw [List.isEmpty_iff.1 hboth.2] at hspec
    simp at hspec
  rw [Detector.doDetect, if_neg hnonempty, h.validNodes_updateBadNode] at hq
  obtain ⟨l', -, rfl⟩ := Option.map_eq_some_iff.1 hq
  exact fun hmem => by simpa [hfound] using (List.mem_filter.1 hmem).2

/-- Held calls keep the node out. -/
theorem Absent.next {node : String} {c : Call} (habsent : d.Absent node)
    (h : d.nodeCollection.Indexed) (hc : Held node d c) (hnext : next c d = some d') :
    d'.Absent node := by
  intro p l hl
  cases c with
  | heartbeat nodes path =>
    rw [← Option.some.inj hnext, NodeCollection.validNodes_updateHeartbeat] at hl
    split at hl
    · rw [← Option.some.inj hl]
      intro hmem
      obtain ⟨hn, hblack⟩ := List.mem_filter.1 hmem
      exact (of_decide_eq_true hblack) (hc.2 hn)
    · exact habsent p l hl
  | detect specBlackList =>
    rw [← Option.some.inj hnext, Detector.doDetect] at hl
    split at hl
    · exact habsent p l hl
    · rw [h.validNodes_updateBadNode] at hl
      exact absent_map_filter (habsent p) hl
  | pick path =>
    rw [← Option.some.inj hnext, (NodeCollection.pickOneNode_frame path d.nodeCollection).1] at hl
    exact habsent p l hl

end

/-- **A bad node is not picked.**  Heartbeats without duplicates and rounds lead to `d`, where
the node is in the list of some path, and a round reports it.  From then on, as long as every
round reports the node and no heartbeat lists it while it is missing on the black list, it is
not picked for any path. -/
theorem bad_node_not_picked (node : String) {d d' : Detector} {p : String}
    {nodes specBlackList : List String} (hd : Reach next Distinct .init d)
    (hl : d.nodeCollection.validNodes.lookup p = some nodes) (hn : node ∈ nodes)
    (hspec : node ∈ specBlackList)
    (hd' : Reach next (Held node) (d.doDetect specBlackList) d') (path : String) :
    (d'.nodeCollection.pickOneNode path).1 ≠ some node := by
  have hindexed : d.nodeCollection.Indexed :=
    hd.invariant (I := fun d => d.nodeCollection.Indexed) NodeCollection.indexed_empty
      fun _ _ _ => Indexed.next
  have hinv : d'.nodeCollection.Indexed ∧ d'.Absent node :=
    hd'.invariant (I := fun d => d.nodeCollection.Indexed ∧ d.Absent node)
      ⟨Indexed.doDetect hindexed specBlackList, absent_doDetect hindexed hl hn hspec⟩
      fun _ _ _ h hc hnext => ⟨Indexed.next h.1 hc.1.1 hnext, Absent.next h.2 h.1 hc hnext⟩
  intro hpick
  obtain ⟨l, hl', hmem⟩ := NodeCollection.pickOneNode_mem hpick
  exact hinv.2 path l hl' hmem

/-- The collection after the first heartbeat of the path `p`. -/
def started (nodes : List String) : Detector :=
  { Detector.init with nodeCollection := NodeCollection.empty.updateHeartbeat nodes "p" }

theorem reach_started {nodes : List String} (h : nodes.Nodup) :
    Reach next Distinct .init (started nodes) :=
  (Reach.refl _).tail (a := .heartbeat nodes "p") h rfl

/-- A heartbeat that lists the bad node right after the round that reports it. -/
theorem bad_node_not_picked_after_heartbeat :
    ∃ d', Reach next (Held "x") ((started ["x", "y"]).doDetect ["x"]) d' ∧
      (d'.nodeCollection.pickOneNode "p").1 ≠ some "x" := by
  obtain ⟨d', hreach, -⟩ := exists_reach_of_follow next (Held "x")
    [.heartbeat ["x", "y"] "p", .pick "p"] ((started ["x", "y"]).doDetect ["x"])
    (fun _ => true) (by decide +kernel)
  have hl : (started ["x", "y"]).nodeCollection.validNodes.lookup "p" = some ["x", "y"] := by
    decide +kernel
  exact ⟨d', hreach, bad_node_not_picked "x" (reach_started (by decide)) hl (by simp) (by simp)
    hreach "p"⟩

/-- **A bad node is picked.**  Two rounds report the only node of a path, and nothing else is
reported; a heartbeat after the second one makes it valid again, and it is picked. -/
theorem bad_node_picked :
    Reach next Distinct .init (started ["x"]) ∧
    (started ["x"]).nodeCollection.validNodes.lookup "p" = some ["x"] ∧
    ∃ d', Reach next (Reported "x") ((started ["x"]).doDetect ["x"]) d' ∧
      (d'.nodeCollection.pickOneNode "p").1 = some "x" := by
  refine ⟨reach_started (by decide), by decide +kernel, ?_⟩
  obtain ⟨d', hreach, hpick⟩ := exists_reach_of_follow next (Reported "x")
    [.detect ["x"], .heartbeat ["x"] "p"] ((started ["x"]).doDetect ["x"])
    (fun d => decide ((d.nodeCollection.pickOneNode "p").1 = some "x")) (by decide +kernel)
  exact ⟨d', hreach, of_decide_eq_true hpick⟩

end Rtp.Leader
