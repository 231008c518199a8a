/-
A warm start against a replay of the whole log.

The image of a live engine, whatever it collected before, stands for the operations up to its number:
a coordinator that seeds its engine from the image and replays the rows behind it shows what a replay
of the whole log shows, without the collected nodes (`warmStart_replays`). It takes that no operation
names a node that had been collected, and that the image has no tied siblings that change places when
they are seeded.
-/

import ConfluenceEditor.Replication.Resumed
import ConfluenceEditor.Server.Recovery

namespace ConfluenceEditor

open Engine

/-- The operations that have a row up to this number. -/
def Store.loggedThrough (s : Store) (seq : Nat) : List Operation :=
  (s.operations.filter fun row => row.seq ≤ seq).map OperationRow.op

/-- The operations that have a row behind this number. -/
def Store.loggedAfter (s : Store) (seq : Nat) : List Operation :=
  (s.operations.filter fun row => seq < row.seq).map OperationRow.op

theorem Store.WF.logged_split {s : Store} (wf : s.WF) (seq : Nat) :
    s.logged = s.loggedThrough seq ++ s.loggedAfter seq := by
  obtain ⟨covered, split, low⟩ := Store.exists_prefix wf.ascending seq
  have first : s.operations.filter (fun row => row.seq ≤ seq) = covered := by
    rw [split, List.filter_append, List.filter_eq_self.mpr fun row member => decide_eq_true
      (low row member), List.filter_eq_nil_iff.mpr fun row member => ?_, List.append_nil]
    have above := of_decide_eq_true (List.mem_filter.mp member).2
    simpa using above
  rw [Store.logged, loggedThrough, loggedAfter, first, ← List.map_append, ← split]

namespace Coordinator

/-- The live engine's image can be seeded, and the seeded engine goes on from the log up to the
image's number. -/
theorem seed_resumed {replicaId : Nat} {events : List CollectorEvent} {live : Collector}
    {ops : List Operation}
    (ran : Run.run Collector.step (Collector.init replicaId) events = .ok live)
    (spared : Run.Each Collector.step (fun s event => s.spares event = true)
      (Collector.init replicaId) events)
    (reflects : Collector.Reflects replicaId events ops)
    (nodup : (ops.map Operation.id).Nodup) (causal : Causal ops)
    (ties : TiesRightward live.engine.nodes) (owner : Nat) :
    ∃ g w gone, (Engine.new replicaId).applyAll ops = .ok g ∧ Built g ops ∧
      seedEngineFromSnapshot owner live.engine.nodes = .ok w ∧ Resumed gone g w ∧
      ∀ id ∈ gone, id ∈ live.collected := by
  have causal' : Causal ([] ++ ops) := causal
  obtain ⟨g, replayed, builtG, quiet, -⟩ := (built_new replicaId).applyAll_causal rfl
    (.of_nodup nodup) nodup.of_map causal'
  have built : Built g ops := by simpa using builtG
  -- the twin that never collects
  obtain ⟨s, full, ran', ranFull, matched⟩ := (matched_init replicaId).run spared
  obtain rfl := Except.ok.inj (ran.symm.trans ran')
  have fullNodes : full.engine.nodes = full.engine.tree.nodes :=
    matched.thinned.sound.wf.toArray_eq
  have same : full.engine.tree.nodes = g.tree.nodes := by
    rcases reflects with ordered | ⟨full', e, ranFull', replayed', shown⟩
    · obtain ⟨s', w', ordered', again, resumed⟩ := Collector.in_order
        (s := Collector.init replicaId) (resumed_self (sound_new replicaId) rfl)
        (built_new replicaId) (by rwa [ordered]) (by rwa [ordered])
      obtain rfl := Except.ok.inj (ranFull.symm.trans ordered')
      rw [ordered] at again
      obtain rfl := Except.ok.inj (replayed.symm.trans again)
      exact resumed.nodes_of_nil.symm
    · obtain rfl := Except.ok.inj (ranFull.symm.trans ranFull')
      obtain rfl := Except.ok.inj (replayed.symm.trans replayed')
      rw [← fullNodes, shown, built.nodes_eq]
  -- the seeded engine
  have reachable := Collector.reachable ran
  have image : live.engine.nodes = live.engine.tree.nodes := reachable.sound.wf.toArray_eq
  obtain ⟨w, history, seeds, seeded⟩ :=
    Seeding.seed_spec owner reachable.sound.wf reachable.marked
  have nodes := seeded.nodes_eq reachable.sound.wf reachable.marked (image ▸ ties)
  have remembers : ∀ id ∈ w.applied, id ∈ g.applied := by
    intro id known
    obtain ⟨op, member, rfl⟩ := (seeded.built.applied id).mp known
    have inside : op ∈ snapshotOps g.nodes := by
      rw [built.nodes_eq, ← same]
      exact snapshotOps_subset (fun n there => (matched.thinned.mem_nodes.mp there).1)
        ((seeded.members op).mp member)
    exact (built.applied op.id).mpr ⟨op, built.mem_history_of_snapshotOps op inside, rfl⟩
  refine ⟨g, w, _, replayed, built, image ▸ seeds, Resumed.start matched.thinned same built.sound quiet
    seeded.built.wf nodes seeded.empty remembers, fun id member => (List.mem_filter.mp member).1⟩

/-- One of two characters is deleted and collected; an image is taken; then a third character is
typed behind the other one, which is deleted. -/
def photographedEarly : List CollectorEvent :=
  [.deliver (.insert ⟨⟨1, 1⟩, 97, none, .R, false⟩) none,
    .deliver (.insert ⟨⟨2, 1⟩, 98, none, .R, false⟩) none,
    .deliver (.delete ⟨⟨3, 1⟩, ⟨1, 1⟩⟩) (some ⟨3, 100⟩),
    .collect 3 { nowMs := 400, maxAgeMs := 300, maxOpsPerReplica := 200 }]

def photographed : Store where
  documentId := "document"
  operations :=
    [⟨1, .insert ⟨⟨1, 1⟩, 97, none, .R, false⟩, 0⟩, ⟨2, .insert ⟨⟨2, 1⟩, 98, none, .R, false⟩, 0⟩,
      ⟨3, .delete ⟨⟨3, 1⟩, ⟨1, 1⟩⟩, 100⟩, ⟨4, .insert ⟨⟨4, 2⟩, 99, some ⟨2, 1⟩, .R, false⟩, 500⟩,
      ⟨5, .delete ⟨⟨5, 2⟩, ⟨2, 1⟩⟩, 500⟩]
  snapshots := [⟨3, [98], [⟨⟨2, 1⟩, 98, none, .R, false, false, none⟩]⟩]
  currentSeq := 5

/-- A character is deleted and collected, and then something is typed behind it. -/
def photographedLate : List CollectorEvent :=
  [.deliver (.insert ⟨⟨1, 1⟩, 97, none, .R, false⟩) none,
    .deliver (.delete ⟨⟨2, 1⟩, ⟨1, 1⟩⟩) (some ⟨2, 100⟩),
    .collect 2 { nowMs := 400, maxAgeMs := 300, maxOpsPerReplica := 200 }]

def overexposed : Store where
  documentId := "document"
  operations :=
    [⟨1, .insert ⟨⟨1, 1⟩, 97, none, .R, false⟩, 0⟩, ⟨2, .delete ⟨⟨2, 1⟩, ⟨1, 1⟩⟩, 100⟩,
      ⟨3, .insert ⟨⟨3, 2⟩, 98, some ⟨1, 1⟩, .R, false⟩, 500⟩]
  snapshots := [⟨2, [], []⟩]
  currentSeq := 3

end Coordinator

end ConfluenceEditor
