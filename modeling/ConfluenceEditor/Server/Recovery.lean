/-
Recovery from the store.

`Explains history full` relates what an engine remembers to everything that was executed to get
there, across rebuilds: the same inserts, the same attributions, nothing forgotten in `full`. A warm
start succeeds, and its engine is explained by the newest snapshot's operations followed by the
suffix, when the rows and the snapshot together contain every insert a row depends on
(`warmStart_spec`).
-/

import ConfluenceEditor.Server.WritePath

namespace ConfluenceEditor

open Engine

/-- Executing `full` in its order gives the inserts and attributions of `history`, and leaves no
operation of it out. -/
structure Explains (history full : List Operation) : Prop where
  inserts : ∀ ins : InsertOperation, .insert ins ∈ history ↔ .insert ins ∈ full
  dots : ∀ target, dotOf history target = dotOf full target
  subset : ∀ op ∈ history, op ∈ full

theorem Explains.refl (history : List Operation) : Explains history history :=
  ⟨fun _ => Iff.rfl, fun _ => rfl, fun _ member => member⟩

theorem Explains.trans {first second third : List Operation} (inner : Explains first second)
    (outer : Explains second third) : Explains first third :=
  ⟨fun ins => (inner.inserts ins).trans (outer.inserts ins),
    fun target => (inner.dots target).trans (outer.dots target),
    fun op member => outer.subset op (inner.subset op member)⟩

theorem Explains.append {history full : List Operation} (explains : Explains history full)
    (later : List Operation) : Explains (history ++ later) (full ++ later) where
  inserts ins := by rw [List.mem_append, List.mem_append, explains.inserts]
  dots target := by rw [dotOf_append, dotOf_append, explains.dots]
  subset op member := by
    rcases List.mem_append.mp member with old | new
    · exact List.mem_append_left _ (explains.subset op old)
    · exact List.mem_append_right _ new

theorem Rebuilt.explains {history rebuilt : List Operation} (spec : Rebuilt history rebuilt) :
    Explains rebuilt history := ⟨spec.inserts, spec.dotOf_eq, spec.subset⟩

/-- The nodes show the outcome of executing `full` in its order. -/
structure Shows (nodes : List Node) (full : List Operation) : Prop where
  inserts : ∀ ins, ins ∈ nodes.map Node.toInsert ↔ .insert ins ∈ full
  deletedBy : ∀ n ∈ nodes, n.deletedBy = dotOf full n.id
  deleted : ∀ n ∈ nodes, n.deleted = n.deletedBy.isSome

theorem Built.shows {e : Engine} {history full : List Operation} (built : Built e history)
    (explains : Explains history full) : Shows e.nodes full := by
  rw [built.nodes_eq]
  exact ⟨fun ins => (built.inserts ins).trans (explains.inserts ins),
    fun n member => (built.deletedBy n member).trans (explains.dots n.id), built.deleted⟩

/-- The nodes are those of an engine whose history `full` explains. -/
def Image (nodes : List Node) (full : List Operation) : Prop :=
  ∃ e history, Built e history ∧ e.nodes = nodes ∧ Explains history full

/-- The inserts that the newest snapshot contains. -/
def Store.latestInserts (s : Store) : List Operation :=
  match s.latestSnapshot with
  | some row => row.nodes.map fun n => .insert n.toInsert
  | none => []

/-- The operations that have a row, in the order of their numbers. -/
def Store.logged (s : Store) : List Operation := s.operations.map OperationRow.op

theorem Store.WF.nodup_logged {s : Store} (wf : s.WF) : (s.logged.map Operation.id).Nodup := by
  rw [Store.logged, List.map_map]
  exact wf.stamps

/-- What a warm start needs of the store: every row finds its dependency in the newest snapshot or
in an earlier row, and the snapshot accounts for the rows up to its number. -/
structure Recoverable (s : Store) (known : List Operation) : Prop where
  wf : s.WF
  distinct : DistinctIds known
  logged : ∀ op ∈ s.logged, op ∈ known
  prepared : Prepared s.latestInserts s.logged
  covered : ∀ row, s.latestSnapshot = some row → ∃ full, Image row.nodes full ∧
    (∀ op ∈ full, op ∈ known) ∧ ∀ r ∈ s.operations, r.seq ≤ row.seq → r.op ∈ full

namespace Coordinator

/-- The coordinator after a warm start. -/
structure Recovered (s : Store) (c : Coordinator) (history full : List Operation) : Prop where
  built : Built c.engine history
  empty : c.engine.pending = []
  explains : Explains history full
  logged : ∀ op ∈ s.logged, op ∈ full
  inserts : ∀ op ∈ s.latestInserts, op ∈ history
  queue : c.queue = CommitQueue.resume s

/-- Replaying the suffix on the seeded engine. -/
theorem replaySuffix_spec {s : Store} {known : List Operation} (recoverable : Recoverable s known)
    {e : Engine} {seed full : List Operation} (built : Built e seed) (empty : e.pending = [])
    (explains : Explains seed full) (inside : ∀ op ∈ full, op ∈ known)
    (inserts : ∀ op ∈ s.latestInserts, op ∈ seed)
    (covered : ∀ r ∈ s.operations, r.seq ≤ s.snapshotSeq → r.op ∈ full) :
    ∃ e' history full', e.applyEach (s.warmStart.suffixOps.map OperationRow.replayed) = .ok e' ∧
      (∀ op ∈ full', op ∈ known) ∧
      Recovered s ⟨e', CommitQueue.resume s, fun _ => none⟩ history full' := by
  obtain ⟨before, split, low⟩ := Store.exists_prefix recoverable.wf.ascending s.snapshotSeq
  set rows := s.operations.filter fun row => s.snapshotSeq < row.seq with hrows
  set suffix := rows.map OperationRow.op with hsuffix
  have items : (s.warmStart.suffixOps.map OperationRow.replayed).map Prod.fst = suffix := by
    rw [List.map_map]
    rfl
  have logged : s.logged = before.map OperationRow.op ++ suffix := by
    rw [Store.logged, split, List.map_append]
  have inLogged : ∀ op ∈ suffix, op ∈ s.logged := fun op member => by
    rw [logged]
    exact List.mem_append_right _ member
  have nodup : suffix.Nodup := by
    have all := recoverable.wf.nodup_logged.of_map
    rw [logged] at all
    exact (List.nodup_append.mp all).2.1
  have distinct : DistinctIds (seed ++ suffix) := recoverable.distinct.subset fun op member => by
    rcases List.mem_append.mp member with old | new
    · exact inside op (explains.subset op old)
    · exact recoverable.logged op (inLogged op new)
  have causal : Causal (seed ++ suffix) := by
    have prepared := recoverable.prepared
    rw [logged, prepared_append] at prepared
    refine built.causal.append_prepared (prepared.2.mono fun ins member => ?_)
    rcases List.mem_append.mp member with snapshot | early
    · exact inserts _ snapshot
    · obtain ⟨r, inBefore, same⟩ := List.mem_map.mp early
      rw [explains.inserts, ← same]
      exact covered r (by rw [split]; exact List.mem_append_left _ inBefore) (low r inBefore)
  rw [← items] at distinct nodup causal
  obtain ⟨e', applied, built', empty', -⟩ := built.applyEach_causal empty distinct nodup causal
  rw [items] at built'
  refine ⟨e', _, full ++ suffix.filter (fun op => decide (op ∉ seed)), applied, fun op member => ?_,
    built', empty', explains.append _, fun op member => ?_, fun op member =>
    List.mem_append_left _ (inserts op member), rfl⟩
  · rcases List.mem_append.mp member with old | new
    · exact inside op old
    · exact recoverable.logged op (inLogged op (List.mem_filter.mp new).1)
  · rw [logged] at member
    rcases List.mem_append.mp member with early | late
    · obtain ⟨r, inBefore, rfl⟩ := List.mem_map.mp early
      exact List.mem_append_left _ (covered r
        (by rw [split]; exact List.mem_append_left _ inBefore) (low r inBefore))
    · by_cases remembered : op ∈ seed
      · exact List.mem_append_left _ (explains.subset op remembered)
      · exact List.mem_append_right _ (List.mem_filter.mpr ⟨late, decide_eq_true remembered⟩)

/-- A warm start from a recoverable store succeeds and accounts for every row. -/
theorem warmStart_spec {s : Store} {known : List Operation} (recoverable : Recoverable s known) :
    ∃ c history full, warmStart s = .ok c ∧ (∀ op ∈ full, op ∈ known) ∧
      Recovered s c history full := by
  cases latest : s.latestSnapshot with
  | none =>
      have nothing : s.latestInserts = [] := by rw [Store.latestInserts, latest]
      have zero : s.snapshotSeq = 0 := by rw [Store.snapshotSeq, latest]
      obtain ⟨e, history, full, replayed, inside, recovered⟩ := replaySuffix_spec recoverable
        (built_new serverReplicaId) rfl (.refl []) nofun (by simp [nothing]) (fun r member low => by
          have := (recoverable.wf.numbered r member).1
          omega)
      refine ⟨⟨e, CommitQueue.resume s, fun _ => none⟩, history, full, ?_, inside, recovered⟩
      have empty := recovered.empty
      simp only at empty
      simp [warmStart, Store.warmStart, latest, bind, Except.bind] at replayed ⊢
      simp [replayed, empty]
  | some row =>
      obtain ⟨image, ⟨e, history, built, nodes, explains⟩, inside, covered⟩ :=
        recoverable.covered row latest
      obtain ⟨seeded, seed, seededOk, builtSeed, empty, -, rebuilt⟩ :=
        built.rebuild_spec serverReplicaId
      rw [nodes] at seededOk
      have number : s.snapshotSeq = row.seq := by rw [Store.snapshotSeq, latest]
      have inserts : ∀ op ∈ s.latestInserts, op ∈ seed := by
        intro op member
        rw [Store.latestInserts, latest] at member
        simp only [← nodes, built.nodes_eq] at member
        obtain ⟨n, inNodes, rfl⟩ := List.mem_map.mp member
        exact (rebuilt.inserts _).mpr (built.mem_history_of_node inNodes)
      obtain ⟨e', history', full, replayed, inside', recovered⟩ := replaySuffix_spec recoverable
        builtSeed empty (rebuilt.explains.trans explains) inside inserts (by rwa [number])
      refine ⟨⟨e', CommitQueue.resume s, fun _ => none⟩, history', full, ?_, inside', recovered⟩
      have empty' := recovered.empty
      simp only at empty'
      rw [seedEngineFromSnapshot] at seededOk
      simp only [warmStart, Store.warmStart, latest, Option.map_some, bind, Except.bind, seededOk]
        at replayed ⊢
      simp [replayed, empty']

end Coordinator

end ConfluenceEditor
