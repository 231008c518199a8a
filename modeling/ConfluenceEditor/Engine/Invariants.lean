/-
The runtime assertions for the engine's invariants I0 to I9.

`assertInvariants` is called again and again in the life of an engine and compares what it sees with
what it saw before: the tracking state holds, for every identifier, the fields of its node, its last
attribution and its last index. The definitions follow the source's first pass over the nodes and the
checks behind it. On the engines that calls reach, seven of the ten assertions never fail
(`violations_eq`). The other three fail exactly where they say (`passes_iff`): an attribution is smaller
than an earlier assertion saw it, there are fewer nodes than at the last assertion, or something waits
at what the caller declares to be the end.
-/

import ConfluenceEditor.Engine.ClockLog
import ConfluenceEditor.Replication.Clusters
import ConfluenceEditor.Replication.Provenance
import Mathlib.Data.List.Dedup

namespace ConfluenceEditor

open SidedForest SidedForest.Forest Engine

/-! ### The assertions -/

/-- A failed assertion, with what its message names. -/
inductive Violation where
  | I0 (events replayed currentClock : Nat)
  | I1 (nodes distinct : Nat)
  | I2 (node : Identifier)
  | I3 (node : Identifier)
  | I4 (node parent : Identifier)
  | I5 (lastNodeCount nodes : Nat)
  | I6 (node : Identifier) (side : Side)
  | I7 (node prevDeletedBy deletedBy : Identifier)
  | I8 (other node : Identifier)
  | I9 (pending : Nat)
  deriving DecidableEq, Repr

namespace Violation

def message : Violation → String
  | I0 events replayed currentClock =>
      "I0 violated: replaying " ++ toString events ++ " mint/observe event(s) with correct " ++
        "max/increment semantics yields clock " ++ toString replayed ++
        ", but the engine's actual clock is " ++ toString currentClock ++
        ". MINT must advance the clock by exactly 1; OBSERVE must only merge " ++
        "via max() and never increment on its own — Engine Spec §5 I0, §3.2."
  | I1 nodes distinct =>
      "I1 violated: " ++ toString nodes ++ " node(s) but only " ++ toString distinct ++
        " distinct identifier(s) among them — Engine Spec §5 I1, §3.3."
  | I2 node =>
      "I2 violated: node " ++ serializeId node ++
        "'s identity fields changed after creation — Engine Spec §5 I2."
  | I3 node =>
      "I3 violated: node " ++ serializeId node ++
        "'s position relative to its neighbors regressed " ++
        "since it was last observed — Engine Spec §5 I3, §4.3."
  | I4 node parent =>
      "I4 violated: node " ++ serializeId node ++ "'s parent " ++ serializeId parent ++
        " is not present in the structure — Engine Spec §5 I4, §4.2."
  | I5 lastNodeCount nodes =>
      "I5 violated: the structure shrank from " ++ toString lastNodeCount ++ " to " ++
        toString nodes ++ " node(s) outside " ++
        "of engine.collect() — a node referenced as an origin must never be physically removed " ++
        "while it may still be needed as an anchor — Engine Spec §5 I5, §4.5/§7.4."
  | I6 node .R =>
      "I6 violated: node " ++ serializeId node ++ " (side R) is not positioned after its parent — " ++
        "Engine Spec §5 I6, §4.3 (Fugue placement rule)."
  | I6 node .L =>
      "I6 violated: node " ++ serializeId node ++
        " (side L) is not positioned before its reference node — " ++
        "Engine Spec §5 I6, §4.3 (Fugue placement rule)."
  | I7 node prevDeletedBy deletedBy =>
      "I7 violated: node " ++ serializeId node ++ "'s deletedBy regressed from " ++
        serializeId prevDeletedBy ++ " to " ++ serializeId deletedBy ++
        " — Engine Spec §5 I7, §4.5."
  | I8 other node =>
      "I8 violated: ordinary sibling " ++ serializeId other ++ " sorts before combining mark " ++
        serializeId node ++ " sharing the same parent/side — Engine Spec §5 I8, §4.4."
  | I9 pending =>
      "I9 violated: " ++ toString pending ++ " operation(s) still pending at quiescence — " ++
        "Engine Spec §5 I9, §4.2."

end Violation

/-- What the assertions remember of an engine. A node's identity fields are those of its insert. -/
structure EngineTrackingState where
  nodeSnapshots : Identifier → Option InsertOperation
  deletedBySeen : Identifier → Option Identifier
  lastIndexOf : Identifier → Option Nat
  lastNodeCount : Option Nat

structure AssertInvariantsOptions where
  quiescent : Bool
  afterCollect : Bool
  deriving DecidableEq, Repr

namespace EngineTrackingState

def new : EngineTrackingState := ⟨fun _ => none, fun _ => none, fun _ => none, none⟩

/-- The variables of the first pass. -/
structure Scan where
  lastIndexOf : Identifier → Option Nat
  highestPriorIndexSoFar : Int
  i3Violation : Option Node

/-- The first pass at the node with index `i`. -/
def Scan.visit (s : Scan) (n : Node) (i : Nat) : Scan :=
  let s := match s.lastIndexOf n.id with
    | some priorIndex =>
        { s with
          highestPriorIndexSoFar := priorIndex
          i3Violation :=
            if s.i3Violation = none ∧ (priorIndex : Int) < s.highestPriorIndexSoFar then some n
            else s.i3Violation }
    | none => s
  { s with lastIndexOf := Function.update s.lastIndexOf n.id (some i) }

def scan (lastIndexOf : Identifier → Option Nat) (nodes : List Node) : Scan :=
  nodes.zipIdx.foldl (fun s entry => s.visit entry.1 entry.2) ⟨lastIndexOf, -1, none⟩

def replayClock (events : List ClockEvent) : Nat := events.foldl ClockEvent.replay 0

/-- The node with an identifier, and its index; a later entry would replace an earlier one. -/
def resolve (nodes : List Node) (id : Identifier) : Option (Node × Nat) :=
  nodes.zipIdx.reverse.find? fun entry => entry.1.id = id

/-- I2: the identity fields of a node never change. -/
def checkSnapshot (t : EngineTrackingState) (node : Node) : List Violation :=
  match t.nodeSnapshots node.id with
  | some prevSnapshot => if prevSnapshot ≠ node.toInsert then [.I2 node.id] else []
  | none => []

/-- I4 and I6: the parent is present, and stands on the right side of the node. -/
def checkParent (nodes : List Node) (node : Node) (myIndex : Nat) : List Violation :=
  match node.parent with
  | none => []
  | some parent =>
      match resolve nodes parent with
      | none => [.I4 node.id parent]
      | some (_, parentIndex) =>
          match node.side with
          | .R => if parentIndex < myIndex then [] else [.I6 node.id .R]
          | .L => if myIndex < parentIndex then [] else [.I6 node.id .L]

/-- I7: an attribution only advances. -/
def checkDeletedBy (t : EngineTrackingState) (node : Node) : List Violation :=
  match node.deletedBy with
  | none => []
  | some deletedBy =>
      match t.deletedBySeen node.id with
      | none => []
      | some prevDeletedBy =>
          if compareIds deletedBy prevDeletedBy < 0 then [.I7 node.id prevDeletedBy deletedBy]
          else []

/-- I8: no ordinary sibling stands before a combining mark. -/
def checkSiblings (nodes : List Node) (node : Node) (myIndex : Nat) : List Violation :=
  nodes.zipIdx.filterMap fun (other, otherIndex) =>
    if otherIndex ≠ myIndex ∧ other.parent = node.parent ∧ other.side = node.side ∧
        node.bind = true ∧ other.bind = false ∧ otherIndex < myIndex then
      some (.I8 other.id node.id)
    else none

/-- What the second pass remembers of a node. -/
def remember (t : EngineTrackingState) (node : Node) : EngineTrackingState :=
  { t with
    nodeSnapshots :=
      if t.nodeSnapshots node.id = none then
        Function.update t.nodeSnapshots node.id (some node.toInsert)
      else t.nodeSnapshots
    deletedBySeen :=
      if node.deletedBy ≠ none ∧ t.checkDeletedBy node = [] then
        Function.update t.deletedBySeen node.id node.deletedBy
      else t.deletedBySeen }

/-- The second pass. -/
def checkNodes (nodes : List Node) : EngineTrackingState → List (Node × Nat) →
    List Violation × EngineTrackingState
  | t, [] => ([], t)
  | t, (node, i) :: rest =>
      let (violations, t') := checkNodes nodes (t.remember node) rest
      (t.checkSnapshot node ++ checkParent nodes node i ++ t.checkDeletedBy node ++
        checkSiblings nodes node i ++ violations, t')

end EngineTrackingState

open EngineTrackingState

/-- The violations, in the order of their messages, and what is remembered. -/
def assertInvariants (e : Engine) (clockEventLog : List ClockEvent) (t : EngineTrackingState)
    (options : AssertInvariantsOptions) : List Violation × EngineTrackingState :=
  let nodes := e.nodes
  let scanned := scan t.lastIndexOf nodes
  let t := { t with lastIndexOf := scanned.lastIndexOf }
  let idCount := (nodes.map Node.id).dedup.length
  let (perNode, t) := checkNodes nodes t nodes.zipIdx
  let shrank := match t.lastNodeCount with
    | some lastNodeCount =>
        if !options.afterCollect && decide (nodes.length < lastNodeCount) then
          [.I5 lastNodeCount nodes.length]
        else []
    | none => []
  (scanned.i3Violation.toList.map (fun n => .I3 n.id) ++
    (if replayClock clockEventLog ≠ e.clock then
      [.I0 clockEventLog.length (replayClock clockEventLog) e.clock] else []) ++
    (if idCount ≠ nodes.length then [.I1 nodes.length idCount] else []) ++
    perNode ++ shrank ++
    (if options.quiescent = true ∧ e.pending.length ≠ 0 then [.I9 e.pending.length] else []),
    { t with lastNodeCount := some nodes.length })

/-- What the caller gets to see: an exception with the messages, if there are any. -/
def assertInvariantsMessage (violations : List Violation) : Except String Unit :=
  if violations = [] then .ok ()
  else .error ("\n".intercalate (violations.map Violation.message))

/-! ### The first pass -/

section Scan

variable {nodes : List Node} {k : Nat} {s : Scan}

theorem Scan.visit_lastIndexOf (s : Scan) (n : Node) (i : Nat) :
    (s.visit n i).lastIndexOf = Function.update s.lastIndexOf n.id (some i) := by
  unfold Scan.visit
  split <;> rfl

/-- Every node gets its index, and the identifiers of no node keep theirs. -/
theorem lastIndexOf_visits (distinct : (nodes.map Node.id).Nodup) :
    (∀ id ∉ nodes.map Node.id,
      ((nodes.zipIdx k).foldl (fun s entry => s.visit entry.1 entry.2) s).lastIndexOf id =
        s.lastIndexOf id) ∧
    ∀ i n, nodes[i]? = some n →
      ((nodes.zipIdx k).foldl (fun s entry => s.visit entry.1 entry.2) s).lastIndexOf n.id =
        some (k + i) := by
  induction nodes generalizing k s with
  | nil => exact ⟨fun _ _ => rfl, fun _ _ absent => by cases absent⟩
  | cons n nodes ih =>
      obtain ⟨fresh, distinct⟩ := List.nodup_cons.mp distinct
      obtain ⟨others, own⟩ := ih (k := k + 1) (s := s.visit n k) distinct
      rw [List.zipIdx_cons, List.foldl_cons]
      refine ⟨fun id absent => ?_, fun i m at? => ?_⟩
      · obtain ⟨apart, absent⟩ := List.ne_and_not_mem_of_not_mem_cons absent
        rw [others id absent, Scan.visit_lastIndexOf, Function.update_of_ne apart]
      · cases i with
        | zero =>
            obtain rfl := Option.some.inj at?
            rw [others n.id fresh, Scan.visit_lastIndexOf, Function.update_self]
            rfl
        | succ i =>
            rw [own i m at?]
            congr 1
            omega

/-- Where the remembered indices ascend along the nodes, none is below the one before it. -/
theorem visits_clean (distinct : (nodes.map Node.id).Nodup)
    (ordered : (nodes.filterMap fun n => s.lastIndexOf n.id).Pairwise (· < ·))
    (above : ∀ i ∈ nodes.filterMap fun n => s.lastIndexOf n.id, s.highestPriorIndexSoFar < (i : Int))
    (clean : s.i3Violation = none) :
    ((nodes.zipIdx k).foldl (fun s entry => s.visit entry.1 entry.2) s).i3Violation = none := by
  induction nodes generalizing k s with
  | nil => exact clean
  | cons n nodes ih =>
      obtain ⟨fresh, distinct⟩ := List.nodup_cons.mp distinct
      rw [List.zipIdx_cons, List.foldl_cons]
      have later : (nodes.filterMap fun m => (s.visit n k).lastIndexOf m.id) =
          nodes.filterMap fun m => s.lastIndexOf m.id :=
        List.filterMap_congr fun m member => by
          have apart : m.id ≠ n.id := fun same => fresh (same ▸ List.mem_map_of_mem member)
          rw [Scan.visit_lastIndexOf, Function.update_of_ne apart]
      cases prior : s.lastIndexOf n.id with
      | none =>
          rw [List.filterMap_cons, prior] at ordered above
          refine ih distinct (later ▸ ordered) ?_ ?_
          · rw [later, Scan.visit, prior]
            exact above
          · rw [Scan.visit, prior]
            exact clean
      | some priorIndex =>
          rw [List.filterMap_cons, prior] at ordered above
          obtain ⟨first, ordered⟩ := List.pairwise_cons.mp ordered
          have here := above priorIndex List.mem_cons_self
          refine ih distinct (later ▸ ordered) ?_ ?_
          · rw [later, Scan.visit, prior]
            exact fun i member => Int.ofNat_lt.mpr (first i member)
          · rw [Scan.visit, prior]
            exact (if_neg fun below => absurd below.2 (by omega)).trans clean

/-- What the first pass remembers ascends along the nodes. -/
theorem scan_ordered (lastIndexOf : Identifier → Option Nat) (distinct : (nodes.map Node.id).Nodup) :
    (nodes.filterMap fun n => (scan lastIndexOf nodes).lastIndexOf n.id).Pairwise (· < ·) := by
  have own := (lastIndexOf_visits (k := 0) (s := ⟨lastIndexOf, -1, none⟩) distinct).2
  rw [List.pairwise_filterMap, List.pairwise_iff_getElem]
  intro i j inI inJ below a first b second
  have one := own i _ (List.getElem?_eq_getElem inI)
  have two := own j _ (List.getElem?_eq_getElem inJ)
  have here := Option.some.inj (one.symm.trans first)
  have there := Option.some.inj (two.symm.trans second)
  omega

end Scan

/-! ### The second pass -/

theorem compareIds_neg_iff {a b : Identifier} : compareIds a b < 0 ↔ a < b := by
  rw [Identifier.lt_iff, compareIds]
  split_ifs <;> omega

theorem Identifier.not_lt_trans {p q r : Identifier} (first : ¬ q < p) (second : ¬ r < q) :
    ¬ r < p := by
  rw [lt_iff] at *
  omega

section Nodes

variable {nodes : List Node}

theorem before_of_lt {l : List Node} {x y : Node} {i j : Nat} (first : l[i]? = some x)
    (second : l[j]? = some y) (below : i < j) : Before l x y := by
  rw [← List.take_append_drop (i + 1) l]
  refine before_of_append ?_ ?_
  · exact List.mem_of_getElem? (i := i) (by rw [List.getElem?_take_of_lt (by omega), first])
  · refine List.mem_of_getElem? (i := j - (i + 1)) ?_
    rw [List.getElem?_drop, ← second]
    congr 1
    omega

theorem lt_of_before {l : List Node} {x y : Node} {i j : Nat} (nodup : l.Nodup)
    (before : Before l x y) (first : l[i]? = some x) (second : l[j]? = some y) : i < j := by
  rcases lt_trichotomy i j with below | rfl | above
  · exact below
  · obtain rfl := Option.some.inj (first.symm.trans second)
    exact absurd before (before.asymm nodup)
  · exact absurd (before_of_lt second first above) (before.asymm nodup)

theorem resolve_eq (distinct : (nodes.map Node.id).Nodup) {n : Node} {i : Nat}
    (at? : nodes[i]? = some n) : resolve nodes n.id = some (n, i) := by
  cases found : resolve nodes n.id with
  | none =>
      have none := List.find?_eq_none.mp found (n, i)
        (List.mem_reverse.mpr (List.mem_zipIdx_iff_getElem?.mpr at?))
      exact absurd (decide_eq_true rfl) none
  | some entry =>
      have there := List.mem_zipIdx_iff_getElem?.mp (List.mem_reverse.mp (List.mem_of_find?_eq_some found))
      have same : entry.1.id = n.id := by
        simpa using List.find?_some found
      have equal : entry.1 = n := List.inj_on_of_nodup_map distinct (List.mem_of_getElem? there)
        (List.mem_of_getElem? at?) same
      have index : entry.2 = i :=
        (List.getElem?_inj (List.getElem?_eq_some_iff.mp there).1 distinct.of_map).mp
          (there.trans ((congrArg some equal).trans at?.symm))
      rw [← equal, ← index]

/-- A right child stands behind its parent, a left child before it. -/
theorem FugueTree.WF.beside_parent {t : FugueTree} (wf : t.WF) {n p : Node} (member : n ∈ t.nodes)
    (above : p ∈ t.nodes) (under : n.parent = some p.id) :
    (n.side = .R → Before t.nodes p n) ∧ (n.side = .L → Before t.nodes n p) := by
  obtain ⟨⟨a, l, r⟩, lookup, rfl⟩ := Option.map_eq_some_iff.mp
    (wf.nodeByIdentifier_eq_some_iff.mpr ⟨above, rfl⟩)
  have sub := (FugueTree.get?_sub lookup).2
  have root := (wf.public_children sub n.side n).mp ⟨member, under, rfl⟩
  obtain ⟨before, after, split⟩ := (sub.map TreeNode.toPublicNode).split
  rw [FugueTree.inorder_public] at split
  have part : ((l.map TreeNode.toPublicNode).inorder ++
      a.toPublicNode :: (r.map TreeNode.toPublicNode).inorder).Sublist t.nodes := by
    rw [split]
    exact (List.sublist_append_right before _).trans (List.sublist_append_left _ after)
  refine ⟨fun right => ?_, fun left => ?_⟩
  · rw [right] at root
    have behind : Before (a.toPublicNode :: (r.map TreeNode.toPublicNode).inorder) a.toPublicNode n :=
      before_cons_iff.mpr (Or.inl ⟨rfl, mem_of_mem_roots root⟩)
    exact behind.mono ((List.sublist_append_right _ _).trans part)
  · rw [left] at root
    exact (before_of_append (mem_of_mem_roots root) List.mem_cons_self).mono part

theorem checkParent_eq_nil {t : FugueTree} (wf : t.WF) {node : Node} {i : Nat}
    (at? : t.nodes[i]? = some node) : checkParent t.nodes node i = [] := by
  unfold checkParent
  cases under : node.parent with
  | none => rfl
  | some parent =>
      have member := List.mem_of_getElem? at?
      obtain ⟨p, above, rfl⟩ := wf.exists_parent member under
      obtain ⟨j, there⟩ := List.getElem?_of_mem above
      have beside := wf.beside_parent member above under
      have nodup := wf.nodup.of_map
      simp only [resolve_eq wf.nodup there]
      cases side : node.side with
      | R => exact if_pos (lt_of_before nodup (beside.1 side) there at?)
      | L => exact if_pos (lt_of_before nodup (beside.2 side) at? there)

theorem checkSiblings_eq_nil {t : FugueTree} (wf : t.WF) {node : Node} {i : Nat}
    (at? : t.nodes[i]? = some node) : checkSiblings t.nodes node i = [] := by
  refine List.filterMap_eq_nil_iff.mpr fun entry member => if_neg ?_
  rintro ⟨-, parent, side, bound, unbound, below⟩
  have before := before_of_lt (List.mem_zipIdx_iff_getElem?.mp member) at? below
  have binds := Network.bind_of_before wf before parent side bound
  rw [unbound] at binds
  cases binds

/-- What is remembered of one node concerns no other. -/
theorem EngineTrackingState.remember_of_ne (t : EngineTrackingState) {node : Node} {id : Identifier}
    (apart : id ≠ node.id) : (t.remember node).nodeSnapshots id = t.nodeSnapshots id ∧
      (t.remember node).deletedBySeen id = t.deletedBySeen id := by
  unfold remember
  constructor
  · dsimp only
    split_ifs
    · rw [Function.update_of_ne apart]
    · rfl
  · dsimp only
    split_ifs
    · rw [Function.update_of_ne apart]
    · rfl

/-- A node is remembered as it is, or as it was remembered before. -/
theorem EngineTrackingState.remember_self (t : EngineTrackingState) (node : Node) {op : InsertOperation}
    (seen : (t.remember node).nodeSnapshots node.id = some op) :
    t.nodeSnapshots node.id = some op ∨ op = node.toInsert := by
  unfold remember at seen
  dsimp only at seen
  split_ifs at seen with fresh
  · rw [Function.update_self] at seen
    exact Or.inr (Option.some.inj seen).symm
  · exact Or.inl seen

/-- The checks of a node read nothing that the nodes before it wrote. -/
theorem checkNodes_spec (nodes : List Node) {t : EngineTrackingState} {entries : List (Node × Nat)}
    (distinct : (entries.map fun entry => entry.1.id).Nodup) :
    (checkNodes nodes t entries).1 = (entries.flatMap fun entry =>
      t.checkSnapshot entry.1 ++ checkParent nodes entry.1 entry.2 ++ t.checkDeletedBy entry.1 ++
        checkSiblings nodes entry.1 entry.2) ∧
    (checkNodes nodes t entries).2.lastIndexOf = t.lastIndexOf ∧
    (checkNodes nodes t entries).2.lastNodeCount = t.lastNodeCount ∧
    ∀ id op, (checkNodes nodes t entries).2.nodeSnapshots id = some op →
      t.nodeSnapshots id = some op ∨ ∃ entry ∈ entries, entry.1.id = id ∧ op = entry.1.toInsert := by
  induction entries generalizing t with
  | nil => exact ⟨rfl, rfl, rfl, fun _ _ seen => Or.inl seen⟩
  | cons entry entries ih =>
      obtain ⟨node, i⟩ := entry
      obtain ⟨fresh, distinct⟩ := List.nodup_cons.mp distinct
      obtain ⟨violations, indices, count, snapshots⟩ := ih (t := t.remember node) distinct
      refine ⟨?_, indices, count, fun id op seen => ?_⟩
      · change _ ++ (checkNodes nodes (t.remember node) entries).1 = _
        rw [List.flatMap_cons, violations]
        refine congrArg _ (List.flatMap_congr fun entry member => ?_)
        have apart : entry.1.id ≠ node.id := fun same =>
          fresh (List.mem_map.mpr ⟨entry, member, same⟩)
        obtain ⟨snapshot, attribution⟩ := t.remember_of_ne apart
        rw [checkSnapshot, checkSnapshot, checkDeletedBy, checkDeletedBy, snapshot, attribution]
      · rcases snapshots id op seen with old | ⟨entry, member, same⟩
        · by_cases here : id = node.id
          · subst here
            exact (t.remember_self node old).imp_right fun same =>
              ⟨(node, i), List.mem_cons_self, rfl, same⟩
          · rw [(t.remember_of_ne here).1] at old
            exact Or.inl old
        · exact Or.inr ⟨entry, List.mem_cons_of_mem _ member, same⟩

/-- What is remembered of attributions only advances. -/
theorem EngineTrackingState.remember_mono (t : EngineTrackingState) (node : Node) {id q : Identifier}
    (seen : t.deletedBySeen id = some q) :
    ∃ q', (t.remember node).deletedBySeen id = some q' ∧ ¬ q' < q := by
  by_cases here : id = node.id
  · subst here
    unfold remember
    dsimp only
    split_ifs with advanced
    · obtain ⟨attributed, clean⟩ := advanced
      obtain ⟨p, shown⟩ := Option.ne_none_iff_exists'.mp attributed
      refine ⟨p, by rw [Function.update_self, shown], fun below => ?_⟩
      rw [checkDeletedBy, shown] at clean
      simp only [seen, compareIds_neg_iff, below, if_true] at clean
      cases clean
    · exact ⟨q, seen, Identifier.lt_irrefl q⟩
  · rw [(t.remember_of_ne here).2]
    exact ⟨q, seen, Identifier.lt_irrefl q⟩

/-- It is not behind the node that was looked at. -/
theorem EngineTrackingState.remember_covers (t : EngineTrackingState) {node : Node} {p : Identifier}
    (shown : node.deletedBy = some p) :
    ∃ q, (t.remember node).deletedBySeen node.id = some q ∧ ¬ q < p := by
  unfold remember
  dsimp only
  split_ifs with advanced
  · exact ⟨p, by rw [Function.update_self, shown], Identifier.lt_irrefl p⟩
  · have behind : t.checkDeletedBy node ≠ [] := fun clean =>
      advanced ⟨by rw [shown]; exact Option.some_ne_none p, clean⟩
    rw [checkDeletedBy, shown] at behind
    cases seen : t.deletedBySeen node.id with
    | none =>
        rw [seen] at behind
        exact absurd rfl behind
    | some q =>
        simp only [seen, compareIds_neg_iff] at behind
        refine ⟨q, rfl, fun above => behind (if_neg fun below => ?_)⟩
        exact Identifier.lt_irrefl p (Identifier.lt_trans below above)

theorem checkNodes_mono (nodes : List Node) {t : EngineTrackingState} (entries : List (Node × Nat)) {id q : Identifier}
    (seen : t.deletedBySeen id = some q) :
    ∃ q', (checkNodes nodes t entries).2.deletedBySeen id = some q' ∧ ¬ q' < q := by
  induction entries generalizing t q with
  | nil => exact ⟨q, seen, Identifier.lt_irrefl q⟩
  | cons entry entries ih =>
      obtain ⟨q₁, next, above⟩ := t.remember_mono entry.1 seen
      obtain ⟨q₂, last, above'⟩ := ih next
      exact ⟨q₂, last, Identifier.not_lt_trans above above'⟩

theorem checkNodes_covers {t : EngineTrackingState} {entries : List (Node × Nat)}
    {entry : Node × Nat} (member : entry ∈ entries) {p : Identifier}
    (shown : entry.1.deletedBy = some p) :
    ∃ q, (checkNodes nodes t entries).2.deletedBySeen entry.1.id = some q ∧ ¬ q < p := by
  induction entries generalizing t with
  | nil => cases member
  | cons first entries ih =>
      rcases List.mem_cons.mp member with rfl | later
      · obtain ⟨q, seen, above⟩ := t.remember_covers shown
        obtain ⟨q', last, above'⟩ := checkNodes_mono nodes entries seen
        exact ⟨q', last, Identifier.not_lt_trans above above'⟩
      · exact ih later

/-- The second pass remembers attributions that the nodes have, or keeps what it remembered. -/
theorem checkNodes_seen {t : EngineTrackingState} {entries : List (Node × Nat)}
    {id p : Identifier} (seen : (checkNodes nodes t entries).2.deletedBySeen id = some p) :
    t.deletedBySeen id = some p ∨ ∃ entry ∈ entries, entry.1.id = id ∧ entry.1.deletedBy = some p := by
  induction entries generalizing t with
  | nil => exact Or.inl seen
  | cons entry entries ih =>
      obtain ⟨node, i⟩ := entry
      rcases ih (t := t.remember node) seen with old | ⟨entry, member, found⟩
      · unfold remember at old
        dsimp only at old
        split_ifs at old with attributed
        · by_cases here : id = node.id
          · subst here
            rw [Function.update_self] at old
            exact Or.inr ⟨(node, i), List.mem_cons_self, rfl, old⟩
          · rw [Function.update_of_ne here] at old
            exact Or.inl old
        · exact Or.inl old
      · exact Or.inr ⟨entry, List.mem_cons_of_mem _ member, found⟩

end Nodes

/-! ### The life of an engine -/

/-- An engine with its log, and what the assertions remember of it. -/
structure Asserted where
  engine : Engine
  clockEventLog : List ClockEvent
  tracking : EngineTrackingState

inductive AssertedEvent where
  | call (call : Engine.Call)
  | assertInvariants (options : AssertInvariantsOptions)

namespace Asserted

def new (replicaId : Nat) : Asserted := ⟨Engine.new replicaId, [], .new⟩

/-- The violations that an assertion would report now. -/
def violations (s : Asserted) (options : AssertInvariantsOptions) : List Violation :=
  (ConfluenceEditor.assertInvariants s.engine s.clockEventLog s.tracking options).1

/-- A call of one of the engine's methods, or of the assertions; what they remember stays even if
they throw. -/
def step (s : Asserted) : AssertedEvent → Except String Asserted
  | .call c => do
      let engine ← s.engine.call c
      .ok { s with engine, clockEventLog := s.clockEventLog ++ s.engine.callEvents c }
  | .assertInvariants options =>
      .ok { s with tracking :=
        (ConfluenceEditor.assertInvariants s.engine s.clockEventLog s.tracking options).2 }

/-! ### The violations that can occur -/

/-- What is remembered fits the nodes, now and after any further change. -/
structure Tracked (applied : List Identifier) (nodes : List Node) (t : EngineTrackingState) :
    Prop where
  snapshots : ∀ id op, t.nodeSnapshots id = some op →
    id ∈ applied ∧ ∀ n ∈ nodes, n.id = id → n.toInsert = op
  indexed : ∀ id, t.lastIndexOf id ≠ none → id ∈ applied
  ordered : (nodes.filterMap fun n => t.lastIndexOf n.id).Pairwise (· < ·)

namespace Tracked

variable {applied applied' : List Identifier} {old new : List Node} {t : EngineTrackingState}

/-- Nodes that were there before, in the same order. -/
theorem sub (tracked : Tracked applied old t)
    (kept : ∃ part : List Node, part.Sublist old ∧ part.map Node.toInsert = new.map Node.toInsert)
    (grown : ∀ id ∈ applied, id ∈ applied') : Tracked applied' new t := by
  obtain ⟨part, sub, same⟩ := kept
  refine ⟨fun id op seen => ⟨grown id (tracked.snapshots id op seen).1, fun n member here => ?_⟩,
    fun id seen => grown id (tracked.indexed id seen), ?_⟩
  · obtain ⟨m, inside, insert⟩ := List.mem_map.mp (same ▸ List.mem_map_of_mem member)
    have id : m.id = n.id := congrArg InsertOperation.id insert
    rw [← insert]
    exact (tracked.snapshots _ op seen).2 m (sub.subset inside) (id.trans here)
  · have read : ∀ nodes : List Node, (nodes.filterMap fun n => t.lastIndexOf n.id) =
        (nodes.map Node.toInsert).filterMap fun op => t.lastIndexOf op.id := fun nodes => by
      rw [List.filterMap_map]
      rfl
    rw [read, ← same, ← read]
    exact tracked.ordered.sublist (sub.filterMap _)

theorem listed (tracked : Tracked applied old t) (listed : Listed applied old new applied') :
    Tracked applied' new t := by
  cases listed with
  | same => exact tracked
  | spared id fresh => exact tracked.sub ⟨old, List.Sublist.refl _, rfl⟩ fun _ => List.mem_cons_of_mem _
  | remove split =>
      rename_i before after n
      exact tracked.sub ⟨before ++ after,
        split ▸ (List.Sublist.refl before).append (List.sublist_cons_self n after), rfl⟩ fun _ => id
  | flag id fresh target named =>
      refine tracked.sub ⟨old, List.Sublist.refl _, ?_⟩ fun _ => List.mem_cons_of_mem _
      rw [List.map_map]
      exact List.map_congr_left fun n _ => (FugueTree.flag_toInsert ..).symm
  | insert op fresh split =>
      rename_i before after
      subst split
      have unseen : t.lastIndexOf op.toNode.id = none := by
        by_contra seen
        exact fresh (tracked.indexed _ seen)
      refine ⟨fun id op' seen => ?_, fun id seen => List.mem_cons_of_mem _ (tracked.indexed id seen), ?_⟩
      · obtain ⟨known, same⟩ := tracked.snapshots id op' seen
        have apart : op.id ≠ id := fun here => fresh (here ▸ known)
        refine ⟨List.mem_cons_of_mem _ known, fun n member here => ?_⟩
        rcases List.mem_append.mp member with first | last
        · exact same n (List.mem_append_left _ first) here
        · rcases List.mem_cons.mp last with rfl | last
          · exact absurd here apart
          · exact same n (List.mem_append_right _ last) here
      · have ordered := tracked.ordered
        rw [List.filterMap_append] at ordered ⊢
        rw [List.filterMap_cons, unseen]
        exact ordered

theorem moves {e e' : Engine} (sound : e.Sound) (tracked : Tracked e.applied e.tree.nodes t)
    (moves : Moves e e') : Tracked e'.applied e'.tree.nodes t := by
  have both := moves.keeps (P := fun e => e.Sound ∧ Tracked e.applied e.tree.nodes t)
    (fun move both => ⟨both.1.move move, both.2.listed (move.change.listed both.1.wf both.1.known).2⟩)
    ⟨sound, tracked⟩
  exact both.2

end Tracked

/-- The engine is one that calls reach, its log explains its clock, and what is remembered fits. -/
structure Fits (s : Asserted) : Prop where
  sound : s.engine.Sound
  clock : replayClock s.clockEventLog = s.engine.clock
  tracked : Tracked s.engine.applied s.engine.tree.nodes s.tracking

/-- The attributions that are smaller than those remembered. -/
def regressions (s : Asserted) : List Violation :=
  s.engine.nodes.flatMap s.tracking.checkDeletedBy

/-- The nodes are fewer than at the last assertion. -/
def shrinkage (s : Asserted) (options : AssertInvariantsOptions) : List Violation :=
  match s.tracking.lastNodeCount with
  | some lastNodeCount =>
      if !options.afterCollect && decide (s.engine.nodes.length < lastNodeCount) then
        [.I5 lastNodeCount s.engine.nodes.length]
      else []
  | none => []

/-- Operations still wait at the declared end. -/
def leftovers (s : Asserted) (options : AssertInvariantsOptions) : List Violation :=
  if options.quiescent = true ∧ s.engine.pending.length ≠ 0 then [.I9 s.engine.pending.length] else []

variable {s s' : Asserted}

/-- What is remembered between the two passes. -/
def scanned (s : Asserted) : EngineTrackingState :=
  { s.tracking with lastIndexOf := (scan s.tracking.lastIndexOf s.engine.nodes).lastIndexOf }

theorem Fits.nodes_eq (fits : s.Fits) : s.engine.nodes = s.engine.tree.nodes :=
  fits.sound.wf.toArray_eq

theorem Fits.distinct (fits : s.Fits) : (s.engine.nodes.map Node.id).Nodup := by
  rw [fits.nodes_eq]
  exact fits.sound.wf.nodup

theorem Fits.distinct_entries (fits : s.Fits) :
    (s.engine.nodes.zipIdx.map fun entry => entry.1.id).Nodup := by
  have distinct := fits.distinct
  rwa [← List.zipIdx_map_fst 0 s.engine.nodes, List.map_map] at distinct

/-- Of the checks of one node, only the attribution can fail. -/
theorem Fits.checks_eq (fits : s.Fits) {entry : Node × Nat} (member : entry ∈ s.engine.nodes.zipIdx) :
    s.scanned.checkSnapshot entry.1 ++ checkParent s.engine.nodes entry.1 entry.2 ++
        s.scanned.checkDeletedBy entry.1 ++ checkSiblings s.engine.nodes entry.1 entry.2 =
      s.tracking.checkDeletedBy entry.1 := by
  have wf := fits.sound.wf
  have at? := List.mem_zipIdx_iff_getElem?.mp member
  rw [fits.nodes_eq] at at? ⊢
  have snapshot : s.scanned.checkSnapshot entry.1 = [] := by
    unfold checkSnapshot
    cases seen : s.scanned.nodeSnapshots entry.1.id with
    | none => rfl
    | some op =>
        have same := (fits.tracked.snapshots _ op seen).2 entry.1 (List.mem_of_getElem? at?) rfl
        exact if_neg fun changed => changed same.symm
  rw [snapshot, checkParent_eq_nil wf at?, checkSiblings_eq_nil wf at?, List.append_nil]
  rfl

theorem Fits.violations_eq (fits : s.Fits) (options : AssertInvariantsOptions) :
    s.violations options = s.regressions ++ s.shrinkage options ++ s.leftovers options := by
  have stable : (scan s.tracking.lastIndexOf s.engine.nodes).i3Violation = none := by
    have ordered := fits.tracked.ordered
    rw [← fits.nodes_eq] at ordered
    refine visits_clean (s := ⟨s.tracking.lastIndexOf, -1, none⟩) fits.distinct ordered (fun i _ => ?_) rfl
    change (-1 : Int) < i
    omega
  have unique : (s.engine.nodes.map Node.id).dedup.length = s.engine.nodes.length := by
    rw [List.Nodup.dedup fits.distinct, List.length_map]
  obtain ⟨perNode, -, count, -⟩ := checkNodes_spec s.engine.nodes (t := s.scanned)
    fits.distinct_entries
  have attributions : (checkNodes s.engine.nodes s.scanned s.engine.nodes.zipIdx).1 = s.regressions := by
    rw [perNode, regressions]
    conv_rhs => rw [← List.zipIdx_map_fst 0 s.engine.nodes]
    rw [List.flatMap_map]
    exact List.flatMap_congr fun entry member => fits.checks_eq member
  have shrank : s.scanned.lastNodeCount = s.tracking.lastNodeCount := rfl
  unfold scanned at attributions count shrank
  rw [violations, ConfluenceEditor.assertInvariants]
  simp only [stable, unique, fits.clock, attributions, count, ne_eq, not_true_eq_false, if_false,
    Option.toList_none, List.map_nil, List.nil_append]
  rfl

theorem Fits.step (fits : s.Fits) {event : AssertedEvent} (stepped : s.step event = .ok s') :
    s'.Fits := by
  cases event with
  | call c =>
      obtain ⟨e', called, done⟩ := Throwing.ok_of_bind stepped
      obtain rfl := Except.ok.inj done
      have moves := call_moves fits.sound called
      refine ⟨fits.sound.moves moves, ?_, fits.tracked.moves fits.sound moves⟩
      have before : s.clockEventLog.foldl ClockEvent.replay 0 = s.engine.clock := fits.clock
      change (s.clockEventLog ++ s.engine.callEvents c).foldl ClockEvent.replay 0 = e'.clock
      rw [List.foldl_append, before, call_clock fits.sound called]
  | assertInvariants options =>
      obtain rfl := Except.ok.inj stepped
      refine ⟨fits.sound, fits.clock, ?_⟩
      have known : ∀ n ∈ s.engine.nodes, n.id ∈ s.engine.applied := by
        rw [fits.nodes_eq]
        exact fits.sound.known
      obtain ⟨-, indices, -, snapshots⟩ := checkNodes_spec s.engine.nodes (t := s.scanned)
        fits.distinct_entries
      refine ⟨fun id op seen => ?_, fun id seen => ?_, ?_⟩
      · rcases snapshots id op seen with old | ⟨entry, member, rfl, rfl⟩
        · exact fits.tracked.snapshots id op old
        · have here := List.mem_of_getElem? (List.mem_zipIdx_iff_getElem?.mp member)
          refine ⟨known entry.1 here, fun n inside same => congrArg Node.toInsert ?_⟩
          exact List.inj_on_of_nodup_map fits.distinct (fits.nodes_eq ▸ inside) here same
      · by_cases present : id ∈ s.engine.nodes.map Node.id
        · obtain ⟨n, member, rfl⟩ := List.mem_map.mp present
          exact known n member
        · refine fits.tracked.indexed id fun unseen => seen ?_
          have frame := (lastIndexOf_visits (k := 0) (s := ⟨s.tracking.lastIndexOf, -1, none⟩)
            fits.distinct).1 id present
          exact ((congrFun indices id).trans frame).trans unseen
      · have ordered := scan_ordered s.tracking.lastIndexOf fits.distinct
        rw [← fits.nodes_eq]
        change (s.engine.nodes.filterMap fun n =>
          (checkNodes s.engine.nodes s.scanned s.engine.nodes.zipIdx).2.lastIndexOf n.id).Pairwise (· < ·)
        rw [indices]
        exact ordered

theorem fits_new (replicaId : Nat) : (new replicaId).Fits where
  sound := sound_new replicaId
  clock := rfl
  tracked := ⟨nofun, fun _ seen => absurd rfl seen, List.Pairwise.nil⟩

theorem fits_of_reaches {replicaId : Nat} (reached : Run.Reaches step (new replicaId) s) : s.Fits :=
  reached.invariant (fits_new replicaId) fun _ _ _ fits stepped => fits.step stepped

/-! ### What the earlier assertions saw -/

/-- What an event shows to the assertions. -/
def observation (s : Asserted) : AssertedEvent → List Engine
  | .call _ => []
  | .assertInvariants _ => [s.engine]

/-- The engine at each assertion of a run. -/
def observed : Asserted → List AssertedEvent → List Engine
  | _, [] => []
  | s, event :: events =>
      s.observation event ++ match s.step event with
        | .ok s' => observed s' events
        | .error _ => []

/-- What is remembered comes from the engines that were seen, and nothing of them is forgotten. -/
structure Remembers (seen : List Engine) (s : Asserted) : Prop where
  shown : ∀ id q, s.tracking.deletedBySeen id = some q →
    ∃ e ∈ seen, ∃ m ∈ e.nodes, m.id = id ∧ m.deletedBy = some q
  covers : ∀ e ∈ seen, ∀ m ∈ e.nodes, ∀ p, m.deletedBy = some p →
    ∃ q, s.tracking.deletedBySeen m.id = some q ∧ ¬ q < p
  count : s.tracking.lastNodeCount = seen.getLast?.map fun e => e.nodes.length

theorem Remembers.step {seen : List Engine} (remembers : Remembers seen s) {event : AssertedEvent}
    (stepped : s.step event = .ok s') : Remembers (seen ++ s.observation event) s' := by
  cases event with
  | call c =>
      obtain ⟨e', called, done⟩ := Throwing.ok_of_bind stepped
      obtain rfl := Except.ok.inj done
      rw [observation, List.append_nil]
      exact ⟨remembers.shown, remembers.covers, remembers.count⟩
  | assertInvariants options =>
      obtain rfl := Except.ok.inj stepped
      refine ⟨fun id q found => ?_, fun e member m inside p dot => ?_, ?_⟩
      · rcases checkNodes_seen found with old | ⟨entry, member, same, dot⟩
        · obtain ⟨e, earlier, rest⟩ := remembers.shown id q old
          exact ⟨e, List.mem_append_left _ earlier, rest⟩
        · have here := List.mem_of_getElem? (List.mem_zipIdx_iff_getElem?.mp member)
          exact ⟨s.engine, by simp [observation], entry.1, here, same, dot⟩
      · rcases List.mem_append.mp member with earlier | now
        · obtain ⟨q, found, above⟩ := remembers.covers e earlier m inside p dot
          obtain ⟨q', last, above'⟩ := checkNodes_mono s.engine.nodes (t := s.scanned)
            s.engine.nodes.zipIdx found
          exact ⟨q', last, Identifier.not_lt_trans above above'⟩
        · obtain rfl := List.mem_singleton.mp now
          obtain ⟨i, at?⟩ := List.getElem?_of_mem inside
          have indexed : (m, i) ∈ s.engine.nodes.zipIdx := List.mem_zipIdx_iff_getElem?.mpr at?
          exact checkNodes_covers indexed dot
      · rw [observation, List.getLast?_concat]
        rfl

theorem Remembers.run {seen : List Engine} {events : List AssertedEvent} {s : Asserted}
    (remembers : Remembers seen s) (ran : Run.run Asserted.step s events = .ok s') :
    Remembers (seen ++ observed s events) s' := by
  induction events generalizing s seen with
  | nil =>
      obtain rfl := Except.ok.inj ran
      rw [observed, List.append_nil]
      exact remembers
  | cons event events ih =>
      simp only [Run.run] at ran
      cases stepped : s.step event with
      | error failure =>
          rw [stepped] at ran
          cases ran
      | ok s₁ =>
          rw [stepped] at ran
          rw [observed, stepped, ← List.append_assoc]
          exact ih (remembers.step stepped) ran

theorem remembers_new (replicaId : Nat) : Remembers [] (new replicaId) where
  shown id q found := by cases found
  covers e absent := by cases absent
  count := rfl

/-- No attribution is smaller than one that an earlier assertion saw on the same node. -/
def Advanced (seen : List Engine) (e : Engine) : Prop :=
  ∀ earlier ∈ seen, ∀ m ∈ earlier.nodes, ∀ n ∈ e.nodes, n.id = m.id →
    ∀ p d, m.deletedBy = some p → n.deletedBy = some d → ¬ d < p

theorem Remembers.regressions_iff {seen : List Engine} (remembers : Remembers seen s) :
    s.regressions = [] ↔ Advanced seen s.engine := by
  have check : ∀ n : Node, s.tracking.checkDeletedBy n = [] ↔ ∀ q d,
      s.tracking.deletedBySeen n.id = some q → n.deletedBy = some d → ¬ d < q := fun n => by
    unfold checkDeletedBy
    cases shown : n.deletedBy with
    | none => simp
    | some d =>
        cases found : s.tracking.deletedBySeen n.id with
        | none => simp
        | some q => simp [compareIds_neg_iff]
  rw [regressions, List.flatMap_eq_nil_iff]
  constructor
  · intro clean earlier member m inside n here same p d dot shown
    obtain ⟨q, found, above⟩ := remembers.covers earlier member m inside p dot
    exact Identifier.not_lt_trans above ((check n).mp (clean n here) q d (same ▸ found) shown)
  · intro advanced n here
    refine (check n).mpr fun q d found shown => ?_
    obtain ⟨earlier, member, m, inside, same, dot⟩ := remembers.shown n.id q found
    exact advanced earlier member m inside n here same.symm q d dot shown

theorem Remembers.shrinkage_iff {seen : List Engine} (remembers : Remembers seen s)
    (options : AssertInvariantsOptions) : s.shrinkage options = [] ↔
      (options.afterCollect = false → ∀ last ∈ seen.getLast?,
        last.nodes.length ≤ s.engine.nodes.length) := by
  rw [shrinkage, remembers.count]
  cases seen.getLast? with
  | none => simp
  | some last =>
      cases options.afterCollect with
      | true => simp
      | false => simp

/-- An assertion passes exactly if no attribution is smaller than an earlier assertion saw it, there
are at least as many nodes as at the last one unless a collection is announced, and nothing waits
where the end is declared. -/
theorem passes_iff {replicaId : Nat} {events : List AssertedEvent}
    (ran : Run.run step (new replicaId) events = .ok s) (options : AssertInvariantsOptions) :
    assertInvariantsMessage (s.violations options) = .ok () ↔
      Advanced (observed (new replicaId) events) s.engine ∧
      (options.afterCollect = false → ∀ last ∈ (observed (new replicaId) events).getLast?,
        last.nodes.length ≤ s.engine.nodes.length) ∧
      (options.quiescent = true → s.engine.pending = []) := by
  have remembers : Remembers (observed (new replicaId) events) s := (remembers_new replicaId).run ran
  have fits : s.Fits := fits_of_reaches ⟨events, ran⟩
  have silent : assertInvariantsMessage (s.violations options) = .ok () ↔
      s.violations options = [] := by
    unfold assertInvariantsMessage
    split_ifs with clean
    · exact iff_of_true rfl clean
    · exact iff_of_false nofun clean
  have waits : s.leftovers options = [] ↔ (options.quiescent = true → s.engine.pending = []) := by
    unfold leftovers
    split_ifs with left
    · exact iff_of_false (by simp) fun empty => left.2 (by rw [empty left.1]; rfl)
    · refine ⟨fun _ quiescent => ?_, fun _ => rfl⟩
      exact List.length_eq_zero_iff.mp (not_not.mp fun some => left ⟨quiescent, some⟩)
  rw [silent, fits.violations_eq, List.append_eq_nil_iff, List.append_eq_nil_iff, and_assoc,
    remembers.regressions_iff, remembers.shrinkage_iff, waits]

end Asserted

end ConfluenceEditor
