/-
Whether the server gets what the client applied.

A client mints operations in its own engine and sends them in messages. `arrives_iff_carried` says
which operations arrive: those in which no two inserts of one run have a value that is no Unicode
scalar. A single insert has a frame with the number of its value, so that a lone surrogate arrives;
the frame of a run has a text, in which a surrogate does not survive. `sent_is_applied_iff` reads this
off what the client is given: a text that is typed, and a queue of operations that are minted again
after a reconnect.
-/

import ConfluenceEditor.Client.Reconcile
import ConfluenceEditor.Client.Recording
import ConfluenceEditor.Client.WireHelpers
import ConfluenceEditor.Library.Utf16
import ConfluenceEditor.Protocol.Accepted
import ConfluenceEditor.Replication.Admission
import ConfluenceEditor.Replication.Behind

namespace ConfluenceEditor

open Codec WireHelpers

open SidedForest (Side)

open ConnectedClient (continuesFrame)

open Admission (ARRAY_LIMIT)

/-- The value of an insert is a Unicode scalar. -/
def ScalarValue : Operation → Prop
  | .insert op => op.value.isValidChar
  | _ => True

/-- The values are safe integers, and two inserts of one run are of scalars. -/
structure Carried (ops : List Operation) : Prop where
  value : ∀ op, .insert op ∈ ops → op.value ≤ MAX_SAFE_INTEGER
  scalar : ops.IsChain fun prev next =>
    continuesFrame prev next = true → ScalarValue prev ∧ ScalarValue next

/-- A run or a batch has at least two members. -/
def Proper : OpsMessage → Prop
  | .opInsertRun _ _ _ _ values => 2 ≤ values.length
  | .opDeleteBatch _ _ targets => 2 ≤ targets.length
  | _ => True

/-! ### One message -/

theorem isChain_of_forall {α : Type} {R : α → α → Prop} (all : ∀ a b, R a b) (l : List α) :
    l.IsChain R := by
  induction l with
  | nil => exact List.isChain_nil
  | cons a l ih => exact List.isChain_cons.mpr ⟨fun b _ => all a b, ih⟩

/-- A property of both neighbours is one of all members, when there are two. -/
theorem isChain_both_iff {α : Type} {P : α → Prop} {l : List α} (two : 2 ≤ l.length) :
    (l.IsChain fun a b => P a ∧ P b) ↔ ∀ a ∈ l, P a := by
  constructor
  · intro chain
    induction l with
    | nil => nofun
    | cons a l ih =>
        cases l with
        | nil => cases two with | step two => cases two
        | cons b l =>
            have ⟨⟨here, next⟩, later⟩ := List.isChain_cons_cons.mp chain
            refine List.forall_mem_cons.mpr ⟨here, ?_⟩
            cases l with
            | nil => exact List.forall_mem_singleton.mpr next
            | cons c l => exact ih (Nat.le_add_left 2 l.length) later
  · intro all
    clear two
    induction l with
    | nil => exact List.isChain_nil
    | cons a l ih =>
        have ⟨here, later⟩ := List.forall_mem_cons.mp all
        exact List.isChain_cons.mpr
          ⟨fun b member => ⟨here, later b (List.mem_of_mem_head? member)⟩, ih later⟩

theorem isChain_run_iff (firstId : Identifier) (firstParent : Option Identifier) (firstSide : Side)
    (bind : Bool) (values : List Nat) :
    (((expandInsertRun firstId firstParent firstSide bind values).map Operation.insert).IsChain
      fun prev next => continuesFrame prev next = true → ScalarValue prev ∧ ScalarValue next) ↔
      values.IsChain fun a b => a.isValidChar ∧ b.isValidChar := by
  induction values generalizing firstId firstParent firstSide with
  | nil => exact iff_of_true List.isChain_nil List.isChain_nil
  | cons value values ih =>
      cases values with
      | nil => exact iff_of_true (List.isChain_singleton _) (List.isChain_singleton _)
      | cons next values =>
          have joined : continuesFrame
              (.insert ⟨firstId, value, firstParent, firstSide, bind⟩)
              (.insert ⟨⟨firstId.c + 1, firstId.r⟩, next, some firstId, .R, bind⟩) = true :=
            continuesRun_iff.mpr ⟨rfl, rfl, rfl, rfl⟩
          have rest := ih ⟨firstId.c + 1, firstId.r⟩ (some firstId) .R
          rw [List.isChain_cons_cons, ← rest]
          show List.IsChain _ (_ :: _ :: _) ↔ _
          rw [List.isChain_cons_cons]
          exact and_congr ⟨fun both => both joined, fun both _ => both⟩ Iff.rfl

@[simp] theorem targets_expandDeleteBatch (atFirst replica : Nat) (targets : List Identifier) :
    (expandDeleteBatch atFirst replica targets).map DeleteOperation.target = targets := by
  induction targets generalizing atFirst with
  | nil => rfl
  | cons target targets ih => exact congrArg (target :: ·) (ih _)

/-- A message whose identifiers can be written is sound if its operations can be carried. -/
theorem sound_iff_carried {msg : OpsMessage} (proper : Proper msg)
    (safe : ∀ op ∈ toOperations msg, ∀ id ∈ op.names, SafeStamp id)
    (few : (toOperations msg).length ≤ ARRAY_LIMIT) :
    Sound msg ↔ Carried (toOperations msg) := by
  cases msg with
  | opInsert op =>
      have names := safe (.insert op) List.mem_cons_self
      have parent : ∀ p ∈ op.parent, SafeStamp p := fun p under =>
        names p (List.mem_cons_of_mem _ (Option.mem_toList.mpr under))
      constructor
      · rintro ⟨_, _, value⟩
        refine ⟨fun op' member => ?_, List.isChain_singleton _⟩
        cases List.mem_singleton.mp member
        exact value
      · intro carried
        exact ⟨names _ List.mem_cons_self, parent, carried.value op List.mem_cons_self⟩
  | opInsertRun firstId firstParent firstSide bind values =>
      have two : 2 ≤ values.length := proper
      have members : values.length ≤ ARRAY_LIMIT := by
        simpa only [toOperations, List.length_map, length_expandInsertRun] using few
      have fits : values.length ≤ MAX_SAFE_INTEGER := Nat.le_trans members (by decide)
      obtain ⟨value, rest, cons⟩ := List.exists_cons_of_length_pos (Nat.lt_of_lt_of_le two_pos two)
      have names := safe (.insert ⟨firstId, value, firstParent, firstSide, bind⟩) (by
        rw [cons]
        exact List.mem_cons_self)
      have parent : ∀ p ∈ firstParent, SafeStamp p := fun p under =>
        names p (List.mem_cons_of_mem _ (Option.mem_toList.mpr under))
      constructor
      · rintro ⟨_, _, _, _, scalar, _⟩
        refine ⟨fun op member => ?_, (isChain_run_iff ..).mpr ((isChain_both_iff two).mpr scalar)⟩
        obtain ⟨op', inside, same⟩ := List.mem_map.mp member
        cases same
        have given : op.value ∈ values := by
          rw [← values_expandInsertRun firstId firstParent firstSide bind values]
          exact List.mem_map_of_mem inside
        have range := Utf16.scalar_iff.mp (scalar _ given)
        have large : 0x110000 ≤ MAX_SAFE_INTEGER := by decide
        omega
      · intro carried
        have scalar := (isChain_both_iff two).mp ((isChain_run_iff ..).mp carried.scalar)
        refine ⟨names _ List.mem_cons_self, parent, two, fits, scalar, ?_⟩
        obtain ⟨text, spelled⟩ := exists_text scalar
        have bytes := length_textEncode text
        have long : text.length = values.length := by rw [← spelled, List.length_map]
        have small : 4 * ARRAY_LIMIT ≤ MAX_SAFE_INTEGER := by decide
        rw [← spelled, scalars_map_toNat]
        omega
  | opDelete op =>
      have names := safe (.delete op) List.mem_cons_self
      refine iff_of_true ⟨names _ List.mem_cons_self, ?_⟩ ⟨fun i member => ?_, List.isChain_singleton _⟩
      · exact names _ (List.mem_cons_of_mem _ List.mem_cons_self)
      · cases List.mem_singleton.mp member
  | opDeleteBatch atFirst replica targets =>
      have two : 2 ≤ targets.length := proper
      have members : targets.length ≤ ARRAY_LIMIT := by
        have same := congrArg List.length (targets_expandDeleteBatch atFirst replica targets)
        rw [List.length_map] at same
        simpa only [toOperations, List.length_map, same] using few
      obtain ⟨target, rest, cons⟩ := List.exists_cons_of_length_pos (Nat.lt_of_lt_of_le two_pos two)
      have first := safe (.delete ⟨⟨atFirst, replica⟩, target⟩) (by
        rw [cons]
        exact List.mem_cons_self) ⟨atFirst, replica⟩ List.mem_cons_self
      have stamps : ∀ id ∈ targets, SafeStamp id := by
        intro id member
        rw [← targets_expandDeleteBatch atFirst replica targets] at member
        obtain ⟨op, inside, same⟩ := List.mem_map.mp member
        rw [← same]
        exact safe (.delete op) (List.mem_map_of_mem inside) _
          (List.mem_cons_of_mem _ List.mem_cons_self)
      refine iff_of_true ⟨first.1, first.2, two, Nat.le_trans members (by decide), stamps⟩ ⟨?_, ?_⟩
      · intro op member
        obtain ⟨op', _, same⟩ := List.mem_map.mp member
        cases same
      · apply (List.isChain_map Operation.delete).mpr
        exact isChain_of_forall (fun _ _ _ => ⟨trivial, trivial⟩) _
  | opUndelete op =>
      have names := safe (.undelete op) List.mem_cons_self
      refine iff_of_true ⟨names _ List.mem_cons_self, ?_⟩ ⟨fun i member => ?_, List.isChain_singleton _⟩
      · exact names _ (List.mem_cons_of_mem _ List.mem_cons_self)
      · cases List.mem_singleton.mp member

/-! ### All messages -/

theorem carried_iff_groups (ops : List Operation) :
    Carried ops ↔ ∀ group ∈ ops.splitBy continuesFrame, Carried group := by
  have flat := List.flatten_splitBy continuesFrame ops
  have gaps := List.isChain_getLast_head_splitBy continuesFrame ops
  have chain := List.isChain_flatten (R := fun prev next =>
    continuesFrame prev next = true → ScalarValue prev ∧ ScalarValue next)
    (List.nil_notMem_splitBy continuesFrame ops)
  rw [flat] at chain
  constructor
  · intro carried group member
    refine ⟨fun op inside => carried.value op ?_, (chain.mp carried.scalar).1 group member⟩
    rw [← flat]
    exact List.mem_flatten_of_mem member inside
  · intro groups
    refine ⟨fun op inside => ?_, chain.mpr ⟨fun group member => (groups group member).scalar, ?_⟩⟩
    · rw [← flat] at inside
      have ⟨group, member, there⟩ := List.mem_flatten.mp inside
      exact (groups group member).value op there
    · apply gaps.imp
      intro group group' gap prev last next first joined
      have ⟨left, right, apart⟩ := gap
      rw [List.getLast_of_mem_getLast? last, List.head_of_mem_head? first, joined] at apart
      cases apart

/-- Operations whose identifiers can be written arrive exactly when they can be carried. -/
theorem arrives_iff_carried {msgs : List OpsMessage} {ops : List Operation}
    (framed : msgs.map toOperations = ops.splitBy continuesFrame)
    (proper : ∀ msg ∈ msgs, Proper msg) (safe : ∀ op ∈ ops, ∀ id ∈ op.names, SafeStamp id)
    (few : ops.length ≤ ARRAY_LIMIT) : Arrives msgs ops ↔ Carried ops := by
  have flat : msgs.flatMap toOperations = ops := by
    rw [List.flatMap_def, framed, List.flatten_splitBy]
  have sound : ∀ msg ∈ msgs, Sound msg ↔ Carried (toOperations msg) := by
    intro msg member
    have part : (toOperations msg).Sublist ops := by
      rw [← flat, List.flatMap_def]
      exact List.sublist_flatten_of_mem (List.mem_map_of_mem member)
    refine sound_iff_carried (proper msg member) (fun op inside => safe op (part.subset inside)) ?_
    exact Nat.le_trans part.length_le few
  rw [carried_iff_groups, ← framed, List.forall_mem_map]
  have arrival := arrives_iff msgs
  rw [flat] at arrival
  exact arrival.trans (forall₂_congr sound)

theorem proper_runMessage (group : List InsertOperation) :
    ∀ msg ∈ runMessage group, Proper msg := by
  intro msg member
  match group with
  | [] => cases member
  | [op] =>
      rw [List.mem_singleton.mp member]
      trivial
  | first :: next :: group =>
      rw [List.mem_singleton.mp member]
      show 2 ≤ (_ :: _ :: _ : List Nat).length
      exact Nat.le_add_left 2 _

theorem proper_batchMessage (group : List DeleteOperation) :
    ∀ msg ∈ batchMessage group, Proper msg := by
  intro msg member
  match group with
  | [] => cases member
  | [op] =>
      rw [List.mem_singleton.mp member]
      trivial
  | first :: next :: group =>
      rw [List.mem_singleton.mp member]
      show 2 ≤ (_ :: _ :: _ : List Identifier).length
      exact Nat.le_add_left 2 _

theorem proper_operationsToRunMessages (ops : List InsertOperation) :
    ∀ msg ∈ WireHelpers.operationsToRunMessages ops, Proper msg := by
  intro msg member
  have ⟨group, _, inside⟩ := List.mem_flatMap.mp member
  exact proper_runMessage group msg inside

theorem proper_operationsToWireMessages (ops : List Operation) :
    ∀ msg ∈ WireHelpers.operationsToWireMessages ops, Proper msg := by
  intro msg member
  have ⟨group, _, inside⟩ := List.mem_flatMap.mp member
  match group with
  | [] => cases inside
  | .insert op :: group => exact proper_operationsToRunMessages _ msg inside
  | .delete op :: group =>
      have ⟨batch, _, here⟩ := List.mem_flatMap.mp inside
      exact proper_batchMessage batch msg here
  | .undelete op :: group =>
      have ⟨op', _, same⟩ := List.mem_map.mp inside
      rw [← same]
      cases op' <;> trivial

/-! ### The numbers of an engine -/

/-- The identifiers of the nodes and those of the next `n` operations are safe integers. -/
structure RoomFor (e : Engine) (n : Nat) : Prop where
  clock : e.clock + n ≤ MAX_SAFE_INTEGER
  replicaId : e.replicaId ≤ MAX_SAFE_INTEGER
  nodes : ∀ m ∈ e.tree.nodes, m.id.r ≤ MAX_SAFE_INTEGER

theorem RoomFor.node {e : Engine} {n : Nat} (room : RoomFor e n) (sound : e.Sound) {m : Node}
    (member : m ∈ e.tree.nodes) : SafeStamp m.id := by
  have counter := sound.clock m.id (sound.known m member)
  have small := room.clock
  exact ⟨by omega, room.nodes m member⟩

/-- What is inserted can be written, and there is room for one less. -/
theorem RoomFor.localInsert {e e' : Engine} {n k value : Nat} {bind : Bool} {op : InsertOperation}
    (room : RoomFor e (n + 1)) (sound : e.Sound)
    (inserted : e.localInsert k value bind = .ok (op, e')) :
    RoomFor e' n ∧ ∀ id ∈ (Operation.insert op).names, SafeStamp id := by
  have fields := Engine.inserts_of_localInsert inserted
  have ⟨before, after, _, position, nodes, _⟩ := sound.inserted_at inserted
  have small := room.clock
  have own : SafeStamp op.id := by
    rw [fields.id]
    exact ⟨show e.clock + 1 ≤ _ by omega, room.replicaId⟩
  refine ⟨⟨?_, ?_, ?_⟩, ?_⟩
  · rw [fields.clock]
    omega
  · rw [fields.replicaId]
    exact room.replicaId
  · intro m member
    rw [nodes] at member
    have old : m = op.toNode ∨ m ∈ e.tree.nodes := by
      rw [position.split]
      simp only [List.mem_append, List.mem_cons] at member ⊢
      tauto
    rcases old with same | inside
    · rw [same]
      exact own.2
    · exact room.nodes m inside
  · intro id member
    rcases List.mem_cons.mp member with same | named
    · rw [same]
      exact own
    · have ⟨m, there, same⟩ := sound.wf.hasIdentifier_iff.mp
        (position.ready id (Option.mem_toList.mp named))
      rw [← same]
      exact room.node sound there

/-! ### Typed text -/

/-- The engine inserts the code points of a text from a visible index on. -/
def Types (isClusterContinuing : Nat → Bool) :
    Engine → Nat → List Nat → List InsertOperation → Prop
  | _, _, [], ops => ops = []
  | e, k, codePoint :: text, ops => ∃ op e' ops',
      e.localInsert k codePoint (isClusterContinuing codePoint) = .ok (op, e') ∧
        Types isClusterContinuing e' (k + 1) text ops' ∧ ops = op :: ops'

/-- Neighbours that may share a run are scalars. -/
def Compatible (isClusterContinuing : Nat → Bool) (a b : Nat) : Prop :=
  isClusterContinuing a = isClusterContinuing b → a.isValidChar ∧ b.isValidChar

/-- The part of a typed text that is inserted each behind the one before. At the start of a document
whose root has a visible left child the second character goes elsewhere than the first. -/
def chained (e : Engine) (k : Nat) (text : List Nat) : List Nat :=
  if k = 0 ∧ FugueTree.visibleRow e.tree.leftChildren ≠ [] then text.tail else text

section Typed

variable {isClusterContinuing : Nat → Bool} {e e' : Engine} {k : Nat} {text : List Nat}
  {ops : List InsertOperation} {prev op : InsertOperation}

theorem types_of_mintText {c c' : SyncClient}
    (minted : (SyncClient.mintText isClusterContinuing e k text).run c = .ok ops c') :
    Types isClusterContinuing e k text ops := by
  induction text generalizing e k ops c with
  | nil =>
      cases minted
      rfl
  | cons codePoint text ih =>
      rw [SyncClient.mintText] at minted
      obtain ⟨⟨op, e'⟩, c₁, first, rest⟩ := Throwing.ok_of_run_bind minted
      cases inserted : e.localInsert k codePoint (isClusterContinuing codePoint) with
      | error message =>
          rw [inserted] at first
          cases first
      | ok result =>
          rw [inserted] at first
          cases first
          rw [Throwing.run_modify_bind] at rest
          obtain ⟨ops', c₂, later, done⟩ := Throwing.ok_of_run_bind rest
          cases done
          exact ⟨op, e', ops', inserted, ih later, rfl⟩

theorem Types.values (types : Types isClusterContinuing e k text ops) :
    ops.map InsertOperation.value = text := by
  induction text generalizing e k ops with
  | nil =>
      rw [show ops = [] from types]
      rfl
  | cons codePoint text ih =>
      have ⟨op, e', ops', inserted, rest, same⟩ := types
      rw [same, List.map_cons, ih rest, (Engine.inserts_of_localInsert inserted).value]

theorem Types.safe (types : Types isClusterContinuing e k text ops) (sound : e.Sound)
    (room : RoomFor e text.length) :
    ∀ op ∈ ops.map Operation.insert, ∀ id ∈ op.names, SafeStamp id := by
  induction text generalizing e k ops with
  | nil =>
      rw [show ops = [] from types]
      nofun
  | cons codePoint text ih =>
      have ⟨op, e', ops', inserted, rest, same⟩ := types
      have ⟨_, _, sound', _⟩ := sound.inserted_at inserted
      have ⟨room', names⟩ := room.localInsert sound inserted
      rw [same]
      exact List.forall_mem_cons.mpr ⟨names, ih rest sound' room'⟩

/-- Two inserts share a frame when the second one is made right behind the first, with its flag. -/
theorem continuesFrame_iff (sound : e.Sound) (last : Engine.LastMinted e prev) {value : Nat}
    {bind : Bool} (inserted : e.localInsert k value bind = .ok (op, e')) :
    continuesFrame (.insert prev) (.insert op) = true ↔
      bind = prev.bind ∧ ∃ i, k = i + 1 ∧ e.tree.visible[i]? = some prev.toNode := by
  have fields := Engine.inserts_of_localInsert inserted
  have next : op.id = ⟨prev.id.c + 1, prev.id.r⟩ := by rw [fields.id, last.id]
  have follows := sound.follows_iff last inserted
  refine continuesRun_iff.trans ?_
  rw [fields.bind]
  constructor
  · rintro ⟨flag, parent, side, _⟩
    exact ⟨flag, follows.mp ⟨parent, side⟩⟩
  · rintro ⟨flag, behind⟩
    have ⟨parent, side⟩ := follows.mpr behind
    exact ⟨flag, parent, side, next⟩

/-- The inserts behind a node that is seen right before them. -/
theorem Types.isChain_iff (types : Types isClusterContinuing e (k + 1) text ops) (sound : e.Sound)
    (last : Engine.LastMinted e prev) (seen : e.tree.visible[k]? = some prev.toNode)
    (flag : prev.bind = isClusterContinuing prev.value) :
    ((Operation.insert prev :: ops.map Operation.insert).IsChain fun prev next =>
      continuesFrame prev next = true → ScalarValue prev ∧ ScalarValue next) ↔
      (prev.value :: text).IsChain (Compatible isClusterContinuing) := by
  induction text generalizing e k ops prev with
  | nil =>
      rw [show ops = [] from types]
      exact iff_of_true (List.isChain_singleton _) (List.isChain_singleton _)
  | cons codePoint text ih =>
      have ⟨op, e', ops', inserted, rest, same⟩ := types
      have ⟨_, _, sound', _⟩ := sound.inserted_at inserted
      have fields := Engine.inserts_of_localInsert inserted
      have shown := (sound.visible_localInsert inserted).mpr (Or.inl (Nat.succ_ne_zero k))
      have own : op.bind = isClusterContinuing op.value := by rw [fields.bind, fields.value]
      have later := ih rest sound' (sound.lastMinted inserted) shown own
      have joined := continuesFrame_iff sound last inserted
      rw [same, List.map_cons, List.isChain_cons_cons, later, List.isChain_cons_cons, fields.value]
      refine and_congr ⟨?_, ?_⟩ Iff.rfl
      · intro scalars equal
        have both := scalars (joined.mpr ⟨by rw [flag, equal], k, rfl, seen⟩)
        exact ⟨both.1, fields.value ▸ both.2⟩
      · intro compatible together
        have ⟨equal, _⟩ := joined.mp together
        have both := compatible (by rw [equal, flag])
        exact ⟨both.1, show op.value.isValidChar from fields.value.symm ▸ both.2⟩

/-- **Typed text** can be carried unless neighbours that share a run are not both scalars. -/
theorem Types.carried_iff (types : Types isClusterContinuing e k text ops) (sound : e.Sound)
    (unicode : ∀ v ∈ text, v ≤ 0x10ffff) :
    Carried (ops.map Operation.insert) ↔
      (chained e k text).IsChain (Compatible isClusterContinuing) := by
  have value : ∀ op, .insert op ∈ ops.map Operation.insert → op.value ≤ MAX_SAFE_INTEGER := by
    intro op member
    have ⟨op', inside, same⟩ := List.mem_map.mp member
    cases same
    have given : op.value ∈ text := by
      rw [← types.values]
      exact List.mem_map_of_mem inside
    exact Nat.le_trans (unicode _ given) (by decide)
  have split : Carried (ops.map Operation.insert) ↔ (ops.map Operation.insert).IsChain
      fun prev next => continuesFrame prev next = true → ScalarValue prev ∧ ScalarValue next :=
    ⟨fun carried => carried.scalar, fun chain => ⟨value, chain⟩⟩
  rw [split]
  cases text with
  | nil =>
      rw [show ops = [] from types, chained]
      split <;> exact iff_of_true List.isChain_nil List.isChain_nil
  | cons codePoint text =>
      have ⟨op, e', ops', inserted, rest, same⟩ := types
      have ⟨_, _, sound', _⟩ := sound.inserted_at inserted
      have last := sound.lastMinted inserted
      have fields := Engine.inserts_of_localInsert inserted
      have own : op.bind = isClusterContinuing op.value := by rw [fields.bind, fields.value]
      have seen := sound.visible_localInsert inserted
      rw [same, List.map_cons, chained]
      by_cases start : k = 0 ∧ FugueTree.visibleRow e.tree.leftChildren ≠ []
      · -- The second character is not behind the first one.
        rw [if_pos start, List.tail_cons]
        cases text with
        | nil =>
            rw [show ops' = [] from rest]
            exact iff_of_true (List.isChain_singleton _) List.isChain_nil
        | cons next text =>
            have ⟨op', e'', ops'', inserted', rest', same'⟩ := rest
            have ⟨_, _, sound'', _⟩ := sound'.inserted_at inserted'
            have fields' := Engine.inserts_of_localInsert inserted'
            have shown := (sound'.visible_localInsert inserted').mpr (Or.inl (Nat.succ_ne_zero k))
            have own' : op'.bind = isClusterContinuing op'.value := by
              rw [fields'.bind, fields'.value]
            have later := rest'.isChain_iff sound'' (sound'.lastMinted inserted') shown own'
            have apart : continuesFrame (.insert op) (.insert op') ≠ true := by
              intro joined
              have ⟨_, i, position, here⟩ := (continuesFrame_iff sound' last inserted').mp joined
              cases position
              rcases seen.mp here with moved | empty
              · exact moved start.1
              · exact start.2 empty
            rw [same', List.map_cons, List.isChain_cons_cons, later, fields'.value]
            exact and_iff_right fun joined => absurd joined apart
      · rw [if_neg start]
        have behind : k ≠ 0 ∨ FugueTree.visibleRow e.tree.leftChildren = [] := by
          by_cases zero : k = 0
          · exact Or.inr (not_not.mp fun row => start ⟨zero, row⟩)
          · exact Or.inl zero
        have chain := rest.isChain_iff sound' last (seen.mpr behind) own
        rwa [fields.value] at chain

/-- The operations that a call returns were typed at some visible index of the engine. -/
theorem types_of_localInsertText {c c' : SyncClient} {nowMs : Nat} {visibleIndex : Int}
    (sound : c.Sound) (resident : c.engine = some e)
    (typed : (SyncClient.localInsertText isClusterContinuing nowMs visibleIndex text).run c =
      .ok ops c') : Types isClusterContinuing e visibleIndex.toNat text ops := by
  rw [SyncClient.localInsertText] at typed
  obtain ⟨e₁, c₁, opened, minting⟩ := Throwing.ok_of_run_bind typed
  obtain ⟨ops', c₂, minted, queueing⟩ := Throwing.ok_of_run_bind minting
  obtain ⟨_, c₃, _, sending⟩ := Throwing.ok_of_run_bind queueing
  obtain ⟨_, c₄, _, done⟩ := Throwing.ok_of_run_bind sending
  cases done
  have same : e₁ = e := by
    rcases SyncClient.openForEdit_cases c nowMs with ⟨e₂, same, _, passed⟩ | ⟨_, _, stopped⟩
    · cases opened.symm.trans passed
      exact Option.some.inj (same.symm.trans resident)
    · cases opened.symm.trans stopped
  rw [same] at minted
  by_cases inside : 0 ≤ visibleIndex
  · obtain ⟨k, index⟩ := Int.eq_ofNat_of_zero_le inside
    rw [index] at minted ⊢
    exact types_of_mintText minted
  · cases text with
    | nil =>
        cases minted
        rfl
    | cons codePoint text =>
        -- the first insertion throws
        obtain ⟨message, failed⟩ := (sound.engine e resident).localInsert_error visibleIndex
          (Or.inl (not_le.mp inside)) codePoint (isClusterContinuing codePoint)
        rw [SyncClient.mintText, failed,
          Throwing.run_bind_of_error (SyncClient.run_ofEngine_error message c₁)] at minted
        cases minted

/-- **Typed text** arrives unless neighbours that share a run are not both scalars. -/
theorem typed_arrives_iff {c c' : SyncClient} {nowMs : Nat} {visibleIndex : Int}
    {string : List Nat} (sound : c.Sound) (resident : c.engine = some e)
    (small : ∀ u ∈ string, u < 0x10000)
    (few : (Utf16.codePoints string).length ≤ ARRAY_LIMIT)
    (room : RoomFor e (Utf16.codePoints string).length)
    (typed : (SyncClient.localInsertText isClusterContinuing nowMs visibleIndex
      (Utf16.codePoints string)).run c = .ok ops c') :
    Arrives (WireHelpers.operationsToRunMessages ops) (ops.map .insert) ↔
      (chained e visibleIndex.toNat (Utf16.codePoints string)).IsChain
        (Compatible isClusterContinuing) := by
  have soundEngine := sound.engine e resident
  have types := types_of_localInsertText sound resident typed
  have length : ops.length = (Utf16.codePoints string).length := by
    rw [← types.values, List.length_map]
  have framed : (WireHelpers.operationsToRunMessages ops).map toOperations =
      (ops.map Operation.insert).splitBy continuesFrame := by
    rw [map_toOperations_operationsToRunMessages]
  have carried := arrives_iff_carried framed (proper_operationsToRunMessages ops)
    (types.safe soundEngine room) (by rw [List.length_map, length]; exact few)
  exact carried.trans (types.carried_iff soundEngine (Utf16.le_of_mem_codePoints small))

end Typed

/-! ### Reconciled operations -/

/-- A queued insert is minted again with a value that can be written; if it goes right behind the
insert that was minted just before it, with the same flag, both are of scalars. -/
def Carries (s : Reconciliation) : Operation → Prop
  | .insert op => op.value ≤ MAX_SAFE_INTEGER ∧
      ∀ prev, s.resent.getLast? = some (.insert prev) →
        s.insertIndex op = visibleIndexAfter s.engine (some prev.id) → op.bind = prev.bind →
          prev.value.isValidChar ∧ op.value.isValidChar
  | _ => True

/-- A replay with at most `n` operations to go. -/
structure Reminted (s : Reconciliation) (n : Nat) : Prop where
  sound : s.engine.Sound
  room : RoomFor s.engine n
  last : ∀ prev, s.resent.getLast? = some (.insert prev) → Engine.LastMinted s.engine prev
  safe : ∀ op ∈ s.resent, ∀ id ∈ op.names, SafeStamp id

section Reconciled

variable {e e' : Engine} {s s' : Reconciliation} {n : Nat}

theorem RoomFor.less (room : RoomFor e (n + 1)) : RoomFor e n := by
  refine ⟨?_, room.replicaId, room.nodes⟩
  have small := room.clock
  omega

theorem Reminted.less (reminted : Reminted s (n + 1)) : Reminted s n :=
  ⟨reminted.sound, reminted.room.less, reminted.last, reminted.safe⟩

/-- The visible index behind a node that is shown. -/
theorem visibleIndexAfter_iff (sound : e.Sound) {prev : InsertOperation}
    (member : prev.toNode ∈ e.tree.nodes) (k : Nat) :
    (∃ i, k = i + 1 ∧ e.tree.visible[i]? = some prev.toNode) ↔
      k = visibleIndexAfter e (some prev.id) := by
  have list : e.nodes = e.tree.nodes := sound.wf.toArray_eq
  obtain ⟨before, after, split⟩ := List.append_of_mem member
  have nodup : (e.nodes.map Node.id).Nodup := list ▸ sound.wf.nodup
  have behind := visibleIndexAfter_eq (list.trans split) nodup
  have here := visible_countVisible split rfl
  have index : countVisible (before ++ [prev.toNode]) = countVisible before + 1 := by
    rw [countVisible, countVisible, List.filter_append, List.length_append]
    rfl
  have distinct : e.tree.visible.Nodup := sound.wf.nodup.of_map.filter _
  rw [show visibleIndexAfter e (some prev.id) = countVisible before + 1 from behind.trans index]
  constructor
  · rintro ⟨i, position, there⟩
    obtain ⟨inside, _⟩ := List.getElem?_eq_some_iff.mp there
    rw [position, (List.getElem?_inj inside distinct).mp (there.trans here.symm)]
  · intro position
    exact ⟨countVisible before, position, here⟩

theorem lt_of_visibleIndexOfTarget (sound : e.Sound) {target : Identifier} {k : Nat}
    (found : visibleIndexOfTarget e target = some k) : k < e.tree.visible.length := by
  have list : e.nodes = e.tree.nodes := sound.wf.toArray_eq
  simp only [visibleIndexOfTarget, Option.bind_eq_bind, Option.bind_eq_some_iff] at found
  obtain ⟨idx, _, node, here, result⟩ := found
  obtain ⟨inside, same⟩ := List.getElem?_eq_some_iff.mp here
  by_cases deleted : node.deleted
  · rw [if_pos deleted] at result
    cases result
  · rw [if_neg deleted] at result
    cases result
    have split : e.tree.nodes = e.nodes.take idx ++ node :: e.nodes.drop (idx + 1) := by
      rw [← list, ← same, List.getElem_cons_drop, List.take_append_drop]
    have at? := visible_countVisible split (Bool.eq_false_iff.mpr deleted)
    exact (List.getElem?_eq_some_iff.mp at?).1

/-- Deleting one node that is shown. -/
theorem RoomFor.localDelete (room : RoomFor e (n + 1)) (sound : e.Sound) {k : Nat}
    (shown : k < e.tree.visible.length) {ops : List DeleteOperation}
    (deleted : e.localDelete k 1 = .ok (ops, e')) : ∃ op, ops = [op] ∧ e'.Sound ∧ RoomFor e' n ∧
      ∀ id ∈ (Operation.delete op).names, SafeStamp id := by
  have ⟨ops', e₁, ran, minted, spec⟩ := sound.localDelete_at k 1
  rw [deleted] at ran
  cases ran
  have one : ops.length = 1 := by
    rw [spec.length]
    omega
  have ⟨op, single⟩ := List.length_eq_one_iff.mp one
  have small := room.clock
  have ids : op.id = ⟨e.clock + 1, e.replicaId⟩ := by
    have same := spec.ids
    rw [single] at same
    exact (List.cons.inj same).1
  have target : op.target = e.tree.visible[k].id := by
    have same := spec.targets
    rw [single, List.drop_eq_getElem_cons shown] at same
    exact (List.cons.inj same).1
  have there := (List.mem_filter.mp (List.getElem_mem shown)).1
  refine ⟨op, single, minted.sound, ⟨?_, ?_, ?_⟩, ?_⟩
  · rw [spec.clock, one]
    omega
  · rw [minted.replicaId]
    exact room.replicaId
  · intro m member
    have inside : m.toInsert ∈ e.tree.nodes.map Node.toInsert := by
      rw [← spec.nodes]
      exact List.mem_map_of_mem member
    have ⟨m', old, same⟩ := List.mem_map.mp inside
    have id : m'.id = m.id := congrArg InsertOperation.id same
    rw [← id]
    exact room.nodes m' old
  · intro id member
    rcases List.mem_cons.mp member with same | named
    · rw [same]
      show SafeStamp op.id
      rw [ids]
      exact ⟨show e.clock + 1 ≤ _ by omega, room.replicaId⟩
    · rw [List.mem_singleton.mp named, target]
      exact room.node sound there

/-- One more operation behind those that were minted. -/
theorem carried_concat (ops : List Operation) (op : Operation) :
    Carried (ops ++ [op]) ↔ Carried ops ∧
      (∀ ins, op = .insert ins → ins.value ≤ MAX_SAFE_INTEGER) ∧
      ∀ prev ∈ ops.getLast?, continuesFrame prev op = true → ScalarValue prev ∧ ScalarValue op := by
  constructor
  · intro carried
    have ⟨before, _, between⟩ := List.isChain_append.mp carried.scalar
    refine ⟨⟨fun ins member => carried.value ins (List.mem_append_left _ member), before⟩, ?_, ?_⟩
    · intro ins same
      exact carried.value ins (List.mem_append_right _ (List.mem_singleton.mpr same.symm))
    · exact fun prev last => between prev last op rfl
  · rintro ⟨carried, value, between⟩
    refine ⟨fun ins member => ?_, List.isChain_append.mpr ⟨carried.scalar, ?_, ?_⟩⟩
    · rcases List.mem_append.mp member with old | new
      · exact carried.value ins old
      · exact value ins (List.mem_singleton.mp new).symm
    · exact List.isChain_singleton _
    · intro prev last next first
      cases first
      exact between prev last

theorem last_concat {ops : List Operation} {op : Operation} {prev : InsertOperation}
    (last : (ops ++ [op]).getLast? = some (.insert prev)) : op = .insert prev := by
  rw [List.getLast?_concat] at last
  exact Option.some.inj last

/-- An operation is minted, and sent behind the others. -/
theorem Reminted.minted (reminted : Reminted s (n + 1)) {engine : Engine} {op : Operation}
    {remap : Identifier → Option Identifier} (sound : engine.Sound) (room : RoomFor engine n)
    (names : ∀ id ∈ op.names, SafeStamp id)
    (last : ∀ prev, op = .insert prev → engine.LastMinted prev) :
    Reminted ⟨engine, remap, s.resent ++ [op]⟩ n := by
  refine ⟨sound, room, fun prev ends => last prev (last_concat ends), fun x member => ?_⟩
  rcases List.mem_append.mp member with old | new
  · exact reminted.safe x old
  · rw [List.mem_singleton.mp new]
    exact names

/-- What the messages make of an insert that was minted again. -/
theorem Reminted.carries_insert_iff (reminted : Reminted s (n + 1)) {op newOp : InsertOperation}
    (inserted : s.engine.localInsert (s.insertIndex op) op.value op.bind = .ok (newOp, e')) :
    ((∀ ins, Operation.insert newOp = .insert ins → ins.value ≤ MAX_SAFE_INTEGER) ∧
      ∀ prev ∈ s.resent.getLast?, continuesFrame prev (.insert newOp) = true →
        ScalarValue prev ∧ ScalarValue (.insert newOp)) ↔ Carries s (.insert op) := by
  have sound := reminted.sound
  have fields := Engine.inserts_of_localInsert inserted
  refine and_congr ?_ ?_
  · constructor
    · intro value
      rw [← fields.value]
      exact value newOp rfl
    · intro value ins same
      cases same
      rw [fields.value]
      exact value
  · constructor
    · intro between prev last behind flag
      have minted := reminted.last prev last
      have joined := (continuesFrame_iff sound minted inserted).mpr
        ⟨flag, (visibleIndexAfter_iff sound minted.member _).mpr behind⟩
      have both := between _ last joined
      exact ⟨both.1, fields.value ▸ both.2⟩
    · intro scalars prev last joined
      cases prev with
      | insert prev =>
          have minted := reminted.last prev last
          have ⟨flag, behind⟩ := (continuesFrame_iff sound minted inserted).mp joined
          have both := scalars prev last
            ((visibleIndexAfter_iff sound minted.member _).mp behind) flag
          exact ⟨both.1, show newOp.value.isValidChar from fields.value.symm ▸ both.2⟩
      | delete prev => cases joined
      | undelete prev => cases joined

/-- **One queued operation.** -/
theorem Reminted.replay (reminted : Reminted s (n + 1)) {op : Operation}
    (stepped : s.replay op = .ok s') :
    Reminted s' n ∧ s'.resent.length ≤ s.resent.length + 1 ∧
      (Carried s'.resent ↔ Carried s.resent ∧ Carries s op) := by
  have sound := reminted.sound
  have longer : ∀ x : Operation, (s.resent ++ [x]).length ≤ s.resent.length + 1 :=
    fun x => by rw [List.length_append, List.length_singleton]
  cases op with
  | undelete op =>
      cases stepped
      exact ⟨reminted.less, Nat.le_succ _, (and_iff_left trivial).symm⟩
  | insert op =>
      have ⟨⟨newOp, engine⟩, inserted, done⟩ := Throwing.ok_of_bind stepped
      cases done
      have ⟨_, _, sound', _⟩ := sound.inserted_at inserted
      have ⟨room, names⟩ := reminted.room.localInsert sound inserted
      refine ⟨reminted.minted sound' room names fun prev same => ?_, longer _, ?_⟩
      · cases same
        exact sound.lastMinted inserted
      · rw [carried_concat]
        exact and_congr_right fun _ => reminted.carries_insert_iff inserted
  | delete op =>
      rw [Reconciliation.replay] at stepped
      cases found : visibleIndexOfTarget s.engine (s.resolve op.target) with
      | none =>
          rw [found] at stepped
          cases stepped
          exact ⟨reminted.less, Nat.le_succ _, (and_iff_left trivial).symm⟩
      | some k =>
          rw [found] at stepped
          have ⟨⟨ops, engine⟩, deleted, done⟩ := Throwing.ok_of_bind stepped
          have shown := lt_of_visibleIndexOfTarget sound found
          have ⟨newOp, single, sound', room, names⟩ := reminted.room.localDelete sound shown deleted
          cases single
          cases done
          refine ⟨reminted.minted sound' room names (by rintro _ ⟨⟩), longer _, ?_⟩
          rw [carried_concat]
          refine and_congr_right fun _ =>
            iff_of_true ⟨by rintro _ ⟨⟩, fun prev last joined => ?_⟩ trivial
          cases prev with
          | insert prev => cases joined
          | delete prev => exact ⟨trivial, trivial⟩
          | undelete prev => cases joined

/-- **A queue of operations** is minted again. -/
theorem Reminted.foldlM (queue : List Operation) (reminted : Reminted s queue.length)
    (ran : queue.foldlM Reconciliation.replay s = .ok s') :
    Reminted s' 0 ∧ s'.resent.length ≤ s.resent.length + queue.length ∧
      (Carried s'.resent ↔ Carried s.resent ∧ Run.Each Reconciliation.replay Carries s queue) := by
  induction queue generalizing s with
  | nil =>
      cases ran
      exact ⟨reminted, Nat.le_refl _, (and_iff_left trivial).symm⟩
  | cons op queue ih =>
      rw [List.foldlM_cons] at ran
      have ⟨s₁, stepped, rest⟩ := Throwing.ok_of_bind ran
      have ⟨reminted₁, length₁, carried₁⟩ := reminted.replay stepped
      have ⟨reminted', length', carried'⟩ := ih reminted₁ rest
      refine ⟨reminted', ?_, ?_⟩
      · rw [List.length_cons]
        omega
      · rw [carried', carried₁, and_assoc]
        refine and_congr_right fun _ => ⟨?_, fun each => each s₁ stepped⟩
        rintro both s₂ again
        cases stepped.symm.trans again
        exact both

/-- **Reconciled operations** arrive unless an insert that is minted right behind the one before and
shares its run is not a scalar. -/
theorem reconciled_arrives_iff {queue : List Operation} (sound : e.Sound)
    (room : RoomFor e queue.length) (few : queue.length ≤ ARRAY_LIMIT)
    (reconciled : reconcileOfflineQueue e queue = .ok s) :
    Arrives (WireHelpers.operationsToWireMessages s.resent) s.resent ↔
      Run.Each Reconciliation.replay Carries ⟨e, fun _ => none, []⟩ queue := by
  have start : Reminted ⟨e, fun _ => none, []⟩ queue.length := ⟨sound, room, nofun, nofun⟩
  have ⟨reminted, length, carried⟩ := start.foldlM queue reconciled
  have empty : Carried [] := ⟨nofun, List.isChain_nil⟩
  have arrival := arrives_iff_carried (map_toOperations_operationsToWireMessages s.resent)
    (proper_operationsToWireMessages s.resent) reminted.safe (by simp at length; omega)
  exact arrival.trans (carried.trans (and_iff_right empty))

end Reconciled

end ConfluenceEditor
