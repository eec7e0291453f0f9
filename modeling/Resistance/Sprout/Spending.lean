import Resistance.Primitives.RoundTrip
import Resistance.Sprout.Payments

/-! Notes whose witnesses are up to date can be spent, also together with the change of an earlier
joinsplit of the same transaction.
-/

namespace Resistance.Sprout

open List Primitives Consensus Zcash Validation Coins Lib Lib.Checks Lib.Codec

/-- What is expected of the cryptography: a key opens what was encrypted to its address, and the
verifier accepts what the prover made.
-/
structure SproutCrypto.Correct (crypto : SproutCrypto) : Prop where
  decrypts : ∀ key hSig esk nonce plaintext,
    crypto.decrypt key (crypto.encrypt hSig esk nonce plaintext (crypto.address key).pkEnc)
      (crypto.epk esk) hSig nonce = .ok plaintext
  verifies : ∀ {random joinSplitPubKey rt inputs outputs vpubOld vpubNew jsdesc},
    prove crypto random joinSplitPubKey true rt inputs outputs vpubOld vpubNew = .ok jsdesc
    → crypto.verify jsdesc joinSplitPubKey = true

variable {crypto : SproutCrypto} {leaves : List Uint256} {tree : SproutMerkleTree}

theorem depth_pos : 0 < sproutTreeDepth := by decide

/-- The tree over the leaves. -/
def TreeOf (crypto : SproutCrypto) (leaves : List Uint256) (tree : SproutMerkleTree) : Prop :=
  IncrementalMerkleTree.appendAll crypto.hash sproutTreeDepth {} leaves = .ok tree

/-- The input is a note of the tree over the leaves, with its key and an up-to-date witness. -/
structure NoteAmong (crypto : SproutCrypto) (leaves : List Uint256) (input : JSInput) : Prop where
  owned : input.note.aPk = (crypto.address input.key).aPk
  tracked : ∃ n, Tracks crypto.hash sproutTreeDepth leaves n input.witness
    ∧ leaves[n]? = some (crypto.cm input.note)

variable {input : JSInput} {key : SproutSpendingKey}

section

variable (among : NoteAmong crypto leaves input)
include among

section

variable (room : leaves.length ≤ 2 ^ sproutTreeDepth)
include room

/-- The witness leads to the root of the tree. -/
theorem NoteAmong.root_eq (treeOf : TreeOf crypto leaves tree)
    : input.root crypto = tree.root crypto.hash sproutTreeDepth := by
  obtain ⟨n, tracks, -⟩ := among.tracked
  obtain ⟨same, run, root⟩ := (tracks.authenticates depth_pos room).root
  cases treeOf.symm.trans run
  exact root

/-- A note of the tree may be spent in a joinsplit that is anchored to its root. -/
theorem NoteAmong.spendable (treeOf : TreeOf crypto leaves tree)
    : Spendable crypto (tree.root crypto.hash sproutTreeDepth) input := by
  refine ⟨fun _ => among.root_eq room treeOf, fun _ => ?_, among.owned⟩
  obtain ⟨n, tracks, listed⟩ := among.tracked
  obtain ⟨leaf, found, element, -⟩ := (tracks.authenticates depth_pos room).element
  cases listed.symm.trans found
  exact element

theorem NoteAmong.path_ok
    : ∃ path, input.witness.path crypto.hash sproutTreeDepth = .ok path := by
  obtain ⟨n, tracks, -⟩ := among.tracked
  obtain ⟨-, -, -, path, -, found, -⟩ := (tracks.authenticates depth_pos room).element
  exact ⟨path, found⟩

end

end

/-- A dummy is the only note of a tree of its own. -/
theorem dummy_among (drawn : DummyNote)
    : NoteAmong crypto [crypto.cm (JSInput.dummy crypto drawn).note] (.dummy crypto drawn) := by
  have run : IncrementalMerkleTree.appendAll crypto.hash sproutTreeDepth {}
      ([] ++ [crypto.cm (JSInput.dummy crypto drawn).note])
      = .ok (JSInput.dummy crypto drawn).witness.tree := rfl
  exact ⟨rfl, 0, tracks_last run, rfl⟩

variable {n : Nat} {later : List Uint256} {treestate : Treestate}
  {failure : String → JoinSplitFailure}

/-- A witness that is given the commitments of earlier joinsplits stays up to date. -/
theorem addHistory_ok {witness} (tracks : Tracks crypto.hash sproutTreeDepth leaves n witness)
    (room : leaves.length + later.length ≤ 2 ^ sproutTreeDepth)
    : ∃ next, addHistory crypto witness later = .ok next
      ∧ Tracks crypto.hash sproutTreeDepth (leaves ++ later) n next := by
  simp only [addHistory, mapError_ok]
  induction later generalizing leaves witness with
  | nil => exact ⟨witness, rfl, by rwa [append_nil]⟩
  | cons commitment later ih =>
    rw [length_cons] at room
    obtain ⟨middle, appended, grown⟩ := tracks.append depth_pos (by omega) commitment
    have roomLater : (leaves ++ [commitment]).length + later.length ≤ 2 ^ sproutTreeDepth := by
      rw [length_append, length_singleton]
      omega
    obtain ⟨next, run, reached⟩ := ih grown roomLater
    refine ⟨next, foldlM_cons_ok.mpr ⟨middle, appended, run⟩, ?_⟩
    rwa [append_assoc] at reached

/-- The note with its witness brought up to date is a note of the grown tree. -/
theorem NoteAmong.addHistory (among : NoteAmong crypto leaves input)
    (room : leaves.length + later.length ≤ 2 ^ sproutTreeDepth)
    : ∃ witness, addHistory crypto input.witness later = .ok witness
      ∧ NoteAmong crypto (leaves ++ later) { input with witness } := by
  obtain ⟨n, tracks, listed⟩ := among.tracked
  obtain ⟨witness, run, grown⟩ := addHistory_ok tracks room
  refine ⟨witness, run, among.owned, n, grown, ?_⟩
  rw [getElem?_append_left tracks.inside]
  exact listed

/-- The two commitments of a joinsplit are appended, and the witness is that of the one that was
asked for.
-/
theorem appendCommitments_ok (treeOf : TreeOf crypto leaves tree) (index : Fin 2)
    (commitments : List.Vector Uint256 2) (room : leaves.length + 2 ≤ 2 ^ sproutTreeDepth)
    : ∃ next witness,
        appendCommitments crypto index 0 tree none commitments.toList = .ok (next, some witness)
        ∧ TreeOf crypto (leaves ++ commitments.toList) next
        ∧ Tracks crypto.hash sproutTreeDepth (leaves ++ commitments.toList)
          (leaves.length + index) witness := by
  obtain ⟨first, second, both⟩ := length_eq_two.mp commitments.2
  obtain ⟨middle, appendedFirst, treeFirst⟩ := appendAll_last depth_pos (by omega) treeOf first
  have roomLater : (leaves ++ [first]).length < 2 ^ sproutTreeDepth := by
    rw [length_append, length_singleton]
    omega
  obtain ⟨next, appendedSecond, treeSecond⟩ := appendAll_last depth_pos roomLater treeFirst second
  rw [append_assoc] at treeSecond
  change ∃ next witness, appendCommitments crypto index 0 tree none commitments.1 = _
    ∧ TreeOf crypto (leaves ++ commitments.1) next ∧ Tracks _ _ (leaves ++ commitments.1) _ witness
  rw [both]
  obtain rfl | rfl : index = 0 ∨ index = 1 := by omega
  · obtain ⟨witness, appended, tracks⟩ := (tracks_last treeFirst).append depth_pos roomLater second
    refine ⟨next, witness, ?_, treeSecond, ?_⟩
    · simp [appendCommitments, appendedFirst, appendedSecond, appended]
    · rwa [append_assoc] at tracks
  · refine ⟨next, next.witness, ?_, treeSecond, ?_⟩
    · simp [appendCommitments, appendedFirst, appendedSecond]
    · rw [← append_assoc leaves [first] [second]] at treeSecond
      have tracks := tracks_last treeSecond
      rwa [append_assoc, length_append] at tracks

variable {coinsView : ShieldedState}

theorem appendCommitments_tree {index next witness result commitments}
    (run : appendCommitments crypto index n tree witness commitments = .ok (next, result))
    : tree.appendAll crypto.hash sproutTreeDepth commitments = .ok next := by
  induction commitments generalizing n tree witness with
  | nil =>
    all_goals
      cases run
      rfl
  | cons commitment commitments ih =>
    cases witness with
    | none =>
      obtain ⟨middle, appended, rest⟩ := bind_ok.mp run
      exact foldlM_cons_ok.mpr ⟨middle, appended, ih rest⟩
    | some witness =>
      obtain ⟨middle, appended, more⟩ := bind_ok.mp run
      obtain ⟨_, _, rest⟩ := bind_ok.mp more
      exact foldlM_cons_ok.mpr ⟨middle, appended, ih rest⟩

/-- A treestate that was updated has the tree after the commitments of the previous joinsplit, and
the witness of the change leads to its root.
-/
theorem Treestate.update_returned {next prevJoinSplit changeOutputIndex treeNext witness}
    (treeOf : ∀ tree, treestate.find coinsView prevJoinSplit.anchor = some tree
      → ∃ leaves, TreeOf crypto leaves tree)
    (run : treestate.update crypto coinsView failure prevJoinSplit changeOutputIndex
      = .ok (next, treeNext, some witness))
    : ∃ tree leaves, treestate.find coinsView prevJoinSplit.anchor = some tree
      ∧ tree.appendAll crypto.hash sproutTreeDepth prevJoinSplit.commitments.toList
        = .ok treeNext
      ∧ next = treestate.extend crypto prevJoinSplit.commitments.toList treeNext
      ∧ TreeOf crypto leaves treeNext
      ∧ witness.root crypto.hash sproutTreeDepth = treeNext.root crypto.hash sproutTreeDepth := by
  unfold Treestate.update at run
  split at run
  · cases run
  next tree found =>
    split at run
    · cases run
    next index =>
      obtain ⟨⟨same, changeWitness⟩, appending, result⟩ := bind_ok.mp run
      cases result
      obtain ⟨leaves, before⟩ := treeOf tree found
      have appended := appendCommitments_tree (mapError_ok.mp appending)
      have after : TreeOf crypto (leaves ++ prevJoinSplit.commitments.toList) treeNext := by
        unfold TreeOf IncrementalMerkleTree.appendAll
        rw [foldlM_append]
        exact bind_ok.mpr ⟨tree, before, appended⟩
      have room := length_le_of_appendAll depth_pos after
      have two : leaves.length + 2 ≤ 2 ^ sproutTreeDepth := by
        rwa [length_append, List.Vector.toList_length] at room
      obtain ⟨_, _, sameRun, -, tracks⟩ :=
        appendCommitments_ok before index prevJoinSplit.commitments two
      cases (mapError_ok.mp appending).symm.trans sameRun
      obtain ⟨_, wholeRun, root⟩ := (tracks.authenticates depth_pos room).root
      cases after.symm.trans wholeRun
      exact ⟨tree, _, found, appended, rfl, after, root⟩

/-- The key opens an output of the joinsplit, which is a note of that value. -/
def HoldsNote (crypto : SproutCrypto) (key : SproutSpendingKey) (joinSplitPubKey : Uint256)
    (jsdesc : JSDescription) (index : Fin 2) (value : UInt64) : Prop :=
  ∃ plaintext,
    crypto.decrypt key (jsdesc.ciphertexts.get index) jsdesc.ephemeralKey
      (descriptionHSig crypto joinSplitPubKey jsdesc) index = .ok plaintext
    ∧ plaintext.value = value
    ∧ jsdesc.commitments.get index = crypto.cm (plaintext.note (crypto.address key))

variable {base : List Uint256} {key : SproutSpendingKey} {joinSplitPubKey : Uint256}
  {treestate : Treestate} {prevJoinSplit : JSDescription} {changeOutputIndex : Option (Fin 2)}

/-- The change of the previous joinsplit can be spent: the anchor of that joinsplit is known as the
root of the tree of the commitments before it, and the change is one of its outputs.
-/
structure ChangePending (crypto : SproutCrypto) (coinsView : ShieldedState) (base : List Uint256)
    (key : SproutSpendingKey) (joinSplitPubKey : Uint256) (treestate : Treestate)
    (prevJoinSplit : JSDescription) (changeOutputIndex : Option (Fin 2)) (jsChange : CAmount)
    : Prop where
  found : ∃ tree, treestate.find coinsView prevJoinSplit.anchor = some tree
    ∧ TreeOf crypto (base ++ treestate.previousCommitments) tree
  note : ∃ index value, changeOutputIndex = some index
    ∧ HoldsNote crypto key joinSplitPubKey prevJoinSplit index value
    ∧ (value.toNat : Int) = jsChange.toInt

/-- The root of the treestate after the previous joinsplit is not that of an earlier one. -/
def FreshRoot (crypto : SproutCrypto) (coinsView : ShieldedState) (treestate : Treestate)
    (failure : String → JoinSplitFailure) (prevJoinSplit : JSDescription)
    (changeOutputIndex : Option (Fin 2)) : Prop :=
  ∀ next tree witness,
    treestate.update crypto coinsView failure prevJoinSplit changeOutputIndex
      = .ok (next, tree, witness)
    → treestate.intermediates.lookup (tree.root crypto.hash sproutTreeDepth) = none

/-- The inputs of a joinsplit are in a tree that the treestate knows. -/
structure InTree (crypto : SproutCrypto) (coinsView : ShieldedState) (base : List Uint256)
    (treestate : Treestate) (tree : SproutMerkleTree) (inputs : List JSInput) : Prop where
  room : (base ++ treestate.previousCommitments).length ≤ 2 ^ sproutTreeDepth
  treeOf : TreeOf crypto (base ++ treestate.previousCommitments) tree
  found : treestate.find coinsView (tree.root crypto.hash sproutTreeDepth) = some tree
  notes : ∀ input ∈ inputs, NoteAmong crypto (base ++ treestate.previousCommitments) input

/-- The treestate is updated and the change becomes an input. -/
theorem ChangePending.spend {jsChange}
    (pending : ChangePending crypto coinsView base key joinSplitPubKey treestate prevJoinSplit
      changeOutputIndex jsChange)
    (fresh : FreshRoot crypto coinsView treestate failure prevJoinSplit changeOutputIndex)
    (room : base.length + treestate.previousCommitments.length + 2 ≤ 2 ^ sproutTreeDepth)
    (decryptError : String → JoinSplitFailure)
    : ∃ next treeNext witness plaintext,
        treestate.update crypto coinsView failure prevJoinSplit changeOutputIndex
          = .ok (next, treeNext, some witness)
        ∧ decryptChange crypto decryptError key joinSplitPubKey prevJoinSplit
          (changeOutputIndex.getD 0) = .ok plaintext
        ∧ InTree crypto coinsView base next treeNext
          [⟨witness, plaintext.note (crypto.address key), key⟩]
        ∧ next.previousCommitments
          = treestate.previousCommitments ++ prevJoinSplit.commitments.toList
        ∧ (plaintext.value.toNat : Int) = jsChange.toInt
        ∧ crypto.cm (plaintext.note (crypto.address key))
          ∈ prevJoinSplit.commitments.toList := by
  obtain ⟨⟨tree, found, treeOf⟩, index, value, rfl, ⟨plaintext, decrypted, rfl, committed⟩,
    isValue⟩ := pending
  have leaves : (base ++ treestate.previousCommitments).length + 2 ≤ 2 ^ sproutTreeDepth := by
    rwa [length_append]
  obtain ⟨treeNext, witness, run, treeLater, tracks⟩ :=
    appendCommitments_ok treeOf index prevJoinSplit.commitments leaves
  have updated : treestate.update crypto coinsView failure prevJoinSplit (some index)
      = .ok (treestate.extend crypto prevJoinSplit.commitments.toList treeNext, treeNext,
        some witness) := by
    simp only [Treestate.update, found, run]
    rfl
  have unknown := fresh _ _ _ updated
  have grown : (treestate.extend crypto prevJoinSplit.commitments.toList
      treeNext).previousCommitments
      = treestate.previousCommitments ++ prevJoinSplit.commitments.toList := rfl
  have listed : prevJoinSplit.commitments.toList[index.val]?
      = some (crypto.cm (plaintext.note (crypto.address key))) := by
    rw [← committed, List.Vector.get_eq_get_toList]
    simp
  rw [append_assoc, ← grown] at treeLater tracks
  refine ⟨_, treeNext, witness, plaintext, updated, mapError_ok.mpr decrypted,
    ⟨?_, treeLater, by simp [Treestate.find, Treestate.extend, unknown], ?_⟩, grown, isValue,
    mem_of_getElem? listed⟩
  · rw [grown, ← append_assoc, length_append, List.Vector.toList_length]
    exact leaves
  intro input mem
  obtain rfl := mem_singleton.mp mem
  refine ⟨rfl, _, tracks, ?_⟩
  rw [grown, ← append_assoc, getElem?_append_right (Nat.le_add_right _ _), Nat.add_sub_cancel_left]
  exact listed

variable {random : JoinSplitRandom} {rt : Uint256} {inputs : JSInput × JSInput}
  {outputs : JSOutput × JSOutput} {vpubOld vpubNew : UInt64}

/-- The output at the place of `gen(2)` after the shuffle is the second one before it. -/
theorem describe_holds (correct : crypto.Correct) (toKey : outputs.2.addr = crypto.address key)
    (proof : GrothProof)
    : HoldsNote crypto key joinSplitPubKey
        (describe crypto random joinSplitPubKey rt inputs
          (mappedShuffle random.genOutputs outputs) vpubOld vpubNew proof)
        random.genOutputs outputs.2.value := by
  obtain place | place : random.genOutputs = 0 ∨ random.genOutputs = 1 := by omega
  · have swapped : mappedShuffle random.genOutputs outputs = (outputs.2, outputs.1) := if_pos place
    rw [swapped, place]
    refine ⟨.ofNote (jsNotes crypto random joinSplitPubKey inputs (outputs.2, outputs.1)).1
      outputs.2.memo, ?_, rfl, ?_⟩
    · simp only [describe, jsCiphertext, toKey]
      exact correct.decrypts ..
    · simp only [describe, jsNotes, JSOutput.note, toKey]
      rfl
  · have same : mappedShuffle random.genOutputs outputs = outputs := by
      rw [mappedShuffle, place, if_neg (by decide)]
    rw [same, place]
    refine ⟨.ofNote (jsNotes crypto random joinSplitPubKey inputs outputs).2 outputs.2.memo, ?_,
      rfl, ?_⟩
    · simp only [describe, jsCiphertext, toKey]
      exact correct.decrypts ..
    · simp only [describe, jsNotes, JSOutput.note, toKey]
      rfl

section

variable (first : ∃ path, inputs.1.witness.path crypto.hash sproutTreeDepth = .ok path)
  (second : ∃ path, inputs.2.witness.path crypto.hash sproutTreeDepth = .ok path)
include first second

theorem jsProof_ok
    : ∃ proof, jsProof crypto random joinSplitPubKey true rt inputs outputs vpubOld vpubNew
        = .ok proof := by
  obtain ⟨auth1, found1⟩ := first
  obtain ⟨auth2, found2⟩ := second
  exact ⟨_, bind_ok.mpr ⟨auth1, mapError_ok.mpr found1,
    bind_ok.mpr ⟨auth2, mapError_ok.mpr found2, rfl⟩⟩⟩

/-- A description is made for a balanced joinsplit with inputs that may be spent. -/
theorem randomized_ok (correct : crypto.Correct)
    (provable : Provable crypto rt inputs outputs vpubOld vpubNew)
    : ∃ jsdesc, randomized crypto random joinSplitPubKey true rt inputs outputs vpubOld vpubNew
          = .ok (jsdesc, mappedShuffle random.genOutputs (0, 1))
        ∧ crypto.verify jsdesc joinSplitPubKey = true
        ∧ jsdesc.anchor = rt
        ∧ (∀ key, outputs.2.addr = crypto.address key
          → HoldsNote crypto key joinSplitPubKey jsdesc random.genOutputs outputs.2.value) := by
  have paths : ∃ proof, jsProof crypto random joinSplitPubKey true rt
      (mappedShuffle random.genInputs inputs) (mappedShuffle random.genOutputs outputs) vpubOld
      vpubNew = .ok proof := by
    rcases mappedShuffle_cases random.genInputs inputs with same | swapped
    · rw [same]
      exact jsProof_ok first second
    · rw [swapped]
      exact jsProof_ok second first
  obtain ⟨proof, proved⟩ := paths
  have run := prove_ok.mpr ⟨provable_shuffled.mpr provable, proof, proved, rfl⟩
  refine ⟨_, ?_, correct.verifies run, rfl, fun key toKey => describe_holds correct toKey proof⟩
  simp [randomized, run]

end

/-- What was returned describes a joinsplit that passes the prover's checks. -/
theorem randomized_returned {jsdesc outputMap}
    (run : randomized crypto random joinSplitPubKey true rt inputs outputs vpubOld vpubNew
      = .ok (jsdesc, outputMap))
    : Provable crypto rt inputs outputs vpubOld vpubNew
      ∧ outputMap = mappedShuffle random.genOutputs (0, 1)
      ∧ ∃ proof, jsdesc = describe crypto random joinSplitPubKey rt
          (mappedShuffle random.genInputs inputs) (mappedShuffle random.genOutputs outputs) vpubOld
          vpubNew proof := by
  obtain ⟨same, proved, isResult⟩ := bind_ok.mp run
  obtain ⟨provable, proof, -, isDesc⟩ := prove_ok.mp proved
  cases isResult
  exact ⟨provable_shuffled.mp provable, rfl, proof, isDesc⟩

/-- Dummies add nothing. -/
theorem valueIn_fillInputs (vpubOld : UInt64) (drawn : DummyNote × DummyNote) {spent}
    (few : spent.length ≤ 2)
    : valueIn vpubOld (fillInputs (.dummy crypto drawn.1, .dummy crypto drawn.2) spent)
      = vpubOld.toNat + noteSum spent := by
  match spent, few with
  | [], _ => rfl
  | [first], _ => rfl
  | [first, second], _ =>
    simp only [valueIn, fillInputs, noteSum, map_cons, map_nil, sum_cons,
      sum_nil, Nat.add_zero, Nat.add_assoc]

/-- A joinsplit that spends notes of one tree is made, if it is balanced; it is anchored to the
root of the tree.
-/
theorem InTree.makes {spent} (correct : crypto.Correct)
    (inTree : InTree crypto coinsView base treestate tree spent) (nonempty : spent ≠ [])
    (few : spent.length ≤ 2) (drawn : DummyNote × DummyNote)
    (range : vpubOld.toNat + noteSum spent ≤ maxMoney.toUInt64.toNat)
    (balanced : vpubOld.toNat + noteSum spent = valueOut vpubNew outputs)
    : let vjsin := fillInputs (.dummy crypto drawn.1, .dummy crypto drawn.2) spent
      vjsin.1.root crypto = tree.root crypto.hash sproutTreeDepth
      ∧ ∃ jsdesc, randomized crypto random joinSplitPubKey true
          (tree.root crypto.hash sproutTreeDepth) vjsin outputs vpubOld vpubNew
          = .ok (jsdesc, mappedShuffle random.genOutputs (0, 1))
        ∧ crypto.verify jsdesc joinSplitPubKey = true
        ∧ jsdesc.anchor = tree.root crypto.hash sproutTreeDepth
        ∧ (∀ key, outputs.2.addr = crypto.address key
          → HoldsNote crypto key joinSplitPubKey jsdesc random.genOutputs outputs.2.value) := by
  have sum :
      valueIn vpubOld (fillInputs (.dummy crypto drawn.1, .dummy crypto drawn.2) spent) = _ :=
    valueIn_fillInputs vpubOld drawn few
  rw [← sum] at range balanced
  have lonely : [crypto.cm (JSInput.dummy crypto drawn.2).note].length ≤ 2 ^ sproutTreeDepth := by
    exact Nat.one_le_two_pow
  rcases spent with _ | ⟨first, _ | ⟨second, _ | ⟨third, more⟩⟩⟩
  · cases nonempty rfl
  · have here := inTree.notes first mem_cons_self
    exact ⟨here.root_eq inTree.room inTree.treeOf, randomized_ok (here.path_ok inTree.room)
      ((dummy_among drawn.2).path_ok lonely) correct
      ⟨here.spendable inTree.room inTree.treeOf, ⟨(absurd rfl ·), (absurd rfl ·), rfl⟩, range,
        balanced⟩⟩
  · have here := inTree.notes first mem_cons_self
    have next := inTree.notes second (mem_cons_of_mem _ mem_cons_self)
    exact ⟨here.root_eq inTree.room inTree.treeOf, randomized_ok (here.path_ok inTree.room)
      (next.path_ok inTree.room) correct ⟨here.spendable inTree.room inTree.treeOf,
        next.spendable inTree.room inTree.treeOf, range, balanced⟩⟩
  · simp at few

/-! What is expected of the cryptography can be met: note plaintexts are read back from their
serialization, so that a cipher that hides nothing is opened again.
-/

def SproutNotePlaintext.serialize (plaintext : SproutNotePlaintext) : Bytes :=
  serWritedata8 0x00 ++ (serWritedata64 plaintext.value ++ (serializeBytes plaintext.rho
    ++ (serializeBytes plaintext.r ++ serializeBytes plaintext.memo)))

def SproutNotePlaintext.unserialize : Reader String SproutNotePlaintext := do
  let leadingByte ← serReaddata8
  if leadingByte ≠ 0x00 then .fail "lead byte of SproutNotePlaintext is not recognized"
  else do
    let value ← serReaddata64
    let rho ← unserializeBytes 32
    let r ← unserializeBytes 32
    let memo ← unserializeBytes 512
    pure { value, memo, rho, r }

theorem SproutNotePlaintext.reads (plaintext : SproutNotePlaintext)
    : Reads SproutNotePlaintext.unserialize plaintext.serialize plaintext := by
  refine (reads8 0x00).bind ?_
  exact (reads64 plaintext.value).bind ((reads_bytes plaintext.rho).bind
    ((reads_bytes plaintext.r).bind (reads_bytes plaintext.memo).map))

theorem SproutNotePlaintext.serialize_length (plaintext : SproutNotePlaintext)
    : plaintext.serialize.length = 585 := by
  have plain {n} (item : List.Vector UInt8 n) : serializeBytes item = item.toList :=
    flatMap_singleton' item.toList
  simp only [SproutNotePlaintext.serialize, plain, length_append,
    List.Vector.toList_length, serWritedata8, serWritedata64, leBytes_length,
    length_singleton]

/-- The ciphertext of a cipher that only leaves room for a tag. -/
def plainCiphertext (plaintext : SproutNotePlaintext) : List.Vector UInt8 601 :=
  ⟨plaintext.serialize ++ List.replicate 16 0, by
    rw [List.length_append, plaintext.serialize_length, List.length_replicate]⟩

def openPlain (ciphertext : List.Vector UInt8 601) : Except String SproutNotePlaintext :=
  (SproutNotePlaintext.unserialize ciphertext.toList).map Prod.fst

theorem openPlain_plainCiphertext (plaintext : SproutNotePlaintext)
    : openPlain (plainCiphertext plaintext) = .ok plaintext := by
  have read := plaintext.reads (replicate 16 0)
  change (SproutNotePlaintext.unserialize (plaintext.serialize ++ replicate 16 0)).map _ = _
  rw [read]
  rfl

/-- Add up hashes byte by byte, with weights. -/
def mixBytes (a b : Uint256) (depth : Nat) : Uint256 :=
  ⟨(a.toList.zip b.toList).map fun pair => 3 * pair.1 + 5 * pair.2 + UInt8.ofNat depth, by
    simp⟩

/-- A hash whose bytes all are the same. -/
def uniform (byte : UInt8) : Uint256 := List.Vector.replicate 32 byte

/-- Notes, keys and ciphertexts are in the clear, and every proof is accepted. -/
def plainCrypto : SproutCrypto where
  hash := .ofCombine mixBytes (uniform 1) Subtype.val
  address := fun key => ⟨key, key⟩
  cm := fun note => mixBytes note.rho (uniform (UInt8.ofNat note.value.toNat)) 0
  prfNf := fun _ rho => rho
  prfRho := fun phi i _ => mixBytes phi phi i
  prfPk := fun key _ _ => key
  hSig := fun randomSeed _ _ => randomSeed
  epk := fun esk => esk
  encrypt := fun _ _ _ plaintext _ => plainCiphertext plaintext
  decrypt := fun _ ciphertext _ _ _ => openPlain ciphertext
  sproutProve := fun _ _ _ _ _ _ _ _ => zeroBytes 192
  verify := fun _ _ => true

theorem plainCrypto_correct : plainCrypto.Correct where
  decrypts := fun _ _ _ _ plaintext => openPlain_plainCiphertext plaintext
  verifies := fun _ => rfl

end Resistance.Sprout
