import Resistance.Pow.Headers

/-! Chain work is exact: the proof of a block is the floored quotient that it stands for, and
`nChainWork` is the sum of the proofs.
-/

namespace Resistance.Pow

open List Primitives Arith Lib.Checks ArithUint256

/-- The quotient in wrapping arithmetic is the one that 256 bits cannot write down. -/
theorem complement_div_succ {t} (small : t < 2 ^ 256)
    : (2 ^ 256 - 1 - t) / (t + 1) + 1 = 2 ^ 256 / (t + 1) := by
  have whole : 2 ^ 256 - 1 - t + (t + 1) = 2 ^ 256 := by omega
  rw [← Nat.add_div_right _ (Nat.succ_pos t), whole]

/-- A compact target that decodes without a flag and to something other than zero. -/
structure Usable (nBits : UInt32) : Prop where
  nonnegative : (ArithUint256.setCompact nBits).fNegative = false
  inRange : (ArithUint256.setCompact nBits).fOverflow = false
  nonzero : (ArithUint256.setCompact nBits).target.value ≠ 0

variable {nBits : UInt32} {proof : ArithUint256}

theorem usable_iff
    : Usable nBits ↔ ((setCompact nBits).fNegative
      || (setCompact nBits).fOverflow
      || (setCompact nBits).target.equalTo 0) = false := by
  rw [Bool.or_eq_false_iff, Bool.or_eq_false_iff, ← Bool.not_eq_true (equalTo _ _), equalTo_iff]
  exact ⟨fun usable => ⟨⟨usable.1, usable.2⟩, usable.3⟩, fun h => ⟨h.1.1, h.1.2, h.2⟩⟩

theorem getBlockProof_usable (usable : Usable nBits)
    : ∃ proof, getBlockProof nBits = .ok proof
      ∧ proof.value = 2 ^ 256 / ((setCompact nBits).target.value + 1) := by
  have flags := usable_iff.mp usable
  have nonzero := usable.nonzero
  have room := setCompact_lt nBits
  rw [← (setCompact_eq nBits).1] at room
  unfold getBlockProof
  generalize setCompact nBits = bnTarget at *
  have succ : (bnTarget.target.add (.ofUInt64 1)).value = bnTarget.target.value + 1 := by
    rw [value_add, value_ofUInt64, UInt64.toNat_one, Nat.mod_eq_of_lt (by omega)]
  obtain ⟨quotient, divided, floor⟩ := div_ok
    (a := bnTarget.target.complement) (b := bnTarget.target.add (.ofUInt64 1)) (by omega)
  have total : quotient.value + 1 = 2 ^ 256 / (bnTarget.target.value + 1) := by
    rw [floor, succ, value_complement, complement_div_succ (by omega)]
  have fits : 2 ^ 256 / (bnTarget.target.value + 1) < 2 ^ 256 :=
    Nat.div_lt_self (by decide) (by omega)
  refine ⟨quotient.add (.ofUInt64 1), ?_, ?_⟩
  · simp only [flags, divided]
    rfl
  · rw [value_add, value_ofUInt64, UInt64.toNat_one, total, Nat.mod_eq_of_lt fits]

theorem getBlockProof_returns (nBits : UInt32) : ∃ proof, getBlockProof nBits = .ok proof := by
  by_cases usable : Usable nBits
  · obtain ⟨proof, run, -⟩ := getBlockProof_usable usable
    exact ⟨proof, run⟩
  · have flagged := Bool.eq_true_of_not_eq_false (mt usable_iff.mpr usable)
    exact ⟨.ofUInt64 0, by simp only [getBlockProof, flagged]; rfl⟩

theorem one_le_proof (usable : Usable nBits) (run : getBlockProof nBits = .ok proof)
    : 1 ≤ proof.value := by
  obtain ⟨_, same, floor⟩ := getBlockProof_usable usable
  cases run.symm.trans same
  have bound := (setCompact nBits).target.value_lt
  rw [floor]
  exact Nat.div_pos bound (Nat.succ_pos _)

theorem proofValue_of_ok (run : getBlockProof nBits = .ok proof)
    : proofValue nBits = proof.value := by
  rw [proofValue, run]

/-- The sum of the proofs of a chain's blocks. -/
def totalProof (chain : HeaderChain) : Nat :=
  (chain.map fun pindex => proofValue pindex.nBits).sum

theorem totalProof_cons (pindex : HeaderIndex) (below : HeaderChain)
    : totalProof (pindex :: below) = proofValue pindex.nBits + totalProof below := by
  rw [totalProof, map_cons, sum_cons, totalProof]

variable {check : CBlockHeader → HeaderChain → Prop} {genesis : CBlockHeader}
  {chain pprev below : HeaderChain} {pindex prev : HeaderIndex}

/-- What `AddToBlockIndex` puts on top of a chain. -/
theorem addToBlockIndex_ok {block} (added : addToBlockIndex block pprev = .ok chain)
    : ∃ pindex, chain = pindex :: pprev ∧ pindex.nBits = block.nBits ∧ pindex.nTime = block.nTime
      ∧ pindex.nChainWork.value
        = ((pprev.head?.map (·.nChainWork.value)).getD 0 + proofValue block.nBits)
          % 2 ^ 256 := by
  obtain ⟨proof, run⟩ := getBlockProof_returns block.nBits
  unfold addToBlockIndex at added
  rw [run] at added
  obtain rfl := pure_ok.mp added
  refine ⟨_, rfl, rfl, rfl, ?_⟩
  rw [value_add, proofValue_of_ok run]
  cases pprev with
  | nil => rfl
  | cons prev below => rfl

/-- A chain is one block on top of a chain that grew before it, or the genesis block. -/
theorem Grows.cons (grown : Grows check genesis chain)
    : ∃ pindex below, chain = pindex :: below
      ∧ (below = [] ∧ addToBlockIndex genesis [] = .ok chain
        ∨ ∃ block, Grows check genesis below ∧ check block below
          ∧ addToBlockIndex block below = .ok chain) := by
  cases grown with
  | genesis added =>
    obtain ⟨pindex, rfl, -⟩ := addToBlockIndex_ok added
    exact ⟨pindex, [], rfl, .inl ⟨rfl, added⟩⟩
  | @next block pprev _ grown checked added =>
    obtain ⟨pindex, rfl, -⟩ := addToBlockIndex_ok added
    exact ⟨pindex, pprev, rfl, .inr ⟨block, grown, checked, added⟩⟩

theorem Grows.suffix (grown : Grows check genesis chain) (part : (pindex :: below) <:+ chain)
    : Grows check genesis (pindex :: below) := by
  induction grown with
  | genesis added =>
    obtain ⟨_, rfl, -⟩ := addToBlockIndex_ok added
    rcases suffix_cons_iff.mp part with same | none
    · rw [same]
      exact .genesis added
    · cases suffix_nil.mp none
  | next grown checked added ih =>
    obtain ⟨_, rfl, -⟩ := addToBlockIndex_ok added
    rcases suffix_cons_iff.mp part with same | earlier
    · rw [same]
      exact .next grown checked added
    · exact ih earlier

/-- `nChainWork` is the sum of the proofs, in 256 bits. -/
theorem Grows.nChainWork (grown : Grows check genesis (pindex :: below))
    : pindex.nChainWork.value = totalProof (pindex :: below) % 2 ^ 256 := by
  generalize whole : pindex :: below = chain at grown
  induction grown generalizing pindex below with
  | genesis added =>
    obtain ⟨_, rfl, sameBits, -, work⟩ := addToBlockIndex_ok added
    cases whole
    rw [work, sameBits.symm]
    simp [totalProof]
  | @next block pprev _ grown _ added ih =>
    obtain ⟨_, rfl, sameBits, -, work⟩ := addToBlockIndex_ok added
    cases whole
    obtain ⟨prev, earlier, rfl, -⟩ := grown.cons
    rw [work, sameBits.symm, head?_cons, Option.map_some, Option.getD_some, ih rfl,
      Nat.mod_add_mod, Nat.add_comm, totalProof_cons pindex]

theorem totalProof_le_of_suffix (part : below <:+ chain) : totalProof below ≤ totalProof chain := by
  obtain ⟨above, rfl⟩ := part
  rw [totalProof, totalProof, map_append, sum_append]
  exact Nat.le_add_left ..

/-- While the sum of the proofs fits in 256 bits, `nChainWork` is that sum. -/
theorem Grows.nChainWork_exact (grown : Grows check genesis chain)
    (fits : totalProof chain < 2 ^ 256) (part : (pindex :: below) <:+ chain)
    : pindex.nChainWork.value = totalProof (pindex :: below) := by
  rw [(grown.suffix part).nChainWork,
    Nat.mod_eq_of_lt ((totalProof_le_of_suffix part).trans_lt fits)]

section Acceptance

variable {getHash getPoWHash : CBlockHeader → Uint256} {params : PowParams}

/-- An accepted header has a usable target. -/
theorem usable_of_accepts {block} (accepted : Accepts getHash getPoWHash params block pprev)
    : Usable block.nBits := by
  obtain ⟨⟨adjustedTime, checked⟩, -⟩ := accepted
  unfold checkBlockHeader at checked
  simp only [bind_ok, throwIf_ok] at checked
  obtain ⟨-, -, -, proved, -⟩ := checked
  rw [Bool.not_eq_true', Bool.not_eq_false, checkProofOfWork] at proved
  split at proved
  next => cases proved
  next passed =>
    refine usable_iff.mpr ?_
    simp only [Bool.or_eq_true, not_or] at passed
    simp [passed.1]

/-- Each accepted block adds work to the chain. -/
theorem Grows.nChainWork_lt (grown : Grows (Accepts getHash getPoWHash params) genesis chain)
    (fits : totalProof chain < 2 ^ 256) (part : (pindex :: prev :: below) <:+ chain)
    : prev.nChainWork.value < pindex.nChainWork.value := by
  have earlier : (prev :: below) <:+ chain := (suffix_cons _ _).trans part
  rw [grown.nChainWork_exact fits part, grown.nChainWork_exact fits earlier]
  obtain ⟨_, _, split, ⟨empty, -⟩ | ⟨block, -, accepted, added⟩⟩ := (grown.suffix part).cons
  · cases split
    cases empty
  obtain ⟨_, same, sameBits, -⟩ := addToBlockIndex_ok added
  cases same
  have usable := usable_of_accepts accepted
  obtain ⟨proof, run, -⟩ := getBlockProof_usable usable
  have pos := one_le_proof usable run
  rw [← proofValue_of_ok run, ← sameBits] at pos
  rw [totalProof_cons pindex]
  omega

end Acceptance

/-- The limb operators compute products modulo `2^256` and floored quotients; so the proof of a
usable target `t` is `2^256 / (t + 1)`, which is at least one and antitone in `t`, and along an
accepted chain `nChainWork` is the exact sum of the proofs and increases with each block, as
long as that sum is below `2^256`.
-/
theorem chainWork_exact
    : (∀ a b : ArithUint256, (a.mul b).value = a.value * b.value % 2 ^ 256)
      ∧ (∀ a b : ArithUint256, b.value ≠ 0 →
        ∃ quotient, a.div b = .ok quotient ∧ quotient.value = a.value / b.value)
      ∧ (∀ nBits, Usable nBits →
        ∃ proof, getBlockProof nBits = .ok proof
          ∧ proof.value = 2 ^ 256 / ((ArithUint256.setCompact nBits).target.value + 1)
          ∧ 1 ≤ proof.value)
      ∧ (∀ nBits nBits' proof proof', Usable nBits → Usable nBits' →
        getBlockProof nBits = .ok proof → getBlockProof nBits' = .ok proof' →
        (ArithUint256.setCompact nBits).target.value
            ≤ (ArithUint256.setCompact nBits').target.value →
        proof'.value ≤ proof.value)
      ∧ ∀ getHash getPoWHash params genesis chain,
        Grows (Accepts getHash getPoWHash params) genesis chain →
        totalProof chain < 2 ^ 256 →
        (∀ pindex below, (pindex :: below) <:+ chain →
          pindex.nChainWork.value = totalProof (pindex :: below))
        ∧ ∀ pindex prev below, (pindex :: prev :: below) <:+ chain →
          prev.nChainWork.value < pindex.nChainWork.value := by
  refine ⟨value_mul, fun a b nonzero => div_ok nonzero, ?_, ?_, ?_⟩
  · intro nBits usable
    obtain ⟨proof, run, floor⟩ := getBlockProof_usable usable
    exact ⟨proof, run, floor, one_le_proof usable run⟩
  · intro nBits nBits' proof proof' usable usable' run run' easier
    obtain ⟨_, same, floor⟩ := getBlockProof_usable usable
    obtain ⟨_, same', floor'⟩ := getBlockProof_usable usable'
    cases run.symm.trans same
    cases run'.symm.trans same'
    rw [floor, floor']
    exact Nat.div_le_div_left (Nat.succ_le_succ easier) (Nat.succ_pos _)
  · intro getHash getPoWHash params genesis chain grown fits
    exact ⟨fun _ _ part => grown.nChainWork_exact fits part,
      fun _ _ _ part => grown.nChainWork_lt fits part⟩

-- The genesis block of the main network, and a block on top of it.
def genesisHeader : CBlockHeader := { nTime := 1564407265, nBits := 0x1f07ffff }

def secondHeader : CBlockHeader := { nTime := 1564407325, nBits := 0x1f07ffff }

def genesisChain : HeaderChain := [{
  nHeight := 0
  nTime := 1564407265
  nBits := 0x1f07ffff
  nChainWork := .ofUInt64 8192
}]

def twoHeaders : HeaderChain := {
  nHeight := 1
  nTime := 1564407325
  nBits := 0x1f07ffff
  nChainWork := .ofUInt64 16384
} :: genesisChain

theorem genesisChain_added : addToBlockIndex genesisHeader [] = .ok genesisChain := by
  decide

theorem twoHeaders_accepted
    : Grows (Accepts (fun _ => .null) (fun _ => .null) PowParams.main) genesisHeader
      twoHeaders := by
  have passes : Accepts (fun _ => .null) (fun _ => .null) PowParams.main secondHeader
      genesisChain :=
    ⟨⟨1564407325, by decide +kernel⟩, by decide +kernel, none, by decide +kernel⟩
  refine (Grows.genesis genesisChain_added).next passes ?_
  decide

theorem twoHeaders_work
    : Usable 0x1f07ffff ∧ totalProof twoHeaders = 16384
      ∧ (∃ proof, getBlockProof 0x1f07ffff = .ok proof
        ∧ proof.value
          = 2 ^ 256 / ((ArithUint256.setCompact 0x1f07ffff).target.value + 1)
        ∧ 1 ≤ proof.value)
      ∧ (∀ pindex below, (pindex :: below) <:+ twoHeaders →
          pindex.nChainWork.value = totalProof (pindex :: below))
      ∧ ∀ pindex prev below, (pindex :: prev :: below) <:+ twoHeaders →
          prev.nChainWork.value < pindex.nChainWork.value := by
  have usable : Usable 0x1f07ffff := usable_iff.mpr (by decide +kernel)
  have total : totalProof twoHeaders = 16384 := by
    rfl
  exact ⟨usable, total, chainWork_exact.2.2.1 _ usable,
    chainWork_exact.2.2.2.2 _ _ _ _ _ twoHeaders_accepted (by rw [total]; decide)⟩

end Resistance.Pow
