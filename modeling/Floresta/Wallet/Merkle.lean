import Mathlib.Data.Nat.Bitwise
import Floresta.Consensus.Block

/-!
# Merkle — inclusion proofs of transactions

The branch of a transaction as `ConsensusMerkle::calculate_branch` collects it, and the proofs of
the watch-only wallet (`merkle.rs`) that carry it.  A branch is built level by level with the
reduction of `calculate_root`, so the climb of `verify` meets the nodes of the same tree: the proof
of every position of every list verifies against the root of the list.
-/

namespace Floresta

open Fallible

/-! ## Branches -/

namespace Consensus

variable (B : Bitcoin)

/-- The node paired with `position`; the last node of an odd level is paired with itself. -/
def sibling (level : List Hash256) (position : Nat) : Hash256 :=
  (level[position ^^^ 1]?).getD (level.getD position 0)

/-- The loop of `calculate_branch`; the fuel bounds the number of levels. -/
def branchLoop : Nat → List Hash256 → Nat → List Hash256
  | 0, _, _ => []
  | fuel + 1, level, position =>
    if level.length ≤ 1 then []
    else sibling level position :: branchLoop fuel (reduceLevel B level) (position / 2)

def calculateBranch (leaves : List Hash256) (position : Nat) : Option (List Hash256) :=
  if leaves.length ≤ position then none
  else some (branchLoop B leaves.length leaves position)

end Consensus

/-! ## Proofs -/

/-- Where a process stops: a failed `expect`, `unwrap` or `assert`, or an index out of bounds. -/
inductive Panic
  | expect (message : String)
  | unwrap
  | assert
  | indexOutOfBounds
  deriving DecidableEq, Repr

structure MerkleProof where
  target : Txid
  pos : Nat
  hashes : List Hash256
  deriving DecidableEq, Repr

namespace MerkleProof

variable (B : Bitcoin)

def default : MerkleProof := ⟨0, 0, []⟩

def fromBlockHashes (txList : List Hash256) (target : Nat) : Except Panic MerkleProof := do
  let targetHash ← okOr txList[target]? .indexOutOfBounds
  let proof ← okOr (Consensus.calculateBranch B txList target)
    (.expect "target is in transaction list")
  pure ⟨targetHash, target, proof⟩

def fromBlock (block : Block) (target : Nat) : Except Panic MerkleProof :=
  fromBlockHashes B (block.txdata.map B.computeTxid) target

def climb (computed : Hash256) (placement : Nat) : List Hash256 → Hash256
  | [] => computed
  | hash :: rest =>
    climb (if placement % 2 = 0 then B.merkleNode computed hash else B.merkleNode hash computed)
      (placement / 2) rest

def verify (proof : MerkleProof) (root : Hash256) : Bool :=
  root = climb B proof.target proof.pos proof.hashes

end MerkleProof

/-! ## Every branch leads to the root -/

namespace Consensus

variable {B : Bitcoin}

@[simp] theorem reduceLevel_length (level : List Hash256) :
    (reduceLevel B level).length = (level.length + 1) / 2 := by
  fun_induction reduceLevel B level with
  | case1 => rfl
  | case2 l => simp
  | case3 l r rest ih =>
    simp only [List.length_cons, ih]
    omega

theorem xor_one_add_two (n : Nat) : (n + 2) ^^^ 1 = (n ^^^ 1) + 2 := by
  rcases Nat.even_or_odd n with h | h
  · rw [Nat.xor_one_of_even h, Nat.xor_one_of_even (h.add even_two)]
  · rw [Nat.xor_one_of_odd h, Nat.xor_one_of_odd (h.add_even even_two)]
    rcases h with ⟨k, rfl⟩
    omega

theorem sibling_cons_cons (l r : Hash256) (rest : List Hash256) (n : Nat) :
    sibling (l :: r :: rest) (n + 2) = sibling rest n := by
  simp [sibling, xor_one_add_two]

theorem reduceLevel_getElem? {level : List Hash256} {position : Nat} {hash : Hash256}
    (h : level[position]? = some hash) :
    (reduceLevel B level)[position / 2]? =
      some (if position % 2 = 0 then B.merkleNode hash (sibling level position)
        else B.merkleNode (sibling level position) hash) := by
  induction level using reduceLevel.induct generalizing position with
  | case1 => simp at h
  | case2 l =>
    -- an unpaired node is its own sibling
    obtain rfl : position = 0 := by
      by_contra hne
      obtain ⟨n, rfl⟩ := Nat.exists_eq_succ_of_ne_zero hne
      simp at h
    obtain rfl : l = hash := by simpa using h
    simp [reduceLevel, sibling]
  | case3 l r rest ih =>
    match position, h with
    | 0, h =>
      obtain rfl : l = hash := by simpa using h
      simp [reduceLevel, sibling]
    | 1, h =>
      obtain rfl : r = hash := by simpa using h
      simp [reduceLevel, sibling]
    | n + 2, h =>
      have hn : (n + 2) / 2 = n / 2 + 1 := by omega
      have hparity : (n + 2) % 2 = n % 2 := by omega
      have hrest : rest[n]? = some hash := by simpa using h
      rw [sibling_cons_cons, hn, hparity, reduceLevel, List.getElem?_cons_succ]
      exact ih hrest

/-- Climbing the branch of a position from its node arrives at the root of the level. -/
theorem climb_branchLoop {level : List Hash256} {position fuel : Nat} {hash : Hash256}
    (mutated : Bool) (h : level[position]? = some hash) (hfuel : level.length ≤ fuel + 1) :
    MerkleProof.climb B hash position (branchLoop B fuel level position) =
      (rootLoop B fuel level mutated).1 := by
  induction fuel generalizing level position hash mutated with
  | zero =>
    match level, h, hfuel with
    | [l], h, _ =>
      have hpos : position = 0 := by
        have := (List.getElem?_eq_some_iff.mp h).1
        simpa using this
      subst hpos
      obtain rfl : l = hash := by simpa using h
      rfl
  | succ fuel ih =>
    match level, h, hfuel with
    | [l], h, _ =>
      have hpos : position = 0 := by
        have := (List.getElem?_eq_some_iff.mp h).1
        simpa using this
      subst hpos
      obtain rfl : l = hash := by simpa using h
      simp [branchLoop, rootLoop, MerkleProof.climb]
    | l :: r :: rest, h, hfuel =>
      -- one round of either loop reduces the level and halves the position
      have hlen : (reduceLevel B (l :: r :: rest)).length ≤ fuel + 1 := by
        simp only [reduceLevel_length, List.length_cons] at hfuel ⊢
        omega
      have hparent := reduceLevel_getElem? (B := B) h
      have hrest := ih (mutated || levelMutated (l :: r :: rest)) hparent hlen
      simpa [branchLoop, rootLoop, MerkleProof.climb] using hrest

theorem calculateBranch_isSome {leaves : List Hash256} {position : Nat} :
    (calculateBranch B leaves position).isSome = true ↔ position < leaves.length := by
  unfold calculateBranch
  split <;> simp <;> omega

end Consensus

namespace MerkleProof

open Consensus

variable {B : Bitcoin}

/-- The proof of a position of a block exists, names the transaction and its position, and verifies
against the merkle root of the block's txids. -/
theorem fromBlock_verify {block : Block} {position : Nat} {tx : Transaction}
    (h : block.txdata[position]? = some tx) :
    ∃ proof, fromBlock B block position = .ok proof ∧ proof.target = B.computeTxid tx ∧
      proof.pos = position ∧
      ∀ root mutated, calculateRoot B (block.txdata.map B.computeTxid) = some (root, mutated) →
        proof.verify B root = true := by
  have htxid : (block.txdata.map B.computeTxid)[position]? = some (B.computeTxid tx) := by
    simp [h]
  have hpos := (List.getElem?_eq_some_iff.mp htxid).1
  obtain ⟨branch, hbranch⟩ := Option.isSome_iff_exists.mp (calculateBranch_isSome (B := B).mpr hpos)
  refine ⟨⟨B.computeTxid tx, position, branch⟩, ?_, rfl, rfl, ?_⟩
  · simp [fromBlock, fromBlockHashes, htxid, hbranch, okOr]
  · intro root mutated hroot
    have hloop : branch = branchLoop B (block.txdata.map B.computeTxid).length
        (block.txdata.map B.computeTxid) position := by
      rw [calculateBranch, if_neg (by omega)] at hbranch
      exact (Option.some.inj hbranch).symm
    have hroot' : rootLoop B (block.txdata.map B.computeTxid).length
        (block.txdata.map B.computeTxid) false = (root, mutated) := by
      unfold calculateRoot at hroot
      split at hroot
      · cases hroot
      · exact Option.some.inj hroot
    have hclimb := climb_branchLoop (B := B) false htxid (Nat.le_succ _)
    rw [hroot', ← hloop] at hclimb
    simp [verify, hclimb]

end MerkleProof

end Floresta
