import Mathlib.Data.Finmap
import Mathlib.Algebra.BigOperators.Group.List.Basic
import Mathlib.Algebra.GroupWithZero.Nat

/-!
# Primitives — the data of blocks and transactions

The types of the `bitcoin` crate that the node handles, and the functions of that crate it calls.

* machine integers that the code only compares and adds are natural numbers, with the wrap-around
  written where the code can reach it (`% 2 ^ 32`); amounts carry their own bound;
* a `HashMap` is a finite map of Mathlib (`Finmap`), a `HashSet` a `Finset`;
* the crate functions whose source is not part of the repository are the fields of `Bitcoin`.
-/

namespace Floresta

/-! ## Hashes, scripts and amounts -/

abbrev Hash256 := BitVec 256
abbrev BlockHash := Hash256
abbrev Txid := Hash256
abbrev Bytes := List UInt8
abbrev Script := Bytes
abbrev Witness := List Bytes

instance : LawfulBEq Hash256 := inferInstance
instance : LawfulBEq Bytes := inferInstance

abbrev HashMap (K V : Type) := Finmap fun _ : K => V

/-- A number of satoshis held in a `u64`. -/
structure Amount where
  sat : Nat
  lt : sat < 2 ^ 64
  deriving DecidableEq, Repr

namespace Amount

def fromSat (sat : Nat) : Amount :=
  ⟨sat % 2 ^ 64, Nat.mod_lt _ (by decide)⟩

def ZERO : Amount := fromSat 0
def MAX : Amount := fromSat (2 ^ 64 - 1)
def ONE_BTC : Amount := fromSat 100000000
def MAX_MONEY : Amount := fromSat (21000000 * 100000000)

def checkedAdd (a b : Amount) : Option Amount :=
  if h : a.sat + b.sat < 2 ^ 64 then some ⟨a.sat + b.sat, h⟩ else none

/-- `a - b`; the code subtracts only after it has compared the two. -/
def sub (a b : Amount) : Amount :=
  ⟨a.sat - b.sat, Nat.lt_of_le_of_lt (Nat.sub_le _ _) a.lt⟩

@[ext] theorem ext {a b : Amount} (h : a.sat = b.sat) : a = b := by
  cases a
  cases b
  cases h
  rfl

@[simp] theorem ZERO_sat : ZERO.sat = 0 := rfl
@[simp] theorem sub_sat (a b : Amount) : (a.sub b).sat = a.sat - b.sat := rfl

theorem checkedAdd_eq_some {a b c : Amount} :
    a.checkedAdd b = some c ↔ c.sat = a.sat + b.sat := by
  unfold checkedAdd
  constructor
  · intro h
    split at h
    · cases h
      rfl
    · cases h
  · intro h
    have hlt : a.sat + b.sat < 2 ^ 64 := h ▸ c.lt
    rw [dif_pos hlt]
    exact congrArg some (Amount.ext h.symm)

end Amount

/-! ## Transactions and blocks -/

structure OutPoint where
  txid : Txid
  vout : UInt32
  deriving DecidableEq, Repr

namespace OutPoint

/-- The outpoint that only a coinbase input may name. -/
def null : OutPoint := ⟨0, 0xffffffff⟩

def isNull (o : OutPoint) : Bool := o = null

end OutPoint

/-- `absolute::LockTime`: the consensus field read as a height or as a timestamp. -/
inductive LockTime
  | blocks (height : Nat)
  | seconds (time : Nat)
  deriving DecidableEq, Repr

/-- `relative::LockTime`: 16-bit counts of blocks or of 512-second intervals. -/
inductive RelativeLockTime
  | blocks (height : Nat)
  | time (intervals : Nat)
  deriving DecidableEq, Repr

structure TxIn where
  previousOutput : OutPoint
  scriptSig : Script
  sequence : UInt32
  witness : Witness
  deriving DecidableEq, Repr

structure TxOut where
  value : Amount
  scriptPubkey : Script
  deriving DecidableEq, Repr

structure Transaction where
  version : Int
  lockTime : LockTime
  input : List TxIn
  output : List TxOut
  deriving DecidableEq, Repr

namespace Transaction

def isCoinbase (tx : Transaction) : Bool :=
  match tx.input with
  | [i] => i.previousOutput.isNull
  | _ => false

/-- What the txid commits to: every field but the witnesses. -/
def stripWitness (tx : Transaction) : Transaction :=
  { tx with input := tx.input.map fun i => { i with witness := [] } }

end Transaction

structure BlockHeader where
  version : Int
  prevBlockhash : BlockHash
  merkleRoot : Hash256
  time : Nat
  bits : UInt32
  nonce : UInt32
  deriving DecidableEq, Repr

structure Block where
  header : BlockHeader
  txdata : List Transaction
  deriving DecidableEq, Repr

/-! ## The functions of the `bitcoin` crate -/

/-- What `Script::instructions` yields. -/
inductive Instruction
  | pushBytes (bytes : Bytes)
  | op (opcode : UInt8)
  deriving DecidableEq, Repr

/-- The functions of the `bitcoin` crate that the modelled code calls and whose source lies outside
the repository.  Nothing is assumed about them here: what a result needs is one of its hypotheses. -/
structure Bitcoin where
  blockHash : BlockHeader → BlockHash
  computeTxid : Transaction → Txid
  /-- `Transaction::total_sigop_cost(|_| None)` -/
  totalSigopCost : Transaction → Nat
  /-- `Script::instructions`; an error ends the iteration -/
  instructions : Script → List (Except String Instruction)
  instructionsMinimal : Script → List (Except String Instruction)
  readScriptint : Bytes → Except String Int
  isPushOnly : Script → Bool
  /-- `Sequence::to_relative_lock_time` -/
  toRelativeLockTime : UInt32 → Option RelativeLockTime
  /-- `Sequence::is_time_locked` -/
  isTimeLocked : UInt32 → Bool
  checkWitnessCommitment : Block → Bool
  weight : Block → Nat
  hash160 : Bytes → BitVec 160
  sha256 : Bytes → Hash256
  sha512_256 : Bytes → Hash256
  /-- the double SHA256 of two nodes of a merkle tree -/
  merkleNode : Hash256 → Hash256 → Hash256
  /-- `TxOut::consensus_encode` -/
  encodeTxOut : TxOut → Bytes
  /-- `consensus_encode` of a byte string -/
  encodeBytes : Bytes → Bytes
  /-- `consensus_decode` of a byte string, with what it leaves unread -/
  decodeBytes : Bytes → Except String (Bytes × Bytes)

namespace Bitcoin

variable (B : Bitcoin)

/-- Txids of the given transactions commit to everything but the witnesses. -/
def TxidInjectiveOn (txs : List Transaction) : Prop :=
  ∀ t ∈ txs, ∀ t' ∈ txs, B.computeTxid t = B.computeTxid t' → t.stripWitness = t'.stripWitness

end Bitcoin

namespace Script

def isOpReturn : Script → Bool
  | 0x6a :: _ => true
  | _ => false

/-- `OP_HASH160 <20 bytes> OP_EQUAL`. -/
def isP2sh (s : Script) : Bool :=
  s.length = 23 && s.take 2 = [0xa9, 0x14] && s.drop 22 = [0x87]

/-- `OP_DUP OP_HASH160 <20 bytes> OP_EQUALVERIFY OP_CHECKSIG`. -/
def isP2pkh (s : Script) : Bool :=
  s.length = 25 && s.take 3 = [0x76, 0xa9, 0x14] && s.drop 23 = [0x88, 0xac]

/-- `OP_0 <20 bytes>`. -/
def isP2wpkh (s : Script) : Bool :=
  s.length = 22 && s.take 2 = [0x00, 0x14]

/-- `OP_0 <32 bytes>`. -/
def isP2wsh (s : Script) : Bool :=
  s.length = 34 && s.take 2 = [0x00, 0x20]

/-- A version opcode followed by one push of 2 to 40 bytes. -/
def isWitnessProgram : Script → Bool
  | version :: len :: program =>
    (version = 0 || (0x51 ≤ version && version ≤ 0x60)) &&
      2 ≤ len.toNat && len.toNat ≤ 40 && program.length = len.toNat
  | _ => false

end Script

/-! ## A small interpretation

Evaluates the model on concrete data: the digests are injective on small inputs, scripts are parsed
into short pushes and opcodes, sequences are read as BIP68 has it, and the coinbase commits to the
witnesses in an `OP_RETURN` output. -/

namespace Bitcoin
namespace Sample

def digest (w : Nat) (ns : List Nat) : BitVec w :=
  BitVec.ofNat w (ns.foldl (fun acc n => acc * 65537 + n + 1) 1)

def bytesDigest (w : Nat) (bytes : Bytes) : BitVec w :=
  digest w (bytes.map UInt8.toNat)

def littleEndian (width n : Nat) : Bytes :=
  (List.range width).map fun i => UInt8.ofNat (n / 256 ^ i)

/-- The one-byte length prefix of short byte strings. -/
def encodeBytes (bytes : Bytes) : Bytes :=
  UInt8.ofNat bytes.length :: bytes

def decodeBytes : Bytes → Except String (Bytes × Bytes)
  | [] => .error "unexpected end of file"
  | len :: rest =>
    if len.toNat ≤ rest.length then .ok (rest.take len.toNat, rest.drop len.toNat)
    else .error "unexpected end of file"

/-- Opcodes `1..75` push that many bytes, every other opcode stands for itself. -/
def parse : Nat → Script → List (Except String Instruction)
  | 0, _ => []
  | _, [] => []
  | fuel + 1, b :: rest =>
    if 1 ≤ b.toNat ∧ b.toNat ≤ 75 then
      if b.toNat ≤ rest.length then
        .ok (.pushBytes (rest.take b.toNat)) :: parse fuel (rest.drop b.toNat)
      else [.error "unexpected end of script"]
    else if b = 0 then .ok (.pushBytes []) :: parse fuel rest
    else .ok (.op b) :: parse fuel rest

def lockTimeCode : LockTime → Nat
  | .blocks h => 2 * h
  | .seconds t => 2 * t + 1

def txCode (tx : Transaction) : List Nat :=
  tx.version.toNat :: lockTimeCode tx.lockTime :: tx.input.length ::
    tx.input.flatMap (fun i => i.previousOutput.txid.toNat % 65536 ::
      i.previousOutput.vout.toNat :: i.sequence.toNat :: i.scriptSig.length ::
      i.scriptSig.map UInt8.toNat) ++
    tx.output.flatMap (fun o => o.value.sat :: o.scriptPubkey.length ::
      o.scriptPubkey.map UInt8.toNat)

def headerCode (h : BlockHeader) : List Nat :=
  [h.version.toNat, h.prevBlockhash.toNat % 65536, h.merkleRoot.toNat % 65536, h.time,
    h.bits.toNat, h.nonce.toNat]

def witnessBytes (block : Block) : Bytes :=
  block.txdata.flatMap fun tx => tx.input.flatMap fun i => i.witness.flatten

end Sample

def sample : Bitcoin where
  blockHash h := Sample.digest 256 (Sample.headerCode h)
  computeTxid tx := Sample.digest 256 (Sample.txCode tx)
  totalSigopCost _ := 0
  instructions s := Sample.parse s.length s
  instructionsMinimal s := Sample.parse s.length s
  readScriptint bytes := .ok (bytes.foldr (fun b acc => acc * 256 + b.toNat) 0)
  isPushOnly s := (Sample.parse s.length s).all fun i => i matches .ok (.pushBytes _)
  toRelativeLockTime n :=
    if n.toNat.testBit 31 then none
    else if n.toNat.testBit 22 then some (.time (n.toNat % 2 ^ 16))
    else some (.blocks (n.toNat % 2 ^ 16))
  isTimeLocked n := !n.toNat.testBit 31 && n.toNat.testBit 22
  checkWitnessCommitment block :=
    Sample.witnessBytes block = [] ||
      block.txdata.head?.any fun tx =>
        tx.output.any fun o => o.scriptPubkey = 0x6a :: Sample.witnessBytes block
  weight block := 4 * block.txdata.length
  hash160 := Sample.bytesDigest 160
  sha256 := Sample.bytesDigest 256
  sha512_256 := Sample.bytesDigest 256
  merkleNode a b := Sample.digest 256 [a.toNat % 65536, b.toNat % 65536]
  encodeTxOut o := Sample.littleEndian 8 o.value.sat ++ Sample.encodeBytes o.scriptPubkey
  encodeBytes := Sample.encodeBytes
  decodeBytes := Sample.decodeBytes

end Bitcoin

end Floresta
