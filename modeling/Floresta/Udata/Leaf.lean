import Floresta.Consensus.Transactions

/-!
# Leaf — the leaves of the Utreexo accumulator

A leaf commits to an output together with its outpoint, its height, its coinbase flag and the hash
of the block that created it.  A peer sends it in compact form: the block hash is looked up by
height, the outpoint is the one the input names, and a standard scriptPubKey is rebuilt from what
the input reveals.
-/

namespace Floresta

/-! ## Byte strings -/

def leBytes (n : UInt32) : Bytes :=
  [n.toUInt8, (n >>> 8).toUInt8, (n >>> 16).toUInt8, (n >>> 24).toUInt8]

def hashBytes {w : Nat} (len : Nat) (h : BitVec w) : Bytes :=
  (List.range len).map fun i => UInt8.ofNat (h.toNat / 256 ^ i)

theorem hashBytes_length {w : Nat} (len : Nat) (h : BitVec w) : (hashBytes len h).length = len := by
  simp [hashBytes]

theorem eq_of_bytes (len : Nat) : ∀ {n m : Nat}, n < 256 ^ len → m < 256 ^ len →
    (∀ i < len, n / 256 ^ i % 256 = m / 256 ^ i % 256) → n = m := by
  induction len with
  | zero =>
    intro n m hn hm _
    rw [Nat.pow_zero] at hn hm
    omega
  | succ len ih =>
    intro n m hn hm h
    have hlow : n % 256 = m % 256 := by simpa using h 0 (by omega)
    have hhigh : n / 256 = m / 256 := by
      apply ih
      · rw [Nat.pow_succ] at hn
        exact Nat.div_lt_of_lt_mul (by omega)
      · rw [Nat.pow_succ] at hm
        exact Nat.div_lt_of_lt_mul (by omega)
      · intro i hi
        have hnext := h (i + 1) (by omega)
        rw [Nat.pow_succ', ← Nat.div_div_eq_div_mul, ← Nat.div_div_eq_div_mul] at hnext
        exact hnext
    omega

theorem hashBytes_injective {w len : Nat} (hw : 2 ^ w ≤ 256 ^ len) {h h' : BitVec w}
    (heq : hashBytes len h = hashBytes len h') : h = h' := by
  apply BitVec.eq_of_toNat_eq
  refine eq_of_bytes len (h.isLt.trans_le hw) (h'.isLt.trans_le hw) ?_
  intro i hi
  have hbyte := congrArg (fun bytes : Bytes => bytes[i]?.map UInt8.toNat) heq
  simpa [hashBytes, hi] using hbyte

theorem leBytes_injective {n m : UInt32} (h : leBytes n = leBytes m) : n = m := by
  simp only [leBytes, List.cons.injEq, and_true] at h
  rcases h with ⟨h0, h1, h2, h3⟩
  have e0 := congrArg UInt8.toNat h0
  have e1 := congrArg UInt8.toNat h1
  have e2 := congrArg UInt8.toNat h2
  have e3 := congrArg UInt8.toNat h3
  simp [Nat.shiftRight_eq_div_pow] at e0 e1 e2 e3
  apply UInt32.toNat_inj.mp
  have := n.toNat_lt
  have := m.toNat_lt
  omega

/-! ## Leaf hashes -/

structure LeafData where
  blockHash : BlockHash
  prevout : OutPoint
  headerCode : UInt32
  utxo : TxOut
  deriving DecidableEq, Repr

namespace Udata

def UTREEXO_TAG_V1 : Bytes := [
  0x5b, 0x83, 0x2d, 0xb8, 0xca, 0x26, 0xc2, 0x5b, 0xe1, 0xc5, 0x42, 0xd6, 0xcc, 0xed, 0xdd, 0xa8,
  0xc1, 0x45, 0x61, 0x5c, 0xff, 0x5c, 0x35, 0x72, 0x7f, 0xb3, 0x46, 0x26, 0x10, 0x80, 0x7e, 0x20,
  0xae, 0x53, 0x4d, 0xc3, 0xf6, 0x42, 0x99, 0x19, 0x99, 0x31, 0x77, 0x2e, 0x03, 0x78, 0x7d, 0x18,
  0x15, 0x6e, 0xb3, 0x15, 0x1e, 0x0e, 0xd1, 0xb3, 0x09, 0x8b, 0xdc, 0x84, 0x45, 0x86, 0x18, 0x85]

def GENESIS_HEIGHT : Nat := 0

variable (B : Bitcoin)

/-- `LeafData::_get_leaf_hashes`: the hash of a leaf that is deleted. -/
def leafDataHash (leaf : LeafData) : Hash256 :=
  let serUtxo := B.encodeTxOut leaf.utxo
  B.sha512_256 (UTREEXO_TAG_V1 ++ UTREEXO_TAG_V1 ++ hashBytes 32 leaf.blockHash ++
    hashBytes 32 leaf.prevout.txid ++ leBytes leaf.prevout.vout ++ leBytes leaf.headerCode ++
    serUtxo)

/-- The block height in the upper 31 bits, the coinbase flag in the lowest. -/
def headerCode (height : Nat) (isCoinbase : Bool) : UInt32 :=
  if isCoinbase then UInt32.ofNat height <<< 1 ||| 1 else UInt32.ofNat height <<< 1

/-- `get_leaf_hashes`: the hash of a leaf that is added. -/
def getLeafHashes (txid : Txid) (isCoinbase : Bool) (vout : UInt32) (utxo : TxOut) (height : Nat)
    (blockHash : BlockHash) : Hash256 :=
  let serUtxo := B.encodeTxOut utxo
  B.sha512_256 (UTREEXO_TAG_V1 ++ UTREEXO_TAG_V1 ++ hashBytes 32 blockHash ++
    hashBytes 32 txid ++ leBytes vout ++ leBytes (headerCode height isCoinbase) ++ serUtxo)

theorem getLeafHashes_eq (txid : Txid) (isCoinbase : Bool) (vout : UInt32) (utxo : TxOut)
    (height : Nat) (blockHash : BlockHash) :
    getLeafHashes B txid isCoinbase vout utxo height blockHash =
      leafDataHash B ⟨blockHash, ⟨txid, vout⟩, headerCode height isCoinbase, utxo⟩ :=
  rfl

theorem headerCode_toNat {height : Nat} (h : height < 2 ^ 31) (isCoinbase : Bool) :
    (headerCode height isCoinbase).toNat = 2 * height + isCoinbase.toNat := by
  cases isCoinbase with
  | false =>
    simp [headerCode, Nat.shiftLeft_eq]
    omega
  | true =>
    have hor : (height * 2 % 4294967296) ||| 1 = 2 * height + 1 := by
      have heven : height * 2 % 4294967296 = 2 ^ 1 * height := by omega
      have hadd := Nat.two_pow_add_eq_or_of_lt (i := 1) (b := 1) (by decide) height
      simpa [heven] using hadd.symm
    simpa [headerCode, Nat.shiftLeft_eq] using hor

theorem flag_eq (code : UInt32) : (code &&& 1 != 0) = decide (code.toNat % 2 = 1) := by
  have hand : (code &&& 1).toNat = code.toNat % 2 := by
    simp [Nat.and_one_is_mod]
  by_cases h : code.toNat % 2 = 1
  · have hne : code &&& 1 ≠ 0 := by
      intro h0
      simp [h0, h] at hand
    simp [h, hne]
  · have h0 : code &&& 1 = 0 := by
      apply UInt32.toNat_inj.mp
      simpa [hand] using h
    simp [h, h0]

theorem height_eq (code : UInt32) : (code >>> 1).toNat = code.toNat / 2 := by
  simp [Nat.shiftRight_eq_div_pow]

theorem height_lt (code : UInt32) : (code >>> 1).toNat < 2 ^ 31 := by
  have hlt : code.toNat < 2 ^ 32 := code.toNat_lt
  have hheight := height_eq code
  omega

theorem headerCode_split (code : UInt32) :
    headerCode (code >>> 1).toNat (code &&& 1 != 0) = code := by
  have hcode := headerCode_toNat (height_lt code) (code &&& 1 != 0)
  apply UInt32.toNat_inj.mp
  rw [hcode, height_eq, flag_eq]
  rcases Nat.mod_two_eq_zero_or_one code.toNat with h | h <;> simp [h] <;> omega

/-! ## Script kinds -/

def getScriptType (script : Script) : ScriptPubKeyKind :=
  if Script.isP2pkh script then .pubKeyHash
  else if Script.isP2sh script then .scriptHash
  else if Script.isP2wpkh script then .witnessV0PubKeyHash
  else if Script.isP2wsh script then .witnessV0ScriptHash
  else .other script

def newP2pkh (h : BitVec 160) : Script := [0x76, 0xa9, 0x14] ++ hashBytes 20 h ++ [0x88, 0xac]
def newP2sh (h : BitVec 160) : Script := [0xa9, 0x14] ++ hashBytes 20 h ++ [0x87]
def newP2wpkh (h : BitVec 160) : Script := [0x00, 0x14] ++ hashBytes 20 h
def newP2wsh (h : Hash256) : Script := [0x00, 0x20] ++ hashBytes 32 h

/-- The last push of a scriptSig, which `get_pk_hash` and `get_script_hash` hash. -/
def lastPush (input : TxIn) : Except LeafErrorKind Bytes :=
  match (B.instructions input.scriptSig).getLast? with
  | none => .error .emptyStack
  | some (.ok (.pushBytes b)) => .ok b
  | some (.ok _) => .error .notPushBytes
  | some (.error e) => .error (.invalidInstruction e)

/-- The last witness element, which the two witness helpers hash. -/
def lastWitness (input : TxIn) : Except LeafErrorKind Bytes :=
  match input.witness.getLast? with
  | some b => .ok b
  | none => .error .emptyStack

def getPkHash (input : TxIn) : Except LeafErrorKind (BitVec 160) := B.hash160 <$> lastPush B input
def getScriptHash (input : TxIn) : Except LeafErrorKind (BitVec 160) :=
  B.hash160 <$> lastPush B input
def getWitnessPkHash (input : TxIn) : Except LeafErrorKind (BitVec 160) :=
  B.hash160 <$> lastWitness input
def getWitnessScriptHash (input : TxIn) : Except LeafErrorKind Hash256 :=
  B.sha256 <$> lastWitness input

def reconstructScriptPubkey (leaf : CompactLeafData) (input : TxIn) : Except LeafErrorKind Script :=
  match leaf.spkTy with
  | .other spk => .ok spk
  | .pubKeyHash => newP2pkh <$> getPkHash B input
  | .witnessV0PubKeyHash => newP2wpkh <$> getWitnessPkHash B input
  | .scriptHash => newP2sh <$> getScriptHash B input
  | .witnessV0ScriptHash => newP2wsh <$> getWitnessScriptHash B input

def reconstructLeafData (leaf : CompactLeafData) (input : TxIn) (blockHash : BlockHash) :
    Except LeafErrorKind LeafData := do
  let spk ← reconstructScriptPubkey B leaf input
  pure ⟨blockHash, input.previousOutput, leaf.headerCode,
    ⟨Amount.fromSat leaf.amount.toNat, spk⟩⟩

/-! ## The wire format of script kinds -/

def encodeKind : ScriptPubKeyKind → Bytes
  | .other script => 0x00 :: B.encodeBytes script
  | .pubKeyHash => [0x01]
  | .witnessV0PubKeyHash => [0x02]
  | .scriptHash => [0x03]
  | .witnessV0ScriptHash => [0x04]

/-- Reads a kind from the front of the input, and returns what is left of it. -/
def decodeKind : Bytes → Except String (ScriptPubKeyKind × Bytes)
  | [] => .error "unexpected end of file"
  | ty :: rest =>
    if ty = 0x00 then do
      let (script, rest) ← B.decodeBytes rest
      pure (.other script, rest)
    else if ty = 0x01 then .ok (.pubKeyHash, rest)
    else if ty = 0x02 then .ok (.witnessV0PubKeyHash, rest)
    else if ty = 0x03 then .ok (.scriptHash, rest)
    else if ty = 0x04 then .ok (.witnessV0ScriptHash, rest)
    else .error "Invalid script type"

end Udata

end Floresta
