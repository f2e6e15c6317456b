import Floresta.Consensus.Block
import Floresta.Lib.ByteFile
import Mathlib.Data.List.Sort
import Mathlib.Tactic.NormNum
import Mathlib.Tactic.Ring

/-!
# Header — work, targets and times

The header half of `consensus.rs` with the header and work extensions.  The arithmetic of compact
targets is rust-bitcoin's and stays a parameter; work is a 256-bit number.
-/

namespace Floresta

open Fallible ByteFile

/-- Targets and work of the `bitcoin` crate. -/
structure ProofOfWork where
  /-- `Target::from(CompactTarget)` -/
  target : UInt32 → Nat
  toCompactLossy : Nat → UInt32
  /-- `Header::work` -/
  work : UInt32 → Nat
  /-- `CompactTarget::from_next_work_required` -/
  fromNextWorkRequired : UInt32 → Nat → ChainParams → UInt32

namespace Consensus

variable (B : Bitcoin) (W : ProofOfWork)

/-! ## Proof of work -/

/-- `Header::validate_pow` against the header's own target. -/
def validatePow (header : BlockHeader) : Option BlockHash :=
  let hash := B.blockHash header
  if hash.toNat ≤ W.target header.bits then some hash else none

def calcNextWorkRequired (params : ChainParams) (lastBlock firstBlock : BlockHeader) : Nat :=
  let actualTimespan := lastBlock.time - firstBlock.time
  let bits := if params.enforceBip94 then firstBlock.bits else lastBlock.bits
  W.target (W.fromNextWorkRequired bits actualTimespan params)

/-- The least version of a header once BIP34, BIP66 and BIP65 are active, each at its own height. -/
def minHeaderVersion (params : Params) (height : Nat) : Int :=
  (([(params.bip34Height, 2), (params.bip66Height, 3), (params.bip65Height, 4)].filter
    fun p => p.1 ≤ height).map Prod.snd).foldl max (-2 ^ 31)

/-- The subtraction is one of `u32`. -/
def checkBip94Time (block prevBlock : BlockHeader) : Except BlockchainError Unit :=
  require (¬ block.time < (prevBlock.time + (2 ^ 32 - 600)) % 2 ^ 32)
    (.blockValidation .bip94TimeWarp)

/-! ## Work -/

/-- The eight 32-bit words of a work, the least significant first. -/
def workWords (work : Nat) : List Nat :=
  (List.range 8).map fun i => work / 2 ^ (32 * i) % 2 ^ 32

/-- One word of the multiplication: the carry goes to the next word. -/
def multiplyWord (factor : Nat) (st : Nat × Nat) (p : Nat × Nat) : Nat × Nat :=
  let product := p.1 * factor + st.1
  (product / 2 ^ 32, st.2 + product % 2 ^ 32 * 2 ^ (32 * p.2))

/-- Multiplies a work by a `u32`, word by word; a carry out of the last word is an overflow. -/
def multiplyWorkByU32 (work factor : Nat) : Option Nat :=
  if factor = 0 then some 0
  else if factor = 1 then some work
  else
    let (carry, result) := (workWords work).zipIdx.foldl (multiplyWord factor) (0, 0)
    if 0 < carry then none else some result

def wordsProduct (work factor n : Nat) : Nat := work % 2 ^ (32 * n) * factor

theorem wordsProduct_succ (work factor n : Nat) :
    wordsProduct work factor (n + 1) = wordsProduct work factor n +
      2 ^ (32 * n) * (work / 2 ^ (32 * n) % 2 ^ 32 * factor) := by
  unfold wordsProduct
  rw [Nat.mul_succ, Nat.pow_add, Nat.mod_mul]
  ring

theorem wordsProduct_div (work factor n : Nat) :
    work / 2 ^ (32 * n) % 2 ^ 32 * factor + wordsProduct work factor n / 2 ^ (32 * n) =
      wordsProduct work factor (n + 1) / 2 ^ (32 * n) := by
  rw [wordsProduct_succ, Nat.add_mul_div_left _ _ (Nat.two_pow_pos _), Nat.add_comm]

/-- After `n` words, the carry and the result make up the product of the words that were read. -/
theorem multiplyWords (work factor n : Nat) :
    ((List.range n).map fun i => work / 2 ^ (32 * i) % 2 ^ 32).zipIdx.foldl
        (multiplyWord factor) (0, 0) =
      (wordsProduct work factor n / 2 ^ (32 * n), wordsProduct work factor n % 2 ^ (32 * n)) := by
  induction n with
  | zero => simp [wordsProduct, Nat.mod_one]
  | succ n ih =>
    have hmod : wordsProduct work factor (n + 1) % 2 ^ (32 * n) =
        wordsProduct work factor n % 2 ^ (32 * n) := by
      rw [wordsProduct_succ, Nat.add_mul_mod_self_left]
    rw [List.range_succ, List.map_append, List.zipIdx_append, List.foldl_append, ih]
    simp only [List.map_cons, List.map_nil, List.length_map, List.length_range, Nat.zero_add,
      List.zipIdx_cons, List.zipIdx_nil, List.foldl_cons, List.foldl_nil, multiplyWord]
    rw [wordsProduct_div, Nat.mul_succ, Nat.pow_add, Nat.div_div_eq_div_mul, Nat.mod_mul, hmod,
      Nat.mul_comm (_ % 2 ^ 32)]

/-- The multiplication is exact, and fails if the product has more than 256 bits. -/
theorem multiplyWorkByU32_eq {work : Nat} (hwork : work < 2 ^ 256) (factor : Nat) :
    multiplyWorkByU32 work factor =
      if work * factor < 2 ^ 256 then some (work * factor) else none := by
  unfold multiplyWorkByU32
  by_cases hzero : factor = 0
  · simp [hzero]
  by_cases hone : factor = 1
  · subst hone
    rw [if_neg hzero, if_pos rfl, Nat.mul_one, if_pos hwork]
  have hwords := multiplyWords work factor 8
  rw [← workWords, wordsProduct, Nat.mod_eq_of_lt hwork] at hwords
  rw [if_neg hzero, if_neg hone, hwords]
  dsimp only
  by_cases hfits : work * factor < 2 ^ 256
  · rw [Nat.div_eq_of_lt hfits, Nat.mod_eq_of_lt hfits, if_neg (Nat.lt_irrefl 0), if_pos hfits]
  · rw [if_pos (Nat.div_pos (Nat.le_of_not_lt hfits) (by decide)), if_neg hfits]

/-- One word of the multiplication on bytes: it is read in little endian, and the low half of its
product is written in big endian.  `none` where an operation on `u64` overflows. -/
def multiplyChunk (workBytes : List UInt8) (factor : Nat) (st : Nat × List UInt8)
    (wordIndex : Nat) : Option (Nat × List UInt8) := do
  let word := ofLeBytes ((workBytes.drop (4 * wordIndex)).take 4)
  let product ← fits 64 ((← fits 64 (word * factor)) + st.1)
  let byteIndex := 8 - wordIndex
  pure (product / 2 ^ 32, writeAt st.2 ((byteIndex - 1) * 4) (ByteFile.leBytes 4 product).reverse)

def multiplyBytes (work factor : Nat) : Option (Option Nat) :=
  if factor = 0 then some (some 0)
  else if factor = 1 then some (some work)
  else do
    let (carry, result) ← (List.range 8).foldlM (multiplyChunk (ByteFile.leBytes 32 work) factor)
      (0, List.replicate 32 0)
    pure (if 0 < carry then none else some (ofLeBytes result.reverse))

theorem pow_bytes (n : Nat) : 256 ^ (4 * n) = 2 ^ (32 * n) := by
  rw [show (256 : Nat) = 2 ^ 8 from rfl, ← Nat.pow_mul, ← Nat.mul_assoc]

theorem multiplyChunk_eq {work factor n : Nat} (hfactor : factor < 2 ^ 32) (hn : n < 8)
    {result : List UInt8} :
    multiplyChunk (ByteFile.leBytes 32 work) factor (wordsProduct work factor n / 2 ^ (32 * n),
        List.replicate (4 * (8 - n)) 0 ++ result) n =
      some (wordsProduct work factor (n + 1) / 2 ^ (32 * (n + 1)),
        List.replicate (4 * (8 - (n + 1))) 0 ++
          ((ByteFile.leBytes 4 (wordsProduct work factor (n + 1) / 2 ^ (32 * n))).reverse ++
            result)) := by
  have hword : ofLeBytes (((ByteFile.leBytes 32 work).drop (4 * n)).take 4) =
      work / 2 ^ (32 * n) % 2 ^ 32 := by
    obtain ⟨rest, hrest⟩ : ∃ rest, 32 = 4 * n + (4 + rest) := ⟨28 - 4 * n, by omega⟩
    rw [congrArg (ByteFile.leBytes · work) hrest, leBytes_add, leBytes_add,
      List.drop_left' (length_leBytes _ _), List.take_left' (length_leBytes _ _),
      ofLeBytes_leBytes, pow_bytes]
    rfl
  have hcarry : wordsProduct work factor n / 2 ^ (32 * n) < 2 ^ 32 :=
    Nat.div_lt_of_lt_mul (Nat.mul_lt_mul'' (Nat.mod_lt _ (Nat.two_pow_pos _)) hfactor)
  have hle : work / 2 ^ (32 * n) % 2 ^ 32 * factor ≤ (2 ^ 32 - 1) * (2 ^ 32 - 1) :=
    Nat.mul_le_mul (Nat.le_sub_one_of_lt (Nat.mod_lt _ (by decide)))
      (Nat.le_sub_one_of_lt hfactor)
  have hzeros : List.replicate (4 * (8 - n)) (0 : UInt8) =
      List.replicate (4 * (8 - (n + 1))) 0 ++ List.replicate 4 0 := by
    rw [← List.replicate_add]
    congr 1
    omega
  have hplace : (List.replicate (4 * (8 - (n + 1))) (0 : UInt8)).length = (8 - n - 1) * 4 := by
    rw [List.length_replicate]
    omega
  unfold multiplyChunk
  dsimp only
  rw [hword, fits_eq (hle.trans_lt (by norm_num)), Option.bind_eq_bind, Option.bind_some,
    fits_eq (by omega), Option.bind_some, wordsProduct_div, Nat.div_div_eq_div_mul,
    ← Nat.pow_add, ← Nat.mul_succ, hzeros, List.append_assoc, writeAt_append hplace]
  · rfl
  · rw [List.length_reverse, length_leBytes, List.length_replicate]

theorem multiplyChunks (work : Nat) {factor n : Nat} (hfactor : factor < 2 ^ 32) (hn : n ≤ 8) :
    (List.range n).foldlM (multiplyChunk (ByteFile.leBytes 32 work) factor)
        (0, List.replicate 32 0) =
      some (wordsProduct work factor n / 2 ^ (32 * n), List.replicate (4 * (8 - n)) 0 ++
        (ByteFile.leBytes (4 * n) (wordsProduct work factor n)).reverse) := by
  induction n with
  | zero => simp [wordsProduct, Nat.mod_one, ByteFile.leBytes]
  | succ n ih =>
    have hbytes : ByteFile.leBytes (4 * (n + 1)) (wordsProduct work factor (n + 1)) =
        ByteFile.leBytes (4 * n) (wordsProduct work factor n) ++
          ByteFile.leBytes 4 (wordsProduct work factor (n + 1) / 2 ^ (32 * n)) := by
      rw [Nat.mul_succ, leBytes_add, pow_bytes, wordsProduct_succ, ← pow_bytes, leBytes_add_mul]
    rw [List.range_succ, List.foldlM_append, ih (Nat.le_of_succ_le hn), Option.bind_eq_bind,
      Option.bind_some, List.foldlM_cons, multiplyChunk_eq hfactor hn, hbytes, List.reverse_append]
    rfl

/-- No operation on `u64` overflows, and the result is the product, or the overflow of a product of
more than 256 bits. -/
theorem multiplyBytes_exact {work factor : Nat} (hwork : work < 2 ^ 256)
    (hfactor : factor < 2 ^ 32) :
    multiplyBytes work factor = some (multiplyWorkByU32 work factor) ∧
      (work * factor < 2 ^ 256 → multiplyWorkByU32 work factor = some (work * factor)) ∧
      (multiplyWorkByU32 work factor = none ↔ 2 ^ 256 ≤ work * factor) := by
  have hexact := multiplyWorkByU32_eq hwork factor
  refine ⟨?_, fun hfits => by rw [hexact, if_pos hfits], by simp [hexact]⟩
  have hwords := multiplyWords work factor 8
  rw [← workWords] at hwords
  unfold multiplyBytes multiplyWorkByU32
  split_ifs with hzero hone
  · rfl
  · rfl
  · rw [multiplyChunks work hfactor le_rfl, hwords, Option.bind_eq_bind, Option.bind_some]
    dsimp only
    rw [Nat.sub_self, Nat.mul_zero, List.replicate_zero, List.nil_append, List.reverse_reverse,
      ofLeBytes_leBytes, pow_bytes]
    rfl

theorem multiplyBytes_exact_edge : multiplyBytes (2 ^ 255) 2 = some none := by
  rw [(multiplyBytes_exact (by decide) (by decide)).1,
    (multiplyBytes_exact (by decide) (by decide)).2.2.mpr (by decide)]

def addWork (a b : Nat) : Nat := (a + b) % 2 ^ 256

/-! ## Times -/

def MEDIAN_TIME_PAST_BLOCK_COUNT : Nat := 11

/-- The timestamps of a header and its ancestors, at most `n` of them. -/
def collectTimes {m : Type → Type} [Monad m] (previousHeader : BlockHeader → m BlockHeader) :
    Nat → BlockHeader → m (List Nat)
  | 0, _ => pure []
  | n + 1, header =>
    if n = 0 ∨ header.prevBlockhash = 0 then pure [header.time]
    else do
      let previous ← previousHeader header
      let times ← collectTimes previousHeader n previous
      pure (header.time :: times)

def medianTimePastWith {m : Type → Type} [Monad m] (previousHeader : BlockHeader → m BlockHeader)
    (header : BlockHeader) : m Nat := do
  let times ← collectTimes previousHeader MEDIAN_TIME_PAST_BLOCK_COUNT header
  pure ((times.insertionSort (· ≤ ·)).getD (times.length / 2) 0)

end Consensus

end Floresta
