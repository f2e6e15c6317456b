import Floresta.Lib.Ledger
import Floresta.Lib.Ranked
import Floresta.Mempool.Mempool

/-!
# Dependencies — what the pool keeps true of its records

A call of `accept_to_mempool` leaves the pool alone or adds one entry, whose parents learn of it; a
round of `consume_block` removes one entry, which its children forget.  Over any sequence of such
steps the recorded size is the size of what is held, dependencies name held parents that know their
children, and they follow the order of admission.  That order bounds the recursion of
`get_block_template`.
-/

namespace Floresta.Mempool

open Fallible Ledger

variable {C : Context}
variable {pool : Mempool} {tx : Transaction} {k : ShortTxid} {e removed : MempoolTransaction}

/-! ## What a call of `accept_to_mempool` does -/

def withChild (child : ShortTxid) (tx : MempoolTransaction) : MempoolTransaction :=
  { tx with children := tx.children ++ [child] }

def admitted (C : Context) (pool : Mempool) (tx : Transaction) : Mempool :=
  { pool with
    transactions :=
      ((findMempoolDepends C pool tx).foldl (adjust (withChild (C.shortTxid tx)))
        pool.transactions).insert (C.shortTxid tx) ⟨tx, findMempoolDepends C pool tx, []⟩
    mempoolSize := pool.mempoolSize + C.totalSize tx }

/-- The transaction is not held, and passes the checks that do not look at the held
transactions. -/
structure Admissible (C : Context) (pool : Mempool) (tx : Transaction) : Prop where
  new : C.shortTxid tx ∉ pool.transactions
  fits : pool.mempoolSize + C.totalSize tx ≤ pool.maxMempoolSize
  valid : ∃ value, Consensus.checkTransactionContextFree C.bitcoin tx = .ok value
  distinct : (tx.input.map TxIn.previousOutput).toFinset.card = tx.input.length

def Unspent (C : Context) (pool : Mempool) (tx : Transaction) : Prop :=
  ∀ input ∈ tx.input, isAlreadySpent C pool input.previousOutput = false

theorem mem_findMempoolDepends {d : ShortTxid} :
    d ∈ findMempoolDepends C pool tx ↔
      d ∈ pool.transactions ∧ ∃ input ∈ tx.input, C.hashOne input.previousOutput.txid = d := by
  unfold findMempoolDepends
  rw [List.mem_filterMap]
  constructor
  · rintro ⟨input, hinput, hd⟩
    rcases Option.map_eq_some_iff.mp hd with ⟨entry, hentry, rfl⟩
    exact ⟨Finmap.mem_of_lookup_eq_some hentry, input, hinput, rfl⟩
  · rintro ⟨hheld, input, hinput, rfl⟩
    rcases Finmap.mem_iff.mp hheld with ⟨entry, hentry⟩
    exact ⟨input, hinput, Option.map_eq_some_iff.mpr ⟨entry, hentry, rfl⟩⟩

theorem forM_pushChild (child : ShortTxid) (depends : List ShortTxid) (pool : Mempool)
    (h : ∀ d ∈ depends, d ∈ pool.transactions) :
    depends.forM (pushChild child) pool = (.ok (),
      { pool with transactions := depends.foldl (adjust (withChild child)) pool.transactions }) := by
  induction depends generalizing pool with
  | nil => rfl
  | cons d depends ih =>
    rcases Finmap.mem_iff.mp (h d List.mem_cons_self) with ⟨entry, hentry⟩
    have hpush : pushChild child d pool = (.ok (),
        { pool with transactions := adjust (withChild child) pool.transactions d }) := by
      unfold pushChild adjust
      rw [hentry]
      rfl
    have hrest := ih { pool with transactions := adjust (withChild child) pool.transactions d }
      fun d' hd' => mem_adjust.mpr (h d' (List.mem_cons_of_mem _ hd'))
    change (pushChild child d >>= fun _ => depends.forM (pushChild child)) pool = _
    rw [Prog.bind_apply, hpush]
    exact hrest

theorem checkForConflicts_eq_ok :
    checkForConflicts C pool tx = .ok () ↔
      (tx.input.map TxIn.previousOutput).toFinset.card = tx.input.length ∧
        Unspent C pool tx := by
  unfold checkForConflicts Unspent
  simp only [bind_eq_ok, require_eq_ok, exists_and_left, foldlM_require]
  simp

theorem acceptToMempool_admits (h : Admissible C pool tx) (hunspent : Unspent C pool tx) :
    acceptToMempool C tx pool = (.ok (), admitted C pool tx) := by
  rcases h.valid with ⟨value, hvalid⟩
  have hconflicts := checkForConflicts_eq_ok.mpr ⟨h.distinct, hunspent⟩
  have hpush := forM_pushChild (C.shortTxid tx) (findMempoolDepends C pool tx) pool
    fun d hd => (mem_findMempoolDepends.mp hd).1
  have hnew : decide (C.shortTxid tx ∈ pool.transactions) = false := by simpa using h.new
  have hfits : (require (pool.mempoolSize + C.totalSize tx ≤ pool.maxMempoolSize)
      (Fault.error .fullMempool)) = .ok () := require_eq_ok.mpr h.fits
  unfold acceptToMempool
  simp only [Prog.bind_apply, Prog.read, Prog.lift, Prog.modify, hnew, hfits, hvalid, hconflicts,
    Except.mapError, hpush, Bool.false_eq_true, if_false, id]
  rfl

/-- Every other transaction leaves the pool as it was, and the call does not panic. -/
theorem acceptToMempool_refuses (h : ¬ (Admissible C pool tx ∧ Unspent C pool tx)) :
    (acceptToMempool C tx pool).2 = pool ∧
      ∀ fault, (acceptToMempool C tx pool).1 = .error fault → ∃ e, fault = .error e := by
  unfold acceptToMempool
  by_cases hnew : C.shortTxid tx ∈ pool.transactions
  · simp only [Prog.bind_apply, Prog.read, hnew, decide_true, if_true]
    exact ⟨rfl, fun fault hfault => by cases hfault⟩
  · simp only [Prog.bind_apply, Prog.read, Prog.lift, hnew, decide_false, Bool.false_eq_true,
      if_false, id]
    by_cases hfits : pool.mempoolSize + C.totalSize tx ≤ pool.maxMempoolSize
    · simp only [require, hfits, if_true]
      cases hvalid : Consensus.checkTransactionContextFree C.bitcoin tx with
      | error e =>
        refine ⟨rfl, fun fault hfault => ?_⟩
        cases hfault
        exact ⟨_, rfl⟩
      | ok value =>
        simp only [Except.mapError]
        cases hconflicts : checkForConflicts C pool tx with
        | error e =>
          refine ⟨rfl, fun fault hfault => ?_⟩
          cases hfault
          exact ⟨_, rfl⟩
        | ok u =>
          rcases checkForConflicts_eq_ok.mp hconflicts with ⟨hdistinct, hunspent⟩
          exact absurd ⟨⟨hnew, hfits, ⟨value, hvalid⟩, hdistinct⟩, hunspent⟩ h
    · have hfull : require (pool.mempoolSize + C.totalSize tx ≤ pool.maxMempoolSize)
          (Fault.error .fullMempool) = .error (.error .fullMempool) :=
        require_eq_error.mpr ⟨hfits, rfl⟩
      rw [hfull]
      refine ⟨rfl, fun fault hfault => ?_⟩
      cases hfault
      exact ⟨_, rfl⟩

/-! ## The entries after a step -/

theorem withChild_iterate (child : ShortTxid) (n : Nat) (tx : MempoolTransaction) :
    (withChild child)^[n] tx = { tx with children := tx.children ++ List.replicate n child } := by
  induction n generalizing tx with
  | zero => simp
  | succ n ih =>
    rw [Function.iterate_succ_apply, ih]
    simp [withChild, List.replicate_succ]

theorem lookup_admitted_self (pool : Mempool) (tx : Transaction) :
    (admitted C pool tx).transactions.lookup (C.shortTxid tx) =
      some ⟨tx, findMempoolDepends C pool tx, []⟩ :=
  Finmap.lookup_insert _

/-- What an admission changes about the entries it finds: the children of the parents. -/
theorem lookup_admitted_of_ne (hk : k ≠ C.shortTxid tx) :
    (admitted C pool tx).transactions.lookup k = (pool.transactions.lookup k).map fun e =>
      { e with children := e.children ++
          List.replicate ((findMempoolDepends C pool tx).count k) (C.shortTxid tx) } := by
  have hlookup : (admitted C pool tx).transactions.lookup k =
      ((findMempoolDepends C pool tx).foldl (adjust (withChild (C.shortTxid tx)))
        pool.transactions).lookup k := Finmap.lookup_insert_of_ne _ hk
  rw [hlookup, lookup_foldl_adjust]
  congr 1
  funext e
  exact withChild_iterate _ _ e

theorem forget_iterate (id : ShortTxid) {n : Nat} (hn : n ≠ 0) (tx : MempoolTransaction) :
    (forget id)^[n] tx = forget id tx := by
  induction n with
  | zero => exact absurd rfl hn
  | succ n ih =>
    rw [Function.iterate_succ_apply']
    by_cases hzero : n = 0
    · subst hzero
      rfl
    · rw [ih hzero]
      simp [forget]

theorem consumeTransaction_none (h : pool.transactions.lookup (C.shortTxid tx) = none) :
    consumeTransaction C pool tx = pool := by
  simp only [consumeTransaction, h]

theorem consumeTransaction_some (h : pool.transactions.lookup (C.shortTxid tx) = some removed) :
    consumeTransaction C pool tx = { pool with
      mempoolSize := pool.mempoolSize - C.totalSize removed.transaction
      transactions := removed.children.foldl (adjust (forget (C.shortTxid tx)))
        (pool.transactions.erase (C.shortTxid tx)) } := by
  simp only [consumeTransaction, h]
  congr 1
  refine List.foldl_ext _ _ _ fun M child _ => ?_
  unfold adjust
  cases M.lookup child with
  | none => rfl
  | some childTx => rfl

theorem lookup_consumeTransaction
    (h : pool.transactions.lookup (C.shortTxid tx) = some removed) (k : ShortTxid) :
    (consumeTransaction C pool tx).transactions.lookup k =
      if k = C.shortTxid tx then none
      else (pool.transactions.lookup k).map fun e =>
        if k ∈ removed.children then forget (C.shortTxid tx) e else e := by
  rw [consumeTransaction_some h, lookup_foldl_adjust, lookup_erase_eq]
  split
  · rfl
  · congr 1
    funext e
    split
    · next hmem => exact forget_iterate _ (List.count_pos_iff.mpr hmem).ne' e
    · next hmem => rw [List.count_eq_zero.mpr hmem, Function.iterate_zero, id]

/-! ## The invariant -/

/-- The transaction held under `k` lists `d` among its dependencies. -/
def DependsOn (pool : Mempool) (k d : ShortTxid) : Prop :=
  ∃ e, pool.transactions.lookup k = some e ∧ d ∈ e.depends

/-- What holds of a pool that was given the transactions `submitted`. -/
structure Inv (C : Context) (submitted : List Transaction) (pool : Mempool) : Prop where
  keyed : ∀ {k e}, pool.transactions.lookup k = some e → k = C.shortTxid e.transaction
  known : ∀ {k e}, pool.transactions.lookup k = some e → e.transaction ∈ submitted
  size : pool.mempoolSize = total (fun e => C.totalSize e.transaction) pool.transactions
  bounded : pool.mempoolSize ≤ pool.maxMempoolSize
  named : ∀ {k e d}, pool.transactions.lookup k = some e → d ∈ e.depends →
    d ∈ pool.transactions ∧
      ∃ input ∈ e.transaction.input, C.hashOne input.previousOutput.txid = d
  listed : ∀ {k e d p}, pool.transactions.lookup k = some e → d ∈ e.depends →
    pool.transactions.lookup d = some p → k ∈ p.children
  /-- a parent that lists a held child has been there since the child was admitted -/
  answered : ∀ {k e d p}, pool.transactions.lookup k = some e →
    pool.transactions.lookup d = some p → k ∈ p.children →
    ∀ input ∈ e.transaction.input, C.hashOne input.previousOutput.txid = d → d ∈ e.depends
  ranked : ∃ rank, Ranked.Lowers rank (DependsOn pool)

variable {submitted : List Transaction} {pool : Mempool}

theorem Inv.new (max : Nat) : Inv C [] (Mempool.new max) where
  keyed h := by cases h
  known h := by cases h
  size := rfl
  bounded := Nat.zero_le _
  named h := by cases h
  listed h := by cases h
  answered h := by cases h
  ranked := ⟨fun _ => 0, fun _ _ h => by
    rcases h with ⟨e, he, -⟩
    cases he⟩

theorem Inv.submit (h : Inv C submitted pool) (tx : Transaction) :
    Inv C (submitted ++ [tx]) pool :=
  { h with known := fun hk => List.mem_append_left _ (h.known hk) }

/-- An entry of the pool after an admission is the new one, or an old one with more children. -/
theorem admitted_cases (h : (admitted C pool tx).transactions.lookup k = some e) :
    (k = C.shortTxid tx ∧ e = ⟨tx, findMempoolDepends C pool tx, []⟩) ∨
      (k ≠ C.shortTxid tx ∧ ∃ e0, pool.transactions.lookup k = some e0 ∧
        e = { e0 with children := e0.children ++
          List.replicate ((findMempoolDepends C pool tx).count k) (C.shortTxid tx) }) := by
  by_cases hk : k = C.shortTxid tx
  · subst hk
    rw [lookup_admitted_self] at h
    exact .inl ⟨rfl, (Option.some.inj h).symm⟩
  · rw [lookup_admitted_of_ne hk] at h
    rcases Option.map_eq_some_iff.mp h with ⟨e0, he0, rfl⟩
    exact .inr ⟨hk, e0, he0, rfl⟩

theorem mem_admitted (h : k ∈ pool.transactions) :
    k ∈ (admitted C pool tx).transactions := by
  by_cases hk : k = C.shortTxid tx
  · subst hk
    exact Finmap.mem_of_lookup_eq_some (lookup_admitted_self pool tx)
  · rw [← Finmap.lookup_isSome, lookup_admitted_of_ne hk, Option.isSome_map, Finmap.lookup_isSome]
    exact h

theorem Inv.admitted_size (h : Inv C submitted pool) (hnew : C.shortTxid tx ∉ pool.transactions) :
    (admitted C pool tx).mempoolSize =
      total (fun e => C.totalSize e.transaction) (admitted C pool tx).transactions := by
  have hkeep : ∀ v, C.totalSize (withChild (C.shortTxid tx) v).transaction =
      C.totalSize v.transaction := fun _ => rfl
  have hnotMem : C.shortTxid tx ∉ (findMempoolDepends C pool tx).foldl
      (adjust (withChild (C.shortTxid tx))) pool.transactions := by
    rw [← Finmap.lookup_eq_none, lookup_foldl_adjust, Finmap.lookup_eq_none.mpr hnew]
    rfl
  calc (admitted C pool tx).mempoolSize
      = pool.mempoolSize + C.totalSize tx := rfl
    _ = C.totalSize tx + total (fun e => C.totalSize e.transaction) pool.transactions := by
        rw [h.size, Nat.add_comm]
    _ = total (fun e => C.totalSize e.transaction) (admitted C pool tx).transactions := by
        unfold admitted
        rw [total_insert_of_notMem _ hnotMem, total_foldl_adjust hkeep]

theorem Inv.admitted (h : Inv C submitted pool) (htx : Admissible C pool tx) :
    Inv C (submitted ++ [tx]) (admitted C pool tx) := by
  have hnone : pool.transactions.lookup (C.shortTxid tx) = none :=
    Finmap.lookup_eq_none.mpr htx.new
  -- no old entry names the new one
  have hold : ∀ {k e d}, pool.transactions.lookup k = some e → d ∈ e.depends →
      d ≠ C.shortTxid tx := by
    rintro k e d he hd rfl
    exact htx.new (h.named he hd).1
  refine ⟨?_, ?_, h.admitted_size htx.new, htx.fits, ?_, ?_, ?_, ?_⟩
  · intro k e hk
    rcases admitted_cases hk with ⟨rfl, rfl⟩ | ⟨-, e0, he0, rfl⟩
    · rfl
    · have hkey := h.keyed he0
      exact hkey
  · intro k e hk
    rcases admitted_cases hk with ⟨rfl, rfl⟩ | ⟨-, e0, he0, rfl⟩
    · exact List.mem_append_right _ (List.mem_singleton_self _)
    · have hknown := h.known he0
      exact List.mem_append_left _ hknown
  · intro k e d hk hd
    rcases admitted_cases hk with ⟨rfl, rfl⟩ | ⟨-, e0, he0, rfl⟩
    · rcases mem_findMempoolDepends.mp hd with ⟨hheld, hinput⟩
      exact ⟨mem_admitted hheld, hinput⟩
    · rcases h.named he0 hd with ⟨hheld, hinput⟩
      exact ⟨mem_admitted hheld, hinput⟩
  · intro k e d p hk hd hp
    rcases admitted_cases hk with ⟨rfl, rfl⟩ | ⟨-, e0, he0, rfl⟩
    · rcases admitted_cases hp with ⟨rfl, rfl⟩ | ⟨-, p0, hp0, rfl⟩
      · exact absurd (mem_findMempoolDepends.mp hd).1 htx.new
      · refine List.mem_append_right _ (List.mem_replicate.mpr ⟨?_, rfl⟩)
        exact (List.count_pos_iff.mpr hd).ne'
    · rcases admitted_cases hp with ⟨rfl, -⟩ | ⟨-, p0, hp0, rfl⟩
      · exact absurd rfl (hold he0 hd)
      · exact List.mem_append_left _ (h.listed he0 hd hp0)
  · intro k e d p hk hp hchild input hinput hid
    rcases admitted_cases hp with ⟨rfl, rfl⟩ | ⟨-, p0, hp0, rfl⟩
    · exact absurd hchild List.not_mem_nil
    · rcases admitted_cases hk with ⟨rfl, rfl⟩ | ⟨hne, e0, he0, rfl⟩
      · exact mem_findMempoolDepends.mpr
          ⟨Finmap.mem_of_lookup_eq_some hp0, input, hinput, hid⟩
      · rcases List.mem_append.mp hchild with hchild | hchild
        · have hdepends := h.answered he0 hp0 hchild input hinput hid
          exact hdepends
        · exact absurd (List.eq_of_mem_replicate hchild) hne
  · rcases h.ranked with ⟨rank, hrank⟩
    have hnew : C.shortTxid tx ∉ pool.transactions.keys := by
      rw [Finmap.mem_keys]
      exact htx.new
    refine ⟨_, hrank.push hnew ?_⟩
    · rintro k d ⟨e, hk, hd⟩
      rcases admitted_cases hk with ⟨rfl, rfl⟩ | ⟨-, e0, he0, rfl⟩
      · exact ⟨Finmap.mem_keys.mpr (mem_findMempoolDepends.mp hd).1, .inl rfl⟩
      · exact ⟨Finmap.mem_keys.mpr (h.named he0 hd).1,
          .inr ⟨Finmap.mem_keys.mpr (Finmap.mem_of_lookup_eq_some he0), e0, he0, hd⟩⟩

theorem consumed_cases (hremoved : pool.transactions.lookup (C.shortTxid tx) = some removed)
    (h : (consumeTransaction C pool tx).transactions.lookup k = some e) :
    k ≠ C.shortTxid tx ∧ ∃ e0, pool.transactions.lookup k = some e0 ∧
      e.transaction = e0.transaction ∧ e.children = e0.children ∧
      (∀ d, d ∈ e.depends → d ∈ e0.depends) ∧
      (∀ d, d ∈ e0.depends → d ≠ C.shortTxid tx → d ∈ e.depends) ∧
      (k ∈ removed.children → C.shortTxid tx ∉ e.depends) := by
  rw [lookup_consumeTransaction hremoved] at h
  split at h
  · cases h
  · next hne =>
      rcases Option.map_eq_some_iff.mp h with ⟨e0, he0, rfl⟩
      refine ⟨hne, e0, he0, ?_⟩
      split
      · refine ⟨rfl, rfl, fun d hd => List.mem_of_mem_filter hd, fun d hd hdne => ?_, fun _ hd => ?_⟩
        · exact List.mem_filter.mpr ⟨hd, by simpa using hdne⟩
        · simpa using (List.mem_filter.mp hd).2
      · next hmem =>
          exact ⟨rfl, rfl, fun _ hd => hd, fun _ hd _ => hd, fun hchild => absurd hchild hmem⟩

theorem Inv.consumeTransaction (h : Inv C submitted pool) (tx : Transaction) :
    Inv C submitted (consumeTransaction C pool tx) := by
  cases hremoved : pool.transactions.lookup (C.shortTxid tx) with
  | none =>
    rw [consumeTransaction_none hremoved]
    exact h
  | some removed =>
    have hcases {k e} := consumed_cases (k := k) (e := e) hremoved
    have hheld : ∀ {k}, k ∈ pool.transactions → k ≠ C.shortTxid tx →
        k ∈ (Mempool.consumeTransaction C pool tx).transactions := by
      intro k hk hne
      rw [← Finmap.lookup_isSome, lookup_consumeTransaction hremoved, if_neg hne,
        Option.isSome_map, Finmap.lookup_isSome]
      exact hk
    have hsize : (Mempool.consumeTransaction C pool tx).mempoolSize =
        pool.mempoolSize - C.totalSize removed.transaction := by
      rw [consumeTransaction_some hremoved]
    have hmax : (Mempool.consumeTransaction C pool tx).maxMempoolSize = pool.maxMempoolSize := by
      rw [consumeTransaction_some hremoved]
    refine ⟨?_, ?_, ?_, ?_, ?_, ?_, ?_, ?_⟩
    · intro k e hk
      rcases hcases hk with ⟨-, e0, he0, htx, -⟩
      rw [htx]
      exact h.keyed he0
    · intro k e hk
      rcases hcases hk with ⟨-, e0, he0, htx, -⟩
      rw [htx]
      exact h.known he0
    · -- the size of the removed transaction is part of the recorded one
      have hsplit := total_erase (fun e => C.totalSize e.transaction) hremoved
      have hforget : ∀ v, C.totalSize (forget (C.shortTxid tx) v).transaction =
          C.totalSize v.transaction := fun _ => rfl
      rw [hsize, consumeTransaction_some hremoved, total_foldl_adjust hforget, h.size, hsplit,
        Nat.add_sub_cancel_left]
    · rw [hsize, hmax]
      exact Nat.le_trans (Nat.sub_le _ _) h.bounded
    · intro k e d hk hd
      rcases hcases hk with ⟨-, e0, he0, htx, -, hless, -, hforgot⟩
      rcases h.named he0 (hless d hd) with ⟨hd0, hinput⟩
      refine ⟨hheld hd0 ?_, htx ▸ hinput⟩
      rintro rfl
      exact hforgot (h.listed he0 (hless _ hd) hremoved) hd
    · intro k e d p hk hd hp
      rcases hcases hk with ⟨-, e0, he0, -, -, hless, -, -⟩
      rcases hcases hp with ⟨-, p0, hp0, -, hchildren, -⟩
      rw [hchildren]
      exact h.listed he0 (hless d hd) hp0
    · intro k e d p hk hp hchild input hinput hid
      rcases hcases hk with ⟨-, e0, he0, htx, -, -, hkept, -⟩
      rcases hcases hp with ⟨hdne, p0, hp0, -, hchildren, -⟩
      rw [hchildren] at hchild
      exact hkept d (h.answered he0 hp0 hchild input (htx ▸ hinput) hid) hdne
    · rcases h.ranked with ⟨rank, hrank⟩
      refine ⟨rank, ?_⟩
      rintro k d ⟨e, hk, hd⟩
      rcases hcases hk with ⟨-, e0, he0, -, -, hless, -, -⟩
      exact hrank ⟨e0, he0, hless d hd⟩

/-! ## Runs -/

inductive Op
  | accept (tx : Transaction)
  | consume (block : Block)
  deriving DecidableEq, Repr

def step (C : Context) (pool : Mempool) : Op → Mempool
  | .accept tx => (acceptToMempool C tx pool).2
  | .consume block => (consumeBlock C block pool).2

def run (C : Context) (pool : Mempool) (ops : List Op) : Mempool := ops.foldl (step C) pool

def Op.submits : Op → List Transaction
  | .accept tx => [tx]
  | .consume _ => []

theorem Inv.accept (h : Inv C submitted pool) (tx : Transaction) :
    Inv C (submitted ++ [tx]) (acceptToMempool C tx pool).2 := by
  by_cases hadmit : Admissible C pool tx ∧ Unspent C pool tx
  · rw [acceptToMempool_admits hadmit.1 hadmit.2]
    exact h.admitted hadmit.1
  · rw [(acceptToMempool_refuses hadmit).1]
    exact h.submit tx

theorem Inv.consume (h : Inv C submitted pool) (txs : List Transaction) :
    Inv C submitted (txs.foldl (Mempool.consumeTransaction C) pool) := by
  induction txs generalizing pool with
  | nil => exact h
  | cons tx txs ih => exact ih (h.consumeTransaction tx)

theorem Inv.step (h : Inv C submitted pool) (op : Op) :
    Inv C (submitted ++ op.submits) (step C pool op) := by
  cases op with
  | accept tx => exact h.accept tx
  | consume block =>
    rw [Op.submits, List.append_nil]
    exact h.consume block.txdata

theorem Inv.run (h : Inv C submitted pool) (ops : List Op) :
    Inv C (submitted ++ ops.flatMap Op.submits) (run C pool ops) := by
  induction ops generalizing pool submitted with
  | nil => simpa [Mempool.run] using h
  | cons op ops ih =>
    rw [List.flatMap_cons, ← List.append_assoc]
    exact ih (h.step op)

/-! ## Block templates -/

/-- The entries a walk through the map hands out. -/
def values (pool : Mempool) : Multiset MempoolTransaction := pool.transactions.entries.map Sigma.snd

theorem mem_values :
    e ∈ values pool ↔ ∃ k, pool.transactions.lookup k = some e := by
  unfold values
  rw [Multiset.mem_map]
  constructor
  · rintro ⟨⟨k, e⟩, hmem, rfl⟩
    exact ⟨k, Finmap.lookup_eq_some_iff.mpr hmem⟩
  · rintro ⟨k, hk⟩
    exact ⟨⟨k, e⟩, Finmap.lookup_eq_some_iff.mp hk, rfl⟩

/-- A list of held transactions, each after those it depends on, none twice. -/
inductive Arranged (pool : Mempool) : List Transaction → Prop
  | nil : Arranged pool []
  | snoc {txs : List Transaction} {k : ShortTxid} {e : MempoolTransaction} (h : Arranged pool txs)
      (hk : pool.transactions.lookup k = some e) (hnew : e.transaction ∉ txs)
      (hdepends : ∀ d ∈ e.depends, ∀ p, pool.transactions.lookup d = some p → p.transaction ∈ txs) :
      Arranged pool (txs ++ [e.transaction])

/-- The recursion ends, as every call goes to a lower rank and every dependency is held.  It appends
the transaction, after those it depends on that were missing. -/
theorem Inv.addTransactionToBlock_ensures (h : Inv C submitted pool) {rank : ShortTxid → Nat}
    (hrank : Ranked.Lowers rank (DependsOn pool)) {fuel : Nat} {txs : List Transaction}
    (hk : pool.transactions.lookup k = some e) (hfuel : rank k < fuel) (htxs : Arranged pool txs) :
    Ensures (addTransactionToBlock pool fuel txs k) fun txs' => Arranged pool txs' ∧
      e.transaction ∈ txs' ∧ ∃ new, txs' = txs ++ new ∧
        ∀ tx ∈ new, Relation.ReflTransGen (DependsOn pool) k (C.shortTxid tx) := by
  induction fuel generalizing k e txs with
  | zero => exact absurd hfuel (Nat.not_lt_zero _)
  | succ fuel ih =>
    unfold addTransactionToBlock
    rw [hk]
    by_cases hmem : e.transaction ∈ txs
    · simp only [if_pos hmem]
      exact Ensures.ok ⟨htxs, hmem, [], by simp⟩
    simp only [if_neg hmem]
    refine Ensures.bind (Ensures.foldlM (I := fun done t => Arranged pool t ∧
      (∀ d ∈ done, ∀ p, pool.transactions.lookup d = some p → p.transaction ∈ t) ∧
      ∃ new, t = txs ++ new ∧ ∀ tx ∈ new, Relation.TransGen (DependsOn pool) k (C.shortTxid tx))
      e.depends ?_
      ⟨htxs, by simp, [], by simp⟩) ?_
    · rintro done d rest t hdepends ⟨ht, hdone, new, rfl, hnew⟩
      have hd : d ∈ e.depends := hdepends ▸ List.mem_append_right _ List.mem_cons_self
      have hlower := hrank ⟨e, hk, hd⟩
      rcases Finmap.mem_iff.mp (h.named hk hd).1 with ⟨p, hp⟩
      refine (ih hp (by omega) ht).mono ?_
      rintro t' ⟨ht', hpt, more, rfl, hmore⟩
      refine ⟨ht', fun d' hd' q hq => ?_, new ++ more, List.append_assoc .., fun tx htx => ?_⟩
      · rcases List.mem_append.mp hd' with hd' | hd'
        · exact List.mem_append_left _ (hdone d' hd' q hq)
        · rw [List.mem_singleton.mp hd', hp] at hq
          cases hq
          exact hpt
      · rcases List.mem_append.mp htx with htx | htx
        · exact hnew tx htx
        · exact .head' ⟨e, hk, hd⟩ (hmore tx htx)
    · rintro t ⟨ht, hdepends, new, rfl, hnew⟩
      refine Ensures.ok ⟨ht.snoc hk (fun hin => ?_) hdepends, List.mem_append_right _ (by simp),
        new ++ [e.transaction], List.append_assoc ..,
        forall_mem_snoc (fun tx htx => (hnew tx htx).to_reflTransGen) (h.keyed hk ▸ .refl)⟩
      rcases List.mem_append.mp hin with hin | hin
      · exact hmem hin
      · refine hrank.acyclic k ?_
        have hcycle := hnew _ hin
        rwa [← h.keyed hk] at hcycle

/-- What a template needs of the pool: any fuel that is enough for one of its entries. -/
theorem Inv.add_ensures (h : Inv C submitted pool) {fuel : Nat}
    (hfuel : pool.transactions.keys.card ≤ fuel) {txs : List Transaction}
    (hk : pool.transactions.lookup k = some e) (htxs : Arranged pool txs) :
    Ensures (addTransactionToBlock pool fuel txs (C.shortTxid e.transaction)) fun txs' =>
      Arranged pool txs' ∧ e.transaction ∈ txs' ∧ ∃ new, txs' = txs ++ new ∧
        ∀ tx ∈ new, Relation.ReflTransGen (DependsOn pool) k (C.shortTxid tx) := by
  rcases h.ranked with ⟨rank, hrank⟩
  have hposition := hrank.position (s := pool.transactions.keys) fun k d hkd => by
    rcases hkd with ⟨e, he, hd⟩
    exact Finmap.mem_keys.mpr (h.named he hd).1
  have hlt : Ranked.position pool.transactions.keys rank k < pool.transactions.keys.card :=
    Ranked.position_lt_card (Finmap.mem_keys.mpr (Finmap.mem_of_lookup_eq_some hk))
  rw [← h.keyed hk]
  exact h.addTransactionToBlock_ensures hposition hk (by omega) htxs

/-- Nothing a template asks for is missing, and the number of held transactions bounds the depth
of the recursion. -/
theorem Inv.selectTransactions_ensures (h : Inv C submitted pool)
    {entries : List MempoolTransaction}
    (hentries : ∀ e ∈ entries, ∃ k, pool.transactions.lookup k = some e) {fuel : Nat}
    (hfuel : pool.transactions.keys.card ≤ fuel) (max size : Nat) {txs : List Transaction}
    (htxs : Arranged pool txs) :
    Ensures (selectTransactions C pool fuel max entries size txs) fun txs' =>
      Arranged pool txs' ∧ ∃ new, txs' = txs ++ new := by
  induction entries generalizing size txs with
  | nil => exact Ensures.ok ⟨htxs, [], by simp⟩
  | cons e entries ih =>
    have hrest := ih fun e' he' => hentries e' (List.mem_cons_of_mem _ he')
    rcases hentries e List.mem_cons_self with ⟨k, hk⟩
    unfold selectTransactions
    simp only
    split
    · exact Ensures.ok ⟨htxs, [], by simp⟩
    · split
      · exact hrest size htxs
      · refine Ensures.bind (h.add_ensures hfuel hk htxs) ?_
        rintro txs' ⟨hadded, -, new, rfl, -⟩
        refine (hrest _ hadded).mono ?_
        rintro txs'' ⟨hall, more, rfl⟩
        exact ⟨hall, new ++ more, List.append_assoc ..⟩

theorem Inv.getBlockTemplate_ensures (h : Inv C submitted pool)
    {entries : List MempoolTransaction} (hentries : ↑entries = values pool) {fuel : Nat}
    (hfuel : pool.transactions.keys.card ≤ fuel) (t : Template) :
    Ensures (getBlockTemplate C pool entries fuel t) fun block => Arranged pool block.txdata := by
  have hheld : ∀ e ∈ entries, ∃ k, pool.transactions.lookup k = some e := by
    intro e he
    rw [← mem_values, ← hentries]
    exact he
  refine Ensures.bind (h.selectTransactions_ensures hheld hfuel t.maxBlockWeight 0 .nil) ?_
  exact fun txs htxs => Ensures.ok htxs.1

/-! ## What every run keeps true -/

/-- The representation of a pool is sound. -/
structure WellFormed (C : Context) (pool : Mempool) : Prop where
  size : pool.mempoolSize = total (fun e => C.totalSize e.transaction) pool.transactions
  bounded : pool.mempoolSize ≤ pool.maxMempoolSize
  named : ∀ {k e d}, pool.transactions.lookup k = some e → d ∈ e.depends →
    ∃ p, pool.transactions.lookup d = some p ∧ ∃ input ∈ e.transaction.input,
      input.previousOutput.txid = C.bitcoin.computeTxid p.transaction
  listed : ∀ {k e d p}, pool.transactions.lookup k = some e → d ∈ e.depends →
    pool.transactions.lookup d = some p → k ∈ p.children
  acyclic : ∀ k, ¬ Relation.TransGen (DependsOn pool) k k

/-- The txids a run of calls hands to the hasher to admit transactions. -/
def mentioned (C : Context) (ops : List Op) : List Txid :=
  (ops.flatMap Op.submits).flatMap fun tx =>
    C.bitcoin.computeTxid tx :: tx.input.map fun input => input.previousOutput.txid

/-- Different txids have different short ids. -/
def CollisionFree (C : Context) (ids : List Txid) : Prop :=
  ∀ a ∈ ids, ∀ b ∈ ids, C.hashOne a = C.hashOne b → a = b

theorem collisionFree_of_all {ids : List Txid}
    (h : (ids.all fun a => ids.all fun b => decide (C.hashOne a = C.hashOne b → a = b)) = true) :
    CollisionFree C ids := by
  intro a ha b hb heq
  have hb' := List.all_eq_true.mp (List.all_eq_true.mp h a ha) b hb
  exact of_decide_eq_true hb' heq

theorem mem_mentioned_txid {ops : List Op}
    (h : tx ∈ ops.flatMap Op.submits) : C.bitcoin.computeTxid tx ∈ mentioned C ops :=
  List.mem_flatMap.mpr ⟨tx, h, List.mem_cons_self⟩

theorem mem_mentioned_input {ops : List Op} {input : TxIn}
    (h : tx ∈ ops.flatMap Op.submits) (hinput : input ∈ tx.input) :
    input.previousOutput.txid ∈ mentioned C ops :=
  List.mem_flatMap.mpr ⟨tx, h, List.mem_cons_of_mem _ (List.mem_map_of_mem hinput)⟩

/-- After every sequence of calls the pool is well formed, the next admission does not panic, and a
block template comes out, whatever the order in which the map hands out its entries. -/
theorem run_wellFormed (max : Nat) (ops : List Op) (hfree : CollisionFree C (mentioned C ops)) :
    WellFormed C (run C (new max) ops) ∧
      (∀ tx, (acceptToMempool C tx (run C (new max) ops)).1 ≠ .error .unwrap) ∧
      ∀ (entries : List MempoolTransaction) fuel t, ↑entries = values (run C (new max) ops) →
        (run C (new max) ops).transactions.keys.card ≤ fuel →
        ∃ block, getBlockTemplate C (run C (new max) ops) entries fuel t = .ok block := by
  have h := (Inv.new (C := C) max).run ops
  rw [List.nil_append] at h
  refine ⟨⟨h.size, h.bounded, ?_, h.listed, ?_⟩, ?_, ?_⟩
  · intro k e d hk hd
    rcases h.named hk hd with ⟨hheld, input, hinput, hid⟩
    rcases Finmap.mem_iff.mp hheld with ⟨p, hp⟩
    refine ⟨p, hp, input, hinput, ?_⟩
    -- the parent is kept under the short id of its txid
    refine hfree _ (mem_mentioned_input (h.known hk) hinput) _ (mem_mentioned_txid (h.known hp)) ?_
    rw [hid]
    exact h.keyed hp
  · rcases h.ranked with ⟨rank, hrank⟩
    exact hrank.acyclic
  · intro tx hpanic
    by_cases hadmit : Admissible C (run C (new max) ops) tx ∧ Unspent C (run C (new max) ops) tx
    · rw [acceptToMempool_admits hadmit.1 hadmit.2] at hpanic
      cases hpanic
    · rcases (acceptToMempool_refuses hadmit).2 _ hpanic with ⟨e, he⟩
      cases he
  · intro entries fuel t hentries hfuel
    rcases h.getBlockTemplate_ensures hentries hfuel t with ⟨block, hblock, -⟩
    exact ⟨block, hblock⟩

/-! ## A small pool -/

namespace Sample

/-- Short ids are the low bytes of the txids. -/
def context : Context where
  bitcoin := Bitcoin.sample
  totalSize tx := 60 + 40 * tx.input.length + 30 * tx.output.length
  weight tx := 240 + 160 * tx.input.length + 120 * tx.output.length
  computeMerkleRoot _ := none
  hashOne id := UInt64.ofNat id.toNat

/-- A transaction that spends the given outpoint and pays the given amount. -/
def spend (o : OutPoint) (sat : Nat) : Transaction :=
  ⟨2, .blocks 0, [⟨o, [], 0, []⟩], [⟨Amount.fromSat sat, [0x51]⟩]⟩

def coin : OutPoint := ⟨5, 0⟩

def parent : Transaction := spend coin 90

def child : Transaction := spend ⟨Bitcoin.sample.computeTxid parent, 0⟩ 80

def mines (tx : Transaction) : Block := ⟨⟨1, 0, 0, 0, 0, 0⟩, [tx]⟩

/-- A child that is admitted, mined without its parent and admitted again. -/
def returning : List Op := [.accept parent, .accept child, .consume (mines child), .accept child]

end Sample

open Sample in
/-- The ids do not collide; the child that came back depends on its parent again. -/
theorem returning_wellFormed :
    CollisionFree context (mentioned context returning) ∧
      ((run context (new 1000) returning).transactions.lookup
        (context.shortTxid child)).map MempoolTransaction.depends =
          some [context.shortTxid parent] ∧
      WellFormed context (run context (new 1000) returning) := by
  have hfree : CollisionFree context (mentioned context returning) :=
    collisionFree_of_all (by decide +kernel)
  exact ⟨hfree, by decide +kernel, (run_wellFormed 1000 returning hfree).1⟩

end Floresta.Mempool
