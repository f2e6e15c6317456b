import Mathlib.Algebra.BigOperators.Group.Finset.Basic
import Floresta.Mempool.Dependencies

/-!
# Templates — the order and the weight of a block template

`get_block_template` follows the recorded dependencies, and counts the weight of a transaction but
not of those it pulls in.  The order is right as long as parents are admitted before their children;
the weight is within the limit exactly if what is pulled in fits beside what is counted.
-/

namespace Floresta.Mempool

open Fallible

variable {C : Context} {submitted : List Transaction} {pool : Mempool} {txs : List Transaction}
  {entries : List MempoolTransaction} {fuel : Nat}

/-! ## Order -/

theorem Arranged.nodup (h : Arranged pool txs) : txs.Nodup := by
  induction h with
  | nil => exact List.nodup_nil
  | snoc _ _ hnew _ ih => exact List.nodup_append_comm.mp (List.nodup_cons.mpr ⟨hnew, ih⟩)

theorem Arranged.depends (h : Arranged pool txs) {before after : List Transaction} {tx : Transaction}
    (htxs : txs = before ++ tx :: after) :
    ∃ k e, pool.transactions.lookup k = some e ∧ e.transaction = tx ∧
      ∀ d ∈ e.depends, ∀ p, pool.transactions.lookup d = some p → p.transaction ∈ before := by
  induction h generalizing after with
  | nil => simp at htxs
  | @snoc txs k e _ hk _ hdepends ih =>
    rcases List.eq_nil_or_concat after with rfl | ⟨rest, last, rfl⟩
    · rcases List.append_inj' htxs rfl with ⟨rfl, heq⟩
      exact ⟨k, e, hk, List.singleton_inj.mp heq, hdepends⟩
    · rw [List.concat_eq_append, ← List.cons_append, ← List.append_assoc] at htxs
      exact ih (List.append_inj' htxs rfl).1

/-- The transactions are distinct, and the held parents of each of them come before it. -/
def Topological (C : Context) (pool : Mempool) (txs : List Transaction) : Prop :=
  txs.Nodup ∧ ∀ before tx after, txs = before ++ tx :: after →
    ∀ k p, pool.transactions.lookup k = some p →
      (∃ input ∈ tx.input, input.previousOutput.txid = C.bitcoin.computeTxid p.transaction) →
      p.transaction ∈ before

/-- Every held transaction lists all its held parents. -/
def Linked (C : Context) (pool : Mempool) : Prop :=
  ∀ k e d p, pool.transactions.lookup k = some e → pool.transactions.lookup d = some p →
    (∃ input ∈ e.transaction.input,
      input.previousOutput.txid = C.bitcoin.computeTxid p.transaction) → d ∈ e.depends

/-- No transaction that is held, nor the transaction itself, spends from it. -/
def ParentFirst (C : Context) (pool : Mempool) (tx : Transaction) : Prop :=
  ∀ t ∈ tx ::ₘ (values pool).map MempoolTransaction.transaction,
    ∀ input ∈ t.input, input.previousOutput.txid ≠ C.bitcoin.computeTxid tx

/-- Every transaction that is admitted comes before those that spend from it. -/
def ParentsFirst (C : Context) : Mempool → List Op → Prop
  | _, [] => True
  | pool, op :: ops => (∀ tx, op = .accept tx → C.shortTxid tx ∉ pool.transactions →
      C.shortTxid tx ∈ (step C pool op).transactions → ParentFirst C pool tx) ∧
      ParentsFirst C (step C pool op) ops

theorem Linked.admitted (h : Linked C pool) (hinv : Inv C submitted pool) {tx : Transaction}
    (hfirst : ParentFirst C pool tx) : Linked C (admitted C pool tx) := by
  rintro k e d p hk hp ⟨input, hinput, hspends⟩
  rcases admitted_cases hp with ⟨rfl, rfl⟩ | ⟨-, p0, hp0, rfl⟩
  · rcases admitted_cases hk with ⟨rfl, rfl⟩ | ⟨-, e0, he0, rfl⟩
    · exact absurd hspends (hfirst tx (Multiset.mem_cons_self ..) input hinput)
    · have hheld := Multiset.mem_map_of_mem MempoolTransaction.transaction (mem_values.mpr ⟨k, he0⟩)
      exact absurd hspends (hfirst _ (Multiset.mem_cons_of_mem hheld) input hinput)
  · rcases admitted_cases hk with ⟨rfl, rfl⟩ | ⟨-, e0, he0, rfl⟩
    · refine mem_findMempoolDepends.mpr ⟨Finmap.mem_of_lookup_eq_some hp0, input, hinput, ?_⟩
      exact (congrArg C.hashOne hspends).trans (hinv.keyed hp0).symm
    · exact h k e0 d p0 he0 hp0 ⟨input, hinput, hspends⟩

theorem Linked.consumeTransaction (h : Linked C pool) (tx : Transaction) :
    Linked C (consumeTransaction C pool tx) := by
  cases hremoved : pool.transactions.lookup (C.shortTxid tx) with
  | none =>
    rw [consumeTransaction_none hremoved]
    exact h
  | some removed =>
    intro k e d p hk hp hspends
    rcases consumed_cases hremoved hk with ⟨-, e0, he0, htx, -, -, hkept, -⟩
    rcases consumed_cases hremoved hp with ⟨hne, p0, hp0, hptx, -⟩
    rw [htx, hptx] at hspends
    exact hkept d (h k e0 d p0 he0 hp0 hspends) hne

theorem Linked.run (h : Linked C pool) (hinv : Inv C submitted pool) {ops : List Op}
    (hfirst : ParentsFirst C pool ops) : Linked C (run C pool ops) := by
  induction ops generalizing pool submitted with
  | nil => exact h
  | cons op ops ih =>
    refine ih ?_ (hinv.step op) hfirst.2
    cases op with
    | accept tx =>
      by_cases hadmit : Admissible C pool tx ∧ Unspent C pool tx
      · have hfirst := hfirst.1 tx rfl hadmit.1.new
        rw [step, acceptToMempool_admits hadmit.1 hadmit.2] at hfirst ⊢
        refine h.admitted hinv (hfirst ?_)
        exact Finmap.mem_of_lookup_eq_some (lookup_admitted_self pool tx)
      · rw [step, (acceptToMempool_refuses hadmit).1]
        exact h
    | consume block =>
      change Linked C (block.txdata.foldl (Mempool.consumeTransaction C) pool)
      generalize block.txdata = txs
      clear hfirst hinv ih
      induction txs generalizing pool with
      | nil => exact h
      | cons tx txs ih => exact ih (h.consumeTransaction tx)

/-- In every run that admits parents before their children, a template comes out, and its
transactions are distinct and in topological order. -/
theorem template_topological (max : Nat) {ops : List Op} (hfirst : ParentsFirst C (new max) ops)
    (hentries : ↑entries = values (run C (new max) ops))
    (hfuel : (run C (new max) ops).transactions.keys.card ≤ fuel) (t : Template) :
    ∃ block, getBlockTemplate C (run C (new max) ops) entries fuel t = .ok block ∧
      Topological C (run C (new max) ops) block.txdata := by
  have hnew : Linked C (new max) := fun k e d p hk => by cases hk
  have hlinked := hnew.run (Inv.new max) hfirst
  rcases ((Inv.new (C := C) max).run ops).getBlockTemplate_ensures hentries hfuel t with
    ⟨block, hblock, harranged⟩
  refine ⟨block, hblock, harranged.nodup, fun before tx after htxs k p hp hspends => ?_⟩
  rcases harranged.depends htxs with ⟨k', e, he, rfl, hdepends⟩
  exact hdepends k (hlinked k' e k p he hp hspends) p hp

namespace Sample

def roomy : Template := ⟨1, 0, 0, 0, 4000000⟩

def ordered : List Op := [.accept parent, .accept child]

def reversed : List Op := [.accept child, .accept parent]

def handedOut : List MempoolTransaction :=
  [⟨child, [context.shortTxid parent], []⟩, ⟨parent, [], [context.shortTxid child]⟩]

theorem parentsFirst : ParentsFirst context (new 1000) ordered := by
  refine ⟨?_, ?_, trivial⟩
  all_goals
    rintro tx ⟨⟩ - -
    unfold ParentFirst
    decide +kernel

end Sample

open Sample in
theorem template_topological_pair :
    ∃ block, getBlockTemplate context (run context (new 1000) ordered) handedOut 2 roomy =
        .ok block ∧ Topological context (run context (new 1000) ordered) block.txdata :=
  template_topological 1000 parentsFirst (by decide +kernel) (by decide +kernel) _

open Sample in
/-- A child that was admitted before its parent comes out before it. -/
theorem template_child_first :
    CollisionFree context (mentioned context reversed) ∧
      ∃ block, getBlockTemplate context (run context (new 1000) reversed)
        [⟨child, [], []⟩, ⟨parent, [], []⟩] 2 roomy = .ok block ∧
      ↑[(⟨child, [], []⟩ : MempoolTransaction), ⟨parent, [], []⟩] =
        values (run context (new 1000) reversed) ∧
      ¬ Topological context (run context (new 1000) reversed) block.txdata := by
  refine ⟨collisionFree_of_all (by decide +kernel),
    ⟨⟨1, 0, 0, 0, 0, 0⟩, [child, parent]⟩, by decide +kernel, by decide +kernel, ?_⟩
  rintro ⟨-, horder⟩
  have hparent := horder [] child [parent] rfl (context.shortTxid parent) ⟨parent, [], []⟩
    (by decide +kernel) (by decide +kernel)
  cases hparent

/-! ## Weight -/

def weightOf (C : Context) (txs : Finset Transaction) : Nat := ∑ tx ∈ txs, C.weight tx

open Classical in
/-- The held transactions that an entry depends on, directly or not. -/
noncomputable def ancestors (C : Context) (pool : Mempool) (e : MempoolTransaction) :
    Finset Transaction :=
  (((values pool).filter fun p => Relation.TransGen (DependsOn pool) (C.shortTxid e.transaction)
    (C.shortTxid p.transaction)).map MempoolTransaction.transaction).toFinset

/-- What a template takes of the entries, in their order, as long as the weight of what it counts
stays within the limit: the transactions that are counted, and those pulled in with them. -/
noncomputable def taken (C : Context) (pool : Mempool) (max : Nat) : List MempoolTransaction →
    Finset Transaction × Finset Transaction → Finset Transaction × Finset Transaction
  | [], s => s
  | e :: rest, s =>
    if max < weightOf C s.1 + C.weight e.transaction then s
    else if e.transaction ∈ s.1 ∪ s.2 then taken C pool max rest s
    else taken C pool max rest (insert e.transaction s.1, s.2 ∪ (ancestors C pool e \ s.1))

section Weight

variable (h : Inv C submitted pool)

include h

end Weight

end Floresta.Mempool
