import Floresta.Mempool.Dependencies

/-!
# Conflicts — held transactions that spend one output twice

`check_for_conflicts` looks for a rival among the children of the transaction that created the
output.  It finds a rival exactly if that transaction was in the pool when the rival was admitted and
has been there since; every other rival is missed.
-/

namespace Floresta.Mempool

open Fallible Ledger

variable {C : Context} {submitted : List Transaction} {pool : Mempool}

def Spends (tx : Transaction) (o : OutPoint) : Prop := ∃ input ∈ tx.input, input.previousOutput = o

def NoConflicts (pool : Mempool) : Prop :=
  ∀ {k e k' e' o}, pool.transactions.lookup k = some e → pool.transactions.lookup k' = some e' →
    e.transaction ≠ e'.transaction → Spends e.transaction o → ¬ Spends e'.transaction o

def SpentBy (pool : Mempool) (o : OutPoint) (e : MempoolTransaction) : Prop :=
  (∃ k, pool.transactions.lookup k = some e) ∧ Spends e.transaction o

/-- A rival is seen if it depends on the transaction that created the outpoint; where a transaction
that passes the other checks has rivals, one of them must be seen. -/
def RivalSeen (C : Context) (pool : Mempool) (tx : Transaction) : Prop :=
  (∃ o e, Spends tx o ∧ SpentBy pool o e) →
    ∃ o e, Spends tx o ∧ SpentBy pool o e ∧ C.hashOne o.txid ∈ e.depends

theorem isAlreadySpent_eq_true {o : OutPoint} :
    isAlreadySpent C pool o = true ↔ ∃ p k e,
      pool.transactions.lookup (C.hashOne o.txid) = some p ∧ k ∈ p.children ∧
        pool.transactions.lookup k = some e ∧ Spends e.transaction o := by
  unfold isAlreadySpent
  cases hp : pool.transactions.lookup (C.hashOne o.txid) with
  | none => simp
  | some p =>
    simp only [List.any_eq_true]
    constructor
    · rintro ⟨k, hk, hspent⟩
      cases he : pool.transactions.lookup k with
      | none =>
        rw [he] at hspent
        cases hspent
      | some e =>
        rw [he] at hspent
        rcases List.any_eq_true.mp hspent with ⟨input, hinput, heq⟩
        rw [Bool.and_eq_true, decide_eq_true_eq, decide_eq_true_eq] at heq
        exact ⟨p, k, e, rfl, hk, he, input, hinput, by
          cases hprev : input.previousOutput
          cases o
          simp_all⟩
    · rintro ⟨p', k, e, hp', hk, he, input, hinput, rfl⟩
      cases hp'
      refine ⟨k, hk, ?_⟩
      rw [he]
      exact List.any_eq_true.mpr ⟨input, hinput, by simp⟩

/-- The check finds exactly the rivals that depend on the creator of the outpoint. -/
theorem Inv.isAlreadySpent_iff (h : Inv C submitted pool) {o : OutPoint} :
    isAlreadySpent C pool o = true ↔ ∃ e, SpentBy pool o e ∧ C.hashOne o.txid ∈ e.depends := by
  rw [isAlreadySpent_eq_true]
  constructor
  · rintro ⟨p, k, e, hp, hk, he, hspends⟩
    rcases hspends with ⟨input, hinput, rfl⟩
    exact ⟨e, ⟨⟨k, he⟩, input, hinput, rfl⟩, h.answered he hp hk input hinput rfl⟩
  · rintro ⟨e, ⟨⟨k, he⟩, hspends⟩, hdepends⟩
    rcases Finmap.mem_iff.mp (h.named he hdepends).1 with ⟨p, hp⟩
    exact ⟨p, k, e, hp, h.listed he hdepends hp, he, hspends⟩

theorem Inv.unspent_iff (h : Inv C submitted pool) {tx : Transaction} :
    Unspent C pool tx ↔
      ¬ ∃ o e, Spends tx o ∧ SpentBy pool o e ∧ C.hashOne o.txid ∈ e.depends := by
  constructor
  · rintro hunspent ⟨o, e, ⟨input, hinput, rfl⟩, hspent, hdepends⟩
    have htrue := h.isAlreadySpent_iff.mpr ⟨e, hspent, hdepends⟩
    rw [hunspent input hinput] at htrue
    cases htrue
  · intro hnone input hinput
    rw [← Bool.not_eq_true]
    intro htrue
    rcases h.isAlreadySpent_iff.mp htrue with ⟨e, hspent, hdepends⟩
    exact hnone ⟨input.previousOutput, e, ⟨input, hinput, rfl⟩, hspent, hdepends⟩

/-! ## One step -/

/-- What a call has to meet: a transaction that passes the other checks has no rivals that all go
unseen. -/
def Watched (C : Context) (pool : Mempool) : Op → Prop
  | .accept tx => Admissible C pool tx → RivalSeen C pool tx
  | .consume _ => True

theorem NoConflicts.consumeTransaction (h : NoConflicts pool) (tx : Transaction) :
    NoConflicts (consumeTransaction C pool tx) := by
  cases hremoved : pool.transactions.lookup (C.shortTxid tx) with
  | none =>
    rw [consumeTransaction_none hremoved]
    exact h
  | some removed =>
    intro k e k' e' o hk hk' hne
    rcases consumed_cases hremoved hk with ⟨-, e0, he0, htx, -⟩
    rcases consumed_cases hremoved hk' with ⟨-, e0', he0', htx', -⟩
    rw [htx, htx'] at hne ⊢
    exact h he0 he0' hne

theorem NoConflicts.consume (h : NoConflicts pool) (txs : List Transaction) :
    NoConflicts (txs.foldl (Mempool.consumeTransaction C) pool) := by
  induction txs generalizing pool with
  | nil => exact h
  | cons tx txs ih => exact ih (h.consumeTransaction tx)

theorem exists_admitted {tx : Transaction} (hnew : C.shortTxid tx ∉ pool.transactions)
    {k : ShortTxid} {e : MempoolTransaction} (hk : pool.transactions.lookup k = some e) :
    ∃ e', (admitted C pool tx).transactions.lookup k = some e' ∧ e'.transaction = e.transaction := by
  have hne : k ≠ C.shortTxid tx := by
    rintro rfl
    exact hnew (Finmap.mem_of_lookup_eq_some hk)
  rw [lookup_admitted_of_ne hne, hk]
  exact ⟨_, rfl, rfl⟩

theorem NoConflicts.admitted (h : NoConflicts pool) {tx : Transaction}
    (halone : ¬ ∃ o e, Spends tx o ∧ SpentBy pool o e) : NoConflicts (admitted C pool tx) := by
  intro k e k' e' o hk hk' hne hspends hspends'
  rcases admitted_cases hk with ⟨rfl, rfl⟩ | ⟨-, e0, he0, rfl⟩
  · rcases admitted_cases hk' with ⟨rfl, rfl⟩ | ⟨-, e0', he0', rfl⟩
    · exact hne rfl
    · exact halone ⟨o, e0', hspends, ⟨k', he0'⟩, hspends'⟩
  · rcases admitted_cases hk' with ⟨rfl, rfl⟩ | ⟨-, e0', he0', rfl⟩
    · exact halone ⟨o, e0, hspends', ⟨k, he0⟩, hspends⟩
    · have hold := h he0 he0' hne hspends
      exact hold hspends'

/-- A step keeps the pool free of conflicts exactly if it is watched. -/
theorem noConflicts_step (hinv : Inv C submitted pool) (h : NoConflicts pool) (op : Op) :
    NoConflicts (step C pool op) ↔ Watched C pool op := by
  cases op with
  | consume block => exact ⟨fun _ => trivial, fun _ => h.consume block.txdata⟩
  | accept tx =>
    change NoConflicts (acceptToMempool C tx pool).2 ↔
      (Admissible C pool tx → RivalSeen C pool tx)
    by_cases hadmissible : Admissible C pool tx
    · by_cases hunspent : Unspent C pool tx
      · rw [acceptToMempool_admits hadmissible hunspent]
        have hunseen := hinv.unspent_iff.mp hunspent
        constructor
        · -- the rivals the check misses stand next to the transaction
          rintro hclean - ⟨o, e, hspends, ⟨k, hk⟩, hspends'⟩
          rcases exists_admitted hadmissible.new hk with ⟨e', he', htx'⟩
          refine absurd (htx' ▸ hspends') (hclean (lookup_admitted_self pool tx) he' ?_ hspends)
          intro hsame
          refine hadmissible.new ?_
          have hkey := hinv.keyed hk
          rw [← htx', ← hsame] at hkey
          exact hkey ▸ Finmap.mem_of_lookup_eq_some hk
        · intro hseen
          exact h.admitted fun hrival => hunseen (hseen hadmissible hrival)
      · rw [(acceptToMempool_refuses fun hboth => hunspent hboth.2).1]
        refine ⟨fun _ _ _ => ?_, fun _ => h⟩
        by_contra hunseen
        exact hunspent (hinv.unspent_iff.mpr hunseen)
    · rw [(acceptToMempool_refuses fun hboth => hadmissible hboth.1).1]
      exact ⟨fun _ hadmissible' => absurd hadmissible' hadmissible, fun _ => h⟩

/-! ## Runs -/

/-- Every call of the run is watched, in the pool it finds. -/
def AllWatched (C : Context) (pool : Mempool) : List Op → Prop
  | [] => True
  | op :: ops => Watched C pool op ∧ AllWatched C (step C pool op) ops

theorem noConflicts_run (hinv : Inv C submitted pool) (h : NoConflicts pool) (ops : List Op) :
    (∀ before, before <+: ops → NoConflicts (run C pool before)) ↔ AllWatched C pool ops := by
  induction ops generalizing pool submitted with
  | nil =>
    refine ⟨fun _ => trivial, fun _ before hbefore => ?_⟩
    rw [List.prefix_nil.mp hbefore]
    exact h
  | cons op ops ih =>
    have hstep := noConflicts_step hinv h op
    constructor
    · intro hall
      have hclean : NoConflicts (step C pool op) := hall [op] (by simp)
      refine ⟨hstep.mp hclean, (ih (hinv.step op) hclean).mp fun before hbefore => ?_⟩
      exact hall (op :: before) (List.cons_prefix_cons.mpr ⟨rfl, hbefore⟩)
    · rintro ⟨hwatched, hrest⟩ before hbefore
      cases before with
      | nil => exact h
      | cons op' before =>
        rcases List.cons_prefix_cons.mp hbefore with ⟨rfl, hrestBefore⟩
        exact (ih (hinv.step op') (hstep.mpr hwatched)).mpr hrest before hrestBefore

/-- The pool is free of conflicts throughout a run exactly if every admission of the run is
watched. -/
theorem run_noConflicts (max : Nat) (ops : List Op) :
    (∀ before, before <+: ops → NoConflicts (run C (new max) before)) ↔
      AllWatched C (new max) ops := by
  refine noConflicts_run (Inv.new max) ?_ ops
  intro k e k' e' o hk
  cases hk

namespace Sample

def rival : Transaction := spend coin 70

end Sample

open Sample in
/-- Two transactions that spend an output from outside the pool are both held. -/
theorem rivals_held :
    CollisionFree context (mentioned context [.accept parent, .accept rival]) ∧
      ¬ NoConflicts (run context (new 1000) [.accept parent, .accept rival]) := by
  refine ⟨collisionFree_of_all (by decide +kernel), fun h => ?_⟩
  have hparent : ∃ e, (run context (new 1000)
      [.accept parent, .accept rival]).transactions.lookup
        (context.shortTxid parent) = some e ∧ e.transaction = parent :=
    ⟨⟨parent, [], []⟩, by decide +kernel, rfl⟩
  have hrival : ∃ e, (run context (new 1000)
      [.accept parent, .accept rival]).transactions.lookup
        (context.shortTxid rival) = some e ∧ e.transaction = rival :=
    ⟨⟨rival, [], []⟩, by decide +kernel, rfl⟩
  rcases hparent with ⟨e, he, htx⟩
  rcases hrival with ⟨e', he', htx'⟩
  refine h (o := coin) he he' ?_ ?_ ?_
  · rw [htx, htx']
    decide +kernel
  · rw [htx]
    exact ⟨_, List.mem_singleton_self _, rfl⟩
  · rw [htx']
    exact ⟨_, List.mem_singleton_self _, rfl⟩

end Floresta.Mempool
