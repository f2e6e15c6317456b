import Floresta.Consensus.Block
import Floresta.Lib.PairTree

/-!
# MerkleRoot — what the merkle root of a block commits to

`calculate_root` pairs a list of txids level by level (`PairTree`) and reports equal real siblings as
a mutation.  A root that is not mutated belongs to one list of txids only: the padding of an odd
level is told apart from a written-out copy of it.

Hashes of 64 bytes collide, so the pair hash is injective on the pairs that two trees hash, and not
everywhere.
-/

namespace Floresta.Consensus

open PairTree

variable (B : Bitcoin)

/-! ## The nodes of a tree -/

/-- The levels that the loop of `calculate_root` reduces. -/
def treeLevels : Nat → List Hash256 → List (List Hash256)
  | fuel + 1, l :: r :: rest =>
    (l :: r :: rest) :: treeLevels fuel (reduceLevel B (l :: r :: rest))
  | _, _ => []

def hashedPairs (txids : List Txid) : List (Hash256 × Hash256) :=
  (treeLevels B txids.length txids).flatMap pairs

def innerNodes (txids : List Txid) : List Hash256 :=
  (treeLevels B txids.length txids).flatMap (reduceLevel B)

/-- The pair hash is injective on the pairs of both trees, and the txids of either list are no inner
nodes of the other's tree. -/
structure Separated (xs ys : List Txid) : Prop where
  injective : ∀ p ∈ hashedPairs B xs ++ hashedPairs B ys,
    ∀ q ∈ hashedPairs B xs ++ hashedPairs B ys, B.merkleNode p.1 p.2 = B.merkleNode q.1 q.2 → p = q
  left : ∀ x ∈ xs, x ∉ innerNodes B ys
  right : ∀ y ∈ ys, y ∉ innerNodes B xs

variable {B}

theorem reduceLevel_eq (level : List Hash256) : reduceLevel B level = parents B.merkleNode level := by
  induction level using reduceLevel.induct with
  | case1 => rfl
  | case2 l => rfl
  | case3 l r rest ih =>
    rw [reduceLevel, ih]
    rfl

theorem levelMutated_iff (level : List Hash256) : levelMutated level = true ↔ Twins level := by
  induction level using levelMutated.induct with
  | case1 l r rest ih => simp [levelMutated, Twins, ih]
  | case2 level h =>
    match level, h with
    | [], _ => exact ⟨nofun, nofun⟩
    | [l], _ => exact ⟨nofun, nofun⟩
    | l :: r :: rest, h => exact absurd rfl (h l r rest)

theorem rootLoop_joins {fuel : Nat} {level : List Hash256} (mutated : Bool) (hne : level ≠ [])
    (hfuel : level.length ≤ fuel + 1) :
    Joins B.merkleNode level (treeLevels B fuel level) (rootLoop B fuel level mutated).1 ∧
      ((rootLoop B fuel level mutated).2 = true ↔
        mutated = true ∨ ∃ l ∈ treeLevels B fuel level, Twins l) := by
  induction fuel generalizing level mutated with
  | zero =>
    match level, hne, hfuel with
    | [x], _, _ => exact ⟨.root x, by simp [rootLoop, treeLevels]⟩
  | succ fuel ih =>
    match level, hne, hfuel with
    | [x], _, _ => exact ⟨.root x, by simp [rootLoop, treeLevels]⟩
    | l :: r :: rest, _, hfuel =>
      have hlen : (reduceLevel B (l :: r :: rest)).length ≤ fuel + 1 := by
        rw [reduceLevel_eq, length_parents]
        simp only [List.length_cons] at hfuel ⊢
        omega
      have hreduced : reduceLevel B (l :: r :: rest) ≠ [] := List.cons_ne_nil _ _
      rcases ih (mutated || levelMutated (l :: r :: rest)) hreduced hlen with ⟨hjoins, hflag⟩
      refine ⟨.level (by simp) ?_, ?_⟩
      · rw [← reduceLevel_eq]
        exact hjoins
      · have hloop : rootLoop B (fuel + 1) (l :: r :: rest) mutated =
            rootLoop B fuel (reduceLevel B (l :: r :: rest))
              (mutated || levelMutated (l :: r :: rest)) := rfl
        rw [hloop, hflag, Bool.or_eq_true, levelMutated_iff, treeLevels,
          List.exists_mem_cons_iff, or_assoc]

theorem calculateRoot_spec {txids : List Txid} {root : Hash256} {mutated : Bool}
    (h : calculateRoot B txids = some (root, mutated)) :
    Joins B.merkleNode txids (treeLevels B txids.length txids) root ∧
      (mutated = true ↔ ∃ level ∈ treeLevels B txids.length txids, Twins level) := by
  cases txids with
  | nil => cases h
  | cons x txids =>
    rcases rootLoop_joins (B := B) false (List.cons_ne_nil x txids) (Nat.le_succ _) with
      ⟨hjoins, hflag⟩
    have hloop := Option.some.inj h
    rw [hloop] at hjoins hflag
    exact ⟨hjoins, by simpa using hflag⟩

theorem calculateRoot_clean {txids : List Txid} {root : Hash256}
    (h : calculateRoot B txids = some (root, false)) :
    ∀ level ∈ treeLevels B txids.length txids, ¬ Twins level :=
  fun level hlevel htwins => Bool.false_ne_true ((calculateRoot_spec h).2.mpr ⟨level, hlevel, htwins⟩)

theorem exists_calculateRoot {txids : List Txid} (h : txids ≠ []) :
    ∃ root mutated, calculateRoot B txids = some (root, mutated) := by
  cases txids with
  | nil => exact absurd rfl h
  | cons x txids => exact ⟨_, _, rfl⟩

/-! ## One list for each root -/

section Commitment

variable {xs ys : List Txid} {root : Hash256}

theorem Separated.injectiveOn (h : Separated B xs ys) :
    InjectiveOn B.merkleNode (treeLevels B xs.length xs ++ treeLevels B ys.length ys) := by
  intro p hp q hq heq
  rw [Set.mem_ofPred_eq, List.flatMap_append] at hp hq
  exact h.injective p hp q hq heq

theorem innerNodes_eq (txids : List Txid) :
    innerNodes B txids = (treeLevels B txids.length txids).flatMap (parents B.merkleNode) :=
  congrArg (fun f => List.flatMap f (treeLevels B txids.length txids)) (funext reduceLevel_eq)

theorem eq_of_calculateRoot_eq (h : Separated B xs ys)
    (hx : calculateRoot B xs = some (root, false)) (hy : calculateRoot B ys = some (root, false)) :
    xs = ys := by
  refine (calculateRoot_spec hx).1.eq (calculateRoot_spec hy).1 h.injectiveOn
    (calculateRoot_clean hx) (calculateRoot_clean hy) ?_ ?_
  · rw [← innerNodes_eq]
    exact h.left
  · rw [← innerNodes_eq]
    exact h.right

theorem checkMerkleRoot_cases {block : Block} {txids : List Txid}
    (h : checkMerkleRoot B block = some txids) :
    txids = block.txdata.map B.computeTxid ∧
      (calculateRoot B txids = some (block.header.merkleRoot, false) ∨
        block.txdata = [] ∧ block.header.merkleRoot = 0) := by
  simp only [checkMerkleRoot] at h
  split at h
  next hroot =>
    cases h
    refine ⟨rfl, ?_⟩
    cases hcalc : calculateRoot B (block.txdata.map B.computeTxid) with
    | none =>
      rw [hcalc] at hroot
      refine .inr ⟨?_, hroot.2⟩
      by_contra hne
      rcases exists_calculateRoot (B := B) (mt List.map_eq_nil_iff.mp hne) with ⟨_, _, hsome⟩
      rw [hcalc] at hsome
      cases hsome
    | some r =>
      rw [hcalc] at hroot
      refine .inl (congrArg some (Prod.ext hroot.2.symm ?_))
      simpa using hroot.1
  · cases h

theorem calculateRoot_of_nodup (hne : xs ≠ []) (hnodup : xs.Nodup)
    (hinj : ∀ p ∈ hashedPairs B xs, ∀ q ∈ hashedPairs B xs,
      B.merkleNode p.1 p.2 = B.merkleNode q.1 q.2 → p = q) :
    ∃ root, calculateRoot B xs = some (root, false) := by
  rcases exists_calculateRoot (B := B) hne with ⟨root, mutated, hroot⟩
  rcases calculateRoot_spec hroot with ⟨hjoins, hflag⟩
  have hlevels := hjoins.nodup (fun p hp q hq heq => hinj p hp q hq heq) hnodup
  refine ⟨root, ?_⟩
  cases mutated with
  | false => exact hroot
  | true =>
    rcases hflag.mp rfl with ⟨level, hlevel, htwins⟩
    exact absurd htwins (not_twins_of_nodup (hlevels level hlevel))

/-- A longer list with the same root is mutated, whether the shorter one is or not. -/
theorem calculateRoot_of_append {group : List Txid} {mutated mutated' : Bool}
    (h : Separated B xs (xs ++ group)) (hgroup : group ≠ [])
    (hx : calculateRoot B xs = some (root, mutated))
    (hy : calculateRoot B (xs ++ group) = some (root, mutated')) : mutated' = true := by
  by_contra hclean
  rw [Bool.not_eq_true] at hclean
  subst hclean
  cases mutated with
  | false =>
    have heq := eq_of_calculateRoot_eq h hx hy
    exact hgroup (List.self_eq_append_right.mp heq)
  | true =>
    rcases (calculateRoot_spec hx).1.twins_of_initial (calculateRoot_spec hy).1
      (h.injectiveOn.mono (List.subset_append_left _ _)) (List.prefix_append _ _)
      ((calculateRoot_spec hx).2.mp rfl) with ⟨level, hlevel, htwins⟩
    exact calculateRoot_clean hy level hlevel htwins

/-- Two lists with one root and no mutation are the same list, and so are the txids of two accepted
blocks with one header.  Distinct txids are no mutation, and copying the end of a list without
changing the root is one. -/
theorem merkleRoot_commits (B : Bitcoin) :
    (∀ xs ys root, Separated B xs ys → calculateRoot B xs = some (root, false) →
      calculateRoot B ys = some (root, false) → xs = ys) ∧
    (∀ block block' txids txids', block.header = block'.header →
      (block.header.merkleRoot = 0 → block.txdata ≠ [] ∧ block'.txdata ≠ []) →
      Separated B (block.txdata.map B.computeTxid) (block'.txdata.map B.computeTxid) →
      checkMerkleRoot B block = some txids → checkMerkleRoot B block' = some txids' →
      block.txdata.map B.computeTxid = block'.txdata.map B.computeTxid) ∧
    (∀ xs, xs ≠ [] → xs.Nodup →
      (∀ p ∈ hashedPairs B xs, ∀ q ∈ hashedPairs B xs,
        B.merkleNode p.1 p.2 = B.merkleNode q.1 q.2 → p = q) →
      ∃ root, calculateRoot B xs = some (root, false)) ∧
    ∀ xs group root mutated mutated', group ≠ [] → group <:+ xs → Separated B xs (xs ++ group) →
      calculateRoot B xs = some (root, mutated) →
      calculateRoot B (xs ++ group) = some (root, mutated') → mutated' = true := by
  refine ⟨?_, ?_, ?_, ?_⟩
  · intro xs ys root h hx hy
    exact eq_of_calculateRoot_eq h hx hy
  · intro block block' txids txids' hheader hzero h hcheck hcheck'
    rcases checkMerkleRoot_cases hcheck with ⟨rfl, hroot | ⟨hnil, hroot⟩⟩
    · rcases checkMerkleRoot_cases hcheck' with ⟨rfl, hroot' | ⟨hnil, hroot'⟩⟩
      · rw [← hheader] at hroot'
        exact eq_of_calculateRoot_eq h hroot hroot'
      · exact absurd hnil (hzero (hheader ▸ hroot')).2
    · exact absurd hnil (hzero hroot).1
  · intro xs hne hnodup h
    exact calculateRoot_of_nodup hne hnodup h
  · intro xs group root mutated mutated' hgroup _ h hx hy
    exact calculateRoot_of_append h hgroup hx hy

end Commitment

namespace Sample

open Bitcoin

/-- Three txids and the list that writes out their padding. -/
def three : List Txid := [1, 2, 3]

theorem treeLevels_three :
    ∀ xs ∈ [three, three ++ [3]],
      hashedPairs sample xs = [(1, 2), (3, 3),
        (sample.merkleNode 1 2, sample.merkleNode 3 3)] ∧
      innerNodes sample xs = [sample.merkleNode 1 2,
        sample.merkleNode 3 3, sample.merkleNode
          (sample.merkleNode 1 2) (sample.merkleNode 3 3)] := by
  decide +kernel

theorem three_separated : ∀ xs ∈ [three, three ++ [3]], Separated sample three xs := by
  intro xs hxs
  have hsub : ∀ x ∈ xs, x = 1 ∨ x = 2 ∨ x = 3 := by
    rcases List.mem_pair.mp hxs with rfl | rfl
    · simp [three]
    · simp [three]
  have havoid : ∀ x, x = 1 ∨ x = 2 ∨ x = 3 → x ∉ innerNodes sample three := by
    rw [(treeLevels_three three (by simp)).2]
    rintro x (rfl | rfl | rfl)
    · decide +kernel
    · decide +kernel
    · decide +kernel
  rcases treeLevels_three xs hxs with ⟨hpairs, hinner⟩
  rcases treeLevels_three three (by simp) with ⟨hpairs', hinner'⟩
  constructor
  · rw [hpairs, hpairs']
    simp only [List.forall_mem_append, List.forall_mem_cons, List.not_mem_nil, false_implies,
      implies_true, and_self]
    decide +kernel
  · rw [hinner, ← hinner']
    exact fun x hx => havoid x (by simpa [three] using hx)
  · exact fun y hy => havoid y (hsub y hy)

def pair : Block where
  header := ⟨1, 0, sample.merkleNode (sample.computeTxid ⟨1, .blocks 0, [], []⟩)
    (sample.computeTxid ⟨1, .blocks 1, [], []⟩), 0, 0, 0⟩
  txdata := [⟨1, .blocks 0, [], []⟩, ⟨1, .blocks 1, [], []⟩]

end Sample

open Sample Bitcoin in
theorem merkleRoot_commits_three : three.Nodup ∧
    (Separated sample (pair.txdata.map sample.computeTxid) (pair.txdata.map sample.computeTxid) ∧
      ∀ block txids, pair.header = block.header →
        Separated sample (pair.txdata.map sample.computeTxid) (block.txdata.map sample.computeTxid) →
        checkMerkleRoot sample block = some txids →
        pair.txdata.map sample.computeTxid = block.txdata.map sample.computeTxid) ∧
    (∃ root, calculateRoot sample three = some (root, false) ∧
      ∀ ys, Separated sample three ys →
        calculateRoot sample ys = some (root, false) → three = ys) ∧
    ∃ root, calculateRoot sample (three ++ [3]) = some (root, true) ∧
      (calculateRoot sample three).map Prod.fst = some root := by
  have hnodup : three.Nodup := by decide
  rcases merkleRoot_commits sample with ⟨hunique, hblocks, hclean, hlonger⟩
  have hpair : Separated sample (pair.txdata.map sample.computeTxid)
      (pair.txdata.map sample.computeTxid) := by
    rcases (show hashedPairs sample (pair.txdata.map sample.computeTxid) =
        [(sample.computeTxid ⟨1, .blocks 0, [], []⟩, sample.computeTxid ⟨1, .blocks 1, [], []⟩)] ∧
      innerNodes sample (pair.txdata.map sample.computeTxid) = [pair.header.merkleRoot] by
        decide +kernel) with ⟨hpairs, hinner⟩
    have hfresh : ∀ x ∈ pair.txdata.map sample.computeTxid, x ∉ [pair.header.merkleRoot] := by
      rw [List.forall_mem_map]
      decide +kernel
    refine ⟨?_, by rwa [hinner], by rwa [hinner]⟩
    rw [hpairs]
    simp
  have hcheck : checkMerkleRoot sample pair = some (pair.txdata.map sample.computeTxid) := by
    decide +kernel
  have hinj := (three_separated three (by simp)).injective
  rcases hclean three (by decide) hnodup fun p hp q hq =>
    hinj p (List.mem_append_left _ hp) q (List.mem_append_left _ hq) with ⟨root, hroot⟩
  have hsame : ∃ mutated, calculateRoot sample (three ++ [3]) = some (root, mutated) := by
    have hroots : (calculateRoot sample three).map Prod.fst =
        (calculateRoot sample (three ++ [3])).map Prod.fst := by decide +kernel
    rw [hroot] at hroots
    rcases exists_calculateRoot (B := sample) (List.cons_ne_nil 1 [2, 3, 3]) with
      ⟨root', mutated, hroot'⟩
    have hroot'' : calculateRoot sample (three ++ [3]) = some (root', mutated) := hroot'
    rw [hroot''] at hroots
    cases hroots
    exact ⟨mutated, hroot''⟩
  rcases hsame with ⟨mutated, hsame⟩
  have hmutated := hlonger three [3] root false mutated (by decide) ⟨[1, 2], rfl⟩
    (three_separated _ (by simp)) hroot hsame
  subst hmutated
  refine ⟨hnodup, ⟨hpair, fun block txids hheader hsep hblock => ?_⟩,
    ⟨root, hroot, fun ys hys hy => hunique three ys root hys hroot hy⟩, root, hsame, ?_⟩
  · exact hblocks pair block _ txids hheader (fun hzero => absurd hzero (by decide +kernel)) hsep
      hcheck hblock
  rw [hroot]
  rfl

end Floresta.Consensus
