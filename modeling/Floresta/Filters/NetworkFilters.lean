import Floresta.Filters.Answers

/-!
# NetworkFilters — the blocks whose filters match a query

`match_any` walks over the stored filters from a height on and leaves its loop after the first one
at or above the stop height.  That one has been asked by then, also when it is above the stop.
-/

namespace Floresta.Filters

open Fallible

inductive MatchFault
  | store (e : Fault)
  /-- the chain has no block at the height, or its filter cannot be read: both are unwrapped -/
  | panicked (height : UInt32)
  deriving DecidableEq, Repr

/-- The chain and the format of the filters, as far as `match_any` asks them. -/
structure Matching where
  getBlockHash : UInt32 → Option BlockHash
  /-- `BlockFilter::match_any` of the `bitcoin` crate -/
  filterMatchAny : BlockFilter → BlockHash → List Bytes → Option Bool

variable (debug : Bool) (M : Matching) (query : List Bytes) (stopHeight : Option UInt32)

/-- The loop of `match_any`, on what the iterator has left to read. -/
def matchFrom : Nat → Bytes → Except MatchFault (List BlockHash)
  | 0, _ => .error (.store .diverged)
  | fuel + 1, reader => do
      match ← (next debug reader).mapError .store with
      | none => pure []
      | some ((height, filter), reader) => do
          let hash ← okOr (M.getBlockHash height) (.panicked height)
          let isMatch ← okOr (M.filterMatchAny filter hash query) (.panicked height)
          let blocks := if isMatch then [hash] else []
          if stopHeight.any (· ≤ height) then pure blocks
          else do
            let rest ← matchFrom fuel reader
            pure (blocks ++ rest)

def matchAny (s : FlatFiltersStore) (startHeight : Option UInt32) :
    Except MatchFault (List BlockHash) := do
  let reader ← (iter s (startHeight.map UInt32.toNat)).mapError .store
  matchFrom debug M query stopHeight (reader.length + 1) reader

/-! ## What is asked and what is answered -/

def matched (r : Record) : Option BlockHash := do
  let hash ← M.getBlockHash r.1
  let isMatch ← M.filterMatchAny r.2 hash query
  if isMatch then some hash else none

/-- The chain has the block of the record, and its filter can be read. -/
def Answered (r : Record) : Prop :=
  ∃ hash isMatch, M.getBlockHash r.1 = some hash ∧ M.filterMatchAny r.2 hash query = some isMatch

def fromHeight (startHeight : Option UInt32) (rs : List Record) : List Record :=
  rs.filter fun r => startHeight.getD 0 ≤ r.1

def upTo (rs : List Record) : List Record := rs.filter fun r => stopHeight.all (r.1 ≤ ·)

/-- The record at which a walk is left, if that one is above the stop height. -/
def overrun (rs : List Record) : Option Record :=
  (rs.find? fun r => stopHeight.any (· ≤ r.1)).filter fun r => stopHeight.any (· < r.1)

variable {debug M query stopHeight} {s : FlatFiltersStore} {rs : List Record}

/-- The records that the loop asks. -/
def asked (stopHeight : Option UInt32) : List Record → List Record
  | [] => []
  | r :: rs => if stopHeight.any (· ≤ r.1) then [r] else r :: asked stopHeight rs

/-- A debug build panics at a filter of the maximum size. -/
theorem next_encodeRecord_panics {r : Record} (hsize : Sized r) (hbad : ¬ Tolerated debug r)
    (rest : Bytes) : ∃ fault, next debug (encodeRecord r ++ rest) = .error fault := by
  rcases Classical.not_imp.mp hbad with ⟨htrue, hmax⟩
  have hassert : ¬ (debug = true → (UInt32.ofNat r.2.length).toNat < 1000000) := by
    rw [toNat_ofNat_length hsize, not_not.mp hmax]
    exact fun hlt => absurd (hlt htrue) (Nat.lt_irrefl _)
  unfold next
  rw [readRecordHeader_encodeRecord]
  simp only [require, if_neg hassert]
  exact ⟨_, rfl⟩

theorem matchFrom_encode {fuel : Nat} {blocks : List BlockHash} (hsize : ∀ r ∈ rs, Sized r)
    (hanswered : ∀ r ∈ rs, Answered M query r) (hfuel : rs.length < fuel) :
    matchFrom debug M query stopHeight fuel (encode rs) = .ok blocks ↔
      (∀ r ∈ asked stopHeight rs, Tolerated debug r) ∧
        (asked stopHeight rs).filterMap (matched M query) = blocks := by
  induction fuel generalizing rs blocks with
  | zero => exact absurd hfuel (Nat.not_lt_zero _)
  | succ fuel ih =>
    cases rs with
    | nil =>
      exact ⟨fun h => ⟨fun r hr => absurd hr List.not_mem_nil, Except.ok.inj h⟩,
        fun h => congrArg _ h.2⟩
    | cons r rs =>
      rcases hanswered r List.mem_cons_self with ⟨hash, isMatch, hhash, hmatch⟩
      have hmatched : ∀ rs, (r :: rs).filterMap (matched M query) =
          (if isMatch then [hash] else []) ++ rs.filterMap (matched M query) := by
        intro rs
        cases isMatch <;> simp [matched, hhash, hmatch]
      rw [matchFrom, encode_cons, asked]
      by_cases htolerated : Tolerated debug r
      · rw [next_encodeRecord (hsize r List.mem_cons_self) htolerated]
        change (okOr (M.getBlockHash r.1) _ >>= _) = _ ↔ _
        rw [hhash]
        change (okOr (M.filterMatchAny r.2 hash query) _ >>= _) = _ ↔ _
        rw [hmatch]
        change (if _ then _ else matchFrom debug M query stopHeight fuel (encode rs) >>= _) = _ ↔ _
        split
        · rw [hmatched]
          simp [htolerated, pure_eq_ok]
        · rw [hmatched, List.forall_mem_cons, bind_eq_ok]
          simp only [pure_eq_ok, htolerated, true_and,
            ih (fun r' hr' => hsize r' (List.mem_cons_of_mem _ hr'))
              (fun r' hr' => hanswered r' (List.mem_cons_of_mem _ hr'))
              (Nat.lt_of_succ_lt_succ hfuel)]
          constructor
          · rintro ⟨rest, ⟨hall, rfl⟩, hblocks⟩
            exact ⟨hall, hblocks⟩
          · rintro ⟨hall, hblocks⟩
            exact ⟨_, ⟨hall, rfl⟩, hblocks⟩
      · rcases next_encodeRecord_panics (hsize r List.mem_cons_self) htolerated (encode rs) with
          ⟨fault, hnext⟩
        rw [hnext]
        constructor
        · intro h
          cases h
        · intro h
          refine absurd (h.1 r ?_) htolerated
          split <;> exact List.mem_cons_self

theorem asked_eq (hinc : Increasing rs) :
    asked stopHeight rs = upTo stopHeight rs ++ (overrun stopHeight rs).toList := by
  unfold upTo overrun
  induction rs with
  | nil => cases stopHeight <;> rfl
  | cons r rs ih =>
    rcases List.pairwise_cons.mp hinc with ⟨hlater, hrs⟩
    cases stopHeight with
    | none => simpa [asked] using ih hrs
    | some stop =>
      simp only [asked, Option.any_some, Option.all_some, List.filter_cons, List.find?_cons] at ih ⊢
      by_cases hstop : stop ≤ r.1
      · -- every later height is above the stop
        have hnone : rs.filter (fun r => decide (r.1 ≤ stop)) = [] := by
          refine List.filter_eq_nil_iff.mpr fun r' hr' hle => ?_
          exact absurd (hlater r' hr') (UInt32.not_lt.mpr
            (UInt32.le_trans (of_decide_eq_true hle) hstop))
        by_cases hlt : stop < r.1
        · simp [hstop, hnone, Option.filter, hlt]
        · simp [hstop, hnone, Option.filter, hlt]
      · have hle : r.1 ≤ stop := UInt32.le_of_lt (UInt32.not_le.mp hstop)
        simp [hstop, hle, ih hrs]

theorem Holds.iter_fromHeight (h : Holds s rs) (hinc : Increasing rs) (hsize : ∀ r ∈ rs, Sized r)
    (startHeight : Option UInt32) :
    iter s (startHeight.map UInt32.toNat) = .ok (encode (fromHeight startHeight rs)) := by
  cases startHeight with
  | none =>
    refine (h.iter_none hinc).trans ?_
    simp [fromHeight]
  | some start =>
    rcases h.iter_some hinc hsize start.toNat with ⟨before, after, rfl, hbefore, -, hiter⟩
    have hnone : (before.filter fun r => start ≤ r.1) = [] := by
      refine List.filter_eq_nil_iff.mpr fun r hr hle => ?_
      exact absurd (hbefore r hr) (Nat.not_lt.mpr (UInt32.le_iff_toNat_le.mp (of_decide_eq_true hle)))
    refine hiter.trans ?_
    rw [UInt32.ofNat_toNat, dropWhile_eq_filter (List.pairwise_append.mp hinc).2.1, fromHeight,
      Option.getD_some, List.filter_append, hnone, List.nil_append]
    rfl

/-- `match_any` answers for exactly the requested heights if the build can read the filters that it
asks, and the one at which it leaves the walk is not above the stop height or does not match; and
only then. -/
theorem matchAny_exact_iff (h : Holds s rs) (hinc : Increasing rs) (hsize : ∀ r ∈ rs, Sized r)
    (hanswered : ∀ r ∈ rs, Answered M query r) (startHeight : Option UInt32) :
    matchAny debug M query stopHeight s startHeight =
        .ok ((upTo stopHeight (fromHeight startHeight rs)).filterMap (matched M query)) ↔
      (∀ r ∈ asked stopHeight (fromHeight startHeight rs), Tolerated debug r) ∧
        ∀ r ∈ overrun stopHeight (fromHeight startHeight rs), matched M query r = none := by
  have hmem : ∀ r ∈ fromHeight startHeight rs, r ∈ rs := fun r hr => List.mem_of_mem_filter hr
  have hfrom : Increasing (fromHeight startHeight rs) := hinc.filter _
  unfold matchAny
  rw [h.iter_fromHeight hinc hsize]
  change matchFrom debug M query stopHeight _ (encode (fromHeight startHeight rs)) = _ ↔ _
  rw [matchFrom_encode (fun r hr => hsize r (hmem r hr)) (fun r hr => hanswered r (hmem r hr))
    (Nat.lt_succ_of_le (length_le_length_encode _)), asked_eq hfrom, List.filterMap_append,
    List.append_right_eq_self, List.filterMap_eq_nil_iff]
  simp only [Option.mem_toList, Option.mem_def]

namespace Sample

/-- A chain whose block hashes are their heights, and filters that match every query. -/
def everything : Matching where
  getBlockHash height := some (BitVec.ofNat 256 height.toNat)
  filterMatchAny _ _ _ := some true

end Sample

open Sample in
/-- With a filter at the stop height, the scattered filters are asked up to it. -/
theorem matchAny_exact_scattered :
    matchAny true everything [] (some 1000) store none =
      .ok ((upTo (some 1000) (fromHeight none (stored scattered))).filterMap
        (matched everything [])) := by
  refine (matchAny_exact_iff store_holds scattered_increasing scattered_sized
    (fun _ _ => ⟨_, _, rfl, rfl⟩) none).mpr ⟨?_, by decide +kernel⟩
  unfold Tolerated
  decide +kernel

open Sample in
/-- With a stop height between two filters, the block of the later one is returned as well. -/
theorem matchAny_overruns :
    matchAny true everything [] (some 2000) store none = .ok [999, 1000, 5001] ∧
      matchAny true everything [] (some 2000) store none ≠
        .ok ((upTo (some 2000) (fromHeight none (stored scattered))).filterMap
          (matched everything [])) := by
  decide +kernel

end Floresta.Filters
