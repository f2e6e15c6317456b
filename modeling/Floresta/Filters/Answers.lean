import Floresta.Filters.Records
import Mathlib.Data.Fintype.Card

/-!
# Answers — the filters a walk yields

Over any sequence of `set_height` and `put_filter` calls with increasing heights, a walk yields the
filters that were stored from its start on, and an index that is built again is the one that was
written along the way.  The exceptions are exactly these: a filter whose length does not fit into 32
bits is taken with a shorter length, a debug build refuses to read a filter of the maximum size it
took, and a start beyond 32 bits is cut.
-/

namespace Floresta.Filters

open Fallible ByteFile

variable {height : UInt32} {filter : BlockFilter}

/-! ## Positions fit into the index -/

theorem increasing_length {rs : List Record} (h : Increasing rs) : rs.length ≤ 2 ^ 32 := by
  have hnodup : (rs.map fun r => r.1.toNat).Nodup := by
    rw [List.Nodup, List.pairwise_map]
    refine h.imp fun hlt => ?_
    exact Nat.ne_of_lt (UInt32.lt_iff_toNat_lt.mp hlt)
  have hsub : (rs.map fun r => r.1.toNat).toFinset ⊆ Finset.range (2 ^ 32) := by
    intro n hn
    rcases List.mem_map.mp (List.mem_toFinset.mp hn) with ⟨r, -, rfl⟩
    exact Finset.mem_range.mpr r.1.toNat_lt
  calc rs.length = (rs.map fun r => r.1.toNat).length := (List.length_map _).symm
    _ = (rs.map fun r => r.1.toNat).toFinset.card := (List.toFinset_card_of_nodup hnodup).symm
    _ ≤ (Finset.range (2 ^ 32)).card := Finset.card_le_card hsub
    _ = 2 ^ 32 := Finset.card_range _

theorem length_encode_le {rs : List Record} (h : ∀ r ∈ rs, Sized r) :
    (encode rs).length ≤ rs.length * (RECORD_HEADER_SIZE + MAX_FILTER_SIZE) := by
  induction rs with
  | nil => exact Nat.zero_le _
  | cons r rs ih =>
    have hr : r.2.length ≤ MAX_FILTER_SIZE := h r List.mem_cons_self
    have hrest := ih fun r' hr' => h r' (List.mem_cons_of_mem _ hr')
    rw [encode_cons, List.length_append, length_encodeRecord, List.length_cons, Nat.add_mul]
    omega

theorem position_lt {before after : List Record} (h : Increasing (before ++ after))
    (hsize : ∀ r ∈ before, Sized r) : HEADER_SIZE + (encode before).length < 256 ^ 8 := by
  have hbefore : Increasing before := (List.pairwise_append.mp h).1
  have hlength := increasing_length hbefore
  have hencode := length_encode_le hsize
  have hmul : before.length * (RECORD_HEADER_SIZE + MAX_FILTER_SIZE) ≤
      2 ^ 32 * (RECORD_HEADER_SIZE + MAX_FILTER_SIZE) := Nat.mul_le_mul_right _ hlength
  unfold RECORD_HEADER_SIZE MAX_FILTER_SIZE HEADER_SIZE at *
  omega

/-! ## The start of a walk -/

theorem startPosition_none {rs : List Record} (h : Increasing rs) :
    startPosition (table 8 (indexOf rs)) none = HEADER_SIZE := by
  have hzero := indexOf_zero h
  unfold startPosition
  simp only [chunksExact_table (w := 8) (by decide)]
  cases hindex : indexOf rs with
  | nil =>
    rw [hindex] at hzero
    cases hzero
  | cons e es =>
    rw [hindex] at hzero
    have he : e = HEADER_SIZE := hzero
    subst he
    rfl

theorem startPosition_some {rs : List Record} (h : Increasing rs) (hsize : ∀ r ∈ rs, Sized r)
    (start : Nat) :
    ∃ before after, rs = before ++ after ∧
      startPosition (table 8 (indexOf rs)) (some start) = HEADER_SIZE + (encode before).length ∧
      (∀ r ∈ before, r.1.toNat < start) ∧ (after = [] → rs = []) := by
  have hsmall : (indexOf rs).map (· % 256 ^ 8) = indexOf rs := by
    refine Eq.trans (List.map_congr_left fun e he => ?_) (List.map_id _)
    by_cases hzero : e = 0
    · rw [hzero]
      rfl
    · rcases List.mem_iff_getElem.mp he with ⟨k, hk, rfl⟩
      have hget : (indexOf rs).getD k 0 = (indexOf rs)[k] := List.getD_eq_getElem _ _ hk
      rcases indexOf_split h (k := k) (hget ▸ hzero) with ⟨before, after, hsplit, hpos, -⟩
      rw [← hget, hpos]
      refine Nat.mod_eq_of_lt (position_lt (hsplit ▸ h) fun r hr => hsize r ?_)
      rw [hsplit]
      exact List.mem_append_left _ hr
  have hfirst : (indexOf rs).getD 0 0 ≠ 0 := by
    rw [indexOf_zero h]
    decide
  rcases find_written hfirst (start / INDEX_INTERVAL) with ⟨k, hk, hwritten, hfind⟩
  rcases indexOf_split h hwritten with ⟨before, after, hsplit, hpos, hbefore, hafter⟩
  refine ⟨before, after, hsplit, ?_, fun r hr => ?_, hafter⟩
  · unfold startPosition
    simp only [chunksExact_table (w := 8) (by decide), hsmall, Option.getD_some, hfind, hpos]
  · have hlt := hbefore r hr
    have hmul : INDEX_INTERVAL * k ≤ INDEX_INTERVAL * (start / INDEX_INTERVAL) :=
      Nat.mul_le_mul_left _ hk
    have hdiv := Nat.mul_div_le start INDEX_INTERVAL
    omega

/-! ## Stores and their records -/

/-- The store holds the records, under the given saved height. -/
structure HoldsAt (s : FlatFiltersStore) (height : UInt32) (rs : List Record) : Prop where
  file : s.file = leBytes 4 height.toNat ++ encode rs
  index : s.index = table 8 (indexOf rs)

/-- The store holds the records, under some saved height. -/
structure Holds (s : FlatFiltersStore) (rs : List Record) : Prop where
  file : ∃ height : UInt32, s.file = leBytes 4 height.toNat ++ encode rs
  index : s.index = table 8 (indexOf rs)

variable {s : FlatFiltersStore} {rs : List Record} {debug : Bool}

theorem Holds.drop (h : Holds s rs) {before after : List Record} (hsplit : rs = before ++ after) :
    s.file.drop (HEADER_SIZE + (encode before).length) = encode after := by
  rcases h.file with ⟨height, hfile⟩
  have hlength : (leBytes 4 height.toNat ++ encode before).length =
      HEADER_SIZE + (encode before).length := by
    rw [List.length_append, length_leBytes]
    rfl
  rw [hfile, hsplit, encode_append, ← List.append_assoc, ← hlength]
  exact List.drop_left

theorem Holds.iter_none (h : Holds s rs) (hinc : Increasing rs) :
    iter s none = .ok (encode rs) := by
  have hdrop : s.file.drop HEADER_SIZE = encode rs :=
    h.drop (List.nil_append rs).symm
  have hreader : s.file.drop (startPosition s.index none) = encode rs := by
    rw [h.index, startPosition_none hinc]
    exact hdrop
  unfold iter
  simp only [hreader]
  exact skipTo_zero rs _

/-- A walk from a height on reads the records that are left after those below the cut height. -/
theorem Holds.iter_some (h : Holds s rs) (hinc : Increasing rs) (hsize : ∀ r ∈ rs, Sized r)
    (start : Nat) :
    ∃ before after, rs = before ++ after ∧ (∀ r ∈ before, r.1.toNat < start) ∧
      (after = [] → rs = []) ∧
      iter s (some start) = .ok (encode (after.dropWhile fun r => r.1 < UInt32.ofNat start)) := by
  rcases startPosition_some hinc hsize start with ⟨before, after, hsplit, hpos, hbefore, hafter⟩
  refine ⟨before, after, hsplit, hbefore, hafter, ?_⟩
  have hreader : s.file.drop (startPosition s.index (some start)) = encode after := by
    rw [h.index, hpos]
    exact h.drop hsplit
  unfold iter
  simp only [hreader, Option.getD_some]
  refine skipTo_encode (fun r hr => hsize r ?_) (Nat.lt_succ_of_le (length_le_length_encode _))
  rw [hsplit]
  exact List.mem_append_right _ hr

/-- In increasing records, the ones from a height on are those left after the ones below it. -/
theorem dropWhile_eq_filter {rs : List Record} (h : Increasing rs) (start : UInt32) :
    (rs.dropWhile fun r => r.1 < start) = rs.filter fun r => start.toNat ≤ r.1.toNat := by
  induction rs with
  | nil => rfl
  | cons r rs ih =>
    rcases List.pairwise_cons.mp h with ⟨hr, hrs⟩
    rw [List.dropWhile_cons, List.filter_cons]
    by_cases hlt : r.1 < start
    · have hnot : ¬ start.toNat ≤ r.1.toNat := Nat.not_le.mpr (UInt32.lt_iff_toNat_lt.mp hlt)
      simp only [hlt, decide_true, if_true, hnot, decide_false, Bool.false_eq_true, if_false]
      exact ih hrs
    · have hle : start.toNat ≤ r.1.toNat := Nat.le_of_not_lt fun hlt' =>
        hlt (UInt32.lt_iff_toNat_lt.mpr hlt')
      simp only [hlt, decide_false, Bool.false_eq_true, if_false, hle, decide_true, if_true]
      congr 1
      refine (List.filter_eq_self.mpr fun r' hr' => ?_).symm
      have hlt' := UInt32.lt_iff_toNat_lt.mp (hr r' hr')
      exact decide_eq_true (by omega)

/-! ## The calls -/

inductive Op
  | setHeight (height : UInt32)
  | putFilter (filter : BlockFilter) (height : UInt32)
  deriving DecidableEq, Repr

/-- The store after a call; a refused filter changes nothing. -/
def step (s : FlatFiltersStore) : Op → FlatFiltersStore
  | .setHeight height => setHeight s height
  | .putFilter filter height =>
    match putFilter s filter height with
    | .ok s' => s'
    | .error _ => s

def Op.record : Op → List Record
  | .setHeight _ => []
  | .putFilter filter height => if Taken (height, filter) then [(height, filter)] else []

def stored (ops : List Op) : List Record := ops.flatMap Op.record

/-- A store on files that did not exist. -/
def opened : FlatFiltersStore := ⟨[], leBytes 8 HEADER_SIZE⟩

theorem openStore_new : openStore [] [] = .ok opened := by decide +kernel

theorem HoldsAt.holds (h : HoldsAt s height rs) : Holds s rs :=
  ⟨⟨height, h.file⟩, h.index⟩

theorem Holds.setHeight (h : Holds s rs) (height : UInt32) :
    HoldsAt (setHeight s height) height rs := by
  rcases h.file with ⟨old, hfile⟩
  refine ⟨?_, h.index⟩
  change writeAt s.file 0 (leBytes 4 height.toNat) = _
  rw [hfile]
  exact writeAt_append List.length_nil ((length_leBytes 4 _).trans (length_leBytes 4 _).symm)

theorem HoldsAt.getHeight (h : HoldsAt s height rs) :
    getHeight s = .ok height := by
  unfold Filters.getHeight
  rw [h.file, readExact_leBytes]
  change Except.ok (UInt32.ofNat (ofLeBytes (leBytes 4 height.toNat))) = .ok height
  rw [ofLeBytes_toNat]

theorem holds_new (height : UInt32) : HoldsAt (setHeight opened height) height [] := by
  refine ⟨?_, rfl⟩
  change writeAt [] 0 (leBytes 4 height.toNat) = leBytes 4 height.toNat ++ []
  rw [List.append_nil]
  unfold writeAt
  simp

theorem putFilter_refuses
    (h : ¬ Taken (height, filter)) (s : FlatFiltersStore) :
    putFilter s filter height = .error (.error .oversizedBlockFilter) := by
  have hnot : ¬ (UInt32.ofNat filter.length).toNat ≤ MAX_FILTER_SIZE := h
  simp only [putFilter, require, if_neg hnot]
  rfl

theorem HoldsAt.putFilter {saved : UInt32} (h : HoldsAt s saved rs)
    (htaken : Taken (height, filter)) :
    ∃ s', putFilter s filter height = .ok s' ∧ HoldsAt s' saved (rs ++ [(height, filter)]) := by
  have htaken' : (UInt32.ofNat filter.length).toNat ≤ MAX_FILTER_SIZE := htaken
  have hlength : s.file.length = HEADER_SIZE + (encode rs).length := by
    rw [h.file, List.length_append, length_leBytes]
    rfl
  refine ⟨_, by simp only [Filters.putFilter, require, if_pos htaken']; rfl, ?_, ?_⟩
  · simp only [h.file, encode_append, List.append_assoc]
    congr 2
    change _ = encodeRecord (height, filter) ++ []
    rw [List.append_nil, encodeRecord, List.append_assoc]
  · simp only [h.index, writeIndexEntry_table, hlength, indexOf_concat]

theorem Holds.step (h : Holds s rs) (op : Op) : Holds (step s op) (rs ++ op.record) := by
  cases op with
  | setHeight height =>
    rw [Op.record, List.append_nil]
    exact (h.setHeight height).holds
  | putFilter filter height =>
    simp only [Filters.step, Op.record]
    by_cases htaken : Taken (height, filter)
    · rcases h.file with ⟨saved, hfile⟩
      rcases HoldsAt.putFilter ⟨hfile, h.index⟩ htaken with ⟨s', hs', hholds⟩
      rw [if_pos htaken, hs']
      exact hholds.holds
    · rw [if_neg htaken, putFilter_refuses htaken, List.append_nil]
      exact h

theorem Holds.run (h : Holds s rs) (ops : List Op) :
    Holds (ops.foldl Filters.step s) (rs ++ stored ops) := by
  induction ops generalizing s rs with
  | nil =>
    rw [stored, List.flatMap_nil, List.append_nil]
    exact h
  | cons op ops ih =>
    rw [stored, List.flatMap_cons, ← List.append_assoc]
    exact ih (h.step op)

theorem taken_of_mem_stored {ops : List Op} {r : Record} (h : r ∈ stored ops) : Taken r := by
  rcases List.mem_flatMap.mp h with ⟨op, -, hr⟩
  cases op with
  | setHeight height => exact absurd hr List.not_mem_nil
  | putFilter filter height =>
    simp only [Op.record] at hr
    by_cases htaken : Taken (height, filter)
    · rw [if_pos htaken] at hr
      rw [List.mem_singleton.mp hr]
      exact htaken
    · rw [if_neg htaken] at hr
      exact absurd hr List.not_mem_nil

/-! ## What the store answers -/

/-- The store answers with the records: a walk from the height `start`, a walk over everything, and
the store that is opened again without its index. -/
structure Exact (debug : Bool) (s : FlatFiltersStore) (rs : List Record) (start : Nat) : Prop where
  suffix : items debug s (some start) = .ok (rs.filter fun r => start ≤ r.1.toNat)
  all : items debug s none = .ok rs
  /-- the file is the same, so that the answers are as well -/
  rebuilt : openStore s.file [] = .ok s

theorem Holds.items_none (h : Holds s rs) (hinc : Increasing rs) :
    items debug s none = collect debug ((encode rs).length + 1) (encode rs) := by
  unfold items
  rw [h.iter_none hinc]
  rfl

theorem Holds.rebuilt (h : Holds s rs) (hsize : ∀ r ∈ rs, Sized r) :
    openStore s.file [] = .ok s := by
  rcases h.file with ⟨height, hfile⟩
  have hdrop : s.file.drop HEADER_SIZE = encode rs :=
    h.drop (List.nil_append rs).symm
  have hfuel : rs.length < s.file.length + 1 := by
    have hle := length_le_length_encode rs
    rw [hfile, List.length_append]
    omega
  have hfirst : writeAt [] 0 (leBytes 8 HEADER_SIZE) = table 8 [HEADER_SIZE] := by decide +kernel
  have hbuild : buildIndex s.file (table 8 [HEADER_SIZE]) = .ok s.index := by
    unfold buildIndex
    rw [hdrop, buildIndexFrom_encode hsize hfuel, h.index]
    rfl
  unfold openStore
  simp only [List.length_nil, if_true, hfirst, hbuild]
  rfl

theorem Holds.items_some (h : Holds s rs) (hinc : Increasing rs) (hsize : ∀ r ∈ rs, Sized r)
    (hdebug : ∀ r ∈ rs, Tolerated debug r) (start : Nat) :
    ∃ before after, rs = before ++ after ∧ (∀ r ∈ before, r.1.toNat < start) ∧
      (after = [] → rs = []) ∧
      items debug s (some start) = .ok (after.filter fun r => start % 2 ^ 32 ≤ r.1.toNat) := by
  rcases h.iter_some hinc hsize start with ⟨before, after, hsplit, hbefore, hafter, hiter⟩
  refine ⟨before, after, hsplit, hbefore, hafter, ?_⟩
  have hincAfter : Increasing after := (List.pairwise_append.mp (hsplit ▸ hinc)).2.1
  have hmem : ∀ r ∈ after.dropWhile fun r => r.1 < UInt32.ofNat start, r ∈ rs := by
    intro r hr
    rw [hsplit]
    exact List.mem_append_right _ ((List.dropWhile_sublist _).subset hr)
  have hcollect := collect_encode (fun r hr => hsize r (hmem r hr))
    (fun r hr => hdebug r (hmem r hr)) (Nat.lt_succ_of_le (length_le_length_encode _))
  unfold items
  rw [hiter]
  refine hcollect.trans ?_
  rw [dropWhile_eq_filter hincAfter, UInt32.toNat_ofNat']

/-- The answers of a store are exact at a start if every filter is within the limit, a debug build
has none of the maximum size, and the start has 32 bits or its cut is above every height; and only
then. -/
theorem Holds.exact_iff (h : Holds s rs) (hinc : Increasing rs) (htaken : ∀ r ∈ rs, Taken r)
    (start : Nat) :
    Exact debug s rs start ↔ (∀ r ∈ rs, Sized r) ∧ (∀ r ∈ rs, Tolerated debug r) ∧
      (start < 2 ^ 32 ∨ ∀ r ∈ rs, r.1.toNat < start % 2 ^ 32) := by
  constructor
  · rintro ⟨hsuffix, hall, -⟩
    rw [h.items_none hinc] at hall
    have hgood := collect_encode_exact htaken hall
    refine ⟨fun r hr => (hgood r hr).1, fun r hr => (hgood r hr).2, ?_⟩
    by_cases hstart : start < 2 ^ 32
    · exact .inl hstart
    · -- no height reaches the start, so nothing may be yielded
      refine .inr ?_
      rcases h.items_some hinc (fun r hr => (hgood r hr).1) (fun r hr => (hgood r hr).2) start with
        ⟨before, after, hsplit, -, hafter, hitems⟩
      rw [hitems] at hsuffix
      have hnone : (rs.filter fun r => start ≤ r.1.toNat) = [] := by
        refine List.filter_eq_nil_iff.mpr fun r _ => ?_
        have hlt := r.1.toNat_lt
        rw [decide_eq_true_eq]
        omega
      rw [hnone, Except.ok.injEq, List.filter_eq_nil_iff] at hsuffix
      have hlow : ∀ r ∈ after, r.1.toNat < start % 2 ^ 32 := by
        intro r hr
        have hnot := hsuffix r hr
        rw [decide_eq_true_eq] at hnot
        omega
      intro r hr
      rw [hsplit] at hr
      rcases List.mem_append.mp hr with hr | hr
      · cases hcases : after with
        | nil =>
          rw [hafter hcases, eq_comm, List.append_eq_nil_iff] at hsplit
          rw [hsplit.1] at hr
          exact absurd hr List.not_mem_nil
        | cons last after' =>
          have hlast : last ∈ after := by
            rw [hcases]
            exact List.mem_cons_self
          have hlt := (List.pairwise_append.mp (hsplit ▸ hinc)).2.2 r hr last hlast
          exact Nat.lt_trans (UInt32.lt_iff_toNat_lt.mp hlt) (hlow last hlast)
      · exact hlow r hr
  · rintro ⟨hsize, hdebug, hstart⟩
    refine ⟨?_, ?_, h.rebuilt hsize⟩
    · rcases h.items_some hinc hsize hdebug start with
        ⟨before, after, hsplit, hbefore, -, hitems⟩
      rw [hitems, hsplit, List.filter_append]
      have hnone : (before.filter fun r => start ≤ r.1.toNat) = [] := by
        refine List.filter_eq_nil_iff.mpr fun r hr => ?_
        have hlt := hbefore r hr
        rw [decide_eq_true_eq]
        omega
      rw [hnone, List.nil_append]
      congr 1
      refine List.filter_congr fun r hr => ?_
      rcases hstart with hstart | hstart
      · rw [Nat.mod_eq_of_lt hstart]
      · have hlow := hstart r (by
          rw [hsplit]
          exact List.mem_append_right _ hr)
        have hlt := r.1.toNat_lt
        have hmod := Nat.mod_le start (2 ^ 32)
        rw [decide_eq_decide]
        omega
    · rw [h.items_none hinc]
      exact collect_encode hsize hdebug (Nat.lt_succ_of_le (length_le_length_encode _))

/-- After any sequence of calls with increasing heights on a store opened on new files, its answers
from a height on are exact in the cases of `exact_iff`. -/
theorem run_exact (hopen : openStore [] [] = .ok s) (height : UInt32) (ops : List Op)
    (hinc : Increasing (stored ops)) (start : Nat) :
    Exact debug (ops.foldl step (setHeight s height)) (stored ops) start ↔
      (∀ r ∈ stored ops, Sized r) ∧ (∀ r ∈ stored ops, Tolerated debug r) ∧
        (start < 2 ^ 32 ∨ ∀ r ∈ stored ops, r.1.toNat < start % 2 ^ 32) := by
  cases openStore_new.symm.trans hopen
  exact Holds.exact_iff ((holds_new height).holds.run ops) hinc
    (fun _ hr => taken_of_mem_stored hr) start

namespace Sample

/-- Filters around the blocks that the index keeps, with gaps, and a saved height in between. -/
def scattered : List Op :=
  [.putFilter [1, 2] 999, .setHeight 999, .putFilter [] 1000, .putFilter [3] 5001]

def maximal : BlockFilter := List.replicate 1000000 0

def store : FlatFiltersStore := scattered.foldl step (setHeight opened 0)

theorem store_holds : Holds store (stored scattered) := (holds_new 0).holds.run scattered

theorem scattered_increasing : Increasing (stored scattered) := by
  unfold Increasing
  decide +kernel

theorem scattered_sized : ∀ r ∈ stored scattered, Sized r := by
  unfold Sized
  decide +kernel

theorem scattered_tolerated : ∀ r ∈ stored scattered, Tolerated true r := by
  unfold Tolerated
  decide +kernel

end Sample

open Sample in
/-- From the first thousandth block on the scattered filters are yielded, in every build. -/
theorem scattered_exact :
    openStore [] [] = .ok opened ∧ Increasing (stored scattered) ∧
      Exact true (scattered.foldl step (setHeight opened 0)) (stored scattered)
        1000 :=
  ⟨openStore_new, scattered_increasing,
    (run_exact openStore_new 0 scattered scattered_increasing 1000).mpr
    ⟨scattered_sized, scattered_tolerated, .inl (by decide)⟩⟩

/-- A store takes a filter of the maximum size, and a debug build panics when it reads it back. -/
theorem items_maximal (hlength : filter.length = 1000000) :
    stored [.putFilter filter 1] = [(1, filter)] ∧
      items true (step (setHeight opened 0) (.putFilter filter 1)) none =
        .error (.debugAssert 1 1000000) := by
  have htaken : Taken (1, filter) := by
    unfold Taken
    rw [hlength]
    decide
  have hstored : stored [.putFilter filter 1] = [(1, filter)] := by
    unfold stored
    rw [List.flatMap_singleton, Op.record, if_pos htaken]
  have hholds := (holds_new 0).holds.step (.putFilter filter 1)
  rw [List.nil_append, Op.record, if_pos htaken] at hholds
  refine ⟨hstored, ?_⟩
  rw [hholds.items_none (List.pairwise_singleton _ _), encode_cons, collect]
  simp only [next, readRecordHeader_encodeRecord, hlength, require]
  rfl

open Sample in
theorem maximal_filter_panics :
    ¬ Exact true (step (setHeight opened 0) (.putFilter maximal 1))
      (stored [.putFilter maximal 1]) 0 := by
  rintro ⟨-, hall, -⟩
  have hlength : maximal.length = 1000000 := List.length_replicate
  have hpanic := (items_maximal hlength).2
  rw [hpanic] at hall
  cases hall

end Floresta.Filters
