import Floresta.Filters.FlatFiltersStore
import Mathlib.Data.List.GetD

/-!
# Records — what the filter store reads back

The filters file is a height followed by the encodings of its records.  The three loops that read
records (the iterator, the walk to the start, the construction of the index) are computed on such
files; the index holds the positions of the records it names.
-/

namespace Floresta.Filters

open Fallible ByteFile

variable {rs : List Record} {r : Record} {debug : Bool}

abbrev Record := UInt32 × BlockFilter

def encodeRecord (r : Record) : Bytes :=
  leBytes 4 r.1.toNat ++ leBytes 4 (UInt32.ofNat r.2.length).toNat ++ r.2

def encode (rs : List Record) : Bytes := rs.flatMap encodeRecord

def Sized (r : Record) : Prop := r.2.length ≤ MAX_FILTER_SIZE

/-- `put_filter` takes the filter: what is left of its length after the cast is within the
limit. -/
def Taken (r : Record) : Prop := (UInt32.ofNat r.2.length).toNat ≤ MAX_FILTER_SIZE

instance : DecidablePred Taken := fun _ => inferInstanceAs (Decidable (_ ≤ _))

/-! ## Reading a record -/

theorem encode_cons (r : Record) (rs : List Record) :
    encode (r :: rs) = encodeRecord r ++ encode rs := rfl

theorem encode_append (rs rs' : List Record) : encode (rs ++ rs') = encode rs ++ encode rs' :=
  List.flatMap_append

theorem length_encodeRecord (r : Record) :
    (encodeRecord r).length = RECORD_HEADER_SIZE + r.2.length := by
  unfold encodeRecord
  simp [RECORD_HEADER_SIZE]
  omega

theorem length_le_length_encode (rs : List Record) : rs.length ≤ (encode rs).length := by
  induction rs with
  | nil => exact Nat.zero_le _
  | cons r rs ih =>
    rw [encode_cons, List.length_append, length_encodeRecord, List.length_cons]
    unfold RECORD_HEADER_SIZE
    omega

theorem toNat_ofNat_length (h : Sized r) :
    (UInt32.ofNat r.2.length).toNat = r.2.length := by
  unfold Sized MAX_FILTER_SIZE at h
  rw [UInt32.toNat_ofNat', Nat.mod_eq_of_lt (by omega)]

theorem ofLeBytes_toNat (x : UInt32) : UInt32.ofNat (ofLeBytes (leBytes 4 x.toNat)) = x := by
  have hlt := x.toNat_lt
  rw [ofLeBytes_leBytes, Nat.mod_eq_of_lt (by omega), UInt32.ofNat_toNat]

theorem readRecordHeader_encodeRecord (r : Record) (rest : Bytes) :
    readRecordHeader (encodeRecord r ++ rest) =
      some (r.1, UInt32.ofNat r.2.length, r.2 ++ rest) := by
  unfold readRecordHeader encodeRecord
  rw [List.append_assoc, List.append_assoc, readExact_leBytes]
  simp only [Option.bind_eq_bind, Option.bind_some, readExact_leBytes, ofLeBytes_toNat]
  rfl

/-! ## The iterator -/

/-- A debug build stops at a filter of exactly the maximum size. -/
def Tolerated (debug : Bool) (r : Record) : Prop := debug = true → r.2.length ≠ MAX_FILTER_SIZE

theorem next_encodeRecord (hsize : Sized r)
    (hdebug : Tolerated debug r) (rest : Bytes) :
    next debug (encodeRecord r ++ rest) = .ok (some (r, rest)) := by
  have hlength := toNat_ofNat_length hsize
  have hassert : debug = true → (UInt32.ofNat r.2.length).toNat < 1000000 := by
    intro htrue
    have hne := hdebug htrue
    rw [hlength]
    unfold Sized MAX_FILTER_SIZE at *
    omega
  have hread : readExact (UInt32.ofNat r.2.length).toNat (r.2 ++ rest) = some (r.2, rest) :=
    readExact_append hlength.symm
  unfold next
  rw [readRecordHeader_encodeRecord]
  simp only [require, if_pos hassert, hread]
  rfl

theorem collect_encode (hsize : ∀ r ∈ rs, Sized r)
    (hdebug : ∀ r ∈ rs, Tolerated debug r) {fuel : Nat} (hfuel : rs.length < fuel) :
    collect debug fuel (encode rs) = .ok rs := by
  induction fuel generalizing rs with
  | zero => exact absurd hfuel (Nat.not_lt_zero _)
  | succ fuel ih =>
    cases rs with
    | nil => rfl
    | cons r rs =>
      have hrest := ih (fun r' hr' => hsize r' (List.mem_cons_of_mem _ hr'))
        (fun r' hr' => hdebug r' (List.mem_cons_of_mem _ hr'))
        (Nat.lt_of_succ_lt_succ hfuel)
      have hnext := next_encodeRecord (hsize r List.mem_cons_self)
        (hdebug r List.mem_cons_self) (encode rs)
      rw [encode_cons, collect, hnext]
      change (collect debug fuel (encode rs) >>= fun items => pure (r :: items)) = _
      rw [hrest]
      rfl

theorem next_encodeRecord_bad (htaken : Taken r)
    (hbad : ¬ (Sized r ∧ Tolerated debug r)) {rest reader : Bytes} {item : Record}
    (h : next debug (encodeRecord r ++ rest) = .ok (some (item, reader))) : item ≠ r := by
  rintro rfl
  unfold next at h
  rw [readRecordHeader_encodeRecord] at h
  simp only [bind_eq_ok, require_eq_ok, pure_eq_ok] at h
  rcases h with ⟨-, hassert, hread⟩
  rcases Option.map_eq_some_iff.mp hread with ⟨⟨content, reader'⟩, hexact, heq⟩
  have hcontent : content = item.2 := congrArg (fun p => p.1.2) heq
  have hlength : content.length ≤ (UInt32.ofNat item.2.length).toNat := by
    unfold readExact at hexact
    split at hexact
    · cases hexact
      exact List.length_take_le _ _
    · cases hexact
  have hsize : Sized item := by
    unfold Sized Taken at *
    rw [hcontent] at hlength
    omega
  refine hbad ⟨hsize, fun htrue hmax => ?_⟩
  have hlt := hassert htrue
  rw [toNat_ofNat_length hsize, hmax] at hlt
  unfold MAX_FILTER_SIZE at hlt
  omega

/-- The iterator yields the stored records only if none of them is beyond the limit or, in a debug
build, at it. -/
theorem collect_encode_exact (htaken : ∀ r ∈ rs, Taken r)
    {fuel : Nat} (h : collect debug fuel (encode rs) = .ok rs) :
    ∀ r ∈ rs, Sized r ∧ Tolerated debug r := by
  induction rs generalizing fuel with
  | nil => exact fun r hr => absurd hr List.not_mem_nil
  | cons r rs ih =>
    cases fuel with
    | zero => cases h
    | succ fuel =>
      rw [encode_cons, collect, bind_eq_ok] at h
      rcases h with ⟨answer, hnext, hrest⟩
      cases answer with
      | none => cases hrest
      | some p =>
        rcases p with ⟨item, reader⟩
        simp only [bind_eq_ok, pure_eq_ok] at hrest
        rcases hrest with ⟨items, hitems, heq⟩
        rw [List.cons.injEq] at heq
        rcases heq with ⟨rfl, rfl⟩
        have hgood : Sized item ∧ Tolerated debug item := by
          by_contra hbad
          exact next_encodeRecord_bad (htaken _ List.mem_cons_self) hbad hnext rfl
        rw [next_encodeRecord hgood.1 hgood.2] at hnext
        cases hnext
        have hrest := ih (fun r' hr' => htaken r' (List.mem_cons_of_mem _ hr')) hitems
        exact List.forall_mem_cons.mpr ⟨hgood, hrest⟩

/-! ## The walk to the start -/

theorem drop_length_sized (h : Sized r) (rest : Bytes) :
    (r.2 ++ rest).drop (UInt32.ofNat r.2.length).toNat = rest := by
  rw [toNat_ofNat_length h]
  exact List.drop_left

theorem skipTo_encode {start : UInt32} (hsize : ∀ r ∈ rs, Sized r) {fuel : Nat}
    (hfuel : rs.length < fuel) :
    skipTo start fuel (encode rs) = .ok (encode (rs.dropWhile fun r => r.1 < start)) := by
  induction fuel generalizing rs with
  | zero => exact absurd hfuel (Nat.not_lt_zero _)
  | succ fuel ih =>
    cases rs with
    | nil => rfl
    | cons r rs =>
      have hr := hsize r List.mem_cons_self
      have hrest := ih (fun r' hr' => hsize r' (List.mem_cons_of_mem _ hr'))
        (Nat.lt_of_succ_lt_succ hfuel)
      rw [encode_cons, skipTo, readRecordHeader_encodeRecord, List.dropWhile_cons]
      by_cases hlt : r.1 < start
      · have hge : ¬ start ≤ r.1 := UInt32.not_le.mpr hlt
        have hmax : ¬ MAX_FILTER_SIZE < (UInt32.ofNat r.2.length).toNat := by
          rw [toNat_ofNat_length hr]
          exact Nat.not_lt.mpr hr
        simp only [if_neg hge, if_neg hmax, decide_eq_true hlt, if_true, drop_length_sized hr]
        exact hrest
      · have hge : start ≤ r.1 := UInt32.not_lt.mp hlt
        simp only [if_pos hge, decide_eq_false hlt, Bool.false_eq_true, if_false]
        rfl

theorem skipTo_zero (rs : List Record) (fuel : Nat) :
    skipTo 0 (fuel + 1) (encode rs) = .ok (encode rs) := by
  cases rs with
  | nil => rfl
  | cons r rs =>
    have hge : (0 : UInt32) ≤ r.1 := UInt32.le_iff_toNat_le.mpr (Nat.zero_le _)
    rw [encode_cons, skipTo, readRecordHeader_encodeRecord]
    simp only [if_pos hge]

/-! ## The index -/

/-- The heights of the records with the positions they stand at, the first of them at `pos`. -/
def layout : Nat → List Record → List (UInt32 × Nat)
  | _, [] => []
  | pos, r :: rs => (r.1, pos) :: layout (pos + (encodeRecord r).length) rs

/-- Notes a position in the index, if it is one that the index keeps. -/
def note (es : List Nat) (p : UInt32 × Nat) : List Nat :=
  if p.1.toNat % INDEX_INTERVAL = 0 then assign es (p.1.toNat / INDEX_INTERVAL) p.2 else es

/-- The entries of the index of a file of records. -/
def indexOf (rs : List Record) : List Nat := (layout HEADER_SIZE rs).foldl note [HEADER_SIZE]

theorem layout_concat (pos : Nat) (rs : List Record) (r : Record) :
    layout pos (rs ++ [r]) = layout pos rs ++ [(r.1, pos + (encode rs).length)] := by
  induction rs generalizing pos with
  | nil => rfl
  | cons r' rs ih =>
    rw [List.cons_append, layout, ih, layout, encode_cons, List.length_append, Nat.add_assoc]
    rfl

theorem indexOf_concat (rs : List Record) (r : Record) :
    indexOf (rs ++ [r]) = note (indexOf rs) (r.1, HEADER_SIZE + (encode rs).length) := by
  unfold indexOf
  rw [layout_concat, List.foldl_append]
  rfl

theorem writeIndexEntry_table (es : List Nat) (height : UInt32) (offset : Nat) :
    (if height.toNat % INDEX_INTERVAL = 0 then writeIndexEntry (table 8 es) height offset
      else table 8 es) = table 8 (note es (height, offset)) := by
  unfold note writeIndexEntry
  simp only
  split
  · rw [Nat.mul_comm, writeAt_table]
  · rfl

theorem buildIndexFrom_encode (hsize : ∀ r ∈ rs, Sized r) {fuel : Nat}
    (hfuel : rs.length < fuel) (pos : Nat) (es : List Nat) :
    buildIndexFrom fuel (encode rs) pos (table 8 es) =
      .ok (table 8 ((layout pos rs).foldl note es)) := by
  induction fuel generalizing rs pos es with
  | zero => exact absurd hfuel (Nat.not_lt_zero _)
  | succ fuel ih =>
    cases rs with
    | nil => rfl
    | cons r rs =>
      have hr := hsize r List.mem_cons_self
      have hmax : ¬ MAX_FILTER_SIZE < (UInt32.ofNat r.2.length).toNat := by
        rw [toNat_ofNat_length hr]
        exact Nat.not_lt.mpr hr
      have hpos : pos + RECORD_HEADER_SIZE + (UInt32.ofNat r.2.length).toNat =
          pos + (encodeRecord r).length := by
        rw [toNat_ofNat_length hr, length_encodeRecord, Nat.add_assoc]
      rw [encode_cons, buildIndexFrom, readRecordHeader_encodeRecord]
      simp only [if_neg hmax, drop_length_sized hr, writeIndexEntry_table, hpos]
      exact ih (fun r' hr' => hsize r' (List.mem_cons_of_mem _ hr'))
        (Nat.lt_of_succ_lt_succ hfuel) _ _

def Increasing (rs : List Record) : Prop := rs.Pairwise fun r r' => r.1 < r'.1

theorem Increasing.before (h : Increasing (rs ++ [r])) :
    Increasing rs ∧ ∀ r' ∈ rs, r'.1.toNat < r.1.toNat := by
  rcases List.pairwise_append.mp h with ⟨hrs, -, hlt⟩
  refine ⟨hrs, fun r' hr' => ?_⟩
  exact UInt32.lt_iff_toNat_lt.mp (hlt r' hr' r (List.mem_singleton_self _))

theorem indexOf_zero (h : Increasing rs) :
    (indexOf rs).getD 0 0 = HEADER_SIZE := by
  induction rs using List.reverseRecOn with
  | nil => rfl
  | append_singleton rs r ih =>
    rcases h.before with ⟨hrs, hlt⟩
    rw [indexOf_concat]
    unfold note
    split
    · rw [getD_assign]
      split
      · next hmod hdiv =>
          -- the block at the height zero comes before every other
          have hzero : r.1.toNat = 0 := by
            have hsplit := Nat.div_add_mod r.1.toNat INDEX_INTERVAL
            simp only at hmod hdiv
            rw [hmod, ← hdiv] at hsplit
            omega
          have hnil : rs = [] := by
            cases rs with
            | nil => rfl
            | cons r' rs =>
              have hlt' := hlt r' List.mem_cons_self
              omega
          rw [hnil]
          rfl
      · exact ih hrs
    · exact ih hrs

/-- An entry of the index splits the records: those before its position are below the blocks it
stands for, and there are records after it. -/
theorem indexOf_split (h : Increasing rs) {k : Nat}
    (hk : (indexOf rs).getD k 0 ≠ 0) :
    ∃ before after, rs = before ++ after ∧
      (indexOf rs).getD k 0 = HEADER_SIZE + (encode before).length ∧
      (∀ r ∈ before, r.1.toNat < INDEX_INTERVAL * k) ∧ (after = [] → rs = []) := by
  induction rs using List.reverseRecOn with
  | nil =>
    refine ⟨[], [], rfl, ?_, fun r hr => absurd hr List.not_mem_nil, fun _ => rfl⟩
    cases k with
    | zero => rfl
    | succ k => exact absurd rfl hk
  | append_singleton rs r ih =>
    rcases h.before with ⟨hrs, hlt⟩
    -- the new record goes to the end, unless the entry is its own
    have hold : (indexOf rs).getD k 0 ≠ 0 → ∃ before after, rs ++ [r] = before ++ after ∧
        (indexOf rs).getD k 0 = HEADER_SIZE + (encode before).length ∧
        (∀ r ∈ before, r.1.toNat < INDEX_INTERVAL * k) ∧ (after = [] → rs ++ [r] = []) := by
      intro hk'
      rcases ih hrs hk' with ⟨before, after, hsplit, hpos, hbefore, -⟩
      refine ⟨before, after ++ [r], ?_, hpos, hbefore, fun hnil => ?_⟩
      · rw [← List.append_assoc, ← hsplit]
      · exact absurd hnil (List.append_ne_nil_of_right_ne_nil _ (List.cons_ne_nil r []))
    rw [indexOf_concat] at hk ⊢
    unfold note at hk ⊢
    split at hk
    · next hmod =>
        rw [if_pos hmod, getD_assign] at *
        split at hk
        · next hkr =>
            rw [if_pos hkr]
            refine ⟨rs, [r], rfl, rfl, fun r' hr' => ?_, fun hnil => by cases hnil⟩
            have hsplit := Nat.div_add_mod r.1.toNat INDEX_INTERVAL
            simp only at hmod hkr
            have hlt' := hlt r' hr'
            rw [hkr]
            omega
        · next hkr =>
            rw [if_neg hkr]
            exact hold hk
    · next hmod =>
        rw [if_neg hmod]
        exact hold hk

end Floresta.Filters
