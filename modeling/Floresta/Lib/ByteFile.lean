import Mathlib.Algebra.Order.Group.Nat
import Mathlib.Data.List.Flatten
import Mathlib.Tactic.Ring

/-!
# ByteFile — files as lists of bytes

Reading from a position, writing over a range (a gap before it is filled with zeros), numbers in
little endian, and tables of such numbers, in which zero stands for an entry that was never written.
-/

namespace ByteFile

/-! ## Numbers -/

/-- The low `w` bytes of a number, the lowest first. -/
def leBytes : Nat → Nat → List UInt8
  | 0, _ => []
  | w + 1, n => UInt8.ofNat n :: leBytes w (n / 256)

def ofLeBytes : List UInt8 → Nat
  | [] => 0
  | b :: bs => b.toNat + 256 * ofLeBytes bs

@[simp] theorem length_leBytes (w n : Nat) : (leBytes w n).length = w := by
  induction w generalizing n with
  | zero => rfl
  | succ w ih => simp [leBytes, ih]

theorem ofLeBytes_leBytes (w n : Nat) : ofLeBytes (leBytes w n) = n % 256 ^ w := by
  induction w generalizing n with
  | zero => simp [leBytes, ofLeBytes, Nat.mod_one]
  | succ w ih =>
    have hbyte : (UInt8.ofNat n).toNat = n % 256 := UInt8.toNat_ofNat'
    rw [leBytes, ofLeBytes, ih, hbyte, pow_succ', Nat.mod_mul]

theorem leBytes_add (v w n : Nat) :
    leBytes (v + w) n = leBytes v n ++ leBytes w (n / 256 ^ v) := by
  induction v generalizing n with
  | zero => simp [leBytes]
  | succ v ih =>
    rw [Nat.succ_add, leBytes, ih, Nat.div_div_eq_div_mul, ← pow_succ']
    rfl

theorem leBytes_add_mul (w n m : Nat) : leBytes w (n + 256 ^ w * m) = leBytes w n := by
  induction w generalizing n with
  | zero => rfl
  | succ w ih =>
    have hdiv : (n + 256 ^ (w + 1) * m) / 256 = n / 256 + 256 ^ w * m := by
      rw [pow_succ', Nat.mul_assoc, Nat.add_mul_div_left _ _ (by decide)]
    have hbyte : UInt8.ofNat (n + 256 ^ (w + 1) * m) = UInt8.ofNat n := by
      rw [UInt8.ofNat_eq_iff_mod_eq_toNat, UInt8.toNat_ofNat', pow_succ', Nat.mul_assoc,
        Nat.add_mul_mod_self_left]
    rw [leBytes, leBytes, hdiv, ih, hbyte]

/-! ## Reading -/

/-- `read_exact`: the next bytes and what is left, if there are enough of them. -/
def readExact (n : Nat) (reader : List UInt8) : Option (List UInt8 × List UInt8) :=
  if n ≤ reader.length then some (reader.take n, reader.drop n) else none

theorem readExact_append {n : Nat} {a b : List UInt8} (h : a.length = n) :
    readExact n (a ++ b) = some (a, b) := by
  unfold readExact
  rw [if_pos (by rw [List.length_append]; omega), List.take_left' h, List.drop_left' h]

theorem readExact_leBytes (w n : Nat) (rest : List UInt8) :
    readExact w (leBytes w n ++ rest) = some (leBytes w n, rest) :=
  readExact_append (length_leBytes w n)

/-! ## Writing -/

def writeAt (file : List UInt8) (pos : Nat) (bytes : List UInt8) : List UInt8 :=
  (file ++ List.replicate (pos - file.length) 0).take pos ++ bytes ++
    file.drop (pos + bytes.length)

theorem writeAt_append {front old rest bytes : List UInt8} {pos : Nat} (hpos : front.length = pos)
    (h : old.length = bytes.length) :
    writeAt (front ++ (old ++ rest)) pos bytes = front ++ (bytes ++ rest) := by
  unfold writeAt
  rw [List.append_assoc front, List.take_left' hpos, ← hpos, List.drop_length_add_append,
    List.drop_left' h, List.append_assoc]

/-! ## Tables -/

/-- A file of numbers, `w` bytes each. -/
def table (w : Nat) (es : List Nat) : List UInt8 := es.flatMap (leBytes w)

@[simp] theorem length_table (w : Nat) (es : List Nat) : (table w es).length = w * es.length := by
  induction es with
  | nil => rfl
  | cons e es ih =>
    change (leBytes w e ++ table w es).length = _
    rw [List.length_append, length_leBytes, ih, List.length_cons]
    ring

theorem table_append (w : Nat) (es es' : List Nat) :
    table w (es ++ es') = table w es ++ table w es' := List.flatMap_append

theorem drop_table (w k : Nat) (es : List Nat) :
    (table w es).drop (w * k) = table w (es.drop k) := by
  induction es generalizing k with
  | nil =>
    rw [List.drop_nil]
    exact List.drop_nil
  | cons e es ih =>
    cases k with
    | zero => rfl
    | succ k =>
      change (leBytes w e ++ table w es).drop (w * (k + 1)) = table w (es.drop k)
      have hpos : w * (k + 1) = (leBytes w e).length + w * k := by
        rw [length_leBytes]
        ring
      rw [hpos, List.drop_length_add_append, ih]

theorem take_table (w k : Nat) (es : List Nat) :
    (table w es).take (w * k) = table w (es.take k) := by
  induction es generalizing k with
  | nil =>
    rw [List.take_nil]
    exact List.take_nil
  | cons e es ih =>
    cases k with
    | zero =>
      rw [Nat.mul_zero, List.take_zero, List.take_zero]
      rfl
    | succ k =>
      change (leBytes w e ++ table w es).take (w * (k + 1)) = leBytes w e ++ table w (es.take k)
      have hpos : w * (k + 1) = (leBytes w e).length + w * k := by
        rw [length_leBytes]
        ring
      rw [hpos, List.take_length_add_append, ih]

theorem leBytes_zero (w : Nat) : leBytes w 0 = List.replicate w 0 := by
  induction w with
  | zero => rfl
  | succ w ih => rw [leBytes, Nat.zero_div, ih, List.replicate_succ]; rfl

theorem table_replicate_zero (w m : Nat) :
    table w (List.replicate m 0) = List.replicate (w * m) 0 := by
  induction m with
  | zero => rfl
  | succ m ih =>
    change leBytes w 0 ++ table w (List.replicate m 0) = _
    rw [leBytes_zero, ih, List.replicate_append_replicate]
    congr 1
    ring

/-- Sets an entry of a table; the entries between the end and a new one are zero. -/
def assign (es : List Nat) (k v : Nat) : List Nat :=
  (es ++ List.replicate (k - es.length) 0).take k ++ [v] ++ es.drop (k + 1)

theorem writeAt_table (w : Nat) (es : List Nat) (k v : Nat) :
    writeAt (table w es) (w * k) (leBytes w v) = table w (assign es k v) := by
  have hpad : w * k - w * es.length = w * (k - es.length) := (Nat.mul_sub w k es.length).symm
  have hpos : w * k + w = w * (k + 1) := by ring
  have hsingle : table w [v] = leBytes w v := by simp [table]
  unfold writeAt assign
  rw [length_table, length_leBytes, hpad, hpos, ← table_replicate_zero, ← table_append,
    take_table, drop_table, table_append, table_append, hsingle]

theorem getD_assign (es : List Nat) (k v j : Nat) :
    (assign es k v).getD j 0 = if j = k then v else es.getD j 0 := by
  have hlen : ((es ++ List.replicate (k - es.length) 0).take k).length = k := by
    rw [List.length_take, List.length_append, List.length_replicate]
    omega
  unfold assign
  rw [List.append_assoc]
  simp only [List.getD_eq_getElem?_getD]
  rcases Nat.lt_trichotomy j k with hlt | rfl | hgt
  · rw [if_neg (by omega), List.getElem?_append_left (by omega), List.getElem?_take_of_lt hlt]
    by_cases hj : j < es.length
    · rw [List.getElem?_append_left hj]
    · rw [List.getElem?_append_right (by omega), List.getElem?_eq_none (l := es) (by omega)]
      by_cases hj' : j - es.length < k - es.length
      · rw [List.getElem?_replicate_of_lt hj']
        rfl
      · rw [List.getElem?_eq_none (by simpa using hj')]
  · rw [if_pos rfl, List.getElem?_append_right (by omega), hlen]
    simp
  · rw [if_neg (by omega), List.getElem?_append_right (by omega), hlen]
    have hsucc : j - k = (j - k - 1) + 1 := by omega
    rw [hsucc, List.singleton_append, List.getElem?_cons_succ, List.getElem?_drop]
    congr 2
    omega

def chunksExact (w : Nat) (bytes : List UInt8) : List (List UInt8) :=
  (List.range (bytes.length / w)).map fun i => (bytes.drop (w * i)).take w

theorem chunksExact_table {w : Nat} (hw : 0 < w) (es : List Nat) :
    (chunksExact w (table w es)).map ofLeBytes = es.map (· % 256 ^ w) := by
  have hcount : (table w es).length / w = es.length := by
    rw [length_table, Nat.mul_div_cancel_left _ hw]
  refine List.ext_getElem ?_ ?_
  · simp only [chunksExact, List.length_map, List.length_range, hcount]
  · intro i hi hi'
    have hlt : i < es.length := by simpa using hi'
    simp only [chunksExact, List.getElem_map, List.getElem_range]
    have hchunk : ((table w es).drop (w * i)).take w = leBytes w (es.get ⟨i, hlt⟩) := by
      have hone := take_table w 1 (es.drop i)
      rw [Nat.mul_one] at hone
      rw [drop_table, hone, List.drop_eq_getElem_cons hlt]
      exact List.append_nil _
    rw [hchunk, ofLeBytes_leBytes]
    rfl

theorem find_written {es : List Nat} (hfirst : es.getD 0 0 ≠ 0) (n : Nat) :
    ∃ k ≤ n, es.getD k 0 ≠ 0 ∧
      (es.take (n + 1)).reverse.find? (fun e => e ≠ 0) = some (es.getD k 0) := by
  have hpos : 0 < es.length := by
    by_contra hzero
    have hnil : es = [] := List.length_eq_zero_iff.mp (by omega)
    rw [hnil] at hfirst
    exact hfirst rfl
  induction n with
  | zero =>
    refine ⟨0, Nat.le_refl 0, hfirst, ?_⟩
    cases es with
    | nil => exact absurd hpos (by simp)
    | cons e es =>
      have he : e ≠ 0 := hfirst
      simp [he]
  | succ n ih =>
    by_cases hn : n + 1 < es.length
    · have htake : es.take (n + 1 + 1) = es.take (n + 1) ++ [es[n + 1]] :=
        (List.take_append_getElem hn).symm
      have hget : es.getD (n + 1) 0 = es[n + 1] := by simp [hn]
      rw [htake, List.reverse_append]
      by_cases hzero : es[n + 1] = 0
      · rcases ih with ⟨k, hk, hwritten, hfind⟩
        exact ⟨k, by omega, hwritten, by simpa [hzero] using hfind⟩
      · exact ⟨n + 1, Nat.le_refl _, by rw [hget]; exact hzero, by rw [hget]; simp [hzero]⟩
    · rcases ih with ⟨k, hk, hwritten, hfind⟩
      refine ⟨k, by omega, hwritten, ?_⟩
      rw [List.take_of_length_le (by omega)] at hfind ⊢
      exact hfind

end ByteFile
