import Floresta.Filters.Answers
import Floresta.Wire.ChainSelector

/-!
# Download — filters from the network

The handler of `BlockFilter` messages in `running_ctx.rs` stores the filter of the next block and
keeps every other one in a buffer.  It then looks in the buffer for the block it has just stored, not
for the one after it: a filter that came early is never taken out in its turn.
-/

namespace Floresta.Filters

open Fallible ByteFile

/-- The chain, the peers and the configuration of the node, as the handler asks them. -/
structure Node where
  getBlockHeight : BlockHash → Except Wire.WireError (Option UInt32)
  getBlockHash : UInt32 → Except Wire.WireError BlockHash
  getHeight : Except Wire.WireError UInt32
  hasCompactFiltersPeer : Bool
  /-- `send_to_fast_peer` with a request for the filters up to a block, from a height on -/
  sendGetFilter : BlockHash → UInt32 → Except Wire.WireError Wire.PeerId
  /-- `filter_start_height`; a negative number counts from the tip -/
  filterStartHeight : Option Int

structure FilterSync where
  filters : FlatFiltersStore
  inflightFilters : HashMap UInt32 BlockFilter
  lastFilter : BlockHash
  /-- the peer of the request `GetFilters` that is not answered yet -/
  getFilters : Option Wire.PeerId

abbrev SyncM := Prog FilterSync Wire.Fault

def wire {α : Type} (x : Except Wire.WireError α) : SyncM α := Prog.lift (x.mapError .error)

def ofStore {α : Type} (x : Except Fault α) : SyncM α :=
  Prog.lift (x.mapError fun _ => .error .compactBlockFiltersError)

def savedHeight : SyncM UInt32 := fun st => ofStore (getHeight st.filters) st

def pushFilter (filter : BlockFilter) (height : UInt32) : SyncM Unit := fun st =>
  match putFilter st.filters filter height with
  | .ok filters => (.ok (), { st with filters := filters })
  | .error _ => (.error (.error .compactBlockFiltersError), st)

def saveHeight (height : UInt32) : SyncM Unit :=
  Prog.modify fun st => { st with filters := setHeight st.filters height }

variable (N : Node)

/-- Where the download starts on a node that has no filters yet. -/
def firstHeight (bestHeight : UInt32) : UInt32 :=
  let userHeight := N.filterStartHeight.getD 1
  let height :=
    if userHeight < 0 then bestHeight.toNat - userHeight.natAbs else userHeight.toNat
  UInt32.ofNat (height - 1)

def downloadFilters : SyncM Unit := do
  if ← Prog.read fun st => st.getFilters.isSome then pure ()
  else if !N.hasCompactFiltersPeer then pure ()
  else do
    let height ← savedHeight
    let bestHeight ← wire N.getHeight
    let height ←
      if height = 0 then do
        saveHeight (firstHeight N bestHeight)
        pure (firstHeight N bestHeight)
      else pure height
    if bestHeight ≤ height then pure ()
    else do
      let stop := if bestHeight < height + 500 then bestHeight else height + 500
      let stopHash ← wire (N.getBlockHash stop)
      Prog.modify fun st => { st with lastFilter := stopHash }
      let peer ← wire (N.sendGetFilter stopHash (height + 1))
      Prog.modify fun st => { st with getFilters := some peer }

/-- The loop that empties the buffer: the key is the height that was stored last. -/
def drain : Nat → UInt32 → SyncM UInt32
  | 0, _ => Prog.fail .diverged
  | fuel + 1, currentHeight => do
      match ← Prog.read fun st => st.inflightFilters.lookup currentHeight with
      | none => pure currentHeight
      | some filter => do
          Prog.modify fun st =>
            { st with inflightFilters := st.inflightFilters.erase currentHeight }
          pushFilter filter currentHeight
          drain fuel (currentHeight + 1)

/-- The handler of a `BlockFilter` message. -/
def handleBlockFilter (hash : BlockHash) (filter : BlockFilter) : SyncM Unit := do
  let currentHeight ← savedHeight
  match ← wire (N.getBlockHeight hash) with
  | none => pure ()
  | some thisHeight =>
    if currentHeight + 1 ≠ thisHeight then
      Prog.modify fun st =>
        { st with inflightFilters := st.inflightFilters.insert thisHeight filter }
    else do
      pushFilter filter (currentHeight + 1)
      -- every round takes an entry out of the buffer
      let rounds ← Prog.read fun st => st.inflightFilters.keys.card
      let currentHeight ← drain (rounds + 1) (currentHeight + 1)
      saveHeight currentHeight
      let currentHash ← wire (N.getBlockHash currentHeight)
      if ← Prog.read fun st =>
          decide (st.lastFilter = currentHash ∧ st.inflightFilters = ∅) then do
        Prog.modify fun st => { st with getFilters := none }
        downloadFilters N
      else pure ()

structure Message where
  hash : BlockHash
  filter : BlockFilter

def receive (st : FilterSync) (msgs : List Message) : FilterSync :=
  msgs.foldl (fun st m => (handleBlockFilter N m.hash m.filter st).2) st

/-! ## One message -/

variable {N} {st : FilterSync} {rs : List Record} {saved : UInt32}

theorem savedHeight_eq (h : HoldsAt st.filters saved rs) : savedHeight st = (.ok saved, st) := by
  unfold savedHeight
  rw [h.getHeight]
  rfl

/-- Once a height is saved, asking for more filters leaves the stored ones and the buffer alone. -/
theorem downloadFilters_keeps (h : HoldsAt st.filters saved rs) (hsaved : saved ≠ 0) :
    (downloadFilters N st).2.filters = st.filters ∧
      (downloadFilters N st).2.inflightFilters = st.inflightFilters := by
  have hheight := savedHeight_eq h
  -- what follows the reading of the height writes neither
  have hstays : ∀ (m : SyncM Unit), Prog.Stays (fun st' => st'.filters = st.filters ∧
      st'.inflightFilters = st.inflightFilters) m → (m st).2.filters = st.filters ∧
        (m st).2.inflightFilters = st.inflightFilters := fun m hm => hm st ⟨rfl, rfl⟩
  unfold downloadFilters
  simp only [Prog.bind_apply, Prog.read]
  split
  · exact ⟨rfl, rfl⟩
  · split
    · exact ⟨rfl, rfl⟩
    · rw [Prog.bind_apply, hheight]
      refine hstays _ (Prog.Stays.bind (Prog.Stays.lift _) fun bestHeight => ?_)
      rw [if_neg hsaved]
      refine Prog.Stays.bind (Prog.Stays.pure _) fun height => ?_
      refine Prog.Stays.ite (Prog.Stays.pure _) ?_
      refine Prog.Stays.bind (Prog.Stays.lift _) fun stopHash => ?_
      refine Prog.Stays.bind (Prog.Stays.modify fun _ h => h) fun _ => ?_
      refine Prog.Stays.bind (Prog.Stays.lift _) fun peer => ?_
      exact Prog.Stays.modify fun _ h => h

variable {m : Message} {height : UInt32}

theorem handle_buffers (h : HoldsAt st.filters saved rs)
    (hheight : N.getBlockHeight m.hash = .ok (some height)) (hne : saved + 1 ≠ height) :
    (handleBlockFilter N m.hash m.filter st).2 =
      { st with inflightFilters := st.inflightFilters.insert height m.filter } := by
  have hsaved := savedHeight_eq h
  unfold handleBlockFilter
  simp only [Prog.bind_apply, hsaved, wire, Prog.lift, hheight, Except.mapError, if_pos hne]
  rfl

/-- The next filter is stored, if it is not too large; the buffer has nothing for its height. -/
theorem handle_stores (h : HoldsAt st.filters saved rs)
    (hheight : N.getBlockHeight m.hash = .ok (some (saved + 1))) (hpos : saved + 1 ≠ 0)
    (hbuffer : st.inflightFilters.lookup (saved + 1) = none)
    (htaken : Taken (saved + 1, m.filter)) :
    HoldsAt (handleBlockFilter N m.hash m.filter st).2.filters (saved + 1)
        (rs ++ [(saved + 1, m.filter)]) ∧
      (handleBlockFilter N m.hash m.filter st).2.inflightFilters = st.inflightFilters := by
  have hsaved := savedHeight_eq h
  rcases h.putFilter htaken with ⟨filters, hput, hholds⟩
  have hpush : pushFilter m.filter (saved + 1) st = (.ok (), { st with filters := filters }) := by
    unfold pushFilter
    rw [hput]
  have hdrain : drain (st.inflightFilters.keys.card + 1) (saved + 1)
      { st with filters := filters } = (.ok (saved + 1), { st with filters := filters }) := by
    unfold drain
    simp only [Prog.bind_apply, Prog.read, hbuffer]
    rfl
  have hafter := hholds.holds.setHeight (saved + 1)
  unfold handleBlockFilter
  simp only [Prog.bind_apply, hsaved, wire, Prog.lift, hheight, Except.mapError, hpush, Prog.read,
    ne_eq, not_true_eq_false, if_false, hdrain, saveHeight, Prog.modify]
  cases N.getBlockHash (saved + 1) with
  | error e => exact ⟨hafter, rfl⟩
  | ok currentHash =>
    simp only
    split
    · have hnext : HoldsAt (FilterSync.filters
          { st with filters := setHeight filters (saved + 1), getFilters := none })
          (saved + 1) (rs ++ [(saved + 1, m.filter)]) := hafter
      rcases downloadFilters_keeps hnext hpos with ⟨hfilters, hinflight⟩
      exact ⟨hfilters.symm ▸ hafter, hinflight⟩
    · exact ⟨hafter, rfl⟩

theorem handle_refuses (h : HoldsAt st.filters saved rs)
    (hheight : N.getBlockHeight m.hash = .ok (some (saved + 1)))
    (htaken : ¬ Taken (saved + 1, m.filter)) : (handleBlockFilter N m.hash m.filter st).2 = st := by
  have hsaved := savedHeight_eq h
  have hpush : pushFilter m.filter (saved + 1) st =
      (.error (.error .compactBlockFiltersError), st) := by
    unfold pushFilter
    rw [putFilter_refuses htaken]
  unfold handleBlockFilter
  simp only [Prog.bind_apply, hsaved, wire, Prog.lift, hheight, Except.mapError, hpush, ne_eq,
    not_true_eq_false, if_false]

/-! ## Sequences of messages -/

/-- The message is about a block at one of the `n` heights after `start`, and carries the filter of
that block. -/
def Expected (N : Node) (filterAt : UInt32 → BlockFilter) (start : UInt32) (n : Nat)
    (m : Message) : Prop :=
  ∃ height, N.getBlockHeight m.hash = .ok (some height) ∧ m.filter = filterAt height ∧
    start.toNat < height.toNat ∧ height.toNat ≤ start.toNat + n

/-- A message about the block at the height has arrived. -/
def Arrived (N : Node) (msgs : List Message) (height : UInt32) : Prop :=
  ∃ m ∈ msgs, N.getBlockHeight m.hash = .ok (some height)

def after (start : UInt32) (i : Nat) : UInt32 := UInt32.ofNat (start.toNat + i)

def recordsAfter (filterAt : UInt32 → BlockFilter) (start : UInt32) (n : Nat) : List Record :=
  (List.range n).map fun i => (after start (i + 1), filterAt (after start (i + 1)))

/-- What the download promises: the records of the `n` heights are appended in order, the last of
them is saved as the height, the buffer has nothing left for them, and at any time the saved height
is the last one up to which everything has arrived. -/
structure Delivered (N : Node) (st : FilterSync) (rs : List Record)
    (filterAt : UInt32 → BlockFilter) (start : UInt32) (n : Nat) (msgs : List Message) : Prop where
  records : HoldsAt (receive N st msgs).filters (after start n)
    (rs ++ recordsAfter filterAt start n)
  drained : ∀ {height filter}, (receive N st msgs).inflightFilters.lookup height = some filter →
    start.toNat + n < height.toNat
  prefixes : ∀ before, before <+: msgs → ∃ height,
    getHeight (receive N st before).filters = .ok height ∧ start.toNat ≤ height.toNat ∧
      (∀ k : UInt32, start.toNat < k.toNat → k.toNat ≤ height.toNat → Arrived N before k) ∧
      ∀ k : UInt32, k.toNat = height.toNat + 1 → ¬ Arrived N before k

/-- The messages come in the order of their blocks, each of them once. -/
def InOrder (N : Node) (start : UInt32) (n : Nat) (msgs : List Message) : Prop :=
  msgs.map (fun m => N.getBlockHeight m.hash) =
    (List.range n).map fun i => .ok (some (after start (i + 1)))

theorem receive_concat (N : Node) (st : FilterSync) (msgs : List Message) (m : Message) :
    receive N st (msgs ++ [m]) = (handleBlockFilter N m.hash m.filter (receive N st msgs)).2 := by
  unfold receive
  rw [List.foldl_append]
  rfl

variable {filterAt : UInt32 → BlockFilter} {start : UInt32} {n : Nat} {msgs : List Message}

theorem toNat_succ {x : UInt32} (h : x + 1 ≠ 0) : (x + 1).toNat = x.toNat + 1 := by
  have hlt := x.toNat_lt
  have hadd : (x + 1).toNat = (x.toNat + 1) % 2 ^ 32 := UInt32.toNat_add x 1
  have hne : (x + 1).toNat ≠ 0 := fun hzero => h (UInt32.toNat_inj.mp hzero)
  omega

theorem toNat_after {i : Nat} (h : start.toNat + i < 2 ^ 32) :
    (after start i).toNat = start.toNat + i := by
  unfold after
  rw [UInt32.toNat_ofNat', Nat.mod_eq_of_lt h]

theorem after_succ {i : Nat} (h : start.toNat + (i + 1) < 2 ^ 32) :
    after start i + 1 = after start (i + 1) := by
  rw [← UInt32.toNat_inj, toNat_after h, UInt32.toNat_add, toNat_after (by omega)]
  change (start.toNat + i + 1) % 2 ^ 32 = _
  omega

theorem recordsAfter_succ (filterAt : UInt32 → BlockFilter) (start : UInt32) (n : Nat) :
    recordsAfter filterAt start (n + 1) =
      recordsAfter filterAt start n ++ [(after start (n + 1), filterAt (after start (n + 1)))] := by
  unfold recordsAfter
  rw [List.range_succ, List.map_append]
  rfl

theorem InOrder.length_eq (horder : InOrder N start n msgs) : msgs.length = n := by
  have hlengths := congrArg List.length horder
  simpa using hlengths

theorem arrived_inOrder (hbound : start.toNat + n < 2 ^ 32) (horder : InOrder N start n msgs)
    {i : Nat} (hi : i ≤ n) (k : UInt32) :
    Arrived N (msgs.take i) k ↔ start.toNat < k.toNat ∧ k.toNat ≤ start.toNat + i := by
  have htake : (msgs.take i).map (fun m => N.getBlockHeight m.hash) =
      (List.range i).map fun j => .ok (some (after start (j + 1))) := by
    rw [List.map_take, horder, ← List.map_take, List.take_range, Nat.min_eq_left hi]
  have hmem : Arrived N (msgs.take i) k ↔
      (.ok (some k) : Except Wire.WireError (Option UInt32)) ∈
        (List.range i).map fun j => .ok (some (after start (j + 1))) := by
    rw [← htake, List.mem_map]
    exact Iff.rfl
  rw [hmem, List.mem_map]
  constructor
  · rintro ⟨j, hj, heq⟩
    cases heq
    have hlt := List.mem_range.mp hj
    rw [toNat_after (by omega)]
    omega
  · rintro ⟨hlow, hhigh⟩
    refine ⟨k.toNat - start.toNat - 1, List.mem_range.mpr (by omega), ?_⟩
    have hk : after start (k.toNat - start.toNat - 1 + 1) = k := by
      rw [← UInt32.toNat_inj, toNat_after (by omega)]
      omega
    rw [hk]

section Sequential

variable (h : HoldsAt st.filters start rs) (hempty : st.inflightFilters = ∅)
  (hbound : start.toNat + n < 2 ^ 32) (hexpected : ∀ m ∈ msgs, Expected N filterAt start n m)
  (htaken : ∀ i < n, Taken (after start (i + 1), filterAt (after start (i + 1))))
  (horder : InOrder N start n msgs)

include h hempty hbound hexpected htaken horder

/-- In order, the messages up to the `i`-th have stored their filters and nothing is buffered. -/
theorem receive_inOrder (i : Nat) (hi : i ≤ n) :
    HoldsAt (receive N st (msgs.take i)).filters (after start i)
        (rs ++ recordsAfter filterAt start i) ∧
      (receive N st (msgs.take i)).inflightFilters = ∅ := by
  have hlength := horder.length_eq
  induction i with
  | zero =>
    refine ⟨?_, hempty⟩
    have hstart : after start 0 = start := UInt32.ofNat_toNat
    rw [hstart]
    change HoldsAt st.filters start (rs ++ [])
    rw [List.append_nil]
    exact h
  | succ i ih =>
    rcases ih (by omega) with ⟨hholds, hbuffer⟩
    have hlt : i < msgs.length := by omega
    have hheight : N.getBlockHeight (msgs.get ⟨i, hlt⟩).hash =
        .ok (some (after start (i + 1))) := by
      have hget := congrArg (fun l => l[i]?) horder
      simp only [List.getElem?_map, List.getElem?_eq_getElem hlt, List.getElem?_range hi,
        Option.map_some, Option.some.injEq] at hget
      exact hget
    have hsucc : after start i + 1 = after start (i + 1) := after_succ (by omega)
    have hpos : after start (i + 1) ≠ 0 := by
      intro hzero
      have htoNat := toNat_after (by omega : start.toNat + (i + 1) < 2 ^ 32)
      rw [hzero] at htoNat
      have hzero' : (0 : UInt32).toNat = 0 := rfl
      omega
    have hfilter : (msgs.get ⟨i, hlt⟩).filter = filterAt (after start (i + 1)) := by
      rcases hexpected _ (List.getElem_mem hlt) with ⟨height, hheight', hfilter, -⟩
      rw [List.get_eq_getElem] at hheight
      rw [hheight] at hheight'
      cases hheight'
      exact hfilter
    have htake : msgs.take (i + 1) = msgs.take i ++ [msgs.get ⟨i, hlt⟩] :=
      (List.take_append_getElem hlt).symm
    have hstores := handle_stores hholds (hsucc.symm ▸ hheight) (hsucc.symm ▸ hpos)
      (by rw [hbuffer]; rfl) (by rw [hsucc, hfilter]; exact htaken i (by omega))
    rw [htake, receive_concat, recordsAfter_succ, ← List.append_assoc, ← hsucc]
    rw [hsucc, hfilter] at hstores ⊢
    exact ⟨hstores.1, hstores.2.trans hbuffer⟩

theorem delivered_of_inOrder : Delivered N st rs filterAt start n msgs := by
  have hlength := horder.length_eq
  have hreceive := receive_inOrder h hempty hbound hexpected htaken horder
  have hall : msgs.take n = msgs := List.take_of_length_le (Nat.le_of_eq hlength)
  refine ⟨?_, ?_, ?_⟩
  · have hn := (hreceive n (Nat.le_refl n)).1
    rw [hall] at hn
    exact hn
  · intro height filter hlookup
    have hn := (hreceive n (Nat.le_refl n)).2
    rw [hall] at hn
    rw [hn] at hlookup
    cases hlookup
  · intro before hbefore
    have hle : before.length ≤ n := hlength ▸ hbefore.length_le
    have htake : before = msgs.take before.length := List.prefix_iff_eq_take.mp hbefore
    have hholds := (hreceive before.length hle).1
    have harrived := arrived_inOrder hbound horder hle
    rw [← htake] at hholds harrived
    have htoNat := toNat_after (by omega : start.toNat + before.length < 2 ^ 32)
    refine ⟨after start before.length, hholds.getHeight, by omega, fun k hlow hhigh => ?_,
      fun k hk => ?_⟩
    · exact (harrived k).mpr ⟨hlow, by omega⟩
    · rw [harrived]
      omega

end Sequential

/-! ## Nothing is ever taken out of the buffer -/

/-- What is known of the node after some of the messages: the buffer has only what arrived. -/
structure Midway (N : Node) (msgs : List Message) (st : FilterSync) (saved : UInt32) : Prop where
  holds : ∃ rs, HoldsAt st.filters saved rs
  buffered : ∀ {k filter}, st.inflightFilters.lookup k = some filter → Arrived N msgs k

theorem Arrived.concat {k : UInt32} (h : Arrived N msgs k) (m : Message) :
    Arrived N (msgs ++ [m]) k := by
  rcases h with ⟨m', hm', hheight⟩
  exact ⟨m', List.mem_append_left _ hm', hheight⟩

/-- A message about the block after the saved one, which had not arrived, is stored or refused;
every other message is buffered. -/
theorem Midway.message (h : Midway N msgs st saved)
    (hmissing : ∀ k : UInt32, k.toNat = saved.toNat + 1 → ¬ Arrived N msgs k)
    (hheight : N.getBlockHeight m.hash = .ok (some height)) (hpos : height ≠ 0) :
    ∃ saved', Midway N (msgs ++ [m]) (handleBlockFilter N m.hash m.filter st).2 saved' ∧
      ((saved + 1 ≠ height ∧
          (handleBlockFilter N m.hash m.filter st).2 =
            { st with inflightFilters := st.inflightFilters.insert height m.filter }) ∨
        (saved + 1 = height ∧
          (handleBlockFilter N m.hash m.filter st).2.inflightFilters = st.inflightFilters ∧
          ((Taken (height, m.filter) ∧ saved' = height) ∨
            (¬ Taken (height, m.filter) ∧ saved' = saved)))) := by
  rcases h.holds with ⟨rs, hholds⟩
  have harrived : Arrived N (msgs ++ [m]) height :=
    ⟨m, List.mem_append_right _ (List.mem_singleton_self m), hheight⟩
  by_cases hnext : saved + 1 = height
  · subst hnext
    have htoNat := toNat_succ hpos
    have hbuffer : st.inflightFilters.lookup (saved + 1) = none := by
      cases hlookup : st.inflightFilters.lookup (saved + 1) with
      | none => rfl
      | some filter => exact absurd (h.buffered hlookup) (hmissing _ htoNat)
    by_cases htaken : Taken (saved + 1, m.filter)
    · rcases handle_stores hholds hheight hpos hbuffer htaken with ⟨hholds', hsame⟩
      refine ⟨saved + 1, ⟨⟨_, hholds'⟩, fun hlookup => ?_⟩, .inr ⟨rfl, hsame, .inl ⟨htaken, rfl⟩⟩⟩
      rw [hsame] at hlookup
      exact (h.buffered hlookup).concat m
    · have hsame := handle_refuses hholds hheight htaken
      rw [hsame]
      exact ⟨saved, ⟨⟨rs, hholds⟩, fun hlookup => (h.buffered hlookup).concat m⟩,
        .inr ⟨rfl, rfl, .inr ⟨htaken, rfl⟩⟩⟩
  · have hinsert := handle_buffers hholds hheight hnext
    rw [hinsert]
    refine ⟨saved, ⟨⟨rs, hholds⟩, fun {k filter} hlookup => ?_⟩, .inl ⟨hnext, rfl⟩⟩
    by_cases hk : k = height
    · exact hk ▸ harrived
    · rw [Finmap.lookup_insert_of_ne _ hk] at hlookup
      exact (h.buffered hlookup).concat m

section Converse

variable (hexpected : ∀ m ∈ msgs, Expected N filterAt start n m)
  (hdelivered : Delivered N st rs filterAt start n msgs)

include hdelivered

theorem Delivered.missing {before : List Message} (hbefore : before <+: msgs)
    (hmid : Midway N before (receive N st before) saved) :
    ∀ k : UInt32, k.toNat = saved.toNat + 1 → ¬ Arrived N before k := by
  rcases hdelivered.prefixes before hbefore with ⟨height, hheight, -, -, hmissing⟩
  rcases hmid.holds with ⟨rs', hholds⟩
  rw [hholds.getHeight] at hheight
  cases hheight
  exact hmissing

include hexpected

theorem Delivered.buffered_stays {before rest : List Message} (hsplit : before ++ rest = msgs)
    (hmid : Midway N before (receive N st before) saved) {k : UInt32}
    (hk : k ∈ (receive N st before).inflightFilters) :
    k ∈ (receive N st msgs).inflightFilters := by
  induction rest generalizing before saved with
  | nil =>
    rw [List.append_nil] at hsplit
    rw [← hsplit]
    exact hk
  | cons m rest ih =>
    have hmem : m ∈ msgs := by
      rw [← hsplit]
      exact List.mem_append_right _ List.mem_cons_self
    rcases hexpected m hmem with ⟨height, hheight, -, hlow, -⟩
    have hpos : height ≠ 0 := by
      rintro rfl
      exact Nat.not_lt_zero _ hlow
    have hmissing := hdelivered.missing ⟨m :: rest, hsplit⟩ hmid
    rcases hmid.message hmissing hheight hpos with ⟨saved', hmid', hcase⟩
    have hsplit' : (before ++ [m]) ++ rest = msgs := by
      rw [List.append_assoc]
      exact hsplit
    rw [← receive_concat] at hmid' hcase
    refine ih hsplit' hmid' ?_
    rcases hcase with ⟨-, hinsert⟩ | ⟨-, hsame, -⟩
    · rw [hinsert]
      exact Finmap.mem_insert.mpr (.inr hk)
    · rw [hsame]
      exact hk

/-- Every message that the promise covers is about the block after the saved one, and is stored. -/
theorem Delivered.message {before rest : List Message} {m : Message}
    (hsplit : before ++ m :: rest = msgs)
    (hmid : Midway N before (receive N st before) saved) :
    N.getBlockHeight m.hash = .ok (some (saved + 1)) ∧
      Midway N (before ++ [m]) (receive N st (before ++ [m])) (saved + 1) ∧
      Taken (saved + 1, m.filter) := by
  have hmem : m ∈ msgs := by
    rw [← hsplit]
    exact List.mem_append_right _ List.mem_cons_self
  rcases hexpected m hmem with ⟨height, hheight, -, hlow, hhigh⟩
  have hpos : height ≠ 0 := by
    rintro rfl
    exact Nat.not_lt_zero _ hlow
  have hmissing := hdelivered.missing ⟨m :: rest, hsplit⟩ hmid
  have hsplit' : (before ++ [m]) ++ rest = msgs := by
    rw [List.append_assoc]
    exact hsplit
  rcases hmid.message hmissing hheight hpos with ⟨saved', hmid', hcase⟩
  rw [← receive_concat] at hmid' hcase
  rcases hcase with ⟨-, hinsert⟩ | ⟨rfl, -, hstored⟩
  · -- a buffered filter is left at the end
    have hbuffered : height ∈ (receive N st (before ++ [m])).inflightFilters := by
      rw [hinsert]
      exact Finmap.mem_insert.mpr (.inl rfl)
    have hleft := hdelivered.buffered_stays hexpected hsplit' hmid' hbuffered
    rcases Finmap.mem_iff.mp hleft with ⟨filter, hfilter⟩
    have hdrained := hdelivered.drained hfilter
    omega
  · rcases hstored with ⟨htaken, rfl⟩ | ⟨-, rfl⟩
    · exact ⟨hheight, hmid', htaken⟩
    · -- a refused filter has arrived without being counted
      have hmissing' := hdelivered.missing ⟨rest, hsplit'⟩ hmid'
      exact absurd ⟨m, List.mem_append_right _ (List.mem_singleton_self m), hheight⟩
        (hmissing' _ (toNat_succ hpos))

theorem Delivered.inOrder (hbound : start.toNat + n < 2 ^ 32) {before rest : List Message}
    (hsplit : before ++ rest = msgs)
    (hmid : Midway N before (receive N st before) (after start before.length))
    (horder : InOrder N start before.length before) (hle : before.length ≤ n)
    (htaken : ∀ i < before.length, Taken (after start (i + 1), filterAt (after start (i + 1)))) :
    InOrder N start msgs.length msgs ∧ msgs.length ≤ n ∧
      (∃ rs', HoldsAt (receive N st msgs).filters (after start msgs.length) rs') ∧
      ∀ i < msgs.length, Taken (after start (i + 1), filterAt (after start (i + 1))) := by
  induction rest generalizing before with
  | nil =>
    rw [List.append_nil] at hsplit
    subst hsplit
    exact ⟨horder, hle, hmid.holds, htaken⟩
  | cons m rest ih =>
    rcases hdelivered.message hexpected hsplit hmid with ⟨hheight, hmid', htaken'⟩
    have hmem : m ∈ msgs := by
      rw [← hsplit]
      exact List.mem_append_right _ List.mem_cons_self
    rcases hexpected m hmem with ⟨height, hheight', hfilter, hlow, hhigh⟩
    rw [hheight] at hheight'
    cases hheight'
    have hpos : after start before.length + 1 ≠ 0 := by
      intro hzero
      rw [hzero] at hlow
      exact Nat.not_lt_zero _ hlow
    have htoNat := toNat_succ hpos
    have hprev := toNat_after (by omega : start.toNat + before.length < 2 ^ 32)
    have hsucc : after start before.length + 1 = after start (before.length + 1) :=
      after_succ (by omega)
    have hlength : (before ++ [m]).length = before.length + 1 := List.length_append
    refine @ih (before ++ [m]) ?_ ?_ ?_ ?_ ?_
    · rw [List.append_assoc]
      exact hsplit
    · rw [hlength, ← hsucc]
      exact hmid'
    · unfold InOrder at horder ⊢
      rw [hlength, List.range_succ, List.map_append, List.map_append, horder]
      simp only [List.map_cons, List.map_nil, hheight, hsucc]
    · rw [hlength]
      omega
    · intro i hi
      rw [hlength] at hi
      rcases Nat.lt_succ_iff_lt_or_eq.mp hi with hlt | rfl
      · exact htaken i hlt
      · rw [hfilter, hsucc] at htaken'
        exact htaken'

end Converse

/-- The download does what it promises exactly if the messages come in the order of their blocks,
each of them once, and no filter is too large for the store. -/
theorem receive_delivered (h : HoldsAt st.filters start rs) (hempty : st.inflightFilters = ∅)
    (hbound : start.toNat + n < 2 ^ 32) (hexpected : ∀ m ∈ msgs, Expected N filterAt start n m) :
    Delivered N st rs filterAt start n msgs ↔
      InOrder N start n msgs ∧
        ∀ i < n, Taken (after start (i + 1), filterAt (after start (i + 1))) := by
  constructor
  · intro hdelivered
    have hstart : after start ([] : List Message).length = start := UInt32.ofNat_toNat
    have hmid : Midway N [] (receive N st []) (after start ([] : List Message).length) := by
      rw [hstart]
      refine ⟨⟨rs, h⟩, fun {k filter} hlookup => ?_⟩
      have hnone : (receive N st []).inflightFilters = ∅ := hempty
      rw [hnone] at hlookup
      cases hlookup
    rcases hdelivered.inOrder hexpected hbound (List.nil_append msgs) hmid rfl (Nat.zero_le n)
      (fun i hi => absurd hi (Nat.not_lt_zero i)) with ⟨horder, hle, ⟨rs', hholds⟩, htaken⟩
    -- the saved height counts the messages
    have hlength : msgs.length = n := by
      have hheight := hholds.getHeight.symm.trans hdelivered.records.getHeight
      have heq := congrArg UInt32.toNat (Except.ok.inj hheight)
      rw [toNat_after (by omega), toNat_after hbound] at heq
      omega
    rw [hlength] at horder htaken
    exact ⟨horder, htaken⟩
  · rintro ⟨horder, htaken⟩
    exact delivered_of_inOrder h hempty hbound hexpected htaken horder

namespace Sample

/-- A chain whose block hashes are their heights, up to the height 9. -/
def node : Node where
  getBlockHeight hash := .ok (if hash.toNat < 10 then some (UInt32.ofNat hash.toNat) else none)
  getBlockHash height := .ok (BitVec.ofNat 256 height.toNat)
  getHeight := .ok 9
  hasCompactFiltersPeer := true
  sendGetFilter _ _ := .ok 0
  filterStartHeight := none

def sync : FilterSync := ⟨setHeight opened 4, ∅, 9, some 0⟩

def oneByte (height : UInt32) : BlockFilter := [UInt8.ofNat height.toNat]

def message (height : UInt32) : Message := ⟨BitVec.ofNat 256 height.toNat, oneByte height⟩

theorem expected_message {height start : UInt32} {n : Nat} (hlow : start.toNat < height.toNat)
    (hhigh : height.toNat ≤ start.toNat + n) (hbound : start.toNat + n < 10) :
    Expected node oneByte start n (message height) := by
  refine ⟨height, ?_, rfl, hlow, hhigh⟩
  have hlt : (BitVec.ofNat 256 height.toNat).toNat = height.toNat := by
    rw [BitVec.toNat_ofNat, Nat.mod_eq_of_lt]
    exact Nat.lt_trans height.toNat_lt (by decide)
  simp only [node, message, hlt, UInt32.ofNat_toNat]
  rw [if_pos (by omega)]

end Sample

open Sample in
/-- The filters of two blocks that come in order are delivered. -/
theorem two_inOrder :
    HoldsAt sync.filters 4 [] ∧
      (∀ m ∈ [message 5, message 6], Expected node oneByte 4 2 m) ∧
      Delivered node sync [] oneByte 4 2
        [message 5, message 6] := by
  have hexpected : ∀ m ∈ [message 5, message 6],
      Expected node oneByte 4 2 m := by
    intro m hm
    simp only [List.mem_cons, List.not_mem_nil, or_false] at hm
    rcases hm with rfl | rfl
    · exact expected_message (by decide) (by decide) (by decide)
    · exact expected_message (by decide) (by decide) (by decide)
  refine ⟨holds_new 4, hexpected, (receive_delivered (holds_new 4) rfl (by decide) hexpected).mpr
    ⟨?_, fun i _ => ?_⟩⟩
  · unfold InOrder
    decide +kernel
  · change (UInt32.ofNat 1).toNat ≤ MAX_FILTER_SIZE
    decide

open Sample in
/-- The filters of two blocks that come in the other order are not: the first of them stays in the
buffer and its height is never saved. -/
theorem two_reversed :
    (∀ m ∈ [message 6, message 5], Expected node oneByte 4 2 m) ∧
      getHeight (receive node sync [message 6, message 5]).filters =
        .ok 5 ∧
      ¬ Delivered node sync [] oneByte 4 2
        [message 6, message 5] := by
  have hexpected : ∀ m ∈ [message 6, message 5],
      Expected node oneByte 4 2 m := by
    intro m hm
    simp only [List.mem_cons, List.not_mem_nil, or_false] at hm
    rcases hm with rfl | rfl
    · exact expected_message (by decide) (by decide) (by decide)
    · exact expected_message (by decide) (by decide) (by decide)
  have hsaved : getHeight (receive node sync
      [message 6, message 5]).filters = .ok 5 := by decide +kernel
  refine ⟨hexpected, hsaved, fun hdelivered => ?_⟩
  have hheight := hsaved.symm.trans hdelivered.records.getHeight
  cases hheight

end Floresta.Filters
