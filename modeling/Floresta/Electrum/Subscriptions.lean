import Floresta.Electrum.Server

/-!
# Subscriptions — who is told about a script

A session is the server together with what its clients have asked for.  A client that subscribed to a
script should be told whenever the status of the script changes.  The server remembers the last
subscriber of a script only, forgets it when anybody unsubscribes, tells apart connections by an id
that two accept loops count independently, and looks for payments only: a script that is spent from
is not among them.  Where none of this happens (`Orderly`) every subscription is honoured.
-/

namespace Floresta.Electrum

open Fallible Wallet ElectrumServer

variable (B : Bitcoin) (M : Miniscript) {found : List (Transaction × TxOut)}

/-! ## Sessions -/

/-- The server, the connections that are open, and what their clients subscribed to and did not
unsubscribe from. -/
structure Session where
  server : ElectrumServer
  connected : List Client
  subscribed : List (Client × Hash256)

def Session.new (addressCache : AddressCacheInner) : Session :=
  ⟨ElectrumServer.new addressCache, [], []⟩

def Request.subscribes : Request → Option Hash256
  | .scripthashSubscribe hash => some hash
  | .scriptpubkeySubscribe script => some (getSpkHash B script)
  | _ => none

def Request.unsubscribes : Request → Option Hash256
  | .scripthashUnsubscribe hash => some hash
  | .scriptpubkeyUnsubscribe script => some (getSpkHash B script)
  | _ => none

inductive Event
  | connect (client : Client)
  | request (client : Client) (request : Request) (accepts : Bool)
  | disconnect (client : Client)
  | block (tip : Nat) (block : Block) (height : Nat)
  | catchUp (retry : Bool)
  /-- a descriptor that is pushed to the wallet -/
  | descriptor (descriptor : String)

def resubscribe (subscribed : List (Client × Hash256)) (client : Client) (request : Request) :
    List (Client × Hash256) :=
  match request.subscribes B, request.unsubscribes B with
  | some hash, _ => (client, hash) :: subscribed
  | none, some hash => subscribed.filter fun p => p ≠ (client, hash)
  | none, none => subscribed

def Session.step (σ : Session) : Event → Except Panic (Session × Sent)
  | .connect client => do
      let (server, sent) ← σ.server.handleMessage B M (.newClient client)
      pure ({ σ with server := server, connected := client :: σ.connected }, sent)
  | .request client request accepts => do
      let (server, sent) ← σ.server.handleMessage B M (.message client.clientId request accepts)
      pure ({ σ with
        server := server
        subscribed := resubscribe B σ.subscribed client request }, sent)
  | .disconnect client => do
      let (server, sent) ← σ.server.handleMessage B M (.disconnect client.clientId)
      pure ({ σ with server := server, connected := σ.connected.filter (· ≠ client) }, sent)
  | .block tip block height => do
      let (server, sent) ← σ.server.handleBlock B M tip block height
      pure ({ σ with server := server }, sent)
  | .catchUp retry => pure ({ σ with server := σ.server.catchUp B retry }, [])
  | .descriptor descriptor =>
    let addressCache := (AddressCacheInner.pushDescriptor B M descriptor σ.server.addressCache).2
    pure ({ σ with server := { σ.server with addressCache := addressCache } }, [])

/-- A connection is new, and only open connections send requests and close. -/
def Session.Allows (σ : Session) : Event → Prop
  | .connect client => client ∉ σ.connected ∧ ∀ hash, (client, hash) ∉ σ.subscribed
  | .request client _ _ => client ∈ σ.connected
  | .disconnect client => client ∈ σ.connected
  | _ => True

/-- Some open connection is subscribed to the script. -/
def Session.Watched (σ : Session) (hash : Hash256) : Prop :=
  ∃ client ∈ σ.connected, (client, hash) ∈ σ.subscribed

/-- No other open connection is subscribed to the script. -/
def Session.Alone (σ : Session) (client : Client) (hash : Hash256) : Prop :=
  ∀ other ∈ σ.connected, (other, hash) ∈ σ.subscribed → other = client

/-- What the server needs in order to tell everybody: ids in use are not given again, a script has
one subscriber at a time, who alone unsubscribes from it, and a script that a block spends from, or
whose transactions it or a broadcast moves, is also paid. -/
def Session.Orderly (σ : Session) : Event → Prop
  | .connect client => ∀ other ∈ σ.connected, other.clientId ≠ client.clientId
  | .request client request accepts =>
    (∀ hash, request.subscribes B = some hash → σ.Alone client hash) ∧
    (∀ hash, request.unsubscribes B = some hash → σ.Alone client hash) ∧
    ∀ tx, request = .transactionBroadcast tx → accepts = true → ∀ hash, σ.Watched hash →
      B.computeTxid tx ∈ listed σ.server.addressCache hash →
      standingOf σ.server.addressCache (B.computeTxid tx) = some ⟨0, 0, B.computeTxid tx⟩ ∨
        ∃ out ∈ tx.output, getSpkHash B out.scriptPubkey = hash
  | .block _ block height => ∀ hash, σ.Watched hash →
      Untouched B σ.server.addressCache block height hash ∨
        ∃ tx ∈ block.txdata, ∃ out ∈ tx.output, getSpkHash B out.scriptPubkey = hash
  | _ => True

/-- The status of a script: none without transactions. -/
def statusOf (s : AddressCacheInner) (hash : Hash256) : Option Hash256 :=
  if history s hash = [] then none else some (getStatus B (history s hash))

/-- Open connections that are subscribed are told the new status, and nobody else is told
anything. -/
structure Honoured (σ σ' : Session) (sent : Sent) : Prop where
  told : ∀ hash, statusOf B σ'.server.addressCache hash ≠ statusOf B σ.server.addressCache hash →
    ∀ client ∈ σ'.connected, (client, hash) ∈ σ'.subscribed →
      ∃ status, statusOf B σ'.server.addressCache hash = some status ∧
        (client, .scripthash hash status) ∈ sent
  only : ∀ client hash status, (client, Packet.scripthash hash status) ∈ sent →
    (client, hash) ∈ σ'.subscribed

/-- Every session of a server on the wallet, by events that satisfy `C`. -/
inductive Reached (C : Session → Event → Prop) (wallet : AddressCacheInner) : Session → Prop
  | new : Reached C wallet (Session.new wallet)
  | step {σ σ' : Session} {event : Event} {sent : Sent} (h : Reached C wallet σ)
      (hallows : σ.Allows event) (hcond : C σ event)
      (hstep : σ.step B M event = .ok (σ', sent)) : Reached C wallet σ'

/-! ## Statuses and notifications -/

section Notify

variable {B M} {s s' : AddressCacheInner} {hash : Hash256}

theorem getStatus_congr {l l' : List CachedTransaction}
    (h : l'.map CachedTransaction.standing = l.map CachedTransaction.standing) :
    getStatus B l' = getStatus B l := by
  -- an entry is made of the hash and the height
  have hentries : ∀ l : List CachedTransaction, l.flatMap statusEntry =
      (l.map CachedTransaction.standing).flatMap fun x =>
        displayTxid x.hash ++ [':'] ++ Nat.toDigits 10 x.height ++ [':'] := by
    intro l
    rw [List.flatMap_map]
    rfl
  rw [getStatus, getStatus, hentries, hentries, h]

theorem statusOf_of_quiet (h : Quiet hash s s') : statusOf B s' hash = statusOf B s hash := by
  have hstandings := h.standings
  have hnil : history s' hash = [] ↔ history s hash = [] := by
    rw [← List.map_eq_nil_iff (f := CachedTransaction.standing), hstandings, List.map_eq_nil_iff]
  unfold statusOf
  rw [getStatus_congr hstandings]
  by_cases hempty : history s hash = []
  · rw [if_pos hempty, if_pos (hnil.mpr hempty)]
  · rw [if_neg hempty, if_neg (mt hnil.mp hempty)]

theorem statusOf_of_heard (h : Heard s hash) :
    statusOf B s hash = some (getStatus B (history s hash)) :=
  if_neg h.history_ne_nil

theorem getAddressHistory_of_heard (h : Heard s hash) :
    s.getAddressHistory hash = some (history s hash) := by
  rcases h with ⟨txid, hlisted, -⟩
  rcases Finmap.mem_iff.mp (mem_of_mem_listed hlisted) with ⟨a, ha⟩
  unfold history AddressCacheInner.getAddressHistory
  rw [ha]
  rfl

variable {server : ElectrumServer} {client : Client}

theorem walletNotify_told
    (hheard : ∀ hash ∈ hashesOf B found, Heard server.addressCache hash)
    (hhash : hash ∈ hashesOf B found) (hclient : server.clientAddresses.lookup hash = some client) :
    (client, .scripthash hash (getStatus B (history server.addressCache hash))) ∈
      (server.walletNotify B found).1 := by
  induction found with
  | nil => exact absurd hhash List.not_mem_nil
  | cons p found ih =>
    have hheard' : ∀ hash ∈ hashesOf B found, Heard server.addressCache hash :=
      fun hash hmem => hheard hash (List.mem_cons_of_mem _ hmem)
    rcases p with ⟨tx, out⟩
    have hp := hheard (getSpkHash B out.scriptPubkey) List.mem_cons_self
    unfold walletNotify
    rcases List.mem_cons.mp hhash with rfl | hhash
    · simp only [hclient, getAddressHistory_of_heard hp]
      exact List.mem_cons_self
    · cases hother : server.clientAddresses.lookup (getSpkHash B out.scriptPubkey) with
      | none =>
        simp only [hother]
        exact ih hheard' hhash
      | some other =>
        simp only [hother, getAddressHistory_of_heard hp]
        exact List.mem_cons_of_mem _ (ih hheard' hhash)

theorem walletNotify_only {status : Hash256}
    (h : (client, Packet.scripthash hash status) ∈ (server.walletNotify B found).1) :
    server.clientAddresses.lookup hash = some client := by
  induction found with
  | nil => exact absurd h List.not_mem_nil
  | cons p found ih =>
    rcases p with ⟨tx, out⟩
    unfold walletNotify at h
    cases hother : server.clientAddresses.lookup (getSpkHash B out.scriptPubkey) with
    | none =>
      simp only [hother] at h
      exact ih h
    | some other =>
      simp only [hother] at h
      split at h
      · exact absurd h List.not_mem_nil
      · rcases List.mem_cons.mp h with heq | h
        · cases heq
          exact hother
        · exact ih h

end Notify

/-! ## What orderly events keep -/

/-- The server knows its connections, and the one subscriber of each script. -/
structure Sound (σ : Session) : Prop where
  tidy : Tidy σ.server.addressCache
  clients : ∀ client ∈ σ.connected, σ.server.clients.lookup client.clientId = some client
  holder : ∀ client ∈ σ.connected, ∀ hash, (client, hash) ∈ σ.subscribed →
    σ.server.clientAddresses.lookup hash = some client
  held : ∀ hash client, σ.server.clientAddresses.lookup hash = some client →
    (client, hash) ∈ σ.subscribed

/-- Nobody is told about a script. -/
def Silent (sent : Sent) : Prop :=
  ∀ client hash status, (client, Packet.scripthash hash status) ∉ sent

section Steps

variable {B M} {σ σ' : Session} {sent : Sent} {client : Client}

theorem silent_nil : Silent [] := fun _ _ _ => List.not_mem_nil

theorem silent_reply (client : Client) (reply : Reply) : Silent [(client, .reply reply)] := by
  intro client' hash status hmem
  cases List.mem_singleton.mp hmem

theorem honoured_of_quiet
    (hquiet : ∀ hash, Quiet hash σ.server.addressCache σ'.server.addressCache)
    (hsilent : Silent sent) : Honoured B σ σ' sent where
  told hash hchanged := absurd (statusOf_of_quiet (hquiet hash)) hchanged
  only client hash status hmem := absurd hmem (hsilent client hash status)

theorem Sound.notify (h : Sound σ) {cache : AddressCacheInner} (htidy : Tidy cache)
    (hheard : ∀ hash ∈ hashesOf B found, Heard cache hash)
    (hquiet : ∀ hash, σ.Watched hash → hash ∉ hashesOf B found →
      Quiet hash σ.server.addressCache cache) {before after : Sent} (hbefore : Silent before)
    (hafter : Silent after) :
    Sound { σ with server := { σ.server with addressCache := cache } } ∧
      Honoured B σ { σ with server := { σ.server with addressCache := cache } }
        (before ++ ({ σ.server with addressCache := cache }.walletNotify B found).1 ++ after) := by
  refine ⟨⟨htidy, h.clients, h.holder, h.held⟩, ?_, ?_⟩
  · intro hash hchanged client hclient hsubscribed
    by_cases hfound : hash ∈ hashesOf B found
    · refine ⟨_, statusOf_of_heard (hheard hash hfound), ?_⟩
      refine List.mem_append_left _ (List.mem_append_right _ ?_)
      exact walletNotify_told hheard hfound (h.holder client hclient hash hsubscribed)
    · exact absurd (statusOf_of_quiet (hquiet hash ⟨client, hclient, hsubscribed⟩ hfound)) hchanged
  · intro client hash status hmem
    rcases List.mem_append.mp hmem with hmem | hmem
    · rcases List.mem_append.mp hmem with hmem | hmem
      · exact absurd hmem (hbefore client hash status)
      · have hclient := walletNotify_only hmem
        exact h.held hash client hclient
    · exact absurd hmem (hafter client hash status)

theorem Sound.connect (h : Sound σ) (hallows : σ.Allows (.connect client))
    (horderly : σ.Orderly B (.connect client))
    (hstep : σ.step B M (.connect client) = .ok (σ', sent)) :
    Sound σ' ∧ Honoured B σ σ' sent := by
  cases hstep
  refine ⟨⟨h.tidy, ?_, ?_, h.held⟩, honoured_of_quiet (fun _ => Quiet.refl _) silent_nil⟩
  · intro other hother
    change (σ.server.clients.insert client.clientId client).lookup other.clientId = some other
    rcases List.mem_cons.mp hother with rfl | hother
    · exact Finmap.lookup_insert _
    · rw [Finmap.lookup_insert_of_ne _ (horderly other hother)]
      exact h.clients other hother
  · intro other hother hash hsubscribed
    rcases List.mem_cons.mp hother with rfl | hother
    · exact absurd hsubscribed (hallows.2 hash)
    · exact h.holder other hother hash hsubscribed

theorem Sound.disconnect (h : Sound σ) (hallows : σ.Allows (.disconnect client))
    (hstep : σ.step B M (.disconnect client) = .ok (σ', sent)) :
    Sound σ' ∧ Honoured B σ σ' sent := by
  cases hstep
  refine ⟨⟨h.tidy, ?_, ?_, h.held⟩, honoured_of_quiet (fun _ => Quiet.refl _) silent_nil⟩
  · intro other hother
    rw [List.mem_filter, decide_eq_true_iff] at hother
    -- two open connections have different ids
    have hne : other.clientId ≠ client.clientId := by
      intro heq
      have hlookup := h.clients other hother.1
      rw [heq, h.clients client hallows] at hlookup
      exact hother.2 (Option.some.inj hlookup).symm
    change (σ.server.clients.erase client.clientId).lookup other.clientId = some other
    rw [Finmap.lookup_erase_ne hne]
    exact h.clients other hother.1
  · intro other hother
    exact h.holder other (List.mem_of_mem_filter hother)

theorem untouched_of_untracked {s : AddressCacheInner} (h : Tidy s) {block : Block} {height : Nat}
    {hash : Hash256} (hash_not_mem : hash ∉ s.scriptSet) : Untouched B s block height hash := by
  have hmem : hash ∉ s.addressMap := fun hmem => hash_not_mem ((h.tracked hash).mpr hmem)
  intro position tx htx
  exact ⟨fun input _ hindex => hmem (h.index _ hash hindex),
    fun hlisted => absurd (mem_of_mem_listed hlisted) hmem⟩

theorem Sound.block (h : Sound σ) {tip height : Nat} {block : Block}
    (horderly : σ.Orderly B (.block tip block height))
    (hstep : σ.step B M (.block tip block height) = .ok (σ', sent)) :
    Sound σ' ∧ Honoured B σ σ' sent := by
  rcases bind_eq_ok.mp hstep with ⟨⟨server, sent'⟩, hhandle, hstep⟩
  cases hstep
  rcases bind_eq_ok.mp hhandle with ⟨⟨cache, found⟩, hprocess, hhandle⟩
  cases hhandle
  rcases h.tidy.blockProcess hprocess with ⟨htidy, hheard, hfound, hquiet⟩
  have hheaders : Silent (if tip = height then σ.server.connectedClients.map fun client =>
      (client, Packet.headers height block.header) else []) := by
    intro client hash status hmem
    split at hmem
    · rcases List.mem_map.mp hmem with ⟨other, -, heq⟩
      cases heq
    · exact absurd hmem List.not_mem_nil
  have hnotify := h.notify htidy hheard ?_ hheaders silent_nil
  · rw [List.append_nil] at hnotify
    exact hnotify
  · intro hash hwatched hnot
    by_cases htracked : hash ∈ σ.server.addressCache.scriptSet
    · rcases horderly hash hwatched with huntouched | hpaid
      · exact hquiet hash huntouched hnot
      · exact absurd (hfound hash htracked hpaid) hnot
    · exact hquiet hash (untouched_of_untracked h.tidy htracked) hnot

end Steps

/-! ### Requests -/

section Requests

variable {B M} {σ σ' : Session} {sent : Sent} {client : Client} {request : Request}
  {s s' : ElectrumServer} {reply : Reply} {accepts : Bool} {hash : Hash256}

theorem handleClientRequest_subscribe (hrequest : request.subscribes B = some hash)
    (hok : s.handleClientRequest B M client accepts request = .ok (s', reply, sent)) :
    s'.addressCache = s.addressCache ∧ s'.clients = s.clients ∧
      s'.clientAddresses = s.clientAddresses.insert hash client ∧ sent = [] := by
  cases request with
  | scripthashSubscribe hash' =>
    cases hrequest
    cases hok
    exact ⟨rfl, rfl, rfl, rfl⟩
  | scriptpubkeySubscribe script =>
    cases hrequest
    cases hok
    cases hhistory : s.addressCache.getAddressHistory (getSpkHash B script) with
    | none => simp [subscribe, hhistory]
    | some history => simp [subscribe, hhistory]
  | _ => cases hrequest

theorem handleClientRequest_unsubscribe (hrequest : request.unsubscribes B = some hash)
    (hok : s.handleClientRequest B M client accepts request = .ok (s', reply, sent)) :
    s' = s.unsubscribe hash ∧ sent = [] := by
  cases request with
  | scripthashUnsubscribe hash' =>
    cases hrequest
    cases hok
    exact ⟨rfl, rfl⟩
  | scriptpubkeyUnsubscribe script =>
    cases hrequest
    cases hok
    exact ⟨rfl, rfl⟩
  | _ => cases hrequest

theorem handleClientRequest_read (hsub : request.subscribes B = none)
    (hunsub : request.unsubscribes B = none) (hbroadcast : ∀ tx, request ≠ .transactionBroadcast tx)
    (hok : s.handleClientRequest B M client accepts request = .ok (s', reply, sent)) :
    (s'.addressCache = s.addressCache ∨
      ∃ script, s'.addressCache = s.addressCache.cacheAddress B script) ∧
      s'.clients = s.clients ∧ s'.clientAddresses = s.clientAddresses ∧ sent = [] := by
  cases request with
  | scripthashGetBalance hash =>
    cases hok
    exact ⟨.inl rfl, rfl, rfl, rfl⟩
  | scripthashGetHistory hash =>
    cases hok
    exact ⟨.inl rfl, rfl, rfl, rfl⟩
  | scriptpubkeyGetBalance script =>
    unfold handleClientRequest at hok
    dsimp only at hok
    split at hok <;> cases hok
    · exact ⟨.inl rfl, rfl, rfl, rfl⟩
    · exact ⟨.inr ⟨script, rfl⟩, rfl, rfl, rfl⟩
  | scriptpubkeyGetHistory script =>
    unfold handleClientRequest at hok
    dsimp only at hok
    split at hok <;> cases hok
    · exact ⟨.inl rfl, rfl, rfl, rfl⟩
    · exact ⟨.inr ⟨script, rfl⟩, rfl, rfl, rfl⟩
  | scripthashSubscribe hash => cases hsub
  | scriptpubkeySubscribe script => cases hsub
  | scripthashUnsubscribe hash => cases hunsub
  | scriptpubkeyUnsubscribe script => cases hunsub
  | transactionBroadcast tx => exact absurd rfl (hbroadcast tx)

/-- A transaction that the node refuses changes nothing; another one is cached, and clients are
told. -/
theorem broadcast_cases {tx : Transaction}
    (hok : s.broadcast B M tx accepts = .ok (s', reply, sent)) :
    (accepts = false ∧ s' = s ∧ sent = []) ∨
    ∃ cache coins, accepts = true ∧
      s.addressCache.cacheMempoolTransaction B M tx = .ok (cache, coins) ∧
      s' = { s with addressCache := cache } ∧
      sent = ({ s with addressCache := cache }.walletNotify B
        (coins.map fun spend => (tx, spend))).1 := by
  unfold ElectrumServer.broadcast at hok
  cases accepts with
  | false =>
    cases hok
    exact .inl ⟨rfl, rfl, rfl⟩
  | true =>
    rw [if_pos rfl] at hok
    rcases bind_eq_ok.mp hok with ⟨⟨cache, coins⟩, hcache, hok⟩
    refine .inr ⟨cache, coins, rfl, hcache, ?_⟩
    dsimp only at hok
    split at hok <;> cases hok <;> exact ⟨rfl, rfl⟩

theorem Sound.request_cases (h : Sound σ) (hallows : σ.Allows (.request client request accepts))
    (hstep : σ.step B M (.request client request accepts) = .ok (σ', sent)) :
    ∃ server reply notices,
      σ.server.handleClientRequest B M client accepts request = .ok (server, reply, notices) ∧
      σ' = { σ with
        server := server
        subscribed := resubscribe B σ.subscribed client request } ∧
      sent = notices ++ [(client, .reply reply)] := by
  rcases bind_eq_ok.mp hstep with ⟨⟨server, sent'⟩, hhandle, hstep⟩
  cases hstep
  unfold handleMessage at hhandle
  dsimp only at hhandle
  rw [h.clients client hallows] at hhandle
  rcases bind_eq_ok.mp hhandle with ⟨⟨server', reply, notices⟩, hrequest, hhandle⟩
  cases hhandle
  exact ⟨_, reply, notices, hrequest, rfl, rfl⟩

theorem Sound.subscribe (h : Sound σ) (halone : σ.Alone client hash) {server : ElectrumServer}
    (hcache : server.addressCache = σ.server.addressCache)
    (hclients : server.clients = σ.server.clients)
    (haddresses : server.clientAddresses = σ.server.clientAddresses.insert hash client) :
    Sound { σ with server := server, subscribed := (client, hash) :: σ.subscribed } := by
  refine ⟨hcache ▸ h.tidy, hclients ▸ h.clients, ?_, ?_⟩
  · intro other hother hash' hsubscribed
    rw [haddresses, Ledger.lookup_insert_eq]
    rcases List.mem_cons.mp hsubscribed with heq | hmem
    · cases heq
      exact if_pos rfl
    · split
      next heq =>
        subst heq
        rw [halone other hother hmem]
      · exact h.holder other hother hash' hmem
  · intro hash' other hlookup
    rw [haddresses, Ledger.lookup_insert_eq] at hlookup
    split at hlookup
    next heq =>
      cases hlookup
      rw [heq]
      exact List.mem_cons_self
    · exact List.mem_cons_of_mem _ (h.held hash' other hlookup)

theorem Sound.unsubscribe (h : Sound σ) (halone : σ.Alone client hash) :
    Sound { σ with
      server := σ.server.unsubscribe hash
      subscribed := σ.subscribed.filter fun p => p ≠ (client, hash) } := by
  refine ⟨h.tidy, h.clients, ?_, ?_⟩
  · intro other hother hash' hsubscribed
    rw [List.mem_filter, decide_eq_true_iff] at hsubscribed
    change (σ.server.clientAddresses.erase hash).lookup hash' = some other
    by_cases heq : hash' = hash
    · -- the only open connection with this subscription has given it up
      subst heq
      rw [halone other hother hsubscribed.1] at hsubscribed
      exact absurd rfl hsubscribed.2
    · rw [Finmap.lookup_erase_ne heq]
      exact h.holder other hother hash' hsubscribed.1
  · intro hash' other hlookup
    change (σ.server.clientAddresses.erase hash).lookup hash' = some other at hlookup
    by_cases heq : hash' = hash
    · rw [heq, Finmap.lookup_erase] at hlookup
      cases hlookup
    · rw [Finmap.lookup_erase_ne heq] at hlookup
      refine List.mem_filter.mpr ⟨h.held hash' other hlookup, ?_⟩
      simp [heq]

theorem Sound.broadcast (h : Sound σ) {tx : Transaction} {server : ElectrumServer} {notices : Sent}
    (horderly : accepts = true → ∀ hash, σ.Watched hash →
      B.computeTxid tx ∈ listed σ.server.addressCache hash →
      standingOf σ.server.addressCache (B.computeTxid tx) = some ⟨0, 0, B.computeTxid tx⟩ ∨
        ∃ out ∈ tx.output, getSpkHash B out.scriptPubkey = hash)
    (hok : σ.server.broadcast B M tx accepts = .ok (server, reply, notices)) :
    Sound { σ with server := server } ∧
      Honoured B σ { σ with server := server } (notices ++ [(client, .reply reply)]) := by
  rcases broadcast_cases hok with ⟨-, rfl, rfl⟩ | ⟨cache, coins, haccepts, hcache, rfl, rfl⟩
  · exact ⟨h, honoured_of_quiet (fun _ => Quiet.refl _) (silent_reply client reply)⟩
  rcases h.tidy.cacheMempoolTransaction hcache with ⟨htidy, hheard, hfound, hquiet⟩
  have hhashes : ∀ hash, hash ∈ hashesOf B (coins.map fun spend => (tx, spend)) ↔
      ∃ out ∈ coins, getSpkHash B out.scriptPubkey = hash := by
    intro hash
    simp [hashesOf]
  refine h.notify htidy (B := B) ?_ ?_ silent_nil (silent_reply client reply)
  · intro hash hhash
    rcases (hhashes hash).mp hhash with ⟨out, hout, rfl⟩
    exact hheard out hout
  · intro hash hwatched hnot
    have hne : ∀ out ∈ coins, getSpkHash B out.scriptPubkey ≠ hash :=
      fun out hout heq => hnot ((hhashes hash).mpr ⟨out, hout, heq⟩)
    refine hquiet hash (fun hlisted => ?_) hne
    rcases horderly haccepts hash hwatched hlisted with hstands | ⟨out, hout, rfl⟩
    · exact hstands
    · -- an address that lists the transaction is tracked, so the payment is found
      have htracked := (h.tidy.tracked _).mpr (mem_of_mem_listed hlisted)
      exact absurd rfl (hne out (hfound out hout htracked))

theorem Sound.answers (h : Sound σ) (hallows : σ.Allows (.request client request accepts))
    (horderly : σ.Orderly B (.request client request accepts))
    (hstep : σ.step B M (.request client request accepts) = .ok (σ', sent)) :
    Sound σ' ∧ Honoured B σ σ' sent := by
  rcases h.request_cases hallows hstep with ⟨server, reply, notices, hrequest, rfl, rfl⟩
  rcases horderly with ⟨hsubscribe, hunsubscribe, hbroadcast⟩
  cases hsub : request.subscribes B with
  | some hash =>
    rcases handleClientRequest_subscribe hsub hrequest with ⟨hcache, hclients, haddresses, rfl⟩
    have hsound := h.subscribe (hsubscribe hash hsub) hcache hclients haddresses
    simp only [resubscribe, hsub]
    refine ⟨hsound, honoured_of_quiet (fun hash' => ?_) (silent_reply client reply)⟩
    dsimp only
    rw [hcache]
    exact Quiet.refl _
  | none =>
  cases hunsub : request.unsubscribes B with
  | some hash =>
    rcases handleClientRequest_unsubscribe hunsub hrequest with ⟨rfl, rfl⟩
    simp only [resubscribe, hsub, hunsub]
    exact ⟨h.unsubscribe (hunsubscribe hash hunsub),
      honoured_of_quiet (fun _ => Quiet.refl _) (silent_reply client reply)⟩
  | none =>
    simp only [resubscribe, hsub, hunsub]
    by_cases htx : ∃ tx, request = .transactionBroadcast tx
    · rcases htx with ⟨tx, rfl⟩
      exact h.broadcast (hbroadcast tx rfl) hrequest
    · rcases handleClientRequest_read hsub hunsub (fun tx heq => htx ⟨tx, heq⟩) hrequest with
        ⟨hcache, hclients, haddresses, rfl⟩
      have hquiet : Tidy server.addressCache ∧
          ∀ hash, Quiet hash σ.server.addressCache server.addressCache := by
        rcases hcache with hcache | ⟨script, hcache⟩
        · rw [hcache]
          exact ⟨h.tidy, fun _ => Quiet.refl _⟩
        · rw [hcache]
          exact ⟨Tidy.stable.cacheAddress _ script h.tidy,
            fun _ => (Quiet.stable _).cacheAddress _ script (Quiet.refl _)⟩
      exact ⟨⟨hquiet.1, hclients ▸ h.clients, haddresses ▸ h.holder, haddresses ▸ h.held⟩,
        honoured_of_quiet hquiet.2 (silent_reply client reply)⟩

end Requests

/-! ## Runs -/

section Runs

variable {B M} {σ σ' : Session} {event : Event} {sent : Sent} {wallet : AddressCacheInner}

theorem Sound.rewatch (h : Sound σ) {cache : AddressCacheInner} {scripts : List Script}
    (htidy : Tidy cache) (hquiet : ∀ hash, Quiet hash σ.server.addressCache cache) :
    Sound { σ with server := { σ.server with
      addressCache := cache
      addressesToScan := scripts } } ∧
      Honoured B σ { σ with server := { σ.server with
        addressCache := cache
        addressesToScan := scripts } } [] :=
  ⟨⟨htidy, h.clients, h.holder, h.held⟩, honoured_of_quiet hquiet silent_nil⟩

theorem Sound.step (h : Sound σ) (hallows : σ.Allows event) (horderly : σ.Orderly B event)
    (hstep : σ.step B M event = .ok (σ', sent)) : Sound σ' ∧ Honoured B σ σ' sent := by
  cases event with
  | connect client => exact h.connect hallows horderly hstep
  | request client request accepts => exact h.answers hallows horderly hstep
  | disconnect client => exact h.disconnect hallows hstep
  | block tip block height => exact h.block horderly hstep
  | catchUp retry =>
    cases hstep
    have hcached : ∀ (scripts : List Script) (cache : AddressCacheInner), Tidy cache →
        (∀ hash, Quiet hash σ.server.addressCache cache) →
        Tidy (scripts.foldl (fun cache script => cache.cacheAddress B script) cache) ∧
          ∀ hash, Quiet hash σ.server.addressCache
            (scripts.foldl (fun cache script => cache.cacheAddress B script) cache) := by
      intro scripts
      induction scripts with
      | nil => exact fun cache htidy hquiet => ⟨htidy, hquiet⟩
      | cons script scripts ih =>
        intro cache htidy hquiet
        exact ih _ (Tidy.stable.cacheAddress _ script htidy)
          fun hash => (Quiet.stable _).cacheAddress _ script (hquiet hash)
    rcases hcached σ.server.addressesToScan _ h.tidy fun _ => Quiet.refl _ with ⟨htidy, hquiet⟩
    exact h.rewatch htidy hquiet
  | descriptor descriptor =>
    cases hstep
    refine h.rewatch ?_ fun hash => ?_
    · refine Tidy.stable.pushDescriptor ?_ descriptor _ h.tidy
      intro s d hs
      exact ⟨{ hs with }, hs.index, hs.records⟩
    · refine (Quiet.stable _).pushDescriptor ?_ descriptor _ (Quiet.refl _)
      exact fun s d hs => ⟨hs.listed, hs.standing, hs.index⟩

theorem Reached.sound (hwallet : Tidy wallet)
    (h : Reached B M (fun σ event => σ.Orderly B event) wallet σ) : Sound σ := by
  induction h with
  | new =>
    refine ⟨hwallet, ?_, ?_, ?_⟩
    all_goals simp [Session.new, ElectrumServer.new]
  | step h hallows horderly hstep ih => exact (ih.step hallows horderly hstep).1

/-- In every run whose events are orderly, every event honours the subscriptions. -/
theorem subscriptions_honoured (hwallet : Ran B M (fun _ _ _ => True) wallet)
    (hrun : Reached B M (fun σ event => σ.Orderly B event) wallet σ) (hallows : σ.Allows event)
    (horderly : σ.Orderly B event) (hstep : σ.step B M event = .ok (σ', sent)) :
    Honoured B σ σ' sent :=
  ((Reached.sound hwallet.tidy hrun).step hallows horderly hstep).2

end Runs

namespace Sample

open Wallet.Sample Bitcoin

def alice : Client := ⟨0, 0⟩

def bob : Client := ⟨1, 1⟩

def seven : Hash256 := getSpkHash sample [7]

instance (σ : Session) (event : Event) : Decidable (σ.Allows event) :=
  match event with
  | .connect client => decidable_of_iff
      (client ∉ σ.connected ∧ ∀ p ∈ σ.subscribed, p.1 ≠ client) (by
        constructor
        · exact fun h => ⟨h.1, fun hash hmem => h.2 _ hmem rfl⟩
        · rintro ⟨hnew, hnone⟩
          exact ⟨hnew, fun p hp heq => hnone p.2 (heq ▸ hp)⟩)
  | .request client _ _ => inferInstanceAs (Decidable (client ∈ σ.connected))
  | .disconnect client => inferInstanceAs (Decidable (client ∈ σ.connected))
  | .block .. => inferInstanceAs (Decidable True)
  | .catchUp _ => inferInstanceAs (Decidable True)
  | .descriptor _ => inferInstanceAs (Decidable True)

/-- The session after the events, if they can happen. -/
def replay (σ : Session) : List Event → Option Session
  | [] => some σ
  | event :: events =>
    if σ.Allows event then
      (σ.step sample miniscript event).toOption.bind fun r => replay r.1 events
    else none

theorem reached_replay {wallet : AddressCacheInner} {events : List Event} :
    ∀ {σ σ' : Session}, Reached sample miniscript (fun _ _ => True) wallet σ →
      replay σ events = some σ' →
      Reached sample miniscript (fun _ _ => True) wallet σ' := by
  induction events with
  | nil =>
    intro σ σ' h hreplay
    cases hreplay
    exact h
  | cons event events ih =>
    intro σ σ' h hreplay
    unfold replay at hreplay
    split at hreplay
    next hallows =>
      rcases Option.bind_eq_some_iff.mp hreplay with ⟨⟨σ1, sent⟩, hstep, hreplay⟩
      cases hstep' : σ.step sample miniscript event with
      | error e =>
        rw [hstep'] at hstep
        cases hstep
      | ok r =>
        rw [hstep'] at hstep
        cases hstep
        exact ih (h.step hallows trivial hstep') hreplay
    · cases hreplay

def overwritten : List Event × Event :=
  ([.connect alice, .connect bob, .request alice (.scripthashSubscribe seven) false,
    .request bob (.scripthashSubscribe seven) false], .block 1 funding 1)

/-- One subscribes, the other one unsubscribes, and the script is paid. -/
def cancelled : List Event × Event :=
  ([.connect alice, .connect bob, .request alice (.scripthashSubscribe seven) false,
    .request bob (.scripthashUnsubscribe seven) false], .block 1 funding 1)

def emptied : List Event × Event :=
  ([.connect alice, .request alice (.scripthashSubscribe seven) false, .block 1 funding 1],
    .block 2 emptying 2)

def joined : Session :=
  ⟨{ ElectrumServer.new single with clients := Finmap.insert 0 alice ∅ }, [alice], []⟩

def watching : Session :=
  ⟨joined.server.subscribe seven alice, [alice], [(alice, seven)]⟩

theorem reached_watching :
    Reached sample miniscript (fun σ event => σ.Orderly sample event) single
      watching := by
  have hjoin : (Session.new single).step sample miniscript (.connect alice) =
      .ok (joined, []) := rfl
  have hsubscribe : joined.step sample miniscript
      (.request alice (.scripthashSubscribe seven) false) =
        .ok (watching, [(alice, .reply (.status none))]) := rfl
  have hjoined : Reached sample miniscript
      (fun σ event => σ.Orderly sample event) single joined :=
    Reached.new.step (by decide) (by simp [Session.Orderly, Session.new]) hjoin
  have horderly : joined.Orderly sample
      (.request alice (.scripthashSubscribe seven) false) := by
    refine ⟨?_, nofun, nofun⟩
    intro hash _ other hother _
    exact List.mem_singleton.mp hother
  exact hjoined.step (by decide) horderly hsubscribe

end Sample

open Sample Wallet.Sample Bitcoin in
theorem subscriptions_honoured_sample : ∃ σ σ' sent,
    Reached sample miniscript (fun σ event => σ.Orderly sample event) single σ ∧
    σ.step sample miniscript (.block 1 funding 1) = .ok (σ', sent) ∧
    alice ∈ σ'.connected ∧ (alice, seven) ∈ σ'.subscribed ∧
    statusOf sample σ'.server.addressCache seven ≠
      statusOf sample σ.server.addressCache seven ∧
    Honoured sample σ σ' sent := by
  have hwallet : Ran sample miniscript (fun _ _ _ => True) single :=
    (Ran.new new_empty).address [7]
  have hrun : ((watching.step sample miniscript (.block 1 funding 1)).toOption.any fun r =>
      decide (alice ∈ r.1.connected ∧ (alice, seven) ∈ r.1.subscribed ∧
        statusOf sample r.1.server.addressCache seven ≠
          statusOf sample watching.server.addressCache seven)) = true := by
    decide +kernel
  rcases exists_of_any hrun with ⟨⟨σ', sent⟩, hstep, hcheck⟩
  rcases of_decide_eq_true hcheck with ⟨hconnected, hsubscribed, hchanged⟩
  have hallows : watching.Allows (.block 1 funding 1) := trivial
  have horderly : watching.Orderly sample (.block 1 funding 1) := by
    rintro hash ⟨client, -, hsubscribed⟩
    cases List.mem_singleton.mp hsubscribed
    exact .inr ⟨coinbase 1 [output 50 7], List.mem_singleton_self _, output 50 7,
      List.mem_singleton_self _, rfl⟩
  exact ⟨watching, σ', sent, reached_watching, hstep, hconnected, hsubscribed, hchanged,
    subscriptions_honoured hwallet reached_watching hallows horderly hstep⟩

namespace Sample

open Wallet.Sample

/-- Events after which one more event does not reach the subscriber it is meant for. -/
def Unheard (p : List Event × Event) : Prop := ∃ σ σ' sent,
  replay (Session.new single) p.1 = some σ ∧
  Reached Bitcoin.sample miniscript (fun _ _ => True) single σ ∧ σ.Allows p.2 ∧
  σ.step Bitcoin.sample miniscript p.2 = .ok (σ', sent) ∧
  alice ∈ σ'.connected ∧ (alice, seven) ∈ σ'.subscribed ∧ ¬ Honoured Bitcoin.sample σ σ' sent

theorem unheard : ∀ p ∈ [overwritten, cancelled, emptied], Unheard p := by
  intro p hp
  have hrun : ∀ p ∈ [overwritten, cancelled, emptied],
      ((replay (Session.new single) p.1).any fun σ => decide (σ.Allows p.2) &&
        (σ.step Bitcoin.sample miniscript p.2).toOption.any fun r =>
          decide (alice ∈ r.1.connected ∧ (alice, seven) ∈ r.1.subscribed ∧
            statusOf Bitcoin.sample r.1.server.addressCache seven ≠
              statusOf Bitcoin.sample σ.server.addressCache seven ∧
            (alice, .scripthash seven
              ((statusOf Bitcoin.sample r.1.server.addressCache seven).getD 0)) ∉ r.2)) = true := by
    decide +kernel
  rcases (Option.any_eq_true _ _).mp (hrun p hp) with ⟨σ, hreplay, hcheck⟩
  rcases Bool.and_eq_true_iff.mp hcheck with ⟨hallows, hcheck⟩
  rcases exists_of_any hcheck with ⟨⟨σ', sent⟩, hstep, hcheck⟩
  rcases of_decide_eq_true hcheck with ⟨hconnected, hsubscribed, hchanged, hsilent⟩
  refine ⟨σ, σ', sent, hreplay, reached_replay .new hreplay, of_decide_eq_true hallows, hstep,
    hconnected, hsubscribed, ?_⟩
  intro hhonoured
  rcases hhonoured.told seven hchanged alice hconnected hsubscribed with ⟨status, hstatus, hsent⟩
  rw [hstatus] at hsilent
  exact hsilent hsent

end Sample

open Sample in
/-- Two clients that subscribe to one script, a client that unsubscribes somebody else, and a
transaction that only spends from the script: somebody who is subscribed is not told. -/
theorem subscriptions_not_honoured :
    Unheard overwritten ∧ Unheard cancelled ∧ Unheard emptied :=
  ⟨unheard _ (by simp), unheard _ (by simp), unheard _ (by simp)⟩

end Floresta.Electrum
