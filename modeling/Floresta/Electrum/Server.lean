import Floresta.Wallet.Statuses

/-!
# Server — the Electrum server

The part of `electrum_protocol.rs` that keeps clients informed about scripts: the requests about
scripts and transactions, the messages of the accept loop, blocks, and the routine that tells clients
about payments.  The server keeps one client for each script hash.  Everything that is written to
clients is listed in order.  Parsing, batches of requests (one request after the other), the
remaining read-only requests and the height that is noted in the wallet's stats are left out.
-/

namespace Floresta.Electrum

open Fallible Wallet

variable (B : Bitcoin) (M : Miniscript)

/-! ## Statuses -/

/-- A txid as it is printed: its bytes in reverse, in hexadecimal. -/
def displayTxid (txid : Txid) : List Char :=
  (List.range 64).map fun i => Nat.digitChar ((reverseBytes txid).toNat / 16 ^ (63 - i) % 16)

/-- The bytes of a text of ASCII characters. -/
def asBytes (text : List Char) : Bytes := text.map fun c => UInt8.ofNat c.toNat

/-- `format!("{}:{}:", transaction.hash, transaction.height)` -/
def statusEntry (transaction : CachedTransaction) : List Char :=
  displayTxid transaction.hash ++ [':'] ++ Nat.toDigits 10 transaction.height ++ [':']

def getStatus (transactions : List CachedTransaction) : Hash256 :=
  B.sha256 (asBytes (transactions.flatMap statusEntry))

/-! ## Clients and messages -/

/-- A connection, with the channel that writes to it. -/
structure Client where
  clientId : Nat
  sender : Nat
  deriving DecidableEq, Repr

structure HistoryEntry where
  txHash : Txid
  height : Nat
  /-- only for unconfirmed transactions -/
  fee : Option Nat
  deriving DecidableEq

inductive ServerError
  | invalidParams
  | mempool
  deriving DecidableEq, Repr

inductive Reply
  | status (status : Option Hash256)
  | balance (confirmed : Option Nat)
  | history (entries : Option (List HistoryEntry))
  | done
  | txid (txid : Txid)
  | error
  deriving DecidableEq

inductive Packet
  | reply (reply : Reply)
  | headers (height : Nat) (header : BlockHeader)
  /-- the notification of `blockchain.scripthash.subscribe` -/
  | scripthash (hash : Hash256) (status : Hash256)
  deriving DecidableEq

abbrev Sent := List (Client × Packet)

inductive Request
  | scripthashGetBalance (hash : Hash256)
  | scripthashGetHistory (hash : Hash256)
  | scripthashSubscribe (hash : Hash256)
  | scripthashUnsubscribe (hash : Hash256)
  | scriptpubkeyGetBalance (script : Script)
  | scriptpubkeyGetHistory (script : Script)
  | scriptpubkeySubscribe (script : Script)
  | scriptpubkeyUnsubscribe (script : Script)
  | transactionBroadcast (tx : Transaction)
  deriving DecidableEq

inductive Message
  | newClient (client : Client)
  /-- a request, with whether the node accepts what it asks to broadcast -/
  | message (client : Nat) (request : Request) (accepts : Bool)
  | disconnect (id : Nat)

structure ElectrumServer where
  addressCache : AddressCacheInner
  clients : HashMap Nat Client
  clientAddresses : HashMap Hash256 Client
  addressesToScan : List Script

namespace ElectrumServer

def new (addressCache : AddressCacheInner) : ElectrumServer where
  addressCache := addressCache
  clients := ∅
  clientAddresses := ∅
  addressesToScan := []

/-! ## Notifications -/

/-- Tells the client of each script that is paid; a script without a history ends the loop. -/
def walletNotify (s : ElectrumServer) :
    List (Transaction × TxOut) → Sent × Except ServerError Unit
  | [] => ([], .ok ())
  | (_, out) :: transactions =>
    let hash := getSpkHash B out.scriptPubkey
    match s.clientAddresses.lookup hash with
    | none => s.walletNotify transactions
    | some client =>
      match s.addressCache.getAddressHistory hash with
      | none => ([], .error .invalidParams)
      | some history =>
        let rest := s.walletNotify transactions
        ((client, .scripthash hash (getStatus B history)) :: rest.1, rest.2)

/-! ## Requests -/

def processHistory (transactions : List CachedTransaction) : List HistoryEntry :=
  transactions.map fun transaction =>
    ⟨transaction.hash, transaction.height, if transaction.height = 0 then some 2000 else none⟩

/-- The status in the answer to a subscription: none without transactions. -/
def replyStatus (s : ElectrumServer) (hash : Hash256) : Option Hash256 :=
  match s.addressCache.getAddressHistory hash with
  | some (t :: ts) => some (getStatus B (t :: ts))
  | _ => none

def subscribe (s : ElectrumServer) (hash : Hash256) (client : Client) : ElectrumServer :=
  { s with clientAddresses := s.clientAddresses.insert hash client }

def unsubscribe (s : ElectrumServer) (hash : Hash256) : ElectrumServer :=
  { s with clientAddresses := s.clientAddresses.erase hash }

/-- Tracks a script from now on, and has its past scanned. -/
def follow (s : ElectrumServer) (script : Script) : ElectrumServer :=
  { s with
    addressCache := s.addressCache.cacheAddress B script
    addressesToScan := s.addressesToScan ++ [script] }

def broadcast (s : ElectrumServer) (tx : Transaction) (accepts : Bool) :
    Except Panic (ElectrumServer × Reply × Sent) :=
  if accepts then do
    let (addressCache, coins) ← s.addressCache.cacheMempoolTransaction B M tx
    let s := { s with addressCache := addressCache }
    let (sent, result) := s.walletNotify B (coins.map fun spend => (tx, spend))
    match result with
    | .ok _ => pure (s, .txid (B.computeTxid tx), sent)
    | .error _ => pure (s, .error, sent)
  else pure (s, .error, [])

def handleClientRequest (s : ElectrumServer) (client : Client) (accepts : Bool) :
    Request → Except Panic (ElectrumServer × Reply × Sent)
  | .scripthashGetBalance hash => pure (s, .balance (s.addressCache.getAddressBalance hash), [])
  | .scripthashGetHistory hash =>
    let history := (s.addressCache.getAddressHistory hash).getD []
    pure (s, .history (some (processHistory history)), [])
  | .scripthashSubscribe hash =>
    let s := s.subscribe hash client
    pure (s, .status (s.replyStatus B hash), [])
  | .scripthashUnsubscribe hash => pure (s.unsubscribe hash, .done, [])
  | .scriptpubkeyGetBalance script =>
    let hash := getSpkHash B script
    if s.addressCache.isAddressCached hash then
      pure (s, .balance (s.addressCache.getAddressBalance hash), [])
    else pure (s.follow B script, .balance (some 0), [])
  | .scriptpubkeyGetHistory script =>
    let hash := getSpkHash B script
    if s.addressCache.isAddressCached hash then
      pure (s, .history ((s.addressCache.getAddressHistory hash).map processHistory), [])
    else pure (s.follow B script, .history none, [])
  | .scriptpubkeySubscribe script =>
    let hash := getSpkHash B script
    let s := s.subscribe hash client
    let s := match s.addressCache.getAddressHistory hash with
      | none => { s with addressesToScan := s.addressesToScan ++ [script] }
      | some _ => s
    pure (s, .status (s.replyStatus B hash), [])
  | .scriptpubkeyUnsubscribe script => pure (s.unsubscribe (getSpkHash B script), .done, [])
  | .transactionBroadcast tx => s.broadcast B M tx accepts

/-! ## Messages and blocks -/

/-- A message of the accept loop or of a connection.  Requests are attributed by the id of the
connection. -/
def handleMessage (s : ElectrumServer) : Message → Except Panic (ElectrumServer × Sent)
  | .newClient client => pure ({ s with clients := s.clients.insert client.clientId client }, [])
  | .message id request accepts =>
    match s.clients.lookup id with
    | none => pure (s, [])
    | some client => do
        let (s, reply, sent) ← s.handleClientRequest B M client accepts request
        pure (s, sent ++ [(client, .reply reply)])
  | .disconnect id => pure ({ s with clients := s.clients.erase id }, [])

def connectedClients (s : ElectrumServer) : List Client :=
  (Ordered.ordered id Function.injective_id s.clients.keys).filterMap s.clients.lookup

/-- A block that arrives when the chain is at the height `tip`. -/
def handleBlock (s : ElectrumServer) (tip : Nat) (block : Block) (height : Nat) :
    Except Panic (ElectrumServer × Sent) := do
  let headers := if tip = height then
    s.connectedClients.map fun client => (client, Packet.headers height block.header) else []
  let (addressCache, transactions) ← s.addressCache.blockProcess B M block height
  let s := { s with addressCache := addressCache }
  pure (s, headers ++ (s.walletNotify B transactions).1)

/-- Before the blocks that the filters name are handled, the addresses to scan are tracked.  They are
queued again if the filters or a block cannot be had. -/
def catchUp (s : ElectrumServer) (retry : Bool) : ElectrumServer :=
  { s with
    addressCache := s.addressesToScan.foldl (fun cache script => cache.cacheAddress B script)
      s.addressCache
    addressesToScan := if retry then s.addressesToScan else [] }

end ElectrumServer

end Floresta.Electrum
