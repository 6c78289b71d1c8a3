import Stronk.ConnectionClose

/-! A client as the server sees it (`network/connection.h`, `network/player.h`): the connection
that carries its packets, what is known of the player, what is kept between the packets of a
login. -/
namespace Stronk.Mcpr
open ByteMemory EarlyExit

section Player

/-- `struct timespec` -/
structure Timespec where
  tvSec : ℤ
  tvNsec : ℤ
  deriving DecidableEq, Repr, Inhabited

def timespecDiff (start stop : Timespec) : Timespec :=
  if stop.tvNsec-start.tvNsec < 0 then
    { tvSec := stop.tvSec-start.tvSec-1, tvNsec := stop.tvNsec-start.tvNsec+1000000000 }
  else { tvSec := stop.tvSec-start.tvSec, tvNsec := stop.tvNsec-start.tvNsec }

/-- `struct entitypos`; there is one world only. -/
structure Entitypos where
  x : BitVec 64
  y : BitVec 64
  z : BitVec 64
  yaw : BitVec 32
  pitch : BitVec 32
  deriving DecidableEq, Repr, Inhabited

/-- The settings as the player keeps them; the locale is NULL where it could not be copied. -/
structure PlayerSettings where
  locale : Option (List UInt8)
  viewDistance : UInt8
  chatMode : McprChatMode
  chatColors : Bool
  mainHand : McprSideBasedHand
  displayedSkinParts : DisplayedSkinParts
  deriving DecidableEq, Repr, Inhabited

/-- `struct player` -/
structure Player where
  entityId : BitVec 32
  username : List UInt8
  uuid : Ninuuid
  clientBrand : Option (List UInt8)
  pos : Entitypos
  compassTarget : McprPosition
  invulnerable : Bool
  isFlying : Bool
  flyingSpeed : BitVec 32
  allowFlying : Bool
  gamemode : McprGamemode
  clientSettingsKnown : Bool
  clientSettings : PlayerSettings
  selectedSlot : UInt8
  lastTeleportId : BitVec 64
  lastKeepaliveReceived : Timespec
  lastKeepaliveSent : Timespec
  deriving DecidableEq, Repr, Inhabited

end Player

/-- A pointer that is set late and released early. -/
inductive Slot (α : Type)
  | unset
  | live (a : α)
  | released
  deriving DecidableEq, Repr, Inhabited

variable {κ ρ : Type}

/-- `tmp` of `struct connection`. A key is NULL where it could not be generated; nothing reads
the length of the token. -/
structure Tmp (ρ : Type) where
  verifyToken : Slot (List UInt8)
  rsa : Slot (Option ρ)
  username : Slot (List UInt8)
  deriving DecidableEq, Repr, Inhabited

/-- What happens on a connection, beside what its streams log. -/
inductive ServerEvent (ρ : Type)
  | handshake (serverAddress : List UInt8)
  | setState (state : McprState)
  | loginStart (name : List UInt8)
  | /-- A Login Start leaves a key and a token behind. -/
    issueToken (rsa : Option ρ) (verifyToken : List UInt8)
  | /-- An Encryption Response with this token is handled. -/
    encryptionResponse (verifyToken : List UInt8)
  | /-- A member of `tmp` is used: is it set and not released? -/
    useTmp (live : Bool)
  | /-- The session server answers with an id. -/
    hasJoined (username serverIdHash : List UInt8) (serverAddress : Option (List UInt8))
      (id : Ninuuid)
  | fwrite (id : McprPacketType)
  | /-- A packet went out while the connection was in a state. -/
    wrote (state : McprState) (id : McprPacketType)
  | /-- The connection or its packet stream is used: is it closed already? -/
    touch (closed : Bool)
  | connectionClose
  deriving DecidableEq, Repr

/-- `struct connection`. `listed` says whether it is in the list of clients, `freed` whether its
memory is given back. -/
structure Connection (κ ρ : Type) where
  objects : ConnObjects κ
  player : Option Player
  serverAddressUsed : Option (List UInt8)
  portUsed : BitVec 16
  connectedAt : ℤ
  tmpPresent : Bool
  tmp : Tmp ρ
  listed : Bool
  freed : Bool
  history : List (ServerEvent ρ)

def Connection.state (c : Connection κ ρ) : McprState := c.objects.conn.state

/-- Closed for good, or its `mcpr_connection` is. -/
def Connection.isClosed (c : Connection κ ρ) : Bool := c.freed || c.objects.conn.isClosed

/-- The connection that `accept_incoming_connections` puts into the list of clients. -/
def acceptConnection (ρ : Type) (garbage : Mem) (input : List UInt8) (now : ℤ) :
    Connection κ ρ where
  objects := mcprConnectionNew garbage input
  player := none
  serverAddressUsed := none
  portUsed := 0
  connectedAt := now
  tmpPresent := false
  tmp := { verifyToken := .unset, rsa := .unset, username := .unset }
  listed := true
  freed := false
  history := []

abbrev ConnectionProg (κ ρ : Type) := Prog (Connection κ ρ) Halt

/-- The packets that went out from `o` to `o'`, both in one state. -/
def wroteEvents (ρ : Type) (o o' : ConnObjects κ) : List (ServerEvent ρ) :=
  (o'.log.drop o.log.length).filterMap fun
    | .writePacket id => some (.wrote o.conn.state id)
    | _ => none

/-- A call of `mcpr/connection.c`. -/
def onObjects {α : Type} (m : ConnProg κ α) : ConnectionProg κ ρ α := ⟨fun c =>
  ((m.run c.objects).1, { c with
    objects := (m.run c.objects).2
    history := c.history ++ wroteEvents ρ c.objects (m.run c.objects).2 })⟩

def note (e : ServerEvent ρ) : ConnectionProg κ ρ Unit :=
  modify fun c => { c with history := c.history ++ [e] }

/-- Any use of the connection. -/
def touch : ConnectionProg κ ρ Unit := do
  let c ← get
  note (.touch c.isClosed)
  if c.freed then exit .undefined else pure ()

def setPlayer (f : Player → Player) : ConnectionProg κ ρ Unit :=
  modify fun c => { c with player := c.player.map f }

/-- Use a member of `tmp`. -/
def useTmp {α : Type} (member : Tmp ρ → Slot α) : ConnectionProg κ ρ α := do
  let c ← get
  match member c.tmp with
  | .live a => do
    note (.useTmp true)
    return a
  | _ => do
    note (.useTmp false)
    exit .undefined

/-- Release a member of `tmp`, which is to use it for the last time. -/
def releaseTmp {α : Type} (member : Tmp ρ → Slot α) (release : Tmp ρ → Tmp ρ) :
    ConnectionProg κ ρ Unit := do
  let _ ← useTmp member
  modify fun c => { c with tmp := release c.tmp }

/-- `ninerr` as a caller finds it after a failure. -/
structure ErrorSeen where
  type : List UInt8
  message : Option (List UInt8)
  deriving DecidableEq, Repr

def ninerrClosed : List UInt8 := ascii "ninerr_closed"

/-- How `fwrite` of a packet on the packet stream fares: what the write that it leads to finds
around it, whether the buffer of the stream takes the packet over, so that `fwrite` does not see what
becomes of it, and what `ninerr` is if no item is reported. -/
structure StreamWrite where
  env : WriteEnv
  buffered : Bool
  ninerr : Option ErrorSeen

/-- Everything goes well. -/
instance : Inhabited StreamWrite := ⟨{ env := default, buffered := true, ninerr := none }⟩

/-- `ninerr != NULL && strcmp(ninerr->type, "ninerr_closed") == 0` -/
def StreamWrite.closed (w : StreamWrite) : Bool :=
  match w.ninerr with
  | some err => err.type = ninerrClosed
  | none => false

section Stream
variable (cipher : Cipher κ)

/-- `fwrite(pkt, sizeof(struct mcpr_packet), 1, pktstream)`; is an item reported? It is if the packet
stays in the buffer for the time being, or if the write function takes all of its bytes. -/
def fwritePacket (w : StreamWrite) (pkt : McprPacket) : ConnectionProg κ ρ Bool := do
  touch
  note (.fwrite pkt.id)
  let size := sizeofMcprPacket
  let accepted ← onObjects (mcprConnectionStreamWrite cipher w.env size pkt size.bytes)
  return w.buffered || decide (size.bytes ≤ accepted)

/-- `closing` says how the writes of `mcpr_connection_close` fare. -/
structure CloseEnv where
  fuel : ℕ
  closing : ℕ → WriteEnv

def connectionClose (env : CloseEnv) (disconnectMessage : Option (List UInt8)) :
    ConnectionProg κ ρ Unit := do
  touch
  let c ← get
  if c.listed = false then exit .exitFailure
  else do
    note .connectionClose
    modify fun c => { c with listed := false }
    onObjects (mcprConnectionClose cipher env.closing env.fuel disconnectMessage)
    modify fun c => { c with freed := true }

end Stream

/-- `mcpr_as_chat` on what its format comes to; `ok` says whether its allocations succeed. -/
def mcprAsChat (ok : Bool) (message : List UInt8) : Option (List UInt8) :=
  if ok then some (ascii "\x7b\"text\":\"" ++ message ++ ascii "\"\x7d") else none

end Stronk.Mcpr
