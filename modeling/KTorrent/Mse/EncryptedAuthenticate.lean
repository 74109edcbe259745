import KTorrent.Lib.GuardedRun
import KTorrent.Mse.EncryptedServerAuthenticate

/-!
# The side that makes the connection

An encrypted authentication of an outgoing connection: the handlers of the source and `onReadyRead`,
which collects bytes and calls the handler of the state.

* `connected` — the connection stands, and Ya is sent.
* `receive` — bytes arrive and `onReadyRead` is called; `poll` does the same if there is anything to
  read.
* `sent` and `handed` record what was sent, and the socket as it was handed to the plain handshake
  with what arrived on it since; `overrun` records that `handlePadD` wrote behind the end of the
  buffer, from where on what the code does is not in the model. The source has no such fields.

Source: `mse/encryptedauthenticate.h`, `mse/encryptedauthenticate.cpp`
-/

namespace KTorrent.Mse

open KTorrent.Lib KTorrent.Util KTorrent.Storage
open StreamSocket (arrive)

/-- The flags, the info hash and the id of a handshake.
Source: `AuthenticateBase::makeHandshake`. Kind: D -/
def AuthenticateBase.makeHandshake (dht : Bool) (info_hash : SHA1Hash)
    (our_peer_id : Vector UInt8 20) : List UInt8 :=
  pstr ++ [0, 0, 0, 0, 0, 0x10, 0, if dht then 0x05 else 0x04] ++ info_hash.toList ++
    our_peer_id.toList

/-- Source: `mse/encryptedauthenticate.h`, `State`. Kind: D -/
inductive EncryptedAuthenticate.State
  | notConnected
  | sentYA
  | gotYB
  | foundVC
  | waitForPadD
  | normalHandshake
deriving DecidableEq

/-- Source: `mse/encryptedauthenticate.h`, `EncryptedAuthenticate`. Kind: D -/
structure EncryptedAuthenticate where
  base : AuthenticateBase
  state : EncryptedAuthenticate.State := .notConnected
  /-- The `buf_size` bytes of the buffer that have been received. -/
  buf : List UInt8 := []
  yb : ℕ := 0
  s : ℕ := 0
  enc : SHA1Hash := Vector.replicate 20 0
  dec : SHA1Hash := Vector.replicate 20 0
  /-- `none` is a null pointer. -/
  our_rc4 : Option RC4Encryptor := none
  vc_off : ℕ := 0
  crypto_select : ℕ := 0
  pad_D_len : ℕ := 0
  sent : List (List UInt8) := []
  handed : Option StreamSocket := none
  overrun : Bool := false

namespace EncryptedAuthenticate

/-- Source: `mse/encryptedauthenticate.h`, `MAX_EA_BUF_SIZE`. Kind: D -/
def MAX_EA_BUF_SIZE : ℕ := 622 + 512

/-- What an authentication works with. Kind: D -/
structure Env where
  server : Server
  xa : ℕ
  /-- What `connected` sends: the 96 bytes of `ya` and a padding of random length. -/
  ya : List UInt8
  info_hash : SHA1Hash
  our_peer_id : Vector UInt8 20
  dht : Bool
  /-- What a local buffer holds when the secret is written to it. -/
  stack : Site → Vector UInt8 96
  /-- The decision about the plain handshake. -/
  handshakeRecieved : Bool → List UInt8 → Verdict

/-- A change of the socket. Kind: D -/
def onSock (f : StreamSocket → StreamSocket) (a : EncryptedAuthenticate) : EncryptedAuthenticate :=
  { a with base := { a.base with sock := a.base.sock.map f } }

/-- Source: `Authenticate::onFinish`. Kind: D -/
def onFinish (succes : Bool) (a : EncryptedAuthenticate) : EncryptedAuthenticate :=
  { a with base := a.base.onFinish succes }

/-- `sock->sendData(data, len)`. Kind: D -/
def sendData (data : List UInt8) (a : EncryptedAuthenticate) : EncryptedAuthenticate :=
  { a with sent := a.sent ++ [data] }

variable (env : Env)

/-- Source: `EncryptedAuthenticate::connected`. Kind: D -/
def connected (a : EncryptedAuthenticate) : EncryptedAuthenticate :=
  { a.sendData env.ya with state := .sentYA }

/-- Source: `EncryptedAuthenticate::handlePadD`, with `StreamSocket::setRC4Encryptor`. Kind: D -/
def handlePadD (a : EncryptedAuthenticate) : EncryptedAuthenticate :=
  match a.our_rc4 with
  | none => a
  | some e =>
    let off := a.vc_off + 14 + a.pad_D_len
    let d := e.decryptAt (a.vc_off + 14) a.pad_D_len a.buf
    let a := { a with
      buf := d.1
      our_rc4 := none
      overrun := a.overrun || decide (off > MAX_EA_BUF_SIZE) }
    if a.crypto_select &&& 1 = 0 ∧ a.crypto_select &&& 2 = 0 then
      { a with our_rc4 := some d.2 }.onFinish false
    else
      let a := if a.crypto_select &&& 1 ≠ 0 then a
        else a.onSock fun s => { s with enc := some d.2 }
      let a := { a with state := .normalHandshake }
      if a.buf.length > off then
        let a := a.onSock (StreamSocket.reinsert (a.buf.drop off))
        { a with handed := a.base.sock, base := a.base.onReadyRead env.handshakeRecieved }
      else { a with handed := a.base.sock }

/-- Source: `EncryptedAuthenticate::handleCryptoSelect`. Kind: D -/
def handleCryptoSelect (a : EncryptedAuthenticate) : EncryptedAuthenticate :=
  if a.vc_off + 14 ≥ a.buf.length then a
  else match a.our_rc4 with
    | none => a
    | some e =>
      let d := e.decryptAt a.vc_off 14 a.buf
      let a := { a with buf := d.1, our_rc4 := some d.2 }
      if (a.buf.drop a.vc_off).take 8 ≠ zeros 8 then a.onFinish false
      else
        let a := { a with
          crypto_select := readUint32 a.buf (a.vc_off + 8)
          pad_D_len := readUint16 a.buf (a.vc_off + 12) }
        if a.pad_D_len > 512 then a.onFinish false
        else if ¬ a.vc_off + 14 + a.pad_D_len < a.buf.length then { a with state := .waitForPadD }
        else a.handlePadD env

/-- Source: `EncryptedAuthenticate::findVC`. Kind: D -/
def findVC (a : EncryptedAuthenticate) : EncryptedAuthenticate :=
  let vc := (RC4Encryptor.encrypt (zeros 8) (.make a.enc a.dec)).1
  match (List.range' 96 (a.buf.length - 8 - 96)).find? fun i => (a.buf.drop i).take 8 = vc with
  | some i => { a with state := .foundVC, vc_off := i }.handleCryptoSelect env
  | none => if a.buf.length ≥ 616 then a.onFinish false else a

/-- What is encrypted of the third message: the constant, the methods offered, no padding, and the
plain handshake with its length. Source: `EncryptedAuthenticate::handleYB`. Kind: D -/
def offer : List UInt8 :=
  zeros 8 ++ [0, 0, 0, if env.server.allow_unencrypted then 0x03 else 0x02] ++ uint16Bytes 0 ++
    uint16Bytes 68 ++ AuthenticateBase.makeHandshake env.dht env.info_hash env.our_peer_id

/-- Source: `EncryptedAuthenticate::handleYB`. Kind: D -/
def handleYB (a : EncryptedAuthenticate) : EncryptedAuthenticate :=
  if a.buf.length < 96 then a.onFinish false
  else
    let yb := fromBuffer (a.buf.take 96)
    let s := DHSecret env.xa yb
    let secret := fun site => toBuffer (env.stack site).toList s
    let enc := EncryptionKey true (secret .keyA) env.info_hash
    let dec := EncryptionKey false (secret .keyB) env.info_hash
    let a := { a with yb := yb, s := s, state := .gotYB, enc := enc, dec := dec }
    let a := a.sendData (req1Hash (secret .req1)).toList
    let a := a.sendData (xorHash (req2Hash env.info_hash) (req3Hash (secret .req3))).toList
    let r := (RC4Encryptor.make dec enc).encrypt (offer env)
    ({ a with our_rc4 := some r.2 }.sendData r.1).findVC env

/-- How many of the bytes available `onReadyRead` reads before the plain handshake.
Source: `EncryptedAuthenticate::onReadyRead`. Kind: D -/
def toRead (ba : ℕ) (a : EncryptedAuthenticate) : ℕ :=
  let ba := min ba (MAX_EA_BUF_SIZE - a.buf.length)
  if a.pad_D_len > 0 ∧ a.buf.length + ba > a.vc_off + 14 + a.pad_D_len then
    a.vc_off + 14 + a.pad_D_len - a.buf.length
  else ba

/-- `buf_size += sock->readData(buf + buf_size, ba)`. Kind: D -/
def fill (s : StreamSocket) (ba : ℕ) (a : EncryptedAuthenticate) : EncryptedAuthenticate :=
  let r := s.readData ba ba
  { a with buf := a.buf ++ r.buf.take r.ret, base := { a.base with sock := some r.sock } }

/-- Source: `EncryptedAuthenticate::onReadyRead`. Kind: D -/
def onReadyRead (a : EncryptedAuthenticate) : EncryptedAuthenticate :=
  if a.base.finished then a
  else match a.base.sock with
    | none => a
    | some s =>
      if s.bytesAvailable = 0 then a.onFinish false
      else
        let ba := a.toRead s.bytesAvailable
        match a.state with
        | .notConnected => a.fill s ba
        | .sentYA => if ba > 608 then (a.fill s ba).onFinish false else (a.fill s ba).handleYB env
        | .gotYB => (a.fill s ba).findVC env
        | .foundVC => (a.fill s ba).handleCryptoSelect env
        | .waitForPadD => (a.fill s ba).handlePadD env
        | .normalHandshake => { a with base := a.base.onReadyRead env.handshakeRecieved }

/-- Bytes arrive and `onReadyRead` is called; without bytes, the connection is closed.
Source: `torrent/authenticationmonitor.cpp`, `handleData`. Kind: D -/
def receive (a : EncryptedAuthenticate) (d : List UInt8) : EncryptedAuthenticate :=
  { a.onSock (arrive d) with handed := a.handed.map (arrive d) }.onReadyRead env

/-- Bytes arrive, or none do and the monitor polls again: it calls `onReadyRead` if there are bytes
to read. Source: `torrent/authenticationmonitor.cpp`, `update`, `handleData`. Kind: D -/
def poll (a : EncryptedAuthenticate) (d : List UInt8) : EncryptedAuthenticate :=
  if d = [] ∧ (a.base.sock.map StreamSocket.sock).getD [] = [] then a else receive env a d

/-- Source: `EncryptedAuthenticate::EncryptedAuthenticate`. Kind: D -/
def make : EncryptedAuthenticate := { base := { sock := some {} } }

end EncryptedAuthenticate

end KTorrent.Mse
