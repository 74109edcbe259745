import KTorrent.Lib.GuardedRun
import KTorrent.Mse.AuthenticateBase
import KTorrent.Mse.InPlace
import KTorrent.Mse.Secret

/-!
# The side that was contacted

An encrypted authentication of an incoming connection: the handlers of the source, each of which
works on the bytes collected so far and returns when there are too few of them, and `onReadyRead`,
which collects and calls the handler of the state.

* `receive` — bytes arrive and `onReadyRead` is called; a run of the authentication is a list of
  such arrivals. `poll` does the same if there is anything to read.
* `sent` and `handed` record what was sent before the plain handshake, and the socket as it was
  handed to the plain handshake with what arrived on it since; the source has no such fields.

Source: `mse/encryptedserverauthenticate.h`, `mse/encryptedserverauthenticate.cpp`,
`torrent/server.cpp`
-/

namespace KTorrent.Mse

open KTorrent.Lib KTorrent.Util KTorrent.Storage
open StreamSocket (arrive)

/-- What the authentications read of the server. Source: `torrent/server.h`, `Server`. Kind: D -/
structure Server where
  /-- The info hashes of the peer managers, in order. -/
  infoHashes : List SHA1Hash
  allow_unencrypted : Bool

/-- Source: `Server::findInfoHash`. Kind: D -/
def Server.findInfoHash (skey : SHA1Hash) (server : Server) : Option SHA1Hash :=
  server.infoHashes.find? fun h => req2Hash h = skey

/-- A value for each state of the authentication.
Source: `mse/encryptedserverauthenticate.h`, `State`. Kind: D -/
inductive EncryptedServerAuthenticate.State
  | waitingForYA
  | waitingForReq1
  | foundReq1
  | foundInfoHash
  | waitForPadC
  | waitForIA
  | nonEncryptedHandshake
deriving DecidableEq

/-- Source: `mse/encryptedserverauthenticate.h`, `EncryptedServerAuthenticate`. Kind: D -/
structure EncryptedServerAuthenticate where
  base : AuthenticateBase
  state : EncryptedServerAuthenticate.State := .waitingForYA
  /-- The `buf_size` bytes of the buffer that have been received. -/
  buf : List UInt8 := []
  ya : ℕ := 0
  s : ℕ := 0
  req1_off : ℕ := 0
  info_hash : SHA1Hash := Vector.replicate 20 0
  /-- `none` is a null pointer. -/
  our_rc4 : Option RC4Encryptor := none
  pad_C_len : ℕ := 0
  ia_len : ℕ := 0
  crypto_provide : ℕ := 0
  crypto_select : ℕ := 0
  sent : List (List UInt8) := []
  handed : Option StreamSocket := none

namespace EncryptedServerAuthenticate

/-- Source: `mse/encryptedserverauthenticate.h`, `MAX_SEA_BUF_SIZE`. Kind: D -/
def MAX_SEA_BUF_SIZE : ℕ := 608 + 20 + 20 + 8 + 4 + 2 + 512 + 2 + 68

/-- What an authentication works with. Kind: D -/
structure Env where
  server : Server
  xb : ℕ
  /-- What `sendYB` sends: the 96 bytes of `yb` and a padding of random length. -/
  yb : List UInt8
  /-- What a local buffer holds when the secret is written to it, by what it is for and by the
  number of bytes received. -/
  stack : Site → ℕ → Vector UInt8 96
  /-- The decision about the plain handshake. -/
  handshakeRecieved : Bool → List UInt8 → Verdict

/-- A change of the socket. Kind: D -/
def onSock (f : StreamSocket → StreamSocket) (a : EncryptedServerAuthenticate) :
    EncryptedServerAuthenticate :=
  { a with base := { a.base with sock := a.base.sock.map f } }

/-- Source: `ServerAuthenticate::onFinish`. Kind: D -/
def onFinish (succes : Bool) (a : EncryptedServerAuthenticate) : EncryptedServerAuthenticate :=
  { a with base := a.base.onFinish succes }

/-- `sock->sendData(data, len)`. Kind: D -/
def sendData (data : List UInt8) (a : EncryptedServerAuthenticate) : EncryptedServerAuthenticate :=
  { a with sent := a.sent ++ [data] }

variable (env : Env)

/-- The secret as it stands in the buffer of a site. Kind: D -/
def secretAt (site : Site) (a : EncryptedServerAuthenticate) : List UInt8 :=
  toBuffer (env.stack site a.buf.length).toList a.s

/-- `state = NON_ENCRYPTED_HANDSHAKE; ServerAuthenticate::onReadyRead();`. Kind: D -/
def switchToPlain (a : EncryptedServerAuthenticate) : EncryptedServerAuthenticate :=
  { a with
    state := .nonEncryptedHandshake
    handed := a.base.sock
    base := a.base.onReadyRead env.handshakeRecieved }

/-- Source: `EncryptedServerAuthenticate::handleIA`, with `StreamSocket::setRC4Encryptor`.
Kind: D -/
def handleIA (a : EncryptedServerAuthenticate) : EncryptedServerAuthenticate :=
  if a.buf.length < a.req1_off + 54 + a.pad_C_len + 2 + a.ia_len then a
  else
    let off := a.req1_off + 54 + a.pad_C_len + 2
    let a := if a.ia_len > 0 then a.onSock (StreamSocket.reinsert (a.buf.drop off)) else a
    if a.crypto_select &&& 2 ≠ 0 then
      { a.onSock (fun s => { s with enc := a.our_rc4 }) with our_rc4 := none }.switchToPlain env
    else if env.server.allow_unencrypted = false ∧ a.crypto_select &&& 1 ≠ 0 then a.onFinish false
    else { a with our_rc4 := none }.switchToPlain env

/-- Source: `EncryptedServerAuthenticate::handlePadC`. Kind: D -/
def handlePadC (a : EncryptedServerAuthenticate) : EncryptedServerAuthenticate :=
  if a.buf.length < a.req1_off + 54 + a.pad_C_len + 2 then a
  else match a.our_rc4 with
    | none => a
    | some e =>
      let off := a.req1_off + 54
      let d := e.decryptAt off (a.pad_C_len + 2) a.buf
      let a := { a with
        buf := d.1
        our_rc4 := some d.2
        ia_len := readUint16 d.1 (off + a.pad_C_len) }
      -- pad C and the two bytes of the length are forgotten here
      if a.buf.length < off + a.ia_len then { a with state := .waitForIA }
      else a.handleIA env

/-- The reply of `processVC` before it is encrypted. Kind: D -/
def select (crypto_select : ℕ) : List UInt8 := zeros 8 ++ uint32Bytes crypto_select ++ uint16Bytes 0

/-- The encryptor `processVC` makes if there is none. Kind: D -/
def makeRC4 (a : EncryptedServerAuthenticate) : RC4Encryptor :=
  .make (EncryptionKey true (a.secretAt env .keyA) a.info_hash)
    (EncryptionKey false (a.secretAt env .keyB) a.info_hash)

/-- Source: `EncryptedServerAuthenticate::processVC`. Kind: D -/
def processVC (a : EncryptedServerAuthenticate) : EncryptedServerAuthenticate :=
  let e := a.our_rc4.getD (a.makeRC4 env)
  let a := { a with our_rc4 := some e }
  if a.buf.length < a.req1_off + 40 + 14 then a
  else
    let off := a.req1_off + 40
    let d := e.decryptAt off 14 a.buf
    let a := { a with buf := d.1, our_rc4 := some d.2 }
    if (a.buf.drop off).take 8 ≠ zeros 8 then a.onFinish false
    else
      let a := { a with
        crypto_provide := readUint32 a.buf (off + 8)
        pad_C_len := readUint16 a.buf (off + 12) }
      if a.pad_C_len > 512 then a.onFinish false
      else
        let a := { a with crypto_select := if a.crypto_provide &&& 2 ≠ 0 then 2 else 1 }
        let r := d.2.encrypt (select a.crypto_select)
        let a := { a with our_rc4 := some r.2 }.sendData r.1
        -- pad C starts 40 bytes further on than this says
        if a.buf.length < a.req1_off + 14 + a.pad_C_len then { a with state := .waitForPadC }
        else a.handlePadC env

/-- Source: `EncryptedServerAuthenticate::calculateSKey`. Kind: D -/
def calculateSKey (a : EncryptedServerAuthenticate) : EncryptedServerAuthenticate :=
  if a.req1_off + 40 > a.buf.length then a
  else
    let r3 := req3Hash (a.secretAt env .req3)
    let r := hashAt a.buf (a.req1_off + 20)
    match env.server.findInfoHash (xorHash r r3) with
    | none => a.onFinish false
    | some info_hash =>
      { a with info_hash := info_hash, state := .foundInfoHash }.processVC env

/-- Source: `EncryptedServerAuthenticate::findReq1`. Kind: D -/
def findReq1 (a : EncryptedServerAuthenticate) : EncryptedServerAuthenticate :=
  if a.buf.length < 116 then a
  else
    let req1 := req1Hash (a.secretAt env .req1)
    match (List.range' 96 (a.buf.length - 20 - 96)).find? fun i =>
        (a.buf.drop i).take 20 = req1.toList with
    | some i => { a with state := .foundReq1, req1_off := i }.calculateSKey env
    | none => if a.buf.length > 608 then a.onFinish false else a

/-- Source: `EncryptedServerAuthenticate::handleYA`. Kind: D -/
def handleYA (a : EncryptedServerAuthenticate) : EncryptedServerAuthenticate :=
  let a := a.sendData env.yb
  let ya := fromBuffer (a.buf.take 96)
  { a with ya := ya, s := DHSecret env.xb ya, state := .waitingForReq1 }.findReq1 env

/-- `buf_size += sock->readData(buf + buf_size, ba)`. Kind: D -/
def fill (s : StreamSocket) (ba : ℕ) (a : EncryptedServerAuthenticate) :
    EncryptedServerAuthenticate :=
  let r := s.readData ba ba
  { a with buf := a.buf ++ r.buf.take r.ret, base := { a.base with sock := some r.sock } }

/-- Source: `EncryptedServerAuthenticate::onReadyRead`. Kind: D -/
def onReadyRead (a : EncryptedServerAuthenticate) : EncryptedServerAuthenticate :=
  match a.base.sock with
  | none => a
  | some s =>
    if s.bytesAvailable = 0 then a.onFinish false
    else
      let ba := min s.bytesAvailable (MAX_SEA_BUF_SIZE - a.buf.length)
      match a.state with
      | .waitingForYA =>
        if ba ≤ 68 ∧ env.server.allow_unencrypted then a.switchToPlain env
        else
          let a := a.fill s ba
          if a.buf.length ≥ 96 then a.handleYA env else a
      | .waitingForReq1 => (a.fill s ba).findReq1 env
      | .foundReq1 => (a.fill s ba).calculateSKey env
      | .foundInfoHash => (a.fill s ba).processVC env
      | .waitForPadC => (a.fill s ba).handlePadC env
      | .waitForIA => (a.fill s ba).handleIA env
      | .nonEncryptedHandshake => { a with base := a.base.onReadyRead env.handshakeRecieved }

/-- Bytes arrive, or the connection is closed, and the monitor calls `onReadyRead` unless the
authentication is finished. Source: `torrent/authenticationmonitor.cpp`, `handleData`. Kind: D -/
def receive (a : EncryptedServerAuthenticate) (d : List UInt8) : EncryptedServerAuthenticate :=
  let a := { a.onSock (arrive d) with handed := a.handed.map (arrive d) }
  if a.base.finished then a else a.onReadyRead env

/-- Bytes arrive, or none do and the monitor polls again: it calls `onReadyRead` if there are bytes
to read. Source: `torrent/authenticationmonitor.cpp`, `update`, `handleData`. Kind: D -/
def poll (a : EncryptedServerAuthenticate) (d : List UInt8) : EncryptedServerAuthenticate :=
  if d = [] ∧ (a.base.sock.map StreamSocket.sock).getD [] = [] then a else receive env a d

/-- An authentication of a new connection.
Source: `EncryptedServerAuthenticate::EncryptedServerAuthenticate`. Kind: D -/
def make : EncryptedServerAuthenticate := { base := { sock := some {} } }

end EncryptedServerAuthenticate

end KTorrent.Mse
