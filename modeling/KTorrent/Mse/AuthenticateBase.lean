import KTorrent.Mse.StreamSocket
import KTorrent.Util.SHA1HashGen

/-!
# The plain handshake

The 68 bytes that both authentications end with. `AuthenticateBase.onReadyRead` reads them from the
socket, at once or in two parts; what is done with them is the `Verdict` of the two subclasses.

* `ServerAuthenticate.handshakeRecieved`, `Authenticate.handshakeRecieved` — the checks of the side
  that was contacted and of the side that made the connection.

After success the socket stays with the authentication here; the source hands it to the peer
manager. What is sent in the plain handshake is left out.

Source: `torrent/authenticatebase.cpp`, `torrent/serverauthenticate.cpp`, `torrent/authenticate.cpp`
-/

namespace KTorrent.Mse

open KTorrent.Lib KTorrent.Util KTorrent.Storage

/-- Source: `torrent/authenticatebase.h`, `AuthenticateBase`. Kind: D -/
structure AuthenticateBase where
  /-- `none` is a null pointer. -/
  sock : Option StreamSocket
  handshake : List UInt8 := List.replicate 68 0
  bytes_of_handshake_recieved : ℕ := 0
  finished : Bool := false
  succes : Bool := false
deriving DecidableEq

/-- What a subclass decides about a handshake. Kind: D -/
inductive Verdict
  | fail
  | wait
  | accept
deriving DecidableEq

/-- What a peer manager answers. Kind: D -/
structure Pman where
  peer_id : List UInt8
  connectedTo : List UInt8 → Bool

/-- The checks of the side that was contacted. Source: `ServerAuthenticate::handshakeRecieved`.
Kind: D -/
def ServerAuthenticate.handshakeRecieved (blocked : Bool)
    (findPeerManager : List UInt8 → Option Pman) (full : Bool) (hs : List UInt8) : Verdict :=
  if blocked then .fail
  else match findPeerManager ((hs.drop 28).take 20) with
    | none => .fail
    | some pman =>
      if full then
        if pman.peer_id = (hs.drop 48).take 20 then .fail
        else if pman.connectedTo ((hs.drop 48).take 20) then .fail
        else .accept
      else .wait

/-- The checks of the side that made the connection. Source: `Authenticate::handshakeRecieved`.
Kind: D -/
def Authenticate.handshakeRecieved (blocked : Bool) (info_hash : List UInt8) (pman : Pman)
    (full : Bool) (hs : List UInt8) : Verdict :=
  if blocked then .fail
  else if (hs.drop 28).take 20 ≠ info_hash then .fail
  else if pman.peer_id = (hs.drop 48).take 20 then .fail
  else if pman.connectedTo ((hs.drop 48).take 20) then .fail
  else if full then .accept
  else .wait

namespace AuthenticateBase

/-- Source: `ServerAuthenticate::onFinish`, `Authenticate::onFinish`. Kind: D -/
def onFinish (succes : Bool) (a : AuthenticateBase) : AuthenticateBase :=
  { a with finished := true, succes := succes, sock := if succes then a.sock else none }

/-- `handshakeRecieved(full)`, with the decision of the subclass. Kind: D -/
def decided (decide : Bool → List UInt8 → Verdict) (full : Bool) (a : AuthenticateBase) :
    AuthenticateBase :=
  match decide full a.handshake with
  | .fail => a.onFinish false
  | .wait => a
  | .accept => a.onFinish true

/-- The first 20 bytes every handshake starts with: 19 and "BitTorrent protocol". Kind: D -/
def pstr : List UInt8 :=
  [19, 66, 105, 116, 84, 111, 114, 114, 101, 110, 116, 32, 112, 114, 111, 116, 111, 99, 111, 108]

/-- Source: `AuthenticateBase::onReadyRead`. Kind: D -/
def onReadyRead (decide : Bool → List UInt8 → Verdict) (a : AuthenticateBase) :
    AuthenticateBase :=
  match a.sock with
  | none => a
  | some s =>
    let ba := s.bytesAvailable
    if ba = 0 then a.onFinish false
    else if a.finished ∨ ba < 48 then a
    else if a.bytes_of_handshake_recieved = 0 ∧ ba < 68 then
      let r := s.readData ba ba
      { a with
        handshake := overwrite a.handshake 0 r.buf
        bytes_of_handshake_recieved := ba
        sock := some r.sock }.decided decide false
    else
      let to_read := 68 - a.bytes_of_handshake_recieved
      let r := s.readData to_read to_read
      let a := { a with
        handshake := overwrite a.handshake a.bytes_of_handshake_recieved r.buf
        sock := some r.sock }
      if a.handshake.take 20 = pstr then a.decided decide true else a.onFinish false

/-- Before the plain handshake, with a socket that has the bytes `l` to give. Kind: D -/
def fresh (l : List UInt8) : AuthenticateBase := { sock := some ⟨none, none, l⟩ }

end AuthenticateBase

/-- Bytes arrive at the socket. Kind: D -/
def StreamSocket.arrive (d : List UInt8) (s : StreamSocket) : StreamSocket :=
  { s with sock := s.sock ++ d }

/-- Reading from a socket without an encryptor and without reinserted bytes.
Source: `StreamSocket::readData`. Kind: L -/
theorem StreamSocket.readData_plain (l : List UInt8) (len : ℕ) :
    readData len len ⟨none, none, l⟩ = ⟨l.take len, (l.take len).length, ⟨none, none, l.drop len⟩⟩ := by
  show readRest len len [] ⟨none, none, l⟩ = _
  unfold readRest
  by_cases hlen : len = 0
  · rw [if_pos (by simpa using hlen), hlen]
    rfl
  · rw [if_neg (by simpa using hlen)]
    have hrecv : recv (len - ([] : List UInt8).length) len ⟨none, none, l⟩ =
        (l.take len, ⟨none, none, l.drop len⟩) := by
      simp [recv]
    dsimp only
    rw [hrecv]
    split_ifs with hpos
    · rfl
    · have hnil : l.take len = [] := 
        List.eq_nil_of_length_eq_zero (Nat.eq_zero_of_not_pos hpos)
      rw [hnil]

end KTorrent.Mse
