import KTorrent.Util.Numeral
import Mathlib.Data.Int.Init

/-!
# `kt::HttpServer`

The web interface answers requests one after the other. It has one session, which a successful login
makes and a request for the login page ends.

* `checkLogin`, `checkSession` — the two ways to be let in.
* `handleGet`, `handlePost`, `handleTorrentPost` — what is done for a request, as a list of effects.

Time is in milliseconds; `TQTime` knows the time of the day only. The records `login` and `accepted`
are not in the source: the ID the last successful login was given, and the time at which a request was
last accepted for it.

What the library makes of a path (`KURL`), what is on the disk and what a php command returns are
answers in `Request`. A text is a list of Latin-1 characters.

Source: `plugins/webinterface/httpserver.h`, `plugins/webinterface/httpserver.cpp`
-/

namespace KTorrent.Web

open KTorrent.Util

/-- A text. -/
abbrev Text := List UInt8

/-- Milliseconds in a day. Kind: D -/
def day : ℕ := 86400000

/-- `last_access` is the time of the day. Source: `plugins/webinterface/httpserver.h`, `Session`.
Kind: D -/
structure Session where
  logged_in : Bool
  last_access : ℕ
  sessionId : ℤ

/-- Source: `plugins/webinterface/httpserver.h`, `HttpServer`. Kind: D -/
structure HttpServer where
  session : Session
  /-- The time. -/
  now : ℕ := 0
  /-- The ID of the last successful login. -/
  login : Option ℤ := none
  /-- When a request was last accepted for it. -/
  accepted : ℕ := 0

/-- Source: `WebInterfacePluginSettings`. Kind: D -/
structure Settings where
  username : Text
  /-- The MD5 of the password, as text. -/
  password : Text
  sessionTTL : ℤ
  skin : Text

/-- A request, and what it meets. Kind: D -/
structure Request where
  /-- The milliseconds since the request before. -/
  wait : ℕ
  post : Bool
  path : Text
  content_type : Text := []
  cookie : Option Text := none
  data : Text := []
  settings : Settings
  rootDir : Text
  /-- `KMD5::hexDigest`. -/
  hexDigest : Text → Text
  /-- The next value of `rand`. -/
  rand : ℕ
  /-- `KURL::path` of a path and query. -/
  urlPath : Text → Text
  /-- `KURL::queryItems`. -/
  queryItems : Text → List (Text × Text)
  /-- The files that exist, and those that can be opened. -/
  disk : Text → Bool
  opens : Text → Bool
  /-- The page was asked for if modified since a date before its last modification. -/
  modified : Bool := false
  /-- `PhpInterface::exec` asks for a shutdown. -/
  shutdown : Bool := false
  /-- A temporary file can be made. -/
  temporary : Bool := true

/-- What is done for a request. Kind: D -/
inductive Effect
  | exec (url : Text)
  | runPHP (path : Text)
  | load (torrent : Text)
  | sendFile (path : Text)
  | send404
  | send500
  | notModified
deriving DecidableEq

/-! ### Texts -/

/-- Source: `TQString::find`. Kind: D -/
def find (str : Text) : Text → Option ℕ
  | [] => if str = [] then some 0 else none
  | c :: s => if str.isPrefixOf (c :: s) then some 0 else (find str s).map (· + 1)

/-- The parts that are not empty. Source: `TQStringList::split`. Kind: D -/
def split (sep : UInt8) (s : Text) : List Text :=
  (s.splitBy fun _ d => d ≠ sep).map (·.dropWhile (· = sep)) |>.filter (· ≠ [])

/-- Source: `TQString::section(sep,0,0)`. Kind: D -/
def section0 (sep : UInt8) (s : Text) : Text := s.takeWhile (· ≠ sep)

/-- Null without a separator. Source: `TQString::section(sep,1,1)`. Kind: D -/
def section1 (sep : UInt8) (s : Text) : Option Text :=
  if sep ∈ s then some (((s.dropWhile (· ≠ sep)).drop 1).takeWhile (· ≠ sep)) else none

/-- Source: `TQChar::lower`. Kind: D -/
def lower (c : UInt8) : UInt8 :=
  if (65 ≤ c ∧ c ≤ 90) ∨ (192 ≤ c ∧ c ≤ 222 ∧ c ≠ 215) then c + 32 else c

/-- Source: `TQChar::isNumber`. Kind: D -/
def isNumber (c : UInt8) : Bool :=
  (48 ≤ c && c ≤ 57) || c == 178 || c == 179 || c == 185 || c == 188 || c == 189 || c == 190

/-- Everything behind the first dot of the file's name. Source: `TQFileInfo::extension`. Kind: D -/
def extension (path : Text) : Text :=
  let name := (path.reverse.takeWhile (· ≠ '/'.toUInt8)).reverse
  (name.dropWhile (· ≠ '.'.toUInt8)).drop 1

/-- Source: `TQHttpHeader::contentType`. Kind: D -/
def contentType (value : Text) : Text :=
  if ';'.toUInt8 ∈ value then
    (((value.takeWhile (· ≠ ';'.toUInt8)).dropWhile TQString.isSpace).reverse.dropWhile
      TQString.isSpace).reverse
  else value

/-! ### Logging in -/

/-- A hexadecimal digit. Source: `DecodeEscapedChar`. Kind: D -/
def isHexDigit (a : UInt8) : Bool := isNumber a || (97 ≤ a && a ≤ 102)

/-- Source: `DecodeEscapedChar`, the nibbles. Kind: D -/
def nibble (a : UInt8) : UInt8 := a - (if isNumber a then 48 else 97)

/-- The password and the index to go on from. Source: `DecodeEscapedChar`. Kind: D -/
def decodeEscapedChar (password : Text) (idx : ℕ) : Text × ℕ :=
  let a := lower (password.getD (idx + 1) 0)
  let b := lower (password.getD (idx + 2) 0)
  if !isHexDigit a then (password, idx + 2)
  else if !isHexDigit b then (password, idx + 2)
  else
    let r := (nibble a <<< 4) ||| nibble b
    (password.take idx ++ r :: password.drop (idx + 3), idx + 1)

/-- Each round leaves fewer characters behind the index, so that as many rounds as there are
characters are enough. Source: `HttpServer::checkLogin`, the inner loop. Kind: D -/
def decodePassword : ℕ → Text → ℕ → Text
  | 0, password, _ => password
  | k + 1, password, idx =>
    match find (latin1 "%") (password.drop idx) with
    | none => password
    | some n =>
      if idx + n > 0 ∧ idx + n + 2 < password.length then
        let r := decodeEscapedChar password (idx + n)
        decodePassword k r.1 r.2
      else password

/-- One parameter; `none` is a null text. Source: `HttpServer::checkLogin`, the loop body. Kind: D -/
def loginParameter (r : Option Text × Option Text) (t : Text) : Option Text × Option Text :=
  let r :=
    if section0 '='.toUInt8 t = latin1 "username" then (section1 '='.toUInt8 t, r.2)
    else if section0 '='.toUInt8 t = latin1 "password" then (r.1, section1 '='.toUInt8 t)
    else r
  (r.1, r.2.map fun password => decodePassword (password.length + 1) password 0)

/-- Whether the user and the password are right. Source: `HttpServer::checkLogin`. Kind: D -/
def rightLogin (r : Request) : Bool :=
  if contentType r.content_type ≠ latin1 "application/x-www-form-urlencoded" then false
  else
    match (split '&'.toUInt8 (r.data.takeWhile (· ≠ 0))).foldl loginParameter (none, none) with
    | (some username, some password) =>
      username = r.settings.username ∧ r.hexDigest password = r.settings.password
    | _ => false

namespace HttpServer

/-- Source: `HttpServer::checkLogin`. Kind: D -/
def checkLogin (s : HttpServer) (r : Request) : HttpServer × Bool :=
  if rightLogin r then
    ({ s with
      session := { logged_in := true, sessionId := r.rand, last_access := s.now % day }
      login := some r.rand
      accepted := s.now }, true)
  else (s, false)

/-- The number in the cookie. Source: `HttpServer::checkSession`. Kind: D -/
def cookieNumber (cookie : Text) (idx : ℕ) : Text :=
  (cookie.drop (idx + (latin1 "KT_SESSID=").length)).takeWhile TQString.isDigit

/-- Source: `TQTime::secsTo`. Kind: D -/
def secsTo (t t' : ℕ) : ℤ := ((t' : ℤ) - t).tdiv 1000

/-- The rest of `checkSession`, for a session ID. Source: `HttpServer::checkSession`. Kind: D -/
def checkSessionId (s : HttpServer) (r : Request) (session_id : ℤ) : HttpServer × Bool :=
  if session_id = s.session.sessionId then
    -- check if the session hasn't expired yet
    if secsTo s.session.last_access (s.now % day) < r.settings.sessionTTL then
      ({ s with session := { s.session with last_access := s.now % day }, accepted := s.now }, true)
    else (s, false)
  else (s, false)

/-- Source: `HttpServer::checkSession`. Kind: D -/
def checkSession (s : HttpServer) (r : Request) : HttpServer × Bool :=
  match r.cookie with
  | none => s.checkSessionId r 0
  | some cookie =>
    match find (latin1 "KT_SESSID=") cookie with
    | none => (s, false)
    | some idx => s.checkSessionId r ((TQString.toInt (cookieNumber cookie idx)).getD 0)

/-! ### Requests -/

/-- `rootDir + bt::DirSeparator() + WebInterfacePluginSettings::skin() + name`. Kind: D -/
def fullPath (r : Request) (name : Text) : Text :=
  r.rootDir ++ latin1 "/" ++ r.settings.skin ++ name

/-- Source: `HttpClientHandler::sendFile`, with the answer when it fails. Kind: D -/
def sendFile (r : Request) (path : Text) : List Effect :=
  if r.opens path then [.sendFile path] else [.send404]

/-- Source: `HttpServer::redirectToLoginPage`. Kind: D -/
def redirectToLoginPage (r : Request) : List Effect := sendFile r (fullPath r (latin1 "/login.html"))

/-- What is sent for a page that may be sent. Source: `HttpServer::handleGet`, the second part.
Kind: D -/
def answer (s : HttpServer) (r : Request) (file path ext : Text) : List Effect :=
  if ext = latin1 "html" then sendFile r path
  else if ext ∈ [latin1 "css", latin1 "js", latin1 "png", latin1 "ico", latin1 "gif", latin1 "jpg"] then
    if r.modified then [.notModified] else sendFile r path
  else if ext = latin1 "php" then
    let execs := (r.queryItems file).length > 0 ∧ s.session.logged_in
    (if execs then [.exec file] else []) ++
      (if execs ∧ r.shutdown then redirectToLoginPage r else [.runPHP path])
  else [.send404]

/-- `path` is that of the request, or of another one made from it.
Source: `HttpServer::handleGet`. Kind: D -/
def handleGet (s : HttpServer) (r : Request) (path : Text) (do_not_check_session : Bool) :
    HttpServer × List Effect :=
  let file := if path = latin1 "/" then latin1 "/login.html" else path
  let path := fullPath r (r.urlPath file)
  if !r.disk path then (s, [.send404])
  else
    let ext := extension path
    let guarded := ext = latin1 "html" ∨ ext = latin1 "php"
    if file = latin1 "/login.html" ∨ file = latin1 "/" then
      let s := { s with session := { s.session with logged_in := false } }
      (s, s.answer r file (fullPath r (latin1 "/login.html")) (latin1 "html"))
    else if !s.session.logged_in ∧ guarded then (s, redirectToLoginPage r)
    else if s.session.logged_in ∧ !do_not_check_session ∧ guarded then
      let c := s.checkSession r
      if !c.2 then
        ({ c.1 with session := { c.1.session with logged_in := false } }, redirectToLoginPage r)
      else (c.1, c.1.answer r file path ext)
    else (s, s.answer r file path ext)

/-- The bytes behind the empty line, if they can be a torrent.
Source: `HttpServer::handleTorrentPost`. Kind: D -/
def torrentOf (data : Text) : Option Text :=
  match find (latin1 "\r\n\r\n") (data.takeWhile (· ≠ 0)) with
  | none => none
  | some pos => if data[pos + 4]? = some 'd'.toUInt8 then some (data.drop (pos + 4)) else none

/-- Source: `HttpServer::handleTorrentPost`. Kind: D -/
def handleTorrentPost (s : HttpServer) (r : Request) : HttpServer × List Effect :=
  if !s.session.logged_in then (s, redirectToLoginPage r)
  else
    let c := s.checkSession r
    if !c.2 then (c.1, redirectToLoginPage r)
    else
      match torrentOf r.data with
      | none => (c.1, [.send500])
      | some torrent =>
        if !r.temporary then (c.1, [.send500])
        else
          let g := c.1.handleGet r r.path false
          (g.1, .load torrent :: g.2)

/-- Source: `HttpServer::handlePost`. Kind: D -/
def handlePost (s : HttpServer) (r : Request) : HttpServer × List Effect :=
  if (latin1 "multipart/form-data").isPrefixOf r.content_type then s.handleTorrentPost r
  else
    let c := s.checkLogin r
    if !c.2 then c.1.handleGet r (latin1 "/login.html") false else c.1.handleGet r r.path true

/-- A request at its time. Source: `HttpClientHandler::handleRequest`. Kind: D -/
def handle (s : HttpServer) (r : Request) : HttpServer × List Effect :=
  let s := { s with now := s.now + r.wait }
  if r.post then s.handlePost r else s.handleGet r r.path false

end HttpServer

end KTorrent.Web
