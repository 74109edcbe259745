import KTorrent.Lib.GuardedRun
import KTorrent.Web.HttpServer
import Mathlib.Data.List.Infix

/-!
# Who gets what needs a login

What needs a login is a php command, a php page, a torrent, and every `.html` page but the login page.

* `handle_protected` — what needs a login is given out after a login, or to a request that gets
  something by `checkSession`.
* `Holds` — the session is that of the last successful login, and `last_access` the time of the day of
  the last request that was accepted for it; every request keeps it.
* `guarded_run_iff` — **what needs a login is given only to requests that are themselves a successful
  login, or carry the session's ID in time, exactly in the runs that meet `Clear`.**
* `next_day` — a request the next day, at an earlier time of the day, is let in.

Source: `plugins/webinterface/httpserver.cpp`
-/

namespace KTorrent.Web

open KTorrent.Lib KTorrent.Util

/-- The number the cookie carries. Kind: D -/
def Request.cookieId (r : Request) : Option ℤ :=
  r.cookie.bind fun cookie =>
    (find (latin1 "KT_SESSID=") cookie).bind fun idx =>
      TQString.toInt (HttpServer.cookieNumber cookie idx)

/-- It needs a login. Kind: D -/
def Effect.Protected (r : Request) : Effect → Prop
  | .exec _ | .runPHP _ | .load _ => True
  | .sendFile path =>
    latin1 ".html" <:+ path ∧ path ≠ HttpServer.fullPath r (latin1 "/login.html")
  | _ => False

/-- A request with a torrent. Kind: D -/
def Request.multipart (r : Request) : Bool :=
  (latin1 "multipart/form-data").isPrefixOf r.content_type

/-- The request is a successful login. Kind: D -/
def Request.LogsIn (r : Request) : Prop := r.post = true ∧ r.multipart = false ∧ rightLogin r = true

/-- The page a request asks for. Kind: D -/
def Request.page (r : Request) : Text :=
  HttpServer.fullPath r (r.urlPath (if r.path = latin1 "/" then latin1 "/login.html" else r.path))

/-- The page needs a login, and is there. Source: `HttpServer::handleGet`. Kind: D -/
def Request.Shows (r : Request) : Prop :=
  r.path ≠ latin1 "/" ∧ r.path ≠ latin1 "/login.html" ∧ r.disk r.page = true ∧
    (extension r.page = latin1 "html" ∧ r.opens r.page = true ∧
        r.page ≠ HttpServer.fullPath r (latin1 "/login.html") ∨
      extension r.page = latin1 "php")

/-- The request gets something that needs a login, once its session is right: a torrent that can be
loaded comes, or a page that needs a login is asked for.
Source: `HttpServer::handleTorrentPost`, `HttpServer::handleGet`. Kind: D -/
def Request.Gets (r : Request) : Prop :=
  if r.post then
    r.multipart = true ∧ (HttpServer.torrentOf r.data).isSome = true ∧ r.temporary = true
  else r.Shows

/-- The ID a request is taken to carry, which is 0 without a cookie or without a number in it.
Source: `HttpServer::checkSession`. Kind: D -/
def Request.takenId (r : Request) : Option ℤ :=
  match r.cookie with
  | none => some 0
  | some cookie => (find (latin1 "KT_SESSID=") cookie).map fun idx =>
      (TQString.toInt (HttpServer.cookieNumber cookie idx)).getD 0

namespace HttpServer

/-- The milliseconds since a request was last accepted. Kind: D -/
def elapsed (s : HttpServer) (r : Request) : ℤ := (s.now + r.wait : ℕ) - (s.accepted : ℤ)

/-- The request may have what needs a login. Kind: D -/
def Entitled (s : HttpServer) (r : Request) : Prop :=
  r.LogsIn ∨ ((∃ id, s.login = some id ∧ r.cookieId = some id) ∧
    s.elapsed r < r.settings.sessionTTL * 1000)

/-- What is given out to a request that may have it. Kind: D -/
def Guarded (s : HttpServer) (r : Request) : Prop :=
  ∀ e ∈ (s.handle r).2, e.Protected r → s.Entitled r

/-- While somebody is logged in, a request that gets something and is taken to carry the session's ID
does carry it in time, or the time of the day shows that its time is over. Kind: D -/
def Clear (s : HttpServer) (r : Request) : Prop :=
  s.session.logged_in = true → r.Gets → r.takenId = some s.session.sessionId →
    (r.cookieId = none ∨ r.settings.sessionTTL * 1000 ≤ s.elapsed r) →
      r.settings.sessionTTL ≤ secsTo (s.accepted % day) ((s.now + r.wait) % day)

/-- The session is that of the last login. Kind: D -/
def Holds (s : HttpServer) : Prop :=
  s.session.logged_in = true → s.login = some s.session.sessionId ∧
    s.session.last_access = s.accepted % day

/-! ### Pages -/

/-- The extension of a file ends its path. Source: `TQFileInfo::extension`. Kind: L -/
theorem extension_suffix (path : Text) : extension path <:+ path := by
  unfold extension
  dsimp only
  refine (List.drop_suffix _ _).trans ((List.dropWhile_suffix _).trans ?_)
  have h := List.takeWhile_prefix (fun c => decide (c ≠ '/'.toUInt8)) (l := path.reverse)
  have h' := List.reverse_suffix.mpr h
  rwa [List.reverse_reverse] at h'

/-- The last character of a text that ends so. Source: `plugins/webinterface/httpserver.cpp`.
Kind: L -/
theorem getLast?_suffix {a b : Text} (h : a <:+ b) (hne : a ≠ []) : b.getLast? = a.getLast? := by
  obtain ⟨t, rfl⟩ := h
  exact List.getLast?_append_of_ne_nil _ hne

/-- A page of another kind is no `.html` page. Source: `plugins/webinterface/httpserver.cpp`.
Kind: L -/
theorem not_html {path : Text}
    (h : extension path ∈ [latin1 "css", latin1 "js", latin1 "png", latin1 "ico", latin1 "gif",
      latin1 "jpg"]) : ¬ latin1 ".html" <:+ path := by
  intro hs
  have hhtml := getLast?_suffix hs (by decide)
  have hne : extension path ≠ [] := by
    intro h0
    rw [h0] at h
    revert h
    decide
  have hext := getLast?_suffix (extension_suffix path) hne
  rw [hhtml] at hext
  revert hext
  generalize extension path = ext at h
  revert ext
  decide

/-- Something among these effects needs a login. Kind: D -/
def Gives (r : Request) (es : List Effect) : Prop := ∃ e ∈ es, e.Protected r

/-- A single effect gives something when it needs a login itself. Source: none: infrastructure.
Kind: L -/
theorem gives_singleton {r : Request} {e : Effect} : Gives r [e] ↔ e.Protected r := by
  simp [Gives]

/-- Sending a file gives something when it can be opened and is an `.html` page, not the login page.
Source: `HttpClientHandler::sendFile`. Kind: L -/
theorem gives_sendFile {r : Request} {path : Text} : Gives r (sendFile r path) ↔
    r.opens path = true ∧ latin1 ".html" <:+ path ∧ path ≠ fullPath r (latin1 "/login.html") := by
  unfold sendFile
  by_cases hopen : r.opens path = true
  · rw [if_pos hopen, gives_singleton]
    exact ⟨fun h => ⟨hopen, h⟩, fun h => h.2⟩
  · rw [if_neg hopen, gives_singleton]
    exact ⟨fun h => h.elim, fun h => absurd h.1 hopen⟩

/-- The login page needs no login. Source: `HttpServer::redirectToLoginPage`. Kind: L -/
theorem redirect_gives (r : Request) : ¬ Gives r (redirectToLoginPage r) :=
  fun h => (gives_sendFile.mp h).2.2 rfl

/-- A page with the extension `html` ends so. Source: `TQFileInfo::extension`. Kind: L -/
theorem html_suffix {path : Text} (h : extension path = latin1 "html") :
    latin1 ".html" <:+ path := by
  unfold extension at h
  dsimp only at h
  have hname := List.reverse_suffix.mpr
    (List.takeWhile_prefix (fun c => decide (c ≠ '/'.toUInt8)) (l := path.reverse))
  rw [List.reverse_reverse] at hname
  have hdot := List.dropWhile_suffix (fun c => decide (c ≠ '.'.toUInt8))
    (l := (path.reverse.takeWhile fun c => decide (c ≠ '/'.toUInt8)).reverse)
  cases hrest : (path.reverse.takeWhile fun c => decide (c ≠ '/'.toUInt8)).reverse.dropWhile
      fun c => decide (c ≠ '.'.toUInt8) with
  | nil =>
    rw [hrest] at h
    exact absurd h (by decide)
  | cons c rest =>
    rw [hrest, List.drop_one, List.tail_cons] at h
    have hc := List.head_dropWhile_not (fun c => decide (c ≠ '.'.toUInt8))
      (l := (path.reverse.takeWhile fun c => decide (c ≠ '/'.toUInt8)).reverse)
      (by rw [hrest]; exact List.cons_ne_nil _ _)
    simp only [hrest, List.head_cons, decide_eq_false_iff_not, not_not] at hc
    have hall : latin1 ".html" = c :: rest := by
      rw [hc, h]
      rfl
    rw [hall, ← hrest]
    exact hdot.trans hname

/-- **What a page gives by its kind.** Source: `HttpServer::handleGet`, the second part. Kind: L -/
theorem gives_answer {s : HttpServer} {r : Request} {file path : Text} :
    Gives r (s.answer r file path (extension path)) ↔
      extension path = latin1 "html" ∧ r.opens path = true ∧
          path ≠ fullPath r (latin1 "/login.html") ∨
        extension path = latin1 "php" := by
  unfold answer
  by_cases h1 : extension path = latin1 "html"
  · rw [if_pos h1, gives_sendFile, h1]
    simp only [html_suffix h1, true_and]
    exact ⟨.inl, fun h => h.resolve_right (by decide)⟩
  rw [if_neg h1]
  by_cases h2 : extension path ∈ [latin1 "css", latin1 "js", latin1 "png", latin1 "ico",
      latin1 "gif", latin1 "jpg"]
  · rw [if_pos h2]
    have hphp : extension path ≠ latin1 "php" := by
      intro h
      rw [h] at h2
      revert h2
      decide
    have hnot : ¬ Gives r (if r.modified = true then [.notModified] else sendFile r path) := by
      split_ifs
      · exact gives_singleton.not.mpr id
      · exact fun h => not_html h2 (gives_sendFile.mp h).2.1
    simp only [hnot, h1, hphp, false_and, or_self]
  rw [if_neg h2]
  by_cases h3 : extension path = latin1 "php"
  · rw [if_pos h3]
    refine iff_of_true ?_ (.inr h3)
    dsimp only
    by_cases hexec : (r.queryItems file).length > 0 ∧ s.session.logged_in = true
    · rw [if_pos hexec]
      exact ⟨.exec file, List.mem_append_left _ (List.mem_singleton_self _), trivial⟩
    · rw [if_neg hexec, if_neg fun h => hexec h.1]
      exact ⟨.runPHP path, List.mem_append_right _ (List.mem_singleton_self _), trivial⟩
  · rw [if_neg h3]
    refine iff_of_false (gives_singleton.not.mpr id) ?_
    simp only [h1, h3, false_and, or_self, not_false_eq_true]

/-- Asking for the login page gives nothing. Source: `HttpServer::handleGet`. Kind: L -/
theorem loginPage_gives (s : HttpServer) (r : Request) (free : Bool) {path : Text}
    (h : path = latin1 "/" ∨ path = latin1 "/login.html") : ¬ Gives r (s.handleGet r path free).2 := by
  have hfile : (if path = latin1 "/" then latin1 "/login.html" else path) = latin1 "/login.html" := by
    obtain rfl | rfl := h
    · exact if_pos rfl
    · exact if_neg (by decide)
  unfold handleGet
  dsimp only
  rw [hfile]
  by_cases hdisk : (!r.disk (fullPath r (r.urlPath (latin1 "/login.html")))) = true
  · rw [if_pos hdisk]
    exact gives_singleton.not.mpr id
  · rw [if_neg hdisk, if_pos (.inl rfl)]
    unfold answer
    rw [if_pos rfl]
    exact fun h => (gives_sendFile.mp h).2.2 rfl

/-- **What a GET gives**: the page needs a login and is there, and the session is right.
Source: `HttpServer::handleGet`. Kind: L -/
theorem gives_handleGet {s : HttpServer} {r : Request} :
    Gives r (s.handleGet r r.path false).2 ↔
      s.session.logged_in = true ∧ r.Shows ∧ (s.checkSession r).2 = true := by
  by_cases hlogin : r.path = latin1 "/" ∨ r.path = latin1 "/login.html"
  · refine iff_of_false (loginPage_gives s r false hlogin) ?_
    rintro ⟨-, ⟨h1, h2, -⟩, -⟩
    exact hlogin.elim h1 h2
  obtain ⟨h1, h2⟩ := not_or.mp hlogin
  have hpage : r.page = fullPath r (r.urlPath r.path) := by
    unfold Request.page
    rw [if_neg h1]
  unfold handleGet
  dsimp only
  rw [if_neg h1, ← hpage]
  unfold Request.Shows
  by_cases hdisk : r.disk r.page = true
  swap
  · rw [if_pos (by simpa using hdisk)]
    exact iff_of_false (gives_singleton.not.mpr id) fun h => hdisk h.2.1.2.2.1
  rw [if_neg (by simpa using hdisk), if_neg fun h => h.elim h2 h1]
  by_cases hin : s.session.logged_in = true
  swap
  · refine iff_of_false ?_ fun h => hin h.1
    split_ifs with hout hcheck
    · exact redirect_gives r
    · exact absurd hcheck.1 hin
    · exact absurd hcheck.1 hin
    · rintro h
      have hext := gives_answer.mp h
      exact hout ⟨by simpa using hin, hext.imp And.left id⟩
  rw [if_neg (by simp [hin])]
  by_cases hext : extension r.page = latin1 "html" ∨ extension r.page = latin1 "php"
  · rw [if_pos ⟨hin, rfl, hext⟩]
    by_cases hcheck : (s.checkSession r).2 = true
    · rw [if_neg (by simp [hcheck]), gives_answer]
      simp only [hin, h1, h2, hdisk, hcheck, ne_eq, not_false_eq_true, true_and, and_true]
    · rw [if_pos (by simpa using hcheck)]
      exact iff_of_false (redirect_gives r) fun h => hcheck h.2.2
  · rw [if_neg fun h => hext h.2.2]
    refine iff_of_false (fun h => hext ?_) fun h => hext ?_
    · exact (gives_answer.mp h).imp And.left id
    · exact h.2.1.2.2.2.imp And.left id

/-! ### The session -/

/-- **When the session is right.** Source: `HttpServer::checkSession`. Kind: L -/
theorem checkSession_iff {s : HttpServer} {r : Request} : (s.checkSession r).2 = true ↔
    r.takenId = some s.session.sessionId ∧
      secsTo s.session.last_access (s.now % day) < r.settings.sessionTTL := by
  have hid : ∀ id : ℤ, (s.checkSessionId r id).2 = true ↔ some id = some s.session.sessionId ∧
      secsTo s.session.last_access (s.now % day) < r.settings.sessionTTL := by
    intro id
    unfold checkSessionId
    split_ifs with h1 h2
    · simp [h1, h2]
    · simp [h2]
    · simp [h1]
  unfold checkSession Request.takenId
  cases r.cookie with
  | none => exact hid 0
  | some cookie =>
    dsimp only
    cases find (latin1 "KT_SESSID=") cookie with
    | none => simp
    | some idx => exact hid _

/-- A request carries the ID it is taken to carry, or none. Source: `HttpServer::checkSession`.
Kind: L -/
theorem cookieId_of_takenId {r : Request} {id : ℤ} (h : r.takenId = some id) :
    r.cookieId = none ∨ r.cookieId = some id := by
  unfold Request.takenId at h
  unfold Request.cookieId
  cases hcookie : r.cookie with
  | none => exact .inl rfl
  | some cookie =>
    rw [hcookie] at h
    dsimp only at h
    rw [Option.bind_some]
    obtain ⟨idx, hidx, hnum⟩ := Option.map_eq_some_iff.mp h
    rw [hidx, Option.bind_some]
    cases hint : TQString.toInt (cookieNumber cookie idx) with
    | none => exact .inl rfl
    | some v =>
      rw [hint] at hnum
      exact .inr (congrArg some hnum)

/-- A check keeps everything, or notes that the request was accepted.
Source: `HttpServer::checkSession`. Kind: L -/
theorem checkSession_cases (s : HttpServer) (r : Request) :
    (s.checkSession r).1 = s ∨ (s.checkSession r).1 =
      { s with session := { s.session with last_access := s.now % day }, accepted := s.now } := by
  have hid : ∀ id : ℤ, (s.checkSessionId r id).1 = s ∨ (s.checkSessionId r id).1 =
      { s with session := { s.session with last_access := s.now % day }, accepted := s.now } := by
    intro id
    unfold checkSessionId
    split_ifs
    · exact .inr rfl
    · exact .inl rfl
    · exact .inl rfl
  unfold checkSession
  split
  · exact hid 0
  · split
    · exact .inl rfl
    · exact hid _

/-- A check keeps the session's state. Source: `HttpServer::checkSession`. Kind: L -/
theorem Holds.checkSession {s : HttpServer} (h : s.Holds) (r : Request) : (s.checkSession r).1.Holds := by
  obtain heq | heq := checkSession_cases s r
  · rwa [heq]
  · rw [heq]
    exact fun hin => ⟨(h hin).1, rfl⟩

/-- Nobody is logged in. Source: `plugins/webinterface/httpserver.cpp`. Kind: L -/
theorem holds_out {s : HttpServer} (h : s.session.logged_in = false) : s.Holds := by
  intro hin
  rw [h] at hin
  cases hin

/-- A GET keeps the session's state. Source: `HttpServer::handleGet`. Kind: L -/
theorem Holds.handleGet {s : HttpServer} (h : s.Holds) (r : Request) (path : Text) (free : Bool) :
    (s.handleGet r path free).1.Holds := by
  obtain ⟨file, hfile⟩ : ∃ file,
      (if path = latin1 "/" then latin1 "/login.html" else path) = file := ⟨_, rfl⟩
  unfold HttpServer.handleGet
  dsimp only
  rw [hfile]
  split_ifs
  · exact h
  · exact holds_out rfl
  · exact h
  · exact holds_out rfl
  · exact h.checkSession r
  · exact h

/-- An upload keeps the session's state. Source: `HttpServer::handleTorrentPost`. Kind: L -/
theorem Holds.handleTorrentPost {s : HttpServer} (h : s.Holds) (r : Request) :
    (s.handleTorrentPost r).1.Holds := by
  unfold HttpServer.handleTorrentPost
  dsimp only
  by_cases hin : (!s.session.logged_in) = true
  · rwa [if_pos hin]
  rw [if_neg hin]
  by_cases hcheck : (!(s.checkSession r).2) = true
  · rw [if_pos hcheck]
    exact h.checkSession r
  rw [if_neg hcheck]
  cases torrentOf r.data with
  | none => exact h.checkSession r
  | some torrent =>
    dsimp only
    by_cases htmp : (!r.temporary) = true
    · rw [if_pos htmp]
      exact h.checkSession r
    · rw [if_neg htmp]
      exact (h.checkSession r).handleGet r r.path false

/-- A login keeps it, and makes a new session. Source: `HttpServer::checkLogin`. Kind: L -/
theorem Holds.checkLogin {s : HttpServer} (h : s.Holds) (r : Request) : (s.checkLogin r).1.Holds := by
  unfold HttpServer.checkLogin
  split_ifs
  · exact fun _ => ⟨rfl, rfl⟩
  · exact h

/-- **Every request keeps this.**. Source: `HttpClientHandler::handleRequest`. Kind: L -/
theorem Holds.handle {s : HttpServer} (h : s.Holds) (r : Request) : (s.handle r).1.Holds := by
  have h' : Holds { s with now := s.now + r.wait } := h
  unfold HttpServer.handle
  dsimp only
  split_ifs
  · unfold handlePost
    dsimp only
    split_ifs
    · exact h'.handleTorrentPost r
    · exact (h'.checkLogin r).handleGet r _ _
    · exact (h'.checkLogin r).handleGet r _ _
  · exact h'.handleGet r _ _

/-- A torrent is loaded when it can be and the session is right.
Source: `HttpServer::handleTorrentPost`. Kind: L -/
theorem gives_handleTorrentPost {s : HttpServer} {r : Request} :
    Gives r (s.handleTorrentPost r).2 ↔ s.session.logged_in = true ∧
      ((torrentOf r.data).isSome = true ∧ r.temporary = true) ∧ (s.checkSession r).2 = true := by
  unfold handleTorrentPost
  dsimp only
  by_cases hin : s.session.logged_in = true
  swap
  · rw [if_pos (by simpa using hin)]
    exact iff_of_false (redirect_gives r) fun h => hin h.1
  rw [if_neg (by simp [hin])]
  by_cases hcheck : (s.checkSession r).2 = true
  swap
  · rw [if_pos (by simpa using hcheck)]
    exact iff_of_false (redirect_gives r) fun h => hcheck h.2.2
  rw [if_neg (by simp [hcheck])]
  cases torrentOf r.data with
  | none => exact iff_of_false (gives_singleton.not.mpr id) fun h => by simp at h
  | some torrent =>
    dsimp only
    by_cases htmp : r.temporary = true
    · rw [if_neg (by simp [htmp])]
      exact iff_of_true ⟨.load torrent, List.mem_cons_self, trivial⟩ ⟨hin, ⟨rfl, htmp⟩, hcheck⟩
    · rw [if_pos (by simpa using htmp)]
      exact iff_of_false (gives_singleton.not.mpr id) fun h => htmp h.2.1.2

/-- **What a request gives that is no login.** Source: `HttpClientHandler::handleRequest`. Kind: L -/
theorem gives_handle {s : HttpServer} {r : Request} (hlogin : ¬ r.LogsIn) :
    Gives r (s.handle r).2 ↔ s.session.logged_in = true ∧ r.Gets ∧
      (HttpServer.checkSession { s with now := s.now + r.wait } r).2 = true := by
  unfold HttpServer.handle Request.Gets
  dsimp only
  by_cases hpost : r.post = true
  swap
  · rw [if_neg hpost, if_neg hpost]
    exact gives_handleGet
  rw [if_pos hpost, if_pos hpost]
  unfold handlePost
  rw [show (latin1 "multipart/form-data").isPrefixOf r.content_type = r.multipart from rfl]
  by_cases hmulti : r.multipart = true
  · rw [if_pos hmulti]
    simpa only [hmulti, true_and] using gives_handleTorrentPost
  · -- a login that fails
    have hwrong : rightLogin r = false := by
      by_contra hright
      exact hlogin ⟨hpost, by simpa using hmulti, by simpa using hright⟩
    rw [if_neg hmulti]
    dsimp only
    unfold checkLogin
    rw [hwrong]
    exact iff_of_false (loginPage_gives _ r false (.inr rfl)) fun h => hmulti h.2.1.1

/-- **One request**: what it gives out it may have, exactly when it meets `Clear`.
Source: `plugins/webinterface/httpserver.cpp`. Kind: L -/
theorem guarded_iff {s : HttpServer} (h : s.Holds) (r : Request) : s.Guarded r ↔ s.Clear r := by
  by_cases hlogin : r.LogsIn
  · refine iff_of_true (fun e _ _ => .inl hlogin) fun _ hgets => ?_
    unfold Request.Gets at hgets
    rw [if_pos hlogin.1, hlogin.2.1] at hgets
    cases hgets.1
  constructor
  · intro hguarded hin hgets htaken hbad
    obtain ⟨hid, hlast⟩ := h hin
    rw [← hlast]
    by_contra htime
    have hcheck : (HttpServer.checkSession { s with now := s.now + r.wait } r).2 = true :=
      checkSession_iff.mpr ⟨htaken, not_le.mp htime⟩
    obtain ⟨e, he, hp⟩ := (gives_handle hlogin).mpr ⟨hin, hgets, hcheck⟩
    obtain h' | ⟨⟨id, -, hcarries⟩, hearly⟩ := hguarded e he hp
    · exact hlogin h'
    · obtain hnone | hlate := hbad
      · rw [hnone] at hcarries
        cases hcarries
      · exact absurd hearly (not_lt.mpr hlate)
  · intro hclear e he hp
    obtain ⟨hin, hgets, hcheck⟩ := (gives_handle hlogin).mp ⟨e, he, hp⟩
    obtain ⟨htaken, htime⟩ := checkSession_iff.mp hcheck
    obtain ⟨hid, hlast⟩ := h hin
    have hgood : ¬ (r.cookieId = none ∨ r.settings.sessionTTL * 1000 ≤ s.elapsed r) := by
      intro hbad
      have hshows := hclear hin hgets htaken hbad
      rw [← hlast] at hshows
      exact absurd htime (not_lt.mpr hshows)
    obtain ⟨hcarries, hearly⟩ := not_or.mp hgood
    exact .inr ⟨⟨_, hid, (cookieId_of_takenId htaken).resolve_left hcarries⟩, not_le.mp hearly⟩

/-! ### Runs -/

/-- The server after a request. Kind: D -/
def step (s : HttpServer) (r : Request) : HttpServer := (s.handle r).1

/-- Nobody has logged in; the constructor does not set the ID. Source: `HttpServer::HttpServer`.
Kind: D -/
def start (sessionId : ℤ) : HttpServer := { session := ⟨false, 0, sessionId⟩ }

/-- **The session guard.** What needs a login is given only to requests that are themselves a
successful login, or that carry the ID of the last one, less than `sessionTTL` seconds after a
request was last accepted for it, exactly in the runs of requests that meet `Clear`.
Source: `plugins/webinterface/httpserver.cpp`. Kind: P -/
theorem guarded_run_iff (sessionId : ℤ) (rs : List Request) :
    Meets step Guarded (start sessionId) rs ↔ Meets step Clear (start sessionId) rs := by
  apply Meets.congr
  have hkeep : ∀ s r, Holds s → True → Holds (step s r) := fun s r hs _ => hs.handle r
  exact (meets_true (start sessionId) rs).forall_step hkeep (fun s r hs _ => guarded_iff hs r)
    (holds_out rfl)

/-- A request of somebody whose password is `abc`. Kind: D -/
def sample (wait : ℕ) (path : String) (cookie : Option String) : Request where
  wait := wait
  post := false
  path := latin1 path
  cookie := cookie.map latin1
  settings := ⟨latin1 "user", latin1 "900150983cd24fb0d6963f7d28e17f72", 3600, latin1 "default"⟩
  rootDir := latin1 "/www"
  hexDigest := fun _ => latin1 "900150983cd24fb0d6963f7d28e17f72"
  rand := 1804289383
  urlPath := id
  queryItems := fun _ => []
  disk := fun _ => true
  opens := fun _ => true

/-- A login. Kind: D -/
def sampleLogin (wait : ℕ) : Request :=
  { sample wait "/interface.php" none with
    post := true
    content_type := latin1 "application/x-www-form-urlencoded"
    data := latin1 "username=user&password=abc" }

/-- A login at 23:00 and a page 22 hours later: two hours have passed, says the time of the day, and
not forwards. Source: `plugins/webinterface/httpserver.cpp`. Kind: L -/
theorem next_day : ¬ Meets step Guarded (start 0)
    [sampleLogin 82800000, sample 79200000 "/interface.php" (some "KT_SESSID=1804289383")] := by
  rintro ⟨-, hguarded, -⟩
  have hrun : Effect.runPHP (latin1 "/www/default/interface.php") ∈
      ((step (start 0) (sampleLogin 82800000)).handle
        (sample 79200000 "/interface.php" (some "KT_SESSID=1804289383"))).2 := by decide +kernel
  obtain ⟨hpost, -⟩ | ⟨-, htime⟩ := hguarded _ hrun trivial
  · cases hpost
  · exact absurd htime (by decide +kernel)

end HttpServer

end KTorrent.Web
